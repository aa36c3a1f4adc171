import RhoFEM.Frontend.MemberPointers

/-! The rewritten code computes, for every constant in an operand, its value with the new indices
in the member pointers. -/

namespace RhoFEM.Frontend

open RhoFEM.Lib.Fold RhoFEM.Lib.Search RhoFEM.Lib.Simulation RhoFEM.Lib.Straightline

section Contains

variable {users : Users} {code : Code}

variable (users) in
/-- A member pointer is the constant or stands below it. -/
def Holds (r : Ref) : Prop := ∃ x, Reaches users.operands r x ∧ users.isMemberPointer x = true

variable (users code) in
def constOperands (v : Value) : List Value := (operandsOf users code v).filter isConst

theorem isConst_of_isMemberPointer {v : Value} (h : isMemberPointer users v = true) :
    isConst v = true := by
  cases v with
  | const c => rfl
  | inst id => cases h

theorem reaches_user {r : Ref} {v : Value}
    (h : Reaches (constOperands users code) (.const (.user r)) v) :
    ∃ x, v = .const (.user x) ∧ Reaches users.operands r x := by
  induction h with
  | refl => exact ⟨r, rfl, .refl⟩
  | tail _ hop ih =>
    obtain ⟨x, rfl, hx⟩ := ih
    obtain ⟨op, hmem, rfl⟩ := List.mem_map.mp (List.mem_filter.mp hop).1
    exact ⟨op, rfl, hx.tail hmem⟩

theorem user_reaches {r x : Ref} (h : Reaches users.operands r x) :
    Reaches (constOperands users code) (.const (.user r)) (.const (.user x)) := by
  induction h with
  | refl => exact .refl
  | tail _ hop ih => exact ih.tail (List.mem_filter.mpr ⟨List.mem_map_of_mem hop, rfl⟩)

theorem holds_of_reaches {op v : Value} (hconst : isConst op)
    (h : Reaches (constOperands users code) op v) (hpointer : isMemberPointer users v = true) :
    ∃ r, op = .const (.user r) ∧ Holds users r := by
  rcases op with c | id
  · cases c with
    | user r =>
      obtain ⟨x, rfl, hx⟩ := reaches_user h
      exact ⟨r, rfl, x, hx, hpointer⟩
    | _ =>
      rcases h.cases_head with rfl | ⟨_, hop, _⟩
      · cases hpointer
      · cases hop
  · cases hconst

variable (users code) in
/-- What a part of the search has seen, and that it has found no member pointer there. -/
structure Searched (st st' : Bool × List Value) : Prop where
  grows : st.2 ⊆ st'.2
  closed : ∀ x ∈ st'.2, x ∉ st.2 → ∀ op ∈ constOperands users code x, op ∈ st'.2
  found : st'.1 = false → st.1 = false ∧
    ∀ x ∈ st'.2, x ∉ st.2 → ∀ op ∈ constOperands users code x, isMemberPointer users op = false

theorem Searched.of_seen_eq {next next' : Bool} (h : next' = false → next = false)
    (seenUsers : List Value) : Searched users code (next, seenUsers) (next', seenUsers) where
  grows := List.Subset.refl _
  closed _ hx hnew := absurd hx hnew
  found hfalse := ⟨h hfalse, fun _ hx hnew => absurd hx hnew⟩

theorem Searched.trans {st st' st'' : Bool × List Value} (h : Searched users code st st')
    (h' : Searched users code st' st'') : Searched users code st st'' where
  grows := List.Subset.trans h.grows h'.grows
  closed x hx hnew op hop := by
    by_cases hx' : x ∈ st'.2
    · exact h'.grows (h.closed x hx' hnew op hop)
    · exact h'.closed x hx hx' op hop
  found hfalse := by
    obtain ⟨hst', hrest⟩ := h'.found hfalse
    obtain ⟨hst, hdone⟩ := h.found hst'
    refine ⟨hst, fun x hx hnew op hop => ?_⟩
    by_cases hx' : x ∈ st'.2
    · exact hdone x hx' hnew op hop
    · exact hrest x hx hx' op hop

theorem sdFold_searched (fuel : Nat) {u : Value} {st st' : Bool × List Value}
    (h : sdFold users (sdIsmemptr users) code fuel u st = .ok st') :
    Searched users code st st' ∧ u ∈ st'.2 := by
  induction fuel generalizing u st st' with
  | zero => cases h
  | succ fuel ih =>
    obtain ⟨next, seenUsers⟩ := st
    rw [sdFold] at h
    split at h
    · rename_i hseen
      obtain rfl := Except.ok.inj h
      exact ⟨.of_seen_eq id _, hseen⟩
    · have hloop := foldlM_ok_rule (fun done (t : Bool × List Value) =>
        Searched users code (next, seenUsers ++ [u]) t ∧ ∀ e ∈ done, isConst e.1 → e.1 ∈ t.2 ∧
          (t.1 = false → isMemberPointer users e.1 = false)) ?step ?start h
      case start => exact ⟨.of_seen_eq id _, List.forall_mem_nil _⟩
      case step =>
        rintro done ⟨op, i⟩ t t' ⟨ht, hdone⟩ - hstep
        have hcallback : Searched users code t (sdIsmemptr users t.1 i op, t.2) :=
          .of_seen_eq (fun hfalse => (Bool.or_eq_false_iff.mp hfalse).1) _
        have hkept : ∀ {t'}, Searched users code (sdIsmemptr users t.1 i op, t.2) t' →
            ∀ e ∈ done, isConst e.1 → e.1 ∈ t'.2 ∧
              (t'.1 = false → isMemberPointer users e.1 = false) := by
          intro t' hsearched e he hconst
          obtain ⟨hmem, hfound⟩ := hdone e he hconst
          exact ⟨hsearched.grows hmem,
            fun hfalse => hfound (hcallback.found (hsearched.found hfalse).1).1⟩
        dsimp only at hstep
        split at hstep
        · obtain ⟨hsearched, hop⟩ := ih hstep
          refine ⟨ht.trans (hcallback.trans hsearched), ?_⟩
          rw [List.forall_mem_append, List.forall_mem_singleton]
          exact ⟨hkept hsearched, fun _ => ⟨hop,
            fun hfalse => (Bool.or_eq_false_iff.mp (hsearched.found hfalse).1).2⟩⟩
        · rename_i hinst
          obtain rfl := Except.ok.inj hstep
          refine ⟨ht.trans hcallback, ?_⟩
          rw [List.forall_mem_append, List.forall_mem_singleton]
          exact ⟨hkept (.of_seen_eq id _), fun hconst => absurd hconst hinst⟩
      obtain ⟨ht, hops⟩ := hloop
      have hop : ∀ op ∈ constOperands users code u, op ∈ st'.2 ∧
          (st'.1 = false → isMemberPointer users op = false) := by
        intro op hop
        obtain ⟨hop, hconst⟩ := List.mem_filter.mp hop
        obtain ⟨i, hi⟩ := List.mem_iff_getElem?.mp hop
        exact hops (op, i) (List.mem_zipIdx_iff_getElem?.mpr hi) hconst
      have hseen : ∀ x ∉ seenUsers, x ≠ u → x ∉ seenUsers ++ [u] :=
        fun x hx hne => by simp [hx, hne]
      refine ⟨⟨fun x hx => ht.grows (by simp [hx]), ?_, ?_⟩, ht.grows (by simp)⟩
      · intro x hx hnew op hopx
        rcases eq_or_ne x u with rfl | hne
        · exact (hop op hopx).1
        · exact ht.closed x hx (hseen x hnew hne) op hopx
      · intro hfalse
        refine ⟨(ht.found hfalse).1, fun x hx hnew op hopx => ?_⟩
        rcases eq_or_ne x u with rfl | hne
        · exact (hop op hopx).2 hfalse
        · exact (ht.found hfalse).2 x hx (hseen x hnew hne) op hopx

/-- A search that finds nothing has seen everything below. -/
theorem not_holds_of_sdContainsMemptr {fuel : Nat} {r : Ref}
    (h : sdContainsMemptr users fuel code (.const (.user r)) = .ok false) : ¬ Holds users r := by
  rintro ⟨x, hx, hpointer⟩
  unfold sdContainsMemptr at h
  split at h
  · cases h
  · rename_i hc
    obtain ⟨⟨found, seenUsers⟩, hfold, rfl⟩ := map_eq_ok.mp h
    obtain ⟨hsearched, hmem⟩ := sdFold_searched fuel hfold
    have hseen : ∀ v, Reaches (constOperands users code) (.const (.user r)) v → v ∈ seenUsers := by
      intro v hv
      induction hv with
      | refl => exact hmem
      | tail _ hop ih => exact hsearched.closed _ ih List.not_mem_nil _ hop
    cases hx with
    | refl => exact hc hpointer
    | tail hy hop =>
      have hfalse := (hsearched.found rfl).2 _ (hseen _ (user_reaches hy)) List.not_mem_nil _
        (List.mem_filter.mpr ⟨List.mem_map_of_mem hop, rfl⟩)
      exact Bool.false_ne_true (hfalse.symm.trans hpointer)

/-- What a search finds stands below. -/
theorem sdFold_found (fuel : Nat) {u : Value} {st st' : Bool × List Value}
    (h : sdFold users (sdIsmemptr users) code fuel u st = .ok st') (hfound : st'.1 = true) :
    st.1 = true ∨ ∃ op ∈ constOperands users code u, ∃ v,
      Reaches (constOperands users code) op v ∧ isMemberPointer users v = true := by
  induction fuel generalizing u st st' with
  | zero => cases h
  | succ fuel ih =>
    obtain ⟨next, seenUsers⟩ := st
    rw [sdFold] at h
    split at h
    · obtain rfl := Except.ok.inj h
      exact .inl hfound
    · refine foldlM_ok_rule (fun _ (t : Bool × List Value) => t.1 = true → next = true ∨
        ∃ op ∈ constOperands users code u, ∃ v, Reaches (constOperands users code) op v ∧
          isMemberPointer users v = true) ?step .inl h hfound
      rintro done ⟨op, i⟩ t t' ht hmem hstep htrue
      have hop : op ∈ operandsOf users code u :=
        List.mem_of_getElem? (List.mem_zipIdx_iff_getElem?.mp hmem)
      have hcallback : sdIsmemptr users t.1 i op = true → next = true ∨
          ∃ op ∈ constOperands users code u, ∃ v, Reaches (constOperands users code) op v ∧
            isMemberPointer users v = true := by
        intro hc
        rcases Bool.or_eq_true_iff.mp hc with hold | hpointer
        · exact ht hold
        · exact .inr ⟨op, List.mem_filter.mpr ⟨hop, isConst_of_isMemberPointer hpointer⟩, op, .refl,
            hpointer⟩
      dsimp only at hstep
      split at hstep
      · rename_i hconst
        rcases ih hstep htrue with hc | ⟨op', hop', v, hv, hpointer⟩
        · exact hcallback hc
        · exact .inr ⟨op, List.mem_filter.mpr ⟨hop, hconst⟩, v, .head hop' hv, hpointer⟩
      · obtain rfl := Except.ok.inj hstep
        exact hcallback htrue

theorem reaches_of_sdContainsMemptr {fuel : Nat} {v : Value}
    (h : sdContainsMemptr users fuel code v = .ok true) :
    ∃ x, Reaches (constOperands users code) v x ∧ isMemberPointer users x = true := by
  unfold sdContainsMemptr at h
  split at h
  · rename_i hpointer
    exact ⟨v, .refl, hpointer⟩
  · obtain ⟨st, hfold, htrue⟩ := map_eq_ok.mp h
    rcases sdFold_found fuel hfold htrue with hfalse | ⟨op, hop, x, hx, hpointer⟩
    · cases hfalse
    · exact ⟨x, .head hop hx, hpointer⟩

theorem holds_of_sdContainsMemptr {fuel id : Nat}
    (h : sdContainsMemptr users fuel code (.inst id) = .ok true) :
    ∃ r, .const (.user r) ∈ code.operands id ∧ Holds users r := by
  obtain ⟨x, hx, hpointer⟩ := reaches_of_sdContainsMemptr h
  rcases hx.cases_head with rfl | ⟨op, hop, hx⟩
  · cases hpointer
  · obtain ⟨hop, hconst⟩ := List.mem_filter.mp hop
    obtain ⟨r, rfl, hholds⟩ := holds_of_reaches hconst hx hpointer
    exact ⟨r, hop, hholds⟩

end Contains

section Meaning

variable {S V : Type} (sem : Semantics S V) {users : Users}

theorem node_pointer_congr (pointer pointer' : String → Int → Int → V) {r : Ref}
    (h : users.isMemberPointer r = false) (value : Ref → V) :
    sem.node users pointer value r = sem.node users pointer' value r := by
  unfold Users.isMemberPointer at h
  unfold Semantics.node
  split
  · rfl
  · rename_i hkind _
    rw [hkind] at h
    cases h
  all_goals rfl

/-- Constants without member pointers mean the same. -/
theorem denote_eq_of_not_holds (pointer pointer' : String → Int → Int → V) (r : Ref)
    (h : ¬ Holds users r) : sem.denote users pointer r = sem.denote users pointer' r := by
  induction r using Nat.strong_induction_on with
  | _ r ih =>
    have hroot : users.isMemberPointer r = false := by
      refine eq_false_of_ne_true fun hpointer => h ⟨r, .refl, hpointer⟩
    rw [sem.denote_eq, sem.denote_eq, node_pointer_congr sem pointer pointer' hroot]
    apply sem.node_congr
    intro hkind op hop
    exact ih op (users.operands_lt hkind hop) fun ⟨x, hx, hpointer⟩ => h ⟨x, .head hop hx, hpointer⟩

variable {sem} in
theorem denote_memberPointer {className : String} {r ind adj : Ref} {ops : List Ref} {n : Int}
    (hkind : users.kind r = .constantMemberPointer className)
    (hops : users.operands r = ind :: adj :: ops) (hn : constantInt users.table ind = some n) :
    ∃ m, constantInt users.table adj = some m ∧
      ∀ pointer, sem.denote users pointer r = pointer className n m := by
  obtain ⟨ind', adj', n', m, hops', hn', hm⟩ := Users.operands_memberPointer hkind
  obtain ⟨rfl, htail⟩ := List.cons.inj (hops.symm.trans hops')
  obtain ⟨rfl, rfl⟩ := List.cons.inj htail
  refine ⟨m, hm, fun pointer => ?_⟩
  rw [sem.denote_eq, Semantics.node, hkind, hops]
  simp only [hn, hm]

end Meaning

section Exposed

variable {users : Users}

variable (users) in
/-- The unfolding gives another value for the constant. -/
inductive Exposed : Ref → Prop
  | memberPointer {r ind adj : Ref} {className : String} {ops : List Ref} {n : Int}
      (kind : users.kind r = .constantMemberPointer className)
      (operands : users.operands r = ind :: adj :: ops)
      (index : constantInt users.table ind = some n) (nonnull : n ≠ 0) : Exposed r
  | expr {r op : Ref} {opcode : ExprOpcode} (kind : users.kind r = .constantExpr opcode)
      (mem : op ∈ users.operands r) (operand : Exposed op) : Exposed r
  | struct {r op : Ref} (kind : users.kind r = .constantStruct) (mem : op ∈ users.operands r)
      (operand : Exposed op) : Exposed r

variable (users) in
/-- The unfolding puts elements into a constant struct, which it leaves as an operand. -/
inductive ExposesStruct : Ref → Prop
  | struct {r op : Ref} (kind : users.kind r = .constantStruct) (mem : op ∈ users.operands r)
      (operand : Exposed users op) : ExposesStruct r
  | expr {r op : Ref} {opcode : ExprOpcode} (kind : users.kind r = .constantExpr opcode)
      (mem : op ∈ users.operands r) (operand : ExposesStruct op) : ExposesStruct r

theorem Exposed.holds {r : Ref} (h : Exposed users r) : Holds users r := by
  induction h with
  | @memberPointer r _ _ _ _ _ kind _ _ _ =>
    exact ⟨r, .refl, by rw [Users.isMemberPointer, kind]⟩
  | expr _ mem _ ih =>
    obtain ⟨x, hx, hpointer⟩ := ih
    exact ⟨x, .head mem hx, hpointer⟩
  | struct _ mem _ ih =>
    obtain ⟨x, hx, hpointer⟩ := ih
    exact ⟨x, .head mem hx, hpointer⟩

theorem ExposesStruct.exposed {r : Ref} (h : ExposesStruct users r) : Exposed users r := by
  induction h with
  | struct kind mem operand => exact .struct kind mem operand
  | expr kind mem _ ih => exact .expr kind mem ih

theorem exists_exposed_operand {r : Ref} (h : users.isMemberPointer r = false)
    (hexposed : Exposed users r) : ∃ op ∈ users.operands r, Exposed users op := by
  cases hexposed with
  | memberPointer kind => simp [Users.isMemberPointer, kind] at h
  | expr _ mem operand => exact ⟨_, mem, operand⟩
  | struct _ mem operand => exact ⟨_, mem, operand⟩

theorem not_exposed_of_constantInt {r : Ref} {n : Int} (h : constantInt users.table r = some n) :
    ¬ Exposed users r := by
  have hkind := Users.kind_of_constantInt h
  intro hexposed
  cases hexposed with
  | memberPointer kind => cases hkind.symm.trans kind
  | expr kind => cases hkind.symm.trans kind
  | struct kind => cases hkind.symm.trans kind

variable (users) in
/-- What the unfolding of a constant can do when its operands have been unfolded. -/
inductive Unfolds (root : Ref) (children : List Value) (code : Code) : Value → Code → Prop
  | null {className : String} {ind adj : Ref} {ops : List Ref}
      (kind : users.kind root = .constantMemberPointer className)
      (operands : users.operands root = ind :: adj :: ops)
      (index : constantInt users.table ind = some 0) :
      Unfolds root children code (.const (.user root)) code
  | unchanged (kind : users.isMemberPointer root = false)
      (const : ∀ child ∈ children, isConst child) :
      Unfolds root children code (.const (.user root)) code
  | globalValue (kind : users.kind root = .globalValue) :
      Unfolds root children code (.const (.user root)) code
  | absent (none : ¬ Holds users root) : Unfolds root children code (.const (.user root)) code
  | memberPointer {className : String} {ind adj : Ref} {ops : List Ref} {n : Int}
      (kind : users.kind root = .constantMemberPointer className)
      (operands : users.operands root = ind :: adj :: ops)
      (index : constantInt users.table ind = some n) (nonnull : n ≠ 0) :
      Unfolds root children code (unfoldMemberPointer n adj className code).1
        (unfoldMemberPointer n adj className code).2
  | expr {opcode : ExprOpcode} (kind : users.kind root = .constantExpr opcode)
      (inst : ∃ child ∈ children, isConst child = false) :
      Unfolds root children code (code.emit (.expr opcode) children).1
        (code.emit (.expr opcode) children).2
  | struct (kind : users.kind root = .constantStruct)
      (inst : ∃ child ∈ children, isConst child = false) :
      Unfolds root children code (children.zipIdx.foldl insertChild (.const (.user root), code)).1
        (children.zipIdx.foldl insertChild (.const (.user root), code)).2

theorem unfoldConst_unfolds {fuel : Nat} {root : Ref} {children : List Value} {code code' : Code}
    {v : Value} (h : unfoldConst users fuel root children code = .ok (v, code')) :
    Unfolds users root children code v code' := by
  have hsearch : ∀ {failure}, (do
      if ← sdContainsMemptr users fuel code (.const (.user root)) then throw failure
      return (.const (.user root), code)) = Except.ok (v, code') →
        Unfolds users root children code v code' := by
    intro failure hv
    rw [bind_eq_ok] at hv
    obtain ⟨contains, hcontains, hv⟩ := hv
    cases contains with
    | true => cases hv
    | false =>
      obtain ⟨rfl, rfl⟩ := Prod.mk.inj (Except.ok.inj hv)
      exact .absent (not_holds_of_sdContainsMemptr hcontains)
  unfold unfoldConst at h
  dsimp only at h
  split at h
  · rename_i className hkind
    split at h
    · rename_i ind adj ops hops
      split at h
      · cases h
      · rename_i n hn
        split at h
        · rename_i hnull
          subst hnull
          obtain ⟨rfl, rfl⟩ := Prod.mk.inj (Except.ok.inj h)
          exact .null hkind hops hn
        · rename_i hnonnull
          obtain ⟨rfl, rfl⟩ := Prod.mk.inj (Except.ok.inj h)
          exact .memberPointer hkind hops hn hnonnull
    · cases h
  · rename_i hkind
    split at h
    · rename_i hall
      obtain ⟨rfl, rfl⟩ := Prod.mk.inj (Except.ok.inj h)
      refine .unchanged ?_ (List.all_eq_true.mp hall)
      unfold Users.isMemberPointer
      split
      · exact absurd ‹_› (hkind _)
      · rfl
    · rename_i hnotall
      have hinst : ∃ child ∈ children, isConst child = false := by
        simpa using hnotall
      split at h
      case h_1 hexpr =>
        split at h
        · cases h
        · obtain ⟨rfl, rfl⟩ := Prod.mk.inj (Except.ok.inj h)
          exact .expr hexpr hinst
      case h_2 => cases h
      case h_3 hexpr =>
        obtain ⟨rfl, rfl⟩ := Prod.mk.inj (Except.ok.inj h)
        exact .expr hexpr hinst
      case h_4 hglobal =>
        obtain ⟨rfl, rfl⟩ := Prod.mk.inj (Except.ok.inj h)
        exact .globalValue hglobal
      case h_5 hstruct =>
        obtain ⟨rfl, rfl⟩ := Prod.mk.inj (Except.ok.inj h)
        exact .struct hstruct hinst
      case h_6 => exact hsearch h
      case h_7 => exact hsearch h

end Exposed

section Quiet

variable {users : Users}

variable (users) in
/-- The rewriting of the value does not change it, if it does not change the instructions `Q`. -/
def QuietIn (Q : Nat → Prop) : Value → Prop
  | .const (.user r) => ¬ Exposed users r
  | .const _ => True
  | .inst id => Q id

theorem QuietIn.mono {Q Q' : Nat → Prop} (hQ : ∀ id, Q id → Q' id) {v : Value}
    (h : QuietIn users Q v) : QuietIn users Q' v := by
  rcases v with c | id
  · cases c with
    | _ => exact h
  · exact hQ id h

variable (users) in
/-- Instructions that only have quiet operands. -/
def Closed (code : Code) (Q : Nat → Prop) : Prop :=
  ∀ id, Q id → ∀ v ∈ code.operands id, QuietIn users Q v

theorem Closed.or {code : Code} {Q Q' : Nat → Prop} (h : Closed users code Q)
    (h' : Closed users code Q') : Closed users code fun id => Q id ∨ Q' id := by
  rintro id (hid | hid) v hv
  · exact (h id hid v hv).mono fun _ => .inl
  · exact (h' id hid v hv).mono fun _ => .inr

theorem Closed.congr {code code' : Code} {Q : Nat → Prop} (h : Closed users code Q)
    (hsame : ∀ id, Q id → code'.operands id = code.operands id) : Closed users code' Q := by
  intro id hid v hv
  rw [hsame id hid] at hv
  exact h id hid v hv

variable (users) in
/-- The values are quiet, with new instructions that stay quiet. -/
structure QuietFrom (code code' : Code) (vs : List Value) : Prop where
  next_le : code.next ≤ code'.next
  quiet : ∃ Q : Nat → Prop, (∀ id, Q id → code.next ≤ id ∧ id < code'.next) ∧
    Closed users code' Q ∧ ∀ v ∈ vs, QuietIn users Q v

theorem QuietFrom.of_const {code code' : Code} {vs : List Value} (hnext : code.next ≤ code'.next)
    (h : ∀ v ∈ vs, QuietIn users (fun _ => False) v) : QuietFrom users code code' vs :=
  ⟨hnext, fun _ => False, fun _ hid => hid.elim, fun _ hid => hid.elim, h⟩

theorem QuietFrom.append {code code' code'' : Code} {vs ws : List Value}
    (h : QuietFrom users code code' vs) (h' : QuietFrom users code' code'' ws)
    (hkeeps : ∀ id < code'.next, code''.operands id = code'.operands id) :
    QuietFrom users code code'' (vs ++ ws) where
  next_le := h.next_le.trans h'.next_le
  quiet := by
    obtain ⟨Q, hnew, hclosed, hvs⟩ := h.quiet
    obtain ⟨Q', hnew', hclosed', hws⟩ := h'.quiet
    refine ⟨fun id => Q id ∨ Q' id, ?_, ?_, ?_⟩
    · rintro id (hid | hid)
      · exact ⟨(hnew id hid).1, (hnew id hid).2.trans_le h'.next_le⟩
      · exact ⟨h.next_le.trans (hnew' id hid).1, (hnew' id hid).2⟩
    · exact (hclosed.congr fun id hid => hkeeps id (hnew id hid).2).or hclosed'
    · rw [List.forall_mem_append]
      exact ⟨fun v hv => (hvs v hv).mono fun _ => .inl, fun v hv => (hws v hv).mono fun _ => .inr⟩

theorem QuietFrom.emit {code code' : Code} {vs : List Value} (h : QuietFrom users code code' vs)
    (opcode : Opcode) (args : List Value)
    (hargs : ∀ a ∈ args, a ∈ vs ∨ QuietIn users (fun _ => False) a) :
    QuietFrom users code (code'.emit opcode args).2 ((code'.emit opcode args).1 :: vs) where
  next_le := h.next_le.trans (Nat.le_succ _)
  quiet := by
    obtain ⟨Q, hnew, hclosed, hvs⟩ := h.quiet
    have hold : ∀ id, Q id → (code'.emit opcode args).2.operands id = code'.operands id :=
      fun id hid => Function.update_of_ne (hnew id hid).2.ne ..
    have hself : (code'.emit opcode args).2.operands code'.next = args :=
      Function.update_self ..
    refine ⟨fun id => Q id ∨ id = code'.next, ?_, ?_, ?_⟩
    · rintro id (hid | rfl)
      · exact ⟨(hnew id hid).1, (hnew id hid).2.trans (Nat.lt_succ_self _)⟩
      · exact ⟨h.next_le, Nat.lt_succ_self _⟩
    · rintro id (hid | rfl) v hv
      · rw [hold id hid] at hv
        exact (hclosed id hid v hv).mono fun _ => .inl
      · rw [hself] at hv
        rcases hargs v hv with hmem | hquiet
        · exact (hvs v hmem).mono fun _ => .inl
        · exact hquiet.mono fun _ => False.elim
    · rw [List.forall_mem_cons]
      exact ⟨.inr rfl, fun v hv => (hvs v hv).mono fun _ => .inl⟩

theorem QuietFrom.subset {code code' : Code} {vs ws : List Value}
    (h : QuietFrom users code code' vs) (hsub : ws ⊆ vs) : QuietFrom users code code' ws where
  next_le := h.next_le
  quiet := by
    obtain ⟨Q, hnew, hclosed, hvs⟩ := h.quiet
    exact ⟨Q, hnew, hclosed, fun v hv => hvs v (hsub hv)⟩

end Quiet

section Unfold

variable {S V : Type} {sem : Semantics S V} {users : Users} {getVtblIndex : String → Int → Int}
  (hlaw : sem.Lawful getVtblIndex)

variable (sem users getVtblIndex) in
/-- A constant that the unfolding returns stands for itself, and it means the same; it returns an
instruction where the constant is exposed. -/
structure Kept (r : Ref) (v : Value) : Prop where
  const : isConst v → v = .const (.user r) ∧
    sem.oldValue users r = sem.newValue users getVtblIndex r ∧ ¬ Exposed users r
  inst : isConst v = false → Exposed users r

variable (sem users) in
/-- The code computes in the rewritten program. -/
abbrev Computes (code code' : Code) (values : List V) (operands : List Value) : Prop :=
  code.Computes Opcode.isPhi sem.exec (sem.constant users sem.oldPointer) (fun _ => True) code'
    (fun _ => values) operands

variable (sem users getVtblIndex) in
/-- Constants have been unfolded. -/
structure Unfolded (rs : List Ref) (code code' : Code) (vs : List Value) : Prop where
  computes : Computes sem users code code' (rs.map (sem.newValue users getVtblIndex)) vs
  kept : List.Forall₂ (Kept sem users getVtblIndex) rs vs
  quiet : (∀ r ∈ rs, ¬ ExposesStruct users r) → QuietFrom users code code' vs

theorem threadM_unfolds {f : Value → Code → Except UnfoldFailure (Value × Code)}
    (hf : ∀ {r code v code'}, f (.const (.user r)) code = .ok (v, code') →
      Unfolded sem users getVtblIndex [r] code code' [v]) {ops : List Ref} {code code' : Code}
    {children : List Value}
    (h : threadM f (ops.map fun op => .const (.user op)) code = .ok (children, code')) :
    Unfolded sem users getVtblIndex ops code code' children := by
  induction ops generalizing code children with
  | nil =>
    obtain ⟨rfl, rfl⟩ := Prod.mk.inj (Except.ok.inj h)
    exact ⟨.nil _, .nil, fun _ => .of_const (le_refl _) (List.forall_mem_nil _)⟩
  | cons op ops ih =>
    obtain ⟨v, t, rest, hv, hrest, rfl⟩ := threadM_cons_eq_ok.mp h
    have hfirst := hf hv
    have hrest := ih hrest
    refine ⟨?computes, ?kept, fun hnone => ?quiet⟩
    case computes =>
      exact hfirst.computes.append hrest.computes (fun _ _ => trivial) fun _ _ _ => rfl
    case kept =>
      obtain ⟨hop, -⟩ := List.forall₂_cons.mp hfirst.kept
      exact .cons hop hrest.kept
    case quiet =>
      obtain ⟨hop, hops⟩ := List.forall_mem_cons.mp hnone
      exact (hfirst.quiet (List.forall_mem_singleton.mpr hop)).append (hrest.quiet hops)
        fun id hid => hrest.computes.keeps id hid trivial

include hlaw in
theorem unfoldMemberPointer_computes {code code' : Code} {values : List V} {operands : List Value}
    (h : Computes sem users code code' values operands) (n : Int) {adj : Ref} {m : Int}
    (hadj : sem.oldValue users adj = sem.int m) (className : String) :
    Computes sem users code (unfoldMemberPointer n adj className code').2
      [sem.aggregate [sem.int (getVtblIndex className ((n - 1).tdiv 8) * 8 + 1), sem.int m]]
      [(unfoldMemberPointer n adj className code').1] := by
  have hhead : ∀ {operand : Value} {operands : List Value} {v : V} {vs : List V} {later : Nat → V},
      (operand :: operands).map (Operand.eval (sem.constant users sem.oldPointer) later) = v :: vs →
        operand.eval (sem.constant users sem.oldPointer) later = v :=
    fun h => (List.cons.inj h).1
  have hind := h.emit (.getVtblIndex className) rfl [.const (.int ((n - 1).tdiv 8))]
    (fun _ => [sem.int ((n - 1).tdiv 8)])
    (fun _ => sem.int (getVtblIndex className ((n - 1).tdiv 8))) (fun _ _ _ => rfl)
    fun s _ => hlaw.getVtblIndex s className _
  have hmul := hind.emit .mul rfl [_, .const (.int 8)] (fun _ => [_, sem.int 8]) (fun _ => _)
    (fun _ _ hknown => by rw [List.map_cons, hhead hknown]; rfl) fun s _ => hlaw.mul s _ 8
  have hadd := hmul.emit .add rfl [_, .const (.int 1)] (fun _ => [_, sem.int 1]) (fun _ => _)
    (fun _ _ hknown => by rw [List.map_cons, hhead hknown]; rfl) fun s _ => hlaw.add s _ 1
  have hfirst := hadd.emit (.insertValue 0) rfl [.const .undef, _] (fun _ => [sem.undef, _])
    (fun _ => _) (fun _ _ hknown => by rw [List.map_cons, List.map_singleton, hhead hknown]; rfl)
    fun s _ => hlaw.exec_insertValue s 0 _ _
  have hsecond := hfirst.emit (.insertValue 1) rfl [_, .const (.user adj)] (fun _ => [_, sem.int m])
    (fun _ => _) (fun _ _ hknown => by rw [List.map_cons, hhead hknown, ← hadj]; rfl)
    fun s _ => hlaw.exec_insertValue s 1 _ _
  refine hsecond.weaken fun _ _ hknown => ?_
  exact congrArg ([·]) ((hhead hknown).trans (hlaw.insertValue_undef _ _))

theorem unfoldMemberPointer_quiet {code code' : Code} {vs : List Value}
    (h : QuietFrom users code code' vs) (n : Int) {adj : Ref} (hadj : ¬ Exposed users adj)
    (className : String) : QuietFrom users code (unfoldMemberPointer n adj className code').2
      [(unfoldMemberPointer n adj className code').1] := by
  have hlast : ∀ {v : Value} {vs : List Value} {c : Const},
      QuietIn users (fun _ => False) (.const c) → ∀ a ∈ [v, .const c],
        a ∈ v :: vs ∨ QuietIn users (fun _ => False) a := by
    intro v vs c hc
    rw [List.forall_mem_cons, List.forall_mem_singleton]
    exact ⟨.inl List.mem_cons_self, .inr hc⟩
  have hind := h.emit (.getVtblIndex className) [.const (.int ((n - 1).tdiv 8))]
    (List.forall_mem_singleton.mpr (.inr trivial))
  have hmul := hind.emit .mul [_, .const (.int 8)] (hlast trivial)
  have hadd := hmul.emit .add [_, .const (.int 1)] (hlast trivial)
  have hfirst := hadd.emit (.insertValue 0) [.const .undef, _]
    (List.forall_mem_cons.mpr ⟨.inr trivial, List.forall_mem_singleton.mpr
      (.inl List.mem_cons_self)⟩)
  have hsecond := hfirst.emit (.insertValue 1) [_, .const (.user adj)] (hlast hadj)
  exact hsecond.subset fun _ hv => List.mem_singleton.mp hv ▸ List.mem_cons_self

theorem old_eq_new_of_kept {ops : List Ref} {children : List Value}
    (hkept : List.Forall₂ (Kept sem users getVtblIndex) ops children)
    (hall : ∀ child ∈ children, isConst child) :
    ∀ op ∈ ops, sem.oldValue users op = sem.newValue users getVtblIndex op ∧
      ¬ Exposed users op := by
  induction hkept with
  | nil => exact List.forall_mem_nil _
  | cons hop _ ih =>
    rw [List.forall_mem_cons] at hall ⊢
    exact ⟨(hop.const hall.1).2, ih hall.2⟩

theorem exists_exposed_of_kept {ops : List Ref} {children : List Value}
    (hkept : List.Forall₂ (Kept sem users getVtblIndex) ops children)
    (hinst : ∃ child ∈ children, isConst child = false) : ∃ op ∈ ops, Exposed users op := by
  obtain ⟨child, hchild, hinst⟩ := hinst
  obtain ⟨i, hi⟩ := List.mem_iff_getElem?.mp hchild
  obtain ⟨op, hop, hkeptOp⟩ := (forall₂_getElem? hkept i).2 _ hi
  exact ⟨op, List.mem_of_getElem? hop, hkeptOp.inst hinst⟩

/-- An element that is not constant leaves no constant behind. -/
theorem isConst_of_insertChild (xs : List (Value × Nat)) {st : Value × Code}
    (h : isConst (xs.foldl insertChild st).1) : isConst st.1 ∧ ∀ x ∈ xs, isConst x.1 := by
  induction xs generalizing st with
  | nil => exact ⟨h, List.forall_mem_nil _⟩
  | cons x xs ih =>
    obtain ⟨hst, hxs⟩ := ih h
    unfold insertChild at hst
    split at hst
    · rename_i hx
      exact ⟨hst, List.forall_mem_cons.mpr ⟨hx, hxs⟩⟩
    · cases hst

variable (sem users getVtblIndex) in
/-- The first elements have their new values. -/
def replaced (ops : List Ref) (k : Nat) : List V :=
  ops.zipIdx.map fun op => if op.2 < k then sem.newValue users getVtblIndex op.1
    else sem.oldValue users op.1

theorem replaced_zero (ops : List Ref) :
    replaced sem users getVtblIndex ops 0 = ops.map (sem.oldValue users) := by
  simp only [replaced, Nat.not_lt_zero, if_false]
  conv_rhs => rw [← List.zipIdx_map_fst 0 ops, List.map_map]
  rfl

theorem replaced_length (ops : List Ref) : replaced sem users getVtblIndex ops ops.length =
    ops.map (sem.newValue users getVtblIndex) := by
  apply List.ext_getElem?
  intro i
  rw [replaced, List.getElem?_map, List.getElem?_map, List.getElem?_zipIdx]
  cases hi : ops[i]? with
  | none => rfl
  | some op =>
    have hlt : 0 + i < ops.length := by simpa using (List.getElem?_eq_some_iff.mp hi).1
    simp only [Option.map_some, if_pos hlt]

theorem replaced_succ_of_eq {ops : List Ref} {op : Ref} {k : Nat} (h : ops[k]? = some op)
    (heq : sem.oldValue users op = sem.newValue users getVtblIndex op) :
    replaced sem users getVtblIndex ops (k + 1) = replaced sem users getVtblIndex ops k := by
  apply List.map_congr_left
  rintro ⟨x, i⟩ hx
  have hget : ops[i]? = some x := List.mem_zipIdx_iff_getElem?.mp hx
  rcases eq_or_ne i k with rfl | hne
  · obtain rfl : op = x := Option.some.inj (h.symm.trans hget)
    simp [heq]
  · have hlt : i < k + 1 ↔ i < k := by omega
    simp only [hlt]

theorem replaced_succ {ops : List Ref} {op : Ref} {k : Nat} (h : ops[k]? = some op) :
    replaced sem users getVtblIndex ops (k + 1) =
      (replaced sem users getVtblIndex ops k).set k (sem.newValue users getVtblIndex op) := by
  obtain ⟨hk, rfl⟩ := List.getElem?_eq_some_iff.mp h
  apply List.ext_getElem?
  intro i
  rw [List.getElem?_set]
  split
  · rename_i hi
    subst hi
    simp [replaced, hk]
  · have hlt : i < k + 1 ↔ i < k := by omega
    rw [replaced, replaced, List.getElem?_map, List.getElem?_map, List.getElem?_zipIdx]
    cases ops[i]? <;> simp only [Option.map_some, Option.map_none, Nat.zero_add, hlt]

include hlaw in
/-- The loop over the elements replaces those that are not constant. -/
theorem insertChild_foldl {code code' : Code} {root : Ref} {ops : List Ref} {children : List Value}
    (hroot : sem.oldValue users root = sem.aggregate (ops.map (sem.oldValue users)))
    (h : Computes sem users code code' (ops.map (sem.newValue users getVtblIndex)) children)
    (hkept : List.Forall₂ (Kept sem users getVtblIndex) ops children) :
    let st := children.zipIdx.foldl insertChild (.const (.user root), code')
    Computes sem users code st.2 [sem.aggregate (ops.map (sem.newValue users getVtblIndex))]
      [st.1] := by
  have hlength : children.length = ops.length := hkept.length_eq.symm
  refine Builder.Computes.weaken (foldl_rule (fun done (st : Value × Code) =>
    Computes sem users code st.2 (sem.aggregate (replaced sem users getVtblIndex ops done.length) ::
      ops.map (sem.newValue users getVtblIndex)) (st.1 :: children)) ?step ?start) ?_
  case start =>
    refine h.weaken fun _ _ hknown => ?_
    rw [List.map_cons, hknown, List.length_nil, replaced_zero]
    exact congrArg (· :: _) hroot
  case step =>
    rintro done ⟨child, i⟩ rest ⟨newStruct, code₁⟩ hsplit hst
    have hget : children.zipIdx[done.length]? = some (child, i) := by
      rw [hsplit, List.getElem?_append_right (le_refl _), Nat.sub_self, List.getElem?_cons_zero]
    rw [List.getElem?_zipIdx, Option.map_eq_some_iff] at hget
    obtain ⟨hchild, rfl⟩ : children[done.length]? = some child ∧ 0 + done.length = i := by
      obtain ⟨_, hchild, heq⟩ := hget
      obtain ⟨rfl, hi⟩ := Prod.mk.inj heq
      exact ⟨hchild, hi⟩
    obtain ⟨op, hop, hkeptOp⟩ := (forall₂_getElem? hkept done.length).2 _ hchild
    rw [List.length_append, List.length_singleton, insertChild, Nat.zero_add]
    split
    · rename_i hconst
      rw [replaced_succ_of_eq hop (hkeptOp.const hconst).2.1]
      exact hst
    · have hlt : done.length < (replaced sem users getVtblIndex ops done.length).length := by
        rw [replaced, List.length_map, List.length_zipIdx]
        exact (List.getElem?_eq_some_iff.mp hop).1
      have hinsert := hst.emit (.insertValue done.length) rfl [newStruct, child]
        (fun _ => [sem.aggregate (replaced sem users getVtblIndex ops done.length),
          sem.newValue users getVtblIndex op])
        (fun _ => _) ?args fun s _ => hlaw.exec_insertValue s _ _ _
      case args =>
        intro _ later hknown
        obtain ⟨hhead, htail⟩ := List.cons.inj hknown
        have hvalue := congrArg (·[done.length]?) htail
        rw [List.getElem?_map, List.getElem?_map, hchild, hop] at hvalue
        rw [List.map_cons, List.map_singleton, hhead]
        exact congrArg ([_, ·]) (Option.some.inj hvalue)
      refine hinsert.weaken fun _ _ hknown => ?_
      obtain ⟨hhead, htail⟩ := List.cons.inj hknown
      rw [List.map_cons, hhead, (List.cons.inj htail).2, replaced_succ hop,
        hlaw.insertValue_aggregate _ _ _ hlt]
  · intro _ _ hknown
    rw [List.length_zipIdx, hlength, replaced_length] at hknown
    exact congrArg ([·]) (List.cons.inj hknown).1

/-- A constant whose value stays the same stands for its unfolded operands. -/
theorem Unfolded.unchanged {root : Ref} {children : List Value} {code code' : Code}
    (h : Unfolded sem users getVtblIndex (users.operands root) code code' children)
    (hsame : sem.oldValue users root = sem.newValue users getVtblIndex root)
    (hnot : ¬ Exposed users root) :
    Unfolded sem users getVtblIndex [root] code code' [.const (.user root)] := by
  refine ⟨h.computes.weaken fun _ _ _ => ?_, .cons ⟨fun _ => ⟨rfl, hsame, hnot⟩, ?_⟩ .nil,
    fun _ => .of_const h.computes.next_le (List.forall_mem_singleton.mpr hnot)⟩
  · rw [List.map_singleton, List.map_singleton, ← hsame]
    rfl
  · intro hinst
    cases hinst

include hlaw in
theorem Unfolds.unfolded {root : Ref} {children : List Value} {code code' code'' : Code} {v : Value}
    (h : Unfolds users root children code' v code'')
    (hchildren : Unfolded sem users getVtblIndex (users.operands root) code code' children) :
    Unfolded sem users getVtblIndex [root] code code'' [v] := by
  have hnext := hchildren.computes.next_le
  have hnew : sem.newValue users getVtblIndex root = _ := sem.denote_eq users _ root
  have hold : sem.oldValue users root = _ := sem.denote_eq users _ root
  have hinst : ∀ {id}, Exposed users root → Kept sem users getVtblIndex root (.inst id) :=
    fun hexposed => ⟨fun hconst => (by cases hconst), fun _ => hexposed⟩
  cases h with
  | @null className ind adj ops hkind hops hn =>
    obtain ⟨m, -, hdenote⟩ := denote_memberPointer hkind hops hn
    apply hchildren.unchanged
    · rw [Semantics.oldValue, Semantics.newValue, hdenote, hdenote, Semantics.newPointer,
        Semantics.oldPointer, newOffset, if_pos rfl]
    · intro hexposed
      cases hexposed with
      | memberPointer _ operands index nonnull =>
        obtain ⟨rfl, -⟩ := List.cons.inj (hops.symm.trans operands)
        exact nonnull (Option.some.inj (index.symm.trans hn))
      | expr kind => cases hkind.symm.trans kind
      | struct kind => cases hkind.symm.trans kind
  | unchanged hroot hall =>
    have hkept := old_eq_new_of_kept hchildren.kept hall
    apply hchildren.unchanged
    · rw [hold, hnew, node_pointer_congr sem sem.oldPointer (sem.newPointer getVtblIndex) hroot]
      exact sem.node_congr _ fun _ op hop => (hkept op hop).1
    · intro hexposed
      obtain ⟨op, hop, hexposed⟩ := exists_exposed_operand hroot hexposed
      exact (hkept op hop).2 hexposed
  | globalValue hkind =>
    apply hchildren.unchanged
    · rw [hold, hnew, Semantics.node, Semantics.node, hkind]
    · intro hexposed
      cases hexposed with
      | _ kind => cases hkind.symm.trans kind
  | absent hnone =>
    exact hchildren.unchanged (denote_eq_of_not_holds sem _ _ root hnone) fun hexposed =>
      hnone hexposed.holds
  | @memberPointer className ind adj ops n hkind hops hn hnonnull =>
    obtain ⟨m, hm, hdenote⟩ := denote_memberPointer hkind hops hn
    refine ⟨?computes, .cons (hinst (.memberPointer hkind hops hn hnonnull)) .nil, fun _ => ?quiet⟩
    case computes =>
      rw [List.map_singleton, Semantics.newValue, hdenote, Semantics.newPointer, newOffset,
        if_neg hnonnull]
      exact unfoldMemberPointer_computes hlaw hchildren.computes n
        (sem.denote_constantInt sem.oldPointer hm) className
    case quiet =>
      exact unfoldMemberPointer_quiet (.of_const hnext (List.forall_mem_nil _)) n
        (not_exposed_of_constantInt hm) className
  | @expr opcode hkind hsome =>
    obtain ⟨op, hop, hexposed⟩ := exists_exposed_of_kept hchildren.kept hsome
    refine ⟨?computes, .cons (hinst (.expr hkind hop hexposed)) .nil, fun hnone => ?quiet⟩
    case computes =>
      have hexpr := hchildren.computes.emit (.expr opcode) rfl children _ (fun _ => _)
        (fun _ _ hknown => hknown) fun s _ => hlaw.exec_expr s opcode _
      refine hexpr.weaken fun _ _ hknown => ?_
      rw [List.map_singleton, List.map_singleton, hnew, Semantics.node, hkind]
      exact congrArg ([·]) (List.cons.inj hknown).1
    case quiet =>
      have hchild : ∀ op ∈ users.operands root, ¬ ExposesStruct users op := fun op hop hstruct =>
        hnone root List.mem_cons_self (.expr hkind hop hstruct)
      exact ((hchildren.quiet hchild).emit _ children fun _ => .inl).subset fun _ hv =>
        List.mem_singleton.mp hv ▸ List.mem_cons_self
  | struct hkind hsome =>
    obtain ⟨op, hop, hexposed⟩ := exists_exposed_of_kept hchildren.kept hsome
    rw [Semantics.node, hkind] at hold hnew
    refine ⟨?computes, .cons ⟨fun hconst => ?const, fun _ => .struct hkind hop hexposed⟩ .nil,
      ?quiet⟩
    case computes =>
      rw [List.map_singleton, hnew]
      exact insertChild_foldl hlaw hold hchildren.computes hchildren.kept
    case const =>
      obtain ⟨child, hchild, hnot⟩ := hsome
      obtain ⟨i, hi⟩ := List.mem_iff_getElem?.mp hchild
      have hall := (isConst_of_insertChild _ hconst).2 (child, i)
        (List.mem_zipIdx_iff_getElem?.mpr hi)
      exact absurd hall (by simp [hnot])
    case quiet =>
      exact fun hnone => absurd (.struct hkind hop hexposed) (hnone root List.mem_cons_self)

include hlaw in
theorem sdMap_unfolded {fuel fuel' : Nat} {r : Ref} {code code' : Code} {v : Value}
    (h : sdMap users (sdUnfoldMapCb users fuel') fuel (.const (.user r)) code = .ok (v, code')) :
    Unfolded sem users getVtblIndex [r] code code' [v] := by
  induction fuel generalizing r code v code' with
  | zero => cases h
  | succ fuel ih =>
    rw [sdMap, bind_eq_ok] at h
    obtain ⟨⟨children, code₁⟩, hchildren, h⟩ := h
    have hconst : unfoldConst users fuel' r children code₁ = .ok (v, code') := eq_ok_of_guard h
    exact (unfoldConst_unfolds hconst).unfolded hlaw (threadM_unfolds ih hchildren)

end Unfold

end RhoFEM.Frontend
