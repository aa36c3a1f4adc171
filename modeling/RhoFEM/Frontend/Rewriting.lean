import RhoFEM.Frontend.Unfolding

/-! The rewriting goes through the instructions in their order; where an operand is an instruction,
it maps the operands of that instruction again. -/

namespace RhoFEM.Frontend

open RhoFEM.Lib.Fold RhoFEM.Lib.Search RhoFEM.Lib.Simulation RhoFEM.Lib.Straightline

section Order

variable (users : Users) (operands : Nat → List Value)

/-- The instructions among the operands. -/
def instOperands (id : Nat) : List Nat :=
  (operands id).filterMap fun v => match v with
    | .inst op => some op
    | .const _ => none

/-- No member pointer stands below the instruction. -/
def Clean (id : Nat) : Prop :=
  ∀ op, Reaches (instOperands operands) id op → ∀ r, .const (.user r) ∈ operands op →
    ¬ Holds users r

/-- No instruction below has a struct for an operand whose elements are replaced. -/
def Plain (id : Nat) : Prop :=
  ∀ op, Reaches (instOperands operands) id op → ∀ r, .const (.user r) ∈ operands op →
    ¬ ExposesStruct users r

/-- When its operands have been rewritten, a member pointer still stands below one of them: it
stands in the initializer of a global value, or it is null. -/
def ReadsTable (id : Nat) : Prop :=
  ∃ r, .const (.user r) ∈ operands id ∧ ¬ Exposed users r ∧ Holds users r

/-- Instructions have one place, and their operands stand before them; operands that come around a
loop have no member pointers below. -/
def InOrder : List (Instruction Opcode) → Prop
  | [] => True
  | inst :: rest =>
    (∀ id, .inst id ∈ operands inst.id →
      Clean users operands id ∨ ∀ later ∈ inst :: rest, later.id ≠ id) ∧
    (∀ later ∈ rest, later.id ≠ inst.id) ∧ InOrder rest

variable {users operands}

theorem mem_instOperands {id op : Nat} :
    op ∈ instOperands operands id ↔ .inst op ∈ operands id := by
  rw [instOperands, List.mem_filterMap]
  constructor
  · rintro ⟨v, hv, hop⟩
    cases v with
    | const c => cases hop
    | inst id' =>
      obtain rfl := Option.some.inj hop
      exact hv
  · exact fun h => ⟨_, h, rfl⟩

theorem Clean.step {id op : Nat} (h : Clean users operands id) (hop : .inst op ∈ operands id) :
    Clean users operands op :=
  fun op' hreach => h op' (.head (mem_instOperands.mpr hop) hreach)

theorem Plain.step {id op : Nat} (h : Plain users operands id) (hop : .inst op ∈ operands id) :
    Plain users operands op :=
  fun op' hreach => h op' (.head (mem_instOperands.mpr hop) hreach)

theorem Clean.plain {id : Nat} (h : Clean users operands id) : Plain users operands id :=
  fun op hop r hr hstruct => h op hop r hr hstruct.exposed.holds

theorem clean_of_nil {id : Nat} (h : operands id = []) : Clean users operands id := by
  intro op hreach r hr
  rcases hreach.cases_head with rfl | ⟨op', hop', -⟩
  · rw [h] at hr
    cases hr
  · rw [mem_instOperands, h] at hop'
    cases hop'

end Order

variable (users : Users) in
/-- The blocks of a function, with its arguments as instructions without operands that stand in no
block.  No instruction can be put in front of a phi, so that phis have no member pointers below. -/
structure WellOrdered (code : Code) (blocks : List (List (Instruction Opcode))) : Prop where
  below : ∀ inst ∈ blocks.flatten, inst.id < code.next
  operands_below : ∀ inst ∈ blocks.flatten, ∀ id, .inst id ∈ code.operands inst.id → id < code.next
  others : ∀ id, (∀ inst ∈ blocks.flatten, inst.id ≠ id) → code.operands id = []
  inOrder : InOrder users code.operands blocks.flatten
  grouped : ∀ block ∈ blocks, Grouped Opcode.isPhi block
  phis : ∀ inst ∈ blocks.flatten, inst.opcode.isPhi = true → Clean users code.operands inst.id
  tables : ∀ inst ∈ blocks.flatten, ∀ id, .inst id ∈ code.operands inst.id →
    ReadsTable users code.operands id → Plain users code.operands id

section Map

variable {S V : Type} {sem : Semantics S V} {users : Users} {getVtblIndex : String → Int → Int}
  (hlaw : sem.Lawful getVtblIndex) {Q : Nat → Prop}

variable (users) in
/-- Quiet instructions that exist. -/
structure Calm (code : Code) (Q : Nat → Prop) : Prop where
  closed : Closed users code Q
  known : ∀ id, Q id → id < code.next

theorem Calm.of_computes {code code' : Code} {values : (Nat → V) → List V} {vs : List Value}
    (h : Calm users code Q)
    (hcomputes : code.Computes Opcode.isPhi sem.exec (sem.constant users sem.oldPointer)
      (fun _ => True) code' values vs) : Calm users code' Q where
  closed := h.closed.congr fun id hid => hcomputes.keeps id (h.known id hid) trivial
  known id hid := (h.known id hid).trans_le hcomputes.next_le

variable (sem users) in
/-- The mapping leaves the value, with code that nothing uses. -/
structure Mapped (v : Value) (code : Code) (v' : Value) (code' : Code) : Prop where
  value : v' = v
  computes : Computes sem users code code' [] []

theorem threadM_mapped {f : Value → Code → Except UnfoldFailure (Value × Code)}
    (hf : ∀ {v code v' code'}, Calm users code Q → QuietIn users Q v → f v code = .ok (v', code') →
      Mapped sem users v code v' code') {vs vs' : List Value} {code code' : Code}
    (hcalm : Calm users code Q) (hvs : ∀ v ∈ vs, QuietIn users Q v)
    (h : threadM f vs code = .ok (vs', code')) :
    vs' = vs ∧ Computes sem users code code' [] [] := by
  induction vs generalizing code vs' with
  | nil =>
    obtain ⟨rfl, rfl⟩ := Prod.mk.inj (Except.ok.inj h)
    exact ⟨rfl, .nil _⟩
  | cons v vs ih =>
    obtain ⟨v', t, rest, hv, hrest, rfl⟩ := threadM_cons_eq_ok.mp h
    obtain ⟨hquiet, hquiets⟩ := List.forall_mem_cons.mp hvs
    obtain ⟨rfl, hcomputes⟩ := hf hcalm hquiet hv
    obtain ⟨rfl, hcomputes'⟩ := ih (hcalm.of_computes hcomputes) hquiets hrest
    exact ⟨rfl, hcomputes.append hcomputes' (fun _ _ => trivial) fun _ _ _ => rfl⟩

include hlaw in
theorem sdMap_mapped {fuel fuel' : Nat} {v v' : Value} {code code' : Code}
    (hcalm : Calm users code Q) (hquiet : QuietIn users Q v)
    (h : sdMap users (sdUnfoldMapCb users fuel') fuel v code = .ok (v', code')) :
    Mapped sem users v code v' code' := by
  induction fuel generalizing v code v' code' with
  | zero => cases h
  | succ fuel ih =>
    match v with
    | .const (.user r) =>
      have hunfolded := sdMap_unfolded hlaw h
      obtain ⟨hkept, -⟩ := List.forall₂_cons.mp hunfolded.kept
      refine ⟨?_, hunfolded.computes.ignore⟩
      cases hconst : isConst v' with
      | true => exact (hkept.const hconst).1
      | false => exact absurd (hkept.inst hconst) hquiet
    | .const (.int n) | .const .undef =>
      obtain ⟨rfl, rfl⟩ := Prod.mk.inj (Except.ok.inj h)
      exact ⟨rfl, .nil _⟩
    | .inst id =>
      rw [sdMap, bind_eq_ok] at h
      obtain ⟨⟨children, code₁⟩, hchildren, h⟩ := h
      obtain ⟨rfl, hcomputes⟩ := threadM_mapped ih hcalm (hcalm.closed id hquiet) hchildren
      have hset : (.ok (.inst id, code₁.setOperands id (code.operands id)) :
          Except UnfoldFailure (Value × Code)) = .ok (v', code') := eq_ok_of_guard h
      obtain ⟨rfl, rfl⟩ := Prod.mk.inj (Except.ok.inj hset)
      refine ⟨rfl, ?_⟩
      rw [Builder.setOperands_self _ (hcomputes.keeps id (hcalm.known id hquiet) trivial)]
      exact hcomputes

end Map

section Operand

variable {S V : Type} {sem : Semantics S V} {users : Users} {getVtblIndex : String → Int → Int}
  (hlaw : sem.Lawful getVtblIndex) {Q : Nat → Prop}

variable (sem users getVtblIndex Q) in
/-- How an operand may be rewritten. -/
structure Rewritten (v : Value) (code : Code) (v' : Value) (code' : Code) : Prop where
  computes : code.Computes Opcode.isPhi sem.exec (sem.constant users sem.oldPointer)
    (fun _ => True) code'
    (fun env => [v.eval (sem.constant users (sem.newPointer getVtblIndex)) env]) [v']
  const : ∀ r, v' = .const (.user r) → v = v' ∧ ¬ Exposed users r
  same : (∀ r, v = .const (.user r) → ¬ Exposed users r) → v' = v
  quiet : (∀ r, v = .const (.user r) → ¬ ExposesStruct users r) → (∀ id, v = .inst id → Q id) →
    ∃ Q' : Nat → Prop, (∀ id, Q' id → code.next ≤ id ∧ id < code'.next) ∧
      Closed users code' Q' ∧ QuietIn users (fun id => Q id ∨ Q' id) v'

theorem rewriteOperand_cases {fuel id i : Nat} {code code' : Code} {v : Value}
    (hv : (code.operands id)[i]? = some v)
    (h : rewriteOperand users fuel id code i = .ok code') : ∃ contains v' code₁,
      sdContainsMemptr users fuel code v = .ok contains ∧
      (contains = true ∧ sdMap users (sdUnfoldMapCb users fuel) fuel v code = .ok (v', code₁) ∨
        contains = false ∧ v' = v ∧ code₁ = code) ∧
      code' = code₁.setOperands id ((code₁.operands id).set i v') := by
  rw [rewriteOperand, hv] at h
  dsimp only at h
  rw [bind_eq_ok] at h
  obtain ⟨contains, hcontains, h⟩ := h
  cases contains with
  | true =>
    rw [if_pos rfl, bind_eq_ok] at h
    obtain ⟨⟨v', code₁⟩, hmap, h⟩ := h
    exact ⟨true, v', code₁, hcontains, .inl ⟨rfl, hmap⟩, (Except.ok.inj h).symm⟩
  | false =>
    obtain rfl := Except.ok.inj h
    refine ⟨false, v, code, hcontains, .inr ⟨rfl, rfl, rfl⟩, ?_⟩
    obtain ⟨hi, rfl⟩ := List.getElem?_eq_some_iff.mp hv
    rw [List.set_getElem_self, Builder.setOperands_self _ rfl]

/-- Without a member pointer in it, the operand stays, and no code is put in front. -/
theorem rewriteOperand_eq_self {fuel id i : Nat} {code code' : Code} {v : Value}
    (hv : (code.operands id)[i]? = some v) (hnone : ∀ r, v = .const (.user r) → ¬ Holds users r)
    (hinst : ∀ op, v = .inst op → ∀ r, .const (.user r) ∈ code.operands op → ¬ Holds users r)
    (h : rewriteOperand users fuel id code i = .ok code') : code' = code := by
  obtain ⟨contains, v', code₁, hcontains, ⟨rfl, -⟩ | ⟨-, rfl, rfl⟩, rfl⟩ :=
    rewriteOperand_cases hv h
  · cases v with
    | const c =>
      obtain ⟨x, hx, hpointer⟩ := reaches_of_sdContainsMemptr hcontains
      obtain ⟨r, hr, hholds⟩ := holds_of_reaches rfl hx hpointer
      exact absurd hholds (hnone r hr)
    | inst op =>
      obtain ⟨r, hr, hholds⟩ := holds_of_sdContainsMemptr hcontains
      exact absurd hholds (hinst op rfl r hr)
  · obtain ⟨hi, rfl⟩ := List.getElem?_eq_some_iff.mp hv
    rw [List.set_getElem_self, Builder.setOperands_self _ rfl]

theorem Rewritten.unchanged {v : Value} {code code' : Code}
    (hcomputes : code.Computes Opcode.isPhi sem.exec (sem.constant users sem.oldPointer)
      (fun _ => True) code'
      (fun env => [v.eval (sem.constant users (sem.newPointer getVtblIndex)) env]) [v])
    (hconst : ∀ r, v = .const (.user r) → ¬ Exposed users r) :
    Rewritten sem users getVtblIndex Q v code v code' where
  computes := hcomputes
  const r hr := ⟨rfl, hconst r hr⟩
  same _ := rfl
  quiet _ hinst := by
    refine ⟨fun _ => False, fun _ hid => hid.elim, fun _ hid => hid.elim, ?_⟩
    rcases v with c | id
    · cases c with
      | user r => exact hconst r rfl
      | int n => trivial
      | undef => trivial
    · exact .inl (hinst id rfl)

include hlaw in
/-- An instruction is only mapped again if its operands, which have been rewritten, are quiet. -/
theorem rewritten_of_cases {fuel : Nat} {v v' : Value} {code code' : Code} {contains : Bool}
    (hcalm : Calm users code Q)
    (hinst : ∀ id, v = .inst id → id < code.next ∧ (contains = true → Q id))
    (hcontains : sdContainsMemptr users fuel code v = .ok contains)
    (h : contains = true ∧ sdMap users (sdUnfoldMapCb users fuel) fuel v code = .ok (v', code') ∨
      contains = false ∧ v' = v ∧ code' = code) :
    Rewritten sem users getVtblIndex Q v code v' code' := by
  rcases v with c | id
  · cases c with
    | user r =>
      rcases h with ⟨rfl, h⟩ | ⟨rfl, rfl, rfl⟩
      · have hunfolded := sdMap_unfolded hlaw h
        obtain ⟨hkept, -⟩ := List.forall₂_cons.mp hunfolded.kept
        refine ⟨hunfolded.computes, ?result, ?same, ?quiet⟩
        case result =>
          rintro r' rfl
          obtain ⟨heq, -, hnot⟩ := hkept.const rfl
          cases heq
          exact ⟨rfl, hnot⟩
        case same =>
          intro hnot
          cases hconst : isConst v' with
          | true => exact (hkept.const hconst).1
          | false => exact absurd (hkept.inst hconst) (hnot r rfl)
        case quiet =>
          intro hnone _
          obtain ⟨Q', hnew, hclosed, hvs⟩ :=
            (hunfolded.quiet (List.forall_mem_singleton.mpr (hnone r rfl))).quiet
          exact ⟨Q', hnew, hclosed, (List.forall_mem_singleton.mp hvs).mono fun _ => .inr⟩
      · have hnone := not_holds_of_sdContainsMemptr hcontains
        have hsame :=
          denote_eq_of_not_holds sem sem.oldPointer (sem.newPointer getVtblIndex) r hnone
        refine .unchanged ?_ fun r' hr' hexposed => ?_
        · refine (Builder.Computes.ofConst code' (.user r)).weaken fun _ _ hknown => ?_
          exact hknown.trans (congrArg ([·]) hsame)
        · cases hr'
          exact hnone hexposed.holds
    | _ =>
      obtain ⟨rfl, rfl⟩ : v' = _ ∧ code' = code := by
        rcases h with ⟨-, h⟩ | ⟨-, h⟩
        · cases fuel with
          | zero => cases h
          | succ fuel => exact Prod.mk.inj (Except.ok.inj h.symm)
        · exact h
      refine .unchanged ?_ fun r hr => by cases hr
      exact .of_emitted_eq (fun _ _ _ => rfl) (fun _ => rfl) fun _ _ _ => rfl
  · obtain ⟨hid, hquiet⟩ := hinst id rfl
    have hmapped : Mapped sem users (.inst id) code v' code' := by
      rcases h with ⟨rfl, h⟩ | ⟨-, rfl, rfl⟩
      · exact sdMap_mapped hlaw hcalm (hquiet rfl) h
      · exact ⟨rfl, .nil _⟩
    obtain ⟨rfl, hcomputes⟩ := hmapped
    refine .unchanged ?_ fun r hr => by cases hr
    exact hcomputes.append (.ofInst code' (hid.trans_le hcomputes.next_le)) (fun _ _ => trivial)
      fun env env' hkept => congrArg ([·]) (hkept id hid)

end Operand

end RhoFEM.Frontend
