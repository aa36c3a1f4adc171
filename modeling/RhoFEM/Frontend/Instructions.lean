import RhoFEM.Frontend.Rewriting

/-! The instructions of the blocks are rewritten one after the other; the invariant speaks of those
that are pending. -/

namespace RhoFEM.Frontend

open RhoFEM.Lib.Fold RhoFEM.Lib.Search RhoFEM.Lib.Straightline

section Invariant

variable {S V : Type} {sem : Semantics S V} {users : Users} {getVtblIndex : String → Int → Int}
  {source : Nat → List Value} {bound : Nat} {Q Q' : Nat → Prop}
  {pending untouched : List (Instruction Opcode)} {code code' : Code}

variable (users source bound) in
/-- The instructions that are not pending have been rewritten. -/
structure Progress (pending untouched : List (Instruction Opcode)) (Q : Nat → Prop)
    (code : Code) : Prop where
  bound_le : bound ≤ code.next
  calm : Calm users code Q
  done : ∀ id < bound, (∀ inst ∈ pending, inst.id ≠ id) → ∀ r, .const (.user r) ∈ code.operands id →
    .const (.user r) ∈ source id ∧ ¬ Exposed users r
  plain : ∀ id < bound, (∀ inst ∈ pending, inst.id ≠ id) → Plain users source id → Q id
  clean : ∀ id < bound, Clean users source id → Q id
  pending : ∀ inst ∈ pending, inst.id < bound ∧ (Q inst.id → Clean users source inst.id)
  untouched : ∀ inst ∈ untouched, inst.id < bound ∧ code.operands inst.id = source inst.id

theorem Progress.of_computes (h : Progress users source bound pending untouched Q code)
    {values : (Nat → V) → List V} {vs : List Value}
    (hcomputes : code.Computes Opcode.isPhi sem.exec (sem.constant users sem.oldPointer)
      (fun _ => True) code' values vs) : Progress users source bound pending untouched Q code' where
  bound_le := h.bound_le.trans hcomputes.next_le
  calm := h.calm.of_computes hcomputes
  done id hid hdone := by
    rw [hcomputes.keeps id (hid.trans_le h.bound_le) trivial]
    exact h.done id hid hdone
  plain := h.plain
  clean := h.clean
  pending := h.pending
  untouched inst hinst := by
    obtain ⟨hid, hsame⟩ := h.untouched inst hinst
    exact ⟨hid, (hcomputes.keeps _ (hid.trans_le h.bound_le) trivial).trans hsame⟩

/-- More new instructions may be known to be quiet. -/
theorem Progress.grow (h : Progress users source bound pending untouched Q code)
    (hnew : ∀ id, Q' id → bound ≤ id ∧ id < code.next) (hclosed : Closed users code Q') :
    Progress users source bound pending untouched (fun id => Q id ∨ Q' id) code where
  bound_le := h.bound_le
  calm := ⟨h.calm.closed.or hclosed, fun id hid => hid.elim (h.calm.known id) fun hid =>
    (hnew id hid).2⟩
  done := h.done
  plain id hid hdone hplain := .inl (h.plain id hid hdone hplain)
  clean id hid hclean := .inl (h.clean id hid hclean)
  pending inst hinst := by
    obtain ⟨hid, hquiet⟩ := h.pending inst hinst
    exact ⟨hid, fun hq => hq.elim hquiet fun hq => absurd (hnew _ hq).1 (Nat.not_le.mpr hid)⟩
  untouched := h.untouched

/-- An operand of the pending instruction is set. -/
theorem Progress.setOperands {inst : Instruction Opcode} {rest : List (Instruction Opcode)}
    (h : Progress users source bound (inst :: rest) rest Q code)
    (hnot : ∀ later ∈ rest, later.id ≠ inst.id) {new : List Value}
    (hclean : Clean users source inst.id → new = code.operands inst.id) :
    Progress users source bound (inst :: rest) rest Q (code.setOperands inst.id new) where
  bound_le := h.bound_le
  calm := by
    refine ⟨fun id hid => ?_, h.calm.known⟩
    rcases eq_or_ne id inst.id with rfl | hne
    · rw [Builder.setOperands_operands, hclean ((h.pending inst List.mem_cons_self).2 hid)]
      exact h.calm.closed _ hid
    · rw [Builder.setOperands_operands_of_ne code new hne]
      exact h.calm.closed id hid
  done id hid hdone := by
    rw [Builder.setOperands_operands_of_ne code new (hdone inst List.mem_cons_self).symm]
    exact h.done id hid hdone
  plain := h.plain
  clean := h.clean
  pending := h.pending
  untouched later hlater := by
    obtain ⟨hid, hsame⟩ := h.untouched later hlater
    exact ⟨hid, (Builder.setOperands_operands_of_ne code new (hnot later hlater)).trans hsame⟩

/-- The pending instruction has been rewritten. -/
theorem Progress.place {inst : Instruction Opcode} {rest : List (Instruction Opcode)}
    (h : Progress users source bound (inst :: rest) rest Q code)
    (hnot : ∀ later ∈ rest, later.id ≠ inst.id)
    (hconst : ∀ r, .const (.user r) ∈ code.operands inst.id →
      .const (.user r) ∈ source inst.id ∧ ¬ Exposed users r)
    (hquiet : Plain users source inst.id → ∀ v ∈ code.operands inst.id, QuietIn users Q v) :
    Progress users source bound rest rest
      (fun id => Q id ∨ id = inst.id ∧ Plain users source inst.id) (code.place inst) where
  bound_le := h.bound_le
  calm := by
    refine ⟨?_, ?_⟩
    · rintro id (hid | ⟨rfl, hplain⟩) v hv
      · exact (h.calm.closed id hid v hv).mono fun _ => .inl
      · exact (hquiet hplain v hv).mono fun _ => .inl
    · rintro id (hid | ⟨rfl, -⟩)
      · exact h.calm.known id hid
      · exact (h.pending inst List.mem_cons_self).1.trans_le h.bound_le
  done id hid hdone := by
    rcases eq_or_ne inst.id id with rfl | hne
    · exact hconst
    · exact h.done id hid (List.forall_mem_cons.mpr ⟨hne, hdone⟩)
  plain id hid hdone hplain := by
    rcases eq_or_ne inst.id id with rfl | hne
    · exact .inr ⟨rfl, hplain⟩
    · exact .inl (h.plain id hid (List.forall_mem_cons.mpr ⟨hne, hdone⟩) hplain)
  clean id hid hclean := .inl (h.clean id hid hclean)
  pending later hlater := by
    obtain ⟨hid, hquiet⟩ := h.pending later (List.mem_cons_of_mem _ hlater)
    exact ⟨hid, fun hq => hq.elim hquiet fun hq => absurd hq.1 (hnot later hlater)⟩
  untouched := h.untouched

end Invariant

section Loop

variable {S V : Type} {sem : Semantics S V} {users : Users} {getVtblIndex : String → Int → Int}
  (hlaw : sem.Lawful getVtblIndex) {source : Nat → List Value} {bound : Nat}
  {inst : Instruction Opcode} {rest : List (Instruction Opcode)} {code₀ code code' : Code}

variable (sem users getVtblIndex source bound inst rest code₀) in
/-- The first operands of the pending instruction have been rewritten. -/
structure Looped (i : Nat) (Q : Nat → Prop) (vs : List Value) (code : Code) : Prop where
  progress : Progress users source bound (inst :: rest) rest Q code
  operands : code.operands inst.id = vs ++ (source inst.id).drop i
  length : vs.length = i
  const : ∀ r, .const (.user r) ∈ vs → .const (.user r) ∈ source inst.id ∧ ¬ Exposed users r
  quiet : Plain users source inst.id → ∀ v ∈ vs, QuietIn users Q v
  clean : Clean users source inst.id → code.operands inst.id = source inst.id
  computes : code₀.Computes Opcode.isPhi sem.exec (sem.constant users sem.oldPointer)
    (· ≠ inst.id) code (fun env => ((source inst.id).take i).map
      (Operand.eval (sem.constant users (sem.newPointer getVtblIndex)) env)) vs

section Operand

variable {i : Nat} {Q : Nat → Prop} {vs : List Value} {v v' : Value}

theorem Looped.drop_eq (hget : (source inst.id)[i]? = some v) :
    (source inst.id).drop i = v :: (source inst.id).drop (i + 1) := by
  obtain ⟨_, rfl⟩ := List.getElem?_eq_some_iff.mp hget
  exact List.drop_eq_getElem_cons _

/-- The next operand is as in the source. -/
theorem Looped.getElem? (h : Looped sem users getVtblIndex source bound inst rest code₀ i Q vs code)
    (hget : (source inst.id)[i]? = some v) : (code.operands inst.id)[i]? = some v := by
  rw [h.operands, List.getElem?_append_right h.length.le, h.length, Nat.sub_self,
    Looped.drop_eq hget, List.getElem?_cons_zero]

theorem Looped.set_operands
    (h : Looped sem users getVtblIndex source bound inst rest code₀ i Q vs code)
    (hget : (source inst.id)[i]? = some v) :
    (code.operands inst.id).set i v' = (vs ++ [v']) ++ (source inst.id).drop (i + 1) := by
  rw [h.operands, Looped.drop_eq hget, List.set_append_right _ _ h.length.le, h.length,
    Nat.sub_self, List.set_cons_zero, List.append_assoc]
  rfl

/-- What is known of the instruction that the next operand names. -/
theorem Looped.quiet_operand
    (h : Looped sem users getVtblIndex source bound inst rest code₀ i Q vs code) {id : Nat}
    (hlt : id < bound)
    (horder : Clean users source id ∨ ∀ later ∈ inst :: rest, later.id ≠ id)
    (hplain : (∀ later ∈ inst :: rest, later.id ≠ id) → Plain users source id) : Q id := by
  rcases horder with hclean | hdone
  · exact h.progress.clean id hlt hclean
  · exact h.progress.plain id hlt hdone (hplain hdone)

/-- The new code after the next operand computes one more value. -/
theorem Looped.computes_concat
    (h : Looped sem users getVtblIndex source bound inst rest code₀ i Q vs code)
    (hbound : bound ≤ code₀.next) (hid : inst.id < bound)
    (hbelow : ∀ id, .inst id ∈ source inst.id → id < bound)
    (hget : (source inst.id)[i]? = some v) {code₁ : Code}
    (hrewritten : Rewritten sem users getVtblIndex Q v code v' code₁) (new : List Value) :
    code₀.Computes Opcode.isPhi sem.exec (sem.constant users sem.oldPointer)
      (· ≠ inst.id) (code₁.setOperands inst.id new)
      (fun env => ((source inst.id).take (i + 1)).map
        (Operand.eval (sem.constant users (sem.newPointer getVtblIndex)) env)) (vs ++ [v']) := by
  have hframe : ∀ id, code₀.next ≤ id → id ≠ inst.id :=
    fun id hle => ((hid.trans_le hbound).trans_le hle).ne'
  have hold : ∀ env env' : Nat → V, (∀ id < code₀.next, env' id = env id) →
      [v.eval (sem.constant users (sem.newPointer getVtblIndex)) env'] =
        [v.eval (sem.constant users (sem.newPointer getVtblIndex)) env] := by
    intro env env' hkept
    cases v with
    | const c => rfl
    | inst id =>
      exact congrArg ([·])
        (hkept id ((hbelow id (List.mem_of_getElem? hget)).trans_le hbound))
  have hcode := h.computes.append (hrewritten.computes.mono fun _ _ => trivial) hframe hold
  refine (hcode.append (.set code₁ (not_not_intro rfl) _) hframe fun _ _ _ => rfl).weaken ?_
  intro env later hknown
  rw [List.append_nil, List.append_nil] at hknown
  rw [hknown, List.take_add_one, hget, List.map_append]
  rfl

end Operand

include hlaw in
theorem Looped.step {i fuel : Nat} {Q : Nat → Prop} {vs : List Value}
    (h : Looped sem users getVtblIndex source bound inst rest code₀ i Q vs code)
    (hbound : bound ≤ code₀.next) (hi : i < (source inst.id).length)
    (hnot : ∀ later ∈ rest, later.id ≠ inst.id)
    (horder : ∀ id, .inst id ∈ source inst.id →
      Clean users source id ∨ ∀ later ∈ inst :: rest, later.id ≠ id)
    (hbelow : ∀ id, .inst id ∈ source inst.id → id < bound)
    (htables : ∀ id, .inst id ∈ source inst.id → ReadsTable users source id →
      Plain users source id)
    (hstep : rewriteOperand users fuel inst.id code i = .ok code') :
    ∃ Q' vs', Looped sem users getVtblIndex source bound inst rest code₀ (i + 1) Q' vs' code' := by
  have hprogress := h.progress
  obtain ⟨hid, -⟩ := hprogress.pending inst List.mem_cons_self
  obtain ⟨v, hget⟩ : ∃ v, (source inst.id)[i]? = some v := ⟨_, List.getElem?_eq_getElem hi⟩
  have hmem := List.mem_of_getElem? hget
  have hv := h.getElem? hget
  obtain ⟨contains, v', code₁, hcontains, hcases, rfl⟩ := rewriteOperand_cases hv hstep
  have hinst : ∀ id, v = .inst id → id < code.next ∧ (contains = true → Q id) := by
    rintro id rfl
    have hlt := hbelow id hmem
    refine ⟨hlt.trans_le hprogress.bound_le, ?_⟩
    rintro rfl
    refine h.quiet_operand hlt (horder id hmem) fun hdone => ?_
    obtain ⟨r, hr, hholds⟩ := holds_of_sdContainsMemptr hcontains
    obtain ⟨hsource, hexposed⟩ := hprogress.done id hlt hdone r hr
    exact htables id hmem ⟨r, hsource, hexposed, hholds⟩
  have hrewritten : Rewritten sem users getVtblIndex Q v code v' code₁ :=
    rewritten_of_cases hlaw hprogress.calm hinst hcontains hcases
  have hkeeps : code₁.operands inst.id = code.operands inst.id :=
    hrewritten.computes.keeps _ (hid.trans_le hprogress.bound_le) trivial
  have hset : (code₁.operands inst.id).set i v' =
      (vs ++ [v']) ++ (source inst.id).drop (i + 1) := by
    rw [hkeeps, h.set_operands hget]
  have hclean : Clean users source inst.id →
      (code₁.operands inst.id).set i v' = code₁.operands inst.id := by
    intro hclean
    have hsame : v' = v := hrewritten.same fun r hr hexposed =>
      hclean inst.id .refl r (hr ▸ hmem) hexposed.holds
    obtain ⟨hlt, hget⟩ := List.getElem?_eq_some_iff.mp (hkeeps ▸ hv)
    rw [hsame, ← hget, List.set_getElem_self]
  have hcomputes := h.computes_concat hbound hid hbelow hget hrewritten
    ((code₁.operands inst.id).set i v')
  have hconst : ∀ r, .const (.user r) ∈ vs ++ [v'] →
      .const (.user r) ∈ source inst.id ∧ ¬ Exposed users r := by
    intro r hr
    rcases List.mem_append.mp hr with hr | hr
    · exact h.const r hr
    · obtain ⟨hsource, hnot⟩ := hrewritten.const r (List.mem_singleton.mp hr).symm
      exact ⟨List.mem_singleton.mp hr ▸ hsource ▸ hmem, hnot⟩
  have hcleaned : Clean users source inst.id →
      (code₁.setOperands inst.id ((code₁.operands inst.id).set i v')).operands inst.id =
        source inst.id := by
    intro hc
    rw [Builder.setOperands_operands, hclean hc, hkeeps, h.clean hc]
  have hprogress₁ := hprogress.of_computes hrewritten.computes
  by_cases hplain : Plain users source inst.id
  · obtain ⟨Q', hnew, hclosed, hquiet⟩ := hrewritten.quiet
      (fun r hr => hplain inst.id .refl r (hr ▸ hmem)) (by
        rintro id rfl
        exact h.quiet_operand (hbelow id hmem) (horder id hmem) fun _ => hplain.step hmem)
    refine ⟨fun id => Q id ∨ Q' id, vs ++ [v'], ?_, ?_, ?_, ?_, ?_, ?_, hcomputes⟩
    · exact (hprogress₁.grow (fun id hid => ⟨hprogress.bound_le.trans (hnew id hid).1,
        (hnew id hid).2⟩) hclosed).setOperands hnot hclean
    · rw [Builder.setOperands_operands, hset]
    · rw [List.length_append, h.length, List.length_singleton]
    · exact hconst
    · intro _
      rw [List.forall_mem_append, List.forall_mem_singleton]
      exact ⟨fun w hw => (h.quiet hplain w hw).mono fun _ => .inl, hquiet⟩
    · exact hcleaned
  · refine ⟨Q, vs ++ [v'], hprogress₁.setOperands hnot hclean, ?_, ?_, hconst,
      fun hplain' => absurd hplain' hplain, hcleaned, hcomputes⟩
    · rw [Builder.setOperands_operands, hset]
    · rw [List.length_append, h.length, List.length_singleton]

end Loop

section Blocks

variable {S V : Type} {sem : Semantics S V} {users : Users} {getVtblIndex : String → Int → Int}
  (hlaw : sem.Lawful getVtblIndex) {source : Nat → List Value} {bound fuel : Nat}
  {code code' : Code}

theorem InOrder.of_append {block later : List (Instruction Opcode)}
    (h : InOrder users source (block ++ later)) : InOrder users source later := by
  induction block with
  | nil => exact h
  | cons inst block ih => exact ih h.2.2

variable (sem users getVtblIndex source bound) in
/-- The code of some instructions has been rewritten, where later ones are pending. -/
structure Advanced (block later : List (Instruction Opcode)) (code code' : Code)
    (new : List (Instruction Opcode)) : Prop where
  next_le : code.next ≤ code'.next
  keeps : ∀ id < code.next, (∀ inst ∈ block, inst.id ≠ id) → code'.operands id = code.operands id
  follows : ∀ target : Nat → List Value,
    (∀ id < code'.next, (∀ inst ∈ later, inst.id ≠ id) → target id = code'.operands id) →
      Follows sem.exec (sem.constant users sem.oldPointer)
        (sem.constant users (sem.newPointer getVtblIndex)) bound source target block new
  opcodes : ∀ inst ∈ new, inst ∈ block ∨ inst.opcode.isPhi = false

include hlaw in
theorem rewriteInstruction_advances {inst : Instruction Opcode} {rest : List (Instruction Opcode)}
    {Q : Nat → Prop} (hprogress : Progress users source bound (inst :: rest) (inst :: rest) Q code)
    (horder : InOrder users source (inst :: rest))
    (hbelow : ∀ id, .inst id ∈ source inst.id → id < bound)
    (htables : ∀ id, .inst id ∈ source inst.id → ReadsTable users source id →
      Plain users source id)
    (h : rewriteInstruction users fuel code inst = .ok code') :
    ∃ Q' new, Progress users source bound rest rest Q' code' ∧
      code'.emitted = code.emitted ++ new ∧
      Advanced sem users getVtblIndex source bound [inst] rest code code' new := by
  obtain ⟨hoperands, hnot, -⟩ := horder
  obtain ⟨hid, hsource⟩ := hprogress.untouched inst List.mem_cons_self
  rw [rewriteInstruction, bind_eq_ok] at h
  obtain ⟨code₁, hloop, h⟩ := h
  obtain rfl := Except.ok.inj h
  have hstart : Looped sem users getVtblIndex source bound inst rest code 0 Q [] code := by
    refine ⟨{ hprogress with untouched := ?_ }, hsource, rfl, fun _ hr => ?_,
      fun _ => List.forall_mem_nil _, fun _ => hsource, ?_⟩
    · exact fun later hlater => hprogress.untouched later (List.mem_cons_of_mem _ hlater)
    · cases hr
    · exact (Builder.Computes.nil code).weaken fun _ _ _ => rfl
  rw [hsource] at hloop
  obtain ⟨Q', vs, hlooped⟩ := foldlM_range_rule (fun i c => ∃ Q vs,
    Looped sem users getVtblIndex source bound inst rest code i Q vs c)
    (fun i c c' hi ⟨Q, vs, hc⟩ hstep => hc.step hlaw hprogress.bound_le hi hnot hoperands hbelow
      htables hstep) ⟨Q, [], hstart⟩ hloop
  have hvs : code₁.operands inst.id = vs := by
    rw [hlooped.operands, List.drop_length, List.append_nil]
  have hcomputes := hlooped.computes
  rw [List.take_length, ← hvs] at hcomputes
  obtain ⟨new, hnew, hids, hphi, hfollows⟩ :=
    Follows.of_computes hprogress.bound_le hbelow hcomputes
  refine ⟨_, new ++ [inst], hlooped.progress.place hnot (hvs ▸ hlooped.const)
    (hvs ▸ hlooped.quiet), ?_, hcomputes.next_le, ?_, ?_, List.forall_mem_append.mpr
      ⟨fun i hi => .inr (hphi i hi), fun i hi => .inl hi⟩⟩
  · exact (congrArg (· ++ [inst]) hnew).trans (List.append_assoc ..)
  · intro id hlt hne
    exact hcomputes.keeps id hlt (List.forall_mem_singleton.mp hne).symm
  · intro target htarget
    refine hfollows.congr ?_
    rw [List.forall_mem_append, List.forall_mem_singleton]
    refine ⟨fun i hi => htarget i.id (hids i hi).2 fun later hlater heq => ?_,
      htarget inst.id (hid.trans_le hlooped.progress.bound_le) hnot⟩
    have hlater := (hprogress.untouched later (List.mem_cons_of_mem _ hlater)).1
    exact absurd ((hprogress.bound_le.trans (hids i hi).1).trans_eq heq.symm)
      (Nat.not_le.mpr hlater)

include hlaw in
theorem foldlM_advances {block later : List (Instruction Opcode)} {Q : Nat → Prop}
    (hprogress : Progress users source bound (block ++ later) (block ++ later) Q code)
    (horder : InOrder users source (block ++ later))
    (hbelow : ∀ inst ∈ block, ∀ id, .inst id ∈ source inst.id → id < bound)
    (htables : ∀ inst ∈ block, ∀ id, .inst id ∈ source inst.id → ReadsTable users source id →
      Plain users source id)
    (h : block.foldlM (rewriteInstruction users fuel) code = .ok code') :
    ∃ Q' new, Progress users source bound later later Q' code' ∧
      code'.emitted = code.emitted ++ new ∧
      Advanced sem users getVtblIndex source bound block later code code' new := by
  induction block generalizing Q code with
  | nil =>
    obtain rfl := Except.ok.inj h
    exact ⟨Q, [], hprogress, (List.append_nil _).symm, le_refl _, fun _ _ _ => rfl,
      fun _ _ => .nil, List.forall_mem_nil _⟩
  | cons inst block ih =>
    obtain ⟨hbelowInst, hbelow⟩ := List.forall_mem_cons.mp hbelow
    obtain ⟨htablesInst, htables⟩ := List.forall_mem_cons.mp htables
    rw [List.foldlM_cons, bind_eq_ok] at h
    obtain ⟨code₁, hinst, h⟩ := h
    obtain ⟨Q₁, new₁, hprogress₁, hemitted₁, hfirst⟩ :=
      rewriteInstruction_advances hlaw hprogress horder hbelowInst htablesInst hinst
    obtain ⟨Q', new, hprogress', hemitted, hrest⟩ :=
      ih hprogress₁ horder.2.2 hbelow htables h
    refine ⟨Q', new₁ ++ new, hprogress', by rw [hemitted, hemitted₁, List.append_assoc],
      hfirst.next_le.trans hrest.next_le, ?_, ?_, List.forall_mem_append.mpr ⟨?_, ?_⟩⟩
    · intro id hlt hne
      obtain ⟨hneInst, hne⟩ := List.forall_mem_cons.mp hne
      rw [hrest.keeps id (hlt.trans_le hfirst.next_le) hne,
        hfirst.keeps id hlt (List.forall_mem_singleton.mpr hneInst)]
    · intro target htarget
      refine (hfirst.follows target fun id hlt hne => ?_).append (hrest.follows target htarget)
      obtain ⟨hneBlock, hneLater⟩ := List.forall_mem_append.mp hne
      rw [htarget id (hlt.trans_le hrest.next_le) hneLater, hrest.keeps id hlt hneBlock]
    · exact fun i hi => (hfirst.opcodes i hi).imp_left fun hi =>
        List.mem_cons.mpr (.inl (List.mem_singleton.mp hi))
    · exact fun i hi => (hrest.opcodes i hi).imp_left (List.mem_cons_of_mem _)

/-- All operands of older instructions hold constants of the source. -/
theorem Progress.user_mem {Q : Nat → Prop} {pending : List (Instruction Opcode)}
    (h : Progress users source bound pending pending Q code) {id : Nat} (hid : id < bound) {r : Ref}
    (hr : .const (.user r) ∈ code.operands id) : .const (.user r) ∈ source id := by
  by_cases hdone : ∀ inst ∈ pending, inst.id ≠ id
  · exact (h.done id hid hdone r hr).1
  · obtain ⟨inst, hinst, heq⟩ : ∃ inst, inst ∈ pending ∧ ¬ inst.id ≠ id := by
      simpa only [not_forall, exists_prop] using hdone
    obtain rfl := not_not.mp heq
    exact (h.untouched inst hinst).2 ▸ hr

/-- No code is put in front of a clean instruction, which stays as it is. -/
theorem rewriteInstruction_eq_place {inst : Instruction Opcode} {rest : List (Instruction Opcode)}
    {Q : Nat → Prop} (hprogress : Progress users source bound (inst :: rest) (inst :: rest) Q code)
    (hbelow : ∀ id, .inst id ∈ source inst.id → id < bound) (hclean : Clean users source inst.id)
    (h : rewriteInstruction users fuel code inst = .ok code') : code' = code.place inst := by
  obtain ⟨-, hsource⟩ := hprogress.untouched inst List.mem_cons_self
  rw [rewriteInstruction, bind_eq_ok] at h
  obtain ⟨code₁, hloop, h⟩ := h
  obtain rfl := Except.ok.inj h
  have hsame : code₁ = code := by
    refine foldlM_range_rule (fun _ c => c = code) ?_ rfl hloop
    rintro i _ c hi rfl hstep
    have hv := List.getElem?_eq_getElem hi
    refine rewriteOperand_eq_self hv (fun r hr => ?_) (fun op hop r hr => ?_) hstep
    · exact hclean inst.id .refl r (hsource ▸ List.mem_of_getElem? (hr ▸ hv))
    · have hmem : .inst op ∈ source inst.id := hsource ▸ List.mem_of_getElem? (hop ▸ hv)
      exact hclean.step hmem op .refl r (hprogress.user_mem (hbelow op hmem) hr)
  rw [hsame]

include hlaw in
theorem foldlM_eq_place {phis later : List (Instruction Opcode)} {Q : Nat → Prop}
    (hprogress : Progress users source bound (phis ++ later) (phis ++ later) Q code)
    (horder : InOrder users source (phis ++ later))
    (hbelow : ∀ inst ∈ phis, ∀ id, .inst id ∈ source inst.id → id < bound)
    (htables : ∀ inst ∈ phis, ∀ id, .inst id ∈ source inst.id → ReadsTable users source id →
      Plain users source id)
    (hclean : ∀ inst ∈ phis, Clean users source inst.id)
    (h : phis.foldlM (rewriteInstruction users fuel) code = .ok code') :
    (∃ Q', Progress users source bound later later Q' code') ∧
      code' = { code with emitted := code.emitted ++ phis } := by
  induction phis generalizing Q code with
  | nil =>
    obtain rfl := Except.ok.inj h
    exact ⟨⟨Q, hprogress⟩, by rw [List.append_nil]⟩
  | cons inst phis ih =>
    obtain ⟨hbelowInst, hbelow⟩ := List.forall_mem_cons.mp hbelow
    obtain ⟨htablesInst, htables⟩ := List.forall_mem_cons.mp htables
    obtain ⟨hcleanInst, hclean⟩ := List.forall_mem_cons.mp hclean
    rw [List.foldlM_cons, bind_eq_ok] at h
    obtain ⟨code₁, hinst, h⟩ := h
    obtain ⟨Q₁, -, hprogress₁, -, -⟩ :=
      rewriteInstruction_advances hlaw hprogress horder hbelowInst htablesInst hinst
    obtain rfl := rewriteInstruction_eq_place hprogress hbelowInst hcleanInst hinst
    obtain ⟨hprogress', rfl⟩ := ih hprogress₁ horder.2.2 hbelow htables hclean h
    refine ⟨hprogress', ?_⟩
    rw [Builder.place, List.append_assoc, List.singleton_append]

theorem InOrder.ne_of_append {block later : List (Instruction Opcode)}
    (h : InOrder users source (block ++ later)) {inst : Instruction Opcode} (hinst : inst ∈ block) :
    ∀ other ∈ later, other.id ≠ inst.id := by
  induction block with
  | nil => cases hinst
  | cons first block ih =>
    rcases List.mem_cons.mp hinst with rfl | hinst
    · exact fun other hother => h.2.1 other (List.mem_append_right _ hother)
    · exact ih h.2.2 hinst

/-- A clean instruction reads the same values, with the old constants too. -/
theorem Clean.map_eval {inst : Instruction Opcode} (h : Clean users source inst.id)
    (hbelow : ∀ id, .inst id ∈ source inst.id → id < bound) {st st' : S × (Nat → V)}
    (hst : Agrees bound st st') :
    (source inst.id).map (Operand.eval (sem.constant users sem.oldPointer) st'.2) =
      (source inst.id).map
        (Operand.eval (sem.constant users (sem.newPointer getVtblIndex)) st.2) := by
  rw [hst.map_eval hbelow]
  apply List.map_congr_left
  intro v hv
  rcases v with c | id
  · cases c with
    | user r => exact denote_eq_of_not_holds sem _ _ r (h inst.id .refl r hv)
    | int n => rfl
    | undef => rfl
  · rfl

variable (sem users getVtblIndex source bound) in
/-- The phis of a block stay in front, and its other instructions are followed. -/
structure BlockRewritten (block later : List (Instruction Opcode)) (code code' : Code)
    (block' : List (Instruction Opcode)) : Prop where
  next_le : code.next ≤ code'.next
  keeps : ∀ id < code.next, (∀ inst ∈ block, inst.id ≠ id) → code'.operands id = code.operands id
  grouped : Grouped Opcode.isPhi block'
  phis_eq : phis Opcode.isPhi block' = phis Opcode.isPhi block
  follows : ∀ target : Nat → List Value,
    (∀ id < code'.next, (∀ inst ∈ later, inst.id ≠ id) → target id = code'.operands id) →
      BlockFollows Opcode.isPhi sem.exec (sem.constant users sem.oldPointer)
        (sem.constant users (sem.newPointer getVtblIndex)) bound source target block block'

include hlaw in
theorem rewriteBlock_rewritten {block block' later : List (Instruction Opcode)} {Q : Nat → Prop}
    (hprogress : Progress users source bound (block ++ later) (block ++ later) Q code)
    (horder : InOrder users source (block ++ later))
    (hbelow : ∀ inst ∈ block, ∀ id, .inst id ∈ source inst.id → id < bound)
    (htables : ∀ inst ∈ block, ∀ id, .inst id ∈ source inst.id → ReadsTable users source id →
      Plain users source id)
    (hgrouped : Grouped Opcode.isPhi block)
    (hclean : ∀ inst ∈ block, inst.opcode.isPhi = true → Clean users source inst.id)
    (h : rewriteBlock users fuel block code = .ok (block', code')) :
    ∃ Q', Progress users source bound later later Q' code' ∧
      BlockRewritten sem users getVtblIndex source bound block later code code' block' := by
  rw [rewriteBlock, bind_eq_ok] at h
  obtain ⟨code₂, hfold, h⟩ := h
  obtain ⟨rfl, rfl⟩ := Prod.mk.inj (Except.ok.inj h)
  have hsplit := @phis_append_body _ Opcode.isPhi block
  have hphi : ∀ inst ∈ phis Opcode.isPhi block, inst.opcode.isPhi = true :=
    fun inst hinst => isPhi_of_mem_phis hinst
  have hrest : ∀ inst ∈ body Opcode.isPhi block, inst ∈ block := fun inst hinst =>
    hsplit ▸ List.mem_append_right _ hinst
  have hfront : ∀ inst ∈ phis Opcode.isPhi block, inst ∈ block := fun inst hinst =>
    hsplit ▸ List.mem_append_left _ hinst
  have hstart : Progress users source bound
      (phis Opcode.isPhi block ++ (body Opcode.isPhi block ++ later))
      (phis Opcode.isPhi block ++ (body Opcode.isPhi block ++ later)) Q
      { code with emitted := [] } := by
    rw [← List.append_assoc, hsplit]
    exact { hprogress with calm := ⟨hprogress.calm.closed, hprogress.calm.known⟩ }
  rw [← hsplit, List.append_assoc] at horder
  rw [← hsplit, List.foldlM_append, bind_eq_ok] at hfold
  obtain ⟨code₁, hphis, hbody⟩ := hfold
  obtain ⟨⟨Q₁, hprogress₁⟩, rfl⟩ := foldlM_eq_place hlaw hstart horder
    (fun inst hinst => hbelow inst (hfront inst hinst))
    (fun inst hinst => htables inst (hfront inst hinst))
    (fun inst hinst => hclean inst (hfront inst hinst) (hphi inst hinst)) hphis
  obtain ⟨Q', new, hprogress', hemitted, hadvanced⟩ := foldlM_advances hlaw hprogress₁
    horder.of_append (fun inst hinst => hbelow inst (hrest inst hinst))
    (fun inst hinst => htables inst (hrest inst hinst)) hbody
  have hnew : ∀ inst ∈ new, inst.opcode.isPhi = false := fun inst hinst =>
    (hadvanced.opcodes inst hinst).elim (hgrouped inst) id
  rw [List.nil_append] at hemitted
  rw [hemitted]
  refine ⟨Q', hprogress', hadvanced.next_le, ?_, ?_, phis_append hphi hnew, ?_⟩
  · exact fun id hlt hne => hadvanced.keeps id hlt fun inst hinst => hne inst (hrest inst hinst)
  · rw [Grouped, body_append hphi hnew]
    exact hnew
  · intro target htarget st st' hst
    rw [runBlock, runBlock, phis_append hphi hnew, body_append hphi hnew]
    refine hadvanced.follows target htarget _ _ (hst.runPhis fun inst hinst => ?_)
    obtain ⟨hlt, hsource⟩ := hprogress.untouched inst (List.mem_append_left _ (hfront inst hinst))
    have hne := List.forall_mem_append.mp (horder.ne_of_append hinst)
    have hsame : target inst.id = source inst.id := by
      rw [htarget _ (hlt.trans_le hprogress'.bound_le) hne.2,
        hadvanced.keeps _ (hlt.trans_le hprogress.bound_le) hne.1]
      exact hsource
    rw [hsame]
    exact (hclean inst (hfront inst hinst) (hphi inst hinst)).map_eval
      (hbelow inst (hfront inst hinst)) hst

include hlaw in
theorem threadM_advances {blocks blocks' : List (List (Instruction Opcode))} {Q : Nat → Prop}
    (hprogress : Progress users source bound blocks.flatten blocks.flatten Q code)
    (horder : InOrder users source blocks.flatten)
    (hbelow : ∀ inst ∈ blocks.flatten, ∀ id, .inst id ∈ source inst.id → id < bound)
    (htables : ∀ inst ∈ blocks.flatten, ∀ id, .inst id ∈ source inst.id →
      ReadsTable users source id → Plain users source id)
    (hgrouped : ∀ block ∈ blocks, Grouped Opcode.isPhi block)
    (hclean : ∀ inst ∈ blocks.flatten, inst.opcode.isPhi = true → Clean users source inst.id)
    (h : threadM (rewriteBlock users fuel) blocks code = .ok (blocks', code')) :
    code.next ≤ code'.next ∧
      (∀ id < code.next, (∀ inst ∈ blocks.flatten, inst.id ≠ id) →
        code'.operands id = code.operands id) ∧
      List.Forall₂ (fun block block' => Grouped Opcode.isPhi block' ∧
        phis Opcode.isPhi block' = phis Opcode.isPhi block) blocks blocks' ∧
      ∀ target : Nat → List Value, (∀ id < code'.next, target id = code'.operands id) →
        List.Forall₂ (BlockFollows Opcode.isPhi sem.exec (sem.constant users sem.oldPointer)
          (sem.constant users (sem.newPointer getVtblIndex)) bound source target) blocks
          blocks' := by
  induction blocks generalizing Q code blocks' with
  | nil =>
    obtain ⟨rfl, rfl⟩ := Prod.mk.inj (Except.ok.inj h)
    exact ⟨le_refl _, fun _ _ _ => rfl, .nil, fun _ _ => .nil⟩
  | cons block blocks ih =>
    rw [List.flatten_cons] at hprogress horder hbelow htables hclean
    rw [List.forall_mem_append] at hbelow htables hclean
    rw [List.forall_mem_cons] at hgrouped
    obtain ⟨block', code₁, rest, hblock, hrest, rfl⟩ := threadM_cons_eq_ok.mp h
    obtain ⟨Q', hprogress', hfirst⟩ := rewriteBlock_rewritten hlaw hprogress horder hbelow.1
      htables.1 hgrouped.1 hclean.1 hblock
    obtain ⟨hnext, hkeeps, hphis, hfollows⟩ := ih hprogress' horder.of_append hbelow.2 htables.2
      hgrouped.2 hclean.2 hrest
    refine ⟨hfirst.next_le.trans hnext, ?_, .cons ⟨hfirst.grouped, hfirst.phis_eq⟩ hphis, ?_⟩
    · intro id hlt hne
      obtain ⟨hneBlock, hneRest⟩ := List.forall_mem_append.mp hne
      rw [hkeeps id (hlt.trans_le hfirst.next_le) hneRest, hfirst.keeps id hlt hneBlock]
    · intro target htarget
      refine .cons (hfirst.follows target fun id hlt hne => ?_) (hfollows target htarget)
      rw [htarget id (hlt.trans_le hnext), hkeeps id hlt hne]

theorem WellOrdered.progress {blocks : List (List (Instruction Opcode))}
    (h : WellOrdered users code blocks) :
    Progress users code.operands code.next blocks.flatten blocks.flatten
      (fun id => id < code.next ∧ Clean users code.operands id) code where
  bound_le := le_refl _
  calm := by
    refine ⟨?_, fun id hid => hid.1⟩
    rintro id ⟨-, hclean⟩ v hv
    by_cases hsome : ∀ inst ∈ blocks.flatten, inst.id ≠ id
    · rw [h.others id hsome] at hv
      cases hv
    · obtain ⟨inst, hinst, heq⟩ : ∃ inst, inst ∈ blocks.flatten ∧ ¬ inst.id ≠ id := by
        simpa only [not_forall, exists_prop] using hsome
      obtain rfl := not_not.mp heq
      rcases v with c | op
      · cases c with
        | user r => exact fun hexposed => hclean inst.id .refl r hv hexposed.holds
        | int n => trivial
        | undef => trivial
      · exact ⟨h.operands_below inst hinst op hv, hclean.step hv⟩
  done id _ hdone r hr := by
    rw [h.others id hdone] at hr
    cases hr
  plain id hid hdone _ := ⟨hid, clean_of_nil (h.others id hdone)⟩
  clean id hid hclean := ⟨hid, hclean⟩
  pending inst hinst := ⟨h.below inst hinst, And.right⟩
  untouched inst hinst := ⟨h.below inst hinst, rfl⟩

end Blocks

/-- The phis of every block stay in front, and on every path through the blocks, the rewritten code
does to the memory, and leaves in every old value, what the code does in which all member pointers
hold the new indices. -/
theorem sdRewriteMPtrToIntrinsics_preserves {S V : Type} {sem : Semantics S V}
    {getVtblIndex : String → Int → Int} (hlaw : sem.Lawful getVtblIndex) {users : Users}
    {fuel : Nat} {blocks blocks' : List (List (Instruction Opcode))} {code code' : Code}
    (hwell : WellOrdered users code blocks)
    (h : sdRewriteMPtrToIntrinsics users fuel blocks code = .ok (blocks', code')) :
    List.Forall₂ (fun block block' => Grouped Opcode.isPhi block' ∧
      phis Opcode.isPhi block' = phis Opcode.isPhi block) blocks blocks' ∧
    ∀ (path : List Nat) (st : S × (Nat → V)), Agrees code.next
      (runPath Opcode.isPhi sem.exec (sem.constant users (sem.newPointer getVtblIndex))
        code.operands blocks path st)
      (runPath Opcode.isPhi sem.exec (sem.constant users sem.oldPointer) code'.operands blocks'
        path st) := by
  obtain ⟨-, -, hphis, hfollows⟩ := threadM_advances hlaw hwell.progress hwell.inOrder
    hwell.operands_below hwell.tables hwell.grouped hwell.phis h
  exact ⟨hphis, fun path _ => blockFollows_runPath (hfollows code'.operands fun _ _ => rfl) path
    ⟨rfl, fun _ _ => rfl⟩⟩

/-- Values as terms. -/
inductive Term
  | int (value : Int)
  | undef
  | leaf (r : Ref)
  | aggregate (elems : List Term)
  | vector (elems : List Term)
  | expr (opcode : ExprOpcode) (operands : List Term)

def Term.insertValue : Term → Nat → Term → Term
  | .aggregate elems, i, v => .aggregate (elems.set i v)
  | .undef, 0, v => .aggregate [v, .undef]
  | agg, _, _ => agg

/-- All other instructions are recorded with their operands, and three entries stand in front of
the methods in the new vtables.  A phi has its second value behind the instruction 9. -/
def termSemantics : Semantics (List (Nat × List Term)) Term where
  int := .int
  undef := .undef
  leaf := .leaf
  aggregate := .aggregate
  vector := .vector
  expr := .expr
  insertValue := .insertValue
  exec s opcode vs := match opcode, vs with
    | .phi, [v, w] => (s, if s.getLast?.map Prod.fst = some 9 then w else v)
    | .getVtblIndex _, [.int ind] => (s, .int (ind + 3))
    | .mul, [.int n, .int m] => (s, .int (n * m))
    | .add, [.int n, .int m] => (s, .int (n + m))
    | .insertValue i, [agg, v] => (s, agg.insertValue i v)
    | .expr opcode, vs => (s, .expr opcode vs)
    | .other opcode, vs => (s ++ [(opcode, vs)], .undef)
    | _, _ => (s, .undef)

theorem termSemantics_lawful : termSemantics.Lawful fun _ ind => ind + 3 where
  getVtblIndex _ _ _ := rfl
  mul _ _ _ := rfl
  add _ _ _ := rfl
  exec_expr _ _ _ := rfl
  exec_insertValue _ _ _ _ := rfl
  insertValue_aggregate _ _ _ _ := rfl
  insertValue_undef _ _ := rfl

/-- A struct of the null pointer, the third method of `A`, and a number; a table with the method. -/
def pairUsers : Users where
  table := [⟨.constantInt 17, []⟩, ⟨.constantInt 0, []⟩, ⟨.constantMemberPointer "_ZTV1A", [0, 1]⟩,
    ⟨.constantMemberPointer "_ZTV1A", [1, 1]⟩, ⟨.constantStruct, [3, 2, 0]⟩,
    ⟨.constantStruct, [2]⟩, ⟨.globalValue, [5]⟩]
  ordered := by decide
  wellFormed := by decide

/-- The struct is stored; an element of the table is loaded and stored, which maps its operands
again. -/
def storePair : List (Instruction Opcode) := [⟨0, .other 7⟩, ⟨1, .other 8⟩, ⟨2, .other 7⟩]

/-- A loop that is entered with the number. -/
def passNumber : List (Instruction Opcode) := [⟨3, .phi⟩, ⟨4, .other 9⟩]

def storePairOperands : List (List Value) :=
  [[.const (.user 4)], [.const (.user 6)], [.inst 1], [.const (.user 0), .inst 4], [.inst 3]]

def storePairCode : Code where
  next := 5
  operands id := (storePairOperands[id]?).getD []
  emitted := []

theorem storePairCode_operands (id : Nat) :
    storePairCode.operands id = (storePairOperands[id]?).getD [] := rfl

theorem storePairCode_clean {id : Nat} (h : id = 3 ∨ id = 4) :
    Clean pairUsers storePairCode.operands id := by
  have hbelow : ∀ op, Reaches (instOperands storePairCode.operands) id op → op = 3 ∨ op = 4 := by
    intro op hop
    induction hop with
    | refl => exact h
    | tail _ hstep ih =>
      have hstep := mem_instOperands.mp hstep
      rcases ih with rfl | rfl
      · exact .inr (by simpa [storePairCode_operands, storePairOperands] using hstep)
      · exact .inl (by simpa [storePairCode_operands, storePairOperands] using hstep)
  intro op hop r hr hholds
  rcases hbelow op hop with rfl | rfl
  · obtain rfl : r = 0 := by simpa [storePairCode_operands, storePairOperands] using hr
    obtain ⟨x, hx, hpointer⟩ := hholds
    rcases hx.cases_head with rfl | ⟨_, hchild, -⟩
    · cases hpointer
    · cases hchild
  · simp [storePairCode_operands, storePairOperands] at hr

theorem storePair_wellOrdered : WellOrdered pairUsers storePairCode [storePair, passNumber] where
  below := by decide
  operands_below := by simp [storePair, passNumber, storePairCode, storePairOperands]
  others id hid := by
    have hlt : 5 ≤ id := by
      simp only [storePair, passNumber, List.flatten_cons, List.flatten_nil, List.cons_append,
        List.nil_append, List.append_nil, List.forall_mem_cons] at hid
      omega
    have hnone : storePairOperands[id]? = none := List.getElem?_eq_none_iff.mpr hlt
    rw [storePairCode_operands, hnone, Option.getD_none]
  inOrder := by
    have hphi := storePairCode_clean (.inl rfl)
    have hnumber := storePairCode_clean (.inr rfl)
    simp [storePair, passNumber, InOrder, storePairCode_operands, storePairOperands, hphi, hnumber]
  grouped := by
    simp only [Grouped]
    decide
  phis := by
    simp only [storePair, passNumber, List.flatten_cons, List.flatten_nil, List.cons_append,
      List.nil_append, List.append_nil, List.forall_mem_cons]
    refine ⟨fun h => ?_, fun h => ?_, fun h => ?_, fun _ => storePairCode_clean (.inl rfl),
      fun h => ?_, List.forall_mem_nil _⟩ <;> cases h
  tables := by
    have hplain : Plain pairUsers storePairCode.operands 1 := by
      intro op hop r hr hstruct
      rcases hop.cases_head with rfl | ⟨op', hop', -⟩
      · obtain rfl : r = 6 := by simpa [storePairCode_operands, storePairOperands] using hr
        cases hstruct with
        | struct kind => cases kind
        | expr kind => cases kind
      · cases hop'
    simp only [storePair, passNumber, List.flatten_cons, List.flatten_nil, List.cons_append,
      List.nil_append, List.append_nil, List.forall_mem_cons]
    refine ⟨?_, ?_, ?_, ?_, ?_, List.forall_mem_nil _⟩
    · simp [storePairCode_operands, storePairOperands]
    · simp [storePairCode_operands, storePairOperands]
    · intro id hid _
      obtain rfl : id = 1 := by simpa [storePairCode_operands, storePairOperands] using hid
      exact hplain
    · intro id hid _
      obtain rfl : id = 4 := by simpa [storePairCode_operands, storePairOperands] using hid
      exact (storePairCode_clean (.inr rfl)).plain
    · intro id hid _
      obtain rfl : id = 3 := by simpa [storePairCode_operands, storePairOperands] using hid
      exact (storePairCode_clean (.inl rfl)).plain

theorem sdRewriteMPtrToIntrinsics_preserves_storePair : ∃ blocks code,
    sdRewriteMPtrToIntrinsics pairUsers 9 [storePair, passNumber] storePairCode =
      .ok (blocks, code) ∧
      (runPath Opcode.isPhi termSemantics.exec
        (termSemantics.constant pairUsers termSemantics.oldPointer) code.operands blocks [0, 1, 1]
        ([], fun _ => .undef)).1 =
          [(7, [.aggregate [.aggregate [.int 0, .int 0], .aggregate [.int 41, .int 0],
            .int 17]]), (8, [.leaf 6]), (7, [.undef]), (9, [.int 17]), (9, [.undef])] := by
  have hok : sdRewriteMPtrToIntrinsics pairUsers 9 [storePair, passNumber] storePairCode =
    .ok (_, _) := rfl
  exact ⟨_, _, hok, ((sdRewriteMPtrToIntrinsics_preserves termSemantics_lawful
    storePair_wellOrdered hok).2 [0, 1, 1] ([], fun _ => .undef)).memory⟩

end RhoFEM.Frontend
