import RhoFEM.Lib.Simulation

/-! Straight-line code in which every instruction defines a value and the operands of an
instruction may be set later, and code that is put in front of an instruction to compute its
operands. -/

namespace RhoFEM.Lib.Straightline

open RhoFEM.Lib.Fold RhoFEM.Lib.Simulation

universe u v

inductive Operand (C : Type u)
  | const (c : C)
  | inst (id : Nat)
  deriving DecidableEq

structure Instruction (O : Type u) where
  id : Nat
  opcode : O
  deriving DecidableEq

/-- The number that the next instruction gets, the operands of all instructions, and the
instructions of a block so far. -/
structure Builder (C O : Type u) where
  next : Nat
  operands : Nat → List (Operand C)
  emitted : List (Instruction O)

section Ordered

variable {V : Type v} (node : (Nat → V) → Nat → V) (d : V)

/-- The values of the first nodes, each from those before it. -/
def fill : Nat → Nat → V
  | 0, _ => d
  | n + 1, r => if r = n then node (fill n) n else fill n r

def valueAt (r : Nat) : V := node (fill node d r) r

theorem fill_eq_valueAt {n r : Nat} (h : r < n) : fill node d n r = valueAt node d r := by
  induction n with
  | zero => exact absurd h (Nat.not_lt_zero r)
  | succ n ih =>
    rw [fill]
    rcases eq_or_ne r n with rfl | hne
    · rw [if_pos rfl, valueAt]
    · rw [if_neg hne, ih (lt_of_le_of_ne (Nat.le_of_lt_succ h) hne)]

/-- A node is computed from the values of the nodes before it. -/
theorem valueAt_eq {r : Nat} (h : ∀ g g' : Nat → V, (∀ i < r, g i = g' i) → node g r = node g' r) :
    valueAt node d r = node (valueAt node d) r :=
  h _ _ fun _ hi => fill_eq_valueAt node d hi

end Ordered

section Thread

variable {α β σ : Type u} {ε : Type v}

/-- The elements are mapped from left to right, with a state. -/
def threadM (f : α → σ → Except ε (β × σ)) : List α → σ → Except ε (List β × σ)
  | [], s => .ok ([], s)
  | a :: as, s => do
    let (b, s) ← f a s
    let (bs, s) ← threadM f as s
    return (b :: bs, s)

theorem threadM_cons_eq_ok {f : α → σ → Except ε (β × σ)} {a : α} {as : List α} {s s' : σ}
    {ys : List β} : threadM f (a :: as) s = .ok (ys, s') ↔
      ∃ b t bs, f a s = .ok (b, t) ∧ threadM f as t = .ok (bs, s') ∧ ys = b :: bs := by
  rw [threadM, bind_eq_ok]
  constructor
  · rintro ⟨⟨b, t⟩, hb, hrest⟩
    rw [bind_eq_ok] at hrest
    obtain ⟨⟨bs, t'⟩, hbs, h⟩ := hrest
    obtain ⟨rfl, rfl⟩ := Prod.mk.inj (Except.ok.inj h)
    exact ⟨b, t, bs, hb, hbs, rfl⟩
  · rintro ⟨b, t, bs, hb, hbs, rfl⟩
    refine ⟨(b, t), hb, ?_⟩
    rw [bind_eq_ok]
    exact ⟨(bs, s'), hbs, rfl⟩

end Thread

section Steps

variable {σ : Type u} {ε : Type v}

theorem eq_ok_of_guard {p : Prop} [Decidable p] {e : ε} {x : Except ε σ} {s : σ}
    (h : (if p then .error e else x) = .ok s) : x = .ok s := by
  split at h
  · cases h
  · exact h

theorem foldlM_range_rule {f : σ → Nat → Except ε σ} (P : Nat → σ → Prop) {n : Nat} {s s' : σ}
    (hstep : ∀ i s s', i < n → P i s → f s i = .ok s' → P (i + 1) s') (hstart : P 0 s)
    (h : (List.range n).foldlM f s = .ok s') : P n s' := by
  induction n generalizing s' with
  | zero => exact Except.ok.inj h ▸ hstart
  | succ n ih =>
    rw [List.range_succ, List.foldlM_append, bind_eq_ok] at h
    obtain ⟨t, hrest, h⟩ := h
    rw [List.foldlM_cons, bind_eq_ok] at h
    obtain ⟨t', hlast, h⟩ := h
    obtain rfl := Except.ok.inj h
    have ht := ih (fun i s s' hi => hstep i s s' (Nat.lt_succ_of_lt hi)) hrest
    exact hstep n t t' (Nat.lt_succ_self n) ht hlast

end Steps

section Run

variable {C O : Type u} {S V : Type v} (exec : S → O → List V → S × V) (const : C → V)

def Operand.eval (env : Nat → V) : Operand C → V
  | .const c => const c
  | .inst id => env id

def Instruction.step (operands : Nat → List (Operand C)) (st : S × (Nat → V))
    (inst : Instruction O) : S × (Nat → V) :=
  let (s, v) := exec st.1 inst.opcode ((operands inst.id).map (Operand.eval const st.2))
  (s, Function.update st.2 inst.id v)

def run (operands : Nat → List (Operand C)) (code : List (Instruction O)) (st : S × (Nat → V)) :
    S × (Nat → V) :=
  code.foldl (Instruction.step exec const operands) st

theorem run_append (operands : Nat → List (Operand C)) (code code' : List (Instruction O))
    (st : S × (Nat → V)) : run exec const operands (code ++ code') st =
      run exec const operands code' (run exec const operands code st) :=
  List.foldl_append

theorem run_congr {operands operands' : Nat → List (Operand C)} {code : List (Instruction O)}
    (h : ∀ inst ∈ code, operands inst.id = operands' inst.id) (st : S × (Nat → V)) :
    run exec const operands code st = run exec const operands' code st := by
  induction code generalizing st with
  | nil => rfl
  | cons inst code ih =>
    obtain ⟨hinst, hcode⟩ := List.forall_mem_cons.mp h
    rw [run, run, List.foldl_cons, List.foldl_cons, Instruction.step, Instruction.step, hinst]
    exact ih hcode _

end Run

namespace Builder

variable {C O : Type u} {S V : Type v}

/-- The instruction is one of the block. -/
def place (b : Builder C O) (inst : Instruction O) : Builder C O :=
  { b with emitted := b.emitted ++ [inst] }

def setOperands (b : Builder C O) (id : Nat) (operands : List (Operand C)) : Builder C O :=
  { b with operands := Function.update b.operands id operands }

theorem setOperands_operands (b : Builder C O) (id : Nat) (operands : List (Operand C)) :
    (b.setOperands id operands).operands id = operands :=
  Function.update_self ..

theorem setOperands_operands_of_ne (b : Builder C O) {id other : Nat}
    (operands : List (Operand C)) (h : other ≠ id) :
    (b.setOperands id operands).operands other = b.operands other :=
  Function.update_of_ne h ..

theorem setOperands_self (b : Builder C O) {id : Nat} {operands : List (Operand C)}
    (h : b.operands id = operands) : b.setOperands id operands = b := by
  rw [setOperands, ← h, Function.update_eq_self]

/-- A new instruction. -/
def emit (b : Builder C O) (opcode : O) (operands : List (Operand C)) :
    Operand C × Builder C O :=
  (.inst b.next, { (b.setOperands b.next operands).place ⟨b.next, opcode⟩ with
    next := b.next + 1 })

/-- Between the two states, code without phis is emitted that leaves the memory and all older
values alone, and the operands of older instructions are only set outside of the frame; behind the
code the operands have the values, which may depend on older ones, as long as no value up to the
second state changes. -/
structure Computes (isPhi : O → Bool) (exec : S → O → List V → S × V) (const : C → V)
    (frame : Nat → Prop) (b b' : Builder C O) (values : (Nat → V) → List V)
    (operands : List (Operand C)) : Prop where
  next_le : b.next ≤ b'.next
  keeps : ∀ id < b.next, frame id → b'.operands id = b.operands id
  emits : ∃ code, b'.emitted = b.emitted ++ code ∧
    (∀ inst ∈ code, b.next ≤ inst.id ∧ inst.id < b'.next) ∧
    (∀ inst ∈ code, isPhi inst.opcode = false) ∧ ∀ s env,
      ∃ env', run exec const b'.operands code (s, env) = (s, env') ∧
        (∀ id < b.next, env' id = env id) ∧ ∀ later : Nat → V,
          (∀ id < b'.next, later id = env' id) →
            operands.map (Operand.eval const later) = values env

namespace Computes

variable {isPhi : O → Bool} {exec : S → O → List V → S × V} {const : C → V} {frame : Nat → Prop}
  {b b' b'' : Builder C O} {values values' : (Nat → V) → List V}
  {operands operands' : List (Operand C)}

theorem of_emitted_eq {operands₀ : Nat → List (Operand C)}
    (hkeeps : ∀ id < b.next, frame id → operands₀ id = b.operands id)
    (hvalues : ∀ env : Nat → V, operands.map (Operand.eval const env) = values env)
    (hlater : ∀ env later : Nat → V, (∀ id < b.next, later id = env id) →
      values later = values env) :
    Computes isPhi exec const frame b { b with operands := operands₀ } values operands where
  next_le := le_refl _
  keeps := hkeeps
  emits := ⟨[], by simp, List.forall_mem_nil _, List.forall_mem_nil _, fun _ env =>
    ⟨env, rfl, fun _ _ => rfl, fun later hsame => (hvalues later).trans (hlater env later hsame)⟩⟩

theorem nil (b : Builder C O) : Computes isPhi exec const frame b b (fun _ => []) [] :=
  of_emitted_eq (fun _ _ _ => rfl) (fun _ => rfl) fun _ _ _ => rfl

theorem ofConst (b : Builder C O) (c : C) :
    Computes isPhi exec const frame b b (fun _ => [const c]) [.const c] :=
  of_emitted_eq (fun _ _ _ => rfl) (fun _ => rfl) fun _ _ _ => rfl

theorem ofInst (b : Builder C O) {id : Nat} (hid : id < b.next) :
    Computes isPhi exec const frame b b (fun env => [env id]) [.inst id] :=
  of_emitted_eq (fun _ _ _ => rfl) (fun _ => rfl) fun _ _ hlater => congrArg ([·]) (hlater id hid)

/-- Operands outside of the frame are set. -/
theorem set (b : Builder C O) {id : Nat} (hid : ¬ frame id) (new : List (Operand C)) :
    Computes isPhi exec const frame b (b.setOperands id new) (fun _ => []) [] :=
  of_emitted_eq (fun other _ hframe => Function.update_of_ne
    (fun heq : other = id => hid (heq ▸ hframe)) ..) (fun _ => rfl) fun _ _ _ => rfl

theorem mono {frame' : Nat → Prop} (h : Computes isPhi exec const frame b b' values operands)
    (hframe : ∀ id, frame' id → frame id) :
    Computes isPhi exec const frame' b b' values operands where
  next_le := h.next_le
  keeps id hid hframe' := h.keeps id hid (hframe id hframe')
  emits := h.emits

theorem append (h : Computes isPhi exec const frame b b' values operands)
    (h' : Computes isPhi exec const frame b' b'' values' operands')
    (hframe : ∀ id, b.next ≤ id → frame id)
    (hold : ∀ env env' : Nat → V, (∀ id < b.next, env' id = env id) → values' env' = values' env) :
    Computes isPhi exec const frame b b'' (fun env => values env ++ values' env)
      (operands ++ operands') where
  next_le := h.next_le.trans h'.next_le
  keeps id hid hid' := (h'.keeps id (hid.trans_le h.next_le) hid').trans (h.keeps id hid hid')
  emits := by
    obtain ⟨code, hcode, hnew, hphi, hrun⟩ := h.emits
    obtain ⟨code', hcode', hnew', hphi', hrun'⟩ := h'.emits
    refine ⟨code ++ code', by rw [hcode', hcode, List.append_assoc], ?_,
      List.forall_mem_append.mpr ⟨hphi, hphi'⟩, ?_⟩
    · rw [List.forall_mem_append]
      exact ⟨fun inst hinst => ⟨(hnew inst hinst).1, (hnew inst hinst).2.trans_le h'.next_le⟩,
        fun inst hinst => ⟨h.next_le.trans (hnew' inst hinst).1, (hnew' inst hinst).2⟩⟩
    intro s env
    have hsame : ∀ inst ∈ code, b''.operands inst.id = b'.operands inst.id := fun inst hinst =>
      h'.keeps _ (hnew inst hinst).2 (hframe _ (hnew inst hinst).1)
    obtain ⟨env₁, hrun₁, hkept₁, hvalues₁⟩ := hrun s env
    obtain ⟨env₂, hrun₂, hkept₂, hvalues₂⟩ := hrun' s env₁
    refine ⟨env₂, by rw [run_append, run_congr exec const hsame, hrun₁, hrun₂], ?_, ?_⟩
    · intro id hid
      rw [hkept₂ id (hid.trans_le h.next_le), hkept₁ id hid]
    · intro later hlater
      rw [List.map_append, hvalues₂ later hlater, hold env env₁ hkept₁]
      congr 1
      apply hvalues₁
      intro id hid
      rw [hlater id (hid.trans_le h'.next_le), hkept₂ id hid]

/-- Other operands may be read off the same values. -/
theorem weaken (h : Computes isPhi exec const frame b b' values operands)
    (hread : ∀ env later, operands.map (Operand.eval const later) = values env →
      operands'.map (Operand.eval const later) = values' env) :
    Computes isPhi exec const frame b b' values' operands' where
  next_le := h.next_le
  keeps := h.keeps
  emits := by
    obtain ⟨code, hcode, hnew, hphi, hrun⟩ := h.emits
    refine ⟨code, hcode, hnew, hphi, fun s env => ?_⟩
    obtain ⟨env', hrun', hkept, hvalues⟩ := hrun s env
    exact ⟨env', hrun', hkept, fun later hlater => hread env later (hvalues later hlater)⟩

/-- The code is there, whatever it computes. -/
theorem ignore (h : Computes isPhi exec const frame b b' values operands) :
    Computes isPhi exec const frame b b' (fun _ => []) [] :=
  h.weaken fun _ _ _ => rfl

/-- One more instruction, without effects, computes from what is known. -/
theorem emit (h : Computes isPhi exec const frame b b' values operands) (opcode : O)
    (hopcode : isPhi opcode = false) (args : List (Operand C)) (xs : (Nat → V) → List V)
    (x : (Nat → V) → V)
    (hargs : ∀ env later, operands.map (Operand.eval const later) = values env →
      args.map (Operand.eval const later) = xs env)
    (hexec : ∀ s env, exec s opcode (xs env) = (s, x env)) :
    Computes isPhi exec const frame b (b'.emit opcode args).2 (fun env => x env :: values env)
      ((b'.emit opcode args).1 :: operands) where
  next_le := h.next_le.trans (Nat.le_succ _)
  keeps id hid hframe :=
    (Function.update_of_ne (hid.trans_le h.next_le).ne ..).trans (h.keeps id hid hframe)
  emits := by
    obtain ⟨code, hcode, hnew, hphi, hrun⟩ := h.emits
    have hsame : ∀ inst ∈ code, (b'.emit opcode args).2.operands inst.id = b'.operands inst.id :=
      fun inst hinst => Function.update_of_ne (hnew inst hinst).2.ne ..
    refine ⟨code ++ [⟨b'.next, opcode⟩], ?_, ?_,
      List.forall_mem_append.mpr ⟨hphi, List.forall_mem_singleton.mpr hopcode⟩, ?_⟩
    · exact (congrArg (· ++ _) hcode).trans (List.append_assoc ..)
    · rw [List.forall_mem_append, List.forall_mem_singleton]
      exact ⟨fun inst hinst =>
        ⟨(hnew inst hinst).1, (hnew inst hinst).2.trans (Nat.lt_succ_self _)⟩,
        h.next_le, Nat.lt_succ_self _⟩
    intro s env
    obtain ⟨env', hrun', hkept, hvalues⟩ := hrun s env
    have hnow := hargs env env' (hvalues env' fun _ _ => rfl)
    refine ⟨Function.update env' b'.next (x env), ?_, ?_, ?_⟩
    · rw [run_append, run_congr exec const hsame, hrun']
      change Instruction.step exec const _ (s, env') ⟨b'.next, opcode⟩ = _
      have hargs' : (b'.emit opcode args).2.operands b'.next = args := Function.update_self ..
      rw [Instruction.step]
      dsimp only
      rw [hargs', hnow, hexec]
    · intro id hid
      rw [Function.update_of_ne (hid.trans_le h.next_le).ne, hkept id hid]
    · intro later hlater
      rw [List.map_cons, hvalues later]
      · rw [Builder.emit, Operand.eval, hlater _ (Nat.lt_succ_self _), Function.update_self]
      · intro id hid
        rw [hlater id (Nat.lt_succ_of_lt hid), Function.update_of_ne hid.ne]

end Computes

end Builder

section Blocks

variable {C O : Type u} {S V : Type v} (isPhi : O → Bool) (exec : S → O → List V → S × V)
  (const : C → V) (operands : Nat → List (Operand C))

def phis (block : List (Instruction O)) : List (Instruction O) :=
  block.takeWhile fun inst => isPhi inst.opcode

def body (block : List (Instruction O)) : List (Instruction O) :=
  block.dropWhile fun inst => isPhi inst.opcode

/-- Phis only stand in front of the other instructions. -/
def Grouped (block : List (Instruction O)) : Prop :=
  ∀ inst ∈ body isPhi block, isPhi inst.opcode = false

/-- Phis have no effects, and all of them read their operands before one is set. -/
def runPhis (code : List (Instruction O)) (st : S × (Nat → V)) : S × (Nat → V) :=
  (st.1, code.foldl (fun env inst => Function.update env inst.id
    (exec st.1 inst.opcode ((operands inst.id).map (Operand.eval const st.2))).2) st.2)

def runBlock (st : S × (Nat → V)) (block : List (Instruction O)) : S × (Nat → V) :=
  run exec const operands (body isPhi block) (runPhis exec const operands (phis isPhi block) st)

/-- The memory holds what a phi has to know of the block that control comes from. -/
def runPath (blocks : List (List (Instruction O))) (path : List Nat) (st : S × (Nat → V)) :
    S × (Nat → V) :=
  path.foldl (fun st k => runBlock isPhi exec const operands st ((blocks[k]?).getD [])) st

variable {isPhi} {code code' : List (Instruction O)}

theorem phis_append (hcode : ∀ inst ∈ code, isPhi inst.opcode = true)
    (hcode' : ∀ inst ∈ code', isPhi inst.opcode = false) : phis isPhi (code ++ code') = code := by
  rw [phis, List.takeWhile_append_of_pos hcode]
  cases code' with
  | nil => exact List.append_nil code
  | cons inst code' => simp [hcode' inst List.mem_cons_self]

theorem body_append (hcode : ∀ inst ∈ code, isPhi inst.opcode = true)
    (hcode' : ∀ inst ∈ code', isPhi inst.opcode = false) : body isPhi (code ++ code') = code' := by
  rw [body, List.dropWhile_append_of_pos hcode]
  cases code' with
  | nil => rfl
  | cons inst code' => simp [hcode' inst List.mem_cons_self]

theorem phis_append_body (block : List (Instruction O)) :
    phis isPhi block ++ body isPhi block = block :=
  List.takeWhile_append_dropWhile

theorem isPhi_of_mem_phis {block : List (Instruction O)} {inst : Instruction O}
    (h : inst ∈ phis isPhi block) : isPhi inst.opcode = true :=
  List.mem_takeWhile_imp (p := fun inst : Instruction O => isPhi inst.opcode) h

end Blocks

/-- The memory and the values below the bound agree. -/
structure Agrees {S V : Type v} (bound : Nat) (st st' : S × (Nat → V)) : Prop where
  memory : st'.1 = st.1
  values : ∀ id < bound, st'.2 id = st.2 id

section Correct

variable {C O : Type u} {S V : Type v} {exec : S → O → List V → S × V} {const const' : C → V}
  {bound : Nat} {source target : Nat → List (Operand C)}

theorem Agrees.map_eval {st st' : S × (Nat → V)} (h : Agrees bound st st')
    {operands : List (Operand C)} (hbelow : ∀ id, .inst id ∈ operands → id < bound) :
    operands.map (Operand.eval const st'.2) = operands.map (Operand.eval const st.2) := by
  apply List.map_congr_left
  intro operand hoperand
  cases operand with
  | const c => rfl
  | inst id => exact h.values id (hbelow id hoperand)

/-- The other block does the same to what agrees. -/
def Follows (exec : S → O → List V → S × V) (const const' : C → V) (bound : Nat)
    (source target : Nat → List (Operand C)) (code code' : List (Instruction O)) : Prop :=
  ∀ st st', Agrees bound st st' →
    Agrees bound (run exec const' source code st) (run exec const target code' st')

theorem Follows.nil : Follows (O := O) exec const const' bound source target [] [] :=
  fun _ _ hst => hst

theorem Follows.append {code code' rest rest' : List (Instruction O)}
    (h : Follows exec const const' bound source target code code')
    (hrest : Follows exec const const' bound source target rest rest') :
    Follows exec const const' bound source target (code ++ rest) (code' ++ rest') := by
  intro st st' hst
  rw [run_append, run_append]
  exact hrest _ _ (h st st' hst)

theorem Follows.congr {target' : Nat → List (Operand C)} {code code' : List (Instruction O)}
    (h : Follows exec const const' bound source target code code')
    (hsame : ∀ inst ∈ code', target' inst.id = target inst.id) :
    Follows exec const const' bound source target' code code' := by
  intro st st' hst
  rw [run_congr exec const hsame]
  exact h st st' hst

/-- An instruction follows the old one behind code that computes what its operands were. -/
theorem Follows.of_computes {isPhi : O → Bool} {b b' : Builder C O} {inst : Instruction O}
    {frame : Nat → Prop}
    (hbound : bound ≤ b.next) (hbelow : ∀ id, .inst id ∈ source inst.id → id < bound)
    (h : b.Computes isPhi exec const frame b'
      (fun env => (source inst.id).map (Operand.eval const' env)) (b'.operands inst.id)) :
    ∃ code, b'.emitted = b.emitted ++ code ∧
      (∀ new ∈ code, b.next ≤ new.id ∧ new.id < b'.next) ∧
      (∀ new ∈ code, isPhi new.opcode = false) ∧
      Follows exec const const' bound source b'.operands [inst] (code ++ [inst]) := by
  obtain ⟨code, hcode, hnew, hphi, hrun⟩ := h.emits
  refine ⟨code, hcode, hnew, hphi, ?_⟩
  rintro ⟨s, env⟩ ⟨s₁, env₁⟩ ⟨hs, hvalues⟩
  obtain rfl : s₁ = s := hs
  obtain ⟨env₂, hrun₂, hkept, hread⟩ := hrun s₁ env₁
  have hagree : Agrees bound (s₁, env) (s₁, env₁) := ⟨rfl, hvalues⟩
  have hnow : (b'.operands inst.id).map (Operand.eval const env₂) =
      (source inst.id).map (Operand.eval const' env) :=
    (hread env₂ fun _ _ => rfl).trans (hagree.map_eval hbelow)
  rw [run_append, hrun₂]
  change Agrees bound (inst.step exec const' source (s₁, env))
    (inst.step exec const b'.operands (s₁, env₂))
  rw [Instruction.step, Instruction.step, hnow]
  refine ⟨rfl, fun id hid => ?_⟩
  dsimp only
  rcases eq_or_ne id inst.id with rfl | hne
  · rw [Function.update_self, Function.update_self]
  · rw [Function.update_of_ne hne, Function.update_of_ne hne, hkept id (hid.trans_le hbound)]
    exact hvalues id hid

/-- Phis that stay as they are do the same. -/
theorem Agrees.runPhis {st st' : S × (Nat → V)} (h : Agrees bound st st')
    {code : List (Instruction O)}
    (hsame : ∀ inst ∈ code, (target inst.id).map (Operand.eval const st'.2) =
      (source inst.id).map (Operand.eval const' st.2)) :
    Agrees bound (runPhis exec const' source code st) (runPhis exec const target code st') := by
  refine ⟨h.memory, ?_⟩
  suffices hfold : ∀ now now' : Nat → V, (∀ id < bound, now' id = now id) → ∀ id < bound,
      code.foldl (fun now inst => Function.update now inst.id
        (exec st'.1 inst.opcode ((target inst.id).map (Operand.eval const st'.2))).2) now' id =
      code.foldl (fun now inst => Function.update now inst.id
        (exec st.1 inst.opcode ((source inst.id).map (Operand.eval const' st.2))).2) now id from
    hfold st.2 st'.2 h.values
  induction code with
  | nil => exact fun _ _ hnow => hnow
  | cons inst code ih =>
    obtain ⟨hinst, hcode⟩ := List.forall_mem_cons.mp hsame
    intro now now' hnow
    refine ih hcode _ _ fun id hid => ?_
    dsimp only
    rw [hinst, h.memory]
    rcases eq_or_ne id inst.id with rfl | hne
    · rw [Function.update_self, Function.update_self]
    · rw [Function.update_of_ne hne, Function.update_of_ne hne, hnow id hid]

/-- The other block does the same, its phis at the start included, to what agrees. -/
def BlockFollows (isPhi : O → Bool) (exec : S → O → List V → S × V) (const const' : C → V)
    (bound : Nat) (source target : Nat → List (Operand C)) (block block' : List (Instruction O)) :
    Prop :=
  ∀ st st', Agrees bound st st' → Agrees bound (runBlock isPhi exec const' source st block)
    (runBlock isPhi exec const target st' block')

/-- On every path through the blocks, blocks that follow do the same. -/
theorem blockFollows_runPath {isPhi : O → Bool} {blocks blocks' : List (List (Instruction O))}
    (h : List.Forall₂ (BlockFollows isPhi exec const const' bound source target) blocks blocks')
    (path : List Nat) {st st' : S × (Nat → V)} (hst : Agrees bound st st') :
    Agrees bound (runPath isPhi exec const' source blocks path st)
      (runPath isPhi exec const target blocks' path st') := by
  induction path generalizing st st' with
  | nil => exact hst
  | cons k path ih =>
    obtain ⟨hsome, hsome'⟩ := forall₂_getElem? h k
    have hblock : Agrees bound (runBlock isPhi exec const' source st ((blocks[k]?).getD []))
        (runBlock isPhi exec const target st' ((blocks'[k]?).getD [])) := by
      cases hk : blocks[k]? with
      | some block =>
        obtain ⟨block', hblock', hfollows⟩ := hsome block hk
        rw [hblock']
        exact hfollows st st' hst
      | none =>
        cases hk' : blocks'[k]? with
        | none => exact hst
        | some block' =>
          obtain ⟨block, hblock, -⟩ := hsome' block' hk'
          cases hk.symm.trans hblock
    exact ih hblock

end Correct

end RhoFEM.Lib.Straightline
