import RhoFEM.Check.VptrRange

/-! The check that `SDSubstModule` makes itself, when the vtable pointer is built from
addresses of globals: its expressions, what they are at run time, and the range they are
compared with. -/

namespace RhoFEM.Check

open RhoFEM.Lib.Rotate

/-- The values that the check looks into; `condition` and `index` number the others. -/
inductive Value
  | globalVariable (name : String)
  | gep (pointer : Value) (offset : BitVec 64)
  | gepVariable (pointer : Value) (index : Nat)
  | bitCast (operand : Value)
  | select (condition : Nat) (trueValue falseValue : Value)
  | unknown (index : Nat)
  deriving DecidableEq

/-- What an execution gives the values that the module does not fix. -/
structure Execution where
  address : String → BitVec 64
  condition : Nat → Bool
  word : Nat → BitVec 64

namespace Value

def eval (run : Execution) : Value → BitVec 64
  | globalVariable name => run.address name
  | gep pointer offset => pointer.eval run + offset
  | gepVariable pointer index => pointer.eval run + run.word index
  | bitCast operand => operand.eval run
  | select condition trueValue falseValue =>
    if run.condition condition then trueValue.eval run else falseValue.eval run
  | unknown index => run.word index

def validConstVptr (rootVtbl : String) (start width : BitVec 64) : Value → BitVec 64 → Bool
  | globalVariable name, off =>
    if name ≠ rootVtbl then false
    else if off % 8 ≠ 0 then false
    else start ≤ off && off < start + width * 8
  | gep pointer offset, off => validConstVptr rootVtbl start width pointer (off + offset)
  | gepVariable _ _, _ => false
  | bitCast operand, off => validConstVptr rootVtbl start width operand off
  | select _ trueValue falseValue, off =>
    validConstVptr rootVtbl start width trueValue off &&
      validConstVptr rootVtbl start width falseValue off
  | unknown _, _ => false

/-- The globals at the ends of an expression, each with the sum of the offsets on the way. -/
def leaves : Value → BitVec 64 → List (Option (String × BitVec 64))
  | globalVariable name, off => [some (name, off)]
  | gep pointer offset, off => pointer.leaves (off + offset)
  | gepVariable _ _, _ => [none]
  | bitCast operand, off => operand.leaves off
  | select _ trueValue falseValue, off => trueValue.leaves off ++ falseValue.leaves off
  | unknown _, _ => [none]

/-- The end that the conditions of an execution lead to. -/
def selected (condition : Nat → Bool) : Value → BitVec 64 → Option (String × BitVec 64)
  | globalVariable name, off => some (name, off)
  | gep pointer offset, off => pointer.selected condition (off + offset)
  | gepVariable _ _, _ => none
  | bitCast operand, off => operand.selected condition off
  | select index trueValue falseValue, off =>
    if condition index then trueValue.selected condition off
    else falseValue.selected condition off
  | unknown _, _ => none

theorem selected_mem_leaves (condition : Nat → Bool) (V : Value) (off : BitVec 64) :
    V.selected condition off ∈ V.leaves off := by
  induction V generalizing off with
  | globalVariable name => exact List.mem_singleton_self _
  | gep pointer offset ih => exact ih (off + offset)
  | gepVariable pointer index ih => exact List.mem_singleton_self _
  | bitCast operand ih => exact ih off
  | select index trueValue falseValue iht ihf =>
    rw [selected, leaves, List.mem_append]
    split
    · exact .inl (iht off)
    · exact .inr (ihf off)
  | unknown index => exact List.mem_singleton_self _

theorem eval_add_of_selected (run : Execution) {V : Value} {off : BitVec 64} {name : String}
    {total : BitVec 64} (h : V.selected run.condition off = some (name, total)) :
    V.eval run + off = run.address name + total := by
  induction V generalizing off with
  | globalVariable g =>
    obtain ⟨rfl, rfl⟩ := Prod.mk.inj (Option.some.inj h)
    rfl
  | gep pointer offset ih => rw [eval, BitVec.add_assoc, BitVec.add_comm offset, ih h]
  | gepVariable pointer index ih => cases h
  | bitCast operand ih => exact ih h
  | select index trueValue falseValue iht ihf =>
    rw [selected] at h
    rw [eval]
    split at h <;> rename_i hcondition
    · rw [if_pos hcondition]
      exact iht h
    · rw [if_neg hcondition]
      exact ihf h
  | unknown index => cases h

end Value

section Window

variable (start width : BitVec 64)

/-- The offsets that are let pass: words of the range, if they were next to each other. -/
def InWindow (off : BitVec 64) : Prop := off % 8 = 0 ∧ start ≤ off ∧ off < start + width * 8

instance (off : BitVec 64) : Decidable (InWindow start width off) :=
  inferInstanceAs (Decidable (_ ∧ _ ∧ _))

/-- An end of an expression lies in the window of a global. -/
def LeafValid (rootVtbl : String) (leaf : Option (String × BitVec 64)) : Prop :=
  ∃ off, leaf = some (rootVtbl, off) ∧ InWindow start width off

variable {start width}

theorem Value.validConstVptr_iff {rootVtbl : String} (V : Value) (off : BitVec 64) :
    V.validConstVptr rootVtbl start width off = true ↔
      ∀ leaf ∈ V.leaves off, LeafValid start width rootVtbl leaf := by
  have hnone : ¬ LeafValid start width rootVtbl none := by
    rintro ⟨_, h, -⟩
    cases h
  induction V generalizing off with
  | globalVariable name =>
    rw [validConstVptr, leaves, List.forall_mem_singleton]
    by_cases hname : name = rootVtbl
    · subst hname
      rw [if_neg (not_not_intro rfl)]
      simp [LeafValid, InWindow]
    · rw [if_pos hname]
      simp [LeafValid, hname]
  | gep pointer offset ih => exact ih (off + offset)
  | gepVariable pointer index ih => simp [validConstVptr, leaves, hnone]
  | bitCast operand ih => exact ih off
  | select index trueValue falseValue iht ihf =>
    rw [validConstVptr, leaves, Bool.and_eq_true, List.forall_mem_append]
    exact and_congr (iht off) (ihf off)
  | unknown index => simp [validConstVptr, leaves, hnone]

/-- In the window the distance from the start is a number of words less than the width. -/
theorem InWindow.distance {off : BitVec 64} (h : InWindow start width off)
    (hstart : 8 ∣ start.toNat) : ∃ i < width.toNat, (off - start).toNat = i * 8 := by
  obtain ⟨hmod, hle, hlt⟩ := h
  have hoff : off.toNat % 8 = 0 := by simpa using congrArg BitVec.toNat hmod
  have hle' : start.toNat ≤ off.toNat := hle
  have hlt' : off.toNat < (start + width * 8).toNat := hlt
  have hend : (start + width * 8).toNat ≤ start.toNat + width.toNat * 8 := by
    rw [BitVec.toNat_add, BitVec.toNat_mul]
    calc (start.toNat + width.toNat * 8 % 2 ^ 64) % 2 ^ 64
        ≤ start.toNat + width.toNat * 8 % 2 ^ 64 := Nat.mod_le _ _
      _ ≤ start.toNat + width.toNat * 8 := Nat.add_le_add_left (Nat.mod_le _ _) _
  have hsub : (off - start).toNat = off.toNat - start.toNat := BitVec.toNat_sub_of_le hle
  refine ⟨(off.toNat - start.toNat) / 8, by omega, by omega⟩

end Window

/-- Where a pointer is in the window, the check that would be emitted asks for its distance from
the start to be a multiple of the alignment. -/
theorem inRange_of_window {base start off : BitVec 64} {w a : Nat} (ha : 3 ≤ a) (ha' : a < 64)
    (hwa : w * 2 ^ a < 2 ^ 64) (hstart : 8 ∣ start.toNat)
    (h : InWindow start (BitVec.ofNat 64 w) off) :
    inRange (base + off) (base + start) (BitVec.ofNat 64 w) (BitVec.ofNat 64 (2 ^ a)) = true ↔
      2 ^ a ∣ (off - start).toNat := by
  have hw : (BitVec.ofNat 64 w).toNat = w :=
    Nat.mod_eq_of_lt ((Nat.le_mul_of_pos_right w (Nat.two_pow_pos a)).trans_lt hwa)
  obtain ⟨i, hi, hd⟩ := h.distance hstart
  rw [hw] at hi
  have hdiff : base + off - (base + start) = off - start := add_sub_add_left_eq_sub off start base
  have hstep : ∀ k, k * 2 ^ a < 2 ^ 64 → ((off - start).toNat = k * 2 ^ a ↔
      base + off = base + start + BitVec.ofNat 64 (k * 2 ^ a)) := by
    intro k hk
    rw [← hdiff]
    exact sub_toNat_eq_iff _ _ hk
  have hpow : 8 ≤ 2 ^ a := Nat.pow_le_pow_right (n := 2) Nat.two_pos ha
  have hbelow : (off - start).toNat < w * 2 ^ a := by
    rw [hd]
    exact (Nat.mul_lt_mul_of_pos_right hi (by omega)).trans_le (Nat.mul_le_mul_left w hpow)
  rw [inRange_iff ha ha' (Nat.zero_lt_of_lt hi) hwa]
  constructor
  · rintro (⟨k, hk, heq⟩ | ⟨-, heq⟩)
    · rw [(hstep k ((Nat.mul_le_mul_right _ hk.le).trans_lt hwa)).mpr heq]
      exact Nat.dvd_mul_left ..
    · have := (hstep w hwa).mpr heq
      omega
  · rintro ⟨k, hk⟩
    rw [Nat.mul_comm] at hk
    have hkw : k < w := by
      rw [hk] at hbelow
      exact Nat.lt_of_mul_lt_mul_right hbelow
    exact .inl ⟨k, hkw, (hstep k (hk ▸ hbelow.trans hwa)).mp hk⟩

/-- The alignment is one word, or some end is outside the window, or the distances from the start
of all ends that are reached are multiples of the alignment. -/
def FoldsSoundly (rootVtbl : String) (start width : BitVec 64) (alignment : Nat) (V : Value) :
    Prop :=
  width.toNat ≤ 1 ∨ alignment = 8 ∨
    (∃ leaf ∈ V.leaves 0, ¬ LeafValid start width rootVtbl leaf) ∨
    ∀ condition name off, V.selected condition 0 = some (name, off) →
      alignment ∣ (off - start).toNat

theorem validConstVptr_sound_iff (rootVtbl : String) {start : BitVec 64} {w a : Nat} (ha : 3 ≤ a)
    (ha' : a < 64) (hwa : w * 2 ^ a < 2 ^ 64) (hstart : 8 ∣ start.toNat) (V : Value) :
    (V.validConstVptr rootVtbl start (BitVec.ofNat 64 w) 0 = true → ∀ run : Execution,
      inRange (V.eval run) (run.address rootVtbl + start) (BitVec.ofNat 64 w)
        (BitVec.ofNat 64 (2 ^ a)) = true) ↔
      FoldsSoundly rootVtbl start (BitVec.ofNat 64 w) (2 ^ a) V := by
  have hw : (BitVec.ofNat 64 w).toNat = w :=
    Nat.mod_eq_of_lt ((Nat.le_mul_of_pos_right w (Nat.two_pow_pos a)).trans_lt hwa)
  rw [V.validConstVptr_iff]
  by_cases hvalid : ∀ leaf ∈ V.leaves 0, LeafValid start (BitVec.ofNat 64 w) rootVtbl leaf
  · -- every execution reaches an end in the window
    have hreached : ∀ run : Execution, ∃ off, V.selected run.condition 0 = some (rootVtbl, off) ∧
        InWindow start (BitVec.ofNat 64 w) off :=
      fun run => hvalid _ (V.selected_mem_leaves run.condition 0)
    have hrange : ∀ (run : Execution) (off : BitVec 64),
        V.selected run.condition 0 = some (rootVtbl, off) → (inRange (V.eval run)
          (run.address rootVtbl + start) (BitVec.ofNat 64 w) (BitVec.ofNat 64 (2 ^ a)) = true ↔
            2 ^ a ∣ (off - start).toNat) := by
      intro run off hoff
      obtain ⟨off', hoff', hwindow⟩ := hreached run
      obtain rfl : off = off' := by
        rw [hoff'] at hoff
        exact (Prod.mk.inj (Option.some.inj hoff)).2.symm
      have heval : V.eval run + 0 = run.address rootVtbl + off :=
        Value.eval_add_of_selected run hoff
      rw [add_zero] at heval
      rw [heval]
      exact inRange_of_window ha ha' hwa hstart hwindow
    rw [forall_prop_of_true hvalid]
    constructor
    · intro hall
      refine .inr (.inr (.inr ?_))
      intro condition name off hoff
      obtain ⟨off', hoff', -⟩ := hreached ⟨fun _ => 0, condition, fun _ => 0⟩
      have hsame : some (name, off) = some (rootVtbl, off') := hoff.symm.trans hoff'
      rw [(Prod.mk.inj (Option.some.inj hsame)).2]
      exact (hrange _ off' hoff').mp (hall _)
    · intro hsound run
      obtain ⟨off, hoff, hwindow⟩ := hreached run
      obtain ⟨i, hi, hd⟩ := hwindow.distance hstart
      rw [hrange run off hoff]
      rcases hsound with hone | halign | ⟨leaf, hleaf, hnot⟩ | hdvd
      · obtain rfl : i = 0 := by omega
        rw [hd, Nat.zero_mul]
        exact Nat.dvd_zero _
      · rw [halign, hd]
        exact Nat.dvd_mul_left ..
      · exact absurd (hvalid leaf hleaf) hnot
      · exact hdvd run.condition rootVtbl off hoff
  · push Not at hvalid
    obtain ⟨leaf, hleaf, hnot⟩ := hvalid
    constructor
    · exact fun _ => .inr (.inr (.inl ⟨leaf, hleaf, hnot⟩))
    · exact fun _ hall => absurd (hall leaf hleaf) hnot

end RhoFEM.Check
