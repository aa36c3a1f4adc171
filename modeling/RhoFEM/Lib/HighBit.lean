import Mathlib

/-! Copying the highest bit of a word downwards gives a number of one bits only. -/

namespace RhoFEM.Lib.HighBit

def copyDown (n distance : Nat) : Nat := n ||| (n >>> distance)

/-- The bits of `m` are those of `n`, each copied to the places at most `distance` below. -/
def CopiedDown (n distance m : Nat) : Prop :=
  ∀ i, m.testBit i = true ↔ ∃ k < distance, n.testBit (i + k) = true

theorem CopiedDown.start (n : Nat) : CopiedDown n 1 n := by
  intro i
  constructor
  · exact fun h => ⟨0, Nat.one_pos, h⟩
  · rintro ⟨k, hk, h⟩
    rwa [Nat.lt_one_iff.mp hk] at h

theorem CopiedDown.double {n m : Nat} (distance : Nat) (h : CopiedDown n distance m) :
    CopiedDown n (distance + distance) (copyDown m distance) := by
  intro i
  rw [copyDown, Nat.testBit_or, Nat.testBit_shiftRight, Bool.or_eq_true, h i, h (distance + i)]
  constructor
  · rintro (⟨k, hk, hbit⟩ | ⟨k, hk, hbit⟩)
    · exact ⟨k, Nat.lt_add_right _ hk, hbit⟩
    · exact ⟨distance + k, Nat.add_lt_add_left hk _, by rwa [← Nat.add_assoc, Nat.add_comm i]⟩
  · rintro ⟨k, hk, hbit⟩
    rcases Nat.lt_or_ge k distance with hlt | hge
    · exact .inl ⟨k, hlt, hbit⟩
    · refine .inr ⟨k - distance, by omega, ?_⟩
      rwa [show distance + i + (k - distance) = i + k by omega]

theorem CopiedDown.eq_two_pow {n m distance : Nat} (h : CopiedDown n distance m) (hn : 0 < n)
    (hlt : n < 2 ^ distance) : m = 2 ^ (Nat.log2 n + 1) - 1 := by
  have hlow : n < 2 ^ (Nat.log2 n + 1) := Nat.lt_log2_self
  have hbit : n.testBit (Nat.log2 n) = true := Nat.testBit_log2 hn.ne'
  have hlog : Nat.log2 n < distance := (Nat.log2_lt hn.ne').mpr hlt
  apply Nat.eq_of_testBit_eq
  intro i
  rw [Bool.eq_iff_iff, h i, Nat.testBit_two_pow_sub_one, decide_eq_true_eq]
  constructor
  · rintro ⟨k, -, hk⟩
    by_contra hge
    have hpow : n < 2 ^ (i + k) := hlow.trans_le (Nat.pow_le_pow_right Nat.two_pos (by omega))
    rw [Nat.testBit_lt_two_pow hpow] at hk
    cases hk
  · intro hi
    exact ⟨Nat.log2 n - i, by omega, by rwa [Nat.add_sub_cancel' (Nat.le_of_lt_succ hi)]⟩

/-- Six doublings fill a word of 64 bits. -/
def fill (n : Nat) : Nat :=
  copyDown (copyDown (copyDown (copyDown (copyDown (copyDown n 1) 2) 4) 8) 16) 32

theorem le_copyDown (n distance : Nat) : n ≤ copyDown n distance := Nat.left_le_or

theorem le_fill (n : Nat) : n ≤ fill n :=
  calc n ≤ copyDown n 1 := le_copyDown n 1
    _ ≤ copyDown (copyDown n 1) 2 := le_copyDown _ 2
    _ ≤ copyDown (copyDown (copyDown n 1) 2) 4 := le_copyDown _ 4
    _ ≤ copyDown (copyDown (copyDown (copyDown n 1) 2) 4) 8 := le_copyDown _ 8
    _ ≤ copyDown (copyDown (copyDown (copyDown (copyDown n 1) 2) 4) 8) 16 := le_copyDown _ 16
    _ ≤ fill n := le_copyDown _ 32

theorem fill_add_one {n : Nat} (hlt : n < 2 ^ 64) : ∃ b, fill n + 1 = 2 ^ b ∧ n < 2 ^ b := by
  have h : CopiedDown n 64 (fill n) :=
    (CopiedDown.start n).double 1 |>.double 2 |>.double 4 |>.double 8 |>.double 16 |>.double 32
  rcases Nat.eq_zero_or_pos n with rfl | hn
  · exact ⟨0, rfl, Nat.one_pos⟩
  · refine ⟨Nat.log2 n + 1, ?_, Nat.lt_log2_self⟩
    rw [h.eq_two_pow hn hlt]
    exact Nat.sub_add_cancel (Nat.one_le_two_pow)

end RhoFEM.Lib.HighBit
