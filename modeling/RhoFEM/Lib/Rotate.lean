import Mathlib

/-! A rotation to the right followed by one unsigned comparison tests at once
that a difference is a multiple of a power of two and that it is small. -/

namespace RhoFEM.Lib.Rotate

variable {n : Nat}

def rotate (d : BitVec n) (bits : Nat) : BitVec n := (d >>> bits) ||| (d <<< (n - bits))

/-- The low bits move above the quotient. -/
theorem rotate_toNat (d : BitVec n) {bits : Nat} (h : bits ≤ n) :
    (rotate d bits).toNat = d.toNat % 2 ^ bits * 2 ^ (n - bits) + d.toNat / 2 ^ bits := by
  have hpow : 2 ^ n = 2 ^ bits * 2 ^ (n - bits) := by rw [← Nat.pow_add]; congr 1; omega
  have hquot : d.toNat / 2 ^ bits < 2 ^ (n - bits) := by
    rw [Nat.div_lt_iff_lt_mul (Nat.two_pow_pos bits), Nat.mul_comm, ← hpow]
    exact d.isLt
  have hlow : d.toNat * 2 ^ (n - bits) % 2 ^ n = 2 ^ (n - bits) * (d.toNat % 2 ^ bits) := by
    rw [hpow, Nat.mul_mod_mul_right, Nat.mul_comm]
  rw [rotate, BitVec.toNat_or, BitVec.toNat_ushiftRight, BitVec.toNat_shiftLeft,
    Nat.shiftRight_eq_div_pow, Nat.shiftLeft_eq, hlow, Nat.or_comm,
    ← Nat.two_pow_add_eq_or_of_lt hquot, Nat.mul_comm]

/-- The unsigned comparison after the rotation. -/
theorem rotate_le_iff (d : BitVec n) (bits : Nat) {w : Nat} (h : bits ≤ n)
    (hw : w < 2 ^ (n - bits)) :
    (rotate d bits).toNat ≤ w ↔ ∃ i ≤ w, d.toNat = i * 2 ^ bits := by
  rw [rotate_toNat d h]
  constructor
  · intro hle
    have hmod : d.toNat % 2 ^ bits = 0 := by
      by_contra hne
      have hlow : 2 ^ (n - bits) ≤ d.toNat % 2 ^ bits * 2 ^ (n - bits) :=
        Nat.le_mul_of_pos_left _ (Nat.pos_of_ne_zero hne)
      exact absurd ((Nat.le_add_right _ _).trans hle) (Nat.not_le.mpr (hw.trans_le hlow))
    refine ⟨d.toNat / 2 ^ bits, ?_, (Nat.div_mul_cancel (Nat.dvd_of_mod_eq_zero hmod)).symm⟩
    simpa [hmod] using hle
  · rintro ⟨i, hi, hd⟩
    rw [hd, Nat.mul_mod_left, Nat.mul_div_cancel _ (Nat.two_pow_pos bits)]
    simpa using hi

/-- The difference of two addresses is `i` steps exactly when the first is `i`
steps after the second. -/
theorem sub_toNat_eq_iff (x start : BitVec n) {k : Nat} (hk : k < 2 ^ n) :
    (x - start).toNat = k ↔ x = start + BitVec.ofNat n k := by
  constructor
  · intro h
    have hd : x - start = BitVec.ofNat n k := by
      rw [← h, BitVec.ofNat_toNat, BitVec.setWidth_eq]
    rw [← hd, BitVec.add_comm, BitVec.sub_add_cancel]
  · rintro rfl
    rw [BitVec.add_comm, BitVec.add_sub_cancel, BitVec.toNat_ofNat, Nat.mod_eq_of_lt hk]

end RhoFEM.Lib.Rotate
