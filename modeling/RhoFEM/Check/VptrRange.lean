import RhoFEM.Lib.Rotate

/-! The range check on a vtable pointer as `SDSubstModule` emits it, and the same
test as the run time library makes it. -/

namespace RhoFEM.Check

open RhoFEM.Lib.Rotate

/-- `floor(log(alignment + 0.5) / log(2))`. -/
def alignmentBits (alignment : BitVec 64) : Nat := Nat.log2 alignment.toNat

/-- The condition put in place of `sd_subst_check_range`. -/
def inRange (vptr start width alignment : BitVec 64) : Bool :=
  if width.toInt > 1 then
    let diff := vptr - start
    let diffShr := diff >>> alignmentBits alignment
    let diffShl := diff <<< (64 - alignmentBits alignment)
    let diffRor := diffShr ||| diffShl
    diffRor ≤ width
  else vptr == start

/-- The test of `vptr_safe`, on signed words. -/
def vptrSafe (vptr start size alignment : BitVec 64) : Bool :=
  start.toInt ≤ vptr.toInt && vptr.toInt < (start + size * alignment).toInt &&
    vptr.toInt.tmod alignment.toInt == 0

theorem alignmentBits_two_pow {a : Nat} (ha : a < 64) :
    alignmentBits (BitVec.ofNat 64 (2 ^ a)) = a := by
  have hlt : 2 ^ a < 2 ^ 64 := Nat.pow_lt_pow_right (by omega) ha
  rw [alignmentBits, BitVec.toNat_ofNat, Nat.mod_eq_of_lt hlt, Nat.log2_two_pow]

/-- The source takes the logarithm of a real number. -/
theorem alignmentBits_eq_floor {a : Nat} (ha : a < 64) :
    (alignmentBits (BitVec.ofNat 64 (2 ^ a)) : Int) =
      ⌊Real.log ((2 : ℝ) ^ a + 0.5) / Real.log 2⌋ := by
  have hlog : 0 < Real.log 2 := Real.log_pos (by norm_num)
  have hone : (1 : ℝ) ≤ 2 ^ a := one_le_pow₀ (by norm_num)
  rw [alignmentBits_two_pow ha, eq_comm, Int.floor_eq_iff]
  constructor
  · rw [le_div_iff₀ hlog]
    calc ((a : Int) : ℝ) * Real.log 2 = Real.log (2 ^ a) := by simp [Real.log_pow]
      _ ≤ Real.log (2 ^ a + 0.5) := Real.log_le_log (by positivity) (by norm_num)
  · rw [div_lt_iff₀ hlog]
    calc Real.log (2 ^ a + 0.5) < Real.log (2 ^ (a + 1)) := by
          refine Real.log_lt_log (by positivity) ?_
          rw [pow_succ]
          linarith
      _ = ((a : Int) + 1) * Real.log 2 := by rw [Real.log_pow]; push_cast; ring

/-- The addresses that a range of width `w` stands for. -/
def Listed (vptr start : BitVec 64) (w a : Nat) : Prop :=
  ∃ i < w, vptr = start + BitVec.ofNat 64 (i * 2 ^ a)

theorem width_toInt {w a : Nat} (ha : 3 ≤ a) (hwa : w * 2 ^ a < 2 ^ 64) :
    (BitVec.ofNat 64 w).toInt = w := by
  have hpow : 2 ^ 3 ≤ 2 ^ a := Nat.pow_le_pow_right (by omega) ha
  have hw : w < 2 ^ 61 := by nlinarith
  have hnat : (BitVec.ofNat 64 w).toNat = w := Nat.mod_eq_of_lt (by omega)
  rw [BitVec.toInt_eq_toNat_of_lt (by omega), hnat]

/-- The emitted check lets one address more than the range pass. -/
theorem inRange_iff {vptr start : BitVec 64} {w a : Nat} (ha : 3 ≤ a) (ha' : a < 64) (hw : 1 ≤ w)
    (hwa : w * 2 ^ a < 2 ^ 64) :
    inRange vptr start (BitVec.ofNat 64 w) (BitVec.ofNat 64 (2 ^ a)) = true ↔
      Listed vptr start w a ∨ (1 < w ∧ vptr = start + BitVec.ofNat 64 (w * 2 ^ a)) := by
  rw [inRange, width_toInt ha hwa, alignmentBits_two_pow ha']
  by_cases hone : 1 < w
  · have hcast : ((w : Int) > 1) := by omega
    have hsmall : w < 2 ^ (64 - a) := by
      have : 2 ^ 64 = 2 ^ (64 - a) * 2 ^ a := by rw [← Nat.pow_add]; congr 1; omega
      rw [this] at hwa
      exact Nat.lt_of_mul_lt_mul_right hwa
    have hwidth : (BitVec.ofNat 64 w).toNat = w :=
      Nat.mod_eq_of_lt (hsmall.trans_le (Nat.pow_le_pow_right (by omega) (by omega)))
    have hrot := rotate_le_iff (vptr - start) a (by omega) hsmall
    simp only [hcast, if_true, BitVec.le_def, decide_eq_true_eq, hwidth, hone, true_and]
    rw [← rotate, hrot]
    have hstep : ∀ i ≤ w, ((vptr - start).toNat = i * 2 ^ a ↔
        vptr = start + BitVec.ofNat 64 (i * 2 ^ a)) := fun i hi =>
      sub_toNat_eq_iff vptr start ((Nat.mul_le_mul_right _ hi).trans_lt hwa)
    constructor
    · rintro ⟨i, hi, heq⟩
      rcases hi.lt_or_eq with hlt | rfl
      · exact .inl ⟨i, hlt, (hstep i hi).mp heq⟩
      · exact .inr ((hstep i hi).mp heq)
    · rintro (⟨i, hi, heq⟩ | heq)
      · exact ⟨i, hi.le, (hstep i hi.le).mpr heq⟩
      · exact ⟨w, le_rfl, (hstep w le_rfl).mpr heq⟩
  · obtain rfl : w = 1 := by omega
    simp [Listed]

theorem boundary_not_listed {vptr start : BitVec 64} {w a : Nat} (hwa : w * 2 ^ a < 2 ^ 64)
    (h : vptr = start + BitVec.ofNat 64 (w * 2 ^ a)) : ¬ Listed vptr start w a := by
  rintro ⟨i, hi, heq⟩
  have hlt : i * 2 ^ a < w * 2 ^ a := Nat.mul_lt_mul_of_pos_right hi (Nat.two_pow_pos a)
  have hw := (sub_toNat_eq_iff vptr start hwa).mpr h
  have hi' := (sub_toNat_eq_iff vptr start (hlt.trans hwa)).mpr heq
  omega

/-- Adding to an address that is read as a signed word wraps at most once. -/
theorem toInt_add_ofNat (start : BitVec 64) {k : Nat} (hk : k < 2 ^ 64) :
    (start + BitVec.ofNat 64 k).toInt =
      if start.toInt + k < 2 ^ 63 then start.toInt + k else start.toInt + k - 2 ^ 64 := by
  have hs := start.isLt
  have hmod : k % 2 ^ 64 = k := Nat.mod_eq_of_lt hk
  simp only [BitVec.toInt_eq_toNat_cond, BitVec.toNat_add, BitVec.toNat_ofNat, hmod]
  split <;> split <;> split <;> omega

theorem dvd_toInt_iff (x : BitVec 64) {a : Nat} (ha : a < 64) :
    ((2 ^ a : Nat) : Int) ∣ x.toInt ↔ 2 ^ a ∣ x.toNat := by
  have hpow : ((2 ^ a : Nat) : Int) ∣ 2 ^ 64 := by
    exact_mod_cast Nat.pow_dvd_pow 2 ha.le
  rw [BitVec.toInt_eq_toNat_cond]
  split
  · exact Int.natCast_dvd_natCast
  · rw [show ((2 ^ 64 : Nat) : Int) = 2 ^ 64 by norm_num, dvd_sub_left hpow]
    exact Int.natCast_dvd_natCast

theorem tmod_alignment_iff (x : BitVec 64) {a : Nat} (ha : a < 64) :
    x.toInt.tmod (BitVec.ofNat 64 (2 ^ a)).toInt = 0 ↔ 2 ^ a ∣ x.toNat := by
  have hnat : (BitVec.ofNat 64 (2 ^ a)).toNat = 2 ^ a :=
    Nat.mod_eq_of_lt (Nat.pow_lt_pow_right (by omega) ha)
  rw [← dvd_toInt_iff x ha, ← Int.dvd_iff_tmod_eq_zero]
  rcases (show a < 63 ∨ a = 63 by omega) with hlt | rfl
  · have hpow : 2 ^ a < 2 ^ 63 := Nat.pow_lt_pow_right (by omega) hlt
    rw [BitVec.toInt_eq_toNat_of_lt (by omega), hnat]
  · -- the largest alignment is negative as a signed word
    rw [show (BitVec.ofNat 64 (2 ^ 63)).toInt = -((2 ^ 63 : Nat) : Int) by decide, neg_dvd]

theorem vptrSafe_iff {vptr start : BitVec 64} {w a : Nat} (ha : a < 64)
    (hwa : w * 2 ^ a < 2 ^ 64) (hstart : 2 ^ a ∣ start.toNat) :
    vptrSafe vptr start (BitVec.ofNat 64 w) (BitVec.ofNat 64 (2 ^ a)) = true ↔
      Listed vptr start w a ∧ start.toInt + (w * 2 ^ a : Nat) < 2 ^ 63 := by
  have hend : BitVec.ofNat 64 w * BitVec.ofNat 64 (2 ^ a) = BitVec.ofNat 64 (w * 2 ^ a) :=
    (BitVec.ofNat_mul w (2 ^ a)).symm
  have hlow : -2 ^ 63 ≤ start.toInt := by simpa using BitVec.le_toInt start
  simp only [vptrSafe, Bool.and_eq_true, decide_eq_true_eq, beq_iff_eq, tmod_alignment_iff vptr ha,
    hend, toInt_add_ofNat start hwa]
  constructor
  · rintro ⟨⟨hle, hlt⟩, hdvd⟩
    split at hlt
    · rename_i hfits
      refine ⟨?_, hfits⟩
      have hdiff : ((2 ^ a : Nat) : Int) ∣ vptr.toInt - start.toInt :=
        dvd_sub ((dvd_toInt_iff vptr ha).mpr hdvd) ((dvd_toInt_iff start ha).mpr hstart)
      obtain ⟨i, hi⟩ := (Int.eq_ofNat_of_zero_le (show 0 ≤ vptr.toInt - start.toInt by omega))
      rw [hi, Int.natCast_dvd_natCast] at hdiff
      obtain ⟨j, rfl⟩ := hdiff
      rw [Nat.mul_comm] at hi
      have hj : j * 2 ^ a < w * 2 ^ a := by omega
      refine ⟨j, Nat.lt_of_mul_lt_mul_right hj, BitVec.eq_of_toInt_eq ?_⟩
      rw [toInt_add_ofNat start (hj.trans hwa), if_pos (by omega)]
      omega
    · omega
  · rintro ⟨⟨i, hi, rfl⟩, hfits⟩
    have hlt : i * 2 ^ a < w * 2 ^ a := Nat.mul_lt_mul_of_pos_right hi (Nat.two_pow_pos a)
    rw [toInt_add_ofNat start (hlt.trans hwa), if_pos (by omega), if_pos hfits]
    refine ⟨⟨by omega, by omega⟩, ?_⟩
    rw [← dvd_toInt_iff _ ha, toInt_add_ofNat start (hlt.trans hwa), if_pos (by omega)]
    exact dvd_add ((dvd_toInt_iff start ha).mpr hstart) (by simp)

theorem inRange_exact_iff (vptr start : BitVec 64) (w a : Nat) (ha : 3 ≤ a) (ha' : a < 64)
    (hw : 1 ≤ w) (hwa : w * 2 ^ a < 2 ^ 64) :
    ((inRange vptr start (BitVec.ofNat 64 w) (BitVec.ofNat 64 (2 ^ a)) = true ↔
          Listed vptr start w a) ∧
        (2 ^ a ∣ start.toNat →
          (inRange vptr start (BitVec.ofNat 64 w) (BitVec.ofNat 64 (2 ^ a)) = true ↔
            vptrSafe vptr start (BitVec.ofNat 64 w) (BitVec.ofNat 64 (2 ^ a)) = true))) ↔
      (w = 1 ∨ vptr ≠ start + BitVec.ofNat 64 (w * 2 ^ a)) ∧
        ¬ (2 ^ a ∣ start.toNat ∧ Listed vptr start w a ∧
          2 ^ 63 ≤ start.toInt + (w * 2 ^ a : Nat)) := by
  have hboundary : vptr = start + BitVec.ofNat 64 (w * 2 ^ a) → ¬ Listed vptr start w a :=
    boundary_not_listed hwa
  rw [inRange_iff ha ha' hw hwa]
  constructor
  · rintro ⟨hexact, hsafe⟩
    refine ⟨?_, ?_⟩
    · by_contra hno
      obtain ⟨hw1, hv⟩ : w ≠ 1 ∧ vptr = start + BitVec.ofNat 64 (w * 2 ^ a) := by
        simpa using hno
      exact hboundary hv (hexact.mp (.inr ⟨by omega, hv⟩))
    · rintro ⟨hdvd, hlisted, hover⟩
      have := (hsafe hdvd).mp (.inl hlisted)
      rw [vptrSafe_iff ha' hwa hdvd] at this
      omega
  · rintro ⟨hno, hover⟩
    have hexact : Listed vptr start w a ∨ (1 < w ∧ vptr = start + BitVec.ofNat 64 (w * 2 ^ a)) ↔
        Listed vptr start w a := by
      refine or_iff_left ?_
      rintro ⟨hw1, hv⟩
      exact hno.elim (by omega) (fun hne => hne hv)
    refine ⟨hexact, fun hdvd => ?_⟩
    rw [hexact, vptrSafe_iff ha' hwa hdvd]
    refine (and_iff_left_of_imp fun hlisted => ?_).symm
    by_contra hle
    exact hover ⟨hdvd, hlisted, by omega⟩

theorem inRange_exact_iff_first :
    inRange 0x1008 0x1000 2 8 = true ∧ vptrSafe 0x1008 0x1000 2 8 = true := by
  have h := (inRange_exact_iff 0x1008 0x1000 2 3 (by decide) (by decide) (by decide)
    (by decide)).mpr ⟨.inr (by decide), fun ⟨_, _, hover⟩ => absurd hover (by decide)⟩
  have hin := h.1.mpr ⟨1, by decide, by decide⟩
  exact ⟨hin, (h.2 (by decide)).mp hin⟩

/-- The address behind a range of two is let pass. -/
theorem inRange_admits_boundary :
    inRange 0x1010 0x1000 2 8 = true ∧ ¬ Listed 0x1010 0x1000 2 3 ∧
      vptrSafe 0x1010 0x1000 2 8 = false := by
  refine ⟨by decide, ?_, by decide⟩
  rintro ⟨i, hi, heq⟩
  obtain rfl | rfl : i = 0 ∨ i = 1 := by omega
  · exact absurd heq (by decide)
  · exact absurd heq (by decide)

end RhoFEM.Check
