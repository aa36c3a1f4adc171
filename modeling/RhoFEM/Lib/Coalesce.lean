import Mathlib

/-! Half-open ranges of numbers: sorting and merging them, and the marked elements
of a list that they cut out. -/

universe u

namespace RhoFEM.Lib.Coalesce

abbrev Range := Nat × Nat

def Covers (ranges : List Range) (i : Nat) : Prop := ∃ r ∈ ranges, r.1 ≤ i ∧ i < r.2

@[simp] theorem covers_cons (r : Range) (ranges : List Range) (i : Nat) :
    Covers (r :: ranges) i ↔ (r.1 ≤ i ∧ i < r.2) ∨ Covers ranges i := by
  simp [Covers]

/-- The ranges of a sorted list, each merged into the one before it where they touch. -/
def mergeInto : Range → List Range → List Range
  | current, [] => [current]
  | current, r :: ranges =>
    if r.1 ≤ current.2 then mergeInto (current.1, if r.2 > current.2 then r.2 else current.2) ranges
    else current :: mergeInto r ranges

def coalesce : List Range → List Range
  | [] => []
  | r :: ranges => mergeInto r ranges

/-- Later ranges start behind the end of earlier ones. -/
abbrev Gaps (ranges : List Range) : Prop := ranges.Pairwise fun a b => a.2 < b.1

abbrev SortedByStart (ranges : List Range) : Prop := ranges.Pairwise fun a b => a.1 ≤ b.1

theorem covers_mergeInto (current : Range) (ranges : List Range)
    (hsorted : SortedByStart (current :: ranges)) (i : Nat) :
    Covers (mergeInto current ranges) i ↔ Covers (current :: ranges) i := by
  induction ranges generalizing current with
  | nil => rfl
  | cons r ranges ih =>
    obtain ⟨hcurrent, hrest⟩ := List.pairwise_cons.mp hsorted
    have hr : current.1 ≤ r.1 := hcurrent r (by simp)
    rw [mergeInto]
    split
    · rename_i htouch
      rw [ih]
      · simp only [covers_cons]
        rw [← or_assoc]
        apply or_congr_left
        split <;> omega
      · exact List.pairwise_cons.mpr ⟨fun b hb => hcurrent b (by simp [hb]),
          (List.pairwise_cons.mp hrest).2⟩
    · rw [covers_cons, ih r hrest, covers_cons current]

theorem gaps_mergeInto (current : Range) (ranges : List Range)
    (hsorted : SortedByStart (current :: ranges)) :
    Gaps (mergeInto current ranges) ∧ ∀ r ∈ mergeInto current ranges, current.1 ≤ r.1 := by
  induction ranges generalizing current with
  | nil => exact ⟨List.pairwise_singleton _ _, fun r hr => by simp [List.mem_singleton.mp hr]⟩
  | cons r ranges ih =>
    obtain ⟨hcurrent, hrest⟩ := List.pairwise_cons.mp hsorted
    rw [mergeInto]
    split
    · exact ih _ (List.pairwise_cons.mpr ⟨fun b hb => hcurrent b (by simp [hb]),
        (List.pairwise_cons.mp hrest).2⟩)
    · rename_i hgap
      obtain ⟨hgaps, hstarts⟩ := ih r hrest
      constructor
      · exact List.pairwise_cons.mpr ⟨fun b hb => by have := hstarts b hb; omega, hgaps⟩
      · intro q hq
        rcases List.mem_cons.mp hq with rfl | hq
        · exact le_refl _
        · exact (hcurrent r (by simp)).trans (hstarts q hq)

theorem covers_coalesce {ranges : List Range} (hsorted : SortedByStart ranges) (i : Nat) :
    Covers (coalesce ranges) i ↔ Covers ranges i := by
  cases ranges with
  | nil => rfl
  | cons r ranges => exact covers_mergeInto r ranges hsorted i

theorem gaps_coalesce {ranges : List Range} (hsorted : SortedByStart ranges) :
    Gaps (coalesce ranges) := by
  cases ranges with
  | nil => exact .nil
  | cons r ranges => exact (gaps_mergeInto r ranges hsorted).1

abbrev Proper (ranges : List Range) : Prop := ∀ r ∈ ranges, r.1 < r.2

theorem proper_mergeInto {current : Range} {ranges : List Range}
    (h : Proper (current :: ranges)) : Proper (mergeInto current ranges) := by
  induction ranges generalizing current with
  | nil => exact h
  | cons r ranges ih =>
    obtain ⟨hcurrent, hrest⟩ := List.forall_mem_cons.mp h
    rw [mergeInto]
    split
    · refine ih (List.forall_mem_cons.mpr ⟨?_, (List.forall_mem_cons.mp hrest).2⟩)
      dsimp only
      split <;> omega
    · exact List.forall_mem_cons.mpr ⟨hcurrent, ih hrest⟩

theorem proper_coalesce {ranges : List Range} (h : Proper ranges) :
    Proper (coalesce ranges) := by
  cases ranges with
  | nil => exact h
  | cons r ranges => exact proper_mergeInto h

/-- The order of pairs. -/
def RangeLe (a b : Range) : Prop := a.1 < b.1 ∨ a.1 = b.1 ∧ a.2 ≤ b.2

instance : DecidableRel RangeLe := fun a b =>
  inferInstanceAs (Decidable (a.1 < b.1 ∨ a.1 = b.1 ∧ a.2 ≤ b.2))

instance : Std.Total RangeLe := ⟨fun a b => by unfold RangeLe; omega⟩

instance : IsTrans Range RangeLe := ⟨fun a b c => by unfold RangeLe; omega⟩

def sortRanges (ranges : List Range) : List Range := ranges.insertionSort RangeLe

theorem sortedByStart_sortRanges (ranges : List Range) : SortedByStart (sortRanges ranges) := by
  apply (List.pairwise_insertionSort RangeLe ranges).imp
  intro a b hab
  unfold RangeLe at hab
  omega

theorem mem_sortRanges {ranges : List Range} {r : Range} :
    r ∈ sortRanges ranges ↔ r ∈ ranges :=
  List.mem_insertionSort RangeLe

@[simp] theorem covers_sortRanges (ranges : List Range) (i : Nat) :
    Covers (sortRanges ranges) i ↔ Covers ranges i := by
  simp only [Covers, mem_sortRanges]

def indices (ranges : List Range) : List Nat :=
  ranges.flatMap fun r => List.range' r.1 (r.2 - r.1)

theorem indices_cons (r : Range) (ranges : List Range) :
    indices (r :: ranges) = List.range' r.1 (r.2 - r.1) ++ indices ranges := rfl

@[simp] theorem mem_indices (ranges : List Range) (i : Nat) :
    i ∈ indices ranges ↔ Covers ranges i := by
  simp only [indices, Covers, List.mem_flatMap, List.mem_range'_1]
  apply exists_congr
  intro r
  apply and_congr_right
  intro _
  omega

theorem nodup_indices {ranges : List Range} (h : Gaps ranges) : (indices ranges).Nodup := by
  rw [indices, List.nodup_flatMap]
  refine ⟨fun r _ => List.nodup_range', ?_⟩
  apply h.imp
  intro a b hab i ha hb
  rw [List.mem_range'_1] at ha hb
  omega

@[simp] theorem length_indices (ranges : List Range) :
    (indices ranges).length = (ranges.map fun r => r.2 - r.1).sum := by
  simp [indices, List.length_flatMap]

section Marked

variable {α : Type u} (p : α → Bool)

/-- The marked elements before an index. -/
def rank (xs : List α) (j : Nat) : Nat := (xs.take j).countP p

theorem rank_succ (xs : List α) {j : Nat} (h : j < xs.length) :
    rank p xs (j + 1) = rank p xs j + if p xs[j] then 1 else 0 := by
  rw [rank, List.take_succ_eq_append_getElem h, List.countP_append, List.countP_singleton, rank]

/-- The marked elements of a slice have consecutive ranks. -/
theorem map_rank_slice (xs : List α) (s n : Nat) :
    ((List.range' s n).filter fun j => (xs[j]?).any p).map (rank p xs) =
      List.range' (rank p xs s) (((xs.drop s).take n).countP p) := by
  induction n generalizing s with
  | zero => simp
  | succ n ih =>
    rw [List.range'_succ, List.filter_cons]
    by_cases hs : s < xs.length
    · have hslice : (xs.drop s).take (n + 1) = xs[s] :: (xs.drop (s + 1)).take n := by
        rw [List.drop_eq_getElem_cons hs, List.take_succ_cons]
      rw [hslice, List.countP_cons, List.getElem?_eq_getElem hs, Option.any_some]
      have hnext := ih (s + 1)
      rw [rank_succ p xs hs] at hnext
      by_cases hp : p xs[s]
      · simp only [hp, if_true] at hnext ⊢
        rw [List.map_cons, hnext, ← List.range'_succ]
      · simp only [hp, Bool.false_eq_true, if_false, Nat.add_zero] at hnext ⊢
        exact hnext
    · rw [not_lt] at hs
      have hnone : ∀ j ∈ List.range' (s + 1) n, ¬ (xs[j]?).any p = true := by
        intro j hj
        rw [List.mem_range'_1] at hj
        simp [List.getElem?_eq_none (show xs.length ≤ j by omega)]
      simp [List.getElem?_eq_none hs, List.filter_eq_nil_iff.mpr hnone, List.drop_eq_nil_of_le hs]

/-- The first marked element of a slice has the rank of the start of the slice. -/
theorem rank_of_find?_slice (xs : List α) {s n : Nat} {a : α}
    (h : ((xs.drop s).take n).find? p = some a) :
    ∃ j, xs[j]? = some a ∧ rank p xs j = rank p xs s := by
  induction n generalizing s with
  | zero => simp at h
  | succ n ih =>
    by_cases hs : s < xs.length
    · rw [List.drop_eq_getElem_cons hs, List.take_succ_cons, List.find?_cons] at h
      by_cases hp : p xs[s]
      · simp only [hp] at h
        exact ⟨s, by rw [List.getElem?_eq_getElem hs, h], rfl⟩
      · simp only [hp] at h
        obtain ⟨j, hj, hrank⟩ := ih h
        rw [rank_succ p xs hs, if_neg hp, Nat.add_zero] at hrank
        exact ⟨j, hj, hrank⟩
    · simp [List.drop_eq_nil_of_le (Nat.le_of_not_lt hs)] at h

end Marked

end RhoFEM.Lib.Coalesce
