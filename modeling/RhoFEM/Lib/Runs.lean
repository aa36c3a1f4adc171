import RhoFEM.Lib.Coalesce
import RhoFEM.Lib.Rounds

/-! Intervals that lie next to each other, and the intervals of slots that the marked elements
of a list take, when each range of the list starts anew at its first marked element. -/

universe u

namespace RhoFEM.Lib.Runs

open RhoFEM.Lib.Coalesce RhoFEM.Lib.Rounds

section Adjacent

/-- Later ranges do not start before the end of earlier ones. -/
abbrev Ascending (ranges : List Range) : Prop := ranges.Pairwise fun a b => a.2 ≤ b.1

theorem pairwise_lt_indices {ranges : List Range} (h : Ascending ranges) :
    (indices ranges).Pairwise (· < ·) := by
  rw [indices, List.pairwise_flatMap]
  refine ⟨fun r _ => List.pairwise_lt_range', ?_⟩
  apply h.imp
  intro a b hab i hi j hj
  rw [List.mem_range'_1] at hi hj
  omega

/-- Each range starts where those before it end. -/
def Adjacent (start : Nat) (ranges : List Range) : Prop :=
  ∀ pre r post, ranges = pre ++ r :: post → r.1 = start + (indices pre).length

theorem adjacent_cons (start : Nat) (r : Range) (ranges : List Range) :
    Adjacent start (r :: ranges) ↔ r.1 = start ∧ Adjacent (start + (r.2 - r.1)) ranges := by
  constructor
  · intro h
    refine ⟨h [] r ranges rfl, ?_⟩
    rintro pre b post rfl
    have hb := h (r :: pre) b post rfl
    rw [indices_cons, List.length_append, List.length_range'] at hb
    rw [hb, Nat.add_assoc]
  · rintro ⟨hr, hrest⟩ pre b post hsplit
    cases pre with
    | nil =>
      obtain ⟨rfl, -⟩ := List.cons.inj hsplit
      exact hr
    | cons a pre =>
      obtain ⟨rfl, htail⟩ := List.cons.inj hsplit
      rw [hrest pre b post htail, indices_cons, List.length_append, List.length_range',
        Nat.add_assoc]

theorem Adjacent.indices_eq {start : Nat} {ranges : List Range} (h : Adjacent start ranges) :
    indices ranges = List.range' start (indices ranges).length := by
  induction ranges generalizing start with
  | nil => rfl
  | cons r ranges ih =>
    obtain ⟨rfl, hrest⟩ := (adjacent_cons start r ranges).mp h
    rw [indices_cons, List.length_append, List.length_range', ← List.range'_append_1, ← ih hrest]

theorem adjacent_of_indices_eq {start width : Nat} {ranges : List Range} (hproper : Proper ranges)
    (h : indices ranges = List.range' start width) : Adjacent start ranges := by
  rintro pre r post rfl
  have hr : r.1 < r.2 := hproper r (by simp)
  have happend : indices (pre ++ r :: post) =
      indices pre ++ (List.range' r.1 (r.2 - r.1) ++ indices post) := List.flatMap_append
  have hget : (indices (pre ++ r :: post))[(indices pre).length]? = some r.1 := by
    rw [happend, List.getElem?_append_right (le_refl _), Nat.sub_self,
      List.getElem?_append_left (by rw [List.length_range']; omega),
      List.getElem?_range' (by omega)]
    simp
  rw [h] at hget
  obtain ⟨hlt, heq⟩ := List.getElem?_eq_some_iff.mp hget
  rw [List.getElem_range'_1] at heq
  exact heq.symm

/-- Ranges in order cover an interval exactly when they are adjacent, and as long as it. -/
theorem covers_interval_iff {ranges : List Range} (hproper : Proper ranges)
    (hascending : Ascending ranges) (start width : Nat) :
    (∀ i, Covers ranges i ↔ start ≤ i ∧ i < start + width) ↔
      width = (indices ranges).length ∧ Adjacent start ranges := by
  constructor
  · intro h
    have heq : indices ranges = List.range' start width := by
      apply (pairwise_lt_indices hascending).eq_of_mem_iff List.pairwise_lt_range'
      intro i
      rw [mem_indices, h i, List.mem_range'_1]
    exact ⟨by rw [heq, List.length_range'], adjacent_of_indices_eq hproper heq⟩
  · rintro ⟨rfl, hadjacent⟩ i
    rw [← mem_indices, hadjacent.indices_eq, List.mem_range'_1, List.length_range']

/-- Ranges in any order cover an interval exactly when they lie in it, one starts it, and each
ends with it or where another covers. -/
theorem covers_Ico_iff {ranges : List Range} (hproper : Proper ranges) {start stop : Nat}
    (hlt : start < stop) :
    (∀ i, Covers ranges i ↔ start ≤ i ∧ i < stop) ↔
      (∃ r ∈ ranges, r.1 = start) ∧
        ∀ r ∈ ranges, start ≤ r.1 ∧ r.2 ≤ stop ∧ (r.2 = stop ∨ Covers ranges r.2) := by
  constructor
  · intro h
    have hinside : ∀ r ∈ ranges, start ≤ r.1 ∧ r.2 ≤ stop := by
      intro r hr
      have hr' := hproper r hr
      have hfirst := (h r.1).mp ⟨r, hr, le_refl _, hr'⟩
      have hlast := (h (r.2 - 1)).mp ⟨r, hr, by omega, by omega⟩
      omega
    constructor
    · obtain ⟨r, hr, hle, -⟩ := (h start).mpr ⟨le_refl _, hlt⟩
      exact ⟨r, hr, Nat.le_antisymm hle (hinside r hr).1⟩
    · intro r hr
      obtain ⟨hfirst, hlast⟩ := hinside r hr
      refine ⟨hfirst, hlast, hlast.eq_or_lt.imp_right fun hend => ?_⟩
      have hr' := hproper r hr
      exact (h r.2).mpr ⟨by omega, hend⟩
  · rintro ⟨⟨first, hfirst, rfl⟩, hall⟩ i
    constructor
    · rintro ⟨r, hr, hlo, hhi⟩
      obtain ⟨hstart, hstop, -⟩ := hall r hr
      exact ⟨hstart.trans hlo, hhi.trans_le hstop⟩
    · rintro ⟨hlo, hhi⟩
      -- what is covered reaches from the start as far as the stop
      induction i, hlo using Nat.le_induction with
      | base => exact ⟨first, hfirst, le_refl _, hproper first hfirst⟩
      | succ i _ ih =>
        obtain ⟨r, hr, hle, hend⟩ := ih (by omega)
        obtain ⟨-, -, hnext⟩ := hall r hr
        by_cases hin : i + 1 < r.2
        · exact ⟨r, hr, by omega, hin⟩
        · have hlast : i + 1 = r.2 := by omega
          rw [hlast]
          exact hnext.resolve_left (by omega)

end Adjacent

section Marked

variable {α : Type u} (marked : α → Bool) (xs : List α)

def cut (r : Range) : List α := (xs.drop r.1).take (r.2 - r.1)

theorem rank_add_countP_cut {r : Range} (h : r.1 ≤ r.2) :
    rank marked xs r.2 = rank marked xs r.1 + (cut xs r).countP marked := by
  rw [rank, rank, cut, ← List.countP_append, ← List.take_add, Nat.add_sub_cancel' h]

theorem find?_cut {r : Range} {a : α} (h : (cut xs r).find? marked = some a) :
    ∃ j, r.1 ≤ j ∧ j < r.2 ∧ xs[j]? = some a ∧ marked a ∧
      ∀ k x, r.1 ≤ k → k < j → xs[k]? = some x → ¬ marked x := by
  obtain ⟨ha, i, hi, heq, hbefore⟩ := List.find?_eq_some_iff_getElem.mp h
  have hget : ∀ k, (cut xs r)[k]? = if k < r.2 - r.1 then xs[r.1 + k]? else none := by
    intro k
    rw [cut, List.getElem?_take, List.getElem?_drop]
  have hi' := hget i
  rw [List.getElem?_eq_getElem hi, heq] at hi'
  split at hi'
  · rename_i hlt
    refine ⟨r.1 + i, Nat.le_add_right _ _, by omega, hi'.symm, ha, ?_⟩
    intro k x hk hki hx hmarked
    have hk' := hget (k - r.1)
    rw [if_pos (by omega), Nat.add_sub_cancel' hk, hx] at hk'
    obtain ⟨hlen, hxk⟩ := List.getElem?_eq_some_iff.mp hk'
    have hnot := hbefore (k - r.1) (by omega)
    rw [hxk, hmarked] at hnot
    cases hnot
  · cases hi'

theorem cut_isInfix (r : Range) : cut xs r <:+: xs :=
  (List.take_prefix _ _).isInfix.trans (List.drop_suffix _ _).isInfix

/-- As many marked elements stand before a marked element as before it in the list of all. -/
theorem rank_idxOf [BEq α] [LawfulBEq α] {marked : α → Bool} {xs : List α} (hxs : xs.Nodup)
    {k : Nat}
    {a : α} (h : (xs.filter marked)[k]? = some a) : rank marked xs (xs.idxOf a) = k := by
  induction xs generalizing k with
  | nil => cases h
  | cons x xs ih =>
    obtain ⟨hx, hrest⟩ := List.nodup_cons.mp hxs
    have hne : ∀ j : Nat, (xs.filter marked)[j]? = some a → x ≠ a := by
      rintro j hj rfl
      exact hx (List.mem_of_mem_filter (List.mem_of_getElem? hj))
    by_cases hmarked : marked x
    · rw [List.filter_cons_of_pos hmarked] at h
      cases k with
      | zero =>
        obtain rfl := Option.some.inj h
        rw [List.idxOf_cons_self]
        rfl
      | succ k =>
        rw [List.getElem?_cons_succ] at h
        rw [List.idxOf_cons_ne _ (hne k h), rank, List.take_succ_cons,
          List.countP_cons_of_pos hmarked]
        exact congrArg Nat.succ (ih hrest h)
    · rw [List.filter_cons_of_neg hmarked] at h
      rw [List.idxOf_cons_ne _ (hne k h), rank, List.take_succ_cons,
        List.countP_cons_of_neg hmarked]
      exact ih hrest h

@[simp] theorem mem_cut {r : Range} {a : α} :
    a ∈ cut xs r ↔ ∃ j, r.1 ≤ j ∧ j < r.2 ∧ xs[j]? = some a := by
  rw [List.mem_iff_getElem?]
  constructor
  · rintro ⟨k, hk⟩
    rw [cut, List.getElem?_take, List.getElem?_drop] at hk
    split at hk
    · exact ⟨r.1 + k, Nat.le_add_right _ _, by omega, hk⟩
    · cases hk
  · rintro ⟨j, hlo, hhi, hj⟩
    refine ⟨j - r.1, ?_⟩
    rw [cut, List.getElem?_take, List.getElem?_drop, if_pos (by omega), Nat.add_sub_cancel' hlo, hj]

theorem countP_and_eq_iff (below : α → Bool) (l : List α) :
    (l.countP fun x => below x && marked x) = l.countP marked ↔
      ∀ x ∈ l, marked x → below x := by
  rw [← List.countP_filter, List.countP_eq_length_filter (p := marked), List.countP_eq_length]
  simp

variable (slot : α → Nat)

/-- The slots of a range: as many as it has marked elements, from that of the first. -/
def slotRange (r : Range) : Option Range :=
  ((cut xs r).find? marked).map fun a => (slot a, slot a + (cut xs r).countP marked)

variable {marked xs slot}
  (hslot : ∀ {i j : Nat} {a b : α}, i < j → xs[i]? = some a → xs[j]? = some b → marked a →
    marked b → slot a < slot b)

theorem slotRange_eq_some {r b : Range} (h : slotRange marked xs slot r = some b) :
    ∃ j a, r.1 ≤ j ∧ j < r.2 ∧ xs[j]? = some a ∧ marked a ∧
      (∀ k x, r.1 ≤ k → k < j → xs[k]? = some x → ¬ marked x) ∧
      b = (slot a, slot a + (cut xs r).countP marked) := by
  obtain ⟨a, hfind, rfl⟩ := Option.map_eq_some_iff.mp h
  obtain ⟨j, hlo, hhi, hj, ha, hbefore⟩ := find?_cut marked xs hfind
  exact ⟨j, a, hlo, hhi, hj, ha, hbefore, rfl⟩

include hslot in
/-- There is a slot for each marked element in between. -/
theorem slot_add_rank_le {i j : Nat} {a b : α} (hij : i < j) (hi : xs[i]? = some a)
    (hj : xs[j]? = some b) (ha : marked a) (hb : marked b) :
    slot a + rank marked xs j ≤ slot b + rank marked xs i := by
  have hlast : ∀ n, i + n < j → ∃ k c, i ≤ k ∧ k ≤ i + n ∧ xs[k]? = some c ∧ marked c ∧
      slot a + rank marked xs (i + (n + 1)) ≤ slot c + rank marked xs i + 1 := by
    intro n
    induction n with
    | zero =>
      intro _
      obtain ⟨hlen, heq⟩ := List.getElem?_eq_some_iff.mp hi
      refine ⟨i, a, le_refl i, le_refl i, hi, ha, ?_⟩
      rw [Nat.zero_add, rank_succ marked xs hlen, heq, if_pos ha, Nat.add_assoc]
    | succ n ih =>
      intro hn
      obtain ⟨k, c, hik, hkn, hk, hc, hle⟩ := ih (by omega)
      have hlen : i + (n + 1) < xs.length :=
        hn.trans (List.getElem?_eq_some_iff.mp hj).1
      have hstep : rank marked xs (i + (n + 1 + 1)) = _ := rank_succ marked xs hlen
      by_cases hmarked : marked xs[i + (n + 1)]
      · have hget := List.getElem?_eq_getElem hlen
        have hlt := hslot (show k < i + (n + 1) by omega) hk hget hc hmarked
        refine ⟨i + (n + 1), _, by omega, le_refl _, hget, hmarked, ?_⟩
        rw [hstep, if_pos hmarked]
        omega
      · refine ⟨k, c, hik, by omega, hk, hc, ?_⟩
        rw [hstep, if_neg hmarked]
        omega
  obtain ⟨k, c, -, hkj, hk, hc, hle⟩ := hlast (j - i - 1) (by omega)
  have hlt := hslot (show k < j by omega) hk hj hc hb
  have hend : i + (j - i - 1 + 1) = j := by omega
  rw [hend] at hle
  omega

theorem proper_slotRanges (ranges : List Range) :
    Proper (ranges.filterMap (slotRange marked xs slot)) := by
  intro b hb
  obtain ⟨r, -, hr⟩ := List.mem_filterMap.mp hb
  obtain ⟨j, a, hlo, hhi, hj, ha, -, rfl⟩ := slotRange_eq_some hr
  have hpos : 0 < (cut xs r).countP marked :=
    List.countP_pos_iff.mpr ⟨a, (mem_cut xs).mpr ⟨j, hlo, hhi, hj⟩, ha⟩
  exact Nat.lt_add_of_pos_right hpos

include hslot in
theorem ascending_slotRanges {ranges : List Range} (hgaps : Gaps ranges) :
    Ascending (ranges.filterMap (slotRange marked xs slot)) := by
  rw [Ascending, List.pairwise_filterMap]
  apply hgaps.imp
  intro r r' hgap b hb b' hb'
  obtain ⟨j, a, hlo, hhi, hj, ha, hbefore, rfl⟩ := slotRange_eq_some hb
  obtain ⟨j', a', hlo', hhi', hj', ha', -, rfl⟩ := slotRange_eq_some hb'
  have hle := slot_add_rank_le hslot (show j < j' by omega) hj hj' ha ha'
  have hfirst : rank marked xs r.1 = rank marked xs j :=
    (countP_take_eq_iff marked xs hlo).mpr hbefore
  have hcount := rank_add_countP_cut marked xs (show r.1 ≤ r.2 by omega)
  have hmono : rank marked xs r.2 ≤ rank marked xs j' :=
    (List.take_sublist_take_left (show r.2 ≤ j' by omega)).countP_le
  dsimp only
  omega

theorem length_filter_range' (r : Range) :
    ((List.range' r.1 (r.2 - r.1)).filter fun j => (xs[j]?).any marked).length =
      (cut xs r).countP marked := by
  have hlength := congrArg List.length (map_rank_slice marked xs r.1 (r.2 - r.1))
  rwa [List.length_map, List.length_range'] at hlength

theorem length_indices_slotRanges (ranges : List Range) :
    (indices (ranges.filterMap (slotRange marked xs slot))).length =
      ((indices ranges).filter fun j => (xs[j]?).any marked).length := by
  induction ranges with
  | nil => rfl
  | cons r ranges ih =>
    rw [indices_cons, List.filter_append, List.length_append, length_filter_range', ← ih,
      List.filterMap_cons]
    cases hfind : (cut xs r).find? marked with
    | none =>
      have hzero : (cut xs r).countP marked = 0 :=
        List.countP_eq_zero.mpr (List.find?_eq_none.mp hfind)
      rw [slotRange, hfind, hzero, Nat.zero_add]
      rfl
    | some a =>
      rw [slotRange, hfind, Option.map_some, indices_cons, List.length_append, List.length_range',
        Nat.add_sub_cancel_left]

/-- As many slots are taken as there are marked elements in the ranges. -/
theorem length_slotRanges_eq_countP {below : α → Bool} {ranges : List Range} (hgaps : Gaps ranges)
    {m : Nat}
    (hcovers : ∀ i, Covers ranges i ↔ i < m ∧ ∃ x, xs[i]? = some x ∧ below x) :
    (indices (ranges.filterMap (slotRange marked xs slot))).length =
      (xs.take m).countP fun x => below x && marked x := by
  have htake :
      ((List.range' 0 m).filter fun j => (xs[j]?).any fun x => below x && marked x).length =
        (xs.take m).countP fun x => below x && marked x := length_filter_range' (0, m)
  rw [length_indices_slotRanges, ← htake]
  apply List.Perm.length_eq
  rw [List.perm_ext_iff_of_nodup ((nodup_indices hgaps).filter _) ((List.nodup_range').filter _)]
  intro i
  rw [List.mem_filter, List.mem_filter, mem_indices, hcovers, List.mem_range'_1]
  cases hi : xs[i]? with
  | none => simp
  | some x => simp [and_assoc]

/-- The first marked element of a run of elements below, which starts at an index. -/
structure OpensRun (xs : List α) (below marked : α → Bool) (i j : Nat) (d : α) : Prop where
  le : i ≤ j
  found : xs[j]? = some d
  isBelow : below d
  isMarked : marked d
  between : ∀ k x, i ≤ k → k < j → xs[k]? = some x → below x ∧ ¬ marked x
  before : ∀ k x, k + 1 = i → xs[k]? = some x → ¬ below x

section Cover

variable {below : α → Bool} {ranges : List Range}
  (hcovers : ∀ i, Covers ranges i ↔ ∃ x, xs[i]? = some x ∧ below x) (hgaps : Gaps ranges)
include hcovers

include hgaps in
/-- Before a range that follows others there are exactly those. -/
theorem covers_before {pre post : List Range} {r : Range} (hsplit : ranges = pre ++ r :: post)
    (hr : r.1 ≤ r.2) (i : Nat) :
    Covers pre i ↔ i < r.1 ∧ ∃ x, xs[i]? = some x ∧ below x := by
  rw [← hcovers i, hsplit]
  rw [hsplit, Gaps, List.pairwise_append, List.pairwise_cons] at hgaps
  obtain ⟨-, ⟨hpost, -⟩, hpre⟩ := hgaps
  constructor
  · rintro ⟨r', hr', hlo, hhi⟩
    have hlt := hpre r' hr' r List.mem_cons_self
    exact ⟨by omega, r', List.mem_append_left _ hr', hlo, hhi⟩
  · rintro ⟨hi, r', hr', hlo, hhi⟩
    rcases List.mem_append.mp hr' with hmem | hmem
    · exact ⟨r', hmem, hlo, hhi⟩
    · rcases List.mem_cons.mp hmem with rfl | hmem
      · omega
      · have hlt := hpost r' hmem
        omega

theorem below_of_mem_range {r : Range} (hr : r ∈ ranges) {k : Nat} {x : α} (hlo : r.1 ≤ k)
    (hhi : k < r.2) (hx : xs[k]? = some x) : below x := by
  obtain ⟨y, hy, hbelow⟩ := (hcovers k).mp ⟨r, hr, hlo, hhi⟩
  obtain rfl := Option.some.inj (hx.symm.trans hy)
  exact hbelow

omit hcovers in
include hgaps in
theorem gap_of_ne {a b : Range} (ha : a ∈ ranges) (hb : b ∈ ranges) (hne : a ≠ b) :
    a.2 < b.1 ∨ b.2 < a.1 := by
  let apart (a b : Range) : Prop := a.2 < b.1 ∨ b.2 < a.1
  have hsymm : Std.Symm apart := ⟨fun _ _ => Or.symm⟩
  have hapart : ranges.Pairwise apart := hgaps.imp Or.inl
  exact hapart.forall ha hb hne

include hgaps in
/-- What is below ends before the next range begins, and behind the range before it. -/
theorem not_below_of_gap {r : Range} (hr : r ∈ ranges) (hlt : r.1 < r.2) {k : Nat} {x : α}
    (hk : k + 1 = r.1 ∨ k = r.2) (hx : xs[k]? = some x) : ¬ below x := by
  intro hbelow
  obtain ⟨r', hr', hlo, hhi⟩ := (hcovers k).mpr ⟨x, hx, hbelow⟩
  have hne : r ≠ r' := by
    rintro rfl
    omega
  have hgap := gap_of_ne hgaps hr hr' hne
  omega

include hgaps in
/-- A range with a marked element starts a run that its first marked element opens. -/
theorem opensRun_of_first {r : Range} (hr : r ∈ ranges) {j : Nat} {d : α} (hlo : r.1 ≤ j)
    (hhi : j < r.2) (hj : xs[j]? = some d) (hd : marked d)
    (hfirst : ∀ k x, r.1 ≤ k → k < j → xs[k]? = some x → ¬ marked x) :
    OpensRun xs below marked r.1 j d := by
  constructor
  · exact hlo
  · exact hj
  · exact below_of_mem_range hcovers hr hlo hhi hj
  · exact hd
  · exact fun k x hk hkj hx =>
      ⟨below_of_mem_range hcovers hr hk (hkj.trans hhi) hx, hfirst k x hk hkj hx⟩
  · exact fun k x hk hx => not_below_of_gap hcovers hgaps hr (hlo.trans_lt hhi) (.inl hk) hx

include hgaps in
/-- The run of a marked element below is opened at or before it. -/
theorem exists_opensRun {j : Nat} {y : α} (hj : xs[j]? = some y) (hbelow : below y)
    (hmarked : marked y) : ∃ i k d, OpensRun xs below marked i k d ∧ k ≤ j ∧
      ∀ m x, k ≤ m → m ≤ j → xs[m]? = some x → below x := by
  obtain ⟨r, hr, hlo, hhi⟩ := (hcovers j).mpr ⟨y, hj, hbelow⟩
  obtain ⟨a, hfind⟩ := Option.isSome_iff_exists.mp
    (List.find?_isSome.mpr ⟨y, (mem_cut xs).mpr ⟨j, hlo, hhi, hj⟩, hmarked⟩)
  obtain ⟨k, hk, hkr, hak, ha, hfirst⟩ := find?_cut marked xs hfind
  have hkj : k ≤ j := by
    by_contra hlt
    exact hfirst j y hlo (Nat.lt_of_not_le hlt) hj hmarked
  exact ⟨r.1, k, a, opensRun_of_first hcovers hgaps hr hk hkr hak ha hfirst, hkj,
    fun m x hm hmj hx => below_of_mem_range hcovers hr (hk.trans hm) (hmj.trans_lt hhi) hx⟩

/-- Conversely, what opens a run is the first marked element of its range. -/
theorem slotRange_of_opensRun {i j : Nat} {d : α} (h : OpensRun xs below marked i j d) :
    ∃ pre r post, ranges = pre ++ r :: post ∧ i ≤ r.1 ∧ r.1 ≤ j ∧
      slotRange marked xs slot r = some (slot d, slot d + (cut xs r).countP marked) := by
  obtain ⟨r, hr, hlo, hhi⟩ := (hcovers j).mpr ⟨d, h.found, h.isBelow⟩
  obtain ⟨pre, post, hsplit⟩ := List.append_of_mem hr
  have hi : i ≤ r.1 := by
    by_contra hlt
    obtain ⟨x, hx, hbelow⟩ := (hcovers (i - 1)).mp ⟨r, hr, by omega, by have := h.le; omega⟩
    exact h.before (i - 1) x (by omega) hx hbelow
  refine ⟨pre, r, post, hsplit, hi, hlo, ?_⟩
  obtain ⟨a, hfind⟩ := Option.isSome_iff_exists.mp
    (List.find?_isSome.mpr ⟨d, (mem_cut xs).mpr ⟨j, hlo, hhi, h.found⟩, h.isMarked⟩)
  obtain ⟨j', hlo', hhi', hj', ha, hbefore⟩ := find?_cut marked xs hfind
  have hj : j' = j := by
    rcases Nat.lt_trichotomy j' j with hlt | heq | hgt
    · exact absurd ha (h.between j' a (hi.trans hlo') hlt hj').2
    · exact heq
    · exact absurd h.isMarked (hbefore j d hlo hgt h.found)
  obtain rfl : a = d := Option.some.inj (by rw [← hj', hj, h.found])
  rw [slotRange, hfind, Option.map_some]

include hgaps in
theorem cut_eq_takeWhile {r : Range} (hr : r ∈ ranges) (hlt : r.1 < r.2) :
    cut xs r = (xs.drop r.1).takeWhile below := by
  have hsplit : xs.drop r.1 = cut xs r ++ xs.drop r.2 := by
    rw [cut, ← Nat.add_sub_cancel' hlt.le, ← List.drop_drop, Nat.add_sub_cancel_left,
      List.take_append_drop]
  have hend : (xs.drop r.2).takeWhile below = [] := by
    rw [List.takeWhile_eq_nil_iff]
    intro hlength
    rw [List.get_eq_getElem, List.getElem_drop]
    exact not_below_of_gap hcovers hgaps hr hlt (.inr (Nat.add_zero r.2))
      (List.getElem?_eq_getElem _)
  rw [hsplit, List.takeWhile_append_of_pos, hend, List.append_nil]
  intro x hx
  obtain ⟨k, hlo, hhi, hk⟩ := (mem_cut xs).mp hx
  exact below_of_mem_range hcovers hr hlo hhi hk

include hgaps in
/-- The slots are those of the runs. -/
theorem mem_slotRanges_iff (b : Range) : b ∈ ranges.filterMap (slotRange marked xs slot) ↔
    ∃ i j d, OpensRun xs below marked i j d ∧
      b = (slot d, slot d + ((xs.drop i).takeWhile below).countP marked) := by
  rw [List.mem_filterMap]
  constructor
  · rintro ⟨r, hr, hrange⟩
    obtain ⟨j, d, hlo, hhi, hj, hd, hfirst, rfl⟩ := slotRange_eq_some hrange
    refine ⟨r.1, j, d, opensRun_of_first hcovers hgaps hr hlo hhi hj hd hfirst, ?_⟩
    rw [cut_eq_takeWhile hcovers hgaps hr (hlo.trans_lt hhi)]
  · rintro ⟨i, j, d, hopens, rfl⟩
    obtain ⟨pre, r, post, hsplit, hi, hj, hrange⟩ :=
      @slotRange_of_opensRun α marked xs slot below ranges hcovers i j d hopens
    have hr : r ∈ ranges := by rw [hsplit]; simp
    obtain ⟨_, _, hlo, hhi, -⟩ := slotRange_eq_some hrange
    have hstart : i = r.1 := by
      by_contra hne
      have hlen := (List.getElem?_eq_some_iff.mp hopens.found).1
      have hget := List.getElem?_eq_getElem (show r.1 - 1 < xs.length by omega)
      exact not_below_of_gap hcovers hgaps hr (hlo.trans_lt hhi) (.inl (by omega)) hget
        (hopens.between _ _ (by omega) (by omega) hget).1
    refine ⟨r, hr, ?_⟩
    rw [hrange, cut_eq_takeWhile hcovers hgaps hr (hlo.trans_lt hhi), hstart]

include hgaps in
/-- The slots lie next to each other exactly when each run starts where those before it end. -/
theorem adjacent_slotRanges_iff (start : Nat) :
    Adjacent start (ranges.filterMap (slotRange marked xs slot)) ↔
      ∀ i j d, OpensRun xs below marked i j d →
        slot d = start + (xs.take i).countP fun x => below x && marked x := by
  have hcount : ∀ {pre r post}, ranges = pre ++ r :: post → r.1 ≤ r.2 →
      (indices (pre.filterMap (slotRange marked xs slot))).length =
        (xs.take r.1).countP fun x => below x && marked x := by
    intro pre r post hsplit hr
    apply length_slotRanges_eq_countP _ (covers_before hcovers hgaps hsplit hr)
    rw [hsplit, Gaps, List.pairwise_append] at hgaps
    exact hgaps.1
  constructor
  · intro hadjacent i j d hopens
    obtain ⟨pre, r, post, hsplit, hi, hj, hrange⟩ := slotRange_of_opensRun hcovers hopens
    obtain ⟨_, _, hlo, hhi, -⟩ := slotRange_eq_some hrange
    have hstart := hadjacent (pre.filterMap (slotRange marked xs slot)) _
      (post.filterMap (slotRange marked xs slot))
      (by rw [hsplit, List.filterMap_append, List.filterMap_cons, hrange])
    rw [hcount hsplit (by omega)] at hstart
    have hsame : ((xs.take i).countP fun x => below x && marked x) =
        (xs.take r.1).countP fun x => below x && marked x := by
      rw [countP_take_eq_iff _ xs hi]
      intro k x hk hkr hx
      have hnot := (hopens.between k x hk (hkr.trans_le hj) hx).2
      simp [hnot]
    rw [hsame]
    exact hstart
  · intro hall pre b post hsplit
    obtain ⟨l₁, l₂, rfl, rfl, hl₂⟩ := List.filterMap_eq_append_iff.mp hsplit
    obtain ⟨m₁, r, m₂, rfl, hm₁, hrange, -⟩ := List.filterMap_eq_cons_iff.mp hl₂
    rw [← List.append_assoc] at hcount hcovers hgaps
    obtain ⟨j, d, hlo, hhi, hj, hd, hfirst, rfl⟩ := slotRange_eq_some hrange
    have hopens := opensRun_of_first hcovers hgaps (by simp) hlo hhi hj hd hfirst
    have hlength := hcount rfl (show r.1 ≤ r.2 by omega)
    rw [List.filterMap_append, List.filterMap_eq_nil_iff.mpr hm₁, List.append_nil] at hlength
    rw [hall r.1 j d hopens, hlength]

include hgaps hslot in
/-- The slots are those of an interval exactly when it has one for each marked element below,
and each run starts where those before it end. -/
theorem covers_slotRanges_iff (start width : Nat) :
    (∀ n, Covers (ranges.filterMap (slotRange marked xs slot)) n ↔ start ≤ n ∧ n < start + width) ↔
      width = xs.countP (fun x => below x && marked x) ∧ ∀ i j d, OpensRun xs below marked i j d →
        slot d = start + (xs.take i).countP fun x => below x && marked x := by
  have hall : ∀ i, Covers ranges i ↔ i < xs.length ∧ ∃ x, xs[i]? = some x ∧ below x := by
    intro i
    rw [hcovers i]
    constructor
    · rintro ⟨x, hx, hbelow⟩
      exact ⟨(List.getElem?_eq_some_iff.mp hx).1, x, hx, hbelow⟩
    · exact fun h => h.2
  have hcount : (indices (ranges.filterMap (slotRange marked xs slot))).length =
      (xs.take xs.length).countP fun x => below x && marked x :=
    length_slotRanges_eq_countP hgaps hall
  rw [List.take_length] at hcount
  rw [covers_interval_iff (proper_slotRanges ranges) (ascending_slotRanges hslot hgaps), hcount,
    adjacent_slotRanges_iff hcovers hgaps]

include hgaps in
/-- Where the slots are the ranks of the marked elements, the runs start where those before them
end, from element `k` on, exactly when `k` is the first of the marked elements below and no other
marked element stands between it and another. -/
theorem runs_follow_iff (k : Nat) :
    (∀ i j d, OpensRun xs below marked i j d → rank marked xs j = rank marked xs k +
        (xs.take i).countP fun x => below x && marked x) ↔
      ∀ j y, xs[j]? = some y → below y → marked y → k ≤ j ∧
        ∀ i x, k ≤ i → i ≤ j → xs[i]? = some x → marked x → below x := by
  have hnone : (∀ j y, xs[j]? = some y → below y → marked y → k ≤ j) →
      rank (fun x => below x && marked x) xs k = 0 := by
    intro hfirst
    rw [rank, List.countP_eq_zero]
    intro x hx hand
    obtain ⟨i, hi⟩ := List.mem_iff_getElem?.mp hx
    rw [List.getElem?_take] at hi
    split at hi
    · rw [Bool.and_eq_true] at hand
      have hle := hfirst i x hi hand.1 hand.2
      omega
    · cases hi
  have hsame : ∀ {i j d}, OpensRun xs below marked i j d →
      rank (fun x => below x && marked x) xs i = rank (fun x => below x && marked x) xs j := by
    intro i j d hopens
    rw [rank, rank, countP_take_eq_iff _ xs hopens.le]
    intro m x hm hmj hx
    simp [(hopens.between m x hm hmj hx).2]
  constructor
  · intro hall
    have hfirst : ∀ j y, xs[j]? = some y → below y → marked y → k ≤ j := by
      intro j y hj hbelow hmarked
      obtain ⟨i, m, d, hopens, hmj, -⟩ := exists_opensRun hcovers hgaps hj hbelow hmarked
      by_contra hlt
      have hrank := hall i m d hopens
      have hlen := (List.getElem?_eq_some_iff.mp hopens.found).1
      have hstep := rank_succ marked xs hlen
      rw [(List.getElem?_eq_some_iff.mp hopens.found).2, if_pos hopens.isMarked] at hstep
      have hmono : rank marked xs (m + 1) ≤ rank marked xs k :=
        (List.take_sublist_take_left (show m + 1 ≤ k by omega)).countP_le
      omega
    intro j y hj hbelow hmarked
    refine ⟨hfirst j y hj hbelow hmarked, ?_⟩
    intro i x hki hij hx hx'
    obtain ⟨i₀, m, d, hopens, hmj, hinside⟩ := exists_opensRun hcovers hgaps hj hbelow hmarked
    by_cases him : m ≤ i
    · exact hinside i x him hij hx
    · have hkm := hfirst m d hopens.found hopens.isBelow hopens.isMarked
      have hrank : rank marked xs m = rank marked xs k +
          rank (fun x => below x && marked x) xs i₀ := hall i₀ m d hopens
      rw [hsame hopens] at hrank
      have hmarks := rank_add_countP_cut marked xs (r := (k, m)) hkm
      have hboth := rank_add_countP_cut (fun x => below x && marked x) xs (r := (k, m)) hkm
      dsimp only at hmarks hboth
      rw [hnone hfirst] at hboth
      have hall' := (countP_and_eq_iff marked below (cut xs (k, m))).mp (by omega)
      exact hall' x ((mem_cut xs).mpr ⟨i, hki, by dsimp only; omega, hx⟩) hx'
  · intro hall i j d hopens
    have hkj := (hall j d hopens.found hopens.isBelow hopens.isMarked).1
    have hmarks := rank_add_countP_cut marked xs (r := (k, j)) hkj
    have hboth := rank_add_countP_cut (fun x => below x && marked x) xs (r := (k, j)) hkj
    dsimp only at hmarks hboth
    rw [hnone fun j y hj hbelow hmarked => (hall j y hj hbelow hmarked).1, ← hsame hopens] at hboth
    have hcut := (countP_and_eq_iff marked below (cut xs (k, j))).mpr ?below
    case below =>
      intro x hx hmarked
      obtain ⟨i, hki, hij, hi⟩ := (mem_cut xs).mp hx
      exact (hall j d hopens.found hopens.isBelow hopens.isMarked).2 i x hki hij.le hi hmarked
    rw [rank] at hboth
    omega

end Cover

end Marked

end RhoFEM.Lib.Runs
