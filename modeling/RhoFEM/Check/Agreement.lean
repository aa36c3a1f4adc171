import RhoFEM.Check.Handlers
import RhoFEM.Layout.Stored

/-! The address points that the two lowerings of a vtable check let pass. -/

namespace RhoFEM.Check

open RhoFEM.CHA RhoFEM.Layout RhoFEM.Lib.Coalesce RhoFEM.Lib.Fold RhoFEM.Lib.Runs RhoFEM.Lib.Search

def RangeCheck.addresses (check : RangeCheck) : Set Address :=
  {a | ∃ i < check.width, a = (check.start.1, check.start.2 + i * check.alignment)}

/-- The address points that one of some checks lets pass. -/
def admitted (checks : List RangeCheck) : Set Address :=
  {a | ∃ check ∈ checks, a ∈ check.addresses}

section Condition

variable (cha : SDBuildCHA) (interleave : Bool) (root : String) (v : Vtbl)

/-- The number of addresses that a range of some width has. They are all the same when the
alignment does not fit into an `unsigned`. -/
def span (width : Nat) : Nat := if alignment cha interleave root = 0 then min width 1 else width

/-- The nodes below `v` that follow each other in preorder, from an index on. -/
def runFrom (i : Nat) : List Vtbl :=
  ((cha.preorder (root, 0)).drop i).takeWhile fun x => x ∈ cha.preorder v

/-- The slots of a run of nodes below `v`: from the first defined one, one for each of them. -/
def RunSlots (b : Lib.Coalesce.Range) : Prop :=
  ∃ i j d, OpensRun (cha.preorder (root, 0)) (fun x => x ∈ cha.preorder v) cha.isDefined i j d ∧
    b = (slotOf cha interleave root d, slotOf cha interleave root d +
      span cha interleave root ((runFrom cha root v i).countP cha.isDefined))

/-- Some slots lie in an interval and leave no hole in it: one begins it, and where one of them
ends, the interval ends or another goes on. -/
structure Fill (slots : Lib.Coalesce.Range → Prop) (start stop : Nat) : Prop where
  begins : ∃ b, slots b ∧ b.1 = start
  inside : ∀ b, slots b → start ≤ b.1 ∧ b.2 ≤ stop
  goesOn : ∀ b, slots b → b.2 = stop ∨ ∃ next, slots next ∧ next.1 ≤ b.2 ∧ b.2 < next.2

/-- Nothing below is defined, or the runs below `v` fill as many slots from its representative on
as the class has paths to defined sub-vtables. -/
def Agrees : Prop :=
  (cha.preorder v).countP cha.isDefined = 0 ∨
    0 < (DefinedPaths cha (v.1, 0)).ncard % 2 ^ 32 ∧
      Fill (RunSlots cha interleave root v) (slotOf cha interleave root (representative cha v))
        (slotOf cha interleave root (representative cha v) +
          span cha interleave root ((DefinedPaths cha (v.1, 0)).ncard % 2 ^ 32))

/-- Each run of nodes below `v` starts where those before it end, counted from the address point
that stands for `v`. -/
def RunsAdjacent : Prop :=
  ∀ i j d, OpensRun (cha.preorder (root, 0)) (fun x => x ∈ cha.preorder v) cha.isDefined i j d →
    addressIndex cha interleave root d =
      addressIndex cha interleave root (representative cha v) +
        (((cha.preorder (root, 0)).take i).countP fun x =>
          decide (x ∈ cha.preorder v) && cha.isDefined x) * alignmentWords cha interleave root

/-- The representative of `v` is the first defined sub-vtable below `v` in preorder, and no other
defined sub-vtable stands between it and another. -/
def Undivided : Prop :=
  ∀ y ∈ cha.preorder v, cha.isDefined y →
    indMap (cha.preorder (root, 0)) (representative cha v) ≤ indMap (cha.preorder (root, 0)) y ∧
      ∀ x ∈ cha.preorder (root, 0), cha.isDefined x →
        indMap (cha.preorder (root, 0)) (representative cha v) ≤
          indMap (cha.preorder (root, 0)) x →
        indMap (cha.preorder (root, 0)) x ≤ indMap (cha.preorder (root, 0)) y →
          x ∈ cha.preorder v

/-- Nothing below is defined, or the paths from the class count what is defined below once each,
and the preorder of the cloud does not take it apart. -/
def CountedOnce : Prop :=
  (cha.preorder v).countP cha.isDefined = 0 ∨
    ((DefinedPaths cha (v.1, 0)).ncard % 2 ^ 32 = (cha.preorder v).countP cha.isDefined ∧
      RunsAdjacent cha interleave root v)

end Condition

section Sets

variable {cha : SDBuildCHA} {interleave : Bool} {root : String}

/-- The address of a slot. -/
def slotAddress (cha : SDBuildCHA) (interleave : Bool) (root : String) (n : Nat) : Address :=
  (newVtableName root, n * (alignmentWords cha interleave root * wordWidth))

theorem slotAddress_injective : (slotAddress cha interleave root).Injective := by
  intro m n hmn
  have hpos : 0 < alignmentWords cha interleave root * wordWidth :=
    Nat.mul_pos alignmentWords_pos (by decide)
  exact Nat.eq_of_mul_eq_mul_right hpos (congrArg Prod.snd hmn)

theorem addressOf_eq (d : Vtbl) : addressOf cha interleave root d =
    slotAddress cha interleave root (slotOf cha interleave root d) := by
  rw [addressOf, slotAddress, addressIndex_eq, Nat.mul_assoc]

/-- The alignment is the distance of two slots, or zero. -/
theorem alignment_cases (hword : ∀ v ∈ cha.preorder (root, 0), (cha.getRange v).2 < 2 ^ 64) :
    alignment cha interleave root = alignmentWords cha interleave root * wordWidth ∨
      alignment cha interleave root = 0 := by
  cases interleave with
  | true => exact .inl rfl
  | false =>
    obtain ⟨b, hb⟩ := cloudMax_two_pow hword
    rw [alignment, alignmentWords, if_neg Bool.false_ne_true, hb]
    by_cases hlt : b < 29
    · left
      apply Nat.mod_eq_of_lt
      calc 2 ^ b * 8 < 2 ^ 29 * 8 :=
            Nat.mul_lt_mul_of_pos_right (Nat.pow_lt_pow_right (by decide) hlt) (by decide)
        _ = 2 ^ 32 := rfl
    · right
      obtain ⟨k, rfl⟩ := Nat.exists_eq_add_of_le (Nat.not_lt.mp hlt)
      rw [Nat.pow_add, Nat.mul_right_comm]
      exact Nat.mul_mod_right (2 ^ 32) _

theorem addresses_eq (hword : ∀ v ∈ cha.preorder (root, 0), (cha.getRange v).2 < 2 ^ 64)
    (n width : Nat) :
    (⟨slotAddress cha interleave root n, width, alignment cha interleave root⟩ :
      RangeCheck).addresses = slotAddress cha interleave root ''
        {m | n ≤ m ∧ m < n + span cha interleave root width} := by
  ext a
  by_cases hzero : alignment cha interleave root = 0
  · rw [span, if_pos hzero]
    constructor
    · rintro ⟨i, hi, rfl⟩
      dsimp only at hi ⊢
      rw [hzero, Nat.mul_zero, Nat.add_zero]
      exact ⟨n, ⟨le_refl n, by omega⟩, rfl⟩
    · rintro ⟨m, ⟨hlo, hhi⟩, rfl⟩
      obtain rfl : n = m := by omega
      refine ⟨0, show 0 < width by omega, ?_⟩
      rw [Nat.zero_mul, Nat.add_zero]
  · rw [span, if_neg hzero, (alignment_cases hword).resolve_right hzero]
    constructor
    · rintro ⟨i, hi, rfl⟩
      refine ⟨n + i, ⟨Nat.le_add_right _ _, Nat.add_lt_add_left hi _⟩, ?_⟩
      rw [slotAddress, slotAddress, Nat.add_mul]
    · rintro ⟨m, ⟨hlo, hhi⟩, rfl⟩
      refine ⟨m - n, Nat.sub_lt_left_of_lt_add hlo hhi, ?_⟩
      rw [slotAddress, slotAddress, ← Nat.add_mul, Nat.add_sub_cancel' hlo]

theorem blockOf_eq (range : CHA.Range) : blockOf cha interleave root range =
    (slotRange cha.isDefined (cha.preorder (root, 0)) (slotOf cha interleave root) range).map
      fun b => (slotAddress cha interleave root b.1, b.2 - b.1) := by
  rw [blockOf, slotRange, Option.map_map]
  congr 1
  funext start
  rw [Function.comp, addressOf_eq, Nat.add_sub_cancel_left]

/-- The slots of a range of indices, as far as its addresses differ. -/
def slotsOf (cha : SDBuildCHA) (interleave : Bool) (root : String) (range : CHA.Range) :
    Option Lib.Coalesce.Range :=
  (slotRange cha.isDefined (cha.preorder (root, 0)) (slotOf cha interleave root) range).map
    fun b => (b.1, b.1 + span cha interleave root (b.2 - b.1))

theorem span_pos {width : Nat} (h : 0 < width) : 0 < span cha interleave root width := by
  rw [span]
  split <;> omega

theorem span_zero : span cha interleave root 0 = 0 := by
  rw [span]
  split <;> rfl

theorem countP_below (hroot : root ∈ cha.roots) {v : Vtbl} (hv : v ∈ cha.preorder (root, 0)) :
    ((cha.preorder (root, 0)).countP fun x => decide (x ∈ cha.preorder v) && cha.isDefined x) =
      (cha.preorder v).countP cha.isDefined := by
  rw [List.countP_eq_length_filter, List.countP_eq_length_filter]
  apply List.Perm.length_eq
  rw [List.perm_ext_iff_of_nodup ((cha.preorder_nodup _).filter _)
    ((cha.preorder_nodup _).filter _)]
  intro x
  rw [List.mem_filter, List.mem_filter, Bool.and_eq_true, decide_eq_true_eq]
  constructor
  · exact fun h => h.2
  · rintro ⟨hx, hdef⟩
    exact ⟨(InCloud.reaches ⟨hroot, hv⟩ ((cha.mem_preorder_iff v x).mp hx)).2, hx, hdef⟩

/-- There is a representative when something below is defined. -/
theorem representative_cases (v : Vtbl) :
    (0 < (cha.preorder v).countP cha.isDefined ∧
      (¬ cha.isUndefined v ∨ (cha.firstDefinedChild v).isSome) ∧
        representative cha v ∈ cha.preorder v ∧ cha.isDefined (representative cha v)) ∨
    ((cha.preorder v).countP cha.isDefined = 0 ∧
      ¬ (¬ cha.isUndefined v ∨ (cha.firstDefinedChild v).isSome)) := by
  rw [representative]
  by_cases hundef : cha.isUndefined v
  · rw [if_pos hundef]
    cases hfirst : cha.firstDefinedChild v with
    | none =>
      refine .inr ⟨?_, by simp [hundef]⟩
      rw [List.countP_eq_zero]
      intro x hx hdef
      have hnot := List.find?_eq_none.mp hfirst x hx
      have hne : x ≠ v := by
        rintro rfl
        simp [SDBuildCHA.isDefined, hundef] at hdef
      simp [hne, hdef] at hnot
    | some c =>
      have hc := List.mem_of_find?_eq_some hfirst
      have hfound := List.find?_some hfirst
      have hdef : cha.isDefined c := by
        simp only [Bool.and_eq_true] at hfound
        exact hfound.2
      exact .inl ⟨List.countP_pos_iff.mpr ⟨c, hc, hdef⟩, .inr rfl, hc, hdef⟩
  · rw [if_neg hundef]
    have hdef : cha.isDefined v := SDBuildCHA.isDefined_iff.mpr hundef
    have hself : v ∈ cha.preorder v := (cha.mem_preorder_iff v v).mpr .refl
    exact .inl ⟨List.countP_pos_iff.mpr ⟨v, hself, hdef⟩, .inl hundef, hself, hdef⟩

end Sets

section Handlers

variable {cha : SDBuildCHA} {interleave : Bool} {root : String} {st : SDLayoutBuilder}
  (h : Accepted cha) (hst : Stored cha interleave cha.roots st)
  (hword : ∀ v ∈ cha.preorder (root, 0), (cha.getRange v).2 < 2 ^ 64)
  {className preciseClassName : String} {v : Vtbl} (hv : InCloud cha root v)
include hst hv

include h in
theorem alignmentOf_eq : alignmentOf cha st v = .ok (alignment cha interleave root) := by
  rw [alignmentOf, h.ancestor hv]
  dsimp only
  rw [hst.addressed.located.alignmentMap root hv.1]

theorem newVTableStartAddrMap_eq (hdef : cha.isDefined v) :
    st.newVTableStartAddrMap v = some (addressOf cha interleave root v) := by
  obtain ⟨a, ha⟩ := Option.isSome_iff_exists.mp (hst.addressed.stored root hv.1 v hv.2 hdef)
  rw [ha, hst.addressed.starts hv hdef ha]

include h hword in
theorem admitted_checkVtbl (hcheck : checkVtbl cha className preciseClassName = v)
    (hknown : v ∈ cha.cloudMap) (sizes : CloudSizeMap) :
    ∃ checks, handleSDCheckVtbl cha st sizes className preciseClassName = .ok checks ∧
      admitted checks = slotAddress cha interleave root ''
        {n | 0 < (cha.preorder v).countP cha.isDefined ∧
          slotOf cha interleave root (representative cha v) ≤ n ∧
            n < slotOf cha interleave root (representative cha v) +
              span cha interleave root (getCloudSize sizes v.1)} := by
  have hknows : cha.knowsAbout v := decide_eq_true hknown
  rw [handleSDCheckVtbl, hcheck]
  obtain ⟨hpos, hfound, hmem, hdef⟩ | ⟨hzero, hnone⟩ := @representative_cases cha v
  · have hrep : InCloud cha root (representative cha v) :=
      hv.reaches ((cha.mem_preorder_iff v _).mp hmem)
    simp only [if_pos (And.intro hknows hfound), newVTableStartAddrMap_eq hst hrep hdef,
      alignmentOf_eq h hst hv]
    refine ⟨_, rfl, ?_⟩
    simp only [admitted, List.mem_singleton, exists_eq_left, hpos, true_and, Set.ofPred_mem_eq,
      addressOf_eq, addresses_eq hword]
  · simp only [if_neg (fun hand : _ ∧ _ => hnone hand.2)]
    refine ⟨_, rfl, ?_⟩
    simp [admitted, hzero]

include h hword in
theorem admitted_checkedVptr (hcheck : checkedVptr cha className preciseClassName = v) :
    ∃ checks ranges, handleSDGetCheckedVtbl cha st className preciseClassName = .ok checks ∧
      Exact cha (cha.preorder (root, 0)) v ranges ∧
        admitted checks = slotAddress cha interleave root '' {n | Covers (ranges.filterMap
          (slotsOf cha interleave root)) n} := by
  obtain ⟨ranges, hexact, hmem⟩ := hst.memRangeMap root hv.1 v hv.2
  have hadmitted : ∀ checks : List RangeCheck, (∀ check, check ∈ checks ↔
      ∃ r ∈ st.memRangeMap v, check = ⟨r.1, r.2, alignment cha interleave root⟩) →
        admitted checks = slotAddress cha interleave root '' {n | Covers (ranges.filterMap
          (slotsOf cha interleave root)) n} := by
    intro checks hchecks
    have hblock : ∀ r : Address × Nat, r ∈ st.memRangeMap v ↔ ∃ range ∈ ranges,
        ∃ b, slotRange cha.isDefined (cha.preorder (root, 0)) (slotOf cha interleave root) range =
          some b ∧ (slotAddress cha interleave root b.1, b.2 - b.1) = r := by
      intro r
      simp only [hmem, List.mem_filterMap, blockOf_eq, Option.map_eq_some_iff]
    ext a
    constructor
    · rintro ⟨check, hcheck, ha⟩
      obtain ⟨r, hr, rfl⟩ := (hchecks check).mp hcheck
      obtain ⟨range, hrange, b, hb, rfl⟩ := (hblock r).mp hr
      rw [addresses_eq hword] at ha
      obtain ⟨n, hn, rfl⟩ := ha
      have hslots : slotsOf cha interleave root range =
          some (b.1, b.1 + span cha interleave root (b.2 - b.1)) := by
        rw [slotsOf, hb, Option.map_some]
      exact ⟨n, ⟨_, List.mem_filterMap.mpr ⟨range, hrange, hslots⟩, hn⟩, rfl⟩
    · rintro ⟨n, ⟨s, hs, hn⟩, rfl⟩
      obtain ⟨range, hrange, hslots⟩ := List.mem_filterMap.mp hs
      obtain ⟨b, hb, rfl⟩ := Option.map_eq_some_iff.mp hslots
      refine ⟨_, (hchecks _).mpr ⟨_, (hblock _).mpr ⟨range, hrange, b, hb, rfl⟩, rfl⟩, ?_⟩
      rw [addresses_eq hword]
      exact ⟨n, hn, rfl⟩
  rw [handleSDGetCheckedVtbl, hcheck]
  by_cases hnil : st.memRangeMap v = []
  · simp only [if_pos hnil]
    exact ⟨_, ranges, rfl, hexact, hadmitted _ (by simp [hnil])⟩
  · simp only [if_neg hnil, alignmentOf_eq h hst hv]
    refine ⟨_, ranges, rfl, hexact, hadmitted _ ?_⟩
    intro check
    simp [List.mem_mergeSort, eq_comm]

end Handlers

/-- The two lowerings look at the same sub-vtable, unless only the other order of the classes finds
one. -/
theorem checkedVptr_eq {cha : SDBuildCHA} {className preciseClassName : String}
    (hprecise : preciseClassName = className ∨
      (cha.getSubVTableIndex preciseClassName className).isSome) :
    checkedVptr cha className preciseClassName = checkVtbl cha className preciseClassName := by
  rw [checkedVptr, checkVtbl]
  rcases hprecise with heq | hsome
  · rw [if_neg fun hand => hand.2 heq, if_neg fun hand => hand.2 heq]
  · obtain ⟨ind, hind⟩ := Option.isSome_iff_exists.mp hsome
    rw [hind]

section Agreement

variable {cha : SDBuildCHA} {interleave : Bool} {root : String} {v : Vtbl}

theorem exact_covers_iff (hv : InCloud cha root v) {ranges : List CHA.Range}
    (h : Exact cha (cha.preorder (root, 0)) v ranges) (i : Nat) :
    Covers ranges i ↔ ∃ x, (cha.preorder (root, 0))[i]? = some x ∧
      decide (x ∈ cha.preorder v) = true := by
  rw [h.covers i]
  constructor
  · rintro ⟨x, hreach, rfl⟩
    exact ⟨x, getElem?_indMap (hv.reaches hreach).2,
      decide_eq_true ((cha.mem_preorder_iff v x).mpr hreach)⟩
  · rintro ⟨x, hx, hbelow⟩
    exact ⟨x, (cha.mem_preorder_iff v x).mp (of_decide_eq_true hbelow),
      indMap_of_getElem? (cha.preorder_nodup _) hx⟩

/-- The slots of the ranges are those of the runs. -/
theorem mem_slotsOf_iff (hv : InCloud cha root v) {ranges : List CHA.Range}
    (hexact : Exact cha (cha.preorder (root, 0)) v ranges) (b : Lib.Coalesce.Range) :
    b ∈ ranges.filterMap (slotsOf cha interleave root) ↔ RunSlots cha interleave root v b := by
  have hmem (s : Lib.Coalesce.Range) : s ∈ ranges.filterMap (slotRange cha.isDefined
        (cha.preorder (root, 0)) (slotOf cha interleave root)) ↔ _ :=
    mem_slotRanges_iff (exact_covers_iff hv hexact) hexact.gaps s
  have hmap : ranges.filterMap (slotsOf cha interleave root) =
      (ranges.filterMap (slotRange cha.isDefined (cha.preorder (root, 0))
        (slotOf cha interleave root))).map
          fun b => (b.1, b.1 + span cha interleave root (b.2 - b.1)) := by
    rw [List.map_filterMap]
    rfl
  rw [hmap, List.mem_map, RunSlots]
  constructor
  · rintro ⟨s, hs, rfl⟩
    obtain ⟨i, j, d, hopens, rfl⟩ := (hmem s).mp hs
    exact ⟨i, j, d, hopens, by rw [Nat.add_sub_cancel_left]; rfl⟩
  · rintro ⟨i, j, d, hopens, rfl⟩
    exact ⟨_, (hmem _).mpr ⟨i, j, d, hopens, rfl⟩, by rw [Nat.add_sub_cancel_left]; rfl⟩

theorem proper_slotsOf (ranges : List CHA.Range) :
    Proper (ranges.filterMap (slotsOf cha interleave root)) := by
  intro b hb
  obtain ⟨range, -, hslots⟩ := List.mem_filterMap.mp hb
  obtain ⟨s, hs, rfl⟩ := Option.map_eq_some_iff.mp hslots
  have hproper : s.1 < s.2 := proper_slotRanges [range] s (by rw [List.filterMap_cons, hs]; simp)
  exact Nat.lt_add_of_pos_right (span_pos (Nat.sub_pos_of_lt hproper))

/-- The slots of the ranges are those from the representative on, as many as the class has
paths. -/
theorem interval_iff_agrees (hv : InCloud cha root v)
    {ranges : List CHA.Range} (hexact : Exact cha (cha.preorder (root, 0)) v ranges) :
    (∀ n, Covers (ranges.filterMap (slotsOf cha interleave root)) n ↔
        0 < (cha.preorder v).countP cha.isDefined ∧
          slotOf cha interleave root (representative cha v) ≤ n ∧
            n < slotOf cha interleave root (representative cha v) +
              span cha interleave root ((DefinedPaths cha (v.1, 0)).ncard % 2 ^ 32)) ↔
      Agrees cha interleave root v := by
  by_cases hpos : 0 < (cha.preorder v).countP cha.isDefined
  · simp only [hpos, true_and]
    rw [Agrees, or_iff_right hpos.ne']
    -- what is defined below has a slot
    obtain ⟨y, hy, hdef⟩ := List.countP_pos_iff.mp hpos
    have hcloud := hv.reaches ((cha.mem_preorder_iff v y).mp hy)
    obtain ⟨i, j, d, hopens, -⟩ := exists_opensRun (exact_covers_iff hv hexact) hexact.gaps
      (getElem?_indMap hcloud.2) (decide_eq_true hy) hdef
    have hsome : _ ∈ ranges.filterMap (slotsOf cha interleave root) :=
      (mem_slotsOf_iff hv hexact _).mpr ⟨i, j, d, hopens, rfl⟩
    by_cases hpaths : 0 < (DefinedPaths cha (v.1, 0)).ncard % 2 ^ 32
    · rw [covers_Ico_iff (proper_slotsOf ranges) (Nat.lt_add_of_pos_right (span_pos hpaths))]
      simp only [mem_slotsOf_iff hv hexact, Covers, hpaths, true_and]
      constructor
      · rintro ⟨hbegins, hall⟩
        exact ⟨hbegins, fun b hb => ⟨(hall b hb).1, (hall b hb).2.1⟩, fun b hb => (hall b hb).2.2⟩
      · rintro ⟨hbegins, hinside, hgoesOn⟩
        exact ⟨hbegins, fun b hb => ⟨(hinside b hb).1, (hinside b hb).2, hgoesOn b hb⟩⟩
    · refine iff_of_false ?_ fun hand => hpaths hand.1
      intro hempty
      have hstart := (hempty _).mp ⟨_, hsome, le_refl _, proper_slotsOf ranges _ hsome⟩
      rw [Nat.eq_zero_of_not_pos hpaths, span_zero] at hstart
      omega
  · refine iff_of_true ?_ (.inl (Nat.eq_zero_of_not_pos hpos))
    intro n
    refine iff_of_false ?_ fun hand => hpos hand.1
    rintro ⟨b, hb, -⟩
    obtain ⟨i, j, d, hopens, -⟩ := (mem_slotsOf_iff hv hexact b).mp hb
    exact hpos (List.countP_pos_iff.mpr ⟨d, of_decide_eq_true hopens.isBelow, hopens.isMarked⟩)

theorem filterMap_slotsOf (halign : alignment cha interleave root ≠ 0)
    (ranges : List CHA.Range) : ranges.filterMap (slotsOf cha interleave root) =
      ranges.filterMap (slotRange cha.isDefined (cha.preorder (root, 0))
        (slotOf cha interleave root)) := by
  apply List.filterMap_congr
  intro range _
  rw [slotsOf]
  cases hslots : slotRange cha.isDefined (cha.preorder (root, 0))
      (slotOf cha interleave root) range with
  | none => rfl
  | some b =>
    obtain ⟨_, _, -, -, -, -, -, rfl⟩ := slotRange_eq_some hslots
    rw [Option.map_some, span, if_neg halign, Nat.add_sub_cancel_left]

/-- Where each sub-vtable extends its parents, the slots follow the preorder, and the runs have to
come one after the other. -/
theorem agrees_iff_countedOnce (h : WellFormed cha) (hv : InCloud cha root v)
    (halign : alignment cha interleave root ≠ 0)
    {ranges : List CHA.Range} (hexact : Exact cha (cha.preorder (root, 0)) v ranges) :
    Agrees cha interleave root v ↔ CountedOnce cha interleave root v := by
  rw [← interval_iff_agrees hv hexact, filterMap_slotsOf halign, span, if_neg halign]
  have hcover : ∀ start width, (∀ n, Covers (ranges.filterMap (slotRange cha.isDefined
      (cha.preorder (root, 0)) (slotOf cha interleave root))) n ↔ start ≤ n ∧ n < start + width) ↔
        width = (cha.preorder v).countP cha.isDefined ∧ ∀ i j d,
          OpensRun (cha.preorder (root, 0)) (fun x => x ∈ cha.preorder v) cha.isDefined i j d →
            slotOf cha interleave root d = start + ((cha.preorder (root, 0)).take i).countP fun x =>
              decide (x ∈ cha.preorder v) && cha.isDefined x := by
    rw [← countP_below hv.1 hv.2]
    exact covers_slotRanges_iff (h.slotOf_lt hv.1) (exact_covers_iff hv hexact) hexact.gaps
  by_cases hpos : 0 < (cha.preorder v).countP cha.isDefined
  · have hruns : RunsAdjacent cha interleave root v ↔ ∀ i j d,
        OpensRun (cha.preorder (root, 0)) (fun x => x ∈ cha.preorder v) cha.isDefined i j d →
          slotOf cha interleave root d = slotOf cha interleave root (representative cha v) +
            ((cha.preorder (root, 0)).take i).countP fun x =>
              decide (x ∈ cha.preorder v) && cha.isDefined x := by
      refine forall_congr' fun i => forall_congr' fun j => forall_congr' fun d => imp_congr_right ?_
      intro _
      rw [addressIndex_eq, addressIndex_eq, ← Nat.add_mul]
      exact Nat.mul_left_inj alignmentWords_pos.ne'
    simp only [hpos, true_and]
    rw [hcover, ← hruns, CountedOnce, or_iff_right hpos.ne']
  · have hzero : (cha.preorder v).countP cha.isDefined = 0 := Nat.eq_zero_of_not_pos hpos
    refine iff_of_true ?_ (.inl hzero)
    have hempty := (hcover 0 0).mpr ⟨hzero.symm, ?_⟩
    · simpa [hzero] using hempty
    · intro i j d hopens
      exact absurd hopens.isMarked
        (List.countP_eq_zero.mp hzero d (of_decide_eq_true hopens.isBelow))

/-- In an interleaved cloud the runs are adjacent when nothing comes between them. -/
theorem runsAdjacent_iff_undivided (h : WellFormed cha) (hv : InCloud cha root v)
    {ranges : List CHA.Range} (hexact : Exact cha (cha.preorder (root, 0)) v ranges) :
    RunsAdjacent cha true root v ↔ Undivided cha root v := by
  obtain ⟨-, -, hmem, -⟩ | ⟨hzero, -⟩ := @representative_cases cha v
  · have hrep : InCloud cha root (representative cha v) :=
      hv.reaches ((cha.mem_preorder_iff v _).mp hmem)
    have hfollow := @runs_follow_iff Vtbl cha.isDefined _ _ _ (exact_covers_iff hv hexact)
      hexact.gaps (indMap (cha.preorder (root, 0)) (representative cha v))
    have hruns : RunsAdjacent cha true root v ↔ ∀ i j d,
        OpensRun (cha.preorder (root, 0)) (fun x => x ∈ cha.preorder v) cha.isDefined i j d →
          rank cha.isDefined (cha.preorder (root, 0)) j = rank cha.isDefined
              (cha.preorder (root, 0)) (indMap (cha.preorder (root, 0)) (representative cha v)) +
            ((cha.preorder (root, 0)).take i).countP fun x =>
              decide (x ∈ cha.preorder v) && cha.isDefined x := by
      refine forall_congr' fun i => forall_congr' fun j => forall_congr' fun d =>
        forall_congr' fun hopens => ?_
      have hd : InCloud cha root d := ⟨hv.1, List.mem_of_getElem? hopens.found⟩
      rw [h.addressIndex_interleaved hv.1, h.addressIndex_interleaved hv.1, h.newIndex_zero hd,
        h.newIndex_zero hrep, indMap_of_getElem? (cha.preorder_nodup _) hopens.found,
        alignmentWords, if_pos rfl, Nat.mul_one, Nat.add_assoc, Nat.add_left_cancel_iff]
    rw [hruns, hfollow]
    constructor
    · intro hall y hy hdef
      have hcloud := hv.reaches ((cha.mem_preorder_iff v y).mp hy)
      obtain ⟨hle, hbetween⟩ := hall _ y (getElem?_indMap hcloud.2) (decide_eq_true hy) hdef
      exact ⟨hle, fun x hx hdefx hlo hhi => of_decide_eq_true
        (hbetween _ x hlo hhi (getElem?_indMap hx) hdefx)⟩
    · intro hall j y hj hbelow hdef
      obtain ⟨hle, hbetween⟩ := hall y (of_decide_eq_true hbelow) hdef
      rw [indMap_of_getElem? (cha.preorder_nodup _) hj] at hle hbetween
      refine ⟨hle, ?_⟩
      intro i x hlo hhi hi hdefx
      have hind := indMap_of_getElem? (cha.preorder_nodup _) hi
      exact decide_eq_true (hbetween x (List.mem_of_getElem? hi) hdefx (hind.symm ▸ hlo)
        (hind.symm ▸ hhi))
  · have hnone := List.countP_eq_zero.mp hzero
    refine iff_of_true ?_ fun y hy hdef => absurd hdef (hnone y hy)
    exact fun i j d hopens => absurd hopens.isMarked (hnone d (of_decide_eq_true hopens.isBelow))

/-- The two lowerings let the same address points pass exactly when the layout keeps what is
defined below together, in as many slots as the class has paths. Where each sub-vtable extends its
parents, the paths then count the sub-vtables below once each. -/
theorem lowerings_agree_iff {initializer : String → Option (List Constant)} {infoVec : List Nmd}
    (hacyclic : AcyclicMetadata infoVec) (hlisted : ParentsListed infoVec)
    (hcha : buildClouds initializer infoVec = .ok cha) (h : Accepted cha)
    (hword : ∀ v ∈ cha.preorder (root, 0), (cha.getRange v).2 < 2 ^ 64)
    {functions : List String} {st : SDLayoutBuilder}
    (hst : buildNewLayouts cha interleave functions = .ok st) {cloudSizeMap : CloudSizeMap}
    (hsizes : calculateCloudSizes cha = .ok cloudSizeMap) {className preciseClassName : String}
    (hprecise : preciseClassName = className ∨
      (cha.getSubVTableIndex preciseClassName className).isSome)
    (hv : InCloud cha root (checkVtbl cha className preciseClassName)) :
    checkedVptr cha className preciseClassName = checkVtbl cha className preciseClassName ∧
    ∃ checks ranges,
      handleSDCheckVtbl cha st cloudSizeMap className preciseClassName = .ok checks ∧
      handleSDGetCheckedVtbl cha st className preciseClassName = .ok ranges ∧
      (admitted checks = admitted ranges ↔
        Agrees cha interleave root (checkVtbl cha className preciseClassName)) ∧
      (WellFormed cha → alignment cha interleave root ≠ 0 →
        (Agrees cha interleave root (checkVtbl cha className preciseClassName) ↔
          CountedOnce cha interleave root (checkVtbl cha className preciseClassName))) ∧
      (WellFormed cha → interleave = true →
        (RunsAdjacent cha interleave root (checkVtbl cha className preciseClassName) ↔
          Undivided cha root (checkVtbl cha className preciseClassName))) := by
  refine ⟨checkedVptr_eq hprecise, ?_⟩
  have hstored := stored_of_build h hst
  have hknown : checkVtbl cha className preciseClassName ∈ cha.cloudMap :=
    mem_cloudMap_of_reaches hcha hv.1 ((cha.mem_preorder_iff _ _).mp hv.2)
  obtain ⟨checks, hchecks, hsingle⟩ := admitted_checkVtbl h hstored hword hv rfl hknown cloudSizeMap
  obtain ⟨ranges, rs, hranges, hexact, hlist⟩ :=
    admitted_checkedVptr h hstored hword hv (checkedVptr_eq hprecise)
  refine ⟨checks, ranges, hchecks, hranges, ?_,
    fun hextends halign => agrees_iff_countedOnce hextends hv halign hexact, ?same⟩
  case same =>
    rintro hextends rfl
    exact runsAdjacent_iff_undivided hextends hv hexact
  generalize checkVtbl cha className preciseClassName = v at *
  obtain ⟨m, hm, hcounted⟩ := calculateCloudSizes_ok h.acyclic (buildClouds_children_nodup hcha)
  obtain rfl := Except.ok.inj (hm.symm.trans hsizes)
  have hsize : getCloudSize m v.1 = (DefinedPaths cha (v.1, 0)).ncard % 2 ^ 32 := by
    have hfirst := exists_root hcha hacyclic (fun _ _ hsub => (hlisted.of_recorded hsub).1) _
      (mem_cloudMap_first hcha hknown)
    rw [getCloudSize, hcounted.of_mem _ hfirst, Option.getD_some]
  rw [hsingle, hlist, slotAddress_injective.image_injective.eq_iff, hsize, eq_comm,
    ← interval_iff_agrees hv hexact, Set.ext_iff]
  rfl

end Agreement

/-- `D` stands before `C` in the preorder, and `E` between them. -/
theorem diamond_lowerings {cha : SDBuildCHA}
    (hcha : buildClouds diamondVTables diamondClasses = .ok cha) :
    ∃ st cloudSizeMap, buildNewLayouts cha true [] = .ok st ∧
      calculateCloudSizes cha = .ok cloudSizeMap ∧
      InCloud cha "_ZTV1A" (checkVtbl cha "_ZTV1C" "_ZTV1C") ∧
      handleSDCheckVtbl cha st cloudSizeMap "_ZTV1C" "_ZTV1C" =
        .ok [⟨("_SD_ZTV1A", 56), 2, 8⟩] ∧
      handleSDGetCheckedVtbl cha st "_ZTV1C" "_ZTV1C" =
        .ok [⟨("_SD_ZTV1A", 40), 1, 8⟩, ⟨("_SD_ZTV1A", 56), 1, 8⟩] := by
  have hok := eq_ok_of_isOk (x := buildClouds diamondVTables diamondClasses) .empty (by decide)
  obtain rfl := Except.ok.inj (hok.symm.trans hcha)
  refine ⟨_, _, eq_ok_of_isOk (.init []) (by decide), eq_ok_of_isOk (fun _ => none) (by decide),
    by constructor <;> decide, by decide, ?_⟩
  generalize hst : (buildNewLayouts _ true []).toOption.getD (.init []) = st
  have hmem : st.memRangeMap ("_ZTV1C", 0) = [(("_SD_ZTV1A", 40), 1), (("_SD_ZTV1A", 56), 1)] := by
    rw [← hst]
    decide
  have halign : alignmentOf ((buildClouds diamondVTables diamondClasses).toOption.getD .empty) st
      ("_ZTV1C", 0) = .ok 8 := by
    rw [← hst]
    decide
  have hvtbl : checkedVptr ((buildClouds diamondVTables diamondClasses).toOption.getD .empty)
      "_ZTV1C" "_ZTV1C" = ("_ZTV1C", 0) := by decide
  rw [handleSDGetCheckedVtbl, hvtbl]
  simp only [hmem, halign]
  rw [if_neg (List.cons_ne_nil _ _), List.mergeSort_of_pairwise (by simp)]
  rfl

theorem lowerings_agree_iff_diamond : ∃ cha st cloudSizeMap,
    buildClouds diamondVTables diamondClasses = .ok cha ∧ buildNewLayouts cha true [] = .ok st ∧
      calculateCloudSizes cha = .ok cloudSizeMap ∧
      checkedVptr cha "_ZTV1C" "_ZTV1C" = checkVtbl cha "_ZTV1C" "_ZTV1C" ∧
      ∃ checks ranges,
        handleSDCheckVtbl cha st cloudSizeMap "_ZTV1C" "_ZTV1C" = .ok checks ∧
        handleSDGetCheckedVtbl cha st "_ZTV1C" "_ZTV1C" = .ok ranges ∧
        (admitted checks = admitted ranges ↔
          Agrees cha true "_ZTV1A" (checkVtbl cha "_ZTV1C" "_ZTV1C")) ∧
        (WellFormed cha → alignment cha true "_ZTV1A" ≠ 0 →
          (Agrees cha true "_ZTV1A" (checkVtbl cha "_ZTV1C" "_ZTV1C") ↔
            CountedOnce cha true "_ZTV1A" (checkVtbl cha "_ZTV1C" "_ZTV1C"))) ∧
        (WellFormed cha → true = true →
          (RunsAdjacent cha true "_ZTV1A" (checkVtbl cha "_ZTV1C" "_ZTV1C") ↔
          Undivided cha "_ZTV1A" (checkVtbl cha "_ZTV1C" "_ZTV1C"))) := by
  have hcha := eq_ok_of_isOk (x := buildClouds diamondVTables diamondClasses) .empty (by decide)
  obtain ⟨st, cloudSizeMap, hst, hsizes, hv, -, -⟩ := diamond_lowerings hcha
  exact ⟨_, st, cloudSizeMap, hcha, hst, hsizes, lowerings_agree_iff
    (acyclicMetadata_of_lt (by decide)) (by decide) hcha (diamond_wellFormed hcha).1.toAccepted
      (by decide) hst
    hsizes (.inl rfl) hv⟩

/-- The address point of `D` is let pass by the ranges only. -/
theorem lowerings_disagree : ∃ cha st cloudSizeMap checks ranges,
    buildClouds diamondVTables diamondClasses = .ok cha ∧ buildNewLayouts cha true [] = .ok st ∧
      calculateCloudSizes cha = .ok cloudSizeMap ∧
      InCloud cha "_ZTV1A" (checkVtbl cha "_ZTV1C" "_ZTV1C") ∧
      handleSDCheckVtbl cha st cloudSizeMap "_ZTV1C" "_ZTV1C" = .ok checks ∧
      handleSDGetCheckedVtbl cha st "_ZTV1C" "_ZTV1C" = .ok ranges ∧
      ("_SD_ZTV1A", 40) ∈ admitted ranges ∧ ("_SD_ZTV1A", 40) ∉ admitted checks ∧
      admitted checks ≠ admitted ranges := by
  have hcha := eq_ok_of_isOk (x := buildClouds diamondVTables diamondClasses) .empty (by decide)
  obtain ⟨st, cloudSizeMap, hst, hsizes, hv, hchecks, hranges⟩ := diamond_lowerings hcha
  have hin : ("_SD_ZTV1A", 40) ∈ admitted
      [⟨("_SD_ZTV1A", 40), 1, 8⟩, ⟨("_SD_ZTV1A", 56), 1, 8⟩] :=
    ⟨_, List.mem_cons_self, 0, Nat.one_pos, rfl⟩
  have hout : ("_SD_ZTV1A", 40) ∉ admitted [⟨("_SD_ZTV1A", 56), 2, 8⟩] := by
    rintro ⟨check, hcheck, i, -, heq⟩
    obtain rfl := List.mem_singleton.mp hcheck
    have hoffset := congrArg Prod.snd heq
    dsimp only at hoffset
    omega
  exact ⟨_, st, cloudSizeMap, _, _, hcha, hst, hsizes, hv, hchecks, hranges, hin, hout,
    fun heq => hout (heq ▸ hin)⟩

end RhoFEM.Check
