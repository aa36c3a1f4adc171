import RhoFEM.Layout.Emit

/-! The third loop of `buildNewLayouts`: the ranges of preorder indices below each
sub-vtable, and the address ranges that they become. -/

namespace RhoFEM.Layout

open RhoFEM.CHA RhoFEM.Lib.Coalesce RhoFEM.Lib.Fold RhoFEM.Lib.Rounds RhoFEM.Lib.Search

section Helper

variable (cha : SDBuildCHA) (preorder : List Vtbl)

/-- Ranges with gaps that hold exactly the indices of the nodes below one. -/
structure Exact (v : Vtbl) (ranges : List CHA.Range) : Prop where
  covers : ∀ i, Covers ranges i ↔ ∃ x, Reaches cha.children v x ∧ indMap preorder x = i
  gaps : Gaps ranges

/-- What the recursion does to the map of ranges. -/
structure Memo (m m' : Vtbl → Option (List CHA.Range)) : Prop where
  exact : ∀ v ∈ preorder, ∀ ranges, m' v = some ranges → Exact cha preorder v ranges
  closed : ∀ v ∈ preorder, (m' v).isSome → ∀ child ∈ cha.children v, (m' child).isSome
  keep : ∀ v, (m v).isSome → m' v = m v
  outside : ∀ v ∉ preorder, m' v = m v

variable {cha preorder}

theorem Memo.trans {m m' m'' : Vtbl → Option (List CHA.Range)} (h : Memo cha preorder m m')
    (h' : Memo cha preorder m' m'') : Memo cha preorder m m'' where
  exact := h'.exact
  closed := h'.closed
  keep v hv := (h'.keep v (by rwa [h.keep v hv])).trans (h.keep v hv)
  outside v hv := (h'.outside v hv).trans (h.outside v hv)

theorem covers_children {v : Vtbl} {m : Vtbl → Option (List CHA.Range)}
    (hexact : ∀ child ∈ cha.children v, ∃ ranges, m child = some ranges ∧
      Exact cha preorder child ranges) (i : Nat) :
    Covers ((indMap preorder v, indMap preorder v + 1) ::
        (cha.children v).flatMap fun child => (m child).getD []) i ↔
      ∃ x, Reaches cha.children v x ∧ indMap preorder x = i := by
  rw [covers_cons]
  have hself : (indMap preorder v ≤ i ∧ i < indMap preorder v + 1) ↔ indMap preorder v = i := by
    omega
  rw [hself]
  constructor
  · intro h
    rcases h with hi | ⟨r, hr, hcover⟩
    · exact ⟨v, .refl, hi⟩
    · obtain ⟨child, hchild, hmem⟩ := List.mem_flatMap.mp hr
      obtain ⟨ranges, hranges, hex⟩ := hexact child hchild
      rw [hranges, Option.getD_some] at hmem
      obtain ⟨x, hreach, hx⟩ := (hex.covers i).mp ⟨r, hmem, hcover⟩
      exact ⟨x, .head hchild hreach, hx⟩
  · intro h
    obtain ⟨x, hreach, hx⟩ := h
    rcases Relation.ReflTransGen.cases_head_iff.mp hreach with rfl | ⟨child, hchild, hrest⟩
    · exact .inl hx
    · obtain ⟨ranges, hranges, hex⟩ := hexact child hchild
      obtain ⟨r, hr, hcover⟩ := (hex.covers i).mpr ⟨x, hrest, hx⟩
      exact .inr ⟨r, List.mem_flatMap.mpr ⟨child, hchild, by rwa [hranges]⟩, hcover⟩

/-- Storing the ranges of a node after those of its children. -/
theorem Memo.store {m m' : Vtbl → Option (List CHA.Range)} (h : Memo cha preorder m m') {v : Vtbl}
    (hv : v ∈ preorder) (hnone : m v = none)
    (hpre : ∀ child ∈ cha.children v, child ∈ preorder)
    (hchildren : ∀ child ∈ cha.children v, (m' child).isSome) :
    Memo cha preorder m (Function.update m' v (some (coalesce (sortRanges
      ((indMap preorder v, indMap preorder v + 1) ::
        (cha.children v).flatMap fun child => (m' child).getD []))))) where
  exact w hw ranges hranges := by
    by_cases hwv : w = v
    · subst hwv
      rw [Function.update_self] at hranges
      obtain rfl := Option.some.inj hranges
      refine ⟨fun i => ?_, gaps_coalesce (sortedByStart_sortRanges _)⟩
      rw [covers_coalesce (sortedByStart_sortRanges _), covers_sortRanges]
      apply covers_children
      intro child hchild
      obtain ⟨ranges, hsome⟩ := Option.isSome_iff_exists.mp (hchildren child hchild)
      exact ⟨ranges, hsome, h.exact child (hpre child hchild) ranges hsome⟩
    · rw [Function.update_of_ne hwv] at hranges
      exact h.exact w hw ranges hranges
  closed w hw hsome child hchild := by
    by_cases hcv : child = v
    · simp [hcv]
    · rw [Function.update_of_ne hcv]
      by_cases hwv : w = v
      · exact hchildren child (hwv ▸ hchild)
      · rw [Function.update_of_ne hwv] at hsome
        exact h.closed w hw hsome child hchild
  keep w hw := by
    have hwv : w ≠ v := fun heq => by simp [heq, hnone] at hw
    rw [Function.update_of_ne hwv, h.keep w hw]
  outside w hw := by
    have hwv : w ≠ v := fun heq => hw (heq ▸ hv)
    rw [Function.update_of_ne hwv, h.outside w hw]

theorem calculateVPtrRangesHelper_ok
    (hpre : ∀ v ∈ preorder, ∀ child ∈ cha.children v, child ∈ preorder) {rank : Vtbl → Nat}
    (hrank : ∀ v, ∀ child ∈ cha.children v, rank child < rank v) (fuel : Nat) {v : Vtbl}
    (hv : v ∈ preorder) (hfuel : rank v < fuel) {m : Vtbl → Option (List CHA.Range)}
    (hm : Memo cha preorder m m) :
    ∃ m', calculateVPtrRangesHelper cha preorder fuel v m = .ok m' ∧ Memo cha preorder m m' ∧
      (m' v).isSome := by
  induction fuel generalizing v m with
  | zero => exact absurd hfuel (Nat.not_lt_zero _)
  | succ fuel ih =>
    rw [calculateVPtrRangesHelper]
    by_cases hsome : (m v).isSome
    · exact ⟨m, if_pos hsome, hm, hsome⟩
    · rw [if_neg hsome]
      have hfold := foldlM_exists_ok (f := fun m child =>
          calculateVPtrRangesHelper cha preorder fuel child m) (s := m)
        (fun done m' => Memo cha preorder m m' ∧ ∀ child ∈ done, (m' child).isSome)
        (cha.children v) ?step ⟨hm, List.forall_mem_nil _⟩
      case step =>
        rintro done child rest m₁ hsplit ⟨hmemo, hdone⟩
        have hchild : child ∈ cha.children v := by rw [hsplit]; simp
        have hself : Memo cha preorder m₁ m₁ :=
          ⟨hmemo.exact, hmemo.closed, fun _ _ => rfl, fun _ _ => rfl⟩
        obtain ⟨m₂, hok, hmemo₂, hnew⟩ := ih (hpre v hv child hchild)
          ((hrank v child hchild).trans_le (Nat.le_of_lt_succ hfuel)) hself
        refine ⟨m₂, hok, hmemo.trans hmemo₂, ?_⟩
        rw [List.forall_mem_append, List.forall_mem_singleton]
        refine ⟨?_, hnew⟩
        intro child' hmem
        rw [hmemo₂.keep child' (hdone child' hmem)]
        exact hdone child' hmem
      obtain ⟨m', hok, hmemo, hchildren⟩ := hfold
      have hnone : m v = none := by simpa using hsome
      refine ⟨_, ?_, hmemo.store hv hnone (hpre v hv) hchildren, by simp⟩
      rw [bind_eq_ok]
      exact ⟨m', hok, rfl⟩

end Helper

section Nodes

variable {cha : SDBuildCHA} {root : String}

/-- Address points are placed next to each other, in preorder. -/
theorem WellFormed.newIndex_zero (h : WellFormed cha) {v : Vtbl} (hv : InCloud cha root v) :
    newIndex cha root v 0 = newIndex cha root (root, 0) 0 +
      rank cha.isDefined (cha.preorder (root, 0)) (indMap (cha.preorder (root, 0)) v) := by
  have hpresent : ∀ i, present (cha.preorder (root, 0)) (slot cha) 0 i =
      rank cha.isDefined (cha.preorder (root, 0)) i := by
    intro i
    rw [present, rank]
    apply List.countP_congr
    intro n hn
    have hcloud : InCloud cha root n := ⟨hv.1, List.mem_of_mem_take hn⟩
    have hstart := h.start_le hcloud
    have hstop := h.le_stop hcloud
    rw [slot_iff]
    exact and_iff_left ⟨by omega, by omega⟩
  have hlo : -(bound cha root : ℤ) + ((0 + bound cha root : ℤ).toNat : ℤ) = 0 := by omega
  have hroot : (cha.preorder (root, 0)).idxOf (root, 0) = 0 := by
    rw [← indMap_eq (InCloud.root hv.1).2]
    exact indMap_of_getElem? (cha.preorder_nodup _)
      (List.head?_eq_getElem? ▸ cha.preorder_head (root, 0))
  have hzero : rank cha.isDefined (cha.preorder (root, 0)) 0 = 0 := by simp [rank]
  simp only [newIndex, position, hlo, hpresent, indMap_eq hv.2, hroot, hzero, Nat.add_zero]

/-- The addresses of some ranges. -/
def addresses (ranges : List (Address × Nat)) : List Address :=
  ranges.flatMap fun m => (List.range m.2).map fun i => (m.1.1, m.1.2 + wordWidth * i)

def slice (nodes : List Vtbl) (range : CHA.Range) : List Vtbl :=
  (nodes.drop range.1).take (range.2 - range.1)

variable (cha root) in
def memRangeOf (range : CHA.Range) : List (Address × Nat) :=
  match (slice (cha.preorder (root, 0)) range).find? cha.isDefined with
  | none => []
  | some start =>
    [(startAddr cha root start, (slice (cha.preorder (root, 0)) range).countP cha.isDefined)]

theorem memRange_eq (h : WellFormed cha) (hroot : root ∈ cha.roots) {st : SDLayoutBuilder}
    (hst : Emitted cha cha.roots st) (range : CHA.Range) :
    memRange cha st (cha.preorder (root, 0)) range = .ok (memRangeOf cha root range) := by
  have hslice : ((cha.preorder (root, 0)).drop range.1).take (range.2 - range.1) =
      slice (cha.preorder (root, 0)) range := rfl
  simp only [memRange, memRangeOf, hslice]
  cases hfind : (slice (cha.preorder (root, 0)) range).find? cha.isDefined with
  | none =>
    have hcount : (slice (cha.preorder (root, 0)) range).countP cha.isDefined = 0 :=
      List.countP_eq_zero.mpr (List.find?_eq_none.mp hfind)
    rw [hcount]
    rfl
  | some start =>
    have hmem := List.mem_of_find?_eq_some hfind
    have hdef := List.find?_some hfind
    have hpos : 0 < (slice (cha.preorder (root, 0)) range).countP cha.isDefined :=
      List.countP_pos_iff.mpr ⟨start, hmem, hdef⟩
    have hcloud : InCloud cha root start :=
      ⟨hroot, List.mem_of_mem_drop (List.mem_of_mem_take hmem)⟩
    have haddr := newVtblAddressConst_eq h hcloud hdef (hst.indexed.newLayoutInds hcloud)
      (by rw [hst.cloudStartMap root hroot]; rfl)
    obtain ⟨count, hcount⟩ := Nat.exists_eq_succ_of_ne_zero hpos.ne'
    simp only [hcount, haddr]
    rfl

/-- The node of an index is defined. -/
def definedAt (cha : SDBuildCHA) (root : String) (j : Nat) : Bool :=
  ((cha.preorder (root, 0))[j]?).any cha.isDefined

/-- The address point of the node of an index, if it is defined. -/
def addressAt (cha : SDBuildCHA) (root : String) (j : Nat) : Address :=
  (newVtableName root, (newIndex cha root (root, 0) 0 +
    rank cha.isDefined (cha.preorder (root, 0)) j) * wordWidth)

theorem startAddr_eq_addressAt (h : WellFormed cha) {v : Vtbl} (hv : InCloud cha root v) :
    startAddr cha root v = addressAt cha root (indMap (cha.preorder (root, 0)) v) := by
  rw [startAddr, h.newIndex_zero hv, addressAt]

theorem addresses_memRangeOf (h : WellFormed cha) (hroot : root ∈ cha.roots) (range : CHA.Range) :
    addresses (memRangeOf cha root range) =
      ((List.range' range.1 (range.2 - range.1)).filter (definedAt cha root)).map
        (addressAt cha root) := by
  have hranks := map_rank_slice cha.isDefined (cha.preorder (root, 0)) range.1 (range.2 - range.1)
  have hmap : ((List.range' range.1 (range.2 - range.1)).filter (definedAt cha root)).map
      (addressAt cha root) = (List.range' (rank cha.isDefined (cha.preorder (root, 0)) range.1)
        ((slice (cha.preorder (root, 0)) range).countP cha.isDefined)).map fun k =>
          (newVtableName root, (newIndex cha root (root, 0) 0 + k) * wordWidth) := by
    rw [slice, ← hranks, List.map_map]
    rfl
  rw [hmap, memRangeOf]
  cases hfind : (slice (cha.preorder (root, 0)) range).find? cha.isDefined with
  | none =>
    rw [List.countP_eq_zero.mpr (List.find?_eq_none.mp hfind)]
    rfl
  | some start =>
    have hcloud : InCloud cha root start :=
      ⟨hroot, List.mem_of_mem_drop (List.mem_of_mem_take (List.mem_of_find?_eq_some hfind))⟩
    obtain ⟨j, hj, hrank⟩ := rank_of_find?_slice cha.isDefined _ hfind
    have hind := indMap_of_getElem? (cha.preorder_nodup _) hj
    dsimp only
    rw [startAddr_eq_addressAt h hcloud, hind, addressAt, hrank]
    simp only [addresses, List.flatMap_cons, List.flatMap_nil, List.append_nil,
      List.range'_eq_map_range, List.map_map]
    apply List.map_congr_left
    intro k _
    simp only [Function.comp, Prod.mk.injEq, true_and]
    rw [← Nat.add_assoc, Nat.add_mul _ k, Nat.mul_comm k]

theorem addresses_flatMap (h : WellFormed cha) (hroot : root ∈ cha.roots)
    (ranges : List CHA.Range) :
    addresses (ranges.flatMap (memRangeOf cha root)) =
      ((indices ranges).filter (definedAt cha root)).map (addressAt cha root) := by
  induction ranges with
  | nil => rfl
  | cons r ranges ih =>
    have happend : ∀ a b, addresses (a ++ b) = addresses a ++ addresses b :=
      fun a b => List.flatMap_append
    rw [List.flatMap_cons, happend, ih, addresses_memRangeOf h hroot, indices_cons,
      List.filter_append, List.map_append]

theorem mem_preorder_of_children (hroot : root ∈ cha.roots) :
    ∀ v ∈ cha.preorder (root, 0), ∀ child ∈ cha.children v, child ∈ cha.preorder (root, 0) :=
  fun _ hv _ hchild => (InCloud.reaches ⟨hroot, hv⟩ (.single hchild)).2

/-- The indices of exact ranges are those of the nodes below, each once. -/
theorem Exact.indices_perm {v : Vtbl} (hv : InCloud cha root v) {ranges : List CHA.Range}
    (h : Exact cha (cha.preorder (root, 0)) v ranges) :
    (indices ranges).Perm ((cha.preorder v).map (indMap (cha.preorder (root, 0)))) := by
  have hinj : ((cha.preorder v).map (indMap (cha.preorder (root, 0)))).Nodup := by
    apply List.Nodup.map_on _ (cha.preorder_nodup v)
    intro x hx y hy hxy
    exact indMap_injective (hv.reaches ((cha.mem_preorder_iff v x).mp hx)).2
      (hv.reaches ((cha.mem_preorder_iff v y).mp hy)).2 hxy
  rw [List.perm_ext_iff_of_nodup (nodup_indices h.gaps) hinj]
  intro i
  rw [mem_indices, h.covers i, List.mem_map]
  simp only [cha.mem_preorder_iff v]

theorem verifyRanges_ok {v : Vtbl} (hv : InCloud cha root v) {ranges : List CHA.Range}
    (h : Exact cha (cha.preorder (root, 0)) v ranges) :
    verifyRanges cha (cha.preorder (root, 0)) ranges v = .ok () := by
  have htotal : (ranges.map fun r => r.2 - r.1).sum = (cha.preorder v).length := by
    rw [← length_indices, (h.indices_perm hv).length_eq, List.length_map]
  rw [verifyRanges, if_neg (not_not_intro h.gaps.isChain), if_neg (not_not_intro htotal), if_neg]
  apply not_not_intro
  intro d hd
  exact (h.covers _).mpr ⟨d, (cha.mem_preorder_iff v d).mp hd, rfl⟩

/-- What the third loop stores for a node. -/
def RangesOf (cha : SDBuildCHA) (root : String) (v : Vtbl) (st : SDLayoutBuilder) : Prop :=
  ∃ ranges, st.rangeMap v = some ranges ∧ Exact cha (cha.preorder (root, 0)) v ranges ∧
    st.memRangeMap v = ranges.flatMap (memRangeOf cha root)

/-- Each reachable node has its address once, and no other address is listed. -/
theorem RangesOf.mem_addresses_iff (h : WellFormed cha) {v : Vtbl} (hv : InCloud cha root v)
    {st : SDLayoutBuilder} (hranges : RangesOf cha root v st) (a : Address) :
    a ∈ addresses (st.memRangeMap v) ↔
      ∃ x, Reaches cha.children v x ∧ cha.isDefined x ∧ startAddr cha root x = a := by
  obtain ⟨ranges, -, hexact, hmem⟩ := hranges
  rw [hmem, addresses_flatMap h hv.1, List.mem_map]
  constructor
  · intro ha
    obtain ⟨j, hj, rfl⟩ := ha
    obtain ⟨hj, hdef⟩ := List.mem_filter.mp hj
    obtain ⟨x, hreach, rfl⟩ := (hexact.covers j).mp ((mem_indices ranges j).mp hj)
    have hx := hv.reaches hreach
    rw [definedAt, getElem?_indMap hx.2] at hdef
    exact ⟨x, hreach, hdef, startAddr_eq_addressAt h hx⟩
  · intro ha
    obtain ⟨x, hreach, hdef, rfl⟩ := ha
    have hx := hv.reaches hreach
    refine ⟨indMap (cha.preorder (root, 0)) x, ?_, (startAddr_eq_addressAt h hx).symm⟩
    rw [List.mem_filter, definedAt, getElem?_indMap hx.2]
    exact ⟨(mem_indices ranges _).mpr ((hexact.covers _).mpr ⟨x, hreach, rfl⟩), hdef⟩

theorem rank_lt_of_defined {xs : List Vtbl} {i j : Nat} (hij : i < j)
    (hdef : (xs[i]?).any cha.isDefined) : rank cha.isDefined xs i < rank cha.isDefined xs j := by
  obtain ⟨x, hx, hdefx⟩ := (Option.any_eq_true _ _).mp hdef
  obtain ⟨hlt, heq⟩ := List.getElem?_eq_some_iff.mp hx
  have hstep := rank_succ cha.isDefined xs hlt
  rw [heq, if_pos hdefx] at hstep
  have hmono : rank cha.isDefined xs (i + 1) ≤ rank cha.isDefined xs j :=
    (List.take_sublist_take_left (Nat.succ_le_of_lt hij)).countP_le
  omega

theorem RangesOf.nodup_addresses (h : WellFormed cha) {v : Vtbl} (hv : InCloud cha root v)
    {st : SDLayoutBuilder} (hranges : RangesOf cha root v st) :
    (addresses (st.memRangeMap v)).Nodup := by
  obtain ⟨ranges, -, hexact, hmem⟩ := hranges
  rw [hmem, addresses_flatMap h hv.1]
  apply List.Nodup.map_on _ ((nodup_indices hexact.gaps).filter _)
  intro i hi j hj hij
  have hdefi := (List.mem_filter.mp hi).2
  have hdefj := (List.mem_filter.mp hj).2
  simp only [addressAt, Prod.mk.injEq, true_and, wordWidth] at hij
  rcases Nat.lt_trichotomy i j with hlt | heq | hgt
  · have := rank_lt_of_defined hlt hdefi
    omega
  · exact heq
  · have := rank_lt_of_defined hgt hdefj
    omega

end Nodes

section Loop

variable {cha : SDBuildCHA} {root : String}

theorem Emitted.withRanges {done : List String} {st : SDLayoutBuilder} (h : Emitted cha done st)
    (rangeMap : Vtbl → Option (List CHA.Range)) (memRangeMap : Vtbl → List (Address × Nat)) :
    Emitted cha done { st with rangeMap := rangeMap, memRangeMap := memRangeMap } where
  indexed := ⟨h.indexed.interleavingMap, h.indexed.alignmentMap, h.indexed.newLayoutInds⟩
  cloudStartMap := h.cloudStartMap
  newVTableStartAddrMap := h.newVTableStartAddrMap
  undefined := h.undefined
  fresh := h.fresh

/-- The recursion from the root of a cloud gives every node of the cloud its ranges. -/
theorem rangeMap_ok (h : Acyclic cha.children) (hroot : root ∈ cha.roots)
    {m : Vtbl → Option (List CHA.Range)} (hm : ∀ v ∈ cha.preorder (root, 0), m v = none) :
    ∃ m', calculateVPtrRangesHelper cha (cha.preorder (root, 0)) (cha.vtbls.length + 1)
          (root, 0) m = .ok m' ∧
      (∀ v ∉ cha.preorder (root, 0), m' v = m v) ∧
      ∀ v ∈ cha.preorder (root, 0), ∃ ranges, m' v = some ranges ∧
        Exact cha (cha.preorder (root, 0)) v ranges := by
  obtain ⟨rank, hrank, hbound⟩ := h.exists_rank cha.supported
  have hstart : Memo cha (cha.preorder (root, 0)) m m := by
    constructor
    · intro v hv ranges hsome
      simp [hm v hv] at hsome
    · intro v hv hsome
      simp [hm v hv] at hsome
    · exact fun _ _ => rfl
    · exact fun _ _ => rfl
  obtain ⟨m', hok, hmemo, hsome⟩ := calculateVPtrRangesHelper_ok (mem_preorder_of_children hroot)
    hrank (cha.vtbls.length + 1) (InCloud.root hroot).2 (Nat.lt_succ_of_le (hbound _)) hstart
  have hall : ∀ v, Reaches cha.children (root, 0) v → (m' v).isSome := by
    intro v hreach
    induction hreach with
    | refl => exact hsome
    | tail hreach hchild ih =>
      exact hmemo.closed _ ((cha.mem_preorder_iff _ _).mpr hreach) ih _ hchild
  refine ⟨m', hok, hmemo.outside, ?_⟩
  intro v hv
  have hreach := (cha.mem_preorder_iff _ v).mp hv
  obtain ⟨ranges, hranges⟩ := Option.isSome_iff_exists.mp (hall v hreach)
  exact ⟨ranges, hranges, hmemo.exact v hv ranges hranges⟩

/-- The address ranges that the loop over the nodes of a cloud adds. -/
def withMemRanges (cha : SDBuildCHA) (root : String) (done : List Vtbl) (st : SDLayoutBuilder) :
    SDLayoutBuilder :=
  { st with memRangeMap := fun v =>
      if v ∈ done then ((st.rangeMap v).getD []).flatMap (memRangeOf cha root)
      else st.memRangeMap v }

theorem withMemRanges_concat (done : List Vtbl) (st : SDLayoutBuilder) (v : Vtbl) :
    withMemRanges cha root (done ++ [v]) st = { withMemRanges cha root done st with
      memRangeMap := Function.update (withMemRanges cha root done st).memRangeMap v
        (((st.rangeMap v).getD []).flatMap (memRangeOf cha root)) } := by
  simp only [withMemRanges]
  congr 1
  funext w
  by_cases hw : w = v
  · subst hw
    simp
  · simp [hw]

theorem memRanges_foldlM (h : WellFormed cha) (hroot : root ∈ cha.roots) {st : SDLayoutBuilder}
    (hst : Emitted cha cha.roots st)
    (hfresh : ∀ v ∈ cha.preorder (root, 0), st.memRangeMap v = []) :
    (cha.preorder (root, 0)).foldlM (memRanges cha (cha.preorder (root, 0))) st =
      .ok (withMemRanges cha root (cha.preorder (root, 0)) st) := by
  have hfold := foldlM_nodup_exists_ok (f := memRanges cha (cha.preorder (root, 0))) (s := st)
    (fun done st' => st' = withMemRanges cha root done st) (cha.preorder_nodup (root, 0)) ?step
    (by simp [withMemRanges])
  case step =>
    rintro done v _ - hmem hnew rfl
    refine ⟨_, ?_, rfl⟩
    have hranges : ((st.rangeMap v).getD []).mapM
        (memRange cha (withMemRanges cha root done st) (cha.preorder (root, 0))) =
        .ok (((st.rangeMap v).getD []).map (memRangeOf cha root)) :=
      mapM_eq_ok fun range _ => memRange_eq h hroot (hst.withRanges _ _) range
    have hnil : (withMemRanges cha root done st).memRangeMap v = [] :=
      (if_neg hnew).trans (hfresh v hmem)
    rw [memRanges, bind_eq_ok, withMemRanges_concat]
    refine ⟨_, hranges, ?_⟩
    rw [hnil]
    rfl
  obtain ⟨st', hok, rfl⟩ := hfold
  exact hok

/-- The state of the third loop after the roots `done`. -/
structure Ranged (cha : SDBuildCHA) (done : List String) (st : SDLayoutBuilder) : Prop where
  emitted : Emitted cha cha.roots st
  ranges : ∀ root ∈ done, ∀ v ∈ cha.preorder (root, 0), RangesOf cha root v st
  fresh : ∀ root v, InCloud cha root v → root ∉ done →
    st.rangeMap v = none ∧ st.memRangeMap v = []

theorem Ranged.step (h : WellFormed cha) {done : List String} {st : SDLayoutBuilder}
    (hst : Ranged cha done st) (hdone : done ⊆ cha.roots) (hroot : root ∈ cha.roots)
    (hnew : root ∉ done) :
    ∃ st', rangeCloud cha st root = .ok st' ∧ Ranged cha (done ++ [root]) st' := by
  obtain ⟨m, hm, houtside, hexact⟩ := rangeMap_ok h.acyclic hroot (m := st.rangeMap)
    fun v hv => (hst.fresh root v ⟨hroot, hv⟩ hnew).1
  have hmem := memRanges_foldlM h hroot (hst.emitted.withRanges m st.memRangeMap)
    fun v hv => (hst.fresh root v ⟨hroot, hv⟩ hnew).2
  have hranges : ∀ v ∈ cha.preorder (root, 0), RangesOf cha root v
      (withMemRanges cha root (cha.preorder (root, 0)) { st with rangeMap := m }) := by
    intro v hv
    obtain ⟨ranges, hsome, hex⟩ := hexact v hv
    exact ⟨ranges, hsome, hex, by simp [withMemRanges, hv, hsome]⟩
  have hcalculate : calculateVPtrRanges cha root st =
      .ok (withMemRanges cha root (cha.preorder (root, 0)) { st with rangeMap := m }) := by
    rw [calculateVPtrRanges, bind_eq_ok]
    exact ⟨m, hm, hmem⟩
  have hverify : ∀ v ∈ cha.preorder (root, 0),
      verifyRanges cha (cha.preorder (root, 0)) ((m v).getD []) v = .ok () := by
    intro v hv
    obtain ⟨ranges, hsome, hex⟩ := hexact v hv
    rw [hsome]
    exact verifyRanges_ok ⟨hroot, hv⟩ hex
  refine ⟨withMemRanges cha root (cha.preorder (root, 0)) { st with rangeMap := m }, ?_, ?_⟩
  · rw [rangeCloud, bind_eq_ok]
    refine ⟨_, hcalculate, ?_⟩
    rw [verifyVPtrRanges, bind_eq_ok]
    exact ⟨⟨⟩, forM_eq_ok hverify, rfl⟩
  · constructor
    · exact hst.emitted.withRanges _ _
    · rw [List.forall_mem_append, List.forall_mem_singleton]
      refine ⟨?_, hranges⟩
      intro root' hold v hv
      have hout := notMem_preorder h.unique ⟨hdone hold, hv⟩ hroot (ne_of_mem_of_not_mem hold hnew)
      obtain ⟨ranges, hsome, hex, hmemv⟩ := hst.ranges root' hold v hv
      exact ⟨ranges, (houtside v hout).trans hsome, hex, (if_neg hout).trans hmemv⟩
    · intro root' v hv hmem'
      rw [List.mem_append, List.mem_singleton, not_or] at hmem'
      have hout := notMem_preorder h.unique hv hroot hmem'.2
      obtain ⟨hnone, hnil⟩ := hst.fresh root' v hv hmem'.1
      exact ⟨(houtside v hout).trans hnone, (if_neg hout).trans hnil⟩

/-- All assertions of the pass hold for well-formed clouds. -/
theorem buildNewLayouts_ok (h : WellFormed cha) (hfilled : Filled cha) (functions : List String) :
    ∃ st, buildNewLayouts cha true functions = .ok st ∧ Ranged cha cha.roots st := by
  obtain ⟨st₁, hok₁, hlaid⟩ := laidOut_roots h functions
  obtain ⟨st₂, hok₂, hemitted, hrange, hmem⟩ := emitted_roots h hfilled hlaid.emitted
  have hranged := foldlM_nodup_exists_ok (f := rangeCloud cha) (s := st₂) (Ranged cha)
    h.roots_nodup (fun hdone hroot hnew hst => hst.step h hdone hroot hnew) ?start
  case start =>
    refine ⟨hemitted, List.forall_mem_nil _, ?_⟩
    intro root v _ _
    rw [hrange, hmem, hlaid.rangeMap, hlaid.memRangeMap]
    exact ⟨rfl, rfl⟩
  obtain ⟨st₃, hok₃, hst₃⟩ := hranged
  refine ⟨st₃, ?_, hst₃⟩
  rw [buildNewLayouts, bind_eq_ok]
  refine ⟨st₁, hok₁, ?_⟩
  rw [bind_eq_ok]
  exact ⟨st₂, hok₂, hok₃⟩

end Loop

/-- In the new vtable of the cloud, `a` is the place of the address point of `x`, which has no
other; its old element stands there. -/
def IsAddressPoint (cha : SDBuildCHA) (st : SDLayoutBuilder) (root : String) (x : Vtbl)
    (a : Address) : Prop :=
  ∃ k newVtableElems elem, a = (newVtableName root, k * wordWidth) ∧
    (∀ j, (st.interleavingMap root)[j]? = some (x, (cha.addrPt x : ℤ)) ↔ j = k) ∧
    st.cloudStartMap (newVtableName root) = some newVtableElems ∧
    oldElem cha (x, cha.addrPt x) = some elem ∧ newVtableElems[k]? = some (renamed cha x elem)

theorem Emitted.isAddressPoint {cha : SDBuildCHA} {done : List String} {st : SDLayoutBuilder}
    (hst : Emitted cha done st) (h : WellFormed cha) (hfilled : Filled cha) {root : String}
    {x : Vtbl} (hroot : root ∈ done) (hx : InCloud cha root x) (hdef : cha.isDefined x) :
    IsAddressPoint cha st root x (startAddr cha root x) := by
  have hslot := (h.slot_zero_iff hx).mpr hdef
  have hiff := cloudInterleaving_getElem?_iff hx hslot
  rw [add_zero] at hiff
  have hget := (hiff _).mpr rfl
  obtain ⟨elem, helem⟩ := Option.isSome_iff_exists.mp
    (oldElem_isSome hfilled (List.mem_of_getElem? hget) hx.1)
  refine ⟨newIndex cha root x 0, _, elem, rfl, ?_, hst.cloudStartMap root hroot, helem, ?_⟩
  · rw [hst.indexed.interleavingMap root hx.1]
    exact hiff
  · rw [List.getElem?_map, hget, Option.map_some, newElem, helem, Option.getD_some]

/-- Every defined sub-vtable has a new address point, and the address ranges of a sub-vtable list,
without repetition, those of the defined sub-vtables below it. -/
theorem memRange_addresses_exact {cha : SDBuildCHA} (h : WellFormed cha) (hfilled : Filled cha)
    (functions : List String) :
    ∃ st, buildNewLayouts cha true functions = .ok st ∧
      (∀ root x, InCloud cha root x → cha.isDefined x → ∃ a,
        st.newVTableStartAddrMap x = some a ∧ IsAddressPoint cha st root x a) ∧
      ∀ root v, InCloud cha root v → (addresses (st.memRangeMap v)).Nodup ∧
        ∀ a, a ∈ addresses (st.memRangeMap v) ↔ ∃ x, Reaches cha.children v x ∧
          cha.isDefined x ∧ st.newVTableStartAddrMap x = some a := by
  obtain ⟨st, hok, hst⟩ := buildNewLayouts_ok h hfilled functions
  refine ⟨st, hok, ?_, ?_⟩
  · intro root x hx hdef
    exact ⟨_, hst.emitted.newVTableStartAddrMap root hx.1 x hx.2 hdef,
      hst.emitted.isAddressPoint h hfilled hx.1 hx hdef⟩
  intro root v hv
  have hranges := hst.ranges root hv.1 v hv.2
  refine ⟨hranges.nodup_addresses h hv, ?_⟩
  intro a
  rw [hranges.mem_addresses_iff h hv]
  apply exists_congr
  intro x
  apply and_congr_right
  intro hreach
  apply and_congr_right
  intro hdef
  have hx := hv.reaches hreach
  rw [hst.emitted.newVTableStartAddrMap root hx.1 x hx.2 hdef, Option.some.injEq]

/-- A class whose vtable has one part, with one element before the address point. -/
def onePart (className : String) (stop : Nat) (parents : List Vtbl) : Nmd :=
  ⟨className, [⟨0, 0, stop, 1, parents, []⟩]⟩

/-- The class `D` extends both children of `A`; `E` extends only the short one, `B`. -/
def diamondClasses : List Nmd :=
  [onePart "_ZTV1A" 1 [("", 0)], onePart "_ZTV1B" 1 [("_ZTV1A", 0)],
    onePart "_ZTV1C" 2 [("_ZTV1A", 0)], onePart "_ZTV1D" 2 [("_ZTV1B", 0), ("_ZTV1C", 0)],
    onePart "_ZTV1E" 1 [("_ZTV1B", 0)]]

/-- The vtable of `B` has no initializer, and that of `D` ends in a virtual thunk. -/
def diamondVTables (name : String) : Option (List Constant) :=
  [("_ZTV1A", [.null, .bitCast "_ZN1A1fEv"]),
    ("_ZTV1C", [.null, .bitCast "_ZN1A1fEv", .bitCast "_ZN1C1gEv"]),
    ("_ZTV1D", [.null, .bitCast "_ZN1A1fEv", .bitCast "_ZTv0_n24_N1D1gEv"]),
    ("_ZTV1E", [.null, .bitCast "_ZN1E1fEv"])].lookup name

theorem diamond_wellFormed {cha : SDBuildCHA}
    (h : buildClouds diamondVTables diamondClasses = .ok cha) : WellFormed cha ∧ Filled cha := by
  have hok := eq_ok_of_isOk (x := buildClouds diamondVTables diamondClasses) .empty (by decide)
  obtain rfl := Except.ok.inj (hok.symm.trans h)
  exact ⟨wellFormed_of_nodes (by decide) (by decide) (buildClouds_ancestorMap h) (by decide)
    (by decide), filled_of_nodes (by decide) (by decide)⟩

theorem memRange_addresses_exact_diamond : ∃ cha,
    buildClouds diamondVTables diamondClasses = .ok cha ∧
      ∃ st, buildNewLayouts cha true [] = .ok st ∧
        (∀ root x, InCloud cha root x → cha.isDefined x → ∃ a,
          st.newVTableStartAddrMap x = some a ∧ IsAddressPoint cha st root x a) ∧
        ∀ root v, InCloud cha root v → (addresses (st.memRangeMap v)).Nodup ∧
          ∀ a, a ∈ addresses (st.memRangeMap v) ↔ ∃ x, Reaches cha.children v x ∧
            cha.isDefined x ∧ st.newVTableStartAddrMap x = some a := by
  have hcha := eq_ok_of_isOk (x := buildClouds diamondVTables diamondClasses) .empty (by decide)
  obtain ⟨hwell, hfilled⟩ := diamond_wellFormed hcha
  exact ⟨_, hcha, memRange_addresses_exact hwell hfilled []⟩

end RhoFEM.Layout
