import RhoFEM.Layout.Builder
import RhoFEM.Lib.Fold

/-! The clouds that the layout is built for, and what their old vtables hold. -/

namespace RhoFEM.Layout

open RhoFEM.CHA RhoFEM.Lib.Fold RhoFEM.Lib.Search

def InCloud (cha : SDBuildCHA) (root : String) (v : Vtbl) : Prop :=
  root ∈ cha.roots ∧ v ∈ cha.preorder (root, 0)

/-- Clouds without common nodes, with all address points in their ranges. -/
structure Pointed (cha : SDBuildCHA) : Prop where
  roots_nodup : cha.roots.Nodup
  unique : ∀ {root root' v}, InCloud cha root v → InCloud cha root' v → root = root'
  ne_dummy : ∀ {root v}, InCloud cha root v → v ≠ dummyVtable
  start_le : ∀ {root v}, InCloud cha root v → (cha.getRange v).1 ≤ cha.addrPt v
  le_stop : ∀ {root v}, InCloud cha root v → cha.addrPt v ≤ (cha.getRange v).2

/-- Acyclic clouds as `buildClouds` makes them, of vtables whose parts are disjoint. -/
structure Accepted (cha : SDBuildCHA) : Prop extends Pointed cha where
  acyclic : Acyclic cha.children
  ancestorMap : cha.ancestorMap = ancestors cha
  disjoint : ∀ {root v}, InCloud cha root v → (cha.rangeMap v.1).Pairwise fun a b => a.2 < b.1
  hasRange : ∀ {root v}, InCloud cha root v → v.2 < (cha.rangeMap v.1).length
  hasAddrPt : ∀ {root v}, InCloud cha root v → v.2 < (cha.addrPtMap v.1).length

/-- Clouds in which every child extends its parents on both sides of the address point. -/
structure WellFormed (cha : SDBuildCHA) : Prop extends Accepted cha where
  extends_left : ∀ {root v child}, InCloud cha root v → child ∈ cha.children v →
    cha.addrPt v - (cha.getRange v).1 ≤ cha.addrPt child - (cha.getRange child).1
  extends_right : ∀ {root v child}, InCloud cha root v → child ∈ cha.children v →
    (cha.getRange v).2 - cha.addrPt v ≤ (cha.getRange child).2 - cha.addrPt child

/-- Defined sub-vtables have their part of an old vtable, and thunks lie in some part. -/
structure Filled (cha : SDBuildCHA) : Prop where
  oldVTable : ∀ {root v}, InCloud cha root v → cha.isDefined v →
    ∃ vtable, cha.oldVTables v.1 = some vtable ∧ (cha.getRange v).2 < vtable.length
  thunks : ∀ {root v vtable}, InCloud cha root v → cha.oldVTables v.1 = some vtable →
    ∀ elem ∈ vtable.zipIdx, (getVthunkFunction elem.1).isSome →
      (cha.getVTableOrder v.1 elem.2).isSome

variable {cha : SDBuildCHA}

theorem InCloud.reaches {root : String} {v w : Vtbl} (h : InCloud cha root v)
    (hreach : Reaches cha.children v w) : InCloud cha root w :=
  ⟨h.1, (cha.mem_preorder_iff _ w).mpr (((cha.mem_preorder_iff _ v).mp h.2).trans hreach)⟩

theorem InCloud.root {root : String} (h : root ∈ cha.roots) : InCloud cha root (root, 0) :=
  ⟨h, (cha.mem_preorder_iff _ _).mpr .refl⟩

theorem extends_of_edges {root : String} (hedge : ∀ {v child}, InCloud cha root v →
      child ∈ cha.children v →
      cha.addrPt v - (cha.getRange v).1 ≤ cha.addrPt child - (cha.getRange child).1 ∧
        (cha.getRange v).2 - cha.addrPt v ≤ (cha.getRange child).2 - cha.addrPt child)
    {v w : Vtbl} (hv : InCloud cha root v) (hreach : Reaches cha.children v w) :
    cha.addrPt v - (cha.getRange v).1 ≤ cha.addrPt w - (cha.getRange w).1 ∧
      (cha.getRange v).2 - cha.addrPt v ≤ (cha.getRange w).2 - cha.addrPt w := by
  induction hreach with
  | refl => exact ⟨le_refl _, le_refl _⟩
  | tail hreach hchild ih =>
    obtain ⟨hleft, hright⟩ := hedge (hv.reaches hreach) hchild
    exact ⟨ih.1.trans hleft, ih.2.trans hright⟩

theorem notMem_preorder (hunique : ∀ {root root' v}, InCloud cha root v → InCloud cha root' v →
      root = root') {root root' : String} {v : Vtbl} (hv : InCloud cha root' v)
    (hroot : root ∈ cha.roots) (hne : root' ≠ root) : v ∉ cha.preorder (root, 0) :=
  fun hmem => hne (hunique hv ⟨hroot, hmem⟩)

theorem indMap_eq {nodes : List Vtbl} {v : Vtbl} (hv : v ∈ nodes) :
    indMap nodes v = nodes.idxOf v :=
  if_pos hv

theorem getElem?_indMap {nodes : List Vtbl} {v : Vtbl} (hv : v ∈ nodes) :
    nodes[indMap nodes v]? = some v := by
  rw [indMap_eq hv, List.getElem?_eq_getElem (List.idxOf_lt_length_of_mem hv), List.getElem_idxOf]

theorem indMap_of_getElem? {nodes : List Vtbl} (hnodes : nodes.Nodup) {v : Vtbl} {j : Nat}
    (hj : nodes[j]? = some v) : indMap nodes v = j := by
  obtain ⟨hlt, heq⟩ := List.getElem?_eq_some_iff.mp hj
  rw [indMap_eq (List.mem_of_getElem? hj), ← heq, hnodes.idxOf_getElem]

theorem indMap_injective {nodes : List Vtbl} {v w : Vtbl} (hv : v ∈ nodes) (hw : w ∈ nodes)
    (h : indMap nodes v = indMap nodes w) : v = w := by
  have := getElem?_indMap hv
  rw [h, getElem?_indMap hw] at this
  exact (Option.some.inj this).symm

theorem pairwise_indMap_lt {nodes : List Vtbl} (hnodes : nodes.Nodup) :
    nodes.Pairwise fun a b => indMap nodes a < indMap nodes b := by
  rw [List.pairwise_iff_getElem]
  intro i j hi hj hij
  rwa [indMap_of_getElem? hnodes (List.getElem?_eq_getElem hi),
    indMap_of_getElem? hnodes (List.getElem?_eq_getElem hj)]

theorem newVtableName_injective : newVtableName.Injective := by
  intro a b h
  have htoList : "_SD".toList ++ a.toList = "_SD".toList ++ b.toList := by
    rw [← String.toList_append, ← String.toList_append]
    exact congrArg String.toList h
  exact String.toList_injective (List.append_cancel_left htoList)

namespace Accepted

theorem ancestor (h : Accepted cha) {root : String} {v : Vtbl} (hv : InCloud cha root v) :
    cha.ancestorMap v = some root := by
  rw [h.ancestorMap, ancestors_eq_find?]
  cases hfind : cha.roots.find? fun root => v ∈ cha.preorder (root, 0) with
  | none =>
    rw [List.find?_eq_none] at hfind
    exact absurd hv.2 (by simpa using hfind root hv.1)
  | some root' =>
    have hmem : v ∈ cha.preorder (root', 0) := by simpa using List.find?_some hfind
    rw [h.unique ⟨List.mem_of_find?_eq_some hfind, hmem⟩ hv]

theorem getRange_eq (h : Accepted cha) {root : String} {v : Vtbl} (hv : InCloud cha root v) :
    (cha.rangeMap v.1)[v.2]? = some (cha.getRange v) := by
  rw [SDBuildCHA.getRange, List.getElem?_eq_getElem (h.hasRange hv), Option.getD_some]

/-- The parts of a vtable are disjoint, so an index of one lies in no earlier part. -/
theorem getVTableOrder_eq (h : Accepted cha) {root : String} {v : Vtbl}
    (hv : InCloud cha root v) {i : Nat} (hstart : (cha.getRange v).1 ≤ i)
    (hstop : i ≤ (cha.getRange v).2) : cha.getVTableOrder v.1 i = some v.2 := by
  obtain ⟨hlt, heq⟩ := List.getElem?_eq_some_iff.mp (h.getRange_eq hv)
  rw [SDBuildCHA.getVTableOrder, List.findIdx?_eq_some_iff_getElem]
  refine ⟨hlt, by simp [heq, hstart, hstop], ?_⟩
  intro j hj
  have := List.pairwise_iff_getElem.mp (h.disjoint hv) j v.2 (hj.trans hlt) hlt hj
  rw [heq] at this
  simp
  omega

end Accepted

/-- What is reachable from a sub-vtable extends it on both sides. -/
theorem WellFormed.extends_of_reaches (h : WellFormed cha) {root : String} {v w : Vtbl}
    (hv : InCloud cha root v) (hreach : Reaches cha.children v w) :
    cha.addrPt v - (cha.getRange v).1 ≤ cha.addrPt w - (cha.getRange w).1 ∧
      (cha.getRange v).2 - cha.addrPt v ≤ (cha.getRange w).2 - cha.addrPt w :=
  extends_of_edges (fun hv hchild => ⟨h.extends_left hv hchild, h.extends_right hv hchild⟩) hv
    hreach

theorem wellFormed_of_nodes
    (hlt : ∀ entry ∈ cha.cloudMap.entries, ∀ w ∈ entry.2, entry.1.1 < w.1)
    (hroots : cha.roots.Nodup) (hancestor : cha.ancestorMap = ancestors cha)
    (hunique : ∀ root ∈ cha.roots, ∀ root' ∈ cha.roots, ∀ v ∈ cha.preorder (root, 0),
      v ∈ cha.preorder (root', 0) → root = root')
    (hnodes : ∀ root ∈ cha.roots, ∀ v ∈ cha.preorder (root, 0), v ≠ dummyVtable ∧
      ((cha.rangeMap v.1).Pairwise fun a b => a.2 < b.1) ∧ v.2 < (cha.rangeMap v.1).length ∧
      v.2 < (cha.addrPtMap v.1).length ∧ (cha.getRange v).1 ≤ cha.addrPt v ∧
      cha.addrPt v ≤ (cha.getRange v).2 ∧ ∀ child ∈ cha.children v,
        cha.addrPt v - (cha.getRange v).1 ≤ cha.addrPt child - (cha.getRange child).1 ∧
        (cha.getRange v).2 - cha.addrPt v ≤ (cha.getRange child).2 - cha.addrPt child) :
    WellFormed cha where
  acyclic := Acyclic.of_lt Prod.fst (cha.children_all (P := fun v w => v.1 < w.1) hlt)
  roots_nodup := hroots
  unique hv hv' := hunique _ hv.1 _ hv'.1 _ hv.2 hv'.2
  ancestorMap := hancestor
  ne_dummy hv := (hnodes _ hv.1 _ hv.2).1
  disjoint hv := (hnodes _ hv.1 _ hv.2).2.1
  hasRange hv := (hnodes _ hv.1 _ hv.2).2.2.1
  hasAddrPt hv := (hnodes _ hv.1 _ hv.2).2.2.2.1
  start_le hv := (hnodes _ hv.1 _ hv.2).2.2.2.2.1
  le_stop hv := (hnodes _ hv.1 _ hv.2).2.2.2.2.2.1
  extends_left hv hchild := ((hnodes _ hv.1 _ hv.2).2.2.2.2.2.2 _ hchild).1
  extends_right hv hchild := ((hnodes _ hv.1 _ hv.2).2.2.2.2.2.2 _ hchild).2

theorem filled_of_nodes
    (hdefined : ∀ root ∈ cha.roots, ∀ v ∈ cha.preorder (root, 0), cha.isDefined v →
      (cha.oldVTables v.1).any fun vtable => (cha.getRange v).2 < vtable.length)
    (hthunks : ∀ root ∈ cha.roots, ∀ v ∈ cha.preorder (root, 0),
      ∀ elem ∈ ((cha.oldVTables v.1).getD []).zipIdx, (getVthunkFunction elem.1).isSome →
        (cha.getVTableOrder v.1 elem.2).isSome) :
    Filled cha where
  oldVTable hv hdef := by
    obtain ⟨vtable, hvtable, hlength⟩ := (Option.any_eq_true _ _).mp (hdefined _ hv.1 _ hv.2 hdef)
    exact ⟨vtable, hvtable, of_decide_eq_true hlength⟩
  thunks hv hvtable elem helem := by
    apply hthunks _ hv.1 _ hv.2 elem
    rwa [hvtable]

end RhoFEM.Layout
