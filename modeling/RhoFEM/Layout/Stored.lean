import RhoFEM.Layout.Ranges
import RhoFEM.Layout.Steps
import RhoFEM.Lib.Runs

/-! The address points and the address ranges that a run of the pass stores, in either layout. -/

namespace RhoFEM.Layout

open RhoFEM.CHA RhoFEM.Lib.Coalesce RhoFEM.Lib.Fold RhoFEM.Lib.Rounds RhoFEM.Lib.Runs
  RhoFEM.Lib.Search

section Places

variable (cha : SDBuildCHA) (interleave : Bool) (root : String)

/-- The address point of a defined sub-vtable. -/
def addressOf (v : Vtbl) : Address :=
  (newVtableName root, addressIndex cha interleave root v * wordWidth)

def blockOf (range : CHA.Range) : Option (Address × Nat) :=
  ((cut (cha.preorder (root, 0)) range).find? cha.isDefined).map fun start =>
    (addressOf cha interleave root start,
      (cut (cha.preorder (root, 0)) range).countP cha.isDefined)

/-- The address point of a sub-vtable in units of the alignment. -/
def slotOf (v : Vtbl) : Nat :=
  addressIndex cha interleave root v / alignmentWords cha interleave root

end Places

section Slots

variable {cha : SDBuildCHA} {interleave : Bool} {root : String}

theorem addressIndex_ordered (v : Vtbl) : addressIndex cha false root v =
    orderedIndex cha (cloudMax cha root) 0 (cha.preorder (root, 0)) v := by
  rw [addressIndex, storedIndex, if_neg Bool.false_ne_true, add_zero, Int.toNat_natCast]

theorem addressIndex_eq (v : Vtbl) : addressIndex cha interleave root v =
    slotOf cha interleave root v * alignmentWords cha interleave root := by
  rw [slotOf, Nat.div_mul_cancel]
  cases interleave with
  | true => exact Nat.one_dvd _
  | false =>
    rw [addressIndex_ordered, alignmentWords, if_neg Bool.false_ne_true]
    exact Nat.dvd_of_mod_eq_zero (orderedIndex_mod (Nat.succ_pos _) _ v 0)

theorem WellFormed.addressIndex_interleaved (h : WellFormed cha) (hroot : root ∈ cha.roots)
    (v : Vtbl) : addressIndex cha true root v = newIndex cha root v 0 :=
  h.storedIndex_interleaved hroot v 0

/-- Address points stand in preorder. -/
theorem WellFormed.addressIndex_lt (h : WellFormed cha) (hroot : root ∈ cha.roots) {i j : Nat}
    {a b : Vtbl} (hij : i < j) (hi : (cha.preorder (root, 0))[i]? = some a)
    (hj : (cha.preorder (root, 0))[j]? = some b) (ha : cha.isDefined a) (hb : cha.isDefined b) :
    addressIndex cha interleave root a < addressIndex cha interleave root b := by
  have hinda := indMap_of_getElem? (cha.preorder_nodup _) hi
  have hindb := indMap_of_getElem? (cha.preorder_nodup _) hj
  have hmema := List.mem_of_getElem? hi
  have hmemb := List.mem_of_getElem? hj
  cases interleave with
  | true =>
    have hrank := rank_lt_of_defined hij (by rw [hi]; exact ha)
    rw [h.addressIndex_interleaved hroot, h.addressIndex_interleaved hroot,
      h.newIndex_zero ⟨hroot, hmema⟩, h.newIndex_zero ⟨hroot, hmemb⟩, hinda, hindb]
    exact Nat.add_lt_add_left hrank _
  | false =>
    rw [indMap_eq hmema] at hinda
    rw [indMap_eq hmemb] at hindb
    rw [addressIndex_ordered, addressIndex_ordered]
    exact orderedIndex_lt _ (cha.preorder_nodup _) (fun n hn => h.le_stop ⟨hroot, hn⟩) hmema hmemb
      ha hb (by rw [hinda, hindb]; exact hij) 0

theorem WellFormed.slotOf_lt (h : WellFormed cha) (hroot : root ∈ cha.roots) {i j : Nat}
    {a b : Vtbl} (hij : i < j) (hi : (cha.preorder (root, 0))[i]? = some a)
    (hj : (cha.preorder (root, 0))[j]? = some b) (ha : cha.isDefined a) (hb : cha.isDefined b) :
    slotOf cha interleave root a < slotOf cha interleave root b := by
  have hlt := @WellFormed.addressIndex_lt cha interleave root h hroot i j a b hij hi hj ha hb
  rw [addressIndex_eq, addressIndex_eq] at hlt
  exact Nat.lt_of_mul_lt_mul_right hlt

end Slots

/-- What the first loop leaves for the later ones, in either layout. -/
structure Located (cha : SDBuildCHA) (interleave : Bool) (st : SDLayoutBuilder) : Prop where
  alignmentMap : ∀ root ∈ cha.roots, st.alignmentMap root = some (alignment cha interleave root)
  newLayoutInds : ∀ {root v}, InCloud cha root v →
    st.newLayoutInds v = positions (fun e => e.1 = v) (cloudElems cha interleave root)

/-- The state of the second loop after the roots `done`. -/
structure Addressed (cha : SDBuildCHA) (interleave : Bool) (done : List String)
    (st : SDLayoutBuilder) : Prop where
  located : Located cha interleave st
  starts : ∀ {root v a}, InCloud cha root v → cha.isDefined v →
    st.newVTableStartAddrMap v = some a → a = addressOf cha interleave root v
  stored : ∀ root ∈ done, ∀ v ∈ cha.preorder (root, 0), cha.isDefined v →
    (st.newVTableStartAddrMap v).isSome

/-- The state of the third loop after the roots `done`. -/
structure Stored (cha : SDBuildCHA) (interleave : Bool) (done : List String)
    (st : SDLayoutBuilder) : Prop where
  addressed : Addressed cha interleave cha.roots st
  memRangeMap : ∀ root ∈ done, ∀ v ∈ cha.preorder (root, 0), ∃ ranges,
    Exact cha (cha.preorder (root, 0)) v ranges ∧
      st.memRangeMap v = ranges.filterMap (blockOf cha interleave root)
  fresh : ∀ root v, InCloud cha root v → root ∉ done →
    st.rangeMap v = none ∧ st.memRangeMap v = []

section Run

variable {cha : SDBuildCHA} {interleave : Bool} (h : Accepted cha) {root : String}
  {done : List String} {st st' : SDLayoutBuilder}
include h

theorem Located.newVtblAddressConst_eq (hst : Located cha interleave st) {v : Vtbl}
    (hv : InCloud cha root v) (hdef : cha.isDefined v) {a : Address}
    (hok : newVtblAddressConst cha st v = .ok a) : a = addressOf cha interleave root v := by
  unfold newVtblAddressConst at hok
  rw [h.ancestor hv] at hok
  simp only [hst.newLayoutInds hv, h.positions_addrPt hv hdef] at hok
  split at hok
  · cases hok
  · split at hok
    · cases hok
    · split at hok
      · exact (Except.ok.inj hok).symm
      · cases hok

theorem Addressed.step (hst : Addressed cha interleave done st)
    (hok : emitCloud cha st root = .ok st') : Addressed cha interleave (done ++ [root]) st' := by
  have hnodes := emitCloud_rule (fun nodes t => Addressed cha interleave done t ∧
    ∀ v ∈ nodes, cha.isDefined v → (t.newVTableStartAddrMap v).isSome) ?cloud ?skip ?store hok
  case cloud =>
    intro functions elems
    exact ⟨⟨⟨hst.located.alignmentMap, hst.located.newLayoutInds⟩, hst.starts, hst.stored⟩,
      List.forall_mem_nil _⟩
  case skip =>
    rintro nodes v t hundef ⟨ht, hnodes⟩
    rw [List.forall_mem_append, List.forall_mem_singleton]
    exact ⟨ht, hnodes, fun hdef => absurd hdef hundef⟩
  case store =>
    rintro nodes v t start hv hdef hstart ⟨ht, hnodes⟩
    have hsome : ∀ w, (t.newVTableStartAddrMap w).isSome →
        (Function.update t.newVTableStartAddrMap v (some start) w).isSome := by
      intro w hw
      by_cases hwv : w = v
      · rw [hwv, Function.update_self, Option.isSome_some]
      · rwa [Function.update_of_ne hwv]
    constructor
    · constructor
      · exact ⟨ht.located.alignmentMap, ht.located.newLayoutInds⟩
      · intro root' w a hw hdefw ha
        dsimp only at ha
        by_cases hwv : w = v
        · subst hwv
          rw [Function.update_self, Option.some.injEq] at ha
          exact ha ▸ ht.located.newVtblAddressConst_eq h hw hdefw hstart
        · rw [Function.update_of_ne hwv] at ha
          exact ht.starts hw hdefw ha
      · exact fun root' hold w hw hdefw => hsome w (ht.stored root' hold w hw hdefw)
    · rw [List.forall_mem_append, List.forall_mem_singleton]
      exact ⟨fun w hw hdefw => hsome w (hnodes w hw hdefw),
        fun _ => by dsimp only; rw [Function.update_self, Option.isSome_some]⟩
  obtain ⟨haddressed, hall⟩ := hnodes
  refine ⟨haddressed.located, haddressed.starts, ?_⟩
  rw [List.forall_mem_append, List.forall_mem_singleton]
  exact ⟨haddressed.stored, hall⟩

theorem Located.memRange_eq (hst : Located cha interleave st) (hroot : root ∈ cha.roots)
    {range : CHA.Range} {ranges : List (Address × Nat)}
    (hok : memRange cha st (cha.preorder (root, 0)) range = .ok ranges) :
    ranges = (blockOf cha interleave root range).toList := by
  have hcut : ((cha.preorder (root, 0)).drop range.1).take (range.2 - range.1) =
      cut (cha.preorder (root, 0)) range := rfl
  simp only [memRange, hcut] at hok
  rw [blockOf]
  cases hfind : (cut (cha.preorder (root, 0)) range).find? cha.isDefined with
  | none =>
    have hzero : (cut (cha.preorder (root, 0)) range).countP cha.isDefined = 0 :=
      List.countP_eq_zero.mpr (List.find?_eq_none.mp hfind)
    rw [hzero, hfind] at hok
    exact (Except.ok.inj hok).symm
  | some start =>
    obtain ⟨j, -, -, hj, hdef, -⟩ := find?_cut _ _ hfind
    have hpos : 0 < (cut (cha.preorder (root, 0)) range).countP cha.isDefined :=
      List.countP_pos_iff.mpr ⟨start, List.mem_of_find?_eq_some hfind, hdef⟩
    obtain ⟨count, hcount⟩ := Nat.exists_eq_succ_of_ne_zero hpos.ne'
    simp only [hcount, hfind, bind_eq_ok] at hok
    obtain ⟨address, haddress, hok⟩ := hok
    obtain rfl := hst.newVtblAddressConst_eq h ⟨hroot, List.mem_of_getElem? hj⟩ hdef haddress
    rw [hcount]
    exact (Except.ok.inj hok).symm

theorem Stored.step (hst : Stored cha interleave done st) (hdone : done ⊆ cha.roots)
    (hroot : root ∈ cha.roots) (hnew : root ∉ done) (hok : rangeCloud cha st root = .ok st') :
    Stored cha interleave (done ++ [root]) st' := by
  have hnodes := rangeCloud_rule (fun nodes t => Addressed cha interleave cha.roots t ∧
    calculateVPtrRangesHelper cha (cha.preorder (root, 0)) (cha.vtbls.length + 1) (root, 0)
      st.rangeMap = .ok t.rangeMap ∧
    (∀ v ∈ nodes, t.memRangeMap v =
      ((t.rangeMap v).getD []).filterMap (blockOf cha interleave root)) ∧
    ∀ v ∉ nodes, t.memRangeMap v = st.memRangeMap v) ?ranges ?mem hok
  case ranges =>
    intro m hm
    exact ⟨⟨⟨hst.addressed.located.alignmentMap, hst.addressed.located.newLayoutInds⟩,
      hst.addressed.starts, hst.addressed.stored⟩, hm, List.forall_mem_nil _, fun _ _ => rfl⟩
  case mem =>
    rintro nodes v t ranges hv hvnew hranges ⟨ht, hm, hnodes, hother⟩
    have hmap : ranges = ((t.rangeMap v).getD []).map fun range =>
        (blockOf cha interleave root range).toList := by
      have hall : ∀ range ∈ (t.rangeMap v).getD [], memRange cha t (cha.preorder (root, 0)) range =
          .ok (blockOf cha interleave root range).toList := by
        intro range hrange
        obtain ⟨rs, hrs⟩ := forall_of_mapM_eq_ok hranges range hrange
        rw [hrs, ht.located.memRange_eq h hroot hrs]
      exact Except.ok.inj (hranges.symm.trans (mapM_eq_ok hall))
    refine ⟨⟨⟨ht.located.alignmentMap, ht.located.newLayoutInds⟩, ht.starts, ht.stored⟩, hm, ?_, ?_⟩
    · rw [List.forall_mem_append, List.forall_mem_singleton]
      dsimp only
      constructor
      · intro w hw
        rw [Function.update_of_ne (ne_of_mem_of_not_mem hw hvnew)]
        exact hnodes w hw
      · rw [Function.update_self, hother v hvnew, (hst.fresh root v ⟨hroot, hv⟩ hnew).2,
          List.nil_append, hmap, List.filterMap_eq_flatMap_toList, List.flatMap_def]
    · intro w hw
      rw [List.mem_append, List.mem_singleton, not_or] at hw
      dsimp only
      rw [Function.update_of_ne hw.2]
      exact hother w hw.1
  obtain ⟨haddressed, hm, hmem, hother⟩ := hnodes
  obtain ⟨m, hm', houtside, hexact⟩ := rangeMap_ok h.acyclic hroot (m := st.rangeMap)
    fun v hv => (hst.fresh root v ⟨hroot, hv⟩ hnew).1
  obtain rfl := Except.ok.inj (hm'.symm.trans hm)
  constructor
  · exact haddressed
  · rw [List.forall_mem_append, List.forall_mem_singleton]
    constructor
    · intro root' hold v hv
      have hout := notMem_preorder h.unique ⟨hdone hold, hv⟩ hroot (ne_of_mem_of_not_mem hold hnew)
      rw [hother v hout]
      exact hst.memRangeMap root' hold v hv
    · intro v hv
      obtain ⟨ranges, hsome, hex⟩ := hexact v hv
      exact ⟨ranges, hex, by rw [hmem v hv, hsome, Option.getD_some]⟩
  · intro root' v hv hmem'
    rw [List.mem_append, List.mem_singleton, not_or] at hmem'
    have hout := notMem_preorder h.unique hv hroot hmem'.2
    obtain ⟨hnone, hnil⟩ := hst.fresh root' v hv hmem'.1
    exact ⟨(houtside v hout).trans hnone, (hother v hout).trans hnil⟩

theorem stored_of_build {functions : List String}
    (hok : buildNewLayouts cha interleave functions = .ok st) :
    Stored cha interleave cha.roots st := by
  obtain ⟨st₁, st₂, hlayout, hemit, hrange⟩ := buildNewLayouts_eq_ok.mp hok
  obtain ⟨st₁', hlayout', hlaid⟩ := laid_roots h.toPointed interleave functions
  obtain rfl := Except.ok.inj (hlayout'.symm.trans hlayout)
  have hemitted := foldlM_ok_rule (fun done t => Addressed cha interleave done t ∧
    t.rangeMap = (fun _ => none) ∧ t.memRangeMap = fun _ => []) ?emit ?start hemit
  case emit =>
    rintro done root t t' ⟨ht, hranges, hmem⟩ - hstep
    exact ⟨ht.step h hstep, emitCloud_rule
      (fun _ t => t.rangeMap = (fun _ => none) ∧ t.memRangeMap = fun _ => [])
      (fun _ _ => ⟨hranges, hmem⟩) (fun _ _ _ _ ht => ht) (fun _ _ _ _ _ _ _ ht => ht) hstep⟩
  case start =>
    refine ⟨⟨⟨hlaid.alignmentMap, fun hv => hlaid.newLayoutInds _ hv.1 _ hv.2⟩, ?_,
      List.forall_mem_nil _⟩, hlaid.rangeMap, hlaid.memRangeMap⟩
    intro root v a _ _ ha
    rw [hlaid.newVTableStartAddrMap] at ha
    cases ha
  obtain ⟨haddressed, hranges, hmem⟩ := hemitted
  have hstored := foldlM_nodup_ok_rule (fun done t => done ⊆ cha.roots ∧
    Stored cha interleave done t) h.roots_nodup ?range ?fresh hrange
  case range =>
    rintro done root t t' hroot hnew ⟨hdone, ht⟩ hstep
    exact ⟨List.append_subset.mpr ⟨hdone, List.cons_subset.mpr ⟨hroot, List.nil_subset _⟩⟩,
      ht.step h hdone hroot hnew hstep⟩
  case fresh =>
    refine ⟨List.nil_subset _, haddressed, List.forall_mem_nil _, ?_⟩
    intro root v _ _
    rw [hranges, hmem]
    exact ⟨rfl, rfl⟩
  exact hstored.2

end Run

end RhoFEM.Layout
