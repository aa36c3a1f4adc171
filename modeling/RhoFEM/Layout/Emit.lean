import RhoFEM.Layout.Padded

/-! The second loop of `buildNewLayouts`: the thunk copies, the elements of the new
vtables, and the new address points. -/

namespace RhoFEM.Layout

open RhoFEM.CHA RhoFEM.Lib.Fold RhoFEM.Lib.Rounds

section Thunks

variable (cha : SDBuildCHA)

/-- If the element is a virtual thunk, its copy is among the functions. -/
def Cloned (name : String) (elem : Constant × Nat) (functions : List String) : Prop :=
  ∀ thunk order, getVthunkFunction elem.1 = some thunk →
    cha.getVTableOrder name elem.2 = some order →
      newVthunkName thunk (cha.getLayoutClassName (name, order)) ∈ functions

def NodeCloned (functions : List String) (v : Vtbl) : Prop :=
  ∀ vtable, cha.oldVTables v.1 = some vtable → ∀ elem ∈ vtable.zipIdx, Cloned cha v.1 elem functions

variable {cha}

theorem Cloned.mono {name : String} {elem : Constant × Nat} {functions functions' : List String}
    (h : Cloned cha name elem functions) (hsub : functions ⊆ functions') :
    Cloned cha name elem functions' :=
  fun thunk order hthunk horder => hsub (h thunk order hthunk horder)

theorem NodeCloned.mono {v : Vtbl} {functions functions' : List String}
    (h : NodeCloned cha functions v) (hsub : functions ⊆ functions') :
    NodeCloned cha functions' v :=
  fun vtable hvtable elem helem => (h vtable hvtable elem helem).mono hsub

theorem createThunkFunction_ok {name : String} {elem : Constant × Nat} (functions : List String)
    (horder : (getVthunkFunction elem.1).isSome → (cha.getVTableOrder name elem.2).isSome) :
    ∃ functions', createThunkFunction cha name functions elem = .ok functions' ∧
      functions ⊆ functions' ∧ Cloned cha name elem functions' := by
  rw [createThunkFunction]
  cases hthunk : getVthunkFunction elem.1 with
  | none => exact ⟨functions, rfl, List.Subset.refl _, fun thunk _ h => by simp [hthunk] at h⟩
  | some thunk =>
    obtain ⟨order, hsome⟩ := Option.isSome_iff_exists.mp (horder (by simp [hthunk]))
    have hcloned : ∀ functions' : List String,
        newVthunkName thunk (cha.getLayoutClassName (name, order)) ∈ functions' →
          Cloned cha name elem functions' := by
      intro functions' hmem thunk' order' hthunk' horder'
      obtain rfl : thunk = thunk' := Option.some.inj (hthunk.symm.trans hthunk')
      obtain rfl : order = order' := Option.some.inj (hsome.symm.trans horder')
      exact hmem
    simp only [hsome]
    split
    · rename_i hmem
      exact ⟨functions, rfl, List.Subset.refl _, hcloned _ hmem⟩
    · exact ⟨_, rfl, List.subset_append_left _ _, hcloned _ (by simp)⟩

theorem createNodeThunks_ok (hfilled : Filled cha) {root : String} {v : Vtbl}
    (hv : InCloud cha root v) (functions : List String) :
    ∃ functions', createNodeThunks cha functions v = .ok functions' ∧
      functions ⊆ functions' ∧ NodeCloned cha functions' v := by
  unfold createNodeThunks
  cases hold : cha.oldVTables v.1 with
  | none =>
    have hundef : cha.isUndefined v := by
      by_contra hdef
      obtain ⟨vtable, hvtable, -⟩ :=
        hfilled.oldVTable hv (SDBuildCHA.isDefined_iff.mpr hdef)
      exact Option.some_ne_none vtable (hvtable.symm.trans hold)
    exact ⟨functions, if_pos hundef, List.Subset.refl _,
      fun vtable hvtable => absurd (hvtable.symm.trans hold) (Option.some_ne_none vtable)⟩
  | some vtable =>
    have hclone := foldlM_exists_ok (f := createThunkFunction cha v.1) (s := functions)
      (fun done functions' => functions ⊆ functions' ∧
        ∀ elem ∈ done, Cloned cha v.1 elem functions')
      vtable.zipIdx ?step ⟨List.Subset.refl _, List.forall_mem_nil _⟩
    case step =>
      intro done elem rest functions₁ hsplit hdone
      obtain ⟨hsub, hcloned⟩ := hdone
      obtain ⟨functions₂, hok, hsub₂, hnew⟩ := createThunkFunction_ok functions₁
        (hfilled.thunks hv hold elem (by rw [hsplit]; simp))
      refine ⟨functions₂, hok, List.Subset.trans hsub hsub₂, ?_⟩
      rw [List.forall_mem_append, List.forall_mem_singleton]
      exact ⟨fun elem' hmem => (hcloned elem' hmem).mono hsub₂, hnew⟩
    obtain ⟨functions', hok, hsub, hcloned⟩ := hclone
    refine ⟨functions', hok, hsub, ?_⟩
    intro vtable' hvtable'
    obtain rfl : vtable = vtable' := Option.some.inj (hold.symm.trans hvtable')
    exact hcloned

theorem createThunkFunctions_ok (hfilled : Filled cha) {root : String} (hroot : root ∈ cha.roots)
    (functions : List String) :
    ∃ functions', createThunkFunctions cha root functions = .ok functions' ∧
      ∀ v ∈ cha.preorder (root, 0), NodeCloned cha functions' v := by
  apply foldlM_exists_ok fun done functions' => ∀ v ∈ done, NodeCloned cha functions' v
  case hstart => exact List.forall_mem_nil _
  case hstep =>
    intro done v rest functions₁ hsplit hdone
    have hv : InCloud cha root v := ⟨hroot, by rw [hsplit]; simp⟩
    obtain ⟨functions₂, hok, hsub, hnew⟩ := createNodeThunks_ok hfilled hv functions₁
    refine ⟨functions₂, hok, ?_⟩
    rw [List.forall_mem_append, List.forall_mem_singleton]
    exact ⟨fun w hw => (hdone w hw).mono hsub, hnew⟩

end Thunks

section Elements

variable (cha : SDBuildCHA)

/-- A virtual thunk becomes its copy for the cloud of the sub-vtable. -/
def renamed (v : Vtbl) (c : Constant) : Constant :=
  match getVthunkFunction c with
  | none => c
  | some thunk => .bitCast (newVthunkName thunk (cha.getLayoutClassName v))

/-- The element of the old vtable of a sub-vtable. -/
def oldElem (e : Interleaving) : Option Constant :=
  (cha.oldVTables e.1.1).bind fun vtable => vtable[e.2.toNat]?

def newElem (e : Interleaving) : Constant := renamed cha e.1 ((oldElem cha e).getD .null)

def startAddr (root : String) (v : Vtbl) : Address :=
  (newVtableName root, newIndex cha root v 0 * wordWidth)

variable {cha}

theorem oldElem_isSome (hfilled : Filled cha) {root : String} {e : Interleaving}
    (he : e ∈ cloudInterleaving cha root) (hroot : root ∈ cha.roots) : (oldElem cha e).isSome := by
  obtain ⟨hmem, r, hslot, hpos⟩ := mem_cloudInterleaving he
  obtain ⟨hdef, -, hstop⟩ := slot_iff.mp hslot
  obtain ⟨vtable, hvtable, hlength⟩ := hfilled.oldVTable ⟨hroot, hmem⟩ hdef
  rw [oldElem, hvtable, Option.bind_some, List.getElem?_eq_getElem (by omega)]
  rfl

theorem newVtableElem_eq (h : WellFormed cha) (hfilled : Filled cha) {root : String}
    (hroot : root ∈ cha.roots) {functions : List String}
    (hcloned : ∀ v ∈ cha.preorder (root, 0), NodeCloned cha functions v) {e : Interleaving}
    (he : e ∈ cloudInterleaving cha root) :
    newVtableElem cha functions e = .ok (newElem cha e) := by
  obtain ⟨hmem, r, hslot, hpos⟩ := mem_cloudInterleaving he
  obtain ⟨hdef, hstart, hstop⟩ := slot_iff.mp hslot
  have hv : InCloud cha root e.1 := ⟨hroot, hmem⟩
  have hindex : oldIndex e = e.2.toNat := if_pos (by omega)
  have hdefined : cha.isUndefined e.1 = false := by simpa [SDBuildCHA.isDefined] using hdef
  have hread : ¬ (cha.isUndefined e.1 ∨ e.1 = dummyVtable ∨ oldIndex e < (cha.getRange e.1).1) := by
    rw [hdefined, hindex]
    simp only [Bool.false_eq_true, false_or, not_or]
    exact ⟨h.ne_dummy hv, by omega⟩
  obtain ⟨c, hc⟩ := Option.isSome_iff_exists.mp (oldElem_isSome hfilled he hroot)
  obtain ⟨vtable, hvtable, hget⟩ := Option.bind_eq_some_iff.mp hc
  rw [newVtableElem, if_neg hread, newElem, hc, Option.getD_some, renamed]
  simp only [hvtable, hindex, hget]
  cases hthunk : getVthunkFunction c with
  | none => rfl
  | some thunk =>
    have horder := h.getVTableOrder_eq hv (i := e.2.toNat) (by omega) (by omega)
    have hclone := hcloned e.1 hmem vtable hvtable (c, e.2.toNat)
      (List.mem_zipIdx_iff_getElem?.mpr hget) thunk e.1.2 hthunk horder
    exact if_pos hclone

theorem newVtblAddressConst_eq (h : WellFormed cha) {root : String} {v : Vtbl}
    (hv : InCloud cha root v) (hdef : cha.isDefined v) {st : SDLayoutBuilder}
    (hinds : st.newLayoutInds v = positions (fun e => e.1 = v) (cloudInterleaving cha root))
    (hcloud : (st.cloudStartMap (newVtableName root)).isSome) :
    newVtblAddressConst cha st v = .ok (startAddr cha root v) := by
  have haddrPt : cha.addrPtMap v.1 ≠ [] := List.ne_nil_of_length_pos
    ((Nat.zero_le _).trans_lt (h.hasAddrPt hv))
  have hstart := h.start_le hv
  have hstop := h.le_stop hv
  have hindex := newIndex_getElem? hv hdef (k := cha.addrPt v - (cha.getRange v).1) (by omega)
  have hzero : ((cha.getRange v).1 + (cha.addrPt v - (cha.getRange v).1 : Nat) - cha.addrPt v : ℤ) =
      0 := by omega
  rw [hzero] at hindex
  unfold newVtblAddressConst
  rw [h.ancestor hv]
  simp only [hinds, hindex]
  rw [if_neg (not_not_intro hv.1), if_neg haddrPt, if_pos hcloud, startAddr]

end Elements

/-- What the first loop leaves for the later ones. -/
structure Indexed (cha : SDBuildCHA) (st : SDLayoutBuilder) : Prop where
  interleavingMap : ∀ root ∈ cha.roots, st.interleavingMap root = cloudInterleaving cha root
  alignmentMap : ∀ root ∈ cha.roots, st.alignmentMap root = some wordWidth
  newLayoutInds : ∀ {root v}, InCloud cha root v →
    st.newLayoutInds v = positions (fun e => e.1 = v) (cloudInterleaving cha root)

/-- The state of the second loop after the roots `done`. -/
structure Emitted (cha : SDBuildCHA) (done : List String) (st : SDLayoutBuilder) : Prop where
  indexed : Indexed cha st
  cloudStartMap : ∀ root ∈ done,
    st.cloudStartMap (newVtableName root) = some ((cloudInterleaving cha root).map (newElem cha))
  newVTableStartAddrMap : ∀ root ∈ done, ∀ v ∈ cha.preorder (root, 0), cha.isDefined v →
    st.newVTableStartAddrMap v = some (startAddr cha root v)
  undefined : ∀ v, cha.isUndefined v → st.newVTableStartAddrMap v = none
  fresh : ∀ root v, InCloud cha root v → root ∉ done → st.newVTableStartAddrMap v = none

variable {cha : SDBuildCHA}

theorem LaidOut.emitted {functions : List String} {st : SDLayoutBuilder}
    (h : LaidOut cha functions st) : Emitted cha [] st where
  indexed := ⟨h.interleavingMap, h.alignmentMap, fun hv => h.newLayoutInds _ hv.1 _ hv.2⟩
  cloudStartMap := List.forall_mem_nil _
  newVTableStartAddrMap := List.forall_mem_nil _
  undefined v _ := by rw [h.newVTableStartAddrMap]
  fresh root v _ _ := by rw [h.newVTableStartAddrMap]

/-- The address points that the second loop adds for a cloud. -/
def withStarts (cha : SDBuildCHA) (root : String) (done : List Vtbl) (st : SDLayoutBuilder) :
    SDLayoutBuilder :=
  { st with newVTableStartAddrMap := fun v =>
      if v ∈ done ∧ cha.isDefined v then some (startAddr cha root v)
      else st.newVTableStartAddrMap v }

theorem withStarts_concat (root : String) (done : List Vtbl) (st : SDLayoutBuilder) (v : Vtbl) :
    withStarts cha root (done ++ [v]) st = if cha.isDefined v then
      { withStarts cha root done st with
        newVTableStartAddrMap :=
          Function.update (withStarts cha root done st).newVTableStartAddrMap v
          (some (startAddr cha root v)) }
      else withStarts cha root done st := by
  split <;>
  · rename_i hdef
    simp only [withStarts]
    congr 1
    funext w
    by_cases hw : w = v
    · subst hw
      simp [hdef]
    · simp [hw]

theorem storeStartAddr_ok (h : WellFormed cha) {root : String} {st : SDLayoutBuilder}
    (hindexed : Indexed cha st) (hcloud : (st.cloudStartMap (newVtableName root)).isSome)
    {done : List Vtbl} {v : Vtbl} (hv : InCloud cha root v) (hnew : v ∉ done)
    (hfresh : st.newVTableStartAddrMap v = none) :
    storeStartAddr cha (withStarts cha root done st) v =
      .ok (withStarts cha root (done ++ [v]) st) := by
  have hnone : (withStarts cha root done st).newVTableStartAddrMap v = none := by
    simp [withStarts, hnew, hfresh]
  rw [storeStartAddr]
  by_cases hdef : cha.isDefined v
  · have haddr : newVtblAddressConst cha (withStarts cha root done st) v =
        .ok (startAddr cha root v) :=
      newVtblAddressConst_eq h hv hdef (hindexed.newLayoutInds hv) hcloud
    rw [if_pos hdef, hnone, if_neg (by simp), bind_eq_ok, withStarts_concat, if_pos hdef]
    exact ⟨_, haddr, rfl⟩
  · rw [if_neg hdef, withStarts_concat, if_neg hdef]

theorem storeStartAddr_foldlM (h : WellFormed cha) {root : String} (hroot : root ∈ cha.roots)
    {st : SDLayoutBuilder} (hindexed : Indexed cha st)
    (hcloud : (st.cloudStartMap (newVtableName root)).isSome)
    (hfresh : ∀ v ∈ cha.preorder (root, 0), st.newVTableStartAddrMap v = none) :
    (cha.preorder (root, 0)).foldlM (storeStartAddr cha) st =
      .ok (withStarts cha root (cha.preorder (root, 0)) st) := by
  have hfold := foldlM_nodup_exists_ok (f := storeStartAddr cha) (s := st)
    (fun done st' => st' = withStarts cha root done st) (cha.preorder_nodup (root, 0)) ?step
    (by simp [withStarts])
  case step =>
    rintro done v _ - hmem hnew rfl
    exact ⟨_, storeStartAddr_ok h hindexed hcloud ⟨hroot, hmem⟩ hnew (hfresh v hmem), rfl⟩
  obtain ⟨st', hok, rfl⟩ := hfold
  exact hok

theorem Emitted.step (h : WellFormed cha) (hfilled : Filled cha) {done : List String}
    {st : SDLayoutBuilder} (hst : Emitted cha done st) {root : String} (hdone : done ⊆ cha.roots)
    (hroot : root ∈ cha.roots) (hnew : root ∉ done) :
    ∃ st', emitCloud cha st root = .ok st' ∧ Emitted cha (done ++ [root]) st' ∧
      st'.rangeMap = st.rangeMap ∧ st'.memRangeMap = st.memRangeMap := by
  obtain ⟨functions, hthunks, hcloned⟩ := createThunkFunctions_ok hfilled hroot st.functions
  have helems : (st.interleavingMap root).mapM (newVtableElem cha functions) =
      .ok ((cloudInterleaving cha root).map (newElem cha)) := by
    rw [hst.indexed.interleavingMap root hroot]
    exact mapM_eq_ok fun e he => newVtableElem_eq h hfilled hroot hcloned he
  have hok : emitCloud cha st root = .ok (withStarts cha root (cha.preorder (root, 0)) { st with
      functions := functions
      cloudStartMap := Function.update st.cloudStartMap (newVtableName root)
        (some ((cloudInterleaving cha root).map (newElem cha))) }) := by
    rw [emitCloud, bind_eq_ok]
    refine ⟨functions, hthunks, ?_⟩
    rw [createNewVTable, bind_eq_ok]
    refine ⟨_, helems, ?_⟩
    dsimp only
    rw [hst.indexed.alignmentMap root hroot]
    apply storeStartAddr_foldlM h hroot
    · exact ⟨hst.indexed.interleavingMap, hst.indexed.alignmentMap, hst.indexed.newLayoutInds⟩
    · simp
    · exact fun v hv => hst.fresh root v ⟨hroot, hv⟩ hnew
  refine ⟨_, hok, ?_, rfl, rfl⟩
  constructor
  · exact ⟨hst.indexed.interleavingMap, hst.indexed.alignmentMap, hst.indexed.newLayoutInds⟩
  · rw [List.forall_mem_append, List.forall_mem_singleton]
    constructor
    · intro root' hold
      have hne := newVtableName_injective.ne (ne_of_mem_of_not_mem hold hnew)
      exact (Function.update_of_ne hne _ _).trans (hst.cloudStartMap root' hold)
    · exact Function.update_self ..
  · rw [List.forall_mem_append, List.forall_mem_singleton]
    constructor
    · intro root' hold v hv hdef
      have hother := notMem_preorder h.unique ⟨hdone hold, hv⟩ hroot
        (ne_of_mem_of_not_mem hold hnew)
      exact (if_neg fun hand => hother hand.1).trans
        (hst.newVTableStartAddrMap root' hold v hv hdef)
    · exact fun v hv hdef => if_pos ⟨hv, hdef⟩
  · intro v hundef
    exact (if_neg fun hand => by simp [SDBuildCHA.isDefined, hundef] at hand).trans
      (hst.undefined v hundef)
  · intro root' v hv hmem
    rw [List.mem_append, List.mem_singleton, not_or] at hmem
    have hother := notMem_preorder h.unique hv hroot hmem.2
    exact (if_neg fun hand => hother hand.1).trans (hst.fresh root' v hv hmem.1)

theorem emitted_roots (h : WellFormed cha) (hfilled : Filled cha) {st : SDLayoutBuilder}
    (hst : Emitted cha [] st) :
    ∃ st', cha.roots.foldlM (emitCloud cha) st = .ok st' ∧ Emitted cha cha.roots st' ∧
      st'.rangeMap = st.rangeMap ∧ st'.memRangeMap = st.memRangeMap := by
  apply foldlM_nodup_exists_ok (fun done st' => Emitted cha done st' ∧
    st'.rangeMap = st.rangeMap ∧ st'.memRangeMap = st.memRangeMap) h.roots_nodup
  case hstep =>
    rintro done root st' hdone hroot hnew ⟨hst', hranges, hmem⟩
    obtain ⟨st'', hok, hemitted, hranges', hmem'⟩ := hst'.step h hfilled hdone hroot hnew
    exact ⟨st'', hok, hemitted, hranges'.trans hranges, hmem'.trans hmem⟩
  case hstart => exact ⟨hst, rfl, rfl⟩

end RhoFEM.Layout
