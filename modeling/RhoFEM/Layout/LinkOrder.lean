import RhoFEM.CHA.LinkOrder
import RhoFEM.Layout.Builder
import RhoFEM.Lib.Simulation

/-! The new layouts do not change with the order in which the records of the classes and the
functions of the modules are linked. -/

namespace RhoFEM.Layout

open RhoFEM.CHA RhoFEM.Lib.Fold RhoFEM.Lib.Simulation

section Tables

variable {cha cha' : SDBuildCHA} (h : SameTables cha cha')
include h

theorem interleaveCloudNew_congr : interleaveCloudNew cha = interleaveCloudNew cha' := by
  have hpad : padChild cha = padChild cha' := by
    funext preorder parent prePadMap child
    rw [padChild, padChild, h.addrPt, h.getRange]
  have hprePad : prePad cha = prePad cha' := by
    funext preorder prePadMap
    rw [prePad, prePad, hpad, h.isUndefined, h.children]
  have hround : fillRound cha = fillRound cha' := by
    have hnode : fillNode cha = fillNode cha' := by
      funext positive lastPosMap st n
      rw [fillNode, fillNode, h.isUndefined]
    funext positive lastPosMap nodes posMap
    rw [fillRound, fillRound, hnode]
  have hloop : ∀ positive lastPosMap nodes fuel, fillLoop cha positive lastPosMap nodes fuel =
      fillLoop cha' positive lastPosMap nodes fuel := by
    intro positive lastPosMap nodes fuel
    induction fuel with
    | zero => rfl
    | succ fuel ih =>
      funext posMap part
      rw [fillLoop, fillLoop, hround, ih]
  have hpart : fillVtablePart cha = fillVtablePart cha' := by
    funext prePadMap nodes positive
    have hfirst : firstPos cha = firstPos cha' := by
      funext positive n
      rw [firstPos, firstPos, h.addrPt]
    have hlast : lastPos cha = lastPos cha' := by
      funext prePadMap positive n
      rw [lastPos, lastPos, h.getRange]
    have hbound : slotBound cha = slotBound cha' := by
      funext prePadMap nodes
      rw [slotBound, slotBound, h.addrPt, h.getRange]
    rw [fillVtablePart, fillVtablePart, hloop, hfirst, hlast, hbound]
  funext vtbl st
  rw [interleaveCloudNew, interleaveCloudNew, h.preorder, hprePad, hpart]

theorem orderCloud_congr : orderCloud cha = orderCloud cha' := by
  have hchild : orderChild cha = orderChild cha' := by
    funext max orderedVtbl child
    rw [orderChild, orderChild, h.isUndefined, h.addrPt, h.getRange]
  funext vtbl st
  rw [orderCloud, orderCloud, h.preorder, hchild, h.getRange]

theorem layoutCloud_congr : layoutCloud cha = layoutCloud cha' := by
  funext interleave st vtbl
  rw [layoutCloud, layoutCloud, interleaveCloudNew_congr h, orderCloud_congr h]

theorem newVtblAddressConst_congr : newVtblAddressConst cha = newVtblAddressConst cha' := by
  funext st vtbl
  rw [newVtblAddressConst, newVtblAddressConst, h.ancestorMap, h.roots, h.addrPtMap, h.addrPt,
    h.getRange]

theorem emitCloud_congr : emitCloud cha = emitCloud cha' := by
  have hthunk : createThunkFunction cha = createThunkFunction cha' := by
    funext vtbl functions elem
    rw [createThunkFunction, createThunkFunction, h.getVTableOrder, h.getLayoutClassName]
  have hnode : createNodeThunks cha = createNodeThunks cha' := by
    funext functions v
    rw [createNodeThunks, createNodeThunks, h.oldVTables, h.isUndefined, hthunk]
  have hthunks : createThunkFunctions cha = createThunkFunctions cha' := by
    funext rootName functions
    rw [createThunkFunctions, createThunkFunctions, h.preorder, hnode]
  have helem : newVtableElem cha = newVtableElem cha' := by
    funext functions ivtbl
    rw [newVtableElem, newVtableElem, h.isUndefined, h.getRange, h.oldVTables,
      h.getLayoutClassName]
  have hstore : storeStartAddr cha = storeStartAddr cha' := by
    funext st vnode
    rw [storeStartAddr, storeStartAddr, h.isDefined, newVtblAddressConst_congr h]
  funext st vtbl
  rw [emitCloud, emitCloud, hthunks]
  congr 1
  funext functions
  rw [createNewVTable, createNewVTable, helem, h.preorder, hstore]

theorem rangeCloud_congr : rangeCloud cha = rangeCloud cha' := by
  have hhelper : ∀ preorder fuel, calculateVPtrRangesHelper cha preorder fuel =
      calculateVPtrRangesHelper cha' preorder fuel := by
    intro preorder fuel
    induction fuel with
    | zero => rfl
    | succ fuel ih =>
      funext vtbl rangeMap
      rw [calculateVPtrRangesHelper, calculateVPtrRangesHelper, ih, h.children]
  have hrange : memRange cha = memRange cha' := by
    funext st preorder range
    rw [memRange, memRange, h.isDefined, newVtblAddressConst_congr h]
  have hranges : memRanges cha = memRanges cha' := by
    funext preorder st v
    rw [memRanges, memRanges, hrange]
  have hverify : verifyRanges cha = verifyRanges cha' := by
    funext preorder ranges v
    rw [verifyRanges, verifyRanges, h.preorder]
  funext st vtbl
  rw [rangeCloud, rangeCloud, calculateVPtrRanges, calculateVPtrRanges, h.preorder, hhelper,
    h.length_vtbls, hranges]
  congr 1
  funext st
  rw [verifyVPtrRanges, verifyVPtrRanges, h.preorder, hverify]

theorem buildNewLayouts_congr : buildNewLayouts cha = buildNewLayouts cha' := by
  funext interleave functions
  rw [buildNewLayouts, buildNewLayouts, h.roots, layoutCloud_congr h, emitCloud_congr h,
    rangeCloud_congr h]

theorem representative_congr : representative cha = representative cha' := by
  funext v
  rw [representative, representative, h.isUndefined, h.firstDefinedChild]

theorem translateVtblInd_congr : translateVtblInd cha = translateVtblInd cha' := by
  funext st vname offset isRelative
  simp only [translateVtblInd, representative_congr h, h.mem_cloudMap, h.firstDefinedChild,
    h.addrPt, h.getRange]

end Tables

section Functions

variable (cha : SDBuildCHA)

/-- The functions of the module are neither read nor changed. -/
def IgnoresFunctions {α : Type} (f : SDLayoutBuilder → α → Except Failure SDLayoutBuilder) : Prop :=
  ∀ st x t, f st x = .ok t → t.functions = st.functions ∧
    ∀ functions, f { st with functions := functions } x = .ok { t with functions := functions }

theorem IgnoresFunctions.foldlM {α : Type}
    {f : SDLayoutBuilder → α → Except Failure SDLayoutBuilder} (h : IgnoresFunctions f) :
    IgnoresFunctions fun st xs => List.foldlM f st xs := by
  intro st xs t hfold
  constructor
  · exact foldlM_ok_rule (fun _ u => u.functions = st.functions)
      (fun _ x u u' hu _ hstep => (h u x u' hstep).1.trans hu) rfl hfold
  · intro functions
    obtain ⟨t', hrun, rfl⟩ := foldlM_forward (fun u u' : SDLayoutBuilder =>
      u' = { u with functions := functions }) (P := fun _ => True) (fun _ _ _ _ _ => trivial)
      (fun x _ u u' v hu hstep _ => ⟨_, hu ▸ (h u x v hstep).2 functions, rfl⟩) rfl hfold trivial
    exact hrun

theorem layoutCloud_ignores (interleave : Bool) :
    IgnoresFunctions (layoutCloud cha interleave) := by
  intro st root t h
  cases interleave with
  | false =>
    obtain rfl := Except.ok.inj h
    exact ⟨rfl, fun _ => rfl⟩
  | true =>
    simp only [layoutCloud, if_true, interleaveCloudNew, bind_eq_ok] at h
    obtain ⟨_, ⟨negative, hnegative, positive, hpositive, hfill⟩, hnew⟩ := h
    obtain rfl := Except.ok.inj hfill
    obtain rfl := Except.ok.inj hnew
    refine ⟨rfl, fun functions => ?_⟩
    simp only [layoutCloud, if_true, interleaveCloudNew, bind_eq_ok]
    exact ⟨_, ⟨negative, hnegative, positive, hpositive, rfl⟩, rfl⟩

theorem storeStartAddr_ignores : IgnoresFunctions (storeStartAddr cha) := by
  intro st v t h
  unfold storeStartAddr at h ⊢
  split at h
  · split at h
    · cases h
    · rename_i hdefined hnew
      rw [bind_eq_ok] at h
      obtain ⟨start, hstart, h⟩ := h
      obtain rfl := Except.ok.inj h
      refine ⟨rfl, fun functions => ?_⟩
      rw [if_pos hdefined, if_neg hnew, bind_eq_ok]
      exact ⟨start, hstart, rfl⟩
  · rename_i hundefined
    obtain rfl := Except.ok.inj h
    exact ⟨rfl, fun functions => if_neg hundefined⟩

theorem rangeCloud_ignores : IgnoresFunctions (rangeCloud cha) := by
  intro st root t h
  have hmemRanges : ∀ preorder, IgnoresFunctions (memRanges cha preorder) := by
    intro preorder st v t h
    rw [memRanges, bind_eq_ok] at h
    obtain ⟨ranges, hranges, h⟩ := h
    obtain rfl := Except.ok.inj h
    refine ⟨rfl, fun functions => ?_⟩
    rw [memRanges, bind_eq_ok]
    exact ⟨ranges, hranges, rfl⟩
  simp only [rangeCloud, calculateVPtrRanges, verifyVPtrRanges, bind_eq_ok] at h
  obtain ⟨u, ⟨rangeMap, hrangeMap, hfold⟩, ⟨⟩, hverify, h⟩ := h
  obtain rfl := Except.ok.inj h
  obtain ⟨hkept, hother⟩ := (hmemRanges _).foldlM _ _ _ hfold
  refine ⟨hkept, fun functions => ?_⟩
  simp only [rangeCloud, calculateVPtrRanges, verifyVPtrRanges, bind_eq_ok]
  exact ⟨_, ⟨rangeMap, hrangeMap, hother functions⟩, ⟨⟩, hverify, rfl⟩

theorem createThunkFunctions_same {root : String} {functions functions' result : List String}
    (hsame : ∀ f, f ∈ functions ↔ f ∈ functions')
    (h : createThunkFunctions cha root functions = .ok result) :
    ∃ result', createThunkFunctions cha root functions' = .ok result' ∧
      ∀ f, f ∈ result ↔ f ∈ result' := by
  have hthunk : ∀ vtbl, ∀ elem : Constant × Nat, ∀ fs fs' gs : List String,
      (∀ f, f ∈ fs ↔ f ∈ fs') → createThunkFunction cha vtbl fs elem = .ok gs → True →
        ∃ gs', createThunkFunction cha vtbl fs' elem = .ok gs' ∧ ∀ f, f ∈ gs ↔ f ∈ gs' := by
    intro vtbl elem fs fs' gs hfs hgs _
    unfold createThunkFunction at hgs ⊢
    split at hgs
    · obtain rfl := Except.ok.inj hgs
      exact ⟨fs', rfl, hfs⟩
    · split at hgs
      · cases hgs
      · simp only [← hfs]
        dsimp only at hgs
        split at hgs
        · rename_i hmem
          obtain rfl := Except.ok.inj hgs
          exact ⟨fs', if_pos hmem, hfs⟩
        · rename_i hnew
          obtain rfl := Except.ok.inj hgs
          refine ⟨_, if_neg hnew, fun f => ?_⟩
          rw [List.mem_append, List.mem_append, hfs]
  refine foldlM_forward (fun fs fs' : List String => ∀ f, f ∈ fs ↔ f ∈ fs')
    (P := fun _ => True) (fun _ _ _ _ _ => trivial) ?_ hsame h trivial
  intro v _ fs fs' gs hfs hgs _
  unfold createNodeThunks at hgs ⊢
  split at hgs
  · split at hgs
    · rename_i hundefined
      obtain rfl := Except.ok.inj hgs
      exact ⟨fs', if_pos hundefined, hfs⟩
    · cases hgs
  · exact foldlM_forward (fun fs fs' : List String => ∀ f, f ∈ fs ↔ f ∈ fs')
      (P := fun _ => True) (fun _ _ _ _ _ => trivial) (fun elem _ => hthunk v.1 elem) hfs hgs
      trivial

theorem newVtableElem_same {functions functions' : List String}
    (hsame : ∀ f, f ∈ functions ↔ f ∈ functions') :
    newVtableElem cha functions = newVtableElem cha functions' := by
  funext ivtbl
  unfold newVtableElem
  simp only [hsame]

/-- The states differ at most in the order of the functions of the module. -/
def SameButFunctions (st st' : SDLayoutBuilder) : Prop :=
  ∃ functions, st' = { st with functions := functions } ∧ ∀ f, f ∈ st.functions ↔ f ∈ functions

theorem IgnoresFunctions.same {α : Type}
    {f : SDLayoutBuilder → α → Except Failure SDLayoutBuilder} (h : IgnoresFunctions f)
    {st st' t : SDLayoutBuilder} {x : α} (hsame : SameButFunctions st st')
    (hstep : f st x = .ok t) : ∃ t', f st' x = .ok t' ∧ SameButFunctions t t' := by
  obtain ⟨functions, rfl, hmem⟩ := hsame
  obtain ⟨hkept, hother⟩ := h st x t hstep
  exact ⟨_, hother functions, functions, rfl, hkept ▸ hmem⟩

theorem SameButFunctions.emitCloud {st st' t : SDLayoutBuilder} {root : String}
    (hsame : SameButFunctions st st') (h : emitCloud cha st root = .ok t) :
    ∃ t', Layout.emitCloud cha st' root = .ok t' ∧ SameButFunctions t t' := by
  obtain ⟨functions, rfl, hmem⟩ := hsame
  simp only [Layout.emitCloud, createNewVTable, bind_eq_ok] at h
  obtain ⟨gs, hthunks, elems, helems, halign⟩ := h
  obtain ⟨gs', hthunks', hmem'⟩ := createThunkFunctions_same cha hmem hthunks
  split at halign
  · cases halign
  · rename_i halignment
    obtain ⟨hkept, hother⟩ := (storeStartAddr_ignores cha).foldlM _ _ _ halign
    refine ⟨_, ?_, gs', rfl, hkept ▸ hmem'⟩
    simp only [Layout.emitCloud, createNewVTable, bind_eq_ok]
    refine ⟨gs', hthunks', elems, ?_, ?_⟩
    · rwa [← newVtableElem_same cha hmem']
    · rw [if_neg halignment]
      exact hother gs'

/-- The functions of the modules may be listed in any order. -/
theorem buildNewLayouts_same {interleave : Bool} {functions functions' : List String}
    (hsame : ∀ f, f ∈ functions ↔ f ∈ functions') {st : SDLayoutBuilder}
    (h : buildNewLayouts cha interleave functions = .ok st) :
    ∃ st', buildNewLayouts cha interleave functions' = .ok st' ∧ SameButFunctions st st' := by
  have hloop : ∀ f : SDLayoutBuilder → String → Except Failure SDLayoutBuilder,
      (∀ {st st' root t}, SameButFunctions st st' → f st root = .ok t →
        ∃ t', f st' root = .ok t' ∧ SameButFunctions t t') →
      ∀ {st st' t}, SameButFunctions st st' → cha.roots.foldlM f st = .ok t →
        ∃ t', cha.roots.foldlM f st' = .ok t' ∧ SameButFunctions t t' := by
    intro f hf st st' t hst hrun
    refine foldlM_forward SameButFunctions (P := fun _ => True) (fun _ _ _ _ _ => trivial) ?_ hst
      hrun trivial
    exact fun root _ u u' v hu hstep _ => hf hu hstep
  simp only [buildNewLayouts, bind_eq_ok] at h ⊢
  obtain ⟨st₁, hlayout, st₂, hemit, hrange⟩ := h
  have hstart : SameButFunctions (.init functions) (.init functions') := ⟨functions', rfl, hsame⟩
  obtain ⟨st₁', hlayout', hsame₁⟩ := hloop (layoutCloud cha interleave)
    (layoutCloud_ignores cha interleave).same hstart hlayout
  obtain ⟨st₂', hemit', hsame₂⟩ := hloop (emitCloud cha)
    (SameButFunctions.emitCloud cha) hsame₁ hemit
  obtain ⟨st', hrange', hsame'⟩ := hloop (rangeCloud cha)
    (rangeCloud_ignores cha).same hsame₂ hrange
  exact ⟨st', ⟨st₁', hlayout', st₂', hemit', hrange'⟩, hsame'⟩

end Functions

end RhoFEM.Layout
