import RhoFEM.Layout.Ordered

/-! What each step of `buildNewLayouts` can do to the state, when it does not fail. -/

namespace RhoFEM.Layout

open RhoFEM.CHA RhoFEM.Lib.Fold

variable {cha : SDBuildCHA} {interleave : Bool} {root : String} {st st' : SDLayoutBuilder}

theorem layoutCloud_cases (h : layoutCloud cha interleave st root = .ok st') :
    ∃ pads elems, st' = calculateNewLayoutInds root { st with
      prePadMap := pads
      interleavingMap := Function.update st.interleavingMap root elems
      alignmentMap := Function.update st.alignmentMap root
        (some (alignment cha interleave root)) } := by
  cases interleave with
  | true =>
    rw [layoutCloud, if_pos rfl, bind_eq_ok] at h
    obtain ⟨st₁, hlayout, hrest⟩ := h
    obtain rfl := Except.ok.inj hrest
    simp only [interleaveCloudNew, bind_eq_ok] at hlayout
    obtain ⟨negative, -, positive, -, hlayout⟩ := hlayout
    obtain rfl := Except.ok.inj hlayout
    exact ⟨_, _, rfl⟩
  | false =>
    obtain rfl := Except.ok.inj h
    exact ⟨_, _, rfl⟩

theorem storeStartAddr_cases {v : Vtbl} (h : storeStartAddr cha st v = .ok st') :
    (¬ cha.isDefined v ∧ st' = st) ∨
      ∃ start, cha.isDefined v ∧ newVtblAddressConst cha st v = .ok start ∧
        st' = { st with
          newVTableStartAddrMap := Function.update st.newVTableStartAddrMap v (some start) } := by
  unfold storeStartAddr at h
  split at h
  · rename_i hdef
    split at h
    · cases h
    · rw [bind_eq_ok] at h
      obtain ⟨start, hstart, h⟩ := h
      exact .inr ⟨start, hdef, hstart, (Except.ok.inj h).symm⟩
  · rename_i hdef
    exact .inl ⟨hdef, (Except.ok.inj h).symm⟩

theorem emitCloud_cases (h : emitCloud cha st root = .ok st') :
    ∃ functions elems, (cha.preorder (root, 0)).foldlM (storeStartAddr cha) { st with
      functions := functions
      cloudStartMap := Function.update st.cloudStartMap (newVtableName root) (some elems) } =
        .ok st' := by
  simp only [emitCloud, createNewVTable, bind_eq_ok] at h
  obtain ⟨functions, -, elems, -, h⟩ := h
  split at h
  · cases h
  · exact ⟨functions, elems, h⟩

theorem memRanges_cases {nodes : List Vtbl} {v : Vtbl} (h : memRanges cha nodes st v = .ok st') :
    ∃ ranges, ((st.rangeMap v).getD []).mapM (memRange cha st nodes) = .ok ranges ∧
      st' = { st with
        memRangeMap := Function.update st.memRangeMap v (st.memRangeMap v ++ ranges.flatten) } := by
  rw [memRanges, bind_eq_ok] at h
  obtain ⟨ranges, hranges, h⟩ := h
  exact ⟨ranges, hranges, (Except.ok.inj h).symm⟩

theorem rangeCloud_cases (h : rangeCloud cha st root = .ok st') :
    ∃ m, calculateVPtrRangesHelper cha (cha.preorder (root, 0)) (cha.vtbls.length + 1) (root, 0)
        st.rangeMap = .ok m ∧
      (cha.preorder (root, 0)).foldlM (memRanges cha (cha.preorder (root, 0)))
        { st with rangeMap := m } = .ok st' := by
  simp only [rangeCloud, calculateVPtrRanges, verifyVPtrRanges, bind_eq_ok] at h
  obtain ⟨st₁, ⟨m, hm, hmem⟩, ⟨-, -, h⟩⟩ := h
  obtain rfl := Except.ok.inj h
  exact ⟨m, hm, hmem⟩

theorem buildNewLayouts_eq_ok {functions : List String} :
    buildNewLayouts cha interleave functions = .ok st ↔ ∃ st₁ st₂,
      cha.roots.foldlM (layoutCloud cha interleave) (.init functions) = .ok st₁ ∧
        cha.roots.foldlM (emitCloud cha) st₁ = .ok st₂ ∧
          cha.roots.foldlM (rangeCloud cha) st₂ = .ok st := by
  simp only [buildNewLayouts, bind_eq_ok]
  constructor
  · rintro ⟨st₁, hlayout, st₂, hemit, hrange⟩
    exact ⟨st₁, st₂, hlayout, hemit, hrange⟩
  · rintro ⟨st₁, st₂, hlayout, hemit, hrange⟩
    exact ⟨st₁, hlayout, st₂, hemit, hrange⟩

section Rules

variable (P : List Vtbl → SDLayoutBuilder → Prop)

/-- The rule for the second loop: what holds after the nodes `done` of a cloud. -/
theorem emitCloud_rule
    (hcloud : ∀ functions elems, P [] { st with
      functions := functions
      cloudStartMap := Function.update st.cloudStartMap (newVtableName root) (some elems) })
    (hskip : ∀ done v t, ¬ cha.isDefined v → P done t → P (done ++ [v]) t)
    (hstore : ∀ done v t start, v ∈ cha.preorder (root, 0) → cha.isDefined v →
      newVtblAddressConst cha t v = .ok start → P done t → P (done ++ [v]) { t with
        newVTableStartAddrMap := Function.update t.newVTableStartAddrMap v (some start) })
    (h : emitCloud cha st root = .ok st') : P (cha.preorder (root, 0)) st' := by
  obtain ⟨functions, elems, hfold⟩ := emitCloud_cases h
  refine foldlM_ok_rule P ?step (hcloud functions elems) hfold
  case step =>
    intro done v t t' ht hv hstep
    obtain ⟨hundef, rfl⟩ | ⟨start, hdef, hstart, rfl⟩ := storeStartAddr_cases hstep
    · exact hskip done v _ hundef ht
    · exact hstore done v t start hv hdef hstart ht

/-- The rule for the third loop. -/
theorem rangeCloud_rule
    (hranges : ∀ m, calculateVPtrRangesHelper cha (cha.preorder (root, 0)) (cha.vtbls.length + 1)
      (root, 0) st.rangeMap = .ok m → P [] { st with rangeMap := m })
    (hmem : ∀ done v t ranges, v ∈ cha.preorder (root, 0) → v ∉ done →
      ((t.rangeMap v).getD []).mapM (memRange cha t (cha.preorder (root, 0))) = .ok ranges →
        P done t → P (done ++ [v]) { t with
          memRangeMap := Function.update t.memRangeMap v (t.memRangeMap v ++ ranges.flatten) })
    (h : rangeCloud cha st root = .ok st') : P (cha.preorder (root, 0)) st' := by
  obtain ⟨m, hm, hfold⟩ := rangeCloud_cases h
  refine foldlM_nodup_ok_rule P (cha.preorder_nodup _) ?step (hranges m hm) hfold
  case step =>
    intro done v t t' hv hnew ht hstep
    obtain ⟨ranges, hmapM, rfl⟩ := memRanges_cases hstep
    exact hmem done v t ranges hv hnew hmapM ht

end Rules

end RhoFEM.Layout
