import RhoFEM.Layout.Ranges
import RhoFEM.Layout.Steps

/-! The ranges of preorder indices in every run of the pass, also where later steps fail. -/

namespace RhoFEM.Layout

open RhoFEM.CHA RhoFEM.Lib.Coalesce RhoFEM.Lib.Fold RhoFEM.Lib.Search

section Frames

variable {cha : SDBuildCHA} {root : String} {st st' : SDLayoutBuilder}

theorem layoutCloud_rangeMap {interleave : Bool}
    (h : layoutCloud cha interleave st root = .ok st') : st'.rangeMap = st.rangeMap := by
  obtain ⟨pads, elems, rfl⟩ := layoutCloud_cases h
  rfl

theorem emitCloud_rangeMap (h : emitCloud cha st root = .ok st') :
    st'.rangeMap = st.rangeMap :=
  emitCloud_rule (fun _ t => t.rangeMap = st.rangeMap) (fun _ _ => rfl) (fun _ _ _ _ ht => ht)
    (fun _ _ _ _ _ _ _ ht => ht) h

theorem memRanges_rangeMap {nodes : List Vtbl} {v : Vtbl} (h : memRanges cha nodes st v = .ok st') :
    st'.rangeMap = st.rangeMap := by
  obtain ⟨ranges, -, rfl⟩ := memRanges_cases h
  rfl

/-- The ranges come from the recursion alone. -/
theorem calculateVPtrRanges_rangeMap (h : calculateVPtrRanges cha root st = .ok st') :
    calculateVPtrRangesHelper cha (cha.preorder (root, 0)) (cha.vtbls.length + 1) (root, 0)
      st.rangeMap = .ok st'.rangeMap := by
  rw [calculateVPtrRanges, bind_eq_ok] at h
  obtain ⟨m, hm, h⟩ := h
  have hkeep : st'.rangeMap = m := foldlM_ok_rule (fun _ t => t.rangeMap = m)
    (fun _ _ _ _ ht _ hstep => (memRanges_rangeMap hstep).trans ht) rfl h
  rw [hm, hkeep]

end Frames

theorem calculateVPtrRangesHelper_proper {cha : SDBuildCHA} {nodes : List Vtbl} (fuel : Nat)
    {v : Vtbl} {m m' : Vtbl → Option (List CHA.Range)}
    (h : calculateVPtrRangesHelper cha nodes fuel v m = .ok m')
    (hm : ∀ w, Proper ((m w).getD [])) : ∀ w, Proper ((m' w).getD []) := by
  induction fuel generalizing v m m' with
  | zero => cases h
  | succ fuel ih =>
    rw [calculateVPtrRangesHelper] at h
    split at h
    · obtain rfl := Except.ok.inj h
      exact hm
    · rw [bind_eq_ok] at h
      obtain ⟨m₁, hfold, h⟩ := h
      obtain rfl := Except.ok.inj h
      have hchildren : ∀ w, Proper ((m₁ w).getD []) := foldlM_ok_rule
        (fun _ m => ∀ w, Proper ((m w).getD [])) (fun _ _ _ _ ht _ hstep => ih hstep ht) hm hfold
      intro w
      by_cases hw : w = v
      · subst hw
        rw [Function.update_self, Option.getD_some]
        apply proper_coalesce
        intro r hr
        rw [mem_sortRanges, List.mem_cons, List.mem_flatMap] at hr
        rcases hr with rfl | ⟨child, -, hr⟩
        · exact Nat.lt_succ_self _
        · exact hchildren child r hr
      · rw [Function.update_of_ne hw]
        exact hchildren w

/-- Before the ranges of a cloud are calculated, its nodes have none. -/
structure RangesFresh (cha : SDBuildCHA) (done : List String) (st : SDLayoutBuilder) : Prop where
  fresh : ∀ root v, InCloud cha root v → root ∉ done → st.rangeMap v = none
  proper : ∀ v, Proper ((st.rangeMap v).getD [])

theorem RangesFresh.step {cha : SDBuildCHA} (hacyclic : Acyclic cha.children)
    (hunique : ∀ {root root' v}, InCloud cha root v → InCloud cha root' v → root = root')
    {done : List String} {root : String} (hroot : root ∈ cha.roots) (hnew : root ∉ done)
    {st st' : SDLayoutBuilder} (hst : RangesFresh cha done st)
    (h : rangeCloud cha st root = .ok st') : RangesFresh cha (done ++ [root]) st' := by
  rw [rangeCloud, bind_eq_ok] at h
  obtain ⟨st₁, hranges, hverify⟩ := h
  rw [verifyVPtrRanges, bind_eq_ok] at hverify
  obtain ⟨-, -, hverify⟩ := hverify
  obtain rfl := Except.ok.inj hverify
  have hhelper := calculateVPtrRanges_rangeMap hranges
  obtain ⟨m, hm, houtside, -⟩ := rangeMap_ok hacyclic hroot (m := st.rangeMap)
    fun v hv => hst.fresh root v ⟨hroot, hv⟩ hnew
  obtain rfl := Except.ok.inj (hm.symm.trans hhelper)
  constructor
  · intro root' v hv hnot
    rw [List.mem_append, List.mem_singleton, not_or] at hnot
    have hout : v ∉ cha.preorder (root, 0) := fun hmem => hnot.2 (hunique hv ⟨hroot, hmem⟩)
    exact (houtside v hout).trans (hst.fresh root' v hv hnot.1)
  · exact calculateVPtrRangesHelper_proper _ hhelper hst.proper

/-- In every run the recursion over the nodes of a cloud ends; the ranges are the normal
form of the nodes below, and the verifier accepts them. -/
theorem vptrRanges_exact {cha : SDBuildCHA} (hacyclic : Acyclic cha.children)
    (hroots : cha.roots.Nodup)
    (hunique : ∀ {root root' v}, InCloud cha root v → InCloud cha root' v → root = root')
    {interleave : Bool} {functions : List String} {st₁ st₂ st : SDLayoutBuilder}
    (hlayout : cha.roots.foldlM (layoutCloud cha interleave) (.init functions) = .ok st₁)
    (hemit : cha.roots.foldlM (emitCloud cha) st₁ = .ok st₂)
    {done rest : List String} {root : String} (hsplit : cha.roots = done ++ root :: rest)
    (hrun : done.foldlM (rangeCloud cha) st₂ = .ok st) :
    (∃ m, calculateVPtrRangesHelper cha (cha.preorder (root, 0)) (cha.vtbls.length + 1) (root, 0)
      st.rangeMap = .ok m) ∧
    ∀ st', calculateVPtrRanges cha root st = .ok st' →
      verifyVPtrRanges cha root st' = .ok st' ∧
      ∀ v ∈ cha.preorder (root, 0), ∃ ranges, st'.rangeMap v = some ranges ∧
        (ranges.Pairwise fun a b => a.2 < b.1) ∧ (∀ r ∈ ranges, r.1 < r.2) ∧
        (∀ i, (∃ r ∈ ranges, r.1 ≤ i ∧ i < r.2) ↔
          ∃ x, Reaches cha.children v x ∧ (cha.preorder (root, 0)).idxOf x = i) ∧
        (ranges.map fun r => r.2 - r.1).sum = (cha.preorder v).length := by
  obtain ⟨hdone, -, hdisjoint⟩ := List.nodup_append.mp (hsplit ▸ hroots)
  have hroot : root ∈ cha.roots := by simp [hsplit]
  have hnew : root ∉ done := fun hmem => hdisjoint root hmem root (by simp) rfl
  have hempty : st₂.rangeMap = fun _ => none := by
    have hfirst : st₁.rangeMap = fun _ => none := foldlM_ok_rule
      (fun _ t => t.rangeMap = fun _ => none)
      (fun _ _ _ _ ht _ hstep => (layoutCloud_rangeMap hstep).trans ht) rfl hlayout
    exact foldlM_ok_rule (fun _ t => t.rangeMap = fun _ => none)
      (fun _ _ _ _ ht _ hstep => (emitCloud_rangeMap hstep).trans ht) hfirst hemit
  have hfresh : RangesFresh cha done st := by
    refine foldlM_nodup_ok_rule (RangesFresh cha) hdone ?step ?start hrun
    case step =>
      intro pre x t t' hmem hnot ht hstep
      exact RangesFresh.step hacyclic hunique (by simp [hsplit, hmem]) hnot ht hstep
    case start => exact ⟨fun _ _ _ _ => by rw [hempty], fun v => by simp [hempty]⟩
  obtain ⟨m, hm, -, hexact⟩ := rangeMap_ok hacyclic hroot (m := st.rangeMap)
    fun v hv => hfresh.fresh root v ⟨hroot, hv⟩ hnew
  refine ⟨⟨m, hm⟩, ?_⟩
  intro st' hok
  obtain rfl : m = st'.rangeMap :=
    Except.ok.inj (hm.symm.trans (calculateVPtrRanges_rangeMap hok))
  constructor
  · rw [verifyVPtrRanges, bind_eq_ok]
    refine ⟨⟨⟩, forM_eq_ok ?_, rfl⟩
    intro v hv
    obtain ⟨ranges, hsome, hex⟩ := hexact v hv
    rw [hsome]
    exact verifyRanges_ok ⟨hroot, hv⟩ hex
  · intro v hv
    obtain ⟨ranges, hsome, hex⟩ := hexact v hv
    have hproper := calculateVPtrRangesHelper_proper _ hm hfresh.proper v
    rw [hsome, Option.getD_some] at hproper
    refine ⟨ranges, hsome, hex.gaps, hproper, ?_, ?_⟩
    · intro i
      refine (hex.covers i).trans (exists_congr fun x => and_congr_right fun hreach => ?_)
      rw [indMap_eq (InCloud.reaches ⟨hroot, hv⟩ hreach).2]
    · rw [← length_indices, (hex.indices_perm ⟨hroot, hv⟩).length_eq, List.length_map]

theorem vptrRanges_exact_diamond : ∃ cha st₁ st₂ st',
    buildClouds diamondVTables diamondClasses = .ok cha ∧
      cha.roots.foldlM (layoutCloud cha true) (.init []) = .ok st₁ ∧
      cha.roots.foldlM (emitCloud cha) st₁ = .ok st₂ ∧
      calculateVPtrRanges cha "_ZTV1A" st₂ = .ok st' ∧ verifyVPtrRanges cha "_ZTV1A" st' = .ok st' ∧
      ∀ v ∈ cha.preorder ("_ZTV1A", 0), ∃ ranges, st'.rangeMap v = some ranges ∧
        (ranges.Pairwise fun a b => a.2 < b.1) ∧ (∀ r ∈ ranges, r.1 < r.2) ∧
        (∀ i, (∃ r ∈ ranges, r.1 ≤ i ∧ i < r.2) ↔
          ∃ x, Reaches cha.children v x ∧ (cha.preorder ("_ZTV1A", 0)).idxOf x = i) ∧
        (ranges.map fun r => r.2 - r.1).sum = (cha.preorder v).length := by
  have hcha := eq_ok_of_isOk (x := buildClouds diamondVTables diamondClasses) .empty (by decide)
  obtain ⟨hwell, hfilled⟩ := diamond_wellFormed hcha
  generalize hname : (buildClouds diamondVTables diamondClasses).toOption.getD .empty = cha at *
  have hroots : cha.roots = ["_ZTV1A"] := by
    rw [← hname]
    decide
  obtain ⟨st₁, hok₁, hlaid⟩ := laidOut_roots hwell []
  obtain ⟨st₂, hok₂, hemitted, hrange, hmem⟩ := emitted_roots hwell hfilled hlaid.emitted
  have hranged : Ranged cha [] st₂ := by
    refine ⟨hemitted, List.forall_mem_nil _, ?_⟩
    intro root v _ _
    rw [hrange, hmem, hlaid.rangeMap, hlaid.memRangeMap]
    exact ⟨rfl, rfl⟩
  have hroot : "_ZTV1A" ∈ cha.roots := by rw [hroots]; exact List.mem_singleton_self _
  obtain ⟨st₃, hok₃, -⟩ := hranged.step hwell (List.nil_subset _) hroot List.not_mem_nil
  obtain ⟨st', hranges, -⟩ := bind_eq_ok.mp hok₃
  have hsplit : cha.roots = [] ++ "_ZTV1A" :: [] := hroots
  obtain ⟨-, hverify⟩ := vptrRanges_exact hwell.acyclic hwell.roots_nodup hwell.unique hok₁ hok₂
    hsplit rfl
  exact ⟨cha, st₁, st₂, st', hcha, hok₁, hok₂, hranges, hverify st' hranges⟩

end RhoFEM.Layout
