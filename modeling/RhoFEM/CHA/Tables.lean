import RhoFEM.CHA.Hierarchy

/-! The tables that `buildClouds` keeps for the classes, beside the hierarchy. -/

namespace RhoFEM.CHA

open RhoFEM.Lib.Fold

/-- The parts of all records of a class. -/
def classSubs (infoVec : List Nmd) (className : String) : List NmdSub :=
  (infoVec.filter fun info => info.className = className).flatMap Nmd.subVTables

theorem classSubs_concat (infoVec : List Nmd) (info : Nmd) (c : String) :
    classSubs (infoVec ++ [info]) c =
      classSubs infoVec c ++ if info.className = c then info.subVTables else [] := by
  by_cases hc : info.className = c <;> simp [classSubs, List.filter_append, hc]

section Distinct

variable {infoVec : List Nmd} (hdistinct : (infoVec.map Nmd.className).Nodup)
include hdistinct

theorem classSubs_eq {info : Nmd} (hinfo : info ∈ infoVec) :
    classSubs infoVec info.className = info.subVTables := by
  induction infoVec with
  | nil => cases hinfo
  | cons other infoVec ih =>
    obtain ⟨hother, hrest⟩ := List.nodup_cons.mp hdistinct
    rcases List.mem_cons.mp hinfo with rfl | hinfo
    · have hnone : infoVec.filter (fun other => other.className = info.className) = [] := by
        rw [List.filter_eq_nil_iff]
        intro other hmem heq
        exact hother (List.mem_map.mpr ⟨other, hmem, of_decide_eq_true heq⟩)
      simp [classSubs, hnone]
    · have hne : other.className ≠ info.className :=
        fun heq => hother (List.mem_map.mpr ⟨info, hinfo, heq.symm⟩)
      rw [← ih hrest hinfo, classSubs, classSubs, List.filter_cons_of_neg (by simpa using hne)]

/-- The parts of a class are those of its only record. -/
theorem classSubs_getElem? {v : Vtbl} {sub : NmdSub} :
    (classSubs infoVec v.1)[v.2]? = some sub ↔ Recorded infoVec v sub := by
  constructor
  · intro hsub
    have hne : infoVec.filter (fun info => info.className = v.1) ≠ [] := by
      intro hnil
      simp [classSubs, hnil] at hsub
    obtain ⟨info, hmem⟩ := List.exists_mem_of_ne_nil _ hne
    obtain ⟨hinfo, hname⟩ := List.mem_filter.mp hmem
    have hname : info.className = v.1 := of_decide_eq_true hname
    rw [← hname, classSubs_eq hdistinct hinfo] at hsub
    exact ⟨info, hinfo, hname, hsub⟩
  · rintro ⟨info, hinfo, hname, hsub⟩
    rwa [← hname, classSubs_eq hdistinct hinfo]

end Distinct

/-- Parents change the edges and the roots only. -/
theorem addParents_cha {name : Vtbl} {parents : List Vtbl} {st st' : Building}
    (h : parents.foldlM (addParent name) st = .ok st') :
    st'.cha = { st.cha with cloudMap := st'.cha.cloudMap, roots := st'.cha.roots } := by
  refine foldlM_ok_rule (fun _ t => t.cha =
    { st.cha with cloudMap := t.cha.cloudMap, roots := t.cha.roots }) ?_ rfl h
  intro _ p t t' ht _ hstep
  unfold addParent at hstep
  split at hstep
  · obtain rfl := Except.ok.inj hstep
    split <;> (dsimp only; rw [ht])
  · split at hstep
    · obtain rfl := Except.ok.inj hstep
      dsimp only
      rw [ht]
    · cases hstep

theorem addSubVTable_cha {className : String} {st st' : Building} {sub : NmdSub × Nat}
    (h : addSubVTable className st sub = .ok st') :
    st'.cha = { st.cha with
      cloudMap := st'.cha.cloudMap
      roots := st'.cha.roots
      vTableFunctionMap := st.cha.vTableFunctionMap.insert (className, sub.2) sub.1.functions
      parentMap := st'.cha.parentMap
      addrPtMap := Function.update st.cha.addrPtMap className
        (st.cha.addrPtMap className ++ [sub.1.addressPoint])
      rangeMap := Function.update st.cha.rangeMap className
        (st.cha.rangeMap className ++ [(sub.1.start, sub.1.stop)]) } := by
  unfold addSubVTable at h
  rw [bind_eq_ok] at h
  obtain ⟨t, hparents, hrest⟩ := h
  obtain rfl := Except.ok.inj hrest
  rw [addParents_cha hparents]

theorem addSubVTable_roots_sorted {className : String} {st st' : Building} {sub : NmdSub × Nat}
    (hst : st.cha.roots.Pairwise (· < ·)) (h : addSubVTable className st sub = .ok st') :
    st'.cha.roots.Pairwise (· < ·) := by
  unfold addSubVTable at h
  rw [bind_eq_ok] at h
  obtain ⟨t, hparents, hrest⟩ := h
  obtain rfl := Except.ok.inj hrest
  refine foldlM_ok_rule (fun _ t => t.cha.roots.Pairwise (· < ·)) ?_ hst hparents
  intro _ p t t' ht _ hstep
  unfold addParent at hstep
  split at hstep
  · obtain rfl := Except.ok.inj hstep
    split <;> exact ht
  · split at hstep
    · obtain rfl := Except.ok.inj hstep
      exact sorted_insertInto _ ht
    · cases hstep

/-- What the tables hold after the classes `names`, with the parts `subs`. -/
structure Tabulated (initializer : String → Option (List Constant)) (names : List String)
    (subs : String → List NmdSub) (cha : SDBuildCHA) : Prop where
  parentMap : ∀ c, (cha.parentMap.lookup c).getD [] = (subs c).map NmdSub.realParents
  addrPtMap : ∀ c, cha.addrPtMap c = (subs c).map NmdSub.addressPoint
  rangeMap : ∀ c, cha.rangeMap c = (subs c).map fun sub => (sub.start, sub.stop)
  oldVTables : ∀ c, cha.oldVTables c = if c ∈ names then initializer c else none
  mem_undefinedVTables : ∀ c, c ∈ cha.undefinedVTables ↔ c ∈ names ∧ initializer c = none
  undefinedVTables_sorted : cha.undefinedVTables.Pairwise (· < ·)
  roots_sorted : cha.roots.Pairwise (· < ·)

namespace Tabulated

variable {initializer : String → Option (List Constant)} {names : List String}
  {subs : String → List NmdSub}

theorem empty : Tabulated initializer [] (fun _ => []) SDBuildCHA.empty where
  parentMap _ := rfl
  addrPtMap _ := rfl
  rangeMap _ := rfl
  oldVTables _ := rfl
  mem_undefinedVTables _ := by simp [SDBuildCHA.empty]
  undefinedVTables_sorted := .nil
  roots_sorted := .nil

theorem addSubVTable {className : String} {st st' : Building} {sub : NmdSub × Nat}
    (hst : Tabulated initializer names subs st.cha)
    (h : addSubVTable className st sub = .ok st') :
    Tabulated initializer names (fun c => subs c ++ if className = c then [sub.1] else [])
      st'.cha := by
  have hroots := addSubVTable_roots_sorted hst.roots_sorted h
  have hparents := addSubVTable_parentMap h
  rw [addSubVTable_cha h]
  refine ⟨?_, ?_, ?_, hst.oldVTables, hst.mem_undefinedVTables, hst.undefinedVTables_sorted,
    hroots⟩
  · intro c
    rw [hparents, hst.parentMap]
    split <;> simp
  · intro c
    by_cases hc : className = c
    · subst hc
      simp [hst.addrPtMap]
    · simp [Function.update_of_ne (Ne.symm hc), hst.addrPtMap, hc]
  · intro c
    by_cases hc : className = c
    · subst hc
      simp [hst.rangeMap]
    · simp [Function.update_of_ne (Ne.symm hc), hst.rangeMap, hc]

/-- A class with an initializer is stored with it, and another is listed as undefined. -/
theorem recordOldVTable (className : String) {cha : SDBuildCHA}
    (hst : Tabulated initializer names subs cha) {cha' : SDBuildCHA}
    (h : CHA.recordOldVTable initializer className cha = .ok cha') :
    Tabulated initializer (names ++ [className]) subs cha' := by
  unfold CHA.recordOldVTable at h
  cases hinit : initializer className with
  | some vtable =>
    simp only [hinit] at h
    split at h
    case isFalse => cases h
    obtain rfl := Except.ok.inj h
    refine ⟨hst.parentMap, hst.addrPtMap, hst.rangeMap, ?_, ?_, hst.undefinedVTables_sorted,
      hst.roots_sorted⟩
    · intro c
      by_cases hc : c = className
      · subst hc
        simp [hinit]
      · simp [hst.oldVTables, hc]
    · intro c
      by_cases hc : c = className
      · subst hc
        simp [hst.mem_undefinedVTables, hinit]
      · simp [hst.mem_undefinedVTables, hc]
  | none =>
    simp only [hinit] at h
    obtain rfl := Except.ok.inj h
    refine ⟨hst.parentMap, hst.addrPtMap, hst.rangeMap, ?_, ?_,
      sorted_insertInto _ hst.undefinedVTables_sorted, hst.roots_sorted⟩
    · intro c
      by_cases hc : c = className
      · subst hc
        simp [hst.oldVTables, hinit]
      · simp [hst.oldVTables, hc]
    · intro c
      by_cases hc : c = className
      · subst hc
        simp [hinit]
      · simp [hst.mem_undefinedVTables, hc]

theorem addClass {info : Nmd} {st st' : Building} (hst : Tabulated initializer names subs st.cha)
    (h : addClass initializer st info = .ok st') :
    Tabulated initializer (names ++ [info.className])
      (fun c => subs c ++ if info.className = c then info.subVTables else []) st'.cha := by
  obtain ⟨_, _, hglobal, hfold⟩ := addClass_cases h
  refine foldlM_zipIdx_rule (fun done t => Tabulated initializer (names ++ [info.className])
    (fun c => subs c ++ if info.className = c then done else []) t.cha) ?step ?start hfold
  case step =>
    intro done sub t t' ht _ hstep
    have hparts : (fun c => subs c ++ if info.className = c then done ++ [sub] else []) =
        fun c => (subs c ++ if info.className = c then done else []) ++
          if info.className = c then [sub] else [] := by
      funext c
      split <;> simp
    rw [hparts]
    exact ht.addSubVTable hstep
  case start =>
    have hnone : (fun c => subs c ++ if info.className = c then [] else []) = subs := by
      funext c
      simp
    rw [hnone]
    exact hst.recordOldVTable info.className hglobal

end Tabulated

theorem addClasses_tabulated {initializer : String → Option (List Constant)} {infoVec : List Nmd}
    {st : Building} (h : infoVec.foldlM (addClass initializer) ⟨SDBuildCHA.empty, []⟩ = .ok st) :
    Tabulated initializer (infoVec.map Nmd.className) (classSubs infoVec) st.cha := by
  refine foldlM_ok_rule (fun done t =>
    Tabulated initializer (done.map Nmd.className) (classSubs done) t.cha) ?_ .empty h
  intro done info t t' ht _ hstep
  rw [List.map_append, funext (classSubs_concat done info)]
  exact ht.addClass hstep

theorem buildClouds_tabulated {initializer : String → Option (List Constant)} {infoVec : List Nmd}
    {cha : SDBuildCHA} (h : buildClouds initializer infoVec = .ok cha) :
    Tabulated initializer (infoVec.map Nmd.className) (classSubs infoVec) cha := by
  obtain ⟨st, names, hclasses, -, -, rfl⟩ := buildClouds_cases h
  have hst := addClasses_tabulated hclasses
  exact ⟨hst.parentMap, hst.addrPtMap, hst.rangeMap, hst.oldVTables, hst.mem_undefinedVTables,
    hst.undefinedVTables_sorted, hst.roots_sorted⟩

end RhoFEM.CHA
