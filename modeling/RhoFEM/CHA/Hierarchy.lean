import RhoFEM.CHA.Clouds

/-! What `buildClouds` makes of the recorded sub-vtables: the edges of the hierarchy in both
directions, and its clouds. -/

namespace RhoFEM.CHA

open RhoFEM.Lib.Fold RhoFEM.Lib.Search

def Recorded (infoVec : List Nmd) (v : Vtbl) (sub : NmdSub) : Prop :=
  ∃ info ∈ infoVec, info.className = v.1 ∧ info.subVTables[v.2]? = some sub

/-- `w` lists `v` among its parents. -/
def ParentEdge (infoVec : List Nmd) (v w : Vtbl) : Prop :=
  v.1 ≠ "" ∧ ∃ sub, Recorded infoVec w sub ∧ v ∈ sub.parents

def AcyclicMetadata (infoVec : List Nmd) : Prop :=
  ∀ v, ¬ Relation.TransGen (ParentEdge infoVec) v v

namespace SDBuildCHA

variable (cha : SDBuildCHA)

def parents (v : Vtbl) : List Vtbl := (((cha.parentMap.lookup v.1).getD [])[v.2]?).getD []

def knowsAbout (v : Vtbl) : Bool := v ∈ cha.cloudMap

/-- The recursion has no bound of its own; on an acyclic hierarchy this one is never met. -/
def isAncestor (base derived : Vtbl) : Option Bool :=
  ascend cha.parents (cha.vtbls.length + 1) base derived

/-- All parents of a sub-vtable have the same root. -/
def SameRoots : Prop :=
  ∀ entry ∈ cha.parentMap.entries, ∀ parents ∈ entry.2,
    ∀ p ∈ parents, ∀ q ∈ parents, cha.getAncestor p = cha.getAncestor q

instance : Decidable cha.SameRoots :=
  inferInstanceAs (Decidable (∀ entry ∈ cha.parentMap.entries, ∀ parents ∈ entry.2,
    ∀ p ∈ parents, ∀ q ∈ parents, cha.getAncestor p = cha.getAncestor q))

end SDBuildCHA

/-- What a state of the construction holds, once `recorded` has been read. -/
structure Built (recorded : Vtbl → NmdSub → Prop) (st : Building) : Prop where
  mem_children : ∀ v w, w ∈ st.cha.children v ↔
    v.1 ≠ "" ∧ ∃ sub, recorded w sub ∧ v ∈ sub.parents
  mem_cloudMap : ∀ v, v ∈ st.cha.cloudMap ↔ v ∈ st.undefined ∨ ∃ sub, recorded v sub
  mem_undefined : ∀ v, v ∈ st.undefined ↔
    (¬ ∃ sub, recorded v sub) ∧ v.1 ≠ "" ∧ ∃ w sub, recorded w sub ∧ v ∈ sub.parents
  undefined_nodup : st.undefined.Nodup
  mem_roots : ∀ r, r ∈ st.cha.roots ↔
    ∃ sub, recorded (r, 0) sub ∧ ∃ p ∈ sub.parents, p.1 = ""
  root_order : ∀ v sub, recorded v sub → ∀ p ∈ sub.parents, p.1 = "" → v.2 = 0

/-- One more sub-vtable is recorded. -/
def extend (recorded : Vtbl → NmdSub → Prop) (name : Vtbl) (sub : NmdSub) :
    Vtbl → NmdSub → Prop :=
  fun v s => recorded v s ∨ v = name ∧ s = sub

theorem exists_extend {recorded : Vtbl → NmdSub → Prop} {name : Vtbl} {sub : NmdSub} {v : Vtbl}
    {P : NmdSub → Prop} :
    (∃ s, extend recorded name sub v s ∧ P s) ↔ (∃ s, recorded v s ∧ P s) ∨ v = name ∧ P sub := by
  constructor
  · rintro ⟨s, hs | ⟨rfl, rfl⟩, hP⟩
    · exact .inl ⟨s, hs, hP⟩
    · exact .inr ⟨rfl, hP⟩
  · rintro (⟨s, hs, hP⟩ | ⟨rfl, hP⟩)
    · exact ⟨s, .inl hs, hP⟩
    · exact ⟨sub, .inr ⟨rfl, rfl⟩, hP⟩

theorem exists_extend_self {recorded : Vtbl → NmdSub → Prop} {name : Vtbl} {sub : NmdSub}
    {v : Vtbl} : (∃ s, extend recorded name sub v s) ↔ (∃ s, recorded v s) ∨ v = name := by
  have h : (∃ s, extend recorded name sub v s ∧ True) ↔ (∃ s, recorded v s ∧ True) ∨
    v = name ∧ True := exists_extend
  simpa using h

/-- What one parent adds to the state. -/
theorem addParent_cases {name p : Vtbl} {st st' : Building} (h : addParent name st p = .ok st') :
    (p.1 ≠ "" ∧ st'.cha.roots = st.cha.roots ∧
      (∀ v, v ∈ st'.cha.cloudMap ↔ v = p ∨ v ∈ st.cha.cloudMap) ∧
      (∀ v w, w ∈ st'.cha.children v ↔ w ∈ st.cha.children v ∨ v = p ∧ w = name) ∧
      st'.undefined =
        if p ∈ st.cha.cloudMap then st.undefined else insertInto vtblLt p st.undefined) ∨
    (p.1 = "" ∧ name.2 = 0 ∧ st' = { st with cha := { st.cha with
      roots := insertInto (fun a b => a < b) name.1 st.cha.roots } }) := by
  unfold addParent at h
  split at h
  · rename_i hp
    obtain rfl := Except.ok.inj h
    refine .inl ⟨hp, ?_⟩
    by_cases hknown : p ∈ st.cha.cloudMap
    · simp only [if_pos hknown, true_and, and_true]
      refine ⟨fun v => AList.mem_insert _, fun v w => ?_⟩
      by_cases hv : v = p
      · subst hv
        simp [SDBuildCHA.children, or_comm]
      · simp [SDBuildCHA.children, AList.lookup_insert_ne hv, hv]
    · simp only [if_neg hknown, true_and, and_true]
      refine ⟨fun v => by simp [AList.mem_insert], fun v w => ?_⟩
      by_cases hv : v = p
      · subst hv
        simp [SDBuildCHA.children, AList.lookup_eq_none.mpr hknown, insertInto]
      · simp [SDBuildCHA.children, AList.lookup_insert_ne hv, hv]
  · rename_i hp
    split at h
    · rename_i horder
      exact .inr ⟨not_not.mp hp, horder, (Except.ok.inj h).symm⟩
    · cases h

theorem exists_extend_concat {recorded : Vtbl → NmdSub → Prop} {name p v w : Vtbl} {sub : NmdSub}
    {done : List Vtbl} :
    (∃ s, extend recorded name { sub with parents := done ++ [p] } w s ∧ v ∈ s.parents) ↔
      (∃ s, extend recorded name { sub with parents := done } w s ∧ v ∈ s.parents) ∨
        v = p ∧ w = name := by
  rw [exists_extend, exists_extend]
  simp only [List.mem_append, List.mem_singleton]
  rw [and_or_left, or_assoc, and_comm (a := v = p)]

theorem exists_extend_append {recorded : Vtbl → NmdSub → Prop} {name p v : Vtbl} {sub : NmdSub}
    {done : List Vtbl} : (∃ s, extend recorded name { sub with parents := done ++ [p] } v s) ↔
      ∃ s, extend recorded name { sub with parents := done } v s := by
  rw [exists_extend_self, exists_extend_self]

theorem exists_listed_append {recorded : Vtbl → NmdSub → Prop} {name p v : Vtbl} {sub : NmdSub}
    {done : List Vtbl} :
    (∃ w s, extend recorded name { sub with parents := done ++ [p] } w s ∧ v ∈ s.parents) ↔
      (∃ w s, extend recorded name { sub with parents := done } w s ∧ v ∈ s.parents) ∨ v = p := by
  simp only [exists_extend_concat, exists_or, exists_and_left, exists_eq, and_true]

section Parent

variable {recorded : Vtbl → NmdSub → Prop} {name p : Vtbl} {sub : NmdSub} {done : List Vtbl}
  {st st' : Building}

theorem Built.addEdge (hst : Built (extend recorded name { sub with parents := done }) st)
    (hp : p.1 ≠ "") (hroots : st'.cha.roots = st.cha.roots)
    (hmap : ∀ v, v ∈ st'.cha.cloudMap ↔ v = p ∨ v ∈ st.cha.cloudMap)
    (hchildren : ∀ v w, w ∈ st'.cha.children v ↔ w ∈ st.cha.children v ∨ v = p ∧ w = name)
    (hundefined : st'.undefined =
      if p ∈ st.cha.cloudMap then st.undefined else insertInto vtblLt p st.undefined) :
    Built (extend recorded name { sub with parents := done ++ [p] }) st' := by
  constructor
  case mem_children =>
    intro v w
    rw [hchildren, hst.mem_children, exists_extend_concat, and_or_left]
    constructor
    · rintro (hold | ⟨rfl, rfl⟩)
      · exact .inl hold
      · exact .inr ⟨hp, rfl, rfl⟩
    · rintro (hold | ⟨-, hnew⟩)
      · exact .inl hold
      · exact .inr hnew
  case mem_cloudMap =>
    intro v
    rw [hmap, hundefined, exists_extend_append]
    have hold := hst.mem_cloudMap v
    split
    · rename_i hknown
      rw [← hold]
      exact ⟨fun hv => hv.elim (fun hv => hv ▸ hknown) id, .inr⟩
    · rw [hold, mem_insertInto, or_assoc]
  case mem_undefined =>
    intro v
    rw [hundefined, exists_extend_append, exists_listed_append]
    have hold := hst.mem_undefined v
    split
    · rename_i hknown
      rw [hold]
      constructor
      · exact fun ⟨hnew, hv, hlist⟩ => ⟨hnew, hv, .inl hlist⟩
      · rintro ⟨hnew, hv, hlist | rfl⟩
        · exact ⟨hnew, hv, hlist⟩
        · exact hold.mp (((hst.mem_cloudMap v).mp hknown).resolve_right hnew)
    · rename_i hunknown
      rw [mem_insertInto, hold]
      constructor
      · rintro (rfl | ⟨hnew, hv, hlist⟩)
        · exact ⟨fun hrec => hunknown ((hst.mem_cloudMap v).mpr (.inr hrec)), hp, .inr rfl⟩
        · exact ⟨hnew, hv, .inl hlist⟩
      · rintro ⟨hnew, hv, hlist | rfl⟩
        · exact .inr ⟨hnew, hv, hlist⟩
        · exact .inl rfl
  case undefined_nodup =>
    rw [hundefined]
    split
    · exact hst.undefined_nodup
    · rename_i hunknown
      exact nodup_insertInto _ (fun hmem => hunknown ((hst.mem_cloudMap p).mpr (.inl hmem)))
        hst.undefined_nodup
  case mem_roots =>
    intro r
    rw [hroots, hst.mem_roots, exists_extend, exists_extend]
    simp [hp, or_and_right, exists_or]
  case root_order =>
    rintro v s (hrec | ⟨rfl, rfl⟩) q hq hempty
    · exact hst.root_order v s (.inl hrec) q hq hempty
    · rcases List.mem_append.mp hq with hq | hq
      · exact hst.root_order v _ (.inr ⟨rfl, rfl⟩) q hq hempty
      · exact absurd (List.mem_singleton.mp hq ▸ hempty) hp

/-- An empty parent is no edge, it makes the class a root. -/
theorem Built.addRoot (hst : Built (extend recorded name { sub with parents := done }) st)
    (hp : p.1 = "") (horder : name.2 = 0) :
    Built (extend recorded name { sub with parents := done ++ [p] }) { st with cha := { st.cha with
      roots := insertInto (fun a b => a < b) name.1 st.cha.roots } } := by
  have hne : ∀ v : Vtbl, v.1 ≠ "" → v ≠ p := fun v hv hvp => hv (hvp ▸ hp)
  constructor
  case mem_children =>
    intro v w
    rw [exists_extend_concat]
    refine (hst.mem_children v w).trans ⟨fun ⟨hv, hold⟩ => ⟨hv, .inl hold⟩, ?_⟩
    rintro ⟨hv, hold | ⟨hvp, -⟩⟩
    · exact ⟨hv, hold⟩
    · exact absurd hvp (hne v hv)
  case mem_cloudMap =>
    intro v
    rw [exists_extend_append]
    exact hst.mem_cloudMap v
  case mem_undefined =>
    intro v
    rw [exists_extend_append, exists_listed_append]
    refine (hst.mem_undefined v).trans ⟨fun ⟨hnew, hv, hold⟩ => ⟨hnew, hv, .inl hold⟩, ?_⟩
    rintro ⟨hnew, hv, hold | hvp⟩
    · exact ⟨hnew, hv, hold⟩
    · exact absurd hvp (hne v hv)
  case undefined_nodup => exact hst.undefined_nodup
  case mem_roots =>
    intro r
    have hold := hst.mem_roots r
    rw [exists_extend] at hold ⊢
    rw [mem_insertInto, hold]
    have hname : (r, 0) = name ↔ r = name.1 := by
      rw [Prod.ext_iff]
      exact ⟨fun h => h.1, fun h => ⟨h, horder.symm⟩⟩
    simp only [hname, List.mem_append, List.mem_singleton, or_and_right, exists_or,
      exists_eq_left, hp, or_true, and_true]
    rw [or_left_comm, or_iff_left_of_imp And.left]
  case root_order =>
    rintro v s (hrec | ⟨rfl, rfl⟩) q hq hempty
    · exact hst.root_order v s (.inl hrec) q hq hempty
    · exact horder

theorem addParent_built (hst : Built (extend recorded name { sub with parents := done }) st)
    (h : addParent name st p = .ok st') :
    Built (extend recorded name { sub with parents := done ++ [p] }) st' := by
  rcases addParent_cases h with ⟨hp, hroots, hmap, hchildren, hundefined⟩ | ⟨hp, horder, rfl⟩
  · exact hst.addEdge hp hroots hmap hchildren hundefined
  · exact hst.addRoot hp horder

end Parent

/-- Before its parents are read, a sub-vtable is known and no longer undefined. -/
theorem Built.record {recorded : Vtbl → NmdSub → Prop} {name : Vtbl} {sub : NmdSub}
    {st st' : Building} (hst : Built recorded st)
    (hmap : st'.cha.cloudMap =
      if name ∈ st.cha.cloudMap then st.cha.cloudMap else st.cha.cloudMap.insert name [])
    (hroots : st'.cha.roots = st.cha.roots) (hundefined : st'.undefined = st.undefined.erase name) :
    Built (extend recorded name { sub with parents := [] }) st' := by
  have hmem : ∀ v, v ∈ st'.cha.cloudMap ↔ v = name ∨ v ∈ st.cha.cloudMap := by
    intro v
    rw [hmap]
    split
    · rename_i hknown
      exact ⟨.inr, fun hv => hv.elim (fun hv => hv ▸ hknown) id⟩
    · exact AList.mem_insert _
  have hchildren : ∀ v, st'.cha.children v = st.cha.children v := by
    intro v
    rw [SDBuildCHA.children, SDBuildCHA.children, hmap]
    split
    · rfl
    · rename_i hunknown
      by_cases hv : v = name
      · subst hv
        simp [AList.lookup_eq_none.mpr hunknown]
      · rw [AList.lookup_insert_ne hv]
  have hlisted : ∀ v w, (∃ s, extend recorded name { sub with parents := [] } w s ∧
      v ∈ s.parents) ↔ ∃ s, recorded w s ∧ v ∈ s.parents := by
    intro v w
    simp [exists_extend]
  constructor
  case mem_children =>
    intro v w
    rw [hchildren, hst.mem_children, hlisted]
  case mem_cloudMap =>
    intro v
    rw [hmem, hst.mem_cloudMap, hundefined, exists_extend_self]
    by_cases hv : v = name
    · simp [hv]
    · simp [hv, List.mem_erase_of_ne hv]
  case mem_undefined =>
    intro v
    rw [hundefined, hst.undefined_nodup.mem_erase_iff, hst.mem_undefined, exists_extend_self]
    simp only [hlisted, not_or]
    tauto
  case undefined_nodup =>
    rw [hundefined]
    exact hst.undefined_nodup.erase _
  case mem_roots =>
    intro r
    rw [hroots, hst.mem_roots, exists_extend]
    simp
  case root_order =>
    rintro v s (hrec | ⟨-, rfl⟩) q hq hempty
    · exact hst.root_order v s hrec q hq hempty
    · exact absurd hq List.not_mem_nil

theorem addSubVTable_built {recorded : Vtbl → NmdSub → Prop} {className : String}
    {sub : NmdSub × Nat} {st st' : Building} (hst : Built recorded st)
    (h : addSubVTable className st sub = .ok st') :
    Built (extend recorded (className, sub.2) sub.1) st' := by
  unfold addSubVTable at h
  rw [bind_eq_ok] at h
  obtain ⟨t, hparents, hrest⟩ := h
  obtain rfl := Except.ok.inj hrest
  have ht : Built (extend recorded (className, sub.2) sub.1) t := by
    refine foldlM_ok_rule (fun done t =>
      Built (extend recorded (className, sub.2) { sub.1 with parents := done }) t) ?_ ?_ hparents
    · exact fun _ _ _ _ ht _ hstep => addParent_built ht hstep
    · exact hst.record rfl rfl rfl
  exact ⟨ht.mem_children, ht.mem_cloudMap, ht.mem_undefined, ht.undefined_nodup, ht.mem_roots,
    ht.root_order⟩

theorem Built.congr {recorded recorded' : Vtbl → NmdSub → Prop} {st : Building}
    (h : Built recorded st) (heq : ∀ v sub, recorded v sub ↔ recorded' v sub) :
    Built recorded' st := by
  obtain rfl : recorded = recorded' := funext fun v => funext fun sub => propext (heq v sub)
  exact h

theorem getElem?_concat_eq_some {α : Type} {l : List α} {a b : α} {i : Nat} :
    (l ++ [a])[i]? = some b ↔ l[i]? = some b ∨ i = l.length ∧ b = a := by
  rcases lt_trichotomy i l.length with hi | rfl | hi
  · simp [List.getElem?_append_left hi, hi.ne]
  · simp [eq_comm]
  · simp [List.getElem?_eq_none, hi.le, hi.ne', Nat.succ_le_of_lt hi]

theorem addClass_built {initializer : String → Option (List Constant)} {infoVec : List Nmd}
    {info : Nmd} {st st' : Building} (hst : Built (Recorded infoVec) st)
    (h : addClass initializer st info = .ok st') : Built (Recorded (infoVec ++ [info])) st' := by
  have hsubs : Built (fun v sub => Recorded infoVec v sub ∨
      info.className = v.1 ∧ info.subVTables[v.2]? = some sub) st' := by
    obtain ⟨_, _, -, hfold⟩ := addClass_cases h
    refine foldlM_zipIdx_rule (fun done t => Built (fun v sub => Recorded infoVec v sub ∨
      info.className = v.1 ∧ done[v.2]? = some sub) t) ?step ?start hfold
    case step =>
      intro done sub t t' ht _ hstep
      refine (addSubVTable_built ht hstep).congr ?_
      intro v s
      rw [extend, getElem?_concat_eq_some, Prod.ext_iff, and_or_left, or_assoc, and_assoc,
        eq_comm (a := v.1)]
    case start =>
      have hnone : Built (fun v sub => Recorded infoVec v sub ∨
          info.className = v.1 ∧ ([] : List NmdSub)[v.2]? = some sub) st :=
        hst.congr fun v sub => by simp
      exact ⟨hnone.1, hnone.2, hnone.3, hnone.4, hnone.5, hnone.6⟩
  apply hsubs.congr
  intro v sub
  simp [Recorded, or_and_right, exists_or]

theorem built_empty : Built (Recorded []) ⟨SDBuildCHA.empty, []⟩ := by
  constructor <;> simp [Recorded, SDBuildCHA.children, SDBuildCHA.empty]

theorem addClasses_built {initializer : String → Option (List Constant)} {infoVec : List Nmd}
    {st : Building} (h : infoVec.foldlM (addClass initializer) ⟨SDBuildCHA.empty, []⟩ = .ok st) :
    Built (Recorded infoVec) st :=
  foldlM_ok_rule (fun done t => Built (Recorded done) t)
    (fun _ _ _ _ ht _ hstep => addClass_built ht hstep) built_empty h

theorem buildClouds_built {initializer : String → Option (List Constant)} {infoVec : List Nmd}
    {cha : SDBuildCHA} (h : buildClouds initializer infoVec = .ok cha) :
    Built (Recorded infoVec) ⟨cha, []⟩ := by
  obtain ⟨st, names, hclasses, hundefined, -, rfl⟩ := buildClouds_cases h
  have hst := addClasses_built hclasses
  exact ⟨hst.1, hundefined ▸ hst.2, hundefined ▸ hst.3, List.nodup_nil, hst.5, hst.6⟩

/-- The children of each sub-vtable are a sorted set. -/
def Building.Sorted (st : Building) : Prop :=
  ∀ v, (st.cha.children v).Pairwise fun a b => vtblLt a b

theorem addParent_sorted {name p : Vtbl} {st st' : Building} (hst : st.Sorted)
    (h : addParent name st p = .ok st') : st'.Sorted := by
  have hinsert : ∀ cs : List Vtbl, (cs.Pairwise fun a b => vtblLt a b) →
      (insertInto vtblLt name cs).Pairwise fun a b => vtblLt a b := by
    intro cs
    apply pairwise_insertInto
    · intro a b c hab hbc
      rw [vtblLt_iff] at *
      exact hab.trans hbc
    · intro a b hab
      rw [vtblLt_iff, vtblLt_iff]
      exact lt_or_gt_of_ne (toLex.injective.ne hab)
  unfold addParent at h
  split at h
  · obtain rfl := Except.ok.inj h
    intro v
    by_cases hknown : p ∈ st.cha.cloudMap
    · simp only [if_pos hknown]
      by_cases hv : v = p
      · subst hv
        simpa [SDBuildCHA.children] using hinsert _ (hst v)
      · simpa [SDBuildCHA.children, AList.lookup_insert_ne hv] using hst v
    · simp only [if_neg hknown]
      by_cases hv : v = p
      · subst hv
        simp [SDBuildCHA.children, insertInto]
      · simpa [SDBuildCHA.children, AList.lookup_insert_ne hv] using hst v
  · split at h
    · obtain rfl := Except.ok.inj h
      exact hst
    · cases h

theorem addSubVTable_sorted {className : String} {sub : NmdSub × Nat} {st st' : Building}
    (hst : st.Sorted) (h : addSubVTable className st sub = .ok st') : st'.Sorted := by
  unfold addSubVTable at h
  rw [bind_eq_ok] at h
  obtain ⟨t, hparents, hrest⟩ := h
  obtain rfl := Except.ok.inj hrest
  have ht : t.Sorted := by
    refine foldlM_ok_rule (fun _ t => t.Sorted)
      (fun _ _ _ _ ht _ hstep => addParent_sorted ht hstep) ?start hparents
    case start =>
      intro v
      by_cases hname : (className, sub.2) ∈ st.cha.cloudMap
      · simpa [SDBuildCHA.children, hname] using hst v
      · by_cases hv : v = (className, sub.2)
        · subst hv
          simp [SDBuildCHA.children, hname]
        · simpa [SDBuildCHA.children, hname, AList.lookup_insert_ne hv] using hst v
  exact ht

theorem addClass_sorted {initializer : String → Option (List Constant)} {info : Nmd}
    {st st' : Building} (hst : st.Sorted) (h : addClass initializer st info = .ok st') :
    st'.Sorted := by
  obtain ⟨_, _, -, hfold⟩ := addClass_cases h
  exact foldlM_ok_rule (fun _ t => t.Sorted)
    (fun _ _ _ _ ht _ hstep => addSubVTable_sorted ht hstep) hst hfold

theorem buildClouds_children_nodup {initializer : String → Option (List Constant)}
    {infoVec : List Nmd} {cha : SDBuildCHA} (h : buildClouds initializer infoVec = .ok cha)
    (v : Vtbl) : (cha.children v).Nodup := by
  obtain ⟨st, names, hclasses, -, -, rfl⟩ := buildClouds_cases h
  have hst : st.Sorted := foldlM_ok_rule (fun _ t => t.Sorted)
    (fun _ _ _ _ ht _ hstep => addClass_sorted ht hstep) (fun _ => List.Pairwise.nil) hclasses
  apply (hst v).imp
  intro a b hab
  rw [vtblLt_iff] at hab
  exact fun heq => hab.ne (congrArg toLex heq)

/-- The assertion about parents without metadata holds where every parent has some. -/
theorem buildClouds_ne_undefinedVtables {initializer : String → Option (List Constant)}
    {infoVec : List Nmd} (h : ∀ w sub, Recorded infoVec w sub → ∀ v ∈ sub.parents, v.1 ≠ "" →
      ∃ sub', Recorded infoVec v sub') :
    buildClouds initializer infoVec ≠ .error .undefinedVtables := by
  unfold buildClouds
  rw [ne_eq, bind_eq_error]
  rintro (herror | ⟨st, hclasses, hrest⟩)
  · refine foldlM_ne_error_of_forall (fun info _ st hinfo => ?_) herror
    rw [addClass, bind_eq_error] at hinfo
    rcases hinfo with hglobal | ⟨_, _, hinfo⟩
    · unfold recordOldVTable at hglobal
      split at hglobal
      · split at hglobal <;> cases hglobal
      · cases hglobal
    refine foldlM_ne_error_of_forall (fun sub _ st hsub => ?_) hinfo
    rw [addSubVTable, bind_eq_error] at hsub
    rcases hsub with hsub | ⟨_, _, hsub⟩
    · refine foldlM_ne_error_of_forall (fun p _ st hp => ?_) hsub
      unfold addParent at hp
      split at hp
      · cases hp
      · split at hp <;> cases hp
    · cases hsub
  · have hst := addClasses_built hclasses
    have hundefined : st.undefined = [] := by
      refine List.eq_nil_iff_forall_not_mem.mpr fun v hv => ?_
      obtain ⟨hnone, hname, w, sub, hsub, hmem⟩ := (hst.mem_undefined v).mp hv
      exact hnone (h w sub hsub v hmem hname)
    rw [if_neg (not_not.mpr hundefined), bind_eq_error] at hrest
    rcases hrest with hnames | ⟨_, _, hrest⟩
    · refine foldlM_ne_error_of_forall (fun entry _ names hentry => ?_) hnames
      cases hlayout : entry.2.mapM (layoutClass { st.cha with ancestorMap := ancestors st.cha }
          entry.1) with
      | ok layouts =>
        rw [hlayout] at hentry
        cases hentry
      | error e =>
        rw [hlayout] at hentry
        obtain rfl := Except.error.inj hentry
        obtain ⟨parents, _, hfold⟩ := exists_of_mapM_eq_error hlayout
        rw [layoutClass, bind_eq_error] at hfold
        rcases hfold with hfold | ⟨_, _, hrest⟩
        · refine foldlM_ne_error_of_forall (fun p _ layoutClass hp => ?_) hfold
          split at hp
          · split at hp <;> cases hp
          · cases hp
        · cases hrest
    · cases hrest

/-- The parents that `buildClouds` keeps of a record. -/
def NmdSub.realParents (sub : NmdSub) : List Vtbl := sub.parents.filter fun parent => parent.1 ≠ ""

/-- The parents of all records of a class. -/
def parentLists (infoVec : List Nmd) (className : String) : List (List Vtbl) :=
  (infoVec.filter fun info => info.className = className).flatMap fun info =>
    info.subVTables.map NmdSub.realParents

theorem addSubVTable_parentMap {className : String} {sub : NmdSub × Nat} {st st' : Building}
    (h : addSubVTable className st sub = .ok st') (c : String) :
    (st'.cha.parentMap.lookup c).getD [] = (st.cha.parentMap.lookup c).getD [] ++
      if className = c then [sub.1.realParents] else [] := by
  unfold addSubVTable at h
  rw [bind_eq_ok] at h
  obtain ⟨t, hparents, hrest⟩ := h
  obtain rfl := Except.ok.inj hrest
  have hmap : t.cha.parentMap = st.cha.parentMap :=
    foldlM_ok_rule (fun _ t => t.cha.parentMap = st.cha.parentMap)
      (fun _ _ _ _ ht _ hstep => (addParent_frame hstep).2.trans ht) rfl hparents
  rw [hmap]
  by_cases hc : className = c
  · subst hc
    simp [NmdSub.realParents]
  · simp [AList.lookup_insert_ne (Ne.symm hc), hc]

theorem addClass_parentMap {initializer : String → Option (List Constant)} {info : Nmd}
    {st st' : Building} (h : addClass initializer st info = .ok st') (c : String) :
    (st'.cha.parentMap.lookup c).getD [] = (st.cha.parentMap.lookup c).getD [] ++
      if info.className = c then info.subVTables.map NmdSub.realParents else [] := by
  obtain ⟨_, _, -, hfold⟩ := addClass_cases h
  refine foldlM_zipIdx_rule (fun done t => (t.cha.parentMap.lookup c).getD [] =
    (st.cha.parentMap.lookup c).getD [] ++
      if info.className = c then done.map NmdSub.realParents else []) ?step ?start hfold
  case step =>
    intro done sub t t' ht _ hstep
    rw [addSubVTable_parentMap hstep, ht]
    split <;> simp
  case start => simp

theorem buildClouds_parentMap {initializer : String → Option (List Constant)} {infoVec : List Nmd}
    {cha : SDBuildCHA} (h : buildClouds initializer infoVec = .ok cha) (c : String) :
    (cha.parentMap.lookup c).getD [] = parentLists infoVec c := by
  obtain ⟨st, names, hclasses, -, -, rfl⟩ := buildClouds_cases h
  refine foldlM_ok_rule (fun done t =>
    (t.cha.parentMap.lookup c).getD [] = parentLists done c) ?step ?start hclasses
  case step =>
    intro done info t t' ht _ hstep
    rw [addClass_parentMap hstep, ht]
    by_cases hc : info.className = c <;> simp [parentLists, List.filter_append, hc]
  case start => rfl

section Distinct

variable {infoVec : List Nmd} (hdistinct : (infoVec.map Nmd.className).Nodup)
include hdistinct

theorem recorded_unique {v : Vtbl} {sub sub' : NmdSub} (h : Recorded infoVec v sub)
    (h' : Recorded infoVec v sub') : sub = sub' := by
  obtain ⟨info, hinfo, hname, hsub⟩ := h
  obtain ⟨info', hinfo', hname', hsub'⟩ := h'
  obtain rfl : info = info' :=
    List.inj_on_of_nodup_map hdistinct hinfo hinfo' (hname.trans hname'.symm)
  exact Option.some.inj (hsub.symm.trans hsub')

theorem parentLists_eq {info : Nmd} (hinfo : info ∈ infoVec) :
    parentLists infoVec info.className = info.subVTables.map NmdSub.realParents := by
  induction infoVec with
  | nil => cases hinfo
  | cons other infoVec ih =>
    obtain ⟨hother, hrest⟩ := List.nodup_cons.mp hdistinct
    rcases List.mem_cons.mp hinfo with rfl | hinfo
    · have hnone : infoVec.filter (fun other => other.className = info.className) = [] := by
        rw [List.filter_eq_nil_iff]
        intro other hmem heq
        exact hother (List.mem_map.mpr ⟨other, hmem, of_decide_eq_true heq⟩)
      simp [parentLists, hnone]
    · have hne : other.className ≠ info.className :=
        fun heq => hother (List.mem_map.mpr ⟨info, hinfo, heq.symm⟩)
      rw [← ih hrest hinfo, parentLists, parentLists, List.filter_cons_of_neg (by simpa using hne)]

theorem parentLists_getElem? {v : Vtbl} {ps : List Vtbl} :
    (parentLists infoVec v.1)[v.2]? = some ps ↔
      ∃ sub, Recorded infoVec v sub ∧ sub.realParents = ps := by
  constructor
  · intro hps
    by_cases hclass : ∃ info ∈ infoVec, info.className = v.1
    · obtain ⟨info, hinfo, hname⟩ := hclass
      rw [← hname, parentLists_eq hdistinct hinfo, List.getElem?_map, Option.map_eq_some_iff] at hps
      obtain ⟨sub, hsub, rfl⟩ := hps
      exact ⟨sub, ⟨info, hinfo, hname, hsub⟩, rfl⟩
    · have hnone : infoVec.filter (fun info => info.className = v.1) = [] := by
        rw [List.filter_eq_nil_iff]
        exact fun info hinfo heq => hclass ⟨info, hinfo, of_decide_eq_true heq⟩
      simp [parentLists, hnone] at hps
  · rintro ⟨sub, ⟨info, hinfo, hname, hsub⟩, rfl⟩
    rw [← hname, parentLists_eq hdistinct hinfo, List.getElem?_map, hsub, Option.map_some]

end Distinct

section Accepted

variable {initializer : String → Option (List Constant)} {infoVec : List Nmd} {cha : SDBuildCHA}
  (h : buildClouds initializer infoVec = .ok cha)
include h

theorem mem_children_iff (v w : Vtbl) : w ∈ cha.children v ↔ ParentEdge infoVec v w :=
  (buildClouds_built h).mem_children v w

theorem mem_cloudMap_iff (v : Vtbl) : v ∈ cha.cloudMap ↔ ∃ sub, Recorded infoVec v sub := by
  rw [(buildClouds_built h).mem_cloudMap]
  simp

theorem mem_roots_iff (r : String) : r ∈ cha.roots ↔
    ∃ sub, Recorded infoVec (r, 0) sub ∧ ∃ p ∈ sub.parents, p.1 = "" :=
  (buildClouds_built h).mem_roots r

theorem acyclic_children (hacyclic : AcyclicMetadata infoVec) : Acyclic cha.children := by
  have hedges : (fun v w => w ∈ cha.children v) = ParentEdge infoVec :=
    funext fun v => funext fun w => propext (mem_children_iff h v w)
  rw [Acyclic, hedges]
  exact hacyclic

/-- No parent is without metadata. -/
theorem ParentEdge.known {v w : Vtbl} (hedge : ParentEdge infoVec v w) : v ∈ cha.cloudMap := by
  obtain ⟨hv, hlisted⟩ := hedge
  by_contra hunknown
  rw [mem_cloudMap_iff h] at hunknown
  have hundefined := ((buildClouds_built h).mem_undefined v).mpr ⟨hunknown, hv, w, hlisted⟩
  exact List.not_mem_nil hundefined

theorem parents_eq_some (hdistinct : (infoVec.map Nmd.className).Nodup) {v : Vtbl} {sub : NmdSub}
    (hsub : Recorded infoVec v sub) : cha.parents v = sub.realParents := by
  rw [SDBuildCHA.parents, buildClouds_parentMap h, (parentLists_getElem? hdistinct).mpr
    ⟨sub, hsub, rfl⟩, Option.getD_some]

/-- The two directions of the hierarchy agree on the edges. -/
theorem mem_parents_iff (hdistinct : (infoVec.map Nmd.className).Nodup) (v p : Vtbl) :
    p ∈ cha.parents v ↔ v ∈ cha.children p := by
  rw [mem_children_iff h]
  constructor
  · intro hp
    rw [SDBuildCHA.parents, buildClouds_parentMap h] at hp
    cases hps : (parentLists infoVec v.1)[v.2]? with
    | none => simp [hps] at hp
    | some ps =>
      obtain ⟨sub, hsub, rfl⟩ := (parentLists_getElem? hdistinct).mp hps
      rw [hps, Option.getD_some, NmdSub.realParents, List.mem_filter] at hp
      exact ⟨of_decide_eq_true hp.2, sub, hsub, hp.1⟩
  · rintro ⟨hp, sub, hsub, hmem⟩
    rw [parents_eq_some h hdistinct hsub, NmdSub.realParents, List.mem_filter]
    exact ⟨hmem, decide_eq_true hp⟩

theorem SDBuildCHA.SameRoots.getAncestor_eq (hdistinct : (infoVec.map Nmd.className).Nodup)
    (hsame : cha.SameRoots) {v p q : Vtbl} (hp : v ∈ cha.children p) (hq : v ∈ cha.children q) :
    cha.getAncestor p = cha.getAncestor q := by
  rw [← mem_parents_iff h hdistinct] at hp hq
  cases hlookup : cha.parentMap.lookup v.1 with
  | none => simp [SDBuildCHA.parents, hlookup] at hp
  | some lists =>
    cases hps : lists[v.2]? with
    | none => simp [SDBuildCHA.parents, hlookup, hps] at hp
    | some ps =>
      simp only [SDBuildCHA.parents, hlookup, hps, Option.getD_some] at hp hq
      exact hsame ⟨v.1, lists⟩ (AList.mem_lookup_iff.mp hlookup) ps (List.mem_of_getElem? hps)
        p hp q hq

end Accepted

theorem acyclicMetadata_of_lt {infoVec : List Nmd}
    (hlt : ∀ info ∈ infoVec, ∀ sub ∈ info.subVTables, ∀ p ∈ sub.parents, p.1 < info.className) :
    AcyclicMetadata infoVec := by
  have hpath : ∀ v w, Relation.TransGen (ParentEdge infoVec) v w → v.1 < w.1 := by
    have hedge : ∀ v w, ParentEdge infoVec v w → v.1 < w.1 := by
      rintro v w ⟨-, sub, ⟨info, hinfo, hname, hsub⟩, hmem⟩
      exact hname ▸ hlt info hinfo sub (List.mem_of_getElem? hsub) v hmem
    intro v w hvw
    induction hvw with
    | single h => exact hedge _ _ h
    | tail _ h ih => exact ih.trans (hedge _ _ h)
  exact fun v hv => lt_irrefl _ (hpath v v hv)

def oneFunction (className : String) (order start : Nat) (parent : String) : NmdSub :=
  ⟨order, start, start + 2, start + 2, [(parent, 0)], [⟨"_ZN1A1fEv", (className, order), 0⟩]⟩

/-- The class `D` has a part for each of its bases `B` and `C`, and both extend `A`. -/
def twoPartClasses : List Nmd :=
  [⟨"_ZTV1D", [oneFunction "_ZTV1D" 0 0 "_ZTV1B", oneFunction "_ZTV1D" 1 3 "_ZTV1C"]⟩,
    ⟨"_ZTV1B", [oneFunction "_ZTV1B" 0 0 "_ZTV1A"]⟩,
    ⟨"_ZTV1C", [oneFunction "_ZTV1C" 0 0 "_ZTV1A"]⟩, ⟨"_ZTV1A", [oneFunction "_ZTV1A" 0 0 ""]⟩]

def twoPartTables (className : String) : Option (List Constant) :=
  let part : List Constant := [.null, .null, .bitCast "_ZN1A1fEv"]
  some (if className = "_ZTV1D" then part ++ part else part)

/-- Downwards by the children and upwards by the parents the same ancestors are found. -/
theorem isAncestor_iff_mem_preorder {initializer : String → Option (List Constant)}
    {infoVec : List Nmd} {cha : SDBuildCHA} (hdistinct : (infoVec.map Nmd.className).Nodup)
    (hacyclic : AcyclicMetadata infoVec) (h : buildClouds initializer infoVec = .ok cha)
    (b d : Vtbl) :
    cha.isAncestor b d = some (decide (d ∈ cha.preorder b)) ∧
      (cha.preorder b).Nodup ∧ (∀ x, x ∈ cha.preorder b ↔ Reaches cha.children b x) ∧
      (cha.preorder b).head? = some b ∧
      (∀ pre x post, cha.preorder b = pre ++ x :: post → x ≠ b → ∃ p ∈ pre, p ∈ cha.parents x) ∧
      ∀ v w, (w ∈ cha.children v ↔ ParentEdge infoVec v w) ∧
        (v ∈ cha.parents w ↔ ParentEdge infoVec v w) := by
  refine ⟨?_, cha.preorder_nodup b, cha.mem_preorder_iff b, cha.preorder_head b, ?_,
    fun v w => ⟨mem_children_iff h v w, ?_⟩⟩
  · classical
    rw [SDBuildCHA.isAncestor, ascend_eq_some (acyclic_children h hacyclic) cha.supported b d
      fun w p _ => mem_parents_iff h hdistinct w p]
    simp only [cha.mem_preorder_iff]
  · intro pre x post hpre hx
    have hfirst : ParentsFirst cha.children b (pre ++ x :: post) :=
      hpre ▸ visit_parentsFirst _ .nil (.inl rfl)
    obtain ⟨p, hp, hedge⟩ := hfirst.parent_before hx
    exact ⟨p, hp, (mem_parents_iff h hdistinct x p).mpr hedge⟩
  · rw [mem_parents_iff h hdistinct, mem_children_iff h]

theorem isAncestor_iff_mem_preorder_twoPart : ∃ cha,
    buildClouds twoPartTables twoPartClasses = .ok cha ∧ ∀ b d,
      cha.isAncestor b d = some (decide (d ∈ cha.preorder b)) ∧
        (cha.preorder b).Nodup ∧ (∀ x, x ∈ cha.preorder b ↔ Reaches cha.children b x) ∧
        (cha.preorder b).head? = some b ∧ (∀ pre x post, cha.preorder b = pre ++ x :: post →
          x ≠ b → ∃ p ∈ pre, p ∈ cha.parents x) ∧
        ∀ v w, (w ∈ cha.children v ↔ ParentEdge twoPartClasses v w) ∧
          (v ∈ cha.parents w ↔ ParentEdge twoPartClasses v w) := by
  have hcha := eq_ok_of_isOk (x := buildClouds twoPartTables twoPartClasses) .empty (by decide)
  exact ⟨_, hcha, isAncestor_iff_mem_preorder (by decide) (acyclicMetadata_of_lt (by decide)) hcha⟩

/-- Every sub-vtable has a parent, and the empty parent stands alone. -/
def ParentsListed (infoVec : List Nmd) : Prop :=
  ∀ info ∈ infoVec, ∀ sub ∈ info.subVTables, sub.parents ≠ [] ∧
    ((∃ p ∈ sub.parents, p.1 = "") → ∀ p ∈ sub.parents, p.1 = "")

instance (infoVec : List Nmd) : Decidable (ParentsListed infoVec) :=
  inferInstanceAs (Decidable (∀ info ∈ infoVec, ∀ sub ∈ info.subVTables, sub.parents ≠ [] ∧
    ((∃ p ∈ sub.parents, p.1 = "") → ∀ p ∈ sub.parents, p.1 = "")))

theorem ParentsListed.of_recorded {infoVec : List Nmd} (hlisted : ParentsListed infoVec) {v : Vtbl}
    {sub : NmdSub} (hsub : Recorded infoVec v sub) : sub.parents ≠ [] ∧
      ((∃ p ∈ sub.parents, p.1 = "") → ∀ p ∈ sub.parents, p.1 = "") := by
  obtain ⟨info, hinfo, -, hget⟩ := hsub
  exact hlisted info hinfo sub (List.mem_of_getElem? hget)

section Clouds

variable {initializer : String → Option (List Constant)} {infoVec : List Nmd} {cha : SDBuildCHA}
  (h : buildClouds initializer infoVec = .ok cha)
include h

/-- Upwards from a known sub-vtable there is always a root. -/
theorem exists_root (hacyclic : AcyclicMetadata infoVec)
    (hparents : ∀ v sub, Recorded infoVec v sub → sub.parents ≠ []) (v : Vtbl)
    (hv : v ∈ cha.cloudMap) : ∃ root ∈ cha.roots, Reaches cha.children (root, 0) v := by
  induction v using (acyclic_children h hacyclic).parents_induction cha.supported with
  | step v ih =>
    obtain ⟨sub, hsub⟩ := (mem_cloudMap_iff h v).mp hv
    obtain ⟨p, hp⟩ := List.exists_mem_of_ne_nil _ (hparents v sub hsub)
    by_cases hempty : p.1 = ""
    · have horder : v.2 = 0 := (buildClouds_built h).root_order v sub hsub p hp hempty
      have hname : v = (v.1, 0) := Prod.ext rfl horder
      refine ⟨v.1, (mem_roots_iff h v.1).mpr ⟨sub, hname ▸ hsub, p, hp, hempty⟩, ?_⟩
      rw [← hname]
    · have hedge : ParentEdge infoVec p v := ⟨hempty, sub, hsub, hp⟩
      obtain ⟨root, hroot, hreach⟩ := ih p ((mem_children_iff h p v).mpr hedge) (hedge.known h)
      exact ⟨root, hroot, hreach.tail ((mem_children_iff h p v).mpr hedge)⟩

theorem mem_cloudMap_of_reaches {root : String} (hroot : root ∈ cha.roots) {v : Vtbl}
    (hreach : Reaches cha.children (root, 0) v) : v ∈ cha.cloudMap := by
  rw [mem_cloudMap_iff h]
  rcases Relation.ReflTransGen.cases_tail hreach with rfl | ⟨p, -, hchild⟩
  · obtain ⟨sub, hsub, -⟩ := (mem_roots_iff h root).mp hroot
    exact ⟨sub, hsub⟩
  · obtain ⟨-, sub, hsub, -⟩ := (mem_children_iff h p v).mp hchild
    exact ⟨sub, hsub⟩

/-- With a part of a class its first part is known. -/
theorem mem_cloudMap_first {v : Vtbl} (hv : v ∈ cha.cloudMap) : (v.1, 0) ∈ cha.cloudMap := by
  rw [mem_cloudMap_iff h] at *
  obtain ⟨sub, info, hinfo, hname, hsub⟩ := hv
  obtain ⟨hlt, -⟩ := List.getElem?_eq_some_iff.mp hsub
  exact ⟨info.subVTables[0], info, hinfo, hname, List.getElem?_eq_getElem (by omega)⟩

variable (hdistinct : (infoVec.map Nmd.className).Nodup)
include hdistinct

/-- A root lists the empty parent, so it is nobody's child. -/
theorem root_notMem_children (hlisted : ParentsListed infoVec) {root : String}
    (hroot : root ∈ cha.roots) (p : Vtbl) : (root, 0) ∉ cha.children p := by
  intro hedge
  obtain ⟨hp, sub, hsub, hmem⟩ := (mem_children_iff h p _).mp hedge
  obtain ⟨sub', hsub', hempty⟩ := (mem_roots_iff h root).mp hroot
  obtain rfl := recorded_unique hdistinct hsub hsub'
  exact hp ((hlisted.of_recorded hsub).2 hempty p hmem)

/-- The comparison of direct parents suffices: all roots above a node are its ancestor. -/
theorem ancestor_of_reaches (hacyclic : AcyclicMetadata infoVec) (hlisted : ParentsListed infoVec)
    (hsame : cha.SameRoots) (v : Vtbl) : ∀ root ∈ cha.roots, Reaches cha.children (root, 0) v →
      cha.ancestorMap v = some root := by
  induction v using (acyclic_children h hacyclic).parents_induction cha.supported with
  | step v ih =>
    intro root hroot hreach
    rw [buildClouds_ancestorMap h, ancestors_eq_find?]
    cases hfind : cha.roots.find? fun root => v ∈ cha.preorder (root, 0) with
    | none =>
      rw [List.find?_eq_none] at hfind
      exact absurd ((cha.mem_preorder_iff _ v).mpr hreach) (by simpa using hfind root hroot)
    | some first =>
      have hfirst : first ∈ cha.roots := List.mem_of_find?_eq_some hfind
      have hreach' : Reaches cha.children (first, 0) v :=
        (cha.mem_preorder_iff _ v).mp (by simpa using List.find?_some hfind)
      rcases hreach.cases_tail with heq | ⟨p, hp, hedge⟩
      · rcases hreach'.cases_tail with heq' | ⟨q, hq, hedge'⟩
        · exact congrArg some (congrArg Prod.fst (heq'.symm.trans heq))
        · exact absurd (heq ▸ hedge') (root_notMem_children h hdistinct hlisted hroot q)
      · rcases hreach'.cases_tail with heq' | ⟨q, hq, hedge'⟩
        · exact absurd (heq' ▸ hedge) (root_notMem_children h hdistinct hlisted hfirst p)
        · have hp' := ih p hedge root hroot hp
          have hq' := ih q hedge' first hfirst hq
          have heq := hsame.getAncestor_eq h hdistinct hedge hedge'
          simpa [SDBuildCHA.getAncestor, hp', hq'] using heq.symm

end Clouds

/-- Where no ancestor has the name that stands for "none yet", a common one is found. -/
theorem layoutClass_ok {cha : SDBuildCHA} {className name : String} {parents : List Vtbl}
    (hname : ∀ p ∈ parents, cha.getAncestor p ≠ "none")
    (h : layoutClass cha className parents = .ok name) :
    ∀ p ∈ parents, ∀ q ∈ parents, cha.getAncestor p = cha.getAncestor q := by
  unfold layoutClass at h
  rw [bind_eq_ok] at h
  obtain ⟨common, hparents, -⟩ := h
  have hcommon : (parents ≠ [] → common ≠ "none") ∧ ∀ p ∈ parents, cha.getAncestor p = common := by
    refine foldlM_ok_rule (fun done common =>
      (done ≠ [] → common ≠ "none") ∧ ∀ p ∈ done, cha.getAncestor p = common) ?step ?start hparents
    case start => exact ⟨fun hne => absurd rfl hne, List.forall_mem_nil _⟩
    case step =>
      intro done p common common' hdone hp hstep
      have hkeep : common ≠ "none" → common = cha.getAncestor p := by
        intro hne
        rw [if_pos hne] at hstep
        by_contra hother
        rw [if_neg hother] at hstep
        cases hstep
      obtain rfl : cha.getAncestor p = common' := by
        by_cases hne : common ≠ "none"
        · rw [if_pos hne, if_pos (hkeep hne)] at hstep
          rw [← hkeep hne, Except.ok.inj hstep]
        · rw [if_neg hne] at hstep
          exact Except.ok.inj hstep
      refine ⟨fun _ => hname p hp, ?_⟩
      intro q hq
      rcases List.mem_append.mp hq with hq | hq
      · rw [hdone.2 q hq, hkeep (hdone.1 (List.ne_nil_of_mem hq))]
      · rw [List.mem_singleton.mp hq]
  intro p hp q hq
  rw [hcommon.2 p hp, hcommon.2 q hq]

/-- The assertion of `buildClouds` compares the roots of all parents, unless one has the name
that its loop starts from. -/
theorem buildClouds_sameRoots {initializer : String → Option (List Constant)}
    {infoVec : List Nmd} {cha : SDBuildCHA} (h : buildClouds initializer infoVec = .ok cha)
    (hname : ∀ v, cha.getAncestor v ≠ "none") : cha.SameRoots := by
  obtain ⟨st, names, -, -, hnames, rfl⟩ := buildClouds_cases h
  unfold subObjNames at hnames
  refine foldlM_ok_rule (fun done _ => ∀ entry ∈ done, ∀ parents ∈ entry.2,
    ∀ p ∈ parents, ∀ q ∈ parents, SDBuildCHA.getAncestor _ p = SDBuildCHA.getAncestor _ q)
    ?step ?start hnames
  case start => exact List.forall_mem_nil _
  case step =>
    intro done entry names names' hdone _ hstep
    rw [List.forall_mem_append, List.forall_mem_singleton]
    refine ⟨hdone, fun parents hparents => ?_⟩
    cases hlist : entry.2.mapM (layoutClass _ entry.1) with
    | error failure =>
      rw [hlist] at hstep
      cases hstep
    | ok list =>
      obtain ⟨name, hok⟩ := forall_of_mapM_eq_ok hlist parents hparents
      exact layoutClass_ok (fun p _ => hname p) hok

/-- Every known sub-vtable lies in the cloud of one root only, its ancestor. -/
theorem clouds_partition {initializer : String → Option (List Constant)} {infoVec : List Nmd}
    {cha : SDBuildCHA} (hdistinct : (infoVec.map Nmd.className).Nodup)
    (hacyclic : AcyclicMetadata infoVec) (hlisted : ParentsListed infoVec)
    (h : buildClouds initializer infoVec = .ok cha) (hsame : cha.SameRoots) :
    (∀ v, v ∈ cha.cloudMap ↔ ∃ sub, Recorded infoVec v sub) ∧
    (∀ v w, w ∈ cha.children v ↔ ParentEdge infoVec v w) ∧
    (∀ r, r ∈ cha.roots ↔ ∃ sub, Recorded infoVec (r, 0) sub ∧ ∃ p ∈ sub.parents, p.1 = "") ∧
    (∀ v ∈ cha.cloudMap, ∃ root ∈ cha.roots, v ∈ cha.preorder (root, 0) ∧
      (∀ root' ∈ cha.roots, v ∈ cha.preorder (root', 0) → root' = root) ∧
      cha.ancestorMap v = some root) ∧
    ∀ root ∈ cha.roots, ∀ root' ∈ cha.roots, root ≠ root' →
      (cha.preorder (root, 0)).Disjoint (cha.preorder (root', 0)) := by
  have hancestor : ∀ v, ∀ root ∈ cha.roots, v ∈ cha.preorder (root, 0) →
      cha.ancestorMap v = some root := by
    intro v root hroot hmem
    exact ancestor_of_reaches h hdistinct hacyclic hlisted hsame v root hroot
      ((cha.mem_preorder_iff _ v).mp hmem)
  have hunique : ∀ v, ∀ root ∈ cha.roots, v ∈ cha.preorder (root, 0) → ∀ root' ∈ cha.roots,
      v ∈ cha.preorder (root', 0) → root' = root := by
    intro v root hroot hmem root' hroot' hmem'
    exact Option.some.inj
      ((hancestor v root' hroot' hmem').symm.trans (hancestor v root hroot hmem))
  refine ⟨mem_cloudMap_iff h, mem_children_iff h, mem_roots_iff h, ?_, ?_⟩
  · intro v hv
    obtain ⟨root, hroot, hreach⟩ := exists_root h hacyclic
      (fun _ _ hsub => (hlisted.of_recorded hsub).1) v hv
    have hmem := (cha.mem_preorder_iff _ v).mpr hreach
    exact ⟨root, hroot, hmem, hunique v root hroot hmem, hancestor v root hroot hmem⟩
  · intro root hroot root' hroot' hne v hmem hmem'
    exact hne (hunique v root' hroot' hmem' root hroot hmem)

theorem clouds_partition_twoPart : ∃ cha,
    buildClouds twoPartTables twoPartClasses = .ok cha ∧
      (∀ v, v ∈ cha.cloudMap ↔ ∃ sub, Recorded twoPartClasses v sub) ∧
      (∀ v w, w ∈ cha.children v ↔ ParentEdge twoPartClasses v w) ∧
      (∀ r, r ∈ cha.roots ↔
        ∃ sub, Recorded twoPartClasses (r, 0) sub ∧ ∃ p ∈ sub.parents, p.1 = "") ∧
      (∀ v ∈ cha.cloudMap, ∃ root ∈ cha.roots, v ∈ cha.preorder (root, 0) ∧
        (∀ root' ∈ cha.roots, v ∈ cha.preorder (root', 0) → root' = root) ∧
        cha.ancestorMap v = some root) ∧
      ∀ root ∈ cha.roots, ∀ root' ∈ cha.roots, root ≠ root' →
        (cha.preorder (root, 0)).Disjoint (cha.preorder (root', 0)) := by
  have hcha := eq_ok_of_isOk (x := buildClouds twoPartTables twoPartClasses) .empty (by decide)
  exact ⟨_, hcha, clouds_partition (by decide) (acyclicMetadata_of_lt (by decide)) (by decide)
    hcha (by decide)⟩

end RhoFEM.CHA
