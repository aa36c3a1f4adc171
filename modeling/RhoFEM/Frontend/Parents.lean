import RhoFEM.Frontend.VtableMD

/-! Whether the parents in the class metadata have records of their own. -/

namespace RhoFEM.Frontend

open RhoFEM.Lib.Fold RhoFEM.Lib.Search RhoFEM.Lib.StringRef
open RhoFEM.CHA

/-- One bound serves a list. -/
theorem exists_bound {α : Type} (xs : List α) (P : α → Nat → Prop)
    (h : ∀ x ∈ xs, ∃ n, ∀ fuel, n ≤ fuel → P x fuel) :
    ∃ n, ∀ fuel, n ≤ fuel → ∀ x ∈ xs, P x fuel := by
  induction xs with
  | nil => exact ⟨0, fun _ _ => List.forall_mem_nil _⟩
  | cons x xs ih =>
    obtain ⟨⟨m, hm⟩, hrest⟩ := List.forall_mem_cons.mp h
    obtain ⟨n, hn⟩ := ih hrest
    refine ⟨m + n, fun fuel hfuel => List.forall_mem_cons.mpr ⟨hm fuel ?_, hn fuel ?_⟩⟩ <;> omega

theorem insertParent_keys (addrPt : Nat) (parent : Vtbl) (map : List (Nat × List Vtbl)) :
    (insertParent addrPt parent map).map Prod.fst =
      insertInto (fun a b => a < b) addrPt (map.map Prod.fst) := by
  induction map with
  | nil => rfl
  | cons region map ih =>
    rw [insertParent, List.map_cons, insertInto]
    split
    · rfl
    · simp only [decide_eq_true_eq]
      split
      · rfl
      · rw [List.map_cons, ih]

theorem mem_insertParent {addrPt : Nat} {parent q : Vtbl} {map : List (Nat × List Vtbl)} :
    (∃ region ∈ insertParent addrPt parent map, q ∈ region.2) ↔
      q = parent ∨ ∃ region ∈ map, q ∈ region.2 := by
  induction map with
  | nil => simp [insertParent]
  | cons region map ih =>
    rw [insertParent]
    split
    · simp [or_assoc]
    · split
      · simp
      · rw [List.exists_mem_cons_iff, ih, List.exists_mem_cons_iff, or_left_comm]

theorem insertParent_ne_nil {addrPt : Nat} {parent : Vtbl} {map : List (Nat × List Vtbl)}
    (h : ∀ region ∈ map, region.2 ≠ []) : ∀ region ∈ insertParent addrPt parent map,
      region.2 ≠ [] := by
  have hinsert : ∀ parents, insertInto vtblLt parent parents ≠ [] := fun parents hnil =>
    List.not_mem_nil (hnil ▸ (mem_insertInto vtblLt).mpr (.inl rfl))
  induction map with
  | nil => exact List.forall_mem_singleton.mpr (List.cons_ne_nil _ _)
  | cons region map ih =>
    obtain ⟨hregion, hmap⟩ := List.forall_mem_cons.mp h
    rw [insertParent]
    split
    · exact List.forall_mem_cons.mpr ⟨hinsert _, hmap⟩
    · split
      · exact List.forall_mem_cons.mpr ⟨List.cons_ne_nil _ _, h⟩
      · exact List.forall_mem_cons.mpr ⟨hregion, ih hmap⟩

/-- The sub-vtables of a layout that some inheritance path leads to. -/
def VTableLayout.numSubVtables {Class Method : Type} (layout : VTableLayout Class Method) : Nat :=
  (layout.inheritanceMap.map fun it => layout.getAddressPoint it.2).dedup.length

theorem Program.classMangledName_ne_empty {Class Method : Type}
    (program : Program Class Method) (C : Class) : program.classMangledName C ≠ "" := by
  intro h
  have hchars := congrArg String.toList h
  simp [Program.classMangledName] at hchars

section Layout

variable {Class Method : Type} [DecidableEq Class] {program : Program Class Method}
  {layout : VTableLayout Class Method}

theorem addrPtMap_entries {map : List (Nat × List Vtbl)}
    (h : program.addrPtMap layout = .ok map) :
    ((map.map Prod.fst).Pairwise (· < ·) ∧ ∀ a, a ∈ map.map Prod.fst ↔
      a ∈ layout.inheritanceMap.map fun it => layout.getAddressPoint it.2) ∧
      (∀ it ∈ layout.inheritanceMap, ∃ q, program.parentVtbl layout it.1 = .ok q) ∧
      (∀ q, (∃ region ∈ map, q ∈ region.2) ↔
        ∃ it ∈ layout.inheritanceMap, program.parentVtbl layout it.1 = .ok q) ∧
      ∀ region ∈ map, region.2 ≠ [] := by
  refine foldlM_ok_rule (fun done (map : List (Nat × List Vtbl)) =>
    ((map.map Prod.fst).Pairwise (· < ·) ∧ ∀ a, a ∈ map.map Prod.fst ↔
      a ∈ done.map fun it => layout.getAddressPoint it.2) ∧
    (∀ it ∈ done, ∃ q, program.parentVtbl layout it.1 = .ok q) ∧
    (∀ q, (∃ region ∈ map, q ∈ region.2) ↔
      ∃ it ∈ done, program.parentVtbl layout it.1 = .ok q) ∧
    ∀ region ∈ map, region.2 ≠ []) ?step ?start h
  case start => simp
  case step =>
    rintro done it map map' ⟨⟨hsorted, hkeys⟩, hfound, hparents, hne⟩ - hstep
    obtain ⟨parent, hparent, hmap⟩ := bind_eq_ok.mp hstep
    obtain rfl := Except.ok.inj hmap
    refine ⟨⟨?_, fun a => ?_⟩, ?_, fun q => ?_, insertParent_ne_nil hne⟩
    · rw [insertParent_keys]
      exact sorted_insertInto _ hsorted
    · rw [insertParent_keys, mem_insertInto, hkeys, List.map_append, List.mem_append, or_comm,
        List.map_singleton, List.mem_singleton]
    · exact List.forall_mem_append.mpr ⟨hfound, List.forall_mem_singleton.mpr ⟨parent, hparent⟩⟩
    · rw [mem_insertParent, hparents]
      simp only [List.mem_append, List.mem_singleton, or_and_right, exists_or, exists_eq_left,
        hparent, Except.ok.injEq]
      rw [or_comm, eq_comm]

theorem addrPtMap_spec {map : List (Nat × List Vtbl)}
    (h : program.addrPtMap layout = .ok map) :
    map.length = layout.numSubVtables ∧
      (∀ it ∈ layout.inheritanceMap, ∃ q, program.parentVtbl layout it.1 = .ok q) ∧
      (∀ q, (∃ region ∈ map, q ∈ region.2) ↔
        ∃ it ∈ layout.inheritanceMap, program.parentVtbl layout it.1 = .ok q) ∧
      ∀ region ∈ map, region.2 ≠ [] := by
  obtain ⟨⟨hsorted, hkeys⟩, hrest⟩ := addrPtMap_entries h
  refine ⟨?_, hrest⟩
  have hperm : (map.map Prod.fst).Perm
      (layout.inheritanceMap.map fun it => layout.getAddressPoint it.2).dedup := by
    rw [List.perm_ext_iff_of_nodup (hsorted.imp fun hlt => hlt.ne) (List.nodup_dedup _)]
    intro a
    rw [hkeys, List.mem_dedup]
  rw [VTableLayout.numSubVtables, ← hperm.length_eq, List.length_map]

variable (program) in
/-- All paths have a parent, so the map is complete. -/
theorem addrPtMap_ok
    (h : ∀ it ∈ layout.inheritanceMap, ∃ q, program.parentVtbl layout it.1 = .ok q) :
    ∃ map, program.addrPtMap layout = .ok map := by
  have hfold := foldlM_exists_ok (f := fun addrPtMap (it : List Class × Nat) => do
      let parent ← program.parentVtbl layout it.1
      return insertParent (layout.getAddressPoint it.2) parent addrPtMap) (s := [])
    (fun _ _ => True) layout.inheritanceMap ?step trivial
  case step =>
    intro done it rest map hsplit _
    obtain ⟨q, hq⟩ := h it (by rw [hsplit]; simp)
    exact ⟨_, bind_eq_ok.mpr ⟨q, hq, rfl⟩, trivial⟩
  obtain ⟨map, hok, -⟩ := hfold
  exact ⟨map, hok⟩

omit [DecidableEq Class] in
/-- A region is added when all assertions about it hold. -/
theorem addRegion_ok {className : String} {st st' : List SDVtableMD × Nat × Nat}
    {region : Nat × List Vtbl} (h : program.addRegion layout className st region = .ok st') :
    (∀ v ∈ region.2, v.1 ≠ className) ∧ ∃ sub, st'.1 = st.1 ++ [sub] ∧
      (sub.addressPoint, sub.parents) = region := by
  unfold Program.addRegion at h
  dsimp only at h
  split_ifs at h with _ _ _ hown
  obtain rfl := Except.ok.inj h
  refine ⟨fun v hv heq => hown ?_, _, rfl, rfl⟩
  exact List.any_eq_true.mpr ⟨v, hv, decide_eq_true heq⟩

/-- The sub-vtables of a layout are the entries of its map, none of which is its own parent. -/
theorem generateSubvtableInfo_regions {RD : Class} {subVtables : List SDVtableMD}
    (h : program.generateSubvtableInfo layout RD = .ok subVtables) :
    program.addrPtMap layout =
        .ok (subVtables.map fun sub => (sub.addressPoint, sub.parents)) ∧
      ∀ sub ∈ subVtables, ∀ v ∈ sub.parents, v.1 ≠ program.classMangledName RD := by
  obtain ⟨map, hmap, hrest⟩ := bind_eq_ok.mp h
  obtain ⟨⟨subs, start, prevVal⟩, hregions, hrest⟩ := bind_eq_ok.mp hrest
  have hsubs : subVtables = subs := by
    dsimp only at hrest
    split at hrest
    · cases hrest
    · exact (Except.ok.inj hrest).symm
  rw [hsubs]
  have hloop : subs.map (fun sub => (sub.addressPoint, sub.parents)) = map ∧
      ∀ sub ∈ subs, ∀ v ∈ sub.parents, v.1 ≠ program.classMangledName RD := by
    refine foldlM_ok_rule (fun done (st : List SDVtableMD × Nat × Nat) =>
      st.1.map (fun sub => (sub.addressPoint, sub.parents)) = done ∧
        ∀ sub ∈ st.1, ∀ v ∈ sub.parents, v.1 ≠ program.classMangledName RD) ?step
      ⟨rfl, List.forall_mem_nil _⟩ hregions
    rintro done region st st' ⟨hst, hne⟩ _ hstep
    obtain ⟨hown, sub, hst', rfl⟩ := addRegion_ok hstep
    rw [hst', List.map_append, hst]
    exact ⟨rfl, List.forall_mem_append.mpr ⟨hne, List.forall_mem_singleton.mpr hown⟩⟩
  exact ⟨hloop.1 ▸ hmap, hloop.2⟩

/-- What the sub-vtables of a layout say about parents. -/
theorem generateSubvtableInfo_spec {RD : Class} {subVtables : List SDVtableMD}
    (h : program.generateSubvtableInfo layout RD = .ok subVtables) :
    subVtables.length = layout.numSubVtables ∧
      (∀ it ∈ layout.inheritanceMap, ∃ q, program.parentVtbl layout it.1 = .ok q) ∧
      (∀ q, (∃ sub ∈ subVtables, q ∈ sub.parents) ↔
        ∃ it ∈ layout.inheritanceMap, program.parentVtbl layout it.1 = .ok q) ∧
      ∀ sub ∈ subVtables, sub.parents ≠ [] := by
  obtain ⟨hlength, hfound, hiff, hne⟩ := addrPtMap_spec (generateSubvtableInfo_regions h).1
  rw [List.length_map] at hlength
  simp only [List.mem_map, exists_exists_and_eq_and, forall_exists_index, and_imp,
    forall_apply_eq_imp_iff₂] at hiff hne
  exact ⟨hlength, hfound, hiff, hne⟩

theorem getOrder_ok_iff {path : List Class} :
    (∃ order, layout.getOrder path = .ok order) ↔
      path ∈ layout.inheritanceMap.map Prod.fst := by
  rw [VTableLayout.getOrder]
  split
  · next order hlookup =>
    obtain ⟨before, rest, hsplit, -⟩ := List.lookup_eq_some_iff.mp hlookup
    exact iff_of_true ⟨order, rfl⟩ (by rw [hsplit]; simp)
  · next hlookup =>
    refine iff_of_false (fun ⟨order, h⟩ => by cases h) fun hmem => ?_
    obtain ⟨it, hit, rfl⟩ := List.mem_map.mp hmem
    exact absurd (List.lookup_eq_none_iff.mp hlookup it hit) (by simp)

/-- A path has a parent if the layout of its first class knows the rest of it. -/
theorem exists_parentVtbl_iff {path : List Class} {RD : Class} :
    (∃ q, program.parentVtbl layout path = .ok q ∧ q.1 ≠ program.classMangledName RD) ↔
      ∀ P rest, layout.parentInheritancePath path = P :: rest →
        program.classMangledName P ≠ program.classMangledName RD ∧
          (rest ≠ [] → rest ∈ (program.vTableLayout P).inheritanceMap.map Prod.fst) := by
  unfold Program.parentVtbl
  split
  · next hpath =>
    rw [hpath]
    refine iff_of_true ⟨_, rfl, ?_⟩ fun P rest h => by cases h
    exact (program.classMangledName_ne_empty RD).symm
  · next P hpath =>
    rw [hpath]
    constructor
    · rintro ⟨q, hq, hne⟩ P' rest h
      obtain ⟨rfl, rfl⟩ := List.cons.inj h
      obtain rfl := Except.ok.inj hq
      exact ⟨hne, fun h => absurd rfl h⟩
    · intro h
      exact ⟨_, rfl, (h P [] rfl).1⟩
  · next P rest hrest hpath =>
    rw [hpath]
    constructor
    · rintro ⟨q, hq, hne⟩ P' rest' h
      obtain ⟨rfl, rfl⟩ := List.cons.inj h
      obtain ⟨order, horder, hq⟩ := bind_eq_ok.mp hq
      obtain rfl := Except.ok.inj hq
      exact ⟨hne, fun _ => getOrder_ok_iff.mp ⟨order, horder⟩⟩
    · intro h
      obtain ⟨hne, hmem⟩ := h P rest rfl
      obtain ⟨order, horder⟩ := getOrder_ok_iff.mpr (hmem fun hnil => hrest hnil)
      exact ⟨_, bind_eq_ok.mpr ⟨order, horder, rfl⟩, hne⟩

theorem parentVtbl_eq_ok {path : List Class} {q : Vtbl}
    (h : program.parentVtbl layout path = .ok q) :
    layout.parentInheritancePath path = [] ∧ q = ("", 0) ∨
      ∃ P rest, layout.parentInheritancePath path = P :: rest ∧
        q.1 = program.classMangledName P := by
  unfold Program.parentVtbl at h
  split at h
  · rename_i hpath
    exact .inl ⟨hpath, (Except.ok.inj h).symm⟩
  · rename_i P hpath
    exact .inr ⟨P, [], hpath, (Except.ok.inj h) ▸ rfl⟩
  · rename_i P rest _ hpath
    obtain ⟨order, -, hq⟩ := bind_eq_ok.mp h
    exact .inr ⟨P, rest, hpath, (Except.ok.inj hq) ▸ rfl⟩

end Layout

namespace Hierarchy

variable {Class Method : Type} [DecidableEq Class] (H : Hierarchy Class Method)

theorem not_isBase_self (D : Class) : ¬ H.IsBase D D :=
  fun h => H.acyclic.transGen.irrefl.irrefl D h

/-- A class or one of its bases. -/
def Within (D C : Class) : Prop := C = D ∨ H.IsBase C D

theorem Within.isBase {D C B : Class} (hC : H.Within D C) (hB : H.IsBase B C) : H.IsBase B D :=
  hC.elim (fun h => h ▸ hB) hB.trans

theorem classMangledName_injective : Function.Injective H.classMangledName := by
  intro C D h
  refine H.mangleName_injective ?_
  have hchars := congrArg String.toList h
  simp only [Program.classMangledName, String.toList_append, List.append_cancel_left_eq] at hchars
  exact String.toList_inj.mp hchars

theorem getClassName_injective {RD RD' : Class} {Base Base' : Option (BaseSubobject Class)}
    (h : H.getClassName RD Base = H.getClassName RD' Base') : RD = RD' ∧ Base = Base' := by
  have hne : ∀ C D (B : BaseSubobject Class),
      H.classMangledName C ≠ H.classMangledConstrName D B := by
    intro C D B heq
    have hchars := congrArg (fun name => name.toList[3]?) heq
    simp [Program.classMangledName, Program.classMangledConstrName] at hchars
  cases Base with
  | none =>
    cases Base' with
    | none => exact ⟨H.classMangledName_injective h, rfl⟩
    | some B => exact absurd h (hne _ _ _)
  | some B =>
    cases Base' with
    | none => exact absurd h.symm (hne _ _ _)
    | some B' =>
      obtain ⟨hRD, hB⟩ := H.constrName_injective _ _ _ _ h
      exact ⟨hRD, congrArg some hB⟩

end Hierarchy

/-- A record with the sub-vtables of a class, or of a construction vtable. -/
structure Hierarchy.RecordOf {Class Method : Type} [DecidableEq Class] (H : Hierarchy Class Method)
    (RD : Class) (Base : Option (BaseSubobject Class)) (info : ClassRecord) : Prop where
  className : info.className = H.getClassName RD Base
  listed : isVtableName info.className = true
  subVtables : H.generateSubvtableInfo (H.layoutOf RD Base) RD = .ok info.subVtables
  vTable : ∀ gv ∈ info.vTable, gv = info.className
  global : ∀ name gv, info.getGlobalVariable name = some gv → gv = name

def HasRecord (recorded : List ClassRecord) (name : String) : Prop :=
  ∃ info ∈ recorded, info.className = name

theorem HasRecord.mono {recorded recorded' : List ClassRecord} (h : recorded ⊆ recorded')
    {name : String} : HasRecord recorded name → HasRecord recorded' name :=
  fun ⟨info, hinfo, hname⟩ => ⟨info, h hinfo, hname⟩

namespace Hierarchy

variable {Class Method : Type} [DecidableEq Class] (H : Hierarchy Class Method)

/-- Where a class has a record, all its bases have one, but for those with a filtered name. -/
def Complete (recorded : List ClassRecord) (C : Class) : Prop :=
  HasRecord recorded (H.classMangledName C) → ∀ B, H.IsBase B C →
    isVtableName (H.classMangledName B) = true → HasRecord recorded (H.classMangledName B)

/-- What is added to the records for some classes that are closed under bases. -/
structure Added (classes : Class → Prop) (recorded recorded' : List ClassRecord) : Prop where
  grows : recorded ⊆ recorded'
  new : ∀ info ∈ recorded', info ∈ recorded ∨ ∃ C, classes C ∧ H.RecordOf C none info
  complete : ∀ C, classes C → H.Complete recorded' C

variable {H}

theorem Added.trans {classes classes' : Class → Prop} (hsub : ∀ C, classes' C → classes C)
    {recorded₁ recorded₂ recorded₃ : List ClassRecord} (h₁₂ : H.Added classes recorded₁ recorded₂)
    (h₂₃ : H.Added classes' recorded₂ recorded₃) : H.Added classes recorded₁ recorded₃ where
  grows := List.Subset.trans h₁₂.grows h₂₃.grows
  new info hinfo := by
    rcases h₂₃.new info hinfo with hold | ⟨C, hC, hrecord⟩
    · exact h₁₂.new info hold
    · exact .inr ⟨C, hsub C hC, hrecord⟩
  complete C hC := by
    -- A record that was there keeps its bases, and a new one is of a class that was visited.
    rintro ⟨info, hinfo, hname⟩ B hB hlisted
    rcases h₂₃.new info hinfo with hold | ⟨C', hC', hrecord⟩
    · exact (h₁₂.complete C hC ⟨info, hold, hname⟩ B hB hlisted).mono h₂₃.grows
    · obtain rfl := H.classMangledName_injective (hrecord.className.symm.trans hname)
      exact h₂₃.complete C' hC' ⟨info, hinfo, hname⟩ B hB hlisted

/-- The loop over the address points. -/
theorem visit_bases {classes : Class → Prop}
    (hclasses : ∀ C B, classes C → H.IsBase B C → classes B) {RD : Class}
    {insert : Class → List ClassRecord → Except EmitFailure (List ClassRecord)}
    (hinsert : ∀ C recorded recorded', (∀ B, H.Within C B → H.Complete recorded B) →
      insert C recorded = .ok recorded' → H.Added (H.Within C) recorded recorded' ∧
        (isVtableName (H.classMangledName C) = true →
          HasRecord recorded' (H.classMangledName C)))
    {points : List (BaseSubobject Class × Nat)}
    (hpoints : ∀ AP ∈ points, AP.1.base ≠ RD → classes AP.1.base)
    {recorded recorded' : List ClassRecord} (hcomplete : ∀ C, classes C → H.Complete recorded C)
    (h : points.foldlM (fun recorded AP =>
      if AP.1.base ≠ RD then insert AP.1.base recorded else .ok recorded) recorded =
        .ok recorded') :
    H.Added classes recorded recorded' ∧ ∀ AP ∈ points, AP.1.base ≠ RD →
      isVtableName (H.classMangledName AP.1.base) = true →
        HasRecord recorded' (H.classMangledName AP.1.base) := by
  refine foldlM_ok_rule (fun done t => H.Added classes recorded t ∧ ∀ AP ∈ done,
    AP.1.base ≠ RD → isVtableName (H.classMangledName AP.1.base) = true →
      HasRecord t (H.classMangledName AP.1.base)) ?step ?start h
  case start => exact ⟨⟨List.Subset.refl _, fun _ => .inl, hcomplete⟩, List.forall_mem_nil _⟩
  case step =>
    rintro done AP t t' ⟨hadded, hfound⟩ hAP hstep
    rw [List.forall_mem_append, List.forall_mem_singleton]
    split at hstep
    · rename_i hne
      have hbase := hpoints AP hAP hne
      have hwithin : ∀ C, H.Within AP.1.base C → classes C := by
        rintro C (rfl | hC)
        · exact hbase
        · exact hclasses _ C hbase hC
      obtain ⟨hnext, hlisted⟩ := hinsert AP.1.base t t'
        (fun B hB => hadded.complete B (hwithin B hB)) hstep
      exact ⟨hadded.trans hwithin hnext,
        fun AP hdone hne hname => (hfound AP hdone hne hname).mono hnext.grows, fun _ => hlisted⟩
    · rename_i heq
      obtain rfl := Except.ok.inj hstep
      exact ⟨hadded, hfound, fun hne => absurd hne heq⟩

/-- The early exits, and the record with the recursion behind it. -/
theorem insertVtableMD_cases {getGlobalVariable : String → Option String} {fuel : Nat}
    {VTable : Option String} {layout : VTableLayout Class Method} {RD : Class}
    {Base : Option (BaseSubobject Class)} {recorded recorded' : List ClassRecord}
    (hmap : layout.inheritanceMap ≠ [])
    (h : H.insertVtableMD getGlobalVariable (fuel + 1) VTable layout RD Base recorded =
      .ok recorded') :
    recorded' = recorded ∧ (isVtableName (H.getClassName RD Base) = true →
        HasRecord recorded (H.getClassName RD Base)) ∨
      ∃ subVtables, isVtableName (H.getClassName RD Base) = true ∧
        H.generateSubvtableInfo layout RD = .ok subVtables ∧
        ¬ HasRecord recorded (H.getClassName RD Base) ∧
        layout.addressPoints.foldlM (fun recorded AP =>
          if AP.1.base ≠ RD then H.insertVtableMD getGlobalVariable fuel none
            (H.vTableLayout AP.1.base) AP.1.base none recorded
          else .ok recorded) (recorded ++
            [⟨H.getClassName RD Base, VTable, subVtables, getGlobalVariable⟩]) = .ok recorded' := by
  rw [Program.insertVtableMD] at h
  cases hname : isVtableName (H.getClassName RD Base) with
  | false =>
    simp only [hname, Bool.not_false, if_true] at h
    exact .inl ⟨(Except.ok.inj h).symm, fun hlisted => absurd hlisted Bool.false_ne_true⟩
  | true =>
    simp only [hname, Bool.not_true, Bool.false_eq_true, if_false] at h
    obtain ⟨subVtables, hsubs, hrest⟩ := bind_eq_ok.mp h
    have hlength : subVtables.length ≠ 0 := by
      rw [(generateSubvtableInfo_spec hsubs).1, VTableLayout.numSubVtables, ne_eq,
        List.length_eq_zero_iff, List.dedup_eq_nil, List.map_eq_nil_iff]
      exact hmap
    rw [if_neg hlength] at hrest
    have hrecord : (recorded.any fun info => info.className = H.getClassName RD Base) = true ↔
        HasRecord recorded (H.getClassName RD Base) := by
      simp [HasRecord]
    split at hrest
    · rename_i hrecorded
      exact .inl ⟨(Except.ok.inj hrest).symm, fun _ => hrecord.mp hrecorded⟩
    · rename_i hnew
      exact .inr ⟨subVtables, rfl, hsubs, fun hrecorded => hnew (hrecord.mpr hrecorded), hrest⟩

/-- What one call leaves, where `classes` are those its recursion visits. -/
structure Inserted (H : Hierarchy Class Method) (classes : Class → Prop) (RD : Class)
    (Base : Option (BaseSubobject Class)) (recorded recorded' : List ClassRecord) : Prop where
  grows : recorded ⊆ recorded'
  new : ∀ info ∈ recorded', info ∈ recorded ∨ isVtableName (H.getClassName RD Base) = true ∧
    (H.RecordOf RD Base info ∨ ∃ C, classes C ∧ H.RecordOf C none info)
  complete : ∀ C, classes C → H.Complete recorded' C
  found : isVtableName (H.getClassName RD Base) = true →
    HasRecord recorded' (H.getClassName RD Base)
  visited : recorded' = recorded ∨ ∀ AP ∈ (H.layoutOf RD Base).addressPoints, AP.1.base ≠ RD →
    isVtableName (H.classMangledName AP.1.base) = true →
      HasRecord recorded' (H.classMangledName AP.1.base)

/-- The bases of a class with a new record are named by its address points. -/
theorem Inserted.complete_self {D : Class} {recorded recorded' : List ClassRecord}
    (h : H.Inserted (H.IsBase · D) D none recorded recorded') (hcomplete : H.Complete recorded D) :
    H.Complete recorded' D := by
  rcases h.visited with rfl | hvisited
  · exact hcomplete
  · intro _ B hB hlisted
    obtain ⟨AP, hAP, rfl⟩ := (H.addressPoints D B).mpr (.inr hB)
    exact hvisited AP hAP (fun heq => H.not_isBase_self _ (heq ▸ hB)) hlisted

theorem Inserted.added {D : Class} {recorded recorded' : List ClassRecord}
    (h : H.Inserted (H.IsBase · D) D none recorded recorded') (hcomplete : H.Complete recorded D) :
    H.Added (H.Within D) recorded recorded' := by
  refine ⟨h.grows, fun info hinfo => ?_, ?_⟩
  · rcases h.new info hinfo with hold | ⟨-, hself | ⟨B, hB, hrecord⟩⟩
    · exact .inl hold
    · exact .inr ⟨D, .inl rfl, hself⟩
    · exact .inr ⟨B, .inr hB, hrecord⟩
  · rintro B (rfl | hB)
    · exact h.complete_self hcomplete
    · exact h.complete B hB

theorem insertVtableMD_step {getGlobalVariable : String → Option String}
    (hglobal : ∀ name gv, getGlobalVariable name = some gv → gv = name) {fuel : Nat}
    (hinsert : ∀ C recorded recorded', (∀ B, H.IsBase B C → H.Complete recorded B) →
      H.insertVtableMD getGlobalVariable fuel none (H.vTableLayout C) C none recorded =
        .ok recorded' → H.Inserted (H.IsBase · C) C none recorded recorded')
    {classes : Class → Prop} (hclasses : ∀ C B, classes C → H.IsBase B C → classes B)
    {RD : Class} {Base : Option (BaseSubobject Class)} {VTable : Option String}
    (hVTable : ∀ gv ∈ VTable, gv = H.getClassName RD Base)
    (hmap : (H.layoutOf RD Base).inheritanceMap ≠ [])
    (hpoints : ∀ AP ∈ (H.layoutOf RD Base).addressPoints, AP.1.base ≠ RD → classes AP.1.base)
    (hown : ∀ C, classes C → H.getClassName RD Base ≠ H.classMangledName C)
    {recorded recorded' : List ClassRecord} (hcomplete : ∀ C, classes C → H.Complete recorded C)
    (h : H.insertVtableMD getGlobalVariable (fuel + 1) VTable (H.layoutOf RD Base) RD Base
      recorded = .ok recorded') :
    H.Inserted classes RD Base recorded recorded' := by
  rcases insertVtableMD_cases hmap h with
    ⟨rfl, hlisted⟩ | ⟨subVtables, hname, hsubs, hnew, hloop⟩
  · exact ⟨List.Subset.refl _, fun _ => .inl, hcomplete, hlisted, .inl rfl⟩
  · have hbases : ∀ C, classes C → H.Complete (recorded ++
        [⟨H.getClassName RD Base, VTable, subVtables, getGlobalVariable⟩]) C := by
      rintro C hC ⟨info, hinfo, hinfoName⟩ B hB hlisted
      rcases List.mem_append.mp hinfo with hold | hself
      · exact (hcomplete C hC ⟨info, hold, hinfoName⟩ B hB hlisted).mono
          (List.subset_append_left _ _)
      · obtain rfl := List.mem_singleton.mp hself
        exact absurd hinfoName (hown C hC)
    obtain ⟨hadded, hfound⟩ := visit_bases hclasses (fun C t t' ht hins =>
      have hC := hinsert C t t' (fun B hB => ht B (.inr hB)) hins
      ⟨hC.added (ht C (.inl rfl)), hC.found⟩) hpoints hbases hloop
    refine ⟨List.Subset.trans (List.subset_append_left _ _) hadded.grows, ?_, hadded.complete,
      fun _ => ⟨_, hadded.grows (List.mem_append_right _ (List.mem_singleton_self _)), rfl⟩,
      .inr hfound⟩
    intro info hinfo
    rcases hadded.new info hinfo with hold | hrecord
    · rcases List.mem_append.mp hold with hold | hself
      · exact .inl hold
      · obtain rfl := List.mem_singleton.mp hself
        exact .inr ⟨hname, .inl ⟨rfl, hname, hsubs, hVTable, hglobal⟩⟩
    · exact .inr ⟨hname, .inr hrecord⟩

/-- What the recursion leaves, once a class has been named. -/
theorem insertVtableMD_inserted {getGlobalVariable : String → Option String}
    (hglobal : ∀ name gv, getGlobalVariable name = some gv → gv = name) {fuel : Nat} {D : Class}
    {VTable : Option String} (hVTable : ∀ gv ∈ VTable, gv = H.classMangledName D)
    {recorded recorded' : List ClassRecord}
    (hcomplete : ∀ C, H.IsBase C D → H.Complete recorded C)
    (h : H.insertVtableMD getGlobalVariable fuel VTable (H.vTableLayout D) D none recorded =
      .ok recorded') :
    H.Inserted (H.IsBase · D) D none recorded recorded' := by
  induction fuel generalizing D VTable recorded recorded' with
  | zero => cases h
  | succ fuel ih =>
    have hmap : (H.layoutOf D none).inheritanceMap ≠ [] := H.inheritanceMap D
    refine insertVtableMD_step hglobal ?_ (fun C B hC hB => hB.trans hC) hVTable hmap ?_ ?_
      hcomplete h
    · intro C t t' ht hins
      have hnone : ∀ gv ∈ (none : Option String), gv = H.classMangledName C := by
        rintro gv ⟨⟩
      exact ih hnone ht hins
    · intro AP hAP hne
      exact ((H.addressPoints D _).mp ⟨AP, hAP, rfl⟩).resolve_left hne
    · rintro C hC heq
      obtain rfl := H.classMangledName_injective heq
      exact H.not_isBase_self _ hC

variable (H)

/-- The classes that are visited after a vtable. -/
def Visits (RD : Class) : Option (BaseSubobject Class) → Class → Prop
  | none => fun C => H.IsBase C RD
  | some Base => H.Within Base.base

/-- The classes that the parents of a vtable can be of. -/
def MayExtend (RD : Class) : Option (BaseSubobject Class) → Class → Prop
  | none => fun C => H.IsBase C RD
  | some Base => fun C => C = Base.base

/-- What the records are, once some vtables have been emitted. -/
structure Emitted (done : List (Emission Class)) (recorded : List ClassRecord) : Prop where
  origin : ∀ info ∈ recorded, ∃ e ∈ done, isVtableName (H.getClassName e.RD e.Base) = true ∧
    (H.RecordOf e.RD e.Base info ∨ ∃ C, H.Visits e.RD e.Base C ∧ H.RecordOf C none info)
  complete : ∀ RD Base, (∀ B ∈ Base, H.IsBase B.base RD) →
    HasRecord recorded (H.getClassName RD Base) → ∀ C, H.MayExtend RD Base C →
      isVtableName (H.classMangledName C) = true → HasRecord recorded (H.classMangledName C)
  found : ∀ e ∈ done, isVtableName (H.getClassName e.RD e.Base) = true →
    HasRecord recorded (H.getClassName e.RD e.Base)

variable {H}

theorem emitVTable_inserted {fuel : Nat} {e : Emission Class} (he : H.Emits e)
    {recorded recorded' : List ClassRecord} (hcomplete : ∀ C, H.Complete recorded C)
    (h : H.emitVTable fuel recorded e = .ok recorded') :
    H.Inserted (H.Visits e.RD e.Base) e.RD e.Base recorded recorded' := by
  obtain ⟨RD, Base, getGlobalVariable⟩ := e
  cases Base with
  | none =>
    exact insertVtableMD_inserted he.global (by simp [Program.getClassName])
      (fun C _ => hcomplete C) h
  | some Base =>
    have hbase := he.base Base rfl
    cases fuel with
    | zero => cases h
    | succ fuel =>
      have hmap : (H.layoutOf RD (some Base)).inheritanceMap ≠ [] :=
        H.constrInheritanceMap RD Base hbase
      refine insertVtableMD_step he.global ?_ (fun C B hC hB => .inr (hC.isBase H hB)) (by simp)
        hmap (fun AP hAP _ => (H.constrAddressPoints RD Base hbase).2 AP hAP) ?_
        (fun C _ => hcomplete C) h
      · intro C t t' ht hins
        have hnone : ∀ gv ∈ (none : Option String), gv = H.classMangledName C := by
          rintro gv ⟨⟩
        exact insertVtableMD_inserted he.global hnone ht hins
      · intro C _ heq
        have hpair := H.getClassName_injective (heq.trans (rfl : _ = H.getClassName C none))
        cases hpair.2

theorem RecordOf.unique {RD RD' : Class} {Base Base' : Option (BaseSubobject Class)}
    {info : ClassRecord} (h : H.RecordOf RD Base info)
    (hname : info.className = H.getClassName RD' Base') : RD = RD' ∧ Base = Base' :=
  H.getClassName_injective (h.className.symm.trans hname)

theorem Emitted.step {done : List (Emission Class)} {e : Emission Class} {fuel : Nat}
    {recorded recorded' : List ClassRecord} (hdone : H.Emitted done recorded) (he : H.Emits e)
    (h : H.emitVTable fuel recorded e = .ok recorded') : H.Emitted (done ++ [e]) recorded' := by
  have hclasses : ∀ C, H.Complete recorded C := fun C => hdone.complete C none (fun _ => nofun)
  have hins := emitVTable_inserted he hclasses h
  constructor
  case origin =>
    intro info hinfo
    rcases hins.new info hinfo with hold | hnew
    · obtain ⟨e', he', horigin⟩ := hdone.origin info hold
      exact ⟨e', List.mem_append_left _ he', horigin⟩
    · exact ⟨e, by simp, hnew⟩
  case found =>
    rw [List.forall_mem_append, List.forall_mem_singleton]
    exact ⟨fun e' he' hname => (hdone.found e' he' hname).mono hins.grows, hins.found⟩
  case complete =>
    rintro RD Base hBase ⟨info, hinfo, hname⟩ C hC hlisted
    by_cases hold : HasRecord recorded (H.getClassName RD Base)
    · exact (hdone.complete RD Base hBase hold C hC hlisted).mono hins.grows
    rcases hins.new info hinfo with hmem | ⟨-, hself | ⟨B, hB, hrecord⟩⟩
    · exact absurd ⟨info, hmem, hname⟩ hold
    · -- The record is the one that this emission is for.
      obtain ⟨rfl, rfl⟩ := hself.unique hname
      rcases hins.visited with rfl | hvisited
      · exact absurd ⟨info, hinfo, hname⟩ hold
      · obtain ⟨RD, Base, getGlobalVariable⟩ := e
        cases Base with
        | none =>
          obtain ⟨AP, hAP, rfl⟩ := (H.addressPoints RD C).mpr (.inr hC)
          exact hvisited AP hAP (fun heq => H.not_isBase_self _ (heq ▸ hC)) hlisted
        | some Base =>
          have hbase := hBase Base rfl
          obtain ⟨AP, hAP, hAPbase⟩ := (H.constrAddressPoints RD Base hbase).1
          obtain rfl : C = Base.base := hC
          rw [← hAPbase] at hlisted ⊢
          exact hvisited AP hAP (fun heq => H.not_isBase_self RD (by rwa [← hAPbase, heq] at hbase))
            hlisted
    · obtain ⟨rfl, rfl⟩ := hrecord.unique hname
      exact hins.complete B hB ⟨info, hinfo, hname⟩ C hC hlisted

theorem emitVTables_emitted {fuel : Nat} {emissions : List (Emission Class)}
    (hemits : ∀ e ∈ emissions, H.Emits e) {recorded : List ClassRecord}
    (h : H.emitVTables fuel emissions = .ok recorded) : H.Emitted emissions recorded := by
  refine foldlM_ok_rule (fun done t => H.Emitted done t) ?step ?start h
  case start => exact ⟨List.forall_mem_nil _,
    fun _ _ _ ⟨_, hinfo, _⟩ => absurd hinfo List.not_mem_nil,
    List.forall_mem_nil _⟩
  case step => exact fun _ e _ _ hdone he hstep => hdone.step (hemits e he) hstep

variable (H)

/-- Every inheritance path of a vtable leads to a class that gets records, and there to one of its
sub-vtables. -/
def Listed (RD : Class) (Base : Option (BaseSubobject Class)) : Prop :=
  ∀ it ∈ (H.layoutOf RD Base).inheritanceMap, ∀ P rest,
    (H.layoutOf RD Base).parentInheritancePath it.1 = P :: rest →
      isVtableName (H.classMangledName P) = true ∧
      ∀ k, H.parentVtbl (H.layoutOf RD Base) it.1 = .ok (H.classMangledName P, k) →
        k < (H.vTableLayout P).numSubVtables

/-- This holds of all vtables that get records. -/
def AllListed (emissions : List (Emission Class)) : Prop :=
  ∀ e ∈ emissions, isVtableName (H.getClassName e.RD e.Base) = true → H.Listed e.RD e.Base ∧
    ∀ C, H.Visits e.RD e.Base C → isVtableName (H.classMangledName C) = true → H.Listed C none

/-- The parents that a record can have. -/
theorem mayExtend_of_path {RD : Class} (Base : Option (BaseSubobject Class))
    (hBase : ∀ B ∈ Base, H.IsBase B.base RD) {it : List Class × Nat}
    (hit : it ∈ (H.layoutOf RD Base).inheritanceMap) {P : Class} {rest : List Class}
    (hpath : (H.layoutOf RD Base).parentInheritancePath it.1 = P :: rest) :
    H.MayExtend RD Base P := by
  rw [VTableLayout.parentInheritancePath] at hpath
  cases Base with
  | none =>
    rw [Program.layoutOf, H.classLayout, if_neg Bool.false_ne_true] at hpath
    exact H.paths RD it hit P (by rw [hpath]; rfl)
  | some B =>
    obtain ⟨hderived, hconstr⟩ := H.constrLayout RD B (hBase B rfl)
    rw [Program.layoutOf, hconstr, if_pos rfl, hderived] at hpath
    exact (List.cons.inj hpath).1.symm

end Hierarchy

/-- Every parent has a record with the sub-vtable that is named. -/
def ParentsRecorded (recorded : List ClassRecord) : Prop :=
  ∀ info ∈ recorded, ∀ sub ∈ info.subVtables, ∀ p ∈ sub.parents, p.1 ≠ "" →
    ∃ info' ∈ recorded, info'.className = p.1 ∧ p.2 < info'.subVtables.length

namespace Hierarchy

variable {Class Method : Type} [DecidableEq Class] {H : Hierarchy Class Method}

theorem Emitted.recordOf {emissions : List (Emission Class)} {recorded : List ClassRecord}
    (h : H.Emitted emissions recorded) {info : ClassRecord} (hinfo : info ∈ recorded) (RD : Class)
    (Base : Option (BaseSubobject Class)) (hname : info.className = H.getClassName RD Base) :
    H.RecordOf RD Base info := by
  obtain ⟨e, _, _, hself | ⟨C, _, hrecord⟩⟩ := h.origin info hinfo
  · obtain ⟨rfl, rfl⟩ := hself.unique hname
    exact hself
  · obtain ⟨rfl, rfl⟩ := hrecord.unique hname
    exact hrecord

theorem Emitted.listed_of_parentsRecorded {emissions : List (Emission Class)}
    {recorded : List ClassRecord} (h : H.Emitted emissions recorded)
    (hparents : ParentsRecorded recorded) {RD : Class} {Base : Option (BaseSubobject Class)}
    (hrecord : HasRecord recorded (H.getClassName RD Base)) : H.Listed RD Base := by
  obtain ⟨info, hinfo, hname⟩ := hrecord
  obtain ⟨-, hfound, hiff, -⟩ :=
    generateSubvtableInfo_spec (h.recordOf hinfo RD Base hname).subVtables
  intro it hit P rest hpath
  obtain ⟨q, hq⟩ := hfound it hit
  have hqname : q.1 = H.classMangledName P := by
    rcases parentVtbl_eq_ok hq with ⟨hnil, -⟩ | ⟨P', rest', hcons, hqname⟩
    · exact nomatch hnil.symm.trans hpath
    · obtain ⟨rfl, -⟩ := List.cons.inj (hcons.symm.trans hpath)
      exact hqname
  obtain ⟨sub, hsub, hmem⟩ := (hiff q).mpr ⟨it, hit, hq⟩
  obtain ⟨info', hinfo', hname', hlt⟩ := hparents info hinfo sub hsub q hmem
    (hqname ▸ H.classMangledName_ne_empty P)
  have hparent := h.recordOf hinfo' P none (hname'.trans hqname)
  refine ⟨(hname'.trans hqname) ▸ hparent.listed, fun k hk => ?_⟩
  obtain rfl := Except.ok.inj (hq.symm.trans hk)
  rwa [(generateSubvtableInfo_spec hparent.subVtables).1] at hlt

theorem Emitted.parentsRecorded_iff {emissions : List (Emission Class)}
    {recorded : List ClassRecord} (hemits : ∀ e ∈ emissions, H.Emits e)
    (h : H.Emitted emissions recorded) :
    ParentsRecorded recorded ↔ H.AllListed emissions := by
  constructor
  · intro hparents e he hname
    have hself := h.found e he hname
    have hlisted := h.listed_of_parentsRecorded hparents hself
    refine ⟨hlisted, fun C hC hCname => h.listed_of_parentsRecorded hparents ?_⟩
    obtain ⟨RD, Base, getGlobalVariable⟩ := e
    cases Base with
    | none => exact h.complete RD none (fun _ => nofun) hself C hC hCname
    | some Base =>
      have hbase : ∀ B ∈ some Base, H.IsBase B.base RD := (hemits _ he).base
      obtain ⟨it, hit⟩ := List.exists_mem_of_ne_nil _ (H.constrInheritanceMap RD Base (hbase _ rfl))
      obtain ⟨hderived, hconstr⟩ := H.constrLayout RD Base (hbase _ rfl)
      have hpath : (H.layoutOf RD (some Base)).parentInheritancePath it.1 = Base.base :: it.1 := by
        rw [VTableLayout.parentInheritancePath, Program.layoutOf, hconstr, if_pos rfl, hderived]
      have hbaseRecord : HasRecord recorded (H.classMangledName Base.base) :=
        h.complete RD (some Base) hbase hself _ rfl (hlisted it hit _ _ hpath).1
      rcases hC with rfl | hC
      · exact hbaseRecord
      · exact h.complete Base.base none (fun _ => nofun) hbaseRecord C hC hCname
  · intro hall info hinfo sub hsub p hp hne
    obtain ⟨e, he, hname, horigin⟩ := h.origin info hinfo
    obtain ⟨RD, Base, hBase, hrecord, hlisted⟩ : ∃ RD Base,
        (∀ B ∈ Base, H.IsBase B.base RD) ∧ H.RecordOf RD Base info ∧ H.Listed RD Base := by
      rcases horigin with hself | ⟨C, hC, hrecord⟩
      · exact ⟨e.RD, e.Base, (hemits e he).base, hself, (hall e he hname).1⟩
      · have hCname := hrecord.listed
        rw [hrecord.className] at hCname
        exact ⟨C, none, fun _ => nofun, hrecord, (hall e he hname).2 C hC hCname⟩
    obtain ⟨-, -, hiff, -⟩ := generateSubvtableInfo_spec hrecord.subVtables
    obtain ⟨it, hit, hq⟩ := (hiff p).mp ⟨sub, hsub, hp⟩
    rcases parentVtbl_eq_ok hq with ⟨-, rfl⟩ | ⟨P, rest, hpath, hpname⟩
    · exact absurd rfl hne
    · obtain ⟨hPname, hlt⟩ := hlisted it hit P rest hpath
      obtain ⟨info', hinfo', hname'⟩ := h.complete RD Base hBase ⟨info, hinfo, hrecord.className⟩ P
        (H.mayExtend_of_path Base hBase hit hpath) hPname
      have hparent := h.recordOf hinfo' P none hname'
      refine ⟨info', hinfo', hname'.trans hpname.symm, ?_⟩
      rw [(generateSubvtableInfo_spec hparent.subVtables).1]
      exact hlt p.2 (hpname ▸ hq)

theorem parentVtbl_ne_outOfFuel {program : Program Class Method}
    {layout : VTableLayout Class Method} (path : List Class) :
    program.parentVtbl layout path ≠ .error .outOfFuel := by
  unfold Program.parentVtbl
  split
  · exact nofun
  · exact nofun
  · rw [ne_eq, bind_eq_error]
    rintro (horder | ⟨_, -, hrest⟩)
    · unfold VTableLayout.getOrder at horder
      split at horder <;> cases horder
    · cases hrest

theorem generateSubvtableInfo_ne_outOfFuel {program : Program Class Method}
    {layout : VTableLayout Class Method} (RD : Class) :
    program.generateSubvtableInfo layout RD ≠ .error .outOfFuel := by
  rw [Program.generateSubvtableInfo, ne_eq, bind_eq_error]
  rintro (hmap | ⟨map, -, hrest⟩)
  · refine foldlM_ne_error_of_forall (fun it _ map hstep => ?_) hmap
    rcases bind_eq_error.mp hstep with hparent | ⟨_, -, hrest⟩
    · exact parentVtbl_ne_outOfFuel it.1 hparent
    · cases hrest
  · rcases bind_eq_error.mp hrest with hregions | ⟨st, -, hrest⟩
    · refine foldlM_ne_error_of_forall (fun region _ st hstep => ?_) hregions
      unfold Program.addRegion at hstep
      dsimp only at hstep
      split at hstep
      · cases hstep
      · split at hstep
        · cases hstep
        · split at hstep
          · cases hstep
          · split at hstep <;> cases hstep
    · dsimp only at hrest
      split at hrest <;> cases hrest

theorem insertVtableMD_ne_outOfFuel_step {getGlobalVariable : String → Option String} {fuel : Nat}
    {VTable : Option String} {layout : VTableLayout Class Method} {RD : Class}
    {Base : Option (BaseSubobject Class)} (recorded : List ClassRecord)
    (h : ∀ AP ∈ layout.addressPoints, AP.1.base ≠ RD → ∀ recorded,
      H.insertVtableMD getGlobalVariable fuel none (H.vTableLayout AP.1.base) AP.1.base none
        recorded ≠ .error .outOfFuel) :
    H.insertVtableMD getGlobalVariable (fuel + 1) VTable layout RD Base recorded ≠
      .error .outOfFuel := by
  intro herror
  rw [Program.insertVtableMD] at herror
  split at herror
  · cases herror
  rcases bind_eq_error.mp herror with hsubs | ⟨subVtables, -, hrest⟩
  · exact generateSubvtableInfo_ne_outOfFuel RD hsubs
  · split at hrest
    · cases hrest
    · split at hrest
      · cases hrest
      · refine foldlM_ne_error_of_forall (fun AP hAP recorded hstep => ?_) hrest
        split at hstep
        · rename_i hne
          exact h AP hAP hne recorded hstep
        · cases hstep

/-- The recursion ends, since it goes to proper bases only. -/
theorem insertVtableMD_terminates (D : Class) : ∃ n, ∀ fuel, n ≤ fuel → ∀ getGlobalVariable VTable
    recorded, H.insertVtableMD getGlobalVariable fuel VTable (H.vTableLayout D) D none recorded ≠
      .error .outOfFuel := by
  induction D using H.acyclic.transGen.induction with
  | _ D ih =>
    obtain ⟨n, hn⟩ := exists_bound (H.vTableLayout D).addressPoints (fun AP fuel => AP.1.base ≠ D →
      ∀ getGlobalVariable VTable recorded, H.insertVtableMD getGlobalVariable fuel VTable
        (H.vTableLayout AP.1.base) AP.1.base none recorded ≠ .error .outOfFuel) (by
      intro AP hAP
      rcases (H.addressPoints D _).mp ⟨AP, hAP, rfl⟩ with heq | hbase
      · exact ⟨0, fun _ _ hne => absurd heq hne⟩
      · obtain ⟨n, hn⟩ := ih _ hbase
        exact ⟨n, fun fuel hfuel _ => hn fuel hfuel⟩)
    refine ⟨n + 1, fun fuel hfuel getGlobalVariable VTable recorded => ?_⟩
    obtain ⟨fuel, rfl⟩ : ∃ k, fuel = k + 1 := ⟨fuel - 1, by omega⟩
    exact insertVtableMD_ne_outOfFuel_step recorded fun AP hAP hne recorded =>
      hn fuel (by omega) AP hAP hne _ _ recorded

theorem emitVTables_terminates (emissions : List (Emission Class)) : ∃ n, ∀ fuel, n ≤ fuel →
    H.emitVTables fuel emissions ≠ .error .outOfFuel := by
  obtain ⟨n, hn⟩ := exists_bound emissions
    (fun e fuel => ∀ recorded, H.emitVTable fuel recorded e ≠ .error .outOfFuel) (by
      intro e _
      obtain ⟨n, hn⟩ := exists_bound (H.layoutOf e.RD e.Base).addressPoints (fun AP fuel =>
        ∀ getGlobalVariable VTable recorded, H.insertVtableMD getGlobalVariable fuel VTable
          (H.vTableLayout AP.1.base) AP.1.base none recorded ≠ .error .outOfFuel)
        (fun AP _ => insertVtableMD_terminates AP.1.base)
      refine ⟨n + 1, fun fuel hfuel recorded => ?_⟩
      obtain ⟨fuel, rfl⟩ : ∃ k, fuel = k + 1 := ⟨fuel - 1, by omega⟩
      exact insertVtableMD_ne_outOfFuel_step recorded fun AP hAP _ recorded =>
        hn fuel (by omega) AP hAP _ _ recorded)
  exact ⟨n, fun fuel hfuel =>
    foldlM_ne_error_of_forall fun e he recorded => hn fuel hfuel e he recorded⟩

section Clouds

variable {emissions : List (Emission Class)} {recorded : List ClassRecord}
  (h : H.Emitted emissions recorded)
include h

theorem Emitted.exists_recordOf {info : ClassRecord} (hinfo : info ∈ recorded) :
    ∃ RD Base, H.RecordOf RD Base info := by
  obtain ⟨e, -, -, hself | ⟨C, -, hrecord⟩⟩ := h.origin info hinfo
  · exact ⟨e.RD, e.Base, hself⟩
  · exact ⟨C, none, hrecord⟩

theorem Emitted.resolvedName_eq {info : ClassRecord} (hinfo : info ∈ recorded) (name : String) :
    resolvedName info.getGlobalVariable name none = name := by
  obtain ⟨RD, Base, hrecord⟩ := h.exists_recordOf hinfo
  rw [resolvedName, Option.none_or]
  cases hgv : info.getGlobalVariable name with
  | none => rfl
  | some gv => exact hrecord.global name gv hgv

theorem Emitted.decoded_className {info : ClassRecord} (hinfo : info ∈ recorded) :
    resolvedName info.getGlobalVariable info.className info.vTable = info.className := by
  obtain ⟨RD, Base, hrecord⟩ := h.exists_recordOf hinfo
  cases hgv : info.vTable with
  | none => exact h.resolvedName_eq hinfo _
  | some gv => exact hrecord.vTable gv hgv

theorem Emitted.mem_decoded_parents {info : ClassRecord} (hinfo : info ∈ recorded) (s : SDVtableMD)
    (className : String) (p : Vtbl) :
    p ∈ (s.decoded info.getGlobalVariable className).parents ↔ p ∈ s.parents := by
  simp [SDVtableMD.decoded, h.resolvedName_eq hinfo]

/-- The records under the names that they were written for. -/
theorem Emitted.recorded_iff (v : Vtbl) (sub : NmdSub) :
    Recorded (recorded.map ClassRecord.decoded) v sub ↔ ∃ info ∈ recorded, info.className = v.1 ∧
      ∃ s, info.subVtables[v.2]? = some s ∧ s.decoded info.getGlobalVariable v.1 = sub := by
  simp only [Recorded, List.mem_map, exists_exists_and_eq_and]
  refine exists_congr fun info => and_congr_right fun hinfo => ?_
  have hclass := h.decoded_className hinfo
  have hname : info.decoded.className = info.className := hclass
  rw [hname, ClassRecord.decoded, List.getElem?_map, Option.map_eq_some_iff, hclass]
  exact and_congr_right fun hv => by rw [hv]

theorem Emitted.parents_ne_nil (v : Vtbl) (sub : NmdSub)
    (hsub : Recorded (recorded.map ClassRecord.decoded) v sub) : sub.parents ≠ [] := by
  obtain ⟨info, hinfo, -, s, hs, rfl⟩ := (h.recorded_iff v sub).mp hsub
  obtain ⟨RD, Base, hrecord⟩ := h.exists_recordOf hinfo
  obtain ⟨-, -, -, hne⟩ := generateSubvtableInfo_spec hrecord.subVtables
  obtain ⟨p, hp⟩ := List.exists_mem_of_ne_nil _ (hne s (List.mem_of_getElem? hs))
  exact List.ne_nil_of_mem ((h.mem_decoded_parents hinfo s _ p).mpr hp)

/-- Parents are proper bases, or the class that a construction vtable is for. -/
theorem Emitted.parentEdge {v w : Vtbl}
    (hedge : ParentEdge (recorded.map ClassRecord.decoded) v w) :
    ∃ P, v.1 = H.classMangledName P ∧ ∀ D, w.1 = H.classMangledName D → H.IsBase P D := by
  obtain ⟨hne, sub, hsub, hmem⟩ := hedge
  obtain ⟨info, hinfo, hname, s, hs, rfl⟩ := (h.recorded_iff w sub).mp hsub
  have hp : ∃ s ∈ info.subVtables, v ∈ s.parents :=
    ⟨s, List.mem_of_getElem? hs, (h.mem_decoded_parents hinfo s _ v).mp hmem⟩
  have hbase : ∀ RD Base, H.RecordOf RD Base info → ∃ it ∈ (H.layoutOf RD Base).inheritanceMap,
      ∃ P rest, (H.layoutOf RD Base).parentInheritancePath it.1 = P :: rest ∧
        v.1 = H.classMangledName P := by
    intro RD Base hrecord
    obtain ⟨it, hit, hq⟩ := ((generateSubvtableInfo_spec hrecord.subVtables).2.2.1 v).mp hp
    rcases parentVtbl_eq_ok hq with ⟨-, rfl⟩ | ⟨P, rest, hpath, hP⟩
    · exact absurd rfl hne
    · exact ⟨it, hit, P, rest, hpath, hP⟩
  obtain ⟨RD, Base, hrecord⟩ := h.exists_recordOf hinfo
  obtain ⟨-, -, P, -, -, hP⟩ := hbase RD Base hrecord
  refine ⟨P, hP, fun D hD => ?_⟩
  obtain ⟨it, hit, P', rest, hpath, hP'⟩ :=
    hbase D none (h.recordOf hinfo D none (hname.trans hD))
  obtain rfl := H.classMangledName_injective (hP.symm.trans hP')
  exact H.mayExtend_of_path none (fun _ => nofun) hit hpath

theorem Emitted.acyclicMetadata : AcyclicMetadata (recorded.map ClassRecord.decoded) := by
  have hchain : ∀ v w, Relation.TransGen (ParentEdge (recorded.map ClassRecord.decoded)) v w →
      ∃ P, v.1 = H.classMangledName P ∧ ∀ D, w.1 = H.classMangledName D → H.IsBase P D := by
    intro v w hvw
    induction hvw with
    | single hedge => exact h.parentEdge hedge
    | tail _ hedge ih =>
      obtain ⟨P, hP, hbase⟩ := ih
      obtain ⟨P', hP', hbase'⟩ := h.parentEdge hedge
      exact ⟨P, hP, fun D hD => (hbase P' hP').trans (hbase' D hD)⟩
  intro v hcycle
  obtain ⟨P, hP, hbase⟩ := hchain v v hcycle
  exact H.not_isBase_self P (hbase P hP)

end Clouds

end Hierarchy

/-- Every parent has a record, so `buildClouds` finds no undefined parent, and every recorded
sub-vtable lies below a root. -/
structure ClosedUnderParents (recorded : List ClassRecord) : Prop where
  parents : ParentsRecorded recorded
  defined : ∀ initializer,
    buildClouds initializer (recorded.map ClassRecord.decoded) ≠ .error .undefinedVtables
  reachable : ∀ initializer cha,
    buildClouds initializer (recorded.map ClassRecord.decoded) = .ok cha →
      ∀ v sub, Recorded (recorded.map ClassRecord.decoded) v sub →
        ∃ root ∈ cha.roots, v ∈ cha.preorder (root, 0)

namespace Hierarchy

variable {Class Method : Type} [DecidableEq Class] {H : Hierarchy Class Method}

theorem Emitted.closedUnderParents_iff {emissions : List (Emission Class)}
    {recorded : List ClassRecord} (h : H.Emitted emissions recorded) :
    ClosedUnderParents recorded ↔ ParentsRecorded recorded := by
  refine ⟨ClosedUnderParents.parents, fun hparents => ⟨hparents, fun initializer => ?_, ?_⟩⟩
  · refine buildClouds_ne_undefinedVtables fun w sub hsub v hv hne => ?_
    obtain ⟨info, hinfo, -, s, hs, rfl⟩ := (h.recorded_iff w sub).mp hsub
    obtain ⟨info', hinfo', hname, hlt⟩ := hparents info hinfo s (List.mem_of_getElem? hs) v
      ((h.mem_decoded_parents hinfo s _ v).mp hv) hne
    exact ⟨_, (h.recorded_iff v _).mpr ⟨info', hinfo', hname, _, List.getElem?_eq_getElem hlt, rfl⟩⟩
  · intro initializer cha hcha v sub hsub
    obtain ⟨root, hroot, hreach⟩ := exists_root hcha h.acyclicMetadata h.parents_ne_nil v
      ((mem_cloudMap_iff hcha v).mpr ⟨sub, hsub⟩)
    exact ⟨root, hroot, (cha.mem_preorder_iff _ v).mpr hreach⟩

/-- The recursion ends, and the records are closed under parents exactly where no class that gets
a record has a parent that is filtered, or one without the sub-vtable that is named. -/
theorem parents_recorded_iff {emissions : List (Emission Class)}
    (hemits : ∀ e ∈ emissions, H.Emits e) :
    (∃ n, ∀ fuel, n ≤ fuel → H.emitVTables fuel emissions ≠ .error .outOfFuel) ∧
      ∀ fuel recorded, H.emitVTables fuel emissions = .ok recorded →
        (ClosedUnderParents recorded ↔ H.AllListed emissions) := by
  refine ⟨emitVTables_terminates emissions, fun fuel recorded hrun => ?_⟩
  have hemitted := emitVTables_emitted hemits hrun
  exact hemitted.closedUnderParents_iff.trans (hemitted.parentsRecorded_iff hemits)

end Hierarchy

instance (recorded : List ClassRecord) : Decidable (ParentsRecorded recorded) :=
  inferInstanceAs (Decidable (∀ info ∈ recorded, ∀ sub ∈ info.subVtables, ∀ p ∈ sub.parents,
    p.1 ≠ "" → ∃ info' ∈ recorded, info'.className = p.1 ∧ p.2 < info'.subVtables.length))

/-- A class and one that derives from it. -/
inductive TwoClasses
  | base
  | derived
  deriving DecidableEq

namespace TwoClasses

def program (baseName : String) : Program TwoClasses String where
  bases
    | base => []
    | derived => [base]
  mangleName
    | base => baseName
    | derived => "5MyErr"
  mangleBaseName _
    | base => baseName
    | derived => "5MyErr"
  functionMangledName := id
  vTableLayout
    | base => ⟨[.other, .other, .functionPointer "what"], [(⟨base, 0⟩, 2)], [([], 0)], base, base⟩
    | derived => ⟨[.other, .other, .functionPointer "what"], [(⟨derived, 0⟩, 2), (⟨base, 0⟩, 2)],
      [([base], 0)], derived, derived⟩
  constructionVTableLayout RD Base :=
    ⟨[.other, .other, .functionPointer "what"], [(Base, 2)], [([], 0)], Base.base, RD⟩

theorem isBase_iff (baseName : String) (B D : TwoClasses) :
    (program baseName).IsBase B D ↔ B = base ∧ D = derived := by
  constructor
  · intro h
    induction h with
    | single h =>
      rename_i D
      cases D with
      | base => cases h
      | derived => exact ⟨List.mem_singleton.mp h, rfl⟩
    | tail _ h ih =>
      obtain ⟨rfl, rfl⟩ := ih
      rename_i D _
      cases D with
      | base => cases h
      | derived => exact ⟨rfl, rfl⟩
  · rintro ⟨rfl, rfl⟩
    exact .single (List.mem_singleton_self _)

variable {baseName : String}

theorem mangleName_eq_iff {c : Char} {cs : List Char} (hname : baseName.toList = c :: cs)
    (hc : c ≠ '5') {C D : TwoClasses} {rest rest' : List Char}
    (h : ((program baseName).mangleName C).toList ++ rest =
      ((program baseName).mangleName D).toList ++ rest') : C = D ∧ rest = rest' := by
  have hderived : "5MyErr".toList = '5' :: "MyErr".toList := rfl
  cases C <;> cases D <;> simp only [program, hname, hderived, List.cons_append] at h
  · exact ⟨rfl, by simpa using h⟩
  · exact absurd (List.cons.inj h).1 hc
  · exact absurd (List.cons.inj h).1.symm hc
  · exact ⟨rfl, by simpa using h⟩

def hierarchy (baseName : String) {c : Char} {cs : List Char} (hname : baseName.toList = c :: cs)
    (hc : c ≠ '5') : Hierarchy TwoClasses String where
  toProgram := program baseName
  acyclic := by
    have hbase : Acc (fun B D => B ∈ (program baseName).bases D) base := ⟨_, nofun⟩
    refine ⟨fun D => ?_⟩
    cases D with
    | base => exact hbase
    | derived => exact ⟨_, fun B hB => List.mem_singleton.mp hB ▸ hbase⟩
  mangleName_injective C D h :=
    (mangleName_eq_iff hname hc (congrArg (fun name => name.toList ++ []) h)).1
  constrName_injective RD Base RD' Base' h := by
    have hchars := congrArg String.toList h
    simp only [Program.classMangledConstrName, String.toList_append, List.append_assoc,
      List.append_cancel_left_eq] at hchars
    obtain ⟨rfl, hrest⟩ := mangleName_eq_iff hname hc hchars
    have hdigits : ∀ n : Nat, '_' ∉ (toString n).toList :=
      fun n h => absurd (isDigit_of_mem_toString h) (by decide)
    have hsplit := congrArg (split '_') hrest
    have hunder : "_".toList = ['_'] := rfl
    rw [hunder, List.singleton_append, List.singleton_append, split_append _ _ (hdigits _),
      split_append _ _ (hdigits _), Prod.mk.injEq] at hsplit
    have hbase := mangleName_eq_iff hname hc (congrArg (· ++ []) hsplit.2)
    obtain ⟨B, offset⟩ := Base
    obtain ⟨B', offset'⟩ := Base'
    exact ⟨rfl, congrArg₂ BaseSubobject.mk hbase.1 (toString_toList_inj hsplit.1)⟩
  classLayout D := by cases D <;> rfl
  addressPoints D B := by
    rw [isBase_iff]
    cases D <;> cases B <;> simp [program]
  inheritanceMap D := by cases D <;> exact List.cons_ne_nil _ _
  paths D := by
    cases D with
    | base => simp [program]
    | derived =>
      refine List.forall_mem_singleton.mpr fun P hP => ?_
      obtain rfl := Option.some.inj hP
      exact (isBase_iff _ _ _).mpr ⟨rfl, rfl⟩
  constrLayout RD Base h := by
    obtain ⟨hbase, rfl⟩ := (isBase_iff _ _ _).mp h
    refine ⟨rfl, ?_⟩
    rw [VTableLayout.isConstructionLayout]
    simp [program, hbase]
  constrAddressPoints RD Base _ :=
    ⟨⟨_, List.mem_singleton_self _, rfl⟩, List.forall_mem_singleton.mpr (.inl rfl)⟩
  constrInheritanceMap _ _ _ := List.cons_ne_nil _ _

/-- The derived class is emitted in a module without other vtables. -/
def emission : Emission TwoClasses := ⟨derived, none, fun _ => none⟩

theorem emits (H : Hierarchy TwoClasses String) : ∀ e ∈ [emission], H.Emits e :=
  List.forall_mem_singleton.mpr ⟨by rintro _ ⟨⟩, by rintro _ _ ⟨⟩⟩

end TwoClasses

theorem Hierarchy.parents_recorded_iff_twoClasses :
    let H := TwoClasses.hierarchy "4Base" rfl (by decide)
    (∃ n, ∀ fuel, n ≤ fuel → H.emitVTables fuel [TwoClasses.emission] ≠ .error .outOfFuel) ∧
      ∃ recorded, H.emitVTables 3 [TwoClasses.emission] = .ok recorded ∧
        (ClosedUnderParents recorded ↔ H.AllListed [TwoClasses.emission]) := by
  intro H
  have hrun := eq_ok_of_isOk (x := H.emitVTables 3 [TwoClasses.emission]) [] (by decide)
  obtain ⟨hterminates, hiff⟩ := Hierarchy.parents_recorded_iff (TwoClasses.emits H)
  exact ⟨hterminates, _, hrun, hiff 3 _ hrun⟩

/-- A class that derives from one of namespace `std`. -/
theorem Hierarchy.parents_not_recorded :
    let H := TwoClasses.hierarchy "St9exception" rfl (by decide)
    ∃ recorded, H.emitVTables 3 [TwoClasses.emission] = .ok recorded ∧
      ¬ ClosedUnderParents recorded := by
  intro H
  have hrun := eq_ok_of_isOk (x := H.emitVTables 3 [TwoClasses.emission]) [] (by decide)
  refine ⟨_, hrun, fun h => absurd h.parents ?_⟩
  decide

end RhoFEM.Frontend
