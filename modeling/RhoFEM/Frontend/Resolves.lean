import RhoFEM.Frontend.InheritanceMap

/-! Which paths to virtual bases get a number, and keep it in the inheritance map. -/

namespace RhoFEM.Frontend

open RhoFEM.Lib.Fold RhoFEM.Lib.Search RhoFEM.Lib.Descendants RhoFEM.Lib.PathMap
open RhoFEM.Lib.PathTable

namespace ItaniumVTableBuilder

variable {Class Method : Type} [DecidableEq Class]

section Spec

variable (b : ItaniumVTableBuilder Class Method)

/-- The virtual bases among visited places that get a sub-vtable, with their secondary ones. -/
def laidOut (visits : List (Place Class)) : List (Place Class) :=
  layouts (b.schedule b.sharedVirtualBases [] visits)

/-- A path to a base that shares a vtable leads to where it is defined, and to a number. -/
structure Resolves (before : List (Place Class)) (x : Place Class) : Prop where
  notSecondary : x ∉ b.secondaries (b.depth b.mostDerivedClass + 1) b.start
  primary : b.directParent.toList = x.path → b.primaryVirtualBaseAt b.start = some x.type ∧
    ∀ y ∈ b.laidOut before, y.type ≠ x.type
  last : x ∈ b.laidOut before → latest (b.laidOut before) x.type = some x
  reached : b.directParent = none ∨ (∃ y ∈ b.laidOut before, y.type = x.type) ∨
    b.primaryVirtualBaseAt b.start = some x.type ∨
      ∃ y ∈ b.firstShared x.type, b.directParent = some y.type ∨ y.steps ≠ [] ∨ y ∈ before

def PathsResolve : Prop :=
  ∀ before x after, b.visits = before ++ x :: after → x.type ∈ b.sharedVirtualBases →
    b.Resolves before x

end Spec

variable {b : ItaniumVTableBuilder Class Method}

theorem stored_table (hb : b.WellFormed) {st : VTableState Class Method}
    (hst : b.Determined (b.primaryEvents.foldl b.apply {}) st) :
    st.table.stored.map Prod.fst = b.directParent.toList ::
      (b.secondaries (b.depth b.mostDerivedClass + 1) b.start).map Place.path := by
  obtain ⟨-, hstored⟩ := fresh_primaryEvents hb
  have hframe : st.table.stored = (b.primaryEvents.foldl b.apply {}).table.stored := by
    obtain ⟨defMap, known, rfl⟩ := hst.frame
    rfl
  rw [hframe, hstored, primaryEvents, layouts_map_layout, subVTablesAt, List.map_cons,
    storedPathAt_start]
  refine congrArg _ (List.map_congr_left fun x hx => storedPathAt_of_ne_nil ?_)
  exact path_ne_nil (mem_secondaries hx).1

theorem mem_stored_iff (hb : b.WellFormed) {st : VTableState Class Method}
    (hst : b.Determined (b.primaryEvents.foldl b.apply {}) st) {before : List (Place Class)}
    {path : List Class} : path ∈ st.table.stored.map Prod.fst ++
      storedPaths ((b.schedule b.sharedVirtualBases [] before).map Event.write) ↔
        b.directParent.toList = path ∨
          (∃ y ∈ b.secondaries (b.depth b.mostDerivedClass + 1) b.start, y.path = path) ∨
            ∃ y ∈ b.laidOut before, y.path = path := by
  rw [stored_table hb hst, storedPaths_write, List.mem_append, List.mem_cons, List.mem_map,
    List.mem_map, or_assoc, eq_comm, laidOut]

theorem laidOut_subset {before after : List (Place Class)} (h : b.visits = before ++ after) :
    b.laidOut before ⊆ layouts b.virtualEvents := by
  obtain ⟨VBases', heq⟩ := b.schedule_append b.sharedVirtualBases [] before after
  rw [virtualEvents, h, heq, layouts_append]
  exact List.subset_append_left _ _

theorem mem_layouts_of_virtual {y : Place Class} (hy : y ∈ layouts b.virtualEvents) :
    y ∈ layouts (b.primaryEvents ++ b.virtualEvents) := by
  rw [layouts_append]
  exact List.mem_append_right _ hy

theorem mem_layouts_of_secondary {y : Place Class}
    (hy : y ∈ b.secondaries (b.depth b.mostDerivedClass + 1) b.start) :
    y ∈ layouts (b.primaryEvents ++ b.virtualEvents) := by
  rw [layouts_append, primaryEvents, layouts_map_layout]
  exact List.mem_append_left _ (List.mem_cons_of_mem _ hy)

/-- A place that was laid out and has the path of another place is that place. -/
theorem eq_of_mem_layouts (hb : b.WellFormed) {x y : Place Class} (hx : b.IsPlace x)
    (hy : y ∈ layouts (b.primaryEvents ++ b.virtualEvents)) (h : y.path = x.path) : y = x :=
  (isPlace_of_mem_layouts hy).eq_of_path hb hx h

/-- The recorded path of a shared virtual base is the path of no sub-vtable but that of the most
derived class. -/
theorem SharedPath.ne_path (hb : b.WellFormed) {A : Class} {path : List Class}
    (h : b.SharedPath (b.children b.start) A path) {x : Place Class}
    (hx : x ∈ layouts (b.primaryEvents ++ b.virtualEvents)) (hA : x.type = A) : x.path ≠ path := by
  obtain ⟨z, hz, hprimary, rfl⟩ := h.exists_place
  intro hpath
  have hplace := isPlace_of_mem_layouts hx
  refine not_isShared_of_mem_layouts hb hx ?_
  rcases Relation.ReflTransGen.cases_tail hplace with rfl | ⟨w, hw, hchild⟩
  · exact absurd hpath.symm (List.append_ne_nil_of_right_ne_nil _ (List.cons_ne_nil _ _))
  · obtain ⟨B, hB, rfl⟩ := mem_children.mp hchild
    rw [step_path] at hpath
    obtain ⟨hwz, -⟩ := List.append_inj' hpath rfl
    obtain rfl : w = z := IsPlace.eq_of_path hb hw hz hwz
    rw [step_type] at hA
    cases hvirtual : B.isVirtual with
    | false =>
      have hshares := sharesVTable_step (b := b) (IsPlace.owner hw) hvirtual
      rw [IsShared, if_neg (by simp [step_nonVirtual w hvirtual]), hshares, hA]
      exact decide_eq_true (Option.filter_eq_some_iff.mp hprimary).1
    | true =>
      rw [IsShared, if_pos (by rw [step_virtual w hvirtual]), step_type, hA]
      exact (mem_sharedVirtualBases hb).mpr ⟨w, hw, hprimary⟩

/-- The definition of a class where a further path to it is looked up. -/
theorem defsAfter_schedule {st : VTableState Class Method} (before : List (Place Class))
    (A : Class) : Table.defsAfter st.table.defs
      ((b.schedule b.sharedVirtualBases [] before).map Event.write) A =
        ((latest (b.laidOut before) A).map Place.path).or (st.virtualBasesDefMap A) :=
  defsAfter_write _ _ A

omit [DecidableEq Class] in
theorem directParent_cases (b : ItaniumVTableBuilder Class Method) : b.directParent = none ∨
    b.directParent = (b.recordLayout b.mostDerivedClass).primaryBase := by
  cases hparent : b.directParent with
  | none => exact .inl rfl
  | some P => exact .inr (primaryBase_of_directParent hparent).1.symm

theorem directParent_of_primaryVirtualBaseAt {A : Class}
    (h : b.primaryVirtualBaseAt b.start = some A) :
    b.directParent = none ∨ b.directParent = some A :=
  (directParent_cases b).imp_right fun hparent =>
    hparent.trans (Option.filter_eq_some_iff.mp h).1

omit [DecidableEq Class] in
theorem numVBases_of_reaches (hb : b.WellFormed) {x y : Place Class} (h : Reaches b.children x y)
    (hy : b.numVBases y.type ≠ 0) : b.numVBases x.type ≠ 0 := by
  induction h using Relation.ReflTransGen.head_induction_on with
  | refl => exact hy
  | head hchild _ ih =>
    obtain ⟨B, hB, rfl⟩ := mem_children.mp hchild
    rw [step_type] at ih
    exact (hb.numVBases_iff _).mpr ⟨B, hB, .inr ih⟩

theorem numVBases_of_sharedBelow (hb : b.WellFormed) {A : Class} {y : Place Class}
    (h : b.sharedBelow A y = true) : b.numVBases y.type ≠ 0 := by
  obtain ⟨z, hz, hA⟩ := (sharedBelow_iff hb).mp h
  exact numVBases_of_reaches hb hz ((isVirtualBase_of_primary hb hA).numVBases hb)

/-- A non-virtual direct base with virtual bases has a sub-vtable, unless it is the primary one. -/
theorem mem_secondaries_start (hb : b.WellFormed) {y : Place Class} (hy : y ∈ b.children b.start)
    (hsteps : y.steps ≠ []) (hbases : b.numVBases y.type ≠ 0) :
    b.directParent = none ∨ b.directParent = some y.type ∨
      y ∈ b.secondaries (b.depth b.mostDerivedClass + 1) b.start := by
  obtain ⟨B, hB, rfl⟩ := mem_children.mp hy
  cases hvirtual : B.isVirtual with
  | true =>
    rw [step_virtual b.start hvirtual] at hsteps
    exact absurd rfl hsteps
  | false =>
    rw [step_type] at hbases ⊢
    have hshares := sharesVTable_step (b := b) (x := b.start) rfl hvirtual
    rcases directParent_cases b with hparent | hparent
    · exact .inl hparent
    · by_cases hprimary : (b.recordLayout b.mostDerivedClass).primaryBase = some B.type
      · exact .inr (.inl (hparent.trans hprimary))
      · refine .inr (.inr (List.mem_filter.mpr ⟨?_, ?_⟩))
        · exact List.mem_flatMap.mpr ⟨_, mem_nonVirtualChildren.mpr
            ⟨B, hB, hvirtual, hb.dynamic _ hbases, fun _ _ => hbases, rfl⟩, List.mem_cons_self⟩
        · rw [hshares]
          exact Bool.not_eq_true' _ |>.mpr (decide_eq_false hprimary)

omit [DecidableEq Class] in
theorem path_of_mem_children_start {y : Place Class} (hy : y ∈ b.children b.start) :
    y.path = [y.type] := by
  obtain ⟨B, -, rfl⟩ := mem_children.mp hy
  rw [step_path, step_type]
  rfl

omit [DecidableEq Class] in
theorem path_prefix_of_reaches {x y : Place Class} (h : Reaches b.children x y) :
    x.path <+: y.path := by
  induction h with
  | refl => exact List.prefix_refl _
  | tail _ hz ih =>
    obtain ⟨C, hC⟩ := path_children _ _ hz
    exact ih.trans ⟨[C], hC.symm⟩

omit [DecidableEq Class] in
/-- Direct bases are the same where their paths start the same path. -/
theorem eq_of_mem_children (hb : b.WellFormed) {y z : Place Class} (hy : y ∈ b.children b.start)
    (hz : z ∈ b.children b.start) {path : List Class} (hyp : y.path <+: path)
    (hzp : z.path <+: path) : y = z := by
  have hlength : y.path.length = z.path.length := by
    rw [path_of_mem_children_start hy, path_of_mem_children_start hz]
    rfl
  exact List.inj_on_of_nodup_map (nodup_children hb b.start) hy hz
    ((List.prefix_of_prefix_length_le hyp hzp hlength.le).eq_of_length hlength)

section Split

variable (hb : b.WellFormed) {st : VTableState Class Method}
  (hst : b.Determined (b.primaryEvents.foldl b.apply {}) st) {before after : List (Place Class)}
  {x : Place Class} (hvisits : b.visits = before ++ x :: after)
include hb hst hvisits

theorem kept_of_resolves (hx : b.Resolves before x) : st.table.Kept
    ((b.schedule b.sharedVirtualBases [] before).map Event.write) (.resolve x.path x.type) := by
  have hplace := transGen_of_mem_visits (show x ∈ b.visits by simp [hvisits])
  intro hmem
  rw [defsAfter_schedule]
  rcases (mem_stored_iff hb hst).mp hmem with hstart | ⟨y, hy, hpath⟩ | ⟨y, hy, hpath⟩
  · obtain ⟨hprimary, hnone⟩ := hx.primary hstart
    have hshared := (mem_sharedVirtualBases hb).mpr ⟨b.start, .refl, hprimary⟩
    obtain ⟨path, hdef⟩ := Option.isSome_iff_exists.mp ((hst.defined x.type).mp hshared)
    rw [latest_eq_none.mpr hnone, Option.map_none, Option.none_or, hdef]
    cases hst.sharedPath x.type path hdef with
    | below hne => exact absurd hprimary hne
    | start =>
      have hparent := (isShared_of_storedPathAt_start hb hplace.to_reflTransGen
        (path_ne_nil hplace) (storedPathAt_start.trans hstart)).1
      rw [← hstart, hparent]
      rfl
  · obtain rfl := eq_of_mem_layouts hb hplace.to_reflTransGen (mem_layouts_of_secondary hy) hpath
    exact absurd hy hx.notSecondary
  · obtain rfl := eq_of_mem_layouts hb hplace.to_reflTransGen
      (mem_layouts_of_virtual (laidOut_subset hvisits hy)) hpath
    rw [hx.last hy]
    rfl

theorem resolves_of_kept (hkept : st.table.Kept
    ((b.schedule b.sharedVirtualBases [] before).map Event.write) (.resolve x.path x.type)) :
    x ∉ b.secondaries (b.depth b.mostDerivedClass + 1) b.start ∧
      (b.directParent.toList = x.path → b.primaryVirtualBaseAt b.start = some x.type ∧
        ∀ y ∈ b.laidOut before, y.type ≠ x.type) ∧
      (x ∈ b.laidOut before → latest (b.laidOut before) x.type = some x) := by
  have hplace := transGen_of_mem_visits (show x ∈ b.visits by simp [hvisits])
  have hdefined : x.path ∈ st.table.stored.map Prod.fst ++
      storedPaths ((b.schedule b.sharedVirtualBases [] before).map Event.write) →
        latest (b.laidOut before) x.type = some x ∨
          latest (b.laidOut before) x.type = none ∧
            b.SharedPath (b.children b.start) x.type x.path := by
    intro hmem
    have hdef := hkept hmem
    rw [defsAfter_schedule] at hdef
    cases hlatest : latest (b.laidOut before) x.type with
    | none =>
      rw [hlatest, Option.map_none, Option.none_or] at hdef
      exact .inr ⟨rfl, hst.sharedPath x.type x.path hdef⟩
    | some y =>
      rw [hlatest, Option.map_some, Option.some_or] at hdef
      obtain ⟨hy, -⟩ := of_latest_eq_some hlatest
      exact .inl (congrArg some (eq_of_mem_layouts hb hplace.to_reflTransGen
        (mem_layouts_of_virtual (laidOut_subset hvisits hy)) (Option.some.inj hdef)))
  refine ⟨fun hy => ?_, fun hstart => ?_, fun hy => ?_⟩
  · have hlayout := mem_layouts_of_secondary hy
    rcases hdefined ((mem_stored_iff hb hst).mpr (.inr (.inl ⟨x, hy, rfl⟩))) with hlatest |
      ⟨-, hpath⟩
    · have hroot := (virtual_of_mem_layouts
        (laidOut_subset hvisits (of_latest_eq_some hlatest).1)).2.1
      rw [(mem_secondaries hy).2.1.root] at hroot
      cases hroot
    · exact hpath.ne_path hb hlayout rfl rfl
  · obtain ⟨hparent, hshared⟩ := isShared_of_storedPathAt_start hb hplace.to_reflTransGen
      (path_ne_nil hplace) (storedPathAt_start.trans hstart)
    rcases hdefined ((mem_stored_iff hb hst).mpr (.inl hstart)) with hlatest | ⟨hlatest, hpath⟩
    · exact absurd hshared (not_isShared_of_mem_layouts hb
        (mem_layouts_of_virtual (laidOut_subset hvisits (of_latest_eq_some hlatest).1)))
    · refine ⟨?_, latest_eq_none.mp hlatest⟩
      obtain ⟨z, hz, hprimary, hzpath⟩ := hpath.exists_place
      rw [← hstart, hparent, Option.toList_some] at hzpath
      obtain ⟨hempty, -⟩ := @List.append_inj' _ [] _ _ _ hzpath rfl
      obtain rfl : z = b.start := IsPlace.eq_of_path hb hz .refl hempty.symm
      exact hprimary
  · rcases hdefined ((mem_stored_iff hb hst).mpr (.inr (.inr ⟨x, hy, rfl⟩))) with hlatest |
      ⟨hlatest, -⟩
    · exact hlatest
    · exact absurd rfl (latest_eq_none.mp hlatest x hy)

end Split

section Found

variable (hb : b.WellFormed) {st : VTableState Class Method}
  (hst : b.Determined (b.primaryEvents.foldl b.apply {}) st) {before after : List (Place Class)}
  {x : Place Class}

theorem mem_paths_iff (hb : b.WellFormed) (hst : b.Determined (b.primaryEvents.foldl b.apply {}) st)
    {path : List Class} :
    path ∈ st.table.paths ((b.schedule b.sharedVirtualBases [] before).map Event.write) ↔
      b.directParent.toList = path ∨
        (∃ y ∈ b.secondaries (b.depth b.mostDerivedClass + 1) b.start, y.path = path) ∨
          path ∈ storedPaths ((b.schedule b.sharedVirtualBases [] before).map Event.write) ++
            resolvedPaths ((b.schedule b.sharedVirtualBases [] before).map Event.write) := by
  rw [Table.paths, List.append_assoc, stored_table hb hst, List.mem_append, List.mem_cons,
    List.mem_map, or_assoc, eq_comm]

include hb hst

theorem found_of_laidOut {y : Place Class} (hy : y ∈ b.laidOut before) (htype : y.type = x.type) :
    st.table.Found ((b.schedule b.sharedVirtualBases [] before).map Event.write)
      (.resolve x.path x.type) := by
  cases hlatest : latest (b.laidOut before) x.type with
  | none => exact absurd htype (latest_eq_none.mp hlatest y hy)
  | some z =>
    obtain ⟨hz, -⟩ := of_latest_eq_some hlatest
    refine ⟨z.path, ?_, z.path, ?_, List.prefix_refl _⟩
    · rw [defsAfter_schedule, hlatest]
      rfl
    · refine (mem_paths_iff hb hst).mpr (.inr (.inr (List.mem_append_left _ ?_)))
      rw [storedPaths_write]
      exact List.mem_map_of_mem hz

omit hb in
/-- A shared virtual base that was not laid out has the path that was determined for it. -/
theorem found_iff_of_not_laidOut (hknown : x.type ∈ b.sharedVirtualBases)
    (hnone : ∀ y ∈ b.laidOut before, y.type ≠ x.type) :
    ∃ path, b.SharedPath (b.children b.start) x.type path ∧
      (st.table.Found ((b.schedule b.sharedVirtualBases [] before).map Event.write)
        (.resolve x.path x.type) ↔ ∃ init ∈ st.table.paths
          ((b.schedule b.sharedVirtualBases [] before).map Event.write), init <+: path) := by
  obtain ⟨path, hdef⟩ := Option.isSome_iff_exists.mp ((hst.defined x.type).mp hknown)
  refine ⟨path, hst.sharedPath x.type path hdef, ?_⟩
  rw [Table.Found, defsAfter_schedule, latest_eq_none.mpr hnone, Option.map_none, Option.none_or,
    hdef]
  simp only [Option.mem_def, Option.some.injEq, exists_eq_left']

/-- An initial segment of the path to a base below a direct one has an entry. -/
theorem exists_mem_paths_iff (hvisits : b.visits = before ++ after) {y z : Place Class}
    (hparent : b.directParent ≠ none) (hy : y ∈ b.children b.start)
    (hbases : b.numVBases y.type ≠ 0) (hyz : Reaches b.children y z) (A : Class) :
    (∃ init ∈ st.table.paths ((b.schedule b.sharedVirtualBases [] before).map Event.write),
      init <+: z.path ++ [A]) ↔ b.directParent = some y.type ∨ y.steps ≠ [] ∨ y ∈ before := by
  have hypath : y.path <+: z.path ++ [A] := (path_prefix_of_reaches hyz).trans ⟨[A], rfl⟩
  have hyend : y.path = [y.type] := path_of_mem_children_start hy
  constructor
  · rintro ⟨init, hinit, hbegins⟩
    rcases (mem_paths_iff hb hst).mp hinit with rfl | ⟨w, hw, rfl⟩ | hwritten
    · obtain ⟨P, hP⟩ := Option.ne_none_iff_exists'.mp hparent
      rw [hP, Option.toList_some] at hbegins
      rw [hyend] at hypath
      have hsame := List.prefix_of_prefix_length_le hbegins hypath (le_refl _)
      obtain rfl : P = y.type := (List.cons.inj (hsame.eq_of_length rfl)).1
      exact .inl hP
    · have hbelow := (List.mem_filter.mp hw).1
      have hlabel : ∀ x, ∀ y ∈ b.nonVirtualChildren x, ∃ C, y.path = x.path ++ [C] :=
        fun x y hy => path_children x y (nonVirtualChildren_subset x hy)
      obtain ⟨c, hc, hcw⟩ := label_of_mem hlabel hbelow
      obtain rfl := eq_of_mem_children hb hy (nonVirtualChildren_subset _ hc) hypath
        (hcw.trans hbegins)
      obtain ⟨B, -, hvirtual, -, -, rfl⟩ := mem_nonVirtualChildren.mp hc
      exact .inr (.inl (by simp [step_nonVirtual b.start hvirtual]))
    · obtain ⟨v, hv, hvinit⟩ := exists_visit_of_mem_paths hwritten
      obtain ⟨c, hc, hcbefore, hcv⟩ := exists_child_of_mem
        (fun x y hy => path_children x y (visitedChildren_subset x hy)) hvisits hv
      obtain rfl := eq_of_mem_children hb hy (visitedChildren_subset _ hc) hypath
        ((hcv.trans hvinit).trans hbegins)
      exact .inr (.inr hcbefore)
  · intro hcases
    have hstart : b.directParent = some y.type → ∃ init ∈ st.table.paths
        ((b.schedule b.sharedVirtualBases [] before).map Event.write), init <+: z.path ++ [A] := by
      intro h
      refine ⟨y.path, (mem_paths_iff hb hst).mpr (.inl ?_), hypath⟩
      rw [h, hyend]
      rfl
    rcases hcases with h | h
    · exact hstart h
    · by_cases hsteps : y.steps = []
      · have hbefore := h.resolve_left (not_not_intro hsteps)
        exact ⟨y.path, (mem_paths_iff hb hst).mpr (.inr (.inr
          (mem_paths_schedule hbefore hsteps (hb.dynamic _ hbases)))), hypath⟩
      · rcases (mem_secondaries_start hb hy hsteps hbases).resolve_left hparent with h | hsecondary
        · exact hstart h
        · exact ⟨y.path, (mem_paths_iff hb hst).mpr (.inr (.inl ⟨y, hsecondary, rfl⟩)), hypath⟩

/-- A path to a shared virtual base finds a number just where the condition says. -/
theorem found_iff_reached (hvisits : b.visits = before ++ after)
    (hknown : x.type ∈ b.sharedVirtualBases) :
    st.table.Found ((b.schedule b.sharedVirtualBases [] before).map Event.write)
      (.resolve x.path x.type) ↔
        b.directParent = none ∨ (∃ y ∈ b.laidOut before, y.type = x.type) ∨
          b.primaryVirtualBaseAt b.start = some x.type ∨
            ∃ y ∈ b.firstShared x.type, b.directParent = some y.type ∨ y.steps ≠ [] ∨
              y ∈ before := by
  by_cases hlaidOut : ∃ y ∈ b.laidOut before, y.type = x.type
  · obtain ⟨y, hy, htype⟩ := id hlaidOut
    exact iff_of_true (found_of_laidOut hb hst hy htype) (.inr (.inl hlaidOut))
  · obtain ⟨path, hpath, hfound⟩ := found_iff_of_not_laidOut hst hknown
      fun y hy htype => hlaidOut ⟨y, hy, htype⟩
    have hstart : b.directParent.toList ∈ st.table.paths
        ((b.schedule b.sharedVirtualBases [] before).map Event.write) :=
      (mem_paths_iff hb hst).mpr (.inl rfl)
    rw [hfound, or_iff_right hlaidOut]
    by_cases hparent : b.directParent = none
    · rw [hparent] at hstart
      exact iff_of_true ⟨[], hstart, List.nil_prefix⟩ (.inl hparent)
    · rw [or_iff_right hparent]
      cases hpath with
      | start hprimary =>
        have hsome := (directParent_of_primaryVirtualBaseAt hprimary).resolve_left hparent
        rw [hsome] at hstart
        exact iff_of_true ⟨_, hstart, List.prefix_refl _⟩ (.inl hprimary)
      | below hne hfirst hz hA =>
        have hy := List.mem_of_find?_eq_some hfirst
        have hbases := numVBases_of_sharedBelow hb (List.find?_some hfirst)
        rw [exists_mem_paths_iff hb hst hvisits hparent hy hbases hz, or_iff_right hne, firstShared,
          hfirst]
        simp only [Option.mem_def, Option.some.injEq, exists_eq_left']

end Found

section Run

variable (hb : b.WellFormed) {st : VTableState Class Method}
  (hst : b.Determined (b.primaryEvents.foldl b.apply {}) st) {before after : List (Place Class)}
  {x : Place Class} (hvisits : b.visits = before ++ x :: after)
include hb hst hvisits

theorem resolves_iff (hknown : x.type ∈ b.sharedVirtualBases) : b.Resolves before x ↔
    st.table.Found ((b.schedule b.sharedVirtualBases [] before).map Event.write)
      (.resolve x.path x.type) ∧
    st.table.Kept ((b.schedule b.sharedVirtualBases [] before).map Event.write)
      (.resolve x.path x.type) := by
  have hfound := found_iff_reached hb hst hvisits hknown
  constructor
  · intro hx
    exact ⟨hfound.mpr hx.reached, kept_of_resolves hb hst hvisits hx⟩
  · rintro ⟨hx, hkept⟩
    obtain ⟨hsecondary, hprimary, hlast⟩ := resolves_of_kept hb hst hvisits hkept
    exact ⟨hsecondary, hprimary, hlast, hfound.mp hx⟩

/-- Where a virtual base has a sub-vtable of its own, another path to it leads there. -/
theorem found_kept_of_laidOut (hknown : x.type ∉ b.sharedVirtualBases) (hsteps : x.steps = [])
    {y : Place Class} (hy : y ∈ b.laidOut before) (htype : y.type = x.type) :
    st.table.Found ((b.schedule b.sharedVirtualBases [] before).map Event.write)
      (.resolve x.path x.type) ∧
    st.table.Kept ((b.schedule b.sharedVirtualBases [] before).map Event.write)
      (.resolve x.path x.type) := by
  refine ⟨found_of_laidOut hb hst hy htype, fun hmem => ?_⟩
  have hplace := transGen_of_mem_visits (show x ∈ b.visits by simp [hvisits])
  have hsecondary : ∀ fuel z, x ∉ b.secondaries fuel z := by
    intro fuel z hx
    obtain ⟨t, ht, hsame, -⟩ := (mem_secondaries hx).2.1.steps
    rw [hsteps] at hsame
    exact ht (List.append_eq_nil_iff.mp hsame.symm).2
  rcases (mem_stored_iff hb hst).mp hmem with hstart | ⟨z, hz, hpath⟩ | ⟨z, hz, hpath⟩
  · obtain ⟨-, hshared⟩ := isShared_of_storedPathAt_start hb hplace.to_reflTransGen
      (path_ne_nil hplace) (storedPathAt_start.trans hstart)
    rw [IsShared, if_pos hsteps] at hshared
    exact absurd hshared hknown
  · obtain rfl := eq_of_mem_layouts hb hplace.to_reflTransGen (mem_layouts_of_secondary hz) hpath
    exact absurd hz (hsecondary _ _)
  · obtain rfl := eq_of_mem_layouts hb hplace.to_reflTransGen
      (mem_layouts_of_virtual (laidOut_subset hvisits hz)) hpath
    obtain ⟨v, hv, -, -, -, hzv⟩ := mem_layouts_schedule hz
    rcases List.mem_cons.mp hzv with rfl | hzv
    · -- A place is walked once.
      have hnodup := (nodup_path_visits hb).of_map
      rw [hvisits, List.nodup_middle, List.nodup_cons] at hnodup
      exact absurd (List.mem_append_left _ hv) hnodup.1
    · exact absurd hzv (hsecondary _ _)

omit hvisits in
/-- The condition is what the table needs all along the run. -/
theorem pathsResolve_iff : b.PathsResolve ↔
    EachAfter st.table.Found (b.virtualEvents.map Event.write) ∧
      EachAfter st.table.Kept (b.virtualEvents.map Event.write) := by
  constructor
  · intro hall
    have hboth : EachAfter (fun pre w => st.table.Found pre w ∧ st.table.Kept pre w)
        (b.virtualEvents.map Event.write) := by
      intro pre w post hwrites
      obtain ⟨events, behind, hevents, rfl, hbehind⟩ := List.map_eq_append_iff.mp hwrites
      obtain ⟨e, rest, rfl, rfl, -⟩ := List.map_eq_cons_iff.mp hbehind
      cases e with
      | layout y => exact ⟨trivial, trivial⟩
      | find y =>
        obtain ⟨before, after, hvisits, rfl, hcase⟩ := schedule_eq_append_find hevents
        by_cases hknown : y.type ∈ b.sharedVirtualBases
        · exact (resolves_iff hb hst hvisits hknown).mp (hall before y after hvisits hknown)
        · obtain ⟨hsteps, hseen⟩ := hcase.resolve_left hknown
          obtain ⟨z, hz, htype⟩ := hseen.resolve_left List.not_mem_nil
          exact found_kept_of_laidOut hb hst hvisits hknown hsteps hz htype
    exact ⟨fun pre w post h => (hboth pre w post h).1, fun pre w post h => (hboth pre w post h).2⟩
  · rintro ⟨hfound, hkept⟩ before x after hvisits hknown
    obtain ⟨rest, hevents⟩ := b.schedule_append_cons_of_known hknown before after []
    have hwrites : b.virtualEvents.map Event.write =
        (b.schedule b.sharedVirtualBases [] before).map Event.write ++
          .resolve x.path x.type :: rest.map Event.write := by
      rw [virtualEvents, hvisits, hevents, List.map_append]
      rfl
    exact (resolves_iff hb hst hvisits hknown).mpr ⟨hfound _ _ _ hwrites, hkept _ _ _ hwrites⟩

end Run

end ItaniumVTableBuilder

end RhoFEM.Frontend
