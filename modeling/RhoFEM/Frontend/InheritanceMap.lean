import RhoFEM.Frontend.AddressPoints
import RhoFEM.Lib.PathTable

/-! Whether the inheritance map keeps the numbers of the sub-vtables, and whether each path to a
virtual base finds one. -/

namespace RhoFEM.Frontend

open RhoFEM.Lib.Fold RhoFEM.Lib.Search RhoFEM.Lib.Descendants RhoFEM.Lib.PathTable

def VTableState.table {Class Method : Type} (st : VTableState Class Method) : Table Class where
  entries := st.inheritanceMap
  defs := st.virtualBasesDefMap
  next := st.curVTableInd
  stored := st.subVTables.map fun s => (s.inheritancePath, s.order)
  resolved := st.orders

namespace ItaniumVTableBuilder

variable {Class Method : Type} {b : ItaniumVTableBuilder Class Method}

section Paths

/-- The primary base that the most derived class shares its vtable with. -/
def directParent (b : ItaniumVTableBuilder Class Method) : Option Class :=
  (b.primaryBaseChain (b.depth b.mostDerivedClass + 1) b.mostDerivedClass
    b.mostDerivedClassOffset).tail.head?

theorem nodup_path_places (hb : b.WellFormed) : (b.places.map Place.path).Nodup := by
  rw [places, placesBelow, List.map_cons, List.nodup_cons]
  refine ⟨fun hmem => ?_, nodup_labels path_children (nodup_children hb) _ _⟩
  obtain ⟨x, hx, heq⟩ := List.mem_map.mp hmem
  exact (label_lt_of_mem path_children hx).2.ne (congrArg List.length heq.symm)

theorem IsPlace.eq_of_path (hb : b.WellFormed) {x y : Place Class} (hx : b.IsPlace x)
    (hy : b.IsPlace y) (h : x.path = y.path) : x = y :=
  List.inj_on_of_nodup_map (nodup_path_places hb) ((mem_placesBelow hb).mpr hx)
    ((mem_placesBelow hb).mpr hy) h

theorem depth_le_pathRank (hb : b.WellFormed) {x : Place Class} (hx : b.IsPlace x) :
    ∀ init, init <+: x.path →
      b.depth x.type ≤ pathRank b.depth (b.depth b.mostDerivedClass) init := by
  induction hx with
  | refl =>
    intro init hinit
    obtain rfl : init = [] := List.prefix_nil.mp hinit
    exact le_refl _
  | @tail y z _ hz ih =>
    have hlt := depth_children hb y z hz
    obtain ⟨B, -, rfl⟩ := mem_children.mp hz
    intro init hinit
    rw [step_path] at hinit
    rcases List.prefix_concat_iff.mp hinit with rfl | hinit
    · rw [pathRank, List.getLast?_concat, step_type]
      exact le_refl _
    · exact hlt.le.trans (ih init hinit)

theorem leads_concat (hb : b.WellFormed) {x : Place Class} (hx : b.IsPlace x) {A : Class}
    (hA : b.depth A < b.depth x.type) :
    Leads b.depth (b.depth b.mostDerivedClass) (x.path ++ [A]) A where
  last := List.getLast?_concat
  above init hinit hne := by
    rcases List.prefix_concat_iff.mp hinit with rfl | hinit
    · exact absurd rfl hne
    · exact hA.trans_le (depth_le_pathRank hb hx init hinit)

theorem leads_path (hb : b.WellFormed) {x : Place Class}
    (hx : Relation.TransGen (fun x y => y ∈ b.children x) b.start x) :
    Leads b.depth (b.depth b.mostDerivedClass) x.path x.type := by
  obtain ⟨y, hy, hx⟩ := Relation.TransGen.tail'_iff.mp hx
  have hlt := depth_children hb y x hx
  obtain ⟨B, -, rfl⟩ := mem_children.mp hx
  rw [step_type] at hlt
  rw [step_path, step_type]
  exact leads_concat hb hy hlt

def storedPathAt (b : ItaniumVTableBuilder Class Method) (x : Place Class) : List Class :=
  b.storedPath x.path x.type x.offset

theorem storedPathAt_of_ne_nil {x : Place Class} (hx : x.path ≠ []) : b.storedPathAt x = x.path :=
  if_neg hx

theorem storedPathAt_start : b.storedPathAt b.start = b.directParent.toList := by
  rw [storedPathAt, storedPath, if_pos (show b.start.path = [] from rfl)]
  rfl

theorem primaryBase_of_directParent {P : Class} (h : b.directParent = some P) :
    (b.recordLayout b.mostDerivedClass).primaryBase = some P ∧
      ((b.recordLayout b.mostDerivedClass).isPrimaryBaseVirtual = true →
        b.vbaseOffsetInLayoutClass P = b.mostDerivedClassOffset) := by
  rw [directParent, primaryBaseChain, List.tail_cons] at h
  split at h
  · cases h
  · rename_i Q hQ
    split at h
    · cases h
    · rename_i hoffset
      obtain rfl : Q = P := by
        cases hdepth : b.depth b.mostDerivedClass with
        | zero => rw [hdepth] at h; cases h
        | succ n =>
          rw [hdepth, primaryBaseChain] at h
          exact Option.some.inj h
      exact ⟨hQ, fun hvirtual => by simpa [hvirtual] using hoffset⟩

theorem path_ne_nil {x : Place Class}
    (hx : Relation.TransGen (fun x y => y ∈ b.children x) b.start x) : x.path ≠ [] := by
  obtain ⟨y, -, hx⟩ := Relation.TransGen.tail'_iff.mp hx
  obtain ⟨C, hC⟩ := path_children y x hx
  simp [hC]

def Event.write : Event Class → Write Class
  | .layout x => .store x.path x.type
  | .find x => .resolve x.path x.type

theorem storedPaths_write (events : List (Event Class)) :
    storedPaths (events.map Event.write) = (layouts events).map Place.path := by
  induction events with
  | nil => rfl
  | cons e events ih =>
    cases e with
    | layout x => exact congrArg (x.path :: ·) ih
    | find x => exact ih

theorem nodup_path_visits (hb : b.WellFormed) : (b.visits.map Place.path).Nodup := by
  refine nodup_labels (fun x y hy => path_children x y (visitedChildren_subset x hy))
    (fun x => ?_) _ _
  rw [visitedChildren]
  split
  · exact nodup_children hb x
  · exact List.nodup_nil

end Paths

variable [DecidableEq Class]

theorem SharedPath.leads (hb : b.WellFormed) {A : Class} {path : List Class}
    (h : b.SharedPath (b.children b.start) A path) :
    Leads b.depth (b.depth b.mostDerivedClass) path A := by
  obtain ⟨x, hx, hA, rfl⟩ := h.exists_place
  exact leads_concat hb hx ((isVirtualBase_of_primary hb hA).depth_lt hb)

/-- The primary base that the most derived class shares its vtable with gets none itself. -/
theorem isShared_of_directParent (hb : b.WellFormed) {x : Place Class}
    (hx : x ∈ b.children b.start) (h : b.directParent = some x.type) : b.IsShared x := by
  obtain ⟨hprimary, hoffset⟩ := primaryBase_of_directParent h
  obtain ⟨B, hB, rfl⟩ := mem_children.mp hx
  rw [step_type] at hprimary hoffset
  cases hvirtual : B.isVirtual with
  | false =>
    have hshares := sharesVTable_step (b := b) (x := b.start) rfl hvirtual
    rw [IsShared, if_neg (by simp [step_nonVirtual b.start hvirtual]), hshares]
    exact decide_eq_true hprimary
  | true =>
    rw [IsShared, if_pos (by rw [step_virtual b.start hvirtual]), step_type]
    refine (mem_sharedVirtualBases hb).mpr ⟨b.start, .refl, ?_⟩
    cases hkind : (b.recordLayout b.mostDerivedClass).isPrimaryBaseVirtual with
    | true =>
      refine Option.filter_eq_some_iff.mpr ⟨hprimary, ?_⟩
      have hstart : (b.recordLayout b.start.type).isPrimaryBaseVirtual = true := hkind
      rw [hstart, Bool.true_and, Bool.or_eq_true]
      exact .inr (decide_eq_true (hoffset hkind))
    | false =>
      -- The bases of a class are distinct, so the primary base is no virtual one.
      obtain ⟨hbase, -⟩ := hb.nonVirtual_primary _ _ hprimary hkind
      have heq := List.inj_on_of_nodup_map (hb.bases_nodup b.mostDerivedClass) hB hbase rfl
      rw [heq] at hvirtual
      cases hvirtual

/-- A place with the path of the sub-vtable of the most derived class shares that one. -/
theorem isShared_of_storedPathAt_start (hb : b.WellFormed) {x : Place Class} (hx : b.IsPlace x)
    (hne : x.path ≠ []) (h : b.storedPathAt b.start = x.path) :
    b.directParent = some x.type ∧ b.IsShared x := by
  rw [storedPathAt_start] at h
  cases hparent : b.directParent with
  | none =>
    rw [hparent] at h
    exact absurd h.symm hne
  | some P =>
    rcases Relation.ReflTransGen.cases_tail hx with rfl | ⟨y, hy, hchild⟩
    · exact absurd rfl hne
    · obtain ⟨B, hB, rfl⟩ := mem_children.mp hchild
      rw [hparent, step_path, Option.toList_some] at h
      obtain ⟨hpath, hlast⟩ := @List.append_inj' _ [] _ _ _ h rfl
      obtain rfl : y = b.start := IsPlace.eq_of_path hb hy .refl hpath.symm
      obtain rfl : P = B.type := (List.cons.inj hlast).1
      rw [step_type]
      exact ⟨rfl, isShared_of_directParent hb hchild (by rw [hparent, step_type])⟩

theorem storedPathAt_injOn (hb : b.WellFormed) {x y : Place Class}
    (hx : x ∈ layouts (b.primaryEvents ++ b.virtualEvents))
    (hy : y ∈ layouts (b.primaryEvents ++ b.virtualEvents))
    (h : b.storedPathAt x = b.storedPathAt y) : x = y := by
  have hstart : ∀ z, b.IsPlace z → z.path = [] → z = b.start :=
    fun z hz hpath => hz.eq_of_path hb .refl hpath
  have hone : ∀ z ∈ layouts (b.primaryEvents ++ b.virtualEvents), z.path ≠ [] →
      b.storedPathAt b.start ≠ b.storedPathAt z := by
    intro z hz hne heq
    rw [storedPathAt_of_ne_nil hne] at heq
    exact not_isShared_of_mem_layouts hb hz
      (isShared_of_storedPathAt_start hb (isPlace_of_mem_layouts hz) hne heq).2
  have hxplace := isPlace_of_mem_layouts hx
  have hyplace := isPlace_of_mem_layouts hy
  by_cases hxpath : x.path = []
  · obtain rfl := hstart x hxplace hxpath
    by_cases hypath : y.path = []
    · exact (hstart y hyplace hypath).symm
    · exact absurd h (hone y hy hypath)
  · by_cases hypath : y.path = []
    · obtain rfl := hstart y hyplace hypath
      exact absurd h.symm (hone x hx hxpath)
    · rw [storedPathAt_of_ne_nil hxpath, storedPathAt_of_ne_nil hypath] at h
      exact hxplace.eq_of_path hb hyplace h

theorem nodup_storedPathAt (hb : b.WellFormed) :
    ((layouts (b.primaryEvents ++ b.virtualEvents)).map b.storedPathAt).Nodup :=
  (nodup_layouts hb).of_map.map_on fun _ hx _ hy h => storedPathAt_injOn hb hx hy h

theorem resolvedPaths_schedule (known VBases : List Class) (visits : List (Place Class)) :
    (resolvedPaths ((b.schedule known VBases visits).map Event.write)).Sublist
      (visits.map Place.path) := by
  induction visits generalizing VBases with
  | nil => exact List.Sublist.refl _
  | cons x visits ih =>
    have hlayouts : ∀ xs : List (Place Class),
        resolvedPaths ((xs.map Event.layout).map Event.write) = [] := by
      intro xs
      induction xs with
      | nil => rfl
      | cons x xs ih => exact ih
    rcases b.schedule_cases known VBases x with ⟨-, -, -, heq⟩ | ⟨-, heq⟩ | ⟨-, -, heq⟩
    · rw [heq, List.map_append, resolvedPaths_append, hlayouts, List.nil_append]
      exact (ih _).cons _
    · rw [heq]
      exact (ih VBases).cons_cons _
    · rw [heq]
      exact (ih VBases).cons _

/-- A further path is looked up where the base is known, or has been laid out. -/
theorem schedule_eq_append_find {known VBases : List Class} {visits : List (Place Class)}
    {done rest : List (Event Class)} {x : Place Class}
    (h : b.schedule known VBases visits = done ++ .find x :: rest) :
    ∃ before after, visits = before ++ x :: after ∧ done = b.schedule known VBases before ∧
      (x.type ∈ known ∨ x.steps = [] ∧
        (x.type ∈ VBases ∨ ∃ y ∈ layouts done, y.type = x.type)) := by
  induction visits generalizing VBases done with
  | nil => cases done <;> cases h
  | cons v visits ih =>
    rcases b.schedule_cases known VBases v with ⟨-, -, -, heq⟩ | ⟨hcase, heq⟩ | ⟨-, -, heq⟩
    · have hbehind : ∃ done', done = (b.subVTablesAt v).map .layout ++ done' ∧
          b.schedule known (VBases ++ [v.type]) visits = done' ++ .find x :: rest := by
        rw [heq, List.append_eq_append_iff] at h
        rcases h with ⟨done', hdone, hrest⟩ | ⟨mid, hblock, hrest⟩
        · exact ⟨done', hdone, hrest⟩
        · cases mid with
          | nil => exact ⟨[], by simp [hblock], hrest.symm⟩
          | cons e mid =>
            obtain ⟨rfl, -⟩ := List.cons.inj hrest
            have hmem : Event.find x ∈ (b.subVTablesAt v).map Event.layout := by simp [hblock]
            obtain ⟨y, -, hy⟩ := List.mem_map.mp hmem
            cases hy
      obtain ⟨done', rfl, hrest⟩ := hbehind
      obtain ⟨before, after, rfl, rfl, hx⟩ := ih hrest
      refine ⟨v :: before, after, rfl, (heq before).symm, hx.imp_right fun ⟨hsteps, hseen⟩ =>
        ⟨hsteps, ?_⟩⟩
      rw [layouts_append, layouts_map_layout]
      rcases hseen with hseen | ⟨y, hy, htype⟩
      · rcases List.mem_append.mp hseen with hold | hlast
        · exact .inl hold
        · exact .inr ⟨v, List.mem_append_left _ List.mem_cons_self,
            (List.mem_singleton.mp hlast).symm⟩
      · exact .inr ⟨y, List.mem_append_right _ hy, htype⟩
    · rw [heq] at h
      cases done with
      | nil =>
        obtain ⟨hfind, -⟩ := List.cons.inj h
        obtain rfl : v = x := Event.find.inj hfind
        exact ⟨[], visits, rfl, rfl, hcase.imp_right fun ⟨hsteps, hseen⟩ => ⟨hsteps, .inl hseen⟩⟩
      | cons e done =>
        obtain ⟨rfl, hrest⟩ := List.cons.inj h
        obtain ⟨before, after, rfl, rfl, hx⟩ := ih hrest
        exact ⟨v :: before, after, rfl, (heq before).symm, hx⟩
    · rw [heq] at h
      obtain ⟨before, after, rfl, rfl, hx⟩ := ih h
      exact ⟨v :: before, after, rfl, (heq before).symm, hx⟩

theorem schedule_append (known VBases : List Class) (before after : List (Place Class)) :
    ∃ VBases', b.schedule known VBases (before ++ after) =
      b.schedule known VBases before ++ b.schedule known VBases' after := by
  induction before generalizing VBases with
  | nil => exact ⟨VBases, rfl⟩
  | cons v before ih =>
    rw [List.cons_append]
    rcases b.schedule_cases known VBases v with ⟨-, -, -, heq⟩ | ⟨-, heq⟩ | ⟨-, -, heq⟩
    · obtain ⟨VBases', hrest⟩ := ih (VBases ++ [v.type])
      exact ⟨VBases', by rw [heq, heq, hrest, List.append_assoc]⟩
    · obtain ⟨VBases', hrest⟩ := ih VBases
      exact ⟨VBases', by rw [heq, heq, hrest, List.cons_append]⟩
    · obtain ⟨VBases', hrest⟩ := ih VBases
      exact ⟨VBases', by rw [heq, heq, hrest]⟩

theorem schedule_append_cons_of_known {known : List Class} {x : Place Class} (hx : x.type ∈ known)
    (before after : List (Place Class)) (VBases : List Class) : ∃ rest,
      b.schedule known VBases (before ++ x :: after) =
        b.schedule known VBases before ++ .find x :: rest := by
  obtain ⟨VBases', heq⟩ := b.schedule_append known VBases before (x :: after)
  rcases b.schedule_cases known VBases' x with ⟨-, hunknown, -⟩ | ⟨-, hx⟩ | ⟨hunknown, -⟩
  · exact absurd hx hunknown
  · exact ⟨_, by rw [heq, hx]⟩
  · exact absurd hx hunknown

/-- A dynamic virtual base that was visited has been laid out or looked up. -/
theorem mem_paths_schedule {known VBases : List Class} {visits : List (Place Class)}
    {x : Place Class} (hx : x ∈ visits) (hsteps : x.steps = [])
    (hdynamic : b.isDynamicClass x.type = true) :
    x.path ∈ storedPaths ((b.schedule known VBases visits).map Event.write) ++
      resolvedPaths ((b.schedule known VBases visits).map Event.write) := by
  induction visits generalizing VBases with
  | nil => cases hx
  | cons v visits ih =>
    have hrest := fun hx VBases => List.mem_append.mp (@ih VBases hx)
    rw [List.mem_append]
    rcases b.schedule_cases known VBases v with ⟨-, -, -, heq⟩ | ⟨-, heq⟩ | ⟨-, hskip, heq⟩
    · rw [heq, List.map_append, storedPaths_append, resolvedPaths_append, List.mem_append,
        List.mem_append]
      rcases List.mem_cons.mp hx with rfl | hx
      · refine .inl (.inl ?_)
        rw [storedPaths_write, layouts_map_layout]
        exact List.mem_map_of_mem List.mem_cons_self
      · exact (hrest hx _).imp .inr .inr
    · rw [heq]
      rcases List.mem_cons.mp hx with rfl | hx
      · exact .inr List.mem_cons_self
      · exact (hrest hx VBases).imp id (List.mem_cons_of_mem _)
    · rw [heq]
      rcases List.mem_cons.mp hx with rfl | hx
      · exact absurd ⟨hsteps, hdynamic⟩ hskip
      · exact hrest hx VBases

/-- The paths that are looked up or laid out are at or below visited places. -/
theorem exists_visit_of_mem_paths {known VBases : List Class} {visits : List (Place Class)}
    {path : List Class}
    (h : path ∈ storedPaths ((b.schedule known VBases visits).map Event.write) ++
      resolvedPaths ((b.schedule known VBases visits).map Event.write)) :
    ∃ x ∈ visits, x.path <+: path := by
  rcases List.mem_append.mp h with hstored | hresolved
  · rw [storedPaths_write] at hstored
    obtain ⟨y, hy, rfl⟩ := List.mem_map.mp hstored
    obtain ⟨x, hx, -, -, -, hyx⟩ := mem_layouts_schedule hy
    refine ⟨x, hx, ?_⟩
    rcases List.mem_cons.mp hyx with rfl | hyx
    · exact List.prefix_refl _
    · obtain ⟨t, -, -, hpath⟩ := (mem_secondaries hyx).2.1.steps
      exact ⟨t, hpath.symm⟩
  · obtain ⟨x, hx, rfl⟩ := List.mem_map.mp ((resolvedPaths_schedule _ _ _).subset hresolved)
    exact ⟨x, hx, List.prefix_refl _⟩

/-- The last of some places that is of a class. -/
def latest (xs : List (Place Class)) (A : Class) : Option (Place Class) :=
  xs.reverse.find? fun x => x.type = A

theorem latest_concat (xs : List (Place Class)) (x : Place Class) (A : Class) :
    latest (xs ++ [x]) A = if x.type = A then some x else latest xs A := by
  rw [latest, List.reverse_concat, List.find?_cons]
  by_cases hA : x.type = A
  · simp [hA]
  · simp [hA, latest]

theorem latest_eq_none {xs : List (Place Class)} {A : Class} :
    latest xs A = none ↔ ∀ x ∈ xs, x.type ≠ A := by
  simp [latest]

theorem of_latest_eq_some {xs : List (Place Class)} {A : Class} {x : Place Class}
    (h : latest xs A = some x) : x ∈ xs ∧ x.type = A :=
  ⟨List.mem_reverse.mp (List.mem_of_find?_eq_some h), by simpa using List.find?_some h⟩

theorem defsAfter_write (defs : Class → Option (List Class)) (events : List (Event Class))
    (A : Class) : Table.defsAfter defs (events.map Event.write) A =
      ((latest (layouts events) A).map Place.path).or (defs A) := by
  induction events using List.reverseRecOn with
  | nil => rfl
  | append_singleton events e ih =>
    rw [List.map_append, List.map_singleton, Table.defsAfter_concat, layouts_append]
    cases e with
    | layout x =>
      have hlayouts : layouts [Event.layout x] = [x] := rfl
      rw [hlayouts, latest_concat]
      by_cases hA : x.type = A
      · subst hA
        simp [Event.write]
      · rw [if_neg hA, ← ih]
        exact Function.update_of_ne (Ne.symm hA) _ _
    | find x =>
      have hlayouts : layouts [Event.find x] = [] := rfl
      rw [hlayouts, List.append_nil, ← ih]
      rfl

theorem table_layoutAt (x : Place Class) (st : VTableState Class Method) :
    (b.layoutAt x st).table = { st.table.write (.store (b.storedPathAt x) x.type) with
      defs := (b.layoutAt x st).virtualBasesDefMap } := by
  simp [VTableState.table, layoutAt, layoutPrimaryVTable, Table.write, storedPathAt]

/-- Below a virtual base an event writes to the table as it stands. -/
theorem table_apply {e : Event Class} (he : ∀ x, e = .layout x → x.root.isSome ∧ x.path ≠ [])
    (st : VTableState Class Method) : (b.apply st e).table = st.table.write e.write := by
  cases e with
  | layout x =>
    obtain ⟨hroot, hpath⟩ := he x rfl
    have hstored := storedPathAt_of_ne_nil (b := b) hpath
    have hdefs : (b.layoutAt x st).virtualBasesDefMap =
        Function.update st.virtualBasesDefMap x.type (some x.path) := by
      rw [← hstored]
      exact if_pos hroot
    rw [apply, table_layoutAt, hdefs, hstored]
    rfl
  | find x => rfl

theorem table_foldl_apply {events : List (Event Class)}
    (hevents : ∀ x ∈ layouts events, x.root.isSome ∧ x.path ≠ [])
    (st : VTableState Class Method) :
    (events.foldl b.apply st).table = (events.map Event.write).foldl Table.write st.table := by
  induction events generalizing st with
  | nil => rfl
  | cons e events ih =>
    rw [List.foldl_cons, List.map_cons, List.foldl_cons, ← table_apply (b := b)]
    · refine ih (fun x hx => hevents x ?_) _
      exact ((List.sublist_cons_self e events).filterMap Event.layout?).subset hx
    · rintro x rfl
      exact hevents x List.mem_cons_self

theorem fresh_primaryEvents (hb : b.WellFormed) :
    (b.primaryEvents.foldl b.apply {}).table.Fresh ∧
      (b.primaryEvents.foldl b.apply {}).table.stored.map Prod.fst =
        (layouts b.primaryEvents).map b.storedPathAt := by
  refine foldl_rule (fun done (st : VTableState Class Method) => st.table.Fresh ∧
    st.table.stored.map Prod.fst = (layouts done).map b.storedPathAt) ?step ?start
  case start =>
    refine ⟨⟨fun path v => ?_, rfl, rfl⟩, rfl⟩
    simp [VTableState.table]
  case step =>
    rintro done e rest st hevents ⟨hfresh, hstored⟩
    have hmem : e ∈ b.primaryEvents := by simp [hevents]
    obtain ⟨x, -, rfl⟩ := List.mem_map.mp hmem
    have hlayouts : layouts [Event.layout x] = [x] := rfl
    rw [apply, table_layoutAt, layouts_append, hlayouts, List.map_append, ← hstored]
    refine ⟨hfresh.store ?_ x.type _, List.map_append⟩
    have hnodup := nodup_storedPathAt hb
    have hall : layouts (b.primaryEvents ++ b.virtualEvents) =
        layouts done ++ x :: layouts (rest ++ b.virtualEvents) := by
      rw [hevents, List.append_assoc, layouts_append]
      rfl
    rw [hall, List.map_append, List.map_cons, List.nodup_middle, List.nodup_cons] at hnodup
    rw [hstored]
    exact fun hin => hnodup.1 (List.mem_append_left _ hin)

theorem virtual_of_mem_layouts {x : Place Class} (hx : x ∈ layouts b.virtualEvents) :
    Relation.TransGen (fun x y => y ∈ b.children x) b.start x ∧ x.root.isSome ∧ x.path ≠ [] := by
  obtain ⟨v, hv, ⟨hroot, -⟩, -, -, hxv⟩ := mem_layouts_virtualEvents hx
  have hplace : Relation.TransGen (fun x y => y ∈ b.children x) b.start x := by
    rcases List.mem_cons.mp hxv with rfl | hxv
    · exact transGen_of_mem_visits hv
    · exact (transGen_of_mem_visits hv).trans (mem_secondaries hxv).1
  exact ⟨hplace, by rw [root_of_mem_subVTablesAt hxv, hroot]; rfl, path_ne_nil hplace⟩

/-- The virtual bases are laid out by regular writes. -/
theorem regular_virtualEvents (hb : b.WellFormed) {st : VTableState Class Method}
    (hst : b.Determined (b.primaryEvents.foldl b.apply {}) st) :
    st.table.Regular b.depth (b.depth b.mostDerivedClass) (b.virtualEvents.map Event.write) := by
  obtain ⟨hfresh, hstored⟩ := fresh_primaryEvents hb
  have hframe : st.table.entries = (b.primaryEvents.foldl b.apply {}).table.entries ∧
      st.table.stored = (b.primaryEvents.foldl b.apply {}).table.stored ∧
      st.table.next = (b.primaryEvents.foldl b.apply {}).table.next ∧
      st.table.resolved = (b.primaryEvents.foldl b.apply {}).table.resolved := by
    obtain ⟨defMap, known, rfl⟩ := hst.frame
    exact ⟨rfl, rfl, rfl, rfl⟩
  obtain ⟨hentries, hsubs, hnext, hresolved⟩ := hframe
  constructor
  case fresh =>
    refine ⟨?_, ?_, ?_⟩
    · rw [hentries, hsubs]
      exact hfresh.lookup_iff
    · rw [hsubs, hnext]
      exact hfresh.numbers
    · rw [hresolved]
      exact hfresh.resolved
  case stored_nodup =>
    have hpaths : (layouts b.virtualEvents).map Place.path =
        (layouts b.virtualEvents).map b.storedPathAt :=
      List.map_congr_left fun x hx =>
        (storedPathAt_of_ne_nil (virtual_of_mem_layouts hx).2.2).symm
    rw [hsubs, hstored, storedPaths_write, hpaths, ← List.map_append, ← layouts_append]
    exact nodup_storedPathAt hb
  case resolved_nodup => exact (nodup_path_visits hb).sublist (resolvedPaths_schedule _ _ _)
  case defs_lead => exact fun A path hA => (hst.sharedPath A path hA).leads hb
  case store_leads =>
    intro path node hmem
    obtain ⟨e, he, hwrite⟩ := List.mem_map.mp hmem
    cases e with
    | layout x =>
      obtain ⟨rfl, rfl⟩ := Write.store.inj hwrite
      exact leads_path hb (virtual_of_mem_layouts (List.mem_filterMap.mpr ⟨_, he, rfl⟩)).1
    | find x => cases hwrite
  case resolve_leads =>
    intro path node hmem
    obtain ⟨e, he, hwrite⟩ := List.mem_map.mp hmem
    cases e with
    | layout x => cases hwrite
    | find x =>
      obtain ⟨rfl, rfl⟩ := Write.resolve.inj hwrite
      obtain ⟨done, rest, hevents⟩ := List.append_of_mem he
      obtain ⟨before, after, hvisits, -⟩ := schedule_eq_append_find hevents
      exact leads_path hb (transGen_of_mem_visits (by rw [hvisits]; simp))
  case defined =>
    intro done path node rest hwrites
    obtain ⟨events, behind, hevents, rfl, hbehind⟩ := List.map_eq_append_iff.mp hwrites
    obtain ⟨e, events', rfl, hwrite, -⟩ := List.map_eq_cons_iff.mp hbehind
    cases e with
    | layout x => cases hwrite
    | find x =>
      obtain ⟨rfl, rfl⟩ := Write.resolve.inj hwrite
      obtain ⟨-, -, -, -, hx⟩ := schedule_eq_append_find hevents
      rw [defsAfter_write]
      rcases hx with hknown | ⟨-, hseen | ⟨y, hy, htype⟩⟩
      · have hdef := (hst.defined x.type).mp hknown
        cases hlatest : latest (layouts events) x.type with
        | none => exact hdef
        | some y => rfl
      · cases hseen
      · cases hlatest : latest (layouts events) x.type with
        | none => exact absurd htype (latest_eq_none.mp hlatest y hy)
        | some y => rfl

end ItaniumVTableBuilder

end RhoFEM.Frontend
