import RhoFEM.Frontend.PrimaryBases

/-! The run of the builder as a list of events, and the sub-vtables that it lays out. -/

namespace RhoFEM.Frontend

open RhoFEM.Lib.Fold RhoFEM.Lib.Search RhoFEM.Lib.Descendants

namespace ItaniumVTableBuilder

section Layouts

variable {Class Method : Type} {b : ItaniumVTableBuilder Class Method}

def Event.layout? : Event Class → Option (Place Class)
  | .layout x => some x
  | .find _ => none

/-- The places that get a sub-vtable, in order. -/
def layouts (events : List (Event Class)) : List (Place Class) := events.filterMap Event.layout?

@[simp] theorem layouts_map_layout (xs : List (Place Class)) :
    layouts (xs.map Event.layout) = xs := by
  induction xs with
  | nil => rfl
  | cons x xs ih => exact congrArg (x :: ·) ih

@[simp] theorem layouts_append (events events' : List (Event Class)) :
    layouts (events ++ events') = layouts events ++ layouts events' := List.filterMap_append

theorem virtualAt_of_transGen {x : Place Class}
    (hx : Relation.TransGen (fun x y => y ∈ b.children x) b.start x) (hsteps : x.steps = []) :
    b.VirtualAt x := by
  obtain ⟨y, -, hy⟩ := Relation.TransGen.tail'_iff.mp hx
  obtain ⟨B, -, rfl⟩ := mem_children.mp hy
  exact virtualAt_step hsteps

theorem visitedChildren_subset (x : Place Class) : b.visitedChildren x ⊆ b.children x := by
  intro y hy
  rw [visitedChildren] at hy
  split at hy
  · exact hy
  · cases hy

theorem transGen_of_mem_visits {x : Place Class} (hx : x ∈ b.visits) :
    Relation.TransGen (fun x y => y ∈ b.children x) b.start x :=
  transGen_of_mem_of_subset visitedChildren_subset hx

end Layouts

variable {Class Method : Type} [DecidableEq Class] (b : ItaniumVTableBuilder Class Method)

def primaryEvents : List (Event Class) := (b.subVTablesAt b.start).map .layout

def virtualEvents : List (Event Class) := b.schedule b.sharedVirtualBases [] b.visits

variable {b}

/-- A visited place gets its sub-vtables, a further path to them, or nothing. -/
theorem schedule_cases (known VBases : List Class) (x : Place Class) :
    (x.steps = [] ∧ x.type ∉ known ∧ x.type ∉ VBases ∧
      ∀ visits, b.schedule known VBases (x :: visits) = (b.subVTablesAt x).map .layout ++
        b.schedule known (VBases ++ [x.type]) visits) ∨
    ((x.type ∈ known ∨ x.steps = [] ∧ x.type ∈ VBases) ∧
      ∀ visits, b.schedule known VBases (x :: visits) =
        .find x :: b.schedule known VBases visits) ∨
    (x.type ∉ known ∧ ¬ (x.steps = [] ∧ b.isDynamicClass x.type = true) ∧
      ∀ visits, b.schedule known VBases (x :: visits) = b.schedule known VBases visits) := by
  simp only [schedule]
  by_cases hknown : x.type ∈ known
  · exact .inr (.inl ⟨.inl hknown, fun _ => by simp [hknown]⟩)
  · by_cases hvirtual : x.steps = [] ∧ b.isDynamicClass x.type = true
    · by_cases hseen : x.type ∈ VBases
      · exact .inr (.inl ⟨.inr ⟨hvirtual.1, hseen⟩, fun _ => by simp [hknown, hvirtual, hseen]⟩)
      · exact .inl ⟨hvirtual.1, hknown, hseen, fun _ => by simp [hknown, hvirtual, hseen]⟩
    · refine .inr (.inr ⟨hknown, hvirtual, fun _ => ?_⟩)
      have hcond : (x.steps.isEmpty && b.isDynamicClass x.type && decide (x.type ∉ known)) =
          false := by
        rw [Bool.eq_false_iff]
        intro hall
        simp only [Bool.and_eq_true] at hall
        exact hvirtual ⟨List.isEmpty_iff.mp hall.1.1, hall.1.2⟩
      rw [hcond, if_neg Bool.false_ne_true, if_neg hknown]

/-- Only which classes are known matters for the schedule. -/
theorem schedule_congr {known known' : List Class} (h : ∀ A, A ∈ known ↔ A ∈ known')
    (VBases : List Class) (visits : List (Place Class)) :
    b.schedule known VBases visits = b.schedule known' VBases visits := by
  induction visits generalizing VBases with
  | nil => rfl
  | cons x visits ih =>
    rw [schedule, schedule, ih, ih]
    simp only [h]

theorem mem_nonVirtualChildren {x y : Place Class} : y ∈ b.nonVirtualChildren x ↔
    ∃ B ∈ b.bases x.type, B.isVirtual = false ∧ b.isDynamicClass B.type = true ∧
      (b.isBuildingConstructorVTable = true → x.root = none → b.numVBases B.type ≠ 0) ∧
        b.step x B = y := by
  simp only [nonVirtualChildren, List.mem_map, List.mem_filter, Bool.and_eq_true,
    Bool.not_eq_true', Bool.and_eq_false_imp, Option.isNone_iff_eq_none, decide_eq_false_iff_not,
    and_imp, and_assoc, ne_eq]

theorem nonVirtualChildren_subset (x : Place Class) : b.nonVirtualChildren x ⊆ b.children x := by
  intro y hy
  obtain ⟨B, hB, -, -, -, rfl⟩ := mem_nonVirtualChildren.mp hy
  exact mem_children.mpr ⟨B, hB, rfl⟩

/-- A base reached without virtual steps. -/
structure NonVirtualBelow (x y : Place Class) : Prop where
  root : y.root = x.root
  steps : ∃ t, t ≠ [] ∧ y.steps = x.steps ++ t ∧ y.path = x.path ++ t

theorem nonVirtualBelow_of_mem {fuel : Nat} {x y : Place Class}
    (hy : y ∈ descendants b.nonVirtualChildren fuel x) : NonVirtualBelow x y := by
  refine descendants_induction (P := NonVirtualBelow x) (fun y hy => ?_) (fun y hxy z hz => ?_) y hy
  · obtain ⟨B, -, hB, -, -, rfl⟩ := mem_nonVirtualChildren.mp hy
    rw [step_nonVirtual x hB]
    exact ⟨rfl, [B.type], List.cons_ne_nil _ _, rfl, rfl⟩
  · obtain ⟨B, -, hB, -, -, rfl⟩ := mem_nonVirtualChildren.mp hz
    obtain ⟨t, ht, hsteps, hpath⟩ := hxy.steps
    rw [step_nonVirtual y hB]
    exact ⟨hxy.root, t ++ [B.type], by simp, by rw [hsteps, List.append_assoc],
      by rw [hpath, List.append_assoc]⟩

theorem mem_secondaries {fuel : Nat} {x y : Place Class} (hy : y ∈ b.secondaries fuel x) :
    Relation.TransGen (fun x y => y ∈ b.children x) x y ∧ NonVirtualBelow x y ∧
      b.sharesVTable y = false := by
  obtain ⟨hy, hshares⟩ := List.mem_filter.mp hy
  exact ⟨transGen_of_mem_of_subset nonVirtualChildren_subset hy, nonVirtualBelow_of_mem hy,
    by simpa using hshares⟩

theorem root_of_mem_subVTablesAt {x y : Place Class} (hy : y ∈ b.subVTablesAt x) :
    y.root = x.root := by
  rcases List.mem_cons.mp hy with rfl | hy
  · rfl
  · exact (mem_secondaries hy).2.1.root

/-- Sub-vtables without a virtual base above them give no definitions. -/
theorem foldl_apply_virtualBasesDefMap {events : List (Event Class)}
    (hevents : ∀ e ∈ events, ∃ x, e = .layout x ∧ x.root = none) (st : VTableState Class Method) :
    (events.foldl b.apply st).virtualBasesDefMap = st.virtualBasesDefMap := by
  induction events generalizing st with
  | nil => rfl
  | cons e events ih =>
    obtain ⟨⟨x, rfl, hroot⟩, hrest⟩ := List.forall_mem_cons.mp hevents
    rw [List.foldl_cons, ih hrest, apply, layoutAt, layoutPrimaryVTable, hroot]
    rfl

/-- The run of the builder. -/
theorem layoutVTable_eq (hb : b.WellFormed) :
    ∃ st, b.Determined (b.primaryEvents.foldl b.apply {}) st ∧ ∃ components,
      b.layoutVTable =
        { b.virtualEvents.foldl b.apply st with components := components } := by
  have hprimary : b.layoutPrimaryAndSecondaryVTables [] ⟨b.mostDerivedClass, 0⟩ false
      b.mostDerivedClassIsVirtual b.mostDerivedClassOffset {} =
        b.primaryEvents.foldl b.apply {} := by
    have h := layoutPrimaryAndSecondaryVTables_eq b.start rfl {}
    rw [primaryEvents, List.foldl_map]
    exact h
  have hroots : ∀ e ∈ b.primaryEvents, ∃ x, e = .layout x ∧ x.root = none := by
    intro e he
    obtain ⟨x, hx, rfl⟩ := List.mem_map.mp he
    exact ⟨x, rfl, root_of_mem_subVTablesAt hx⟩
  have hdefMap := foldl_apply_virtualBasesDefMap (b := b) hroots {}
  have hdetermined := determined hb hdefMap (foldl_apply_primaryVirtualBases _ _)
  refine ⟨_, hdetermined, ?_⟩
  have hvisits := layoutVTablesForVirtualBases_eq (b := b) (b.depth b.mostDerivedClass + 1)
    (x := b.start) (.inl rfl)
  have hplaces : ∀ x ∈ b.visits, x.type = b.owner x.root x.steps ∧
      (x.steps = [] → b.VirtualAt x) := by
    intro x hx
    have hplace := transGen_of_mem_visits hx
    exact ⟨IsPlace.owner hplace.to_reflTransGen, virtualAt_of_transGen hplace⟩
  have hvirtual := fun st => foldl_layoutVirtualBaseAt hplaces [] st
  rw [layoutVTable, hprimary]
  dsimp only
  have hrest := hvirtual _ |>.trans (congrArg (fun events => List.foldl b.apply _ events)
    (schedule_congr hdetermined.known [] b.visits))
  have hall := (congrArg Prod.snd (hvisits ([], _))).trans hrest
  split
  · exact ⟨_, congrArg (fun st : VTableState Class Method =>
      { st with components := st.components ++ [VTableComponent.other] }) hall⟩
  · exact ⟨_, hall⟩

end ItaniumVTableBuilder

end RhoFEM.Frontend
