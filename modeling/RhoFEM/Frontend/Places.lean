import RhoFEM.Frontend.VTableBuilder
import RhoFEM.Lib.Descendants

/-! The inheritance paths of a class in the order in which the builder walks them, and its run as
a list of what it does at them. -/

namespace RhoFEM.Frontend

open RhoFEM.Lib.Search RhoFEM.Lib.Descendants

/-- An inheritance path from the most derived class and the base subobject that it leads to. -/
structure Place (Class : Type) where
  path : List Class
  /-- The last virtual base on the path. -/
  root : Option Class
  /-- The non-virtual bases behind it. -/
  steps : List Class
  type : Class
  baseOffset : Nat
  offset : Nat
  deriving DecidableEq

namespace ItaniumVTableBuilder

section Places

variable {Class Method : Type} (b : ItaniumVTableBuilder Class Method)

def start : Place Class :=
  ⟨[], none, [], b.mostDerivedClass, 0, b.mostDerivedClassOffset⟩

def step (x : Place Class) (B : BaseSpecifier Class) : Place Class :=
  if B.isVirtual then
    ⟨x.path ++ [B.type], some B.type, [], B.type,
      (b.recordLayout b.mostDerivedClass).vbaseClassOffset B.type,
      b.vbaseOffsetInLayoutClass B.type⟩
  else
    ⟨x.path ++ [B.type], x.root, x.steps ++ [B.type], B.type,
      x.baseOffset + (b.recordLayout x.type).baseClassOffset B.type,
      x.offset + (b.recordLayout x.type).baseClassOffset B.type⟩

def children (x : Place Class) : List (Place Class) := (b.bases x.type).map (b.step x)

/-- A place and all those below it. -/
def placesBelow (x : Place Class) : List (Place Class) :=
  x :: descendants b.children (b.depth x.type + 1) x

def places : List (Place Class) := b.placesBelow b.start

/-- The class that a base subobject is of. -/
def owner (root : Option Class) (steps : List Class) : Class :=
  steps.getLast?.getD (root.getD b.mostDerivedClass)

/-- What a place without non-virtual steps behind its root holds. -/
def VirtualAt (x : Place Class) : Prop :=
  x.root = some x.type ∧
    x.baseOffset = (b.recordLayout b.mostDerivedClass).vbaseClassOffset x.type ∧
      x.offset = b.vbaseOffsetInLayoutClass x.type

variable {b}

theorem step_virtual (x : Place Class) {B : BaseSpecifier Class} (hB : B.isVirtual = true) :
    b.step x B = ⟨x.path ++ [B.type], some B.type, [], B.type,
      (b.recordLayout b.mostDerivedClass).vbaseClassOffset B.type,
      b.vbaseOffsetInLayoutClass B.type⟩ := if_pos hB

theorem step_nonVirtual (x : Place Class) {B : BaseSpecifier Class} (hB : B.isVirtual = false) :
    b.step x B = ⟨x.path ++ [B.type], x.root, x.steps ++ [B.type], B.type,
      x.baseOffset + (b.recordLayout x.type).baseClassOffset B.type,
      x.offset + (b.recordLayout x.type).baseClassOffset B.type⟩ :=
  if_neg (Bool.eq_false_iff.mp hB)

@[simp] theorem step_path (x : Place Class) (B : BaseSpecifier Class) :
    (b.step x B).path = x.path ++ [B.type] := by
  cases hB : B.isVirtual with
  | true => rw [step_virtual x hB]
  | false => rw [step_nonVirtual x hB]

@[simp] theorem step_type (x : Place Class) (B : BaseSpecifier Class) :
    (b.step x B).type = B.type := by
  cases hB : B.isVirtual with
  | true => rw [step_virtual x hB]
  | false => rw [step_nonVirtual x hB]

theorem step_owner (x : Place Class) (B : BaseSpecifier Class) :
    (b.step x B).type = b.owner (b.step x B).root (b.step x B).steps := by
  cases hB : B.isVirtual with
  | true => rw [step_virtual x hB]; rfl
  | false => simp [step_nonVirtual x hB, owner]

theorem virtualAt_step {x : Place Class} {B : BaseSpecifier Class}
    (h : (b.step x B).steps = []) : b.VirtualAt (b.step x B) := by
  cases hB : B.isVirtual with
  | true => rw [step_virtual x hB]; exact ⟨rfl, rfl, rfl⟩
  | false => simp [step_nonVirtual x hB] at h

theorem steps_isEmpty_step (x : Place Class) (B : BaseSpecifier Class) :
    (b.step x B).steps.isEmpty = B.isVirtual := by
  cases hB : B.isVirtual with
  | true => rw [step_virtual x hB]; rfl
  | false => rw [step_nonVirtual x hB]; cases x.steps <;> rfl

end Places

section Events

variable {Class Method : Type} [DecidableEq Class] (b : ItaniumVTableBuilder Class Method)

/-- A non-virtual base that is the primary base of its class has no sub-vtable of its own. -/
def sharesVTable (x : Place Class) : Bool :=
  (b.recordLayout (b.owner x.root x.steps.dropLast)).primaryBase = some x.type

/-- The non-virtual bases that may get a sub-vtable. -/
def nonVirtualChildren (x : Place Class) : List (Place Class) :=
  ((b.bases x.type).filter fun B => !B.isVirtual && b.isDynamicClass B.type &&
    !(b.isBuildingConstructorVTable && x.root.isNone && b.numVBases B.type = 0)).map (b.step x)

def secondaries (fuel : Nat) (x : Place Class) : List (Place Class) :=
  (descendants b.nonVirtualChildren fuel x).filter fun y => !b.sharesVTable y

/-- A place that the builder lays out together with its secondary vtables. -/
def subVTablesAt (x : Place Class) : List (Place Class) :=
  x :: b.secondaries (b.depth x.type + 1) x

/-- The virtual base that a subobject shares its vtable with. -/
def primaryVirtualBaseAt (x : Place Class) : Option Class :=
  b.primaryVirtualBase x.type x.offset

/-- The virtual bases that share the vtable of some subobject. -/
def sharedVirtualBases : List Class := b.places.filterMap b.primaryVirtualBaseAt

def sharedBelow (A : Class) (x : Place Class) : Bool :=
  (b.placesBelow x).any fun y => b.primaryVirtualBaseAt y = some A

/-- The first direct base at or below which a virtual base shares a vtable. -/
def firstShared (A : Class) : Option (Place Class) :=
  (b.children b.start).find? (b.sharedBelow A)

def visitedChildren (x : Place Class) : List (Place Class) :=
  if x.path = [] ∨ b.numVBases x.type ≠ 0 then b.children x else []

/-- The places that `LayoutVTablesForVirtualBases` walks. -/
def visits : List (Place Class) :=
  descendants b.visitedChildren (b.depth b.mostDerivedClass + 1) b.start

/-- The step of the builder for one sub-vtable, or for a further path to one. -/
inductive Event (Class : Type)
  | layout (x : Place Class)
  | find (x : Place Class)

def layoutAt (x : Place Class) (st : VTableState Class Method) : VTableState Class Method :=
  b.layoutPrimaryVTable x.path ⟨x.type, x.baseOffset⟩ x.root.isSome
    (x.steps.isEmpty && (x.root.isSome || b.mostDerivedClassIsVirtual)) x.offset st

def apply (st : VTableState Class Method) : Event Class → VTableState Class Method
  | .layout x => b.layoutAt x st
  | .find x => st.findPath x.path x.type

def layoutVirtualBaseAt (s : List Class × VTableState Class Method) (x : Place Class) :
    List Class × VTableState Class Method :=
  b.layoutVirtualBase x.path ⟨x.type, x.steps.isEmpty⟩ s

/-- What is done at the visited places, where the primary virtual bases are known. -/
def schedule (primaryVirtualBases : List Class) : List Class → List (Place Class) →
    List (Event Class)
  | _, [] => []
  | VBases, x :: visits =>
    if x.steps.isEmpty && b.isDynamicClass x.type && x.type ∉ primaryVirtualBases then
      if x.type ∉ VBases then
        (b.subVTablesAt x).map .layout ++
          schedule primaryVirtualBases (VBases ++ [x.type]) visits
      else .find x :: schedule primaryVirtualBases VBases visits
    else if x.type ∈ primaryVirtualBases then
      .find x :: schedule primaryVirtualBases VBases visits
    else schedule primaryVirtualBases VBases visits

variable {b}

theorem sharesVTable_step {x : Place Class} (hx : x.type = b.owner x.root x.steps)
    {B : BaseSpecifier Class} (hB : B.isVirtual = false) :
    b.sharesVTable (b.step x B) = decide ((b.recordLayout x.type).primaryBase = some B.type) := by
  rw [sharesVTable, step_nonVirtual x hB, List.dropLast_concat, ← hx]

theorem layoutAt_step (x : Place Class) {B : BaseSpecifier Class} (hB : B.isVirtual = false)
    (st : VTableState Class Method) :
    b.layoutAt (b.step x B) st = b.layoutPrimaryVTable (x.path ++ [B.type])
      ⟨B.type, x.baseOffset + (b.recordLayout x.type).baseClassOffset B.type⟩ x.root.isSome false
      (x.offset + (b.recordLayout x.type).baseClassOffset B.type) st := by
  have hsteps : (x.steps ++ [B.type]).isEmpty = false := by cases x.steps <;> rfl
  simp [layoutAt, step_nonVirtual x hB, hsteps]

theorem layoutSecondaryVTables_eq (fuel : Nat) (x : Place Class)
    (hx : x.type = b.owner x.root x.steps) (st : VTableState Class Method) :
    b.layoutSecondaryVTables fuel x.path ⟨x.type, x.baseOffset⟩ x.root.isSome x.offset st =
      (b.secondaries fuel x).foldl (fun st y => b.layoutAt y st) st := by
  induction fuel generalizing x st with
  | zero => rfl
  | succ fuel ih =>
    rw [layoutSecondaryVTables, secondaries, descendants, nonVirtualChildren, List.flatMap_map,
      List.filter_flatMap, List.foldl_flatMap, List.foldl_filter]
    refine List.foldl_ext _ _ _ fun st B _ => ?_
    cases hvirtual : B.isVirtual with
    | true => simp
    | false =>
      have hbelow := fun st => ih (b.step x B) (step_owner x B) st
      have hshares := sharesVTable_step hx hvirtual
      have hlayout := fun st => layoutAt_step (b := b) x hvirtual st
      generalize hy : b.step x B = y at hbelow hshares hlayout ⊢
      obtain rfl := (step_nonVirtual x hvirtual).symm.trans hy
      simp only at hbelow
      cases hdynamic : b.isDynamicClass B.type with
      | false => rfl
      | true =>
        rw [← Option.not_isSome]
        simp only [Bool.not_false, Bool.not_true, Bool.true_and, Bool.false_eq_true, if_false]
        cases hskip : (b.isBuildingConstructorVTable && !x.root.isSome &&
            decide (b.numVBases B.type = 0)) with
        | true => rfl
        | false =>
          simp only [Bool.false_eq_true, if_false, Bool.not_false, if_true]
          rw [List.filter_cons, hshares]
          split
          · rename_i hprimary
            rw [hbelow, secondaries]
            simp [hprimary]
          · rename_i hprimary
            rw [hbelow, secondaries, ← hlayout]
            simp [hprimary]

theorem layoutPrimaryAndSecondaryVTables_eq (x : Place Class)
    (hx : x.type = b.owner x.root x.steps) (st : VTableState Class Method) :
    b.layoutPrimaryAndSecondaryVTables x.path ⟨x.type, x.baseOffset⟩ x.root.isSome
      (x.steps.isEmpty && (x.root.isSome || b.mostDerivedClassIsVirtual)) x.offset st =
        (b.subVTablesAt x).foldl (fun st y => b.layoutAt y st) st :=
  layoutSecondaryVTables_eq (b.depth x.type + 1) x hx (b.layoutAt x st)

theorem layoutVTablesForVirtualBases_eq (fuel : Nat) {x : Place Class}
    (hx : x.path = [] ∨ b.numVBases x.type ≠ 0) (s : List Class × VTableState Class Method) :
    b.layoutVTablesForVirtualBases fuel x.path x.type s =
      (descendants b.visitedChildren fuel x).foldl b.layoutVirtualBaseAt s := by
  induction fuel generalizing x s with
  | zero => rfl
  | succ fuel ih =>
    rw [layoutVTablesForVirtualBases, descendants, visitedChildren, if_pos hx, children,
      List.flatMap_map, List.foldl_flatMap]
    refine List.foldl_ext _ _ _ fun s B _ => ?_
    have hvisit : b.layoutVirtualBase (x.path ++ [B.type]) B s =
        b.layoutVirtualBaseAt s (b.step x B) := by
      rw [layoutVirtualBaseAt, step_path, step_type, steps_isEmpty_step]
    rw [List.foldl_cons, ← hvisit]
    dsimp only
    split
    · rename_i hbases
      have hbelow := ih (x := b.step x B) (.inr (by rwa [step_type]))
        (b.layoutVirtualBase (x.path ++ [B.type]) B s)
      rwa [step_path, step_type] at hbelow
    · rename_i hnone
      have hempty : descendants b.visitedChildren fuel (b.step x B) = [] := by
        cases fuel with
        | zero => rfl
        | succ fuel => simp_all [descendants, visitedChildren]
      rw [hempty, List.foldl_nil]

@[simp] theorem apply_primaryVirtualBases (st : VTableState Class Method) (e : Event Class) :
    (b.apply st e).primaryVirtualBases = st.primaryVirtualBases := by
  cases e <;> rfl

theorem foldl_apply_primaryVirtualBases (events : List (Event Class))
    (st : VTableState Class Method) :
    (events.foldl b.apply st).primaryVirtualBases = st.primaryVirtualBases := by
  induction events generalizing st with
  | nil => rfl
  | cons e events ih => rw [List.foldl_cons, ih, apply_primaryVirtualBases]

theorem foldl_layoutVirtualBaseAt {visits : List (Place Class)}
    (hvisits : ∀ x ∈ visits, x.type = b.owner x.root x.steps ∧
      (x.steps = [] → b.VirtualAt x))
    (VBases : List Class) (st : VTableState Class Method) :
    (visits.foldl b.layoutVirtualBaseAt (VBases, st)).2 =
      (b.schedule st.primaryVirtualBases VBases visits).foldl b.apply st := by
  induction visits generalizing VBases st with
  | nil => rfl
  | cons x visits ih =>
    obtain ⟨⟨hx, hvirtual⟩, hvisits⟩ := List.forall_mem_cons.mp hvisits
    rw [List.foldl_cons, layoutVirtualBaseAt, layoutVirtualBase, schedule]
    dsimp only
    split
    · rename_i hunclaimed
      split
      · simp only [Bool.and_eq_true] at hunclaimed
        obtain ⟨⟨hempty, -⟩, -⟩ := hunclaimed
        obtain ⟨hroot, hbase, hoffset⟩ := hvirtual (List.isEmpty_iff.mp hempty)
        have hlayout := layoutPrimaryAndSecondaryVTables_eq x hx st
        rw [hroot, Option.isSome_some, Bool.true_or, Bool.and_true, hbase, hoffset,
          hempty] at hlayout
        rw [hlayout, ih hvisits, List.foldl_append, List.foldl_map]
        have hsame := foldl_apply_primaryVirtualBases (b := b) ((b.subVTablesAt x).map .layout) st
        rw [List.foldl_map] at hsame
        exact congrArg (fun claimed => List.foldl b.apply _
          (b.schedule claimed _ visits)) hsame
      · rw [ih hvisits]
        rfl
    · split
      · rw [ih hvisits]
        rfl
      · exact ih hvisits VBases st

end Events

end ItaniumVTableBuilder

end RhoFEM.Frontend
