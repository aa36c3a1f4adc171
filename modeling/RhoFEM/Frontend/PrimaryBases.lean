import RhoFEM.Frontend.Places

/-! Which virtual bases `DeterminePrimaryVirtualBases` finds, and on which paths. -/

namespace RhoFEM.Frontend

open RhoFEM.Lib.Fold RhoFEM.Lib.Search RhoFEM.Lib.Descendants

/-- A virtual base, direct or not. -/
inductive Records.IsVirtualBase {Class : Type} (r : Records Class) (V : Class) : Class → Prop
  | direct {C : Class} : ⟨V, true⟩ ∈ r.bases C → r.IsVirtualBase V C
  | indirect {C : Class} {B : BaseSpecifier Class} : B ∈ r.bases C → r.IsVirtualBase V B.type →
    r.IsVirtualBase V C

/-- The bases of a class are distinct and come before it, and its primary base is a non-virtual
base at its start or one of its virtual bases. -/
structure Records.WellFormed {Class : Type} (r : Records Class) : Prop where
  depth_lt : ∀ C, ∀ B ∈ r.bases C, r.depth B.type < r.depth C
  bases_nodup : ∀ C, ((r.bases C).map BaseSpecifier.type).Nodup
  nonVirtual_primary : ∀ C, ∀ P ∈ (r.recordLayout C).primaryBase,
    (r.recordLayout C).isPrimaryBaseVirtual = false →
      ⟨P, false⟩ ∈ r.bases C ∧ (r.recordLayout C).baseClassOffset P = 0
  virtual_primary : ∀ C, ∀ P ∈ (r.recordLayout C).primaryBase,
    (r.recordLayout C).isPrimaryBaseVirtual = true → r.IsVirtualBase P C
  numVBases_iff : ∀ C, r.numVBases C ≠ 0 ↔
    ∃ B ∈ r.bases C, B.isVirtual = true ∨ r.numVBases B.type ≠ 0
  dynamic : ∀ C, r.numVBases C ≠ 0 → r.isDynamicClass C = true

namespace Records

variable {Class : Type} {r : Records Class}

theorem IsVirtualBase.numVBases (hr : r.WellFormed) {V C : Class} (h : r.IsVirtualBase V C) :
    r.numVBases C ≠ 0 := by
  induction h with
  | direct hV => exact (hr.numVBases_iff _).mpr ⟨_, hV, .inl rfl⟩
  | indirect hB _ ih => exact (hr.numVBases_iff _).mpr ⟨_, hB, .inr ih⟩

theorem IsVirtualBase.depth_lt (hr : r.WellFormed) {V C : Class} (h : r.IsVirtualBase V C) :
    r.depth V < r.depth C := by
  induction h with
  | direct hV => exact hr.depth_lt _ _ hV
  | indirect hB _ ih => exact ih.trans (hr.depth_lt _ _ hB)

end Records

namespace ItaniumVTableBuilder

variable {Class Method : Type} {b : ItaniumVTableBuilder Class Method}

/-- The places on the paths from the most derived class. -/
abbrev IsPlace (b : ItaniumVTableBuilder Class Method) (x : Place Class) : Prop :=
  Reaches b.children b.start x

theorem mem_children {x y : Place Class} :
    y ∈ b.children x ↔ ∃ B ∈ b.bases x.type, b.step x B = y := List.mem_map

theorem depth_children (hb : b.WellFormed) :
    ∀ x, ∀ y ∈ b.children x, b.depth y.type < b.depth x.type := by
  intro x y hy
  obtain ⟨B, hB, rfl⟩ := mem_children.mp hy
  rw [step_type]
  exact hb.depth_lt _ B hB

theorem depth_le_of_reaches (hb : b.WellFormed) {x y : Place Class} (h : Reaches b.children x y) :
    b.depth y.type ≤ b.depth x.type := by
  induction h with
  | refl => exact le_refl _
  | tail _ hz ih => exact (depth_children hb _ _ hz).le.trans ih

theorem path_children (x : Place Class) :
    ∀ y ∈ b.children x, ∃ C, y.path = x.path ++ [C] := by
  intro y hy
  obtain ⟨B, -, rfl⟩ := mem_children.mp hy
  exact ⟨B.type, step_path x B⟩

theorem nodup_children (hb : b.WellFormed) (x : Place Class) :
    ((b.children x).map Place.path).Nodup := by
  have hpath : Place.path ∘ b.step x = (x.path ++ [·]) ∘ BaseSpecifier.type :=
    funext fun B => step_path x B
  rw [children, List.map_map, hpath, ← List.map_map]
  exact (hb.bases_nodup x.type).map fun C D heq => by simpa using heq

theorem mem_placesBelow (hb : b.WellFormed) {x y : Place Class} :
    y ∈ b.placesBelow x ↔ Reaches b.children x y :=
  mem_cons_descendants_iff (depth_children hb) (Nat.le_succ _)

theorem IsPlace.owner {x : Place Class} (hx : b.IsPlace x) : x.type = b.owner x.root x.steps := by
  induction hx with
  | refl => rfl
  | tail _ hy _ =>
    obtain ⟨B, -, rfl⟩ := mem_children.mp hy
    exact step_owner _ B

/-- A virtual base is reached by a virtual step. -/
theorem exists_place_of_isVirtualBase {x : Place Class} {V : Class}
    (h : b.IsVirtualBase V x.type) : ∃ y, Relation.TransGen (fun x y => y ∈ b.children x) x y ∧
      y.root = some V ∧ y.steps = [] ∧ y.type = V ∧ y.offset = b.vbaseOffsetInLayoutClass V := by
  generalize hC : x.type = C at h
  induction h generalizing x with
  | direct hV =>
    subst hC
    refine ⟨b.step x ⟨V, true⟩, .single (mem_children.mpr ⟨_, hV, rfl⟩), ?_⟩
    rw [step_virtual x rfl]
    exact ⟨rfl, rfl, rfl, rfl⟩
  | @indirect C B hB _ ih =>
    subst hC
    obtain ⟨y, hy, hrest⟩ := ih (step_type x B)
    exact ⟨y, .head (mem_children.mpr ⟨B, hB, rfl⟩) hy, hrest⟩

section Determine

variable [DecidableEq Class]

/-- The walk from one base of a place, which skips a virtual base that was visited before. -/
def determineBase (b : ItaniumVTableBuilder Class Method) (fuel : Nat) (x : Place Class)
    (s : List Class × VTableState Class Method) (B : BaseSpecifier Class) :
    List Class × VTableState Class Method :=
  let (VBases, st) := s
  if B.isVirtual && B.type ∈ VBases then (VBases, st)
  else b.determinePrimaryVirtualBases fuel (b.step x B).path (b.step x B).type (b.step x B).offset
    (if B.isVirtual then VBases ++ [B.type] else VBases, st)

theorem determinePrimaryVirtualBases_succ (fuel : Nat) (x : Place Class) (VBases : List Class)
    (st : VTableState Class Method) :
    b.determinePrimaryVirtualBases (fuel + 1) x.path x.type x.offset (VBases, st) =
      (b.bases x.type).foldl (b.determineBase fuel x) (VBases,
        match b.primaryVirtualBase x.type x.offset with
        | some PrimaryBase => st.addPrimaryVirtualBase x.path PrimaryBase
        | none => st) := by
  rw [determinePrimaryVirtualBases]
  refine List.foldl_ext _ _ _ fun s B _ => ?_
  obtain ⟨VBases, st⟩ := s
  rw [determineBase]
  cases hvirtual : B.isVirtual with
  | true => rw [step_virtual x hvirtual]; simp
  | false => rw [step_nonVirtual x hvirtual]; simp

/-- What is kept by every primary virtual base that is added is kept by the walk. -/
theorem determinePrimaryVirtualBases_rule (P : VTableState Class Method → Prop) (fuel : Nat)
    {x : Place Class} (hstep : ∀ y A st, Reaches b.children x y →
      b.primaryVirtualBase y.type y.offset = some A → P st → P (st.addPrimaryVirtualBase y.path A))
    {s : List Class × VTableState Class Method} (h : P s.2) :
    P (b.determinePrimaryVirtualBases fuel x.path x.type x.offset s).2 := by
  induction fuel generalizing x s with
  | zero => exact h
  | succ fuel ih =>
    obtain ⟨VBases, st⟩ := s
    rw [determinePrimaryVirtualBases_succ]
    refine foldl_rule (fun _ (s : List Class × VTableState Class Method) => P s.2) ?step ?start
    case start =>
      dsimp only
      split
      · rename_i A hA
        exact hstep x A st .refl hA h
      · exact h
    case step =>
      rintro done B rest ⟨VBases, st⟩ hbases hst
      have hB : b.step x B ∈ b.children x := mem_children.mpr ⟨B, by simp [hbases], rfl⟩
      rw [determineBase]
      split
      · exact hst
      · exact ih (fun y A st hy => hstep y A st (.head hB hy)) hst

/-- The virtual bases of a subobject are visited and its primary virtual base is known, and so
for its non-virtual bases. -/
inductive Covered (b : ItaniumVTableBuilder Class Method) (VBases known : List Class) :
    Class → Nat → Prop
  | mk {RD : Class} {offset : Nat} (primary : ∀ A ∈ b.primaryVirtualBase RD offset, A ∈ known)
    (virtualBases : ∀ B ∈ b.bases RD, B.isVirtual = true → B.type ∈ VBases)
    (below : ∀ B ∈ b.bases RD, B.isVirtual = false → b.Covered VBases known B.type
      (offset + (b.recordLayout RD).baseClassOffset B.type)) : b.Covered VBases known RD offset

theorem Covered.mono {VBases VBases' known known' : List Class} (hV : VBases ⊆ VBases')
    (hknown : known ⊆ known') {RD : Class} {offset : Nat} (h : b.Covered VBases known RD offset) :
    b.Covered VBases' known' RD offset := by
  induction h with
  | mk primary virtualBases _ ih =>
    exact ⟨fun A hA => hknown (primary A hA), fun B hB hvirtual => hV (virtualBases B hB hvirtual),
      ih⟩

/-- What the walk did between two states: the virtual bases that it visited are covered. -/
structure Walked (b : ItaniumVTableBuilder Class Method)
    (s s' : List Class × VTableState Class Method) : Prop where
  visited : s.1 ⊆ s'.1
  known : s.2.primaryVirtualBases ⊆ s'.2.primaryVirtualBases
  covered : ∀ V ∈ s'.1, V ∈ s.1 ∨
    b.Covered s'.1 s'.2.primaryVirtualBases V (b.vbaseOffsetInLayoutClass V)

theorem Walked.refl (s : List Class × VTableState Class Method) : b.Walked s s :=
  ⟨List.Subset.refl _, List.Subset.refl _, fun _ => .inl⟩

theorem Walked.mono {s s' : List Class × VTableState Class Method} (h : b.Walked s s')
    {RD : Class} {offset : Nat} (hRD : b.Covered s.1 s.2.primaryVirtualBases RD offset) :
    b.Covered s'.1 s'.2.primaryVirtualBases RD offset := hRD.mono h.visited h.known

theorem Walked.trans {s s' s'' : List Class × VTableState Class Method} (h : b.Walked s s')
    (h' : b.Walked s' s'') : b.Walked s s'' where
  visited := List.Subset.trans h.visited h'.visited
  known := List.Subset.trans h.known h'.known
  covered V hV := by
    rcases h'.covered V hV with hold | hnew
    · exact (h.covered V hold).imp_right h'.mono
    · exact .inr hnew

/-- A virtual base is visited by the walk below it. -/
theorem Walked.visit {VBases : List Class} {st : VTableState Class Method} {V : Class}
    {s' : List Class × VTableState Class Method} (h : b.Walked (VBases ++ [V], st) s')
    (hV : b.Covered s'.1 s'.2.primaryVirtualBases V (b.vbaseOffsetInLayoutClass V)) :
    b.Walked (VBases, st) s' where
  visited := List.Subset.trans (List.subset_append_left _ _) h.visited
  known := h.known
  covered W hW := by
    rcases h.covered W hW with hold | hnew
    · rcases List.mem_append.mp hold with hold | hW
      · exact .inl hold
      · obtain rfl := List.mem_singleton.mp hW
        exact .inr hV
    · exact .inr hnew

theorem determineBase_walked {fuel : Nat} {x : Place Class} {B : BaseSpecifier Class}
    (hbelow : ∀ s s', b.determinePrimaryVirtualBases fuel (b.step x B).path (b.step x B).type
      (b.step x B).offset s = s' → b.Walked s s' ∧
        b.Covered s'.1 s'.2.primaryVirtualBases (b.step x B).type (b.step x B).offset)
    {s s' : List Class × VTableState Class Method} (h : b.determineBase fuel x s B = s') :
    b.Walked s s' ∧ (B.isVirtual = true → B.type ∈ s'.1) ∧
      (B.isVirtual = true ∧ B.type ∈ s.1 ∨
        b.Covered s'.1 s'.2.primaryVirtualBases (b.step x B).type (b.step x B).offset) := by
  obtain ⟨VBases, st⟩ := s
  rw [determineBase] at h
  split at h
  · rename_i hseen
    obtain ⟨hvirtual, hmem⟩ := (Bool.and_eq_true _ _).mp hseen
    subst h
    exact ⟨.refl _, fun _ => of_decide_eq_true hmem, .inl ⟨hvirtual, of_decide_eq_true hmem⟩⟩
  · obtain ⟨hwalked, hcovered⟩ := hbelow _ _ h
    cases hvirtual : B.isVirtual with
    | true =>
      simp only [hvirtual, if_true] at hwalked
      have hoffset : (b.step x B).offset = b.vbaseOffsetInLayoutClass B.type := by
        rw [step_virtual x hvirtual]
      have hV := hcovered
      rw [step_type, hoffset] at hV
      exact ⟨hwalked.visit hV, fun _ => hwalked.visited (by simp), .inr hcovered⟩
    | false =>
      simp only [hvirtual, Bool.false_eq_true, if_false] at hwalked
      exact ⟨hwalked, fun h => absurd h Bool.false_ne_true, .inr hcovered⟩

theorem walked_addPrimaryVirtualBase (VBases : List Class) (st : VTableState Class Method)
    (path : List Class) (A : Class) :
    b.Walked (VBases, st) (VBases, st.addPrimaryVirtualBase path A) :=
  ⟨List.Subset.refl _, fun _ hV => List.mem_insert_of_mem hV, fun _ => .inl⟩

theorem determinePrimaryVirtualBases_walked (hb : b.WellFormed) {fuel : Nat} {x : Place Class}
    (hfuel : b.depth x.type < fuel) {s s' : List Class × VTableState Class Method}
    (h : b.determinePrimaryVirtualBases fuel x.path x.type x.offset s = s') :
    b.Walked s s' ∧ b.Covered s'.1 s'.2.primaryVirtualBases x.type x.offset := by
  induction fuel generalizing x s s' with
  | zero => exact absurd hfuel (Nat.not_lt_zero _)
  | succ fuel ih =>
    obtain ⟨VBases, st⟩ := s
    rw [determinePrimaryVirtualBases_succ] at h
    subst h
    have hfold := @foldl_rule _ _ (b.determineBase fuel x)
      (fun done (s : List Class × VTableState Class Method) => b.Walked (VBases, st) s ∧
        (∀ A ∈ b.primaryVirtualBase x.type x.offset, A ∈ s.2.primaryVirtualBases) ∧
        (∀ B ∈ done, B.isVirtual = true → B.type ∈ s.1) ∧
        ∀ B ∈ done, B.isVirtual = false → b.Covered s.1 s.2.primaryVirtualBases B.type
          (x.offset + (b.recordLayout x.type).baseClassOffset B.type)) (b.bases x.type)
      (VBases, match b.primaryVirtualBase x.type x.offset with
        | some PrimaryBase => st.addPrimaryVirtualBase x.path PrimaryBase
        | none => st) ?step ?start
    case start =>
      refine ⟨?_, fun A hA => ?_, List.forall_mem_nil _, List.forall_mem_nil _⟩
      · split
        · exact walked_addPrimaryVirtualBase VBases st x.path _
        · exact .refl _
      · rw [Option.mem_def] at hA
        rw [hA]
        exact List.mem_insert_self
    case step =>
      rintro done B rest s hbases ⟨hwalked, hprimary, hvirtual, hbelow⟩
      have hdepth := hb.depth_lt x.type B (by simp [hbases])
      obtain ⟨hnext, hB, hcovered⟩ := determineBase_walked
        (fun s s' hs => ih (by rw [step_type]; omega) hs)
        (rfl : b.determineBase fuel x s B = _)
      refine ⟨hwalked.trans hnext, fun A hA => hnext.known (hprimary A hA), ?_, ?_⟩
      · rw [List.forall_mem_append, List.forall_mem_singleton]
        exact ⟨fun C hC hvirt => hnext.visited (hvirtual C hC hvirt), hB⟩
      · rw [List.forall_mem_append, List.forall_mem_singleton]
        refine ⟨fun C hC hvirt => hnext.mono (hbelow C hC hvirt), fun hvirt => ?_⟩
        rcases hcovered with ⟨hyes, -⟩ | hcovered
        · rw [hvirt] at hyes
          cases hyes
        · rwa [step_nonVirtual x hvirt] at hcovered
    obtain ⟨hwalked, hprimary, hvirtual, hbelow⟩ := hfold
    exact ⟨hwalked, ⟨hprimary, hvirtual, hbelow⟩⟩

theorem sharedBelow_iff (hb : b.WellFormed) {A : Class} {x : Place Class} :
    b.sharedBelow A x = true ↔ ∃ y, Reaches b.children x y ∧ b.primaryVirtualBaseAt y = some A := by
  simp only [sharedBelow, List.any_eq_true, mem_placesBelow hb, decide_eq_true_eq]

theorem mem_sharedVirtualBases (hb : b.WellFormed) {A : Class} :
    A ∈ b.sharedVirtualBases ↔ ∃ x, b.IsPlace x ∧ b.primaryVirtualBaseAt x = some A := by
  simp only [sharedVirtualBases, List.mem_filterMap, places, mem_placesBelow hb]

/-- The path to a virtual base that is recorded for it, where its vtable is first shared. -/
inductive SharedPath (b : ItaniumVTableBuilder Class Method) (bases : List (Place Class))
    (A : Class) : List Class → Prop
  | start : b.primaryVirtualBaseAt b.start = some A → b.SharedPath bases A [A]
  | below {x y : Place Class} : b.primaryVirtualBaseAt b.start ≠ some A →
    bases.find? (b.sharedBelow A) = some x → Reaches b.children x y →
    b.primaryVirtualBaseAt y = some A → b.SharedPath bases A (y.path ++ [A])

theorem SharedPath.append {bases bases' : List (Place Class)} {A : Class} {path : List Class}
    (h : b.SharedPath bases A path) : b.SharedPath (bases ++ bases') A path := by
  cases h with
  | start h => exact .start h
  | below hstart hfirst hy hA =>
    exact .below hstart (by rw [List.find?_append, hfirst, Option.some_or]) hy hA

/-- A definition is added where there was none. -/
def Defines (b : ItaniumVTableBuilder Class Method) (x : Place Class)
    (st st' : VTableState Class Method) : Prop :=
  ∀ A, st'.virtualBasesDefMap A = st.virtualBasesDefMap A ∨
    st.virtualBasesDefMap A = none ∧ ∃ y, Reaches b.children x y ∧
      b.primaryVirtualBaseAt y = some A ∧ st'.virtualBasesDefMap A = some (y.path ++ [A])

theorem defines_addPrimaryVirtualBase {x y : Place Class} {st st' : VTableState Class Method}
    {A : Class} (hy : Reaches b.children x y) (hA : b.primaryVirtualBaseAt y = some A)
    (h : b.Defines x st st') : b.Defines x st (st'.addPrimaryVirtualBase y.path A) := by
  intro C
  cases hsome : st'.virtualBasesDefMap A with
  | some path =>
    have hkeep : (st'.addPrimaryVirtualBase y.path A).virtualBasesDefMap = st'.virtualBasesDefMap :=
      if_pos (by rw [hsome, Option.isSome_some])
    rw [hkeep]
    exact h C
  | none =>
    have hnew : (st'.addPrimaryVirtualBase y.path A).virtualBasesDefMap =
        Function.update st'.virtualBasesDefMap A (some (y.path ++ [A])) :=
      if_neg (by rw [hsome, Option.isSome_none]; exact Bool.false_ne_true)
    rw [hnew]
    by_cases hC : C = A
    · subst hC
      rw [Function.update_self]
      rcases h C with heq | ⟨-, z, -, -, heq⟩
      · exact .inr ⟨heq ▸ hsome, y, hy, hA, rfl⟩
      · rw [hsome] at heq
        cases heq
    · rw [Function.update_of_ne hC]
      exact h C

/-- The classes with a definition are those known to be primary virtual bases. -/
def DefinesKnown (st : VTableState Class Method) : Prop :=
  ∀ A, A ∈ st.primaryVirtualBases ↔ (st.virtualBasesDefMap A).isSome

theorem definesKnown_addPrimaryVirtualBase {st : VTableState Class Method} (path : List Class)
    (A : Class) (h : DefinesKnown st) : DefinesKnown (st.addPrimaryVirtualBase path A) := by
  intro C
  rw [VTableState.addPrimaryVirtualBase, List.mem_insert_iff, h C]
  dsimp only
  split
  · rename_i hsome
    constructor
    · rintro (rfl | hC)
      · exact hsome
      · exact hC
    · exact .inr
  · by_cases hC : C = A <;> simp [hC]

/-- What `DeterminePrimaryVirtualBases` leaves where nothing was known. -/
structure Determined (b : ItaniumVTableBuilder Class Method) (st st' : VTableState Class Method) :
    Prop where
  known : ∀ A, A ∈ st'.primaryVirtualBases ↔ A ∈ b.sharedVirtualBases
  defined : ∀ A, A ∈ b.sharedVirtualBases ↔ (st'.virtualBasesDefMap A).isSome
  sharedPath : ∀ A path, st'.virtualBasesDefMap A = some path →
    b.SharedPath (b.children b.start) A path
  frame : ∃ defMap known, st' = { st with
    virtualBasesDefMap := defMap
    primaryVirtualBases := known }

/-- The walk over the direct bases of the most derived class, after some of them. -/
structure DeterminedBy (b : ItaniumVTableBuilder Class Method) (bases : List (Place Class))
    (s : List Class × VTableState Class Method) : Prop where
  covered : ∀ V ∈ s.1, b.Covered s.1 s.2.primaryVirtualBases V (b.vbaseOffsetInLayoutClass V)
  known : DefinesKnown s.2
  undefined : ∀ A, s.2.virtualBasesDefMap A = none → b.primaryVirtualBaseAt b.start ≠ some A ∧
    bases.find? (b.sharedBelow A) = none
  defined : ∀ A path, s.2.virtualBasesDefMap A = some path → b.SharedPath bases A path

theorem Covered.of_reaches {VBases known : List Class}
    (hV : ∀ V ∈ VBases, b.Covered VBases known V (b.vbaseOffsetInLayoutClass V)) {x y : Place Class}
    (hx : b.Covered VBases known x.type x.offset) (hy : Reaches b.children x y) :
    b.Covered VBases known y.type y.offset := by
  induction hy with
  | refl => exact hx
  | @tail y z _ hz ih =>
    obtain ⟨B, hB, rfl⟩ := mem_children.mp hz
    obtain ⟨-, hvirtual, hbelow⟩ := ih
    cases hvirt : B.isVirtual with
    | true =>
      have := hV B.type (hvirtual B hB hvirt)
      rwa [step_virtual y hvirt]
    | false =>
      have := hbelow B hB hvirt
      rwa [step_nonVirtual y hvirt]

theorem Covered.primary_mem {VBases known : List Class} {x : Place Class} {A : Class}
    (h : b.Covered VBases known x.type x.offset) (hA : b.primaryVirtualBaseAt x = some A) :
    A ∈ known := by
  obtain ⟨hprimary, -, -⟩ := h
  exact hprimary A hA

theorem DeterminedBy.step (hb : b.WellFormed) {fuel : Nat} {B : BaseSpecifier Class}
    (hfuel : b.depth B.type < fuel) {bases : List (Place Class)}
    {s : List Class × VTableState Class Method} (h : b.DeterminedBy bases s) :
    b.DeterminedBy (bases ++ [b.step b.start B]) (b.determineBase fuel b.start s B) := by
  have hbelow : ∀ s s', b.determinePrimaryVirtualBases fuel (b.step b.start B).path
      (b.step b.start B).type (b.step b.start B).offset s = s' → b.Walked s s' ∧
        b.Covered s'.1 s'.2.primaryVirtualBases (b.step b.start B).type
          (b.step b.start B).offset :=
    fun s s' hs => determinePrimaryVirtualBases_walked hb (by rwa [step_type]) hs
  obtain ⟨hwalked, -, hcovered⟩ := determineBase_walked hbelow rfl (s := s)
  have hkeeps : DefinesKnown (b.determineBase fuel b.start s B).2 ∧
      b.Defines (b.step b.start B) s.2 (b.determineBase fuel b.start s B).2 := by
    obtain ⟨VBases, st⟩ := s
    rw [determineBase]
    split
    · exact ⟨h.known, fun A => .inl rfl⟩
    · exact determinePrimaryVirtualBases_rule
        (fun st' => DefinesKnown st' ∧ b.Defines (b.step b.start B) st st') fuel
        (fun y A st' hy hA hst' => ⟨definesKnown_addPrimaryVirtualBase y.path A hst'.1,
          defines_addPrimaryVirtualBase hy hA hst'.2⟩) ⟨h.known, fun A => .inl rfl⟩
  obtain ⟨hknown, hdefines⟩ := hkeeps
  generalize b.determineBase fuel b.start s B = s' at hwalked hcovered hknown hdefines ⊢
  have hall : ∀ V ∈ s'.1, b.Covered s'.1 s'.2.primaryVirtualBases V
      (b.vbaseOffsetInLayoutClass V) := fun V hV =>
    (hwalked.covered V hV).elim (fun hold => hwalked.mono (h.covered V hold)) id
  have hB : b.Covered s'.1 s'.2.primaryVirtualBases (b.step b.start B).type
      (b.step b.start B).offset := by
    rcases hcovered with ⟨hvirtual, hseen⟩ | hcovered
    · have := hwalked.mono (h.covered B.type hseen)
      rwa [step_virtual b.start hvirtual]
    · exact hcovered
  refine ⟨hall, hknown, fun A hnone => ?_, fun A path hpath => ?_⟩
  · have hold : s.2.virtualBasesDefMap A = none := by
      rcases hdefines A with heq | ⟨hold, -⟩
      · exact heq ▸ hnone
      · exact hold
    obtain ⟨hstart, hfirst⟩ := h.undefined A hold
    refine ⟨hstart, ?_⟩
    rw [List.find?_append, hfirst, Option.none_or, List.find?_singleton, if_neg]
    intro hshared
    obtain ⟨y, hy, hA⟩ := (sharedBelow_iff hb).mp hshared
    have hmem := (hknown A).mp ((hB.of_reaches hall hy).primary_mem hA)
    rw [hnone] at hmem
    cases hmem
  · rcases hdefines A with heq | ⟨hold, y, hy, hA, heq⟩
    · exact (h.defined A path (heq ▸ hpath)).append
    · obtain ⟨hstart, hfirst⟩ := h.undefined A hold
      obtain rfl := Option.some.inj (heq.symm.trans hpath)
      refine .below hstart ?_ hy hA
      rw [List.find?_append, hfirst, Option.none_or, List.find?_singleton,
        if_pos ((sharedBelow_iff hb).mpr ⟨y, hy, hA⟩)]

theorem SharedPath.exists_place {A : Class} {path : List Class}
    (h : b.SharedPath (b.children b.start) A path) :
    ∃ x, b.IsPlace x ∧ b.primaryVirtualBaseAt x = some A ∧ path = x.path ++ [A] := by
  cases h with
  | start hA => exact ⟨b.start, .refl, hA, rfl⟩
  | below _ hfirst hy hA =>
    exact ⟨_, .head (List.mem_of_find?_eq_some hfirst) hy, hA, rfl⟩

/-- After all direct bases, the classes with a definition are those that share a vtable. -/
theorem DeterminedBy.exists_shared_iff (hb : b.WellFormed)
    {s : List Class × VTableState Class Method} (h : b.DeterminedBy (b.children b.start) s)
    {A : Class} : (∃ x, b.IsPlace x ∧ b.primaryVirtualBaseAt x = some A) ↔
      (s.2.virtualBasesDefMap A).isSome := by
  constructor
  · rintro ⟨x, hx, hA⟩
    rw [Option.isSome_iff_ne_none]
    intro hnone
    obtain ⟨hstart, hfirst⟩ := h.undefined A hnone
    rcases Relation.ReflTransGen.cases_head hx with rfl | ⟨y, hy, hyx⟩
    · exact hstart hA
    · have hshared := List.find?_eq_none.mp hfirst y hy
      exact hshared ((sharedBelow_iff hb).mpr ⟨x, hyx, hA⟩)
  · intro hsome
    obtain ⟨path, hpath⟩ := Option.isSome_iff_exists.mp hsome
    obtain ⟨x, hx, hA, -⟩ := (h.defined A path hpath).exists_place
    exact ⟨x, hx, hA⟩

theorem DeterminedBy.begin {st : VTableState Class Method}
    (hdefMap : st.virtualBasesDefMap = fun _ => none) (hprimary : st.primaryVirtualBases = []) :
    b.DeterminedBy [] ([], match b.primaryVirtualBaseAt b.start with
      | some PrimaryBase => st.addPrimaryVirtualBase [] PrimaryBase
      | none => st) := by
  have hknown : DefinesKnown st := fun A => by simp [hdefMap, hprimary]
  cases hstart : b.primaryVirtualBaseAt b.start with
  | none =>
    refine ⟨List.forall_mem_nil _, hknown, fun A _ => ⟨?_, rfl⟩, fun A path hpath => ?_⟩
    · rw [hstart]
      simp
    · simp [hdefMap] at hpath
  | some P =>
    have hmap : (st.addPrimaryVirtualBase [] P).virtualBasesDefMap =
        Function.update (fun _ => none) P (some [P]) := by
      simp [VTableState.addPrimaryVirtualBase, hdefMap]
    refine ⟨List.forall_mem_nil _, definesKnown_addPrimaryVirtualBase [] P hknown,
      fun A hnone => ⟨?_, rfl⟩, fun A path hpath => ?_⟩
    · rintro hA
      obtain rfl := Option.some.inj (hstart.symm.trans hA)
      simp [hmap] at hnone
    · by_cases hA : A = P
      · subst hA
        obtain rfl : [A] = path := by simpa [hmap] using hpath
        exact .start hstart
      · simp [hmap, hA] at hpath

theorem determined (hb : b.WellFormed) {st : VTableState Class Method}
    (hdefMap : st.virtualBasesDefMap = fun _ => none) (hprimary : st.primaryVirtualBases = []) :
    b.Determined st (b.determinePrimaryVirtualBases (b.depth b.mostDerivedClass + 1) []
      b.mostDerivedClass b.mostDerivedClassOffset ([], st)).2 := by
  have hframe := determinePrimaryVirtualBases_rule (b := b) (x := b.start) (s := ([], st))
    (fun st' => ∃ defMap known, st' = { st with
      virtualBasesDefMap := defMap
      primaryVirtualBases := known }) (b.depth b.mostDerivedClass + 1)
    (by rintro y A st' - - ⟨defMap, known, rfl⟩; exact ⟨_, _, rfl⟩) ⟨_, _, rfl⟩
  have hwalk : b.DeterminedBy (b.children b.start)
      (b.determinePrimaryVirtualBases (b.depth b.mostDerivedClass + 1) []
        b.mostDerivedClass b.mostDerivedClassOffset ([], st)) := by
    have hsucc := determinePrimaryVirtualBases_succ (b := b) (b.depth b.mostDerivedClass) b.start
      [] st
    rw [show b.determinePrimaryVirtualBases (b.depth b.mostDerivedClass + 1) []
        b.mostDerivedClass b.mostDerivedClassOffset ([], st) = _ from hsucc, children]
    refine foldl_rule (fun done s => b.DeterminedBy (done.map (b.step b.start)) s) ?step
      (.begin hdefMap hprimary)
    case step =>
      intro done B rest s hbases h
      rw [List.map_append]
      exact h.step hb (hb.depth_lt b.mostDerivedClass B (hbases ▸ by simp))
  have hdefined := fun A => (mem_sharedVirtualBases hb).trans (hwalk.exists_shared_iff hb (A := A))
  exact ⟨fun A => (hwalk.known A).trans (hdefined A).symm, hdefined, hwalk.defined, hframe⟩

end Determine

end ItaniumVTableBuilder

end RhoFEM.Frontend
