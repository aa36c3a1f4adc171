import RhoFEM.Frontend.Events

/-! The address points of the sub-vtables of a class, and their ranks in its layout. -/

namespace RhoFEM.Frontend

open RhoFEM.Lib.Fold RhoFEM.Lib.Search RhoFEM.Lib.Descendants
open RhoFEM.CHA

namespace ItaniumVTableBuilder

variable {Class Method : Type} [DecidableEq Class] {b : ItaniumVTableBuilder Class Method}

/-- Base subobjects of one class have offsets of their own in the layout class. -/
def DistinctOffsets (b : ItaniumVTableBuilder Class Method) : Prop :=
  ∀ x ∈ b.places, ∀ y ∈ b.places, x.type = y.type → x.offset = y.offset →
    x.root = y.root ∧ x.steps = y.steps

/-- A base subobject whose vtable is part of that of another one. -/
def IsShared (b : ItaniumVTableBuilder Class Method) (x : Place Class) : Prop :=
  if x.steps = [] then x.type ∈ b.sharedVirtualBases else b.sharesVTable x = true

theorem IsShared.congr {x y : Place Class} (htype : x.type = y.type) (hroot : x.root = y.root)
    (hsteps : x.steps = y.steps) (h : b.IsShared x) : b.IsShared y := by
  unfold IsShared sharesVTable at h ⊢
  rwa [htype, hroot, hsteps] at h

section Sites

theorem mem_layouts_schedule {known VBases : List Class} {visits : List (Place Class)}
    {y : Place Class} (hy : y ∈ layouts (b.schedule known VBases visits)) :
    ∃ x ∈ visits, x.steps = [] ∧ x.type ∉ known ∧ x.type ∉ VBases ∧ y ∈ b.subVTablesAt x := by
  induction visits generalizing VBases with
  | nil => cases hy
  | cons x visits ih =>
    rcases b.schedule_cases known VBases x with ⟨hsteps, hknown, hnew, heq⟩ | ⟨-, heq⟩ |
      ⟨-, -, heq⟩
    · rw [heq, layouts_append, layouts_map_layout, List.mem_append] at hy
      rcases hy with hy | hy
      · exact ⟨x, List.mem_cons_self, hsteps, hknown, hnew, hy⟩
      · obtain ⟨z, hz, hsteps, hknown, hseen, hy⟩ := ih hy
        exact ⟨z, List.mem_cons_of_mem _ hz, hsteps, hknown,
          fun h => hseen (List.mem_append_left _ h), hy⟩
    · rw [heq] at hy
      obtain ⟨z, hz, hrest⟩ := ih hy
      exact ⟨z, List.mem_cons_of_mem _ hz, hrest⟩
    · rw [heq] at hy
      obtain ⟨z, hz, hrest⟩ := ih hy
      exact ⟨z, List.mem_cons_of_mem _ hz, hrest⟩

/-- The subobject at a place. -/
def subobject (x : Place Class) : Option Class × List Class := (x.root, x.steps)

theorem nodup_subVTablesAt (hb : b.WellFormed) (x : Place Class) :
    ((b.subVTablesAt x).map subobject).Nodup := by
  have hlabel : ∀ x, ∀ y ∈ b.nonVirtualChildren x, ∃ C, y.steps = x.steps ++ [C] := by
    intro x y hy
    obtain ⟨B, -, hB, -, -, rfl⟩ := mem_nonVirtualChildren.mp hy
    exact ⟨B.type, by rw [step_nonVirtual x hB]⟩
  have hset : ∀ x, ((b.nonVirtualChildren x).map Place.steps).Nodup := by
    intro x
    rw [nonVirtualChildren, List.map_map]
    refine List.Nodup.map_on ?_ ((hb.bases_nodup x.type).of_map.filter _)
    intro B hB C hC heq
    obtain ⟨hBmem, hB⟩ := List.mem_filter.mp hB
    obtain ⟨hCmem, hC⟩ := List.mem_filter.mp hC
    simp only [Bool.and_eq_true, Bool.not_eq_true'] at hB hC
    rw [Function.comp, Function.comp, step_nonVirtual x hB.1.1, step_nonVirtual x hC.1.1] at heq
    exact List.inj_on_of_nodup_map (hb.bases_nodup x.type) hBmem hCmem (by simpa using heq)
  have hsteps : ((b.subVTablesAt x).map Place.steps).Nodup := by
    rw [subVTablesAt, List.map_cons, List.nodup_cons]
    constructor
    · intro hmem
      obtain ⟨y, hy, heq⟩ := List.mem_map.mp hmem
      obtain ⟨t, ht, hsteps, -⟩ := (mem_secondaries hy).2.1.steps
      exact ht (by simpa [hsteps] using heq)
    · exact (nodup_labels hlabel hset _ x).sublist (List.filter_sublist.map _)
  have hsnd : (Prod.snd ∘ subobject : Place Class → List Class) = Place.steps := rfl
  rw [← hsnd, ← List.map_map] at hsteps
  exact hsteps.of_map

theorem nodup_layouts_schedule (hb : b.WellFormed) {known : List Class}
    {visits : List (Place Class)}
    (hvisits : ∀ x ∈ visits, x.steps = [] → b.VirtualAt x) (VBases : List Class) :
    ((layouts (b.schedule known VBases visits)).map subobject).Nodup := by
  induction visits generalizing VBases with
  | nil => exact List.nodup_nil
  | cons x visits ih =>
    obtain ⟨hx, hvisits⟩ := List.forall_mem_cons.mp hvisits
    rcases b.schedule_cases known VBases x with ⟨hsteps, -, -, heq⟩ | ⟨-, heq⟩ | ⟨-, -, heq⟩
    · obtain ⟨hroot, -, -⟩ := hx hsteps
      rw [heq, layouts_append, layouts_map_layout, List.map_append, List.nodup_append']
      refine ⟨nodup_subVTablesAt hb x, ih hvisits _, ?_⟩
      intro s hs hs'
      obtain ⟨y, hy, rfl⟩ := List.mem_map.mp hs
      obtain ⟨z, hz, hsame⟩ := List.mem_map.mp hs'
      obtain ⟨v, hv, hsteps, -, hseen, hzv⟩ := mem_layouts_schedule hz
      have hroots := congrArg Prod.fst hsame
      obtain ⟨hvroot, -, -⟩ := hvisits v hv hsteps
      rw [subobject, subobject, root_of_mem_subVTablesAt hy, root_of_mem_subVTablesAt hzv, hroot,
        hvroot] at hroots
      exact hseen (List.mem_append_right _ (List.mem_singleton.mpr (Option.some.inj hroots)))
    · rw [heq]
      exact ih hvisits VBases
    · rw [heq]
      exact ih hvisits VBases

theorem mem_layouts_virtualEvents {y : Place Class} (hy : y ∈ layouts b.virtualEvents) :
    ∃ x ∈ b.visits, b.VirtualAt x ∧ x.steps = [] ∧ x.type ∉ b.sharedVirtualBases ∧
      y ∈ b.subVTablesAt x := by
  obtain ⟨x, hx, hsteps, hknown, -, hy⟩ := mem_layouts_schedule hy
  exact ⟨x, hx, virtualAt_of_transGen (transGen_of_mem_visits hx) hsteps, hsteps, hknown, hy⟩

/-- No subobject is laid out twice. -/
theorem nodup_layouts (hb : b.WellFormed) :
    ((layouts (b.primaryEvents ++ b.virtualEvents)).map subobject).Nodup := by
  rw [layouts_append, primaryEvents, layouts_map_layout, List.map_append, List.nodup_append']
  refine ⟨nodup_subVTablesAt hb b.start, nodup_layouts_schedule hb
    (fun x hx => virtualAt_of_transGen (transGen_of_mem_visits hx)) [], ?_⟩
  intro s hs hs'
  obtain ⟨y, hy, rfl⟩ := List.mem_map.mp hs
  obtain ⟨z, hz, heq⟩ := List.mem_map.mp hs'
  obtain ⟨x, -, ⟨hroot, -⟩, -, -, hzx⟩ := mem_layouts_virtualEvents hz
  have hroots := congrArg Prod.fst heq
  rw [subobject, subobject, root_of_mem_subVTablesAt hy, root_of_mem_subVTablesAt hzx,
    hroot] at hroots
  cases hroots

theorem isPlace_of_mem_layouts {y : Place Class}
    (hy : y ∈ layouts (b.primaryEvents ++ b.virtualEvents)) : b.IsPlace y := by
  have hbelow : ∀ x, b.IsPlace x → y ∈ b.subVTablesAt x → b.IsPlace y := by
    intro x hx hy
    rcases List.mem_cons.mp hy with rfl | hy
    · exact hx
    · exact hx.trans (mem_secondaries hy).1.to_reflTransGen
  rw [layouts_append, primaryEvents, layouts_map_layout, List.mem_append] at hy
  rcases hy with hy | hy
  · exact hbelow b.start .refl hy
  · obtain ⟨x, hx, -, -, -, hy⟩ := mem_layouts_virtualEvents hy
    exact hbelow x (transGen_of_mem_visits hx).to_reflTransGen hy

theorem isVirtualBase_of_primary (hb : b.WellFormed) {x : Place Class} {A : Class}
    (hA : b.primaryVirtualBaseAt x = some A) : b.IsVirtualBase A x.type := by
  obtain ⟨hprimary, hcond⟩ := Option.filter_eq_some_iff.mp hA
  exact hb.virtual_primary x.type A hprimary ((Bool.and_eq_true _ _).mp hcond).1

/-- What gets a sub-vtable of its own is no part of another vtable. -/
theorem not_isShared_of_mem_layouts (hb : b.WellFormed) {y : Place Class}
    (hy : y ∈ layouts (b.primaryEvents ++ b.virtualEvents)) : ¬ b.IsShared y := by
  have hbelow : ∀ x fuel, y ∈ b.secondaries fuel x → ¬ b.IsShared y := by
    intro x fuel hy
    obtain ⟨-, hnonVirtual, hshares⟩ := mem_secondaries hy
    obtain ⟨t, ht, hsteps, -⟩ := hnonVirtual.steps
    rw [IsShared, if_neg (by simp [hsteps, ht]), hshares]
    exact Bool.false_ne_true
  rw [layouts_append, primaryEvents, layouts_map_layout, List.mem_append] at hy
  rcases hy with hy | hy
  · rcases List.mem_cons.mp hy with rfl | hy
    · rw [IsShared, if_pos (show b.start.steps = [] from rfl), mem_sharedVirtualBases hb]
      rintro ⟨x, hx, hA⟩
      have hlt := (isVirtualBase_of_primary hb hA).depth_lt hb
      exact absurd (depth_le_of_reaches hb hx) (Nat.not_le.mpr hlt)
    · exact hbelow _ _ hy
  · obtain ⟨x, -, -, hsteps, hknown, hy⟩ := mem_layouts_virtualEvents hy
    rcases List.mem_cons.mp hy with rfl | hy
    · rwa [IsShared, if_pos hsteps]
    · exact hbelow _ _ hy

/-- The primary bases that share a vtable are subobjects at its offset. -/
theorem exists_place_of_mem_primaryBaseChain (hb : b.WellFormed) {fuel : Nat} {x : Place Class}
    (hx : b.IsPlace x) : ∀ C ∈ b.primaryBaseChain fuel x.type x.offset, ∃ y, b.IsPlace y ∧
      y.type = C ∧ y.offset = x.offset ∧ (y = x ∨ b.IsShared y) := by
  induction fuel generalizing x with
  | zero => exact List.forall_mem_nil _
  | succ fuel ih =>
    rw [primaryBaseChain]
    refine List.forall_mem_cons.mpr ⟨⟨x, hx, rfl, rfl, .inl rfl⟩, ?_⟩
    have hnext : ∀ y, b.IsPlace y → b.IsShared y → y.offset = x.offset →
        ∀ C ∈ b.primaryBaseChain fuel y.type x.offset, ∃ y, b.IsPlace y ∧ y.type = C ∧
          y.offset = x.offset ∧ (y = x ∨ b.IsShared y) := by
      intro y hy hshared hoffset C hC
      rw [← hoffset] at hC ⊢
      obtain ⟨z, hz, htype, hz', hself⟩ := ih hy C hC
      exact ⟨z, hz, htype, hz', .inr (hself.elim (fun h => h ▸ hshared) id)⟩
    split
    · exact List.forall_mem_nil _
    · rename_i P hP
      cases hvirtual : (b.recordLayout x.type).isPrimaryBaseVirtual with
      | false =>
        rw [Bool.false_and, if_neg Bool.false_ne_true]
        obtain ⟨hbase, hzero⟩ := hb.nonVirtual_primary x.type P hP hvirtual
        have hy := hnext (b.step x ⟨P, false⟩)
          (hx.tail (mem_children.mpr ⟨⟨P, false⟩, hbase, rfl⟩)) ?_ ?_
        · rwa [step_type] at hy
        · have hshares := sharesVTable_step hx.owner (B := ⟨P, false⟩) rfl
          rw [IsShared, if_neg (by simp [step_nonVirtual x (B := ⟨P, false⟩) rfl]), hshares, hP]
          exact decide_eq_true rfl
        · rw [step_nonVirtual x rfl]
          exact congrArg (x.offset + ·) hzero
      | true =>
        rw [Bool.true_and]
        split
        · exact List.forall_mem_nil _
        · rename_i hoffset
          simp only [ne_eq, decide_not, Bool.not_eq_true', Bool.not_eq_false,
            decide_eq_true_eq] at hoffset
          obtain ⟨y, hy, -, hsteps, htype, hyoffset⟩ :=
            exists_place_of_isVirtualBase (hb.virtual_primary x.type P hP hvirtual)
          have hshared : P ∈ b.sharedVirtualBases := by
            refine (mem_sharedVirtualBases hb).mpr ⟨x, hx, ?_⟩
            rw [primaryVirtualBaseAt, primaryVirtualBase, hP]
            simp [hvirtual, hoffset]
          have hbelow := hnext y (hx.trans hy.to_reflTransGen)
            (by rwa [IsShared, if_pos hsteps, htype]) (hyoffset.trans hoffset)
          rwa [htype] at hbelow

end Sites

/-- The classes at the start of a sub-vtable. -/
def addressPointKeys (b : ItaniumVTableBuilder Class Method) (x : Place Class) :
    List (BaseSubobject Class) :=
  (b.primaryBaseChain (b.depth x.type + 1) x.type x.offset).map fun C => ⟨C, x.offset⟩

/-- A subobject with a sub-vtable of its own has no address point before. -/
theorem notMem_addressPointKeys (hb : b.WellFormed) (hdistinct : b.DistinctOffsets)
    {done rest : List (Event Class)} {y : Place Class}
    (hevents : b.primaryEvents ++ b.virtualEvents = done ++ .layout y :: rest) {x : Place Class}
    (hx : x ∈ layouts done) : ⟨y.type, y.offset⟩ ∉ b.addressPointKeys x := by
  have hall : layouts (b.primaryEvents ++ b.virtualEvents) =
      layouts done ++ y :: layouts rest := by
    rw [hevents, layouts_append]
    rfl
  have hnodup := nodup_layouts hb
  rw [hall, List.map_append, List.map_cons, List.nodup_middle, List.nodup_cons, ← List.map_append,
    List.mem_map] at hnodup
  have hxmem : x ∈ layouts (b.primaryEvents ++ b.virtualEvents) := by
    rw [hall]
    exact List.mem_append_left _ hx
  have hymem : y ∈ layouts (b.primaryEvents ++ b.virtualEvents) := by simp [hall]
  intro hkey
  obtain ⟨C, hC, heq⟩ := List.mem_map.mp hkey
  obtain ⟨rfl, hoffset⟩ : C = y.type ∧ x.offset = y.offset := by simpa using heq
  obtain ⟨z, hz, htype, hzoffset, hself⟩ := exists_place_of_mem_primaryBaseChain hb
    (isPlace_of_mem_layouts hxmem) y.type hC
  have hy := isPlace_of_mem_layouts hymem
  obtain ⟨hroot, hsteps⟩ := hdistinct z ((mem_placesBelow hb).mpr hz) y
    ((mem_placesBelow hb).mpr hy) htype (hzoffset.trans hoffset)
  rcases hself with rfl | hshared
  · exact hnodup.1 ⟨z, List.mem_append_left _ hx, Prod.ext hroot hsteps⟩
  · exact not_isShared_of_mem_layouts hb hymem (hshared.congr htype hroot hsteps)

section Insert

open VTableState

theorem mem_insertAddressPoint {key : BaseSubobject Class} {addressPoint : Nat}
    {points : List (BaseSubobject Class × Nat)} {entry : BaseSubobject Class × Nat} :
    entry ∈ insertAddressPoint key addressPoint points ↔ entry ∈ points ∨
      (points.lookup key = none ∧ entry = (key, addressPoint)) := by
  rw [insertAddressPoint]
  split
  · rename_i hsome
    rw [← Option.not_isSome_iff_eq_none]
    simp [hsome]
  · rename_i hnone
    rw [Option.not_isSome_iff_eq_none] at hnone
    simp [hnone]

theorem mem_foldl_insertAddressPoint {offset addressPoint : Nat} {chain : List Class}
    {points : List (BaseSubobject Class × Nat)} {entry : BaseSubobject Class × Nat}
    (h : entry ∈ chain.foldl (fun points C => insertAddressPoint ⟨C, offset⟩ addressPoint points)
      points) :
    entry ∈ points ∨ entry.2 = addressPoint ∧ ∃ C ∈ chain, entry.1 = ⟨C, offset⟩ := by
  induction chain generalizing points with
  | nil => exact .inl h
  | cons C chain ih =>
    rcases ih h with h | ⟨hpoint, D, hD, hkey⟩
    · rcases mem_insertAddressPoint.mp h with h | ⟨-, rfl⟩
      · exact .inl h
      · exact .inr ⟨rfl, C, List.mem_cons_self, rfl⟩
    · exact .inr ⟨hpoint, D, List.mem_cons_of_mem _ hD, hkey⟩

theorem subset_foldl_insertAddressPoint (offset addressPoint : Nat) (chain : List Class)
    (points : List (BaseSubobject Class × Nat)) :
    points ⊆ chain.foldl (fun points C => insertAddressPoint ⟨C, offset⟩ addressPoint points)
      points := by
  induction chain generalizing points with
  | nil => exact List.Subset.refl _
  | cons C chain ih =>
    exact List.Subset.trans (fun _ h => mem_insertAddressPoint.mpr (.inl h)) (ih _)

end Insert

/-- The address points that are in the map are those of the sub-vtables so far, each one behind
those before. -/
structure Ranked (b : ItaniumVTableBuilder Class Method) (done : List (Place Class))
    (st : VTableState Class Method) : Prop where
  orders : st.subVTables.map SubVTable.order = List.range st.curVTableInd
  sorted : (st.subVTables.map SubVTable.addressPoint).Pairwise (· < ·)
  pos : ∀ s ∈ st.subVTables, 0 < s.addressPoint
  le : ∀ s ∈ st.subVTables, s.addressPoint ≤ st.components.length
  points : ∀ n, n ∈ st.addressPoints.map Prod.snd ↔ n ∈ st.subVTables.map SubVTable.addressPoint
  keys : ∀ it ∈ st.addressPoints, ∃ x ∈ done, it.1 ∈ b.addressPointKeys x

/-- The address point of a sub-vtable is behind the components before it. -/
theorem layoutAt_fields (x : Place Class) (st : VTableState Class Method) : ∃ addressPoint,
    st.components.length < addressPoint ∧
      addressPoint ≤ (b.layoutAt x st).components.length ∧
      (b.layoutAt x st).curVTableInd = st.curVTableInd + 1 ∧
      (b.layoutAt x st).subVTables = st.subVTables ++
        [⟨b.storedPath x.path x.type x.offset, st.curVTableInd, addressPoint⟩] ∧
      (b.layoutAt x st).addressPoints =
        (b.primaryBaseChain (b.depth x.type + 1) x.type x.offset).foldl
          (fun points C => VTableState.insertAddressPoint ⟨C, x.offset⟩ addressPoint points)
          st.addressPoints := by
  refine ⟨_, ?_, ?_, rfl, rfl, rfl⟩
  · simp only [List.length_append, List.length_cons, List.length_nil]
    omega
  · simp only [layoutAt, layoutPrimaryVTable, List.length_append]
    omega

theorem Ranked.layoutAt {done : List (Place Class)} {st : VTableState Class Method}
    (h : b.Ranked done st) {x : Place Class}
    (hfresh : ∀ y ∈ done, ⟨x.type, x.offset⟩ ∉ b.addressPointKeys y) :
    b.Ranked (done ++ [x]) (b.layoutAt x st) := by
  obtain ⟨addressPoint, hlt, hle, hind, hsub, hpoints⟩ := layoutAt_fields (b := b) x st
  have hnew : (⟨x.type, x.offset⟩, addressPoint) ∈ (b.layoutAt x st).addressPoints := by
    have hnone : st.addressPoints.lookup ⟨x.type, x.offset⟩ = none := by
      rw [List.lookup_eq_none_iff]
      intro it hit
      obtain ⟨y, hy, hkey⟩ := h.keys it hit
      rw [bne_iff_ne]
      exact fun heq => hfresh y hy (heq ▸ hkey)
    rw [hpoints, primaryBaseChain, List.foldl_cons]
    exact subset_foldl_insertAddressPoint _ _ _ _ (mem_insertAddressPoint.mpr (.inr ⟨hnone, rfl⟩))
  constructor
  case orders =>
    rw [hsub, hind, List.map_append, h.orders, List.range_succ]
    rfl
  case sorted =>
    rw [hsub, List.map_append, List.map_singleton, List.pairwise_append]
    refine ⟨h.sorted, List.pairwise_singleton _ _, fun n hn m hm => ?_⟩
    obtain ⟨s, hs, rfl⟩ := List.mem_map.mp hn
    obtain rfl := List.mem_singleton.mp hm
    exact (h.le s hs).trans_lt hlt
  case pos =>
    rw [hsub]
    exact List.forall_mem_append.mpr ⟨h.pos,
      List.forall_mem_singleton.mpr (Nat.zero_lt_of_lt hlt)⟩
  case le =>
    rw [hsub]
    refine List.forall_mem_append.mpr ⟨fun s hs => ?_, List.forall_mem_singleton.mpr hle⟩
    exact (h.le s hs).trans (hlt.le.trans hle)
  case points =>
    intro n
    rw [hsub, List.map_append, List.map_singleton, List.mem_append, List.mem_singleton, ← h.points]
    constructor
    · intro hn
      obtain ⟨entry, hentry, rfl⟩ := List.mem_map.mp hn
      rw [hpoints] at hentry
      rcases mem_foldl_insertAddressPoint hentry with hold | ⟨hpoint, -⟩
      · exact .inl (List.mem_map_of_mem hold)
      · exact .inr hpoint
    · rintro (hn | rfl)
      · obtain ⟨entry, hentry, rfl⟩ := List.mem_map.mp hn
        rw [hpoints]
        exact List.mem_map_of_mem (subset_foldl_insertAddressPoint _ _ _ _ hentry)
      · exact List.mem_map.mpr ⟨_, hnew, rfl⟩
  case keys =>
    intro it hit
    rw [hpoints] at hit
    rcases mem_foldl_insertAddressPoint hit with hold | ⟨-, C, hC, hkey⟩
    · obtain ⟨y, hy, hkey⟩ := h.keys it hold
      exact ⟨y, List.mem_append_left _ hy, hkey⟩
    · exact ⟨x, List.mem_append_right _ (List.mem_singleton_self x),
        List.mem_map.mpr ⟨C, hC, hkey.symm⟩⟩

theorem Ranked.apply {done : List (Event Class)} {st : VTableState Class Method}
    (h : b.Ranked (layouts done) st) {e : Event Class}
    (hfresh : ∀ x, e = .layout x → ∀ y ∈ layouts done,
      ⟨x.type, x.offset⟩ ∉ b.addressPointKeys y) :
    b.Ranked (layouts (done ++ [e])) (b.apply st e) := by
  rw [layouts_append]
  cases e with
  | layout x => exact h.layoutAt (hfresh x rfl)
  | find x =>
    rw [show layouts [Event.find x] = [] from rfl, List.append_nil]
    exact ⟨h.orders, h.sorted, h.pos, h.le, h.points, h.keys⟩

theorem ranked_layoutVTable (hb : b.WellFormed) (hdistinct : b.DistinctOffsets) :
    ∃ components, b.Ranked (layouts (b.primaryEvents ++ b.virtualEvents))
      { b.layoutVTable with components := components } := by
  obtain ⟨st, hdetermined, components, hrun⟩ := layoutVTable_eq hb
  have hprimary : b.Ranked (layouts b.primaryEvents) (b.primaryEvents.foldl b.apply {}) := by
    refine foldl_rule (fun done st => b.Ranked (layouts done) st) (fun done e rest st he h => ?_)
      ⟨rfl, List.Pairwise.nil, List.forall_mem_nil _, List.forall_mem_nil _, fun _ => Iff.rfl,
        List.forall_mem_nil _⟩
    refine h.apply fun x hx y hy => ?_
    have hevents : b.primaryEvents ++ b.virtualEvents =
        done ++ .layout x :: (rest ++ b.virtualEvents) := by
      rw [he, hx, List.append_assoc]
      rfl
    exact notMem_addressPointKeys hb hdistinct hevents hy
  obtain ⟨defMap, known, rfl⟩ := hdetermined.frame
  have hvirtual := @foldl_rule _ _ b.apply
    (fun done st => b.Ranked (layouts (b.primaryEvents ++ done)) st) b.virtualEvents
    { b.primaryEvents.foldl b.apply {} with
      virtualBasesDefMap := defMap
      primaryVirtualBases := known } ?step ?start
  case start =>
    rw [List.append_nil]
    exact ⟨hprimary.orders, hprimary.sorted, hprimary.pos, hprimary.le, hprimary.points,
      hprimary.keys⟩
  case step =>
    intro done e rest st he h
    rw [← List.append_assoc]
    refine h.apply fun x hx y hy => ?_
    have hevents : b.primaryEvents ++ b.virtualEvents =
        b.primaryEvents ++ done ++ .layout x :: rest := by
      rw [he, hx, List.append_assoc]
    exact notMem_addressPointKeys hb hdistinct hevents hy
  rw [hrun]
  exact ⟨_, hvirtual⟩

omit [DecidableEq Class] in
theorem addressPointOrder_spec (layout : VTableLayout Class Method) :
    layout.addressPointOrder.Pairwise (· < ·) ∧
      ∀ n, n ∈ layout.addressPointOrder ↔ n ∈ layout.addressPoints.map Prod.snd := by
  refine foldl_rule (fun done (order : List Nat) => order.Pairwise (· < ·) ∧
    ∀ n, n ∈ order ↔ n ∈ done.map Prod.snd) ?step ⟨List.Pairwise.nil, fun _ => Iff.rfl⟩
  case step =>
    rintro done it rest order - ⟨hsorted, hmem⟩
    constructor
    · exact sorted_insertInto it.2 hsorted
    · intro n
      rw [mem_insertInto, hmem, List.map_append, List.mem_append, List.map_singleton,
        List.mem_singleton, or_comm]

/-- The ranks of the address points are the numbers of the sub-vtables. -/
theorem addressPointOrder_layoutVTable (hb : b.WellFormed) (hdistinct : b.DistinctOffsets) :
    b.createVTableLayout.addressPointOrder =
      b.layoutVTable.subVTables.map SubVTable.addressPoint := by
  obtain ⟨components, h⟩ := ranked_layoutVTable hb hdistinct
  obtain ⟨hsorted, hmem⟩ := addressPointOrder_spec b.createVTableLayout
  exact hsorted.eq_of_mem_iff h.sorted fun n => (hmem n).trans (h.points n)

theorem orders_layoutVTable (hb : b.WellFormed) (hdistinct : b.DistinctOffsets) :
    b.layoutVTable.subVTables.map SubVTable.order =
      List.range b.layoutVTable.subVTables.length := by
  obtain ⟨components, h⟩ := ranked_layoutVTable hb hdistinct
  have hlength := congrArg List.length h.orders
  rw [List.length_map, List.length_range] at hlength
  rw [hlength]
  exact h.orders

theorem addressPoint_pos (hb : b.WellFormed) (hdistinct : b.DistinctOffsets) :
    ∀ s ∈ b.layoutVTable.subVTables, 0 < s.addressPoint := by
  obtain ⟨components, h⟩ := ranked_layoutVTable hb hdistinct
  exact h.pos

/-- What is stored for a sub-vtable is the rank of its address point. -/
theorem addressPointOrder_order (hb : b.WellFormed) (hdistinct : b.DistinctOffsets) :
    ∀ s ∈ b.layoutVTable.subVTables,
      b.createVTableLayout.addressPointOrder[s.order]? = some s.addressPoint := by
  intro s hs
  obtain ⟨i, hi, rfl⟩ := List.getElem_of_mem hs
  have horder := congrArg (fun orders => orders[i]?) (orders_layoutVTable hb hdistinct)
  simp only [List.getElem?_map, List.getElem?_eq_getElem hi, List.getElem?_range hi,
    Option.map_some, Option.some.injEq] at horder
  rw [horder, addressPointOrder_layoutVTable hb hdistinct, List.getElem?_map,
    List.getElem?_eq_getElem hi, Option.map_some]

end ItaniumVTableBuilder

end RhoFEM.Frontend
