import RhoFEM.Frontend.Resolves

/-! Whether the numbers in the inheritance map of a layout agree with its address points. -/

namespace RhoFEM.Frontend

open RhoFEM.Lib.PathMap RhoFEM.Lib.PathTable

namespace ItaniumVTableBuilder

variable {Class Method : Type} [DecidableEq Class]

/-- Each number that is stored is the rank of its address point, the map leads from the path it is
stored under to that address point, and each path to a virtual base finds a number. -/
structure OrdersAgree (b : ItaniumVTableBuilder Class Method) : Prop where
  ranks : ∀ s ∈ b.layoutVTable.subVTables,
    b.createVTableLayout.addressPointOrder[s.order]? = some s.addressPoint
  paths : ∀ s ∈ b.layoutVTable.subVTables, ∃ order,
    b.createVTableLayout.inheritanceMap.lookup s.inheritancePath = some order ∧
      b.createVTableLayout.getAddressPoint order = s.addressPoint
  found : none ∉ b.layoutVTable.orders

variable {b : ItaniumVTableBuilder Class Method}

theorem lookup_inheritanceMap (path : List Class) :
    b.createVTableLayout.inheritanceMap.lookup path =
      (b.layoutVTable.inheritanceMap.lookup path).map fun order => order.getD (2 ^ 64 - 1) := by
  have hmap : ∀ entries : List (List Class × Option Nat),
      (entries.map fun it => (it.1, it.2.getD (2 ^ 64 - 1))).lookup path =
        (entries.lookup path).map fun order => order.getD (2 ^ 64 - 1) := by
    intro entries
    induction entries with
    | nil => rfl
    | cons it entries ih =>
      rw [List.map_cons, lookup_cons_eq, ih, lookup_cons_eq]
      split <;> rfl
  exact hmap _

/-- A number leads to the address point of a sub-vtable just if it is the one of the sub-vtable. -/
theorem getAddressPoint_eq_iff (hb : b.WellFormed) (hdistinct : b.DistinctOffsets)
    {s : SubVTable Class} (hs : s ∈ b.layoutVTable.subVTables) {order : Nat} :
    b.createVTableLayout.getAddressPoint order = s.addressPoint ↔ order = s.order := by
  have hrank := addressPointOrder_order hb hdistinct s hs
  constructor
  · intro h
    rw [VTableLayout.getAddressPoint] at h
    have hpos := addressPoint_pos hb hdistinct s hs
    cases hentry : b.createVTableLayout.addressPointOrder[order]? with
    | none =>
      rw [hentry, Option.getD_none] at h
      omega
    | some n =>
      rw [hentry, Option.getD_some] at h
      obtain ⟨hlt, -⟩ := List.getElem?_eq_some_iff.mp hentry
      have hnodup := (addressPointOrder_spec b.createVTableLayout).1.nodup
      exact (List.getElem?_inj hlt hnodup).mp (hentry.trans (h ▸ hrank.symm))
  · rintro rfl
    rw [VTableLayout.getAddressPoint, hrank, Option.getD_some]

/-- The table of the builder at the end of its run. -/
theorem table_layoutVTable (hb : b.WellFormed) : ∃ st,
    b.Determined (b.primaryEvents.foldl b.apply {}) st ∧
      b.layoutVTable.table = (b.virtualEvents.map Event.write).foldl Table.write st.table := by
  obtain ⟨st, hst, components, hrun⟩ := layoutVTable_eq hb
  refine ⟨st, hst, ?_⟩
  rw [← table_foldl_apply fun x hx => (virtual_of_mem_layouts hx).2, hrun]
  rfl

/-- Once each path finds a number, the map leads to an address point just if it holds the number
of the sub-vtable. -/
theorem ordersAgree_iff_kept (hb : b.WellFormed) (hdistinct : b.DistinctOffsets) :
    b.OrdersAgree ↔ none ∉ b.layoutVTable.table.resolved ∧
      ∀ s ∈ b.layoutVTable.table.stored,
        b.layoutVTable.table.entries.lookup s.1 = some (some s.2) := by
  have hstored : (∀ s ∈ b.layoutVTable.table.stored,
      b.layoutVTable.table.entries.lookup s.1 = some (some s.2)) ↔
        ∀ s ∈ b.layoutVTable.subVTables,
          b.layoutVTable.inheritanceMap.lookup s.inheritancePath = some (some s.order) :=
    List.forall_mem_map
  rw [hstored]
  constructor
  · intro h
    refine ⟨h.found, fun s hs => ?_⟩
    obtain ⟨order, horder, hpoint⟩ := h.paths s hs
    obtain rfl := (getAddressPoint_eq_iff hb hdistinct hs).mp hpoint
    rw [lookup_inheritanceMap, Option.map_eq_some_iff] at horder
    obtain ⟨v, hv, hnumber⟩ := horder
    cases v with
    | none =>
      obtain ⟨st, hst, htable⟩ := table_layoutVTable hb
      have htracks := (regular_virtualEvents hb hst).tracks
      rw [← htable] at htracks
      exact absurd hv (htracks.total h.found _)
    | some n =>
      obtain rfl : n = s.order := hnumber
      exact hv
  · rintro ⟨hfound, hkept⟩
    refine ⟨addressPointOrder_order hb hdistinct, fun s hs => ⟨s.order, ?_, ?_⟩, hfound⟩
    · rw [lookup_inheritanceMap, hkept s hs]
      rfl
    · exact (getAddressPoint_eq_iff hb hdistinct hs).mpr rfl

/-- The numbers of a layout agree with its address points just if the paths to shared virtual
bases resolve. -/
theorem ordersAgree_iff (hb : b.WellFormed) (hdistinct : b.DistinctOffsets) :
    b.OrdersAgree ↔ b.PathsResolve := by
  obtain ⟨st, hst, htable⟩ := table_layoutVTable hb
  have hregular := regular_virtualEvents hb hst
  rw [ordersAgree_iff_kept hb hdistinct, pathsResolve_iff hb hst, htable, hregular.found_iff,
    hregular.kept_iff]

end ItaniumVTableBuilder

/-- The classes of `struct B : virtual V` and `struct D : N, virtual V, virtual B`. -/
inductive Struct
  | N
  | V
  | B
  | D
  deriving DecidableEq

namespace Struct

open ItaniumVTableBuilder

/-- The layout of `D`, with its virtual bases in some order: `B` stands behind `N`, and shares its
vtable with `V`. -/
def builder (virtualBases : List Struct) : ItaniumVTableBuilder Struct String where
  bases
    | .N => []
    | .V => []
    | .B => [⟨.V, true⟩]
    | .D => ⟨.N, false⟩ :: virtualBases.map fun base => ⟨base, true⟩
  isDynamicClass := fun _ => true
  numVBases
    | .N => 0
    | .V => 0
    | .B => 1
    | .D => 2
  recordLayout
    | .N => ⟨none, false, fun _ => 0, fun _ => 0⟩
    | .V => ⟨none, false, fun _ => 0, fun _ => 0⟩
    | .B => ⟨some .V, true, fun _ => 0, fun _ => 0⟩
    | .D => ⟨some .N, false, fun _ => 0, fun _ => 8⟩
  depth
    | .N => 0
    | .V => 0
    | .B => 1
    | .D => 2
  mostDerivedClass := .D
  mostDerivedClassOffset := 0
  mostDerivedClassIsVirtual := false
  layoutClass := .D
  isAppleKext := false
  vcallAndVBaseOffsets
    | ⟨.D, _⟩, _, _ => [.other, .other]
    | ⟨.B, _⟩, _, _ => [.other, .other, .other]
    | _, _, _ => []
  addMethods
    | _, ⟨.D, _⟩, _ => [.functionPointer "_ZN1N1hEv"]
    | _, ⟨.B, _⟩, _ => [.functionPointer "_ZN1V1fEv", .functionPointer "_ZN1B1gEv"]
    | _, _, _ => []

theorem builder_wellFormed {virtualBases : List Struct}
    (h : virtualBases = [.V, .B] ∨ virtualBases = [.B, .V]) :
    (builder virtualBases).WellFormed := by
  have hprimary : ∀ C, ∀ P ∈ ((builder virtualBases).recordLayout C).primaryBase,
      ((builder virtualBases).recordLayout C).isPrimaryBaseVirtual = true →
        C = .B ∧ P = .V := by
    intro C
    rcases h with rfl | rfl <;> cases C <;> decide
  constructor
  case virtual_primary =>
    intro C P hP hvirtual
    obtain ⟨rfl, rfl⟩ := hprimary C P hP hvirtual
    exact .direct (List.mem_singleton_self _)
  all_goals
    intro C
    rcases h with rfl | rfl <;> cases C <;> decide

/-- The path to `B` is walked first, so the path to `V` has an initial segment with a number. -/
theorem builder_resolves : (builder [.B, .V]).PathsResolve := by
  refine (ordersAgree_iff (builder_wellFormed (.inr rfl)) ?_).mp ⟨?_, ?_, ?_⟩
  · unfold DistinctOffsets
    decide
  · decide
  · have hpaths : ∀ s ∈ (builder [.B, .V]).layoutVTable.subVTables,
        (builder [.B, .V]).createVTableLayout.inheritanceMap.lookup s.inheritancePath =
          some s.order ∧ (builder [.B, .V]).createVTableLayout.getAddressPoint s.order =
            s.addressPoint := by decide
    exact fun s hs => ⟨s.order, hpaths s hs⟩
  · decide

/-- The path to `V` is walked first, where the map holds no initial segment of the path through
`B`. -/
theorem builder_notFound : (builder [.V, .B]).WellFormed ∧ (builder [.V, .B]).DistinctOffsets ∧
    (builder [.V, .B]).layoutVTable.orders = [none, some 1] ∧
      ¬ (builder [.V, .B]).OrdersAgree := by
  have horders : (builder [.V, .B]).layoutVTable.orders = [none, some 1] := by decide
  refine ⟨builder_wellFormed (.inl rfl), ?_, horders, fun h => h.found ?_⟩
  · unfold DistinctOffsets
    decide
  · rw [horders]
    exact List.mem_cons_self

end Struct

end RhoFEM.Frontend
