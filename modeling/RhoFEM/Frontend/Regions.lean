import RhoFEM.Frontend.Parents

/-! The regions of the sub-vtables in a vtable layout. -/

namespace RhoFEM.Frontend

open RhoFEM.Lib.Fold RhoFEM.CHA

/-- Offsets and type information up to an address point, and the functions behind it. -/
structure Segment (Method : Type) where
  offsets : Nat
  functions : List (VTableComponent Method)
  offsets_pos : 0 < offsets
  isFunction : ∀ c ∈ functions, c.method.isSome

namespace Segment

variable {Method : Type}

def components (s : Segment Method) : List (VTableComponent Method) :=
  List.replicate s.offsets .other ++ s.functions

theorem length_components (s : Segment Method) :
    s.components.length = s.offsets + s.functions.length := by
  rw [components, List.length_append, List.length_replicate]

/-- The address points of some segments, of which the first starts somewhere. -/
def addressPoints : Nat → List (Segment Method) → List Nat
  | _, [] => []
  | start, s :: segments =>
    (start + s.offsets) :: addressPoints (start + s.components.length) segments

theorem lt_addressPoints {start : Nat} {segments : List (Segment Method)} :
    ∀ a ∈ addressPoints start segments, start < a := by
  induction segments generalizing start with
  | nil => exact List.forall_mem_nil _
  | cons s segments ih =>
    have hpos := s.offsets_pos
    refine List.forall_mem_cons.mpr ⟨by omega, ?_⟩
    exact fun a ha => (Nat.le_add_right _ _).trans_lt (ih a ha)

theorem pairwise_addressPoints (start : Nat) (segments : List (Segment Method)) :
    (addressPoints start segments).Pairwise (· < ·) := by
  induction segments generalizing start with
  | nil => exact .nil
  | cons s segments ih =>
    refine List.pairwise_cons.mpr ⟨?_, ih _⟩
    intro a ha
    have hlt := lt_addressPoints a ha
    rw [length_components] at hlt
    omega

/-- Behind the functions of a segment stands the next segment, or the end. -/
theorem takeWhile_functions (s : Segment Method) (rest : List (Segment Method)) :
    ((s.functions ++ rest.flatMap components).map VTableComponent.method).takeWhile
      Option.isSome = s.functions.map VTableComponent.method := by
  rw [List.map_append, List.takeWhile_append_of_pos, List.append_right_eq_self]
  · cases rest with
    | nil => rfl
    | cons r rest =>
      obtain ⟨n, hn⟩ := Nat.exists_eq_succ_of_ne_zero r.offsets_pos.ne'
      rw [List.flatMap_cons, components, hn, List.replicate_succ]
      rfl
  · exact List.forall_mem_map.mpr s.isFunction

end Segment

/-- A layout as Clang builds it: its segments in order. -/
structure Segmented {Class Method : Type} (layout : VTableLayout Class Method)
    (segments : List (Segment Method)) : Prop where
  components : layout.components = segments.flatMap Segment.components
  addressPoints : layout.addressPointOrder = Segment.addressPoints 0 segments

/-- The paths of a layout lead to all its address points, and start at other classes, whose
layouts have the rest of the path. -/
structure PathsMapped {Class Method : Type} [DecidableEq Class] (program : Program Class Method)
    (layout : VTableLayout Class Method) (RD : Class) : Prop where
  orders : ∀ k, (∃ it ∈ layout.inheritanceMap, it.2 = k) ↔ k < layout.addressPointOrder.length
  parents : ∀ it ∈ layout.inheritanceMap, ∀ P rest,
    layout.parentInheritancePath it.1 = P :: rest →
      program.classMangledName P ≠ program.classMangledName RD ∧
        (rest ≠ [] → rest ∈ (program.vTableLayout P).inheritanceMap.map Prod.fst)

/-- Regions without gaps from a component to the end, each with its address point. -/
inductive Tiles (n : Nat) : Nat → List SDVtableMD → Prop
  | done : Tiles n n []
  | region {sub : SDVtableMD} {rest : List SDVtableMD} : sub.start ≤ sub.addressPoint →
    sub.addressPoint ≤ sub.stop → Tiles n (sub.stop + 1) rest → Tiles n sub.start (sub :: rest)

theorem tiles_cons_iff {n start : Nat} {sub : SDVtableMD} {rest : List SDVtableMD} :
    Tiles n start (sub :: rest) ↔ sub.start = start ∧ sub.start ≤ sub.addressPoint ∧
      sub.addressPoint ≤ sub.stop ∧ Tiles n (sub.stop + 1) rest := by
  constructor
  · intro h
    cases h with
    | region hstart hstop hrest => exact ⟨rfl, hstart, hstop, hrest⟩
  · rintro ⟨rfl, hstart, hstop, hrest⟩
    exact .region hstart hstop hrest

/-- Every component is in one region only. -/
theorem Tiles.existsUnique {n start : Nat} {subs : List SDVtableMD} (h : Tiles n start subs) :
    ∀ i, start ≤ i → i < n → ∃! sub, sub ∈ subs ∧ sub.start ≤ i ∧ i ≤ sub.stop := by
  have hstarts : ∀ {start subs}, Tiles n start subs → ∀ sub ∈ subs, start ≤ sub.start := by
    intro start subs h
    induction h with
    | done => exact List.forall_mem_nil _
    | region hstart hstop _ ih =>
      refine List.forall_mem_cons.mpr ⟨le_refl _, fun sub hsub => ?_⟩
      have := ih sub hsub
      omega
  induction h with
  | done => exact fun i hlo hhi => absurd hlo (Nat.not_le.mpr hhi)
  | @region sub rest hstart hstop hrest ih =>
    intro i hlo hhi
    by_cases hi : i ≤ sub.stop
    · refine ⟨sub, ⟨List.mem_cons_self, hlo, hi⟩, ?_⟩
      rintro other ⟨hmem, hother, -⟩
      rcases List.mem_cons.mp hmem with rfl | hmem
      · rfl
      · have := hstarts hrest other hmem
        omega
    · obtain ⟨other, ⟨hmem, hother⟩, honly⟩ := ih i (by omega) hhi
      refine ⟨other, ⟨List.mem_cons_of_mem _ hmem, hother⟩, ?_⟩
      rintro sub' ⟨hmem', hsub'⟩
      rcases List.mem_cons.mp hmem' with rfl | hmem'
      · exact absurd hsub'.2 hi
      · exact honly sub' ⟨hmem', hsub'⟩

/-- The regions of some segments, whether or not they have functions. -/
inductive Follows {Method : Type} : Nat → List SDVtableMD → List (Segment Method) → Prop
  | nil {start : Nat} : Follows start [] []
  | cons {start : Nat} {sub : SDVtableMD} {subs : List SDVtableMD} {s : Segment Method}
    {segments : List (Segment Method)} : sub.start = start →
    sub.addressPoint = start + s.offsets → sub.stop + 1 = start + s.components.length →
    Follows (start + s.components.length) subs segments →
    Follows start (sub :: subs) (s :: segments)

theorem Follows.addressPoints {Method : Type} {start : Nat} {subs : List SDVtableMD}
    {segments : List (Segment Method)} (h : Follows start subs segments) :
    subs.map SDVtableMD.addressPoint = Segment.addressPoints start segments := by
  induction h with
  | nil => rfl
  | cons _ haddr _ _ ih => rw [List.map_cons, haddr, ih, Segment.addressPoints]

/-- A segment without functions ends before its own address point. -/
theorem Follows.tiles_iff {Method : Type} {start : Nat} {subs : List SDVtableMD}
    {segments : List (Segment Method)} (h : Follows start subs segments) :
    Tiles (start + (segments.flatMap Segment.components).length) start subs ↔
      ∀ s ∈ segments, s.functions ≠ [] := by
  induction h with
  | nil => exact iff_of_true .done (List.forall_mem_nil _)
  | @cons start sub subs s segments hstart haddr hstop _ ih =>
    have hlength := s.length_components
    have hfunctions : s.functions = [] ↔ s.functions.length = 0 := List.length_eq_zero_iff.symm
    rw [List.flatMap_cons, List.length_append, ← Nat.add_assoc, List.forall_mem_cons, ← ih, ne_eq,
      hfunctions]
    rw [tiles_cons_iff, hstop]
    constructor
    · rintro ⟨-, -, hle, hrest⟩
      exact ⟨by omega, hrest⟩
    · rintro ⟨hne, hrest⟩
      exact ⟨hstart, by omega, by omega, hrest⟩

section Regions

variable {Class Method : Type} {program : Program Class Method}
  {layout : VTableLayout Class Method} {RD : Class}

variable (program) in
theorem functionsAt_segment {before rest : List (Segment Method)} {s : Segment Method}
    (h : layout.components = (before ++ s :: rest).flatMap Segment.components) :
    ∃ functions, program.functionsAt layout.components
        ((before.flatMap Segment.components).length + s.offsets) =
      (functions, (before.flatMap Segment.components).length + s.components.length) := by
  have hdrop : layout.components.drop
      ((before.flatMap Segment.components).length + s.offsets) =
        s.functions ++ rest.flatMap Segment.components := by
    rw [h, List.flatMap_append, List.flatMap_cons, Segment.components, List.append_assoc,
      List.drop_append, List.drop_append]
    simp
  simp only [Program.functionsAt, hdrop, s.takeWhile_functions rest, List.length_map,
    s.length_components, Nat.add_assoc]
  exact ⟨_, rfl⟩

theorem length_components_lt {before rest : List (Segment Method)} {s : Segment Method}
    (h : layout.components = (before ++ s :: rest).flatMap Segment.components) :
    (before.flatMap Segment.components).length + s.offsets < layout.components.length ↔
      (s.functions = [] → rest ≠ []) := by
  have hlength : layout.components.length = (before.flatMap Segment.components).length +
      (s.offsets + s.functions.length) + (rest.flatMap Segment.components).length := by
    rw [h, List.flatMap_append, List.flatMap_cons, List.length_append, List.length_append,
      s.length_components, ← Nat.add_assoc]
  have hrest : 0 < (rest.flatMap Segment.components).length ↔ rest ≠ [] := by
    cases rest with
    | nil => simp
    | cons r rest =>
      have := r.offsets_pos
      simp only [List.flatMap_cons, List.length_append, r.length_components, ne_eq, reduceCtorEq,
        not_false_iff, iff_true]
      omega
  have hfunctions : s.functions = [] ↔ s.functions.length = 0 := List.length_eq_zero_iff.symm
  rw [hlength, ← hrest, hfunctions]
  omega

/-- What the loop does for the address point of one segment. -/
theorem addRegion_segment {before rest : List (Segment Method)} {s : Segment Method}
    (h : layout.components = (before ++ s :: rest).flatMap Segment.components)
    (subs : List SDVtableMD) {prev : Nat}
    (hprev : prev ≤ (before.flatMap Segment.components).length) {parents : List Vtbl}
    (hparents : ∀ v ∈ parents, v.1 ≠ program.classMangledName RD) :
    (∀ st, program.addRegion layout (program.classMangledName RD)
        (subs, (before.flatMap Segment.components).length, prev)
        ((before.flatMap Segment.components).length + s.offsets, parents) = .ok st →
      s.functions = [] → rest ≠ []) ∧
    ((s.functions = [] → rest ≠ []) →
      ∃ sub, program.addRegion layout (program.classMangledName RD)
          (subs, (before.flatMap Segment.components).length, prev)
          ((before.flatMap Segment.components).length + s.offsets, parents) =
        .ok (subs ++ [sub], (before.flatMap Segment.components).length + s.components.length,
          (before.flatMap Segment.components).length + s.offsets) ∧
        sub.start = (before.flatMap Segment.components).length ∧
        sub.addressPoint = (before.flatMap Segment.components).length + s.offsets ∧
        sub.stop + 1 = (before.flatMap Segment.components).length + s.components.length) := by
  have hpos := s.offsets_pos
  have hlength := s.length_components
  have hinside := length_components_lt h
  obtain ⟨functions, hfunctions⟩ := functionsAt_segment program h
  have hown : ¬ parents.any fun it => it.1 = program.classMangledName RD := by
    intro hany
    obtain ⟨v, hv, heq⟩ := List.any_eq_true.mp hany
    exact hparents v hv (of_decide_eq_true heq)
  simp only [Program.addRegion, hfunctions]
  rw [if_neg (not_not_intro (by omega)), if_neg (not_not_intro (by omega)), if_neg hown]
  constructor
  · intro st hok
    by_contra hlast
    rw [if_pos (mt hinside.mp hlast)] at hok
    cases hok
  · intro hlast
    rw [if_neg (not_not_intro (hinside.mpr hlast))]
    exact ⟨_, rfl, rfl, rfl, by dsimp only; omega⟩

/-- The loop adds the regions of the segments that are left, or stops at one without functions. -/
theorem foldlM_addRegion {before segments : List (Segment Method)}
    (h : layout.components = (before ++ segments).flatMap Segment.components)
    {map : List (Nat × List Vtbl)} (hkeys : map.map Prod.fst =
      Segment.addressPoints (before.flatMap Segment.components).length segments)
    (hparents : ∀ region ∈ map, ∀ v ∈ region.2, v.1 ≠ program.classMangledName RD)
    (subs : List SDVtableMD) {prev : Nat}
    (hprev : prev ≤ (before.flatMap Segment.components).length) :
    (∃ new last, map.foldlM (program.addRegion layout (program.classMangledName RD))
        (subs, (before.flatMap Segment.components).length, prev) =
          .ok (subs ++ new, layout.components.length, last) ∧
      Follows (before.flatMap Segment.components).length new segments) ∨
    (¬ ∃ st, map.foldlM (program.addRegion layout (program.classMangledName RD))
        (subs, (before.flatMap Segment.components).length, prev) = .ok st) ∧
      ∃ s ∈ segments, s.functions = [] := by
  induction segments generalizing before map subs prev with
  | nil =>
    obtain rfl := List.map_eq_nil_iff.mp hkeys
    rw [List.append_nil] at h
    exact .inl ⟨[], prev, by rw [List.append_nil, h]; rfl, .nil⟩
  | cons s segments ih =>
    obtain ⟨⟨addrPt, parents⟩, map, rfl⟩ : ∃ region rest, map = region :: rest := by
      cases map with
      | nil => cases hkeys
      | cons region rest => exact ⟨region, rest, rfl⟩
    obtain ⟨rfl, hrest⟩ := List.cons.inj hkeys
    obtain ⟨hself, hparents⟩ := List.forall_mem_cons.mp hparents
    obtain ⟨hinside, hadd⟩ := addRegion_segment h subs hprev hself
    have hbefore : ((before ++ [s]).flatMap Segment.components).length =
        (before.flatMap Segment.components).length + s.components.length := by simp
    have hlength := s.length_components
    by_cases hlast : s.functions = [] → segments ≠ []
    · obtain ⟨sub, hok, hstart, haddr, hstop⟩ := hadd hlast
      rw [List.append_cons] at h
      rw [← hbefore] at hrest hok
      have hprev' : (before.flatMap Segment.components).length + s.offsets ≤
          ((before ++ [s]).flatMap Segment.components).length := by
        rw [hbefore]
        omega
      have hfold := ih h hrest hparents (subs ++ [sub]) hprev'
      rcases hfold with ⟨new, last, hfold, hfollows⟩ | ⟨hstuck, hempty⟩
      · refine .inl ⟨sub :: new, last, ?_, .cons hstart haddr hstop (hbefore ▸ hfollows)⟩
        rw [List.foldlM_cons, bind_eq_ok]
        exact ⟨_, hok, by rw [hfold, List.append_assoc, List.singleton_append]⟩
      · refine .inr ⟨?_, List.exists_mem_cons_of_exists hempty⟩
        rintro ⟨st, hst⟩
        rw [List.foldlM_cons, bind_eq_ok] at hst
        obtain ⟨st₁, hst₁, hst⟩ := hst
        obtain rfl := Except.ok.inj (hok.symm.trans hst₁)
        exact hstuck ⟨st, hst⟩
    · refine .inr ⟨?_, s, List.mem_cons_self, by tauto⟩
      rintro ⟨st, hst⟩
      rw [List.foldlM_cons, bind_eq_ok] at hst
      obtain ⟨st₁, hst₁, -⟩ := hst
      exact hlast (hinside st₁ hst₁)

/-- The map of a layout with such paths has the address points of its segments. -/
theorem PathsMapped.addrPtMap [DecidableEq Class] {segments : List (Segment Method)}
    (h : Segmented layout segments) (hmapped : PathsMapped program layout RD) :
    ∃ map, program.addrPtMap layout = .ok map ∧
      map.map Prod.fst = Segment.addressPoints 0 segments ∧
      ∀ region ∈ map, ∀ v ∈ region.2, v.1 ≠ program.classMangledName RD := by
  have hparent := fun it hit => exists_parentVtbl_iff.mpr (hmapped.parents it hit)
  obtain ⟨map, hmap⟩ := addrPtMap_ok program fun it hit => (hparent it hit).imp fun _ h => h.1
  obtain ⟨⟨hsorted, hkeys⟩, -, hparents, -⟩ := addrPtMap_entries hmap
  refine ⟨map, hmap, ?_, ?_⟩
  · rw [← h.addressPoints]
    apply hsorted.eq_of_mem_iff (h.addressPoints ▸ Segment.pairwise_addressPoints 0 segments)
    intro a
    rw [hkeys, List.mem_map]
    constructor
    · rintro ⟨it, hit, rfl⟩
      have hlt := (hmapped.orders it.2).mp ⟨it, hit, rfl⟩
      rw [VTableLayout.getAddressPoint, List.getElem?_eq_getElem hlt, Option.getD_some]
      exact List.getElem_mem hlt
    · intro ha
      obtain ⟨k, hk, rfl⟩ := List.mem_iff_getElem.mp ha
      obtain ⟨it, hit, rfl⟩ := (hmapped.orders k).mpr hk
      refine ⟨it, hit, ?_⟩
      rw [VTableLayout.getAddressPoint, List.getElem?_eq_getElem hk, Option.getD_some]
  · intro region hregion v hv
    obtain ⟨it, hit, hok⟩ := (hparents v).mp ⟨region, hregion, hv⟩
    obtain ⟨parent, hparent, hne⟩ := hparent it hit
    obtain rfl := Except.ok.inj (hparent.symm.trans hok)
    exact hne

/-- Regions at all the address points come from paths that lead to all of them. -/
theorem Segmented.mapped [DecidableEq Class] {segments : List (Segment Method)}
    (h : Segmented layout segments) {subs : List SDVtableMD}
    (hok : program.generateSubvtableInfo layout RD = .ok subs)
    (haddr : subs.map SDVtableMD.addressPoint = layout.addressPointOrder) :
    PathsMapped program layout RD := by
  obtain ⟨hmap, hown⟩ := generateSubvtableInfo_regions hok
  obtain ⟨⟨-, hkeys⟩, hfound, hparents, -⟩ := addrPtMap_entries hmap
  have hpoints : (subs.map fun sub => (sub.addressPoint, sub.parents)).map Prod.fst =
      layout.addressPointOrder := by rw [List.map_map, ← haddr]; rfl
  have hsorted := h.addressPoints ▸ Segment.pairwise_addressPoints 0 segments
  have hpos : ∀ p ∈ layout.addressPointOrder, 0 < p :=
    h.addressPoints ▸ Segment.lt_addressPoints
  rw [hpoints] at hkeys
  -- an order without an address point stands for the address point 0, which no segment has
  have hlt : ∀ it ∈ layout.inheritanceMap, it.2 < layout.addressPointOrder.length := by
    intro it hit
    by_contra hge
    have hmem := (hkeys _).mpr (List.mem_map_of_mem hit)
    rw [VTableLayout.getAddressPoint, List.getElem?_eq_none (Nat.not_lt.mp hge)] at hmem
    exact absurd (hpos _ hmem) (lt_irrefl 0)
  refine ⟨fun k => ⟨?_, fun hk => ?_⟩, fun it hit => exists_parentVtbl_iff.mp ?_⟩
  · rintro ⟨it, hit, rfl⟩
    exact hlt it hit
  · obtain ⟨it, hit, heq⟩ := List.mem_map.mp ((hkeys _).mp (List.getElem_mem hk))
    have hlt' := hlt it hit
    have hget : layout.addressPointOrder[it.2] = layout.addressPointOrder[k] := by
      rw [← heq, VTableLayout.getAddressPoint, List.getElem?_eq_getElem hlt', Option.getD_some]
    exact ⟨it, hit, hsorted.nodup.getElem_inj_iff.mp hget⟩
  · obtain ⟨q, hq⟩ := hfound it hit
    obtain ⟨region, hregion, hmem⟩ := (hparents q).mpr ⟨it, hit, hq⟩
    obtain ⟨sub, hsub, rfl⟩ := List.mem_map.mp hregion
    exact ⟨q, hq, hown sub hsub q hmem⟩

/-- Such paths give the regions of the segments, or a segment has no functions. -/
theorem PathsMapped.regions [DecidableEq Class] {segments : List (Segment Method)}
    (h : Segmented layout segments) (hmapped : PathsMapped program layout RD) :
    (∃ subs, program.generateSubvtableInfo layout RD = .ok subs ∧ Follows 0 subs segments) ∨
    (¬ ∃ subs, program.generateSubvtableInfo layout RD = .ok subs) ∧
      ∃ s ∈ segments, s.functions = [] := by
  obtain ⟨map, hmap, hkeys, hparents⟩ := hmapped.addrPtMap h
  have hfold := @foldlM_addRegion _ _ program layout RD [] segments h.components map hkeys
    hparents [] 0 (le_refl _)
  rcases hfold with ⟨new, last, hfold, hfollows⟩ | ⟨hstuck, hempty⟩
  · refine .inl ⟨new, ?_, hfollows⟩
    rw [Program.generateSubvtableInfo, bind_eq_ok]
    exact ⟨map, hmap, bind_eq_ok.mpr ⟨_, hfold, if_neg (not_not_intro rfl)⟩⟩
  · refine .inr ⟨?_, hempty⟩
    rintro ⟨subs, hsubs⟩
    rw [Program.generateSubvtableInfo, bind_eq_ok] at hsubs
    obtain ⟨map', hmap', hsubs⟩ := hsubs
    obtain rfl := Except.ok.inj (hmap.symm.trans hmap')
    obtain ⟨st, hst, -⟩ := bind_eq_ok.mp hsubs
    exact hstuck ⟨st, hst⟩

/-- The regions of a layout partition its components and hold their address points, exactly
when its paths are mapped and there are functions behind every address point. -/
theorem generateSubvtableInfo_tiles_iff [DecidableEq Class] {segments : List (Segment Method)}
    (h : Segmented layout segments) :
    (∃ subs, program.generateSubvtableInfo layout RD = .ok subs ∧
      subs.map SDVtableMD.addressPoint = layout.addressPointOrder ∧
      Tiles layout.components.length 0 subs ∧
      ∀ i < layout.components.length, ∃! sub, sub ∈ subs ∧ sub.start ≤ i ∧ i ≤ sub.stop) ↔
      PathsMapped program layout RD ∧ ∀ s ∈ segments, s.functions ≠ [] := by
  have hlength : layout.components.length = 0 + (segments.flatMap Segment.components).length := by
    rw [h.components, Nat.zero_add]
  constructor
  · rintro ⟨subs, hsubs, haddr, htiles, -⟩
    have hmapped := h.mapped hsubs haddr
    rcases hmapped.regions h with ⟨new, hok, hfollows⟩ | ⟨hstuck, -⟩
    · obtain rfl := Except.ok.inj (hok.symm.trans hsubs)
      exact ⟨hmapped, hfollows.tiles_iff.mp (hlength ▸ htiles)⟩
    · exact absurd ⟨subs, hsubs⟩ hstuck
  · rintro ⟨hmapped, hfunctions⟩
    rcases hmapped.regions h with ⟨new, hok, hfollows⟩ | ⟨-, s, hs, hempty⟩
    · have htiles : Tiles layout.components.length 0 new :=
        hlength ▸ hfollows.tiles_iff.mpr hfunctions
      exact ⟨new, hok, by rw [hfollows.addressPoints, h.addressPoints], htiles,
        fun i hi => htiles.existsUnique i (Nat.zero_le i) hi⟩
    · exact absurd hempty (hfunctions s hs)

end Regions

/-- A class whose vtable is one segment. -/
def oneSegment (s : Segment Unit) : VTableLayout Unit Unit where
  components := s.components
  addressPoints := [(⟨(), 0⟩, s.offsets)]
  inheritanceMap := [([], 0)]
  mostDerived := ()
  layoutClass := ()

def oneClass (s : Segment Unit) : Program Unit Unit where
  bases := fun _ => []
  mangleName := fun _ => "1B"
  mangleBaseName := fun _ _ => "1B"
  functionMangledName := fun _ => "_ZN1B1fEv"
  vTableLayout := fun _ => oneSegment s
  constructionVTableLayout := fun _ _ => oneSegment s

theorem oneSegment_segmented (s : Segment Unit) : Segmented (oneSegment s) [s] where
  components := by rw [List.flatMap_singleton]; rfl
  addressPoints := by rw [Segment.addressPoints, Nat.zero_add]; rfl

theorem oneSegment_mapped (s : Segment Unit) : PathsMapped (oneClass s) (oneSegment s) () where
  orders k := by
    have hlength : (oneSegment s).addressPointOrder.length = 1 := rfl
    rw [hlength, Nat.lt_one_iff]
    simp [oneSegment, eq_comm]
  parents := List.forall_mem_singleton.mpr fun P rest h => by cases h

/-- A virtual function. -/
def withFunction : Segment Unit := ⟨2, [.functionPointer ()], by decide, by decide⟩

theorem generateSubvtableInfo_tiles_iff_function :
    (∃ subs, (oneClass withFunction).generateSubvtableInfo (oneSegment withFunction) () = .ok subs ∧
      subs.map SDVtableMD.addressPoint = (oneSegment withFunction).addressPointOrder ∧
      Tiles (oneSegment withFunction).components.length 0 subs ∧
      ∀ i < (oneSegment withFunction).components.length,
        ∃! sub, sub ∈ subs ∧ sub.start ≤ i ∧ i ≤ sub.stop) ↔
      PathsMapped (oneClass withFunction) (oneSegment withFunction) () ∧
        ∀ s ∈ [withFunction], s.functions ≠ [] :=
  generateSubvtableInfo_tiles_iff (oneSegment_segmented withFunction)

/-- The offset of a virtual base, the offset to the top and the type, but no function. -/
def virtualBase : Segment Unit := ⟨3, [], by decide, List.forall_mem_nil _⟩

/-- The address point of a class with a virtual base and no functions is behind its vtable. -/
theorem generateSubvtableInfo_virtualBase :
    Segmented (oneSegment virtualBase) [virtualBase] ∧
      PathsMapped (oneClass virtualBase) (oneSegment virtualBase) () ∧
        (oneSegment virtualBase).addressPointOrder = [3] ∧
          (oneSegment virtualBase).components.length = 3 ∧
            ∀ subs, (oneClass virtualBase).generateSubvtableInfo (oneSegment virtualBase) () ≠
              .ok subs := by
  have hstuck : (oneClass virtualBase).generateSubvtableInfo (oneSegment virtualBase) () =
      .error .addressPointOutside := rfl
  refine ⟨oneSegment_segmented virtualBase, oneSegment_mapped virtualBase, rfl, rfl, ?_⟩
  intro subs hok
  cases hstuck.symm.trans hok

end RhoFEM.Frontend
