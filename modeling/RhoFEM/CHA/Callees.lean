import RhoFEM.CHA.Walks

/-! The recursions of `buildFunctionInfo` end, and the callees in the range of a
virtual call site. -/

namespace RhoFEM.CHA

open RhoFEM.Lib.Fold RhoFEM.Lib.Search RhoFEM.Lib.Traversal

namespace SDBuildCHA

variable {cha : SDBuildCHA}

theorem fst_mem_classNames {v w : Vtbl} (h : w ∈ cha.children v) : w.1 ∈ cha.classNames := by
  apply List.mem_append_right
  exact List.mem_map_of_mem (cha.supported v w h)

theorem topoSortHelper_marked (fuel : Nat) {node : String} {s s' : TopoState}
    (h : cha.topoSortHelper fuel node s = .ok s') : s.tempMarked ⊆ s'.tempMarked := by
  induction fuel generalizing node s s' with
  | zero => exact absurd h nofun
  | succ fuel ih =>
    rw [topoSortHelper] at h
    split at h
    · rw [Except.ok.inj h]
      exact List.Subset.refl _
    · split at h
      · exact absurd h nofun
      · rw [bind_eq_ok] at h
        obtain ⟨t, hfold, hrest⟩ := h
        obtain rfl := Except.ok.inj hrest
        apply List.Subset.trans (List.subset_append_left s.tempMarked [node])
        exact foldlM_ok_rule (fun _ t => s.tempMarked ++ [node] ⊆ t.tempMarked)
          (fun _ _ _ _ ht _ hstep => List.Subset.trans ht (ih hstep)) (List.Subset.refl _) hfold

/-- Each level of the recursion marks a class that was not marked before. -/
theorem topoSortHelper_ne_outOfFuel (fuel : Nat) {node : String} {s : TopoState}
    (hnode : node ∈ cha.classNames) (hfuel : remaining cha.classNames s.tempMarked < fuel) :
    cha.topoSortHelper fuel node s ≠ .error .outOfFuel := by
  induction fuel generalizing node s with
  | zero => exact absurd hfuel (Nat.not_lt_zero _)
  | succ fuel ih =>
    rw [topoSortHelper]
    split
    · exact nofun
    · split
      · exact nofun
      · rename_i hmarked
        rw [ne_eq, bind_eq_error]
        intro h
        rcases h with hfold | ⟨t, -, hrest⟩
        · refine foldlM_ne_error (fun t => remaining cha.classNames t.tempMarked < fuel)
            ?step ?child ?start hfold
          case step =>
            intro child t t' ht _ hstep
            exact (remaining_anti _ (topoSortHelper_marked fuel hstep)).trans_lt ht
          case child =>
            intro child t ht hchild
            exact ih (fst_mem_classNames hchild) ht
          case start =>
            exact (remaining_concat hnode hmarked).trans_le (Nat.le_of_lt_succ hfuel)
        · exact absurd hrest nofun

theorem topoSort_ne_outOfFuel : cha.topoSort ≠ .error .outOfFuel := by
  rw [topoSort, ne_eq, bind_eq_error]
  intro h
  rcases h with hfold | ⟨t, -, hrest⟩
  · refine foldlM_ne_error (fun _ => True) (fun _ _ _ _ _ _ => trivial) ?root trivial hfold
    intro root s _ hroot
    apply topoSortHelper_ne_outOfFuel _ (List.mem_append_left _ hroot)
    apply Nat.lt_succ_of_le
    exact (Finset.card_le_card Finset.sdiff_subset).trans (List.toFinset_card_le _)
  · exact absurd hrest nofun

theorem visitChild_ne_outOfFuel
    {recurse : FunctionEntry → FunctionInfo → Except Failure (Range × FunctionInfo)}
    {offset : Nat} {acc : Range × FunctionInfo} {child : Vtbl}
    (h : ∀ e, cha.slotEntry child offset = some e → recurse e acc.2 ≠ .error .outOfFuel) :
    cha.visitChild recurse offset acc child ≠ .error .outOfFuel := by
  unfold visitChild
  split
  · exact nofun
  · rename_i e hslot
    rw [ne_eq, bind_eq_error]
    intro herr
    rcases herr with hrec | ⟨⟨sub, t⟩, -, hrest⟩
    · exact h e hslot hrec
    · by_cases hsub : acc.1.2 + 1 = sub.1
      · exact absurd ((if_pos hsub).symm.trans hrest) nofun
      · exact absurd ((if_neg hsub).symm.trans hrest) nofun

/-- Each level of the recursion numbers an entry that had no identifier. -/
theorem buildFunctionInfoForFunction_ne_outOfFuel (fuel : Nat) {e : FunctionEntry}
    {s : FunctionInfo} (he : e ∈ cha.entries) (hsound : Sound cha.ChildEntry s.numbering)
    (hfuel : unnumbered cha.entries s.numbering < fuel) :
    cha.buildFunctionInfoForFunction fuel e s ≠ .error .outOfFuel := by
  induction fuel generalizing e s with
  | zero => exact absurd hfuel (Nat.not_lt_zero _)
  | succ fuel ih =>
    rw [buildFunctionInfoForFunction]
    cases hids : s.numbering.ids e with
    | some i => simp
    | none =>
      simp only [Option.isSome_none, Bool.false_eq_true, if_false]
      rw [ne_eq, bind_eq_error]
      intro herr
      rcases herr with hfold | ⟨t, -, hrest⟩
      · refine foldlM_ne_error (fun acc : Range × FunctionInfo =>
          Sound cha.ChildEntry acc.2.numbering ∧ unnumbered cha.entries acc.2.numbering < fuel)
          ?step ?child ?start hfold
        case step =>
          intro child acc acc' hacc _ hstep
          obtain ⟨hs, hlt⟩ := hacc
          obtain ⟨e', sub, -, hrec, -, -⟩ := visitChild_ok hstep
          obtain ⟨hvisited, -, -⟩ := buildFunctionInfoForFunction_visited hs hrec
          exact ⟨hvisited.sound, (unnumbered_anti _ hvisited.ext).trans_lt hlt⟩
        case child =>
          intro child acc hacc _
          apply visitChild_ne_outOfFuel
          intro e' hslot
          exact ih (mem_entries _ _ (mem_of_slotEntry hslot).1) hacc.1 hacc.2
        case start =>
          refine ⟨(visited_enter hsound hids).sound, ?_⟩
          exact (unnumbered_assign he hids).trans_le (Nat.le_of_lt_succ hfuel)
      · cases hrest

theorem mem_functions_of_functionImpls {order : List String} :
    ∀ e ∈ (cha.functionImpls order).1, ∃ v, e ∈ cha.functions v := by
  rw [functionImpls_eq_foldl]
  refine foldl_rule
    (fun _ (st : List FunctionEntry × (String → Option (List FunctionEntry))) =>
      ∀ e ∈ st.1, ∃ v, e ∈ cha.functions v) ?_ (List.forall_mem_nil _)
  intro pre a post st hsplit hst
  have ha : a ∈ cha.primaryEntries order := hsplit ▸ List.mem_append_cons_self
  obtain ⟨className, -, hfunction⟩ := List.mem_flatMap.mp ha
  obtain ⟨function, hmem, rfl⟩ := List.mem_map.mp hfunction
  rw [keepImpl]
  split
  · exact List.forall_mem_append.mpr ⟨hst, List.forall_mem_singleton.mpr ⟨_, hmem⟩⟩
  · exact hst

/-- The run of `buildFunctionInfo` over the implementations handled so far. -/
def Built (cha : SDBuildCHA) (functionImplMap : String → Option (List FunctionEntry))
    (s : FunctionInfo) : Prop :=
  ∃ D, (∀ a, D a → a ∈ cha.functions a.vTable) ∧
    Visited cha D D ⟨fun _ => [], functionImplMap, Numbering.empty 1⟩ s

theorem built_start (functionImplMap : String → Option (List FunctionEntry)) :
    cha.Built functionImplMap ⟨fun _ => [], functionImplMap, Numbering.empty 1⟩ :=
  ⟨fun _ => False, nofun, Visited.refl sound_start⟩

theorem mem_functions_of_below (hlabel : cha.Labelled) {e a : FunctionEntry}
    (he : e ∈ cha.functions e.vTable) (h : cha.Below e a) : a ∈ cha.functions a.vTable := by
  induction h with
  | refl => exact he
  | tail _ hstep _ =>
    obtain ⟨child, -, hslot⟩ := hstep
    have hmem := (mem_of_slotEntry hslot).1
    rwa [hlabel child _ hmem]

theorem Built.step (hlabel : cha.Labelled)
    {functionImplMap : String → Option (List FunctionEntry)} {s s' : FunctionInfo}
    {e : FunctionEntry} (h : cha.Built functionImplMap s) (he : ∃ v, e ∈ cha.functions v)
    (hstep : cha.buildBaseFunction s e = .ok s') : cha.Built functionImplMap s' := by
  rcases buildBaseFunction_cases hstep with rfl | ⟨r, hrec⟩
  · exact h
  · obtain ⟨D, hD, hvisited⟩ := h
    obtain ⟨hbelow, -, -⟩ := buildFunctionInfoForFunction_visited hvisited.sound hrec
    refine ⟨_, ?_, hvisited.trans hbelow⟩
    intro a ha
    rcases ha with hold | hnew
    · exact hD a hold
    · obtain ⟨v, hv⟩ := he
      exact mem_functions_of_below hlabel (by rwa [hlabel v e hv]) hnew

theorem Built.ne_outOfFuel {functionImplMap : String → Option (List FunctionEntry)}
    {s : FunctionInfo} {e : FunctionEntry} (h : cha.Built functionImplMap s)
    (he : ∃ v, e ∈ cha.functions v) : cha.buildBaseFunction s e ≠ .error .outOfFuel := by
  rw [buildBaseFunction]
  split
  · rw [ne_eq, bind_eq_error]
    intro herr
    rcases herr with hrec | ⟨t, -, hrest⟩
    · obtain ⟨v, hv⟩ := he
      obtain ⟨D, -, hvisited⟩ := h
      refine buildFunctionInfoForFunction_ne_outOfFuel _ (mem_entries v _ hv) hvisited.sound ?_ hrec
      apply Nat.lt_succ_of_le
      exact (Finset.card_filter_le _ _).trans (List.toFinset_card_le _)
    · cases hrest
  · intro herr
    cases herr

theorem buildFunctionInfo_built (hlabel : cha.Labelled) {fi : FunctionInfo}
    (h : cha.buildFunctionInfo = .ok fi) : cha.Built fi.functionImplMap fi := by
  rw [buildFunctionInfo, bind_eq_ok] at h
  obtain ⟨order, -, hfold⟩ := h
  have hbuilt := foldlM_ok_rule (fun _ => cha.Built (cha.functionImpls order).2)
    (fun _ e _ _ hs he hstep => hs.step hlabel (mem_functions_of_functionImpls e he) hstep)
    (built_start _) hfold
  obtain ⟨D, hD, hvisited⟩ := hbuilt
  have himpl : fi.functionImplMap = (cha.functionImpls order).2 := hvisited.impl
  rw [himpl]
  exact ⟨D, hD, hvisited⟩

theorem buildFunctionInfo_ne_outOfFuel (hlabel : cha.Labelled) :
    cha.buildFunctionInfo ≠ .error .outOfFuel := by
  rw [buildFunctionInfo, ne_eq, bind_eq_error]
  intro herr
  rcases herr with htopo | ⟨order, -, hfold⟩
  · exact topoSort_ne_outOfFuel htopo
  · exact foldlM_ne_error (cha.Built (cha.functionImpls order).2)
      (fun e _ _ hs he hstep => hs.step hlabel (mem_functions_of_functionImpls e he) hstep)
      (fun e _ hs he => hs.ne_outOfFuel (mem_functions_of_functionImpls e he))
      (built_start _) hfold

/-- Where no child lacks its slot, the entries below one are those of its slot in the
sub-vtables below its own. -/
theorem below_iff_slotEntry (hlabel : cha.Labelled) {e : FunctionEntry}
    (hcovered : ∀ a, cha.Below e a → cha.Covered a) (a : FunctionEntry) :
    cha.Below e a ↔ a = e ∨ ∃ w, Relation.TransGen (fun v w => w ∈ cha.children v) e.vTable w ∧
      cha.slotEntry w e.offsetInVTable = some a := by
  constructor
  · intro h
    induction h with
    | refl => exact .inl rfl
    | tail _ hstep ih =>
      obtain ⟨child, hchild, hslot⟩ := hstep
      rcases ih with rfl | ⟨w, hreach, hentry⟩
      · exact .inr ⟨child, .single hchild, hslot⟩
      · obtain ⟨hmem, hoffset⟩ := mem_of_slotEntry hentry
        rw [hlabel w _ hmem] at hchild
        exact .inr ⟨child, hreach.tail hchild, hoffset ▸ hslot⟩
  · have hpath : ∀ w, Relation.TransGen (fun v w => w ∈ cha.children v) e.vTable w →
        ∃ b, cha.slotEntry w e.offsetInVTable = some b ∧ cha.Below e b := by
      intro w hreach
      induction hreach with
      | single hchild =>
        obtain ⟨b, hb⟩ := Option.isSome_iff_exists.mp (hcovered e .refl _ hchild)
        exact ⟨b, hb, .single ⟨_, hchild, hb⟩⟩
      | tail _ hchild ih =>
        obtain ⟨c, hc, hbelow⟩ := ih
        obtain ⟨hmem, hoffset⟩ := mem_of_slotEntry hc
        rw [← hlabel _ c hmem] at hchild
        obtain ⟨b, hb⟩ := Option.isSome_iff_exists.mp (hcovered c hbelow _ hchild)
        exact ⟨b, hoffset ▸ hb, hbelow.tail ⟨_, hchild, hb⟩⟩
    intro h
    rcases h with rfl | ⟨w, hreach, hentry⟩
    · exact .refl
    · obtain ⟨b, hb, hbelow⟩ := hpath w hreach
      rw [hb] at hentry
      exact Option.some.inj hentry ▸ hbelow

/-- A recorded entry has its range, and nothing below it lacks a slot. -/
theorem Built.recorded {functionImplMap : String → Option (List FunctionEntry)} {s : FunctionInfo}
    (h : cha.Built functionImplMap s) {k : String × String} {e : FunctionEntry}
    (he : e ∈ s.functionMap k) :
    e ∈ cha.functions e.vTable ∧ (e.functionName, e.vTable.1) = k ∧
      (∃ r, s.numbering.ranges e = some r ∧ RangeOf cha.ChildEntry s.numbering e r) ∧
      ∀ a, cha.Below e a → cha.Covered a := by
  obtain ⟨D, hD, hvisited⟩ := h
  obtain ⟨hk, hDe⟩ := (hvisited.map k e he).resolve_left (by simp)
  obtain ⟨r, hr⟩ := Option.isSome_iff_exists.mp (hvisited.ranged e hDe)
  have hrange := hvisited.sound.ranges e r hr
  refine ⟨hD e hDe, hk, ⟨r, hr, hrange⟩, ?_⟩
  intro a ha
  obtain ⟨i, hi, -⟩ := (hrange.mem_iff a).mp ha
  apply hvisited.covered a
  rw [← hvisited.new a]
  exact ⟨i, hi, (hvisited.ext.fresh a i hi).resolve_left nofun⟩

theorem Built.head_getFunctionRange {functionImplMap : String → Option (List FunctionEntry)}
    {s : FunctionInfo} (h : cha.Built functionImplMap s) {f C : String} {r : Range}
    (hr : (s.getFunctionRange f C).head? = some r) :
    ∃ e, (s.functionMap (f, C)).head? = some e ∧ s.numbering.ranges e = some r := by
  rw [FunctionInfo.getFunctionRange] at hr
  cases hmap : s.functionMap (f, C) with
  | nil => simp [hmap] at hr
  | cons e es =>
    obtain ⟨-, -, ⟨q, hq, -⟩, -⟩ := h.recorded (k := (f, C)) (e := e) (by simp [hmap])
    rw [hmap, List.filterMap_cons_some hq] at hr
    exact ⟨e, rfl, hq.trans hr⟩

end SDBuildCHA

theorem FunctionInfo.getFunctionID_in_iff (fi : FunctionInfo) (g : String) (r : Range) :
    (∃ id ∈ fi.getFunctionID g, r.1 ≤ id ∧ id ≤ r.2) ↔ ∃ e ∈ (fi.functionImplMap g).getD [],
      ∃ id, fi.numbering.ids e = some id ∧ r.1 ≤ id ∧ id ≤ r.2 := by
  simp only [getFunctionID, List.mem_filterMap]
  constructor
  · intro h
    obtain ⟨id, ⟨e, he, hid⟩, hrange⟩ := h
    exact ⟨e, he, id, hid, hrange⟩
  · intro h
    obtain ⟨e, he, id, hid, hrange⟩ := h
    exact ⟨id, ⟨e, he, hid⟩, hrange⟩

/-- The first range of a call site holds an identifier of exactly the functions with a
recorded entry in the slot of the first entry of the call, at or below its sub-vtable. -/
theorem callee_in_first_range_iff (initializer : String → Option (List Constant))
    {infoVec : List Nmd} (hinfo : ∀ info ∈ infoVec, info.Labelled) {cha : SDBuildCHA}
    (hcha : buildClouds initializer infoVec = .ok cha) :
    cha.buildFunctionInfo ≠ .error .outOfFuel ∧
      ∀ fi, cha.buildFunctionInfo = .ok fi → ∀ f C r,
        (fi.getFunctionRange f C).head? = some r →
        ∃ entry ∈ cha.functions entry.vTable, (fi.functionMap (f, C)).head? = some entry ∧
          entry.functionName = f ∧ entry.vTable.1 = C ∧
          ∀ g, (∃ id ∈ fi.getFunctionID g, r.1 ≤ id ∧ id ≤ r.2) ↔
            ∃ e ∈ (fi.functionImplMap g).getD [], e = entry ∨
              ∃ w, Relation.TransGen (fun v w => w ∈ cha.children v) entry.vTable w ∧
                cha.slotEntry w entry.offsetInVTable = some e := by
  have hlabel := buildClouds_labelled hinfo hcha
  refine ⟨SDBuildCHA.buildFunctionInfo_ne_outOfFuel hlabel, ?_⟩
  intro fi hfi f C r hr
  have hbuilt := SDBuildCHA.buildFunctionInfo_built hlabel hfi
  obtain ⟨entry, hhead, hranges⟩ := hbuilt.head_getFunctionRange hr
  obtain ⟨hmem, hkey, ⟨q, hq, hrange⟩, hcovered⟩ := hbuilt.recorded (List.mem_of_head? hhead)
  obtain rfl : r = q := Option.some.inj (hranges.symm.trans hq)
  obtain ⟨hname, hclass⟩ := Prod.mk.inj hkey
  refine ⟨entry, hmem, hhead, hname, hclass, ?_⟩
  intro g
  rw [fi.getFunctionID_in_iff]
  apply exists_congr
  intro e
  rw [← hrange.mem_iff e]
  exact and_congr Iff.rfl (SDBuildCHA.below_iff_slotEntry hlabel hcovered e)

/-- Every callee of a sub-vtable of the class at or below a slot of the function. -/
def CalleesInRange (cha : SDBuildCHA) (fi : FunctionInfo) : Prop :=
  ∀ f C r, (fi.getFunctionRange f C).head? = some r → ∀ v, v.1 = C →
    ∀ entry ∈ cha.functions v, entry.functionName = f → ∀ w, Reaches cha.children v w →
      ∀ e ∈ cha.functions w, e.offsetInVTable = entry.offsetInVTable →
        ∃ id ∈ fi.getFunctionID e.functionName, r.1 ≤ id ∧ id ≤ r.2

/-- An acyclic hierarchy in which each child has an entry at every offset of its parents. -/
structure CopiesSlots (cha : SDBuildCHA) : Prop where
  acyclic : Acyclic cha.children
  covered : ∀ v, ∀ e ∈ cha.functions v, cha.Covered e

/-- Each callee has an entry in its introducing class that is the first entry met of the called
function in its class, or stands in the slot of that below its sub-vtable. -/
def CalleesBelowFirst (cha : SDBuildCHA) (order : List String) : Prop :=
  ∀ f C first, (cha.visits (cha.implementations order)).find? (fun a => a.key = (f, C)) =
      some first → ∀ v, v.1 = C → ∀ entry ∈ cha.functions v, entry.functionName = f →
    ∀ w, Reaches cha.children v w →
      ∀ e ∈ cha.functions w, e.offsetInVTable = entry.offsetInVTable →
        ∃ impl ∈ (cha.introduced order e.functionName).getD [], impl = first ∨
          ∃ u, Relation.TransGen (fun v w => w ∈ cha.children v) first.vTable u ∧
            cha.slotEntry u first.offsetInVTable = some impl

/-- The first ranges are those of the entries met first. -/
theorem calleesInRange_iff_belowFirst {initializer : String → Option (List Constant)}
    {infoVec : List Nmd} (hinfo : ∀ info ∈ infoVec, info.Labelled) {cha : SDBuildCHA}
    (hcha : buildClouds initializer infoVec = .ok cha) {order : List String}
    (horder : cha.topoSort = .ok order) {fi : FunctionInfo}
    (hfi : cha.buildFunctionInfo = .ok fi) :
    CalleesInRange cha fi ↔ CalleesBelowFirst cha order := by
  have hbuilt := SDBuildCHA.buildFunctionInfo_built (buildClouds_labelled hinfo hcha) hfi
  have hvisited := SDBuildCHA.buildFunctionInfo_visitedOnce horder hfi
  rw [SDBuildCHA.functionImpls_eq] at hvisited
  have himpl : fi.functionImplMap = cha.introduced order := hvisited.walked.impl
  have hhead : ∀ k, (fi.functionMap k).head? =
      (cha.visits (cha.implementations order)).find? fun a => a.key = k := by
    intro k
    rw [hvisited.functionMap_eq, List.head?_filter]
  have hcallee := (callee_in_first_range_iff initializer hinfo hcha).2 fi hfi
  constructor
  · intro hall f C first hfirst v hv entry hentry hname w hreach e he hoffset
    rw [← hhead] at hfirst
    obtain ⟨-, -, ⟨r, hr, -⟩, -⟩ := hbuilt.recorded (List.mem_of_head? hfirst)
    have hrange : (fi.getFunctionRange f C).head? = some r := by
      obtain ⟨rest, hmap⟩ := List.head?_eq_some_iff.mp hfirst
      rw [FunctionInfo.getFunctionRange, hmap, List.filterMap_cons_some hr, List.head?_cons]
    obtain ⟨first', -, hfirst', -, -, hiff⟩ := hcallee f C r hrange
    obtain rfl := Option.some.inj (hfirst.symm.trans hfirst')
    have hin := (hiff e.functionName).mp (hall f C r hrange v hv entry hentry hname w hreach e he
      hoffset)
    rwa [himpl] at hin
  · intro hall f C r hrange v hv entry hentry hname w hreach e he hoffset
    obtain ⟨first, -, hfirst, -, -, hiff⟩ := hcallee f C r hrange
    rw [hhead] at hfirst
    apply (hiff e.functionName).mpr
    rw [himpl]
    exact hall f C first hfirst v hv entry hentry hname w hreach e he hoffset

/-- Every legal callee is in the first range of its call site exactly when no recursion of
`buildFunctionInfo` meets an entry twice, and each callee has an entry below the one met first. -/
theorem calleesInRange_iff {initializer : String → Option (List Constant)} {infoVec : List Nmd}
    (hinfo : ∀ info ∈ infoVec, info.Labelled) {cha : SDBuildCHA}
    (hcha : buildClouds initializer infoVec = .ok cha) (hcopies : CopiesSlots cha) :
    (∃ fi, cha.buildFunctionInfo = .ok fi ∧ CalleesInRange cha fi) ↔
      ∃ order, cha.topoSort = .ok order ∧ (cha.visits (cha.implementations order)).Nodup ∧
        CalleesBelowFirst cha order := by
  have hlabel := buildClouds_labelled hinfo hcha
  constructor
  · rintro ⟨fi, hfi, hall⟩
    obtain ⟨order, horder, -⟩ := bind_eq_ok.mp hfi
    have hnodup := (SDBuildCHA.buildFunctionInfo_visitedOnce horder hfi).nodup
    rw [SDBuildCHA.functionImpls_eq] at hnodup
    exact ⟨order, horder, hnodup, (calleesInRange_iff_belowFirst hinfo hcha horder hfi).mp hall⟩
  · rintro ⟨order, horder, hnodup, hall⟩
    have himpls : ∀ e ∈ (cha.functionImpls order).1, e ∈ cha.functions e.vTable := by
      intro e he
      obtain ⟨v, hv⟩ := SDBuildCHA.mem_functions_of_functionImpls e he
      rwa [hlabel v e hv]
    obtain ⟨fi, hfi⟩ :=
      (SDBuildCHA.buildFunctionInfo_ok_iff hlabel hcopies.covered horder himpls).mpr
        (by rwa [SDBuildCHA.functionImpls_eq])
    exact ⟨fi, hfi, (calleesInRange_iff_belowFirst hinfo hcha horder hfi).mpr hall⟩

/-- A class with one function in the slot after the address point, and its parents. -/
def singleSlot (className function : String) (parents : List Vtbl) : Nmd :=
  ⟨className, [⟨0, 0, 2, 2, parents, [⟨function, (className, 0), 0⟩]⟩]⟩

def overriding : List Nmd :=
  [singleSlot "_ZTV1A" "_ZN1A1fEv" [("", 0)], singleSlot "_ZTV1B" "_ZN1B1fEv" [("_ZTV1A", 0)]]

def overridingVTables (name : String) : Option (List Constant) :=
  [("_ZTV1A", [.null, .bitCast "_ZTI1A", .bitCast "_ZN1A1fEv"]),
    ("_ZTV1B", [.null, .bitCast "_ZTI1B", .bitCast "_ZN1B1fEv"])].lookup name

theorem copiesSlots_of_entries {cha : SDBuildCHA}
    (hlt : ∀ entry ∈ cha.cloudMap.entries, ∀ w ∈ entry.2, entry.1.1 < w.1)
    (hslot : ∀ entry ∈ cha.vTableFunctionMap.entries, ∀ e ∈ entry.2,
      ∀ child ∈ cha.children e.vTable, (cha.slotEntry child e.offsetInVTable).isSome) :
    CopiesSlots cha where
  acyclic := Acyclic.of_lt Prod.fst (cha.children_all (P := fun v w => v.1 < w.1) hlt)
  covered := cha.functions_all (P := fun _ e => cha.Covered e) hslot

theorem calleesInRange_iff_overriding : ∃ cha,
    buildClouds overridingVTables overriding = .ok cha ∧ CopiesSlots cha ∧
      ((∃ fi, cha.buildFunctionInfo = .ok fi ∧ CalleesInRange cha fi) ↔
        ∃ order, cha.topoSort = .ok order ∧ (cha.visits (cha.implementations order)).Nodup ∧
          CalleesBelowFirst cha order) := by
  have hcha := eq_ok_of_isOk (x := buildClouds overridingVTables overriding) .empty (by decide)
  have hcopies := @copiesSlots_of_entries
    ((buildClouds overridingVTables overriding).toOption.getD .empty) (by decide) (by decide)
  exact ⟨_, hcha, hcopies, calleesInRange_iff (by decide) hcha hcopies⟩

/-- The classes `B` and `C` inherit the function of `A`. -/
def inheriting : List Nmd :=
  [singleSlot "_ZTV1A" "_ZN1A1fEv" [("", 0)], singleSlot "_ZTV1B" "_ZN1A1fEv" [("_ZTV1A", 0)],
    singleSlot "_ZTV1C" "_ZN1A1fEv" [("_ZTV1B", 0)]]

def inheritingVTables (name : String) : Option (List Constant) :=
  [("_ZTV1A", [.null, .bitCast "_ZTI1A", .bitCast "_ZN1A1fEv"]),
    ("_ZTV1B", [.null, .bitCast "_ZTI1B", .bitCast "_ZN1A1fEv"]),
    ("_ZTV1C", [.null, .bitCast "_ZTI1C", .bitCast "_ZN1A1fEv"])].lookup name

/-- The class `D` extends both children of `A`. -/
def diamond : List Nmd :=
  [singleSlot "_ZTV1A" "_ZN1A1fEv" [("", 0)], singleSlot "_ZTV1B" "_ZN1B1fEv" [("_ZTV1A", 0)],
    singleSlot "_ZTV1C" "_ZN1C1fEv" [("_ZTV1A", 0)],
    singleSlot "_ZTV1D" "_ZN1D1fEv" [("_ZTV1B", 0), ("_ZTV1C", 0)]]

def diamondTables (name : String) : Option (List Constant) :=
  [("_ZTV1A", [.null, .bitCast "_ZTI1A", .bitCast "_ZN1A1fEv"]),
    ("_ZTV1B", [.null, .bitCast "_ZTI1B", .bitCast "_ZN1B1fEv"]),
    ("_ZTV1C", [.null, .bitCast "_ZTI1C", .bitCast "_ZN1C1fEv"]),
    ("_ZTV1D", [.null, .bitCast "_ZTI1D", .bitCast "_ZN1D1fEv"])].lookup name

/-- The identifier of an inherited function lies before the range of the class that
inherits it, and the recursion stops at the second path to `D`. -/
theorem callees_not_in_first_range :
    (∃ cha fi, buildClouds inheritingVTables inheriting = .ok cha ∧ CopiesSlots cha ∧
      cha.buildFunctionInfo = .ok fi ∧ ¬ CalleesInRange cha fi) ∧
    ∃ cha, buildClouds diamondTables diamond = .ok cha ∧ CopiesSlots cha ∧
      cha.buildFunctionInfo = .error .alreadyHasID := by
  constructor
  · have hcha := eq_ok_of_isOk (x := buildClouds inheritingVTables inheriting) .empty (by decide)
    have hfi := eq_ok_of_isOk
      (x := ((buildClouds inheritingVTables inheriting).toOption.getD .empty).buildFunctionInfo)
      ⟨fun _ => [], fun _ => none, Numbering.empty 1⟩ (by decide)
    refine ⟨_, _, hcha, copiesSlots_of_entries (by decide) (by decide), hfi, ?_⟩
    intro h
    obtain ⟨id, hid, hlo, -⟩ := h "_ZN1A1fEv" "_ZTV1B" (2, 3) (by decide) ("_ZTV1B", 0) rfl
      ⟨"_ZN1A1fEv", ("_ZTV1B", 0), 0⟩ (by decide) rfl ("_ZTV1C", 0) (.single (by decide))
      ⟨"_ZN1A1fEv", ("_ZTV1C", 0), 0⟩ (by decide) rfl
    revert id
    decide
  · have hcha := eq_ok_of_isOk (x := buildClouds diamondTables diamond) .empty (by decide)
    exact ⟨_, hcha, copiesSlots_of_entries (by decide) (by decide), by rfl⟩

end RhoFEM.CHA
