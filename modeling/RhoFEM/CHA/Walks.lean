import RhoFEM.CHA.FunctionRanges

/-! The entries that the recursions of `buildFunctionInfo` meet along all paths. It returns exactly
when it meets none twice, and records them in their order. -/

namespace RhoFEM.CHA

open RhoFEM.Lib.Fold RhoFEM.Lib.Search RhoFEM.Lib.Traversal

/-- Under which an entry is recorded. -/
def FunctionEntry.key (e : FunctionEntry) : String × String := (e.functionName, e.vTable.1)

namespace SDBuildCHA

section Walk

variable (cha : SDBuildCHA)

/-- The entries that the recursion meets from one on, along all paths. -/
def walk : Nat → FunctionEntry → List FunctionEntry
  | 0, _ => []
  | fuel + 1, e => e :: (cha.children e.vTable).flatMap fun child =>
    ((cha.slotEntry child e.offsetInVTable).map (walk fuel)).getD []

/-- An entry, and those that the recursion meets in some children. -/
def walkThrough (fuel : Nat) (e : FunctionEntry) (children : List Vtbl) : List FunctionEntry :=
  e :: children.flatMap fun child =>
    ((cha.slotEntry child e.offsetInVTable).map (cha.walk fuel)).getD []

/-- A recursion starts at an implementation that none has recorded so far. -/
def visitImpl (visited : List FunctionEntry) (function : FunctionEntry) : List FunctionEntry :=
  if function.key ∈ visited.map FunctionEntry.key then visited
  else visited ++ cha.walk (cha.entries.length + 1) function

/-- The entries that the recursions from some implementations meet. -/
def visits (functionImpls : List FunctionEntry) : List FunctionEntry :=
  functionImpls.foldl cha.visitImpl []

/-- The entries of the primary vtables, each with its class. -/
def primaryEntries (order : List String) : List (String × FunctionEntry) :=
  order.flatMap fun className => (cha.functions (className, 0)).map (className, ·)

/-- The first entry of each name in the primary vtables. -/
def implementations (order : List String) : List FunctionEntry :=
  ((cha.primaryEntries order).map Prod.snd).eraseDupsBy fun a b => a.functionName = b.functionName

/-- The entries of a function in the class that introduces it, which is the first with the function
in its primary vtable. -/
def introduced (order : List String) (function : String) : Option (List FunctionEntry) :=
  ((cha.primaryEntries order).find? fun e => e.2.functionName = function).map
    fun e => cha.implEntries e.1 e.2

end Walk

variable {cha : SDBuildCHA}

theorem mem_entries : ∀ v, ∀ e ∈ cha.functions v, e ∈ cha.entries :=
  cha.functions_all fun entry hentry _ he => List.mem_flatMap.mpr ⟨entry, hentry, he⟩

theorem mem_of_slotEntry {v : Vtbl} {offset : Nat} {e : FunctionEntry}
    (h : cha.slotEntry v offset = some e) : e ∈ cha.functions v ∧ e.offsetInVTable = offset := by
  constructor
  · exact List.mem_reverse.mp (List.mem_of_find?_eq_some h)
  · simpa using List.find?_some h

/-- The part of the loop over the primary vtables for one entry. -/
def keepImpl (cha : SDBuildCHA) (st : List FunctionEntry × (String → Option (List FunctionEntry)))
    (e : String × FunctionEntry) : List FunctionEntry × (String → Option (List FunctionEntry)) :=
  if (st.2 e.2.functionName).isNone then
    (st.1 ++ [e.2], Function.update st.2 e.2.functionName (some (cha.implEntries e.1 e.2)))
  else st

theorem functionImpls_eq_foldl (order : List String) : cha.functionImpls order =
    (cha.primaryEntries order).foldl cha.keepImpl ([], fun _ => none) := by
  rw [functionImpls, primaryEntries, List.foldl_flatMap]
  congr 1
  funext st className
  rw [List.foldl_map]
  rfl

theorem foldl_keepImpl_fst (es : List (String × FunctionEntry))
    (st : List FunctionEntry × (String → Option (List FunctionEntry))) :
    (es.foldl cha.keepImpl st).1 = st.1 ++
      ((es.map Prod.snd).filter fun e => (st.2 e.functionName).isNone).eraseDupsBy
        fun a b => a.functionName = b.functionName := by
  induction es generalizing st with
  | nil => simp
  | cons e es ih =>
    rw [List.foldl_cons, ih, keepImpl, List.map_cons]
    split
    · rename_i hnew
      rw [List.filter_cons_of_pos (by simpa using hnew), List.eraseDupsBy_cons, List.filter_filter,
        List.append_assoc, List.singleton_append]
      congr 3
      refine List.filter_congr fun b _ => ?_
      by_cases hname : b.functionName = e.2.functionName
      · simp [hname]
      · simp [hname]
    · rename_i hold
      rw [List.filter_cons_of_neg (by simpa using hold)]

theorem foldl_keepImpl_snd (es : List (String × FunctionEntry))
    (st : List FunctionEntry × (String → Option (List FunctionEntry))) (name : String) :
    (es.foldl cha.keepImpl st).2 name = (st.2 name).or
      ((es.find? fun e => e.2.functionName = name).map fun e => cha.implEntries e.1 e.2) := by
  induction es generalizing st with
  | nil => simp
  | cons e es ih =>
    rw [List.foldl_cons, ih, keepImpl]
    by_cases hname : e.2.functionName = name
    · rw [List.find?_cons_of_pos (by simpa using hname)]
      cases hst : st.2 name with
      | none => simp [hname, hst]
      | some entries => simp [hname, hst]
    · rw [List.find?_cons_of_neg (by simpa using hname)]
      split
      · dsimp only
        rw [Function.update_of_ne (Ne.symm hname)]
      · rfl

/-- The loop over the classes keeps the first entry of each name, and the entries of the class that
introduces it. -/
theorem functionImpls_eq (order : List String) :
    cha.functionImpls order = (cha.implementations order, cha.introduced order) := by
  rw [functionImpls_eq_foldl]
  refine Prod.ext ?_ (funext fun name => ?_)
  · rw [foldl_keepImpl_fst, implementations]
    simp
  · rw [foldl_keepImpl_snd, Option.none_or]
    rfl

theorem walkThrough_append (fuel : Nat) (e : FunctionEntry) (pre : List Vtbl) {child : Vtbl}
    {e' : FunctionEntry} (hslot : cha.slotEntry child e.offsetInVTable = some e')
    (post : List Vtbl) : ∃ rest, cha.walkThrough fuel e (pre ++ child :: post) =
      cha.walkThrough fuel e pre ++ cha.walk fuel e' ++ rest := by
  rw [walkThrough, List.flatMap_append, List.flatMap_cons, hslot, ← List.append_assoc]
  exact ⟨_, rfl⟩

theorem walkThrough_concat (fuel : Nat) (e : FunctionEntry) (pre : List Vtbl) {child : Vtbl}
    {e' : FunctionEntry} (hslot : cha.slotEntry child e.offsetInVTable = some e') :
    cha.walkThrough fuel e (pre ++ [child]) =
      cha.walkThrough fuel e pre ++ cha.walk fuel e' := by
  rw [walkThrough, List.flatMap_append, List.flatMap_singleton, hslot]
  rfl

theorem visits_concat (pre : List FunctionEntry) (e : FunctionEntry) :
    cha.visits (pre ++ [e]) = cha.visitImpl (cha.visits pre) e := by
  rw [visits, List.foldl_append]
  rfl

theorem visits_isPrefix (pre post : List FunctionEntry) :
    cha.visits pre <+: cha.visits (pre ++ post) := by
  rw [visits, visits, List.foldl_append]
  apply foldl_grows
  intro visited e
  rw [visitImpl]
  split
  · exact List.prefix_rfl
  · exact List.prefix_append _ _

/-- Between two states exactly the listed entries got an identifier and were recorded. -/
structure Walked (s s' : FunctionInfo) (visited : List FunctionEntry) : Prop where
  ids : ∀ a, (s'.numbering.ids a).isSome ↔ (s.numbering.ids a).isSome ∨ a ∈ visited
  map : ∀ k, s'.functionMap k = s.functionMap k ++ visited.filter fun a => a.key = k
  impl : s'.functionImplMap = s.functionImplMap

theorem Walked.refl (s : FunctionInfo) : Walked s s [] where
  ids a := by simp
  map k := by simp
  impl := rfl

theorem Walked.trans {s s' s'' : FunctionInfo} {l l' : List FunctionEntry} (h : Walked s s' l)
    (h' : Walked s' s'' l') : Walked s s'' (l ++ l') where
  ids a := by rw [h'.ids, h.ids, List.mem_append, or_assoc]
  map k := by rw [h'.map, h.map, List.filter_append, List.append_assoc]
  impl := h'.impl.trans h.impl

theorem Walked.fresh_iff {s s' : FunctionInfo} {l : List FunctionEntry} (h : Walked s s' l)
    (a : FunctionEntry) : s'.numbering.ids a = none ↔ s.numbering.ids a = none ∧ a ∉ l := by
  have hids := not_congr (h.ids a)
  rwa [not_or, Option.not_isSome_iff_eq_none, Option.not_isSome_iff_eq_none] at hids

theorem walked_enter (s : FunctionInfo) (e : FunctionEntry) : Walked s (enter s e) [e] where
  ids a := by
    by_cases hae : a = e
    · simp [hae, enter, Numbering.assign]
    · simp [hae, enter, Numbering.assign]
  map k := by
    by_cases hk : e.key = k
    · subst hk
      simp [enter, FunctionEntry.key]
    · have hne : k ≠ (e.functionName, e.vTable.1) := fun heq => hk heq.symm
      simp [enter, hk, hne]
  impl := rfl

/-- A finished recursion met each entry once, and none that had an identifier. -/
theorem buildFunctionInfoForFunction_walked {fuel : Nat} {e : FunctionEntry}
    {s s' : FunctionInfo} {r : Range}
    (h : cha.buildFunctionInfoForFunction fuel e s = .ok (r, s')) :
    (cha.walk fuel e).Nodup ∧ (∀ a ∈ cha.walk fuel e, s.numbering.ids a = none) ∧
      Walked s s' (cha.walk fuel e) := by
  induction fuel generalizing e s s' r with
  | zero => cases h
  | succ fuel ih =>
    obtain ⟨hnone, t, hfold, rfl⟩ := buildFunctionInfoForFunction_ok_iff.mp h
    have hchildren := foldlM_ok_rule
      (fun pre (acc : Range × FunctionInfo) => (cha.walkThrough fuel e pre).Nodup ∧
        (∀ a ∈ cha.walkThrough fuel e pre, s.numbering.ids a = none) ∧
          Walked s acc.2 (cha.walkThrough fuel e pre))
      ?step ?start hfold
    case start =>
      exact ⟨List.nodup_singleton e, List.forall_mem_singleton.mpr hnone, walked_enter s e⟩
    case step =>
      rintro pre child acc acc' ⟨hnodup, hfresh, hwalked⟩ - hstep
      obtain ⟨e', sub, hslot, hrec, -, -⟩ := visitChild_ok hstep
      obtain ⟨hnodup', hfresh', hwalked'⟩ := ih hrec
      have hout := fun a ha => (hwalked.fresh_iff a).mp (hfresh' a ha)
      rw [walkThrough_concat fuel e pre hslot]
      refine ⟨List.Nodup.append hnodup hnodup' ?_, ?_, hwalked.trans hwalked'⟩
      · exact fun a hold hnew => (hout a hnew).2 hold
      · exact List.forall_mem_append.mpr ⟨hfresh, fun a ha => (hout a ha).1⟩
    obtain ⟨hnodup, hfresh, hwalked⟩ := hchildren
    exact ⟨hnodup, hfresh, hwalked.ids, hwalked.map, hwalked.impl⟩

/-- The recursion finishes when it is to meet each entry once, and none with an identifier. -/
theorem buildFunctionInfoForFunction_exists_ok (hlabel : cha.Labelled)
    (hcovered : ∀ v, ∀ e ∈ cha.functions v, cha.Covered e) {fuel : Nat} {e : FunctionEntry}
    {s : FunctionInfo} (he : e ∈ cha.functions e.vTable)
    (hsound : Sound cha.ChildEntry s.numbering)
    (hfuel : unnumbered cha.entries s.numbering < fuel) (hnodup : (cha.walk fuel e).Nodup)
    (hfresh : ∀ a ∈ cha.walk fuel e, s.numbering.ids a = none) :
    ∃ r s', cha.buildFunctionInfoForFunction fuel e s = .ok (r, s') := by
  induction fuel generalizing e s with
  | zero => exact absurd hfuel (Nat.not_lt_zero _)
  | succ fuel ih =>
    have hnone := hfresh e List.mem_cons_self
    have hfold := foldlM_exists_ok (s := ((s.numbering.next, s.numbering.next), enter s e))
      (fun pre (acc : Range × FunctionInfo) => Sound cha.ChildEntry acc.2.numbering ∧
        unnumbered cha.entries acc.2.numbering < fuel ∧ acc.1.2 + 1 = acc.2.numbering.next ∧
        Walked s acc.2 (cha.walkThrough fuel e pre)) (cha.children e.vTable)
      (f := cha.visitChild (cha.buildFunctionInfoForFunction fuel) e.offsetInVTable) ?step ?start
    case start =>
      refine ⟨(visited_enter hsound hnone).sound, ?_, rfl, walked_enter s e⟩
      exact (unnumbered_assign (mem_entries _ _ he) hnone).trans_le (Nat.le_of_lt_succ hfuel)
    case step =>
      rintro pre child post ⟨range, t⟩ hsplit ⟨hs, hlt, hnext, hwalked⟩
      have hchild : child ∈ cha.children e.vTable := by rw [hsplit]; simp
      obtain ⟨e', hslot⟩ := Option.isSome_iff_exists.mp (hcovered _ e he child hchild)
      obtain ⟨hmem, -⟩ := mem_of_slotEntry hslot
      -- what is met from here on is met later than all before
      obtain ⟨rest, hwalk⟩ := cha.walkThrough_append fuel e pre hslot post
      have hall : cha.walk (fuel + 1) e = cha.walkThrough fuel e (cha.children e.vTable) := rfl
      rw [hall, hsplit, hwalk] at hnodup hfresh
      obtain ⟨hnodup, -, -⟩ := List.nodup_append.mp hnodup
      obtain ⟨-, hnodup', hdisjoint⟩ := List.nodup_append.mp hnodup
      obtain ⟨r, t', hrec⟩ := ih (by rwa [hlabel child e' hmem]) hs hlt
        hnodup' fun a ha => (hwalked.fresh_iff a).mpr
          ⟨hfresh a (by simp [ha]), fun hold => hdisjoint a hold a ha rfl⟩
      obtain ⟨hvisited, hlo, hhi⟩ := buildFunctionInfoForFunction_visited hs hrec
      refine ⟨((range.1, r.2), t'), ?_, hvisited.sound,
        (unnumbered_anti _ hvisited.ext).trans_lt hlt, hhi, ?_⟩
      · unfold visitChild
        simp only [hslot]
        rw [hrec]
        exact if_pos (hnext.trans hlo.symm)
      · rw [walkThrough_concat fuel e pre hslot]
        exact hwalked.trans (buildFunctionInfoForFunction_walked hrec).2.2
    obtain ⟨⟨r, t⟩, hok, -⟩ := hfold
    exact ⟨r, _, buildFunctionInfoForFunction_ok_iff.mpr ⟨hnone, t, hok, rfl⟩⟩

/-- The state after the recursions that met some entries, each once. -/
structure VisitedOnce (cha : SDBuildCHA) (functionImplMap : String → Option (List FunctionEntry))
    (visited : List FunctionEntry) (s : FunctionInfo) : Prop where
  nodup : visited.Nodup
  sound : Sound cha.ChildEntry s.numbering
  walked : Walked ⟨fun _ => [], functionImplMap, Numbering.empty 1⟩ s visited

namespace VisitedOnce

variable {functionImplMap : String → Option (List FunctionEntry)} {visited : List FunctionEntry}
  {s : FunctionInfo}

theorem start (functionImplMap : String → Option (List FunctionEntry)) :
    VisitedOnce cha functionImplMap [] ⟨fun _ => [], functionImplMap, Numbering.empty 1⟩ :=
  ⟨List.nodup_nil, sound_start, .refl _⟩

theorem functionMap_eq (h : VisitedOnce cha functionImplMap visited s) (k : String × String) :
    s.functionMap k = visited.filter fun a => a.key = k :=
  (h.walked.map k).trans (List.nil_append _)

theorem ids_eq_none_iff (h : VisitedOnce cha functionImplMap visited s) (a : FunctionEntry) :
    s.numbering.ids a = none ↔ a ∉ visited := by
  rw [h.walked.fresh_iff]
  exact and_iff_right rfl

theorem functionMap_eq_nil_iff (h : VisitedOnce cha functionImplMap visited s)
    (e : FunctionEntry) : s.functionMap (e.functionName, e.vTable.1) = [] ↔
      e.key ∉ visited.map FunctionEntry.key := by
  rw [h.functionMap_eq, List.filter_eq_nil_iff, List.mem_map, not_exists]
  simp [FunctionEntry.key]

/-- One implementation: its recursion finishes exactly when it meets nothing twice. -/
theorem step_iff (hlabel : cha.Labelled) (hcovered : ∀ v, ∀ e ∈ cha.functions v, cha.Covered e)
    (h : VisitedOnce cha functionImplMap visited s) {e : FunctionEntry}
    (he : e ∈ cha.functions e.vTable) :
    (∃ s', cha.buildBaseFunction s e = .ok s') ↔ (cha.visitImpl visited e).Nodup := by
  rw [buildBaseFunction, visitImpl]
  by_cases hnil : s.functionMap (e.functionName, e.vTable.1) = []
  · rw [if_pos hnil, if_neg ((h.functionMap_eq_nil_iff _).mp hnil), List.nodup_append]
    constructor
    · rintro ⟨s', hok⟩
      obtain ⟨⟨r, t⟩, hrec, -⟩ := bind_eq_ok.mp hok
      obtain ⟨hnodup, hfresh, -⟩ := buildFunctionInfoForFunction_walked hrec
      refine ⟨h.nodup, hnodup, ?_⟩
      rintro a hold _ hnew rfl
      exact (h.ids_eq_none_iff a).mp (hfresh a hnew) hold
    · rintro ⟨-, hnodup, hdisjoint⟩
      obtain ⟨r, t, hrec⟩ := buildFunctionInfoForFunction_exists_ok hlabel hcovered he h.sound
        (Nat.lt_succ_of_le ((Finset.card_filter_le _ _).trans (List.toFinset_card_le _))) hnodup
        fun a ha => (h.ids_eq_none_iff a).mpr fun hold => hdisjoint a hold a ha rfl
      exact ⟨t, bind_eq_ok.mpr ⟨(r, t), hrec, rfl⟩⟩
  · rw [if_neg hnil, if_pos (not_not.mp (mt (h.functionMap_eq_nil_iff _).mpr hnil))]
    exact iff_of_true ⟨s, rfl⟩ h.nodup

theorem step (h : VisitedOnce cha functionImplMap visited s) {e : FunctionEntry}
    {s' : FunctionInfo} (hok : cha.buildBaseFunction s e = .ok s') :
    VisitedOnce cha functionImplMap (cha.visitImpl visited e) s' := by
  rw [buildBaseFunction] at hok
  rw [visitImpl]
  by_cases hnil : s.functionMap (e.functionName, e.vTable.1) = []
  · rw [if_pos hnil] at hok
    rw [if_neg ((h.functionMap_eq_nil_iff _).mp hnil)]
    obtain ⟨⟨r, t⟩, hrec, hrest⟩ := bind_eq_ok.mp hok
    obtain rfl := Except.ok.inj hrest
    obtain ⟨hnodup, hfresh, hwalked⟩ := buildFunctionInfoForFunction_walked hrec
    refine ⟨h.nodup.append hnodup ?_, (buildFunctionInfoForFunction_visited h.sound hrec).1.sound,
      h.walked.trans hwalked⟩
    exact fun a hold hnew => (h.ids_eq_none_iff a).mp (hfresh a hnew) hold
  · rw [if_neg hnil] at hok
    obtain rfl := Except.ok.inj hok
    rwa [if_pos (not_not.mp (mt (h.functionMap_eq_nil_iff _).mpr hnil))]

end VisitedOnce

/-- The run records what it meets, in order. -/
theorem buildFunctionInfo_visitedOnce {order : List String} (horder : cha.topoSort = .ok order)
    {fi : FunctionInfo} (h : cha.buildFunctionInfo = .ok fi) :
    VisitedOnce cha (cha.functionImpls order).2 (cha.visits (cha.functionImpls order).1) fi := by
  rw [buildFunctionInfo, horder] at h
  refine foldlM_ok_rule (fun pre s => VisitedOnce cha (cha.functionImpls order).2
    (cha.visits pre) s) ?step (.start _) h
  case step =>
    intro pre e s s' hs _ hok
    rw [visits_concat]
    exact hs.step hok

theorem buildFunctionInfo_ok_iff (hlabel : cha.Labelled)
    (hcovered : ∀ v, ∀ e ∈ cha.functions v, cha.Covered e) {order : List String}
    (horder : cha.topoSort = .ok order)
    (himpls : ∀ e ∈ (cha.functionImpls order).1, e ∈ cha.functions e.vTable) :
    (∃ fi, cha.buildFunctionInfo = .ok fi) ↔ (cha.visits (cha.functionImpls order).1).Nodup := by
  constructor
  · rintro ⟨fi, hfi⟩
    exact (buildFunctionInfo_visitedOnce horder hfi).nodup
  · intro hnodup
    rw [buildFunctionInfo, horder]
    have hfold := foldlM_exists_ok (f := cha.buildBaseFunction)
      (fun pre s => VisitedOnce cha (cha.functionImpls order).2 (cha.visits pre) s)
      (cha.functionImpls order).1 ?step (.start _)
    case step =>
      intro pre e post s hsplit hs
      have hprefix : cha.visits (pre ++ [e]) <+: cha.visits (cha.functionImpls order).1 := by
        have hgrows := cha.visits_isPrefix (pre ++ [e]) post
        rwa [List.append_assoc, List.singleton_append, ← hsplit] at hgrows
      rw [visits_concat] at hprefix ⊢
      obtain ⟨s', hok⟩ := (hs.step_iff hlabel hcovered (himpls e (by rw [hsplit]; simp))).mpr
        (hnodup.sublist hprefix.sublist)
      exact ⟨s', hok, hs.step hok⟩
    obtain ⟨fi, hok, -⟩ := hfold
    exact ⟨fi, hok⟩

end SDBuildCHA

end RhoFEM.CHA
