import RhoFEM.CHA.Callees

/-! The identifiers of a run of `buildFunctionInfo` are consecutive, and the ranges of two
entries are nested as their recursions are. -/

namespace RhoFEM.CHA

open RhoFEM.Lib.Fold RhoFEM.Lib.Search RhoFEM.Lib.Traversal

namespace SDBuildCHA

variable {cha : SDBuildCHA}

/-- The ranges that a recursion closes lie in its own one. -/
theorem buildFunctionInfoForFunction_laminar {fuel : Nat} {e : FunctionEntry}
    {s s' : FunctionInfo} {r : Range} (hsound : Sound cha.ChildEntry s.numbering)
    (hs : Laminar s.numbering) (h : cha.buildFunctionInfoForFunction fuel e s = .ok (r, s')) :
    Laminar s'.numbering ∧ ClosedSince s.numbering s'.numbering := by
  induction fuel generalizing e s s' r with
  | zero => exact absurd h nofun
  | succ fuel ih =>
    obtain ⟨-, hlo, hhi⟩ := buildFunctionInfoForFunction_visited hsound h
    obtain ⟨hnone, t, hfold, rfl⟩ := buildFunctionInfoForFunction_ok_iff.mp h
    have hchildren := foldlM_ok_rule
      (fun _ (acc : Range × FunctionInfo) => Sound cha.ChildEntry acc.2.numbering ∧
        Laminar acc.2.numbering ∧ ClosedSince s.numbering acc.2.numbering ∧
        s.numbering.next ≤ acc.2.numbering.next)
      ?step ?start hfold
    case step =>
      rintro pre child acc acc' ⟨hacc, hlaminar, hsince, hnext⟩ - hstep
      obtain ⟨e', sub, -, hrec, -, -⟩ := visitChild_ok hstep
      obtain ⟨hvisited, -, -⟩ := buildFunctionInfoForFunction_visited hacc hrec
      obtain ⟨hlaminar', hsince'⟩ := ih hacc hlaminar hrec
      exact ⟨hvisited.sound, hlaminar', hsince.trans hnext hsince',
        hnext.trans hvisited.ext.next⟩
    case start =>
      exact ⟨hsound.assign hnone, hs.assign, fun _ _ h => .inl h, Nat.le_succ _⟩
    obtain ⟨-, hlaminar, hsince, -⟩ := hchildren
    exact ⟨hs.close hsince hlaminar hlo hhi, hsince.close hlo⟩

theorem visitChild_ne_rangeNotConsistent
    {recurse : FunctionEntry → FunctionInfo → Except Failure (Range × FunctionInfo)}
    {offset : Nat} {acc : Range × FunctionInfo} {child : Vtbl}
    (h : ∀ e, recurse e acc.2 ≠ .error .rangeNotConsistent)
    (hnext : ∀ e sub s, recurse e acc.2 = .ok (sub, s) → acc.1.2 + 1 = sub.1) :
    cha.visitChild recurse offset acc child ≠ .error .rangeNotConsistent := by
  unfold visitChild
  split
  · exact nofun
  · rename_i e _
    rw [ne_eq, bind_eq_error]
    rintro (hrec | ⟨⟨sub, s⟩, hrec, hrest⟩)
    · exact h e hrec
    · dsimp only at hrest
      rw [if_pos (hnext e sub s hrec)] at hrest
      exact absurd hrest nofun

/-- A recursion starts with the number after those of the previous child. -/
theorem buildFunctionInfoForFunction_ne_rangeNotConsistent (fuel : Nat) {e : FunctionEntry}
    {s : FunctionInfo} (hsound : Sound cha.ChildEntry s.numbering) :
    cha.buildFunctionInfoForFunction fuel e s ≠ .error .rangeNotConsistent := by
  induction fuel generalizing e s with
  | zero => exact nofun
  | succ fuel ih =>
    rw [buildFunctionInfoForFunction]
    cases hids : s.numbering.ids e with
    | some i => simp
    | none =>
      simp only [Option.isSome_none, Bool.false_eq_true, if_false]
      rw [ne_eq, bind_eq_error]
      rintro (hfold | ⟨t, -, hrest⟩)
      · refine foldlM_ne_error (fun acc : Range × FunctionInfo =>
          Sound cha.ChildEntry acc.2.numbering ∧ acc.1.2 + 1 = acc.2.numbering.next)
          ?step ?child ?start hfold
        case step =>
          rintro child acc acc' ⟨hacc, -⟩ - hstep
          obtain ⟨e', sub, -, hrec, -, hrange⟩ := visitChild_ok hstep
          obtain ⟨hvisited, -, hhi⟩ := buildFunctionInfoForFunction_visited hacc hrec
          exact ⟨hvisited.sound, hrange ▸ hhi⟩
        case child =>
          rintro child acc ⟨hacc, hhi⟩ -
          refine visitChild_ne_rangeNotConsistent (fun e' => ih hacc) fun e' sub t hrec => ?_
          obtain ⟨-, hlo, -⟩ := buildFunctionInfoForFunction_visited hacc hrec
          rw [hhi, hlo]
        case start => exact ⟨hsound.assign hids, rfl⟩
      · cases hrest

theorem topoSortHelper_ne_rangeNotConsistent (fuel : Nat) (node : String) (s : TopoState) :
    cha.topoSortHelper fuel node s ≠ .error .rangeNotConsistent := by
  induction fuel generalizing node s with
  | zero =>
    intro h
    cases h
  | succ fuel ih =>
    rw [topoSortHelper]
    split
    · intro h
      cases h
    · split
      · intro h
        cases h
      · rw [ne_eq, bind_eq_error]
        rintro (hfold | ⟨t, -, hrest⟩)
        · exact foldlM_ne_error_of_forall (fun child _ t => ih child.1 t) hfold
        · cases hrest

theorem buildFunctionInfo_ne_rangeNotConsistent :
    cha.buildFunctionInfo ≠ .error .rangeNotConsistent := by
  rw [buildFunctionInfo, ne_eq, bind_eq_error]
  rintro (htopo | ⟨order, -, hbase⟩)
  · rw [topoSort, bind_eq_error] at htopo
    rcases htopo with hfold | ⟨t, -, hrest⟩
    · exact foldlM_ne_error_of_forall
        (fun root _ t => topoSortHelper_ne_rangeNotConsistent _ root t) hfold
    · cases hrest
  · refine foldlM_ne_error (fun s : FunctionInfo => Sound cha.ChildEntry s.numbering)
      ?step ?function sound_start hbase
    case step =>
      intro e s s' hs _ hstep
      rcases buildBaseFunction_cases hstep with rfl | ⟨r, hrec⟩
      · exact hs
      · exact (buildFunctionInfoForFunction_visited hs hrec).1.sound
    case function =>
      intro e s hs _ hstep
      rw [buildBaseFunction] at hstep
      split at hstep
      · rcases bind_eq_error.mp hstep with hrec | ⟨t, -, hrest⟩
        · exact buildFunctionInfoForFunction_ne_rangeNotConsistent _ hs hrec
        · cases hrest
      · cases hstep

theorem buildFunctionInfo_distinct {fi : FunctionInfo} (h : cha.buildFunctionInfo = .ok fi) :
    Distinct fi.numbering ∧ Dense 1 fi.numbering := by
  refine buildFunctionInfo_rule
    (P := fun s => Distinct s.numbering ∧ Dense 1 s.numbering)
    (fun _ => ⟨distinct_empty 1, dense_empty 1⟩) ?_ h
  intro e s s' r hs hrec
  exact buildFunctionInfoForFunction_rule (P := fun n => Distinct n ∧ Dense 1 n)
    (fun _ _ hnone hn => ⟨hn.1.assign, hn.2.assign hnone⟩)
    (fun _ _ r hn => ⟨hn.1.close r, hn.2.close r⟩) hs hrec

theorem buildFunctionInfo_laminar {fi : FunctionInfo} (h : cha.buildFunctionInfo = .ok fi) :
    Sound cha.ChildEntry fi.numbering ∧ Laminar fi.numbering := by
  refine buildFunctionInfo_rule
    (P := fun s => Sound cha.ChildEntry s.numbering ∧ Laminar s.numbering)
    (fun _ => ⟨sound_start, nofun, nofun⟩) ?_ h
  intro e s s' r hs hrec
  exact ⟨(buildFunctionInfoForFunction_visited hs.1 hrec).1.sound,
    (buildFunctionInfoForFunction_laminar hs.1 hs.2 hrec).1⟩

/-- Every entry with an identifier also gets a range. -/
theorem buildFunctionInfo_ranged {fi : FunctionInfo} (h : cha.buildFunctionInfo = .ok fi)
    {a : FunctionEntry} (ha : (fi.numbering.ids a).isSome) : (fi.numbering.ranges a).isSome := by
  have hrun := buildFunctionInfo_rule
    (P := fun s => Sound cha.ChildEntry s.numbering ∧
      ∀ a, (s.numbering.ids a).isSome → (s.numbering.ranges a).isSome)
    (fun _ => ⟨sound_start, fun _ h => by cases h⟩) ?step h
  case step =>
    rintro e s s' r ⟨hsound, hranged⟩ hrec
    obtain ⟨hvisited, -, -⟩ := buildFunctionInfoForFunction_visited hsound hrec
    refine ⟨hvisited.sound, ?_⟩
    intro a ha
    obtain ⟨i, hi⟩ := Option.isSome_iff_exists.mp ha
    rcases hvisited.ext.fresh a i hi with hold | hnew
    · exact hvisited.keep a (hranged a (by rw [hold]; rfl))
    · exact hvisited.ranged a ((hvisited.new a).mp ⟨i, hi, hnew⟩)
  exact hrun.2 a ha

end SDBuildCHA

/-- Every run numbers what it visits from 1 without a gap, and the range of an entry holds the
numbers of what its recursion visited; so ranges are disjoint or one holds the other. -/
theorem functionRanges_nested (cha : SDBuildCHA) :
    cha.buildFunctionInfo ≠ .error .rangeNotConsistent ∧
      ∀ fi, cha.buildFunctionInfo = .ok fi →
        (∀ a b id, fi.numbering.ids a = some id → fi.numbering.ids b = some id → a = b) ∧
        (∀ id, (∃ a, fi.numbering.ids a = some id) ↔ 1 ≤ id ∧ id < fi.numbering.next) ∧
        (∀ a b r q, fi.numbering.ranges a = some r → fi.numbering.ranges b = some q →
          Nested r q) ∧
        (∀ a r, fi.numbering.ranges a = some r → ∀ b,
          (∃ id, fi.numbering.ids b = some id ∧ r.1 ≤ id ∧ id ≤ r.2) ↔ cha.Below a b) ∧
        ∃ order, cha.topoSort = .ok order ∧ ∀ a ∈ cha.visits (cha.functionImpls order).1,
          (fi.numbering.ids a).isSome ∧ (fi.numbering.ranges a).isSome := by
  refine ⟨SDBuildCHA.buildFunctionInfo_ne_rangeNotConsistent, ?_⟩
  intro fi hfi
  obtain ⟨hdistinct, hdense⟩ := SDBuildCHA.buildFunctionInfo_distinct hfi
  obtain ⟨hsound, hlaminar⟩ := SDBuildCHA.buildFunctionInfo_laminar hfi
  obtain ⟨order, horder, -⟩ := bind_eq_ok.mp hfi
  refine ⟨hdistinct.eq_of_ids, hdense.mem_iff, hlaminar.nested, ?_, order, horder, ?_⟩
  · intro a r hr b
    exact ((hsound.ranges a r hr).mem_iff b).symm
  · intro a ha
    have hids := ((SDBuildCHA.buildFunctionInfo_visitedOnce horder hfi).walked.ids a).mpr (.inr ha)
    exact ⟨hids, SDBuildCHA.buildFunctionInfo_ranged hfi hids⟩

theorem functionRanges_nested_overriding : ∃ cha fi,
    buildClouds overridingVTables overriding = .ok cha ∧ cha.buildFunctionInfo = .ok fi ∧
      (∀ a b id, fi.numbering.ids a = some id → fi.numbering.ids b = some id → a = b) ∧
      (∀ id, (∃ a, fi.numbering.ids a = some id) ↔ 1 ≤ id ∧ id < fi.numbering.next) ∧
      (∀ a b r q, fi.numbering.ranges a = some r → fi.numbering.ranges b = some q →
        Nested r q) ∧
      (∀ a r, fi.numbering.ranges a = some r → ∀ b,
        (∃ id, fi.numbering.ids b = some id ∧ r.1 ≤ id ∧ id ≤ r.2) ↔ cha.Below a b) ∧
      ∃ order, cha.topoSort = .ok order ∧ ∀ a ∈ cha.visits (cha.functionImpls order).1,
        (fi.numbering.ids a).isSome ∧ (fi.numbering.ranges a).isSome := by
  have hcha := eq_ok_of_isOk (x := buildClouds overridingVTables overriding) .empty (by decide)
  have hfi := eq_ok_of_isOk
    (x := ((buildClouds overridingVTables overriding).toOption.getD .empty).buildFunctionInfo)
    ⟨fun _ => [], fun _ => none, Numbering.empty 1⟩ (by decide)
  exact ⟨_, _, hcha, hfi, (functionRanges_nested _).2 _ hfi⟩

end RhoFEM.CHA
