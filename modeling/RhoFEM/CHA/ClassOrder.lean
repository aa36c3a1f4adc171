import RhoFEM.CHA.Callees
import RhoFEM.Lib.Topological

/-! `topoSort` lists base classes before derived ones, so the first class that has a function
in its primary vtable is the one that introduces it. -/

namespace RhoFEM.CHA

open RhoFEM.Lib.Fold RhoFEM.Lib.Search RhoFEM.Lib.Topological

namespace SDBuildCHA

variable (cha : SDBuildCHA)

/-- The classes that occur among the children of the primary vtable. -/
def classChildren (className : String) : List String :=
  (cha.children (className, 0)).map Prod.fst

/-- What `topoSortHelper` has finished. -/
structure Finished (s : TopoState) : Prop where
  visited : ∀ x, x ∈ s.visited ↔ x ∈ s.ordered
  sorted : ChildrenAfter cha.classChildren s.ordered
  nodup : s.ordered.Nodup

/-- Between two states only classes with the property were finished, and none was left marked. -/
structure Finishes (P : String → Prop) (s s' : TopoState) : Prop where
  finished : cha.Finished s'
  suffix : s.ordered <:+ s'.ordered
  new : ∀ x ∈ s'.ordered, x ∈ s.ordered ∨ P x
  marked : s.tempMarked ⊆ s'.tempMarked
  pending : ∀ m ∈ s'.tempMarked, m ∉ s'.ordered → m ∈ s.tempMarked ∧ m ∉ s.ordered

variable {cha}

theorem Finishes.refl {P : String → Prop} {s : TopoState} (h : cha.Finished s) :
    cha.Finishes P s s where
  finished := h
  suffix := List.suffix_refl _
  new _ hx := .inl hx
  marked := List.Subset.refl _
  pending _ hm hnot := ⟨hm, hnot⟩

theorem Finishes.trans {P : String → Prop} {s s' s'' : TopoState} (h : cha.Finishes P s s')
    (h' : cha.Finishes P s' s'') : cha.Finishes P s s'' where
  finished := h'.finished
  suffix := h.suffix.trans h'.suffix
  new x hx := (h'.new x hx).elim (h.new x) .inr
  marked := List.Subset.trans h.marked h'.marked
  pending m hm hnot := by
    obtain ⟨hm', hnot'⟩ := h'.pending m hm hnot
    exact h.pending m hm' hnot'

theorem Finishes.mono {P Q : String → Prop} {s s' : TopoState} (h : cha.Finishes P s s')
    (hPQ : ∀ x, P x → Q x) : cha.Finishes Q s s' :=
  ⟨h.finished, h.suffix, fun x hx => (h.new x hx).imp_right (hPQ x), h.marked, h.pending⟩

/-- In an acyclic hierarchy a marked class that is not finished lies above the current one, so
the recursion never meets it. -/
theorem topoSortHelper_ok (hacyclic : Acyclic cha.classChildren) (fuel : Nat) {node : String}
    {s : TopoState} (hnode : node ∈ cha.classNames)
    (hfuel : remaining cha.classNames s.tempMarked < fuel) (hs : cha.Finished s)
    (hpending : ∀ m ∈ s.tempMarked, m ∉ s.ordered →
      Relation.TransGen (fun a b => b ∈ cha.classChildren a) m node) :
    ∃ s', cha.topoSortHelper fuel node s = .ok s' ∧
      cha.Finishes (Reaches cha.classChildren node) s s' ∧ node ∈ s'.ordered := by
  induction fuel generalizing node s with
  | zero => exact absurd hfuel (Nat.not_lt_zero _)
  | succ fuel ih =>
    rw [topoSortHelper]
    by_cases hvisited : node ∈ s.visited
    · rw [if_pos hvisited]
      exact ⟨s, rfl, .refl hs, (hs.visited node).mp hvisited⟩
    have hnew : node ∉ s.ordered := fun hmem => hvisited ((hs.visited node).mpr hmem)
    have hunmarked : node ∉ s.tempMarked := fun hmem => hacyclic node (hpending node hmem hnew)
    rw [if_neg hvisited, if_neg hunmarked]
    have hchildren : ∃ t, (cha.children (node, 0)).foldlM
        (fun s child => cha.topoSortHelper fuel child.1 s)
        { s with tempMarked := s.tempMarked ++ [node] } = .ok t ∧
        cha.Finishes (Relation.TransGen (fun a b => b ∈ cha.classChildren a) node)
          { s with tempMarked := s.tempMarked ++ [node] } t ∧
        ∀ child ∈ cha.children (node, 0), child.1 ∈ t.ordered := by
      refine foldlM_exists_ok (fun (pre : List Vtbl) t =>
        cha.Finishes _ _ t ∧ ∀ child ∈ pre, child.1 ∈ t.ordered) _ ?step
        ⟨.refl ⟨hs.visited, hs.sorted, hs.nodup⟩, List.forall_mem_nil _⟩
      rintro pre child rest t hsplit ⟨hfinishes, hpre⟩
      have hmem : child ∈ cha.children (node, 0) := by rw [hsplit]; simp
      have hedge : child.1 ∈ cha.classChildren node := List.mem_map_of_mem hmem
      have hlater : remaining cha.classNames t.tempMarked < fuel := by
        refine (remaining_anti _ hfinishes.marked).trans_lt ?_
        exact (remaining_concat hnode hunmarked).trans_le (Nat.le_of_lt_succ hfuel)
      obtain ⟨t', hrec, hchild, hlast⟩ := ih (fst_mem_classNames hmem) hlater
        hfinishes.finished fun m hm hnot => by
          obtain ⟨hm, hnot⟩ := hfinishes.pending m hm hnot
          rcases List.mem_append.mp hm with hm | hm
          · exact (hpending m hm hnot).tail hedge
          · rw [List.mem_singleton.mp hm]
            exact .single hedge
      refine ⟨t', hrec, hfinishes.trans (hchild.mono fun x hx => .head' hedge hx), ?_⟩
      rw [List.forall_mem_append, List.forall_mem_singleton]
      exact ⟨fun c hc => hchild.suffix.subset (hpre c hc), hlast⟩
    obtain ⟨t, hfold, hfinishes, hall⟩ := hchildren
    have hnode : node ∉ t.ordered := fun hmem =>
      (hfinishes.new node hmem).elim hnew (hacyclic node)
    refine ⟨_, bind_eq_ok.mpr ⟨t, hfold, rfl⟩, ?_, List.mem_cons_self⟩
    constructor
    case finished =>
      constructor
      · intro x
        simp [hfinishes.finished.visited x, or_comm]
      · refine ⟨?_, hfinishes.finished.sorted⟩
        intro c hc
        obtain ⟨child, hchild, rfl⟩ := List.mem_map.mp hc
        exact hall child hchild
      · exact List.nodup_cons.mpr ⟨hnode, hfinishes.finished.nodup⟩
    case suffix => exact hfinishes.suffix.trans (List.suffix_cons node t.ordered)
    case new =>
      intro x hx
      rcases List.mem_cons.mp hx with rfl | hx
      · exact .inr .refl
      · exact (hfinishes.new x hx).imp_right Relation.TransGen.to_reflTransGen
    case marked => exact List.Subset.trans (List.subset_append_left _ [node]) hfinishes.marked
    case pending =>
      intro m hm hnot
      obtain ⟨hne, hnot⟩ := not_or.mp (mt List.mem_cons.mpr hnot)
      obtain ⟨hm, hnot⟩ := hfinishes.pending m hm hnot
      refine ⟨(List.mem_append.mp hm).resolve_right ?_, hnot⟩
      exact fun hm => hne (List.mem_singleton.mp hm)

/-- The classes that the roots reach, each before its children. -/
theorem topoSort_ok (hacyclic : Acyclic cha.classChildren) :
    ∃ order, cha.topoSort = .ok order ∧ order.Nodup ∧
      ChildrenAfter cha.classChildren order ∧
      ∀ C, C ∈ order ↔ ∃ root ∈ cha.roots, Reaches cha.classChildren root C := by
  have hroots : ∃ s, cha.roots.foldlM
      (fun s root => cha.topoSortHelper (cha.classNames.length + 1) root s) ⟨[], [], []⟩ = .ok s ∧
      cha.Finishes (fun C => ∃ root ∈ cha.roots, Reaches cha.classChildren root C) ⟨[], [], []⟩ s ∧
      ∀ root ∈ cha.roots, root ∈ s.ordered := by
    refine foldlM_exists_ok (fun done s => cha.Finishes _ _ s ∧ ∀ root ∈ done, root ∈ s.ordered)
      _ ?step ⟨.refl ⟨fun _ => Iff.rfl, trivial, List.nodup_nil⟩,
        List.forall_mem_nil _⟩
    rintro pre root rest s hsplit ⟨hfinishes, hpre⟩
    have hmem : root ∈ cha.roots := by rw [hsplit]; simp
    have hbound : remaining cha.classNames s.tempMarked < cha.classNames.length + 1 := by
      apply Nat.lt_succ_of_le
      exact (Finset.card_le_card Finset.sdiff_subset).trans (List.toFinset_card_le _)
    obtain ⟨s', hrec, hroot, hlast⟩ := topoSortHelper_ok hacyclic _
      (List.mem_append_left _ hmem) hbound hfinishes.finished fun m hm hnot =>
        absurd (hfinishes.pending m hm hnot).1 List.not_mem_nil
    refine ⟨s', hrec, hfinishes.trans (hroot.mono fun C hC => ⟨root, hmem, hC⟩), ?_⟩
    rw [List.forall_mem_append, List.forall_mem_singleton]
    exact ⟨fun r hr => hroot.suffix.subset (hpre r hr), hlast⟩
  obtain ⟨s, hfold, hfinishes, hall⟩ := hroots
  refine ⟨s.ordered, bind_eq_ok.mpr ⟨s, hfold, rfl⟩, hfinishes.finished.nodup,
    hfinishes.finished.sorted, fun C => ⟨?_, ?_⟩⟩
  · exact fun hC => (hfinishes.new C hC).resolve_left List.not_mem_nil
  · rintro ⟨root, hroot, hreach⟩
    exact hfinishes.finished.sorted.reaches (hall root hroot) hreach

theorem buildFunctionInfo_functionImplMap {order : List String} (horder : cha.topoSort = .ok order)
    {fi : FunctionInfo} (h : cha.buildFunctionInfo = .ok fi) :
    fi.functionImplMap = (cha.functionImpls order).2 := by
  rw [buildFunctionInfo, horder] at h
  have hrun := foldlM_ok_rule
    (fun _ (s : FunctionInfo) => Lib.Traversal.Sound cha.ChildEntry s.numbering ∧
      s.functionImplMap = (cha.functionImpls order).2) ?step ⟨sound_start, rfl⟩ h
  case step =>
    rintro pre e s s' ⟨hsound, himpl⟩ - hstep
    rcases buildBaseFunction_cases hstep with rfl | ⟨r, hrec⟩
    · exact ⟨hsound, himpl⟩
    · obtain ⟨hvisited, -, -⟩ := buildFunctionInfoForFunction_visited hsound hrec
      exact ⟨hvisited.sound, hvisited.impl.trans himpl⟩
  exact hrun.2

/-- Each name of a primary vtable is recorded first for a class that has it in its own primary
vtable, and no base class with the property has it in its one. -/
def IntroducedFirst (cha : SDBuildCHA) (base : String → Prop) (order : List String)
    (functionImplMap : String → Option (List FunctionEntry)) : Prop :=
  ∀ C ∈ order, ∀ f ∈ cha.functions (C, 0), ∃ A ∈ order, ∃ e ∈ cha.functions (A, 0), ∃ rest,
    functionImplMap f.functionName = some (e :: rest) ∧ e.functionName = f.functionName ∧
    ∀ B, base B → Relation.TransGen (fun a b => b ∈ cha.classChildren a) B A →
      ∀ g ∈ cha.functions (B, 0), g.functionName ≠ f.functionName

theorem functionImpls_introducedFirst {order : List String} (hnodup : order.Nodup)
    (hsorted : ChildrenAfter cha.classChildren order) :
    cha.IntroducedFirst (· ∈ order) order (cha.functionImpls order).2 := by
  intro C hC f hf
  have hmem : ∀ classes e, e ∈ cha.primaryEntries classes ↔
      e.1 ∈ classes ∧ e.2 ∈ cha.functions (e.1, 0) := by
    intro classes e
    simp only [primaryEntries, List.mem_flatMap, List.mem_map]
    constructor
    · rintro ⟨D, hD, g, hg, rfl⟩
      exact ⟨hD, hg⟩
    · rintro ⟨hD, hg⟩
      exact ⟨e.1, hD, e.2, hg, rfl⟩
  have hsome :
      ((cha.primaryEntries order).find? fun e => e.2.functionName = f.functionName).isSome := by
    rw [List.find?_isSome]
    exact ⟨(C, f), (hmem order _).mpr ⟨hC, hf⟩, by simp⟩
  obtain ⟨⟨A, e⟩, hfind⟩ := Option.isSome_iff_exists.mp hsome
  obtain ⟨hA, he⟩ := (hmem order _).mp (List.mem_of_find?_eq_some hfind)
  have hname : e.functionName = f.functionName := by simpa using List.find?_some hfind
  have himpl : (cha.functionImpls order).2 f.functionName = some (cha.implEntries A e) := by
    rw [functionImpls_eq]
    exact congrArg (Option.map fun e => cha.implEntries e.1 e.2) hfind
  refine ⟨A, hA, e, he, _, himpl, hname, ?_⟩
  intro B hB hreach g hg heq
  -- a base class with the name would have been found before
  obtain ⟨pre, post, rfl⟩ := List.append_of_mem hB
  have hpost : A ∈ post := hsorted.descendant hreach
  have hsplit : cha.primaryEntries (pre ++ B :: post) =
      cha.primaryEntries (pre ++ [B]) ++ cha.primaryEntries post := by
    simp [primaryEntries]
  have hfound : ((cha.primaryEntries (pre ++ [B])).find?
      fun e => e.2.functionName = f.functionName).isSome := by
    rw [List.find?_isSome]
    exact ⟨(B, g), (hmem _ _).mpr ⟨by simp, hg⟩, by simpa using heq⟩
  obtain ⟨e', hfirst⟩ := Option.isSome_iff_exists.mp hfound
  rw [hsplit, List.find?_append, hfirst, Option.some_or] at hfind
  obtain rfl := Option.some.inj hfind
  have hbefore := ((hmem _ _).mp (List.mem_of_find?_eq_some hfirst)).1
  have hnodup' : (pre ++ [B] ++ post).Nodup := by simpa using hnodup
  exact (List.nodup_append.mp hnodup').2.2 A hbefore A hpost rfl

end SDBuildCHA

/-- `topoSort` lists the classes that the roots reach once, each before its children, and the
first entry of each name belongs to a class whose listed bases do not have the name. -/
theorem topoSort_introduces (cha : SDBuildCHA) (hacyclic : Acyclic cha.classChildren) :
    ∃ order, cha.topoSort = .ok order ∧ order.Nodup ∧
      (∀ C, C ∈ order ↔ ∃ root ∈ cha.roots, Reaches cha.classChildren root C) ∧
      (∀ C ∈ order, ∀ D ∈ cha.classChildren C, order.idxOf C < order.idxOf D) ∧
      cha.IntroducedFirst (· ∈ order) order (cha.functionImpls order).2 ∧
      ∀ fi, cha.buildFunctionInfo = .ok fi →
        fi.functionImplMap = (cha.functionImpls order).2 := by
  obtain ⟨order, horder, hnodup, hsorted, hmem⟩ := SDBuildCHA.topoSort_ok hacyclic
  refine ⟨order, horder, hnodup, hmem, ?_,
    SDBuildCHA.functionImpls_introducedFirst hnodup hsorted,
    fun fi hfi => SDBuildCHA.buildFunctionInfo_functionImplMap horder hfi⟩
  intro C hC D hD
  exact hsorted.idxOf_lt hnodup hC (.single hD)

theorem acyclic_classChildren {cha : SDBuildCHA} (rank : String → Nat)
    (h : ∀ entry ∈ cha.cloudMap.entries, ∀ w ∈ entry.2,
      entry.1.2 = 0 → rank entry.1.1 < rank w.1) : Acyclic cha.classChildren := by
  apply Acyclic.of_lt rank
  intro C D hD
  obtain ⟨w, hw, rfl⟩ := List.mem_map.mp hD
  exact cha.children_all (P := fun v w => v.2 = 0 → rank v.1 < rank w.1) h (C, 0) w hw rfl

theorem topoSort_introduces_overriding : ∃ cha,
    buildClouds overridingVTables overriding = .ok cha ∧
    ∃ order, cha.topoSort = .ok order ∧ order.Nodup ∧
      (∀ C, C ∈ order ↔ ∃ root ∈ cha.roots, Reaches cha.classChildren root C) ∧
      (∀ C ∈ order, ∀ D ∈ cha.classChildren C, order.idxOf C < order.idxOf D) ∧
      cha.IntroducedFirst (· ∈ order) order (cha.functionImpls order).2 ∧
      ∀ fi, cha.buildFunctionInfo = .ok fi →
        fi.functionImplMap = (cha.functionImpls order).2 := by
  have hcha := eq_ok_of_isOk (x := buildClouds overridingVTables overriding) .empty (by decide)
  exact ⟨_, hcha, topoSort_introduces _
    (acyclic_classChildren (fun C => if C = "_ZTV1A" then 0 else 1) (by decide))⟩

/-- The class `B` extends the second part of `P` only, so no root reaches it along primary
vtables; `A` has its function in both parts. -/
def unreachedBase : List Nmd :=
  [singleSlot "_ZTV1Q" "_ZN1Q1qEv" [("", 0)], singleSlot "_ZTV1R" "_ZN1R1rEv" [("", 0)],
    ⟨"_ZTV1P", [⟨0, 0, 2, 2, [("", 0)], [⟨"_ZN1P1pEv", ("_ZTV1P", 0), 0⟩]⟩,
      ⟨1, 3, 5, 5, [("_ZTV1Q", 0)], [⟨"_ZN1Q1qEv", ("_ZTV1P", 1), 0⟩]⟩]⟩,
    ⟨"_ZTV1B", [⟨0, 0, 3, 2, [("_ZTV1P", 1)],
      [⟨"_ZN1Q1qEv", ("_ZTV1B", 0), 0⟩, ⟨"_ZN1B1fEv", ("_ZTV1B", 0), 1⟩]⟩]⟩,
    ⟨"_ZTV1A", [⟨0, 0, 3, 2, [("_ZTV1R", 0)],
      [⟨"_ZN1R1rEv", ("_ZTV1A", 0), 0⟩, ⟨"_ZN1B1fEv", ("_ZTV1A", 0), 1⟩]⟩,
      ⟨1, 4, 7, 6, [("_ZTV1B", 0)],
        [⟨"_ZN1Q1qEv", ("_ZTV1A", 1), 0⟩, ⟨"_ZN1B1fEv", ("_ZTV1A", 1), 1⟩]⟩]⟩]

def unreachedTables (name : String) : Option (List Constant) :=
  [("_ZTV1Q", [.null, .bitCast "_ZTI1Q", .bitCast "_ZN1Q1qEv"]),
    ("_ZTV1R", [.null, .bitCast "_ZTI1R", .bitCast "_ZN1R1rEv"]),
    ("_ZTV1P", [.null, .bitCast "_ZTI1P", .bitCast "_ZN1P1pEv", .other 8, .bitCast "_ZTI1P",
      .bitCast "_ZN1Q1qEv"]),
    ("_ZTV1B", [.null, .bitCast "_ZTI1B", .bitCast "_ZN1Q1qEv", .bitCast "_ZN1B1fEv"]),
    ("_ZTV1A", [.null, .bitCast "_ZTI1A", .bitCast "_ZN1R1rEv", .bitCast "_ZN1B1fEv", .other 8,
      .bitCast "_ZTI1A", .bitCast "_ZN1Q1qEv", .bitCast "_ZN1B1fEv"])].lookup name

/-- A base class that no root reaches may have the name as well. -/
theorem topoSort_misses_base : ∃ cha order fi,
    buildClouds unreachedTables unreachedBase = .ok cha ∧ Acyclic cha.classChildren ∧
      cha.topoSort = .ok order ∧ cha.buildFunctionInfo = .ok fi ∧
      ¬ cha.IntroducedFirst (fun _ => True) order fi.functionImplMap := by
  have hcha := eq_ok_of_isOk (x := buildClouds unreachedTables unreachedBase) .empty (by decide)
  have horder := eq_ok_of_isOk
    (x := ((buildClouds unreachedTables unreachedBase).toOption.getD .empty).topoSort) []
    (by decide)
  have hfi := eq_ok_of_isOk
    (x := ((buildClouds unreachedTables unreachedBase).toOption.getD .empty).buildFunctionInfo)
    ⟨fun _ => [], fun _ => none, Lib.Traversal.Numbering.empty 1⟩ (by decide)
  refine ⟨_, _, _, hcha, acyclic_classChildren
    (fun C => if C = "_ZTV1A" ∨ C = "_ZTV1P" then 1 else 0) (by decide), horder, hfi, ?_⟩
  intro h
  obtain ⟨A, hA, e, he, rest, himpl, -, hbases⟩ := h "_ZTV1A" (by decide)
    ⟨"_ZN1B1fEv", ("_ZTV1A", 0), 1⟩ (by decide)
  have hhead : ∀ entries, some entries = some (e :: rest) → entries.head? = some e := by
    rintro entries hentries
    rw [Option.some.inj hentries, List.head?_cons]
  have hfirst : (⟨"_ZN1B1fEv", ("_ZTV1A", 0), 1⟩ : FunctionEntry) = e :=
    Option.some.inj (hhead [⟨"_ZN1B1fEv", ("_ZTV1A", 0), 1⟩, ⟨"_ZN1B1fEv", ("_ZTV1A", 1), 1⟩] himpl)
  subst hfirst
  have hclass : A = "_ZTV1A" := by
    clear hbases
    revert A
    decide
  subst hclass
  exact hbases "_ZTV1B" trivial (.single (by decide)) ⟨"_ZN1B1fEv", ("_ZTV1B", 0), 1⟩ (by decide)
    rfl

end RhoFEM.CHA
