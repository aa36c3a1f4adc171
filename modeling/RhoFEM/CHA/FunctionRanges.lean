import RhoFEM.CHA.FunctionInfo
import RhoFEM.Lib.Fold

/-! Which identifiers lie in the range of a function: those of the entries that
the recursion reached from it. -/

namespace RhoFEM.CHA

open RhoFEM.Lib.Fold RhoFEM.Lib.Search RhoFEM.Lib.Traversal

namespace SDBuildCHA

variable (cha : SDBuildCHA)

/-- The entry of a child sub-vtable in the same slot. -/
def ChildEntry (e e' : FunctionEntry) : Prop :=
  ∃ child ∈ cha.children e.vTable, cha.slotEntry child e.offsetInVTable = some e'

/-- The recursion started at the first entry visits the second. -/
abbrev Below : FunctionEntry → FunctionEntry → Prop := Relation.ReflTransGen cha.ChildEntry

/-- The entries below the slots of some children. -/
def BelowChildren (e : FunctionEntry) (children : List Vtbl) (a : FunctionEntry) : Prop :=
  ∃ child ∈ children, ∃ e', cha.slotEntry child e.offsetInVTable = some e' ∧ cha.Below e' a

/-- Every child of the sub-vtable of an entry has an entry in its slot. -/
def Covered (a : FunctionEntry) : Prop :=
  ∀ child ∈ cha.children a.vTable, (cha.slotEntry child a.offsetInVTable).isSome

variable {cha}

theorem below_iff (e a : FunctionEntry) :
    cha.Below e a ↔ a = e ∨ cha.BelowChildren e (cha.children e.vTable) a := by
  rw [Below, Relation.ReflTransGen.cases_head_iff]
  constructor
  · rintro (rfl | ⟨e', ⟨child, hchild, hslot⟩, hbelow⟩)
    · exact .inl rfl
    · exact .inr ⟨child, hchild, e', hslot, hbelow⟩
  · rintro (rfl | ⟨child, hchild, e', hslot, hbelow⟩)
    · exact .inl rfl
    · exact .inr ⟨e', ⟨child, hchild, hslot⟩, hbelow⟩

theorem belowChildren_concat (e : FunctionEntry) (pre : List Vtbl) {child : Vtbl}
    {e' : FunctionEntry} (hslot : cha.slotEntry child e.offsetInVTable = some e')
    (a : FunctionEntry) :
    cha.BelowChildren e (pre ++ [child]) a ↔ cha.BelowChildren e pre a ∨ cha.Below e' a := by
  constructor
  · rintro ⟨c, hc, e'', hslot', hbelow⟩
    rcases List.mem_append.mp hc with hpre | hlast
    · exact .inl ⟨c, hpre, e'', hslot', hbelow⟩
    · rw [List.mem_singleton.mp hlast, hslot] at hslot'
      exact .inr (Option.some.inj hslot' ▸ hbelow)
  · rintro (⟨c, hpre, e'', hslot', hbelow⟩ | hbelow)
    · exact ⟨c, by simp [hpre], e'', hslot', hbelow⟩
    · exact ⟨child, by simp, e', hslot, hbelow⟩

/-- Between two states exactly the entries of `D` got an identifier, and those of
`R` also have their range. -/
structure Visited (cha : SDBuildCHA) (D R : FunctionEntry → Prop) (s s' : FunctionInfo) : Prop where
  sound : Sound cha.ChildEntry s'.numbering
  ext : Extends s.numbering s'.numbering
  new : ∀ a, New s.numbering s'.numbering a ↔ D a
  ranged : ∀ a, R a → (s'.numbering.ranges a).isSome
  keep : ∀ a, (s.numbering.ranges a).isSome → (s'.numbering.ranges a).isSome
  covered : ∀ a, R a → cha.Covered a
  map : ∀ k, ∀ a ∈ s'.functionMap k,
    a ∈ s.functionMap k ∨ (a.functionName, a.vTable.1) = k ∧ D a
  impl : s'.functionImplMap = s.functionImplMap

theorem Visited.trans {D R D' R' : FunctionEntry → Prop} {s s' s'' : FunctionInfo}
    (h : Visited cha D R s s') (h' : Visited cha D' R' s' s'') :
    Visited cha (fun a => D a ∨ D' a) (fun a => R a ∨ R' a) s s'' where
  sound := h'.sound
  ext := h.ext.trans h'.ext
  new a := by rw [New.trans_iff h.ext h'.ext, h.new, h'.new]
  ranged a ha := ha.elim (fun hR => h'.keep a (h.ranged a hR)) (h'.ranged a)
  keep a ha := h'.keep a (h.keep a ha)
  covered a ha := ha.elim (h.covered a) (h'.covered a)
  map k a ha := by
    rcases h'.map k a ha with hmid | ⟨hk, hD'⟩
    · rcases h.map k a hmid with hold | ⟨hk, hD⟩
      · exact .inl hold
      · exact .inr ⟨hk, .inl hD⟩
    · exact .inr ⟨hk, .inr hD'⟩
  impl := h'.impl.trans h.impl

theorem Visited.congr {D R D' R' : FunctionEntry → Prop} {s s' : FunctionInfo}
    (h : Visited cha D R s s') (hD : ∀ a, D' a ↔ D a) (hR : ∀ a, R' a → R a) :
    Visited cha D' R' s s' where
  sound := h.sound
  ext := h.ext
  new a := (h.new a).trans (hD a).symm
  ranged a ha := h.ranged a (hR a ha)
  keep := h.keep
  covered a ha := h.covered a (hR a ha)
  map k a ha := (h.map k a ha).imp_right fun hk => ⟨hk.1, (hD a).mpr hk.2⟩
  impl := h.impl

theorem Visited.refl {s : FunctionInfo} (h : Sound cha.ChildEntry s.numbering) :
    Visited cha (fun _ => False) (fun _ => False) s s where
  sound := h
  ext := Extends.refl _
  new a := by
    refine ⟨?_, False.elim⟩
    rintro ⟨i, hi, hle⟩
    exact absurd (h.bounded a i hi) (Nat.not_lt.mpr hle)
  ranged _ := False.elim
  keep _ ha := ha
  covered _ := False.elim
  map _ _ ha := .inl ha
  impl := rfl

theorem visited_enter {s : FunctionInfo} {e : FunctionEntry}
    (h : Sound cha.ChildEntry s.numbering) (hnone : s.numbering.ids e = none) :
    Visited cha (· = e) (fun _ => False) s (enter s e) where
  sound := h.assign hnone
  ext := extends_assign hnone
  new := new_assign h.bounded
  ranged _ := False.elim
  keep _ ha := ha
  covered _ := False.elim
  map k a ha := by
    by_cases hk : k = (e.functionName, e.vTable.1)
    · subst hk
      have : a ∈ s.functionMap (e.functionName, e.vTable.1) ∨ a = e := by simpa [enter] using ha
      exact this.imp_right fun hae => ⟨by rw [hae], hae⟩
    · exact .inl (by simpa [enter, hk] using ha)
  impl := rfl

/-- Closing the recursion of `e` after all its children. -/
theorem Visited.close {R : FunctionEntry → Prop} {s s' : FunctionInfo} {e : FunctionEntry}
    {r : Range} (h : Visited cha (cha.Below e) R s s') (hR : ∀ a, cha.Below e a → a = e ∨ R a)
    (hlo : r.1 = s.numbering.next) (hhi : r.2 + 1 = s'.numbering.next) (hcovered : cha.Covered e) :
    Visited cha (cha.Below e) (cha.Below e) s
      { s' with numbering := s'.numbering.close e r } where
  sound := h.sound.close hlo hhi h.new
  ext := h.ext.trans (extends_close r)
  new := h.new
  ranged a ha := by
    by_cases hae : a = e
    · simp [hae, Numbering.close]
    · simpa [Numbering.close, hae] using h.ranged a ((hR a ha).resolve_left hae)
  keep a ha := by
    by_cases hae : a = e
    · simp [hae, Numbering.close]
    · simpa [Numbering.close, hae] using h.keep a ha
  covered a ha := by
    by_cases hae : a = e
    · exact hae ▸ hcovered
    · exact h.covered a ((hR a ha).resolve_left hae)
  map := h.map
  impl := h.impl

theorem visitChild_ok
    {recurse : FunctionEntry → FunctionInfo → Except Failure (Range × FunctionInfo)}
    {offset : Nat} {acc acc' : Range × FunctionInfo} {child : Vtbl}
    (h : cha.visitChild recurse offset acc child = .ok acc') :
    ∃ e' sub, cha.slotEntry child offset = some e' ∧ recurse e' acc.2 = .ok (sub, acc'.2) ∧
      acc.1.2 + 1 = sub.1 ∧ acc'.1 = (acc.1.1, sub.2) := by
  unfold visitChild at h
  split at h
  · exact absurd h nofun
  · rename_i e' hslot
    rw [bind_eq_ok] at h
    obtain ⟨⟨sub, t⟩, hrec, hrest⟩ := h
    by_cases hsub : acc.1.2 + 1 = sub.1
    · obtain rfl := Except.ok.inj ((if_pos hsub).symm.trans hrest)
      exact ⟨e', sub, hslot, hrec, hsub, rfl⟩
    · exact absurd ((if_neg hsub).symm.trans hrest) nofun

theorem buildFunctionInfoForFunction_ok_iff {fuel : Nat} {e : FunctionEntry}
    {s s' : FunctionInfo} {r : Range} :
    cha.buildFunctionInfoForFunction (fuel + 1) e s = .ok (r, s') ↔
      s.numbering.ids e = none ∧ ∃ t, (cha.children e.vTable).foldlM
          (cha.visitChild (cha.buildFunctionInfoForFunction fuel) e.offsetInVTable)
          ((s.numbering.next, s.numbering.next), enter s e) = .ok (r, t) ∧
        s' = { t with numbering := t.numbering.close e r } := by
  rw [buildFunctionInfoForFunction]
  cases hids : s.numbering.ids e with
  | some i => simp
  | none =>
    simp only [Option.isSome_none, Bool.false_eq_true, if_false, true_and]
    rw [bind_eq_ok]
    constructor
    · rintro ⟨⟨q, t⟩, hfold, hrest⟩
      obtain ⟨rfl, rfl⟩ := Prod.mk.inj (Except.ok.inj hrest)
      exact ⟨t, hfold, rfl⟩
    · rintro ⟨t, hfold, rfl⟩
      exact ⟨(r, t), hfold, rfl⟩

theorem sound_start : Sound cha.ChildEntry (Numbering.empty 1) := ⟨nofun, nofun⟩

/-- What numbering an entry and closing its range keep holds after the recursion. -/
theorem buildFunctionInfoForFunction_rule {P : Numbering FunctionEntry → Prop}
    (hassign : ∀ n e, n.ids e = none → P n → P (n.assign e))
    (hclose : ∀ n e r, P n → P (n.close e r)) {fuel : Nat} {e : FunctionEntry}
    {s s' : FunctionInfo} {r : Range} (hs : P s.numbering)
    (h : cha.buildFunctionInfoForFunction fuel e s = .ok (r, s')) : P s'.numbering := by
  induction fuel generalizing e s s' r with
  | zero => exact absurd h nofun
  | succ fuel ih =>
    obtain ⟨hnone, t, hfold, rfl⟩ := buildFunctionInfoForFunction_ok_iff.mp h
    have ht : P t.numbering := by
      refine foldlM_ok_rule (fun _ (acc : Range × FunctionInfo) => P acc.2.numbering)
        ?step ?start hfold
      case step =>
        intro pre child acc acc' hacc _ hstep
        obtain ⟨e', sub, -, hrec, -, -⟩ := visitChild_ok hstep
        exact ih hacc hrec
      case start => exact hassign _ _ hnone hs
    exact hclose _ _ _ ht

theorem buildBaseFunction_cases {e : FunctionEntry} {s s' : FunctionInfo}
    (h : cha.buildBaseFunction s e = .ok s') :
    s' = s ∨ ∃ r, cha.buildFunctionInfoForFunction (cha.entries.length + 1) e s = .ok (r, s') := by
  rw [buildBaseFunction] at h
  split at h
  · rw [bind_eq_ok] at h
    obtain ⟨⟨r, t⟩, hrec, hrest⟩ := h
    obtain rfl := Except.ok.inj hrest
    exact .inr ⟨r, hrec⟩
  · exact .inl (Except.ok.inj h).symm

/-- What the recursions keep holds after the run. -/
theorem buildFunctionInfo_rule {P : FunctionInfo → Prop}
    (hstart : ∀ functionImplMap, P ⟨fun _ => [], functionImplMap, Numbering.empty 1⟩)
    (hstep : ∀ e s s' r, P s →
      cha.buildFunctionInfoForFunction (cha.entries.length + 1) e s = .ok (r, s') → P s')
    {info : FunctionInfo} (h : cha.buildFunctionInfo = .ok info) : P info := by
  rw [buildFunctionInfo, bind_eq_ok] at h
  obtain ⟨order, -, hbase⟩ := h
  refine foldlM_ok_rule (fun _ s => P s) ?step (hstart _) hbase
  case step =>
    intro pre e s s' hs _ hbase
    rcases buildBaseFunction_cases hbase with rfl | ⟨r, hrec⟩
    · exact hs
    · exact hstep e s s' r hs hrec

/-- A finished recursion numbered exactly the entries below its start. -/
theorem buildFunctionInfoForFunction_visited {fuel : Nat} {e : FunctionEntry}
    {s s' : FunctionInfo} {r : Range} (hsound : Sound cha.ChildEntry s.numbering)
    (h : cha.buildFunctionInfoForFunction fuel e s = .ok (r, s')) :
    Visited cha (cha.Below e) (cha.Below e) s s' ∧ r.1 = s.numbering.next ∧
      r.2 + 1 = s'.numbering.next := by
  induction fuel generalizing e s s' r with
  | zero => exact absurd h nofun
  | succ fuel ih =>
    obtain ⟨hnone, t, hfold, rfl⟩ := buildFunctionInfoForFunction_ok_iff.mp h
    have hchildren := foldlM_ok_rule
      (fun pre (acc : Range × FunctionInfo) =>
        Visited cha (fun a => a = e ∨ cha.BelowChildren e pre a) (cha.BelowChildren e pre) s acc.2 ∧
          acc.1.1 = s.numbering.next ∧ acc.1.2 + 1 = acc.2.numbering.next ∧
          ∀ child ∈ pre, (cha.slotEntry child e.offsetInVTable).isSome)
      ?step ?start hfold
    case start =>
      refine ⟨(visited_enter hsound hnone).congr (fun a => ?_) (fun a ha => ?_), rfl, rfl, nofun⟩
      · exact or_iff_left (by rintro ⟨child, hchild, -⟩; simp at hchild)
      · obtain ⟨child, hchild, -⟩ := ha
        simp at hchild
    case step =>
      rintro pre child acc acc' ⟨hvisited, hlo, hhi, hslots⟩ - hstep
      obtain ⟨e', sub, hslot, hrec, hsub, hacc⟩ := visitChild_ok hstep
      obtain ⟨hbelow, hsublo, hsubhi⟩ := ih hvisited.sound hrec
      refine ⟨(hvisited.trans hbelow).congr (fun a => ?_) (fun a ha => ?_), ?_, ?_, ?_⟩
      · rw [belowChildren_concat e pre hslot, or_assoc]
      · exact (belowChildren_concat e pre hslot a).mp ha
      · rw [hacc, hlo]
      · rw [hacc, hsubhi]
      · rw [List.forall_mem_append, List.forall_mem_singleton, hslot]
        exact ⟨hslots, rfl⟩
    obtain ⟨hvisited, hlo, hhi, hslots⟩ := hchildren
    have hclosed : Visited cha (cha.Below e) (cha.BelowChildren e (cha.children e.vTable))
        s t := hvisited.congr (below_iff e) (fun a ha => ha)
    exact ⟨hclosed.close (fun a ha => (below_iff e a).mp ha) hlo hhi hslots, hlo, hhi⟩

end SDBuildCHA

end RhoFEM.CHA
