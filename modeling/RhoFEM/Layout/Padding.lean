import RhoFEM.Layout.Clouds

/-! The padding that the interleaving gives to the sub-vtables of a cloud. -/

namespace RhoFEM.Layout

open RhoFEM.CHA RhoFEM.Lib.Fold

section Steps

/-- The padding of a child of some size after a parent of some padded size. -/
def padStep (size pad parent : Nat) : Nat :=
  if parent > size + pad then parent - (size + pad) else pad

theorem padStep_of_le {size pad parent : Nat} (h : parent ≤ size + pad) :
    padStep size pad parent = pad :=
  if_neg (Nat.not_lt.mpr h)

theorem padStep_of_lt {size pad parent : Nat} (h : size + pad < parent) :
    padStep size pad parent = parent - (size + pad) :=
  if_pos h

theorem foldl_padStep_of_forall_le {size pad : Nat} {parents : List Nat}
    (h : ∀ p ∈ parents, p ≤ size + pad) : parents.foldl (padStep size) pad = pad := by
  induction parents with
  | nil => rfl
  | cons p parents ih =>
    obtain ⟨hp, hrest⟩ := List.forall_mem_cons.mp h
    rw [List.foldl_cons, padStep_of_le hp, ih hrest]

/-- Once there is padding, it is kept, or some parent sticks out in the end. -/
theorem foldl_padStep_of_pos {size pad : Nat} (hpad : 0 < pad) (parents : List Nat) :
    parents.foldl (padStep size) pad = pad ∧ (∀ p ∈ parents, p ≤ size + pad) ∨
      ∃ p ∈ parents, size + parents.foldl (padStep size) pad < p := by
  induction parents generalizing pad with
  | nil => exact .inl ⟨rfl, List.forall_mem_nil _⟩
  | cons p parents ih =>
    rw [List.foldl_cons]
    by_cases hp : p ≤ size + pad
    · rw [padStep_of_le hp]
      rcases ih hpad with ⟨heq, hle⟩ | ⟨q, hq, hlt⟩
      · exact .inl ⟨heq, List.forall_mem_cons.mpr ⟨hp, hle⟩⟩
      · exact .inr ⟨q, List.mem_cons_of_mem _ hq, hlt⟩
    · have hlt := Nat.lt_of_not_le hp
      rw [padStep_of_lt hlt]
      rcases ih (Nat.sub_pos_of_lt hlt) with ⟨heq, -⟩ | ⟨q, hq, hstick⟩
      · refine .inr ⟨p, List.mem_cons_self, ?_⟩
        rw [heq]
        omega
      · exact .inr ⟨q, List.mem_cons_of_mem _ hq, hstick⟩

theorem foldl_padStep_pos {size pad : Nat} (hpad : 0 < pad) (parents : List Nat) :
    0 < parents.foldl (padStep size) pad := by
  induction parents generalizing pad with
  | nil => exact hpad
  | cons p parents ih =>
    apply ih
    rw [padStep]
    split <;> omega

theorem foldl_padStep_eq_zero_iff {size : Nat} {parents : List Nat} :
    parents.foldl (padStep size) 0 = 0 ↔ ∀ p ∈ parents, p ≤ size := by
  induction parents with
  | nil => simp
  | cons p parents ih =>
    rw [List.foldl_cons, List.forall_mem_cons]
    by_cases hp : p ≤ size
    · rw [padStep_of_le hp, ih]
      exact (and_iff_right hp).symm
    · have hpos : 0 < parents.foldl (padStep size) (padStep size 0 p) :=
        foldl_padStep_pos (by rw [padStep_of_lt (by omega)]; omega) parents
      exact iff_of_false hpos.ne' fun h => hp h.1

/-- All parents fit exactly when the first one that is too large is the largest. -/
theorem forall_le_foldl_padStep_iff (size : Nat) (parents : List Nat) :
    (∀ p ∈ parents, p ≤ size + parents.foldl (padStep size) 0) ↔
      ∀ p, parents.find? (size < ·) = some p → ∀ q ∈ parents, q ≤ p := by
  induction parents with
  | nil => simp
  | cons p parents ih =>
    rw [List.foldl_cons]
    by_cases hp : size < p
    · rw [padStep_of_lt hp, List.find?_cons_of_pos (by simpa using hp)]
      simp only [Option.some.injEq, forall_eq', List.forall_mem_cons, le_refl, true_and]
      have hsize : size + (p - (size + 0)) = p := by omega
      constructor
      · rintro ⟨-, h⟩
        have hpos : 0 < p - (size + 0) := by omega
        rcases @foldl_padStep_of_pos size _ hpos parents with ⟨-, hle⟩ | ⟨q, hq, hlt⟩
        · rwa [hsize] at hle
        · exact absurd (h q hq) (Nat.not_le.mpr hlt)
      · intro h
        rw [foldl_padStep_of_forall_le (by rwa [hsize]), hsize]
        exact ⟨le_refl _, h⟩
    · have hle := Nat.le_of_not_lt hp
      rw [padStep_of_le hle, List.find?_cons_of_neg (by simpa using hp), List.forall_mem_cons, ih]
      constructor
      · rintro ⟨-, h⟩ q hq
        have hlt : size < q := by simpa using List.find?_some hq
        exact List.forall_mem_cons.mpr ⟨hle.trans hlt.le, h q hq⟩
      · exact fun h => ⟨hle.trans (Nat.le_add_right _ _),
          fun q hq => (List.forall_mem_cons.mp (h q hq)).2⟩

/-- If all parents fit, the size with padding is that of the first too large parent. -/
theorem size_add_foldl_padStep {size : Nat} {parents : List Nat}
    (h : ∀ p ∈ parents, p ≤ size + parents.foldl (padStep size) 0) :
    size + parents.foldl (padStep size) 0 = (parents.find? (size < ·)).getD size := by
  induction parents with
  | nil => rfl
  | cons p parents ih =>
    have hfirst := (forall_le_foldl_padStep_iff size (p :: parents)).mp h
    rw [List.foldl_cons] at h ⊢
    by_cases hp : size < p
    · rw [List.find?_cons_of_pos (by simpa using hp)] at hfirst ⊢
      have hle := (List.forall_mem_cons.mp (hfirst p rfl)).2
      have hsize : size + (p - (size + 0)) = p := by omega
      rw [padStep_of_lt hp, foldl_padStep_of_forall_le (by rwa [hsize]), hsize, Option.getD_some]
    · rw [padStep_of_le (Nat.le_of_not_lt hp)] at h ⊢
      rw [List.find?_cons_of_neg (by simpa using hp)]
      exact ih (List.forall_mem_cons.mp h).2

/-- The first element of a sorted list that has a property. -/
theorem find?_eq_some_iff_of_pairwise {α : Type} {f : α → Nat} {l : List α}
    (hl : l.Pairwise fun a b => f a < f b) {P : α → Bool} {p : α} :
    l.find? P = some p ↔ p ∈ l ∧ P p ∧ ∀ q ∈ l, f q < f p → ¬ P q := by
  induction l with
  | nil => simp
  | cons x l ih =>
    obtain ⟨hx, hl⟩ := List.pairwise_cons.mp hl
    by_cases hP : P x
    · rw [List.find?_cons_of_pos hP, Option.some.injEq]
      constructor
      · rintro rfl
        refine ⟨List.mem_cons_self, hP, ?_⟩
        intro q hq hlt
        rcases List.mem_cons.mp hq with rfl | hq
        · exact absurd hlt (Nat.lt_irrefl _)
        · exact absurd hlt (hx q hq).asymm
      · rintro ⟨hp, -, hfirst⟩
        rcases List.mem_cons.mp hp with rfl | hp
        · rfl
        · exact absurd hP (hfirst x List.mem_cons_self (hx p hp))
    · rw [List.find?_cons_of_neg hP, ih hl, List.forall_mem_cons]
      constructor
      · rintro ⟨hp, hPp, hfirst⟩
        exact ⟨List.mem_cons_of_mem _ hp, hPp, fun _ => hP, hfirst⟩
      · rintro ⟨hp, hPp, -, hfirst⟩
        refine ⟨(List.mem_cons.mp hp).resolve_left ?_, hPp, hfirst⟩
        rintro rfl
        exact hP hPp

end Steps

section Nodes

variable (cha : SDBuildCHA) (nodes : List Vtbl)

/-- The elements before the address point. -/
def sizeBefore (v : Vtbl) : Nat := cha.addrPt v - (cha.getRange v).1

def padNode (prePadMap : Vtbl → Nat) (parent : Vtbl) : Vtbl → Nat :=
  if cha.isUndefined parent then prePadMap
  else (cha.children parent).foldl (padChild cha nodes parent) prePadMap

/-- The parents for which the padding of a child is computed. -/
def forwardParents (c : Vtbl) : List Vtbl :=
  nodes.filter fun p =>
    cha.isDefined p && decide (c ∈ cha.children p ∧ indMap nodes p < indMap nodes c)

variable {cha nodes}

theorem padChild_eq (parent : Vtbl) (m : Vtbl → Nat) (child : Vtbl) :
    padChild cha nodes parent m child =
      if indMap nodes child < indMap nodes parent then m
      else Function.update m child (padStep (sizeBefore cha child) (m child)
        (sizeBefore cha parent + m parent)) := rfl

/-- The size of the parent itself does not change while its children are padded. -/
theorem padChild_foldl (parent : Vtbl) {cs : List Vtbl} (hcs : cs.Nodup) (m : Vtbl → Nat) :
    cs.foldl (padChild cha nodes parent) m = fun c =>
      if c ∈ cs ∧ indMap nodes parent ≤ indMap nodes c then
        padStep (sizeBefore cha c) (m c) (sizeBefore cha parent + m parent) else m c := by
  induction cs generalizing m with
  | nil => simp
  | cons x cs ih =>
    obtain ⟨hx, hrest⟩ := List.nodup_cons.mp hcs
    rw [List.foldl_cons, ih hrest, padChild_eq]
    generalize hstep : (if indMap nodes x < indMap nodes parent then m
      else Function.update m x (padStep (sizeBefore cha x) (m x)
        (sizeBefore cha parent + m parent))) = m'
    have hother : ∀ c, c ≠ x → m' c = m c := by
      intro c hc
      rw [← hstep]
      split
      · rfl
      · exact Function.update_of_ne hc ..
    have hself : m' x = if indMap nodes parent ≤ indMap nodes x then
        padStep (sizeBefore cha x) (m x) (sizeBefore cha parent + m parent) else m x := by
      rw [← hstep]
      split
      · rw [if_neg (by omega)]
      · rw [if_pos (by omega), Function.update_self]
    have hparent : m' parent = m parent := by
      by_cases hpx : parent = x
      · subst hpx
        rw [hself, padStep_of_le (le_refl _), ite_self]
      · exact hother parent hpx
    rw [hparent]
    funext c
    by_cases hc : c = x
    · subst hc
      simp [hx, hself]
    · simp [hc, hother c hc]

section Set

variable (hset : ∀ v, (cha.children v).Nodup)
include hset

theorem padNode_apply (m : Vtbl → Nat) (parent c : Vtbl) :
    padNode cha nodes m parent c =
      if cha.isDefined parent ∧ c ∈ cha.children parent ∧ indMap nodes parent ≤ indMap nodes c then
        padStep (sizeBefore cha c) (m c) (sizeBefore cha parent + m parent) else m c := by
  rw [padNode]
  split
  · rename_i hundef
    simp [SDBuildCHA.isDefined, hundef]
  · rename_i hdef
    rw [padChild_foldl parent (hset parent)]
    simp [SDBuildCHA.isDefined, hdef]

theorem padNode_of_le (m : Vtbl → Nat) {parent c : Vtbl} (hparent : parent ∈ nodes)
    (hc : c ∈ nodes) (hle : indMap nodes c ≤ indMap nodes parent) :
    padNode cha nodes m parent c = m c := by
  rw [padNode_apply hset]
  split
  · rename_i h
    obtain rfl := indMap_injective hc hparent (Nat.le_antisymm hle h.2.2)
    exact padStep_of_le (le_refl _)
  · rfl

theorem padNode_foldl_of_le (m : Vtbl → Nat) {c : Vtbl} (hc : c ∈ nodes) {rest : List Vtbl}
    (hrest : ∀ p ∈ rest, p ∈ nodes ∧ indMap nodes c ≤ indMap nodes p) :
    rest.foldl (padNode cha nodes) m c = m c := by
  induction rest generalizing m with
  | nil => rfl
  | cons p rest ih =>
    obtain ⟨⟨hp, hle⟩, hrest⟩ := List.forall_mem_cons.mp hrest
    rw [List.foldl_cons, ih _ hrest, padNode_of_le hset m hp hc hle]

/-- The padding of a node in terms of the final sizes of its parents. -/
theorem prePad_eq_foldl (hnodes : nodes.Nodup) (m : Vtbl → Nat) {c : Vtbl} (hc : c ∈ nodes) :
    prePad cha nodes m c = ((forwardParents cha nodes c).map fun p =>
      sizeBefore cha p + prePad cha nodes m p).foldl (padStep (sizeBefore cha c)) (m c) := by
  have hgen : ∀ done rest, nodes = done ++ rest →
      done.foldl (padNode cha nodes) m c =
        ((done.filter fun p => cha.isDefined p &&
          decide (c ∈ cha.children p ∧ indMap nodes p < indMap nodes c)).map fun p =>
            sizeBefore cha p + prePad cha nodes m p).foldl (padStep (sizeBefore cha c)) (m c) := by
    intro done
    induction done using List.reverseRecOn with
    | nil => exact fun _ _ => rfl
    | append_singleton done p ih =>
      intro rest hsplit
      rw [List.append_assoc, List.singleton_append] at hsplit
      have hp : p ∈ nodes := by simp [hsplit]
      -- from here on the padding of `p` is final
      have hfinal : done.foldl (padNode cha nodes) m p = prePad cha nodes m p := by
        have hlater : ∀ q ∈ p :: rest, q ∈ nodes ∧ indMap nodes p ≤ indMap nodes q := by
          have hpair := pairwise_indMap_lt hnodes
          rw [hsplit, List.pairwise_append, ← hsplit] at hpair
          intro q hq
          refine ⟨by simp [hsplit, List.mem_cons.mp hq], ?_⟩
          rcases List.mem_cons.mp hq with rfl | hq
          · exact le_refl _
          · exact ((List.pairwise_cons.mp hpair.2.1).1 q hq).le
        have hprePad : prePad cha nodes m = (p :: rest).foldl (padNode cha nodes)
            (done.foldl (padNode cha nodes) m) := by
          rw [← List.foldl_append, ← hsplit]
          rfl
        rw [hprePad, padNode_foldl_of_le hset _ hp hlater]
      rw [List.foldl_append, List.foldl_cons, List.foldl_nil, List.filter_append, List.map_append,
        List.foldl_append, ← ih (p :: rest) hsplit, padNode_apply hset, hfinal]
      by_cases hforward : cha.isDefined p ∧ c ∈ cha.children p ∧ indMap nodes p < indMap nodes c
      · obtain ⟨hdef, hchild, hlt⟩ := hforward
        rw [if_pos ⟨hdef, hchild, hlt.le⟩, List.filter_cons_of_pos (by simp [hdef, hchild, hlt])]
        rfl
      · rw [List.filter_cons_of_neg (by simpa using hforward)]
        split
        · rename_i hself
          have hle : ¬ indMap nodes p < indMap nodes c :=
            fun hlt => hforward ⟨hself.1, hself.2.1, hlt⟩
          obtain rfl := indMap_injective hp hc (by omega)
          rw [hfinal, padStep_of_le (le_refl _)]
          rfl
        · rfl
  have hall := hgen nodes [] (List.append_nil nodes).symm
  exact hall

end Set

end Nodes

section Containment

variable (cha : SDBuildCHA) (root : String)

/-- An edge of the cloud whose child comes later in preorder. -/
def Forward (p c : Vtbl) : Prop :=
  p ∈ cha.preorder (root, 0) ∧ c ∈ cha.children p ∧
    indMap (cha.preorder (root, 0)) p < indMap (cha.preorder (root, 0)) c

/-- Paths of such edges. -/
abbrev Above : Vtbl → Vtbl → Prop := Relation.ReflTransGen (Forward cha root)

def paddedSize (v : Vtbl) : Nat :=
  sizeBefore cha v + prePad cha (cha.preorder (root, 0)) (fun _ => 0) v

variable {cha root}

theorem Forward.mem {p c : Vtbl} (h : Forward cha root p c) : c ∈ cha.preorder (root, 0) :=
  (cha.mem_preorder_iff _ c).mpr (((cha.mem_preorder_iff _ p).mp h.1).tail h.2.1)

theorem paddedSize_eq (hset : ∀ v, (cha.children v).Nodup) {c : Vtbl}
    (hc : c ∈ cha.preorder (root, 0)) :
    paddedSize cha root c = sizeBefore cha c +
      ((forwardParents cha (cha.preorder (root, 0)) c).map (paddedSize cha root)).foldl
        (padStep (sizeBefore cha c)) 0 := by
  rw [paddedSize, prePad_eq_foldl hset (cha.preorder_nodup _) _ hc]
  rfl

section Defined

variable (hdef : ∀ v ∈ cha.preorder (root, 0), cha.isDefined v)
include hdef

theorem mem_forwardParents_iff {p c : Vtbl} :
    p ∈ forwardParents cha (cha.preorder (root, 0)) c ↔ Forward cha root p c := by
  rw [forwardParents, List.mem_filter, Bool.and_eq_true, decide_eq_true_eq, Forward]
  exact ⟨fun h => ⟨h.1, h.2.2⟩, fun h => ⟨h.1, hdef p h.1, h.2⟩⟩

theorem forall_forwardParents_iff {c : Vtbl} {P : Nat → Prop} :
    (∀ n ∈ (forwardParents cha (cha.preorder (root, 0)) c).map (paddedSize cha root), P n) ↔
      ∀ p, Forward cha root p c → P (paddedSize cha root p) := by
  rw [List.forall_mem_map]
  exact forall_congr' fun p => imp_congr_left (mem_forwardParents_iff hdef)

/-- The size of the first too large parent. -/
theorem find?_forwardParents_iff {c : Vtbl} {n : Nat} :
    ((forwardParents cha (cha.preorder (root, 0)) c).map (paddedSize cha root)).find?
        (sizeBefore cha c < ·) = some n ↔
      ∃ p, Forward cha root p c ∧ sizeBefore cha c < paddedSize cha root p ∧
        (∀ q, Forward cha root q c →
          indMap (cha.preorder (root, 0)) q < indMap (cha.preorder (root, 0)) p →
            paddedSize cha root q ≤ sizeBefore cha c) ∧ paddedSize cha root p = n := by
  have hsorted : (forwardParents cha (cha.preorder (root, 0)) c).Pairwise fun a b =>
      indMap (cha.preorder (root, 0)) a < indMap (cha.preorder (root, 0)) b :=
    (pairwise_indMap_lt (cha.preorder_nodup (root, 0))).filter _
  rw [List.find?_map, Option.map_eq_some_iff]
  apply exists_congr
  intro p
  rw [find?_eq_some_iff_of_pairwise hsorted]
  simp only [mem_forwardParents_iff hdef, Function.comp, decide_eq_true_eq, Nat.not_lt, and_assoc]

/-- The parents of one child fit exactly when the first too large one is the largest. -/
theorem contained_iff (hset : ∀ v, (cha.children v).Nodup) {c : Vtbl}
    (hc : c ∈ cha.preorder (root, 0)) :
    (∀ p, Forward cha root p c → paddedSize cha root p ≤ paddedSize cha root c) ↔
      ∀ p, Forward cha root p c → sizeBefore cha c < paddedSize cha root p →
        (∀ q, Forward cha root q c →
          indMap (cha.preorder (root, 0)) q < indMap (cha.preorder (root, 0)) p →
            paddedSize cha root q ≤ sizeBefore cha c) →
        ∀ q, Forward cha root q c → paddedSize cha root q ≤ paddedSize cha root p := by
  rw [paddedSize_eq hset hc, ← forall_forwardParents_iff hdef
    (P := fun n => n ≤ sizeBefore cha c + _), forall_le_foldl_padStep_iff]
  simp only [find?_forwardParents_iff hdef, forall_forwardParents_iff hdef
    (P := fun n => n ≤ _)]
  constructor
  · exact fun h p hp hlt hfirst => h _ ⟨p, hp, hlt, hfirst, rfl⟩
  · rintro h _ ⟨p, hp, hlt, hfirst, rfl⟩
    exact h p hp hlt hfirst

/-- Where the parents fit, the padded size is the largest size on the way to the node. -/
theorem isGreatest_paddedSize (hset : ∀ v, (cha.children v).Nodup) {c : Vtbl}
    (hc : c ∈ cha.preorder (root, 0))
    (hfit : ∀ p, Forward cha root p c → paddedSize cha root p ≤ paddedSize cha root c)
    (hparents : ∀ p, Forward cha root p c →
      IsGreatest (sizeBefore cha '' {a | Above cha root a p}) (paddedSize cha root p)) :
    IsGreatest (sizeBefore cha '' {a | Above cha root a c}) (paddedSize cha root c) := by
  constructor
  · rw [paddedSize_eq hset hc, ← forall_forwardParents_iff hdef
      (P := fun n => n ≤ sizeBefore cha c + _)] at hfit
    rw [paddedSize_eq hset hc, size_add_foldl_padStep hfit]
    cases hfind : ((forwardParents cha (cha.preorder (root, 0)) c).map
        (paddedSize cha root)).find? (sizeBefore cha c < ·) with
    | none => exact ⟨c, .refl, rfl⟩
    | some n =>
      obtain ⟨p, hp, -, -, rfl⟩ := (find?_forwardParents_iff hdef).mp hfind
      obtain ⟨a, ha, hsize⟩ := (hparents p hp).1
      exact ⟨a, ha.tail hp, hsize⟩
  · rintro _ ⟨a, ha, rfl⟩
    rcases ha.cases_tail with rfl | ⟨p, hap, hp⟩
    · exact Nat.le_add_right _ _
    · exact ((hparents p hp).2 ⟨a, hap, rfl⟩).trans (hfit p hp)

end Defined

/-- The condition of `contained_iff` in terms of the sizes without padding. -/
theorem firstTooLarge_iff {c : Vtbl} (hparents : ∀ p, Forward cha root p c →
      IsGreatest (sizeBefore cha '' {a | Above cha root a p}) (paddedSize cha root p)) :
    (∀ p, Forward cha root p c → sizeBefore cha c < paddedSize cha root p →
        (∀ q, Forward cha root q c →
          indMap (cha.preorder (root, 0)) q < indMap (cha.preorder (root, 0)) p →
            paddedSize cha root q ≤ sizeBefore cha c) →
        ∀ q, Forward cha root q c → paddedSize cha root q ≤ paddedSize cha root p) ↔
      ∀ p, Forward cha root p c →
        (∃ a, Above cha root a p ∧ sizeBefore cha c < sizeBefore cha a) →
        (∀ q, Forward cha root q c →
          indMap (cha.preorder (root, 0)) q < indMap (cha.preorder (root, 0)) p →
            ∀ a, Above cha root a q → sizeBefore cha a ≤ sizeBefore cha c) →
        ∀ q, Forward cha root q c → ∀ b, Above cha root b q →
          ∃ a, Above cha root a p ∧ sizeBefore cha b ≤ sizeBefore cha a := by
  have hle : ∀ p n, Forward cha root p c →
      (paddedSize cha root p ≤ n ↔ ∀ a, Above cha root a p → sizeBefore cha a ≤ n) := by
    intro p n hp
    rw [isLUB_le_iff (hparents p hp).isLUB, mem_upperBounds, Set.forall_mem_image]
    rfl
  have hge : ∀ p n, Forward cha root p c →
      (n ≤ paddedSize cha root p ↔ ∃ a, Above cha root a p ∧ n ≤ sizeBefore cha a) := by
    intro p n hp
    obtain ⟨⟨a, ha, hsize⟩, hupper⟩ := hparents p hp
    constructor
    · exact fun h => ⟨a, ha, hsize ▸ h⟩
    · rintro ⟨b, hb, h⟩
      exact h.trans (hupper ⟨b, hb, rfl⟩)
  refine forall_congr' fun p => forall_congr' fun hp => imp_congr (hge p _ hp) (imp_congr ?_ ?_)
  · exact forall_congr' fun q => forall_congr' fun hq => forall_congr' fun _ => hle q _ hq
  · refine forall_congr' fun q => forall_congr' fun hq => (hle q _ hq).trans ?_
    exact forall_congr' fun b => forall_congr' fun _ => hge p _ hp

/-- After the padding loop of a defined cloud all children contain their parents, exactly
when of the parents that need more room than a child has, the first one needs most. -/
theorem prePad_contains_iff (hset : ∀ v, (cha.children v).Nodup)
    (hdef : ∀ v ∈ cha.preorder (root, 0), cha.isDefined v) :
    (∀ p c, Forward cha root p c → paddedSize cha root p ≤ paddedSize cha root c) ↔
      ∀ c p, Forward cha root p c →
        (∃ a, Above cha root a p ∧ sizeBefore cha c < sizeBefore cha a) →
        (∀ q, Forward cha root q c →
          indMap (cha.preorder (root, 0)) q < indMap (cha.preorder (root, 0)) p →
            ∀ a, Above cha root a q → sizeBefore cha a ≤ sizeBefore cha c) →
        ∀ q, Forward cha root q c → ∀ b, Above cha root b q →
          ∃ a, Above cha root a p ∧ sizeBefore cha b ≤ sizeBefore cha a := by
  -- both sides make the padded sizes the largest sizes above, from the root downwards
  constructor
  · intro hfit c p hp
    have hgreatest : ∀ n v, v ∈ cha.preorder (root, 0) → indMap (cha.preorder (root, 0)) v < n →
        IsGreatest (sizeBefore cha '' {a | Above cha root a v}) (paddedSize cha root v) := by
      intro n
      induction n with
      | zero => exact fun v _ h => absurd h (Nat.not_lt_zero _)
      | succ n ih =>
        intro v hv hn
        apply isGreatest_paddedSize hdef hset hv fun p hp => hfit p v hp
        intro p hp
        exact ih p hp.1 (hp.2.2.trans_le (Nat.le_of_lt_succ hn))
    exact (firstTooLarge_iff fun q hq => hgreatest _ q hq.1 (Nat.lt_succ_self _)).mp
      ((contained_iff hdef hset hp.mem).mp fun q hq => hfit q c hq) p hp
  · intro hfirst
    have hgen : ∀ n v, v ∈ cha.preorder (root, 0) → indMap (cha.preorder (root, 0)) v < n →
        (∀ p, Forward cha root p v → paddedSize cha root p ≤ paddedSize cha root v) ∧
          IsGreatest (sizeBefore cha '' {a | Above cha root a v}) (paddedSize cha root v) := by
      intro n
      induction n with
      | zero => exact fun v _ h => absurd h (Nat.not_lt_zero _)
      | succ n ih =>
        intro v hv hn
        have hparents : ∀ p, Forward cha root p v →
            IsGreatest (sizeBefore cha '' {a | Above cha root a p}) (paddedSize cha root p) :=
          fun p hp => (ih p hp.1 (hp.2.2.trans_le (Nat.le_of_lt_succ hn))).2
        have hfit := (contained_iff hdef hset hv).mpr
          ((firstTooLarge_iff hparents).mpr (hfirst v))
        exact ⟨hfit, isGreatest_paddedSize hdef hset hv hfit hparents⟩
    exact fun p c hp => (hgen _ c hp.mem (Nat.lt_succ_self _)).1 p hp

end Containment

/-- The class `C` is shorter before its address point than both of its parents, and the
second parent is longer than the first. -/
def shortChild : List Nmd :=
  [⟨"_ZTV1A", [⟨0, 0, 2, 2, [("", 0)], []⟩]⟩, ⟨"_ZTV1B", [⟨0, 0, 3, 3, [("_ZTV1A", 0)], []⟩]⟩,
    ⟨"_ZTV1C", [⟨0, 0, 1, 1, [("_ZTV1A", 0), ("_ZTV1B", 0)], []⟩]⟩]

def shortVTables (name : String) : Option (List Constant) :=
  [("_ZTV1A", [.null, .other 1, .bitCast "_ZN1A1fEv"]),
    ("_ZTV1B", [.null, .null, .other 2, .bitCast "_ZN1A1fEv"]),
    ("_ZTV1C", [.other 3, .bitCast "_ZN1A1fEv"])].lookup name

theorem shortChild_sets {cha : SDBuildCHA}
    (h : buildClouds shortVTables shortChild = .ok cha) :
    (∀ v, (cha.children v).Nodup) ∧ ∀ v ∈ cha.preorder ("_ZTV1A", 0), cha.isDefined v := by
  have hok := eq_ok_of_isOk (x := buildClouds shortVTables shortChild) .empty (by decide)
  obtain rfl := Except.ok.inj (hok.symm.trans h)
  exact ⟨SDBuildCHA.children_nodup _ (by decide), by decide⟩

theorem prePad_contains_iff_short : ∃ cha, buildClouds shortVTables shortChild = .ok cha ∧
    ((∀ p c, Forward cha "_ZTV1A" p c → paddedSize cha "_ZTV1A" p ≤ paddedSize cha "_ZTV1A" c) ↔
      ∀ c p, Forward cha "_ZTV1A" p c →
        (∃ a, Above cha "_ZTV1A" a p ∧ sizeBefore cha c < sizeBefore cha a) →
        (∀ q, Forward cha "_ZTV1A" q c →
          indMap (cha.preorder ("_ZTV1A", 0)) q < indMap (cha.preorder ("_ZTV1A", 0)) p →
            ∀ a, Above cha "_ZTV1A" a q → sizeBefore cha a ≤ sizeBefore cha c) →
        ∀ q, Forward cha "_ZTV1A" q c → ∀ b, Above cha "_ZTV1A" b q →
          ∃ a, Above cha "_ZTV1A" a p ∧ sizeBefore cha b ≤ sizeBefore cha a) := by
  have hcha := eq_ok_of_isOk (x := buildClouds shortVTables shortChild) .empty (by decide)
  obtain ⟨hset, hdef⟩ := shortChild_sets hcha
  exact ⟨_, hcha, prePad_contains_iff hset hdef⟩

/-- The second parent replaces the padding of `C` instead of adding to it. -/
theorem prePad_replaces : ∃ cha, buildClouds shortVTables shortChild = .ok cha ∧
    "_ZTV1A" ∈ cha.roots ∧ (∀ v ∈ cha.preorder ("_ZTV1A", 0), cha.isDefined v) ∧
      Forward cha "_ZTV1A" ("_ZTV1B", 0) ("_ZTV1C", 0) ∧
        paddedSize cha "_ZTV1A" ("_ZTV1B", 0) = 3 ∧ paddedSize cha "_ZTV1A" ("_ZTV1C", 0) = 2 := by
  have hcha := eq_ok_of_isOk (x := buildClouds shortVTables shortChild) .empty (by decide)
  exact ⟨_, hcha, by decide, (shortChild_sets hcha).2,
    ⟨by decide, by decide, by decide⟩, by decide, by decide⟩

end RhoFEM.Layout
