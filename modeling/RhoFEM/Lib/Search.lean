import Mathlib

/-! Depth first search of a finite graph, with the nodes already visited as an
accumulator and a bound on the depth of the recursion. -/

universe u

namespace RhoFEM.Lib.Search

variable {α : Type u}

abbrev Reaches (children : α → List α) : α → α → Prop :=
  Relation.ReflTransGen fun a b => b ∈ children a

def Acyclic (children : α → List α) : Prop :=
  ∀ v, ¬ Relation.TransGen (fun a b => b ∈ children a) v v

/-- All edges of the graph lead into a finite list of nodes. -/
def Supported (children : α → List α) (support : List α) : Prop :=
  ∀ a, ∀ b ∈ children a, b ∈ support

theorem Acyclic.of_lt {β : Type} [Preorder β] {children : α → List α} (f : α → β)
    (h : ∀ a, ∀ b ∈ children a, f a < f b) : Acyclic children := by
  have hpath : ∀ a b, Relation.TransGen (fun a b => b ∈ children a) a b → f a < f b := by
    intro a b hab
    induction hab with
    | single hb => exact h _ _ hb
    | tail _ hc ih => exact ih.trans (h _ _ hc)
  intro v hv
  exact lt_irrefl _ (hpath v v hv)

/-- Along the edges of an acyclic graph a rank decreases. -/
theorem Acyclic.exists_rank {children : α → List α} {support : List α}
    (hacyclic : Acyclic children) (hsupport : Supported children support) :
    ∃ rank : α → Nat, (∀ a, ∀ b ∈ children a, rank b < rank a) ∧
      ∀ a, rank a ≤ support.length := by
  classical
  refine ⟨fun a => (support.toFinset.filter
    (Relation.TransGen (fun a b => b ∈ children a) a)).card, ?_, ?_⟩
  · intro a b hb
    apply Finset.card_lt_card
    rw [Finset.ssubset_iff_of_subset]
    · refine ⟨b, ?_, ?_⟩
      · simpa using ⟨hsupport a b hb, Relation.TransGen.single hb⟩
      · simpa using fun _ => hacyclic b
    · intro x hx
      simp only [Finset.mem_filter] at hx ⊢
      exact ⟨hx.1, Relation.TransGen.head hb hx.2⟩
  · intro a
    exact (Finset.card_filter_le _ _).trans (List.toFinset_card_le support)

/-- What holds of a node as soon as it holds of its parents holds everywhere. -/
theorem Acyclic.parents_induction {children : α → List α} {support : List α}
    (hacyclic : Acyclic children) (hsupport : Supported children support) {P : α → Prop}
    (step : ∀ v, (∀ p, v ∈ children p → P p) → P v) (v : α) : P v := by
  obtain ⟨rank, hrank, hbound⟩ := hacyclic.exists_rank hsupport
  induction hn : support.length - rank v using Nat.strong_induction_on generalizing v with
  | _ n ih =>
    apply step
    intro p hp
    have hlt := hrank p v hp
    have hle := hbound p
    exact ih (support.length - rank p) (by omega) p rfl

theorem foldl_grows {f : List α → α → List α} (hf : ∀ acc v, acc <+: f acc v) (cs acc : List α) :
    acc <+: cs.foldl f acc := by
  induction cs generalizing acc with
  | nil => exact List.prefix_refl acc
  | cons c cs ih => exact (hf acc c).trans (ih (f acc c))

/-- Built from the left, a list in which every node but the start follows a parent. -/
inductive ParentsFirst (children : α → List α) (start : α) : List α → Prop
  | nil : ParentsFirst children start []
  | concat {l : List α} {v : α} : ParentsFirst children start l →
    (v = start ∨ ∃ p ∈ l, v ∈ children p) → ParentsFirst children start (l ++ [v])

theorem ParentsFirst.parent_before {children : α → List α} {start x : α} {pre post : List α}
    (h : ParentsFirst children start (pre ++ x :: post)) (hx : x ≠ start) :
    ∃ p ∈ pre, x ∈ children p := by
  generalize hl : pre ++ x :: post = l at h
  induction h generalizing post with
  | nil => simp at hl
  | concat _ hv ih =>
    rename_i l v _
    rcases List.eq_nil_or_concat post with rfl | ⟨rest, last, rfl⟩
    · obtain ⟨rfl, hxv⟩ := List.append_inj' hl rfl
      obtain rfl : x = v := by simpa using hxv
      exact hv.resolve_left hx
    · rw [List.concat_eq_append, ← List.cons_append, ← List.append_assoc] at hl
      exact ih (List.append_inj' hl rfl).1

theorem anyM_eq_some {f : α → Option Bool} {xs : List α} (P : α → Prop) [DecidablePred P]
    (h : ∀ x ∈ xs, f x = some (decide (P x))) : xs.anyM f = some (decide (∃ x ∈ xs, P x)) := by
  induction xs with
  | nil => simp [List.anyM]
  | cons x xs ih =>
    have hrest := ih fun y hy => h y (by simp [hy])
    rw [List.anyM, h x (by simp)]
    by_cases hx : P x
    · simp [hx]
    · simpa [hx] using hrest

variable [DecidableEq α] (children : α → List α)

def visit : Nat → List α → α → List α
  | 0, acc, _ => acc
  | fuel + 1, acc, v =>
    if v ∈ acc then acc else (children v).foldl (visit fuel) (acc ++ [v])

variable {children}

theorem visit_grows (fuel : Nat) (acc : List α) (v : α) : acc <+: visit children fuel acc v := by
  induction fuel generalizing acc v with
  | zero => exact List.prefix_refl acc
  | succ fuel ih =>
    rw [visit]
    split
    · exact List.prefix_refl acc
    · exact (List.prefix_append acc [v]).trans (foldl_grows ih _ _)

theorem visit_nodup (fuel : Nat) {acc : List α} (v : α) (h : acc.Nodup) :
    (visit children fuel acc v).Nodup := by
  induction fuel generalizing acc v with
  | zero => exact h
  | succ fuel ih =>
    rw [visit]
    split
    · exact h
    · rename_i hv
      have hstart : (acc ++ [v]).Nodup := by
        rw [List.nodup_append]
        refine ⟨h, by simp, ?_⟩
        intro a ha b hb
        rw [List.mem_singleton.mp hb]
        exact fun hav => hv (hav ▸ ha)
      generalize acc ++ [v] = start at hstart
      generalize children v = cs
      induction cs generalizing start with
      | nil => exact hstart
      | cons c cs ihcs => exact ihcs (visit children fuel start c) (ih c hstart)

theorem visit_sound (fuel : Nat) (acc : List α) (v : α) {x : α}
    (hx : x ∈ visit children fuel acc v) : x ∈ acc ∨ Reaches children v x := by
  induction fuel generalizing acc v with
  | zero => exact .inl hx
  | succ fuel ih =>
    rw [visit] at hx
    split at hx
    · exact .inl hx
    · have hfold : ∀ cs acc : List α, x ∈ cs.foldl (visit children fuel) acc →
          x ∈ acc ∨ ∃ c ∈ cs, Reaches children c x := by
        intro cs
        induction cs with
        | nil => exact fun acc h => .inl h
        | cons c cs ihcs =>
          intro acc h
          rcases ihcs _ h with hvisit | ⟨d, hd, hreach⟩
          · rcases ih acc c hvisit with hacc | hreach
            · exact .inl hacc
            · exact .inr ⟨c, by simp, hreach⟩
          · exact .inr ⟨d, by simp [hd], hreach⟩
      rcases hfold _ _ hx with hacc | ⟨c, hc, hreach⟩
      · rcases List.mem_append.mp hacc with hacc | hv
        · exact .inl hacc
        · rw [List.mem_singleton.mp hv]
          exact .inr .refl
      · exact .inr (.head hc hreach)

/-- The nodes of the support that are not visited yet. -/
def remaining (support acc : List α) : Nat := (support.toFinset \ acc.toFinset).card

theorem remaining_anti (support : List α) {acc acc' : List α} (h : acc ⊆ acc') :
    remaining support acc' ≤ remaining support acc := by
  apply Finset.card_le_card
  intro x hx
  simp only [Finset.mem_sdiff, List.mem_toFinset] at hx ⊢
  exact ⟨hx.1, fun hacc => hx.2 (h hacc)⟩

theorem remaining_concat {support acc : List α} {v : α} (hv : v ∈ support) (hacc : v ∉ acc) :
    remaining support (acc ++ [v]) < remaining support acc := by
  apply Finset.card_lt_card
  rw [Finset.ssubset_iff_of_subset]
  · exact ⟨v, by simp [hv, hacc], by simp⟩
  · intro x hx
    simp only [Finset.mem_sdiff, List.mem_toFinset, List.mem_append, not_or] at hx ⊢
    exact ⟨hx.1, hx.2.1⟩

/-- With enough fuel the node itself and all children of what is new are visited. -/
theorem visit_closed {support : List α} (hsupport : Supported children support) (fuel : Nat)
    (acc : List α) (v : α) (hv : v ∈ support) (hfuel : remaining support acc < fuel) :
    v ∈ visit children fuel acc v ∧
      ∀ x ∈ visit children fuel acc v, x ∉ acc → children x ⊆ visit children fuel acc v := by
  induction fuel generalizing acc v with
  | zero => exact absurd hfuel (Nat.not_lt_zero _)
  | succ fuel ih =>
    by_cases hacc : v ∈ acc
    · rw [visit, if_pos hacc]
      exact ⟨hacc, fun x hx hnot => absurd hx hnot⟩
    rw [visit, if_neg hacc]
    have hfold : ∀ cs acc : List α, cs ⊆ support → remaining support acc < fuel →
        cs ⊆ cs.foldl (visit children fuel) acc ∧
          ∀ x ∈ cs.foldl (visit children fuel) acc, x ∉ acc →
            children x ⊆ cs.foldl (visit children fuel) acc := by
      intro cs
      induction cs with
      | nil => exact fun acc _ _ => ⟨List.nil_subset _, fun x hx hnot => absurd hx hnot⟩
      | cons c cs ihcs =>
        intro acc hcs hremaining
        obtain ⟨hc, hrest⟩ := List.cons_subset.mp hcs
        have hgrow : acc ⊆ visit children fuel acc c := (visit_grows fuel acc c).subset
        have hlater : visit children fuel acc c ⊆
            cs.foldl (visit children fuel) (visit children fuel acc c) :=
          (foldl_grows (visit_grows fuel) cs _).subset
        obtain ⟨hself, hclosed⟩ := ih acc c hc hremaining
        obtain ⟨hcs', hclosed'⟩ := ihcs (visit children fuel acc c) hrest
          ((remaining_anti support hgrow).trans_lt hremaining)
        refine ⟨List.cons_subset.mpr ⟨hlater hself, hcs'⟩, ?_⟩
        intro x hx hnot
        by_cases hvisit : x ∈ visit children fuel acc c
        · exact fun y hy => hlater (hclosed x hvisit hnot hy)
        · exact hclosed' x hx hvisit
    obtain ⟨hcs, hclosed⟩ := hfold (children v) (acc ++ [v]) (hsupport v)
      ((remaining_concat hv hacc).trans_le (Nat.le_of_lt_succ hfuel))
    refine ⟨(foldl_grows (visit_grows fuel) _ _).subset (by simp), ?_⟩
    intro x hx hnot
    by_cases hxv : x = v
    · exact hxv ▸ hcs
    · exact hclosed x hx (by simp [hnot, hxv])

/-- Behind a node stand nodes that are reached from it, until all its children have been named. -/
def Blocked (children : α → List α) (l : List α) (x : α) : Prop :=
  ∃ pre block post, l = pre ++ x :: block ++ post ∧ (∀ m ∈ block, Reaches children x m) ∧
    ∀ c ∈ children x, c ∈ pre ++ x :: block

omit [DecidableEq α] in
theorem Blocked.of_isPrefix {l l' : List α} {x : α} (h : Blocked children l x) (hl : l <+: l') :
    Blocked children l' x := by
  obtain ⟨pre, block, post, rfl, hblock, hchildren⟩ := h
  obtain ⟨rest, rfl⟩ := hl
  exact ⟨pre, block, post ++ rest, by simp, hblock, hchildren⟩

/-- What the visit of a node adds is its block. -/
theorem visit_blocked {support : List α} (hsupport : Supported children support) (fuel : Nat)
    {acc : List α} (hacc : acc.Nodup) {v : α} (hv : v ∈ support)
    (hfuel : remaining support acc < fuel) :
    ∀ x ∈ visit children fuel acc v, x ∉ acc → Blocked children (visit children fuel acc v) x := by
  induction fuel generalizing acc v with
  | zero => exact absurd hfuel (Nat.not_lt_zero _)
  | succ fuel ih =>
    by_cases hmem : v ∈ acc
    · rw [visit, if_pos hmem]
      exact fun x hx hnot => absurd hx hnot
    have hnodup : (visit children (fuel + 1) acc v).Nodup := visit_nodup (fuel + 1) v hacc
    have hsound : ∀ x ∈ visit children (fuel + 1) acc v, x ∈ acc ∨ Reaches children v x :=
      fun x => visit_sound (fuel + 1) acc v
    have hclosed := (visit_closed hsupport (fuel + 1) acc v hv hfuel).2 v
      (visit_closed hsupport (fuel + 1) acc v hv hfuel).1 hmem
    rw [visit, if_neg hmem] at hnodup hsound hclosed ⊢
    have hstart : (acc ++ [v]).Nodup := by
      rw [List.nodup_append]
      refine ⟨hacc, List.nodup_singleton v, ?_⟩
      rintro a ha b hb rfl
      exact hmem (List.mem_singleton.mp hb ▸ ha)
    have hfold : ∀ cs acc : List α, cs ⊆ support → acc.Nodup → remaining support acc < fuel →
        ∀ x ∈ cs.foldl (visit children fuel) acc, x ∉ acc →
          Blocked children (cs.foldl (visit children fuel) acc) x := by
      intro cs
      induction cs with
      | nil => exact fun acc _ _ _ x hx hnot => absurd hx hnot
      | cons c cs ihcs =>
        intro acc hcs hacc hremaining x hx hnot
        obtain ⟨hc, hrest⟩ := List.cons_subset.mp hcs
        by_cases hvisit : x ∈ visit children fuel acc c
        · exact (ih hacc hc hremaining x hvisit hnot).of_isPrefix
            (foldl_grows (visit_grows fuel) cs _)
        · exact ihcs _ hrest (visit_nodup fuel c hacc)
            ((remaining_anti support (visit_grows fuel acc c).subset).trans_lt hremaining) x hx
            hvisit
    intro x hx hnot
    by_cases hxv : x = v
    · subst hxv
      have hgrows : acc ++ [x] <+: (children x).foldl (visit children fuel) (acc ++ [x]) :=
        foldl_grows (visit_grows fuel) _ _
      obtain ⟨block, hblock⟩ := hgrows
      rw [← hblock] at hnodup hsound hclosed ⊢
      refine ⟨acc, block, [], by simp, ?_, fun c hc => by simpa using hclosed hc⟩
      intro m hm
      refine (hsound m (List.mem_append_right _ hm)).resolve_left fun hacc => ?_
      exact (List.nodup_append.mp hnodup).2.2 m (List.mem_append_left _ hacc) m hm rfl
    · exact hfold (children v) (acc ++ [v]) (hsupport v) hstart
        ((remaining_concat hv hmem).trans_le (Nat.le_of_lt_succ hfuel)) x hx
        (by simp [hnot, hxv])

omit [DecidableEq α] in
/-- What stands between a node and a child that follows it is reached from the node. -/
theorem Blocked.reaches_of_between [BEq α] [LawfulBEq α] {l : List α} (hl : l.Nodup) {x : α}
    (h : Blocked children l x) {c m : α} (hc : c ∈ children x) (hm : m ∈ l)
    (hlo : l.idxOf x ≤ l.idxOf m) (hhi : l.idxOf m < l.idxOf c) : Reaches children x m := by
  obtain ⟨pre, block, post, rfl, hblock, hchildren⟩ := h
  rw [List.append_assoc, List.cons_append] at hl hm hlo hhi
  obtain ⟨-, htail, hdisjoint⟩ := List.nodup_append.mp hl
  have hpre : ∀ y ∈ x :: (block ++ post), y ∉ pre :=
    fun y hy hmem => hdisjoint y hmem y hy rfl
  have hx : x ∉ pre := hpre x List.mem_cons_self
  have hmpre : m ∉ pre := by
    intro hmem
    rw [List.idxOf_append_of_notMem hx, List.idxOf_append_of_mem hmem] at hlo
    have := List.idxOf_lt_length_of_mem hmem
    omega
  rcases List.mem_append.mp hm with hmem | hmem
  · exact absurd hmem hmpre
  rcases List.mem_cons.mp hmem with rfl | hmem
  · exact .refl
  rcases List.mem_append.mp hmem with hmem | hpost
  · exact hblock m hmem
  · -- behind the block there is no child any more
    exfalso
    have hsplit : pre ++ x :: (block ++ post) = (pre ++ x :: block) ++ post := by simp
    rw [hsplit] at hl hhi
    have hnot : m ∉ pre ++ x :: block :=
      fun hin => (List.nodup_append.mp hl).2.2 m hin m hpost rfl
    rw [List.idxOf_append_of_notMem hnot, List.idxOf_append_of_mem (hchildren c hc)] at hhi
    have := List.idxOf_lt_length_of_mem (hchildren c hc)
    omega

theorem visit_parentsFirst {start : α} (fuel : Nat) {acc : List α} {v : α}
    (hacc : ParentsFirst children start acc) (hv : v = start ∨ ∃ p ∈ acc, v ∈ children p) :
    ParentsFirst children start (visit children fuel acc v) := by
  induction fuel generalizing acc v with
  | zero => exact hacc
  | succ fuel ih =>
    rw [visit]
    split
    · exact hacc
    · have hfold : ∀ cs ⊆ children v, ∀ acc, v ∈ acc → ParentsFirst children start acc →
          ParentsFirst children start (cs.foldl (visit children fuel) acc) := by
        intro cs
        induction cs with
        | nil => exact fun _ acc _ h => h
        | cons c cs ihcs =>
          intro hcs acc hmem h
          obtain ⟨hc, hrest⟩ := List.cons_subset.mp hcs
          exact ihcs hrest _ ((visit_grows fuel acc c).subset hmem) (ih h (.inr ⟨v, hmem, hc⟩))
      exact hfold _ (List.Subset.refl _) _ (by simp) (.concat hacc hv)

/-- The search in the other direction: from a node through its parents to the base. -/
def ascend (parents : α → List α) : Nat → α → α → Option Bool
  | 0, _, _ => none
  | fuel + 1, base, v =>
    if v = base then some true else (parents v).anyM (ascend parents fuel base)

/-- In an acyclic graph the search upwards ends, and finds what the search downwards finds. -/
theorem ascend_eq_some {parents : α → List α} {support : List α} (hacyclic : Acyclic children)
    (hsupport : Supported children support) (base v : α)
    (hconverse : ∀ w p, Reaches children w v → (p ∈ parents w ↔ w ∈ children p))
    [DecidablePred (Reaches children base)] :
    ascend parents (support.length + 1) base v = some (decide (Reaches children base v)) := by
  obtain ⟨rank, hrank, hbound⟩ := hacyclic.exists_rank hsupport
  have hgen : ∀ fuel w, support.length - rank w < fuel → Reaches children w v →
      ascend parents fuel base w = some (decide (Reaches children base w)) := by
    intro fuel
    induction fuel with
    | zero => exact fun w h _ => absurd h (Nat.not_lt_zero _)
    | succ fuel ih =>
      intro w hfuel hw
      rw [ascend]
      split
      · rename_i heq
        subst heq
        simp [Relation.ReflTransGen.refl]
      · rename_i hne
        rw [anyM_eq_some (Reaches children base)]
        · congr 2
          apply propext
          constructor
          · rintro ⟨p, hp, hreach⟩
            exact hreach.tail ((hconverse w p hw).mp hp)
          · intro hreach
            rcases hreach.cases_tail with heq | ⟨p, hreach, hedge⟩
            · exact absurd heq hne
            · exact ⟨p, (hconverse w p hw).mpr hedge, hreach⟩
        · intro p hp
          have hedge := (hconverse w p hw).mp hp
          have hlt := hrank p w hedge
          have hle := hbound p
          exact ih p (by omega) (.head hedge hw)
  exact hgen _ v (by omega) .refl

theorem mem_visit_iff {support : List α} (hsupport : Supported children support) {fuel : Nat}
    {v : α} (hv : v ∈ support) (hfuel : support.length < fuel) (x : α) :
    x ∈ visit children fuel [] v ↔ Reaches children v x := by
  constructor
  · intro hx
    exact (visit_sound fuel [] v hx).resolve_left (by simp)
  · intro hreach
    have hremaining : remaining support [] < fuel := by
      refine lt_of_le_of_lt ?_ hfuel
      simpa [remaining] using List.toFinset_card_le support
    obtain ⟨hself, hclosed⟩ := visit_closed hsupport fuel [] v hv hremaining
    induction hreach with
    | refl => exact hself
    | tail _ hedge ih => exact hclosed _ ih (by simp) hedge

end RhoFEM.Lib.Search
