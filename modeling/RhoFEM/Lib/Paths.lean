import RhoFEM.Lib.Search

/-! The paths of an acyclic graph, counted by a recursion that has no set of visited nodes. -/

universe u

namespace RhoFEM.Lib.Paths

open RhoFEM.Lib.Search

variable {α : Type u} {children : α → List α}

/-- A path from a node, as the list of its nodes. -/
def PathFrom (children : α → List α) (v : α) (p : List α) : Prop :=
  p.head? = some v ∧ p.IsChain fun a b => b ∈ children a

/-- The paths from a node to nodes with a property. -/
def PathsTo (children : α → List α) (P : α → Bool) (v : α) : Set (List α) :=
  {p | PathFrom children v p ∧ p.getLast?.any P}

theorem pathFrom_cons_iff {v a : α} {p : List α} :
    PathFrom children v (a :: p) ↔ a = v ∧ (p = [] ∨ ∃ c ∈ children v, PathFrom children c p) := by
  cases p with
  | nil => simp [PathFrom]
  | cons b p =>
    simp only [PathFrom, List.head?_cons, Option.some.injEq, List.isChain_cons_cons, reduceCtorEq,
      false_or]
    constructor
    · rintro ⟨rfl, hb, hchain⟩
      exact ⟨rfl, b, hb, rfl, hchain⟩
    · rintro ⟨rfl, c, hc, rfl, hchain⟩
      exact ⟨rfl, hc, hchain⟩

theorem reaches_iff_exists_path {v w : α} :
    Reaches children v w ↔ ∃ p, PathFrom children v p ∧ p.getLast? = some w := by
  constructor
  · intro h
    induction h using Relation.ReflTransGen.head_induction_on with
    | refl => exact ⟨[w], pathFrom_cons_iff.mpr ⟨rfl, .inl rfl⟩, rfl⟩
    | head hc hrest ih =>
      rename_i v c
      obtain ⟨p, hp, hlast⟩ := ih
      refine ⟨v :: p, pathFrom_cons_iff.mpr ⟨rfl, .inr ⟨c, hc, hp⟩⟩, ?_⟩
      rw [List.getLast?_cons, hlast, Option.getD_some]
  · rintro ⟨p, hp, hlast⟩
    induction p generalizing v with
    | nil => cases hlast
    | cons a p ih =>
      obtain ⟨rfl, hrest⟩ := pathFrom_cons_iff.mp hp
      rcases hrest with rfl | ⟨c, hc, hp⟩
      · obtain rfl : a = w := by simpa using hlast
        exact .refl
      · apply Relation.ReflTransGen.head hc
        apply ih hp
        cases p with
        | nil => cases hp.1
        | cons b p => rwa [List.getLast?_cons_cons] at hlast

/-- The paths from a node with a bounded number of nodes. -/
def paths (children : α → List α) : Nat → α → List (List α)
  | 0, _ => []
  | fuel + 1, v => [v] :: (children v).flatMap fun c => (paths children fuel c).map (v :: ·)

theorem mem_paths_iff {rank : α → Nat} (hrank : ∀ a, ∀ b ∈ children a, rank b < rank a)
    {fuel : Nat} {v : α} (hfuel : rank v < fuel) (p : List α) :
    p ∈ paths children fuel v ↔ PathFrom children v p := by
  induction fuel generalizing v p with
  | zero => exact absurd hfuel (Nat.not_lt_zero _)
  | succ fuel ih =>
    have hchild : ∀ c ∈ children v, ∀ q, q ∈ paths children fuel c ↔ PathFrom children c q :=
      fun c hc q => ih ((hrank v c hc).trans_le (Nat.le_of_lt_succ hfuel)) q
    rw [paths, List.mem_cons, List.mem_flatMap]
    constructor
    · rintro (rfl | ⟨c, hc, hp⟩)
      · exact pathFrom_cons_iff.mpr ⟨rfl, .inl rfl⟩
      · obtain ⟨q, hq, rfl⟩ := List.mem_map.mp hp
        exact pathFrom_cons_iff.mpr ⟨rfl, .inr ⟨c, hc, (hchild c hc q).mp hq⟩⟩
    · intro hp
      cases p with
      | nil => cases hp.1
      | cons a p =>
        obtain ⟨rfl, rfl | ⟨c, hc, hq⟩⟩ := pathFrom_cons_iff.mp hp
        · exact .inl rfl
        · exact .inr ⟨c, hc, List.mem_map_of_mem ((hchild c hc p).mpr hq)⟩

theorem head_of_mem_paths {fuel : Nat} {v : α} {p : List α} (h : p ∈ paths children fuel v) :
    p.head? = some v := by
  cases fuel with
  | zero => cases h
  | succ fuel =>
    rw [paths, List.mem_cons, List.mem_flatMap] at h
    rcases h with rfl | ⟨c, -, hp⟩
    · rfl
    · obtain ⟨q, -, rfl⟩ := List.mem_map.mp hp
      rfl

theorem nodup_paths (hset : ∀ v, (children v).Nodup) (fuel : Nat) (v : α) :
    (paths children fuel v).Nodup := by
  induction fuel generalizing v with
  | zero => exact List.nodup_nil
  | succ fuel ih =>
    rw [paths, List.nodup_cons, List.nodup_flatMap]
    refine ⟨?_, ?_, ?_⟩
    · intro h
      obtain ⟨c, -, hp⟩ := List.mem_flatMap.mp h
      obtain ⟨q, hq, heq⟩ := List.mem_map.mp hp
      obtain rfl : q = [] := (List.cons.inj heq).2
      cases head_of_mem_paths hq
    · exact fun c _ => (ih c).map (List.cons_injective)
    · refine (hset v).imp ?_
      intro c d hne p hpc hpd
      obtain ⟨q, hq, rfl⟩ := List.mem_map.mp hpc
      obtain ⟨r, hr, heq⟩ := List.mem_map.mp hpd
      obtain rfl : r = q := (List.cons.inj heq).2
      exact hne (Option.some.inj ((head_of_mem_paths hq).symm.trans (head_of_mem_paths hr)))

/-- The number of paths to nodes with a property, from those of the children. -/
theorem countP_paths_succ (P : α → Bool) (fuel : Nat) (v : α) :
    (paths children (fuel + 1) v).countP (·.getLast?.any P) = (if P v then 1 else 0) +
      ((children v).map fun c => (paths children fuel c).countP (·.getLast?.any P)).sum := by
  rw [paths, List.countP_cons, List.countP_flatMap, Nat.add_comm]
  congr 1
  refine congrArg List.sum (List.map_congr_left ?_)
  intro c _
  rw [Function.comp, List.countP_map]
  apply List.countP_congr
  intro p hp
  cases p with
  | nil => cases head_of_mem_paths hp
  | cons a p => rw [Function.comp, List.getLast?_cons_cons]

section Count

variable {rank : α → Nat} (hrank : ∀ a, ∀ b ∈ children a, rank b < rank a)
include hrank

theorem pathsTo_eq [DecidableEq α] (P : α → Bool) {fuel : Nat} {v : α} (hfuel : rank v < fuel) :
    PathsTo children P v =
      ((paths children fuel v).filter (·.getLast?.any P)).toFinset := by
  ext p
  simp [PathsTo, mem_paths_iff hrank hfuel]

theorem ncard_pathsTo (hset : ∀ v, (children v).Nodup) (P : α → Bool) {fuel : Nat} {v : α}
    (hfuel : rank v < fuel) :
    (PathsTo children P v).ncard = (paths children fuel v).countP (·.getLast?.any P) := by
  classical
  rw [pathsTo_eq hrank P hfuel, Set.ncard_coe_finset,
    List.toFinset_card_of_nodup ((nodup_paths hset fuel v).filter _), List.countP_eq_length_filter]

theorem ncard_pathsTo_eq_sum (hset : ∀ v, (children v).Nodup) (P : α → Bool) (v : α) :
    (PathsTo children P v).ncard = (if P v then 1 else 0) +
      ((children v).map fun c => (PathsTo children P c).ncard).sum := by
  rw [ncard_pathsTo hrank hset P (Nat.lt_succ_self (rank v)), countP_paths_succ]
  congr 2
  apply List.map_congr_left
  intro c hc
  exact (ncard_pathsTo hrank hset P (hrank v c hc)).symm

theorem finite_pathsTo (P : α → Bool) (v : α) : (PathsTo children P v).Finite := by
  classical
  rw [pathsTo_eq hrank P (Nat.lt_succ_self (rank v))]
  exact Finset.finite_toSet _

end Count

/-- What the paths reach. -/
theorem image_pathsTo (P : α → Bool) (v : α) :
    List.getLast? '' PathsTo children P v = some '' {w | Reaches children v w ∧ P w} := by
  ext o
  simp only [Set.mem_image, Set.mem_ofPred_eq, PathsTo]
  constructor
  · rintro ⟨p, ⟨hp, hlast⟩, rfl⟩
    obtain ⟨w, hw, hP⟩ := (Option.any_eq_true _ _).mp hlast
    exact ⟨w, ⟨reaches_iff_exists_path.mpr ⟨p, hp, hw⟩, hP⟩, hw.symm⟩
  · rintro ⟨w, ⟨hreach, hP⟩, rfl⟩
    obtain ⟨p, hp, hw⟩ := reaches_iff_exists_path.mp hreach
    exact ⟨p, ⟨hp, by simp [hw, hP]⟩, hw⟩

theorem ncard_image_pathsTo {nodes : List α} {v : α} (hnodup : nodes.Nodup)
    (hnodes : ∀ w, w ∈ nodes ↔ Reaches children v w) (P : α → Bool) :
    (List.getLast? '' PathsTo children P v).ncard = nodes.countP P := by
  classical
  have hset : {w | Reaches children v w ∧ P w} = ((nodes.filter P).toFinset : Set α) := by
    ext w
    simp [hnodes]
  rw [image_pathsTo, Set.ncard_image_of_injective _ (Option.some_injective α), hset,
    Set.ncard_coe_finset, List.toFinset_card_of_nodup (hnodup.filter _),
    List.countP_eq_length_filter]

end RhoFEM.Lib.Paths
