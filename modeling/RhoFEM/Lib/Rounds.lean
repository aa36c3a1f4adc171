import Mathlib

/-! Interleaving by rounds: round `r` takes, in order, one element of each node that
has a slot `r`. -/

universe u

namespace RhoFEM.Lib.Rounds

variable {α : Type u}

section Positions

/-- The positions of the elements with a property. -/
def positions (p : α → Bool) (xs : List α) : List Nat :=
  (xs.zipIdx.filter fun e => p e.1).map Prod.snd

theorem positions_map {β : Type u} (p : β → Bool) (f : α → β) (xs : List α) :
    positions p (xs.map f) = positions (fun a => p (f a)) xs := by
  rw [positions, List.zipIdx_map, List.filter_map, List.map_map]
  rfl

theorem positions_append (p : α → Bool) (xs ys : List α) :
    positions p (xs ++ ys) = positions p xs ++ (positions p ys).map (xs.length + ·) := by
  have hshift : ys.zipIdx (0 + xs.length) = ys.zipIdx.map fun e => (e.1, xs.length + e.2) := by
    rw [Nat.zero_add, List.zipIdx_eq_map_add]
  rw [positions, List.zipIdx_append, hshift, List.filter_append, List.map_append, List.filter_map,
    List.map_map, positions, positions, List.map_map]
  rfl

theorem positions_of_forall {p : α → Bool} {xs : List α} (h : ∀ a ∈ xs, p a) :
    positions p xs = List.range xs.length := by
  have hall : xs.zipIdx.filter (fun e => p e.1) = xs.zipIdx :=
    List.filter_eq_self.mpr fun e he => h e.1 (List.fst_mem_of_mem_zipIdx he)
  rw [positions, hall, List.zipIdx_map_snd, List.range_eq_range']

theorem positions_of_forall_not {p : α → Bool} {xs : List α} (h : ∀ a ∈ xs, ¬ p a) :
    positions p xs = [] := by
  rw [positions, List.map_eq_nil_iff, List.filter_eq_nil_iff]
  exact fun e he => h e.1 (List.fst_mem_of_mem_zipIdx he)

/-- The element at the `k`-th position is the `k`-th element. -/
theorem positions_bind_getElem? (p : α → Bool) (xs : List α) (k : Nat) :
    (positions p xs)[k]?.bind (xs[·]?) = (xs.filter p)[k]? := by
  have hfst : (xs.zipIdx.filter fun e => p e.1).map Prod.fst = xs.filter p := by
    have hmap : (xs.zipIdx.map Prod.fst).filter p = xs.filter p := by rw [List.zipIdx_map_fst]
    rw [← hmap, List.filter_map]
    rfl
  rw [positions, ← hfst, List.getElem?_map, List.getElem?_map]
  cases he : (xs.zipIdx.filter fun e => p e.1)[k]? with
  | none => rfl
  | some e =>
    have hmem : e ∈ xs.zipIdx := List.mem_of_mem_filter (List.mem_of_getElem? he)
    exact List.mem_zipIdx_iff_getElem?.mp hmem

variable [BEq α] [LawfulBEq α]

theorem positions_getElem? {p : α → Bool} {xs : List α} (hnodup : xs.Nodup) {k : Nat} {a : α}
    (h : (xs.filter p)[k]? = some a) : (positions p xs)[k]? = some (xs.idxOf a) := by
  have hfst : (xs.zipIdx.filter fun e => p e.1).map Prod.fst = xs.filter p := by
    have hmap : (xs.zipIdx.map Prod.fst).filter p = xs.filter p := by rw [List.zipIdx_map_fst]
    rw [← hmap, List.filter_map]
    rfl
  rw [← hfst, List.getElem?_map, Option.map_eq_some_iff] at h
  obtain ⟨e, he, rfl⟩ := h
  rw [positions, List.getElem?_map, he, Option.map_some]
  have hmem : e ∈ xs.zipIdx := List.mem_of_mem_filter (List.mem_of_getElem? he)
  have hget : xs[e.2]? = some e.1 := List.mem_zipIdx_iff_getElem?.mp hmem
  obtain ⟨hlt, heq⟩ := List.getElem?_eq_some_iff.mp hget
  rw [← heq, hnodup.idxOf_getElem]

theorem idxOf_map {β : Type u} [BEq β] [LawfulBEq β] {f : α → β} (hf : f.Injective)
    (xs : List α) (a : α) :
    (xs.map f).idxOf (f a) = xs.idxOf a := by
  induction xs with
  | nil => rfl
  | cons x xs ih =>
    by_cases hxa : x = a
    · simp [hxa]
    · rw [List.map_cons, List.idxOf_cons_ne _ (hf.ne hxa), List.idxOf_cons_ne _ hxa, ih]

theorem idxOf_filter {p : α → Bool} {xs : List α} {a : α} (ha : a ∈ xs) (hp : p a) :
    (xs.filter p).idxOf a = (xs.take (xs.idxOf a)).countP p := by
  induction xs with
  | nil => exact absurd ha List.not_mem_nil
  | cons x xs ih =>
    by_cases hxa : x = a
    · subst hxa
      simp [hp]
    · have hmem : a ∈ xs := (List.mem_cons.mp ha).resolve_left (Ne.symm hxa)
      rw [List.idxOf_cons_ne _ hxa, List.take_succ_cons, List.countP_cons, ← ih hmem]
      by_cases hpx : p x
      · rw [List.filter_cons_of_pos hpx, List.idxOf_cons_ne _ hxa, if_pos hpx]
      · rw [List.filter_cons_of_neg hpx, if_neg hpx, Nat.add_zero]

end Positions

variable (nodes : List α) (has : α → ℤ → Bool)

def slotRound (r : ℤ) : List (α × ℤ) := (nodes.filter (has · r)).map (·, r)

def rounds (lo : ℤ) (n : Nat) : List (α × ℤ) :=
  (List.range n).flatMap fun k : Nat => slotRound nodes has (lo + k)

variable {nodes has}

@[simp] theorem mem_round {e : α × ℤ} {r : ℤ} :
    e ∈ slotRound nodes has r ↔ e.2 = r ∧ e.1 ∈ nodes ∧ has e.1 r := by
  rw [slotRound, List.mem_map]
  constructor
  · intro h
    obtain ⟨a, ha, rfl⟩ := h
    exact ⟨rfl, List.mem_filter.mp ha⟩
  · intro h
    obtain ⟨rfl, hmem⟩ := h
    exact ⟨e.1, List.mem_filter.mpr hmem, rfl⟩

@[simp] theorem mem_rounds {e : α × ℤ} {lo : ℤ} {n : Nat} :
    e ∈ rounds nodes has lo n ↔ e.1 ∈ nodes ∧ has e.1 e.2 ∧ lo ≤ e.2 ∧ e.2 < lo + n := by
  simp only [rounds, List.mem_flatMap, List.mem_range, mem_round]
  constructor
  · intro h
    obtain ⟨k, hk, hr, hmem, hhas⟩ := h
    rw [hr]
    exact ⟨hmem, hhas, by omega, by omega⟩
  · intro h
    obtain ⟨hmem, hhas, hlo, hhi⟩ := h
    have hr : e.2 = lo + ((e.2 - lo).toNat : ℤ) := by omega
    exact ⟨(e.2 - lo).toNat, by omega, hr, hmem, hr ▸ hhas⟩

theorem nodup_rounds (hnodes : nodes.Nodup) (lo : ℤ) (n : Nat) :
    (rounds nodes has lo n).Nodup := by
  rw [rounds, List.nodup_flatMap]
  constructor
  · intro k _
    exact (hnodes.filter _).map fun a b hab => (Prod.mk.inj hab).1
  · apply List.nodup_range.imp
    intro j k hjk e hj hk
    have hj := (mem_round.mp hj).1
    have hk := (mem_round.mp hk).1
    omega

/-- The slots of each node come in ascending order. -/
theorem pairwise_rounds (hnodes : nodes.Nodup) (lo : ℤ) (n : Nat) :
    (rounds nodes has lo n).Pairwise fun a b => a.1 = b.1 → a.2 < b.2 := by
  rw [rounds, List.pairwise_flatMap]
  constructor
  · intro k _
    rw [slotRound, List.pairwise_map]
    exact (hnodes.filter _).imp fun hne heq => absurd heq hne
  · apply List.pairwise_lt_range.imp
    intro j k hjk a ha b hb _
    have ha := (mem_round.mp ha).1
    have hb := (mem_round.mp hb).1
    omega

theorem rounds_add (lo : ℤ) (m n : Nat) :
    rounds nodes has lo (m + n) = rounds nodes has lo m ++ rounds nodes has (lo + m) n := by
  rw [rounds, List.range_add, List.flatMap_append, List.flatMap_map, rounds, rounds]
  congr 2
  funext k
  congr 1
  push_cast
  omega

@[simp] theorem rounds_one (lo : ℤ) : rounds nodes has lo 1 = slotRound nodes has lo := by
  simp [rounds]

/-- The elements of one slot stand together. -/
theorem slotRound_isInfix (lo : ℤ) {k n : Nat} (hk : k < n) :
    slotRound nodes has (lo + k) <:+: rounds nodes has lo n := by
  obtain ⟨m, rfl⟩ : ∃ m, n = k + (1 + m) := ⟨n - k - 1, by omega⟩
  rw [rounds_add, rounds_add, rounds_one, ← List.append_assoc]
  exact List.infix_append _ _ _

/-- Nodes that have slot `r` among the first `i`. -/
def present (nodes : List α) (has : α → ℤ → Bool) (r : ℤ) (i : Nat) : Nat :=
  (nodes.take i).countP (has · r)

/-- Nodes among the first `i` that have a base slot but lack slot `r`. -/
def lacking (nodes : List α) (has : α → ℤ → Bool) (base r : ℤ) (i : Nat) : Nat :=
  (nodes.take i).countP fun m => has m base && !has m r

theorem present_add_lacking {base r : ℤ} (hbase : ∀ a ∈ nodes, has a r → has a base) (i : Nat) :
    present nodes has r i + lacking nodes has base r i = present nodes has base i := by
  have hsub : ∀ xs : List α, (∀ a ∈ xs, has a r → has a base) →
      xs.countP (has · r) + xs.countP (fun m => has m base && !has m r) =
        xs.countP (has · base) := by
    intro xs
    induction xs with
    | nil => exact fun _ => rfl
    | cons x xs ih =>
      intro hxs
      have hx := hxs x (by simp)
      have hrest := ih fun a ha => hxs a (by simp [ha])
      cases hr : has x r <;> cases hb : has x base <;> simp_all <;> omega
  exact hsub _ fun a ha => hbase a (List.mem_of_mem_take ha)

theorem countP_take_eq_iff (p : α → Bool) (xs : List α) {i j : Nat} (hij : i ≤ j) :
    (xs.take i).countP p = (xs.take j).countP p ↔
      ∀ k a, i ≤ k → k < j → xs[k]? = some a → ¬ p a := by
  obtain ⟨d, rfl⟩ := Nat.exists_eq_add_of_le hij
  rw [List.take_add, List.countP_append, Nat.left_eq_add, List.countP_eq_zero]
  constructor
  · intro h k a hik hkj ha
    apply h
    rw [List.mem_iff_getElem?]
    exact ⟨k - i, by rw [List.getElem?_take, List.getElem?_drop, if_pos (by omega),
      Nat.add_sub_cancel' hik, ha]⟩
  · intro h a ha
    obtain ⟨k, hk⟩ := List.mem_iff_getElem?.mp ha
    rw [List.getElem?_take, List.getElem?_drop] at hk
    split at hk
    · exact h (i + k) a (by omega) (by omega) hk
    · exact absurd hk nofun

theorem countP_take_eq_iff_between (p : α → Bool) (xs : List α) (i j : Nat) :
    (xs.take i).countP p = (xs.take j).countP p ↔
      ∀ k a, min i j ≤ k → k < max i j → xs[k]? = some a → ¬ p a := by
  rcases Nat.le_total i j with hij | hji
  · rw [countP_take_eq_iff p xs hij, Nat.min_eq_left hij, Nat.max_eq_right hij]
  · rw [eq_comm, countP_take_eq_iff p xs hji, Nat.min_eq_right hji, Nat.max_eq_left hji]

variable [BEq α]

/-- The new index of a slot: the rounds before it, and the nodes before it in its round. -/
def position (nodes : List α) (has : α → ℤ → Bool) (lo : ℤ) (a : α) (k : Nat) : Nat :=
  (rounds nodes has lo k).length + present nodes has (lo + k) (nodes.idxOf a)

/-- Two nodes keep the same distance between slot `r` and their base slot exactly when
no node between them lacks slot `r`. -/
theorem position_sub_eq_iff {lo : ℤ} {b k : Nat} {a c : α}
    (hbase : ∀ m ∈ nodes, has m (lo + k) → has m (lo + b)) :
    (position nodes has lo a k : ℤ) - position nodes has lo a b =
        (position nodes has lo c k : ℤ) - position nodes has lo c b ↔
      lacking nodes has (lo + b) (lo + k) (nodes.idxOf a) =
        lacking nodes has (lo + b) (lo + k) (nodes.idxOf c) := by
  have ha := present_add_lacking hbase (nodes.idxOf a)
  have hc := present_add_lacking hbase (nodes.idxOf c)
  unfold position
  omega

variable [LawfulBEq α]

theorem idxOf_rounds {a : α} {lo : ℤ} {k n : Nat} (ha : a ∈ nodes) (hhas : has a (lo + k))
    (hk : k < n) :
    (rounds nodes has lo n).idxOf (a, lo + (k : ℤ)) =
      (rounds nodes has lo k).length + present nodes has (lo + k) (nodes.idxOf a) := by
  obtain ⟨m, rfl⟩ : ∃ m, n = k + (1 + m) := ⟨n - k - 1, by omega⟩
  rw [rounds_add, rounds_add, rounds_one, List.idxOf_append_of_notMem, List.idxOf_append_of_mem]
  · congr 1
    rw [slotRound, present, ← idxOf_filter ha hhas]
    exact idxOf_map (fun a b hab => (Prod.mk.inj hab).1) _ _
  · exact mem_round.mpr ⟨rfl, ha, hhas⟩
  · intro h
    have := (mem_rounds.mp h).2.2.2
    omega

theorem rounds_getElem?_iff (hnodes : nodes.Nodup) {a : α} (ha : a ∈ nodes) {lo : ℤ} {k n : Nat}
    (hk : k < n) (hhas : has a (lo + k)) (j : Nat) :
    (rounds nodes has lo n)[j]? = some (a, lo + (k : ℤ)) ↔ j = position nodes has lo a k := by
  have hmem : (a, lo + (k : ℤ)) ∈ rounds nodes has lo n :=
    mem_rounds.mpr ⟨ha, hhas, by omega, by omega⟩
  rw [position, ← idxOf_rounds ha hhas hk]
  constructor
  · intro h
    obtain ⟨hlt, heq⟩ := List.getElem?_eq_some_iff.mp h
    rw [← heq, (nodup_rounds hnodes lo n).idxOf_getElem]
  · rintro rfl
    rw [List.getElem?_eq_getElem (List.idxOf_lt_length_of_mem hmem), List.getElem_idxOf]

variable [DecidableEq α]

theorem filter_round (hnodes : nodes.Nodup) {a : α} (ha : a ∈ nodes) (r : ℤ) :
    ((slotRound nodes has r).filter fun e => e.1 = a) = if has a r then [(a, r)] else [] := by
  have hsingle : nodes.filter (fun b => b = a) = [a] := by
    rw [List.filter_eq, List.count_eq_one_of_mem hnodes ha]
    rfl
  rw [slotRound, List.filter_map]
  have hcomm : (nodes.filter (has · r)).filter ((fun e : α × ℤ => decide (e.1 = a)) ∘ (·, r)) =
      (nodes.filter fun b => b = a).filter (has · r) := by
    rw [List.filter_filter, List.filter_filter]
    apply List.filter_congr
    intro b _
    exact Bool.and_comm _ _
  rw [hcomm, hsingle]
  split
  · rename_i h
    rw [List.filter_cons_of_pos (by exact h)]
    rfl
  · rename_i h
    rw [List.filter_cons_of_neg (by exact h)]
    rfl

/-- Before its first slot a node occurs in no round, and then once in each. -/
theorem filter_rounds_getElem? (hnodes : nodes.Nodup) {a : α} (ha : a ∈ nodes) {lo : ℤ}
    {i k n : Nat} (hn : i + k < n) (hbefore : ∀ r, r < lo + i → ¬ has a r)
    (hslots : ∀ r, lo + i ≤ r → r ≤ lo + i + k → has a r) :
    ((rounds nodes has lo n).filter fun e => e.1 = a)[k]? = some (a, lo + i + k) := by
  have hfront : (rounds nodes has lo i).filter (fun e => e.1 = a) = [] := by
    rw [List.filter_eq_nil_iff]
    intro e he hea
    obtain ⟨-, hhas, -, hlt⟩ := mem_rounds.mp he
    rw [of_decide_eq_true hea] at hhas
    exact hbefore e.2 hlt hhas
  have hrun : ∀ j ≤ k, ((rounds nodes has (lo + i) j).filter fun e => e.1 = a).length = j := by
    intro j
    induction j with
    | zero => exact fun _ => rfl
    | succ j ih =>
      intro hj
      rw [rounds_add, rounds_one, List.filter_append, List.length_append, ih (by omega),
        filter_round hnodes ha, if_pos (hslots _ (by omega) (by omega))]
      rfl
  obtain ⟨m, rfl⟩ : ∃ m, n = i + (k + (1 + m)) := ⟨n - i - k - 1, by omega⟩
  rw [rounds_add, rounds_add, rounds_add, rounds_one, List.filter_append, List.filter_append,
    List.filter_append, hfront, List.nil_append,
    List.getElem?_append_right (Nat.le_of_eq (hrun k (Nat.le_refl k))), hrun k (Nat.le_refl k),
    Nat.sub_self, filter_round hnodes ha,
    if_pos (hslots _ (by omega) (le_refl _))]
  rfl

theorem positions_rounds (hnodes : nodes.Nodup) {a : α} (ha : a ∈ nodes) {lo : ℤ} {i k n : Nat}
    (hn : i + k < n) (hbefore : ∀ r, r < lo + i → ¬ has a r)
    (hslots : ∀ r, lo + i ≤ r → r ≤ lo + i + k → has a r) :
    (positions (fun e => e.1 = a) (rounds nodes has lo n))[k]? =
      some (position nodes has lo a (i + k)) := by
  rw [positions_getElem? (nodup_rounds hnodes lo n)
    (filter_rounds_getElem? hnodes ha hn hbefore hslots)]
  have hcast : lo + i + k = lo + ((i + k : Nat) : ℤ) := by omega
  rw [hcast, idxOf_rounds ha (hcast ▸ hslots _ (by omega) (le_refl _)) hn, position]

end RhoFEM.Lib.Rounds
