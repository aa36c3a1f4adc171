import RhoFEM.Layout.Builder
import RhoFEM.Lib.Rounds

/-! The interleaving loop takes one element of each sub-vtable in each round. -/

namespace RhoFEM.Layout

open RhoFEM.CHA RhoFEM.Lib.Rounds

section Loop

variable (cha : SDBuildCHA) (positive : Bool) (first lastPosMap : Vtbl → Int)

/-- What the inner loop asks of a node before it takes its element. -/
def takes (posMap : Vtbl → Int) (n : Vtbl) : Bool :=
  !cha.isUndefined n && check positive (posMap n) (lastPosMap n)

theorem takes_congr {pos posMap : Vtbl → Int} {n : Vtbl} (h : pos n = posMap n) :
    takes cha positive lastPosMap pos n = takes cha positive lastPosMap posMap n := by
  rw [takes, takes, h]

theorem fillNode_eq (acc : List Interleaving) (pos : Vtbl → Int) (n : Vtbl) :
    fillNode cha positive lastPosMap (acc, pos) n =
      if takes cha positive lastPosMap pos n then
        (acc ++ [(n, pos n)], Function.update pos n (pos n + increment positive))
      else (acc, pos) := rfl

theorem fillNode_foldl (posMap : Vtbl → Int) {nodes : List Vtbl} (hnodes : nodes.Nodup)
    (acc : List Interleaving) (pos : Vtbl → Int) (hpos : ∀ n ∈ nodes, pos n = posMap n) :
    nodes.foldl (fillNode cha positive lastPosMap) (acc, pos) =
      (acc ++ (nodes.filter (takes cha positive lastPosMap posMap)).map fun n => (n, posMap n),
        fun n => if n ∈ nodes ∧ takes cha positive lastPosMap posMap n then
          posMap n + increment positive else pos n) := by
  induction nodes generalizing acc pos with
  | nil => simp
  | cons x nodes ih =>
    obtain ⟨hx, hrest⟩ := List.nodup_cons.mp hnodes
    have hposx : pos x = posMap x := hpos x (by simp)
    rw [List.foldl_cons, fillNode_eq, takes_congr cha positive lastPosMap hposx]
    by_cases htake : takes cha positive lastPosMap posMap x
    · rw [if_pos htake, ih hrest]
      · rw [List.filter_cons_of_pos htake, List.map_cons, hposx, List.append_assoc,
          List.singleton_append]
        congr 1
        funext n
        by_cases hn : n = x
        · subst hn
          simp [hx, htake]
        · simp [hn]
      · intro n hn
        have hne : n ≠ x := fun h => hx (h ▸ hn)
        simp [hne, hpos n (by simp [hn])]
    · rw [if_neg htake, ih hrest _ _ fun n hn => hpos n (by simp [hn]),
        List.filter_cons_of_neg htake]
      congr 1
      funext n
      by_cases hn : n = x
      · subst hn
        simp [hx, htake]
      · simp [hn]

theorem fillRound_eq (posMap : Vtbl → Int) {nodes : List Vtbl} (hnodes : nodes.Nodup) :
    fillRound cha positive lastPosMap nodes posMap =
      ((nodes.filter (takes cha positive lastPosMap posMap)).map fun n => (n, posMap n),
        fun n => if n ∈ nodes ∧ takes cha positive lastPosMap posMap n then
          posMap n + increment positive else posMap n) := by
  rw [fillRound, fillNode_foldl cha positive lastPosMap posMap hnodes [] posMap fun _ _ => rfl,
    List.nil_append]

/-- The position of a node in round `k`, while it has elements. -/
def posAt (k : Nat) (n : Vtbl) : Int := first n + increment positive * k

theorem takes_anti {j k : Nat} (hjk : j ≤ k) {n : Vtbl}
    (h : takes cha positive lastPosMap (posAt positive first k) n) :
    takes cha positive lastPosMap (posAt positive first j) n := by
  cases positive <;> simp [takes, check, posAt, increment] at h ⊢ <;>
    exact ⟨h.1, by omega⟩

def roundAt (nodes : List Vtbl) (k : Nat) : List Interleaving :=
  (nodes.filter (takes cha positive lastPosMap (posAt positive first k))).map
    fun n => (n, posAt positive first k n)

/-- Nodes that have elements left are at the position of their round. -/
structure Aligned (nodes : List Vtbl) (k : Nat) (posMap : Vtbl → Int) : Prop where
  takes_eq : ∀ n ∈ nodes, takes cha positive lastPosMap posMap n =
    takes cha positive lastPosMap (posAt positive first k) n
  pos : ∀ n ∈ nodes, takes cha positive lastPosMap (posAt positive first k) n →
    posMap n = posAt positive first k n

variable {cha positive first lastPosMap}

theorem Aligned.current {nodes : List Vtbl} {k : Nat} {posMap : Vtbl → Int}
    (h : Aligned cha positive first lastPosMap nodes k posMap) :
    ((nodes.filter (takes cha positive lastPosMap posMap)).map fun n => (n, posMap n)) =
      roundAt cha positive first lastPosMap nodes k := by
  rw [roundAt, List.filter_congr h.takes_eq]
  apply List.map_congr_left
  intro n hn
  obtain ⟨hmem, htakes⟩ := List.mem_filter.mp hn
  rw [h.pos n hmem htakes]

theorem Aligned.next {nodes : List Vtbl} {k : Nat} {posMap : Vtbl → Int}
    (h : Aligned cha positive first lastPosMap nodes k posMap) :
    Aligned cha positive first lastPosMap nodes (k + 1) fun n =>
      if n ∈ nodes ∧ takes cha positive lastPosMap posMap n then
        posMap n + increment positive else posMap n := by
  have hstep : ∀ n, posAt positive first (k + 1) n =
      posAt positive first k n + increment positive := by
    intro n
    simp [posAt, Int.mul_add, Int.add_assoc]
  constructor
  · intro n hn
    by_cases htake : takes cha positive lastPosMap (posAt positive first k) n
    · apply takes_congr
      rw [if_pos ⟨hn, (h.takes_eq n hn).trans htake⟩, h.pos n hn htake, hstep]
    · have hstop : takes cha positive lastPosMap (posAt positive first (k + 1)) n = false :=
        Bool.not_eq_true _ ▸ fun hnext =>
          htake (takes_anti cha positive first lastPosMap (Nat.le_succ k) hnext)
      have hsame : takes cha positive lastPosMap posMap n = false :=
        (h.takes_eq n hn).trans (Bool.not_eq_true _ ▸ htake)
      rw [hstop, ← hsame]
      apply takes_congr
      rw [if_neg (by simp [hsame])]
  · intro n hn hnext
    have htake := takes_anti cha positive first lastPosMap (Nat.le_succ k) hnext
    rw [if_pos ⟨hn, (h.takes_eq n hn).trans htake⟩, h.pos n hn htake, hstep]

/-- The rounds from `k` on, in the order in which the loop stores them. -/
def stored (cha : SDBuildCHA) (positive : Bool) (first lastPosMap : Vtbl → Int)
    (nodes : List Vtbl) (k m : Nat) : List Interleaving :=
  (if positive then List.range m else (List.range m).reverse).flatMap fun j =>
    roundAt cha positive first lastPosMap nodes (k + j)

theorem stored_eq_nil {nodes : List Vtbl} {k : Nat}
    (h : roundAt cha positive first lastPosMap nodes k = []) (m : Nat) :
    stored cha positive first lastPosMap nodes k m = [] := by
  rw [stored, List.flatMap_eq_nil_iff]
  intro j _
  rw [roundAt, List.map_eq_nil_iff, List.filter_eq_nil_iff] at h ⊢
  intro n hn hlater
  exact h n hn (takes_anti cha positive first lastPosMap (Nat.le_add_right k j) hlater)

theorem stored_succ (nodes : List Vtbl) (k m : Nat) :
    stored cha positive first lastPosMap nodes k (m + 1) =
      if positive then roundAt cha positive first lastPosMap nodes k ++
          stored cha positive first lastPosMap nodes (k + 1) m
      else stored cha positive first lastPosMap nodes (k + 1) m ++
          roundAt cha positive first lastPosMap nodes k := by
  have hshift : (fun j => roundAt cha positive first lastPosMap nodes (k + Nat.succ j)) =
      fun j => roundAt cha positive first lastPosMap nodes (k + 1 + j) := by
    funext j
    rw [Nat.succ_eq_add_one, Nat.add_right_comm k 1 j]
    rfl
  cases positive with
  | true =>
    simp only [stored, if_true, List.range_succ_eq_map, List.flatMap_cons, List.flatMap_map, hshift,
      Nat.add_zero]
  | false =>
    simp only [stored, Bool.false_eq_true, if_false, List.range_succ_eq_map, List.reverse_cons,
      List.flatMap_append, List.flatMap_cons, List.flatMap_nil, List.append_nil, Nat.add_zero,
      ← List.map_reverse, List.flatMap_map, hshift]

/-- The loop stores all rounds before the first that takes nothing. -/
theorem fillLoop_eq {nodes : List Vtbl} (hnodes : nodes.Nodup) (fuel : Nat) {k m : Nat}
    {posMap : Vtbl → Int} (part : List Interleaving)
    (haligned : Aligned cha positive first lastPosMap nodes k posMap) (hfuel : m < fuel)
    (hlast : ∀ n ∈ nodes, ¬ takes cha positive lastPosMap (posAt positive first (k + m)) n) :
    fillLoop cha positive lastPosMap nodes fuel posMap part = .ok (if positive then
      part ++ stored cha positive first lastPosMap nodes k m
      else stored cha positive first lastPosMap nodes k m ++ part) := by
  induction fuel generalizing k m posMap part with
  | zero => exact absurd hfuel (Nat.not_lt_zero _)
  | succ fuel ih =>
    simp only [fillLoop, fillRound_eq cha positive lastPosMap posMap hnodes, haligned.current]
    by_cases hempty : roundAt cha positive first lastPosMap nodes k = []
    · rw [if_pos hempty, stored_eq_nil hempty, List.append_nil, List.nil_append, ite_self]
    · obtain ⟨m, rfl⟩ : ∃ m', m = m' + 1 := by
        apply Nat.exists_eq_succ_of_ne_zero
        rintro rfl
        apply hempty
        exact List.map_eq_nil_iff.mpr (List.filter_eq_nil_iff.mpr hlast)
      rw [if_neg hempty, ih _ haligned.next (Nat.lt_of_succ_lt_succ hfuel)
        fun n hn => by have := hlast n hn; rwa [show k + 1 + m = k + (m + 1) by omega],
        stored_succ]
      cases positive <;> simp [List.append_assoc]

end Loop

section Part

variable (cha : SDBuildCHA) (prePadMap : Vtbl → Nat)

/-- A sub-vtable has a slot relative to its address point. -/
def hasSlot (n : Vtbl) (r : ℤ) : Bool :=
  cha.isDefined n && decide ((cha.getRange n).1 - (prePadMap n : ℤ) ≤ cha.addrPt n + r ∧
    cha.addrPt n + r ≤ (cha.getRange n).2)

/-- The element of a sub-vtable in a slot. -/
def slotElem (e : Vtbl × ℤ) : Interleaving := (e.1, cha.addrPt e.1 + e.2)

theorem roundAt_positive {nodes : List Vtbl}
    (haddr : ∀ n ∈ nodes, (cha.getRange n).1 ≤ cha.addrPt n) (k : Nat) :
    roundAt cha true (firstPos cha true) (lastPos cha prePadMap true) nodes k =
      (slotRound nodes (hasSlot cha prePadMap) k).map (slotElem cha) := by
  rw [roundAt, slotRound, List.map_map]
  have hfilter : nodes.filter (takes cha true (lastPos cha prePadMap true)
      (posAt true (firstPos cha true) k)) = nodes.filter (hasSlot cha prePadMap · k) := by
    apply List.filter_congr
    intro n hn
    have := haddr n hn
    simp only [takes, hasSlot, check, posAt, firstPos, lastPos, increment, SDBuildCHA.isDefined,
      if_true]
    congr 1
    rw [decide_eq_decide]
    omega
  rw [hfilter]
  apply List.map_congr_left
  intro n _
  simp [posAt, firstPos, increment, slotElem]

theorem roundAt_negative {nodes : List Vtbl}
    (haddr : ∀ n ∈ nodes, cha.addrPt n ≤ (cha.getRange n).2) (k : Nat) :
    roundAt cha false (firstPos cha false) (lastPos cha prePadMap false) nodes k =
      (slotRound nodes (hasSlot cha prePadMap) (-1 - k)).map (slotElem cha) := by
  rw [roundAt, slotRound, List.map_map]
  have hfilter : nodes.filter (takes cha false (lastPos cha prePadMap false)
      (posAt false (firstPos cha false) k)) = nodes.filter (hasSlot cha prePadMap · (-1 - k)) := by
    apply List.filter_congr
    intro n hn
    have := haddr n hn
    simp only [takes, hasSlot, check, posAt, firstPos, lastPos, increment, SDBuildCHA.isDefined,
      Bool.false_eq_true, if_false]
    congr 1
    rw [decide_eq_decide]
    omega
  rw [hfilter]
  apply List.map_congr_left
  intro n _
  simp only [posAt, firstPos, increment, slotElem, Function.comp, Bool.false_eq_true, if_false]
  congr 1
  omega

theorem le_slotBound {nodes : List Vtbl} {n : Vtbl} (hn : n ∈ nodes) :
    cha.addrPt n + (cha.getRange n).2 + prePadMap n + 1 ≤ slotBound cha prePadMap nodes :=
  List.le_sum_of_mem (List.mem_map_of_mem hn)

theorem aligned_start (positive : Bool) (first lastPosMap : Vtbl → Int) (nodes : List Vtbl) :
    Aligned cha positive first lastPosMap nodes 0 first := by
  have hzero : ∀ n, posAt positive first 0 n = first n := fun n => by simp [posAt]
  constructor
  · intro n _
    exact takes_congr cha positive lastPosMap (hzero n).symm
  · intro n _ _
    exact (hzero n).symm

theorem fillVtablePart_positive {nodes : List Vtbl} (hnodes : nodes.Nodup)
    (haddr : ∀ n ∈ nodes, (cha.getRange n).1 ≤ cha.addrPt n) :
    fillVtablePart cha prePadMap nodes true = .ok ((rounds nodes (hasSlot cha prePadMap) 0
      (slotBound cha prePadMap nodes)).map (slotElem cha)) := by
  rw [fillVtablePart, fillLoop_eq hnodes _ [] (aligned_start cha true _ _ nodes)
    (Nat.lt_succ_self _)]
  · simp only [if_true, List.nil_append, stored, rounds, List.map_flatMap, Nat.zero_add,
      Int.zero_add]
    congr 2
    funext k
    exact roundAt_positive cha prePadMap haddr k
  · intro n hn
    have := le_slotBound cha prePadMap hn
    simp only [takes, check, posAt, firstPos, lastPos, increment, if_true, Bool.and_eq_true,
      decide_eq_true_eq, not_and]
    omega

theorem rounds_neg (nodes : List Vtbl) (has : Vtbl → ℤ → Bool) (m : Nat) :
    ((List.range m).reverse.flatMap fun j : Nat => slotRound nodes has (-1 - j)) =
      rounds nodes has (-m) m := by
  induction m with
  | zero => rfl
  | succ m ih =>
    have hlo : -((m + 1 : Nat) : ℤ) + (1 : Nat) = -(m : ℤ) := by omega
    have hround : -((m + 1 : Nat) : ℤ) = -1 - m := by omega
    rw [List.range_succ, List.reverse_append, List.reverse_singleton, List.singleton_append,
      List.flatMap_cons, ih, Nat.add_comm m 1, rounds_add, rounds_one, Nat.add_comm 1 m, hlo,
      hround]

theorem fillVtablePart_negative {nodes : List Vtbl} (hnodes : nodes.Nodup)
    (haddr : ∀ n ∈ nodes, cha.addrPt n ≤ (cha.getRange n).2) :
    fillVtablePart cha prePadMap nodes false = .ok ((rounds nodes (hasSlot cha prePadMap)
      (-(slotBound cha prePadMap nodes : ℤ)) (slotBound cha prePadMap nodes)).map
        (slotElem cha)) := by
  rw [fillVtablePart, fillLoop_eq hnodes _ [] (aligned_start cha false _ _ nodes)
    (Nat.lt_succ_self _)]
  · simp only [Bool.false_eq_true, if_false, List.append_nil, stored, ← rounds_neg,
      List.map_flatMap, Nat.zero_add]
    congr 2
    funext k
    exact roundAt_negative cha prePadMap haddr k
  · intro n hn
    have := le_slotBound cha prePadMap hn
    simp only [takes, check, posAt, firstPos, lastPos, increment, Bool.false_eq_true, if_false,
      Bool.and_eq_true, decide_eq_true_eq, not_and]
    omega

/-- The interleaving of a cloud: the rounds of all slots in ascending order. -/
def interleaving (nodes : List Vtbl) : List Interleaving :=
  (rounds nodes (hasSlot cha prePadMap) (-(slotBound cha prePadMap nodes : ℤ))
    (slotBound cha prePadMap nodes + slotBound cha prePadMap nodes)).map (slotElem cha)

theorem interleaving_eq (nodes : List Vtbl) :
    (rounds nodes (hasSlot cha prePadMap) (-(slotBound cha prePadMap nodes : ℤ))
        (slotBound cha prePadMap nodes)).map (slotElem cha) ++
      (rounds nodes (hasSlot cha prePadMap) 0 (slotBound cha prePadMap nodes)).map (slotElem cha) =
      interleaving cha prePadMap nodes := by
  rw [interleaving, rounds_add, List.map_append, Int.add_left_neg]

theorem slotElem_injective : (slotElem cha).Injective := by
  rintro ⟨m, r⟩ ⟨n, q⟩ h
  obtain ⟨rfl, hsum⟩ := Prod.mk.inj h
  exact Prod.ext rfl (Int.add_left_cancel hsum)

theorem mem_interleaving {nodes : List Vtbl} (e : Interleaving) :
    e ∈ interleaving cha prePadMap nodes ↔ e.1 ∈ nodes ∧ cha.isDefined e.1 ∧
      (cha.getRange e.1).1 - (prePadMap e.1 : ℤ) ≤ e.2 ∧ e.2 ≤ (cha.getRange e.1).2 := by
  have helem : e = slotElem cha (e.1, e.2 - cha.addrPt e.1) := by simp [slotElem]
  have hslot : (cha.addrPt e.1 + (e.2 - cha.addrPt e.1) : ℤ) = e.2 := by omega
  rw [interleaving]
  nth_rewrite 1 [helem]
  rw [List.mem_map_of_injective (slotElem_injective cha), mem_rounds]
  simp only [hasSlot, Bool.and_eq_true, decide_eq_true_eq, hslot, and_assoc]
  refine and_congr_right fun hmem => and_congr_right fun _ => and_congr_right fun hlo => ?_
  have := le_slotBound cha prePadMap hmem
  omega

theorem nodup_interleaving {nodes : List Vtbl} (hnodes : nodes.Nodup) :
    (interleaving cha prePadMap nodes).Nodup :=
  (nodup_rounds hnodes _ _).map (slotElem_injective cha)

/-- The address points are the slots of the round between the two parts. -/
theorem addressPoints_isInfix {nodes : List Vtbl} (haddr : ∀ n ∈ nodes,
    (cha.getRange n).1 ≤ cha.addrPt n ∧ cha.addrPt n ≤ (cha.getRange n).2) :
    ((nodes.filter cha.isDefined).map fun n => (n, (cha.addrPt n : ℤ))) <:+:
      interleaving cha prePadMap nodes := by
  rcases nodes with _ | ⟨x, nodes⟩
  · exact List.nil_infix
  have hbound := le_slotBound cha prePadMap (List.mem_cons_self (a := x) (l := nodes))
  have hround : slotRound (x :: nodes) (hasSlot cha prePadMap)
      (-(slotBound cha prePadMap (x :: nodes) : ℤ) + slotBound cha prePadMap (x :: nodes)) <:+:
        rounds (x :: nodes) (hasSlot cha prePadMap) (-(slotBound cha prePadMap (x :: nodes) : ℤ))
          (slotBound cha prePadMap (x :: nodes) + slotBound cha prePadMap (x :: nodes)) :=
    slotRound_isInfix _ (by omega)
  rw [Int.add_left_neg] at hround
  have hzero : slotRound (x :: nodes) (hasSlot cha prePadMap) 0 =
      ((x :: nodes).filter cha.isDefined).map (·, 0) := by
    rw [slotRound]
    congr 1
    apply List.filter_congr
    intro n hn
    obtain ⟨hstart, hstop⟩ := haddr n hn
    rw [hasSlot, decide_eq_true (by omega), Bool.and_true]
  have hmap := hround.map (slotElem cha)
  rw [hzero, List.map_map] at hmap
  rw [interleaving]
  simpa [slotElem, Function.comp_def] using hmap

/-- Both calls return. Together they take every element of a defined sub-vtable once, the
elements of each in ascending order, with the address points side by side. -/
theorem fillVtablePart_interleaves {nodes : List Vtbl} (hnodes : nodes.Nodup)
    (haddr : ∀ n ∈ nodes,
      (cha.getRange n).1 ≤ cha.addrPt n ∧ cha.addrPt n ≤ (cha.getRange n).2) :
    ∃ negative positive, fillVtablePart cha prePadMap nodes false = .ok negative ∧
      fillVtablePart cha prePadMap nodes true = .ok positive ∧
      (∀ n j, (negative ++ positive).count (n, j) =
        if n ∈ nodes ∧ cha.isDefined n ∧ (cha.getRange n).1 - (prePadMap n : ℤ) ≤ j ∧
          j ≤ (cha.getRange n).2 then 1 else 0) ∧
      (negative ++ positive).Pairwise (fun a b => a.1 = b.1 → a.2 < b.2) ∧
      ((nodes.filter cha.isDefined).map fun n => (n, (cha.addrPt n : ℤ))) <:+:
        negative ++ positive := by
  refine ⟨_, _, fillVtablePart_negative cha prePadMap hnodes fun n hn => (haddr n hn).2,
    fillVtablePart_positive cha prePadMap hnodes fun n hn => (haddr n hn).1, ?_⟩
  rw [interleaving_eq]
  refine ⟨?once, ?ascending, addressPoints_isInfix cha prePadMap haddr⟩
  case once =>
    intro n j
    rw [(nodup_interleaving cha prePadMap hnodes).count]
    simp only [mem_interleaving]
  case ascending =>
    rw [interleaving, List.pairwise_map]
    apply (pairwise_rounds hnodes _ _).imp
    rintro ⟨m, r⟩ ⟨n, q⟩ hlt hmn
    obtain rfl : m = n := hmn
    have := hlt rfl
    simp only [slotElem]
    omega

/-- Two vtables of four elements, with the address point at the third. -/
def twoNodes : SDBuildCHA :=
  { SDBuildCHA.empty with addrPtMap := fun _ => [2], rangeMap := fun _ => [(0, 3)] }

theorem fillVtablePart_interleaves_twoNodes :
    ∃ negative positive,
      fillVtablePart twoNodes (fun _ => 1) [("A", 0), ("B", 0)] false = .ok negative ∧
      fillVtablePart twoNodes (fun _ => 1) [("A", 0), ("B", 0)] true = .ok positive ∧
      (∀ n j, (negative ++ positive).count (n, j) =
        if n ∈ [("A", 0), ("B", 0)] ∧ twoNodes.isDefined n ∧
          (twoNodes.getRange n).1 - ((1 : Nat) : ℤ) ≤ j ∧ j ≤ (twoNodes.getRange n).2
        then 1 else 0) ∧
      (negative ++ positive).Pairwise (fun a b => a.1 = b.1 → a.2 < b.2) ∧
      (([("A", 0), ("B", 0)].filter twoNodes.isDefined).map
        fun n => (n, (twoNodes.addrPt n : ℤ))) <:+: negative ++ positive :=
  fillVtablePart_interleaves twoNodes (fun _ => 1) (by decide) (by decide)

end Part

end RhoFEM.Layout
