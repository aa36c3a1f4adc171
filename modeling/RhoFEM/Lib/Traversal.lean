import Mathlib

/-! Consecutive numbers handed out by a traversal, and the interval of numbers
that the traversal below one element used. -/

universe u

namespace RhoFEM.Lib.Traversal

variable {α : Type u}

structure Numbering (α : Type u) where
  next : Nat
  ids : α → Option Nat
  ranges : α → Option (Nat × Nat)

namespace Numbering

variable [DecidableEq α]

def empty (next : Nat) : Numbering α := ⟨next, fun _ => none, fun _ => none⟩

def assign (n : Numbering α) (a : α) : Numbering α :=
  { n with next := n.next + 1, ids := Function.update n.ids a (some n.next) }

def close (n : Numbering α) (a : α) (r : Nat × Nat) : Numbering α :=
  { n with ranges := Function.update n.ranges a (some r) }

end Numbering

/-- Numbers in use are below the next one. -/
def Bounded (n : Numbering α) : Prop := ∀ a i, n.ids a = some i → i < n.next

/-- Exactly the numbers from `start` up to the next one are in use. -/
structure Dense (start : Nat) (n : Numbering α) : Prop where
  start_le : start ≤ n.next
  mem_iff : ∀ i, (∃ a, n.ids a = some i) ↔ start ≤ i ∧ i < n.next

theorem dense_empty (start : Nat) : Dense start (Numbering.empty start : Numbering α) where
  start_le := le_refl _
  mem_iff i := by
    simp only [Numbering.empty, reduceCtorEq, exists_false, false_iff]
    omega

/-- No number is used twice. -/
structure Distinct (n : Numbering α) : Prop where
  bounded : Bounded n
  eq_of_ids : ∀ a b i, n.ids a = some i → n.ids b = some i → a = b

theorem distinct_empty [DecidableEq α] (start : Nat) :
    Distinct (Numbering.empty start : Numbering α) :=
  ⟨nofun, nofun⟩

/-- Two intervals have nothing in common, or one holds the other. -/
def Nested (r q : Nat × Nat) : Prop :=
  r.2 < q.1 ∨ q.2 < r.1 ∨ (r.1 ≤ q.1 ∧ q.2 ≤ r.2) ∨ (q.1 ≤ r.1 ∧ r.2 ≤ q.2)

/-- Intervals are below the next number, and any two of them are nested. -/
structure Laminar (n : Numbering α) : Prop where
  lt : ∀ a r, n.ranges a = some r → r.2 < n.next
  nested : ∀ a b r q, n.ranges a = some r → n.ranges b = some q → Nested r q

/-- Intervals closed since a state begin at its next number or later. -/
def ClosedSince (n n' : Numbering α) : Prop :=
  ∀ a r, n'.ranges a = some r → n.ranges a = some r ∨ n.next ≤ r.1

theorem ClosedSince.trans {n n' n'' : Numbering α} (h : ClosedSince n n')
    (hnext : n.next ≤ n'.next) (h' : ClosedSince n' n'') : ClosedSince n n'' := by
  intro a r hr
  rcases h' a r hr with hold | hnew
  · exact h a r hold
  · exact .inr (hnext.trans hnew)

/-- Later numbers are new, and nothing is numbered twice. -/
structure Extends (n n' : Numbering α) : Prop where
  next : n.next ≤ n'.next
  ids : ∀ a i, n.ids a = some i → n'.ids a = some i
  fresh : ∀ a i, n'.ids a = some i → n.ids a = some i ∨ n.next ≤ i

theorem Extends.refl (n : Numbering α) : Extends n n :=
  ⟨le_refl _, fun _ _ h => h, fun _ _ h => .inl h⟩

theorem Extends.trans {n n' n'' : Numbering α} (h : Extends n n') (h' : Extends n' n'') :
    Extends n n'' where
  next := h.next.trans h'.next
  ids a i ha := h'.ids a i (h.ids a i ha)
  fresh a i ha := (h'.fresh a i ha).elim (h.fresh a i) fun hi => .inr (h.next.trans hi)

/-- What got a number between two states. -/
def New (n n' : Numbering α) (a : α) : Prop := ∃ i, n'.ids a = some i ∧ n.next ≤ i

theorem New.trans_iff {n n' n'' : Numbering α} (h : Extends n n')
    (h' : Extends n' n'') (a : α) : New n n'' a ↔ New n n' a ∨ New n' n'' a := by
  constructor
  · rintro ⟨i, hi, hle⟩
    rcases h'.fresh a i hi with hold | hnew
    · exact .inl ⟨i, hold, hle⟩
    · exact .inr ⟨i, hi, hnew⟩
  · rintro (⟨i, hi, hle⟩ | ⟨i, hi, hle⟩)
    · exact ⟨i, h'.ids a i hi, hle⟩
    · exact ⟨i, hi, h.next.trans hle⟩

/-- The interval `r` holds exactly the numbers of what is reachable from `a`. -/
structure RangeOf (step : α → α → Prop) (n : Numbering α) (a : α) (r : Nat × Nat) : Prop where
  mem_iff : ∀ b, Relation.ReflTransGen step a b ↔ ∃ i, n.ids b = some i ∧ r.1 ≤ i ∧ i ≤ r.2
  lt : r.2 < n.next

theorem RangeOf.mono {step : α → α → Prop} {n n' : Numbering α} {a : α} {r : Nat × Nat}
    (h : RangeOf step n a r) (hext : Extends n n') : RangeOf step n' a r where
  mem_iff b := by
    rw [h.mem_iff b]
    constructor
    · rintro ⟨i, hi, hrange⟩
      exact ⟨i, hext.ids b i hi, hrange⟩
    · rintro ⟨i, hi, hlo, hhi⟩
      rcases hext.fresh b i hi with hold | hnew
      · exact ⟨i, hold, hlo, hhi⟩
      · exact absurd (hnew.trans hhi) (Nat.not_le.mpr h.lt)
  lt := h.lt.trans_le hext.next

/-- The state of a traversal: its intervals are right. -/
structure Sound (step : α → α → Prop) (n : Numbering α) : Prop where
  bounded : Bounded n
  ranges : ∀ a r, n.ranges a = some r → RangeOf step n a r

section Updates

variable [DecidableEq α] {step : α → α → Prop} {n n' : Numbering α} {a : α}

theorem Bounded.assign (h : Bounded n) : Bounded (n.assign a) := by
  intro b i hb
  by_cases hba : b = a
  · subst hba
    have : n.next = i := by simpa [Numbering.assign] using hb
    exact this ▸ Nat.lt_succ_self _
  · exact (h b i (by simpa [Numbering.assign, hba] using hb)).trans (Nat.lt_succ_self _)

theorem Distinct.assign (h : Distinct n) : Distinct (n.assign a) where
  bounded := h.bounded.assign
  eq_of_ids b c i hb hc := by
    by_cases hba : b = a <;> by_cases hca : c = a
    · rw [hba, hca]
    · have hi : n.next = i := by simpa [Numbering.assign, hba] using hb
      have hold : n.ids c = some i := by simpa [Numbering.assign, hca] using hc
      exact absurd (h.bounded c i hold) (hi ▸ Nat.lt_irrefl _)
    · have hi : n.next = i := by simpa [Numbering.assign, hca] using hc
      have hold : n.ids b = some i := by simpa [Numbering.assign, hba] using hb
      exact absurd (h.bounded b i hold) (hi ▸ Nat.lt_irrefl _)
    · exact h.eq_of_ids b c i (by simpa [Numbering.assign, hba] using hb)
        (by simpa [Numbering.assign, hca] using hc)

theorem Distinct.close (h : Distinct n) (r : Nat × Nat) : Distinct (n.close a r) :=
  ⟨h.bounded, h.eq_of_ids⟩

theorem Laminar.assign (h : Laminar n) : Laminar (n.assign a) where
  lt b r hr := (h.lt b r hr).trans (Nat.lt_succ_self _)
  nested := h.nested

/-- The new interval reaches from the next number of an earlier state to the end. It holds the
intervals closed in between, and the others end before it. -/
theorem Laminar.close (h : Laminar n) (hsince : ClosedSince n n') (h' : Laminar n')
    {r : Nat × Nat} (hlo : r.1 = n.next) (hhi : r.2 + 1 = n'.next) :
    Laminar (n'.close a r) := by
  have hnew : ∀ b q, n'.ranges b = some q → Nested r q := by
    intro b q hq
    have hlt := h'.lt b q hq
    rcases hsince b q hq with hold | hin
    · have := h.lt b q hold
      exact .inr (.inl (by omega))
    · exact .inr (.inr (.inl (by omega)))
  have hsymm : ∀ q, Nested r q → Nested q r := by
    intro q hq
    unfold Nested at hq ⊢
    omega
  constructor
  case lt =>
    intro b q hq
    by_cases hba : b = a
    · obtain rfl : r = q := by simpa [Numbering.close, hba] using hq
      exact hhi ▸ Nat.lt_succ_self _
    · exact h'.lt b q (by simpa [Numbering.close, hba] using hq)
  case nested =>
    intro b c q q' hb hc
    by_cases hba : b = a <;> by_cases hca : c = a
    · obtain rfl : r = q := by simpa [Numbering.close, hba] using hb
      obtain rfl : r = q' := by simpa [Numbering.close, hca] using hc
      exact .inr (.inr (.inl ⟨Nat.le_refl _, Nat.le_refl _⟩))
    · obtain rfl : r = q := by simpa [Numbering.close, hba] using hb
      exact hnew c q' (by simpa [Numbering.close, hca] using hc)
    · obtain rfl : r = q' := by simpa [Numbering.close, hca] using hc
      exact hsymm q (hnew b q (by simpa [Numbering.close, hba] using hb))
    · exact h'.nested b c q q' (by simpa [Numbering.close, hba] using hb)
        (by simpa [Numbering.close, hca] using hc)

theorem ClosedSince.close (h : ClosedSince n n') {r : Nat × Nat} (hlo : r.1 = n.next) :
    ClosedSince n (n'.close a r) := by
  intro b q hq
  by_cases hba : b = a
  · obtain rfl : r = q := by simpa [Numbering.close, hba] using hq
    exact .inr (Nat.le_of_eq hlo.symm)
  · exact h b q (by simpa [Numbering.close, hba] using hq)

theorem Dense.assign {start : Nat} (h : Dense start n) (ha : n.ids a = none) :
    Dense start (n.assign a) where
  start_le := h.start_le.trans (Nat.le_succ _)
  mem_iff i := by
    have hold : (∃ b, n.ids b = some i) ↔ ∃ b, b ≠ a ∧ n.ids b = some i := by
      refine exists_congr fun b => (and_iff_right_of_imp ?_).symm
      rintro hb rfl
      simp [ha] at hb
    have hnew : (∃ b, (n.assign a).ids b = some i) ↔ n.next = i ∨ ∃ b, n.ids b = some i := by
      rw [hold]
      constructor
      · rintro ⟨b, hb⟩
        by_cases hba : b = a
        · exact .inl (by simpa [Numbering.assign, hba] using hb)
        · exact .inr ⟨b, hba, by simpa [Numbering.assign, hba] using hb⟩
      · rintro (rfl | ⟨b, hba, hb⟩)
        · exact ⟨a, by simp [Numbering.assign]⟩
        · exact ⟨b, by simpa [Numbering.assign, hba] using hb⟩
    rw [hnew, h.mem_iff]
    have := h.start_le
    simp only [Numbering.assign]
    omega

theorem Dense.close {start : Nat} (h : Dense start n) (r : Nat × Nat) :
    Dense start (n.close a r) :=
  ⟨h.start_le, h.mem_iff⟩

theorem extends_assign (h : n.ids a = none) : Extends n (n.assign a) where
  next := Nat.le_succ _
  ids b i hb := by
    have hba : b ≠ a := fun e => by simp [e, h] at hb
    simpa [Numbering.assign, hba] using hb
  fresh b i hb := by
    by_cases hba : b = a
    · subst hba
      exact .inr (le_of_eq (by simpa [Numbering.assign] using hb))
    · exact .inl (by simpa [Numbering.assign, hba] using hb)

theorem new_assign (hbound : Bounded n) (b : α) : New n (n.assign a) b ↔ b = a := by
  constructor
  · rintro ⟨i, hi, hle⟩
    by_contra hba
    exact absurd hle (Nat.not_le.mpr (hbound b i (by simpa [Numbering.assign, hba] using hi)))
  · rintro rfl
    exact ⟨n.next, by simp [Numbering.assign], le_refl _⟩

theorem Sound.assign (h : Sound step n) (ha : n.ids a = none) : Sound step (n.assign a) where
  bounded := h.bounded.assign
  ranges b r hb := (h.ranges b r hb).mono (extends_assign ha)

/-- Closing an element whose new numbers are those of what it reaches. -/
theorem Sound.close (h : Sound step n') {r : Nat × Nat} (hlo : r.1 = n.next)
    (hhi : r.2 + 1 = n'.next) (hnew : ∀ b, New n n' b ↔ Relation.ReflTransGen step a b) :
    Sound step (n'.close a r) where
  bounded := h.bounded
  ranges b q hq := by
    by_cases hba : b = a
    · subst hba
      obtain rfl : r = q := by simpa [Numbering.close] using hq
      refine ⟨fun c => (hnew c).symm.trans ?_, ?_⟩
      · constructor
        · rintro ⟨i, hi, hle⟩
          have := h.bounded c i hi
          exact ⟨i, hi, by omega, by omega⟩
        · rintro ⟨i, hi, hle, -⟩
          exact ⟨i, hi, hlo ▸ hle⟩
      · exact hhi ▸ Nat.lt_succ_self _
    · have hold := h.ranges b q (by simpa [Numbering.close, hba] using hq)
      exact ⟨hold.mem_iff, hold.lt⟩

theorem extends_close (r : Nat × Nat) : Extends n (n.close a r) :=
  ⟨le_refl _, fun _ _ h => h, fun _ _ h => .inl h⟩

/-- The elements of a finite support without a number bound the depth of a traversal. -/
def unnumbered (support : List α) (n : Numbering α) : Nat :=
  (support.toFinset.filter fun a => n.ids a = none).card

theorem unnumbered_anti (support : List α) (h : Extends n n') :
    unnumbered support n' ≤ unnumbered support n := by
  apply Finset.card_le_card
  intro b hb
  simp only [Finset.mem_filter] at hb ⊢
  refine ⟨hb.1, ?_⟩
  cases hids : n.ids b with
  | none => rfl
  | some i => simp [h.ids b i hids] at hb

theorem unnumbered_assign {support : List α} (ha : a ∈ support) (hnone : n.ids a = none) :
    unnumbered support (n.assign a) < unnumbered support n := by
  apply Finset.card_lt_card
  rw [Finset.ssubset_iff_of_subset]
  · exact ⟨a, by simp [ha, hnone], by simp only [Finset.mem_filter]; simp [Numbering.assign]⟩
  · intro b hb
    simp only [Finset.mem_filter] at hb ⊢
    refine ⟨hb.1, ?_⟩
    by_cases hba : b = a
    · exact hba ▸ hnone
    · simpa [Numbering.assign, hba] using hb.2

end Updates

end RhoFEM.Lib.Traversal
