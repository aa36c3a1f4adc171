import RhoFEM.Lib.Fold
import Mathlib.Data.List.Forall2

/-! Runs of machines that a second machine follows, and runs that work on each element of a
list by itself. -/

namespace RhoFEM.Lib.Simulation

open RhoFEM.Lib.Fold

universe u v

section Forward

variable {α σ τ : Type u} {ε ε' : Type v}

/-- What is related before an event, and again after it, is related after a run. What is asked of
the last state may be used at each event, if it says the same of the states before. -/
theorem foldlM_forward {f : σ → α → Except ε σ} {g : τ → α → Except ε' τ} (R : σ → τ → Prop)
    {P : σ → Prop} (hback : ∀ s x s', f s x = .ok s' → P s' → P s) {xs : List α}
    (hstep : ∀ x ∈ xs, ∀ s t s', R s t → f s x = .ok s' → P s' →
      ∃ t', g t x = .ok t' ∧ R s' t') {s s' : σ} {t : τ} (hR : R s t)
    (h : xs.foldlM f s = .ok s') (hs' : P s') : ∃ t', xs.foldlM g t = .ok t' ∧ R s' t' := by
  have hall : ∀ (ys : List α) (s : σ), ys.foldlM f s = .ok s' → P s := by
    intro ys
    induction ys with
    | nil => exact fun s h => Except.ok.inj h ▸ hs'
    | cons y ys ih =>
      intro s h
      rw [List.foldlM_cons, bind_eq_ok] at h
      obtain ⟨s₁, hs, hrest⟩ := h
      exact hback s y s₁ hs (ih s₁ hrest)
  induction xs generalizing s t with
  | nil =>
    obtain rfl := Except.ok.inj h
    exact ⟨t, rfl, hR⟩
  | cons x xs ih =>
    rw [List.foldlM_cons, bind_eq_ok] at h
    obtain ⟨s₁, hs, hrest⟩ := h
    obtain ⟨t₁, ht, hR₁⟩ := hstep x (by simp) s t s₁ hR hs (hall xs s₁ hrest)
    obtain ⟨t', hrun, hR'⟩ := ih (fun y hy => hstep y (by simp [hy])) hR₁ hrest
    refine ⟨t', ?_, hR'⟩
    rw [List.foldlM_cons, bind_eq_ok]
    exact ⟨t₁, ht, hrun⟩

theorem foldlM_append_eq_ok {f : σ → α → Except ε σ} {xs ys : List α} {s s' : σ} :
    (xs ++ ys).foldlM f s = .ok s' ↔ ∃ t, xs.foldlM f s = .ok t ∧ ys.foldlM f t = .ok s' := by
  rw [List.foldlM_append, bind_eq_ok]

/-- A state that no event changes is kept by a run. -/
theorem foldlM_fixed {f : σ → α → Except ε σ} {xs : List α} {s : σ}
    (h : ∀ x ∈ xs, f s x = .ok s) : xs.foldlM f s = .ok s := by
  induction xs with
  | nil => rfl
  | cons x xs ih =>
    rw [List.foldlM_cons, bind_eq_ok]
    exact ⟨s, h x (by simp), ih fun y hy => h y (by simp [hy])⟩

/-- Where an event can only keep the state or fail, a run keeps it when no event fails. -/
theorem foldlM_fixed_iff {f : σ → α → Except ε σ} {xs : List α} {s s' : σ}
    (h : ∀ x ∈ xs, ∀ t, f s x = .ok t → t = s) :
    xs.foldlM f s = .ok s' ↔ s' = s ∧ ∀ x ∈ xs, f s x = .ok s := by
  constructor
  · intro hrun
    induction xs with
    | nil => exact ⟨(Except.ok.inj hrun).symm, List.forall_mem_nil _⟩
    | cons x xs ih =>
      rw [List.foldlM_cons, bind_eq_ok] at hrun
      obtain ⟨t, hx, hrest⟩ := hrun
      obtain rfl := h x (by simp) t hx
      obtain ⟨hs, hall⟩ := ih (fun y hy => h y (by simp [hy])) hrest
      exact ⟨hs, List.forall_mem_cons.mpr ⟨hx, hall⟩⟩
  · rintro ⟨rfl, hall⟩
    exact foldlM_fixed hall

/-- One event changes the state, and no other event changes it before or after. -/
theorem foldlM_once [DecidableEq α] {f : σ → α → Except ε σ} {xs : List α} {x : α} {s s' : σ}
    (hx : x ∈ xs) (hbefore : ∀ y ∈ xs, y ≠ x → f s y = .ok s) (hat : f s x = .ok s')
    (hafter : ∀ y ∈ xs, f s' y = .ok s') : xs.foldlM f s = .ok s' := by
  obtain ⟨pre, post, rfl, hnot⟩ := List.eq_append_cons_of_mem hx
  rw [foldlM_append_eq_ok]
  refine ⟨s, foldlM_fixed fun y hy => ?_, ?_⟩
  · exact hbefore y (by simp [hy]) (ne_of_mem_of_not_mem hy hnot)
  · rw [List.foldlM_cons, bind_eq_ok]
    exact ⟨s', hat, foldlM_fixed fun y hy => hafter y (by simp [hy])⟩

end Forward

section Elements

variable {α β κ : Type u} {ε : Type v}

theorem mapM_eq_ok_iff {f : α → Except ε β} {xs : List α} {ys : List β} :
    xs.mapM f = .ok ys ↔ List.Forall₂ (fun x y => f x = .ok y) xs ys := by
  induction xs generalizing ys with
  | nil =>
    rw [List.mapM_nil, List.forall₂_nil_left_iff]
    exact ⟨fun h => (Except.ok.inj h).symm, fun h => h ▸ rfl⟩
  | cons x xs ih =>
    rw [List.mapM_cons, bind_eq_ok, List.forall₂_cons_left_iff]
    constructor
    · rintro ⟨y, hy, hrest⟩
      rw [bind_eq_ok] at hrest
      obtain ⟨rest, hrest, h⟩ := hrest
      exact ⟨y, rest, hy, ih.mp hrest, (Except.ok.inj h).symm⟩
    · rintro ⟨y, rest, hy, hrest, rfl⟩
      refine ⟨y, hy, ?_⟩
      rw [bind_eq_ok]
      exact ⟨rest, ih.mpr hrest, rfl⟩

theorem forall₂_getElem? {R : α → β → Prop} {xs : List α} {ys : List β}
    (h : List.Forall₂ R xs ys) (i : Nat) :
    (∀ x, xs[i]? = some x → ∃ y, ys[i]? = some y ∧ R x y) ∧
      ∀ y, ys[i]? = some y → ∃ x, xs[i]? = some x ∧ R x y := by
  induction h generalizing i with
  | nil => simp
  | cons hxy _ ih =>
    cases i with
    | zero => simp [hxy]
    | succ i => simpa using ih i

theorem forall₂_comp_iff {R S : α → α → Prop} {xs zs : List α} :
    (∃ ys, List.Forall₂ R xs ys ∧ List.Forall₂ S ys zs) ↔
      List.Forall₂ (fun x z => ∃ y, R x y ∧ S y z) xs zs := by
  constructor
  · rintro ⟨ys, hR, hS⟩
    induction hR generalizing zs with
    | nil => cases hS; exact .nil
    | cons hxy _ ih =>
      cases hS with
      | cons hyz hS => exact .cons ⟨_, hxy, hyz⟩ (ih hS)
  · intro h
    induction h with
    | nil => exact ⟨[], .nil, .nil⟩
    | cons hxz _ ih =>
      obtain ⟨y, hxy, hyz⟩ := hxz
      obtain ⟨ys, hR, hS⟩ := ih
      exact ⟨y :: ys, .cons hxy hR, .cons hyz hS⟩

theorem forall₂_and_right {R : α → α → Prop} {P : α → Prop} {xs ys : List α} :
    List.Forall₂ (fun x y => R x y ∧ P y) xs ys ↔ List.Forall₂ R xs ys ∧ ∀ y ∈ ys, P y := by
  constructor
  · intro h
    induction h with
    | nil => exact ⟨.nil, List.forall_mem_nil _⟩
    | cons hxy _ ih => exact ⟨.cons hxy.1 ih.1, List.forall_mem_cons.mpr ⟨hxy.2, ih.2⟩⟩
  · rintro ⟨h, hall⟩
    induction h with
    | nil => exact .nil
    | cons hxy _ ih =>
      obtain ⟨hy, hall⟩ := List.forall_mem_cons.mp hall
      exact .cons ⟨hxy, hy⟩ (ih hall)

/-- Passes over a list that look at one element at a time run on every element by themselves. -/
theorem foldlM_mapM_eq_ok {f : κ → α → Except ε α} {ks : List κ} {xs ys : List α} :
    ks.foldlM (fun xs k => xs.mapM (f k)) xs = .ok ys ↔
      List.Forall₂ (fun x y => ks.foldlM (fun x k => f k x) x = .ok y) xs ys := by
  induction ks generalizing xs with
  | nil =>
    have hpure : ∀ x y : α, ([] : List κ).foldlM (fun x k => f k x) x = Except.ok (ε := ε) y ↔
        x = y := fun x y => ⟨Except.ok.inj, fun h => h ▸ rfl⟩
    simp only [hpure, List.forall₂_eq_eq_eq]
    exact ⟨Except.ok.inj, fun h => h ▸ rfl⟩
  | cons k ks ih =>
    simp only [List.foldlM_cons, bind_eq_ok, mapM_eq_ok_iff, ih]
    exact forall₂_comp_iff

end Elements

end RhoFEM.Lib.Simulation
