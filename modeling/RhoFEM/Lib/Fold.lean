import Mathlib

/-! Rules for folds and sequences that can fail. -/

universe u v w

namespace RhoFEM.Lib.Fold

variable {α : Type u} {σ τ : Type v} {ε : Type w}

theorem bind_eq_ok {x : Except ε σ} {f : σ → Except ε τ} {t : τ} :
    (x >>= f) = .ok t ↔ ∃ s, x = .ok s ∧ f s = .ok t := by
  cases x with
  | error e => simp [bind, Except.bind]
  | ok s => simp [bind, Except.bind]

theorem bind_eq_error {x : Except ε σ} {f : σ → Except ε τ} {e : ε} :
    (x >>= f) = .error e ↔ x = .error e ∨ ∃ s, x = .ok s ∧ f s = .error e := by
  cases x with
  | error e => simp [bind, Except.bind]
  | ok s => simp [bind, Except.bind]

theorem map_eq_ok {x : Except ε σ} {f : σ → τ} {t : τ} :
    x.map f = .ok t ↔ ∃ s, x = .ok s ∧ f s = t := by
  cases x with
  | error e => simp [Except.map]
  | ok s => simp [Except.map]

theorem toOption_eq_some {x : Except ε σ} {s : σ} : x.toOption = some s ↔ x = .ok s := by
  cases x with
  | error e => simp [Except.toOption]
  | ok t => simp [Except.toOption]

theorem eq_ok_of_isOk {x : Except ε σ} (d : σ) (h : x.isOk) : x = .ok (x.toOption.getD d) := by
  cases x with
  | error e => exact absurd h nofun
  | ok s => rfl

/-- An invariant may speak of the elements folded so far. -/
theorem foldl_rule {f : σ → α → σ} (P : List α → σ → Prop) {xs : List α} {s : σ}
    (hstep : ∀ done x rest s, xs = done ++ x :: rest → P done s → P (done ++ [x]) (f s x))
    (hstart : P [] s) : P xs (xs.foldl f s) := by
  have hgen : ∀ ys done s, xs = done ++ ys → P done s → P (done ++ ys) (ys.foldl f s) := by
    intro ys
    induction ys with
    | nil =>
      intro done s _ hdone
      rwa [List.append_nil]
    | cons y ys ih =>
      intro done s hxs hdone
      have hsplit : xs = (done ++ [y]) ++ ys := by rw [hxs, List.append_assoc]; rfl
      have hrest := ih (done ++ [y]) (f s y) hsplit (hstep done y ys s hxs hdone)
      rwa [List.append_assoc] at hrest
  exact hgen xs [] s rfl hstart

theorem foldlM_ok_rule {f : σ → α → Except ε σ} (P : List α → σ → Prop) {xs : List α} {s s' : σ}
    (hstep : ∀ pre x s s', P pre s → x ∈ xs → f s x = .ok s' → P (pre ++ [x]) s')
    (hstart : P [] s) (h : xs.foldlM f s = .ok s') : P xs s' := by
  have hgen : ∀ ys pre s, ys ⊆ xs → P pre s → ys.foldlM f s = .ok s' → P (pre ++ ys) s' := by
    intro ys
    induction ys with
    | nil =>
      intro pre s _ hpre h
      rw [List.foldlM_nil] at h
      rw [List.append_nil, ← Except.ok.inj h]
      exact hpre
    | cons y ys ih =>
      intro pre s hsub hpre h
      rw [List.foldlM_cons, bind_eq_ok] at h
      obtain ⟨t, hy, hrest⟩ := h
      have := ih (pre ++ [y]) t (fun z hz => hsub (List.mem_cons_of_mem _ hz))
        (hstep pre y s t hpre (hsub List.mem_cons_self) hy) hrest
      simpa using this
  simpa using hgen xs [] s (List.Subset.refl _) hstart h

theorem foldlM_nodup_ok_rule {f : σ → α → Except ε σ} (P : List α → σ → Prop) {xs : List α}
    {s s' : σ} (hnodup : xs.Nodup)
    (hstep : ∀ {done x s s'}, x ∈ xs → x ∉ done → P done s → f s x = .ok s' → P (done ++ [x]) s')
    (hstart : P [] s) (h : xs.foldlM f s = .ok s') : P xs s' := by
  have hgen : ∀ ys done s, (done ++ ys).Nodup → ys ⊆ xs → P done s → ys.foldlM f s = .ok s' →
      P (done ++ ys) s' := by
    intro ys
    induction ys with
    | nil =>
      intro done s _ _ hdone h
      rw [List.foldlM_nil] at h
      rw [List.append_nil, ← Except.ok.inj h]
      exact hdone
    | cons y ys ih =>
      intro done s hnodup hsub hdone h
      rw [List.foldlM_cons, bind_eq_ok] at h
      obtain ⟨t, hy, hrest⟩ := h
      have hnew : y ∉ done := fun hmem =>
        (List.nodup_append.mp hnodup).2.2 y hmem y List.mem_cons_self rfl
      rw [← List.singleton_append, ← List.append_assoc] at hnodup ⊢
      exact ih _ t hnodup (fun z hz => hsub (List.mem_cons_of_mem _ hz))
        (hstep (hsub List.mem_cons_self) hnew hdone hy) hrest
  exact hgen xs [] s hnodup (List.Subset.refl _) hstart h

/-- The rule for a loop over the positions of a list. -/
theorem foldlM_zipIdx_rule {f : σ → α × Nat → Except ε σ} (P : List α → σ → Prop) {xs : List α}
    {s s' : σ} (hstep : ∀ pre x s s', P pre s → x ∈ xs → f s (x, pre.length) = .ok s' →
      P (pre ++ [x]) s')
    (hstart : P [] s) (h : xs.zipIdx.foldlM f s = .ok s') : P xs s' := by
  have hgen : ∀ ys pre s, ys ⊆ xs → P pre s → (ys.zipIdx pre.length).foldlM f s = .ok s' →
      P (pre ++ ys) s' := by
    intro ys
    induction ys with
    | nil =>
      intro pre s _ hpre h
      rw [List.zipIdx_nil, List.foldlM_nil] at h
      rw [List.append_nil, ← Except.ok.inj h]
      exact hpre
    | cons y ys ih =>
      intro pre s hsub hpre h
      rw [List.zipIdx_cons, List.foldlM_cons, bind_eq_ok] at h
      obtain ⟨t, hy, hrest⟩ := h
      have hlength : pre.length + 1 = (pre ++ [y]).length := by simp
      rw [hlength] at hrest
      have := ih (pre ++ [y]) t (fun z hz => hsub (List.mem_cons_of_mem _ hz))
        (hstep pre y s t hpre (hsub List.mem_cons_self) hy) hrest
      simpa using this
  simpa using hgen xs [] s (List.Subset.refl _) hstart h

/-- A loop over indices that stands for one over the elements of a list. -/
theorem foldlM_range'_eq_ok {β : Type u} {f : σ → Nat → Except ε σ} {g : σ → β → σ} {xs : List β}
    {k : Nat} {s : σ} (h : ∀ pre x post, xs = pre ++ x :: post →
      f (pre.foldl g s) (k + pre.length) = .ok (g (pre.foldl g s) x)) :
    (List.range' k xs.length).foldlM f s = .ok (xs.foldl g s) := by
  induction xs generalizing k s with
  | nil => rfl
  | cons x xs ih =>
    rw [List.length_cons, List.range'_succ, List.foldlM_cons, bind_eq_ok]
    refine ⟨g s x, by simpa using h [] x xs rfl, ih fun pre y post hxs => ?_⟩
    have hy := h (x :: pre) y post (by rw [hxs, List.cons_append])
    rwa [List.foldl_cons, List.length_cons, Nat.add_comm pre.length, ← Nat.add_assoc] at hy

/-- A fold whose steps all succeed. -/
theorem foldlM_exists_ok {f : σ → α → Except ε σ} (P : List α → σ → Prop) (xs : List α) {s : σ}
    (hstep : ∀ pre x rest s, xs = pre ++ x :: rest → P pre s →
      ∃ s', f s x = .ok s' ∧ P (pre ++ [x]) s')
    (hstart : P [] s) : ∃ s', xs.foldlM f s = .ok s' ∧ P xs s' := by
  have hgen : ∀ ys pre s, xs = pre ++ ys → P pre s →
      ∃ s', ys.foldlM f s = .ok s' ∧ P (pre ++ ys) s' := by
    intro ys
    induction ys with
    | nil => exact fun pre s _ hpre => ⟨s, rfl, by rwa [List.append_nil]⟩
    | cons y ys ih =>
      intro pre s hxs hpre
      obtain ⟨t, hy, ht⟩ := hstep pre y ys s hxs hpre
      obtain ⟨s', hrest, hs'⟩ := ih (pre ++ [y]) t (by simp [hxs]) ht
      refine ⟨s', ?_, by simpa using hs'⟩
      rw [List.foldlM_cons, bind_eq_ok]
      exact ⟨t, hy, hrest⟩
  exact hgen xs [] s rfl hstart

/-- Over distinct elements, each step meets a new one. -/
theorem foldlM_nodup_exists_ok {f : σ → α → Except ε σ} (P : List α → σ → Prop) {xs : List α}
    {s : σ} (hnodup : xs.Nodup)
    (hstep : ∀ {done x s}, done ⊆ xs → x ∈ xs → x ∉ done → P done s →
      ∃ s', f s x = .ok s' ∧ P (done ++ [x]) s')
    (hstart : P [] s) : ∃ s', xs.foldlM f s = .ok s' ∧ P xs s' := by
  apply foldlM_exists_ok P
  case hstep =>
    intro done x rest s hxs hdone
    subst hxs
    apply hstep (List.subset_append_left _ _) (by simp) _ hdone
    intro hmem
    exact (List.nodup_append.mp hnodup).2.2 x hmem x (by simp) rfl
  case hstart => exact hstart

/-- An entry written for the element of this step joins those of the steps before. -/
theorem forall_update_concat {β : Type v} [DecidableEq α] {f g : α → β} {done : List α} {x : α}
    (hnew : x ∉ done) (hdone : ∀ y ∈ done, f y = g y) :
    ∀ y ∈ done ++ [x], Function.update f x (g x) y = g y := by
  rw [List.forall_mem_append, List.forall_mem_singleton, Function.update_self]
  constructor
  · intro y hy
    rw [Function.update_of_ne (ne_of_mem_of_not_mem hy hnew), hdone y hy]
  · rfl

theorem foldlM_simulates {f : σ → α → Except ε σ} {g : τ → α → Except ε τ} (abstract : σ → τ)
    (hstep : ∀ s x s', f s x = .ok s' → g (abstract s) x = .ok (abstract s')) {xs : List α}
    {s s' : σ} (h : xs.foldlM f s = .ok s') : xs.foldlM g (abstract s) = .ok (abstract s') := by
  induction xs generalizing s with
  | nil =>
    rw [List.foldlM_nil] at h
    rw [← Except.ok.inj h]
    rfl
  | cons x xs ih =>
    rw [List.foldlM_cons, bind_eq_ok] at h ⊢
    obtain ⟨t, ht, hrest⟩ := h
    exact ⟨abstract t, hstep s x t ht, ih hrest⟩

theorem foldlM_congr {f g : σ → α → Except ε σ} {xs : List α} (h : ∀ x ∈ xs, ∀ s, f s x = g s x)
    (s : σ) : xs.foldlM f s = xs.foldlM g s := by
  induction xs generalizing s with
  | nil => rfl
  | cons x xs ih =>
    rw [List.foldlM_cons, List.foldlM_cons, h x (by simp)]
    congr 1
    funext t
    exact ih (fun y hy => h y (by simp [hy])) t

theorem foldlM_flatMap {β : Type v} {f : σ → β → Except ε σ} {g : α → List β} (xs : List α)
    (s : σ) : (xs.flatMap g).foldlM f s = xs.foldlM (fun s x => (g x).foldlM f s) s := by
  induction xs generalizing s with
  | nil => rfl
  | cons x xs ih =>
    rw [List.flatMap_cons, List.foldlM_append, List.foldlM_cons]
    congr 1
    funext t
    exact ih t

theorem mapM_eq_ok {f : α → Except ε σ} {g : α → σ} {xs : List α}
    (h : ∀ x ∈ xs, f x = .ok (g x)) : xs.mapM f = .ok (xs.map g) := by
  induction xs with
  | nil => rfl
  | cons x xs ih =>
    have hrest := ih fun y hy => h y (by simp [hy])
    rw [List.mapM_cons, h x (by simp), hrest]
    rfl

theorem forall_of_mapM_eq_ok {f : α → Except ε σ} {xs : List α} {ys : List σ}
    (h : xs.mapM f = .ok ys) : ∀ x ∈ xs, ∃ y, f x = .ok y := by
  induction xs generalizing ys with
  | nil => exact List.forall_mem_nil _
  | cons x xs ih =>
    rw [List.mapM_cons, bind_eq_ok] at h
    obtain ⟨y, hy, hrest⟩ := h
    rw [bind_eq_ok] at hrest
    obtain ⟨zs, hzs, -⟩ := hrest
    exact List.forall_mem_cons.mpr ⟨⟨y, hy⟩, ih hzs⟩

theorem exists_of_mem_mapM_eq_ok {f : α → Except ε σ} {xs : List α} {ys : List σ}
    (h : xs.mapM f = .ok ys) : ∀ y ∈ ys, ∃ x ∈ xs, f x = .ok y := by
  induction xs generalizing ys with
  | nil =>
    obtain rfl := Except.ok.inj h
    exact List.forall_mem_nil _
  | cons x xs ih =>
    rw [List.mapM_cons, bind_eq_ok] at h
    obtain ⟨y, hy, hrest⟩ := h
    rw [bind_eq_ok] at hrest
    obtain ⟨zs, hzs, hrest⟩ := hrest
    obtain rfl := Except.ok.inj hrest
    rw [List.forall_mem_cons]
    refine ⟨⟨x, List.mem_cons_self, hy⟩, ?_⟩
    intro z hz
    obtain ⟨w, hw, heq⟩ := ih hzs z hz
    exact ⟨w, List.mem_cons_of_mem _ hw, heq⟩

theorem exists_of_mapM_eq_error {β : Type v} {f : α → Except ε β} {xs : List α} {e : ε}
    (h : xs.mapM f = .error e) : ∃ x ∈ xs, f x = .error e := by
  induction xs with
  | nil => cases h
  | cons x xs ih =>
    rw [List.mapM_cons, bind_eq_error] at h
    rcases h with hx | ⟨y, -, hrest⟩
    · exact ⟨x, by simp, hx⟩
    · rw [bind_eq_error] at hrest
      rcases hrest with hxs | ⟨ys, -, hys⟩
      · obtain ⟨z, hz, hfz⟩ := ih hxs
        exact ⟨z, by simp [hz], hfz⟩
      · cases hys

theorem forM_eq_ok {f : α → Except ε PUnit} {xs : List α} (h : ∀ x ∈ xs, f x = .ok ⟨⟩) :
    xs.forM f = .ok ⟨⟩ := by
  induction xs with
  | nil => rfl
  | cons x xs ih =>
    have hrest := ih fun y hy => h y (by simp [hy])
    rw [List.forM, h x (by simp)]
    exact hrest

/-- A failure that no step can have is not a failure of the fold. -/
theorem foldlM_ne_error {f : σ → α → Except ε σ} (P : σ → Prop) {xs : List α} {s : σ} {e : ε}
    (hstep : ∀ x s s', P s → x ∈ xs → f s x = .ok s' → P s')
    (hne : ∀ x s, P s → x ∈ xs → f s x ≠ .error e) (hstart : P s) :
    xs.foldlM f s ≠ .error e := by
  induction xs generalizing s with
  | nil => exact nofun
  | cons x xs ih =>
    rw [List.foldlM_cons, ne_eq, bind_eq_error]
    rintro (hx | ⟨t, hx, hrest⟩)
    · exact hne x s hstart (by simp) hx
    · exact ih (fun y s s' hs hy => hstep y s s' hs (by simp [hy]))
        (fun y s hs hy => hne y s hs (by simp [hy])) (hstep x s t hstart (by simp) hx) hrest

theorem foldlM_ne_error_of_forall {f : σ → α → Except ε σ} {xs : List α} {s : σ} {e : ε}
    (h : ∀ x ∈ xs, ∀ s, f s x ≠ .error e) : xs.foldlM f s ≠ .error e :=
  foldlM_ne_error (fun _ => True) (fun _ _ _ _ _ _ => trivial) (fun x s _ hx => h x hx s) trivial

theorem foldlM_some_rule {f : σ → α → Option σ} (P : σ → Prop) {xs : List α} {s s' : σ}
    (hstep : ∀ s x s', P s → f s x = some s' → P s') (hstart : P s)
    (h : xs.foldlM f s = some s') : P s' := by
  induction xs generalizing s with
  | nil => exact Option.some.inj h ▸ hstart
  | cons x xs ih =>
    rw [List.foldlM_cons, Option.bind_eq_bind, Option.bind_eq_some_iff] at h
    obtain ⟨t, hx, hrest⟩ := h
    exact ih (hstep s x t hstart hx) hrest

section LastWrite

variable {κ β τ : Type v} [DecidableEq κ]

def lastWrite (key : α → κ) (xs : List α) (k : κ) : Option α := xs.reverse.find? (key · = k)

theorem lastWrite_cons (key : α → κ) (x : α) (xs : List α) (k : κ) :
    lastWrite key (x :: xs) k = (lastWrite key xs k).or (if key x = k then some x else none) := by
  rw [lastWrite, List.reverse_cons, List.find?_append, lastWrite]
  split <;> simp_all

theorem lastWrite_append (key : α → κ) (xs ys : List α) (k : κ) :
    lastWrite key (xs ++ ys) k = (lastWrite key ys k).or (lastWrite key xs k) := by
  rw [lastWrite, List.reverse_append, List.find?_append, lastWrite, lastWrite]

theorem lastWrite_eq_some {key : α → κ} {xs : List α} {k : κ} {x : α}
    (h : lastWrite key xs k = some x) : x ∈ xs ∧ key x = k :=
  ⟨List.mem_reverse.mp (List.mem_of_find?_eq_some h), by simpa using List.find?_some h⟩

theorem exists_lastWrite (key : α → κ) {xs : List α} {x : α} (hx : x ∈ xs) :
    ∃ y, lastWrite key xs (key x) = some y := by
  rw [← Option.isSome_iff_exists, lastWrite, List.find?_isSome]
  exact ⟨x, List.mem_reverse.mpr hx, by simp⟩

/-- In a table that is written one entry at a time, the last one of a key is found. -/
theorem foldlM_lastWrite {key : α → κ} {value : α → Option β} {f : σ → α → Option σ}
    {view : σ → κ → Option β} {frame : σ → τ} {xs : List α}
    (hstep : ∀ s, ∀ x ∈ xs, value x = none ∧ f s x = none ∨ ∃ v s', value x = some v ∧
      f s x = some s' ∧ view s' = Function.update (view s) (key x) (some v) ∧ frame s' = frame s)
    (s : σ) :
    ((xs.foldlM f s).isSome ↔ ∀ x ∈ xs, (value x).isSome) ∧
      ∀ s', xs.foldlM f s = some s' → frame s' = frame s ∧
        ∀ k, view s' k = ((lastWrite key xs k).bind value).or (view s k) := by
  induction xs generalizing s with
  | nil =>
    refine ⟨by simp, fun s' h => ?_⟩
    obtain rfl := Option.some.inj h
    exact ⟨rfl, fun k => rfl⟩
  | cons x xs ih =>
    rw [List.foldlM_cons, List.forall_mem_cons]
    rcases hstep s x (by simp) with ⟨hvalue, hnone⟩ | ⟨v, t, hvalue, hsome, hview, hframe⟩
    · rw [hnone, hvalue]
      exact ⟨by simp, fun s' h => absurd h nofun⟩
    · obtain ⟨hiff, hresult⟩ := ih (fun s y hy => hstep s y (by simp [hy])) t
      rw [hsome, hvalue]
      refine ⟨by simpa using hiff, fun s' h => ?_⟩
      obtain ⟨hframe', hview'⟩ := hresult s' h
      refine ⟨hframe'.trans hframe, fun k => ?_⟩
      have hall := hiff.mp (Option.isSome_iff_exists.mpr ⟨s', h⟩)
      rw [hview', hview, lastWrite_cons]
      cases hlast : lastWrite key xs k with
      | none =>
        by_cases hk : key x = k
        · subst hk
          simp [hvalue]
        · simp [hk, Function.update_of_ne (Ne.symm hk)]
      | some y =>
        obtain ⟨w, hw⟩ := Option.isSome_iff_exists.mp (hall y (lastWrite_eq_some hlast).1)
        simp [hw]

end LastWrite

section FirstWrite

variable {κ : Type u} {β : Type v} [DecidableEq κ]

theorem lookup_concat (table : List (κ × β)) (k k' : κ) (v : β) :
    (table ++ [(k', v)]).lookup k = (table.lookup k).or (if k = k' then some v else none) := by
  rw [List.lookup_append, List.lookup_cons, List.lookup_nil]
  by_cases hk : k = k'
  · rw [if_pos hk, beq_iff_eq.mpr hk]
  · rw [if_neg hk, beq_eq_false_iff_ne.mpr hk]

/-- Writes a key that the table lacks. -/
def insertFirst (key : α → κ) (value : α → Except ε β) (table : List (κ × β)) (x : α) :
    Except ε (List (κ × β)) :=
  if (table.lookup (key x)).isSome then .ok table
  else (value x).map fun v => table ++ [(key x, v)]

/-- The table after the writes of `done`: those of the first writer of each new key. -/
structure FirstWritten (key : α → κ) (value : α → Except ε β) (table : List (κ × β))
    (done : List α) (t : List (κ × β)) : Prop where
  keep : ∀ k v, table.lookup k = some v → t.lookup k = some v
  written : ∀ {k x}, table.lookup k = none → done.find? (key · == k) = some x →
    ∃ v, value x = .ok v ∧ t.lookup k = some v
  missing : ∀ {k}, table.lookup k = none → done.find? (key · == k) = none → t.lookup k = none

variable {key : α → κ} {value : α → Except ε β} {table : List (κ × β)}

theorem FirstWritten.start : FirstWritten key value table [] table where
  keep _ _ := id
  written _ h := by simp at h
  missing h _ := h

theorem FirstWritten.skip {done : List α} {t : List (κ × β)} {x : α}
    (h : FirstWritten key value table done t) (hsome : (t.lookup (key x)).isSome) :
    FirstWritten key value table (done ++ [x]) t where
  keep := h.keep
  written {k y} hk hfind := by
    rw [List.find?_append, Option.or_eq_some_iff] at hfind
    rcases hfind with hfind | ⟨hnone, hfind⟩
    · exact h.written hk hfind
    · have hkey := List.find?_some hfind
      obtain rfl : y = x := by simpa using List.mem_of_find?_eq_some hfind
      rw [beq_iff_eq.mp hkey, h.missing hk hnone] at hsome
      exact Bool.noConfusion hsome
  missing hk hfind := by
    rw [List.find?_append, Option.or_eq_none_iff] at hfind
    exact h.missing hk hfind.1

theorem FirstWritten.write {done : List α} {t : List (κ × β)} {x : α} {v : β}
    (h : FirstWritten key value table done t) (hnone : t.lookup (key x) = none)
    (hv : value x = .ok v) :
    FirstWritten key value table (done ++ [x]) (t ++ [(key x, v)]) where
  keep k w hk := by rw [lookup_concat, h.keep k w hk, Option.some_or]
  written {k y} hk hfind := by
    rw [List.find?_append, Option.or_eq_some_iff] at hfind
    rcases hfind with hfind | ⟨-, hfind⟩
    · obtain ⟨w, hw, hlookup⟩ := h.written hk hfind
      exact ⟨w, hw, by rw [lookup_concat, hlookup, Option.some_or]⟩
    · have hkey := List.find?_some hfind
      obtain rfl : y = x := by simpa using List.mem_of_find?_eq_some hfind
      obtain rfl := beq_iff_eq.mp hkey
      exact ⟨v, hv, by rw [lookup_concat, hnone, if_pos rfl, Option.none_or]⟩
  missing {k} hk hfind := by
    rw [List.find?_append, Option.or_eq_none_iff] at hfind
    have hne : k ≠ key x := fun heq => by simp [heq] at hfind
    rw [lookup_concat, h.missing hk hfind.1, if_neg hne, Option.none_or]

theorem FirstWritten.step {done : List α} {t t' : List (κ × β)} {x : α}
    (h : FirstWritten key value table done t) (hok : insertFirst key value t x = .ok t') :
    FirstWritten key value table (done ++ [x]) t' := by
  unfold insertFirst at hok
  split at hok
  · rename_i hsome
    rw [← Except.ok.inj hok]
    exact h.skip hsome
  · rename_i hnone
    cases hvalue : value x with
    | error e =>
      rw [hvalue] at hok
      cases hok
    | ok v =>
      rw [hvalue] at hok
      rw [← Except.ok.inj hok]
      exact h.write (Option.not_isSome_iff_eq_none.mp hnone) hvalue

/-- The step need only be an insertion into the tables that extend the first one. -/
theorem foldlM_eq_insertFirst {f : List (κ × β) → α → Except ε (List (κ × β))} {xs : List α}
    (hstep : ∀ x ∈ xs, ∀ t, (∀ k v, table.lookup k = some v → t.lookup k = some v) →
      f t x = insertFirst key value t x) :
    xs.foldlM f table = xs.foldlM (insertFirst key value) table := by
  suffices hgen : ∀ ys ⊆ xs, ∀ t, (∀ k v, table.lookup k = some v → t.lookup k = some v) →
      ys.foldlM f t = ys.foldlM (insertFirst key value) t from
    hgen xs (List.Subset.refl _) table fun _ _ => id
  intro ys hys
  induction ys with
  | nil => exact fun _ _ => rfl
  | cons y ys ih =>
    intro t hkeep
    rw [List.foldlM_cons, List.foldlM_cons, hstep y (hys (by simp)) t hkeep]
    cases hok : insertFirst key value t y with
    | error e => rfl
    | ok t' =>
      have hgrow : ∀ k v, t.lookup k = some v → t'.lookup k = some v :=
        (FirstWritten.start.step hok).keep
      exact ih (List.subset_of_cons_subset hys) t' fun k v hk => hgrow k v (hkeep k v hk)

theorem firstWritten_of_foldlM {xs : List α} {t : List (κ × β)}
    (h : xs.foldlM (insertFirst key value) table = .ok t) :
    FirstWritten key value table xs t :=
  foldlM_ok_rule (FirstWritten key value table) (fun _ _ _ _ hdone _ => hdone.step) .start h

theorem foldlM_insertFirst_ok {xs : List α} (hvalue : ∀ k x, table.lookup k = none →
      xs.find? (key · == k) = some x → ∃ v, value x = .ok v) :
    ∃ t, xs.foldlM (insertFirst key value) table = .ok t := by
  have hfold := foldlM_exists_ok (f := insertFirst key value) (s := table)
    (FirstWritten key value table) xs ?step .start
  case step =>
    intro done x rest t hsplit hdone
    suffices hok : ∃ t', insertFirst key value t x = .ok t' by
      obtain ⟨t', hok⟩ := hok
      exact ⟨t', hok, hdone.step hok⟩
    rw [insertFirst]
    by_cases hsome : (t.lookup (key x)).isSome
    · exact ⟨t, if_pos hsome⟩
    · rw [if_neg hsome]
      have hnone := Option.not_isSome_iff_eq_none.mp hsome
      have htable : table.lookup (key x) = none := by
        by_contra hne
        obtain ⟨v, hv⟩ := Option.ne_none_iff_exists'.mp hne
        simp [hdone.keep _ _ hv] at hnone
      have hfirst : done.find? (key · == key x) = none := by
        by_contra hne
        obtain ⟨y, hy⟩ := Option.ne_none_iff_exists'.mp hne
        obtain ⟨v, -, hv⟩ := hdone.written htable hy
        simp [hv] at hnone
      obtain ⟨v, hv⟩ := hvalue (key x) x htable (by rw [hsplit]; simp [hfirst])
      rw [hv]
      exact ⟨_, rfl⟩
  obtain ⟨t, hok, -⟩ := hfold
  exact ⟨t, hok⟩

end FirstWrite

end RhoFEM.Lib.Fold
