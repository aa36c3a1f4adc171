import RhoFEM.Lib.Search

/-! The nodes below a node in the order of a depth first walk that has no set of visited nodes. -/

universe u v

namespace RhoFEM.Lib.Descendants

open RhoFEM.Lib.Search

variable {α : Type u} {β : Type v} {children : α → List α}

/-- The nodes below a node, each one before those below it. -/
def descendants (children : α → List α) : Nat → α → List α
  | 0, _ => []
  | fuel + 1, v => (children v).flatMap fun c => c :: descendants children fuel c

theorem descendants_induction {P : α → Prop} {v : α} (hv : ∀ c ∈ children v, P c)
    (hstep : ∀ x, P x → ∀ c ∈ children x, P c) {fuel : Nat} :
    ∀ x ∈ descendants children fuel v, P x := by
  induction fuel generalizing v with
  | zero => exact List.forall_mem_nil _
  | succ fuel ih =>
    intro x hx
    obtain ⟨c, hc, hx⟩ := List.mem_flatMap.mp hx
    rcases List.mem_cons.mp hx with rfl | hx
    · exact hv x hc
    · exact ih (hstep c (hv c hc)) x hx

theorem transGen_of_mem {fuel : Nat} {v x : α} (hx : x ∈ descendants children fuel v) :
    Relation.TransGen (fun a b => b ∈ children a) v x :=
  descendants_induction (P := Relation.TransGen (fun a b => b ∈ children a) v)
    (fun _ hc => .single hc) (fun _ hx _ hc => hx.tail hc) x hx

/-- A walk that leaves out some children stays among the nodes below. -/
theorem transGen_of_mem_of_subset {children' : α → List α}
    (hsub : ∀ a, children' a ⊆ children a) {fuel : Nat} {v x : α}
    (hx : x ∈ descendants children' fuel v) :
    Relation.TransGen (fun a b => b ∈ children a) v x :=
  Relation.TransGen.mono (fun a _ hb => hsub a hb) _ _ (transGen_of_mem hx)

/-- With enough fuel the list is closed under children. -/
theorem mem_descendants_of_child {rank : α → Nat} (hrank : ∀ a, ∀ c ∈ children a, rank c < rank a)
    {fuel : Nat} {v x c : α} (hfuel : rank v ≤ fuel)
    (hx : x = v ∨ x ∈ descendants children fuel v) (hc : c ∈ children x) :
    c ∈ descendants children fuel v := by
  induction fuel generalizing v with
  | zero =>
    obtain rfl : x = v := hx.resolve_right (List.not_mem_nil)
    exact absurd (hrank x c hc) (by omega)
  | succ fuel ih =>
    rcases hx with rfl | hx
    · exact List.mem_flatMap.mpr ⟨c, hc, List.mem_cons_self⟩
    · obtain ⟨d, hd, hx⟩ := List.mem_flatMap.mp hx
      have := hrank v d hd
      exact List.mem_flatMap.mpr ⟨d, hd, List.mem_cons_of_mem _
        (ih (by omega) (List.mem_cons.mp hx))⟩

theorem mem_descendants_iff {rank : α → Nat} (hrank : ∀ a, ∀ c ∈ children a, rank c < rank a)
    {fuel : Nat} {v x : α} (hfuel : rank v ≤ fuel) :
    x ∈ descendants children fuel v ↔ Relation.TransGen (fun a b => b ∈ children a) v x := by
  constructor
  · exact transGen_of_mem
  · intro h
    induction h with
    | single hc => exact mem_descendants_of_child hrank hfuel (.inl rfl) hc
    | tail _ hc ih => exact mem_descendants_of_child hrank hfuel (.inr ih) hc

theorem mem_cons_descendants_iff {rank : α → Nat}
    (hrank : ∀ a, ∀ c ∈ children a, rank c < rank a) {fuel : Nat} {v x : α}
    (hfuel : rank v ≤ fuel) : x ∈ v :: descendants children fuel v ↔ Reaches children v x := by
  rw [List.mem_cons, mem_descendants_iff hrank hfuel, Reaches,
    Relation.reflTransGen_iff_eq_or_transGen]

section Labels

variable {label : α → List β} (hlabel : ∀ a, ∀ c ∈ children a, ∃ l, label c = label a ++ [l])
include hlabel

theorem label_of_mem {fuel : Nat} {v x : α} (hx : x ∈ descendants children fuel v) :
    ∃ c ∈ children v, label c <+: label x := by
  cases fuel with
  | zero => cases hx
  | succ fuel =>
    obtain ⟨c, hc, hx⟩ := List.mem_flatMap.mp hx
    refine ⟨c, hc, ?_⟩
    rcases List.mem_cons.mp hx with rfl | hx
    · exact List.prefix_refl _
    · refine descendants_induction (P := fun x => label c <+: label x) ?_ ?_ x hx
      · intro d hd
        obtain ⟨l, hl⟩ := hlabel c d hd
        exact ⟨[l], hl.symm⟩
      · intro y hy d hd
        obtain ⟨l, hl⟩ := hlabel y d hd
        exact hy.trans ⟨[l], hl.symm⟩

theorem label_lt_of_mem {fuel : Nat} {v x : α} (hx : x ∈ descendants children fuel v) :
    label v <+: label x ∧ (label v).length < (label x).length := by
  obtain ⟨c, hc, hcx⟩ := label_of_mem hlabel hx
  obtain ⟨l, hl⟩ := hlabel v c hc
  have hlength := hcx.length_le
  rw [hl, List.length_append, List.length_singleton] at hlength
  exact ⟨List.IsPrefix.trans ⟨[l], hl.symm⟩ hcx, hlength⟩

/-- Nodes with labels of their own among the children of each node have labels of their own. -/
theorem nodup_labels (hset : ∀ a, ((children a).map label).Nodup) (fuel : Nat) (v : α) :
    ((descendants children fuel v).map label).Nodup := by
  induction fuel generalizing v with
  | zero => exact List.nodup_nil
  | succ fuel ih =>
    rw [descendants, List.map_flatMap, List.nodup_flatMap]
    refine ⟨fun c _ => ?_, ?_⟩
    · rw [List.map_cons, List.nodup_cons]
      refine ⟨fun hmem => ?_, ih c⟩
      obtain ⟨x, hx, heq⟩ := List.mem_map.mp hmem
      exact (label_lt_of_mem hlabel hx).2.ne (heq ▸ rfl)
    · have hdistinct : (children v).Pairwise fun c d => label c ≠ label d :=
        List.pairwise_map.mp (hset v)
      have hbelow : ∀ c, ∀ p ∈ (c :: descendants children fuel c).map label, label c <+: p := by
        intro c p hp
        obtain ⟨x, hx, rfl⟩ := List.mem_map.mp hp
        rcases List.mem_cons.mp hx with rfl | hx
        · exact List.prefix_refl _
        · exact (label_lt_of_mem hlabel hx).1
      refine (List.pairwise_iff_forall_sublist.mpr fun {c d} hcd => ?_)
      have hc := hcd.subset List.mem_cons_self
      have hd := hcd.subset (List.mem_cons_of_mem _ List.mem_cons_self)
      obtain ⟨l, hl⟩ := hlabel v c hc
      obtain ⟨m, hm⟩ := hlabel v d hd
      intro p hpc hpd
      have hne : label c ≠ label d := List.pairwise_iff_forall_sublist.mp hdistinct hcd
      have hlength : (label c).length = (label d).length := by simp [hl, hm]
      exact hne ((List.prefix_of_prefix_length_le (hbelow c p hpc) (hbelow d p hpd)
        hlength.le).eq_of_length hlength)

end Labels

/-- A position in the list is one in the walk below one of the children. -/
theorem flatMap_eq_append_cons {f : α → List β} {xs : List α} {pre post : List β} {y : β}
    (h : xs.flatMap f = pre ++ y :: post) : ∃ before x after inner rest,
      xs = before ++ x :: after ∧ f x = inner ++ y :: rest ∧ pre = before.flatMap f ++ inner := by
  induction xs generalizing pre with
  | nil => cases pre <;> cases h
  | cons x xs ih =>
    rw [List.flatMap_cons, List.append_eq_append_iff] at h
    rcases h with ⟨mid, rfl, hmid⟩ | ⟨mid, hmid, hrest⟩
    · obtain ⟨before, z, after, inner, rest, rfl, hz, rfl⟩ := ih hmid
      exact ⟨x :: before, z, after, inner, rest, rfl, hz, by rw [List.flatMap_cons,
        List.append_assoc]⟩
    · cases mid with
      | nil =>
        obtain ⟨before, z, after, inner, rest, rfl, hz, hpre⟩ := @ih [] hrest.symm
        refine ⟨x :: before, z, after, inner, rest, rfl, hz, ?_⟩
        rw [List.append_nil] at hmid
        rw [List.flatMap_cons, List.append_assoc, ← hpre, List.append_nil, hmid]
      | cons z mid =>
        obtain ⟨rfl, -⟩ := List.cons.inj hrest
        exact ⟨[], x, xs, pre, mid, rfl, hmid, rfl⟩

/-- A child is on the list before the nodes below it. -/
theorem exists_child_of_mem {label : α → List β}
    (hlabel : ∀ a, ∀ c ∈ children a, ∃ l, label c = label a ++ [l]) {fuel : Nat} {v x : α}
    {pre post : List α} (h : descendants children fuel v = pre ++ post) (hx : x ∈ pre) :
    ∃ c ∈ children v, c ∈ pre ∧ label c <+: label x := by
  cases fuel with
  | zero =>
    obtain ⟨rfl, -⟩ := List.append_eq_nil_iff.mp h.symm
    cases hx
  | succ fuel =>
    obtain ⟨pre, mid, rfl⟩ := List.append_of_mem hx
    rw [descendants, List.append_assoc, List.cons_append] at h
    obtain ⟨before, c, after, inner, rest, hchildren, hbelow, rfl⟩ := flatMap_eq_append_cons h
    have hc : c ∈ children v := by simp [hchildren]
    refine ⟨c, hc, ?_⟩
    cases inner with
    | nil =>
      obtain ⟨rfl, -⟩ := List.cons.inj hbelow
      exact ⟨hx, List.prefix_refl _⟩
    | cons d inner =>
      obtain ⟨rfl, hinner⟩ := List.cons.inj hbelow
      have hxbelow : x ∈ descendants children fuel c := by
        rw [hinner]
        exact List.mem_append_right _ List.mem_cons_self
      exact ⟨by simp, (label_lt_of_mem hlabel hxbelow).1⟩

end RhoFEM.Lib.Descendants
