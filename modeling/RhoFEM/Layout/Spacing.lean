import RhoFEM.Layout.Padded

/-! The distances between the address points of an ordered cloud. -/

namespace RhoFEM.Layout

open RhoFEM.CHA RhoFEM.Lib.Fold RhoFEM.Lib.Rounds

theorem alignUp_add {max n : Nat} (hn : n % max = 0) (k : Nat) :
    alignUp max (n + k) = n + alignUp max k := by
  have hmod : (n + k) % max = k % max := by rw [Nat.add_mod, hn, Nat.zero_add, Nat.mod_mod]
  rw [alignUp, alignUp, hmod, Nat.add_assoc]

theorem alignUp_of_le {max n : Nat} (hpos : 0 < n) (hle : n ≤ max) : alignUp max n = max := by
  rcases hle.lt_or_eq with hlt | rfl
  · rw [alignUp, Nat.mod_eq_of_lt hlt, if_neg hpos.ne']
    omega
  · rw [alignUp, Nat.mod_self, if_pos rfl, Nat.add_zero]

section Spacing

variable {cha : SDBuildCHA} {max : Nat}

/-- The elements from the address point on. -/
def sizeAfter (cha : SDBuildCHA) (v : Vtbl) : Nat := (cha.getRange v).2 - cha.addrPt v + 1

theorem orderedIndex_filter (length : Nat) (nodes : List Vtbl) (v : Vtbl) :
    orderedIndex cha max length nodes v =
      orderedIndex cha max length (nodes.filter cha.isDefined) v := by
  induction nodes generalizing length with
  | nil => rfl
  | cons n nodes ih =>
    by_cases hn : cha.isDefined n
    · have hundef : ¬ cha.isUndefined n := SDBuildCHA.isDefined_iff.mp hn
      rw [List.filter_cons_of_pos hn, orderedIndex, orderedIndex, if_neg hundef, if_neg hundef, ih]
    · have hundef : cha.isUndefined n := by simpa [SDBuildCHA.isDefined] using hn
      rw [List.filter_cons_of_neg hn, orderedIndex, if_pos hundef, ih]

theorem orderedLength_eq {v : Vtbl} (hstart : (cha.getRange v).1 ≤ cha.addrPt v)
    (hstop : cha.addrPt v ≤ (cha.getRange v).2) (length : Nat) :
    orderedLength cha max length v = orderedAddrPt cha max length v + sizeAfter cha v := by
  have hle : length + (cha.addrPt v - (cha.getRange v).1) ≤ orderedAddrPt cha max length v :=
    le_alignUp max _
  rw [orderedLength, sizeAfter]
  omega

/-- From one defined node to the next there is room for an end and a start. -/
theorem orderedIndex_succ (hmax : 0 < max) {nodes : List Vtbl} (hnodes : nodes.Nodup)
    (hdef : ∀ v ∈ nodes, cha.isDefined v)
    (hrange : ∀ v ∈ nodes, (cha.getRange v).1 ≤ cha.addrPt v ∧ cha.addrPt v ≤ (cha.getRange v).2)
    {k : Nat} {v w : Vtbl} (hv : nodes[k]? = some v) (hw : nodes[k + 1]? = some w)
    (length : Nat) :
    orderedIndex cha max length nodes w = orderedIndex cha max length nodes v +
      alignUp max (sizeAfter cha v + sizeBefore cha w) := by
  induction nodes generalizing length k with
  | nil => cases hv
  | cons n nodes ih =>
    obtain ⟨hn, hrest⟩ := List.nodup_cons.mp hnodes
    have hundef : ∀ x ∈ n :: nodes, ¬ cha.isUndefined x :=
      fun x hx => SDBuildCHA.isDefined_iff.mp (hdef x hx)
    have hnw : n ≠ w := by
      rintro rfl
      exact hn (List.mem_of_getElem? hw)
    rw [List.getElem?_cons_succ] at hw
    rw [orderedIndex, orderedIndex, if_neg (hundef n List.mem_cons_self), if_neg hnw]
    cases k with
    | zero =>
      obtain rfl : n = v := by simpa using hv
      obtain ⟨rest, rfl⟩ : ∃ rest, nodes = w :: rest := by
        cases nodes with
        | nil => cases hw
        | cons x rest =>
          rw [List.getElem?_cons_zero, Option.some.injEq] at hw
          exact ⟨rest, by rw [hw]⟩
      obtain ⟨hstart, hstop⟩ := hrange n List.mem_cons_self
      have hmod : orderedAddrPt cha max length n % max = 0 := alignUp_eq_zero_mod hmax _
      rw [if_neg (hundef n List.mem_cons_self), if_pos rfl, orderedIndex,
        if_neg (hundef w (by simp)), if_pos rfl, orderedLength_eq hstart hstop,
        ← alignUp_add hmod, orderedAddrPt, Nat.add_assoc]
      rfl
    | succ k =>
      rw [List.getElem?_cons_succ] at hv
      have hnv : n ≠ v := by
        rintro rfl
        exact hn (List.mem_of_getElem? hv)
      rw [if_neg (hundef n List.mem_cons_self), if_neg hnv]
      exact ih hrest (fun x hx => hdef x (List.mem_cons_of_mem _ hx))
        (fun x hx => hrange x (List.mem_cons_of_mem _ hx)) hv hw _

/-- The block of a sub-vtable begins as far before its address point as in the old vtable. -/
theorem ordered_getElem? {nodes : List Vtbl} (hnodes : nodes.Nodup) {v : Vtbl}
    (hv : v ≠ dummyVtable) (hmem : v ∈ nodes) (hdef : cha.isDefined v) {k : Nat}
    (hk : k < (cha.getRange v).2 - (cha.getRange v).1 + 1) :
    (nodes.foldl (orderChild cha max) [])[orderedIndex cha max 0 nodes v -
      (cha.addrPt v - (cha.getRange v).1) + k]? =
        some (v, (((cha.getRange v).1 + k : Nat) : ℤ)) := by
  have hbind := positions_bind_getElem? (fun e : Interleaving => e.1 = v)
    (nodes.foldl (orderChild cha max) []) k
  have hfilter := @filter_ordered cha max _ hnodes _ hv []
  have hpositions := positions_ordered max hnodes hv hmem hdef []
  have hnil : positions (fun e : Interleaving => e.1 = v) [] = [] := rfl
  rw [if_pos ⟨hmem, hdef⟩, List.filter_nil, List.nil_append] at hfilter
  rw [hnil, List.nil_append, List.length_nil] at hpositions
  rwa [hpositions, hfilter, block, List.getElem?_map, List.getElem?_map, List.getElem?_range hk]
    at hbind

end Spacing

end RhoFEM.Layout
