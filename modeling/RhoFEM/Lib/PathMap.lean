import Mathlib

/-! Maps with an order of entries that assignments keep, and the entry under the longest
initial segment of a path. -/

universe u v

namespace RhoFEM.Lib.PathMap

section Assign

variable {κ : Type u} {β : Type v} [DecidableEq κ]

def assign (k : κ) (v : β) : List (κ × β) → List (κ × β)
  | [] => [(k, v)]
  | (k', v') :: map => if k' = k then (k, v) :: map else (k', v') :: assign k v map

variable [BEq κ] [LawfulBEq κ]

theorem lookup_cons_eq (k k' : κ) (v : β) (map : List (κ × β)) :
    ((k, v) :: map).lookup k' = if k' = k then some v else map.lookup k' := by
  rw [List.lookup_cons]
  by_cases heq : k' = k
  · rw [beq_iff_eq.mpr heq, if_pos heq]
  · rw [beq_false_of_ne heq, if_neg heq]

theorem lookup_assign (k k' : κ) (v : β) (map : List (κ × β)) :
    (assign k v map).lookup k' = if k' = k then some v else map.lookup k' := by
  induction map with
  | nil => exact lookup_cons_eq k k' v []
  | cons entry map ih =>
    obtain ⟨a, w⟩ := entry
    rw [assign]
    split
    · rename_i heq
      rw [lookup_cons_eq, lookup_cons_eq, heq]
      split <;> rfl
    · rename_i hne
      rw [lookup_cons_eq, lookup_cons_eq, ih]
      by_cases hk : k' = a
      · rw [if_pos hk, if_pos hk, if_neg fun heq => hne (hk ▸ heq)]
      · rw [if_neg hk, if_neg hk]

end Assign

section Longest

variable {α : Type u} {β : Type v} [DecidableEq α] {map : List (List α × β)} {path : List α}

def lookupLongest (map : List (List α × β)) (path : List α) : Option β :=
  path.inits.reverse.findSome? fun init => map.lookup init

theorem lookupLongest_eq_none :
    lookupLongest map path = none ↔ ∀ init, init <+: path → map.lookup init = none := by
  simp [lookupLongest, List.findSome?_eq_none_iff, List.mem_inits]

theorem exists_of_lookupLongest {v : β} (h : lookupLongest map path = some v) :
    ∃ init, init <+: path ∧ map.lookup init = some v := by
  obtain ⟨init, hinit, hlookup⟩ := List.exists_of_findSome?_eq_some h
  exact ⟨init, (List.mem_inits _ _).mp (List.mem_reverse.mp hinit), hlookup⟩

theorem lookupLongest_of_lookup {v : β} (h : map.lookup path = some v) :
    lookupLongest map path = some v := by
  have hlast : path.inits.reverse.head? = some path := by
    induction path using List.reverseRecOn with
    | nil => rfl
    | append_singleton path a _ => simp [List.inits_append]
  obtain ⟨rest, hrest⟩ := List.head?_eq_some_iff.mp hlast
  rw [lookupLongest, hrest, List.findSome?_cons, h]

end Longest

end RhoFEM.Lib.PathMap
