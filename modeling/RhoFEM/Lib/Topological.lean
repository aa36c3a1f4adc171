import RhoFEM.Lib.Search

/-! Lists in which every node stands before its children. -/

universe u

namespace RhoFEM.Lib.Topological

open RhoFEM.Lib.Search

variable {α : Type u} {children : α → List α}

/-- The children of each node follow it. -/
def ChildrenAfter (children : α → List α) : List α → Prop
  | [] => True
  | x :: rest => (∀ c ∈ children x, c ∈ rest) ∧ ChildrenAfter children rest

theorem ChildrenAfter.of_append {pre post : List α} (h : ChildrenAfter children (pre ++ post)) :
    ChildrenAfter children post := by
  induction pre with
  | nil => exact h
  | cons x pre ih => exact ih h.2

theorem ChildrenAfter.closed {l : List α} (h : ChildrenAfter children l) {x c : α} (hx : x ∈ l)
    (hc : c ∈ children x) : c ∈ l := by
  obtain ⟨pre, post, rfl⟩ := List.append_of_mem hx
  have hpost := h.of_append.1 c hc
  simp [hpost]

theorem ChildrenAfter.reaches {l : List α} (h : ChildrenAfter children l) {x y : α} (hx : x ∈ l)
    (hxy : Reaches children x y) : y ∈ l := by
  induction hxy with
  | refl => exact hx
  | tail _ hc ih => exact h.closed ih hc

/-- Whatever is reached from a node follows it. -/
theorem ChildrenAfter.descendant {pre post : List α} {x y : α}
    (h : ChildrenAfter children (pre ++ x :: post))
    (hxy : Relation.TransGen (fun a b => b ∈ children a) x y) : y ∈ post := by
  have hlast := h.of_append
  induction hxy with
  | single hc => exact hlast.1 _ hc
  | tail _ hc ih => exact hlast.2.closed ih hc

theorem ChildrenAfter.idxOf_lt [BEq α] [LawfulBEq α] {l : List α} (h : ChildrenAfter children l)
    (hnodup : l.Nodup) {x y : α} (hx : x ∈ l)
    (hxy : Relation.TransGen (fun a b => b ∈ children a) x y) : l.idxOf x < l.idxOf y := by
  obtain ⟨pre, post, rfl⟩ := List.append_of_mem hx
  obtain ⟨-, htail, hdisjoint⟩ := List.nodup_append.mp hnodup
  have hy := h.descendant hxy
  have hxpre : x ∉ pre := fun hmem => hdisjoint x hmem x List.mem_cons_self rfl
  have hypre : y ∉ pre := fun hmem => hdisjoint y hmem y (List.mem_cons_of_mem _ hy) rfl
  have hne : x ≠ y := fun heq => (List.nodup_cons.mp htail).1 (heq ▸ hy)
  rw [List.idxOf_append_of_notMem hxpre, List.idxOf_append_of_notMem hypre, List.idxOf_cons_self,
    List.idxOf_cons_ne _ hne]
  omega

end RhoFEM.Lib.Topological
