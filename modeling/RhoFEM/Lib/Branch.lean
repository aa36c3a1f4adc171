import Mathlib

/-! Control flow of a list of basic blocks, and of the blocks a pass appends one
after the other: each tests a condition and leaves when it holds. -/

universe u

namespace RhoFEM.Lib.Branch

variable {Cond : Type u}

inductive Target
  | exit
  | block (index : Nat)
  deriving DecidableEq

inductive Terminator (Cond : Type u)
  | br : Target → Terminator Cond
  | condBr : Cond → Target → Target → Terminator Cond
  deriving DecidableEq

structure Block (Cond : Type u) where
  name : String
  terminator : Terminator Cond
  deriving DecidableEq

def Terminator.next (holds : Cond → Bool) : Terminator Cond → Target
  | .br t => t
  | .condBr c ifTrue ifFalse => if holds c then ifTrue else ifFalse

/-- The names of the blocks passed on the way to the exit; `none` when the fuel
does not reach the exit. -/
def passes (holds : Cond → Bool) (blocks : List (Block Cond)) :
    Nat → Target → Option (List String)
  | _, .exit => some []
  | 0, .block _ => none
  | fuel + 1, .block i =>
    match blocks[i]? with
    | none => none
    | some b => (passes holds blocks fuel (b.terminator.next holds)).map (b.name :: ·)

/-- Guards in a row from block `i` on: a guard that holds leaves the chain, one
that fails goes on to the next block, and the last block has no guard. -/
def guardChain (last : String) : Nat → List (String × Cond) → List (Block Cond)
  | _, [] => [⟨last, .br .exit⟩]
  | i, (name, c) :: gs => ⟨name, .condBr c .exit (.block (i + 1))⟩ :: guardChain last (i + 1) gs

def passedNames (holds : Cond → Bool) (last : String) : List (String × Cond) → List String
  | [] => [last]
  | (name, c) :: gs => if holds c then [name] else name :: passedNames holds last gs

@[simp] theorem guardChain_length (last : String) (i : Nat) (gs : List (String × Cond)) :
    (guardChain last i gs).length = gs.length + 1 := by
  induction gs generalizing i with
  | nil => rfl
  | cons g gs ih => simp [guardChain, ih]

theorem passes_guardChain (holds : Cond → Bool) (last : String) (gs : List (String × Cond))
    (pre : List (Block Cond)) (fuel : Nat) (h : gs.length < fuel) :
    passes holds (pre ++ guardChain last pre.length gs) fuel (.block pre.length) =
      some (passedNames holds last gs) := by
  induction gs generalizing pre fuel with
  | nil =>
    cases fuel with
    | zero => simp at h
    | succ fuel => simp [passes, guardChain, Terminator.next, passedNames]
  | cons g gs ih =>
    obtain ⟨name, c⟩ := g
    cases fuel with
    | zero => simp at h
    | succ fuel =>
      by_cases hc : holds c = true
      · simp [passes, guardChain, Terminator.next, passedNames, hc]
      · have hrest := ih (pre ++ [⟨name, .condBr c .exit (.block (pre.length + 1))⟩])
          fuel (by simpa using h)
        simp only [List.length_append, List.length_cons, List.length_nil, Nat.zero_add,
          List.append_assoc, List.cons_append, List.nil_append] at hrest
        simp [passes, guardChain, Terminator.next, passedNames, hc, hrest]

theorem last_mem_passedNames (holds : Cond → Bool) (last : String) (gs : List (String × Cond))
    (h : ∀ g ∈ gs, g.1 ≠ last) :
    last ∈ passedNames holds last gs ↔ ∀ g ∈ gs, holds g.2 = false := by
  induction gs with
  | nil => simp [passedNames]
  | cons g gs ih =>
    obtain ⟨name, c⟩ := g
    have hname : last ≠ name := fun e => h (name, c) (by simp) e.symm
    have hrest := ih (fun g hg => h g (by simp [hg]))
    cases hc : holds c <;> simp [passedNames, hc, hname, hrest]

end RhoFEM.Lib.Branch
