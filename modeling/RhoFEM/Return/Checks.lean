import RhoFEM.Lib.Branch
import RhoFEM.Return.Annotation

/-! The control flow that `SDReturnChecks` puts before every return. -/

namespace RhoFEM.Return

open RhoFEM.Lib.Branch

structure FunctionInfo where
  name : String
  ids : List Nat := []
  typeID : Int := -1
  deriving DecidableEq

inductive Value
  | const (n : BitVec 32)
  /-- The word loaded through `offsetFirstNOP`. -/
  | minID
  /-- The word loaded through `offsetSecondNOP`. -/
  | width
  | sub (a b : Value)
  deriving DecidableEq

inductive Condition
  | icmpEQ (a b : Value)
  | icmpUGT (a b : Value)
  | icmpULE (a b : Value)
  | returnAddressUGT (memRange : BitVec 64)
  deriving DecidableEq

def offsetFirstNOP : Nat := 3
def offsetSecondNOP : Nat := 3 + 7

def Value.eval (site : ReturnSite) : Value → BitVec 32
  | .const n => n
  | .minID => site.load offsetFirstNOP
  | .width => site.load offsetSecondNOP
  | .sub a b => a.eval site - b.eval site

def Condition.Holds (site : ReturnSite) : Condition → Prop
  | .icmpEQ a b => a.eval site = b.eval site
  | .icmpUGT a b => b.eval site < a.eval site
  | .icmpULE a b => a.eval site ≤ b.eval site
  | .returnAddressUGT memRange => memRange < site.address

instance (site : ReturnSite) : DecidablePred (Condition.Holds site) := fun c =>
  match c with
  | .icmpEQ a b => inferInstanceAs (Decidable (a.eval site = b.eval site))
  | .icmpUGT a b => inferInstanceAs (Decidable (b.eval site < a.eval site))
  | .icmpULE a b => inferInstanceAs (Decidable (a.eval site ≤ b.eval site))
  | .returnAddressUGT memRange => inferInstanceAs (Decidable (memRange < site.address))

/-- The checks before one return: the branch that ends the block of the return,
and the blocks made for it.  The exit is the block that holds the return. -/
structure ReturnCheck where
  head : Terminator Condition
  blocks : List (Block Condition)
  deriving DecidableEq

/-- `SplitBlockAndInsertIfThen`: the new block is the true successor. -/
def splitBlockAndInsertIfThen (check : Condition) : Terminator Condition :=
  .condBr check (.block 0) .exit

def insertChecks (check : Condition) (guards : List (String × Condition)) : ReturnCheck :=
  ⟨splitBlockAndInsertIfThen check, guardChain "sd.fail" 0 guards⟩

def memRange : BitVec 64 := 0x2000000
def unknownMagicNumber : BitVec 32 := 0x7FFFF

/-- External, indirect and unknown calls, for functions whose address is taken. -/
def addressTakenChecks (F : Function) (info : FunctionInfo) : List (String × Condition) :=
  if F.hasAddressTaken && info.typeID != -1 then
    [("sd.external", .returnAddressUGT memRange),
      ("sd.indirect", .icmpEQ .minID (.const (BitVec.ofInt 32 info.typeID))),
      ("sd.indirect2", .icmpEQ .minID (.const unknownMagicNumber))]
  else []

def idDiff (id : Nat) : Value := .sub (.const (tagged id)) .minID

def rangeChecks (ids : List Nat) : List (String × Condition) :=
  ids.map fun id => ("sd.range", .icmpULE (idDiff id) .width)

def generateRangeChecks (F : Function) (info : FunctionInfo) : List ReturnCheck :=
  match info.ids with
  | [] => []
  | id :: ids => F.returns.map fun _ =>
    insertChecks (.icmpUGT (idDiff id) .width) (rangeChecks ids ++ addressTakenChecks F info)

def generateCompareChecks (F : Function) (info : FunctionInfo) : List ReturnCheck :=
  match info.ids with
  | [] => []
  | id :: _ => F.returns.map fun _ =>
    insertChecks (.icmpEQ (.const (tagged id)) .minID) (addressTakenChecks F info)

inductive ProcessingInfoType
  | static
  | virtual
  | blackListed
  deriving DecidableEq

/-- The checks that `processFunction` emits for a function of the given type. -/
def generateChecks (F : Function) (info : FunctionInfo) : ProcessingInfoType → List ReturnCheck
  | .static => generateCompareChecks F info
  | .virtual => generateRangeChecks F info
  | .blackListed => []

namespace ReturnCheck

/-- The blocks passed before the return, when control returns to `site`. -/
def run (check : ReturnCheck) (site : ReturnSite) : Option (List String) :=
  passes (fun c => c.Holds site) check.blocks check.blocks.length
    (check.head.next fun c => c.Holds site)

def AvoidsFail (check : ReturnCheck) (site : ReturnSite) : Prop :=
  ∃ names, check.run site = some names ∧ "sd.fail" ∉ names

def EntersFail (check : ReturnCheck) (site : ReturnSite) : Prop :=
  ∃ names, check.run site = some names ∧ "sd.fail" ∈ names

end ReturnCheck

theorem run_insertChecks (check : Condition) (guards : List (String × Condition))
    (site : ReturnSite) :
    (insertChecks check guards).run site =
      some (if check.Holds site then passedNames (fun c => c.Holds site) "sd.fail" guards
        else []) := by
  by_cases hc : check.Holds site
  · have := passes_guardChain (fun c => c.Holds site) "sd.fail" guards []
      (guards.length + 1) (by omega)
    simpa [ReturnCheck.run, insertChecks, splitBlockAndInsertIfThen, Terminator.next, hc] using this
  · simp [ReturnCheck.run, insertChecks, splitBlockAndInsertIfThen, Terminator.next, hc, passes]

theorem guard_names_ne_fail (ids : List Nat) (F : Function) (info : FunctionInfo) :
    ∀ g ∈ rangeChecks ids ++ addressTakenChecks F info, g.1 ≠ "sd.fail" := by
  intro g hg
  rcases List.mem_append.mp hg with hg | hg
  · obtain ⟨id, -, rfl⟩ := List.mem_map.mp hg
    simp
  · unfold addressTakenChecks at hg
    split at hg
    · simp only [List.mem_cons, List.not_mem_nil, or_false] at hg
      rcases hg with rfl | rfl | rfl <;> simp
    · simp at hg

theorem insertChecks_entersFail {check : Condition} {guards : List (String × Condition)}
    {site : ReturnSite} (hguards : ∀ g ∈ guards, g.1 ≠ "sd.fail") :
    (insertChecks check guards).EntersFail site ↔
      check.Holds site ∧ ∀ g ∈ guards, ¬ g.2.Holds site := by
  rw [ReturnCheck.EntersFail, run_insertChecks]
  by_cases hc : check.Holds site
  · simpa [hc] using last_mem_passedNames (fun c => c.Holds site) "sd.fail" guards hguards
  · simp [hc]

theorem insertChecks_avoidsFail {check : Condition} {guards : List (String × Condition)}
    {site : ReturnSite} :
    (insertChecks check guards).AvoidsFail site ↔
      ¬ (insertChecks check guards).EntersFail site := by
  simp [ReturnCheck.AvoidsFail, ReturnCheck.EntersFail, run_insertChecks]

/-- A function has one block chain for each of its returns. -/
theorem generateRangeChecks_length {F : Function} {info : FunctionInfo} (h : info.ids ≠ []) :
    (generateRangeChecks F info).length = F.returns.length := by
  unfold generateRangeChecks
  split <;> simp_all

theorem generateCompareChecks_length {F : Function} {info : FunctionInfo} (h : info.ids ≠ []) :
    (generateCompareChecks F info).length = F.returns.length := by
  unfold generateCompareChecks
  split <;> simp_all

/-- One of the extra conditions of an address-taken function lets the return pass. -/
def AddressTakenPass (F : Function) (info : FunctionInfo) (site : ReturnSite) : Prop :=
  F.hasAddressTaken = true ∧ info.typeID ≠ -1 ∧
    (memRange < site.address ∨ site.load offsetFirstNOP = BitVec.ofInt 32 info.typeID ∨
      site.load offsetFirstNOP = unknownMagicNumber)

theorem addressTakenChecks_fail {F : Function} {info : FunctionInfo} {site : ReturnSite} :
    (∀ g ∈ addressTakenChecks F info, ¬ g.2.Holds site) ↔ ¬ AddressTakenPass F info site := by
  unfold addressTakenChecks AddressTakenPass
  by_cases h : (F.hasAddressTaken && info.typeID != -1) = true
  · obtain ⟨ha, ht⟩ : F.hasAddressTaken = true ∧ info.typeID ≠ -1 := by simpa using h
    simp [ha, ht, Condition.Holds, Value.eval]
  · have : ¬ (F.hasAddressTaken = true ∧ info.typeID ≠ -1) := by simpa using h
    simp only [h]
    constructor
    · rintro - ⟨ha, ht, -⟩
      exact this ⟨ha, ht⟩
    · simp

/-- What decides a return of a function with identifier list `ids`: some
identifier is in the range that the two words describe, or an extra condition holds. -/
theorem generateRangeChecks_avoidsFail {F : Function} {info : FunctionInfo} {site : ReturnSite}
    {check : ReturnCheck} (h : check ∈ generateRangeChecks F info) :
    check.AvoidsFail site ↔
      (∃ id ∈ info.ids, tagged id - site.load offsetFirstNOP ≤ site.load offsetSecondNOP) ∨
        AddressTakenPass F info site := by
  unfold generateRangeChecks at h
  split at h
  · simp at h
  · rename_i id ids hids
    obtain ⟨-, -, rfl⟩ := List.mem_map.mp h
    have hrange : (∀ g ∈ rangeChecks ids, ¬ g.2.Holds site) ↔
        ∀ x ∈ ids, ¬ tagged x - site.load offsetFirstNOP ≤ site.load offsetSecondNOP := by
      simp [rangeChecks, Condition.Holds, idDiff, Value.eval]
    have hfirst : (Condition.icmpUGT (idDiff id) .width).Holds site ↔
        ¬ tagged id - site.load offsetFirstNOP ≤ site.load offsetSecondNOP := by
      simp [Condition.Holds, idDiff, Value.eval]
    rw [insertChecks_avoidsFail, insertChecks_entersFail (guard_names_ne_fail ids F info), hids,
      List.forall_mem_append, addressTakenChecks_fail, hrange, hfirst]
    simp only [List.mem_cons, exists_eq_or_imp]
    grind

theorem generateCompareChecks_entersFail {F : Function} {info : FunctionInfo} {site : ReturnSite}
    {check : ReturnCheck} (h : check ∈ generateCompareChecks F info) :
    check.EntersFail site ↔
      (∃ id, info.ids.head? = some id ∧ tagged id = site.load offsetFirstNOP) ∧
        ¬ AddressTakenPass F info site := by
  unfold generateCompareChecks at h
  split at h
  · simp at h
  · rename_i id ids hids
    obtain ⟨-, -, rfl⟩ := List.mem_map.mp h
    have hnames : ∀ g ∈ addressTakenChecks F info, g.1 ≠ "sd.fail" :=
      fun g hg => guard_names_ne_fail [] F info g (by simpa [rangeChecks] using hg)
    rw [insertChecks_entersFail hnames, addressTakenChecks_fail, hids]
    simp [Condition.Holds, Value.eval]

end RhoFEM.Return
