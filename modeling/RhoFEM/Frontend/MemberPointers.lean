import RhoFEM.Lib.Search
import RhoFEM.Lib.Straightline

/-! Constant member pointers, which the front end turns into code that asks for the new indices
of the methods. -/

namespace RhoFEM.Frontend

open RhoFEM.Lib.Fold RhoFEM.Lib.Search RhoFEM.Lib.Straightline

/-- A constant is known by its place in the table of all constants. -/
abbrev Ref := Nat

inductive ExprOpcode
  | select
  | getElementPtr
  | ptrToInt (width : Nat)
  | other (opcode : Nat)
  deriving DecidableEq

/-- A struct also stands for an array. -/
inductive UserKind
  | constantInt (value : Int)
  | constantMemberPointer (className : String)
  | constantExpr (opcode : ExprOpcode)
  | globalValue
  | constantVector
  | constantStruct
  | other
  deriving DecidableEq

structure User where
  kind : UserKind
  operands : List Ref
  deriving DecidableEq

def constantInt (table : List User) (r : Ref) : Option Int :=
  match table[r]? with
  | some ⟨.constantInt value, _⟩ => some value
  | _ => none

/-- A member pointer holds the index of the method in bytes, plus one, and the adjustment. -/
def User.WellFormed (table : List User) (u : User) : Bool :=
  match u.kind, u.operands with
  | .constantMemberPointer _, [ind, adj] =>
    (constantInt table ind).isSome && (constantInt table adj).isSome
  | .constantMemberPointer _, _ => false
  | _, _ => true

/-- Constants are made from older ones, except that the initializer of a global value may be set
later. -/
structure Users where
  table : List User
  ordered : ∀ u ∈ table.zipIdx, u.1.kind ≠ .globalValue → ∀ op ∈ u.1.operands, op < u.2
  wellFormed : ∀ u ∈ table, u.WellFormed table

namespace Users

variable (users : Users)

def operands (r : Ref) : List Ref := ((users.table[r]?).map User.operands).getD []

def kind (r : Ref) : UserKind := ((users.table[r]?).map User.kind).getD .other

def isMemberPointer (r : Ref) : Bool :=
  match users.kind r with
  | .constantMemberPointer _ => true
  | _ => false

variable {users}

theorem getElem?_of_mem_operands {r op : Ref} (h : op ∈ users.operands r) :
    ∃ u, users.table[r]? = some u ∧ users.kind r = u.kind ∧ users.operands r = u.operands := by
  cases hu : users.table[r]? with
  | none => simp [operands, hu] at h
  | some u => exact ⟨u, rfl, by simp [kind, hu], by simp [operands, hu]⟩

theorem operands_lt {r op : Ref} (hkind : users.kind r ≠ .globalValue)
    (hop : op ∈ users.operands r) : op < r := by
  obtain ⟨u, hu, huk, huo⟩ := getElem?_of_mem_operands hop
  exact users.ordered (u, r) (List.mem_zipIdx_iff_getElem?.mpr hu) (huk ▸ hkind) op (huo ▸ hop)

theorem operands_memberPointer {r : Ref} {className : String}
    (hkind : users.kind r = .constantMemberPointer className) :
    ∃ ind adj n m, users.operands r = [ind, adj] ∧ constantInt users.table ind = some n ∧
      constantInt users.table adj = some m := by
  cases hu : users.table[r]? with
  | none => simp [kind, hu] at hkind
  | some u =>
    have hwell := users.wellFormed u (List.mem_of_getElem? hu)
    have hukind : u.kind = .constantMemberPointer className := by simpa [kind, hu] using hkind
    rw [operands, hu]
    rw [User.WellFormed, hukind] at hwell
    split at hwell
    · rename_i ind adj _ hops
      obtain ⟨hind, hadj⟩ := Bool.and_eq_true_iff.mp hwell
      obtain ⟨n, hn⟩ := Option.isSome_iff_exists.mp hind
      obtain ⟨m, hm⟩ := Option.isSome_iff_exists.mp hadj
      exact ⟨ind, adj, n, m, hops, hn, hm⟩
    · cases hwell
    · rename_i hnot _
      exact absurd rfl (hnot className)

theorem kind_of_constantInt {r : Ref} {n : Int} (h : constantInt users.table r = some n) :
    users.kind r = .constantInt n := by
  unfold constantInt at h
  split at h
  · rename_i hu
    obtain rfl := Option.some.inj h
    rw [kind, hu]
    rfl
  · cases h

end Users

inductive UnfoldFailure
  | constChildModified
  | notConstantInt
  | selectOperands
  | unknownConstant
  | constantVector
  | unknownConstantType
  | outOfFuel
  deriving DecidableEq

/-- A constant of an operand: one of the table, or one that the rewriting makes. -/
inductive Const
  | user (r : Ref)
  | int (value : Int)
  | undef
  deriving DecidableEq

inductive Opcode
  | phi
  | getVtblIndex (className : String)
  | mul
  | add
  | insertValue (index : Nat)
  | expr (opcode : ExprOpcode)
  | other (opcode : Nat)
  deriving DecidableEq

def Opcode.isPhi : Opcode → Bool
  | .phi => true
  | _ => false

abbrev Value := Operand Const

abbrev Code := Builder Const Opcode

section Rewrite

variable (users : Users)

/-- Arguments and blocks have no operands. -/
def operandsOf (code : Code) : Value → List Value
  | .const (.user r) => (users.operands r).map fun op => .const (.user op)
  | .const _ => []
  | .inst id => code.operands id

def isConst : Value → Bool
  | .const _ => true
  | .inst _ => false

def isMemberPointer : Value → Bool
  | .const (.user r) => users.isMemberPointer r
  | _ => false

/-- The recursion over the users ends, because none is entered twice; the bound is on its depth. -/
def sdFold {T : Type} (callback : T → Nat → Value → T) (code : Code) :
    Nat → Value → T × List Value → Except UnfoldFailure (T × List Value)
  | 0, _, _ => .error .outOfFuel
  | fuel + 1, u, (next, seenUsers) =>
    if u ∈ seenUsers then .ok (next, seenUsers)
    else
      (operandsOf users code u).zipIdx.foldlM (fun st op =>
          let next := callback st.1 op.2 op.1
          if isConst op.1 then sdFold callback code fuel op.1 (next, st.2) else .ok (next, st.2))
        (next, seenUsers ++ [u])

def sdIsmemptr (isMemptr : Bool) (_ind : Nat) (val : Value) : Bool :=
  isMemptr || isMemberPointer users val

def sdContainsMemptr (fuel : Nat) (code : Code) (c : Value) : Except UnfoldFailure Bool :=
  if isMemberPointer users c then .ok true
  else (sdFold users (sdIsmemptr users) code fuel c (false, [])).map Prod.fst

/-- The recursion over the operands also goes into instructions and into the initializers of
global values. -/
def sdMap (callback : Value → List Value → Code → Except UnfoldFailure (Value × Code)) :
    Nat → Value → Code → Except UnfoldFailure (Value × Code)
  | 0, _, _ => .error .outOfFuel
  | fuel + 1, u, code => do
    let (children, code) ← threadM (sdMap callback fuel) (operandsOf users code u) code
    callback u children code

/-- The code for a member pointer other than null. -/
def unfoldMemberPointer (oldIndInt : Int) (adj : Ref) (className : String) (code : Code) :
    Value × Code :=
  let (newInd, code) := code.emit (.getVtblIndex className)
    [.const (.int ((oldIndInt - 1).tdiv 8))]
  let (newInd, code) := code.emit .mul [newInd, .const (.int 8)]
  let (newInd, code) := code.emit .add [newInd, .const (.int 1)]
  let (newMPtr, code) := code.emit (.insertValue 0) [.const .undef, newInd]
  code.emit (.insertValue 1) [newMPtr, .const (.user adj)]

/-- The part of the loop over the elements of a struct for one of them. -/
def insertChild (st : Value × Code) (child : Value × Nat) : Value × Code :=
  if isConst child.1 then st else st.2.emit (.insertValue child.2) [st.1, child.1]

def unfoldConst (fuel : Nat) (root : Ref) (children : List Value) (code : Code) :
    Except UnfoldFailure (Value × Code) :=
  let unchanged : Value := .const (.user root)
  match users.kind root with
  | .constantMemberPointer className =>
    match users.operands root with
    | ind :: adj :: _ =>
      match constantInt users.table ind with
      | none => .error .notConstantInt
      | some oldIndInt =>
        if oldIndInt = 0 then .ok (unchanged, code)
        else .ok (unfoldMemberPointer oldIndInt adj className code)
    | _ => .error .notConstantInt
  | kind =>
    if children.all isConst then .ok (unchanged, code)
    else
      match kind with
      | .constantExpr .select =>
        if children.length ≠ 3 then .error .selectOperands
        else .ok (code.emit (.expr .select) children)
      | .constantExpr (.other _) => .error .unknownConstant
      | .constantExpr opcode => .ok (code.emit (.expr opcode) children)
      | .globalValue => .ok (unchanged, code)
      | .constantStruct => .ok (children.zipIdx.foldl insertChild (unchanged, code))
      | .constantVector => do
        if ← sdContainsMemptr users fuel code unchanged then throw .constantVector
        return (unchanged, code)
      | _ => do
        if ← sdContainsMemptr users fuel code unchanged then throw .unknownConstantType
        return (unchanged, code)

def sdUnfoldMapCb (fuel : Nat) (root : Value) (children : List Value) (code : Code) :
    Except UnfoldFailure (Value × Code) :=
  if ¬ ∀ child ∈ children.zip (operandsOf users code root), isConst child.1 →
      child.1 = child.2 then .error .constChildModified
  else
    match root with
    | .const (.user r) => unfoldConst users fuel r children code
    | .const _ => .ok (root, code)
    | .inst id => .ok (root, code.setOperands id children)

/-- The part of the loop over the operands of an instruction for one of them. -/
def rewriteOperand (fuel : Nat) (id : Nat) (code : Code) (i : Nat) :
    Except UnfoldFailure Code :=
  match (code.operands id)[i]? with
  | none => .ok code
  | some arg => do
    if ← sdContainsMemptr users fuel code arg then
      let (value, code) ← sdMap users (sdUnfoldMapCb users fuel) fuel arg code
      return code.setOperands id ((code.operands id).set i value)
    else return code

def rewriteInstruction (fuel : Nat) (code : Code) (inst : Instruction Opcode) :
    Except UnfoldFailure Code := do
  let code ← (List.range (code.operands inst.id).length).foldlM
    (rewriteOperand users fuel inst.id) code
  return code.place inst

def rewriteBlock (fuel : Nat) (block : List (Instruction Opcode)) (code : Code) :
    Except UnfoldFailure (List (Instruction Opcode) × Code) := do
  let code ← block.foldlM (rewriteInstruction users fuel) { code with emitted := [] }
  return (code.emitted, code)

/-- The instructions of all blocks of the module. -/
def sdRewriteMPtrToIntrinsics (fuel : Nat) (blocks : List (List (Instruction Opcode)))
    (code : Code) : Except UnfoldFailure (List (List (Instruction Opcode)) × Code) :=
  threadM (rewriteBlock users fuel) blocks code

end Rewrite

/-- What becomes of the first field of a member pointer, which is zero or the offset of the method
in bytes, plus one. -/
def newOffset (getVtblIndex : Int → Int) (ind : Int) : Int :=
  if ind = 0 then 0 else getVtblIndex ((ind - 1).tdiv 8) * 8 + 1

/-- What the values and the instructions mean. -/
structure Semantics (S V : Type) where
  int : Int → V
  undef : V
  leaf : Ref → V
  aggregate : List V → V
  vector : List V → V
  expr : ExprOpcode → List V → V
  insertValue : V → Nat → V → V
  exec : S → Opcode → List V → S × V

namespace Semantics

variable {S V : Type} (sem : Semantics S V)

/-- Instructions of the rewriting have no effects; `getVtblIndex` stands for what later passes
make of the intrinsic. -/
structure Lawful (getVtblIndex : String → Int → Int) : Prop where
  getVtblIndex : ∀ s className ind, sem.exec s (.getVtblIndex className) [sem.int ind] =
    (s, sem.int (getVtblIndex className ind))
  mul : ∀ s n m, sem.exec s .mul [sem.int n, sem.int m] = (s, sem.int (n * m))
  add : ∀ s n m, sem.exec s .add [sem.int n, sem.int m] = (s, sem.int (n + m))
  exec_expr : ∀ s opcode vs, sem.exec s (.expr opcode) vs = (s, sem.expr opcode vs)
  exec_insertValue : ∀ s i agg v,
    sem.exec s (.insertValue i) [agg, v] = (s, sem.insertValue agg i v)
  insertValue_aggregate : ∀ vs i v, i < vs.length →
    sem.insertValue (sem.aggregate vs) i v = sem.aggregate (vs.set i v)
  insertValue_undef : ∀ v w,
    sem.insertValue (sem.insertValue sem.undef 0 v) 1 w = sem.aggregate [v, w]

/-- A member pointer as it stands. -/
def oldPointer (_className : String) (ind adj : Int) : V := sem.aggregate [sem.int ind, sem.int adj]

/-- A member pointer with the new index of its method. -/
def newPointer (getVtblIndex : String → Int → Int) (className : String) (ind adj : Int) : V :=
  sem.aggregate [sem.int (newOffset (getVtblIndex className) ind), sem.int adj]

/-- The value of a constant from those of its operands, where `pointer` gives the values of the
member pointers. -/
def node (users : Users) (pointer : String → Int → Int → V) (value : Ref → V) (r : Ref) : V :=
  match users.kind r, users.operands r with
  | .constantInt n, _ => sem.int n
  | .constantMemberPointer className, [ind, adj] =>
    match constantInt users.table ind, constantInt users.table adj with
    | some n, some m => pointer className n m
    | _, _ => sem.leaf r
  | .constantExpr opcode, operands => sem.expr opcode (operands.map value)
  | .constantVector, operands => sem.vector (operands.map value)
  | .constantStruct, operands => sem.aggregate (operands.map value)
  | _, _ => sem.leaf r

def denote (users : Users) (pointer : String → Int → Int → V) : Ref → V :=
  valueAt (sem.node users pointer) sem.undef

/-- The values without and with the new indices in the member pointers. -/
abbrev oldValue (users : Users) : Ref → V := sem.denote users sem.oldPointer

abbrev newValue (users : Users) (getVtblIndex : String → Int → Int) : Ref → V :=
  sem.denote users (sem.newPointer getVtblIndex)

def constant (users : Users) (pointer : String → Int → Int → V) : Const → V
  | .user r => sem.denote users pointer r
  | .int n => sem.int n
  | .undef => sem.undef

theorem node_congr {users : Users} (pointer : String → Int → Int → V) {r : Ref} {g g' : Ref → V}
    (h : users.kind r ≠ .globalValue → ∀ op ∈ users.operands r, g op = g' op) :
    sem.node users pointer g r = sem.node users pointer g' r := by
  have hmap : users.kind r ≠ .globalValue →
      (users.operands r).map g = (users.operands r).map g' :=
    fun hkind => List.map_congr_left (h hkind)
  unfold node
  split
  · rfl
  · rfl
  · rename_i hkind
    rw [hmap (by rw [hkind]; exact fun hglobal => by cases hglobal)]
  · rename_i hkind
    rw [hmap (by rw [hkind]; exact fun hglobal => by cases hglobal)]
  · rename_i hkind
    rw [hmap (by rw [hkind]; exact fun hglobal => by cases hglobal)]
  · rfl

theorem denote_eq (users : Users) (pointer : String → Int → Int → V) (r : Ref) :
    sem.denote users pointer r = sem.node users pointer (sem.denote users pointer) r := by
  exact valueAt_eq _ _ fun g g' hg =>
    sem.node_congr pointer fun hkind op hop => hg op (users.operands_lt hkind hop)

theorem denote_constantInt {users : Users} (pointer : String → Int → Int → V) {r : Ref} {n : Int}
    (h : constantInt users.table r = some n) : sem.denote users pointer r = sem.int n := by
  rw [denote_eq, node, Users.kind_of_constantInt h]

end Semantics

end RhoFEM.Frontend
