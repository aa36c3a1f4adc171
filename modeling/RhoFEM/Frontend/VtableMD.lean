import RhoFEM.CHA.Hierarchy
import RhoFEM.CHA.Metadata

/-! The class metadata that `sd_insertVtableMD` writes while the vtables of a module are
emitted. -/

namespace RhoFEM.Frontend

open RhoFEM.Lib.Fold RhoFEM.Lib.Search RhoFEM.Lib.StringRef
open RhoFEM.CHA

structure BaseSubobject (Class : Type) where
  base : Class
  baseOffset : Nat
  deriving DecidableEq

inductive VTableComponent (Method : Type)
  | functionPointer (method : Method)
  | unusedFunctionPointer (method : Method)
  | completeDtorPointer (method : Method)
  | deletingDtorPointer (method : Method)
  | other

def VTableComponent.method {Method : Type} : VTableComponent Method → Option Method
  | .functionPointer method => some method
  | .unusedFunctionPointer method => some method
  | .completeDtorPointer method => some method
  | .deletingDtorPointer method => some method
  | .other => none

structure VTableLayout (Class Method : Type) where
  components : List (VTableComponent Method)
  addressPoints : List (BaseSubobject Class × Nat)
  inheritanceMap : List (List Class × Nat)
  mostDerived : Class
  layoutClass : Class

/-- The assertions of the front end, and the bound on its recursion. -/
inductive EmitFailure
  | pathNotInMap
  | addressPointsNotSorted
  | startExceedsAddressPoint
  | addressPointOutside
  | ownParent
  | componentsLeft
  | outOfFuel
  deriving DecidableEq

namespace VTableLayout

variable {Class Method : Type} [DecidableEq Class] (layout : VTableLayout Class Method)

/-- The address points in increasing order. -/
def addressPointOrder : List Nat :=
  layout.addressPoints.foldl (fun points it => insertInto (fun a b => a < b) it.2 points) []

def getAddressPoint (order : Nat) : Nat := (layout.addressPointOrder[order]?).getD 0

def getOrder (path : List Class) : Except EmitFailure Nat :=
  match layout.inheritanceMap.lookup path with
  | some order => .ok order
  | none => .error .pathNotInMap

def isConstructionLayout : Bool := layout.mostDerived ≠ layout.layoutClass

def parentInheritancePath (path : List Class) : List Class :=
  if layout.isConstructionLayout then layout.mostDerived :: path else path

end VTableLayout

def isVtableName (name : String) : Bool :=
  if name.length ≤ 4 then false
  else if startswith name "_ZTV" || startswith name "_ZTC" then
    let rest := String.ofList (name.toList.drop 4)
    !startswith rest "S" && !startswith rest "N10__cxxabiv"
  else false

/-- The dynamic classes of a program, with the names and the layouts that Clang computes. -/
structure Program (Class Method : Type) where
  /-- The dynamic classes among the direct bases. -/
  bases : Class → List Class
  mangleName : Class → String
  /-- The name of a base where the name of the class stands before it. -/
  mangleBaseName : Class → Class → String
  functionMangledName : Method → String
  vTableLayout : Class → VTableLayout Class Method
  constructionVTableLayout : Class → BaseSubobject Class → VTableLayout Class Method

namespace Program

variable {Class Method : Type} [DecidableEq Class] (program : Program Class Method)

def classMangledName (RD : Class) : String := "_ZTV" ++ program.mangleName RD

def classMangledConstrName (RD : Class) (Base : BaseSubobject Class) : String :=
  "_ZTC" ++ program.mangleName RD ++ toString Base.baseOffset ++ "_" ++
    program.mangleBaseName RD Base.base

def getClassName (RD : Class) : Option (BaseSubobject Class) → String
  | some Base => program.classMangledConstrName RD Base
  | none => program.classMangledName RD

/-- The direct parent on an inheritance path, and its sub-vtable for the rest of the path. -/
def parentVtbl (layout : VTableLayout Class Method) (path : List Class) :
    Except EmitFailure Vtbl :=
  match layout.parentInheritancePath path with
  | [] => .ok ("", 0)
  | [directParent] => .ok (program.classMangledName directParent, 0)
  | directParent :: rest => do
    return (program.classMangledName directParent,
      ← (program.vTableLayout directParent).getOrder rest)

end Program

/-- One more parent in the ordered map from address points to parents. -/
def insertParent (addrPt : Nat) (parent : Vtbl) : List (Nat × List Vtbl) → List (Nat × List Vtbl)
  | [] => [(addrPt, [parent])]
  | (a, parents) :: addrPtMap =>
    if addrPt = a then (a, insertInto vtblLt parent parents) :: addrPtMap
    else if addrPt < a then (addrPt, [parent]) :: (a, parents) :: addrPtMap
    else (a, parents) :: insertParent addrPt parent addrPtMap

namespace Program

variable {Class Method : Type} [DecidableEq Class] (program : Program Class Method)

def addrPtMap (layout : VTableLayout Class Method) :
    Except EmitFailure (List (Nat × List Vtbl)) :=
  layout.inheritanceMap.foldlM (fun addrPtMap it => do
    let parent ← program.parentVtbl layout it.1
    return insertParent (layout.getAddressPoint it.2) parent addrPtMap) []

/-- The functions from an address point on, with their offsets. -/
def functionsAt (components : List (VTableComponent Method)) (addrPt : Nat) :
    List (String × Nat) × Nat :=
  let methods := (components.drop addrPt).map VTableComponent.method |>.takeWhile Option.isSome
  (methods.zipIdx.foldl (fun functions it => match it.1 with
    | some method => insertInto vtblLt (program.functionMangledName method, it.2) functions
    | none => functions) [], addrPt + methods.length)

/-- The part of the loop over the address points for one of them; the state also holds where the
next region starts and the address point before. -/
def addRegion (layout : VTableLayout Class Method) (className : String)
    (st : List SDVtableMD × Nat × Nat) (region : Nat × List Vtbl) :
    Except EmitFailure (List SDVtableMD × Nat × Nat) :=
  let (subVtables, start, prevVal) := st
  let (addrPt, parents) := region
  if ¬ prevVal < addrPt then .error .addressPointsNotSorted
  else if ¬ start < addrPt then .error .startExceedsAddressPoint
  else if ¬ addrPt < layout.components.length then .error .addressPointOutside
  else
    let (functions, stop) := program.functionsAt layout.components addrPt
    if parents.any fun it => it.1 = className then .error .ownParent
    else .ok (subVtables ++ [⟨subVtables.length, parents, start, stop - 1, addrPt, functions⟩],
      stop, addrPt)

def generateSubvtableInfo (layout : VTableLayout Class Method) (RD : Class) :
    Except EmitFailure (List SDVtableMD) := do
  let (subVtables, start, _) ← (← program.addrPtMap layout).foldlM
    (program.addRegion layout (program.classMangledName RD)) ([], 0, 0)
  if start ≠ layout.components.length then throw .componentsLeft
  return subVtables

/-- The named nodes of the module are those of the classes recorded so far. -/
def insertVtableMD (getGlobalVariable : String → Option String) : Nat → Option String →
    VTableLayout Class Method → Class → Option (BaseSubobject Class) → List ClassRecord →
    Except EmitFailure (List ClassRecord)
  | 0, _, _, _, _, _ => .error .outOfFuel
  | fuel + 1, VTable, layout, RD, Base, recorded => do
    let className := program.getClassName RD Base
    if !isVtableName className then return recorded
    let subVtables ← program.generateSubvtableInfo layout RD
    if subVtables.length = 0 then return recorded
    if recorded.any fun info => info.className = className then return recorded
    let recorded := recorded ++ [⟨className, VTable, subVtables, getGlobalVariable⟩]
    layout.addressPoints.foldlM (fun recorded AP =>
      if AP.1.base ≠ RD then insertVtableMD getGlobalVariable fuel none
        (program.vTableLayout AP.1.base) AP.1.base none recorded
      else .ok recorded) recorded

end Program

/-- A vtable that is emitted: that of a class, or the construction vtable of a base in it. -/
structure Emission (Class : Type) where
  RD : Class
  Base : Option (BaseSubobject Class)
  getGlobalVariable : String → Option String

namespace Program

variable {Class Method : Type} [DecidableEq Class] (program : Program Class Method)

def layoutOf (RD : Class) : Option (BaseSubobject Class) → VTableLayout Class Method
  | none => program.vTableLayout RD
  | some Base => program.constructionVTableLayout RD Base

def emitVTable (fuel : Nat) (recorded : List ClassRecord) (e : Emission Class) :
    Except EmitFailure (List ClassRecord) :=
  program.insertVtableMD e.getGlobalVariable fuel (some (program.getClassName e.RD e.Base))
    (program.layoutOf e.RD e.Base) e.RD e.Base recorded

def emitVTables (fuel : Nat) (emissions : List (Emission Class)) :
    Except EmitFailure (List ClassRecord) :=
  emissions.foldlM (program.emitVTable fuel) []

/-- A proper base, direct or not. -/
def IsBase : Class → Class → Prop := Relation.TransGen fun B D => B ∈ program.bases D

end Program

/-- The classes form a hierarchy, distinct vtables have distinct names, the address points of a
class name the class and its bases, and inheritance paths lead to a base first. -/
structure Hierarchy (Class Method : Type) [DecidableEq Class] extends Program Class Method where
  acyclic : WellFounded fun B D => B ∈ bases D
  mangleName_injective : Function.Injective mangleName
  constrName_injective : ∀ RD Base RD' Base',
    toProgram.classMangledConstrName RD Base = toProgram.classMangledConstrName RD' Base' →
    RD = RD' ∧ Base = Base'
  classLayout : ∀ D, (vTableLayout D).isConstructionLayout = false
  addressPoints : ∀ D B, (∃ AP ∈ (vTableLayout D).addressPoints, AP.1.base = B) ↔
    B = D ∨ toProgram.IsBase B D
  inheritanceMap : ∀ D, (vTableLayout D).inheritanceMap ≠ []
  paths : ∀ D, ∀ it ∈ (vTableLayout D).inheritanceMap, ∀ P ∈ it.1.head?, toProgram.IsBase P D
  constrLayout : ∀ RD Base, toProgram.IsBase Base.base RD →
    (constructionVTableLayout RD Base).mostDerived = Base.base ∧
      (constructionVTableLayout RD Base).isConstructionLayout = true
  constrAddressPoints : ∀ RD Base, toProgram.IsBase Base.base RD →
    (∃ AP ∈ (constructionVTableLayout RD Base).addressPoints, AP.1.base = Base.base) ∧
      ∀ AP ∈ (constructionVTableLayout RD Base).addressPoints,
        AP.1.base = Base.base ∨ toProgram.IsBase AP.1.base Base.base
  constrInheritanceMap : ∀ RD Base, toProgram.IsBase Base.base RD →
    (constructionVTableLayout RD Base).inheritanceMap ≠ []

/-- Construction vtables are those of bases, and a global is found under its own name. -/
structure Hierarchy.Emits {Class Method : Type} [DecidableEq Class] (H : Hierarchy Class Method)
    (e : Emission Class) : Prop where
  base : ∀ Base ∈ e.Base, H.IsBase Base.base e.RD
  global : ∀ name gv, e.getGlobalVariable name = some gv → gv = name

end RhoFEM.Frontend
