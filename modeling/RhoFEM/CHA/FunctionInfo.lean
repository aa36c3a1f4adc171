import RhoFEM.CHA.Clouds
import RhoFEM.Lib.Traversal

/-! Identifiers and identifier ranges of virtual functions. -/

namespace RhoFEM.CHA

open RhoFEM.Lib.Traversal

/-- The visited and marked classes of `topoSort`; marks are never removed. -/
structure TopoState where
  ordered : List String
  visited : List String
  tempMarked : List String

/-- `numbering` stands for `currentID`, `functionIDMap` and `functionRangeMap`. -/
structure FunctionInfo where
  functionMap : String × String → List FunctionEntry
  functionImplMap : String → Option (List FunctionEntry)
  numbering : Numbering FunctionEntry

namespace FunctionInfo

def getFunctionID (info : FunctionInfo) (functionName : String) : List Nat :=
  ((info.functionImplMap functionName).getD []).filterMap info.numbering.ids

def getFunctionRange (info : FunctionInfo) (functionName className : String) : List Range :=
  (info.functionMap (functionName, className)).filterMap info.numbering.ranges

def getMaxID (info : FunctionInfo) : Nat := info.numbering.next

end FunctionInfo

namespace SDBuildCHA

variable (cha : SDBuildCHA)

def topoSortHelper : Nat → String → TopoState → Except Failure TopoState
  | 0, _, _ => .error .outOfFuel
  | fuel + 1, node, s =>
    if node ∈ s.visited then .ok s
    else if node ∈ s.tempMarked then .error .chaIsCyclic
    else do
      let s ← (cha.children (node, 0)).foldlM (fun s child => topoSortHelper fuel child.1 s)
        { s with tempMarked := s.tempMarked ++ [node] }
      return { s with visited := s.visited ++ [node], ordered := node :: s.ordered }

def classNames : List String := cha.roots ++ cha.vtbls.map Prod.fst

def topoSort : Except Failure (List String) := do
  let s ← cha.roots.foldlM (fun s root => cha.topoSortHelper (cha.classNames.length + 1) root s)
    ⟨[], [], []⟩
  return s.ordered

/-- The last entry of a sub-vtable at an offset. -/
def slotEntry (v : Vtbl) (offset : Nat) : Option FunctionEntry :=
  (cha.functions v).reverse.find? fun entry => entry.offsetInVTable = offset

/-- The part of the loop over the children for one of them. -/
def visitChild (recurse : FunctionEntry → FunctionInfo → Except Failure (Range × FunctionInfo))
    (offset : Nat) (acc : Range × FunctionInfo) (child : Vtbl) :
    Except Failure (Range × FunctionInfo) :=
  match cha.slotEntry child offset with
  | none => .error .childDoesNotCopy
  | some childFunction => do
    let (subRange, s) ← recurse childFunction acc.2
    if acc.1.2 + 1 = subRange.1 then return ((acc.1.1, subRange.2), s)
    else throw .rangeNotConsistent

/-- The state in which the recursion goes on to the children. -/
def enter (s : FunctionInfo) (function : FunctionEntry) : FunctionInfo :=
  { s with
    functionMap := Function.update s.functionMap (function.functionName, function.vTable.1)
      (s.functionMap (function.functionName, function.vTable.1) ++ [function])
    numbering := s.numbering.assign function }

def buildFunctionInfoForFunction :
    Nat → FunctionEntry → FunctionInfo → Except Failure (Range × FunctionInfo)
  | 0, _, _ => .error .outOfFuel
  | fuel + 1, function, s =>
    if (s.numbering.ids function).isSome then .error .alreadyHasID
    else do
      let id := s.numbering.next
      let (result, s) ← (cha.children function.vTable).foldlM
        (cha.visitChild (buildFunctionInfoForFunction fuel) function.offsetInVTable)
        ((id, id), enter s function)
      return (result, { s with numbering := s.numbering.close function result })

/-- The entry of the primary sub-vtable, and those of the same name in the others. -/
def implEntries (className : String) (function : FunctionEntry) : List FunctionEntry :=
  function :: (List.range' 1 (((cha.subObjNameMap.lookup className).getD []).length - 1)).flatMap
    fun i => (cha.functions (className, i)).filter fun overrideFunc =>
      function.functionName = overrideFunc.functionName

/-- The implementations in the order of the classes, with the entries recorded for each name. -/
def functionImpls (topologicalOrder : List String) :
    List FunctionEntry × (String → Option (List FunctionEntry)) :=
  topologicalOrder.foldl (fun st className =>
    (cha.functions (className, 0)).foldl (fun st function =>
      if (st.2 function.functionName).isNone then
        (st.1 ++ [function],
          Function.update st.2 function.functionName (some (cha.implEntries className function)))
      else st) st) ([], fun _ => none)

/-- Every entry of the hierarchy; a recursion visits none twice. -/
def entries : List FunctionEntry := cha.vTableFunctionMap.entries.flatMap Sigma.snd

/-- The part of the loop over the implementations for one of them. -/
def buildBaseFunction (s : FunctionInfo) (function : FunctionEntry) : Except Failure FunctionInfo :=
  if s.functionMap (function.functionName, function.vTable.1) = [] then do
    let (_, s) ← cha.buildFunctionInfoForFunction (cha.entries.length + 1) function s
    return s
  else return s

def buildFunctionInfo : Except Failure FunctionInfo := do
  let topologicalOrder ← cha.topoSort
  let (functionImpls, functionImplMap) := cha.functionImpls topologicalOrder
  functionImpls.foldlM cha.buildBaseFunction ⟨fun _ => [], functionImplMap, Numbering.empty 1⟩

end SDBuildCHA

end RhoFEM.CHA
