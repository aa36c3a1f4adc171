import RhoFEM.CHA.Clouds
import RhoFEM.Lib.Coalesce
import RhoFEM.Lib.StringRef

/-! The new vtable of each cloud: its elements, their indices, and the ranges of
address points below each sub-vtable. -/

namespace RhoFEM.Layout

open RhoFEM.CHA RhoFEM.Lib.Coalesce RhoFEM.Lib.StringRef

/-- A sub-vtable and the index of one of its elements in the old vtable. -/
abbrev Interleaving := Vtbl × Int

/-- A byte of a global variable: the name of the variable, and the offset. -/
abbrev Address := String × Nat

/-- The assertions and unchecked accesses of the pass, and the bound on its loops. -/
inductive Failure
  | indexNotInRange
  | missingThunk
  | missingOldVTable
  | operandOutOfRange
  | missingAlignment
  | startAddressExists
  | missingAncestor
  | ancestorNotRoot
  | noAddressPoint
  | missingLayoutInds
  | missingCloudStart
  | startOutOfRange
  | rangesOverlap
  | totalRangeMismatch
  | descendantNotFound
  | relativeIndexOutOfRange
  | outOfFuel
  deriving DecidableEq

structure SDLayoutBuilder where
  newLayoutInds : Vtbl → List Nat
  interleavingMap : String → List Interleaving
  newVTableStartAddrMap : Vtbl → Option Address
  cloudStartMap : String → Option (List Constant)
  alignmentMap : String → Option Nat
  rangeMap : Vtbl → Option (List CHA.Range)
  memRangeMap : Vtbl → List (Address × Nat)
  prePadMap : Vtbl → Nat
  functions : List String

/-- The state before the pass; `functions` are those of the module. -/
def SDLayoutBuilder.init (functions : List String) : SDLayoutBuilder where
  newLayoutInds := fun _ => []
  interleavingMap := fun _ => []
  newVTableStartAddrMap := fun _ => none
  cloudStartMap := fun _ => none
  alignmentMap := fun _ => none
  rangeMap := fun _ => none
  memRangeMap := fun _ => []
  prePadMap := fun _ => 0
  functions := functions

def dummyVtable : Vtbl := ("DUMMY_VTBL", 0)

def wordWidth : Nat := 8

def newVtableName (vtbl : String) : String := "_SD" ++ vtbl

def newVthunkName (thunk parent : String) : String := "_SVT" ++ parent ++ thunk

/-- Virtual thunks and virtual covariant thunks. -/
def isVthunk (name : String) : Bool := startswith name "_ZTv" || startswith name "_ZTcv"

def getVthunkFunction : Constant → Option String
  | .bitCast operand => if isVthunk operand then some operand else none
  | _ => none

/-- The index of a node in a preorder; other nodes read as zero. -/
def indMap (preorder : List Vtbl) (v : Vtbl) : Nat := if v ∈ preorder then preorder.idxOf v else 0

section Interleave

variable (cha : SDBuildCHA)

/-- The padding that the loop over the children of one parent computes. -/
def padChild (preorder : List Vtbl) (parent : Vtbl) (prePadMap : Vtbl → Nat) (child : Vtbl) :
    Vtbl → Nat :=
  if indMap preorder child < indMap preorder parent then prePadMap
  else
    let parentPreAddrPt := cha.addrPt parent - (cha.getRange parent).1 + prePadMap parent
    let childPreAddrPt := cha.addrPt child - (cha.getRange child).1 + prePadMap child
    Function.update prePadMap child (if parentPreAddrPt > childPreAddrPt then
      parentPreAddrPt - childPreAddrPt else prePadMap child)

def prePad (preorder : List Vtbl) (prePadMap : Vtbl → Nat) : Vtbl → Nat :=
  preorder.foldl (fun prePadMap parent =>
    if cha.isUndefined parent then prePadMap
    else (cha.children parent).foldl (padChild cha preorder parent) prePadMap) prePadMap

def check (positive : Bool) (pos lastPos : Int) : Bool :=
  if positive then pos ≤ lastPos else pos ≥ lastPos

def increment (positive : Bool) : Int := if positive then 1 else -1

def firstPos (positive : Bool) (n : Vtbl) : Int :=
  if positive then cha.addrPt n else cha.addrPt n - 1

def lastPos (prePadMap : Vtbl → Nat) (positive : Bool) (n : Vtbl) : Int :=
  if positive then (cha.getRange n).2 else (cha.getRange n).1 - prePadMap n

def fillNode (positive : Bool) (lastPosMap : Vtbl → Int)
    (st : List Interleaving × (Vtbl → Int)) (n : Vtbl) : List Interleaving × (Vtbl → Int) :=
  if !cha.isUndefined n && check positive (st.2 n) (lastPosMap n) then
    (st.1 ++ [(n, st.2 n)], Function.update st.2 n (st.2 n + increment positive))
  else st

/-- One traversal of the nodes: the elements it takes, and the next positions. -/
def fillRound (positive : Bool) (lastPosMap : Vtbl → Int) (nodes : List Vtbl)
    (posMap : Vtbl → Int) : List Interleaving × (Vtbl → Int) :=
  nodes.foldl (fillNode cha positive lastPosMap) ([], posMap)

def fillLoop (positive : Bool) (lastPosMap : Vtbl → Int) (nodes : List Vtbl) :
    Nat → (Vtbl → Int) → List Interleaving → Except Failure (List Interleaving)
  | 0, _, _ => .error .outOfFuel
  | fuel + 1, posMap, part =>
    let (current, posMap) := fillRound cha positive lastPosMap nodes posMap
    if current = [] then .ok part
    else fillLoop positive lastPosMap nodes fuel posMap
      (if positive then part ++ current else current ++ part)

/-- No node has more rounds. -/
def slotBound (prePadMap : Vtbl → Nat) (nodes : List Vtbl) : Nat :=
  (nodes.map fun n => cha.addrPt n + (cha.getRange n).2 + prePadMap n + 1).sum

def fillVtablePart (prePadMap : Vtbl → Nat) (nodes : List Vtbl) (positive : Bool) :
    Except Failure (List Interleaving) :=
  fillLoop cha positive (lastPos cha prePadMap positive) nodes (slotBound cha prePadMap nodes + 1)
    (firstPos cha positive) []

def interleaveCloudNew (vtbl : String) (st : SDLayoutBuilder) :
    Except Failure SDLayoutBuilder := do
  let preorder := cha.preorder (vtbl, 0)
  let prePadMap := prePad cha preorder st.prePadMap
  let negative ← fillVtablePart cha prePadMap preorder false
  let positive ← fillVtablePart cha prePadMap preorder true
  return { st with
    prePadMap := prePadMap
    interleavingMap := Function.update st.interleavingMap vtbl (negative ++ positive)
    alignmentMap := Function.update st.alignmentMap vtbl (some wordWidth) }

/-- The next power of two, by copying the highest bit downwards. -/
def roundUp (max : Nat) : Nat :=
  let max := max - 1
  let max := max ||| (max >>> 1)
  let max := max ||| (max >>> 2)
  let max := max ||| (max >>> 4)
  let max := max ||| (max >>> 8)
  let max := max ||| (max >>> 16)
  let max := max ||| (max >>> 32)
  max + 1

def orderChild (max : Nat) (orderedVtbl : List Interleaving) (child : Vtbl) : List Interleaving :=
  if cha.isUndefined child then orderedVtbl
  else
    let r := cha.getRange child
    let padEntries := orderedVtbl.length + (cha.addrPt child - r.1)
    let padSize := if padEntries % max = 0 then 0 else max - padEntries % max
    orderedVtbl ++ List.replicate padSize (dummyVtable, 0) ++
      (List.range (r.2 - r.1 + 1)).map fun i => (child, ((r.1 + i : Nat) : Int))

def orderCloud (vtbl : String) (st : SDLayoutBuilder) : SDLayoutBuilder :=
  let preorder := cha.preorder (vtbl, 0)
  let max := roundUp (preorder.foldl (fun max child =>
    let r := cha.getRange child
    if r.2 - r.1 + 1 > max then r.2 - r.1 + 1 else max) 0)
  { st with
    alignmentMap := Function.update st.alignmentMap vtbl (some (max * wordWidth % 2 ^ 32))
    interleavingMap := Function.update st.interleavingMap vtbl
      (preorder.foldl (orderChild cha max) []) }

/-- The position of each element is the next index of its sub-vtable. -/
def addNewInd (newLayoutInds : Vtbl → List Nat) (ivtbl : Interleaving × Nat) : Vtbl → List Nat :=
  if ivtbl.1.1 ≠ dummyVtable then
    Function.update newLayoutInds ivtbl.1.1 (newLayoutInds ivtbl.1.1 ++ [ivtbl.2])
  else newLayoutInds

def calculateNewLayoutInds (vtbl : String) (st : SDLayoutBuilder) : SDLayoutBuilder :=
  { st with
    newLayoutInds := (st.interleavingMap vtbl).zipIdx.foldl addNewInd st.newLayoutInds }

end Interleave

section NewVTable

variable (cha : SDBuildCHA)

/-- The name of the copy of a virtual thunk for the cloud of a part of a vtable. -/
def createThunkFunction (vtbl : String) (functions : List String) (elem : Constant × Nat) :
    Except Failure (List String) :=
  match getVthunkFunction elem.1 with
  | none => .ok functions
  | some thunk =>
    match cha.getVTableOrder vtbl elem.2 with
    | none => .error .indexNotInRange
    | some order =>
      let newThunkName := newVthunkName thunk (cha.getLayoutClassName (vtbl, order))
      if newThunkName ∈ functions then .ok functions else .ok (functions ++ [newThunkName])

/-- The part of the loop over the nodes for one of them, with all operands of its vtable. -/
def createNodeThunks (functions : List String) (v : Vtbl) : Except Failure (List String) :=
  match cha.oldVTables v.1 with
  | none => if cha.isUndefined v then .ok functions else .error .missingOldVTable
  | some vtableArr => vtableArr.zipIdx.foldlM (createThunkFunction cha v.1) functions

def createThunkFunctions (rootName : String) (functions : List String) :
    Except Failure (List String) :=
  (cha.preorder (rootName, 0)).foldlM (createNodeThunks cha) functions

/-- The position, stored as an unsigned word. -/
def oldIndex (ivtbl : Interleaving) : Nat :=
  if 0 ≤ ivtbl.2 then ivtbl.2.toNat else (ivtbl.2 + 2 ^ 64).toNat

def newVtableElem (functions : List String) (ivtbl : Interleaving) : Except Failure Constant :=
  if cha.isUndefined ivtbl.1 ∨ ivtbl.1 = dummyVtable ∨
      oldIndex ivtbl < (cha.getRange ivtbl.1).1 then
    .ok .null
  else
    match cha.oldVTables ivtbl.1.1 with
    | none => .error .missingOldVTable
    | some vtable =>
      match vtable[oldIndex ivtbl]? with
      | none => .error .operandOutOfRange
      | some constant =>
        match getVthunkFunction constant with
        | none => .ok constant
        | some thunk =>
          let newThunk := newVthunkName thunk (cha.getLayoutClassName ivtbl.1)
          if newThunk ∈ functions then .ok (.bitCast newThunk) else .error .missingThunk

def newVtblAddressConst (st : SDLayoutBuilder) (vtbl : Vtbl) : Except Failure Address :=
  match cha.ancestorMap vtbl with
  | none => .error .missingAncestor
  | some rootName =>
    if rootName ∉ cha.roots then .error .ancestorNotRoot
    else if cha.addrPtMap vtbl.1 = [] then .error .noAddressPoint
    else
      match (st.newLayoutInds vtbl)[cha.addrPt vtbl - (cha.getRange vtbl).1]? with
      | none => .error .missingLayoutInds
      | some addrPtOff =>
        if (st.cloudStartMap (newVtableName rootName)).isSome then
          .ok (newVtableName rootName, addrPtOff * wordWidth)
        else .error .missingCloudStart

/-- The part of the loop over the nodes of a cloud that stores the new address points. -/
def storeStartAddr (st : SDLayoutBuilder) (vnode : Vtbl) : Except Failure SDLayoutBuilder :=
  if cha.isDefined vnode then
    if (st.newVTableStartAddrMap vnode).isSome then .error .startAddressExists
    else do
      let start ← newVtblAddressConst cha st vnode
      return { st with
        newVTableStartAddrMap := Function.update st.newVTableStartAddrMap vnode (some start) }
  else .ok st

def createNewVTable (vtbl : String) (st : SDLayoutBuilder) : Except Failure SDLayoutBuilder := do
  let newVtableElems ← (st.interleavingMap vtbl).mapM (newVtableElem cha st.functions)
  if (st.alignmentMap vtbl).isNone then throw .missingAlignment
  (cha.preorder (vtbl, 0)).foldlM (storeStartAddr cha) { st with
    cloudStartMap := Function.update st.cloudStartMap (newVtableName vtbl) (some newVtableElems) }

end NewVTable

section Ranges

variable (cha : SDBuildCHA)

def calculateVPtrRangesHelper (preorder : List Vtbl) :
    Nat → Vtbl → (Vtbl → Option (List CHA.Range)) →
      Except Failure (Vtbl → Option (List CHA.Range))
  | 0, _, _ => .error .outOfFuel
  | fuel + 1, vtbl, rangeMap =>
    if (rangeMap vtbl).isSome then .ok rangeMap
    else do
      let rangeMap ← (cha.children vtbl).foldlM
        (fun rangeMap child => calculateVPtrRangesHelper preorder fuel child rangeMap) rangeMap
      let ranges := (indMap preorder vtbl, indMap preorder vtbl + 1) ::
        (cha.children vtbl).flatMap fun child => (rangeMap child).getD []
      return Function.update rangeMap vtbl (some (coalesce (sortRanges ranges)))

/-- The defined sub-vtables of a range, as the start of the first one and their number. -/
def memRange (st : SDLayoutBuilder) (preorder : List Vtbl) (range : CHA.Range) :
    Except Failure (List (Address × Nat)) :=
  let slice := (preorder.drop range.1).take (range.2 - range.1)
  match slice.countP cha.isDefined, slice.find? cha.isDefined with
  | 0, _ => .ok []
  | _, none => .error .startOutOfRange
  | defCount, some start => do
    let address ← newVtblAddressConst cha st start
    return [(address, defCount)]

def memRanges (preorder : List Vtbl) (st : SDLayoutBuilder) (v : Vtbl) :
    Except Failure SDLayoutBuilder := do
  let ranges ← ((st.rangeMap v).getD []).mapM (memRange cha st preorder)
  return { st with
    memRangeMap := Function.update st.memRangeMap v (st.memRangeMap v ++ ranges.flatten) }

def calculateVPtrRanges (vtbl : String) (st : SDLayoutBuilder) :
    Except Failure SDLayoutBuilder := do
  let preorder := cha.preorder (vtbl, 0)
  let rangeMap ← calculateVPtrRangesHelper cha preorder (cha.vtbls.length + 1) (vtbl, 0)
    st.rangeMap
  preorder.foldlM (memRanges cha preorder) { st with rangeMap := rangeMap }

/-- The assertions for the ranges of one node. -/
def verifyRanges (preorder : List Vtbl) (ranges : List CHA.Range) (v : Vtbl) :
    Except Failure Unit :=
  if ¬ ranges.IsChain fun a b => a.2 < b.1 then .error .rangesOverlap
  else if (ranges.map fun r => r.2 - r.1).sum ≠ (cha.preorder v).length then
    .error .totalRangeMismatch
  else if ¬ ∀ d ∈ cha.preorder v, ∃ r ∈ ranges,
      r.1 ≤ indMap preorder d ∧ indMap preorder d < r.2 then
    .error .descendantNotFound
  else .ok ()

def verifyVPtrRanges (vtbl : String) (st : SDLayoutBuilder) : Except Failure SDLayoutBuilder := do
  let preorder := cha.preorder (vtbl, 0)
  preorder.forM fun v => verifyRanges cha preorder ((st.rangeMap v).getD []) v
  return st

end Ranges

section Build

variable (cha : SDBuildCHA)

def layoutCloud (interleave : Bool) (st : SDLayoutBuilder) (vtbl : String) :
    Except Failure SDLayoutBuilder := do
  let st ← if interleave then interleaveCloudNew cha vtbl st else .ok (orderCloud cha vtbl st)
  return calculateNewLayoutInds vtbl st

def emitCloud (st : SDLayoutBuilder) (vtbl : String) : Except Failure SDLayoutBuilder := do
  let functions ← createThunkFunctions cha vtbl st.functions
  createNewVTable cha vtbl { st with functions := functions }

def rangeCloud (st : SDLayoutBuilder) (vtbl : String) : Except Failure SDLayoutBuilder := do
  let st ← calculateVPtrRanges cha vtbl st
  verifyVPtrRanges cha vtbl st

def buildNewLayouts (interleave : Bool) (functions : List String) :
    Except Failure SDLayoutBuilder := do
  let st ← cha.roots.foldlM (layoutCloud cha interleave) (SDLayoutBuilder.init functions)
  let st ← cha.roots.foldlM (emitCloud cha) st
  cha.roots.foldlM (rangeCloud cha) st

/-- The sub-vtable whose indices stand for those of an undefined one. -/
def representative (vname : Vtbl) : Vtbl :=
  if cha.isUndefined vname then (cha.firstDefinedChild vname).getD vname else vname

def translateVtblInd (st : SDLayoutBuilder) (vname : Vtbl) (offset : Int) (isRelative : Bool) :
    Except Failure Int :=
  let vname := representative cha vname
  let newInds := st.newLayoutInds vname
  if newInds = [] then
    if vname ∈ cha.cloudMap ∧ (cha.firstDefinedChild vname).isSome then .error .missingLayoutInds
    else .ok offset
  else
    let range := cha.getRange vname
    if isRelative then
      let oldAddrPt : Int := cha.addrPt vname - range.1
      let fullIndex := oldAddrPt + offset
      if 0 ≤ fullIndex ∧ fullIndex ≤ range.2 - range.1 then
        match newInds[fullIndex.toNat]?, newInds[oldAddrPt.toNat]? with
        | some newFull, some newAddrPt => .ok (newFull - newAddrPt)
        | _, _ => .error .relativeIndexOutOfRange
      else .error .relativeIndexOutOfRange
    else if 0 ≤ offset ∧ offset ≤ newInds.length then
      match newInds[offset.toNat]? with
      | some newInd => .ok newInd
      | none => .error .relativeIndexOutOfRange
    else .error .relativeIndexOutOfRange

end Build

end RhoFEM.Layout
