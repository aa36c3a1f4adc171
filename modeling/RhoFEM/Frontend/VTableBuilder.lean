import RhoFEM.Frontend.VtableMD
import RhoFEM.Lib.PathMap

/-! The sub-vtables that `ItaniumVTableBuilder` lays out for a class, and the inheritance paths
under which it numbers them. -/

namespace RhoFEM.Frontend

open RhoFEM.Lib.Fold RhoFEM.Lib.PathMap

structure BaseSpecifier (Class : Type) where
  type : Class
  isVirtual : Bool
  deriving DecidableEq

structure ASTRecordLayout (Class : Type) where
  primaryBase : Option Class
  isPrimaryBaseVirtual : Bool
  baseClassOffset : Class → Nat
  vbaseClassOffset : Class → Nat

/-- The classes of a program as Clang describes them. -/
structure Records (Class : Type) where
  bases : Class → List (BaseSpecifier Class)
  isDynamicClass : Class → Bool
  numVBases : Class → Nat
  recordLayout : Class → ASTRecordLayout Class
  /-- Bounds the recursion over the bases of a class. -/
  depth : Class → Nat

/-- What a vtable is built for. The virtual functions of a sub-vtable also depend on those before,
so they are given for each call of `AddMethods`. -/
structure ItaniumVTableBuilder (Class Method : Type) extends Records Class where
  mostDerivedClass : Class
  mostDerivedClassOffset : Nat
  mostDerivedClassIsVirtual : Bool
  layoutClass : Class
  isAppleKext : Bool
  vcallAndVBaseOffsets : BaseSubobject Class → Bool → Nat → List (VTableComponent Method)
  addMethods : Nat → BaseSubobject Class → Nat → List (VTableComponent Method)

/-- A sub-vtable with the path and the number it is stored under. -/
structure SubVTable (Class : Type) where
  inheritancePath : List Class
  order : Nat
  addressPoint : Nat
  deriving DecidableEq

/-- The maps of the builder. In an inheritance map `none` is the `-1` of `getOrder`. The lists
`subVTables` and `orders` log what `LayoutPrimaryAndSecondaryVTables` stores and what `getOrder`
returns. -/
structure VTableState (Class Method : Type) where
  components : List (VTableComponent Method) := []
  addressPoints : List (BaseSubobject Class × Nat) := []
  inheritanceMap : List (List Class × Option Nat) := []
  virtualBasesDefMap : Class → Option (List Class) := fun _ => none
  primaryVirtualBases : List Class := []
  curVTableInd : Nat := 0
  subVTables : List (SubVTable Class) := []
  orders : List (Option Nat) := []

namespace VTableState

variable {Class Method : Type} [DecidableEq Class] (st : VTableState Class Method)

/-- The insertion into a map that keeps the first entry. -/
def insertAddressPoint (key : BaseSubobject Class) (addressPoint : Nat)
    (points : List (BaseSubobject Class × Nat)) : List (BaseSubobject Class × Nat) :=
  if (points.lookup key).isSome then points else points ++ [(key, addressPoint)]

def getOrder (path : List Class) : Option Nat := (lookupLongest st.inheritanceMap path).join

/-- One more path to a virtual base that has its sub-vtable elsewhere. -/
def findPath (path : List Class) (BaseDecl : Class) : VTableState Class Method :=
  let order := st.getOrder ((st.virtualBasesDefMap BaseDecl).getD [])
  { st with
    inheritanceMap := assign path order st.inheritanceMap
    orders := st.orders ++ [order] }

/-- A class turns out to have a virtual base as its primary base. -/
def addPrimaryVirtualBase (path : List Class) (PrimaryBase : Class) : VTableState Class Method :=
  { st with
    virtualBasesDefMap := if (st.virtualBasesDefMap PrimaryBase).isSome then st.virtualBasesDefMap
      else Function.update st.virtualBasesDefMap PrimaryBase (some (path ++ [PrimaryBase]))
    primaryVirtualBases := st.primaryVirtualBases.insert PrimaryBase }

end VTableState

namespace ItaniumVTableBuilder

variable {Class Method : Type} [DecidableEq Class] (b : ItaniumVTableBuilder Class Method)

def isBuildingConstructorVTable : Bool := b.mostDerivedClass ≠ b.layoutClass

def vbaseOffsetInLayoutClass (V : Class) : Nat :=
  (b.recordLayout b.layoutClass).vbaseClassOffset V

/-- A class and the primary bases that share its vtable in the layout class. -/
def primaryBaseChain : Nat → Class → Nat → List Class
  | 0, _, _ => []
  | fuel + 1, RD, offsetInLayoutClass =>
    let Layout := b.recordLayout RD
    RD :: match Layout.primaryBase with
    | none => []
    | some PrimaryBase =>
      if Layout.isPrimaryBaseVirtual &&
          b.vbaseOffsetInLayoutClass PrimaryBase ≠ offsetInLayoutClass then []
      else primaryBaseChain fuel PrimaryBase offsetInLayoutClass

/-- The path that a sub-vtable is stored under; that of the most derived class is its primary
base. -/
def storedPath (path : List Class) (Base : Class) (offsetInLayoutClass : Nat) : List Class :=
  if path = [] then
    (b.primaryBaseChain (b.depth Base + 1) Base offsetInLayoutClass).tail.head?.toList
  else path

/-- `LayoutPrimaryAndSecondaryVTables` up to the secondary vtables. -/
def layoutPrimaryVTable (path : List Class) (Base : BaseSubobject Class)
    (baseIsMorallyVirtual baseIsVirtualInLayoutClass : Bool) (offsetInLayoutClass : Nat)
    (st : VTableState Class Method) : VTableState Class Method :=
  -- The offset to top and the RTTI stand before the address point.
  let components := st.components ++
    b.vcallAndVBaseOffsets Base baseIsVirtualInLayoutClass offsetInLayoutClass ++ [.other, .other]
  let addressPoint := components.length
  let chain := b.primaryBaseChain (b.depth Base.base + 1) Base.base offsetInLayoutClass
  let path := b.storedPath path Base.base offsetInLayoutClass
  { st with
    components := components ++ b.addMethods st.curVTableInd Base offsetInLayoutClass
    addressPoints := chain.foldl (fun points RD => VTableState.insertAddressPoint
      ⟨RD, offsetInLayoutClass⟩ addressPoint points) st.addressPoints
    inheritanceMap := assign path (some st.curVTableInd) st.inheritanceMap
    virtualBasesDefMap :=
      if baseIsMorallyVirtual then Function.update st.virtualBasesDefMap Base.base (some path)
      else st.virtualBasesDefMap
    curVTableInd := st.curVTableInd + 1
    subVTables := st.subVTables ++ [⟨path, st.curVTableInd, addressPoint⟩] }

def layoutSecondaryVTables : Nat → List Class → BaseSubobject Class → Bool → Nat →
    VTableState Class Method → VTableState Class Method
  | 0, _, _, _, _, st => st
  | fuel + 1, path, Base, baseIsMorallyVirtual, offsetInLayoutClass, st =>
    let Layout := b.recordLayout Base.base
    (b.bases Base.base).foldl (fun st B =>
      if B.isVirtual then st
      else if !b.isDynamicClass B.type then st
      else if b.isBuildingConstructorVTable && !baseIsMorallyVirtual && b.numVBases B.type = 0 then
        st
      else
        let relativeBaseOffset := Layout.baseClassOffset B.type
        let BaseDecl : BaseSubobject Class := ⟨B.type, Base.baseOffset + relativeBaseOffset⟩
        let baseOffsetInLayoutClass := offsetInLayoutClass + relativeBaseOffset
        if Layout.primaryBase = some B.type then
          layoutSecondaryVTables fuel (path ++ [B.type]) BaseDecl baseIsMorallyVirtual
            baseOffsetInLayoutClass st
        else
          layoutSecondaryVTables fuel (path ++ [B.type]) BaseDecl baseIsMorallyVirtual
            baseOffsetInLayoutClass
            (b.layoutPrimaryVTable (path ++ [B.type]) BaseDecl baseIsMorallyVirtual false
              baseOffsetInLayoutClass st)) st

def layoutPrimaryAndSecondaryVTables (path : List Class) (Base : BaseSubobject Class)
    (baseIsMorallyVirtual baseIsVirtualInLayoutClass : Bool) (offsetInLayoutClass : Nat)
    (st : VTableState Class Method) : VTableState Class Method :=
  b.layoutSecondaryVTables (b.depth Base.base + 1) path Base baseIsMorallyVirtual
    offsetInLayoutClass
    (b.layoutPrimaryVTable path Base baseIsMorallyVirtual baseIsVirtualInLayoutClass
      offsetInLayoutClass st)

/-- The primary base is virtual, and it is the primary base in the layout class as well. -/
def primaryVirtualBase (RD : Class) (offsetInLayoutClass : Nat) : Option Class :=
  (b.recordLayout RD).primaryBase.filter fun PrimaryBase =>
    (b.recordLayout RD).isPrimaryBaseVirtual && (!b.isBuildingConstructorVTable ||
      b.vbaseOffsetInLayoutClass PrimaryBase = offsetInLayoutClass)

/-- The first part of the state holds the virtual bases that were visited. -/
def determinePrimaryVirtualBases : Nat → List Class → Class → Nat →
    List Class × VTableState Class Method → List Class × VTableState Class Method
  | 0, _, _, _, s => s
  | fuel + 1, path, RD, offsetInLayoutClass, (VBases, st) =>
    let st := match b.primaryVirtualBase RD offsetInLayoutClass with
      | some PrimaryBase => st.addPrimaryVirtualBase path PrimaryBase
      | none => st
    (b.bases RD).foldl (fun (VBases, st) B =>
      if B.isVirtual then
        if B.type ∈ VBases then (VBases, st)
        else determinePrimaryVirtualBases fuel (path ++ [B.type]) B.type
          (b.vbaseOffsetInLayoutClass B.type) (VBases ++ [B.type], st)
      else determinePrimaryVirtualBases fuel (path ++ [B.type]) B.type
        (offsetInLayoutClass + (b.recordLayout RD).baseClassOffset B.type) (VBases, st))
      (VBases, st)

/-- The part of `LayoutVTablesForVirtualBases` for one path. -/
def layoutVirtualBase (path : List Class) (B : BaseSpecifier Class)
    (s : List Class × VTableState Class Method) : List Class × VTableState Class Method :=
  let (VBases, st) := s
  if B.isVirtual && b.isDynamicClass B.type && B.type ∉ st.primaryVirtualBases then
    if B.type ∉ VBases then
      (VBases ++ [B.type], b.layoutPrimaryAndSecondaryVTables path
        ⟨B.type, (b.recordLayout b.mostDerivedClass).vbaseClassOffset B.type⟩ true true
        (b.vbaseOffsetInLayoutClass B.type) st)
    else (VBases, st.findPath path B.type)
  else if B.type ∈ st.primaryVirtualBases then (VBases, st.findPath path B.type)
  else (VBases, st)

def layoutVTablesForVirtualBases : Nat → List Class → Class →
    List Class × VTableState Class Method → List Class × VTableState Class Method
  | 0, _, _, s => s
  | fuel + 1, path, RD, s =>
    (b.bases RD).foldl (fun s B =>
      let s := b.layoutVirtualBase (path ++ [B.type]) B s
      if b.numVBases B.type ≠ 0 then
        layoutVTablesForVirtualBases fuel (path ++ [B.type]) B.type s
      else s) s

def layoutVTable : VTableState Class Method :=
  let fuel := b.depth b.mostDerivedClass + 1
  let st := b.layoutPrimaryAndSecondaryVTables [] ⟨b.mostDerivedClass, 0⟩ false
    b.mostDerivedClassIsVirtual b.mostDerivedClassOffset {}
  let st := (b.determinePrimaryVirtualBases fuel [] b.mostDerivedClass b.mostDerivedClassOffset
    ([], st)).2
  let st := (b.layoutVTablesForVirtualBases fuel [] b.mostDerivedClass ([], st)).2
  if b.isAppleKext then { st with components := st.components ++ [.other] } else st

/-- The `-1` of `getOrder` is the largest 64-bit number. -/
def createVTableLayout : VTableLayout Class Method where
  components := b.layoutVTable.components
  addressPoints := b.layoutVTable.addressPoints
  inheritanceMap := b.layoutVTable.inheritanceMap.map fun it => (it.1, it.2.getD (2 ^ 64 - 1))
  mostDerived := b.mostDerivedClass
  layoutClass := b.layoutClass

end ItaniumVTableBuilder

end RhoFEM.Frontend
