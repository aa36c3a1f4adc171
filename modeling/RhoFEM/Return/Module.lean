import RhoFEM.Lib.StringRef

/-! The parts of an LLVM module that the return passes read and write. -/

namespace RhoFEM.Return

/-- `Type::TypeID`, the types that `SDEncoding::encodeType` tells apart. -/
inductive LType
  | void
  | integer (bits : Nat)
  | half
  | float
  | double
  | x86FP80
  | fp128
  | ppcFP128
  | pointer (element : LType)
  | struct
  | array
  | other
  deriving DecidableEq

structure FunctionType where
  returnType : LType
  params : List LType
  deriving DecidableEq

structure Function where
  name : String
  functionType : FunctionType
  hasAddressTaken : Bool
  /-- The return instructions of the body. -/
  returns : List Nat
  deriving DecidableEq

inductive MDOperand
  | str (s : String)
  | num (n : Nat)
  deriving DecidableEq

abbrev MDNode := List MDOperand

/-- The named metadata of a module: a name and its operands, in the order in
which `getOrInsertNamedMetadata` made them. -/
abbrev NamedMetadata := List (String × List MDNode)

def addOperand (name : String) (node : MDNode) : NamedMetadata → NamedMetadata
  | [] => [(name, [node])]
  | (n, nodes) :: rest =>
    if n = name then (n, nodes ++ [node]) :: rest else (n, nodes) :: addOperand name node rest

end RhoFEM.Return
