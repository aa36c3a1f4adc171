import RhoFEM.CHA.Clouds
import RhoFEM.Lib.StringRef

/-! The class metadata in the named nodes of a module, as the front end writes it and as
`extractMetadata` reads it. -/

namespace RhoFEM.CHA

open RhoFEM.Lib.Fold RhoFEM.Lib.StringRef

/-- A metadata node keeps a reference to a global, which is read under its name. -/
inductive Metadata
  | string (s : String)
  | number (n : Nat)
  | global (name : String)
  | node (operands : List Metadata)

/-- What ends the reading: an assertion, or a cast or an access that is not checked. -/
inductive ReadFailure
  | noOperand
  | notNode
  | notString
  | notNumber
  | notGlobal
  | notSixOperands
  | badRange
  | outOfFuel
  deriving DecidableEq

def getMDString (s : String) : Metadata := .string (cString s)

/-- `getGlobalVariable` has the name of the global that is found, if there is one. -/
def getClassVtblGVMD (getGlobalVariable : String → Option String) (className : String)
    (vTable : Option String) : Metadata :=
  match vTable.or (getGlobalVariable className) with
  | none => .node [getMDString "NO_VTABLE"]
  | some gv => .node [.global gv]

structure SDVtableMD where
  order : Nat
  parents : List Vtbl
  start : Nat
  stop : Nat
  addressPoint : Nat
  functions : List (String × Nat)

def SDVtableMD.getMDNode (getGlobalVariable : String → Option String) (sub : SDVtableMD) :
    Metadata :=
  .node [.number sub.order, .number sub.start, .number sub.stop, .number sub.addressPoint,
    .node (.number sub.parents.length :: sub.parents.flatMap fun it =>
      [getMDString it.1, .number it.2, getClassVtblGVMD getGlobalVariable it.1 none]),
    .node (.number sub.functions.length :: sub.functions.flatMap fun it =>
      [getMDString it.1, .number it.2])]

/-- A class in the module that it is emitted in. -/
structure ClassRecord where
  className : String
  vTable : Option String
  subVtables : List SDVtableMD
  getGlobalVariable : String → Option String

/-- The operands that `sd_insertVtableMD` adds for one class. -/
def ClassRecord.operands (info : ClassRecord) : List Metadata :=
  [.node [getMDString info.className],
    getClassVtblGVMD info.getGlobalVariable info.className info.vTable,
    .node [.number info.subVtables.length]] ++
    info.subVtables.map (SDVtableMD.getMDNode info.getGlobalVariable)

namespace Metadata

def numOperands : Metadata → Except ReadFailure Nat
  | .node operands => .ok operands.length
  | _ => .error .notNode

def getOperand (md : Metadata) (i : Nat) : Except ReadFailure Metadata :=
  match md with
  | .node operands => operands[i]?.elim (.error .noOperand) .ok
  | _ => .error .notNode

def getString : Metadata → Except ReadFailure String
  | .string s => .ok s
  | _ => .error .notString

def getNumber : Metadata → Except ReadFailure Nat
  | .number n => .ok n
  | _ => .error .notNumber

end Metadata

def mdnodeToGV (vtblMd : Metadata) : Except ReadFailure (Option String) := do
  match ← vtblMd.getOperand 0 with
  | .string _ => return none
  | .global name => return some name
  | _ => throw .notGlobal

/-- The index is kept in 32 bits. -/
def readParent (parentsTup : Metadata) (parents : List Vtbl) (j : Nat) :
    Except ReadFailure (List Vtbl) := do
  let ptName ← (← parentsTup.getOperand (1 + j * 3)).getString
  let ptIdx ← (← parentsTup.getOperand (1 + j * 3 + 1)).getNumber
  let parentVtable ← mdnodeToGV (← parentsTup.getOperand (1 + j * 3 + 2))
  return insertInto vtblLt (parentVtable.getD ptName, ptIdx % 2 ^ 32) parents

def readFunction (vTable : Vtbl) (functionsTup : Metadata) (functions : List FunctionEntry)
    (j : Nat) : Except ReadFailure (List FunctionEntry) := do
  let funcName ← (← functionsTup.getOperand (1 + j * 2)).getString
  let offset ← (← functionsTup.getOperand (1 + j * 2 + 1)).getNumber
  return functions ++ [⟨funcName, vTable, offset⟩]

def readSub (className : String) (tup : Metadata) : Except ReadFailure NmdSub := do
  if (← tup.numOperands) ≠ 6 then throw .notSixOperands
  let order ← (← tup.getOperand 0).getNumber
  let start ← (← tup.getOperand 1).getNumber
  let stop ← (← tup.getOperand 2).getNumber
  let addressPoint ← (← tup.getOperand 3).getNumber
  let parentsTup ← tup.getOperand 4
  let functionsTup ← tup.getOperand 5
  let numParents ← (← parentsTup.getOperand 0).getNumber
  let parents ← (List.range' 0 (numParents % 2 ^ 32)).foldlM (readParent parentsTup) []
  let numFunctions ← (← functionsTup.getOperand 0).getNumber
  let functions ← (List.range' 0 (numFunctions % 2 ^ 32)).foldlM
    (readFunction (className, order) functionsTup) []
  return ⟨order, start, stop, addressPoint, parents, functions⟩

/-- The part of the loop over the sub-vtables of a class for one of them. -/
def addSub (md : Metadata) (className : String) (op : Nat) (subVTables : List NmdSub) (i : Nat) :
    Except ReadFailure (List NmdSub) := do
  let subInfo ← readSub className (← md.getOperand i)
  let currRangeCheck := subInfo.start ≤ subInfo.addressPoint ∧ subInfo.addressPoint ≤ subInfo.stop
  let prevVtblCheck := i = op ∨ subVTables.getLast?.any fun prev => prev.stop < subInfo.start
  if currRangeCheck ∧ prevVtblCheck then return subVTables ++ [subInfo] else throw .badRange

/-- The class at an operand, and the operand behind it. The counter has 32 bits. -/
def readClass (md : Metadata) (op : Nat) : Except ReadFailure (Nmd × Nat) := do
  let name ← (← (← md.getOperand op).getOperand 0).getString
  let classVtbl ← mdnodeToGV (← md.getOperand ((op + 1) % 2 ^ 32))
  let className := classVtbl.getD name
  let numOperands ← (← (← md.getOperand ((op + 2) % 2 ^ 32)).getOperand 0).getNumber
  let op := (op + 3) % 2 ^ 32
  let stop := (op + numOperands) % 2 ^ 32
  let subVTables ← (List.range' op (stop - op)).foldlM (addSub md className op) []
  return (⟨className, subVTables⟩, stop)

/-- The loop reads before it tests whether there are more operands. -/
def extractClasses (md : Metadata) : Nat → Nat → List String → List Nmd →
    Except ReadFailure (List Nmd)
  | 0, _, _, _ => .error .outOfFuel
  | fuel + 1, op, classes, infoVec => do
    let (info, op) ← readClass md op
    let (classes, infoVec) := if info.className ∈ classes then (classes, infoVec)
      else (classes ++ [info.className], infoVec ++ [info])
    if op < (← md.numOperands) % 2 ^ 32 then extractClasses md fuel op classes infoVec
    else return infoVec

def extractMetadata (operands : List Metadata) : Except ReadFailure (List Nmd) :=
  extractClasses (.node operands) (operands.length + 1) 0 [] []

/-- The name under which a class is found again. -/
def resolvedName (getGlobalVariable : String → Option String) (className : String)
    (vTable : Option String) : String :=
  (vTable.or (getGlobalVariable className)).getD className

def toSet (vtbls : List Vtbl) : List Vtbl :=
  vtbls.foldl (fun set v => insertInto vtblLt v set) []

/-- What is to be read for a sub-vtable. -/
def SDVtableMD.decoded (getGlobalVariable : String → Option String) (className : String)
    (sub : SDVtableMD) : NmdSub where
  order := sub.order
  start := sub.start
  stop := sub.stop
  addressPoint := sub.addressPoint
  parents := toSet (sub.parents.map fun it => (resolvedName getGlobalVariable it.1 none, it.2))
  functions := sub.functions.map fun it => ⟨it.1, (className, sub.order), it.2⟩

def ClassRecord.decoded (info : ClassRecord) : Nmd :=
  let className := resolvedName info.getGlobalVariable info.className info.vTable
  ⟨className, info.subVtables.map (SDVtableMD.decoded info.getGlobalVariable className)⟩

/-- Names without a null character, and numbers that the reader's counters hold. -/
structure SDVtableMD.Encodable (sub : SDVtableMD) : Prop where
  range : sub.start ≤ sub.addressPoint ∧ sub.addressPoint ≤ sub.stop
  parents : ∀ it ∈ sub.parents, Char.ofNat 0 ∉ it.1.toList ∧ it.2 < 2 ^ 32
  functions : ∀ it ∈ sub.functions, Char.ofNat 0 ∉ it.1.toList
  numParents : sub.parents.length < 2 ^ 32
  numFunctions : sub.functions.length < 2 ^ 32

structure ClassRecord.Encodable (info : ClassRecord) : Prop where
  className : Char.ofNat 0 ∉ info.className.toList
  subVtables : ∀ sub ∈ info.subVtables, sub.Encodable
  increasing : info.subVtables.Pairwise fun a b => a.stop < b.start

@[simp] theorem mem_toSet {v : Vtbl} {vtbls : List Vtbl} : v ∈ toSet vtbls ↔ v ∈ vtbls := by
  have hfold : ∀ set, v ∈ vtbls.foldl (fun set w => insertInto vtblLt w set) set ↔
      v ∈ set ∨ v ∈ vtbls := by
    induction vtbls with
    | nil => simp
    | cons w vtbls ih =>
      intro set
      rw [List.foldl_cons, ih, mem_insertInto, List.mem_cons, or_comm (a := v = w), or_assoc]
  exact (hfold []).trans (or_iff_right List.not_mem_nil)

theorem mdnodeToGV_getClassVtblGVMD (getGlobalVariable : String → Option String)
    (className : String) (vTable : Option String) :
    mdnodeToGV (getClassVtblGVMD getGlobalVariable className vTable) =
      .ok (vTable.or (getGlobalVariable className)) := by
  rw [getClassVtblGVMD]
  cases vTable.or (getGlobalVariable className) <;> rfl

theorem getElem?_flatMap {α β : Type} {f : α → List β} {n : Nat} (hf : ∀ x, (f x).length = n)
    (pre post : List α) (x : α) {k : Nat} (hk : k < n) :
    ((pre ++ x :: post).flatMap f)[pre.length * n + k]? = (f x)[k]? := by
  have hpre : (pre.flatMap f).length = pre.length * n := by
    simp [List.length_flatMap, hf]
  rw [List.flatMap_append, List.flatMap_cons, List.getElem?_append_right (by omega), hpre,
    Nat.add_sub_cancel_left, List.getElem?_append_left (by rw [hf]; exact hk)]

theorem getOperand_flatMap {α : Type} {f : α → List Metadata} {n : Nat}
    (hf : ∀ x, (f x).length = n) (head : Metadata) (pre post : List α) (x : α) {k : Nat}
    {m : Metadata} (hm : (f x)[k]? = some m) :
    (Metadata.node (head :: (pre ++ x :: post).flatMap f)).getOperand
      (1 + pre.length * n + k) = .ok m := by
  have hk : k < n := hf x ▸ (List.getElem?_eq_some_iff.mp hm).1
  rw [Metadata.getOperand, Nat.add_assoc, Nat.add_comm 1, List.getElem?_cons_succ,
    getElem?_flatMap hf pre post x hk, hm, Option.elim_some]

theorem readParent_getMDNode (getGlobalVariable : String → Option String) (head : Metadata)
    (pre post : List Vtbl) (it : Vtbl) (parents : List Vtbl) (hname : Char.ofNat 0 ∉ it.1.toList)
    (hindex : it.2 < 2 ^ 32) :
    readParent (.node (head :: (pre ++ it :: post).flatMap fun it =>
        [getMDString it.1, .number it.2, getClassVtblGVMD getGlobalVariable it.1 none])) parents
      (0 + pre.length) =
    .ok (insertInto vtblLt (resolvedName getGlobalVariable it.1 none, it.2) parents) := by
  have hoperand : ∀ k m, [getMDString it.1, .number it.2,
      getClassVtblGVMD getGlobalVariable it.1 none][k]? = some m → _ :=
    fun k m => getOperand_flatMap (f := fun it : Vtbl =>
      [getMDString it.1, .number it.2, getClassVtblGVMD getGlobalVariable it.1 none]) (n := 3)
      (fun _ => rfl) head pre post it (k := k) (m := m)
  simp only [readParent, bind_eq_ok, Nat.zero_add]
  refine ⟨_, hoperand 0 _ rfl, _, rfl, _, hoperand 1 _ rfl, _, rfl, _, hoperand 2 _ rfl, _,
    mdnodeToGV_getClassVtblGVMD _ _ _, ?_⟩
  rw [cString_eq hname, Nat.mod_eq_of_lt hindex]
  rfl

theorem readFunction_getMDNode (vTable : Vtbl) (head : Metadata) (pre post : List (String × Nat))
    (it : String × Nat) (functions : List FunctionEntry) (hname : Char.ofNat 0 ∉ it.1.toList) :
    readFunction vTable (.node (head :: (pre ++ it :: post).flatMap fun it =>
        [getMDString it.1, .number it.2])) functions (0 + pre.length) =
    .ok (functions ++ [⟨it.1, vTable, it.2⟩]) := by
  have hoperand : ∀ k m, [getMDString it.1, Metadata.number it.2][k]? = some m → _ :=
    fun k m => getOperand_flatMap (f := fun it : String × Nat =>
      [getMDString it.1, .number it.2]) (n := 2) (fun _ => rfl) head pre post it (k := k) (m := m)
  simp only [readFunction, bind_eq_ok, Nat.zero_add]
  refine ⟨_, hoperand 0 _ rfl, _, rfl, _, hoperand 1 _ rfl, _, rfl, ?_⟩
  rw [cString_eq hname]
  rfl

theorem readSub_getMDNode (getGlobalVariable : String → Option String) (className : String)
    {sub : SDVtableMD} (h : sub.Encodable) :
    readSub className (sub.getMDNode getGlobalVariable) =
      .ok (sub.decoded getGlobalVariable className) := by
  have hparents : (List.range' 0 sub.parents.length).foldlM (readParent
      (.node (.number sub.parents.length :: sub.parents.flatMap fun it =>
        [getMDString it.1, .number it.2, getClassVtblGVMD getGlobalVariable it.1 none]))) [] =
      .ok (sub.decoded getGlobalVariable className).parents := by
    rw [foldlM_range'_eq_ok (g := fun parents (it : Vtbl) =>
      insertInto vtblLt (resolvedName getGlobalVariable it.1 none, it.2) parents)]
    · rw [SDVtableMD.decoded, toSet, List.foldl_map]
    · intro pre it post hsplit
      have hit := h.parents it (by simp [hsplit])
      rw [hsplit]
      exact readParent_getMDNode getGlobalVariable _ pre post it _ hit.1 hit.2
  have hfunctions : (List.range' 0 sub.functions.length).foldlM (readFunction (className, sub.order)
      (.node (.number sub.functions.length :: sub.functions.flatMap fun it =>
        [getMDString it.1, .number it.2]))) [] =
      .ok (sub.decoded getGlobalVariable className).functions := by
    rw [foldlM_range'_eq_ok (g := fun functions (it : String × Nat) =>
      functions ++ [⟨it.1, (className, sub.order), it.2⟩])]
    · rw [List.foldl_append_eq_append, List.nil_append, ← List.flatMap_def, ← List.map_eq_flatMap]
      rfl
    · intro pre it post hsplit
      have hit := h.functions it (by simp [hsplit])
      rw [hsplit]
      exact readFunction_getMDNode _ _ pre post it _ hit
  rw [readSub, bind_eq_ok]
  refine ⟨6, rfl, ?_⟩
  rw [if_neg (not_not.mpr rfl)]
  simp only [bind_eq_ok]
  refine ⟨_, rfl, _, rfl, _, rfl, _, rfl, _, rfl, _, rfl, _, rfl, _, rfl, _, rfl, _, rfl, _, rfl,
    _, rfl, _, ?_, _, rfl, _, rfl, _, ?_, rfl⟩
  · rw [Nat.mod_eq_of_lt h.numParents]
    exact hparents
  · rw [Nat.mod_eq_of_lt h.numFunctions]
    exact hfunctions

/-- The operands of a class are found wherever they stand in the node. -/
theorem getOperand_append (pre post : List Metadata) {operands : List Metadata} {k : Nat}
    {m : Metadata} (hm : operands[k]? = some m) :
    (Metadata.node (pre ++ (operands ++ post))).getOperand (pre.length + k) = .ok m := by
  have hk : k < operands.length := (List.getElem?_eq_some_iff.mp hm).1
  rw [Metadata.getOperand, List.getElem?_append_right (Nat.le_add_right _ _),
    Nat.add_sub_cancel_left, List.getElem?_append_left hk, hm, Option.elim_some]

theorem addSub_getMDNode {getGlobalVariable : String → Option String} {className : String}
    {md : Metadata} {op : Nat} {done rest : List SDVtableMD} {sub : SDVtableMD}
    (hsub : sub.Encodable)
    (hincreasing : (done ++ sub :: rest).Pairwise fun a b => a.stop < b.start)
    (hoperand : md.getOperand (op + done.length) = .ok (sub.getMDNode getGlobalVariable)) :
    addSub md className op (done.map (SDVtableMD.decoded getGlobalVariable className))
        (op + done.length) =
      .ok ((done ++ [sub]).map (SDVtableMD.decoded getGlobalVariable className)) := by
  rw [addSub, bind_eq_ok]
  refine ⟨_, hoperand, ?_⟩
  rw [bind_eq_ok]
  refine ⟨_, readSub_getMDNode getGlobalVariable className hsub, ?_⟩
  rw [if_pos]
  · rw [List.map_append]
    rfl
  · refine ⟨hsub.range, ?_⟩
    rcases List.eq_nil_or_concat done with rfl | ⟨front, last, rfl⟩
    · exact .inl rfl
    · have hlast := (List.pairwise_append.mp hincreasing).2.2 last (by simp) sub (by simp)
      refine .inr ?_
      rw [List.concat_eq_append, List.map_append, List.map_singleton, List.getLast?_append]
      exact decide_eq_true hlast

theorem ClassRecord.length_operands (info : ClassRecord) :
    info.operands.length = 3 + info.subVtables.length := by
  rw [operands, List.length_append, List.length_map]
  rfl

theorem ClassRecord.length_le_operands (records : List ClassRecord) :
    records.length ≤ (records.flatMap operands).length := by
  have hsum := List.length_le_sum_of_one_le (records.map fun r => r.operands.length) (by
    simp only [List.forall_mem_map, length_operands]
    omega)
  rwa [List.length_map, ← List.length_flatMap] at hsum

theorem readClass_operands {info : ClassRecord} (h : info.Encodable) (pre post : List Metadata)
    (hsize : pre.length + info.operands.length < 2 ^ 32) :
    readClass (.node (pre ++ (info.operands ++ post))) pre.length =
      .ok (info.decoded, pre.length + info.operands.length) := by
  have hoperand : ∀ k m, info.operands[k]? = some m →
      (Metadata.node (pre ++ (info.operands ++ post))).getOperand (pre.length + k) = .ok m :=
    fun k m => getOperand_append pre post
  have hsubs : (List.range' (pre.length + 3) info.subVtables.length).foldlM
      (addSub (.node (pre ++ (info.operands ++ post))) info.decoded.className (pre.length + 3)) [] =
      .ok info.decoded.subVTables := by
    have hmap : ∀ subs : List SDVtableMD, subs.foldl (fun subVTables sub =>
        subVTables ++ [sub.decoded info.getGlobalVariable info.decoded.className]) [] =
        subs.map (SDVtableMD.decoded info.getGlobalVariable info.decoded.className) := by
      intro subs
      rw [List.foldl_append_eq_append, List.nil_append, ← List.flatMap_def, ← List.map_eq_flatMap]
    rw [foldlM_range'_eq_ok (g := fun subVTables (sub : SDVtableMD) =>
      subVTables ++ [sub.decoded info.getGlobalVariable info.decoded.className]), hmap]
    · rfl
    · intro done sub rest hsplit
      have hget : info.operands[3 + done.length]? =
          some (sub.getMDNode info.getGlobalVariable) := by
        rw [ClassRecord.operands, List.getElem?_append_right (by simp)]
        simp [hsplit]
      rw [hmap, addSub_getMDNode (h.subVtables sub (by simp [hsplit])) (hsplit ▸ h.increasing)
        (by rw [Nat.add_assoc, hoperand _ _ hget]), List.map_append]
      rfl
  have hname : (info.vTable.or (info.getGlobalVariable info.className)).getD
      (cString info.className) = info.decoded.className := by
    rw [cString_eq h.className]
    rfl
  rw [ClassRecord.length_operands, ← Nat.add_assoc] at hsize
  have hone : (pre.length + 1) % 2 ^ 32 = pre.length + 1 := Nat.mod_eq_of_lt (by omega)
  have htwo : (pre.length + 2) % 2 ^ 32 = pre.length + 2 := Nat.mod_eq_of_lt (by omega)
  have hfirst : (pre.length + 3) % 2 ^ 32 = pre.length + 3 := Nat.mod_eq_of_lt (by omega)
  simp only [readClass, bind_eq_ok, hone, htwo, hfirst]
  refine ⟨_, hoperand 0 _ rfl, _, rfl, _, rfl, _, hoperand 1 _ rfl, _,
    mdnodeToGV_getClassVtblGVMD _ _ _, _, hoperand 2 _ rfl, _, rfl, _, rfl,
    info.decoded.subVTables, ?_, ?_⟩
  · rw [hname, Nat.mod_eq_of_lt hsize, Nat.add_sub_cancel_left]
    exact hsubs
  · rw [hname, Nat.mod_eq_of_lt hsize, ClassRecord.length_operands, ← Nat.add_assoc]
    rfl

/-- The first record of each class name. -/
def firstOfEach : List Nmd → List Nmd
  | [] => []
  | info :: infoVec =>
    info :: (firstOfEach infoVec).filter fun later => later.className ≠ info.className

theorem firstOfEach_concat (infoVec : List Nmd) (info : Nmd) :
    firstOfEach (infoVec ++ [info]) = if info.className ∈ infoVec.map Nmd.className
      then firstOfEach infoVec else firstOfEach infoVec ++ [info] := by
  induction infoVec with
  | nil => simp [firstOfEach]
  | cons first infoVec ih =>
    rw [List.cons_append, firstOfEach, ih]
    by_cases hfirst : info.className = first.className
    · simp only [List.map_cons, List.mem_cons, hfirst, true_or, if_true, firstOfEach]
      split
      · rfl
      · simp [List.filter_append, hfirst]
    · simp only [List.map_cons, List.mem_cons, hfirst, false_or, firstOfEach]
      split
      · rfl
      · simp [List.filter_append, hfirst]

theorem mem_firstOfEach_className {infoVec : List Nmd} {name : String} :
    name ∈ (firstOfEach infoVec).map Nmd.className ↔ name ∈ infoVec.map Nmd.className := by
  induction infoVec using List.reverseRecOn with
  | nil => rfl
  | append_singleton infoVec info ih =>
    rw [firstOfEach_concat]
    split
    · rename_i hmem
      rw [ih, List.map_append, List.mem_append, List.map_singleton, List.mem_singleton]
      exact ⟨.inl, fun h => h.elim id fun heq => heq ▸ hmem⟩
    · rw [List.map_append, List.map_append, List.mem_append, List.mem_append, ih]

/-- One turn of the loop reads one record, and more are left just when there are operands. -/
theorem extractClasses_step {done rest : List ClassRecord} {info : ClassRecord}
    (h : info.Encodable)
    (hsize : ((done ++ info :: rest).flatMap ClassRecord.operands).length < 2 ^ 32) (fuel : Nat) :
    extractClasses (.node ((done ++ info :: rest).flatMap ClassRecord.operands)) (fuel + 1)
        (done.flatMap ClassRecord.operands).length
        ((firstOfEach (done.map ClassRecord.decoded)).map Nmd.className)
        (firstOfEach (done.map ClassRecord.decoded)) =
      if rest = [] then .ok (firstOfEach ((done ++ [info]).map ClassRecord.decoded))
      else extractClasses (.node ((done ++ info :: rest).flatMap ClassRecord.operands)) fuel
        ((done ++ [info]).flatMap ClassRecord.operands).length
        ((firstOfEach ((done ++ [info]).map ClassRecord.decoded)).map Nmd.className)
        (firstOfEach ((done ++ [info]).map ClassRecord.decoded)) := by
  have hend : (done.flatMap ClassRecord.operands).length + info.operands.length ≤
      ((done ++ info :: rest).flatMap ClassRecord.operands).length := by
    rw [List.flatMap_append, List.flatMap_cons, List.length_append, List.length_append]
    omega
  have hread := readClass_operands h (done.flatMap ClassRecord.operands)
    (rest.flatMap ClassRecord.operands) (hend.trans_lt hsize)
  rw [← List.flatMap_cons, ← List.flatMap_append] at hread
  have hlength : (done.flatMap ClassRecord.operands).length + info.operands.length =
      ((done ++ [info]).flatMap ClassRecord.operands).length := by
    rw [List.flatMap_append, List.length_append, List.flatMap_singleton]
  have hmore : (done.flatMap ClassRecord.operands).length + info.operands.length <
      ((done ++ info :: rest).flatMap ClassRecord.operands).length ↔ rest ≠ [] := by
    rw [List.flatMap_append, List.flatMap_cons, List.length_append, List.length_append,
      ← Nat.add_assoc]
    cases rest with
    | nil => simp
    | cons next rest =>
      simp [ClassRecord.length_operands, List.flatMap_cons]
  have hinfoVec : (if info.decoded.className ∈
        (firstOfEach (done.map ClassRecord.decoded)).map Nmd.className
      then ((firstOfEach (done.map ClassRecord.decoded)).map Nmd.className,
        firstOfEach (done.map ClassRecord.decoded))
      else ((firstOfEach (done.map ClassRecord.decoded)).map Nmd.className ++
        [info.decoded.className], firstOfEach (done.map ClassRecord.decoded) ++ [info.decoded])) =
      ((firstOfEach ((done ++ [info]).map ClassRecord.decoded)).map Nmd.className,
        firstOfEach ((done ++ [info]).map ClassRecord.decoded)) := by
    rw [List.map_append, List.map_singleton, firstOfEach_concat]
    simp only [mem_firstOfEach_className]
    split
    · rfl
    · rw [List.map_append, List.map_singleton]
  rw [hlength] at hread hmore
  rw [extractClasses, hread]
  simp only [bind, Except.bind, hinfoVec, Metadata.numOperands, Nat.mod_eq_of_lt hsize, hmore]
  by_cases hrest : rest = []
  · rw [if_neg (not_not.mpr hrest), if_pos hrest]
    rfl
  · rw [if_pos hrest, if_neg hrest]

theorem extractClasses_operands (done : List ClassRecord) {rest : List ClassRecord}
    {info : ClassRecord} (h : ∀ r ∈ info :: rest, r.Encodable)
    (hsize : ((done ++ info :: rest).flatMap ClassRecord.operands).length < 2 ^ 32) {fuel : Nat}
    (hfuel : rest.length < fuel) :
    extractClasses (.node ((done ++ info :: rest).flatMap ClassRecord.operands)) fuel
        (done.flatMap ClassRecord.operands).length
        ((firstOfEach (done.map ClassRecord.decoded)).map Nmd.className)
        (firstOfEach (done.map ClassRecord.decoded)) =
      .ok (firstOfEach ((done ++ info :: rest).map ClassRecord.decoded)) := by
  induction rest generalizing done info fuel with
  | nil =>
    cases fuel with
    | zero => cases hfuel
    | succ fuel => rw [extractClasses_step (h info (by simp)) hsize, if_pos rfl]
  | cons next rest ih =>
    cases fuel with
    | zero => cases hfuel
    | succ fuel =>
      rw [extractClasses_step (h info (by simp)) hsize, if_neg (List.cons_ne_nil _ _)]
      have hnext := ih (done ++ [info]) (fun r hr => h r (List.mem_cons_of_mem _ hr))
        (by rwa [List.append_assoc]) (Nat.lt_of_succ_lt_succ hfuel)
      rwa [List.append_assoc, List.singleton_append] at hnext

end RhoFEM.CHA
