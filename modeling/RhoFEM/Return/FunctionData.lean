import RhoFEM.Return.Address
import RhoFEM.Return.Checks

/-! Function information as `SDReturnChecks` reads it back. -/

namespace RhoFEM.Return

open RhoFEM.Lib.StringRef

def MDOperand.getString : MDOperand → Option String
  | .str s => some s
  | .num _ => none

def MDOperand.getNumber : MDOperand → Option Nat
  | .str _ => none
  | .num n => some n

structure FunctionTables where
  staticFunctions : String → Option FunctionInfo
  virtualFunctions : String → Option FunctionInfo
  blackListedFunctions : String → Option FunctionInfo

namespace SDReturnChecks

/-- An operand that is missing or of the wrong kind is a failed cast. -/
def stringAt (Entry : MDNode) (i : Nat) : Option String := Entry[i]?.bind MDOperand.getString

def numberAt (Entry : MDNode) (i : Nat) : Option Nat := Entry[i]?.bind MDOperand.getNumber

def loadStatic (Entry : MDNode) : Option FunctionInfo := do
  let name ← stringAt Entry 0
  let ids ← if Entry.length > 2 then (numberAt Entry 1).map fun id => [id] else some []
  let typeID ← if Entry.length > 3 then (numberAt Entry 2).map Int.ofNat else some (-1)
  return ⟨name, ids, typeID⟩

def loadVirtual (Entry : MDNode) : Option FunctionInfo := do
  let name ← stringAt Entry 0
  if Entry.length > 2 then
    let numOfIDs ← numberAt Entry 1
    let ids ← (List.range numOfIDs).mapM fun i => numberAt Entry (2 + i)
    let typeID ← if numOfIDs + 2 < Entry.length then
      (numberAt Entry (2 + numOfIDs)).map Int.ofNat else some (-1)
    return ⟨name, ids, typeID⟩
  else return ⟨name, [], -1⟩

def loadBlackListed (Entry : MDNode) : Option FunctionInfo := do
  let name ← stringAt Entry 0
  return ⟨name, [], -1⟩

def insertInfo (table : String → Option FunctionInfo) (info : FunctionInfo) :
    String → Option FunctionInfo :=
  Function.update table info.name (some info)

/-- One named metadata node: only its first operand is read. -/
def loadEntry (tables : FunctionTables) (MD : String × List MDNode) : Option FunctionTables :=
  if startswith MD.1 funcInfoNormal then
    (MD.2.head?.bind loadStatic).map fun info =>
      { tables with staticFunctions := insertInfo tables.staticFunctions info }
  else if startswith MD.1 funcInfoVirtual then
    (MD.2.head?.bind loadVirtual).map fun info =>
      { tables with virtualFunctions := insertInfo tables.virtualFunctions info }
  else if startswith MD.1 funcInfoBlacklist then
    (MD.2.head?.bind loadBlackListed).map fun info =>
      { tables with blackListedFunctions := insertInfo tables.blackListedFunctions info }
  else some tables

def loadFunctionData (metadata : NamedMetadata) : Option FunctionTables :=
  metadata.foldlM loadEntry ⟨fun _ => none, fun _ => none, fun _ => none⟩

/-- The information for a function, as `processFunction` looks it up. -/
def functionInfo (tables : FunctionTables) (F : Function) :
    Option (ProcessingInfoType × FunctionInfo) :=
  match tables.blackListedFunctions F.name with
  | some info => some (.blackListed, info)
  | none => match tables.virtualFunctions F.name with
    | some info => some (.virtual, info)
    | none => (tables.staticFunctions F.name).map fun info => (.static, info)

def processFunction (tables : FunctionTables) (F : Function) : List ReturnCheck :=
  match functionInfo tables F with
  | some (type, info) => generateChecks F info type
  | none => []

theorem mapM_range'_eq_some {α : Type} {f : Nat → Option α} {xs : List α} {k : Nat}
    (h : ∀ (i : Nat) (hi : i < xs.length), f (k + i) = some (xs.get ⟨i, hi⟩)) :
    (List.range' k xs.length).mapM f = some xs := by
  induction xs generalizing k with
  | nil => rfl
  | cons x xs ih =>
    have hhead : f k = some x := h 0 (by simp)
    have htail := ih (k := k + 1) fun i hi => by
      have := h (i + 1) (by simpa using hi)
      rwa [show k + (i + 1) = k + 1 + i by omega] at this
    simp [List.range'_succ, hhead, htail]

end SDReturnChecks

namespace SDReturnAddress

open SDReturnChecks

variable (getFunctionID : String → List Nat)

def writtenIDs (F : Function) (s : SDReturnAddress) : List Nat :=
  if isVirtualFunction getFunctionID F then virtualIDs getFunctionID F.name else [s.functionID]

/-- A virtual function without identifiers gets no type identifier either. -/
def writtenTypeID (F : Function) (s : SDReturnAddress) : Int :=
  if F.hasAddressTaken ∧ writtenIDs getFunctionID F s ≠ [] then
    (s.encoder.getTypeID F.functionType).1.toNat
  else -1

/-- What is read back for a function.  A static function has an operand less than the reader
counts, so its last one is lost. -/
def loadedInfo (F : Function) (s : SDReturnAddress) : FunctionInfo :=
  if isBlackListedFunction F then ⟨F.name, [], -1⟩
  else if isVirtualFunction getFunctionID F then
    ⟨F.name, virtualIDs getFunctionID F.name, writtenTypeID getFunctionID F s⟩
  else ⟨F.name, if F.hasAddressTaken then [s.functionID] else [], -1⟩

def infoType (F : Function) : ProcessingInfoType :=
  if isBlackListedFunction F then .blackListed
  else if isVirtualFunction getFunctionID F then .virtual
  else .static

def store (F : Function) (s : SDReturnAddress) (tables : FunctionTables) : FunctionTables :=
  let info := loadedInfo getFunctionID F s
  if isBlackListedFunction F then
    { tables with
      blackListedFunctions := insertInfo tables.blackListedFunctions info }
  else if isVirtualFunction getFunctionID F then
    { tables with virtualFunctions := insertInfo tables.virtualFunctions info }
  else { tables with staticFunctions := insertInfo tables.staticFunctions info }

variable {getFunctionID}

/-- The record holds what is said to be written: the name, the number of
identifiers of a virtual function, the identifiers and the type identifier. -/
theorem funcInfo_node (F : Function) (s : SDReturnAddress) (hF : isBlackListedFunction F = false) :
    (funcInfo getFunctionID F s).2 = .str F.name ::
      ((if isVirtualFunction getFunctionID F ∧ writtenIDs getFunctionID F s ≠ [] then
          [.num (writtenIDs getFunctionID F s).length] else []) ++
        (writtenIDs getFunctionID F s).map .num ++
        if writtenTypeID getFunctionID F s = -1 then []
        else [.num (writtenTypeID getFunctionID F s).toNat]) := by
  have htype : ((s.encoder.getTypeID F.functionType).1.toNat : Int) ≠ -1 := by omega
  unfold funcInfo writtenTypeID writtenIDs
  by_cases hv : isVirtualFunction getFunctionID F = true
  · cases hids : virtualIDs getFunctionID F.name with
    | nil => simp [hF, hv, processVirtualFunction, hids]
    | cons id ids =>
      by_cases ht : F.hasAddressTaken = true <;>
        simp [hF, hv, processVirtualFunction, hids, typeOperand, ht, htype]
  · by_cases ht : F.hasAddressTaken = true <;>
      simp [hF, hv, processStaticFunction, typeOperand, ht, htype]

theorem mapM_numberAt (name count : MDOperand) (ids : List Nat) (rest : MDNode) :
    (List.range ids.length).mapM
        (fun i => numberAt (name :: count :: (ids.map MDOperand.num ++ rest)) (2 + i)) =
      some ids := by
  rw [List.range_eq_range']
  refine mapM_range'_eq_some fun i hi => ?_
  rw [numberAt, show 2 + (0 + i) = i + 2 by omega, List.getElem?_cons_succ,
    List.getElem?_cons_succ, List.getElem?_append_left (by simpa using hi)]
  simp [hi, MDOperand.getNumber]

/-- The last operand is the type identifier exactly when one follows the identifiers. -/
theorem loadVirtual_node (name : String) (id : Nat) (ids : List Nat) (type : Option Nat) :
    loadVirtual (.str name :: .num (id :: ids).length ::
        ((id :: ids).map MDOperand.num ++ type.toList.map MDOperand.num)) =
      some ⟨name, id :: ids, type.elim (-1) Int.ofNat⟩ := by
  have hloop := mapM_numberAt (.str name) (.num (id :: ids).length) (id :: ids)
    (type.toList.map MDOperand.num)
  have hname : stringAt (.str name :: .num (id :: ids).length ::
      ((id :: ids).map MDOperand.num ++ type.toList.map MDOperand.num)) 0 = some name := rfl
  have hcount : numberAt (.str name :: .num (id :: ids).length ::
      ((id :: ids).map MDOperand.num ++ type.toList.map MDOperand.num)) 1 =
        some (id :: ids).length := rfl
  simp only [loadVirtual, hname, hcount, hloop, Option.bind_eq_bind, Option.bind_some]
  cases type with
  | none => simp
  | some t =>
    have hlast : numberAt (.str name :: .num (id :: ids).length ::
        ((id :: ids).map MDOperand.num ++ [.num t])) (2 + (id :: ids).length) = some t := by
      rw [numberAt, Nat.add_comm, List.getElem?_cons_succ, List.getElem?_cons_succ,
        List.getElem?_append_right (by simp)]
      simp [MDOperand.getNumber]
    simp only [List.map_cons, List.cons_append, List.length_cons] at hlast
    simp [hlast]

theorem loadVirtual_processVirtualFunction (F : Function) (s : SDReturnAddress)
    (h : isVirtualFunction getFunctionID F = true) :
    loadVirtual (processVirtualFunction getFunctionID F s).1 =
      some ⟨F.name, virtualIDs getFunctionID F.name, writtenTypeID getFunctionID F s⟩ := by
  unfold processVirtualFunction writtenTypeID writtenIDs typeOperand
  simp only [h, if_true]
  cases hids : virtualIDs getFunctionID F.name with
  | nil => simp [loadVirtual, stringAt, MDOperand.getString]
  | cons id ids =>
    by_cases hF : F.hasAddressTaken = true
    · simpa [hF] using
        loadVirtual_node F.name id ids (some (s.encoder.getTypeID F.functionType).1.toNat)
    · simpa [hF] using loadVirtual_node F.name id ids none

theorem loadStatic_processStaticFunction (F : Function) (s : SDReturnAddress) :
    loadStatic (processStaticFunction F s).1 =
      some ⟨F.name, if F.hasAddressTaken then [s.functionID] else [], -1⟩ := by
  unfold processStaticFunction typeOperand
  split <;> simp [loadStatic, stringAt, numberAt, MDOperand.getString, MDOperand.getNumber]

theorem loadEntry_funcInfo (F : Function) (s : SDReturnAddress) (tables : FunctionTables) :
    loadEntry tables ((funcInfo getFunctionID F s).1, [(funcInfo getFunctionID F s).2]) =
      some (store getFunctionID F s tables) := by
  unfold funcInfo store loadedInfo
  by_cases hb : isBlackListedFunction F = true
  · have hnormal : startswith (funcInfoBlacklist ++ F.name) funcInfoNormal = false := by
      simp [startswith, funcInfoBlacklist, funcInfoNormal, List.isPrefixOf]
    have hvirtual : startswith (funcInfoBlacklist ++ F.name) funcInfoVirtual = false := by
      simp [startswith, funcInfoBlacklist, funcInfoVirtual, List.isPrefixOf]
    simp [hb, loadEntry, hnormal, hvirtual, startswith_append_self, loadBlackListed, stringAt,
      MDOperand.getString]
  · by_cases hv : isVirtualFunction getFunctionID F = true
    · have hnormal : startswith (funcInfoVirtual ++ F.name) funcInfoNormal = false := by
        simp [startswith, funcInfoVirtual, funcInfoNormal, List.isPrefixOf]
      simp [hb, hv, loadEntry, hnormal, startswith_append_self,
        loadVirtual_processVirtualFunction F s hv]
    · simp [hb, hv, loadEntry, startswith_append_self, loadStatic_processStaticFunction F s]

theorem loadEntry_of_not_funcInfo {entry : String × List MDNode} {tables : FunctionTables}
    (h : startswith entry.1 "sd.func_info." = false) : loadEntry tables entry = some tables := by
  have hpre : ∀ pre, "sd.func_info.".toList <+: pre.toList → startswith entry.1 pre = false := by
    intro pre hpre
    rw [Bool.eq_false_iff, ne_eq, startswith_iff] at h ⊢
    exact fun hp => h (hpre.trans hp)
  simp [loadEntry, hpre funcInfoNormal (by decide), hpre funcInfoVirtual (by decide),
    hpre funcInfoBlacklist (by decide)]

theorem foldlM_loadEntry_skip {md : NamedMetadata} {tables : FunctionTables}
    (h : ∀ entry ∈ md, startswith entry.1 "sd.func_info." = false) :
    md.foldlM loadEntry tables = some tables := by
  induction md with
  | nil => rfl
  | cons entry md ih =>
    rw [List.foldlM_cons, loadEntry_of_not_funcInfo (h entry (by simp))]
    exact ih fun e he => h e (by simp [he])

/-- The tables after the records of a run, each record stored in turn. -/
def storeAll (getFunctionID : String → List Nat) :
    List Function → SDReturnAddress → FunctionTables → FunctionTables
  | [], _, tables => tables
  | F :: Fs, s, tables => storeAll getFunctionID Fs (processFunction getFunctionID F s)
      (store getFunctionID F s tables)

theorem foldlM_loadEntry_funcInfos (Fs : List Function) (s : SDReturnAddress)
    (tables : FunctionTables) :
    (funcInfos getFunctionID Fs s).foldlM loadEntry tables =
      some (storeAll getFunctionID Fs s tables) := by
  induction Fs generalizing s tables with
  | nil => rfl
  | cons F Fs ih =>
    rw [funcInfos, List.foldlM_cons, loadEntry_funcInfo]
    exact ih _ _

theorem loadedInfo_name (getFunctionID : String → List Nat) (F : Function) (s : SDReturnAddress) :
    (loadedInfo getFunctionID F s).name = F.name := by
  unfold loadedInfo
  split
  · rfl
  · split <;> rfl

theorem functionInfo_store_self (F : Function) (s : SDReturnAddress) (tables : FunctionTables)
    (hfresh : functionInfo tables F = none) :
    functionInfo (store getFunctionID F s tables) F =
      some (infoType getFunctionID F, loadedInfo getFunctionID F s) := by
  have hblack : tables.blackListedFunctions F.name = none := by
    cases h : tables.blackListedFunctions F.name with
    | none => rfl
    | some info => simp [functionInfo, h] at hfresh
  have hvirtual : tables.virtualFunctions F.name = none := by
    cases h : tables.virtualFunctions F.name with
    | none => rfl
    | some info => simp [functionInfo, hblack, h] at hfresh
  have hname := loadedInfo_name getFunctionID F s
  unfold store infoType
  split
  · simp [functionInfo, insertInfo, hname]
  · split <;> simp [functionInfo, insertInfo, hname, hblack, hvirtual]

theorem functionInfo_store_of_ne {F G : Function} (s : SDReturnAddress) (tables : FunctionTables)
    (h : G.name ≠ F.name) :
    functionInfo (store getFunctionID F s tables) G = functionInfo tables G := by
  have hname := loadedInfo_name getFunctionID F s
  unfold store
  split
  · simp [functionInfo, insertInfo, hname, h]
  · split <;> simp [functionInfo, insertInfo, hname, h]

theorem functionInfo_storeAll_of_notMem {Fs : List Function} {G : Function} (s : SDReturnAddress)
    (tables : FunctionTables) (h : G.name ∉ Fs.map Function.name) :
    functionInfo (storeAll getFunctionID Fs s tables) G = functionInfo tables G := by
  induction Fs generalizing s tables with
  | nil => rfl
  | cons F Fs ih =>
    obtain ⟨hF, hFs⟩ : G.name ≠ F.name ∧ G.name ∉ Fs.map Function.name := by simpa using h
    rw [storeAll, ih _ _ hFs, functionInfo_store_of_ne s tables hF]

theorem functionInfo_storeAll {pre post : List Function} {F : Function} (s : SDReturnAddress)
    (tables : FunctionTables) (hnodup : ((pre ++ F :: post).map Function.name).Nodup)
    (hfresh : functionInfo tables F = none) :
    functionInfo (storeAll getFunctionID (pre ++ F :: post) s tables) F =
      some (infoType getFunctionID F,
        loadedInfo getFunctionID F (runOnModule getFunctionID pre s)) := by
  induction pre generalizing s tables with
  | nil =>
    have hpost : F.name ∉ post.map Function.name := by
      simp only [List.nil_append, List.map_cons, List.nodup_cons] at hnodup
      exact hnodup.1
    rw [List.nil_append, storeAll, functionInfo_storeAll_of_notMem _ _ hpost,
      functionInfo_store_self F s tables hfresh]
    rfl
  | cons G pre ih =>
    simp only [List.cons_append, List.map_cons, List.nodup_cons] at hnodup
    have hne : F.name ≠ G.name := fun h => hnodup.1 (by simp [← h])
    rw [List.cons_append, storeAll,
      ih _ _ hnodup.2 (by rw [functionInfo_store_of_ne s tables hne, hfresh])]
    rfl

/-- Loading what a run of `SDReturnAddress` left in the module succeeds, and
finds for every function what that function's record says. -/
theorem loadFunctionData_runOnModule (getFunctionID : String → List Nat) {pre post : List Function}
    {F : Function} (s : SDReturnAddress) (hnodup : ((pre ++ F :: post).map Function.name).Nodup)
    (hmd : ∀ entry ∈ s.metadata, startswith entry.1 "sd.func_info." = false) :
    ∃ tables, loadFunctionData (runOnModule getFunctionID (pre ++ F :: post) s).metadata =
        some tables ∧
      functionInfo tables F = some (infoType getFunctionID F,
        loadedInfo getFunctionID F (runOnModule getFunctionID pre s)) := by
  refine ⟨storeAll getFunctionID (pre ++ F :: post) s ⟨fun _ => none, fun _ => none, fun _ => none⟩,
    ?_, functionInfo_storeAll s _ hnodup rfl⟩
  have hfresh : ∀ G ∈ pre ++ F :: post, ∀ t,
      (funcInfo getFunctionID G t).1 ∉ s.metadata.map Prod.fst := by
    intro G _ t hmem
    obtain ⟨entry, hentry, hname⟩ := List.mem_map.mp hmem
    have := startswith_funcInfo getFunctionID G t
    rw [← hname, hmd entry hentry] at this
    exact Bool.noConfusion this
  rw [loadFunctionData, runOnModule_metadata hnodup hfresh, List.foldlM_append,
    foldlM_loadEntry_skip hmd]
  exact foldlM_loadEntry_funcInfos _ _ _

/-- The record of `F` is read back as it was written. -/
def RoundTrips (getFunctionID : String → List Nat) (md : NamedMetadata) (F : Function)
    (s : SDReturnAddress) : Prop :=
  ∃ tables type info, loadFunctionData md = some tables ∧
    functionInfo tables F = some (type, info) ∧ info.ids = writtenIDs getFunctionID F s ∧
      info.typeID = writtenTypeID getFunctionID F s

theorem functionInfo_roundTrips_iff (getFunctionID : String → List Nat) (maxID : Nat)
    (md : NamedMetadata) (pre post : List Function) (F : Function)
    (hnodup : ((pre ++ F :: post).map Function.name).Nodup)
    (hmd : ∀ entry ∈ md, startswith entry.1 "sd.func_info." = false)
    (hF : isBlackListedFunction F = false) :
    RoundTrips getFunctionID
        (runOnModule getFunctionID (pre ++ F :: post) (init maxID md)).metadata F
        (runOnModule getFunctionID pre (init maxID md)) ↔
      isVirtualFunction getFunctionID F = true := by
  obtain ⟨tables, hload, hinfo⟩ := loadFunctionData_runOnModule getFunctionID
    (init maxID md) hnodup hmd
  generalize runOnModule getFunctionID pre (init maxID md) = s at hinfo ⊢
  by_cases hv : isVirtualFunction getFunctionID F = true
  · refine iff_of_true ⟨tables, _, _, hload, hinfo, ?_, ?_⟩ hv
    · simp [loadedInfo, writtenIDs, hF, hv]
    · simp [loadedInfo, hF, hv]
  · refine iff_of_false ?_ hv
    rintro ⟨tables', type, info, hload', hinfo', hids, htype⟩
    obtain rfl : tables = tables' := Option.some.inj (hload.symm.trans hload')
    obtain ⟨-, rfl⟩ := Prod.mk.inj (Option.some.inj (hinfo.symm.trans hinfo'))
    -- one operand is lost: the type identifier if there is one, else the identifier
    by_cases ht : F.hasAddressTaken = true
    · simp [loadedInfo, writtenTypeID, writtenIDs, hF, hv, ht] at htype
    · simp [loadedInfo, writtenIDs, hF, hv, ht] at hids

theorem functionInfo_roundTrips_iff_virtual :
    RoundTrips (fun n => if n = "_ZN1A1fEv" then [1, 4] else [])
      (runOnModule (fun n => if n = "_ZN1A1fEv" then [1, 4] else [])
        [⟨"_Z3runv", ⟨.void, []⟩, false, [0]⟩, ⟨"_ZN1A1fEv", ⟨.void, []⟩, true, [0]⟩]
        (init 4 [])).metadata ⟨"_ZN1A1fEv", ⟨.void, []⟩, true, [0]⟩
      (runOnModule (fun n => if n = "_ZN1A1fEv" then [1, 4] else [])
        [⟨"_Z3runv", ⟨.void, []⟩, false, [0]⟩] (init 4 [])) :=
  (functionInfo_roundTrips_iff _ 4 [] [⟨"_Z3runv", ⟨.void, []⟩, false, [0]⟩] []
    ⟨"_ZN1A1fEv", ⟨.void, []⟩, true, [0]⟩ (by decide) (by decide) (by decide)).mpr (by decide)

/-- The identifier of a static function whose address is not taken is lost. -/
theorem functionInfo_static_lost :
    (runOnModule (fun _ => []) [⟨"_Z3runv", ⟨.void, []⟩, false, [0]⟩] (init 1 [])).metadata =
        [("sd.func_info.normal._Z3runv", [[.str "_Z3runv", .num 2]])] ∧
      ¬ RoundTrips (fun _ => [])
        (runOnModule (fun _ => []) [⟨"_Z3runv", ⟨.void, []⟩, false, [0]⟩] (init 1 [])).metadata
        ⟨"_Z3runv", ⟨.void, []⟩, false, [0]⟩ (init 1 []) := by
  refine ⟨by decide, ?_⟩
  rintro ⟨tables, type, info, hload, hinfo, hids, -⟩
  obtain ⟨tables', hload', hinfo'⟩ := @loadFunctionData_runOnModule (fun _ => []) [] []
    ⟨"_Z3runv", ⟨.void, []⟩, false, [0]⟩ (init 1 []) (by decide) (by decide)
  obtain rfl : tables = tables' := Option.some.inj (hload.symm.trans hload')
  rw [(Prod.mk.inj (Option.some.inj (hinfo.symm.trans hinfo'))).2] at hids
  exact absurd hids (by decide)

end SDReturnAddress

end RhoFEM.Return
