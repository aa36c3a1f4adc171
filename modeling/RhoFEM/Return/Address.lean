import RhoFEM.Return.Encoder

/-! Function information as `SDReturnAddress` writes it into the module.  The
identifiers of virtual functions come from the class hierarchy, and static
functions are numbered after them. -/

namespace RhoFEM.Return

open RhoFEM.Lib.StringRef

def funcInfoVirtual : String := "sd.func_info.virtual."
def funcInfoNormal : String := "sd.func_info.normal."
def funcInfoBlacklist : String := "sd.func_info.blacklist."

def itaniumConstructorTokens : List String := ["C0Ev", "C1Ev", "C2Ev"]

structure SDReturnAddress where
  functionID : Nat
  functionIDMap : String → Option Nat
  encoder : SDEncoder
  metadata : NamedMetadata

def isBlackListedFunction (F : Function) : Bool :=
  startswith F.name "__" || startswith F.name "llvm." || F.name == "_Znwm" ||
    F.name == "main" || startswith F.name "_GLOBAL_"

/-- The function a thunk is used for: the first token of the name is dropped. -/
def thunkTarget (functionName : String) : String :=
  "_Z" ++ String.ofList (split '_' (functionName.toList.drop 1)).2

namespace SDReturnAddress

variable (getFunctionID : String → List Nat)

def init (maxID : Nat) (metadata : NamedMetadata) : SDReturnAddress where
  functionID := maxID + 1
  functionIDMap := fun _ => none
  encoder := SDEncoder.init 0x7FFFE
  metadata := metadata

def isVirtualFunction (F : Function) : Bool :=
  if !startswith F.name "_Z" then false
  else if itaniumConstructorTokens.any (endswith F.name) then false
  else if startswith F.name "_ZTh" then true
  else !(getFunctionID F.name).isEmpty

/-- The type identifier of an address-taken function, as the last operand. -/
def typeOperand (F : Function) (encoder : SDEncoder) : MDNode × SDEncoder :=
  if F.hasAddressTaken then
    ([.num (encoder.getTypeID F.functionType).1.toNat], (encoder.getTypeID F.functionType).2)
  else ([], encoder)

def processStaticFunction (F : Function) (s : SDReturnAddress) : MDNode × SDReturnAddress :=
  let type := typeOperand F s.encoder
  ([.str F.name, .num s.functionID] ++ type.1,
    { s with
      functionID := s.functionID + 1
      functionIDMap := Function.update s.functionIDMap F.name (some s.functionID)
      encoder := type.2 })

def virtualIDs (functionName : String) : List Nat :=
  if (getFunctionID functionName).isEmpty then
    if startswith functionName "_ZTh" then getFunctionID (thunkTarget functionName) else []
  else getFunctionID functionName

def processVirtualFunction (F : Function) (s : SDReturnAddress) : MDNode × SDReturnAddress :=
  match virtualIDs getFunctionID F.name with
  | [] => ([.str F.name], s)
  | id :: ids =>
    let type := typeOperand F s.encoder
    ([.str F.name, .num (id :: ids).length] ++ (id :: ids).map .num ++ type.1,
      { s with
        functionIDMap := Function.update s.functionIDMap F.name (some id)
        encoder := type.2 })

def processFunction (F : Function) (s : SDReturnAddress) : SDReturnAddress :=
  if isBlackListedFunction F then
    { s with metadata := addOperand (funcInfoBlacklist ++ F.name) [.str F.name] s.metadata }
  else if isVirtualFunction getFunctionID F then
    let (node, s) := processVirtualFunction getFunctionID F s
    { s with metadata := addOperand (funcInfoVirtual ++ F.name) node s.metadata }
  else
    let (node, s) := processStaticFunction F s
    { s with metadata := addOperand (funcInfoNormal ++ F.name) node s.metadata }

def runOnModule (functions : List Function) (s : SDReturnAddress) : SDReturnAddress :=
  functions.foldl (fun s F => processFunction getFunctionID F s) s

/-- What one function adds to the named metadata, in the state in which it is processed. -/
def funcInfo (F : Function) (s : SDReturnAddress) : String × MDNode :=
  if isBlackListedFunction F then (funcInfoBlacklist ++ F.name, [.str F.name])
  else if isVirtualFunction getFunctionID F then
    (funcInfoVirtual ++ F.name, (processVirtualFunction getFunctionID F s).1)
  else (funcInfoNormal ++ F.name, (processStaticFunction F s).1)

def funcInfos : List Function → SDReturnAddress → NamedMetadata
  | [], _ => []
  | F :: Fs, s => ((funcInfo getFunctionID F s).1, [(funcInfo getFunctionID F s).2]) ::
      funcInfos Fs (processFunction getFunctionID F s)

variable {getFunctionID}

theorem processVirtualFunction_metadata (F : Function) (s : SDReturnAddress) :
    (processVirtualFunction getFunctionID F s).2.metadata = s.metadata := by
  unfold processVirtualFunction
  split <;> rfl

theorem processFunction_metadata (F : Function) (s : SDReturnAddress) :
    (processFunction getFunctionID F s).metadata =
      addOperand (funcInfo getFunctionID F s).1 (funcInfo getFunctionID F s).2 s.metadata := by
  unfold processFunction funcInfo
  split
  · rfl
  · split
    · simp only [processVirtualFunction_metadata]
    · rfl

theorem funcInfo_name (getFunctionID : String → List Nat) (F : Function) (s : SDReturnAddress) :
    ∃ pre ∈ [funcInfoBlacklist, funcInfoVirtual, funcInfoNormal],
      (funcInfo getFunctionID F s).1 = pre ++ F.name := by
  unfold funcInfo
  split
  · exact ⟨funcInfoBlacklist, by simp, rfl⟩
  · split
    · exact ⟨funcInfoVirtual, by simp, rfl⟩
    · exact ⟨funcInfoNormal, by simp, rfl⟩

/-- The three kinds of records have names that differ whatever the functions are called. -/
theorem funcInfo_name_inj {F G : Function} {s t : SDReturnAddress}
    (h : (funcInfo getFunctionID F s).1 = (funcInfo getFunctionID G t).1) : F.name = G.name := by
  obtain ⟨pre, hpre, hF⟩ := funcInfo_name getFunctionID F s
  obtain ⟨pre', hpre', hG⟩ := funcInfo_name getFunctionID G t
  have hchars := congrArg String.toList (hF.symm.trans (h.trans hG))
  simp only [List.mem_cons, List.not_mem_nil, or_false] at hpre hpre'
  rcases hpre with rfl | rfl | rfl <;> rcases hpre' with rfl | rfl | rfl <;>
    simp [funcInfoBlacklist, funcInfoVirtual, funcInfoNormal, String.toList_inj] at hchars <;>
    exact hchars

theorem startswith_funcInfo (getFunctionID : String → List Nat) (F : Function)
    (s : SDReturnAddress) :
    startswith (funcInfo getFunctionID F s).1 "sd.func_info." = true := by
  unfold funcInfo
  split
  · simp [startswith, funcInfoBlacklist]
  · split <;> simp [startswith, funcInfoVirtual, funcInfoNormal]

theorem addOperand_of_notMem {name : String} {node : MDNode} {md : NamedMetadata}
    (h : name ∉ md.map Prod.fst) : addOperand name node md = md ++ [(name, [node])] := by
  induction md with
  | nil => rfl
  | cons entry md ih =>
    obtain ⟨n, nodes⟩ := entry
    obtain ⟨hne, hmd⟩ : name ≠ n ∧ name ∉ md.map Prod.fst := by simpa using h
    simp [addOperand, hne.symm, ih hmd]

/-- A run leaves one record for each function, in the order of the module. -/
theorem runOnModule_metadata {Fs : List Function} {s : SDReturnAddress}
    (hnodup : (Fs.map Function.name).Nodup)
    (hfresh : ∀ F ∈ Fs, ∀ t, (funcInfo getFunctionID F t).1 ∉ s.metadata.map Prod.fst) :
    (runOnModule getFunctionID Fs s).metadata = s.metadata ++ funcInfos getFunctionID Fs s := by
  induction Fs generalizing s with
  | nil => simp [runOnModule, funcInfos]
  | cons F Fs ih =>
    obtain ⟨hF, hFs⟩ : F.name ∉ Fs.map Function.name ∧ (Fs.map Function.name).Nodup := by
      simpa using hnodup
    have hstep : (processFunction getFunctionID F s).metadata =
        s.metadata ++ [((funcInfo getFunctionID F s).1, [(funcInfo getFunctionID F s).2])] := by
      rw [processFunction_metadata, addOperand_of_notMem (hfresh F (by simp) s)]
    have hrest := ih hFs (s := processFunction getFunctionID F s) (by
      intro G hG t hmem
      rw [hstep, List.map_append, List.mem_append] at hmem
      rcases hmem with hmem | hmem
      · exact hfresh G (by simp [hG]) t hmem
      · have hname := funcInfo_name_inj (by simpa using hmem)
        exact hF (hname ▸ List.mem_map_of_mem hG))
    rw [runOnModule, List.foldl_cons, ← runOnModule, hrest, hstep, funcInfos]
    simp

/-- What `FunctionIDMap` may say about a function of the module. -/
def Recorded (getFunctionID : String → List Nat) (functions : List Function) (name : String)
    (id : Nat) : Prop :=
  ∃ F ∈ functions, F.name = name ∧ isBlackListedFunction F = false ∧
    (isVirtualFunction getFunctionID F = true → (virtualIDs getFunctionID name).head? = some id)

theorem processFunction_functionIDMap {F : Function} {s : SDReturnAddress} {name : String}
    {id : Nat} (h : (processFunction getFunctionID F s).functionIDMap name = some id) :
    Recorded getFunctionID [F] name id ∨ s.functionIDMap name = some id := by
  by_cases hblack : isBlackListedFunction F = true
  · exact .inr (by simpa [processFunction, hblack] using h)
  by_cases hname : F.name = name
  · subst hname
    refine or_iff_not_imp_right.mpr fun hs => ⟨F, by simp, rfl, by simpa using hblack, ?_⟩
    intro hvirtual
    cases hids : virtualIDs getFunctionID F.name with
    | nil => simp [processFunction, hblack, hvirtual, processVirtualFunction, hids, hs] at h
    | cons first ids =>
      simpa [processFunction, hblack, hvirtual, processVirtualFunction, hids] using h
  · refine .inr ?_
    have hne : name ≠ F.name := fun e => hname e.symm
    by_cases hvirtual : isVirtualFunction getFunctionID F = true
    · cases hids : virtualIDs getFunctionID F.name with
      | nil => simpa [processFunction, hblack, hvirtual, processVirtualFunction, hids] using h
      | cons first ids =>
        simpa [processFunction, hblack, hvirtual, processVirtualFunction, hids, hne] using h
    · simpa [processFunction, hblack, hvirtual, processStaticFunction, hne] using h

theorem runOnModule_functionIDMap {functions : List Function} {s : SDReturnAddress} {name : String}
    {id : Nat} (h : (runOnModule getFunctionID functions s).functionIDMap name = some id) :
    Recorded getFunctionID functions name id ∨ s.functionIDMap name = some id := by
  induction functions generalizing s with
  | nil => exact .inr h
  | cons F Fs ih =>
    rcases ih (s := processFunction getFunctionID F s) h with ⟨G, hG, hrec⟩ | hF
    · exact .inl ⟨G, by simp [hG], hrec⟩
    · rcases processFunction_functionIDMap hF with ⟨G, hG, hrec⟩ | hs
      · exact .inl ⟨G, by simp_all, hrec⟩
      · exact .inr hs

/-- Names that start like a marker of the call site tables are blacklisted. -/
theorem Recorded.ne_tail {functions : List Function} {name : String} {id : Nat}
    (h : Recorded getFunctionID functions name id) : name ≠ "__TAIL__" := by
  obtain ⟨F, -, rfl, hblack, -⟩ := h
  intro hname
  simp [isBlackListedFunction, hname, startswith] at hblack

theorem Recorded.head_of_virtual {functions : List Function} {F : Function} {id : Nat}
    (hnodup : (functions.map Function.name).Nodup) (hF : F ∈ functions)
    (hvirtual : isVirtualFunction getFunctionID F = true)
    (h : Recorded getFunctionID functions F.name id) :
    (virtualIDs getFunctionID F.name).head? = some id := by
  obtain ⟨G, hG, hname, -, hids⟩ := h
  obtain rfl : G = F := List.inj_on_of_nodup_map hnodup hG hF hname
  exact hids hvirtual

end SDReturnAddress

end RhoFEM.Return
