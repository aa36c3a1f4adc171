import RhoFEM.CHA.FunctionRanges
import RhoFEM.Return.Address
import RhoFEM.Return.Annotation

/-! The identifiers of a module: virtual functions are numbered from 1, static functions
after them, and the types of functions from `0x7FFFE` downwards. -/

namespace RhoFEM.CHA.SDBuildCHA

open RhoFEM.Lib.Fold RhoFEM.Lib.Traversal

variable {cha : SDBuildCHA}

/-- The numbers of virtual functions leave no gap. -/
theorem buildFunctionInfo_dense {info : FunctionInfo} (h : cha.buildFunctionInfo = .ok info) :
    Dense 1 info.numbering := by
  refine buildFunctionInfo_rule (P := fun s => Dense 1 s.numbering) (fun _ => dense_empty 1) ?_ h
  intro e s s' r hs hrec
  exact buildFunctionInfoForFunction_rule (fun _ _ hnone hn => hn.assign hnone)
    (fun _ _ r hn => hn.close r) hs hrec

end RhoFEM.CHA.SDBuildCHA

namespace RhoFEM.Return

open RhoFEM.CHA (SDBuildCHA)
open RhoFEM.Lib.StringRef

namespace SDReturnAddress

variable (getFunctionID : String → List Nat)

/-- The functions that `processStaticFunction` numbers. -/
def isProcessedStatic (F : Function) : Bool :=
  !isBlackListedFunction F && !isVirtualFunction getFunctionID F

def usesTypeID (F : Function) : Bool :=
  F.hasAddressTaken && (isProcessedStatic getFunctionID F ||
    (!isBlackListedFunction F && !(virtualIDs getFunctionID F.name).isEmpty))

/-- The types of the functions that get a type identifier. -/
def usedTypes (functions : List Function) : List FunctionType :=
  (functions.filter (usesTypeID getFunctionID)).map Function.functionType

/-- What one function changes besides the metadata. -/
theorem processFunction_cases (F : Function) (s : SDReturnAddress) :
    let s' := processFunction getFunctionID F s
    let ids := virtualIDs getFunctionID F.name
    (isProcessedStatic getFunctionID F = true ∧ s'.functionID = s.functionID + 1 ∧
      s'.functionIDMap = Function.update s.functionIDMap F.name (some s.functionID) ∧
      s'.encoder = (typeOperand F s.encoder).2) ∨
    (isProcessedStatic getFunctionID F = false ∧ isBlackListedFunction F = false ∧
      s'.functionID = s.functionID ∧ ∃ id, ids.head? = some id ∧
      s'.functionIDMap = Function.update s.functionIDMap F.name (some id) ∧
      s'.encoder = (typeOperand F s.encoder).2) ∨
    (isProcessedStatic getFunctionID F = false ∧ (isBlackListedFunction F = true ∨ ids = []) ∧
      s'.functionID = s.functionID ∧ s'.functionIDMap = s.functionIDMap ∧
      s'.encoder = s.encoder) := by
  intro s' ids
  simp only [s', ids, processFunction, isProcessedStatic]
  cases hblack : isBlackListedFunction F with
  | true => simp
  | false =>
    cases hvirtual : isVirtualFunction getFunctionID F with
    | false => exact .inl ⟨rfl, rfl, rfl, rfl⟩
    | true =>
      cases hids : virtualIDs getFunctionID F.name with
      | nil => simp [processVirtualFunction, hids]
      | cons id ids =>
        simp only [processVirtualFunction, hids]
        exact .inr (.inl ⟨rfl, trivial, rfl, id, rfl, rfl, rfl⟩)

variable {getFunctionID}

theorem processFunction_encoder (F : Function) (s : SDReturnAddress) :
    (processFunction getFunctionID F s).encoder =
      s.encoder.getTypeIDs (usedTypes getFunctionID [F]) := by
  have hused : usesTypeID getFunctionID F = true →
      s.encoder.getTypeIDs (usedTypes getFunctionID [F]) = (typeOperand F s.encoder).2 := by
    intro h
    have htaken : F.hasAddressTaken = true := by
      rw [usesTypeID, Bool.and_eq_true] at h
      exact h.1
    simp [usedTypes, h, typeOperand, htaken, SDEncoder.getTypeIDs]
  have hunused : usesTypeID getFunctionID F = false →
      s.encoder.getTypeIDs (usedTypes getFunctionID [F]) = s.encoder := by
    intro h
    simp [usedTypes, h, SDEncoder.getTypeIDs]
  have htype : F.hasAddressTaken = false → (typeOperand F s.encoder).2 = s.encoder := by
    intro h
    simp [typeOperand, h]
  rcases processFunction_cases getFunctionID F s with
    ⟨hstatic, -, -, hencoder⟩ | ⟨hstatic, hblack, -, id, hids, -, hencoder⟩ |
    ⟨hstatic, hnone, -, -, hencoder⟩
  · rw [hencoder]
    cases htaken : F.hasAddressTaken with
    | false => rw [htype htaken, hunused (by simp [usesTypeID, htaken])]
    | true => rw [hused (by simp [usesTypeID, htaken, hstatic])]
  · rw [hencoder]
    cases htaken : F.hasAddressTaken with
    | false => rw [htype htaken, hunused (by simp [usesTypeID, htaken])]
    | true =>
      have hne : virtualIDs getFunctionID F.name ≠ [] := by
        rintro hnil
        simp [hnil] at hids
      rw [hused (by simp [usesTypeID, htaken, hblack, hne])]
  · rw [hencoder, hunused]
    rcases hnone with hblack | hids
    · simp [usesTypeID, hstatic, hblack]
    · simp [usesTypeID, hstatic, hids]

theorem runOnModule_encoder (functions : List Function) (s : SDReturnAddress) :
    (runOnModule getFunctionID functions s).encoder =
      s.encoder.getTypeIDs (usedTypes getFunctionID functions) := by
  induction functions generalizing s with
  | nil => rfl
  | cons F Fs ih =>
    rw [runOnModule, List.foldl_cons, ← runOnModule, ih, processFunction_encoder,
      SDEncoder.getTypeIDs, SDEncoder.getTypeIDs, ← List.foldl_append, ← SDEncoder.getTypeIDs]
    congr 1
    simp only [usedTypes, ← List.map_append, ← List.filter_append, List.singleton_append]

theorem runOnModule_functionIDMap_of_notMem {functions : List Function} {name : String}
    (hname : name ∉ functions.map Function.name) (s : SDReturnAddress) :
    (runOnModule getFunctionID functions s).functionIDMap name = s.functionIDMap name := by
  induction functions generalizing s with
  | nil => rfl
  | cons F Fs ih =>
    obtain ⟨hne, hrest⟩ : name ≠ F.name ∧ name ∉ Fs.map Function.name := by simpa using hname
    rw [runOnModule, List.foldl_cons, ← runOnModule, ih hrest]
    rcases processFunction_cases getFunctionID F s with
      ⟨-, -, hmap, -⟩ | ⟨-, -, -, id, -, hmap, -⟩ | ⟨-, -, -, hmap, -⟩
    · rw [hmap, Function.update_of_ne hne]
    · rw [hmap, Function.update_of_ne hne]
    · rw [hmap]

/-- The identifier that a static function of the module got. -/
def StaticID (getFunctionID : String → List Nat) (functions : List Function) (s : SDReturnAddress)
    (id : Nat) : Prop :=
  ∃ F ∈ functions, isProcessedStatic getFunctionID F = true ∧ s.functionIDMap F.name = some id

theorem staticID_iff {functions : List Function} (hnodup : (functions.map Function.name).Nodup)
    (s : SDReturnAddress) (id : Nat) :
    StaticID getFunctionID functions (runOnModule getFunctionID functions s) id ↔
      s.functionID ≤ id ∧
        id < s.functionID + functions.countP (isProcessedStatic getFunctionID) := by
  induction functions generalizing s with
  | nil =>
    simp [StaticID]
  | cons F Fs ih =>
    obtain ⟨hF, hFs⟩ := List.nodup_cons.mp hnodup
    have hrest := ih hFs (processFunction getFunctionID F s)
    have hlast : (runOnModule getFunctionID Fs (processFunction getFunctionID F s)).functionIDMap
        F.name = (processFunction getFunctionID F s).functionIDMap F.name :=
      runOnModule_functionIDMap_of_notMem hF _
    have hcons : StaticID getFunctionID (F :: Fs) (runOnModule getFunctionID (F :: Fs) s) id ↔
        (isProcessedStatic getFunctionID F = true ∧
          (processFunction getFunctionID F s).functionIDMap F.name = some id) ∨
        StaticID getFunctionID Fs
          (runOnModule getFunctionID Fs (processFunction getFunctionID F s)) id := by
      rw [StaticID, List.exists_mem_cons_iff, runOnModule, List.foldl_cons, ← runOnModule, hlast,
        StaticID]
    rw [hcons, hrest]
    rcases processFunction_cases getFunctionID F s with
      ⟨hstatic, hid, hmap, -⟩ | ⟨hstatic, -, hid, -⟩ | ⟨hstatic, -, hid, -⟩
    · rw [hid, hmap, Function.update_self, List.countP_cons_of_pos hstatic]
      simp only [hstatic, true_and, Option.some.injEq]
      omega
    · rw [hid, List.countP_cons_of_neg (by simp [hstatic])]
      simp [hstatic]
    · rw [hid, List.countP_cons_of_neg (by simp [hstatic])]
      simp [hstatic]

end SDReturnAddress

/-- The checks tell all identifiers apart. -/
structure Distinguished (FunctionID : Nat → Prop) (TypeID : BitVec 32 → Prop) : Prop where
  functions : ∀ i j, FunctionID i → FunctionID j → i ≠ j → tagged i ≠ tagged j
  types : ∀ i t, FunctionID i → TypeID t → tagged i ≠ tagged t.toNat
  unknown : ∀ i, FunctionID i → tagged i ≠ unknownID

def SDEncoder.TypeID (e : SDEncoder) (id : BitVec 32) : Prop :=
  ∃ encoding, e.encodingToTypeID encoding = some id

/-- The largest identifier of a function; with no function there is none. -/
def lastFunctionID (maxID numOfStatic : Nat) : Nat :=
  if numOfStatic = 0 then maxID - 1 else maxID + numOfStatic

/-- The two blocks of function identifiers below and above the one that is skipped. -/
def FunctionIDs (maxID numOfStatic id : Nat) : Prop :=
  1 ≤ id ∧ id < maxID ∨ maxID + 1 ≤ id ∧ id < maxID + 1 + numOfStatic

def TypeIDs (numOfTypes : Nat) (id : BitVec 32) : Prop :=
  ∃ k < numOfTypes, id = 0x7FFFE - BitVec.ofNat 32 k

theorem FunctionIDs.le_last {maxID numOfStatic id : Nat} (h : FunctionIDs maxID numOfStatic id) :
    1 ≤ id ∧ id ≤ lastFunctionID maxID numOfStatic := by
  unfold FunctionIDs at h
  unfold lastFunctionID
  split <;> omega

theorem functionIDs_last {maxID numOfStatic : Nat} (h : lastFunctionID maxID numOfStatic ≠ 0) :
    FunctionIDs maxID numOfStatic (lastFunctionID maxID numOfStatic) := by
  unfold lastFunctionID at h ⊢
  unfold FunctionIDs
  split <;> split at h <;> omega

theorem typeID_toNat {k : Nat} (hk : k ≤ 0x7FFFE) :
    ((0x7FFFE : BitVec 32) - BitVec.ofNat 32 k).toNat = 0x7FFFE - k := by
  have hstart : (0x7FFFE : BitVec 32).toNat = 0x7FFFE := rfl
  rw [BitVec.toNat_sub, BitVec.toNat_ofNat, hstart]
  omega

theorem unknownID_toNat : unknownID.toNat = 0xFFFFF := rfl

/-- Identifiers below the tag bit are told apart. -/
theorem distinguished_of_le {maxID numOfStatic numOfTypes : Nat}
    (h : lastFunctionID maxID numOfStatic + numOfTypes ≤ 0x7FFFE) :
    Distinguished (FunctionIDs maxID numOfStatic) (TypeIDs numOfTypes) := by
  constructor
  case functions =>
    intro i j hi hj hne heq
    have hi := hi.le_last
    have hj := hj.le_last
    exact hne ((tagged_inj (by omega) (by omega)).mp heq)
  case types =>
    rintro i _ hi ⟨k, hk, rfl⟩ heq
    have hi := hi.le_last
    rw [typeID_toNat (by omega), tagged_inj (by omega) (by omega)] at heq
    omega
  case unknown =>
    intro i hi heq
    have hi := hi.le_last
    have hnat := congrArg BitVec.toNat heq
    rw [tagged_toNat (by omega), unknownID_toNat] at hnat
    omega

/-- The one number above the tag bit that collides with none below it. -/
theorem distinguished_of_skipped : Distinguished (FunctionIDs 0x7FFFF 1) (TypeIDs 0) := by
  have htop : (tagged 0x80000).toNat = 0x80000 := by decide
  have hlow : ∀ i, FunctionIDs 0x7FFFF 1 i → i ≠ 0x80000 →
      1 ≤ i ∧ i < 0x7FFFF ∧ (tagged i).toNat = i + 0x80000 := by
    intro i hi hne
    unfold FunctionIDs at hi
    refine ⟨by omega, by omega, tagged_toNat (by omega)⟩
  constructor
  case functions =>
    intro i j hi hj hne heq
    have hnat := congrArg BitVec.toNat heq
    by_cases hi' : i = 0x80000
    · subst hi'
      obtain ⟨hpos, -, hj⟩ := hlow j hj (Ne.symm hne)
      rw [htop, hj] at hnat
      omega
    · obtain ⟨hpos, hlt, hi⟩ := hlow i hi hi'
      by_cases hj' : j = 0x80000
      · subst hj'
        rw [htop, hi] at hnat
        omega
      · obtain ⟨-, -, hj⟩ := hlow j hj hj'
        rw [hi, hj] at hnat
        omega
  case types =>
    rintro i _ - ⟨k, hk, -⟩
    exact absurd hk (Nat.not_lt_zero k)
  case unknown =>
    intro i hi heq
    have hnat := congrArg BitVec.toNat heq
    by_cases hi' : i = 0x80000
    · subst hi'
      rw [htop, unknownID_toNat] at hnat
      omega
    · obtain ⟨-, hlt, hi⟩ := hlow i hi hi'
      rw [hi, unknownID_toNat] at hnat
      omega

/-- The blocks and the types stay apart just when the numbers suffice. -/
theorem distinguished_iff {maxID numOfStatic numOfTypes : Nat} :
    Distinguished (FunctionIDs maxID numOfStatic) (TypeIDs numOfTypes) ↔
      (lastFunctionID maxID numOfStatic = 0 ∨
        lastFunctionID maxID numOfStatic + numOfTypes ≤ 0x7FFFE ∨
        maxID = 0x7FFFF ∧ numOfStatic = 1 ∧ numOfTypes = 0) := by
  constructor
  · intro h
    by_contra hnot
    simp only [not_or] at hnot
    obtain ⟨hne, hsum, hcorner⟩ := hnot
    have hlast := functionIDs_last hne
    by_cases hle : lastFunctionID maxID numOfStatic ≤ 0x7FFFE
    · -- The last function has the number of a type.
      refine h.types _ _ hlast ⟨0x7FFFE - lastFunctionID maxID numOfStatic, by omega, rfl⟩ ?_
      rw [typeID_toNat (by omega), Nat.sub_sub_self hle]
    · by_cases hunknown : FunctionIDs maxID numOfStatic 0x7FFFF
      · exact h.unknown _ hunknown (by decide)
      · -- The number of an unknown callee is the one that is skipped.
        obtain ⟨rfl, hstatic⟩ : maxID = 0x7FFFF ∧ 1 ≤ numOfStatic := by
          unfold FunctionIDs at hunknown
          unfold lastFunctionID at hle
          split at hle <;> omega
        by_cases htwo : 2 ≤ numOfStatic
        · refine h.functions 0x80001 1 ?_ ?_ (by decide) (by decide)
            <;> unfold FunctionIDs <;> omega
        · refine h.types 0x7FFFE 0x7FFFE ?_ ⟨0, by omega, by decide⟩ (by decide)
          unfold FunctionIDs
          omega
  · rintro (hzero | hle | ⟨rfl, rfl, rfl⟩)
    · have hnone : ∀ i, ¬ FunctionIDs maxID numOfStatic i := by
        intro i hi
        have := hi.le_last
        omega
      exact ⟨fun i _ hi => absurd hi (hnone i), fun i _ hi => absurd hi (hnone i),
        fun i hi => absurd hi (hnone i)⟩
    · exact distinguished_of_le hle
    · exact distinguished_of_skipped

theorem Distinguished.congr {F F' : Nat → Prop} {T T' : BitVec 32 → Prop}
    (hF : ∀ i, F i ↔ F' i) (hT : ∀ t, T t ↔ T' t) : Distinguished F T ↔ Distinguished F' T' := by
  obtain rfl : F = F' := funext fun i => propext (hF i)
  obtain rfl : T = T' := funext fun t => propext (hT t)
  rfl

section Module

variable {cha : SDBuildCHA} {info : CHA.FunctionInfo} (functions : List Function)
  (metadata : NamedMetadata) (indirectCalls : List FunctionType)

/-- `SDReturnAddress` after it has numbered the functions of a module. -/
def numbered (info : CHA.FunctionInfo) : SDReturnAddress :=
  SDReturnAddress.runOnModule info.getFunctionID functions
    (SDReturnAddress.init info.getMaxID metadata)

/-- The identifiers of the virtual and of the static functions. -/
def FunctionID (info : CHA.FunctionInfo) (id : Nat) : Prop :=
  (∃ e, info.numbering.ids e = some id) ∨
    SDReturnAddress.StaticID info.getFunctionID functions (numbered functions metadata info) id

def numOfStatic (info : CHA.FunctionInfo) : Nat :=
  functions.countP (SDReturnAddress.isProcessedStatic info.getFunctionID)

/-- `SDReturnRange` asks the same encoder for the types of the indirect calls. -/
def TypeID (info : CHA.FunctionInfo) (id : BitVec 32) : Prop :=
  ((numbered functions metadata info).encoder.getTypeIDs indirectCalls).TypeID id

def numOfTypes (info : CHA.FunctionInfo) : Nat :=
  (encodings (SDReturnAddress.usedTypes info.getFunctionID functions ++ indirectCalls)).card

theorem functionID_iff (hinfo : cha.buildFunctionInfo = .ok info)
    (hnodup : (functions.map Function.name).Nodup) (id : Nat) :
    FunctionID functions metadata info id ↔
      FunctionIDs info.getMaxID (numOfStatic functions info) id :=
  or_congr ((SDBuildCHA.buildFunctionInfo_dense hinfo).mem_iff id)
    (SDReturnAddress.staticID_iff hnodup _ id)

theorem typeID_iff (info : CHA.FunctionInfo) (id : BitVec 32) :
    TypeID functions metadata indirectCalls info id ↔
      TypeIDs (numOfTypes functions indirectCalls info) id := by
  have hencoder : (numbered functions metadata info).encoder.getTypeIDs indirectCalls =
      (SDEncoder.init 0x7FFFE).getTypeIDs
        (SDReturnAddress.usedTypes info.getFunctionID functions ++ indirectCalls) := by
    rw [numbered, SDReturnAddress.runOnModule_encoder, SDEncoder.getTypeIDs,
      SDEncoder.getTypeIDs, ← List.foldl_append]
    rfl
  rw [TypeID, hencoder]
  exact (SDEncoder.getTypeIDs_descending 0x7FFFE _).mem_iff id

end Module

/-- Identifiers are told apart exactly when the function identifiers end below the type
identifiers; one more function fits only where the reserved number is skipped. -/
theorem identifiers_distinguished_iff {cha : SDBuildCHA} {info : CHA.FunctionInfo}
    (hinfo : cha.buildFunctionInfo = .ok info) (functions : List Function)
    (hnodup : (functions.map Function.name).Nodup) (metadata : NamedMetadata)
    (indirectCalls : List FunctionType) :
    Distinguished (FunctionID functions metadata info)
        (TypeID functions metadata indirectCalls info) ↔
      (lastFunctionID info.getMaxID (numOfStatic functions info) = 0 ∨
        lastFunctionID info.getMaxID (numOfStatic functions info) +
          numOfTypes functions indirectCalls info ≤ 0x7FFFE ∨
        info.getMaxID = 0x7FFFF ∧ numOfStatic functions info = 1 ∧
          numOfTypes functions indirectCalls info = 0) := by
  rw [Distinguished.congr (functionID_iff functions metadata hinfo hnodup)
    (typeID_iff functions metadata indirectCalls info)]
  exact distinguished_iff

/-- A function with a name of its own for every number, none of them blacklisted. -/
def plainFunction (n : Nat) : Function :=
  ⟨String.ofList (List.replicate (n + 1) 'f'), ⟨.void, []⟩, false, []⟩

theorem plainFunction_name_injective : Function.Injective fun n => (plainFunction n).name := by
  intro m n h
  have hlist := congrArg String.toList h
  simpa [plainFunction] using congrArg List.length hlist

theorem plainFunction_static (getFunctionID : String → List Nat) (n : Nat) :
    SDReturnAddress.isProcessedStatic getFunctionID (plainFunction n) = true := by
  have hmain : (plainFunction n).name ≠ "main" := fun h => by
    simpa [plainFunction, List.replicate_succ] using congrArg String.toList h
  have hnew : (plainFunction n).name ≠ "_Znwm" := fun h => by
    simpa [plainFunction, List.replicate_succ] using congrArg String.toList h
  have hstart : (plainFunction n).name.toList = 'f' :: List.replicate n 'f' := by
    simp [plainFunction, List.replicate_succ]
  simp [SDReturnAddress.isProcessedStatic, isBlackListedFunction, SDReturnAddress.isVirtualFunction,
    startswith, hmain, hnew, hstart, List.isPrefixOf]

theorem buildFunctionInfo_empty : SDBuildCHA.empty.buildFunctionInfo =
    .ok ⟨fun _ => [], fun _ => none, RhoFEM.Lib.Traversal.Numbering.empty 1⟩ := rfl

theorem identifiers_distinguished_iff_two : ∃ info, SDBuildCHA.empty.buildFunctionInfo = .ok info ∧
    (Distinguished (FunctionID [plainFunction 0, plainFunction 1] [] info)
        (TypeID [plainFunction 0, plainFunction 1] [] [] info) ↔
      (lastFunctionID info.getMaxID (numOfStatic [plainFunction 0, plainFunction 1] info) = 0 ∨
        lastFunctionID info.getMaxID (numOfStatic [plainFunction 0, plainFunction 1] info) +
          numOfTypes [plainFunction 0, plainFunction 1] [] info ≤ 0x7FFFE ∨
        info.getMaxID = 0x7FFFF ∧ numOfStatic [plainFunction 0, plainFunction 1] info = 1 ∧
          numOfTypes [plainFunction 0, plainFunction 1] [] info = 0)) :=
  ⟨_, buildFunctionInfo_empty,
    identifiers_distinguished_iff buildFunctionInfo_empty _ (by decide) [] []⟩

/-- In a module with `0x7FFFE` functions the last one has the number of an unknown callee. -/
theorem identifiers_collide : ∃ info, SDBuildCHA.empty.buildFunctionInfo = .ok info ∧
    ((List.range 0x7FFFE).map fun n => (plainFunction n).name).Nodup ∧
    ¬ Distinguished (FunctionID ((List.range 0x7FFFE).map plainFunction) [] info)
        (TypeID ((List.range 0x7FFFE).map plainFunction) [] [] info) := by
  have hnodup : ((List.range 0x7FFFE).map fun n => (plainFunction n).name).Nodup :=
    List.nodup_range.map plainFunction_name_injective
  refine ⟨_, buildFunctionInfo_empty, hnodup, fun h => ?_⟩
  refine h.unknown 0x7FFFF ?_ (by decide)
  rw [functionID_iff _ _ buildFunctionInfo_empty (by rwa [List.map_map])]
  have hstatic : ∀ getFunctionID, ((List.range 0x7FFFE).map plainFunction).countP
      (SDReturnAddress.isProcessedStatic getFunctionID) = 0x7FFFE := by
    intro getFunctionID
    rw [List.countP_eq_length.mpr (List.forall_mem_map.mpr fun n _ => plainFunction_static _ n),
      List.length_map, List.length_range]
  rw [numOfStatic, hstatic]
  exact .inr ⟨by decide, by decide⟩

end RhoFEM.Return
