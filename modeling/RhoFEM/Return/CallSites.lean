import RhoFEM.Lib.Fold
import RhoFEM.Return.Annotation
import RhoFEM.Return.Encoder

/-! The call sites that `SDReturnRange` records, and the tables that the backend loads from its
records. -/

namespace RhoFEM.Return

open RhoFEM.Lib.Fold RhoFEM.Lib.StringRef

structure DebugLoc where
  filename : String
  line : Nat
  col : Nat

/-- `writeDebugLocToStream`, and `debugLocToString` of the backend. -/
def DebugLoc.text (loc : DebugLoc) : String :=
  loc.filename ++ ":" ++ toString loc.line ++ ":" ++ toString loc.col

/-- A call or invoke instruction of the module. -/
structure CallSite where
  instruction : Nat
  calledFunction : Option String
  isTailCall : Bool
  isIndirectCall : Bool
  functionType : FunctionType

/-- A use of the intrinsic for a checked vtable pointer, with the call that was found for it. -/
structure IntrinsicCall where
  className : String
  preciseName : String
  functionName : String
  vCall : CallSite

/-- What is known of a call site besides its location. -/
inductive CallSiteInfo
  | virtual (className preciseName functionName : String) (min max : Nat)
  | direct (functionName : String) (id : Nat)
  | tail
  | indirect (typeID : Nat)
  deriving DecidableEq

abbrev CallSiteRecord := String × CallSiteInfo

def CallSiteInfo.text : CallSiteInfo → String
  | .virtual className preciseName functionName min max => className ++ "," ++ preciseName ++ "," ++
      functionName ++ "," ++ toString min ++ "," ++ toString max
  | .direct functionName id => functionName ++ "," ++ toString id
  | .tail => "__TAIL__"
  | .indirect typeID => "__INDIRECT__," ++ toString typeID

/-- The string that is stored for a call site. -/
def entry (record : CallSiteRecord) : String := record.1 ++ "," ++ record.2.text

structure SDReturnRange where
  debugLoc : Nat → Option DebugLoc
  pseudoDebugLoc : Nat
  callSiteDebugLocsVirtual : List String
  callSiteDebugLocsStatic : List String
  virtualCallSites : List Nat
  encoder : SDEncoder

namespace SDReturnRange

/-- Before the first call site; the locations are those of the module. -/
def init (debugLoc : Nat → Option DebugLoc) (encoder : SDEncoder) : SDReturnRange :=
  ⟨debugLoc, 1, [], [], [], encoder⟩

def pseudoLoc (n : Nat) : DebugLoc := ⟨"", n / 65536 % 2 ^ 32, n % 65536⟩

def getOrCreateDebugLoc (s : SDReturnRange) (site : CallSite) : DebugLoc × SDReturnRange :=
  match s.debugLoc site.instruction with
  | some loc => (loc, s)
  | none => (pseudoLoc s.pseudoDebugLoc, { s with
      debugLoc := Function.update s.debugLoc site.instruction (some (pseudoLoc s.pseudoDebugLoc))
      pseudoDebugLoc := s.pseudoDebugLoc + 1 })

variable (getFunctionRange : String → String → List (Nat × Nat))
  (functionIDMap : String → Option Nat)

/-- The record that is added, if there is one. The precise name is read from the operand of the
class name. -/
def addVirtualCallSite (s : SDReturnRange) (call : IntrinsicCall) :
    Option CallSiteRecord × SDReturnRange :=
  match getFunctionRange call.functionName call.className with
  | [] => (none, s)
  | range :: _ =>
    let (loc, s) := s.getOrCreateDebugLoc call.vCall
    let record := (loc.text,
      .virtual call.className call.className call.functionName range.1 range.2)
    (some record, { s with
      callSiteDebugLocsVirtual := s.callSiteDebugLocsVirtual ++ [entry record]
      virtualCallSites := s.virtualCallSites ++ [call.vCall.instruction] })

def addStaticCallSite (s : SDReturnRange) (site : CallSite) :
    Option CallSiteRecord × SDReturnRange :=
  let (loc, s) := s.getOrCreateDebugLoc site
  let add (info : CallSiteInfo) (s : SDReturnRange) : Option CallSiteRecord × SDReturnRange :=
    (some (loc.text, info), { s with
      callSiteDebugLocsStatic := s.callSiteDebugLocsStatic ++ [entry (loc.text, info)] })
  match site.calledFunction with
  | some functionName =>
    match functionIDMap functionName with
    | none => (none, s)
    | some id => add (.direct functionName id) s
  | none =>
    if site.isTailCall then add .tail s
    else
      let (typeID, encoder) := s.encoder.getTypeID site.functionType
      add (.indirect typeID.toNat) { s with encoder := encoder }

def isBlackListed (name : String) : Bool :=
  startswith name "llvm." || startswith name "__" || name == "_Znwm"

/-- The part of `processStaticCallSites` for one call. -/
def processStaticCallSite (s : SDReturnRange) (site : CallSite) :
    Option CallSiteRecord × SDReturnRange :=
  match site.calledFunction with
  | some callee =>
    if isBlackListed callee then (none, s) else addStaticCallSite functionIDMap s site
  | none =>
    if site.isIndirectCall && !s.virtualCallSites.contains site.instruction then
      addStaticCallSite functionIDMap s site
    else (none, s)

/-- The records that a loop adds, and the state after it. -/
def collect {α : Type} (add : SDReturnRange → α → Option CallSiteRecord × SDReturnRange) :
    List α → SDReturnRange → List CallSiteRecord × SDReturnRange
  | [], s => ([], s)
  | x :: xs, s =>
    let (record, s) := add s x
    let (records, s) := collect add xs s
    (record.toList ++ records, s)

/-- What is recorded for the virtual and for the other calls, and the state after both loops. -/
def processCallSites (s : SDReturnRange) (calls : List IntrinsicCall) (sites : List CallSite) :
    (List CallSiteRecord × List CallSiteRecord) × SDReturnRange :=
  let (virtuals, s) := collect (addVirtualCallSite getFunctionRange) calls s
  let (statics, s) := collect (processStaticCallSite functionIDMap) sites s
  ((virtuals, statics), s)

/-- The metadata strings for the virtual and for the other calls. -/
def storeCallSites (s : SDReturnRange) : List String × List String :=
  (s.callSiteDebugLocsVirtual.map cString, s.callSiteDebugLocsStatic.map cString)

end SDReturnRange

namespace SDMachineFunction

def empty : SDMachineFunction := ⟨fun _ => none, fun _ => none, fun _ => none, fun _ => none⟩

def loadVirtualCallSite (M : SDMachineFunction) (entry : String) : Option SDMachineFunction :=
  match entry.toList.splitOn ',' with
  | debugLoc :: _ :: _ :: functionName :: min :: max :: _ => do
    let min ← stoul min
    let max ← stoul max
    return { M with
      callSiteDebugLocVirtual := Function.update M.callSiteDebugLocVirtual
        (String.ofList debugLoc) (some (String.ofList functionName))
      callSiteRange := Function.update M.callSiteRange (String.ofList debugLoc) (some (min, max)) }
  | _ => none

def loadStaticCallSite (M : SDMachineFunction) (entry : String) : Option SDMachineFunction :=
  match entry.toList.splitOn ',' with
  | debugLoc :: functionName :: rest => do
    let M ← match rest with
      | [] => some M
      | idString :: _ => (stoul idString).map fun id => { M with
          callSiteID := Function.update M.callSiteID (String.ofList debugLoc) (some id) }
    return { M with
      callSiteDebugLocStatic := Function.update M.callSiteDebugLocStatic
        (String.ofList debugLoc) (some (String.ofList functionName)) }
  | _ => none

/-- `loadVirtualCallSiteData` and `loadStaticCallSiteData`. -/
def loadCallSiteData (entries : List String × List String) : Option SDMachineFunction := do
  entries.2.foldlM loadStaticCallSite (← entries.1.foldlM loadVirtualCallSite empty)

end SDMachineFunction

/-- The kind of a call site with its identifier or range. -/
inductive CallKind
  | virtual (min max : Nat)
  | direct (id : Nat)
  | tail
  | indirect (typeID : Nat)
  deriving DecidableEq

def CallSiteInfo.kind : CallSiteInfo → CallKind
  | .virtual _ _ _ min max => .virtual min max
  | .direct _ id => .direct id
  | .tail => .tail
  | .indirect typeID => .indirect typeID

def CallSiteInfo.isVirtual : CallSiteInfo → Bool
  | .virtual .. => true
  | _ => false

namespace SDMachineFunction

variable (M : SDMachineFunction)

/-- What `processVirtualCallSite` goes by. -/
def virtualKind (loc : String) : Option CallKind :=
  match M.callSiteDebugLocVirtual loc, M.callSiteRange loc with
  | some _, some range => some (.virtual range.1 range.2)
  | _, _ => none

/-- What `processStaticCallSite` goes by. -/
def staticKind (loc : String) : Option CallKind :=
  match M.callSiteDebugLocStatic loc with
  | none => none
  | some functionName =>
    let id := (M.callSiteID loc).getD 0
    some (if startswith functionName "__INDIRECT__" then .indirect id
      else if functionName = "__TAIL__" then .tail else .direct id)

/-- The kind that the backend finds for a location; virtual call sites come first. -/
def callKind (loc : String) : Option CallKind := (M.virtualKind loc).or (M.staticKind loc)

end SDMachineFunction

/-- The NOPs behind a call of a kind. -/
def CallKind.nops : CallKind → List (BitVec 32)
  | .virtual min max =>
    insertNoop (tagged min) (insertNoop (tagged ((max + 2 ^ 64 - min) % 2 ^ 64)) [])
  | .direct id => insertNoop (tagged id) []
  | .tail => []
  | .indirect typeID => insertNoop (tagged typeID) []

theorem SDMachineFunction.callKind_nops (M : SDMachineFunction) (loc : String) :
    ((M.processVirtualCallSite loc).orElse fun _ => M.processStaticCallSite loc) =
      (M.callKind loc).map CallKind.nops := by
  have hvirtual : M.processVirtualCallSite loc = (M.virtualKind loc).map CallKind.nops := by
    unfold processVirtualCallSite virtualKind
    cases M.callSiteDebugLocVirtual loc with
    | none => rfl
    | some functionName => cases M.callSiteRange loc <;> rfl
  have hstatic : M.processStaticCallSite loc = (M.staticKind loc).map CallKind.nops := by
    unfold processStaticCallSite staticKind
    cases M.callSiteDebugLocStatic loc with
    | none => rfl
    | some functionName =>
      dsimp only
      split
      · rfl
      · split <;> rfl
  rw [hvirtual, hstatic, callKind]
  cases M.virtualKind loc <;> rfl

def readRange : List (List Char) → Option CallKind
  | _ :: _ :: _ :: min :: max :: _ => do return .virtual (← stoul min) (← stoul max)
  | _ => none

def readID (kind : Nat → CallKind) : List (List Char) → Option CallKind
  | _ :: id :: _ => (stoul id).map kind
  | _ => none

/-- The numbers of a record at the places where the loaders look for them. -/
def CallSiteInfo.read (info : CallSiteInfo) : Option CallKind :=
  let fields := info.text.toList.splitOn ','
  match info with
  | .virtual .. => readRange fields
  | .direct .. => readID .direct fields
  | .indirect .. => readID .indirect fields
  | .tail => some .tail

/-- Names of direct callees do not start like the markers of the other kinds. -/
def CallSiteInfo.Unmarked : CallSiteInfo → Prop
  | .direct functionName _ => startswith functionName "__" = false
  | _ => True

theorem entry_splitOn {record : CallSiteRecord} (hloc : ',' ∉ record.1.toList) :
    (entry record).toList.splitOn ',' = record.1.toList :: record.2.text.toList.splitOn ',' := by
  have hchars : (entry record).toList = record.1.toList ++ ',' :: record.2.text.toList := by
    simp [entry]
  rw [hchars, List.splitOn_append_cons_self_of_not_mem hloc]

/-- Loading the record of a virtual call sets the kind at its location, or fails. -/
theorem loadVirtualCallSite_entry {record : CallSiteRecord} (hloc : ',' ∉ record.1.toList)
    (hvirtual : record.2.isVirtual = true) (M : SDMachineFunction) :
    record.2.read = none ∧ M.loadVirtualCallSite (entry record) = none ∨
      ∃ kind M', record.2.read = some kind ∧ M.loadVirtualCallSite (entry record) = some M' ∧
        M'.virtualKind = Function.update M.virtualKind record.1 (some kind) ∧
        M'.staticKind = M.staticKind := by
  have hread : record.2.read = readRange (record.2.text.toList.splitOn ',') := by
    obtain ⟨loc, info⟩ := record
    cases info with
    | virtual => rfl
    | direct => cases hvirtual
    | tail => cases hvirtual
    | indirect => cases hvirtual
  rw [SDMachineFunction.loadVirtualCallSite, entry_splitOn hloc, hread]
  rcases record.2.text.toList.splitOn ',' with
    _ | ⟨f₁, _ | ⟨f₂, _ | ⟨f₃, _ | ⟨f₄, _ | ⟨f₅, rest⟩⟩⟩⟩⟩
  · exact .inl ⟨rfl, rfl⟩
  · exact .inl ⟨rfl, rfl⟩
  · exact .inl ⟨rfl, rfl⟩
  · exact .inl ⟨rfl, rfl⟩
  · exact .inl ⟨rfl, rfl⟩
  · rw [readRange]
    dsimp only
    cases hmin : stoul f₄ with
    | none => exact .inl ⟨rfl, rfl⟩
    | some min =>
      cases hmax : stoul f₅ with
      | none => exact .inl ⟨rfl, rfl⟩
      | some max =>
        refine .inr ⟨_, _, rfl, rfl, ?_, rfl⟩
        funext loc
        by_cases h : loc = record.1
        · subst h
          simp [SDMachineFunction.virtualKind]
        · simp [SDMachineFunction.virtualKind, h]

theorem splitOn_head (l : List Char) : ∃ head rest, l.splitOn ',' = head :: rest ∧ ',' ∉ head ∧
    head <+: l := by
  by_cases hmem : ',' ∈ l
  · obtain ⟨pre, post, rfl, hpre⟩ := List.eq_append_cons_of_mem hmem
    exact ⟨pre, _, List.splitOn_append_cons_self_of_not_mem hpre post, hpre,
      List.prefix_append _ _⟩
  · exact ⟨l, [], List.splitOn_eq_singleton hmem, hmem, List.prefix_refl l⟩

theorem comma_notMem_toString (n : Nat) : ',' ∉ (toString n).toList :=
  fun h => absurd (isDigit_of_mem_toString h) (by decide)

theorem splitOn_append_toString (name : String) (n : Nat) :
    (name ++ "," ++ toString n).toList.splitOn ',' =
      name.toList.splitOn ',' ++ [(toString n).toList] := by
  have hchars : (name ++ "," ++ toString n).toList = name.toList ++ ',' :: (toString n).toList := by
    simp
  rw [hchars, List.splitOn_append_cons_self, List.splitOn_eq_singleton (comma_notMem_toString n)]

/-- The same for the record of any other call. -/
theorem loadStaticCallSite_entry {record : CallSiteRecord} (hloc : ',' ∉ record.1.toList)
    (hstatic : record.2.isVirtual = false) (hname : record.2.Unmarked) (M : SDMachineFunction) :
    record.2.read = none ∧ M.loadStaticCallSite (entry record) = none ∨
      ∃ kind M', record.2.read = some kind ∧ M.loadStaticCallSite (entry record) = some M' ∧
        M'.staticKind = Function.update M.staticKind record.1 (some kind) ∧
        M'.virtualKind = M.virtualKind := by
  obtain ⟨loc, info⟩ := record
  rw [SDMachineFunction.loadStaticCallSite, entry_splitOn hloc]
  cases info with
  | virtual => cases hstatic
  | direct functionName id =>
    obtain ⟨head, rest, hsplit, -, hfront⟩ := splitOn_head functionName.toList
    have hfields : (CallSiteInfo.direct functionName id).text.toList.splitOn ',' =
        head :: (rest ++ [(toString id).toList]) := by
      rw [CallSiteInfo.text, splitOn_append_toString, hsplit, List.cons_append]
    obtain ⟨f, fs, hrest⟩ : ∃ f fs, rest ++ [(toString id).toList] = f :: fs :=
      List.exists_cons_of_ne_nil (by simp)
    have hplain : ∀ pre : String, "__".toList <+: pre.toList →
        startswith (String.ofList head) pre = false := by
      intro pre hpre
      rw [Bool.eq_false_iff]
      intro hstart
      rw [startswith_iff, String.toList_ofList] at hstart
      have hunder : startswith functionName "__" = true :=
        startswith_iff.mpr (hpre.trans (hstart.trans hfront))
      exact absurd (hname ▸ hunder) Bool.false_ne_true
    have htail : String.ofList head ≠ "__TAIL__" := by
      intro heq
      have := hplain "__TAIL__" (by decide)
      rw [heq] at this
      exact absurd this (by decide)
    rw [CallSiteInfo.read, hfields, hrest]
    dsimp only [readID]
    cases hid : stoul f with
    | none => exact .inl ⟨rfl, rfl⟩
    | some n =>
      refine .inr ⟨_, _, rfl, rfl, ?_, rfl⟩
      funext other
      by_cases h : other = loc
      · subst h
        simp [SDMachineFunction.staticKind, hplain "__INDIRECT__" (by decide), htail]
      · simp [SDMachineFunction.staticKind, h]
  | tail =>
    have hfields : CallSiteInfo.tail.text.toList.splitOn ',' = ["__TAIL__".toList] :=
      List.splitOn_eq_singleton (by decide)
    rw [hfields]
    refine .inr ⟨_, _, rfl, rfl, ?_, rfl⟩
    funext other
    by_cases h : other = loc
    · subst h
      have hmarker : startswith "__TAIL__" "__INDIRECT__" = false := by decide
      simp [SDMachineFunction.staticKind, hmarker]
    · simp [SDMachineFunction.staticKind, h]
  | indirect typeID =>
    have hfields : (CallSiteInfo.indirect typeID).text.toList.splitOn ',' =
        ["__INDIRECT__".toList, (toString typeID).toList] := by
      have htext : (CallSiteInfo.indirect typeID).text = "__INDIRECT__" ++ "," ++ toString typeID :=
        rfl
      rw [htext, splitOn_append_toString, List.splitOn_eq_singleton (by decide)]
      rfl
    rw [CallSiteInfo.read, hfields]
    dsimp only [readID]
    cases hid : stoul (toString typeID).toList with
    | none => exact .inl ⟨rfl, rfl⟩
    | some n =>
      refine .inr ⟨_, _, rfl, rfl, ?_, rfl⟩
      funext other
      by_cases h : other = loc
      · subst h
        have hmarker : startswith "__INDIRECT__" "__INDIRECT__" = true := by decide
        simp [SDMachineFunction.staticKind, hmarker]
      · simp [SDMachineFunction.staticKind, h]

section Load

variable {virtuals statics : List CallSiteRecord}
  (hvirtual : ∀ r ∈ virtuals, r.2.isVirtual = true)
  (hstatic : ∀ r ∈ statics, r.2.isVirtual = false ∧ r.2.Unmarked)
include hvirtual hstatic

/-- With locations that are one field, the last record of a location decides. -/
theorem loadCallSiteData_entries (hloc : ∀ r ∈ virtuals ++ statics, ',' ∉ r.1.toList) :
    ((SDMachineFunction.loadCallSiteData (virtuals.map entry, statics.map entry)).isSome ↔
      ∀ r ∈ virtuals ++ statics, r.2.read.isSome) ∧
    ∀ M, SDMachineFunction.loadCallSiteData (virtuals.map entry, statics.map entry) = some M →
      ∀ loc, M.callKind loc = ((lastWrite Prod.fst virtuals loc).bind fun r => r.2.read).or
        ((lastWrite Prod.fst statics loc).bind fun r => r.2.read) := by
  rw [List.forall_mem_append] at hloc
  obtain ⟨hiff, hresult⟩ := foldlM_lastWrite
    (f := fun M r => SDMachineFunction.loadVirtualCallSite M (entry r))
    (fun M r hr => loadVirtualCallSite_entry (hloc.1 r hr) (hvirtual r hr) M) .empty
  rw [SDMachineFunction.loadCallSiteData, List.foldlM_map, List.forall_mem_append]
  cases hload : virtuals.foldlM
      (fun M r => SDMachineFunction.loadVirtualCallSite M (entry r)) .empty with
  | none =>
    rw [hload] at hiff
    refine ⟨⟨fun h => absurd h nofun, fun h => absurd (hiff.mpr h.1) nofun⟩, fun M h => ?_⟩
    cases h
  | some M₁ =>
    obtain ⟨hiff', hresult'⟩ := foldlM_lastWrite
      (f := fun M r => SDMachineFunction.loadStaticCallSite M (entry r))
      (fun M r hr => loadStaticCallSite_entry (hloc.2 r hr) (hstatic r hr).1 (hstatic r hr).2 M) M₁
    have haccepted := hiff.mp (Option.isSome_iff_exists.mpr ⟨M₁, hload⟩)
    obtain ⟨hframe, hview⟩ := hresult M₁ hload
    refine ⟨?_, fun M hM loc => ?_⟩
    · rw [Option.bind_eq_bind, Option.bind_some, List.foldlM_map, hiff']
      exact ⟨fun h => ⟨haccepted, h⟩, And.right⟩
    · rw [Option.bind_eq_bind, Option.bind_some, List.foldlM_map] at hM
      obtain ⟨hframe', hview'⟩ := hresult' M hM
      rw [SDMachineFunction.callKind, hframe', hview, hview', hframe]
      have hempty : SDMachineFunction.empty.virtualKind loc = none ∧
          SDMachineFunction.empty.staticKind loc = none := ⟨rfl, rfl⟩
      rw [hempty.1, hempty.2, Option.or_none, Option.or_none]

end Load

/-- The keys of the tables are first fields. -/
theorem callKind_of_comma {entries : List String × List String} {M : SDMachineFunction}
    (h : SDMachineFunction.loadCallSiteData entries = some M) {loc : String}
    (hloc : ',' ∈ loc.toList) : M.callKind loc = none := by
  have hkey : ∀ {l : List Char} {head rest}, l.splitOn ',' = head :: rest →
      loc ≠ String.ofList head := by
    rintro l head rest hsplit rfl
    obtain ⟨head', rest', hsplit', hhead, -⟩ := splitOn_head l
    rw [hsplit] at hsplit'
    obtain ⟨rfl, -⟩ := List.cons.inj hsplit'
    exact hhead (by simpa using hloc)
  rw [SDMachineFunction.loadCallSiteData, Option.bind_eq_bind, Option.bind_eq_some_iff] at h
  obtain ⟨M₁, hvirtual, hstatic⟩ := h
  let Absent (M : SDMachineFunction) : Prop :=
    M.callSiteDebugLocVirtual loc = none ∧ M.callSiteDebugLocStatic loc = none
  have hfirst : Absent M₁ := by
    refine foldlM_some_rule Absent ?_ ⟨rfl, rfl⟩ hvirtual
    intro M entry M' hM hstep
    unfold SDMachineFunction.loadVirtualCallSite at hstep
    split at hstep
    case h_1 head _ _ functionName minField maxField _ hsplit =>
      cases hmin : stoul minField with
      | none => simp [hmin] at hstep
      | some min =>
        cases hmax : stoul maxField with
        | none => simp [hmin, hmax] at hstep
        | some max =>
          simp only [hmin, hmax, Option.bind_eq_bind, Option.bind_some, Option.pure_def,
            Option.some.injEq] at hstep
          subst hstep
          exact ⟨(Function.update_of_ne (hkey hsplit) _ _).trans hM.1, hM.2⟩
    case h_2 => cases hstep
  have hboth : Absent M := by
    refine foldlM_some_rule Absent ?_ hfirst hstatic
    intro M entry M' hM hstep
    unfold SDMachineFunction.loadStaticCallSite at hstep
    split at hstep
    case h_1 head functionName rest hsplit =>
      have hother := Function.update_of_ne (hkey hsplit) (some (String.ofList functionName))
        M.callSiteDebugLocStatic
      cases rest with
      | nil =>
        obtain rfl := Option.some.inj hstep
        exact ⟨hM.1, hother.trans hM.2⟩
      | cons idString fields =>
        cases hid : stoul idString with
        | none => simp [hid] at hstep
        | some id =>
          simp only [hid, Option.map_some, Option.bind_eq_bind, Option.bind_some, Option.pure_def,
            Option.some.injEq] at hstep
          subst hstep
          exact ⟨hM.1, hother.trans hM.2⟩
    case h_2 => cases hstep
  simp [SDMachineFunction.callKind, SDMachineFunction.virtualKind, SDMachineFunction.staticKind,
    hboth.1, hboth.2]

namespace SDReturnRange

section Collect

variable {α : Type} {add : SDReturnRange → α → Option CallSiteRecord × SDReturnRange}

theorem collect_entries {strings : SDReturnRange → List String} {P : CallSiteRecord → Prop}
    (hstep : ∀ s x, strings (add s x).2 = strings s ++ (add s x).1.toList.map entry ∧
      ∀ r ∈ (add s x).1, P r) (xs : List α) (s : SDReturnRange) :
    strings (collect add xs s).2 = strings s ++ (collect add xs s).1.map entry ∧
      ∀ r ∈ (collect add xs s).1, P r := by
  induction xs generalizing s with
  | nil => exact ⟨by simp [collect], List.forall_mem_nil _⟩
  | cons x xs ih =>
    obtain ⟨hstrings, hrecord⟩ := hstep s x
    obtain ⟨hrest, hrecords⟩ := ih (add s x).2
    refine ⟨?_, ?_⟩
    · simp only [collect, hrest, hstrings, List.map_append, List.append_assoc]
    · rw [collect, List.forall_mem_append]
      exact ⟨fun r hr => hrecord r (by simpa using hr), hrecords⟩

theorem collect_frame {β : Type} {frame : SDReturnRange → β}
    (hstep : ∀ s x, frame (add s x).2 = frame s) (xs : List α) (s : SDReturnRange) :
    frame (collect add xs s).2 = frame s := by
  induction xs generalizing s with
  | nil => rfl
  | cons x xs ih => exact (ih _).trans (hstep s x)

/-- Locations are given, and never taken away. -/
def Located (s s' : SDReturnRange) : Prop :=
  ∀ instruction loc, s.debugLoc instruction = some loc → s'.debugLoc instruction = some loc

/-- The location of a recorded call stays the one of its record. -/
theorem collect_located {instruction : α → Nat}
    (hstep : ∀ s x, Located s (add s x).2 ∧ ∀ r ∈ (add s x).1,
      ∃ loc, (add s x).2.debugLoc (instruction x) = some loc ∧ loc.text = r.1)
    (xs : List α) (s : SDReturnRange) :
    Located s (collect add xs s).2 ∧ ∀ r ∈ (collect add xs s).1,
      ∃ x ∈ xs, ∃ loc, (collect add xs s).2.debugLoc (instruction x) = some loc ∧
        loc.text = r.1 := by
  induction xs generalizing s with
  | nil => exact ⟨fun _ _ => id, List.forall_mem_nil _⟩
  | cons x xs ih =>
    obtain ⟨hkept, hrecord⟩ := hstep s x
    obtain ⟨hrest, hrecords⟩ := ih (add s x).2
    refine ⟨fun i loc h => hrest i loc (hkept i loc h), ?_⟩
    rw [collect, List.forall_mem_append]
    refine ⟨fun r hr => ?_, fun r hr => ?_⟩
    · obtain ⟨loc, hloc, htext⟩ := hrecord r (by simpa using hr)
      exact ⟨x, by simp, loc, hrest _ _ hloc, htext⟩
    · obtain ⟨y, hy, hfound⟩ := hrecords r hr
      exact ⟨y, by simp [hy], hfound⟩

end Collect

variable (s : SDReturnRange)

theorem getOrCreateDebugLoc_spec (site : CallSite) :
    Located s (s.getOrCreateDebugLoc site).2 ∧
      (s.getOrCreateDebugLoc site).2.debugLoc site.instruction =
        some (s.getOrCreateDebugLoc site).1 ∧
      (s.getOrCreateDebugLoc site).2.callSiteDebugLocsVirtual = s.callSiteDebugLocsVirtual ∧
      (s.getOrCreateDebugLoc site).2.callSiteDebugLocsStatic = s.callSiteDebugLocsStatic := by
  rw [getOrCreateDebugLoc]
  cases h : s.debugLoc site.instruction with
  | some loc => exact ⟨fun _ _ => id, h, rfl, rfl⟩
  | none =>
    refine ⟨fun i loc hi => ?_, Function.update_self .., rfl, rfl⟩
    have hne : i ≠ site.instruction := by
      rintro rfl
      exact nomatch h.symm.trans hi
    exact (Function.update_of_ne hne _ _).trans hi

/-- What one call does to the state, where `strings` are those of its loop and `others` those of
the other one. -/
structure Added (strings others : SDReturnRange → List String) (P : CallSiteInfo → Prop)
    (s : SDReturnRange) (instruction : Nat) (result : Option CallSiteRecord × SDReturnRange) :
    Prop where
  strings : strings result.2 = strings s ++ result.1.toList.map entry
  others : others result.2 = others s
  located : Located s result.2
  location : ∀ r ∈ result.1, ∃ loc, result.2.debugLoc instruction = some loc ∧ loc.text = r.1
  kind : ∀ r ∈ result.1, P r.2

theorem Added.skip {strings others : SDReturnRange → List String} {P : CallSiteInfo → Prop}
    {instruction : Nat} : Added strings others P s instruction (none, s) where
  strings := (List.append_nil _).symm
  others := rfl
  located := fun _ _ => id
  location := nofun
  kind := nofun

theorem addVirtualCallSite_added (getFunctionRange : String → String → List (Nat × Nat))
    (call : IntrinsicCall) :
    Added callSiteDebugLocsVirtual callSiteDebugLocsStatic (·.isVirtual = true) s
      call.vCall.instruction (addVirtualCallSite getFunctionRange s call) := by
  rw [addVirtualCallSite]
  cases getFunctionRange call.functionName call.className with
  | nil => exact Added.skip s
  | cons range ranges =>
    obtain ⟨hkept, hloc, hvirtual, hstatic⟩ := getOrCreateDebugLoc_spec s call.vCall
    constructor
    · rw [← hvirtual]
      rfl
    · exact hstatic
    · exact hkept
    · rintro r ⟨⟩
      exact ⟨_, hloc, rfl⟩
    · rintro r ⟨⟩
      rfl

theorem addStaticCallSite_added (functionIDMap : String → Option Nat) (site : CallSite)
    (hname : ∀ callee, site.calledFunction = some callee → startswith callee "__" = false) :
    Added callSiteDebugLocsStatic callSiteDebugLocsVirtual
      (fun info => info.isVirtual = false ∧ info.Unmarked) s site.instruction
      (addStaticCallSite functionIDMap s site) := by
  obtain ⟨hkept, hloc, hvirtual, hstatic⟩ := getOrCreateDebugLoc_spec s site
  have hskip : Added callSiteDebugLocsStatic callSiteDebugLocsVirtual
      (fun info => info.isVirtual = false ∧ info.Unmarked) s site.instruction
      (none, (s.getOrCreateDebugLoc site).2) :=
    ⟨by simp [hstatic], hvirtual, hkept, nofun, nofun⟩
  have hadd : ∀ info : CallSiteInfo, info.isVirtual = false → info.Unmarked → ∀ encoder,
      Added callSiteDebugLocsStatic callSiteDebugLocsVirtual
        (fun info => info.isVirtual = false ∧ info.Unmarked) s site.instruction
        (some ((s.getOrCreateDebugLoc site).1.text, info), { (s.getOrCreateDebugLoc site).2 with
          encoder := encoder
          callSiteDebugLocsStatic := (s.getOrCreateDebugLoc site).2.callSiteDebugLocsStatic ++
            [entry ((s.getOrCreateDebugLoc site).1.text, info)] }) := by
    intro info hinfo hunmarked encoder
    constructor
    · rw [← hstatic]
      rfl
    · exact hvirtual
    · exact hkept
    · rintro r ⟨⟩
      exact ⟨_, hloc, rfl⟩
    · rintro r ⟨⟩
      exact ⟨hinfo, hunmarked⟩
  rw [addStaticCallSite]
  cases hcallee : site.calledFunction with
  | some callee =>
    dsimp only
    cases functionIDMap callee with
    | none => exact hskip
    | some id => exact hadd (.direct callee id) rfl (hname callee hcallee) _
  | none =>
    cases hsite : site.isTailCall with
    | true => exact hadd .tail rfl trivial _
    | false => exact hadd (.indirect _) rfl trivial _

theorem processStaticCallSite_added (functionIDMap : String → Option Nat) (site : CallSite) :
    Added callSiteDebugLocsStatic callSiteDebugLocsVirtual
      (fun info => info.isVirtual = false ∧ info.Unmarked) s site.instruction
      (processStaticCallSite functionIDMap s site) := by
  rw [processStaticCallSite]
  split
  case h_1 callee hcallee =>
    split
    · exact Added.skip s
    · rename_i hlisted
      refine addStaticCallSite_added s functionIDMap site fun other hother => ?_
      obtain rfl := Option.some.inj (hcallee.symm.trans hother)
      simp only [isBlackListed, Bool.or_eq_true, not_or, Bool.not_eq_true] at hlisted
      exact hlisted.1.2
  case h_2 hcallee =>
    split
    · exact addStaticCallSite_added s functionIDMap site
        fun callee h => nomatch hcallee.symm.trans h
    · exact Added.skip s

end SDReturnRange

section Records

variable {virtuals statics : List CallSiteRecord}

/-- Calls at one location are of one kind, with one identifier or range. -/
def Agree (records : List CallSiteRecord) : Prop :=
  ∀ r ∈ records, ∀ r' ∈ records, r.1 = r'.1 → r.2.kind = r'.2.kind

/-- No record holds a null character and no location a comma, the numbers of every record can be
read, calls at one location agree, and the last one of them is read as it was recorded. -/
structure Retrievable (records : List CallSiteRecord) : Prop where
  noNull : ∀ r ∈ records, Char.ofNat 0 ∉ (entry r).toList
  noComma : ∀ r ∈ records, ',' ∉ r.1.toList
  readable : ∀ r ∈ records, r.2.read.isSome
  agree : Agree records
  last : ∀ r ∈ records, lastWrite Prod.fst records r.1 = some r → r.2.read = some r.2.kind

theorem isVirtual_eq_of_kind_eq {info info' : CallSiteInfo} (h : info.kind = info'.kind) :
    info.isVirtual = info'.isVirtual := by
  cases info <;> cases info' <;> first | rfl | cases h

/-- Names without commas, and numbers of the machine. -/
def CallSiteInfo.Plain : CallSiteInfo → Prop
  | .virtual className preciseName functionName min max => ',' ∉ className.toList ∧
      ',' ∉ preciseName.toList ∧ ',' ∉ functionName.toList ∧ min < 2 ^ 64 ∧ max < 2 ^ 64
  | .direct functionName id => ',' ∉ functionName.toList ∧ id < 2 ^ 64
  | .tail => True
  | .indirect typeID => typeID < 2 ^ 64

theorem CallSiteInfo.Plain.read_eq {info : CallSiteInfo} (h : info.Plain) :
    info.read = some info.kind := by
  cases info with
  | virtual className preciseName functionName min max =>
    obtain ⟨hclass, hprecise, hfunction, hmin, hmax⟩ := h
    have hchars : (CallSiteInfo.virtual className preciseName functionName min max).text.toList =
        className.toList ++ ',' :: (preciseName.toList ++ ',' :: (functionName.toList ++
          ',' :: ((toString min).toList ++ ',' :: (toString max).toList))) := by
      simp [CallSiteInfo.text]
    rw [CallSiteInfo.read, hchars, List.splitOn_append_cons_self_of_not_mem hclass,
      List.splitOn_append_cons_self_of_not_mem hprecise,
      List.splitOn_append_cons_self_of_not_mem hfunction,
      List.splitOn_append_cons_self_of_not_mem (comma_notMem_toString min),
      List.splitOn_eq_singleton (comma_notMem_toString max)]
    dsimp only [readRange]
    rw [stoul_toString hmin, stoul_toString hmax]
    rfl
  | direct functionName id =>
    rw [CallSiteInfo.read, CallSiteInfo.text, splitOn_append_toString,
      List.splitOn_eq_singleton h.1]
    exact congrArg (Option.map CallKind.direct) (stoul_toString h.2)
  | tail => rfl
  | indirect typeID =>
    have htext : (CallSiteInfo.indirect typeID).text = "__INDIRECT__" ++ "," ++ toString typeID :=
      rfl
    rw [CallSiteInfo.read, htext, splitOn_append_toString, List.splitOn_eq_singleton (by decide)]
    exact congrArg (Option.map CallKind.indirect) (stoul_toString h)

theorem Retrievable.of_plain {records : List CallSiteRecord}
    (hnull : ∀ r ∈ records, Char.ofNat 0 ∉ (entry r).toList)
    (hcomma : ∀ r ∈ records, ',' ∉ r.1.toList) (hplain : ∀ r ∈ records, r.2.Plain)
    (hagree : Agree records) : Retrievable records where
  noNull := hnull
  noComma := hcomma
  readable r hr := by rw [(hplain r hr).read_eq, Option.isSome_some]
  agree := hagree
  last r hr _ := (hplain r hr).read_eq

variable (hvirtual : ∀ r ∈ virtuals, r.2.isVirtual = true)
  (hstatic : ∀ r ∈ statics, r.2.isVirtual = false ∧ r.2.Unmarked)
include hvirtual hstatic

/-- Where the calls at a location agree, the tables for the two loops do not compete for it. -/
theorem lastWrite_of_agree (hagree : Agree (virtuals ++ statics)) (loc : String) :
    ((lastWrite Prod.fst virtuals loc).bind fun r => r.2.read).or
        ((lastWrite Prod.fst statics loc).bind fun r => r.2.read) =
      (lastWrite Prod.fst (virtuals ++ statics) loc).bind fun r => r.2.read := by
  rw [lastWrite_append]
  cases hs : lastWrite Prod.fst statics loc with
  | none => simp
  | some r =>
    cases hv : lastWrite Prod.fst virtuals loc with
    | none => simp
    | some r' =>
      obtain ⟨hr, hloc⟩ := lastWrite_eq_some hs
      obtain ⟨hr', hloc'⟩ := lastWrite_eq_some hv
      have hkind := hagree r' (List.mem_append_left _ hr') r (List.mem_append_right _ hr)
        (hloc'.trans hloc.symm)
      have hsame := isVirtual_eq_of_kind_eq hkind
      rw [hvirtual r' hr', (hstatic r hr).1] at hsame
      cases hsame

theorem loadCallSiteData_found_iff (hnull : ∀ r ∈ virtuals ++ statics,
      Char.ofNat 0 ∉ (entry r).toList) :
    (∃ M, SDMachineFunction.loadCallSiteData (virtuals.map entry, statics.map entry) = some M ∧
      ∀ r ∈ virtuals ++ statics, M.callKind r.1 = some r.2.kind) ↔
      Retrievable (virtuals ++ statics) := by
  constructor
  · rintro ⟨M, hload, hfound⟩
    have hcomma : ∀ r ∈ virtuals ++ statics, ',' ∉ r.1.toList := by
      intro r hr hmem
      exact nomatch (callKind_of_comma hload hmem).symm.trans (hfound r hr)
    have hagree : Agree (virtuals ++ statics) := by
      intro r hr r' hr' hloc
      have h := hfound r hr
      rw [hloc, hfound r' hr'] at h
      exact (Option.some.inj h).symm
    obtain ⟨hiff, hkind⟩ := loadCallSiteData_entries hvirtual hstatic hcomma
    refine ⟨hnull, hcomma, hiff.mp (Option.isSome_iff_exists.mpr ⟨M, hload⟩), hagree, ?_⟩
    intro r hr hlast
    have h := hkind M hload r.1
    rw [lastWrite_of_agree hvirtual hstatic hagree, hlast, hfound r hr] at h
    exact h.symm
  · intro h
    obtain ⟨hiff, hkind⟩ := loadCallSiteData_entries hvirtual hstatic h.noComma
    obtain ⟨M, hload⟩ := Option.isSome_iff_exists.mp (hiff.mpr h.readable)
    refine ⟨M, hload, fun r hr => ?_⟩
    obtain ⟨r', hlast⟩ := exists_lastWrite Prod.fst hr
    obtain ⟨hr', hloc⟩ := lastWrite_eq_some hlast
    rw [hkind M hload, lastWrite_of_agree hvirtual hstatic h.agree, hlast, Option.bind_some,
      h.last r' hr' (hloc ▸ hlast), h.agree r' hr' r hr hloc]

end Records

/-- The records of a run reach the calls they were made for. -/
structure ReachOwnCalls (calls : List CallSite) (virtuals statics : List CallSiteRecord)
    (s : SDReturnRange) : Prop where
  stored : s.storeCallSites = (virtuals.map entry, statics.map entry)
  located : ∀ r ∈ virtuals ++ statics, ∃ call ∈ calls, ∃ loc,
    s.debugLoc call.instruction = some loc ∧ loc.text = r.1
  found : ∃ M, SDMachineFunction.loadCallSiteData s.storeCallSites = some M ∧
    ∀ r ∈ virtuals ++ statics, M.callKind r.1 = some r.2.kind

section Run

variable (getFunctionRange : String → String → List (Nat × Nat))
  (functionIDMap : String → Option Nat) (debugLoc : Nat → Option DebugLoc) (encoder : SDEncoder)
  (calls : List IntrinsicCall) (sites : List CallSite)

/-- What `processCallSites` leaves, for any module and any calls in it. -/
theorem processCallSites_spec {virtuals statics : List CallSiteRecord} {s : SDReturnRange}
    (hrun : SDReturnRange.processCallSites getFunctionRange functionIDMap (.init debugLoc encoder)
      calls sites = ((virtuals, statics), s)) :
    s.callSiteDebugLocsVirtual = virtuals.map entry ∧
      s.callSiteDebugLocsStatic = statics.map entry ∧
      (∀ r ∈ virtuals, r.2.isVirtual = true) ∧
      (∀ r ∈ statics, r.2.isVirtual = false ∧ r.2.Unmarked) ∧
      ∀ r ∈ virtuals ++ statics, ∃ call ∈ calls.map (·.vCall) ++ sites, ∃ loc,
        s.debugLoc call.instruction = some loc ∧ loc.text = r.1 := by
  let first := SDReturnRange.collect (SDReturnRange.addVirtualCallSite getFunctionRange) calls
    (.init debugLoc encoder)
  have hfirst := fun s call => SDReturnRange.addVirtualCallSite_added s getFunctionRange call
  have hsecond := fun s site => SDReturnRange.processStaticCallSite_added s functionIDMap site
  obtain ⟨hrecords, rfl⟩ := Prod.mk.inj hrun
  obtain ⟨rfl, rfl⟩ := Prod.mk.inj hrecords
  obtain ⟨hv, hvkind⟩ := SDReturnRange.collect_entries
    (fun s call => ⟨(hfirst s call).strings, (hfirst s call).kind⟩) calls (.init debugLoc encoder)
  have hvother := SDReturnRange.collect_frame (fun s call => (hfirst s call).others) calls
    (.init debugLoc encoder)
  obtain ⟨-, hvloc⟩ := SDReturnRange.collect_located
    (fun s call => ⟨(hfirst s call).located, (hfirst s call).location⟩) calls
    (.init debugLoc encoder)
  obtain ⟨hs, hskind⟩ := SDReturnRange.collect_entries
    (fun s site => ⟨(hsecond s site).strings, (hsecond s site).kind⟩) sites first.2
  have hsother := SDReturnRange.collect_frame (fun s site => (hsecond s site).others) sites
    first.2
  obtain ⟨hkept, hsloc⟩ := SDReturnRange.collect_located
    (fun s site => ⟨(hsecond s site).located, (hsecond s site).location⟩) sites first.2
  refine ⟨hsother.trans hv, hs.trans ?_, hvkind, hskind, ?_⟩
  · rw [hvother]
    exact List.nil_append _
  · rw [List.forall_mem_append]
    refine ⟨fun r hr => ?_, fun r hr => ?_⟩
    · obtain ⟨call, hcall, loc, hloc, htext⟩ := hvloc r hr
      exact ⟨call.vCall, List.mem_append_left _ (List.mem_map_of_mem hcall), loc,
        hkept _ _ hloc, htext⟩
    · obtain ⟨site, hsite, h⟩ := hsloc r hr
      exact ⟨site, List.mem_append_right _ hsite, h⟩

/-- Call site records reach their own calls exactly in these modules. -/
theorem callSites_reach_iff :
    let run := SDReturnRange.processCallSites getFunctionRange functionIDMap
      (.init debugLoc encoder) calls sites
    ReachOwnCalls (calls.map (·.vCall) ++ sites) run.1.1 run.1.2 run.2 ↔
      Retrievable (run.1.1 ++ run.1.2) := by
  intro run
  have hrun : SDReturnRange.processCallSites getFunctionRange functionIDMap
      (.init debugLoc encoder) calls sites = ((run.1.1, run.1.2), run.2) := rfl
  obtain ⟨hv, hs, hvirtual, hstatic, hlocated⟩ := processCallSites_spec getFunctionRange
    functionIDMap debugLoc encoder calls sites hrun
  have hstored : run.2.storeCallSites = (run.1.1.map entry, run.1.2.map entry) ↔
      ∀ r ∈ run.1.1 ++ run.1.2, Char.ofNat 0 ∉ (entry r).toList := by
    have hlist : ∀ records : List CallSiteRecord, (records.map entry).map cString =
        records.map entry ↔ ∀ r ∈ records, Char.ofNat 0 ∉ (entry r).toList := by
      intro records
      rw [List.map_map, List.map_inj_left]
      exact forall₂_congr fun r _ => cString_eq_iff
    rw [SDReturnRange.storeCallSites, hv, hs, Prod.mk.injEq, hlist, hlist, List.forall_mem_append]
  constructor
  · intro h
    exact (loadCallSiteData_found_iff hvirtual hstatic (hstored.mp h.stored)).mp
      (h.stored ▸ h.found)
  · intro h
    have heq := hstored.mpr h.noNull
    exact ⟨heq, hlocated, heq ▸ (loadCallSiteData_found_iff hvirtual hstatic h.noNull).mpr h⟩

end Run

/-- Two calls in the expansion of one macro have one location. -/
def macroCalls : List CallSite :=
  ["_Z1fv", "_Z1gv"].zipIdx.map fun (callee, i) => ⟨i, some callee, false, false, ⟨.void, []⟩⟩

def macroIDs (functionName : String) : Option Nat :=
  if functionName = "_Z1fv" then some 0x7FFFD
  else if functionName = "_Z1gv" then some 0x7FFFE
  else none

theorem callSites_collide :
    let run := SDReturnRange.processCallSites (fun _ _ => []) macroIDs
      (.init (fun _ => some ⟨"a.cpp", 3, 5⟩) (.init 0x7FFFF)) [] macroCalls
    ¬ ReachOwnCalls macroCalls run.1.1 run.1.2 run.2 := by
  intro run h
  obtain ⟨M, -, hfound⟩ := h.found
  have hfirst := hfound ("a.cpp:3:5", .direct "_Z1fv" 0x7FFFD) (by decide)
  have hsecond := hfound ("a.cpp:3:5", .direct "_Z1gv" 0x7FFFE) (by decide)
  have heq := Option.some.inj (hfirst.symm.trans hsecond)
  exact absurd heq (by decide)

end RhoFEM.Return
