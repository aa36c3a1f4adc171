import RhoFEM.Return.Module

/-! Call site annotations: the NOPs that `SDMachineFunction` puts behind a call. -/

namespace RhoFEM.Return

open RhoFEM.Lib.StringRef

/-- An identifier as both sides compare it: `uint32_t(ID | 0x80000)`. -/
def tagged (id : Nat) : BitVec 32 := BitVec.ofNat 32 (id ||| 0x80000)

theorem tagged_toNat {id : Nat} (h : id < 0x80000) : (tagged id).toNat = id + 0x80000 := by
  have hor : id ||| 0x80000 = id + 0x80000 := by
    have := Nat.two_pow_add_eq_or_of_lt (i := 19) h 1
    rw [Nat.or_comm, show (0x80000 : Nat) = 2 ^ 19 * 1 by rfl, ← this]
    omega
  rw [tagged, BitVec.toNat_ofNat, hor]
  omega

theorem tagged_inj {i j : Nat} (hi : i < 0x80000) (hj : j < 0x80000) :
    tagged i = tagged j ↔ i = j := by
  constructor
  · intro h
    have := congrArg BitVec.toNat h
    rw [tagged_toNat hi, tagged_toNat hj] at this
    omega
  · exact congrArg tagged

/-- The tag bit survives the truncation to 32 bits whatever the identifier is. -/
theorem tagged_getLsbD (id : Nat) : (tagged id).getLsbD 19 = true := by
  simp [tagged]

def unknownID : BitVec 32 := 0xFFFFF

inductive MachineOperand
  | global
  | externalSymbol
  | other
  deriving DecidableEq

structure MachineInstr where
  debugLoc : Option String
  operands : List MachineOperand

/-- The call site tables that the backend loads, by debug location. -/
structure SDMachineFunction where
  callSiteDebugLocVirtual : String → Option String
  callSiteDebugLocStatic : String → Option String
  callSiteRange : String → Option (Nat × Nat)
  callSiteID : String → Option Nat

/-- A NOP is put directly behind the call, before those already there. -/
def insertNoop (imm : BitVec 32) (nops : List (BitVec 32)) : List (BitVec 32) := imm :: nops

namespace SDMachineFunction

/-- The NOPs behind the call, or `none` when it is not a virtual call site. -/
def processVirtualCallSite (M : SDMachineFunction) (debugLocString : String) :
    Option (List (BitVec 32)) :=
  match M.callSiteDebugLocVirtual debugLocString, M.callSiteRange debugLocString with
  | some _, some range =>
    let min := range.1
    let width := (range.2 + 2 ^ 64 - min) % 2 ^ 64
    some (insertNoop (tagged min) (insertNoop (tagged width) []))
  | _, _ => none

def processStaticCallSite (M : SDMachineFunction) (debugLocString : String) :
    Option (List (BitVec 32)) :=
  match M.callSiteDebugLocStatic debugLocString with
  | none => none
  | some functionName =>
    let id := (M.callSiteID debugLocString).getD 0
    if startswith functionName "__INDIRECT__" then some (insertNoop (tagged id) [])
    else if functionName = "__TAIL__" then some []
    else some (insertNoop (tagged id) [])

/-- Calls of global functions and external symbols get no annotation. -/
def processUnknownCallSite (MI : MachineInstr) : Option (List (BitVec 32)) :=
  match MI.operands with
  | [] => none
  | .global :: _ => none
  | .externalSymbol :: _ => none
  | .other :: _ => some (insertNoop unknownID [])

/-- The part of `runOnMachineFunction` for one call instruction. -/
def processCall (M : SDMachineFunction) (MI : MachineInstr) : Option (List (BitVec 32)) :=
  match MI.debugLoc with
  | none => processUnknownCallSite MI
  | some debugLocString =>
    ((M.processVirtualCallSite debugLocString).orElse fun _ =>
      M.processStaticCallSite debugLocString).orElse fun _ => processUnknownCallSite MI

theorem processVirtualCallSite_range {M : SDMachineFunction} {loc f : String} {min max : Nat}
    (hf : M.callSiteDebugLocVirtual loc = some f)
    (hr : M.callSiteRange loc = some (min, max)) (hle : min ≤ max) (hmax : max < 2 ^ 64) :
    M.processVirtualCallSite loc = some [tagged min, tagged (max - min)] := by
  have hwidth : (max + 2 ^ 64 - min) % 2 ^ 64 = max - min := by omega
  simp only [processVirtualCallSite, hf, hr, insertNoop, hwidth]

theorem processStaticCallSite_id {M : SDMachineFunction} {loc f : String} {c : Nat}
    (hf : M.callSiteDebugLocStatic loc = some f) (hc : M.callSiteID loc = some c)
    (htail : f ≠ "__TAIL__") : M.processStaticCallSite loc = some [tagged c] := by
  simp [processStaticCallSite, hf, hc, htail, insertNoop]

theorem processUnknownCallSite_eq {MI : MachineInstr} {nops : List (BitVec 32)}
    (h : processUnknownCallSite MI = some nops) : nops = [unknownID] := by
  unfold processUnknownCallSite at h
  split at h <;> simp_all [insertNoop]

end SDMachineFunction

/-- The code at a return address: the NOPs, and the words the program has at
offsets they do not cover. -/
structure ReturnSite where
  address : BitVec 64
  nops : List (BitVec 32)
  code : Nat → BitVec 32

/-- The 32-bit word at an offset.  A NOP is three bytes of opcode and addressing
mode and then its displacement, so the `k`-th displacement is at `7 * k + 3`. -/
def ReturnSite.load (site : ReturnSite) (offset : Nat) : BitVec 32 :=
  if offset % 7 = 3 then site.nops[offset / 7]?.getD (site.code offset) else site.code offset

end RhoFEM.Return
