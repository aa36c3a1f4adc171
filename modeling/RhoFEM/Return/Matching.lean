import RhoFEM.Return.Checks

/-! Which returns the checks let pass, by the annotation of the call site. -/

namespace RhoFEM.Return

open RhoFEM.Lib.StringRef

theorem load_first {site : ReturnSite} {w : BitVec 32} {rest : List (BitVec 32)}
    (h : site.nops = w :: rest) : site.load offsetFirstNOP = w := by
  simp [ReturnSite.load, offsetFirstNOP, h]

theorem load_second {site : ReturnSite} {w v : BitVec 32} {rest : List (BitVec 32)}
    (h : site.nops = w :: v :: rest) : site.load offsetSecondNOP = v := by
  simp [ReturnSite.load, offsetSecondNOP, h]

/-- Behind a single NOP the second word is whatever code the program has there. -/
theorem load_second_of_single {site : ReturnSite} {w : BitVec 32} (h : site.nops = [w]) :
    site.load offsetSecondNOP = site.code offsetSecondNOP := by
  simp [ReturnSite.load, offsetSecondNOP, h]

theorem tagged_ne_of_lt {id : Nat} {w : BitVec 32} (h : w.toNat < 0x80000) : tagged id ≠ w := by
  intro he
  have hbit := tagged_getLsbD id
  rw [he, BitVec.getLsbD, Nat.testBit_lt_two_pow (by simpa using h)] at hbit
  exact absurd hbit (by decide)

/-- The tag bit of the width is part of the comparison, so the upper bound is lost. -/
theorem tagged_sub_le {id min width : Nat} (hid : id < 0x80000) (hmin : min < 0x80000)
    (hwidth : width < 0x80000) : tagged id - tagged min ≤ tagged width ↔ min ≤ id := by
  rw [BitVec.le_def, BitVec.toNat_sub, tagged_toNat hid, tagged_toNat hmin, tagged_toNat hwidth]
  omega

/-- Nothing but the identifiers decides when the type identifier has no tag bit. -/
theorem not_addressTakenPass {F : Function} {info : FunctionInfo} {site : ReturnSite} {id : Nat}
    (hword : site.load offsetFirstNOP = tagged id)
    (htype : F.hasAddressTaken = true → info.typeID = -1 ∨ 0 ≤ info.typeID ∧ info.typeID < 0x7FFFF)
    (haddr : F.hasAddressTaken = true → site.address ≤ memRange) :
    ¬ AddressTakenPass F info site := by
  rintro ⟨hF, ht, hmem | hw | hw⟩
  · exact absurd hmem (BitVec.not_lt.mpr (haddr hF))
  · obtain hneg | ⟨hlo, hhi⟩ := htype hF
    · exact ht hneg
    · refine tagged_ne_of_lt ?_ (hword ▸ hw)
      rw [BitVec.toNat_ofInt]
      omega
  · exact tagged_ne_of_lt (by decide) (hword ▸ hw)

/-- A virtual call site with range `[min, max]` accepts every function that has
an identifier at or above `min`. -/
theorem avoidsFail_virtual {M : SDMachineFunction} {loc f : String} {min max : Nat}
    {F : Function} {info : FunctionInfo} {site : ReturnSite} {check : ReturnCheck}
    (hf : M.callSiteDebugLocVirtual loc = some f) (hr : M.callSiteRange loc = some (min, max))
    (hle : min ≤ max) (hmax : max < 0x80000) (hids : ∀ id ∈ info.ids, id < 0x80000)
    (htype : F.hasAddressTaken = true → info.typeID = -1 ∨ 0 ≤ info.typeID ∧ info.typeID < 0x7FFFF)
    (haddr : F.hasAddressTaken = true → site.address ≤ memRange)
    (hsite : M.processVirtualCallSite loc = some site.nops)
    (hcheck : check ∈ generateRangeChecks F info) :
    check.AvoidsFail site ↔ ∃ id ∈ info.ids, min ≤ id := by
  rw [SDMachineFunction.processVirtualCallSite_range hf hr hle (by omega)] at hsite
  have hnops : site.nops = [tagged min, tagged (max - min)] := (Option.some.inj hsite).symm
  rw [generateRangeChecks_avoidsFail hcheck, load_first hnops, load_second hnops,
    or_iff_left (not_addressTakenPass (load_first hnops) htype haddr)]
  refine exists_congr fun id => and_congr_right fun hid => ?_
  exact tagged_sub_le (hids id hid) (by omega) (by omega)

/-- The virtual return check decides membership in `[min, max]` exactly on the
identifier lists that meet the range or stay below its end. -/
theorem virtualReturn_exact_iff (M : SDMachineFunction) (loc f : String) (min max : Nat)
    (F : Function) (info : FunctionInfo) (site : ReturnSite) (check : ReturnCheck)
    (hf : M.callSiteDebugLocVirtual loc = some f) (hr : M.callSiteRange loc = some (min, max))
    (hle : min ≤ max) (hmax : max < 0x80000) (hids : ∀ id ∈ info.ids, id < 0x80000)
    (htype : F.hasAddressTaken = true → info.typeID = -1 ∨ 0 ≤ info.typeID ∧ info.typeID < 0x7FFFF)
    (haddr : F.hasAddressTaken = true → site.address ≤ memRange)
    (hsite : M.processVirtualCallSite loc = some site.nops)
    (hcheck : check ∈ generateRangeChecks F info) :
    (check.AvoidsFail site ↔ ∃ id ∈ info.ids, min ≤ id ∧ id ≤ max) ↔
      (∃ id ∈ info.ids, min ≤ id ∧ id ≤ max) ∨ ∀ id ∈ info.ids, id ≤ max := by
  rw [avoidsFail_virtual hf hr hle hmax hids htype haddr hsite hcheck]
  constructor
  · intro h
    by_cases hin : ∃ id ∈ info.ids, min ≤ id ∧ id ≤ max
    · exact .inl hin
    · refine .inr fun id hid => ?_
      by_contra hlt
      exact hin (h.mp ⟨id, hid, by omega⟩)
  · rintro (⟨id, hid, hin⟩ | hall)
    · exact ⟨fun _ => ⟨id, hid, hin⟩, fun _ => ⟨id, hid, hin.1⟩⟩
    · exact ⟨fun ⟨id, hid, hmin⟩ => ⟨id, hid, hmin, hall id hid⟩,
        fun ⟨id, hid, hmin, _⟩ => ⟨id, hid, hmin⟩⟩

/-- A function with one return, and the table of a program with one call site. -/
def oneReturn (name : String) (hasAddressTaken : Bool) : Function :=
  ⟨name, ⟨.void, []⟩, hasAddressTaken, [0]⟩

def virtualCallAt (loc f : String) (min max : Nat) : SDMachineFunction where
  callSiteDebugLocVirtual := fun l => if l = loc then some f else none
  callSiteDebugLocStatic := fun _ => none
  callSiteRange := fun l => if l = loc then some (min, max) else none
  callSiteID := fun _ => none

def staticCallAt (loc f : String) (id : Nat) : SDMachineFunction where
  callSiteDebugLocVirtual := fun _ => none
  callSiteDebugLocStatic := fun l => if l = loc then some f else none
  callSiteRange := fun _ => none
  callSiteID := fun l => if l = loc then some id else none

def checksOne (ids : List Nat) (typeID : Int) : FunctionInfo := ⟨"_ZN1A1fEv", ids, typeID⟩

theorem virtualReturn_exact_iff_two :
    ∃ check ∈ generateRangeChecks (oneReturn "_ZN1A1fEv" false) (checksOne [2] (-1)),
      check.AvoidsFail ⟨0x1000, [tagged 1, tagged 2], fun _ => 0⟩ ∧
        ∃ id ∈ [2], 1 ≤ id ∧ id ≤ 3 := by
  have hin : ∃ id ∈ [2], 1 ≤ id ∧ id ≤ 3 := ⟨2, by decide, by decide, by decide⟩
  have hexact := virtualReturn_exact_iff (virtualCallAt "a.cc:1:1" "_ZN1A1fEv" 1 3) "a.cc:1:1"
    "_ZN1A1fEv" 1 3 (oneReturn "_ZN1A1fEv" false) (checksOne [2] (-1))
    ⟨0x1000, [tagged 1, tagged 2], fun _ => 0⟩ _ (by decide) (by decide) (by decide) (by decide)
    (by decide) (by decide) (by decide) (by decide) (List.mem_singleton_self _)
  exact ⟨_, List.mem_singleton_self _, (hexact.mpr (.inl hin)).mpr hin, hin⟩

/-- Identifier 2 passes the check of a call site with range `[1, 1]`. -/
theorem virtualReturn_accepts_above_max :
    (virtualCallAt "a.cc:1:1" "_ZN1A1fEv" 1 1).processVirtualCallSite "a.cc:1:1" =
        some [tagged 1, tagged 0] ∧
      ∃ check ∈ generateRangeChecks (oneReturn "_ZN1A1fEv" false) (checksOne [2] (-1)),
        check.AvoidsFail ⟨0x1000, [tagged 1, tagged 0], fun _ => 0⟩ ∧
          ¬ ∃ id ∈ [2], 1 ≤ id ∧ id ≤ 1 := by
  refine ⟨by decide, _, List.mem_singleton_self _, ?_, by decide⟩
  exact ⟨[], by decide, by decide⟩

/-- A direct call site of the annotated function is the one case that fails. -/
theorem staticReturn_exact_iff (M : SDMachineFunction) (loc g : String) (i c : Nat)
    (F : Function) (info : FunctionInfo) (site : ReturnSite) (hi : i < 0x80000)
    (hc : c < 0x80000) (hF : F.hasAddressTaken = false) (hid : info.ids.head? = some i)
    (hg : M.callSiteDebugLocStatic loc = some g) (htail : g ≠ "__TAIL__")
    (hM : M.callSiteID loc = some c) (hsite : M.processStaticCallSite loc = some site.nops) :
    (∀ check ∈ generateCompareChecks F info, (check.EntersFail site ↔ i ≠ c)) ↔
      F.returns = [] := by
  rw [SDMachineFunction.processStaticCallSite_id hg hM htail] at hsite
  have hword : site.load offsetFirstNOP = tagged c := load_first (Option.some.inj hsite).symm
  have henters : ∀ check ∈ generateCompareChecks F info, (check.EntersFail site ↔ i = c) := by
    intro check hcheck
    have hpass : ¬ AddressTakenPass F info site := fun h => by simpa [hF] using h.1
    rw [generateCompareChecks_entersFail hcheck, hword, and_iff_left hpass, hid]
    simpa using tagged_inj hi hc
  have hids : info.ids ≠ [] := fun h => by simp [h] at hid
  constructor
  · intro h
    rw [← List.length_eq_zero_iff, ← generateCompareChecks_length hids, List.length_eq_zero_iff,
      List.eq_nil_iff_forall_not_mem]
    intro check hcheck
    have := (henters check hcheck).symm.trans (h check hcheck)
    tauto
  · intro hreturns check hcheck
    have hlen := generateCompareChecks_length (F := F) hids
    rw [hreturns, List.length_nil, List.length_eq_zero_iff] at hlen
    simp [hlen] at hcheck

theorem staticReturn_exact_iff_same :
    ¬ ∀ check ∈ generateCompareChecks (oneReturn "_Z3runv" false) (checksOne [7] (-1)),
      (check.EntersFail ⟨0x1000, [tagged 7], fun _ => 0⟩ ↔ 7 ≠ 7) :=
  fun h => absurd ((staticReturn_exact_iff (staticCallAt "a.cc:1:1" "_Z3runv" 7) "a.cc:1:1"
    "_Z3runv" 7 7
    (oneReturn "_Z3runv" false) (checksOne [7] (-1)) ⟨0x1000, [tagged 7], fun _ => 0⟩ (by decide)
    (by decide) (by decide) (by decide) (by decide) (by decide) (by decide) (by decide)).mp h)
    (by decide)

/-- A return to a call site of the function itself enters `sd.fail`, and one to
a call site of another function does not. -/
theorem staticReturn_polarity_inverted :
    (staticCallAt "a.cc:1:1" "_Z3runv" 7).processStaticCallSite "a.cc:1:1" = some [tagged 7] ∧
    (staticCallAt "a.cc:2:1" "_Z4stopv" 8).processStaticCallSite "a.cc:2:1" = some [tagged 8] ∧
      ∃ check ∈ generateCompareChecks (oneReturn "_Z3runv" false) (checksOne [7] (-1)),
        check.EntersFail ⟨0x1000, [tagged 7], fun _ => 0⟩ ∧
          ¬ check.EntersFail ⟨0x1000, [tagged 8], fun _ => 0⟩ := by
  refine ⟨by decide, by decide, _, List.mem_singleton_self _, ⟨["sd.fail"], by decide, by decide⟩,
    ?_⟩
  rintro ⟨names, hrun, hfail⟩
  rw [show ReturnCheck.run _ _ = some [] by decide] at hrun
  simp [← Option.some.inj hrun] at hfail

/-- How the call site of an indirect call was annotated. -/
inductive IndirectCall
  | indirect (typeID : BitVec 32)
  | unknown
  deriving DecidableEq

namespace IndirectCall

def word : IndirectCall → BitVec 32
  | indirect s => tagged s.toNat
  | unknown => unknownID

def Annotates (M : SDMachineFunction) (MI : MachineInstr) (site : ReturnSite) :
    IndirectCall → Prop
  | indirect s => ∃ loc, MI.debugLoc = some loc ∧ M.callSiteDebugLocVirtual loc = none ∧
      M.callSiteDebugLocStatic loc = some "__INDIRECT__" ∧ M.callSiteID loc = some s.toNat ∧
      M.processCall MI = some site.nops
  | unknown => SDMachineFunction.processUnknownCallSite MI = some site.nops

/-- A type-matched return passes, and an indirect call of another type fails. -/
def MatchedByType (ids : List Nat) (t : BitVec 32) (check : ReturnCheck) (site : ReturnSite) :
    IndirectCall → Prop
  | indirect s => (s = t → check.AvoidsFail site) ∧
      (s ≠ t → s.toNat ∉ ids → check.EntersFail site)
  | unknown => check.AvoidsFail site

/-- Whether the identifiers alone let a return to the annotation `w` pass, where
`code` is the second word behind the call. -/
def IDsPass (ids : List Nat) (w code : BitVec 32) : ProcessingInfoType → Prop
  | .static => ids.head?.map tagged ≠ some w
  | .virtual => ∃ id ∈ ids, tagged id - w ≤ code
  | .blackListed => True

/-- The untagged type identifier `t` equals the annotation only when it has the
tag bit itself, so otherwise it is left to the identifiers to decide. -/
def DecidedRight (ids : List Nat) (t code : BitVec 32) (kind : ProcessingInfoType) :
    IndirectCall → Prop
  | indirect s => (s = t → tagged s.toNat = t ∨ IDsPass ids (tagged s.toNat) code kind) ∧
      (s ≠ t → s.toNat ∉ ids → tagged s.toNat ≠ t ∧ ¬ IDsPass ids (tagged s.toNat) code kind)
  | unknown => unknownID = t ∨ IDsPass ids unknownID code kind

theorem Annotates.nops {M : SDMachineFunction} {MI : MachineInstr} {site : ReturnSite}
    {call : IndirectCall} (h : call.Annotates M MI site) : site.nops = [call.word] := by
  cases call with
  | indirect s =>
    obtain ⟨loc, hloc, hvirtual, hstatic, hid, hcall⟩ := h
    have hnone : M.processVirtualCallSite loc = none := by
      simp [SDMachineFunction.processVirtualCallSite, hvirtual]
    rw [SDMachineFunction.processCall, hloc] at hcall
    simp only [hnone, SDMachineFunction.processStaticCallSite_id hstatic hid (by decide),
      Option.orElse] at hcall
    exact (Option.some.inj hcall).symm
  | unknown => exact SDMachineFunction.processUnknownCallSite_eq h

theorem word_ne_unknownMagicNumber (call : IndirectCall) : call.word ≠ unknownMagicNumber := by
  cases call with
  | indirect s => exact tagged_ne_of_lt (by decide)
  | unknown => decide

end IndirectCall

theorem generateChecks_avoidsFail_iff_not {F : Function} {info : FunctionInfo}
    (kind : ProcessingInfoType) {site : ReturnSite} {check : ReturnCheck}
    (hcheck : check ∈ generateChecks F info kind) :
    check.AvoidsFail site ↔ ¬ check.EntersFail site := by
  cases kind with
  | static =>
    rw [generateChecks, generateCompareChecks] at hcheck
    split at hcheck
    · simp at hcheck
    · obtain ⟨-, -, rfl⟩ := List.mem_map.mp hcheck
      exact insertChecks_avoidsFail
  | virtual =>
    rw [generateChecks, generateRangeChecks] at hcheck
    split at hcheck
    · simp at hcheck
    · obtain ⟨-, -, rfl⟩ := List.mem_map.mp hcheck
      exact insertChecks_avoidsFail
  | blackListed => simp [generateChecks] at hcheck

/-- Within the memory of the program an address-taken function accepts the words
that its identifiers accept, and its type identifier. -/
theorem generateChecks_avoidsFail {F : Function} {info : FunctionInfo} {t : BitVec 32}
    {call : IndirectCall} {kind : ProcessingInfoType} {site : ReturnSite} {check : ReturnCheck}
    (hF : F.hasAddressTaken = true) (ht : info.typeID = t.toNat) (haddr : site.address ≤ memRange)
    (hnops : site.nops = [call.word]) (hcheck : check ∈ generateChecks F info kind) :
    check.AvoidsFail site ↔
      call.word = t ∨ IndirectCall.IDsPass info.ids call.word (site.code offsetSecondNOP) kind := by
  have hpass : AddressTakenPass F info site ↔ call.word = t := by
    have htype : info.typeID ≠ -1 := by omega
    have hmem : ¬ memRange < site.address := BitVec.not_lt.mpr haddr
    have hword : BitVec.ofInt 32 info.typeID = t := by rw [ht]; simp
    rw [AddressTakenPass, load_first hnops, hword]
    simp [hF, htype, hmem, call.word_ne_unknownMagicNumber]
  cases kind with
  | static =>
    have hids : ∃ id, info.ids.head? = some id := by
      cases h : info.ids with
      | nil => simp [generateChecks, generateCompareChecks, h] at hcheck
      | cons id ids => exact ⟨id, rfl⟩
    obtain ⟨id, hid⟩ := hids
    rw [generateChecks] at hcheck
    rw [generateChecks_avoidsFail_iff_not .static hcheck, generateCompareChecks_entersFail hcheck,
      hpass, hid, load_first hnops, IndirectCall.IDsPass, hid]
    simp only [Option.some.injEq, exists_eq_left', Option.map_some, ne_eq]
    tauto
  | virtual =>
    rw [generateRangeChecks_avoidsFail hcheck, hpass, load_first hnops, load_second_of_single hnops,
      or_comm, IndirectCall.IDsPass]
  | blackListed => simp [generateChecks] at hcheck

theorem indirectReturn_matched_iff (M : SDMachineFunction) (MI : MachineInstr) (F : Function)
    (info : FunctionInfo) (t : BitVec 32) (call : IndirectCall) (kind : ProcessingInfoType)
    (site : ReturnSite) (check : ReturnCheck) (hF : F.hasAddressTaken = true)
    (ht : info.typeID = t.toNat) (haddr : site.address ≤ memRange)
    (hcall : call.Annotates M MI site) (hcheck : check ∈ generateChecks F info kind) :
    call.MatchedByType info.ids t check site ↔
      call.DecidedRight info.ids t (site.code offsetSecondNOP) kind := by
  have havoids := generateChecks_avoidsFail hF ht haddr hcall.nops hcheck
  have henters : check.EntersFail site ↔ call.word ≠ t ∧
      ¬ IndirectCall.IDsPass info.ids call.word (site.code offsetSecondNOP) kind := by
    rw [← not_or, ← havoids, generateChecks_avoidsFail_iff_not kind hcheck, not_not]
  cases call with
  | indirect s =>
    simp only [IndirectCall.MatchedByType, IndirectCall.DecidedRight, havoids, henters,
      IndirectCall.word]
  | unknown =>
    simp only [IndirectCall.MatchedByType, IndirectCall.DecidedRight, havoids, IndirectCall.word]

theorem indirectReturn_matched_iff_tail :
    IndirectCall.MatchedByType [5] 0x7FFFE
      (insertChecks (.icmpUGT (idDiff 5) .width)
        (addressTakenChecks (oneReturn "_ZN1A1fEv" true) (checksOne [5] 0x7FFFE)))
      ⟨0x1000, [tagged 0x7FFFE], fun _ => 0xFFFFFFFF⟩ (.indirect 0x7FFFE) :=
  (indirectReturn_matched_iff (staticCallAt "a.cc:1:1" "__INDIRECT__" 0x7FFFE)
    ⟨some "a.cc:1:1", [.other]⟩ (oneReturn "_ZN1A1fEv" true) (checksOne [5] 0x7FFFE) 0x7FFFE
    (.indirect 0x7FFFE) .virtual ⟨0x1000, [tagged 0x7FFFE], fun _ => 0xFFFFFFFF⟩ _ (by decide)
    (by decide) (by decide) ⟨"a.cc:1:1", by decide, by decide, by decide, by decide, by decide⟩
    (List.mem_singleton_self _)).mpr
    ⟨fun _ => .inr ⟨5, by decide, by decide⟩, fun h => absurd rfl h⟩

/-- An indirect call of the right type is sent to `sd.fail`: the function
compares `0x7FFFE` with the annotation `0xFFFFE`. -/
theorem indirectReturn_rejects_own_type :
    (staticCallAt "a.cc:1:1" "__INDIRECT__" 0x7FFFE).processCall ⟨some "a.cc:1:1", [.other]⟩ =
        some [tagged 0x7FFFE] ∧
      ∃ check ∈ generateRangeChecks (oneReturn "_ZN1A1fEv" true) (checksOne [5] 0x7FFFE),
        check.EntersFail ⟨0x1000, [tagged 0x7FFFE], fun _ => 0⟩ ∧
          ¬ check.AvoidsFail ⟨0x1000, [tagged 0x7FFFE], fun _ => 0⟩ := by
  refine ⟨by decide, _, List.mem_singleton_self _, ?_⟩
  rw [insertChecks_avoidsFail, not_not, and_self]
  exact ⟨["sd.external", "sd.indirect", "sd.indirect2", "sd.fail"], by decide, by decide⟩

end RhoFEM.Return
