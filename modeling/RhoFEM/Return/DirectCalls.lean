import RhoFEM.Return.FunctionData
import RhoFEM.Return.Matching

/-! Direct calls of virtual functions.  The call site is annotated with one word,
the callee's first identifier, and a virtual function reads two. -/

namespace RhoFEM.Return

open RhoFEM.Lib.StringRef

open SDReturnAddress SDReturnChecks

variable {getFunctionID : String → List Nat}

/-- The information that a virtual function of the module gets its checks from. -/
theorem processFunction_of_virtual {functions : List Function} {F : Function} {maxID : Nat}
    {md : NamedMetadata} {tables : FunctionTables}
    (hnodup : (functions.map Function.name).Nodup)
    (hmd : ∀ entry ∈ md, startswith entry.1 "sd.func_info." = false)
    (hF : F ∈ functions) (hblack : isBlackListedFunction F = false)
    (hvirtual : isVirtualFunction getFunctionID F = true)
    (hload : loadFunctionData
      (SDReturnAddress.runOnModule getFunctionID functions (init maxID md)).metadata =
        some tables) :
    ∃ typeID, SDReturnChecks.processFunction tables F =
      generateRangeChecks F ⟨F.name, virtualIDs getFunctionID F.name, typeID⟩ := by
  obtain ⟨pre, post, rfl⟩ := List.append_of_mem hF
  obtain ⟨tables', hload', hinfo⟩ := loadFunctionData_runOnModule getFunctionID
    (init maxID md) hnodup hmd
  obtain rfl : tables = tables' := Option.some.inj (hload.symm.trans hload')
  refine ⟨writtenTypeID getFunctionID F
    (SDReturnAddress.runOnModule getFunctionID pre (init maxID md)), ?_⟩
  simp [SDReturnChecks.processFunction, hinfo, infoType, loadedInfo, hblack, hvirtual,
    generateChecks]

/-- A return to a direct call site is decided right when the callee's identifier
is one of the function's, and else only when the code behind the annotation
happens to be below all the differences. -/
theorem directReturn_exact_iff (getFunctionID : String → List Nat) (maxID : Nat)
    (md : NamedMetadata) (functions : List Function) (F : Function) (M : SDMachineFunction)
    (loc callee : String) (c : Nat) (tables : FunctionTables) (site : ReturnSite)
    (check : ReturnCheck) (hnodup : (functions.map Function.name).Nodup)
    (hmd : ∀ entry ∈ md, startswith entry.1 "sd.func_info." = false)
    (hF : F ∈ functions) (hblack : isBlackListedFunction F = false)
    (hvirtual : isVirtualFunction getFunctionID F = true) (htaken : F.hasAddressTaken = false)
    (hload : loadFunctionData
      (SDReturnAddress.runOnModule getFunctionID functions (init maxID md)).metadata = some tables)
    (hcallee : (SDReturnAddress.runOnModule getFunctionID functions
      (init maxID md)).functionIDMap callee = some c)
    (hstatic : M.callSiteDebugLocStatic loc = some callee) (hid : M.callSiteID loc = some c)
    (hsite : M.processStaticCallSite loc = some site.nops)
    (hcheck : check ∈ SDReturnChecks.processFunction tables F) :
    ((callee = F.name → check.AvoidsFail site) ∧
        (c ∉ virtualIDs getFunctionID F.name → check.EntersFail site)) ↔
      (c ∈ virtualIDs getFunctionID F.name ∨
        ∀ id ∈ virtualIDs getFunctionID F.name,
          site.code offsetSecondNOP < tagged id - tagged c) := by
  have hrec : Recorded getFunctionID functions callee c :=
    (runOnModule_functionIDMap hcallee).resolve_right (by simp [init])
  rw [SDMachineFunction.processStaticCallSite_id hstatic hid hrec.ne_tail] at hsite
  have hnops : site.nops = [tagged c] := (Option.some.inj hsite).symm
  obtain ⟨typeID, hchecks⟩ := processFunction_of_virtual hnodup hmd hF hblack hvirtual hload
  rw [hchecks] at hcheck
  have hpass : ∀ info, ¬ AddressTakenPass F info site := fun info h => by simpa [htaken] using h.1
  have havoids : check.AvoidsFail site ↔ ∃ id ∈ virtualIDs getFunctionID F.name,
      tagged id - tagged c ≤ site.code offsetSecondNOP := by
    rw [generateRangeChecks_avoidsFail hcheck, or_iff_left (hpass _), load_first hnops,
      load_second_of_single hnops]
  have hself : c ∈ virtualIDs getFunctionID F.name → check.AvoidsFail site := fun hc =>
    havoids.mpr ⟨c, hc, by simp [BitVec.le_def]⟩
  have henters : check.EntersFail site ↔ ∀ id ∈ virtualIDs getFunctionID F.name,
      site.code offsetSecondNOP < tagged id - tagged c := by
    rw [← not_iff_not, ← generateChecks_avoidsFail_iff_not .virtual hcheck, havoids]
    simp
  constructor
  · rintro ⟨-, hreject⟩
    by_cases hc : c ∈ virtualIDs getFunctionID F.name
    · exact .inl hc
    · exact .inr (henters.mp (hreject hc))
  · intro h
    refine ⟨fun hname => ?_, fun hc => henters.mpr (h.resolve_left hc)⟩
    subst hname
    exact hself (List.mem_of_mem_head? (hrec.head_of_virtual hnodup hF hvirtual))

/-- Two virtual functions, with identifiers 1 and 5. -/
def twoVirtual : List Function :=
  [oneReturn "_ZN1A1fEv" false, oneReturn "_ZN1B1gEv" false]

def twoVirtualID (name : String) : List Nat :=
  if name = "_ZN1A1fEv" then [1] else if name = "_ZN1B1gEv" then [5] else []

theorem directReturn_exact_iff_self :
    ∃ tables, loadFunctionData
        (SDReturnAddress.runOnModule twoVirtualID twoVirtual (init 5 [])).metadata = some tables ∧
      ∃ check ∈ SDReturnChecks.processFunction tables (oneReturn "_ZN1B1gEv" false),
        check.AvoidsFail ⟨0x1000, [tagged 5], fun _ => 0⟩ := by
  refine ⟨_, rfl, _, List.mem_singleton_self _, ?_⟩
  exact ((directReturn_exact_iff twoVirtualID 5 [] twoVirtual (oneReturn "_ZN1B1gEv" false)
    (staticCallAt "a.cc:1:1" "_ZN1B1gEv" 5) "a.cc:1:1" "_ZN1B1gEv" 5 _
    ⟨0x1000, [tagged 5], fun _ => 0⟩ _ (by decide) (by decide) (by decide) (by decide) (by decide)
    (by decide) rfl (by decide) (by decide) (by decide) (by decide)
    (List.mem_singleton_self _)).mpr (.inl (by decide))).1 rfl

/-- Where the word behind the annotation is large, a return to a call of another
function passes. -/
theorem directReturn_accepts_other_callee :
    (SDReturnAddress.runOnModule twoVirtualID twoVirtual (init 5 [])).functionIDMap "_ZN1A1fEv" =
        some 1 ∧
      (staticCallAt "a.cc:1:1" "_ZN1A1fEv" 1).processStaticCallSite "a.cc:1:1" = some [tagged 1] ∧
      1 ∉ virtualIDs twoVirtualID "_ZN1B1gEv" ∧
      ∃ tables, loadFunctionData
          (SDReturnAddress.runOnModule twoVirtualID twoVirtual (init 5 [])).metadata = some tables ∧
        ∃ check ∈ SDReturnChecks.processFunction tables (oneReturn "_ZN1B1gEv" false),
          ¬ check.EntersFail ⟨0x1000, [tagged 1], fun _ => 0x441F0F⟩ := by
  refine ⟨by decide, by decide, by decide, _, rfl, _, List.mem_singleton_self _, ?_⟩
  rw [← insertChecks_avoidsFail]
  exact ⟨[], by decide, by decide⟩

end RhoFEM.Return
