import RhoFEM.Program.Preserved

/-! What an attacker who writes vtable pointers and memory can make the calls do. -/

namespace RhoFEM.Program

open RhoFEM.CHA RhoFEM.Check RhoFEM.Layout RhoFEM.Lib.Fold RhoFEM.Lib.Simulation
  RhoFEM.Lib.Words

/-- What holds of a call that has been made: its pointer was admitted, and where that is the
address point of an object of the class, and the slot is kept, the method of the object was
called. -/
def Justified (cha : SDBuildCHA) (interleave : Bool) (st : SDLayoutBuilder)
    (sites : List CallSite) (image : Image) (call : Call) : Prop :=
  ∃ site, sites[call.site]? = some site ∧
    Admitted cha st image (checkedVptr cha site.className site.preciseClassName) call.vptr ∧
    ∀ x start, st.newVTableStartAddrMap x = some start → call.vptr = image.pointer start →
      HasMethod cha site x → Kept cha interleave (site, x) →
        (called cha (site, x)).map (renamed cha x) = some call.function

/-- Whatever an attacker writes, every call that is made has a vtable pointer that its check
admits, and every other call traps. -/
theorem calls_justified {cha : SDBuildCHA} (h : WellFormed cha) {interleave : Bool}
    {functions : List String} {st : SDLayoutBuilder}
    (hbuild : buildNewLayouts cha interleave functions = .ok st)
    (hcheck : Checkable cha interleave) {place : String → BitVec 64}
    {uses : List VtableUse} {sites : List CallSite} (hknown : SitesKnown cha sites) {image : Image}
    (hprotect : protect cha st place uses sites = some image)
    (hapart : Apart place (newArrays cha st)) {events : List Event}
    {objects : Nat → BitVec 64} {data : BitVec 64 → Option Constant} {s : State}
    (hrun : image.run events (.start objects data) = .ok s) :
    (∀ call ∈ s.calls, Justified cha interleave st sites image call) ∧
      ∀ object k site, sites[k]? = some site →
        (image.step s (.call object k) = .error .trap ↔ ¬ Admitted cha st image
          (checkedVptr cha site.className site.preciseClassName) (s.objects object)) := by
  have hst := installed_of_build h hbuild
  obtain ⟨rfl, hvtables, -, hsites⟩ := protect_cases hprotect
  constructor
  · refine foldlM_ok_rule (fun _ (t : State) => ∀ call ∈ t.calls,
      Justified cha interleave st sites image call) ?step (List.forall_mem_nil _) hrun
    intro _ event t t' ht _ hstep
    rcases Image.step_calls hstep with hcalls | ⟨object, k, code, function, -, hcode, hpasses,
      hread, hcalls⟩
    · rwa [hcalls]
    · obtain ⟨site, hsite, hprotected⟩ := (forall₂_getElem? hsites k).2 code hcode
      have hmem := List.mem_of_getElem? hsite
      have hadmitted :=
        (passes_code_iff h hst hcheck hapart hknown hmem hprotected _).mp hpasses
      rw [hcalls, List.forall_mem_append, List.forall_mem_singleton]
      refine ⟨ht, site, hsite, hadmitted, ?_⟩
      intro x start hstart hvptr hmethod hkept
      obtain ⟨root, hp⟩ := (hknown site hmem).1
      obtain ⟨-, hindex, -⟩ := protectCall_eq_ok.mp hprotected
      obtain ⟨elem, helem, hreads⟩ := read_method h hst hvtables hapart hindex hp hmethod hkept
        hstart t
      dsimp only at hvptr
      rw [hvptr, hreads] at hread
      rw [helem, Option.map_some, hread]
  · intro object k site hsite
    obtain ⟨code, hcode, hprotected⟩ := (forall₂_getElem? hsites k).1 site hsite
    rw [← passes_code_iff h hst hcheck hapart hknown (List.mem_of_getElem? hsite) hprotected]
    exact Image.step_call_eq_trap_iff hcode

/-- After its calls, the pointer of a `C` is overwritten with the address 8. -/
theorem calls_justified_diamond : ∃ cha st image s,
    buildClouds diamondVTables diamondClasses = .ok cha ∧
    protect cha st diamondPlace diamondUses diamondSites = some image ∧
    image.run (diamondEvents ++ [.overwrite 0 8]) (.start (fun _ => 0) fun _ => none) = .ok s ∧
    (∀ call ∈ s.calls, Justified cha true st diamondSites image call) ∧
      ∀ object k site, diamondSites[k]? = some site →
        (image.step s (.call object k) = .error .trap ↔ ¬ Admitted cha st image
          (checkedVptr cha site.className site.preciseClassName) (s.objects object)) := by
  have hcha := eq_ok_of_isOk (x := buildClouds diamondVTables diamondClasses) .empty (by decide)
  obtain ⟨hwell, -⟩ := diamond_wellFormed hcha
  obtain ⟨st, image, m, hst, hknown, himage, -, hapart, hrun, hkept⟩ := diamond_protect hcha
  have hacc := accounted_of_build (acyclicMetadata_of_lt (by decide)) (by decide) (by decide) hcha
  obtain ⟨t, ht, -⟩ := protect_run hacc hwell hst (checkable_interleaved _) hknown himage hapart
    hrun hkept (fun _ => 0) fun _ => none
  have hattack : image.run (diamondEvents ++ [.overwrite 0 8])
      (.start (fun _ => 0) fun _ => none) =
        .ok { t with objects := Function.update t.objects 0 8 } :=
    foldlM_append_eq_ok.mpr ⟨t, ht, rfl⟩
  exact ⟨_, st, image, _, hcha, himage, hattack,
    calls_justified hwell hst (checkable_interleaved _) hknown himage hapart hattack⟩

end RhoFEM.Program
