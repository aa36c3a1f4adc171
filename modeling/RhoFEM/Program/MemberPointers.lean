import RhoFEM.Frontend.MemberPointers
import RhoFEM.Program.Preserved

/-! Calls through pointers to virtual methods, which have no check of their own. -/

namespace RhoFEM.Program

open RhoFEM.CHA RhoFEM.Frontend RhoFEM.Layout RhoFEM.Lib.Fold RhoFEM.Lib.Words

/-- The first field of a pointer to a virtual method. -/
def buildMemberPointer (index : Nat) : Int := index * 8 + 1

inductive MemberFunction
  | virtual (function : Option Constant)
  | nonVirtual (address : BitVec 64)

/-- What is called through the first field of a member pointer, for an object with the vtable
pointer. -/
def emitLoadOfMemberFunctionPointer (image : Image) (s : State) (vptr fnAsInt : BitVec 64) :
    MemberFunction :=
  if fnAsInt &&& 1 ≠ 0 then .virtual (image.read s (vptr + (fnAsInt - 1)))
  else .nonVirtual fnAsInt

theorem buildMemberPointer_index (index : Nat) : (buildMemberPointer index - 1).tdiv 8 = index := by
  rw [buildMemberPointer, Int.add_sub_cancel, Int.mul_tdiv_cancel _ (by decide)]

theorem newOffset_buildMemberPointer (getVtblIndex : Int → Int) (index : Nat) :
    newOffset getVtblIndex (buildMemberPointer index) = getVtblIndex index * 8 + 1 := by
  rw [newOffset, if_neg (by rw [buildMemberPointer]; omega), buildMemberPointer_index]

/-- The mark of a virtual method. -/
theorem and_one_ne_zero (n : Int) : BitVec.ofInt 64 (n * 8 + 1) &&& 1 ≠ 0 := by
  intro h
  have hmod := congrArg BitVec.toNat h
  rw [BitVec.toNat_and] at hmod
  change (BitVec.ofInt 64 (n * 8 + 1)).toNat &&& 1 = 0 at hmod
  rw [Nat.and_one_is_mod, BitVec.toNat_ofInt] at hmod
  omega

/-- Through a pointer to a virtual method, the method of the object is called in the new layout as
well, and the pointer stays one to a virtual method. -/
theorem memberPointer_calls_method {cha : SDBuildCHA} (h : WellFormed cha) {interleave : Bool}
    {functions : List String} {st : SDLayoutBuilder}
    (hbuild : buildNewLayouts cha interleave functions = .ok st) {place : String → BitVec 64}
    {uses : List VtableUse} {sites : List CallSite} {image : Image}
    (hprotect : protect cha st place uses sites = some image)
    (hapart : Apart place (newArrays cha st)) {root className : String}
    (hp : InCloud cha root (className, 0)) (getVtblIndex : Int → Int) {index : Nat}
    (hindex : translateVtblInd cha st (className, 0) index true = .ok (getVtblIndex index))
    {x : Vtbl} (hx : HasMethod cha ⟨className, className, index⟩ x)
    (hkept : Kept cha interleave (⟨className, className, index⟩, x)) {start : Address}
    (hstart : st.newVTableStartAddrMap x = some start) (s : State) :
    ∃ elem, called cha (⟨className, className, index⟩, x) = some elem ∧
      emitLoadOfMemberFunctionPointer image s (image.pointer start)
        (BitVec.ofInt 64 (newOffset getVtblIndex (buildMemberPointer index))) =
          .virtual (some (renamed cha x elem)) := by
  obtain ⟨rfl, hvtables, -, -⟩ := protect_cases hprotect
  obtain ⟨elem, helem, hread⟩ :=
    read_method h (installed_of_build h hbuild) hvtables hapart hindex hp hx hkept hstart s
  refine ⟨elem, helem, ?_⟩
  have hsub : BitVec.ofInt 64 (getVtblIndex index * 8 + 1) - 1 =
      BitVec.ofInt 64 (getVtblIndex index * 8) := by
    rw [BitVec.ofInt_add]
    exact add_sub_cancel_right _ _
  rw [newOffset_buildMemberPointer, emitLoadOfMemberFunctionPointer, if_pos (and_one_ne_zero _),
    hsub, hread]

/-- A pointer to the second method of `C`, called for an object of class `D`, in the layout
that is not interleaved. -/
theorem memberPointer_calls_method_diamond : ∃ cha st image k start elem,
    buildClouds diamondVTables diamondClasses = .ok cha ∧
    protect cha st diamondPlace diamondUses diamondSites = some image ∧
    st.newVTableStartAddrMap ("_ZTV1D", 0) = some start ∧
    called cha (⟨"_ZTV1C", "_ZTV1C", 1⟩, ("_ZTV1D", 0)) = some elem ∧
    emitLoadOfMemberFunctionPointer image (.start (fun _ => 0) fun _ => none)
      (image.pointer start) (BitVec.ofInt 64 (newOffset k (buildMemberPointer 1))) =
        .virtual (some (renamed cha ("_ZTV1D", 0) elem)) := by
  have hcha := eq_ok_of_isOk (x := buildClouds diamondVTables diamondClasses) .empty (by decide)
  obtain ⟨hwell, -⟩ := diamond_wellFormed hcha
  have hst := eq_ok_of_isOk (x := buildNewLayouts
    ((buildClouds diamondVTables diamondClasses).toOption.getD .empty) false []) (.init [])
    (by decide)
  have himage : (protect ((buildClouds diamondVTables diamondClasses).toOption.getD .empty)
    ((buildNewLayouts ((buildClouds diamondVTables diamondClasses).toOption.getD .empty)
      false []).toOption.getD (.init [])) diamondPlace diamondUses diamondSites).isSome := by decide
  obtain ⟨image, himage⟩ := Option.isSome_iff_exists.mp himage
  have hindex := eq_ok_of_isOk (x := translateVtblInd
    ((buildClouds diamondVTables diamondClasses).toOption.getD .empty)
    ((buildNewLayouts ((buildClouds diamondVTables diamondClasses).toOption.getD .empty)
      false []).toOption.getD (.init [])) ("_ZTV1C", 0) 1 true) 0 (by decide)
  have hsome : (((buildNewLayouts
    ((buildClouds diamondVTables diamondClasses).toOption.getD .empty) false []).toOption.getD
      (.init [])).newVTableStartAddrMap ("_ZTV1D", 0)).isSome := by decide
  obtain ⟨start, hstart⟩ := Option.isSome_iff_exists.mp hsome
  have hroot : "_ZTV1A" ∈
      ((buildClouds diamondVTables diamondClasses).toOption.getD .empty).roots := by decide
  obtain ⟨elem, helem, hcall⟩ := memberPointer_calls_method hwell hst himage (by decide)
    ⟨hroot, by decide⟩ (fun _ => _) hindex (by decide)
    (fun hinterleave => by cases hinterleave) hstart (.start (fun _ => 0) fun _ => none)
  exact ⟨_, _, image, _, start, elem, hcha, himage, hstart, helem, hcall⟩

end RhoFEM.Program
