import RhoFEM.Check.Agreement
import RhoFEM.Layout.Written
import RhoFEM.Program.Machine

/-! The vtable pointers that the check of a call lets pass, and what an attacker can call. -/

namespace RhoFEM.Program

open RhoFEM.CHA RhoFEM.Check RhoFEM.Layout RhoFEM.Lib.Fold RhoFEM.Lib.Runs RhoFEM.Lib.Search
  RhoFEM.Lib.Simulation RhoFEM.Lib.Words

section Pointers

variable (image : Image)

theorem pointer_add (a : Address) (n : Nat) :
    image.pointer a + BitVec.ofNat 64 n = image.pointer (a.1, a.2 + n) := by
  rw [Image.pointer, Image.pointer, BitVec.add_assoc, ← BitVec.ofNat_add]

theorem pointer_eq_wordAddress {a : Address} (ha : wordWidth ∣ a.2) :
    image.pointer a = wordAddress image.place a.1 (a.2 / wordWidth : Nat) := by
  have hdiv : a.2 / wordWidth * 8 = a.2 := Nat.div_mul_cancel ha
  rw [wordAddress_natCast, hdiv, Image.pointer]

end Pointers

section Image

variable {cha : SDBuildCHA} {st : SDLayoutBuilder} {place : String → BitVec 64}
  {uses : List VtableUse} {sites : List CallSite} {image : Image}

/-- The code of each site is that of its source. -/
theorem protect_cases (h : protect cha st place uses sites = some image) :
    image.place = place ∧ image.vtables = newArrays cha st ∧
      updateUses cha st uses = .ok image.uses ∧
      List.Forall₂ (fun site code => protectCall cha st site = .ok code) sites image.sites := by
  unfold protect at h
  rw [Option.bind_eq_bind, Option.bind_eq_some_iff] at h
  obtain ⟨uses', huses, h⟩ := h
  rw [Option.bind_eq_bind, Option.bind_eq_some_iff] at h
  obtain ⟨codes, hcodes, h⟩ := h
  obtain rfl := Option.some.inj h
  exact ⟨rfl, rfl, toOption_eq_some.mp huses, mapM_eq_ok_iff.mp (toOption_eq_some.mp hcodes)⟩

theorem protectCall_eq_ok {site : CallSite} {code : CallCode} :
    protectCall cha st site = .ok code ↔ ∃ checks,
      translateVtblInd cha st (site.className, 0) site.index true = .ok code.index ∧
        handleSDGetCheckedVtbl cha st site.className site.preciseClassName = .ok checks ∧
          code.checks = some checks := by
  rw [protectCall, bind_eq_ok]
  constructor
  · rintro ⟨index, hindex, h⟩
    rw [bind_eq_ok] at h
    obtain ⟨checks, hchecks, h⟩ := h
    obtain rfl := Except.ok.inj h
    exact ⟨checks, hindex, hchecks, rfl⟩
  · rintro ⟨checks, hindex, hchecks, hcode⟩
    refine ⟨code.index, hindex, ?_⟩
    rw [bind_eq_ok]
    refine ⟨checks, hchecks, ?_⟩
    rw [← hcode]
    rfl

end Image

section Layouts

/-- The checks can tell the address points of a cloud: these are evenly spaced, in units that a
global can be aligned to. -/
structure Checkable (cha : SDBuildCHA) (interleave : Bool) : Prop where
  spaced : interleave = true ∨ EvenlySpaced cha
  aligned : ∀ root ∈ cha.roots, alignmentWords cha interleave root * wordWidth ≤ 2 ^ 29

theorem checkable_interleaved (cha : SDBuildCHA) : Checkable cha true :=
  ⟨.inl rfl, fun _ _ => by rw [alignmentWords, if_pos rfl]; decide⟩

theorem Checkable.alignment_eq {cha : SDBuildCHA} {interleave : Bool} {root : String}
    (h : Checkable cha interleave) (hroot : root ∈ cha.roots) :
    alignment cha interleave root = alignmentWords cha interleave root * wordWidth :=
  Layout.alignment_eq ((h.aligned root hroot).trans_lt (by decide))

/-- What a run of the pass has stored. -/
structure Installed (cha : SDBuildCHA) (interleave : Bool) (st : SDLayoutBuilder) : Prop where
  stored : Stored cha interleave cha.roots st
  written : Written cha interleave cha.roots st
  words : WordAddressed cha interleave st

variable {cha : SDBuildCHA} {interleave : Bool} {root : String} {st : SDLayoutBuilder}

theorem installed_of_build (h : WellFormed cha) {functions : List String}
    (hbuild : buildNewLayouts cha interleave functions = .ok st) : Installed cha interleave st :=
  ⟨stored_of_build h.toAccepted hbuild, written_of_build h.toAccepted hbuild,
    wordAddressed_of_build hbuild⟩

/-- The new vtable of a cloud in memory, and the words of its address points. -/
theorem Installed.array (hst : Installed cha interleave st) (h : WellFormed cha) {x : Vtbl}
    (hx : InCloud cha root x) (hdef : cha.isDefined x) : ∃ elems,
      (newVtableName root, elems) ∈ newArrays cha st ∧
        addressIndex cha interleave root x < elems.length := by
  obtain ⟨elems, i, elem, hstart, hi, -, hget⟩ :=
    hst.written.getElem? h hx ((h.slot_zero_iff hx).mpr hdef)
  have hzero : relIndex cha interleave x 0 = 0 := by
    rw [relIndex]
    split
    · exact Int.sub_self _
    · rfl
  obtain ⟨hlt, -⟩ := List.getElem?_eq_some_iff.mp hget
  exact ⟨elems, List.mem_filterMap.mpr ⟨root, hx.1, by rw [hstart]; rfl⟩, by omega⟩

end Layouts

section Guard

variable {cha : SDBuildCHA} {interleave : Bool} {root : String} {st : SDLayoutBuilder}
  {image : Image}

/-- A pointer is at the address point of a defined sub-vtable below `v`, or directly behind the
address points of a range of several sub-vtables. -/
def Admitted (cha : SDBuildCHA) (st : SDLayoutBuilder) (image : Image) (v : Vtbl)
    (vptr : BitVec 64) : Prop :=
  (∃ x start, x ∈ cha.preorder v ∧ cha.isDefined x ∧ st.newVTableStartAddrMap x = some start ∧
    vptr = image.pointer start) ∨
  ∃ r ∈ st.memRangeMap v, ∃ alignment, alignmentOf cha st v = .ok alignment ∧ 1 < r.2 ∧
    vptr = image.pointer r.1 + BitVec.ofNat 64 (r.2 * alignment)

/-- The comparison of one range lets its address points pass, and the word behind the last. -/
theorem admits_blockOf_iff (h : WellFormed cha) (hst : Installed cha interleave st)
    (hcheck : Checkable cha interleave) (hapart : Apart image.place (newArrays cha st))
    (hroot : root ∈ cha.roots) {range : CHA.Range} {r : Address × Nat}
    (hr : blockOf cha interleave root range = some r) (vptr : BitVec 64) :
    image.admits vptr ⟨r.1, r.2, alignmentWords cha interleave root * wordWidth⟩ = true ↔
      (∃ x ∈ cut (cha.preorder (root, 0)) range, cha.isDefined x ∧
        vptr = image.pointer (addressOf cha interleave root x)) ∨
      1 < r.2 ∧ vptr = image.pointer r.1 +
        BitVec.ofNat 64 (r.2 * (alignmentWords cha interleave root * wordWidth)) := by
  have hlist := h.mem_blockOf_iff hroot hcheck.spaced hr
  have hpos : 1 ≤ r.2 := by
    obtain ⟨start, hstart, rfl⟩ := Option.map_eq_some_iff.mp hr
    exact List.countP_pos_iff.mpr ⟨start, List.mem_of_find?_eq_some hstart,
      List.find?_some hstart⟩
  obtain ⟨x, hx, hdef, hlast⟩ := (hlist _).mp ⟨r.2 - 1, by omega, rfl⟩
  obtain ⟨j, -, -, hj⟩ := (mem_cut _).mp hx
  obtain ⟨elems, harray, hlt⟩ := hst.array h ⟨hroot, List.mem_of_getElem? hj⟩ hdef
  have hfits := hapart.fits _ harray
  have halign := hcheck.aligned root hroot
  obtain ⟨a, ha, ha', hpow⟩ := alignment_two_pow halign
  rw [hpow] at hlist hlast halign ⊢
  have hwidth : r.2 * 2 ^ a < 2 ^ 64 := by
    have hoffset := congrArg Prod.snd hlast
    have hstep : r.2 * 2 ^ a = (r.2 - 1) * 2 ^ a + 2 ^ a := by
      rw [← Nat.succ_mul, Nat.succ_eq_add_one, Nat.sub_add_cancel hpos]
    have hword : wordWidth = 8 := rfl
    rw [addressOf, hword] at hoffset
    dsimp only at hoffset hfits
    omega
  refine (inRange_iff ha (by omega) hpos hwidth).trans (or_congr_left ?_)
  simp only [Listed, pointer_add]
  constructor
  · rintro ⟨i, hi, rfl⟩
    obtain ⟨y, hy, hdefy, heq⟩ := (hlist _).mp ⟨i, hi, rfl⟩
    exact ⟨y, hy, hdefy, congrArg image.pointer heq⟩
  · rintro ⟨y, hy, hdefy, rfl⟩
    obtain ⟨i, hi, heq⟩ := (hlist _).mpr ⟨y, hy, hdefy, rfl⟩
    exact ⟨i, hi, congrArg image.pointer heq⟩

/-- The checks of a call let exactly the admitted pointers pass. -/
theorem passes_iff (h : WellFormed cha) (hst : Installed cha interleave st)
    (hcheck : Checkable cha interleave) (hapart : Apart image.place (newArrays cha st))
    {className preciseClassName : String}
    (hv : InCloud cha root (checkedVptr cha className preciseClassName))
    {checks : List RangeCheck}
    (hchecks : handleSDGetCheckedVtbl cha st className preciseClassName = .ok checks)
    (vptr : BitVec 64) : checks.any (image.admits vptr) = true ↔
      Admitted cha st image (checkedVptr cha className preciseClassName) vptr := by
  have halignment := alignmentOf_eq h.toAccepted hst.stored hv
  rw [hcheck.alignment_eq hv.1] at halignment
  rw [handleSDGetCheckedVtbl, halignment] at hchecks
  generalize checkedVptr cha className preciseClassName = v at hv hchecks halignment
  obtain ⟨ranges, hexact, hranges⟩ := hst.stored.memRangeMap root hv.1 v hv.2
  have hany : checks.any (image.admits vptr) = true ↔ ∃ r ∈ st.memRangeMap v,
      image.admits vptr ⟨r.1, r.2, alignmentWords cha interleave root * wordWidth⟩ = true := by
    split at hchecks
    · rename_i hnil
      obtain rfl := Except.ok.inj hchecks
      simp [hnil]
    · obtain rfl := Except.ok.inj hchecks
      rw [List.any_map, List.any_eq_true]
      simp [List.mem_mergeSort]
  have hblocks : ∀ r ∈ st.memRangeMap v, ∃ range ∈ ranges,
      blockOf cha interleave root range = some r := by
    intro r hr
    rw [hranges] at hr
    exact List.mem_filterMap.mp hr
  have hstarts : ∀ {x start}, x ∈ cha.preorder v → cha.isDefined x →
      (st.newVTableStartAddrMap x = some start ↔ start = addressOf cha interleave root x) := by
    intro x start hx hdef
    have hcloud := hv.reaches ((cha.mem_preorder_iff v x).mp hx)
    rw [newVTableStartAddrMap_eq hst.stored hcloud hdef, Option.some.injEq, eq_comm]
  rw [hany, Admitted]
  constructor
  · rintro ⟨r, hr, hadmits⟩
    obtain ⟨range, hrange, hblock⟩ := hblocks r hr
    rcases (admits_blockOf_iff h hst hcheck hapart hv.1 hblock vptr).mp hadmits with
      ⟨x, hx, hdef, heq⟩ | ⟨hwide, heq⟩
    · obtain ⟨j, hlo, hhi, hj⟩ := (mem_cut _).mp hx
      obtain ⟨y, hreach, hind⟩ := (hexact.covers j).mp ⟨range, hrange, hlo, hhi⟩
      have hy := getElem?_indMap (hv.reaches hreach).2
      rw [hind] at hy
      obtain rfl := Option.some.inj (hy.symm.trans hj)
      have hmem := (cha.mem_preorder_iff v y).mpr hreach
      exact .inl ⟨y, _, hmem, hdef, (hstarts hmem hdef).mpr rfl, heq⟩
    · exact .inr ⟨r, hr, _, halignment, hwide, heq⟩
  · rintro (⟨x, start, hx, hdef, hstart, rfl⟩ | ⟨r, hr, alignment, halign, hwide, rfl⟩)
    · obtain rfl := (hstarts hx hdef).mp hstart
      have hreach := (cha.mem_preorder_iff v x).mp hx
      obtain ⟨range, hrange, hlo, hhi⟩ := (hexact.covers _).mpr ⟨x, hreach, rfl⟩
      have hcut : x ∈ cut (cha.preorder (root, 0)) range :=
        (mem_cut _).mpr ⟨_, hlo, hhi, getElem?_indMap (hv.reaches hreach).2⟩
      obtain ⟨start, hfind⟩ := Option.isSome_iff_exists.mp
        (List.find?_isSome.mpr ⟨x, hcut, hdef⟩)
      have hblock : blockOf cha interleave root range = some
          (addressOf cha interleave root start,
            (cut (cha.preorder (root, 0)) range).countP cha.isDefined) := by
        rw [blockOf, hfind, Option.map_some]
      refine ⟨_, hranges ▸ List.mem_filterMap.mpr ⟨range, hrange, hblock⟩, ?_⟩
      exact (admits_blockOf_iff h hst hcheck hapart hv.1 hblock _).mpr
        (.inl ⟨x, hcut, hdef, rfl⟩)
    · obtain ⟨range, -, hblock⟩ := hblocks r hr
      obtain rfl := Except.ok.inj (halignment.symm.trans halign)
      exact ⟨r, hr, (admits_blockOf_iff h hst hcheck hapart hv.1 hblock _).mpr
        (.inr ⟨hwide, rfl⟩)⟩

end Guard

section Reads

variable {cha : SDBuildCHA} {interleave : Bool} {root : String} {st : SDLayoutBuilder}
  {image : Image}

/-- Where its slot is kept, a call through the address point of an object reaches the method of
the object. -/
theorem read_method (h : WellFormed cha) (hst : Installed cha interleave st)
    (hvtables : image.vtables = newArrays cha st) (hapart : Apart image.place (newArrays cha st))
    {site : CallSite} {index : Int}
    (hindex : translateVtblInd cha st (site.className, 0) site.index true = .ok index)
    (hp : InCloud cha root (site.className, 0)) {x : Vtbl} (hx : HasMethod cha site x)
    (hkept : Kept cha interleave (site, x)) {start : Address}
    (hstart : st.newVTableStartAddrMap x = some start) (s : State) :
    ∃ elem, called cha (site, x) = some elem ∧
      image.read s (image.pointer start + BitVec.ofInt 64 (index * 8)) =
        some (renamed cha x elem) := by
  obtain ⟨hmem, hlo, hhi⟩ := hx
  have hreach := (cha.mem_preorder_iff _ x).mp hmem
  have hxcloud := hp.reaches hreach
  have hdef := hst.written.defined x (by rw [hstart]; rfl)
  obtain ⟨hrep, hreps, hdefrep⟩ := representative_spec hp hreach hdef
  have hslot := h.slot_of_reaches hp hreach hdef hlo hhi
  obtain ⟨-, hindex⟩ := (h.translateVtblInd_eq_ok_iff
    (hst.stored.addressed.located.placed h.toAccepted) hrep hdefrep _).mp hindex
  have hrel : index = relIndex cha interleave x site.index := by
    rw [← hindex]
    cases interleave with
    | true => exact (relIndex_eq_iff h hrep hxcloud hslot).mpr (hkept rfl root hp)
    | false => rw [relIndex, relIndex, if_neg Bool.false_ne_true, if_neg Bool.false_ne_true]
  obtain ⟨elems, i, elem, helems, hi, helem, hget⟩ := hst.written.getElem? h hxcloud hslot
  refine ⟨elem, helem, ?_⟩
  have harray : (newVtableName root, elems) ∈ newArrays cha st :=
    List.mem_filterMap.mpr ⟨root, hp.1, by rw [helems]; rfl⟩
  obtain rfl := hst.stored.addressed.starts hxcloud hdef hstart
  have hdiv : (addressOf cha interleave root x).2 / wordWidth =
      addressIndex cha interleave root x := Nat.mul_div_cancel _ (by decide)
  rw [pointer_eq_wordAddress image (hst.words.newVTableStartAddrMap x _ hstart), hdiv, hrel,
    wordAddress_add, ← hi, Image.read, hvtables]
  exact Option.or_eq_some_iff.mpr (.inl (readWord_wordAddress hapart harray hget))

end Reads

section Codes

variable {cha : SDBuildCHA} {interleave : Bool} {st : SDLayoutBuilder} {sites : List CallSite}
  {image : Image}

/-- A call traps exactly when its pointer is not admitted. -/
theorem passes_code_iff (h : WellFormed cha) (hst : Installed cha interleave st)
    (hcheck : Checkable cha interleave) (hapart : Apart image.place (newArrays cha st))
    (hknown : SitesKnown cha sites) {site : CallSite} (hsite : site ∈ sites) {code : CallCode}
    (hcode : protectCall cha st site = .ok code) (vptr : BitVec 64) :
    image.passes code vptr = true ↔
      Admitted cha st image (checkedVptr cha site.className site.preciseClassName) vptr := by
  obtain ⟨-, root, hv⟩ := hknown site hsite
  obtain ⟨checks, -, hchecks, hlist⟩ := protectCall_eq_ok.mp hcode
  rw [Image.passes, hlist, Option.all_some]
  exact passes_iff h hst hcheck hapart hv hchecks vptr

end Codes

end RhoFEM.Program
