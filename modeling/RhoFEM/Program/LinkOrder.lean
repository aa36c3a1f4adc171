import RhoFEM.Layout.LinkOrder
import RhoFEM.Program.Machine

/-! The protected program does not depend on the order in which its modules are linked, nor on
how many of them emit the record of a class. -/

namespace RhoFEM.Program

open RhoFEM.CHA RhoFEM.Check RhoFEM.Layout RhoFEM.Lib.Fold

section Tables

variable {cha cha' : SDBuildCHA} (h : SameTables cha cha')
include h

theorem handleSDGetCheckedVtbl_congr :
    handleSDGetCheckedVtbl cha = handleSDGetCheckedVtbl cha' := by
  have hindex : cha.getSubVTableIndex = cha'.getSubVTableIndex := by
    funext derived base
    rw [SDBuildCHA.getSubVTableIndex, SDBuildCHA.getSubVTableIndex, h.subObjNames, h.isAncestor]
  have hcheckedVptr : checkedVptr cha = checkedVptr cha' := by
    funext className preciseClassName
    rw [checkedVptr, checkedVptr, h.knowsAbout, hindex]
  have halignment : alignmentOf cha = alignmentOf cha' := by
    funext st vtbl
    rw [alignmentOf, alignmentOf, h.ancestorMap]
  funext st className preciseClassName
  rw [handleSDGetCheckedVtbl, handleSDGetCheckedVtbl, hcheckedVptr, halignment]

theorem updateUses_congr : updateUses cha = updateUses cha' := by
  have horder : cha.getAddrPtOrder = cha'.getAddrPtOrder := by
    funext vtbl addrPt
    rw [SDBuildCHA.getAddrPtOrder, SDBuildCHA.getAddrPtOrder, h.addrPtMap]
  have hreplace : replaceUse cha = replaceUse cha' := by
    funext st node use
    unfold replaceUse
    rw [h.isUndefined, horder, h.getRange]
  have hcloud : replaceCloudUses cha = replaceCloudUses cha' := by
    funext st uses root
    rw [replaceCloudUses, replaceCloudUses, h.preorder, hreplace]
  funext st uses
  rw [updateUses, updateUses, h.roots, hcloud]
  congr 1
  funext uses
  rw [removeOldLayouts, removeOldLayouts, h.oldVTables]

theorem protect_congr : protect cha = protect cha' := by
  have hcall : protectCall cha = protectCall cha' := by
    funext st site
    rw [protectCall, protectCall, translateVtblInd_congr h, handleSDGetCheckedVtbl_congr h]
  have harrays : newArrays cha = newArrays cha' := by
    funext st
    rw [newArrays, newArrays, h.roots]
  funext st place uses sites
  rw [protect, protect, updateUses_congr h, hcall, harrays]

end Tables

/-- The functions of the module are not read again. -/
theorem protect_same (cha : SDBuildCHA) {st st' : SDLayoutBuilder}
    (hsame : SameButFunctions st st') : protect cha st' = protect cha st := by
  obtain ⟨functions, rfl, -⟩ := hsame
  rfl

/-- The passes over a linked module, if no assertion fails: the classes are read from their
records, and the code and the identifiers of the virtual functions are made from them. -/
def link (initializer : String → Option (List Constant)) (interleave : Bool)
    (functions : List String) (place : String → BitVec 64) (uses : List VtableUse)
    (sites : List CallSite) (nodes : List (String × List Metadata)) :
    Option (Image × FunctionInfo) := do
  let infoVec ← (readNodes nodes).toOption
  let cha ← (buildClouds initializer infoVec).toOption
  let info ← cha.buildFunctionInfo.toOption
  let st ← (buildNewLayouts cha interleave functions).toOption
  let image ← protect cha st place uses sites
  return (image, info)

section Order

variable {initializer : String → Option (List Constant)} {interleave : Bool}
  {functions functions' : List String} {place : String → BitVec 64} {uses : List VtableUse}
  {sites : List CallSite}

theorem link_of_same (hfunctions : ∀ f, f ∈ functions ↔ f ∈ functions')
    {nodes nodes' : List (String × List Metadata)} {infoVec infoVec' : List Nmd}
    (hdistinct : (infoVec.map Nmd.className).Nodup) (hperm : infoVec.Perm infoVec')
    (hread : readNodes nodes = .ok infoVec) (hread' : readNodes nodes' = .ok infoVec')
    {result : Image × FunctionInfo}
    (h : link initializer interleave functions place uses sites nodes = some result) :
    link initializer interleave functions' place uses sites nodes' = some result := by
  simp only [link, Option.bind_eq_bind, Option.bind_eq_some_iff, toOption_eq_some] at h ⊢
  obtain ⟨_, hinfoVec, cha, hcha, info, hinfo, st, hst, image, himage, h⟩ := h
  obtain rfl := Except.ok.inj (hread.symm.trans hinfoVec)
  obtain ⟨cha', hcha', hsame⟩ := buildClouds_perm hdistinct hperm hcha
  rw [buildNewLayouts_congr hsame] at hst
  obtain ⟨st', hst', hstate⟩ := buildNewLayouts_same cha' hfunctions hst
  refine ⟨infoVec', hread', cha', hcha', info, hsame.buildFunctionInfo ▸ hinfo, st', hst', image,
    ?_, h⟩
  rw [protect_same cha' hstate, ← protect_congr hsame]
  exact himage

/-- Modules may be linked in any order, with the records of a class in any number of them. -/
theorem link_eq_of_mem_iff {records records' : List ClassRecord}
    (hencodable : ∀ info ∈ records, info.Encodable)
    (hone : OneDefinition (records.map ClassRecord.decoded))
    (hnode : ∀ a ∈ records, ∀ b ∈ records,
      a.decoded.className = b.decoded.className → a.className = b.className)
    (hsize : ∀ node ∈ namedNodes records, node.2.length < 2 ^ 32)
    (hsize' : ∀ node ∈ namedNodes records', node.2.length < 2 ^ 32)
    (hmem : ∀ info, info ∈ records ↔ info ∈ records')
    (hfunctions : ∀ f, f ∈ functions ↔ f ∈ functions') :
    link initializer interleave functions place uses sites (namedNodes records) =
      link initializer interleave functions' place uses sites (namedNodes records') := by
  have hdecoded : ∀ info, info ∈ records.map ClassRecord.decoded ↔
      info ∈ records'.map ClassRecord.decoded := by
    intro info
    simp only [List.mem_map, hmem]
  obtain ⟨infoVec, hread, hnodup, hinfos⟩ := readNodes_namedNodes hencodable hsize hnode hone
  obtain ⟨infoVec', hread', hnodup', hinfos'⟩ := readNodes_namedNodes
    (fun info hinfo => hencodable info ((hmem info).mpr hinfo)) hsize'
    (fun a ha b hb => hnode a ((hmem a).mpr ha) b ((hmem b).mpr hb))
    (fun a ha b hb => hone a ((hdecoded a).mpr ha) b ((hdecoded b).mpr hb))
  have hperm : infoVec.Perm infoVec' := by
    rw [List.perm_ext_iff_of_nodup (.of_map _ hnodup) (.of_map _ hnodup')]
    exact fun info => by rw [hinfos, hinfos', hdecoded]
  ext result
  constructor
  · exact link_of_same hfunctions hnodup hperm hread hread'
  · exact link_of_same (fun f => (hfunctions f).symm) hnodup' hperm.symm hread' hread

end Order

/-- A class with one method, as each module that sees its definition records it. -/
def oneMethod (className parent : String) : ClassRecord where
  className := className
  vTable := none
  subVtables := [⟨0, [(parent, 0)], 0, 2, 2, [("_ZN1A1fEv", 0)]⟩]
  getGlobalVariable := fun _ => none

theorem oneMethod_encodable {className parent : String} (hname : Char.ofNat 0 ∉ className.toList)
    (hparent : Char.ofNat 0 ∉ parent.toList) : (oneMethod className parent).Encodable where
  className := hname
  subVtables := List.forall_mem_singleton.mpr
    { range := ⟨Nat.zero_le 2, le_refl 2⟩
      parents := List.forall_mem_singleton.mpr ⟨hparent, Nat.two_pow_pos 32⟩
      functions := List.forall_mem_singleton.mpr (by decide)
      numParents := Nat.one_lt_two_pow (by decide)
      numFunctions := Nat.one_lt_two_pow (by decide) }
  increasing := List.pairwise_singleton _ _

def linkOneMethod (functions : List String) (records : List ClassRecord) :
    Option (Image × FunctionInfo) :=
  link (fun _ => some [.null, .null, .bitCast "_ZN1A1fEv"]) true functions (fun _ => 0x1000)
    [.oldElementPtr "_ZTV1B" 2] [] (namedNodes records)

theorem link_eq_of_mem_iff_twice : ∃ result,
    linkOneMethod ["main", "f"] [oneMethod "_ZTV1B" "_ZTV1A", oneMethod "_ZTV1A" ""] =
        some result ∧
      linkOneMethod ["f", "main"] [oneMethod "_ZTV1A" "", oneMethod "_ZTV1B" "_ZTV1A",
        oneMethod "_ZTV1A" ""] = some result := by
  obtain ⟨result, hresult⟩ := Option.isSome_iff_exists.mp
    (by decide : (linkOneMethod ["main", "f"]
      [oneMethod "_ZTV1B" "_ZTV1A", oneMethod "_ZTV1A" ""]).isSome)
  refine ⟨result, hresult, Eq.trans (Eq.symm ?_) hresult⟩
  apply link_eq_of_mem_iff
  · rw [List.forall_mem_cons, List.forall_mem_singleton]
    exact ⟨oneMethod_encodable (by decide) (by decide), oneMethod_encodable (by decide) (by decide)⟩
  · exact fun a ha b hb => List.inj_on_of_nodup_map (by decide) ha hb
  · decide
  · decide
  · decide
  · intro info
    simp only [List.mem_cons, List.not_mem_nil, or_false]
    tauto
  · intro f
    simp only [List.mem_cons, List.not_mem_nil, or_false]
    tauto

end RhoFEM.Program
