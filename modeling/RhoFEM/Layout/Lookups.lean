import RhoFEM.Layout.Thunks

/-! The constants that the lookups of thunks end with, in both layout modes. -/

namespace RhoFEM.Layout

open RhoFEM.CHA RhoFEM.Lib.Fold RhoFEM.Lib.Rounds RhoFEM.Lib.Search

section Placed

variable (cha : SDBuildCHA)

/-- The distance of slot `r` from the address point in the new vtable: in the interleaving that of
the two indices stored for them, otherwise the old one. -/
def relIndex (interleave : Bool) (v : Vtbl) (r : Int) : Int :=
  if interleave then
    storedIndex cha true (cha.getAncestor v) v r - storedIndex cha true (cha.getAncestor v) v 0
  else r

/-- The new indices of a sub-vtable are known at its slots. -/
def Placed (interleave : Bool) (st : SDLayoutBuilder) : Prop :=
  ∀ {root v}, InCloud cha root v → cha.isDefined v → ∃ index : Int → Nat,
    ∀ r, slot cha v r →
      (st.newLayoutInds v)[((cha.addrPt v : Int) - (cha.getRange v).1 + r).toNat]? =
        some (index r) ∧ (index r : Int) - index 0 = relIndex cha interleave v r

variable {cha}

theorem Accepted.getAncestor_eq (h : Accepted cha) {root : String} {v : Vtbl}
    (hv : InCloud cha root v) : cha.getAncestor v = root := by
  rw [SDBuildCHA.getAncestor, h.ancestor hv]
  rfl

/-- The index stored for a slot, from that stored for the address point. -/
theorem Accepted.storedIndex_eq (h : Accepted cha) {interleave : Bool} {root : String} {v : Vtbl}
    (hv : InCloud cha root v) {r : Int} (hslot : slot cha v r) :
    (storedIndex cha interleave root v r : Int) =
      addressIndex cha interleave root v + relIndex cha interleave v r := by
  obtain ⟨hdef, hlo, -⟩ := slot_iff.mp hslot
  cases interleave with
  | true =>
    rw [addressIndex, relIndex, if_pos rfl, h.getAncestor_eq hv]
    omega
  | false =>
    have hbefore := le_orderedIndex (cloudMax cha root) hv.2 hdef 0
    have hle := h.start_le hv
    rw [addressIndex, relIndex, storedIndex, storedIndex, if_neg Bool.false_ne_true,
      if_neg Bool.false_ne_true, if_neg Bool.false_ne_true]
    omega

theorem Laid.placed (h : Accepted cha) {interleave : Bool} {functions : List String}
    {st : SDLayoutBuilder} (hst : Laid cha interleave functions cha.roots st) :
    Placed cha interleave st := by
  intro root v hv hdef
  refine ⟨storedIndex cha interleave root v, fun r hslot => ?_⟩
  rw [hst.newLayoutInds root hv.1 v hv.2, h.positions_cloudElems hv hslot]
  refine ⟨rfl, ?_⟩
  rw [h.storedIndex_eq hv hslot, ← addressIndex, add_sub_cancel_left]

theorem layoutClouds_placed (h : Accepted cha) (interleave : Bool) (functions : List String) :
    ∃ st, layoutClouds cha interleave functions = .ok st ∧ Placed cha interleave st := by
  obtain ⟨st, hok, hst⟩ := laid_roots h.toPointed interleave functions
  exact ⟨st, hok, hst.placed h⟩

/-- The assertion of the translation is that the representative has the slot. -/
theorem Accepted.translateVtblInd_eq_ok_iff (h : Accepted cha) {interleave : Bool}
    {st : SDLayoutBuilder} (hst : Placed cha interleave st) {root : String} {p : Vtbl}
    (hv : InCloud cha root (representative cha p)) (hdef : cha.isDefined (representative cha p))
    {r : Int} (t : Int) :
    translateVtblInd cha st p r true = .ok t ↔ slot cha (representative cha p) r ∧
      relIndex cha interleave (representative cha p) r = t := by
  unfold translateVtblInd
  generalize representative cha p = v at hv hdef ⊢
  obtain ⟨index, hindex⟩ := hst hv hdef
  have hbase : slot cha v 0 := (h.slot_zero_iff hv).mpr hdef
  have haddr := (hindex 0 hbase).1
  rw [add_zero] at haddr
  have hne : st.newLayoutInds v ≠ [] := fun hnil => by simp [hnil] at haddr
  have hstart := h.start_le hv
  have hrange : 0 ≤ (cha.addrPt v : Int) - (cha.getRange v).1 + r ∧
      (cha.addrPt v : Int) - (cha.getRange v).1 + r ≤ (cha.getRange v).2 - (cha.getRange v).1 ↔
        slot cha v r := by
    rw [slot_iff]
    constructor
    · rintro ⟨hlo, hhi⟩
      exact ⟨hdef, by omega, by omega⟩
    · rintro ⟨-, hlo, hhi⟩
      exact ⟨by omega, by omega⟩
  dsimp only
  rw [if_neg hne, if_pos rfl]
  simp only [hrange]
  by_cases hslot : slot cha v r
  · obtain ⟨hfull, hrel⟩ := hindex r hslot
    rw [if_pos hslot]
    simp only [hfull, haddr, Except.ok.injEq, hrel]
    exact (and_iff_right hslot).symm
  · rw [if_neg hslot]
    exact ⟨nofun, fun hand => absurd hand.1 hslot⟩

end Placed

section Lookups

/-- A function stands in the part of a sub-vtable. -/
def Sits (cha : SDBuildCHA) (x : Vtbl) (function : String) : Prop :=
  ∃ i : Nat, (cha.getRange x).1 ≤ i ∧ i ≤ (cha.getRange x).2 ∧
    oldElem cha (x, i) = some (.bitCast function)

/-- The lookups that the front end emits: whole words, of a slot of the vtable that they read. -/
structure LookupModule (cha : SDBuildCHA) (functions : Functions) : Prop
    extends ThunkModule cha functions where
  sits : ∀ {root x function}, InCloud cha root x → Sits cha x function →
    (functions.lookup function).isSome
  unused : ∀ f ∈ functions, ∀ call ∈ f.2, call.value = none
  words : ∀ f ∈ functions, ∀ call ∈ f.2, (wordWidth : Int) ∣ call.oldVal
  source : ∀ {root x function body}, InCloud cha root x → Sits cha x function →
    functions.lookup function = some body → ∀ call ∈ body, ∃ root',
      InCloud cha root' (representative cha (call.source.vtbl x)) ∧
        slot cha (representative cha (call.source.vtbl x)) call.oldIndex

/-- Each lookup in a function of a new vtable ends with the index that is the new one of the
sub-vtable it reads. -/
def LookupsTranslated (cha : SDBuildCHA) (st : SDLayoutBuilder) (functions : Functions) : Prop :=
  ∀ root x function name body, InCloud cha root x → Sits cha x function →
    renamed cha x (.bitCast function) = .bitCast name → functions.lookup name = some body →
      ∀ call ∈ body, ∃ ind,
        translateVtblInd cha st (call.source.vtbl x) call.oldIndex true = .ok ind ∧
          call.value = some (ind * wordWidth)

/-- A copied thunk was found in a sub-vtable with the same distances, and the distances that
other functions look up do not change. -/
def LookupsKept (cha : SDBuildCHA) (interleave : Bool) (functions : Functions) : Prop :=
  ∀ root x function body, InCloud cha root x → Sits cha x function →
    functions.lookup function = some body → ∀ call ∈ body,
      if isVthunk function then
        slot cha (firstHolder cha root function) call.oldIndex ∧
          relIndex cha interleave (firstHolder cha root function) call.oldIndex =
            relIndex cha interleave (representative cha (call.source.vtbl x)) call.oldIndex
      else
        relIndex cha interleave (representative cha (call.source.vtbl x)) call.oldIndex =
          call.oldIndex

variable {cha : SDBuildCHA}

theorem lookup_handleRemaining (functions : Functions) (name : String) :
    (handleRemainingSDGetVcallIndex functions).lookup name =
      (functions.lookup name).map (List.map VcallIndex.settle) := by
  induction functions with
  | nil => rfl
  | cons f functions ih =>
    rw [handleRemainingSDGetVcallIndex, List.map_cons, List.lookup_cons, List.lookup_cons]
    cases name == f.1 with
    | true => rfl
    | false => exact ih

theorem renamed_bitCast (x : Vtbl) (function : String) :
    renamed cha x (.bitCast function) = .bitCast (if isVthunk function then
      newVthunkName function (cha.getLayoutClassName x) else function) := by
  rw [renamed, getVthunkFunction]
  by_cases hthunk : isVthunk function
  · rw [if_pos hthunk, if_pos hthunk]
  · rw [if_neg hthunk, if_neg hthunk]

/-- The call in the copy of a thunk that was found in a sub-vtable. -/
def translated (cha : SDBuildCHA) (interleave : Bool) (p : Vtbl) (call : VcallIndex) :
    VcallIndex :=
  { call with value := some (relIndex cha interleave p call.oldIndex * wordWidth) }

theorem copyBody_eq_ok_iff (h : Accepted cha) {interleave : Bool} {st : SDLayoutBuilder}
    (hst : Placed cha interleave st) {root : String} {p : Vtbl} (hp : InCloud cha root p)
    (hdef : cha.isDefined p) {functions : Functions} {thunk : String} {body : List VcallIndex}
    (hbody : functions.lookup thunk = some body) {body' : List VcallIndex} :
    copyBody cha st functions (thunk, p) = .ok body' ↔
      (∀ call ∈ body, slot cha p call.oldIndex) ∧
        body.map (translated cha interleave p) = body' := by
  have hself := representative_of_isDefined hdef
  have hreplace : ∀ call call', replaceIndex cha st p call = .ok call' ↔
      slot cha p call.oldIndex ∧ translated cha interleave p call = call' := by
    intro call call'
    have hiff : ∀ t, translateVtblInd cha st p call.oldIndex true = .ok t ↔
        slot cha p call.oldIndex ∧ relIndex cha interleave p call.oldIndex = t := by
      intro t
      rw [h.translateVtblInd_eq_ok_iff hst (hself.symm ▸ hp) (hself.symm ▸ hdef), hself]
    rw [replaceIndex, map_eq_ok]
    constructor
    · rintro ⟨t, hok, rfl⟩
      obtain ⟨hslot, rfl⟩ := (hiff t).mp hok
      exact ⟨hslot, rfl⟩
    · rintro ⟨hslot, rfl⟩
      exact ⟨_, (hiff _).mpr ⟨hslot, rfl⟩, rfl⟩
  have hmap : (∀ call ∈ body, slot cha p call.oldIndex) →
      body.mapM (replaceIndex cha st p) = .ok (body.map (translated cha interleave p)) :=
    fun hslots => mapM_eq_ok fun call hcall => (hreplace call _).mpr ⟨hslots call hcall, rfl⟩
  simp only [copyBody, hbody]
  constructor
  · intro hok
    have hslots : ∀ call ∈ body, slot cha p call.oldIndex := by
      intro call hcall
      obtain ⟨call', hcall'⟩ := forall_of_mapM_eq_ok hok call hcall
      exact ((hreplace call call').mp hcall').1
    exact ⟨hslots, Except.ok.inj ((hmap hslots).symm.trans hok)⟩
  · rintro ⟨hslots, rfl⟩
    exact hmap hslots

theorem lookup_original (hfilled : Filled cha) {functions functions' : Functions}
    {st : SDLayoutBuilder} (hmodule : ThunkModule cha functions)
    (hok : functions.createAll cha st = .ok functions') {name : String} {body : List VcallIndex}
    (hbody : functions.lookup name = some body) : functions'.lookup name = some body := by
  rw [createAll_eq hfilled hmodule] at hok
  exact (firstWritten_of_foldlM hok).keep name body hbody

theorem LookupModule.settle_eq {functions : Functions} (hmodule : LookupModule cha functions)
    {name : String} {body : List VcallIndex} (hbody : functions.lookup name = some body)
    {call : VcallIndex} (hcall : call ∈ body) :
    call.settle.value = some (call.oldIndex * wordWidth) := by
  obtain ⟨l₁, l₂, hsplit, -⟩ := List.lookup_eq_some_iff.mp hbody
  have hmem : (name, body) ∈ functions := by rw [hsplit]; simp
  rw [VcallIndex.settle, hmodule.unused _ hmem call hcall, Option.getD_none, VcallIndex.oldIndex,
    Int.tdiv_mul_cancel (hmodule.words _ hmem call hcall)]

theorem renamed_thunk (h : Accepted cha) (hparted : Parted cha) {root : String} {x : Vtbl}
    (hx : InCloud cha root x) {thunk : String} (hholds : Holds cha x thunk) :
    renamed cha x (.bitCast thunk) = .bitCast (newVthunkName thunk root) := by
  rw [renamed_bitCast, if_pos hholds.1, hparted.layoutClass_eq h hx (hholds.found h hx)]

namespace LookupModule

variable {functions functions' : Functions} (hmodule : LookupModule cha functions)
  (h : Accepted cha) {interleave : Bool} {st : SDLayoutBuilder}
  (hplaced : Placed cha interleave st) {root : String} {x : Vtbl} {body : List VcallIndex}
include hmodule h hplaced

theorem translate_iff (hx : InCloud cha root x) {function : String} (hsits : Sits cha x function)
    (hbody : functions.lookup function = some body) {call : VcallIndex} (hcall : call ∈ body)
    (t : Int) :
    translateVtblInd cha st (call.source.vtbl x) call.oldIndex true = .ok t ↔
      relIndex cha interleave (representative cha (call.source.vtbl x)) call.oldIndex = t := by
  obtain ⟨root', hsrc, hslot⟩ := hmodule.source hx hsits hbody call hcall
  rw [h.translateVtblInd_eq_ok_iff hplaced hsrc (slot_iff.mp hslot).1]
  exact and_iff_right hslot

variable (hfilled : Filled cha) (hparted : Parted cha)
include hparted

theorem copyBody_iff (hx : InCloud cha root x) {thunk : String} (hholds : Holds cha x thunk)
    (hbody : functions.lookup thunk = some body) (body' : List VcallIndex) :
    copyBody cha st functions (thunk, firstHolder cha root thunk) = .ok body' ↔
      (∀ call ∈ body, slot cha (firstHolder cha root thunk) call.oldIndex) ∧
        body.map (translated cha interleave (firstHolder cha root thunk)) = body' := by
  obtain ⟨-, hp, hfirst⟩ := firstHolder_spec h hparted hmodule.toThunkModule hx hholds
  exact copyBody_eq_ok_iff h hplaced hp (hfirst.isDefined hparted hp) hbody

include hfilled

theorem kept_of_translated (hcreate : functions.createAll cha st = .ok functions')
    (htranslated : LookupsTranslated cha st (handleRemainingSDGetVcallIndex functions')) :
    LookupsKept cha interleave functions := by
  intro root x function body hx hsits hbody call hcall
  have hsrc := hmodule.translate_iff h hplaced hx hsits hbody hcall
  have hword : (wordWidth : Int) ≠ 0 := by decide
  by_cases hthunk : isVthunk function
  · have hholds : Holds cha x function := ⟨hthunk, hsits⟩
    obtain ⟨body', hok', hlookup⟩ :=
      lookup_copy h hfilled hparted hmodule.toThunkModule hcreate hx hholds
    obtain ⟨hslots, rfl⟩ := (hmodule.copyBody_iff h hplaced hparted hx hholds hbody body').mp hok'
    obtain ⟨ind, hind, hvalue⟩ := htranslated root x function _ _ hx hsits
      (renamed_thunk h hparted hx hholds)
      (by rw [lookup_handleRemaining, hlookup, Option.map_some]) _
      (List.mem_map_of_mem (List.mem_map_of_mem hcall))
    rw [if_pos hthunk]
    refine ⟨hslots call hcall, ?_⟩
    rw [(hsrc ind).mp hind]
    exact Int.eq_of_mul_eq_mul_right hword (Option.some.inj hvalue)
  · obtain ⟨ind, hind, hvalue⟩ := htranslated root x function function _ hx hsits
      (by rw [renamed_bitCast, if_neg hthunk])
      (by rw [lookup_handleRemaining,
        lookup_original hfilled hmodule.toThunkModule hcreate hbody, Option.map_some]) _
      (List.mem_map_of_mem hcall)
    rw [if_neg hthunk, (hsrc ind).mp hind]
    rw [hmodule.settle_eq hbody hcall] at hvalue
    exact (Int.eq_of_mul_eq_mul_right hword (Option.some.inj hvalue)).symm

theorem createAll_ok_of_kept (hkept : LookupsKept cha interleave functions) :
    ∃ functions', functions.createAll cha st = .ok functions' := by
  apply createAll_ok h hfilled hparted hmodule.toThunkModule
  intro root x thunk hx hholds
  obtain ⟨body, hbody⟩ := Option.isSome_iff_exists.mp (hmodule.sits hx hholds.2)
  refine ⟨_, (hmodule.copyBody_iff h hplaced hparted hx hholds hbody _).mpr ⟨?_, rfl⟩⟩
  intro call hcall
  have hcond := hkept root x thunk body hx hholds.2 hbody call hcall
  rw [if_pos hholds.1] at hcond
  exact hcond.1

theorem translated_of_kept (hcreate : functions.createAll cha st = .ok functions')
    (hkept : LookupsKept cha interleave functions) :
    LookupsTranslated cha st (handleRemainingSDGetVcallIndex functions') := by
  intro root x function name final hx hsits hrenamed hfinal call' hcall'
  obtain ⟨body, hbody⟩ := Option.isSome_iff_exists.mp (hmodule.sits hx hsits)
  by_cases hthunk : isVthunk function
  · have hholds : Holds cha x function := ⟨hthunk, hsits⟩
    obtain ⟨body', hok', hlookup⟩ :=
      lookup_copy h hfilled hparted hmodule.toThunkModule hcreate hx hholds
    obtain ⟨-, rfl⟩ := (hmodule.copyBody_iff h hplaced hparted hx hholds hbody body').mp hok'
    obtain rfl := Constant.bitCast.inj ((renamed_thunk h hparted hx hholds).symm.trans hrenamed)
    rw [lookup_handleRemaining, hlookup, Option.map_some, Option.some.injEq] at hfinal
    subst hfinal
    obtain ⟨copied, hcopied, rfl⟩ := List.mem_map.mp hcall'
    obtain ⟨call, hcall, rfl⟩ := List.mem_map.mp hcopied
    have hcond := hkept root x function body hx hsits hbody call hcall
    rw [if_pos hthunk] at hcond
    refine ⟨_, (hmodule.translate_iff h hplaced hx hsits hbody hcall _).mpr rfl, ?_⟩
    rw [← hcond.2]
    rfl
  · rw [renamed_bitCast, if_neg hthunk] at hrenamed
    obtain rfl := Constant.bitCast.inj hrenamed
    rw [lookup_handleRemaining, lookup_original hfilled hmodule.toThunkModule hcreate hbody,
      Option.map_some, Option.some.injEq] at hfinal
    subst hfinal
    obtain ⟨call, hcall, rfl⟩ := List.mem_map.mp hcall'
    have hcond := hkept root x function body hx hsits hbody call hcall
    rw [if_neg hthunk] at hcond
    refine ⟨_, (hmodule.translate_iff h hplaced hx hsits hbody hcall _).mpr rfl, ?_⟩
    rw [hcond]
    exact hmodule.settle_eq hbody hcall

end LookupModule

/-- Within one cloud whose sub-vtables extend their parents, the distances agree when every vtable
placed between has the slot. -/
theorem relIndex_eq_iff (h : WellFormed cha) {root : String} {p x : Vtbl}
    (hp : InCloud cha root p) (hx : InCloud cha root x) {r : Int} (hslot : slot cha x r) :
    relIndex cha true p r = relIndex cha true x r ↔ SlotKept cha root p x r := by
  rw [← h.newIndex_eq_iff hp hx hslot, relIndex, relIndex, if_pos rfl, if_pos rfl,
    h.getAncestor_eq hp, h.getAncestor_eq hx]
  simp only [h.storedIndex_interleaved hp.1]
  omega

def operands : Constant → List String
  | .bitCast operand => [operand]
  | _ => []

def vtableFunctions (cha : SDBuildCHA) (name : String) : List String :=
  ((cha.oldVTables name).getD []).flatMap operands

theorem Sits.mem {x : Vtbl} {function : String} (hsits : Sits cha x function) :
    function ∈ vtableFunctions cha x.1 := by
  obtain ⟨i, -, -, hold⟩ := hsits
  obtain ⟨vtable, hvtable, hget⟩ := Option.bind_eq_some_iff.mp hold
  rw [vtableFunctions, hvtable]
  exact List.mem_flatMap.mpr ⟨_, List.mem_of_getElem? hget, List.mem_singleton_self function⟩

theorem lookupModule_of_nodes {functions : Functions} (hmodule : ThunkModule cha functions)
    (hunused : ∀ f ∈ functions, ∀ call ∈ f.2, call.value = none)
    (hwords : ∀ f ∈ functions, ∀ call ∈ f.2, (wordWidth : Int) ∣ call.oldVal)
    (hnodes : ∀ root ∈ cha.roots, ∀ x ∈ cha.preorder (root, 0), ∀ f ∈ vtableFunctions cha x.1,
      (functions.lookup f).isSome ∧ ∀ call ∈ (functions.lookup f).getD [], ∃ root' ∈ cha.roots,
        representative cha (call.source.vtbl x) ∈ cha.preorder (root', 0) ∧
          slot cha (representative cha (call.source.vtbl x)) call.oldIndex) :
    LookupModule cha functions where
  toThunkModule := hmodule
  sits hx hsits := (hnodes _ hx.1 _ hx.2 _ hsits.mem).1
  unused := hunused
  words := hwords
  source hx hsits hbody call hcall := by
    obtain ⟨root', hroot', hmem, hslot⟩ :=
      (hnodes _ hx.1 _ hx.2 _ hsits.mem).2 call (by rwa [hbody])
    exact ⟨root', ⟨hroot', hmem⟩, hslot⟩

theorem thunk_lookupModule (h : buildClouds thunkVTables thunkClasses = .ok cha) :
    LookupModule cha thunkFunctions := by
  obtain ⟨-, -, -, hmodule⟩ := thunk_wellFormed h
  have hok := eq_ok_of_isOk (x := buildClouds thunkVTables thunkClasses) .empty (by decide)
  obtain rfl := Except.ok.inj (hok.symm.trans h)
  exact lookupModule_of_nodes hmodule (by decide) (by decide) (by decide)

end Lookups

/-- The constants of all lookups are right exactly when the distances are those of the vtables
that they read: for a copied thunk in its first holder, for other functions in the old layout. -/
theorem lookups_translated_iff {cha : SDBuildCHA} (h : Accepted cha) (hfilled : Filled cha)
    (hparted : Parted cha) {functions : Functions} (hmodule : LookupModule cha functions)
    (interleave : Bool) :
    ∃ st, layoutClouds cha interleave (functions.map Prod.fst) = .ok st ∧
      ((∃ functions', functions.createAll cha st = .ok functions' ∧
          LookupsTranslated cha st (handleRemainingSDGetVcallIndex functions')) ↔
        LookupsKept cha interleave functions) := by
  obtain ⟨st, hok, hplaced⟩ := layoutClouds_placed h interleave (functions.map Prod.fst)
  refine ⟨st, hok, ?_, ?_⟩
  · rintro ⟨functions', hcreate, htranslated⟩
    exact hmodule.kept_of_translated h hplaced hfilled hparted hcreate htranslated
  · intro hkept
    obtain ⟨functions', hcreate⟩ :=
      hmodule.createAll_ok_of_kept h hplaced hfilled hparted hkept
    exact ⟨functions', hcreate,
      hmodule.translated_of_kept h hplaced hfilled hparted hcreate hkept⟩

theorem lookups_translated_iff_ordered : ∃ cha st,
    buildClouds thunkVTables thunkClasses = .ok cha ∧
      layoutClouds cha false (thunkFunctions.map Prod.fst) = .ok st ∧
      ((∃ functions', thunkFunctions.createAll cha st = .ok functions' ∧
          LookupsTranslated cha st (handleRemainingSDGetVcallIndex functions')) ↔
        LookupsKept cha false thunkFunctions) := by
  have hcha := eq_ok_of_isOk (x := buildClouds thunkVTables thunkClasses) .empty (by decide)
  obtain ⟨hwell, hfilled, hparted, -⟩ := thunk_wellFormed hcha
  obtain ⟨st, hst⟩ :=
    lookups_translated_iff hwell.toAccepted hfilled hparted (thunk_lookupModule hcha) false
  exact ⟨_, st, hcha, hst⟩

/-- The thunk of `E` adjusts no receiver, is not copied, and keeps the old index in `C`. -/
theorem lookup_keeps_oldIndex : ∃ cha st,
    buildClouds thunkVTables thunkClasses = .ok cha ∧ WellFormed cha ∧ Filled cha ∧ Parted cha ∧
      LookupModule cha thunkFunctions ∧
      layoutClouds cha true (thunkFunctions.map Prod.fst) = .ok st ∧
      ¬ ∃ functions', thunkFunctions.createAll cha st = .ok functions' ∧
        LookupsTranslated cha st (handleRemainingSDGetVcallIndex functions') := by
  have hcha := eq_ok_of_isOk (x := buildClouds thunkVTables thunkClasses) .empty (by decide)
  obtain ⟨hwell, hfilled, hparted, -⟩ := thunk_wellFormed hcha
  obtain ⟨st, hok, hplaced⟩ :=
    layoutClouds_placed hwell.toAccepted true (thunkFunctions.map Prod.fst)
  refine ⟨_, st, hcha, hwell, hfilled, hparted, thunk_lookupModule hcha, hok, ?_⟩
  rintro ⟨functions', hcreate, htranslated⟩
  have hbody : thunkFunctions.lookup "_ZTch0_v0_n16_N1E1fEv" =
      some [⟨.returned "_ZTV1C", -16, none⟩] := rfl
  have hfinal := lookup_original hfilled (thunk_lookupModule hcha).toThunkModule hcreate hbody
  obtain ⟨ind, hind, hvalue⟩ := htranslated "_ZTV1A" ("_ZTV1E", 0) "_ZTch0_v0_n16_N1E1fEv"
    "_ZTch0_v0_n16_N1E1fEv" [VcallIndex.settle ⟨.returned "_ZTV1C", -16, none⟩]
    ⟨by decide, by decide⟩ ⟨1, by decide, by decide, rfl⟩ rfl
    (by rw [lookup_handleRemaining, hfinal]; rfl) _ (List.mem_singleton_self _)
  have hread : translateVtblInd ((buildClouds thunkVTables thunkClasses).toOption.getD .empty) st
      ("_ZTV1C", 0) (-2) true = .ok ind := hind
  have hcloud : InCloud ((buildClouds thunkVTables thunkClasses).toOption.getD .empty) "_ZTV1A"
      (representative ((buildClouds thunkVTables thunkClasses).toOption.getD .empty)
        ("_ZTV1C", 0)) := ⟨by decide, by decide⟩
  have hrel := ((hwell.translateVtblInd_eq_ok_iff hplaced hcloud (by decide) ind).mp hread).2
  rw [representative_of_isDefined (by decide)] at hrel
  have hdistance : relIndex ((buildClouds thunkVTables thunkClasses).toOption.getD .empty) true
      ("_ZTV1C", 0) (-2) = -10 := by decide
  obtain rfl : -10 = ind := hdistance.symm.trans hrel
  exact absurd hvalue (by decide)

end RhoFEM.Layout
