import RhoFEM.CHA.Tables
import RhoFEM.Layout.Written

/-! The uses of the old vtables, which the pass turns into address points of the new ones
before it removes the old. -/

namespace RhoFEM.CHA.SDBuildCHA

variable (cha : SDBuildCHA)

/-- The first part with the address point; `hasAddrPt` asks whether there is one. -/
def getAddrPtOrder (vtbl : String) (addrPt : Nat) : Option Nat :=
  (cha.addrPtMap vtbl).idxOf? addrPt

end RhoFEM.CHA.SDBuildCHA

namespace RhoFEM.Layout

open RhoFEM.CHA RhoFEM.Lib.Fold RhoFEM.Lib.Simulation

/-- An operand with the address of a vtable: an element of an old or of a new vtable, or
anything else that uses an old one. -/
inductive VtableUse
  | oldElementPtr (vtbl : String) (index : Nat)
  | newElementPtr (vtbl : String) (index : Nat)
  | otherUse (vtbl : String)
  deriving DecidableEq

/-- The assertions about the uses. -/
inductive UseFailure
  | notElementPtr
  | noAddressPoint
  | missingLayoutInds
  | oldVTableUsed
  deriving DecidableEq

/-- The global variable of an old vtable that a use refers to. -/
def VtableUse.oldVtable : VtableUse → Option String
  | oldElementPtr vtbl _ => some vtbl
  | newElementPtr _ _ => none
  | otherUse vtbl => some vtbl

section Uses

variable (cha : SDBuildCHA) (st : SDLayoutBuilder)

/-- The part of the loop over the users of the vtable of a node for one of them; a constant is
replaced at all of its uses together. -/
def replaceUse (node : String × Vtbl) (use : VtableUse) : Except UseFailure VtableUse :=
  let (root, vnode) := node
  if cha.isUndefined vnode ∨ use.oldVtable ≠ some vnode.1 then .ok use
  else
    match use with
    | .oldElementPtr _ oldAddrPt =>
      match cha.getAddrPtOrder vnode.1 oldAddrPt with
      | none => .error .noAddressPoint
      | some order =>
        if order ≠ vnode.2 then .ok use
        else if oldAddrPt < (cha.getRange (vnode.1, order)).1 then .error .missingLayoutInds
        else
          match (st.newLayoutInds vnode)[oldAddrPt - (cha.getRange (vnode.1, order)).1]? with
          | none => .error .missingLayoutInds
          | some newAddrPt => .ok (.newElementPtr (newVtableName root) newAddrPt)
    | _ => .error .notElementPtr

/-- The new indices are complete before the first cloud is emitted. -/
def replaceCloudUses (uses : List VtableUse) (root : String) :
    Except UseFailure (List VtableUse) :=
  ((cha.preorder (root, 0)).map (root, ·)).foldlM
    (fun uses node => uses.mapM (replaceUse cha st node)) uses

/-- No old vtable may be in use when it is erased. -/
def removeOldLayouts (uses : List VtableUse) : Except UseFailure (List VtableUse) :=
  if uses.any fun use => use.oldVtable.any fun vtbl => (cha.oldVTables vtbl).isSome then
    .error .oldVTableUsed
  else .ok uses

def updateUses (uses : List VtableUse) : Except UseFailure (List VtableUse) := do
  let uses ← cha.roots.foldlM (replaceCloudUses cha st) uses
  removeOldLayouts cha uses

/-- What becomes of a use: the address point of a part of an erased vtable is that of the part in
its new vtable, and uses of other vtables stay. -/
def Updated (use use' : VtableUse) : Prop :=
  match use with
  | .oldElementPtr vtbl index =>
    if (cha.oldVTables vtbl).isSome then
      ∃ order start, cha.getAddrPtOrder vtbl index = some order ∧
        st.newVTableStartAddrMap (vtbl, order) = some start ∧
        use' = .newElementPtr start.1 (start.2 / wordWidth)
    else use' = use
  | .newElementPtr _ _ => use' = use
  | .otherUse vtbl => cha.oldVTables vtbl = none ∧ use' = use

end Uses

/-- All clouds' nodes, each with its root. -/
def nodes (cha : SDBuildCHA) : List (String × Vtbl) :=
  cha.roots.flatMap fun root => (cha.preorder (root, 0)).map (root, ·)

/-- What the analysis guarantees for the parts of the classes: they lie in the clouds, and a class
has its old vtable unless it is undefined. -/
structure Accounted (cha : SDBuildCHA) : Prop where
  isUndefined : ∀ {root v}, InCloud cha root v → cha.oldVTables v.1 = none → cha.isUndefined v
  isDefined : ∀ v : Vtbl, (cha.oldVTables v.1).isSome → cha.isDefined v
  inCloud : ∀ v : Vtbl, v.2 < (cha.addrPtMap v.1).length → ∃ root, InCloud cha root v

theorem accounted_of_build {initializer : String → Option (List Constant)} {infoVec : List Nmd}
    {cha : SDBuildCHA} (hacyclic : AcyclicMetadata infoVec) (hlisted : ParentsListed infoVec)
    (hdistinct : (infoVec.map Nmd.className).Nodup)
    (hcha : buildClouds initializer infoVec = .ok cha) : Accounted cha := by
  have htables := buildClouds_tabulated hcha
  constructor
  case isUndefined =>
    intro root v hv hnone
    have hknown := mem_cloudMap_of_reaches hcha hv.1 ((cha.mem_preorder_iff _ _).mp hv.2)
    obtain ⟨sub, info, hinfo, hname, -⟩ := (mem_cloudMap_iff hcha v).mp hknown
    have hmem : v.1 ∈ infoVec.map Nmd.className := List.mem_map.mpr ⟨info, hinfo, hname⟩
    rw [htables.oldVTables, if_pos hmem] at hnone
    rw [SDBuildCHA.isUndefined, List.contains_iff_mem]
    exact (htables.mem_undefinedVTables v.1).mpr ⟨hmem, hnone⟩
  case isDefined =>
    intro v hsome
    rw [htables.oldVTables] at hsome
    rw [SDBuildCHA.isDefined_iff, SDBuildCHA.isUndefined, List.contains_iff_mem,
      htables.mem_undefinedVTables]
    rintro ⟨hmem, hnone⟩
    rw [if_pos hmem, hnone] at hsome
    cases hsome
  case inCloud =>
    intro v hlt
    rw [htables.addrPtMap, List.length_map] at hlt
    have hsub := (classSubs_getElem? hdistinct).mp (List.getElem?_eq_getElem hlt)
    obtain ⟨root, hroot, hreach⟩ := exists_root hcha hacyclic
      (fun _ _ hsub => (hlisted.of_recorded hsub).1) v ((mem_cloudMap_iff hcha v).mpr ⟨_, hsub⟩)
    exact ⟨root, hroot, (cha.mem_preorder_iff _ _).mpr hreach⟩

/-- The passes over all nodes turn a use into another, which is of no erased vtable. -/
def Replaced (cha : SDBuildCHA) (st : SDLayoutBuilder) (use use' : VtableUse) : Prop :=
  (nodes cha).foldlM (fun use node => replaceUse cha st node use) use = .ok use' ∧
    ∀ vtbl, use'.oldVtable = some vtbl → cha.oldVTables vtbl = none

section Replace

variable {cha : SDBuildCHA} {st : SDLayoutBuilder}

theorem mem_nodes_iff (node : String × Vtbl) :
    node ∈ nodes cha ↔ InCloud cha node.1 node.2 := by
  rw [nodes, List.mem_flatMap]
  constructor
  · rintro ⟨root, hroot, hnode⟩
    obtain ⟨v, hv, rfl⟩ := List.mem_map.mp hnode
    exact ⟨hroot, hv⟩
  · rintro ⟨hroot, hv⟩
    exact ⟨node.1, hroot, List.mem_map.mpr ⟨node.2, hv, rfl⟩⟩

theorem getAddrPtOrder_eq_some {vtbl : String} {addrPt order : Nat}
    (h : cha.getAddrPtOrder vtbl addrPt = some order) :
    order < (cha.addrPtMap vtbl).length ∧ cha.addrPt (vtbl, order) = addrPt := by
  obtain ⟨hlt, heq, -⟩ := List.idxOf?_eq_some_iff.mp h
  exact ⟨hlt, by rw [SDBuildCHA.addrPt, List.getElem?_eq_getElem hlt, heq, Option.getD_some]⟩

theorem replaceUse_other {node : String × Vtbl} {use : VtableUse}
    (h : cha.isUndefined node.2 ∨ use.oldVtable ≠ some node.2.1) :
    replaceUse cha st node use = .ok use :=
  if_pos h

/-- The passes over all nodes, for the uses one by one. -/
theorem updateUses_eq_ok {uses uses' : List VtableUse} :
    updateUses cha st uses = .ok uses' ↔ List.Forall₂ (Replaced cha st) uses uses' := by
  have hremove : ∀ us : List VtableUse, removeOldLayouts cha us = .ok uses' ↔
      us = uses' ∧ ∀ use ∈ us, ∀ vtbl, use.oldVtable = some vtbl → cha.oldVTables vtbl = none := by
    intro us
    rw [removeOldLayouts]
    split
    · rename_i hany
      obtain ⟨use, huse, hany⟩ := List.any_eq_true.mp hany
      obtain ⟨vtbl, hvtbl, hsome⟩ := (Option.any_eq_true _ _).mp hany
      refine iff_of_false (fun h => by cases h) fun ⟨_, hall⟩ => ?_
      rw [hall use huse vtbl hvtbl] at hsome
      cases hsome
    · rename_i hany
      rw [Except.ok.injEq, iff_self_and]
      rintro - use huse vtbl hvtbl
      by_contra hsome
      apply hany
      rw [List.any_eq_true]
      refine ⟨use, huse, ?_⟩
      rw [hvtbl, Option.any_some]
      exact Option.isSome_iff_ne_none.mpr hsome
  have hloops : cha.roots.foldlM (replaceCloudUses cha st) uses =
      (nodes cha).foldlM (fun uses node => uses.mapM (replaceUse cha st node)) uses :=
    (foldlM_flatMap _ _).symm
  unfold Replaced
  rw [updateUses, bind_eq_ok, hloops, forall₂_and_right]
  constructor
  · rintro ⟨us, hus, h⟩
    obtain ⟨rfl, hall⟩ := (hremove us).mp h
    exact ⟨foldlM_mapM_eq_ok.mp hus, hall⟩
  · rintro ⟨hus, hall⟩
    exact ⟨uses', foldlM_mapM_eq_ok.mpr hus, (hremove uses').mpr ⟨rfl, hall⟩⟩

/-- The node that a use of a known address point belongs to replaces it, and no other does. -/
theorem replaceUse_foldlM (h : Accepted cha) {interleave : Bool}
    (hst : Located cha interleave st) {root vtbl : String} {index order : Nat}
    (horder : cha.getAddrPtOrder vtbl index = some order) (hv : InCloud cha root (vtbl, order))
    (hdef : cha.isDefined (vtbl, order)) :
    (nodes cha).foldlM (fun use node => replaceUse cha st node use) (.oldElementPtr vtbl index) =
      .ok (.newElementPtr (newVtableName root)
        (addressIndex cha interleave root (vtbl, order))) := by
  obtain ⟨-, rfl⟩ := getAddrPtOrder_eq_some horder
  refine foldlM_once (x := (root, (vtbl, order))) ((mem_nodes_iff _).mpr hv) ?before ?here ?after
  case before =>
    rintro ⟨root', v⟩ hnode hne
    by_cases hother : cha.isUndefined v ∨ some vtbl ≠ some v.1
    · exact replaceUse_other hother
    · obtain ⟨-, hname⟩ := not_or.mp hother
      obtain rfl : vtbl = v.1 := Option.some.inj (not_not.mp hname)
      have hpart : order ≠ v.2 := by
        rintro rfl
        exact hne (congrArg (·, v) (h.unique ((mem_nodes_iff _).mp hnode) hv))
      rw [replaceUse]
      simp only [VtableUse.oldVtable, if_neg hother, horder, if_pos hpart]
  case here =>
    rw [replaceUse]
    simp only [VtableUse.oldVtable, SDBuildCHA.isDefined_iff.mp hdef, horder, ne_eq,
      not_true_eq_false, if_false, if_neg (Nat.not_lt.mpr (h.start_le hv)),
      hst.newLayoutInds hv, h.positions_addrPt hv hdef]
    rfl
  case after => exact fun node _ => replaceUse_other (.inr (Option.some_ne_none _).symm)

/-- Only an element at an address point is replaced. -/
theorem replaceUse_cases {node : String × Vtbl} {use t : VtableUse}
    (h : replaceUse cha st node use = .ok t) : t = use ∨ ∃ vtbl index,
      use = .oldElementPtr vtbl index ∧ (cha.getAddrPtOrder vtbl index).isSome := by
  unfold replaceUse at h
  dsimp only at h
  split at h
  · exact .inl (Except.ok.inj h).symm
  · rename_i hother
    obtain ⟨-, hname⟩ := not_or.mp hother
    cases use with
    | newElementPtr vtbl index => cases h
    | otherUse vtbl => cases h
    | oldElementPtr vtbl index =>
      obtain rfl : vtbl = node.2.1 := Option.some.inj (not_not.mp hname)
      cases horder : cha.getAddrPtOrder node.2.1 index with
      | none =>
        dsimp only at h
        rw [horder] at h
        cases h
      | some order => exact .inr ⟨_, index, rfl, by rw [horder]; rfl⟩

/-- A use of no erased vtable stays. -/
theorem replaced_iff_of_unused (hacc : Accounted cha) {use use' : VtableUse}
    (hnone : ∀ vtbl, use.oldVtable = some vtbl → cha.oldVTables vtbl = none) :
    Replaced cha st use use' ↔ use' = use := by
  have hfree : ∀ node ∈ nodes cha, replaceUse cha st node use = .ok use := by
    intro node hnode
    apply replaceUse_other
    rw [or_iff_not_imp_right, not_not]
    exact fun hname => hacc.isUndefined ((mem_nodes_iff node).mp hnode) (hnone _ hname)
  rw [Replaced, foldlM_fixed hfree, Except.ok.injEq]
  constructor
  · exact fun ⟨heq, _⟩ => heq.symm
  · rintro rfl
    exact ⟨rfl, hnone⟩

/-- Nothing replaces a use of an erased vtable that is no element at an address point. -/
theorem not_replaced {use use' : VtableUse} {vtbl : String}
    (hname : use.oldVtable = some vtbl) (hold : cha.oldVTables vtbl ≠ none)
    (hno : ∀ index, use = .oldElementPtr vtbl index → cha.getAddrPtOrder vtbl index = none) :
    ¬ Replaced cha st use use' := by
  rintro ⟨hrun, hnone⟩
  have hkept : ∀ node ∈ nodes cha, ∀ t, replaceUse cha st node use = .ok t → t = use := by
    intro node _ t ht
    refine (replaceUse_cases ht).resolve_right ?_
    rintro ⟨vtbl', index, rfl, hsome⟩
    obtain rfl : vtbl' = vtbl := Option.some.inj hname
    rw [hno index rfl] at hsome
    cases hsome
  obtain rfl := ((foldlM_fixed_iff hkept).mp hrun).1
  exact hold (hnone vtbl hname)

/-- A use at an address point becomes the one that the new vtable has for the same part. -/
theorem replaced_iff_of_addressPoint (hacc : Accounted cha) (h : Accepted cha) {interleave : Bool}
    (haddressed : Addressed cha interleave cha.roots st) {vtbl : String} {index order : Nat}
    {use' : VtableUse} (hold : (cha.oldVTables vtbl).isSome)
    (horder : cha.getAddrPtOrder vtbl index = some order) :
    Replaced cha st (.oldElementPtr vtbl index) use' ↔ ∃ start,
      st.newVTableStartAddrMap (vtbl, order) = some start ∧
        use' = .newElementPtr start.1 (start.2 / wordWidth) := by
  obtain ⟨root, hv⟩ := hacc.inCloud (vtbl, order) (getAddrPtOrder_eq_some horder).1
  have hdef := hacc.isDefined (vtbl, order) hold
  obtain ⟨start, hstart⟩ := Option.isSome_iff_exists.mp
    (haddressed.stored root hv.1 (vtbl, order) hv.2 hdef)
  have haddr : start = addressOf cha interleave root (vtbl, order) :=
    haddressed.starts hv hdef hstart
  have hword : start.2 / wordWidth = addressIndex cha interleave root (vtbl, order) := by
    rw [haddr]
    exact Nat.mul_div_cancel _ (by decide)
  rw [Replaced, replaceUse_foldlM h haddressed.located horder hv hdef, Except.ok.injEq]
  constructor
  · rintro ⟨rfl, -⟩
    exact ⟨start, hstart, by rw [hword, haddr]; rfl⟩
  · rintro ⟨start', hstart', rfl⟩
    obtain rfl := Option.some.inj (hstart.symm.trans hstart')
    refine ⟨by rw [hword, haddr]; rfl, ?_⟩
    intro name hname
    cases hname

/-- The passes over all nodes, and the last look at the uses, for one use. -/
theorem replaced_iff_updated (hacc : Accounted cha) (h : Accepted cha) {interleave : Bool}
    (haddressed : Addressed cha interleave cha.roots st) (use use' : VtableUse) :
    Replaced cha st use use' ↔ Updated cha st use use' := by
  cases use with
  | newElementPtr vtbl index => exact replaced_iff_of_unused hacc fun name hname => by cases hname
  | otherUse vtbl =>
    rw [Updated]
    cases hold : cha.oldVTables vtbl with
    | none =>
      have hnone : ∀ name, (VtableUse.otherUse vtbl).oldVtable = some name →
          cha.oldVTables name = none := fun name hname => Option.some.inj hname ▸ hold
      rw [replaced_iff_of_unused hacc hnone, eq_self, true_and]
    | some vtable =>
      refine iff_of_false (not_replaced rfl (by rw [hold]; exact Option.some_ne_none _) ?_) ?_
      · exact fun index huse => by cases huse
      · exact fun ⟨hnone, _⟩ => Option.some_ne_none _ hnone
  | oldElementPtr vtbl index =>
    rw [Updated]
    split
    · rename_i hold
      cases horder : cha.getAddrPtOrder vtbl index with
      | none =>
        -- the old vtable stays in use
        refine iff_of_false (not_replaced rfl (Option.isSome_iff_ne_none.mp hold) ?_) ?_
        · rintro index' ⟨⟩
          exact horder
        · rintro ⟨order, start, hsome, -⟩
          cases hsome
      | some order =>
        rw [replaced_iff_of_addressPoint hacc h haddressed hold horder]
        simp
    · rename_i hold
      refine replaced_iff_of_unused hacc fun name hname => ?_
      exact Option.some.inj hname ▸ Option.not_isSome_iff_eq_none.mp hold

theorem updated_of_updateUses (hacc : Accounted cha) (h : Accepted cha) {interleave : Bool}
    {functions : List String} (hst : buildNewLayouts cha interleave functions = .ok st)
    {uses uses' : List VtableUse} (hok : updateUses cha st uses = .ok uses') :
    List.Forall₂ (Updated cha st) uses uses' :=
  (updateUses_eq_ok.mp hok).imp fun use use' =>
    (replaced_iff_updated hacc h (stored_of_build h hst).addressed use use').mp

end Replace

/-- The rewriting of the uses and the removal of the old vtables succeed exactly when every use of
an old vtable is an element at an address point, and then each holds the new address point of the
same part. -/
theorem updateUses_iff {initializer : String → Option (List Constant)} {infoVec : List Nmd}
    {cha : SDBuildCHA} (hacyclic : AcyclicMetadata infoVec) (hlisted : ParentsListed infoVec)
    (hdistinct : (infoVec.map Nmd.className).Nodup)
    (hcha : buildClouds initializer infoVec = .ok cha) (h : Accepted cha) {interleave : Bool}
    {functions : List String} {st : SDLayoutBuilder}
    (hst : buildNewLayouts cha interleave functions = .ok st) (uses uses' : List VtableUse) :
    updateUses cha st uses = .ok uses' ↔ List.Forall₂ (Updated cha st) uses uses' := by
  have hacc := accounted_of_build hacyclic hlisted hdistinct hcha
  constructor
  · exact updated_of_updateUses hacc h hst
  · intro hupdated
    exact updateUses_eq_ok.mpr (hupdated.imp fun use use' =>
      (replaced_iff_updated hacc h (stored_of_build h hst).addressed use use').mpr)

theorem updateUses_iff_diamond : ∃ cha st, buildClouds diamondVTables diamondClasses = .ok cha ∧
    buildNewLayouts cha true [] = .ok st ∧ ∀ uses uses',
      updateUses cha st uses = .ok uses' ↔ List.Forall₂ (Updated cha st) uses uses' := by
  have hcha := eq_ok_of_isOk (x := buildClouds diamondVTables diamondClasses) .empty (by decide)
  obtain ⟨hwell, hfilled⟩ := diamond_wellFormed hcha
  obtain ⟨st, hst, -⟩ := buildNewLayouts_ok hwell hfilled []
  exact ⟨_, st, hcha, hst, updateUses_iff (acyclicMetadata_of_lt (by decide)) (by decide)
    (by decide) hcha hwell.toAccepted hst⟩

section Readers

variable {cha : SDBuildCHA} {interleave : Bool} {root : String} {st : SDLayoutBuilder} {v : Vtbl}

/-- The index that is stored for each slot of a sub-vtable without padding is its place. -/
theorem Located.getElem? (h : Accepted cha) (hst : Located cha interleave st)
    (hmap : st.interleavingMap root = cloudElems cha interleave root) (hv : InCloud cha root v)
    (hdef : cha.isDefined v) (hpad : cloudPad cha interleave root v = 0) {j : Nat}
    (hstart : (cha.getRange v).1 ≤ j) (hstop : j ≤ (cha.getRange v).2) :
    ∃ i, (st.newLayoutInds v)[j - (cha.getRange v).1]? = some i ∧
      (st.interleavingMap root)[i]? = some (v, (j : ℤ)) := by
  obtain ⟨st₁, -, hlaid⟩ := laid_roots h.toPointed interleave []
  rw [hst.newLayoutInds hv, hmap, ← hlaid.newLayoutInds root hv.1 v hv.2,
    ← hlaid.interleavingMap root hv.1]
  exact (hlaid.located_iff h.toPointed hv hdef hstart hstop).mpr hpad

/-- Where no padding is needed, the readers of the stored indices find the elements of the
sub-vtable itself: its address point, its slots, and the address points in constructors. -/
theorem readers_located (h : Accepted cha) (hset : ∀ v, (cha.children v).Nodup)
    {functions : List String} (hbuild : buildNewLayouts cha interleave functions = .ok st)
    (hsizes : interleave = true → ∀ p c, Forward cha root p c → cha.isDefined p →
      cha.isDefined c → sizeBefore cha p ≤ sizeBefore cha c)
    (hv : InCloud cha root v) (hdef : cha.isDefined v) :
    ∃ base, (st.interleavingMap root)[base]? = some (v, (cha.addrPt v : ℤ)) ∧
      st.newVTableStartAddrMap v = some (newVtableName root, base * wordWidth) ∧
      (∀ r, slot cha v r → ∃ i : Nat,
        (st.interleavingMap root)[i]? = some (v, (cha.addrPt v : ℤ) + r) ∧
          translateVtblInd cha st v r true = .ok ((i : ℤ) - base)) ∧
      (∀ k : Nat, (cha.getRange v).1 + k ≤ (cha.getRange v).2 → ∃ i : Nat,
        (st.interleavingMap root)[i]? = some (v, ((cha.getRange v).1 : ℤ) + k) ∧
          translateVtblInd cha st v k false = .ok i) ∧
      ∀ index, cha.getAddrPtOrder v.1 index = some v.2 →
        replaceUse cha st (root, v) (.oldElementPtr v.1 index) =
          .ok (.newElementPtr (newVtableName root) base) := by
  have hstored := (stored_of_build h hbuild).addressed
  have hmap := (written_of_build h hbuild).interleavingMap root hv.1
  have hpad := (cloudPad_eq_zero_iff ⟨h.toPointed, hset⟩).mpr hsizes v hv.2 hdef
  have hplace {j : Nat} (hstart : (cha.getRange v).1 ≤ j) (hstop : j ≤ (cha.getRange v).2) :=
    hstored.located.getElem? h hmap hv hdef hpad hstart hstop
  have hself : representative cha v = v := if_neg (SDBuildCHA.isDefined_iff.mp hdef)
  have hstart := h.start_le hv
  have hstop := h.le_stop hv
  obtain ⟨base, hbase, hbaseElem⟩ := hplace hstart hstop
  have hne : st.newLayoutInds v ≠ [] := fun hnil => by simp [hnil] at hbase
  refine ⟨base, hbaseElem, ?_, ?_, ?_, ?_⟩
  · obtain ⟨a, ha⟩ := Option.isSome_iff_exists.mp (hstored.stored root hv.1 v hv.2 hdef)
    have hindex : base = addressIndex cha interleave root v := by
      rw [hstored.located.newLayoutInds hv, h.positions_addrPt hv hdef] at hbase
      exact (Option.some.inj hbase).symm
    rw [ha, hstored.starts hv hdef ha, addressOf, hindex]
  · intro r hslot
    obtain ⟨-, hlo, hhi⟩ := slot_iff.mp hslot
    obtain ⟨i, hi, helem⟩ := hplace (j := ((cha.addrPt v : ℤ) + r).toNat) (by omega) (by omega)
    rw [Int.toNat_of_nonneg (by omega)] at helem
    refine ⟨i, helem, ?_⟩
    have hfull : ((cha.addrPt v : ℤ) - (cha.getRange v).1 + r).toNat =
        ((cha.addrPt v : ℤ) + r).toNat - (cha.getRange v).1 := by omega
    have hold : ((cha.addrPt v : ℤ) - (cha.getRange v).1).toNat =
        cha.addrPt v - (cha.getRange v).1 := by omega
    simp only [translateVtblInd, hself, if_neg hne, if_true, hfull, hold, hi, hbase]
    exact if_pos ⟨by omega, by omega⟩
  · intro k hk
    obtain ⟨i, hi, helem⟩ := hplace (Nat.le_add_right _ k) hk
    refine ⟨i, by rw [helem, Nat.cast_add], ?_⟩
    rw [Nat.add_sub_cancel_left] at hi
    have hlt : k < (st.newLayoutInds v).length := (List.getElem?_eq_some_iff.mp hi).1
    simp only [translateVtblInd, hself, if_neg hne, Bool.false_eq_true, if_false,
      Int.toNat_natCast, hi]
    exact if_pos ⟨by omega, by omega⟩
  · intro index horder
    obtain ⟨-, rfl⟩ := getAddrPtOrder_eq_some horder
    rw [replaceUse]
    simp only [VtableUse.oldVtable, SDBuildCHA.isDefined_iff.mp hdef, horder, ne_eq,
      not_true_eq_false, if_false, if_neg (Nat.not_lt.mpr hstart), hbase]
    rfl

end Readers

end RhoFEM.Layout
