import RhoFEM.Layout.Dispatch

/-! The bodies of the thunk copies: the offsets that they look up, and in whose vtable. -/

namespace RhoFEM.Layout

open RhoFEM.CHA RhoFEM.Lib.Fold RhoFEM.Lib.Rounds RhoFEM.Lib.Search

/-- Whose vtable an offset is read from: that of the receiver, or that of the returned object. -/
inductive Source
  | receiver
  | returned (className : String)
  deriving DecidableEq

def Source.vtbl (receiver : Vtbl) : Source → Vtbl
  | .receiver => receiver
  | .returned className => (className, 0)

/-- A call of `sd_get_vcall_index`, and the constant that has replaced its uses, if any. -/
structure VcallIndex where
  source : Source
  oldVal : Int
  value : Option Int
  deriving DecidableEq

def VcallIndex.oldIndex (call : VcallIndex) : Int := call.oldVal.tdiv wordWidth

/-- The functions of a module, each with the calls of `sd_get_vcall_index` in its body. -/
abbrev Functions := List (String × List VcallIndex)

section Copies

variable (cha : SDBuildCHA) (st : SDLayoutBuilder)

/-- The new index is that of the sub-vtable the thunk was found in. -/
def replaceIndex (v : Vtbl) (call : VcallIndex) : Except Failure VcallIndex :=
  (translateVtblInd cha st v call.oldIndex true).map fun newIndex =>
    { call with value := some (newIndex * wordWidth) }

/-- The body of the copy of a thunk that was found in a sub-vtable. -/
def copyBody (functions : Functions) (found : String × Vtbl) : Except Failure (List VcallIndex) :=
  match functions.lookup found.1 with
  | none => .error .missingThunk
  | some body => body.mapM (replaceIndex cha st found.2)

/-- The name of the copy of a thunk that was found in a sub-vtable. -/
def copyName (found : String × Vtbl) : String :=
  newVthunkName found.1 (cha.getLayoutClassName found.2)

def Functions.createThunkFunction (vtbl : String) (functions : Functions) (elem : Constant × Nat) :
    Except Failure Functions :=
  match getVthunkFunction elem.1 with
  | none => .ok functions
  | some thunk =>
    if (functions.lookup thunk).isNone then .error .missingThunk
    else
      match cha.getVTableOrder vtbl elem.2 with
      | none => .error .indexNotInRange
      | some order =>
        let newThunkName := copyName cha (thunk, (vtbl, order))
        if (functions.lookup newThunkName).isSome then .ok functions
        else (copyBody cha st functions (thunk, (vtbl, order))).map fun body =>
          functions ++ [(newThunkName, body)]

def Functions.createNodeThunks (functions : Functions) (v : Vtbl) : Except Failure Functions :=
  match cha.oldVTables v.1 with
  | none => if cha.isUndefined v then .ok functions else .error .missingOldVTable
  | some vtableArr =>
    vtableArr.zipIdx.foldlM (Functions.createThunkFunction cha st v.1) functions

def Functions.createThunkFunctions (functions : Functions) (rootName : String) :
    Except Failure Functions :=
  (cha.preorder (rootName, 0)).foldlM (Functions.createNodeThunks cha st) functions

/-- The calls of `createThunkFunctions`, one for each root. -/
def Functions.createAll (functions : Functions) : Except Failure Functions :=
  cha.roots.foldlM (Functions.createThunkFunctions cha st) functions

/-- The first loop of `buildNewLayouts`. -/
def layoutClouds (interleave : Bool) (functions : List String) : Except Failure SDLayoutBuilder :=
  cha.roots.foldlM (layoutCloud cha interleave) (SDLayoutBuilder.init functions)

end Copies

/-- A call that still has uses leaves its argument there. -/
def VcallIndex.settle (call : VcallIndex) : VcallIndex :=
  { call with value := some (call.value.getD call.oldVal) }

def handleRemainingSDGetVcallIndex (functions : Functions) : Functions :=
  functions.map fun f => (f.1, f.2.map VcallIndex.settle)

section Names

variable {cha : SDBuildCHA} {st : SDLayoutBuilder}

theorem lookup_isSome_iff_mem (functions : Functions) (name : String) :
    (functions.lookup name).isSome ↔ name ∈ functions.map Prod.fst := by
  rw [List.lookup_isSome_iff, List.mem_map]
  apply exists_congr
  intro f
  rw [beq_iff_eq, eq_comm]

theorem Functions.createThunkFunction_names {vtbl : String} {functions functions' : Functions}
    {elem : Constant × Nat}
    (h : functions.createThunkFunction cha st vtbl elem = .ok functions') :
    Layout.createThunkFunction cha vtbl (functions.map Prod.fst) elem =
      .ok (functions'.map Prod.fst) := by
  unfold Functions.createThunkFunction at h
  unfold Layout.createThunkFunction
  cases hthunk : getVthunkFunction elem.1 with
  | none =>
    rw [hthunk] at h
    rw [← Except.ok.inj h]
  | some thunk =>
    simp only [hthunk] at h
    split at h
    · cases h
    · cases horder : cha.getVTableOrder vtbl elem.2 with
      | none =>
        rw [horder] at h
        cases h
      | some order =>
        simp only [horder] at h
        by_cases hsome : (functions.lookup (copyName cha (thunk, (vtbl, order)))).isSome
        · rw [if_pos hsome] at h
          rw [← Except.ok.inj h]
          exact if_pos ((lookup_isSome_iff_mem _ _).mp hsome)
        · rw [if_neg hsome] at h
          obtain ⟨body, -, rfl⟩ := map_eq_ok.mp h
          rw [List.map_append]
          exact if_neg (mt (lookup_isSome_iff_mem _ _).mpr hsome)

theorem Functions.createNodeThunks_names {functions functions' : Functions} {v : Vtbl}
    (h : functions.createNodeThunks cha st v = .ok functions') :
    Layout.createNodeThunks cha (functions.map Prod.fst) v = .ok (functions'.map Prod.fst) := by
  unfold Functions.createNodeThunks at h
  unfold Layout.createNodeThunks
  cases hold : cha.oldVTables v.1 with
  | none =>
    simp only [hold] at h
    split at h
    · rename_i hundef
      rw [← Except.ok.inj h]
      exact if_pos hundef
    · cases h
  | some vtable =>
    rw [hold] at h
    exact foldlM_simulates (List.map Prod.fst)
      (fun _ _ _ hstep => Functions.createThunkFunction_names hstep) h

/-- The functions that have copies are those of the layout builder. -/
theorem Functions.createThunkFunctions_names {functions functions' : Functions} {root : String}
    (h : functions.createThunkFunctions cha st root = .ok functions') :
    Layout.createThunkFunctions cha root (functions.map Prod.fst) =
      .ok (functions'.map Prod.fst) :=
  foldlM_simulates (List.map Prod.fst)
    (fun _ _ _ hstep => Functions.createNodeThunks_names hstep) h

end Names

section Found

variable (cha : SDBuildCHA) (st : SDLayoutBuilder)

/-- The thunks in the vtable of a class, each with the part it lies in. -/
def thunksOf (name : String) : List (String × Vtbl) :=
  match cha.oldVTables name with
  | none => []
  | some vtableArr => vtableArr.zipIdx.filterMap fun elem =>
    (getVthunkFunction elem.1).bind fun thunk =>
      (cha.getVTableOrder name elem.2).map fun order => (thunk, (name, order))

/-- All thunks in the order in which `createAll` finds them. -/
def foundThunks : List (String × Vtbl) :=
  cha.roots.flatMap fun root => (cha.preorder (root, 0)).flatMap fun v => thunksOf cha v.1

/-- The sub-vtable from which the copy of a thunk for a cloud is made. -/
def firstHolder (root thunk : String) : Vtbl :=
  (((foundThunks cha).find? (copyName cha · == newVthunkName thunk root)).map Prod.snd).getD
    (root, 0)

/-- What `buildClouds` computes: vtables are those of defined classes, and a part that holds a
thunk lies in the cloud of its layout class. -/
structure Parted : Prop where
  defined : ∀ {root v}, InCloud cha root v → (cha.oldVTables v.1).isSome → cha.isDefined v
  layoutClass : ∀ found ∈ foundThunks cha,
    InCloud cha (cha.getLayoutClassName found.2) found.2

/-- The thunks are functions of the module, and names of copies stand for one thunk only. -/
structure ThunkModule (functions : Functions) : Prop where
  defined : ∀ found ∈ foundThunks cha, (functions.lookup found.1).isSome
  fresh : ∀ found ∈ foundThunks cha, functions.lookup (copyName cha found) = none
  distinct : ∀ found ∈ foundThunks cha, ∀ found' ∈ foundThunks cha,
    copyName cha found = copyName cha found' → found.1 = found'.1

/-- The step for one thunk of the scan. -/
def createFound (functions : Functions) (found : String × Vtbl) : Except Failure Functions :=
  if (functions.lookup found.1).isNone then .error .missingThunk
  else insertFirst (copyName cha) (copyBody cha st functions) functions found

variable {cha st}

theorem createNodeThunks_eq (hfilled : Filled cha) {root : String} {v : Vtbl}
    (hv : InCloud cha root v) (functions : Functions) :
    functions.createNodeThunks cha st v =
      (thunksOf cha v.1).foldlM (createFound cha st) functions := by
  unfold Functions.createNodeThunks thunksOf
  cases hold : cha.oldVTables v.1 with
  | none =>
    have hundef : cha.isUndefined v := by
      by_contra hdef
      obtain ⟨vtable, hvtable, -⟩ :=
        hfilled.oldVTable hv (SDBuildCHA.isDefined_iff.mpr hdef)
      exact Option.some_ne_none vtable (hvtable.symm.trans hold)
    exact if_pos hundef
  | some vtable =>
    dsimp only
    rw [List.foldlM_filterMap]
    apply foldlM_congr
    intro elem helem functions
    have horder := hfilled.thunks hv hold elem helem
    unfold Functions.createThunkFunction
    cases hthunk : getVthunkFunction elem.1 with
    | none => rfl
    | some thunk =>
      rw [hthunk] at horder
      obtain ⟨order, hsome⟩ := Option.isSome_iff_exists.mp (horder rfl)
      simp only [hsome, Option.bind_some, Option.map_some]
      rfl

theorem createAll_eq (hfilled : Filled cha) {functions : Functions}
    (hmodule : ThunkModule cha functions) :
    functions.createAll cha st = (foundThunks cha).foldlM
      (insertFirst (copyName cha) (copyBody cha st functions)) functions := by
  have hscan : functions.createAll cha st =
      (foundThunks cha).foldlM (createFound cha st) functions := by
    rw [Functions.createAll, foundThunks, foldlM_flatMap]
    apply foldlM_congr
    intro root hroot functions
    rw [Functions.createThunkFunctions, foldlM_flatMap]
    apply foldlM_congr
    intro v hv functions
    exact createNodeThunks_eq hfilled ⟨hroot, hv⟩ functions
  rw [hscan]
  apply foldlM_eq_insertFirst
  intro found hfound functions' hkeep
  obtain ⟨body, hbody⟩ := Option.isSome_iff_exists.mp (hmodule.defined found hfound)
  have hbody' := hkeep _ _ hbody
  rw [createFound, if_neg (by simp [hbody']), insertFirst, insertFirst]
  simp only [copyBody, hbody, hbody']

/-- A sub-vtable has a thunk in its part of the old vtable. -/
def Holds (cha : SDBuildCHA) (x : Vtbl) (thunk : String) : Prop :=
  isVthunk thunk ∧ ∃ i : Nat, (cha.getRange x).1 ≤ i ∧ i ≤ (cha.getRange x).2 ∧
    oldElem cha (x, i) = some (.bitCast thunk)

theorem getVthunkFunction_eq_some {c : Constant} {thunk : String} :
    getVthunkFunction c = some thunk ↔ c = .bitCast thunk ∧ isVthunk thunk := by
  cases c with
  | null => simp [getVthunkFunction]
  | bitCast operand =>
    rw [getVthunkFunction, Option.ite_none_right_eq_some, Option.some.injEq,
      Constant.bitCast.injEq, and_comm]
    exact and_congr_right fun heq => by rw [heq]
  | other value => simp [getVthunkFunction]

theorem mem_thunksOf {name : String} {found : String × Vtbl} :
    found ∈ thunksOf cha name ↔ ∃ vtable i, cha.oldVTables name = some vtable ∧
      vtable[i]? = some (.bitCast found.1) ∧ isVthunk found.1 ∧ found.2.1 = name ∧
        cha.getVTableOrder name i = some found.2.2 := by
  unfold thunksOf
  cases hold : cha.oldVTables name with
  | none => simp
  | some vtable =>
    simp only [List.mem_filterMap, Option.bind_eq_some_iff, Option.map_eq_some_iff,
      getVthunkFunction_eq_some]
    constructor
    · rintro ⟨elem, helem, thunk, ⟨hcast, hthunk⟩, order, horder, rfl⟩
      have hget := List.mem_zipIdx_iff_getElem?.mp helem
      exact ⟨vtable, elem.2, rfl, hget.trans (congrArg some hcast), hthunk, rfl, horder⟩
    · rintro ⟨vtable', i, heq, hget, hthunk, hname, horder⟩
      obtain rfl := Option.some.inj heq
      exact ⟨(.bitCast found.1, i), List.mem_zipIdx_iff_getElem?.mpr hget, found.1,
        ⟨rfl, hthunk⟩, found.2.2, horder, by rw [← hname]⟩

theorem Holds.of_found {x : Vtbl} {thunk : String} (hfound : (thunk, x) ∈ foundThunks cha) :
    Holds cha x thunk := by
  obtain ⟨root, -, hfound⟩ := List.mem_flatMap.mp hfound
  obtain ⟨v, -, hfound⟩ := List.mem_flatMap.mp hfound
  obtain ⟨vtable, i, hold, hget, hthunk, hname, horder⟩ := mem_thunksOf.mp hfound
  rw [← hname] at hold horder
  obtain ⟨hlt, hrange, -⟩ := List.findIdx?_eq_some_iff_getElem.mp horder
  have hgetRange : cha.getRange x = (cha.rangeMap x.1)[x.2] := by
    rw [SDBuildCHA.getRange, List.getElem?_eq_getElem hlt, Option.getD_some]
  rw [← hgetRange] at hrange
  obtain ⟨hstart, hstop⟩ := of_decide_eq_true hrange
  exact ⟨hthunk, i, hstart, hstop, Option.bind_eq_some_iff.mpr ⟨vtable, hold, hget⟩⟩

theorem Holds.found (h : Accepted cha) {root : String} {x : Vtbl} (hx : InCloud cha root x)
    {thunk : String} (hholds : Holds cha x thunk) : (thunk, x) ∈ foundThunks cha := by
  obtain ⟨hthunk, i, hstart, hstop, hold⟩ := hholds
  obtain ⟨vtable, hvtable, hget⟩ := Option.bind_eq_some_iff.mp hold
  exact List.mem_flatMap.mpr ⟨root, hx.1, List.mem_flatMap.mpr ⟨x, hx.2, mem_thunksOf.mpr
    ⟨vtable, i, hvtable, hget, hthunk, rfl, h.getVTableOrder_eq hx hstart hstop⟩⟩⟩

theorem Holds.isDefined (hparted : Parted cha) {root : String} {x : Vtbl}
    (hx : InCloud cha root x) {thunk : String} (hholds : Holds cha x thunk) : cha.isDefined x := by
  obtain ⟨-, i, -, -, hold⟩ := hholds
  obtain ⟨vtable, hvtable, -⟩ := Option.bind_eq_some_iff.mp hold
  exact hparted.defined hx (by rw [hvtable]; rfl)

theorem newVthunkName_inj {thunk a b : String}
    (h : newVthunkName thunk a = newVthunkName thunk b) : a = b := by
  have htoList := congrArg String.toList h
  simp only [newVthunkName, String.toList_append, List.append_assoc] at htoList
  exact String.toList_injective (List.append_cancel_right (List.append_cancel_left htoList))

theorem Parted.layoutClass_eq (hparted : Parted cha) (h : Accepted cha) {root : String}
    {x : Vtbl} (hx : InCloud cha root x) {thunk : String} (hfound : (thunk, x) ∈ foundThunks cha) :
    cha.getLayoutClassName x = root :=
  h.unique (hparted.layoutClass _ hfound) hx

/-- All holders of a thunk in a cloud share the copy made from the first one. -/
theorem firstHolder_spec (h : Accepted cha) (hparted : Parted cha) {functions : Functions}
    (hmodule : ThunkModule cha functions) {root : String} {x : Vtbl} (hx : InCloud cha root x)
    {thunk : String} (hholds : Holds cha x thunk) :
    (foundThunks cha).find? (copyName cha · == newVthunkName thunk root) =
        some (thunk, firstHolder cha root thunk) ∧
      InCloud cha root (firstHolder cha root thunk) ∧
      Holds cha (firstHolder cha root thunk) thunk := by
  have hfound := hholds.found h hx
  have hname : copyName cha (thunk, x) = newVthunkName thunk root :=
    congrArg (newVthunkName thunk) (hparted.layoutClass_eq h hx hfound)
  cases hfind : (foundThunks cha).find? (copyName cha · == newVthunkName thunk root) with
  | none =>
    have hnone := List.find?_eq_none.mp hfind _ hfound
    exact absurd (beq_iff_eq.mpr hname) hnone
  | some first =>
    have hmem := List.mem_of_find?_eq_some hfind
    have hkey := List.find?_some hfind
    have hfirst : copyName cha first = newVthunkName thunk root := beq_iff_eq.mp hkey
    obtain ⟨thunk', p⟩ := first
    obtain rfl : thunk' = thunk := hmodule.distinct _ hmem _ hfound (hfirst.trans hname.symm)
    have hp : firstHolder cha root thunk' = p := by rw [firstHolder, hfind]; rfl
    have hlayout : cha.getLayoutClassName p = root := newVthunkName_inj hfirst
    have hcloud := hparted.layoutClass _ hmem
    rw [hlayout] at hcloud
    rw [hp]
    exact ⟨rfl, hcloud, .of_found hmem⟩

/-- The body of the copy of a thunk for a cloud. -/
theorem lookup_copy (h : Accepted cha) (hfilled : Filled cha) (hparted : Parted cha)
    {functions functions' : Functions} (hmodule : ThunkModule cha functions)
    (hok : functions.createAll cha st = .ok functions') {root : String} {x : Vtbl}
    (hx : InCloud cha root x) {thunk : String} (hholds : Holds cha x thunk) :
    ∃ body, copyBody cha st functions (thunk, firstHolder cha root thunk) = .ok body ∧
      functions'.lookup (newVthunkName thunk root) = some body := by
  obtain ⟨hfind, -, -⟩ := firstHolder_spec h hparted hmodule hx hholds
  rw [createAll_eq hfilled hmodule] at hok
  have hfresh : functions.lookup (newVthunkName thunk root) = none := by
    have hkey := List.find?_some hfind
    rw [← beq_iff_eq.mp hkey]
    exact hmodule.fresh _ (List.mem_of_find?_eq_some hfind)
  exact (firstWritten_of_foldlM hok).written hfresh hfind

/-- All copies are made if each one can be made from its first holder. -/
theorem createAll_ok (h : Accepted cha) (hfilled : Filled cha) (hparted : Parted cha)
    {functions : Functions} (hmodule : ThunkModule cha functions)
    (hbody : ∀ root x thunk, InCloud cha root x → Holds cha x thunk →
      ∃ body, copyBody cha st functions (thunk, firstHolder cha root thunk) = .ok body) :
    ∃ functions', functions.createAll cha st = .ok functions' := by
  rw [createAll_eq hfilled hmodule]
  apply foldlM_insertFirst_ok
  intro name found _ hfind
  have hmem := List.mem_of_find?_eq_some hfind
  have hkey := List.find?_some hfind
  have hname : copyName cha found = name := beq_iff_eq.mp hkey
  have hcloud := hparted.layoutClass found hmem
  have hholds := Holds.of_found hmem
  obtain ⟨hfirst, -, -⟩ := firstHolder_spec h hparted hmodule hcloud hholds
  have heq : newVthunkName found.1 (cha.getLayoutClassName found.2) = name := hname
  rw [heq, hfind] at hfirst
  rw [Option.some.inj hfirst]
  exact hbody _ _ _ hcloud hholds

end Found

section Shared

/-- At run time a copy reads, from the address point of `x`, the new place of slot `r`. -/
def ReadsSlot (cha : SDBuildCHA) (st : SDLayoutBuilder) (root : String) (x : Vtbl) (r value : Int) :
    Prop :=
  ∃ start j : Nat, st.newVTableStartAddrMap x = some (newVtableName root, start) ∧
    start + value = j * wordWidth ∧ (st.interleavingMap root)[j]? = some (x, cha.addrPt x + r)

/-- Every thunk looks up one vcall offset, and its holders in a cloud are one sub-vtable that
has this slot and sub-vtables reachable from it. -/
structure Assigned (cha : SDBuildCHA) (functions : Functions) (slotOf : String → Int) : Prop where
  body : ∀ {root x thunk}, InCloud cha root x → Holds cha x thunk →
    functions.lookup thunk = some [⟨.receiver, slotOf thunk * wordWidth, none⟩]
  top : ∀ {root x thunk}, InCloud cha root x → Holds cha x thunk → ∃ p, InCloud cha root p ∧
    Holds cha p thunk ∧ slot cha p (slotOf thunk) ∧
      ∀ y, InCloud cha root y → Holds cha y thunk → Reaches cha.children p y

variable {cha : SDBuildCHA}

theorem oldIndex_mul (source : Source) (r : Int) (value : Option Int) :
    VcallIndex.oldIndex ⟨source, r * wordWidth, value⟩ = r :=
  Int.mul_tdiv_cancel r (by decide)

theorem Assigned.slot (h : WellFormed cha) (hparted : Parted cha) {functions : Functions}
    {slotOf : String → Int} (hassigned : Assigned cha functions slotOf) {root : String} {x : Vtbl}
    (hx : InCloud cha root x) {thunk : String} (hholds : Holds cha x thunk) :
    slot cha x (slotOf thunk) := by
  obtain ⟨p, hp, -, hslot, hreach⟩ := hassigned.top hx hholds
  obtain ⟨-, hlo, hhi⟩ := slot_iff.mp hslot
  exact h.slot_of_reaches hp (hreach x hx hholds) (hholds.isDefined hparted hx) hlo hhi

theorem representative_of_isDefined {v : Vtbl} (hdef : cha.isDefined v) :
    representative cha v = v :=
  if_neg (SDBuildCHA.isDefined_iff.mp hdef)

/-- The lookup of the copy is translated for the first holder of the thunk. -/
theorem Assigned.copyBody_eq (h : WellFormed cha) (hparted : Parted cha) {functions : Functions}
    (hmodule : ThunkModule cha functions) {slotOf : String → Int}
    (hassigned : Assigned cha functions slotOf) {st : SDLayoutBuilder} (hst : Indexed cha st)
    {root : String} {x : Vtbl} (hx : InCloud cha root x) {thunk : String}
    (hholds : Holds cha x thunk) :
    copyBody cha st functions (thunk, firstHolder cha root thunk) =
      .ok [⟨.receiver, slotOf thunk * wordWidth,
        some ((newIndex cha root (firstHolder cha root thunk) (slotOf thunk) -
          newIndex cha root (firstHolder cha root thunk) 0) * wordWidth)⟩] := by
  obtain ⟨-, hp, hfirst⟩ := firstHolder_spec h.toAccepted hparted hmodule hx hholds
  generalize firstHolder cha root thunk = p at hp hfirst ⊢
  have hself := representative_of_isDefined (hfirst.isDefined hparted hp)
  have htranslate := h.translateVtblInd_eq (p := p) (hself.symm ▸ hp) hst
    (hself.symm ▸ hassigned.slot h hparted hp hfirst)
  rw [hself] at htranslate
  simp only [copyBody, hassigned.body hx hholds, List.mapM_cons, List.mapM_nil, replaceIndex,
    oldIndex_mul, htranslate]
  rfl

theorem readsSlot_iff (h : WellFormed cha) {st : SDLayoutBuilder}
    (hst : Emitted cha cha.roots st) {root : String} {p x : Vtbl} (hp : InCloud cha root p)
    (hx : InCloud cha root x) {r : Int} (hslot : slot cha x r) :
    ReadsSlot cha st root x r
        ((newIndex cha root p r - newIndex cha root p 0) * wordWidth) ↔
      SlotKept cha root p x r := by
  have hdef := (slot_iff.mp hslot).1
  have hstart := hst.newVTableStartAddrMap root hx.1 x hx.2 hdef
  rw [← h.newIndex_eq_iff hp hx hslot, ReadsSlot, hst.indexed.interleavingMap root hx.1]
  constructor
  · rintro ⟨start, j, hsome, hj, hget⟩
    have heq := Option.some.inj (hstart.symm.trans hsome)
    obtain rfl : newIndex cha root x 0 * wordWidth = start := congrArg Prod.snd heq
    rw [(cloudInterleaving_getElem?_iff hx hslot j).mp hget] at hj
    apply Int.eq_of_mul_eq_mul_right (a := wordWidth) (by decide)
    rw [← hj]
    push_cast
    ring
  · intro heq
    refine ⟨newIndex cha root x 0 * wordWidth, newIndex cha root x r, hstart, ?_,
      (cloudInterleaving_getElem?_iff hx hslot _).mpr rfl⟩
    rw [← heq]
    push_cast
    ring

end Shared

section Example

/-- `C` and `D` have a second slot before their address point, which `E` lacks. -/
def thunkClasses : List Nmd :=
  [onePart "_ZTV1A" 1 [("", 0)], onePart "_ZTV1B" 1 [("_ZTV1A", 0)],
    ⟨"_ZTV1C", [⟨0, 0, 3, 2, [("_ZTV1A", 0)], []⟩]⟩,
    ⟨"_ZTV1D", [⟨0, 0, 3, 2, [("_ZTV1B", 0), ("_ZTV1C", 0)], []⟩]⟩,
    onePart "_ZTV1E" 1 [("_ZTV1B", 0)]]

/-- The thunk of `C` is inherited by `D`, and that of `E` adjusts a returned pointer. -/
def thunkVTables (name : String) : Option (List Constant) :=
  [("_ZTV1A", [.null, .bitCast "_ZN1A1fEv"]), ("_ZTV1B", [.null, .bitCast "_ZN1A1fEv"]),
    ("_ZTV1C", [.null, .null, .bitCast "_ZN1A1fEv", .bitCast "_ZTv0_n16_N1C1gEv"]),
    ("_ZTV1D", [.null, .null, .bitCast "_ZN1A1fEv", .bitCast "_ZTv0_n16_N1C1gEv"]),
    ("_ZTV1E", [.null, .bitCast "_ZTch0_v0_n16_N1E1fEv"])].lookup name

def thunkFunctions : Functions :=
  [("_ZN1A1fEv", []), ("_ZTv0_n16_N1C1gEv", [⟨.receiver, -16, none⟩]),
    ("_ZTch0_v0_n16_N1E1fEv", [⟨.returned "_ZTV1C", -16, none⟩])]

theorem thunk_wellFormed {cha : SDBuildCHA} (h : buildClouds thunkVTables thunkClasses = .ok cha) :
    WellFormed cha ∧ Filled cha ∧ Parted cha ∧ ThunkModule cha thunkFunctions := by
  have hok := eq_ok_of_isOk (x := buildClouds thunkVTables thunkClasses) .empty (by decide)
  obtain rfl := Except.ok.inj (hok.symm.trans h)
  refine ⟨wellFormed_of_nodes (by decide) (by decide) (buildClouds_ancestorMap h) (by decide)
    (by decide), filled_of_nodes (by decide) (by decide), ⟨?_, ?_⟩, by decide, by decide,
    by decide⟩
  · intro root v _ _
    have hnone : ((buildClouds thunkVTables thunkClasses).toOption.getD .empty).undefinedVTables =
      [] := by decide
    simp [SDBuildCHA.isDefined, SDBuildCHA.isUndefined, hnone]
  · unfold InCloud
    decide

theorem thunk_assigned {cha : SDBuildCHA} (h : buildClouds thunkVTables thunkClasses = .ok cha) :
    Assigned cha thunkFunctions fun _ => -2 := by
  obtain ⟨hwell, -, -, -⟩ := thunk_wellFormed h
  have hok := eq_ok_of_isOk (x := buildClouds thunkVTables thunkClasses) .empty (by decide)
  obtain rfl := Except.ok.inj (hok.symm.trans h)
  have hall : ∀ found ∈ foundThunks ((buildClouds thunkVTables thunkClasses).toOption.getD .empty),
      found.1 = "_ZTv0_n16_N1C1gEv" ∧ found.2 ∈ SDBuildCHA.preorder
        ((buildClouds thunkVTables thunkClasses).toOption.getD .empty) ("_ZTV1C", 0) := by decide
  have hroots : ∀ root ∈ ((buildClouds thunkVTables thunkClasses).toOption.getD .empty).roots,
      ("_ZTV1C", 0) ∈ SDBuildCHA.preorder
        ((buildClouds thunkVTables thunkClasses).toOption.getD .empty) (root, 0) := by decide
  constructor
  · intro root x thunk hx hholds
    obtain rfl := (hall _ (hholds.found hwell.toAccepted hx)).1
    rfl
  · intro root x thunk hx hholds
    obtain rfl := (hall _ (hholds.found hwell.toAccepted hx)).1
    refine ⟨("_ZTV1C", 0), ⟨hx.1, hroots root hx.1⟩,
      .of_found (by decide), by decide, ?_⟩
    intro y hy hyholds
    exact (SDBuildCHA.mem_preorder_iff _ _ _).mp (hall _ (hyholds.found hwell.toAccepted hy)).2

end Example

/-- One copy of a thunk serves a sub-vtable that holds it exactly when every vtable placed
between that and the first holder has the slot that the thunk looks up. -/
theorem copy_serves_iff {cha : SDBuildCHA} (h : WellFormed cha) (hfilled : Filled cha)
    (hparted : Parted cha) {functions : Functions} (hmodule : ThunkModule cha functions)
    {slotOf : String → Int} (hassigned : Assigned cha functions slotOf) :
    ∃ laidOut functions' st, layoutClouds cha true (functions.map Prod.fst) = .ok laidOut ∧
      functions.createAll cha laidOut = .ok functions' ∧
      buildNewLayouts cha true (functions.map Prod.fst) = .ok st ∧
      ∀ root x thunk, InCloud cha root x → Holds cha x thunk → ∃ value,
        functions'.lookup (newVthunkName thunk root) =
          some [⟨.receiver, slotOf thunk * wordWidth, some value⟩] ∧
        (ReadsSlot cha st root x (slotOf thunk) value ↔
          SlotKept cha root (firstHolder cha root thunk) x (slotOf thunk)) := by
  obtain ⟨laidOut, hlaid, hlaidOut⟩ := laidOut_roots h (functions.map Prod.fst)
  obtain ⟨st, hok, hst⟩ := buildNewLayouts_ok h hfilled (functions.map Prod.fst)
  have hst₁ := hlaidOut.emitted.indexed
  obtain ⟨functions', hcreate⟩ := createAll_ok h.toAccepted hfilled hparted hmodule
    fun root x thunk hx hholds => ⟨_, hassigned.copyBody_eq h hparted hmodule hst₁ hx hholds⟩
  refine ⟨laidOut, functions', st, hlaid, hcreate, hok, ?_⟩
  intro root x thunk hx hholds
  obtain ⟨body, hcopy, hlookup⟩ := lookup_copy h.toAccepted hfilled hparted hmodule hcreate hx
    hholds
  have hbody := hassigned.copyBody_eq h hparted hmodule hst₁ hx hholds
  obtain rfl := Except.ok.inj (hbody.symm.trans hcopy)
  obtain ⟨-, hp, -⟩ := firstHolder_spec h.toAccepted hparted hmodule hx hholds
  exact ⟨_, hlookup, readsSlot_iff h hst.emitted hp hx (hassigned.slot h hparted hx hholds)⟩

theorem copy_serves_iff_shared : ∃ cha, buildClouds thunkVTables thunkClasses = .ok cha ∧
    ∃ laidOut functions' st,
      layoutClouds cha true (thunkFunctions.map Prod.fst) = .ok laidOut ∧
      thunkFunctions.createAll cha laidOut = .ok functions' ∧
      buildNewLayouts cha true (thunkFunctions.map Prod.fst) = .ok st ∧
      ∀ root x thunk, InCloud cha root x → Holds cha x thunk → ∃ value,
        functions'.lookup (newVthunkName thunk root) =
          some [⟨.receiver, -2 * wordWidth, some value⟩] ∧
        (ReadsSlot cha st root x (-2) value ↔
          SlotKept cha root (firstHolder cha root thunk) x (-2)) := by
  have hcha := eq_ok_of_isOk (x := buildClouds thunkVTables thunkClasses) .empty (by decide)
  obtain ⟨hwell, hfilled, hparted, hmodule⟩ := thunk_wellFormed hcha
  exact ⟨_, hcha, copy_serves_iff hwell hfilled hparted hmodule (thunk_assigned hcha)⟩

/-- The copy is made from `D`, and `E`, which lacks the slot, is placed between `D` and `C`. -/
theorem copy_misses_holder : ∃ cha laidOut functions' st value,
    buildClouds thunkVTables thunkClasses = .ok cha ∧ WellFormed cha ∧ Filled cha ∧ Parted cha ∧
      ThunkModule cha thunkFunctions ∧ Assigned cha thunkFunctions (fun _ => -2) ∧
      layoutClouds cha true (thunkFunctions.map Prod.fst) = .ok laidOut ∧
      thunkFunctions.createAll cha laidOut = .ok functions' ∧
      buildNewLayouts cha true (thunkFunctions.map Prod.fst) = .ok st ∧
      functions'.lookup "_SVT_ZTV1A_ZTv0_n16_N1C1gEv" =
        some [⟨.receiver, -2 * wordWidth, some value⟩] ∧
      InCloud cha "_ZTV1A" ("_ZTV1C", 0) ∧ Holds cha ("_ZTV1C", 0) "_ZTv0_n16_N1C1gEv" ∧
      ¬ ReadsSlot cha st "_ZTV1A" ("_ZTV1C", 0) (-2) value := by
  have hcha := eq_ok_of_isOk (x := buildClouds thunkVTables thunkClasses) .empty (by decide)
  obtain ⟨hwell, hfilled, hparted, hmodule⟩ := thunk_wellFormed hcha
  obtain ⟨st, hok, hst⟩ := buildNewLayouts_ok hwell hfilled (thunkFunctions.map Prod.fst)
  refine ⟨_, _, _, st, -72, hcha, hwell, hfilled, hparted, hmodule, thunk_assigned hcha, rfl, rfl,
    hok, rfl, ⟨by decide, by decide⟩,
    .of_found (by decide), ?_⟩
  have hslot : slot ((buildClouds thunkVTables thunkClasses).toOption.getD .empty)
      ("_ZTV1C", 0) (-2) := by decide
  intro hreads
  have hkept := (readsSlot_iff hwell hst.emitted (p := ("_ZTV1D", 0)) ⟨by decide, by decide⟩
    ⟨by decide, by decide⟩ hslot).mp hreads
  exact absurd (hkept ("_ZTV1E", 0) (by decide) (by decide) (by decide) (by decide)) (by decide)

end RhoFEM.Layout
