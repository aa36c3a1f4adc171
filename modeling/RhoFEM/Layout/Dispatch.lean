import RhoFEM.Layout.Ranges

/-! What a call through a static type reads in the new vtable of the dynamic type. -/

namespace RhoFEM.Layout

open RhoFEM.CHA RhoFEM.Lib.Fold RhoFEM.Lib.Rounds RhoFEM.Lib.Search

/-- The element of a new vtable some words from an address. -/
def newElement (st : SDLayoutBuilder) (start : Address) (ind : Int) : Option Constant :=
  (st.cloudStartMap start.1).bind fun elems =>
    if 0 ≤ (start.2 / wordWidth : Nat) + ind then elems[((start.2 / wordWidth : Nat) + ind).toNat]?
    else none

section Dispatch

variable (cha : SDBuildCHA) (functions : List String)

/-- The element at the index of slot `r` of the static type `p`, from the address point of `x`. -/
def dispatchElem (p x : Vtbl) (r : Int) : Except Failure (Option Constant) := do
  let st ← buildNewLayouts cha true functions
  let ind ← translateVtblInd cha st p r true
  return (st.newVTableStartAddrMap x).bind fun start => newElement st start ind

/-- The call reads the element of slot `r` of the old vtable of `x`, up to its renaming. -/
def SlotPreserved (p x : Vtbl) (r : Int) : Prop :=
  ∃ elem, oldElem cha (x, cha.addrPt x + r) = some elem ∧
    dispatchElem cha functions p x r = .ok (some (renamed cha x elem))

/-- Every defined sub-vtable placed between two others has slot `r`. -/
def SlotKept (root : String) (p x : Vtbl) (r : Int) : Prop :=
  ∀ m ∈ cha.preorder (root, 0), cha.isDefined m →
    min (indMap (cha.preorder (root, 0)) p) (indMap (cha.preorder (root, 0)) x) ≤
      indMap (cha.preorder (root, 0)) m →
    indMap (cha.preorder (root, 0)) m <
      max (indMap (cha.preorder (root, 0)) p) (indMap (cha.preorder (root, 0)) x) →
    slot cha m r

variable {cha}

theorem representative_spec {root : String} {p x : Vtbl} (hp : InCloud cha root p)
    (hx : Reaches cha.children p x) (hdef : cha.isDefined x) :
    InCloud cha root (representative cha p) ∧ Reaches cha.children p (representative cha p) ∧
      cha.isDefined (representative cha p) := by
  have hmem : ∀ v, Reaches cha.children p v → InCloud cha root v := fun v => hp.reaches
  rw [representative]
  by_cases hundef : cha.isUndefined p
  · have hne : x ≠ p := fun heq => by simp [SDBuildCHA.isDefined, heq, hundef] at hdef
    have hsome : (cha.firstDefinedChild p).isSome := by
      rw [SDBuildCHA.firstDefinedChild, List.find?_isSome]
      exact ⟨x, (cha.mem_preorder_iff p x).mpr hx, by simp [hne, hdef]⟩
    obtain ⟨c, hc⟩ := Option.isSome_iff_exists.mp hsome
    have hreach := (cha.mem_preorder_iff p c).mp (List.mem_of_find?_eq_some hc)
    have hdefc : c ≠ p ∧ cha.isDefined c := by simpa using List.find?_some hc
    rw [if_pos hundef, hc, Option.getD_some]
    exact ⟨hmem c hreach, hreach, hdefc.2⟩
  · rw [if_neg hundef]
    exact ⟨hp, .refl, SDBuildCHA.isDefined_iff.mpr hundef⟩

/-- The distance of slot `r` is the same for two sub-vtables exactly when all between have it. -/
theorem newIndex_sub_eq_iff {root : String} {p x : Vtbl} (hp : InCloud cha root p)
    (hx : InCloud cha root x)
    (hzero : ∀ m ∈ cha.preorder (root, 0), (slot cha m 0 ↔ cha.isDefined m)) {r : Int}
    (hr : slot cha x r) :
    (newIndex cha root x 0 : Int) + (newIndex cha root p r - newIndex cha root p 0) =
        newIndex cha root x r ↔ SlotKept cha root p x r := by
  have hbound := lt_bound hx.2
  obtain ⟨-, hlo, hhi⟩ := slot_iff.mp hr
  have hbase : -(bound cha root : Int) + ((0 + bound cha root : Int).toNat : Int) = 0 := by omega
  have hslot : -(bound cha root : Int) + ((r + bound cha root).toNat : Int) = r := by omega
  have hle : ∀ m ∈ cha.preorder (root, 0),
      slot cha m (-(bound cha root : Int) + ((r + bound cha root).toNat : Int)) →
        slot cha m (-(bound cha root : Int) + ((0 + bound cha root : Int).toNat : Int)) := by
    rw [hbase, hslot]
    exact fun m hm hmr => (hzero m hm).mpr (slot_iff.mp hmr).1
  have hsub := position_sub_eq_iff (a := p) (c := x) hle
  rw [hbase, hslot, lacking, lacking, countP_take_eq_iff_between] at hsub
  have hindex : (newIndex cha root x 0 : Int) + (newIndex cha root p r - newIndex cha root p 0) =
      newIndex cha root x r ↔ (newIndex cha root p r : Int) - newIndex cha root p 0 =
        newIndex cha root x r - newIndex cha root x 0 := by omega
  rw [hindex]
  refine hsub.trans ?_
  rw [SlotKept, indMap_eq hp.2, indMap_eq hx.2]
  constructor
  · intro hall m hm hdef hmin hmax
    have hnot := hall _ m hmin hmax (getElem?_indMap hm)
    by_contra hlacks
    apply hnot
    rw [(hzero m hm).mpr hdef, Bool.eq_false_of_not_eq_true hlacks]
    rfl
  · intro hall k m hmin hmax hk hlacks
    have hm := List.mem_of_getElem? hk
    rw [← indMap_of_getElem? (cha.preorder_nodup _) hk] at hmin hmax
    obtain ⟨hmzero, hmr⟩ : slot cha m 0 = true ∧ slot cha m r = false := by simpa using hlacks
    have := hall m hm ((hzero m hm).mp hmzero) hmin hmax
    rw [hmr] at this
    exact absurd this nofun

namespace WellFormed

variable (h : WellFormed cha)
include h

theorem slot_of_reaches {root : String} {p x : Vtbl} (hp : InCloud cha root p)
    (hx : Reaches cha.children p x) (hdef : cha.isDefined x) {r : Int}
    (hlo : (cha.getRange p).1 ≤ cha.addrPt p + r) (hhi : cha.addrPt p + r ≤ (cha.getRange p).2) :
    slot cha x r := by
  have hwithin : ∀ v, InCloud cha root v →
      (cha.getRange v).1 ≤ cha.addrPt v ∧ cha.addrPt v ≤ (cha.getRange v).2 :=
    fun v hv => ⟨h.start_le hv, h.le_stop hv⟩
  exact slot_of_extends (h.extends_of_reaches hp hx) (hwithin p hp) (hwithin x (hp.reaches hx)) hdef
    hlo hhi

/-- The list of new indices of a sub-vtable, read at a slot. -/
theorem positions_slot {root : String} {v : Vtbl} (hv : InCloud cha root v) {r : Int}
    (hslot : slot cha v r) :
    (positions (fun e => e.1 = v) (cloudInterleaving cha root))[
      ((cha.addrPt v : Int) - (cha.getRange v).1 + r).toNat]? = some (newIndex cha root v r) := by
  obtain ⟨hdef, hlo, hhi⟩ := slot_iff.mp hslot
  have hstart := h.start_le hv
  rw [newIndex_getElem? hv hdef (by omega)]
  congr 2
  omega

theorem translateVtblInd_eq {root : String} {p : Vtbl}
    (hv : InCloud cha root (representative cha p))
    {st : SDLayoutBuilder} (hst : Indexed cha st) {r : Int}
    (hslot : slot cha (representative cha p) r) :
    translateVtblInd cha st p r true = .ok ((newIndex cha root (representative cha p) r : Int) -
      newIndex cha root (representative cha p) 0) := by
  unfold translateVtblInd
  generalize representative cha p = v at hv hslot ⊢
  obtain ⟨hdef, hlo, hhi⟩ := slot_iff.mp hslot
  have hstart := h.start_le hv
  have hbase : slot cha v 0 := (h.slot_zero_iff hv).mpr hdef
  have hfull := h.positions_slot hv hslot
  have haddr := h.positions_slot hv hbase
  rw [add_zero] at haddr
  rw [← hst.newLayoutInds hv] at hfull haddr
  have hne : st.newLayoutInds v ≠ [] := fun hnil => by simp [hnil] at hfull
  dsimp only
  rw [if_neg hne, if_pos rfl, if_pos ⟨by omega, by omega⟩]
  simp only [hfull, haddr]

theorem dispatchElem_eq (hfilled : Filled cha) {root : String} {p x : Vtbl}
    (hp : InCloud cha root p) (hx : Reaches cha.children p x) (hdef : cha.isDefined x) {r : Int}
    (hslot : slot cha (representative cha p) r) :
    dispatchElem cha functions p x r = .ok
      (if 0 ≤ (newIndex cha root x 0 : Int) + (newIndex cha root (representative cha p) r -
          newIndex cha root (representative cha p) 0) then
        ((cloudInterleaving cha root)[((newIndex cha root x 0 : Int) +
          (newIndex cha root (representative cha p) r -
            newIndex cha root (representative cha p) 0)).toNat]?).map (newElem cha)
      else none) := by
  obtain ⟨st, hok, hst⟩ := buildNewLayouts_ok h hfilled functions
  obtain ⟨hv, -, -⟩ := representative_spec hp hx hdef
  have hcloud := hp.reaches hx
  have hword : newIndex cha root x 0 * wordWidth / wordWidth = newIndex cha root x 0 :=
    Nat.mul_div_cancel _ (by decide)
  rw [dispatchElem, bind_eq_ok]
  refine ⟨st, hok, ?_⟩
  rw [bind_eq_ok]
  refine ⟨_, h.translateVtblInd_eq hv hst.emitted.indexed hslot, congrArg Except.ok ?_⟩
  rw [hst.emitted.newVTableStartAddrMap root hp.1 x hcloud.2 hdef, Option.bind_some, newElement,
    startAddr]
  dsimp only
  rw [hst.emitted.cloudStartMap root hp.1, Option.bind_some, hword, List.getElem?_map]

theorem newIndex_eq_iff {root : String} {p x : Vtbl} (hp : InCloud cha root p)
    (hx : InCloud cha root x) {r : Int} (hr : slot cha x r) :
    (newIndex cha root x 0 : Int) + (newIndex cha root p r - newIndex cha root p 0) =
        newIndex cha root x r ↔ SlotKept cha root p x r :=
  newIndex_sub_eq_iff hp hx (fun _ hm => h.slot_zero_iff ⟨hp.1, hm⟩) hr

/-- Where all between have the slot, the call reads the element of the dynamic type. -/
theorem slotPreserved_of_kept (hfilled : Filled cha) {root : String} {p x : Vtbl}
    (hp : InCloud cha root p) (hx : Reaches cha.children p x) (hdef : cha.isDefined x) {r : Int}
    (hlo : (cha.getRange p).1 ≤ cha.addrPt p + r) (hhi : cha.addrPt p + r ≤ (cha.getRange p).2)
    (hkept : SlotKept cha root (representative cha p) x r) :
    SlotPreserved cha functions p x r := by
  obtain ⟨hv, hreach, hdefv⟩ := representative_spec hp hx hdef
  have hcloud := hp.reaches hx
  have hslotx := h.slot_of_reaches hp hx hdef hlo hhi
  have hslotv := h.slot_of_reaches hp hreach hdefv hlo hhi
  have hindex := (h.newIndex_eq_iff hv hcloud hslotx).mpr hkept
  have hget := (cloudInterleaving_getElem?_iff hcloud hslotx _).mpr rfl
  have hmem := List.mem_of_getElem? hget
  obtain ⟨elem, helem⟩ := Option.isSome_iff_exists.mp (oldElem_isSome hfilled hmem hp.1)
  refine ⟨elem, helem, ?_⟩
  rw [h.dispatchElem_eq functions hfilled hp hx hdef hslotv, hindex, if_pos (Int.natCast_nonneg _),
    Int.toNat_natCast, hget, Option.map_some, newElem, helem, Option.getD_some]

theorem withOldVTables (oldVTables : String → Option (List Constant)) :
    WellFormed { cha with oldVTables := oldVTables } where
  acyclic := h.acyclic
  roots_nodup := h.roots_nodup
  unique := h.unique
  ancestorMap := h.ancestorMap
  ne_dummy := h.ne_dummy
  disjoint := h.disjoint
  hasRange := h.hasRange
  hasAddrPt := h.hasAddrPt
  start_le := h.start_le
  le_stop := h.le_stop
  extends_left := h.extends_left
  extends_right := h.extends_right

end WellFormed

section Marked

variable (cha) (x : Vtbl) (r : Int)

/-- Old vtables in which one element differs from all others. -/
def markedVTables (name : String) : Option (List Constant) :=
  if cha.undefinedVTables.contains name then none
  else some ((List.range (((cha.rangeMap name).map Prod.snd).sum + 1)).map fun i : Nat =>
    .other (if name = x.1 ∧ (i : Int) = cha.addrPt x + r then 1 else 0))

abbrev marked : SDBuildCHA := { cha with oldVTables := markedVTables cha x r }

variable {cha}

theorem oldElem_marked {e : Interleaving} {c : Constant}
    (he : oldElem (marked cha x r) e = some c) :
    c = .other (if e.1.1 = x.1 ∧ (e.2.toNat : Int) = cha.addrPt x + r then 1 else 0) := by
  obtain ⟨vtable, hvtable, hget⟩ := Option.bind_eq_some_iff.mp he
  change markedVTables cha x r e.1.1 = some vtable at hvtable
  rw [markedVTables] at hvtable
  split at hvtable
  · exact absurd hvtable nofun
  · obtain rfl := Option.some.inj hvtable
    rw [List.getElem?_map, Option.map_eq_some_iff] at hget
    obtain ⟨i, hi, rfl⟩ := hget
    obtain ⟨hlt, hindex⟩ := List.getElem?_eq_some_iff.mp hi
    rw [List.getElem_range] at hindex
    rw [hindex]

theorem filled_marked (h : WellFormed cha) : Filled (marked cha x r) where
  oldVTable {root v} hv hdef := by
    have hname : cha.undefinedVTables.contains v.1 = false := by
      simpa [SDBuildCHA.isDefined, SDBuildCHA.isUndefined] using hdef
    refine ⟨_, if_neg (by rw [hname]; exact Bool.false_ne_true), ?_⟩
    rw [List.length_map, List.length_range]
    apply Nat.lt_succ_of_le
    apply List.le_sum_of_mem
    exact List.mem_map_of_mem (List.mem_of_getElem? (h.getRange_eq hv))
  thunks {root v vtable} _ hvtable elem helem hthunk := by
    have hold : oldElem (marked cha x r) (v, elem.2) = some elem.1 :=
      Option.bind_eq_some_iff.mpr ⟨vtable, hvtable, List.mem_zipIdx_iff_getElem?.mp helem⟩
    rw [oldElem_marked x r hold] at hthunk
    exact absurd hthunk Bool.false_ne_true

/-- Only the marked element can stand for itself. -/
theorem eq_of_newElem_marked (h : WellFormed cha) {root : String} (hx : InCloud cha root x)
    (hslot : slot cha x r) {e : Interleaving} (he : e ∈ cloudInterleaving cha root) {c : Constant}
    (hold : oldElem (marked cha x r) (x, cha.addrPt x + r) = some c)
    (hnew : newElem (marked cha x r) e = renamed (marked cha x r) x c) :
    e = (x, cha.addrPt x + r) := by
  obtain ⟨hmem, q, hq, hpos⟩ := mem_cloudInterleaving he
  obtain ⟨hdef, hlo, hhi⟩ := slot_iff.mp hq
  obtain ⟨-, hlox, hhix⟩ := slot_iff.mp hslot
  have hcloud : InCloud cha root e.1 := ⟨hx.1, hmem⟩
  obtain ⟨d, hd⟩ := Option.isSome_iff_exists.mp
    (oldElem_isSome (filled_marked x r h) he hx.1)
  have hone : c = .other 1 := by
    rw [oldElem_marked x r hold, if_pos ⟨rfl, by dsimp only; omega⟩]
  rw [newElem, hd, Option.getD_some, oldElem_marked x r hd, hone] at hnew
  have hmark : e.1.1 = x.1 ∧ (e.2.toNat : Int) = cha.addrPt x + r := by
    by_contra hother
    rw [if_neg hother] at hnew
    exact absurd hnew (by simp [renamed, getVthunkFunction])
  have hordere := h.getVTableOrder_eq hcloud (i := e.2.toNat) (by omega) (by omega)
  have horderx := h.getVTableOrder_eq hx (i := e.2.toNat) (by omega) (by omega)
  rw [hmark.1, horderx] at hordere
  have hfst : e.1 = x := Prod.ext hmark.1 (Option.some.inj hordere).symm
  exact Prod.ext hfst (by omega)

end Marked

/-- For the old vtables of any contents, a call through the static type `p` reads the slot of
the dynamic type `x` exactly when every vtable placed between the two has that slot. -/
theorem dispatch_preserved_iff (h : WellFormed cha) {root : String} {p x : Vtbl}
    (hp : InCloud cha root p) (hx : Reaches cha.children p x) (hdef : cha.isDefined x) {r : Int}
    (hlo : (cha.getRange p).1 ≤ cha.addrPt p + r) (hhi : cha.addrPt p + r ≤ (cha.getRange p).2) :
    (∀ oldVTables, Filled { cha with oldVTables := oldVTables } →
      SlotPreserved { cha with oldVTables := oldVTables } functions p x r) ↔
      SlotKept cha root (representative cha p) x r := by
  constructor
  · intro hall
    obtain ⟨hv, hreach, hdefv⟩ := representative_spec hp hx hdef
    have hcloud := hp.reaches hx
    have hslotx := h.slot_of_reaches hp hx hdef hlo hhi
    have hslotv := h.slot_of_reaches hp hreach hdefv hlo hhi
    have hfilled := filled_marked x r h
    obtain ⟨c, hold, hdispatch⟩ := hall (markedVTables cha x r) hfilled
    rw [(h.withOldVTables _).dispatchElem_eq functions hfilled hp hx hdef hslotv] at hdispatch
    have hsome := Except.ok.inj hdispatch
    split at hsome
    · rename_i hpos
      obtain ⟨e, hget, hnew⟩ := Option.map_eq_some_iff.mp hsome
      obtain rfl := eq_of_newElem_marked x r h hcloud hslotx (List.mem_of_getElem? hget) hold hnew
      have hindex := (cloudInterleaving_getElem?_iff hcloud hslotx _).mp hget
      rw [← h.newIndex_eq_iff hv hcloud hslotx]
      exact (Int.toNat_of_nonneg hpos).symm.trans (congrArg Int.ofNat hindex)
    · exact absurd hsome nofun
  · intro hkept oldVTables hfilled
    exact (h.withOldVTables oldVTables).slotPreserved_of_kept functions hfilled hp hx hdef hlo hhi
      hkept

end Dispatch

theorem dispatch_preserved_iff_undefined : ∃ cha,
    buildClouds diamondVTables diamondClasses = .ok cha ∧
      ∀ oldVTables, Filled { cha with oldVTables := oldVTables } →
        SlotPreserved { cha with oldVTables := oldVTables } [] ("_ZTV1B", 0) ("_ZTV1E", 0) 0 := by
  have hcha := eq_ok_of_isOk (x := buildClouds diamondVTables diamondClasses) .empty (by decide)
  have hroot : "_ZTV1A" ∈
      ((buildClouds diamondVTables diamondClasses).toOption.getD .empty).roots := by decide
  refine ⟨_, hcha, (dispatch_preserved_iff [] (diamond_wellFormed hcha).1 ⟨hroot, by decide⟩
    (.single (by decide)) (by decide) (by decide) (by decide)).mpr ?_⟩
  unfold SlotKept
  decide

/-- Slot 1 of `C` is placed after the slots of `E`, which has none, so that a call on `D`,
placed before `E`, reads slot 0 of `C`. -/
theorem dispatch_misses_slot : ∃ cha,
    buildClouds diamondVTables diamondClasses = .ok cha ∧ WellFormed cha ∧ Filled cha ∧
      InCloud cha "_ZTV1A" ("_ZTV1C", 0) ∧ ("_ZTV1D", 0) ∈ cha.children ("_ZTV1C", 0) ∧
      cha.isDefined ("_ZTV1D", 0) ∧ (cha.getRange ("_ZTV1C", 0)).1 ≤ cha.addrPt ("_ZTV1C", 0) + 1 ∧
      cha.addrPt ("_ZTV1C", 0) + 1 ≤ (cha.getRange ("_ZTV1C", 0)).2 ∧
      ¬ SlotPreserved cha [] ("_ZTV1C", 0) ("_ZTV1D", 0) 1 := by
  have hcha := eq_ok_of_isOk (x := buildClouds diamondVTables diamondClasses) .empty (by decide)
  obtain ⟨hwell, hfilled⟩ := diamond_wellFormed hcha
  refine ⟨_, hcha, hwell, hfilled, ⟨by decide, by decide⟩, by decide, by decide, by decide,
    by decide, ?_⟩
  intro h
  obtain ⟨elem, hold, hdispatch⟩ := h
  have hread : dispatchElem ((buildClouds diamondVTables diamondClasses).toOption.getD .empty) []
      ("_ZTV1C", 0) ("_ZTV1D", 0) 1 = .ok (some (.bitCast "_ZN1A1fEv")) := by rfl
  have hslot : oldElem ((buildClouds diamondVTables diamondClasses).toOption.getD .empty)
      (("_ZTV1D", 0), 2) = some (.bitCast "_ZTv0_n24_N1D1gEv") := by rfl
  obtain rfl := Option.some.inj (hslot.symm.trans hold)
  have heq := Option.some.inj (Except.ok.inj (hread.symm.trans hdispatch))
  revert heq
  decide

end RhoFEM.Layout
