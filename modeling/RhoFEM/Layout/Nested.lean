import RhoFEM.Layout.Dispatch
import RhoFEM.Layout.Steps
import RhoFEM.Layout.Verify

/-! Interleaved clouds in which children already extend their parents: what the verifier tests
holds of their new vtables. -/

namespace RhoFEM.Layout

open RhoFEM.CHA RhoFEM.Lib.Fold RhoFEM.Lib.Rounds RhoFEM.Lib.Search

/-- Clouds in which every child extends its parents, whether they are defined or not. -/
structure Nested (cha : SDBuildCHA) : Prop where
  regular : Regular cha
  extends_left : ∀ {root v child}, InCloud cha root v → child ∈ cha.children v →
    cha.addrPt v - (cha.getRange v).1 ≤ cha.addrPt child - (cha.getRange child).1
  extends_right : ∀ {root v child}, InCloud cha root v → child ∈ cha.children v →
    (cha.getRange v).2 - cha.addrPt v ≤ (cha.getRange child).2 - cha.addrPt child

/-- The lists and the padding are those of an earlier state. -/
structure SameLists (st st' : SDLayoutBuilder) : Prop where
  interleavingMap : st'.interleavingMap = st.interleavingMap
  prePadMap : st'.prePadMap = st.prePadMap

section Frames

variable {cha : SDBuildCHA} {root : String} {st st' : SDLayoutBuilder}

theorem SameLists.trans {st'' : SDLayoutBuilder} (h : SameLists st st') (h' : SameLists st' st'') :
    SameLists st st'' :=
  ⟨h'.interleavingMap.trans h.interleavingMap, h'.prePadMap.trans h.prePadMap⟩

theorem emitCloud_sameLists (h : emitCloud cha st root = .ok st') : SameLists st st' :=
  emitCloud_rule (fun _ t => SameLists st t) (fun _ _ => ⟨rfl, rfl⟩) (fun _ _ _ _ ht => ht)
    (fun _ _ _ _ _ _ _ ht => ⟨ht.interleavingMap, ht.prePadMap⟩) h

theorem rangeCloud_sameLists (h : rangeCloud cha st root = .ok st') : SameLists st st' :=
  rangeCloud_rule (fun _ t => SameLists st t) (fun _ _ => ⟨rfl, rfl⟩)
    (fun _ _ _ _ _ _ _ ht => ⟨ht.interleavingMap, ht.prePadMap⟩) h

/-- The second and the third loop leave the lists of the first as they are. -/
theorem buildNewLayouts_sameLists {interleave : Bool} {functions : List String}
    (h : buildNewLayouts cha interleave functions = .ok st') :
    ∃ st, cha.roots.foldlM (layoutCloud cha interleave) (.init functions) = .ok st ∧
      SameLists st st' := by
  obtain ⟨st₁, st₂, hlayout, hemit, hrange⟩ := buildNewLayouts_eq_ok.mp h
  have hemitted : SameLists st₁ st₂ := foldlM_ok_rule (fun _ t => SameLists st₁ t)
    (fun _ _ _ _ ht _ hstep => ht.trans (emitCloud_sameLists hstep)) ⟨rfl, rfl⟩ hemit
  have hranged : SameLists st₂ st' := foldlM_ok_rule (fun _ t => SameLists st₂ t)
    (fun _ _ _ _ ht _ hstep => ht.trans (rangeCloud_sameLists hstep)) ⟨rfl, rfl⟩ hrange
  exact ⟨st₁, hlayout, hemitted.trans hranged⟩

end Frames

section Preorder

variable {cha : SDBuildCHA} {root : String}

/-- What stands between a parent and a later child in preorder derives from the parent. -/
theorem reaches_of_between {p c m : Vtbl} (hp : p ∈ cha.preorder (root, 0))
    (hc : c ∈ cha.children p) (hm : m ∈ cha.preorder (root, 0))
    (hcmem : c ∈ cha.preorder (root, 0))
    (hlo : indMap (cha.preorder (root, 0)) p ≤ indMap (cha.preorder (root, 0)) m)
    (hhi : indMap (cha.preorder (root, 0)) m < indMap (cha.preorder (root, 0)) c) :
    Reaches cha.children p m := by
  have hsupport : Supported cha.children ((root, 0) :: cha.vtbls) :=
    fun a b hb => List.mem_cons_of_mem _ (cha.supported a b hb)
  have hremaining : remaining ((root, 0) :: cha.vtbls) [] < cha.vtbls.length + 2 := by
    refine lt_of_le_of_lt ?_ (Nat.lt_succ_self _)
    simpa [remaining] using List.toFinset_card_le ((root, 0) :: cha.vtbls)
  have hblocked := visit_blocked hsupport _ List.nodup_nil (v := (root, 0)) List.mem_cons_self
    hremaining p hp List.not_mem_nil
  rw [indMap_eq hm] at hlo hhi
  rw [indMap_eq hp] at hlo
  rw [indMap_eq hcmem] at hhi
  exact hblocked.reaches_of_between (cha.preorder_nodup _) hc hm hlo hhi

end Preorder

namespace Nested

variable {cha : SDBuildCHA} (h : Nested cha) {root : String}
include h

theorem extends_of_reaches {v w : Vtbl} (hv : InCloud cha root v)
    (hreach : Reaches cha.children v w) :
    cha.addrPt v - (cha.getRange v).1 ≤ cha.addrPt w - (cha.getRange w).1 ∧
      (cha.getRange v).2 - cha.addrPt v ≤ (cha.getRange w).2 - cha.addrPt w :=
  extends_of_edges (fun hv hchild => ⟨h.extends_left hv hchild, h.extends_right hv hchild⟩) hv
    hreach

theorem slot_of_reaches {p x : Vtbl} (hp : InCloud cha root p) (hx : Reaches cha.children p x)
    (hdef : cha.isDefined x) {r : ℤ} (hlo : (cha.getRange p).1 ≤ cha.addrPt p + r)
    (hhi : cha.addrPt p + r ≤ (cha.getRange p).2) : slot cha x r := by
  have hwithin : ∀ v, InCloud cha root v →
      (cha.getRange v).1 ≤ cha.addrPt v ∧ cha.addrPt v ≤ (cha.getRange v).2 :=
    fun v hv => ⟨h.regular.start_le hv, h.regular.le_stop hv⟩
  exact slot_of_extends (h.extends_of_reaches hp hx) (hwithin p hp) (hwithin x (hp.reaches hx)) hdef
    hlo hhi

/-- A slot of a parent is as far from the address point in a child that comes later. -/
theorem newIndex_sub {p c : Vtbl} (hp : InCloud cha root p) (hc : c ∈ cha.children p)
    (hdef : cha.isDefined c)
    (hlt : indMap (cha.preorder (root, 0)) p ≤ indMap (cha.preorder (root, 0)) c) {r : ℤ}
    (hlo : (cha.getRange p).1 ≤ cha.addrPt p + r)
    (hhi : cha.addrPt p + r ≤ (cha.getRange p).2) :
    (newIndex cha root p r : ℤ) - newIndex cha root p 0 =
      newIndex cha root c r - newIndex cha root c 0 := by
  have hcloud := hp.reaches (.single hc)
  have hkept : SlotKept cha root p c r := by
    intro m hm hdefm hmin hmax
    rw [Nat.min_eq_left hlt] at hmin
    rw [Nat.max_eq_right hlt] at hmax
    exact h.slot_of_reaches hp (reaches_of_between hp.2 hc hm hcloud.2 hmin hmax) hdefm hlo hhi
  have heq := (newIndex_sub_eq_iff hp hcloud (fun m hm => h.regular.slot_zero_iff ⟨hp.1, hm⟩)
    (h.slot_of_reaches hp (.single hc) hdef hlo hhi)).mpr hkept
  omega

/-- The first loop interleaves the clouds without padding. -/
theorem layoutClouds_ok (functions : List String) :
    ∃ st, cha.roots.foldlM (layoutCloud cha true) (.init functions) = .ok st ∧
      ∀ root ∈ cha.roots, st.interleavingMap root = cloudInterleaving cha root ∧
        ∀ v ∈ cha.preorder (root, 0), st.prePadMap v = 0 := by
  obtain ⟨st, hok, hst⟩ := laid_roots h.regular.toPointed true functions
  refine ⟨st, hok, ?_⟩
  intro root hroot
  have hpad : cloudPad cha true root = fun _ => 0 :=
    prePad_eq_zero fun v hv child hchild => h.extends_left ⟨hroot, hv⟩ hchild
  constructor
  · rw [hst.interleavingMap root hroot, cloudElems, if_pos rfl, hpad, cloudInterleaving]
  · intro v hv
    rw [hst.prePadMap root hroot v hv, hpad]

theorem mem_cloudInterleaving_iff (hroot : root ∈ cha.roots) {v : Vtbl} {pos : ℤ} :
    (v, pos) ∈ cloudInterleaving cha root ↔ v ∈ cha.preorder (root, 0) ∧ cha.isDefined v ∧
      (cha.getRange v).1 ≤ pos ∧ pos ≤ (cha.getRange v).2 := by
  have hmem : (v, pos) ∈ cloudInterleaving cha root ↔ v ∈ cha.preorder (root, 0) ∧
      cha.isDefined v ∧ (cha.getRange v).1 - ((0 : Nat) : ℤ) ≤ pos ∧ pos ≤ (cha.getRange v).2 :=
    mem_interleaving_iff fun n hn => h.regular.le_stop ⟨hroot, hn⟩
  rwa [Int.natCast_zero, sub_zero] at hmem

section Words

variable (hword : ∀ {root v}, InCloud cha root v → (cha.getRange v).2 + 1 < 2 ^ 64)
  (hroot : root ∈ cha.roots)
include hword hroot

/-- The elements keep their indices when they are stored as words. -/
theorem keys_cloudInterleaving : keys (cloudInterleaving cha root) =
    (cloudInterleaving cha root).map fun e => (e.1, e.2.toNat) := by
  have hall : ∀ e ∈ cloudInterleaving cha root,
      e.1 ≠ dummyVtable ∧ 0 ≤ e.2 ∧ word e.2 = e.2.toNat := by
    intro e he
    obtain ⟨hmem, -, hlo, hhi⟩ := (h.mem_cloudInterleaving_iff hroot).mp he
    have hfits := hword ⟨hroot, hmem⟩
    refine ⟨h.regular.ne_dummy ⟨hroot, hmem⟩, by omega, ?_⟩
    obtain ⟨k, hk⟩ := Int.eq_ofNat_of_zero_le (show 0 ≤ e.2 by omega)
    rw [hk, word_natCast (by omega), Int.toNat_natCast]
  rw [keys, List.filter_eq_self.mpr fun e he => decide_eq_true (hall e he).1]
  exact List.map_congr_left fun e he => by rw [(hall e he).2.2]

theorem nodup_keys : (keys (cloudInterleaving cha root)).Nodup := by
  rw [h.keys_cloudInterleaving hword hroot]
  apply List.Nodup.map_on
  · intro a ha b hb hab
    obtain ⟨-, -, hlo, -⟩ := (h.mem_cloudInterleaving_iff hroot).mp ha
    obtain ⟨-, -, hlo', -⟩ := (h.mem_cloudInterleaving_iff hroot).mp hb
    obtain ⟨hfst, hsnd⟩ := Prod.mk.inj hab
    exact Prod.ext hfst (by omega)
  · rw [cloudInterleaving, interleaving]
    apply (nodup_rounds (cha.preorder_nodup _) _ _).map
    intro a b hab
    obtain ⟨hfst, hsnd⟩ := Prod.mk.inj hab
    rw [hfst] at hsnd
    exact Prod.ext hfst (Int.add_left_cancel hsnd)

theorem mem_oldIndices_iff {n : Vtbl} (hn : n ∈ cha.preorder (root, 0)) (hdef : cha.isDefined n)
    (w : Nat) : w ∈ oldIndices (cloudInterleaving cha root) n ↔
      (cha.getRange n).1 ≤ w ∧ w ≤ (cha.getRange n).2 := by
  have hfits := hword ⟨hroot, hn⟩
  rw [oldIndices, List.mem_map]
  constructor
  · rintro ⟨e, he, rfl⟩
    obtain ⟨hmem, hname⟩ := List.mem_filter.mp he
    obtain rfl := of_decide_eq_true hname
    obtain ⟨-, -, hlo, hhi⟩ := (h.mem_cloudInterleaving_iff hroot).mp hmem
    obtain ⟨k, hk⟩ := Int.eq_ofNat_of_zero_le (show 0 ≤ e.2 by omega)
    rw [hk, word_natCast (by omega)]
    omega
  · rintro ⟨hlo, hhi⟩
    refine ⟨(n, (w : ℤ)), List.mem_filter.mpr ⟨?_, decide_eq_true rfl⟩, word_natCast (by omega)⟩
    exact (h.mem_cloudInterleaving_iff hroot).mpr ⟨hn, hdef, by omega, by omega⟩

/-- The new index of a slot, as the verifier reads it. -/
theorem indexAt_slot {v : Vtbl} (hv : v ∈ cha.preorder (root, 0)) {r : ℤ} (hr : slot cha v r) :
    indexAt (indexMap (cloudInterleaving cha root)) v (cha.addrPt v + r) =
      newIndex cha root v r := by
  apply indexAt_eq (h.nodup_keys hword hroot)
  obtain ⟨-, hlo, hhi⟩ := slot_iff.mp hr
  have hfits := hword ⟨hroot, hv⟩
  rw [h.keys_cloudInterleaving hword hroot, List.getElem?_map,
    (cloudInterleaving_getElem?_iff ⟨hroot, hv⟩ hr _).mpr rfl, Option.map_some]
  obtain ⟨k, hk⟩ := Int.eq_ofNat_of_zero_le (show 0 ≤ cha.addrPt v + r by omega)
  dsimp only
  rw [hk, word_natCast (by omega), Int.toNat_natCast]

theorem checkDense_cloudInterleaving {prePadMap : Vtbl → Nat} {n : Vtbl}
    (hn : n ∈ cha.preorder (root, 0)) (hpad : prePadMap n = 0) :
    checkDense cha prePadMap (indexMap (cloudInterleaving cha root)) n := by
  by_cases hundef : cha.isUndefined n
  · rw [checkDense, hundef, Bool.true_or]
  have hdef : cha.isDefined n := SDBuildCHA.isDefined_iff.mpr hundef
  have hdummy := h.regular.ne_dummy ⟨hroot, hn⟩
  have hfits := hword ⟨hroot, hn⟩
  have hstart := h.regular.start_le ⟨hroot, hn⟩
  have hstop := h.regular.le_stop ⟨hroot, hn⟩
  have hmem := h.mem_oldIndices_iff hword hroot hn hdef
  have hnodup := nodup_oldIndices (h.nodup_keys hword hroot) hdummy
  have hlength : (oldIndices (cloudInterleaving cha root) n).length =
      (cha.getRange n).2 + 1 - (cha.getRange n).1 := by
    have hset : (oldIndices (cloudInterleaving cha root) n).toFinset =
        Finset.Icc (cha.getRange n).1 (cha.getRange n).2 := by
      ext w
      rw [List.mem_toFinset, hmem, Finset.mem_Icc]
    rw [← List.toFinset_card_of_nodup hnodup, hset, Nat.card_Icc]
  have hsize : oldVtblSize cha prePadMap n = (cha.getRange n).2 + 1 - (cha.getRange n).1 := by
    rw [oldVtblSize_eq (hstart.trans hstop) (by rw [hpad]; exact hfits), hpad, Nat.add_zero]
  refine (checkDense_iff hdef hdummy).mpr ⟨(cha.getRange n).1, (cha.getRange n).2, ?_, ?_, ?_, ?_⟩
  · exact List.min?_eq_some_iff.mpr
      ⟨(hmem _).mpr ⟨le_refl _, hstart.trans hstop⟩, fun w hw => ((hmem w).mp hw).1⟩
  · exact List.max?_eq_some_iff.mpr
      ⟨(hmem _).mpr ⟨hstart.trans hstop, le_refl _⟩, fun w hw => ((hmem w).mp hw).2⟩
  · have hcast : ((cha.getRange n).2 : ℤ) - (cha.getRange n).1 + 1 =
        (((cha.getRange n).2 + 1 - (cha.getRange n).1 : Nat) : ℤ) := by omega
    rw [hcast, word_natCast (by omega), hsize]
  · rw [hlength, hsize]

theorem checkContained_of_edge {prePadMap : Vtbl → Nat} {p c : Vtbl}
    (hp : p ∈ cha.preorder (root, 0)) (hc : c ∈ cha.children p) (hpad : prePadMap p = 0)
    (hpad' : prePadMap c = 0) : checkContained cha prePadMap p c := by
  have hcloud : InCloud cha root c := InCloud.reaches ⟨hroot, hp⟩ (.single hc)
  have hleft := h.extends_left ⟨hroot, hp⟩ hc
  have hright := h.extends_right ⟨hroot, hp⟩ hc
  have hbefore : ∀ {v}, InCloud cha root v → prePadMap v = 0 →
      word (cha.addrPt v - (cha.getRange v).1 + prePadMap v) =
        cha.addrPt v - (cha.getRange v).1 := by
    intro v hv hpadv
    have hstart := h.regular.start_le hv
    have hstop := h.regular.le_stop hv
    have hfits := hword hv
    have hcast : (cha.addrPt v : ℤ) - (cha.getRange v).1 + prePadMap v =
        ((cha.addrPt v - (cha.getRange v).1 : Nat) : ℤ) := by omega
    rw [hcast, word_natCast (by omega)]
  have hafter : ∀ {v}, InCloud cha root v → word ((cha.getRange v).2 - cha.addrPt v) =
      (cha.getRange v).2 - cha.addrPt v := by
    intro v hv
    have hstop := h.regular.le_stop hv
    have hfits := hword hv
    have hcast : ((cha.getRange v).2 : ℤ) - cha.addrPt v =
        (((cha.getRange v).2 - cha.addrPt v : Nat) : ℤ) := by omega
    rw [hcast, word_natCast (by omega)]
  simp only [checkContained, hbefore ⟨hroot, hp⟩ hpad, hbefore hcloud hpad', hafter ⟨hroot, hp⟩,
    hafter hcloud, Bool.not_eq_true', Bool.or_eq_false_iff, decide_eq_false_iff_not, not_lt]
  exact ⟨hleft, hright⟩

theorem checkRelative_of_edge {prePadMap : Vtbl → Nat} {p c : Vtbl}
    (hp : p ∈ cha.preorder (root, 0)) (hc : c ∈ cha.children p) (hdefp : cha.isDefined p)
    (hdef : cha.isDefined c) (hpad : prePadMap p = 0)
    (hlt : indMap (cha.preorder (root, 0)) p ≤ indMap (cha.preorder (root, 0)) c) :
    checkRelative cha prePadMap (indexMap (cloudInterleaving cha root)) p c := by
  have hcloud : InCloud cha root p := ⟨hroot, hp⟩
  have hchild : InCloud cha root c := hcloud.reaches (.single hc)
  have hstart := h.regular.start_le hcloud
  have hstop := h.regular.le_stop hcloud
  have hfits := hword hcloud
  have hcount : word ((cha.getRange p).2 - (cha.getRange p).1 + prePadMap p + 1) =
      (cha.getRange p).2 + 1 - (cha.getRange p).1 := by
    have hcast : ((cha.getRange p).2 : ℤ) - (cha.getRange p).1 + prePadMap p + 1 =
        (((cha.getRange p).2 + 1 - (cha.getRange p).1 : Nat) : ℤ) := by omega
    rw [hcast, word_natCast (by omega)]
  rw [checkRelative, hcount, List.all_eq_true]
  intro ind hind
  have hlt' := List.mem_range.mp hind
  -- the slot of the parent at this index
  obtain ⟨r, hr⟩ : ∃ r : ℤ, (cha.getRange p).1 + (ind : ℤ) - prePadMap p = cha.addrPt p + r :=
    ⟨(cha.getRange p).1 + ind - prePadMap p - cha.addrPt p, by omega⟩
  have hlo : ((cha.getRange p).1 : ℤ) ≤ cha.addrPt p + r := by omega
  have hhi : cha.addrPt p + r ≤ ((cha.getRange p).2 : ℤ) := by omega
  have hslotp : slot cha p r := slot_iff.mpr ⟨hdefp, hlo, hhi⟩
  have hslotc : slot cha c r := h.slot_of_reaches hcloud (.single hc) hdef hlo hhi
  have hadj : (cha.addrPt p : ℤ) + r + (cha.addrPt c - cha.addrPt p) = cha.addrPt c + r := by ring
  have hzero : ∀ {v}, InCloud cha root v → cha.isDefined v →
      indexAt (indexMap (cloudInterleaving cha root)) v (cha.addrPt v) =
        newIndex cha root v 0 := by
    intro v hv hdefv
    have hslot := h.indexAt_slot hword hroot hv.2 ((h.regular.slot_zero_iff hv).mpr hdefv)
    rwa [add_zero] at hslot
  rw [decide_eq_true_eq, hr, hadj, h.indexAt_slot hword hroot hp hslotp,
    h.indexAt_slot hword hroot hchild.2 hslotc, hzero hcloud hdefp, hzero hchild hdef,
    h.newIndex_sub hcloud hc hdef hlt hlo hhi]

theorem verified_cloudInterleaving {st : SDLayoutBuilder}
    (hlist : st.interleavingMap root = cloudInterleaving cha root)
    (hpads : ∀ v ∈ cha.preorder (root, 0), st.prePadMap v = 0) : Verified cha true st root := by
  have hedges : ∀ check : Vtbl → Vtbl → Bool,
      (∀ p ∈ cha.preorder (root, 0), ∀ c ∈ cha.children p, cha.isDefined p → cha.isDefined c →
        indMap (cha.preorder (root, 0)) p ≤ indMap (cha.preorder (root, 0)) c → check p c) →
      checkEdges cha (cha.preorder (root, 0)) check := by
    intro check hall
    rw [checkEdges, List.all_eq_true]
    intro p hp
    by_cases hundef : cha.isUndefined p
    · rw [hundef, Bool.true_or]
    rw [Bool.eq_false_of_not_eq_true hundef, Bool.false_or, List.all_eq_true]
    intro c hc
    by_cases hundef' : cha.isUndefined c
    · rw [hundef', Bool.true_or, Bool.true_or]
    rcases Nat.lt_or_ge (indMap (cha.preorder (root, 0)) c) (indMap (cha.preorder (root, 0)) p)
      with hlt | hge
    · rw [decide_eq_true hlt, Bool.or_true, Bool.true_or]
    · rw [hall p hp c hc (SDBuildCHA.isDefined_iff.mpr hundef)
        (SDBuildCHA.isDefined_iff.mpr hundef') hge, Bool.or_true]
  constructor
  · rw [hlist]
    exact h.nodup_keys hword hroot
  · rw [hlist]
    exact fun n hn => h.checkDense_cloudInterleaving hword hroot hn (hpads n hn)
  · refine fun _ => hedges _ fun p hp c hc _ _ _ => ?_
    exact h.checkContained_of_edge hword hroot hp hc (hpads p hp)
      (hpads c (InCloud.reaches ⟨hroot, hp⟩ (.single hc)).2)
  · rw [hlist]
    refine fun _ => hedges _ fun p hp c hc hdefp hdef hle => ?_
    exact h.checkRelative_of_edge hword hroot hp hc hdefp hdef (hpads p hp) hle

end Words

end Nested

/-- After the pass the verifier accepts the interleaved clouds: each old index of a sub-vtable has
one new index, and slots are as far from the address point in later children as in a parent. -/
theorem interleaved_verified {cha : SDBuildCHA} (h : Nested cha)
    (hword : ∀ {root v}, InCloud cha root v → (cha.getRange v).2 + 1 < 2 ^ 64)
    {functions : List String} {st : SDLayoutBuilder}
    (hst : buildNewLayouts cha true functions = .ok st) :
    verifyNewLayouts cha true st = true ∧
    (∀ root n, InCloud cha root n → cha.isDefined n →
      (oldIndices (st.interleavingMap root) n).Nodup ∧
        ∀ j, j ∈ oldIndices (st.interleavingMap root) n ↔
          (cha.getRange n).1 ≤ j ∧ j ≤ (cha.getRange n).2) ∧
    ∀ root p c, InCloud cha root p → c ∈ cha.children p → cha.isDefined p → cha.isDefined c →
      indMap (cha.preorder (root, 0)) p < indMap (cha.preorder (root, 0)) c →
      ∀ r : ℤ, (cha.getRange p).1 ≤ cha.addrPt p + r → cha.addrPt p + r ≤ (cha.getRange p).2 →
        ∃ i₀ i j₀ j : Nat,
          (st.interleavingMap root)[i₀]? = some (p, (cha.addrPt p : ℤ)) ∧
          (st.interleavingMap root)[i]? = some (p, cha.addrPt p + r) ∧
          (st.interleavingMap root)[j₀]? = some (c, (cha.addrPt c : ℤ)) ∧
          (st.interleavingMap root)[j]? = some (c, cha.addrPt c + r) ∧
          (i : ℤ) - i₀ = j - j₀ := by
  obtain ⟨st₁, hlayout, hsame⟩ := buildNewLayouts_sameLists hst
  obtain ⟨st₂, hok, hlists⟩ := h.layoutClouds_ok functions
  obtain rfl := Except.ok.inj (hok.symm.trans hlayout)
  rw [← hsame.interleavingMap, ← hsame.prePadMap] at hlists
  refine ⟨?_, ?_, ?_⟩
  · rw [verifyNewLayouts, verifyRoots_iff, verifiedRoots, if_pos rfl]
    exact fun root hroot => h.verified_cloudInterleaving hword hroot (hlists root hroot).1
      (hlists root hroot).2
  · intro root n hn hdef
    rw [(hlists root hn.1).1]
    exact ⟨nodup_oldIndices (h.nodup_keys hword hn.1) (h.regular.ne_dummy hn),
      h.mem_oldIndices_iff hword hn.1 hn.2 hdef⟩
  · intro root p c hp hc hdefp hdef hlt r hlo hhi
    have hchild := hp.reaches (.single hc)
    have hget : ∀ {v : Vtbl}, InCloud cha root v → ∀ {s : ℤ}, slot cha v s →
        (st.interleavingMap root)[newIndex cha root v s]? = some (v, cha.addrPt v + s) := by
      intro v hv s hs
      rw [(hlists root hp.1).1]
      exact (cloudInterleaving_getElem?_iff hv hs _).mpr rfl
    have hbase : ∀ {v : Vtbl}, InCloud cha root v → cha.isDefined v →
        (st.interleavingMap root)[newIndex cha root v 0]? = some (v, (cha.addrPt v : ℤ)) := by
      intro v hv hdefv
      have hself := hget hv ((h.regular.slot_zero_iff hv).mpr hdefv)
      rwa [add_zero] at hself
    exact ⟨newIndex cha root p 0, newIndex cha root p r, newIndex cha root c 0,
      newIndex cha root c r, hbase hp hdefp, hget hp (slot_iff.mpr ⟨hdefp, hlo, hhi⟩),
      hbase hchild hdef, hget hchild (h.slot_of_reaches hp (.single hc) hdef hlo hhi),
      h.newIndex_sub hp hc hdef hlt.le hlo hhi⟩

theorem diamond_nested {cha : SDBuildCHA}
    (h : buildClouds diamondVTables diamondClasses = .ok cha) :
    Nested cha ∧ ∀ {root v}, InCloud cha root v → (cha.getRange v).2 + 1 < 2 ^ 64 := by
  obtain ⟨hwell, -⟩ := diamond_wellFormed h
  have hok := eq_ok_of_isOk (x := buildClouds diamondVTables diamondClasses) .empty (by decide)
  obtain rfl := Except.ok.inj (hok.symm.trans h)
  have hfits : ∀ root ∈ ((buildClouds diamondVTables diamondClasses).toOption.getD .empty).roots,
      ∀ v ∈ ((buildClouds diamondVTables diamondClasses).toOption.getD .empty).preorder (root, 0),
        (((buildClouds diamondVTables diamondClasses).toOption.getD .empty).getRange v).2 + 1 <
          2 ^ 64 := by decide
  exact ⟨⟨⟨hwell.toPointed, SDBuildCHA.children_nodup _ (by decide)⟩, hwell.extends_left,
    hwell.extends_right⟩, fun hv => hfits _ hv.1 _ hv.2⟩

theorem interleaved_verified_diamond : ∃ cha st,
    buildClouds diamondVTables diamondClasses = .ok cha ∧ buildNewLayouts cha true [] = .ok st ∧
      verifyNewLayouts cha true st = true ∧
      (∀ root n, InCloud cha root n → cha.isDefined n →
        (oldIndices (st.interleavingMap root) n).Nodup ∧
          ∀ j, j ∈ oldIndices (st.interleavingMap root) n ↔
            (cha.getRange n).1 ≤ j ∧ j ≤ (cha.getRange n).2) ∧
      ∀ root p c, InCloud cha root p → c ∈ cha.children p → cha.isDefined p → cha.isDefined c →
        indMap (cha.preorder (root, 0)) p < indMap (cha.preorder (root, 0)) c →
        ∀ r : ℤ, (cha.getRange p).1 ≤ cha.addrPt p + r → cha.addrPt p + r ≤ (cha.getRange p).2 →
          ∃ i₀ i j₀ j : Nat,
            (st.interleavingMap root)[i₀]? = some (p, (cha.addrPt p : ℤ)) ∧
            (st.interleavingMap root)[i]? = some (p, cha.addrPt p + r) ∧
            (st.interleavingMap root)[j₀]? = some (c, (cha.addrPt c : ℤ)) ∧
            (st.interleavingMap root)[j]? = some (c, cha.addrPt c + r) ∧
            (i : ℤ) - i₀ = j - j₀ := by
  have hcha := eq_ok_of_isOk (x := buildClouds diamondVTables diamondClasses) .empty (by decide)
  obtain ⟨hwell, hfilled⟩ := diamond_wellFormed hcha
  obtain ⟨hnested, hword⟩ := diamond_nested hcha
  obtain ⟨st, hst, -⟩ := buildNewLayouts_ok hwell hfilled []
  exact ⟨_, st, hcha, hst, interleaved_verified hnested hword hst⟩

end RhoFEM.Layout
