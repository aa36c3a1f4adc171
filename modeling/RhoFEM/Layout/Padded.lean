import RhoFEM.Layout.Ordered
import RhoFEM.Layout.Padding

/-! The first loop of `buildNewLayouts` in both modes, for clouds whose children may be shorter
than their parents, and what the padding does to the new indices. -/

namespace RhoFEM.Layout

open RhoFEM.CHA RhoFEM.Lib.Fold RhoFEM.Lib.Rounds

/-- Clouds whose nodes moreover have no child twice. -/
structure Regular (cha : SDBuildCHA) : Prop extends Pointed cha where
  children_nodup : ∀ v, (cha.children v).Nodup

section Frame

variable {cha : SDBuildCHA} {nodes : List Vtbl}
  (hclosed : ∀ v ∈ nodes, ∀ child ∈ cha.children v, child ∈ nodes)
include hclosed

theorem prePad_congr {m m' : Vtbl → Nat} (h : ∀ v ∈ nodes, m v = m' v) :
    ∀ v ∈ nodes, prePad cha nodes m v = prePad cha nodes m' v := by
  have hchildren : ∀ parent ∈ nodes, ∀ cs ⊆ nodes, ∀ {m m' : Vtbl → Nat},
      (∀ v ∈ nodes, m v = m' v) → ∀ v ∈ nodes, cs.foldl (padChild cha nodes parent) m v =
        cs.foldl (padChild cha nodes parent) m' v := by
    intro parent hparent cs
    induction cs with
    | nil => exact fun _ _ _ h => h
    | cons c cs ih =>
      intro hcs m m' h
      obtain ⟨hc, hrest⟩ := List.cons_subset.mp hcs
      apply ih hrest
      intro v hv
      rw [padChild_eq, padChild_eq, h c hc, h parent hparent]
      split
      · exact h v hv
      · by_cases hvc : v = c
        · rw [hvc, Function.update_self, Function.update_self]
        · rw [Function.update_of_ne hvc, Function.update_of_ne hvc, h v hv]
  have hgen : ∀ ps ⊆ nodes, ∀ {m m' : Vtbl → Nat}, (∀ v ∈ nodes, m v = m' v) → ∀ v ∈ nodes,
      ps.foldl (padNode cha nodes) m v = ps.foldl (padNode cha nodes) m' v := by
    intro ps
    induction ps with
    | nil => exact fun _ _ _ h => h
    | cons p ps ih =>
      intro hps m m' h
      obtain ⟨hp, hrest⟩ := List.cons_subset.mp hps
      apply ih hrest
      intro v hv
      rw [padNode, padNode]
      split
      · exact h v hv
      · exact hchildren p hp _ (hclosed p hp) h v hv
  exact hgen nodes (List.Subset.refl _) h

theorem prePad_of_notMem (m : Vtbl → Nat) {v : Vtbl} (hv : v ∉ nodes) :
    prePad cha nodes m v = m v := by
  rw [prePad]
  refine List.foldlRecOn (motive := fun m' : Vtbl → Nat => m' v = m v) _ _ rfl ?_
  intro m₁ hm₁ parent hparent
  split
  · exact hm₁
  · refine List.foldlRecOn (motive := fun m' : Vtbl → Nat => m' v = m v) _ _ hm₁ ?_
    intro m₂ hm₂ child hchild
    rw [padChild_eq]
    split
    · exact hm₂
    · have hne : v ≠ child := fun heq => hv (heq ▸ hclosed parent hparent child hchild)
      rw [Function.update_of_ne hne, hm₂]

end Frame

theorem interleaving_congr {cha : SDBuildCHA} {nodes : List Vtbl} {m m' : Vtbl → Nat}
    (h : ∀ v ∈ nodes, m v = m' v) : interleaving cha m nodes = interleaving cha m' nodes := by
  have hbound : slotBound cha m nodes = slotBound cha m' nodes := by
    rw [slotBound, slotBound]
    exact congrArg List.sum (List.map_congr_left fun v hv => by rw [h v hv])
  have hround : ∀ r, slotRound nodes (hasSlot cha m) r = slotRound nodes (hasSlot cha m') r := by
    intro r
    rw [slotRound, slotRound]
    congr 1
    exact List.filter_congr fun v hv => by rw [hasSlot, hasSlot, h v hv]
  rw [interleaving, interleaving, hbound, rounds, rounds]
  simp only [hround]

section Cloud

variable (cha : SDBuildCHA) (interleave : Bool) (root : String)

/-- The padding that the layout of a cloud computes. -/
def cloudPad (v : Vtbl) : Nat :=
  if interleave then prePad cha (cha.preorder (root, 0)) (fun _ => 0) v else 0

/-- The elements of the new vtable of a cloud, with padding. -/
def cloudElems : List Interleaving :=
  if interleave then interleaving cha (cloudPad cha true root) (cha.preorder (root, 0))
  else (cha.preorder (root, 0)).foldl (orderChild cha (cloudMax cha root)) []

/-- The index of the element in a slot of an interleaved cloud, padding included. -/
def paddedIndex (v : Vtbl) (r : ℤ) : Nat :=
  position (cha.preorder (root, 0)) (hasSlot cha (cloudPad cha true root))
    (-(slotBound cha (cloudPad cha true root) (cha.preorder (root, 0)) : ℤ)) v
    (r + slotBound cha (cloudPad cha true root) (cha.preorder (root, 0))).toNat

/-- The index that is stored for a slot: in an interleaved cloud, that of the element as far
behind the padding as the slot is behind the start. -/
def storedIndex (v : Vtbl) (r : ℤ) : Nat :=
  if interleave then paddedIndex cha root v (r - cloudPad cha true root v)
  else (orderedIndex cha (cloudMax cha root) 0 (cha.preorder (root, 0)) v + r).toNat

/-- The index that is stored for an address point. -/
def addressIndex (v : Vtbl) : Nat := storedIndex cha interleave root v 0

variable {cha interleave root}

theorem mem_interleaving_iff {m : Vtbl → Nat} {nodes : List Vtbl}
    (hstop : ∀ n ∈ nodes, cha.addrPt n ≤ (cha.getRange n).2) {v : Vtbl} {pos : ℤ} :
    (v, pos) ∈ interleaving cha m nodes ↔
      v ∈ nodes ∧ cha.isDefined v ∧ (cha.getRange v).1 - (m v : ℤ) ≤ pos ∧
        pos ≤ (cha.getRange v).2 := by
  rw [interleaving, List.mem_map]
  constructor
  · rintro ⟨⟨n, r⟩, he, heq⟩
    obtain ⟨hmem, hhas, -, -⟩ := mem_rounds.mp he
    obtain ⟨rfl, rfl⟩ := Prod.mk.inj heq
    rw [hasSlot, Bool.and_eq_true, decide_eq_true_eq] at hhas
    exact ⟨hmem, hhas⟩
  · rintro ⟨hmem, hdef, hlo, hhi⟩
    have hbound := le_slotBound cha m hmem
    have hle := hstop v hmem
    refine ⟨(v, pos - cha.addrPt v), mem_rounds.mpr ⟨hmem, ?_, ?_, ?_⟩, ?_⟩
    · rw [hasSlot, hdef, Bool.true_and, decide_eq_true_eq]
      dsimp only
      omega
    · dsimp only
      omega
    · dsimp only
      omega
    · simp [slotElem]

theorem filter_interleaving_getElem? {m : Vtbl → Nat} {nodes : List Vtbl} (hnodes : nodes.Nodup)
    {v : Vtbl} (hv : v ∈ nodes) (hdef : cha.isDefined v) {k : Nat}
    (hk : (cha.getRange v).1 + k ≤ (cha.getRange v).2 + m v) :
    ((interleaving cha m nodes).filter fun e => e.1 = v)[k]? =
      some (v, ((cha.getRange v).1 : ℤ) - m v + k) := by
  have hbound := le_slotBound cha m hv
  have hi : -(slotBound cha m nodes : ℤ) +
      ((slotBound cha m nodes + (cha.getRange v).1 - cha.addrPt v - m v : Nat) : ℤ) =
        (cha.getRange v).1 - m v - cha.addrPt v := by omega
  have hslots : ((rounds nodes (hasSlot cha m) (-(slotBound cha m nodes : ℤ))
        (slotBound cha m nodes + slotBound cha m nodes)).filter fun e => e.1 = v)[k]? =
      some (v, -(slotBound cha m nodes : ℤ) +
        (slotBound cha m nodes + (cha.getRange v).1 - cha.addrPt v - m v : Nat) + k) :=
    filter_rounds_getElem? hnodes hv (by omega) ?before ?within
  case before =>
    intro r hr
    rw [hi] at hr
    rw [hasSlot, hdef, Bool.true_and, decide_eq_true_eq]
    omega
  case within =>
    intro r hlo hhi
    rw [hi] at hlo hhi
    rw [hasSlot, hdef, Bool.true_and, decide_eq_true_eq]
    omega
  rw [hi] at hslots
  rw [interleaving, List.filter_map, List.getElem?_map]
  have hfilter : (fun e : Interleaving => decide (e.1 = v)) ∘ slotElem cha =
      fun e => decide (e.1 = v) := rfl
  rw [hfilter, hslots, Option.map_some, slotElem]
  congr 2
  dsimp only
  omega

/-- The block of a sub-vtable in the ordered vtable. -/
def block (cha : SDBuildCHA) (v : Vtbl) : List Interleaving :=
  (List.range ((cha.getRange v).2 - (cha.getRange v).1 + 1)).map fun i =>
    (v, (((cha.getRange v).1 + i : Nat) : ℤ))

theorem filter_orderChild (max : Nat) (orderedVtbl : List Interleaving) {child v : Vtbl}
    (hv : v ≠ dummyVtable) :
    (orderChild cha max orderedVtbl child).filter (fun e => e.1 = v) =
      orderedVtbl.filter (fun e => e.1 = v) ++
        if child = v ∧ cha.isDefined v then block cha v else [] := by
  unfold orderChild
  by_cases hundef : cha.isUndefined child
  · rw [if_pos hundef, if_neg, List.append_nil]
    rintro ⟨rfl, hdef⟩
    simp [SDBuildCHA.isDefined, hundef] at hdef
  · rw [if_neg hundef, List.filter_append, List.filter_append, List.append_assoc]
    congr 1
    have hpad : ∀ n, (List.replicate n (dummyVtable, (0 : ℤ))).filter (fun e => e.1 = v) = [] := by
      intro n
      rw [List.filter_eq_nil_iff]
      intro e he
      rw [List.eq_of_mem_replicate he]
      simpa using Ne.symm hv
    rw [hpad, List.nil_append]
    by_cases hchild : child = v
    · subst hchild
      rw [if_pos ⟨rfl, SDBuildCHA.isDefined_iff.mpr hundef⟩, ← block,
        List.filter_eq_self]
      intro e he
      obtain ⟨i, -, rfl⟩ := List.mem_map.mp he
      exact decide_eq_true rfl
    · rw [if_neg fun h => hchild h.1, List.filter_eq_nil_iff]
      intro e he
      obtain ⟨i, -, rfl⟩ := List.mem_map.mp he
      simpa using hchild

theorem filter_ordered (max : Nat) {nodes : List Vtbl} (hnodes : nodes.Nodup) {v : Vtbl}
    (hv : v ≠ dummyVtable) (orderedVtbl : List Interleaving) :
    (nodes.foldl (orderChild cha max) orderedVtbl).filter (fun e => e.1 = v) =
      orderedVtbl.filter (fun e => e.1 = v) ++
        if v ∈ nodes ∧ cha.isDefined v then block cha v else [] := by
  induction nodes generalizing orderedVtbl with
  | nil => simp
  | cons n nodes ih =>
    obtain ⟨hn, hrest⟩ := List.nodup_cons.mp hnodes
    rw [List.foldl_cons, ih hrest, filter_orderChild max orderedVtbl hv, List.append_assoc]
    congr 1
    by_cases hnv : n = v
    · subst hnv
      by_cases hdef : cha.isDefined n <;> simp [hn, hdef]
    · simp [hnv, Ne.symm hnv]

namespace Pointed

variable (h : Pointed cha)
include h

/-- The `k`-th element of a sub-vtable, from the padding on. -/
theorem filter_cloudElems_getElem? {v : Vtbl} (hv : InCloud cha root v) (hdef : cha.isDefined v)
    {k : Nat} (hk : (cha.getRange v).1 + k ≤ (cha.getRange v).2) :
    ((cloudElems cha interleave root).filter fun e => e.1 = v)[k]? =
      some (v, ((cha.getRange v).1 : ℤ) - cloudPad cha interleave root v + k) := by
  cases interleave with
  | true =>
    rw [cloudElems, if_pos rfl]
    exact filter_interleaving_getElem? (cha.preorder_nodup _) hv.2 hdef (by omega)
  | false =>
    have hle := h.start_le hv
    have hstop := h.le_stop hv
    rw [cloudElems, if_neg Bool.false_ne_true, cloudPad, if_neg Bool.false_ne_true,
      filter_ordered _ (cha.preorder_nodup _) (h.ne_dummy hv), if_pos ⟨hv.2, hdef⟩,
      List.filter_nil, List.nil_append, block, List.getElem?_map, List.getElem?_range (by omega)]
    simp

theorem mem_cloud_of_mem_cloudElems (hroot : root ∈ cha.roots) {e : Interleaving}
    (he : e ∈ cloudElems cha interleave root) (hdummy : e.1 ≠ dummyVtable) :
    e.1 ∈ cha.preorder (root, 0) := by
  cases interleave with
  | true =>
    rw [cloudElems, if_pos rfl] at he
    exact ((mem_interleaving_iff fun n hn => h.le_stop ⟨hroot, hn⟩).mp he).1
  | false =>
    rw [cloudElems, if_neg Bool.false_ne_true] at he
    by_contra hmem
    have hnil := @filter_ordered cha (cloudMax cha root) (cha.preorder (root, 0))
      (cha.preorder_nodup _) e.1 hdummy []
    rw [if_neg fun hand => hmem hand.1, List.filter_nil, List.nil_append,
      List.filter_eq_nil_iff] at hnil
    exact hnil e he (decide_eq_true rfl)

/-- The stored indices of a sub-vtable, read at a slot. -/
theorem positions_cloudElems {v : Vtbl} (hv : InCloud cha root v) {r : ℤ} (hslot : slot cha v r) :
    (positions (fun e => e.1 = v) (cloudElems cha interleave root))[
      ((cha.addrPt v : ℤ) - (cha.getRange v).1 + r).toNat]? =
        some (storedIndex cha interleave root v r) := by
  obtain ⟨hdef, hlo, hhi⟩ := slot_iff.mp hslot
  have hstart := h.start_le hv
  cases interleave with
  | true =>
    rw [cloudElems, if_pos rfl, storedIndex, if_pos rfl,
      positions_interleaving_getElem? (cha.preorder_nodup _) hv.2 hdef (by omega), paddedIndex]
    congr 3
    omega
  | false =>
    have hpositions := positions_ordered (cloudMax cha root) (cha.preorder_nodup (root, 0))
      (h.ne_dummy hv) hv.2 hdef []
    have hbefore := le_orderedIndex (cloudMax cha root) hv.2 hdef 0
    have hnil : positions (fun e : Interleaving => e.1 = v) [] = [] := rfl
    rw [cloudElems, if_neg Bool.false_ne_true, hpositions, storedIndex, if_neg Bool.false_ne_true,
      hnil, List.nil_append, List.getElem?_map, List.getElem?_range (by omega), Option.map_some,
      List.length_nil]
    congr 1
    omega

/-- The stored indices, read at an address point. -/
theorem positions_addrPt {v : Vtbl} (hv : InCloud cha root v) (hdef : cha.isDefined v) :
    (positions (fun e => e.1 = v) (cloudElems cha interleave root))[
      cha.addrPt v - (cha.getRange v).1]? = some (addressIndex cha interleave root v) := by
  have hstart := h.start_le hv
  have hindex := @positions_cloudElems cha interleave root h v hv 0
    ((h.slot_zero_iff hv).mpr hdef)
  have hk : ((cha.addrPt v : ℤ) - (cha.getRange v).1 + 0).toNat =
      cha.addrPt v - (cha.getRange v).1 := by omega
  rwa [hk] at hindex

/-- The first loop for one cloud. -/
theorem layoutCloud_cloudElems (interleave : Bool) (hroot : root ∈ cha.roots)
    {st : SDLayoutBuilder} (hpad : ∀ v ∈ cha.preorder (root, 0), st.prePadMap v = 0) :
    ∃ pads, layoutCloud cha interleave st root = .ok (calculateNewLayoutInds root { st with
        prePadMap := pads
        interleavingMap :=
          Function.update st.interleavingMap root (cloudElems cha interleave root)
        alignmentMap := Function.update st.alignmentMap root
          (some (alignment cha interleave root)) }) ∧
      (∀ v ∈ cha.preorder (root, 0), pads v = cloudPad cha interleave root v) ∧
      ∀ v ∉ cha.preorder (root, 0), pads v = st.prePadMap v := by
  have hclosed : ∀ v ∈ cha.preorder (root, 0), ∀ child ∈ cha.children v,
      child ∈ cha.preorder (root, 0) :=
    fun v hv child hchild => (InCloud.reaches ⟨hroot, hv⟩ (.single hchild)).2
  cases interleave with
  | true =>
    have hpads : ∀ v ∈ cha.preorder (root, 0), prePad cha (cha.preorder (root, 0)) st.prePadMap v =
        cloudPad cha true root v := prePad_congr hclosed hpad
    refine ⟨prePad cha (cha.preorder (root, 0)) st.prePadMap, ?_, hpads,
      fun v hv => prePad_of_notMem hclosed _ hv⟩
    have hcloud : interleaveCloudNew cha root st = .ok { st with
        prePadMap := prePad cha (cha.preorder (root, 0)) st.prePadMap
        interleavingMap := Function.update st.interleavingMap root (cloudElems cha true root)
        alignmentMap := Function.update st.alignmentMap root (some wordWidth) } := by
      rw [interleaveCloudNew, bind_eq_ok]
      refine ⟨_, fillVtablePart_negative cha _ (cha.preorder_nodup (root, 0))
        fun n hn => h.le_stop ⟨hroot, hn⟩, ?_⟩
      rw [bind_eq_ok]
      refine ⟨_, fillVtablePart_positive cha _ (cha.preorder_nodup (root, 0))
        fun n hn => h.start_le ⟨hroot, hn⟩, ?_⟩
      rw [interleaving_eq, interleaving_congr hpads, cloudElems, if_pos rfl]
      rfl
    rw [layoutCloud, if_pos rfl, bind_eq_ok]
    exact ⟨_, hcloud, rfl⟩
  | false => exact ⟨st.prePadMap, rfl, hpad, fun _ _ => rfl⟩

end Pointed

namespace WellFormed

variable (h : WellFormed cha) (hroot : root ∈ cha.roots)
include h hroot

theorem cloudPad_eq : cloudPad cha true root = fun _ => 0 := h.prePad_eq hroot

theorem cloudElems_interleaved : cloudElems cha true root = cloudInterleaving cha root := by
  rw [cloudElems, if_pos rfl, h.cloudPad_eq hroot, cloudInterleaving]

theorem storedIndex_interleaved (v : Vtbl) (r : ℤ) :
    storedIndex cha true root v r = newIndex cha root v r := by
  rw [storedIndex, if_pos rfl, paddedIndex, h.cloudPad_eq hroot, Nat.cast_zero, sub_zero]
  rfl

end WellFormed

end Cloud

/-- The state of the first loop after the roots `done`, in either mode. -/
structure Laid (cha : SDBuildCHA) (interleave : Bool) (functions : List String)
    (done : List String) (st : SDLayoutBuilder) : Prop where
  prePadMap : ∀ root ∈ done, ∀ v ∈ cha.preorder (root, 0),
    st.prePadMap v = cloudPad cha interleave root v
  interleavingMap : ∀ root ∈ done, st.interleavingMap root = cloudElems cha interleave root
  alignmentMap : ∀ root ∈ done, st.alignmentMap root = some (alignment cha interleave root)
  newLayoutInds : ∀ root ∈ done, ∀ v ∈ cha.preorder (root, 0),
    st.newLayoutInds v = positions (fun e => e.1 = v) (cloudElems cha interleave root)
  fresh : ∀ root v, InCloud cha root v → root ∉ done →
    st.prePadMap v = 0 ∧ st.newLayoutInds v = []
  newVTableStartAddrMap : st.newVTableStartAddrMap = fun _ => none
  cloudStartMap : st.cloudStartMap = fun _ => none
  rangeMap : st.rangeMap = fun _ => none
  memRangeMap : st.memRangeMap = fun _ => []
  functions : st.functions = functions

/-- The same for interleaved clouds without padding. -/
structure LaidOut (cha : SDBuildCHA) (functions : List String) (st : SDLayoutBuilder) : Prop where
  interleavingMap : ∀ root ∈ cha.roots, st.interleavingMap root = cloudInterleaving cha root
  alignmentMap : ∀ root ∈ cha.roots, st.alignmentMap root = some wordWidth
  newLayoutInds : ∀ root ∈ cha.roots, ∀ v ∈ cha.preorder (root, 0),
    st.newLayoutInds v = positions (fun e => e.1 = v) (cloudInterleaving cha root)
  newVTableStartAddrMap : st.newVTableStartAddrMap = fun _ => none
  cloudStartMap : st.cloudStartMap = fun _ => none
  rangeMap : st.rangeMap = fun _ => none
  memRangeMap : st.memRangeMap = fun _ => []
  functions : st.functions = functions

section Run

variable {cha : SDBuildCHA} {interleave : Bool} {root : String}

theorem Laid.step (h : Pointed cha) {functions done : List String} {st : SDLayoutBuilder}
    (hst : Laid cha interleave functions done st) (hdone : done ⊆ cha.roots)
    (hroot : root ∈ cha.roots) (hnew : root ∉ done) :
    ∃ st', layoutCloud cha interleave st root = .ok st' ∧
      Laid cha interleave functions (done ++ [root]) st' := by
  obtain ⟨pads, hok, hpads, houtside⟩ := h.layoutCloud_cloudElems interleave hroot
    fun v hv => (hst.fresh root v ⟨hroot, hv⟩ hnew).1
  refine ⟨_, hok, ?_⟩
  have hinds : ∀ root' v, InCloud cha root' v →
      (calculateNewLayoutInds root { st with
        prePadMap := pads
        interleavingMap := Function.update st.interleavingMap root (cloudElems cha interleave root)
        alignmentMap := Function.update st.alignmentMap root
          (some (alignment cha interleave root)) }).newLayoutInds v =
        st.newLayoutInds v ++ positions (fun e => e.1 = v) (cloudElems cha interleave root) := by
    intro root' v hv
    rw [calculateNewLayoutInds_newLayoutInds _ _ (h.ne_dummy hv)]
    dsimp only
    rw [Function.update_self]
  have hother : ∀ root' v, InCloud cha root' v → root' ≠ root →
      positions (fun e => e.1 = v) (cloudElems cha interleave root) = [] := by
    intro root' v hv hne
    apply positions_of_forall_not
    intro e he hev
    obtain rfl := of_decide_eq_true hev
    exact notMem_preorder h.unique hv hroot hne
      (h.mem_cloud_of_mem_cloudElems hroot he (h.ne_dummy hv))
  constructor
  · rw [List.forall_mem_append, List.forall_mem_singleton]
    constructor
    · intro root' hold v hv
      have hout := notMem_preorder h.unique ⟨hdone hold, hv⟩ hroot (ne_of_mem_of_not_mem hold hnew)
      exact (houtside v hout).trans (hst.prePadMap root' hold v hv)
    · exact hpads
  · exact forall_update_concat hnew hst.interleavingMap
  · exact forall_update_concat hnew hst.alignmentMap
  · rw [List.forall_mem_append, List.forall_mem_singleton]
    constructor
    · intro root' hold v hv
      have hcloud : InCloud cha root' v := ⟨hdone hold, hv⟩
      rw [hinds root' v hcloud, hother root' v hcloud (ne_of_mem_of_not_mem hold hnew),
        List.append_nil, hst.newLayoutInds root' hold v hv]
    · intro v hv
      rw [hinds root v ⟨hroot, hv⟩, (hst.fresh root v ⟨hroot, hv⟩ hnew).2, List.nil_append]
  · intro root' v hv hmem
    rw [List.mem_append, List.mem_singleton, not_or] at hmem
    obtain ⟨hpad, hnil⟩ := hst.fresh root' v hv hmem.1
    refine ⟨(houtside v (notMem_preorder h.unique hv hroot hmem.2)).trans hpad, ?_⟩
    rw [hinds root' v hv, hother root' v hv hmem.2, hnil, List.append_nil]
  · exact hst.newVTableStartAddrMap
  · exact hst.cloudStartMap
  · exact hst.rangeMap
  · exact hst.memRangeMap
  · exact hst.functions

theorem laid_roots (h : Pointed cha) (interleave : Bool) (functions : List String) :
    ∃ st, cha.roots.foldlM (layoutCloud cha interleave) (SDLayoutBuilder.init functions) = .ok st ∧
      Laid cha interleave functions cha.roots st := by
  apply foldlM_nodup_exists_ok (Laid cha interleave functions) h.roots_nodup
  case hstep => exact fun hdone hroot hnew hst => hst.step h hdone hroot hnew
  case hstart => exact ⟨List.forall_mem_nil _, List.forall_mem_nil _, List.forall_mem_nil _,
    List.forall_mem_nil _, fun _ _ _ _ => ⟨rfl, rfl⟩, rfl, rfl, rfl, rfl, rfl⟩

theorem laidOut_roots (h : WellFormed cha) (functions : List String) :
    ∃ st, cha.roots.foldlM (layoutCloud cha true) (SDLayoutBuilder.init functions) = .ok st ∧
      LaidOut cha functions st := by
  obtain ⟨st, hok, hst⟩ := laid_roots h.toPointed true functions
  refine ⟨st, hok, ?_, ?_, ?_, hst.newVTableStartAddrMap, hst.cloudStartMap, hst.rangeMap,
    hst.memRangeMap, hst.functions⟩
  · exact fun root hroot =>
      (hst.interleavingMap root hroot).trans (h.cloudElems_interleaved hroot)
  · exact hst.alignmentMap
  · intro root hroot
    rw [← h.cloudElems_interleaved hroot]
    exact hst.newLayoutInds root hroot

/-- The index that is read for a slot belongs to the slot when there is no padding. -/
theorem Laid.located_iff (h : Pointed cha) {functions : List String} {st : SDLayoutBuilder}
    (hst : Laid cha interleave functions cha.roots st) {v : Vtbl} (hv : InCloud cha root v)
    (hdef : cha.isDefined v) {j : Nat} (hstart : (cha.getRange v).1 ≤ j)
    (hstop : j ≤ (cha.getRange v).2) :
    (∃ i, (st.newLayoutInds v)[j - (cha.getRange v).1]? = some i ∧
      (st.interleavingMap root)[i]? = some (v, (j : ℤ))) ↔
        cloudPad cha interleave root v = 0 := by
  rw [hst.newLayoutInds root hv.1 v hv.2, hst.interleavingMap root hv.1, ← Option.bind_eq_some_iff,
    positions_bind_getElem?, h.filter_cloudElems_getElem? hv hdef (by omega), Option.some.injEq,
    Prod.mk.injEq]
  constructor
  · rintro ⟨-, heq⟩
    omega
  · intro hzero
    exact ⟨rfl, by omega⟩

/-- Nothing is padded when no defined child is shorter than its parent. -/
theorem cloudPad_eq_zero_iff (h : Regular cha) :
    (∀ v ∈ cha.preorder (root, 0), cha.isDefined v → cloudPad cha interleave root v = 0) ↔
      (interleave = true → ∀ p c, Forward cha root p c → cha.isDefined p → cha.isDefined c →
        sizeBefore cha p ≤ sizeBefore cha c) := by
  cases interleave with
  | false => exact iff_of_true (fun _ _ _ => rfl) nofun
  | true =>
    have hpad : ∀ v ∈ cha.preorder (root, 0), cloudPad cha true root v = 0 ↔
        ∀ p ∈ forwardParents cha (cha.preorder (root, 0)) v,
          paddedSize cha root p ≤ sizeBefore cha v := by
      intro v hv
      rw [cloudPad, if_pos rfl, prePad_eq_foldl h.children_nodup (cha.preorder_nodup _) _ hv,
        foldl_padStep_eq_zero_iff, List.forall_mem_map]
      rfl
    have hmem : ∀ {p c}, p ∈ forwardParents cha (cha.preorder (root, 0)) c ↔
        Forward cha root p c ∧ cha.isDefined p := by
      intro p c
      rw [forwardParents, List.mem_filter, Bool.and_eq_true, decide_eq_true_eq, Forward]
      exact ⟨fun h => ⟨⟨h.1, h.2.2⟩, h.2.1⟩, fun h => ⟨h.1.1, h.2, h.1.2⟩⟩
    constructor
    · intro hzero _ p c hpc hp hc
      have hle := (hpad c hpc.mem).mp (hzero c hpc.mem hc) p (hmem.mpr ⟨hpc, hp⟩)
      exact (Nat.le_add_right _ _).trans hle
    · intro hsize
      have hgen : ∀ n, ∀ v ∈ cha.preorder (root, 0), indMap (cha.preorder (root, 0)) v < n →
          cha.isDefined v → cloudPad cha true root v = 0 := by
        intro n
        induction n with
        | zero => exact fun v _ h _ => absurd h (Nat.not_lt_zero _)
        | succ n ih =>
          intro v hv hn hdef
          rw [hpad v hv]
          intro p hp
          obtain ⟨hpv, hpdef⟩ := hmem.mp hp
          have hzero : prePad cha (cha.preorder (root, 0)) (fun _ => 0) p = 0 :=
            ih p hpv.1 (hpv.2.2.trans_le (Nat.le_of_lt_succ hn)) hpdef
          rw [paddedSize, hzero]
          exact hsize rfl p v hpv hpdef hdef
      exact fun v hv hdef => hgen _ v hv (Nat.lt_succ_self _) hdef

/-- In every layout the stored indices are those of the slots they are read for, exactly for
the clouds in which no defined child is shorter before its address point than a parent. -/
theorem newLayoutInds_located_iff (h : Regular cha) (interleave : Bool) (functions : List String) :
    ∃ st, cha.roots.foldlM (layoutCloud cha interleave) (SDLayoutBuilder.init functions) = .ok st ∧
      ∀ root ∈ cha.roots,
        ((∀ v ∈ cha.preorder (root, 0), cha.isDefined v → ∀ j, (cha.getRange v).1 ≤ j →
            j ≤ (cha.getRange v).2 → ∃ i, (st.newLayoutInds v)[j - (cha.getRange v).1]? = some i ∧
              (st.interleavingMap root)[i]? = some (v, (j : ℤ))) ↔
          (interleave = true → ∀ p c, Forward cha root p c → cha.isDefined p → cha.isDefined c →
            sizeBefore cha p ≤ sizeBefore cha c)) := by
  obtain ⟨st, hok, hst⟩ := laid_roots h.toPointed interleave functions
  refine ⟨st, hok, ?_⟩
  intro root hroot
  rw [← cloudPad_eq_zero_iff h]
  refine forall_congr' fun v => forall_congr' fun hv => forall_congr' fun hdef => ?_
  have hcloud : InCloud cha root v := ⟨hroot, hv⟩
  constructor
  · intro hall
    have hrange := (h.start_le hcloud).trans (h.le_stop hcloud)
    exact (hst.located_iff h.toPointed hcloud hdef (le_refl _) hrange).mp
      (hall _ (le_refl _) hrange)
  · exact fun hzero j hstart hstop =>
      (hst.located_iff h.toPointed hcloud hdef hstart hstop).mpr hzero

section Entries

/-- An entry below zero wraps around to the end of the word. -/
theorem oldIndex_of_neg {e : Interleaving} (hneg : e.2 < 0) (hlo : -2 ^ 63 ≤ e.2) :
    2 ^ 63 ≤ oldIndex e := by
  rw [oldIndex, if_neg (by omega)]
  omega

theorem newVtableElem_of_lt {functions : List String} {e : Interleaving}
    (hlt : oldIndex e < (cha.getRange e.1).1) : newVtableElem cha functions e = .ok .null :=
  if_pos (.inr (.inr hlt))

theorem newVtableElem_of_wrapped {functions : List String} {e : Interleaving}
    (hdef : cha.isDefined e.1) (hdummy : e.1 ≠ dummyVtable)
    (hlength : ∀ vtable, cha.oldVTables e.1.1 = some vtable → vtable.length ≤ oldIndex e)
    (hstart : (cha.getRange e.1).1 ≤ oldIndex e) : newVtableElem cha functions e ≠ .ok .null := by
  have hread : ¬ (cha.isUndefined e.1 ∨ e.1 = dummyVtable ∨
      oldIndex e < (cha.getRange e.1).1) := by
    rw [not_or, not_or]
    exact ⟨SDBuildCHA.isDefined_iff.mp hdef, hdummy, Nat.not_lt.mpr hstart⟩
  rw [newVtableElem, if_neg hread]
  cases hold : cha.oldVTables e.1.1 with
  | none => simp
  | some vtable => simp [List.getElem?_eq_none (hlength vtable hold)]

/-- An element of an interleaved cloud becomes null, or is read in its range, exactly when the
padding does not reach below the start of the vtable. -/
theorem newVtableElem_inRange_iff (h : Regular cha)
    (hwords : ∀ {root v}, InCloud cha root v → (cha.getRange v).2 < 2 ^ 63)
    (hlength : ∀ {root v}, InCloud cha root v →
      ∀ vtable ∈ cha.oldVTables v.1, vtable.length ≤ 2 ^ 63) (functions : List String) :
    ∃ st, cha.roots.foldlM (layoutCloud cha true) (SDLayoutBuilder.init functions) = .ok st ∧
      ∀ root ∈ cha.roots,
        ((∀ thunks, ∀ e ∈ st.interleavingMap root, newVtableElem cha thunks e = .ok .null ∨
            ((cha.getRange e.1).1 ≤ oldIndex e ∧ oldIndex e ≤ (cha.getRange e.1).2)) ↔
          ∀ v ∈ cha.preorder (root, 0), cha.isDefined v → st.prePadMap v ≤ (cha.getRange v).1) := by
  obtain ⟨st, hok, hst⟩ := laid_roots h.toPointed true functions
  refine ⟨st, hok, ?_⟩
  intro root hroot
  have hmem : ∀ {v pos}, (v, pos) ∈ st.interleavingMap root ↔ v ∈ cha.preorder (root, 0) ∧
      cha.isDefined v ∧ (cha.getRange v).1 - (st.prePadMap v : ℤ) ≤ pos ∧
        pos ≤ (cha.getRange v).2 := by
    intro v pos
    rw [hst.interleavingMap root hroot, cloudElems, if_pos rfl,
      mem_interleaving_iff fun n hn => h.le_stop ⟨hroot, hn⟩]
    refine and_congr_right fun hv => ?_
    rw [hst.prePadMap root hroot v hv, cloudPad, if_pos rfl]
  constructor
  · intro hall v hv hdef
    by_contra hpad
    have hcloud : InCloud cha root v := ⟨hroot, hv⟩
    have he : (v, (-1 : ℤ)) ∈ st.interleavingMap root := hmem.mpr ⟨hv, hdef, by omega, by omega⟩
    have hwrap : 2 ^ 63 ≤ oldIndex (v, -1) :=
      oldIndex_of_neg (by dsimp only; omega) (by dsimp only; omega)
    have hlt := hwords hcloud
    have hle := (h.start_le hcloud).trans (h.le_stop hcloud)
    rcases hall [] _ he with hnull | ⟨-, hstop⟩
    · refine newVtableElem_of_wrapped hdef (h.ne_dummy hcloud) ?_ ?_ hnull
      · exact fun vtable hold => (hlength hcloud vtable hold).trans hwrap
      · exact hle.trans (hlt.le.trans hwrap)
    · exact absurd (hwrap.trans hstop) (Nat.not_le.mpr hlt)
  · rintro hpads thunks ⟨v, pos⟩ he
    obtain ⟨hv, hdef, hlo, hhi⟩ := hmem.mp he
    have hpad := hpads v hv hdef
    have hindex : oldIndex (v, pos) = pos.toNat := if_pos (by dsimp only; omega)
    by_cases hlt : oldIndex (v, pos) < (cha.getRange v).1
    · exact .inl (newVtableElem_of_lt hlt)
    · exact .inr ⟨Nat.le_of_not_lt hlt, by rw [hindex]; dsimp only; omega⟩

end Entries

end Run

theorem regular_of_nodes {cha : SDBuildCHA} (hroots : cha.roots.Nodup)
    (hset : ∀ entry ∈ cha.cloudMap.entries, entry.2.Nodup)
    (hunique : ∀ root ∈ cha.roots, ∀ root' ∈ cha.roots, ∀ v ∈ cha.preorder (root, 0),
      v ∈ cha.preorder (root', 0) → root = root')
    (hnodes : ∀ root ∈ cha.roots, ∀ v ∈ cha.preorder (root, 0), v ≠ dummyVtable ∧
      (cha.getRange v).1 ≤ cha.addrPt v ∧ cha.addrPt v ≤ (cha.getRange v).2) : Regular cha where
  roots_nodup := hroots
  unique hv hv' := hunique _ hv.1 _ hv'.1 _ hv.2 hv'.2
  ne_dummy hv := (hnodes _ hv.1 _ hv.2).1
  children_nodup := cha.children_nodup hset
  start_le hv := (hnodes _ hv.1 _ hv.2).2.1
  le_stop hv := (hnodes _ hv.1 _ hv.2).2.2

theorem shortChild_regular {cha : SDBuildCHA}
    (h : buildClouds shortVTables shortChild = .ok cha) : Regular cha := by
  have hok := eq_ok_of_isOk (x := buildClouds shortVTables shortChild) .empty (by decide)
  obtain rfl := Except.ok.inj (hok.symm.trans h)
  exact regular_of_nodes (by decide) (by decide) (by decide) (by decide)

theorem newLayoutInds_located_iff_short : ∃ cha,
    buildClouds shortVTables shortChild = .ok cha ∧
      ∃ st, cha.roots.foldlM (layoutCloud cha true) (SDLayoutBuilder.init []) = .ok st ∧
        ∀ root ∈ cha.roots,
          ((∀ v ∈ cha.preorder (root, 0), cha.isDefined v → ∀ j, (cha.getRange v).1 ≤ j →
              j ≤ (cha.getRange v).2 → ∃ i, (st.newLayoutInds v)[j - (cha.getRange v).1]? = some i ∧
                (st.interleavingMap root)[i]? = some (v, (j : ℤ))) ↔
            (true = true → ∀ p c, Forward cha root p c → cha.isDefined p → cha.isDefined c →
              sizeBefore cha p ≤ sizeBefore cha c)) := by
  have hcha := eq_ok_of_isOk (x := buildClouds shortVTables shortChild) .empty (by decide)
  exact ⟨_, hcha, newLayoutInds_located_iff (shortChild_regular hcha) true []⟩

/-- The index that is read for the address point of `C` is that of its first element. -/
theorem newLayoutInds_of_padding : ∃ cha, buildClouds shortVTables shortChild = .ok cha ∧
    ∃ st, cha.roots.foldlM (layoutCloud cha true) (SDLayoutBuilder.init []) = .ok st ∧
      cha.isDefined ("_ZTV1C", 0) ∧ cha.getRange ("_ZTV1C", 0) = (0, 1) ∧
        cha.addrPt ("_ZTV1C", 0) = 1 ∧ ∃ i, (st.newLayoutInds ("_ZTV1C", 0))[1 - 0]? = some i ∧
          (st.interleavingMap "_ZTV1A")[i]? = some (("_ZTV1C", 0), 0) :=
  ⟨_, eq_ok_of_isOk .empty (by decide), _, eq_ok_of_isOk (.init []) (by decide), by decide,
    by decide, by decide, 6, by decide, by decide⟩

theorem newVtableElem_inRange_iff_short : ∃ cha,
    buildClouds shortVTables shortChild = .ok cha ∧
      ∃ st, cha.roots.foldlM (layoutCloud cha true) (SDLayoutBuilder.init []) = .ok st ∧
        ∀ root ∈ cha.roots,
          ((∀ thunks, ∀ e ∈ st.interleavingMap root, newVtableElem cha thunks e = .ok .null ∨
              ((cha.getRange e.1).1 ≤ oldIndex e ∧ oldIndex e ≤ (cha.getRange e.1).2)) ↔
            ∀ v ∈ cha.preorder (root, 0), cha.isDefined v →
              st.prePadMap v ≤ (cha.getRange v).1) := by
  have hcha := eq_ok_of_isOk (x := buildClouds shortVTables shortChild) .empty (by decide)
  generalize hname : (buildClouds shortVTables shortChild).toOption.getD .empty = cha at *
  have hwords : ∀ root ∈ cha.roots, ∀ v ∈ cha.preorder (root, 0), (cha.getRange v).2 < 2 ^ 63 ∧
      ∀ vtable ∈ cha.oldVTables v.1, vtable.length ≤ 2 ^ 63 := by
    rw [← hname]
    decide
  exact ⟨cha, hcha, newVtableElem_inRange_iff (shortChild_regular hcha)
    (fun hv => (hwords _ hv.1 _ hv.2).1) (fun hv => (hwords _ hv.1 _ hv.2).2) []⟩

/-- The padding of `C` starts below its vtable, and is read from there. -/
theorem newVtableElem_below_zero : ∃ cha, buildClouds shortVTables shortChild = .ok cha ∧
    ∃ st, cha.roots.foldlM (layoutCloud cha true) (SDLayoutBuilder.init []) = .ok st ∧
      (("_ZTV1C", 0), -1) ∈ st.interleavingMap "_ZTV1A" ∧
        newVtableElem cha [] (("_ZTV1C", 0), -1) = .error .operandOutOfRange ∧
          oldIndex (("_ZTV1C", 0), -1) = 2 ^ 64 - 1 :=
  ⟨_, eq_ok_of_isOk .empty (by decide), _, eq_ok_of_isOk (.init []) (by decide), by decide,
    by decide, by decide⟩

end RhoFEM.Layout
