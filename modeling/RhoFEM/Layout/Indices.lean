import RhoFEM.Layout.Clouds
import RhoFEM.Layout.Interleave

/-! The first loop of `buildNewLayouts`: the interleaving of every cloud, and the new
index of every slot. -/

namespace RhoFEM.Layout

open RhoFEM.CHA RhoFEM.Lib.Fold RhoFEM.Lib.Rounds

theorem addNewInd_foldl (elems : List (Interleaving × Nat)) (inds : Vtbl → List Nat) {v : Vtbl}
    (hv : v ≠ dummyVtable) :
    elems.foldl addNewInd inds v =
      inds v ++ (elems.filter fun e => e.1.1 = v).map Prod.snd := by
  induction elems generalizing inds with
  | nil => simp
  | cons e elems ih =>
    rw [List.foldl_cons, ih, addNewInd]
    by_cases hev : e.1.1 = v
    · subst hev
      simp [hv]
    · split
      · simp [hev, Ne.symm hev]
      · simp [hev]

theorem calculateNewLayoutInds_newLayoutInds (vtbl : String) (st : SDLayoutBuilder) {v : Vtbl}
    (hv : v ≠ dummyVtable) :
    (calculateNewLayoutInds vtbl st).newLayoutInds v =
      st.newLayoutInds v ++ positions (fun e => e.1 = v) (st.interleavingMap vtbl) :=
  addNewInd_foldl _ _ hv

section Slots

variable (cha : SDBuildCHA)

/-- Without padding. -/
abbrev slot : Vtbl → ℤ → Bool := hasSlot cha fun _ => 0

def bound (root : String) : Nat := slotBound cha (fun _ => 0) (cha.preorder (root, 0))

def cloudInterleaving (root : String) : List Interleaving :=
  interleaving cha (fun _ => 0) (cha.preorder (root, 0))

/-- The position of slot `r` of a sub-vtable in the new vtable of its cloud. -/
def newIndex (root : String) (v : Vtbl) (r : ℤ) : Nat :=
  position (cha.preorder (root, 0)) (slot cha) (-(bound cha root : ℤ)) v (r + bound cha root).toNat

variable {cha}

theorem slot_iff {v : Vtbl} {r : ℤ} : slot cha v r ↔
    cha.isDefined v ∧ ((cha.getRange v).1 : ℤ) ≤ cha.addrPt v + r ∧
      cha.addrPt v + r ≤ (cha.getRange v).2 := by
  simp [slot, hasSlot]

theorem Pointed.slot_zero_iff (h : Pointed cha) {root : String} {v : Vtbl}
    (hv : InCloud cha root v) : slot cha v 0 ↔ cha.isDefined v := by
  have hstart := h.start_le hv
  have hstop := h.le_stop hv
  rw [slot_iff]
  exact and_iff_left ⟨by omega, by omega⟩

/-- What extends a sub-vtable has its slots. -/
theorem slot_of_extends {p x : Vtbl}
    (hextends : cha.addrPt p - (cha.getRange p).1 ≤ cha.addrPt x - (cha.getRange x).1 ∧
      (cha.getRange p).2 - cha.addrPt p ≤ (cha.getRange x).2 - cha.addrPt x)
    (hp : (cha.getRange p).1 ≤ cha.addrPt p ∧ cha.addrPt p ≤ (cha.getRange p).2)
    (hx : (cha.getRange x).1 ≤ cha.addrPt x ∧ cha.addrPt x ≤ (cha.getRange x).2)
    (hdef : cha.isDefined x) {r : ℤ} (hlo : (cha.getRange p).1 ≤ cha.addrPt p + r)
    (hhi : cha.addrPt p + r ≤ (cha.getRange p).2) : slot cha x r :=
  slot_iff.mpr ⟨hdef, by omega, by omega⟩

theorem lt_bound {root : String} {v : Vtbl} (hv : v ∈ cha.preorder (root, 0)) :
    cha.addrPt v + (cha.getRange v).2 < bound cha root :=
  le_slotBound cha (fun _ => 0) hv

theorem mem_cloudInterleaving {root : String} {e : Interleaving}
    (h : e ∈ cloudInterleaving cha root) :
    e.1 ∈ cha.preorder (root, 0) ∧ ∃ r : ℤ, slot cha e.1 r ∧ e.2 = cha.addrPt e.1 + r := by
  rw [cloudInterleaving, interleaving, List.mem_map] at h
  obtain ⟨e, he, rfl⟩ := h
  obtain ⟨hmem, hhas, -, -⟩ := mem_rounds.mp he
  exact ⟨hmem, e.2, hhas, rfl⟩

/-- The position of a slot holds the element of that slot, and no other position does. -/
theorem cloudInterleaving_getElem?_iff {root : String} {x : Vtbl} (hx : InCloud cha root x)
    {r : ℤ} (hslot : slot cha x r) (j : Nat) :
    (cloudInterleaving cha root)[j]? = some (x, cha.addrPt x + r) ↔ j = newIndex cha root x r := by
  have hbound := lt_bound hx.2
  obtain ⟨hdef, hlo, hhi⟩ := slot_iff.mp hslot
  have hr : -(bound cha root : ℤ) + ((r + bound cha root).toNat : ℤ) = r := by omega
  have hinj : (slotElem cha).Injective := by
    intro a b hab
    obtain ⟨hfst, hsnd⟩ := Prod.mk.inj hab
    rw [hfst] at hsnd
    exact Prod.ext hfst (Int.add_left_cancel hsnd)
  have hk : (r + bound cha root).toNat < bound cha root + bound cha root := by omega
  have hiff := rounds_getElem?_iff (cha.preorder_nodup _) hx.2 hk (hr.symm ▸ hslot) j
  rw [hr] at hiff
  rw [newIndex, ← hiff, cloudInterleaving, interleaving, List.getElem?_map]
  constructor
  · intro hmap
    obtain ⟨e, he, heq⟩ := Option.map_eq_some_iff.mp hmap
    have hxr : e = (x, r) := hinj heq
    rw [← hxr]
    exact he
  · intro hget
    have hget' : (rounds (cha.preorder (root, 0)) (slot cha) (-(bound cha root : ℤ))
        (bound cha root + bound cha root))[j]? = some (x, r) := hget
    exact Option.map_eq_some_iff.mpr ⟨(x, r), hget', rfl⟩

/-- Children that extend their parents are not padded. -/
theorem prePad_eq_zero {nodes : List Vtbl}
    (hextends : ∀ v ∈ nodes, ∀ child ∈ cha.children v,
      cha.addrPt v - (cha.getRange v).1 ≤ cha.addrPt child - (cha.getRange child).1) :
    prePad cha nodes (fun _ => 0) = fun _ => 0 := by
  rw [prePad]
  refine List.foldlRecOn (motive := fun pads => pads = fun _ => 0) _ _ rfl ?_
  intro pads hpads parent hparent
  split
  · exact hpads
  · refine List.foldlRecOn (motive := fun pads => pads = fun _ => 0) _ _ hpads ?_
    rintro pads rfl child hchild
    have := hextends parent hparent child hchild
    rw [padChild]
    split
    · rfl
    · dsimp only
      rw [if_neg (by omega), Function.update_eq_self]

/-- The `k`-th index of a sub-vtable, from its padding on. -/
theorem positions_interleaving_getElem? {m : Vtbl → Nat} {nodes : List Vtbl} (hnodes : nodes.Nodup)
    {v : Vtbl} (hv : v ∈ nodes) (hdef : cha.isDefined v) {k : Nat}
    (hk : (cha.getRange v).1 + k ≤ (cha.getRange v).2 + m v) :
    (positions (fun e => e.1 = v) (interleaving cha m nodes))[k]? =
      some (position nodes (hasSlot cha m) (-(slotBound cha m nodes : ℤ)) v
        ((cha.getRange v).1 - m v + k - cha.addrPt v + slotBound cha m nodes : ℤ).toNat) := by
  have hbound := le_slotBound cha m hv
  have hi : -(slotBound cha m nodes : ℤ) +
      ((slotBound cha m nodes + (cha.getRange v).1 - cha.addrPt v - m v : Nat) : ℤ) =
        (cha.getRange v).1 - m v - cha.addrPt v := by omega
  have hindex : ((cha.getRange v).1 - m v + k - cha.addrPt v + slotBound cha m nodes : ℤ).toNat =
      slotBound cha m nodes + (cha.getRange v).1 - cha.addrPt v - m v + k := by omega
  rw [interleaving, positions_map, hindex]
  refine positions_rounds hnodes hv (by omega) ?before ?within
  case before =>
    intro r hr
    rw [hi] at hr
    rw [hasSlot, hdef, Bool.true_and, decide_eq_true_eq]
    omega
  case within =>
    intro r hlo hhi
    rw [hi] at hlo hhi
    rw [hasSlot, hdef, Bool.true_and, decide_eq_true_eq]
    omega

/-- The `k`-th index of a sub-vtable is that of the `k`-th slot of its range. -/
theorem newIndex_getElem? {root : String} {v : Vtbl} (hv : InCloud cha root v)
    (hdef : cha.isDefined v) {k : Nat} (hk : (cha.getRange v).1 + k ≤ (cha.getRange v).2) :
    (positions (fun e => e.1 = v) (cloudInterleaving cha root))[k]? =
      some (newIndex cha root v ((cha.getRange v).1 + k - cha.addrPt v)) := by
  have hindex := @positions_interleaving_getElem? cha (fun _ => 0) _ (cha.preorder_nodup (root, 0))
    v hv.2 hdef k hk
  rw [Nat.cast_zero, sub_zero] at hindex
  exact hindex

theorem WellFormed.prePad_eq (h : WellFormed cha) {root : String} (hroot : root ∈ cha.roots) :
    prePad cha (cha.preorder (root, 0)) (fun _ => 0) = fun _ => 0 :=
  prePad_eq_zero fun _ hv _ hchild => h.extends_left ⟨hroot, hv⟩ hchild

end Slots

end RhoFEM.Layout
