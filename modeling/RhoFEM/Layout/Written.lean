import RhoFEM.Layout.Lookups
import RhoFEM.Layout.Spacing
import RhoFEM.Layout.Stored
import RhoFEM.Lib.Simulation

/-! The contents of the new vtables after a run of the pass, in either layout. -/

namespace RhoFEM.Layout

open RhoFEM.CHA RhoFEM.Lib.Fold RhoFEM.Lib.Rounds RhoFEM.Lib.Runs RhoFEM.Lib.Simulation

section Elements

variable {cha : SDBuildCHA} {interleave : Bool} {root : String}

/-- The element of a slot stands as far from the address point as the translation says. -/
theorem WellFormed.cloudElems_getElem? (h : WellFormed cha) {x : Vtbl} (hx : InCloud cha root x)
    {r : Int} (hslot : slot cha x r) : ∃ i : Nat,
      (i : Int) = addressIndex cha interleave root x + relIndex cha interleave x r ∧
        (cloudElems cha interleave root)[i]? = some (x, cha.addrPt x + r) := by
  obtain ⟨hdef, hlo, hhi⟩ := slot_iff.mp hslot
  cases interleave with
  | true =>
    refine ⟨newIndex cha root x r, ?_, ?_⟩
    · rw [← h.storedIndex_interleaved hx.1, h.storedIndex_eq hx hslot]
    · rw [h.cloudElems_interleaved hx.1]
      exact (cloudInterleaving_getElem?_iff hx hslot _).mpr rfl
  | false =>
    have hstart := h.start_le hx
    have hroom := le_orderedIndex (cloudMax cha root) hx.2 hdef 0
    have helem := @ordered_getElem? cha (cloudMax cha root) _ (cha.preorder_nodup (root, 0)) x
      (h.ne_dummy hx) hx.2 hdef ((cha.addrPt x : Int) + r - (cha.getRange x).1).toNat (by omega)
    refine ⟨_, ?_, helem.trans ?_⟩
    · rw [addressIndex_ordered, relIndex, if_neg Bool.false_ne_true]
      omega
    · congr 2
      omega

theorem newElem_of_ok {x : Vtbl} {i : Int} (hx : x ≠ dummyVtable) (hdef : cha.isDefined x)
    (hi : (cha.getRange x).1 ≤ i) {functions : List String} {c : Constant}
    (hok : newVtableElem cha functions (x, i) = .ok c) :
    ∃ elem, oldElem cha (x, i) = some elem ∧ c = renamed cha x elem := by
  have hindex : oldIndex (x, i) = i.toNat := if_pos (by omega)
  have hdefined : cha.isUndefined x = false := by simpa [SDBuildCHA.isDefined] using hdef
  have hread : ¬ (cha.isUndefined x ∨ x = dummyVtable ∨ i.toNat < (cha.getRange x).1) := by
    rw [hdefined]
    simp only [Bool.false_eq_true, false_or, not_or]
    exact ⟨hx, by omega⟩
  unfold newVtableElem at hok
  simp only [hindex, if_neg hread] at hok
  split at hok
  · cases hok
  · rename_i vtable hvtable
    split at hok
    · cases hok
    · rename_i elem hget
      refine ⟨elem, by rw [oldElem, hvtable, Option.bind_some, hget], ?_⟩
      split at hok
      · rename_i hthunk
        simp only [renamed, hthunk]
        exact (Except.ok.inj hok).symm
      · rename_i thunk hthunk
        split at hok
        · simp only [renamed, hthunk]
          exact (Except.ok.inj hok).symm
        · cases hok

end Elements

section Runs

variable {cha : SDBuildCHA} {interleave : Bool} {root : String} {st st' : SDLayoutBuilder}

/-- The state of the second loop after the roots `done`, as far as it is in memory. -/
structure Written (cha : SDBuildCHA) (interleave : Bool) (done : List String)
    (st : SDLayoutBuilder) : Prop where
  interleavingMap : ∀ root ∈ cha.roots, st.interleavingMap root = cloudElems cha interleave root
  elems : ∀ root ∈ done, ∃ functions elems,
    (cloudElems cha interleave root).mapM (newVtableElem cha functions) = .ok elems ∧
      st.cloudStartMap (newVtableName root) = some elems
  defined : ∀ v, (st.newVTableStartAddrMap v).isSome → cha.isDefined v

theorem emitCloud_written (h : emitCloud cha st root = .ok st') : ∃ functions elems,
    (st.interleavingMap root).mapM (newVtableElem cha functions) = .ok elems ∧
      st'.interleavingMap = st.interleavingMap ∧
      st'.cloudStartMap = Function.update st.cloudStartMap (newVtableName root) (some elems) ∧
      ∀ v, (st'.newVTableStartAddrMap v).isSome →
        (st.newVTableStartAddrMap v).isSome ∨ cha.isDefined v := by
  simp only [emitCloud, createNewVTable, bind_eq_ok] at h
  obtain ⟨functions, -, elems, helems, h⟩ := h
  split at h
  · cases h
  · have hrest := foldlM_ok_rule (fun _ t => t.interleavingMap = st.interleavingMap ∧
      t.cloudStartMap = Function.update st.cloudStartMap (newVtableName root) (some elems) ∧
      ∀ v, (t.newVTableStartAddrMap v).isSome →
        (st.newVTableStartAddrMap v).isSome ∨ cha.isDefined v) ?step ⟨rfl, rfl, fun _ => .inl⟩ h
    case step =>
      rintro _ v t t' ⟨hmap, hstart, hdef⟩ - hstep
      obtain ⟨-, rfl⟩ | ⟨start, hv, -, rfl⟩ := storeStartAddr_cases hstep
      · exact ⟨hmap, hstart, hdef⟩
      · refine ⟨hmap, hstart, ?_⟩
        intro w hw
        dsimp only at hw
        by_cases hwv : w = v
        · exact .inr (hwv ▸ hv)
        · rw [Function.update_of_ne hwv] at hw
          exact hdef w hw
    exact ⟨functions, elems, helems, hrest⟩

theorem Written.step {done : List String} (hst : Written cha interleave done st)
    (hroot : root ∈ cha.roots) (hnew : root ∉ done) (hok : emitCloud cha st root = .ok st') :
    Written cha interleave (done ++ [root]) st' := by
  obtain ⟨functions, elems, helems, hmap, hstart, hdef⟩ := emitCloud_written hok
  constructor
  · rw [hmap]
    exact hst.interleavingMap
  · rw [List.forall_mem_append, List.forall_mem_singleton, hstart]
    constructor
    · intro root' hold
      have hne := newVtableName_injective.ne (ne_of_mem_of_not_mem hold hnew)
      rw [Function.update_of_ne hne]
      exact hst.elems root' hold
    · rw [Function.update_self, ← hst.interleavingMap root hroot]
      exact ⟨functions, elems, helems, rfl⟩
  · exact fun v hv => (hdef v hv).elim (hst.defined v) id

theorem Written.rangeCloud {done : List String} (hst : Written cha interleave done st)
    (hok : rangeCloud cha st root = .ok st') : Written cha interleave done st' :=
  rangeCloud_rule (fun _ t => Written cha interleave done t)
    (fun _ _ => ⟨hst.interleavingMap, hst.elems, hst.defined⟩)
    (fun _ _ _ _ _ _ _ ht => ⟨ht.interleavingMap, ht.elems, ht.defined⟩) hok

theorem written_of_build (h : Accepted cha) {functions : List String}
    (hok : buildNewLayouts cha interleave functions = .ok st) :
    Written cha interleave cha.roots st := by
  obtain ⟨st₁, st₂, hlayout, hemit, hrange⟩ := buildNewLayouts_eq_ok.mp hok
  obtain ⟨st₁', hlayout', hlaid⟩ := laid_roots h.toPointed interleave functions
  obtain rfl := Except.ok.inj (hlayout'.symm.trans hlayout)
  have hwritten := foldlM_nodup_ok_rule (fun done t => Written cha interleave done t)
    h.roots_nodup (fun hroot hnew ht hstep => ht.step hroot hnew hstep) ?start hemit
  case start =>
    refine ⟨hlaid.interleavingMap, List.forall_mem_nil _, ?_⟩
    intro v hv
    rw [hlaid.newVTableStartAddrMap] at hv
    cases hv
  exact foldlM_ok_rule (fun _ t => Written cha interleave cha.roots t)
    (fun _ _ _ _ ht _ hstep => ht.rangeCloud hstep) hwritten hrange

/-- The new vtable holds, some words from an address point, the element of that slot. -/
theorem Written.getElem? (hst : Written cha interleave cha.roots st) (h : WellFormed cha)
    {x : Vtbl} (hx : InCloud cha root x) {r : Int} (hslot : slot cha x r) :
    ∃ (elems : List Constant) (i : Nat) (elem : Constant),
      st.cloudStartMap (newVtableName root) = some elems ∧
        (i : Int) = addressIndex cha interleave root x + relIndex cha interleave x r ∧
          oldElem cha (x, cha.addrPt x + r) = some elem ∧
            elems[i]? = some (renamed cha x elem) := by
  obtain ⟨functions, elems, helems, hstart⟩ := hst.elems root hx.1
  obtain ⟨i, hi, hget⟩ := @WellFormed.cloudElems_getElem? cha interleave root h x hx r hslot
  obtain ⟨hdef, hlo, -⟩ := slot_iff.mp hslot
  obtain ⟨c, hc, hok⟩ := (forall₂_getElem? (mapM_eq_ok_iff.mp helems) i).1 _ hget
  obtain ⟨elem, helem, rfl⟩ := newElem_of_ok (h.ne_dummy hx) hdef hlo hok
  exact ⟨elems, i, elem, hstart, hi, helem, hc⟩

theorem Located.placed (hst : Located cha interleave st) (h : Accepted cha) :
    Placed cha interleave st := by
  obtain ⟨st', -, hlaid⟩ := laid_roots h.toPointed interleave []
  intro root v hv hdef
  rw [hst.newLayoutInds hv, ← hlaid.newLayoutInds root hv.1 v hv.2]
  exact hlaid.placed h hv hdef

end Runs

section Rows

variable {cha : SDBuildCHA} {interleave : Bool} {root : String}

/-- Without interleaving, the address points of all clouds are evenly spaced. -/
structure EvenlySpaced (cha : SDBuildCHA) : Prop where
  fits : ∀ root ∈ cha.roots, ((cha.preorder (root, 0)).filter cha.isDefined).IsChain fun v w =>
    sizeAfter cha v + sizeBefore cha w ≤ cloudMax cha root

theorem getElem?_of_isChain {α : Type} {index : α → Nat} {step : Nat} {xs : List α}
    (h : xs.IsChain fun x y => index y = index x + step) {x : α} (hx : xs.head? = some x) {k : Nat}
    {y : α} (hy : xs[k]? = some y) : index y = index x + k * step := by
  induction k generalizing y with
  | zero =>
    rw [List.head?_eq_getElem?] at hx
    obtain rfl := Option.some.inj (hx.symm.trans hy)
    rw [Nat.zero_mul, Nat.add_zero]
  | succ k ih =>
    obtain ⟨hlt, rfl⟩ := List.getElem?_eq_some_iff.mp hy
    rw [List.isChain_iff_getElem.mp h k hlt,
      ih (List.getElem?_eq_getElem (Nat.lt_of_succ_lt hlt)), Nat.succ_mul, Nat.add_assoc]

/-- From one defined sub-vtable to the next is one unit of the alignment. -/
theorem WellFormed.isChain_addressIndex (h : WellFormed cha) (hroot : root ∈ cha.roots)
    (hspaced : interleave = true ∨ EvenlySpaced cha) :
    ((cha.preorder (root, 0)).filter cha.isDefined).IsChain fun v w =>
      addressIndex cha interleave root w =
        addressIndex cha interleave root v + alignmentWords cha interleave root := by
  have hmem : ∀ v ∈ (cha.preorder (root, 0)).filter cha.isDefined,
      InCloud cha root v ∧ cha.isDefined v :=
    fun v hv => ⟨⟨hroot, (List.mem_filter.mp hv).1⟩, (List.mem_filter.mp hv).2⟩
  rw [List.isChain_iff_getElem]
  intro k hk
  have hk' := Nat.lt_of_succ_lt hk
  cases interleave with
  | true =>
    have hindex : ∀ j (hj : j < ((cha.preorder (root, 0)).filter cha.isDefined).length),
        addressIndex cha true root ((cha.preorder (root, 0)).filter cha.isDefined)[j] =
          newIndex cha root (root, 0) 0 + j := by
      intro j hj
      obtain ⟨hcloud, -⟩ := hmem _ (List.getElem_mem hj)
      rw [h.addressIndex_interleaved hroot, h.newIndex_zero hcloud, indMap_eq hcloud.2,
        rank_idxOf (cha.preorder_nodup _) (List.getElem?_eq_getElem hj)]
    rw [hindex _ hk, hindex _ hk', alignmentWords, if_pos rfl, Nat.add_assoc]
  | false =>
    have hspaced := hspaced.resolve_left Bool.false_ne_true
    have hmax : 0 < cloudMax cha root := Nat.succ_pos _
    have hpos : 0 < sizeAfter cha ((cha.preorder (root, 0)).filter cha.isDefined)[k] +
        sizeBefore cha ((cha.preorder (root, 0)).filter cha.isDefined)[k + 1] :=
      Nat.add_pos_left (Nat.succ_pos _) _
    have hfits := List.isChain_iff_getElem.mp (hspaced.fits root hroot) k hk
    rw [addressIndex_ordered, addressIndex_ordered, alignmentWords, if_neg Bool.false_ne_true,
      orderedIndex_filter _ (cha.preorder (root, 0)),
      orderedIndex_filter _ (cha.preorder (root, 0)),
      orderedIndex_succ hmax ((cha.preorder_nodup (root, 0)).filter _)
        (fun v hv => (hmem v hv).2)
        (fun v hv => ⟨h.start_le (hmem v hv).1, h.le_stop (hmem v hv).1⟩)
        (List.getElem?_eq_getElem hk') (List.getElem?_eq_getElem hk) 0,
      alignUp_of_le hpos hfits]

/-- A range of addresses, in steps of the alignment, lists the defined sub-vtables of its part of
the preorder. -/
theorem WellFormed.mem_blockOf_iff (h : WellFormed cha) (hroot : root ∈ cha.roots)
    (hspaced : interleave = true ∨ EvenlySpaced cha) {range : CHA.Range} {b : Address × Nat}
    (hb : blockOf cha interleave root range = some b) (a : Address) :
    (∃ i < b.2, a = (b.1.1, b.1.2 + i * (alignmentWords cha interleave root * wordWidth))) ↔
      ∃ x ∈ cut (cha.preorder (root, 0)) range, cha.isDefined x ∧
        a = addressOf cha interleave root x := by
  obtain ⟨start, hstart, rfl⟩ := Option.map_eq_some_iff.mp hb
  have hchain := h.isChain_addressIndex hroot hspaced
  obtain ⟨before, after, hsplit⟩ :=
    (cut_isInfix (cha.preorder (root, 0)) range).filter cha.isDefined
  rw [← hsplit] at hchain
  replace hchain := hchain.left_of_append.right_of_append
  rw [← List.head?_filter] at hstart
  have haddr : ∀ {k : Nat} {x : Vtbl},
      ((cut (cha.preorder (root, 0)) range).filter cha.isDefined)[k]? = some x →
        addressOf cha interleave root x = (newVtableName root,
          addressIndex cha interleave root start * wordWidth +
            k * (alignmentWords cha interleave root * wordWidth)) := by
    intro k x hx
    rw [addressOf, getElem?_of_isChain hchain hstart hx, Nat.add_mul, Nat.mul_assoc]
  rw [List.countP_eq_length_filter]
  constructor
  · rintro ⟨k, hk, rfl⟩
    have hx := List.getElem?_eq_getElem hk
    obtain ⟨hmem, hdef⟩ := List.mem_filter.mp (List.mem_of_getElem? hx)
    exact ⟨_, hmem, hdef, (haddr hx).symm⟩
  · rintro ⟨x, hmem, hdef, rfl⟩
    obtain ⟨k, hk⟩ := List.mem_iff_getElem?.mp (List.mem_filter.mpr ⟨hmem, hdef⟩)
    exact ⟨k, (List.getElem?_eq_some_iff.mp hk).1, haddr hk⟩

end Rows

end RhoFEM.Layout
