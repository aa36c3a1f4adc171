import RhoFEM.Layout.Indices

/-! The layout without interleaving: the blocks of a cloud in preorder, padded so that all
address points are multiples of one size. -/

namespace RhoFEM.Layout

open RhoFEM.CHA RhoFEM.Lib.Fold RhoFEM.Lib.Rounds

section Ordered

variable (cha : SDBuildCHA)

def alignUp (max n : Nat) : Nat := n + if n % max = 0 then 0 else max - n % max

/-- The index of the address point of `v`, when its block is added to a vtable of some length. -/
def orderedAddrPt (max length : Nat) (v : Vtbl) : Nat :=
  alignUp max (length + (cha.addrPt v - (cha.getRange v).1))

def orderedLength (max length : Nat) (v : Vtbl) : Nat :=
  orderedAddrPt cha max length v - (cha.addrPt v - (cha.getRange v).1) +
    ((cha.getRange v).2 - (cha.getRange v).1 + 1)

/-- The index of the address point of `v`, when the blocks of some nodes are added. -/
def orderedIndex (max : Nat) : Nat → List Vtbl → Vtbl → Nat
  | _, [], _ => 0
  | length, child :: nodes, v =>
    if cha.isUndefined child then orderedIndex max length nodes v
    else if child = v then orderedAddrPt cha max length v
    else orderedIndex max (orderedLength cha max length child) nodes v

variable {cha}

theorem alignUp_eq_zero_mod {max : Nat} (hmax : 0 < max) (n : Nat) : alignUp max n % max = 0 := by
  rw [alignUp]
  split
  · rename_i h
    exact h
  · have hlt := Nat.mod_lt n hmax
    have hdiv := Nat.div_add_mod n max
    have hsum : n + (max - n % max) = max * (n / max + 1) := by
      rw [Nat.mul_succ]
      omega
    rw [hsum, Nat.mul_mod_right]

theorem le_alignUp (max n : Nat) : n ≤ alignUp max n := Nat.le_add_right _ _

theorem orderChild_length (max : Nat) (orderedVtbl : List Interleaving) {v : Vtbl}
    (hdef : cha.isDefined v) :
    (orderChild cha max orderedVtbl v).length = orderedLength cha max orderedVtbl.length v := by
  rw [orderChild, if_neg (SDBuildCHA.isDefined_iff.mp hdef)]
  simp only [List.length_append, List.length_replicate, List.length_map, List.length_range,
    orderedLength, orderedAddrPt, alignUp]
  omega

theorem positions_orderChild_ne (max : Nat) (orderedVtbl : List Interleaving) {child v : Vtbl}
    (hv : v ≠ dummyVtable) (hne : child ≠ v) :
    positions (fun e => e.1 = v) (orderChild cha max orderedVtbl child) =
      positions (fun e => e.1 = v) orderedVtbl := by
  unfold orderChild
  split
  · rfl
  · rw [List.append_assoc, positions_append, List.append_right_eq_self, List.map_eq_nil_iff]
    apply positions_of_forall_not
    intro e he
    rcases List.mem_append.mp he with hpad | helem
    · rw [List.eq_of_mem_replicate hpad]
      simpa using Ne.symm hv
    · obtain ⟨k, -, rfl⟩ := List.mem_map.mp helem
      simpa using hne

/-- The elements of a sub-vtable stand next to each other. -/
theorem positions_orderChild_self (max : Nat) (orderedVtbl : List Interleaving) {v : Vtbl}
    (hv : v ≠ dummyVtable) (hdef : cha.isDefined v) :
    positions (fun e => e.1 = v) (orderChild cha max orderedVtbl v) =
      positions (fun e => e.1 = v) orderedVtbl ++
        (List.range ((cha.getRange v).2 - (cha.getRange v).1 + 1)).map
          (orderedAddrPt cha max orderedVtbl.length v -
            (cha.addrPt v - (cha.getRange v).1) + ·) := by
  have hstart : orderedAddrPt cha max orderedVtbl.length v - (cha.addrPt v - (cha.getRange v).1) =
      orderedVtbl.length +
        if (orderedVtbl.length + (cha.addrPt v - (cha.getRange v).1)) % max = 0 then 0
        else max - (orderedVtbl.length + (cha.addrPt v - (cha.getRange v).1)) % max := by
    rw [orderedAddrPt, alignUp]
    omega
  unfold orderChild
  rw [if_neg (SDBuildCHA.isDefined_iff.mp hdef)]
  dsimp only
  generalize hpad : List.replicate _ (dummyVtable, (0 : Int)) = pad
  have hlength := congrArg List.length hpad
  rw [List.length_replicate] at hlength
  have hnone : positions (fun e : Interleaving => e.1 = v) pad = [] := by
    apply positions_of_forall_not
    intro e he
    rw [← hpad] at he
    rw [List.eq_of_mem_replicate he]
    simpa using Ne.symm hv
  generalize helems : List.map (fun i => (v, ((((cha.getRange v).1 + i : Nat)) : Int))) _ = elems
  have hself : positions (fun e : Interleaving => e.1 = v) elems = List.range elems.length := by
    apply positions_of_forall
    intro e he
    rw [← helems] at he
    obtain ⟨k, -, rfl⟩ := List.mem_map.mp he
    exact decide_eq_true rfl
  rw [positions_append, positions_append, hnone, List.map_nil, List.append_nil, hself, ← helems,
    List.length_map, List.length_range, List.length_append, hstart, hlength]

theorem positions_ordered_notMem (max : Nat) {nodes : List Vtbl} {v : Vtbl} (hv : v ≠ dummyVtable)
    (hmem : v ∉ nodes) (orderedVtbl : List Interleaving) :
    positions (fun e => e.1 = v) (nodes.foldl (orderChild cha max) orderedVtbl) =
      positions (fun e => e.1 = v) orderedVtbl := by
  induction nodes generalizing orderedVtbl with
  | nil => rfl
  | cons n nodes ih =>
    obtain ⟨hne, hrest⟩ := not_or.mp (mt List.mem_cons.mpr hmem)
    rw [List.foldl_cons, ih hrest, positions_orderChild_ne max orderedVtbl hv (Ne.symm hne)]

theorem positions_ordered (max : Nat) {nodes : List Vtbl} (hnodes : nodes.Nodup) {v : Vtbl}
    (hv : v ≠ dummyVtable) (hmem : v ∈ nodes) (hdef : cha.isDefined v)
    (orderedVtbl : List Interleaving) :
    positions (fun e => e.1 = v) (nodes.foldl (orderChild cha max) orderedVtbl) =
      positions (fun e => e.1 = v) orderedVtbl ++
        (List.range ((cha.getRange v).2 - (cha.getRange v).1 + 1)).map
          (orderedIndex cha max orderedVtbl.length nodes v -
            (cha.addrPt v - (cha.getRange v).1) + ·) := by
  have hdefined : cha.isUndefined v = false := by simpa [SDBuildCHA.isDefined] using hdef
  induction nodes generalizing orderedVtbl with
  | nil => exact absurd hmem List.not_mem_nil
  | cons n nodes ih =>
    obtain ⟨hn, hrest⟩ := List.nodup_cons.mp hnodes
    rw [List.foldl_cons, orderedIndex]
    rcases List.mem_cons.mp hmem with rfl | hmem
    · rw [positions_ordered_notMem max hv hn, if_neg (by simp [hdefined]), if_pos rfl]
      exact positions_orderChild_self max orderedVtbl hv hdef
    · have hne : n ≠ v := fun heq => hn (heq ▸ hmem)
      rw [ih hrest hmem, positions_orderChild_ne max orderedVtbl hv hne, if_neg hne]
      by_cases hundef : cha.isUndefined n
      · rw [if_pos hundef, orderChild, if_pos hundef]
      · rw [if_neg hundef,
          orderChild_length max orderedVtbl (SDBuildCHA.isDefined_iff.mpr hundef)]

theorem le_orderedLength (max length : Nat) (v : Vtbl) :
    length ≤ orderedLength cha max length v :=
  (Nat.le_sub_of_add_le (le_alignUp max _)).trans (Nat.le_add_right _ _)

/-- There is room for the elements before the address point. -/
theorem le_orderedIndex (max : Nat) {nodes : List Vtbl} {v : Vtbl} (hmem : v ∈ nodes)
    (hdef : cha.isDefined v) (length : Nat) :
    length + (cha.addrPt v - (cha.getRange v).1) ≤ orderedIndex cha max length nodes v := by
  induction nodes generalizing length with
  | nil => exact absurd hmem List.not_mem_nil
  | cons n nodes ih =>
    rw [orderedIndex]
    by_cases hundef : cha.isUndefined n
    · rw [if_pos hundef]
      apply ih
      apply (List.mem_cons.mp hmem).resolve_left
      rintro rfl
      simp [SDBuildCHA.isDefined, hundef] at hdef
    · rw [if_neg hundef]
      split
      · exact le_alignUp max _
      · rename_i hne
        have hrest := ih ((List.mem_cons.mp hmem).resolve_left (Ne.symm hne))
          (orderedLength cha max length n)
        have hgrow : length ≤ orderedLength cha max length n := le_orderedLength max length n
        omega

theorem orderedIndex_mod {max : Nat} (hmax : 0 < max) (nodes : List Vtbl) (v : Vtbl)
    (length : Nat) : orderedIndex cha max length nodes v % max = 0 := by
  induction nodes generalizing length with
  | nil => exact Nat.zero_mod max
  | cons n nodes ih =>
    rw [orderedIndex]
    split
    · exact ih length
    · split
      · exact alignUp_eq_zero_mod hmax _
      · exact ih _

theorem orderedIndex_lt (max : Nat) {nodes : List Vtbl} (hnodes : nodes.Nodup)
    (hstop : ∀ n ∈ nodes, cha.addrPt n ≤ (cha.getRange n).2) {v w : Vtbl} (hv : v ∈ nodes)
    (hw : w ∈ nodes) (hdefv : cha.isDefined v) (hdefw : cha.isDefined w)
    (hlt : nodes.idxOf v < nodes.idxOf w) (length : Nat) :
    orderedIndex cha max length nodes v < orderedIndex cha max length nodes w := by
  induction nodes generalizing length with
  | nil => exact absurd hv List.not_mem_nil
  | cons n nodes ih =>
    obtain ⟨hn, hrest⟩ := List.nodup_cons.mp hnodes
    have hnw : n ≠ w := by
      rintro rfl
      simp at hlt
    have hw' : w ∈ nodes := (List.mem_cons.mp hw).resolve_left (Ne.symm hnw)
    rw [orderedIndex, orderedIndex, if_neg hnw]
    rcases List.mem_cons.mp hv with rfl | hv'
    · have hdefined : ¬ cha.isUndefined v := SDBuildCHA.isDefined_iff.mp hdefv
      rw [if_neg hdefined, if_neg hdefined, if_pos rfl]
      have hroom := le_orderedIndex max hw' hdefw (orderedLength cha max length v)
      have hle := hstop v (by simp)
      have hlength : orderedAddrPt cha max length v < orderedLength cha max length v := by
        rw [orderedLength]
        omega
      omega
    · have hne : n ≠ v := fun heq => hn (heq ▸ hv')
      rw [List.idxOf_cons_ne _ hne, List.idxOf_cons_ne _ hnw] at hlt
      have hrec := ih hrest (fun m hm => hstop m (by simp [hm])) hv' hw'
        (Nat.lt_of_succ_lt_succ hlt)
      rw [if_neg hne]
      split
      · exact hrec _
      · exact hrec _

end Ordered

section Modes

variable (cha : SDBuildCHA) (interleave : Bool) (root : String)

def cloudMax : Nat :=
  roundUp ((cha.preorder (root, 0)).foldl (fun max child =>
    let r := cha.getRange child
    if r.2 - r.1 + 1 > max then r.2 - r.1 + 1 else max) 0)

/-- The words from one multiple of the alignment to the next. -/
def alignmentWords : Nat := if interleave then 1 else cloudMax cha root

/-- The alignment in bytes, as an `unsigned`. -/
def alignment : Nat := alignmentWords cha interleave root * wordWidth % 2 ^ 32

variable {cha interleave root}

theorem alignmentWords_pos : 0 < alignmentWords cha interleave root := by
  rw [alignmentWords]
  split
  · exact Nat.one_pos
  · exact Nat.succ_pos _

@[simp] theorem alignment_interleaved : alignment cha true root = wordWidth := rfl

theorem alignment_eq (h : alignmentWords cha interleave root * wordWidth < 2 ^ 32) :
    alignment cha interleave root = alignmentWords cha interleave root * wordWidth :=
  Nat.mod_eq_of_lt h

end Modes

end RhoFEM.Layout
