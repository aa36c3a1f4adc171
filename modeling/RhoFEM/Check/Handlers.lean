import RhoFEM.CHA.CloudSizes
import RhoFEM.CHA.Hierarchy
import RhoFEM.Check.ConstantVptr
import RhoFEM.Layout.Ranges
import RhoFEM.Layout.Spacing
import RhoFEM.Layout.Steps
import RhoFEM.Lib.HighBit

/-! The range checks that the two lowerings of a vtable check emit, and what becomes of those
with a constant vtable pointer. -/

namespace RhoFEM.CHA.SDBuildCHA

variable (cha : SDBuildCHA)

/-- The only part of `derived` with the first part of `base` among its ancestors. -/
def getSubVTableIndex (derived base : String) : Option Nat :=
  match (List.range ((cha.subObjNameMap.lookup derived).getD []).length).filter
    fun ind => cha.isAncestor (base, 0) (derived, ind) = some true with
  | [ind] => some ind
  | _ => none

end RhoFEM.CHA.SDBuildCHA

namespace RhoFEM.Check

open RhoFEM.CHA RhoFEM.Layout RhoFEM.Lib.Fold RhoFEM.Lib.HighBit

/-- The arguments of `sd_subst_check_range`, apart from the pointer. -/
structure RangeCheck where
  start : Address
  width : Nat
  alignment : Nat
  deriving DecidableEq

section Handlers

variable (cha : SDBuildCHA) (st : SDLayoutBuilder)

/-- The sub-vtable of a call site of `sd_check_vtbl`. -/
def checkVtbl (className preciseClassName : String) : Vtbl :=
  if cha.knowsAbout (className, 0) ∧ preciseClassName ≠ className then
    match cha.getSubVTableIndex preciseClassName className with
    | some ind => (preciseClassName, ind)
    | none => (className, 0)
  else (className, 0)

/-- The sub-vtable of a call site of `sd_get_checked_vptr`, which also tries the classes in the
other order. -/
def checkedVptr (className preciseClassName : String) : Vtbl :=
  if cha.knowsAbout (className, 0) ∧ preciseClassName ≠ className then
    match cha.getSubVTableIndex preciseClassName className with
    | some ind => (preciseClassName, ind)
    | none =>
      match cha.getSubVTableIndex className preciseClassName with
      | some ind => (className, ind)
      | none => (className, 0)
  else (className, 0)

def alignmentOf (vtbl : Vtbl) : Except Layout.Failure Nat :=
  match cha.ancestorMap vtbl with
  | none => .error .missingAncestor
  | some root =>
    match st.alignmentMap root with
    | none => .error .missingAlignment
    | some alignment => .ok alignment

/-- Without a start the check is replaced by false. -/
def handleSDCheckVtbl (cloudSizeMap : CloudSizeMap) (className preciseClassName : String) :
    Except Layout.Failure (List RangeCheck) :=
  let vtbl := checkVtbl cha className preciseClassName
  if cha.knowsAbout vtbl ∧ (¬ cha.isUndefined vtbl ∨ (cha.firstDefinedChild vtbl).isSome) then
    match st.newVTableStartAddrMap (representative cha vtbl) with
    | none => .ok []
    | some start => do
      let alignment ← alignmentOf cha st vtbl
      return [⟨start, getCloudSize cloudSizeMap vtbl.1, alignment⟩]
  else .ok []

/-- The checks are tried one after the other, those of wide ranges first. -/
def handleSDGetCheckedVtbl (className preciseClassName : String) :
    Except Layout.Failure (List RangeCheck) :=
  let vtbl := checkedVptr cha className preciseClassName
  if st.memRangeMap vtbl = [] then .ok []
  else do
    let alignment ← alignmentOf cha st vtbl
    return ((st.memRangeMap vtbl).mergeSort fun a b => b.2 ≤ a.2).map fun r =>
      ⟨r.1, r.2, alignment⟩

/-- A check that one of the two lowerings emits. -/
def Emits (cloudSizeMap : CloudSizeMap) (check : RangeCheck) : Prop :=
  ∃ className preciseClassName checks, check ∈ checks ∧
    (handleSDCheckVtbl cha st cloudSizeMap className preciseClassName = .ok checks ∨
      handleSDGetCheckedVtbl cha st className preciseClassName = .ok checks)

end Handlers

namespace RangeCheck

variable (check : RangeCheck)

def startOff : BitVec 64 := BitVec.ofNat 64 check.start.2

/-- The check is replaced by true. -/
def folds (V : Value) : Bool :=
  V.validConstVptr check.start.1 check.startOff (BitVec.ofNat 64 check.width) 0

/-- The comparison that is emitted otherwise. -/
def compares (V : Value) (run : Execution) : Bool :=
  inRange (V.eval run) (run.address check.start.1 + check.startOff) (BitVec.ofNat 64 check.width)
    (BitVec.ofNat 64 check.alignment)

end RangeCheck

section Sizes

variable {cha : SDBuildCHA}

theorem calculateChildrenCounts_lt (fuel : Nat) {v : Vtbl} {m : CloudSizeMap}
    {st : Nat × CloudSizeMap} (h : calculateChildrenCounts cha fuel m v = .ok st)
    (hm : ∀ x n, m x = some n → n < 2 ^ 32) :
    st.1 < 2 ^ 32 ∧ ∀ x n, st.2 x = some n → n < 2 ^ 32 := by
  induction fuel generalizing v m st with
  | zero => cases h
  | succ fuel ih =>
    rw [calculateChildrenCounts, bind_eq_ok] at h
    obtain ⟨⟨count, stored⟩, hfold, h⟩ := h
    obtain rfl := Except.ok.inj h
    have hall := foldlM_ok_rule (fun _ (t : Nat × CloudSizeMap) =>
      t.1 < 2 ^ 32 ∧ ∀ x n, t.2 x = some n → n < 2 ^ 32) ?step ⟨?start, hm⟩ hfold
    case step =>
      rintro _ _ _ _ ht _ hstep
      rw [bind_eq_ok] at hstep
      obtain ⟨t, hchild, hstep⟩ := hstep
      obtain rfl := Except.ok.inj hstep
      exact ⟨Nat.mod_lt _ (Nat.two_pow_pos 32), (ih hchild ht.2).2⟩
    case start =>
      dsimp only
      split
      · exact Nat.one_lt_two_pow (by omega)
      · exact Nat.two_pow_pos 32
    refine ⟨hall.1, ?_⟩
    dsimp only
    intro x n hx
    by_cases hxv : x = v
    · subst hxv
      rw [Function.update_self, Option.some.injEq] at hx
      exact hx ▸ hall.1
    · rw [Function.update_of_ne hxv] at hx
      exact hall.2 x n hx

theorem getCloudSize_lt {cloudSizeMap : CloudSizeMap}
    (h : calculateCloudSizes cha = .ok cloudSizeMap) (vtbl : String) :
    getCloudSize cloudSizeMap vtbl < 2 ^ 32 := by
  have hall : ∀ x n, cloudSizeMap x = some n → n < 2 ^ 32 := foldlM_ok_rule
    (fun _ (m : CloudSizeMap) => ∀ x n, m x = some n → n < 2 ^ 32) ?step (fun _ _ h => by cases h) h
  case step =>
    rintro _ _ _ _ hm _ hstep
    obtain ⟨t, hcounts, rfl⟩ := map_eq_ok.mp hstep
    exact (calculateChildrenCounts_lt _ hcounts hm).2
  rw [getCloudSize]
  cases hsize : cloudSizeMap (vtbl, 0) with
  | none => exact Nat.two_pow_pos 32
  | some n => exact hall _ n hsize

end Sizes

section States

variable {cha : SDBuildCHA} {interleave : Bool} {root : String} {st st' : SDLayoutBuilder}

/-- In all states of the pass addresses are those of words, and widths count sub-vtables. -/
structure WordAddressed (cha : SDBuildCHA) (interleave : Bool) (st : SDLayoutBuilder) : Prop where
  alignmentMap : ∀ root size, st.alignmentMap root = some size →
    root ∈ cha.roots ∧ size = alignment cha interleave root
  newVTableStartAddrMap : ∀ v start, st.newVTableStartAddrMap v = some start →
    wordWidth ∣ start.2
  memRangeMap : ∀ v, ∀ r ∈ st.memRangeMap v, wordWidth ∣ r.1.2 ∧
    ∃ root ∈ cha.roots, r.2 ≤ (cha.preorder (root, 0)).length

theorem WordAddressed.layoutCloud (hst : WordAddressed cha interleave st) (hroot : root ∈ cha.roots)
    (h : layoutCloud cha interleave st root = .ok st') : WordAddressed cha interleave st' := by
  obtain ⟨pads, elems, rfl⟩ := layoutCloud_cases h
  refine ⟨?_, hst.newVTableStartAddrMap, hst.memRangeMap⟩
  refine (Function.forall_update_iff st.alignmentMap (p := fun root' stored => ∀ size,
    stored = some size → root' ∈ cha.roots ∧
      size = alignment cha interleave root')).mpr ⟨?_, ?_⟩
  · exact fun size hsome => ⟨hroot, (Option.some.inj hsome).symm⟩
  · exact fun root' _ => hst.alignmentMap root'

theorem newVtblAddressConst_dvd {v : Vtbl} {start : Address}
    (h : newVtblAddressConst cha st v = .ok start) : wordWidth ∣ start.2 := by
  unfold newVtblAddressConst at h
  split at h
  · cases h
  · split at h
    · cases h
    · split at h
      · cases h
      · split at h
        · cases h
        · split at h
          · obtain rfl := Except.ok.inj h
            exact Nat.dvd_mul_left ..
          · cases h

theorem WordAddressed.emitCloud (hst : WordAddressed cha interleave st)
    (h : emitCloud cha st root = .ok st') : WordAddressed cha interleave st' := by
  refine emitCloud_rule (fun _ t => WordAddressed cha interleave t) ?cloud ?skip ?store h
  case cloud => exact fun _ _ => ⟨hst.alignmentMap, hst.newVTableStartAddrMap, hst.memRangeMap⟩
  case skip => exact fun _ _ _ _ ht => ht
  case store =>
    intro _ v t start _ _ hstart ht
    refine ⟨ht.alignmentMap, ?_, ht.memRangeMap⟩
    refine (Function.forall_update_iff t.newVTableStartAddrMap (p := fun _ stored =>
      ∀ start, stored = some start → wordWidth ∣ start.2)).mpr ⟨?_, ?_⟩
    · exact fun a ha => Option.some.inj ha ▸ newVtblAddressConst_dvd hstart
    · exact fun w _ => ht.newVTableStartAddrMap w

theorem memRange_bounds {nodes : List Vtbl} {range : CHA.Range} {ranges : List (Address × Nat)}
    (h : memRange cha st nodes range = .ok ranges) :
    ∀ r ∈ ranges, wordWidth ∣ r.1.2 ∧ r.2 ≤ nodes.length := by
  simp only [memRange] at h
  have hcount : ((nodes.drop range.1).take (range.2 - range.1)).countP cha.isDefined ≤
      nodes.length :=
    List.countP_le_length.trans ((List.take_sublist ..).trans (List.drop_sublist ..)).length_le
  split at h
  · obtain rfl := Except.ok.inj h
    exact List.forall_mem_nil _
  · cases h
  · rw [bind_eq_ok] at h
    obtain ⟨address, haddress, h⟩ := h
    obtain rfl := Except.ok.inj h
    rw [List.forall_mem_singleton]
    exact ⟨newVtblAddressConst_dvd haddress, hcount⟩

theorem WordAddressed.rangeCloud (hst : WordAddressed cha interleave st) (hroot : root ∈ cha.roots)
    (h : rangeCloud cha st root = .ok st') : WordAddressed cha interleave st' := by
  refine rangeCloud_rule (fun _ t => WordAddressed cha interleave t) ?ranges ?mem h
  case ranges => exact fun _ _ => ⟨hst.alignmentMap, hst.newVTableStartAddrMap, hst.memRangeMap⟩
  case mem =>
    intro _ v t ranges _ _ hranges ht
    refine ⟨ht.alignmentMap, ht.newVTableStartAddrMap, ?_⟩
    refine (Function.forall_update_iff t.memRangeMap (p := fun _ stored => ∀ r ∈ stored,
      wordWidth ∣ r.1.2 ∧ ∃ root ∈ cha.roots, r.2 ≤ (cha.preorder (root, 0)).length)).mpr ⟨?_, ?_⟩
    · rw [List.forall_mem_append]
      refine ⟨ht.memRangeMap v, ?_⟩
      intro r hr
      obtain ⟨rs, hrs, hr⟩ := List.mem_flatten.mp hr
      obtain ⟨range, -, hrange⟩ := exists_of_mem_mapM_eq_ok hranges rs hrs
      obtain ⟨hdvd, hle⟩ := memRange_bounds hrange r hr
      exact ⟨hdvd, root, hroot, hle⟩
    · exact fun w _ => ht.memRangeMap w

theorem wordAddressed_of_build {functions : List String}
    (h : buildNewLayouts cha interleave functions = .ok st) : WordAddressed cha interleave st := by
  obtain ⟨st₁, st₂, hlayout, hemit, hrange⟩ := buildNewLayouts_eq_ok.mp h
  have hinit : WordAddressed cha interleave (.init functions) := by
    constructor
    · intro root size h
      cases h
    · intro v start h
      cases h
    · exact fun v => List.forall_mem_nil _
  have hlaid : WordAddressed cha interleave st₁ := foldlM_ok_rule
    (fun _ t => WordAddressed cha interleave t)
    (fun _ _ _ _ ht hroot hstep => ht.layoutCloud hroot hstep) hinit hlayout
  have hemitted : WordAddressed cha interleave st₂ := foldlM_ok_rule
    (fun _ t => WordAddressed cha interleave t)
    (fun _ _ _ _ ht _ hstep => ht.emitCloud hstep) hlaid hemit
  exact foldlM_ok_rule (fun _ t => WordAddressed cha interleave t)
    (fun _ _ _ _ ht hroot hstep => ht.rangeCloud hroot hstep) hemitted hrange

theorem roundUp_two_pow {size : Nat} (h : size - 1 < 2 ^ 64) : ∃ b, roundUp size = 2 ^ b := by
  have hfill : roundUp size = fill (size - 1) + 1 := rfl
  obtain ⟨b, hb, -⟩ := fill_add_one h
  exact ⟨b, hfill.trans hb⟩

/-- The alignment of a cloud is a power of two, as sizes are words. -/
theorem cloudMax_two_pow (h : ∀ v ∈ cha.preorder (root, 0), (cha.getRange v).2 < 2 ^ 64) :
    ∃ b, cloudMax cha root = 2 ^ b := by
  apply roundUp_two_pow
  refine List.foldlRecOn (motive := fun max : Nat => max - 1 < 2 ^ 64) _ _ (by decide) ?_
  intro max hmax child hchild
  have hlt := h child hchild
  dsimp only
  split <;> omega

theorem alignment_two_pow (h : alignmentWords cha interleave root * wordWidth ≤ 2 ^ 29) :
    ∃ a, 3 ≤ a ∧ a ≤ 29 ∧ alignmentWords cha interleave root * wordWidth = 2 ^ a := by
  have hwords : ∃ b, alignmentWords cha interleave root = 2 ^ b := by
    cases interleave with
    | true => exact ⟨0, rfl⟩
    | false =>
      rw [alignmentWords, if_neg Bool.false_ne_true, cloudMax] at h ⊢
      generalize (cha.preorder (root, 0)).foldl _ 0 = size at h ⊢
      have hfill : roundUp size = fill (size - 1) + 1 := rfl
      have hle := le_fill (size - 1)
      apply roundUp_two_pow
      rw [hfill, wordWidth] at h
      omega
  obtain ⟨b, hb⟩ := hwords
  have hpow : alignmentWords cha interleave root * wordWidth = 2 ^ (b + 3) := by
    rw [hb, Nat.pow_add]
    rfl
  rw [hpow] at h
  exact ⟨b + 3, Nat.le_add_left 3 b, (Nat.pow_le_pow_iff_right (by omega)).mp h, hpow⟩

/-- What holds of every check that is emitted after the pass. -/
theorem Emits.bounds {functions : List String} {cloudSizeMap : CloudSizeMap} {check : RangeCheck}
    (hemits : Emits cha st cloudSizeMap check)
    (hst : buildNewLayouts cha interleave functions = .ok st)
    (hsizes : calculateCloudSizes cha = .ok cloudSizeMap)
    (hcount : ∀ root ∈ cha.roots, (cha.preorder (root, 0)).length < 2 ^ 32) :
    wordWidth ∣ check.start.2 ∧ check.width < 2 ^ 32 ∧
      ∃ root ∈ cha.roots, check.alignment = alignment cha interleave root := by
  have hword := wordAddressed_of_build hst
  have halign : ∀ {vtbl size}, alignmentOf cha st vtbl = .ok size →
      ∃ root ∈ cha.roots, size = alignment cha interleave root := by
    intro vtbl size h
    unfold alignmentOf at h
    split at h
    · cases h
    · split at h
      · cases h
      · rename_i root _ _ size hsize
        obtain rfl := Except.ok.inj h
        exact ⟨root, hword.alignmentMap root size hsize⟩
  obtain ⟨className, preciseClassName, checks, hcheck, h | h⟩ := hemits
  · unfold handleSDCheckVtbl at h
    dsimp only at h
    split at h
    · split at h
      · obtain rfl := Except.ok.inj h
        cases hcheck
      · rename_i start hstart
        rw [bind_eq_ok] at h
        obtain ⟨size, hsize, h⟩ := h
        obtain rfl := Except.ok.inj h
        obtain rfl := List.mem_singleton.mp hcheck
        exact ⟨hword.newVTableStartAddrMap _ start hstart, getCloudSize_lt hsizes _,
          halign hsize⟩
    · obtain rfl := Except.ok.inj h
      cases hcheck
  · unfold handleSDGetCheckedVtbl at h
    dsimp only at h
    split at h
    · obtain rfl := Except.ok.inj h
      cases hcheck
    · rw [bind_eq_ok] at h
      obtain ⟨size, hsize, h⟩ := h
      obtain rfl := Except.ok.inj h
      obtain ⟨r, hr, rfl⟩ := List.mem_map.mp hcheck
      obtain ⟨hdvd, root, hroot, hle⟩ := hword.memRangeMap _ r (List.mem_mergeSort.mp hr)
      exact ⟨hdvd, hle.trans_lt (hcount root hroot), halign hsize⟩

end States

/-- Replacing a check by true is sound exactly where the distances that the pointer can have from
the start are multiples of the alignment of the cloud; interleaved clouds have no others. -/
theorem constantFold_sound_iff {cha : SDBuildCHA} {interleave : Bool} {functions : List String}
    {st : SDLayoutBuilder} {cloudSizeMap : CloudSizeMap}
    (hst : buildNewLayouts cha interleave functions = .ok st)
    (hsizes : calculateCloudSizes cha = .ok cloudSizeMap)
    (hcount : ∀ root ∈ cha.roots, (cha.preorder (root, 0)).length < 2 ^ 32)
    (halign : ∀ root ∈ cha.roots, alignmentWords cha interleave root * wordWidth ≤ 2 ^ 29)
    {check : RangeCheck} (hemits : Emits cha st cloudSizeMap check) (V : Value) :
    ((check.folds V = true → ∀ run, check.compares V run = true) ↔
      FoldsSoundly check.start.1 check.startOff (BitVec.ofNat 64 check.width) check.alignment V) ∧
    (interleave = true → check.alignment = wordWidth) := by
  obtain ⟨hdvd, hwidth, root, hroot, halignment⟩ := hemits.bounds hst hsizes hcount
  obtain ⟨a, ha, ha', hpow⟩ := alignment_two_pow (halign root hroot)
  rw [alignment_eq ((halign root hroot).trans_lt (by decide))] at halignment
  have hfits : check.width * 2 ^ a < 2 ^ 64 := by
    calc check.width * 2 ^ a ≤ check.width * 2 ^ 29 :=
          Nat.mul_le_mul_left _ (Nat.pow_le_pow_right Nat.two_pos ha')
      _ < 2 ^ 32 * 2 ^ 29 := Nat.mul_lt_mul_of_pos_right hwidth (Nat.two_pow_pos 29)
      _ < 2 ^ 64 := by rw [← Nat.pow_add]; exact Nat.pow_lt_pow_right (by omega) (by omega)
  have hstart : 8 ∣ check.startOff.toNat := by
    rw [RangeCheck.startOff, BitVec.toNat_ofNat]
    exact (Nat.dvd_mod_iff (by decide)).mpr hdvd
  constructor
  · have hsound := validConstVptr_sound_iff check.start.1 ha (by omega) hfits hstart V
    rw [← hpow, ← halignment] at hsound
    exact hsound
  · rintro rfl
    rw [halignment, alignmentWords, if_pos rfl, Nat.one_mul]

/-- Each class has two elements, and the second is the address point. -/
def pairClasses : List Nmd :=
  [onePart "_ZTV1A" 1 [("", 0)], onePart "_ZTV1B" 1 [("_ZTV1A", 0)]]

def pairVTables (_ : String) : Option (List Constant) := some [.null, .bitCast "_ZN1A1fEv"]

/-- A pointer to the word behind the address point of `A`. -/
def behindAddressPoint : Value := .bitCast (.gep (.globalVariable "_SD_ZTV1A") 24)

theorem pair_emits {cha : SDBuildCHA} (hcha : buildClouds pairVTables pairClasses = .ok cha) :
    ∃ st cloudSizeMap, buildNewLayouts cha false [] = .ok st ∧
      calculateCloudSizes cha = .ok cloudSizeMap ∧
      Emits cha st cloudSizeMap ⟨("_SD_ZTV1A", 16), 2, 16⟩ := by
  have hok := eq_ok_of_isOk (x := buildClouds pairVTables pairClasses) .empty (by decide)
  obtain rfl := Except.ok.inj (hok.symm.trans hcha)
  refine ⟨_, _, eq_ok_of_isOk (.init []) (by decide), eq_ok_of_isOk (fun _ => none) (by decide), ?_⟩
  refine ⟨"_ZTV1A", "_ZTV1A", [⟨("_SD_ZTV1A", 16), 2, 16⟩], List.mem_singleton_self _, .inl ?_⟩
  decide

theorem constantFold_sound_iff_pair : ∃ cha st cloudSizeMap,
    buildClouds pairVTables pairClasses = .ok cha ∧ buildNewLayouts cha false [] = .ok st ∧
      calculateCloudSizes cha = .ok cloudSizeMap ∧ ∃ check : RangeCheck,
        Emits cha st cloudSizeMap check ∧ ∀ V,
          ((check.folds V = true → ∀ run, check.compares V run = true) ↔
            FoldsSoundly check.start.1 check.startOff (BitVec.ofNat 64 check.width)
              check.alignment V) ∧
          (false = true → check.alignment = wordWidth) := by
  have hcha := eq_ok_of_isOk (x := buildClouds pairVTables pairClasses) .empty (by decide)
  obtain ⟨st, cloudSizeMap, hst, hsizes, hemits⟩ := pair_emits hcha
  exact ⟨_, st, cloudSizeMap, hcha, hst, hsizes, _, hemits,
    constantFold_sound_iff hst hsizes (by decide) (by decide) hemits⟩

/-- The word behind an address point is let pass without the comparison, which would fail. -/
theorem constantFold_admits_word : ∃ cha st cloudSizeMap check run,
    buildClouds pairVTables pairClasses = .ok cha ∧ buildNewLayouts cha false [] = .ok st ∧
      calculateCloudSizes cha = .ok cloudSizeMap ∧ Emits cha st cloudSizeMap check ∧
        check.folds behindAddressPoint = true ∧
          check.compares behindAddressPoint run = false := by
  have hcha := eq_ok_of_isOk (x := buildClouds pairVTables pairClasses) .empty (by decide)
  obtain ⟨st, cloudSizeMap, hst, hsizes, hemits⟩ := pair_emits hcha
  exact ⟨_, st, cloudSizeMap, _, ⟨fun _ => 0x1000, fun _ => true, fun _ => 0⟩, hcha, hst, hsizes,
    hemits, by decide, by decide⟩

end RhoFEM.Check
