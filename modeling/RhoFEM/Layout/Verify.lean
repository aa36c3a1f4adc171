import RhoFEM.Layout.Padded

/-! The verifier of the new vtables, and what it tells about the lists that it is given. -/

namespace RhoFEM.Layout

open RhoFEM.CHA RhoFEM.Lib.Fold

/-- A number stored as an unsigned word. -/
def word (x : ℤ) : Nat := (x % (2 : ℤ) ^ 64).toNat

theorem word_natCast {n : Nat} (h : n < 2 ^ 64) : word n = n := by
  rw [word, Int.emod_eq_of_lt (Int.natCast_nonneg n) (by exact_mod_cast h), Int.toNat_natCast]

theorem word_lt (x : ℤ) : word x < 2 ^ 64 := by
  have hlt := Int.emod_lt_of_pos x (show (0 : ℤ) < 2 ^ 64 by positivity)
  have hle := Int.emod_nonneg x (show (2 : ℤ) ^ 64 ≠ 0 by positivity)
  rw [word]
  omega

theorem word_inj {x y : ℤ} (h : word x = word y) : (2 : ℤ) ^ 64 ∣ x - y := by
  have hx := Int.emod_nonneg x (show (2 : ℤ) ^ 64 ≠ 0 by positivity)
  have hy := Int.emod_nonneg y (show (2 : ℤ) ^ 64 ≠ 0 by positivity)
  rw [word, word] at h
  exact Int.ModEq.dvd (Int.ModEq.symm (show x % 2 ^ 64 = y % 2 ^ 64 by omega))

section Verify

/-- For each sub-vtable its old indices, each with the new one. -/
abbrev NewIndMap := Vtbl → List (Nat × Nat)

def addIndex (st : NewIndMap × Nat) (elem : Interleaving) : Option (NewIndMap × Nat) :=
  if elem.1 = dummyVtable then some st
  else if ((st.1 elem.1).lookup (word elem.2)).isSome then none
  else some (Function.update st.1 elem.1 (st.1 elem.1 ++ [(word elem.2, st.2)]), st.2 + 1)

/-- There is no map when an element appears twice. -/
def newIndMap (interleaving : List Interleaving) : Option NewIndMap :=
  (interleaving.foldlM addIndex (fun _ => [], 0)).map Prod.fst

/-- A missing index is inserted, and reads as zero. -/
def indexAt (m : NewIndMap) (v : Vtbl) (pos : ℤ) : Nat := ((m v).lookup (word pos)).getD 0

variable (cha : SDBuildCHA) (prePadMap : Vtbl → Nat)

def oldVtblSize (n : Vtbl) : Nat :=
  word ((cha.getRange n).2 - ((cha.getRange n).1 - prePadMap n) + 1)

def checkDense (m : NewIndMap) (n : Vtbl) : Bool :=
  cha.isUndefined n ||
    match ((m n).map Prod.fst).min?, ((m n).map Prod.fst).max? with
    | some min, some max =>
      word ((max : ℤ) - min + 1) = oldVtblSize cha prePadMap n &&
        (m n).length = oldVtblSize cha prePadMap n
    | _, _ => false

/-- The edges between defined sub-vtables that do not lead backwards. -/
def checkEdges (preorder : List Vtbl) (check : Vtbl → Vtbl → Bool) : Bool :=
  preorder.all fun parent => cha.isUndefined parent || (cha.children parent).all fun child =>
    cha.isUndefined child || indMap preorder child < indMap preorder parent || check parent child

def checkContained (parent child : Vtbl) : Bool :=
  let before v := word (cha.addrPt v - (cha.getRange v).1 + prePadMap v)
  let after v := word ((cha.getRange v).2 - cha.addrPt v)
  !(before parent > before child || after parent > after child)

def checkRelative (m : NewIndMap) (pt child : Vtbl) : Bool :=
  (List.range (word ((cha.getRange pt).2 - (cha.getRange pt).1 + prePadMap pt + 1))).all fun ind =>
    let pos : ℤ := (cha.getRange pt).1 + ind - prePadMap pt
    word ((indexAt m pt pos : ℤ) - indexAt m pt (cha.addrPt pt)) =
      word ((indexAt m child (pos + (cha.addrPt child - cha.addrPt pt)) : ℤ) -
        indexAt m child (cha.addrPt child))

variable (interleave : Bool) (st : SDLayoutBuilder)

/-- The loop over the roots; without interleaving it is left in its first round. -/
def verifyRoots : List String → Bool
  | [] => true
  | vtbl :: roots =>
    let preorder := cha.preorder (vtbl, 0)
    match newIndMap (st.interleavingMap vtbl) with
    | none => false
    | some m =>
      if !preorder.all (checkDense cha st.prePadMap m) then false
      else if !interleave then true
      else if !checkEdges cha preorder (checkContained cha st.prePadMap) then false
      else if !checkEdges cha preorder (checkRelative cha st.prePadMap m) then false
      else verifyRoots roots

def verifyNewLayouts : Bool := verifyRoots cha interleave st cha.roots

end Verify

section Index

/-- The elements that the map is built from, as they are stored. -/
def keys (interleaving : List Interleaving) : List (Vtbl × Nat) :=
  (interleaving.filter fun e => e.1 ≠ dummyVtable).map fun e => (e.1, word e.2)

/-- The map for a list without repetitions. -/
def indexMap (interleaving : List Interleaving) : NewIndMap := fun n =>
  ((keys interleaving).zipIdx.filter fun e => e.1.1 = n).map fun e => (e.1.2, e.2)

theorem indexMap_fst (interleaving : List Interleaving) (n : Vtbl) :
    (indexMap interleaving n).map Prod.fst =
      ((keys interleaving).filter fun e => e.1 = n).map Prod.snd := by
  have hfst : ((keys interleaving).zipIdx.filter fun e => e.1.1 = n).map Prod.fst =
      (keys interleaving).filter fun e => e.1 = n := by
    have hmap : ((keys interleaving).zipIdx.map Prod.fst).filter (fun e => e.1 = n) =
        (keys interleaving).filter fun e => e.1 = n := by rw [List.zipIdx_map_fst]
    rw [← hmap, List.filter_map]
    rfl
  rw [indexMap, List.map_map, ← hfst, List.map_map]
  rfl

theorem lookup_isSome_iff (interleaving : List Interleaving) (n : Vtbl) (w : Nat) :
    ((indexMap interleaving n).lookup w).isSome ↔ (n, w) ∈ keys interleaving := by
  rw [List.lookup_isSome_iff]
  have hmem := congrArg (w ∈ ·) (indexMap_fst interleaving n)
  simp only [List.mem_map, List.mem_filter, decide_eq_true_eq, eq_iff_iff] at hmem
  constructor
  · rintro ⟨e, he, hw⟩
    obtain ⟨k, ⟨hk, hkn⟩, hkw⟩ := hmem.mp ⟨e, he, (beq_iff_eq.mp hw).symm⟩
    rwa [← hkn, ← hkw]
  · intro h
    obtain ⟨e, he, hw⟩ := hmem.mpr ⟨(n, w), ⟨h, rfl⟩, rfl⟩
    exact ⟨e, he, beq_iff_eq.mpr hw.symm⟩

theorem keys_concat {e : Interleaving} (done : List Interleaving) (h : e.1 ≠ dummyVtable) :
    keys (done ++ [e]) = keys done ++ [(e.1, word e.2)] := by
  rw [keys, List.filter_append, List.map_append, List.filter_cons_of_pos (by simpa using h)]
  rfl

theorem indexMap_concat {e : Interleaving} (done : List Interleaving) (h : e.1 ≠ dummyVtable) :
    indexMap (done ++ [e]) = Function.update (indexMap done) e.1
      (indexMap done e.1 ++ [(word e.2, (keys done).length)]) := by
  funext n
  rw [indexMap, keys_concat done h, List.zipIdx_append, List.filter_append, List.map_append,
    Nat.zero_add]
  by_cases hn : n = e.1
  · subst hn
    rw [Function.update_self, List.zipIdx_singleton,
      List.filter_cons_of_pos (by exact decide_eq_true rfl)]
    rfl
  · rw [Function.update_of_ne hn, List.zipIdx_singleton,
      List.filter_cons_of_neg (by simpa using Ne.symm hn)]
    exact List.append_nil _

/-- From a list without repetitions on, the loop goes through until something appears twice. -/
theorem foldlM_addIndex (rest : List Interleaving) {done : List Interleaving}
    (hdone : (keys done).Nodup) :
    rest.foldlM addIndex (indexMap done, (keys done).length) =
      if (keys (done ++ rest)).Nodup then
        some (indexMap (done ++ rest), (keys (done ++ rest)).length) else none := by
  induction rest generalizing done with
  | nil => rw [List.append_nil, if_pos hdone]; rfl
  | cons e rest ih =>
    have hsplit : done ++ e :: rest = (done ++ [e]) ++ rest := by simp
    rw [List.foldlM_cons, addIndex]
    by_cases hdummy : e.1 = dummyVtable
    · have hkeys : keys (done ++ [e]) = keys done := by simp [keys, hdummy]
      have hmap : indexMap (done ++ [e]) = indexMap done := by
        funext n
        rw [indexMap, indexMap, hkeys]
      rw [if_pos hdummy, hsplit, ← ih (hkeys ▸ hdone), hkeys, hmap]
      rfl
    · rw [if_neg hdummy]
      by_cases htwice : (e.1, word e.2) ∈ keys done
      · have hnot : ¬ (keys (done ++ e :: rest)).Nodup := by
          intro hnodup
          have hsub : keys (done ++ e :: rest) = keys (done ++ [e]) ++ keys rest := by
            rw [hsplit, keys, List.filter_append, List.map_append]
            rfl
          rw [hsub, keys_concat done hdummy] at hnodup
          have hfirst := (List.nodup_append.mp hnodup).1
          exact (List.nodup_append.mp hfirst).2.2 _ htwice _ (by simp) rfl
        rw [if_pos ((lookup_isSome_iff done e.1 (word e.2)).mpr htwice), if_neg hnot]
        rfl
      · have hnext : (keys (done ++ [e])).Nodup := by
          rw [keys_concat done hdummy, List.nodup_append]
          refine ⟨hdone, List.nodup_singleton _, ?_⟩
          rintro a ha b hb rfl
          exact htwice (List.mem_singleton.mp hb ▸ ha)
        rw [if_neg (mt (lookup_isSome_iff done e.1 (word e.2)).mp htwice), hsplit, ← ih hnext,
          indexMap_concat done hdummy, keys_concat done hdummy, List.length_append]
        rfl

theorem nodup_indexMap_fst {interleaving : List Interleaving} (h : (keys interleaving).Nodup)
    (n : Vtbl) : ((indexMap interleaving n).map Prod.fst).Nodup := by
  rw [indexMap_fst]
  apply List.Nodup.map_on _ (h.filter _)
  intro a ha b hb hab
  have hname : a.1 = b.1 := (of_decide_eq_true (List.mem_filter.mp ha).2).trans
    (of_decide_eq_true (List.mem_filter.mp hb).2).symm
  exact Prod.ext hname hab

/-- An index is read back from where its key stands. -/
theorem indexAt_eq {interleaving : List Interleaving} (h : (keys interleaving).Nodup) {n : Vtbl}
    {pos : ℤ} {i : Nat} (hi : (keys interleaving)[i]? = some (n, word pos)) :
    indexAt (indexMap interleaving) n pos = i := by
  have hmem : (word pos, i) ∈ indexMap interleaving n :=
    List.mem_map.mpr ⟨((n, word pos), i), List.mem_filter.mpr
      ⟨List.mem_zipIdx_iff_getElem?.mpr hi, decide_eq_true rfl⟩, rfl⟩
  have hfst := nodup_indexMap_fst h n
  obtain ⟨pre, post, hsplit⟩ := List.append_of_mem hmem
  have hlookup : (indexMap interleaving n).lookup (word pos) = some i := by
    rw [List.lookup_eq_some_iff]
    refine ⟨pre, post, hsplit, ?_⟩
    intro p hp
    rw [hsplit, List.map_append, List.nodup_append] at hfst
    simpa using (hfst.2.2 p.1 (List.mem_map_of_mem hp) (word pos) (by simp)).symm
  rw [indexAt, hlookup, Option.getD_some]

theorem newIndMap_eq (interleaving : List Interleaving) :
    newIndMap interleaving =
      if (keys interleaving).Nodup then some (indexMap interleaving) else none := by
  have hfold : interleaving.foldlM addIndex (fun _ => [], 0) =
      if (keys interleaving).Nodup then
        some (indexMap interleaving, (keys interleaving).length) else none :=
    @foldlM_addIndex interleaving [] List.nodup_nil
  rw [newIndMap, hfold]
  split <;> rfl

end Index

section Sound

variable {cha : SDBuildCHA} {interleave : Bool} {st : SDLayoutBuilder} {root : String}

/-- What the verifier has found out about a list, when it goes on to the next root or returns. -/
structure Verified (cha : SDBuildCHA) (interleave : Bool) (st : SDLayoutBuilder) (root : String) :
    Prop where
  once : (keys (st.interleavingMap root)).Nodup
  dense : ∀ n ∈ cha.preorder (root, 0),
    checkDense cha st.prePadMap (indexMap (st.interleavingMap root)) n
  contained : interleave = true →
    checkEdges cha (cha.preorder (root, 0)) (checkContained cha st.prePadMap)
  relative : interleave = true → checkEdges cha (cha.preorder (root, 0))
    (checkRelative cha st.prePadMap (indexMap (st.interleavingMap root)))

/-- The roots whose lists are read. -/
def verifiedRoots (interleave : Bool) (roots : List String) : List String :=
  if interleave then roots else roots.take 1

theorem verifyRoots_iff (roots : List String) :
    verifyRoots cha interleave st roots = true ↔
      ∀ root ∈ verifiedRoots interleave roots, Verified cha interleave st root := by
  induction roots with
  | nil => cases interleave <;> simp [verifyRoots, verifiedRoots]
  | cons root roots ih =>
    have hself : Verified cha interleave st root ↔ (keys (st.interleavingMap root)).Nodup ∧
        (cha.preorder (root, 0)).all
          (checkDense cha st.prePadMap (indexMap (st.interleavingMap root))) = true ∧
        (interleave = true →
          checkEdges cha (cha.preorder (root, 0)) (checkContained cha st.prePadMap) = true ∧
          checkEdges cha (cha.preorder (root, 0))
            (checkRelative cha st.prePadMap (indexMap (st.interleavingMap root))) = true) := by
      rw [List.all_eq_true]
      exact ⟨fun h => ⟨h.once, h.dense, fun hi => ⟨h.contained hi, h.relative hi⟩⟩,
        fun ⟨honce, hdense, hedges⟩ =>
          ⟨honce, hdense, fun hi => (hedges hi).1, fun hi => (hedges hi).2⟩⟩
    rw [verifyRoots, newIndMap_eq]
    by_cases honce : (keys (st.interleavingMap root)).Nodup
    · rw [if_pos honce]
      dsimp only
      cases interleave with
      | true =>
        rw [verifiedRoots, if_pos rfl] at ih ⊢
        rw [List.forall_mem_cons, hself, ← ih]
        simp [honce, and_assoc]
      | false =>
        rw [verifiedRoots, if_neg Bool.false_ne_true, List.take_succ_cons, List.take_zero,
          List.forall_mem_singleton, hself]
        simp [honce]
    · rw [if_neg honce]
      have hmem : root ∈ verifiedRoots interleave (root :: roots) := by
        cases interleave <;> simp [verifiedRoots]
      simp only [Bool.false_eq_true, false_iff]
      exact fun h => honce (h root hmem).once

/-- Every element of a defined sub-vtable is in the list once. -/
def Complete (cha : SDBuildCHA) (st : SDLayoutBuilder) (root : String) : Prop :=
  ∀ n ∈ cha.preorder (root, 0), cha.isDefined n → ∀ j : ℤ,
    (cha.getRange n).1 - (st.prePadMap n : ℤ) ≤ j → j ≤ (cha.getRange n).2 →
    (st.interleavingMap root).countP (fun e => e.1 = n ∧ word e.2 = word j) = 1

/-- The list has no index of a sub-vtable before its padded start or behind its end. -/
def InBounds (cha : SDBuildCHA) (st : SDLayoutBuilder) (root : String) (n : Vtbl) : Prop :=
  ∀ e ∈ st.interleavingMap root, e.1 = n →
    (cha.getRange n).1 - (st.prePadMap n : ℤ) ≤ word e.2 ∧ (word e.2 : ℤ) ≤ (cha.getRange n).2

/-- The stored indices of one sub-vtable. -/
def oldIndices (interleaving : List Interleaving) (n : Vtbl) : List Nat :=
  (interleaving.filter fun e => e.1 = n).map fun e => word e.2

theorem keys_filter (interleaving : List Interleaving) {n : Vtbl} (hn : n ≠ dummyVtable) :
    ((keys interleaving).filter fun e => e.1 = n).map Prod.snd = oldIndices interleaving n := by
  rw [keys, List.filter_map, List.map_map, List.filter_filter, oldIndices]
  have hfilter : (interleaving.filter fun e =>
      ((fun k : Vtbl × Nat => decide (k.1 = n)) ∘ fun e : Interleaving => (e.1, word e.2)) e &&
        decide (e.1 ≠ dummyVtable)) = interleaving.filter fun e => e.1 = n := by
    apply List.filter_congr
    intro e _
    by_cases he : e.1 = n
    · simp [he, hn]
    · simp [he]
  rw [hfilter]
  rfl

theorem countP_eq_count (interleaving : List Interleaving) (n : Vtbl) (w : Nat) :
    interleaving.countP (fun e => e.1 = n ∧ word e.2 = w) =
      (oldIndices interleaving n).count w := by
  rw [oldIndices, List.count, List.countP_map, List.countP_filter]
  apply List.countP_congr
  intro e _
  simp [and_comm]

theorem oldIndices_lt {interleaving : List Interleaving} {n : Vtbl} :
    ∀ w ∈ oldIndices interleaving n, w < 2 ^ 64 := by
  intro w hw
  obtain ⟨e, -, rfl⟩ := List.mem_map.mp hw
  exact word_lt e.2

theorem nodup_oldIndices {interleaving : List Interleaving} (h : (keys interleaving).Nodup)
    {n : Vtbl} (hn : n ≠ dummyVtable) : (oldIndices interleaving n).Nodup := by
  rw [← keys_filter interleaving hn, ← indexMap_fst]
  exact nodup_indexMap_fst h n

variable {prePadMap : Vtbl → Nat} {interleaving : List Interleaving} {n : Vtbl}

theorem ne_dummy_of_checkDense (hdef : cha.isDefined n)
    (h : checkDense cha prePadMap (indexMap interleaving) n) : n ≠ dummyVtable := by
  rintro rfl
  have hnil : indexMap interleaving dummyVtable = [] := by
    rw [indexMap, List.map_eq_nil_iff, List.filter_eq_nil_iff]
    intro e he hdummy
    obtain ⟨x, hx, hkey⟩ := List.mem_map.mp (List.fst_mem_of_mem_zipIdx he)
    have hne := (List.mem_filter.mp hx).2
    rw [← hkey] at hdummy
    simp_all
  have hundef : cha.isUndefined dummyVtable = false := by
    simpa [SDBuildCHA.isDefined] using hdef
  simp [checkDense, hnil, hundef] at h

theorem checkDense_iff (hdef : cha.isDefined n) (hn : n ≠ dummyVtable) :
    checkDense cha prePadMap (indexMap interleaving) n ↔ ∃ lo hi : Nat,
      (oldIndices interleaving n).min? = some lo ∧ (oldIndices interleaving n).max? = some hi ∧
        word ((hi : ℤ) - lo + 1) = oldVtblSize cha prePadMap n ∧
        (oldIndices interleaving n).length = oldVtblSize cha prePadMap n := by
  have hundef : cha.isUndefined n = false := by simpa [SDBuildCHA.isDefined] using hdef
  have hlength : (indexMap interleaving n).length = (oldIndices interleaving n).length := by
    rw [← keys_filter interleaving hn, ← indexMap_fst, List.length_map]
  rw [checkDense, hundef, Bool.false_or, indexMap_fst, keys_filter interleaving hn, hlength]
  cases hmin : (oldIndices interleaving n).min? with
  | none => simp
  | some lo =>
    cases hmax : (oldIndices interleaving n).max? with
    | none => simp
    | some hi => simp

theorem oldVtblSize_eq (hstart : (cha.getRange n).1 ≤ (cha.getRange n).2)
    (hsize : (cha.getRange n).2 + prePadMap n + 1 < 2 ^ 64) :
    oldVtblSize cha prePadMap n = (cha.getRange n).2 + prePadMap n + 1 - (cha.getRange n).1 := by
  have hcast : ((cha.getRange n).2 : ℤ) - ((cha.getRange n).1 - prePadMap n) + 1 =
      (((cha.getRange n).2 + prePadMap n + 1 - (cha.getRange n).1 : Nat) : ℤ) := by omega
  rw [oldVtblSize, hcast, word_natCast (by omega)]

/-- As many numbers as an interval has, all in it, are all of it. -/
theorem mem_of_length_eq {ws : List Nat} (hnodup : ws.Nodup) {lo hi : ℤ}
    (hlength : (ws.length : ℤ) = hi + 1 - lo) (hmem : ∀ w ∈ ws, lo ≤ (w : ℤ) ∧ (w : ℤ) ≤ hi)
    {j : ℤ} (hlo : lo ≤ j) (hhi : j ≤ hi) : ∃ w ∈ ws, (w : ℤ) = j := by
  have hcard : (ws.toFinset.image fun w : Nat => (w : ℤ)).card = ws.length := by
    rw [Finset.card_image_of_injective _ Nat.cast_injective, List.toFinset_card_of_nodup hnodup]
  have hsub : ws.toFinset.image (fun w : Nat => (w : ℤ)) ⊆ Finset.Icc lo hi := by
    intro x hx
    obtain ⟨w, hw, rfl⟩ := Finset.mem_image.mp hx
    exact Finset.mem_Icc.mpr (hmem w (List.mem_toFinset.mp hw))
  have heq := Finset.eq_of_subset_of_card_le hsub (by rw [Int.card_Icc, hcard]; omega)
  have hj : j ∈ ws.toFinset.image fun w : Nat => (w : ℤ) := heq ▸ Finset.mem_Icc.mpr ⟨hlo, hhi⟩
  obtain ⟨w, hw, rfl⟩ := Finset.mem_image.mp hj
  exact ⟨w, List.mem_toFinset.mp hw, rfl⟩

/-- As many words as an interval has numbers, all of these among them, are no others. -/
theorem exists_of_length_eq {ws : List Nat} (hnodup : ws.Nodup) {lo hi : ℤ}
    (hlength : (ws.length : ℤ) = hi + 1 - lo) (hwords : hi - lo < 2 ^ 64)
    (hmem : ∀ j, lo ≤ j → j ≤ hi → word j ∈ ws) {w : Nat} (hw : w ∈ ws) :
    ∃ j, lo ≤ j ∧ j ≤ hi ∧ word j = w := by
  have hinj : Set.InjOn word (Finset.Icc lo hi : Finset ℤ) := by
    intro x hx y hy hxy
    rw [Finset.coe_Icc, Set.mem_Icc] at hx hy
    have hdvd := word_inj hxy
    by_contra hne
    rcases lt_or_gt_of_ne hne with hlt | hgt
    · have := Int.le_of_dvd (by omega) ((dvd_neg.mpr hdvd))
      omega
    · have := Int.le_of_dvd (by omega) hdvd
      omega
  have hcard : ((Finset.Icc lo hi).image word).card = (Finset.Icc lo hi).card :=
    Finset.card_image_of_injOn hinj
  have hsub : (Finset.Icc lo hi).image word ⊆ ws.toFinset := by
    intro x hx
    obtain ⟨j, hj, rfl⟩ := Finset.mem_image.mp hx
    obtain ⟨hlo, hhi⟩ := Finset.mem_Icc.mp hj
    exact List.mem_toFinset.mpr (hmem j hlo hhi)
  have heq := Finset.eq_of_subset_of_card_le hsub (by
    rw [hcard, Int.card_Icc, List.toFinset_card_of_nodup hnodup]
    omega)
  obtain ⟨j, hj, hjw⟩ := Finset.mem_image.mp (heq ▸ List.mem_toFinset.mpr hw)
  exact ⟨j, (Finset.mem_Icc.mp hj).1, (Finset.mem_Icc.mp hj).2, hjw⟩

/-- A list that the verifier lets pass is complete for a sub-vtable, when it has no indices of it
that are not of its range. -/
theorem Verified.complete_iff (h : Verified cha interleave st root)
    (hn : n ∈ cha.preorder (root, 0)) (hdef : cha.isDefined n)
    (hstart : (cha.getRange n).1 ≤ (cha.getRange n).2)
    (hsize : (cha.getRange n).2 + st.prePadMap n + 1 < 2 ^ 64) :
    (∀ j : ℤ, (cha.getRange n).1 - (st.prePadMap n : ℤ) ≤ j → j ≤ (cha.getRange n).2 →
      (st.interleavingMap root).countP (fun e => e.1 = n ∧ word e.2 = word j) = 1) ↔
      InBounds cha st root n := by
  have hdummy := ne_dummy_of_checkDense hdef (h.dense n hn)
  obtain ⟨lo, hi, hmin, hmax, hwidth, hlength⟩ := (checkDense_iff hdef hdummy).mp (h.dense n hn)
  rw [oldVtblSize_eq hstart hsize] at hwidth hlength
  have hnodup := nodup_oldIndices h.once hdummy
  have hcount : ∀ w, (st.interleavingMap root).countP (fun e => e.1 = n ∧ word e.2 = w) = 1 ↔
      w ∈ oldIndices (st.interleavingMap root) n := by
    intro w
    rw [countP_eq_count]
    constructor
    · intro hone
      exact List.count_pos_iff.mp (by omega)
    · exact List.count_eq_one_of_mem hnodup
  have hbounds : InBounds cha st root n ↔ ∀ w ∈ oldIndices (st.interleavingMap root) n,
      (cha.getRange n).1 - (st.prePadMap n : ℤ) ≤ w ∧ (w : ℤ) ≤ (cha.getRange n).2 := by
    rw [oldIndices, List.forall_mem_map]
    simp only [List.mem_filter, decide_eq_true_eq, and_imp]
    rfl
  rw [hbounds]
  simp only [hcount]
  have hinterval : ((oldIndices (st.interleavingMap root) n).length : ℤ) =
      (cha.getRange n).2 + 1 - ((cha.getRange n).1 - (st.prePadMap n : ℤ)) := by omega
  constructor
  · intro hall w hw
    obtain ⟨j, hj, hj', rfl⟩ := exists_of_length_eq hnodup hinterval (by omega) hall hw
    by_cases hneg : (cha.getRange n).1 < st.prePadMap n
    · -- the indices reach from zero to the largest word, so the width does not fit
      exfalso
      have hzero := (List.min?_eq_some_iff.mp hmin).2 _ (hall 0 (by omega) (by omega))
      have hlast := (List.max?_eq_some_iff.mp hmax).2 _ (hall (-1) (by omega) (by omega))
      have hlt := oldIndices_lt hi (List.max?_mem hmax)
      have hword0 : word 0 = 0 := word_natCast (n := 0) (Nat.two_pow_pos 64)
      have hword1 : word (-1) = 2 ^ 64 - 1 := by decide
      obtain rfl : lo = 0 := by omega
      obtain rfl : hi = 2 ^ 64 - 1 := by omega
      have hfull : word (((2 ^ 64 - 1 : Nat) : ℤ) - (0 : Nat) + 1) = 0 := by decide
      omega
    · obtain ⟨k, rfl⟩ := Int.eq_ofNat_of_zero_le (show 0 ≤ j by omega)
      rw [word_natCast (by omega)]
      exact ⟨hj, hj'⟩
  · intro hall j hj hj'
    obtain ⟨w, hw, rfl⟩ := mem_of_length_eq hnodup hinterval hall hj hj'
    rwa [word_natCast (oldIndices_lt w hw)]

end Sound

/-- The verifier tells the truth about lists that fail one of its tests, and about those that hold
no indices outside the ranges, if the lists that it does not read are complete. -/
theorem verifyNewLayouts_sound_iff {cha : SDBuildCHA} {interleave : Bool} {st : SDLayoutBuilder}
    (hsize : ∀ root ∈ cha.roots, ∀ n ∈ cha.preorder (root, 0),
      (cha.getRange n).1 ≤ (cha.getRange n).2 ∧
        (cha.getRange n).2 + st.prePadMap n + 1 < 2 ^ 64) :
    (verifyNewLayouts cha interleave st = true → ∀ root ∈ cha.roots, Complete cha st root) ↔
      ((∀ root ∈ verifiedRoots interleave cha.roots, Verified cha interleave st root) →
        (∀ root ∈ verifiedRoots interleave cha.roots, ∀ n ∈ cha.preorder (root, 0),
          cha.isDefined n → InBounds cha st root n) ∧
        ∀ root ∈ cha.roots, root ∉ verifiedRoots interleave cha.roots → Complete cha st root) := by
  have hsub : verifiedRoots interleave cha.roots ⊆ cha.roots := by
    rw [verifiedRoots]
    split
    · exact List.Subset.refl _
    · exact List.take_subset 1 _
  rw [verifyNewLayouts, verifyRoots_iff]
  refine imp_congr_right fun hverified => ?_
  have hread : ∀ root ∈ verifiedRoots interleave cha.roots, (Complete cha st root ↔
      ∀ n ∈ cha.preorder (root, 0), cha.isDefined n → InBounds cha st root n) := by
    intro root hroot
    refine forall_congr' fun n => forall_congr' fun hn => forall_congr' fun hdef => ?_
    obtain ⟨hstart, hfits⟩ := hsize root (hsub hroot) n hn
    exact (hverified root hroot).complete_iff hn hdef hstart hfits
  constructor
  · intro hall
    exact ⟨fun root hroot => (hread root hroot).mp (hall root (hsub hroot)),
      fun root hroot _ => hall root hroot⟩
  · rintro ⟨hbounds, hrest⟩ root hroot
    by_cases hmem : root ∈ verifiedRoots interleave cha.roots
    · exact (hread root hmem).mpr (hbounds root hmem)
    · exact hrest root hroot hmem

/-- Two classes without a common base. -/
def unrelatedClasses : List Nmd :=
  [⟨"_ZTV1A", [⟨0, 0, 1, 1, [("", 0)], []⟩]⟩, ⟨"_ZTV1B", [⟨0, 0, 1, 1, [("", 0)], []⟩]⟩]

def unrelatedTables (name : String) : Option (List Constant) :=
  [("_ZTV1A", [.bitCast "_ZTI1A", .bitCast "_ZN1A1fEv"]),
    ("_ZTV1B", [.bitCast "_ZTI1B", .bitCast "_ZN1B1fEv"])].lookup name

/-- A state with some interleavings, and without padding. -/
def withInterleavings (interleavingMap : String → List Interleaving) : SDLayoutBuilder :=
  { SDLayoutBuilder.init [] with interleavingMap := interleavingMap }

/-- All indices are one too large. -/
def shiftedInterleaving (root : String) : List Interleaving := [((root, 0), 1), ((root, 0), 2)]

/-- Only the list of `A` has elements. -/
def firstInterleaving (root : String) : List Interleaving :=
  if root = "_ZTV1A" then [((root, 0), 0), ((root, 0), 1)] else []

theorem verifyNewLayouts_sound_iff_shifted : ∃ cha,
    buildClouds unrelatedTables unrelatedClasses = .ok cha ∧
      ((verifyNewLayouts cha true (withInterleavings shiftedInterleaving) = true →
          ∀ root ∈ cha.roots, Complete cha (withInterleavings shiftedInterleaving) root) ↔
        ((∀ root ∈ verifiedRoots true cha.roots,
            Verified cha true (withInterleavings shiftedInterleaving) root) →
          (∀ root ∈ verifiedRoots true cha.roots, ∀ n ∈ cha.preorder (root, 0),
            cha.isDefined n → InBounds cha (withInterleavings shiftedInterleaving) root n) ∧
          ∀ root ∈ cha.roots, root ∉ verifiedRoots true cha.roots →
            Complete cha (withInterleavings shiftedInterleaving) root)) := by
  have hcha := eq_ok_of_isOk (x := buildClouds unrelatedTables unrelatedClasses) .empty
    (by decide)
  exact ⟨_, hcha, verifyNewLayouts_sound_iff (by decide)⟩

/-- With interleaving the shifted lists are accepted, without it the missing list. -/
theorem verifyNewLayouts_accepts_incomplete : ∃ cha,
    buildClouds unrelatedTables unrelatedClasses = .ok cha ∧
      (verifyNewLayouts cha true (withInterleavings shiftedInterleaving) = true ∧
        ∃ root ∈ cha.roots, ¬ Complete cha (withInterleavings shiftedInterleaving) root) ∧
      verifyNewLayouts cha false (withInterleavings firstInterleaving) = true ∧
        ∃ root ∈ cha.roots, ¬ Complete cha (withInterleavings firstInterleaving) root := by
  have hcha := eq_ok_of_isOk (x := buildClouds unrelatedTables unrelatedClasses) .empty
    (by decide)
  refine ⟨_, hcha, ⟨by decide, "_ZTV1A", by decide, ?_⟩, by decide, "_ZTV1B", by decide, ?_⟩
  · intro hcomplete
    exact absurd (hcomplete ("_ZTV1A", 0) (by decide) (by decide) 0 (by decide) (by decide))
      (by decide)
  · intro hcomplete
    exact absurd (hcomplete ("_ZTV1B", 0) (by decide) (by decide) 0 (by decide) (by decide))
      (by decide)

end RhoFEM.Layout
