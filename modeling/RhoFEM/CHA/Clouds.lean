import RhoFEM.Lib.Fold
import RhoFEM.Lib.Search

/-! Class metadata, and the hierarchy of sub-vtables that `SDBuildCHA` builds from it. -/

namespace RhoFEM.CHA

open RhoFEM.Lib.Fold RhoFEM.Lib.Search

/-- A sub-vtable: the name of the class's vtable and the number of the part. -/
abbrev Vtbl := String × Nat

instance : LawfulBEq Vtbl := Prod.instLawfulBEq

abbrev Range := Nat × Nat

structure FunctionEntry where
  functionName : String
  vTable : Vtbl
  offsetInVTable : Nat
  deriving DecidableEq

/-- An operand of a vtable initializer, with the name of the function in a bitcast. -/
inductive Constant
  | null
  | bitCast (operand : String)
  | other (value : Nat)
  deriving DecidableEq

structure NmdSub where
  order : Nat
  start : Nat
  stop : Nat
  addressPoint : Nat
  parents : List Vtbl
  functions : List FunctionEntry

structure Nmd where
  className : String
  subVTables : List NmdSub

/-- The entries carry the class and the order of their part, and the order is its position. -/
def Nmd.Labelled (info : Nmd) : Prop :=
  ∀ sub ∈ info.subVTables.zipIdx, sub.1.order = sub.2 ∧
    ∀ e ∈ sub.1.functions, e.vTable = (info.className, sub.1.order)

instance (info : Nmd) : Decidable info.Labelled :=
  inferInstanceAs (Decidable (∀ sub ∈ info.subVTables.zipIdx, sub.1.order = sub.2 ∧
    ∀ e ∈ sub.1.functions, e.vTable = (info.className, sub.1.order)))

/-- The assertions of the pass, and the bound on its recursions. -/
inductive Failure
  | notConstantArray
  | secondaryWithoutParent
  | undefinedVtables
  | differentRootLayouts
  | chaIsCyclic
  | childDoesNotCopy
  | alreadyHasID
  | rangeNotConsistent
  | outOfFuel
  deriving DecidableEq

def vtblLt (v w : Vtbl) : Bool := v.1 < w.1 || (v.1 == w.1 && v.2 < w.2)

/-- Insertion into a sorted set. -/
def insertInto {α : Type} [DecidableEq α] (lt : α → α → Bool) (a : α) : List α → List α
  | [] => [a]
  | b :: bs => if a = b then b :: bs else if lt a b then a :: b :: bs else b :: insertInto lt a bs

section InsertInto

variable {α : Type} [DecidableEq α] (lt : α → α → Bool)

@[simp] theorem mem_insertInto {a x : α} {l : List α} :
    x ∈ insertInto lt a l ↔ x = a ∨ x ∈ l := by
  induction l with
  | nil => simp [insertInto]
  | cons b bs ih =>
    rw [insertInto]
    split
    · rename_i h
      subst h
      simp
    · split
      · simp
      · rw [List.mem_cons, ih, List.mem_cons]
        tauto

theorem nodup_insertInto {a : α} {l : List α} (ha : a ∉ l) (h : l.Nodup) :
    (insertInto lt a l).Nodup := by
  induction l with
  | nil => simp [insertInto]
  | cons b bs ih =>
    obtain ⟨hab, habs⟩ := not_or.mp (mt List.mem_cons.mpr ha)
    obtain ⟨hb, hbs⟩ := List.nodup_cons.mp h
    rw [insertInto, if_neg hab]
    split
    · exact List.nodup_cons.mpr ⟨ha, h⟩
    · refine List.nodup_cons.mpr ⟨?_, ih habs hbs⟩
      rw [mem_insertInto]
      exact not_or.mpr ⟨Ne.symm hab, hb⟩

theorem pairwise_insertInto {lt : α → α → Bool} (htrans : ∀ a b c, lt a b → lt b c → lt a c)
    (htotal : ∀ a b, a ≠ b → lt a b ∨ lt b a) (a : α) {l : List α}
    (h : l.Pairwise fun x y => lt x y) : (insertInto lt a l).Pairwise fun x y => lt x y := by
  induction l with
  | nil => exact List.pairwise_singleton _ _
  | cons b bs ih =>
    obtain ⟨hb, hbs⟩ := List.pairwise_cons.mp h
    rw [insertInto]
    split
    · exact h
    · rename_i hne
      split
      · rename_i hab
        refine List.pairwise_cons.mpr ⟨?_, h⟩
        rw [List.forall_mem_cons]
        exact ⟨hab, fun x hx => htrans a b x hab (hb x hx)⟩
      · rename_i hab
        refine List.pairwise_cons.mpr ⟨?_, ih hbs⟩
        intro x hx
        rcases (mem_insertInto lt).mp hx with rfl | hx
        · exact (htotal b x (Ne.symm hne)).resolve_right hab
        · exact hb x hx

end InsertInto

theorem sorted_insertInto {β : Type} [LinearOrder β] [DecidableEq β] [DecidableLT β] (a : β)
    {l : List β} (h : l.Pairwise (· < ·)) :
    (insertInto (fun a b => a < b) a l).Pairwise (· < ·) := by
  have hsorted := @pairwise_insertInto β _ (fun a b => decide (a < b))
    (fun a b c hab hbc => decide_eq_true ((of_decide_eq_true hab).trans (of_decide_eq_true hbc)))
    (fun a b hne => by simpa using lt_or_gt_of_ne hne) a _
    (h.imp fun hlt => decide_eq_true hlt)
  exact hsorted.imp of_decide_eq_true

theorem vtblLt_iff (v w : Vtbl) : vtblLt v w ↔ toLex v < toLex w := by
  simp [vtblLt, Prod.Lex.toLex_lt_toLex]

structure SDBuildCHA where
  cloudMap : AList fun _ : Vtbl => List Vtbl
  parentMap : AList fun _ : String => List (List Vtbl)
  roots : List String
  subObjNameMap : AList fun _ : String => List String
  addrPtMap : String → List Nat
  rangeMap : String → List Range
  ancestorMap : Vtbl → Option String
  oldVTables : String → Option (List Constant)
  undefinedVTables : List String
  vTableFunctionMap : AList fun _ : Vtbl => List FunctionEntry

namespace SDBuildCHA

def empty : SDBuildCHA where
  cloudMap := ∅
  parentMap := ∅
  roots := []
  subObjNameMap := ∅
  addrPtMap := fun _ => []
  rangeMap := fun _ => []
  ancestorMap := fun _ => none
  oldVTables := fun _ => none
  undefinedVTables := []
  vTableFunctionMap := ∅

variable (cha : SDBuildCHA)

def children (v : Vtbl) : List Vtbl := (cha.cloudMap.lookup v).getD []

def functions (v : Vtbl) : List FunctionEntry := (cha.vTableFunctionMap.lookup v).getD []

def isUndefined (v : Vtbl) : Bool := cha.undefinedVTables.contains v.1

def isDefined (v : Vtbl) : Bool := !cha.isUndefined v

def addrPt (v : Vtbl) : Nat := ((cha.addrPtMap v.1)[v.2]?).getD 0

def getRange (v : Vtbl) : Range := ((cha.rangeMap v.1)[v.2]?).getD (0, 0)

def getLayoutClassName (v : Vtbl) : String :=
  (((cha.subObjNameMap.lookup v.1).getD [])[v.2]?).getD ""

def getAncestor (v : Vtbl) : String := (cha.ancestorMap v).getD ""

variable {cha} in
theorem isDefined_iff {v : Vtbl} : cha.isDefined v ↔ ¬ cha.isUndefined v := by
  simp [isDefined]

/-- The part of a vtable in which an index lies. -/
def getVTableOrder (vtbl : String) (ind : Nat) : Option Nat :=
  (cha.rangeMap vtbl).findIdx? fun range => range.1 ≤ ind ∧ ind ≤ range.2

/-- All sub-vtables that are listed as a child. -/
def vtbls : List Vtbl := cha.cloudMap.entries.flatMap Sigma.snd

theorem children_all {P : Vtbl → Vtbl → Prop}
    (h : ∀ entry ∈ cha.cloudMap.entries, ∀ w ∈ entry.2, P entry.1 w) :
    ∀ v, ∀ w ∈ cha.children v, P v w := by
  intro v w hw
  cases hlookup : cha.cloudMap.lookup v with
  | none => simp [children, hlookup] at hw
  | some ws =>
    rw [children, hlookup, Option.getD_some] at hw
    exact h ⟨v, ws⟩ (AList.mem_lookup_iff.mp hlookup) w hw

theorem children_nodup (h : ∀ entry ∈ cha.cloudMap.entries, entry.2.Nodup) (v : Vtbl) :
    (cha.children v).Nodup := by
  rw [children]
  cases hlookup : cha.cloudMap.lookup v with
  | none => exact List.nodup_nil
  | some ws => exact h ⟨v, ws⟩ (AList.mem_lookup_iff.mp hlookup)

theorem functions_all {P : Vtbl → FunctionEntry → Prop}
    (h : ∀ entry ∈ cha.vTableFunctionMap.entries, ∀ e ∈ entry.2, P entry.1 e) :
    ∀ v, ∀ e ∈ cha.functions v, P v e := by
  intro v e he
  cases hlookup : cha.vTableFunctionMap.lookup v with
  | none => simp [functions, hlookup] at he
  | some es =>
    rw [functions, hlookup, Option.getD_some] at he
    exact h ⟨v, es⟩ (AList.mem_lookup_iff.mp hlookup) e he

theorem supported : Supported cha.children cha.vtbls :=
  cha.children_all fun entry hentry _ hw => List.mem_flatMap.mpr ⟨entry, hentry, hw⟩

/-- The bound exceeds the number of sub-vtables, so the search is never cut short. -/
def preorder (root : Vtbl) : List Vtbl :=
  visit cha.children (cha.vtbls.length + 2) [] root

theorem preorder_nodup (root : Vtbl) : (cha.preorder root).Nodup :=
  visit_nodup _ root List.nodup_nil

theorem mem_preorder_iff (root v : Vtbl) :
    v ∈ cha.preorder root ↔ Reaches cha.children root v := by
  have hsupport : Supported cha.children (root :: cha.vtbls) :=
    fun a b hb => List.mem_cons_of_mem _ (cha.supported a b hb)
  exact mem_visit_iff hsupport (by simp) (by simp) v

theorem preorder_head (root : Vtbl) : (cha.preorder root).head? = some root := by
  have hsub : [root] <+: cha.preorder root := by
    rw [preorder, visit, if_neg (by simp)]
    exact foldl_grows (visit_grows _) _ _
  obtain ⟨rest, hrest⟩ := hsub
  rw [← hrest]
  rfl

/-- `getFirstDefinedChild`, where there is one. -/
def firstDefinedChild (v : Vtbl) : Option Vtbl :=
  (cha.preorder v).find? fun c => c ≠ v && cha.isDefined c

/-- All entries are stored under the sub-vtable that they name. -/
def Labelled : Prop := ∀ v, ∀ e ∈ cha.functions v, e.vTable = v

end SDBuildCHA

/-- The state of `buildClouds`: its set of parents without metadata is local to it. -/
structure Building where
  cha : SDBuildCHA
  undefined : List Vtbl

/-- The part of the loop over the sub-vtables for one parent. -/
def addParent (name : Vtbl) (st : Building) (parent : Vtbl) : Except Failure Building :=
  if parent.1 ≠ "" then
    let st := if parent ∈ st.cha.cloudMap then st else
      { cha := { st.cha with cloudMap := st.cha.cloudMap.insert parent [] }
        undefined := insertInto vtblLt parent st.undefined }
    .ok { st with cha := { st.cha with
      cloudMap := st.cha.cloudMap.insert parent
        (insertInto vtblLt name (st.cha.children parent)) } }
  else if name.2 = 0 then
    .ok { st with cha := { st.cha with
      roots := insertInto (fun a b => a < b) name.1 st.cha.roots } }
  else .error .secondaryWithoutParent

def addSubVTable (className : String) (st : Building) (sub : NmdSub × Nat) :
    Except Failure Building := do
  let name : Vtbl := (className, sub.2)
  let cha := st.cha
  let st : Building := {
    cha := { cha with
      vTableFunctionMap := cha.vTableFunctionMap.insert name sub.1.functions
      cloudMap := if name ∈ cha.cloudMap then cha.cloudMap else cha.cloudMap.insert name [] }
    undefined := st.undefined.erase name }
  let st ← sub.1.parents.foldlM (addParent name) st
  let cha := st.cha
  return { st with cha := { cha with
    parentMap := cha.parentMap.insert className (((cha.parentMap.lookup className).getD []) ++
      [(sub.1.parents.filter fun parent => parent.1 ≠ "")])
    addrPtMap := Function.update cha.addrPtMap className
      (cha.addrPtMap className ++ [sub.1.addressPoint])
    rangeMap := Function.update cha.rangeMap className
      (cha.rangeMap className ++ [(sub.1.start, sub.1.stop)]) } }

/-- Without an element that is not null an initializer is a `ConstantAggregateZero`. -/
def isConstantArray (vtable : List Constant) : Bool := vtable.any (· ≠ .null)

/-- `initializer` is the initializer of the global variable of a vtable, if it has one. -/
def recordOldVTable (initializer : String → Option (List Constant)) (className : String)
    (cha : SDBuildCHA) : Except Failure SDBuildCHA :=
  match initializer className with
  | some vtable =>
    if isConstantArray vtable then .ok { cha with
      oldVTables := Function.update cha.oldVTables className (some vtable) }
    else .error .notConstantArray
  | none => .ok { cha with
      undefinedVTables := insertInto (fun a b => a < b) className cha.undefinedVTables }

def addClass (initializer : String → Option (List Constant)) (st : Building) (info : Nmd) :
    Except Failure Building := do
  let cha ← recordOldVTable initializer info.className st.cha
  info.subVTables.zipIdx.foldlM (addSubVTable info.className) { st with cha := cha }

def addAncestor (root : String) (ancestorMap : Vtbl → Option String) (child : Vtbl) :
    Vtbl → Option String :=
  if (ancestorMap child).isNone then Function.update ancestorMap child (some root) else ancestorMap

def ancestors (cha : SDBuildCHA) : Vtbl → Option String :=
  cha.roots.foldl (fun ancestorMap root =>
    (cha.preorder (root, 0)).foldl (addAncestor root) ancestorMap) fun _ => none

theorem addAncestor_foldl (root : String) (nodes : List Vtbl) (ancestorMap : Vtbl → Option String)
    (v : Vtbl) :
    nodes.foldl (addAncestor root) ancestorMap v =
      (ancestorMap v).or (if v ∈ nodes then some root else none) := by
  induction nodes generalizing ancestorMap with
  | nil => simp
  | cons n nodes ih =>
    rw [List.foldl_cons, ih, addAncestor]
    by_cases hv : v = n
    · subst hv
      cases h : ancestorMap v <;> simp [h]
    · split <;> simp [hv]

/-- The ancestor of a node is the first root whose cloud holds it. -/
theorem ancestors_eq_find? (cha : SDBuildCHA) (v : Vtbl) :
    ancestors cha v = cha.roots.find? fun root => v ∈ cha.preorder (root, 0) := by
  have hfold : ∀ (roots : List String) (ancestorMap : Vtbl → Option String),
      roots.foldl (fun ancestorMap root =>
        (cha.preorder (root, 0)).foldl (addAncestor root) ancestorMap) ancestorMap v =
        (ancestorMap v).or (roots.find? fun root => v ∈ cha.preorder (root, 0)) := by
    intro roots
    induction roots with
    | nil => simp
    | cons root roots ih =>
      intro ancestorMap
      rw [List.foldl_cons, ih, addAncestor_foldl, List.find?_cons]
      by_cases hv : v ∈ cha.preorder (root, 0) <;> cases ancestorMap v <;> simp [hv]
  rw [ancestors, hfold, Option.none_or]

/-- The common root of all parents of a sub-vtable; without parents, its own class. -/
def layoutClass (cha : SDBuildCHA) (className : String) (parents : List Vtbl) :
    Except Failure String := do
  let layoutClass ← parents.foldlM (fun layoutClass parent =>
    if layoutClass ≠ "none" then
      if layoutClass = cha.getAncestor parent then .ok layoutClass
      else .error .differentRootLayouts
    else .ok (cha.getAncestor parent)) "none"
  return if layoutClass = "none" then className else layoutClass

def subObjNames (cha : SDBuildCHA) : Except Failure (AList fun _ : String => List String) :=
  cha.parentMap.entries.foldlM (fun names entry =>
    (entry.2.mapM (layoutClass cha entry.1)).map (names.insert entry.1 ·)) ∅

def buildClouds (initializer : String → Option (List Constant)) (infoVec : List Nmd) :
    Except Failure SDBuildCHA := do
  let st ← infoVec.foldlM (addClass initializer) ⟨SDBuildCHA.empty, []⟩
  if st.undefined ≠ [] then throw .undefinedVtables
  let cha := { st.cha with ancestorMap := ancestors st.cha }
  let subObjNameMap ← subObjNames cha
  return { cha with subObjNameMap := subObjNameMap }

theorem recordOldVTable_frame {initializer : String → Option (List Constant)} {className : String}
    {cha cha' : SDBuildCHA} (h : recordOldVTable initializer className cha = .ok cha') :
    ∃ oldVTables undefinedVTables, cha' =
      { cha with oldVTables := oldVTables, undefinedVTables := undefinedVTables } := by
  unfold recordOldVTable at h
  split at h
  · split at h
    · exact ⟨_, cha.undefinedVTables, (Except.ok.inj h).symm⟩
    · cases h
  · exact ⟨cha.oldVTables, _, (Except.ok.inj h).symm⟩

theorem addClass_cases {initializer : String → Option (List Constant)} {st st' : Building}
    {info : Nmd} (h : addClass initializer st info = .ok st') : ∃ oldVTables undefinedVTables,
      recordOldVTable initializer info.className st.cha = .ok
        { st.cha with oldVTables := oldVTables, undefinedVTables := undefinedVTables } ∧
      info.subVTables.zipIdx.foldlM (addSubVTable info.className) ⟨{ st.cha with
        oldVTables := oldVTables, undefinedVTables := undefinedVTables }, st.undefined⟩ =
          .ok st' := by
  obtain ⟨cha, hcha, hfold⟩ := bind_eq_ok.mp h
  obtain ⟨oldVTables, undefinedVTables, rfl⟩ := recordOldVTable_frame hcha
  exact ⟨oldVTables, undefinedVTables, hcha, hfold⟩

theorem addParent_frame {name parent : Vtbl} {st st' : Building}
    (h : addParent name st parent = .ok st') :
    st'.cha.vTableFunctionMap = st.cha.vTableFunctionMap ∧
      st'.cha.parentMap = st.cha.parentMap := by
  unfold addParent at h
  split at h
  · obtain rfl := Except.ok.inj h
    split <;> exact ⟨rfl, rfl⟩
  · split at h
    · obtain rfl := Except.ok.inj h
      exact ⟨rfl, rfl⟩
    · exact absurd h nofun

theorem addSubVTable_labelled {className : String} {st st' : Building} {sub : NmdSub × Nat}
    (hsub : ∀ e ∈ sub.1.functions, e.vTable = (className, sub.2)) (hst : st.cha.Labelled)
    (h : addSubVTable className st sub = .ok st') : st'.cha.Labelled := by
  unfold addSubVTable at h
  rw [bind_eq_ok] at h
  obtain ⟨t, hparents, hrest⟩ := h
  obtain rfl := Except.ok.inj hrest
  have hmap : t.cha.vTableFunctionMap =
      st.cha.vTableFunctionMap.insert (className, sub.2) sub.1.functions :=
    foldlM_ok_rule (fun _ t => t.cha.vTableFunctionMap =
        st.cha.vTableFunctionMap.insert (className, sub.2) sub.1.functions)
      (fun _ _ _ _ ht _ hstep => (addParent_frame hstep).1.trans ht) rfl hparents
  intro v e he
  by_cases hv : v = (className, sub.2)
  · subst hv
    have : e ∈ sub.1.functions := by simpa [SDBuildCHA.functions, hmap] using he
    exact hsub e this
  · apply hst v e
    simpa [SDBuildCHA.functions, hmap, AList.lookup_insert_ne hv] using he

theorem addClass_labelled {initializer : String → Option (List Constant)} {st st' : Building}
    {info : Nmd} (hinfo : info.Labelled) (hst : st.cha.Labelled)
    (h : addClass initializer st info = .ok st') : st'.cha.Labelled := by
  obtain ⟨_, _, -, hfold⟩ := addClass_cases h
  refine foldlM_ok_rule (fun _ t => t.cha.Labelled) ?step hst hfold
  case step =>
    intro pre sub t t' ht hsub hstep
    obtain ⟨horder, hentries⟩ := hinfo sub hsub
    rw [horder] at hentries
    exact addSubVTable_labelled hentries ht hstep

/-- The assertions have passed, and the maps are those of the loop over the classes. -/
theorem buildClouds_cases {initializer : String → Option (List Constant)} {infoVec : List Nmd}
    {cha : SDBuildCHA} (h : buildClouds initializer infoVec = .ok cha) :
    ∃ st names, infoVec.foldlM (addClass initializer) ⟨SDBuildCHA.empty, []⟩ = .ok st ∧
      st.undefined = [] ∧ subObjNames { st.cha with ancestorMap := ancestors st.cha } = .ok names ∧
      cha = { st.cha with ancestorMap := ancestors st.cha, subObjNameMap := names } := by
  unfold buildClouds at h
  rw [bind_eq_ok] at h
  obtain ⟨st, hclasses, hrest⟩ := h
  split at hrest
  · exact absurd hrest nofun
  · rename_i hundefined
    rw [bind_eq_ok] at hrest
    obtain ⟨names, hnames, hrest⟩ := hrest
    exact ⟨st, names, hclasses, not_not.mp hundefined, hnames, (Except.ok.inj hrest).symm⟩

theorem buildClouds_labelled {initializer : String → Option (List Constant)} {infoVec : List Nmd}
    {cha : SDBuildCHA} (hinfo : ∀ info ∈ infoVec, info.Labelled)
    (h : buildClouds initializer infoVec = .ok cha) : cha.Labelled := by
  obtain ⟨st, names, hclasses, -, -, rfl⟩ := buildClouds_cases h
  exact foldlM_ok_rule (fun _ t => t.cha.Labelled)
    (fun _ info _ _ ht hmem hstep => addClass_labelled (hinfo info hmem) ht hstep) nofun hclasses

theorem buildClouds_ancestorMap {initializer : String → Option (List Constant)}
    {infoVec : List Nmd} {cha : SDBuildCHA} (h : buildClouds initializer infoVec = .ok cha) :
    cha.ancestorMap = ancestors cha := by
  obtain ⟨st, names, -, -, -, rfl⟩ := buildClouds_cases h
  rfl

end RhoFEM.CHA
