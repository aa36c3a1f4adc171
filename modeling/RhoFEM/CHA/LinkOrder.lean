import RhoFEM.CHA.FunctionInfo
import RhoFEM.CHA.Metadata
import RhoFEM.CHA.Tables

/-! What is made of the records of the classes does not depend on the order in which they are
linked. -/

namespace RhoFEM.CHA

open RhoFEM.Lib.Fold RhoFEM.Lib.Search

section Lists

variable {α β κ : Type}

theorem eq_of_pairwise {r : α → α → Prop} [Std.Asymm r] {xs ys : List α}
    (hxs : xs.Pairwise r) (hys : ys.Pairwise r) (hmem : ∀ a, a ∈ xs ↔ a ∈ ys) : xs = ys := by
  have hirrefl : ∀ a b, r a b → a ≠ b := by
    rintro a _ hab rfl
    exact asymm hab hab
  have hperm : xs.Perm ys :=
    (List.perm_ext_iff_of_nodup (hxs.imp (hirrefl _ _)) (hys.imp (hirrefl _ _))).mpr hmem
  exact hperm.eq_of_pairwise (fun a b _ _ hab hba => absurd hba (asymm hab)) hxs hys

/-- Two tables with the same keys and the same lists hold equally many elements. -/
theorem length_flatMap_entries [DecidableEq κ] {m m' : AList fun _ : κ => List β}
    (hmem : ∀ k, k ∈ m ↔ k ∈ m') (hlookup : ∀ k, (m.lookup k).getD [] = (m'.lookup k).getD []) :
    (m.entries.flatMap Sigma.snd).length = (m'.entries.flatMap Sigma.snd).length := by
  have hlength : ∀ n : AList fun _ : κ => List β, (n.entries.flatMap Sigma.snd).length =
      (n.keys.map fun k => ((n.lookup k).getD []).length).sum := by
    intro n
    rw [List.length_flatMap, AList.keys, List.keys, List.map_map]
    congr 1
    apply List.map_congr_left
    intro entry hentry
    rw [Function.comp_apply, AList.mem_lookup_iff.mpr hentry, Option.getD_some]
  have hperm : m.keys.Perm m'.keys := by
    rw [List.perm_ext_iff_of_nodup m.keys_nodup m'.keys_nodup]
    exact fun k => by rw [← AList.mem_keys, ← AList.mem_keys, hmem]
  rw [hlength, hlength, funext fun k => congrArg List.length (hlookup k)]
  exact (hperm.map _).sum_eq

end Lists

section Functions

/-- A property of the tables that adding one sub-vtable carries on. -/
theorem addClasses_rule (P : (Vtbl → NmdSub → Prop) → SDBuildCHA → Prop)
    (hglobal : ∀ {recorded cha} oldVTables undefinedVTables, P recorded cha →
      P recorded { cha with oldVTables := oldVTables, undefinedVTables := undefinedVTables })
    (hstep : ∀ {recorded className sub st st'}, P recorded st.cha →
      addSubVTable className st sub = .ok st' →
        P (extend recorded (className, sub.2) sub.1) st'.cha)
    (hstart : P (fun _ _ => False) .empty) {initializer : String → Option (List Constant)}
    {infoVec : List Nmd} {st : Building}
    (h : infoVec.foldlM (addClass initializer) ⟨.empty, []⟩ = .ok st) :
    P (Recorded infoVec) st.cha := by
  have hcongr : ∀ {recorded recorded' : Vtbl → NmdSub → Prop} {cha}, P recorded cha →
      (∀ v sub, recorded v sub ↔ recorded' v sub) → P recorded' cha := by
    intro recorded recorded' cha hP heq
    obtain rfl : recorded = recorded' := funext fun v => funext fun sub => propext (heq v sub)
    exact hP
  refine foldlM_ok_rule (fun done t => P (Recorded done) t.cha) ?record ?empty h
  case empty => exact hcongr hstart fun v sub => by simp [Recorded]
  case record =>
    intro done info t t' ht _ hclass
    have hsubs : P (fun v sub => Recorded done v sub ∨
        info.className = v.1 ∧ info.subVTables[v.2]? = some sub) t'.cha := by
      obtain ⟨_, _, -, hfold⟩ := addClass_cases hclass
      refine foldlM_zipIdx_rule (fun subs t => P (fun v sub => Recorded done v sub ∨
        info.className = v.1 ∧ subs[v.2]? = some sub) t.cha) ?sub ?global hfold
      case sub =>
        intro subs sub u u' hu _ hadd
        refine hcongr (hstep hu hadd) ?_
        intro v s
        rw [extend, getElem?_concat_eq_some, Prod.ext_iff, and_or_left, or_assoc, and_assoc,
          eq_comm (a := v.1)]
      case global =>
        have hsame : ∀ v sub, Recorded done v sub ↔ Recorded done v sub ∨
            info.className = v.1 ∧ ([] : List NmdSub)[v.2]? = some sub := by simp
        exact hcongr (hglobal _ _ ht) hsame
    refine hcongr hsubs ?_
    intro v sub
    simp [Recorded, or_and_right, exists_or]

/-- The functions of the recorded sub-vtables. -/
structure Registered (recorded : Vtbl → NmdSub → Prop) (cha : SDBuildCHA) : Prop where
  known : ∀ v, v ∈ cha.vTableFunctionMap ↔ ∃ sub, recorded v sub
  found : ∀ v fs, cha.vTableFunctionMap.lookup v = some fs →
    ∃ sub, recorded v sub ∧ sub.functions = fs

theorem Registered.addSubVTable {recorded : Vtbl → NmdSub → Prop} {className : String}
    {sub : NmdSub × Nat} {st st' : Building} (hst : Registered recorded st.cha)
    (h : addSubVTable className st sub = .ok st') :
    Registered (extend recorded (className, sub.2) sub.1) st'.cha := by
  have hmap : st'.cha.vTableFunctionMap =
      st.cha.vTableFunctionMap.insert (className, sub.2) sub.1.functions :=
    congrArg SDBuildCHA.vTableFunctionMap (addSubVTable_cha h)
  constructor
  · intro v
    rw [hmap, AList.mem_insert, hst.known, exists_extend_self, or_comm]
  · intro v fs hfs
    rw [hmap] at hfs
    by_cases hv : v = (className, sub.2)
    · subst hv
      rw [AList.lookup_insert] at hfs
      exact ⟨sub.1, .inr ⟨rfl, rfl⟩, Option.some.inj hfs⟩
    · rw [AList.lookup_insert_ne hv] at hfs
      obtain ⟨sub', hsub', rfl⟩ := hst.found v fs hfs
      exact ⟨sub', .inl hsub', rfl⟩

theorem addClasses_registered {initializer : String → Option (List Constant)} {infoVec : List Nmd}
    {st : Building} (h : infoVec.foldlM (addClass initializer) ⟨.empty, []⟩ = .ok st) :
    Registered (Recorded infoVec) st.cha :=
  addClasses_rule Registered (fun _ _ h => ⟨h.known, h.found⟩) (fun h => h.addSubVTable)
    ⟨by simp [SDBuildCHA.empty], by simp [SDBuildCHA.empty]⟩ h

theorem lookup_functions {initializer : String → Option (List Constant)} {infoVec : List Nmd}
    (hdistinct : (infoVec.map Nmd.className).Nodup) {st : Building}
    (h : infoVec.foldlM (addClass initializer) ⟨.empty, []⟩ = .ok st) (v : Vtbl)
    (fs : List FunctionEntry) : st.cha.vTableFunctionMap.lookup v = some fs ↔
      ∃ sub, Recorded infoVec v sub ∧ sub.functions = fs := by
  have hst := addClasses_registered h
  constructor
  · exact hst.found v fs
  · rintro ⟨sub, hsub, rfl⟩
    obtain ⟨fs, hfs⟩ := Option.isSome_iff_exists.mp
      (AList.lookup_isSome.mpr ((hst.known v).mpr ⟨sub, hsub⟩))
    obtain ⟨sub', hsub', rfl⟩ := hst.found v fs hfs
    rw [hfs, recorded_unique hdistinct hsub hsub']

end Functions

/-- The records of one class agree. -/
def OneDefinition (infoVec : List Nmd) : Prop :=
  ∀ a ∈ infoVec, ∀ b ∈ infoVec, a.className = b.className → a = b

section FirstOfEach

theorem firstOfEach_subset (infoVec : List Nmd) : firstOfEach infoVec ⊆ infoVec := by
  induction infoVec with
  | nil => exact List.Subset.refl _
  | cons info infoVec ih =>
    rw [firstOfEach]
    exact List.cons_subset_cons _ (List.Subset.trans (List.filter_subset_self _) ih)

theorem nodup_firstOfEach (infoVec : List Nmd) :
    ((firstOfEach infoVec).map Nmd.className).Nodup := by
  induction infoVec with
  | nil => exact .nil
  | cons info infoVec ih =>
    rw [firstOfEach, List.map_cons, List.nodup_cons]
    refine ⟨?_, ih.sublist (List.filter_sublist.map _)⟩
    rw [List.mem_map]
    rintro ⟨later, hlater, heq⟩
    exact (of_decide_eq_true (List.mem_filter.mp hlater).2) heq

theorem OneDefinition.mem_firstOfEach {infoVec : List Nmd} (h : OneDefinition infoVec)
    {info : Nmd} : info ∈ firstOfEach infoVec ↔ info ∈ infoVec := by
  constructor
  · exact fun hmem => firstOfEach_subset infoVec hmem
  · intro hinfo
    obtain ⟨first, hfirst, hname⟩ := List.mem_map.mp
      (mem_firstOfEach_className.mpr (List.mem_map_of_mem hinfo))
    rwa [← h first (firstOfEach_subset infoVec hfirst) info hinfo hname]

end FirstOfEach

section NamedNodes

/-- The operands of one class are added to the node under its name, which is inserted behind the
other nodes if there is none. -/
def addOperands (nodes : List (String × List Metadata)) (info : ClassRecord) :
    List (String × List Metadata) :=
  if info.className ∈ nodes.map Prod.fst then
    nodes.map fun node =>
      if node.1 = info.className then (node.1, node.2 ++ info.operands) else node
  else nodes ++ [(info.className, info.operands)]

/-- The named nodes of a linked module that holds the given records. -/
def namedNodes (records : List ClassRecord) : List (String × List Metadata) :=
  records.foldl addOperands []

/-- The records of the named nodes, which are read one after the other. -/
def readNodes (nodes : List (String × List Metadata)) : Except ReadFailure (List Nmd) := do
  let infoVecs ← nodes.mapM fun node => extractMetadata node.2
  return infoVecs.flatten

/-- The records under a name. -/
def recordsOf (records : List ClassRecord) (name : String) : List ClassRecord :=
  records.filter fun info => info.className = name

/-- Each name has one node, with the operands of its records. -/
structure Grouped (records : List ClassRecord) (nodes : List (String × List Metadata)) : Prop where
  distinct : (nodes.map Prod.fst).Nodup
  names : ∀ name, name ∈ nodes.map Prod.fst ↔ name ∈ records.map ClassRecord.className
  operands : ∀ node ∈ nodes, node.2 = (recordsOf records node.1).flatMap ClassRecord.operands

theorem recordsOf_concat (records : List ClassRecord) (info : ClassRecord) (name : String) :
    recordsOf (records ++ [info]) name =
      recordsOf records name ++ if info.className = name then [info] else [] := by
  rw [recordsOf, List.filter_append, List.filter_singleton, Bool.cond_decide]
  rfl

theorem Grouped.addOperands {records : List ClassRecord} {nodes : List (String × List Metadata)}
    (h : Grouped records nodes) (info : ClassRecord) :
    Grouped (records ++ [info]) (addOperands nodes info) := by
  rw [CHA.addOperands]
  split
  case isTrue hold =>
    have hkeys : (nodes.map fun node => if node.1 = info.className
        then (node.1, node.2 ++ info.operands) else node).map Prod.fst = nodes.map Prod.fst := by
      rw [List.map_map]
      apply List.map_congr_left
      intro node _
      rw [Function.comp_apply]
      split <;> rfl
    refine ⟨hkeys ▸ h.distinct, fun name => ?_, List.forall_mem_map.mpr fun node hnode => ?_⟩
    · rw [hkeys, List.map_append, List.mem_append, List.map_singleton, List.mem_singleton,
        ← h.names, iff_self_or]
      rintro rfl
      exact hold
    · split
      case isTrue hname =>
        rw [recordsOf_concat, if_pos hname.symm, List.flatMap_append, List.flatMap_singleton,
          h.operands node hnode]
      case isFalse hname =>
        rw [recordsOf_concat, if_neg (Ne.symm hname), List.append_nil, h.operands node hnode]
  case isFalse hnew =>
    refine ⟨?_, fun name => ?_, ?_⟩
    · rw [List.map_append, List.nodup_append]
      refine ⟨h.distinct, List.nodup_singleton _, ?_⟩
      rintro name hname _ hinfo rfl
      obtain rfl := List.mem_singleton.mp hinfo
      exact hnew hname
    · rw [List.map_append, List.map_append, List.mem_append, List.mem_append, h.names]
      rfl
    · rw [List.forall_mem_append, List.forall_mem_singleton]
      constructor
      · intro node hnode
        have hname : info.className ≠ node.1 :=
          fun heq => hnew (heq ▸ List.mem_map_of_mem hnode)
        rw [recordsOf_concat, if_neg hname, List.append_nil, h.operands node hnode]
      · have hnone : recordsOf records info.className = [] := by
          refine List.filter_eq_nil_iff.mpr fun old hold heq => hnew ((h.names _).mpr ?_)
          exact of_decide_eq_true heq ▸ List.mem_map_of_mem hold
        rw [recordsOf_concat, if_pos rfl, hnone, List.nil_append, List.flatMap_singleton]

theorem namedNodes_grouped (records : List ClassRecord) : Grouped records (namedNodes records) := by
  induction records using List.reverseRecOn with
  | nil => exact ⟨.nil, fun _ => Iff.rfl, List.forall_mem_nil _⟩
  | append_singleton records info ih =>
    rw [namedNodes, List.foldl_concat]
    exact ih.addOperands info

/-- Of the records that are read, the first of each class is kept. -/
theorem extractMetadata_operands {records : List ClassRecord} (hne : records ≠ [])
    (h : ∀ info ∈ records, info.Encodable)
    (hsize : (records.flatMap ClassRecord.operands).length < 2 ^ 32) :
    extractMetadata (records.flatMap ClassRecord.operands) =
      .ok (firstOfEach (records.map ClassRecord.decoded)) := by
  obtain ⟨info, rest, rfl⟩ := List.exists_cons_of_ne_nil hne
  have hlength := ClassRecord.length_le_operands (info :: rest)
  rw [List.length_cons] at hlength
  exact extractClasses_operands [] h hsize (by omega)

/-- Where no two nodes hold the same class and the records of one class agree, each class is read
once. -/
theorem readNodes_namedNodes {records : List ClassRecord}
    (h : ∀ info ∈ records, info.Encodable)
    (hsize : ∀ node ∈ namedNodes records, node.2.length < 2 ^ 32)
    (hnode : ∀ a ∈ records, ∀ b ∈ records,
      a.decoded.className = b.decoded.className → a.className = b.className)
    (hone : OneDefinition (records.map ClassRecord.decoded)) :
    ∃ infoVec, readNodes (namedNodes records) = .ok infoVec ∧
      (infoVec.map Nmd.className).Nodup ∧
        ∀ info, info ∈ infoVec ↔ info ∈ records.map ClassRecord.decoded := by
  have hgroups := namedNodes_grouped records
  have hread : ∀ node ∈ namedNodes records, extractMetadata node.2 =
      .ok (firstOfEach ((recordsOf records node.1).map ClassRecord.decoded)) := by
    intro node hmem
    have hlength := hsize node hmem
    rw [hgroups.operands node hmem] at hlength ⊢
    refine extractMetadata_operands ?_ (fun info hinfo => h info (List.mem_of_mem_filter hinfo))
      hlength
    obtain ⟨info, hinfo, hname⟩ := List.mem_map.mp
      ((hgroups.names node.1).mp (List.mem_map_of_mem hmem))
    exact List.ne_nil_of_mem (List.mem_filter.mpr ⟨hinfo, decide_eq_true hname⟩)
  refine ⟨(namedNodes records).flatMap fun node =>
    firstOfEach ((recordsOf records node.1).map ClassRecord.decoded), ?_, ?_, fun info => ?_⟩
  · rw [readNodes, mapM_eq_ok hread]
    rfl
  · rw [List.map_flatMap, List.nodup_flatMap]
    refine ⟨fun node _ => nodup_firstOfEach _, (List.pairwise_map.mp hgroups.distinct).imp ?_⟩
    intro node node' hne c hc hc'
    rw [mem_firstOfEach_className, List.map_map] at hc hc'
    obtain ⟨a, ha, rfl⟩ := List.mem_map.mp hc
    obtain ⟨b, hb, hab⟩ := List.mem_map.mp hc'
    obtain ⟨ha, hname⟩ := List.mem_filter.mp ha
    obtain ⟨hb, hname'⟩ := List.mem_filter.mp hb
    exact hne ((of_decide_eq_true hname).symm.trans
      ((hnode a ha b hb hab.symm).trans (of_decide_eq_true hname')))
  · have hgroup (name : String) : info ∈ firstOfEach ((recordsOf records name).map
        ClassRecord.decoded) ↔ info ∈ (recordsOf records name).map ClassRecord.decoded := by
      have hsub : (recordsOf records name).map ClassRecord.decoded ⊆
          records.map ClassRecord.decoded := List.map_subset _ (List.filter_subset_self _)
      exact OneDefinition.mem_firstOfEach fun a ha b hb => hone a (hsub ha) b (hsub hb)
    simp only [List.mem_flatMap, hgroup]
    constructor
    · rintro ⟨node, -, hinfo⟩
      exact List.map_subset _ (List.filter_subset_self _) hinfo
    · intro hinfo
      obtain ⟨r, hr, rfl⟩ := List.mem_map.mp hinfo
      obtain ⟨node, hmem, hname⟩ := List.mem_map.mp
        ((hgroups.names r.className).mpr (List.mem_map_of_mem hr))
      exact ⟨node, hmem, List.mem_map_of_mem
        (List.mem_filter.mpr ⟨hr, decide_eq_true hname.symm⟩)⟩

end NamedNodes

section Names

variable {cha : SDBuildCHA}

/-- The names of the parts of a class are read from its list of parents. -/
theorem subObjNames_lookup {names : AList fun _ : String => List String}
    (h : subObjNames cha = .ok names) (c : String) :
    ((cha.parentMap.lookup c).getD []).mapM (layoutClass cha c) =
      .ok ((names.lookup c).getD []) := by
  have hkeys : ∀ entry ∈ cha.parentMap.entries, ∀ entry' ∈ cha.parentMap.entries,
      entry.1 = entry'.1 → entry = entry' := by
    rintro ⟨c, lists⟩ hentry ⟨_, lists'⟩ hentry' rfl
    rw [Option.some.inj ((AList.mem_lookup_iff.mpr hentry).symm.trans
      (AList.mem_lookup_iff.mpr hentry'))]
  have hfold := foldlM_nodup_ok_rule
    (fun done (names : AList fun _ : String => List String) => done ⊆ cha.parentMap.entries ∧
      (∀ entry ∈ done, entry.2.mapM (layoutClass cha entry.1) =
        .ok ((names.lookup entry.1).getD [])) ∧
      ∀ c ∉ done.map Sigma.fst, names.lookup c = none)
    (List.Nodup.of_map _ cha.parentMap.keys_nodup) ?step
    ⟨List.nil_subset _, List.forall_mem_nil _, fun _ _ => AList.lookup_empty _⟩ h
  case step =>
    rintro done entry names names' hentry hnew ⟨hsub, hdone, hrest⟩ hstep
    obtain ⟨layouts, hlayouts, rfl⟩ := map_eq_ok.mp hstep
    refine ⟨List.append_subset.mpr ⟨hsub, by simpa using hentry⟩, ?_, ?_⟩
    · rw [List.forall_mem_append, List.forall_mem_singleton, AList.lookup_insert]
      refine ⟨?_, hlayouts⟩
      intro old hold
      have hne : old.1 ≠ entry.1 :=
        fun heq => hnew (hkeys old (hsub hold) entry hentry heq ▸ hold)
      rw [AList.lookup_insert_ne hne]
      exact hdone old hold
    · intro c hc
      rw [List.map_append, List.mem_append, not_or, List.map_singleton, List.mem_singleton] at hc
      rw [AList.lookup_insert_ne hc.2]
      exact hrest c hc.1
  obtain ⟨-, hdone, hrest⟩ := hfold
  cases hlookup : cha.parentMap.lookup c with
  | none =>
    rw [hrest c (AList.lookup_eq_none.mp hlookup)]
    rfl
  | some lists => exact hdone ⟨c, lists⟩ (AList.mem_lookup_iff.mp hlookup)

theorem subObjNames_ok (h : ∀ c, ∃ layouts,
    ((cha.parentMap.lookup c).getD []).mapM (layoutClass cha c) = .ok layouts) :
    ∃ names, subObjNames cha = .ok names := by
  have hstep : ∀ done entry rest (names : AList fun _ : String => List String),
      cha.parentMap.entries = done ++ entry :: rest → True →
        ∃ names', (entry.2.mapM (layoutClass cha entry.1)).map (names.insert entry.1 ·) =
          .ok names' ∧ True := by
    intro done entry rest names hsplit _
    have hentry : entry ∈ cha.parentMap.entries := by rw [hsplit]; simp
    obtain ⟨layouts, hlayouts⟩ := h entry.1
    rw [AList.mem_lookup_iff.mpr hentry, Option.getD_some] at hlayouts
    exact ⟨_, map_eq_ok.mpr ⟨layouts, hlayouts, rfl⟩, trivial⟩
  obtain ⟨names, hok, -⟩ := foldlM_exists_ok (fun _ _ => True) _ hstep trivial
  exact ⟨names, hok⟩

end Names

/-- Whether the initializer of a class is taken does not depend on the classes before it. -/
theorem recordOldVTable_ok {initializer : String → Option (List Constant)} {className : String}
    {cha cha' : SDBuildCHA} (h : recordOldVTable initializer className cha = .ok cha')
    (other : SDBuildCHA) : ∃ other', recordOldVTable initializer className other = .ok other' := by
  unfold recordOldVTable at h ⊢
  split at h
  · split at h
    · rename_i harray
      exact ⟨_, if_pos harray⟩
    · cases h
  · exact ⟨_, rfl⟩

theorem addClasses_recordOldVTable {initializer : String → Option (List Constant)}
    {infoVec : List Nmd} {st : Building}
    (h : infoVec.foldlM (addClass initializer) ⟨.empty, []⟩ = .ok st) : ∀ info ∈ infoVec,
      ∀ cha, ∃ cha', recordOldVTable initializer info.className cha = .ok cha' := by
  refine foldlM_ok_rule (fun done _ => ∀ info ∈ done, ∀ cha, ∃ cha',
    recordOldVTable initializer info.className cha = .ok cha') ?step (List.forall_mem_nil _) h
  case step =>
    intro done info t t' hdone _ hclass
    obtain ⟨_, _, hglobal, -⟩ := addClass_cases hclass
    exact List.forall_mem_append.mpr
      ⟨hdone, List.forall_mem_singleton.mpr (recordOldVTable_ok hglobal)⟩

/-- The loop over the classes fails only at an initializer that is no array, or where a sub-vtable
that is not the first has no parent. -/
theorem addClasses_ok {initializer : String → Option (List Constant)} {infoVec : List Nmd}
    (hglobals : ∀ info ∈ infoVec, ∀ cha, ∃ cha',
      recordOldVTable initializer info.className cha = .ok cha')
    (h : ∀ v sub, Recorded infoVec v sub → ∀ p ∈ sub.parents, p.1 = "" → v.2 = 0) :
    ∃ st, infoVec.foldlM (addClass initializer) ⟨.empty, []⟩ = .ok st := by
  have hparents : ∀ {v sub}, Recorded infoVec v sub → ∀ st : Building,
      ∃ st', sub.parents.foldlM (addParent v) st = .ok st' ∧ True := by
    intro v sub hsub st
    refine foldlM_exists_ok (fun _ _ => True) sub.parents ?_ trivial
    intro done p rest st hsplit _
    unfold addParent
    by_cases hp : p.1 = ""
    · have hfirst := h v sub hsub p (by rw [hsplit]; simp) hp
      rw [if_neg (not_not_intro hp), if_pos hfirst]
      exact ⟨_, rfl, trivial⟩
    · rw [if_pos hp]
      exact ⟨_, rfl, trivial⟩
  have hclasses : ∃ st, infoVec.foldlM (addClass initializer) ⟨.empty, []⟩ = .ok st ∧ True := by
    refine foldlM_exists_ok (fun _ _ => True) infoVec ?_ trivial
    intro done info rest st hsplit _
    obtain ⟨cha, hcha⟩ := hglobals info (by rw [hsplit]; simp) st.cha
    have hsubs : ∃ st', info.subVTables.zipIdx.foldlM (addSubVTable info.className)
        { st with cha := cha } = .ok st' ∧ True := by
      refine foldlM_exists_ok (fun _ _ => True) info.subVTables.zipIdx ?_ trivial
      rintro done' ⟨sub, i⟩ rest' st hsplit' _
      have hmem : (sub, i) ∈ info.subVTables.zipIdx := by rw [hsplit']; simp
      have hrecorded : Recorded infoVec (info.className, i) sub :=
        ⟨info, by rw [hsplit]; simp, rfl, List.mem_zipIdx_iff_getElem?.mp hmem⟩
      obtain ⟨st', hst', -⟩ := hparents hrecorded _
      exact ⟨_, bind_eq_ok.mpr ⟨st', hst', rfl⟩, trivial⟩
    obtain ⟨st', hst', -⟩ := hsubs
    exact ⟨st', bind_eq_ok.mpr ⟨cha, hcha, hst'⟩, trivial⟩
  obtain ⟨st, hok, -⟩ := hclasses
  exact ⟨st, hok⟩

/-- What the passes read of the tables is the same. -/
structure SameTables (cha cha' : SDBuildCHA) : Prop where
  children : cha.children = cha'.children
  functions : cha.functions = cha'.functions
  mem_cloudMap : ∀ v, v ∈ cha.cloudMap ↔ v ∈ cha'.cloudMap
  parentMap : ∀ c, (cha.parentMap.lookup c).getD [] = (cha'.parentMap.lookup c).getD []
  subObjNames : ∀ c, (cha.subObjNameMap.lookup c).getD [] = (cha'.subObjNameMap.lookup c).getD []
  roots : cha.roots = cha'.roots
  addrPtMap : cha.addrPtMap = cha'.addrPtMap
  rangeMap : cha.rangeMap = cha'.rangeMap
  ancestorMap : cha.ancestorMap = cha'.ancestorMap
  oldVTables : cha.oldVTables = cha'.oldVTables
  undefinedVTables : cha.undefinedVTables = cha'.undefinedVTables
  length_vtbls : cha.vtbls.length = cha'.vtbls.length
  length_entries : cha.entries.length = cha'.entries.length

theorem preorder_congr {cha cha' : SDBuildCHA} (hchildren : cha.children = cha'.children)
    (hlength : cha.vtbls.length = cha'.vtbls.length) : cha.preorder = cha'.preorder := by
  funext root
  rw [SDBuildCHA.preorder, SDBuildCHA.preorder, hchildren, hlength]

theorem ancestors_congr {cha cha' : SDBuildCHA} (hroots : cha.roots = cha'.roots)
    (hpreorder : cha.preorder = cha'.preorder) : ancestors cha = ancestors cha' := by
  rw [ancestors, ancestors, hroots, hpreorder]

theorem layoutClass_congr {cha cha' : SDBuildCHA} (h : cha.ancestorMap = cha'.ancestorMap) :
    layoutClass cha = layoutClass cha' := by
  have hancestor : cha.getAncestor = cha'.getAncestor := by
    funext v
    rw [SDBuildCHA.getAncestor, SDBuildCHA.getAncestor, h]
  funext c parents
  rw [layoutClass, layoutClass, hancestor]

section Permuted

variable {initializer : String → Option (List Constant)} {infoVec infoVec' : List Nmd}

theorem recorded_perm (hperm : infoVec.Perm infoVec') : Recorded infoVec = Recorded infoVec' := by
  funext v sub
  simp only [Recorded, hperm.mem_iff]

theorem classSubs_perm (hdistinct : (infoVec.map Nmd.className).Nodup)
    (hperm : infoVec.Perm infoVec') : classSubs infoVec = classSubs infoVec' := by
  have hdistinct' : (infoVec'.map Nmd.className).Nodup := (hperm.map _).nodup_iff.mp hdistinct
  funext c
  apply List.ext_getElem?
  intro i
  rw [Option.ext_iff]
  intro sub
  rw [classSubs_getElem? hdistinct (v := (c, i)), classSubs_getElem? hdistinct' (v := (c, i)),
    recorded_perm hperm]

theorem addClasses_sorted {st : Building}
    (h : infoVec.foldlM (addClass initializer) ⟨.empty, []⟩ = .ok st) : st.Sorted :=
  foldlM_ok_rule (fun _ t => t.Sorted) (fun _ _ _ _ ht _ hstep => addClass_sorted ht hstep)
    (fun _ => .nil) h

/-- The loop over the classes in another order. -/
theorem addClasses_same (hdistinct : (infoVec.map Nmd.className).Nodup)
    (hperm : infoVec.Perm infoVec') {st st' : Building}
    (h : infoVec.foldlM (addClass initializer) ⟨.empty, []⟩ = .ok st)
    (h' : infoVec'.foldlM (addClass initializer) ⟨.empty, []⟩ = .ok st')
    {names names' : AList fun _ : String => List String}
    (hnames : ∀ c, (names.lookup c).getD [] = (names'.lookup c).getD []) :
    SameTables { st.cha with ancestorMap := ancestors st.cha, subObjNameMap := names }
      { st'.cha with ancestorMap := ancestors st'.cha, subObjNameMap := names' } := by
  have hdistinct' : (infoVec'.map Nmd.className).Nodup := (hperm.map _).nodup_iff.mp hdistinct
  have hrecorded := recorded_perm hperm
  have hbuilt := addClasses_built h
  have hbuilt' := addClasses_built h'
  have htables := addClasses_tabulated h
  have htables' := addClasses_tabulated h'
  rw [← hrecorded] at hbuilt'
  rw [← classSubs_perm hdistinct hperm] at htables'
  have hasymm : Std.Asymm fun a b : Vtbl => vtblLt a b = true := by
    constructor
    intro a b hab hba
    rw [vtblLt_iff] at hab hba
    exact lt_asymm hab hba
  have hchildren : st.cha.children = st'.cha.children := by
    funext v
    apply eq_of_pairwise (addClasses_sorted h v) (addClasses_sorted h' v)
    intro w
    rw [hbuilt.mem_children, hbuilt'.mem_children]
  have hroots : st.cha.roots = st'.cha.roots := by
    apply eq_of_pairwise htables.roots_sorted htables'.roots_sorted
    intro r
    rw [hbuilt.mem_roots, hbuilt'.mem_roots]
  have hnone : ∀ v, v ∈ st.undefined ↔ v ∈ st'.undefined := by
    intro v
    rw [hbuilt.mem_undefined, hbuilt'.mem_undefined]
  have hcloudMap : ∀ v, v ∈ st.cha.cloudMap ↔ v ∈ st'.cha.cloudMap := by
    intro v
    rw [hbuilt.mem_cloudMap, hbuilt'.mem_cloudMap, hnone]
  have hlength : st.cha.vtbls.length = st'.cha.vtbls.length :=
    length_flatMap_entries hcloudMap (congrFun hchildren)
  have hlookup : ∀ v, st.cha.vTableFunctionMap.lookup v = st'.cha.vTableFunctionMap.lookup v := by
    intro v
    rw [Option.ext_iff]
    intro fs
    rw [lookup_functions hdistinct h, lookup_functions hdistinct' h', hrecorded]
  have hentries : st.cha.entries.length = st'.cha.entries.length := by
    apply length_flatMap_entries
    · intro v
      rw [← AList.lookup_isSome, ← AList.lookup_isSome, hlookup]
    · exact fun v => by rw [hlookup]
  have hundefined : st.cha.undefinedVTables = st'.cha.undefinedVTables := by
    apply eq_of_pairwise htables.undefinedVTables_sorted htables'.undefinedVTables_sorted
    intro c
    rw [htables.mem_undefinedVTables, htables'.mem_undefinedVTables, (hperm.map _).mem_iff]
  exact {
    children := hchildren
    functions := funext fun v => congrArg (Option.getD · []) (hlookup v)
    mem_cloudMap := hcloudMap
    parentMap := fun c => (htables.parentMap c).trans (htables'.parentMap c).symm
    subObjNames := hnames
    roots := hroots
    addrPtMap := funext fun c => (htables.addrPtMap c).trans (htables'.addrPtMap c).symm
    rangeMap := funext fun c => (htables.rangeMap c).trans (htables'.rangeMap c).symm
    ancestorMap := ancestors_congr hroots (preorder_congr hchildren hlength)
    oldVTables := by
      funext c
      rw [htables.oldVTables, htables'.oldVTables]
      simp only [(hperm.map _).mem_iff]
    undefinedVTables := hundefined
    length_vtbls := hlength
    length_entries := hentries }

/-- The classes may be linked in any order. -/
theorem buildClouds_perm (hdistinct : (infoVec.map Nmd.className).Nodup)
    (hperm : infoVec.Perm infoVec') {cha : SDBuildCHA}
    (h : buildClouds initializer infoVec = .ok cha) :
    ∃ cha', buildClouds initializer infoVec' = .ok cha' ∧ SameTables cha cha' := by
  obtain ⟨st, names, hclasses, hundefined, hnames, rfl⟩ := buildClouds_cases h
  have hbuilt := addClasses_built hclasses
  rw [recorded_perm hperm] at hbuilt
  have hglobals := addClasses_recordOldVTable hclasses
  obtain ⟨st', hclasses'⟩ := @addClasses_ok initializer _
    (fun info hinfo => hglobals info (hperm.mem_iff.mpr hinfo)) hbuilt.root_order
  have hsame := @addClasses_same _ _ _ hdistinct hperm _ _ hclasses hclasses' names _ fun _ => rfl
  have hundefined' : st'.undefined = [] := by
    rw [List.eq_nil_iff_forall_not_mem] at hundefined ⊢
    intro v hv
    rw [(addClasses_built hclasses').mem_undefined, ← hbuilt.mem_undefined] at hv
    exact hundefined v hv
  have hparents : ∀ c, (st'.cha.parentMap.lookup c).getD [] =
      (st.cha.parentMap.lookup c).getD [] := by
    intro c
    rw [(addClasses_tabulated hclasses).parentMap, (addClasses_tabulated hclasses').parentMap,
      classSubs_perm hdistinct hperm]
  have hlayoutClass : layoutClass { st'.cha with ancestorMap := ancestors st'.cha } =
      layoutClass { st.cha with ancestorMap := ancestors st.cha } :=
    layoutClass_congr hsame.ancestorMap.symm
  have hread := subObjNames_lookup hnames
  obtain ⟨names', hnames'⟩ : ∃ names',
      subObjNames { st'.cha with ancestorMap := ancestors st'.cha } = .ok names' := by
    apply subObjNames_ok
    intro c
    rw [hlayoutClass, hparents]
    exact ⟨_, hread c⟩
  have hread' := subObjNames_lookup hnames'
  have hlists : ∀ c, (names.lookup c).getD [] = (names'.lookup c).getD [] := by
    intro c
    have hnames'c := hread' c
    rw [hlayoutClass, hparents, hread c] at hnames'c
    exact Except.ok.inj hnames'c
  refine ⟨_, ?_, addClasses_same hdistinct hperm hclasses hclasses' hlists⟩
  rw [buildClouds, hclasses']
  simp only [bind, Except.bind, hundefined', hnames']
  rfl

end Permuted

namespace SameTables

variable {cha cha' : SDBuildCHA} (h : SameTables cha cha')
include h

theorem preorder : cha.preorder = cha'.preorder := preorder_congr h.children h.length_vtbls

theorem isUndefined : cha.isUndefined = cha'.isUndefined := by
  funext v
  rw [SDBuildCHA.isUndefined, SDBuildCHA.isUndefined, h.undefinedVTables]

theorem isDefined : cha.isDefined = cha'.isDefined := by
  funext v
  rw [SDBuildCHA.isDefined, SDBuildCHA.isDefined, h.isUndefined]

theorem addrPt : cha.addrPt = cha'.addrPt := by
  funext v
  rw [SDBuildCHA.addrPt, SDBuildCHA.addrPt, h.addrPtMap]

theorem getRange : cha.getRange = cha'.getRange := by
  funext v
  rw [SDBuildCHA.getRange, SDBuildCHA.getRange, h.rangeMap]

theorem getVTableOrder : cha.getVTableOrder = cha'.getVTableOrder := by
  funext vtbl ind
  rw [SDBuildCHA.getVTableOrder, SDBuildCHA.getVTableOrder, h.rangeMap]

theorem getLayoutClassName : cha.getLayoutClassName = cha'.getLayoutClassName := by
  funext v
  rw [SDBuildCHA.getLayoutClassName, SDBuildCHA.getLayoutClassName, h.subObjNames]

theorem firstDefinedChild : cha.firstDefinedChild = cha'.firstDefinedChild := by
  funext v
  rw [SDBuildCHA.firstDefinedChild, SDBuildCHA.firstDefinedChild, h.preorder, h.isDefined]

theorem knowsAbout : cha.knowsAbout = cha'.knowsAbout := by
  funext v
  exact decide_eq_decide.mpr (h.mem_cloudMap v)

theorem isAncestor : cha.isAncestor = cha'.isAncestor := by
  have hparents : cha.parents = cha'.parents := by
    funext v
    rw [SDBuildCHA.parents, SDBuildCHA.parents, h.parentMap]
  funext base derived
  rw [SDBuildCHA.isAncestor, SDBuildCHA.isAncestor, hparents, h.length_vtbls]

theorem topoSort : cha.topoSort = cha'.topoSort := by
  have hhelper : ∀ fuel, cha.topoSortHelper fuel = cha'.topoSortHelper fuel := by
    intro fuel
    induction fuel with
    | zero => rfl
    | succ fuel ih =>
      funext node s
      rw [SDBuildCHA.topoSortHelper, SDBuildCHA.topoSortHelper, ih, h.children]
  have hlength : cha.classNames.length = cha'.classNames.length := by
    rw [SDBuildCHA.classNames, SDBuildCHA.classNames, List.length_append, List.length_append,
      List.length_map, List.length_map, h.roots, h.length_vtbls]
  rw [SDBuildCHA.topoSort, SDBuildCHA.topoSort, h.roots, hlength, hhelper]

theorem functionImpls : cha.functionImpls = cha'.functionImpls := by
  have himpl : cha.implEntries = cha'.implEntries := by
    funext className function
    rw [SDBuildCHA.implEntries, SDBuildCHA.implEntries, h.subObjNames, h.functions]
  funext order
  rw [SDBuildCHA.functionImpls, SDBuildCHA.functionImpls, himpl, h.functions]

theorem buildFunctionInfo : cha.buildFunctionInfo = cha'.buildFunctionInfo := by
  have hslot : cha.slotEntry = cha'.slotEntry := by
    funext v offset
    rw [SDBuildCHA.slotEntry, SDBuildCHA.slotEntry, h.functions]
  have hvisit : cha.visitChild = cha'.visitChild := by
    funext recurse offset acc child
    rw [SDBuildCHA.visitChild, SDBuildCHA.visitChild, hslot]
  have hrecursion : ∀ fuel,
      cha.buildFunctionInfoForFunction fuel = cha'.buildFunctionInfoForFunction fuel := by
    intro fuel
    induction fuel with
    | zero => rfl
    | succ fuel ih =>
      funext function s
      rw [SDBuildCHA.buildFunctionInfoForFunction, SDBuildCHA.buildFunctionInfoForFunction, ih,
        hvisit, h.children]
  have hbase : cha.buildBaseFunction = cha'.buildBaseFunction := by
    funext s function
    rw [SDBuildCHA.buildBaseFunction, SDBuildCHA.buildBaseFunction, h.length_entries, hrecursion]
  rw [SDBuildCHA.buildFunctionInfo, SDBuildCHA.buildFunctionInfo, h.topoSort, h.functionImpls,
    hbase]

end SameTables

end RhoFEM.CHA
