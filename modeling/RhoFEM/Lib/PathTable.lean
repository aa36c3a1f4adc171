import RhoFEM.Lib.Fold
import RhoFEM.Lib.PathMap

/-! A table of numbered paths, in which another path to a node gets the number under the longest
initial segment of the path that defines the node. -/

universe u

namespace RhoFEM.Lib.PathTable

open RhoFEM.Lib.Fold RhoFEM.Lib.PathMap

variable {α : Type u}

/-- The lists `stored` and `resolved` log the numbers that were given and looked up. -/
structure Table (α : Type u) where
  entries : List (List α × Option Nat)
  defs : α → Option (List α)
  next : Nat
  stored : List (List α × Nat)
  resolved : List (Option Nat)

inductive Write (α : Type u)
  | store (path : List α) (node : α)
  | resolve (path : List α) (node : α)

def storedPaths (writes : List (Write α)) : List (List α) :=
  writes.filterMap fun
    | .store path _ => some path
    | .resolve _ _ => none

def resolvedPaths (writes : List (Write α)) : List (List α) :=
  writes.filterMap fun
    | .store _ _ => none
    | .resolve path _ => some path

@[simp] theorem storedPaths_append (writes writes' : List (Write α)) :
    storedPaths (writes ++ writes') = storedPaths writes ++ storedPaths writes' :=
  List.filterMap_append

@[simp] theorem resolvedPaths_append (writes writes' : List (Write α)) :
    resolvedPaths (writes ++ writes') = resolvedPaths writes ++ resolvedPaths writes' :=
  List.filterMap_append

theorem storedPaths_subset_of_eq {writes pre post : List (Write α)} (h : writes = pre ++ post) :
    storedPaths pre ⊆ storedPaths writes := by
  rw [h, storedPaths_append]
  exact List.subset_append_left _ _

/-- The rank of the node that a path leads to. -/
def pathRank (rank : α → Nat) (top : Nat) (path : List α) : Nat :=
  (path.getLast?.map rank).getD top

/-- A path to a node on which all ranks before are larger. -/
structure Leads (rank : α → Nat) (top : Nat) (path : List α) (node : α) : Prop where
  last : path.getLast? = some node
  above : ∀ init, init <+: path → init ≠ path → rank node < pathRank rank top init

theorem Leads.rank_eq {rank : α → Nat} {top : Nat} {path : List α} {node : α}
    (h : Leads rank top path node) : pathRank rank top path = rank node := by
  rw [pathRank, h.last, Option.map_some, Option.getD_some]

theorem Leads.node_unique {rank : α → Nat} {top : Nat} {path : List α} {node node' : α}
    (h : Leads rank top path node) (h' : Leads rank top path node') : node = node' :=
  Option.some.inj (h.last.symm.trans h'.last)

/-- What holds for each element of a list and those before it. -/
def EachAfter {β : Type u} (P : List β → β → Prop) (xs : List β) : Prop :=
  ∀ pre x post, xs = pre ++ x :: post → P pre x

theorem eachAfter_nil {β : Type u} (P : List β → β → Prop) : EachAfter P [] := by
  intro pre x post h
  cases pre <;> cases h

theorem eachAfter_concat {β : Type u} {P : List β → β → Prop} {xs : List β} {y : β} :
    EachAfter P (xs ++ [y]) ↔ EachAfter P xs ∧ P xs y := by
  constructor
  · intro h
    refine ⟨fun pre x post hxs => h pre x (post ++ [y]) ?_, h xs y [] rfl⟩
    rw [hxs, List.append_assoc]
    rfl
  · rintro ⟨hxs, hy⟩ pre x post h
    rcases List.eq_nil_or_concat post with rfl | ⟨post, z, rfl⟩
    · obtain ⟨rfl, hlast⟩ := List.append_inj' h rfl
      obtain rfl := (List.cons.inj hlast).1
      exact hy
    · rw [List.concat_eq_append, ← List.cons_append, ← List.append_assoc] at h
      exact hxs pre x post (List.append_inj' h rfl).1

namespace Table

variable [DecidableEq α]

def resolution (t : Table α) (node : α) : Option Nat :=
  (lookupLongest t.entries ((t.defs node).getD [])).join

def write (t : Table α) : Write α → Table α
  | .store path node =>
    { t with
      entries := assign path (some t.next) t.entries
      defs := Function.update t.defs node (some path)
      next := t.next + 1
      stored := t.stored ++ [(path, t.next)] }
  | .resolve path node =>
    { t with
      entries := assign path (t.resolution node) t.entries
      resolved := t.resolved ++ [t.resolution node] }

theorem lookup_store (t : Table α) (path path' : List α) (node : α) :
    (t.write (.store path node)).entries.lookup path' =
      if path' = path then some (some t.next) else t.entries.lookup path' :=
  lookup_assign path path' _ t.entries

theorem lookup_resolve (t : Table α) (path path' : List α) (node : α) :
    (t.write (.resolve path node)).entries.lookup path' =
      if path' = path then some (t.resolution node) else t.entries.lookup path' :=
  lookup_assign path path' _ t.entries

/-- The definitions after some writes. -/
def defsAfter (defs : α → Option (List α)) (writes : List (Write α)) : α → Option (List α) :=
  writes.foldl (fun defs w => match w with
    | .store path node => Function.update defs node (some path)
    | .resolve _ _ => defs) defs

/-- The entries are the numbers that were stored. -/
structure Fresh (t : Table α) : Prop where
  lookup_iff : ∀ path v, t.entries.lookup path = some v ↔ ∃ n, v = some n ∧ (path, n) ∈ t.stored
  numbers : t.stored.map Prod.snd = List.range t.next
  resolved : t.resolved = []

theorem Fresh.store {t : Table α} (h : t.Fresh) {path : List α}
    (hnew : path ∉ t.stored.map Prod.fst) (node : α) (defs : α → Option (List α)) :
    { t.write (.store path node) with defs := defs }.Fresh where
  lookup_iff path' v := by
    rw [lookup_store]
    by_cases heq : path' = path
    · subst heq
      rw [if_pos rfl]
      constructor
      · intro hv
        exact ⟨t.next, (Option.some.inj hv).symm,
          List.mem_append_right _ (List.mem_singleton_self _)⟩
      · rintro ⟨n, rfl, hn⟩
        rcases List.mem_append.mp hn with hold | hlast
        · exact absurd (List.mem_map_of_mem hold) hnew
        · obtain ⟨-, rfl⟩ := Prod.mk.inj (List.mem_singleton.mp hlast)
          rfl
    · rw [if_neg heq, h.lookup_iff]
      simp [write, heq]
  numbers := by
    have hrange : (t.stored ++ [(path, t.next)]).map Prod.snd = List.range (t.next + 1) := by
      rw [List.map_append, h.numbers, List.range_succ]
      rfl
    exact hrange
  resolved := h.resolved

/-- Writes to a fresh table: no path is written twice in one way, paths lead to their nodes, and a
node is defined before another path to it is resolved. -/
structure Regular (rank : α → Nat) (top : Nat) (t : Table α) (writes : List (Write α)) : Prop where
  fresh : t.Fresh
  stored_nodup : (t.stored.map Prod.fst ++ storedPaths writes).Nodup
  resolved_nodup : (resolvedPaths writes).Nodup
  defs_lead : ∀ node path, t.defs node = some path → Leads rank top path node
  store_leads : ∀ path node, .store path node ∈ writes → Leads rank top path node
  resolve_leads : ∀ path node, .resolve path node ∈ writes → Leads rank top path node
  defined : ∀ done path node rest, writes = done ++ .resolve path node :: rest →
    (defsAfter t.defs done node).isSome

/-- The paths with an entry after some writes. -/
def paths (t : Table α) (done : List (Write α)) : List (List α) :=
  t.stored.map Prod.fst ++ storedPaths done ++ resolvedPaths done

/-- An initial segment of the path that defines a resolved node was written. -/
def Found (t : Table α) (done : List (Write α)) : Write α → Prop
  | .store _ _ => True
  | .resolve _ node => ∃ path ∈ defsAfter t.defs done node, ∃ init ∈ t.paths done, init <+: path

/-- A path that was stored is resolved only where it defines its node. -/
def Kept (t : Table α) (done : List (Write α)) : Write α → Prop
  | .store _ _ => True
  | .resolve path node =>
    path ∈ t.stored.map Prod.fst ++ storedPaths done → defsAfter t.defs done node = some path

/-- What holds after some writes. -/
structure Tracks (rank : α → Nat) (top : Nat) (t : Table α) (done : List (Write α))
    (t' : Table α) : Prop where
  defs : t'.defs = defsAfter t.defs done
  stored : t'.stored.map Prod.fst = t.stored.map Prod.fst ++ storedPaths done
  numbers : t'.stored.map Prod.snd = List.range t'.next
  keys : ∀ path, (t'.entries.lookup path).isSome ↔ path ∈ t.paths done
  leads : ∀ node path, t'.defs node = some path → Leads rank top path node
  origin : ∀ path n, t'.entries.lookup path = some (some n) →
    ∃ s ∈ t'.stored, s.2 = n ∧ pathRank rank top path ≤ pathRank rank top s.1
  defined : ∀ node path n, t'.defs node = some path → t'.entries.lookup path = some (some n) →
    ∃ s ∈ t'.stored, s.2 = n ∧ (s.1 = path ∨ rank node < pathRank rank top s.1)
  found : none ∉ t'.resolved ↔ EachAfter t.Found done
  total : none ∉ t'.resolved → ∀ path, t'.entries.lookup path ≠ some none
  kept : ∀ s ∈ t'.stored, t'.entries.lookup s.1 = some (some s.2) ↔
    EachAfter (fun pre w => ∀ node, w = .resolve s.1 node → t.Kept pre w) done

variable {rank : α → Nat} {top : Nat} {t t' : Table α} {done : List (Write α)}

@[simp] theorem defsAfter_concat (defs : α → Option (List α)) (done : List (Write α))
    (w : Write α) : defsAfter defs (done ++ [w]) = match w with
      | .store path node => Function.update (defsAfter defs done) node (some path)
      | .resolve _ _ => defsAfter defs done := by
  rw [defsAfter, List.foldl_append]
  rfl

theorem Tracks.start {writes : List (Write α)} (h : t.Regular rank top writes) :
    t.Tracks rank top [] t where
  defs := rfl
  stored := (List.append_nil _).symm
  numbers := h.fresh.numbers
  keys path := by
    simp only [paths, storedPaths, resolvedPaths, List.filterMap_nil, List.append_nil, List.mem_map]
    rw [Option.isSome_iff_exists]
    constructor
    · rintro ⟨v, hv⟩
      obtain ⟨n, -, hn⟩ := (h.fresh.lookup_iff path v).mp hv
      exact ⟨_, hn, rfl⟩
    · rintro ⟨s, hs, rfl⟩
      exact ⟨some s.2, (h.fresh.lookup_iff s.1 _).mpr ⟨s.2, rfl, hs⟩⟩
  leads := h.defs_lead
  origin path n hn := by
    obtain ⟨m, hm, hs⟩ := (h.fresh.lookup_iff path _).mp hn
    exact ⟨_, hs, (Option.some.inj hm).symm, le_refl _⟩
  defined node path n _ hn := by
    obtain ⟨m, hm, hs⟩ := (h.fresh.lookup_iff path _).mp hn
    exact ⟨_, hs, (Option.some.inj hm).symm, .inl rfl⟩
  found := iff_of_true (by simp [h.fresh.resolved]) (eachAfter_nil _)
  total _ path hnone := by
    obtain ⟨n, hn, -⟩ := (h.fresh.lookup_iff path _).mp hnone
    cases hn
  kept s hs :=
    iff_of_true ((h.fresh.lookup_iff s.1 _).mpr ⟨s.2, rfl, hs⟩) (eachAfter_nil _)

/-- Numbers and paths of stores are distinct. -/
theorem Tracks.eq_of_number (h : t.Tracks rank top done t') {s s' : List α × Nat}
    (hs : s ∈ t'.stored) (hs' : s' ∈ t'.stored) (heq : s.2 = s'.2) : s = s' :=
  List.inj_on_of_nodup_map (h.numbers ▸ List.nodup_range) hs hs' heq

theorem Tracks.store (h : t.Tracks rank top done t') {path : List α} {node : α}
    (hleads : Leads rank top path node) (hnew : path ∉ t.stored.map Prod.fst ++ storedPaths done) :
    t.Tracks rank top (done ++ [.store path node]) (t'.write (.store path node)) := by
  have hother : ∀ s ∈ t'.stored, s.1 ≠ path := by
    rintro s hs rfl
    exact hnew (h.stored ▸ List.mem_map_of_mem hs)
  constructor
  case defs =>
    rw [defsAfter_concat, ← h.defs]
    rfl
  case stored =>
    rw [storedPaths_append, ← List.append_assoc, ← h.stored]
    exact List.map_append
  case numbers =>
    have hrange : (t'.stored ++ [(path, t'.next)]).map Prod.snd = List.range (t'.next + 1) := by
      rw [List.map_append, h.numbers, List.range_succ]
      rfl
    exact hrange
  case keys =>
    intro path'
    have hpaths : storedPaths [Write.store path node] = [path] ∧
        resolvedPaths [Write.store path node] = [] := ⟨rfl, rfl⟩
    rw [lookup_store, paths, storedPaths_append, resolvedPaths_append, hpaths.1, hpaths.2,
      List.append_nil]
    by_cases heq : path' = path
    · simp [heq]
    · rw [if_neg heq, h.keys]
      simp [paths, heq]
  case leads =>
    intro node' path' hdef
    by_cases hnode : node' = node
    · subst hnode
      obtain rfl : path = path' := by simpa [write] using hdef
      exact hleads
    · exact h.leads node' path' (by simpa [write, hnode] using hdef)
  case origin =>
    intro path' n hn
    rw [lookup_store] at hn
    split at hn
    · rename_i heq
      obtain rfl : t'.next = n := by simpa using hn
      exact ⟨_, List.mem_append_right _ (List.mem_singleton_self _), rfl, heq ▸ le_refl _⟩
    · obtain ⟨s, hs, hrest⟩ := h.origin path' n hn
      exact ⟨s, List.mem_append_left _ hs, hrest⟩
  case defined =>
    intro node' path' n hdef hn
    rw [lookup_store] at hn
    by_cases hnode : node' = node
    · subst hnode
      obtain rfl : path = path' := by simpa [write] using hdef
      obtain rfl : t'.next = n := by simpa using hn
      exact ⟨_, List.mem_append_right _ (List.mem_singleton_self _), rfl, .inl rfl⟩
    · have hold : t'.defs node' = some path' := by simpa [write, hnode] using hdef
      rw [if_neg] at hn
      · obtain ⟨s, hs, hrest⟩ := h.defined node' path' n hold hn
        exact ⟨s, List.mem_append_left _ hs, hrest⟩
      · rintro rfl
        exact hnode ((h.leads node' _ hold).node_unique hleads)
  case found =>
    rw [eachAfter_concat]
    exact h.found.trans (and_iff_left trivial).symm
  case total =>
    intro hresolved path'
    rw [lookup_store]
    split
    · simp
    · exact h.total hresolved path'
  case kept =>
    have hlast : ∀ path', EachAfter (fun pre w => ∀ node, w = .resolve path' node → t.Kept pre w)
        (done ++ [.store path node]) ↔
          EachAfter (fun pre w => ∀ node, w = .resolve path' node → t.Kept pre w) done := by
      intro path'
      rw [eachAfter_concat]
      exact and_iff_left fun node heq => by cases heq
    intro s hs
    rw [hlast, lookup_store]
    rcases List.mem_append.mp hs with hold | hs
    · rw [if_neg (hother s hold)]
      exact h.kept s hold
    · obtain rfl := List.mem_singleton.mp hs
      refine iff_of_true (if_pos rfl) ?_
      rintro pre _ post hdone node' rfl hmem
      refine absurd ?_ hnew
      rw [List.mem_append] at hmem ⊢
      exact hmem.imp_right fun hpre => storedPaths_subset_of_eq hdone hpre

theorem resolution_eq (t : Table α) {node : α} {q : List α} (hdef : t.defs node = some q) :
    t.resolution node = (lookupLongest t.entries q).join := by
  rw [resolution, hdef, Option.getD_some]

/-- The entry of the definition itself comes first. -/
theorem resolution_of_lookup {node : α} {q : List α} (hdef : t.defs node = some q)
    {v : Option Nat} (hv : t.entries.lookup q = some v) : t.resolution node = v := by
  rw [t.resolution_eq hdef, lookupLongest_of_lookup hv, Option.join_some]

/-- A number that is found was stored for the definition, or for a path to a larger rank. -/
theorem Tracks.exists_stored (h : t.Tracks rank top done t') {node : α} {q : List α} {n : Nat}
    (hdef : t'.defs node = some q) (hn : t'.resolution node = some n) :
    ∃ s ∈ t'.stored, s.2 = n ∧ (s.1 = q ∨ rank node < pathRank rank top s.1) := by
  rw [t'.resolution_eq hdef, Option.join_eq_some_iff] at hn
  obtain ⟨init, hbegins, hlookup⟩ := exists_of_lookupLongest hn
  by_cases hinit : init = q
  · exact h.defined node q n hdef (hinit ▸ hlookup)
  · obtain ⟨s, hs, hnumber, hrank⟩ := h.origin init n hlookup
    exact ⟨s, hs, hnumber, .inr (((h.leads node q hdef).above init hbegins hinit).trans_le hrank)⟩

/-- As long as every number was found, one is found under each written initial segment. -/
theorem Tracks.resolution_ne_none_iff (h : t.Tracks rank top done t') (hfound : none ∉ t'.resolved)
    {node : α} {q : List α} (hdef : t'.defs node = some q) :
    t'.resolution node ≠ none ↔ ∃ init ∈ t.paths done, init <+: q := by
  have hnone : t'.resolution node = none ↔
      ∀ init, init <+: q → t'.entries.lookup init = none := by
    rw [t'.resolution_eq hdef, ← lookupLongest_eq_none, Option.join_eq_none_iff]
    refine or_iff_left fun hsome => ?_
    obtain ⟨init, -, hlookup⟩ := exists_of_lookupLongest hsome
    exact h.total hfound init hlookup
  rw [ne_eq, hnone, not_forall]
  refine exists_congr fun init => ?_
  rw [Classical.not_imp, ← h.keys, Option.isSome_iff_ne_none, and_comm]

theorem Tracks.resolve (h : t.Tracks rank top done t') {path : List α} {node : α}
    (hleads : Leads rank top path node) (hdef : (defsAfter t.defs done node).isSome)
    (hnew : path ∉ resolvedPaths done) :
    t.Tracks rank top (done ++ [.resolve path node]) (t'.write (.resolve path node)) := by
  obtain ⟨q, hq⟩ := Option.isSome_iff_exists.mp hdef
  have hqdef : t'.defs node = some q := h.defs ▸ hq
  have hqleads := h.leads node q hqdef
  constructor
  case defs =>
    rw [defsAfter_concat]
    exact h.defs
  case stored =>
    rw [storedPaths_append]
    exact h.stored.trans (congrArg _ (List.append_nil _).symm)
  case numbers => exact h.numbers
  case keys =>
    intro path'
    have hpaths : storedPaths [Write.resolve path node] = [] ∧
        resolvedPaths [Write.resolve path node] = [path] := ⟨rfl, rfl⟩
    rw [lookup_resolve, paths, storedPaths_append, resolvedPaths_append, hpaths.1, hpaths.2,
      List.append_nil]
    by_cases heq : path' = path
    · simp [heq]
    · rw [if_neg heq, h.keys]
      simp [paths, heq]
  case leads => exact h.leads
  case origin =>
    intro path' n hn
    rw [lookup_resolve] at hn
    split at hn
    · rename_i heq
      obtain ⟨s, hs, hnumber, hcase⟩ := h.exists_stored hqdef (Option.some.inj hn)
      refine ⟨s, hs, hnumber, ?_⟩
      rw [heq, hleads.rank_eq]
      rcases hcase with hpath | hrank
      · rw [hpath, hqleads.rank_eq]
      · exact hrank.le
    · exact h.origin path' n hn
  case defined =>
    intro node' path' n hdef' hn
    rw [lookup_resolve] at hn
    split at hn
    · rename_i heq
      subst heq
      obtain rfl := (h.leads node' path' hdef').node_unique hleads
      exact h.exists_stored hdef' (Option.some.inj hn)
    · exact h.defined node' path' n hdef' hn
  case found =>
    have hresolved : (t'.write (.resolve path node)).resolved =
        t'.resolved ++ [t'.resolution node] := rfl
    rw [eachAfter_concat, ← h.found, hresolved, List.mem_append, List.mem_singleton, not_or]
    refine and_congr_right fun htotal => ?_
    rw [eq_comm, ← ne_eq, h.resolution_ne_none_iff htotal hqdef, Found, hq]
    simp
  case total =>
    intro hresolved path'
    have hmem := mt (List.mem_append_right t'.resolved) hresolved
    rw [lookup_resolve]
    split
    · intro hsome
      exact hmem (List.mem_singleton.mpr (Option.some.inj hsome).symm)
    · exact h.total (mt (List.mem_append_left _) hresolved) path'
  case kept =>
    intro s hs
    rw [eachAfter_concat, lookup_resolve]
    split
    · rename_i heq
      have hfirst : EachAfter (fun pre w => ∀ node, w = .resolve s.1 node → t.Kept pre w) done := by
        rintro pre _ post hdone node' rfl
        refine absurd ?_ hnew
        rw [hdone, resolvedPaths_append, heq]
        exact List.mem_append_right _ List.mem_cons_self
      have hstored : s.1 ∈ t.stored.map Prod.fst ++ storedPaths done :=
        h.stored ▸ List.mem_map_of_mem hs
      have hkept := (h.kept s hs).mpr hfirst
      constructor
      · intro hnumber
        refine ⟨hfirst, fun node' hsame _ => ?_⟩
        obtain ⟨rfl, rfl⟩ := Write.resolve.inj hsame
        obtain ⟨s', hs', hsame', hcase⟩ := h.exists_stored hqdef (Option.some.inj hnumber)
        obtain rfl := h.eq_of_number hs' hs hsame'
        rcases hcase with hpath | hrank
        · rw [hq, hpath]
        · exact absurd (hleads.rank_eq ▸ hrank) (Nat.lt_irrefl _)
      · rintro ⟨-, hlast⟩
        have hdefines := hlast node (by rw [heq]) (heq ▸ hstored)
        obtain rfl : q = path := Option.some.inj (hq.symm.trans hdefines)
        rw [resolution_of_lookup hqdef (heq ▸ hkept)]
    · rename_i hne
      rw [h.kept s hs]
      exact (and_iff_left fun node' heq => absurd (by cases heq; rfl) hne).symm

theorem Regular.tracks {writes : List (Write α)} (h : t.Regular rank top writes) :
    t.Tracks rank top writes (writes.foldl write t) := by
  refine foldl_rule (fun done t' => t.Tracks rank top done t') ?step (.start h)
  case step =>
    intro done w rest t' hwrites htracks
    have hmem : w ∈ writes := by simp [hwrites]
    cases w with
    | store path node =>
      refine htracks.store (h.store_leads path node hmem) ?_
      have hnodup := h.stored_nodup
      have hpaths : storedPaths (.store path node :: rest) = path :: storedPaths rest := rfl
      rw [hwrites, storedPaths_append, hpaths, ← List.append_assoc, List.nodup_middle,
        List.nodup_cons] at hnodup
      exact fun hin => hnodup.1 (List.mem_append_left _ hin)
    | resolve path node =>
      refine htracks.resolve (h.resolve_leads path node hmem)
        (h.defined done path node rest hwrites) ?_
      have hnodup := h.resolved_nodup
      have hpaths : resolvedPaths (.resolve path node :: rest) = path :: resolvedPaths rest := rfl
      rw [hwrites, resolvedPaths_append, hpaths, List.nodup_middle, List.nodup_cons] at hnodup
      exact fun hin => hnodup.1 (List.mem_append_left _ hin)

/-- All lookups find a number just if each time an initial segment of the definition was written. -/
theorem Regular.found_iff {writes : List (Write α)} (h : t.Regular rank top writes) :
    none ∉ (writes.foldl write t).resolved ↔ EachAfter t.Found writes := h.tracks.found

/-- The table holds the stored numbers at the end just if no stored path is resolved but where it
defines its node. -/
theorem Regular.kept_iff {writes : List (Write α)} (h : t.Regular rank top writes) :
    (∀ s ∈ (writes.foldl write t).stored,
      (writes.foldl write t).entries.lookup s.1 = some (some s.2)) ↔ EachAfter t.Kept writes := by
  have htracks := h.tracks
  constructor
  · intro hkept pre w post hwrites
    cases w with
    | store path node => trivial
    | resolve path node =>
      intro hmem
      have hstored : path ∈ (writes.foldl write t).stored.map Prod.fst := by
        rw [htracks.stored]
        rw [List.mem_append] at hmem ⊢
        exact hmem.imp_right fun hpre => storedPaths_subset_of_eq hwrites hpre
      obtain ⟨s, hs, rfl⟩ := List.mem_map.mp hstored
      exact (htracks.kept s hs).mp (hkept s hs) pre _ post hwrites node rfl hmem
  · intro hkept s hs
    exact (htracks.kept s hs).mpr fun pre w post hwrites node _ => hkept pre w post hwrites

end Table

end RhoFEM.Lib.PathTable
