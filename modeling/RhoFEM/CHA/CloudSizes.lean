import RhoFEM.CHA.Clouds
import RhoFEM.Lib.Fold
import RhoFEM.Lib.Paths

/-! The sizes of the clouds, as they are counted for the widths of the range checks. -/

namespace RhoFEM.CHA

open RhoFEM.Lib.Fold RhoFEM.Lib.Paths RhoFEM.Lib.Search

abbrev CloudSizeMap := Vtbl → Option Nat

variable (cha : SDBuildCHA)

/-- The count and the stored sizes; counts are words of 32 bits. -/
def calculateChildrenCounts : Nat → CloudSizeMap → Vtbl → Except Failure (Nat × CloudSizeMap)
  | 0, _, _ => .error .outOfFuel
  | fuel + 1, cloudSizeMap, root => do
    let (count, cloudSizeMap) ← (cha.children root).foldlM (fun st n => do
      let (childCount, cloudSizeMap) ← calculateChildrenCounts fuel st.2 n
      return ((st.1 + childCount) % 2 ^ 32, cloudSizeMap))
      (if cha.isDefined root then 1 else 0, cloudSizeMap)
    return (count, Function.update cloudSizeMap root (some count))

/-- The loop over the roots. -/
def calculateCloudSizes : Except Failure CloudSizeMap :=
  cha.roots.foldlM (fun cloudSizeMap root =>
    (calculateChildrenCounts cha (cha.vtbls.length + 1) cloudSizeMap (root, 0)).map Prod.snd)
    fun _ => none

def getCloudSize (cloudSizeMap : CloudSizeMap) (vtbl : String) : Nat :=
  (cloudSizeMap (vtbl, 0)).getD 0

/-- The paths from a node to defined sub-vtables. -/
abbrev DefinedPaths (v : Vtbl) : Set (List Vtbl) := PathsTo cha.children cha.isDefined v

/-- The stored sizes are those from before, and the numbers of paths for some nodes. -/
structure Counted (nodes : Vtbl → Prop) (cloudSizeMap stored : CloudSizeMap) : Prop where
  of_mem : ∀ x, nodes x → stored x = some ((DefinedPaths cha x).ncard % 2 ^ 32)
  of_notMem : ∀ x, ¬ nodes x → stored x = cloudSizeMap x

variable {cha}

theorem Counted.trans {nodes nodes' : Vtbl → Prop} {m m' m'' : CloudSizeMap}
    (h : Counted cha nodes m m') (h' : Counted cha nodes' m' m'') :
    Counted cha (fun x => nodes x ∨ nodes' x) m m'' := by
  constructor
  · intro x hx
    by_cases hx' : nodes' x
    · exact h'.of_mem x hx'
    · exact (h'.of_notMem x hx').trans (h.of_mem x (hx.resolve_right hx'))
  · intro x hx
    obtain ⟨hnot, hnot'⟩ := not_or.mp hx
    exact (h'.of_notMem x hnot').trans (h.of_notMem x hnot)

theorem Counted.congr {nodes nodes' : Vtbl → Prop} {m m' : CloudSizeMap}
    (h : Counted cha nodes m m') (hiff : ∀ x, nodes' x ↔ nodes x) : Counted cha nodes' m m' :=
  ⟨fun x hx => h.of_mem x ((hiff x).mp hx), fun x hx => h.of_notMem x (mt (hiff x).mpr hx)⟩

theorem Counted.refl (m : CloudSizeMap) : Counted cha (fun _ => False) m m :=
  ⟨fun _ h => h.elim, fun _ _ => rfl⟩

theorem Counted.single (v : Vtbl) (m : CloudSizeMap) : Counted cha (fun x => x = v) m
    (Function.update m v (some ((DefinedPaths cha v).ncard % 2 ^ 32))) := by
  constructor
  · rintro x rfl
    exact Function.update_self ..
  · exact fun x hx => Function.update_of_ne hx ..

section Run

variable {rank : Vtbl → Nat} (hrank : ∀ a, ∀ b ∈ cha.children a, rank b < rank a)
  (hset : ∀ v, (cha.children v).Nodup)
include hrank hset

/-- The recursion returns the number of paths, and stores it for all nodes below. -/
theorem calculateChildrenCounts_ok (fuel : Nat) {v : Vtbl} (hfuel : rank v < fuel)
    (m : CloudSizeMap) :
    ∃ m', calculateChildrenCounts cha fuel m v = .ok ((DefinedPaths cha v).ncard % 2 ^ 32, m') ∧
      Counted cha (Reaches cha.children v) m m' := by
  induction fuel generalizing v m with
  | zero => exact absurd hfuel (Nat.not_lt_zero _)
  | succ fuel ih =>
    have hchildren := foldlM_exists_ok (s := ((if cha.isDefined v then 1 else 0), m))
      (f := fun st n => do
        let (childCount, cloudSizeMap) ← calculateChildrenCounts cha fuel st.2 n
        return ((st.1 + childCount) % 2 ^ 32, cloudSizeMap))
      (fun done st => st.1 = ((if cha.isDefined v then 1 else 0) +
          (done.map fun c => (DefinedPaths cha c).ncard).sum) % 2 ^ 32 ∧
        Counted cha (fun x => ∃ c ∈ done, Reaches cha.children c x) m st.2)
      (cha.children v) ?step ?start
    case step =>
      rintro done c rest ⟨count, m₁⟩ hsplit ⟨hcount, hcounted⟩
      have hc : c ∈ cha.children v := by simp [hsplit]
      obtain ⟨m₂, hok, hchild⟩ := ih ((hrank v c hc).trans_le (Nat.le_of_lt_succ hfuel)) m₁
      refine ⟨_, bind_eq_ok.mpr ⟨_, hok, rfl⟩, ?_, ?_⟩
      · have hcount : count = _ := hcount
        simp only [hcount, List.map_append, List.map_singleton, List.sum_append,
          List.sum_singleton, ← Nat.add_mod, Nat.add_assoc]
      · apply (hcounted.trans hchild).congr
        simp [or_and_right, exists_or]
    case start =>
      refine ⟨by split <;> rfl, ?_⟩
      exact (Counted.refl m).congr (by simp)
    obtain ⟨⟨count, m₁⟩, hok, hcount, hcounted⟩ := hchildren
    have hsum : count = (DefinedPaths cha v).ncard % 2 ^ 32 := by
      rw [DefinedPaths, ncard_pathsTo_eq_sum hrank hset]
      exact hcount
    subst hsum
    refine ⟨_, bind_eq_ok.mpr ⟨_, hok, rfl⟩, ?_⟩
    apply (hcounted.trans (Counted.single v m₁)).congr
    intro x
    refine Relation.ReflTransGen.cases_head_iff.trans ?_
    rw [or_comm]
    exact or_congr_right eq_comm

end Run

theorem calculateCloudSizes_ok (hacyclic : Acyclic cha.children)
    (hset : ∀ v, (cha.children v).Nodup) :
    ∃ m, calculateCloudSizes cha = .ok m ∧
      Counted cha (fun x => ∃ root ∈ cha.roots, Reaches cha.children (root, 0) x) (fun _ => none)
        m := by
  obtain ⟨rank, hrank, hbound⟩ := hacyclic.exists_rank cha.supported
  apply foldlM_exists_ok fun done m =>
    Counted cha (fun x => ∃ root ∈ done, Reaches cha.children (root, 0) x) (fun _ => none) m
  case hstep =>
    intro done root rest m _ hdone
    obtain ⟨m', hok, hroot⟩ := calculateChildrenCounts_ok hrank hset (cha.vtbls.length + 1)
      (Nat.lt_succ_of_le (hbound (root, 0))) m
    refine ⟨m', map_eq_ok.mpr ⟨_, hok, rfl⟩, ?_⟩
    apply (hdone.trans hroot).congr
    simp [or_and_right, exists_or]
  case hstart => exact (Counted.refl _).congr (by simp)

theorem countP_le_ncard (hacyclic : Acyclic cha.children) (v : Vtbl) :
    (cha.preorder v).countP cha.isDefined ≤ (DefinedPaths cha v).ncard ∧
      ((cha.preorder v).countP cha.isDefined = (DefinedPaths cha v).ncard ↔
        Set.InjOn List.getLast? (DefinedPaths cha v)) := by
  obtain ⟨rank, hrank, -⟩ := hacyclic.exists_rank cha.supported
  have hfinite := finite_pathsTo hrank cha.isDefined v
  rw [← ncard_image_pathsTo (cha.preorder_nodup v) (cha.mem_preorder_iff v) cha.isDefined]
  exact ⟨Set.ncard_image_le hfinite, Set.ncard_image_iff hfinite⟩

/-- The size of a cloud is the number of its defined sub-vtables, when the paths to
sub-vtables that have more than one do not show in the word; in a small cloud there are none. -/
theorem cloudSize_eq_iff (hacyclic : Acyclic cha.children) (hset : ∀ v, (cha.children v).Nodup) :
    ∃ cloudSizeMap, calculateCloudSizes cha = .ok cloudSizeMap ∧
      ∀ root ∈ cha.roots, ∀ v ∈ cha.preorder (root, 0),
        (cloudSizeMap v = some ((cha.preorder v).countP cha.isDefined) ↔
          (cha.preorder v).countP cha.isDefined < 2 ^ 32 ∧
            2 ^ 32 ∣ (DefinedPaths cha v).ncard - (cha.preorder v).countP cha.isDefined) ∧
        ((DefinedPaths cha v).ncard < 2 ^ 32 →
          (cloudSizeMap v = some ((cha.preorder v).countP cha.isDefined) ↔
            ∀ p ∈ DefinedPaths cha v, ∀ q ∈ DefinedPaths cha v,
              p.getLast? = q.getLast? → p = q)) := by
  obtain ⟨m, hok, hcounted⟩ := calculateCloudSizes_ok hacyclic hset
  refine ⟨m, hok, ?_⟩
  intro root hroot v hv
  obtain ⟨hle, heq⟩ := countP_le_ncard hacyclic v
  rw [hcounted.of_mem v ⟨root, hroot, (cha.mem_preorder_iff _ v).mp hv⟩, Option.some.injEq]
  constructor
  · rw [← Nat.modEq_iff_dvd' hle, Nat.ModEq]
    constructor
    · intro h
      have hlt : (cha.preorder v).countP cha.isDefined < 2 ^ 32 :=
        h ▸ Nat.mod_lt _ (Nat.two_pow_pos 32)
      exact ⟨hlt, by rw [h, Nat.mod_eq_of_lt hlt]⟩
    · rintro ⟨hlt, h⟩
      rw [← h, Nat.mod_eq_of_lt hlt]
  · intro hsmall
    rw [Nat.mod_eq_of_lt hsmall, eq_comm, heq]
    exact ⟨fun h p hp q hq hpq => h hp hq hpq, fun h p hp q hq hpq => h p hp q hq hpq⟩

/-- Both parents of `D` derive from `A`. -/
def sharedClasses : List Nmd :=
  [⟨"_ZTV1A", [⟨0, 0, 2, 2, [("", 0)], []⟩]⟩, ⟨"_ZTV1B", [⟨0, 0, 2, 2, [("_ZTV1A", 0)], []⟩]⟩,
    ⟨"_ZTV1C", [⟨0, 0, 2, 2, [("_ZTV1A", 0)], []⟩]⟩,
    ⟨"_ZTV1D", [⟨0, 0, 2, 2, [("_ZTV1B", 0), ("_ZTV1C", 0)], []⟩]⟩]

def sharedTables (name : String) : Option (List Constant) :=
  [("_ZTV1A", [.null, .bitCast "_ZTI1A", .bitCast "_ZN1A1fEv"]),
    ("_ZTV1B", [.null, .bitCast "_ZTI1B", .bitCast "_ZN1B1fEv"]),
    ("_ZTV1C", [.null, .bitCast "_ZTI1C", .bitCast "_ZN1C1fEv"]),
    ("_ZTV1D", [.null, .bitCast "_ZTI1D", .bitCast "_ZN1D1fEv"])].lookup name

theorem shared_acyclic {cha : SDBuildCHA}
    (h : buildClouds sharedTables sharedClasses = .ok cha) :
    Acyclic cha.children ∧ ∀ v, (cha.children v).Nodup := by
  have hok := eq_ok_of_isOk (x := buildClouds sharedTables sharedClasses) .empty (by decide)
  obtain rfl := Except.ok.inj (hok.symm.trans h)
  exact ⟨Acyclic.of_lt Prod.fst (SDBuildCHA.children_all _ (P := fun v w => v.1 < w.1) (by decide)),
    SDBuildCHA.children_nodup _ (by decide)⟩

theorem cloudSize_eq_iff_shared : ∃ cha, buildClouds sharedTables sharedClasses = .ok cha ∧
    ∃ cloudSizeMap, calculateCloudSizes cha = .ok cloudSizeMap ∧
      ∀ root ∈ cha.roots, ∀ v ∈ cha.preorder (root, 0),
        (cloudSizeMap v = some ((cha.preorder v).countP cha.isDefined) ↔
          (cha.preorder v).countP cha.isDefined < 2 ^ 32 ∧
            2 ^ 32 ∣ (DefinedPaths cha v).ncard - (cha.preorder v).countP cha.isDefined) ∧
        ((DefinedPaths cha v).ncard < 2 ^ 32 →
          (cloudSizeMap v = some ((cha.preorder v).countP cha.isDefined) ↔
            ∀ p ∈ DefinedPaths cha v, ∀ q ∈ DefinedPaths cha v,
              p.getLast? = q.getLast? → p = q)) := by
  have hcha := eq_ok_of_isOk (x := buildClouds sharedTables sharedClasses) .empty (by decide)
  obtain ⟨hacyclic, hset⟩ := shared_acyclic hcha
  exact ⟨_, hcha, cloudSize_eq_iff hacyclic hset⟩

/-- The size that is stored for `A` is that of a cloud with one sub-vtable more. -/
theorem cloudSize_counts_twice : ∃ cha,
    buildClouds sharedTables sharedClasses = .ok cha ∧ Acyclic cha.children ∧
      ∃ cloudSizeMap, calculateCloudSizes cha = .ok cloudSizeMap ∧ "_ZTV1A" ∈ cha.roots ∧
        cloudSizeMap ("_ZTV1A", 0) = some 5 ∧
          (cha.preorder ("_ZTV1A", 0)).countP cha.isDefined = 4 := by
  have hcha := eq_ok_of_isOk (x := buildClouds sharedTables sharedClasses) .empty (by decide)
  exact ⟨_, hcha, (shared_acyclic hcha).1, _, eq_ok_of_isOk (fun _ => none) (by decide), by decide,
    by decide, by decide⟩

end RhoFEM.CHA
