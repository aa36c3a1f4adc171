import RhoFEM.Program.Guard

/-! A well-typed program makes the same calls before and after the passes. -/

namespace RhoFEM.Program

open RhoFEM.CHA RhoFEM.Check RhoFEM.Layout RhoFEM.Lib.Fold RhoFEM.Lib.Search
  RhoFEM.Lib.Simulation RhoFEM.Lib.Words

/-- A state of an image holds the objects and the calls of the source program: `pointer` is the
vtable pointer of the objects of a part, and `function` what is called for a call. -/
structure Mirrors (cha : SDBuildCHA) (pointer : Vtbl → BitVec 64)
    (function : CallSite × Vtbl → Option Constant) (m : Meaning) (s : State) : Prop where
  known : ∀ object x, m.dynamic object = some x → cha.isDefined x ∧ ∃ root, InCloud cha root x
  objects : ∀ object x, m.dynamic object = some x → s.objects object = pointer x
  calls : s.calls.map (fun call => some call.function) = m.calls.map function

section Steps

variable {cha : SDBuildCHA} {interleave : Bool} {pointer : Vtbl → BitVec 64}
  {function : CallSite × Vtbl → Option Constant} {m m' : Meaning} {s : State}
  {uses : List VtableUse} {sites : List CallSite}

theorem Mirrors.start (objects : Nat → BitVec 64) (data : BitVec 64 → Option Constant) :
    Mirrors cha pointer function .start (.start objects data) where
  known _ _ h := by cases h
  objects _ _ h := by cases h
  calls := rfl

theorem Mirrors.construct (h : Mirrors cha pointer function m s) {x : Vtbl}
    (hdef : cha.isDefined x) {root : String} (hx : InCloud cha root x) (object : Nat) :
    Mirrors cha pointer function
      { m with dynamic := Function.update m.dynamic object (some x) }
      { s with objects := Function.update s.objects object (pointer x) } := by
  have hupdate : ∀ other y, Function.update m.dynamic object (some x) other = some y →
      other = object ∧ y = x ∨ other ≠ object ∧ m.dynamic other = some y := by
    intro other y hy
    by_cases heq : other = object
    · subst heq
      rw [Function.update_self, Option.some.injEq] at hy
      exact .inl ⟨rfl, hy.symm⟩
    · rw [Function.update_of_ne heq] at hy
      exact .inr ⟨heq, hy⟩
  constructor
  · intro other y hy
    rcases hupdate other y hy with ⟨-, rfl⟩ | ⟨-, hold⟩
    · exact ⟨hdef, root, hx⟩
    · exact h.known other y hold
  · intro other y hy
    rcases hupdate other y hy with ⟨rfl, rfl⟩ | ⟨hne, hold⟩
    · exact Function.update_self ..
    · exact (Function.update_of_ne hne ..).trans (h.objects other y hold)
  · exact h.calls

theorem Mirrors.call (h : Mirrors cha pointer function m s) (call : CallSite × Vtbl) {c : Constant}
    (hcall : function call = some c) (site : Nat) (vptr : BitVec 64) :
    Mirrors cha pointer function { m with calls := m.calls ++ [call] }
      { s with calls := s.calls ++ [⟨site, vptr, c⟩] } where
  known := h.known
  objects := h.objects
  calls := by rw [List.map_append, List.map_append, h.calls, List.map_singleton,
    List.map_singleton, hcall]

/-- A step of a well-typed program constructs an object of a part of a defined class, or makes a
legal call. -/
theorem Meaning.step_cases {event : Event} (h : m.step cha uses sites event = .ok m') :
    (∃ object use vtbl index order, event = .construct object use ∧
      uses[use]? = some (.oldElementPtr vtbl index) ∧ (cha.oldVTables vtbl).isSome ∧
      cha.getAddrPtOrder vtbl index = some order ∧
      m' = { m with dynamic := Function.update m.dynamic object (some (vtbl, order)) }) ∨
    ∃ object k site x, event = .call object k ∧ sites[k]? = some site ∧
      m.dynamic object = some x ∧ Legal cha site x ∧
      m' = { m with calls := m.calls ++ [(site, x)] } := by
  unfold Meaning.step at h
  split at h
  · rename_i object use
    split at h
    · rename_i vtbl index huse
      split at h
      · rename_i vtable order hvtable horder
        exact .inl ⟨object, use, vtbl, index, order, rfl, huse, by rw [hvtable]; rfl, horder,
          (Except.ok.inj h).symm⟩
      · cases h
    · cases h
  · rename_i object k
    split at h
    · rename_i site x hsite hx
      split at h
      · rename_i hlegal
        exact .inr ⟨object, k, site, x, rfl, hsite, hx, hlegal, (Except.ok.inj h).symm⟩
      · cases h
    · cases h
  · cases h
  · cases h

theorem kept_of_step {event : Event} (h : m.step cha uses sites event = .ok m')
    (hkept : ∀ call ∈ m'.calls, Kept cha interleave call) :
    ∀ call ∈ m.calls, Kept cha interleave call := by
  rcases Meaning.step_cases h with ⟨_, _, _, _, _, _, _, _, _, rfl⟩ | ⟨_, _, _, _, _, _, _, _, rfl⟩
  · exact hkept
  · exact (List.forall_mem_append.mp hkept).1

end Steps

section Images

variable {cha : SDBuildCHA} {interleave : Bool} {place : String → BitVec 64}
  {uses : List VtableUse} {sites : List CallSite} {m m' : Meaning} {s : State}

theorem mem_oldArrays {root : String} {x : Vtbl} (hx : InCloud cha root x)
    {vtable : List Constant} (hvtable : cha.oldVTables x.1 = some vtable) :
    (x.1, vtable) ∈ oldArrays cha := by
  refine List.mem_filterMap.mpr ⟨x.1, List.mem_dedup.mpr ?_, by rw [hvtable]; rfl⟩
  exact List.mem_map.mpr ⟨(root, x), (mem_nodes_iff _).mpr hx, rfl⟩

/-- The method of an object is an element of the old vtable of its class. -/
theorem called_eq (h : WellFormed cha) (hfilled : Filled cha) {root : String} {site : CallSite}
    (hp : InCloud cha root (site.className, 0)) {x : Vtbl} (hx : HasMethod cha site x)
    (hdef : cha.isDefined x) : ∃ vtable elem, cha.oldVTables x.1 = some vtable ∧
      0 ≤ cha.addrPt x + site.index ∧ vtable[(cha.addrPt x + site.index).toNat]? = some elem ∧
      called cha (site, x) = some elem := by
  obtain ⟨hmem, hlo, hhi⟩ := hx
  have hreach := (cha.mem_preorder_iff _ x).mp hmem
  obtain ⟨-, hlox, hhix⟩ := slot_iff.mp (h.slot_of_reaches hp hreach hdef hlo hhi)
  obtain ⟨vtable, hvtable, hlength⟩ := hfilled.oldVTable (hp.reaches hreach) hdef
  have hget := List.getElem?_eq_getElem (l := vtable)
    (i := (cha.addrPt x + site.index).toNat) (by omega)
  refine ⟨vtable, _, hvtable, by omega, hget, ?_⟩
  rw [called, oldElem]
  dsimp only
  rw [hvtable, Option.bind_some, hget]

theorem plain_step (hacc : Accounted cha) (h : WellFormed cha) (hfilled : Filled cha)
    (hknown : SitesKnown cha sites) (hapart : Apart place (oldArrays cha)) {event : Event}
    (hm : Mirrors cha (fun x => wordAddress place x.1 (cha.addrPt x)) (called cha) m s)
    (hstep : m.step cha uses sites event = .ok m') :
    ∃ s', (plain cha place uses sites).step s event = .ok s' ∧
      Mirrors cha (fun x => wordAddress place x.1 (cha.addrPt x)) (called cha) m' s' := by
  rcases Meaning.step_cases hstep with ⟨object, use, vtbl, index, order, rfl, huse, hsome, horder,
    rfl⟩ | ⟨object, k, site, x, rfl, hsite, hx, hlegal, rfl⟩
  · obtain ⟨hlt, haddr⟩ := getAddrPtOrder_eq_some horder
    obtain ⟨root, hv⟩ := hacc.inCloud (vtbl, order) hlt
    refine ⟨_, ?_, hm.construct (hacc.isDefined (vtbl, order) hsome) hv object⟩
    rw [Image.step]
    simp only [plain, huse, Image.operand, haddr]
  · obtain ⟨hdef, -⟩ := hm.known object x hx
    obtain ⟨root, hp⟩ := (hknown site (List.mem_of_getElem? hsite)).1
    obtain ⟨vtable, elem, hvtable, hpos, hget, hcalled⟩ := called_eq h hfilled hp hlegal.2 hdef
    have hxcloud := hp.reaches ((cha.mem_preorder_iff _ x).mp hlegal.2.1)
    refine ⟨_, ?_, hm.call (site, x) hcalled k (s.objects object)⟩
    have hread : (plain cha place uses sites).read s
        (s.objects object + BitVec.ofInt 64 (site.index * 8)) = some elem := by
      rw [hm.objects object x hx, wordAddress_add, Image.read, ← Int.toNat_of_nonneg hpos]
      exact Option.or_eq_some_iff.mpr
        (.inl (readWord_wordAddress hapart (mem_oldArrays hxcloud hvtable) hget))
    have hcode : (plain cha place uses sites).sites[k]? = some ⟨none, site.index⟩ := by
      rw [plain, List.getElem?_map, hsite, Option.map_some]
    rw [Image.step]
    simp only [hcode, hread]
    rfl

variable {st : SDLayoutBuilder} {image : Image}

/-- The vtable pointer of the objects of a part in the new layout. -/
def newPointer (st : SDLayoutBuilder) (image : Image) (x : Vtbl) : BitVec 64 :=
  image.pointer ((st.newVTableStartAddrMap x).getD ("", 0))

theorem protect_step (hacc : Accounted cha) (h : WellFormed cha)
    (hst : Installed cha interleave st) (hcheck : Checkable cha interleave)
    (hknown : SitesKnown cha sites) (hvtables : image.vtables = newArrays cha st)
    (hapart : Apart image.place (newArrays cha st))
    (huses : List.Forall₂ (Updated cha st) uses image.uses)
    (hsites : List.Forall₂ (fun site code => protectCall cha st site = .ok code) sites image.sites)
    {event : Event} (hm : Mirrors cha (newPointer st image)
      (fun call => (called cha call).map (renamed cha call.2)) m s)
    (hstep : m.step cha uses sites event = .ok m')
    (hkept : ∀ call ∈ m'.calls, Kept cha interleave call) :
    ∃ s', image.step s event = .ok s' ∧ Mirrors cha (newPointer st image)
      (fun call => (called cha call).map (renamed cha call.2)) m' s' := by
  rcases Meaning.step_cases hstep with ⟨object, use, vtbl, index, order, rfl, huse, hsome, horder,
    rfl⟩ | ⟨object, k, site, x, rfl, hsite, hx, hlegal, rfl⟩
  · obtain ⟨hlt, -⟩ := getAddrPtOrder_eq_some horder
    obtain ⟨root, hv⟩ := hacc.inCloud (vtbl, order) hlt
    have hdef := hacc.isDefined (vtbl, order) hsome
    refine ⟨_, ?_, hm.construct hdef hv object⟩
    obtain ⟨use', huse', hupdated⟩ := (forall₂_getElem? huses use).1 _ huse
    rw [Updated, if_pos hsome] at hupdated
    obtain ⟨order', start, horder', hstart, rfl⟩ := hupdated
    obtain rfl := Option.some.inj (horder.symm.trans horder')
    have hword := hst.words.newVTableStartAddrMap _ start hstart
    rw [Image.step]
    simp only [huse', Image.operand, newPointer, hstart, Option.getD_some,
      pointer_eq_wordAddress image hword]
  · obtain ⟨hdef, rootx, hxcloud⟩ := hm.known object x hx
    have hmem := List.mem_of_getElem? hsite
    obtain ⟨root, hp⟩ := (hknown site hmem).1
    obtain ⟨code, hcode, hprotected⟩ := (forall₂_getElem? hsites k).1 site hsite
    have hstart := newVTableStartAddrMap_eq hst.stored hxcloud hdef
    have hpointer : s.objects object = image.pointer (addressOf cha interleave rootx x) := by
      rw [hm.objects object x hx, newPointer, hstart, Option.getD_some]
    have hpasses : image.passes code (s.objects object) = true :=
      (passes_code_iff h hst hcheck hapart hknown hmem hprotected _).mpr
        (.inl ⟨x, _, hlegal.1, hdef, hstart, hpointer⟩)
    have hkept' : Kept cha interleave (site, x) := hkept _ (by simp)
    obtain ⟨-, hindex, -⟩ := protectCall_eq_ok.mp hprotected
    obtain ⟨elem, helem, hread⟩ := read_method h hst hvtables hapart hindex hp hlegal.2 hkept'
      hstart s
    have hfunction : (called cha (site, x)).map (renamed cha x) = some (renamed cha x elem) := by
      rw [helem, Option.map_some]
    refine ⟨_, ?_, hm.call (site, x) hfunction k (s.objects object)⟩
    rw [← hpointer] at hread
    rw [Image.step]
    simp only [hcode, hread, if_pos hpasses]

theorem protect_run (hacc : Accounted cha) (h : WellFormed cha) {functions : List String}
    (hbuild : buildNewLayouts cha interleave functions = .ok st)
    (hcheck : Checkable cha interleave) (hknown : SitesKnown cha sites)
    (hprotect : protect cha st place uses sites = some image)
    (hapart : Apart place (newArrays cha st)) {events : List Event}
    (hrun : Meaning.run cha uses sites events .start = .ok m)
    (hkept : ∀ call ∈ m.calls, Kept cha interleave call) (objects : Nat → BitVec 64)
    (data : BitVec 64 → Option Constant) :
    ∃ t, image.run events (.start objects data) = .ok t ∧ Mirrors cha (newPointer st image)
      (fun call => (called cha call).map (renamed cha call.2)) m t := by
  obtain ⟨rfl, hvtables, huses, hsites⟩ := protect_cases hprotect
  have hupdated := updated_of_updateUses hacc h.toAccepted hbuild huses
  have hst := installed_of_build h hbuild
  exact foldlM_forward (g := image.step)
    (Mirrors cha (newPointer st image) fun call => (called cha call).map (renamed cha call.2))
    (P := fun m => ∀ call ∈ m.calls, Kept cha interleave call) (fun _ _ _ => kept_of_step)
    (fun _ _ _ _ _ hm hstep hgood => protect_step hacc h hst hcheck hknown hvtables hapart
      hupdated hsites hm hstep hgood) (.start objects data) hrun hkept

end Images

/-- In every run of a well-typed program, the program without the passes makes its calls, and so
does the protected program, with the copies of virtual thunks in place of the thunks; neither
traps. -/
theorem protect_preserves_calls {initializer : String → Option (List Constant)}
    {infoVec : List Nmd} {cha : SDBuildCHA} (hacyclic : AcyclicMetadata infoVec)
    (hlisted : ParentsListed infoVec) (hdistinct : (infoVec.map Nmd.className).Nodup)
    (hcha : buildClouds initializer infoVec = .ok cha) (h : WellFormed cha) (hfilled : Filled cha)
    {interleave : Bool} {functions : List String} {st : SDLayoutBuilder}
    (hbuild : buildNewLayouts cha interleave functions = .ok st)
    (hcheck : Checkable cha interleave) {place place' : String → BitVec 64}
    {uses : List VtableUse} {sites : List CallSite} (hknown : SitesKnown cha sites) {image : Image}
    (hprotect : protect cha st place' uses sites = some image)
    (hplain : Apart place (oldArrays cha)) (hapart : Apart place' (newArrays cha st))
    {events : List Event} {m : Meaning}
    (hrun : Meaning.run cha uses sites events .start = .ok m)
    (hkept : ∀ call ∈ m.calls, Kept cha interleave call)
    (objects : Nat → BitVec 64) (data : BitVec 64 → Option Constant) :
    ∃ s t, (plain cha place uses sites).run events (.start objects data) = .ok s ∧
      image.run events (.start objects data) = .ok t ∧
      s.calls.map (fun call => some call.function) = m.calls.map (called cha) ∧
      t.calls.map (fun call => some call.function) =
        m.calls.map fun call => (called cha call).map (renamed cha call.2) := by
  have hacc := accounted_of_build hacyclic hlisted hdistinct hcha
  obtain ⟨s, hs, hms⟩ := foldlM_forward (g := (plain cha place uses sites).step)
    (Mirrors cha (fun x => wordAddress place x.1 (cha.addrPt x)) (called cha))
    (P := fun _ => True) (fun _ _ _ _ _ => trivial)
    (fun _ _ _ _ _ hm hstep _ => plain_step hacc h hfilled hknown hplain hm hstep)
    (.start objects data) hrun trivial
  obtain ⟨t, ht, hmt⟩ := protect_run hacc h hbuild hcheck hknown hprotect hapart hrun hkept
    objects data
  exact ⟨s, t, hs, ht, hms.calls, hmt.calls⟩

/-- The constructors of `C` and of `D`. -/
def diamondUses : List VtableUse := [.oldElementPtr "_ZTV1C" 1, .oldElementPtr "_ZTV1D" 1]

/-- A call of the second method of `C`, and one of the first method of `A`. -/
def diamondSites : List CallSite := [⟨"_ZTV1C", "_ZTV1C", 1⟩, ⟨"_ZTV1A", "_ZTV1A", 0⟩]

def diamondEvents : List Event := [.construct 0 0, .call 0 0, .construct 1 1, .call 1 1]

def diamondPlace (name : String) : BitVec 64 :=
  BitVec.ofNat 64 (0x1000 * (["_ZTV1A", "_ZTV1C", "_ZTV1D", "_ZTV1E"].idxOf name + 1))

theorem diamond_protect {cha : SDBuildCHA}
    (hcha : buildClouds diamondVTables diamondClasses = .ok cha) :
    ∃ st image m, buildNewLayouts cha true [] = .ok st ∧ SitesKnown cha diamondSites ∧
      protect cha st diamondPlace diamondUses diamondSites = some image ∧
      Apart diamondPlace (oldArrays cha) ∧ Apart diamondPlace (newArrays cha st) ∧
      Meaning.run cha diamondUses diamondSites diamondEvents .start = .ok m ∧
      ∀ call ∈ m.calls, Kept cha true call := by
  have hok := eq_ok_of_isOk (x := buildClouds diamondVTables diamondClasses) .empty (by decide)
  obtain rfl := Except.ok.inj (hok.symm.trans hcha)
  have hst := eq_ok_of_isOk (x := buildNewLayouts
    ((buildClouds diamondVTables diamondClasses).toOption.getD .empty) true []) (.init [])
    (by decide)
  have himage : (protect ((buildClouds diamondVTables diamondClasses).toOption.getD .empty)
    ((buildNewLayouts ((buildClouds diamondVTables diamondClasses).toOption.getD .empty)
      true []).toOption.getD (.init [])) diamondPlace diamondUses diamondSites).isSome := by decide
  obtain ⟨image, himage⟩ := Option.isSome_iff_exists.mp himage
  have hrun := eq_ok_of_isOk (x := Meaning.run
    ((buildClouds diamondVTables diamondClasses).toOption.getD .empty) diamondUses diamondSites
    diamondEvents .start) .start (by decide)
  refine ⟨_, image, _, hst, ?known, himage, by decide, by decide, hrun, ?kept⟩
  case known =>
    have hroot : "_ZTV1A" ∈
        ((buildClouds diamondVTables diamondClasses).toOption.getD .empty).roots := by decide
    intro site hsite
    rw [diamondSites, List.mem_cons, List.mem_singleton] at hsite
    rcases hsite with rfl | rfl
    · exact ⟨⟨"_ZTV1A", hroot, by decide⟩, "_ZTV1A", hroot, by decide⟩
    · exact ⟨⟨"_ZTV1A", hroot, by decide⟩, "_ZTV1A", hroot, by decide⟩
  case kept =>
    have hkept : ∀ call ∈ ((Meaning.run
        ((buildClouds diamondVTables diamondClasses).toOption.getD .empty) diamondUses diamondSites
        diamondEvents .start).toOption.getD .start).calls,
        ∀ root ∈ ((buildClouds diamondVTables diamondClasses).toOption.getD .empty).roots,
          SlotKept ((buildClouds diamondVTables diamondClasses).toOption.getD .empty) root
            (representative ((buildClouds diamondVTables diamondClasses).toOption.getD .empty)
              (call.1.className, 0)) call.2 call.1.index := by
      unfold SlotKept
      decide
    exact fun call hcall _ root hroot => hkept call hcall root hroot.1

theorem protect_preserves_calls_diamond : ∃ cha st image m s t,
    buildClouds diamondVTables diamondClasses = .ok cha ∧
    protect cha st diamondPlace diamondUses diamondSites = some image ∧
    Meaning.run cha diamondUses diamondSites diamondEvents .start = .ok m ∧
    (plain cha diamondPlace diamondUses diamondSites).run diamondEvents
      (.start (fun _ => 0) fun _ => none) = .ok s ∧
    image.run diamondEvents (.start (fun _ => 0) fun _ => none) = .ok t ∧
    s.calls.map (fun call => some call.function) = m.calls.map (called cha) ∧
    t.calls.map (fun call => some call.function) =
      m.calls.map fun call => (called cha call).map (renamed cha call.2) := by
  have hcha := eq_ok_of_isOk (x := buildClouds diamondVTables diamondClasses) .empty (by decide)
  obtain ⟨hwell, hfilled⟩ := diamond_wellFormed hcha
  obtain ⟨st, image, m, hst, hknown, himage, hplain, hapart, hrun, hkept⟩ := diamond_protect hcha
  obtain ⟨s, t, hs, ht, hcalls⟩ := protect_preserves_calls (acyclicMetadata_of_lt (by decide))
    (by decide) (by decide) hcha hwell hfilled hst (checkable_interleaved _) hknown himage hplain
    hapart hrun hkept (fun _ => 0) fun _ => none
  exact ⟨_, st, image, m, s, t, hcha, himage, hrun, hs, ht, hcalls⟩

end RhoFEM.Program
