import RhoFEM.Check.Handlers
import RhoFEM.Layout.Constructors
import RhoFEM.Layout.Dispatch
import RhoFEM.Lib.Words

/-! Programs that construct objects and make virtual calls: as the front end emits them, as the
passes change them, and what they mean. -/

namespace RhoFEM.Program

open RhoFEM.CHA RhoFEM.Check RhoFEM.Layout RhoFEM.Lib.Words

/-- A virtual call, with the index of the method in the vtable of its class. -/
structure CallSite where
  className : String
  preciseClassName : String
  index : Int
  deriving DecidableEq

/-- What a thread does: a constructor stores an operand in an object, a call site is reached with
an object, and an attacker overwrites a vtable pointer or other memory. -/
inductive Event
  | construct (object use : Nat)
  | call (object site : Nat)
  | overwrite (object : Nat) (word : BitVec 64)
  | write (address : BitVec 64) (content : Option Constant)

inductive Stop
  | trap
  | fault
  deriving DecidableEq

/-- A call that has been made. -/
structure Call where
  site : Nat
  vptr : BitVec 64
  function : Constant

structure State where
  objects : Nat → BitVec 64
  data : BitVec 64 → Option Constant
  calls : List Call

/-- Before any call, in any memory. -/
def State.start (objects : Nat → BitVec 64) (data : BitVec 64 → Option Constant) : State :=
  ⟨objects, data, []⟩

/-- The code of a call site: the range checks, if it has a check, and the index that it loads. -/
structure CallCode where
  checks : Option (List RangeCheck)
  index : Int

/-- A program in memory. -/
structure Image where
  place : String → BitVec 64
  vtables : List (String × List Constant)
  uses : List VtableUse
  sites : List CallCode

namespace Image

variable (image : Image)

def operand : VtableUse → BitVec 64
  | .oldElementPtr vtbl index => wordAddress image.place vtbl index
  | .newElementPtr vtbl index => wordAddress image.place vtbl index
  | .otherUse vtbl => wordAddress image.place vtbl 0

/-- The pointer of an address that the layout stores. -/
def pointer (a : Address) : BitVec 64 := image.place a.1 + BitVec.ofNat 64 a.2

/-- The comparison that stands for a range check. -/
def admits (vptr : BitVec 64) (check : RangeCheck) : Bool :=
  inRange vptr (image.pointer check.start) (BitVec.ofNat 64 check.width)
    (BitVec.ofNat 64 check.alignment)

/-- The checks are tried in turn, and behind the last one stands a trap. -/
def passes (code : CallCode) (vptr : BitVec 64) : Bool :=
  code.checks.all fun checks => checks.any (image.admits vptr)

/-- The vtables cannot be written. -/
def read (s : State) (a : BitVec 64) : Option Constant :=
  (readWord image.place image.vtables a).or (s.data a)

def step (s : State) : Event → Except Stop State
  | .construct object use =>
    match image.uses[use]? with
    | none => .error .fault
    | some u => .ok { s with objects := Function.update s.objects object (image.operand u) }
  | .call object site =>
    match image.sites[site]? with
    | none => .error .fault
    | some code =>
      if image.passes code (s.objects object) then
        match image.read s (s.objects object + BitVec.ofInt 64 (code.index * 8)) with
        | none => .error .fault
        | some function =>
          .ok { s with calls := s.calls ++ [⟨site, s.objects object, function⟩] }
      else .error .trap
  | .overwrite object word => .ok { s with objects := Function.update s.objects object word }
  | .write address content => .ok { s with data := Function.update s.data address content }

def run (events : List Event) (s : State) : Except Stop State := events.foldlM image.step s

section Calls

variable {image : Image} {s s' : State} {event : Event}

/-- A step adds a call just at a call site whose checks pass. -/
theorem step_calls (h : image.step s event = .ok s') : s'.calls = s.calls ∨
    ∃ object site code function, event = .call object site ∧ image.sites[site]? = some code ∧
      image.passes code (s.objects object) ∧
      image.read s (s.objects object + BitVec.ofInt 64 (code.index * 8)) = some function ∧
      s'.calls = s.calls ++ [⟨site, s.objects object, function⟩] := by
  unfold step at h
  cases event with
  | construct object use =>
    dsimp only at h
    split at h
    · cases h
    · exact .inl (Except.ok.inj h ▸ rfl)
  | overwrite object word => exact .inl (Except.ok.inj h ▸ rfl)
  | write address content => exact .inl (Except.ok.inj h ▸ rfl)
  | call object site =>
    dsimp only at h
    split at h
    · cases h
    · rename_i code hcode
      split at h
      · rename_i hpasses
        split at h
        · cases h
        · rename_i function hread
          exact .inr ⟨object, site, code, function, rfl, hcode, hpasses, hread,
            Except.ok.inj h ▸ rfl⟩
      · cases h

theorem step_call_eq_trap_iff {object site : Nat} {code : CallCode}
    (hcode : image.sites[site]? = some code) :
    image.step s (.call object site) = .error .trap ↔ ¬ image.passes code (s.objects object) := by
  unfold step
  simp only [hcode]
  split
  · rename_i hpasses
    refine iff_of_false ?_ (not_not_intro hpasses)
    split
    · exact fun h => by cases h
    · exact fun h => by cases h
  · rename_i hpasses
    exact iff_of_true rfl hpasses

end Calls

end Image

section Compile

variable (cha : SDBuildCHA) (st : SDLayoutBuilder) (place : String → BitVec 64)
  (uses : List VtableUse) (sites : List CallSite)

/-- The old vtables of the classes of all clouds. -/
def oldArrays : List (String × List Constant) :=
  (((nodes cha).map fun node => node.2.1).dedup).filterMap fun vtbl =>
    (cha.oldVTables vtbl).map (vtbl, ·)

def newArrays : List (String × List Constant) :=
  cha.roots.filterMap fun root =>
    (st.cloudStartMap (newVtableName root)).map (newVtableName root, ·)

/-- The program without the passes. -/
def plain : Image where
  place := place
  vtables := oldArrays cha
  uses := uses
  sites := sites.map fun site => ⟨none, site.index⟩

/-- `handleSDGetVtblIndex` and `handleSDGetCheckedVtbl` for one call. -/
def protectCall (site : CallSite) : Except Layout.Failure CallCode := do
  let index ← translateVtblInd cha st (site.className, 0) site.index true
  let checks ← handleSDGetCheckedVtbl cha st site.className site.preciseClassName
  return ⟨some checks, index⟩

/-- The program after the passes, if no assertion fails. -/
def protect : Option Image := do
  let uses ← (updateUses cha st uses).toOption
  let sites ← (sites.mapM (protectCall cha st)).toOption
  return ⟨place, newArrays cha st, uses, sites⟩

end Compile

/-- The state of the source program: the vtable part that each object has been constructed with,
and the calls made so far. -/
structure Meaning where
  dynamic : Nat → Option Vtbl
  calls : List (CallSite × Vtbl)

def Meaning.start : Meaning := ⟨fun _ => none, []⟩

section Source

variable (cha : SDBuildCHA)

/-- The method is one of the static class of the call, and the object is of the class. -/
def HasMethod (site : CallSite) (x : Vtbl) : Prop :=
  x ∈ cha.preorder (site.className, 0) ∧
    ((cha.getRange (site.className, 0)).1 : Int) ≤ cha.addrPt (site.className, 0) + site.index ∧
      cha.addrPt (site.className, 0) + site.index ≤ (cha.getRange (site.className, 0)).2

/-- The object is also of the more precise class. -/
def Legal (site : CallSite) (x : Vtbl) : Prop :=
  x ∈ cha.preorder (checkedVptr cha site.className site.preciseClassName) ∧ HasMethod cha site x

instance (site : CallSite) (x : Vtbl) : Decidable (HasMethod cha site x) :=
  inferInstanceAs (Decidable (_ ∧ _ ∧ _))

instance (site : CallSite) (x : Vtbl) : Decidable (Legal cha site x) :=
  inferInstanceAs (Decidable (_ ∧ _))

/-- The classes of the call sites are in the clouds. -/
def SitesKnown (sites : List CallSite) : Prop :=
  ∀ site ∈ sites, (∃ root, InCloud cha root (site.className, 0)) ∧
    ∃ root, InCloud cha root (checkedVptr cha site.className site.preciseClassName)

/-- A well-typed program has no other steps. -/
def Meaning.step (uses : List VtableUse) (sites : List CallSite) (m : Meaning) :
    Event → Except Unit Meaning
  | .construct object use =>
    match uses[use]? with
    | some (.oldElementPtr vtbl index) =>
      match cha.oldVTables vtbl, cha.getAddrPtOrder vtbl index with
      | some _, some order =>
        .ok { m with dynamic := Function.update m.dynamic object (some (vtbl, order)) }
      | _, _ => .error ()
    | _ => .error ()
  | .call object site =>
    match sites[site]?, m.dynamic object with
    | some site, some x =>
      if Legal cha site x then .ok { m with calls := m.calls ++ [(site, x)] } else .error ()
    | _, _ => .error ()
  | .overwrite _ _ => .error ()
  | .write _ _ => .error ()

def Meaning.run (uses : List VtableUse) (sites : List CallSite) (events : List Event)
    (m : Meaning) : Except Unit Meaning :=
  events.foldlM (Meaning.step cha uses sites) m

/-- The function that a call reaches. -/
def called (call : CallSite × Vtbl) : Option Constant :=
  oldElem cha (call.2, cha.addrPt call.2 + call.1.index)

/-- Where sub-vtables are interleaved, those between the two keep the slot of the call. -/
def Kept (interleave : Bool) (call : CallSite × Vtbl) : Prop :=
  interleave = true → ∀ root, InCloud cha root (call.1.className, 0) →
    SlotKept cha root (representative cha (call.1.className, 0)) call.2 call.1.index

end Source

end RhoFEM.Program
