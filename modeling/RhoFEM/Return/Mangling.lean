import RhoFEM.Return.FunctionData

/-! Names of the functions in vtable slots, and how `SDReturnAddress` classifies
them.  The front end records a slot under one name, and the function in it may
be a destructor variant or a thunk with a name of its own. -/

namespace RhoFEM.Return

open RhoFEM.Lib.StringRef

open SDReturnAddress

universe u v

inductive DtorType
  | deleting
  | complete
  | base
  deriving DecidableEq

/-- A member function as the mangler names it: a destructor has three variants. -/
inductive Structor (Method : Type u) (Class : Type v)
  | method (m : Method)
  | dtor (c : Class) (type : DtorType)
  deriving DecidableEq

variable {Method : Type u} {Class : Type v}

/-- The encodings that Clang's mangler gives to member functions.  Encodings of
different functions differ, and only special names start with `T`. -/
structure Mangler (Method : Type u) (Class : Type v) where
  encoding : Structor Method Class → String
  injective : Function.Injective encoding
  head_ne : ∀ e, startswith (encoding e) "T" = false

def mangleNumber (number : Int) : List Char :=
  if number < 0 then 'n' :: Nat.toDigits 10 number.natAbs else Nat.toDigits 10 number.natAbs

structure CallOffset where
  nonVirtual : Int
  virtualOffset : Int
  deriving DecidableEq

def mangleCallOffset (offset : CallOffset) : List Char :=
  if offset.virtualOffset = 0 then 'h' :: (mangleNumber offset.nonVirtual ++ ['_'])
  else
    'v' :: (mangleNumber offset.nonVirtual ++ '_' :: (mangleNumber offset.virtualOffset ++ ['_']))

/-- The function itself, or a thunk; covariant thunks also adjust the result. -/
inductive Slot
  | direct
  | thunk (this : CallOffset)
  | covariantThunk (this result : CallOffset)
  deriving DecidableEq

/-- The function component of a vtable: one for a method, two for a destructor. -/
inductive Component (Method : Type u) (Class : Type v)
  | functionPointer (m : Method)
  | completeDtorPointer (c : Class)
  | deletingDtorPointer (c : Class)

namespace Component

/-- `GetFunctionMangledName` takes the base variant of a destructor. -/
def recorded : Component Method Class → Structor Method Class
  | functionPointer m => .method m
  | completeDtorPointer c => .dtor c .base
  | deletingDtorPointer c => .dtor c .base

/-- With `-mconstructor-aliases` another function may stand behind a complete destructor, in
most cases the base variant; thunks keep the name of the variant they belong to. -/
def occupant (completeDtor : Class → Structor Method Class) (slot : Slot) :
    Component Method Class → Structor Method Class
  | functionPointer m => .method m
  | completeDtorPointer c => if slot = .direct then completeDtor c else .dtor c .complete
  | deletingDtorPointer c => .dtor c .deleting

end Component

namespace Mangler

variable (M : Mangler Method Class)

def mangledName (e : Structor Method Class) : String := "_Z" ++ M.encoding e

def slotName (e : Structor Method Class) : Slot → String
  | .direct => M.mangledName e
  | .thunk this => "_ZT" ++ String.ofList (mangleCallOffset this) ++ M.encoding e
  | .covariantThunk this result =>
    "_ZTc" ++ String.ofList (mangleCallOffset this ++ mangleCallOffset result) ++ M.encoding e

theorem underscore_notMem_mangleNumber (number : Int) : '_' ∉ mangleNumber number := by
  have hdigits : '_' ∉ Nat.toDigits 10 number.natAbs := fun h =>
    absurd (Nat.isDigit_of_mem_toDigits (by decide) (by decide) h) (by decide)
  unfold mangleNumber
  split
  · simp [hdigits]
  · exact hdigits

/-- A thunk that only adjusts `this` by a constant leads back to the recorded name. -/
theorem thunkTarget_nonVirtual (e : Structor Method Class) {this : CallOffset}
    (h : this.virtualOffset = 0) : thunkTarget (M.slotName e (.thunk this)) = M.mangledName e := by
  have hsplit := @split_append '_' ('Z' :: 'T' :: 'h' :: mangleNumber this.nonVirtual)
    (M.encoding e).toList (by simp [underscore_notMem_mangleNumber])
  have hname : (M.slotName e (.thunk this)).toList.drop 1 =
      'Z' :: 'T' :: 'h' :: mangleNumber this.nonVirtual ++ '_' :: (M.encoding e).toList := by
    simp [slotName, mangleCallOffset, h]
  rw [thunkTarget, hname, hsplit, mangledName, String.ofList_toList]

theorem mangledName_injective : Function.Injective M.mangledName := by
  intro e e' h
  have := congrArg String.toList h
  simp only [mangledName, String.toList_append, List.append_cancel_left_eq,
    String.toList_inj] at this
  exact M.injective this

/-- No function has the name of a thunk. -/
theorem mangledName_ne_slotName (e e' : Structor Method Class) {slot : Slot}
    (h : slot ≠ .direct) : M.mangledName e ≠ M.slotName e' slot := by
  intro hname
  have hhead := M.head_ne e
  have hchars := congrArg String.toList hname
  rw [Bool.eq_false_iff, ne_eq, startswith_iff] at hhead
  refine hhead ?_
  cases slot with
  | direct => exact absurd rfl h
  | thunk this =>
    have hrest : (M.encoding e).toList =
        'T' :: (mangleCallOffset this ++ (M.encoding e').toList) := by
      simpa [mangledName, slotName] using hchars
    simp [hrest]
  | covariantThunk this result =>
    have hrest : (M.encoding e).toList = 'T' :: 'c' :: (mangleCallOffset this ++
        (mangleCallOffset result ++ (M.encoding e').toList)) := by
      simpa [mangledName, slotName] using hchars
    simp [hrest]

theorem startswith_ZTh_iff (e : Structor Method Class) (slot : Slot) :
    startswith (M.slotName e slot) "_ZTh" = true ↔
      ∃ this, slot = .thunk this ∧ this.virtualOffset = 0 := by
  cases slot with
  | direct =>
    have hhead := M.head_ne e
    rw [Bool.eq_false_iff, ne_eq, startswith_iff] at hhead
    simp only [reduceCtorEq, false_and, exists_false, iff_false, startswith_iff]
    rintro ⟨rest, hrest⟩
    exact hhead ⟨'h' :: rest, by simpa [slotName, mangledName] using hrest⟩
  | thunk this =>
    by_cases hoff : this.virtualOffset = 0 <;>
      simp [slotName, mangleCallOffset, hoff, startswith, List.isPrefixOf]
  | covariantThunk this result => simp [slotName, startswith, List.isPrefixOf]

end Mangler

/-- The record of `F` says that it is virtual and has exactly the identifiers `ids`. -/
def CarriesIDs (getFunctionID : String → List Nat) (F : Function) (ids : List Nat) : Prop :=
  ∀ s, funcInfo getFunctionID F s = (funcInfoVirtual ++ F.name,
    .str F.name :: .num ids.length :: (ids.map .num ++ (typeOperand F s.encoder).1))

theorem carriesIDs_iff {getFunctionID : String → List Nat} {F : Function} {ids : List Nat}
    (hids : ids ≠ []) (hF : isBlackListedFunction F = false) :
    CarriesIDs getFunctionID F ids ↔
      isVirtualFunction getFunctionID F = true ∧ virtualIDs getFunctionID F.name = ids := by
  constructor
  · intro h
    have h0 := h (init 0 [])
    by_cases hv : isVirtualFunction getFunctionID F = true
    · refine ⟨hv, ?_⟩
      have hnode := congrArg Prod.snd h0
      rw [funcInfo_node F _ hF, writtenIDs, if_pos hv] at hnode
      cases hw : virtualIDs getFunctionID F.name with
      | nil => simp [hw, writtenTypeID, writtenIDs, hv] at hnode
      | cons id rest =>
        simp only [hw, hv, true_and, ne_eq, reduceCtorEq, not_false_eq_true, if_true,
          List.cons_append, List.nil_append, List.cons.injEq, MDOperand.num.injEq] at hnode
        obtain ⟨hlen, hrest⟩ := hnode
        exact List.map_injective_iff.mpr (fun a b hab => MDOperand.num.inj hab)
          (List.append_inj hrest (by simpa using hlen)).1
    · have hname := congrArg (fun r => r.1.toList) h0
      simp [funcInfo, hF, hv, funcInfoVirtual, funcInfoNormal] at hname
  · rintro ⟨hv, hw⟩ s
    cases ids with
    | nil => exact absurd rfl hids
    | cons id rest => simp [funcInfo, hF, hv, processVirtualFunction, hw]

section Slots

variable {M : Mangler Method Class} {getFunctionID : String → List Nat}

theorem getFunctionID_thunk
    (hrec : ∀ name, getFunctionID name ≠ [] →
      ∃ c : Component Method Class, name = M.mangledName c.recorded)
    (e : Structor Method Class) {slot : Slot} (h : slot ≠ .direct) :
    getFunctionID (M.slotName e slot) = [] := by
  by_contra hne
  obtain ⟨c, hc⟩ := hrec _ hne
  exact M.mangledName_ne_slotName c.recorded e h hc.symm

theorem getFunctionID_dtor
    (hrec : ∀ name, getFunctionID name ≠ [] →
      ∃ c : Component Method Class, name = M.mangledName c.recorded)
    (c : Class) (type : DtorType) (h : type ≠ .base) :
    getFunctionID (M.mangledName (.dtor c type)) = [] := by
  by_contra hne
  obtain ⟨c', hc'⟩ := hrec _ hne
  have := M.mangledName_injective hc'
  cases c' <;> simp_all [Component.recorded]

variable {completeDtor : Class → Structor Method Class}

/-- The function of a slot has the identifiers of the recorded name for methods, and for a
complete destructor that another function with these identifiers stands for. -/
theorem getFunctionID_occupant_iff
    (hrec : ∀ name, getFunctionID name ≠ [] →
      ∃ c : Component Method Class, name = M.mangledName c.recorded)
    (c : Component Method Class) (slot : Slot)
    (hids : getFunctionID (M.mangledName c.recorded) ≠ []) :
    getFunctionID (M.mangledName (c.occupant completeDtor slot)) =
        getFunctionID (M.mangledName c.recorded) ↔
      (∃ m, c = .functionPointer m) ∨ ∃ cls, c = .completeDtorPointer cls ∧ slot = .direct ∧
        getFunctionID (M.mangledName (completeDtor cls)) =
          getFunctionID (M.mangledName (.dtor cls .base)) := by
  cases c with
  | functionPointer m => simp [Component.recorded, Component.occupant]
  | completeDtorPointer c =>
    by_cases hdirect : slot = .direct
    · simp [Component.recorded, Component.occupant, hdirect]
    · simp [Component.occupant, hdirect, getFunctionID_dtor hrec c .complete (by decide),
        hids.symm]
  | deletingDtorPointer c =>
    simp [Component.occupant, getFunctionID_dtor hrec c .deleting (by decide), hids.symm]

theorem virtualIDs_thunk
    (hrec : ∀ name, getFunctionID name ≠ [] →
      ∃ c : Component Method Class, name = M.mangledName c.recorded)
    (e : Structor Method Class) (nonVirtual : Int) :
    virtualIDs getFunctionID (M.slotName e (.thunk ⟨nonVirtual, 0⟩)) =
      getFunctionID (M.mangledName e) := by
  have hstart := (M.startswith_ZTh_iff e (.thunk ⟨nonVirtual, 0⟩)).mpr ⟨_, rfl, rfl⟩
  rw [virtualIDs, getFunctionID_thunk hrec e (by simp), hstart, M.thunkTarget_nonVirtual e rfl]
  simp

/-- Exactly the ordinary methods, their constant thunks and the complete destructors that share
a function with the base variant are found again, as long as their names do not end like a
constructor's. -/
theorem slotFunction_virtual_iff (M : Mangler Method Class) (getFunctionID : String → List Nat)
    (completeDtor : Class → Structor Method Class) (c : Component Method Class) (slot : Slot)
    (F : Function)
    (hrec : ∀ name, getFunctionID name ≠ [] →
      ∃ c : Component Method Class, name = M.mangledName c.recorded)
    (hname : F.name = M.slotName (c.occupant completeDtor slot) slot)
    (hids : getFunctionID (M.mangledName c.recorded) ≠ [])
    (hF : isBlackListedFunction F = false) :
    CarriesIDs getFunctionID F (getFunctionID (M.mangledName c.recorded)) ↔
      ((∃ m, c = .functionPointer m) ∨ ∃ cls, c = .completeDtorPointer cls ∧ slot = .direct ∧
        getFunctionID (M.mangledName (completeDtor cls)) =
          getFunctionID (M.mangledName (.dtor cls .base))) ∧
        (slot = .direct ∨ ∃ nonVirtual, slot = .thunk ⟨nonVirtual, 0⟩) ∧
        itaniumConstructorTokens.any (endswith F.name) = false := by
  rw [carriesIDs_iff hids hF]
  have hZ : startswith F.name "_Z" = true := by
    rw [hname]
    cases slot <;> simp [Mangler.slotName, Mangler.mangledName, startswith, List.isPrefixOf]
  by_cases htoken : itaniumConstructorTokens.any (endswith F.name) = true
  · simp [isVirtualFunction, hZ, htoken]
  rw [Bool.not_eq_true] at htoken
  simp only [isVirtualFunction, hZ, htoken, Bool.not_true, Bool.false_eq_true, if_false, and_true]
  by_cases hdirect : slot = .direct
  · subst hdirect
    have hnot : startswith F.name "_ZTh" = false := by
      rw [Bool.eq_false_iff, ne_eq, hname, M.startswith_ZTh_iff]
      simp
    have hvirtual : virtualIDs getFunctionID F.name =
        getFunctionID (M.mangledName (c.occupant completeDtor .direct)) := by
      rw [virtualIDs, hnot, hname, Mangler.slotName]
      split <;> simp_all
    rw [hvirtual, hnot, hname, Mangler.slotName, getFunctionID_occupant_iff hrec c _ hids]
    constructor
    · exact fun h => ⟨h.2, .inl rfl⟩
    · intro h
      have hsame := (getFunctionID_occupant_iff hrec c _ hids).mpr h.1
      exact ⟨by simpa [hsame] using hids, h.1⟩
  by_cases hthunk : ∃ nonVirtual, slot = .thunk ⟨nonVirtual, 0⟩
  · obtain ⟨nonVirtual, rfl⟩ := hthunk
    rw [hname, virtualIDs_thunk hrec, (M.startswith_ZTh_iff _ _).mpr ⟨_, rfl, rfl⟩,
      getFunctionID_occupant_iff hrec c _ hids]
    simp
  · have hnot : startswith F.name "_ZTh" = false := by
      rw [Bool.eq_false_iff, ne_eq, hname, M.startswith_ZTh_iff]
      rintro ⟨⟨nonVirtual, virtualOffset⟩, rfl, rfl⟩
      exact hthunk ⟨nonVirtual, rfl⟩
    rw [hname] at hnot
    simp [hnot, hname, getFunctionID_thunk hrec (c.occupant completeDtor slot) hdirect, hdirect,
      hthunk]

end Slots

/-- The names of one class with two methods, the second called `fooC1`. -/
def oneClass : Mangler Bool Unit where
  encoding
    | .method false => "N1A1fEv"
    | .method true => "N1A5fooC1Ev"
    | .dtor _ .deleting => "N1AD0Ev"
    | .dtor _ .complete => "N1AD1Ev"
    | .dtor _ .base => "N1AD2Ev"
  injective := by
    intro e e' h
    rcases e with (_ | _) | ⟨⟨⟩, _ | _ | _⟩ <;> rcases e' with (_ | _) | ⟨⟨⟩, _ | _ | _⟩ <;>
      first | rfl | exact absurd h (by decide)
  head_ne := by
    intro e
    rcases e with (_ | _) | ⟨⟨⟩, _ | _ | _⟩ <;> decide

def oneClassID (name : String) : List Nat :=
  if name = "_ZN1A1fEv" then [1] else if name = "_ZN1A5fooC1Ev" then [2]
  else if name = "_ZN1AD2Ev" then [3, 4] else []

theorem oneClassID_recorded (name : String) (h : oneClassID name ≠ []) :
    ∃ c : Component Bool Unit, name = oneClass.mangledName c.recorded := by
  unfold oneClassID at h
  split at h
  · exact ⟨.functionPointer false, by assumption⟩
  · split at h
    · exact ⟨.functionPointer true, by assumption⟩
    · split at h
      · exact ⟨.completeDtorPointer (), by assumption⟩
      · exact absurd rfl h

/-- A thunk, and a complete destructor that is an alias of the base variant. -/
theorem slotFunction_virtual_iff_thunk :
    CarriesIDs oneClassID ⟨"_ZThn8_N1A1fEv", ⟨.void, []⟩, false, [0]⟩ [1] ∧
      CarriesIDs oneClassID ⟨"_ZN1AD2Ev", ⟨.void, []⟩, false, [0]⟩ [3, 4] :=
  ⟨(slotFunction_virtual_iff oneClass oneClassID (fun c => .dtor c .base)
      (.functionPointer false) (.thunk ⟨-8, 0⟩) ⟨"_ZThn8_N1A1fEv", ⟨.void, []⟩, false, [0]⟩
      oneClassID_recorded (by decide) (by decide) (by decide)).mpr
        ⟨.inl ⟨false, rfl⟩, .inr ⟨-8, rfl⟩, by decide⟩,
    (slotFunction_virtual_iff oneClass oneClassID (fun c => .dtor c .base)
      (.completeDtorPointer ()) .direct ⟨"_ZN1AD2Ev", ⟨.void, []⟩, false, [0]⟩
      oneClassID_recorded (by decide) (by decide) (by decide)).mpr
        ⟨.inr ⟨(), rfl, rfl, rfl⟩, .inl rfl, by decide⟩⟩

/-- The function in a slot of this class, whose complete destructor is the base variant. -/
def oneClassSlot (c : Component Bool Unit) (slot : Slot) : String :=
  oneClass.slotName (c.occupant (fun c => .dtor c .base) slot) slot

/-- The deleting destructor, a thunk of the complete one, a thunk with a `vcall` offset and a
method whose name ends like a constructor's get static records, or virtual ones without
identifiers. -/
theorem slotFunction_static_records :
    oneClassSlot (.deletingDtorPointer ()) .direct = "_ZN1AD0Ev" ∧
    oneClassSlot (.completeDtorPointer ()) (.thunk ⟨-8, 0⟩) = "_ZThn8_N1AD1Ev" ∧
    oneClassSlot (.functionPointer false) (.thunk ⟨0, -24⟩) = "_ZTv0_n24_N1A1fEv" ∧
    oneClassSlot (.functionPointer true) .direct = "_ZN1A5fooC1Ev" ∧
      (∀ name ∈ ["_ZN1AD0Ev", "_ZTv0_n24_N1A1fEv", "_ZN1A5fooC1Ev"],
        funcInfo oneClassID ⟨name, ⟨.void, []⟩, false, [0]⟩ (init 4 []) =
          (funcInfoNormal ++ name, [.str name, .num 5])) ∧
      funcInfo oneClassID ⟨"_ZThn8_N1AD1Ev", ⟨.void, []⟩, false, [0]⟩ (init 4 []) =
        (funcInfoVirtual ++ "_ZThn8_N1AD1Ev", [.str "_ZThn8_N1AD1Ev"]) := by
  decide

end RhoFEM.Return
