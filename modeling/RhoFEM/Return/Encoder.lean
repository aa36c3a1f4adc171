import RhoFEM.Return.Module

/-! Type identifiers of function signatures (`SDEncode.h`). -/

namespace RhoFEM.Return

def encodeType : LType → Bool → Nat
  | .void, _ => 1
  | .integer bits, _ =>
    if bits ≤ 1 then 2 else if bits ≤ 8 then 3 else if bits ≤ 16 then 4
    else if bits ≤ 32 then 5 else 6
  | .half, _ => 7
  | .float, _ => 8
  | .double, _ => 9
  | .x86FP80, _ => 10
  | .fp128, _ => 10
  | .ppcFP128, _ => 10
  | .pointer element, recurse => if recurse then 16 + encodeType element false else 11
  | .struct, _ => 12
  | .array, _ => 13
  | .other, _ => 14

def encodeFunction (funcTy : FunctionType) (encodePointers encodeReturnType : Bool) : Nat :=
  if funcTy.params.length < 8 then
    let encoding := if encodeReturnType then encodeType funcTy.returnType encodePointers else 32
    funcTy.params.foldl (fun encoding param => encodeType param true + encoding * 32) encoding
  else 32

structure SDEncoder where
  nextTypeID : BitVec 32
  encodingToTypeID : Nat → Option (BitVec 32)

def SDEncoder.init (startTypeID : BitVec 32) : SDEncoder := ⟨startTypeID, fun _ => none⟩

def SDEncoder.getTypeID (e : SDEncoder) (funcTy : FunctionType) : BitVec 32 × SDEncoder :=
  let encoding := encodeFunction funcTy true true
  match e.encodingToTypeID encoding with
  | some id => (id, e)
  | none => (e.nextTypeID,
      ⟨e.nextTypeID - 1, Function.update e.encodingToTypeID encoding (some e.nextTypeID)⟩)

/-- The calls of `getTypeID` for some types in turn. -/
def SDEncoder.getTypeIDs (e : SDEncoder) (types : List FunctionType) : SDEncoder :=
  types.foldl (fun e funcTy => (e.getTypeID funcTy).2) e

def encodings (types : List FunctionType) : Finset Nat :=
  (types.map fun funcTy => encodeFunction funcTy true true).toFinset

/-- Each encoding has one of the next numbers below the start. -/
structure SDEncoder.Descending (start : BitVec 32) (types : List FunctionType) (e : SDEncoder) :
    Prop where
  nextTypeID : e.nextTypeID = start - BitVec.ofNat 32 (encodings types).card
  isSome_iff : ∀ encoding, (e.encodingToTypeID encoding).isSome ↔ encoding ∈ encodings types
  mem_iff : ∀ id, (∃ encoding, e.encodingToTypeID encoding = some id) ↔
    ∃ k < (encodings types).card, id = start - BitVec.ofNat 32 k

theorem encodings_concat (types : List FunctionType) (funcTy : FunctionType) :
    encodings (types ++ [funcTy]) = insert (encodeFunction funcTy true true) (encodings types) := by
  ext
  simp [encodings]

theorem SDEncoder.Descending.getTypeID {start : BitVec 32} {types : List FunctionType}
    {e : SDEncoder} (h : e.Descending start types) (funcTy : FunctionType) :
    (e.getTypeID funcTy).2.Descending start (types ++ [funcTy]) := by
  unfold SDEncoder.getTypeID
  dsimp only
  have hsome := h.isSome_iff (encodeFunction funcTy true true)
  split
  · rename_i id hid
    have hmem : encodeFunction funcTy true true ∈ encodings types := hsome.mp (by simp [hid])
    have hsame : encodings (types ++ [funcTy]) = encodings types := by
      rw [encodings_concat, Finset.insert_eq_of_mem hmem]
    exact ⟨hsame ▸ h.nextTypeID, hsame ▸ h.isSome_iff, hsame ▸ h.mem_iff⟩
  · rename_i hnone
    have hmem : encodeFunction funcTy true true ∉ encodings types := by
      rw [← hsome, hnone]
      exact Bool.false_ne_true
    have hcard : (encodings (types ++ [funcTy])).card = (encodings types).card + 1 := by
      rw [encodings_concat, Finset.card_insert_of_notMem hmem]
    constructor
    case nextTypeID =>
      rw [hcard, h.nextTypeID, BitVec.ofNat_add]
      bv_omega
    case isSome_iff =>
      intro encoding
      rw [encodings_concat, Finset.mem_insert, ← h.isSome_iff]
      by_cases heq : encoding = encodeFunction funcTy true true <;> simp [heq]
    case mem_iff =>
      intro id
      rw [hcard, Nat.exists_lt_succ_right, ← h.mem_iff, ← h.nextTypeID]
      constructor
      · rintro ⟨encoding, henc⟩
        by_cases heq : encoding = encodeFunction funcTy true true
        · exact .inr (by simpa [heq, eq_comm] using henc)
        · exact .inl ⟨encoding, by simpa [heq] using henc⟩
      · rintro (⟨encoding, henc⟩ | rfl)
        · have heq : encoding ≠ encodeFunction funcTy true true := by
            rintro rfl
            simp [hnone] at henc
          exact ⟨encoding, by simpa [heq] using henc⟩
        · exact ⟨encodeFunction funcTy true true, by simp⟩

theorem SDEncoder.getTypeIDs_descending (start : BitVec 32) (types : List FunctionType) :
    ((SDEncoder.init start).getTypeIDs types).Descending start types := by
  induction types using List.reverseRecOn with
  | nil => constructor <;> simp [SDEncoder.getTypeIDs, SDEncoder.init, encodings]
  | append_singleton types funcTy ih =>
    rw [SDEncoder.getTypeIDs, List.foldl_append]
    exact ih.getTypeID funcTy

section Codes

/-- `encodeType` never fails its assertion. -/
theorem encodeType_lt (T : LType) (recurse : Bool) : encodeType T recurse < 32 := by
  have hflat : ∀ T : LType, encodeType T false < 16 := by
    intro T
    cases T <;> simp only [encodeType, Bool.false_eq_true, if_false] <;> (try split_ifs) <;> omega
  cases T with
  | pointer element =>
    have := hflat element
    simp only [encodeType]
    split <;> omega
  | integer bits =>
    simp only [encodeType]
    split_ifs <;> omega
  | _ => simp [encodeType]

theorem encodeType_pos (T : LType) (recurse : Bool) : 0 < encodeType T recurse := by
  cases T with
  | pointer element =>
    simp only [encodeType]
    split <;> omega
  | integer bits =>
    simp only [encodeType]
    split_ifs <;> omega
  | _ => simp [encodeType]

/-- The codes that `encodeFunction` reads, the last one first. -/
def codes (funcTy : FunctionType) : List Nat :=
  ((funcTy.returnType :: funcTy.params).map (encodeType · true)).reverse

theorem mem_codes {funcTy : FunctionType} {code : Nat} (h : code ∈ codes funcTy) :
    0 < code ∧ code < 32 := by
  obtain ⟨T, -, rfl⟩ := List.mem_map.mp (List.mem_reverse.mp h)
  exact ⟨encodeType_pos T true, encodeType_lt T true⟩

theorem encodeFunction_short {funcTy : FunctionType} (h : funcTy.params.length < 8) :
    encodeFunction funcTy true true = Nat.ofDigits 32 (codes funcTy) := by
  rw [encodeFunction, if_pos h, codes, Nat.ofDigits_eq_foldr, List.foldr_reverse, List.map_cons,
    List.foldl_cons, List.foldl_map]
  simp [Nat.mul_comm]

/-- The codes are not zero, so their number can be read off the encoding. -/
theorem digits_encodeFunction {funcTy : FunctionType} (h : funcTy.params.length < 8) :
    Nat.digits 32 (encodeFunction funcTy true true) = codes funcTy := by
  rw [encodeFunction_short h]
  apply Nat.digits_ofDigits 32 (by omega)
  · exact fun code hcode => (mem_codes hcode).2
  · exact fun hne => Nat.ne_of_gt (mem_codes (List.getLast_mem hne)).1

theorem encodeFunction_long {funcTy : FunctionType} (h : 8 ≤ funcTy.params.length) :
    encodeFunction funcTy true true = 32 := by
  rw [encodeFunction, if_neg (Nat.not_lt.mpr h)]

/-- The code of long signatures has the digit zero, which no short one has. -/
theorem encodeFunction_short_ne {funcTy : FunctionType} (h : funcTy.params.length < 8) :
    encodeFunction funcTy true true ≠ 32 := by
  intro heq
  have hdigits := digits_encodeFunction h
  rw [heq] at hdigits
  have hzero : 0 ∈ codes funcTy := by
    rw [← hdigits]
    decide
  exact absurd (mem_codes hzero).1 (Nat.lt_irrefl 0)

/-- Two signatures between which the encoding makes no difference. -/
def SameSignature (s t : FunctionType) : Prop :=
  (8 ≤ s.params.length ∧ 8 ≤ t.params.length) ∨
    (s.params.length < 8 ∧ t.params.length < 8 ∧ s.params.length = t.params.length ∧
      encodeType s.returnType true = encodeType t.returnType true ∧
      s.params.map (encodeType · true) = t.params.map (encodeType · true))

theorem encodeFunction_eq_iff (s t : FunctionType) :
    encodeFunction s true true = encodeFunction t true true ↔ SameSignature s t := by
  rcases Nat.lt_or_ge s.params.length 8 with hs | hs <;>
    rcases Nat.lt_or_ge t.params.length 8 with ht | ht
  · constructor
    · intro heq
      have hcodes : codes s = codes t := by
        rw [← digits_encodeFunction hs, ← digits_encodeFunction ht, heq]
      obtain ⟨hreturn, hparams⟩ := List.cons.inj (List.reverse_injective hcodes)
      have hlength := congrArg List.length hparams
      rw [List.length_map, List.length_map] at hlength
      exact .inr ⟨hs, ht, hlength, hreturn, hparams⟩
    · intro hsame
      obtain ⟨-, -, -, hreturn, hparams⟩ := hsame.resolve_left fun h => Nat.not_le.mpr hs h.1
      rw [encodeFunction_short hs, encodeFunction_short ht, codes, codes, List.map_cons,
        List.map_cons, hreturn, hparams]
  · rw [encodeFunction_long ht, SameSignature]
    have := encodeFunction_short_ne hs
    omega
  · rw [encodeFunction_long hs, SameSignature, eq_comm]
    have := encodeFunction_short_ne ht
    omega
  · rw [encodeFunction_long hs, encodeFunction_long ht]
    exact iff_of_true rfl (.inl ⟨hs, ht⟩)

/-- The values of `Encoding` in the loop of `encodeFunction` after some of the parameters. -/
def encodingAfter (funcTy : FunctionType) (encodePointers encodeReturnType : Bool)
    (params : List LType) : Nat :=
  params.foldl (fun encoding param => encodeType param true + encoding * 32)
    (if encodeReturnType then encodeType funcTy.returnType encodePointers else 32)

theorem encodingAfter_lt (funcTy : FunctionType) (encodePointers encodeReturnType : Bool)
    (params : List LType) :
    encodingAfter funcTy encodePointers encodeReturnType params < 33 * 32 ^ params.length := by
  induction params using List.reverseRecOn with
  | nil =>
    have := encodeType_lt funcTy.returnType encodePointers
    rw [encodingAfter, List.foldl_nil, List.length_nil, Nat.pow_zero]
    split <;> omega
  | append_singleton params param ih =>
    have := encodeType_lt param true
    rw [encodingAfter] at ih ⊢
    rw [List.foldl_append, List.foldl_cons, List.foldl_nil, List.length_append,
      List.length_singleton, Nat.pow_succ]
    omega

/-- Neither the sums nor the products of the encoding exceed a word. -/
theorem encodingAfter_fits {funcTy : FunctionType} (hshort : funcTy.params.length < 8)
    (encodePointers encodeReturnType : Bool) {params : List LType}
    (hparams : params <+: funcTy.params) :
    encodingAfter funcTy encodePointers encodeReturnType params * 32 + 31 < 2 ^ 64 := by
  have hlt := encodingAfter_lt funcTy encodePointers encodeReturnType params
  have hpow : 32 ^ params.length ≤ 32 ^ 7 :=
    Nat.pow_le_pow_right (by omega) (hparams.length_le.trans (Nat.le_of_lt_succ hshort))
  omega

end Codes

section Requests

/-- The answers of `getTypeID` for some types in turn. -/
def SDEncoder.typeIDs (e : SDEncoder) : List FunctionType → List (BitVec 32)
  | [] => []
  | funcTy :: types => (e.getTypeID funcTy).1 :: (e.getTypeID funcTy).2.typeIDs types

theorem SDEncoder.getTypeID_found (e : SDEncoder) (funcTy : FunctionType) :
    (e.getTypeID funcTy).2.encodingToTypeID (encodeFunction funcTy true true) =
      some (e.getTypeID funcTy).1 := by
  unfold SDEncoder.getTypeID
  dsimp only
  split
  · assumption
  · simp

theorem SDEncoder.getTypeID_keeps {e : SDEncoder} {encoding : Nat} {id : BitVec 32}
    (h : e.encodingToTypeID encoding = some id) (funcTy : FunctionType) :
    (e.getTypeID funcTy).2.encodingToTypeID encoding = some id := by
  unfold SDEncoder.getTypeID
  dsimp only
  split
  · exact h
  · rename_i hnone
    have hne : encoding ≠ encodeFunction funcTy true true := fun heq => by simp [← heq, h] at hnone
    exact (Function.update_of_ne hne _ _).trans h

theorem SDEncoder.getTypeIDs_keeps {e : SDEncoder} {encoding : Nat} {id : BitVec 32}
    (h : e.encodingToTypeID encoding = some id) (types : List FunctionType) :
    (e.getTypeIDs types).encodingToTypeID encoding = some id := by
  induction types generalizing e with
  | nil => exact h
  | cons funcTy types ih => exact ih (e.getTypeID_keeps h funcTy)

/-- An answer is what the encoder remembers in the end. -/
theorem SDEncoder.length_typeIDs (e : SDEncoder) (types : List FunctionType) :
    (e.typeIDs types).length = types.length := by
  induction types generalizing e with
  | nil => rfl
  | cons funcTy types ih => rw [typeIDs, List.length_cons, List.length_cons, ih]

theorem SDEncoder.mem_zip_typeIDs {e : SDEncoder} {types : List FunctionType}
    {a : FunctionType × BitVec 32} (h : a ∈ types.zip (e.typeIDs types)) :
    a.1 ∈ types ∧
      (e.getTypeIDs types).encodingToTypeID (encodeFunction a.1 true true) = some a.2 := by
  induction types generalizing e with
  | nil => exact absurd h List.not_mem_nil
  | cons funcTy types ih =>
    rw [typeIDs, List.zip_cons_cons, List.mem_cons] at h
    rcases h with rfl | h
    · exact ⟨List.mem_cons_self, getTypeIDs_keeps (e.getTypeID_found funcTy) types⟩
    · exact ⟨List.mem_cons_of_mem _ (ih h).1, (ih h).2⟩

/-- The next number is new as long as the counter has not come around. -/
theorem SDEncoder.Descending.nextTypeID_new {start : BitVec 32} {types : List FunctionType}
    {e : SDEncoder} (h : e.Descending start types) (hcard : (encodings types).card < 2 ^ 32)
    (encoding : Nat) : e.encodingToTypeID encoding ≠ some e.nextTypeID := by
  intro hid
  obtain ⟨k, hk, heq⟩ := (h.mem_iff e.nextTypeID).mp ⟨encoding, hid⟩
  rw [h.nextTypeID] at heq
  have hnat : (BitVec.ofNat 32 (encodings types).card).toNat = (BitVec.ofNat 32 k).toNat := by
    bv_omega
  rw [BitVec.toNat_ofNat, BitVec.toNat_ofNat, Nat.mod_eq_of_lt hcard,
    Nat.mod_eq_of_lt (hk.trans hcard)] at hnat
  omega

theorem SDEncoder.getTypeIDs_injective (start : BitVec 32) {types : List FunctionType}
    (hcard : (encodings types).card ≤ 2 ^ 32) {encoding encoding' : Nat} {id : BitVec 32}
    (h : ((init start).getTypeIDs types).encodingToTypeID encoding = some id)
    (h' : ((init start).getTypeIDs types).encodingToTypeID encoding' = some id) :
    encoding = encoding' := by
  induction types using List.reverseRecOn generalizing encoding encoding' id with
  | nil => exact absurd h nofun
  | append_singleton types funcTy ih =>
    have hdescending := getTypeIDs_descending start types
    have hlast : (init start).getTypeIDs (types ++ [funcTy]) =
        (((init start).getTypeIDs types).getTypeID funcTy).2 := by
      rw [getTypeIDs, List.foldl_append]
      rfl
    rw [hlast] at h h'
    generalize (init start).getTypeIDs types = e at h h' hdescending ih
    unfold getTypeID at h h'
    dsimp only at h h'
    split at h
    · rename_i id' hid'
      rw [hid'] at h'
      refine ih (le_trans (Finset.card_le_card ?_) hcard) h h'
      rw [encodings_concat]
      exact Finset.subset_insert _ _
    · rename_i hnone
      have hmem : encodeFunction funcTy true true ∉ encodings types := by
        rw [← hdescending.isSome_iff, hnone]
        exact Bool.false_ne_true
      rw [encodings_concat, Finset.card_insert_of_notMem hmem] at hcard
      rw [hnone] at h'
      have hnew := hdescending.nextTypeID_new (Nat.lt_of_succ_le hcard)
      by_cases heq : encoding = encodeFunction funcTy true true <;>
        by_cases heq' : encoding' = encodeFunction funcTy true true
      · rw [heq, heq']
      · simp only [heq, Function.update_self, Option.some.injEq] at h
        exact absurd (by simpa [heq', h] using h') (hnew encoding')
      · simp only [heq', Function.update_self, Option.some.injEq] at h'
        exact absurd (by simpa [heq, h'] using h) (hnew encoding)
      · refine ih (by omega) (by simpa [heq] using h) (by simpa [heq'] using h')

/-- Two requests get the same answer exactly when the signatures are the same to the encoding,
which fits in a word. -/
theorem typeID_eq_iff (start : BitVec 32) (types : List FunctionType)
    (hcard : (encodings types).card < 2 ^ 32) :
    ((SDEncoder.init start).typeIDs types).length = types.length ∧
    (∀ a ∈ types.zip ((SDEncoder.init start).typeIDs types),
      ∀ b ∈ types.zip ((SDEncoder.init start).typeIDs types),
        a.2 = b.2 ↔ SameSignature a.1 b.1) ∧
    (∀ funcTy : FunctionType, funcTy.params.length < 8 → ∀ encodePointers encodeReturnType,
      encodeFunction funcTy encodePointers encodeReturnType =
        encodingAfter funcTy encodePointers encodeReturnType funcTy.params ∧
      ∀ params, params <+: funcTy.params →
        encodingAfter funcTy encodePointers encodeReturnType params * 32 + 31 < 2 ^ 64) ∧
    ∀ T recurse, encodeType T recurse < 32 := by
  refine ⟨SDEncoder.length_typeIDs _ _, ?answers, ?arithmetic, encodeType_lt⟩
  case answers =>
    intro a ha b hb
    have hfound := (SDEncoder.mem_zip_typeIDs ha).2
    have hfound' := (SDEncoder.mem_zip_typeIDs hb).2
    rw [← encodeFunction_eq_iff]
    constructor
    · intro heq
      rw [heq] at hfound
      exact SDEncoder.getTypeIDs_injective start (Nat.le_of_lt hcard) hfound hfound'
    · intro heq
      rw [heq, hfound'] at hfound
      exact (Option.some.inj hfound).symm
  case arithmetic =>
    intro funcTy hshort encodePointers encodeReturnType
    refine ⟨?_, fun params => encodingAfter_fits hshort encodePointers encodeReturnType⟩
    rw [encodeFunction, if_pos hshort]
    rfl

/-- A short signature twice, one with a pointer, and a long one. -/
def requests : List FunctionType :=
  [⟨.void, [.integer 32]⟩, ⟨.void, [.pointer .struct]⟩, ⟨.void, List.replicate 9 (.integer 8)⟩,
    ⟨.void, [.integer 17]⟩]

theorem typeID_eq_iff_requests :
    ((SDEncoder.init 0x7FFFE).typeIDs requests).length = requests.length ∧
    (∀ a ∈ requests.zip ((SDEncoder.init 0x7FFFE).typeIDs requests),
      ∀ b ∈ requests.zip ((SDEncoder.init 0x7FFFE).typeIDs requests),
        a.2 = b.2 ↔ SameSignature a.1 b.1) ∧
    (∀ funcTy : FunctionType, funcTy.params.length < 8 → ∀ encodePointers encodeReturnType,
      encodeFunction funcTy encodePointers encodeReturnType =
        encodingAfter funcTy encodePointers encodeReturnType funcTy.params ∧
      ∀ params, params <+: funcTy.params →
        encodingAfter funcTy encodePointers encodeReturnType params * 32 + 31 < 2 ^ 64) ∧
    ∀ T recurse, encodeType T recurse < 32 :=
  typeID_eq_iff 0x7FFFE requests (by decide)

end Requests

end RhoFEM.Return
