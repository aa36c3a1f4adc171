import Mathlib

/-! Strings as the C++ code handles them, on their characters. -/

namespace RhoFEM.Lib.StringRef

def startswith (name pre : String) : Bool := pre.toList.isPrefixOf name.toList

def endswith (name suffix : String) : Bool := suffix.toList.isSuffixOf name.toList

/-- `StringRef::split`: around the first occurrence of the separator. -/
def split (sep : Char) : List Char → List Char × List Char
  | [] => ([], [])
  | c :: cs => if c = sep then ([], cs) else ((split sep cs).map (c :: ·) id)

theorem startswith_iff {name pre : String} :
    startswith name pre = true ↔ pre.toList <+: name.toList := by
  simp [startswith]

theorem startswith_append_self (pre name : String) : startswith (pre ++ name) pre = true := by
  simp [startswith_iff]

theorem split_append {sep : Char} (pre rest : List Char) (h : sep ∉ pre) :
    split sep (pre ++ sep :: rest) = (pre, rest) := by
  induction pre with
  | nil => simp [split]
  | cons c cs ih =>
    obtain ⟨hc, hcs⟩ : sep ≠ c ∧ sep ∉ cs := by simpa using h
    simp [split, hc.symm, ih hcs]

/-- `c_str()` ends at the first null character. -/
def cString (s : String) : String := String.ofList (s.toList.takeWhile (· ≠ Char.ofNat 0))

theorem cString_eq_iff {s : String} : cString s = s ↔ Char.ofNat 0 ∉ s.toList := by
  rw [cString, ← String.toList_inj, String.toList_ofList, List.takeWhile_eq_self_iff]
  constructor
  · exact fun h hmem => absurd (h _ hmem) (by decide)
  · exact fun h c hc => decide_eq_true (ne_of_mem_of_not_mem hc h)

theorem cString_eq {s : String} (h : Char.ofNat 0 ∉ s.toList) : cString s = s :=
  cString_eq_iff.mpr h

/-- The blanks of the C locale. -/
def isSpace (c : Char) : Bool := c.toNat = 32 || (9 ≤ c.toNat && c.toNat ≤ 13)

/-- `std::stoul`, where `none` is an exception. What follows the digits is ignored. -/
def stoul (s : List Char) : Option Nat :=
  let s := s.dropWhile isSpace
  let negative := s.head? = some '-'
  let digits := (if negative ∨ s.head? = some '+' then s.tail else s).takeWhile Char.isDigit
  let value := Nat.ofDigitChars 10 digits 0
  if digits = [] ∨ 2 ^ 64 ≤ value then none
  else some (if negative then (2 ^ 64 - value) % 2 ^ 64 else value)

theorem toString_toList (n : Nat) : (toString n).toList = Nat.toDigits 10 n := Nat.toList_repr

theorem isDigit_of_mem_toString {n : Nat} {c : Char} (hc : c ∈ (toString n).toList) :
    c.isDigit = true := by
  rw [toString_toList] at hc
  exact Nat.isDigit_of_mem_toDigits (by decide) (by decide) hc

theorem toString_toList_inj {m n : Nat} (h : (toString m).toList = (toString n).toList) :
    m = n := by
  rw [toString_toList, toString_toList] at h
  have hvalue := congrArg (Nat.ofDigitChars 10 · 0) h
  rwa [Nat.ofDigitChars_toDigits (by decide) (by decide),
    Nat.ofDigitChars_toDigits (by decide) (by decide)] at hvalue

theorem isDigit_toNat {c : Char} (h : c.isDigit = true) : 48 ≤ c.toNat ∧ c.toNat ≤ 57 := by
  simp only [Char.isDigit, Bool.and_eq_true, decide_eq_true_eq] at h
  exact ⟨h.1, h.2⟩

theorem stoul_toString {n : Nat} (h : n < 2 ^ 64) : stoul (toString n).toList = some n := by
  have hdigit : ∀ c ∈ Nat.toDigits 10 n, c.isDigit = true :=
    fun c hc => Nat.isDigit_of_mem_toDigits (by decide) (by decide) hc
  have hne : Nat.toDigits 10 n ≠ [] := Nat.toDigits_ne_nil
  have hvalue : Nat.ofDigitChars 10 (Nat.toDigits 10 n) 0 = n :=
    Nat.ofDigitChars_toDigits (by decide) (by decide)
  have htake : (Nat.toDigits 10 n).takeWhile Char.isDigit = Nat.toDigits 10 n :=
    List.takeWhile_eq_self_iff.mpr hdigit
  have hfirst : (Nat.toDigits 10 n).dropWhile isSpace = Nat.toDigits 10 n ∧
      (Nat.toDigits 10 n).head? ≠ some '-' ∧ (Nat.toDigits 10 n).head? ≠ some '+' := by
    cases hdigits : Nat.toDigits 10 n with
    | nil => exact absurd hdigits hne
    | cons c cs =>
      have hc := isDigit_toNat (hdigit c (by simp [hdigits]))
      have hspace : isSpace c = false := by
        rw [isSpace, Bool.or_eq_false_iff, Bool.and_eq_false_iff]
        simp only [decide_eq_false_iff_not]
        omega
      refine ⟨by rw [List.dropWhile_cons, hspace, if_neg Bool.false_ne_true], ?_, ?_⟩
      · rintro ⟨⟩
        exact absurd hc (by decide)
      · rintro ⟨⟩
        exact absurd hc (by decide)
  obtain ⟨hblank, hminus, hplus⟩ := hfirst
  rw [toString_toList, stoul]
  simp only [hblank, hminus, hplus, false_or, if_false, htake, hvalue, hne]
  rw [if_neg (by omega)]

end RhoFEM.Lib.StringRef
