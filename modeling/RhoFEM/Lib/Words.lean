import Mathlib.Data.BitVec
import Mathlib.Tactic.Common

/-! Arrays of words in memory, each at the place of its name, and the word at an address. -/

namespace RhoFEM.Lib.Words

variable {ν α : Type}

/-- The address some words from the start of an array. -/
def wordAddress (place : ν → BitVec 64) (name : ν) (i : Int) : BitVec 64 :=
  place name + BitVec.ofInt 64 (i * 8)

def readWord (place : ν → BitVec 64) (arrays : List (ν × List α)) (a : BitVec 64) : Option α :=
  arrays.findSome? fun array =>
    if (a - place array.1).toNat % 8 = 0 then array.2[(a - place array.1).toNat / 8]? else none

/-- The arrays fit into half of the address space, and no two words share an address. -/
structure Apart (place : ν → BitVec 64) (arrays : List (ν × List α)) : Prop where
  fits : ∀ array ∈ arrays, array.2.length * 8 < 2 ^ 63
  injective : ∀ array ∈ arrays, ∀ array' ∈ arrays, ∀ i < array.2.length, ∀ j < array'.2.length,
    wordAddress place array.1 i = wordAddress place array'.1 j → array = array' ∧ i = j

instance [DecidableEq ν] [DecidableEq α] (place : ν → BitVec 64) (arrays : List (ν × List α)) :
    Decidable (Apart place arrays) :=
  decidable_of_iff ((∀ array ∈ arrays, array.2.length * 8 < 2 ^ 63) ∧
    ∀ array ∈ arrays, ∀ array' ∈ arrays, ∀ i < array.2.length, ∀ j < array'.2.length,
      wordAddress place array.1 i = wordAddress place array'.1 j → array = array' ∧ i = j)
    ⟨fun h => ⟨h.1, h.2⟩, fun h => ⟨h.fits, h.injective⟩⟩

theorem wordAddress_add (place : ν → BitVec 64) (name : ν) (i j : Int) :
    wordAddress place name i + BitVec.ofInt 64 (j * 8) = wordAddress place name (i + j) := by
  rw [wordAddress, wordAddress, BitVec.add_assoc, ← BitVec.ofInt_add, Int.add_mul]

theorem wordAddress_natCast (place : ν → BitVec 64) (name : ν) (n : Nat) :
    wordAddress place name n = place name + BitVec.ofNat 64 (n * 8) := by
  rw [wordAddress, ← BitVec.ofInt_natCast, Int.natCast_mul]
  rfl

/-- A multiple of a word between two addresses is a number of words. -/
theorem eq_wordAddress_of_mod {place : ν → BitVec 64} {name : ν} {a : BitVec 64}
    (h : (a - place name).toNat % 8 = 0) :
    a = wordAddress place name ((a - place name).toNat / 8 : Nat) := by
  have hdiv : (a - place name).toNat / 8 * 8 = (a - place name).toNat :=
    Nat.div_mul_cancel (Nat.dvd_of_mod_eq_zero h)
  rw [wordAddress_natCast, hdiv, BitVec.ofNat_toNat, BitVec.setWidth_eq, BitVec.add_comm,
    BitVec.sub_add_cancel]

theorem wordAddress_sub_toNat (place : ν → BitVec 64) (name : ν) {i : Nat} (hi : i * 8 < 2 ^ 64) :
    (wordAddress place name i - place name).toNat = i * 8 := by
  rw [wordAddress_natCast, BitVec.add_comm, BitVec.add_sub_cancel, BitVec.toNat_ofNat,
    Nat.mod_eq_of_lt hi]

/-- What is read is an element of some array, at its address. -/
theorem readWord_eq_some {place : ν → BitVec 64} {arrays : List (ν × List α)} {a : BitVec 64}
    {c : α} (h : readWord place arrays a = some c) :
    ∃ array ∈ arrays, ∃ i : Nat, array.2[i]? = some c ∧ a = wordAddress place array.1 i := by
  obtain ⟨array, hmem, hread⟩ := List.exists_of_findSome?_eq_some h
  split at hread
  · rename_i hmod
    exact ⟨array, hmem, _, hread, eq_wordAddress_of_mod hmod⟩
  · cases hread

/-- At the address of an element, that element is read. -/
theorem readWord_wordAddress {place : ν → BitVec 64} {arrays : List (ν × List α)}
    (h : Apart place arrays) {array : ν × List α} (hmem : array ∈ arrays) {i : Nat} {c : α}
    (hget : array.2[i]? = some c) :
    readWord place arrays (wordAddress place array.1 i) = some c := by
  obtain ⟨hi, -⟩ := List.getElem?_eq_some_iff.mp hget
  have hsome : (readWord place arrays (wordAddress place array.1 i)).isSome := by
    rw [readWord, List.findSome?_isSome_iff]
    have hfits := h.fits array hmem
    refine ⟨array, hmem, ?_⟩
    rw [wordAddress_sub_toNat place array.1 (by omega), if_pos (Nat.mul_mod_left i 8),
      Nat.mul_div_cancel i (by decide), hget]
    rfl
  obtain ⟨d, hd⟩ := Option.isSome_iff_exists.mp hsome
  obtain ⟨array', hmem', j, hget', haddr⟩ := readWord_eq_some hd
  obtain ⟨hj, -⟩ := List.getElem?_eq_some_iff.mp hget'
  obtain ⟨rfl, rfl⟩ := h.injective array hmem array' hmem' i hi j hj haddr
  rw [hd, ← hget', hget]

end RhoFEM.Lib.Words
