import Mathlib.Data.Int.Notation
import Mathlib.Data.Nat.Notation
import Mathlib.Logic.Function.Basic
import Mathlib.Tactic.SplitIfs

/-!
# A memory of bytes and words

Words of four bytes are stored with the lowest byte first. A loop that fills words changes those
of a range only. A loop that copies byte after byte to lower addresses reads every byte before it
is replaced, although the two ranges may overlap, so it moves words as they were.
-/

namespace WordMemory

/-- The contents of a memory, by the address in bytes. -/
abbrev Memory := ℤ → BitVec 8

/-- The word at an index. -/
def word (memory : Memory) (index : ℤ) : BitVec 32 :=
  memory (4 * index + 3) ++ memory (4 * index + 2) ++ memory (4 * index + 1) ++ memory (4 * index)

def storeWord (memory : Memory) (index : ℤ) (value : BitVec 32) : Memory := fun address =>
  if address / 4 = index then value.extractLsb' (8 * (address % 4).toNat) 8 else memory address

/-- Store a word again and again, each time at the next index. -/
def fillWords (memory : Memory) (dest : ℤ) (value : BitVec 32) : ℕ → Memory
  | 0 => memory
  | n + 1 => fillWords (storeWord memory dest value) (dest + 1) value n

/-- Copy byte after byte, from the lowest address on. -/
def copyBytes (memory : Memory) (dest src : ℤ) : ℕ → Memory
  | 0 => memory
  | n + 1 => copyBytes (Function.update memory dest (memory src)) (dest + 1) (src + 1) n

variable {memory memory' : Memory} {index address dest src : ℤ} {value : BitVec 32}

theorem word_congr (same : ∀ address, address / 4 = index → memory' address = memory address) :
    word memory' index = word memory index := by
  rw [word, word, same, same, same, same] <;> omega

theorem storeWord_outside (outside : address / 4 ≠ index) :
    storeWord memory index value address = memory address := if_neg outside

theorem word_storeWord_self : word (storeWord memory index value) index = value := by
  have inside : ∀ k : ℕ, k < 4 → storeWord memory index value (4 * index + k) =
      value.extractLsb' (8 * k) 8 := by
    intro k lt
    have place : (4 * index + (k : ℤ)) / 4 = index := by omega
    have offset : ((4 * index + (k : ℤ)) % 4).toNat = k := by omega
    rw [storeWord, if_pos place, offset]
  have lowest := inside 0 (by decide)
  rw [Int.natCast_zero, Int.add_zero] at lowest
  have bytes : word (storeWord memory index value) index = value.extractLsb' 24 8 ++
      value.extractLsb' 16 8 ++ value.extractLsb' 8 8 ++ value.extractLsb' 0 8 := by
    rw [word, lowest]
    exact congrArg₂ _ (congrArg₂ _ (congrArg₂ _ (inside 3 (by decide)) (inside 2 (by decide)))
      (inside 1 (by decide))) rfl
  rw [bytes, BitVec.extractLsb'_append_extractLsb'_eq_extractLsb' (by rfl : 24 = 16 + 8),
    BitVec.extractLsb'_append_extractLsb'_eq_extractLsb' (by rfl : 16 = 8 + 8),
    BitVec.extractLsb'_append_extractLsb'_eq_extractLsb' (by rfl : 8 = 0 + 8)]
  exact BitVec.extractLsb'_eq_self

theorem word_storeWord (other : ℤ) : word (storeWord memory index value) other =
    if other = index then value else word memory other := by
  split_ifs with same
  · rw [same, word_storeWord_self]
  · exact word_congr fun address place => storeWord_outside (place ▸ same)

theorem word_fillWords (memory : Memory) (dest index : ℤ) (n : ℕ) :
    word (fillWords memory dest value n) index =
      if dest ≤ index ∧ index < dest + n then value else word memory index := by
  induction n generalizing memory dest with
  | zero =>
      rw [fillWords, if_neg]
      omega
  | succ n ih =>
      rw [fillWords, ih, word_storeWord]
      split_ifs <;> first | rfl | omega

theorem fillWords_outside (memory : Memory) (dest : ℤ) (n : ℕ)
    (outside : address / 4 < dest ∨ dest + n ≤ address / 4) :
    fillWords memory dest value n address = memory address := by
  induction n generalizing memory dest with
  | zero => rfl
  | succ n ih =>
      rw [fillWords, ih _ _ (by omega), storeWord_outside (by omega)]

theorem copyBytes_outside (memory : Memory) (dest src : ℤ) (n : ℕ)
    (outside : address < dest ∨ dest + n ≤ address) :
    copyBytes memory dest src n address = memory address := by
  induction n generalizing memory dest src with
  | zero => rfl
  | succ n ih =>
      rw [copyBytes, ih _ _ _ (by omega), Function.update_of_ne (by omega)]

/-- A copy to lower addresses, whether the ranges overlap or not. -/
theorem copyBytes_apply (memory : Memory) (le : dest ≤ src) (n : ℕ) (address : ℤ) :
    copyBytes memory dest src n address =
      if dest ≤ address ∧ address < dest + n then memory (address + (src - dest))
      else memory address := by
  induction n generalizing memory dest src with
  | zero =>
      rw [copyBytes, if_neg]
      omega
  | succ n ih =>
      rw [copyBytes, ih _ (by omega)]
      have shift : address + (src + 1 - (dest + 1)) = address + (src - dest) := by omega
      rw [shift]
      by_cases first : address = dest
      · subst first
        have past : ¬(address + 1 ≤ address ∧ address < address + 1 + n) := by omega
        have source : address + (src - address) = src := by omega
        rw [if_neg past, if_pos (by omega), Function.update_self, source]
      · by_cases inside : dest ≤ address ∧ address < dest + (n + 1 : ℕ)
        · rw [if_pos inside, if_pos (by omega), Function.update_of_ne (by omega)]
        · rw [if_neg inside, if_neg (by omega), Function.update_of_ne first]

/-- Whole words are moved by a copy to lower addresses. -/
theorem word_copyBytes (memory : Memory) (le : dest ≤ src) (n : ℕ) (index : ℤ) :
    word (copyBytes memory (4 * dest) (4 * src) (4 * n)) index =
      if dest ≤ index ∧ index < dest + n then word memory (index + (src - dest))
      else word memory index := by
  have copied := copyBytes_apply memory (Int.mul_le_mul_of_nonneg_left le (by decide : (0:ℤ) ≤ 4))
    (4 * n)
  split_ifs with inside
  · have moved : ∀ k : ℤ, 0 ≤ k → k < 4 →
        copyBytes memory (4 * dest) (4 * src) (4 * n) (4 * index + k) =
          memory (4 * (index + (src - dest)) + k) := by
      intro k nonneg lt
      rw [copied, if_pos (by omega)]
      exact congrArg memory (by omega)
    have first := moved 0 (by decide) (by decide)
    rw [Int.add_zero, Int.add_zero] at first
    rw [word, word, moved 3, moved 2, moved 1, first] <;> decide
  · apply word_congr
    intro address place
    rw [copied, if_neg (by omega)]

end WordMemory
