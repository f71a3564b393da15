import Mathlib.Data.Nat.Notation
import Mathlib.Logic.Function.Basic

/-!
# Bitmaps of whole bytes

Bit `i` of a map of bytes is bit `i % 8` of byte `i / 8`. Setting and clearing a bit change that
bit only. The search for the first bit that is set goes over the bytes first and then over the
bits of the first byte that is not zero.
-/

namespace ByteMap

/-- The bit at an index. -/
def isSet (map : ℕ → BitVec 8) (i : ℕ) : Bool := (map (i / 8)).getLsbD (i % 8)

def set (map : ℕ → BitVec 8) (i : ℕ) : ℕ → BitVec 8 :=
  Function.update map (i / 8) (map (i / 8) ||| (1 : BitVec 8) <<< (i % 8))

def clear (map : ℕ → BitVec 8) (i : ℕ) : ℕ → BitVec 8 :=
  Function.update map (i / 8) (map (i / 8) &&& ~~~((1 : BitVec 8) <<< (i % 8)))

variable {map : ℕ → BitVec 8} {i j : ℕ}

/-- A byte with one bit. -/
theorem getLsbD_one (sameByte : j / 8 = i / 8) :
    ((1 : BitVec 8) <<< (i % 8)).getLsbD (j % 8) = decide (j = i) := by
  have bit : (1 : BitVec 8) <<< (i % 8) = BitVec.twoPow 8 (i % 8) :=
    (BitVec.twoPow_eq 8 (i % 8)).symm
  have small : i % 8 < 8 := Nat.mod_lt _ (by decide)
  have same : i % 8 = j % 8 ↔ j = i := by omega
  rw [bit, BitVec.getLsbD_twoPow, decide_eq_true small, Bool.true_and]
  exact decide_eq_decide.mpr same

@[simp]
theorem isSet_set : isSet (set map i) j = (decide (j = i) || isSet map j) := by
  unfold isSet set
  by_cases sameByte : j / 8 = i / 8
  · rw [sameByte, Function.update_self, BitVec.getLsbD_or, getLsbD_one sameByte, Bool.or_comm]
  · have ne : j ≠ i := fun eq => sameByte (by rw [eq])
    rw [Function.update_of_ne sameByte, decide_eq_false ne, Bool.false_or]

@[simp]
theorem isSet_clear : isSet (clear map i) j = (!decide (j = i) && isSet map j) := by
  unfold isSet clear
  by_cases sameByte : j / 8 = i / 8
  · have small : j % 8 < 8 := Nat.mod_lt _ (by decide)
    rw [sameByte, Function.update_self, BitVec.getLsbD_and, BitVec.getLsbD_not,
      getLsbD_one sameByte, decide_eq_true small, Bool.true_and, Bool.and_comm]
  · have ne : j ≠ i := fun eq => sameByte (by rw [eq])
    rw [Function.update_of_ne sameByte, decide_eq_false ne, Bool.not_false, Bool.true_and]

/-- A byte is zero when none of its bits is set. -/
theorem eq_zero_iff {byte : BitVec 8} : byte = 0 ↔ ∀ k < 8, byte.getLsbD k = false := by
  constructor
  · rintro rfl k _
    exact BitVec.getLsbD_zero
  · intro none
    apply BitVec.eq_of_getLsbD_eq
    intro k lt
    rw [none k lt]
    exact BitVec.getLsbD_zero.symm

/-- A byte that is not zero has a first bit. -/
theorem exists_first {byte : BitVec 8} (notZero : byte ≠ 0) :
    ∃ off, (List.range 8).find? (fun off => byte.getLsbD off) = some off := by
  apply Option.ne_none_iff_exists'.mp
  intro none
  apply notZero
  apply eq_zero_iff.mpr
  intro k lt
  simpa using List.find?_eq_none.mp none k (List.mem_range.mpr lt)

/-- The first bit that is set at or behind a byte, `none` if there is none in front of `bytes`. -/
def firstFrom (map : ℕ → BitVec 8) (start bytes : ℕ) : Option ℕ :=
  ((List.range' start (bytes - start)).find? fun index => map index != 0).bind fun index =>
    ((List.range 8).find? fun off => (map index).getLsbD off).map fun off => index * 8 + off

theorem isSet_of_byte (k : ℕ) (lt : k < 8) (index : ℕ) :
    isSet map (index * 8 + k) = (map index).getLsbD k := by
  have byte : (index * 8 + k) / 8 = index := by omega
  have off : (index * 8 + k) % 8 = k := by omega
  rw [isSet, byte, off]

/-- A map of bytes is known by its bits. -/
theorem eq_of_isSet {map' : ℕ → BitVec 8} (same : ∀ j, isSet map' j = isSet map j) :
    map' = map := by
  funext index
  apply BitVec.eq_of_getLsbD_eq
  intro k lt
  rw [← isSet_of_byte k lt, ← isSet_of_byte k lt]
  exact same _

/-- The search finds the first bit that is set. -/
theorem firstFrom_spec (map : ℕ → BitVec 8) (start bytes : ℕ) :
    match firstFrom map start bytes with
    | none => ∀ j, start * 8 ≤ j → j < bytes * 8 → isSet map j = false
    | some i => i < bytes * 8 ∧ isSet map i = true ∧
        ∀ j, start * 8 ≤ j → j < i → isSet map j = false := by
  have zeroByte : ∀ j, map (j / 8) = 0 → isSet map j = false := by
    intro j isZero
    exact eq_zero_iff.mp isZero _ (Nat.mod_lt _ (by decide))
  unfold firstFrom
  cases found : (List.range' start (bytes - start)).find? fun index => map index != 0 with
  | none =>
      intro j lower upper
      apply zeroByte
      have notFound := List.find?_eq_none.mp found (j / 8) (List.mem_range'_1.mpr (by omega))
      simpa using notFound
  | some index =>
      rcases List.find?_range'_eq_some.mp found with ⟨notZero, inRange, before⟩
      rw [List.mem_range'_1] at inRange
      simp only [Option.bind_some]
      rcases exists_first (by simpa using notZero) with ⟨off, found'⟩
      rcases List.find?_range_eq_some.mp found' with ⟨isOn, inByte, before'⟩
      have lt := List.mem_range.mp inByte
      simp only [found', Option.map_some]
      refine ⟨by omega, ?_, fun j lower upper => ?_⟩
      · rw [isSet_of_byte off lt]
        exact isOn
      · by_cases sameByte : j / 8 = index
        · have here := before' (j % 8) (by omega)
          unfold isSet
          rw [sameByte]
          simpa using here
        · apply zeroByte
          have earlier := before (j / 8) (by omega) (by omega)
          simpa using earlier

end ByteMap
