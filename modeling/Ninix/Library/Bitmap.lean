import Mathlib.Data.Nat.Bitwise
import Ninix.Library.ByteBuffer
import Ninix.Library.Counting

/-!
# Bitmaps in byte buffers

Bit `i` of a bitmap is bit `i % 8` of byte `i / 8`. Setting and clearing a bit change that bit
only, and move the number of zero bits by one. A bitmap with a zero bit has a byte other than
255, and the first of these has a zero bit.
-/

namespace Bitmap

open ByteBuffer

/-- The bit of a bitmap at an index. -/
def bit (buf : Bytes) (i : ℕ) : Bool := (buf (i / 8)).toNat.testBit (i % 8)

/-- Set bit `i`. -/
def setBit (buf : Bytes) (i : ℕ) : Bytes :=
  Function.update buf (i / 8) (UInt8.ofNat ((buf (i / 8)).toNat ||| 1 <<< (i % 8)))

/-- Clear bit `i`. -/
def clearBit (buf : Bytes) (i : ℕ) : Bytes :=
  Function.update buf (i / 8) (UInt8.ofNat ((buf (i / 8)).toNat &&& (255 ^^^ 1 <<< (i % 8))))

/-- The zero bits among the first `n`. -/
def zeroBits (buf : Bytes) (n : ℕ) : ℕ := (List.range n).countP fun i => bit buf i = false

variable {buf other : Bytes} {i j n : ℕ}

theorem bit_update (value : ℕ) :
    bit (Function.update buf (i / 8) (UInt8.ofNat value)) j =
      if j / 8 = i / 8 then value.testBit (j % 8) else bit buf j := by
  unfold bit
  by_cases sameByte : j / 8 = i / 8
  · have small : j % 8 < 8 := Nat.mod_lt _ (by decide)
    rw [if_pos sameByte, sameByte, Function.update_self, UInt8.toNat_ofNat']
    rw [Nat.testBit_mod_two_pow, decide_eq_true small, Bool.true_and]
  · rw [if_neg sameByte, Function.update_of_ne sameByte]

/-- In one byte, a bit is found by its place. -/
theorem sameBit_iff (sameByte : j / 8 = i / 8) : i % 8 = j % 8 ↔ j = i := by omega

@[simp]
theorem bit_setBit : bit (setBit buf i) j = (decide (j = i) || bit buf j) := by
  rw [setBit, bit_update]
  split
  · rename_i sameByte
    rw [Nat.testBit_or, Nat.one_shiftLeft, Nat.testBit_two_pow, ← sameByte, Bool.or_comm,
      decide_eq_decide.mpr (sameBit_iff sameByte)]
    rfl
  · rename_i otherByte
    rw [decide_eq_false (by rintro rfl; exact otherByte rfl), Bool.false_or]

@[simp]
theorem bit_clearBit : bit (clearBit buf i) j = (!decide (j = i) && bit buf j) := by
  rw [clearBit, bit_update]
  split
  · rename_i sameByte
    have small : j % 8 < 8 := Nat.mod_lt _ (by decide)
    have ones : Nat.testBit 255 (j % 8) = true := by
      rw [show 255 = 2 ^ 8 - 1 from rfl, Nat.testBit_two_pow_sub_one, decide_eq_true small]
    rw [Nat.testBit_and, Nat.testBit_xor, Nat.one_shiftLeft, Nat.testBit_two_pow, ones,
      ← sameByte, Bool.true_xor, Bool.and_comm, decide_eq_decide.mpr (sameBit_iff sameByte)]
    rfl
  · rename_i otherByte
    rw [decide_eq_false (by rintro rfl; exact otherByte rfl), Bool.not_false, Bool.true_and]

/-- A change of one byte is the same for buffers that agree in front of a bound. -/
theorem update_bytes {size k : ℕ} (value : UInt8 → UInt8) (agree : ∀ k < size, buf k = other k)
    (below : k < size) : Function.update buf j (value (buf j)) k =
      Function.update other j (value (other j)) k := by
  by_cases here : k = j
  · subst here
    rw [Function.update_self, Function.update_self, agree k below]
  · rw [Function.update_of_ne here, Function.update_of_ne here, agree k below]

theorem setBit_bytes {size k : ℕ} (agree : ∀ k < size, buf k = other k) (below : k < size) :
    setBit buf i k = setBit other i k :=
  update_bytes (fun byte => UInt8.ofNat (byte.toNat ||| 1 <<< (i % 8))) agree below

theorem clearBit_bytes {size k : ℕ} (agree : ∀ k < size, buf k = other k) (below : k < size) :
    clearBit buf i k = clearBit other i k :=
  update_bytes (fun byte => UInt8.ofNat (byte.toNat &&& (255 ^^^ 1 <<< (i % 8)))) agree below

theorem bit_congr (agree : buf (i / 8) = other (i / 8)) : bit buf i = bit other i := by
  unfold bit
  rw [agree]

theorem zeroBits_congr (agree : ∀ i < n, bit buf i = bit other i) :
    zeroBits buf n = zeroBits other n := by
  apply List.countP_congr
  intro i mem
  rw [agree i (List.mem_range.mp mem)]

/-- Setting a zero bit leaves one zero bit fewer. -/
theorem zeroBits_setBit (lt : i < n) (zero : bit buf i = false) :
    zeroBits buf n = zeroBits (setBit buf i) n + 1 := by
  apply Counting.countP_except List.nodup_range (List.mem_range.mpr lt) zero
  · simp
  · intro j _ ne
    simp [ne]

/-- Clearing a bit that is set leaves one zero bit more. -/
theorem zeroBits_clearBit (lt : i < n) (one : bit buf i = true) :
    zeroBits (clearBit buf i) n = zeroBits buf n + 1 := by
  apply Counting.countP_except List.nodup_range (List.mem_range.mpr lt)
  · simp
  · simp [one]
  · intro j _ ne
    simp [ne]

theorem zeroBits_pos : 0 < zeroBits buf n ↔ ∃ i < n, bit buf i = false := by
  simp [zeroBits, List.countP_pos_iff]

theorem zeroBits_le : zeroBits buf n ≤ n := by
  have le := List.countP_le_length (p := fun i => bit buf i = false) (l := List.range n)
  rwa [List.length_range] at le

/-- A byte is 255 exactly when its eight bits are set. -/
theorem byte_full {byte : UInt8} : byte = 0xff ↔ ∀ k < 8, byte.toNat.testBit k = true := by
  constructor
  · rintro rfl k lt
    rw [show (0xff : UInt8).toNat = 2 ^ 8 - 1 from rfl, Nat.testBit_two_pow_sub_one]
    exact decide_eq_true lt
  · intro all
    apply UInt8.toNat.inj
    apply Nat.eq_of_testBit_eq
    intro k
    rw [show (0xff : UInt8).toNat = 2 ^ 8 - 1 from rfl, Nat.testBit_two_pow_sub_one]
    by_cases lt : k < 8
    · rw [all k lt, decide_eq_true lt]
    · rw [decide_eq_false lt]
      apply Nat.testBit_lt_two_pow
      exact byte.toNat_lt.trans_le (Nat.pow_le_pow_right (by decide) (by omega))

end Bitmap
