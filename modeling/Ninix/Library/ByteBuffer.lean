import Mathlib.Tactic.Linarith
import Mathlib.Data.Nat.ModEq

/-!
# Byte buffers with little-endian numbers

A buffer is a function from offsets to bytes. A copy replaces a range of offsets, and a number
of `width` bytes is stored with its lowest byte first, as the machines the buffers come from
store it. The lemmas say which bytes each operation changes and that a number stored is the
number read back.
-/

namespace ByteBuffer

/-- The contents of a buffer, by offset. -/
abbrev Bytes := ℕ → UInt8

/-- A buffer filled with zeros. -/
def zeros : Bytes := fun _ => 0

/-- Copy `len` bytes of `src` from offset `source` to offset `target` of `dst`. -/
def blit (dst : Bytes) (target : ℕ) (src : Bytes) (source len : ℕ) : Bytes := fun i =>
  if target ≤ i ∧ i < target + len then src (source + (i - target)) else dst i

/-- Set `len` bytes from offset `target` to one value. -/
def fill (dst : Bytes) (target len : ℕ) (value : UInt8) : Bytes := fun i =>
  if target ≤ i ∧ i < target + len then value else dst i

/-- The number stored in `width` bytes at an offset, lowest byte first. -/
def readLE (buf : Bytes) (offset : ℕ) : ℕ → ℕ
  | 0 => 0
  | width + 1 => (buf offset).toNat + 256 * readLE buf (offset + 1) width

/-- Store a number in `width` bytes at an offset, lowest byte first. -/
def writeLE (buf : Bytes) (offset width value : ℕ) : Bytes := fun i =>
  if offset ≤ i ∧ i < offset + width then UInt8.ofNat (value / 256 ^ (i - offset)) else buf i

/-- The 32 bit number at an offset. -/
abbrev read32 (buf : Bytes) (offset : ℕ) : ℕ := readLE buf offset 4

/-- Store a 32 bit number at an offset. -/
abbrev write32 (buf : Bytes) (offset value : ℕ) : Bytes := writeLE buf offset 4 value

theorem blit_inside {dst src : Bytes} {target source len i : ℕ}
    (lower : target ≤ i) (upper : i < target + len) :
    blit dst target src source len i = src (source + (i - target)) := by
  simp [blit, lower, upper]

theorem blit_outside {dst src : Bytes} {target source len i : ℕ}
    (outside : i < target ∨ target + len ≤ i) : blit dst target src source len i = dst i := by
  unfold blit
  rw [if_neg]
  omega

theorem fill_outside {dst : Bytes} {target len i : ℕ} {value : UInt8}
    (outside : i < target ∨ target + len ≤ i) : fill dst target len value i = dst i := by
  unfold fill
  rw [if_neg]
  omega

theorem writeLE_outside {buf : Bytes} {offset width value i : ℕ}
    (outside : i < offset ∨ offset + width ≤ i) : writeLE buf offset width value i = buf i := by
  unfold writeLE
  rw [if_neg]
  omega

/-- Buffers that agree on the bytes of a number store the same number there. -/
theorem readLE_congr {left right : Bytes} {offset : ℕ} {width : ℕ}
    (agree : ∀ i, offset ≤ i → i < offset + width → left i = right i) :
    readLE left offset width = readLE right offset width := by
  induction width generalizing offset with
  | zero => rfl
  | succ width ih =>
      have rest : readLE left (offset + 1) width = readLE right (offset + 1) width :=
        ih fun i lower upper => agree i (by omega) (by omega)
      simp only [readLE, rest, agree offset le_rfl (by omega)]

/-- Reading through a shift of the offsets. -/
theorem readLE_shift {left right : Bytes} {offset shift : ℕ} {width : ℕ}
    (agree : ∀ i, i < width → left (offset + i) = right (shift + i)) :
    readLE left offset width = readLE right shift width := by
  induction width generalizing offset shift with
  | zero => rfl
  | succ width ih =>
      have rest : readLE left (offset + 1) width = readLE right (shift + 1) width :=
        ih fun i below => by
          have := agree (i + 1) (by omega)
          simpa [Nat.add_assoc, Nat.add_comm 1] using this
      have first := agree 0 (by omega)
      simp only [readLE, rest, Nat.add_zero] at first ⊢
      rw [first]

theorem readLE_lt (buf : Bytes) (offset width : ℕ) :
    readLE buf offset width < 256 ^ width := by
  induction width generalizing offset with
  | zero => simp [readLE]
  | succ width ih =>
      have rest := ih (offset + 1)
      have first := (buf offset).toNat_lt
      simp only [readLE, pow_succ]
      omega

theorem read32_lt (buf : Bytes) (offset : ℕ) : read32 buf offset < 4294967296 :=
  readLE_lt buf offset 4

/-- A number stored is read back, up to the width it was stored in. -/
theorem readLE_writeLE_same (buf : Bytes) (offset width value : ℕ) :
    readLE (writeLE buf offset width value) offset width = value % 256 ^ width := by
  induction width generalizing buf offset value with
  | zero => simp [readLE, Nat.mod_one]
  | succ width ih =>
      have rest : readLE (writeLE buf offset (width + 1) value) (offset + 1) width =
          (value / 256) % 256 ^ width := by
        rw [← ih buf (offset + 1) (value / 256)]
        apply readLE_congr
        intro i lower upper
        unfold writeLE
        rw [if_pos (by omega), if_pos (by omega)]
        have split : i - offset = (i - (offset + 1)) + 1 := by omega
        rw [split, pow_succ, Nat.mul_comm, Nat.div_div_eq_div_mul]
      have first : (writeLE buf offset (width + 1) value offset).toNat = value % 256 := by
        simp [writeLE]
      simp only [readLE, rest, first]
      rw [pow_succ, Nat.mul_comm (256 ^ width) 256, Nat.mod_mul]

theorem read32_write32_same (buf : Bytes) (offset value : ℕ) :
    read32 (write32 buf offset value) offset = value % 4294967296 :=
  readLE_writeLE_same buf offset 4 value

/-- Storing a number leaves the numbers beside it alone. -/
theorem readLE_writeLE_of_disjoint (buf : Bytes) {offset width value other otherWidth : ℕ}
    (apart : other + otherWidth ≤ offset ∨ offset + width ≤ other) :
    readLE (writeLE buf offset width value) other otherWidth =
      readLE buf other otherWidth := by
  apply readLE_congr
  intro i lower upper
  exact writeLE_outside (by omega)

end ByteBuffer
