import Mathlib.Data.Nat.Bitwise
import Ninix.Driver.Disk

/-!
# The clock

`get_time_string` divides the 64 bits of the tick counter by the 100000000 ticks of a second in
arithmetic of 32 bits: first by 256, and then the two halves by 390625. Of the upper half it takes
the remainder only, and of a product of that remainder the remainder again, where the quotient
is what is left to be added.
-/

namespace Ninix.Time

open ByteBuffer

/-- The first half of `get_time_string`, which comes to a number of seconds. -/
def second (ticksHigh ticksLow : ℕ) : ℕ :=
  let ticksLow := (ticksLow >>> 8) ||| u32 (ticksHigh <<< 24)
  let ticksHigh := ticksHigh >>> 8
  let second := ticksHigh % 390625
  let second := u32 (u32 (second * 10995) + u32 (second * 45421) % 390625)
  u32 (second + ticksLow / 390625)

/-- The second half of `get_time_string`, which writes the number of seconds as a time. -/
def putTime (second : ℕ) (buf : Bytes) : Bytes :=
  let minute := second / 60
  let hour := minute / 60
  let second := second % 60
  let minute := minute % 60
  let hour := hour % 24
  let buf := Function.update buf 0 (UInt8.ofNat (hour / 10 + '0'.toNat))
  let buf := Function.update buf 1 (UInt8.ofNat (hour % 10 + '0'.toNat))
  let buf := Function.update buf 2 ':'.toUInt8
  let buf := Function.update buf 3 (UInt8.ofNat (minute / 10 + '0'.toNat))
  let buf := Function.update buf 4 (UInt8.ofNat (minute % 10 + '0'.toNat))
  let buf := Function.update buf 5 ':'.toUInt8
  let buf := Function.update buf 6 (UInt8.ofNat (second / 10 + '0'.toNat))
  Function.update buf 7 (UInt8.ofNat (second % 10 + '0'.toNat))

/-- `get_time_string` -/
def getTimeString (ticksHigh ticksLow : ℕ) (buf : Bytes) : Bytes :=
  putTime (second ticksHigh ticksLow) buf

/-- `get_time`, which stays in the assertion where the buffer is too small -/
def getTime (ticksHigh ticksLow : ℕ) (buf : Bytes) (len : ℤ) : Option Bytes :=
  if 9 ≤ len then some (Function.update (getTimeString ticksHigh ticksLow buf) 8 0) else none

/-! ## What is to be shown -/

/-- A number below 100 as two decimal digits -/
def twoDigits (value : ℕ) : List UInt8 :=
  [UInt8.ofNat (value / 10 + 48), UInt8.ofNat (value % 10 + 48)]

/-- Hours, minutes and seconds of a time of the day -/
def clockString (time : ℕ) : List UInt8 :=
  twoDigits (time / 3600) ++ 58 :: twoDigits (time / 60 % 60) ++ 58 :: twoDigits (time % 60)

/-- A string is at the beginning of a buffer, which is as before behind it. -/
def Written (string : List UInt8) (buf buf' : Bytes) : Prop :=
  ∀ i, buf' i = string[i]?.getD (buf i)

/-- The time of the day after a number of ticks -/
def timeOfDay (ticksHigh ticksLow : ℕ) : ℕ :=
  (ticksHigh * 2 ^ 32 + ticksLow) / 100000000 % 86400

/-- The bits of the number of ticks from the 40th on -/
def upper (ticksHigh : ℕ) : ℕ := ticksHigh / 256

/-- The 32 bits of the number of ticks below these -/
def lower (ticksHigh ticksLow : ℕ) : ℕ := ticksHigh % 256 * 2 ^ 24 + ticksLow / 256

/-- What is added for the remainder of the upper part and for the lower part -/
def added (ticksHigh ticksLow : ℕ) : ℕ :=
  upper ticksHigh % 390625 * 45421 % 2 ^ 32 % 390625 + lower ticksHigh ticksLow / 390625

/-- What is to be added for them -/
def due (ticksHigh ticksLow : ℕ) : ℕ :=
  (upper ticksHigh % 390625 * 45421 + lower ticksHigh ticksLow) / 390625

/-- The seconds that are left out: 2^32 for every 390625 of the upper part, and as many again
where the sum of the code goes round. -/
def leftOut (ticksHigh ticksLow : ℕ) : ℕ :=
  (upper ticksHigh / 390625 +
    (upper ticksHigh % 390625 * 10995 + added ticksHigh ticksLow) / 2 ^ 32) * 2 ^ 32

/-- The errors make up whole days. -/
def Cancels (ticksHigh ticksLow : ℕ) : Prop :=
  added ticksHigh ticksLow ≡ leftOut ticksHigh ticksLow + due ticksHigh ticksLow [MOD 86400]

instance (ticksHigh ticksLow : ℕ) : Decidable (Cancels ticksHigh ticksLow) :=
  inferInstanceAs (Decidable (_ ≡ _ [MOD _]))

/-! ## The string -/

variable {buf : Bytes} {ticksHigh ticksLow : ℕ}

theorem putTime_written (second : ℕ) (buf : Bytes) :
    Written (clockString (second % 86400)) buf (putTime second buf) := by
  have hour : second / 60 / 60 % 24 = second % 86400 / 3600 := by omega
  have minute : second / 60 % 60 = second % 86400 / 60 % 60 := by omega
  have rest : second % 60 = second % 86400 % 60 := by omega
  intro i
  rw [putTime]
  simp only [hour, minute, rest]
  match i with
  | 0 | 1 | 2 | 3 | 4 | 5 | 6 | 7 => rfl
  | i + 8 => simp [clockString, twoDigits]

theorem ofNat_digit_injective {m n : ℕ} (small : m < 10) (small' : n < 10)
    (same : UInt8.ofNat (m + 48) = UInt8.ofNat (n + 48)) : m = n := by
  have toNat := congrArg UInt8.toNat same
  rw [UInt8.toNat_ofNat', UInt8.toNat_ofNat'] at toNat
  omega

/-- Two times of the day with the same string are the same. -/
theorem clockString_injective {time time' : ℕ} (small : time < 86400) (small' : time' < 86400)
    (same : clockString time = clockString time') : time = time' := by
  simp only [clockString, twoDigits, List.cons_append, List.nil_append, List.cons.injEq,
    and_true, true_and] at same
  rcases same with ⟨hour₁, hour₂, minute₁, minute₂, second₁, second₂⟩
  have := ofNat_digit_injective (by omega) (by omega) hour₁
  have := ofNat_digit_injective (by omega) (by omega) hour₂
  have := ofNat_digit_injective (by omega) (by omega) minute₁
  have := ofNat_digit_injective (by omega) (by omega) minute₂
  have := ofNat_digit_injective (by omega) (by omega) second₁
  have := ofNat_digit_injective (by omega) (by omega) second₂
  omega

theorem length_clockString (time : ℕ) : (clockString time).length = 8 := rfl

theorem written_unique {string string' : List UInt8} (length : string.length = string'.length)
    {buf' : Bytes} (written : Written string buf buf') (written' : Written string' buf buf') :
    string = string' := by
  apply List.ext_getElem length
  intro i inside inside'
  have same := (written i).symm.trans (written' i)
  rwa [List.getElem?_eq_getElem inside, List.getElem?_eq_getElem inside', Option.getD_some,
    Option.getD_some] at same

/-! ## The seconds -/

/-- Division by 256 moves the lowest bits of the upper word into the lower one. -/
theorem lower_eq (small : ticksLow < 2 ^ 32) :
    (ticksLow >>> 8) ||| u32 (ticksHigh <<< 24) = lower ticksHigh ticksLow := by
  have moved : u32 (ticksHigh <<< 24) = 2 ^ 24 * (ticksHigh % 256) := by
    rw [u32, Nat.shiftLeft_eq]
    omega
  have bound : ticksLow / 256 < 2 ^ 24 := by omega
  rw [moved, Nat.shiftRight_eq_div_pow, Nat.or_comm, lower, Nat.mul_comm _ (2 ^ 24)]
  exact (Nat.two_pow_add_eq_or_of_lt bound (ticksHigh % 256)).symm

theorem second_eq (small : ticksLow < 2 ^ 32) :
    second ticksHigh ticksLow =
      (upper ticksHigh % 390625 * 10995 + added ticksHigh ticksLow) % 2 ^ 32 := by
  have shifted : ticksHigh >>> 8 = upper ticksHigh := Nat.shiftRight_eq_div_pow ticksHigh 8
  simp only [second]
  rw [lower_eq small, shifted]
  simp only [u32, added, Nat.reducePow]
  omega

/-- The quotient of the whole number of ticks, in terms of those of its parts. -/
theorem timeOfDay_eq (ticksHigh ticksLow : ℕ) :
    timeOfDay ticksHigh ticksLow =
      (upper ticksHigh / 390625 * 2 ^ 32 + upper ticksHigh % 390625 * 10995 +
        due ticksHigh ticksLow) % 86400 := by
  have whole : (ticksHigh * 2 ^ 32 + ticksLow) / 100000000 =
      (upper ticksHigh * 2 ^ 32 + lower ticksHigh ticksLow) / 390625 := by
    unfold upper lower
    omega
  rw [timeOfDay, whole, due]
  omega

/-- A sum that goes round is right exactly if what is missing makes up whole days. -/
theorem wrapped_mod_iff (product added due turns : ℕ) :
    (product + added) % 2 ^ 32 % 86400 = (turns * 2 ^ 32 + product + due) % 86400 ↔
      added ≡ (turns + (product + added) / 2 ^ 32) * 2 ^ 32 + due [MOD 86400] := by
  have split := Nat.mod_add_div' (product + added) (2 ^ 32)
  have whole : turns * 2 ^ 32 + product + due + (product + added) / 2 ^ 32 * 2 ^ 32 =
      product + ((turns + (product + added) / 2 ^ 32) * 2 ^ 32 + due) := by
    rw [Nat.add_mul]
    omega
  constructor
  · intro same
    have wrapped := Nat.ModEq.add_right ((product + added) / 2 ^ 32 * 2 ^ 32) same
    rw [split, whole] at wrapped
    exact Nat.ModEq.add_left_cancel' product wrapped
  · intro cancels
    refine Nat.ModEq.add_right_cancel' ((product + added) / 2 ^ 32 * 2 ^ 32) ?_
    rw [split, whole]
    exact Nat.ModEq.add_left product cancels

/-- The code comes to the right time exactly if its errors make up whole days. -/
theorem second_mod_iff (small : ticksLow < 2 ^ 32) :
    second ticksHigh ticksLow % 86400 = timeOfDay ticksHigh ticksLow ↔
      Cancels ticksHigh ticksLow := by
  rw [second_eq small, timeOfDay_eq]
  exact wrapped_mod_iff _ _ _ _

theorem written_iff_second (ticksHigh ticksLow : ℕ) (buf : Bytes) :
    Written (clockString (timeOfDay ticksHigh ticksLow)) buf
        (getTimeString ticksHigh ticksLow buf) ↔
      second ticksHigh ticksLow % 86400 = timeOfDay ticksHigh ticksLow := by
  have written := putTime_written (second ticksHigh ticksLow) buf
  constructor
  · intro shows
    have length := (length_clockString (second ticksHigh ticksLow % 86400)).trans
      (length_clockString (timeOfDay ticksHigh ticksLow)).symm
    exact clockString_injective (Nat.mod_lt _ (by decide)) (Nat.mod_lt _ (by decide))
      (written_unique length written shows)
  · intro same
    rw [← same]
    exact written

/-- Below 2^40 ticks there is no upper part and no error. -/
theorem cancels_of_lt (small : ticksHigh < 256) (smallLow : ticksLow < 2 ^ 32) :
    Cancels ticksHigh ticksLow := by
  have isZero : upper ticksHigh = 0 := Nat.div_eq_of_lt small
  have bound : lower ticksHigh ticksLow / 390625 < 2 ^ 32 := by
    unfold lower
    omega
  unfold Cancels leftOut added due
  rw [isZero]
  simp only [Nat.zero_mod, Nat.zero_div, Nat.zero_mul, Nat.zero_add, Nat.div_eq_of_lt bound]
  rfl

/-- The string that is written shows the time of the day exactly if the errors of the seconds make
up whole days, as they do before tick 2^40, where there are none. -/
theorem getTimeString_written_iff (ticksHigh ticksLow : ℕ) (small : ticksLow < 2 ^ 32)
    (buf : Bytes) :
    (Written (clockString (timeOfDay ticksHigh ticksLow)) buf
        (getTimeString ticksHigh ticksLow buf) ↔ Cancels ticksHigh ticksLow) ∧
      (ticksHigh * 2 ^ 32 + ticksLow < 2 ^ 40 → Cancels ticksHigh ticksLow) := by
  refine ⟨(written_iff_second ticksHigh ticksLow buf).trans (second_mod_iff small), fun early => ?_⟩
  exact cancels_of_lt (by omega) small

/-- The last tick before the upper part is used. -/
theorem getTimeString_written_iff_threeHours :
    Written (clockString (timeOfDay 255 4294967295)) zeros
      (getTimeString 255 4294967295 zeros) := by
  have shows := getTimeString_written_iff 255 4294967295 (by decide) zeros
  exact shows.1.mpr (shows.2 (by decide))

theorem not_written_threeHours :
    ¬∀ ticksHigh < 2 ^ 32, ∀ ticksLow < 2 ^ 32, ∀ buf : Bytes,
      Written (clockString (timeOfDay ticksHigh ticksLow)) buf
        (getTimeString ticksHigh ticksLow buf) := by
  intro always
  have written := always 256 (by decide) 0 (by decide) zeros
  exact absurd ((written_iff_second 256 0 zeros).mp written) (by decide)

/-- In the buffer of `get_time` a zero ends the string. -/
theorem getTime_written {len : ℤ} (enough : 9 ≤ len) (small : ticksLow < 2 ^ 32)
    (cancels : Cancels ticksHigh ticksLow) :
    ∃ buf', getTime ticksHigh ticksLow buf len = some buf' ∧
      Written (clockString (timeOfDay ticksHigh ticksLow) ++ [0]) buf buf' := by
  refine ⟨_, if_pos enough, fun i => ?_⟩
  have written := (written_iff_second ticksHigh ticksLow buf).mpr
    ((second_mod_iff small).mpr cancels)
  rcases Nat.lt_trichotomy i 8 with inside | rfl | behind
  · rw [Function.update_of_ne (Nat.ne_of_lt inside), List.getElem?_append_left inside]
    exact written i
  · exact Function.update_self _ _ _
  · rw [Function.update_of_ne (Nat.ne_of_gt behind), written i, List.getElem?_eq_none,
      List.getElem?_eq_none]
    · exact behind
    · exact behind.le

end Ninix.Time
