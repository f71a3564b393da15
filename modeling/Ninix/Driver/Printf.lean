import Ninix.Driver.Terminal
import Mathlib.Data.List.TakeWhile
import Mathlib.Data.Nat.Digits.Lemmas

/-!
# Formatted output

`kernel_putint` and `kernel_putintx` write the digits of a number from the last one on, to the end
of a buffer of twelve bytes, and put out what is behind the pointer. They never leave the buffer,
and what they put out is the numeral, but for the least number, which has no negative: its digits
are taken off `'0'`. `kernel_vprintf` puts out a format with its directives replaced, up to the
first one that it does not know.
-/

namespace Ninix.Vga

abbrev Byte := BitVec 8

namespace Console

/-- A string of the source, without its terminator. -/
def asciiText (s : String) : List Byte := s.toList.map fun c => BitVec.ofNat 8 c.toNat

/-- `kernel_puts`, by the bytes that can be read from the pointer on. There is no result where the
terminator is missing. -/
def kernelPuts (fc bg : BitVec 32) : List Byte → Console → Option (ℕ × Console)
  | [], _ => none
  | c :: s, console =>
    if c = 0 then some (0, console)
    else (kernelPuts fc bg s (console.putchar ⟨c.signExtend 32, fc, bg⟩)).map fun result =>
      (result.1 + 1, result.2)

/-- `ptr--; *ptr = c`, where `tail` is `buffer` from `ptr` on. There is no result in front of the
buffer. -/
def push (c : Byte) (tail : List Byte) : Option (List Byte) :=
  if tail.length < 12 then some (c :: tail) else none

/-- The loop of `kernel_putint`. Division is towards zero. -/
def putintLoop (x : ℤ) (tail : List Byte) : Option (List Byte) :=
  if x = 0 then some tail
  else (push (BitVec.ofInt 8 (x.tmod 10 + 48)) tail).bind (putintLoop (x.tdiv 10))
termination_by x.natAbs
decreasing_by
  rw [Int.natAbs_tdiv]
  exact Nat.div_lt_self (Int.natAbs_pos.mpr ‹_›) (by decide)

/-- What `kernel_putint` has in the buffer of a number other than zero. -/
def putintBuffer (x : BitVec 32) : Option (List Byte) :=
  if x.toInt < 0 then (putintLoop (-x).toInt [0]).bind (push 45) else putintLoop x.toInt [0]

/-- `kernel_putint`. What it returns is what its loop has left of the number. -/
def kernelPutint (x fc bg : BitVec 32) (console : Console) : Option (ℤ × Console) :=
  if x = 0 then some (0, console.putchar ⟨48, fc, bg⟩)
  else (putintBuffer x).bind fun tail =>
    (kernelPuts fc bg tail console).map fun result => (0, result.2)

/-- `HEX_MAP` -/
def hexMap : List Byte := [48, 49, 50, 51, 52, 53, 54, 55, 56, 57, 97, 98, 99, 100, 101, 102]

/-- The loop of `kernel_putintx` -/
def putintxLoop (x : ℕ) (tail : List Byte) : Option (List Byte) :=
  if x = 0 then some tail
  else (push (hexMap[x % 16]?.getD 0) tail).bind (putintxLoop (x / 16))
termination_by x
decreasing_by exact Nat.div_lt_self (Nat.pos_of_ne_zero ‹_›) (by decide)

def kernelPutintx (x fc bg : BitVec 32) (console : Console) : Option (ℤ × Console) :=
  if x = 0 then some (0, console.putchar ⟨48, fc, bg⟩)
  else (putintxLoop x.toNat [0]).bind fun tail =>
    (kernelPuts fc bg tail console).map fun result => (0, result.2)

/-- What `va_arg` takes: an `int`, or a pointer with the bytes that can be read from it on. -/
inductive Arg
  | int (x : BitVec 32)
  | str (s : List Byte)

/-- `kernel_vprintf`, with what has been counted. There is no result where an argument is missing or
of another type, or where a terminator is missing. -/
def kernelVprintf : List Byte → List Arg → ℤ → Console → Option (ℤ × Console)
  | [], _, _, _ => none
  | c :: format, args, cnt, console =>
    if c = 0 then some (cnt, console)
    else if c ≠ 37 then kernelVprintf format args cnt (console.putchar ⟨c.signExtend 32, 0xfff, 0⟩)
    else match format with
      | [] => none
      | d :: format =>
        if d = 99 then
          match args with
          | .int x :: args => kernelVprintf format args (cnt + 1)
              (console.putchar ⟨(x.setWidth 8).signExtend 32, 0xfff, 0⟩)
          | _ => none
        else if d = 100 then
          match args with
          | .int x :: args => (kernelPutint x 0xfff 0 console).bind fun result =>
              kernelVprintf format args (cnt + 1) result.2
          | _ => none
        else if d = 120 then
          match args with
          | .int x :: args => (kernelPutintx x 0xfff 0 console).bind fun result =>
              kernelVprintf format args (cnt + 1) result.2
          | _ => none
        else if d = 115 then
          match args with
          | .str s :: args => (kernelPuts 0xfff 0 s console).bind fun result =>
              kernelVprintf format args (cnt + 1) result.2
          | _ => none
        else some (-1, console)

def kernelPrintf (format : List Byte) (args : List Arg) (console : Console) :
    Option (ℤ × Console) := kernelVprintf format args 0 console

/-- A message without directives. -/
def kernelMessage (s : String) (console : Console) : Option Console :=
  (kernelPrintf (asciiText s ++ [0]) [] console).map (·.2)

/-! ## Strings -/

/-- The calls that put out a text in the colours. -/
def textCalls (fc bg : BitVec 32) (text : List Byte) : List Call :=
  text.map fun c => ⟨c.signExtend 32, fc, bg⟩

def putText (fc bg : BitVec 32) (text : List Byte) (console : Console) : Console :=
  (textCalls fc bg text).foldl putchar console

variable {fc bg : BitVec 32} {text : List Byte}

theorem putText_append (more : List Byte) (console : Console) :
    putText fc bg (text ++ more) console = putText fc bg more (putText fc bg text console) := by
  rw [putText, textCalls, List.map_append, List.foldl_append]
  rfl

/-- A string is put out up to its terminator. -/
theorem kernelPuts_text (noNul : ∀ c ∈ text, c ≠ 0) (rest : List Byte) (console : Console) :
    kernelPuts fc bg (text ++ 0 :: rest) console =
      some (text.length, putText fc bg text console) := by
  induction text generalizing console with
  | nil => rfl
  | cons c text ih =>
      rw [List.cons_append, kernelPuts, if_neg (noNul c List.mem_cons_self),
        ih fun other mem => noNul other (List.mem_cons_of_mem c mem)]
      rfl

/-! ## Numbers -/

/-- The digits of a number, the highest one first. -/
def digitText (base n : ℕ) : List Byte :=
  if n = 0 then [48] else ((Nat.digits base n).map fun d => hexMap[d]?.getD 0).reverse

/-- The numeral of an integer -/
def decimalText (x : ℤ) : List Byte :=
  if x < 0 then 45 :: digitText 10 x.natAbs else digitText 10 x.natAbs

/-- The least `int` -/
def intMin : BitVec 32 := 0x80000000

/-- What is put out of a number: the least one has digits that are taken off `'0'`. -/
def intText (x : BitVec 32) : List Byte :=
  if x = intMin then [45, 46, 47, 44, 41, 44, 40, 45, 42, 44, 40] else decimalText x.toInt

theorem hexMap_ne_zero {d : ℕ} (lt : d < 16) : hexMap[d]?.getD 0 ≠ 0 := by
  revert d
  decide

theorem digitText_noNul {base n : ℕ} (pos : 1 < base) (le : base ≤ 16) :
    ∀ c ∈ digitText base n, c ≠ 0 := by
  intro c mem
  rw [digitText] at mem
  split_ifs at mem
  · rw [List.mem_singleton.mp mem]
    decide
  · rcases List.mem_map.mp (List.mem_reverse.mp mem) with ⟨d, dMem, rfl⟩
    exact hexMap_ne_zero (Nat.lt_of_lt_of_le (Nat.digits_lt_base pos dMem) le)

theorem digitText_step {base n : ℕ} (pos : 1 < base) (positive : 0 < n) (tail : List Byte) :
    ((Nat.digits base n).map fun d => hexMap[d]?.getD 0).reverse ++ tail =
      ((Nat.digits base (n / base)).map fun d => hexMap[d]?.getD 0).reverse ++
        (hexMap[n % base]?.getD 0 :: tail) := by
  rw [Nat.digits_def' pos positive, List.map_cons, List.reverse_cons, List.append_assoc,
    List.singleton_append]

/-- A buffer that has room for the digits gets them, in front of what is there. -/
theorem putintLoop_digits (n : ℕ) (tail : List Byte)
    (room : (Nat.digits 10 n).length + tail.length ≤ 12) :
    putintLoop n tail =
      some (((Nat.digits 10 n).map fun d => hexMap[d]?.getD 0).reverse ++ tail) := by
  induction n using Nat.strong_induction_on generalizing tail with
  | h n ih =>
    by_cases isZero : n = 0
    · subst isZero
      rw [putintLoop, if_pos Int.natCast_zero, Nat.digits_zero]
      rfl
    · have positive := Nat.pos_of_ne_zero isZero
      have digit : BitVec.ofInt 8 ((n : ℤ).tmod 10 + 48) = hexMap[n % 10]?.getD 0 := by
        have lt : n % 10 < 10 := Nat.mod_lt n (by decide)
        have rem : (n : ℤ).tmod 10 = ((n % 10 : ℕ) : ℤ) := rfl
        rw [rem]
        generalize n % 10 = d at lt
        revert d
        decide
      have quotient : (n : ℤ).tdiv 10 = ((n / 10 : ℕ) : ℤ) := rfl
      rw [Nat.digits_def' (by decide) positive, List.length_cons] at room
      rw [putintLoop, if_neg (mt Int.natCast_eq_zero.mp isZero), digit, quotient, push,
        if_pos (by omega), Option.bind_some,
        ih (n / 10) (Nat.div_lt_self positive (by decide)) _ (by rw [List.length_cons]; omega),
        ← digitText_step (by decide) positive]

theorem putintxLoop_digits (n : ℕ) (tail : List Byte)
    (room : (Nat.digits 16 n).length + tail.length ≤ 12) :
    putintxLoop n tail =
      some (((Nat.digits 16 n).map fun d => hexMap[d]?.getD 0).reverse ++ tail) := by
  induction n using Nat.strong_induction_on generalizing tail with
  | h n ih =>
    by_cases isZero : n = 0
    · subst isZero
      rw [putintxLoop, if_pos rfl, Nat.digits_zero]
      rfl
    · have positive := Nat.pos_of_ne_zero isZero
      rw [Nat.digits_def' (by decide) positive, List.length_cons] at room
      rw [putintxLoop, if_neg isZero, push, if_pos (by omega), Option.bind_some,
        ih (n / 16) (Nat.div_lt_self positive (by decide)) _ (by rw [List.length_cons]; omega),
        ← digitText_step (by decide) positive]

theorem length_digits_le {base n k : ℕ} (pos : 1 < base) (lt : n < base ^ k) :
    (Nat.digits base n).length ≤ k := (Nat.digits_length_le_iff pos n).mpr lt

/-- The numeral of a number is what the buffer holds, in front of the terminator. -/
theorem putintBuffer_eq {x : BitVec 32} (notZero : x ≠ 0) :
    putintBuffer x = some (intText x ++ [0]) := by
  have bounds := And.intro (BitVec.le_toInt x) (BitVec.toInt_lt (x := x))
  have nonzero : x.toInt ≠ 0 := fun isZero => notZero (BitVec.eq_of_toInt_eq isZero)
  have nonzero' : x.toInt.natAbs ≠ 0 := mt Int.natAbs_eq_zero.mp nonzero
  rw [intText]
  split_ifs with isMin
  · -- The negative of the least number is that number again, so each remainder is below zero.
    have negated : (-intMin).toInt = -2147483648 := by decide
    rw [isMin, putintBuffer, if_pos (by decide), negated]
    simp [putintLoop, push]
  · have short : (Nat.digits 10 x.toInt.natAbs).length ≤ 10 :=
      length_digits_le (by decide) (by omega)
    rw [putintBuffer, decimalText, digitText, if_neg nonzero']
    split_ifs with negative
    · have negated : (-x).toInt = (x.toInt.natAbs : ℤ) := by
        rw [BitVec.toInt_neg_of_ne_intMin isMin]
        omega
      rw [negated, putintLoop_digits _ _ (by rw [List.length_singleton]; omega), Option.bind_some,
        push, if_pos]
      · rfl
      · rw [List.length_append, List.length_reverse, List.length_map, List.length_singleton]
        omega
    · have same : x.toInt = (x.toInt.natAbs : ℤ) := by omega
      rw [same, putintLoop_digits _ _ (by rw [List.length_singleton]; omega), ← same]

theorem intText_noNul (x : BitVec 32) : ∀ c ∈ intText x, c ≠ 0 := by
  have digits : ∀ c ∈ digitText 10 x.toInt.natAbs, c ≠ 0 :=
    digitText_noNul (by decide) (by decide)
  rw [intText]
  split_ifs with isMin
  · decide
  · rw [decimalText]
    split_ifs with negative
    · intro c mem
      rcases List.mem_cons.mp mem with rfl | mem
      · decide
      · exact digits c mem
    · exact digits

/-- The text of a number is put out, and the number has been used up. -/
theorem kernelPutint_text (x : BitVec 32) (console : Console) :
    kernelPutint x fc bg console = some (0, putText fc bg (intText x) console) := by
  rw [kernelPutint]
  split_ifs with isZero
  · subst isZero
    rfl
  · rw [putintBuffer_eq isZero, Option.bind_some, kernelPuts_text (intText_noNul x)]
    rfl

theorem kernelPutintx_text (x : BitVec 32) (console : Console) :
    kernelPutintx x fc bg console = some (0, putText fc bg (digitText 16 x.toNat) console) := by
  have noNul : ∀ c ∈ digitText 16 x.toNat, c ≠ 0 := digitText_noNul (by decide) (by decide)
  rw [kernelPutintx]
  split_ifs with isZero
  · subst isZero
    rfl
  · have nonzero : x.toNat ≠ 0 := fun zero => isZero (BitVec.eq_of_toNat_eq zero)
    have short : (Nat.digits 16 x.toNat).length ≤ 8 :=
      length_digits_le (by decide) (by have := x.isLt; omega)
    have buffer : putintxLoop x.toNat [0] = some (digitText 16 x.toNat ++ [0]) := by
      rw [putintxLoop_digits _ _ (by rw [List.length_singleton]; omega), digitText,
        if_neg nonzero]
    rw [buffer, Option.bind_some, kernelPuts_text noNul]
    rfl

/-- Whatever the number is, the buffer is large enough, and its numeral is put out, but for the
least `int` in decimal digits. -/
theorem numerals_put_out (x fc bg : BitVec 32) (console : Console) :
    kernelPutint x fc bg console = some (0, putText fc bg (intText x) console) ∧
      (intText x = decimalText x.toInt ↔ x ≠ intMin) ∧
      kernelPutintx x fc bg console = some (0, putText fc bg (digitText 16 x.toNat) console) := by
  refine ⟨kernelPutint_text x console, ?_, kernelPutintx_text x console⟩
  rw [intText]
  split_ifs with isMin
  · have numeral : decimalText x.toInt = [45, 50, 49, 52, 55, 52, 56, 51, 54, 52, 56] := by
      have least : x.toInt = -2147483648 := by
        rw [isMin]
        decide
      rw [least]
      simp [decimalText, digitText, hexMap]
    rw [numeral]
    refine ⟨fun same => absurd same (by decide), fun other => absurd isMin other⟩
  · exact ⟨fun _ => isMin, fun _ => rfl⟩

/-! ## Formats -/

/-- A character of a format that stands for itself, or a directive. -/
inductive Piece
  | literal (c : Byte) (plain : c ≠ 0 ∧ c ≠ 37)
  | char
  | int
  | hex
  | str

namespace Piece

def format : Piece → List Byte
  | literal c _ => [c]
  | char => [37, 99]
  | int => [37, 100]
  | hex => [37, 120]
  | str => [37, 115]

/-- How many arguments are taken. -/
def directives : Piece → ℕ
  | literal _ _ => 0
  | _ => 1

/-- What is put out for a piece, and the arguments that are left. A string ends at its
terminator. -/
def render : Piece → List Arg → Option (List Byte × List Arg)
  | literal c _, args => some ([c], args)
  | char, .int x :: args => some ([x.setWidth 8], args)
  | int, .int x :: args => some (intText x, args)
  | hex, .int x :: args => some (digitText 16 x.toNat, args)
  | str, .str s :: args => if 0 ∈ s then some (s.takeWhile (· ≠ 0), args) else none
  | _, _ => none

end Piece

/-- What is put out for a format, with the arguments that are left. -/
def render : List Piece → List Arg → Option (List Byte × List Arg)
  | [], args => some ([], args)
  | piece :: pieces, args => (piece.render args).bind fun first =>
      (render pieces first.2).map fun rest => (first.1 ++ rest.1, rest.2)

def directives (pieces : List Piece) : ℕ := (pieces.map Piece.directives).sum

/-- Where a format ends: at its terminator, or at a directive that is not known. -/
inductive Ends : List Byte → Bool → Prop
  | terminator (rest : List Byte) : Ends (0 :: rest) true
  | unknown (d : Byte) (rest : List Byte) (notKnown : d ≠ 99 ∧ d ≠ 100 ∧ d ≠ 120 ∧ d ≠ 115) :
      Ends (37 :: d :: rest) false

theorem takeWhile_append {s : List Byte} (terminated : 0 ∈ s) :
    ∃ rest, s = s.takeWhile (· ≠ 0) ++ 0 :: rest := by
  induction s with
  | nil => exact absurd terminated List.not_mem_nil
  | cons c s ih =>
      by_cases isNul : c = 0
      · subst isNul
        exact ⟨s, rfl⟩
      · rcases ih ((List.mem_cons.mp terminated).resolve_left (Ne.symm isNul)) with ⟨rest, same⟩
        refine ⟨rest, ?_⟩
        rw [List.takeWhile_cons_of_pos (p := fun c => decide (c ≠ 0)) (decide_eq_true isNul),
          List.cons_append, ← same]

theorem kernelPuts_takeWhile (s : List Byte) (console : Console) :
    (kernelPuts fc bg s console).map Prod.snd =
      if 0 ∈ s then some (putText fc bg (s.takeWhile (· ≠ 0)) console) else none := by
  split_ifs with terminated
  · rcases takeWhile_append terminated with ⟨rest, same⟩
    conv_lhs => rw [same]
    rw [kernelPuts_text fun c mem =>
      of_decide_eq_true (List.mem_takeWhile_imp (p := fun c => decide (c ≠ 0)) mem)]
    rfl
  · induction s generalizing console with
    | nil => rfl
    | cons c s ih =>
        rw [kernelPuts, if_neg fun isNul => terminated (List.mem_cons.mpr (Or.inl isNul.symm)),
          Option.map_map]
        exact ih _ (fun mem => terminated (List.mem_cons_of_mem c mem))

theorem kernelVprintf_cons (c : Byte) (plain : c ≠ 37) (format : List Byte) (args : List Arg)
    (cnt : ℤ) (console : Console) :
    kernelVprintf (c :: format) args cnt console = if c = 0 then some (cnt, console)
      else kernelVprintf format args cnt (console.putchar ⟨c.signExtend 32, 0xfff, 0⟩) := by
  rw [kernelVprintf.eq_def]
  exact if_congr Iff.rfl rfl (if_pos plain)

/-- What is put out for a piece -/
theorem kernelVprintf_piece (piece : Piece) (format : List Byte) (args : List Arg) (cnt : ℤ)
    (console : Console) :
    kernelVprintf (piece.format ++ format) args cnt console =
      (piece.render args).bind fun first =>
        kernelVprintf format first.2 (cnt + piece.directives)
          (putText 0xfff 0 first.1 console) := by
  cases piece with
  | literal c plain =>
      show kernelVprintf (c :: format) args cnt console = _
      rw [kernelVprintf_cons c plain.2, if_neg plain.1, Piece.directives, Int.natCast_zero,
        Int.add_zero]
      rfl
  | char =>
      rcases args with _ | ⟨x | s, args⟩
      · rfl
      · rfl
      · rfl
  | int =>
      rcases args with _ | ⟨x | s, args⟩
      · rfl
      · show (kernelPutint x 0xfff 0 console).bind _ = _
        rw [kernelPutint_text]
        rfl
      · rfl
  | hex =>
      rcases args with _ | ⟨x | s, args⟩
      · rfl
      · show (kernelPutintx x 0xfff 0 console).bind _ = _
        rw [kernelPutintx_text]
        rfl
      · rfl
  | str =>
      rcases args with _ | ⟨x | s, args⟩
      · rfl
      · rfl
      · have strings := @kernelPuts_takeWhile 0xfff 0 s console
        show (kernelPuts 0xfff 0 s console).bind
            (fun result => kernelVprintf format args (cnt + 1) result.2) =
          (if 0 ∈ s then some (s.takeWhile (· ≠ 0), args) else none).bind _
        have second : (kernelPuts 0xfff 0 s console).bind
            (fun result => kernelVprintf format args (cnt + 1) result.2) =
              ((kernelPuts 0xfff 0 s console).map Prod.snd).bind
                (kernelVprintf format args (cnt + 1)) := (Option.bind_map ..).symm
        rw [second, strings]
        split_ifs with terminated
        · rfl
        · rfl

/-- The pieces of a format are put out one after the other. -/
theorem kernelVprintf_pieces (pieces : List Piece) (rest : List Byte) (args : List Arg) (cnt : ℤ)
    (console : Console) :
    kernelVprintf (pieces.flatMap Piece.format ++ rest) args cnt console =
      (render pieces args).bind fun result =>
        kernelVprintf rest result.2 (cnt + directives pieces)
          (putText 0xfff 0 result.1 console) := by
  induction pieces generalizing args cnt console with
  | nil =>
      show _ = kernelVprintf rest args (cnt + (0 : ℕ)) console
      rw [Int.natCast_zero, Int.add_zero]
      rfl
  | cons piece pieces ih =>
      have count : cnt + directives (piece :: pieces) =
          cnt + piece.directives + directives pieces := by
        rw [directives, List.map_cons, List.sum_cons, ← directives, Int.natCast_add]
        omega
      rw [List.flatMap_cons, List.append_assoc, kernelVprintf_piece, render, Option.bind_assoc,
        count]
      congr 1
      funext first
      rw [ih, Option.bind_map]
      congr 1
      funext result
      rw [Function.comp, putText_append]

theorem kernelVprintf_ends {rest : List Byte} {complete : Bool} (ends : Ends rest complete)
    (args : List Arg) (cnt : ℤ) (console : Console) :
    kernelVprintf rest args cnt console = some (if complete then cnt else -1, console) := by
  cases ends with
  | terminator rest => rw [kernelVprintf_cons 0 (by decide), if_pos rfl, if_pos rfl]
  | unknown d rest notKnown =>
      rcases notKnown with ⟨notChar, notInt, notHex, notStr⟩
      rw [kernelVprintf.eq_def]
      show (if d = 99 then _ else if d = 100 then _ else if d = 120 then _ else if d = 115 then _
        else some (-1, console)) = _
      rw [if_neg notChar, if_neg notInt, if_neg notHex, if_neg notStr]
      rfl

/-- Where a format consists of pieces, they are put out. -/
theorem kernelPrintf_pieces (pieces : List Piece) {args left : List Arg} {out : List Byte}
    (rendered : render pieces args = some (out, left)) (console : Console) :
    kernelPrintf (pieces.flatMap Piece.format ++ [0]) args console =
      some ((directives pieces : ℤ), putText 0xfff 0 out console) := by
  rw [kernelPrintf, kernelVprintf_pieces, rendered, Option.bind_some,
    kernelVprintf_ends (.terminator []), Int.zero_add]
  rfl

/-- A text without directives -/
theorem kernelVprintf_text (plain : ∀ c ∈ text, c ≠ 0 ∧ c ≠ 37) (console : Console) :
    kernelVprintf (text ++ [0]) [] 0 console = some (0, putText 0xfff 0 text console) := by
  induction text generalizing console with
  | nil => rfl
  | cons c text ih =>
      rcases plain c List.mem_cons_self with ⟨notNul, notPercent⟩
      rw [List.cons_append, kernelVprintf_cons c notPercent, if_neg notNul,
        ih fun d mem => plain d (List.mem_cons_of_mem c mem)]
      rfl

theorem kernelMessage_text {s : String} (plain : ∀ c ∈ asciiText s, c ≠ 0 ∧ c ≠ 37)
    (console : Console) :
    kernelMessage s console = some (putText 0xfff 0 (asciiText s) console) := by
  rw [kernelMessage, kernelPrintf, kernelVprintf_text plain]
  rfl

/-- A line with a string -/
theorem kernelPrintf_line {text : List Byte} (terminated : 0 ∈ text) (console : Console) :
    kernelPrintf [37, 115, 10, 0] [.str text] console =
      some (1, putText 0xfff 0 (text.takeWhile (· ≠ 0) ++ [10]) console) := by
  have newline : (10 : Byte) ≠ 0 ∧ (10 : Byte) ≠ 37 := by decide
  have rendered : render [Piece.str, .literal 10 newline] [.str text] =
      some (text.takeWhile (· ≠ 0) ++ [10], []) := by
    simp only [render, Piece.render, if_pos terminated, Option.bind_some, Option.map_some]
    rfl
  exact kernelPrintf_pieces [Piece.str, .literal 10 newline] rendered console

/-- Each format that is terminated is made of pieces, up to where it ends. -/
theorem exists_pieces {format : List Byte} (terminated : 0 ∈ format) :
    ∃ (pieces : List Piece) (rest : List Byte) (complete : Bool),
      format = pieces.flatMap Piece.format ++ rest ∧ Ends rest complete := by
  induction h : format.length using Nat.strong_induction_on generalizing format with
  | h n ih =>
    subst h
    rcases format with _ | ⟨c, format⟩
    · exact absurd terminated List.not_mem_nil
    by_cases isNul : c = 0
    · subst isNul
      exact ⟨[], _, true, rfl, .terminator format⟩
    have later := (List.mem_cons.mp terminated).resolve_left (Ne.symm isNul)
    by_cases isPercent : c = 37
    · subst isPercent
      rcases format with _ | ⟨d, format⟩
      · exact absurd later List.not_mem_nil
      by_cases notKnown : d ≠ 99 ∧ d ≠ 100 ∧ d ≠ 120 ∧ d ≠ 115
      · exact ⟨[], _, false, rfl, .unknown d format notKnown⟩
      -- The directive is a piece, and the rest is terminated, as the directive is not the end.
      have known : ∃ piece : Piece, piece.format = [37, d] ∧ d ≠ 0 := by
        by_cases isChar : d = 99
        · exact ⟨.char, by rw [isChar]; rfl, by rw [isChar]; decide⟩
        by_cases isInt : d = 100
        · exact ⟨.int, by rw [isInt]; rfl, by rw [isInt]; decide⟩
        by_cases isHex : d = 120
        · exact ⟨.hex, by rw [isHex]; rfl, by rw [isHex]; decide⟩
        by_cases isStr : d = 115
        · exact ⟨.str, by rw [isStr]; rfl, by rw [isStr]; decide⟩
        exact absurd ⟨isChar, isInt, isHex, isStr⟩ notKnown
      rcases known with ⟨piece, isFormat, notNul⟩
      have later' := (List.mem_cons.mp later).resolve_left (Ne.symm notNul)
      rcases ih format.length (by rw [List.length_cons, List.length_cons]; omega) later' rfl with
        ⟨pieces, rest, complete, same, ends⟩
      refine ⟨piece :: pieces, rest, complete, ?_, ends⟩
      rw [List.flatMap_cons, isFormat, List.append_assoc, ← same]
      rfl
    · rcases ih format.length (by rw [List.length_cons]; omega) later rfl with
        ⟨pieces, rest, complete, same, ends⟩
      refine ⟨.literal c ⟨isNul, isPercent⟩ :: pieces, rest, complete, ?_, ends⟩
      rw [List.flatMap_cons, List.append_assoc, ← same]
      rfl

/-- A format that has a terminator is made of pieces up to there, or up to a directive that is not
known. What is put out is what the pieces are rendered to, and what is returned is the number of
directives, or -1 where one is not known. -/
theorem kernelPrintf_renders (text behind : List Byte) :
    ∃ (pieces : List Piece) (rest : List Byte) (complete : Bool),
      text ++ 0 :: behind = pieces.flatMap Piece.format ++ rest ∧ Ends rest complete ∧
        ∀ args console, kernelPrintf (text ++ 0 :: behind) args console =
          (render pieces args).map fun result =>
            (if complete then (directives pieces : ℤ) else -1,
              putText 0xfff 0 result.1 console) := by
  have terminated : 0 ∈ text ++ 0 :: behind := List.mem_append_right _ List.mem_cons_self
  rcases exists_pieces terminated with ⟨pieces, rest, complete, same, ends⟩
  refine ⟨pieces, rest, complete, same, ends, fun args console => ?_⟩
  rw [kernelPrintf, same, kernelVprintf_pieces, Int.zero_add, Option.map_eq_bind]
  congr 1
  funext result
  rw [kernelVprintf_ends ends]
  rfl

end Console

end Ninix.Vga
