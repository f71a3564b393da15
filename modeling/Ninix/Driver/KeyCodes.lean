import Mathlib.Data.Nat.Init
import Mathlib.Logic.Relation
import Mathlib.Tactic.SplitIfs
import Ninix.Driver.Keyboard

/-!
# Keys and characters

The keyboard sends a code when a key goes down and the same one behind 0xf0 when it goes up; some
keys have 0xe0 in front of both. The interrupt handler puts the bytes together again, keeps track of
the shift, control, alternate and caps lock keys and buffers the codes of the others.
`kernel_getchar` makes characters of them, by what is held down when it takes a code out of the
buffer. Whoever types with a reader that keeps up gets the text typed.
-/

namespace Ninix.Keyboard

open TransitionSystem

namespace Ps2

/-- `kernel_getkey`, which no interrupt comes into. -/
def kernelGetkey (s : Ps2) : Ps2 × BitVec 32 :=
  if s.ready s.rptr = 0 then (s, 0xfff)
  else
    let temp := s.buffer s.rptr
    let taken : Ps2 :=
      { s with
        ready := Function.update s.ready s.rptr 0
        rptr := s.rptr + 1
        returned := s.returned ++ [temp] }
    if taken.rptr = slots then
      ({ taken with
          buffer := fun i => if i < slots then 0 else taken.buffer i
          ready := fun i => if i < slots then 0 else taken.ready i
          wptr := 0
          rptr := 0 }, temp)
    else (taken, temp)

end Ps2

/-- The buffer, and the other variables of the handler with what it has sent to the keyboard. -/
structure Handler where
  ps2 : Ps2
  keyboardState : BitVec 32
  keyboardCmdState : BitVec 32
  sent : List (BitVec 32)

abbrev capslockMask : BitVec 32 := 4
abbrev shiftMask : BitVec 32 := 8
abbrev ctrlMask : BitVec 32 := 16
abbrev altMask : BitVec 32 := 32

def scantoasciiUppercase : List (BitVec 8) :=
  [0xff, 0xff, 0xff, 0xff, 0xff, 0xff, 0xff, 0xff, 0xff, 0xff, 0xff, 0xff, 0xff, 0x09, 0x7e, 0xff,
   0xff, 0xff, 0xff, 0xff, 0xff, 0x51, 0x21, 0xff, 0xff, 0xff, 0x5a, 0x53, 0x41, 0x57, 0x40, 0xff,
   0xff, 0x43, 0x58, 0x44, 0x45, 0x24, 0x23, 0xff, 0xff, 0x20, 0x56, 0x46, 0x54, 0x52, 0x25, 0xff,
   0xff, 0x4e, 0x42, 0x48, 0x47, 0x59, 0x5e, 0xff, 0xff, 0xff, 0x4d, 0x4a, 0x55, 0x26, 0x2a, 0xff,
   0xff, 0x3c, 0x4b, 0x49, 0x4f, 0x29, 0x28, 0xff, 0xff, 0x3e, 0x3f, 0x4c, 0x3a, 0x50, 0x5f, 0xff,
   0xff, 0xff, 0x22, 0xff, 0x7b, 0x2b, 0xff, 0xff, 0xff, 0xff, 0x0a, 0x7d, 0xff, 0x7c, 0xff, 0xff,
   0xff, 0xff, 0xff, 0xff, 0xff, 0xff, 0x08, 0xff, 0xff, 0xff, 0xff, 0xff, 0xff, 0xff, 0xff, 0xff,
   0xff, 0xff, 0xff, 0xff, 0xff, 0xff, 0x1b, 0xff, 0xff, 0xff, 0xff, 0xff, 0xff, 0xff, 0xff, 0xff]

def scantoasciiLowercase : List (BitVec 8) :=
  [0xff, 0xff, 0xff, 0xff, 0xff, 0xff, 0xff, 0xff, 0xff, 0xff, 0xff, 0xff, 0xff, 0x09, 0x60, 0xff,
   0xff, 0xff, 0xff, 0xff, 0xff, 0x71, 0x31, 0xff, 0xff, 0xff, 0x7a, 0x73, 0x61, 0x77, 0x32, 0xff,
   0xff, 0x63, 0x78, 0x64, 0x65, 0x34, 0x33, 0xff, 0xff, 0x20, 0x76, 0x66, 0x74, 0x72, 0x35, 0xff,
   0xff, 0x6e, 0x62, 0x68, 0x67, 0x79, 0x36, 0xff, 0xff, 0xff, 0x6d, 0x6a, 0x75, 0x37, 0x38, 0xff,
   0xff, 0x2c, 0x6b, 0x69, 0x6f, 0x30, 0x39, 0xff, 0xff, 0x2e, 0x2f, 0x6c, 0x3b, 0x70, 0x2d, 0xff,
   0xff, 0xff, 0x27, 0xff, 0x5b, 0x3d, 0xff, 0xff, 0xff, 0xff, 0x0a, 0x5d, 0xff, 0x5c, 0xff, 0xff,
   0xff, 0xff, 0xff, 0xff, 0xff, 0xff, 0x08, 0xff, 0xff, 0xff, 0xff, 0xff, 0xff, 0xff, 0xff, 0xff,
   0xff, 0xff, 0xff, 0xff, 0xff, 0xff, 0x1b, 0xff, 0xff, 0xff, 0xff, 0xff, 0xff, 0xff, 0xff, 0xff]

/-- The result is -1 where the table has 0xff. -/
def kernelScantoascii (keyboardState key : BitVec 32) : BitVec 32 :=
  if key &&& 0x7f ≠ key then -1
  else if (keyboardState &&& capslockMask = 0) ≠ (keyboardState &&& shiftMask = 0) then
    (scantoasciiUppercase.getD key.toNat 0xff).signExtend 32
  else (scantoasciiLowercase.getD key.toNat 0xff).signExtend 32

namespace Handler

def initPs2 : Handler := ⟨.initBuffer, 0, 0, []⟩

/-- The `switch` over the code that has come in. -/
def keySwitch (h : Handler) (keyBuffer : BitVec 32) : Handler :=
  if keyBuffer = 0x58 then
    { h with
      keyboardState := h.keyboardState ^^^ capslockMask
      keyboardCmdState := 1
      sent := h.sent ++ [0xed] }
  else if keyBuffer = 0x12 ∨ keyBuffer = 0x59 then
    { h with keyboardState := h.keyboardState ||| shiftMask }
  else if keyBuffer = 0xf012 ∨ keyBuffer = 0xf059 then
    { h with keyboardState := h.keyboardState &&& ~~~shiftMask }
  else if keyBuffer = 0x14 ∨ keyBuffer = 0xe014 then
    { h with keyboardState := h.keyboardState ||| ctrlMask }
  else if keyBuffer = 0xf014 ∨ keyBuffer = 0xe0f014 then
    { h with keyboardState := h.keyboardState &&& ~~~ctrlMask }
  else if keyBuffer = 0x11 ∨ keyBuffer = 0xe011 then
    { h with keyboardState := h.keyboardState ||| altMask }
  else if keyBuffer = 0xf011 ∨ keyBuffer = 0xe0f011 then
    { h with keyboardState := h.keyboardState &&& ~~~altMask }
  else h

/-- A turn of the loop of `ps2_handler`, with the data it reads. -/
def ps2Data (h : Handler) (data : BitVec 32) : Handler :=
  if data = 0xfa then
    { h with
      sent := if h.keyboardCmdState = 1 then h.sent ++ [h.keyboardState &&& 7] else h.sent
      keyboardCmdState := 0 }
  else
    let keyBuffer := h.ps2.scanCode data
    let h := { h with ps2 := h.ps2.ps2Data data }
    if data < 0x80 then h.keySwitch keyBuffer else h

end Handler

/-- The interrupt handler gets a byte, or the loop of `kernel_getchar` makes a call of two. -/
inductive Turn
  | data (data : BitVec 32)
  | getkey
  | scantoascii

/-- The keyboard with the code between `kernel_getkey` and `kernel_scantoascii`, and the characters
that calls of `kernel_getchar` have returned. -/
structure Terminal where
  handler : Handler
  taken : Option (BitVec 32)
  chars : List (BitVec 32)

namespace Terminal

def start : Terminal := ⟨.initPs2, none, []⟩

/-- The two calls take turns, and the loop goes on for as long as the key is -1. -/
def step (t : Terminal) : Turn → Option Terminal
  | .data data => some { t with handler := t.handler.ps2Data data }
  | .getkey =>
      if t.taken.isNone then
        let called := t.handler.ps2.kernelGetkey
        some { t with handler := { t.handler with ps2 := called.1 }, taken := some called.2 }
      else none
  | .scantoascii => t.taken.map fun code =>
      let key := kernelScantoascii t.handler.keyboardState code
      { t with taken := none, chars := if key = -1 then t.chars else t.chars ++ [key] }

/-- No key is unread, nor is one on its way to `kernel_scantoascii`. -/
def AllRead (t : Terminal) : Prop :=
  t.handler.ps2.unread = 0 ∧ (t.taken = none ∨ t.taken = some 0xfff)

instance (t : Terminal) : Decidable t.AllRead := inferInstanceAs (Decidable (_ ∧ _))

/-- No byte ends a code before all keys are read. -/
def KeepsUp (t : Terminal) : Turn → Prop
  | .data data => data ≠ 0xfa → data < 0x80 → t.AllRead
  | .getkey | .scantoascii => True

instance (t : Terminal) : (turn : Turn) → Decidable (t.KeepsUp turn)
  | .data _ => inferInstanceAs (Decidable (_ → _))
  | .getkey | .scantoascii => .isTrue trivial

end Terminal

/-- The bytes that come in without the keyboard's acknowledgements. -/
def codeBytes (turns : List Turn) : List (BitVec 32) :=
  turns.filterMap fun
    | .data data => if data = 0xfa then none else some data
    | .getkey | .scantoascii => none

/-! ## What is typed -/

/-- A key goes down or up. F7, whose code 0x83 is not below 0x80, and Pause with its eight bytes are
left out. -/
inductive KeyEvent
  | make (extended : Bool) (code : BitVec 7)
  | release (extended : Bool) (code : BitVec 7)

namespace KeyEvent

/-- The bytes in front of the last one. -/
def marks : KeyEvent → List (BitVec 32)
  | .make false _ => []
  | .make true _ => [0xe0]
  | .release false _ => [0xf0]
  | .release true _ => [0xe0, 0xf0]

def code : KeyEvent → BitVec 7
  | .make _ code | .release _ code => code

/-- What the keyboard sends. -/
def encode (e : KeyEvent) : List (BitVec 32) := e.marks ++ [e.code.setWidth 32]

end KeyEvent

/-- What is held down or locked. -/
structure Keys where
  shift : Bool
  ctrl : Bool
  alt : Bool
  caps : Bool
  deriving DecidableEq

namespace Keys

def start : Keys := ⟨false, false, false, false⟩

/-- One of two shift keys that goes up ends the shift, even if the other one is held. -/
def event (keys : Keys) : KeyEvent → Keys
  | .make extended code =>
      { shift := if ¬extended ∧ (code = 0x12 ∨ code = 0x59) then true else keys.shift
        ctrl := if code = 0x14 then true else keys.ctrl
        alt := if code = 0x11 then true else keys.alt
        caps := if ¬extended ∧ code = 0x58 then !keys.caps else keys.caps }
  | .release extended code =>
      { keys with
        shift := if ¬extended ∧ (code = 0x12 ∨ code = 0x59) then false else keys.shift
        ctrl := if code = 0x14 then false else keys.ctrl
        alt := if code = 0x11 then false else keys.alt }

/-- What `keyboard_state` should be. -/
def state (keys : Keys) : BitVec 32 :=
  (if keys.caps then capslockMask else 0) ||| (if keys.shift then shiftMask else 0) |||
    (if keys.ctrl then ctrlMask else 0) ||| (if keys.alt then altMask else 0)

/-- The character of a key, if it has one. -/
def character (keys : Keys) (code : BitVec 7) : Option (BitVec 8) :=
  let table := if keys.caps = keys.shift then scantoasciiLowercase else scantoasciiUppercase
  table[code.toNat]?.filter (· ≠ 0xff)

/-- The characters that a sequence of events types. Extended keys have none. -/
def text (keys : Keys) : List KeyEvent → List (BitVec 8)
  | [] => []
  | .make false code :: rest =>
      let keys := keys.event (.make false code)
      (keys.character code).toList ++ keys.text rest
  | e :: rest => (keys.event e).text rest

end Keys

/-- The strokes for a character: its key, between those of the left shift key where it needs
them. -/
def strokes (char : BitVec 8) : List KeyEvent :=
  if char ∈ scantoasciiLowercase then
    let code := BitVec.ofNat 7 (scantoasciiLowercase.idxOf char)
    [.make false code, .release false code]
  else
    let code := BitVec.ofNat 7 (scantoasciiUppercase.idxOf char)
    [.make false 0x12, .make false code, .release false code, .release false 0x12]

/-- The keyboard has a key for the character. -/
def Typable (char : BitVec 8) : Prop :=
  char ≠ 0xff ∧ (char ∈ scantoasciiLowercase ∨ char ∈ scantoasciiUppercase)

instance (char : BitVec 8) : Decidable (Typable char) := inferInstanceAs (Decidable (_ ∧ _))

/-! ## A call without interrupts -/

namespace Ps2

variable {s : Ps2} {base : ℕ}

/-- A step of a call that has found a key. -/
def CallStep (s next : Ps2) : Prop := s.reader ≠ .idle ∧ next = s.getkey

/-- The loop of `init_buffer` in a call. -/
theorem resetting_steps (s : Ps2) (temp : BitVec 32) (i : ℕ) (le : i ≤ slots) :
    Relation.ReflTransGen CallStep { s with reader := .resetting temp i }
      { s with
        buffer := fun k => if i ≤ k ∧ k < slots then 0 else s.buffer k
        ready := fun k => if i ≤ k ∧ k < slots then 0 else s.ready k
        wptr := 0
        rptr := 0
        reader := .idle
        returned := s.returned ++ [temp] } := by
  induction le using Nat.decreasingInduction generalizing s with
  | self =>
      refine .single ⟨Reader.noConfusion, ?_⟩
      have none : ∀ k, ¬(slots ≤ k ∧ k < slots) := fun k bound => by omega
      simp [getkey, none]
  | of_succ i lt ih =>
      refine .head ⟨Reader.noConfusion, rfl⟩ ?_
      have rest := ih { s with
        buffer := Function.update s.buffer i 0, ready := Function.update s.ready i 0 }
      have cleared : ∀ f : ℕ → BitVec 32,
          (fun k => if i + 1 ≤ k ∧ k < slots then 0 else Function.update f i 0 k) =
            fun k => if i ≤ k ∧ k < slots then 0 else f k := by
        intro f
        funext k
        by_cases isHere : k = i
        · subst isHere
          simp [lt]
        · rw [Function.update_of_ne isHere]
          have same : (i + 1 ≤ k ∧ k < slots) ↔ (i ≤ k ∧ k < slots) := by omega
          simp only [same]
      simp only [cleared] at rest
      simpa [getkey, lt] using rest

/-- Without interrupts, the statements of a call come to what `kernelGetkey` says. -/
theorem kernelGetkey_steps (isIdle : s.reader = .idle) (hasKey : s.ready s.rptr ≠ 0) :
    Relation.ReflTransGen CallStep s.getkey s.kernelGetkey.1 := by
  have found : s.getkey = { s with reader := .found } := by
    simp only [getkey, isIdle]
    rw [if_neg hasKey]
  rw [found]
  refine .head ⟨Reader.noConfusion, rfl⟩ (.head ⟨Reader.noConfusion, rfl⟩ ?_)
  refine .head ⟨Reader.noConfusion, rfl⟩ ?_
  by_cases isLast : s.rptr + 1 = slots
  · refine .head ⟨Reader.noConfusion, rfl⟩ ?_
    have loop := resetting_steps
      { s with ready := Function.update s.ready s.rptr 0, rptr := s.rptr + 1 }
      (s.buffer s.rptr) 0 (Nat.zero_le _)
    rw [kernelGetkey, if_neg hasKey]
    simpa [getkey, isLast, isIdle] using loop
  · refine .single ⟨Reader.noConfusion, ?_⟩
    rw [kernelGetkey, if_neg hasKey]
    simp [getkey, isLast, isIdle]

theorem Inv.calls {next : Ps2} (inv : ∃ base, s.Inv base)
    (steps : Relation.ReflTransGen CallStep s next) : ∃ base, next.Inv base := by
  induction steps with
  | refl => exact inv
  | tail _ stepped ih =>
      rcases stepped with ⟨notIdle, rfl⟩
      rcases ih with ⟨base, inv⟩
      exact inv.getkey fun isIdle => absurd isIdle notIdle

end Ps2

/-! ## One code -/

/-- What a code does to `keyboard_state`. -/
inductive Change
  | toggleCaps
  | hold (mask : BitVec 32)
  | drop (mask : BitVec 32)
  | nothing
  deriving DecidableEq

def Change.apply (state : BitVec 32) : Change → BitVec 32
  | .toggleCaps => state ^^^ capslockMask
  | .hold mask => state ||| mask
  | .drop mask => state &&& ~~~mask
  | .nothing => state

def changeOf (keyBuffer : BitVec 32) : Change :=
  if keyBuffer = 0x58 then .toggleCaps
  else if keyBuffer = 0x12 ∨ keyBuffer = 0x59 then .hold shiftMask
  else if keyBuffer = 0xf012 ∨ keyBuffer = 0xf059 then .drop shiftMask
  else if keyBuffer = 0x14 ∨ keyBuffer = 0xe014 then .hold ctrlMask
  else if keyBuffer = 0xf014 ∨ keyBuffer = 0xe0f014 then .drop ctrlMask
  else if keyBuffer = 0x11 ∨ keyBuffer = 0xe011 then .hold altMask
  else if keyBuffer = 0xf011 ∨ keyBuffer = 0xe0f011 then .drop altMask
  else .nothing

theorem Handler.keySwitch_eq (h : Handler) (keyBuffer : BitVec 32) :
    (h.keySwitch keyBuffer).ps2 = h.ps2 ∧
      (h.keySwitch keyBuffer).keyboardState = (changeOf keyBuffer).apply h.keyboardState := by
  unfold Handler.keySwitch changeOf
  split_ifs <;> exact ⟨rfl, rfl⟩

namespace KeyEvent

/-- What `key_buffer` is after some bytes. -/
def joined (bytes : List (BitVec 32)) : BitVec 32 :=
  bytes.foldl (fun keyBuffer data => keyBuffer <<< 8 ||| data) 0

/-- What an event does to `keyboard_state`. -/
def change : KeyEvent → Change
  | .make extended code =>
      if ¬extended ∧ code = 0x58 then .toggleCaps
      else if ¬extended ∧ (code = 0x12 ∨ code = 0x59) then .hold shiftMask
      else if code = 0x14 then .hold ctrlMask
      else if code = 0x11 then .hold altMask
      else .nothing
  | .release extended code =>
      if ¬extended ∧ (code = 0x12 ∨ code = 0x59) then .drop shiftMask
      else if code = 0x14 then .drop ctrlMask
      else if code = 0x11 then .drop altMask
      else .nothing

/-- The cases of the `switch` are the codes of the keys with a state. -/
theorem changeOf_encode (e : KeyEvent) : changeOf (joined e.encode) = e.change := by
  have makes : ∀ code : BitVec 7, ∀ extended,
      changeOf (joined (make extended code).encode) = (make extended code).change := by
    decide +kernel
  have releases : ∀ code : BitVec 7, ∀ extended,
      changeOf (joined (release extended code).encode) = (release extended code).change := by
    decide +kernel
  cases e with
  | make extended code => exact makes code extended
  | release extended code => exact releases code extended

/-- The buffer takes the codes of keys that go down and are not extended ones. -/
theorem short_iff (e : KeyEvent) :
    joined e.encode &&& 0x7f = joined e.encode ↔ e = .make false e.code := by
  have makes : ∀ code : BitVec 7, ∀ extended,
      joined (make extended code).encode &&& 0x7f = joined (make extended code).encode ↔
        extended = false := by
    decide +kernel
  have releases : ∀ code : BitVec 7, ∀ extended,
      joined (release extended code).encode &&& 0x7f ≠ joined (release extended code).encode := by
    decide +kernel
  cases e with
  | make extended code => simpa [KeyEvent.code] using makes code extended
  | release extended code => simpa using releases code extended

theorem marks_ge (e : KeyEvent) : ∀ data ∈ e.marks, ¬data < 0x80 ∧ data ≠ 0xfa := by
  cases e with
  | make extended code => cases extended <;> simp [marks]
  | release extended code => cases extended <;> simp [marks]

theorem code_lt (code : BitVec 7) : code.setWidth 32 < (0x80 : BitVec 32) := by
  revert code
  decide +kernel

end KeyEvent

/-- Every event does to `keyboard_state` what it does to the keys that are held or locked. -/
theorem Keys.apply_state (keys : Keys) (e : KeyEvent) :
    e.change.apply keys.state = (keys.event e).state := by
  have special : ∀ code ∈ [(0x58 : BitVec 7), 0x12, 0x59, 0x14, 0x11],
      ∀ extended shift ctrl alt caps,
        (KeyEvent.make extended code).change.apply (Keys.state ⟨shift, ctrl, alt, caps⟩) =
            (Keys.event ⟨shift, ctrl, alt, caps⟩ (.make extended code)).state ∧
          (KeyEvent.release extended code).change.apply (Keys.state ⟨shift, ctrl, alt, caps⟩) =
            (Keys.event ⟨shift, ctrl, alt, caps⟩ (.release extended code)).state := by
    decide +kernel
  by_cases isSpecial : e.code ∈ [(0x58 : BitVec 7), 0x12, 0x59, 0x14, 0x11]
  · rcases keys with ⟨shift, ctrl, alt, caps⟩
    cases e with
    | make extended code => exact (special code isSpecial extended shift ctrl alt caps).1
    | release extended code => exact (special code isSpecial extended shift ctrl alt caps).2
  · simp only [List.mem_cons, List.not_mem_nil, or_false, not_or] at isSpecial
    rcases isSpecial with ⟨notCaps, notLeft, notRight, notCtrl, notAlt⟩
    cases e with
    | make extended code =>
        simp only [KeyEvent.code] at notCaps notLeft notRight notCtrl notAlt
        simp only [KeyEvent.change, event, notCaps, notLeft, notRight, notCtrl, notAlt, or_self,
          and_false, if_false]
        rfl
    | release extended code =>
        simp only [KeyEvent.code] at notLeft notRight notCtrl notAlt
        simp only [KeyEvent.change, event, notLeft, notRight, notCtrl, notAlt, or_self, and_false,
          if_false]
        rfl

/-- `kernel_scantoascii` finds the character of a key. -/
theorem Keys.scantoascii_state (keys : Keys) (code : BitVec 7) :
    kernelScantoascii keys.state (code.setWidth 32) =
      match keys.character code with
      | none => -1
      | some char => char.signExtend 32 := by
  have masks : ∀ shift ctrl alt caps,
      ((Keys.state ⟨shift, ctrl, alt, caps⟩ &&& capslockMask = 0) ↔ caps = false) ∧
        ((Keys.state ⟨shift, ctrl, alt, caps⟩ &&& shiftMask = 0) ↔ shift = false) := by
    decide
  have tables : ∀ table ∈ [scantoasciiLowercase, scantoasciiUppercase], ∀ code : BitVec 7,
      (table.getD (code.setWidth 32 : BitVec 32).toNat 0xff).signExtend 32 =
        match table[code.toNat]?.filter (· ≠ 0xff) with
        | none => (-1 : BitVec 32)
        | some char => char.signExtend 32 := by
    decide +kernel
  have short : ∀ code : BitVec 7, code.setWidth 32 &&& (0x7f : BitVec 32) = code.setWidth 32 := by
    decide +kernel
  rcases keys with ⟨shift, ctrl, alt, caps⟩
  rcases masks shift ctrl alt caps with ⟨isCaps, isShift⟩
  unfold kernelScantoascii character
  rw [if_neg (not_not_intro (short code))]
  simp only [isCaps, isShift]
  cases caps <;> cases shift <;> exact tables _ (by decide) code

theorem Keys.character_ne {keys : Keys} {code : BitVec 7} {char : BitVec 8}
    (isChar : keys.character code = some char) : char.signExtend 32 ≠ (-1 : BitVec 32) := by
  have extended : ∀ char : BitVec 8, char.signExtend 32 = (-1 : BitVec 32) → char = 0xff := by
    decide +kernel
  rcases Option.filter_eq_some_iff.mp isChar with ⟨_, notNone⟩
  intro isNone
  rw [extended char isNone] at notNone
  exact absurd notNone (by decide)

/-! ## The turns -/

theorem KeyEvent.joined_append (bytes : List (BitVec 32)) (data : BitVec 32) :
    joined (bytes ++ [data]) = joined bytes <<< 8 ||| data :=
  List.foldl_append

/-- What `kernel_getchar` returns for a key, if it returns. -/
def saidOf (keyboardState key : BitVec 32) : List (BitVec 32) :=
  if kernelScantoascii keyboardState key = -1 then [] else [kernelScantoascii keyboardState key]

theorem Keys.saidOf_state (keys : Keys) (code : BitVec 7) :
    saidOf keys.state (code.setWidth 32) =
      ((keys.character code).toList.map (·.signExtend 32)) := by
  unfold saidOf
  rw [keys.scantoascii_state code]
  cases isChar : keys.character code with
  | none => rfl
  | some char =>
      rw [if_neg (Keys.character_ne isChar)]
      rfl

namespace Ps2

variable {s : Ps2} {base : ℕ}

/-- The keys that no call has returned. -/
def waiting (s : Ps2) : List (BitVec 32) := s.buffered.drop s.returned.length

theorem length_waiting (s : Ps2) : s.waiting.length = s.unread := List.length_drop

theorem kernelGetkey_of_ready (hasKey : s.ready s.rptr ≠ 0) :
    s.kernelGetkey.1.returned = s.returned ++ [s.kernelGetkey.2] ∧
      s.kernelGetkey.1.buffered = s.buffered ∧ s.kernelGetkey.1.reader = s.reader ∧
      s.kernelGetkey.1.keyBuffer = s.keyBuffer := by
  unfold kernelGetkey
  rw [if_neg hasKey]
  dsimp only
  split_ifs <;> exact ⟨rfl, rfl, rfl, rfl⟩

/-- A call takes the only key that waits. -/
theorem Inv.kernelGetkey (inv : s.Inv base) (isIdle : s.reader = .idle) (few : s.unread ≤ 1)
    (hasKey : s.ready s.rptr ≠ 0) :
    (∃ base, s.kernelGetkey.1.Inv base) ∧ s.waiting = [s.kernelGetkey.2] ∧
      s.kernelGetkey.1.waiting = [] := by
  rcases kernelGetkey_of_ready hasKey with ⟨returned, buffered, -, -⟩
  have isReader := inv.reader
  have window := inv.window
  simp only [ReaderInv, isIdle] at isReader
  simp only [firstKept, isIdle] at window
  rcases window.others s.rptr isReader.2 hasKey with ⟨j, lower, upper, -⟩
  have isAlone : s.unread = 1 := by
    unfold unread at few ⊢
    omega
  have called := Inv.calls (inv.getkey fun _ _ _ => isAlone) (kernelGetkey_steps isIdle hasKey)
  refine ⟨called, ?_⟩
  rcases called with ⟨_, after⟩
  have all : s.returned ++ [s.kernelGetkey.2] = s.buffered := by
    rw [← returned, ← buffered]
    refine after.isPrefix.eq_of_length_le ?_
    rw [returned, buffered, List.length_append, List.length_singleton]
    unfold unread at isAlone
    omega
  unfold waiting
  rw [returned, buffered, ← all, List.drop_length, List.drop_left]
  exact ⟨rfl, rfl⟩

end Ps2

namespace Terminal

/-- Between two turns: some bytes of a code have come in, and at most one key waits. -/
structure Stands (t : Terminal) (keys : Keys) (bytes : List (BitVec 32)) : Prop where
  kept : ∃ base, t.handler.ps2.Inv base
  isIdle : t.handler.ps2.reader = .idle
  joined : t.handler.ps2.keyBuffer = KeyEvent.joined bytes
  state : t.handler.keyboardState = keys.state
  few : t.handler.ps2.unread ≤ 1

/-- The characters that have been returned, and the one that will be. -/
def said (t : Terminal) : List (BitVec 32) :=
  t.chars ++ (t.taken.toList ++ t.handler.ps2.waiting).flatMap (saidOf t.handler.keyboardState)

theorem Stands.start : start.Stands .start [] :=
  ⟨⟨0, Ps2.Inv.initBuffer⟩, rfl, rfl, by decide, Nat.zero_le _⟩

theorem saidOf_noKey (keyboardState : BitVec 32) : saidOf keyboardState 0xfff = [] := by
  have none : kernelScantoascii keyboardState 0xfff = -1 := by
    unfold kernelScantoascii
    exact if_pos (by decide)
  rw [saidOf, if_pos none]

variable {t : Terminal} {keys : Keys} {bytes : List (BitVec 32)}

/-- What has been taken when all keys are read is none. -/
theorem AllRead.taken (allRead : t.AllRead) (keyboardState : BitVec 32) :
    t.taken.toList.flatMap (saidOf keyboardState) = [] := by
  rcases allRead.2 with isTaken | isTaken
  · rw [isTaken, Option.toList_none, List.flatMap_nil]
  · rw [isTaken, Option.toList_some, List.flatMap_singleton, saidOf_noKey]

theorem AllRead.waiting (allRead : t.AllRead) : t.handler.ps2.waiting = [] := by
  rw [← List.length_eq_zero_iff, Ps2.length_waiting, allRead.1]

theorem AllRead.said (allRead : t.AllRead) : t.said = t.chars := by
  rw [Terminal.said, allRead.waiting, List.append_nil, allRead.taken, List.append_nil]

/-- `kernel_getkey` takes the key that waits, if there is one. -/
theorem Stands.getkey (stands : t.Stands keys bytes) {next : Terminal}
    (stepped : t.step .getkey = some next) : next.Stands keys bytes ∧ next.said = t.said := by
  have isStep : t.taken = none ∧ next = { t with
      handler := { t.handler with ps2 := t.handler.ps2.kernelGetkey.1 }
      taken := some t.handler.ps2.kernelGetkey.2 } := by
    rw [step] at stepped
    by_cases noneTaken : t.taken.isNone
    · rw [if_pos noneTaken] at stepped
      exact ⟨Option.isNone_iff_eq_none.mp noneTaken, (Option.some.inj stepped).symm⟩
    · rw [if_neg noneTaken] at stepped
      cases stepped
  rcases isStep with ⟨noneTaken, rfl⟩
  by_cases noKey : t.handler.ps2.ready t.handler.ps2.rptr = 0
  · have same : t.handler.ps2.kernelGetkey = (t.handler.ps2, 0xfff) := by
      unfold Ps2.kernelGetkey
      exact if_pos noKey
    rw [same]
    refine ⟨⟨stands.kept, stands.isIdle, stands.joined, stands.state, stands.few⟩, ?_⟩
    simp only [said, noneTaken, Option.toList_some, Option.toList_none, List.flatMap_append,
      List.flatMap_singleton, saidOf_noKey, List.nil_append]
  · rcases stands.kept with ⟨base, inv⟩
    rcases Ps2.kernelGetkey_of_ready noKey with ⟨-, -, isReader, keyBuffer⟩
    rcases inv.kernelGetkey stands.isIdle stands.few noKey with ⟨after, waits, none⟩
    refine ⟨⟨after, isReader.trans stands.isIdle, keyBuffer.trans stands.joined, stands.state, ?_⟩,
      ?_⟩
    · rw [← Ps2.length_waiting]
      exact none ▸ Nat.zero_le _
    · simp only [said, noneTaken, waits, none, Option.toList_some, Option.toList_none,
        List.append_nil, List.nil_append]

/-- `kernel_scantoascii` makes a character of the key that has been taken. -/
theorem Stands.scantoascii (stands : t.Stands keys bytes) {next : Terminal}
    (stepped : t.step .scantoascii = some next) : next.Stands keys bytes ∧ next.said = t.said := by
  rcases Option.map_eq_some_iff.mp stepped with ⟨code, isTaken, rfl⟩
  refine ⟨⟨stands.kept, stands.isIdle, stands.joined, stands.state, stands.few⟩, ?_⟩
  rw [said, said, isTaken, Option.toList_some, Option.toList_none, List.nil_append,
    List.flatMap_append, List.flatMap_singleton, ← List.append_assoc]
  unfold saidOf
  dsimp only
  split_ifs <;> simp

/-- A byte in front of the last one of a code is kept for later. -/
theorem Stands.mark (stands : t.Stands keys bytes) {data : BitVec 32} (notAck : data ≠ 0xfa)
    (isMark : ¬data < 0x80) {next : Terminal} (stepped : t.step (.data data) = some next) :
    next.Stands keys (bytes ++ [data]) ∧ next.said = t.said := by
  rw [← Option.some.inj stepped]
  have isNext : t.handler.ps2Data data = { t.handler with
      ps2 := { t.handler.ps2 with keyBuffer := t.handler.ps2.scanCode data } } := by
    simp only [Handler.ps2Data, Ps2.ps2Data, if_neg notAck, if_neg isMark]
  rw [isNext]
  rcases stands.kept with ⟨base, inv⟩
  refine ⟨⟨⟨base, inv.code _⟩, stands.isIdle, ?_, stands.state, stands.few⟩, rfl⟩
  rw [KeyEvent.joined_append, ← stands.joined]
  rfl

/-- An acknowledgement is none of the keyboard's codes. -/
theorem Stands.ack (stands : t.Stands keys bytes) {next : Terminal}
    (stepped : t.step (.data 0xfa) = some next) :
    next.Stands keys bytes ∧ next.said = t.said := by
  rw [← Option.some.inj stepped]
  exact ⟨⟨stands.kept, stands.isIdle, stands.joined, stands.state, stands.few⟩, rfl⟩

/-- The last byte of an event's code changes the state and puts the code of a plain stroke into the
buffer. -/
theorem Stands.ps2Data_code {e : KeyEvent} (stands : t.Stands keys e.marks) :
    (t.handler.ps2Data (e.code.setWidth 32)).keyboardState = (keys.event e).state ∧
      (e = .make false e.code → (t.handler.ps2Data (e.code.setWidth 32)).ps2 =
        { t.handler.ps2.insert (e.code.setWidth 32) with keyBuffer := 0 }) ∧
      (e ≠ .make false e.code → (t.handler.ps2Data (e.code.setWidth 32)).ps2 =
        { t.handler.ps2 with keyBuffer := 0 }) := by
  have isLast := KeyEvent.code_lt e.code
  have notAck : e.code.setWidth 32 ≠ (0xfa : BitVec 32) := by
    intro isAck
    rw [isAck] at isLast
    exact absurd isLast (by decide)
  have isCode : t.handler.ps2.scanCode (e.code.setWidth 32) = KeyEvent.joined e.encode := by
    rw [KeyEvent.encode, KeyEvent.joined_append, ← stands.joined]
    rfl
  have isPs2 : (t.handler.ps2Data (e.code.setWidth 32)).ps2 =
      t.handler.ps2.ps2Data (e.code.setWidth 32) := by
    simp only [Handler.ps2Data, if_neg notAck, if_pos isLast]
    exact (Handler.keySwitch_eq _ _).1
  refine ⟨?_, fun isMake => ?_, fun notMake => ?_⟩
  · simp only [Handler.ps2Data, if_neg notAck, if_pos isLast, isCode]
    rw [(Handler.keySwitch_eq _ _).2, KeyEvent.changeOf_encode, ← keys.apply_state, ← stands.state]
  · have isShort := (KeyEvent.short_iff e).mpr isMake
    have isKey : KeyEvent.joined e.encode = e.code.setWidth 32 := by
      rw [isMake]
      simp [KeyEvent.encode, KeyEvent.marks, KeyEvent.joined, KeyEvent.code]
    rw [isPs2]
    simp only [Ps2.ps2Data, if_neg notAck, if_pos isLast, isCode, if_pos isShort]
    rw [isKey]
  · have notShort := mt (KeyEvent.short_iff e).mp notMake
    rw [isPs2]
    simp only [Ps2.ps2Data, if_neg notAck, if_pos isLast, isCode, if_neg notShort]

/-- The key of a plain stroke waits, and its character will be said. -/
theorem Stands.stroke {e : KeyEvent} (stands : t.Stands keys e.marks) (allRead : t.AllRead)
    (isMake : e = .make false e.code) {next : Terminal}
    (stepped : t.step (.data (e.code.setWidth 32)) = some next) :
    next.Stands (keys.event e) [] ∧
      next.said = t.said ++ ((keys.event e).character e.code).toList.map (·.signExtend 32) := by
  rw [← Option.some.inj stepped]
  rcases stands.ps2Data_code with ⟨isState, inserted, -⟩
  have isPs2 := inserted isMake
  have noneWaits := allRead.1
  have nothingTaken := allRead.taken
  have saidBefore := allRead.said
  rcases stands.kept with ⟨base, inv⟩
  have length : t.handler.ps2.buffered.length = t.handler.ps2.returned.length :=
    Nat.le_antisymm (Nat.sub_eq_zero_iff_le.mp noneWaits) inv.length_le
  have waits : (t.handler.ps2Data (e.code.setWidth 32)).ps2.waiting = [e.code.setWidth 32] := by
    rw [isPs2]
    change (t.handler.ps2.buffered ++ [_]).drop t.handler.ps2.returned.length = _
    rw [← length, List.drop_left]
  have paced : t.handler.ps2.unread < slots - 1 := noneWaits ▸ by decide
  have notTaking : t.handler.ps2.takesLast = false := by
    rw [Ps2.takesLast, stands.isIdle]
  refine ⟨⟨⟨base, ?_⟩, ?_, ?_, isState, ?_⟩, ?_⟩
  · rw [isPs2]
    exact (inv.insert paced notTaking _).code 0
  · rw [isPs2]
    exact stands.isIdle
  · rw [isPs2]
    rfl
  · rw [← Ps2.length_waiting, waits]
    exact Nat.le.refl
  · rw [saidBefore, said, waits, isState, List.flatMap_append, List.flatMap_singleton,
      Keys.saidOf_state]
    show t.chars ++ (t.taken.toList.flatMap _ ++ _) = _
    rw [nothingTaken, List.nil_append]

/-- Any other event leaves nothing to say. -/
theorem Stands.silent {e : KeyEvent} (stands : t.Stands keys e.marks) (allRead : t.AllRead)
    (notMake : e ≠ .make false e.code) {next : Terminal}
    (stepped : t.step (.data (e.code.setWidth 32)) = some next) :
    next.Stands (keys.event e) [] ∧ next.said = t.said := by
  rw [← Option.some.inj stepped]
  rcases stands.ps2Data_code with ⟨isState, -, dropped⟩
  have isPs2 := dropped notMake
  have noWaiting := allRead.waiting
  have nothingTaken := allRead.taken
  have saidBefore := allRead.said
  rcases stands.kept with ⟨base, inv⟩
  refine ⟨⟨⟨base, ?_⟩, ?_, ?_, isState, ?_⟩, ?_⟩
  · rw [isPs2]
    exact inv.code 0
  · rw [isPs2]
    exact stands.isIdle
  · rw [isPs2]
    rfl
  · rw [isPs2]
    exact stands.few
  · rw [saidBefore, said, isPs2]
    show t.chars ++ (t.taken.toList ++ t.handler.ps2.waiting).flatMap _ = _
    rw [noWaiting, List.append_nil, nothingTaken, List.append_nil]

/-- The last byte of an event's code makes the event happen. -/
theorem Stands.code {e : KeyEvent} (stands : t.Stands keys e.marks)
    (allRead : t.AllRead) {next : Terminal}
    (stepped : t.step (.data (e.code.setWidth 32)) = some next) :
    next.Stands (keys.event e) [] ∧ ∀ rest,
      next.said ++ ((keys.event e).text rest).map (·.signExtend 32) =
        t.said ++ (keys.text (e :: rest)).map (·.signExtend 32) := by
  by_cases isMake : e = .make false e.code
  · rcases stands.stroke allRead isMake stepped with ⟨stands', said⟩
    refine ⟨stands', fun rest => ?_⟩
    have isText : keys.text (e :: rest) =
        ((keys.event e).character e.code).toList ++ (keys.event e).text rest := by
      rw [isMake]
      rfl
    rw [said, isText, List.map_append, List.append_assoc]
  · rcases stands.silent allRead isMake stepped with ⟨stands', said⟩
    refine ⟨stands', fun rest => ?_⟩
    have isText : keys.text (e :: rest) = (keys.event e).text rest := by
      rcases e with ⟨extended, code⟩ | ⟨extended, code⟩
      · cases extended
        · exact absurd rfl isMake
        · rfl
      · rfl
    rw [said, isText]

/-- Two ways to cut a list at its first element with a property are one. -/
theorem cut_unique {α : Type*} {P : α → Prop} {a a' c c' : List α} {b b' : α}
    (none : ∀ x ∈ a, ¬P x) (isFirst : P b) (none' : ∀ x ∈ a', ¬P x) (isFirst' : P b')
    (same : a ++ b :: c = a' ++ b' :: c') : a = a' ∧ b = b' ∧ c = c' := by
  induction a generalizing a' with
  | nil =>
      cases a' with
      | nil => simpa using same
      | cons x a' =>
          rw [List.nil_append, List.cons_append, List.cons.injEq] at same
          exact absurd (same.1 ▸ isFirst) (none' x List.mem_cons_self)
  | cons x a ih =>
      cases a' with
      | nil =>
          rw [List.nil_append, List.cons_append, List.cons.injEq] at same
          exact absurd (same.1 ▸ isFirst') (none x List.mem_cons_self)
      | cons x' a' =>
          rw [List.cons_append, List.cons_append, List.cons.injEq] at same
          rcases ih (fun y mem => none y (.tail x mem)) (fun y mem => none' y (.tail x' mem)) same.2
            with ⟨rfl, isB, isC⟩
          exact ⟨by rw [same.1], isB, isC⟩

/-- A run makes its events happen and says the characters that they type. -/
theorem Stands.run {turns : List Turn} {final : Terminal} :
    ∀ {t keys bytes events}, Stands t keys bytes → (∀ data ∈ bytes, ¬data < 0x80) →
      bytes ++ codeBytes turns = events.flatMap KeyEvent.encode →
      GuardedRun step KeepsUp t turns → run step t turns = some final →
      final.Stands (events.foldl Keys.event keys) [] ∧
        final.said = t.said ++ (keys.text events).map (·.signExtend 32) := by
  induction turns with
  | nil =>
      intro t keys bytes events stands marks isStream _ ran
      rw [← Option.some.inj ran]
      cases events with
      | nil =>
          rw [codeBytes, List.filterMap_nil, List.append_nil, List.flatMap_nil] at isStream
          subst isStream
          exact ⟨stands, (List.append_nil _).symm⟩
      | cons e rest =>
          -- The last byte of the first event's code cannot be among the marks.
          have among : e.code.setWidth 32 ∈ bytes := by
            have isBytes : bytes = (e :: rest).flatMap KeyEvent.encode := by
              rw [← isStream, codeBytes, List.filterMap_nil, List.append_nil]
            rw [isBytes, List.flatMap_cons, KeyEvent.encode]
            simp
          exact absurd (KeyEvent.code_lt e.code) (marks _ among)
  | cons turn rest ih =>
      intro t keys bytes events stands marks isStream keepsUp ran
      rcases Option.bind_eq_some_iff.mp ran with ⟨next, stepped, ranRest⟩
      have keepsUpRest := keepsUp.2 next stepped
      cases turn with
      | getkey =>
          rcases stands.getkey stepped with ⟨stands', said⟩
          rw [← said]
          exact ih stands' marks isStream keepsUpRest ranRest
      | scantoascii =>
          rcases stands.scantoascii stepped with ⟨stands', said⟩
          rw [← said]
          exact ih stands' marks isStream keepsUpRest ranRest
      | data data =>
          by_cases isAck : data = 0xfa
          · subst isAck
            rcases stands.ack stepped with ⟨stands', said⟩
            rw [← said]
            exact ih stands' marks isStream keepsUpRest ranRest
          · have isFirst : codeBytes (.data data :: rest) = data :: codeBytes rest :=
              List.filterMap_cons_some (if_neg isAck)
            rw [isFirst] at isStream
            by_cases isLast : data < 0x80
            · cases events with
              | nil => simp at isStream
              | cons e others =>
                  rw [List.flatMap_cons, KeyEvent.encode, List.append_assoc,
                    List.singleton_append] at isStream
                  rcases cut_unique (P := (· < 0x80)) marks isLast
                    (fun x mem => (e.marks_ge x mem).1) (KeyEvent.code_lt e.code) isStream with
                    ⟨rfl, rfl, isRest⟩
                  rcases stands.code (keepsUp.1 isAck isLast) stepped with ⟨stands', said⟩
                  rw [← said others]
                  exact ih stands' (fun x mem => absurd mem List.not_mem_nil) isRest keepsUpRest
                    ranRest
            · rcases stands.mark isAck isLast stepped with ⟨stands', said⟩
              rw [← said]
              refine ih stands' ?_ ?_ keepsUpRest ranRest
              · intro x mem
                rcases List.mem_append.mp mem with before | isData
                · exact marks x before
                · exact List.mem_singleton.mp isData ▸ isLast
              · rw [List.append_assoc]
                exact isStream

end Terminal

/-! ## Texts -/

theorem Keys.text_append (keys : Keys) (first second : List KeyEvent) :
    keys.text (first ++ second) =
      keys.text first ++ (first.foldl Keys.event keys).text second := by
  induction first generalizing keys with
  | nil => rfl
  | cons e rest ih =>
      rcases e with ⟨extended, code⟩ | ⟨extended, code⟩
      · cases extended
        · simp only [List.cons_append, text, ih, List.append_assoc, List.foldl_cons]
        · exact ih _
      · exact ih _

/-- The strokes for a character type it and leave no key held. -/
theorem text_strokes {char : BitVec 8} (typable : Typable char) :
    Keys.start.text (strokes char) = [char] ∧
      (strokes char).foldl Keys.event .start = .start := by
  revert char
  decide +kernel

theorem text_of_strokes {text : List (BitVec 8)} (typable : ∀ char ∈ text, Typable char) :
    Keys.start.text (text.flatMap strokes) = text := by
  induction text with
  | nil => rfl
  | cons char rest ih =>
      rcases text_strokes (typable char List.mem_cons_self) with ⟨isChar, noKeys⟩
      rw [List.flatMap_cons, Keys.text_append, isChar, noKeys,
        ih fun other mem => typable other (.tail char mem), List.singleton_append]

namespace Terminal

/-- The keys for "Hi!", each byte followed by a turn of the loop. -/
def greeting : List Turn :=
  (([0x48, 0x69, 0x21] : List (BitVec 8)).flatMap strokes).flatMap fun e =>
    e.encode.flatMap fun data => [.data data, .getkey, .scantoascii]

end Terminal

end Ninix.Keyboard
