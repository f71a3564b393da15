import Mathlib.Data.Nat.Notation
import Mathlib.Logic.Function.Basic
import Ninix.Library.Reachability

/-!
# The keyboard buffer

The interrupt handler puts a key into the slot of the write pointer and wraps that pointer by a
mask. `kernel_getkey` takes the key of the slot of the read pointer, and when that pointer has
come to the end it resets the whole buffer. An interrupt can come between any two statements of
`kernel_getkey`. Keys that are in the buffer when it is reset are lost.
-/

namespace Ninix.Keyboard

open TransitionSystem

abbrev slots : ℕ := 32

/-- How far a call of `kernel_getkey` has come, with the key it has read. -/
inductive Reader
  | idle
  | found
  | loaded (temp : BitVec 32)
  | cleared (temp : BitVec 32)
  | advanced (temp : BitVec 32)
  | resetting (temp : BitVec 32) (i : ℕ)
  deriving DecidableEq

/-- The scan code that is coming in, the buffer with its pointers, the call of `kernel_getkey`
that is under way, and the keys that have been put in and those that calls have returned. -/
structure Ps2 where
  keyBuffer : BitVec 32
  buffer : ℕ → BitVec 32
  ready : ℕ → BitVec 32
  wptr : ℕ
  rptr : ℕ
  reader : Reader
  buffered : List (BitVec 32)
  returned : List (BitVec 32)

inductive KeyOp
  | scan (data : BitVec 32)
  | getkey

namespace Ps2

/-- `init_buffer` -/
def initBuffer : Ps2 where
  keyBuffer := 0
  buffer := fun _ => 0
  ready := fun _ => 0
  wptr := 0
  rptr := 0
  reader := .idle
  buffered := []
  returned := []

def insert (s : Ps2) (key : BitVec 32) : Ps2 :=
  { s with
    buffer := Function.update s.buffer s.wptr key
    ready := Function.update s.ready s.wptr 1
    wptr := (s.wptr + 1) % slots
    buffered := s.buffered ++ [key] }

def scanCode (s : Ps2) (data : BitVec 32) : BitVec 32 := s.keyBuffer <<< 8 ||| data

/-- The code that a data byte ends is one that the buffer takes. -/
def Inserts (s : Ps2) (data : BitVec 32) : Prop :=
  data ≠ 0xfa ∧ data < 0x80 ∧ s.scanCode data &&& 0x7f = s.scanCode data

instance (s : Ps2) (data : BitVec 32) : Decidable (s.Inserts data) :=
  inferInstanceAs (Decidable (_ ∧ _))

/-- A turn of the loop of `ps2_handler`. -/
def ps2Data (s : Ps2) (data : BitVec 32) : Ps2 :=
  if data = 0xfa then s
  else if data < 0x80 then
    if s.scanCode data &&& 0x7f = s.scanCode data then
      { s.insert (s.scanCode data) with keyBuffer := 0 }
    else { s with keyBuffer := 0 }
  else { s with keyBuffer := s.scanCode data }

/-- The next statement of `kernel_getkey`, or its beginning; a call that finds no key is over at
once. -/
def getkey (s : Ps2) : Ps2 :=
  match s.reader with
  | .idle => if s.ready s.rptr = 0 then s else { s with reader := .found }
  | .found => { s with reader := .loaded (s.buffer s.rptr) }
  | .loaded temp =>
      { s with ready := Function.update s.ready s.rptr 0, reader := .cleared temp }
  | .cleared temp => { s with rptr := s.rptr + 1, reader := .advanced temp }
  | .advanced temp =>
      if s.rptr = slots then { s with reader := .resetting temp 0 }
      else { s with reader := .idle, returned := s.returned ++ [temp] }
  | .resetting temp i =>
      if i < slots then
        { s with
          buffer := Function.update s.buffer i 0
          ready := Function.update s.ready i 0
          reader := .resetting temp (i + 1) }
      else { s with wptr := 0, rptr := 0, reader := .idle, returned := s.returned ++ [temp] }

def step (s : Ps2) : KeyOp → Option Ps2
  | .scan data => some (s.ps2Data data)
  | .getkey => some s.getkey

/-- The number of keys that no call has returned. -/
def unread (s : Ps2) : ℕ := s.buffered.length - s.returned.length

/-- No more than 31 keys are ever unread. -/
def Paced (s : Ps2) : KeyOp → Prop
  | .scan data => s.Inserts data → s.unread < slots - 1
  | .getkey => True

/-- A call takes the key of the last slot. -/
def takesLast (s : Ps2) : Bool :=
  match s.reader with
  | .idle => false
  | .found | .loaded _ | .cleared _ => s.rptr == slots - 1
  | .advanced _ => s.rptr == slots
  | .resetting _ _ => true

/-- A call that takes the key of the last slot finds no other unread key, and none is put in
before it returns. -/
def LastAlone (s : Ps2) : KeyOp → Prop
  | .scan data => s.Inserts data → s.takesLast = false
  | .getkey => s.reader = .idle → s.ready s.rptr ≠ 0 → s.rptr = slots - 1 → s.unread = 1

instance (s : Ps2) : (op : KeyOp) → Decidable (s.Paced op)
  | .scan _ => inferInstanceAs (Decidable (_ → _))
  | .getkey => .isTrue trivial

instance (s : Ps2) : (op : KeyOp) → Decidable (s.LastAlone op)
  | .scan _ => inferInstanceAs (Decidable (_ → _))
  | .getkey => inferInstanceAs (Decidable (_ → _))

/-- What calls have returned is a part of what has been put in from its beginning on, and a call
that would find no key now has none to find. -/
def Fifo (s : Ps2) : Prop :=
  s.returned <+: s.buffered ∧
    (s.reader = .idle → s.ready s.rptr = 0 → s.returned = s.buffered)

instance (s : Ps2) : Decidable s.Fifo := inferInstanceAs (Decidable (_ ∧ _))

/-! ## The invariant -/

/-- The keys from number `lo` on are in their slots and no other slot is ready, where key number
`base` was put into slot 0. -/
structure Window (s : Ps2) (base lo : ℕ) : Prop where
  keys : ∀ j, lo ≤ j → j < s.buffered.length →
    s.ready ((j - base) % slots) = 1 ∧ s.buffered[j]? = some (s.buffer ((j - base) % slots))
  others : ∀ k < slots, s.ready k ≠ 0 →
    ∃ j, lo ≤ j ∧ j < s.buffered.length ∧ k = (j - base) % slots

/-- The number of the first key that is in the buffer: the key that is being read is out of it
once its slot is cleared. -/
def firstKept (s : Ps2) : ℕ :=
  match s.reader with
  | .idle | .found | .loaded _ => s.returned.length
  | .cleared _ | .advanced _ | .resetting _ _ => s.returned.length + 1

/-- What a call that is under way has done. -/
def ReaderInv (s : Ps2) (base : ℕ) : Prop :=
  match s.reader with
  | .idle => s.rptr = s.returned.length - base ∧ s.rptr < slots
  | .found =>
      s.rptr = s.returned.length - base ∧ s.rptr < slots ∧ 0 < s.unread ∧
        (s.rptr = slots - 1 → s.unread = 1)
  | .loaded temp | .cleared temp =>
      s.rptr = s.returned.length - base ∧ s.rptr < slots ∧
        s.buffered[s.returned.length]? = some temp ∧ (s.rptr = slots - 1 → s.unread = 1)
  | .advanced temp =>
      s.rptr = s.returned.length + 1 - base ∧ s.rptr ≤ slots ∧
        s.buffered[s.returned.length]? = some temp ∧ (s.rptr = slots → s.unread = 1)
  | .resetting temp _ =>
      s.rptr = slots ∧ s.buffered[s.returned.length]? = some temp ∧ s.unread = 1

structure Inv (s : Ps2) (base : ℕ) : Prop where
  above : base ≤ s.returned.length
  isPrefix : s.returned <+: s.buffered
  few : s.buffered.length ≤ s.returned.length + (slots - 1)
  wptr : s.wptr = (s.buffered.length - base) % slots
  window : s.Window base s.firstKept
  reader : s.ReaderInv base

variable {s : Ps2} {base lo : ℕ}

/-- A key that is put in goes to a slot of its own. -/
theorem Window.insert (window : s.Window base lo) (isBase : base ≤ lo)
    (few : s.buffered.length < lo + slots) (above : lo ≤ s.buffered.length)
    (wptr : s.wptr = (s.buffered.length - base) % slots) (key : BitVec 32) :
    (s.insert key).Window base lo where
  keys := by
    intro j lower upper
    simp only [Ps2.insert, List.length_append, List.length_singleton] at upper ⊢
    by_cases isNew : j = s.buffered.length
    · subst isNew
      rw [← wptr, Function.update_self, Function.update_self]
      simp
    · have old : j < s.buffered.length := by omega
      have ne : (j - base) % slots ≠ s.wptr := by
        rw [wptr]
        unfold slots at *
        omega
      rw [Function.update_of_ne ne, Function.update_of_ne ne, List.getElem?_append_left old]
      exact window.keys j lower old
  others := by
    intro k lt isReady
    simp only [Ps2.insert, List.length_append, List.length_singleton] at isReady ⊢
    by_cases isHere : k = s.wptr
    · exact ⟨s.buffered.length, above, Nat.lt_succ_self _, isHere.trans wptr⟩
    · rw [Function.update_of_ne isHere] at isReady
      rcases window.others k lt isReady with ⟨j, lower, upper, isSlot⟩
      exact ⟨j, lower, Nat.lt_succ_of_lt upper, isSlot⟩

/-- The slot of the first key is cleared. -/
theorem Window.clear (window : s.Window base lo) (isBase : base ≤ lo)
    (few : s.buffered.length < lo + slots) (reader : Reader) (inside : lo - base < slots) :
    Window { s with ready := Function.update s.ready (lo - base) 0, reader } base (lo + 1) where
  keys := by
    intro j lower upper
    have upper' : j < s.buffered.length := upper
    have ne : (j - base) % slots ≠ lo - base := by
      unfold slots at *
      omega
    simp only [Function.update_of_ne ne]
    exact window.keys j (by omega) upper
  others := by
    intro k lt isReady
    simp only at isReady ⊢
    by_cases isHere : k = lo - base
    · rw [isHere, Function.update_self] at isReady
      exact absurd rfl isReady
    · rw [Function.update_of_ne isHere] at isReady
      rcases window.others k lt isReady with ⟨j, lower, upper, isSlot⟩
      refine ⟨j, ?_, upper, isSlot⟩
      rcases Nat.eq_or_lt_of_le lower with rfl | later
      · rw [Nat.mod_eq_of_lt inside] at isSlot
        exact absurd isSlot isHere
      · exact later

/-- Nothing is ready where no key is kept. -/
theorem Window.ready_eq_zero (window : s.Window base lo) (none : s.buffered.length ≤ lo) {k : ℕ}
    (lt : k < slots) : s.ready k = 0 := by
  by_contra isReady
  rcases window.others k lt isReady with ⟨j, lower, upper, _⟩
  omega

/-! ## The steps -/

/-- A byte puts a key in or changes no more than the scan code. -/
theorem ps2Data_cases (s : Ps2) (data : BitVec 32) :
    (s.Inserts data ∧ s.ps2Data data = { s.insert (s.scanCode data) with keyBuffer := 0 }) ∨
      ∃ code, s.ps2Data data = { s with keyBuffer := code } := by
  unfold ps2Data
  by_cases isAck : data = 0xfa
  · exact .inr ⟨s.keyBuffer, by rw [if_pos isAck]⟩
  · rw [if_neg isAck]
    by_cases isLast : data < 0x80
    · rw [if_pos isLast]
      by_cases isShort : s.scanCode data &&& 0x7f = s.scanCode data
      · exact .inl ⟨⟨isAck, isLast, isShort⟩, by rw [if_pos isShort]⟩
      · exact .inr ⟨0, by rw [if_neg isShort]⟩
    · exact .inr ⟨_, by rw [if_neg isLast]⟩

theorem Inv.code (inv : s.Inv base) (code : BitVec 32) :
    Inv { s with keyBuffer := code } base :=
  ⟨inv.above, inv.isPrefix, inv.few, inv.wptr, ⟨inv.window.keys, inv.window.others⟩, inv.reader⟩

theorem Inv.length_le (inv : s.Inv base) : s.returned.length ≤ s.buffered.length :=
  inv.isPrefix.length_le

/-- The key that is being read is the one after those returned. -/
theorem Inv.firstKept_le (inv : s.Inv base) : s.firstKept ≤ s.buffered.length := by
  have le := inv.length_le
  have isReader := inv.reader
  unfold ReaderInv at isReader
  unfold firstKept
  cases isAt : s.reader with
  | idle | found | loaded => exact le
  | cleared | advanced =>
      simp only [isAt] at isReader
      exact (List.getElem?_eq_some_iff.mp isReader.2.2.1).1
  | resetting =>
      simp only [isAt] at isReader
      exact (List.getElem?_eq_some_iff.mp isReader.2.1).1

theorem returned_le_firstKept (s : Ps2) : s.returned.length ≤ s.firstKept := by
  unfold firstKept
  split <;> omega

/-- What a call has done stands when a key is put in, unless it takes the key of the last
slot. -/
theorem ReaderInv.insert (isReader : s.ReaderInv base) (le : s.returned.length ≤ s.buffered.length)
    (notLast : s.takesLast = false) (key : BitVec 32) : (s.insert key).ReaderInv base := by
  have kept : ∀ {temp}, s.buffered[s.returned.length]? = some temp →
      (s.buffered ++ [key])[s.returned.length]? = some temp := by
    intro temp isNext
    rw [List.getElem?_append_left (List.getElem?_eq_some_iff.mp isNext).1, isNext]
  unfold ReaderInv at isReader ⊢
  unfold takesLast at notLast
  cases isAt : s.reader with
  | idle =>
      simp only [isAt, Ps2.insert] at isReader ⊢
      exact isReader
  | found =>
      simp only [isAt, Ps2.insert, unread, List.length_append, List.length_singleton]
        at isReader notLast ⊢
      refine ⟨isReader.1, isReader.2.1, by omega, fun isLast => absurd isLast ?_⟩
      exact beq_eq_false_iff_ne.mp notLast
  | loaded temp | cleared temp =>
      simp only [isAt, Ps2.insert] at isReader notLast ⊢
      refine ⟨isReader.1, isReader.2.1, kept isReader.2.2.1, fun isLast => absurd isLast ?_⟩
      exact beq_eq_false_iff_ne.mp notLast
  | advanced temp =>
      simp only [isAt, Ps2.insert] at isReader notLast ⊢
      refine ⟨isReader.1, isReader.2.1, kept isReader.2.2.1, fun isLast => absurd isLast ?_⟩
      exact beq_eq_false_iff_ne.mp notLast
  | resetting temp i =>
      rw [isAt] at notLast
      exact absurd notLast Bool.noConfusion

/-- A key is put in behind the others. -/
theorem Inv.insert (inv : s.Inv base) (paced : s.unread < slots - 1)
    (notLast : s.takesLast = false) (key : BitVec 32) : (s.insert key).Inv base where
  above := inv.above
  isPrefix := inv.isPrefix.trans (List.prefix_append _ _)
  few := by
    simp only [Ps2.insert, List.length_append, List.length_singleton]
    unfold unread at paced
    omega
  wptr := by
    have le := inv.length_le
    have above := inv.above
    simp only [Ps2.insert, List.length_append, List.length_singleton, inv.wptr]
    unfold slots
    omega
  window := by
    have above := inv.above
    have lower := s.returned_le_firstKept
    refine inv.window.insert (Nat.le_trans above lower) ?_ inv.firstKept_le inv.wptr key
    have few := inv.few
    unfold slots at *
    omega
  reader := inv.reader.insert inv.length_le notLast key

theorem Window.of_empty (none : s.buffered.length ≤ lo) (empty : ∀ k < slots, s.ready k = 0) :
    s.Window base lo where
  keys := fun _ lower upper => absurd (Nat.lt_of_lt_of_le upper none) (Nat.not_lt.mpr lower)
  others := fun k lt isReady => absurd (empty k lt) isReady

/-- The key that is returned is the next one. -/
theorem returned_prefix (isPrefix : s.returned <+: s.buffered) {temp : BitVec 32}
    (isNext : s.buffered[s.returned.length]? = some temp) :
    s.returned ++ [temp] <+: s.buffered := by
  rcases isPrefix with ⟨rest, isRest⟩
  rw [← isRest, List.getElem?_append_right Nat.le.refl, Nat.sub_self] at isNext
  cases rest with
  | nil => exact absurd isNext (by simp)
  | cons first others =>
      have isFirst : first = temp := by simpa using isNext
      exact ⟨others, by rw [← isRest, isFirst, List.append_assoc, List.singleton_append]⟩

/-- A step of a call of `kernel_getkey` keeps the invariant, with the keys numbered anew from the
next one on when the buffer has been reset. -/
theorem Inv.getkey (inv : s.Inv base) (alone : s.LastAlone .getkey) :
    ∃ base, s.getkey.Inv base := by
  have le := inv.length_le
  have above := inv.above
  have few := inv.few
  have isReader := inv.reader
  have window := inv.window
  unfold ReaderInv at isReader
  unfold firstKept at window
  unfold Ps2.getkey
  cases isAt : s.reader with
  | idle =>
      simp only [isAt] at isReader window ⊢
      by_cases noKey : s.ready s.rptr = 0
      · rw [if_pos noKey]
        exact ⟨base, inv⟩
      · rw [if_neg noKey]
        refine ⟨base, above, inv.isPrefix, few, inv.wptr, ⟨window.keys, window.others⟩, ?_⟩
        rcases window.others s.rptr isReader.2 noKey with ⟨j, lower, upper, _⟩
        refine ⟨isReader.1, isReader.2, ?_, alone isAt noKey⟩
        change 0 < s.buffered.length - s.returned.length
        omega
  | found =>
      simp only [isAt] at isReader window ⊢
      rcases isReader with ⟨isRptr, lt, hasKey, isAlone⟩
      refine ⟨base, above, inv.isPrefix, few, inv.wptr, ⟨window.keys, window.others⟩, ?_⟩
      refine ⟨isRptr, lt, ?_, isAlone⟩
      have isNext := (window.keys s.returned.length Nat.le.refl
        (Nat.lt_of_sub_pos hasKey)).2
      rw [← isRptr, Nat.mod_eq_of_lt lt] at isNext
      exact isNext
  | loaded temp =>
      simp only [isAt] at isReader window ⊢
      rcases isReader with ⟨isRptr, lt, isNext, isAlone⟩
      have fits : s.buffered.length < s.returned.length + slots := Nat.lt_succ_of_le few
      have cleared := window.clear above fits (.cleared temp) (isRptr ▸ lt)
      rw [← isRptr] at cleared
      exact ⟨base, above, inv.isPrefix, few, inv.wptr, cleared, isRptr, lt, isNext, isAlone⟩
  | cleared temp =>
      simp only [isAt] at isReader window ⊢
      rcases isReader with ⟨isRptr, lt, isNext, isAlone⟩
      refine ⟨base, above, inv.isPrefix, few, inv.wptr, ⟨window.keys, window.others⟩, ?_⟩
      refine ⟨?_, lt, isNext, fun isLast => isAlone ?_⟩
      · change s.rptr + 1 = s.returned.length + 1 - base
        omega
      · change s.rptr + 1 = slots at isLast
        omega
  | advanced temp =>
      simp only [isAt] at isReader window ⊢
      rcases isReader with ⟨isRptr, lt, isNext, isAlone⟩
      by_cases isLast : s.rptr = slots
      · rw [if_pos isLast]
        refine ⟨base, above, inv.isPrefix, few, inv.wptr, ⟨window.keys, window.others⟩, ?_⟩
        exact ⟨isLast, isNext, isAlone isLast⟩
      · rw [if_neg isLast]
        have length : (s.returned ++ [temp]).length = s.returned.length + 1 :=
          List.length_append
        refine ⟨base, ?_, returned_prefix inv.isPrefix isNext, ?_, inv.wptr, ?_, ?_⟩
        · rw [length]
          omega
        · simp only [length]
          omega
        · simp only [firstKept, length]
          exact ⟨window.keys, window.others⟩
        · simp only [ReaderInv, length]
          exact ⟨isRptr, by omega⟩
  | resetting temp i =>
      simp only [isAt] at isReader window ⊢
      rcases isReader with ⟨isRptr, isNext, isAlone⟩
      have noOther : s.buffered.length = s.returned.length + 1 := by
        unfold unread at isAlone
        omega
      have empty : ∀ k < slots, s.ready k = 0 := fun k lt =>
        window.ready_eq_zero (Nat.le_of_eq noOther) lt
      by_cases lt : i < slots
      · rw [if_pos lt]
        refine ⟨base, above, inv.isPrefix, few, inv.wptr, ?_, isRptr, isNext, isAlone⟩
        refine Window.of_empty (Nat.le_of_eq noOther) fun k bound => ?_
        by_cases isHere : k = i
        · exact isHere ▸ Function.update_self i 0 s.ready
        · exact (Function.update_of_ne isHere 0 s.ready).trans (empty k bound)
      · rw [if_neg lt]
        have length : (s.returned ++ [temp]).length = s.buffered.length := by
          rw [noOther, List.length_append, List.length_singleton]
        refine ⟨s.buffered.length, Nat.le_of_eq length.symm,
          returned_prefix inv.isPrefix isNext, ?_, ?_, ?_, ?_, ?_⟩
        · simp only [length]
          exact Nat.le_add_right _ _
        · simp only [Nat.sub_self, Nat.zero_mod]
        · exact Window.of_empty (Nat.le_of_eq length.symm) empty
        · simp only [length, Nat.sub_self]
        · exact Nat.zero_lt_succ _

theorem Inv.initBuffer : initBuffer.Inv 0 where
  above := Nat.le.refl
  isPrefix := List.prefix_rfl
  few := Nat.zero_le _
  wptr := rfl
  window := Window.of_empty Nat.le.refl fun _ _ => rfl
  reader := ⟨rfl, Nat.zero_lt_succ _⟩

theorem Inv.step (inv : s.Inv base) {op : KeyOp} (paced : s.Paced op) (alone : s.LastAlone op)
    {next : Ps2} (stepped : s.step op = some next) : ∃ base, next.Inv base := by
  cases op with
  | scan data =>
      rw [← Option.some.inj stepped]
      rcases s.ps2Data_cases data with ⟨inserts, isNext⟩ | ⟨code, isNext⟩
      · rw [isNext]
        exact ⟨base, (inv.insert (paced inserts) (alone inserts) _).code 0⟩
      · rw [isNext]
        exact ⟨base, inv.code code⟩
  | getkey =>
      rw [← Option.some.inj stepped]
      exact inv.getkey alone

theorem Inv.fifo (inv : s.Inv base) : s.Fifo := by
  refine ⟨inv.isPrefix, fun isIdle noKey => inv.isPrefix.eq_of_length_le ?_⟩
  by_contra hasKey
  have isReader := inv.reader
  have window := inv.window
  simp only [ReaderInv, isIdle] at isReader
  simp only [firstKept, isIdle] at window
  have isReady := (window.keys s.returned.length Nat.le.refl (Nat.not_le.mp hasKey)).1
  rw [← isReader.1, Nat.mod_eq_of_lt isReader.2, noKey] at isReady
  exact absurd isReady (by decide)

/-- The keys that calls return are those put in, in their order, as long as the key of the last
slot is always taken alone. -/
theorem fifo_of_reach
    (reached : GuardedReach step (fun s op => s.Paced op ∧ s.LastAlone op) (· = initBuffer) s) :
    s.Fifo := by
  let kept : Ps2 → Prop := fun s => ∃ base, s.Inv base
  have holds : kept s := by
    apply reached.invariant
    · rintro _ rfl
      exact ⟨0, Inv.initBuffer⟩
    · rintro state op next ⟨base, inv⟩ ⟨paced, alone⟩ stepped
      exact inv.step paced alone stepped
  rcases holds with ⟨base, inv⟩
  exact inv.fifo

/-- Forty keys, each of which is read before the next one comes. -/
def oneByOne : List KeyOp :=
  (List.range 40).flatMap fun n => .scan (BitVec.ofNat 32 n) :: List.replicate 40 .getkey

theorem fifo_of_reach_oneByOne :
    ∃ s, run step initBuffer oneByOne = some s ∧ s.returned.length = 40 ∧ s.Fifo := by
  have ran : ∃ s, run step initBuffer oneByOne = some s ∧ s.returned.length = 40 := by
    cases isRun : run step initBuffer oneByOne with
    | none => exact absurd isRun (by decide +kernel)
    | some s =>
        have length : (run step initBuffer oneByOne).map (·.returned.length) = some 40 := by
          decide +kernel
        rw [isRun] at length
        exact ⟨s, rfl, Option.some.inj length⟩
  rcases ran with ⟨s, isRun, length⟩
  have guarded : GuardedRun step (fun s op => s.Paced op ∧ s.LastAlone op) initBuffer oneByOne := by
    decide +kernel
  have started : GuardedReach step (fun s op => s.Paced op ∧ s.LastAlone op) (· = initBuffer)
      initBuffer := .start rfl
  exact ⟨s, isRun, length, fifo_of_reach (started.of_run guarded isRun)⟩

/-- Thirty-one keys of which two are read, and then two more keys: the second of them is in slot 0
when the one of slot 31 is taken. -/
def lastTwo : List KeyOp :=
  (List.range 31).map (fun n => .scan (BitVec.ofNat 32 n)) ++ List.replicate 10 .getkey ++
    [.scan 31, .scan 32] ++ List.replicate 200 .getkey

theorem not_fifo_lastTwo :
    ¬∀ s : Ps2, GuardedReach step Paced (· = initBuffer) s → s.Fifo := by
  intro always
  have fails : (run step initBuffer lastTwo).any (fun s => !decide s.Fifo) = true := by
    decide +kernel
  rcases Option.any_eq_true _ _ |>.mp fails with ⟨s, isRun, notFifo⟩
  have guarded : GuardedRun step Paced initBuffer lastTwo := by decide +kernel
  have started : GuardedReach step Paced (· = initBuffer) initBuffer := .start rfl
  simp [always s (started.of_run guarded isRun)] at notFifo

end Ps2

end Ninix.Keyboard
