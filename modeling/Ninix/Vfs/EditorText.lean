import Mathlib.Data.List.Basic
import Ninix.Vfs.Editor

/-!
# What the editor edits

Whoever uses `vi` sees a text with a cursor in it, and a line for commands. A key puts a character
in at the cursor, takes one out, or moves the cursor in its line or to the beginning of another one.
The buffer holds that text with a newline behind it, and spaces where characters have been taken
out.
-/

namespace Ninix.Vi

/-- The mode, with the characters behind the colon of the last line. -/
inductive Mode
  | command
  | insert
  | lastLine (typed : List UInt8)
  deriving DecidableEq

inductive Ending
  | quit
  | saved
  deriving DecidableEq

/-- The text in front of the cursor, from the cursor backwards, and the text from it on. -/
structure Draft where
  left : List UInt8
  right : List UInt8
  mode : Mode
  ended : Option Ending
  deriving DecidableEq

namespace Draft

def text (d : Draft) : List UInt8 := d.left.reverse ++ d.right

/-- A file as it has been loaded. -/
def ofFile (file : List UInt8) : Draft := ⟨[], file, .command, none⟩

/-- To the beginning of the line. -/
def lineBegin (d : Draft) : Draft :=
  { d with
    left := d.left.dropWhile (· ≠ keyEnterN)
    right := (d.left.takeWhile (· ≠ keyEnterN)).reverse ++ d.right }

/-- To the beginning of the line, or of the line above if the cursor is there. -/
def lastLine (d : Draft) : Draft :=
  match d.left with
  | [] => d
  | c :: left =>
      if c = keyEnterN then lineBegin { d with left, right := c :: d.right } else d.lineBegin

/-- To the beginning of the line below, if there is one. -/
def nextLine (d : Draft) : Draft :=
  match d.right.dropWhile (· ≠ keyEnterN) with
  | [] => d
  | c :: right =>
      { d with left := c :: ((d.right.takeWhile (· ≠ keyEnterN)).reverse ++ d.left), right }

/-- One character back. -/
def back (d : Draft) : Draft :=
  match d.left with
  | [] => d
  | c :: left => { d with left, right := c :: d.right }

/-- One character on. -/
def forth (d : Draft) : Draft :=
  match d.right with
  | [] => d
  | c :: right => { d with left := c :: d.left, right }

def commandKey (d : Draft) (key : UInt8) : Draft :=
  if key = 'h'.toUInt8 then if d.left.head? = some keyEnterN then d else d.back
  else if key = 'j'.toUInt8 then d.nextLine
  else if key = 'k'.toUInt8 then d.lastLine
  else if key = 'l'.toUInt8 then if d.right.head? = some keyEnterN then d else d.forth
  else if key = 'x'.toUInt8 then { d with right := d.right.tail }
  else if key = 'i'.toUInt8 then { d with mode := .insert }
  else if key = ':'.toUInt8 then { d with mode := .lastLine [] }
  else d

/-- The buffer is full. -/
def Full (d : Draft) : Prop := d.text.length + 1 = bufferSize

instance (d : Draft) : Decidable d.Full := inferInstanceAs (Decidable (_ = _))

def insertKey (d : Draft) (key : UInt8) : Draft :=
  if key = keyEsc then { d with mode := .command }
  else if key = keyDel then { d with left := d.left.tail }
  else if d.Full then d.forth
  else { d with left := key :: d.left }

def lastLineKey (d : Draft) (typed : List UInt8) (key : UInt8) : Draft :=
  if key = keyEsc then { d with mode := .command }
  else if key = keyEnterN then
    if typed = ['q'.toUInt8, '!'.toUInt8] then { d with ended := some .quit }
    else if typed = ['w'.toUInt8, 'q'.toUInt8] then { d with ended := some .saved }
    else d
  else if key = keyDel then { d with mode := .lastLine typed.dropLast }
  else if typed.length + 1 < colLen / 4 then { d with mode := .lastLine (typed ++ [key]) }
  else d

/-- A key, unless the editor has ended. -/
def key (d : Draft) (key : UInt8) : Draft :=
  if d.ended.isSome then d
  else
    match d.mode with
    | .command => d.commandKey key
    | .insert => d.insertKey key
    | .lastLine typed => d.lastLineKey typed (Victrl.lowercase key)

/-- No character is typed at the end of a full buffer. -/
def HasRoom (d : Draft) (key : UInt8) : Prop :=
  d.ended = none → d.mode = .insert → key ≠ keyEsc → key ≠ keyDel → d.Full → d.right ≠ []

instance (d : Draft) (key : UInt8) : Decidable (d.HasRoom key) :=
  inferInstanceAs (Decidable (_ → _))

/-- All keys are typed where there is room. -/
def HaveRoom : Draft → List UInt8 → Prop
  | _, [] => True
  | d, key :: keys => d.HasRoom key ∧ (d.key key).HaveRoom keys

instance : (d : Draft) → (keys : List UInt8) → Decidable (d.HaveRoom keys)
  | _, [] => .isTrue trivial
  | d, key :: keys =>
      let _rest : Decidable ((d.key key).HaveRoom keys) := decideRest (d.key key) keys
      inferInstanceAs (Decidable (_ ∧ _))
where
  decideRest : (d : Draft) → (keys : List UInt8) → Decidable (d.HaveRoom keys)
    | _, [] => .isTrue trivial
    | d, key :: keys =>
        let _rest : Decidable ((d.key key).HaveRoom keys) := decideRest (d.key key) keys
        inferInstanceAs (Decidable (_ ∧ _))

end Draft

/-! ## The text in the buffer -/

/-- A buffer begins with a list. -/
def Spells (buffer : ℕ → UInt8) (list : List UInt8) : Prop :=
  ∀ i < list.length, list[i]? = some (buffer i)

section

variable {buffer buffer' : ℕ → UInt8} {left right : List UInt8} {c : UInt8}

theorem Spells.front (spells : Spells buffer (left ++ right)) : Spells buffer left := by
  intro i lt
  rw [← spells i (by rw [List.length_append]; omega), List.getElem?_append_left lt]

theorem Spells.rest (spells : Spells buffer (left ++ right)) {i : ℕ} (lt : i < right.length) :
    right[i]? = some (buffer (left.length + i)) := by
  rw [← spells (left.length + i) (by rw [List.length_append]; omega),
    List.getElem?_append_right (Nat.le_add_right _ _), Nat.add_sub_cancel_left]

theorem Spells.head (spells : Spells buffer (left ++ c :: right)) : buffer left.length = c := by
  have isHead := spells.rest (i := 0) (Nat.zero_lt_succ _)
  exact (Option.some.inj isHead).symm

/-- A character is put in. -/
theorem Spells.insert (spells : Spells buffer (left ++ right))
    (before : ∀ i < left.length, buffer' i = buffer i) (here : buffer' left.length = c)
    (behind : ∀ i, left.length ≤ i → i < left.length + right.length →
      buffer' (i + 1) = buffer i) : Spells buffer' (left ++ c :: right) := by
  intro i lt
  rw [List.length_append, List.length_cons] at lt
  rcases Nat.lt_trichotomy i left.length with inLeft | rfl | inRight
  · rw [List.getElem?_append_left inLeft, before i inLeft, spells.front i inLeft]
  · rw [List.getElem?_append_right Nat.le.refl, Nat.sub_self, here]
    rfl
  · obtain ⟨j, rfl⟩ : ∃ j, i = left.length + j + 1 := ⟨i - left.length - 1, by omega⟩
    rw [List.getElem?_append_right (by omega),
      show left.length + j + 1 - left.length = j + 1 by omega, List.getElem?_cons_succ,
      behind _ (by omega) (by omega), spells.rest (by omega)]

/-- A character is taken out. -/
theorem Spells.delete (spells : Spells buffer (left ++ c :: right))
    (before : ∀ i < left.length, buffer' i = buffer i)
    (behind : ∀ i, left.length ≤ i → i < left.length + right.length →
      buffer' i = buffer (i + 1)) : Spells buffer' (left ++ right) := by
  intro i lt
  rw [List.length_append] at lt
  by_cases inLeft : i < left.length
  · rw [List.getElem?_append_left inLeft, before i inLeft, spells.front i inLeft]
  · obtain ⟨j, rfl⟩ : ∃ j, i = left.length + j := ⟨i - left.length, by omega⟩
    have inRight : j + 1 < (c :: right).length := by
      rw [List.length_cons]
      omega
    rw [List.getElem?_append_right (by omega), Nat.add_sub_cancel_left,
      behind _ (by omega) (by omega), Nat.add_assoc, ← spells.rest inRight,
      List.getElem?_cons_succ]

end

namespace Victrl

variable {s : Victrl}

/-- What `insert_key` makes of the whole buffer. -/
theorem insertKey_buffer {site : ℕ} (inside : site < s.size) (room : s.size < bufferSize)
    (key : UInt8) :
    ∃ buffer, s.insertKey key site = some { s with buffer, size := s.size + 1 } ∧
      buffer site = key ∧ (∀ i < site, buffer i = s.buffer i) ∧
      (∀ i, site ≤ i → i < s.size → buffer (i + 1) = s.buffer i) ∧
      ∀ i, s.size < i → buffer i = s.buffer i := by
  have fits : site + (s.size - site) < bufferSize := by omega
  rcases insertLoop_spec s site (s.size - site) fits with ⟨buffer, ran, isBuffer⟩
  refine ⟨Function.update buffer site key, ?_, Function.update_self _ _ _, fun i before => ?_,
    fun i lower upper => ?_, fun i behind => ?_⟩
  · rw [insertKey, if_neg (Nat.ne_of_lt room), ran, Option.bind_some,
      write_of_lt (inside.trans room)]
  · rw [Function.update_of_ne (Nat.ne_of_lt before), isBuffer, if_neg (by omega)]
  · rw [Function.update_of_ne (by omega), isBuffer, if_pos (by omega), Nat.add_sub_cancel]
  · rw [Function.update_of_ne (by omega), isBuffer, if_neg (by omega)]

/-- What `delete_key` makes of the whole buffer. -/
theorem deleteKey_buffer {site : ℕ} (inside : site + 1 < s.size) (fits : s.size ≤ bufferSize) :
    ∃ buffer, s.deleteKey site = some { s with buffer, size := s.size - 1 } ∧
      (∀ i < site, buffer i = s.buffer i) ∧
      (∀ i, site ≤ i → i + 1 < s.size → buffer i = s.buffer (i + 1)) ∧
      buffer (s.size - 1) = keySpc ∧ ∀ i, s.size ≤ i → buffer i = s.buffer i := by
  have bound : site + (s.size - 1 - site) < bufferSize := by omega
  rcases deleteLoop_spec s (s.size - 1 - site) site bound with ⟨buffer, ran, isBuffer⟩
  refine ⟨Function.update buffer (s.size - 1) keySpc, ?_, fun i before => ?_,
    fun i lower upper => ?_, Function.update_self _ _ _, fun i behind => ?_⟩
  · have last : s.size - 1 < bufferSize := by omega
    rw [deleteKey, if_neg (by omega), ran, Option.bind_some]
    exact congrArg (Option.map _) (write_of_lt last keySpc)
  · rw [Function.update_of_ne (by omega), isBuffer, if_neg (by omega)]
  · rw [Function.update_of_ne (by omega), isBuffer, if_pos (by omega)]
  · rw [Function.update_of_ne (by omega), isBuffer, if_neg (by omega)]

/-- The loops that go back end behind the newline in front of the cursor. -/
theorem lineBegin_eq (s : Victrl) (left : List UInt8) (fits : left.length ≤ bufferSize)
    (spells : Spells s.buffer left.reverse) :
    s.lineBegin left.length = some (left.dropWhile (· ≠ keyEnterN)).length := by
  induction left with
  | nil => rfl
  | cons c left ih =>
      rw [List.reverse_cons] at spells
      have isHead := spells.head
      rw [List.length_reverse] at isHead
      have inside : left.length < bufferSize := fits
      rw [List.length_cons, lineBegin, read_of_lt inside, Option.bind_some, isHead]
      by_cases isNewline : c = keyEnterN
      · rw [if_neg (not_not_intro isNewline), List.dropWhile_cons_of_neg (by simpa using isNewline),
          List.length_cons]
      · rw [if_pos isNewline, List.dropWhile_cons_of_pos (by simpa using isNewline),
          ih inside.le spells.front]

/-- The loops that go on end at the next newline or behind the text. -/
theorem lineEnd_eq (s : Victrl) (right : List UInt8) {loc : ℕ}
    (fits : loc + right.length ≤ bufferSize)
    (spells : ∀ i < right.length, right[i]? = some (s.buffer (loc + i))) :
    s.lineEnd right.length loc = some (loc + (right.takeWhile (· ≠ keyEnterN)).length) := by
  induction right generalizing loc with
  | nil => rfl
  | cons c right ih =>
      rw [List.length_cons] at fits
      have isHead : s.buffer loc = c := (Option.some.inj (spells 0 (Nat.zero_lt_succ _))).symm
      rw [List.length_cons, lineEnd, read_of_lt (by omega), Option.bind_some, isHead]
      by_cases isNewline : c = keyEnterN
      · rw [if_neg (not_not_intro isNewline),
          List.takeWhile_cons_of_neg (by simpa using isNewline)]
        rfl
      · have rest : ∀ i < right.length, right[i]? = some (s.buffer (loc + 1 + i)) := by
          intro i lt
          rw [Nat.add_assoc, Nat.add_comm 1, ← spells (i + 1) (Nat.succ_lt_succ lt),
            List.getElem?_cons_succ]
        rw [if_pos isNewline, List.takeWhile_cons_of_pos (by simpa using isNewline),
          ih (by omega) rest, List.length_cons]
        congr 1
        omega

end Victrl

/-! ## The keys -/

/-- The variables that stand for a mode. -/
def Mode.Stands (s : Victrl) : Mode → Prop
  | .command => s.mode = 0
  | .insert => s.mode = 1
  | .lastLine typed =>
      s.mode = 2 ∧ s.instLen = typed.length + 1 ∧ typed.length < colLen / 4 ∧
        Spells (fun i => s.inst (i + 1)) typed

/-- The variables of `vi` stand for a draft, where the file that has been loaded has some length.
Behind the text there are spaces as far as the file went. -/
structure Victrl.Edits (s : Victrl) (d : Draft) (loaded : ℕ) : Prop where
  spells : Spells s.buffer (d.left.reverse ++ (d.right ++ [keyEnterN]))
  size : s.size = d.left.length + d.right.length + 1
  cursor : s.cursorLoc = d.left.length
  fits : s.size ≤ bufferSize
  window : s.pageBeginLoc ≤ bufferSize
  mode : d.mode.Stands s
  again : s.again = d.ended.isNone
  err : s.err = 0
  oldSize : s.oldSize = loaded
  spaces : ∀ i, s.size ≤ i → i ≤ loaded → s.buffer i = keySpc

namespace Victrl.Edits

variable {s : Victrl} {d : Draft} {loaded : ℕ}

theorem drawable (edits : s.Edits d loaded) : s.Drawable :=
  ⟨by rw [edits.size]; exact Nat.le_add_left _ _, edits.fits, edits.window⟩

theorem rewindowed (edits : s.Edits d loaded) {pageBeginLoc : ℕ} (le : pageBeginLoc ≤ bufferSize)
    (pageEndLoc : ℕ) : Edits { s with pageBeginLoc, pageEndLoc } d loaded :=
  ⟨edits.spells, edits.size, edits.cursor, edits.fits, le, edits.mode, edits.again, edits.err,
    edits.oldSize, edits.spaces⟩

theorem adjust (edits : s.Edits d loaded) : ∃ s', s.adjust = some s' ∧ s'.Edits d loaded := by
  rcases edits.drawable.adjust with ⟨pageBeginLoc, pageEndLoc, ran, le⟩
  exact ⟨_, ran, edits.rewindowed le pageEndLoc⟩

theorem screenFlush (edits : s.Edits d loaded) :
    ∃ s', s.screenFlush = some s' ∧ s'.Edits d loaded := by
  rcases edits.drawable.screenFlush with ⟨pageEndLoc, ran⟩
  exact ⟨_, ran, edits.rewindowed edits.window pageEndLoc⟩

/-- The cursor is moved. -/
theorem moved (edits : s.Edits d loaded) {left right : List UInt8} {cursorLoc : ℕ}
    (same : left.reverse ++ right = d.left.reverse ++ d.right) (cursor : cursorLoc = left.length) :
    Edits { s with cursorLoc } { d with left, right } loaded := by
  have length : left.length + right.length = d.left.length + d.right.length := by
    have eq := congrArg List.length same
    rwa [List.length_append, List.length_append, List.length_reverse, List.length_reverse] at eq
  refine ⟨?_, ?_, cursor, edits.fits, edits.window, edits.mode, edits.again, edits.err,
    edits.oldSize, edits.spaces⟩
  · have spells := edits.spells
    rw [← List.append_assoc, ← same, List.append_assoc] at spells
    exact spells
  · rw [length]
    exact edits.size

theorem remoded (edits : s.Edits d loaded) (inst : ℕ → UInt8) (instLen mode : ℕ) {newMode : Mode}
    (stands : newMode.Stands { s with inst, instLen, mode }) :
    Edits { s with inst, instLen, mode } { d with mode := newMode } loaded :=
  ⟨edits.spells, edits.size, edits.cursor, edits.fits, edits.window, by
    cases newMode <;> exact stands, edits.again, edits.err, edits.oldSize, edits.spaces⟩

theorem last (edits : s.Edits d loaded) : sub32 s.size 1 = d.left.length + d.right.length := by
  rw [edits.drawable.last, edits.size, Nat.add_sub_cancel]

/-- What is in front of the cursor. -/
theorem spells_left (edits : s.Edits d loaded) : Spells s.buffer d.left.reverse :=
  edits.spells.front

/-- What is at the cursor and behind it. -/
theorem spells_right (edits : s.Edits d loaded) : ∀ i < (d.right ++ [keyEnterN]).length,
    (d.right ++ [keyEnterN])[i]? = some (s.buffer (s.cursorLoc + i)) := by
  intro i lt
  rw [edits.spells.rest lt, List.length_reverse, edits.cursor]

theorem cursorLastLine (edits : s.Edits d loaded) :
    ∃ s', s.cursorLastLine = some s' ∧ s'.Edits d.lastLine loaded := by
  have cursor := edits.cursor
  have fits : d.left.length ≤ bufferSize := by
    have size := edits.size
    have fits := edits.fits
    omega
  have atBegin := s.lineBegin_eq d.left fits edits.spells_left
  rw [Victrl.cursorLastLine, cursor, atBegin, Option.bind_some]
  cases isLeft : d.left with
  | nil =>
      refine ⟨_, if_pos rfl, ?_⟩
      have same : d.lastLine = d := by
        rw [Draft.lastLine, isLeft]
      rw [same]
      exact edits.moved (rfl : d.left.reverse ++ d.right = _) (by rw [isLeft]; rfl)
  | cons c left =>
      have text := edits.spells_left
      rw [isLeft, List.reverse_cons] at text
      rw [isLeft] at fits
      have shorter : (left.dropWhile (· ≠ keyEnterN)).length ≤ left.length :=
        (List.dropWhile_suffix _).length_le
      by_cases isNewline : c = keyEnterN
      · have before := s.lineBegin_eq left (Nat.le_of_succ_le fits) text.front
        have isBegin : (c :: left).dropWhile (· ≠ keyEnterN) = c :: left :=
          List.dropWhile_cons_of_neg (by simpa using isNewline)
        have isLast : d.lastLine = { d with
            left := left.dropWhile (· ≠ keyEnterN)
            right := (left.takeWhile (· ≠ keyEnterN)).reverse ++ c :: d.right } := by
          rw [Draft.lastLine, isLeft]
          exact if_pos isNewline
        rw [isBegin, if_neg (by simp), if_pos rfl, List.length_cons, Nat.add_sub_cancel, before,
          Option.map_some, isLast]
        refine ⟨_, rfl, edits.moved ?_ rfl⟩
        rw [isLeft, List.reverse_cons, ← List.append_assoc, ← List.reverse_append,
          List.takeWhile_append_dropWhile, List.append_assoc, List.singleton_append]
      · have isBegin : (c :: left).dropWhile (· ≠ keyEnterN) = left.dropWhile (· ≠ keyEnterN) :=
          List.dropWhile_cons_of_pos (by simpa using isNewline)
        have isLast : d.lastLine = { d with
            left := (c :: left).dropWhile (· ≠ keyEnterN)
            right := ((c :: left).takeWhile (· ≠ keyEnterN)).reverse ++ d.right } := by
          rw [Draft.lastLine, isLeft]
          dsimp only
          rw [if_neg isNewline, Draft.lineBegin, isLeft]
        have same : ((c :: left).dropWhile (· ≠ keyEnterN)).reverse ++
            (((c :: left).takeWhile (· ≠ keyEnterN)).reverse ++ d.right) =
              d.left.reverse ++ d.right := by
          rw [isLeft, ← List.append_assoc, ← List.reverse_append, List.takeWhile_append_dropWhile]
        have moved := edits.moved same rfl
        rw [← isLast, isBegin] at moved
        rw [isBegin, List.length_cons]
        by_cases isFirst : (left.dropWhile (· ≠ keyEnterN)).length = 0
        · rw [isFirst] at moved ⊢
          exact ⟨_, if_pos rfl, moved⟩
        · rw [if_neg isFirst, if_neg (by omega)]
          exact ⟨_, rfl, moved⟩

theorem cursorNextLine (edits : s.Edits d loaded) :
    ∃ s', s.cursorNextLine = some s' ∧ s'.Edits d.nextLine loaded := by
  have cursor := edits.cursor
  have fits : s.cursorLoc + d.right.length ≤ bufferSize := by
    have size := edits.size
    have fits := edits.fits
    omega
  have text : ∀ i < d.right.length, d.right[i]? = some (s.buffer (s.cursorLoc + i)) := by
    intro i lt
    rw [← edits.spells_right i (by rw [List.length_append]; omega), List.getElem?_append_left lt]
  have atEnd := s.lineEnd_eq d.right fits text
  have turns : sub32 s.size 1 - s.cursorLoc = d.right.length := by
    rw [edits.last, cursor, Nat.add_sub_cancel_left]
  have parts := List.takeWhile_append_dropWhile (p := (· ≠ keyEnterN)) (l := d.right)
  have lengths := congrArg List.length parts
  rw [List.length_append] at lengths
  rw [Victrl.cursorNextLine, turns, atEnd, Option.map_some, edits.last, cursor]
  cases isRest : d.right.dropWhile (· ≠ keyEnterN) with
  | nil =>
      rw [isRest, List.length_nil] at lengths
      have same : d.nextLine = d := by
        rw [Draft.nextLine, isRest]
      rw [same, if_pos (by omega)]
      exact ⟨s, rfl, edits⟩
  | cons c right =>
      rw [isRest, List.length_cons] at lengths
      have isNext : d.nextLine = { d with
          left := c :: ((d.right.takeWhile (· ≠ keyEnterN)).reverse ++ d.left), right } := by
        rw [Draft.nextLine, isRest]
      rw [isNext, if_neg (by omega)]
      refine ⟨_, rfl, edits.moved ?_ ?_⟩
      · rw [isRest] at parts
        rw [List.reverse_cons, List.reverse_append, List.reverse_reverse, List.append_assoc,
          List.append_assoc, List.singleton_append, parts]
      · rw [List.length_cons, List.length_append, List.length_reverse, Nat.add_comm d.left.length]

/-- A character is put in at the cursor. -/
theorem insertKey (edits : s.Edits d loaded) (notFull : ¬d.Full) (key : UInt8) :
    ∃ buffer, s.insertKey key s.cursorLoc = some { s with buffer, size := s.size + 1 } ∧
      Edits { s with buffer, size := s.size + 1, cursorLoc := s.cursorLoc + 1 }
        { d with left := key :: d.left } loaded := by
  have cursor := edits.cursor
  have size := edits.size
  have fits := edits.fits
  have room : s.size < bufferSize := by
    refine Nat.lt_of_le_of_ne fits fun full => notFull ?_
    rw [Draft.Full, Draft.text, List.length_append, List.length_reverse, ← size, full]
  have inside : s.cursorLoc < s.size := by omega
  rcases Victrl.insertKey_buffer inside room key with
    ⟨buffer, ran, here, before, behind, after⟩
  refine ⟨buffer, ran, ?_, ?_, ?_, room, edits.window, edits.mode, edits.again, edits.err,
    edits.oldSize, fun i lower upper => ?_⟩
  · rw [List.reverse_cons, List.append_assoc, List.singleton_append]
    refine edits.spells.insert ?_ ?_ fun i lower upper => ?_
    · rwa [List.length_reverse, ← cursor]
    · rwa [List.length_reverse, ← cursor]
    · rw [List.length_reverse, ← cursor] at lower upper
      rw [List.length_append, List.length_singleton] at upper
      exact behind i lower (by omega)
  · simp only [List.length_cons]
    omega
  · simp only [List.length_cons]
    omega
  · simp only at lower ⊢
    rw [after i (by omega)]
    exact edits.spaces i (by omega) upper

/-- The character at a place in the text is taken out. -/
theorem deleteKey (edits : s.Edits d loaded) {left right : List UInt8} {c : UInt8}
    (text : left.reverse ++ c :: right = d.left.reverse ++ d.right) :
    ∃ buffer, s.deleteKey left.length = some { s with buffer, size := s.size - 1 } ∧
      Edits { s with buffer, size := s.size - 1, cursorLoc := left.length }
        { d with left, right } loaded := by
  have size := edits.size
  have length : left.length + right.length + 1 = d.left.length + d.right.length := by
    have eq := congrArg List.length text
    rw [List.length_append, List.length_append, List.length_reverse, List.length_reverse,
      List.length_cons] at eq
    omega
  have inside : left.length + 1 < s.size := by omega
  rcases Victrl.deleteKey_buffer inside edits.fits with
    ⟨buffer, ran, before, behind, freed, after⟩
  refine ⟨buffer, ran, ?_, ?_, rfl, Nat.le_trans (Nat.sub_le _ _) edits.fits, edits.window,
    edits.mode, edits.again, edits.err, edits.oldSize, fun i lower upper => ?_⟩
  · have spells := edits.spells
    rw [← List.append_assoc, ← text, List.append_assoc, List.cons_append] at spells
    refine spells.delete (by rwa [List.length_reverse]) fun i lower upper => ?_
    rw [List.length_reverse] at lower upper
    rw [List.length_append, List.length_singleton] at upper
    exact behind i lower (by omega)
  · simp only
    omega
  · simp only at lower ⊢
    by_cases isFreed : i = s.size - 1
    · rw [isFreed, freed]
    · rw [after i (by omega)]
      exact edits.spaces i (by omega) upper

/-- A key moves the cursor one back, unless a newline or nothing is there. -/
theorem back (edits : s.Edits d loaded) :
    ∃ s', (if 0 < s.cursorLoc then
        (s.read (s.cursorLoc - 1)).map fun c =>
          if c ≠ keyEnterN then { s with cursorLoc := s.cursorLoc - 1 } else s
      else some s) = some s' ∧
      s'.Edits (if d.left.head? = some keyEnterN then d else d.back) loaded := by
  have cursor := edits.cursor
  have inside : s.cursorLoc < bufferSize := by
    have size := edits.size
    have fits := edits.fits
    omega
  cases isLeft : d.left with
  | nil =>
      rw [isLeft] at cursor
      have same : d.back = d := by
        rw [Draft.back, isLeft]
      rw [if_neg (by rw [cursor]; exact Nat.lt_irrefl 0), List.head?_nil,
        if_neg (Option.some_ne_none _).symm, same]
      exact ⟨s, rfl, edits⟩
  | cons c left =>
      have isHead := edits.spells_left
      rw [isLeft, List.reverse_cons] at isHead
      have isHead := isHead.head
      rw [isLeft, List.length_cons] at cursor
      rw [List.length_reverse] at isHead
      have before : s.cursorLoc - 1 = left.length := by omega
      rw [if_pos (by omega), Victrl.read_of_lt (by omega), Option.map_some, before, isHead,
        List.head?_cons]
      by_cases isNewline : c = keyEnterN
      · rw [if_neg (not_not_intro isNewline), if_pos (congrArg some isNewline)]
        exact ⟨s, rfl, edits⟩
      · have isBack : d.back = { d with left, right := c :: d.right } := by
          rw [Draft.back, isLeft]
        rw [if_pos isNewline, if_neg fun eq => isNewline (Option.some.inj eq), isBack]
        refine ⟨_, rfl, edits.moved ?_ rfl⟩
        rw [isLeft, List.reverse_cons, List.append_assoc, List.singleton_append]

/-- The cursor goes one on. -/
theorem forth (edits : s.Edits d loaded) (inText : d.right ≠ []) :
    Edits { s with cursorLoc := s.cursorLoc + 1 } d.forth loaded := by
  rcases List.exists_cons_of_ne_nil inText with ⟨c, right, isRight⟩
  have isForth : d.forth = { d with left := c :: d.left, right } := by
    rw [Draft.forth, isRight]
  rw [isForth]
  refine edits.moved ?_ ?_
  · rw [isRight, List.reverse_cons, List.append_assoc, List.singleton_append]
  · rw [edits.cursor, List.length_cons]

/-- A key moves the cursor one on, unless a newline is there. -/
theorem inLine (edits : s.Edits d loaded) :
    ∃ s', (if s.cursorLoc < s.size then
        (s.read s.cursorLoc).map fun c =>
          if c ≠ keyEnterN then { s with cursorLoc := s.cursorLoc + 1 } else s
      else some s) = some s' ∧
      s'.Edits (if d.right.head? = some keyEnterN then d else d.forth) loaded := by
  have cursor := edits.cursor
  have size := edits.size
  have fits := edits.fits
  have isHead := edits.spells_right 0 (by rw [List.length_append]; exact Nat.succ_pos _)
  rw [Nat.add_zero] at isHead
  rw [if_pos (by omega), Victrl.read_of_lt (by omega), Option.map_some]
  cases isRight : d.right with
  | nil =>
      rw [isRight] at isHead
      have isNewline : s.buffer s.cursorLoc = keyEnterN := (Option.some.inj isHead).symm
      have same : d.forth = d := by
        rw [Draft.forth, isRight]
      rw [if_neg (not_not_intro isNewline), same, ite_self]
      exact ⟨s, rfl, edits⟩
  | cons c right =>
      rw [isRight] at isHead
      have isC : s.buffer s.cursorLoc = c := (Option.some.inj isHead).symm
      rw [isC, List.head?_cons]
      by_cases isNewline : c = keyEnterN
      · rw [if_neg (not_not_intro isNewline), if_pos (congrArg some isNewline)]
        exact ⟨s, rfl, edits⟩
      · rw [if_pos isNewline, if_neg fun eq => isNewline (Option.some.inj eq)]
        exact ⟨_, rfl, edits.forth (isRight ▸ List.cons_ne_nil _ _)⟩

theorem commandKey (edits : s.Edits d loaded) (key : UInt8) :
    ∃ s', s.commandKey key = some s' ∧ s'.Edits (d.commandKey key) loaded := by
  have cursor := edits.cursor
  rw [Victrl.commandKey, Draft.commandKey]
  by_cases isH : key = 'h'.toUInt8
  · rw [if_pos isH, if_pos isH]
    exact edits.back
  rw [if_neg isH, if_neg isH]
  by_cases isJ : key = 'j'.toUInt8
  · rw [if_pos isJ, if_pos isJ]
    exact edits.cursorNextLine
  rw [if_neg isJ, if_neg isJ]
  by_cases isK : key = 'k'.toUInt8
  · rw [if_pos isK, if_pos isK]
    exact edits.cursorLastLine
  rw [if_neg isK, if_neg isK]
  by_cases isL : key = 'l'.toUInt8
  · rw [if_pos isL, if_pos isL]
    exact edits.inLine
  rw [if_neg isL, if_neg isL]
  by_cases isX : key = 'x'.toUInt8
  · rw [if_pos isX, if_pos isX, edits.last]
    cases isRight : d.right with
    | nil =>
        rw [if_neg (by rw [cursor]; exact Nat.lt_irrefl _)]
        have same : { d with right := ([] : List UInt8).tail } = d := by
          rw [List.tail_nil, ← isRight]
        rw [same]
        exact ⟨s, rfl, edits⟩
    | cons c right =>
        rw [if_pos (by rw [cursor, List.length_cons]; omega)]
        have text : d.left.reverse ++ c :: right = d.left.reverse ++ d.right := by rw [isRight]
        rcases edits.deleteKey text with ⟨buffer, ran, deleted⟩
        rw [cursor, ran, Option.bind_some, List.tail_cons]
        rw [← cursor] at deleted
        exact deleted.screenFlush
  rw [if_neg isX, if_neg isX]
  by_cases isI : key = 'i'.toUInt8
  · rw [if_pos isI, if_pos isI]
    exact ⟨_, rfl, edits.remoded s.inst s.instLen _ rfl⟩
  rw [if_neg isI, if_neg isI]
  by_cases isColon : key = ':'.toUInt8
  · rw [if_pos isColon, if_pos isColon]
    exact ⟨_, rfl, edits.remoded _ 1 2
      ⟨rfl, rfl, by decide, fun i lt => absurd lt (Nat.not_lt_zero i)⟩⟩
  · rw [if_neg isColon, if_neg isColon]
    exact ⟨s, rfl, edits⟩

theorem insertModeKey (edits : s.Edits d loaded) {key : UInt8}
    (hasRoom : key ≠ keyEsc → key ≠ keyDel → d.Full → d.right ≠ []) :
    ∃ s', s.insertModeKey key = some s' ∧ s'.Edits (d.insertKey key) loaded := by
  have cursor := edits.cursor
  rw [Victrl.insertModeKey, Draft.insertKey]
  by_cases isEsc : key = keyEsc
  · rw [if_pos isEsc, if_pos isEsc]
    exact ⟨_, rfl, edits.remoded s.inst s.instLen _ rfl⟩
  rw [if_neg isEsc, if_neg isEsc]
  by_cases isDel : key = keyDel
  · rw [if_pos isDel, if_pos isDel]
    cases isLeft : d.left with
    | nil =>
        rw [isLeft] at cursor
        have same : { d with left := ([] : List UInt8).tail } = d := by
          rw [List.tail_nil, ← isLeft]
        rw [if_neg (by rw [cursor]; exact Nat.lt_irrefl 0), same]
        exact ⟨s, rfl, edits⟩
    | cons c left =>
        rw [isLeft, List.length_cons] at cursor
        have text : left.reverse ++ c :: d.right = d.left.reverse ++ d.right := by
          rw [isLeft, List.reverse_cons, List.append_assoc, List.singleton_append]
        rcases edits.deleteKey text with ⟨buffer, ran, deleted⟩
        have before : s.cursorLoc - 1 = left.length := by omega
        rw [if_pos (by omega), before, ran, Option.bind_some, List.tail_cons]
        have flushed := deleted.screenFlush
        rwa [← before] at flushed
  rw [if_neg isDel, if_neg isDel]
  by_cases full : d.Full
  · have isFull : s.size = bufferSize := by
      rw [edits.size, ← full, Draft.text, List.length_append, List.length_reverse]
    rw [if_pos full, Victrl.insertKey, if_pos isFull, Option.bind_some]
    exact (edits.forth (hasRoom isEsc isDel full)).screenFlush
  · rcases edits.insertKey full key with ⟨buffer, ran, inserted⟩
    rw [if_neg full, ran, Option.bind_some]
    exact inserted.screenFlush

/-- A line that is typed -/
theorem retyped (edits : s.Edits d loaded) {inst : ℕ → UInt8} {instLen : ℕ} {typed : List UInt8}
    (isMode : s.mode = 2) (length : instLen = typed.length + 1) (short : typed.length < colLen / 4)
    (spells : Spells (fun i => inst (i + 1)) typed) :
    Edits { s with inst, instLen } { d with mode := .lastLine typed } loaded :=
  edits.remoded inst instLen s.mode ⟨isMode, length, short, spells⟩

/-- The end -/
theorem quits (edits : s.Edits d loaded) {err : ℕ} (isOk : err = 0) {ending : Ending} :
    Edits { s with again := false, err } { d with ended := some ending } loaded := by
  refine ⟨edits.spells, edits.size, edits.cursor, edits.fits, edits.window, ?_, rfl, isOk,
    edits.oldSize, edits.spaces⟩
  have stands := edits.mode
  cases isMode : d.mode <;> rw [isMode] at stands <;> exact stands

theorem spells_pair {inst : ℕ → UInt8} {typed : List UInt8}
    (spells : Spells (fun i => inst (i + 1)) typed) (a b : UInt8) :
    (typed.length + 1 = 3 ∧ inst 1 = a ∧ inst 2 = b) ↔ typed = [a, b] := by
  constructor
  · rintro ⟨length, rfl, rfl⟩
    obtain ⟨x, y, rfl⟩ := List.length_eq_two.mp (Nat.succ.inj length)
    have first := Option.some.inj (spells 0 (Nat.zero_lt_succ _))
    have second := Option.some.inj (spells 1 (Nat.lt_succ_self _))
    rw [first, second]
  · rintro rfl
    have first := Option.some.inj (spells 0 (Nat.zero_lt_succ _))
    have second := Option.some.inj (spells 1 (Nat.lt_succ_self _))
    exact ⟨rfl, first.symm, second.symm⟩

theorem lastLineKey (edits : s.Edits d loaded) {typed : List UInt8}
    (isMode : d.mode = .lastLine typed) (key : UInt8) :
    (s.lastLineKey key 0).Edits (d.lastLineKey typed key) loaded := by
  have stands := edits.mode
  rw [isMode] at stands
  rcases stands with ⟨mode, instLen, short, spells⟩
  have same : d = { d with mode := .lastLine typed } := by
    rw [← isMode]
  rw [Victrl.lastLineKey, Draft.lastLineKey]
  by_cases isEsc : key = keyEsc
  · rw [if_pos isEsc, if_pos isEsc]
    exact edits.remoded _ 0 0 rfl
  rw [if_neg isEsc, if_neg isEsc]
  by_cases isEnter : key = keyEnterN
  · have quits := spells_pair spells 'q'.toUInt8 '!'.toUInt8
    have saves := spells_pair spells 'w'.toUInt8 'q'.toUInt8
    rw [← instLen] at quits saves
    rw [if_pos isEnter, if_pos isEnter]
    by_cases isQuit : typed = ['q'.toUInt8, '!'.toUInt8]
    · rw [if_pos (quits.mpr isQuit), if_pos isQuit]
      exact edits.quits edits.err
    rw [if_neg (mt quits.mp isQuit), if_neg isQuit]
    by_cases isSave : typed = ['w'.toUInt8, 'q'.toUInt8]
    · rw [if_pos (saves.mpr isSave), if_pos isSave]
      exact edits.quits rfl
    · rw [if_neg (mt saves.mp isSave), if_neg isSave]
      exact edits
  rw [if_neg isEnter, if_neg isEnter]
  by_cases isDel : key = keyDel
  · rw [if_pos isDel, if_pos isDel]
    by_cases some_ : 1 < s.instLen
    · rw [if_pos some_]
      have length : typed.dropLast.length = typed.length - 1 := List.length_dropLast
      refine edits.retyped mode ?_ ?_ fun i lt => ?_
      · omega
      · omega
      · have shown := spells i (by omega)
        simp only at shown ⊢
        rw [Function.update_of_ne (by omega), ← shown, List.getElem?_dropLast, if_pos (by omega)]
    · have none_ : typed = [] := List.length_eq_zero_iff.mp (by omega)
      rw [if_neg some_, none_, List.dropLast_nil, ← none_, ← isMode]
      exact edits
  rw [if_neg isDel, if_neg isDel]
  by_cases room : s.instLen < colLen / 4
  · rw [if_pos room, if_pos (instLen ▸ room)]
    refine edits.retyped mode ?_ ?_ fun i lt => ?_
    · rw [instLen, List.length_append, List.length_singleton]
    · rw [List.length_append, List.length_singleton]
      exact instLen ▸ room
    · rw [List.length_append, List.length_singleton] at lt
      by_cases isNew : i = typed.length
      · subst isNew
        rw [List.getElem?_concat_length, instLen]
        simp only [Function.update_self]
      · rw [List.getElem?_append_left (by omega), spells i (by omega)]
        exact congrArg some (Function.update_of_ne (by omega) _ _).symm
  · rw [if_neg room, if_neg (instLen ▸ room)]
    exact edits

/-- A key does to the buffer and the cursor what it does to the draft. -/
theorem step (edits : s.Edits d loaded) {key : UInt8} (running : d.ended = none)
    (hasRoom : d.HasRoom key) :
    ∃ s', s.step ⟨key, 0⟩ = some s' ∧ s'.Edits (d.key key) loaded := by
  have stands := edits.mode
  have goesOn : ¬d.ended.isSome = true := by
    rw [running]
    exact Bool.false_ne_true
  rw [Victrl.step, Draft.key, if_neg goesOn]
  cases isMode : d.mode with
  | command =>
      rw [isMode] at stands
      have isCommand : s.mode = 0 := stands
      rcases edits.commandKey key with ⟨s₁, ran, edits₁⟩
      rw [if_pos isCommand, doCommandMode, ran, Option.bind_some]
      exact edits₁.adjust
  | insert =>
      rw [isMode] at stands
      have isInsert : s.mode = 1 := stands
      rcases edits.insertModeKey (hasRoom running isMode) with ⟨s₁, ran, edits₁⟩
      rw [if_neg (by omega), if_pos isInsert, doInsertMode, ran, Option.bind_some]
      exact edits₁.adjust
  | lastLine typed =>
      rw [isMode] at stands
      have isLastLine : s.mode = 2 := stands.1
      rw [if_neg (by omega), if_neg (by omega), if_pos isLastLine, doLastLineMode]
      exact (edits.lastLineKey isMode (lowercase key)).screenFlush

end Victrl.Edits

end Ninix.Vi
