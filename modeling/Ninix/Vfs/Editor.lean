import Mathlib.Logic.Function.Basic
import Mathlib.Tactic.SplitIfs
import Ninix.Driver.Disk
import Ninix.Library.Reachability

/-!
# The editor

`vi` keeps a text in a buffer of `BUFFER_SIZE` bytes, which always ends with a newline, and a
cursor in it. A key is handled according to the mode. In the insert mode the cursor goes one on
with every key, also when the buffer is full and the key is not put in: it then leaves the text.
An access outside the buffer is `none`. A file without bytes is loaded by a read of 0 bytes, for
which `generic_file_read` copies whole pages.
-/

namespace Ninix.Vi

open TransitionSystem

/-- `BUFFER_SIZE` -/
def bufferSize : ℕ := 4096

/-- `ROW_LEN` -/
def rowLen : ℕ := 29

/-- `COL_LEN` -/
def colLen : ℕ := 80

/-- `KEY_DEL` -/
def keyDel : UInt8 := 0x8

/-- `KEY_TAB` -/
def keyTab : UInt8 := 0x9

/-- `KEY_ENTER_N` -/
def keyEnterN : UInt8 := 0xa

/-- `KEY_ENTER_R` -/
def keyEnterR : UInt8 := 0xd

/-- `KEY_ESC` -/
def keyEsc : UInt8 := 0x1b

/-- `KEY_SPC` -/
def keySpc : UInt8 := 0x20

/-- `-EREAD` -/
def eread : ℕ := minusOne32 + 1 - 521

/-- `-ESIZE` -/
def esize : ℕ := minusOne32 + 1 - 523

/-- `struct victrl` -/
structure Victrl where
  buffer : ℕ → UInt8
  inst : ℕ → UInt8
  instLen : ℕ
  oldSize : ℕ
  size : ℕ
  cursorLoc : ℕ
  pageBeginLoc : ℕ
  pageEndLoc : ℕ
  mode : ℕ
  again : Bool
  err : ℕ

namespace Victrl

/-- `init_vi` -/
def initVi : Victrl where
  buffer := fun _ => 0
  inst := fun _ => 0
  instLen := 0
  oldSize := 0
  size := 0
  cursorLoc := 0
  pageBeginLoc := 0
  pageEndLoc := 0
  mode := 0
  again := true
  err := 0

/-- `load_file` of a file that can be opened, where `read` copies the given bytes, all of which
need a place in the buffer, and `vfs_close` returns `closed` -/
def loadFile (s : Victrl) (filesize : ℕ) (copied : List UInt8) (closed : ℕ) :
    Option (ℕ × Victrl) :=
  if bufferSize ≤ filesize then some (esize, s)
  else if bufferSize < copied.length then none
  else
    let s := { s with
      oldSize := filesize
      size := filesize
      buffer := fun i => if i < copied.length then copied.getD i 0 else s.buffer i }
    if copied.length < s.size then some (eread, s)
    else
      some (closed,
        { s with buffer := Function.update s.buffer s.size keyEnterN, size := s.size + 1 })

/-! ## The text -/

def read (s : Victrl) (i : ℕ) : Option UInt8 :=
  if i < bufferSize then some (s.buffer i) else none

def write (s : Victrl) (i : ℕ) (c : UInt8) : Option Victrl :=
  if i < bufferSize then some { s with buffer := Function.update s.buffer i c } else none

/-- The loop of `insert_key`, with `i` going down from `site + n - 1` -/
def insertLoop (site : ℕ) : Victrl → ℕ → Option Victrl
  | s, 0 => some s
  | s, n + 1 =>
      (s.read (site + n)).bind fun c =>
        (s.write (site + n + 1) c).bind fun s => insertLoop site s n

/-- `insert_key` -/
def insertKey (s : Victrl) (key : UInt8) (site : ℕ) : Option Victrl :=
  if s.size = bufferSize then some s
  else
    (insertLoop site s (s.size - site)).bind fun s =>
      { s with size := s.size + 1 }.write site key

/-- The loop of `delete_key`, with `n` turns to go -/
def deleteLoop : Victrl → ℕ → ℕ → Option Victrl
  | s, 0, _ => some s
  | s, n + 1, i =>
      (s.read (i + 1)).bind fun c => (s.write i c).bind fun s => deleteLoop s n (i + 1)

/-- `delete_key` -/
def deleteKey (s : Victrl) (site : ℕ) : Option Victrl :=
  if s.size = 0 then some s
  else
    (deleteLoop s (s.size - 1 - site) site).bind fun s =>
      (s.write (s.size - 1) keySpc).map fun s => { s with size := s.size - 1 }

/-- The loops that go back to a newline, where `loc + 1` is the argument and the result -/
def lineBegin (s : Victrl) : ℕ → Option ℕ
  | 0 => some 0
  | n + 1 => (s.read n).bind fun c => if c ≠ keyEnterN then s.lineBegin n else some (n + 1)

/-- The loops that go on to a newline, `n` places at most -/
def lineEnd (s : Victrl) : ℕ → ℕ → Option ℕ
  | 0, loc => some loc
  | n + 1, loc => (s.read loc).bind fun c =>
      if c ≠ keyEnterN then s.lineEnd n (loc + 1) else some loc

/-- `cursor_last_line` -/
def cursorLastLine (s : Victrl) : Option Victrl :=
  (s.lineBegin s.cursorLoc).bind fun loc' =>
    if loc' = 0 then some { s with cursorLoc := 0 }
    else if loc' = s.cursorLoc then
      (s.lineBegin (s.cursorLoc - 1)).map fun loc' => { s with cursorLoc := loc' }
    else some { s with cursorLoc := loc' }

/-- `cursor_next_line` -/
def cursorNextLine (s : Victrl) : Option Victrl :=
  (s.lineEnd (sub32 s.size 1 - s.cursorLoc) s.cursorLoc).map fun loc =>
    if sub32 s.size 1 ≤ loc then s else { s with cursorLoc := loc + 1 }

/-! ## The window -/

/-- `page_location_last_line` -/
def pageLocationLastLine (s : Victrl) : Option Victrl :=
  if s.pageBeginLoc = 0 then some s
  else (s.lineBegin (s.pageBeginLoc - 1)).map fun loc' => { s with pageBeginLoc := loc' }

/-- `page_location_next_line` -/
def pageLocationNextLine (s : Victrl) : Option Victrl :=
  (s.lineEnd (sub32 s.size 1 - s.pageBeginLoc) s.pageBeginLoc).map fun loc =>
    if sub32 s.size 1 ≤ loc then s else { s with pageBeginLoc := loc + 1 }

/-- Where the next character is drawn. -/
def advance (c : UInt8) (row col : ℕ) : ℕ × ℕ :=
  let (row, col) :=
    if c = keyEnterN then (row + 1, 0)
    else if c = keyEnterR then (row, col)
    else if c = keyTab then (row, col / 4 * 4 + 4)
    else (row, col + 1)
  if colLen ≤ col then (row + 1, 0) else (row, col)

/-- The loop of `screen_flush` over the text, with `n` characters left in it -/
def screenLoop (s : Victrl) : ℕ → ℕ → ℕ → ℕ → Option ℕ
  | 0, loc, _, _ => some loc
  | n + 1, loc, row, col =>
      if row < rowLen then
        (s.read loc).bind fun c =>
          s.screenLoop n (loc + 1) (advance c row col).1 (advance c row col).2
      else some loc

/-- What `screen_flush` changes. -/
def screenFlush (s : Victrl) : Option Victrl :=
  (s.screenLoop (s.size - s.pageBeginLoc) s.pageBeginLoc 0 0).map fun loc =>
    { s with pageEndLoc := loc }

/-- The end of `do_command_mode` and `do_insert_mode` -/
def adjust (s : Victrl) : Option Victrl :=
  (if s.cursorLoc < s.pageBeginLoc then s.pageLocationLastLine else some s).bind fun s =>
    (if s.pageEndLoc ≤ s.cursorLoc then s.pageLocationNextLine else some s).bind screenFlush

/-! ## The modes -/

/-- The cases of `do_command_mode` -/
def commandKey (s : Victrl) (key : UInt8) : Option Victrl :=
  if key = 'h'.toUInt8 then
    if 0 < s.cursorLoc then
      (s.read (s.cursorLoc - 1)).map fun c =>
        if c ≠ keyEnterN then { s with cursorLoc := s.cursorLoc - 1 } else s
    else some s
  else if key = 'j'.toUInt8 then s.cursorNextLine
  else if key = 'k'.toUInt8 then s.cursorLastLine
  else if key = 'l'.toUInt8 then
    if s.cursorLoc < s.size then
      (s.read s.cursorLoc).map fun c =>
        if c ≠ keyEnterN then { s with cursorLoc := s.cursorLoc + 1 } else s
    else some s
  else if key = 'x'.toUInt8 then
    if s.cursorLoc < sub32 s.size 1 then (s.deleteKey s.cursorLoc).bind screenFlush else some s
  else if key = 'i'.toUInt8 then some { s with mode := 1 }
  else if key = ':'.toUInt8 then
    some { s with
      -- `kernel_memset` stores 0xff for every byte other than 0
      inst := Function.update (fun i => if i < colLen then 0xff else s.inst i) 0 ':'.toUInt8
      mode := 2
      instLen := 1 }
  else some s

/-- `do_command_mode` -/
def doCommandMode (s : Victrl) (key : UInt8) : Option Victrl :=
  (s.commandKey key).bind adjust

/-- The cases of `do_insert_mode` -/
def insertModeKey (s : Victrl) (key : UInt8) : Option Victrl :=
  if key = keyEsc then some { s with mode := 0 }
  else if key = keyDel then
    if 0 < s.cursorLoc then
      (s.deleteKey (s.cursorLoc - 1)).bind fun s =>
        screenFlush { s with cursorLoc := s.cursorLoc - 1 }
    else some s
  else
    (s.insertKey key s.cursorLoc).bind fun s =>
      screenFlush { s with cursorLoc := s.cursorLoc + 1 }

/-- `do_insert_mode` -/
def doInsertMode (s : Victrl) (key : UInt8) : Option Victrl :=
  (s.insertModeKey key).bind adjust

def lowercase (key : UInt8) : UInt8 :=
  if 'A'.toUInt8 ≤ key ∧ key ≤ 'Z'.toUInt8 then key - 'A'.toUInt8 + 'a'.toUInt8 else key

/-- The cases of `do_last_line_mode`, where `vfs_save` returns `saved` -/
def lastLineKey (s : Victrl) (key : UInt8) (saved : ℕ) : Victrl :=
  if key = keyEsc then
    { s with mode := 0, inst := fun i => if i < colLen then 0 else s.inst i, instLen := 0 }
  else if key = keyEnterN then
    if s.instLen = 3 ∧ s.inst 1 = 'q'.toUInt8 ∧ s.inst 2 = '!'.toUInt8 then
      { s with again := false }
    else if s.instLen = 3 ∧ s.inst 1 = 'w'.toUInt8 ∧ s.inst 2 = 'q'.toUInt8 then
      { s with err := saved, again := false }
    else s
  else if key = keyDel then
    if 1 < s.instLen then
      { s with inst := Function.update s.inst (s.instLen - 1) keySpc, instLen := s.instLen - 1 }
    else s
  else if s.instLen < colLen / 4 then
    { s with inst := Function.update s.inst s.instLen key, instLen := s.instLen + 1 }
  else s

/-- `do_last_line_mode` -/
def doLastLineMode (s : Victrl) (key : UInt8) (saved : ℕ) : Option Victrl :=
  (s.lastLineKey (lowercase key) saved).screenFlush

end Victrl

/-- A key, and what `vfs_save` returns when it is called for the key. -/
structure Press where
  key : UInt8
  saved : ℕ

namespace Victrl

/-- A turn of the loop of `vi`. -/
def step (s : Victrl) (press : Press) : Option Victrl :=
  if s.mode = 0 then s.doCommandMode press.key
  else if s.mode = 1 then s.doInsertMode press.key
  else if s.mode = 2 then s.doLastLineMode press.key press.saved
  else some s

/-- The state in which `vi` waits for the first key, after the given bytes have been copied. -/
def openedWith (filesize : ℕ) (copied : List UInt8) (closed : ℕ) : Option Victrl :=
  (initVi.loadFile filesize copied closed).bind fun (_, s) => s.screenFlush

/-- The state in which `vi` waits for the first key, after the text has been read as it is. -/
def opened (file : List UInt8) (closed : ℕ) : Option Victrl :=
  openedWith file.length file closed

/-- What `generic_file_read` copies of a file: all its bytes, and for a file without bytes as many
pages as it finds. -/
def ReadsAs (file copied : List UInt8) : Prop := file ≠ [] → copied = file

/-- The text ends with a newline in the buffer, and the cursor is in the text. -/
structure Buffered (s : Victrl) : Prop where
  nonempty : 1 ≤ s.size
  fits : s.size ≤ bufferSize
  newline : s.buffer (s.size - 1) = keyEnterN
  cursor : s.cursorLoc < s.size

/-- No key is to be put in a full buffer at its end. -/
def HasRoom (s : Victrl) (press : Press) : Prop :=
  s.mode = 1 → press.key ≠ keyEsc → press.key ≠ keyDel → s.size = bufferSize →
    s.cursorLoc + 1 < s.size

instance (s : Victrl) (press : Press) : Decidable (s.HasRoom press) :=
  inferInstanceAs (Decidable (_ → _))

/-! ## Accesses to the buffer -/

variable {s : Victrl}

theorem read_of_lt {i : ℕ} (lt : i < bufferSize) : s.read i = some (s.buffer i) := if_pos lt

theorem write_of_lt {i : ℕ} (lt : i < bufferSize) (c : UInt8) :
    s.write i c = some { s with buffer := Function.update s.buffer i c } := if_pos lt

/-- The loop of `insert_key` moves the text from the site on one place up. -/
theorem insertLoop_spec (s : Victrl) (site n : ℕ) (fits : site + n < bufferSize) :
    ∃ buffer, insertLoop site s n = some { s with buffer } ∧
      ∀ i, buffer i = if site < i ∧ i ≤ site + n then s.buffer (i - 1) else s.buffer i := by
  induction n generalizing s with
  | zero => exact ⟨s.buffer, rfl, fun i => by rw [if_neg (by omega)]⟩
  | succ n ih =>
      have before : site + n < bufferSize := Nat.lt_of_succ_lt fits
      have here : site + n + 1 < bufferSize := fits
      rw [insertLoop, read_of_lt before, Option.bind_some, write_of_lt here, Option.bind_some]
      rcases ih { s with buffer := Function.update s.buffer (site + n + 1) (s.buffer (site + n)) }
        before with ⟨buffer, ran, isBuffer⟩
      refine ⟨buffer, ran, fun i => ?_⟩
      rw [isBuffer]
      by_cases isLast : i = site + n + 1
      · subst isLast
        rw [if_neg (by omega), if_pos (by omega)]
        exact Function.update_self _ _ _
      · by_cases moved : site < i ∧ i ≤ site + n
        · rw [if_pos moved, if_pos (by omega)]
          exact Function.update_of_ne (by omega) _ _
        · rw [if_neg moved, if_neg (by omega)]
          exact Function.update_of_ne isLast _ _

theorem insertKey_spec {site : ℕ} (inside : site < s.size) (room : s.size < bufferSize)
    (key : UInt8) :
    ∃ buffer, s.insertKey key site = some { s with buffer, size := s.size + 1 } ∧
      buffer s.size = s.buffer (s.size - 1) ∧ buffer site = key ∧
        ∀ i < site, buffer i = s.buffer i := by
  have fits : site + (s.size - site) < bufferSize := by omega
  rcases insertLoop_spec s site (s.size - site) fits with ⟨buffer, ran, isBuffer⟩
  refine ⟨Function.update buffer site key, ?_, ?_, Function.update_self _ _ _, fun i before => ?_⟩
  · rw [insertKey, if_neg (Nat.ne_of_lt room), ran, Option.bind_some,
      write_of_lt (inside.trans room)]
  · rw [Function.update_of_ne (Nat.ne_of_gt inside), isBuffer, if_pos (by omega)]
  · rw [Function.update_of_ne (Nat.ne_of_lt before), isBuffer, if_neg (by omega)]

/-- The loop of `delete_key` moves the text behind the site one place down. -/
theorem deleteLoop_spec (s : Victrl) (n site : ℕ) (fits : site + n < bufferSize) :
    ∃ buffer, deleteLoop s n site = some { s with buffer } ∧
      ∀ i, buffer i = if site ≤ i ∧ i < site + n then s.buffer (i + 1) else s.buffer i := by
  induction n generalizing s site with
  | zero => exact ⟨s.buffer, rfl, fun i => by rw [if_neg (by omega)]⟩
  | succ n ih =>
      rw [deleteLoop, read_of_lt (by omega), Option.bind_some, write_of_lt (by omega),
        Option.bind_some]
      rcases ih { s with buffer := Function.update s.buffer site (s.buffer (site + 1)) } (site + 1)
        (by omega) with ⟨buffer, ran, isBuffer⟩
      refine ⟨buffer, ran, fun i => ?_⟩
      rw [isBuffer]
      by_cases isFirst : i = site
      · subst isFirst
        rw [if_neg (by omega), if_pos (by omega)]
        exact Function.update_self _ _ _
      · by_cases moved : site + 1 ≤ i ∧ i < site + 1 + n
        · rw [if_pos moved, if_pos (by omega)]
          exact Function.update_of_ne (by omega) _ _
        · rw [if_neg moved, if_neg (by omega)]
          exact Function.update_of_ne isFirst _ _

theorem deleteKey_spec {site : ℕ} (inside : site + 1 < s.size) (fits : s.size ≤ bufferSize) :
    ∃ buffer, s.deleteKey site = some { s with buffer, size := s.size - 1 } ∧
      buffer (s.size - 2) = s.buffer (s.size - 1) ∧ ∀ i < site, buffer i = s.buffer i := by
  have bound : site + (s.size - 1 - site) < bufferSize := by omega
  rcases deleteLoop_spec s (s.size - 1 - site) site bound with ⟨buffer, ran, isBuffer⟩
  refine ⟨Function.update buffer (s.size - 1) keySpc, ?_, ?_, fun i before => ?_⟩
  · have last : s.size - 1 < bufferSize := by omega
    rw [deleteKey, if_neg (by omega), ran, Option.bind_some]
    exact congrArg (Option.map _) (write_of_lt last keySpc)
  · rw [Function.update_of_ne (by omega), isBuffer, if_pos (by omega)]
    congr 1
    omega
  · rw [Function.update_of_ne (by omega), isBuffer, if_neg (by omega)]

/-- The place found is behind the last newline or the beginning. -/
theorem lineBegin_spec (s : Victrl) {n : ℕ} (fits : n ≤ bufferSize) :
    ∃ loc', s.lineBegin n = some loc' ∧ loc' ≤ n ∧
      (loc' = 0 ∨ s.buffer (loc' - 1) = keyEnterN) ∧
        ∀ i, loc' ≤ i → i < n → s.buffer i ≠ keyEnterN := by
  induction n with
  | zero => exact ⟨0, rfl, Nat.le.refl, .inl rfl, by omega⟩
  | succ n ih =>
      rw [lineBegin, read_of_lt fits, Option.bind_some]
      by_cases isNewline : s.buffer n = keyEnterN
      · rw [if_neg (not_not.mpr isNewline)]
        exact ⟨n + 1, rfl, Nat.le.refl, .inr isNewline, by omega⟩
      · rw [if_pos isNewline]
        rcases ih (Nat.le_of_succ_le fits) with ⟨loc', ran, le, isBegin, others⟩
        refine ⟨loc', ran, Nat.le_succ_of_le le, isBegin, fun i below above => ?_⟩
        by_cases isLast : i = n
        · exact isLast ▸ isNewline
        · exact others i below (by omega)

/-- The place found is the first newline's or the last one that is looked at. -/
theorem lineEnd_spec (s : Victrl) {n loc : ℕ} (fits : loc + n ≤ bufferSize) :
    ∃ found, s.lineEnd n loc = some found ∧ loc ≤ found ∧ found ≤ loc + n ∧
      (∀ i, loc ≤ i → i < found → s.buffer i ≠ keyEnterN) ∧
        (found < loc + n → s.buffer found = keyEnterN) := by
  induction n generalizing loc with
  | zero => exact ⟨loc, rfl, Nat.le.refl, Nat.le.refl, by omega, by omega⟩
  | succ n ih =>
      rw [lineEnd, read_of_lt (by omega), Option.bind_some]
      by_cases isNewline : s.buffer loc = keyEnterN
      · rw [if_neg (not_not.mpr isNewline)]
        exact ⟨loc, rfl, Nat.le.refl, by omega, by omega, fun _ => isNewline⟩
      · rw [if_pos isNewline]
        have bound : loc + 1 + n ≤ bufferSize := by omega
        rcases ih bound with ⟨found, ran, lower, upper, others, isEnd⟩
        refine ⟨found, ran, by omega, by omega, fun i below above => ?_, fun lt => isEnd (by omega)⟩
        by_cases isFirst : i = loc
        · exact isFirst ▸ isNewline
        · exact others i (by omega) above

theorem screenLoop_spec (s : Victrl) (n : ℕ) {loc : ℕ} (fits : loc + n ≤ bufferSize)
    (row col : ℕ) : ∃ stop, s.screenLoop n loc row col = some stop := by
  induction n generalizing loc row col with
  | zero => exact ⟨loc, rfl⟩
  | succ n ih =>
      rw [screenLoop]
      by_cases onScreen : row < rowLen
      · rw [if_pos onScreen, read_of_lt (by omega), Option.bind_some]
        exact ih (by omega) _ _
      · exact ⟨loc, if_neg onScreen⟩

/-! ## The window -/

/-- What can be drawn is in the buffer. -/
structure Drawable (s : Victrl) : Prop where
  nonempty : 1 ≤ s.size
  fits : s.size ≤ bufferSize
  window : s.pageBeginLoc ≤ bufferSize

theorem Drawable.last (drawable : s.Drawable) : sub32 s.size 1 = s.size - 1 := by
  have fits := drawable.fits
  unfold bufferSize at fits
  exact sub32_of_le drawable.nonempty (by omega)

theorem Drawable.screenFlush (drawable : s.Drawable) :
    ∃ pageEndLoc, s.screenFlush = some { s with pageEndLoc } := by
  have fits : s.pageBeginLoc + (s.size - s.pageBeginLoc) ≤ bufferSize := by
    have fits := drawable.fits
    have window := drawable.window
    omega
  rcases s.screenLoop_spec _ fits 0 0 with ⟨stop, ran⟩
  exact ⟨stop, by rw [Victrl.screenFlush, ran, Option.map_some]⟩

theorem Drawable.pageLocationLastLine (drawable : s.Drawable) :
    ∃ pageBeginLoc, s.pageLocationLastLine = some { s with pageBeginLoc } ∧
      pageBeginLoc ≤ bufferSize := by
  rw [Victrl.pageLocationLastLine]
  by_cases isFirst : s.pageBeginLoc = 0
  · exact ⟨s.pageBeginLoc, if_pos isFirst, drawable.window⟩
  · have fits : s.pageBeginLoc - 1 ≤ bufferSize := Nat.le_trans (Nat.sub_le _ _) drawable.window
    rcases s.lineBegin_spec fits with ⟨loc', ran, le, _⟩
    rw [if_neg isFirst, ran]
    exact ⟨loc', rfl, Nat.le_trans le fits⟩

theorem Drawable.pageLocationNextLine (drawable : s.Drawable) :
    ∃ pageBeginLoc, s.pageLocationNextLine = some { s with pageBeginLoc } ∧
      pageBeginLoc ≤ bufferSize := by
  have fits := drawable.fits
  have window := drawable.window
  have bound : s.pageBeginLoc + (s.size - 1 - s.pageBeginLoc) ≤ bufferSize := by omega
  rcases s.lineEnd_spec bound with ⟨loc, ran, _⟩
  rw [Victrl.pageLocationNextLine, drawable.last, ran, Option.map_some]
  by_cases isLast : s.size - 1 ≤ loc
  · exact ⟨s.pageBeginLoc, by rw [if_pos isLast], window⟩
  · exact ⟨loc + 1, by rw [if_neg isLast], by omega⟩

/-- Adjusting the window changes no more than the window. -/
theorem Drawable.adjust (drawable : s.Drawable) :
    ∃ pageBeginLoc pageEndLoc, s.adjust = some { s with pageBeginLoc, pageEndLoc } ∧
      pageBeginLoc ≤ bufferSize := by
  have up : ∃ pageBeginLoc, (if s.cursorLoc < s.pageBeginLoc then s.pageLocationLastLine
      else some s) = some { s with pageBeginLoc } ∧ pageBeginLoc ≤ bufferSize := by
    by_cases above : s.cursorLoc < s.pageBeginLoc
    · rw [if_pos above]
      exact drawable.pageLocationLastLine
    · exact ⟨s.pageBeginLoc, if_neg above, drawable.window⟩
  rcases up with ⟨upper, ranUp, upperLe⟩
  have drawable₁ : Drawable { s with pageBeginLoc := upper } :=
    ⟨drawable.nonempty, drawable.fits, upperLe⟩
  have down : ∃ pageBeginLoc, (if s.pageEndLoc ≤ s.cursorLoc then
      Victrl.pageLocationNextLine { s with pageBeginLoc := upper }
      else some { s with pageBeginLoc := upper }) = some { s with pageBeginLoc } ∧
        pageBeginLoc ≤ bufferSize := by
    by_cases below : s.pageEndLoc ≤ s.cursorLoc
    · rw [if_pos below]
      exact drawable₁.pageLocationNextLine
    · exact ⟨upper, if_neg below, upperLe⟩
  rcases down with ⟨lower, ranDown, lowerLe⟩
  have drawable₂ : Drawable { s with pageBeginLoc := lower } :=
    ⟨drawable.nonempty, drawable.fits, lowerLe⟩
  rcases drawable₂.screenFlush with ⟨stop, flushed⟩
  refine ⟨lower, stop, ?_, lowerLe⟩
  rw [Victrl.adjust, ranUp, Option.bind_some]
  exact (congrArg (Option.bind · Victrl.screenFlush) ranDown).trans flushed

/-! ## The keys -/

/-- The text is in order, and so is the window. -/
structure Inv (s : Victrl) : Prop where
  buffered : s.Buffered
  window : s.pageBeginLoc ≤ bufferSize

theorem Inv.drawable (inv : s.Inv) : s.Drawable :=
  ⟨inv.buffered.nonempty, inv.buffered.fits, inv.window⟩

theorem Inv.moved (inv : s.Inv) {cursorLoc : ℕ} (inside : cursorLoc < s.size) :
    Inv { s with cursorLoc } :=
  ⟨⟨inv.buffered.nonempty, inv.buffered.fits, inv.buffered.newline, inside⟩, inv.window⟩

/-- The text does not depend on the window. -/
theorem Inv.rewindowed (inv : s.Inv) {pageBeginLoc : ℕ} (le : pageBeginLoc ≤ bufferSize)
    (pageEndLoc : ℕ) : Inv { s with pageBeginLoc, pageEndLoc } :=
  ⟨⟨inv.buffered.nonempty, inv.buffered.fits, inv.buffered.newline, inv.buffered.cursor⟩, le⟩

/-- The text and the window do not depend on the mode and the last line. -/
theorem Inv.remoded (inv : s.Inv) (inst : ℕ → UInt8) (instLen mode : ℕ) (again : Bool) (err : ℕ) :
    Inv { s with inst, instLen, mode, again, err } :=
  ⟨⟨inv.buffered.nonempty, inv.buffered.fits, inv.buffered.newline, inv.buffered.cursor⟩,
    inv.window⟩

theorem Inv.adjust (inv : s.Inv) : ∃ s', s.adjust = some s' ∧ s'.Inv := by
  rcases inv.drawable.adjust with ⟨pageBeginLoc, pageEndLoc, ran, le⟩
  exact ⟨_, ran, inv.rewindowed le pageEndLoc⟩

theorem Inv.screenFlush (inv : s.Inv) : ∃ s', s.screenFlush = some s' ∧ s'.Inv := by
  rcases inv.drawable.screenFlush with ⟨pageEndLoc, ran⟩
  exact ⟨_, ran, inv.rewindowed inv.window pageEndLoc⟩

theorem Inv.cursorLastLine (inv : s.Inv) : ∃ s', s.cursorLastLine = some s' ∧ s'.Inv := by
  have cursor := inv.buffered.cursor
  have fits := inv.buffered.fits
  have before : s.cursorLoc ≤ bufferSize := by omega
  have before' : s.cursorLoc - 1 ≤ bufferSize := by omega
  rcases s.lineBegin_spec before with ⟨loc', ran, le, _⟩
  rcases s.lineBegin_spec before' with ⟨loc'', ran', le', _⟩
  rw [Victrl.cursorLastLine, ran, Option.bind_some, ran']
  by_cases isFirst : loc' = 0
  · exact ⟨_, if_pos isFirst, inv.moved inv.buffered.nonempty⟩
  · rw [if_neg isFirst]
    by_cases isBegin : loc' = s.cursorLoc
    · exact ⟨_, if_pos isBegin, inv.moved (by omega)⟩
    · exact ⟨_, if_neg isBegin, inv.moved (by omega)⟩

theorem Inv.cursorNextLine (inv : s.Inv) : ∃ s', s.cursorNextLine = some s' ∧ s'.Inv := by
  have cursor := inv.buffered.cursor
  have fits := inv.buffered.fits
  have bound : s.cursorLoc + (s.size - 1 - s.cursorLoc) ≤ bufferSize := by omega
  rcases s.lineEnd_spec bound with ⟨loc, ran, _⟩
  rw [Victrl.cursorNextLine, inv.drawable.last, ran, Option.map_some]
  by_cases isLast : s.size - 1 ≤ loc
  · exact ⟨s, by rw [if_pos isLast], inv⟩
  · exact ⟨_, by rw [if_neg isLast], inv.moved (by omega)⟩

/-- A character in front of the last one is deleted, and the cursor is in front of the last
one then. -/
theorem Inv.deleteKey (inv : s.Inv) {site : ℕ} (inside : site + 1 < s.size) :
    ∃ buffer, s.deleteKey site = some { s with buffer, size := s.size - 1 } ∧
      (∀ i < site, buffer i = s.buffer i) ∧
        ∀ cursorLoc, cursorLoc + 1 < s.size →
          Inv { s with buffer, size := s.size - 1, cursorLoc } := by
  rcases deleteKey_spec inside inv.buffered.fits with ⟨buffer, ran, isLast, before⟩
  refine ⟨buffer, ran, before, fun cursorLoc lt => ⟨⟨?_, ?_, ?_, ?_⟩, inv.window⟩⟩
  · exact Nat.le_sub_of_add_le (Nat.succ_le_of_lt (Nat.lt_of_le_of_lt (Nat.le_add_left 1 _) inside))
  · exact Nat.le_trans (Nat.sub_le _ _) inv.buffered.fits
  · exact (congrArg buffer (Nat.sub_sub s.size 1 1)).trans (isLast.trans inv.buffered.newline)
  · exact Nat.lt_sub_of_add_lt lt

/-- A character is put in at the cursor, which goes one on. -/
theorem Inv.insertKey (inv : s.Inv) (room : s.size < bufferSize) (key : UInt8) :
    ∃ buffer, s.insertKey key s.cursorLoc = some { s with buffer, size := s.size + 1 } ∧
      buffer s.cursorLoc = key ∧ (∀ i < s.cursorLoc, buffer i = s.buffer i) ∧
        Inv { s with buffer, size := s.size + 1, cursorLoc := s.cursorLoc + 1 } := by
  have cursor := inv.buffered.cursor
  rcases insertKey_spec cursor room key with ⟨buffer, ran, isLast, isKey, before⟩
  refine ⟨buffer, ran, isKey, before, ⟨Nat.le_add_left 1 _, room, ?_, Nat.succ_lt_succ cursor⟩,
    inv.window⟩
  exact isLast.trans inv.buffered.newline

theorem Inv.commandKey (inv : s.Inv) (key : UInt8) : ∃ s', s.commandKey key = some s' ∧ s'.Inv := by
  have cursor := inv.buffered.cursor
  have fits := inv.buffered.fits
  have inside : s.cursorLoc < bufferSize := by omega
  rw [Victrl.commandKey]
  by_cases isH : key = 'h'.toUInt8
  · rw [if_pos isH]
    by_cases positive : 0 < s.cursorLoc
    · rw [if_pos positive, read_of_lt (by omega), Option.map_some]
      by_cases isNewline : s.buffer (s.cursorLoc - 1) = keyEnterN
      · exact ⟨s, by rw [if_neg (not_not.mpr isNewline)], inv⟩
      · exact ⟨_, by rw [if_pos isNewline], inv.moved (by omega)⟩
    · exact ⟨s, if_neg positive, inv⟩
  rw [if_neg isH]
  by_cases isJ : key = 'j'.toUInt8
  · rw [if_pos isJ]
    exact inv.cursorNextLine
  rw [if_neg isJ]
  by_cases isK : key = 'k'.toUInt8
  · rw [if_pos isK]
    exact inv.cursorLastLine
  rw [if_neg isK]
  by_cases isL : key = 'l'.toUInt8
  · rw [if_pos isL, if_pos cursor, read_of_lt inside, Option.map_some]
    by_cases isNewline : s.buffer s.cursorLoc = keyEnterN
    · exact ⟨s, by rw [if_neg (not_not.mpr isNewline)], inv⟩
    · have notLast : s.cursorLoc ≠ s.size - 1 :=
        fun eq => isNewline (eq ▸ inv.buffered.newline)
      exact ⟨_, by rw [if_pos isNewline], inv.moved (by omega)⟩
  rw [if_neg isL]
  by_cases isX : key = 'x'.toUInt8
  · rw [if_pos isX, inv.drawable.last]
    by_cases notLast : s.cursorLoc < s.size - 1
    · have before : s.cursorLoc + 1 < s.size := Nat.add_lt_of_lt_sub notLast
      rcases inv.deleteKey before with ⟨buffer, ran, _, inv'⟩
      rw [if_pos notLast, ran, Option.bind_some]
      exact (inv' s.cursorLoc before).screenFlush
    · exact ⟨s, if_neg notLast, inv⟩
  rw [if_neg isX]
  by_cases isI : key = 'i'.toUInt8
  · exact ⟨_, if_pos isI, inv.remoded s.inst s.instLen 1 s.again s.err⟩
  rw [if_neg isI]
  by_cases isColon : key = ':'.toUInt8
  · exact ⟨_, if_pos isColon, inv.remoded _ 1 2 s.again s.err⟩
  · exact ⟨s, if_neg isColon, inv⟩

theorem Inv.insertModeKey (inv : s.Inv) {key : UInt8}
    (hasRoom : key ≠ keyEsc → key ≠ keyDel → s.size = bufferSize → s.cursorLoc + 1 < s.size) :
    ∃ s', s.insertModeKey key = some s' ∧ s'.Inv := by
  have cursor := inv.buffered.cursor
  have fits := inv.buffered.fits
  rw [Victrl.insertModeKey]
  by_cases isEsc : key = keyEsc
  · exact ⟨_, if_pos isEsc, inv.remoded s.inst s.instLen 0 s.again s.err⟩
  rw [if_neg isEsc]
  by_cases isDel : key = keyDel
  · rw [if_pos isDel]
    by_cases positive : 0 < s.cursorLoc
    · have before : s.cursorLoc - 1 + 1 < s.size := by omega
      rcases inv.deleteKey before with ⟨buffer, ran, _, inv'⟩
      rw [if_pos positive, ran, Option.bind_some]
      exact (inv' (s.cursorLoc - 1) before).screenFlush
    · exact ⟨s, if_neg positive, inv⟩
  rw [if_neg isDel]
  by_cases full : s.size = bufferSize
  · rw [Victrl.insertKey, if_pos full, Option.bind_some]
    exact (inv.moved (hasRoom isEsc isDel full)).screenFlush
  · have room : s.size < bufferSize := Nat.lt_of_le_of_ne fits full
    rcases inv.insertKey room key with ⟨buffer, ran, _, _, inv'⟩
    rw [ran, Option.bind_some]
    exact inv'.screenFlush

theorem Inv.lastLineKey (inv : s.Inv) (key : UInt8) (saved : ℕ) :
    (s.lastLineKey key saved).Inv := by
  unfold Victrl.lastLineKey
  split_ifs
  all_goals first | exact inv | exact inv.remoded _ _ _ _ _

theorem Inv.step (inv : s.Inv) {press : Press} (hasRoom : s.HasRoom press) :
    ∃ s', s.step press = some s' ∧ s'.Inv := by
  rw [Victrl.step]
  by_cases isCommand : s.mode = 0
  · rcases inv.commandKey press.key with ⟨s₁, ran, inv₁⟩
    rw [if_pos isCommand, doCommandMode, ran, Option.bind_some]
    exact inv₁.adjust
  rw [if_neg isCommand]
  by_cases isInsert : s.mode = 1
  · rcases inv.insertModeKey (hasRoom isInsert) with ⟨s₁, ran, inv₁⟩
    rw [if_pos isInsert, doInsertMode, ran, Option.bind_some]
    exact inv₁.adjust
  rw [if_neg isInsert]
  by_cases isLastLine : s.mode = 2
  · rw [if_pos isLastLine, doLastLineMode]
    exact (inv.lastLineKey (lowercase press.key) press.saved).screenFlush
  · exact ⟨s, if_neg isLastLine, inv⟩

/-- A key that is not put in for want of room moves the cursor out of the text. -/
theorem Inv.outside (inv : s.Inv) {press : Press} (noRoom : ¬s.HasRoom press) :
    ∃ s', s.step press = some s' ∧ ¬s'.Buffered := by
  simp only [HasRoom, not_forall, Nat.not_lt] at noRoom
  rcases noRoom with ⟨isInsert, notEsc, notDel, full, atEnd⟩
  have notCommand : ¬s.mode = 0 := fun eq => absurd (isInsert.symm.trans eq) Nat.one_ne_zero
  have drawable : Drawable { s with cursorLoc := s.cursorLoc + 1 } :=
    ⟨inv.buffered.1, inv.buffered.2, inv.window⟩
  rcases drawable.screenFlush with ⟨stop, flushed⟩
  have drawable' : Drawable { s with cursorLoc := s.cursorLoc + 1, pageEndLoc := stop } :=
    ⟨inv.buffered.1, inv.buffered.2, inv.window⟩
  rcases drawable'.adjust with ⟨first, stop', adjusted, _⟩
  refine ⟨{ s with
    cursorLoc := s.cursorLoc + 1
    pageBeginLoc := first
    pageEndLoc := stop' }, ?_, fun buffered => ?_⟩
  · rw [Victrl.step, if_neg notCommand, if_pos isInsert, doInsertMode, Victrl.insertModeKey,
      if_neg notEsc, if_neg notDel, Victrl.insertKey, if_pos full, Option.bind_some, flushed,
      Option.bind_some, adjusted]
  · exact absurd buffered.cursor (Nat.not_lt.mpr atEnd)

/-- The bytes that have been copied, with a newline behind those of the file. -/
def textOf (filesize : ℕ) (copied : List UInt8) : ℕ → UInt8 :=
  Function.update (fun i => if i < copied.length then copied.getD i 0 else 0) filesize keyEnterN

theorem textOf_filesize (filesize : ℕ) (copied : List UInt8) :
    textOf filesize copied filesize = keyEnterN := by
  rw [textOf, Function.update_self]

/-- The text of a file, with a newline behind it. -/
def text (file : List UInt8) : ℕ → UInt8 := textOf file.length file

/-- What a file is loaded as. -/
def loaded (filesize : ℕ) (copied : List UInt8) : Victrl :=
  { initVi with oldSize := filesize, size := filesize + 1, buffer := textOf filesize copied }

theorem loadFile_eq {filesize : ℕ} {copied : List UInt8} (fits : filesize < bufferSize)
    (enough : filesize ≤ copied.length) (inside : copied.length ≤ bufferSize) (closed : ℕ) :
    initVi.loadFile filesize copied closed = some (closed, loaded filesize copied) := by
  rw [loadFile, if_neg (Nat.not_le.mpr fits), if_neg (Nat.not_lt.mpr inside)]
  exact if_neg (Nat.not_lt.mpr enough)

theorem inv_loaded {filesize : ℕ} (fits : filesize < bufferSize) (copied : List UInt8) :
    (loaded filesize copied).Inv :=
  ⟨⟨Nat.le_add_left 1 _, fits, textOf_filesize filesize copied, Nat.succ_pos _⟩, Nat.zero_le _⟩

theorem openedWith_eq {filesize : ℕ} {copied : List UInt8} (fits : filesize < bufferSize)
    (enough : filesize ≤ copied.length) (inside : copied.length ≤ bufferSize) (closed : ℕ) :
    openedWith filesize copied closed = (loaded filesize copied).screenFlush := by
  rw [openedWith, loadFile_eq fits enough inside, Option.bind_some]

theorem inv_openedWith {filesize : ℕ} {copied : List UInt8} (fits : filesize < bufferSize)
    (enough : filesize ≤ copied.length) (inside : copied.length ≤ bufferSize) (closed : ℕ) :
    ∃ s, openedWith filesize copied closed = some s ∧ s.Inv := by
  rw [openedWith_eq fits enough inside]
  exact (inv_loaded fits copied).screenFlush

/-- More bytes than the buffer holds are copied over what lies behind it. -/
theorem openedWith_overrun {filesize : ℕ} {copied : List UInt8} (fits : filesize < bufferSize)
    (outside : bufferSize < copied.length) (closed : ℕ) :
    openedWith filesize copied closed = none := by
  rw [openedWith, loadFile, if_neg (Nat.not_le.mpr fits), if_pos outside, Option.bind_none]

/-- Along a run the text stays in order exactly if no key is to be put in a full buffer at its
end. -/
theorem Inv.run_iff (inv : s.Inv) (presses : List Press) :
    (∀ n, ∃ s', TransitionSystem.run Victrl.step s (presses.take n) = some s' ∧ s'.Buffered) ↔
      GuardedRun Victrl.step HasRoom s presses := by
  constructor
  · intro always
    refine (guardedRun_iff (fun s press next inv hasRoom stepped => ?_)
      (fun s inv => inv.buffered) (fun s press inv => inv.outside) inv presses).mp ?_
    · rcases inv.step hasRoom with ⟨next', stepped', inv'⟩
      cases stepped.symm.trans stepped'
      exact inv'
    · intro n final ran
      rcases always n with ⟨s', ran', buffered⟩
      cases ran.symm.trans ran'
      exact buffered
  · intro guarded n
    rcases (guarded.take n).exists_run (fun s press inv => inv.step) inv with ⟨s', ran, inv'⟩
    exact ⟨s', ran, inv'.buffered⟩

/-- A file is loaded and the text is in order after every one of some keys exactly if the buffer
holds the bytes that are copied, as it does for a file with bytes, and no key is to be put in a full
buffer at its end. -/
theorem buffered_iff (file copied : List UInt8) (reads : ReadsAs file copied)
    (fits : file.length < bufferSize) (closed : ℕ) (presses : List Press) :
    (∃ s, openedWith file.length copied closed = some s ∧
      ∀ n, ∃ s', TransitionSystem.run step s (presses.take n) = some s' ∧ s'.Buffered) ↔
      (file = [] → copied.length ≤ bufferSize) ∧
        ∀ s, openedWith file.length copied closed = some s →
          GuardedRun step HasRoom s presses := by
  have enough : file.length ≤ copied.length := by
    by_cases nothing : file = []
    · rw [nothing]
      exact Nat.zero_le _
    · rw [reads nothing]
  constructor
  · rintro ⟨s, isOpened, always⟩
    have inside : copied.length ≤ bufferSize := by
      by_contra outside
      rw [openedWith_overrun fits (Nat.not_le.mp outside)] at isOpened
      cases isOpened
    rcases inv_openedWith fits enough inside closed with ⟨_, isOpened', inv⟩
    cases isOpened.symm.trans isOpened'
    refine ⟨fun _ => inside, fun s' same => ?_⟩
    cases isOpened.symm.trans same
    exact (inv.run_iff presses).mp always
  · rintro ⟨small, guarded⟩
    have inside : copied.length ≤ bufferSize := by
      by_cases nothing : file = []
      · exact small nothing
      · rw [reads nothing]
        exact fits.le
    rcases inv_openedWith fits enough inside closed with ⟨s, isOpened, inv⟩
    exact ⟨s, isOpened, (inv.run_iff presses).mpr (guarded s isOpened)⟩

/-- A text of two characters, to which a third one is added. -/
theorem buffered_iff_short :
    ∃ s, opened [104, 105] 0 = some s ∧ ∀ n, ∃ s',
      TransitionSystem.run step s (([⟨'i'.toUInt8, 0⟩, ⟨'a'.toUInt8, 0⟩] : List Press).take n) =
        some s' ∧ s'.Buffered := by
  have guarded : ((opened [104, 105] 0).all fun s =>
      decide (GuardedRun step HasRoom s [⟨'i'.toUInt8, 0⟩, ⟨'a'.toUInt8, 0⟩])) = true := by
    decide +kernel
  refine (buffered_iff [104, 105] [104, 105] (fun _ => rfl) (by decide) 0
    [⟨'i'.toUInt8, 0⟩, ⟨'a'.toUInt8, 0⟩]).mpr ⟨nofun, fun s isOpened => ?_⟩
  rw [opened, isOpened] at guarded
  exact of_decide_eq_true guarded

/-- A line that fills the buffer but for its newline and the one that is added to it. -/
def fullLine : List UInt8 := List.replicate 4094 97 ++ [keyEnterN]

theorem length_fullLine : fullLine.length = 4095 := by
  rw [fullLine, List.length_append, List.length_replicate, List.length_singleton]

theorem fullLine_eq {i : ℕ} (lt : i < 4095) :
    fullLine.getD i 0 = if i < 4094 then 97 else keyEnterN := by
  rw [fullLine, List.getD_eq_getElem?_getD]
  by_cases isChar : i < 4094
  · rw [if_pos isChar, List.getElem?_append_left (by rwa [List.length_replicate]),
      List.getElem?_replicate, if_pos isChar, Option.getD_some]
  · have isLast : i = 4094 := by omega
    subst isLast
    rw [if_neg isChar, List.getElem?_append_right (by rw [List.length_replicate]),
      List.length_replicate]
    rfl

/-- The key `j` in a text of one line takes the cursor to the newline that was added. -/
theorem Inv.stepNextLine (inv : s.Inv) (isCommand : s.mode = 0) (atBegin : s.cursorLoc = 0)
    (oneLine : ∀ i, s.buffer i = keyEnterN → s.size ≤ i + 2) (isLong : 2 ≤ s.size)
    (isEnd : s.buffer (s.size - 2) = keyEnterN) :
    ∃ s', s.step ⟨'j'.toUInt8, 0⟩ = some s' ∧ s'.mode = 0 ∧ s'.size = s.size ∧
      s'.cursorLoc = s.size - 1 ∧ s'.Inv := by
  have fits := inv.buffered.fits
  have bound : 0 + (s.size - 1 - 0) ≤ bufferSize := by omega
  rcases s.lineEnd_spec bound with ⟨loc, ran, _, upper, others, isNewline⟩
  have isLoc : loc = s.size - 2 := by
    rcases Nat.lt_trichotomy loc (s.size - 2) with before | here | behind
    · have later := oneLine loc (isNewline (by omega))
      omega
    · exact here
    · exact absurd isEnd (others _ (Nat.zero_le _) behind)
  have notLast : ¬s.size - 1 ≤ loc := by omega
  have isNext : loc + 1 = s.size - 1 := by omega
  have moved : s.cursorNextLine = some { s with cursorLoc := s.size - 1 } := by
    rw [Victrl.cursorNextLine, inv.drawable.last, atBegin, ran, Option.map_some, if_neg notLast,
      isNext]
  have inv' : Inv { s with cursorLoc := s.size - 1 } := inv.moved (by omega)
  rcases inv'.drawable.adjust with ⟨first, stop, adjusted, le⟩
  refine ⟨{ s with cursorLoc := s.size - 1, pageBeginLoc := first, pageEndLoc := stop }, ?_,
    isCommand, rfl, rfl, ⟨inv'.buffered.1, fits, inv'.buffered.3, inv'.buffered.4⟩, le⟩
  have isKey : s.commandKey 'j'.toUInt8 = s.cursorNextLine := rfl
  rw [Victrl.step, if_pos isCommand, doCommandMode, isKey, moved, Option.bind_some, adjusted]

/-- The key `i` begins the insert mode. -/
theorem Inv.stepInsert (inv : s.Inv) (isCommand : s.mode = 0) :
    ∃ s', s.step ⟨'i'.toUInt8, 0⟩ = some s' ∧ s'.mode = 1 ∧ s'.size = s.size ∧
      s'.cursorLoc = s.cursorLoc := by
  have drawable : Drawable { s with mode := 1 } :=
    ⟨inv.buffered.nonempty, inv.buffered.fits, inv.window⟩
  rcases drawable.adjust with ⟨first, stop, adjusted, _⟩
  refine ⟨{ s with mode := 1, pageBeginLoc := first, pageEndLoc := stop }, ?_, rfl, rfl, rfl⟩
  have isKey : s.commandKey 'i'.toUInt8 = some { s with mode := 1 } := rfl
  rw [Victrl.step, if_pos isCommand, doCommandMode, isKey, Option.bind_some, adjusted]

theorem not_buffered_fullLine :
    ¬∀ file copied : List UInt8, ReadsAs file copied → file.length < bufferSize →
      ∀ (closed : ℕ) (presses : List Press), ∃ s, openedWith file.length copied closed = some s ∧
        ∀ n, ∃ s', TransitionSystem.run step s (presses.take n) = some s' ∧ s'.Buffered := by
  intro always
  have fits : fullLine.length < bufferSize := by
    rw [length_fullLine]
    decide
  rcases always fullLine fullLine (fun _ => rfl) fits 0
      [⟨'j'.toUInt8, 0⟩, ⟨'i'.toUInt8, 0⟩, ⟨'a'.toUInt8, 0⟩] with ⟨s, isOpened, holds⟩
  rcases inv_openedWith fits le_rfl fits.le 0 with ⟨_, isOpened', inv⟩
  cases isOpened.symm.trans isOpened'
  have loaded : s.mode = 0 ∧ s.cursorLoc = 0 ∧ s.size = 4096 ∧ s.buffer = text fullLine := by
    rw [openedWith_eq fits le_rfl fits.le, screenFlush] at isOpened
    rcases Option.map_eq_some_iff.mp isOpened with ⟨stop, _, rfl⟩
    exact ⟨rfl, rfl, congrArg (· + 1) length_fullLine, rfl⟩
  rcases loaded with ⟨isCommand, atBegin, size, isBuffer⟩
  have chars : ∀ i < 4095, s.buffer i = if i < 4094 then 97 else keyEnterN := by
    intro i lt
    rw [isBuffer, text, textOf, length_fullLine, Function.update_of_ne (Nat.ne_of_lt lt), if_pos lt,
      fullLine_eq lt]
  have oneLine : ∀ i, s.buffer i = keyEnterN → s.size ≤ i + 2 := by
    intro i isNewline
    by_contra early
    rw [chars i (by omega), if_pos (by omega)] at isNewline
    exact absurd isNewline (by decide)
  have isEnd : s.buffer (s.size - 2) = keyEnterN := by
    rw [size]
    exact chars 4094 (by decide)
  rcases inv.stepNextLine isCommand atBegin oneLine (by omega) isEnd with
    ⟨s₁, stepped₁, isCommand₁, size₁, cursor₁, inv₁⟩
  rcases inv₁.stepInsert isCommand₁ with ⟨s₂, stepped₂, isInsert, size₂, cursor₂⟩
  have guarded := (inv.run_iff _).mp holds
  have hasRoom := ((guarded.2 s₁ stepped₁).2 s₂ stepped₂).1
  have lt := hasRoom isInsert (by decide) (by decide) (size₂.trans (size₁.trans size))
  omega

end Victrl

end Ninix.Vi
