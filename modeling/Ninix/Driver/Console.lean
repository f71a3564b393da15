import Ninix.Library.WordMemory

/-!
# The text console

`kernel_putchar` writes a character at the cursor, and newlines and tabs write blanks. The console
shows 80 columns of rows that are 128 words long in the character memory. The last row shown is
the status row, so on the row in front of it a newline scrolls. Whatever is put out, the cursor
stays on the text rows, and so does everything that is written.
-/

namespace Ninix.Vga

open WordMemory

abbrev vgaCharMaxCol : ℤ := 128

abbrev vgaCharRow : ℤ := 30

abbrev vgaCharCol : ℤ := 80

/-- The word of a blank, `w` in the source. -/
abbrev blankWord : BitVec 32 := 0x000fff00

/-- The globals of the driver and the register that shows the cursor. -/
structure Cursor where
  row : ℤ
  col : ℤ
  freq : ℤ
  gpioCursor : ℤ
  deriving DecidableEq

/-- What a call does to the character memory, by the indices of words from `CHAR_VRAM` on. The
length of a copy is in bytes. -/
inductive Access
  | memsetWord (dest : ℤ) (w : BitVec 32) (len : ℤ)
  | memcpy (dest src len : ℤ)
  | store (index : ℤ) (value : BitVec 32)
  deriving DecidableEq

/-- What is returned, where the cursor is, and what has been done to the memory, in order. -/
structure Outcome where
  returned : BitVec 32
  cursor : Cursor
  accesses : List Access
  deriving DecidableEq

/-- `kernel_set_cursor`, where a mask of ones is a remainder. -/
def Cursor.kernelSetCursor (cursor : Cursor) : Cursor :=
  { cursor with
    gpioCursor := cursor.freq % 256 * 65536 + cursor.row % 256 * 256 + cursor.col % 256 }

def Cursor.initVga (cursor : Cursor) : Cursor :=
  { cursor with row := 0, col := 0, freq := 31 }.kernelSetCursor

def kernelScrollScreen : List Access :=
  [.memcpy 0 vgaCharMaxCol ((vgaCharRow - 2) * vgaCharMaxCol * 4),
    .memsetWord ((vgaCharRow - 2) * vgaCharMaxCol) blankWord vgaCharMaxCol]

def kernelPutcharAt (ch fc bg : BitVec 32) (row col : ℤ) : Access :=
  .store (row % 32 * vgaCharMaxCol + col % 128)
    (((bg &&& 0xfff) <<< 20) + ((fc &&& 0xfff) <<< 8) + (ch &&& 0xff))

/-- `kernel_putchar` of a newline, which it also calls itself in front of a character and instead
of a tab. -/
def putNewline (cursor : Cursor) : Cursor × List Access :=
  let blank := .memsetWord (cursor.row * vgaCharMaxCol + cursor.col) blankWord
    (vgaCharCol - cursor.col)
  if cursor.row = vgaCharRow - 2 then
    ({ cursor with col := 0 }.kernelSetCursor, blank :: kernelScrollScreen)
  else ({ cursor with row := cursor.row + 1, col := 0 }.kernelSetCursor, [blank])

/-- The newline in front of a character that has no room in its row. -/
def wrap (cursor : Cursor) : Cursor × List Access :=
  if cursor.col = vgaCharCol then putNewline cursor else (cursor, [])

def kernelPutchar (ch fc bg : BitVec 32) (cursor : Cursor) : Outcome :=
  if ch = 13 then ⟨ch, cursor, []⟩
  else if ch = 10 then ⟨ch, (putNewline cursor).1, (putNewline cursor).2⟩
  else if ch = 9 then
    if vgaCharCol - 4 ≤ cursor.col then
      ⟨ch, (putNewline cursor).1.kernelSetCursor, (putNewline cursor).2⟩
    else
      -- `4 - cursor_col & 3` is a remainder, and so is what `& (-4)` takes off.
      ⟨ch, { cursor with col := cursor.col + 4 - (cursor.col + 4) % 4 }.kernelSetCursor,
        [.memsetWord (cursor.row * vgaCharMaxCol + cursor.col) blankWord ((4 - cursor.col) % 4)]⟩
  else
    ⟨ch, { (wrap cursor).1 with col := (wrap cursor).1.col + 1 }.kernelSetCursor,
      (wrap cursor).2 ++ [kernelPutcharAt ch fc bg (wrap cursor).1.row (wrap cursor).1.col]⟩

/-! ## The character memory -/

/-- The rounds of `while (len--)`. A length below zero goes down through all 32 bit numbers. -/
def rounds (len : ℤ) : ℕ := (len % 4294967296).toNat

namespace Access

def apply (vram : Memory) : Access → Memory
  | .memsetWord dest w len => fillWords vram dest w (rounds len)
  | .memcpy dest src len => copyBytes vram (4 * dest) (4 * src) (rounds len)
  | .store index value => storeWord vram index value

/-- The word at an index is written, or a byte of it. -/
def Writes : Access → ℤ → Prop
  | .memsetWord dest _ len, index => dest ≤ index ∧ index < dest + rounds len
  | .memcpy dest _ len, index => dest ≤ index ∧ 4 * index < 4 * dest + rounds len
  | .store place _, index => index = place

/-- The length is one that the loops count down to zero. -/
def HasLength : Access → Prop
  | .memsetWord _ _ len => 0 ≤ len
  | .memcpy _ _ len => 0 ≤ len
  | .store _ _ => True

/-- Nothing but text rows is written. -/
structure OnText (access : Access) : Prop where
  hasLength : access.HasLength
  rows : ∀ index, access.Writes index →
    0 ≤ index / vgaCharMaxCol ∧ index / vgaCharMaxCol ≤ vgaCharRow - 2

theorem apply_outside {access : Access} {vram : Memory} {address : ℤ}
    (outside : ¬access.Writes (address / 4)) : access.apply vram address = vram address := by
  cases access with
  | memsetWord dest w len =>
      simp only [Writes] at outside
      exact fillWords_outside vram dest (rounds len) (by omega)
  | memcpy dest src len =>
      simp only [Writes] at outside
      exact copyBytes_outside vram (4 * dest) (4 * src) (rounds len) (by omega)
  | store index value => exact storeWord_outside outside

end Access

/-- The cursor is on a text row, or behind the last column of one. -/
structure Cursor.OnScreen (cursor : Cursor) : Prop where
  rowNonneg : 0 ≤ cursor.row
  rowLe : cursor.row ≤ vgaCharRow - 2
  colNonneg : 0 ≤ cursor.col
  colLe : cursor.col ≤ vgaCharCol

theorem Cursor.OnScreen.bounds {cursor : Cursor} (onScreen : cursor.OnScreen) :
    0 ≤ cursor.row ∧ cursor.row ≤ 28 ∧ 0 ≤ cursor.col ∧ cursor.col ≤ 80 :=
  ⟨onScreen.rowNonneg, onScreen.rowLe, onScreen.colNonneg, onScreen.colLe⟩

theorem rounds_of_le {len : ℤ} (nonneg : 0 ≤ len) (le : len ≤ 4294967295) :
    (rounds len : ℤ) = len := by
  rw [rounds]
  omega

/-- The text rows are the words in front of those of the status row. -/
theorem Access.onText_of_lt {access : Access} (hasLength : access.HasLength)
    (inside : ∀ index, access.Writes index → 0 ≤ index ∧ index < 3712) : access.OnText := by
  refine ⟨hasLength, fun index writes => ?_⟩
  have := inside index writes
  show 0 ≤ index / 128 ∧ index / 128 ≤ 28
  omega

/-- A fill within a text row -/
theorem onText_memsetWord {row col len : ℤ} {w : BitVec 32} (rowNonneg : 0 ≤ row)
    (rowLe : row ≤ 28) (colNonneg : 0 ≤ col) (lenNonneg : 0 ≤ len) (le : col + len ≤ 128) :
    (Access.memsetWord (row * vgaCharMaxCol + col) w len).OnText := by
  refine Access.onText_of_lt lenNonneg fun index writes => ?_
  simp only [Access.Writes, rounds_of_le lenNonneg (by omega), vgaCharMaxCol] at writes
  omega

theorem onText_scroll : ∀ access ∈ kernelScrollScreen, access.OnText := by
  intro access mem
  rcases List.mem_cons.mp mem with rfl | mem
  · refine Access.onText_of_lt (show (0 : ℤ) ≤ 28 * 128 * 4 by decide) fun index writes => ?_
    have len : (rounds ((vgaCharRow - 2) * vgaCharMaxCol * 4) : ℤ) = 14336 := by decide
    simp only [Access.Writes, len] at writes
    omega
  · rw [List.mem_singleton.mp mem, ← Int.add_zero ((vgaCharRow - 2) * vgaCharMaxCol)]
    exact onText_memsetWord (by decide) (by decide) (by decide) (by decide) (by decide)

section Step

variable {cursor : Cursor} (onScreen : cursor.OnScreen)
include onScreen

theorem onText_putcharAt (ch fc bg : BitVec 32) (lt : cursor.col < 80) :
    (kernelPutcharAt ch fc bg cursor.row cursor.col).OnText := by
  rcases onScreen.bounds with ⟨rowNonneg, rowLe, colNonneg, colLe⟩
  refine Access.onText_of_lt trivial fun index writes => ?_
  simp only [kernelPutcharAt, Access.Writes, vgaCharMaxCol] at writes
  omega

/-- A newline goes to the beginning of the next text row, or of the last one. -/
theorem putNewline_onScreen : (putNewline cursor).1.OnScreen ∧ (putNewline cursor).1.col = 0 ∧
    ∀ access ∈ (putNewline cursor).2, access.OnText := by
  rcases onScreen.bounds with ⟨rowNonneg, rowLe, colNonneg, colLe⟩
  have lenNonneg : 0 ≤ vgaCharCol - cursor.col := Int.sub_nonneg_of_le colLe
  have blank : (Access.memsetWord (cursor.row * vgaCharMaxCol + cursor.col) blankWord
      (vgaCharCol - cursor.col)).OnText :=
    onText_memsetWord rowNonneg rowLe colNonneg lenNonneg (by simp only [vgaCharCol]; omega)
  have colLe' : (0 : ℤ) ≤ vgaCharCol := by decide
  rw [putNewline]
  split_ifs with isLast
  · refine ⟨⟨rowNonneg, rowLe, Int.le_refl 0, colLe'⟩, rfl, fun access mem => ?_⟩
    rcases List.mem_cons.mp mem with rfl | mem
    · exact blank
    · exact onText_scroll access mem
  · refine ⟨⟨Int.add_nonneg rowNonneg (by decide), ?_, Int.le_refl 0, colLe'⟩, rfl,
      fun access mem => ?_⟩
    · exact Int.add_one_le_of_lt (Int.lt_iff_le_and_ne.mpr ⟨rowLe, isLast⟩)
    · rw [List.mem_singleton.mp mem]
      exact blank

/-- There is room for a character in the row that the cursor has been moved to. -/
theorem wrap_onScreen : (wrap cursor).1.OnScreen ∧ (wrap cursor).1.col < 80 ∧
    ∀ access ∈ (wrap cursor).2, access.OnText := by
  rw [wrap]
  split_ifs with atEnd
  · rcases putNewline_onScreen onScreen with ⟨newlineOnScreen, newlineCol, newlineOnText⟩
    exact ⟨newlineOnScreen, newlineCol ▸ by decide, newlineOnText⟩
  · exact ⟨onScreen, Int.lt_iff_le_and_ne.mpr ⟨onScreen.colLe, atEnd⟩,
      fun access mem => absurd mem List.not_mem_nil⟩

/-- A call keeps the cursor on the text rows and writes them only. -/
theorem kernelPutchar_onScreen (ch fc bg : BitVec 32) :
    (kernelPutchar ch fc bg cursor).cursor.OnScreen ∧
      ∀ access ∈ (kernelPutchar ch fc bg cursor).accesses, access.OnText := by
  rcases putNewline_onScreen onScreen with ⟨newlineOnScreen, _, newlineOnText⟩
  rw [kernelPutchar]
  split_ifs with isReturn isNewline isTab atEnd
  · exact ⟨onScreen, fun access mem => absurd mem List.not_mem_nil⟩
  · exact ⟨newlineOnScreen, newlineOnText⟩
  · rcases newlineOnScreen with ⟨rowNonneg, rowLe, colNonneg, colLe⟩
    exact ⟨⟨rowNonneg, rowLe, colNonneg, colLe⟩, newlineOnText⟩
  · rcases onScreen.bounds with ⟨rowNonneg, rowLe, colNonneg, colLe⟩
    have lt : cursor.col < 76 := Int.lt_of_not_ge atEnd
    refine ⟨⟨rowNonneg, rowLe, ?_, ?_⟩, fun access mem => ?_⟩
    · show 0 ≤ cursor.col + 4 - (cursor.col + 4) % 4
      omega
    · show cursor.col + 4 - (cursor.col + 4) % 4 ≤ 80
      omega
    · rw [List.mem_singleton.mp mem]
      exact onText_memsetWord rowNonneg rowLe colNonneg (by omega) (by omega)
  · rcases wrap_onScreen onScreen with ⟨wrapped, lt, wrapOnText⟩
    refine ⟨⟨wrapped.rowNonneg, wrapped.rowLe, Int.le_add_one wrapped.colNonneg,
      Int.add_one_le_of_lt lt⟩, fun access mem => ?_⟩
    rcases List.mem_append.mp mem with inWrap | isChar
    · exact wrapOnText access inWrap
    · rw [List.mem_singleton.mp isChar]
      exact onText_putcharAt wrapped ch fc bg lt

end Step

/-! ## Scrolling -/

/-- The character in a row and a column, with its colours -/
def cell (vram : Memory) (row column : ℤ) : BitVec 32 := word vram (row * vgaCharMaxCol + column)

/-- A row is blank from a column to the last one that is shown, and nothing else is changed. -/
def Blanked (vram vram' : Memory) (row col : ℤ) : Prop :=
  ∀ row' column, 0 ≤ column → column < vgaCharMaxCol → cell vram' row' column =
    if row' = row ∧ col ≤ column ∧ column ≤ vgaCharCol - 1 then blankWord
    else cell vram row' column

/-- The text rows have moved up by one, and the last one is blank. -/
structure Scrolled (vram vram' : Memory) : Prop where
  moved : ∀ row column, 0 ≤ row → row < vgaCharRow - 2 → 0 ≤ column → column < vgaCharMaxCol →
    cell vram' row column = cell vram (row + 1) column
  blank : ∀ column, 0 ≤ column → column < vgaCharMaxCol →
    cell vram' (vgaCharRow - 2) column = blankWord

theorem blanked_memsetWord (vram : Memory) {row col : ℤ} (colNonneg : 0 ≤ col)
    (colLe : col ≤ vgaCharCol) :
    Blanked vram ((Access.memsetWord (row * vgaCharMaxCol + col) blankWord
      (vgaCharCol - col)).apply vram) row col := by
  intro row' column columnNonneg columnLt
  have len : (rounds (vgaCharCol - col) : ℤ) = 80 - col := by
    have le : col ≤ 80 := colLe
    exact rounds_of_le (by simp only [vgaCharCol]; omega) (by simp only [vgaCharCol]; omega)
  have lt : column < 128 := columnLt
  rw [cell, Access.apply, word_fillWords, len, ← cell]
  refine if_congr ?_ rfl rfl
  simp only [vgaCharMaxCol, vgaCharCol]
  omega

theorem scrolled_scroll (vram : Memory) :
    Scrolled vram (kernelScrollScreen.foldl Access.apply vram) := by
  have copied : ∀ index, word ((Access.memcpy 0 vgaCharMaxCol
      ((vgaCharRow - 2) * vgaCharMaxCol * 4)).apply vram) index =
        if 0 ≤ index ∧ index < 3584 then word vram (index + 128) else word vram index := by
    intro index
    have bytes : rounds ((vgaCharRow - 2) * vgaCharMaxCol * 4) = 4 * 3584 := by decide
    rw [Access.apply, bytes, word_copyBytes vram (by decide) 3584 index]
    rfl
  have filled : rounds vgaCharMaxCol = 128 := by decide
  constructor
  · intro row column rowNonneg rowLt columnNonneg columnLt
    have rowLt' : row < 28 := rowLt
    have columnLt' : column < 128 := columnLt
    have inFront : ¬((vgaCharRow - 2) * vgaCharMaxCol ≤ row * vgaCharMaxCol + column ∧
        row * vgaCharMaxCol + column < (vgaCharRow - 2) * vgaCharMaxCol + (128 : ℕ)) := by
      simp only [vgaCharMaxCol, vgaCharRow]
      omega
    have inCopy : 0 ≤ row * vgaCharMaxCol + column ∧ row * vgaCharMaxCol + column < 3584 := by
      simp only [vgaCharMaxCol]
      omega
    have source : row * vgaCharMaxCol + column + 128 = (row + 1) * vgaCharMaxCol + column := by
      simp only [vgaCharMaxCol]
      omega
    rw [cell, kernelScrollScreen, List.foldl_cons, List.foldl_cons, List.foldl_nil, Access.apply,
      word_fillWords, filled, if_neg inFront, copied, if_pos inCopy, source, cell]
  · intro column columnNonneg columnLt
    have columnLt' : column < 128 := columnLt
    rw [cell, kernelScrollScreen, List.foldl_cons, List.foldl_cons, List.foldl_nil, Access.apply,
      word_fillWords, filled, if_pos]
    simp only [vgaCharMaxCol, vgaCharRow]
    omega

/-- The call begins with a newline. -/
def BreaksLine (ch : BitVec 32) (cursor : Cursor) : Prop :=
  ch = 10 ∨ ch = 9 ∧ vgaCharCol - 4 ≤ cursor.col ∨
    ch ≠ 13 ∧ ch ≠ 10 ∧ ch ≠ 9 ∧ cursor.col = vgaCharCol

theorem BreaksLine.accesses {ch : BitVec 32} {cursor : Cursor} (breaks : BreaksLine ch cursor)
    (fc bg : BitVec 32) : ∃ rest,
      (kernelPutchar ch fc bg cursor).accesses = (putNewline cursor).2 ++ rest := by
  rcases breaks with rfl | ⟨rfl, noRoom⟩ | ⟨notReturn, notNewline, notTab, atEnd⟩
  · exact ⟨[], (List.append_nil _).symm⟩
  · refine ⟨[], ?_⟩
    rw [kernelPutchar, if_neg (by decide), if_neg (by decide), if_pos rfl, if_pos noRoom,
      List.append_nil]
  · rw [kernelPutchar, if_neg notReturn, if_neg notNewline, if_neg notTab, wrap, if_pos atEnd]
    exact ⟨_, rfl⟩

/-! ## Runs -/

/-- The driver and the character memory. -/
structure Console where
  cursor : Cursor
  vram : Memory

/-- The arguments of a call. -/
structure Call where
  ch : BitVec 32
  fc : BitVec 32
  bg : BitVec 32

namespace Console

/-- `init_vga` leaves the character memory alone. -/
def initVga (console : Console) : Console := { console with cursor := console.cursor.initVga }

def putchar (console : Console) (call : Call) : Console where
  cursor := (kernelPutchar call.ch call.fc call.bg console.cursor).cursor
  vram := (kernelPutchar call.ch call.fc call.bg console.cursor).accesses.foldl Access.apply
    console.vram

/-- What is reached from `init_vga` by a sequence of calls. -/
def run (console : Console) (calls : List Call) : Console := calls.foldl putchar console.initVga

theorem initVga_onScreen (console : Console) : console.initVga.cursor.OnScreen :=
  ⟨Int.le_refl 0, (by decide : (0 : ℤ) ≤ 28), Int.le_refl 0, (by decide : (0 : ℤ) ≤ 80)⟩

/-- A word that is not on a text row stays as it is. -/
def KeepsOthers (vram vram' : Memory) : Prop :=
  ∀ index, ¬(0 ≤ index / vgaCharMaxCol ∧ index / vgaCharMaxCol ≤ vgaCharRow - 2) →
    word vram' index = word vram index

theorem keepsOthers_foldl {accesses : List Access} (onText : ∀ access ∈ accesses, access.OnText)
    (vram : Memory) : KeepsOthers vram (accesses.foldl Access.apply vram) := by
  induction accesses generalizing vram with
  | nil => exact fun index outside => rfl
  | cons access accesses ih =>
      intro index outside
      rw [List.foldl_cons, ih (fun other mem => onText other (List.mem_cons_of_mem _ mem)) _ index
        outside]
      apply word_congr
      rintro address rfl
      exact Access.apply_outside fun writes =>
        outside ((onText access List.mem_cons_self).rows _ writes)

theorem putchar_onScreen {console : Console} (onScreen : console.cursor.OnScreen) (call : Call) :
    (console.putchar call).cursor.OnScreen ∧
      KeepsOthers console.vram (console.putchar call).vram := by
  rcases kernelPutchar_onScreen onScreen call.ch call.fc call.bg with ⟨onScreen', onText⟩
  exact ⟨onScreen', keepsOthers_foldl onText console.vram⟩

theorem foldl_putchar_onScreen {console : Console} (onScreen : console.cursor.OnScreen)
    (calls : List Call) : (calls.foldl putchar console).cursor.OnScreen ∧
      KeepsOthers console.vram (calls.foldl putchar console).vram := by
  induction calls generalizing console with
  | nil => exact ⟨onScreen, fun index outside => rfl⟩
  | cons call calls ih =>
      rcases putchar_onScreen onScreen call with ⟨onScreen', kept⟩
      rcases ih onScreen' with ⟨onScreen'', keptRest⟩
      exact ⟨onScreen'', fun index outside =>
        (keptRest index outside).trans (kept index outside)⟩

/-- A newline on the last text row -/
theorem putNewline_scrolls {cursor : Cursor} (onScreen : cursor.OnScreen)
    (isLast : cursor.row = vgaCharRow - 2) (vram : Memory) :
    ∃ blank, (putNewline cursor).2 = blank :: kernelScrollScreen ∧
      Blanked vram (blank.apply vram) (vgaCharRow - 2) cursor.col ∧
      Scrolled (blank.apply vram) ((putNewline cursor).2.foldl Access.apply vram) := by
  have accesses : (putNewline cursor).2 =
      .memsetWord ((vgaCharRow - 2) * vgaCharMaxCol + cursor.col) blankWord
        (vgaCharCol - cursor.col) :: kernelScrollScreen := by
    rw [putNewline, if_pos isLast, isLast]
  refine ⟨_, accesses, blanked_memsetWord vram onScreen.colNonneg onScreen.colLe, ?_⟩
  rw [accesses, List.foldl_cons]
  exact scrolled_scroll _

theorem run_onScreen (console : Console) (calls : List Call) :
    (console.run calls).cursor.OnScreen ∧ KeepsOthers console.vram (console.run calls).vram :=
  foldl_putchar_onScreen (initVga_onScreen console) calls

/-- Whatever is put out from `init_vga` on, the cursor stays on the text rows, the next call writes
these only, with lengths that are not negative, and a newline on the last text row blanks the rest
of it, moves the rows up and blanks the last one. -/
theorem run_stays_onScreen (console : Console) (calls : List Call) :
    (console.run calls).cursor.OnScreen ∧ KeepsOthers console.vram (console.run calls).vram ∧
      (∀ ch fc bg, ∀ access ∈ (kernelPutchar ch fc bg (console.run calls).cursor).accesses,
        access.OnText) ∧
      (∀ ch fc bg, BreaksLine ch (console.run calls).cursor → ∃ rest,
        (kernelPutchar ch fc bg (console.run calls).cursor).accesses =
          (putNewline (console.run calls).cursor).2 ++ rest) ∧
      ((console.run calls).cursor.row = vgaCharRow - 2 → ∃ blank,
        (putNewline (console.run calls).cursor).2 = blank :: kernelScrollScreen ∧
          Blanked (console.run calls).vram (blank.apply (console.run calls).vram)
            (vgaCharRow - 2) (console.run calls).cursor.col ∧
          Scrolled (blank.apply (console.run calls).vram)
            ((putNewline (console.run calls).cursor).2.foldl Access.apply
              (console.run calls).vram)) := by
  rcases console.run_onScreen calls with ⟨onScreen, kept⟩
  refine ⟨onScreen, kept, ?_, ?_, ?_⟩
  · exact fun ch fc bg => (kernelPutchar_onScreen onScreen ch fc bg).2
  · exact fun ch fc bg breaks => breaks.accesses fc bg
  · exact fun isLast => putNewline_scrolls onScreen isLast _

example : ((⟨⟨7, 7, 7, 7⟩, fun _ => 0⟩ : Console).run
    (List.replicate 28 ⟨10, 0, 0⟩)).cursor.row = vgaCharRow - 2 := by decide

end Console

end Ninix.Vga
