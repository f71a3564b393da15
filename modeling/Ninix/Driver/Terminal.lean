import Ninix.Driver.Console
import Ninix.Library.Printout

/-!
# The console as a window on a printout

After `kernel_clear_screen` has blanked the screen, the text rows show the end of a printout: the
last 29 lines of what has been put out, in rows of 80 characters. Tabs step over cells without
blanking them where the cursor is at a tab stop, so this needs that there is nothing behind the
cursor, which every call keeps.
-/

namespace Ninix.Vga

open WordMemory Printout

/-- The word that is stored for a character. -/
def charWord (ch fc bg : BitVec 32) : BitVec 32 :=
  ((bg &&& 0xfff) <<< 20) + ((fc &&& 0xfff) <<< 8) + (ch &&& 0xff)

/-- What a call puts out. -/
def Call.mark (call : Call) : Mark (BitVec 32) :=
  if call.ch = 13 then .nothing
  else if call.ch = 10 then .newline
  else if call.ch = 9 then .tab
  else .type (charWord call.ch call.fc call.bg)

namespace Console

def kernelClearScreen (scope : ℤ) (console : Console) : Console where
  cursor := { console.cursor with row := 0, col := 0 }.kernelSetCursor
  vram := (Access.memsetWord 0 blankWord (scope % 32 * vgaCharMaxCol)).apply console.vram

/-- The printout of 80 columns. -/
abbrev Sheet := Paper (BitVec 32) 80

def Sheet.put (sheet : Sheet) (call : Call) : Sheet := Paper.put blankWord 4 sheet call.mark

/-- What the calls put out from an empty sheet on. -/
def printed (calls : List Call) : Sheet :=
  (Paper.empty : Sheet).putAll blankWord 4 (calls.map Call.mark)

/-- The console shows the end of a printout. -/
structure Shows (console : Console) (sheet : Sheet) : Prop where
  row : console.cursor.row = sheet.cursorRow 29
  col : console.cursor.col = sheet.line.length
  cells : ∀ row col : ℕ, row < 29 → col < 128 →
    cell console.vram row col = sheet.shown blankWord 29 row col

variable {console : Console} {sheet : Sheet}

theorem Shows.onScreen (shows' : console.Shows sheet) : console.cursor.OnScreen := by
  have fits := sheet.fits
  have isRow : sheet.cursorRow 29 = min sheet.above.length 28 := rfl
  refine ⟨?_, ?_, ?_, ?_⟩
  · rw [shows'.row]
    omega
  · rw [shows'.row, isRow]
    show _ ≤ (28 : ℤ)
    omega
  · rw [shows'.col]
    omega
  · rw [shows'.col]
    show _ ≤ (80 : ℤ)
    omega

theorem cell_fillWords (vram : Memory) {dest row col : ℤ} (n : ℕ) :
    cell (fillWords vram dest blankWord n) row col =
      if dest ≤ row * 128 + col ∧ row * 128 + col < dest + n then blankWord
      else cell vram row col := word_fillWords vram dest _ n

/-- Blanks are written behind the cursor only, where there are blanks already. -/
theorem Shows.cells_fillWords (shows' : console.Shows sheet) {n : ℕ}
    (fits : console.cursor.col + n ≤ 128) (row col : ℕ) (rowLt : row < 29) (colLt : col < 128) :
    cell (fillWords console.vram (console.cursor.row * vgaCharMaxCol + console.cursor.col)
      blankWord n) row col = sheet.shown blankWord 29 row col := by
  have isRow := shows'.row
  have isCol := shows'.col
  rw [cell_fillWords, shows'.cells row col rowLt colLt]
  split_ifs with inFill
  · have sameRow : row = sheet.cursorRow 29 := by
      simp only [vgaCharMaxCol] at inFill
      omega
    have behind : sheet.line.length ≤ col := by
      simp only [vgaCharMaxCol] at inFill
      omega
    rw [sameRow, Paper.shown_cursorRow (by decide), List.getElem?_eq_none behind]
    rfl
  · rfl

/-- A newline goes on to a line that is blank, once what is behind the cursor has been blanked. -/
theorem putNewline_shows (isRow : console.cursor.row = sheet.cursorRow 29)
    (blanked : ∀ row col : ℕ, row < 29 → col < 128 →
      cell ((Access.memsetWord (console.cursor.row * vgaCharMaxCol + console.cursor.col) blankWord
        (vgaCharCol - console.cursor.col)).apply console.vram) row col =
          sheet.shown blankWord 29 row col) :
    Shows ⟨(putNewline console.cursor).1, (putNewline console.cursor).2.foldl Access.apply
      console.vram⟩ sheet.newline := by
  have cursorRow : sheet.cursorRow 29 = min sheet.above.length 28 := rfl
  have cursorRow' : sheet.newline.cursorRow 29 = min (sheet.above.length + 1) 28 := by
    rw [Paper.cursorRow, Paper.newline, List.length_append]
    rfl
  rw [Vga.putNewline]
  split_ifs with isLast
  · have full : 29 ≤ sheet.above.length + 1 := by
      have isLast' : console.cursor.row = 28 := isLast
      omega
    refine ⟨?_, rfl, fun row col rowLt colLt => ?_⟩
    · show console.cursor.row = _
      rw [isRow, cursorRow, cursorRow']
      omega
    · rw [List.foldl_cons, Paper.shown_newline_of_le full rowLt]
      have scrolled := scrolled_scroll ((Access.memsetWord
        (console.cursor.row * vgaCharMaxCol + console.cursor.col) blankWord
          (vgaCharCol - console.cursor.col)).apply console.vram)
      split_ifs with isLastRow
      · have row' : (row : ℤ) = vgaCharRow - 2 := by
          simp only [vgaCharRow]
          omega
        rw [row']
        exact scrolled.blank col (by omega) (by simp only [vgaCharMaxCol]; omega)
      · rw [scrolled.moved row col (by omega) (by simp only [vgaCharRow]; omega) (by omega)
          (by simp only [vgaCharMaxCol]; omega), ← blanked (row + 1) col (by omega) colLt]
        rfl
  · have room : sheet.above.length + 1 < 29 := by
      have notLast : console.cursor.row ≠ 28 := isLast
      omega
    refine ⟨?_, rfl, fun row col rowLt colLt => ?_⟩
    · show console.cursor.row + 1 = _
      rw [isRow, cursorRow, cursorRow']
      omega
    · rw [Paper.shown_newline_of_lt room]
      exact blanked row col rowLt colLt

theorem Shows.putNewline (shows' : console.Shows sheet) :
    Shows ⟨(putNewline console.cursor).1, (putNewline console.cursor).2.foldl Access.apply
      console.vram⟩ sheet.newline := by
  rcases shows'.onScreen.bounds with ⟨_, _, colNonneg, colLe⟩
  have len : (rounds (vgaCharCol - console.cursor.col) : ℤ) = 80 - console.cursor.col :=
    rounds_of_le (by simp only [vgaCharCol]; omega) (by simp only [vgaCharCol]; omega)
  exact putNewline_shows shows'.row (shows'.cells_fillWords (by omega))

/-- A character that has room is shown at the cursor. -/
theorem Shows.putcharAt (shows' : console.Shows sheet) (ch fc bg : BitVec 32)
    (room : sheet.line.length + [charWord ch fc bg].length ≤ 80) :
    Shows ⟨{ console.cursor with col := console.cursor.col + 1 }.kernelSetCursor,
      (kernelPutcharAt ch fc bg console.cursor.row console.cursor.col).apply console.vram⟩
      (sheet.append [charWord ch fc bg] room) := by
  rcases shows'.onScreen.bounds with ⟨rowNonneg, rowLe, colNonneg, colLe⟩
  have isRow := shows'.row
  have isCol := shows'.col
  have room' : sheet.line.length + 1 ≤ 80 := room
  refine ⟨isRow, ?_, fun row col rowLt colLt => ?_⟩
  · show console.cursor.col + 1 = ((sheet.line ++ [_]).length : ℤ)
    rw [List.length_append, List.length_singleton, isCol]
    rfl
  · rw [Paper.shown_append (by decide) rowLt, cell, kernelPutcharAt, Access.apply, word_storeWord,
      ← cell, shows'.cells row col rowLt colLt]
    have place : row * vgaCharMaxCol + col = console.cursor.row % 32 * vgaCharMaxCol +
        console.cursor.col % 128 ↔ row = sheet.cursorRow 29 ∧ col = sheet.line.length := by
      simp only [vgaCharMaxCol]
      omega
    simp only [place]
    by_cases here : row = sheet.cursorRow 29 ∧ col = sheet.line.length
    · rw [if_pos here, if_pos ⟨here.1, Nat.le_of_eq here.2.symm⟩, here.2, Nat.sub_self]
      rfl
    · rw [if_neg here]
      split_ifs with behind
      · have past : [charWord ch fc bg].length ≤ col - sheet.line.length := by
          rw [List.length_singleton]
          omega
        rw [behind.1, Paper.shown_cursorRow (by decide), List.getElem?_eq_none behind.2,
          List.getElem?_eq_none past]
      · rfl

theorem Shows.wrap (shows' : console.Shows sheet) :
    Shows ⟨(wrap console.cursor).1, (wrap console.cursor).2.foldl Access.apply console.vram⟩
      (if sheet.line.length < 80 then sheet else sheet.newline) := by
  have isCol := shows'.col
  have fits := sheet.fits
  rw [Vga.wrap]
  have atEnd : console.cursor.col = vgaCharCol ↔ ¬sheet.line.length < 80 := by
    simp only [vgaCharCol]
    omega
  by_cases room : sheet.line.length < 80
  · rw [if_pos room, if_neg (mt atEnd.mp (not_not_intro room))]
    exact shows'
  · rw [if_neg room, if_pos (atEnd.mpr room)]
    exact shows'.putNewline

/-- Each call does to the screen what it does to the printout. -/
theorem Shows.putchar (shows' : console.Shows sheet) (call : Call) :
    (console.putchar call).Shows (sheet.put call) := by
  have isCol := shows'.col
  have fits := sheet.fits
  rw [Console.putchar, Sheet.put, Call.mark, kernelPutchar]
  split_ifs with isReturn isNewline isTab atEnd
  · exact shows'
  · exact shows'.putNewline
  · -- A tab that does not fit ends the line.
    have full : ¬sheet.line.length + 4 < 80 := by
      simp only [vgaCharCol] at atEnd
      omega
    have sheet' : Paper.put blankWord 4 sheet .tab = sheet.newline := dif_neg full
    rw [sheet']
    rcases shows'.putNewline with ⟨row, col, cells⟩
    exact ⟨row, col, cells⟩
  · have room : sheet.line.length + 4 < 80 := by
      simp only [vgaCharCol] at atEnd
      omega
    have sheet' : Paper.put blankWord 4 sheet .tab = sheet.append _ _ := dif_pos room
    rw [sheet']
    refine ⟨shows'.row, ?_, fun row col rowLt colLt => ?_⟩
    · show console.cursor.col + 4 - (console.cursor.col + 4) % 4 = ((sheet.line ++ _).length : ℤ)
      rw [List.length_append, List.length_replicate, Paper.gap, isCol]
      omega
    · have len : rounds ((4 - console.cursor.col) % 4) ≤ 3 := by
        rw [rounds]
        omega
      rw [Paper.shown_append (by decide) rowLt, List.foldl_cons, List.foldl_nil, Access.apply,
        shows'.cells_fillWords (by omega) row col rowLt colLt]
      split_ifs with behind
      · rw [behind.1, Paper.shown_cursorRow (by decide), List.getElem?_eq_none behind.2,
          List.getElem?_replicate]
        split_ifs <;> rfl
      · rfl
  · have wrapped := shows'.wrap
    rw [List.foldl_append, Paper.put, Paper.type]
    by_cases room : sheet.line.length < 80
    · rw [if_pos room] at wrapped
      rw [dif_pos room]
      exact wrapped.putcharAt _ _ _ room
    · rw [if_neg room] at wrapped
      rw [dif_neg room]
      exact wrapped.putcharAt _ _ _ (show 0 + 1 ≤ 80 by decide)

theorem Shows.putchars (shows' : console.Shows sheet) (calls : List Call) :
    (calls.foldl Console.putchar console).Shows (calls.foldl Sheet.put sheet) := by
  induction calls generalizing console sheet with
  | nil => exact shows'
  | cons call calls ih => exact ih (shows'.putchar call)

theorem printed_eq (calls : List Call) : printed calls = calls.foldl Sheet.put Paper.empty := by
  rw [printed, Paper.putAll, List.foldl_map]
  rfl

theorem shows_clearScreen (console : Console) {scope : ℤ} (le : 29 ≤ scope % 32) :
    (console.kernelClearScreen scope).Shows Paper.empty := by
  refine ⟨rfl, rfl, fun row col rowLt colLt => ?_⟩
  have len : (rounds (scope % 32 * vgaCharMaxCol) : ℤ) = scope % 32 * 128 :=
    rounds_of_le (by simp only [vgaCharMaxCol]; omega) (by simp only [vgaCharMaxCol]; omega)
  rw [Paper.shown_empty, kernelClearScreen, Access.apply, cell_fillWords, if_pos]
  omega

theorem lines_printed {calls : List Call} (noTab : ∀ call ∈ calls, call.ch ≠ 9) :
    (printed calls).lines = layout 80 (calls.map Call.mark) := by
  refine Paper.lines_putAll_empty blankWord 4 fun mark mem => ?_
  rcases List.mem_map.mp mem with ⟨call, callMem, rfl⟩
  rw [Call.mark]
  split_ifs with isReturn isNewline isTab
  · rfl
  · rfl
  · exact absurd isTab (noTab call callMem)
  · rfl

theorem shows_printed (console : Console) (calls : List Call) :
    (calls.foldl putchar (console.kernelClearScreen 31)).Shows (printed calls) := by
  rw [printed_eq]
  exact (shows_clearScreen console (by decide)).putchars calls

/-- After the screen has been cleared, and whatever is put out then, the cursor is at the end of the
printout, and the text rows show its last 29 lines with blanks behind them. The lines of a text
without tabs are those that it is broken into, at the ends of its lines and every 80 characters. -/
theorem screen_of_calls (console : Console) (calls : List Call) :
    (calls.foldl putchar (console.kernelClearScreen 31)).Shows (printed calls) ∧
      ((∀ call ∈ calls, call.ch ≠ 9) →
        (printed calls).lines = layout 80 (calls.map Call.mark)) :=
  ⟨shows_printed console calls, lines_printed⟩

end Console

end Ninix.Vga
