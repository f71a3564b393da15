import Ninix.Driver.Printf

/-!
# Erased characters

A character is erased by a space that is put in front of the cursor, which then goes back. What is
left is not a blank as the driver writes them, though it looks like one. It stays until something
is written over it, at the latest by the newline that ends the line.
-/

namespace Ninix.Vga

open WordMemory Printout

namespace Console

/-- What the shell does with a character that is taken back. -/
def erase (console : Console) : Console where
  cursor := { console.cursor with col := console.cursor.col - 1 }.kernelSetCursor
  vram := (kernelPutcharAt 32 0xfff 0 console.cursor.row (console.cursor.col - 1)).apply
    console.vram

/-- The word of a space that has been put over a character. -/
abbrev spaceWord : BitVec 32 := charWord 32 0xfff 0

/-- The console shows the end of a printout, but for spaces in place of blanks behind the
cursor. -/
structure Displays (console : Console) (sheet : Sheet) : Prop where
  row : console.cursor.row = sheet.cursorRow 29
  col : console.cursor.col = sheet.line.length
  cells : ∀ row col : ℕ, row < 29 → col < 128 →
    cell console.vram row col = sheet.shown blankWord 29 row col ∨
      row = sheet.cursorRow 29 ∧ sheet.line.length ≤ col ∧ col < 80 ∧
        cell console.vram row col = spaceWord

variable {console : Console} {sheet : Sheet}

theorem Shows.displays (shows' : console.Shows sheet) : console.Displays sheet :=
  ⟨shows'.row, shows'.col, fun row col rowLt colLt => Or.inl (shows'.cells row col rowLt colLt)⟩

/-- The row and the column of the cursor in numbers. -/
theorem Displays.bounds (displays : console.Displays sheet) :
    0 ≤ console.cursor.row ∧ console.cursor.row ≤ 28 ∧ 0 ≤ console.cursor.col ∧
      console.cursor.col ≤ 80 := by
  have fits := sheet.fits
  have isRow : sheet.cursorRow 29 = min sheet.above.length 28 := rfl
  have row := displays.row
  have col := displays.col
  refine ⟨?_, ?_, ?_, ?_⟩ <;> omega

/-- A newline blanks all that has been erased. -/
theorem Displays.putNewline (displays : console.Displays sheet) :
    Shows ⟨(putNewline console.cursor).1, (putNewline console.cursor).2.foldl Access.apply
      console.vram⟩ sheet.newline := by
  rcases displays.bounds with ⟨_, _, colNonneg, colLe⟩
  have isRow := displays.row
  have isCol := displays.col
  have len : (rounds (vgaCharCol - console.cursor.col) : ℤ) = 80 - console.cursor.col :=
    rounds_of_le (by simp only [vgaCharCol]; omega) (by simp only [vgaCharCol]; omega)
  refine putNewline_shows isRow fun row col rowLt colLt => ?_
  rw [Access.apply, cell_fillWords]
  split_ifs with inFill
  · have sameRow : row = sheet.cursorRow 29 := by
      simp only [vgaCharMaxCol] at inFill
      omega
    have behind : sheet.line.length ≤ col := by
      simp only [vgaCharMaxCol] at inFill
      omega
    rw [sameRow, Paper.shown_cursorRow (by decide), List.getElem?_eq_none behind]
    rfl
  · rcases displays.cells row col rowLt colLt with same | ⟨sameRow, behind, inLine, _⟩
    · exact same
    · -- All spaces are in the row of the cursor, behind it.
      refine absurd ?_ inFill
      simp only [vgaCharMaxCol]
      omega

/-- A character may be put over a space. -/
theorem Displays.putcharAt (displays : console.Displays sheet) (ch fc bg : BitVec 32)
    (room : sheet.line.length + [charWord ch fc bg].length ≤ 80) :
    Displays ⟨{ console.cursor with col := console.cursor.col + 1 }.kernelSetCursor,
      (kernelPutcharAt ch fc bg console.cursor.row console.cursor.col).apply console.vram⟩
      (sheet.append [charWord ch fc bg] room) := by
  rcases displays.bounds with ⟨rowNonneg, rowLe, colNonneg, colLe⟩
  have isRow := displays.row
  have isCol := displays.col
  have room' : sheet.line.length + 1 ≤ 80 := room
  have longer : (sheet.append [charWord ch fc bg] room).line.length = sheet.line.length + 1 :=
    List.length_append
  refine ⟨isRow, ?_, fun row col rowLt colLt => ?_⟩
  · show console.cursor.col + 1 = _
    rw [longer, isCol]
    rfl
  · have place : row * vgaCharMaxCol + col = console.cursor.row % 32 * vgaCharMaxCol +
        console.cursor.col % 128 ↔ row = sheet.cursorRow 29 ∧ col = sheet.line.length := by
      simp only [vgaCharMaxCol]
      omega
    rw [Paper.shown_append (by decide) rowLt, longer]
    simp only [cell, kernelPutcharAt, Access.apply, word_storeWord, place]
    by_cases here : row = sheet.cursorRow 29 ∧ col = sheet.line.length
    · left
      rw [if_pos here, if_pos ⟨here.1, Nat.le_of_eq here.2.symm⟩, here.2, Nat.sub_self]
      rfl
    · rw [if_neg here]
      rcases displays.cells row col rowLt colLt with same | ⟨sameRow, behind, inLine, isSpace⟩
      · left
        rw [← cell, same]
        split_ifs with behind
        · have past : [charWord ch fc bg].length ≤ col - sheet.line.length := by
            rw [List.length_singleton]
            omega
          rw [behind.1, Paper.shown_cursorRow (by decide), List.getElem?_eq_none behind.2,
            List.getElem?_eq_none past]
        · rfl
      · exact Or.inr ⟨sameRow, by omega, inLine, isSpace⟩

/-- The last character of the line is taken back. -/
theorem Displays.erase {w : BitVec 32} {room : sheet.line.length + [w].length ≤ 80}
    (displays : console.Displays (sheet.append [w] room)) : console.erase.Displays sheet := by
  rcases displays.bounds with ⟨rowNonneg, rowLe, colNonneg, colLe⟩
  have room' : sheet.line.length + 1 ≤ 80 := room
  have longer : (sheet.append [w] room).line.length = sheet.line.length + 1 := List.length_append
  have isRow : console.cursor.row = sheet.cursorRow 29 := displays.row
  have isCol : console.cursor.col = sheet.line.length + 1 := by
    rw [displays.col, longer]
    rfl
  refine ⟨isRow, ?_, fun row col rowLt colLt => ?_⟩
  · show console.cursor.col - 1 = _
    omega
  · have place : row * vgaCharMaxCol + col = console.cursor.row % 32 * vgaCharMaxCol +
        (console.cursor.col - 1) % 128 ↔
          row = sheet.cursorRow 29 ∧ col = sheet.line.length := by
      simp only [vgaCharMaxCol]
      omega
    simp only [Console.erase, cell, kernelPutcharAt, Access.apply, word_storeWord, place]
    by_cases here : row = sheet.cursorRow 29 ∧ col = sheet.line.length
    · rw [if_pos here]
      exact Or.inr ⟨here.1, here.2.ge, by omega, rfl⟩
    · rw [if_neg here]
      rcases displays.cells row col rowLt colLt with same | ⟨sameRow, behind, inLine, isSpace⟩
      · left
        rw [← cell, same, Paper.shown_append (by decide) rowLt]
        split_ifs with behind
        · have past : [w].length ≤ col - sheet.line.length := by
            rw [List.length_singleton]
            omega
          rw [behind.1, Paper.shown_cursorRow (by decide), List.getElem?_eq_none behind.2,
            List.getElem?_eq_none past]
        · rfl
      · exact Or.inr ⟨sameRow, by omega, inLine, isSpace⟩

/-- A character that stands for itself, where the line has room for it, goes to its end. -/
theorem put_plain {call : Call} (plain : call.ch ≠ 13 ∧ call.ch ≠ 10 ∧ call.ch ≠ 9)
    (room : sheet.line.length < 80) :
    sheet.put call = sheet.append [charWord call.ch call.fc call.bg] room := by
  rw [Sheet.put, Call.mark, if_neg plain.1, if_neg plain.2.1, if_neg plain.2.2]
  exact dif_pos room

theorem Displays.type (displays : console.Displays sheet) {call : Call}
    (plain : call.ch ≠ 13 ∧ call.ch ≠ 10 ∧ call.ch ≠ 9) (room : sheet.line.length < 80) :
    (console.putchar call).Displays (sheet.put call) := by
  have isCol := displays.col
  have notAtEnd : ¬console.cursor.col = vgaCharCol := by
    simp only [vgaCharCol]
    omega
  have stays : wrap console.cursor = (console.cursor, []) := if_neg notAtEnd
  rw [put_plain plain room, Console.putchar, kernelPutchar, if_neg plain.1, if_neg plain.2.1,
    if_neg plain.2.2, stays]
  exact displays.putcharAt _ _ _ room

/-- A newline and whatever is put out then: nothing that has been erased is left. -/
theorem Displays.newline (displays : console.Displays sheet) {call : Call}
    (isNewline : call.ch = 10) (calls : List Call) :
    (calls.foldl Console.putchar (console.putchar call)).Shows
      (calls.foldl Sheet.put (sheet.put call)) := by
  apply Shows.putchars
  have sheet' : sheet.put call = sheet.newline := by
    rw [Sheet.put, Call.mark, isNewline]
    rfl
  rw [sheet', Console.putchar, kernelPutchar, isNewline]
  exact displays.putNewline

end Console

end Ninix.Vga
