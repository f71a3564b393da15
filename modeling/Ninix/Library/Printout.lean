import Mathlib

/-!
# A printout and the window on its end

A printer puts characters behind one another, in lines of a fixed width. A character that has no
room goes to the next line. A window of some rows shows the last lines. Without tabs, the lines are
those that the text is broken into: it is split at the ends of lines, and each piece is cut into
rows of the width.
-/

namespace Printout

/-- What is put out: a character, the end of a line, a step to the next tab stop, or nothing. -/
inductive Mark (α : Type*)
  | type (a : α)
  | newline
  | tab
  | nothing

namespace Mark

variable {α : Type*}

def char? : Mark α → Option α
  | type a => some a
  | _ => none

def isNewline : Mark α → Bool
  | newline => true
  | _ => false

def isTab : Mark α → Bool
  | tab => true
  | _ => false

end Mark

/-- The lines that are complete, and the one that is written. -/
structure Paper (α : Type*) (width : ℕ) where
  above : List (List α)
  line : List α
  fits : line.length ≤ width

namespace Paper

variable {α : Type*} {width : ℕ}

def empty : Paper α width := ⟨[], [], Nat.zero_le width⟩

def newline (paper : Paper α width) : Paper α width :=
  ⟨paper.above ++ [paper.line], [], Nat.zero_le width⟩

/-- Characters that have room in the line -/
def append (paper : Paper α width) (text : List α)
    (room : paper.line.length + text.length ≤ width) : Paper α width :=
  ⟨paper.above, paper.line ++ text, by rw [List.length_append]; exact room⟩

def type [NeZero width] (paper : Paper α width) (a : α) : Paper α width :=
  if room : paper.line.length < width then paper.append [a] room
  else paper.newline.append [a] (Nat.pos_of_neZero width)

/-- The characters up to the next tab stop -/
def gap (stop : ℕ) (paper : Paper α width) : ℕ := stop - paper.line.length % stop

/-- Blanks up to the next tab stop. At the end of the line there is none. -/
def tab (blank : α) (stop : ℕ) (paper : Paper α width) : Paper α width :=
  if room : paper.line.length + stop < width then
    paper.append (List.replicate (paper.gap stop) blank) (by
      rw [List.length_replicate, gap]
      omega)
  else paper.newline

section Put

variable [NeZero width] (blank : α) (stop : ℕ)

def put (paper : Paper α width) : Mark α → Paper α width
  | .type a => paper.type a
  | .newline => paper.newline
  | .tab => paper.tab blank stop
  | .nothing => paper

def putAll (paper : Paper α width) (text : List (Mark α)) : Paper α width :=
  text.foldl (put blank stop) paper

end Put

/-! ## The window -/

def lines (paper : Paper α width) : List (List α) := paper.above ++ [paper.line]

/-- The lines above the window. -/
def hidden (height : ℕ) (paper : Paper α width) : ℕ := paper.lines.length - height

/-- The row of the window that the line being written is shown in. -/
def cursorRow (height : ℕ) (paper : Paper α width) : ℕ := min paper.above.length (height - 1)

/-- What the window shows in a row and a column. -/
def shown (blank : α) (height : ℕ) (paper : Paper α width) (row col : ℕ) : α :=
  ((paper.lines[row + paper.hidden height]?.getD [])[col]?).getD blank

variable {blank : α} {height row col : ℕ} {paper : Paper α width}

@[simp]
theorem length_lines : paper.lines.length = paper.above.length + 1 := List.length_append

theorem hidden_eq : paper.hidden height = paper.above.length + 1 - height := by
  rw [hidden, length_lines]

theorem lines_getElem? (index : ℕ) : paper.lines[index]? =
    if index = paper.above.length then some paper.line else paper.above[index]? := by
  rw [lines, List.getElem?_append]
  split_ifs with inFront isLast isLast
  · omega
  · rfl
  · rw [isLast, Nat.sub_self]
    rfl
  · rw [List.getElem?_eq_none (by rw [List.length_singleton]; omega),
      List.getElem?_eq_none (Nat.le_of_not_lt inFront)]

theorem row_hidden (rowLt : row < height) :
    row + paper.hidden height = paper.above.length ↔ row = paper.cursorRow height := by
  rw [hidden_eq, cursorRow]
  omega

theorem shown_cursorRow (pos : 0 < height) :
    paper.shown blank height (paper.cursorRow height) col = (paper.line[col]?).getD blank := by
  have isRow : paper.cursorRow height < height := by
    rw [cursorRow]
    omega
  rw [shown, (row_hidden isRow).mpr rfl, lines_getElem?, if_pos rfl]
  rfl

theorem shown_of_ne (rowLt : row < height) (other : row ≠ paper.cursorRow height) :
    paper.shown blank height row col =
      ((paper.above[row + paper.hidden height]?.getD [])[col]?).getD blank := by
  rw [shown, lines_getElem?, if_neg (mt (row_hidden rowLt).mp other)]

theorem shown_empty : (empty : Paper α width).shown blank height row col = blank := by
  have lines : (empty : Paper α width).lines = [[]] := rfl
  rw [shown, lines]
  cases row + empty.hidden height with
  | zero => rfl
  | succ index => rfl

/-- Characters that are put behind the others are shown there, and nothing else is changed. -/
theorem shown_append (pos : 0 < height) (rowLt : row < height) {text : List α}
    (room : paper.line.length + text.length ≤ width) :
    (paper.append text room).shown blank height row col =
      if row = paper.cursorRow height ∧ paper.line.length ≤ col then
        (text[col - paper.line.length]?).getD blank
      else paper.shown blank height row col := by
  by_cases isRow : row = paper.cursorRow height
  · have isRow' : row = (paper.append text room).cursorRow height := isRow
    rw [isRow', shown_cursorRow pos, ← isRow', isRow, shown_cursorRow pos]
    have line : (paper.append text room).line = paper.line ++ text := rfl
    rw [line, List.getElem?_append]
    split_ifs with inFront behind behind
    · exact absurd behind.2 (Nat.not_le_of_lt inFront)
    · rfl
    · rfl
    · exact absurd ⟨rfl, Nat.le_of_not_lt inFront⟩ behind
  · have isRow' : row ≠ (paper.append text room).cursorRow height := isRow
    rw [if_neg fun inText => isRow inText.1, shown_of_ne rowLt isRow, shown_of_ne rowLt isRow',
      hidden_eq, hidden_eq]
    rfl

/-- A new line below all that is shown -/
theorem shown_newline_of_lt (room : paper.above.length + 1 < height) :
    paper.newline.shown blank height row col = paper.shown blank height row col := by
  have hidden : paper.hidden height = 0 := by
    rw [hidden_eq]
    omega
  have hidden' : paper.newline.hidden height = 0 := by
    have above : paper.newline.above.length = paper.above.length + 1 := List.length_append
    rw [hidden_eq, above]
    omega
  have lines : paper.newline.lines = paper.lines ++ [[]] := rfl
  rw [shown, shown, hidden, hidden', lines, Nat.add_zero, List.getElem?_append]
  split_ifs with inFront
  · rfl
  · rw [List.getElem?_eq_none (Nat.le_of_not_lt inFront)]
    cases row - paper.lines.length with
    | zero => rfl
    | succ index => rfl

/-- A new line for which the first row makes room -/
theorem shown_newline_of_le (full : height ≤ paper.above.length + 1) (rowLt : row < height) :
    paper.newline.shown blank height row col =
      if row + 1 = height then blank else paper.shown blank height (row + 1) col := by
  have above : paper.newline.above.length = paper.above.length + 1 := List.length_append
  have lines : paper.newline.lines = paper.lines ++ [[]] := rfl
  have hidden' : paper.newline.hidden height = paper.hidden height + 1 := by
    rw [hidden_eq, hidden_eq, above]
    omega
  rw [shown, lines, hidden', hidden_eq]
  split_ifs with isLast
  · rw [List.getElem?_append_right (by rw [length_lines]; omega)]
    have first : row + (paper.above.length + 1 - height + 1) - paper.lines.length = 0 := by
      rw [length_lines]
      omega
    rw [first]
    rfl
  · rw [List.getElem?_append_left (by rw [length_lines]; omega), shown, hidden_eq]
    have same : row + (paper.above.length + 1 - height + 1) =
        row + 1 + (paper.above.length + 1 - height) := by omega
    rw [same]

end Paper

/-! ## How a text is broken into lines -/

/-- The rows of a line: as many characters as there is room for, and the rest below. -/
def rows {α : Type*} (width : ℕ) [NeZero width] (line : List α) : List (List α) :=
  if line.length ≤ width then [line] else line.take width :: rows width (line.drop width)
termination_by line.length
decreasing_by
  have pos := Nat.pos_of_neZero width
  rw [List.length_drop]
  omega

/-- The characters of each line of a text. -/
def lineTexts {α : Type*} (text : List (Mark α)) : List (List α) :=
  (text.splitOnP Mark.isNewline).map (List.filterMap Mark.char?)

/-- The rows of a text, where each end of a line begins a new row. -/
def layout {α : Type*} (width : ℕ) [NeZero width] (text : List (Mark α)) : List (List α) :=
  (lineTexts text).flatMap (rows width)

theorem lineTexts_ne_nil {α : Type*} (text : List (Mark α)) : lineTexts text ≠ [] := by
  rw [lineTexts, Ne, List.map_eq_nil_iff]
  exact List.splitOnP_ne_nil _ _

theorem lineTexts_newline {α : Type*} (text : List (Mark α)) :
    lineTexts (.newline :: text) = [] :: lineTexts text := by
  rw [lineTexts, List.splitOnP_cons_eq_if_modifyHead]
  rfl

theorem lineTexts_cons {α : Type*} {mark : Mark α} (stays : mark.isNewline = false)
    (text : List (Mark α)) : lineTexts (mark :: text) =
      (lineTexts text).modifyHead (mark.char?.toList ++ ·) := by
  rw [lineTexts, lineTexts, List.splitOnP_cons_eq_if_modifyHead,
    if_neg (ne_true_of_eq_false stays)]
  cases text.splitOnP Mark.isNewline with
  | nil => rfl
  | cons first rest =>
      show List.filterMap Mark.char? (mark :: first) :: _ = (_ ++ _) :: _
      rw [List.filterMap_cons]
      cases mark.char? with
      | none => rfl
      | some a => rfl

variable {α : Type*} {width : ℕ} [NeZero width]

theorem rows_of_le {line : List α} (le : line.length ≤ width) : rows width line = [line] := by
  rw [rows, if_pos le]

theorem rows_append {line rest : List α} (full : line.length = width) (notNil : rest ≠ []) :
    rows width (line ++ rest) = line :: rows width rest := by
  have pos := List.length_pos_iff.mpr notNil
  have more : ¬(line ++ rest).length ≤ width := by
    rw [List.length_append]
    omega
  rw [rows, if_neg more, List.take_left' full, List.drop_left' full]

/-- The rows of a text in front of which a line has been begun. -/
def layoutBehind (width : ℕ) [NeZero width] (line : List α) (text : List (Mark α)) :
    List (List α) :=
  ((lineTexts text).modifyHead (line ++ ·)).flatMap (rows width)

theorem layoutBehind_nil (text : List (Mark α)) :
    layoutBehind width [] text = layout width text := by
  rw [layoutBehind, layout]
  cases lineTexts text with
  | nil => rfl
  | cons first rest => rfl

theorem layoutBehind_newline (line : List α) (text : List (Mark α)) :
    layoutBehind width line (.newline :: text) = rows width line ++ layout width text := by
  rw [layoutBehind, lineTexts_newline, List.modifyHead_cons, List.append_nil, List.flatMap_cons,
    layout]

theorem layoutBehind_cons {mark : Mark α} (stays : mark.isNewline = false) (line : List α)
    (text : List (Mark α)) : layoutBehind width line (mark :: text) =
      layoutBehind width (line ++ mark.char?.toList) text := by
  rw [layoutBehind, layoutBehind, lineTexts_cons stays]
  cases lineTexts text with
  | nil => rfl
  | cons first rest =>
      rw [List.modifyHead_cons, List.modifyHead_cons, List.modifyHead_cons, List.append_assoc]

/-- Behind a line that is full, the text begins the next row. -/
theorem layoutBehind_full {line : List α} (full : line.length = width) (a : α)
    (text : List (Mark α)) :
    layoutBehind width (line ++ [a]) text = line :: layoutBehind width [a] text := by
  rw [layoutBehind, layoutBehind]
  cases split : lineTexts text with
  | nil => exact absurd split (lineTexts_ne_nil text)
  | cons first rest =>
      have cut : rows width (line ++ ([a] ++ first)) = line :: rows width ([a] ++ first) :=
        rows_append full (List.cons_ne_nil a first)
      rw [List.modifyHead_cons, List.modifyHead_cons, List.flatMap_cons, List.flatMap_cons,
        List.append_assoc, cut, List.cons_append]

namespace Paper

/-- A printer that puts out a text without tabs writes the rows that the text is broken into. -/
theorem lines_putAll (blank : α) (stop : ℕ) {text : List (Mark α)}
    (noTab : ∀ mark ∈ text, mark.isTab = false) (paper : Paper α width) :
    (paper.putAll blank stop text).lines = paper.above ++ layoutBehind width paper.line text := by
  induction text generalizing paper with
  | nil =>
      show paper.above ++ [paper.line] = paper.above ++ (rows width (paper.line ++ []) ++ [])
      rw [List.append_nil, List.append_nil, rows_of_le paper.fits]
  | cons mark text ih =>
      have step : paper.putAll blank stop (mark :: text) =
          (paper.put blank stop mark).putAll blank stop text := rfl
      rw [step, ih fun other mem => noTab other (List.mem_cons_of_mem mark mem)]
      cases mark with
      | newline =>
          rw [layoutBehind_newline, rows_of_le paper.fits, ← List.append_assoc,
            ← layoutBehind_nil]
          rfl
      | tab => exact absurd (noTab .tab List.mem_cons_self) Bool.noConfusion
      | nothing =>
          rw [layoutBehind_cons rfl]
          exact congrArg (paper.above ++ layoutBehind width · text) (List.append_nil _).symm
      | type a =>
          rw [layoutBehind_cons rfl]
          show (paper.type a).above ++ layoutBehind width (paper.type a).line text =
            paper.above ++ layoutBehind width (paper.line ++ [a]) text
          rw [type]
          split_ifs with room
          · rfl
          · have full : paper.line.length = width :=
              Nat.le_antisymm paper.fits (Nat.le_of_not_lt room)
            rw [layoutBehind_full full, List.append_cons]
            rfl

theorem lines_putAll_empty (blank : α) (stop : ℕ) {text : List (Mark α)}
    (noTab : ∀ mark ∈ text, mark.isTab = false) :
    ((empty : Paper α width).putAll blank stop text).lines = layout width text := by
  rw [lines_putAll blank stop noTab]
  exact layoutBehind_nil text

end Paper

end Printout
