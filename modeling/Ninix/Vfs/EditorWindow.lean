import Ninix.Vfs.Editor

/-!
# The window of the editor

The window begins at a line and ends where the screen is full. After a key it is moved by one line
at most: one line up where the cursor is in front of it, and one line down where the cursor is
behind it. That shows the cursor again unless a line is longer than the screen below its first
line.
-/

namespace Ninix.Vi

open TransitionSystem

variable {buffer buffer' : ℕ → UInt8} {first x y z : ℕ}

/-! ## Where the characters are drawn -/

/-- Row and column of a character, counted from the first one drawn. -/
def place (buffer : ℕ → UInt8) (first : ℕ) : ℕ → ℕ × ℕ
  | 0 => (0, 0)
  | n + 1 =>
      Victrl.advance (buffer (first + n)) (place buffer first n).1 (place buffer first n).2

/-- The row of a character -/
def row (buffer : ℕ → UInt8) (first loc : ℕ) : ℕ := (place buffer first (loc - first)).1

theorem advance_newline (row col : ℕ) : Victrl.advance keyEnterN row col = (row + 1, 0) := rfl

/-- A character other than a newline takes columns, and the row goes on behind the last one. -/
theorem exists_advance {c : UInt8} (notNewline : c ≠ keyEnterN) (col : ℕ) :
    ∃ col', ∀ row, Victrl.advance c row col =
      if colLen ≤ col' then (row + 1, 0) else (row, col') := by
  by_cases isReturn : c = keyEnterR
  · exact ⟨col, fun row => by rw [Victrl.advance, if_neg notNewline, if_pos isReturn]⟩
  by_cases isTab : c = keyTab
  · refine ⟨col / 4 * 4 + 4, fun row => ?_⟩
    rw [Victrl.advance, if_neg notNewline, if_neg isReturn, if_pos isTab]
  · refine ⟨col + 1, fun row => ?_⟩
    rw [Victrl.advance, if_neg notNewline, if_neg isReturn, if_neg isTab]

theorem advance_row (c : UInt8) (row col : ℕ) :
    row ≤ (Victrl.advance c row col).1 ∧ (Victrl.advance c row col).1 ≤ row + 1 := by
  by_cases isNewline : c = keyEnterN
  · rw [isNewline, advance_newline]
    exact ⟨Nat.le_succ row, Nat.le.refl⟩
  · rcases exists_advance isNewline col with ⟨col', eq⟩
    rw [eq]
    split_ifs
    · exact ⟨Nat.le_succ row, Nat.le.refl⟩
    · exact ⟨Nat.le.refl, Nat.le_succ row⟩

theorem advance_add (c : UInt8) (k row col : ℕ) :
    Victrl.advance c (k + row) col =
      (k + (Victrl.advance c row col).1, (Victrl.advance c row col).2) := by
  by_cases isNewline : c = keyEnterN
  · rw [isNewline, advance_newline, advance_newline, Nat.add_assoc]
  · rcases exists_advance isNewline col with ⟨col', eq⟩
    rw [eq, eq]
    split_ifs
    · rw [Nat.add_assoc]
    · rfl

theorem row_self (buffer : ℕ → UInt8) (first : ℕ) : row buffer first first = 0 := by
  rw [row, Nat.sub_self]
  rfl

theorem row_succ (le : first ≤ y) :
    row buffer first (y + 1) = (Victrl.advance (buffer y) (row buffer first y)
      (place buffer first (y - first)).2).1 := by
  rw [row, Nat.succ_sub le, place, Nat.add_sub_cancel' le]
  rfl

theorem row_le_succ (le : first ≤ y) : row buffer first y ≤ row buffer first (y + 1) := by
  rw [row_succ le]
  exact (advance_row _ _ _).1

theorem row_succ_le (le : first ≤ y) : row buffer first (y + 1) ≤ row buffer first y + 1 := by
  rw [row_succ le]
  exact (advance_row _ _ _).2

theorem row_mono (le : first ≤ x) (le' : x ≤ y) : row buffer first x ≤ row buffer first y := by
  induction le' with
  | refl => exact Nat.le.refl
  | step le' ih => exact ih.trans (row_le_succ (le.trans le'))

/-- The places depend on the characters in front of them only. -/
theorem place_congr {n : ℕ} (same : ∀ i < n, buffer' (first + i) = buffer (first + i)) :
    place buffer' first n = place buffer first n := by
  induction n with
  | zero => rfl
  | succ n ih =>
      rw [place, place, same n (Nat.lt_succ_self n), ih fun i lt => same i (Nat.lt_succ_of_lt lt)]

theorem row_congr (le : first ≤ y) (same : ∀ i < y, buffer' i = buffer i) :
    row buffer' first y = row buffer first y :=
  congrArg Prod.fst (place_congr fun i _ => same (first + i) (by omega))

/-- Behind a newline the places are those of a window that begins there, further down. -/
theorem place_add {n : ℕ} (isNewline : buffer (first + n) = keyEnterN) (m : ℕ) :
    place buffer first (n + 1 + m) =
      ((place buffer first n).1 + 1 + (place buffer (first + (n + 1)) m).1,
        (place buffer (first + (n + 1)) m).2) := by
  induction m with
  | zero =>
      exact congrArg (Victrl.advance · (place buffer first n).1 (place buffer first n).2) isNewline
  | succ m ih =>
      rw [← Nat.add_assoc, place, ih, place, advance_add, Nat.add_assoc first]

/-- From a later line on, fewer rows are drawn. -/
theorem row_lt_row (lt : first < x) (isNewline : buffer (x - 1) = keyEnterN) (le : x ≤ y) :
    row buffer x y < row buffer first y := by
  obtain ⟨n, rfl⟩ : ∃ n, x = first + (n + 1) := ⟨x - first - 1, by omega⟩
  obtain ⟨m, rfl⟩ : ∃ m, y = first + (n + 1) + m := ⟨y - (first + (n + 1)), by omega⟩
  have all : first + (n + 1) + m - first = n + 1 + m := by omega
  have rest : first + (n + 1) + m - (first + (n + 1)) = m := by omega
  rw [row, row, all, rest, place_add isNewline]
  show _ < _ + 1 + _
  omega

/-! ## Lines -/

/-- The first line or one behind a newline begins at a place. -/
def BeginsLine (buffer : ℕ → UInt8) (x : ℕ) : Prop := x = 0 ∨ buffer (x - 1) = keyEnterN

/-- There is a newline in a part of the text. -/
def HasNewline (buffer : ℕ → UInt8) (x y : ℕ) : Prop := ∃ i < y, x ≤ i ∧ buffer i = keyEnterN

/-- The line behind that of a character begins at a place. -/
structure NextLine (buffer : ℕ → UInt8) (x y : ℕ) : Prop where
  lt : x < y
  newline : buffer (y - 1) = keyEnterN
  others : ∀ i < y - 1, x ≤ i → buffer i ≠ keyEnterN

/-- The line of a character begins at a place. -/
structure LineOf (buffer : ℕ → UInt8) (first y : ℕ) : Prop where
  le : first ≤ y
  begins : BeginsLine buffer first
  others : ∀ i < y, first ≤ i → buffer i ≠ keyEnterN

instance : Decidable (BeginsLine buffer x) := inferInstanceAs (Decidable (_ ∨ _))

instance : Decidable (HasNewline buffer x y) := inferInstanceAs (Decidable (∃ i < y, _))

instance : Decidable (NextLine buffer x y) :=
  decidable_of_iff (x < y ∧ buffer (y - 1) = keyEnterN ∧
      ∀ i < y - 1, x ≤ i → buffer i ≠ keyEnterN)
    ⟨fun h => ⟨h.1, h.2.1, h.2.2⟩, fun h => ⟨h.lt, h.newline, h.others⟩⟩

instance : Decidable (LineOf buffer first y) :=
  decidable_of_iff (first ≤ y ∧ BeginsLine buffer first ∧
      ∀ i < y, first ≤ i → buffer i ≠ keyEnterN)
    ⟨fun h => ⟨h.1, h.2.1, h.2.2⟩, fun h => ⟨h.le, h.begins, h.others⟩⟩

theorem NextLine.unique (next : NextLine buffer x y) (next' : NextLine buffer x z) : y = z := by
  have lt := next.lt
  have lt' := next'.lt
  rcases Nat.lt_trichotomy y z with before | same | behind
  · exact absurd next.newline (next'.others _ (by omega) (by omega))
  · exact same
  · exact absurd next'.newline (next.others _ (by omega) (by omega))

theorem LineOf.unique (line : LineOf buffer x z) (line' : LineOf buffer y z) : x = y := by
  have le := line.le
  have le' := line'.le
  rcases Nat.lt_trichotomy x y with before | same | behind
  · rcases line'.begins with isFirst | isNewline
    · omega
    · exact absurd isNewline (line.others _ (by omega) (by omega))
  · exact same
  · rcases line.begins with isFirst | isNewline
    · omega
    · exact absurd isNewline (line'.others _ (by omega) (by omega))

theorem HasNewline.nextLine (has : HasNewline buffer x y) : ∃ z ≤ y, NextLine buffer x z := by
  classical
  have found : ∃ i, x ≤ i ∧ buffer i = keyEnterN := has.imp fun i h => h.2
  rcases has with ⟨i, lt, le, isNewline⟩
  have least := Nat.find_min' found ⟨le, isNewline⟩
  have spec := Nat.find_spec found
  refine ⟨Nat.find found + 1, by omega, by omega, spec.2, fun j before le isNewline => ?_⟩
  exact Nat.find_min found before ⟨le, isNewline⟩

theorem NextLine.hasNewline (next : NextLine buffer x z) (le : z ≤ y) : HasNewline buffer x y := by
  have lt := next.lt
  exact ⟨z - 1, by omega, by omega, next.newline⟩

theorem NextLine.begins (next : NextLine buffer x z) : BeginsLine buffer z := .inr next.newline

theorem BeginsLine.congr (begins : BeginsLine buffer x) (same : ∀ i < x, buffer' i = buffer i) :
    BeginsLine buffer' x := by
  rcases begins with isFirst | isNewline
  · exact .inl isFirst
  · by_cases isFirst : x = 0
    · exact .inl isFirst
    · exact .inr ((same (x - 1) (by omega)).trans isNewline)

theorem HasNewline.congr (same : ∀ i < y, buffer' i = buffer i) :
    HasNewline buffer' x y ↔ HasNewline buffer x y := by
  refine exists_congr fun i => and_congr_right fun lt => ?_
  rw [same i lt]

theorem LineOf.congr (line : LineOf buffer first y) (same : ∀ i < y, buffer' i = buffer i) :
    LineOf buffer' first y := by
  refine ⟨line.le, line.begins.congr fun i lt => same i (lt.trans_le line.le), fun i lt le => ?_⟩
  rw [same i lt]
  exact line.others i lt le

theorem hasNewline_succ (notNewline : buffer y ≠ keyEnterN) :
    HasNewline buffer x (y + 1) ↔ HasNewline buffer x y := by
  constructor
  · rintro ⟨i, lt, le, isNewline⟩
    by_cases isLast : i = y
    · exact absurd (isLast ▸ isNewline) notNewline
    · exact ⟨i, by omega, le, isNewline⟩
  · rintro ⟨i, lt, le, isNewline⟩
    exact ⟨i, Nat.lt_succ_of_lt lt, le, isNewline⟩

namespace Victrl

variable {s s' : Victrl} {p q : Prop}

/-! ## Drawing the window -/

/-- The window begins at a line, and the cursor is in it. -/
structure Windowed (s : Victrl) : Prop where
  begins : BeginsLine s.buffer s.pageBeginLoc
  le : s.pageBeginLoc ≤ s.cursorLoc
  lt : s.cursorLoc < s.pageEndLoc

/-- The window ends where the screen is full or the text ends. -/
structure Flushed (s : Victrl) : Prop where
  le : s.pageBeginLoc ≤ s.pageEndLoc
  drawn : ∀ y, s.pageBeginLoc ≤ y →
    (y < s.pageEndLoc ↔ y < s.size ∧ row s.buffer s.pageBeginLoc y < rowLen)

/-- The loop of `screen_flush` stops at the first character that is behind the screen. -/
theorem screenLoop_drawn (s : Victrl) (n : ℕ) {m stop : ℕ}
    (ran : s.screenLoop n (first + m) (place s.buffer first m).1 (place s.buffer first m).2 =
      some stop) :
    first + m ≤ stop ∧ ∀ y, first + m ≤ y →
      (y < stop ↔ y < first + m + n ∧ row s.buffer first y < rowLen) := by
  induction n generalizing m with
  | zero =>
      cases ran
      exact ⟨Nat.le.refl, fun y le => ⟨by omega, by omega⟩⟩
  | succ n ih =>
      have here : row s.buffer first (first + m) = (place s.buffer first m).1 := by
        rw [row, Nat.add_sub_cancel_left]
      rw [screenLoop] at ran
      by_cases onScreen : (place s.buffer first m).1 < rowLen
      · rw [if_pos onScreen] at ran
        rcases Option.bind_eq_some_iff.mp ran with ⟨c, isRead, ran⟩
        obtain rfl : s.buffer (first + m) = c := by
          rw [read] at isRead
          split_ifs at isRead
          exact Option.some.inj isRead
        rcases ih (m := m + 1) ran with ⟨le, drawn⟩
        refine ⟨by omega, fun y le' => ?_⟩
        by_cases isFirst : y = first + m
        · subst isFirst
          exact iff_of_true (by omega) ⟨by omega, here ▸ onScreen⟩
        · rw [drawn y (by omega)]
          omega
      · rw [if_neg onScreen] at ran
        cases ran
        refine ⟨Nat.le.refl, fun y le => ⟨by omega, fun drawn => ?_⟩⟩
        have mono : row s.buffer first (first + m) ≤ row s.buffer first y :=
          row_mono (Nat.le_add_right first m) le
        omega

theorem Drawable.flushed (drawable : s.Drawable) :
    ∃ pageEndLoc, s.screenFlush = some { s with pageEndLoc } ∧ Flushed { s with pageEndLoc } := by
  rcases drawable.screenFlush with ⟨stop, flushed⟩
  refine ⟨stop, flushed, ?_⟩
  rcases Option.map_eq_some_iff.mp flushed with ⟨stop', ran, eq⟩
  obtain rfl : stop' = stop := congrArg Victrl.pageEndLoc eq
  have loop : s.screenLoop (s.size - s.pageBeginLoc) (s.pageBeginLoc + 0)
      (place s.buffer s.pageBeginLoc 0).1 (place s.buffer s.pageBeginLoc 0).2 = some stop' := ran
  rcases s.screenLoop_drawn _ loop with ⟨le, drawn⟩
  refine ⟨le, fun y le' => (drawn y le').trans (and_congr_left fun _ => ?_)⟩
  have below : s.pageBeginLoc ≤ y := le'
  show _ ↔ y < s.size
  omega

/-- The state after a key, where the cursor is in the window under a condition. -/
structure Outcome (s' : Victrl) (condition : Prop) : Prop where
  inv : s'.Inv
  flushed : s'.Flushed
  windowed : s'.Windowed ↔ condition

theorem Outcome.congr (outcome : s'.Outcome p) (iff : p ↔ q) : s'.Outcome q :=
  ⟨outcome.inv, outcome.flushed, outcome.windowed.trans iff⟩

/-- A window that begins at a line shows the cursor if the cursor is on its screen. -/
theorem Inv.flushed (inv : s.Inv) (begins : BeginsLine s.buffer s.pageBeginLoc) :
    ∃ s', s.screenFlush = some s' ∧ s'.size = s.size ∧
      s'.Outcome (s.pageBeginLoc ≤ s.cursorLoc ∧
        row s.buffer s.pageBeginLoc s.cursorLoc < rowLen) := by
  rcases inv.drawable.flushed with ⟨stop, ran, flushed⟩
  refine ⟨_, ran, rfl, inv.rewindowed inv.window stop, flushed, fun windowed => ?_, fun shown => ?_⟩
  · exact ⟨windowed.le, ((flushed.drawn _ windowed.le).mp windowed.lt).2⟩
  · exact ⟨begins, shown.1, (flushed.drawn _ shown.1).mpr ⟨inv.buffered.cursor, shown.2⟩⟩

/-! ## Moving the window -/

/-- `page_location_last_line` goes to the line in front of the window. -/
theorem Drawable.lastLine (drawable : s.Drawable) (notFirst : s.pageBeginLoc ≠ 0) :
    ∃ first, s.pageLocationLastLine = some { s with pageBeginLoc := first } ∧
      LineOf s.buffer first (s.pageBeginLoc - 1) := by
  have fits : s.pageBeginLoc - 1 ≤ bufferSize := Nat.le_trans (Nat.sub_le _ _) drawable.window
  rcases s.lineBegin_spec fits with ⟨first, ran, le, begins, others⟩
  refine ⟨first, ?_, le, begins, fun i lt le => others i le lt⟩
  rw [Victrl.pageLocationLastLine, if_neg notFirst, ran, Option.map_some]

/-- `page_location_next_line` goes to the line behind the first one of the window, if any. -/
theorem Drawable.nextLine (drawable : s.Drawable) :
    ∃ first, s.pageLocationNextLine = some { s with pageBeginLoc := first } ∧
      (first < s.size ∧ NextLine s.buffer s.pageBeginLoc first ∨
        first = s.pageBeginLoc ∧ ¬HasNewline s.buffer s.pageBeginLoc (s.size - 1)) := by
  have fits := drawable.fits
  have window := drawable.window
  have bound : s.pageBeginLoc + (s.size - 1 - s.pageBeginLoc) ≤ bufferSize := by omega
  rcases s.lineEnd_spec bound with ⟨loc, ran, lower, upper, others, isNewline⟩
  rw [Victrl.pageLocationNextLine, drawable.last, ran, Option.map_some]
  by_cases isLast : s.size - 1 ≤ loc
  · refine ⟨s.pageBeginLoc, by rw [if_pos isLast], .inr ⟨rfl, ?_⟩⟩
    rintro ⟨i, lt, le, newline⟩
    exact others i le (by omega) newline
  · refine ⟨loc + 1, by rw [if_neg isLast], .inl ⟨by omega, by omega, isNewline (by omega), ?_⟩⟩
    exact fun i lt le => others i le lt

/-- A cursor that is not in front of the window is in the window afterwards if it is on its
screen, or on that of the window one line down. -/
theorem Inv.adjust_ahead (inv : s.Inv) (flushed : s.Flushed)
    (begins : BeginsLine s.buffer s.pageBeginLoc) (le : s.pageBeginLoc ≤ s.cursorLoc) :
    ∃ s', s.adjust = some s' ∧ s'.size = s.size ∧
      s'.Outcome (row s.buffer s.pageBeginLoc s.cursorLoc < rowLen ∨
        ∃ first ≤ s.cursorLoc, NextLine s.buffer s.pageBeginLoc first ∧
          row s.buffer first s.cursorLoc < rowLen) := by
  have cursor := inv.buffered.cursor
  have onScreen := flushed.drawn _ le
  rw [Victrl.adjust, if_neg (Nat.not_lt.mpr le), Option.bind_some]
  by_cases inside : s.cursorLoc < s.pageEndLoc
  · rw [if_neg (Nat.not_le.mpr inside), Option.bind_some]
    have shown := (onScreen.mp inside).2
    rcases inv.flushed begins with ⟨s', ran, size, outcome⟩
    exact ⟨s', ran, size, outcome.congr (iff_of_true ⟨le, shown⟩ (.inl shown))⟩
  rw [if_pos (Nat.not_lt.mp inside)]
  have notShown : ¬row s.buffer s.pageBeginLoc s.cursorLoc < rowLen :=
    fun shown => inside (onScreen.mpr ⟨cursor, shown⟩)
  rcases inv.drawable.nextLine with ⟨first, moved, ⟨lt, next⟩ | ⟨rfl, noNewline⟩⟩
  · have inv₁ : Inv { s with pageBeginLoc := first } :=
      inv.rewindowed (lt.le.trans inv.buffered.fits) s.pageEndLoc
    rcases inv₁.flushed next.begins with ⟨s', ran, size, outcome⟩
    refine ⟨s', by rw [moved, Option.bind_some, ran], size, outcome.congr ?_⟩
    constructor
    · exact fun shown => .inr ⟨first, shown.1, next, shown.2⟩
    · rintro (shown | ⟨first', le', next', shown⟩)
      · exact absurd shown notShown
      · exact next.unique next' ▸ ⟨le', shown⟩
  · rcases inv.flushed begins with ⟨s', ran, size, outcome⟩
    refine ⟨s', by rw [moved, Option.bind_some]; exact ran, size, outcome.congr ?_⟩
    refine iff_of_false (fun shown => notShown shown.2) ?_
    rintro (shown | ⟨first, le', next, _⟩)
    · exact notShown shown
    · exact noNewline (next.hasNewline (by omega))

/-- A cursor in front of the window is in the window afterwards if it is on the screen of the
window one line up. -/
theorem Inv.adjust_back (inv : s.Inv) (flushed : s.Flushed) (lt : s.cursorLoc < s.pageBeginLoc) :
    ∃ s' first, s.adjust = some s' ∧ LineOf s.buffer first (s.pageBeginLoc - 1) ∧
      s'.size = s.size ∧
        s'.Outcome (first ≤ s.cursorLoc ∧ row s.buffer first s.cursorLoc < rowLen) := by
  have window := inv.window
  have notBehind : ¬s.pageEndLoc ≤ s.cursorLoc := Nat.not_le.mpr (lt.trans_le flushed.le)
  rcases inv.drawable.lastLine (Nat.ne_zero_of_lt lt) with ⟨first, moved, line⟩
  have le := line.le
  have inv₁ : Inv { s with pageBeginLoc := first } := inv.rewindowed (by omega) s.pageEndLoc
  rcases inv₁.flushed line.begins with ⟨s', ran, size, outcome⟩
  refine ⟨s', first, ?_, line, size, outcome⟩
  rw [Victrl.adjust, if_pos lt, moved, Option.bind_some, if_neg notBehind, Option.bind_some, ran]

/-- The cursor goes one character on from a character on the screen. -/
theorem Inv.adjust_succ (inv : s.Inv) (flushed : s.Flushed)
    (begins : BeginsLine s.buffer s.pageBeginLoc) (le : s.pageBeginLoc ≤ x)
    (onScreen : row s.buffer s.pageBeginLoc x < rowLen) (isNext : s.cursorLoc = x + 1) :
    ∃ s', s.adjust = some s' ∧ s'.size = s.size ∧
      s'.Outcome (row s.buffer s.pageBeginLoc (x + 1) < rowLen ∨
        HasNewline s.buffer s.pageBeginLoc (x + 1)) := by
  rcases inv.adjust_ahead flushed begins (by omega) with ⟨s', ran, size, outcome⟩
  refine ⟨s', ran, size, outcome.congr ?_⟩
  rw [isNext]
  refine or_congr_right ⟨?_, fun has => ?_⟩
  · rintro ⟨first, le', next, _⟩
    exact next.hasNewline le'
  · -- A window that begins a line further down has a row to spare.
    rcases has.nextLine with ⟨first, le', next⟩
    have fewer := row_lt_row next.lt next.newline le'
    have oneMore : row s.buffer s.pageBeginLoc (x + 1) ≤ row s.buffer s.pageBeginLoc x + 1 :=
      row_succ_le le
    exact ⟨first, le', next, by omega⟩

/-- The cursor goes to a place in a line behind the first one of the window. -/
theorem Inv.adjust_later (inv : s.Inv) (flushed : s.Flushed)
    (begins : BeginsLine s.buffer s.pageBeginLoc)
    (has : HasNewline s.buffer s.pageBeginLoc s.cursorLoc) :
    ∃ s', s.adjust = some s' ∧ s'.size = s.size ∧
      s'.Outcome (∀ first ≤ s.cursorLoc, NextLine s.buffer s.pageBeginLoc first →
        row s.buffer first s.cursorLoc < rowLen) := by
  rcases has.nextLine with ⟨first, le, next⟩
  have behind := next.lt
  rcases inv.adjust_ahead flushed begins (by omega) with ⟨s', ran, size, outcome⟩
  refine ⟨s', ran, size, outcome.congr ⟨fun shown first' le' next' => ?_, fun shown => ?_⟩⟩
  · rcases shown with shown | ⟨first'', _, next'', shown⟩
    · exact (row_lt_row next'.lt next'.newline le').trans shown
    · exact next''.unique next' ▸ shown
  · exact .inr ⟨first, le, next, shown first le next⟩

/-! ## The keys -/

/-- The window begins at a line, ends where the screen or the text does, and shows the cursor. -/
structure Framed (s : Victrl) : Prop where
  inv : s.Inv
  flushed : s.Flushed
  windowed : s.Windowed

theorem Framed.onScreen (framed : s.Framed) :
    row s.buffer s.pageBeginLoc s.cursorLoc < rowLen :=
  ((framed.flushed.drawn _ framed.windowed.le).mp framed.windowed.lt).2

/-- The key `l` shows the cursor: it is still on the screen, or the window can go one line down
without leaving it behind. -/
def ShowsRight (s : Victrl) : Prop :=
  s.buffer s.cursorLoc ≠ keyEnterN →
    row s.buffer s.pageBeginLoc (s.cursorLoc + 1) < rowLen ∨
      HasNewline s.buffer s.pageBeginLoc (s.cursorLoc + 1)

/-- The key `j` shows the cursor: from the second line of the window on, the next line is on the
screen. -/
def ShowsNextLine (s : Victrl) : Prop :=
  ∀ y < s.size, NextLine s.buffer s.cursorLoc y →
    ∀ first ≤ y, NextLine s.buffer s.pageBeginLoc first → row s.buffer first y < rowLen

/-- Deleting shows the cursor: where the newline in front of the window is deleted, the line that
it ends fits on the screen. -/
def ShowsDeletion (s : Victrl) : Prop :=
  0 < s.cursorLoc → s.cursorLoc = s.pageBeginLoc →
    ∀ first < s.cursorLoc, LineOf s.buffer first (s.cursorLoc - 1) →
      row s.buffer first (s.cursorLoc - 1) < rowLen

/-- A character that is put in shows the cursor: the place behind it is on the screen, or the
window can go one line down without leaving it behind. -/
def ShowsInsertion (s : Victrl) (key : UInt8) : Prop :=
  key ≠ keyEnterN → s.size + 1 < bufferSize →
    (advance key (row s.buffer s.pageBeginLoc s.cursorLoc)
      (place s.buffer s.pageBeginLoc (s.cursorLoc - s.pageBeginLoc)).2).1 < rowLen ∨
        HasNewline s.buffer s.pageBeginLoc s.cursorLoc

/-- The window can follow the cursor with the one line that it goes up or down. -/
structure Shows (s : Victrl) (press : Press) : Prop where
  right : s.mode = 0 → press.key = 'l'.toUInt8 → s.ShowsRight
  nextLine : s.mode = 0 → press.key = 'j'.toUInt8 → s.ShowsNextLine
  deletion : s.mode = 1 → press.key = keyDel → s.ShowsDeletion
  insertion : s.mode = 1 → press.key ≠ keyEsc → press.key ≠ keyDel → s.ShowsInsertion press.key

instance (s : Victrl) : Decidable s.ShowsRight := inferInstanceAs (Decidable (_ → _))

instance (s : Victrl) : Decidable s.ShowsNextLine :=
  inferInstanceAs (Decidable (∀ y < s.size, NextLine s.buffer s.cursorLoc y →
    ∀ first ≤ y, NextLine s.buffer s.pageBeginLoc first → row s.buffer first y < rowLen))

instance (s : Victrl) : Decidable s.ShowsDeletion := inferInstanceAs (Decidable (_ → _))

instance (s : Victrl) (key : UInt8) : Decidable (s.ShowsInsertion key) :=
  inferInstanceAs (Decidable (_ → _))

instance (s : Victrl) (press : Press) : Decidable (s.Shows press) :=
  decidable_of_iff ((s.mode = 0 → press.key = 'l'.toUInt8 → s.ShowsRight) ∧
      (s.mode = 0 → press.key = 'j'.toUInt8 → s.ShowsNextLine) ∧
      (s.mode = 1 → press.key = keyDel → s.ShowsDeletion) ∧
      (s.mode = 1 → press.key ≠ keyEsc → press.key ≠ keyDel → s.ShowsInsertion press.key))
    ⟨fun h => ⟨h.1, h.2.1, h.2.2.1, h.2.2.2⟩,
      fun h => ⟨h.right, h.nextLine, h.deletion, h.insertion⟩⟩

theorem Inv.adjust_onScreen (inv : s.Inv) (flushed : s.Flushed)
    (begins : BeginsLine s.buffer s.pageBeginLoc) (le : s.pageBeginLoc ≤ s.cursorLoc)
    (onScreen : row s.buffer s.pageBeginLoc s.cursorLoc < rowLen) :
    ∃ s', s.adjust = some s' ∧ s'.size = s.size ∧ s'.Outcome True := by
  rcases inv.adjust_ahead flushed begins le with ⟨s', ran, size, outcome⟩
  exact ⟨s', ran, size, outcome.congr (iff_true_intro (.inl onScreen))⟩

theorem Framed.adjust (framed : s.Framed) :
    ∃ s', s.adjust = some s' ∧ s'.size = s.size ∧ s'.Outcome True :=
  framed.inv.adjust_onScreen framed.flushed framed.windowed.begins framed.windowed.le
    framed.onScreen

theorem Framed.adjust_before (framed : s.Framed) {cursorLoc : ℕ} (le : s.pageBeginLoc ≤ cursorLoc)
    (le' : cursorLoc ≤ s.cursorLoc) :
    ∃ s', Victrl.adjust { s with cursorLoc } = some s' ∧ s'.size = s.size ∧ s'.Outcome True := by
  have inv' : Inv { s with cursorLoc } :=
    framed.inv.moved (le'.trans_lt framed.inv.buffered.cursor)
  exact inv'.adjust_onScreen ⟨framed.flushed.1, framed.flushed.2⟩ framed.windowed.begins le
    ((row_mono le le').trans_lt framed.onScreen)

/-- `cursor_next_line` goes to the next line, if any. -/
theorem Inv.cursorNextLine_cases (inv : s.Inv) :
    (∃ y < s.size, NextLine s.buffer s.cursorLoc y ∧
        s.cursorNextLine = some { s with cursorLoc := y }) ∨
      (∀ y < s.size, ¬NextLine s.buffer s.cursorLoc y) ∧ s.cursorNextLine = some s := by
  have cursor := inv.buffered.cursor
  have fits := inv.buffered.fits
  have bound : s.cursorLoc + (s.size - 1 - s.cursorLoc) ≤ bufferSize := by omega
  rcases s.lineEnd_spec bound with ⟨loc, ran, lower, upper, others, isNewline⟩
  rw [Victrl.cursorNextLine, inv.drawable.last, ran, Option.map_some]
  by_cases isLast : s.size - 1 ≤ loc
  · refine .inr ⟨fun y lt next => ?_, by rw [if_pos isLast]⟩
    have behind := next.lt
    exact others _ (by omega) (by omega) next.newline
  · refine .inl ⟨loc + 1, by omega, ⟨by omega, isNewline (by omega), ?_⟩, by rw [if_neg isLast]⟩
    exact fun i lt le => others i le lt

theorem Framed.nextLine (framed : s.Framed) :
    ∃ s', s.cursorNextLine.bind Victrl.adjust = some s' ∧ s'.size = s.size ∧
      s'.Outcome s.ShowsNextLine := by
  have le := framed.windowed.le
  rcases framed.inv.cursorNextLine_cases with ⟨y, lt, next, moved⟩ | ⟨isLast, moved⟩
  · have behind := next.lt
    have inv' : Inv { s with cursorLoc := y } := framed.inv.moved lt
    have has : HasNewline s.buffer s.pageBeginLoc y :=
      ⟨y - 1, by omega, by omega, next.newline⟩
    rcases inv'.adjust_later ⟨framed.flushed.1, framed.flushed.2⟩ framed.windowed.begins has with
      ⟨s', ran, size, outcome⟩
    refine ⟨s', by rw [moved, Option.bind_some, ran], size, outcome.congr ?_⟩
    refine ⟨fun shown y' _ next' => ?_, fun shown => shown y lt next⟩
    exact next.unique next' ▸ shown
  · rcases framed.adjust with ⟨s', ran, size, outcome⟩
    refine ⟨s', by rw [moved, Option.bind_some, ran], size, outcome.congr ?_⟩
    exact iff_of_true trivial fun y lt next => absurd next (isLast y lt)

/-- The key `k` goes no further than to the line in front of the window. -/
theorem Framed.lastLine (framed : s.Framed) :
    ∃ s', s.cursorLastLine.bind Victrl.adjust = some s' ∧ s'.size = s.size ∧ s'.Outcome True := by
  have cursor := framed.inv.buffered.cursor
  have fits := framed.inv.buffered.fits
  have le := framed.windowed.le
  have before : s.cursorLoc ≤ bufferSize := by omega
  have before' : s.cursorLoc - 1 ≤ bufferSize := by omega
  rcases s.lineBegin_spec before with ⟨loc', ran, le', begins, others⟩
  rcases s.lineBegin_spec before' with ⟨loc'', ran', le'', begins', others'⟩
  -- No line begins between the line of the cursor and the cursor.
  have lower : s.pageBeginLoc ≤ loc' := by
    rcases framed.windowed.begins with isFirst | isNewline
    · omega
    · by_contra lt
      exact others _ (by omega) (by omega) isNewline
  rw [Victrl.cursorLastLine, ran, Option.bind_some, ran']
  by_cases isFirst : loc' = 0
  · rw [if_pos isFirst, Option.bind_some]
    exact framed.adjust_before (by omega) (Nat.zero_le _)
  rw [if_neg isFirst]
  by_cases isBegin : loc' = s.cursorLoc
  · rw [if_pos isBegin, Option.map_some, Option.bind_some]
    by_cases inside : s.pageBeginLoc ≤ loc''
    · exact framed.adjust_before inside (by omega)
    · have inv' : Inv { s with cursorLoc := loc'' } := framed.inv.moved (by omega)
      rcases inv'.adjust_back ⟨framed.flushed.1, framed.flushed.2⟩ (Nat.not_le.mp inside) with
        ⟨s', first, ran, line, size, outcome⟩
      refine ⟨s', ran, size, outcome.congr (iff_true_intro ?_)⟩
      -- The window began at the cursor, so the line found is the one in front of the window.
      have same : s.pageBeginLoc = s.cursorLoc := by
        rcases framed.windowed.begins with isFirst | isNewline
        · omega
        · by_contra ne
          exact others' _ (by omega) (by omega) isNewline
      have line' : LineOf s.buffer loc'' (s.pageBeginLoc - 1) :=
        ⟨same ▸ le'', begins', fun i lt le => others' i le (same ▸ lt)⟩
      obtain rfl : first = loc'' := line.unique line'
      exact ⟨Nat.le.refl, (row_self s.buffer first).trans_lt (by decide)⟩
  · rw [if_neg isBegin, Option.bind_some]
    exact framed.adjust_before lower le'

theorem Framed.right (framed : s.Framed) (notNewline : s.buffer s.cursorLoc ≠ keyEnterN) :
    ∃ s', Victrl.adjust { s with cursorLoc := s.cursorLoc + 1 } = some s' ∧ s'.size = s.size ∧
      s'.Outcome s.ShowsRight := by
  have cursor := framed.inv.buffered.cursor
  have notLast : s.cursorLoc ≠ s.size - 1 :=
    fun eq => notNewline (eq ▸ framed.inv.buffered.newline)
  have inv' : Inv { s with cursorLoc := s.cursorLoc + 1 } := framed.inv.moved (by omega)
  rcases inv'.adjust_succ ⟨framed.flushed.1, framed.flushed.2⟩ framed.windowed.begins
    framed.windowed.le framed.onScreen rfl with ⟨s', ran, size, outcome⟩
  exact ⟨s', ran, size, outcome.congr ⟨fun shown _ => shown, fun shows => shows notNewline⟩⟩

/-- A text that is changed behind the cursor only is shown as before in front of it. -/
theorem Framed.adjust_changed (framed : s.Framed) {size cursorLoc : ℕ}
    (same : ∀ i < cursorLoc, buffer i = s.buffer i) (inv : Inv { s with buffer, size, cursorLoc })
    (le : s.pageBeginLoc ≤ cursorLoc) (le' : cursorLoc ≤ s.cursorLoc) :
    ∃ s', (screenFlush { s with buffer, size, cursorLoc }).bind Victrl.adjust = some s' ∧
      s'.size = size ∧ s'.Outcome True := by
  have begins : BeginsLine buffer s.pageBeginLoc :=
    framed.windowed.begins.congr fun i lt => same i (lt.trans_le le)
  have onScreen : row buffer s.pageBeginLoc cursorLoc < rowLen := by
    rw [row_congr le same]
    exact (row_mono le le').trans_lt framed.onScreen
  rcases inv.drawable.flushed with ⟨stop, ran, flushed⟩
  rw [ran, Option.bind_some]
  exact (inv.rewindowed inv.window stop).adjust_onScreen flushed begins le onScreen

theorem Framed.deletion (framed : s.Framed) (positive : 0 < s.cursorLoc) :
    ∃ s', ((s.deleteKey (s.cursorLoc - 1)).bind fun s =>
        screenFlush { s with cursorLoc := s.cursorLoc - 1 }).bind Victrl.adjust = some s' ∧
      s'.size = s.size - 1 ∧ s'.Outcome s.ShowsDeletion := by
  have cursor := framed.inv.buffered.cursor
  have window := framed.windowed.le
  have inside : s.cursorLoc - 1 + 1 < s.size := by omega
  rcases framed.inv.deleteKey inside with ⟨buffer, deleted, same, inv⟩
  rw [deleted, Option.bind_some]
  by_cases le : s.pageBeginLoc ≤ s.cursorLoc - 1
  · rcases framed.adjust_changed same (inv _ inside) le (Nat.sub_le _ _) with
      ⟨s', ran, size, outcome⟩
    refine ⟨s', ran, size, outcome.congr (iff_of_true trivial fun _ atBegin => ?_)⟩
    omega
  · have atBegin : s.cursorLoc = s.pageBeginLoc := by omega
    rcases (inv _ inside).drawable.flushed with ⟨stop, flush, flushed⟩
    rcases ((inv _ inside).rewindowed framed.inv.window stop).adjust_back flushed
      (Nat.not_le.mp le) with ⟨s', first, ran, line, size, outcome⟩
    refine ⟨s', by rw [flush, Option.bind_some, ran], size, outcome.congr ?_⟩
    have line' : LineOf s.buffer first (s.cursorLoc - 1) := by
      rw [← atBegin] at line
      exact line.congr fun i lt => (same i lt).symm
    have sameRow := row_congr line'.le same
    constructor
    · rintro ⟨_, shown⟩ _ _ first' _ line''
      obtain rfl := line'.unique line''
      exact sameRow ▸ shown
    · intro shown
      have le' := line'.le
      exact ⟨le', sameRow.trans_lt (shown positive atBegin first (by omega) line')⟩

theorem Framed.insertion (framed : s.Framed) (room : s.size < bufferSize) (key : UInt8) :
    ∃ s', ((s.insertKey key s.cursorLoc).bind fun s =>
        screenFlush { s with cursorLoc := s.cursorLoc + 1 }).bind Victrl.adjust = some s' ∧
      s'.size = s.size + 1 ∧ (s.size + 1 < bufferSize → s'.Outcome (s.ShowsInsertion key)) := by
  have le := framed.windowed.le
  rcases framed.inv.insertKey room key with ⟨buffer, put, isKey, same, inv⟩
  rcases inv.drawable.flushed with ⟨stop, flush, flushed⟩
  have begins : BeginsLine buffer s.pageBeginLoc :=
    framed.windowed.begins.congr fun i lt => same i (lt.trans_le le)
  have sameRow := row_congr le same
  have onScreen : row buffer s.pageBeginLoc s.cursorLoc < rowLen := sameRow.trans_lt framed.onScreen
  rcases (inv.rewindowed inv.window stop).adjust_succ flushed begins le onScreen rfl with
    ⟨s', ran, size, outcome⟩
  rw [put, Option.bind_some, flush, Option.bind_some]
  refine ⟨s', ran, size, fun room' => outcome.congr ?_⟩
  have samePlace : place buffer s.pageBeginLoc (s.cursorLoc - s.pageBeginLoc) =
      place s.buffer s.pageBeginLoc (s.cursorLoc - s.pageBeginLoc) :=
    place_congr fun i lt => same _ (by omega)
  by_cases isNewline : key = keyEnterN
  · refine iff_of_true (.inr ?_) fun notNewline => absurd isNewline notNewline
    exact ⟨s.cursorLoc, Nat.lt_succ_self _, le, isKey.trans isNewline⟩
  · have notNewline : buffer s.cursorLoc ≠ keyEnterN := isKey ▸ isNewline
    have isRow : row buffer s.pageBeginLoc (s.cursorLoc + 1) =
        (advance key (row s.buffer s.pageBeginLoc s.cursorLoc)
          (place s.buffer s.pageBeginLoc (s.cursorLoc - s.pageBeginLoc)).2).1 := by
      rw [row_succ le, isKey, sameRow, samePlace]
    refine Iff.trans (or_congr ?_ ?_) ((forall_prop_of_true isNewline).trans
      (forall_prop_of_true room')).symm
    · exact iff_of_eq (congrArg (· < rowLen) isRow)
    · exact (hasNewline_succ notNewline).trans (HasNewline.congr same)

theorem Framed.remoded (framed : s.Framed) (inst : ℕ → UInt8) (instLen mode : ℕ) (again : Bool)
    (err : ℕ) : Framed { s with inst, instLen, mode, again, err } := by
  rcases framed with ⟨inv, ⟨le, drawn⟩, ⟨begins, le', lt⟩⟩
  exact ⟨inv.remoded inst instLen mode again err, ⟨le, drawn⟩, ⟨begins, le', lt⟩⟩

theorem shows_of_command {press : Press} (isCommand : s.mode = 0)
    (right : press.key = 'l'.toUInt8 → s.ShowsRight)
    (nextLine : press.key = 'j'.toUInt8 → s.ShowsNextLine) : s.Shows press := by
  have notInsert : s.mode ≠ 1 := fun eq => absurd (isCommand.symm.trans eq) (by decide)
  exact ⟨fun _ => right, fun _ => nextLine, fun isInsert => absurd isInsert notInsert,
    fun isInsert => absurd isInsert notInsert⟩

/-- A key of the command mode other than `l` and `j` needs no condition. -/
theorem outcome_of_command {press : Press} (isCommand : s.mode = 0)
    (notL : press.key ≠ 'l'.toUInt8) (notJ : press.key ≠ 'j'.toUInt8) {result : Option Victrl}
    {size : ℕ} (le : size ≤ s.size)
    (shown : ∃ s', result = some s' ∧ s'.size = size ∧ s'.Outcome True) :
    ∃ s', result = some s' ∧ s'.size ≤ s.size ∧ s'.Outcome (s.Shows press) := by
  rcases shown with ⟨s', ran, isSize, outcome⟩
  have shows : s.Shows press := shows_of_command isCommand (fun isL => absurd isL notL)
    fun isJ => absurd isJ notJ
  exact ⟨s', ran, isSize.trans_le le, outcome.congr (iff_of_true trivial shows)⟩

theorem shows_of_insert {press : Press} (isInsert : s.mode = 1)
    (deletion : press.key = keyDel → s.ShowsDeletion)
    (insertion : press.key ≠ keyEsc → press.key ≠ keyDel → s.ShowsInsertion press.key) :
    s.Shows press := by
  have notCommand : s.mode ≠ 0 := fun eq => absurd (isInsert.symm.trans eq) (by decide)
  exact ⟨fun isCommand => absurd isCommand notCommand, fun isCommand => absurd isCommand notCommand,
    fun _ => deletion, fun _ => insertion⟩

/-- In front of the window is a newline, so no step back in a line leaves it. -/
theorem Framed.le_pred (framed : s.Framed) (positive : 0 < s.cursorLoc)
    (notNewline : s.buffer (s.cursorLoc - 1) ≠ keyEnterN) : s.pageBeginLoc ≤ s.cursorLoc - 1 := by
  have le := framed.windowed.le
  rcases framed.windowed.begins with isFirst | newline
  · omega
  · by_contra lt
    have same : s.pageBeginLoc = s.cursorLoc := by omega
    exact notNewline (same ▸ newline)

theorem Framed.doCommandMode (framed : s.Framed) (isCommand : s.mode = 0) (press : Press) :
    ∃ s', s.doCommandMode press.key = some s' ∧ s'.size ≤ s.size ∧
      s'.Outcome (s.Shows press) := by
  have cursor := framed.inv.buffered.cursor
  have fits := framed.inv.buffered.fits
  have inside : s.cursorLoc < bufferSize := by omega
  rw [Victrl.doCommandMode, Victrl.commandKey]
  by_cases isH : press.key = 'h'.toUInt8
  · have notL : press.key ≠ 'l'.toUInt8 := isH ▸ by decide
    have notJ : press.key ≠ 'j'.toUInt8 := isH ▸ by decide
    rw [if_pos isH]
    refine outcome_of_command isCommand notL notJ Nat.le.refl ?_
    by_cases positive : 0 < s.cursorLoc
    · rw [if_pos positive, read_of_lt (by omega), Option.map_some, Option.bind_some]
      by_cases isNewline : s.buffer (s.cursorLoc - 1) = keyEnterN
      · rw [if_neg (not_not.mpr isNewline)]
        exact framed.adjust
      · rw [if_pos isNewline]
        exact framed.adjust_before (framed.le_pred positive isNewline) (Nat.sub_le _ _)
    · rw [if_neg positive, Option.bind_some]
      exact framed.adjust
  rw [if_neg isH]
  by_cases isJ : press.key = 'j'.toUInt8
  · rw [if_pos isJ]
    have notL : press.key ≠ 'l'.toUInt8 := isJ ▸ by decide
    rcases framed.nextLine with ⟨s', ran, size, outcome⟩
    exact ⟨s', ran, size.le, outcome.congr ⟨fun shown => shows_of_command isCommand
      (fun isL => absurd isL notL) fun _ => shown, fun shows => shows.nextLine isCommand isJ⟩⟩
  rw [if_neg isJ]
  by_cases isK : press.key = 'k'.toUInt8
  · have notL : press.key ≠ 'l'.toUInt8 := isK ▸ by decide
    rw [if_pos isK]
    exact outcome_of_command isCommand notL isJ Nat.le.refl framed.lastLine
  rw [if_neg isK]
  by_cases isL : press.key = 'l'.toUInt8
  · rw [if_pos isL, if_pos cursor, read_of_lt inside, Option.map_some, Option.bind_some]
    by_cases isNewline : s.buffer s.cursorLoc = keyEnterN
    · rw [if_neg (not_not.mpr isNewline)]
      rcases framed.adjust with ⟨s', ran, size, outcome⟩
      exact ⟨s', ran, size.le, outcome.congr (iff_of_true trivial (shows_of_command isCommand
        (fun _ notNewline => absurd isNewline notNewline) fun isJ' => absurd isJ' isJ))⟩
    · rw [if_pos isNewline]
      rcases framed.right isNewline with ⟨s', ran, size, outcome⟩
      exact ⟨s', ran, size.le, outcome.congr ⟨fun shown => shows_of_command isCommand
        (fun _ => shown) fun isJ' => absurd isJ' isJ, fun shows => shows.right isCommand isL⟩⟩
  rw [if_neg isL]
  by_cases isX : press.key = 'x'.toUInt8
  · rw [if_pos isX, framed.inv.drawable.last]
    by_cases notLast : s.cursorLoc < s.size - 1
    · have before : s.cursorLoc + 1 < s.size := Nat.add_lt_of_lt_sub notLast
      rcases framed.inv.deleteKey before with ⟨buffer, deleted, same, inv⟩
      rw [if_pos notLast, deleted, Option.bind_some]
      exact outcome_of_command isCommand isL isJ (Nat.sub_le _ _)
        (framed.adjust_changed same (inv s.cursorLoc before) framed.windowed.le Nat.le.refl)
    · rw [if_neg notLast, Option.bind_some]
      exact outcome_of_command isCommand isL isJ Nat.le.refl framed.adjust
  rw [if_neg isX]
  refine outcome_of_command isCommand isL isJ Nat.le.refl ?_
  by_cases isI : press.key = 'i'.toUInt8
  · rw [if_pos isI, Option.bind_some]
    exact (framed.remoded s.inst s.instLen 1 s.again s.err).adjust
  rw [if_neg isI]
  by_cases isColon : press.key = ':'.toUInt8
  · rw [if_pos isColon, Option.bind_some]
    exact (framed.remoded _ 1 2 s.again s.err).adjust
  · rw [if_neg isColon, Option.bind_some]
    exact framed.adjust

theorem Framed.doInsertMode (framed : s.Framed) (isInsert : s.mode = 1)
    (room : s.size < bufferSize) (press : Press) :
    ∃ s', s.doInsertMode press.key = some s' ∧ (s'.size = bufferSize ∧ s.Shows press ∨
      s'.size < bufferSize ∧ s'.Outcome (s.Shows press)) := by
  rw [Victrl.doInsertMode, Victrl.insertModeKey]
  by_cases isEsc : press.key = keyEsc
  · rw [if_pos isEsc, Option.bind_some]
    have notDel : press.key ≠ keyDel := isEsc ▸ by decide
    rcases (framed.remoded s.inst s.instLen 0 s.again s.err).adjust with ⟨s', ran, size, outcome⟩
    exact ⟨s', ran, .inr ⟨size.trans_lt room, outcome.congr (iff_of_true trivial
      (shows_of_insert isInsert (fun isDel => absurd isDel notDel)
        fun notEsc => absurd isEsc notEsc))⟩⟩
  rw [if_neg isEsc]
  by_cases isDel : press.key = keyDel
  · rw [if_pos isDel]
    by_cases positive : 0 < s.cursorLoc
    · rw [if_pos positive]
      rcases framed.deletion positive with ⟨s', ran, size, outcome⟩
      refine ⟨s', ran, .inr ⟨by omega, outcome.congr ⟨fun shown => ?_, fun shows => ?_⟩⟩⟩
      · exact shows_of_insert isInsert (fun _ => shown) fun _ notDel => absurd isDel notDel
      · exact shows.deletion isInsert isDel
    · rw [if_neg positive, Option.bind_some]
      rcases framed.adjust with ⟨s', ran, size, outcome⟩
      exact ⟨s', ran, .inr ⟨size.trans_lt room, outcome.congr (iff_of_true trivial
        (shows_of_insert isInsert (fun _ positive' => absurd positive' positive)
          fun _ notDel => absurd isDel notDel))⟩⟩
  rw [if_neg isDel]
  rcases framed.insertion room press.key with ⟨s', ran, size, outcome⟩
  refine ⟨s', ran, ?_⟩
  by_cases room' : s.size + 1 < bufferSize
  · refine .inr ⟨by omega, (outcome room').congr ⟨fun shown => ?_, fun shows => ?_⟩⟩
    · exact shows_of_insert isInsert (fun isDel' => absurd isDel' isDel) fun _ _ => shown
    · exact shows.insertion isInsert isEsc isDel
  · refine .inl ⟨by omega, shows_of_insert isInsert (fun isDel' => absurd isDel' isDel) ?_⟩
    exact fun _ _ _ room'' => absurd room'' room'

/-- The last line has no effect on the window. -/
theorem Framed.doLastLineMode (framed : s.Framed) (key : UInt8) (saved : ℕ) :
    ∃ s', s.doLastLineMode key saved = some s' ∧ s'.size = s.size ∧ s'.Outcome True := by
  have framed' : (s.lastLineKey (lowercase key) saved).Framed ∧
      (s.lastLineKey (lowercase key) saved).size = s.size := by
    unfold lastLineKey
    split_ifs
    all_goals first | exact ⟨framed, rfl⟩ | exact ⟨framed.remoded _ _ _ _ _, rfl⟩
  rcases framed'.1.inv.flushed framed'.1.windowed.begins with ⟨s', ran, size, outcome⟩
  exact ⟨s', ran, size.trans framed'.2,
    outcome.congr (iff_true_intro ⟨framed'.1.windowed.le, framed'.1.onScreen⟩)⟩

/-- A key leaves the cursor in the window if the window can follow it, and only then, unless the
text fills the buffer. -/
theorem Framed.step (framed : s.Framed) (room : s.size < bufferSize) (press : Press) :
    ∃ s', s.step press = some s' ∧ (s'.size = bufferSize ∧ s.Shows press ∨
      s'.size < bufferSize ∧ s'.Outcome (s.Shows press)) := by
  rw [Victrl.step]
  by_cases isCommand : s.mode = 0
  · rw [if_pos isCommand]
    rcases framed.doCommandMode isCommand press with ⟨s', ran, le, outcome⟩
    exact ⟨s', ran, .inr ⟨le.trans_lt room, outcome⟩⟩
  rw [if_neg isCommand]
  by_cases isInsert : s.mode = 1
  · rw [if_pos isInsert]
    exact framed.doInsertMode isInsert room press
  rw [if_neg isInsert]
  have shows : s.Shows press := ⟨fun eq => absurd eq isCommand, fun eq => absurd eq isCommand,
    fun eq => absurd eq isInsert, fun eq => absurd eq isInsert⟩
  by_cases isLastLine : s.mode = 2
  · rw [if_pos isLastLine]
    rcases framed.doLastLineMode press.key press.saved with ⟨s', ran, size, outcome⟩
    exact ⟨s', ran, .inr ⟨size.trans_lt room, outcome.congr (iff_of_true trivial shows)⟩⟩
  · rw [if_neg isLastLine]
    exact ⟨s, rfl, .inr ⟨room, framed.inv, framed.flushed, iff_of_true framed.windowed shows⟩⟩

/-! ## Runs -/

/-- A key, while the text stays below `BUFFER_SIZE`. -/
def stepBelow (s : Victrl) (press : Press) : Option Victrl :=
  (s.step press).filter fun s' => s'.size < bufferSize

theorem stepBelow_eq {press : Press} (stepped : s.step press = some s')
    (room : s'.size < bufferSize) : s.stepBelow press = some s' := by
  rw [stepBelow, stepped, Option.filter_some, if_pos (decide_eq_true room)]

/-- Along a run the window shows the cursor exactly if it can follow it in every step. -/
theorem Framed.run_iff (framed : s.Framed) (room : s.size < bufferSize) (presses : List Press) :
    (∀ n final, TransitionSystem.run stepBelow s (presses.take n) = some final →
      final.Windowed) ↔ GuardedRun stepBelow Shows s presses := by
  refine guardedRun_iff
    (fun s press next (inv : s.Framed ∧ s.size < bufferSize) shows stepped => ?_)
    (fun s inv => inv.1.windowed) (fun s press inv hidden => ?_) ⟨framed, room⟩ presses
  · rcases Option.filter_eq_some_iff.mp stepped with ⟨stepped, below⟩
    rcases inv.1.step inv.2 press with ⟨s', ran, full | outcome⟩
    · cases ran.symm.trans stepped
      exact absurd full.1 (Nat.ne_of_lt (of_decide_eq_true below))
    · cases ran.symm.trans stepped
      exact ⟨⟨outcome.2.inv, outcome.2.flushed, outcome.2.windowed.mpr shows⟩, outcome.1⟩
  · rcases inv.1.step inv.2 press with ⟨s', ran, full | outcome⟩
    · exact absurd full.2 hidden
    · exact ⟨s', stepBelow_eq ran outcome.1, fun shown => hidden (outcome.2.windowed.mp shown)⟩

theorem framed_opened (file : List UInt8) (fits : file.length < bufferSize - 1) (closed : ℕ) :
    ∃ s, opened file closed = some s ∧ s.Framed ∧ s.mode = 0 ∧ s.cursorLoc = 0 ∧
      s.pageBeginLoc = 0 ∧ s.size = file.length + 1 ∧ s.buffer = text file := by
  have fits' : file.length < bufferSize := by omega
  have opens : opened file closed = (loaded file.length file).screenFlush :=
    openedWith_eq fits' le_rfl fits'.le closed
  have begins : BeginsLine (loaded file.length file).buffer
      (loaded file.length file).pageBeginLoc := .inl rfl
  rcases (inv_loaded fits' file).flushed begins with ⟨s, ran, size, outcome⟩
  have windowed := outcome.windowed.mpr
    ⟨Nat.le.refl, (row_self (text file) 0).trans_lt (by decide)⟩
  refine ⟨s, opens.trans ran, ⟨outcome.inv, outcome.flushed, windowed⟩, ?_⟩
  rw [Victrl.screenFlush] at ran
  rcases Option.map_eq_some_iff.mp ran with ⟨stop, _, rfl⟩
  exact ⟨rfl, rfl, rfl, rfl, rfl⟩

/-- After a file has been loaded, the cursor is in the window after every one of some keys that
keep the text below `BUFFER_SIZE` exactly if the window can follow it in each of them. -/
theorem windowed_iff (file : List UInt8) (fits : file.length < bufferSize - 1) (closed : ℕ)
    (presses : List Press) :
    ∃ s, opened file closed = some s ∧
      ((∀ n final, TransitionSystem.run stepBelow s (presses.take n) = some final →
        final.Windowed) ↔ GuardedRun stepBelow Shows s presses) := by
  rcases framed_opened file fits closed with ⟨s, isOpened, framed, _, _, _, size, _⟩
  exact ⟨s, isOpened, framed.run_iff (size.trans_lt (Nat.add_lt_of_lt_sub fits)) presses⟩

/-- To the second line, where a character is put in and deleted, and the newline before it too -/
def joining : List Press :=
  [⟨'j'.toUInt8, 0⟩, ⟨'i'.toUInt8, 0⟩, ⟨97, 0⟩, ⟨keyDel, 0⟩, ⟨keyDel, 0⟩]

theorem windowed_iff_joining :
    ∃ s, opened [104, 10, 105] 0 = some s ∧ ∀ n final,
      TransitionSystem.run stepBelow s (joining.take n) = some final → final.Windowed := by
  rcases windowed_iff [104, 10, 105] (by decide) 0 joining with ⟨s, isOpened, iff⟩
  refine ⟨s, isOpened, iff.mpr ?_⟩
  have guarded : ((opened [104, 10, 105] 0).all fun s =>
      decide (GuardedRun stepBelow Shows s joining)) = true := by
    decide +kernel
  rw [isOpened] at guarded
  exact of_decide_eq_true guarded

/-- A line of one character, and one of tabs that is as long as the screen. -/
def tabFile : List UInt8 := 120 :: keyEnterN :: (List.replicate 580 keyTab ++ [keyEnterN])

theorem length_tabFile : tabFile.length = 583 := by
  rw [tabFile, List.length_cons, List.length_cons, List.length_append, List.length_replicate]
  rfl

theorem text_tabFile {i : ℕ} (lt : i < 583) : text tabFile i = tabFile.getD i 0 := by
  rw [text, textOf, length_tabFile, Function.update_of_ne (Nat.ne_of_lt lt), if_pos lt]

theorem text_tabs {i : ℕ} (lt : i < 581) :
    text tabFile (2 + i) = if i < 580 then keyTab else keyEnterN := by
  rw [text_tabFile (by omega), tabFile, Nat.add_comm, List.getD_cons_succ, List.getD_cons_succ,
    List.getD_eq_getElem?_getD]
  by_cases isTab : i < 580
  · rw [if_pos isTab, List.getElem?_append_left (by rwa [List.length_replicate]),
      List.getElem?_replicate, if_pos isTab, Option.getD_some]
  · obtain rfl : i = 580 := by omega
    rw [if_neg isTab, List.getElem?_append_right (by rw [List.length_replicate]),
      List.length_replicate]
    rfl

/-- A row has room for twenty tabs. -/
theorem place_tabs {n : ℕ} (tabs : ∀ i < n, buffer (first + i) = keyTab) :
    place buffer first n = (n / 20, n % 20 * 4) := by
  induction n with
  | zero => rfl
  | succ n ih =>
      rw [place, tabs n (Nat.lt_succ_self n), ih fun i lt => tabs i (Nat.lt_succ_of_lt lt)]
      show (if 80 ≤ n % 20 * 4 / 4 * 4 + 4 then (n / 20 + 1, 0)
        else (n / 20, n % 20 * 4 / 4 * 4 + 4)) = _
      split_ifs with full
      · exact Prod.ext (by show _ = (n + 1) / 20; omega) (by show _ = (n + 1) % 20 * 4; omega)
      · exact Prod.ext (by show _ = (n + 1) / 20; omega) (by show _ = (n + 1) % 20 * 4; omega)

/-- The key `j` takes the cursor to a line on the screen, and the window stays. -/
theorem Framed.step_nextLine (framed : s.Framed) (isCommand : s.mode = 0)
    (next : NextLine s.buffer s.cursorLoc y) (lt : y < s.size)
    (onScreen : row s.buffer s.pageBeginLoc y < rowLen) :
    ∃ stop, s.step ⟨'j'.toUInt8, 0⟩ = some { s with cursorLoc := y, pageEndLoc := stop } := by
  have le : s.pageBeginLoc ≤ y := framed.windowed.le.trans next.lt.le
  have drawable : Drawable { s with cursorLoc := y } := (framed.inv.moved lt).drawable
  rcases drawable.flushed with ⟨stop, flush, _⟩
  rcases framed.inv.cursorNextLine_cases with ⟨y', _, next', moved⟩ | ⟨isLast, _⟩
  · obtain rfl := next.unique next'
    have isKey : s.commandKey 'j'.toUInt8 = s.cursorNextLine := rfl
    refine ⟨stop, ?_⟩
    rw [Victrl.step, if_pos isCommand, Victrl.doCommandMode, isKey, moved, Option.bind_some,
      Victrl.adjust, if_neg (Nat.not_lt.mpr le), Option.bind_some,
      if_neg (Nat.not_le.mpr ((framed.flushed.drawn y le).mpr ⟨lt, onScreen⟩)), Option.bind_some,
      flush]
  · exact absurd next (isLast y lt)

/-- The second line of the file begins on the screen, and the third one is below the screen of
the window that begins there. -/
theorem lines_tabFile :
    NextLine (text tabFile) 0 2 ∧ row (text tabFile) 0 2 < rowLen ∧
      NextLine (text tabFile) 2 583 ∧ ¬row (text tabFile) 2 583 < rowLen := by
  have tabs : ∀ i < 580, text tabFile (2 + i) = keyTab := fun i lt => by
    rw [text_tabs (by omega), if_pos lt]
  have isEnd : text tabFile (2 + 580) = keyEnterN := by
    rw [text_tabs (by decide), if_neg (by decide)]
  refine ⟨⟨by decide, text_tabFile (by decide), fun i lt _ => ?_⟩, ?_,
    ⟨by decide, isEnd, fun i lt le => ?_⟩, ?_⟩
  · obtain rfl : i = 0 := by omega
    rw [text_tabFile (by decide)]
    decide
  · have first : row (text tabFile) 0 1 ≤ row (text tabFile) 0 0 + 1 := row_succ_le Nat.le.refl
    have second : row (text tabFile) 0 2 ≤ row (text tabFile) 0 1 + 1 := row_succ_le (by decide)
    rw [row_self] at first
    unfold rowLen
    omega
  · obtain ⟨j, rfl⟩ : ∃ j, i = 2 + j := ⟨i - 2, by omega⟩
    rw [tabs j (by omega)]
    decide
  · have le : row (text tabFile) 2 582 ≤ row (text tabFile) 2 583 := row_le_succ (by decide)
    rw [row, place_tabs tabs] at le
    exact Nat.not_lt.mpr le

theorem not_windowed_tabFile :
    ¬∀ file : List UInt8, file.length < bufferSize - 1 → ∀ (closed : ℕ) (presses : List Press),
      ∃ s, opened file closed = some s ∧ ∀ n final,
        TransitionSystem.run stepBelow s (presses.take n) = some final → final.Windowed := by
  intro always
  have fits : tabFile.length < bufferSize - 1 := by
    rw [length_tabFile]
    decide
  rcases always tabFile fits 0 [⟨'j'.toUInt8, 0⟩, ⟨'j'.toUInt8, 0⟩] with ⟨s, isOpened, holds⟩
  rcases framed_opened tabFile fits 0 with
    ⟨_, isOpened', framed, isCommand, cursor, window, size, isText⟩
  cases isOpened.symm.trans isOpened'
  rw [length_tabFile] at size
  have room : s.size < bufferSize := size.trans_lt (by decide)
  rcases lines_tabFile with ⟨next, onScreen, next', notOnScreen⟩
  rw [← isText] at next onScreen next' notOnScreen
  rw [← cursor] at next
  rw [← window] at onScreen
  rcases framed.step_nextLine isCommand next (size ▸ by decide) onScreen with ⟨stop, stepped⟩
  have guarded := (framed.run_iff room _).mp holds
  have shows := (guarded.2 _ (stepBelow_eq stepped room)).1
  refine notOnScreen (shows.nextLine isCommand rfl 583 (size ▸ by decide) next' 2 (by decide) ?_)
  exact window.symm ▸ cursor ▸ next

end Victrl

end Ninix.Vi
