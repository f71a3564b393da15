import Ninix.Fat32.Registration

/-!
# The test for an empty directory

`fat32_isempty` looks for a slot in use behind the entries `.` and `..` and stops at the slot that
ends the directory. In a directory that fills its clusters no slot does, and the error of `read_dr`
behind the last one is taken for a directory with files.
-/

namespace Ninix.Fat32

/-- The loop of `fat32_isempty` from slot `i`, with fuel for its rounds: the error of `read_dr`
and the flag. -/
def isemptyLoop (readDr : ℕ → Option Slot) : ℕ → ℕ → Option (Bool × Bool)
  | 0, _ => none
  | fuel + 1, i =>
      match readDr i with
      | none => some (true, true)
      | some dr =>
          if dr 0 = 0xe5 then isemptyLoop readDr fuel (i + 1)
          else if dr 0 = 0 then some (false, true)
          else some (false, false)

/-- `fat32_isempty` -/
def Dir.fat32Isempty (dir : Dir) : Option Bool :=
  (isemptyLoop dir.readDr (dir.slots + 1) 2).map fun (err, flag) => if err then false else flag

/-- The directory begins with the entries `.` and `..`. -/
def Dir.HasDots (dir : Dir) : Prop := ∀ i < 2, ∃ dr, dir.readDr i = some dr ∧ dr 0 = 0x2e

/-- What is expected of the test: 1 for a directory without a slot in use behind `.` and `..`. -/
def Dir.TestsEmpty (dir : Dir) : Prop :=
  ∃ empty, dir.fat32Isempty = some empty ∧ (empty = true ↔ ∀ i, 2 ≤ i → ¬Live dir.readDr i)

section

variable {readDr : ℕ → Option Slot} {i : ℕ}

/-- The loop passes over deleted slots and is decided by the first slot that is not one. -/
theorem isemptyLoop_eq {fuel stop : ℕ} (le : i ≤ stop)
    (passed : ∀ j, i ≤ j → j < stop → Deleted readDr j) (notDeleted : ¬Deleted readDr stop)
    (enough : stop < i + fuel) :
    isemptyLoop readDr fuel i = some (match readDr stop with
      | none => (true, true)
      | some dr => if dr 0 = 0 then (false, true) else (false, false)) := by
  induction fuel generalizing i with
  | zero => omega
  | succ fuel ih =>
      rw [isemptyLoop]
      rcases Nat.lt_or_eq_of_le le with lt | rfl
      · rcases passed i le_rfl lt with ⟨dr, read, deleted⟩
        simp only [read, deleted, if_true]
        exact ih lt (fun j lower upper => passed j (by omega) upper) (by omega)
      · cases read : readDr i with
        | none => rfl
        | some dr =>
            have other : dr 0 ≠ 0xe5 := fun deleted => notDeleted ⟨dr, read, deleted⟩
            simp only [if_neg other]
            split <;> rfl

/-- Behind `.` and `..` there is a first slot that is not a deleted one. -/
theorem exists_stop {total : ℕ} (ends : EndsAt readDr total) :
    ∃ stop, 2 ≤ stop ∧ stop ≤ max 2 total ∧ (∀ j, 2 ≤ j → j < stop → Deleted readDr j) ∧
      ¬Deleted readDr stop := by
  classical
  have behind : ∃ stop, 2 ≤ stop ∧ ¬Deleted readDr stop := by
    refine ⟨max 2 total, le_max_left _ _, ?_⟩
    rintro ⟨dr, read, _⟩
    rw [ends _ (le_max_right _ _)] at read
    cases read
  refine ⟨Nat.find behind, (Nat.find_spec behind).1, ?_, fun j lower lt => ?_,
    (Nat.find_spec behind).2⟩
  · refine Nat.find_min' behind ⟨le_max_left _ _, ?_⟩
    rintro ⟨dr, read, _⟩
    rw [ends _ (le_max_right _ _)] at read
    cases read
  · by_contra notDeleted
    exact Nat.find_min behind lt ⟨lower, notDeleted⟩

end

/--
A directory is tested as expected exactly when a slot behind `.` and `..` is not a deleted one: the
test knows an empty directory only by the slot that ends it.
-/
theorem Dir.testsEmpty_iff {dir : Dir} (dots : dir.HasDots) :
    dir.TestsEmpty ↔ ∃ i dr, 2 ≤ i ∧ dir.readDr i = some dr ∧ dr 0 ≠ 0xe5 := by
  have two : 2 ≤ dir.slots := by
    rcases dots 1 (by decide) with ⟨dr, read, _⟩
    have inside := Dir.readDr_isSome.mp (show (dir.readDr 1).isSome by rw [read]; rfl)
    omega
  rcases exists_stop dir.endsAt_slots with ⟨stop, lower, upper, passed, notDeleted⟩
  rw [max_eq_right two] at upper
  have ran := isemptyLoop_eq lower passed notDeleted (show stop < 2 + (dir.slots + 1) by omega)
  have inUse : ∀ j < stop, InUse dir.readDr j := fun j lt => by
    by_cases isDot : j < 2
    · rcases dots j isDot with ⟨dr, read, byte⟩
      exact ⟨dr, read, by rw [byte]; decide⟩
    · exact (passed j (by omega) lt).inUse
  have noneBefore : ∀ j, 2 ≤ j → j < stop → ¬Live dir.readDr j := fun j isBehind lt live =>
    live.2 (passed j isBehind lt)
  unfold Dir.TestsEmpty Dir.fat32Isempty
  rw [ran]
  cases read : dir.readDr stop with
  | none =>
      refine iff_of_false ?_ ?_
      · rintro ⟨empty, eq, expected⟩
        cases eq
        refine absurd (expected.mpr fun j isBehind live => ?_) Bool.false_ne_true
        by_cases lt : j < stop
        · exact noneBefore j isBehind lt live
        · rcases live.1 stop (Nat.le_of_not_lt lt) with ⟨dr, read', _⟩
          rw [read] at read'
          cases read'
      · rintro ⟨i, dr, isBehind, read', other⟩
        by_cases lt : i < stop
        · exact other ((passed i isBehind lt).byte read')
        · have outside : ¬stop < dir.slots := fun inside => by
            have isSome := Dir.readDr_isSome.mpr inside
            simp [read] at isSome
          rw [dir.endsAt_slots i (by omega)] at read'
          cases read'
  | some dr =>
      have other : dr 0 ≠ 0xe5 := fun deleted => notDeleted ⟨dr, read, deleted⟩
      refine iff_of_true ?_ ⟨stop, dr, lower, read, other⟩
      simp only
      by_cases isEnd : dr 0 = 0
      · refine ⟨true, by rw [if_pos isEnd]; rfl, iff_of_true rfl fun j isBehind live => ?_⟩
        by_cases lt : j < stop
        · exact noneBefore j isBehind lt live
        · exact (live.1 stop (Nat.le_of_not_lt lt)).not_end read isEnd
      · refine ⟨false, by rw [if_neg isEnd]; rfl, iff_of_false Bool.false_ne_true ?_⟩
        intro none
        refine none stop lower ⟨fun j le => ?_, notDeleted⟩
        rcases Nat.lt_or_eq_of_le le with lt | rfl
        · exact inUse j lt
        · exact ⟨dr, read, isEnd⟩

/-- A page of slots that begins with `.` and `..`, with one byte in front of all the others. -/
def dotsThen (byte i : ℕ) : Slot := fun k => if k = 0 then if i < 2 then 0x2e else byte else 0x20

theorem dotsThen_hasDots (byte : ℕ) : (onePage (dotsThen byte)).HasDots := fun i lt => by
  have inPage : i / 32 = 0 := Nat.div_eq_of_lt (by omega)
  refine ⟨dotsThen byte i, ?_, if_pos lt⟩
  show (([2] : List ℕ)[i / 32]?).map (fun _ => dotsThen byte (i % 32)) = _
  rw [inPage, Nat.mod_eq_of_lt (by omega)]
  rfl

/-- A new directory is tested as expected. -/
theorem testsEmpty_iff_new : (onePage (dotsThen 0)).TestsEmpty :=
  (Dir.testsEmpty_iff (dotsThen_hasDots 0)).mpr
    ⟨2, dotsThen 0 2, le_rfl, rfl, by decide⟩

/-- A directory of which all the slots have been used and deleted is not found empty. -/
theorem not_testsEmpty_deleted : ¬∀ dir : Dir, dir.HasDots → dir.TestsEmpty := by
  intro always
  rcases always _ (dotsThen_hasDots 0xe5) with ⟨empty, ran, expected⟩
  have returned : (onePage (dotsThen 0xe5)).fat32Isempty = some false := by decide +kernel
  rw [returned] at ran
  cases ran
  refine absurd (expected.mpr fun i lower live => ?_) Bool.false_ne_true
  have inside := live.lt_slots
  refine live.2 ⟨dotsThen 0xe5 i, ?_, ?_⟩
  · have lt : i < 32 := inside
    show (([2] : List ℕ)[i / 32]?).map (fun _ => dotsThen 0xe5 (i % 32)) = _
    rw [Nat.div_eq_of_lt lt, Nat.mod_eq_of_lt lt]
    rfl
  · rw [dotsThen, if_pos rfl, if_neg (Nat.not_lt_of_ge lower)]

end Ninix.Fat32
