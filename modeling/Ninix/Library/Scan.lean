import Mathlib.Data.List.Basic
import Mathlib.Data.Nat.Notation
import Mathlib.Logic.Relation
import Mathlib.Order.Nat

/-!
# Scans over groups of slots

A scan goes through numbered slots in groups. A step at a position says what is found there, at
which position the next group begins and which value is carried to it; there may be no step, and
then the scan ends. Scans that agree up to a position at which a group begins find the same
things in front of it, whatever comes behind.
-/

namespace Scan

universe u v

variable {κ : Type u} {α : Type v}

/-- A step of a scan from a position with a carried value. -/
abbrev Step (κ : Type u) (α : Type v) := ℕ → κ → Option (List α × ℕ × κ)

/-- Everything found from a position on, given fuel for the groups. -/
def collect (step : Step κ α) : ℕ → ℕ → κ → List α
  | 0, _, _ => []
  | fuel + 1, i, carried =>
      match step i carried with
      | none => []
      | some (found, next, carried) => found ++ collect step fuel next carried

/-- A scan comes from one position and carried value to another. -/
abbrev Reaches (step : Step κ α) : ℕ × κ → ℕ × κ → Prop :=
  Relation.ReflTransGen fun here there => ∃ found,
    step here.1 here.2 = some (found, there.1, there.2)

/-- A property of the positions to which a scan comes. -/
def Throughout (step : Step κ α) (here : ℕ × κ) (property : ℕ → Prop) : Prop :=
  ∀ there, Reaches step here there → property there.1

/-- The scan moves forward among `total` slots, and what it finds has the position at which it
is found. -/
structure Forward (step : Step κ α) (total : ℕ) (position : α → ℕ) : Prop where
  advances {i : ℕ} {carried : κ} {found : List α} {next : ℕ} {carried' : κ} :
    step i carried = some (found, next, carried') → i < next
  ends {i : ℕ} {carried : κ} : total ≤ i → step i carried = none
  positioned {i : ℕ} {carried : κ} {found : List α} {next : ℕ} {carried' : κ} :
    step i carried = some (found, next, carried') → ∀ a ∈ found, position a = i

/-- The scans take the same steps as long as these end at or in front of a position. -/
def AgreeBelow (bound : ℕ) (step other : Step κ α) : Prop :=
  ∀ i carried found next carried', next ≤ bound →
    (step i carried = some (found, next, carried') ↔ other i carried = some (found, next, carried'))

section

variable {step : Step κ α} {total : ℕ} {position : α → ℕ}

/-- More fuel than there are slots changes nothing. -/
theorem collect_fuel (forward : Forward step total position) {fuel more i : ℕ} {carried : κ}
    (enough : total ≤ i + fuel) (le : fuel ≤ more) :
    collect step fuel i carried = collect step more i carried := by
  induction fuel generalizing more i carried with
  | zero =>
      cases more with
      | zero => rfl
      | succ more =>
          have ended : step i carried = none := forward.ends (by omega)
          simp [collect, ended]
  | succ fuel ih =>
      obtain ⟨more, rfl⟩ : ∃ n, more = n + 1 := ⟨more - 1, by omega⟩
      simp only [collect]
      split
      · rfl
      · rename_i stepped
        have := forward.advances stepped
        rw [ih (by omega) (Nat.le_of_succ_le_succ le)]

/-- What is found is what the step finds and what is found behind it. -/
theorem collect_step (forward : Forward step total position) {fuel i : ℕ} {carried : κ}
    (enough : total ≤ i + fuel) {found : List α} {next : ℕ} {carried' : κ}
    (stepped : step i carried = some (found, next, carried')) :
    collect step fuel i carried = found ++ collect step fuel next carried' := by
  cases fuel with
  | zero =>
      rw [forward.ends (by omega)] at stepped
      simp at stepped
  | succ fuel =>
      have := forward.advances stepped
      simp only [collect, stepped]
      rw [collect_fuel forward (by omega) (Nat.le_succ fuel)]
      rfl

/-- The scan ends where there is no step. -/
theorem collect_end {fuel i : ℕ} {carried : κ} (ends : step i carried = none) :
    collect step fuel i carried = [] := by
  cases fuel with
  | zero => rfl
  | succ fuel => simp [collect, ends]

/-- What is found from a position on depends on the steps from there on. -/
theorem collect_congr (forward : Forward step total position) {other : Step κ α} {bound : ℕ}
    (agree : ∀ i, bound ≤ i → ∀ carried, step i carried = other i carried) {fuel i : ℕ}
    {carried : κ} (le : bound ≤ i) : collect step fuel i carried = collect other fuel i carried := by
  induction fuel generalizing i carried with
  | zero => rfl
  | succ fuel ih =>
      simp only [collect, ← agree i le carried]
      split
      · rfl
      · rename_i stepped
        rw [ih (le.trans (forward.advances stepped).le)]

theorem Reaches.le (forward : Forward step total position) {here there : ℕ × κ}
    (reaches : Reaches step here there) : here.1 ≤ there.1 := by
  induction reaches with
  | refl => exact le_rfl
  | tail _ stepped ih =>
      rcases stepped with ⟨_, stepped⟩
      exact ih.trans (forward.advances stepped).le

/-- Things are found at or behind the position from which the scan starts, and the scan comes to
where they are. -/
theorem reaches_of_mem (forward : Forward step total position) {fuel i : ℕ} {carried : κ} {a : α}
    (mem : a ∈ collect step fuel i carried) :
    i ≤ position a ∧ ∃ carried', Reaches step (i, carried) (position a, carried') := by
  induction fuel generalizing i carried with
  | zero => simp [collect] at mem
  | succ fuel ih =>
      simp only [collect] at mem
      split at mem
      · simp at mem
      · rename_i stepped
        rcases List.mem_append.mp mem with here | later
        · rw [forward.positioned stepped a here]
          exact ⟨le_rfl, carried, .refl⟩
        · rcases ih later with ⟨le, carried', reaches⟩
          have := forward.advances stepped
          exact ⟨by omega, carried', .head ⟨_, stepped⟩ reaches⟩

/-- Scans that agree below a position come to it alike. -/
theorem Reaches.congr (forward : Forward step total position) {other : Step κ α} {bound : ℕ}
    (agree : AgreeBelow bound step other) {here there : ℕ × κ} (reaches : Reaches step here there)
    (inside : there.1 ≤ bound) : Reaches other here there := by
  induction reaches with
  | refl => exact .refl
  | tail _ stepped ih =>
      rcases stepped with ⟨found, stepped⟩
      have := forward.advances stepped
      exact .tail (ih (by omega)) ⟨found, (agree _ _ _ _ _ inside).mp stepped⟩

/-- Scans that agree below a position at which they come to begin a group find the same things
in front of it. -/
theorem collect_split (forward : Forward step total position) {other : Step κ α} {total' : ℕ}
    (forward' : Forward other total' position) {bound : ℕ}
    (agree : AgreeBelow bound step other) {fuel fuel' i : ℕ} {carried carried' : κ}
    (reaches : Reaches step (i, carried) (bound, carried'))
    (enough : total ≤ fuel) (enough' : total' ≤ fuel') :
    ∃ front, collect step fuel i carried = front ++ collect step fuel bound carried' ∧
      collect other fuel' i carried = front ++ collect other fuel' bound carried' ∧
      ∀ a ∈ front, position a < bound := by
  generalize startEq : (i, carried) = start at reaches
  induction reaches using Relation.ReflTransGen.head_induction_on generalizing i carried with
  | refl =>
      cases startEq
      exact ⟨[], rfl, rfl, by simp⟩
  | @head here there stepped rest ih =>
      subst startEq
      rcases stepped with ⟨found, stepped⟩
      rcases ih rfl with ⟨front, eq, eq', below⟩
      have lt := forward.advances stepped
      have le := Reaches.le forward rest
      refine ⟨found ++ front, ?_, ?_, ?_⟩
      · rw [collect_step forward (by omega) stepped, eq, List.append_assoc]
      · rw [collect_step forward' (by omega) ((agree _ _ _ _ _ le).mp stepped), eq',
          List.append_assoc]
      · intro a mem
        rcases List.mem_append.mp mem with here | later
        · rw [forward.positioned stepped a here]
          exact lt_of_lt_of_le lt le
        · exact below a later

/-- Scans that agree from a position on come from there to the same positions. -/
theorem Reaches.congrFrom (forward : Forward step total position) {other : Step κ α} {bound : ℕ}
    (agree : ∀ i, bound ≤ i → ∀ carried, step i carried = other i carried) {here there : ℕ × κ}
    (le : bound ≤ here.1) (reaches : Reaches step here there) : Reaches other here there := by
  induction reaches with
  | refl => exact .refl
  | tail earlier stepped ih =>
      rcases stepped with ⟨found, stepped⟩
      rw [agree _ (le.trans (Reaches.le forward earlier))] at stepped
      exact .tail ih ⟨found, stepped⟩

/-- A property holds throughout a scan if it holds where the scan starts and throughout the scan
behind. -/
theorem throughout_step {property : ℕ → Prop} {here there : ℕ × κ} {found : List α}
    (stepped : step here.1 here.2 = some (found, there.1, there.2)) :
    Throughout step here property ↔ property here.1 ∧ Throughout step there property := by
  constructor
  · intro holds
    exact ⟨holds _ .refl, fun last reaches => holds last (.head ⟨found, stepped⟩ reaches)⟩
  · rintro ⟨first, behind⟩ last reaches
    rcases Relation.ReflTransGen.cases_head reaches with rfl | ⟨next, ⟨found', stepped'⟩, rest⟩
    · exact first
    · rw [stepped] at stepped'
      obtain rfl : there = next := (Prod.mk.inj (Option.some.inj stepped')).2
      exact behind last rest

/-- A property of the positions from a bound on holds alike throughout scans that agree there. -/
theorem throughout_congr (forward : Forward step total position) {other : Step κ α}
    {total' : ℕ} (forward' : Forward other total' position) {bound : ℕ}
    (agree : ∀ i, bound ≤ i → ∀ carried, step i carried = other i carried)
    {property property' : ℕ → Prop} (same : ∀ i, bound ≤ i → (property i ↔ property' i)) {i : ℕ}
    (le : bound ≤ i) (carried : κ) : Throughout step (i, carried) property ↔
      Throughout other (i, carried) property' := by
  constructor
  · intro holds there reaches
    refine (same _ (le.trans (Reaches.le forward' reaches))).mp (holds there ?_)
    exact reaches.congrFrom forward' (fun i le carried => (agree i le carried).symm) le
  · intro holds there reaches
    refine (same _ (le.trans (Reaches.le forward reaches))).mpr (holds there ?_)
    exact reaches.congrFrom forward agree le

/-- Of scans that agree below a position at which they come to begin a group, what holds throughout
the one holds throughout the other when it does from there on. -/
theorem throughout_split (forward : Forward step total position) {other : Step κ α} {bound : ℕ}
    (agree : AgreeBelow bound step other) {property property' : ℕ → Prop}
    (same : ∀ i < bound, property i → property' i) {here : ℕ × κ} {carried : κ}
    (reaches : Reaches step here (bound, carried)) (holds : Throughout step here property) :
    Throughout other here property' ↔ Throughout other (bound, carried) property' := by
  induction reaches using Relation.ReflTransGen.head_induction_on with
  | refl => rfl
  | @head here there stepped rest ih =>
      rcases stepped with ⟨found, stepped⟩
      have lt := forward.advances stepped
      have le := Reaches.le forward rest
      rcases (throughout_step stepped).mp holds with ⟨first, behind⟩
      rw [throughout_step ((agree _ _ _ _ _ le).mp stepped), ih behind]
      exact and_iff_right (same _ (lt_of_lt_of_le lt le) first)

end

end Scan
