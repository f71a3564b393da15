import Mathlib.Order.Basic
import Mathlib.Tactic.Linarith

/-!
# Round-robin search

A search for a free slot among `total` slots starts at some slot, goes up and starts over at slot
0 behind the last one. What it finds is the free slot met first in that order. Taking the slots
found one after the other keeps the order: the slot found from behind the one just taken is
still the first one from where the earlier search began.
-/

namespace CyclicScan

/-- The slot a search that has come to `i` looks at. -/
def wrap (total i : ℕ) : ℕ := if total ≤ i then 0 else i

/-- How many slots a search from `start` looks at before slot `k`. -/
def turns (total start k : ℕ) : ℕ :=
  if wrap total start ≤ k then k - wrap total start else k + total - wrap total start

theorem wrap_cases (total start : ℕ) :
    total ≤ start ∧ wrap total start = 0 ∨ start < total ∧ wrap total start = start := by
  unfold wrap
  split <;> omega

theorem turns_cases (total start k : ℕ) :
    wrap total start ≤ k ∧ turns total start k = k - wrap total start ∨
      k < wrap total start ∧ turns total start k = k + total - wrap total start := by
  unfold turns
  split <;> omega

theorem turns_lt {total k : ℕ} (start : ℕ) (lt : k < total) : turns total start k < total := by
  have wrapped := wrap_cases total start
  have turned := turns_cases total start k
  omega

theorem turns_injective {total k k' : ℕ} (start : ℕ) (lt : k < total) (lt' : k' < total)
    (same : turns total start k = turns total start k') : k = k' := by
  have wrapped := wrap_cases total start
  have turned := turns_cases total start k
  have turned' := turns_cases total start k'
  omega

/-- The slot a search begins behind is the last it looks at. -/
theorem turns_self {total kept : ℕ} (lt : kept < total) :
    turns total (kept + 1) kept = total - 1 := by
  have wrapped := wrap_cases total (kept + 1)
  have turned := turns_cases total (kept + 1) kept
  omega

/-- Slots behind `taken` come in the same order in a search from behind it. -/
theorem turns_behind {total taken k : ℕ} (start : ℕ) (takenLt : taken < total) (lt : k < total)
    (behind : turns total start taken < turns total start k) :
    turns total (taken + 1) k = turns total start k - turns total start taken - 1 := by
  have wrapped := wrap_cases total (taken + 1)
  have turnedTaken := turns_cases total start taken
  have turned := turns_cases total start k
  have turned' := turns_cases total (taken + 1) k
  have wrappedStart := wrap_cases total start
  omega

/-- Every slot but the first comes one step sooner in a search from the next slot. -/
theorem turns_pass {total start k : ℕ} (lt : k < total) (ne : k ≠ wrap total start) :
    turns total (wrap total start + 1) k = turns total start k - 1 ∧
      0 < turns total start k := by
  have startLt : wrap total start < total := by
    rcases wrap_cases total start with ⟨_, _⟩ | ⟨_, _⟩ <;> omega
  have first : turns total start (wrap total start) = 0 := by simp [turns]
  have apart := mt (turns_injective start lt startLt) ne
  have later := turns_behind start startLt lt (by omega)
  omega

/-- A free slot that a search from `start` meets before every other free one. -/
structure FirstFrom (Free : ℕ → Prop) (total start hit : ℕ) : Prop where
  lt : hit < total
  isFree : Free hit
  before : ∀ k < total, turns total start k < turns total start hit → ¬Free k

namespace FirstFrom

variable {Free Free' : ℕ → Prop} {total start hit : ℕ}

/-- A search ends where it begins when that slot is free. -/
theorem here (positive : 0 < total) (isFree : Free (wrap total start)) :
    FirstFrom Free total start (wrap total start) := by
  refine ⟨?_, isFree, ?_⟩
  · rcases wrap_cases total start with ⟨_, _⟩ | ⟨_, _⟩ <;> omega
  · intro k _ less
    simp [turns] at less

/-- A search passes over a slot that is not free. -/
theorem pass (notFree : ¬Free (wrap total start))
    (found : FirstFrom Free total (wrap total start + 1) hit) :
    FirstFrom Free total start hit := by
  refine ⟨found.lt, found.isFree, ?_⟩
  intro k lt less isFree
  have ne : k ≠ wrap total start := fun eq => notFree (eq ▸ isFree)
  have hitNe : hit ≠ wrap total start := fun eq => notFree (eq ▸ found.isFree)
  refine found.before k lt ?_ isFree
  have kTurns := turns_pass lt ne
  have hitTurns := turns_pass found.lt hitNe
  omega

/-- A slot beside the one the search begins behind is preferred to it. -/
theorem ne_of_other {taken other : ℕ} (found : FirstFrom Free total (taken + 1) hit)
    (lt : other < total) (isFree : Free other) (ne : other ≠ taken) : hit ≠ taken := by
  rintro rfl
  refine found.before other lt ?_ isFree
  have isLast := turns_self found.lt
  have otherLt := turns_lt (hit + 1) lt
  have apart := mt (turns_injective (hit + 1) lt found.lt) ne
  omega

/-- Behind the slot the search begins behind, a free slot keeps it from starting over. -/
theorem behind {kept k : ℕ} (found : FirstFrom Free total (kept + 1) hit) (lt : k < total)
    (isFree : Free k) (isBehind : kept < k) : kept < hit := by
  by_contra le
  refine found.before k lt ?_ isFree
  have wrapped := wrap_cases total (kept + 1)
  have turned := turns_cases total (kept + 1) k
  have turned' := turns_cases total (kept + 1) hit
  have hitLt := found.lt
  omega

/-- A search that has started over finds the first free slot of all. -/
theorem least {kept k : ℕ} (found : FirstFrom Free total (kept + 1) hit) (lt : k < total)
    (isFree : Free k) (startedOver : hit ≤ kept) : hit ≤ k := by
  have hitLt := found.lt
  have notBefore : ¬turns total (kept + 1) k < turns total (kept + 1) hit :=
    fun less => found.before k lt less isFree
  have wrapped := wrap_cases total (kept + 1)
  have turned := turns_cases total (kept + 1) k
  have turned' := turns_cases total (kept + 1) hit
  omega

/--
The slot found from behind `taken` is the next one from where the search that found `taken`
began, and it is not the slot that search began behind.
-/
theorem after {kept taken other : ℕ} (first : FirstFrom Free total (kept + 1) taken)
    (second : FirstFrom Free total (taken + 1) hit)
    (lt : other < total) (isFree : Free other) (neTaken : other ≠ taken) (neKept : other ≠ kept)
    (narrower : ∀ k < total, Free' k → Free k ∧ k ≠ taken) (stillFree : Free' hit) :
    hit ≠ kept ∧ FirstFrom Free' total (kept + 1) hit := by
  have takenLt := first.lt
  have hitLt := second.lt
  have hitNe : hit ≠ taken := second.ne_of_other lt isFree neTaken
  have otherLate : ¬turns total (kept + 1) other < turns total (kept + 1) taken :=
    fun less => first.before other lt less isFree
  have hitLate : ¬turns total (kept + 1) hit < turns total (kept + 1) taken :=
    fun less => first.before hit hitLt less second.isFree
  have otherBehind : ¬turns total (taken + 1) other < turns total (taken + 1) hit :=
    fun less => second.before other lt less isFree
  have behind : ∀ k < total, k ≠ taken →
      ¬turns total (kept + 1) k < turns total (kept + 1) taken →
      turns total (taken + 1) k =
        turns total (kept + 1) k - turns total (kept + 1) taken - 1 ∧
      turns total (kept + 1) taken < turns total (kept + 1) k := by
    intro k kLt ne late
    have apart := mt (turns_injective (kept + 1) kLt takenLt) ne
    have later : turns total (kept + 1) taken < turns total (kept + 1) k := by omega
    exact ⟨turns_behind (kept + 1) takenLt kLt later, later⟩
  have hitTurns := behind hit hitLt hitNe hitLate
  have otherTurns := behind other lt neTaken otherLate
  refine ⟨?_, hitLt, stillFree, ?_⟩
  · rintro rfl
    have isLast := turns_self hitLt
    have otherLt := turns_lt (hit + 1) lt
    have apart := mt (turns_injective (hit + 1) lt hitLt) neKept
    omega
  · intro k kLt less isFree'
    rcases narrower k kLt isFree' with ⟨kFree, kNe⟩
    by_cases early : turns total (kept + 1) k < turns total (kept + 1) taken
    · exact first.before k kLt early kFree
    · have kTurns := behind k kLt kNe early
      exact second.before k kLt (by omega) kFree

end FirstFrom

end CyclicScan
