import Mathlib.Order.Monotone.Basic

/-!
# The next term of a sequence

A scan over the numbers meets the terms of a strictly increasing sequence one after the other, so
it knows them all from the one that comes next.
-/

namespace RunningTerm

/-- Term `k` is the first one that is not below `n`. -/
structure Next (f : ℕ → ℕ) (n k : ℕ) : Prop where
  le : n ≤ f k
  passed : ∀ i < k, f i < n

namespace Next

variable {f : ℕ → ℕ} {n k : ℕ}

theorem exists_eq_iff (increasing : StrictMono f) (next : Next f n k) :
    (∃ i, n = f i) ↔ n = f k := by
  refine ⟨?_, fun here => ⟨k, here⟩⟩
  rintro ⟨i, rfl⟩
  rcases Nat.lt_trichotomy i k with before | same | after
  · exact absurd (next.passed i before) (lt_irrefl _)
  · rw [same]
  · exact absurd next.le (Nat.not_le.mpr (increasing after))

theorem hit (increasing : StrictMono f) (next : Next f n k) (here : n = f k) :
    Next f (n + 1) (k + 1) := by
  constructor
  · have later : f k < f (k + 1) := increasing (Nat.lt_succ_self k)
    omega
  · intro i before
    rcases Nat.lt_succ_iff_lt_or_eq.mp before with passed | same
    · exact Nat.lt_succ_of_lt (next.passed i passed)
    · rw [same, ← here]
      exact Nat.lt_succ_self n

theorem miss (next : Next f n k) (other : n ≠ f k) : Next f (n + 1) k :=
  ⟨Nat.lt_of_le_of_ne next.le other, fun i before => Nat.lt_succ_of_lt (next.passed i before)⟩

end Next

end RunningTerm
