import Mathlib.Algebra.Order.Ring.Nat
import Mathlib.Data.List.Basic

/-!
# Index blocks of several levels

A block of a level has `n` words, and each of them leads to a block of the level below; the blocks
of level 0 are what is indexed. A position below a block is a number whose digits to the base `n`
are the words to follow. Where exactly the positions in front of a bound have entries, the bound
is found by going down along the last word of each level that is not 0.
-/

namespace IndexLevels

section

variable (word : ℕ → ℕ → ℕ) (n : ℕ)

/-- The words that lead to a position below a block of a level. -/
def digits : ℕ → ℕ → List ℕ
  | 0, _ => []
  | level + 1, v => v / n ^ level :: digits level (v % n ^ level)

/-- The entry at a position below a block of a level. -/
def entryBelow (level block v : ℕ) : ℕ := (digits n level v).foldl word block

/-- Below a block of a level the first `count` positions have entries and the others none. The
index blocks above the entries are there and good, and every other word is 0. -/
def HoldsFirst (good : ℕ → Prop) : ℕ → ℕ → ℕ → Prop
  | 0, block, count => block ≠ 0 ↔ 0 < count
  | level + 1, block, count => (block ≠ 0 ↔ 0 < count) ∧
      (0 < count → good block ∧
        ∀ i < n, HoldsFirst good level (word block i) (min (count - i * n ^ level) (n ^ level)))

/-- A loop that stops at the first entry that is 0. -/
def firstZero (entry : ℕ → ℕ) (size : ℕ) : ℕ := ((List.range size).map entry).findIdx (· = 0)

end

theorem firstZero_congr {entry other : ℕ → ℕ} {size : ℕ} (same : ∀ i < size, entry i = other i) :
    firstZero entry size = firstZero other size := by
  rw [firstZero, firstZero, List.map_congr_left fun i mem => same i (List.mem_range.mp mem)]

theorem firstZero_eq {entry : ℕ → ℕ} {size k : ℕ} (le : k ≤ size) (front : ∀ i < k, entry i ≠ 0)
    (stops : k < size → entry k = 0) : firstZero entry size = k := by
  rcases Nat.lt_or_eq_of_le le with lt | rfl
  · apply (List.findIdx_eq (by simpa using lt)).mpr
    exact ⟨by simpa using stops lt, fun i below => by simpa using front i below⟩
  · have none : ∀ word ∈ (List.range k).map entry, decide (word = 0) = false := by
      intro word mem
      rcases List.mem_map.mp mem with ⟨i, inside, rfl⟩
      simpa using front i (List.mem_range.mp inside)
    rw [firstZero, List.findIdx_eq_length_of_false none, List.length_map, List.length_range]

variable {word : ℕ → ℕ → ℕ} {n level block count v : ℕ} {good : ℕ → Prop}

namespace HoldsFirst

theorem ne_zero_iff (holds : HoldsFirst word n good level block count) : block ≠ 0 ↔ 0 < count := by
  cases level with
  | zero => exact holds
  | succ level => exact holds.1

/-- Where no position has an entry nothing is there. -/
theorem nothing : HoldsFirst word n good level 0 0 := by
  cases level with
  | zero => exact ⟨fun ne => absurd rfl ne, fun lt => absurd lt (lt_irrefl 0)⟩
  | succ level =>
      exact ⟨⟨fun ne => absurd rfl ne, fun lt => absurd lt (lt_irrefl 0)⟩,
        fun lt => absurd lt (lt_irrefl 0)⟩

/-- An index block whose words lead on as far as there are entries, and are 0 from there on. -/
theorem of_words (isGood : good block) (isThere : block ≠ 0) (nonempty : 0 < count)
    (sub : ∀ i < n, i * n ^ level < count →
      HoldsFirst word n good level (word block i) (min (count - i * n ^ level) (n ^ level)))
    (rest : ∀ i < n, count ≤ i * n ^ level → word block i = 0) :
    HoldsFirst word n good (level + 1) block count := by
  refine ⟨iff_of_true isThere nonempty, fun _ => ⟨isGood, fun i lt => ?_⟩⟩
  by_cases inside : i * n ^ level < count
  · exact sub i lt inside
  · rw [rest i lt (Nat.not_lt.mp inside), Nat.sub_eq_zero_of_le (Nat.not_lt.mp inside),
      Nat.zero_min]
    exact nothing

/-- An index block whose first word leads to the one entry. -/
theorem of_first (positive : 0 < n) (isGood : good block) (isThere : block ≠ 0)
    (first : HoldsFirst word n good level (word block 0) 1)
    (rest : ∀ i < n, i ≠ 0 → word block i = 0) : HoldsFirst word n good (level + 1) block 1 := by
  have power : 0 < n ^ level := Nat.pow_pos positive
  refine of_words isGood isThere (by decide) (fun i _ inside => ?_) fun i lt behind => rest i lt ?_
  · obtain rfl : i = 0 := by
      by_contra notFirst
      have := Nat.le_mul_of_pos_left (n ^ level) (Nat.pos_of_ne_zero notFirst)
      omega
    rw [Nat.zero_mul, Nat.sub_zero, min_eq_left power]
    exact first
  · rintro rfl
    rw [Nat.zero_mul] at behind
    exact absurd behind (by decide)

/-- An index block whose words all lead to as many entries as they can. -/
theorem of_full (positive : 0 < n) (isGood : good block) (isThere : block ≠ 0)
    (full : ∀ i < n, HoldsFirst word n good level (word block i) (n ^ level)) :
    HoldsFirst word n good (level + 1) block (n ^ (level + 1)) := by
  have power : 0 < n ^ level := Nat.pow_pos positive
  have inside : ∀ i < n, i * n ^ level + n ^ level ≤ n ^ (level + 1) := by
    intro i lt
    rw [← Nat.succ_mul, Nat.pow_succ, Nat.mul_comm (n ^ level)]
    exact Nat.mul_le_mul_right _ lt
  refine of_words isGood isThere (Nat.pow_pos positive) (fun i lt _ => ?_) fun i lt behind => ?_
  · have := inside i lt
    rw [min_eq_right (by omega)]
    exact full i lt
  · have := inside i lt
    omega

/-- Only the words of the good blocks count. -/
theorem congr {other : ℕ → ℕ → ℕ}
    (same : ∀ block, good block → ∀ i < n, word block i = other block i)
    (holds : HoldsFirst word n good level block count) :
    HoldsFirst other n good level block count := by
  induction level generalizing block count with
  | zero => exact holds
  | succ level ih =>
      refine ⟨holds.1, fun nonempty => ?_⟩
      rcases holds.2 nonempty with ⟨isGood, sub⟩
      refine ⟨isGood, fun i lt => ?_⟩
      rw [← same block isGood i lt]
      exact ih (sub i lt)

/-- A word of an index block is there exactly where a position below it has an entry. -/
theorem word_ne_zero_iff (positive : 0 < n)
    (holds : HoldsFirst word n good (level + 1) block count) (nonempty : 0 < count) {i : ℕ}
    (lt : i < n) : word block i ≠ 0 ↔ i * n ^ level < count := by
  have power : 0 < n ^ level := Nat.pow_pos positive
  rw [((holds.2 nonempty).2 i lt).ne_zero_iff]
  omega

/-- The last word that is there leads on to the bound. -/
theorem descend (positive : 0 < n) (holds : HoldsFirst word n good (level + 1) block count)
    (nonempty : 0 < count) (le : count ≤ n ^ (level + 1)) :
    ∃ k < n, firstZero (word block) n = k + 1 ∧ k * n ^ level < count ∧
      count - k * n ^ level ≤ n ^ level ∧
      HoldsFirst word n good level (word block k) (count - k * n ^ level) := by
  have power : 0 < n ^ level := Nat.pow_pos positive
  have there {i : ℕ} (lt : i < n) := holds.word_ne_zero_iff positive nonempty lt
  have sub := (holds.2 nonempty).2
  rw [Nat.pow_succ] at le
  generalize n ^ level = m at power there sub le ⊢
  have lower : (count - 1) / m * m ≤ count - 1 := Nat.div_mul_le_self _ _
  have upper : count - 1 < ((count - 1) / m + 1) * m := by
    rw [Nat.mul_comm]
    exact Nat.lt_mul_div_succ _ power
  have inside : (count - 1) / m < n := Nat.div_lt_of_lt_mul (by omega)
  generalize (count - 1) / m = k at lower upper inside
  rw [Nat.succ_mul] at upper
  refine ⟨k, inside, firstZero_eq inside (fun i below => ?_) fun less => ?_, by omega, by omega,
    ?_⟩
  · rw [there (by omega)]
    have := Nat.mul_le_mul_right m (Nat.le_of_lt_succ below)
    omega
  · by_contra isThere
    have := (there less).mp isThere
    rw [Nat.succ_mul] at this
    omega
  · have whole := sub k inside
    rw [min_eq_left (by omega)] at whole
    exact whole

/-- A position with an entry lies below a word that leads on to it. -/
theorem step (holds : HoldsFirst word n good (level + 1) block count) (lt : v < count)
    (le : count ≤ n ^ (level + 1)) :
    good block ∧ v / n ^ level < n ∧ ∃ rest ≤ n ^ level, v % n ^ level < rest ∧
      HoldsFirst word n good level (word block (v / n ^ level)) rest := by
  rcases holds.2 (Nat.zero_lt_of_lt lt) with ⟨isGood, sub⟩
  rw [Nat.pow_succ] at le
  have inside : v / n ^ level < n := Nat.div_lt_of_lt_mul (lt.trans_le le)
  have split := Nat.div_add_mod' v (n ^ level)
  have power : 0 < n ^ level := by
    by_contra isZero
    rw [Nat.eq_zero_of_not_pos isZero, Nat.zero_mul] at le
    omega
  have rest := Nat.mod_lt v power
  exact ⟨isGood, inside, _, min_le_right _ _, by omega, sub _ inside⟩

end HoldsFirst

end IndexLevels
