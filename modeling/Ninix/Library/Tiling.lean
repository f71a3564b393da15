import Mathlib.Data.List.Basic
import Mathlib.Data.Nat.Notation
import Mathlib.Order.Nat

/-!
# Tiles of different lengths

A range of positions may be laid out in tiles, where each position that begins a tile says how
long that tile is. The tiles are found by walking from the first position to the next.
-/

namespace Tiling

/-- The tiles that begin at the positions of the list fill the range from a start to a stop. -/
inductive Tiles (len : ℕ → ℕ) : ℕ → List ℕ → ℕ → Prop
  | nil (i : ℕ) : Tiles len i [] i
  | cons {i stop : ℕ} {rest : List ℕ} (positive : 0 < len i)
      (tiles : Tiles len (i + len i) rest stop) : Tiles len i (i :: rest) stop

/-- The positions found by walking from one tile to the next, given fuel for the tiles. -/
def walk (len : ℕ → ℕ) (stop : ℕ) : ℕ → ℕ → List ℕ
  | 0, _ => []
  | fuel + 1, i => if i < stop then i :: walk len stop fuel (i + len i) else []

variable {len other : ℕ → ℕ} {start mid stop i : ℕ} {positions front back : List ℕ}

namespace Tiles

theorem le (tiles : Tiles len start positions stop) : start ≤ stop := by
  induction tiles with
  | nil => exact le_rfl
  | cons _ _ ih => omega

/-- Each tile lies in the range. -/
theorem bounds (tiles : Tiles len start positions stop) (mem : i ∈ positions) :
    start ≤ i ∧ 0 < len i ∧ i + len i ≤ stop := by
  induction tiles with
  | nil => simp at mem
  | cons positive tiles ih =>
      rcases List.mem_cons.mp mem with rfl | mem
      · exact ⟨le_rfl, positive, tiles.le⟩
      · rcases ih mem with ⟨after, rest⟩
        exact ⟨by omega, rest⟩

/-- Tiles of some length at least are no more than fit the range. -/
theorem mul_length_le {least : ℕ} (tiles : Tiles len start positions stop)
    (large : ∀ i ∈ positions, least ≤ len i) : start + least * positions.length ≤ stop := by
  induction tiles with
  | nil => exact le_rfl
  | @cons i stop rest _ _ ih =>
      have here := large i List.mem_cons_self
      have behind := ih fun j mem => large j (List.mem_cons_of_mem i mem)
      rw [List.length_cons, Nat.mul_succ]
      omega

theorem single (positive : 0 < len start) : Tiles len start [start] (start + len start) :=
  .cons positive (.nil _)

theorem append (first : Tiles len start front mid) (second : Tiles len mid back stop) :
    Tiles len start (front ++ back) stop := by
  induction first with
  | nil => exact second
  | cons positive _ ih => exact .cons positive (ih second)

theorem of_append (tiles : Tiles len start (front ++ back) stop) :
    ∃ mid, Tiles len start front mid ∧ Tiles len mid back stop := by
  induction front generalizing start with
  | nil => exact ⟨start, .nil _, tiles⟩
  | cons _ _ ih =>
      cases tiles with
      | cons positive tiles =>
          rcases ih tiles with ⟨mid, first, second⟩
          exact ⟨mid, .cons positive first, second⟩

/-- A tile cuts the range into what is in front of it and what is behind it. -/
theorem split (tiles : Tiles len start positions stop) (mem : i ∈ positions) :
    ∃ front back, positions = front ++ i :: back ∧ Tiles len start front i ∧
      Tiles len (i + len i) back stop := by
  rcases List.mem_iff_append.mp mem with ⟨front, back, rfl⟩
  rcases tiles.of_append with ⟨mid, first, second⟩
  cases second with
  | cons _ second => exact ⟨front, back, rfl, first, second⟩

/-- A tile ends where the range does. -/
theorem last (tiles : Tiles len start positions stop) (nonempty : start ≠ stop) :
    ∃ front i, positions = front ++ [i] ∧ Tiles len start front i ∧ i + len i = stop := by
  rcases List.eq_nil_or_concat positions with rfl | ⟨front, i, rfl⟩
  · cases tiles
    exact absurd rfl nonempty
  · rw [List.concat_eq_append] at tiles ⊢
    rcases tiles.of_append with ⟨mid, first, second⟩
    cases second with
    | cons _ rest =>
        cases rest
        exact ⟨front, i, rfl, first, rfl⟩

theorem congr (tiles : Tiles len start positions stop)
    (agree : ∀ i ∈ positions, len i = other i) : Tiles other start positions stop := by
  induction tiles with
  | nil => exact .nil _
  | cons positive _ ih =>
      have first := agree _ List.mem_cons_self
      refine .cons (by omega) ?_
      rw [← first]
      exact ih fun i mem => agree i (List.mem_cons_of_mem _ mem)

/-- A walk finds the tiles. -/
theorem walk_eq (tiles : Tiles len start positions stop) {fuel : ℕ}
    (enough : stop ≤ start + fuel) : walk len stop fuel start = positions := by
  induction tiles generalizing fuel with
  | nil =>
      cases fuel with
      | zero => rfl
      | succ => simp [walk]
  | @cons i stop _ positive tiles ih =>
      have := tiles.le
      cases fuel with
      | zero => omega
      | succ fuel =>
          have below : i < stop := by omega
          simp only [walk, below, if_true]
          rw [ih (by omega)]

end Tiles

end Tiling
