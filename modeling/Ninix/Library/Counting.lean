import Mathlib.Algebra.BigOperators.Intervals
import Mathlib.Data.List.Perm.Basic
import Mathlib.Data.List.Range

/-!
# Counts that change by one

Of two predicates that differ on one member of a list without duplicates, one holds once more.
A sum over the numbers below a bound of which one summand changes by one changes by one.
-/

namespace Counting

/-- Of two predicates that differ on one member of the list, one holds once more. -/
theorem countP_except {α : Type} [DecidableEq α] {l : List α} (nodup : l.Nodup) {p q : α → Prop}
    [DecidablePred p] [DecidablePred q] {a : α} (mem : a ∈ l) (holds : p a) (fails : ¬q a)
    (others : ∀ b ∈ l, b ≠ a → (q b ↔ p b)) :
    l.countP (fun b => p b) = l.countP (fun b => q b) + 1 := by
  have perm := List.perm_cons_erase mem
  rw [perm.countP_eq, perm.countP_eq, List.countP_cons_of_pos (by simpa using holds),
    List.countP_cons_of_neg (by simpa using fails)]
  congr 1
  apply List.countP_congr
  intro b inErase
  rcases (nodup.mem_erase_iff).mp inErase with ⟨ne, inList⟩
  simpa using (others b inList ne).symm

/-- One summand of a sum over a list without duplicates is replaced. -/
theorem sum_map_except {α : Type} {l : List α} (nodup : l.Nodup) {f g : α → ℕ} {a : α}
    (mem : a ∈ l) (others : ∀ b ∈ l, b ≠ a → g b = f b) :
    (l.map g).sum + f a = (l.map f).sum + g a := by
  induction l with
  | nil => exact absurd mem List.not_mem_nil
  | cons b rest ih =>
      rcases List.nodup_cons.mp nodup with ⟨notIn, nodup'⟩
      rw [List.map_cons, List.map_cons, List.sum_cons, List.sum_cons]
      rcases List.mem_cons.mp mem with rfl | inRest
      · have same : rest.map g = rest.map f := List.map_congr_left fun b inRest =>
          others b (List.mem_cons_of_mem _ inRest) fun eq => notIn (eq ▸ inRest)
        rw [same]
        omega
      · have ne : b ≠ a := fun eq => notIn (eq ▸ inRest)
        have here := others b List.mem_cons_self ne
        have inRest' := ih nodup' inRest fun b inRest => others b (List.mem_cons_of_mem _ inRest)
        omega

/-- One summand is one more. -/
theorem sum_except {f g : ℕ → ℕ} {n k : ℕ} (lt : k < n) (here : g k = f k + 1)
    (others : ∀ i < n, i ≠ k → g i = f i) :
    ∑ i ∈ Finset.range n, g i = ∑ i ∈ Finset.range n, f i + 1 := by
  have mem : k ∈ Finset.range n := Finset.mem_range.mpr lt
  rw [← Finset.add_sum_erase _ _ mem, ← Finset.add_sum_erase _ f mem, here]
  have rest : ∑ i ∈ (Finset.range n).erase k, g i = ∑ i ∈ (Finset.range n).erase k, f i := by
    apply Finset.sum_congr rfl
    intro i inErase
    rcases Finset.mem_erase.mp inErase with ⟨ne, inRange⟩
    exact others i (Finset.mem_range.mp inRange) ne
  omega

end Counting
