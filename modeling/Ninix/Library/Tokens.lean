import Mathlib.Data.List.Basic
import Mathlib.Data.List.TakeWhile

/-!
# The pieces of a list between separators

Runs of separators split a list into pieces, none of which is empty. The first piece is read up
to the first separator, and the others are those of what follows it.
-/

namespace Tokens

universe u

variable {α : Type u} (sep : α → Bool)

/-- The pieces of a list between runs of separators. -/
def tokens (l : List α) : List (List α) := (l.splitOnP sep).filter fun piece => !piece.isEmpty

variable {sep} {x : α} {l : List α}

theorem splitOnP_eq (l : List α) : l.splitOnP sep = l.takeWhile (fun x => !sep x) ::
    match l.dropWhile (fun x => !sep x) with
    | [] => []
    | _ :: rest => rest.splitOnP sep := by
  induction l with
  | nil => simp
  | cons x l ih =>
      rw [List.splitOnP_cons_eq_if_modifyHead]
      by_cases isSep : sep x
      · simp [isSep]
      · rw [if_neg (by simpa using isSep), ih]
        simp [isSep]

@[simp] theorem tokens_nil : tokens sep [] = [] := by simp [tokens]

theorem tokens_cons_of_sep (isSep : sep x) : tokens sep (x :: l) = tokens sep l := by
  simp [tokens, List.splitOnP_cons_eq_if_modifyHead, isSep]

theorem tokens_dropWhile (l : List α) : tokens sep (l.dropWhile sep) = tokens sep l := by
  induction l with
  | nil => rfl
  | cons x l ih =>
      by_cases isSep : sep x
      · rw [List.dropWhile_cons_of_pos isSep, ih, tokens_cons_of_sep isSep]
      · rw [List.dropWhile_cons_of_neg isSep]

/-- A list that starts with no separator starts with its first piece. -/
theorem tokens_cons (notSep : sep x = false) : tokens sep (x :: l) =
    (x :: l).takeWhile (fun y => !sep y) :: tokens sep ((x :: l).dropWhile fun y => !sep y) := by
  rw [tokens, splitOnP_eq, List.filter_cons_of_pos (by simp [notSep])]
  congr 1
  cases dropped : (x :: l).dropWhile fun y => !sep y with
  | nil => simp
  | cons y rest =>
      have isSep : sep y := by
        have first := List.head_dropWhile_not (fun y => !sep y) (l := x :: l) (by simp [dropped])
        simpa [dropped] using first
      rw [tokens_cons_of_sep isSep]
      rfl

end Tokens
