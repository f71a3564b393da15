import Mathlib.Data.List.Infix
import Mathlib.Data.Set.Function

/-!
# Trees of index blocks

A block is found along a path: the first index picks a root pointer, and each further one a word
of the block found so far. Along a set of paths that is closed towards the root the blocks may be
required to be distinct. Then a word that is set for one new path leaves the other paths alone,
and the tree grows by one block at a time.
-/

namespace IndexTree

variable {root root' : ℕ → ℕ} {word word' : ℕ → ℕ → ℕ} {paths : Set (List ℕ)} {path : List ℕ}
  {i block : ℕ}

/-- The block at the end of a path. -/
def node (root : ℕ → ℕ) (word : ℕ → ℕ → ℕ) : List ℕ → ℕ
  | [] => 0
  | i :: rest => rest.foldl word (root i)

@[simp]
theorem node_singleton : node root word [i] = root i := rfl

/-- The last index of a path picks a word of the block in front of it. -/
theorem node_concat (nonempty : path ≠ []) :
    node root word (path ++ [i]) = word (node root word path) i := by
  cases path with
  | nil => exact absurd rfl nonempty
  | cons first rest => simp [node, List.foldl_append]

/-- The paths lead through the set of paths. -/
structure Closed (paths : Set (List ℕ)) : Prop where
  nonempty : [] ∉ paths
  parent {path : List ℕ} {i : ℕ} : path ++ [i] ∈ paths → path ≠ [] → path ∈ paths

/-- The paths in front of a path are there. -/
theorem Closed.front (closed : Closed paths) {rest : List ℕ} (mem : path ++ rest ∈ paths)
    (nonempty : path ≠ []) : path ∈ paths := by
  induction rest using List.reverseRecOn with
  | nil => simpa using mem
  | append_singleton rest i ih =>
      rw [← List.append_assoc] at mem
      exact ih (closed.parent mem (by simp [nonempty]))

/-- The pointers and words along the paths are the same. -/
structure Agree (paths : Set (List ℕ)) (root root' : ℕ → ℕ) (word word' : ℕ → ℕ → ℕ) :
    Prop where
  roots (i : ℕ) : [i] ∈ paths → root' i = root i
  words {path : List ℕ} {i : ℕ} : path ∈ paths → path ++ [i] ∈ paths →
    word' (node root word path) i = word (node root word path) i

/-- Trees that agree along the paths have the same blocks there. -/
theorem node_congr (closed : Closed paths) (agree : Agree paths root root' word word')
    (mem : path ∈ paths) : node root' word' path = node root word path := by
  induction path using List.reverseRecOn with
  | nil => exact absurd mem closed.nonempty
  | append_singleton path i ih =>
      by_cases empty : path = []
      · subst empty
        exact agree.roots i mem
      · have parent := closed.parent mem empty
        rw [node_concat empty, node_concat empty, ih parent, agree.words parent mem]

/-- The blocks along the paths are distinct, and each has a property. -/
structure Tree (root : ℕ → ℕ) (word : ℕ → ℕ → ℕ) (paths : Set (List ℕ)) (good : ℕ → Prop) :
    Prop where
  closed : Closed paths
  distinct : Set.InjOn (node root word) paths
  allGood (path : List ℕ) : path ∈ paths → good (node root word path)

namespace Tree

variable {good good' : ℕ → Prop}

theorem congr (tree : Tree root word paths good) (agree : Agree paths root root' word word')
    (stays : ∀ path ∈ paths, good (node root word path) → good' (node root word path)) :
    Tree root' word' paths good' where
  closed := tree.closed
  distinct path mem other otherMem same := by
    rw [node_congr tree.closed agree mem, node_congr tree.closed agree otherMem] at same
    exact tree.distinct mem otherMem same
  allGood path mem := by
    rw [node_congr tree.closed agree mem]
    exact stays path mem (tree.allGood path mem)

/-- A tree grows by a path whose block is a new one. -/
theorem insert (tree : Tree root word paths good) (path_ne : path ≠ [])
    (parent : ∀ {front i}, path = front ++ [i] → front ≠ [] → front ∈ paths)
    (fresh : ∀ other ∈ paths, node root word other ≠ node root word path)
    (isGood : good (node root word path)) : Tree root word (Insert.insert path paths) good where
  closed := by
    refine ⟨?_, ?_⟩
    · rintro (empty | mem)
      · exact path_ne empty.symm
      · exact tree.closed.nonempty mem
    · rintro front i (rfl | mem) nonempty
      · exact Or.inr (parent rfl nonempty)
      · exact Or.inr (tree.closed.parent mem nonempty)
  distinct := by
    rintro first (rfl | firstMem) second (rfl | secondMem) same
    · rfl
    · exact absurd same.symm (fresh second secondMem)
    · exact absurd same (fresh first firstMem)
    · exact tree.distinct firstMem secondMem same
  allGood := by
    rintro other (rfl | mem)
    · exact isGood
    · exact tree.allGood other mem

end Tree

end IndexTree
