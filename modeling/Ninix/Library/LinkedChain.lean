import Mathlib.Data.List.Basic
import Mathlib.Data.List.Nodup

/-!
# Chains threaded through a successor function

A table gives every node a successor, and one value marks the end of a chain. Following the
table from a node visits a chain when it meets the end mark. The chain is then determined by its
first node and has no node twice; it does not change while the successors of its nodes do not,
and it grows by one node when its last node is made to point to a fresh end node.
-/

namespace LinkedChain

universe u

variable {Node : Type u}

/-- Following `next` from a node visits exactly the list and then meets `stop`. -/
inductive Follows (next : Node → Node) (stop : Node) : Node → List Node → Prop
  | last {node : Node} : next node = stop → Follows next stop node [node]
  | link {node : Node} {rest : List Node} : next node ≠ stop →
      Follows next stop (next node) rest → Follows next stop node (node :: rest)

namespace Follows

variable {next other : Node → Node} {stop head : Node} {nodes : List Node}

theorem ne_nil (follows : Follows next stop head nodes) : nodes ≠ [] := by
  cases follows <;> simp

theorem head_eq (follows : Follows next stop head nodes) :
    ∃ tail, nodes = head :: tail := by
  cases follows with
  | last _ => exact ⟨[], rfl⟩
  | link _ _ => exact ⟨_, rfl⟩

/-- What a chain says about its first node and the rest. -/
theorem uncons {node : Node} {rest : List Node}
    (follows : Follows next stop head (node :: rest)) :
    next head = stop ∧ rest = [] ∨ next head ≠ stop ∧ Follows next stop (next head) rest := by
  cases follows with
  | last ends => exact Or.inl ⟨ends, rfl⟩
  | link continues rest => exact Or.inr ⟨continues, rest⟩

theorem head_mem (follows : Follows next stop head nodes) : head ∈ nodes := by
  rcases follows.head_eq with ⟨tail, rfl⟩
  exact List.mem_cons_self

/-- The chain from a node is determined by the successor function. -/
theorem unique (left : Follows next stop head nodes) {nodes' : List Node}
    (right : Follows next stop head nodes') : nodes = nodes' := by
  induction left generalizing nodes' with
  | last ends =>
      cases right with
      | last _ => rfl
      | link continues _ => exact absurd ends continues
  | link continues _ ih =>
      cases right with
      | last ends => exact absurd ends continues
      | link _ rest => rw [ih rest]

/-- The rest of a chain from any of its nodes is a chain. -/
theorem suffix_of_mem (follows : Follows next stop head nodes) {node : Node}
    (mem : node ∈ nodes) : ∃ suffix, suffix <:+ nodes ∧ Follows next stop node suffix := by
  induction follows with
  | last ends =>
      rcases List.mem_singleton.mp mem with rfl
      exact ⟨_, List.suffix_rfl, .last ends⟩
  | link continues follows ih =>
      rcases List.mem_cons.mp mem with rfl | inRest
      · exact ⟨_, List.suffix_rfl, .link continues follows⟩
      · rcases ih inRest with ⟨suffix, isSuffix, fromNode⟩
        exact ⟨suffix, isSuffix.trans (List.suffix_cons _ _), fromNode⟩

/-- A chain visits no node twice. -/
theorem nodup (follows : Follows next stop head nodes) : nodes.Nodup := by
  induction follows with
  | last _ => exact List.nodup_singleton _
  | @link node rest continues follows ih =>
      refine List.nodup_cons.mpr ⟨?_, ih⟩
      intro inRest
      rcases follows.suffix_of_mem inRest with ⟨suffix, isSuffix, fromNode⟩
      have whole : suffix = node :: rest := fromNode.unique (.link continues follows)
      have := isSuffix.length_le
      rw [whole, List.length_cons] at this
      omega

/-- A successor function that agrees on the nodes of a chain has the same chain. -/
theorem congr (follows : Follows next stop head nodes)
    (agree : ∀ node ∈ nodes, other node = next node) : Follows other stop head nodes := by
  induction follows with
  | last ends => exact .last ((agree _ (by simp)).trans ends)
  | @link node rest continues _ ih =>
      have same := agree node (by simp)
      refine .link (same ▸ continues) ?_
      rw [same]
      exact ih fun node mem => agree node (List.mem_cons_of_mem _ mem)

/-- A chain grows by a fresh node when its last node points to it and it ends the chain. -/
theorem append (follows : Follows next stop head nodes) {final fresh : Node}
    (isFinal : nodes.getLast? = some final)
    (kept : ∀ node ∈ nodes, node ≠ final → other node = next node)
    (linked : other final = fresh) (notStop : fresh ≠ stop) (ends : other fresh = stop) :
    Follows other stop head (nodes ++ [fresh]) := by
  induction follows with
  | last _ =>
      simp only [List.getLast?_singleton, Option.some.injEq] at isFinal
      subst isFinal
      refine .link (by rw [linked]; exact notStop) ?_
      rw [linked]
      exact .last ends
  | @link node rest continues follows ih =>
      have restFinal : rest.getLast? = some final := by
        rw [List.getLast?_cons_of_ne_nil follows.ne_nil] at isFinal
        exact isFinal
      have notFinal : node ≠ final := by
        rintro rfl
        have nodup := (Follows.link continues follows).nodup
        exact (List.nodup_cons.mp nodup).1 (List.mem_of_getLast? restFinal)
      have same := kept node (by simp) notFinal
      refine .link (same ▸ continues) ?_
      rw [same]
      exact ih restFinal fun node mem => kept node (List.mem_cons_of_mem _ mem)

/-- Every node of a chain but the last has its successor in the chain. -/
theorem next_mem (follows : Follows next stop head nodes) {node : Node} (mem : node ∈ nodes)
    (continues : next node ≠ stop) : next node ∈ nodes := by
  induction follows with
  | last ends =>
      rcases List.mem_singleton.mp mem with rfl
      exact absurd ends continues
  | link _ follows ih =>
      rcases List.mem_cons.mp mem with rfl | inRest
      · exact List.mem_cons_of_mem _ follows.head_mem
      · exact List.mem_cons_of_mem _ (ih inRest)

end Follows

end LinkedChain
