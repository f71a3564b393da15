import Ninix.Library.Reachability

/-!
# Progress

A system that is fed one input after the other comes to its goal where every step that starts
before the goal has a successor of lower rank.
-/

namespace TransitionSystem

universe u v

variable {State : Type u} {Action : Type v}

/-- The state after the first inputs of a sequence. -/
def after (step : State → Action → Option State) (inputs : ℕ → Action) (state : State) :
    ℕ → Option State
  | 0 => some state
  | n + 1 => (after step inputs state n).bind fun next => step next (inputs n)

variable {step : State → Action → Option State} {inputs : ℕ → Action} {state : State}

/-- The state after more inputs is that after the others, started from the next state. -/
theorem after_succ {next : State} (stepped : step state (inputs 0) = some next) (n : ℕ) :
    after step inputs state (n + 1) = after step (fun k => inputs (k + 1)) next n := by
  induction n with
  | zero => exact stepped
  | succ n ih =>
      rw [after, ih]
      rfl

/-- As long as the goal is not reached the rank falls, so the goal is reached. -/
theorem reaches_of_rank (guard : State → Action → Prop) (Inv Goal : State → Prop)
    (rank : State → ℕ)
    (progress : ∀ state action, Inv state → ¬Goal state → guard state action →
      ∃ next, step state action = some next ∧ Inv next ∧ rank next < rank state)
    (inv : Inv state)
    (guarded : ∀ n next, after step inputs state n = some next → guard next (inputs n)) :
    ∃ n ≤ rank state, ∃ final, after step inputs state n = some final ∧ Inv final ∧
      Goal final := by
  generalize isBound : rank state = bound
  induction bound using Nat.strongRecOn generalizing state inputs with
  | ind bound ih =>
      subst isBound
      by_cases goal : Goal state
      · exact ⟨0, Nat.zero_le _, state, rfl, inv, goal⟩
      · rcases progress state (inputs 0) inv goal (guarded 0 state rfl) with
          ⟨next, stepped, inv', lower⟩
        have guarded' : ∀ n final, after step (fun k => inputs (k + 1)) next n = some final →
            guard final (inputs (n + 1)) := by
          intro n final reached
          exact guarded (n + 1) final ((after_succ stepped n).trans reached)
        rcases ih (rank next) lower inv' guarded' rfl with ⟨n, below, final, reached, holds⟩
        exact ⟨n + 1, by omega, final, (after_succ stepped n).trans reached, holds⟩

end TransitionSystem
