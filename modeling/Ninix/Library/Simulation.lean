import Mathlib.Data.List.Forall2
import Mathlib.Data.Nat.Notation
import Mathlib.Logic.Basic

/-!
# Refinement with outputs

A system takes actions and puts something out at each, and may get stuck. It refines a system of
which each step is given, where related states have related successors and the same output as long
as a guard holds. Then whole runs put out the same.
-/

namespace Simulation

universe u v w x

variable {State : Type u} {Abs : Type v} {Action : Type w} {Out : Type x}

/-- A run of a system that may get stuck, and what its steps put out. -/
def outputs (step : State → Action → Option (State × Out)) :
    State → List Action → Option (State × List Out)
  | state, [] => some (state, [])
  | state, action :: rest => (step state action).bind fun next =>
      (outputs step next.1 rest).map fun last => (last.1, next.2 :: last.2)

/-- A run of a system that goes on for ever, and what its steps put out. -/
def trace (step : Abs → Action → Abs × Out) : Abs → List Action → Abs × List Out
  | abs, [] => (abs, [])
  | abs, action :: rest =>
      ((trace step (step abs action).1 rest).1,
        (step abs action).2 :: (trace step (step abs action).1 rest).2)

/-- All steps of a run meet the guard. -/
def Allowed (step : State → Action → Option (State × Out)) (guard : State → Action → Prop) :
    State → List Action → Prop
  | _, [] => True
  | state, action :: rest =>
      guard state action ∧ ∀ next, step state action = some next → Allowed step guard next.1 rest

/-- Where steps are refined, runs are. -/
theorem outputs_refines {step : State → Action → Option (State × Out)}
    {guard : State → Action → Prop} {absStep : Abs → Action → Abs × Out}
    (related : State → Abs → Prop)
    (refines : ∀ state abs action, related state abs → guard state action →
      ∃ next, step state action = some (next, (absStep abs action).2) ∧
        related next (absStep abs action).1)
    {state : State} {abs : Abs} (isRelated : related state abs) {actions : List Action}
    (allowed : Allowed step guard state actions) :
    ∃ final, outputs step state actions = some (final, (trace absStep abs actions).2) ∧
      related final (trace absStep abs actions).1 := by
  induction actions generalizing state abs with
  | nil => exact ⟨state, rfl, isRelated⟩
  | cons action rest ih =>
      rcases refines state abs action isRelated allowed.1 with ⟨next, stepped, nextRelated⟩
      rcases ih nextRelated (allowed.2 _ stepped) with ⟨final, ran, finalRelated⟩
      refine ⟨final, ?_, finalRelated⟩
      rw [outputs, stepped, Option.bind_some, ran]
      rfl

/-- Where a system that may get stuck as well takes the steps too, it takes the runs. -/
theorem outputs_lockstep {step : State → Action → Option (State × Out)}
    {absStep : Abs → Action → Option (Abs × Out)} (related : State → Abs → Prop)
    (takes : ∀ state abs action next, related state abs → step state action = some next →
      ∃ absNext, absStep abs action = some (absNext, next.2) ∧ related next.1 absNext)
    {state : State} {abs : Abs} (isRelated : related state abs) {actions : List Action}
    {final : State} {outs : List Out} (ran : outputs step state actions = some (final, outs)) :
    ∃ absFinal, outputs absStep abs actions = some (absFinal, outs) ∧ related final absFinal := by
  induction actions generalizing state abs outs with
  | nil =>
      cases ran
      exact ⟨abs, rfl, isRelated⟩
  | cons action rest ih =>
      rcases Option.bind_eq_some_iff.mp ran with ⟨next, stepped, ranRest⟩
      rcases Option.map_eq_some_iff.mp ranRest with ⟨last, ranLast, isLast⟩
      cases isLast
      rcases takes state abs action next isRelated stepped with ⟨absNext, absStepped, nextRelated⟩
      rcases ih nextRelated ranLast with ⟨absFinal, absRan, finalRelated⟩
      refine ⟨absFinal, ?_, finalRelated⟩
      rw [outputs, absStepped, Option.bind_some, absRan]
      rfl

/-- What holds of each step and what it puts out, in a run of which all steps meet the guard. -/
theorem forall₂_outputs {step : State → Action → Option (State × Out)}
    {guard : State → Action → Prop} {holds : Action → Out → Prop}
    (each : ∀ state action next, guard state action → step state action = some next →
      holds action next.2)
    {state final : State} {actions : List Action} {outs : List Out}
    (allowed : Allowed step guard state actions)
    (ran : outputs step state actions = some (final, outs)) : List.Forall₂ holds actions outs := by
  induction actions generalizing state outs with
  | nil =>
      cases ran
      exact .nil
  | cons action rest ih =>
      rcases Option.bind_eq_some_iff.mp ran with ⟨next, stepped, ranRest⟩
      rcases Option.map_eq_some_iff.mp ranRest with ⟨last, ranLast, isLast⟩
      cases isLast
      exact .cons (each state action next allowed.1 stepped) (ih (allowed.2 next stepped) ranLast)

/-- The steps of a run meet the guard if those with their actions and outputs do. -/
theorem allowed_of_outputs {step : State → Action → Option (State × Out)}
    {guard : State → Action → Prop} {state final : State} {actions : List Action}
    {outs : List Out} (ran : outputs step state actions = some (final, outs))
    (each : List.Forall₂ (fun action out => ∀ state next,
      step state action = some (next, out) → guard state action) actions outs) :
    Allowed step guard state actions := by
  induction actions generalizing state outs with
  | nil => trivial
  | cons action rest ih =>
      rcases Option.bind_eq_some_iff.mp ran with ⟨next, stepped, ranRest⟩
      rcases Option.map_eq_some_iff.mp ranRest with ⟨last, ranLast, isLast⟩
      cases isLast
      rcases List.forall₂_cons.mp each with ⟨first, others⟩
      refine ⟨first state next.1 stepped, fun other isNext => ?_⟩
      rw [stepped, Option.some.injEq] at isNext
      exact isNext ▸ ih ranLast others

/-- A run of which each step meets a guard. -/
def Meets (absStep : Abs → Action → Abs) (guard : Abs → Action → Prop) : Abs → List Action → Prop
  | _, [] => True
  | abs, action :: rest => guard abs action ∧ Meets absStep guard (absStep abs action) rest

instance decidableMeets (absStep : Abs → Action → Abs) (guard : Abs → Action → Prop)
    [∀ abs action, Decidable (guard abs action)] :
    ∀ abs actions, Decidable (Meets absStep guard abs actions)
  | _, [] => .isTrue trivial
  | abs, action :: rest =>
      @instDecidableAnd _ _ inferInstance (decidableMeets absStep guard (absStep abs action) rest)

/-- Where steps without outputs are refined under a guard, runs are. -/
theorem foldlM_refines {step : State → Action → Option State} {guard : Abs → Action → Prop}
    {absStep : Abs → Action → Abs} (related : State → Abs → Prop)
    (refines : ∀ state abs action, related state abs → guard abs action →
      ∃ next, step state action = some next ∧ related next (absStep abs action))
    {state : State} {abs : Abs} (isRelated : related state abs) {actions : List Action}
    (meets : Meets absStep guard abs actions) :
    ∃ final, actions.foldlM step state = some final ∧
      related final (actions.foldl absStep abs) := by
  induction actions generalizing state abs with
  | nil => exact ⟨state, rfl, isRelated⟩
  | cons action rest ih =>
      rcases refines state abs action isRelated meets.1 with ⟨next, stepped, nextRelated⟩
      rcases ih nextRelated meets.2 with ⟨final, ran, finalRelated⟩
      refine ⟨final, ?_, finalRelated⟩
      rw [List.foldlM_cons, stepped]
      exact ran

end Simulation
