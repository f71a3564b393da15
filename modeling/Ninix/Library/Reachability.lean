import Mathlib.Data.Nat.Notation
import Mathlib.Logic.Basic

/-!
# States reached by guarded runs

A partial step function says what a system does with an action in a state, `none` standing for
an action the state does not allow. A guard singles out some of the steps. The states of a
guarded run are those reached from a start state by guarded steps only, so a property of all of
them is a property of every run each of whose steps meets the guard.
-/

namespace TransitionSystem

universe u v

variable {State : Type u} {Action : Type v}

/-- The states reached from a start state by steps that all meet the guard. -/
inductive GuardedReach (step : State → Action → Option State)
    (guard : State → Action → Prop) (start : State → Prop) : State → Prop
  | start {state : State} : start state → GuardedReach step guard start state
  | step {state next : State} {action : Action} :
      GuardedReach step guard start state → guard state action →
        step state action = some next → GuardedReach step guard start next

/-- The states reached by runs whose steps are unrestricted. -/
abbrev Reach (step : State → Action → Option State) (start : State → Prop) : State → Prop :=
  GuardedReach step (fun _ _ => True) start

namespace GuardedReach

variable {step : State → Action → Option State} {guard : State → Action → Prop}
  {start : State → Prop}

/-- A property of the start states that guarded steps keep holds in every state reached. -/
theorem invariant {Inv : State → Prop} (initially : ∀ state, start state → Inv state)
    (kept : ∀ state action next, Inv state → guard state action →
      step state action = some next → Inv next)
    {state : State} (reached : GuardedReach step guard start state) : Inv state := by
  induction reached with
  | start startHolds => exact initially _ startHolds
  | step _ guarded stepped ih => exact kept _ _ _ ih guarded stepped

/-- A run under a stronger guard is a run under a weaker one. -/
theorem mono {weaker : State → Action → Prop}
    (implies : ∀ state action, guard state action → weaker state action)
    {state : State} (reached : GuardedReach step guard start state) :
    GuardedReach step weaker start state := by
  induction reached with
  | start startHolds => exact .start startHolds
  | step _ guarded stepped ih => exact .step ih (implies _ _ guarded) stepped

end GuardedReach

/-- Running a list of actions from a state, `none` once an action is not allowed. -/
def run (step : State → Action → Option State) : State → List Action → Option State
  | state, [] => some state
  | state, action :: rest => (step state action).bind fun next => run step next rest

theorem run_append (step : State → Action → Option State) (state : State)
    (front rest : List Action) :
    run step state (front ++ rest) = (run step state front).bind fun mid => run step mid rest := by
  induction front generalizing state with
  | nil => rfl
  | cons action front ih => simp only [List.cons_append, run, ih, Option.bind_assoc]

/-- A list of actions that runs leads to a reached state. -/
theorem reach_of_run {step : State → Action → Option State} {start : State → Prop}
    {state : State} (reached : Reach step start state) :
    ∀ {actions : List Action} {final : State},
      run step state actions = some final → Reach step start final := by
  intro actions
  induction actions generalizing state with
  | nil =>
      intro final ran
      simp only [run, Option.some.injEq] at ran
      exact ran ▸ reached
  | cons action rest ih =>
      intro final ran
      simp only [run, Option.bind_eq_some_iff] at ran
      rcases ran with ⟨next, stepped, ranRest⟩
      exact ih (.step reached trivial stepped) ranRest

/-- Every step of a run meets the guard. -/
def GuardedRun (step : State → Action → Option State) (guard : State → Action → Prop) :
    State → List Action → Prop
  | _, [] => True
  | state, action :: rest =>
      guard state action ∧
        ∀ next, step state action = some next → GuardedRun step guard next rest

/-- A guarded run leads to a state that guarded steps reach. -/
theorem GuardedReach.of_run {step : State → Action → Option State}
    {guard : State → Action → Prop} {start : State → Prop} {state : State}
    (reached : GuardedReach step guard start state) :
    ∀ {actions : List Action} {final : State}, GuardedRun step guard state actions →
      run step state actions = some final → GuardedReach step guard start final := by
  intro actions
  induction actions generalizing state with
  | nil =>
      intro final _ ran
      exact Option.some.inj ran ▸ reached
  | cons action rest ih =>
      intro final guarded ran
      rcases Option.bind_eq_some_iff.mp ran with ⟨next, stepped, ranRest⟩
      exact ih (.step reached guarded.1 stepped) (guarded.2 next stepped) ranRest

instance {step : State → Action → Option State} {guard : State → Action → Prop}
    [∀ state action, Decidable (guard state action)] (state : State) (actions : List Action) :
    Decidable (GuardedRun step guard state actions) :=
  decideRun state actions
where
  decideRun : (state : State) → (actions : List Action) →
      Decidable (GuardedRun step guard state actions)
    | _, [] => .isTrue trivial
    | state, action :: rest =>
        let _others : Decidable (∀ next, step state action = some next →
            GuardedRun step guard next rest) :=
          match _stepped : step state action with
          | none => .isTrue fun _ eq => nomatch eq
          | some next =>
              match decideRun next rest with
              | .isTrue holds => .isTrue fun _ eq => Option.some.inj eq ▸ holds
              | .isFalse fails => .isFalse fun all => fails (all next rfl)
        instDecidableAnd

/-- A change of states and actions that guarded steps respect is respected by guarded runs. -/
theorem run_map {step : State → Action → Option State} {guard : State → Action → Prop}
    {onState : State → State} {onAction : Action → Action}
    (respected : ∀ state action, guard state action →
      step (onState state) (onAction action) = (step state action).map onState)
    {state : State} {actions : List Action} (guarded : GuardedRun step guard state actions) :
    run step (onState state) (actions.map onAction) =
      (run step state actions).map onState := by
  induction actions generalizing state with
  | nil => rfl
  | cons action rest ih =>
      rcases guarded with ⟨first, others⟩
      simp only [List.map_cons, run, respected state action first]
      cases stepped : step state action with
      | none => rfl
      | some next => exact ih (others next stepped)

/-- The guard holds in the steps of a shorter run. -/
theorem GuardedRun.take {step : State → Action → Option State} {guard : State → Action → Prop}
    {state : State} {actions : List Action} (guarded : GuardedRun step guard state actions)
    (n : ℕ) : GuardedRun step guard state (actions.take n) := by
  induction actions generalizing state n with
  | nil =>
      rw [List.take_nil]
      trivial
  | cons action rest ih =>
      cases n with
      | zero => trivial
      | succ n => exact ⟨guarded.1, fun next stepped => ih (guarded.2 next stepped) n⟩

/-- A guarded run goes to its end where guarded steps do, and keeps what they keep. -/
theorem GuardedRun.exists_run {step : State → Action → Option State}
    {guard : State → Action → Prop} {Inv : State → Prop}
    (kept : ∀ state action, Inv state → guard state action →
      ∃ next, step state action = some next ∧ Inv next)
    {state : State} {actions : List Action} (guarded : GuardedRun step guard state actions)
    (inv : Inv state) : ∃ final, run step state actions = some final ∧ Inv final := by
  induction actions generalizing state with
  | nil => exact ⟨state, rfl, inv⟩
  | cons action rest ih =>
      rcases kept state action inv guarded.1 with ⟨next, stepped, inv'⟩
      rcases ih (guarded.2 next stepped) inv' with ⟨final, ran, invFinal⟩
      refine ⟨final, ?_, invFinal⟩
      rw [run, stepped, Option.bind_some]
      exact ran

/-- Where a step that does not meet the guard breaks a property and the others keep an invariant
that implies it, the property holds all along a run exactly if the run is guarded. -/
theorem guardedRun_iff {step : State → Action → Option State} {guard : State → Action → Prop}
    {Inv Good : State → Prop}
    (kept : ∀ state action next, Inv state → guard state action →
      step state action = some next → Inv next)
    (good : ∀ state, Inv state → Good state)
    (broken : ∀ state action, Inv state → ¬guard state action →
      ∃ next, step state action = some next ∧ ¬Good next)
    {state : State} (inv : Inv state) (actions : List Action) :
    (∀ n final, run step state (actions.take n) = some final → Good final) ↔
      GuardedRun step guard state actions := by
  induction actions generalizing state with
  | nil =>
      refine iff_of_true (fun n final ran => ?_) trivial
      rw [List.take_nil] at ran
      exact Option.some.inj ran ▸ good state inv
  | cons action rest ih =>
      constructor
      · intro always
        have guarded : guard state action := by
          apply Classical.byContradiction
          intro unguarded
          rcases broken state action inv unguarded with ⟨next, stepped, bad⟩
          refine bad (always 1 next ?_)
          rw [List.take_succ_cons, run, stepped]
          rfl
        refine ⟨guarded, fun next stepped => (ih (kept _ _ _ inv guarded stepped)).mp ?_⟩
        intro n final ran
        refine always (n + 1) final ?_
        rw [List.take_succ_cons, run, stepped]
        exact ran
      · rintro ⟨guarded, others⟩ n final ran
        cases n with
        | zero => exact Option.some.inj ran ▸ good state inv
        | succ n =>
            rw [List.take_succ_cons, run] at ran
            rcases Option.bind_eq_some_iff.mp ran with ⟨next, stepped, ranRest⟩
            exact (ih (kept _ _ _ inv guarded stepped)).mpr (others next stepped) n final ranRest

end TransitionSystem
