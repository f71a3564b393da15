import Ninix.Process.Accounting
import Ninix.Process.ClockShift

/-!
# Sleep averages and the priorities made of them

The sleep average of a task is inherited, added to, taken from and weighted, and stays within its
range. Five branches of `get_bonus` cover the range, the bonus takes a normal task to one of the
priorities above the real-time ones, and so the queue that `enqueue_task` is given is one of the
array.
-/

namespace Ninix.Process

open TransitionSystem

/-! ## Priorities -/

section Priorities

variable {task task' : Task} {bonus bonus' : ℤ}

/-- A priority that `dynamic_prio` may give a normal task. -/
def IsNormalPrio (prio : ℕ) : Prop := maxRtPrio + 1 ≤ prio ∧ prio ≤ maxPrio - 1

/-- The priority that `dynamic_prio` makes of a static priority and a bonus. -/
def prioOfBonus (staticPrio : ℕ) (bonus : ℤ) : ℕ :=
  let prio : ℤ := staticPrio - bonus + 2
  let prio := if prio ≥ maxPrio then (maxPrio - 1 : ℤ) else prio
  let prio := if prio ≤ maxRtPrio then (maxRtPrio + 1 : ℤ) else prio
  prio.toNat

theorem prioOfBonus_isNormalPrio (staticPrio : ℕ) (bonus : ℤ) :
    IsNormalPrio (prioOfBonus staticPrio bonus) := by
  unfold IsNormalPrio prioOfBonus maxPrio maxRtPrio
  dsimp only
  split_ifs <;> omega

/-- The higher the bonus, the lower the number of the priority. -/
theorem prioOfBonus_antitone (staticPrio : ℕ) (le : bonus ≤ bonus') :
    prioOfBonus staticPrio bonus' ≤ prioOfBonus staticPrio bonus := by
  unfold prioOfBonus maxPrio maxRtPrio
  dsimp only
  split_ifs <;> omega

theorem dynamicPrio_of_normal (normal : task.isRtTask = false) :
    task.dynamicPrio = task.getBonus.map (prioOfBonus task.staticPrio) := by
  unfold Task.dynamicPrio
  rw [normal]
  rfl

/-- The five branches of `get_bonus` cover the range of the sleep average. -/
theorem getBonus_exists (slept : task.sleepAvg ≤ maxSleepAvg) :
    ∃ bonus, task.getBonus = some bonus := by
  unfold Task.getBonus
  split_ifs
  iterate 5 exact ⟨_, rfl⟩

/-- The bonus grows with the sleep average. -/
theorem getBonus_monotone (le : task.sleepAvg ≤ task'.sleepAvg)
    (isBonus : task.getBonus = some bonus) (isBonus' : task'.getBonus = some bonus') :
    bonus ≤ bonus' := by
  unfold Task.getBonus at isBonus isBonus'
  split_ifs at isBonus isBonus' <;> simp only [Option.some.injEq] at isBonus isBonus' <;> omega

theorem dynamicPrio_exists (normal : task.isRtTask = false)
    (slept : task.sleepAvg ≤ maxSleepAvg) :
    ∃ prio, task.dynamicPrio = some prio ∧ IsNormalPrio prio := by
  rcases getBonus_exists slept with ⟨bonus, isBonus⟩
  refine ⟨prioOfBonus task.staticPrio bonus, ?_, prioOfBonus_isNormalPrio _ _⟩
  rw [dynamicPrio_of_normal normal, isBonus]
  rfl

theorem dynamicPrio_antitone (normal : task.isRtTask = false)
    (same : task'.staticPrio = task.staticPrio) (le : task.sleepAvg ≤ task'.sleepAvg)
    {prio prio' : ℕ} (isPrio : task.dynamicPrio = some prio)
    (isPrio' : task'.dynamicPrio = some prio') : prio' ≤ prio := by
  have normal' : task'.isRtTask = false := by
    unfold Task.isRtTask at normal ⊢
    rw [same]
    exact normal
  rw [dynamicPrio_of_normal normal] at isPrio
  rw [dynamicPrio_of_normal normal'] at isPrio'
  rcases Option.map_eq_some_iff.mp isPrio with ⟨bonus, isBonus, rfl⟩
  rcases Option.map_eq_some_iff.mp isPrio' with ⟨bonus', isBonus', rfl⟩
  rw [same]
  exact prioOfBonus_antitone _ (getBonus_monotone le isBonus isBonus')

end Priorities

namespace Sched

variable {s s' s₁ s₂ : Sched} {p : ℕ}

/-! ## Calls -/

/-- The state in which `scheduler_tick` has read the clock. -/
def atTick (s : Sched) (clock : ℕ) : Sched := { s with timestampLastTick := clock }

/-- The calls of `dynamic_prio` that a call makes, with the task they are about. -/
inductive Ranks (s : Sched) : SchedOp → Task → Prop
  | schedule {now next : ℕ} : s.exchange.nextOfSchedule = some next →
      ((s.exchange.tasks next).addSleep now).isRtTask = false →
      Ranks s (.schedule now) ((s.exchange.tasks next).addSleep now)
  | schedulerTick {clock now next : ℕ} {s₁ : Sched} :
      (s.atTick clock).tickAccount = some (s₁, true) →
      s₁.exchange.nextOfSchedule = some next →
      ((s₁.exchange.tasks next).addSleep now).isRtTask = false →
      Ranks s (.schedulerTick clock now) ((s₁.exchange.tasks next).addSleep now)
  | sliceOver {clock now : ℕ} : s.SliceEnds → (s.tasks s.currentTask).isRtTask = false →
      Ranks s (.schedulerTick clock now)
        (((s.atTick clock).spendTick.dequeueTask s.currentTask s.active).tasks s.currentTask)
  | doFork {setPrio : ℤ} {starveCount clock : ℕ} {s₁ : Sched} : ForkPrio setPrio →
      (s.makeTask starveCount).schedFork s.unused setPrio clock = some s₁ →
      (s₁.tasks s.unused).isRtTask = false →
      Ranks s (.doFork setPrio (some starveCount) clock)
        (weighSleep (s₁.tasks s.unused) childPenalty)
  | pcExit {now next : ℕ} {s₁ : Sched} : s.deleteTask s.currentTask = some s₁ →
      s₁.exchange.nextOfFind = some next →
      ((s₁.exchange.tasks next).addSleep now).isRtTask = false →
      Ranks s (.pcExit now) ((s₁.exchange.tasks next).addSleep now)

/-- The calls of `enqueue_task` that a call makes, with the state and the task they are about. -/
inductive Enqueues (s : Sched) : SchedOp → Sched → ℕ → Prop
  | doFork {setPrio : ℤ} {starveCount clock prio : ℕ} {s₁ : Sched} : ForkPrio setPrio →
      (s.makeTask starveCount).schedFork s.unused setPrio clock = some s₁ →
      wakePrio (weighSleep (s₁.tasks s.unused) childPenalty) = some prio →
      Enqueues s (.doFork setPrio (some starveCount) clock)
        (s₁.setTask s.unused { weighSleep (s₁.tasks s.unused) childPenalty with prio }) s.unused
  | moveToExpired {clock now : ℕ} {s₁ s₂ : Sched} : s.SliceEnds →
      (s.tasks s.currentTask).isRtTask = true →
      (s.atTick clock).spendTick.refill s.currentTask = some s₁ →
      (s₁.dequeueTask s.currentTask s₁.active).refill s.currentTask = some s₂ →
      Enqueues s (.schedulerTick clock now) s₂ s.currentTask
  | sliceOver {clock now prio : ℕ} {s₁ : Sched} : s.SliceEnds →
      (s.tasks s.currentTask).isRtTask = false →
      (((s.atTick clock).spendTick.dequeueTask s.currentTask s.active).tasks
        s.currentTask).dynamicPrio = some prio →
      (((s.atTick clock).spendTick.dequeueTask s.currentTask s.active).setTask s.currentTask
        { ((s.atTick clock).spendTick.dequeueTask s.currentTask s.active).tasks s.currentTask with
          prio }).refill s.currentTask = some s₁ →
      Enqueues s (.schedulerTick clock now) s₁ s.currentTask

/-! ## Sleep averages of the tasks that are ranked -/

theorem schedFork_valid (sane : s.Sane) {setPrio : ℤ} {starveCount clock : ℕ}
    (forked : (s.makeTask starveCount).schedFork s.unused setPrio clock = some s₁) :
    (s₁.tasks s.unused).Valid := by
  have ne : s.currentTask ≠ s.unused := Nat.ne_of_lt sane.currentUsed
  have current : ((s.makeTask starveCount).tasks (s.makeTask starveCount).currentTask).Valid := by
    show ((setTask _ s.unused _).tasks s.currentTask).Valid
    rw [setTask_of_ne _ ne]
    exact sane.valid _ sane.currentUsed
  rcases schedFork_prepared current s.unused setPrio clock with ⟨s₀, forked', prepared⟩
  rw [forked] at forked'
  cases forked'
  exact prepared.valid

theorem dequeued_self (s : Sched) (clock : ℕ) :
    ((s.atTick clock).spendTick.dequeueTask s.currentTask s.active).tasks s.currentTask =
      { s.tasks s.currentTask with
        array := none
        timeSlice := sub32 (s.tasks s.currentTask).timeSlice 1 } := by
  rw [dequeueTask_self]
  unfold spendTick giveSlice
  exact congrArg (fun task : Task => { task with array := none }) (setTask_self _ _ _)

/-- Every task whose priority is computed is a normal one with a sleep average in range. -/
theorem Ranks.inRange {op : SchedOp} {task : Task} (ranks : s.Ranks op task) (sane : s.Sane) :
    task.isRtTask = false ∧ task.sleepAvg ≤ maxSleepAvg := by
  cases ranks with
  | @schedule now next isNext normal =>
      have valid := sane.exchange.valid next (sane.exchange.nextOfSchedule isNext)
      exact ⟨normal, Task.addSleep_sleepAvg _ now valid.sleepAvg⟩
  | @schedulerTick clock now next s₁ accounted isNext normal =>
      have sane₀ : (s.atTick clock).Sane := sane.tick clock
      rcases tickAccount_cases (sane₀.valid _ sane₀.currentUsed) with ⟨s₂, _, accounted', ticked⟩
      rw [accounted] at accounted'
      cases accounted'
      have sane₁ := (ticked.sane sane₀).exchange
      have valid := sane₁.valid next (sane₁.nextOfSchedule isNext)
      exact ⟨normal, Task.addSleep_sleepAvg _ now valid.sleepAvg⟩
  | sliceOver ends normal =>
      rw [dequeued_self]
      exact ⟨normal, (sane.valid _ sane.currentUsed).sleepAvg⟩
  | @doFork setPrio starveCount clock s₁ isPrio forked normal =>
      have weighed := weighSleep_ages (s₁.tasks s.unused) childPenalty
      refine ⟨?_, (weighed.valid (schedFork_valid sane forked)).sleepAvg⟩
      rw [(weighSleep_same (s₁.tasks s.unused) childPenalty).isRtTask]
      exact normal
  | @pcExit now next s₁ deleted isNext normal =>
      have sane₁ := (sane.deleteTask deleted).exchange
      have valid := sane₁.valid next (sane₁.nextOfFind isNext)
      exact ⟨normal, Task.addSleep_sleepAvg _ now valid.sleepAvg⟩

/-! ## Queues of the tasks that are enqueued -/

/-- A new time slice for the current task changes nothing else. -/
theorem refill_current (isCurrent : s.currentTask = p) (refills : s.refill p = some s') :
    s'.currentTask = p ∧ ∃ timeSlice, s'.tasks p = { s.tasks p with timeSlice } := by
  rcases Option.map_eq_some_iff.mp refills with ⟨⟨timeSlice, s₁⟩, computed, rfl⟩
  have same := basicTimeslice_refused (Or.inl isCurrent.symm) computed
  subst same
  exact ⟨isCurrent, timeSlice, setTask_self _ _ _⟩

/-- Every call of `enqueue_task` is given a queue of the array. -/
theorem Enqueues.isQueue {op : SchedOp} (enqueues : s.Enqueues op s₂ p) (sane : s.Sane) :
    (s₂.tasks p).effectivePrio < maxPrio := by
  have valid := sane.valid _ sane.currentUsed
  cases enqueues with
  | @doFork setPrio starveCount clock prio s₁ isPrio forked isWake =>
      have weighed := weighSleep_ages (s₁.tasks s.unused) childPenalty
      rcases wakePrio_spec (weighed.valid (schedFork_valid sane forked)) with
        ⟨prio', isWake', _, isQueue⟩
      rw [isWake] at isWake'
      cases isWake'
      rw [setTask_self]
      exact isQueue
  | @moveToExpired clock now s₁ _ ends isRt refills refills' =>
      have spent : (s.atTick clock).spendTick.tasks s.currentTask = _ := setTask_self _ _ _
      have running : (s.atTick clock).spendTick.currentTask = s.currentTask := rfl
      rcases refill_current running refills with ⟨isCurrent, timeSlice, task⟩
      have frame := dequeueTask_frame s₁ s.currentTask s₁.active
      rcases refill_current (frame.currentTask.trans isCurrent) refills' with
        ⟨_, timeSlice', task'⟩
      rw [task', dequeueTask_self, task, spent]
      exact valid.effectivePrio_lt isRt
  | @sliceOver clock now prio s₁ ends normal isPrio refills =>
      have frame := dequeueTask_frame (s.atTick clock).spendTick s.currentTask s.active
      have isCurrent : ∀ task, (((s.atTick clock).spendTick.dequeueTask s.currentTask
          s.active).setTask s.currentTask task).currentTask = s.currentTask :=
        fun _ => frame.currentTask
      rcases refill_current (isCurrent _) refills with ⟨_, timeSlice, task⟩
      rw [dequeued_self] at isPrio
      have below := Task.dynamicPrio_lt normal isPrio
      rw [task, setTask_self, dequeued_self]
      exact (renewed_normal valid normal below timeSlice none).isQueue

/-! ## Runs -/

theorem sane_of_reach (reached : Reach step (· = initPc) s) : s.Sane := by
  apply reached.invariant
  · intro s start
    rw [start]
    exact initPc_sane
  · exact fun s op s' sane _ stepped => sane.step stepped

/--
In every state that a run reaches, all sleep averages are in range, `get_bonus` and `dynamic_prio`
are defined wherever they are called and give a normal task a normal priority, a task that has
slept more has no lower priority, and `enqueue_task` is given a queue of the array.
-/
theorem inRange_of_reach (s : Sched) (reached : Reach step (· = initPc) s) :
    (∀ p < s.unused, (s.tasks p).sleepAvg ≤ maxSleepAvg) ∧
      (∀ op task, s.Ranks op task → task.getBonus.isSome ∧
        ∃ prio, task.dynamicPrio = some prio ∧ maxRtPrio + 1 ≤ prio ∧ prio ≤ maxPrio - 1) ∧
      (∀ task task' : Task, task.isRtTask = false → task'.staticPrio = task.staticPrio →
        task.sleepAvg ≤ task'.sleepAvg → task'.sleepAvg ≤ maxSleepAvg →
        ∃ prio prio', task.dynamicPrio = some prio ∧ task'.dynamicPrio = some prio' ∧
          prio' ≤ prio) ∧
      ∀ op s₁ p, s.Enqueues op s₁ p → (s₁.tasks p).effectivePrio < maxPrio := by
  have sane := sane_of_reach reached
  refine ⟨fun p used => (sane.valid p used).sleepAvg, ?_, ?_, ?_⟩
  · intro op task ranks
    rcases ranks.inRange sane with ⟨normal, slept⟩
    exact ⟨Option.isSome_iff_exists.mpr (getBonus_exists slept), dynamicPrio_exists normal slept⟩
  · intro task task' normal same le slept
    have normal' : task'.isRtTask = false := by
      unfold Task.isRtTask at normal ⊢
      rw [same]
      exact normal
    rcases dynamicPrio_exists normal (Nat.le_trans le slept) with ⟨prio, isPrio, _⟩
    rcases dynamicPrio_exists normal' slept with ⟨prio', isPrio', _⟩
    exact ⟨prio, prio', isPrio, isPrio', dynamicPrio_antitone normal same le isPrio isPrio'⟩
  · exact fun op s₁ p enqueues => enqueues.isQueue sane

/-- A child of the idle task that inherits its priority is given a queue of the array. -/
theorem inRange_of_reach_inherited : ∃ s : Sched, s.unused = 2 ∧
    (s.tasks 1).staticPrio = maxPrio ∧ (s.tasks 1).sleepAvg ≤ maxSleepAvg := by
  have forks : (initPc.step (.doFork (-1) (some 0) 0)).map
      (fun s => (s.unused, (s.tasks 1).staticPrio)) = some (2, maxPrio) := by
    decide +kernel
  rcases Option.map_eq_some_iff.mp forks with ⟨s, forked, values⟩
  simp only [Prod.mk.injEq] at values
  have started : Reach step (· = initPc) initPc := .start rfl
  have inRange := inRange_of_reach s (.step started trivial forked)
  exact ⟨s, values.1, values.2, inRange.1 1 (by omega)⟩

end Sched

end Ninix.Process
