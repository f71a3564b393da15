import Ninix.Process.NextTask

/-!
# One choice, written twice

`schedule` and `find_next_task` both take the head of the queue that `highest_prio` names, in the
array that is active once the two have been swapped if need be. `schedule` asks in addition that
`highest_prio` be positive: a task of priority 0, which `do_fork` accepts, is never its choice.
-/

namespace Ninix.Process

open TransitionSystem

namespace Sched

/-- The bitmaps, the highest priorities and the counters are those of the queues, and the idle
task is in none of them. -/
structure Consistent (s : Sched) : Prop where
  distinct : s.active ≠ s.expired
  indexed : s.Indexed
  nrActive : ∀ array, (s.arrays array).nrActive = (s.arrays array).linkedTasks
  idleApart : ∀ array i, ∀ p ∈ (s.arrays array).queue i, s.idle ≠ some p

/-- The active array, or the other one if the active array is empty. -/
def searched (s : Sched) : ArrayId :=
  if ∀ i < maxPrio, (s.arrays s.active).queue i = [] then s.expired else s.active

/-- The head of the first queue that is not empty. -/
def IsNext (s : Sched) (p : ℕ) : Prop :=
  ∃ i < maxPrio, (∀ j < i, (s.arrays s.searched).queue j = []) ∧
    ((s.arrays s.searched).queue i).head? = some p

/-- `schedule` chooses the task, and where it returns the task is the current one. -/
def ScheduleSelects (s : Sched) (p : ℕ) : Prop :=
  s.exchange.nextOfSchedule = some p ∧
    ∀ now s', s.schedule now = some s' → s'.currentTask = p

/-- `find_next_task` chooses the task, and where it returns it returns the task. -/
def FindSelects (s : Sched) (p : ℕ) : Prop :=
  s.exchange.nextOfFind = some p ∧
    ∀ now next s', s.findNextTask now = some (next, s') → next = p

variable {s : Sched} {p : ℕ}

theorem scheduleSelects_iff : s.ScheduleSelects p ↔ s.exchange.nextOfSchedule = some p := by
  refine ⟨And.left, fun isNext => ⟨isNext, fun now s' scheduled => ?_⟩⟩
  have chosen := (schedule_quiet scheduled).2
  rw [isNext] at chosen
  exact (Option.some.inj chosen).symm

theorem findSelects_iff : s.FindSelects p ↔ s.exchange.nextOfFind = some p := by
  refine ⟨And.left, fun isNext => ⟨isNext, fun now next s' found => ?_⟩⟩
  have chosen := (findNextTask_quiet found).2.1
  rw [isNext] at chosen
  exact (Option.some.inj chosen).symm

/-- An array whose counter is zero has empty queues. -/
theorem linkedTasks_eq_zero {info : PrioArray} :
    info.linkedTasks = 0 ↔ ∀ i < maxPrio, info.queue i = [] := by
  unfold PrioArray.linkedTasks
  rw [Finset.sum_eq_zero_iff]
  refine forall_congr' fun i => ?_
  rw [Finset.mem_range, List.length_eq_zero_iff]

/-- The swap of the arrays makes the array that is searched the active one. -/
theorem Consistent.exchange_active (consistent : s.Consistent) :
    s.exchange.active = s.searched := by
  unfold Sched.exchange searched
  simp only [consistent.nrActive, linkedTasks_eq_zero]
  split
  · rfl
  · rfl

/-- A task that is queued anywhere leaves one in the array that is searched. -/
theorem Consistent.searched_queued (consistent : s.Consistent)
    (queued : ∃ array, ∃ i < maxPrio, (s.arrays array).queue i ≠ []) :
    ∃ i < maxPrio, (s.arrays s.searched).queue i ≠ [] := by
  unfold searched
  split
  next empty =>
    rcases queued with ⟨array, i, isQueue, notEmpty⟩
    rcases eq_active_or consistent.distinct array with ⟨rfl, _⟩ | ⟨rfl, _⟩
    · exact absurd (empty i isQueue) notEmpty
    · exact ⟨i, isQueue, notEmpty⟩
  next notEmpty =>
    simpa using notEmpty

/-- `highest_prio` names the queue of the next task, which `find_next_task` chooses. -/
theorem Consistent.exists_next (consistent : s.Consistent)
    (queued : ∃ array, ∃ i < maxPrio, (s.arrays array).queue i ≠ []) :
    ∃ p, s.IsNext p ∧ (s.arrays s.searched).highestPrio < maxPrio ∧
      s.exchange.firstOfHighest = some p := by
  have isQueue := consistent.indexed.highestPrio_lt.mpr (consistent.searched_queued queued)
  have indexed := consistent.indexed s.searched
  rcases head_mem (indexed.highest isQueue) with ⟨p, isHead, _⟩
  refine ⟨p, ⟨_, isQueue, indexed.above, isHead⟩, isQueue, ?_⟩
  unfold firstOfHighest
  rw [consistent.exchange_active, (exchange_spec s).2.1]
  exact isHead

/--
In every consistent state in which a task is queued, both functions select the head of the first
queue that is not empty exactly when no task of priority 0 is in the array that is searched.
-/
theorem sameNext_iff (s : Sched) (consistent : s.Consistent)
    (queued : ∃ array, ∃ i < maxPrio, (s.arrays array).queue i ≠ []) :
    (∃ p, s.IsNext p ∧ s.ScheduleSelects p ∧ s.FindSelects p) ↔
      (s.arrays s.searched).queue 0 = [] := by
  rcases consistent.exists_next queued with ⟨p, isNext, isQueue, isFirst⟩
  have indexed := consistent.indexed s.searched
  have idle := (exchange_spec s).2.2.2.2.1
  constructor
  · rintro ⟨q, ⟨i, _, above, isHead⟩, selects, _⟩
    by_contra notEmpty
    -- `highest_prio` is 0, and the choice is the idle task
    have isZero : (s.arrays s.searched).highestPrio = 0 := by
      by_contra pos
      exact notEmpty (indexed.above 0 (Nat.pos_of_ne_zero pos))
    have chosen := selects.1
    unfold nextOfSchedule at chosen
    simp only [consistent.exchange_active, (exchange_spec s).2.1, isZero, idle] at chosen
    have mem := List.mem_of_mem_head? isHead
    exact consistent.idleApart _ _ q mem chosen
  · intro noneFirst
    have pos : (s.arrays s.searched).highestPrio > 0 := by
      by_contra notPos
      have isZero : (s.arrays s.searched).highestPrio = 0 := by omega
      have notEmpty := indexed.highest isQueue
      rw [isZero] at notEmpty
      exact notEmpty noneFirst
    refine ⟨p, isNext, scheduleSelects_iff.mpr ?_, findSelects_iff.mpr ?_⟩
    · unfold nextOfSchedule
      simp only [consistent.exchange_active, (exchange_spec s).2.1, isQueue, pos, and_self, if_true]
      exact isFirst
    · unfold nextOfFind
      simp only [consistent.exchange_active, (exchange_spec s).2.1, isQueue, if_true]
      exact isFirst

/-- The state after the first fork is consistent. -/
theorem consistent_doFork {setPrio : ℤ} {s : Sched}
    (forked : initPc.step (.doFork setPrio (some 0) 0) = some s) : s.Consistent := by
  have admits : initPc.Admits (.doFork setPrio (some 0) 0) := fun _ => by decide
  have sane := initPc_sane.step forked
  have accounts := initPc_accounts.step initPc_sane admits forked
  have tidies : initPc.Tidies (.doFork setPrio (some 0) 0) := trivial
  have reached : GuardedReach step Tidies (· = initPc) s := .step (.start rfl) tidies forked
  refine ⟨sane.distinct, indexed_of_reach reached, accounts.nrActive, fun _ _ p _ => ?_⟩
  rw [(lists_of_reach reached).1.noIdle]
  exact nofun

/-- Both functions select a task of priority 55 after the first fork. -/
theorem sameNext_iff_forked : ∃ s, initPc.step (.doFork 55 (some 0) 0) = some s ∧
    ∃ p, s.IsNext p ∧ s.ScheduleSelects p ∧ s.FindSelects p := by
  have forks : ((initPc.step (.doFork 55 (some 0) 0)).map fun s =>
      decide ((∃ array, ∃ i < maxPrio, (s.arrays array).queue i ≠ []) ∧
        (s.arrays s.searched).queue 0 = [])) = some true := by
    decide +kernel
  rcases Option.map_eq_some_iff.mp forks with ⟨s, forked, holds⟩
  rw [decide_eq_true_iff] at holds
  exact ⟨s, forked, (sameNext_iff s (consistent_doFork forked) holds.1).mpr holds.2⟩

/-- After a first fork with priority 0 `schedule` does not select the only task there is. -/
theorem not_sameNext_zero : ¬∀ s : Sched, s.Consistent →
    (∃ array, ∃ i < maxPrio, (s.arrays array).queue i ≠ []) →
    ∃ p, s.IsNext p ∧ s.ScheduleSelects p ∧ s.FindSelects p := by
  intro always
  have forks : ((initPc.step (.doFork 0 (some 0) 0)).map fun s =>
      decide ((∃ array, ∃ i < maxPrio, (s.arrays array).queue i ≠ []) ∧
        s.exchange.nextOfSchedule = none)) = some true := by
    decide +kernel
  rcases Option.map_eq_some_iff.mp forks with ⟨s, forked, holds⟩
  rw [decide_eq_true_iff] at holds
  rcases always s (consistent_doFork forked) holds.1 with ⟨p, _, selects, _⟩
  rw [selects.1] at holds
  cases holds.2

end Sched

end Ninix.Process
