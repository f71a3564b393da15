import Mathlib.Tactic.SplitIfs
import Ninix.Process.Scheduler

/-!
# Decisions and the clock

The scheduler uses the clock for the time a task has slept or run, a difference of two readings
that stays the same when one number is added to all readings and timestamps. Only one comparison
is of another kind: when a round-robin task has used up its time slice, `scheduler_tick`
subtracts the new slice from the reading itself and not the time the task started.
-/

namespace Ninix.Process

open TransitionSystem

/-- A reading of the clock with a number added. -/
def shiftClock (d clock : ℕ) : ℕ := (clock + d) % 2 ^ 32

/-- A difference of readings does not depend on what is added to both. -/
theorem sub32_shiftClock (d now timestamp : ℕ) :
    sub32 (shiftClock d now) (shiftClock d timestamp) = sub32 now timestamp := by
  unfold sub32 shiftClock
  congr 1
  push_cast
  rw [Int.sub_emod, Int.emod_emod, Int.emod_emod, ← Int.sub_emod]
  congr 1
  omega

/-- A task with a number added to its timestamp. -/
def Task.shift (d : ℕ) (p : Task) : Task := { p with timestamp := shiftClock d p.timestamp }

/-- A state with a number added to all timestamps. -/
def Sched.shift (d : ℕ) (s : Sched) : Sched :=
  { s with
    tasks := fun p => (s.tasks p).shift d
    timestampLastTick := shiftClock d s.timestampLastTick }

/-- A call with a number added to the readings of the clock. -/
def SchedOp.shift (d : ℕ) : SchedOp → SchedOp
  | .doFork setPrio memory clock => .doFork setPrio memory (shiftClock d clock)
  | .schedulerTick clock now => .schedulerTick (shiftClock d clock) (shiftClock d now)
  | .schedule now => .schedule (shiftClock d now)
  | .pcExit now => .pcExit (shiftClock d now)
  | .pcKill pid => .pcKill pid

namespace Task

/-- The time slice of a real-time task. -/
def rtTimeslice (p : Task) : ℕ :=
  let retTimeslice := sub32 maxPrio p.rtPriority * 20 % 2 ^ 32
  if retTimeslice < 500 then 500 else if retTimeslice > 1200 then 1200 else retTimeslice

variable (d : ℕ) (p : Task) (now : ℕ)

theorem shift_addSleep : (p.shift d).addSleep (shiftClock d now) = (p.addSleep now).shift d := by
  have elapsed : sub32 (shiftClock d now) (p.shift d).timestamp = sub32 now p.timestamp :=
    sub32_shiftClock d now p.timestamp
  simp only [addSleep, elapsed]
  generalize (if sub32 now p.timestamp > maxSleepAvg then maxSleepAvg else
    sub32 now p.timestamp) = sleepTime
  split
  · rfl
  · rfl

theorem shift_recalcTaskPrio :
    (p.shift d).recalcTaskPrio (shiftClock d now) = (p.recalcTaskPrio now).map (shift d) := by
  simp only [recalcTaskPrio, shift_addSleep]
  generalize p.addSleep now = slept
  have same : (slept.shift d).isRtTask = slept.isRtTask := rfl
  have prio : (slept.shift d).dynamicPrio = slept.dynamicPrio := rfl
  rw [same, prio]
  split
  · rfl
  · cases slept.dynamicPrio with
    | none => rfl
    | some prio => rfl

theorem shift_runTime : (p.shift d).runTime (shiftClock d now) = p.runTime now := by
  have elapsed : sub32 (shiftClock d now) (p.shift d).timestamp = sub32 now p.timestamp :=
    sub32_shiftClock d now p.timestamp
  simp only [runTime, elapsed]

end Task

namespace Sched

variable (d : ℕ) (s : Sched) (p : ℕ)

@[simp]
theorem shift_tasks : (s.shift d).tasks p = (s.tasks p).shift d := rfl

theorem shift_setTask (task : Task) :
    (s.shift d).setTask p (task.shift d) = (s.setTask p task).shift d := by
  simp only [setTask, shift, Sched.mk.injEq, and_true]
  funext q
  simp only [Function.update_apply]
  split <;> rfl

theorem shift_enqueueTask (array : ArrayId) :
    (s.shift d).enqueueTask p array = (s.enqueueTask p array).shift d :=
  shift_setTask d { s with arrays := (s.enqueueTask p array).arrays } p
    { s.tasks p with array := some array }

theorem shift_dequeueTask (array : ArrayId) :
    (s.shift d).dequeueTask p array = (s.dequeueTask p array).shift d := by
  let info := s.arrays array
  let taken := (s.setArray array { info with nrActive := sub32 info.nrActive 1 }).unlink p
  have put := shift_setTask d taken p { s.tasks p with array := none }
  by_cases isEmpty : ((taken.arrays array).queue (s.tasks p).prio).isEmpty
  · have shifted : (s.shift d).dequeueTask p array =
        ((taken.shift d).setTask p (Task.shift d { s.tasks p with array := none })).setArray array
          (((taken.arrays array).clearBitMap (s.tasks p).effectivePrio).updateHighestPro
            (s.tasks p).effectivePrio false) := by
      unfold dequeueTask
      simp only [setTask, Function.update_self]
      exact if_pos isEmpty
    have plain : s.dequeueTask p array =
        (taken.setTask p { s.tasks p with array := none }).setArray array
          (((taken.arrays array).clearBitMap (s.tasks p).effectivePrio).updateHighestPro
            (s.tasks p).effectivePrio false) := by
      unfold dequeueTask
      simp only [setTask, Function.update_self]
      exact if_pos isEmpty
    rw [shifted, plain, put]
    rfl
  · have shifted : (s.shift d).dequeueTask p array =
        (taken.shift d).setTask p (Task.shift d { s.tasks p with array := none }) := by
      unfold dequeueTask
      simp only [setTask, Function.update_self]
      exact if_neg isEmpty
    have plain : s.dequeueTask p array = taken.setTask p { s.tasks p with array := none } := by
      unfold dequeueTask
      simp only [setTask, Function.update_self]
      exact if_neg isEmpty
    rw [shifted, plain, put]

theorem shift_deleteTask :
    (s.shift d).deleteTask p = (s.deleteTask p).map (shift d) := by
  have array : ((s.shift d).tasks p).array = (s.tasks p).array := rfl
  rw [deleteTask, deleteTask, array]
  cases (s.tasks p).array with
  | none => rfl
  | some array =>
      simp only [Option.map_some, shift_dequeueTask]
      rfl

theorem shift_pcKill (pid : ℕ) :
    (s.shift d).pcKill pid = (s.pcKill pid).map (Prod.map id (shift d)) := by
  have found : (s.shift d).findInProcesses pid = s.findInProcesses pid := rfl
  have current : ((s.shift d).tasks (s.shift d).currentTask).pid = (s.tasks s.currentTask).pid :=
    rfl
  have pids : (s.shift d).pids = s.pids := rfl
  unfold pcKill
  rw [found, current, pids]
  split_ifs
  · rfl
  · rfl
  · rfl
  · rfl
  · rfl
  · cases s.findInProcesses pid with
    | none => rfl
    | some p =>
        simp only [shift_deleteTask]
        cases s.deleteTask p with
        | none => rfl
        | some s' =>
            simp only [Option.map_some, Option.bind_eq_bind, Option.bind_some]
            cases hfree : s'.pids.pidFree pid with
            | none => simp [shift, hfree]
            | some pids => simp [shift, hfree]

/-- The time slice of a real-time task, which is killed when it has starved. -/
theorem basicTimeslice_rt (isRt : (s.tasks p).isRtTask) :
    s.basicTimeslice p =
      if (s.tasks p).starveCount ≥ maxStarveCount then
        (s.pcKill (s.tasks p).pid).map fun killed => ((s.tasks p).rtTimeslice, killed.2)
      else some ((s.tasks p).rtTimeslice, s) := by
  unfold basicTimeslice
  simp only [isRt, if_true]
  split
  · cases s.pcKill (s.tasks p).pid with
    | none => rfl
    | some killed => rfl
  · rfl

theorem shift_basicTimeslice :
    (s.shift d).basicTimeslice p = (s.basicTimeslice p).map (Prod.map id (shift d)) := by
  by_cases isRt : (s.tasks p).isRtTask
  · have isRt' : ((s.shift d).tasks p).isRtTask := isRt
    have starve : ((s.shift d).tasks p).starveCount = (s.tasks p).starveCount := rfl
    have slice : ((s.shift d).tasks p).rtTimeslice = (s.tasks p).rtTimeslice := rfl
    have pid : ((s.shift d).tasks p).pid = (s.tasks p).pid := rfl
    rw [basicTimeslice_rt _ _ isRt, basicTimeslice_rt _ _ isRt', starve, slice, pid, shift_pcKill]
    split
    · cases s.pcKill (s.tasks p).pid with
      | none => rfl
      | some killed => rfl
    · rfl
  · have isRt' : ¬((s.shift d).tasks p).isRtTask := isRt
    simp only [basicTimeslice, isRt, isRt', Bool.false_eq_true, if_false]
    rfl

theorem shift_exchange : (s.shift d).exchange = s.exchange.shift d := by
  have count : ((s.shift d).arrays (s.shift d).active).nrActive = (s.arrays s.active).nrActive :=
    rfl
  unfold exchange
  rw [count]
  split <;> rfl

theorem shift_schedule (now : ℕ) :
    (s.shift d).schedule (shiftClock d now) = (s.schedule now).map (shift d) := by
  have runTime : ((s.shift d).tasks s.currentTask).runTime (shiftClock d now) =
      (s.tasks s.currentTask).runTime now := Task.shift_runTime d _ now
  have current : (s.shift d).currentTask = s.currentTask := rfl
  unfold schedule
  simp only [current, runTime, shift_exchange]
  generalize s.exchange = e
  have next : (e.shift d).nextOfSchedule = e.nextOfSchedule := rfl
  rw [next]
  cases e.nextOfSchedule with
  | none => rfl
  | some next =>
      simp only [Option.bind_eq_bind, Option.bind_some, shift_tasks, Task.shift_recalcTaskPrio]
      cases (e.tasks next).recalcTaskPrio now with
      | none => rfl
      | some nextTask =>
          simp only [Option.map_some, Option.bind_some, shift_setTask]
          generalize e.setTask next nextTask = chosen
          have turn : (Task.shift d (chosen.tasks s.currentTask)).endTurn
              ((s.tasks s.currentTask).runTime now) (shiftClock d now) =
                Task.shift d ((chosen.tasks s.currentTask).endTurn
                  ((s.tasks s.currentTask).runTime now) now) := rfl
          simp only [shift_tasks, turn, shift_setTask]
          generalize chosen.setTask s.currentTask _ = ended
          have current' : (ended.shift d).currentTask = ended.currentTask := rfl
          have started : ({ (ended.tasks next).shift d with timestamp := shiftClock d now } : Task) =
              Task.shift d { ended.tasks next with timestamp := now } := rfl
          simp only [current', started, shift_setTask]
          split <;> rfl

/-! ## The clock interrupt -/

/-- Give a task a time slice. -/
def giveSlice (timeSlice : ℕ) : Sched := s.setTask p { s.tasks p with timeSlice }

theorem shift_giveSlice (timeSlice : ℕ) :
    (s.shift d).giveSlice p timeSlice = (s.giveSlice p timeSlice).shift d :=
  shift_setTask d s p { s.tasks p with timeSlice }

/-- The new time slice that `scheduler_tick` gives a task. -/
def refill : Option Sched :=
  (s.basicTimeslice p).map fun (timeSlice, s) => s.giveSlice p timeSlice

theorem shift_refill : (s.shift d).refill p = (s.refill p).map (shift d) := by
  rw [refill, refill, shift_basicTimeslice]
  cases s.basicTimeslice p with
  | none => rfl
  | some refilled => exact congrArg some (shift_giveSlice d refilled.2 p refilled.1)

theorem moveToExpired_eq : s.moveToExpired p =
    ((s.dequeueTask p s.active).refill p).map fun s => s.enqueueTask p s.expired := by
  simp only [moveToExpired, refill]
  generalize s.dequeueTask p s.active = taken
  cases taken.basicTimeslice p <;> rfl

theorem moveToTail_eq : s.moveToTail p =
    (s.refill p).map fun s => s.requeueTask p s.active := by
  simp only [moveToTail, refill]
  cases s.basicTimeslice p <;> rfl

theorem sliceOver_eq : s.sliceOver p =
    (((s.dequeueTask p s.active).tasks p).dynamicPrio.bind fun prio =>
      ((s.dequeueTask p s.active).setTask p
        { (s.dequeueTask p s.active).tasks p with prio }).refill p).map
          fun s => s.enqueueTask p s.expired := by
  simp only [sliceOver, refill]
  generalize s.dequeueTask p s.active = taken
  cases (taken.tasks p).dynamicPrio with
  | none => rfl
  | some prio =>
      simp only [Option.bind_eq_bind, Option.bind_some]
      generalize taken.setTask p _ = ranked
      cases ranked.basicTimeslice p <;> rfl

theorem shift_moveToExpired :
    (s.shift d).moveToExpired p = (s.moveToExpired p).map (shift d) := by
  have active : (s.shift d).active = s.active := rfl
  rw [moveToExpired_eq, moveToExpired_eq, active, shift_dequeueTask, shift_refill, Option.map_map,
    Option.map_map]
  congr 1
  funext refilled
  exact shift_enqueueTask d refilled p refilled.expired

theorem shift_moveToTail : (s.shift d).moveToTail p = (s.moveToTail p).map (shift d) := by
  rw [moveToTail_eq, moveToTail_eq, shift_refill, Option.map_map, Option.map_map]
  rfl

theorem shift_sliceOver : (s.shift d).sliceOver p = (s.sliceOver p).map (shift d) := by
  have active : (s.shift d).active = s.active := rfl
  rw [sliceOver_eq, sliceOver_eq, active, shift_dequeueTask]
  generalize s.dequeueTask p s.active = taken
  have prio : ((taken.shift d).tasks p).dynamicPrio = (taken.tasks p).dynamicPrio := rfl
  rw [prio]
  cases (taken.tasks p).dynamicPrio with
  | none => rfl
  | some prio =>
      have put : (taken.shift d).setTask p { (taken.shift d).tasks p with prio } =
          (taken.setTask p { taken.tasks p with prio }).shift d :=
        shift_setTask d taken p { taken.tasks p with prio }
      rw [Option.bind_some, Option.bind_some, put, shift_refill, Option.map_map, Option.map_map]
      congr 1
      funext refilled
      exact shift_enqueueTask d refilled p refilled.expired

/-- A task is dequeued without a look at the clock. -/
theorem dequeueTask_timestampLastTick (array : ArrayId) :
    (s.dequeueTask p array).timestampLastTick = s.timestampLastTick := by
  simp only [dequeueTask]
  split <;> rfl

/-- So is one killed. -/
theorem pcKill_timestampLastTick {pid code : ℕ} {s' : Sched}
    (killed : s.pcKill pid = some (code, s')) : s'.timestampLastTick = s.timestampLastTick := by
  unfold pcKill at killed
  split_ifs at killed
  · cases killed
    rfl
  · cases killed
    rfl
  · cases killed
    rfl
  · cases killed
    rfl
  · cases killed
    rfl
  · split at killed
    · cases killed
      rfl
    · rename_i p _
      simp only [Option.bind_eq_bind, Option.bind_eq_some_iff, deleteTask] at killed
      rcases killed with ⟨deleted, isDeleted, pids, _, eq⟩
      rcases Option.map_eq_some_iff.mp isDeleted with ⟨array, _, rfl⟩
      cases eq
      exact dequeueTask_timestampLastTick s p array

/-- A round-robin task is starved when the reading of the clock, less the new time slice, is
beyond the limit. -/
def Starved (s : Sched) (clock : ℕ) : Prop :=
  sub32 clock (s.tasks s.currentTask).rtTimeslice > starvationLimit

instance (s : Sched) (clock : ℕ) : Decidable (s.Starved clock) :=
  inferInstanceAs (Decidable (_ > _))

theorem rrSliceOver_eq (isRt : (s.tasks s.currentTask).isRtTask) :
    s.rrSliceOver s.currentTask = (s.refill s.currentTask).bind fun refilled =>
      if sub32 s.timestampLastTick (s.tasks s.currentTask).rtTimeslice > starvationLimit then
        refilled.moveToExpired s.currentTask
      else refilled.moveToTail s.currentTask := by
  simp only [rrSliceOver, refill]
  rw [basicTimeslice_rt _ _ isRt]
  split
  · cases killed : s.pcKill (s.tasks s.currentTask).pid with
    | none => rfl
    | some result =>
        rcases result with ⟨code, s'⟩
        have last := pcKill_timestampLastTick s killed
        simp only [Option.map_some, Option.bind_eq_bind, Option.bind_some, giveSlice, setTask, last]
  · rfl

theorem shift_rrSliceOver (isRt : (s.tasks s.currentTask).isRtTask)
    (same : s.Starved (shiftClock d s.timestampLastTick) ↔ s.Starved s.timestampLastTick) :
    (s.shift d).rrSliceOver s.currentTask = (s.rrSliceOver s.currentTask).map (shift d) := by
  have eq' := rrSliceOver_eq (s.shift d) isRt
  have last : (s.shift d).timestampLastTick = shiftClock d s.timestampLastTick := rfl
  have slice : ((s.shift d).tasks s.currentTask).rtTimeslice =
      (s.tasks s.currentTask).rtTimeslice := rfl
  have current : (s.shift d).currentTask = s.currentTask := rfl
  rw [current, last, slice] at eq'
  rw [eq', rrSliceOver_eq s isRt, shift_refill]
  unfold Starved at same
  cases s.refill s.currentTask with
  | none => rfl
  | some refilled =>
      simp only [Option.map_some, Option.bind_some, same]
      split
      · exact shift_moveToExpired d refilled s.currentTask
      · exact shift_moveToTail d refilled s.currentTask

/-- A tick ends the time slice of a round-robin task. -/
structure RrSliceEnds (s : Sched) : Prop where
  notIdle : (s.tasks s.currentTask).pid ≠ idlePid
  notExpired : (s.tasks s.currentTask).array ≠ some s.expired
  notPreempted : ¬(s.arrays s.active).highestPrio < (s.tasks s.currentTask).effectivePrio
  isRt : (s.tasks s.currentTask).isRtTask
  policy : (s.tasks s.currentTask).policy = .rr
  ends : sub32 (s.tasks s.currentTask).timeSlice 1 = 0

theorem rrSliceEnds_iff : s.RrSliceEnds ↔
    (s.tasks s.currentTask).pid ≠ idlePid ∧ (s.tasks s.currentTask).array ≠ some s.expired ∧
      ¬(s.arrays s.active).highestPrio < (s.tasks s.currentTask).effectivePrio ∧
      (s.tasks s.currentTask).isRtTask ∧ (s.tasks s.currentTask).policy = .rr ∧
      sub32 (s.tasks s.currentTask).timeSlice 1 = 0 :=
  ⟨fun ⟨notIdle, notExpired, notPreempted, isRt, policy, ends⟩ =>
    ⟨notIdle, notExpired, notPreempted, isRt, policy, ends⟩,
    fun ⟨notIdle, notExpired, notPreempted, isRt, policy, ends⟩ =>
    ⟨notIdle, notExpired, notPreempted, isRt, policy, ends⟩⟩

instance (s : Sched) : Decidable s.RrSliceEnds := decidable_of_iff _ s.rrSliceEnds_iff.symm

/-- The running task with one tick less in its time slice. -/
def spendTick : Sched :=
  s.giveSlice s.currentTask (sub32 (s.tasks s.currentTask).timeSlice 1)

theorem shift_spendTick : (s.shift d).spendTick = s.spendTick.shift d :=
  shift_giveSlice d s s.currentTask (sub32 (s.tasks s.currentTask).timeSlice 1)

theorem tickAccount_eq : s.tickAccount =
    if (s.tasks s.currentTask).pid = idlePid then some (s, true)
    else if (s.tasks s.currentTask).array = some s.expired then some (s, true)
    else if (s.arrays s.active).highestPrio < (s.tasks s.currentTask).effectivePrio then
      some (s, true)
    else if (s.tasks s.currentTask).isRtTask then
      if (s.tasks s.currentTask).policy = .rr then
        if sub32 (s.tasks s.currentTask).timeSlice 1 = 0 then
          (s.spendTick.rrSliceOver s.currentTask).map fun s => (s, true)
        else some (s.spendTick, false)
      else some (s, false)
    else if sub32 (s.tasks s.currentTask).timeSlice 1 = 0 then
      (s.spendTick.sliceOver s.currentTask).map fun s => (s, true)
    else some (s.spendTick, false) := rfl

theorem shift_tickAccount
    (same : s.RrSliceEnds →
      (s.Starved (shiftClock d s.timestampLastTick) ↔ s.Starved s.timestampLastTick)) :
    (s.shift d).tickAccount = s.tickAccount.map (Prod.map (shift d) id) := by
  have current : (s.shift d).currentTask = s.currentTask := rfl
  have pid : ((s.tasks s.currentTask).shift d).pid = (s.tasks s.currentTask).pid := rfl
  have array : ((s.tasks s.currentTask).shift d).array = (s.tasks s.currentTask).array := rfl
  have expired : (s.shift d).expired = s.expired := rfl
  have highest : ((s.shift d).arrays (s.shift d).active).highestPrio =
      (s.arrays s.active).highestPrio := rfl
  have effective : ((s.tasks s.currentTask).shift d).effectivePrio =
      (s.tasks s.currentTask).effectivePrio := rfl
  have isRt : ((s.tasks s.currentTask).shift d).isRtTask = (s.tasks s.currentTask).isRtTask := rfl
  have policy : ((s.tasks s.currentTask).shift d).policy = (s.tasks s.currentTask).policy := rfl
  have slice : ((s.tasks s.currentTask).shift d).timeSlice = (s.tasks s.currentTask).timeSlice :=
    rfl
  rw [tickAccount_eq, tickAccount_eq]
  simp only [current, shift_tasks, pid, array, expired, highest, effective, isRt, policy, slice,
    shift_spendTick]
  split_ifs with idle isExpired preempted rt rr rrEnds ends
  · rfl
  · rfl
  · rfl
  · have spent : s.spendTick.tasks s.currentTask = { s.tasks s.currentTask with
        timeSlice := sub32 (s.tasks s.currentTask).timeSlice 1 } :=
      Function.update_self ..
    have slices : (s.spendTick.tasks s.currentTask).rtTimeslice =
        (s.tasks s.currentTask).rtTimeslice := by
      rw [spent]
      rfl
    have rtSpent : (s.spendTick.tasks s.currentTask).isRtTask := by
      rw [spent]
      exact rt
    have sameSpent : s.spendTick.Starved (shiftClock d s.timestampLastTick) ↔
        s.spendTick.Starved s.timestampLastTick := by
      have same' := same ⟨idle, isExpired, preempted, rt, rr, rrEnds⟩
      simp only [Starved] at same' ⊢
      exact slices ▸ same'
    have sliceEnds : (s.spendTick.shift d).rrSliceOver s.currentTask =
        (s.spendTick.rrSliceOver s.currentTask).map (shift d) :=
      shift_rrSliceOver d s.spendTick rtSpent sameSpent
    rw [sliceEnds, Option.map_map, Option.map_map]
    rfl
  · rfl
  · rfl
  · rw [shift_sliceOver, Option.map_map, Option.map_map]
    rfl
  · rfl

theorem shift_schedulerTick {clock now : ℕ}
    (same : s.RrSliceEnds → (s.Starved (shiftClock d clock) ↔ s.Starved clock)) :
    (s.shift d).schedulerTick (shiftClock d clock) (shiftClock d now) =
      (s.schedulerTick clock now).map (shift d) := by
  have started : ({ s.shift d with timestampLastTick := shiftClock d clock } : Sched) =
      ({ s with timestampLastTick := clock } : Sched).shift d := rfl
  have account := shift_tickAccount d { s with timestampLastTick := clock }
    fun ends => same ⟨ends.notIdle, ends.notExpired, ends.notPreempted, ends.isRt, ends.policy,
      ends.ends⟩
  unfold schedulerTick
  rw [started, account]
  cases tickAccount { s with timestampLastTick := clock } with
  | none => rfl
  | some result =>
      rcases result with ⟨accounted, reschedule⟩
      cases reschedule with
      | false => rfl
      | true => exact shift_schedule d accounted now

/-! ## New tasks -/

/-- The priorities that `sched_fork` gives a task. -/
def forkTask (parent task : Task) (setPrio : ℤ) : Task :=
  let staticPrio := if setPrio = -1 then parent.staticPrio else setPrio.toNat
  { task with
    staticPrio
    rtPriority := staticPrio
    prio := staticPrio
    sleepAvg := parent.sleepAvg
    policy :=
      if staticPrio ≤ maxRtPrio then if staticPrio > maxRtPrio / 2 then .rr else .fifo
      else .normal
    array := none }

theorem shift_forkPrio (setPrio : ℤ) :
    (s.shift d).forkPrio p setPrio = (s.forkPrio p setPrio).shift d :=
  shift_setTask d s p (forkTask (s.tasks s.currentTask) (s.tasks p) setPrio)

/-- A new task gets half of the time slice of its parent, which keeps the other half. -/
def splitSlice : Sched :=
  let s := s.giveSlice p (((s.tasks s.currentTask).timeSlice + 1) % 2 ^ 32 / 2)
  s.giveSlice s.currentTask ((s.tasks s.currentTask).timeSlice / 2)

theorem shift_splitSlice : (s.shift d).splitSlice p = (s.splitSlice p).shift d := by
  have child := shift_giveSlice d s p (((s.tasks s.currentTask).timeSlice + 1) % 2 ^ 32 / 2)
  simp only [splitSlice]
  exact (congrArg (fun s : Sched => s.giveSlice s.currentTask
    ((s.tasks s.currentTask).timeSlice / 2)) child).trans (shift_giveSlice d _ s.currentTask _)

theorem forkSlice_eq : s.forkSlice p =
    if (s.tasks p).pid = initPid then s.refill p else some (s.splitSlice p) := by
  unfold forkSlice refill
  split
  · cases s.basicTimeslice p <;> rfl
  · rfl

theorem shift_forkSlice : (s.shift d).forkSlice p = (s.forkSlice p).map (shift d) := by
  have pid : ((s.shift d).tasks p).pid = (s.tasks p).pid := rfl
  rw [forkSlice_eq, forkSlice_eq, pid, shift_refill, shift_splitSlice]
  split <;> rfl

/-- A task whose time slice is used up keeps one tick. -/
def keepTick : Sched :=
  if (s.tasks s.currentTask).timeSlice = 0 then s.giveSlice s.currentTask 1 else s

theorem shift_keepTick : (s.shift d).keepTick = s.keepTick.shift d := by
  have slice : ((s.shift d).tasks (s.shift d).currentTask).timeSlice =
      (s.tasks s.currentTask).timeSlice := rfl
  unfold keepTick
  rw [slice]
  split
  · exact shift_giveSlice d s s.currentTask 1
  · rfl

theorem schedFork_eq (setPrio : ℤ) (clock : ℕ) : s.schedFork p setPrio clock =
    ((s.forkPrio p setPrio).forkSlice p).map fun s =>
      s.keepTick.setTask p { s.keepTick.tasks p with timestamp := clock } := by
  simp only [schedFork]
  cases (s.forkPrio p setPrio).forkSlice p <;> rfl

theorem shift_schedFork (setPrio : ℤ) (clock : ℕ) :
    (s.shift d).schedFork p setPrio (shiftClock d clock) =
      (s.schedFork p setPrio clock).map (shift d) := by
  rw [schedFork_eq, schedFork_eq, shift_forkPrio, shift_forkSlice, Option.map_map, Option.map_map]
  congr 1
  funext forked
  have started := shift_setTask d forked.keepTick p
    { forked.keepTick.tasks p with timestamp := clock }
  simp only [Function.comp_apply, shift_keepTick]
  exact started

/-- The parent of a new task sleeps less. -/
def weighParent : Sched :=
  s.setTask s.currentTask (weighSleep (s.tasks s.currentTask) parentPenalty)

theorem shift_weighParent : (s.shift d).weighParent = s.weighParent.shift d :=
  shift_setTask d s s.currentTask (weighSleep (s.tasks s.currentTask) parentPenalty)

theorem shift_activateTask : (s.shift d).activateTask p = (s.activateTask p).shift d :=
  congrArg (fun s : Sched => { s with nrRunning := s.nrRunning + 1 })
    (shift_enqueueTask d s p s.active)

theorem wakeUpNewTask_eq : s.wakeUpNewTask p =
    (wakePrio (weighSleep (s.tasks p) childPenalty)).map fun prio =>
      (activateTask (s.setTask p { weighSleep (s.tasks p) childPenalty with prio })
        p).weighParent := by
  simp only [wakeUpNewTask, weighParent]
  cases wakePrio (weighSleep (s.tasks p) childPenalty) <;> rfl

theorem shift_wakeUpNewTask :
    (s.shift d).wakeUpNewTask p = (s.wakeUpNewTask p).map (shift d) := by
  have prio : wakePrio (weighSleep ((s.shift d).tasks p) childPenalty) =
      wakePrio (weighSleep (s.tasks p) childPenalty) := rfl
  rw [wakeUpNewTask_eq, wakeUpNewTask_eq, prio, Option.map_map]
  congr 1
  funext prio
  have ranked : (s.shift d).setTask p { weighSleep ((s.shift d).tasks p) childPenalty with prio } =
      (s.setTask p { weighSleep (s.tasks p) childPenalty with prio }).shift d :=
    shift_setTask d s p { weighSleep (s.tasks p) childPenalty with prio }
  rw [ranked, shift_activateTask, shift_weighParent]
  rfl

theorem shift_makeTask (starveCount : ℕ) :
    (s.shift d).makeTask starveCount = (s.makeTask starveCount).shift d :=
  shift_setTask d { s with
    unused := s.unused + 1, pids := s.pids.pidAlloc.2, processes := s.processes ++ [s.unused]
    nrProcess := s.nrProcess + 1 }
    s.unused { s.tasks s.unused with pid := s.pids.pidAlloc.1, starveCount }

theorem shift_doFork (setPrio : ℤ) (memory : Option ℕ) (clock : ℕ) :
    (s.shift d).doFork setPrio memory (shiftClock d clock) =
      (s.doFork setPrio memory clock).map (Prod.map id (shift d)) := by
  have pids : (s.shift d).pids = s.pids := rfl
  have unused : (s.shift d).unused = s.unused := rfl
  rw [doFork_eq, doFork_eq, pids, unused]
  split
  · rfl
  · cases memory with
    | none =>
        simp only [Option.map_map]
        rfl
    | some starveCount =>
        simp only [shift_makeTask, shift_schedFork]
        cases (s.makeTask starveCount).schedFork s.unused setPrio clock with
        | none => rfl
        | some forked =>
            simp only [Option.map_some, Option.bind_some, shift_wakeUpNewTask, Option.map_map]
            rfl

/-! ## Runs -/

theorem shift_findNextTask (now : ℕ) :
    (s.shift d).findNextTask (shiftClock d now) =
      (s.findNextTask now).map (Prod.map id (shift d)) := by
  unfold findNextTask
  simp only [shift_exchange]
  generalize s.exchange = e
  have next : (e.shift d).nextOfFind = e.nextOfFind := rfl
  rw [next]
  cases e.nextOfFind with
  | none => rfl
  | some next =>
      simp only [Option.bind_eq_bind, Option.bind_some, shift_tasks, Task.shift_recalcTaskPrio]
      cases (e.tasks next).recalcTaskPrio now with
      | none => rfl
      | some nextTask =>
          exact congrArg (fun s => some (next, s))
            (shift_setTask d e next { nextTask with timestamp := now })

theorem shift_pcExit (now : ℕ) :
    (s.shift d).pcExit (shiftClock d now) = (s.pcExit now).map (shift d) := by
  have current : (s.shift d).currentTask = s.currentTask := rfl
  unfold pcExit
  simp only [current, shift_deleteTask]
  cases s.deleteTask s.currentTask with
  | none => rfl
  | some deleted =>
      simp only [Option.bind_eq_bind, Option.map_some, Option.bind_some, shift_findNextTask]
      cases deleted.findNextTask now with
      | none => rfl
      | some found =>
          rcases found with ⟨next, chosen⟩
          have pids : (chosen.shift d).pids.pidFree ((chosen.shift d).tasks s.currentTask).pid =
              chosen.pids.pidFree (chosen.tasks s.currentTask).pid := rfl
          simp only [Option.map_some, Option.bind_some, Prod.map_apply, id_eq, pids]
          cases chosen.pids.pidFree (chosen.tasks s.currentTask).pid <;> rfl

/-- The readings of the clock of a call fall on the same side of the starvation limit, where the
time slice of a round-robin task ends. -/
def SameSide (d : ℕ) (s : Sched) : SchedOp → Prop
  | .schedulerTick clock _ =>
      s.RrSliceEnds → (s.Starved (shiftClock d clock) ↔ s.Starved clock)
  | _ => True

instance (d : ℕ) (s : Sched) (op : SchedOp) : Decidable (SameSide d s op) :=
  match op with
  | .schedulerTick _ _ => inferInstanceAs (Decidable (_ → _))
  | .doFork _ _ _ | .schedule _ | .pcExit _ | .pcKill _ => .isTrue trivial

theorem shift_step {op : SchedOp} (same : SameSide d s op) :
    (s.shift d).step (op.shift d) = (s.step op).map (shift d) := by
  cases op with
  | doFork setPrio memory clock =>
      have forked := shift_doFork d s setPrio memory clock
      simp only [step, SchedOp.shift, forked, Option.map_map]
      rfl
  | schedulerTick clock now => exact shift_schedulerTick d s same
  | schedule now => exact shift_schedule d s now
  | pcExit now => exact shift_pcExit d s now
  | pcKill pid =>
      simp only [step, SchedOp.shift, shift_pcKill, Option.map_map]
      rfl

/-- Two states in which the scheduler has decided the same. -/
structure SameDecisions (s s' : Sched) : Prop where
  currentTask : s.currentTask = s'.currentTask
  arrays : s.arrays = s'.arrays
  active : s.active = s'.active
  expired : s.expired = s'.expired
  prio : ∀ p, (s.tasks p).prio = (s'.tasks p).prio
  sleepAvg : ∀ p, (s.tasks p).sleepAvg = (s'.tasks p).sleepAvg
  timeSlice : ∀ p, (s.tasks p).timeSlice = (s'.tasks p).timeSlice

/-- Each decision of a run stays the same when a number is added to the readings of the clock
and to the timestamps. -/
def ElapsedOnly (d : ℕ) (s : Sched) (ops : List SchedOp) : Prop :=
  ∀ n, Option.Rel SameDecisions (run step s (ops.take n))
    (run step (s.shift d) ((ops.take n).map (SchedOp.shift d)))

theorem elapsedOnly_of_sameSide {ops : List SchedOp}
    (same : GuardedRun step (SameSide d) s ops) : ElapsedOnly d s ops := by
  intro n
  have shifted : run step (s.shift d) ((ops.take n).map (SchedOp.shift d)) =
      (run step s (ops.take n)).map (shift d) :=
    run_map (fun s op sameOp => shift_step d s sameOp) (same.take n)
  rw [shifted]
  cases run step s (ops.take n) with
  | none => exact .none
  | some final => exact .some ⟨rfl, rfl, rfl, rfl, fun _ => rfl, fun _ => rfl, fun _ => rfl⟩

/-- Two round-robin tasks are forked, and the time slice of the second, which it shares with its
parent, ends at the second tick. -/
def roundRobinRun : List SchedOp :=
  [.doFork 30 (some 0) 0, .doFork 28 (some 0) 0, .schedulerTick 0 0, .schedulerTick 1000 1000]

/-- The clock may start a little later, if it does not come to the limit. -/
theorem elapsedOnly_of_sameSide_roundRobin : ElapsedOnly 4000 initPc roundRobinRun :=
  elapsedOnly_of_sameSide 4000 initPc (by decide +kernel)

/-- A clock that starts 7000 later moves the second task to the expired array. -/
theorem not_elapsedOnly_roundRobin : ¬ElapsedOnly 7000 initPc roundRobinRun := by
  intro same
  have decided := same 4
  have plain : (run step initPc (roundRobinRun.take 4)).any
      (fun final => (final.arrays 0).queue 28 = [2]) := by decide +kernel
  have shifted : (run step (initPc.shift 7000)
      ((roundRobinRun.take 4).map (SchedOp.shift 7000))).any
      (fun final => (final.arrays 0).queue 28 = []) := by decide +kernel
  generalize run step initPc (roundRobinRun.take 4) = ran at decided plain
  generalize run step (initPc.shift 7000) ((roundRobinRun.take 4).map (SchedOp.shift 7000)) = ran'
    at decided shifted
  cases decided with
  | none => cases plain
  | some agree =>
      simp only [Option.any_some, decide_eq_true_eq] at plain shifted
      rw [agree.arrays, shifted] at plain
      cases plain

end Sched

end Ninix.Process
