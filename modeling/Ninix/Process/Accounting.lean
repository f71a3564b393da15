import Ninix.Library.Counting
import Ninix.Process.Priority

/-!
# Process accounting

Every task on `processes` is linked in one queue, the counters of the two arrays count the tasks
in their queues, and `nr_running` and `nr_process` both count all of them. The queue a task is in
need not be that of its priority: nothing here depends on the priority of a task that is already
linked.
-/

namespace Ninix.Process

open TransitionSystem

/-- The size of `union task_union`, that of its kernel stack. -/
abbrev kernelStackSize : ℕ := 4096

/-- The number of tasks in the queues of an array. -/
def PrioArray.linkedTasks (info : PrioArray) : ℕ :=
  ∑ i ∈ Finset.range maxPrio, (info.queue i).length

/-- What `sched_fork` gives every task and nothing takes away. -/
structure Task.Valid (task : Task) : Prop where
  sleepAvg : task.sleepAvg ≤ maxSleepAvg
  rtPriority : task.isRtTask → task.rtPriority = task.staticPrio
  prio : task.isRtTask → task.prio = task.staticPrio

/-- Two versions of a task in the same queue. -/
structure Task.Ages (task task' : Task) : Prop where
  pid : task'.pid = task.pid
  staticPrio : task'.staticPrio = task.staticPrio
  rtPriority : task'.rtPriority = task.rtPriority
  array : task'.array = task.array
  valid : task.Valid → task'.Valid

namespace Sched

/-- A task is linked in one queue of one array, and knows the array. -/
def At (s : Sched) (p : ℕ) (array : ArrayId) (i : ℕ) : Prop :=
  i < maxPrio ∧ (s.tasks p).array = some array ∧
    ∀ a j, ((s.arrays a).queue j).count p = if a = array ∧ j = i then 1 else 0

/-- The counters and the lists agree. -/
structure Accounts (s : Sched) : Prop where
  nodup : s.processes.Nodup
  queued : ∀ p ∈ s.processes, ∃ array i, s.At p array i
  nrActive : ∀ array, (s.arrays array).nrActive = (s.arrays array).linkedTasks
  nrProcess : s.nrProcess = s.processes.length
  nrRunning : s.nrRunning = (s.arrays s.active).nrActive + (s.arrays s.expired).nrActive
  all : s.nrRunning = s.nrProcess
  fits : s.processes.length * kernelStackSize ≤ 2 ^ 32

/-- The arrays are two, and all tasks the scheduler knows have been made. -/
structure Sane (s : Sched) : Prop where
  distinct : s.active ≠ s.expired
  linkedUsed : ∀ p, s.Linked p → p < s.unused
  processUsed : ∀ p ∈ s.processes, p < s.unused
  currentUsed : s.currentTask < s.unused
  idleUsed : ∀ p, s.idle = some p → p < s.unused
  valid : ∀ p < s.unused, (s.tasks p).Valid

/-- Only tasks and the choice of the current one differ. -/
structure Quiet (s s' : Sched) : Prop where
  arrays : s'.arrays = s.arrays
  active : s'.active = s.active
  expired : s'.expired = s.expired
  processes : s'.processes = s.processes
  nrProcess : s'.nrProcess = s.nrProcess
  nrRunning : s'.nrRunning = s.nrRunning
  unused : s'.unused = s.unused
  idle : s'.idle = s.idle
  pids : s'.pids = s.pids
  tasks : ∀ q, (s.tasks q).Ages (s'.tasks q)

end Sched

/-! ## Tasks -/

section Tasks

variable {task task' : Task} {now prio : ℕ}

theorem Task.Ages.refl (task : Task) : task.Ages task := ⟨rfl, rfl, rfl, rfl, id⟩

theorem Task.Ages.trans {task'' : Task} (first : task.Ages task') (second : task'.Ages task'') :
    task.Ages task'' where
  pid := second.pid.trans first.pid
  staticPrio := second.staticPrio.trans first.staticPrio
  rtPriority := second.rtPriority.trans first.rtPriority
  array := second.array.trans first.array
  valid := second.valid ∘ first.valid

/-- The priority of a normal task is between 50 and 63. -/
theorem Task.dynamicPrio_lt (normal : task.isRtTask = false)
    (isPrio : task.dynamicPrio = some prio) : prio < maxPrio := by
  simp only [Task.dynamicPrio, normal] at isPrio
  rcases Option.map_eq_some_iff.mp (by simpa using isPrio) with ⟨bonus, _, rfl⟩
  simp only [maxPrio]
  split_ifs <;> omega

theorem Task.getBonus_isSome (valid : task.Valid) : task.getBonus.isSome := by
  have slept := valid.sleepAvg
  simp only [Task.getBonus]
  split_ifs
  all_goals rfl

/-- The priority of a task is defined. -/
theorem Task.dynamicPrio_isSome (valid : task.Valid) : task.dynamicPrio.isSome := by
  simp only [Task.dynamicPrio]
  split
  · rfl
  · simpa using Task.getBonus_isSome valid

theorem Task.Valid.effectivePrio_lt (valid : task.Valid) (isRt : task.isRtTask = true) :
    task.effectivePrio < maxPrio := by
  rw [Task.effectivePrio_of_rt isRt, valid.rtPriority isRt]
  have below : task.staticPrio ≤ maxRtPrio := of_decide_eq_true isRt
  exact Nat.lt_of_le_of_lt below (by decide)

theorem Task.Valid.effectivePrio (valid : task.Valid) : task.effectivePrio = task.prio := by
  by_cases isRt : task.isRtTask = true
  · rw [Task.effectivePrio_of_rt isRt, valid.rtPriority isRt, valid.prio isRt]
  · exact Task.effectivePrio_of_normal (Bool.eq_false_iff.mpr isRt)

theorem Task.Same.ages (same : task.Same task')
    (slept : task.sleepAvg ≤ maxSleepAvg → task'.sleepAvg ≤ maxSleepAvg) : task.Ages task' where
  pid := same.pid
  staticPrio := same.staticPrio
  rtPriority := same.rtPriority
  array := same.array
  valid := by
    intro valid
    refine ⟨slept valid.sleepAvg, fun isRt => ?_, fun isRt => ?_⟩
    · rw [same.isRtTask] at isRt
      rw [same.rtPriority, same.staticPrio]
      exact valid.rtPriority isRt
    · rw [same.isRtTask] at isRt
      rw [same.prio, same.staticPrio]
      exact valid.prio isRt

theorem Task.addSleep_sleepAvg (task : Task) (now : ℕ) (slept : task.sleepAvg ≤ maxSleepAvg) :
    (task.addSleep now).sleepAvg ≤ maxSleepAvg := by
  simp only [Task.addSleep]
  generalize (if sub32 now task.timestamp > maxSleepAvg then maxSleepAvg else
    sub32 now task.timestamp) = sleepTime
  split
  · simp only []
    split
    · exact Nat.le_refl _
    · omega
  · exact slept

theorem Task.recalcTaskPrio_ages (recalculated : task.recalcTaskPrio now = some task') :
    task.Ages task' := by
  rcases Task.recalcTaskPrio_spec recalculated with ⟨prio, rfl, cases⟩
  have aged := (task.addSleep_same now).ages (task.addSleep_sleepAvg now)
  refine ⟨aged.pid, aged.staticPrio, aged.rtPriority, aged.array, fun valid => ?_⟩
  have valid' := aged.valid valid
  refine ⟨valid'.sleepAvg, valid'.rtPriority, fun isRt => ?_⟩
  rcases cases with ⟨_, isPrio⟩ | ⟨normal, _⟩
  · rw [isPrio, ← (task.addSleep_same now).prio]
    exact valid'.prio isRt
  · have isRt' : task.isRtTask = true := by
      rw [← (task.addSleep_same now).isRtTask]
      exact isRt
    rw [normal] at isRt'
    cases isRt'

theorem Task.endTurn_ages (task : Task) (runTime now : ℕ) : task.Ages (task.endTurn runTime now) := by
  refine Task.Same.ages ?_ fun slept => ?_
  · exact ⟨rfl, rfl, rfl, rfl, rfl⟩
  · simp only [Task.endTurn]
    split
    · exact Nat.zero_le _
    · exact Nat.le_trans (Nat.sub_le _ _) slept

theorem Task.Valid.withArray (valid : task.Valid) (array : Option ArrayId) :
    ({ task with array } : Task).Valid :=
  ⟨valid.sleepAvg, valid.rtPriority, valid.prio⟩

end Tasks

namespace Sched

variable {s s' : Sched} {p q : ℕ} {array a : ArrayId} {i : ℕ}

theorem timestamp_ages (task : Task) (timestamp : ℕ) : task.Ages { task with timestamp } := by
  refine Task.Same.ages ?_ fun slept => slept
  exact ⟨rfl, rfl, rfl, rfl, rfl⟩

theorem timeSlice_ages (task : Task) (timeSlice : ℕ) : task.Ages { task with timeSlice } := by
  refine Task.Same.ages ?_ fun slept => slept
  exact ⟨rfl, rfl, rfl, rfl, rfl⟩

theorem weighSleep_ages (task : Task) (penalty : ℕ) : task.Ages (weighSleep task penalty) := by
  refine (Sched.weighSleep_same task penalty).ages fun _ => ?_
  simp only [weighSleep]
  split
  · exact Nat.le_refl _
  · omega


/-! ## Queues and their counters -/

theorem dequeueTask_count (s : Sched) (p : ℕ) (array a : ArrayId) (j q : ℕ) :
    (((s.dequeueTask p array).arrays a).queue j).count q =
      if q = p then 0 else ((s.arrays a).queue j).count q := by
  rcases dequeueTask_spec s p array with ⟨arrays, eq, queue⟩
  rw [eq, queue]
  split
  next isTask =>
    subst isTask
    apply List.count_eq_zero_of_not_mem
    simp
  next notTask => exact List.count_filter (by simpa using notTask)

theorem enqueueTask_count (s : Sched) (p : ℕ) (array a : ArrayId) (j q : ℕ) :
    (((s.enqueueTask p array).arrays a).queue j).count q = ((s.arrays a).queue j).count q +
      if q = p ∧ a = array ∧ j = (s.tasks p).effectivePrio then 1 else 0 := by
  rcases enqueueTask_spec s p array with ⟨arrays, eq, queue⟩
  rw [eq, queue]
  by_cases isQueue : a = array ∧ j = (s.tasks p).effectivePrio
  · rw [if_pos isQueue]
    rcases isQueue with ⟨rfl, rfl⟩
    rw [List.count_append]
    by_cases isTask : q = p
    · simp [isTask]
    · simp [isTask, Ne.symm isTask]
  · rw [if_neg isQueue, if_neg fun all => isQueue all.2]
    rfl

theorem updateHighestPro_nrActive (info : PrioArray) (priority : ℕ) (isEnqueue : Bool) :
    (info.updateHighestPro priority isEnqueue).nrActive = info.nrActive := by
  unfold PrioArray.updateHighestPro
  split_ifs
  · rfl
  · rfl
  · rfl
  · split
    · rfl
    · split <;> rfl
  · rfl

theorem dequeueTask_nrActive (s : Sched) (p : ℕ) (array a : ArrayId) :
    ((s.dequeueTask p array).arrays a).nrActive =
      if a = array then sub32 (s.arrays array).nrActive 1 else (s.arrays a).nrActive := by
  unfold dequeueTask
  simp only
  by_cases isArray : a = array
  · subst isArray
    split
    · simp [setArray, setTask, unlink, updateHighestPro_nrActive, PrioArray.clearBitMap]
    · simp [setArray, setTask, unlink]
  · split
    · simp [setArray, setTask, unlink, isArray]
    · simp [setArray, setTask, unlink, isArray]

theorem enqueueTask_nrActive (s : Sched) (p : ℕ) (array a : ArrayId) :
    ((s.enqueueTask p array).arrays a).nrActive =
      if a = array then ((s.arrays array).nrActive + 1) % 2 ^ 32 else (s.arrays a).nrActive := by
  by_cases isArray : a = array
  · subst isArray
    simp [enqueueTask, setArray, setTask, addTail, updateHighestPro_nrActive,
      PrioArray.setBitMap]
  · simp [enqueueTask, setArray, setTask, addTail, isArray]

theorem enqueueTask_tasks (s : Sched) (p : ℕ) (array : ArrayId) :
    (s.enqueueTask p array).tasks =
      Function.update s.tasks p { s.tasks p with array := some array } := by
  rcases enqueueTask_spec s p array with ⟨arrays, eq, _⟩
  rw [eq]

/-- The place of a task depends on its queues and its array only. -/
theorem At.congr (isAt : s.At q array i) (task : (s'.tasks q).array = (s.tasks q).array)
    (counts : ∀ a j, ((s'.arrays a).queue j).count q = ((s.arrays a).queue j).count q) :
    s'.At q array i := by
  refine ⟨isAt.1, task.trans isAt.2.1, fun a j => ?_⟩
  rw [counts]
  exact isAt.2.2 a j

theorem At.dequeue_other (isAt : s.At q array i) (ne : q ≠ p) : (s.dequeueTask p a).At q array i := by
  apply isAt.congr
  · rw [dequeueTask_tasks, Function.update_of_ne ne]
  · intro b j
    rw [dequeueTask_count, if_neg ne]

theorem At.enqueue_other (isAt : s.At q array i) (ne : q ≠ p) : (s.enqueueTask p a).At q array i := by
  apply isAt.congr
  · rw [enqueueTask_tasks, Function.update_of_ne ne]
  · intro b j
    rw [enqueueTask_count, if_neg fun all => ne all.1, Nat.add_zero]

theorem At.linked (isAt : s.At p array i) : s.Linked p := by
  refine ⟨array, i, List.count_pos_iff.mp ?_⟩
  rw [isAt.2.2 array i, if_pos ⟨rfl, rfl⟩]
  exact Nat.one_pos

theorem count_of_notLinked (notLinked : ¬s.Linked p) (a : ArrayId) (j : ℕ) :
    ((s.arrays a).queue j).count p = 0 :=
  List.count_eq_zero_of_not_mem fun mem => notLinked ⟨a, j, mem⟩

/-- A task is linked where `enqueue_task` puts it. -/
theorem enqueueTask_at (notLinked : ¬s.Linked p)
    (isQueue : (s.tasks p).effectivePrio < maxPrio) (array : ArrayId) :
    (s.enqueueTask p array).At p array (s.tasks p).effectivePrio := by
  refine ⟨isQueue, ?_, fun a j => ?_⟩
  · rw [enqueueTask_tasks, Function.update_self]
  · rw [enqueueTask_count, count_of_notLinked notLinked, Nat.zero_add]
    simp

theorem length_unlinked (l : List ℕ) (p : ℕ) :
    (l.filter (· ≠ p)).length + l.count p = l.length := by
  have parts := List.length_eq_countP_add_countP (· == p) (l := l)
  rw [List.countP_eq_length_filter (p := fun b => ¬(b == p))] at parts
  rw [parts, Nat.add_comm, List.count]
  simp

/-- An array without a task that is linked in it has one task less. -/
theorem linkedTasks_unlinked (isAt : s.At p array i) (a : ArrayId) :
    ∑ j ∈ Finset.range maxPrio, (((s.arrays a).queue j).filter (· ≠ p)).length +
      (if a = array then 1 else 0) = (s.arrays a).linkedTasks := by
  have length : ∀ j, (((s.arrays a).queue j).filter (· ≠ p)).length +
      (if a = array ∧ j = i then 1 else 0) = ((s.arrays a).queue j).length := by
    intro j
    rw [← isAt.2.2 a j]
    exact length_unlinked _ p
  unfold PrioArray.linkedTasks
  by_cases isArray : a = array
  · rw [if_pos isArray]
    symm
    apply Counting.sum_except isAt.1
    · rw [← length i, if_pos ⟨isArray, rfl⟩]
    · intro j _ ne
      rw [← length j, if_neg fun all => ne all.2, Nat.add_zero]
  · rw [if_neg isArray, Nat.add_zero]
    apply Finset.sum_congr rfl
    intro j _
    rw [← length j, if_neg fun all => isArray all.1, Nat.add_zero]

theorem dequeueTask_linkedTasks (isAt : s.At p array i) (a : ArrayId) :
    ((s.dequeueTask p array).arrays a).linkedTasks + (if a = array then 1 else 0) =
      (s.arrays a).linkedTasks := by
  have same : ((s.dequeueTask p array).arrays a).linkedTasks =
      ∑ j ∈ Finset.range maxPrio, (((s.arrays a).queue j).filter (· ≠ p)).length := by
    rcases dequeueTask_spec s p array with ⟨arrays, eq, queue⟩
    apply Finset.sum_congr rfl
    intro j _
    rw [eq, queue]
  rw [same]
  exact linkedTasks_unlinked isAt a

theorem enqueueTask_linkedTasks (isQueue : (s.tasks p).effectivePrio < maxPrio)
    (array a : ArrayId) : ((s.enqueueTask p array).arrays a).linkedTasks =
      (s.arrays a).linkedTasks + if a = array then 1 else 0 := by
  rcases enqueueTask_spec s p array with ⟨arrays, eq, queue⟩
  rw [eq]
  by_cases isArray : a = array
  · subst isArray
    rw [if_pos rfl]
    apply Counting.sum_except isQueue
    · simp [queue]
    · intro j _ ne
      simp [queue, ne]
  · rw [if_neg isArray, Nat.add_zero]
    apply Finset.sum_congr rfl
    intro j _
    simp [queue, isArray]

theorem requeueTask_linkedTasks (isAt : s.At p array i)
    (isQueue : (s.tasks p).effectivePrio < maxPrio) (a : ArrayId) :
    ((s.requeueTask p array).arrays a).linkedTasks = (s.arrays a).linkedTasks := by
  rw [← linkedTasks_unlinked isAt a]
  rcases requeueTask_spec s p array with ⟨arrays, eq, queue⟩
  rw [eq]
  by_cases isArray : a = array
  · subst isArray
    rw [if_pos rfl]
    apply Counting.sum_except isQueue
    · simp [queue]
    · intro j _ ne
      simp [queue, ne]
  · rw [if_neg isArray, Nat.add_zero]
    apply Finset.sum_congr rfl
    intro j _
    simp [queue, isArray]

theorem requeueTask_count (s : Sched) (p : ℕ) (array a : ArrayId) (j q : ℕ) :
    (((s.requeueTask p array).arrays a).queue j).count q =
      if q = p then if a = array ∧ j = (s.tasks p).effectivePrio then 1 else 0
      else ((s.arrays a).queue j).count q := by
  rcases requeueTask_spec s p array with ⟨arrays, eq, queue⟩
  rw [eq, queue]
  have unlinked : ∀ l : List ℕ, (l.filter (· ≠ p)).count q = if q = p then 0 else l.count q := by
    intro l
    split
    next isTask =>
      subst isTask
      apply List.count_eq_zero_of_not_mem
      simp
    next notTask => exact List.count_filter (by simpa using notTask)
  split
  next isQueue =>
    rw [List.count_append, unlinked]
    by_cases isTask : q = p
    · simp [isTask]
    · simp [isTask, Ne.symm isTask, isQueue.1]
  next => rw [unlinked]

/-! ## What changes no list -/

theorem Quiet.refl (s : Sched) : s.Quiet s :=
  ⟨rfl, rfl, rfl, rfl, rfl, rfl, rfl, rfl, rfl, fun _ => Task.Ages.refl _⟩

theorem Quiet.trans {s'' : Sched} (first : s.Quiet s') (second : s'.Quiet s'') : s.Quiet s'' where
  arrays := second.arrays.trans first.arrays
  active := second.active.trans first.active
  expired := second.expired.trans first.expired
  processes := second.processes.trans first.processes
  nrProcess := second.nrProcess.trans first.nrProcess
  nrRunning := second.nrRunning.trans first.nrRunning
  unused := second.unused.trans first.unused
  idle := second.idle.trans first.idle
  pids := second.pids.trans first.pids
  tasks q := (first.tasks q).trans (second.tasks q)

theorem setTask_quiet {task : Task} (aged : (s.tasks p).Ages task) : s.Quiet (s.setTask p task) where
  arrays := rfl
  active := rfl
  expired := rfl
  processes := rfl
  nrProcess := rfl
  nrRunning := rfl
  unused := rfl
  idle := rfl
  pids := rfl
  tasks q := by
    by_cases isTask : q = p
    · subst isTask
      rw [setTask_self]
      exact aged
    · rw [setTask_of_ne s isTask]
      exact Task.Ages.refl _

theorem withCurrent_quiet (s : Sched) (currentTask : ℕ) : s.Quiet { s with currentTask } :=
  ⟨rfl, rfl, rfl, rfl, rfl, rfl, rfl, rfl, rfl, fun _ => Task.Ages.refl _⟩

theorem At.quiet (isAt : s.At p array i) (quiet : s.Quiet s') : s'.At p array i := by
  apply isAt.congr
  · exact (quiet.tasks p).array
  · intro a j
    rw [quiet.arrays]

theorem Accounts.quiet (accounts : s.Accounts) (quiet : s.Quiet s') : s'.Accounts where
  nodup := by
    rw [quiet.processes]
    exact accounts.nodup
  queued := by
    intro p mem
    rw [quiet.processes] at mem
    rcases accounts.queued p mem with ⟨array, i, isAt⟩
    exact ⟨array, i, isAt.quiet quiet⟩
  nrActive := by
    intro array
    rw [quiet.arrays]
    exact accounts.nrActive array
  nrProcess := by
    rw [quiet.nrProcess, quiet.processes]
    exact accounts.nrProcess
  nrRunning := by
    rw [quiet.nrRunning, quiet.arrays, quiet.active, quiet.expired]
    exact accounts.nrRunning
  all := by
    rw [quiet.nrRunning, quiet.nrProcess]
    exact accounts.all
  fits := by
    rw [quiet.processes]
    exact accounts.fits

theorem Linked.of_quiet (linked : s'.Linked p) (quiet : s.Quiet s') : s.Linked p := by
  rcases linked with ⟨a, j, mem⟩
  rw [quiet.arrays] at mem
  exact ⟨a, j, mem⟩

theorem Sane.quiet (sane : s.Sane) (quiet : s.Quiet s') (currentUsed : s'.currentTask < s.unused) :
    s'.Sane where
  distinct := by
    rw [quiet.active, quiet.expired]
    exact sane.distinct
  linkedUsed := by
    intro p linked
    rw [quiet.unused]
    exact sane.linkedUsed p (linked.of_quiet quiet)
  processUsed := by
    rw [quiet.processes, quiet.unused]
    exact sane.processUsed
  currentUsed := by
    rw [quiet.unused]
    exact currentUsed
  idleUsed := by
    rw [quiet.idle, quiet.unused]
    exact sane.idleUsed
  valid := by
    intro p used
    rw [quiet.unused] at used
    exact (quiet.tasks p).valid (sane.valid p used)

/-! ## Choosing the next task -/

/-- Swapping the arrays moves no task. -/
theorem Accounts.exchange (accounts : s.Accounts) : s.exchange.Accounts := by
  unfold Sched.exchange
  split
  · exact
      { nodup := accounts.nodup
        queued := accounts.queued
        nrActive := accounts.nrActive
        nrProcess := accounts.nrProcess
        nrRunning := accounts.nrRunning.trans (Int.add_comm _ _)
        all := accounts.all
        fits := accounts.fits }
  · exact accounts

theorem Sane.exchange (sane : s.Sane) : s.exchange.Sane := by
  unfold Sched.exchange
  split
  · exact
      { distinct := sane.distinct.symm
        linkedUsed := sane.linkedUsed
        processUsed := sane.processUsed
        currentUsed := sane.currentUsed
        idleUsed := sane.idleUsed
        valid := sane.valid }
  · exact sane

/-- The task that is chosen has been made. -/
theorem Sane.nextOfSchedule (sane : s.Sane) (isNext : s.nextOfSchedule = some p) :
    p < s.unused := by
  unfold Sched.nextOfSchedule at isNext
  simp only at isNext
  split at isNext
  · exact sane.linkedUsed p (firstOfHighest_linked isNext)
  · exact sane.idleUsed p isNext

theorem Sane.nextOfFind (sane : s.Sane) (isNext : s.nextOfFind = some p) : p < s.unused := by
  unfold Sched.nextOfFind at isNext
  simp only at isNext
  split_ifs at isNext
  · exact sane.linkedUsed p (firstOfHighest_linked isNext)
  · exact sane.idleUsed p isNext

theorem schedule_quiet {now : ℕ} (scheduled : s.schedule now = some s') :
    s.exchange.Quiet s' ∧ s.exchange.nextOfSchedule = some s'.currentTask := by
  simp only [Sched.schedule, Option.bind_eq_bind, Option.bind_eq_some_iff] at scheduled
  rcases scheduled with ⟨next, isNext, nextTask, recalculated, scheduled⟩
  generalize (s.tasks s.currentTask).runTime now = runTime at scheduled
  have first := setTask_quiet (Task.recalcTaskPrio_ages recalculated)
  have second := first.trans (setTask_quiet
    (Task.endTurn_ages ((s.exchange.setTask next nextTask).tasks s.currentTask) runTime now))
  split at scheduled
  next isCurrent =>
    cases scheduled
    refine ⟨second, ?_⟩
    rw [isNext]
    exact congrArg some isCurrent.symm
  next =>
    cases scheduled
    have third := second.trans (setTask_quiet (p := next) (timestamp_ages _ now))
    exact ⟨third.trans (withCurrent_quiet _ next), isNext⟩

theorem findNextTask_quiet {now next : ℕ} (found : s.findNextTask now = some (next, s')) :
    s.exchange.Quiet s' ∧ s.exchange.nextOfFind = some next ∧
      s'.currentTask = s.exchange.currentTask := by
  simp only [Sched.findNextTask, Option.bind_eq_bind, Option.bind_eq_some_iff,
    Option.some.injEq] at found
  rcases found with ⟨_, isNext, nextTask, recalculated, pair⟩
  cases pair
  have aged := (Task.recalcTaskPrio_ages recalculated).trans (timestamp_ages nextTask now)
  exact ⟨setTask_quiet aged, isNext, rfl⟩

theorem Sane.schedule (sane : s.Sane) {now : ℕ} (scheduled : s.schedule now = some s') :
    s'.Sane := by
  rcases schedule_quiet scheduled with ⟨quiet, isNext⟩
  exact sane.exchange.quiet quiet (sane.exchange.nextOfSchedule isNext)

/-! ## Taking tasks off their queues -/

theorem sub32_one {n : ℕ} (pos : 0 < n) (bounded : n ≤ 2 ^ 32) : sub32 n 1 = n - 1 := by
  unfold sub32
  omega

/-- With two arrays, one of them is the active one. -/
theorem eq_active_or (distinct : s.active ≠ s.expired) (array : ArrayId) :
    array = s.active ∧ array ≠ s.expired ∨ array = s.expired ∧ array ≠ s.active := by
  by_cases isExpired : array = s.expired
  · exact Or.inr ⟨isExpired, isExpired ▸ distinct.symm⟩
  · exact Or.inl ⟨eq_of_ne_of_ne distinct isExpired, isExpired⟩

/-- No counter is more than the number of processes. -/
theorem Accounts.nrActive_le (accounts : s.Accounts) (distinct : s.active ≠ s.expired)
    (array : ArrayId) : (s.arrays array).nrActive ≤ s.processes.length := by
  have running := accounts.nrRunning
  rw [accounts.all, accounts.nrProcess] at running
  rcases eq_active_or distinct array with ⟨rfl, _⟩ | ⟨rfl, _⟩
  · omega
  · omega

theorem Accounts.length_le (accounts : s.Accounts) : s.processes.length ≤ 2 ^ 20 := by
  have fits := accounts.fits
  unfold kernelStackSize at fits
  omega

theorem linkedTasks_pos (isAt : s.At p array i) : 0 < (s.arrays array).linkedTasks := by
  rw [← linkedTasks_unlinked isAt array, if_pos rfl]
  exact Nat.succ_pos _

/-- The counter of an array loses one with a task. -/
theorem Accounts.dequeueTask_nrActive (accounts : s.Accounts) (distinct : s.active ≠ s.expired)
    (isAt : s.At p array i) (a : ArrayId) :
    ((s.dequeueTask p array).arrays a).nrActive + (if a = array then 1 else 0) =
        (s.arrays a).nrActive ∧
      ((s.dequeueTask p array).arrays a).nrActive =
        ((s.dequeueTask p array).arrays a).linkedTasks := by
  have tasks := dequeueTask_linkedTasks isAt a
  have pos := linkedTasks_pos isAt
  have bounded := (accounts.nrActive_le distinct array).trans accounts.length_le
  rw [Sched.dequeueTask_nrActive]
  rw [← accounts.nrActive a] at tasks
  rw [← accounts.nrActive array] at pos
  by_cases isArray : a = array
  · subst isArray
    rw [if_pos rfl] at tasks ⊢
    rw [if_pos rfl, sub32_one pos (bounded.trans (by decide))]
    omega
  · rw [if_neg isArray] at tasks ⊢
    rw [if_neg isArray]
    omega

theorem Linked.of_dequeue (linked : (s.dequeueTask p array).Linked q) : s.Linked q ∧ q ≠ p := by
  rcases dequeueTask_spec s p array with ⟨arrays, eq, queue⟩
  rw [eq] at linked
  rcases linked with ⟨a, j, mem⟩
  rw [queue, List.mem_filter, decide_eq_true_iff] at mem
  exact ⟨⟨a, j, mem.1⟩, mem.2⟩

theorem dequeueTask_eq (s : Sched) (p : ℕ) (array : ArrayId) :
    s.dequeueTask p array =
      { s with
        arrays := (s.dequeueTask p array).arrays
        tasks := Function.update s.tasks p { s.tasks p with array := none } } := by
  rcases dequeueTask_spec s p array with ⟨arrays, eq, _⟩
  rw [eq]

/-- What `delete_task` does to a task in an array. -/
theorem deleteTask_eq (isArray : (s.tasks p).array = some array) :
    s.deleteTask p = some
      { s with
        arrays := (s.dequeueTask p array).arrays
        tasks := Function.update s.tasks p { s.tasks p with array := none }
        nrRunning := s.nrRunning - 1
        processes := s.processes.erase p
        nrProcess := s.nrProcess - 1 } := by
  rw [deleteTask, isArray, Option.map_some]
  simp only
  rw [dequeueTask_eq]

theorem At.delete_other (isAt : s.At q array i) (deleted : s.deleteTask p = some s') (ne : q ≠ p) :
    s'.At q array i := by
  rcases Option.map_eq_some_iff.mp deleted with ⟨b, isArray, _⟩
  rw [deleteTask_eq isArray] at deleted
  cases deleted
  refine (isAt.dequeue_other (a := b) ne).congr ?_ fun _ _ => rfl
  rw [dequeueTask_tasks]

/-- `delete_task` takes a task off the lists and the counts. -/
theorem Accounts.deleteTask (accounts : s.Accounts) (distinct : s.active ≠ s.expired)
    (isProcess : p ∈ s.processes) :
    ∃ s', s.deleteTask p = some s' ∧ s'.Accounts := by
  rcases accounts.queued p isProcess with ⟨array, i, isAt⟩
  have counted := accounts.dequeueTask_nrActive distinct isAt
  have length := List.length_erase_of_mem isProcess
  have pos := List.length_pos_of_mem isProcess
  refine ⟨_, deleteTask_eq isAt.2.1, ?_⟩
  constructor
  · exact accounts.nodup.erase p
  · intro q isProcess'
    rcases accounts.nodup.mem_erase_iff.mp isProcess' with ⟨ne, old⟩
    rcases accounts.queued q old with ⟨b, j, isAt'⟩
    exact ⟨b, j, isAt'.delete_other (deleteTask_eq isAt.2.1) ne⟩
  · exact fun a => (counted a).2
  · simp only [accounts.nrProcess, length]
    omega
  · have running := accounts.nrRunning
    have first := (counted s.active).1
    have second := (counted s.expired).1
    simp only
    rcases eq_active_or distinct array with ⟨isActive, ne⟩ | ⟨isExpired, ne⟩
    · rw [if_pos isActive.symm] at first
      rw [if_neg ne.symm] at second
      omega
    · rw [if_neg ne.symm] at first
      rw [if_pos isExpired.symm] at second
      omega
  · simp only [accounts.all]
  · simp only [length]
    exact (Nat.mul_le_mul_right _ (Nat.sub_le _ _)).trans accounts.fits

theorem Sane.deleteTask (sane : s.Sane) (deleted : s.deleteTask p = some s') : s'.Sane := by
  rcases Option.map_eq_some_iff.mp deleted with ⟨array, isArray, _⟩
  rw [deleteTask_eq isArray] at deleted
  cases deleted
  constructor
  · exact sane.distinct
  · rintro q ⟨a, j, mem⟩
    exact sane.linkedUsed q (Linked.of_dequeue ⟨a, j, mem⟩).1
  · exact fun q isProcess => sane.processUsed q (List.mem_of_mem_erase isProcess)
  · exact sane.currentUsed
  · exact sane.idleUsed
  · intro q used
    by_cases isTask : q = p
    · subst isTask
      simp only [Function.update_self]
      exact (sane.valid q used).withArray none
    · simp only [Function.update_of_ne isTask]
      exact sane.valid q used

/-! ## Moving a task -/

theorem enqueueTask_eq (s : Sched) (p : ℕ) (array : ArrayId) :
    s.enqueueTask p array =
      { s with
        arrays := (s.enqueueTask p array).arrays
        tasks := Function.update s.tasks p { s.tasks p with array := some array } } := rfl

theorem Linked.of_enqueue (linked : (s.enqueueTask p array).Linked q) : s.Linked q ∨ q = p := by
  rcases enqueueTask_spec s p array with ⟨arrays, eq, queue⟩
  rw [eq] at linked
  rcases linked with ⟨a, j, mem⟩
  rw [queue] at mem
  split at mem
  · rcases List.mem_append.mp mem with old | new
    · exact Or.inl ⟨array, j, old⟩
    · exact Or.inr (List.mem_singleton.mp new)
  · exact Or.inl ⟨a, j, mem⟩

/-- A task taken off its queue and put on that of its new priority. -/
def move (s : Sched) (p : ℕ) (array array' : ArrayId) (task : Task) : Sched :=
  ((s.dequeueTask p array).setTask p task).enqueueTask p array'

theorem move_eq (s : Sched) (p : ℕ) (array array' : ArrayId) (task : Task) :
    s.move p array array' task =
      { s with
        arrays := (s.move p array array' task).arrays
        tasks := Function.update s.tasks p { task with array := some array' } } := by
  unfold move
  rw [enqueueTask_eq]
  simp only [setTask_self]
  rw [dequeueTask_eq]
  simp [setTask]

theorem move_notLinked (s : Sched) (p : ℕ) (array : ArrayId) (task : Task) :
    ¬((s.dequeueTask p array).setTask p task).Linked p := by
  rintro ⟨a, j, mem⟩
  have linked : (s.dequeueTask p array).Linked p := ⟨a, j, mem⟩
  exact linked.of_dequeue.2 rfl

theorem move_at {task : Task} (isQueue : task.effectivePrio < maxPrio) (array array' : ArrayId) :
    (s.move p array array' task).At p array' task.effectivePrio := by
  have isQueue' : (((s.dequeueTask p array).setTask p task).tasks p).effectivePrio < maxPrio := by
    rw [setTask_self]
    exact isQueue
  have placed := enqueueTask_at (move_notLinked s p array task) isQueue' array'
  rw [setTask_self] at placed
  exact placed

theorem At.move_other (isAt : s.At q array i) (ne : q ≠ p) (b array' : ArrayId) (task : Task) :
    (s.move p b array' task).At q array i := by
  have off : ((s.dequeueTask p b).setTask p task).At q array i := by
    apply (isAt.dequeue_other (a := b) ne).congr
    · rw [setTask_of_ne _ ne]
    · exact fun _ _ => rfl
  exact off.enqueue_other ne

theorem Accounts.move (accounts : s.Accounts) (distinct : s.active ≠ s.expired)
    (isProcess : p ∈ s.processes) (isArray : (s.tasks p).array = some array) {task : Task}
    (isQueue : task.effectivePrio < maxPrio) (array' : ArrayId) :
    (s.move p array array' task).Accounts := by
  rcases accounts.queued p isProcess with ⟨b, i, isAt⟩
  have isSame : b = array := Option.some.inj (isAt.2.1.symm.trans isArray)
  subst isSame
  have taken := accounts.dequeueTask_nrActive distinct isAt
  have isQueue' : (((s.dequeueTask p b).setTask p task).tasks p).effectivePrio < maxPrio := by
    rw [setTask_self]
    exact isQueue
  have moved : ∀ a, ((s.move p b array' task).arrays a).nrActive =
      ((s.dequeueTask p b).arrays a).nrActive + if a = array' then 1 else 0 := by
    intro a
    have bounded := (accounts.nrActive_le distinct array').trans accounts.length_le
    have kept := (taken array').1
    unfold Sched.move
    rw [enqueueTask_nrActive]
    split
    next isArray' =>
      subst isArray'
      apply Nat.mod_eq_of_lt
      show ((s.dequeueTask p b).arrays a).nrActive + 1 < 2 ^ 32
      omega
    next => rfl
  have queued : ∀ q ∈ s.processes, ∃ a j, (s.move p b array' task).At q a j := by
    intro q isProcess'
    by_cases isTask : q = p
    · subst isTask
      exact ⟨array', _, move_at isQueue b array'⟩
    · rcases accounts.queued q isProcess' with ⟨c, j, isAt'⟩
      exact ⟨c, j, isAt'.move_other isTask b array' task⟩
  rw [move_eq] at queued ⊢
  constructor
  · exact accounts.nodup
  · exact queued
  · intro a
    show ((s.move p b array' task).arrays a).nrActive =
      ((s.move p b array' task).arrays a).linkedTasks
    rw [moved, (taken a).2]
    exact (enqueueTask_linkedTasks isQueue' array' a).symm
  · exact accounts.nrProcess
  · have running := accounts.nrRunning
    have first := (taken s.active).1
    have second := (taken s.expired).1
    simp only [moved]
    rcases eq_active_or distinct b with ⟨rfl, ne⟩ | ⟨rfl, ne⟩
    · rw [if_pos rfl] at first
      rw [if_neg ne.symm] at second
      rcases eq_active_or distinct array' with ⟨rfl, ne'⟩ | ⟨rfl, ne'⟩
      · rw [if_pos rfl, if_neg ne'.symm]
        omega
      · rw [if_neg ne'.symm, if_pos rfl]
        omega
    · rw [if_neg ne.symm] at first
      rw [if_pos rfl] at second
      rcases eq_active_or distinct array' with ⟨rfl, ne'⟩ | ⟨rfl, ne'⟩
      · rw [if_pos rfl, if_neg ne'.symm]
        omega
      · rw [if_neg ne'.symm, if_pos rfl]
        omega
  · exact accounts.all
  · exact accounts.fits

theorem Sane.move (sane : s.Sane) (used : p < s.unused) {task : Task} (valid : task.Valid)
    (array array' : ArrayId) : (s.move p array array' task).Sane := by
  rw [move_eq]
  constructor
  · exact sane.distinct
  · rintro q ⟨a, j, mem⟩
    have linked : (s.move p array array' task).Linked q := ⟨a, j, mem⟩
    rcases linked.of_enqueue with ⟨b, k, mem'⟩ | rfl
    · have linked' : (s.dequeueTask p array).Linked q := ⟨b, k, mem'⟩
      exact sane.linkedUsed q linked'.of_dequeue.1
    · exact used
  · exact sane.processUsed
  · exact sane.currentUsed
  · exact sane.idleUsed
  · intro q used'
    by_cases isTask : q = p
    · subst isTask
      simp only [Function.update_self]
      exact valid.withArray _
    · simp only [Function.update_of_ne isTask]
      exact sane.valid q used'

theorem requeueTask_nrActive (s : Sched) (p : ℕ) (array a : ArrayId) :
    ((s.requeueTask p array).arrays a).nrActive = (s.arrays a).nrActive := by
  by_cases isArray : a = array
  · subst isArray
    simp [requeueTask, addTail, unlink, setArray]
  · simp [requeueTask, addTail, unlink, setArray, isArray]

theorem requeueTask_at (isArray : (s.tasks p).array = some array)
    (isQueue : (s.tasks p).effectivePrio < maxPrio) :
    (s.requeueTask p array).At p array (s.tasks p).effectivePrio := by
  refine ⟨isQueue, isArray, fun a j => ?_⟩
  rw [requeueTask_count, if_pos rfl]

theorem At.requeue_other (isAt : s.At q array i) (ne : q ≠ p) (b : ArrayId) :
    (s.requeueTask p b).At q array i := by
  refine isAt.congr rfl fun a k => ?_
  rw [requeueTask_count, if_neg ne]

/-- `requeue_task` keeps a task in its array. -/
theorem Accounts.requeueTask (accounts : s.Accounts) (isProcess : p ∈ s.processes)
    (isArray : (s.tasks p).array = some array)
    (isQueue : (s.tasks p).effectivePrio < maxPrio) : (s.requeueTask p array).Accounts := by
  rcases accounts.queued p isProcess with ⟨b, i, isAt⟩
  have isSame : b = array := Option.some.inj (isAt.2.1.symm.trans isArray)
  subst isSame
  constructor
  · exact accounts.nodup
  · intro q isProcess'
    by_cases isTask : q = p
    · subst isTask
      exact ⟨b, _, requeueTask_at isArray isQueue⟩
    · rcases accounts.queued q isProcess' with ⟨c, j, isAt'⟩
      exact ⟨c, j, isAt'.requeue_other isTask b⟩
  · intro a
    rw [requeueTask_nrActive, requeueTask_linkedTasks isAt isQueue]
    exact accounts.nrActive a
  · exact accounts.nrProcess
  · rw [requeueTask_nrActive, requeueTask_nrActive]
    exact accounts.nrRunning
  · exact accounts.all
  · exact accounts.fits

theorem Linked.of_requeue (linked : (s.requeueTask p array).Linked q) : s.Linked q ∨ q = p := by
  rcases requeueTask_spec s p array with ⟨arrays, eq, queue⟩
  rw [eq] at linked
  rcases linked with ⟨a, j, mem⟩
  rw [queue] at mem
  split at mem
  · rcases List.mem_append.mp mem with old | new
    · exact Or.inl ⟨array, j, (List.mem_filter.mp old).1⟩
    · exact Or.inr (List.mem_singleton.mp new)
  · exact Or.inl ⟨a, j, (List.mem_filter.mp mem).1⟩

theorem Sane.requeueTask (sane : s.Sane) (used : p < s.unused) (array : ArrayId) :
    (s.requeueTask p array).Sane where
  distinct := sane.distinct
  linkedUsed := by
    intro q linked
    rcases linked.of_requeue with old | rfl
    · exact sane.linkedUsed q old
    · exact used
  processUsed := sane.processUsed
  currentUsed := sane.currentUsed
  idleUsed := sane.idleUsed
  valid := sane.valid

/-! ## The clock interrupt -/

/-- The current task with another time slice. -/
def withSlice (s : Sched) (timeSlice : ℕ) : Sched :=
  s.setTask s.currentTask { s.tasks s.currentTask with timeSlice }

/-- The clock interrupt finds the time slice of the current task over. -/
structure SliceEnds (s : Sched) : Prop where
  notIdle : (s.tasks s.currentTask).pid ≠ idlePid
  notExpired : (s.tasks s.currentTask).array ≠ some s.expired
  notPreempted : ¬(s.arrays s.active).highestPrio < (s.tasks s.currentTask).effectivePrio
  finished : sub32 (s.tasks s.currentTask).timeSlice 1 = 0

/-- A task that gets a new time slice, and a new priority unless it is a real-time task. -/
structure Renewed (old task : Task) : Prop where
  pid : task.pid = old.pid
  valid : task.Valid
  isQueue : task.effectivePrio < maxPrio
  isRtTask : task.isRtTask = old.isRtTask

/-- What the clock interrupt does before it schedules. -/
inductive Ticked (s : Sched) : Sched → Prop
  | unchanged : Ticked s s
  | spent (timeSlice : ℕ) : Ticked s (s.withSlice timeSlice)
  | expired (timeSlice : ℕ) (task : Task) : s.SliceEnds →
      Renewed (s.tasks s.currentTask) task →
      Ticked s ((s.withSlice timeSlice).move s.currentTask s.active s.expired task)
  | tail (timeSlice : ℕ) : s.SliceEnds → (s.tasks s.currentTask).isRtTask →
      Ticked s ((s.withSlice timeSlice).requeueTask s.currentTask s.active)

theorem basicTimeslice_current (s : Sched) :
    ∃ timeSlice, s.basicTimeslice s.currentTask = some (timeSlice, s) := by
  have refused : s.pcKill (s.tasks s.currentTask).pid = some (1, s) := pcKill_refused (Or.inr rfl)
  unfold basicTimeslice
  simp only [refused, Option.bind_eq_bind, Option.bind_some, ite_self]
  split
  · exact ⟨_, rfl⟩
  · exact ⟨_, rfl⟩

theorem withSlice_withSlice (s : Sched) (first second : ℕ) :
    (s.withSlice first).withSlice second = s.withSlice second := by
  unfold withSlice
  rw [setTask_currentTask, setTask_self, setTask_setTask]

theorem withSlice_quiet (s : Sched) (timeSlice : ℕ) : s.Quiet (s.withSlice timeSlice) :=
  setTask_quiet (timeSlice_ages _ _)

theorem moveToExpired_current (s : Sched) : ∃ timeSlice, s.moveToExpired s.currentTask =
    some (s.move s.currentTask s.active s.expired
      { s.tasks s.currentTask with array := none, timeSlice }) := by
  have frame := dequeueTask_frame s s.currentTask s.active
  rcases basicTimeslice_current (s.dequeueTask s.currentTask s.active) with ⟨timeSlice, computed⟩
  rw [frame.currentTask] at computed
  refine ⟨timeSlice, ?_⟩
  simp only [moveToExpired, computed, Option.bind_eq_bind, Option.bind_some, dequeueTask_self]
  rw [setTask_expired, frame.expired]
  rfl

theorem moveToTail_current (s : Sched) : ∃ timeSlice, s.moveToTail s.currentTask =
    some ((s.withSlice timeSlice).requeueTask s.currentTask s.active) := by
  rcases basicTimeslice_current s with ⟨timeSlice, computed⟩
  refine ⟨timeSlice, ?_⟩
  simp only [moveToTail, computed, Option.bind_eq_bind, Option.bind_some]
  rfl

theorem sliceOver_current (valid : (s.tasks s.currentTask).Valid)
    (normal : (s.tasks s.currentTask).isRtTask = false) :
    ∃ prio timeSlice, s.sliceOver s.currentTask =
        some (s.move s.currentTask s.active s.expired
          { s.tasks s.currentTask with array := none, prio, timeSlice }) ∧
      prio < maxPrio := by
  have frame := dequeueTask_frame s s.currentTask s.active
  have valid' := valid.withArray none
  have normal' : ({ s.tasks s.currentTask with array := none } : Task).isRtTask = false := normal
  rcases Option.isSome_iff_exists.mp (Task.dynamicPrio_isSome valid') with ⟨prio, isPrio⟩
  rcases basicTimeslice_current ((s.dequeueTask s.currentTask s.active).setTask s.currentTask
    { s.tasks s.currentTask with array := none, prio }) with ⟨timeSlice, computed⟩
  rw [setTask_currentTask, frame.currentTask] at computed
  refine ⟨prio, timeSlice, ?_, Task.dynamicPrio_lt normal' isPrio⟩
  simp only [sliceOver, dequeueTask_self, isPrio, computed, Option.bind_eq_bind,
    Option.bind_some, setTask_self, setTask_setTask]
  rw [setTask_expired, frame.expired]
  rfl

theorem rrSliceOver_current (s : Sched) :
    ∃ timeSlice, s.rrSliceOver s.currentTask =
      if sub32 s.timestampLastTick timeSlice > starvationLimit then
        (s.withSlice timeSlice).moveToExpired s.currentTask
      else (s.withSlice timeSlice).moveToTail s.currentTask := by
  rcases basicTimeslice_current s with ⟨timeSlice, computed⟩
  refine ⟨timeSlice, ?_⟩
  simp only [rrSliceOver, computed, Option.bind_eq_bind, Option.bind_some]
  rfl

theorem renewed_rt {task : Task} (valid : task.Valid) (isRt : task.isRtTask = true)
    (timeSlice : ℕ) (array : Option ArrayId) : Renewed task { task with array, timeSlice } := by
  refine ⟨rfl, ⟨valid.sleepAvg, valid.rtPriority, valid.prio⟩, ?_, rfl⟩
  exact valid.effectivePrio_lt isRt

theorem renewed_normal {task : Task} (valid : task.Valid) (normal : task.isRtTask = false)
    {prio : ℕ} (below : prio < maxPrio) (timeSlice : ℕ) (array : Option ArrayId) :
    Renewed task { task with array, prio, timeSlice } := by
  have normal' : ({ task with array, prio, timeSlice } : Task).isRtTask = false := normal
  refine ⟨rfl, ⟨valid.sleepAvg, fun isRt => ?_, fun isRt => ?_⟩, ?_, rfl⟩
  · exact absurd isRt (by simp [normal'])
  · exact absurd isRt (by simp [normal'])
  · rw [Task.effectivePrio_of_normal normal']
    exact below

theorem withSlice_self (s : Sched) (timeSlice : ℕ) :
    (s.withSlice timeSlice).tasks s.currentTask =
      { s.tasks s.currentTask with timeSlice } := setTask_self _ _ _

theorem rr_cases (valid : (s.tasks s.currentTask).Valid)
    (isRt : (s.tasks s.currentTask).isRtTask = true) (ends : s.SliceEnds) (left : ℕ) :
    ∃ s', (s.withSlice left).rrSliceOver s.currentTask = some s' ∧ s.Ticked s' := by
  rcases rrSliceOver_current (s.withSlice left) with ⟨timeSlice, finished⟩
  rw [withSlice_withSlice] at finished
  by_cases starves : sub32 (s.withSlice left).timestampLastTick timeSlice > starvationLimit
  · rw [if_pos starves] at finished
    rcases moveToExpired_current (s.withSlice timeSlice) with ⟨timeSlice', moved⟩
    have self : (s.withSlice timeSlice).tasks (s.withSlice timeSlice).currentTask =
        { s.tasks s.currentTask with timeSlice } := withSlice_self s timeSlice
    rw [self] at moved
    exact ⟨_, finished.trans moved, .expired timeSlice _ ends (renewed_rt valid isRt _ _)⟩
  · rw [if_neg starves] at finished
    rcases moveToTail_current (s.withSlice timeSlice) with ⟨timeSlice', moved⟩
    rw [withSlice_withSlice] at moved
    exact ⟨_, finished.trans moved, .tail timeSlice' ends isRt⟩

theorem normal_cases (valid : (s.tasks s.currentTask).Valid)
    (normal : (s.tasks s.currentTask).isRtTask = false) (ends : s.SliceEnds) (left : ℕ) :
    ∃ s', (s.withSlice left).sliceOver s.currentTask = some s' ∧ s.Ticked s' := by
  have self : (s.withSlice left).tasks (s.withSlice left).currentTask =
      { s.tasks s.currentTask with timeSlice := left } := withSlice_self s left
  have valid' : ((s.withSlice left).tasks (s.withSlice left).currentTask).Valid := by
    rw [self]
    exact ⟨valid.sleepAvg, valid.rtPriority, valid.prio⟩
  have normal' : ((s.withSlice left).tasks (s.withSlice left).currentTask).isRtTask = false := by
    rw [self]
    exact normal
  rcases sliceOver_current valid' normal' with ⟨prio, timeSlice, finished, below⟩
  rw [self] at finished
  exact ⟨_, finished, .expired left _ ends (renewed_normal valid normal below _ _)⟩

/-- The accounting of the clock interrupt is defined and does one of four things. -/
theorem tickAccount_cases (valid : (s.tasks s.currentTask).Valid) :
    ∃ s' reschedule, s.tickAccount = some (s', reschedule) ∧ s.Ticked s' := by
  unfold tickAccount
  simp only
  generalize isLeft : sub32 (s.tasks s.currentTask).timeSlice 1 = left
  have spentEq : s.setTask s.currentTask { s.tasks s.currentTask with timeSlice := left } =
      s.withSlice left := rfl
  split_ifs with isIdle isExpired isPreempted isRt isRr isOver isOver
  · exact ⟨_, _, rfl, .unchanged⟩
  · exact ⟨_, _, rfl, .unchanged⟩
  · exact ⟨_, _, rfl, .unchanged⟩
  · have ends : s.SliceEnds := ⟨isIdle, isExpired, isPreempted, isLeft.trans isOver⟩
    rcases rr_cases valid isRt ends left with ⟨s', finished, ticked⟩
    rw [spentEq, finished]
    exact ⟨s', _, rfl, ticked⟩
  · exact ⟨_, _, rfl, .spent left⟩
  · exact ⟨_, _, rfl, .unchanged⟩
  · have ends : s.SliceEnds := ⟨isIdle, isExpired, isPreempted, isLeft.trans isOver⟩
    rcases normal_cases valid (Bool.eq_false_iff.mpr isRt) ends left with ⟨s', finished, ticked⟩
    rw [spentEq, finished]
    exact ⟨s', _, rfl, ticked⟩
  · exact ⟨_, _, rfl, .spent left⟩

theorem Ticked.sane (ticked : s.Ticked s') (sane : s.Sane) : s'.Sane := by
  have spent := fun timeSlice =>
    sane.quiet (withSlice_quiet s timeSlice) sane.currentUsed
  cases ticked with
  | unchanged => exact sane
  | spent timeSlice => exact spent timeSlice
  | expired timeSlice task ends renewed =>
      exact (spent timeSlice).move sane.currentUsed renewed.valid _ _
  | tail timeSlice ends isRt => exact (spent timeSlice).requeueTask sane.currentUsed _

/-- The clock interrupt moves the current task from the active array, to the expired one or to
the tail of its queue. -/
theorem Ticked.accounts (ticked : s.Ticked s') (accounts : s.Accounts) (sane : s.Sane)
    (isProcess : (s.tasks s.currentTask).pid ≠ idlePid → s.currentTask ∈ s.processes) :
    s'.Accounts := by
  have spent := fun timeSlice => accounts.quiet (withSlice_quiet s timeSlice)
  have inActive : s.SliceEnds → (s.tasks s.currentTask).array = some s.active := by
    intro ends
    rcases accounts.queued _ (isProcess ends.notIdle) with ⟨array, i, isAt⟩
    have notExpired : array ≠ s.expired := by
      rintro rfl
      exact ends.notExpired isAt.2.1
    rw [isAt.2.1, eq_of_ne_of_ne sane.distinct notExpired]
  have inActive' : ∀ timeSlice, s.SliceEnds →
      ((s.withSlice timeSlice).tasks s.currentTask).array = some s.active := by
    intro timeSlice ends
    rw [withSlice_self]
    exact inActive ends
  cases ticked with
  | unchanged => exact accounts
  | spent timeSlice => exact spent timeSlice
  | expired timeSlice task ends renewed =>
      exact (spent timeSlice).move sane.distinct (isProcess ends.notIdle)
        (inActive' timeSlice ends) renewed.isQueue _
  | tail timeSlice ends isRt =>
      apply (spent timeSlice).requeueTask (isProcess ends.notIdle) (inActive' timeSlice ends)
      rw [withSlice_self]
      exact (sane.valid _ sane.currentUsed).effectivePrio_lt isRt

theorem Sane.tick (sane : s.Sane) (clock : ℕ) : Sched.Sane { s with timestampLastTick := clock } :=
  ⟨sane.distinct, sane.linkedUsed, sane.processUsed, sane.currentUsed, sane.idleUsed, sane.valid⟩

/-! ## New tasks -/

/-- The new task, about to be put on a queue; in the others no more than ages. -/
structure Prepared (s s' : Sched) (p : ℕ) : Prop where
  tasksOnly : s' = { s with tasks := s'.tasks }
  others : ∀ q, q ≠ p → (s.tasks q).Ages (s'.tasks q)
  pid : (s'.tasks p).pid = (s.tasks p).pid
  valid : (s'.tasks p).Valid

theorem Prepared.quiet {s'' : Sched} (prepared : s.Prepared s' p) (quiet : s'.Quiet s'')
    (tasksOnly : s'' = { s' with tasks := s''.tasks }) : s.Prepared s'' p where
  tasksOnly := by
    rw [tasksOnly, prepared.tasksOnly]
  others q ne := (prepared.others q ne).trans (quiet.tasks q)
  pid := (quiet.tasks p).pid.trans prepared.pid
  valid := (quiet.tasks p).valid prepared.valid

theorem forkPrio_prepared (current : (s.tasks s.currentTask).Valid) (p : ℕ) (setPrio : ℤ) :
    s.Prepared (s.forkPrio p setPrio) p where
  tasksOnly := rfl
  others q ne := by
    simp only [forkPrio, setTask_of_ne s ne]
    exact Task.Ages.refl _
  pid := by
    simp only [forkPrio, setTask_self]
  valid := by
    simp only [forkPrio, setTask_self]
    exact ⟨current.sleepAvg, fun _ => rfl, fun _ => rfl⟩

theorem Prepared.setTask {task : Task} (prepared : s.Prepared s' p)
    (aged : (s'.tasks q).Ages task) : s.Prepared (s'.setTask q task) p :=
  prepared.quiet (setTask_quiet aged) rfl

theorem Prepared.forkSlice (prepared : s.Prepared s' p) :
    ∃ s'', s'.forkSlice p = some s'' ∧ s.Prepared s'' p := by
  unfold Sched.forkSlice
  split
  next isInit =>
    have refused : s'.pcKill (s'.tasks p).pid = some (1, s') := pcKill_refused (Or.inl isInit)
    have computed : ∃ timeSlice, s'.basicTimeslice p = some (timeSlice, s') := by
      unfold basicTimeslice
      simp only [refused, Option.bind_eq_bind, Option.bind_some, ite_self]
      split
      · exact ⟨_, rfl⟩
      · exact ⟨_, rfl⟩
    rcases computed with ⟨timeSlice, computed⟩
    rw [computed]
    exact ⟨_, rfl, prepared.setTask (timeSlice_ages _ _)⟩
  next =>
    refine ⟨_, rfl, Prepared.setTask (prepared.setTask ?_) ?_⟩
    · exact timeSlice_ages _ _
    · exact timeSlice_ages _ _

theorem schedFork_prepared (current : (s.tasks s.currentTask).Valid) (p : ℕ) (setPrio : ℤ)
    (clock : ℕ) : ∃ s', s.schedFork p setPrio clock = some s' ∧ s.Prepared s' p := by
  rcases (forkPrio_prepared current p setPrio).forkSlice with ⟨s₁, sliced, prepared⟩
  unfold schedFork
  simp only [sliced, Option.bind_eq_bind, Option.bind_some]
  refine ⟨_, rfl, Prepared.setTask ?_ (timestamp_ages _ _)⟩
  split
  · exact prepared.setTask (timeSlice_ages _ _)
  · exact prepared

/-- The priority a task wakes up with is that of a queue. -/
theorem wakePrio_spec {task : Task} (valid : task.Valid) :
    ∃ prio, wakePrio task = some prio ∧ ({ task with prio } : Task).Valid ∧
      ({ task with prio } : Task).effectivePrio < maxPrio := by
  unfold wakePrio
  split
  next isRt => exact ⟨task.prio, rfl, valid, valid.effectivePrio_lt isRt⟩
  next isNormal =>
    have normal : task.isRtTask = false := Bool.eq_false_iff.mpr isNormal
    rcases Option.isSome_iff_exists.mp (Task.dynamicPrio_isSome valid) with ⟨prio, isPrio⟩
    have renewed := renewed_normal valid normal (Task.dynamicPrio_lt normal isPrio)
      task.timeSlice task.array
    exact ⟨prio, isPrio, renewed.valid, renewed.isQueue⟩

/-- A state in which the new task is about to be put on its queue. -/
structure Ready (s s' : Sched) (p : ℕ) : Prop extends s.Prepared s' p where
  isQueue : (s'.tasks p).effectivePrio < maxPrio

theorem Prepared.wakeUpNewTask (prepared : s.Prepared s' p) :
    ∃ s₁ s'', s'.wakeUpNewTask p = some s'' ∧ s.Ready s₁ p ∧ (s₁.activateTask p).Quiet s'' ∧
      s''.currentTask = s'.currentTask := by
  have weighed := weighSleep_ages (s'.tasks p) childPenalty
  rcases wakePrio_spec (weighed.valid prepared.valid) with ⟨prio, isPrio, valid, isQueue⟩
  unfold Sched.wakeUpNewTask
  simp only [isPrio, Option.bind_eq_bind, Option.bind_some]
  generalize weighSleep (s'.tasks p) childPenalty = task at *
  refine ⟨s'.setTask p { task with prio }, _, rfl, ?_, ?_, rfl⟩
  · constructor
    · constructor
      · rw [prepared.tasksOnly]
        rfl
      · intro q ne
        rw [setTask_of_ne s' ne]
        exact prepared.others q ne
      · rw [setTask_self]
        exact weighed.pid.trans prepared.pid
      · rw [setTask_self]
        exact valid
    · rw [setTask_self]
      exact isQueue
  · exact setTask_quiet (weighSleep_ages _ _)

/-- `do_fork` accepts the priority. -/
def ForkPrio (setPrio : ℤ) : Prop := 0 ≤ setPrio ∧ setPrio < maxPrio ∨ setPrio = -1

instance (setPrio : ℤ) : Decidable (ForkPrio setPrio) := inferInstanceAs (Decidable (_ ∨ _))

theorem doFork_refused {setPrio : ℤ} (refused : ¬ForkPrio setPrio) (memory : Option ℕ)
    (clock : ℕ) : s.doFork setPrio memory clock = some (0, s) := by
  rw [doFork_eq, if_pos]
  exact not_or.mp refused

/-- The state in which the new task is put on a queue, compared with that of the call. -/
structure Born (s s' : Sched) : Prop where
  arrays : s'.arrays = s.arrays
  active : s'.active = s.active
  expired : s'.expired = s.expired
  processes : s'.processes = s.processes ++ [s.unused]
  nrProcess : s'.nrProcess = s.nrProcess + 1
  nrRunning : s'.nrRunning = s.nrRunning
  unused : s'.unused = s.unused + 1
  currentTask : s'.currentTask = s.currentTask
  idle : s'.idle = s.idle
  pids : s'.pids = s.pids.pidAlloc.2
  others : ∀ q, q ≠ s.unused → (s.tasks q).Ages (s'.tasks q)
  pid : (s'.tasks s.unused).pid = s.pids.pidAlloc.1
  valid : (s'.tasks s.unused).Valid
  isQueue : (s'.tasks s.unused).effectivePrio < maxPrio

theorem Ready.born {starveCount : ℕ} (ready : (s.makeTask starveCount).Ready s' s.unused) :
    s.Born s' := by
  have others : ∀ q, q ≠ s.unused → (s.tasks q).Ages (s'.tasks q) := by
    intro q ne
    have aged := ready.others q ne
    unfold makeTask at aged
    simp only [setTask_of_ne _ ne] at aged
    exact aged
  have pid : (s'.tasks s.unused).pid = s.pids.pidAlloc.1 := by
    rw [ready.pid]
    unfold makeTask
    rw [setTask_self]
  have valid := ready.valid
  have isQueue := ready.isQueue
  have tasksOnly := ready.tasksOnly
  generalize s'.tasks = tasks at *
  subst tasksOnly
  exact ⟨rfl, rfl, rfl, rfl, rfl, rfl, rfl, rfl, rfl, rfl, others, pid, valid, isQueue⟩

/-- A `do_fork` that has memory for the task puts it on a queue. -/
theorem doFork_made (sane : s.Sane) {setPrio : ℤ} (isPrio : ForkPrio setPrio)
    (starveCount clock : ℕ) :
    ∃ s₁ s', s.doFork setPrio (some starveCount) clock = some (s.pids.pidAlloc.1, s') ∧
      s.Born s₁ ∧ (s₁.activateTask s.unused).Quiet s' ∧
      s'.currentTask = s.currentTask := by
  have ne : s.currentTask ≠ s.unused := Nat.ne_of_lt sane.currentUsed
  have current : ((s.makeTask starveCount).tasks (s.makeTask starveCount).currentTask).Valid := by
    show ((setTask _ s.unused _).tasks s.currentTask).Valid
    rw [setTask_of_ne _ ne]
    exact sane.valid _ sane.currentUsed
  rcases schedFork_prepared current s.unused setPrio clock with ⟨s₀, forked, prepared⟩
  rcases prepared.wakeUpNewTask with ⟨s₁, s', woken, ready, quiet, isCurrent⟩
  refine ⟨s₁, s', ?_, ready.born, quiet, ?_⟩
  · rw [doFork_eq, if_neg fun refused => (not_or.mpr refused) isPrio]
    simp only [forked, woken, Option.bind_some, Option.map_some]
  · rw [isCurrent, prepared.tasksOnly]
    rfl

theorem activateTask_eq (s : Sched) (p : ℕ) : s.activateTask p =
    { s with
      arrays := (s.enqueueTask p s.active).arrays
      tasks := Function.update s.tasks p { s.tasks p with array := some s.active }
      nrRunning := s.nrRunning + 1 } := rfl

theorem Sane.notLinked (sane : s.Sane) (same : s'.arrays = s.arrays) : ¬s'.Linked s.unused := by
  rintro ⟨a, j, mem⟩
  rw [same] at mem
  exact Nat.lt_irrefl _ (sane.linkedUsed _ ⟨a, j, mem⟩)

theorem Sane.notProcess (sane : s.Sane) : s.unused ∉ s.processes := fun isProcess =>
  Nat.lt_irrefl _ (sane.processUsed _ isProcess)

theorem Sane.new_at (sane : s.Sane) (born : s.Born s') : (s'.activateTask s.unused).At s.unused
    s'.active (s'.tasks s.unused).effectivePrio := by
  have isAt := enqueueTask_at (sane.notLinked born.arrays) born.isQueue s'.active
  exact isAt.congr rfl fun _ _ => rfl

theorem At.activate_other (isAt : s.At q array i) (born : s.Born s') (ne : q ≠ s.unused) :
    (s'.activateTask s.unused).At q array i := by
  have isAt' : s'.At q array i := by
    apply isAt.congr (born.others q ne).array
    intro a j
    rw [born.arrays]
  exact (isAt'.enqueue_other (a := s'.active) ne).congr rfl fun _ _ => rfl

/-- A new task is put on one list more of each kind. -/
theorem Accounts.activateTask (accounts : s.Accounts) (sane : s.Sane)
    (fits : (s.processes.length + 1) * kernelStackSize ≤ 2 ^ 32) (born : s.Born s') :
    (s'.activateTask s.unused).Accounts := by
  have counted : ∀ a, ((s'.enqueueTask s.unused s'.active).arrays a).nrActive =
      (s.arrays a).nrActive + if a = s.active then 1 else 0 := by
    intro a
    have bounded := (accounts.nrActive_le sane.distinct s.active).trans accounts.length_le
    rw [enqueueTask_nrActive, born.arrays, born.active]
    split
    next isActive =>
      subst isActive
      apply Nat.mod_eq_of_lt
      omega
    next => rfl
  rw [activateTask_eq]
  constructor
  · simp only [born.processes]
    rw [List.nodup_append]
    refine ⟨accounts.nodup, List.nodup_singleton _, ?_⟩
    rintro p isProcess _ isNew rfl
    rw [List.mem_singleton.mp isNew] at isProcess
    exact sane.notProcess isProcess
  · intro q isProcess
    simp only [born.processes, List.mem_append, List.mem_singleton] at isProcess
    rcases isProcess with old | rfl
    · have ne : q ≠ s.unused := fun isNew => sane.notProcess (isNew ▸ old)
      rcases accounts.queued q old with ⟨array, i, isAt⟩
      exact ⟨array, i, isAt.activate_other born ne⟩
    · exact ⟨_, _, sane.new_at born⟩
  · intro a
    simp only
    rw [counted, enqueueTask_linkedTasks born.isQueue, born.arrays, born.active,
      accounts.nrActive]
  · simp only [born.nrProcess, born.processes, accounts.nrProcess]
    simp
  · simp only
    rw [counted, counted, born.active, born.expired, if_pos rfl, if_neg sane.distinct.symm,
      born.nrRunning, accounts.nrRunning]
    omega
  · simp only [born.nrRunning, born.nrProcess, accounts.all]
  · simp only [born.processes]
    simpa using fits

theorem Sane.activateTask (sane : s.Sane) (born : s.Born s') :
    (s'.activateTask s.unused).Sane := by
  rw [activateTask_eq]
  constructor
  · simp only [born.active, born.expired]
    exact sane.distinct
  · rintro q ⟨a, j, mem⟩
    simp only [born.unused]
    have linked : (s'.enqueueTask s.unused s'.active).Linked q := ⟨a, j, mem⟩
    rcases linked.of_enqueue with ⟨b, k, mem'⟩ | rfl
    · rw [born.arrays] at mem'
      exact Nat.lt_succ_of_lt (sane.linkedUsed q ⟨b, k, mem'⟩)
    · exact Nat.lt_succ_self _
  · intro q isProcess
    simp only [born.processes, List.mem_append, List.mem_singleton] at isProcess
    simp only [born.unused]
    rcases isProcess with old | rfl
    · exact Nat.lt_succ_of_lt (sane.processUsed q old)
    · exact Nat.lt_succ_self _
  · simp only [born.unused, born.currentTask]
    exact Nat.lt_succ_of_lt sane.currentUsed
  · intro q isIdle
    simp only [born.idle] at isIdle
    simp only [born.unused]
    exact Nat.lt_succ_of_lt (sane.idleUsed q isIdle)
  · intro q used
    simp only [born.unused] at used
    by_cases isNew : q = s.unused
    · subst isNew
      simp only [Function.update_self]
      exact born.valid.withArray _
    · simp only [Function.update_of_ne isNew]
      have old : q < s.unused := Nat.lt_of_le_of_ne (Nat.le_of_lt_succ used) isNew
      exact (born.others q isNew).valid (sane.valid q old)

/-! ## Calls -/

/-- The circumstances of a call: the union of a new task lies beside those of the processes in
the address space, and a current task other than the idle one is a process. -/
def Admits (s : Sched) : SchedOp → Prop
  | .doFork _ memory _ =>
      memory ≠ none → (s.processes.length + 1) * kernelStackSize ≤ 2 ^ 32
  | .schedulerTick _ _ => (s.tasks s.currentTask).pid ≠ idlePid → s.currentTask ∈ s.processes
  | .pcExit _ => s.currentTask ∈ s.processes
  | _ => True

instance (s : Sched) (op : SchedOp) : Decidable (s.Admits op) :=
  match op with
  | .doFork _ _ _ => inferInstanceAs (Decidable (_ → _))
  | .schedulerTick _ _ => inferInstanceAs (Decidable (_ → _))
  | .schedule _ => .isTrue trivial
  | .pcExit _ => inferInstanceAs (Decidable (_ ∈ _))
  | .pcKill _ => .isTrue trivial

theorem Accounts.withPids (accounts : s.Accounts) (pids : PidMap) :
    Accounts { s with pids } :=
  ⟨accounts.nodup, accounts.queued, accounts.nrActive, accounts.nrProcess, accounts.nrRunning,
    accounts.all, accounts.fits⟩

theorem Sane.withPids (sane : s.Sane) (pids : PidMap) : Sane { s with pids } :=
  ⟨sane.distinct, sane.linkedUsed, sane.processUsed, sane.currentUsed, sane.idleUsed,
    sane.valid⟩

/-- The task that `pc_kill` ends. -/
def killed (s : Sched) (pid : ℕ) : Option ℕ :=
  if pid ≥ pidNum ∨ pid = idlePid ∨ pid = initPid ∨ pid = (s.tasks s.currentTask).pid ∨
    s.pids.pidCheck pid then none
  else s.findInProcesses pid

/-- What a kill that is not refused does. -/
theorem pcKill_cases {pid code : ℕ} (kills : s.pcKill pid = some (code, s')) :
    s' = s ∨ ∃ p s₁ pids, s.killed pid = some p ∧ p ∈ s.processes ∧ (s.tasks p).pid = pid ∧
      pid < pidNum ∧ pid ≠ (s.tasks s.currentTask).pid ∧ s.deleteTask p = some s₁ ∧
      s.pids.pidCheck pid = false ∧ s₁.pids.pidFree pid = some pids ∧
      s' = { s₁ with pids } := by
  unfold pcKill at kills
  split_ifs at kills with isBeyond isIdle isInit isCurrent isFree
  · exact Or.inl (Prod.mk.inj (Option.some.inj kills)).2.symm
  · exact Or.inl (Prod.mk.inj (Option.some.inj kills)).2.symm
  · exact Or.inl (Prod.mk.inj (Option.some.inj kills)).2.symm
  · exact Or.inl (Prod.mk.inj (Option.some.inj kills)).2.symm
  · exact Or.inl (Prod.mk.inj (Option.some.inj kills)).2.symm
  · split at kills
    next => exact Or.inl (Prod.mk.inj (Option.some.inj kills)).2.symm
    next p found =>
      simp only [Option.bind_eq_bind, Option.bind_eq_some_iff, Option.some.injEq,
        Prod.mk.injEq] at kills
      rcases kills with ⟨s₁, deleted, pids, freed, _, rfl⟩
      have isPid : (s.tasks p).pid = pid := by
        simpa using List.find?_some found
      have isKilled : s.killed pid = some p := by
        unfold killed
        rw [if_neg (by simp only [isBeyond, isIdle, isInit, isCurrent, isFree]; simp)]
        exact found
      exact Or.inr ⟨p, s₁, pids, isKilled, List.mem_of_find?_eq_some found, isPid,
        Nat.not_le.mp isBeyond, isCurrent, deleted, Bool.eq_false_iff.mpr isFree, freed, rfl⟩

/-- What an exit does. -/
theorem pcExit_cases {now : ℕ} (exited : s.pcExit now = some s') :
    ∃ s₁ s₂ next pids, s.deleteTask s.currentTask = some s₁ ∧
      s₁.findNextTask now = some (next, s₂) ∧
      s₂.pids.pidFree (s₂.tasks s.currentTask).pid = some pids ∧
      s' = { s₂ with pids, currentTask := next } := by
  simp only [Sched.pcExit, Option.bind_eq_bind, Option.bind_eq_some_iff,
    Option.some.injEq] at exited
  rcases exited with ⟨s₁, deleted, ⟨next, s₂⟩, found, pids, freed, rfl⟩
  exact ⟨s₁, s₂, next, pids, deleted, found, freed, rfl⟩

theorem Sane.findNextTask (sane : s.Sane) {now next : ℕ}
    (found : s.findNextTask now = some (next, s')) : s'.Sane ∧ next < s'.unused := by
  rcases findNextTask_quiet found with ⟨quiet, isNext, isCurrent⟩
  refine ⟨sane.exchange.quiet quiet ?_, ?_⟩
  · rw [isCurrent]
    exact sane.exchange.currentUsed
  · rw [quiet.unused]
    exact sane.exchange.nextOfFind isNext

theorem Sane.step (sane : s.Sane) {op : SchedOp} (stepped : s.step op = some s') : s'.Sane := by
  cases op with
  | doFork setPrio memory clock =>
      rcases Option.map_eq_some_iff.mp stepped with ⟨⟨pid, s₂⟩, forked, rfl⟩
      by_cases isPrio : ForkPrio setPrio
      · cases memory with
        | none =>
            rw [doFork_eq, if_neg fun refused => (not_or.mpr refused) isPrio] at forked
            rcases Option.map_eq_some_iff.mp forked with ⟨pids, _, pair⟩
            cases pair
            exact sane.withPids pids
        | some starveCount =>
            rcases doFork_made sane isPrio starveCount clock with
              ⟨s₁, s₃, forked', born, quiet, isCurrent⟩
            rw [forked'] at forked
            cases forked
            have sane' := sane.activateTask born
            apply sane'.quiet quiet
            rw [isCurrent, ← born.currentTask]
            exact sane'.currentUsed
      · rw [doFork_refused isPrio] at forked
        cases forked
        exact sane
  | schedulerTick clock now =>
      rcases Option.bind_eq_some_iff.mp stepped with ⟨⟨s₁, reschedule⟩, accounted, rest⟩
      have sane₀ := sane.tick clock
      rcases tickAccount_cases (sane₀.valid _ sane₀.currentUsed) with ⟨s₂, _, accounted', ticked⟩
      rw [accounted] at accounted'
      cases accounted'
      have sane₁ := ticked.sane sane₀
      cases reschedule with
      | false =>
          cases rest
          exact sane₁
      | true => exact sane₁.schedule rest
  | schedule now => exact sane.schedule stepped
  | pcExit now =>
      rcases pcExit_cases stepped with ⟨s₁, s₂, next, pids, deleted, found, _, rfl⟩
      rcases (sane.deleteTask deleted).findNextTask found with ⟨sane₂, used⟩
      exact ⟨sane₂.distinct, sane₂.linkedUsed, sane₂.processUsed, used, sane₂.idleUsed,
        sane₂.valid⟩
  | pcKill pid =>
      rcases Option.map_eq_some_iff.mp stepped with ⟨⟨code, s₂⟩, killed, rfl⟩
      rcases pcKill_cases killed with rfl | ⟨p, s₁, pids, _, _, _, _, _, deleted, _, _, rfl⟩
      · exact sane
      · exact (sane.deleteTask deleted).withPids pids

theorem Accounts.findNextTask (accounts : s.Accounts) {now next : ℕ}
    (found : s.findNextTask now = some (next, s')) : s'.Accounts :=
  accounts.exchange.quiet (findNextTask_quiet found).1

theorem Accounts.deleted (accounts : s.Accounts) (distinct : s.active ≠ s.expired)
    (isProcess : p ∈ s.processes) (deleted : s.deleteTask p = some s') : s'.Accounts := by
  rcases accounts.deleteTask distinct isProcess with ⟨s₁, deleted', kept⟩
  rw [deleted] at deleted'
  cases deleted'
  exact kept

theorem Accounts.step (accounts : s.Accounts) (sane : s.Sane) {op : SchedOp}
    (admits : s.Admits op) (stepped : s.step op = some s') : s'.Accounts := by
  cases op with
  | doFork setPrio memory clock =>
      rcases Option.map_eq_some_iff.mp stepped with ⟨⟨pid, s₂⟩, forked, rfl⟩
      by_cases isPrio : ForkPrio setPrio
      · cases memory with
        | none =>
            rw [doFork_eq, if_neg fun refused => (not_or.mpr refused) isPrio] at forked
            rcases Option.map_eq_some_iff.mp forked with ⟨pids, _, pair⟩
            cases pair
            exact accounts.withPids pids
        | some starveCount =>
            rcases doFork_made sane isPrio starveCount clock with ⟨s₁, s₃, forked', born, quiet, _⟩
            rw [forked'] at forked
            cases forked
            exact (accounts.activateTask sane (admits (by simp)) born).quiet quiet
      · rw [doFork_refused isPrio] at forked
        cases forked
        exact accounts
  | schedulerTick clock now =>
      rcases Option.bind_eq_some_iff.mp stepped with ⟨⟨s₁, reschedule⟩, accounted, rest⟩
      have sane₀ := sane.tick clock
      rcases tickAccount_cases (sane₀.valid _ sane₀.currentUsed) with ⟨s₂, _, accounted', ticked⟩
      rw [accounted] at accounted'
      cases accounted'
      have accounts₀ : Accounts { s with timestampLastTick := clock } :=
        ⟨accounts.nodup, accounts.queued, accounts.nrActive, accounts.nrProcess,
          accounts.nrRunning, accounts.all, accounts.fits⟩
      have accounts₁ := ticked.accounts accounts₀ sane₀ admits
      cases reschedule with
      | false =>
          cases rest
          exact accounts₁
      | true => exact accounts₁.exchange.quiet (schedule_quiet rest).1
  | schedule now => exact accounts.exchange.quiet (schedule_quiet stepped).1
  | pcExit now =>
      rcases pcExit_cases stepped with ⟨s₁, s₂, next, pids, deleted, found, _, rfl⟩
      have accounts₂ := (accounts.deleted sane.distinct admits deleted).findNextTask found
      exact ⟨accounts₂.nodup, accounts₂.queued, accounts₂.nrActive, accounts₂.nrProcess,
        accounts₂.nrRunning, accounts₂.all, accounts₂.fits⟩
  | pcKill pid =>
      rcases Option.map_eq_some_iff.mp stepped with ⟨⟨code, s₂⟩, killed, rfl⟩
      rcases pcKill_cases killed with rfl |
        ⟨p, s₁, pids, _, isProcess, _, _, _, deleted, _, _, rfl⟩
      · exact accounts
      · exact (accounts.deleted sane.distinct isProcess deleted).withPids pids

/--
Where the counters and the lists agree, they agree after every call, and after every part of one
that changes them: the accounting of the clock interrupt, `requeue_task`, the swap of the arrays
and `delete_task`.
-/
theorem accounts_kept (s : Sched) (sane : s.Sane) (accounts : s.Accounts) :
    (∀ op s', s.Admits op → s.step op = some s' → s'.Sane ∧ s'.Accounts) ∧
      (∀ setPrio starveCount clock, ForkPrio setPrio →
        (s.processes.length + 1) * kernelStackSize ≤ 2 ^ 32 →
        ∃ pid s', s.doFork setPrio (some starveCount) clock = some (pid, s') ∧
          s'.processes = s.processes ++ [s.unused] ∧ s'.Accounts) ∧
      (((s.tasks s.currentTask).pid ≠ idlePid → s.currentTask ∈ s.processes) →
        ∃ s' reschedule, s.tickAccount = some (s', reschedule) ∧ s'.Accounts) ∧
      (∀ p ∈ s.processes, ∀ array, (s.tasks p).array = some array →
        (s.tasks p).effectivePrio < maxPrio → (s.requeueTask p array).Accounts) ∧
      s.exchange.Accounts ∧
      (∀ now next s', s.findNextTask now = some (next, s') → s'.Accounts) ∧
      ∀ p ∈ s.processes, ∃ s', s.deleteTask p = some s' ∧
        s'.processes = s.processes.erase p ∧ s'.Accounts := by
  refine ⟨?_, ?_, ?_, ?_, accounts.exchange, ?_, ?_⟩
  · intro op s' admits stepped
    exact ⟨sane.step stepped, accounts.step sane admits stepped⟩
  · intro setPrio starveCount clock isPrio fits
    rcases doFork_made sane isPrio starveCount clock with ⟨s₁, s', forked, born, quiet, _⟩
    refine ⟨_, s', forked, ?_, (accounts.activateTask sane fits born).quiet quiet⟩
    rw [quiet.processes]
    exact born.processes
  · intro isProcess
    rcases tickAccount_cases (sane.valid _ sane.currentUsed) with ⟨s', r, accounted, ticked⟩
    exact ⟨s', r, accounted, ticked.accounts accounts sane isProcess⟩
  · intro p isProcess array isArray isQueue
    exact accounts.requeueTask isProcess isArray isQueue
  · intro now next s' found
    exact accounts.findNextTask found
  · intro p isProcess
    rcases accounts.queued p isProcess with ⟨array, i, isAt⟩
    have deleted := deleteTask_eq isAt.2.1
    exact ⟨_, deleted, rfl, accounts.deleted sane.distinct isProcess deleted⟩

theorem initPc_sane : initPc.Sane where
  distinct := by decide
  linkedUsed p linked := by simp [Linked, initPc] at linked
  processUsed p isProcess := by simp [initPc] at isProcess
  currentUsed := by decide
  idleUsed p isIdle := by simp [initPc] at isIdle
  valid p _ :=
    have normal : ¬decide (64 ≤ 49) = true := by decide
    ⟨Nat.zero_le _, fun isRt => absurd isRt normal, fun isRt => absurd isRt normal⟩

theorem initPc_accounts : initPc.Accounts where
  nodup := List.nodup_nil
  queued p isProcess := by simp [initPc] at isProcess
  nrActive array := by simp [initPc, PrioArray.linkedTasks]
  nrProcess := rfl
  nrRunning := rfl
  all := rfl
  fits := by decide

theorem accounts_of_run {ops : List SchedOp} (guarded : GuardedRun step Admits initPc ops)
    (ran : run step initPc ops = some s) : s.Sane ∧ s.Accounts := by
  have started : GuardedReach step Admits (· = initPc) initPc := .start rfl
  let inv : Sched → Prop := fun s => s.Sane ∧ s.Accounts
  have initially : ∀ s, s = initPc → inv s := by
    rintro _ rfl
    exact ⟨initPc_sane, initPc_accounts⟩
  have kept : ∀ s op next, inv s → s.Admits op → s.step op = some next → inv next :=
    fun _ _ _ holds admits stepped =>
      ⟨holds.1.step stepped, holds.2.step holds.1 admits stepped⟩
  exact (started.of_run guarded ran).invariant initially kept

/-- Two tasks, the first of which comes to the end of its time slice -/
def bothArrays : List SchedOp :=
  [.doFork 63 (some 0) 0, .doFork 63 (some 0) 0] ++
    (List.range 6).map fun n => .schedulerTick (10 * n) (10 * n + 1)

/-- With a task in each array, the clock interrupt moves the current one to the array of the other,
or the task exits, or the other one is deleted. -/
theorem accounts_kept_bothArrays : ∃ s, run step initPc bothArrays = some s ∧
    (s.tasks 1).array = some 1 ∧ (s.tasks 2).array = some 0 ∧ s.currentTask = 2 ∧
    (∃ s', s.step (.schedulerTick 60 61) = some s' ∧ (s'.tasks 2).array = some 1 ∧ s'.Accounts) ∧
    (∃ s', s.step (.pcExit 61) = some s' ∧ s'.processes = [1] ∧ s'.Accounts) ∧
    ∃ s', s.deleteTask 1 = some s' ∧ s'.processes = [2] ∧ s'.Accounts := by
  have seen : (run step initPc bothArrays).map (fun s =>
      (s.processes, (s.tasks 1).array, (s.tasks 2).array, s.currentTask)) =
      some ([1, 2], some 1, some 0, 2) := by
    decide +kernel
  have ticks : ((run step initPc bothArrays).bind (step · (.schedulerTick 60 61))).map
      (fun s => (s.tasks 2).array) = some (some 1) := by
    decide +kernel
  have exits : ((run step initPc bothArrays).bind (step · (.pcExit 61))).map (·.processes) =
      some [1] := by
    decide +kernel
  rcases Option.map_eq_some_iff.mp seen with ⟨s, ran, holds⟩
  simp only [Prod.mk.injEq] at holds
  rcases holds with ⟨processes, first, second, current⟩
  rcases accounts_of_run (by decide +kernel) ran with ⟨sane, accounts⟩
  rcases accounts_kept s sane accounts with ⟨kept, _, _, _, _, _, deletes⟩
  rw [ran, Option.bind_some] at ticks exits
  rcases Option.map_eq_some_iff.mp ticks with ⟨ticked, isTicked, moved⟩
  rcases Option.map_eq_some_iff.mp exits with ⟨exited, isExited, left⟩
  have isProcess : 2 ∈ s.processes := by
    rw [processes]
    decide
  have admitted : s.currentTask ∈ s.processes := by
    rw [current]
    exact isProcess
  rcases deletes 1 (by rw [processes]; decide) with ⟨deleted, isDeleted, others, agrees⟩
  rw [processes] at others
  exact ⟨s, ran, first, second, current,
    ⟨ticked, isTicked, moved, (kept (.schedulerTick 60 61) _ (fun _ => admitted) isTicked).2⟩,
    ⟨exited, isExited, left, (kept (.pcExit 61) _ admitted isExited).2⟩,
    deleted, isDeleted, others, agrees⟩

end Sched

end Ninix.Process
