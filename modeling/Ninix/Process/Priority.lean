import Mathlib.Tactic.SplitIfs
import Ninix.Process.Scheduler

/-!
# Tasks in the queue of their priority

`dequeue_task` finds the queue of a task by its priority. `scheduler_tick` takes a task off its
queue before it changes the priority and puts it on the queue of the new one. `schedule` and
`find_next_task` let `recalc_task_prio` change the priority of a task that stays where it is. So
tasks and queues agree exactly as long as the priority of no chosen task changes.
-/

namespace Ninix.Process

open TransitionSystem

/-- A task that is where its fields say: in a queue of its array, that of its priority. -/
structure Task.Queued (task : Task) (array : ArrayId) (i : ℕ) : Prop where
  effective : task.effectivePrio = i
  prio : task.prio = i
  array : task.array = some array

/-- Two versions of a task that differ in nothing the queues depend on. -/
structure Task.Same (task task' : Task) : Prop where
  pid : task'.pid = task.pid
  staticPrio : task'.staticPrio = task.staticPrio
  prio : task'.prio = task.prio
  rtPriority : task'.rtPriority = task.rtPriority
  array : task'.array = task.array

/-- The time a task has slept does not change its priority. -/
def Task.Steady (task : Task) (now : ℕ) : Prop :=
  task.isRtTask ∨ (task.addSleep now).dynamicPrio = some task.prio

instance (task : Task) (now : ℕ) : Decidable (task.Steady now) :=
  inferInstanceAs (Decidable (_ ∨ _))

namespace Sched

/-- A task is on some queue. -/
def Linked (s : Sched) (p : ℕ) : Prop := ∃ array i, p ∈ (s.arrays array).queue i

/-- Every task on a queue is on that of its effective priority, which is also the one that
`dequeue_task` looks at, and knows its array. -/
def Agrees (s : Sched) : Prop :=
  ∀ array i, ∀ p ∈ (s.arrays array).queue i, (s.tasks p).Queued array i

/-- The calls that choose no task whose priority changes. -/
def Steady (s : Sched) : SchedOp → Prop
  | .schedule now =>
      ∀ p, s.exchange.nextOfSchedule = some p → (s.exchange.tasks p).Steady now
  | .schedulerTick clock now =>
      ∀ s', Sched.tickAccount { s with timestampLastTick := clock } = some (s', true) → ∀ p,
        s'.exchange.nextOfSchedule = some p → (s'.exchange.tasks p).Steady now
  | .pcExit now => ∀ s', s.deleteTask s.currentTask = some s' →
      ∀ p, s'.exchange.nextOfFind = some p → (s'.exchange.tasks p).Steady now
  | _ => True

/-! ## The invariant -/

/-- The queues, where a task is at most once. -/
structure Queues (s : Sched) : Prop where
  agrees : s.Agrees
  used : ∀ p, s.Linked p → p < s.unused
  nodup : ∀ array i, ((s.arrays array).queue i).Nodup

structure Inv (s : Sched) : Prop where
  queues : s.Queues
  distinct : s.active ≠ s.expired
  noIdle : s.idle = none
  currentUsed : s.currentTask < s.unused
  current : (s.tasks s.currentTask).pid ≠ idlePid → s.Linked s.currentTask

/-- Two states that differ in tasks and queues only. -/
structure SameFrame (s s' : Sched) : Prop where
  unused : s'.unused = s.unused
  currentTask : s'.currentTask = s.currentTask
  active : s'.active = s.active
  expired : s'.expired = s.expired
  idle : s'.idle = s.idle

end Sched

/-! ## Tasks -/

section Tasks

variable {task task' : Task} {array : ArrayId} {i now : ℕ}

theorem Task.effectivePrio_of_normal (normal : task.isRtTask = false) :
    task.effectivePrio = task.prio := by
  simp [Task.effectivePrio, normal]

theorem Task.effectivePrio_of_rt (isRt : task.isRtTask = true) :
    task.effectivePrio = task.rtPriority := by
  simp [Task.effectivePrio, isRt]

theorem Task.effectivePrio_of_eq (eq : task.rtPriority = task.prio) :
    task.effectivePrio = task.prio := by
  simp [Task.effectivePrio, eq]

theorem Task.Same.isRtTask (same : task.Same task') : task'.isRtTask = task.isRtTask := by
  simp [Task.isRtTask, same.staticPrio]

theorem Task.Same.effectivePrio (same : task.Same task') :
    task'.effectivePrio = task.effectivePrio := by
  simp [Task.effectivePrio, same.isRtTask, same.rtPriority, same.prio]

theorem Task.Queued.of_same (queued : task.Queued array i) (same : task.Same task') :
    task'.Queued array i where
  effective := same.effectivePrio.trans queued.effective
  prio := same.prio.trans queued.prio
  array := same.array.trans queued.array

theorem Task.addSleep_same (task : Task) (now : ℕ) : task.Same (task.addSleep now) := by
  simp only [Task.addSleep]
  generalize (if sub32 now task.timestamp > maxSleepAvg then maxSleepAvg else
    sub32 now task.timestamp) = sleepTime
  split
  next => exact ⟨rfl, rfl, rfl, rfl, rfl⟩
  next => exact ⟨rfl, rfl, rfl, rfl, rfl⟩

/-- The priority that `recalc_task_prio` gives. -/
theorem Task.recalcTaskPrio_spec (recalculated : task.recalcTaskPrio now = some task') :
    ∃ prio, task' = { task.addSleep now with prio } ∧
      (task.isRtTask ∧ prio = task.prio ∨
        task.isRtTask = false ∧ (task.addSleep now).dynamicPrio = some prio) := by
  have same := task.addSleep_same now
  simp only [Task.recalcTaskPrio, same.isRtTask] at recalculated
  split at recalculated
  next isRt =>
    cases recalculated
    exact ⟨task.prio, by rw [← same.prio], Or.inl ⟨isRt, rfl⟩⟩
  next notRt =>
    rcases Option.map_eq_some_iff.mp recalculated with ⟨prio, isPrio, rfl⟩
    exact ⟨prio, rfl, Or.inr ⟨by simpa using notRt, isPrio⟩⟩

/-- A steady task comes out of `recalc_task_prio` as it was but for its sleep. -/
theorem Task.Steady.same (steady : task.Steady now)
    (recalculated : task.recalcTaskPrio now = some task') : task.Same task' := by
  rcases Task.recalcTaskPrio_spec recalculated with ⟨prio, rfl, cases⟩
  have same := task.addSleep_same now
  have isPrio : prio = task.prio := by
    rcases cases with ⟨_, eq⟩ | ⟨notRt, isPrio⟩
    · exact eq
    · rcases steady with isRt | isSteady
      · rw [notRt] at isRt
        cases isRt
      · rw [isPrio] at isSteady
        exact Option.some.inj isSteady
  exact ⟨same.pid, same.staticPrio, isPrio, same.rtPriority, same.array⟩

end Tasks

namespace Sched

/-! ## What the operations on queues change -/

section Operations

variable {s s' : Sched} {p q : ℕ} {array : ArrayId}

theorem updateHighestPro_queue (info : PrioArray) (priority : ℕ) (isEnqueue : Bool) :
    (info.updateHighestPro priority isEnqueue).queue = info.queue := by
  unfold PrioArray.updateHighestPro
  split_ifs
  · rfl
  · rfl
  · rfl
  · split
    · rfl
    · split <;> rfl
  · rfl

/-- `enqueue_task` puts a task at the end of the queue of its priority. -/
theorem enqueueTask_spec (s : Sched) (p : ℕ) (array : ArrayId) :
    ∃ arrays, s.enqueueTask p array =
        { s with
          arrays
          tasks := Function.update s.tasks p { s.tasks p with array := some array } } ∧
      ∀ a i, (arrays a).queue i =
        if a = array ∧ i = (s.tasks p).effectivePrio then (s.arrays array).queue i ++ [p]
        else (s.arrays a).queue i := by
  refine ⟨_, rfl, fun a i => ?_⟩
  by_cases isArray : a = array
  · subst isArray
    by_cases isPrio : i = (s.tasks p).effectivePrio
    · subst isPrio
      simp [setArray, addTail, updateHighestPro_queue, PrioArray.setBitMap]
    · simp [setArray, addTail, updateHighestPro_queue, PrioArray.setBitMap, isPrio]
  · simp [setArray, addTail, isArray]

/-- `dequeue_task` takes a task off every queue. -/
theorem dequeueTask_spec (s : Sched) (p : ℕ) (array : ArrayId) :
    ∃ arrays, s.dequeueTask p array =
        { s with
          arrays
          tasks := Function.update s.tasks p { s.tasks p with array := none } } ∧
      ∀ a i, (arrays a).queue i = ((s.arrays a).queue i).filter (· ≠ p) := by
  have same : ∀ a i, ((Function.update s.arrays array
      { s.arrays array with nrActive := sub32 (s.arrays array).nrActive 1 }) a).queue i =
      (s.arrays a).queue i := by
    intro a i
    by_cases isArray : a = array
    · subst isArray
      simp
    · simp [isArray]
  unfold dequeueTask
  simp only
  split
  · refine ⟨_, rfl, fun a i => ?_⟩
    by_cases isArray : a = array
    · subst isArray
      simp [setTask, setArray, unlink, updateHighestPro_queue, PrioArray.clearBitMap]
    · simp [setTask, setArray, unlink, isArray]
  · refine ⟨_, rfl, fun a i => ?_⟩
    simp only [setArray, unlink, same]

/-- `requeue_task` puts a task at the end of the queue of its priority. -/
theorem requeueTask_spec (s : Sched) (p : ℕ) (array : ArrayId) :
    ∃ arrays, s.requeueTask p array = { s with arrays } ∧
      ∀ a i, (arrays a).queue i =
        if a = array ∧ i = (s.tasks p).effectivePrio then
          ((s.arrays array).queue i).filter (· ≠ p) ++ [p]
        else ((s.arrays a).queue i).filter (· ≠ p) := by
  refine ⟨_, rfl, fun a i => ?_⟩
  by_cases isArray : a = array
  · subst isArray
    by_cases isPrio : i = (s.tasks p).effectivePrio
    · subst isPrio
      simp [unlink]
    · simp [unlink, isPrio]
  · simp [unlink, isArray]

/-! ## The queues -/

/-- Queues depend on the queues of the arrays, and on the tasks in them up to what their place
does not depend on. -/
theorem Queues.congr (queues : s.Queues) (unused : s.unused ≤ s'.unused)
    (same : ∀ a i, (s'.arrays a).queue i = (s.arrays a).queue i)
    (tasks : ∀ a i, ∀ q ∈ (s.arrays a).queue i, (s.tasks q).Same (s'.tasks q)) :
    s'.Queues where
  agrees := by
    intro a i q mem
    rw [same] at mem
    exact (queues.agrees a i q mem).of_same (tasks a i q mem)
  used := by
    rintro q ⟨a, i, mem⟩
    rw [same] at mem
    exact Nat.lt_of_lt_of_le (queues.used q ⟨a, i, mem⟩) unused
  nodup := by
    intro a i
    rw [same]
    exact queues.nodup a i

theorem Same.refl (task : Task) : task.Same task := ⟨rfl, rfl, rfl, rfl, rfl⟩

theorem Same.trans {task task' task'' : Task} (first : task.Same task')
    (second : task'.Same task'') : task.Same task'' where
  pid := second.pid.trans first.pid
  staticPrio := second.staticPrio.trans first.staticPrio
  prio := second.prio.trans first.prio
  rtPriority := second.rtPriority.trans first.rtPriority
  array := second.array.trans first.array

theorem setTask_currentTask (s : Sched) (p : ℕ) (task : Task) :
    (s.setTask p task).currentTask = s.currentTask := rfl

theorem setTask_expired (s : Sched) (p : ℕ) (task : Task) :
    (s.setTask p task).expired = s.expired := rfl

theorem setTask_self (s : Sched) (p : ℕ) (task : Task) : (s.setTask p task).tasks p = task :=
  Function.update_self _ _ _

theorem setTask_setTask (s : Sched) (p : ℕ) (task task' : Task) :
    (s.setTask p task).setTask p task' = s.setTask p task' := by
  simp [Sched.setTask]

theorem setTask_of_ne (s : Sched) {task : Task} (ne : q ≠ p) :
    (s.setTask p task).tasks q = s.tasks q :=
  Function.update_of_ne ne _ _

theorem setTask_same {task : Task} (same : (s.tasks p).Same task) (q : ℕ) :
    (s.tasks q).Same ((s.setTask p task).tasks q) := by
  by_cases isTask : q = p
  · subst isTask
    rw [setTask_self]
    exact same
  · rw [setTask_of_ne s isTask]
    exact Same.refl _

/-- A task may change in what the queues do not depend on, and freely if it is on none. -/
theorem Queues.setTask (queues : s.Queues) {task : Task}
    (same : s.Linked p → (s.tasks p).Same task) : (s.setTask p task).Queues := by
  refine queues.congr (Nat.le_refl _) (fun _ _ => rfl) ?_
  intro a i q mem
  by_cases isTask : q = p
  · subst isTask
    simpa [Sched.setTask] using same ⟨a, i, mem⟩
  · simp only [Sched.setTask, Function.update_of_ne isTask]
    exact Same.refl _

theorem Queues.enqueueTask (queues : s.Queues) (notLinked : ¬s.Linked p) (used : p < s.unused)
    (isPrio : (s.tasks p).prio = (s.tasks p).effectivePrio) (array : ArrayId) :
    (s.enqueueTask p array).Queues ∧
      ∀ q, (s.enqueueTask p array).Linked q ↔ s.Linked q ∨ q = p := by
  rcases enqueueTask_spec s p array with ⟨arrays, eq, queue⟩
  rw [eq]
  have mem_iff : ∀ a i q, q ∈ (arrays a).queue i ↔ q ∈ (s.arrays a).queue i ∨
      q = p ∧ a = array ∧ i = (s.tasks p).effectivePrio := by
    intro a i q
    rw [queue]
    split
    next isQueue =>
      rcases isQueue with ⟨rfl, rfl⟩
      simp
    next other =>
      simp [other]
  have linked : ∀ q, Linked { s with
      arrays
      tasks := Function.update s.tasks p { s.tasks p with array := some array } } q ↔
      s.Linked q ∨ q = p := by
    intro q
    constructor
    · rintro ⟨a, i, mem⟩
      rcases (mem_iff a i q).mp mem with old | ⟨rfl, _⟩
      · exact Or.inl ⟨a, i, old⟩
      · exact Or.inr rfl
    · rintro (⟨a, i, mem⟩ | rfl)
      · exact ⟨a, i, (mem_iff a i q).mpr (Or.inl mem)⟩
      · exact ⟨array, _, (mem_iff _ _ _).mpr (Or.inr ⟨rfl, rfl, rfl⟩)⟩
  refine ⟨⟨?_, ?_, ?_⟩, linked⟩
  · intro a i q mem
    rcases (mem_iff a i q).mp mem with old | ⟨rfl, rfl, rfl⟩
    · have ne : q ≠ p := by
        rintro rfl
        exact notLinked ⟨a, i, old⟩
      simpa [ne] using queues.agrees a i q old
    · simp only [Function.update_self]
      exact ⟨rfl, isPrio, rfl⟩
  · intro q isLinked
    rcases (linked q).mp isLinked with old | rfl
    · exact queues.used q old
    · exact used
  · intro a i
    show ((arrays a).queue i).Nodup
    rw [queue]
    split
    next isQueue =>
      rcases isQueue with ⟨rfl, _⟩
      rw [List.nodup_append]
      refine ⟨queues.nodup a i, by simp, ?_⟩
      rintro q mem _ isTask rfl
      rcases List.mem_singleton.mp isTask with rfl
      exact notLinked ⟨a, i, mem⟩
    next => exact queues.nodup a i

theorem Queues.dequeueTask (queues : s.Queues) (p : ℕ) (array : ArrayId) :
    (s.dequeueTask p array).Queues ∧
      ∀ q, (s.dequeueTask p array).Linked q ↔ s.Linked q ∧ q ≠ p := by
  rcases dequeueTask_spec s p array with ⟨arrays, eq, queue⟩
  rw [eq]
  have mem_iff : ∀ a i q, q ∈ (arrays a).queue i ↔ q ∈ (s.arrays a).queue i ∧ q ≠ p := by
    intro a i q
    rw [queue, List.mem_filter, decide_eq_true_iff]
  refine ⟨⟨?_, ?_, ?_⟩, ?_⟩
  · intro a i q mem
    rcases (mem_iff a i q).mp mem with ⟨old, ne⟩
    simpa [ne] using queues.agrees a i q old
  · rintro q ⟨a, i, mem⟩
    exact queues.used q ⟨a, i, ((mem_iff a i q).mp mem).1⟩
  · intro a i
    show ((arrays a).queue i).Nodup
    rw [queue]
    exact (queues.nodup a i).filter _
  · intro q
    constructor
    · rintro ⟨a, i, mem⟩
      rcases (mem_iff a i q).mp mem with ⟨old, ne⟩
      exact ⟨⟨a, i, old⟩, ne⟩
    · rintro ⟨⟨a, i, mem⟩, ne⟩
      exact ⟨a, i, (mem_iff a i q).mpr ⟨mem, ne⟩⟩

theorem Queues.requeueTask (queues : s.Queues) {i : ℕ} (mem : p ∈ (s.arrays array).queue i) :
    (s.requeueTask p array).Queues ∧ ∀ q, (s.requeueTask p array).Linked q ↔ s.Linked q := by
  rcases requeueTask_spec s p array with ⟨arrays, eq, queue⟩
  rw [eq]
  have queued := queues.agrees array i p mem
  have mem_iff : ∀ a j q, q ∈ (arrays a).queue j ↔ q ∈ (s.arrays a).queue j ∧ q ≠ p ∨
      q = p ∧ a = array ∧ j = i := by
    intro a j q
    rw [queue, queued.effective]
    split
    next isQueue =>
      rcases isQueue with ⟨rfl, rfl⟩
      simp
    next other => simp [other]
  refine ⟨⟨?_, ?_, ?_⟩, ?_⟩
  · intro a j q isMem
    rcases (mem_iff a j q).mp isMem with ⟨old, _⟩ | ⟨rfl, rfl, rfl⟩
    · exact queues.agrees a j q old
    · exact queued
  · rintro q ⟨a, j, isMem⟩
    rcases (mem_iff a j q).mp isMem with ⟨old, _⟩ | ⟨rfl, _⟩
    · exact queues.used q ⟨a, j, old⟩
    · exact queues.used q ⟨array, i, mem⟩
  · intro a j
    show ((arrays a).queue j).Nodup
    rw [queue]
    split
    next isQueue =>
      rcases isQueue with ⟨rfl, _⟩
      rw [List.nodup_append]
      refine ⟨(queues.nodup a j).filter _, by simp, ?_⟩
      rintro q isMem _ isTask rfl
      rcases List.mem_singleton.mp isTask with rfl
      simp at isMem
    next => exact (queues.nodup a j).filter _
  · intro q
    constructor
    · rintro ⟨a, j, isMem⟩
      rcases (mem_iff a j q).mp isMem with ⟨old, _⟩ | ⟨rfl, _⟩
      · exact ⟨a, j, old⟩
      · exact ⟨array, i, mem⟩
    · rintro ⟨a, j, isMem⟩
      by_cases isTask : q = p
      · exact ⟨array, i, (mem_iff _ _ _).mpr (Or.inr ⟨isTask, rfl, rfl⟩)⟩
      · exact ⟨a, j, (mem_iff _ _ _).mpr (Or.inl ⟨isMem, isTask⟩)⟩

/-! ## Frames -/

theorem SameFrame.refl (s : Sched) : s.SameFrame s := ⟨rfl, rfl, rfl, rfl, rfl⟩

theorem SameFrame.trans {s'' : Sched} (first : s.SameFrame s') (second : s'.SameFrame s'') :
    s.SameFrame s'' where
  unused := second.unused.trans first.unused
  currentTask := second.currentTask.trans first.currentTask
  active := second.active.trans first.active
  expired := second.expired.trans first.expired
  idle := second.idle.trans first.idle

theorem setTask_frame (s : Sched) (p : ℕ) (task : Task) : s.SameFrame (s.setTask p task) :=
  ⟨rfl, rfl, rfl, rfl, rfl⟩

theorem enqueueTask_frame (s : Sched) (p : ℕ) (array : ArrayId) :
    s.SameFrame (s.enqueueTask p array) := by
  rcases enqueueTask_spec s p array with ⟨arrays, eq, _⟩
  rw [eq]
  exact ⟨rfl, rfl, rfl, rfl, rfl⟩

theorem dequeueTask_frame (s : Sched) (p : ℕ) (array : ArrayId) :
    s.SameFrame (s.dequeueTask p array) := by
  rcases dequeueTask_spec s p array with ⟨arrays, eq, _⟩
  rw [eq]
  exact ⟨rfl, rfl, rfl, rfl, rfl⟩

theorem dequeueTask_self (s : Sched) (p : ℕ) (array : ArrayId) :
    (s.dequeueTask p array).tasks p = { s.tasks p with array := none } := by
  rcases dequeueTask_spec s p array with ⟨arrays, eq, _⟩
  rw [eq]
  exact Function.update_self _ _ _

theorem dequeueTask_tasks (s : Sched) (p : ℕ) (array : ArrayId) :
    (s.dequeueTask p array).tasks =
      Function.update s.tasks p { s.tasks p with array := none } := by
  rcases dequeueTask_spec s p array with ⟨arrays, eq, _⟩
  rw [eq]

/-- An operation that leaves the current task on a queue keeps the invariant. -/
theorem Inv.of_frame (inv : s.Inv) (frame : s.SameFrame s') (queues : s'.Queues)
    (current : (s'.tasks s.currentTask).pid ≠ idlePid → s'.Linked s.currentTask) : s'.Inv where
  queues := queues
  distinct := by
    rw [frame.active, frame.expired]
    exact inv.distinct
  noIdle := frame.idle.trans inv.noIdle
  currentUsed := by
    rw [frame.currentTask, frame.unused]
    exact inv.currentUsed
  current := by
    rw [frame.currentTask]
    exact current

/-! ## Ending tasks -/

theorem deleteTask_spec (queues : s.Queues) (deleted : s.deleteTask p = some s') :
    s'.Queues ∧ (∀ q, s'.Linked q ↔ s.Linked q ∧ q ≠ p) ∧ s.SameFrame s' ∧
      ∀ q, (s'.tasks q).pid = (s.tasks q).pid := by
  rcases Option.map_eq_some_iff.mp deleted with ⟨array, _, rfl⟩
  rcases queues.dequeueTask p array with ⟨kept, linked⟩
  refine ⟨kept.congr (Nat.le_refl _) (fun _ _ => rfl) fun _ _ _ _ => Same.refl _, linked,
    (dequeueTask_frame s p array).trans ⟨rfl, rfl, rfl, rfl, rfl⟩, fun q => ?_⟩
  show ((s.dequeueTask p array).tasks q).pid = _
  rw [dequeueTask_tasks]
  by_cases isTask : q = p
  · simp [isTask]
  · simp [isTask]

/-- The current task cannot be killed, nor can `init`. -/
theorem pcKill_refused {pid : ℕ} (refused : pid = initPid ∨ pid = (s.tasks s.currentTask).pid) :
    s.pcKill pid = some (1, s) := by
  unfold pcKill
  split_ifs
  · rfl
  · rfl
  · rfl
  · rfl
  · rfl
  next notInit notCurrent _ =>
    rcases refused with isInit | isCurrent
    · exact absurd isInit notInit
    · exact absurd isCurrent notCurrent

theorem Inv.pcKill (inv : s.Inv) {pid code : ℕ} (killed : s.pcKill pid = some (code, s')) :
    s'.Inv := by
  unfold Sched.pcKill at killed
  split_ifs at killed
  next => cases killed; exact inv
  next => cases killed; exact inv
  next => cases killed; exact inv
  next => cases killed; exact inv
  next => cases killed; exact inv
  next notCurrent _ =>
    split at killed
    next => cases killed; exact inv
    next p found =>
      simp only [Option.bind_eq_bind, Option.bind_eq_some_iff, Option.some.injEq,
        Prod.mk.injEq] at killed
      rcases killed with ⟨s₁, deleted, pids, _, _, rfl⟩
      rcases deleteTask_spec inv.queues deleted with ⟨queues, linked, frame, pid'⟩
      have isPid : (s.tasks p).pid = pid := by
        simpa using List.find?_some found
      have notTask : s.currentTask ≠ p := by
        rintro eq
        rw [eq, isPid] at notCurrent
        exact notCurrent rfl
      refine inv.of_frame (frame.trans ⟨rfl, rfl, rfl, rfl, rfl⟩) ?_ ?_
      · exact queues.congr (Nat.le_refl _) (fun _ _ => rfl) fun _ _ _ _ => Same.refl _
      · intro notIdle
        have notIdle' : (s.tasks s.currentTask).pid ≠ idlePid := by
          rw [← pid']
          exact notIdle
        exact (linked _).mpr ⟨inv.current notIdle', notTask⟩

/-- `basic_timeslice` kills neither the current task nor `init`. -/
theorem basicTimeslice_refused {timeSlice : ℕ}
    (refused : p = s.currentTask ∨ (s.tasks p).pid = initPid)
    (computed : s.basicTimeslice p = some (timeSlice, s')) : s' = s := by
  have isRefused : s.pcKill (s.tasks p).pid = some (1, s) := by
    apply pcKill_refused
    rcases refused with rfl | isInit
    · exact Or.inr rfl
    · exact Or.inl isInit
  unfold basicTimeslice at computed
  simp only [isRefused, Option.bind_eq_bind, Option.bind_some] at computed
  split_ifs at computed <;> cases computed <;> rfl

/-! ## Choosing the next task -/

theorem exchange_spec (s : Sched) :
    s.exchange.tasks = s.tasks ∧ s.exchange.arrays = s.arrays ∧ s.exchange.unused = s.unused ∧
      s.exchange.currentTask = s.currentTask ∧ s.exchange.idle = s.idle ∧
      (s.active ≠ s.expired → s.exchange.active ≠ s.exchange.expired) := by
  unfold exchange
  split
  · exact ⟨rfl, rfl, rfl, rfl, rfl, fun ne => ne.symm⟩
  · exact ⟨rfl, rfl, rfl, rfl, rfl, id⟩

theorem Queues.exchange (queues : s.Queues) : s.exchange.Queues := by
  rcases exchange_spec s with ⟨tasks, arrays, unused, _⟩
  apply queues.congr (Nat.le_of_eq unused.symm)
  · intro a i
    rw [arrays]
  · intro a i q _
    rw [tasks]
    exact Same.refl _

theorem firstOfHighest_linked (first : s.firstOfHighest = some p) : s.Linked p :=
  ⟨_, _, List.mem_of_head? first⟩

theorem nextOfSchedule_linked (noIdle : s.idle = none) (next : s.nextOfSchedule = some p) :
    s.Linked p := by
  unfold nextOfSchedule at next
  simp only [noIdle] at next
  split at next
  · exact firstOfHighest_linked next
  · cases next

theorem nextOfFind_linked (noIdle : s.idle = none) (next : s.nextOfFind = some p) :
    s.Linked p := by
  unfold nextOfFind at next
  simp only [noIdle] at next
  split_ifs at next
  exact firstOfHighest_linked next

/-- A state whose current task is on a queue. -/
theorem Queues.inv (queues : s.Queues) (distinct : s.active ≠ s.expired) (noIdle : s.idle = none)
    (linked : s.Linked s.currentTask) : s.Inv where
  queues := queues
  distinct := distinct
  noIdle := noIdle
  currentUsed := queues.used _ linked
  current := fun _ => linked

/-- What happens to the state when a task on a queue is chosen. -/
structure Chosen (s : Sched) (next now : ℕ) (s' : Sched) : Prop where
  linked : s.Linked next
  recalculated : ∃ task, (s.tasks next).recalcTaskPrio now = some task ∧
    task.Same (s'.tasks next)
  others : ∀ q, q ≠ next → (s.tasks q).Same (s'.tasks q)
  arrays : s'.arrays = s.arrays
  currentTask : s'.currentTask = next
  unused : s'.unused = s.unused
  active : s'.active = s.active
  expired : s'.expired = s.expired
  idle : s'.idle = s.idle

/-- A steady task that is chosen stays on the queue of its priority. -/
theorem Chosen.inv {next now : ℕ} (chosen : s.Chosen next now s') (queues : s.Queues)
    (distinct : s.active ≠ s.expired) (noIdle : s.idle = none)
    (steady : (s.tasks next).Steady now) : s'.Inv := by
  rcases chosen.recalculated with ⟨task, recalculated, same⟩
  have queues' : s'.Queues := by
    apply queues.congr (Nat.le_of_eq chosen.unused.symm)
    · intro a i
      rw [chosen.arrays]
    · intro a i q _
      by_cases isNext : q = next
      · subst isNext
        exact Same.trans (steady.same recalculated) same
      · exact chosen.others q isNext
  apply queues'.inv
  · rw [chosen.active, chosen.expired]
    exact distinct
  · exact chosen.idle.trans noIdle
  · rcases chosen.linked with ⟨a, i, mem⟩
    rw [chosen.currentTask]
    exact ⟨a, i, by rw [chosen.arrays]; exact mem⟩

/-- Another task that is chosen is then on a queue that is not that of its priority. -/
theorem Chosen.steady_of_agrees {next now : ℕ} (chosen : s.Chosen next now s')
    (queues : s.Queues) (agrees : s'.Agrees) : (s.tasks next).Steady now := by
  rcases chosen.recalculated with ⟨task, recalculated, same⟩
  rcases Task.recalcTaskPrio_spec recalculated with ⟨prio, rfl, cases⟩
  rcases cases with ⟨isRt, _⟩ | ⟨_, isPrio⟩
  · exact Or.inl isRt
  · right
    rcases chosen.linked with ⟨a, i, mem⟩
    have queued := queues.agrees a i next mem
    rw [← chosen.arrays] at mem
    have queued' := agrees a i next mem
    rw [isPrio, queued.prio, ← queued'.prio, same.prio]

theorem schedule_chosen (noIdle : s.idle = none) {now : ℕ}
    (scheduled : s.schedule now = some s') :
    ∃ next, s.exchange.nextOfSchedule = some next ∧ s.exchange.Chosen next now s' := by
  simp only [Sched.schedule, Option.bind_eq_bind, Option.bind_eq_some_iff] at scheduled
  rcases scheduled with ⟨next, isNext, nextTask, recalculated, scheduled⟩
  have linked := nextOfSchedule_linked ((exchange_spec s).2.2.2.2.1.trans noIdle) isNext
  generalize (s.tasks s.currentTask).runTime now = runTime at scheduled
  have ended : ∀ task : Task, task.Same (task.endTurn runTime now) := fun _ =>
    ⟨rfl, rfl, rfl, rfl, rfl⟩
  have turned := setTask_same (ended ((s.exchange.setTask next nextTask).tasks s.currentTask))
  have chosen := turned next
  rw [setTask_self] at chosen
  have others : ∀ q, q ≠ next → (s.exchange.tasks q).Same
      (((s.exchange.setTask next nextTask).setTask s.currentTask
        (((s.exchange.setTask next nextTask).tasks s.currentTask).endTurn runTime now)).tasks
          q) := by
    intro q ne
    have same := turned q
    rw [setTask_of_ne _ ne] at same
    exact same
  refine ⟨next, isNext, ?_⟩
  split at scheduled
  next isCurrent =>
    cases scheduled
    exact ⟨linked, ⟨nextTask, recalculated, chosen⟩, others, rfl, isCurrent, rfl, rfl, rfl, rfl⟩
  next =>
    cases scheduled
    refine ⟨linked, ⟨nextTask, recalculated, Same.trans chosen ?_⟩, fun q ne => ?_, rfl, rfl,
      rfl, rfl, rfl, rfl⟩
    · refine setTask_same ?_ next
      exact ⟨rfl, rfl, rfl, rfl, rfl⟩
    · refine Same.trans (others q ne) (setTask_same ?_ q)
      exact ⟨rfl, rfl, rfl, rfl, rfl⟩

theorem pcExit_chosen {now : ℕ} (noIdle : s.idle = none) (exited : s.pcExit now = some s') :
    ∃ s₁ next, s.deleteTask s.currentTask = some s₁ ∧ s₁.exchange.nextOfFind = some next ∧
      s₁.exchange.Chosen next now s' := by
  simp only [Sched.pcExit, findNextTask, Option.bind_eq_bind, Option.bind_eq_some_iff,
    Option.some.injEq] at exited
  rcases exited with
    ⟨s₁, deleted, ⟨next, s₂⟩, ⟨_, isNext, nextTask, recalculated, pair⟩, pids, _, rfl⟩
  cases pair
  have idle : s₁.idle = s.idle := by
    rcases Option.map_eq_some_iff.mp deleted with ⟨array, _, rfl⟩
    exact (dequeueTask_frame s _ array).idle
  have linked := nextOfFind_linked ((exchange_spec s₁).2.2.2.2.1.trans (idle.trans noIdle)) isNext
  refine ⟨s₁, next, deleted, isNext, linked, ⟨nextTask, recalculated, ?_⟩, fun q ne => ?_, rfl,
    rfl, rfl, rfl, rfl, rfl⟩
  · show nextTask.Same ((s₁.exchange.setTask next _).tasks next)
    rw [setTask_self]
    exact ⟨rfl, rfl, rfl, rfl, rfl⟩
  · show (s₁.exchange.tasks q).Same ((s₁.exchange.setTask next _).tasks q)
    rw [setTask_of_ne _ ne]
    exact Same.refl _

/-- A choice keeps the invariant if the chosen task is steady, and else breaks the agreement. -/
theorem Chosen.kept {next now : ℕ} (chosen : s.exchange.Chosen next now s') (queues : s.Queues)
    (distinct : s.active ≠ s.expired) (noIdle : s.idle = none) :
    ((s.exchange.tasks next).Steady now → s'.Inv) ∧
      (s'.Agrees → (s.exchange.tasks next).Steady now) := by
  rcases exchange_spec s with ⟨_, _, _, _, idle, stillDistinct⟩
  exact ⟨chosen.inv queues.exchange (stillDistinct distinct) (idle.trans noIdle),
    chosen.steady_of_agrees queues.exchange⟩

theorem Inv.schedule (inv : s.Inv) {now : ℕ} (scheduled : s.schedule now = some s') :
    (s.Steady (.schedule now) → s'.Inv) ∧ (s'.Agrees → s.Steady (.schedule now)) := by
  rcases schedule_chosen inv.noIdle scheduled with ⟨next, isNext, chosen⟩
  have kept := chosen.kept inv.queues inv.distinct inv.noIdle
  refine ⟨fun steady => kept.1 (steady next isNext), fun agrees p isNext' => ?_⟩
  rw [isNext] at isNext'
  cases isNext'
  exact kept.2 agrees

theorem Inv.pcExit (inv : s.Inv) {now : ℕ} (exited : s.pcExit now = some s') :
    (s.Steady (.pcExit now) → s'.Inv) ∧ (s'.Agrees → s.Steady (.pcExit now)) := by
  rcases pcExit_chosen inv.noIdle exited with ⟨s₁, next, deleted, isNext, chosen⟩
  rcases deleteTask_spec inv.queues deleted with ⟨queues, _, frame, _⟩
  have distinct : s₁.active ≠ s₁.expired := by
    rw [frame.active, frame.expired]
    exact inv.distinct
  have kept := chosen.kept queues distinct (frame.idle.trans inv.noIdle)
  refine ⟨fun steady => kept.1 (steady s₁ deleted next isNext),
    fun agrees s₂ deleted' p isNext' => ?_⟩
  rw [deleted] at deleted'
  cases deleted'
  rw [isNext] at isNext'
  cases isNext'
  exact kept.2 agrees

/-! ## The clock interrupt -/

theorem Inv.setTask (inv : s.Inv) {task : Task} (same : (s.tasks p).Same task) :
    (s.setTask p task).Inv := by
  apply inv.of_frame (setTask_frame s p task) (inv.queues.setTask fun _ => same)
  rw [(setTask_same same _).pid]
  exact inv.current

/-- Moving the current task to the queue of its priority, old or new. -/
theorem Inv.enqueueAgain (inv : s.Inv) {task : Task} (isPrio : task.prio = task.effectivePrio)
    (array array' : ArrayId) :
    (((s.dequeueTask s.currentTask array).setTask s.currentTask task).enqueueTask
      s.currentTask array').Inv := by
  rcases inv.queues.dequeueTask s.currentTask array with ⟨queues₁, linked₁⟩
  have frame₁ := dequeueTask_frame s s.currentTask array
  have notLinked : ¬(s.dequeueTask s.currentTask array).Linked s.currentTask := by
    rw [linked₁]
    exact fun linked => linked.2 rfl
  have queues₂ : ((s.dequeueTask s.currentTask array).setTask s.currentTask task).Queues :=
    queues₁.setTask fun linked => absurd linked notLinked
  generalize s.dequeueTask s.currentTask array = s₁ at *
  have used : s.currentTask < (s₁.setTask s.currentTask task).unused := by
    show s.currentTask < s₁.unused
    rw [frame₁.unused]
    exact inv.currentUsed
  rcases queues₂.enqueueTask notLinked used (by simpa [Sched.setTask] using isPrio) array' with
    ⟨queues₃, linked₃⟩
  have frame := (frame₁.trans (setTask_frame s₁ s.currentTask task)).trans
    (enqueueTask_frame _ s.currentTask array')
  exact inv.of_frame frame queues₃ fun _ => (linked₃ _).mpr (Or.inr rfl)

/-- The current task is on the queue of its priority unless it is the idle task. -/
theorem Inv.currentQueued (inv : s.Inv) (notIdle : (s.tasks s.currentTask).pid ≠ idlePid) :
    ∃ array i, s.currentTask ∈ (s.arrays array).queue i ∧
      (s.tasks s.currentTask).Queued array i := by
  rcases inv.current notIdle with ⟨array, i, mem⟩
  exact ⟨array, i, mem, inv.queues.agrees array i _ mem⟩

theorem Inv.moveToExpired (inv : s.Inv) (notIdle : (s.tasks s.currentTask).pid ≠ idlePid)
    (moved : s.moveToExpired s.currentTask = some s') : s'.Inv := by
  rcases Option.bind_eq_some_iff.mp moved with ⟨⟨timeSlice, s₁⟩, computed, rest⟩
  cases basicTimeslice_refused (Or.inl (dequeueTask_frame _ _ _).currentTask.symm) computed
  cases rest
  rcases inv.currentQueued notIdle with ⟨_, _, _, queued⟩
  apply inv.enqueueAgain
  rw [dequeueTask_self]
  exact queued.prio.trans queued.effective.symm

theorem eq_of_ne_of_ne : ∀ {array active expired : ArrayId}, active ≠ expired →
    array ≠ expired → array = active := by decide

theorem Inv.moveToTail (inv : s.Inv) (notIdle : (s.tasks s.currentTask).pid ≠ idlePid)
    (notExpired : (s.tasks s.currentTask).array ≠ some s.expired)
    (moved : s.moveToTail s.currentTask = some s') : s'.Inv := by
  rcases Option.bind_eq_some_iff.mp moved with ⟨⟨timeSlice, s₁⟩, computed, rest⟩
  cases basicTimeslice_refused (Or.inl rfl) computed
  cases rest
  rcases inv.currentQueued notIdle with ⟨array, i, mem, queued⟩
  have isActive : array = s.active := by
    apply eq_of_ne_of_ne inv.distinct
    rintro rfl
    exact notExpired queued.array
  rw [isActive] at mem
  have inv₁ : (s.setTask s.currentTask { s.tasks s.currentTask with timeSlice }).Inv :=
    inv.setTask ⟨rfl, rfl, rfl, rfl, rfl⟩
  rcases inv₁.queues.requeueTask mem with ⟨queues, linked⟩
  have frame : Sched.SameFrame s ((s.setTask s.currentTask
      { s.tasks s.currentTask with timeSlice }).requeueTask s.currentTask s.active) :=
    ⟨rfl, rfl, rfl, rfl, rfl⟩
  exact inv.of_frame frame queues fun _ => (linked _).mpr ⟨_, _, mem⟩

theorem Inv.rrSliceOver (inv : s.Inv) (notIdle : (s.tasks s.currentTask).pid ≠ idlePid)
    (notExpired : (s.tasks s.currentTask).array ≠ some s.expired)
    (sliceEnds : s.rrSliceOver s.currentTask = some s') : s'.Inv := by
  rcases Option.bind_eq_some_iff.mp sliceEnds with ⟨⟨timeSlice, s₁⟩, computed, rest⟩
  cases basicTimeslice_refused (Or.inl rfl) computed
  have inv₁ : (s.setTask s.currentTask { s.tasks s.currentTask with timeSlice }).Inv :=
    inv.setTask ⟨rfl, rfl, rfl, rfl, rfl⟩
  simp only [] at rest
  split at rest
  · apply inv₁.moveToExpired ?_ rest
    rw [setTask_currentTask, setTask_self]
    exact notIdle
  · apply inv₁.moveToTail ?_ ?_ rest
    · rw [setTask_currentTask, setTask_self]
      exact notIdle
    · rw [setTask_currentTask, setTask_self, setTask_expired]
      exact notExpired

theorem Inv.sliceOver (inv : s.Inv) (notRt : (s.tasks s.currentTask).isRtTask = false)
    (sliceEnds : s.sliceOver s.currentTask = some s') : s'.Inv := by
  simp only [Sched.sliceOver, Option.bind_eq_bind, Option.bind_eq_some_iff] at sliceEnds
  rcases sliceEnds with ⟨prio, _, ⟨timeSlice, s₁⟩, computed, rest⟩
  cases basicTimeslice_refused
    (by exact Or.inl (dequeueTask_frame s s.currentTask s.active).currentTask.symm) computed
  cases rest
  rw [setTask_setTask, setTask_self]
  apply inv.enqueueAgain
  have isNormal :
      ((s.dequeueTask s.currentTask s.active).tasks s.currentTask).isRtTask = false := by
    rw [dequeueTask_self]
    exact notRt
  exact (Task.effectivePrio_of_normal (by exact isNormal)).symm

theorem Inv.tickAccount (inv : s.Inv) {reschedule : Bool}
    (accounted : s.tickAccount = some (s', reschedule)) : s'.Inv := by
  unfold Sched.tickAccount at accounted
  simp only [] at accounted
  generalize sub32 (s.tasks s.currentTask).timeSlice 1 = timeSlice at accounted
  have spent : (s.setTask s.currentTask { s.tasks s.currentTask with timeSlice }).Inv :=
    inv.setTask ⟨rfl, rfl, rfl, rfl, rfl⟩
  split_ifs at accounted
  next => cases accounted; exact inv
  next => cases accounted; exact inv
  next => cases accounted; exact inv
  next notIdle notExpired _ _ _ _ =>
    rcases Option.map_eq_some_iff.mp accounted with ⟨s₁, sliceEnds, pair⟩
    cases pair
    apply spent.rrSliceOver ?_ ?_ sliceEnds
    · rw [setTask_currentTask, setTask_self]
      exact notIdle
    · rw [setTask_currentTask, setTask_self, setTask_expired]
      exact notExpired
  next => cases accounted; exact spent
  next => cases accounted; exact inv
  next _ _ _ notRt _ =>
    rcases Option.map_eq_some_iff.mp accounted with ⟨s₁, sliceEnds, pair⟩
    cases pair
    apply spent.sliceOver ?_ sliceEnds
    rw [setTask_currentTask, setTask_self]
    exact Bool.eq_false_iff.mpr notRt
  next => cases accounted; exact spent

theorem Inv.schedulerTick (inv : s.Inv) {clock now : ℕ}
    (ticked : s.schedulerTick clock now = some s') :
    (s.Steady (.schedulerTick clock now) → s'.Inv) ∧
      (s'.Agrees → s.Steady (.schedulerTick clock now)) := by
  rcases Option.bind_eq_some_iff.mp ticked with ⟨⟨s₁, reschedule⟩, accounted, rest⟩
  have inv₀ : Sched.Inv { s with timestampLastTick := clock } :=
    inv.of_frame ⟨rfl, rfl, rfl, rfl, rfl⟩
      (inv.queues.congr (Nat.le_refl _) (fun _ _ => rfl) fun _ _ _ _ => Same.refl _) inv.current
  have inv₁ := inv₀.tickAccount accounted
  cases reschedule with
  | false =>
      cases rest
      refine ⟨fun _ => inv₁, fun _ s₂ accounted' => ?_⟩
      rw [accounted] at accounted'
      cases accounted'
  | true =>
      have kept := inv₁.schedule rest
      refine ⟨fun steady => kept.1 (steady s₁ accounted), fun agrees s₂ accounted' => ?_⟩
      rw [accounted] at accounted'
      cases accounted'
      exact kept.2 agrees

/-! ## New tasks -/

/-- What `sched_fork` may change: the new task, whose priorities then agree, and what the queues
do not depend on in others. -/
structure Forked (s : Sched) (p : ℕ) (s' : Sched) : Prop where
  tasksOnly : s' = { s with tasks := s'.tasks }
  others : ∀ q, q ≠ p → (s.tasks q).Same (s'.tasks q)
  prio : (s'.tasks p).prio = (s'.tasks p).effectivePrio

theorem Forked.new (s : Sched) {task : Task} (isPrio : task.prio = task.effectivePrio) :
    s.Forked p (s.setTask p task) where
  tasksOnly := rfl
  others := by
    intro q ne
    simp only [Sched.setTask, Function.update_of_ne ne]
    exact Same.refl _
  prio := by
    rw [setTask_self]
    exact isPrio

theorem Forked.setTask (forked : s.Forked p s') {task : Task} (same : (s'.tasks q).Same task) :
    s.Forked p (s'.setTask q task) where
  tasksOnly := by
    rw [forked.tasksOnly]
    rfl
  others := by
    intro r ne
    by_cases isTask : r = q
    · subst isTask
      rw [setTask_self]
      exact Same.trans (forked.others r ne) same
    · simp only [Sched.setTask, Function.update_of_ne isTask]
      exact forked.others r ne
  prio := by
    by_cases isTask : p = q
    · subst isTask
      rw [setTask_self, same.prio, same.effectivePrio]
      exact forked.prio
    · simp only [Sched.setTask, Function.update_of_ne isTask]
      exact forked.prio

theorem forkPrio_spec (s : Sched) (p : ℕ) (setPrio : ℤ) : s.Forked p (s.forkPrio p setPrio) := by
  apply Forked.new
  exact (Task.effectivePrio_of_eq rfl).symm

theorem Forked.forkSlice {s'' : Sched} (forked : s.Forked p s')
    (sliced : s'.forkSlice p = some s'') : s.Forked p s'' := by
  unfold Sched.forkSlice at sliced
  split at sliced
  next isInit =>
    rcases Option.bind_eq_some_iff.mp sliced with ⟨⟨timeSlice, s₁⟩, computed, rest⟩
    cases basicTimeslice_refused (Or.inr isInit) computed
    cases rest
    exact forked.setTask ⟨rfl, rfl, rfl, rfl, rfl⟩
  next =>
    cases sliced
    refine (forked.setTask ?_).setTask ?_
    · exact ⟨rfl, rfl, rfl, rfl, rfl⟩
    · exact ⟨rfl, rfl, rfl, rfl, rfl⟩

theorem schedFork_spec {setPrio : ℤ} {clock : ℕ}
    (forked : s.schedFork p setPrio clock = some s') : s.Forked p s' := by
  rcases Option.bind_eq_some_iff.mp forked with ⟨s₁, sliced, rest⟩
  have forked₁ := (forkPrio_spec s p setPrio).forkSlice sliced
  cases rest
  refine Forked.setTask ?_ ?_
  · split
    · refine forked₁.setTask ?_
      exact ⟨rfl, rfl, rfl, rfl, rfl⟩
    · exact forked₁
  · exact ⟨rfl, rfl, rfl, rfl, rfl⟩

/-- The queues do not depend on the task that is being forked, which is on none. -/
theorem Forked.queues (forked : s.Forked p s') (queues : s.Queues) (notLinked : ¬s.Linked p) :
    s'.Queues ∧ (∀ q, s'.Linked q ↔ s.Linked q) ∧ s.SameFrame s' := by
  rw [forked.tasksOnly]
  refine ⟨?_, fun _ => Iff.rfl, rfl, rfl, rfl, rfl, rfl⟩
  refine queues.congr (Nat.le_refl _) (fun _ _ => rfl) ?_
  intro a i q mem
  apply forked.others
  rintro rfl
  exact notLinked ⟨a, i, mem⟩

theorem weighSleep_same (task : Task) (penalty : ℕ) : task.Same (weighSleep task penalty) :=
  ⟨rfl, rfl, rfl, rfl, rfl⟩

/-- `wake_up_new_task` puts a task on the queue of its priority. -/
theorem wakeUpNewTask_spec (queues : s.Queues) (notLinked : ¬s.Linked p) (used : p < s.unused)
    (isPrio : (s.tasks p).prio = (s.tasks p).effectivePrio)
    (woken : s.wakeUpNewTask p = some s') :
    s'.Queues ∧ (∀ q, s.Linked q → s'.Linked q) ∧ s.SameFrame s' ∧
      ∀ q, (s'.tasks q).pid = (s.tasks q).pid := by
  simp only [wakeUpNewTask, Option.bind_eq_bind, Option.bind_eq_some_iff,
    Option.some.injEq] at woken
  rcases woken with ⟨prio, computed, rfl⟩
  have same := weighSleep_same (s.tasks p) childPenalty
  generalize weighSleep (s.tasks p) childPenalty = task at *
  have isPrio' : ({ task with prio } : Task).prio =
      ({ task with prio } : Task).effectivePrio := by
    unfold wakePrio at computed
    split at computed
    next isRt =>
      have isRt' : (s.tasks p).isRtTask = true := by
        rw [← same.isRtTask]
        exact isRt
      rw [Task.effectivePrio_of_rt (by exact isRt)]
      show prio = task.rtPriority
      rw [same.rtPriority, ← Task.effectivePrio_of_rt isRt', ← isPrio, ← same.prio]
      exact (Option.some.inj computed).symm
    next notRt =>
      exact (Task.effectivePrio_of_normal (by exact Bool.eq_false_iff.mpr notRt)).symm
  have queues₁ : (s.setTask p { task with prio }).Queues :=
    queues.setTask fun linked => absurd linked notLinked
  rcases queues₁.enqueueTask notLinked used (by rw [setTask_self]; exact isPrio') s.active with
    ⟨queues₂, linked₂⟩
  have frame₂ := enqueueTask_frame (s.setTask p { task with prio }) p s.active
  have tasks₂ : ∀ q, (((s.setTask p { task with prio }).enqueueTask p s.active).tasks q).pid =
      (s.tasks q).pid := by
    intro q
    rcases enqueueTask_spec (s.setTask p { task with prio }) p s.active with ⟨_, eq, _⟩
    rw [eq]
    by_cases isTask : q = p
    · subst isTask
      simpa [Sched.setTask] using same.pid
    · simp [Sched.setTask, isTask]
  have queues₃ : ((s.setTask p { task with prio }).activateTask p).Queues :=
    queues₂.congr (Nat.le_refl _) (fun _ _ => rfl) fun _ _ _ _ => Same.refl _
  refine ⟨queues₃.setTask fun _ => weighSleep_same _ _, fun q linked => ?_, ?_, fun q => ?_⟩
  · exact (linked₂ q).mpr (Or.inl linked)
  · exact ((setTask_frame s p _).trans frame₂).trans ⟨rfl, rfl, rfl, rfl, rfl⟩
  · exact (setTask_same (weighSleep_same _ _) q).pid.trans (tasks₂ q)

theorem Inv.doFork (inv : s.Inv) {setPrio : ℤ} {memory : Option ℕ} {clock pid : ℕ}
    (forked : s.doFork setPrio memory clock = some (pid, s')) : s'.Inv := by
  unfold Sched.doFork at forked
  split at forked
  next => cases forked; exact inv
  next =>
    cases memory with
    | none =>
        rcases Option.map_eq_some_iff.mp forked with ⟨pids, _, pair⟩
        cases pair
        exact inv.of_frame ⟨rfl, rfl, rfl, rfl, rfl⟩
          (inv.queues.congr (Nat.le_refl _) (fun _ _ => rfl) fun _ _ _ _ => Same.refl _)
          inv.current
    | some starveCount =>
        simp only [Option.bind_eq_bind, Option.bind_eq_some_iff, Option.some.injEq] at forked
        rcases forked with ⟨s₁, isForked, s₂, woken, pair⟩
        cases pair
        have notLinked : ¬s.Linked s.unused := fun linked =>
          Nat.lt_irrefl _ (inv.queues.used _ linked)
        let start : Sched :=
          { s with
            unused := s.unused + 1
            pids := s.pids.pidAlloc.2
            processes := s.processes ++ [s.unused]
            nrProcess := s.nrProcess + 1 }
        let new : Task := { s.tasks s.unused with pid := s.pids.pidAlloc.1, starveCount }
        have queues₀ : (start.setTask s.unused new).Queues := by
          have queues : start.Queues :=
            inv.queues.congr (Nat.le_succ _) (fun _ _ => rfl) fun _ _ _ _ => Same.refl _
          exact queues.setTask fun linked => absurd linked notLinked
        have forked₁ : (start.setTask s.unused new).Forked s.unused s₁ :=
          schedFork_spec isForked
        rcases forked₁.queues queues₀ notLinked with ⟨queues₁, linked₁, frame₁⟩
        have used₁ : s.unused < s₁.unused := by
          rw [frame₁.unused]
          exact Nat.lt_succ_self _
        rcases wakeUpNewTask_spec queues₁ (fun linked => notLinked ((linked₁ _).mp linked)) used₁
          forked₁.prio woken with ⟨queues₂, linked₂, frame₂, pid₂⟩
        have frame := frame₁.trans frame₂
        have notNew : s.currentTask ≠ s.unused := Nat.ne_of_lt inv.currentUsed
        have pid : (s'.tasks s.currentTask).pid = (s.tasks s.currentTask).pid := by
          rw [pid₂, (forked₁.others _ notNew).pid]
          simp [Sched.setTask, start, notNew]
        constructor
        · exact queues₂
        · rw [frame.active, frame.expired]
          exact inv.distinct
        · exact frame.idle.trans inv.noIdle
        · rw [frame.currentTask, frame.unused]
          exact Nat.lt_succ_of_lt inv.currentUsed
        · rw [frame.currentTask]
          show (s'.tasks s.currentTask).pid ≠ idlePid → s'.Linked s.currentTask
          rw [pid]
          exact fun notIdle => linked₂ _ ((linked₁ _).mpr (inv.current notIdle))

/-- A step keeps the invariant if it chooses no task whose priority changes, and else breaks the
agreement of tasks and queues. -/
theorem Inv.step (inv : s.Inv) {op : SchedOp} (stepped : s.step op = some s') :
    (s.Steady op → s'.Inv) ∧ (s'.Agrees → s.Steady op) := by
  cases op with
  | doFork setPrio memory clock =>
      rcases Option.map_eq_some_iff.mp stepped with ⟨⟨_, _⟩, forked, rfl⟩
      exact ⟨fun _ => inv.doFork forked, fun _ => trivial⟩
  | schedulerTick clock now => exact inv.schedulerTick stepped
  | schedule now => exact inv.schedule stepped
  | pcExit now => exact inv.pcExit stepped
  | pcKill pid =>
      rcases Option.map_eq_some_iff.mp stepped with ⟨⟨_, _⟩, killed, rfl⟩
      exact ⟨fun _ => inv.pcKill killed, fun _ => trivial⟩

theorem initPc_inv : initPc.Inv where
  queues :=
    { agrees := fun _ _ _ mem => absurd mem List.not_mem_nil
      used := fun _ linked => by simp [Linked, initPc] at linked
      nodup := fun _ _ => List.nodup_nil }
  distinct := by decide
  noIdle := rfl
  currentUsed := by decide
  current := fun notIdle => absurd rfl notIdle

end Operations

theorem inv_of_reach {s : Sched} (reached : GuardedReach step Steady (· = initPc) s) :
    s.Inv := by
  refine reached.invariant (fun s start => ?_)
    fun _ _ _ inv steady stepped => (inv.step stepped).1 steady
  rw [start]
  exact initPc_inv

/-- In a run that chooses no task whose priority changes, every task on a queue is on that of its
effective priority, the current task is on a queue unless it is the idle one, and the first step
that chooses a task whose priority changes ends the agreement. -/
theorem agrees_of_reach (s : Sched) (reached : GuardedReach step Steady (· = initPc) s) :
    s.Agrees ∧ ((s.tasks s.currentTask).pid ≠ idlePid → s.Linked s.currentTask) ∧
      ∀ op s', s.step op = some s' → (s'.Agrees ↔ s.Steady op) := by
  have inv := inv_of_reach reached
  refine ⟨inv.queues.agrees, inv.current, fun op s' stepped => ?_⟩
  exact ⟨(inv.step stepped).2, fun steady => ((inv.step stepped).1 steady).queues.agrees⟩

/-- A task of priority 55 that is chosen soon after it is forked. -/
theorem agrees_of_reach_oneTask : ∃ s : Sched, s.currentTask = 1 ∧ s.Agrees := by
  have current : ((initPc.step (.doFork 55 (some 0) 0)).bind fun s =>
      s.step (.schedule 100)).map (·.currentTask) = some 1 := by decide +kernel
  have chosen : ((initPc.step (.doFork 55 (some 0) 0)).all fun s =>
      s.exchange.nextOfSchedule = some 1 ∧ (s.exchange.tasks 1).Steady 100) := by
    decide +kernel
  rcases Option.map_eq_some_iff.mp current with ⟨s', ran, isCurrent⟩
  rcases Option.bind_eq_some_iff.mp ran with ⟨s, forked, scheduled⟩
  rw [forked] at chosen
  simp only [Option.all_some, decide_eq_true_eq] at chosen
  have steady : s.Steady (.schedule 100) := by
    intro p isNext
    rw [chosen.1] at isNext
    cases isNext
    exact chosen.2
  have forks : initPc.Steady (.doFork 55 (some 0) 0) := trivial
  have reached : GuardedReach step Steady (· = initPc) s := .step (.start rfl) forks forked
  exact ⟨s', isCurrent, (agrees_of_reach s' (.step reached steady scheduled)).1⟩

/-- The clock interrupt that lets it run only later leaves it on queue 59 with priority 58. -/
theorem not_effectivePrio_of_reach : ¬∀ s : Sched, Reach step (· = initPc) s →
    ∀ array i, ∀ p ∈ (s.arrays array).queue i, (s.tasks p).effectivePrio = i := by
  intro always
  have wrong : (run step initPc [.doFork 55 (some 0) 0, .schedulerTick 2000 2000]).map
      (fun s => ((s.arrays 0).queue 59, (s.tasks 1).effectivePrio)) = some ([1], 58) := by
    decide +kernel
  rcases Option.map_eq_some_iff.mp wrong with ⟨s, ran, values⟩
  have isQueue : (s.arrays 0).queue 59 = [1] := congrArg Prod.fst values
  have isPrio : (s.tasks 1).effectivePrio = 58 := congrArg Prod.snd values
  have started : Reach step (· = initPc) initPc := .start rfl
  have agrees := always s (reach_of_run started ran) 0 59 1 (by rw [isQueue]; simp)
  rw [isPrio] at agrees
  cases agrees

end Sched

end Ninix.Process
