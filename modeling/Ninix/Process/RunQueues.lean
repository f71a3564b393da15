import Ninix.Process.Accounting

/-!
# Lists over whole runs

Whatever happens to the priorities of the tasks in them, the lists stay lists: in every state
reached from `init_pc` the tasks in the queues are those on `processes`, each in one queue, and
the current task is one of them unless it is the idle task.
-/

namespace Ninix.Process

open TransitionSystem

namespace Sched

/-- The lists of a state, apart from the counters and from the priorities of normal tasks. -/
structure Lists (s : Sched) : Prop where
  sane : s.Sane
  noIdle : s.idle = none
  nodup : s.processes.Nodup
  queued : ∀ p ∈ s.processes, ∃ array i, s.At p array i
  listed : ∀ p, s.Linked p → p ∈ s.processes
  known : ∀ p < s.unused, ∀ array, (s.tasks p).array = some array → p ∈ s.processes
  rtQueue : ∀ array i, ∀ p ∈ (s.arrays array).queue i, (s.tasks p).isRtTask →
    (s.tasks p).rtPriority = i

/-- The current task is on `processes` unless it is the idle task. -/
def CurrentListed (s : Sched) : Prop :=
  (s.tasks s.currentTask).pid ≠ idlePid → s.currentTask ∈ s.processes

variable {s s' : Sched} {p q : ℕ} {array a : ArrayId} {i j : ℕ}

/-! ## Members of the queues -/

theorem mem_dequeueTask : q ∈ ((s.dequeueTask p array).arrays a).queue j ↔
    q ∈ (s.arrays a).queue j ∧ q ≠ p := by
  rcases dequeueTask_spec s p array with ⟨arrays, eq, queue⟩
  rw [eq, queue, List.mem_filter, decide_eq_true_iff]

theorem mem_enqueueTask : q ∈ ((s.enqueueTask p array).arrays a).queue j ↔
    q ∈ (s.arrays a).queue j ∨ q = p ∧ a = array ∧ j = (s.tasks p).effectivePrio := by
  rcases enqueueTask_spec s p array with ⟨arrays, eq, queue⟩
  rw [eq, queue]
  split
  next isQueue =>
    rcases isQueue with ⟨rfl, rfl⟩
    simp
  next other => simp [other]

theorem mem_requeueTask : q ∈ ((s.requeueTask p array).arrays a).queue j ↔
    q ∈ (s.arrays a).queue j ∧ q ≠ p ∨ q = p ∧ a = array ∧ j = (s.tasks p).effectivePrio := by
  rcases requeueTask_spec s p array with ⟨arrays, eq, queue⟩
  rw [eq, queue]
  split
  next isQueue =>
    rcases isQueue with ⟨rfl, rfl⟩
    simp
  next other => simp [other]

theorem mem_move (s : Sched) (p : ℕ) (array array' : ArrayId) (task : Task) (a : ArrayId)
    (j q : ℕ) : q ∈ ((s.move p array array' task).arrays a).queue j ↔
      q ∈ (s.arrays a).queue j ∧ q ≠ p ∨ q = p ∧ a = array' ∧ j = task.effectivePrio := by
  unfold move
  rw [mem_enqueueTask, setTask_self]
  exact or_congr_left mem_dequeueTask

theorem Task.Ages.isRtTask {task task' : Task} (aged : task.Ages task') :
    task'.isRtTask = task.isRtTask := by
  simp [Task.isRtTask, aged.staticPrio]

/-! ## One operation -/

theorem Lists.quiet (lists : s.Lists) (quiet : s.Quiet s') (currentUsed : s'.currentTask < s.unused) :
    s'.Lists where
  sane := lists.sane.quiet quiet currentUsed
  noIdle := quiet.idle.trans lists.noIdle
  nodup := by
    rw [quiet.processes]
    exact lists.nodup
  queued := by
    intro p isProcess
    rw [quiet.processes] at isProcess
    rcases lists.queued p isProcess with ⟨array, i, isAt⟩
    exact ⟨array, i, isAt.quiet quiet⟩
  listed := by
    intro p linked
    rw [quiet.processes]
    exact lists.listed p (linked.of_quiet quiet)
  known := by
    intro p used array isArray
    rw [quiet.unused] at used
    rw [(quiet.tasks p).array] at isArray
    rw [quiet.processes]
    exact lists.known p used array isArray
  rtQueue := by
    intro array i p mem isRt
    rw [quiet.arrays] at mem
    rw [Task.Ages.isRtTask (quiet.tasks p)] at isRt
    rw [(quiet.tasks p).rtPriority]
    exact lists.rtQueue array i p mem isRt

theorem Lists.exchange (lists : s.Lists) : s.exchange.Lists := by
  rcases exchange_spec s with ⟨tasks, arrays, unused, _, idle, _⟩
  have processes : s.exchange.processes = s.processes := by
    unfold Sched.exchange
    split
    · rfl
    · rfl
  constructor
  · exact lists.sane.exchange
  · exact idle.trans lists.noIdle
  · rw [processes]
    exact lists.nodup
  · intro p isProcess
    rw [processes] at isProcess
    rcases lists.queued p isProcess with ⟨array, i, isAt⟩
    refine ⟨array, i, isAt.congr ?_ fun a j => ?_⟩
    · rw [tasks]
    · rw [arrays]
  · rintro p ⟨a, j, mem⟩
    rw [arrays] at mem
    rw [processes]
    exact lists.listed p ⟨a, j, mem⟩
  · rw [tasks, unused, processes]
    exact lists.known
  · rw [tasks, arrays]
    exact lists.rtQueue

theorem Lists.move (lists : s.Lists) (isProcess : p ∈ s.processes) {task : Task}
    (valid : task.Valid) (isQueue : task.effectivePrio < maxPrio) (array array' : ArrayId) :
    (s.move p array array' task).Lists := by
  have used := lists.sane.processUsed p isProcess
  have queued : ∀ q ∈ s.processes, ∃ a j, (s.move p array array' task).At q a j := by
    intro q isProcess'
    by_cases isTask : q = p
    · subst isTask
      exact ⟨array', _, move_at isQueue array array'⟩
    · rcases lists.queued q isProcess' with ⟨c, j, isAt⟩
      exact ⟨c, j, isAt.move_other isTask array array' task⟩
  have mem := fun (a : ArrayId) (j q : ℕ) => (mem_move s p array array' task a j q).mp
  have sane := lists.sane.move used valid array array'
  rw [move_eq] at queued mem sane ⊢
  constructor
  · exact sane
  · exact lists.noIdle
  · exact lists.nodup
  · exact queued
  · rintro q ⟨a, j, isMem⟩
    rcases mem a j q isMem with ⟨old, _⟩ | ⟨rfl, _⟩
    · exact lists.listed q ⟨a, j, old⟩
    · exact isProcess
  · intro q used' b isArray
    by_cases isTask : q = p
    · exact isTask ▸ isProcess
    · simp only [Function.update_of_ne isTask] at isArray
      exact lists.known q used' b isArray
  · intro a j q isMem isRt
    rcases mem a j q isMem with ⟨old, ne⟩ | ⟨rfl, _, rfl⟩
    · simp only [Function.update_of_ne ne] at isRt ⊢
      exact lists.rtQueue a j q old isRt
    · simp only [Function.update_self] at isRt ⊢
      exact (Task.effectivePrio_of_rt (by exact isRt)).symm

theorem Lists.requeueTask (lists : s.Lists) (isProcess : p ∈ s.processes)
    (isArray : (s.tasks p).array = some array) (isQueue : (s.tasks p).effectivePrio < maxPrio) :
    (s.requeueTask p array).Lists where
  sane := lists.sane.requeueTask (lists.sane.processUsed p isProcess) array
  noIdle := lists.noIdle
  nodup := lists.nodup
  queued := by
    intro q isProcess'
    by_cases isTask : q = p
    · subst isTask
      exact ⟨array, _, requeueTask_at isArray isQueue⟩
    · rcases lists.queued q isProcess' with ⟨c, j, isAt⟩
      exact ⟨c, j, isAt.requeue_other isTask array⟩
  listed := by
    intro q linked
    rcases linked.of_requeue with old | rfl
    · exact lists.listed q old
    · exact isProcess
  known := lists.known
  rtQueue := by
    intro a j q mem isRt
    rcases mem_requeueTask.mp mem with ⟨old, _⟩ | ⟨rfl, _, rfl⟩
    · exact lists.rtQueue a j q old isRt
    · exact (Task.effectivePrio_of_rt isRt).symm

theorem Lists.deleteTask (lists : s.Lists) (deleted : s.deleteTask p = some s') :
    s'.Lists ∧ s'.processes = s.processes.erase p := by
  have sane := lists.sane.deleteTask deleted
  have others := fun (q : ℕ) (array : ArrayId) (i : ℕ) (isAt : s.At q array i) (ne : q ≠ p) =>
    isAt.delete_other deleted ne
  rcases Option.map_eq_some_iff.mp deleted with ⟨b, isArray, _⟩
  rw [deleteTask_eq isArray] at deleted
  cases deleted
  refine ⟨?_, rfl⟩
  constructor
  · exact sane
  · exact lists.noIdle
  · exact lists.nodup.erase p
  · intro q isProcess
    rcases lists.nodup.mem_erase_iff.mp isProcess with ⟨ne, old⟩
    rcases lists.queued q old with ⟨array, i, isAt⟩
    exact ⟨array, i, others q array i isAt ne⟩
  · rintro q ⟨a, j, mem⟩
    rcases mem_dequeueTask.mp mem with ⟨old, ne⟩
    exact lists.nodup.mem_erase_iff.mpr ⟨ne, lists.listed q ⟨a, j, old⟩⟩
  · intro q used array isArray'
    by_cases isTask : q = p
    · subst isTask
      simp only [Function.update_self] at isArray'
      cases isArray'
    · simp only [Function.update_of_ne isTask] at isArray'
      exact lists.nodup.mem_erase_iff.mpr ⟨isTask, lists.known q used array isArray'⟩
  · intro a j q mem isRt
    rcases mem_dequeueTask.mp mem with ⟨old, ne⟩
    simp only [Function.update_of_ne ne] at isRt ⊢
    exact lists.rtQueue a j q old isRt

theorem deleteTask_currentTask (deleted : s.deleteTask p = some s') :
    s'.currentTask = s.currentTask := by
  rcases Option.map_eq_some_iff.mp deleted with ⟨b, isArray, _⟩
  rw [deleteTask_eq isArray] at deleted
  cases deleted
  rfl

theorem deleteTask_pid (deleted : s.deleteTask p = some s') (q : ℕ) :
    (s'.tasks q).pid = (s.tasks q).pid := by
  rcases Option.map_eq_some_iff.mp deleted with ⟨b, isArray, _⟩
  rw [deleteTask_eq isArray] at deleted
  cases deleted
  by_cases isTask : q = p
  · subst isTask
    simp only [Function.update_self]
  · simp only [Function.update_of_ne isTask]

theorem Lists.activateTask (lists : s.Lists) (born : s.Born s') :
    (s'.activateTask s.unused).Lists := by
  have sane := lists.sane.activateTask born
  have new := lists.sane.new_at born
  have others := fun (q : ℕ) (array : ArrayId) (i : ℕ) (isAt : s.At q array i)
    (ne : q ≠ s.unused) => isAt.activate_other born ne
  rw [activateTask_eq] at sane new others ⊢
  constructor
  · exact sane
  · exact born.idle.trans lists.noIdle
  · simp only [born.processes]
    rw [List.nodup_append]
    refine ⟨lists.nodup, List.nodup_singleton _, ?_⟩
    rintro p isProcess _ isNew rfl
    rw [List.mem_singleton.mp isNew] at isProcess
    exact lists.sane.notProcess isProcess
  · intro q isProcess
    simp only [born.processes, List.mem_append, List.mem_singleton] at isProcess
    rcases isProcess with old | rfl
    · have ne : q ≠ s.unused := fun isNew => lists.sane.notProcess (isNew ▸ old)
      rcases lists.queued q old with ⟨array, i, isAt⟩
      exact ⟨array, i, others q array i isAt ne⟩
    · exact ⟨_, _, new⟩
  · rintro q ⟨a, j, mem⟩
    simp only [born.processes, List.mem_append, List.mem_singleton]
    rcases mem_enqueueTask.mp mem with old | ⟨isNew, _⟩
    · rw [born.arrays] at old
      exact Or.inl (lists.listed q ⟨a, j, old⟩)
    · exact Or.inr isNew
  · intro q used array isArray
    simp only [born.unused] at used
    simp only [born.processes, List.mem_append, List.mem_singleton]
    by_cases isNew : q = s.unused
    · exact Or.inr isNew
    · simp only [Function.update_of_ne isNew] at isArray
      rw [(born.others q isNew).array] at isArray
      have old : q < s.unused := Nat.lt_of_le_of_ne (Nat.le_of_lt_succ used) isNew
      exact Or.inl (lists.known q old array isArray)
  · intro a j q mem isRt
    rcases mem_enqueueTask.mp mem with old | ⟨rfl, _, rfl⟩
    · rw [born.arrays] at old
      have ne : q ≠ s.unused := by
        rintro rfl
        exact Nat.lt_irrefl _ (lists.sane.linkedUsed _ ⟨a, j, old⟩)
      simp only [Function.update_of_ne ne] at isRt ⊢
      rw [Task.Ages.isRtTask (born.others q ne)] at isRt
      rw [(born.others q ne).rtPriority]
      exact lists.rtQueue a j q old isRt
    · simp only [Function.update_self] at isRt ⊢
      exact (Task.effectivePrio_of_rt (by exact isRt)).symm

/-! ## One call -/

theorem Lists.withPids (lists : s.Lists) (pids : PidMap) : Lists { s with pids } :=
  ⟨lists.sane.withPids pids, lists.noIdle, lists.nodup, lists.queued, lists.listed, lists.known,
    lists.rtQueue⟩

theorem Lists.tick (lists : s.Lists) (clock : ℕ) : Lists { s with timestampLastTick := clock } :=
  ⟨lists.sane.tick clock, lists.noIdle, lists.nodup, lists.queued, lists.listed, lists.known,
    lists.rtQueue⟩

theorem exchange_processes (s : Sched) : s.exchange.processes = s.processes := by
  unfold Sched.exchange
  split
  · rfl
  · rfl

theorem exchange_pids (s : Sched) : s.exchange.pids = s.pids := by
  unfold Sched.exchange
  split
  · rfl
  · rfl

/-- The task `schedule` chooses is a process. -/
theorem Lists.schedule (lists : s.Lists) {now : ℕ} (scheduled : s.schedule now = some s') :
    s'.Lists ∧ s'.currentTask ∈ s'.processes := by
  rcases schedule_quiet scheduled with ⟨quiet, isNext⟩
  have lists' := lists.exchange
  refine ⟨lists'.quiet quiet (lists'.sane.nextOfSchedule isNext), ?_⟩
  rw [quiet.processes]
  exact lists'.listed _ (nextOfSchedule_linked lists'.noIdle isNext)

theorem Lists.findNextTask (lists : s.Lists) {now next : ℕ}
    (found : s.findNextTask now = some (next, s')) :
    s'.Lists ∧ next ∈ s'.processes ∧ s'.processes = s.processes := by
  rcases findNextTask_quiet found with ⟨quiet, isNext, isCurrent⟩
  have lists' := lists.exchange
  refine ⟨lists'.quiet quiet ?_, ?_, quiet.processes.trans (exchange_processes s)⟩
  · rw [isCurrent]
    exact lists'.sane.currentUsed
  · rw [quiet.processes]
    exact lists'.listed next (nextOfFind_linked lists'.noIdle isNext)

/-- A task whose time slice is over is in the active array. -/
theorem Lists.sliceEnds_at (lists : s.Lists) (current : s.CurrentListed) (ends : s.SliceEnds) :
    ∃ i, s.At s.currentTask s.active i := by
  rcases lists.queued _ (current ends.notIdle) with ⟨array, i, isAt⟩
  have notExpired : array ≠ s.expired := by
    rintro rfl
    exact ends.notExpired isAt.2.1
  rw [eq_of_ne_of_ne lists.sane.distinct notExpired] at isAt
  exact ⟨i, isAt⟩

/-- The clock interrupt leaves the lists as they are apart from the place of the current task. -/
theorem Ticked.lists (ticked : s.Ticked s') (lists : s.Lists) (current : s.CurrentListed) :
    s'.Lists ∧ s'.processes = s.processes ∧ s'.pids = s.pids ∧ s'.currentTask = s.currentTask ∧
      ∀ q, (s'.tasks q).pid = (s.tasks q).pid := by
  have spent := fun timeSlice =>
    lists.quiet (withSlice_quiet s timeSlice) lists.sane.currentUsed
  have pid := fun timeSlice q => ((withSlice_quiet s timeSlice).tasks q).pid
  have inActive : ∀ timeSlice, s.SliceEnds →
      ((s.withSlice timeSlice).tasks s.currentTask).array = some s.active := by
    intro timeSlice ends
    rcases lists.sliceEnds_at current ends with ⟨i, isAt⟩
    rw [withSlice_self]
    exact isAt.2.1
  cases ticked with
  | unchanged => exact ⟨lists, rfl, rfl, rfl, fun _ => rfl⟩
  | spent timeSlice => exact ⟨spent timeSlice, rfl, rfl, rfl, pid timeSlice⟩
  | expired timeSlice task ends renewed =>
      have lists' := (spent timeSlice).move (current ends.notIdle) renewed.valid renewed.isQueue
        s.active s.expired
      refine ⟨lists', ?_⟩
      rw [move_eq]
      refine ⟨rfl, rfl, rfl, fun q => ?_⟩
      by_cases isTask : q = s.currentTask
      · subst isTask
        simp only [Function.update_self]
        exact renewed.pid
      · simp only [Function.update_of_ne isTask]
        exact pid timeSlice q
  | tail timeSlice ends isRt =>
      refine ⟨(spent timeSlice).requeueTask (current ends.notIdle) (inActive timeSlice ends) ?_,
        rfl, rfl, rfl, pid timeSlice⟩
      rw [withSlice_self]
      exact (lists.sane.valid _ lists.sane.currentUsed).effectivePrio_lt isRt

/-- A state made by `do_fork`, whose other processes keep their identifiers. -/
theorem Lists.doFork (lists : s.Lists) {setPrio : ℤ} (isPrio : ForkPrio setPrio)
    {starveCount clock pid : ℕ}
    (forked : s.doFork setPrio (some starveCount) clock = some (pid, s')) :
    s'.Lists ∧ s'.processes = s.processes ++ [s.unused] ∧ s'.currentTask = s.currentTask ∧
      s'.pids = s.pids.pidAlloc.2 ∧ pid = s.pids.pidAlloc.1 ∧
      (∀ q, q ≠ s.unused → (s'.tasks q).pid = (s.tasks q).pid) ∧
      (s'.tasks s.unused).pid = pid := by
  rcases doFork_made lists.sane isPrio starveCount clock with
    ⟨s₁, s₂, forked', born, quiet, isCurrent⟩
  rw [forked'] at forked
  cases forked
  have lists' := lists.activateTask born
  refine ⟨lists'.quiet quiet ?_, quiet.processes.trans born.processes, isCurrent,
    quiet.pids.trans born.pids, rfl, fun q ne => ?_, ?_⟩
  · rw [isCurrent, ← born.currentTask]
    exact lists'.sane.currentUsed
  · rw [(quiet.tasks q).pid, activateTask_eq]
    simp only [Function.update_of_ne ne]
    exact (born.others q ne).pid
  · rw [(quiet.tasks s.unused).pid, activateTask_eq]
    simp only [Function.update_self]
    exact born.pid

/-- Without memory for the task, `do_fork` gives the identifier back. -/
theorem doFork_noMemory {setPrio : ℤ} (isPrio : ForkPrio setPrio) (clock : ℕ) :
    s.doFork setPrio none clock =
      (s.pids.pidAlloc.2.pidFree s.pids.pidAlloc.1).map fun pids => (0, { s with pids }) := by
  rw [doFork_eq, if_neg fun refused => (not_or.mpr refused) isPrio]

theorem Lists.step (lists : s.Lists) (current : s.CurrentListed) {op : SchedOp}
    (stepped : s.step op = some s') : s'.Lists ∧ s'.CurrentListed := by
  cases op with
  | doFork setPrio memory clock =>
      rcases Option.map_eq_some_iff.mp stepped with ⟨⟨pid, s₂⟩, forked, rfl⟩
      by_cases isPrio : ForkPrio setPrio
      · cases memory with
        | none =>
            rw [doFork_noMemory isPrio] at forked
            rcases Option.map_eq_some_iff.mp forked with ⟨pids, _, pair⟩
            cases pair
            exact ⟨lists.withPids pids, current⟩
        | some starveCount =>
            rcases lists.doFork isPrio forked with
              ⟨lists', processes, isCurrent, _, _, others, _⟩
            refine ⟨lists', ?_⟩
            have ne := Nat.ne_of_lt lists.sane.currentUsed
            unfold CurrentListed
            rw [isCurrent, others _ ne, processes]
            exact fun notIdle => List.mem_append_left _ (current notIdle)
      · rw [doFork_refused isPrio] at forked
        cases forked
        exact ⟨lists, current⟩
  | schedulerTick clock now =>
      rcases Option.bind_eq_some_iff.mp stepped with ⟨⟨s₁, reschedule⟩, accounted, rest⟩
      have lists₀ := lists.tick clock
      rcases tickAccount_cases (lists₀.sane.valid _ lists₀.sane.currentUsed) with
        ⟨s₂, _, accounted', ticked⟩
      rw [accounted] at accounted'
      cases accounted'
      rcases ticked.lists lists₀ current with ⟨lists₁, processes, _, isCurrent, pid⟩
      cases reschedule with
      | false =>
          cases rest
          refine ⟨lists₁, ?_⟩
          unfold CurrentListed
          rw [isCurrent, pid, processes]
          exact current
      | true =>
          rcases lists₁.schedule rest with ⟨lists₂, isProcess⟩
          exact ⟨lists₂, fun _ => isProcess⟩
  | schedule now =>
      rcases lists.schedule stepped with ⟨lists', isProcess⟩
      exact ⟨lists', fun _ => isProcess⟩
  | pcExit now =>
      rcases pcExit_cases stepped with ⟨s₁, s₂, next, pids, deleted, found, _, rfl⟩
      rcases (lists.deleteTask deleted).1.findNextTask found with ⟨lists₂, isProcess, _⟩
      have used := lists₂.sane.processUsed next isProcess
      have sane : Sane { s₂ with pids, currentTask := next } :=
        ⟨lists₂.sane.distinct, lists₂.sane.linkedUsed, lists₂.sane.processUsed, used,
          lists₂.sane.idleUsed, lists₂.sane.valid⟩
      exact ⟨⟨sane, lists₂.noIdle, lists₂.nodup, lists₂.queued, lists₂.listed, lists₂.known,
        lists₂.rtQueue⟩, fun _ => isProcess⟩
  | pcKill pid =>
      rcases Option.map_eq_some_iff.mp stepped with ⟨⟨code, s₂⟩, killed, rfl⟩
      rcases pcKill_cases killed with rfl |
        ⟨p, s₁, pids, _, isProcess, isPid, _, notCurrent, deleted, _, _, rfl⟩
      · exact ⟨lists, current⟩
      · rcases lists.deleteTask deleted with ⟨lists₁, processes⟩
        refine ⟨lists₁.withPids pids, fun notIdle => ?_⟩
        have isCurrent := deleteTask_currentTask deleted
        have ne : s.currentTask ≠ p := by
          intro eq
          rw [eq] at notCurrent
          exact notCurrent isPid.symm
        have pid' := deleteTask_pid deleted s.currentTask
        show s₁.currentTask ∈ s₁.processes
        rw [processes, isCurrent]
        apply lists.nodup.mem_erase_iff.mpr ⟨ne, current ?_⟩
        rw [← pid', ← isCurrent]
        exact notIdle

/-! ## Runs -/

theorem initPc_lists : initPc.Lists where
  sane := initPc_sane
  noIdle := rfl
  nodup := List.nodup_nil
  queued p isProcess := by simp [initPc] at isProcess
  listed p linked := by simp [Linked, initPc] at linked
  known p _ array isArray := by simp [initPc] at isArray
  rtQueue array i p mem := by simp [initPc] at mem

/-- The lists of every state that a run reaches. -/
theorem lists_of_reach {guard : Sched → SchedOp → Prop}
    (reached : GuardedReach step guard (· = initPc) s) : s.Lists ∧ s.CurrentListed := by
  let inv : Sched → Prop := fun s => s.Lists ∧ s.CurrentListed
  show inv s
  apply reached.invariant
  · intro s start
    rw [start]
    exact ⟨initPc_lists, fun notIdle => absurd rfl notIdle⟩
  · rintro s op s' ⟨lists, current⟩ _ stepped
    exact lists.step current stepped

end Sched

end Ninix.Process
