import Ninix.Process.ClockShift
import Ninix.Process.RunQueues

/-!
# Time slices

A new task gets half of the time slice of its parent, rounded up, and the parent keeps the other
half, or one tick. `init` gets a slice of its own, as does a task whose slice is over. No slice
reaches zero but that of the idle task, which `init_pc` gives none and the first fork one tick.
-/

namespace Ninix.Process

open TransitionSystem

/-- The longest time slice there is. -/
abbrev maxRtTimeslice : ℕ := 1200

/-- A time slice that is not over. -/
def IsSlice (timeSlice : ℕ) : Prop := 1 ≤ timeSlice ∧ timeSlice ≤ maxRtTimeslice

namespace Sched

/-- Every task but the idle one has time left, and so does the idle task once another has been
made. -/
def Slices (s : Sched) : Prop :=
  ∀ p < s.unused, (s.tasks p).timeSlice ≤ maxRtTimeslice ∧
    (p ≠ initPc.currentTask ∨ 1 < s.unused → 1 ≤ (s.tasks p).timeSlice)

/-- The first task that is made gets the identifier of `init`. -/
def FirstIsInit (s : Sched) : SchedOp → Prop
  | .doFork setPrio (some _) _ =>
      ForkPrio setPrio → s.unused = 1 → s.pids.pidAlloc.1 = initPid
  | _ => True

/-- No time slice differs. -/
def SameSlices (s s' : Sched) : Prop := ∀ q, (s'.tasks q).timeSlice = (s.tasks q).timeSlice

/-- One task has a time slice that is not over, and no other differs. -/
structure Refilled (s s' : Sched) (p : ℕ) : Prop where
  isSlice : IsSlice (s'.tasks p).timeSlice
  others : ∀ q, q ≠ p → (s'.tasks q).timeSlice = (s.tasks q).timeSlice

variable {s s' s'' : Sched} {p : ℕ}

/-! ## The parts of a call -/

theorem SameSlices.refl (s : Sched) : s.SameSlices s := fun _ => rfl

theorem SameSlices.trans (first : s.SameSlices s') (second : s'.SameSlices s'') :
    s.SameSlices s'' :=
  fun q => (second q).trans (first q)

theorem Refilled.after (refilled : s'.Refilled s'' p) (same : s.SameSlices s') :
    s.Refilled s'' p :=
  ⟨refilled.isSlice, fun q ne => (refilled.others q ne).trans (same q)⟩

theorem Refilled.before (refilled : s.Refilled s' p) (same : s'.SameSlices s'') :
    s.Refilled s'' p := by
  refine ⟨?_, fun q ne => (same q).trans (refilled.others q ne)⟩
  rw [same p]
  exact refilled.isSlice

/-- A second refill replaces the first. -/
theorem Refilled.trans (first : s.Refilled s' p) (second : s'.Refilled s'' p) :
    s.Refilled s'' p :=
  ⟨second.isSlice, fun q ne => (second.others q ne).trans (first.others q ne)⟩

theorem setTask_sameSlices (p : ℕ) {task : Task}
    (same : task.timeSlice = (s.tasks p).timeSlice) : s.SameSlices (s.setTask p task) := by
  intro q
  by_cases isTask : q = p
  · subst isTask
    rw [setTask_self]
    exact same
  · rw [setTask_of_ne s isTask]

theorem enqueueTask_sameSlices (s : Sched) (p : ℕ) (array : ArrayId) :
    s.SameSlices (s.enqueueTask p array) := by
  intro q
  rw [enqueueTask_tasks]
  by_cases isTask : q = p
  · subst isTask
    rw [Function.update_self]
  · rw [Function.update_of_ne isTask]

theorem dequeueTask_sameSlices (s : Sched) (p : ℕ) (array : ArrayId) :
    s.SameSlices (s.dequeueTask p array) := by
  intro q
  rw [dequeueTask_tasks]
  by_cases isTask : q = p
  · subst isTask
    rw [Function.update_self]
  · rw [Function.update_of_ne isTask]

theorem requeueTask_sameSlices (s : Sched) (p : ℕ) (array : ArrayId) :
    s.SameSlices (s.requeueTask p array) := fun _ => rfl

theorem exchange_sameSlices (s : Sched) : s.SameSlices s.exchange := by
  intro q
  rw [(exchange_spec s).1]

theorem deleteTask_sameSlices (deleted : s.deleteTask p = some s') : s.SameSlices s' := by
  rcases Option.map_eq_some_iff.mp deleted with ⟨array, _, rfl⟩
  exact dequeueTask_sameSlices s p array

theorem pcKill_sameSlices {pid code : ℕ} (kills : s.pcKill pid = some (code, s')) :
    s.SameSlices s' := by
  rcases pcKill_cases kills with rfl | ⟨p, s₁, pids, _, _, _, _, _, deleted, _, _, rfl⟩
  · exact .refl _
  · exact SameSlices.trans (deleteTask_sameSlices deleted) fun _ => rfl

theorem recalcTaskPrio_timeSlice {task task' : Task} {now : ℕ}
    (recalculated : task.recalcTaskPrio now = some task') :
    task'.timeSlice = task.timeSlice := by
  have slept : (task.addSleep now).timeSlice = task.timeSlice := by
    unfold Task.addSleep
    dsimp only
    generalize (if sub32 now task.timestamp > maxSleepAvg then maxSleepAvg
      else sub32 now task.timestamp) = sleepTime
    split
    · rfl
    · rfl
  unfold Task.recalcTaskPrio at recalculated
  simp only at recalculated
  split at recalculated
  · cases recalculated
    exact slept
  · rcases Option.map_eq_some_iff.mp recalculated with ⟨prio, _, rfl⟩
    exact slept

theorem schedule_sameSlices {now : ℕ} (scheduled : s.schedule now = some s') :
    s.SameSlices s' := by
  simp only [Sched.schedule, Option.bind_eq_bind, Option.bind_eq_some_iff] at scheduled
  rcases scheduled with ⟨next, _, nextTask, recalculated, scheduled⟩
  have ranked := (exchange_sameSlices s).trans
    (setTask_sameSlices next (recalcTaskPrio_timeSlice recalculated))
  generalize s.exchange.setTask next nextTask = s₁ at ranked scheduled
  have turn : ((s₁.tasks s.currentTask).endTurn ((s.tasks s.currentTask).runTime now)
    now).timeSlice = (s₁.tasks s.currentTask).timeSlice := rfl
  have ended := ranked.trans (setTask_sameSlices s.currentTask turn)
  split at scheduled
  · cases scheduled
    exact ended
  · cases scheduled
    exact ended.trans (setTask_sameSlices next rfl)

theorem findNextTask_sameSlices {now next : ℕ} (found : s.findNextTask now = some (next, s')) :
    s.SameSlices s' := by
  simp only [Sched.findNextTask, Option.bind_eq_bind, Option.bind_eq_some_iff,
    Option.some.injEq] at found
  rcases found with ⟨_, _, nextTask, recalculated, pair⟩
  cases pair
  have timeSlice := recalcTaskPrio_timeSlice recalculated
  exact (exchange_sameSlices s).trans (setTask_sameSlices next timeSlice)

/-- `basic_timeslice` gives a slice that is not over. -/
theorem basicTimeslice_isSlice {timeSlice : ℕ}
    (computed : s.basicTimeslice p = some (timeSlice, s')) :
    IsSlice timeSlice ∧ s.SameSlices s' := by
  unfold basicTimeslice at computed
  simp only at computed
  split at computed
  · -- between the bounds of a real-time task, which may be killed
    have isSlice : ∀ n : ℕ, IsSlice (if n < 500 then 500 else if n > 1200 then 1200 else n) := by
      intro n
      unfold IsSlice maxRtTimeslice
      split_ifs <;> omega
    split at computed
    · simp only [Option.bind_eq_bind, Option.bind_eq_some_iff, Option.some.injEq] at computed
      rcases computed with ⟨⟨code, s₁⟩, kills, pair⟩
      cases pair
      exact ⟨isSlice _, pcKill_sameSlices kills⟩
    · cases computed
      exact ⟨isSlice _, .refl _⟩
  · have isSlice : ∀ n : ℕ, IsSlice (if n < 1 then 1 else if n > 150 then 150 else n) := by
      intro n
      unfold IsSlice maxRtTimeslice
      split_ifs <;> omega
    cases computed
    exact ⟨isSlice _, .refl _⟩

theorem giveSlice_refilled (s : Sched) (p : ℕ) {timeSlice : ℕ} (isSlice : IsSlice timeSlice) :
    s.Refilled (s.giveSlice p timeSlice) p := by
  refine ⟨?_, fun q ne => ?_⟩
  · unfold giveSlice
    rw [setTask_self]
    exact isSlice
  · unfold giveSlice
    rw [setTask_of_ne s ne]

theorem refill_refilled (refills : s.refill p = some s') : s.Refilled s' p := by
  rcases Option.map_eq_some_iff.mp refills with ⟨⟨timeSlice, s₁⟩, computed, rfl⟩
  rcases basicTimeslice_isSlice computed with ⟨isSlice, same⟩
  exact (giveSlice_refilled s₁ p isSlice).after same

/-! ## The clock interrupt -/

theorem moveToExpired_refilled (moved : s.moveToExpired p = some s') : s.Refilled s' p := by
  rw [moveToExpired_eq] at moved
  rcases Option.map_eq_some_iff.mp moved with ⟨s₁, refills, rfl⟩
  have refilled := (refill_refilled refills).after (dequeueTask_sameSlices s p s.active)
  exact refilled.before (enqueueTask_sameSlices s₁ p s₁.expired)

theorem moveToTail_refilled (moved : s.moveToTail p = some s') : s.Refilled s' p := by
  rw [moveToTail_eq] at moved
  rcases Option.map_eq_some_iff.mp moved with ⟨s₁, refills, rfl⟩
  exact (refill_refilled refills).before (requeueTask_sameSlices s₁ p s₁.active)

theorem rrSliceOver_refilled (ended : s.rrSliceOver p = some s') : s.Refilled s' p := by
  simp only [rrSliceOver, Option.bind_eq_bind, Option.bind_eq_some_iff] at ended
  rcases ended with ⟨⟨timeSlice, s₁⟩, computed, ended⟩
  rcases basicTimeslice_isSlice computed with ⟨isSlice, same⟩
  have refilled := (giveSlice_refilled s₁ p isSlice).after same
  split at ended
  · exact refilled.trans (moveToExpired_refilled ended)
  · exact refilled.trans (moveToTail_refilled ended)

theorem sliceOver_refilled (ended : s.sliceOver p = some s') : s.Refilled s' p := by
  rw [sliceOver_eq] at ended
  rcases Option.map_eq_some_iff.mp ended with ⟨s₁, ranked, rfl⟩
  rcases Option.bind_eq_some_iff.mp ranked with ⟨prio, _, refills⟩
  have refilled := ((refill_refilled refills).after (setTask_sameSlices p rfl)).after
    (dequeueTask_sameSlices s p s.active)
  exact refilled.before (enqueueTask_sameSlices s₁ p s₁.expired)

/-- A task with time left spends a tick, and what is spent is not taken below zero. -/
theorem spendTick_refilled (isSlice : IsSlice (s.tasks s.currentTask).timeSlice)
    (notOver : sub32 (s.tasks s.currentTask).timeSlice 1 ≠ 0) :
    s.Refilled s.spendTick s.currentTask := by
  apply giveSlice_refilled
  rcases isSlice with ⟨pos, le⟩
  unfold maxRtTimeslice at le
  rw [sub32_one pos (by omega)] at notOver ⊢
  unfold IsSlice maxRtTimeslice
  omega

theorem tickAccount_slices {reschedule : Bool}
    (isSlice : (s.tasks s.currentTask).pid ≠ idlePid → IsSlice (s.tasks s.currentTask).timeSlice)
    (accounted : s.tickAccount = some (s', reschedule)) :
    s.SameSlices s' ∨ s.Refilled s' s.currentTask := by
  have spent : ∀ q, q ≠ s.currentTask → (s.spendTick.tasks q).timeSlice = (s.tasks q).timeSlice := by
    intro q ne
    unfold spendTick giveSlice
    rw [setTask_of_ne s ne]
  rw [tickAccount_eq] at accounted
  split_ifs at accounted with isIdle isExpired isPreempted isRt isRr isOver isOver
  · cases accounted
    exact Or.inl (.refl _)
  · cases accounted
    exact Or.inl (.refl _)
  · cases accounted
    exact Or.inl (.refl _)
  · rcases Option.map_eq_some_iff.mp accounted with ⟨s₁, ended, pair⟩
    cases pair
    have refilled := rrSliceOver_refilled ended
    exact Or.inr ⟨refilled.isSlice, fun q ne => (refilled.others q ne).trans (spent q ne)⟩
  · cases accounted
    exact Or.inr (spendTick_refilled (isSlice isIdle) isOver)
  · cases accounted
    exact Or.inl (.refl _)
  · rcases Option.map_eq_some_iff.mp accounted with ⟨s₁, ended, pair⟩
    cases pair
    have refilled := sliceOver_refilled ended
    exact Or.inr ⟨refilled.isSlice, fun q ne => (refilled.others q ne).trans (spent q ne)⟩
  · cases accounted
    exact Or.inr (spendTick_refilled (isSlice isIdle) isOver)

/-! ## New tasks -/

/-- A new task and its parent have time left, and no other slice differs. -/
structure SlicesSplit (s s' : Sched) (p : ℕ) : Prop where
  child : IsSlice (s'.tasks p).timeSlice
  parent : IsSlice (s'.tasks s.currentTask).timeSlice
  others : ∀ q, q ≠ p → q ≠ s.currentTask → (s'.tasks q).timeSlice = (s.tasks q).timeSlice

theorem SlicesSplit.before (halved : s.SlicesSplit s' p) (same : s'.SameSlices s'') :
    s.SlicesSplit s'' p := by
  refine ⟨?_, ?_, fun q notChild notParent => (same q).trans (halved.others q notChild notParent)⟩
  · rw [same p]
    exact halved.child
  · rw [same s.currentTask]
    exact halved.parent

theorem keepTick_refilled (le : (s.tasks s.currentTask).timeSlice ≤ maxRtTimeslice) :
    s.Refilled s.keepTick s.currentTask := by
  unfold keepTick
  split
  next => exact giveSlice_refilled s s.currentTask ⟨Nat.le_refl _, by decide⟩
  next left => exact ⟨⟨Nat.pos_of_ne_zero left, le⟩, fun q _ => rfl⟩

/-- The part of the parent may be zero until `sched_fork` looks at it. -/
theorem forkSlice_split (ne : s.currentTask ≠ p)
    (le : (s.tasks s.currentTask).timeSlice ≤ maxRtTimeslice)
    (pos : (s.tasks p).pid ≠ initPid → 1 ≤ (s.tasks s.currentTask).timeSlice)
    (forked : s.forkSlice p = some s') :
    s'.currentTask = s.currentTask ∧ IsSlice (s'.tasks p).timeSlice ∧
      (s'.tasks s.currentTask).timeSlice ≤ maxRtTimeslice ∧
      ∀ q, q ≠ p → q ≠ s.currentTask → (s'.tasks q).timeSlice = (s.tasks q).timeSlice := by
  rw [forkSlice_eq] at forked
  split at forked
  next isInit =>
    have refilled := refill_refilled forked
    rcases Option.map_eq_some_iff.mp forked with ⟨⟨timeSlice, s₁⟩, computed, rfl⟩
    have same := basicTimeslice_refused (Or.inr isInit) computed
    subst same
    refine ⟨rfl, refilled.isSlice, ?_, fun q notChild _ => refilled.others q notChild⟩
    rw [refilled.others _ ne]
    exact le
  next notInit =>
    cases forked
    have pos' := pos notInit
    unfold maxRtTimeslice at le
    have child : IsSlice (((s.tasks s.currentTask).timeSlice + 1) % 2 ^ 32 / 2) := by
      unfold IsSlice maxRtTimeslice
      omega
    have parent : (s.tasks s.currentTask).timeSlice / 2 ≤ maxRtTimeslice := by
      unfold maxRtTimeslice
      omega
    have last := giveSlice_refilled s p child
    have same := last.others _ ne
    refine ⟨rfl, ?_, ?_, fun q notChild notParent => ?_⟩
    · show ((setTask _ s.currentTask _).tasks p).timeSlice |> IsSlice
      rw [setTask_of_ne _ ne.symm]
      exact last.isSlice
    · show ((setTask _ s.currentTask _).tasks s.currentTask).timeSlice ≤ maxRtTimeslice
      rw [setTask_self]
      show ((s.giveSlice p _).tasks s.currentTask).timeSlice / 2 ≤ maxRtTimeslice
      rw [same]
      exact parent
    · show ((setTask _ s.currentTask _).tasks q).timeSlice = (s.tasks q).timeSlice
      rw [setTask_of_ne _ notParent]
      exact last.others q notChild

theorem schedFork_split (ne : s.currentTask ≠ p)
    (le : (s.tasks s.currentTask).timeSlice ≤ maxRtTimeslice)
    (pos : (s.tasks p).pid ≠ initPid → 1 ≤ (s.tasks s.currentTask).timeSlice)
    {setPrio : ℤ} {clock : ℕ} (forked : s.schedFork p setPrio clock = some s') :
    s.SlicesSplit s' p := by
  have ranked : s.SameSlices (s.forkPrio p setPrio) := setTask_sameSlices p rfl
  have pid : ((s.forkPrio p setPrio).tasks p).pid = (s.tasks p).pid := by
    unfold forkPrio
    rw [setTask_self]
  rw [schedFork_eq] at forked
  rcases Option.map_eq_some_iff.mp forked with ⟨s₁, sliced, rfl⟩
  have parent := ranked s.currentTask
  have current : (s.forkPrio p setPrio).currentTask = s.currentTask := rfl
  rcases forkSlice_split (by rw [current]; exact ne) (by rw [current, parent]; exact le)
    (by rw [current, parent, pid]; exact pos) sliced with ⟨isCurrent, child, isLe, others⟩
  rw [current] at isCurrent isLe others
  have kept := keepTick_refilled (s := s₁) (by rw [isCurrent]; exact isLe)
  rw [isCurrent] at kept
  have halved : s.SlicesSplit s₁.keepTick p := by
    refine ⟨?_, kept.isSlice, fun q notChild notParent => ?_⟩
    · rw [kept.others p ne.symm]
      exact child
    · rw [kept.others q notParent, others q notChild notParent, ranked q]
  exact halved.before (setTask_sameSlices p rfl)

theorem wakeUpNewTask_sameSlices (woken : s.wakeUpNewTask p = some s') : s.SameSlices s' := by
  rw [wakeUpNewTask_eq] at woken
  rcases Option.map_eq_some_iff.mp woken with ⟨prio, _, rfl⟩
  have ranked : s.SameSlices (s.setTask p { weighSleep (s.tasks p) childPenalty with prio }) :=
    setTask_sameSlices p rfl
  generalize s.setTask p { weighSleep (s.tasks p) childPenalty with prio } = s₁ at ranked ⊢
  have active : s₁.SameSlices (s₁.activateTask p) := enqueueTask_sameSlices s₁ p s₁.active
  exact (ranked.trans active).trans (setTask_sameSlices _ rfl)

/-- A fork that has memory splits the slice of the parent, or gives `init` its own. -/
theorem doFork_split (sane : s.Sane) (slices : s.Slices) {setPrio : ℤ} {starveCount clock pid : ℕ}
    (isPrio : ForkPrio setPrio)
    (first : s.FirstIsInit (.doFork setPrio (some starveCount) clock))
    (forked : s.doFork setPrio (some starveCount) clock = some (pid, s')) :
    s.SlicesSplit s' s.unused := by
  have used := sane.currentUsed
  have ne : s.currentTask ≠ s.unused := Nat.ne_of_lt used
  have made : s.SameSlices (s.makeTask starveCount) :=
    setTask_sameSlices (s := { s with
      unused := s.unused + 1
      pids := s.pids.pidAlloc.2
      processes := s.processes ++ [s.unused]
      nrProcess := s.nrProcess + 1 }) s.unused rfl
  have pid' : ((s.makeTask starveCount).tasks s.unused).pid = s.pids.pidAlloc.1 := by
    unfold makeTask
    rw [setTask_self]
  have parent := made s.currentTask
  rw [doFork_eq, if_neg fun refused => (not_or.mpr refused) isPrio] at forked
  rcases Option.map_eq_some_iff.mp forked with ⟨s₂, woken, pair⟩
  cases pair
  rcases Option.bind_eq_some_iff.mp woken with ⟨s₁, forked', woken'⟩
  have halved : (s.makeTask starveCount).SlicesSplit s₁ s.unused := by
    apply schedFork_split (s := s.makeTask starveCount) ne _ _ forked'
    · show ((s.makeTask starveCount).tasks s.currentTask).timeSlice ≤ maxRtTimeslice
      rw [parent]
      exact (slices _ used).1
    · show _ → 1 ≤ ((s.makeTask starveCount).tasks s.currentTask).timeSlice
      rw [pid', parent]
      intro notInit
      refine (slices _ used).2 (Or.inr ?_)
      have notFirst : s.unused ≠ 1 := fun isFirst => notInit (first isPrio isFirst)
      omega
  have halved' := halved.before (wakeUpNewTask_sameSlices woken')
  exact ⟨halved'.child, halved'.parent,
    fun q notChild notParent => (halved'.others q notChild notParent).trans (made q)⟩

/-! ## Runs -/

theorem Slices.same (slices : s.Slices) (unused : s'.unused = s.unused)
    (same : s.SameSlices s') : s'.Slices := by
  intro q isUsed
  rw [unused] at isUsed ⊢
  rw [same q]
  exact slices q isUsed

theorem Slices.refilled (slices : s.Slices) (unused : s'.unused = s.unused)
    (refilled : s.Refilled s' p) : s'.Slices := by
  intro q isUsed
  rw [unused] at isUsed ⊢
  by_cases isTask : q = p
  · subst isTask
    exact ⟨refilled.isSlice.2, fun _ => refilled.isSlice.1⟩
  · rw [refilled.others q isTask]
    exact slices q isUsed

theorem Slices.split (slices : s.Slices) (used : s.currentTask < s.unused)
    (unused : s'.unused = s.unused + 1) (halved : s.SlicesSplit s' s.unused) : s'.Slices := by
  intro q isUsed
  rw [unused] at isUsed
  by_cases isChild : q = s.unused
  · subst isChild
    exact ⟨halved.child.2, fun _ => halved.child.1⟩
  by_cases isParent : q = s.currentTask
  · subst isParent
    exact ⟨halved.parent.2, fun _ => halved.parent.1⟩
  · rw [halved.others q isChild isParent]
    have old := slices q (by omega)
    refine ⟨old.1, fun _ => old.2 ?_⟩
    -- two tasks that are different have been made before
    by_cases isIdle : q = initPc.currentTask
    · right
      omega
    · exact Or.inl isIdle

/-- The idle task has the identifier it was made with. -/
def IdleFirst (s : Sched) : Prop := (s.tasks initPc.currentTask).pid = idlePid

/-- No task is made and none gets another identifier. -/
structure SameMade (s s' : Sched) : Prop where
  unused : s'.unused = s.unused
  pid : ∀ q, (s'.tasks q).pid = (s.tasks q).pid

theorem SameMade.refl (s : Sched) : s.SameMade s := ⟨rfl, fun _ => rfl⟩

theorem SameMade.trans (first : s.SameMade s') (second : s'.SameMade s'') : s.SameMade s'' :=
  ⟨second.unused.trans first.unused, fun q => (second.pid q).trans (first.pid q)⟩

theorem Quiet.sameMade (quiet : s.Quiet s') : s.SameMade s' :=
  ⟨quiet.unused, fun q => (quiet.tasks q).pid⟩

theorem exchange_sameMade (s : Sched) : s.SameMade s.exchange := by
  rcases exchange_spec s with ⟨tasks, _, unused, _⟩
  refine ⟨unused, fun q => ?_⟩
  rw [tasks]

theorem deleteTask_sameMade (deleted : s.deleteTask p = some s') : s.SameMade s' := by
  refine ⟨?_, deleteTask_pid deleted⟩
  rcases Option.map_eq_some_iff.mp deleted with ⟨array, _, rfl⟩
  exact (dequeueTask_frame s p array).unused

theorem Ticked.unused (ticked : s.Ticked s') : s'.unused = s.unused := by
  cases ticked with
  | unchanged => rfl
  | spent timeSlice => rfl
  | expired timeSlice task ends renewed =>
      rw [move_eq]
      rfl
  | tail timeSlice ends isRt => rfl

theorem tick_slices {clock now : ℕ} (slices : s.Slices) (idleFirst : s.IdleFirst)
    (lists : s.Lists) (current : s.CurrentListed)
    (stepped : s.schedulerTick clock now = some s') :
    s.SameMade s' ∧ (s.SameSlices s' ∨ s.Refilled s' s.currentTask) := by
  rcases Option.bind_eq_some_iff.mp stepped with ⟨⟨s₁, reschedule⟩, accounted, rest⟩
  have lists₀ := lists.tick clock
  have spends : s.SameSlices s₁ ∨ s.Refilled s₁ s.currentTask := by
    let s₀ : Sched := { s with timestampLastTick := clock }
    have isSlice : (s₀.tasks s₀.currentTask).pid ≠ idlePid →
        IsSlice (s₀.tasks s₀.currentTask).timeSlice := by
      intro notIdle
      have own := slices _ lists.sane.currentUsed
      refine ⟨own.2 (Or.inl fun isFirst => notIdle ?_), own.1⟩
      show (s.tasks s.currentTask).pid = idlePid
      rw [isFirst]
      exact idleFirst
    rcases tickAccount_slices isSlice accounted with same | refilled
    · exact Or.inl same
    · exact Or.inr ⟨refilled.isSlice, refilled.others⟩
  rcases tickAccount_cases (lists₀.sane.valid _ lists₀.sane.currentUsed) with
    ⟨s₂, _, accounted', ticked⟩
  rw [accounted] at accounted'
  cases accounted'
  have made : s.SameMade s₁ := ⟨ticked.unused, (ticked.lists lists₀ current).2.2.2.2⟩
  cases reschedule with
  | false =>
      cases rest
      exact ⟨made, spends⟩
  | true =>
      have same := schedule_sameSlices rest
      refine ⟨made.trans ((exchange_sameMade s₁).trans (schedule_quiet rest).1.sameMade), ?_⟩
      exact spends.imp (fun unchanged => unchanged.trans same) fun refilled =>
        refilled.before same

theorem pcExit_slices {now : ℕ} (exited : s.pcExit now = some s') :
    s.SameMade s' ∧ s.SameSlices s' := by
  rcases pcExit_cases exited with ⟨s₁, s₂, next, pids, deleted, found, _, rfl⟩
  have made := (deleteTask_sameMade deleted).trans
    ((exchange_sameMade s₁).trans (findNextTask_quiet found).1.sameMade)
  have same := (deleteTask_sameSlices deleted).trans (findNextTask_sameSlices found)
  exact ⟨⟨made.unused, made.pid⟩, same⟩

/-- The slices after a call. -/
theorem Slices.step (slices : s.Slices) (idleFirst : s.IdleFirst) (lists : s.Lists)
    (current : s.CurrentListed) {op : SchedOp} (first : s.FirstIsInit op)
    (stepped : s.step op = some s') : s'.Slices ∧ s'.IdleFirst := by
  have kept : s.SameMade s' → s'.IdleFirst := fun made => (made.pid _).trans idleFirst
  cases op with
  | doFork setPrio memory clock =>
      rcases Option.map_eq_some_iff.mp stepped with ⟨⟨pid, s₂⟩, forked, rfl⟩
      by_cases isPrio : ForkPrio setPrio
      · cases memory with
        | none =>
            rw [doFork_noMemory isPrio] at forked
            rcases Option.map_eq_some_iff.mp forked with ⟨pids, _, pair⟩
            cases pair
            exact ⟨slices, idleFirst⟩
        | some starveCount =>
            have halved := doFork_split lists.sane slices isPrio first forked
            rcases lists.doFork isPrio forked with ⟨_, _, _, _, _, others, _⟩
            rcases doFork_made lists.sane isPrio starveCount clock with
              ⟨s₁, s₃, forked', born, quiet, _⟩
            rw [forked'] at forked
            cases forked
            have used := lists.sane.currentUsed
            have isUnused : s₂.unused = s.unused + 1 := quiet.unused.trans born.unused
            refine ⟨slices.split used isUnused halved, ?_⟩
            have ne : initPc.currentTask ≠ s.unused :=
              Nat.ne_of_lt (Nat.lt_of_le_of_lt (Nat.zero_le _) used)
            exact (others _ ne).trans idleFirst
      · rw [doFork_refused isPrio] at forked
        cases forked
        exact ⟨slices, idleFirst⟩
  | schedulerTick clock now =>
      rcases tick_slices slices idleFirst lists current stepped with ⟨made, same | refilled⟩
      · exact ⟨slices.same made.unused same, kept made⟩
      · exact ⟨slices.refilled made.unused refilled, kept made⟩
  | schedule now =>
      have made := (exchange_sameMade s).trans (schedule_quiet stepped).1.sameMade
      exact ⟨slices.same made.unused (schedule_sameSlices stepped), kept made⟩
  | pcExit now =>
      rcases pcExit_slices stepped with ⟨made, same⟩
      exact ⟨slices.same made.unused same, kept made⟩
  | pcKill pid =>
      rcases Option.map_eq_some_iff.mp stepped with ⟨⟨code, s₂⟩, kills, rfl⟩
      have same := pcKill_sameSlices kills
      rcases pcKill_cases kills with rfl | ⟨p, s₁, pids, _, _, _, _, _, deleted, _, _, rfl⟩
      · exact ⟨slices, idleFirst⟩
      · have made := deleteTask_sameMade deleted
        exact ⟨slices.same made.unused same, (made.pid _).trans idleFirst⟩

theorem initPc_slices : initPc.Slices ∧ initPc.IdleFirst := by
  refine ⟨fun p used => ⟨Nat.zero_le _, ?_⟩, rfl⟩
  rintro (notFirst | made)
  · exact absurd (Nat.lt_one_iff.mp used) notFirst
  · exact absurd made (Nat.lt_irrefl 1)

/--
In every run whose first task is `init`, every other task than the idle one has time left in
every state reached, the idle task has once a task has been made, and taking a tick off the slice
of a running task that is not the idle one does not wrap.
-/
theorem slices_of_reach (s : Sched) (reached : GuardedReach step FirstIsInit (· = initPc) s) :
    (∀ p < s.unused, p ≠ initPc.currentTask → 1 ≤ (s.tasks p).timeSlice) ∧
      (1 < s.unused → 1 ≤ (s.tasks initPc.currentTask).timeSlice) ∧
      ((s.tasks s.currentTask).pid ≠ idlePid →
        sub32 (s.tasks s.currentTask).timeSlice 1 + 1 = (s.tasks s.currentTask).timeSlice) := by
  let inv : Sched → Prop := fun s =>
    (s.Slices ∧ s.IdleFirst) ∧ s.Lists ∧ s.CurrentListed
  have all : inv s := by
    apply reached.invariant
    · intro s start
      rw [start]
      exact ⟨initPc_slices, initPc_lists, fun notIdle => absurd rfl notIdle⟩
    · rintro s op s' ⟨⟨slices, idleFirst⟩, lists, current⟩ first stepped
      exact ⟨slices.step idleFirst lists current first stepped, lists.step current stepped⟩
  rcases all with ⟨⟨slices, idleFirst⟩, lists, _⟩
  refine ⟨fun p used notIdle => (slices p used).2 (Or.inl notIdle), fun made => ?_, ?_⟩
  · exact (slices _ (Nat.lt_trans Nat.zero_lt_one made)).2 (Or.inr made)
  · intro notIdle
    have own := slices _ lists.sane.currentUsed
    have pos : 1 ≤ (s.tasks s.currentTask).timeSlice := by
      refine own.2 (Or.inl fun isFirst => notIdle ?_)
      rw [isFirst]
      exact idleFirst
    have le : (s.tasks s.currentTask).timeSlice ≤ maxRtTimeslice := own.1
    unfold maxRtTimeslice at le
    rw [sub32_one pos (by omega)]
    omega

/-- The idle task has one tick after the first fork, and the new task a slice of its own. -/
theorem slices_of_reach_forked : ∃ s : Sched, s.unused = 2 ∧
    1 ≤ (s.tasks initPc.currentTask).timeSlice ∧ 1 ≤ (s.tasks 1).timeSlice := by
  have forks : (initPc.step (.doFork 55 (some 0) 0)).map (·.unused) = some 2 := by
    decide +kernel
  rcases Option.map_eq_some_iff.mp forks with ⟨s, forked, made⟩
  have first : initPc.FirstIsInit (.doFork 55 (some 0) 0) := fun _ _ => by decide
  have reached : GuardedReach step FirstIsInit (· = initPc) s := .step (.start rfl) first forked
  have slices := slices_of_reach s reached
  exact ⟨s, made, slices.2.1 (by omega), slices.1 1 (by omega) (by decide)⟩

end Sched

end Ninix.Process
