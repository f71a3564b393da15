import Mathlib.Algebra.Order.BigOperators.Group.List
import Ninix.Library.Counting
import Ninix.Library.Ranking
import Ninix.Process.Fork
import Ninix.Process.Selection
import Ninix.Process.SleepAverage
import Ninix.Process.TimeSlice

/-!
# No task starves

The clock interrupt takes a tick off the task that runs, and a task leaves the active array only
when it runs and its slice is over. So the ticks left in the active array fall until it is empty
and the arrays swap roles. As long as no task is a real-time task and the chosen ones keep their
priorities, every task comes to run.
-/

namespace Ninix.Process

open TransitionSystem

namespace Sched

variable {s s' s'' : Sched} {p q : ℕ}

/-! ## Priorities -/

/-- A condition on the priority of a task that `dynamic_prio` meets. -/
def PrioRule (rule : ℕ → ℕ → ℕ → Prop) : Prop :=
  ∀ q (task : Task) prio, rule q task.staticPrio task.prio → task.isRtTask = false →
    task.dynamicPrio = some prio → rule q task.staticPrio prio

/-- All tasks meet the condition. -/
def Follows (s : Sched) (rule : ℕ → ℕ → ℕ → Prop) : Prop :=
  ∀ q, rule q (s.tasks q).staticPrio (s.tasks q).prio

/-- No priority differs. -/
def SameRanks (s s' : Sched) : Prop :=
  ∀ q, (s'.tasks q).staticPrio = (s.tasks q).staticPrio ∧ (s'.tasks q).prio = (s.tasks q).prio

theorem SameRanks.refl (s : Sched) : s.SameRanks s := fun _ => ⟨rfl, rfl⟩

theorem SameRanks.trans (first : s.SameRanks s') (second : s'.SameRanks s'') :
    s.SameRanks s'' :=
  fun q => ⟨(second q).1.trans (first q).1, (second q).2.trans (first q).2⟩

theorem setTask_sameRanks (p : ℕ) {task : Task}
    (staticPrio : task.staticPrio = (s.tasks p).staticPrio)
    (prio : task.prio = (s.tasks p).prio) : s.SameRanks (s.setTask p task) := by
  intro q
  by_cases isTask : q = p
  · subst isTask
    rw [setTask_self]
    exact ⟨staticPrio, prio⟩
  · rw [setTask_of_ne s isTask]
    exact ⟨rfl, rfl⟩

theorem giveSlice_sameRanks (s : Sched) (p timeSlice : ℕ) :
    s.SameRanks (s.giveSlice p timeSlice) := setTask_sameRanks p rfl rfl

theorem enqueueTask_sameRanks (s : Sched) (p : ℕ) (array : ArrayId) :
    s.SameRanks (s.enqueueTask p array) := by
  intro q
  rw [enqueueTask_tasks]
  by_cases isTask : q = p
  · subst isTask
    rw [Function.update_self]
    exact ⟨rfl, rfl⟩
  · rw [Function.update_of_ne isTask]
    exact ⟨rfl, rfl⟩

theorem dequeueTask_sameRanks (s : Sched) (p : ℕ) (array : ArrayId) :
    s.SameRanks (s.dequeueTask p array) := by
  intro q
  rw [dequeueTask_tasks]
  by_cases isTask : q = p
  · subst isTask
    rw [Function.update_self]
    exact ⟨rfl, rfl⟩
  · rw [Function.update_of_ne isTask]
    exact ⟨rfl, rfl⟩

theorem exchange_sameRanks (s : Sched) : s.SameRanks s.exchange := by
  intro q
  rw [(exchange_spec s).1]
  exact ⟨rfl, rfl⟩

theorem deleteTask_sameRanks (deleted : s.deleteTask p = some s') : s.SameRanks s' := by
  rcases Option.map_eq_some_iff.mp deleted with ⟨array, _, rfl⟩
  exact dequeueTask_sameRanks s p array

theorem pcKill_sameRanks {pid code : ℕ} (kills : s.pcKill pid = some (code, s')) :
    s.SameRanks s' := by
  rcases pcKill_cases kills with rfl | ⟨p, s₁, pids, _, _, _, _, _, deleted, _, _, rfl⟩
  · exact .refl _
  · exact SameRanks.trans (deleteTask_sameRanks deleted) fun _ => ⟨rfl, rfl⟩

theorem refill_sameRanks (refills : s.refill p = some s') : s.SameRanks s' := by
  rcases Option.map_eq_some_iff.mp refills with ⟨⟨timeSlice, s₁⟩, computed, rfl⟩
  have same : s.SameRanks s₁ := by
    unfold basicTimeslice at computed
    simp only at computed
    split at computed
    · split at computed
      · simp only [Option.bind_eq_bind, Option.bind_eq_some_iff, Option.some.injEq] at computed
        rcases computed with ⟨⟨code, s₂⟩, kills, pair⟩
        cases pair
        exact pcKill_sameRanks kills
      · cases computed
        exact .refl _
    · cases computed
      exact .refl _
  exact same.trans (giveSlice_sameRanks s₁ p timeSlice)

variable {rule : ℕ → ℕ → ℕ → Prop}

theorem Follows.same (follows : s.Follows rule) (same : s.SameRanks s') : s'.Follows rule := by
  intro q
  rw [(same q).1, (same q).2]
  exact follows q

theorem Follows.setTask (follows : s.Follows rule) {task : Task}
    (here : rule p task.staticPrio task.prio) : (s.setTask p task).Follows rule := by
  intro q
  by_cases isTask : q = p
  · subst isTask
    rw [setTask_self]
    exact here
  · rw [setTask_of_ne s isTask]
    exact follows q

theorem Follows.recalculated (follows : s.Follows rule) (isRule : PrioRule rule) {now : ℕ}
    {task : Task} (recalculated : (s.tasks p).recalcTaskPrio now = some task) :
    rule p task.staticPrio task.prio := by
  have slept := (s.tasks p).addSleep_same now
  rcases Task.recalcTaskPrio_spec recalculated with ⟨prio, rfl, ⟨isRt, rfl⟩ | ⟨normal, isPrio⟩⟩
  · show rule p ((s.tasks p).addSleep now).staticPrio (s.tasks p).prio
    rw [slept.staticPrio]
    exact follows p
  · refine isRule p ((s.tasks p).addSleep now) prio ?_ (slept.isRtTask.trans normal) isPrio
    rw [slept.staticPrio, slept.prio]
    exact follows p

theorem Follows.schedule (follows : s.Follows rule) (isRule : PrioRule rule) {now : ℕ}
    (scheduled : s.schedule now = some s') : s'.Follows rule := by
  simp only [Sched.schedule, Option.bind_eq_bind, Option.bind_eq_some_iff] at scheduled
  rcases scheduled with ⟨next, _, nextTask, recalculated, scheduled⟩
  have swapped := follows.same (exchange_sameRanks s)
  have chosen := swapped.setTask (swapped.recalculated isRule recalculated)
  generalize s.exchange.setTask next nextTask = s₁ at chosen scheduled
  have turn : ((s₁.tasks s.currentTask).endTurn ((s.tasks s.currentTask).runTime now)
    now).staticPrio = (s₁.tasks s.currentTask).staticPrio := rfl
  have ended := chosen.same (setTask_sameRanks s.currentTask turn rfl)
  split at scheduled
  · cases scheduled
    exact ended
  · cases scheduled
    exact ended.same (setTask_sameRanks next rfl rfl)

theorem Follows.findNextTask (follows : s.Follows rule) (isRule : PrioRule rule) {now next : ℕ}
    (found : s.findNextTask now = some (next, s')) : s'.Follows rule := by
  simp only [Sched.findNextTask, Option.bind_eq_bind, Option.bind_eq_some_iff,
    Option.some.injEq] at found
  rcases found with ⟨_, _, nextTask, recalculated, pair⟩
  cases pair
  have swapped := follows.same (exchange_sameRanks s)
  have here := swapped.recalculated isRule recalculated
  exact swapped.setTask (p := next) here

theorem Follows.rrSliceOver (follows : s.Follows rule) (ended : s.rrSliceOver p = some s') :
    s'.Follows rule := by
  have refilled : ∀ {s₁ : Sched}, s.refill p = some s₁ →
      (s₁.moveToExpired p = some s' ∨ s₁.moveToTail p = some s') → s'.Follows rule := by
    rintro s₁ refills (moved | moved)
    · rw [moveToExpired_eq] at moved
      rcases Option.map_eq_some_iff.mp moved with ⟨s₂, again, rfl⟩
      exact (((follows.same (refill_sameRanks refills)).same (dequeueTask_sameRanks s₁ p _)).same
        (refill_sameRanks again)).same (enqueueTask_sameRanks s₂ p _)
    · rw [moveToTail_eq] at moved
      rcases Option.map_eq_some_iff.mp moved with ⟨s₂, again, rfl⟩
      have tail := (follows.same (refill_sameRanks refills)).same (refill_sameRanks again)
      exact tail
  simp only [Sched.rrSliceOver, Option.bind_eq_bind, Option.bind_eq_some_iff] at ended
  rcases ended with ⟨⟨timeSlice, s₁⟩, computed, ended⟩
  have refills : s.refill p = some (s₁.giveSlice p timeSlice) := by
    rw [refill, computed]
    rfl
  split at ended
  · exact refilled refills (Or.inl ended)
  · exact refilled refills (Or.inr ended)

theorem Follows.sliceOver (follows : s.Follows rule) (isRule : PrioRule rule)
    (normal : (s.tasks p).isRtTask = false) (ended : s.sliceOver p = some s') :
    s'.Follows rule := by
  rw [sliceOver_eq] at ended
  rcases Option.map_eq_some_iff.mp ended with ⟨s₁, ranked, rfl⟩
  rcases Option.bind_eq_some_iff.mp ranked with ⟨prio, isPrio, refills⟩
  have taken := follows.same (dequeueTask_sameRanks s p s.active)
  have normal' : ((s.dequeueTask p s.active).tasks p).isRtTask = false := by
    rw [Task.isRtTask, (dequeueTask_sameRanks s p s.active p).1]
    exact normal
  have here := isRule p _ prio (taken p) normal' isPrio
  exact ((taken.setTask (p := p) here).same (refill_sameRanks refills)).same
    (enqueueTask_sameRanks s₁ p s₁.expired)

theorem Follows.tickAccount (follows : s.Follows rule) (isRule : PrioRule rule)
    {reschedule : Bool} (accounted : s.tickAccount = some (s', reschedule)) :
    s'.Follows rule := by
  have spent : s.spendTick.Follows rule := follows.same (giveSlice_sameRanks s s.currentTask _)
  rw [tickAccount_eq] at accounted
  split_ifs at accounted with isIdle isExpired isPreempted isRt isRr isOver isOver
  · cases accounted
    exact follows
  · cases accounted
    exact follows
  · cases accounted
    exact follows
  · rcases Option.map_eq_some_iff.mp accounted with ⟨s₁, ended, pair⟩
    cases pair
    exact spent.rrSliceOver ended
  · cases accounted
    exact spent
  · cases accounted
    exact follows
  · rcases Option.map_eq_some_iff.mp accounted with ⟨s₁, ended, pair⟩
    cases pair
    refine spent.sliceOver isRule ?_ ended
    rw [spendTick, giveSlice, setTask_self]
    exact Bool.eq_false_iff.mpr isRt
  · cases accounted
    exact spent

theorem Follows.schedulerTick (follows : s.Follows rule) (isRule : PrioRule rule)
    {clock now : ℕ} (ticked : s.schedulerTick clock now = some s') : s'.Follows rule := by
  rcases Option.bind_eq_some_iff.mp ticked with ⟨⟨s₁, reschedule⟩, accounted, rest⟩
  have follows₁ := Follows.tickAccount (s := s.atTick clock) follows isRule accounted
  cases reschedule with
  | false =>
      cases rest
      exact follows₁
  | true => exact follows₁.schedule isRule rest

theorem Follows.schedFork (follows : s.Follows rule) (fresh : ∀ q prio, rule q prio prio)
    {setPrio : ℤ} {clock : ℕ} (forked : s.schedFork p setPrio clock = some s') :
    s'.Follows rule := by
  rw [schedFork_eq] at forked
  rcases Option.map_eq_some_iff.mp forked with ⟨s₁, sliced, rfl⟩
  have ranked : (s.forkPrio p setPrio).Follows rule := follows.setTask (fresh p _)
  have follows₁ : s₁.Follows rule := by
    rw [forkSlice_eq] at sliced
    split at sliced
    · exact ranked.same (refill_sameRanks sliced)
    · cases sliced
      exact (ranked.same (giveSlice_sameRanks _ p _)).same (giveSlice_sameRanks _ _ _)
  have kept : s₁.keepTick.Follows rule := by
    unfold keepTick
    split
    · exact follows₁.same (giveSlice_sameRanks s₁ _ 1)
    · exact follows₁
  exact kept.same (setTask_sameRanks p rfl rfl)

theorem Follows.wakeUpNewTask (follows : s.Follows rule) (isRule : PrioRule rule)
    (woken : s.wakeUpNewTask p = some s') : s'.Follows rule := by
  rw [wakeUpNewTask_eq] at woken
  rcases Option.map_eq_some_iff.mp woken with ⟨prio, isPrio, rfl⟩
  have here : rule p (s.tasks p).staticPrio prio := by
    unfold wakePrio at isPrio
    split at isPrio
    · cases isPrio
      exact follows p
    next notRt =>
      exact isRule p (weighSleep (s.tasks p) childPenalty) prio (follows p)
        (Bool.eq_false_iff.mpr notRt) isPrio
  have ranked : (s.setTask p { weighSleep (s.tasks p) childPenalty with prio }).Follows rule :=
    follows.setTask here
  exact (ranked.same (enqueueTask_sameRanks _ p _)).same (setTask_sameRanks _ rfl rfl)

/-- A call keeps the condition, if the priorities that `sched_fork` gives meet it. -/
theorem Follows.step (follows : s.Follows rule) (isRule : PrioRule rule)
    (fresh : ∀ q prio, rule q prio prio) {op : SchedOp} (stepped : s.step op = some s') :
    s'.Follows rule := by
  cases op with
  | doFork setPrio memory clock =>
      rcases Option.map_eq_some_iff.mp stepped with ⟨⟨pid, s₂⟩, forked, rfl⟩
      by_cases isPrio : ForkPrio setPrio
      · cases memory with
        | none =>
            rw [doFork_noMemory isPrio] at forked
            rcases Option.map_eq_some_iff.mp forked with ⟨pids, _, pair⟩
            cases pair
            exact follows
        | some starveCount =>
            rw [doFork_eq, if_neg fun refused => (not_or.mpr refused) isPrio] at forked
            rcases Option.map_eq_some_iff.mp forked with ⟨s₁, woken, pair⟩
            cases pair
            rcases Option.bind_eq_some_iff.mp woken with ⟨s₂, forked', woken'⟩
            have made : (s.makeTask starveCount).Follows rule :=
              follows.same (setTask_sameRanks (s := { s with
                unused := s.unused + 1
                pids := s.pids.pidAlloc.2
                processes := s.processes ++ [s.unused]
                nrProcess := s.nrProcess + 1 }) s.unused rfl rfl)
            exact (made.schedFork fresh forked').wakeUpNewTask isRule woken'
      · rw [doFork_refused isPrio] at forked
        cases forked
        exact follows
  | schedulerTick clock now => exact follows.schedulerTick isRule stepped
  | schedule now => exact follows.schedule isRule stepped
  | pcExit now =>
      rcases pcExit_cases stepped with ⟨s₁, s₂, next, pids, deleted, found, _, rfl⟩
      have found' := (follows.same (deleteTask_sameRanks deleted)).findNextTask isRule found
      exact found'
  | pcKill pid =>
      rcases Option.map_eq_some_iff.mp stepped with ⟨⟨code, s₂⟩, kills, rfl⟩
      exact follows.same (pcKill_sameRanks kills)

/-- The priority of a normal task is that of a normal task. -/
def AboveRt (_ staticPrio prio : ℕ) : Prop := maxRtPrio < staticPrio → maxRtPrio < prio

theorem aboveRt_prioRule : PrioRule AboveRt := by
  rintro q task prio _ normal isPrio _
  rw [dynamicPrio_of_normal normal] at isPrio
  rcases Option.map_eq_some_iff.mp isPrio with ⟨bonus, _, rfl⟩
  exact (prioOfBonus_isNormalPrio task.staticPrio bonus).1

/-! ## States in order -/

/-- What every state reached has that a list or a counter depends on. -/
structure Orderly (s : Sched) : Prop where
  inv : s.Inv
  indexed : s.Indexed
  lists : s.Lists
  current : s.CurrentListed
  accounts : s.Accounts
  notIdle : ∀ p ∈ s.processes, (s.tasks p).pid ≠ idlePid
  aboveRt : s.Follows AboveRt

/-- A state in order in which every task has time left. -/
structure Fair (s : Sched) : Prop extends s.Orderly where
  held : s.PidsHeld
  slices : s.Slices
  idleFirst : s.IdleFirst

/-- The calls that choose steady tasks only, in the circumstances of a call, and make `init`
first. -/
def Proper (s : Sched) (op : SchedOp) : Prop := s.Steady op ∧ s.Admits op ∧ s.FirstIsInit op

theorem Inv.tidy (inv : s.Inv) (p : ℕ) : s.Tidy p := by
  intro array i alone
  have mem : p ∈ (s.arrays array).queue i := by
    rw [alone]
    exact List.mem_singleton_self p
  exact (inv.queues.agrees array i p mem).prio

theorem Inv.tidies (inv : s.Inv) (op : SchedOp) : s.Tidies op := by
  cases op with
  | doFork setPrio memory clock => trivial
  | schedulerTick clock now => exact fun _ => inv.tidy _
  | schedule now => trivial
  | pcExit now => exact inv.tidy _
  | pcKill pid => exact fun p _ => inv.tidy p

theorem pidAlloc_ne_idle {map : PidMap} (inside : 1 ≤ map.nextPid ∧ map.nextPid < pidNum) :
    map.pidAlloc.1 ≠ idlePid := by
  rcases map.pidAlloc_spec inside with ⟨pid, nextPid, allocated, lower, _⟩ | ⟨allocated, _⟩
  · rw [allocated]
    exact Nat.ne_of_gt lower
  · rw [allocated]
    exact (by decide : 2 ^ 32 - 1 ≠ idlePid)

/-- No process has the identifier of the idle task. -/
theorem notIdle_step (lists : s.Lists) (current : s.CurrentListed) (held : s.PidsHeld)
    (notIdle : ∀ p ∈ s.processes, (s.tasks p).pid ≠ idlePid) {op : SchedOp}
    (stepped : s.step op = some s') : ∀ p ∈ s'.processes, (s'.tasks p).pid ≠ idlePid := by
  have same : (∀ q, q ∈ s'.processes → q ∈ s.processes) →
      (∀ q, (s'.tasks q).pid = (s.tasks q).pid) →
      ∀ p ∈ s'.processes, (s'.tasks p).pid ≠ idlePid := by
    intro processes pid p isProcess
    rw [pid]
    exact notIdle p (processes p isProcess)
  cases op with
  | doFork setPrio memory clock =>
      rcases Option.map_eq_some_iff.mp stepped with ⟨⟨pid, s₂⟩, forked, rfl⟩
      by_cases isPrio : ForkPrio setPrio
      · cases memory with
        | none =>
            rw [doFork_noMemory isPrio] at forked
            rcases Option.map_eq_some_iff.mp forked with ⟨pids, _, pair⟩
            cases pair
            exact notIdle
        | some starveCount =>
            rcases lists.doFork isPrio forked with
              ⟨_, processes, _, _, isPid, others, pid'⟩
            intro p isProcess
            rw [processes, List.mem_append, List.mem_singleton] at isProcess
            rcases isProcess with old | rfl
            · have ne : p ≠ s.unused := fun isNew => lists.sane.notProcess (isNew ▸ old)
              rw [others p ne]
              exact notIdle p old
            · rw [pid', isPid]
              exact pidAlloc_ne_idle held.next
      · rw [doFork_refused isPrio] at forked
        cases forked
        exact notIdle
  | schedulerTick clock now =>
      rcases Option.bind_eq_some_iff.mp stepped with ⟨⟨s₁, reschedule⟩, accounted, rest⟩
      have lists₀ := lists.tick clock
      rcases tickAccount_cases (lists₀.sane.valid _ lists₀.sane.currentUsed) with
        ⟨s₂, _, accounted', ticked⟩
      rw [accounted] at accounted'
      cases accounted'
      rcases ticked.lists lists₀ current with ⟨_, processes, _, _, pid⟩
      cases reschedule with
      | false =>
          cases rest
          exact same (fun q mem => processes ▸ mem) pid
      | true =>
          rcases schedule_quiet rest with ⟨quiet, _⟩
          have processes' := (quiet.processes.trans (exchange_processes s₁)).trans processes
          refine same (fun q mem => processes' ▸ mem) fun q => ?_
          rw [(quiet.tasks q).pid, (exchange_spec s₁).1]
          exact pid q
  | schedule now =>
      rcases schedule_quiet stepped with ⟨quiet, _⟩
      have processes := quiet.processes.trans (exchange_processes s)
      refine same (fun q mem => processes ▸ mem) fun q => ?_
      rw [(quiet.tasks q).pid, (exchange_spec s).1]
  | pcExit now =>
      rcases pcExit_cases stepped with ⟨s₁, s₂, next, pids, deleted, found, _, rfl⟩
      rcases findNextTask_quiet found with ⟨quiet, _⟩
      have processes := (quiet.processes.trans (exchange_processes s₁)).trans
        (lists.deleteTask deleted).2
      refine same (fun q mem => ?_) fun q => ?_
      · change q ∈ s₂.processes at mem
        rw [processes] at mem
        exact List.mem_of_mem_erase mem
      · show (s₂.tasks q).pid = (s.tasks q).pid
        rw [(quiet.tasks q).pid, (exchange_spec s₁).1]
        exact deleteTask_pid deleted q
  | pcKill pid =>
      rcases Option.map_eq_some_iff.mp stepped with ⟨⟨code, s₂⟩, kills, rfl⟩
      rcases pcKill_cases kills with rfl | ⟨p, s₁, pids, _, _, _, _, _, deleted, _, _, rfl⟩
      · exact notIdle
      · have pid' := deleteTask_pid deleted
        refine same (fun q mem => ?_) pid'
        change q ∈ s₁.processes at mem
        rw [(lists.deleteTask deleted).2] at mem
        exact List.mem_of_mem_erase mem

theorem Fair.step (fair : s.Fair) {op : SchedOp} (proper : s.Proper op)
    (stepped : s.step op = some s') : s'.Fair := by
  rcases proper with ⟨steady, admits, first⟩
  rcases fair.lists.step fair.current stepped with ⟨lists, current⟩
  rcases fair.slices.step fair.idleFirst fair.lists fair.current first stepped with
    ⟨slices, idleFirst⟩
  refine ⟨⟨(fair.inv.step stepped).1 steady, ?_, lists, current, ?_, ?_, ?_⟩, ?_, slices,
    idleFirst⟩
  · exact fair.indexed.step fair.lists fair.current (fair.inv.tidies op) stepped
  · exact fair.accounts.step fair.lists.sane admits stepped
  · exact notIdle_step fair.lists fair.current fair.held fair.notIdle stepped
  · exact fair.aboveRt.step aboveRt_prioRule (fun _ _ above => above) stepped
  · exact fair.held.step fair.lists fair.current stepped

theorem initPc_fair : initPc.Fair := by
  refine ⟨⟨initPc_inv, fun array => ?_, initPc_lists, fun notIdle => absurd rfl notIdle,
    initPc_accounts, fun p mem => ?_, fun q _ => ?_⟩, initPc_pidsHeld, initPc_slices.1,
    initPc_slices.2⟩
  · exact ⟨fun i _ => by simp [initPc, ByteMap.isSet], Nat.le_refl _,
      fun lt => absurd lt (Nat.lt_irrefl _), fun _ _ => rfl⟩
  · simp [initPc] at mem
  · show maxRtPrio < maxPrio
    decide

theorem fair_of_reach (reached : GuardedReach step Proper (· = initPc) s) : s.Fair := by
  refine reached.invariant (fun s start => ?_) fun s op s' fair proper stepped =>
    fair.step proper stepped
  rw [start]
  exact initPc_fair

/-! ## The clock interrupt -/

/-- The running task is one of the highest queue of the active array. -/
def Served (s : Sched) : Prop :=
  (s.tasks s.currentTask).pid ≠ idlePid ∧ (s.tasks s.currentTask).array ≠ some s.expired ∧
    ¬(s.arrays s.active).highestPrio < (s.tasks s.currentTask).effectivePrio

instance (s : Sched) : Decidable s.Served := inferInstanceAs (Decidable (_ ∧ _ ∧ _))

/-- The ticks a task has left in the active array. -/
def leftOf (s : Sched) (p : ℕ) : ℕ :=
  if (s.tasks p).array = some s.active then (s.tasks p).timeSlice else 0

/-- The ticks all tasks have left in the active array. -/
def left (s : Sched) : ℕ := (s.processes.map s.leftOf).sum

/-- No process is a real-time task. -/
def NoRt (s : Sched) : Prop := ∀ p ∈ s.processes, (s.tasks p).isRtTask = false

/-- What the accounting of the clock interrupt and the choice of a task leave as they are. -/
structure SamePlaces (s s' : Sched) : Prop where
  processes : s'.processes = s.processes
  array : ∀ q, (s'.tasks q).array = (s.tasks q).array
  timeSlice : ∀ q, (s'.tasks q).timeSlice = (s.tasks q).timeSlice
  isRtTask : ∀ q, (s'.tasks q).isRtTask = (s.tasks q).isRtTask

theorem tickAccount_waits (waits : ¬s.Served) : s.tickAccount = some (s, true) := by
  rw [tickAccount_eq]
  split_ifs with isIdle isExpired isPreempted
  · rfl
  · rfl
  · rfl
  all_goals exact absurd ⟨isIdle, isExpired, isPreempted⟩ waits

theorem Orderly.current_process (orderly : s.Orderly) (served : s.Served) :
    s.currentTask ∈ s.processes := orderly.current served.1

/-- The running task is in the active array. -/
theorem Orderly.served_active (orderly : s.Orderly) (served : s.Served) :
    (s.tasks s.currentTask).array = some s.active := by
  rcases orderly.lists.queued _ (orderly.current_process served) with ⟨array, i, isAt⟩
  have notExpired : array ≠ s.expired := by
    rintro rfl
    exact served.2.1 isAt.2.1
  rw [isAt.2.1, eq_of_ne_of_ne orderly.inv.distinct notExpired]

theorem tickAccount_served (fair : s.Fair) (noRt : s.NoRt) (served : s.Served) :
    s.tickAccount = some (s.withSlice ((s.tasks s.currentTask).timeSlice - 1), false) ∧
        1 < (s.tasks s.currentTask).timeSlice ∨
      ∃ task, s.tickAccount = some ((s.withSlice 0).move s.currentTask s.active s.expired task,
          true) ∧ (s.tasks s.currentTask).timeSlice = 1 ∧
        task.staticPrio = (s.tasks s.currentTask).staticPrio ∧ IsSlice task.timeSlice := by
  have isProcess := fair.current_process served
  have used := fair.lists.sane.currentUsed
  have slice := fair.slices _ used
  have pos : 1 ≤ (s.tasks s.currentTask).timeSlice := by
    refine slice.2 (Or.inl fun isFirst => served.1 ?_)
    rw [isFirst]
    exact fair.idleFirst
  have bounded : (s.tasks s.currentTask).timeSlice ≤ maxRtTimeslice := slice.1
  unfold maxRtTimeslice at bounded
  have spent := sub32_one pos (by omega)
  have normal := noRt _ isProcess
  by_cases isOver : (s.tasks s.currentTask).timeSlice = 1
  · right
    rw [isOver] at spent
    have self := withSlice_self s 0
    have valid : ((s.withSlice 0).tasks (s.withSlice 0).currentTask).Valid :=
      (withSlice_quiet s 0).tasks s.currentTask |>.valid (fair.lists.sane.valid _ used)
    have normal' : ((s.withSlice 0).tasks (s.withSlice 0).currentTask).isRtTask = false :=
      (Task.Ages.isRtTask ((withSlice_quiet s 0).tasks s.currentTask)).trans normal
    rcases sliceOver_current valid normal' with ⟨prio, timeSlice, ended, _⟩
    generalize isTask : ({ (s.withSlice 0).tasks (s.withSlice 0).currentTask with
      array := none, prio, timeSlice } : Task) = task at ended
    refine ⟨task, ?_, isOver, ?_, ?_⟩
    · rw [tickAccount_eq, if_neg served.1, if_neg served.2.1, if_neg served.2.2, normal,
        if_neg Bool.false_ne_true, isOver, if_pos spent]
      have spends : s.spendTick = s.withSlice 0 := by
        rw [spendTick, isOver, spent]
        rfl
      rw [spends]
      exact congrArg (Option.map _) ended
    · have staticPrio := congrArg Task.staticPrio self
      rw [← isTask]
      exact staticPrio
    · have refilled := (sliceOver_refilled ended).isSlice
      rw [move_eq] at refilled
      simp only [Function.update_self] at refilled
      exact refilled
  · left
    refine ⟨?_, by omega⟩
    have notOver : ¬sub32 (s.tasks s.currentTask).timeSlice 1 = 0 := by
      rw [spent]
      omega
    rw [tickAccount_eq, if_neg served.1, if_neg served.2.1, if_neg served.2.2, normal,
      if_neg Bool.false_ne_true, if_neg notOver, ← spent]
    rfl

theorem SamePlaces.leftOf (same : s.SamePlaces s') (active : s'.active = s.active) (q : ℕ) :
    s'.leftOf q = s.leftOf q := by
  rw [Sched.leftOf, Sched.leftOf, same.array, same.timeSlice, active]

theorem SamePlaces.left (same : s.SamePlaces s') (active : s'.active = s.active) :
    s'.left = s.left := by
  rw [Sched.left, Sched.left, same.processes]
  exact congrArg List.sum (List.map_congr_left fun q _ => same.leftOf active q)

/-- A task whose sleep is within its bounds gets a priority. -/
theorem recalcTaskPrio_exists {task : Task} (valid : task.Valid) (now : ℕ) :
    ∃ task', task.recalcTaskPrio now = some task' := by
  have slept := task.addSleep_sleepAvg now valid.sleepAvg
  simp only [Task.recalcTaskPrio]
  split
  · exact ⟨_, rfl⟩
  next notRt =>
    rcases dynamicPrio_exists (Bool.eq_false_iff.mpr notRt) slept with ⟨prio, isPrio, _⟩
    rw [isPrio]
    exact ⟨_, rfl⟩

theorem Orderly.consistent (orderly : s.Orderly) : s.Consistent := by
  refine ⟨orderly.inv.distinct, orderly.indexed, orderly.accounts.nrActive, fun _ _ p _ => ?_⟩
  rw [orderly.inv.noIdle]
  exact (Option.some_ne_none p).symm

/-- A normal task is in no queue of a real-time priority. -/
theorem Orderly.queue_zero (orderly : s.Orderly) (noRt : s.NoRt) (array : ArrayId) :
    (s.arrays array).queue 0 = [] := by
  apply List.eq_nil_iff_forall_not_mem.mpr
  intro q mem
  have normal := noRt q (orderly.lists.listed q ⟨array, 0, mem⟩)
  have above := orderly.aboveRt q
  rw [(orderly.inv.queues.agrees array 0 q mem).prio] at above
  rw [Task.isRtTask, decide_eq_false_iff_not] at normal
  exact absurd (above (Nat.lt_of_not_le normal)) (Nat.not_lt_zero _)

/-- `schedule` chooses a task of the highest queue, which then runs. -/
theorem Orderly.schedule_serves (orderly : s.Orderly) (noRt : s.NoRt) (isProcess : p ∈ s.processes)
    {now : ℕ} (steady : s.Steady (.schedule now)) :
    ∃ s', s.schedule now = some s' ∧ s'.Served ∧ s.SamePlaces s' ∧ s'.active = s.searched := by
  have consistent := orderly.consistent
  have queued : ∃ array, ∃ i < maxPrio, (s.arrays array).queue i ≠ [] := by
    rcases orderly.lists.queued p isProcess with ⟨array, i, isQueue, _, count⟩
    have here := count array i
    rw [if_pos ⟨rfl, rfl⟩] at here
    refine ⟨array, i, isQueue, List.ne_nil_of_mem (a := p) (List.count_pos_iff.mp ?_)⟩
    omega
  rcases consistent.exists_next queued with ⟨next, _, isQueue, isFirst⟩
  have positive : (s.arrays s.searched).highestPrio > 0 := by
    by_contra notPos
    have isZero : (s.arrays s.searched).highestPrio = 0 := by omega
    have notEmpty := (orderly.indexed s.searched).highest isQueue
    rw [isZero] at notEmpty
    exact notEmpty (orderly.queue_zero noRt s.searched)
  have isNext : s.exchange.nextOfSchedule = some next := by
    unfold nextOfSchedule
    simp only [consistent.exchange_active, (exchange_spec s).2.1, isQueue, positive, and_self,
      if_true]
    exact isFirst
  have used : next < s.unused := by
    have linked := nextOfSchedule_linked ((exchange_spec s).2.2.2.2.1.trans orderly.inv.noIdle)
      isNext
    rcases linked with ⟨array, i, mem⟩
    rw [(exchange_spec s).2.1] at mem
    exact orderly.lists.sane.linkedUsed next ⟨array, i, mem⟩
  have valid : (s.exchange.tasks next).Valid := by
    rw [(exchange_spec s).1]
    exact orderly.lists.sane.valid next used
  rcases recalcTaskPrio_exists valid now with ⟨nextTask, recalculated⟩
  have returns : ∃ s', s.schedule now = some s' := by
    simp only [Sched.schedule, Option.bind_eq_bind, isNext, recalculated, Option.bind_some]
    split
    · exact ⟨_, rfl⟩
    · exact ⟨_, rfl⟩
  rcases returns with ⟨s', scheduled⟩
  rcases schedule_quiet scheduled with ⟨quiet, isCurrent⟩
  have active : s'.active = s.searched := quiet.active.trans consistent.exchange_active
  have arrays : s'.arrays = s.arrays := quiet.arrays.trans (exchange_spec s).2.1
  have places : s.SamePlaces s' := by
    refine ⟨quiet.processes.trans (exchange_processes s), fun q => ?_,
      schedule_sameSlices scheduled, fun q => ?_⟩
    · rw [(quiet.tasks q).array, (exchange_spec s).1]
    · rw [Task.Ages.isRtTask (quiet.tasks q), (exchange_spec s).1]
  refine ⟨s', scheduled, ?_, places, active⟩
  rw [isNext] at isCurrent
  have isCurrent' := (Option.some.inj isCurrent).symm
  have inv := (orderly.inv.schedule scheduled).1 steady
  have mem : next ∈ (s'.arrays s'.active).queue (s'.arrays s'.active).highestPrio := by
    rw [arrays, active]
    unfold firstOfHighest at isFirst
    rw [consistent.exchange_active, (exchange_spec s).2.1] at isFirst
    exact List.mem_of_head? isFirst
  have agrees := inv.queues.agrees _ _ next mem
  refine ⟨?_, ?_, ?_⟩
  · rw [isCurrent', (quiet.tasks next).pid, (exchange_spec s).1]
    apply orderly.notIdle
    rw [arrays, active] at mem
    exact orderly.lists.listed next ⟨_, _, mem⟩
  · rw [isCurrent', agrees.array]
    exact fun same => inv.distinct (Option.some.inj same)
  · rw [isCurrent', agrees.effective]
    exact Nat.lt_irrefl _

/-- The parts of a state in order that the accounting of the clock interrupt keeps. -/
theorem Orderly.tickAccount (orderly : s.Orderly) {reschedule : Bool}
    (accounted : s.tickAccount = some (s', reschedule)) :
    s'.Orderly ∧ s'.processes = s.processes := by
  rcases tickAccount_cases (orderly.lists.sane.valid _ orderly.lists.sane.currentUsed) with
    ⟨s₁, _, accounted', ticked⟩
  rw [accounted] at accounted'
  cases accounted'
  rcases ticked.lists orderly.lists orderly.current with ⟨lists, processes, _, isCurrent, pid⟩
  refine ⟨⟨orderly.inv.tickAccount accounted, ?_, lists, ?_, ?_, ?_, ?_⟩, processes⟩
  · exact ticked.indexed orderly.indexed orderly.lists orderly.current fun _ => orderly.inv.tidy _
  · unfold CurrentListed
    rw [isCurrent, pid, processes]
    exact orderly.current
  · exact ticked.accounts orderly.accounts orderly.lists.sane orderly.current
  · rw [processes]
    intro q isProcess
    rw [pid]
    exact orderly.notIdle q isProcess
  · exact orderly.aboveRt.tickAccount aboveRt_prioRule accounted

theorem Fair.atTick (fair : s.Fair) (clock : ℕ) : (s.atTick clock).Fair := by
  have inv := fair.inv
  have accounts := fair.accounts
  refine ⟨⟨⟨⟨inv.queues.agrees, inv.queues.used, inv.queues.nodup⟩, inv.distinct, inv.noIdle,
    inv.currentUsed, inv.current⟩, fair.indexed, fair.lists.tick clock, fair.current, ?_,
    fair.notIdle, fair.aboveRt⟩, ⟨fair.held.held, fair.held.own, fair.held.next⟩, fair.slices,
    fair.idleFirst⟩
  exact ⟨accounts.nodup, accounts.queued, accounts.nrActive, accounts.nrProcess,
    accounts.nrRunning, accounts.all, accounts.fits⟩

/-! ## Ranks -/

/-- The ticks at least one of which is spent before a task runs: those left in the active array,
and a whole round where the task waits in the other one. -/
def waiting (s : Sched) (p : ℕ) : ℕ :=
  s.left + if (s.tasks p).array = some s.active then 0 else maxRtTimeslice * s.processes.length

/-- The waiting time, and one interrupt that chooses a task. -/
def rank (s : Sched) (p : ℕ) : ℕ := (if s.Served then 0 else 1) + s.waiting p

theorem Fair.left_le (fair : s.Fair) : s.left ≤ maxRtTimeslice * s.processes.length := by
  have each : ∀ n ∈ s.processes.map s.leftOf, n ≤ maxRtTimeslice := by
    intro n mem
    rcases List.mem_map.mp mem with ⟨q, isProcess, rfl⟩
    unfold leftOf
    split
    · exact (fair.slices q (fair.lists.sane.processUsed q isProcess)).1
    · exact Nat.zero_le _
  have bound := List.sum_le_card_nsmul _ _ each
  rw [List.length_map] at bound
  exact bound.trans_eq (Nat.mul_comm _ _)

/-- The choice of a task ends the round or leaves the waiting time as it is. -/
theorem Orderly.rank_schedule (orderly : s.Orderly) (isProcess : p ∈ s.processes)
    (fair : s'.Fair) (served : s'.Served) (places : s.SamePlaces s')
    (active : s'.active = s.searched) : s'.rank p ≤ s.waiting p := by
  rw [rank, if_pos served, Nat.zero_add]
  by_cases empty : ∀ i < maxPrio, (s.arrays s.active).queue i = []
  · -- the arrays swap roles: the task waits in the other one
    have swapped : s'.active = s.expired := by
      rw [active, searched, if_pos empty]
    rcases orderly.lists.queued p isProcess with ⟨array, i, isQueue, isArray, count⟩
    have notActive : array ≠ s.active := by
      rintro rfl
      have here := count s.active i
      rw [if_pos ⟨rfl, rfl⟩, empty i isQueue, List.count_nil] at here
      exact absurd here Nat.zero_ne_one
    have isExpired : array = s.expired :=
      (eq_active_or orderly.inv.distinct array).elim (fun first => absurd first.1 notActive)
        fun second => second.1
    have bound := fair.left_le
    rw [places.processes] at bound
    rw [waiting, waiting, if_pos, if_neg]
    · omega
    · rw [isArray]
      exact fun same => notActive (Option.some.inj same)
    · rw [places.array, isArray, isExpired, swapped]
  · have same : s'.active = s.active := by
      rw [active, searched, if_neg empty]
    rw [waiting, waiting, places.left same, places.array, places.processes, same]

/-- Where the running task of a served state has a tick less in the active array, the others wait
for a tick less. -/
theorem Fair.waiting_lt (fair : s.Fair) (served : s.Served)
    (processes : s'.processes = s.processes) (active : s'.active = s.active)
    (others : ∀ q, q ≠ s.currentTask → (s'.tasks q).array = (s.tasks q).array ∧
      (s'.tasks q).timeSlice = (s.tasks q).timeSlice)
    (spends : s'.leftOf s.currentTask + 1 = (s.tasks s.currentTask).timeSlice)
    (notCurrent : s.currentTask ≠ p) : s'.waiting p < s.rank p := by
  have here : s.leftOf s.currentTask = (s.tasks s.currentTask).timeSlice := by
    rw [leftOf, if_pos (fair.served_active served)]
  have same : ∀ q ∈ s.processes, q ≠ s.currentTask → s'.leftOf q = s.leftOf q := by
    intro q _ ne
    rw [leftOf, leftOf, (others q ne).1, (others q ne).2, active]
  have replaced := Counting.sum_map_except fair.lists.nodup (fair.current_process served) same
  rw [rank, if_pos served, waiting, waiting, left, left, processes, active,
    (others p notCurrent.symm).1]
  omega

theorem withSlice_of_ne (s : Sched) {timeSlice : ℕ} (ne : q ≠ s.currentTask) :
    (s.withSlice timeSlice).tasks q = s.tasks q := setTask_of_ne s ne

/-- The running task spends a tick. -/
theorem Fair.withSlice_rank (fair : s.Fair) (served : s.Served)
    (more : 1 < (s.tasks s.currentTask).timeSlice) (notCurrent : s.currentTask ≠ p) :
    (s.withSlice ((s.tasks s.currentTask).timeSlice - 1)).waiting p < s.rank p ∧
      (s.withSlice ((s.tasks s.currentTask).timeSlice - 1)).Served := by
  have self := withSlice_self s ((s.tasks s.currentTask).timeSlice - 1)
  refine ⟨fair.waiting_lt served rfl rfl (fun q ne => ?_) ?_ notCurrent, ?_, ?_, ?_⟩
  · rw [withSlice_of_ne s ne]
    exact ⟨rfl, rfl⟩
  · have active := fair.served_active served
    rw [leftOf, self]
    exact (congrArg (· + 1) (if_pos active)).trans (Nat.sub_add_cancel (Nat.le_of_lt more))
  · show ((s.withSlice _).tasks s.currentTask).pid ≠ idlePid
    rw [self]
    exact served.1
  · show ((s.withSlice _).tasks s.currentTask).array ≠ some s.expired
    rw [self]
    exact served.2.1
  · show ¬(s.arrays s.active).highestPrio < ((s.withSlice _).tasks s.currentTask).effectivePrio
    rw [self]
    exact served.2.2

/-- The running task is put on the expired array. -/
theorem Fair.move_rank (fair : s.Fair) (served : s.Served)
    (last : (s.tasks s.currentTask).timeSlice = 1) {task : Task}
    (staticPrio : task.staticPrio = (s.tasks s.currentTask).staticPrio)
    (notCurrent : s.currentTask ≠ p) :
    let s' := (s.withSlice 0).move s.currentTask s.active s.expired task
    s'.processes = s.processes ∧ (∀ q, (s'.tasks q).isRtTask = (s.tasks q).isRtTask) ∧
      s'.waiting p < s.rank p := by
  intro s'
  have moved : s' = { s.withSlice 0 with
      arrays := s'.arrays
      tasks := Function.update (s.withSlice 0).tasks s.currentTask
        { task with array := some s.expired } } := move_eq (s.withSlice 0) _ _ _ _
  have self : s'.tasks s.currentTask = { task with array := some s.expired } := by
    rw [moved]
    exact Function.update_self _ _ _
  have others : ∀ q, q ≠ s.currentTask → s'.tasks q = s.tasks q := by
    intro q ne
    rw [moved]
    exact (Function.update_of_ne ne _ _).trans (withSlice_of_ne s ne)
  have processes : s'.processes = s.processes := by
    rw [moved]
    rfl
  have active : s'.active = s.active := by
    rw [moved]
    rfl
  refine ⟨processes, fun q => ?_, ?_⟩
  · by_cases isTask : q = s.currentTask
    · rw [isTask, self, Task.isRtTask, Task.isRtTask, staticPrio]
    · rw [others q isTask]
  · refine fair.waiting_lt served processes active (fun q ne => ?_) ?_ notCurrent
    · rw [others q ne]
      exact ⟨rfl, rfl⟩
    · have notActive : some s.expired ≠ some s.active := fun same =>
        fair.inv.distinct (Option.some.inj same).symm
      rw [leftOf, self, active, if_neg notActive, last]

/-- The accounting of the clock interrupt takes a tick off the waiting time of a task that does
not run, unless the next one is to be chosen first. -/
theorem Fair.tickAccount_rank (fair : s.Fair) (noRt : s.NoRt) (notCurrent : s.currentTask ≠ p) :
    ∃ s₁ reschedule, s.tickAccount = some (s₁, reschedule) ∧ s₁.processes = s.processes ∧
      (∀ q, (s₁.tasks q).isRtTask = (s.tasks q).isRtTask) ∧ s₁.waiting p < s.rank p ∧
      (reschedule = false → s₁.Served) := by
  by_cases served : s.Served
  · rcases tickAccount_served fair noRt served with
      ⟨accounted, more⟩ | ⟨task, accounted, last, staticPrio, _⟩
    · rcases fair.withSlice_rank served more notCurrent with ⟨lower, serves⟩
      exact ⟨_, false, accounted, rfl, fun q => Task.Ages.isRtTask ((withSlice_quiet s _).tasks q),
        lower, fun _ => serves⟩
    · rcases fair.move_rank served last staticPrio notCurrent with ⟨processes, isRtTask, lower⟩
      exact ⟨_, true, accounted, processes, isRtTask, lower, fun eq => absurd eq (by decide)⟩
  · refine ⟨s, true, tickAccount_waits served, rfl, fun _ => rfl, ?_,
      fun eq => absurd eq (by decide)⟩
    rw [rank, if_neg served]
    omega

/-- One clock interrupt, with its two readings of the clock. -/
def tick (s : Sched) (reading : ℕ × ℕ) : Option Sched := s.schedulerTick reading.1 reading.2

/-- The interrupt chooses no task whose priority changes. -/
def SteadyTick (s : Sched) (reading : ℕ × ℕ) : Prop :=
  s.Steady (.schedulerTick reading.1 reading.2)

/-- A state in which a process waits for the others, of which none is a real-time task. -/
structure Waits (p : ℕ) (s : Sched) : Prop where
  fair : s.Fair
  noRt : s.NoRt
  isProcess : p ∈ s.processes

/-- Every clock interrupt that does not find the task running brings it nearer. -/
theorem Waits.tick (waits : s.Waits p) (notCurrent : s.currentTask ≠ p) {reading : ℕ × ℕ}
    (steady : s.SteadyTick reading) :
    ∃ s', s.tick reading = some s' ∧ s'.Waits p ∧ s'.rank p < s.rank p := by
  rcases waits with ⟨fair, noRt, isProcess⟩
  have fair₀ := fair.atTick reading.1
  rcases Fair.tickAccount_rank fair₀ noRt notCurrent with
    ⟨s₁, reschedule, accounted, processes, isRtTask, lower, serves⟩
  have noRt₁ : s₁.NoRt := fun q mem => (isRtTask q).trans (noRt q (processes ▸ mem))
  have isProcess₁ : p ∈ s₁.processes := processes ▸ isProcess
  have fairNext : ∀ s', s.step (.schedulerTick reading.1 reading.2) = some s' → s'.Fair :=
    fun s' ticked => fair.step ⟨steady, fair.current, trivial⟩ ticked
  cases reschedule with
  | false =>
      have ticked : s.tick reading = some s₁ :=
        Option.bind_eq_some_iff.mpr ⟨(s₁, false), accounted, rfl⟩
      refine ⟨s₁, ticked, ⟨fairNext s₁ ticked, noRt₁, isProcess₁⟩, ?_⟩
      rw [rank, if_pos (serves rfl), Nat.zero_add]
      exact lower
  | true =>
      have orderly := (fair₀.toOrderly.tickAccount accounted).1
      rcases orderly.schedule_serves noRt₁ isProcess₁ (steady s₁ accounted) with
        ⟨s', scheduled, served, places, active⟩
      have ticked : s.tick reading = some s' :=
        Option.bind_eq_some_iff.mpr ⟨(s₁, true), accounted, scheduled⟩
      have fair' := fairNext s' ticked
      refine ⟨s', ticked, ⟨fair', fun q mem => ?_, places.processes ▸ isProcess₁⟩, ?_⟩
      · rw [places.isRtTask]
        exact noRt₁ q (places.processes ▸ mem)
      · exact Nat.lt_of_le_of_lt (orderly.rank_schedule isProcess₁ fair' served places active)
          lower

/-- No interrupt of the run chooses a task whose priority changes. -/
def SteadyRun (s : Sched) (readings : ℕ → ℕ × ℕ) : Prop :=
  ∀ n s', after Sched.tick readings s n = some s' → s'.SteadyTick (readings n)

/--
In every state that proper calls reach, if no process is a real-time task, the clock interrupts to
come do not fail before a process has run: it is the current task after at most two rounds of the
longest time slices and one interrupt more.
-/
theorem runs_of_reach (s : Sched) (reached : GuardedReach step Proper (· = initPc) s)
    (noRt : s.NoRt) (readings : ℕ → ℕ × ℕ) (steady : s.SteadyRun readings)
    (p : ℕ) (isProcess : p ∈ s.processes) :
    ∃ n ≤ 2 * (maxRtTimeslice * s.processes.length) + 1, ∃ s',
      after Sched.tick readings s n = some s' ∧ s'.currentTask = p := by
  have fair := fair_of_reach reached
  rcases reaches_of_rank SteadyTick (Waits p) (fun s => s.currentTask = p) (fun s => s.rank p)
    (fun _ _ waits notCurrent steady => waits.tick notCurrent steady)
    ⟨fair, noRt, isProcess⟩ steady with ⟨n, bound, s', ran, _, isCurrent⟩
  refine ⟨n, bound.trans ?_, s', ran, isCurrent⟩
  have left := fair.left_le
  rw [rank, waiting]
  split_ifs <;> omega

/-! ## Tasks of the lowest priority -/

/-- The tasks of a list have the lowest priority. -/
def Lowest (processes : List ℕ) (q staticPrio prio : ℕ) : Prop :=
  q ∈ processes → staticPrio = maxPrio - 1 ∧ prio = maxPrio - 1

/-- No bonus lifts a task off the lowest priority. -/
theorem lowest_prioRule (processes : List ℕ) : PrioRule (Lowest processes) := by
  rintro q task prio lowest normal isPrio isProcess
  refine ⟨(lowest isProcess).1, ?_⟩
  rw [dynamicPrio_of_normal normal, (lowest isProcess).1] at isPrio
  rcases Option.map_eq_some_iff.mp isPrio with ⟨bonus, isBonus, rfl⟩
  have le : bonus ≤ 2 := by
    unfold Task.getBonus at isBonus
    split_ifs at isBonus <;> simp only [Option.some.injEq] at isBonus <;> omega
  unfold prioOfBonus maxPrio maxRtPrio
  dsimp only
  split_ifs <;> omega

theorem Orderly.tick_processes {clock now : ℕ} (orderly : (s.atTick clock).Orderly)
    (ticked : s.schedulerTick clock now = some s') : s'.processes = s.processes := by
  rcases Option.bind_eq_some_iff.mp ticked with ⟨⟨s₁, reschedule⟩, accounted, rest⟩
  have processes := (orderly.tickAccount accounted).2
  cases reschedule with
  | false =>
      cases rest
      exact processes
  | true =>
      exact ((schedule_quiet rest).1.processes.trans (exchange_processes s₁)).trans processes

/-- A task of the lowest priority is steady, whatever the clock says. -/
theorem Fair.steady_of_lowest (fair : s.Fair)
    (lowest : s.Follows (Lowest s.processes)) (reading : ℕ × ℕ) : s.SteadyTick reading := by
  intro s₁ accounted p isNext
  have rule := lowest_prioRule s.processes
  have follows := Follows.tickAccount (s := s.atTick reading.1) lowest rule accounted
  rcases (fair.atTick reading.1).toOrderly.tickAccount accounted with ⟨orderly, processes⟩
  rw [(exchange_spec s₁).1]
  have linked := nextOfSchedule_linked ((exchange_spec s₁).2.2.2.2.1.trans orderly.inv.noIdle)
    isNext
  rcases linked with ⟨array, i, mem⟩
  rw [(exchange_spec s₁).2.1] at mem
  have isProcess : p ∈ s.processes := processes ▸ orderly.lists.listed p ⟨array, i, mem⟩
  have same := (s₁.tasks p).addSleep_same reading.2
  have normal : ((s₁.tasks p).addSleep reading.2).isRtTask = false := by
    rw [same.isRtTask, Task.isRtTask, (follows p isProcess).1]
    decide
  have valid := orderly.lists.sane.valid p (orderly.lists.sane.linkedUsed p ⟨array, i, mem⟩)
  rcases dynamicPrio_exists normal ((s₁.tasks p).addSleep_sleepAvg reading.2 valid.sleepAvg) with
    ⟨prio, isPrio, _⟩
  have slept : Lowest s.processes p ((s₁.tasks p).addSleep reading.2).staticPrio
      ((s₁.tasks p).addSleep reading.2).prio := by
    rw [same.staticPrio, same.prio]
    exact follows p
  right
  rw [isPrio, (rule p _ prio slept normal isPrio isProcess).2, (follows p isProcess).2]

theorem Fair.steadyRun_of_lowest (fair : s.Fair) (lowest : s.Follows (Lowest s.processes))
    (readings : ℕ → ℕ × ℕ) : s.SteadyRun readings := by
  have kept : ∀ n s', after Sched.tick readings s n = some s' →
      s'.Fair ∧ s'.processes = s.processes ∧ s'.Follows (Lowest s.processes) := by
    intro n
    induction n with
    | zero =>
        rintro s' ran
        cases ran
        exact ⟨fair, rfl, lowest⟩
    | succ n ih =>
        intro s' ran
        rcases Option.bind_eq_some_iff.mp ran with ⟨s₁, before, ticked⟩
        rcases ih s₁ before with ⟨fair₁, processes, follows⟩
        have steady := fair₁.steady_of_lowest (by rw [processes]; exact follows) (readings n)
        refine ⟨fair₁.step ⟨steady, fair₁.current, trivial⟩ ticked, ?_,
          follows.schedulerTick (lowest_prioRule _) ticked⟩
        exact ((fair₁.atTick _).toOrderly.tick_processes ticked).trans processes
  intro n s' ran
  rcases kept n s' ran with ⟨fair', processes, follows⟩
  exact fair'.steady_of_lowest (by rw [processes]; exact follows) (readings n)

/-- `init` and a child of it, both of the lowest priority. -/
def forkTwice : List SchedOp := [.doFork 63 (some 0) 0, .doFork 63 (some 0) 0]

theorem forkTwice_proper : GuardedRun step Proper initPc forkTwice := by
  refine ⟨⟨trivial, fun _ => by decide, fun _ _ => by decide⟩, fun next stepped => ?_⟩
  have first : (initPc.step (.doFork 63 (some 0) 0)).map (fun s => (s.unused, s.processes)) =
      some (2, [1]) := by
    decide +kernel
  rw [stepped, Option.map_some, Option.some.injEq, Prod.mk.injEq] at first
  rcases first with ⟨unused, processes⟩
  refine ⟨⟨trivial, fun _ => ?_, fun _ isFirst => ?_⟩, fun _ _ => trivial⟩
  · rw [processes]
    decide
  · rw [unused] at isFirst
    exact absurd isFirst (by decide)

theorem runs_of_reach_second : ∃ s, run step initPc forkTwice = some s ∧
    ∃ n ≤ 4801, ∃ s', after Sched.tick (fun n => (10 * n, 10 * n + 1)) s n = some s' ∧
      s'.currentTask = 2 := by
  have forks : (run step initPc forkTwice).map (fun s => (s.processes, (s.tasks 1).staticPrio,
      (s.tasks 1).prio, (s.tasks 2).staticPrio, (s.tasks 2).prio)) =
      some ([1, 2], 63, 63, 63, 63) := by
    decide +kernel
  rcases Option.map_eq_some_iff.mp forks with ⟨s, ran, holds⟩
  simp only [Prod.mk.injEq] at holds
  rcases holds with ⟨processes, staticPrio₁, prio₁, staticPrio₂, prio₂⟩
  have lowest : s.Follows (Lowest s.processes) := by
    intro q isProcess
    rw [processes, List.mem_cons, List.mem_singleton] at isProcess
    rcases isProcess with rfl | rfl
    · exact ⟨staticPrio₁, prio₁⟩
    · exact ⟨staticPrio₂, prio₂⟩
  have started : GuardedReach step Proper (· = initPc) initPc := .start rfl
  have reached := started.of_run forkTwice_proper ran
  have noRt : s.NoRt := by
    intro p isProcess
    rw [Task.isRtTask, (lowest p isProcess).1]
    decide
  have steady := (fair_of_reach reached).steadyRun_of_lowest lowest
    fun n => (10 * n, 10 * n + 1)
  rcases runs_of_reach s reached noRt _ steady 2 (by rw [processes]; decide) with
    ⟨n, bound, s', ticked, isCurrent⟩
  rw [processes] at bound
  exact ⟨s, ran, n, bound, s', ticked, isCurrent⟩

end Sched

end Ninix.Process
