import Mathlib.Algebra.Order.BigOperators.Group.List
import Ninix.Library.Counting
import Ninix.Process.TimeSlice

/-!
# The time slices of a family

A process and its descendants fork without a tick of the clock between. A fork splits the slice
of the parent into two halves, which are the whole of it; but a parent that is left with no tick
gets one, so that a process with one tick makes another tick whenever it forks.
-/

namespace Ninix.Process

open TransitionSystem

namespace Sched

variable {s s' s'' : Sched} {p : ℕ}

/-! ## One fork -/

/-- A new task gets the greater half of the slice of the current task, which keeps the smaller
half or one tick. -/
structure Halved (s s' : Sched) (p : ℕ) : Prop where
  child : (s'.tasks p).timeSlice = ((s.tasks s.currentTask).timeSlice + 1) % 2 ^ 32 / 2
  parent : (s'.tasks s.currentTask).timeSlice = max 1 ((s.tasks s.currentTask).timeSlice / 2)
  others : ∀ q, q ≠ p → q ≠ s.currentTask → (s'.tasks q).timeSlice = (s.tasks q).timeSlice

theorem Halved.before (halved : s.Halved s' p) (same : s'.SameSlices s'') : s.Halved s'' p :=
  ⟨(same p).trans halved.child, (same s.currentTask).trans halved.parent,
    fun q notChild notParent => (same q).trans (halved.others q notChild notParent)⟩

theorem Halved.after (halved : s'.Halved s'' p) (same : s.SameSlices s')
    (current : s'.currentTask = s.currentTask) : s.Halved s'' p := by
  rcases halved with ⟨child, parent, others⟩
  rw [current] at child parent others
  rw [same s.currentTask] at child parent
  exact ⟨child, parent, fun q notChild notParent => (others q notChild notParent).trans (same q)⟩

theorem giveSlice_self (s : Sched) (p timeSlice : ℕ) :
    ((s.giveSlice p timeSlice).tasks p).timeSlice = timeSlice := by
  rw [giveSlice, setTask_self]

theorem giveSlice_of_ne (s : Sched) {p q : ℕ} (ne : q ≠ p) (timeSlice : ℕ) :
    (s.giveSlice p timeSlice).tasks q = s.tasks q := by
  rw [giveSlice, setTask_of_ne s ne]

theorem splitSlice_halved (ne : s.currentTask ≠ p) : s.Halved (s.splitSlice p).keepTick p := by
  have current : (s.splitSlice p).currentTask = s.currentTask := rfl
  have child : ((s.splitSlice p).tasks p).timeSlice =
      ((s.tasks s.currentTask).timeSlice + 1) % 2 ^ 32 / 2 := by
    rw [splitSlice]
    exact (congrArg Task.timeSlice (giveSlice_of_ne _ ne.symm _)).trans (giveSlice_self s p _)
  have parent : ((s.splitSlice p).tasks s.currentTask).timeSlice =
      (s.tasks s.currentTask).timeSlice / 2 := by
    rw [splitSlice]
    refine (giveSlice_self _ s.currentTask _).trans ?_
    exact congrArg (fun task : Task => task.timeSlice / 2) (giveSlice_of_ne s ne _)
  have others : ∀ q, q ≠ p → q ≠ s.currentTask →
      ((s.splitSlice p).tasks q).timeSlice = (s.tasks q).timeSlice := by
    intro q notChild notParent
    rw [splitSlice]
    exact congrArg Task.timeSlice
      ((giveSlice_of_ne _ notParent _).trans (giveSlice_of_ne s notChild _))
  unfold keepTick
  rw [current]
  by_cases nothing : ((s.splitSlice p).tasks s.currentTask).timeSlice = 0
  · rw [if_pos nothing]
    refine ⟨?_, ?_, fun q notChild notParent => ?_⟩
    · rw [giveSlice_of_ne _ ne.symm]
      exact child
    · rw [giveSlice_self]
      omega
    · rw [giveSlice_of_ne _ notParent]
      exact others q notChild notParent
  · rw [if_neg nothing]
    exact ⟨child, by omega, others⟩

theorem keepTick_unused (s : Sched) :
    s.keepTick.unused = s.unused ∧ s.keepTick.currentTask = s.currentTask := by
  unfold keepTick
  split
  · exact ⟨rfl, rfl⟩
  · exact ⟨rfl, rfl⟩

theorem schedFork_halved (ne : s.currentTask ≠ p) (notInit : (s.tasks p).pid ≠ initPid)
    (setPrio : ℤ) (clock : ℕ) :
    ∃ s', s.schedFork p setPrio clock = some s' ∧ s.Halved s' p ∧ s'.unused = s.unused := by
  have ranked : s.SameSlices (s.forkPrio p setPrio) := setTask_sameSlices p rfl
  have pid : ((s.forkPrio p setPrio).tasks p).pid ≠ initPid := by
    unfold forkPrio
    rw [setTask_self]
    exact notInit
  rw [schedFork_eq, forkSlice_eq, if_neg pid, Option.map_some]
  have halved : (s.forkPrio p setPrio).Halved ((s.forkPrio p setPrio).splitSlice p).keepTick p :=
    splitSlice_halved ne
  have unused := (keepTick_unused ((s.forkPrio p setPrio).splitSlice p)).1
  exact ⟨_, rfl, (halved.after ranked rfl).before (setTask_sameSlices p rfl), unused⟩

/-- The sleep of a task that wakes up is bounded, so its priority is defined. -/
theorem wakePrio_isSome (task : Task) (penalty : ℕ) :
    (wakePrio (weighSleep task penalty)).isSome := by
  have slept : (weighSleep task penalty).sleepAvg ≤ maxSleepAvg := by
    simp only [weighSleep]
    split
    · exact Nat.le.refl
    · omega
  have bonus : (weighSleep task penalty).getBonus.isSome := by
    simp only [Task.getBonus]
    split_ifs
    all_goals rfl
  unfold wakePrio
  split
  · rfl
  · simp only [Task.dynamicPrio]
    split
    · rfl
    · rw [Option.isSome_map]
      exact bonus

theorem wakeUpNewTask_unused (woken : s.wakeUpNewTask p = some s') : s'.unused = s.unused := by
  rw [wakeUpNewTask_eq] at woken
  rcases Option.map_eq_some_iff.mp woken with ⟨prio, _, rfl⟩
  rfl

/-- A fork that makes a process other than `init` splits the slice of the current task. -/
theorem doFork_halved (used : s.currentTask < s.unused) (notInit : s.pids.pidAlloc.1 ≠ initPid)
    {setPrio : ℤ} (isPrio : ForkPrio setPrio) (starveCount clock : ℕ) :
    ∃ s', s.doFork setPrio (some starveCount) clock = some (s.pids.pidAlloc.1, s') ∧
      s.Halved s' s.unused ∧ s'.unused = s.unused + 1 := by
  have ne : s.currentTask ≠ s.unused := Nat.ne_of_lt used
  have listed : s.SameSlices { s with
      unused := s.unused + 1
      pids := s.pids.pidAlloc.2
      processes := s.processes ++ [s.unused]
      nrProcess := s.nrProcess + 1 } := fun _ => rfl
  have made : s.SameSlices (s.makeTask starveCount) :=
    listed.trans (setTask_sameSlices s.unused rfl)
  have pid : ((s.makeTask starveCount).tasks s.unused).pid ≠ initPid := by
    unfold makeTask
    rw [setTask_self]
    exact notInit
  rcases schedFork_halved (s := s.makeTask starveCount) ne pid setPrio clock with
    ⟨s₁, forked, halved, unused⟩
  rcases Option.isSome_iff_exists.mp (wakePrio_isSome (s₁.tasks s.unused) childPenalty) with
    ⟨prio, isPrio'⟩
  have woken : ∃ s₂, s₁.wakeUpNewTask s.unused = some s₂ := by
    rw [wakeUpNewTask_eq, isPrio']
    exact ⟨_, rfl⟩
  rcases woken with ⟨s₂, woken⟩
  refine ⟨s₂, ?_, (halved.after made rfl).before (wakeUpNewTask_sameSlices woken), ?_⟩
  · rw [doFork_eq, if_neg fun refused => (not_or.mpr refused) isPrio]
    simp only [forked, woken, Option.bind_some, Option.map_some]
  · rw [wakeUpNewTask_unused woken, unused]
    rfl

/-- A fork that makes no process changes no slice. -/
theorem doFork_sameSlices {setPrio : ℤ} {memory : Option ℕ} {clock pid : ℕ}
    (nothing : ¬(ForkPrio setPrio ∧ memory.isSome = true))
    (forked : s.doFork setPrio memory clock = some (pid, s')) :
    s.SameSlices s' ∧ s'.unused = s.unused := by
  by_cases isPrio : ForkPrio setPrio
  · cases memory with
    | some starveCount => exact absurd ⟨isPrio, rfl⟩ nothing
    | none =>
        rw [doFork_eq, if_neg fun refused => (not_or.mpr refused) isPrio] at forked
        rcases Option.map_eq_some_iff.mp forked with ⟨pids, _, pair⟩
        cases pair
        exact ⟨.refl s, rfl⟩
  · rw [doFork_refused isPrio, Option.some.injEq] at forked
    cases forked
    exact ⟨.refl s, rfl⟩

end Sched

/-! ## Families -/

/-- A process and its descendants, the latest one first. -/
structure Family where
  sched : Sched
  members : List ℕ

/-- A call of `do_fork` by a member of the family. -/
structure ForkCall where
  parent : ℕ
  setPrio : ℤ
  memory : Option ℕ
  clock : ℕ

/-- The call makes a process. -/
def ForkCall.Makes (call : ForkCall) : Prop :=
  Sched.ForkPrio call.setPrio ∧ call.memory.isSome = true

instance (call : ForkCall) : Decidable call.Makes := inferInstanceAs (Decidable (_ ∧ _))

namespace Family

/-- The ticks that the family has left. -/
def total (family : Family) : ℕ :=
  (family.members.map fun p => (family.sched.tasks p).timeSlice).sum

/-- A member calls, and it makes no process with the identifier of `init`. -/
def Allows (family : Family) (call : ForkCall) : Prop :=
  call.parent ∈ family.members ∧ (call.Makes → family.sched.pids.pidAlloc.1 ≠ initPid)

instance (family : Family) (call : ForkCall) : Decidable (family.Allows call) :=
  inferInstanceAs (Decidable (_ ∧ _))

/-- A member of the family, which is the current task then, forks. -/
def step (family : Family) (call : ForkCall) : Option Family :=
  if family.Allows call then
    (Sched.doFork { family.sched with currentTask := call.parent } call.setPrio call.memory
      call.clock).map fun (_, sched) =>
        ⟨sched,
          if call.Makes then family.sched.unused :: family.members else family.members⟩
  else none

/-- The parent has two ticks or more, unless a slice of `2 ^ 32 - 1` ticks has been split before,
which is too long to be rounded up. -/
def HasTicks (slice : ℕ) (family : Family) (call : ForkCall) : Prop :=
  family.Allows call → call.Makes → 2 ≤ (family.sched.tasks call.parent).timeSlice ∨
    slice = 2 ^ 32 - 1 ∧ family.total < slice

/-- The ticks of a family come from the slice of the first one of it. -/
structure Inv (slice : ℕ) (family : Family) : Prop where
  nodup : family.members.Nodup
  used : ∀ p ∈ family.members, p < family.sched.unused
  le : family.total ≤ slice
  eq : slice ≠ 2 ^ 32 - 1 → family.total = slice

variable {family next : Family} {call : ForkCall} {slice : ℕ}

theorem timeSlice_le_total {p : ℕ} (mem : p ∈ family.members) :
    (family.sched.tasks p).timeSlice ≤ family.total :=
  List.single_le_sum (fun _ _ => Nat.zero_le _) _
    (List.mem_map_of_mem (f := fun p => (family.sched.tasks p).timeSlice) mem)

/-- What a fork that makes a process does to the ticks of the family. -/
theorem step_makes (nodup : family.members.Nodup)
    (used : ∀ p ∈ family.members, p < family.sched.unused) (allowed : family.Allows call)
    (makes : call.Makes) :
    ∃ sched, family.step call = some ⟨sched, family.sched.unused :: family.members⟩ ∧
      sched.unused = family.sched.unused + 1 ∧
      total ⟨sched, family.sched.unused :: family.members⟩ +
          (family.sched.tasks call.parent).timeSlice =
        ((family.sched.tasks call.parent).timeSlice + 1) % 2 ^ 32 / 2 + family.total +
          max 1 ((family.sched.tasks call.parent).timeSlice / 2) := by
  rcases Option.isSome_iff_exists.mp makes.2 with ⟨starveCount, isMemory⟩
  have isUsed := used call.parent allowed.1
  rcases Sched.doFork_halved (s := { family.sched with currentTask := call.parent }) isUsed
    (allowed.2 makes) makes.1 starveCount call.clock with ⟨sched, forked, halved, unused⟩
  refine ⟨sched, ?_, unused, ?_⟩
  · rw [step, if_pos allowed, isMemory, forked, Option.map_some, if_pos makes]
  · have parent : (sched.tasks call.parent).timeSlice =
        max 1 ((family.sched.tasks call.parent).timeSlice / 2) := halved.parent
    have child : (sched.tasks family.sched.unused).timeSlice =
        ((family.sched.tasks call.parent).timeSlice + 1) % 2 ^ 32 / 2 := halved.child
    have members := Counting.sum_map_except nodup allowed.1
      (f := fun p => (family.sched.tasks p).timeSlice)
      (g := fun p => (sched.tasks p).timeSlice) fun q mem ne =>
        halved.others q (Nat.ne_of_lt (used q mem)) ne
    simp only [total, List.map_cons, List.sum_cons, child]
    simp only [parent] at members
    omega

/-- A fork that makes no process leaves the family as it is. -/
theorem step_nothing (nothing : ¬call.Makes) (stepped : family.step call = some next) :
    next.members = family.members ∧ next.sched.unused = family.sched.unused ∧
      next.total = family.total := by
  rw [step, if_neg nothing] at stepped
  by_cases allowed : family.Allows call
  · rw [if_pos allowed] at stepped
    rcases Option.map_eq_some_iff.mp stepped with ⟨⟨pid, sched⟩, forked, rfl⟩
    rcases Sched.doFork_sameSlices nothing forked with ⟨same, unused⟩
    exact ⟨rfl, unused, congrArg List.sum (List.map_congr_left fun p _ => same p)⟩
  · rw [if_neg allowed] at stepped
    exact absurd stepped nofun

/-- Two halves make the whole. -/
theorem Inv.step (inv : family.Inv slice) (small : slice < 2 ^ 32)
    (hasTicks : family.HasTicks slice call) (stepped : family.step call = some next) :
    next.Inv slice := by
  by_cases makes : call.Makes
  · have allowed : family.Allows call := by
      by_contra refused
      rw [Family.step, if_neg refused] at stepped
      exact absurd stepped nofun
    rcases step_makes inv.nodup inv.used allowed makes with ⟨sched, stepped', unused, sum⟩
    rw [stepped', Option.some.injEq] at stepped
    subst stepped
    have bound := timeSlice_le_total allowed.1
    have le := inv.le
    have ticks := hasTicks allowed makes
    refine ⟨List.nodup_cons.mpr ⟨fun mem => Nat.lt_irrefl _ (inv.used _ mem), inv.nodup⟩,
      fun p mem => ?_, ?_, fun notLongest => ?_⟩
    · simp only [unused]
      rcases List.mem_cons.mp mem with rfl | old
      · exact Nat.lt_succ_self _
      · exact Nat.lt_succ_of_lt (inv.used p old)
    · omega
    · have eq := inv.eq notLongest
      omega
  · rcases step_nothing makes stepped with ⟨members, unused, same⟩
    refine ⟨members ▸ inv.nodup, fun p mem => ?_, same ▸ inv.le, fun ne => same ▸ inv.eq ne⟩
    rw [unused]
    exact inv.used p (members ▸ mem)

/-- A parent with one tick keeps it, and its child gets one more. -/
theorem Inv.broken (inv : family.Inv slice)
    (noTicks : ¬family.HasTicks slice call) :
    ∃ next, family.step call = some next ∧ ¬next.total ≤ slice := by
  unfold HasTicks at noTicks
  push Not at noTicks
  rcases noTicks with ⟨allowed, makes, few, noRoom⟩
  rcases step_makes inv.nodup inv.used allowed makes with ⟨sched, stepped, _, sum⟩
  refine ⟨_, stepped, ?_⟩
  have isWhole : family.total = slice := by
    by_cases longest : slice = 2 ^ 32 - 1
    · exact Nat.le_antisymm inv.le (noRoom longest)
    · exact inv.eq longest
  omega

/-- Whoever of a family forks, and however often, the family has no more ticks than the first one
of it had, just when a process that forks has two ticks. -/
theorem total_le_iff (s : Sched) {p slice : ℕ} (used : p < s.unused)
    (isSlice : (s.tasks p).timeSlice = slice) (small : slice < 2 ^ 32) (calls : List ForkCall) :
    (∀ n final, run step ⟨s, [p]⟩ (calls.take n) = some final → final.total ≤ slice) ↔
      GuardedRun step (HasTicks slice) ⟨s, [p]⟩ calls := by
  have total : total ⟨s, [p]⟩ = slice := by
    simp only [Family.total, List.map_cons, List.map_nil, List.sum_cons, List.sum_nil]
    omega
  have inv : Inv slice ⟨s, [p]⟩ := by
    refine ⟨List.nodup_singleton p, fun q mem => ?_, Nat.le_of_eq total, fun _ => total⟩
    rw [List.mem_singleton.mp mem]
    exact used
  exact guardedRun_iff
    (fun _ _ _ (inv : Inv slice _) hasTicks stepped => inv.step small hasTicks stepped)
    (fun _ inv => inv.le) (fun _ _ inv noTicks => inv.broken noTicks) inv calls

/-- `init` forks, and then its child does. -/
theorem total_le_iff_init :
    ∃ s, Sched.initPc.step (.doFork 55 (some 0) 0) = some s ∧
      ((∀ n final, run step ⟨s, [1]⟩ (List.take n [⟨1, -1, some 0, 0⟩, ⟨2, -1, some 0, 0⟩]) =
          some final → final.total ≤ 45) ↔
        GuardedRun step (HasTicks 45) ⟨s, [1]⟩ [⟨1, -1, some 0, 0⟩, ⟨2, -1, some 0, 0⟩]) := by
  have forks : ((Sched.initPc.step (.doFork 55 (some 0) 0)).map fun s =>
      decide (1 < s.unused ∧ (s.tasks 1).timeSlice = 45)) = some true := by
    decide +kernel
  rcases Option.map_eq_some_iff.mp forks with ⟨s, forked, holds⟩
  rw [decide_eq_true_iff] at holds
  exact ⟨s, forked, total_le_iff s holds.1 holds.2 (by decide) _⟩

/-- The first task has one tick when it has made `init`, and forks once more. -/
theorem not_total_le_oneTick :
    ∃ s final, Sched.initPc.step (.doFork 55 (some 0) 0) = some s ∧
      (s.tasks 0).timeSlice = 1 ∧ run step ⟨s, [0]⟩ [⟨0, 55, some 0, 0⟩] = some final ∧
      final.total = 2 := by
  have forks : ((Sched.initPc.step (.doFork 55 (some 0) 0)).bind fun s =>
      (run step ⟨s, [0]⟩ [⟨0, 55, some 0, 0⟩]).map fun final =>
        decide ((s.tasks 0).timeSlice = 1 ∧ final.total = 2)) = some true := by
    decide +kernel
  rcases Option.bind_eq_some_iff.mp forks with ⟨s, forked, ran⟩
  rcases Option.map_eq_some_iff.mp ran with ⟨final, isRun, holds⟩
  rw [decide_eq_true_iff] at holds
  exact ⟨s, final, forked, holds.1, isRun, holds.2⟩

end Family

end Ninix.Process
