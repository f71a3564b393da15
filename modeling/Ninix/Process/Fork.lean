import Ninix.Library.ByteMap
import Ninix.Process.RunQueues

/-!
# The outcome of `do_fork`

A failed fork should leave no trace and a successful one give a `pid` no process has. `do_fork`
tests the unsigned result of `pid_alloc` for being negative, so that it goes on with the number
`pid_alloc` reports exhaustion by; and where it finds that there is no memory, it gives the `pid`
back through `pid_free`, which clears the bit of few of them.
-/

namespace Ninix.Process

open TransitionSystem

namespace PidMap

variable {map map' : PidMap} {pid other : ℕ}

/-- What `pid_alloc` returns when no identifier is free. -/
abbrev exhausted : ℕ := 2 ^ 32 - 1

/-- An identifier that `pid_alloc` can give. -/
def HasFree (map : PidMap) : Prop := ∃ pid < pidNum, 1 ≤ pid ∧ map.pidCheck pid

instance (map : PidMap) : Decidable map.HasFree :=
  inferInstanceAs (Decidable (∃ pid < _, _))

/-- The mask of `pid_free` is empty for an identifier whose last five bits are 3 or more. -/
theorem pidFree_keeps (shifted : 3 ≤ pid % 32) (freed : map.pidFree pid = some map') :
    map' = map := by
  have mask : (((1 : BitVec 32) <<< (pid % 32)) &&& 7).setWidth 8 = 0 := by
    have below : pid % 32 < 32 := Nat.mod_lt _ (by decide)
    generalize pid % 32 = shift at shifted below ⊢
    interval_cases shift <;> rfl
  unfold pidFree at freed
  split_ifs at freed
  · exact (Option.some.inj freed).symm
  · cases freed
    have unchanged : ∀ byte : BitVec 8, byte &&& ~~~0 = byte := by decide +kernel
    rw [mask, unchanged, Function.update_eq_self]

/-- The number that reports exhaustion lies beyond the bitmap. -/
theorem pidFree_exhausted : map.pidFree exhausted = none := by
  have beyond : map.pidCheck exhausted = false := by
    unfold pidCheck
    rw [decide_eq_false (by decide), Bool.false_and]
  unfold pidFree
  rw [if_neg (Bool.eq_false_iff.mp beyond), if_neg (by decide)]

/-- No identifier but the one that is freed loses its bit. -/
theorem isSet_pidFree_other (ne : other ≠ pid) (freed : map.pidFree pid = some map') :
    map'.isSet other = map.isSet other := by
  by_cases isFree : map.pidCheck pid = true
  · unfold pidFree at freed
    rw [if_pos isFree] at freed
    cases freed
    rfl
  · by_cases clears : pid % 32 < 3
    · rw [isSet_pidFree clears (Bool.eq_false_iff.mpr isFree) freed, decide_eq_true ne,
        Bool.true_and]
    · rw [pidFree_keeps (Nat.not_lt.mp clears) freed]

/-- `pid_alloc` reports exhaustion exactly when no identifier is free. -/
theorem pidAlloc_exhausted (inside : 1 ≤ map.nextPid ∧ map.nextPid < pidNum) :
    map.pidAlloc.1 = exhausted ↔ ¬map.HasFree := by
  rcases map.pidAlloc_spec inside with
    ⟨pid, nextPid, allocated, lower, upper, isFree, _⟩ | ⟨allocated, allSet⟩
  · rw [allocated]
    have notFailed : pid ≠ 2 ^ 32 - 1 := by
      unfold pidNum at upper
      omega
    exact iff_of_false notFailed (not_not.mpr ⟨pid, upper, lower, pidCheck_iff.mpr ⟨upper, isFree⟩⟩)
  · rw [allocated]
    refine iff_of_true rfl ?_
    rintro ⟨pid, upper, lower, isFree⟩
    rw [pidCheck_iff, allSet pid lower upper] at isFree
    exact absurd isFree.2 (by decide)

/-- A map of identifiers is known by its bits. -/
theorem pidmap_eq (same : ∀ pid, map'.isSet pid = map.isSet pid) : map'.pidmap = map.pidmap :=
  ByteMap.eq_of_isSet same

/-- Giving back what `pid_alloc` has just given restores the bitmap for few identifiers. -/
theorem pidFree_pidAlloc (inside : 1 ≤ map.nextPid ∧ map.nextPid < pidNum) (hasFree : map.HasFree) :
    ∃ map', map.pidAlloc.2.pidFree map.pidAlloc.1 = some map' ∧
      (map'.pidmap = map.pidmap ↔ map.pidAlloc.1 % 32 < 3) := by
  rcases map.pidAlloc_spec inside with
    ⟨pid, nextPid, allocated, lower, upper, isFree, _⟩ | ⟨allocated, allSet⟩
  · rw [allocated]
    have isSet : (map.mark pid nextPid).isSet pid = true := by
      rw [isSet_mark, decide_eq_true rfl, Bool.true_or]
    have held : (map.mark pid nextPid).pidCheck pid = false := by
      rw [Bool.eq_false_iff, Ne, pidCheck_iff]
      simp [isSet]
    have freed : ∃ map', (map.mark pid nextPid).pidFree pid = some map' := by
      unfold pidFree
      rw [if_neg (Bool.eq_false_iff.mp held), if_pos upper]
      exact ⟨_, rfl⟩
    rcases freed with ⟨map', freed⟩
    refine ⟨map', freed, fun same => ?_, fun clears => pidmap_eq fun other => ?_⟩
    · by_contra shifted
      have kept := pidFree_keeps (Nat.not_lt.mp shifted) freed
      have stillSet : map.isSet pid = true := by
        rw [← isSet, ← kept]
        unfold PidMap.isSet
        rw [same]
      rw [isFree] at stillSet
      cases stillSet
    · rw [isSet_pidFree clears held freed, isSet_mark]
      by_cases isPid : other = pid
      · simp [isPid, isFree]
      · simp [isPid]
  · exact absurd hasFree ((pidAlloc_exhausted inside).mp (by rw [allocated]))

end PidMap

namespace Sched

variable {s s' : Sched} {p q : ℕ}

/-- Every process has an identifier of its own whose bit is set, unless it was made when none was
free. -/
structure PidsHeld (s : Sched) : Prop where
  held : ∀ p ∈ s.processes, (s.tasks p).pid = PidMap.exhausted ∨
    (s.tasks p).pid < pidNum ∧ s.pids.isSet (s.tasks p).pid = true
  own : ∀ p ∈ s.processes, ∀ q ∈ s.processes, (s.tasks p).pid = (s.tasks q).pid → p = q ∨
    (s.tasks p).pid = PidMap.exhausted
  next : 1 ≤ s.pids.nextPid ∧ s.pids.nextPid < pidNum

/-- A state with fewer processes and the bits they need. -/
theorem PidsHeld.shrink (held : s.PidsHeld) (processes : ∀ q ∈ s'.processes, q ∈ s.processes)
    (pid : ∀ q ∈ s'.processes, (s'.tasks q).pid = (s.tasks q).pid)
    (kept : ∀ q ∈ s'.processes, (s.tasks q).pid < pidNum →
      s.pids.isSet (s.tasks q).pid = true → s'.pids.isSet (s.tasks q).pid = true)
    (next : s'.pids.nextPid = s.pids.nextPid) : s'.PidsHeld where
  held := by
    intro q isProcess
    rw [pid q isProcess]
    rcases held.held q (processes q isProcess) with isExhausted | ⟨below, isSet⟩
    · exact Or.inl isExhausted
    · exact Or.inr ⟨below, kept q isProcess below isSet⟩
  own := by
    intro p isProcess q isProcess' same
    rw [pid p isProcess, pid q isProcess'] at same
    rw [pid p isProcess]
    exact held.own p (processes p isProcess) q (processes q isProcess') same
  next := by
    rw [next]
    exact held.next

/-- The end of a process frees no identifier but its own. -/
theorem PidsHeld.freed (held : s.PidsHeld) (nodup : s.processes.Nodup) (isProcess : p ∈ s.processes)
    (processes : s'.processes = s.processes.erase p)
    (pid : ∀ q, (s'.tasks q).pid = (s.tasks q).pid)
    (freed : s.pids.pidFree (s.tasks p).pid = some s'.pids) : s'.PidsHeld := by
  have erased : ∀ q ∈ s'.processes, q ≠ p ∧ q ∈ s.processes := by
    intro q isProcess'
    rw [processes] at isProcess'
    exact nodup.mem_erase_iff.mp isProcess'
  apply held.shrink (fun q isProcess' => (erased q isProcess').2) (fun q _ => pid q)
  · intro q isProcess' below isSet
    have ne : (s.tasks q).pid ≠ (s.tasks p).pid := by
      intro same
      rcases held.own q (erased q isProcess').2 p isProcess same with isTask | isExhausted
      · exact (erased q isProcess').1 isTask
      · rw [isExhausted] at below
        exact absurd below (by decide)
    rw [PidMap.isSet_pidFree_other ne freed]
    exact isSet
  · exact PidMap.pidFree_nextPid freed

theorem PidsHeld.same (held : s.PidsHeld) (processes : s'.processes = s.processes)
    (pid : ∀ q, (s'.tasks q).pid = (s.tasks q).pid) (pids : s'.pids = s.pids) : s'.PidsHeld := by
  apply held.shrink
  · intro q isProcess
    rw [processes] at isProcess
    exact isProcess
  · exact fun q _ => pid q
  · intro q _ _ isSet
    rw [pids]
    exact isSet
  · rw [pids]

theorem PidsHeld.scheduled (held : s.PidsHeld) {now : ℕ} (scheduled : s.schedule now = some s') :
    s'.PidsHeld := by
  have quiet := (schedule_quiet scheduled).1
  apply held.same
  · exact quiet.processes.trans (exchange_processes s)
  · intro q
    rw [(quiet.tasks q).pid, (exchange_spec s).1]
  · exact quiet.pids.trans (exchange_pids s)

theorem PidsHeld.noMemory (held : s.PidsHeld) {pids : PidMap}
    (freed : s.pids.pidAlloc.2.pidFree s.pids.pidAlloc.1 = some pids) :
    PidsHeld { s with pids } := by
  rcases s.pids.pidAlloc_spec held.next with
    ⟨pid, nextPid, allocated, lower, upper, isFree, inside⟩ | ⟨allocated, allSet⟩
  · rw [allocated] at freed
    have held' : PidsHeld { s with pids := s.pids.mark pid nextPid } := by
      refine ⟨fun q isProcess => ?_, held.own, inside⟩
      rcases held.held q isProcess with isExhausted | ⟨below, isSet⟩
      · exact Or.inl isExhausted
      · refine Or.inr ⟨below, ?_⟩
        show (s.pids.mark pid nextPid).isSet _ = true
        rw [PidMap.isSet_mark, isSet, Bool.or_true]
    refine held'.shrink (fun q isProcess => isProcess) (fun _ _ => rfl) ?_
      (PidMap.pidFree_nextPid freed)
    intro q isProcess below isSet
    have ne : (s.tasks q).pid ≠ pid := by
      intro isPid
      rcases held.held q isProcess with isExhausted | ⟨_, isSet'⟩
      · have below' : (s.tasks q).pid < pidNum := below
        rw [isExhausted] at below'
        exact absurd below' (by decide)
      · rw [isPid, isFree] at isSet'
        cases isSet'
    show pids.isSet (s.tasks q).pid = true
    rw [PidMap.isSet_pidFree_other ne freed]
    exact isSet
  · rw [allocated] at freed
    rw [PidMap.pidFree_exhausted] at freed
    cases freed

theorem PidsHeld.forked (held : s.PidsHeld) (processes : s'.processes = s.processes ++ [s.unused])
    (notProcess : s.unused ∉ s.processes) (pids : s'.pids = s.pids.pidAlloc.2)
    (others : ∀ q, q ≠ s.unused → (s'.tasks q).pid = (s.tasks q).pid)
    (pid : (s'.tasks s.unused).pid = s.pids.pidAlloc.1) : s'.PidsHeld := by
  have old : ∀ q ∈ s.processes, (s'.tasks q).pid = (s.tasks q).pid := fun q isProcess =>
    others q fun isNew => notProcess (isNew ▸ isProcess)
  have mem : ∀ q ∈ s'.processes, q ∈ s.processes ∨ q = s.unused := by
    intro q isProcess
    rw [processes, List.mem_append, List.mem_singleton] at isProcess
    exact isProcess
  rcases s.pids.pidAlloc_spec held.next with
    ⟨newPid, nextPid, allocated, lower, upper, isFree, inside⟩ | ⟨allocated, allSet⟩
  · rw [allocated] at pid pids
    have fresh : ∀ q ∈ s.processes, (s.tasks q).pid ≠ newPid := by
      intro q isProcess isPid
      rcases held.held q isProcess with isExhausted | ⟨_, isSet⟩
      · rw [isPid] at isExhausted
        rw [isExhausted] at upper
        exact absurd upper (by decide)
      · rw [isPid, isFree] at isSet
        cases isSet
    constructor
    · intro q isProcess
      rw [pids, PidMap.isSet_mark]
      rcases mem q isProcess with isOld | rfl
      · rw [old q isOld]
        rcases held.held q isOld with isExhausted | ⟨below, isSet⟩
        · exact Or.inl isExhausted
        · exact Or.inr ⟨below, by rw [isSet, Bool.or_true]⟩
      · rw [pid]
        exact Or.inr ⟨upper, by rw [decide_eq_true rfl, Bool.true_or]⟩
    · intro p isProcess q isProcess' same
      rcases mem p isProcess with isOld | rfl
      · rcases mem q isProcess' with isOld' | rfl
        · rw [old p isOld, old q isOld'] at same
          rw [old p isOld]
          exact held.own p isOld q isOld' same
        · rw [old p isOld, pid] at same
          exact absurd same (fresh p isOld)
      · rcases mem q isProcess' with isOld' | rfl
        · rw [old q isOld', pid] at same
          exact absurd same.symm (fresh q isOld')
        · exact Or.inl rfl
    · rw [pids]
      exact inside
  · rw [allocated] at pid pids
    constructor
    · intro q isProcess
      rcases mem q isProcess with isOld | rfl
      · rw [old q isOld, pids]
        exact held.held q isOld
      · exact Or.inl pid
    · intro p isProcess q isProcess' same
      rcases mem p isProcess with isOld | rfl
      · rcases mem q isProcess' with isOld' | rfl
        · rw [old p isOld, old q isOld'] at same
          rw [old p isOld]
          exact held.own p isOld q isOld' same
        · exact Or.inr (same.trans pid)
      · exact Or.inr pid
    · rw [pids]
      exact held.next

theorem deleteTask_pids (deleted : s.deleteTask p = some s') : s'.pids = s.pids := by
  rcases Option.map_eq_some_iff.mp deleted with ⟨b, isArray, _⟩
  rw [deleteTask_eq isArray] at deleted
  cases deleted
  rfl

theorem PidsHeld.step (held : s.PidsHeld) (lists : s.Lists) (current : s.CurrentListed)
    {op : SchedOp} (stepped : s.step op = some s') : s'.PidsHeld := by
  cases op with
  | doFork setPrio memory clock =>
      rcases Option.map_eq_some_iff.mp stepped with ⟨⟨pid, s₂⟩, forked, rfl⟩
      by_cases isPrio : ForkPrio setPrio
      · cases memory with
        | none =>
            rw [doFork_noMemory isPrio] at forked
            rcases Option.map_eq_some_iff.mp forked with ⟨pids, freed, pair⟩
            cases pair
            exact held.noMemory freed
        | some starveCount =>
            rcases lists.doFork isPrio forked with
              ⟨_, processes, _, pids, isPid, others, pid'⟩
            exact held.forked processes lists.sane.notProcess pids others (pid'.trans isPid)
      · rw [doFork_refused isPrio] at forked
        cases forked
        exact held
  | schedulerTick clock now =>
      rcases Option.bind_eq_some_iff.mp stepped with ⟨⟨s₁, reschedule⟩, accounted, rest⟩
      have lists₀ := lists.tick clock
      rcases tickAccount_cases (lists₀.sane.valid _ lists₀.sane.currentUsed) with
        ⟨s₂, _, accounted', ticked⟩
      rw [accounted] at accounted'
      cases accounted'
      rcases ticked.lists lists₀ current with ⟨_, processes, pids, _, pid⟩
      have held₁ : s₁.PidsHeld := held.same processes pid pids
      cases reschedule with
      | false =>
          cases rest
          exact held₁
      | true => exact held₁.scheduled rest
  | schedule now => exact held.scheduled stepped
  | pcExit now =>
      rcases pcExit_cases stepped with ⟨s₁, s₂, next, pids, deleted, found, freed, rfl⟩
      rcases Option.map_eq_some_iff.mp deleted with ⟨array, isArray, _⟩
      have isProcess := lists.known _ lists.sane.currentUsed array isArray
      rcases findNextTask_quiet found with ⟨quiet, _⟩
      have pid : ∀ q, (s₂.tasks q).pid = (s.tasks q).pid := by
        intro q
        rw [(quiet.tasks q).pid, (exchange_spec s₁).1]
        exact deleteTask_pid deleted q
      have pids₂ : s₂.pids = s.pids :=
        (quiet.pids.trans (exchange_pids s₁)).trans (deleteTask_pids deleted)
      rw [pid, pids₂] at freed
      have processes : s₂.processes = s.processes.erase s.currentTask :=
        (quiet.processes.trans (exchange_processes s₁)).trans (lists.deleteTask deleted).2
      have held' : PidsHeld { s₂ with pids } :=
        held.freed lists.nodup isProcess processes pid freed
      exact ⟨held'.held, held'.own, held'.next⟩
  | pcKill pid =>
      rcases Option.map_eq_some_iff.mp stepped with ⟨⟨code, s₂⟩, kills, rfl⟩
      rcases pcKill_cases kills with rfl |
        ⟨p, s₁, pids, _, isProcess, isPid, _, _, deleted, _, freed, rfl⟩
      · exact held
      · rw [deleteTask_pids deleted, ← isPid] at freed
        have processes := (lists.deleteTask deleted).2
        have pid' := deleteTask_pid deleted
        show PidsHeld { s₁ with pids }
        exact held.freed lists.nodup isProcess processes pid' freed

theorem initPc_pidsHeld : initPc.PidsHeld where
  held p isProcess := by simp [initPc] at isProcess
  own p isProcess := by simp [initPc] at isProcess
  next := by decide

theorem pidsHeld_of_reach (reached : Reach step (· = initPc) s) : s.PidsHeld := by
  have all : s.PidsHeld ∧ s.Lists ∧ s.CurrentListed := by
    let inv : Sched → Prop := fun s => s.PidsHeld ∧ s.Lists ∧ s.CurrentListed
    show inv s
    apply reached.invariant
    · intro s start
      rw [start]
      exact ⟨initPc_pidsHeld, initPc_lists, fun notIdle => absurd rfl notIdle⟩
    · rintro s op s' ⟨held, lists, current⟩ _ stepped
      exact ⟨held.step lists current stepped, lists.step current stepped⟩
  exact all.1

/-! ## The outcome -/

/-- Nothing of what a fork changes has changed. -/
structure Unforked (s s' : Sched) : Prop where
  pidmap : s'.pids.pidmap = s.pids.pidmap
  processes : s'.processes = s.processes
  nrProcess : s'.nrProcess = s.nrProcess
  nrRunning : s'.nrRunning = s.nrRunning
  arrays : s'.arrays = s.arrays
  tasks : s'.tasks = s.tasks

/-- One task more is there, with an identifier no process had. -/
structure ForkedOne (s s' : Sched) (pid : ℕ) : Prop where
  range : 1 ≤ pid ∧ pid < pidNum
  fresh : ∀ p ∈ s.processes, (s.tasks p).pid ≠ pid
  processes : s'.processes = s.processes ++ [s.unused]
  newTask : s.unused ∉ s.processes ∧ (s'.tasks s.unused).pid = pid
  others : ∀ p ∈ s.processes, (s'.tasks p).pid = (s.tasks p).pid
  queued : ∃ i, s'.At s.unused s'.active i
  queues : ∀ array i,
    ((s'.arrays array).queue i).filter (· ≠ s.unused) = (s.arrays array).queue i
  nrProcess : s'.nrProcess = s.nrProcess + 1
  nrRunning : s'.nrRunning = s.nrRunning + 1

/-- A fork returns, with 0 and no change or with an identifier and one task more, and with 0 when
`pid_alloc` reports exhaustion. -/
def AllOrNothing (s : Sched) (setPrio : ℤ) (memory : Option ℕ) (clock : ℕ) : Prop :=
  ∃ pid s', s.doFork setPrio memory clock = some (pid, s') ∧
    (pid = 0 ∧ s.Unforked s' ∨ s.ForkedOne s' pid) ∧
    (s.pids.pidAlloc.1 = PidMap.exhausted → pid = 0)

theorem Unforked.refl (s : Sched) : s.Unforked s := ⟨rfl, rfl, rfl, rfl, rfl, rfl⟩

theorem forkedOne_of_made (lists : s.Lists) (held : s.PidsHeld) (hasFree : s.pids.HasFree)
    {setPrio : ℤ} (isPrio : ForkPrio setPrio) {starveCount clock pid : ℕ}
    (forked : s.doFork setPrio (some starveCount) clock = some (pid, s')) :
    s.ForkedOne s' pid := by
  rcases lists.doFork isPrio forked with ⟨_, processes, _, pids, isPid, others, newPid⟩
  rcases doFork_made lists.sane isPrio starveCount clock with ⟨s₁, s₂, forked', born, quiet, _⟩
  rw [forked'] at forked
  cases forked
  rcases s.pids.pidAlloc_spec held.next with
    ⟨pid, nextPid, allocated, lower, upper, isFree, _⟩ | ⟨allocated, _⟩
  · have isPid' : s.pids.pidAlloc.1 = pid := by rw [allocated]
    rw [isPid'] at newPid ⊢
    constructor
    · exact ⟨lower, upper⟩
    · intro p isProcess same
      rcases held.held p isProcess with isExhausted | ⟨_, isSet⟩
      · rw [same] at isExhausted
        rw [isExhausted] at upper
        exact absurd upper (by decide)
      · rw [same, isFree] at isSet
        cases isSet
    · exact processes
    · exact ⟨lists.sane.notProcess, newPid⟩
    · exact fun p isProcess => others p fun isNew => lists.sane.notProcess (isNew ▸ isProcess)
    · refine ⟨(s₁.tasks s.unused).effectivePrio, ?_⟩
      have isAt := (lists.sane.new_at born).quiet quiet
      rw [quiet.active]
      exact isAt
    · intro array i
      have notIn : s.unused ∉ (s.arrays array).queue i := fun mem =>
        Nat.lt_irrefl _ (lists.sane.linkedUsed _ ⟨array, i, mem⟩)
      have others : ((s.arrays array).queue i).filter (· ≠ s.unused) =
          (s.arrays array).queue i := by
        apply List.filter_eq_self.mpr
        intro q mem
        have ne : q ≠ s.unused := fun isNew => notIn (isNew ▸ mem)
        simpa using ne
      rcases enqueueTask_spec s₁ s.unused s₁.active with ⟨arrays, eq, queue⟩
      rw [quiet.arrays]
      show (((s₁.enqueueTask s.unused s₁.active).arrays array).queue i).filter _ = _
      rw [eq, queue, born.arrays]
      split
      next isQueue =>
        rw [List.filter_append, ← isQueue.1, others]
        simp
      next => exact others
    · rw [quiet.nrProcess]
      exact born.nrProcess
    · rw [quiet.nrRunning, activateTask_eq]
      show s₁.nrRunning + 1 = s.nrRunning + 1
      rw [born.nrRunning]
  · exact absurd hasFree ((PidMap.pidAlloc_exhausted held.next).mp (by rw [allocated]))

/--
In every state that a run reaches, a fork is all or nothing exactly when its priority is refused,
or an identifier is free and there is memory for the task or the mask of `pid_free` clears the
bit of the identifier that `pid_alloc` gives.
-/
theorem allOrNothing_iff (s : Sched) (reached : Reach step (· = initPc) s) (setPrio : ℤ)
    (memory : Option ℕ) (clock : ℕ) :
    s.AllOrNothing setPrio memory clock ↔ ¬ForkPrio setPrio ∨
      s.pids.HasFree ∧ (memory ≠ none ∨ s.pids.pidAlloc.1 % 32 < 3) := by
  rcases lists_of_reach reached with ⟨lists, _⟩
  have held := pidsHeld_of_reach reached
  by_cases isPrio : ForkPrio setPrio
  · rw [or_iff_right (not_not.mpr isPrio)]
    have exhausted := PidMap.pidAlloc_exhausted held.next
    cases memory with
    | none =>
        by_cases hasFree : s.pids.HasFree
        · rcases PidMap.pidFree_pidAlloc held.next hasFree with ⟨pids, freed, restores⟩
          have forked : s.doFork setPrio none clock = some (0, { s with pids }) := by
            rw [doFork_noMemory isPrio, freed]
            rfl
          unfold AllOrNothing
          rw [forked]
          constructor
          · rintro ⟨pid, s', isForked, outcome, _⟩
            cases isForked
            rcases outcome with ⟨_, unforked⟩ | one
            · exact ⟨hasFree, Or.inr (restores.mp unforked.pidmap)⟩
            · exact absurd one.range.1 (by decide)
          · rintro ⟨_, notNone | clears⟩
            · exact absurd rfl notNone
            · exact ⟨0, _, rfl, Or.inl ⟨rfl, restores.mpr clears, rfl, rfl, rfl, rfl, rfl⟩,
                fun _ => rfl⟩
        · refine iff_of_false ?_ fun both => hasFree both.1
          rintro ⟨pid, s', isForked, _⟩
          rw [doFork_noMemory isPrio] at isForked
          rcases s.pids.pidAlloc_spec held.next with
            ⟨_, _, allocated, lower, upper, isFree, _⟩ | ⟨allocated, _⟩
          · exact hasFree ⟨_, upper, lower, PidMap.pidCheck_iff.mpr ⟨upper, isFree⟩⟩
          · rw [allocated, PidMap.pidFree_exhausted] at isForked
            cases isForked
    | some starveCount =>
        rcases doFork_made lists.sane isPrio starveCount clock with ⟨_, s', forked, _⟩
        constructor
        · rintro ⟨pid, s₂, isForked, _, zero⟩
          rw [forked] at isForked
          cases isForked
          refine ⟨?_, Or.inl (by simp)⟩
          by_contra none
          have isExhausted := exhausted.mpr none
          have isZero := zero isExhausted
          rw [isExhausted] at isZero
          cases isZero
        · rintro ⟨hasFree, _⟩
          refine ⟨_, s', forked, Or.inr (forkedOne_of_made lists held hasFree isPrio forked), ?_⟩
          exact fun isExhausted => absurd hasFree (exhausted.mp isExhausted)
  · refine iff_of_true ?_ (Or.inl isPrio)
    exact ⟨0, s, doFork_refused isPrio _ _, Or.inl ⟨rfl, Unforked.refl s⟩, fun _ => rfl⟩

/-- The first fork after `init_pc`. -/
theorem allOrNothing_iff_first : initPc.AllOrNothing 55 (some 0) 0 := by
  have started : Reach step (· = initPc) initPc := .start rfl
  exact (allOrNothing_iff initPc started 55 (some 0) 0).mpr
    (Or.inr ⟨by decide +kernel, Or.inl (by decide)⟩)

/-- As long as there are identifiers, forks after `init_pc` take one after the other. -/
theorem run_forks {n : ℕ} (lt : n < pidNum) :
    ∃ s, run step initPc (List.replicate n (.doFork 55 (some 0) 0)) = some s ∧
      s.pids.nextPid = (if n + 1 < pidNum then n + 1 else 1) ∧
      ∀ pid < pidNum, s.pids.isSet pid = decide (pid ≤ n) := by
  induction n with
  | zero =>
      have isSet : ∀ pid < pidNum, PidMap.initPid.isSet pid = decide (pid ≤ 0) := by decide +kernel
      exact ⟨initPc, rfl, rfl, isSet⟩
  | succ n ih =>
      rcases ih (Nat.lt_of_succ_lt lt) with ⟨s, ran, next, isSet⟩
      have started : Reach step (· = initPc) initPc := .start rfl
      have reached := reach_of_run started ran
      have isPrio : ForkPrio 55 := by decide
      have lists := (lists_of_reach reached).1
      rcases doFork_made lists.sane isPrio 0 0 with ⟨_, s', forked, _⟩
      have pids := (lists.doFork isPrio forked).2.2.2.1
      rw [if_pos lt] at next
      have isFree : s.pids.pidCheck s.pids.nextPid = true := by
        rw [PidMap.pidCheck_iff, next, isSet _ lt]
        exact ⟨lt, decide_eq_false (Nat.not_succ_le_self n)⟩
      have allocated : s.pids.pidAlloc.2 =
          s.pids.mark (n + 1) (if n + 1 < pidNum - 1 then n + 1 + 1 else 1) := by
        rw [PidMap.pidAlloc, if_pos isFree, next]
      refine ⟨s', ?_, ?_, fun pid upper => ?_⟩
      · have stepped : step s (.doFork 55 (some 0) 0) = some s' := by
          rw [step, forked]
          rfl
        rw [List.replicate_succ', run_append, ran, Option.bind_some, run, stepped]
        rfl
      · rw [pids, allocated]
        exact if_congr (by unfold pidNum; omega) rfl rfl
      · rw [pids, allocated, PidMap.isSet_mark, isSet pid upper, ← Bool.decide_or]
        exact decide_eq_decide.mpr (by omega)

/-- After 255 forks no identifier is left, and one fork more makes a task all the same. -/
theorem not_allOrNothing_exhausted : ¬∀ s : Sched, Reach step (· = initPc) s →
    ∀ setPrio memory clock, s.AllOrNothing setPrio memory clock := by
  intro always
  rcases run_forks (show 255 < pidNum by decide) with ⟨s, ran, _, isSet⟩
  have started : Reach step (· = initPc) initPc := .start rfl
  have reached := reach_of_run started ran
  have noneFree : ¬s.pids.HasFree := by
    rintro ⟨pid, upper, _, isFree⟩
    have notSet := (PidMap.pidCheck_iff.mp isFree).2
    rw [isSet pid upper, decide_eq_false_iff_not] at notSet
    exact notSet (Nat.le_of_lt_succ upper)
  have isExhausted := (PidMap.pidAlloc_exhausted (pidsHeld_of_reach reached).next).mpr noneFree
  rcases always s reached 55 (some 0) 0 with ⟨pid, s', forked, _, zero⟩
  have isPrio : ForkPrio 55 := by decide
  have given := ((lists_of_reach reached).1.doFork isPrio forked).2.2.2.2.1
  rw [isExhausted, zero isExhausted] at given
  cases given

end Sched

end Ninix.Process
