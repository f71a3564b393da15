import Ninix.Process.Fork

/-!
# Ending another process

`pc_kill` refuses some identifiers, and looks for the process of the others with the interrupts
disabled. That an identifier is taken and that a process has it are two things, since `pid_free`
leaves most bits set: an identifier that was given back may still count as taken, and when no
process has it `pc_kill` returns without enabling the interrupts again.
-/

namespace Ninix.Process

open TransitionSystem

namespace Sched

/-- `pc_kill` with the interrupt-enable state. -/
def pcKillInterrupts (s : Sched) (pid : ℕ) (enabled : Bool) : Option (ℕ × Bool × Sched) :=
  if pid ≥ pidNum then some (1, enabled, s)
  else if pid = idlePid then some (1, enabled, s)
  else if pid = initPid then some (1, enabled, s)
  else if pid = (s.tasks s.currentTask).pid then some (1, enabled, s)
  else if s.pids.pidCheck pid then some (1, enabled, s)
  else
    let enabled := false
    match s.findInProcesses pid with
    | none => some (0, enabled, s)
    | some p => do
        let s ← s.deleteTask p
        let pids ← s.pids.pidFree pid
        let enabled := true
        some (0, enabled, { s with pids })

/-- The identifiers for which `pc_kill` returns before it disables the interrupts. -/
def Refused (s : Sched) (pid : ℕ) : Prop :=
  pid ≥ pidNum ∨ pid = idlePid ∨ pid = initPid ∨ pid = (s.tasks s.currentTask).pid ∨
    s.pids.pidCheck pid = true

instance (s : Sched) (pid : ℕ) : Decidable (s.Refused pid) :=
  inferInstanceAs (Decidable (_ ∨ _))

/-- The lists, the counters and the identifiers are the same. -/
structure Untouched (s s' : Sched) : Prop where
  processes : s'.processes = s.processes
  arrays : s'.arrays = s.arrays
  nrProcess : s'.nrProcess = s.nrProcess
  nrRunning : s'.nrRunning = s.nrRunning
  pids : s'.pids = s.pids

/-- One process is gone with its identifier, and the others are as they were. -/
structure Killed (s s' : Sched) (pid p : ℕ) : Prop where
  isProcess : p ∈ s.processes
  isPid : (s.tasks p).pid = pid
  other : pid ≠ idlePid ∧ pid ≠ initPid ∧ p ≠ s.currentTask
  gone : p ∉ s'.processes ∧ ¬s'.Linked p
  isFree : s'.pids.pidCheck pid = true
  processes : s'.processes = s.processes.erase p
  queues : ∀ array i,
    (s'.arrays array).queue i = ((s.arrays array).queue i).filter (· ≠ p)
  tasks : ∀ q, q ≠ p → s'.tasks q = s.tasks q
  identifiers : ∀ q, q ≠ pid → s'.pids.isSet q = s.pids.isSet q
  current : s'.currentTask = s.currentTask

/-- `pc_kill` returns with the interrupts enabled, and either fails and changes nothing or ends
the process of the identifier. -/
def ReturnsCleanly (s : Sched) (pid : ℕ) : Prop :=
  ∃ code enabled s', s.pcKillInterrupts pid true = some (code, enabled, s') ∧ enabled = true ∧
    (code ≠ 0 → s.Untouched s') ∧ (code = 0 → ∃ p, s.Killed s' pid p)

variable {s s' : Sched} {pid p : ℕ}

/-- The interrupt-enable state does not change what `pc_kill` does. -/
theorem pcKillInterrupts_eq (s : Sched) (pid : ℕ) (enabled : Bool) :
    (s.pcKillInterrupts pid enabled).map (fun (code, _, s') => (code, s')) = s.pcKill pid := by
  unfold pcKillInterrupts pcKill
  split_ifs
  iterate 5 rfl
  cases s.findInProcesses pid with
  | none => rfl
  | some p =>
      simp only
      cases s.deleteTask p with
      | none => rfl
      | some s₁ =>
          simp only [Option.bind_eq_bind, Option.bind_some]
          cases s₁.pids.pidFree pid <;> rfl

/-- An identifier that is refused changes nothing. -/
theorem pcKillInterrupts_refused (refused : s.Refused pid) (enabled : Bool) :
    s.pcKillInterrupts pid enabled = some (1, enabled, s) := by
  unfold pcKillInterrupts
  split_ifs with isBeyond isIdle isInit isCurrent isFree
  iterate 5 rfl
  rcases refused with beyond | idle | init | current | free
  · exact absurd beyond isBeyond
  · exact absurd idle isIdle
  · exact absurd init isInit
  · exact absurd current isCurrent
  · exact absurd free isFree

/-- Another identifier is looked for on `processes` with the interrupts disabled. -/
theorem pcKillInterrupts_searches (accepted : ¬s.Refused pid) (enabled : Bool) :
    s.pcKillInterrupts pid enabled =
      match s.findInProcesses pid with
      | none => some (0, false, s)
      | some p => (s.deleteTask p).bind fun s =>
          (s.pids.pidFree pid).map fun pids => (0, true, { s with pids }) := by
  simp only [Refused, not_or] at accepted
  rcases accepted with ⟨inside, notIdle, notInit, notCurrent, taken⟩
  unfold pcKillInterrupts
  rw [if_neg inside, if_neg notIdle, if_neg notInit, if_neg notCurrent, if_neg taken]
  cases s.findInProcesses pid with
  | none => rfl
  | some p =>
      simp only [Option.bind_eq_bind, Option.map_eq_bind]
      rfl

/-- `pid_free` of an identifier that is taken returns, and frees few of them. -/
theorem pidFree_taken {map : PidMap} (inside : pid < pidNum) (taken : ¬map.pidCheck pid = true) :
    ∃ map', map.pidFree pid = some map' ∧ (map'.pidCheck pid = true ↔ pid % 32 < 3) ∧
      ∀ other, other ≠ pid → map'.isSet other = map.isSet other := by
  have freed : ∃ map', map.pidFree pid = some map' := by
    unfold PidMap.pidFree
    rw [if_neg taken, if_pos inside]
    exact ⟨_, rfl⟩
  rcases freed with ⟨map', freed⟩
  refine ⟨map', freed, ?_, fun other ne => PidMap.isSet_pidFree_other ne freed⟩
  by_cases clears : pid % 32 < 3
  · have cleared := PidMap.isSet_pidFree clears (Bool.eq_false_iff.mpr taken) freed pid
    rw [decide_eq_false (not_not.mpr rfl), Bool.false_and] at cleared
    exact iff_of_true (PidMap.pidCheck_iff.mpr ⟨inside, cleared⟩) clears
  · rw [PidMap.pidFree_keeps (Nat.not_lt.mp clears) freed]
    exact iff_of_false taken clears

/-- A process that is found is ended, whether or not its identifier becomes free. -/
theorem pcKillInterrupts_found (lists : s.Lists) (accepted : ¬s.Refused pid)
    (found : s.findInProcesses pid = some p) :
    ∃ s', s.pcKillInterrupts pid true = some (0, true, s') ∧
      (s'.pids.pidCheck pid = true ↔ pid % 32 < 3) ∧
      (s'.pids.pidCheck pid = true → s.Killed s' pid p) := by
  have isProcess := List.mem_of_find?_eq_some found
  have isPid : (s.tasks p).pid = pid := by simpa using List.find?_some found
  rcases lists.queued p isProcess with ⟨array, i, isAt⟩
  have deleted := deleteTask_eq isAt.2.1
  have searches := pcKillInterrupts_searches accepted true
  simp only [Refused, not_or] at accepted
  rcases accepted with ⟨inside, notIdle, notInit, notCurrent, taken⟩
  rcases pidFree_taken (Nat.not_le.mp inside) taken with ⟨pids, freed, isFree, identifiers⟩
  rw [found] at searches
  simp only [deleted, Option.bind_some, freed, Option.map_some] at searches
  refine ⟨_, searches, isFree, fun free => ?_⟩
  have erased := (lists.deleteTask deleted).2
  rcases dequeueTask_spec s p array with ⟨arrays, dequeued, queue⟩
  refine
    { isProcess := isProcess
      isPid := isPid
      other := ⟨notIdle, notInit, ?_⟩
      gone := ⟨?_, ?_⟩
      isFree := free
      processes := erased
      queues := ?_
      tasks := fun q ne => Function.update_of_ne ne _ _
      identifiers := identifiers
      current := rfl }
  · rintro rfl
    exact notCurrent isPid.symm
  · exact fun mem => (lists.nodup.mem_erase_iff.mp mem).1 rfl
  · rintro ⟨a, j, mem⟩
    exact (mem_dequeueTask.mp mem).2 rfl
  · intro a j
    simp only [dequeued]
    exact queue a j

/-- An identifier that is refused is answered cleanly. -/
theorem returnsCleanly_refused (refused : s.Refused pid) : s.ReturnsCleanly pid := by
  refine ⟨1, true, s, pcKillInterrupts_refused refused true, rfl, fun _ => ?_, nofun⟩
  exact ⟨rfl, rfl, rfl, rfl, rfl⟩

/-- Where no process has the identifier, the interrupts stay disabled. -/
theorem not_returnsCleanly_none (accepted : ¬s.Refused pid)
    (none : s.findInProcesses pid = none) : ¬s.ReturnsCleanly pid := by
  rintro ⟨code, enabled, s', kills, isEnabled, _⟩
  rw [pcKillInterrupts_searches accepted, none] at kills
  cases kills
  cases isEnabled

/-- Ending a process is clean exactly when the mask of `pid_free` clears its bit. -/
theorem returnsCleanly_found (lists : s.Lists) (accepted : ¬s.Refused pid)
    (found : s.findInProcesses pid = some p) : s.ReturnsCleanly pid ↔ pid % 32 < 3 := by
  rcases pcKillInterrupts_found lists accepted found with ⟨s', kills, isFree, killed⟩
  constructor
  · rintro ⟨code, enabled, s₂, kills', _, _, ended⟩
    rw [kills] at kills'
    cases kills'
    rcases ended rfl with ⟨q, ends⟩
    exact isFree.mp ends.isFree
  · intro clears
    exact ⟨0, true, s', kills, rfl, nofun, fun _ => ⟨p, killed (isFree.mpr clears)⟩⟩

/--
In every state that a run reaches, `pc_kill` returns cleanly exactly when it refuses the
identifier, or a process has it and the mask of `pid_free` clears its bit.
-/
theorem returnsCleanly_iff (s : Sched) (reached : Reach Sched.step (· = initPc) s) (pid : ℕ) :
    s.ReturnsCleanly pid ↔
      s.Refused pid ∨ (∃ p ∈ s.processes, (s.tasks p).pid = pid) ∧ pid % 32 < 3 := by
  rcases lists_of_reach reached with ⟨lists, _⟩
  by_cases refused : s.Refused pid
  · exact iff_of_true (returnsCleanly_refused refused) (Or.inl refused)
  rw [or_iff_right refused]
  cases found : s.findInProcesses pid with
  | none =>
      refine iff_of_false (not_returnsCleanly_none refused found) ?_
      rintro ⟨⟨p, isProcess, isPid⟩, _⟩
      exact absurd (List.find?_eq_none.mp found p isProcess) (by simpa using isPid)
  | some p =>
      have isPid : (s.tasks p).pid = pid := by simpa using List.find?_some found
      have isProcess := List.mem_of_find?_eq_some found
      rw [returnsCleanly_found lists refused found]
      exact ⟨fun clears => ⟨⟨p, isProcess, isPid⟩, clears⟩, And.right⟩

/-- Identifier 2 is freed when its process is ended. -/
theorem returnsCleanly_iff_second : ∃ s : Sched, s.pids.isSet 2 = true ∧ s.ReturnsCleanly 2 := by
  have forks : (run step initPc [.doFork 55 (some 0) 0, .doFork 55 (some 0) 0]).map
      (fun s => (s.pids.isSet 2, s.processes, (s.tasks 2).pid)) = some (true, [1, 2], 2) := by
    decide +kernel
  rcases Option.map_eq_some_iff.mp forks with ⟨s, ran, values⟩
  simp only [Prod.mk.injEq] at values
  rcases values with ⟨isSet, processes, isPid⟩
  have started : Reach step (· = initPc) initPc := .start rfl
  refine ⟨s, isSet, (returnsCleanly_iff s (reach_of_run started ran) 2).mpr 
    (Or.inr ⟨?_, by decide⟩)⟩
  exact ⟨2, by rw [processes]; decide, isPid⟩

/-- Ending process 3 leaves its bit set, and ending it again the interrupts disabled. -/
theorem not_returnsCleanly_third : ∃ s, Reach step (· = initPc) s ∧ ¬s.ReturnsCleanly 3 ∧
    ∃ s', s.step (.pcKill 3) = some s' ∧ ¬s'.ReturnsCleanly 3 := by
  have kills : (run step initPc
      [.doFork 55 (some 0) 0, .doFork 55 (some 0) 0, .doFork 55 (some 0) 0]).bind (fun s =>
        (s.step (.pcKill 3)).map fun s' => (decide (s.Refused 3), s.findInProcesses 3,
          decide (s'.Refused 3), s'.findInProcesses 3)) =
      some (false, some 3, false, none) := by
    decide +kernel
  rcases Option.bind_eq_some_iff.mp kills with ⟨s, ran, rest⟩
  rcases Option.map_eq_some_iff.mp rest with ⟨s', stepped, values⟩
  simp only [Prod.mk.injEq, decide_eq_false_iff_not] at values
  rcases values with ⟨accepted, found, accepted', none⟩
  have started : Reach step (· = initPc) initPc := .start rfl
  have reached := reach_of_run started ran
  refine ⟨s, reached, ?_, s', stepped, not_returnsCleanly_none accepted' none⟩
  rw [returnsCleanly_found (lists_of_reach reached).1 accepted found]
  decide

end Sched

end Ninix.Process
