import Ninix.Library.ByteMap
import Ninix.Process.RunQueues

/-!
# The next task

`schedule` and `find_next_task` take the first task of the queue that `highest_prio` names. The
bitmap and `highest_prio` know which queues hold tasks as long as `dequeue_task`, which looks at
the queue of the priority a task has now, does not take the last task off another queue. When no
task is there to choose they take the idle task, but the pointer to it is never set.
-/

namespace Ninix.Process

open TransitionSystem

namespace PrioArray

/-- The bitmap and the highest priority are those of the queues. -/
structure Indexed (info : PrioArray) : Prop where
  bits : ∀ i < maxPrio, ByteMap.isSet info.bitmap i = true ↔ info.queue i ≠ []
  le : info.highestPrio ≤ maxPrio
  highest : info.highestPrio < maxPrio → info.queue info.highestPrio ≠ []
  above : ∀ i < info.highestPrio, info.queue i = []

variable {info : PrioArray} {e i : ℕ}

theorem updateHighestPro_enqueue (lt : e < maxPrio) :
    info.updateHighestPro e true =
      { info with highestPrio := if info.highestPrio < e then info.highestPrio else e } := by
  unfold updateHighestPro
  rw [if_neg (Nat.not_le.mpr lt)]
  split
  · rfl
  · rfl

/-- Where the queue of the highest priority has become empty, the next one is searched for. -/
theorem updateHighestPro_dequeue (lt : e < maxPrio) (isHighest : info.highestPrio = e) :
    info.updateHighestPro e false =
      { info with
        highestPrio := (ByteMap.firstFrom info.bitmap (e / 8) bitmapSize).getD maxPrio } := by
  unfold updateHighestPro ByteMap.firstFrom
  rw [if_neg (Nat.not_le.mpr lt), if_neg (by omega), if_neg (by decide), if_pos isHighest]
  cases found : (List.range' (e / 8) (bitmapSize - e / 8)).find?
      fun index => info.bitmap index != 0 with
  | none => rfl
  | some index =>
      have notZero : info.bitmap index ≠ 0 := by
        simpa using List.find?_some found
      rcases ByteMap.exists_first notZero with ⟨off, found'⟩
      simp only [Option.bind_some, found']
      rfl

theorem updateHighestPro_other (other : info.highestPrio ≠ e) :
    info.updateHighestPro e false = info := by
  unfold updateHighestPro
  split
  · rfl
  · split
    · rfl
    · simp

/-- Emptiness of the queues is all that matters. -/
theorem Indexed.congr {other : PrioArray} (indexed : info.Indexed)
    (bits : ∀ i < maxPrio, ByteMap.isSet other.bitmap i = ByteMap.isSet info.bitmap i)
    (highest : other.highestPrio = info.highestPrio)
    (queues : ∀ i, other.queue i = [] ↔ info.queue i = []) : other.Indexed where
  bits := by
    intro i lt
    rw [bits i lt, indexed.bits i lt]
    exact not_congr (queues i).symm
  le := by
    rw [highest]
    exact indexed.le
  highest := by
    rw [highest]
    exact fun lt empty => indexed.highest lt ((queues _).mp empty)
  above := by
    rw [highest]
    exact fun i lt => (queues i).mpr (indexed.above i lt)

/-- Putting a task on a queue. -/
theorem Indexed.add (indexed : info.Indexed) (queue : ℕ → List ℕ) (n : ℕ) (lt : e < maxPrio)
    (here : queue e ≠ []) (others : ∀ i, i ≠ e → queue i = info.queue i) :
    Indexed { (({ info with queue }.setBitMap e).updateHighestPro e true) with nrActive := n } := by
  rw [updateHighestPro_enqueue lt]
  constructor
  · intro i isQueue
    show ByteMap.isSet (ByteMap.set info.bitmap e) i = true ↔ queue i ≠ []
    rw [ByteMap.isSet_set]
    by_cases isHere : i = e
    · simp [isHere, here]
    · rw [decide_eq_false isHere, Bool.false_or, others i isHere]
      exact indexed.bits i isQueue
  · show (if info.highestPrio < e then info.highestPrio else e) ≤ maxPrio
    split
    · exact indexed.le
    · exact Nat.le_of_lt lt
  · show (if info.highestPrio < e then info.highestPrio else e) < maxPrio →
      queue (if info.highestPrio < e then info.highestPrio else e) ≠ []
    intro isQueue
    split
    next higher =>
      rw [others _ (Nat.ne_of_lt higher)]
      exact indexed.highest (Nat.lt_trans higher lt)
    next => exact here
  · intro i isAbove
    change i < if info.highestPrio < e then info.highestPrio else e at isAbove
    show queue i = []
    split at isAbove
    next higher =>
      rw [others i (by omega)]
      exact indexed.above i isAbove
    next notHigher =>
      rw [others i (by omega)]
      exact indexed.above i (by omega)

/-- Taking the last task off a queue. -/
theorem Indexed.removeLast (indexed : info.Indexed) (queue : ℕ → List ℕ) (n : ℕ)
    (lt : e < maxPrio) (was : info.queue e ≠ []) (empty : queue e = [])
    (others : ∀ i, i ≠ e → queue i = info.queue i) :
    Indexed (({ info with nrActive := n, queue }.clearBitMap e).updateHighestPro e false) := by
  have bits : ∀ i < maxPrio,
      (ByteMap.isSet (ByteMap.clear info.bitmap e) i = true ↔ queue i ≠ []) := by
    intro i isQueue
    rw [ByteMap.isSet_clear]
    by_cases isHere : i = e
    · simp [isHere, empty]
    · rw [decide_eq_false isHere, Bool.not_false, Bool.true_and, others i isHere]
      exact indexed.bits i isQueue
  by_cases isHighest : info.highestPrio = e
  · rw [updateHighestPro_dequeue lt (by exact isHighest)]
    have found := ByteMap.firstFrom_spec (ByteMap.clear info.bitmap e) (e / 8) bitmapSize
    have below : ∀ j, j < e → queue j = [] := by
      intro j isBelow
      rw [others j (Nat.ne_of_lt isBelow)]
      exact indexed.above j (by omega)
    -- in front of the byte of the old priority all queues are empty
    have empties : ∀ h ≤ maxPrio, (∀ j, e / 8 * 8 ≤ j → j < h →
        ByteMap.isSet (ByteMap.clear info.bitmap e) j = false) → ∀ j < h, queue j = [] := by
      intro h le notSet j isAbove
      by_cases isBelow : j < e
      · exact below j isBelow
      · by_contra notEmpty
        have isSet := (bits j (by omega)).mpr notEmpty
        rw [notSet j (by omega) isAbove] at isSet
        cases isSet
    show Indexed { info with
      nrActive := n
      queue
      bitmap := ByteMap.clear info.bitmap e
      highestPrio :=
        (ByteMap.firstFrom (ByteMap.clear info.bitmap e) (e / 8) bitmapSize).getD maxPrio }
    cases isFound : ByteMap.firstFrom (ByteMap.clear info.bitmap e) (e / 8) bitmapSize with
    | none =>
        rw [isFound] at found
        exact ⟨bits, Nat.le_refl _, fun lt => absurd lt (Nat.lt_irrefl _),
          empties maxPrio (Nat.le_refl _) found⟩
    | some h =>
        rw [isFound] at found
        rcases found with ⟨inside, isSet, before⟩
        have isQueue : h < maxPrio := inside
        exact ⟨bits, Nat.le_of_lt isQueue, fun _ => (bits h isQueue).mp isSet,
          empties h (Nat.le_of_lt isQueue) before⟩
  · have higher : info.highestPrio < e := by
      by_contra notHigher
      exact was (indexed.above e (by omega))
    rw [updateHighestPro_other (by exact isHighest)]
    refine ⟨bits, indexed.le, fun isQueue => ?_, fun i isAbove => ?_⟩
    · show queue info.highestPrio ≠ []
      rw [others _ isHighest]
      exact indexed.highest isQueue
    · have isAbove' : i < info.highestPrio := isAbove
      show queue i = []
      rw [others i (by omega)]
      exact indexed.above i isAbove'

/-- `dequeue_task` keeps the index of an array when no queue becomes empty. -/
theorem Indexed.keep (indexed : info.Indexed) (queue : ℕ → List ℕ) (n : ℕ)
    (queues : ∀ j, queue j = [] ↔ info.queue j = []) :
    Indexed (if (queue e).isEmpty then
      ({ info with nrActive := n, queue }.clearBitMap e).updateHighestPro e false
    else { info with nrActive := n, queue }) := by
  split
  next isEmpty =>
    have emptyThen := (queues e).mp (List.isEmpty_iff.mp isEmpty)
    have notHighest : maxPrio ≤ e ∨ info.highestPrio ≠ e := by
      by_contra both
      rcases not_or.mp both with ⟨lt, isHighest⟩
      have isHighest' := not_not.mp isHighest
      apply indexed.highest (by omega)
      rw [isHighest']
      exact emptyThen
    have unchanged : (({ info with nrActive := n, queue } : PrioArray).clearBitMap
        e).updateHighestPro e false =
        ({ info with nrActive := n, queue } : PrioArray).clearBitMap e := by
      rcases notHighest with beyond | other
      · unfold updateHighestPro
        rw [if_pos beyond]
      · exact updateHighestPro_other other
    rw [unchanged]
    refine indexed.congr (fun j lt => ?_) rfl queues
    show ByteMap.isSet (ByteMap.clear info.bitmap e) j = ByteMap.isSet info.bitmap j
    rw [ByteMap.isSet_clear]
    by_cases isHere : j = e
    · have notSet : ¬ByteMap.isSet info.bitmap j = true := by
        rw [indexed.bits j lt, isHere]
        exact not_not.mpr emptyThen
      rw [Bool.eq_false_iff.mpr notSet, Bool.and_false]
    · rw [decide_eq_false isHere, Bool.not_false, Bool.true_and]
  next => exact indexed.congr (fun _ _ => rfl) rfl queues

/-- It does so too unless it leaves a queue empty that is not that of the priority it looks
at. -/
theorem Indexed.remove (indexed : info.Indexed) (queue : ℕ → List ℕ) (n : ℕ)
    (isQueue : i < maxPrio) (was : info.queue i ≠ [])
    (others : ∀ j, j ≠ i → queue j = info.queue j) (tidy : queue i = [] → e = i) :
    Indexed (if (queue e).isEmpty then
      ({ info with nrActive := n, queue }.clearBitMap e).updateHighestPro e false
    else { info with nrActive := n, queue }) := by
  by_cases empty : queue i = []
  · have isHere := tidy empty
    subst isHere
    rw [if_pos (List.isEmpty_iff.mpr empty)]
    exact indexed.removeLast queue n isQueue was empty others
  · apply indexed.keep queue n
    intro j
    by_cases isHere : j = i
    · subst isHere
      exact iff_of_false empty was
    · rw [others j isHere]

end PrioArray

namespace Sched

variable {s s' : Sched} {p q : ℕ} {array a : ArrayId} {i : ℕ}

/-- All arrays are indexed. -/
def Indexed (s : Sched) : Prop := ∀ array, (s.arrays array).Indexed

/-- If a task is the last one of its queue, its priority is still that of the queue. -/
def Tidy (s : Sched) (p : ℕ) : Prop :=
  ∀ array i, (s.arrays array).queue i = [p] → (s.tasks p).prio = i

/-- A task is once in a queue, and in no other. -/
def OnlyAt (s : Sched) (p : ℕ) (array : ArrayId) (i : ℕ) : Prop :=
  ∀ a j, ((s.arrays a).queue j).count p = if a = array ∧ j = i then 1 else 0

theorem indexed_enqueueTask (indexed : (s.arrays array).Indexed)
    (isQueue : (s.tasks p).effectivePrio < maxPrio) :
    ((s.enqueueTask p array).arrays array).Indexed := by
  let queue := Function.update (s.arrays array).queue (s.tasks p).effectivePrio
    ((s.arrays array).queue (s.tasks p).effectivePrio ++ [p])
  have eq : (s.enqueueTask p array).arrays array =
      { (({ s.arrays array with queue }.setBitMap (s.tasks p).effectivePrio).updateHighestPro
          (s.tasks p).effectivePrio true) with
        nrActive := ((s.arrays array).nrActive + 1) % 2 ^ 32 } := by
    simp [Sched.enqueueTask, setArray, setTask, addTail, updateHighestPro_nrActive,
      PrioArray.setBitMap, queue]
  rw [eq]
  apply indexed.add queue _ isQueue
  · simp [queue]
  · exact fun i ne => Function.update_of_ne ne _ _

theorem Indexed.enqueueTask (indexed : s.Indexed) (isQueue : (s.tasks p).effectivePrio < maxPrio)
    (array : ArrayId) : (s.enqueueTask p array).Indexed := by
  intro a
  by_cases isArray : a = array
  · subst isArray
    exact indexed_enqueueTask (indexed a) isQueue
  · have same : (s.enqueueTask p array).arrays a = s.arrays a := by
      simp [Sched.enqueueTask, setArray, setTask, addTail, isArray]
    rw [same]
    exact indexed a

/-- A task leaves its queue empty only if it is the last one there. -/
theorem OnlyAt.eq_singleton (onlyAt : s.OnlyAt p array i)
    (empty : ((s.arrays array).queue i).filter (· ≠ p) = []) : (s.arrays array).queue i = [p] := by
  have count := onlyAt array i
  rw [if_pos ⟨rfl, rfl⟩] at count
  have all : ∀ q ∈ (s.arrays array).queue i, q = p := by
    intro q mem
    simpa using List.filter_eq_nil_iff.mp empty q mem
  have length := List.count_eq_length.mpr fun q mem => (all q mem).symm
  rw [count] at length
  rcases List.length_eq_one_iff.mp length.symm with ⟨q, eq⟩
  rw [eq, all q (by simp [eq])]

/-- Taking a task off leaves a queue alone that it is not in. -/
theorem filter_of_not_mem {j : ℕ} (notMem : p ∉ (s.arrays a).queue j) :
    ((s.arrays a).queue j).filter (· ≠ p) = (s.arrays a).queue j := by
  apply List.filter_eq_self.mpr
  intro q mem
  have ne : q ≠ p := fun eq => notMem (eq ▸ mem)
  simpa using ne

theorem OnlyAt.filter_other (onlyAt : s.OnlyAt p array i) {j : ℕ}
    (other : ¬(a = array ∧ j = i)) :
    ((s.arrays a).queue j).filter (· ≠ p) = (s.arrays a).queue j := by
  apply filter_of_not_mem
  apply List.count_eq_zero.mp
  rw [onlyAt a j, if_neg other]

theorem OnlyAt.ne_nil (onlyAt : s.OnlyAt p array i) : (s.arrays array).queue i ≠ [] := by
  intro empty
  have count := onlyAt array i
  rw [empty, if_pos ⟨rfl, rfl⟩] at count
  cases count

/-- The array a task is taken off. -/
theorem dequeueTask_array (array : ArrayId)
    (isPrio : (s.tasks p).effectivePrio = (s.tasks p).prio) :
    let queue := fun j => ((s.arrays array).queue j).filter (· ≠ p)
    (s.dequeueTask p array).arrays array =
      if (queue (s.tasks p).prio).isEmpty then
        ({ s.arrays array with
          nrActive := sub32 (s.arrays array).nrActive 1
          queue }.clearBitMap (s.tasks p).prio).updateHighestPro (s.tasks p).prio false
      else { s.arrays array with nrActive := sub32 (s.arrays array).nrActive 1, queue } := by
  have isPrio' : ({ s.tasks p with array := none } : Task).effectivePrio =
      (s.tasks p).prio := isPrio
  unfold Sched.dequeueTask
  simp only [setTask, setArray, unlink, Function.update_self, isPrio']
  split
  · simp
  · simp

theorem Indexed.dequeueTask (indexed : s.Indexed) (isAt : s.At p array i)
    (isPrio : (s.tasks p).effectivePrio = (s.tasks p).prio) (tidy : s.Tidy p) :
    (s.dequeueTask p array).Indexed := by
  have onlyAt : s.OnlyAt p array i := isAt.2.2
  intro a
  by_cases isArray : a = array
  · subst isArray
    rw [dequeueTask_array a isPrio]
    apply (indexed a).remove (fun j => ((s.arrays a).queue j).filter (· ≠ p)) _ isAt.1
      onlyAt.ne_nil
    · exact fun j ne => onlyAt.filter_other fun both => ne both.2
    · exact fun empty => tidy a i (onlyAt.eq_singleton empty)
  · have eq : (s.dequeueTask p array).arrays a =
        { s.arrays a with queue := fun j => ((s.arrays a).queue j).filter (· ≠ p) } := by
      unfold Sched.dequeueTask
      simp only [setTask, setArray, unlink, Function.update_self]
      split
      · simp [isArray]
      · simp [isArray]
    rw [eq]
    refine (indexed a).congr ?_ ?_ ?_
    · exact fun _ _ => rfl
    · rfl
    · intro j
      simp only [onlyAt.filter_other fun both => isArray both.1]

/-- A task moved to the end of its queue. -/
theorem indexed_requeueTask (indexed : (s.arrays a).Indexed) (onlyAt : s.OnlyAt p array i)
    (isPrio : (s.tasks p).effectivePrio = i) : ((s.requeueTask p array).arrays a).Indexed := by
  have same : ((s.requeueTask p array).arrays a).bitmap = (s.arrays a).bitmap ∧
      ((s.requeueTask p array).arrays a).highestPrio = (s.arrays a).highestPrio := by
    by_cases isArray : a = array
    · subst isArray
      simp [Sched.requeueTask, addTail, unlink, setArray]
    · simp [Sched.requeueTask, addTail, unlink, setArray, isArray]
  refine indexed.congr (fun _ _ => by rw [same.1]) same.2 fun j => ?_
  rcases requeueTask_spec s p array with ⟨arrays, eq, queue⟩
  rw [eq, queue, isPrio]
  split
  next isHere =>
    rcases isHere with ⟨rfl, rfl⟩
    exact iff_of_false (by simp) onlyAt.ne_nil
  next other => rw [onlyAt.filter_other other]

theorem Indexed.requeueTask (indexed : s.Indexed) (isAt : s.At p array i)
    (isPrio : (s.tasks p).effectivePrio = i) : (s.requeueTask p array).Indexed :=
  fun a => indexed_requeueTask (indexed a) isAt.2.2 isPrio

theorem Indexed.congr_arrays (indexed : s.Indexed) (same : s'.arrays = s.arrays) : s'.Indexed := by
  intro a
  rw [same]
  exact indexed a

theorem Indexed.exchange (indexed : s.Indexed) : s.exchange.Indexed :=
  indexed.congr_arrays (exchange_spec s).2.1

theorem Indexed.deleted (indexed : s.Indexed) (lists : s.Lists) (used : p < s.unused)
    (tidy : s.Tidy p) (deleted : s.deleteTask p = some s') : s'.Indexed := by
  rcases Option.map_eq_some_iff.mp deleted with ⟨array, isArray, _⟩
  rcases lists.queued p (lists.known p used array isArray) with ⟨b, i, isAt⟩
  have kept := indexed.dequeueTask isAt (lists.sane.valid p used).effectivePrio tidy
  rw [deleteTask_eq isAt.2.1] at deleted
  cases deleted
  exact kept.congr_arrays rfl

/-- No call takes the last task off a queue although its priority is another one now. -/
def Tidies (s : Sched) : SchedOp → Prop
  | .schedulerTick _ _ => s.SliceEnds → s.Tidy s.currentTask
  | .pcExit _ => s.Tidy s.currentTask
  | .pcKill pid => ∀ p, s.killed pid = some p → s.Tidy p
  | _ => True

theorem Ticked.indexed (ticked : s.Ticked s') (indexed : s.Indexed) (lists : s.Lists)
    (current : s.CurrentListed) (tidy : s.SliceEnds → s.Tidy s.currentTask) : s'.Indexed := by
  have valid := lists.sane.valid _ lists.sane.currentUsed
  cases ticked with
  | unchanged => exact indexed
  | spent timeSlice => exact indexed.congr_arrays rfl
  | expired timeSlice task ends renewed =>
      rcases lists.sliceEnds_at current ends with ⟨i, isAt⟩
      have indexed' : (s.withSlice timeSlice).Indexed := indexed.congr_arrays rfl
      have taken : ((s.withSlice timeSlice).dequeueTask s.currentTask s.active).Indexed := by
        apply indexed'.dequeueTask (isAt.quiet (withSlice_quiet s timeSlice))
        · rw [withSlice_self]
          exact valid.effectivePrio
        · intro a j alone
          rw [withSlice_self]
          exact tidy ends a j alone
      have taken' : (((s.withSlice timeSlice).dequeueTask s.currentTask s.active).setTask
          s.currentTask task).Indexed := taken.congr_arrays rfl
      apply taken'.enqueueTask
      rw [setTask_self]
      exact renewed.isQueue
  | tail timeSlice ends isRt =>
      rcases lists.sliceEnds_at current ends with ⟨i, isAt⟩
      have indexed' : (s.withSlice timeSlice).Indexed := indexed.congr_arrays rfl
      apply indexed'.requeueTask (isAt.quiet (withSlice_quiet s timeSlice))
      rw [withSlice_self]
      show (s.tasks s.currentTask).effectivePrio = i
      rw [Task.effectivePrio_of_rt isRt]
      apply lists.rtQueue s.active i _ ?_ isRt
      apply List.count_pos_iff.mp
      rw [isAt.2.2 s.active i, if_pos ⟨rfl, rfl⟩]
      exact Nat.one_pos

theorem Indexed.step (indexed : s.Indexed) (lists : s.Lists) (current : s.CurrentListed)
    {op : SchedOp} (tidies : s.Tidies op) (stepped : s.step op = some s') : s'.Indexed := by
  cases op with
  | doFork setPrio memory clock =>
      rcases Option.map_eq_some_iff.mp stepped with ⟨⟨pid, s₂⟩, forked, rfl⟩
      by_cases isPrio : ForkPrio setPrio
      · cases memory with
        | none =>
            rw [doFork_noMemory isPrio] at forked
            rcases Option.map_eq_some_iff.mp forked with ⟨pids, _, pair⟩
            cases pair
            exact indexed.congr_arrays rfl
        | some starveCount =>
            rcases doFork_made lists.sane isPrio starveCount clock with
              ⟨s₁, s₃, forked', born, quiet, _⟩
            rw [forked'] at forked
            cases forked
            have before : s₁.Indexed := indexed.congr_arrays born.arrays
            exact (before.enqueueTask born.isQueue s₁.active).congr_arrays quiet.arrays
      · rw [doFork_refused isPrio] at forked
        cases forked
        exact indexed
  | schedulerTick clock now =>
      rcases Option.bind_eq_some_iff.mp stepped with ⟨⟨s₁, reschedule⟩, accounted, rest⟩
      have lists₀ := lists.tick clock
      have indexed₀ : Indexed { s with timestampLastTick := clock } := indexed.congr_arrays rfl
      rcases tickAccount_cases (lists₀.sane.valid _ lists₀.sane.currentUsed) with
        ⟨s₂, _, accounted', ticked⟩
      rw [accounted] at accounted'
      cases accounted'
      have indexed₁ := ticked.indexed indexed₀ lists₀ current fun ends =>
        tidies ⟨ends.notIdle, ends.notExpired, ends.notPreempted, ends.finished⟩
      cases reschedule with
      | false =>
          cases rest
          exact indexed₁
      | true => exact indexed₁.exchange.congr_arrays (schedule_quiet rest).1.arrays
  | schedule now => exact indexed.exchange.congr_arrays (schedule_quiet stepped).1.arrays
  | pcExit now =>
      rcases pcExit_cases stepped with ⟨s₁, s₂, next, pids, deleted, found, _, rfl⟩
      have indexed₁ := indexed.deleted lists lists.sane.currentUsed tidies deleted
      exact indexed₁.exchange.congr_arrays (findNextTask_quiet found).1.arrays
  | pcKill pid =>
      rcases Option.map_eq_some_iff.mp stepped with ⟨⟨code, s₂⟩, kills, rfl⟩
      rcases pcKill_cases kills with rfl |
        ⟨p, s₁, pids, isKilled, isProcess, _, _, _, deleted, _, _, rfl⟩
      · exact indexed
      · have used := lists.sane.processUsed p isProcess
        exact (indexed.deleted lists used (tidies p isKilled) deleted).congr_arrays rfl

theorem indexed_of_reach (reached : GuardedReach step Tidies (· = initPc) s) : s.Indexed := by
  have all : s.Indexed ∧ s.Lists ∧ s.CurrentListed := by
    let inv : Sched → Prop := fun s => s.Indexed ∧ s.Lists ∧ s.CurrentListed
    show inv s
    apply reached.invariant
    · intro s start
      rw [start]
      refine ⟨fun array => ?_, initPc_lists, fun notIdle => absurd rfl notIdle⟩
      exact ⟨fun i _ => by simp [initPc, ByteMap.isSet], Nat.le_refl _,
        fun lt => absurd lt (Nat.lt_irrefl _), fun _ _ => rfl⟩
    · rintro s op s' ⟨indexed, lists, current⟩ tidies stepped
      exact ⟨indexed.step lists current tidies stepped, lists.step current stepped⟩
  exact all.1

/-! ## The choice -/

/-- What is chosen in a state whose arrays have been swapped is a task of the highest queue of the
active array or the idle task of `init_pc`. -/
def RealNext (s : Sched) (next : Option ℕ) : Prop :=
  ∃ p, next = some p ∧
    (p ∈ (s.arrays s.active).queue (s.arrays s.active).highestPrio ∧
      (s.arrays s.active).highestPrio < maxPrio ∨ p = initPc.currentTask)

/-- The array that is searched for the next task holds one. -/
def Runnable (s : Sched) : Prop :=
  ∃ i < maxPrio, (s.exchange.arrays s.exchange.active).queue i ≠ []

instance (s : Sched) : Decidable s.Runnable := inferInstanceAs (Decidable (∃ i < _, _))

/-- The states in which a call chooses the next task. -/
inductive ChoosesIn (s : Sched) : SchedOp → Sched → Prop
  | schedule (now : ℕ) : ChoosesIn s (.schedule now) s
  | schedulerTick {clock now : ℕ} {s' : Sched} :
      Sched.tickAccount { s with timestampLastTick := clock } = some (s', true) →
      ChoosesIn s (.schedulerTick clock now) s'
  | pcExit {now : ℕ} {s' : Sched} :
      s.deleteTask s.currentTask = some s' → ChoosesIn s (.pcExit now) s'

/-- The highest priority of an indexed array that holds a task. -/
theorem Indexed.highestPrio_lt (indexed : s.Indexed) :
    (s.arrays array).highestPrio < maxPrio ↔ ∃ i < maxPrio, (s.arrays array).queue i ≠ [] := by
  constructor
  · exact fun lt => ⟨_, lt, (indexed array).highest lt⟩
  · rintro ⟨i, lt, notEmpty⟩
    by_contra notLt
    exact notEmpty ((indexed array).above i (by omega))

theorem head_mem {l : List ℕ} (notEmpty : l ≠ []) : ∃ p, l.head? = some p ∧ p ∈ l := by
  cases l with
  | nil => exact absurd rfl notEmpty
  | cons p rest => exact ⟨p, rfl, List.mem_cons_self⟩

theorem realNext_find (indexed : s.Indexed) (noIdle : s.idle = none) :
    RealNext s.exchange s.exchange.nextOfFind ↔ s.Runnable := by
  have indexed' := indexed.exchange
  have noIdle' := (exchange_spec s).2.2.2.2.1.trans noIdle
  unfold Runnable
  rw [← indexed'.highestPrio_lt]
  constructor
  · rintro ⟨p, isNext, _⟩
    by_contra notLt
    unfold nextOfFind at isNext
    simp only [if_neg notLt, noIdle', ite_self] at isNext
    cases isNext
  · intro lt
    rcases head_mem ((indexed' _).highest lt) with ⟨p, isHead, mem⟩
    refine ⟨p, ?_, Or.inl ⟨mem, lt⟩⟩
    unfold nextOfFind
    simp only [if_pos lt]
    exact isHead

theorem realNext_schedule (indexed : s.Indexed) (noIdle : s.idle = none) :
    RealNext s.exchange s.exchange.nextOfSchedule ↔
      s.Runnable ∧ (s.exchange.arrays s.exchange.active).queue 0 = [] := by
  have indexed' := indexed.exchange
  have noIdle' := (exchange_spec s).2.2.2.2.1.trans noIdle
  unfold Runnable
  rw [← indexed'.highestPrio_lt]
  constructor
  · rintro ⟨p, isNext, _⟩
    unfold nextOfSchedule at isNext
    simp only [noIdle'] at isNext
    split at isNext
    next bounds => exact ⟨bounds.1, (indexed' _).above 0 bounds.2⟩
    next => cases isNext
  · rintro ⟨lt, noneFirst⟩
    have notEmpty := (indexed' _).highest lt
    have pos : (s.exchange.arrays s.exchange.active).highestPrio > 0 := by
      by_contra notPos
      have isZero : (s.exchange.arrays s.exchange.active).highestPrio = 0 := by omega
      rw [isZero] at notEmpty
      exact notEmpty noneFirst
    rcases head_mem notEmpty with ⟨p, isHead, mem⟩
    refine ⟨p, ?_, Or.inl ⟨mem, lt⟩⟩
    unfold nextOfSchedule
    simp only [if_pos (And.intro lt pos)]
    exact isHead

/--
In a run that takes the last task off a queue only where its priority is still that of the queue,
`find_next_task` chooses a real task exactly when the array it searches holds one, and `schedule`
when it holds one but none of priority 0, in every state in which they are called.
-/
theorem realNext_of_reach (s : Sched) (reached : GuardedReach step Tidies (· = initPc) s)
    (op : SchedOp) (tidies : s.Tidies op) (s' : Sched) (chooses : s.ChoosesIn op s') :
    (RealNext s'.exchange s'.exchange.nextOfFind ↔ s'.Runnable) ∧
      (RealNext s'.exchange s'.exchange.nextOfSchedule ↔
        s'.Runnable ∧ (s'.exchange.arrays s'.exchange.active).queue 0 = []) := by
  have indexed := indexed_of_reach reached
  rcases lists_of_reach reached with ⟨lists, current⟩
  have here : s'.Indexed ∧ s'.Lists := by
    cases chooses with
    | schedule now => exact ⟨indexed, lists⟩
    | @schedulerTick clock now _ accounted =>
        have lists₀ := lists.tick clock
        have indexed₀ : Indexed { s with timestampLastTick := clock } := indexed.congr_arrays rfl
        rcases tickAccount_cases (lists₀.sane.valid _ lists₀.sane.currentUsed) with
          ⟨s₂, _, accounted', ticked⟩
        rw [accounted] at accounted'
        cases accounted'
        refine ⟨ticked.indexed indexed₀ lists₀ current fun ends => ?_,
          (ticked.lists lists₀ current).1⟩
        exact tidies ⟨ends.notIdle, ends.notExpired, ends.notPreempted, ends.finished⟩
    | pcExit deleted =>
        exact ⟨indexed.deleted lists lists.sane.currentUsed tidies deleted,
          (lists.deleteTask deleted).1⟩
  exact ⟨realNext_find here.1 here.2.noIdle, realNext_schedule here.1 here.2.noIdle⟩

/-- A task of priority 55 that has been forked is chosen. -/
theorem realNext_of_reach_forked : ∃ s, initPc.step (.doFork 55 (some 0) 0) = some s ∧
    RealNext s.exchange s.exchange.nextOfSchedule := by
  have runnable : ((initPc.step (.doFork 55 (some 0) 0)).map fun s =>
      decide (s.Runnable ∧ (s.exchange.arrays s.exchange.active).queue 0 = [])) = some true := by
    decide +kernel
  rcases Option.map_eq_some_iff.mp runnable with ⟨s, forked, holds⟩
  rw [decide_eq_true_iff] at holds
  have tidies : initPc.Tidies (.doFork 55 (some 0) 0) := trivial
  have reached : GuardedReach step Tidies (· = initPc) s := .step (.start rfl) tidies forked
  have real := realNext_of_reach s reached (.schedule 0) trivial s (.schedule 0)
  exact ⟨s, forked, real.2.mpr holds⟩

/-- Right after `init_pc` the pointer that `schedule` follows is null. -/
theorem not_realNext_initPc : ¬∀ s : Sched, Reach step (· = initPc) s →
    RealNext s.exchange s.exchange.nextOfSchedule := by
  intro always
  have started : Reach step (· = initPc) initPc := .start rfl
  rcases always initPc started with ⟨p, isNext, _⟩
  have none : initPc.exchange.nextOfSchedule = none := by decide +kernel
  rw [none] at isNext
  cases isNext

end Sched

end Ninix.Process
