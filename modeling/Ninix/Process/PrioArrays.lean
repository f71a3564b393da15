import Ninix.Process.NextTask

/-!
# Operations on a priority array

The four operations that put a task on a queue, move it to the end of its queue or take it off
keep the bitmap and the highest priority those of the queues, and they change one queue at most:
that of the priority of the task.
-/

namespace Ninix.Process

namespace Sched

/-- Put a task at the beginning of a queue. -/
def addHead (s : Sched) (p : ℕ) (array : ArrayId) (prio : ℕ) : Sched :=
  let info := s.arrays array
  s.setArray array
    { info with queue := Function.update info.queue prio (p :: info.queue prio) }

/-- `enqueue_task_head` -/
def enqueueTaskHead (s : Sched) (p : ℕ) (array : ArrayId) : Sched :=
  let prio := (s.tasks p).effectivePrio
  let s := s.addHead p array prio
  let info := ((s.arrays array).setBitMap prio).updateHighestPro prio true
  let s := s.setArray array { info with nrActive := (info.nrActive + 1) % 2 ^ 32 }
  s.setTask p { s.tasks p with array := some array }

end Sched

/-- The operations on an array. -/
inductive QueueOp
  | enqueueTask
  | enqueueTaskHead
  | requeueTask
  | dequeueTask

namespace Sched

def queueOp (s : Sched) (p : ℕ) (array : ArrayId) : QueueOp → Sched
  | .enqueueTask => s.enqueueTask p array
  | .enqueueTaskHead => s.enqueueTaskHead p array
  | .requeueTask => s.requeueTask p array
  | .dequeueTask => s.dequeueTask p array

/-- A task is on no queue. -/
def Off (s : Sched) (p : ℕ) : Prop := ∀ array i, p ∉ (s.arrays array).queue i

/-- The task that is put on a queue is on none, one that is moved is on the queue of its priority,
and one that is taken off is there or on none. -/
def Takes (s : Sched) (p : ℕ) (array : ArrayId) : QueueOp → Prop
  | .enqueueTask => s.Off p
  | .enqueueTaskHead => s.Off p
  | .requeueTask => s.OnlyAt p array (s.tasks p).effectivePrio
  | .dequeueTask => s.OnlyAt p array (s.tasks p).effectivePrio ∨ s.Off p

variable {s : Sched} {p : ℕ} {array : ArrayId}

theorem enqueueTaskHead_queue (a : ArrayId) (i : ℕ) :
    ((s.enqueueTaskHead p array).arrays a).queue i =
      if a = array ∧ i = (s.tasks p).effectivePrio then p :: (s.arrays array).queue i
      else (s.arrays a).queue i := by
  by_cases isArray : a = array
  · subst isArray
    by_cases isPrio : i = (s.tasks p).effectivePrio
    · subst isPrio
      simp [enqueueTaskHead, setTask, setArray, addHead, updateHighestPro_queue,
        PrioArray.setBitMap]
    · simp [enqueueTaskHead, setTask, setArray, addHead, updateHighestPro_queue,
        PrioArray.setBitMap, isPrio]
  · simp [enqueueTaskHead, setTask, setArray, addHead, isArray]

theorem indexed_enqueueTaskHead (indexed : (s.arrays array).Indexed)
    (isQueue : (s.tasks p).effectivePrio < maxPrio) :
    ((s.enqueueTaskHead p array).arrays array).Indexed := by
  let queue := Function.update (s.arrays array).queue (s.tasks p).effectivePrio
    (p :: (s.arrays array).queue (s.tasks p).effectivePrio)
  have eq : (s.enqueueTaskHead p array).arrays array =
      { (({ s.arrays array with queue }.setBitMap (s.tasks p).effectivePrio).updateHighestPro
          (s.tasks p).effectivePrio true) with
        nrActive := ((s.arrays array).nrActive + 1) % 2 ^ 32 } := by
    simp [enqueueTaskHead, setArray, setTask, addHead, updateHighestPro_nrActive,
      PrioArray.setBitMap, queue]
  rw [eq]
  apply indexed.add queue _ isQueue
  · simp [queue]
  · exact fun i ne => Function.update_of_ne ne _ _

/-- The queue that `dequeue_task` looks at is that of the task. -/
theorem indexed_dequeueTask (indexed : (s.arrays array).Indexed)
    (isQueue : (s.tasks p).effectivePrio < maxPrio)
    (isPrio : (s.tasks p).effectivePrio = (s.tasks p).prio)
    (takes : s.OnlyAt p array (s.tasks p).effectivePrio ∨ s.Off p) :
    ((s.dequeueTask p array).arrays array).Indexed := by
  rw [dequeueTask_array array isPrio]
  rcases takes with onlyAt | off
  · apply indexed.remove (fun j => ((s.arrays array).queue j).filter (· ≠ p)) _ isQueue
      onlyAt.ne_nil
    · exact fun j ne => onlyAt.filter_other fun both => ne both.2
    · exact fun _ => isPrio.symm
  · apply indexed.keep (fun j => ((s.arrays array).queue j).filter (· ≠ p))
    intro j
    rw [filter_of_not_mem (off array j)]

/-- The queues of other priorities, and those of the other array, are left alone. -/
theorem queueOp_queue {op : QueueOp} (takes : s.Takes p array op) {a : ArrayId} {i : ℕ}
    (other : ¬(a = array ∧ i = (s.tasks p).effectivePrio)) :
    ((s.queueOp p array op).arrays a).queue i = (s.arrays a).queue i := by
  cases op with
  | enqueueTask =>
      rcases enqueueTask_spec s p array with ⟨arrays, eq, queue⟩
      rw [queueOp, eq, queue, if_neg other]
  | enqueueTaskHead => rw [queueOp, enqueueTaskHead_queue, if_neg other]
  | requeueTask =>
      rcases requeueTask_spec s p array with ⟨arrays, eq, queue⟩
      rw [queueOp, eq, queue, if_neg other, OnlyAt.filter_other takes other]
  | dequeueTask =>
      rcases dequeueTask_spec s p array with ⟨arrays, eq, queue⟩
      rw [queueOp, eq, queue]
      rcases takes with onlyAt | off
      · exact onlyAt.filter_other other
      · exact filter_of_not_mem (off a i)

/-- Every operation keeps the index of an array and leaves the queues of other priorities as they
are. -/
theorem queueOp_indexed (op : QueueOp) (indexed : (s.arrays array).Indexed)
    (isQueue : (s.tasks p).effectivePrio < maxPrio)
    (rtPrio : (s.tasks p).isRtTask = true → (s.tasks p).prio = (s.tasks p).rtPriority)
    (takes : s.Takes p array op) :
    ((s.queueOp p array op).arrays array).Indexed ∧
      ∀ a i, ¬(a = array ∧ i = (s.tasks p).effectivePrio) →
        ((s.queueOp p array op).arrays a).queue i = (s.arrays a).queue i := by
  refine ⟨?_, fun a i other => queueOp_queue takes other⟩
  have isPrio : (s.tasks p).effectivePrio = (s.tasks p).prio := by
    rw [Task.effectivePrio]
    split
    next isRt => exact (rtPrio isRt).symm
    next => rfl
  cases op with
  | enqueueTask => exact indexed_enqueueTask indexed isQueue
  | enqueueTaskHead => exact indexed_enqueueTaskHead indexed isQueue
  | requeueTask => exact indexed_requeueTask indexed takes rfl
  | dequeueTask => exact indexed_dequeueTask indexed isQueue isPrio takes

/-- A normal task on no queue yet -/
def normalTask (prio : ℕ) : Task := { initPc.tasks 0 with staticPrio := prio, prio }

/-- Two tasks in queues whose bits are in two bytes of the bitmap -/
def twoQueues : Sched :=
  let first := (initPc.setTask 1 (normalTask 55)).enqueueTask 1 initPc.active
  (first.setTask 2 (normalTask 60)).enqueueTask 2 initPc.active

theorem twoQueues_indexed : (twoQueues.arrays 0).Indexed := by
  have empty : ((initPc.setTask 1 (normalTask 55)).arrays 0).Indexed := by
    refine ⟨fun i _ => ?_, Nat.le.refl, fun lt => absurd lt (Nat.lt_irrefl _), fun i _ => rfl⟩
    simp [setTask, initPc, ByteMap.isSet]
  have first : ((initPc.setTask 1 (normalTask 55)).enqueueTask 1 0 |>.arrays 0).Indexed :=
    indexed_enqueueTask empty (by decide)
  exact @indexed_enqueueTask
    (((initPc.setTask 1 (normalTask 55)).enqueueTask 1 0).setTask 2 (normalTask 60)) 2 0 first
    (by decide)

theorem twoQueues_onlyAt : twoQueues.OnlyAt 1 0 55 := by
  intro a j
  let before := (initPc.setTask 1 (normalTask 55)).enqueueTask 1 0
  rcases enqueueTask_spec (initPc.setTask 1 (normalTask 55)) 1 0 with ⟨arrays, eq, queue⟩
  rcases enqueueTask_spec (before.setTask 2 (normalTask 60)) 2 0 with ⟨arrays', eq', queue'⟩
  have isFirst : ∀ a j, ((before.arrays a).queue j).count 1 = if a = 0 ∧ j = 55 then 1 else 0 := by
    intro a j
    rw [show before = _ from eq, queue]
    by_cases here : a = 0 ∧ j = 55
    · rw [if_pos here, if_pos (by exact here)]
      rfl
    · rw [if_neg here, if_neg (by exact here)]
      rfl
  rw [show twoQueues = _ from eq', queue']
  by_cases isSecond : a = 0 ∧ j = 60
  · rw [if_pos (by exact isSecond), List.count_append]
    rcases isSecond with ⟨rfl, rfl⟩
    exact isFirst 0 60
  · rw [if_neg (by exact isSecond)]
    exact isFirst a j

/-- When the first task is taken off its queue, the next one is found in the byte behind. -/
theorem queueOp_indexed_twoQueues :
    ((twoQueues.queueOp 1 0 .dequeueTask).arrays 0).Indexed ∧
      (∀ a i, ¬(a = 0 ∧ i = 55) →
        ((twoQueues.queueOp 1 0 .dequeueTask).arrays a).queue i = (twoQueues.arrays a).queue i) ∧
      (twoQueues.arrays 0).highestPrio = 55 ∧
      ((twoQueues.queueOp 1 0 .dequeueTask).arrays 0).highestPrio = 60 := by
  rcases queueOp_indexed .dequeueTask twoQueues_indexed (by decide) (by decide)
    (.inl twoQueues_onlyAt) with ⟨indexed, others⟩
  exact ⟨indexed, others, by decide, by decide +kernel⟩

end Sched

end Ninix.Process
