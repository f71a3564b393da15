import Mathlib.Data.Int.Notation
import Ninix.Library.Reachability
import Ninix.Process.Pid

/-!
# The scheduler

Two arrays of queues, one for every priority, hold the tasks that can run. The lower the number
the higher the priority: up to `MAX_RT_PRIO` a task keeps its real-time priority, above it its
priority follows from how long it has slept. `schedule` takes the first task of the highest
queue of the active array and leaves it there; a task whose time is over goes to the expired
array, and the arrays swap roles when the active one is empty.

Queues are lists of tasks, a task being known by a number that is not used again. `none` stands
for a null pointer followed, a value read before it is set, or a write beyond an array.
-/

namespace Ninix.Process

abbrev maxPrio : ℕ := 64
abbrev maxRtPrio : ℕ := 49
abbrev maxSleepAvg : ℕ := 5555
abbrev starvationLimit : ℕ := maxSleepAvg
abbrev maxStarveCount : ℕ := 3
abbrev bitmapSize : ℕ := (maxPrio + 7) / 8
abbrev childPenalty : ℕ := 60
abbrev parentPenalty : ℕ := 100

/-- Difference of two unsigned numbers of 32 bits. -/
def sub32 (a b : ℕ) : ℕ := ((a - b : ℤ) % 2 ^ 32).toNat

inductive Policy
  | normal
  | fifo
  | rr
  deriving DecidableEq

/-- One of the two priority arrays. -/
abbrev ArrayId := Fin 2

/-- `struct task_struct` -/
structure Task where
  pid : ℕ
  staticPrio : ℕ
  prio : ℕ
  rtPriority : ℕ
  sleepAvg : ℕ
  policy : Policy
  starveCount : ℕ
  array : Option ArrayId
  timestamp : ℕ
  timeSlice : ℕ

/-- `struct prio_array` -/
structure PrioArray where
  nrActive : ℕ
  highestPrio : ℕ
  bitmap : ℕ → BitVec 8
  queue : ℕ → List ℕ

/-- The variables of the scheduler. The pointer `idle` is the one `init_pc` never sets: it sets a
local variable of that name. -/
structure Sched where
  tasks : ℕ → Task
  unused : ℕ
  processes : List ℕ
  nrProcess : ℤ
  nrRunning : ℤ
  currentTask : ℕ
  idle : Option ℕ
  arrays : ArrayId → PrioArray
  active : ArrayId
  expired : ArrayId
  timestampLastTick : ℕ
  pids : PidMap

namespace Task

def isRtTask (p : Task) : Bool := decide (p.staticPrio ≤ maxRtPrio)

/-- The priority of the queue the task belongs to. -/
def effectivePrio (p : Task) : ℕ := if p.isRtTask then p.rtPriority else p.prio

/-- `get_bonus` -/
def getBonus (p : Task) : Option ℤ :=
  if p.sleepAvg ≤ maxSleepAvg / 5 then some (-2)
  else if p.sleepAvg ≤ maxSleepAvg / 5 * 2 then some (-1)
  else if p.sleepAvg ≤ maxSleepAvg / 5 * 3 then some 0
  else if p.sleepAvg ≤ maxSleepAvg / 5 * 4 then some 1
  else if p.sleepAvg ≤ maxSleepAvg then some 2
  else none

/-- `dynamic_prio` -/
def dynamicPrio (p : Task) : Option ℕ :=
  if p.isRtTask then some p.rtPriority
  else p.getBonus.map fun bonus =>
    let prio : ℤ := p.staticPrio - bonus + 2
    let prio := if prio ≥ maxPrio then (maxPrio - 1 : ℤ) else prio
    let prio := if prio ≤ maxRtPrio then (maxRtPrio + 1 : ℤ) else prio
    prio.toNat

/-- The sleep since the last switch, added to `sleep_avg` by `recalc_task_prio`. -/
def addSleep (p : Task) (now : ℕ) : Task :=
  let sleepTime := sub32 now p.timestamp
  let sleepTime := if sleepTime > maxSleepAvg then maxSleepAvg else sleepTime
  if sleepTime > 0 then
    let sleepAvg := p.sleepAvg + sleepTime
    { p with sleepAvg := if sleepAvg > maxSleepAvg then maxSleepAvg else sleepAvg }
  else p

/-- `recalc_task_prio` -/
def recalcTaskPrio (p : Task) (now : ℕ) : Option Task :=
  let p := p.addSleep now
  if p.isRtTask then some p else p.dynamicPrio.map fun prio => { p with prio }

/-- The time a task has run, as `schedule` counts it. -/
def runTime (p : Task) (now : ℕ) : ℕ :=
  if sub32 now p.timestamp < maxSleepAvg then sub32 now p.timestamp else maxSleepAvg

/-- What `schedule` does to the task that has run. -/
def endTurn (p : Task) (runTime now : ℕ) : Task :=
  { p with
    sleepAvg := if p.sleepAvg < runTime then 0 else p.sleepAvg - runTime
    timestamp := now }

end Task

namespace PrioArray

def setBitMap (array : PrioArray) (priority : ℕ) : PrioArray :=
  { array with
    bitmap := Function.update array.bitmap (priority / 8)
      (array.bitmap (priority / 8) ||| (1 : BitVec 8) <<< (priority % 8)) }

def clearBitMap (array : PrioArray) (priority : ℕ) : PrioArray :=
  { array with
    bitmap := Function.update array.bitmap (priority / 8)
      (array.bitmap (priority / 8) &&& ~~~((1 : BitVec 8) <<< (priority % 8))) }

/-- `update_highest_pro` -/
def updateHighestPro (array : PrioArray) (priority : ℕ) (isEnqueue : Bool) : PrioArray :=
  if priority ≥ maxPrio then array
  else if array.highestPrio < priority then array
  else if isEnqueue then { array with highestPrio := priority }
  else if array.highestPrio = priority then
    match (List.range' (priority / 8) (bitmapSize - priority / 8)).find?
        fun index => array.bitmap index != 0 with
    | none => { array with highestPrio := maxPrio }
    | some index =>
        match (List.range 8).find? fun off => (array.bitmap index).getLsbD off with
        | none => array
        | some off => { array with highestPrio := index * 8 + off }
  else array

end PrioArray

namespace Sched

def setTask (s : Sched) (p : ℕ) (task : Task) : Sched :=
  { s with tasks := Function.update s.tasks p task }

def setArray (s : Sched) (array : ArrayId) (value : PrioArray) : Sched :=
  { s with arrays := Function.update s.arrays array value }

/-! ## Queues -/

/-- Take a task off the queue it is on. -/
def unlink (s : Sched) (p : ℕ) : Sched :=
  { s with
    arrays := fun array =>
      { s.arrays array with queue := fun i => ((s.arrays array).queue i).filter (· ≠ p) } }

/-- Put a task at the end of a queue. -/
def addTail (s : Sched) (p : ℕ) (array : ArrayId) (prio : ℕ) : Sched :=
  let info := s.arrays array
  s.setArray array
    { info with queue := Function.update info.queue prio (info.queue prio ++ [p]) }

/-- `enqueue_task` -/
def enqueueTask (s : Sched) (p : ℕ) (array : ArrayId) : Sched :=
  let prio := (s.tasks p).effectivePrio
  let s := s.addTail p array prio
  let info := ((s.arrays array).setBitMap prio).updateHighestPro prio true
  let s := s.setArray array { info with nrActive := (info.nrActive + 1) % 2 ^ 32 }
  s.setTask p { s.tasks p with array := some array }

/-- `requeue_task` -/
def requeueTask (s : Sched) (p : ℕ) (array : ArrayId) : Sched :=
  (s.unlink p).addTail p array (s.tasks p).effectivePrio

/-- `dequeue_task` -/
def dequeueTask (s : Sched) (p : ℕ) (array : ArrayId) : Sched :=
  let info := s.arrays array
  let s := (s.setArray array { info with nrActive := sub32 info.nrActive 1 }).unlink p
  let s := s.setTask p { s.tasks p with array := none }
  let prio := (s.tasks p).effectivePrio
  if ((s.arrays array).queue (s.tasks p).prio).isEmpty then
    s.setArray array (((s.arrays array).clearBitMap prio).updateHighestPro prio false)
  else s

/-- `activate_task` -/
def activateTask (s : Sched) (p : ℕ) : Sched :=
  let s := s.enqueueTask p s.active
  { s with nrRunning := s.nrRunning + 1 }

/-- `delete_task` -/
def deleteTask (s : Sched) (p : ℕ) : Option Sched :=
  (s.tasks p).array.map fun array =>
    let s := s.dequeueTask p array
    { s with
      nrRunning := s.nrRunning - 1
      processes := s.processes.erase p
      nrProcess := s.nrProcess - 1 }

/-! ## Ending tasks -/

/-- `find_in_processes` of a `pid` that is not the idle task's -/
def findInProcesses (s : Sched) (pid : ℕ) : Option ℕ :=
  s.processes.find? fun p => (s.tasks p).pid = pid

/-- `pc_kill` -/
def pcKill (s : Sched) (pid : ℕ) : Option (ℕ × Sched) :=
  if pid ≥ pidNum then some (1, s)
  else if pid = idlePid then some (1, s)
  else if pid = initPid then some (1, s)
  else if pid = (s.tasks s.currentTask).pid then some (1, s)
  else if s.pids.pidCheck pid then some (1, s)
  else
    match s.findInProcesses pid with
    | none => some (0, s)
    | some p => do
        let s ← s.deleteTask p
        let pids ← s.pids.pidFree pid
        some (0, { s with pids })

/-- `basic_timeslice`, which may kill a starving task -/
def basicTimeslice (s : Sched) (p : ℕ) : Option (ℕ × Sched) :=
  let task := s.tasks p
  if task.isRtTask then do
    let retTimeslice := sub32 maxPrio task.rtPriority * 20 % 2 ^ 32
    let retTimeslice :=
      if retTimeslice < 500 then 500 else if retTimeslice > 1200 then 1200 else retTimeslice
    if task.starveCount ≥ maxStarveCount then
      let (_, s) ← s.pcKill task.pid
      some (retTimeslice, s)
    else some (retTimeslice, s)
  else
    let retTimeslice := sub32 maxPrio task.prio * 5 % 2 ^ 32
    some
      (if retTimeslice < 1 then 1 else if retTimeslice > 150 then 150 else retTimeslice, s)

/-! ## Choosing the next task -/

/-- Swap the arrays when the active one has no tasks. -/
def exchange (s : Sched) : Sched :=
  if (s.arrays s.active).nrActive = 0 then { s with active := s.expired, expired := s.active }
  else s

/-- The first task of the highest queue. -/
def firstOfHighest (s : Sched) : Option ℕ :=
  ((s.arrays s.active).queue (s.arrays s.active).highestPrio).head?

/-- The task `schedule` chooses. -/
def nextOfSchedule (s : Sched) : Option ℕ :=
  let highestPrio := (s.arrays s.active).highestPrio
  if highestPrio < maxPrio ∧ highestPrio > 0 then s.firstOfHighest else s.idle

/-- The task `find_next_task` chooses. -/
def nextOfFind (s : Sched) : Option ℕ :=
  let highestPrio := (s.arrays s.active).highestPrio
  if highestPrio < maxPrio then s.firstOfHighest
  else if highestPrio = maxPrio ∨ s.nrRunning = 0 then s.idle
  else none

/-- `schedule` with the reading of the clock -/
def schedule (s : Sched) (now : ℕ) : Option Sched := do
  let prev := s.currentTask
  let runTime := (s.tasks prev).runTime now
  let s := s.exchange
  let next ← s.nextOfSchedule
  let nextTask ← (s.tasks next).recalcTaskPrio now
  let s := s.setTask next nextTask
  let s := s.setTask prev ((s.tasks prev).endTurn runTime now)
  if s.currentTask = next then some s
  else
    let s := s.setTask next { s.tasks next with timestamp := now }
    some { s with currentTask := next }

/-- `find_next_task`, whose `now` is never set -/
def findNextTask (s : Sched) (now : ℕ) : Option (ℕ × Sched) := do
  let s := s.exchange
  let next ← s.nextOfFind
  let nextTask ← (s.tasks next).recalcTaskPrio now
  some (next, s.setTask next { nextTask with timestamp := now })

/-- `pc_exit` -/
def pcExit (s : Sched) (now : ℕ) : Option Sched := do
  let temp := s.currentTask
  let s ← s.deleteTask temp
  let (next, s) ← s.findNextTask now
  let pids ← s.pids.pidFree (s.tasks temp).pid
  some { s with pids, currentTask := next }

/-! ## The clock interrupt -/

/-- A round-robin task that has run for too long goes to the expired array. -/
def moveToExpired (s : Sched) (p : ℕ) : Option Sched := do
  let s := s.dequeueTask p s.active
  let (timeSlice, s) ← s.basicTimeslice p
  let s := s.setTask p { s.tasks p with timeSlice }
  some (s.enqueueTask p s.expired)

/-- Another goes to the end of its queue. -/
def moveToTail (s : Sched) (p : ℕ) : Option Sched := do
  let (timeSlice, s) ← s.basicTimeslice p
  let s := s.setTask p { s.tasks p with timeSlice }
  some (s.requeueTask p s.active)

/-- The branch of `scheduler_tick` for a round-robin task whose time slice is over. -/
def rrSliceOver (s : Sched) (p : ℕ) : Option Sched := do
  let (timeSlice, s) ← s.basicTimeslice p
  let s := s.setTask p { s.tasks p with timeSlice }
  if sub32 s.timestampLastTick timeSlice > starvationLimit then s.moveToExpired p
  else s.moveToTail p

/-- The branch of `scheduler_tick` for a normal task whose time slice is over. -/
def sliceOver (s : Sched) (p : ℕ) : Option Sched := do
  let s := s.dequeueTask p s.active
  let prio ← (s.tasks p).dynamicPrio
  let s := s.setTask p { s.tasks p with prio }
  let (timeSlice, s) ← s.basicTimeslice p
  let s := s.setTask p { s.tasks p with timeSlice }
  some (s.enqueueTask p s.expired)

/-- What `scheduler_tick` does from the reading of the clock to the call of `schedule`, and
whether it calls it. -/
def tickAccount (s : Sched) : Option (Sched × Bool) :=
  let p := s.currentTask
  let task := s.tasks p
  let timeSlice := sub32 task.timeSlice 1
  if task.pid = idlePid then some (s, true)
  else if task.array = some s.expired then some (s, true)
  else if (s.arrays s.active).highestPrio < task.effectivePrio then some (s, true)
  else if task.isRtTask then
    if task.policy = .rr then
      let s := s.setTask p { task with timeSlice }
      if timeSlice = 0 then (s.rrSliceOver p).map fun s => (s, true) else some (s, false)
    else some (s, false)
  else
    let s := s.setTask p { task with timeSlice }
    if timeSlice = 0 then (s.sliceOver p).map fun s => (s, true) else some (s, false)

/-- `scheduler_tick` with the two readings of the clock -/
def schedulerTick (s : Sched) (clock now : ℕ) : Option Sched := do
  let (s, reschedule) ← Sched.tickAccount { s with timestampLastTick := clock }
  if reschedule then s.schedule now else some s

/-! ## New tasks -/

/-- The priorities `sched_fork` gives a task, those of its parent if none is asked for. -/
def forkPrio (s : Sched) (p : ℕ) (setPrio : ℤ) : Sched :=
  let staticPrio :=
    if setPrio = -1 then (s.tasks s.currentTask).staticPrio else setPrio.toNat
  s.setTask p
    { s.tasks p with
      staticPrio
      rtPriority := staticPrio
      prio := staticPrio
      sleepAvg := (s.tasks s.currentTask).sleepAvg
      policy :=
        if staticPrio ≤ maxRtPrio then if staticPrio > maxRtPrio / 2 then .rr else .fifo
        else .normal
      array := none }

/-- The time slice `sched_fork` gives a task, half of that of its parent but for `init`. -/
def forkSlice (s : Sched) (p : ℕ) : Option Sched :=
  if (s.tasks p).pid = initPid then do
    let (timeSlice, s) ← s.basicTimeslice p
    some (s.setTask p { s.tasks p with timeSlice })
  else
    let timeSlice := ((s.tasks s.currentTask).timeSlice + 1) % 2 ^ 32 / 2
    let s := s.setTask p { s.tasks p with timeSlice }
    let timeSlice := (s.tasks s.currentTask).timeSlice / 2
    some (s.setTask s.currentTask { s.tasks s.currentTask with timeSlice })

/-- `sched_fork` -/
def schedFork (s : Sched) (p : ℕ) (setPrio : ℤ) (clock : ℕ) : Option Sched := do
  let s := s.forkPrio p setPrio
  let s ← s.forkSlice p
  let s :=
    if (s.tasks s.currentTask).timeSlice = 0 then
      s.setTask s.currentTask { s.tasks s.currentTask with timeSlice := 1 }
    else s
  some (s.setTask p { s.tasks p with timestamp := clock })

/-- `sleep_avg` weighted by a penalty, an integer division. -/
def weighSleep (task : Task) (penalty : ℕ) : Task :=
  let sleepAvg := penalty / 100 * task.sleepAvg
  { task with sleepAvg := if sleepAvg > maxSleepAvg then maxSleepAvg else sleepAvg }

/-- The priority a task wakes up with. -/
def wakePrio (task : Task) : Option ℕ :=
  if task.isRtTask then some task.prio else task.dynamicPrio

/-- `wake_up_new_task` -/
def wakeUpNewTask (s : Sched) (p : ℕ) : Option Sched := do
  let task := weighSleep (s.tasks p) childPenalty
  let prio ← wakePrio task
  let s := s.setTask p { task with prio }
  let s := s.activateTask p
  some (s.setTask s.currentTask (weighSleep (s.tasks s.currentTask) parentPenalty))

/-- `do_fork`; `memory` is the `starve_count` that `kmalloc` leaves in the new task, `none` where it
returns 0 for it. -/
def doFork (s : Sched) (setPrio : ℤ) (memory : Option ℕ) (clock : ℕ) : Option (ℕ × Sched) :=
  if ¬(setPrio ≥ 0 ∧ setPrio < maxPrio) ∧ setPrio ≠ -1 then some (0, s)
  else
    let (newPid, pids) := s.pids.pidAlloc
    match memory with
    | none => (pids.pidFree newPid).map fun pids => (0, { s with pids })
    | some starveCount => do
        let new := s.unused
        let s := { s with
          unused := new + 1
          pids
          processes := s.processes ++ [new]
          nrProcess := s.nrProcess + 1 }
        let s := s.setTask new { s.tasks new with pid := newPid, starveCount }
        let s ← s.schedFork new setPrio clock
        let s ← s.wakeUpNewTask new
        some (newPid, s)

/-- The state in which `do_fork` has made the task that `kmalloc` gave it. -/
def makeTask (s : Sched) (starveCount : ℕ) : Sched :=
  let s' := { s with
    unused := s.unused + 1
    pids := s.pids.pidAlloc.2
    processes := s.processes ++ [s.unused]
    nrProcess := s.nrProcess + 1 }
  s'.setTask s.unused { s.tasks s.unused with pid := s.pids.pidAlloc.1, starveCount }

/-- `do_fork` in terms of the state in which the task is made. -/
theorem doFork_eq (s : Sched) (setPrio : ℤ) (memory : Option ℕ) (clock : ℕ) :
    s.doFork setPrio memory clock =
    if ¬(setPrio ≥ 0 ∧ setPrio < maxPrio) ∧ setPrio ≠ -1 then some (0, s)
    else match memory with
      | none =>
          (s.pids.pidAlloc.2.pidFree s.pids.pidAlloc.1).map fun pids => (0, { s with pids })
      | some starveCount =>
          (((s.makeTask starveCount).schedFork s.unused setPrio clock).bind
            fun s' => s'.wakeUpNewTask s.unused).map fun s' => (s.pids.pidAlloc.1, s') := by
  unfold doFork
  split
  · rfl
  · cases memory with
    | none => rfl
    | some starveCount =>
        simp only [makeTask]
        generalize setTask _ s.unused _ = made
        cases made.schedFork s.unused setPrio clock with
        | none => rfl
        | some forked =>
            simp only [Option.bind_eq_bind, Option.bind_some]
            cases forked.wakeUpNewTask s.unused <;> rfl

/-! ## Runs -/

/-- What `init_pc` leaves: the idle task runs, and no other is there. -/
def initPc : Sched where
  tasks := fun _ =>
    { pid := idlePid
      staticPrio := maxPrio
      prio := maxPrio
      rtPriority := 0
      sleepAvg := 0
      policy := .normal
      starveCount := 0
      array := none
      timestamp := 0
      timeSlice := 0 }
  unused := 1
  processes := []
  nrProcess := 0
  nrRunning := 0
  currentTask := 0
  idle := none
  arrays := fun _ =>
    { nrActive := 0
      highestPrio := maxPrio
      bitmap := fun _ => 0
      queue := fun _ => [] }
  active := 0
  expired := 1
  timestampLastTick := 0
  pids := .initPid

end Sched

/-- Calls of the scheduler with what they read: clock readings, and for `do_fork` what `kmalloc`
gives. -/
inductive SchedOp
  | doFork (setPrio : ℤ) (memory : Option ℕ) (clock : ℕ)
  | schedulerTick (clock now : ℕ)
  | schedule (now : ℕ)
  | pcExit (now : ℕ)
  | pcKill (pid : ℕ)

def Sched.step (s : Sched) : SchedOp → Option Sched
  | .doFork setPrio memory clock => (s.doFork setPrio memory clock).map (·.2)
  | .schedulerTick clock now => s.schedulerTick clock now
  | .schedule now => s.schedule now
  | .pcExit now => s.pcExit now
  | .pcKill pid => (s.pcKill pid).map (·.2)

end Ninix.Process
