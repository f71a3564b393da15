import Ninix.Arch.Trap
import Ninix.Library.Simulation
import Ninix.Process.Context

/-!
# A processor for each task

The clock interrupt calls `scheduler_tick`, which may switch to another task, and a task that ends
leaves the processor to another through `switch_ex`. For the tasks it is as if each had a processor
of its own, which stands still while the task does not run: what the machine goes on with is always
what the processor of the current task holds.
-/

namespace Ninix.Arch

open Mips Process Simulation

/-! ## Interrupts -/

/-- `intr_fn`; `none` if it does not return. -/
abbrev IntrFn (σ : Type) := Word → Word → σ → Option σ

/-- The rounds of the loop of `do_interrupts` that are left. -/
def interruptRounds {σ : Type} (interrupts : ℕ → Option (IntrFn σ)) (status cause : Word) :
    (rounds i : ℕ) → (index : Word) → σ → Option σ
  | 0, _, _, s => some s
  | rounds + 1, i, index, s =>
      let handled :=
        match interrupts i with
        | some interrupt => if index &&& 1 ≠ 0 then interrupt status cause s else some s
        | none => some s
      handled.bind (interruptRounds interrupts status cause rounds (i + 1) (index >>> 1))

def doInterrupts {σ : Type} (interrupts : ℕ → Option (IntrFn σ)) (status cause : Word) (s : σ) :
    Option σ :=
  interruptRounds interrupts status cause 8 0 (cause >>> 8) s

/-- `register_interrupt_handler`, apart from the bit of `Status` that it sets. -/
def registerInterruptHandler {σ : Type} (interrupts : ℕ → Option (IntrFn σ)) (index : ℕ)
    (fn : IntrFn σ) : ℕ → Option (IntrFn σ) :=
  Function.update interrupts (index % 8) (some fn)

/-! ## The kernel -/

/-- The scheduler, and the contexts that its tasks have been switched out with. -/
structure Kernel where
  sched : Sched
  contexts : ℕ → RegsContext

namespace Kernel

/-- The contexts and the frame of an interrupt. -/
def withFrame (kernel : Kernel) (frame : RegsContext) : Contexts :=
  ⟨kernel.contexts, kernel.sched.unused, kernel.sched.currentTask, frame⟩

/-- `scheduler_tick` with what it does to the frame. That of a task that stays stays too. -/
def schedulerTick (clock now : ℕ) : IntrFn (Kernel × RegsContext) := fun _ _ s =>
  (s.1.sched.schedulerTick clock now).map fun sched =>
    let switched := (s.1.withFrame s.2).schedule sched.currentTask
    (⟨sched, switched.contexts⟩, switched.frame)

/-- `ps2_handler`, which knows nothing of tasks. -/
def ps2Handler : IntrFn (Kernel × RegsContext) := fun _ _ s => some s

/-- The handlers that `init_ps2` and `init_pc` register, with the readings of the clock. -/
def interrupts (clock now : ℕ) : ℕ → Option (IntrFn (Kernel × RegsContext)) :=
  registerInterruptHandler (registerInterruptHandler (fun _ => none) 2 ps2Handler) 7
    (schedulerTick clock now)

/-- The keyboard is served first and changes nothing here; then the clock is, if it interrupts. -/
theorem doInterrupts_interrupts (clock now : ℕ) (status cause : Word)
    (s : Kernel × RegsContext) :
    doInterrupts (interrupts clock now) status cause s =
      if cause >>> 15 &&& 1 ≠ 0 then schedulerTick clock now status cause s else some s := by
  have keyboard : interrupts clock now 2 = some ps2Handler := rfl
  have clock' : interrupts clock now 7 = some (schedulerTick clock now) := rfl
  have others : ∀ i, i ≠ 2 → i ≠ 7 → interrupts clock now i = none := by
    intro i notKeyboard notClock
    exact (Function.update_of_ne notClock _ _).trans (Function.update_of_ne notKeyboard _ _)
  have served : (if cause >>> 8 >>> 1 >>> 1 &&& 1 ≠ 0 then ps2Handler status cause s else some s) =
      some s := ite_id (some s)
  have shifted : cause >>> 8 >>> 1 >>> 1 >>> 1 >>> 1 >>> 1 >>> 1 >>> 1 = cause >>> 15 := by
    simp only [← BitVec.shiftRight_add, Nat.reduceAdd]
  rw [doInterrupts]
  simp only [interruptRounds, Nat.reduceAdd, keyboard, clock', others 0 (by decide) (by decide),
    others 1 (by decide) (by decide), others 3 (by decide) (by decide),
    others 4 (by decide) (by decide), others 5 (by decide) (by decide),
    others 6 (by decide) (by decide), Option.bind_some, served, shifted]
  exact Option.bind_fun_some _

end Kernel

/-- What happens between the steps that the tasks take by themselves. -/
inductive KernelOp
  | interrupt (d : Data) (clock now : ℕ)
  | doFork (setPrio : ℤ) (memory : Option ℕ) (clock : ℕ) (newUnion entry initGp argc args : Word)
  | pcExit (d : Data) (now : ℕ)
  | pcKill (pid : ℕ)

namespace Kernel

/-- The kernel, and the context that the machine goes on with if it takes one. -/
def step (kernel : Kernel) : KernelOp → Option (Kernel × Option RegsContext)
  | .interrupt d clock now =>
      (doInterrupts (interrupts clock now) (d.cp0 status) (d.cp0 cause)
        (kernel, contextOf d (d.cp0 epc))).map fun s => (s.1, some s.2)
  | .doFork setPrio memory clock newUnion entry initGp argc args =>
      (kernel.sched.doFork setPrio memory clock).map fun forked =>
        let contexts :=
          if kernel.sched.unused < forked.2.unused then
            Function.update kernel.contexts kernel.sched.unused
              (.forkContext newUnion entry initGp argc args)
          else kernel.contexts
        (⟨forked.2, contexts⟩, none)
  | .pcExit _ now =>
      (kernel.sched.pcExit now).map fun sched =>
        (⟨sched, kernel.contexts⟩, some (kernel.contexts sched.currentTask))
  | .pcKill pid =>
      (kernel.sched.pcKill pid).map fun killed => (⟨killed.2, kernel.contexts⟩, none)

end Kernel

/-! ## Processors -/

/-- The scheduler, and a processor for each task. -/
structure Processors where
  sched : Sched
  registers : ℕ → RegsContext

namespace Processors

/-- The processor of a task stands still from where the task is interrupted to where it goes on,
which is where the machine goes on when the scheduler has chosen it. -/
def step (processors : Processors) : KernelOp → Option (Processors × Option RegsContext)
  | .interrupt d clock now =>
      let registers := Function.update processors.registers processors.sched.currentTask
        (contextOf d (d.cp0 epc))
      let scheduled :=
        if d.cp0 cause >>> 15 &&& 1 ≠ 0 then processors.sched.schedulerTick clock now
        else some processors.sched
      scheduled.map fun sched => (⟨sched, registers⟩, some (registers sched.currentTask))
  | .doFork setPrio memory clock newUnion entry initGp argc args =>
      (processors.sched.doFork setPrio memory clock).map fun forked =>
        let registers :=
          if processors.sched.unused < forked.2.unused then
            Function.update processors.registers processors.sched.unused
              (.forkContext newUnion entry initGp argc args)
          else processors.registers
        (⟨forked.2, registers⟩, none)
  | .pcExit _ now =>
      (processors.sched.pcExit now).map fun sched =>
        (⟨sched, processors.registers⟩, some (processors.registers sched.currentTask))
  | .pcKill pid =>
      (processors.sched.pcKill pid).map fun killed => (⟨killed.2, processors.registers⟩, none)

end Processors

variable {kernel kernel' : Kernel} {processors : Processors}

/-- The contexts are those of the processors, but for the task that runs. -/
structure Stand (kernel : Kernel) (processors : Processors) : Prop where
  sched : kernel.sched = processors.sched
  contexts : ∀ q ∈ kernel.sched.processes, q ≠ kernel.sched.currentTask →
    kernel.contexts q = processors.registers q
  lists : kernel.sched.Lists
  current : kernel.sched.CurrentListed

/-- The clock interrupt goes on with the task it interrupts or with a process. -/
theorem tick_processes {s s' : Sched} (lists : s.Lists) (current : s.CurrentListed) {clock now : ℕ}
    (ticked : s.schedulerTick clock now = some s') :
    s'.processes = s.processes ∧
      (s'.currentTask = s.currentTask ∨ s'.currentTask ∈ s.processes) := by
  rcases Option.bind_eq_some_iff.mp ticked with ⟨⟨s₁, reschedule⟩, accounted, rest⟩
  have lists₀ := lists.tick clock
  rcases Sched.tickAccount_cases (lists₀.sane.valid _ lists₀.sane.currentUsed) with
    ⟨s₂, _, accounted', isTick⟩
  rw [accounted] at accounted'
  cases accounted'
  rcases isTick.lists lists₀ current with ⟨lists₁, processes, _, isCurrent, _⟩
  cases reschedule with
  | false =>
      cases rest
      exact ⟨processes, .inl isCurrent⟩
  | true =>
      have same := (Sched.schedule_quiet rest).1.processes.trans (Sched.exchange_processes s₁)
      have isProcess := (lists₁.schedule rest).2
      rw [same, processes] at isProcess
      exact ⟨same.trans processes, .inr isProcess⟩

/-- What the clock interrupt does to the contexts and to the frame. -/
theorem Stand.tick (stand : Stand kernel processors) (frame : RegsContext) {sched : Sched}
    (processes : sched.processes = kernel.sched.processes)
    (isNext : sched.currentTask = kernel.sched.currentTask ∨
      sched.currentTask ∈ kernel.sched.processes)
    (lists : sched.Lists) (current : sched.CurrentListed) :
    let switched := (kernel.withFrame frame).schedule sched.currentTask
    let registers := Function.update processors.registers kernel.sched.currentTask frame
    switched.frame = registers sched.currentTask ∧
      Stand ⟨sched, switched.contexts⟩ ⟨sched, registers⟩ := by
  intro switched registers
  have here : registers kernel.sched.currentTask = frame := by
    show Function.update processors.registers kernel.sched.currentTask frame _ = frame
    exact Function.update_self ..
  have others : ∀ q, q ≠ kernel.sched.currentTask → registers q = processors.registers q :=
    fun q ne => Function.update_of_ne ne _ _
  by_cases same : kernel.sched.currentTask = sched.currentTask
  · have stays : switched = kernel.withFrame frame := by
      show Contexts.schedule _ _ = _
      rw [← same]
      exact Contexts.schedule_self
    refine ⟨?_, rfl, fun q isProcess ne => ?_, lists, current⟩
    · rw [stays, ← same]
      exact here.symm
    · rw [← same] at ne
      rw [processes] at isProcess
      rw [stays]
      exact (stand.contexts q isProcess ne).trans (others q ne).symm
  · have ne : (kernel.withFrame frame).currentTask ≠ sched.currentTask := same
    have ne' : sched.currentTask ≠ kernel.sched.currentTask := fun eq => same eq.symm
    rcases Contexts.schedule_switch ne with ⟨isFrame, contexts, _, _⟩
    refine ⟨?_, rfl, fun q isProcess _ => ?_, lists, current⟩
    · rw [isFrame, others _ ne']
      exact stand.contexts _ (isNext.resolve_left ne') ne'
    · show switched.contexts q = registers q
      rw [contexts]
      by_cases wasCurrent : q = kernel.sched.currentTask
      · rw [wasCurrent, here]
        show Function.update kernel.contexts kernel.sched.currentTask frame _ = frame
        exact Function.update_self ..
      · rw [processes] at isProcess
        rw [others q wasCurrent]
        exact (Function.update_of_ne wasCurrent _ _).trans (stand.contexts q isProcess wasCurrent)

theorem Stand.interrupt (stand : Stand kernel processors) {d : Data} {clock now : ℕ}
    {next : Kernel × Option RegsContext}
    (stepped : kernel.step (.interrupt d clock now) = some next) :
    ∃ processors', processors.step (.interrupt d clock now) = some (processors', next.2) ∧
      Stand next.1 processors' := by
  rw [Kernel.step, Kernel.doInterrupts_interrupts] at stepped
  rw [Processors.step, ← stand.sched]
  by_cases isClock : d.cp0 cause >>> 15 &&& 1 ≠ 0
  · rw [if_pos isClock, Kernel.schedulerTick, Option.map_map] at stepped
    rcases Option.map_eq_some_iff.mp stepped with ⟨sched, ticked, isStep⟩
    rcases tick_processes stand.lists stand.current ticked with ⟨processes, isNext⟩
    have isOp : kernel.sched.step (.schedulerTick clock now) = some sched := ticked
    rcases stand.lists.step stand.current isOp with ⟨lists, current⟩
    rcases stand.tick (contextOf d (d.cp0 epc)) processes isNext lists current with
      ⟨frame, stand'⟩
    rw [if_pos isClock, ticked, ← isStep]
    exact ⟨_, congrArg (fun frame => some (_, some frame)) frame.symm, stand'⟩
  · rw [if_neg isClock] at stepped ⊢
    cases stepped
    refine ⟨_, congrArg (fun frame => some (_, some frame)) (Function.update_self ..), ?_⟩
    refine ⟨rfl, fun q isProcess ne => ?_, stand.lists, stand.current⟩
    exact (stand.contexts q isProcess ne).trans (Function.update_of_ne ne _ _).symm

theorem forked_processes {s s' : Sched} (lists : s.Lists) {setPrio : ℤ} {memory : Option ℕ}
    {clock pid : ℕ} (forked : s.doFork setPrio memory clock = some (pid, s')) :
    s'.currentTask = s.currentTask ∧
      (s'.processes = s.processes ∧ s'.unused = s.unused ∨
        s'.processes = s.processes ++ [s.unused] ∧ s'.unused = s.unused + 1) := by
  by_cases isPrio : Sched.ForkPrio setPrio
  · cases memory with
    | none =>
        rw [Sched.doFork_noMemory isPrio] at forked
        rcases Option.map_eq_some_iff.mp forked with ⟨pids, _, pair⟩
        cases pair
        exact ⟨rfl, .inl ⟨rfl, rfl⟩⟩
    | some starveCount =>
        rcases Sched.doFork_made lists.sane isPrio starveCount clock with
          ⟨s₁, s₂, forked', born, quiet, isCurrent⟩
        rw [forked'] at forked
        cases forked
        exact ⟨isCurrent, .inr ⟨quiet.processes.trans born.processes,
          quiet.unused.trans born.unused⟩⟩
  · rw [Sched.doFork_refused isPrio] at forked
    cases forked
    exact ⟨rfl, .inl ⟨rfl, rfl⟩⟩

/-- A task that ends leaves the processor to one of the others. -/
theorem exited_processes {s s' : Sched} (lists : s.Lists) {now : ℕ}
    (exited : s.pcExit now = some s') :
    s'.processes = s.processes.erase s.currentTask ∧ s'.currentTask ∈ s'.processes := by
  rcases Sched.pcExit_cases exited with ⟨s₁, s₂, next, pids, deleted, found, _, rfl⟩
  rcases lists.deleteTask deleted with ⟨lists₁, processes⟩
  rcases lists₁.findNextTask found with ⟨_, isProcess, same⟩
  exact ⟨same.trans processes, isProcess⟩

theorem Stand.doFork (stand : Stand kernel processors) {setPrio : ℤ} {memory : Option ℕ}
    {clock : ℕ} {newUnion entry initGp argc args : Word} {next : Kernel × Option RegsContext}
    (stepped : kernel.step (.doFork setPrio memory clock newUnion entry initGp argc args) =
      some next) :
    ∃ processors',
      processors.step (.doFork setPrio memory clock newUnion entry initGp argc args) =
        some (processors', next.2) ∧ Stand next.1 processors' := by
  rcases Option.map_eq_some_iff.mp stepped with ⟨⟨pid, sched⟩, forked, rfl⟩
  have isOp : kernel.sched.step (.doFork setPrio memory clock) = some sched := by
    rw [Sched.step, forked]
    rfl
  rcases stand.lists.step stand.current isOp with ⟨lists, current⟩
  rw [Processors.step, ← stand.sched, forked]
  refine ⟨_, rfl, rfl, fun q isProcess ne => ?_, lists, current⟩
  rcases forked_processes stand.lists forked with ⟨isCurrent, processes⟩
  rw [isCurrent] at ne
  rcases processes with ⟨isSame, unused⟩ | ⟨isNew, unused⟩
  · rw [isSame] at isProcess
    dsimp only
    rw [unused, if_neg (Nat.lt_irrefl _), if_neg (Nat.lt_irrefl _)]
    exact stand.contexts q isProcess ne
  · dsimp only
    rw [unused, if_pos (Nat.lt_succ_self _), if_pos (Nat.lt_succ_self _)]
    by_cases isTask : q = kernel.sched.unused
    · rw [isTask, Function.update_self, Function.update_self]
    · rw [isNew] at isProcess
      rw [Function.update_of_ne isTask, Function.update_of_ne isTask]
      refine stand.contexts q ((List.mem_append.mp isProcess).resolve_right fun last => ?_) ne
      exact isTask (List.mem_singleton.mp last)

theorem Stand.pcExit (stand : Stand kernel processors) {d : Data} {now : ℕ}
    {next : Kernel × Option RegsContext} (stepped : kernel.step (.pcExit d now) = some next) :
    ∃ processors', processors.step (.pcExit d now) = some (processors', next.2) ∧
      Stand next.1 processors' := by
  rcases Option.map_eq_some_iff.mp stepped with ⟨sched, exited, rfl⟩
  have isOp : kernel.sched.step (.pcExit now) = some sched := exited
  rcases stand.lists.step stand.current isOp with ⟨lists, current⟩
  rcases exited_processes stand.lists exited with ⟨processes, isNext⟩
  have others : ∀ q ∈ sched.processes, kernel.contexts q = processors.registers q := by
    intro q isProcess
    rw [processes] at isProcess
    rcases stand.lists.nodup.mem_erase_iff.mp isProcess with ⟨ne, old⟩
    exact stand.contexts q old ne
  rw [Processors.step, ← stand.sched, exited]
  refine ⟨_, congrArg (fun out => some (_, some out)) (others _ isNext).symm, rfl,
    fun q isProcess _ => others q isProcess, lists, current⟩

theorem Stand.pcKill (stand : Stand kernel processors) {pid : ℕ}
    {next : Kernel × Option RegsContext} (stepped : kernel.step (.pcKill pid) = some next) :
    ∃ processors', processors.step (.pcKill pid) = some (processors', next.2) ∧
      Stand next.1 processors' := by
  rcases Option.map_eq_some_iff.mp stepped with ⟨⟨code, sched⟩, killed, rfl⟩
  have isOp : kernel.sched.step (.pcKill pid) = some sched := by
    rw [Sched.step, killed]
    rfl
  rcases stand.lists.step stand.current isOp with ⟨lists, current⟩
  rw [Processors.step, ← stand.sched, killed]
  refine ⟨_, rfl, rfl, fun q isProcess ne => ?_, lists, current⟩
  rcases Sched.pcKill_cases killed with rfl | ⟨p, s₁, pids, _, _, _, _, _, deleted, _, _, rfl⟩
  · exact stand.contexts q isProcess ne
  · have isProcess' : q ∈ s₁.processes := isProcess
    have ne' : q ≠ s₁.currentTask := ne
    rw [(stand.lists.deleteTask deleted).2] at isProcess'
    rw [Sched.deleteTask_currentTask deleted] at ne'
    exact stand.contexts q (List.mem_of_mem_erase isProcess') ne'

theorem Stand.step (stand : Stand kernel processors) {op : KernelOp}
    {next : Kernel × Option RegsContext} (stepped : kernel.step op = some next) :
    ∃ processors', processors.step op = some (processors', next.2) ∧
      Stand next.1 processors' := by
  cases op with
  | interrupt d clock now => exact stand.interrupt stepped
  | doFork setPrio memory clock newUnion entry initGp argc args => exact stand.doFork stepped
  | pcExit d now => exact stand.pcExit stepped
  | pcKill pid => exact stand.pcKill stepped

/-! ## The machine -/

variable {symbols : Symbols} {code : Code} {d : Data}

/-- The code of the handlers and the callers of `switch_ex` does what the kernel does. -/
def Ready (symbols : Symbols) (code : Code) (kernel : Kernel) : KernelOp → Prop
  | .interrupt d clock now =>
      Framed symbols d ∧ ∀ next, kernel.step (.interrupt d clock now) = some next →
        Handles symbols code .interrupt d fun context _ => next.2 = some context
  | .pcExit d now =>
      Aligned (d.regs .a0) ∧ ∀ next, kernel.step (.pcExit d now) = some next →
        next.2 = some (contextAt d.mem (d.regs .a0))
  | .doFork .. | .pcKill _ => True

/-- From an address the machine comes to where a context says, with its registers. -/
def ComesTo (code : Code) (start : Word) (d : Data) (context : RegsContext) : Prop :=
  ∃ d', Runs code (.entering start d) (.entering context.epc d') ∧
    contextOf d' context.epc = context

/-- The machine goes on with the context that is put out. -/
def TakenUp (symbols : Symbols) (code : Code) : KernelOp → Option RegsContext → Prop
  | .interrupt d _ _, out => ∃ context, out = some context ∧ ComesTo code interruptVector d context
  | .pcExit d _, out => ∃ context, out = some context ∧ ComesTo code symbols.switchEx d context
  | .doFork .., out | .pcKill _, out => out = none

theorem Ready.takenUp (placed : StartCode symbols code)
    (switchPlaced : Placed code symbols.switchEx switchEx) {op : KernelOp}
    (ready : Ready symbols code kernel op) {next : Kernel × Option RegsContext}
    (stepped : kernel.step op = some next) : TakenUp symbols code op next.2 := by
  cases op with
  | interrupt d clock now =>
      rcases handles_goesOn placed .interrupt ready.1 (ready.2 next stepped) with
        ⟨context, d', ran, registers, isOut⟩
      exact ⟨context, isOut, d', ran, registers⟩
  | pcExit d now =>
      rcases switchEx_goesOn switchPlaced ready.1 with ⟨d', ran, goesOn, _⟩
      exact ⟨_, ready.2 next stepped, d', ran, goesOn.registers⟩
  | doFork setPrio memory clock newUnion entry initGp argc args =>
      rcases Option.map_eq_some_iff.mp stepped with ⟨_, _, rfl⟩
      rfl
  | pcKill pid =>
      rcases Option.map_eq_some_iff.mp stepped with ⟨_, _, rfl⟩
      rfl

/--
From the state that `init_pc` leaves, whatever interrupts come, and whatever tasks are made, end or
are killed: the machine goes on after every interrupt, and behind every task that ends, with the
registers that the processor of the chosen task holds. So a task that goes on finds all registers
as they were when it was interrupted, whatever has run in between, and one that has not run yet
those that it was made with.
-/
theorem registers_of_run (placed : StartCode symbols code)
    (switchPlaced : Placed code symbols.switchEx switchEx)
    (contexts registers : ℕ → RegsContext) {ops : List KernelOp}
    (ready : Allowed Kernel.step (Ready symbols code) ⟨Sched.initPc, contexts⟩ ops)
    {final : Kernel} {outs : List (Option RegsContext)}
    (ran : outputs Kernel.step ⟨Sched.initPc, contexts⟩ ops = some (final, outs)) :
    (∃ processors, outputs Processors.step ⟨Sched.initPc, registers⟩ ops =
        some (processors, outs)) ∧
      List.Forall₂ (TakenUp symbols code) ops outs := by
  have start : Stand ⟨Sched.initPc, contexts⟩ ⟨Sched.initPc, registers⟩ :=
    ⟨rfl, fun q isProcess => absurd isProcess List.not_mem_nil, Sched.initPc_lists,
      fun notIdle => absurd rfl notIdle⟩
  have takes : ∀ kernel processors op next, Stand kernel processors →
      Kernel.step kernel op = some next →
        ∃ processors', Processors.step processors op = some (processors', next.2) ∧
          Stand next.1 processors' :=
    fun _ _ _ _ stand stepped => stand.step stepped
  rcases outputs_lockstep Stand takes start ran with ⟨processors, absRan, _⟩
  have each : ∀ kernel op next, Ready symbols code kernel op → Kernel.step kernel op = some next →
      TakenUp symbols code op next.2 :=
    fun _ _ _ isReady stepped => isReady.takenUp placed switchPlaced stepped
  exact ⟨⟨processors, absRan⟩, forall₂_outputs each ready ran⟩

/-! ## A kernel with two tasks -/

/-- Where the handler finds the program counter and the stack pointer of the next task. -/
def nextTask : Word := 0x80003000

def takeNext : List Instr :=
  la .t0 nextTask ++
    [.lw .t1 0 .t0, .lw .t2 4 .t0, .sw .t1 0 .a2, .sw .zero 8 .a2, .sw .t2 116 .a2]

def switchingSymbols : Symbols := { smallSymbols with doInterrupts := 0x80002000 }

/-- A kernel whose handler of interrupts goes on with the next task, and with 0 in `v0`. -/
def switchingKernel : List (Word × List Instr) :=
  kernelWith switchingSymbols [(switchingSymbols.doInterrupts, takeNext ++ [.jr .ra, .nop])]

theorem switchingKernel_nodup :
    ((switchingKernel.flatMap fun block => listing block.1 block.2).map (·.1)).Nodup := by
  decide +kernel

theorem effects_takeNext {frame : Word} (isFrame : d.regs .a2 = frame) (aligned : Aligned frame) :
    ∃ d', effects d takeNext = some d' ∧ d'.regs .sp = d.regs .sp ∧ d'.regs .ra = d.regs .ra ∧
      d'.mem = Function.update (Function.update (Function.update d.mem frame (d.mem nextTask))
        (frame + 8) 0) (frame + 116) (d.mem (nextTask + 4)) := by
  have second : Aligned (frame + 8#32) := aligned_add aligned (by decide)
  have third : Aligned (frame + 116#32) := aligned_add aligned (by decide)
  have next : Aligned nextTask ∧ Aligned (nextTask + 4#32) := by decide
  rw [takeNext, effects_append, effects_la (by decide), Option.bind_some]
  simp [effects, effect, Data.setReg, Data.reg, Data.address, isFrame, aligned, second, third, next]

theorem handles_switching (framed : Framed switchingSymbols d)
    (apart : ∀ k < 32, nextTask ≠ frameOf switchingSymbols d + BitVec.ofNat 32 (4 * k) ∧
      nextTask + 4 ≠ frameOf switchingSymbols d + BitVec.ofNat 32 (4 * k)) :
    Handles switchingSymbols (codeOf switchingKernel) .interrupt d fun context _ =>
      context = { contextOf d (d.cp0 epc) with
        epc := d.mem nextTask
        v0 := 0
        sp := d.mem (nextTask + 4) } := by
  intro e called
  have handler : Placed (codeOf switchingKernel) switchingSymbols.doInterrupts
      (takeNext ++ [.jr .ra, .nop]) :=
    placed_codeOf switchingKernel_nodup (by simp [switchingKernel, kernelWith])
  rcases placed_append.mp handler with ⟨first, last⟩
  rcases effects_takeNext called.a2 framed.frame with ⟨e', taken, sp, ra, mem⟩
  have returned := runs_delayed last (d := e') rfl rfl rfl
  have isBack : e'.reg .ra = interruptReturn := ra.trans called.ra
  rw [isBack] at returned
  refine ⟨e', (runs_block first (by decide) taken).trans returned, sp, ?_⟩
  have next := called.others nextTask fun k below => (apart k below).1
  have nextSp := called.others (nextTask + 4) fun k below => (apart k below).2
  have context := called.context
  rw [mem, next, nextSp, ← context]
  simp [contextAt]

/-- A task of the kernel that the clock interrupts, with the one that it goes on with. -/
def clockData (pc sp v0 nextPc nextSp : Word) : Data where
  regs r := if r = .sp then sp else if r = .v0 then v0 else 0
  hi := 0
  lo := 0
  cp0 number := if number = epc then pc else if number = cause then 0x8000 else 0
  mem address :=
    if address = nextTask then nextPc else if address = nextTask + 4 then nextSp else 0

/-- The idle task gives way to the first one, and that to the second, which comes after it. -/
def idleData : Data := clockData 0x80000abc 0x80f00000 0 0x80001000 0x80101000

def firstData : Data := clockData 0x80001004 0x80101000 7 0x80001400 0x80201000

/-- The second task exits, and the context of the first is the argument of `switch_ex`. -/
def exitData : Data where
  regs r := if r = .a0 then 0x80100000 else 0
  hi := 0
  lo := 0
  cp0 _ := 0
  mem address :=
    if address = 0x80100000 then 0x80001004 else if address = 0x80100008 then 7
    else if address = 0x80100074 then 0x80101000 else 0

def switchingOps : List KernelOp :=
  [.doFork 63 (some 0) 0 0x80100000 0x80001000 0 0 0, .interrupt idleData 10 11,
    .doFork 55 (some 0) 12 0x80200000 0x80001400 0 0 0, .interrupt firstData 20 21,
    .pcExit exitData 25]

def firstContext : RegsContext := .forkContext 0x80100000 0x80001000 0 0 0

def secondContext : RegsContext := .forkContext 0x80200000 0x80001400 0 0 0

/-- The first task goes on where it was interrupted when the second has exited, and with the 7 it
has in `v0`. -/
theorem registers_of_run_switching :
    ComesTo (codeOf switchingKernel) interruptVector idleData firstContext ∧
      ComesTo (codeOf switchingKernel) interruptVector firstData secondContext ∧
      ComesTo (codeOf switchingKernel) switchingSymbols.switchEx exitData
        (contextOf firstData 0x80001004) := by
  let outs := [none, some firstContext, none, some secondContext,
    some (contextOf firstData 0x80001004)]
  have seen : (outputs Kernel.step ⟨Sched.initPc, fun _ => .zero⟩ switchingOps).map (·.2) =
      some outs := by
    decide +kernel
  rcases Option.map_eq_some_iff.mp seen with ⟨⟨final, _⟩, ran, rfl⟩
  have interrupted : ∀ {d : Data} {context : RegsContext}, Framed switchingSymbols d →
      (∀ k < 32, nextTask ≠ frameOf switchingSymbols d + BitVec.ofNat 32 (4 * k) ∧
        nextTask + 4 ≠ frameOf switchingSymbols d + BitVec.ofNat 32 (4 * k)) →
      { contextOf d (d.cp0 epc) with
        epc := d.mem nextTask
        v0 := 0
        sp := d.mem (nextTask + 4) } = context →
      ∀ {clock now : ℕ} kernel next,
        Kernel.step kernel (.interrupt d clock now) = some (next, some context) →
        Ready switchingSymbols (codeOf switchingKernel) kernel (.interrupt d clock now) := by
    rintro d _ framed apart rfl clock now kernel next stepped
    refine ⟨framed, fun other isNext e called => ?_⟩
    rw [stepped] at isNext
    cases isNext
    rcases handles_switching framed apart e called with ⟨e', ran, sp, isContext⟩
    exact ⟨e', ran, sp, congrArg some isContext.symm⟩
  have ready : Allowed Kernel.step (Ready switchingSymbols (codeOf switchingKernel))
      ⟨Sched.initPc, fun _ => .zero⟩ switchingOps := by
    refine allowed_of_outputs ran (.cons (fun _ _ _ => trivial) (.cons ?_
      (.cons (fun _ _ _ => trivial) (.cons ?_ (.cons ?_ .nil)))))
    · exact interrupted (by constructor <;> decide) (by decide) rfl
    · exact interrupted (by constructor <;> decide) (by decide) rfl
    · intro kernel next stepped
      refine ⟨by decide, fun other isNext => ?_⟩
      rw [stepped] at isNext
      cases isNext
      have isContext :
          contextOf firstData 0x80001004 = contextAt exitData.mem (exitData.regs .a0) := by
        decide
      exact congrArg some isContext
  have switchPlaced : Placed (codeOf switchingKernel) switchingSymbols.switchEx switchEx :=
    placed_codeOf switchingKernel_nodup (by simp [switchingKernel, kernelWith])
  have taken := (registers_of_run (startCode_kernelWith switchingKernel_nodup) switchPlaced _
    (fun _ => .zero) ready ran).2
  simp only [outs, switchingOps, List.forall₂_cons, TakenUp, Option.some.injEq, exists_eq_left']
    at taken
  exact ⟨taken.2.1, taken.2.2.2.1, taken.2.2.2.2.1⟩

end Ninix.Arch
