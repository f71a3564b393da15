import Ninix.Arch.Start

/-!
# Traps

A handler that is called for an interrupt or an exception and returns leaves a context in the
frame, and the program goes on with that one. If it leaves the frame alone this is the program
that was interrupted. `syscall` moves the program counter in the frame behind the instruction, so
a system call gives nothing back to the program that makes it.
-/

namespace Ninix.Arch

open Mips Process

variable {symbols : Symbols} {code : Code} {d : Data}

theorem trap_called (placed : StartCode symbols code) (trap : Trap) (framed : Framed symbols d) :
    ∃ e, Runs code (.entering trap.vector d) (.entering (trap.handler symbols) e) ∧
      Called symbols d trap.back e := by
  cases trap with
  | interrupt => exact interrupt_called placed framed
  | exception => exact exception_called placed framed

/--
The code calls the handler with `Status`, `Cause` and the address of a frame that has the registers
of the program, whether its stack is one of user space or of the kernel, and of the memory only the
frame has changed. If the handler returns with the stack pointer it was called with, the machine
goes on with the registers that are in the frame then, out of the exception level; and if the
handler left the frame alone it goes on where it was, with the registers it had.
-/
theorem trap_goesOn (placed : StartCode symbols code) (trap : Trap) (framed : Framed symbols d) :
    ∃ e, Runs code (.entering trap.vector d) (.entering (trap.handler symbols) e) ∧
      Called symbols d trap.back e ∧
      ∀ e' context,
        Runs code (.entering (trap.handler symbols) e) (.entering trap.back e') →
        e'.regs .sp = e.regs .sp → contextAt e'.mem (frameOf symbols d) = context →
        ∃ d', Runs code (.entering trap.vector d) (.entering context.epc d') ∧
          GoesOn e' context d' ∧
          ((∀ k < 32, e'.mem (frameOf symbols d + BitVec.ofNat 32 (4 * k)) =
              e.mem (frameOf symbols d + BitVec.ofNat 32 (4 * k))) →
            context.epc = d.cp0 epc ∧
              contextOf d' (d.cp0 epc) = contextOf d (d.cp0 epc)) := by
  rcases trap_called placed trap framed with ⟨e, entered, called⟩
  refine ⟨e, entered, called, ?_⟩
  rintro e' context handled sameSp rfl
  have isFrame : e'.regs .sp = frameOf symbols d + (-32) := sameSp.trans called.sp
  rcases back_goesOn placed trap isFrame framed.frame framed.room with ⟨d', returned, goesOn⟩
  refine ⟨d', (entered.trans handled).trans returned, goesOn, fun same => ?_⟩
  have sameContext := (contextAt_congr same).trans called.context
  have registers := goesOn.registers
  rw [sameContext] at registers ⊢
  exact ⟨rfl, registers⟩

/-! ## A kernel that does next to nothing -/

/-- The code of `start.s` and `switch_ex`, with handlers. -/
def kernelWith (symbols : Symbols) (handlers : List (Word × List Instr)) :
    List (Word × List Instr) :=
  [(exceptionVector, exceptionEntry symbols), (interruptVector, interruptEntry symbols),
    (interruptSaveContext,
      saveContext ++ [.jal symbols.doInterrupts, .nop, .addi .sp .sp 32]),
    (restoreContext, loadContext ++ [.eret]),
    (exceptionSaveContext,
      saveContext ++ [.jal symbols.doExceptions, .nop, .addi .sp .sp 32, .j restoreContext, .nop]),
    (symbols.switchEx, switchEx)] ++ handlers

theorem startCode_kernelWith {handlers : List (Word × List Instr)}
    (nodup : (((kernelWith symbols handlers).flatMap fun block =>
      listing block.1 block.2).map (·.1)).Nodup) :
    StartCode symbols (codeOf (kernelWith symbols handlers)) := by
  constructor <;> exact placed_codeOf nodup (by simp [kernelWith])

/-- Symbols of a kernel whose handlers stand right behind `start`. -/
def smallSymbols : Symbols := ⟨0x80020000, 0x80001010, 0x80001018, 0x80010000⟩

/-- A kernel that does nothing for interrupts, and skips the instruction of an exception. -/
def smallKernel : List (Word × List Instr) :=
  kernelWith smallSymbols
    [(smallSymbols.doInterrupts, [.jr .ra, .nop]),
      (smallSymbols.doExceptions,
        [.lw .t0 0 .a2, .addiu .t0 .t0 4, .sw .t0 0 .a2, .jr .ra, .nop])]

theorem smallKernel_nodup :
    ((smallKernel.flatMap fun block => listing block.1 block.2).map (·.1)).Nodup := by
  decide +kernel

theorem startCode_small : StartCode smallSymbols (codeOf smallKernel) :=
  startCode_kernelWith smallKernel_nodup

/-- A program in user space that is interrupted. -/
def smallData : Data where
  regs r := if r = .sp then 0x00800000 else 7
  hi := 1
  lo := 2
  cp0 number := if number = epc then 0x00400010 else if number = cause then 0x20 else 2
  mem address := if address = smallSymbols.kernelSp then 0x81000000 else 0

theorem framed_small : Framed smallSymbols smallData := by
  constructor <;> decide

theorem interrupt_small {e : Data} (called : Called smallSymbols d interruptReturn e) :
    Runs (codeOf smallKernel) (.entering smallSymbols.doInterrupts e)
      (.entering interruptReturn e) := by
  have handler : Placed (codeOf smallKernel) smallSymbols.doInterrupts [.jr .ra, .nop] :=
    placed_codeOf smallKernel_nodup (by simp [smallKernel, kernelWith])
  have returned := runs_delayed handler (d := e) rfl rfl rfl
  have isBack : e.reg .ra = interruptReturn := called.ra
  rw [isBack] at returned
  exact returned

theorem trap_goesOn_small : ∃ d',
    Runs (codeOf smallKernel) (.entering interruptVector smallData) (.entering 0x00400010 d') ∧
      contextOf d' 0x00400010 = contextOf smallData 0x00400010 := by
  rcases trap_goesOn startCode_small .interrupt framed_small with ⟨e, _, called, goesOn⟩
  rcases goesOn e _ (interrupt_small called) rfl rfl with ⟨d', ran, _, stayed⟩
  rcases stayed fun _ _ => rfl with ⟨isPc, same⟩
  rw [isPc] at ran
  exact ⟨d', ran, same⟩

/-! ## Exceptions and system calls -/

/-- `exc_fn`, which may change the frame and what else there is. -/
abbrev ExcFn (σ : Type) := Word → Word → RegsContext × σ → RegsContext × σ

/-- `sys_fn` -/
abbrev SysFn (σ : Type) := Word → Word → Word → Word → σ → σ

/-- `do_exceptions`, which does not return for an exception that has no function. -/
def doExceptions {σ : Type} (exceptions : BitVec 5 → Option (ExcFn σ)) (status cause : Word)
    (s : RegsContext × σ) : Option (RegsContext × σ) :=
  let index := (cause >>> 2 &&& 0x1f).setWidth 5
  (exceptions index).map fun exception => exception status cause s

def registerExceptionHandler {σ : Type} (exceptions : BitVec 5 → Option (ExcFn σ)) (index : Word)
    (fn : ExcFn σ) : BitVec 5 → Option (ExcFn σ) :=
  Function.update exceptions ((index &&& 31).setWidth 5) (some fn)

def syscall {σ : Type} (syscalls : BitVec 8 → Option (SysFn σ)) : ExcFn σ := fun _ _ s =>
  let frame := s.1
  let v0 := (frame.v0 &&& 255).setWidth 8
  let resumed := { frame with epc := frame.epc + 4 }
  match syscalls v0 with
  | some fn => (resumed, fn frame.a0 frame.a1 frame.a2 frame.a3 s.2)
  | none => (resumed, s.2)

def registerSyscall {σ : Type} (syscalls : BitVec 8 → Option (SysFn σ)) (index : Word)
    (fn : SysFn σ) : BitVec 8 → Option (SysFn σ) :=
  Function.update syscalls ((index &&& 255).setWidth 8) (some fn)

def gpioLed : Word := 0xbfc0900c

/-- `syscall4`, where what else there is are the LEDs. -/
def syscall4 : SysFn Word := fun a0 _ _ _ _ => a0

def syscalls : BitVec 8 → Option (SysFn Word) := registerSyscall (fun _ => none) 4 syscall4

/-- The functions that `init_syscall` registers; there are no others for exceptions. -/
def exceptions : BitVec 5 → Option (ExcFn Word) :=
  registerExceptionHandler (fun _ => none) 8 (syscall syscalls)

/-- The handler that is called for what comes with `d` returns and leaves a frame and a memory. -/
def Handles (symbols : Symbols) (code : Code) (trap : Trap) (d : Data)
    (leaves : RegsContext → (Word → Word) → Prop) : Prop :=
  ∀ e, Called symbols d trap.back e →
    ∃ e', Runs code (.entering (trap.handler symbols) e) (.entering trap.back e') ∧
      e'.regs .sp = e.regs .sp ∧ leaves (contextAt e'.mem (frameOf symbols d)) e'.mem

theorem handles_goesOn {leaves : RegsContext → (Word → Word) → Prop}
    (placed : StartCode symbols code) (trap : Trap) (framed : Framed symbols d)
    (handles : Handles symbols code trap d leaves) :
    ∃ context d', Runs code (.entering trap.vector d) (.entering context.epc d') ∧
      contextOf d' context.epc = context ∧ leaves context d'.mem := by
  rcases trap_called placed trap framed with ⟨e, entered, called⟩
  rcases handles e called with ⟨e', handled, sameSp, left⟩
  have isFrame : e'.regs .sp = frameOf symbols d + (-32) := sameSp.trans called.sp
  rcases back_goesOn placed trap isFrame framed.frame framed.room with ⟨d', returned, goesOn⟩
  refine ⟨_, d', (entered.trans handled).trans returned, goesOn.registers, ?_⟩
  rw [goesOn.mem]
  exact left

/-- An index that has been masked is the one it is cut to. -/
theorem setWidth_inj {width : ℕ} {x y : Word} (xBelow : x.toNat < 2 ^ width)
    (yBelow : y.toNat < 2 ^ width) : x.setWidth width = y.setWidth width ↔ x = y := by
  refine ⟨fun same => BitVec.eq_of_toNat_eq ?_, congrArg _⟩
  have sameNat := congrArg BitVec.toNat same
  rwa [BitVec.toNat_setWidth, BitVec.toNat_setWidth, Nat.mod_eq_of_lt xBelow,
    Nat.mod_eq_of_lt yBelow] at sameNat

theorem toNat_and_lt (x : Word) {mask bound : ℕ} (below : mask % 2 ^ 32 < bound) :
    (x &&& BitVec.ofNat 32 mask).toNat < bound := by
  rw [BitVec.toNat_and, BitVec.toNat_ofNat]
  exact lt_of_le_of_lt Nat.and_le_right below

/-- What is left of the frame by a system call, and of the LEDs. -/
theorem syscall_spec (status cause : Word) (frame : RegsContext) (led : Word) :
    syscall syscalls status cause (frame, led) =
      ({ frame with epc := frame.epc + 4 }, if frame.v0 &&& 255 = 4 then frame.a0 else led) := by
  have index : (frame.v0 &&& 255).setWidth 8 = (4 &&& 255 : Word).setWidth 8 ↔
      frame.v0 &&& 255 = 4 := setWidth_inj (toNat_and_lt _ (by decide)) (by decide)
  by_cases isFour : frame.v0 &&& 255 = 4
  · have found : syscalls ((frame.v0 &&& 255).setWidth 8) = some syscall4 := by
      rw [index.mpr isFour]
      rfl
    rw [syscall, found, if_pos isFour]
    rfl
  · have missing : syscalls ((frame.v0 &&& 255).setWidth 8) = none := by
      rw [syscalls, registerSyscall, Function.update_of_ne fun same => isFour (index.mp same)]
    rw [syscall, missing, if_neg isFour]

/-- The kernel returns from no exception but a system call. -/
theorem doExceptions_eq_some {status cause : Word} {s s' : RegsContext × Word} :
    doExceptions exceptions status cause s = some s' ↔
      cause >>> 2 &&& 0x1f = 8 ∧ syscall syscalls status cause s = s' := by
  have index : (cause >>> 2 &&& 0x1f).setWidth 5 = (8 &&& 31 : Word).setWidth 5 ↔
      cause >>> 2 &&& 0x1f = 8 := setWidth_inj (toNat_and_lt _ (by decide)) (by decide)
  by_cases isSyscall : cause >>> 2 &&& 0x1f = 8
  · have found : exceptions ((cause >>> 2 &&& 0x1f).setWidth 5) = some (syscall syscalls) := by
      rw [index.mpr isSyscall]
      rfl
    rw [doExceptions, found, Option.map_some, Option.some_inj, and_iff_right isSyscall]
  · have missing : exceptions ((cause >>> 2 &&& 0x1f).setWidth 5) = none := by
      rw [exceptions, registerExceptionHandler,
        Function.update_of_ne fun same => isSyscall (index.mp same)]
    rw [doExceptions, missing]
    simp only [Option.map_none, reduceCtorEq, isSyscall, false_and]

/--
If the handler of exceptions leaves what `do_exceptions` says, with the functions that
`init_syscall` registers, then the exception it returns from was a system call, and the program goes
on behind the instruction with every register as it was. So no system call gives anything back; the
one with the number 4 sets the LEDs to its first argument, and the others leave them alone.
-/
theorem syscall_goesOn (placed : StartCode symbols code) (framed : Framed symbols d)
    (handles : Handles symbols code .exception d fun context mem =>
      doExceptions exceptions (d.cp0 status) (d.cp0 cause)
        (contextOf d (d.cp0 epc), d.mem gpioLed) = some (context, mem gpioLed)) :
    d.cp0 cause >>> 2 &&& 0x1f = 8 ∧
      ∃ d', Runs code (.entering exceptionVector d) (.entering (d.cp0 epc + 4) d') ∧
        contextOf d' (d.cp0 epc) = contextOf d (d.cp0 epc) ∧
        d'.mem gpioLed = if d.regs .v0 &&& 255 = 4 then d.regs .a0 else d.mem gpioLed := by
  rcases handles_goesOn placed .exception framed handles with ⟨context, d', ran, same, left⟩
  rcases doExceptions_eq_some.mp left with ⟨isSyscall, called⟩
  rw [syscall_spec] at called
  rcases Prod.mk.inj called with ⟨isContext, isLed⟩
  rw [← isContext] at ran same
  refine ⟨isSyscall, d', ran, ?_, isLed.symm⟩
  exact congrArg (fun context => { context with epc := d.cp0 epc }) same

/-- The handler of exceptions of the small kernel. -/
theorem handles_small : Handles smallSymbols (codeOf smallKernel) .exception smallData
    fun context mem => doExceptions exceptions (smallData.cp0 status) (smallData.cp0 cause)
      (contextOf smallData (smallData.cp0 epc), smallData.mem gpioLed) =
        some (context, mem gpioLed) := by
  intro e called
  have frame : frameOf smallSymbols smallData = 0x80ffff80 := rfl
  have a2 := called.a2
  have context := called.context
  have led := called.others gpioLed (by decide)
  rw [frame] at a2 context
  have pc : e.mem 0x80ffff80#32 = 0x00400010#32 := congrArg RegsContext.epc context
  let e' : Data := { e with
    regs := Function.update e.regs .t0 0x00400014
    mem := Function.update e.mem 0x80ffff80 0x00400014 }
  have skipped : effects e [.lw .t0 0 .a2, .addiu .t0 .t0 4, .sw .t0 0 .a2] = some e' := by
    simp [effects, effect, Data.address, Data.reg, Data.setReg, a2, pc, Aligned, e']
  have handler : Placed (codeOf smallKernel) smallSymbols.doExceptions
      ([.lw .t0 0 .a2, .addiu .t0 .t0 4, .sw .t0 0 .a2] ++ [.jr .ra, .nop]) :=
    placed_codeOf smallKernel_nodup (by simp [smallKernel, kernelWith])
  rcases placed_append.mp handler with ⟨first, last⟩
  have returned := runs_delayed last (d := e') rfl rfl rfl
  have isBack : e'.reg .ra = exceptionReturn := called.ra
  rw [isBack] at returned
  refine ⟨e', (runs_block first (by decide) skipped).trans returned, rfl, ?_⟩
  have left : contextAt e'.mem 0x80ffff80 =
      { contextAt e.mem 0x80ffff80 with epc := 0x00400014 } := by
    simp [contextAt, e']
  have led' : e'.mem gpioLed = smallData.mem gpioLed := by
    have apart : gpioLed ≠ 0x80ffff80 := by decide
    rw [← led]
    show Function.update e.mem 0x80ffff80 0x00400014 gpioLed = e.mem gpioLed
    exact Function.update_of_ne apart _ _
  refine doExceptions_eq_some.mpr ⟨by decide, ?_⟩
  rw [syscall_spec, frame, left, context, led']
  rfl

theorem syscall_goesOn_small : ∃ d',
    Runs (codeOf smallKernel) (.entering exceptionVector smallData) (.entering 0x00400014 d') ∧
      contextOf d' 0x00400010 = contextOf smallData 0x00400010 := by
  rcases syscall_goesOn startCode_small framed_small handles_small with ⟨_, d', ran, same, _⟩
  exact ⟨d', ran, same⟩

end Ninix.Arch
