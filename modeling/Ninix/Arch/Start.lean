import Ninix.Library.Mips
import Ninix.Process.Context

/-!
# Entry and return

The processor comes to `start.s` for an interrupt. If it was in user space the stack becomes that
of the kernel. The registers are put into a frame on the stack, which has the layout of
`struct regs_context`, and `do_interrupts` is called with its address; when it returns the
registers are taken out of the frame again. So whatever is in the frame then is what runs next.
-/

namespace Ninix.Arch

open Mips Process

/-- The addresses that the linker gives symbols of the kernel. -/
structure Symbols where
  kernelSp : Word
  doInterrupts : Word
  doExceptions : Word
  switchEx : Word

/-- The registers of a frame that `sw` and `lw` move, with their offsets. -/
def savedRegs : Slots :=
  [(.at, 4), (.v0, 8), (.v1, 12), (.a0, 16), (.a1, 20), (.a2, 24), (.a3, 28), (.t0, 32), (.t1, 36),
    (.t2, 40), (.t3, 44), (.t4, 48), (.t5, 52), (.t6, 56), (.t7, 60), (.s0, 64), (.s1, 68),
    (.s2, 72), (.s3, 76), (.s4, 80), (.s5, 84), (.s6, 88), (.s7, 92), (.t8, 96), (.t9, 100),
    (.gp, 112), (.k1, 116), (.fp, 120), (.ra, 124)]

/-! ## The code -/

def interruptVector : Word := 0x80000200
def interruptSaveContext : Word := 0x8000021c
def interruptReturn : Word := 0x800002c4
def restoreContext : Word := 0x800002c8
def exceptionVector : Word := 0x80000180
def exceptionSaveContext : Word := 0x8000035c
def exceptionReturn : Word := 0x80000404

/-- What the vectors start with: the code jumps if the stack pointer is one of the kernel. -/
def chooseStack (target : Word) : List Instr :=
  [.lui .k0 0x8000, .sltu .k0 .sp .k0, .beq .k0 .zero target, .move .k1 .sp]

/-- `.org 0x0200`, up to `interrupt_save_context` -/
def interruptEntry (symbols : Symbols) : List Instr :=
  chooseStack interruptSaveContext ++ (la .k0 symbols.kernelSp ++ [.lw .sp 0 .k0])

/-- `.org 0x0180`, up to `.org 0x0200` -/
def exceptionEntry (symbols : Symbols) : List Instr :=
  chooseStack exceptionSaveContext ++
    (la .k0 symbols.kernelSp ++ [.j exceptionSaveContext, .lw .sp 0 .k0])

/-- The part of `interrupt_save_context` and `exception_save_context` before the call -/
def saveContext : List Instr :=
  .addiu .sp .sp (-128) :: (saves .sp savedRegs ++
    [.mfc0 .a0 status, .mfc0 .a1 cause, .mfc0 .a2 epc, .mfhi .t3, .mflo .t4, .sw .a2 0 .sp,
      .sw .t3 104 .sp, .sw .t4 108 .sp, .move .a2 .sp, .addi .sp .sp (-32)])

/-- `restore_context`, up to `eret` -/
def loadContext : List Instr :=
  [.lw .a2 0 .sp, .lw .t3 104 .sp, .lw .t4 108 .sp, .mtc0 .a2 epc, .mthi .t3, .mtlo .t4] ++
    loads .sp savedRegs ++ [.move .sp .k1]

/-- `switch_ex` -/
def switchEx : List Instr := .move .sp .a0 :: (loadContext ++ [.mtc0 .zero count, .eret])

/-- The code of `start.s` that interrupts and exceptions other than TLB refills run -/
structure StartCode (symbols : Symbols) (code : Code) : Prop where
  exceptionEntry : Placed code exceptionVector (exceptionEntry symbols)
  interruptEntry : Placed code interruptVector (interruptEntry symbols)
  interruptSave : Placed code interruptSaveContext
    (saveContext ++ [.jal symbols.doInterrupts, .nop, .addi .sp .sp 32])
  restore : Placed code restoreContext (loadContext ++ [.eret])
  exceptionSave : Placed code exceptionSaveContext
    (saveContext ++ [.jal symbols.doExceptions, .nop, .addi .sp .sp 32, .j restoreContext, .nop])

/-- The parts stand one behind the other. -/
theorem interrupt_layout (symbols : Symbols) :
    behind interruptVector (interruptEntry symbols) = interruptSaveContext ∧
      behind interruptSaveContext (saveContext ++ [.jal symbols.doInterrupts, .nop]) =
        interruptReturn ∧
      behind interruptReturn [.addi .sp .sp 32] = restoreContext ∧
      behind restoreContext (loadContext ++ [.eret]) = exceptionSaveContext ∧
      behind exceptionSaveContext (saveContext ++ [.jal symbols.doExceptions, .nop]) =
        exceptionReturn := ⟨rfl, rfl, rfl, rfl, rfl⟩

/-! ## Frames -/

/-- The registers of a program that stands at an address. -/
def contextOf (d : Data) (pc : Word) : RegsContext where
  epc := pc
  «at» := d.regs .at
  v0 := d.regs .v0
  v1 := d.regs .v1
  a0 := d.regs .a0
  a1 := d.regs .a1
  a2 := d.regs .a2
  a3 := d.regs .a3
  t0 := d.regs .t0
  t1 := d.regs .t1
  t2 := d.regs .t2
  t3 := d.regs .t3
  t4 := d.regs .t4
  t5 := d.regs .t5
  t6 := d.regs .t6
  t7 := d.regs .t7
  s0 := d.regs .s0
  s1 := d.regs .s1
  s2 := d.regs .s2
  s3 := d.regs .s3
  s4 := d.regs .s4
  s5 := d.regs .s5
  s6 := d.regs .s6
  s7 := d.regs .s7
  t8 := d.regs .t8
  t9 := d.regs .t9
  hi := d.hi
  lo := d.lo
  gp := d.regs .gp
  sp := d.regs .sp
  fp := d.regs .fp
  ra := d.regs .ra

/-- The `struct regs_context` at an address. -/
def contextAt (mem : Word → Word) (frame : Word) : RegsContext :=
  ⟨mem frame, mem (frame + 4), mem (frame + 8), mem (frame + 12), mem (frame + 16),
    mem (frame + 20), mem (frame + 24), mem (frame + 28), mem (frame + 32), mem (frame + 36),
    mem (frame + 40), mem (frame + 44), mem (frame + 48), mem (frame + 52), mem (frame + 56),
    mem (frame + 60), mem (frame + 64), mem (frame + 68), mem (frame + 72), mem (frame + 76),
    mem (frame + 80), mem (frame + 84), mem (frame + 88), mem (frame + 92), mem (frame + 96),
    mem (frame + 100), mem (frame + 104), mem (frame + 108), mem (frame + 112),
    mem (frame + 116), mem (frame + 120), mem (frame + 124)⟩

theorem contextAt_congr {mem mem' : Word → Word} {frame : Word}
    (same : ∀ k < 32, mem (frame + BitVec.ofNat 32 (4 * k)) =
      mem' (frame + BitVec.ofNat 32 (4 * k))) :
    contextAt mem frame = contextAt mem' frame := by
  have word : ∀ offset : Word, offset.toNat % 4 = 0 → offset.toNat < 128 →
      mem (frame + offset) = mem' (frame + offset) := by
    intro offset multiple below
    have isOffset : BitVec.ofNat 32 (4 * (offset.toNat / 4)) = offset := by
      rw [Nat.mul_div_cancel' (Nat.dvd_of_mod_eq_zero multiple), BitVec.ofNat_toNat,
        BitVec.setWidth_eq]
    rw [← isOffset]
    exact same _ (by omega)
  have first : mem frame = mem' frame := by
    rw [← BitVec.add_zero frame]
    exact word 0 rfl (by decide)
  unfold contextAt
  congr 1 <;> exact word _ (by decide) (by decide)

/-! ## Saving a context -/

variable {d d' : Data} {frame : Word}

theorem aligned_add {offset : Word} (aligned : Aligned frame) (multiple : offset.toNat % 4 = 0) :
    Aligned (frame + offset) := by
  unfold Aligned at *
  rw [BitVec.toNat_add]
  omega

theorem savedRegs_offsets : (savedRegs.map fun slot => slot.2.signExtend 32).Nodup ∧
    ∀ slot ∈ savedRegs, (slot.2.signExtend 32).toNat % 4 = 0 := by
  decide

theorem savedRegs_regs : (savedRegs.map (·.1)).Nodup ∧
    ∀ slot ∈ savedRegs, slot.1 ≠ .sp ∧ slot.1 ≠ .zero := by
  decide

/-- The state at the call of a handler: the registers are in the frame, whose address is an
argument. -/
structure Entered (d : Data) (frame : Word) (d' : Data) : Prop where
  sp : d'.regs .sp = frame + (-32)
  a0 : d'.regs .a0 = d.cp0 status
  a1 : d'.regs .a1 = d.cp0 cause
  a2 : d'.regs .a2 = frame
  cp0 : d'.cp0 = d.cp0
  context : contextAt d'.mem frame = { contextOf d (d.cp0 epc) with sp := d.regs .k1 }
  others : ∀ a, (∀ k < 32, a ≠ frame + BitVec.ofNat 32 (4 * k)) → d'.mem a = d.mem a

/-- What is left to do when the registers are in the frame. -/
def saveRest : List Instr :=
  [.mfc0 .a0 status, .mfc0 .a1 cause, .mfc0 .a2 epc, .mfhi .t3, .mflo .t4, .sw .a2 0 .sp,
    .sw .t3 104 .sp, .sw .t4 108 .sp, .move .a2 .sp, .addi .sp .sp (-32)]

theorem effects_saveRest (isFrame : d.regs .sp = frame) (aligned : Aligned frame)
    (room : BitVec.saddOverflow frame (-32) = false) :
    ∃ d', effects d saveRest = some d' ∧
      d'.mem = Function.update (Function.update (Function.update d.mem frame (d.cp0 epc))
        (frame + 104) d.hi) (frame + 108) d.lo ∧
      d'.cp0 = d.cp0 ∧ d'.regs .sp = frame + (-32) ∧ d'.regs .a0 = d.cp0 status ∧
      d'.regs .a1 = d.cp0 cause ∧ d'.regs .a2 = frame := by
  have second : Aligned (frame + 104#32) := aligned_add aligned (by decide)
  have third : Aligned (frame + 108#32) := aligned_add aligned (by decide)
  have fits : BitVec.saddOverflow frame 4294967264#32 = false := room
  simp [saveRest, effects, effect, Data.setReg, Data.reg, Data.address, isFrame, aligned, second,
    third, fits]

/-- The frame has the layout of `struct regs_context`. -/
theorem contextAt_saved {mem : Word → Word} (saved : Saved d .sp savedRegs mem)
    (atFrame : d.regs .sp = frame) (pc : Word) :
    contextAt (Function.update (Function.update (Function.update mem frame pc) (frame + 104) d.hi)
      (frame + 108) d.lo) frame = { contextOf d pc with sp := d.regs .k1 } := by
  have held := saved.held
  simp only [savedRegs, BitVec.ofNat_eq_ofNat, List.mem_cons, List.not_mem_nil, or_false,
    Data.address, Data.reg, reduceCtorEq, if_false, atFrame, forall_eq_or_imp,
    BitVec.reduceSignExtend, forall_eq] at held
  simp [contextAt, contextOf, held]

/-- The places of the frame that stores of registers go to. -/
theorem savedRegs_places : ∀ slot ∈ savedRegs, ∃ k < 32,
    slot.2.signExtend 32 = BitVec.ofNat 32 (4 * k) := by
  decide

theorem effects_saveContext (isFrame : d.regs .sp + (-128) = frame) (aligned : Aligned frame)
    (room : BitVec.saddOverflow frame (-32) = false) :
    ∃ d', effects d saveContext = some d' ∧ Entered d frame d' := by
  let d₁ : Data := { d with regs := Function.update d.regs .sp frame }
  have first : effect d (.addiu .sp .sp (-128)) = some d₁ := by
    rw [effect, Data.setReg, if_neg (by decide)]
    exact congrArg (fun value => some { d with regs := Function.update d.regs .sp value }) isFrame
  have atFrame : d₁.regs .sp = frame := by
    show Function.update d.regs .sp frame .sp = frame
    exact Function.update_self ..
  have place : ∀ offset, d₁.address .sp offset = frame + offset.signExtend 32 := by
    intro offset
    rw [Data.address, Data.reg, if_neg (by decide), atFrame]
  have places : ∀ slot ∈ savedRegs, Aligned (d₁.address .sp slot.2) := by
    intro slot mem
    rw [place]
    exact aligned_add aligned (savedRegs_offsets.2 slot mem)
  rcases effects_saves places savedRegs_offsets.1 with ⟨mem, effective, saved⟩
  rcases effects_saveRest (d := { d₁ with mem }) atFrame aligned room with
    ⟨d', rest, isMem, cp0, sp, a0, a1, a2⟩
  have ran : effects d saveContext = some d' := by
    have joined : saveContext = .addiu .sp .sp (-128) :: (saves .sp savedRegs ++ saveRest) := rfl
    rw [joined, effects, first, Option.bind_some, effects_append, effective, Option.bind_some, rest]
  refine ⟨d', ran, ⟨sp, a0, a1, a2, cp0, ?_, fun a outside => ?_⟩⟩
  · rw [isMem]
    exact contextAt_saved saved atFrame (d.cp0 epc)
  · have start := outside 0 (by decide)
    rw [BitVec.add_zero] at start
    have behind : ∀ slot ∈ savedRegs, a ≠ d₁.address .sp slot.2 := by
      intro slot isSlot
      rcases savedRegs_places slot isSlot with ⟨k, below, offset⟩
      rw [place, offset]
      exact outside k below
    rw [isMem]
    exact (Function.update_of_ne (outside 27 (by decide)) _ _).trans
      ((Function.update_of_ne (outside 26 (by decide)) _ _).trans
        ((Function.update_of_ne start _ _).trans (saved.others a behind)))

/-! ## Restoring a context -/

/-- The state that goes on with a context. -/
structure Resumed (d : Data) (context : RegsContext) (d' : Data) : Prop where
  registers : contextOf d' context.epc = context
  epc : d'.cp0 epc = context.epc
  cp0 : ∀ number, number ≠ Mips.epc → d'.cp0 number = d.cp0 number
  mem : d'.mem = d.mem

/-- The words that go to special registers. -/
def loadFirst : List Instr :=
  [.lw .a2 0 .sp, .lw .t3 104 .sp, .lw .t4 108 .sp, .mtc0 .a2 epc, .mthi .t3, .mtlo .t4]

theorem effects_loadFirst (isFrame : d.regs .sp = frame) (aligned : Aligned frame) :
    ∃ d', effects d loadFirst = some d' ∧ d'.hi = d.mem (frame + 104) ∧
      d'.lo = d.mem (frame + 108) ∧ d'.cp0 = Function.update d.cp0 epc (d.mem frame) ∧
      d'.mem = d.mem ∧ d'.regs .sp = frame := by
  have second : Aligned (frame + 104#32) := aligned_add aligned (by decide)
  have third : Aligned (frame + 108#32) := aligned_add aligned (by decide)
  simp [loadFirst, effects, effect, Data.setReg, Data.setCp0, Data.reg, Data.address, isFrame,
    aligned, second, third]

theorem effects_loadContext (isFrame : d.regs .sp = frame) (aligned : Aligned frame) :
    ∃ d', effects d loadContext = some d' ∧ Resumed d (contextAt d.mem frame) d' := by
  rcases effects_loadFirst isFrame aligned with ⟨d₁, first, hi, lo, cp0, mem, sp⟩
  have places : ∀ slot ∈ savedRegs, Aligned (d₁.address .sp slot.2) := by
    intro slot isSlot
    rw [Data.address, Data.reg, if_neg (by decide), sp]
    exact aligned_add aligned (savedRegs_offsets.2 slot isSlot)
  rcases effects_loads places savedRegs_regs.1 savedRegs_regs.2 with ⟨regs, effective, loaded⟩
  have last : effects { d₁ with regs } [.move .sp .k1] =
      some { d₁ with regs := Function.update regs .sp (regs .k1) } := rfl
  have ran : effects d loadContext =
      some { d₁ with regs := Function.update regs .sp (regs .k1) } := by
    have joined : loadContext = loadFirst ++ loads .sp savedRegs ++ [.move .sp .k1] := rfl
    rw [joined, effects_append, effects_append, first, Option.bind_some, effective,
      Option.bind_some, last]
  have taken := loaded.taken
  simp only [savedRegs, BitVec.ofNat_eq_ofNat, List.mem_cons, List.not_mem_nil, or_false,
    Data.address, Data.reg, reduceCtorEq, if_false, sp, mem, forall_eq_or_imp,
    BitVec.reduceSignExtend, forall_eq] at taken
  refine ⟨_, ran, ⟨?_, ?_, fun number ne => ?_, mem⟩⟩
  · simp [contextAt, contextOf, taken, hi, lo]
  · exact (congrFun cp0 epc).trans (Function.update_self ..)
  · exact (congrFun cp0 number).trans (Function.update_of_ne ne _ _)

/-! ## The way in and out -/

variable {symbols : Symbols} {code : Code}

/-- The stack a frame goes to: that of the kernel if the stack pointer is one of user space. -/
def stackTop (symbols : Symbols) (d : Data) : Word :=
  if d.regs .sp < 0x80000000 then d.mem symbols.kernelSp else d.regs .sp

/-- The address of the frame. -/
def frameOf (symbols : Symbols) (d : Data) : Word := stackTop symbols d + (-128)

/-- The state behind the choice of the stack: the old stack pointer is in `k1`. -/
structure OnStack (symbols : Symbols) (d d' : Data) : Prop where
  sp : d'.regs .sp = stackTop symbols d
  k1 : d'.regs .k1 = d.regs .sp
  others : ∀ r, r ≠ .sp → r ≠ .k0 → r ≠ .k1 → d'.regs r = d.regs r
  rest : d'.hi = d.hi ∧ d'.lo = d.lo ∧ d'.cp0 = d.cp0 ∧ d'.mem = d.mem

/-- The state behind `chooseStack` -/
def chosen (d : Data) : Data :=
  { d with
    regs := Function.update
      (Function.update d.regs .k0 (if d.regs .sp < 0x80000000 then 1 else 0)) .k1 (d.regs .sp) }

theorem runs_chooseStack {start target : Word}
    (placed : Placed code start (chooseStack target)) :
    Runs code ⟨start, start + 4, d⟩
      (if d.regs .sp < 0x80000000 then
        ⟨behind start (chooseStack target), behind start (chooseStack target) + 4, chosen d⟩
      else ⟨target, target + 4, chosen d⟩) := by
  let d₁ : Data := { d with
    regs := Function.update d.regs .k0 (if d.regs .sp < 0x80000000 then 1 else 0) }
  rcases placed with ⟨isLui, isSltu, second⟩
  have first : Placed code start [.lui .k0 0x8000, .sltu .k0 .sp .k0] := ⟨isLui, isSltu, trivial⟩
  have compared : effects d [.lui .k0 0x8000, .sltu .k0 .sp .k0] = some d₁ := by
    simp [effects, effect, Data.setReg, Data.reg, d₁]
  have moved : effect d₁ (.move .k1 .sp) = some (chosen d) := by
    simp [effect, Data.setReg, Data.reg, d₁, chosen]
  have k0 : d₁.reg .k0 = if d.regs .sp < 0x80000000 then 1 else 0 := rfl
  have started := runs_block first (by decide) compared
  by_cases isUser : d.regs .sp < 0x80000000
  · rw [if_pos isUser] at k0 ⊢
    have notZero : d₁.reg .k0 ≠ d₁.reg .zero := by
      rw [k0]
      exact (by decide : (1 : Word) ≠ 0)
    refine started.trans (runs_delayed second ?_ rfl moved)
    rw [exec, if_neg notZero]
    rfl
  · rw [if_neg isUser] at k0 ⊢
    have isZero : d₁.reg .k0 = d₁.reg .zero := k0
    refine started.trans (runs_delayed second ?_ rfl moved)
    rw [exec, if_pos isZero]

/-- In kernel space the stack stays. -/
theorem onStack_kernel (isKernel : ¬d.regs .sp < 0x80000000) : OnStack symbols d (chosen d) := by
  refine ⟨?_, rfl, fun r _ notK0 notK1 => ?_, rfl, rfl, rfl, rfl⟩
  · rw [stackTop, if_neg isKernel]
    rfl
  · exact (Function.update_of_ne notK1 _ _).trans (Function.update_of_ne notK0 _ _)

/-- The stack pointer of the kernel is loaded. -/
theorem effects_kernelSp (aligned : Aligned symbols.kernelSp) (d : Data) :
    effects d (la .k0 symbols.kernelSp ++ [.lw .sp 0 .k0]) =
      some { d with
        regs := Function.update (Function.update d.regs .k0 symbols.kernelSp) .sp
          (d.mem symbols.kernelSp) } := by
  rw [effects_append, effects_la (by decide), Option.bind_some]
  simp [effects, effect, Data.setReg, Data.reg, Data.address, aligned]

theorem onStack_user (isUser : d.regs .sp < 0x80000000) :
    OnStack symbols d { chosen d with
      regs := Function.update (Function.update (chosen d).regs .k0 symbols.kernelSp) .sp
        (d.mem symbols.kernelSp) } := by
  refine ⟨?_, rfl, fun r notSp notK0 notK1 => ?_, rfl, rfl, rfl, rfl⟩
  · rw [stackTop, if_pos isUser]
    rfl
  · exact (Function.update_of_ne notSp _ _).trans ((Function.update_of_ne notK0 _ _).trans
      ((Function.update_of_ne notK1 _ _).trans (Function.update_of_ne notK0 _ _)))

theorem interrupt_onStack (placed : StartCode symbols code) (aligned : Aligned symbols.kernelSp)
    (d : Data) :
    ∃ d', Runs code ⟨interruptVector, interruptVector + 4, d⟩
        ⟨interruptSaveContext, interruptSaveContext + 4, d'⟩ ∧ OnStack symbols d d' := by
  rcases placed_append.mp placed.interruptEntry with ⟨first, second⟩
  have started := runs_chooseStack (d := d) first
  by_cases isUser : d.regs .sp < 0x80000000
  · rw [if_pos isUser] at started
    have plain : ∀ instr ∈ la .k0 symbols.kernelSp ++ [.lw .sp 0 .k0], instr.isPlain = true := by
      simp [la, Instr.isPlain]
    have loaded := runs_block second plain (effects_kernelSp aligned (chosen d))
    exact ⟨_, started.trans loaded, onStack_user isUser⟩
  · rw [if_neg isUser] at started
    exact ⟨_, started, onStack_kernel isUser⟩

theorem exception_onStack (placed : StartCode symbols code) (aligned : Aligned symbols.kernelSp)
    (d : Data) :
    ∃ d', Runs code ⟨exceptionVector, exceptionVector + 4, d⟩
        ⟨exceptionSaveContext, exceptionSaveContext + 4, d'⟩ ∧ OnStack symbols d d' := by
  rcases placed_append.mp placed.exceptionEntry with ⟨first, second⟩
  have started := runs_chooseStack (d := d) first
  by_cases isUser : d.regs .sp < 0x80000000
  · rw [if_pos isUser] at started
    rcases placed_append.mp second with ⟨loads, jump⟩
    have plain : ∀ instr ∈ la .k0 symbols.kernelSp, instr.isPlain = true := by
      simp [la, Instr.isPlain]
    have addressed : effects (chosen d) (la .k0 symbols.kernelSp) = some { chosen d with
        regs := Function.update (chosen d).regs .k0 symbols.kernelSp } := effects_la (by decide)
    have loaded := effects_kernelSp aligned (chosen d)
    rw [effects_append, addressed, Option.bind_some, effects_singleton] at loaded
    exact ⟨_, (started.trans (runs_block loads plain addressed)).trans
      (runs_delayed jump rfl rfl loaded), onStack_user isUser⟩
  · rw [if_neg isUser] at started
    exact ⟨_, started, onStack_kernel isUser⟩

/-- The state in which a handler is called for what comes with `d`. -/
structure Called (symbols : Symbols) (d : Data) (back : Word) (e : Data) : Prop where
  sp : e.regs .sp = frameOf symbols d + (-32)
  ra : e.regs .ra = back
  a0 : e.regs .a0 = d.cp0 status
  a1 : e.regs .a1 = d.cp0 cause
  a2 : e.regs .a2 = frameOf symbols d
  cp0 : e.cp0 = d.cp0
  context : contextAt e.mem (frameOf symbols d) = contextOf d (d.cp0 epc)
  others : ∀ a, (∀ k < 32, a ≠ frameOf symbols d + BitVec.ofNat 32 (4 * k)) → e.mem a = d.mem a

/-- The frame is one of whole words, and so is the place of the stack pointer of the kernel. -/
structure Framed (symbols : Symbols) (d : Data) : Prop where
  kernelSp : Aligned symbols.kernelSp
  frame : Aligned (frameOf symbols d)
  room : BitVec.saddOverflow (frameOf symbols d) (-32) = false

theorem saveContext_plain : ∀ instr ∈ saveContext, instr.isPlain = true := by
  decide

/-- `interrupt_save_context` and `exception_save_context` -/
theorem save_called {save handler back : Word} {rest : List Instr} {d₁ : Data}
    (framed : Framed symbols d) (onStack : OnStack symbols d d₁)
    (placed : Placed code save (saveContext ++ (.jal handler :: .nop :: rest)))
    (isBack : behind save (saveContext ++ [.jal handler, .nop]) = back) :
    ∃ e, Runs code ⟨save, save + 4, d₁⟩ ⟨handler, handler + 4, e⟩ ∧ Called symbols d back e := by
  rcases placed_append.mp placed with ⟨first, isJal, isNop, _⟩
  have isFrame : d₁.regs .sp + (-128) = frameOf symbols d := by rw [onStack.sp, frameOf]
  rcases effects_saveContext isFrame framed.frame framed.room with ⟨d₂, saved, entered⟩
  rcases onStack.rest with ⟨hi, lo, cp0, mem⟩
  have call : Placed code (behind save saveContext) [.jal handler, .nop] :=
    ⟨isJal, isNop, trivial⟩
  have called := runs_delayed call (d := d₂) rfl rfl rfl
  refine ⟨_, (runs_block first saveContext_plain saved).trans called, ?_⟩
  have isReturn : behind save saveContext + 4 + 4 = back := isBack
  refine ⟨entered.sp, isReturn, entered.a0.trans (congrFun cp0 status),
    entered.a1.trans (congrFun cp0 cause), entered.a2, entered.cp0.trans cp0, ?_,
    fun a outside => (entered.others a outside).trans (congrFun mem a)⟩
  have same := onStack.others
  refine entered.context.trans ?_
  simp [contextOf, same, hi, lo, cp0, onStack.k1]

theorem interrupt_called (placed : StartCode symbols code) (framed : Framed symbols d) :
    ∃ e, Runs code ⟨interruptVector, interruptVector + 4, d⟩
        ⟨symbols.doInterrupts, symbols.doInterrupts + 4, e⟩ ∧
      Called symbols d interruptReturn e := by
  rcases interrupt_onStack placed framed.kernelSp d with ⟨d₁, first, onStack⟩
  rcases save_called framed onStack placed.interruptSave rfl with ⟨e, second, called⟩
  exact ⟨e, first.trans second, called⟩

theorem exception_called (placed : StartCode symbols code) (framed : Framed symbols d) :
    ∃ e, Runs code ⟨exceptionVector, exceptionVector + 4, d⟩
        ⟨symbols.doExceptions, symbols.doExceptions + 4, e⟩ ∧
      Called symbols d exceptionReturn e := by
  rcases exception_onStack placed framed.kernelSp d with ⟨d₁, first, onStack⟩
  rcases save_called framed onStack placed.exceptionSave rfl with ⟨e, second, called⟩
  exact ⟨e, first.trans second, called⟩

theorem loadContext_plain : ∀ instr ∈ loadContext, instr.isPlain = true := by
  decide

/-- The state in which a program goes on with a context, out of the exception level. -/
structure GoesOn (d : Data) (context : RegsContext) (d' : Data) : Prop where
  registers : contextOf d' context.epc = context
  status : d'.cp0 status = d.cp0 status &&& ~~~2
  mem : d'.mem = d.mem

/-- `restore_context` -/
theorem restore_goesOn (placed : StartCode symbols code) (isFrame : d.regs .sp = frame)
    (aligned : Aligned frame) :
    ∃ d', Runs code ⟨restoreContext, restoreContext + 4, d⟩
        ⟨d.mem frame, d.mem frame + 4, d'⟩ ∧ GoesOn d (contextAt d.mem frame) d' := by
  rcases effects_loadContext isFrame aligned with ⟨d₁, loaded, resumed⟩
  have returned := runs_eret placed.restore loadContext_plain loaded
  rw [resumed.epc, resumed.cp0 status (by decide)] at returned
  exact ⟨_, returned, resumed.registers, d₁.setCp0_self status _, resumed.mem⟩

/-- `switch_ex` goes on with the context whose address is its argument, and the clock starts
again. -/
theorem switchEx_goesOn (placed : Placed code symbols.switchEx switchEx)
    (aligned : Aligned (d.regs .a0)) :
    ∃ d', Runs code (.entering symbols.switchEx d) (.entering (d.mem (d.regs .a0)) d') ∧
      GoesOn d (contextAt d.mem (d.regs .a0)) d' ∧ d'.cp0 count = 0 := by
  let d₁ : Data := { d with regs := Function.update d.regs .sp (d.regs .a0) }
  have atFrame : d₁.regs .sp = d.regs .a0 := by
    show Function.update d.regs .sp (d.regs .a0) .sp = d.regs .a0
    exact Function.update_self ..
  rcases effects_loadContext atFrame aligned with ⟨d₂, loaded, resumed⟩
  have block : switchEx = ([.move .sp .a0] ++ loadContext ++ [.mtc0 .zero count]) ++ [.eret] := rfl
  rw [block] at placed
  have plain : ∀ instr ∈ [.move .sp .a0] ++ loadContext ++ [.mtc0 .zero count],
      instr.isPlain = true := by
    decide
  have counted : effects d ([.move .sp .a0] ++ loadContext ++ [.mtc0 .zero count]) =
      some (d₂.setCp0 count 0) := by
    have moved : effects d [.move .sp .a0] = some d₁ := rfl
    rw [effects_append, effects_append, moved, Option.bind_some, loaded, Option.bind_some]
    rfl
  have isEpc : (d₂.setCp0 count 0).cp0 epc = d.mem (d.regs .a0) :=
    (d₂.setCp0_of_ne (by decide : epc ≠ count) 0).trans resumed.epc
  have isStatus : (d₂.setCp0 count 0).cp0 status = d.cp0 status :=
    (d₂.setCp0_of_ne (by decide : status ≠ count) 0).trans (resumed.cp0 status (by decide))
  have returned := runs_eret placed plain counted
  rw [isEpc, isStatus] at returned
  refine ⟨_, returned, ⟨resumed.registers, Data.setCp0_self .., resumed.mem⟩, ?_⟩
  exact (Data.setCp0_of_ne _ (by decide : count ≠ status) _).trans (Data.setCp0_self ..)

/-! ## Traps -/

/-- What the code is entered for; the refill of the TLB, which has a vector of its own, is left
out. -/
inductive Trap
  | interrupt
  | exception

namespace Trap

def vector : Trap → Word
  | interrupt => interruptVector
  | exception => exceptionVector

/-- The C function that is called. -/
def handler (symbols : Symbols) : Trap → Word
  | interrupt => symbols.doInterrupts
  | exception => symbols.doExceptions

/-- Where the C function returns to. -/
def back : Trap → Word
  | interrupt => interruptReturn
  | exception => exceptionReturn

end Trap

/-- If the way down to the frame of the handler does not overflow, the way up does not. -/
theorem saddOverflow_back (room : BitVec.saddOverflow frame (-32) = false) :
    BitVec.saddOverflow (frame + (-32)) 32 = false := by
  have down : (frame + (-32)).toInt = frame.toInt + (-32 : Word).toInt :=
    BitVec.toInt_add_of_not_saddOverflow (Bool.eq_false_iff.mp room)
  have value : (-32 : Word).toInt = -32 := rfl
  have value' : (32 : Word).toInt = 32 := rfl
  have low := BitVec.le_toInt frame
  have high := BitVec.toInt_lt (x := frame)
  unfold BitVec.saddOverflow
  rw [down, value, value', Bool.or_eq_false_iff, decide_eq_false_iff_not, decide_eq_false_iff_not]
  omega

/-- The stack pointer is put back to the frame, and the registers are restored. -/
theorem back_goesOn (placed : StartCode symbols code) (trap : Trap)
    (isFrame : d.regs .sp = frame + (-32)) (aligned : Aligned frame)
    (room : BitVec.saddOverflow frame (-32) = false) :
    ∃ d', Runs code ⟨trap.back, trap.back + 4, d⟩ ⟨d.mem frame, d.mem frame + 4, d'⟩ ∧
      GoesOn d (contextAt d.mem frame) d' := by
  let d₁ : Data := { d with regs := Function.update d.regs .sp frame }
  have raised : effects d [.addi .sp .sp 32] = some d₁ := by
    have reads : d.reg .sp = frame + (-32) := isFrame
    have imm : (32 : BitVec 16).signExtend 32 = 32 := rfl
    have sum : frame + (-32) + 32 = frame := by rw [BitVec.add_assoc]; exact BitVec.add_zero frame
    rw [effects_singleton, effect, reads, imm, saddOverflow_back room, sum]
    rfl
  have atFrame : d₁.regs .sp = frame := by
    show Function.update d.regs .sp frame .sp = frame
    exact Function.update_self ..
  rcases restore_goesOn placed atFrame aligned with ⟨d', restored, goesOn⟩
  cases trap with
  | interrupt =>
      rcases placed_append.mp placed.interruptSave with ⟨_, _, _, last⟩
      have first := runs_block last (by decide) raised
      exact ⟨d', first.trans restored, goesOn.registers, goesOn.status, goesOn.mem⟩
  | exception =>
      rcases placed_append.mp placed.exceptionSave with ⟨_, _, _, isAddi, isJump, isNop, _⟩
      have addi : Placed code exceptionReturn [.addi .sp .sp 32] := ⟨isAddi, trivial⟩
      have jump : Placed code (exceptionReturn + 4) [.j restoreContext, .nop] :=
        ⟨isJump, isNop, trivial⟩
      have first := (runs_block addi (by decide) raised).trans (runs_delayed jump rfl rfl rfl)
      exact ⟨d', first.trans restored, goesOn.registers, goesOn.status, goesOn.mem⟩

end Ninix.Arch
