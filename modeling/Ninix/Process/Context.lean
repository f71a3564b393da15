import Ninix.Process.RunQueues

/-!
# Register contexts

The interrupt that calls `schedule` has saved the registers of the running task in a frame, and
restores the registers from it when it returns. To switch tasks `schedule` copies the frame to
the context of the task that has run and the context of the next task to the frame. A task whose
turn it is again finds the registers as it left them.
-/

namespace Ninix.Process

/-- `struct regs_context` -/
structure RegsContext where
  epc : BitVec 32
  «at» : BitVec 32
  v0 : BitVec 32
  v1 : BitVec 32
  a0 : BitVec 32
  a1 : BitVec 32
  a2 : BitVec 32
  a3 : BitVec 32
  t0 : BitVec 32
  t1 : BitVec 32
  t2 : BitVec 32
  t3 : BitVec 32
  t4 : BitVec 32
  t5 : BitVec 32
  t6 : BitVec 32
  t7 : BitVec 32
  s0 : BitVec 32
  s1 : BitVec 32
  s2 : BitVec 32
  s3 : BitVec 32
  s4 : BitVec 32
  s5 : BitVec 32
  s6 : BitVec 32
  s7 : BitVec 32
  t8 : BitVec 32
  t9 : BitVec 32
  hi : BitVec 32
  lo : BitVec 32
  gp : BitVec 32
  sp : BitVec 32
  fp : BitVec 32
  ra : BitVec 32
  deriving DecidableEq

namespace RegsContext

/-- `copy_context` -/
def copyContext (src dest : RegsContext) : RegsContext :=
  { dest with
    epc := src.epc
    «at» := src.«at»
    v0 := src.v0
    v1 := src.v1
    a0 := src.a0
    a1 := src.a1
    a2 := src.a2
    a3 := src.a3
    t0 := src.t0
    t1 := src.t1
    t2 := src.t2
    t3 := src.t3
    t4 := src.t4
    t5 := src.t5
    t6 := src.t6
    t7 := src.t7
    s0 := src.s0
    s1 := src.s1
    s2 := src.s2
    s3 := src.s3
    s4 := src.s4
    s5 := src.s5
    s6 := src.s6
    s7 := src.s7
    t8 := src.t8
    t9 := src.t9
    hi := src.hi
    lo := src.lo
    gp := src.gp
    sp := src.sp
    fp := src.fp
    ra := src.ra }

/-- The context `kernel_memset` leaves. -/
def zero : RegsContext :=
  ⟨0, 0, 0, 0, 0, 0, 0, 0, 0, 0, 0, 0, 0, 0, 0, 0, 0, 0, 0, 0, 0, 0, 0, 0, 0, 0, 0, 0, 0, 0, 0, 0⟩

/-- The context `do_fork` builds for a task whose union is at an address. -/
def forkContext (newUnion entry initGp argc args : BitVec 32) : RegsContext :=
  { zero with
    epc := entry
    sp := newUnion + BitVec.ofNat 32 kernelStackSize
    gp := initGp
    a0 := argc
    a1 := args }

/-- No register is left out of the copy. -/
theorem copyContext_eq (src dest : RegsContext) : copyContext src dest = src := rfl

end RegsContext

/-! ## Switching tasks -/

/-- The contexts of the tasks that have been made, and the frame of the interrupt. -/
structure Contexts where
  contexts : ℕ → RegsContext
  unused : ℕ
  currentTask : ℕ
  frame : RegsContext

/-- A call of `schedule` with the task it chooses, a stretch of the running task up to the next
interrupt, or a `do_fork` with the values it puts into the context of the task it makes. -/
inductive ContextOp
  | schedule (next : ℕ)
  | runTask (frame : RegsContext)
  | doFork (newUnion entry initGp argc args : BitVec 32)

namespace Contexts

/-- The part of `schedule` that switches to the task that is chosen. -/
def schedule (s : Contexts) (next : ℕ) : Contexts :=
  if s.currentTask ≠ next then
    let s := { s with
      contexts := Function.update s.contexts s.currentTask
        (s.frame.copyContext (s.contexts s.currentTask)) }
    let s := { s with currentTask := next }
    { s with frame := (s.contexts s.currentTask).copyContext s.frame }
  else s

/-- Only tasks that have been made are chosen. -/
def step (s : Contexts) : ContextOp → Option Contexts
  | .schedule next => if next < s.unused then some (s.schedule next) else none
  | .runTask frame => some { s with frame }
  | .doFork newUnion entry initGp argc args =>
      some
        { s with
          contexts := Function.update s.contexts s.unused
            (RegsContext.forkContext newUnion entry initGp argc args)
          unused := s.unused + 1 }

variable {s s' : Contexts} {next q : ℕ}

/-- What a switch to another task does. -/
theorem schedule_switch (ne : s.currentTask ≠ next) :
    (s.schedule next).frame = s.contexts next ∧
      (s.schedule next).contexts = Function.update s.contexts s.currentTask s.frame ∧
      (s.schedule next).currentTask = next ∧ (s.schedule next).unused = s.unused := by
  unfold schedule
  simp only [if_pos ne, RegsContext.copyContext_eq]
  exact ⟨Function.update_of_ne ne.symm _ _, trivial, trivial, trivial⟩

theorem schedule_self : s.schedule s.currentTask = s := by
  unfold schedule
  rw [if_neg (not_not.mpr rfl)]

/-- `schedule` writes the context of the current task only. -/
theorem schedule_others (next : ℕ) (ne : q ≠ s.currentTask) :
    (s.schedule next).contexts q = s.contexts q := by
  by_cases isCurrent : s.currentTask = next
  · rw [← isCurrent, schedule_self]
  · rw [(schedule_switch isCurrent).2.1, Function.update_of_ne ne]

/-! ## Runs -/

/-- The states and calls of a run, up to the `n`-th. -/
def IsRun (states : ℕ → Contexts) (ops : ℕ → ContextOp) (n : ℕ) : Prop :=
  ∀ k < n, (states k).step (ops k) = some (states (k + 1))

/-- In a step the task stops being the current one. -/
def SwitchedOut (states : ℕ → Contexts) (k q : ℕ) : Prop :=
  (states k).currentTask = q ∧ (states (k + 1)).currentTask ≠ q

/-- In a step the task becomes the current one. -/
def SwitchedIn (states : ℕ → Contexts) (k q : ℕ) : Prop :=
  (states k).currentTask ≠ q ∧ (states (k + 1)).currentTask = q

/-- The last step before the `n`-th in which the task is switched out. -/
def LastOut (states : ℕ → Contexts) (n k q : ℕ) : Prop :=
  k < n ∧ SwitchedOut states k q ∧ ∀ j, k < j → j < n → ¬SwitchedOut states j q

/-- The context that `do_fork` built for a task before the `n`-th step. -/
def Built (states : ℕ → Contexts) (ops : ℕ → ContextOp) (n q : ℕ) (context : RegsContext) : Prop :=
  ∃ f < n, ∃ newUnion entry initGp argc args,
    ops f = .doFork newUnion entry initGp argc args ∧ (states f).unused = q ∧
      context = RegsContext.forkContext newUnion entry initGp argc args

/-- What the contexts of the waiting tasks are after `n` steps. -/
structure Saved (states : ℕ → Contexts) (ops : ℕ → ContextOp) (n : ℕ) : Prop where
  currentUsed : (states n).currentTask < (states n).unused
  outUsed : ∀ k < n, ∀ q, SwitchedOut states k q → q < (states n).unused
  saved : ∀ q < (states n).unused, q ≠ (states n).currentTask → ∀ k, LastOut states n k q →
    (states n).contexts q = (states k).frame
  built : ∀ q < (states n).unused, q ≠ (states n).currentTask →
    (∀ k < n, ¬SwitchedOut states k q) → Built states ops n q ((states n).contexts q)

section Runs

variable {states : ℕ → Contexts} {ops : ℕ → ContextOp} {n k : ℕ} {context : RegsContext}

theorem Built.succ (isBuilt : Built states ops n q context) : Built states ops (n + 1) q context := by
  rcases isBuilt with ⟨f, lt, rest⟩
  exact ⟨f, Nat.lt_succ_of_lt lt, rest⟩

/-- A task that is not switched out in a step was last switched out before it. -/
theorem LastOut.pred (last : LastOut states (n + 1) k q) (notNow : ¬SwitchedOut states n q) :
    LastOut states n k q := by
  rcases last with ⟨lt, isOut, none⟩
  have ne : k ≠ n := by
    rintro rfl
    exact notNow isOut
  exact ⟨by omega, isOut, fun j after before => none j after (Nat.lt_succ_of_lt before)⟩

theorem LastOut.eq_of_now (last : LastOut states (n + 1) k q) (isNow : SwitchedOut states n q) :
    k = n := by
  rcases last with ⟨lt, _, none⟩
  by_contra ne
  exact none n (by omega) (Nat.lt_succ_self n) isNow

/-- A step that neither switches nor makes a task. -/
theorem Saved.stay (saved : Saved states ops n)
    (contexts : (states (n + 1)).contexts = (states n).contexts)
    (currentTask : (states (n + 1)).currentTask = (states n).currentTask)
    (unused : (states (n + 1)).unused = (states n).unused) : Saved states ops (n + 1) := by
  have notNow : ∀ q, ¬SwitchedOut states n q := by
    rintro q ⟨isCurrent, other⟩
    rw [currentTask] at other
    exact other isCurrent
  constructor
  · rw [currentTask, unused]
    exact saved.currentUsed
  · intro k lt q isOut
    have ne : k ≠ n := by
      rintro rfl
      exact notNow q isOut
    rw [unused]
    exact saved.outUsed k (by omega) q isOut
  · intro q used ne k last
    rw [unused] at used
    rw [currentTask] at ne
    rw [contexts]
    exact saved.saved q used ne k (last.pred (notNow q))
  · intro q used ne none
    rw [unused] at used
    rw [currentTask] at ne
    rw [contexts]
    exact (saved.built q used ne fun k lt => none k (Nat.lt_succ_of_lt lt)).succ

theorem Saved.doFork (saved : Saved states ops n)
    {newUnion entry initGp argc args : BitVec 32}
    (isFork : ops n = .doFork newUnion entry initGp argc args)
    (stepped : (states n).step (ops n) = some (states (n + 1))) : Saved states ops (n + 1) := by
  rw [isFork] at stepped
  have next := Option.some.inj stepped
  have contexts : (states (n + 1)).contexts = Function.update (states n).contexts
      (states n).unused (RegsContext.forkContext newUnion entry initGp argc args) := by
    rw [← next]
  have currentTask : (states (n + 1)).currentTask = (states n).currentTask := by rw [← next]
  have unused : (states (n + 1)).unused = (states n).unused + 1 := by rw [← next]
  have notNow : ∀ q, ¬SwitchedOut states n q := by
    rintro q ⟨isCurrent, other⟩
    rw [currentTask] at other
    exact other isCurrent
  have outUsed : ∀ k < n + 1, ∀ q, SwitchedOut states k q → q < (states n).unused := by
    intro k lt q isOut
    have ne : k ≠ n := by
      rintro rfl
      exact notNow q isOut
    exact saved.outUsed k (by omega) q isOut
  constructor
  · rw [currentTask, unused]
    exact Nat.lt_succ_of_lt saved.currentUsed
  · intro k lt q isOut
    rw [unused]
    exact Nat.lt_succ_of_lt (outUsed k lt q isOut)
  · intro q _ ne k last
    have old := outUsed k last.1 q last.2.1
    rw [currentTask] at ne
    rw [contexts, Function.update_of_ne (Nat.ne_of_lt old)]
    exact saved.saved q old ne k (last.pred (notNow q))
  · intro q used ne none
    rw [unused] at used
    rw [currentTask] at ne
    rw [contexts]
    by_cases isNew : q = (states n).unused
    · rw [isNew, Function.update_self]
      exact ⟨n, Nat.lt_succ_self n, newUnion, entry, initGp, argc, args, isFork, rfl, rfl⟩
    · have old : q < (states n).unused := by omega
      rw [Function.update_of_ne isNew]
      exact (saved.built q old ne fun k lt => none k (Nat.lt_succ_of_lt lt)).succ

theorem Saved.schedule (saved : Saved states ops n) {next : ℕ} (used : next < (states n).unused)
    (scheduled : states (n + 1) = (states n).schedule next) : Saved states ops (n + 1) := by
  by_cases isSame : (states n).currentTask = next
  · rw [← isSame, schedule_self] at scheduled
    apply saved.stay
    · rw [scheduled]
    · rw [scheduled]
    · rw [scheduled]
  · rcases schedule_switch isSame with ⟨_, contexts, currentTask, unused⟩
    rw [← scheduled] at contexts currentTask unused
    have isOut : SwitchedOut states n (states n).currentTask := by
      refine ⟨rfl, ?_⟩
      rw [currentTask]
      exact fun eq => isSame eq.symm
    have notNow : ∀ q, q ≠ (states n).currentTask → ¬SwitchedOut states n q :=
      fun q ne now => ne now.1.symm
    constructor
    · rw [currentTask, unused]
      exact used
    · intro k lt q wasOut
      rw [unused]
      by_cases isNow : k = n
      · rw [isNow] at wasOut
        rw [← wasOut.1]
        exact saved.currentUsed
      · exact saved.outUsed k (by omega) q wasOut
    · intro q used' ne k last
      rw [unused] at used'
      rw [contexts]
      by_cases wasCurrent : q = (states n).currentTask
      · rw [wasCurrent] at last ⊢
        rw [Function.update_self, last.eq_of_now isOut]
      · rw [Function.update_of_ne wasCurrent]
        exact saved.saved q used' wasCurrent k (last.pred (notNow q wasCurrent))
    · intro q used' ne none
      rw [unused] at used'
      rw [contexts]
      by_cases wasCurrent : q = (states n).currentTask
      · rw [wasCurrent] at none
        exact absurd isOut (none n (Nat.lt_succ_self n))
      · rw [Function.update_of_ne wasCurrent]
        exact (saved.built q used' wasCurrent fun k lt => none k (Nat.lt_succ_of_lt lt)).succ

/-- From the state that `init_pc` leaves, where the idle task runs and no other has been made. -/
theorem saved_of_run (start : (states 0).currentTask = 0 ∧ (states 0).unused = 1)
    (ran : IsRun states ops n) : Saved states ops n := by
  induction n with
  | zero =>
      rcases start with ⟨isIdle, isOne⟩
      refine ⟨by omega, fun k lt => absurd lt (Nat.not_lt_zero k), ?_, ?_⟩
      · intro q used ne
        omega
      · intro q used ne
        omega
  | succ n ih =>
      have saved := ih fun k lt => ran k (Nat.lt_succ_of_lt lt)
      have stepped := ran n (Nat.lt_succ_self n)
      cases isOp : ops n with
      | schedule next =>
          rw [isOp, step] at stepped
          split at stepped
          next used => exact saved.schedule used (Option.some.inj stepped).symm
          next => cases stepped
      | runTask frame =>
          rw [isOp, step] at stepped
          have next := Option.some.inj stepped
          apply saved.stay
          · rw [← next]
          · rw [← next]
          · rw [← next]
      | doFork newUnion entry initGp argc args => exact saved.doFork isOp stepped

/-- A task becomes current only through a call of `schedule` that chooses it. -/
theorem SwitchedIn.schedule (isIn : SwitchedIn states n q)
    (stepped : (states n).step (ops n) = some (states (n + 1))) :
    states (n + 1) = (states n).schedule q ∧ q < (states n).unused := by
  rcases isIn with ⟨ne, isNext⟩
  cases isOp : ops n with
  | schedule next =>
      rw [isOp, step] at stepped
      split at stepped
      next used =>
        have scheduled := (Option.some.inj stepped).symm
        have isTask : next = q := by
          by_cases isSame : (states n).currentTask = next
          · rw [← isSame, schedule_self] at scheduled
            rw [scheduled] at isNext
            exact absurd isNext ne
          · rw [scheduled, (schedule_switch isSame).2.2.1] at isNext
            exact isNext
        rw [isTask] at scheduled used
        exact ⟨scheduled, used⟩
      next => cases stepped
  | runTask frame =>
      rw [isOp, step] at stepped
      rw [← Option.some.inj stepped] at isNext
      exact absurd isNext ne
  | doFork newUnion entry initGp argc args =>
      rw [isOp, step] at stepped
      rw [← Option.some.inj stepped] at isNext
      exact absurd isNext ne

end Runs

/--
In every run from the state that `init_pc` leaves, a task that becomes current finds in the frame
the registers of the frame it was last switched out with, or those `do_fork` built for it if it
never was. A call of `schedule` changes no context but that of the task that has run, and nothing
if it chooses that one.
-/
theorem frame_of_run (states : ℕ → Contexts) (ops : ℕ → ContextOp) (n : ℕ)
    (start : (states 0).currentTask = 0 ∧ (states 0).unused = 1)
    (ran : IsRun states ops (n + 1)) :
    (∀ q, SwitchedIn states n q →
      (∀ k, LastOut states n k q → (states (n + 1)).frame = (states k).frame) ∧
        ((∀ k < n, ¬SwitchedOut states k q) →
          Built states ops n q (states (n + 1)).frame)) ∧
      ∀ next, ops n = .schedule next →
        (∀ q, q ≠ (states n).currentTask →
          (states (n + 1)).contexts q = (states n).contexts q) ∧
        (next = (states n).currentTask → states (n + 1) = states n) := by
  have stepped := ran n (Nat.lt_succ_self n)
  have saved := saved_of_run start fun k lt => ran k (Nat.lt_succ_of_lt lt)
  refine ⟨fun q isIn => ?_, fun next isOp => ?_⟩
  · rcases isIn.schedule stepped with ⟨scheduled, used⟩
    have ne : q ≠ (states n).currentTask := fun eq => isIn.1 eq.symm
    rw [scheduled, (schedule_switch isIn.1).1]
    exact ⟨fun k last => saved.saved q used ne k last,
      fun none => saved.built q used ne none⟩
  · rw [isOp, step] at stepped
    split at stepped
    next =>
      have scheduled := (Option.some.inj stepped).symm
      rw [scheduled]
      refine ⟨fun q ne => schedule_others next ne, fun isCurrent => ?_⟩
      rw [isCurrent, schedule_self]
    next => cases stepped

/-- A task is made, chosen, and changes its registers; the idle task is chosen in its place and has
other ones, and then it is the turn of the first again. -/
def switchedOps : ℕ → ContextOp
  | 0 => .doFork 0x80100000 0x80001000 0 0 0
  | 1 => .schedule 1
  | 2 => .runTask { RegsContext.zero with epc := 0x80001004, v0 := 7 }
  | 3 => .schedule 0
  | 4 => .runTask { RegsContext.zero with epc := 0x80002000, v0 := 9 }
  | _ => .schedule 1

def switchedRun : ℕ → Contexts
  | 0 => ⟨fun _ => .zero, 1, 0, .zero⟩
  | n + 1 => ((switchedRun n).step (switchedOps n)).getD (switchedRun n)

/-- The task starts with the registers that it was made with, and goes on with those it has
changed. -/
theorem frame_of_run_switched :
    Built switchedRun switchedOps 1 1 (switchedRun 2).frame ∧
      (switchedRun 5).frame.v0 = 9 ∧
      (switchedRun 6).frame = { RegsContext.zero with epc := 0x80001004, v0 := 7 } := by
  have ran : IsRun switchedRun switchedOps 6 := by
    intro k lt
    match k with
    | 0 | 1 | 2 | 3 | 4 | 5 => rfl
  have isIn : SwitchedIn switchedRun 1 1 := ⟨by decide, rfl⟩
  have none : ∀ k < 1, ¬SwitchedOut switchedRun k 1 := by
    intro k lt isOut
    have isZero : k = 0 := by omega
    rw [isZero] at isOut
    exact absurd isOut.1 (by decide)
  have again : SwitchedIn switchedRun 5 1 := ⟨by decide, rfl⟩
  have isLast : LastOut switchedRun 5 3 1 := by
    refine ⟨by decide, ⟨rfl, by decide⟩, fun j after before isOut => ?_⟩
    have isFour : j = 4 := by omega
    rw [isFour] at isOut
    exact absurd isOut.1 (by decide)
  have first := (frame_of_run switchedRun switchedOps 1 ⟨rfl, rfl⟩
    fun k lt => ran k (by omega)).1 1 isIn
  have second := (frame_of_run switchedRun switchedOps 5 ⟨rfl, rfl⟩ ran).1 1 again
  exact ⟨first.2 none, rfl, second.1 3 isLast⟩

/-- The scheduler chooses a task that has been made, so its calls are steps of the contexts. -/
theorem step_of_schedule {sched sched' : Sched} (lists : sched.Lists) {now : ℕ}
    (scheduled : sched.schedule now = some sched') (unused : s.unused = sched.unused) :
    s.step (.schedule sched'.currentTask) = some (s.schedule sched'.currentTask) ∧
      (s.schedule sched'.currentTask).currentTask = sched'.currentTask := by
  rcases lists.schedule scheduled with ⟨lists', isProcess⟩
  rcases Sched.schedule_quiet scheduled with ⟨quiet, _⟩
  have used := lists'.sane.processUsed _ isProcess
  rw [quiet.unused, (Sched.exchange_spec sched).2.2.1, ← unused] at used
  refine ⟨?_, ?_⟩
  · unfold step
    exact if_pos used
  · by_cases isSame : s.currentTask = sched'.currentTask
    · rw [← isSame, schedule_self]
    · exact (schedule_switch isSame).2.2.1

end Contexts

end Ninix.Process
