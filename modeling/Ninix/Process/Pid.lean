import Mathlib.Data.Nat.Notation
import Mathlib.Logic.Function.Basic
import Mathlib.Tactic.IntervalCases
import Mathlib.Tactic.SplitIfs
import Ninix.Library.Reachability

/-!
# Process identifiers

A bitmap of one bit for every `pid` below `PID_NUM`, and the `pid` the search for a free one
starts at. `pid_alloc` gives `(pid_t)-1` when there is none. `pid_free` means to clear one bit
but shifts by the whole `pid` before it masks, so that it clears the bit of a `pid` only where
the last three bits of the mask survive the shift, and no bit otherwise.
-/

namespace Ninix.Process

open TransitionSystem

abbrev pidNum : ℕ := 256
abbrev idlePid : ℕ := 0
abbrev initPid : ℕ := 1

/-- `pidmap` and `next_pid` -/
structure PidMap where
  pidmap : ℕ → BitVec 8
  nextPid : ℕ

namespace PidMap

def initPid : PidMap where
  pidmap := fun i => if i = 0 then 1 else 0
  nextPid := Process.initPid

/-- The `pid` is one that may be allocated. -/
def pidCheck (map : PidMap) (pid : ℕ) : Bool :=
  decide (pid < pidNum) && !(map.pidmap (pid / 8)).getLsbD (pid % 8)

def mark (map : PidMap) (pid nextPid : ℕ) : PidMap where
  pidmap := Function.update map.pidmap (pid / 8)
    (map.pidmap (pid / 8) ||| (1 : BitVec 8) <<< (pid % 8))
  nextPid := nextPid

/-- `pid_alloc` -/
def pidAlloc (map : PidMap) : ℕ × PidMap :=
  if map.pidCheck map.nextPid then
    (map.nextPid,
      map.mark map.nextPid (if map.nextPid < pidNum - 1 then map.nextPid + 1 else 1))
  else
    match (List.range' 1 (pidNum - 2)).find? fun pid => map.pidCheck pid with
    | some pid => (pid, map.mark pid (pid + 1))
    | none =>
        if map.pidCheck (pidNum - 1) then (pidNum - 1, map.mark (pidNum - 1) 1)
        else (2 ^ 32 - 1, map)

/-- `pid_free`, undefined where it would write beyond `pidmap`. The machine shifts by an amount
modulo 32. -/
def pidFree (map : PidMap) (pid : ℕ) : Option PidMap :=
  if map.pidCheck pid then some map
  else if pid < pidNum then
    some { map with
      pidmap := Function.update map.pidmap (pid / 8)
        (map.pidmap (pid / 8) &&& ~~~(((1 : BitVec 32) <<< (pid % 32)) &&& 7).setWidth 8) }
  else none

/-- The bit of a `pid` is set. -/
def isSet (map : PidMap) (pid : ℕ) : Bool := (map.pidmap (pid / 8)).getLsbD (pid % 8)

theorem pidCheck_iff {map : PidMap} {pid : ℕ} :
    map.pidCheck pid ↔ pid < pidNum ∧ map.isSet pid = false := by
  simp [pidCheck, isSet]

/-- Marking a `pid` sets its bit and no other. -/
theorem isSet_mark (map : PidMap) (pid nextPid other : ℕ) :
    (map.mark pid nextPid).isSet other = (decide (other = pid) || map.isSet other) := by
  have below : other % 8 < 8 := Nat.mod_lt _ (by decide)
  simp only [isSet, mark, Function.update_apply]
  split
  · rename_i sameByte
    have same : other % 8 = pid % 8 ↔ other = pid := by omega
    have bit : (1 : BitVec 8) <<< (pid % 8) = BitVec.twoPow 8 (pid % 8) :=
      (BitVec.twoPow_eq 8 (pid % 8)).symm
    rw [BitVec.getLsbD_or, bit, BitVec.getLsbD_twoPow, sameByte, Bool.or_comm]
    simp [← same, eq_comm, Nat.mod_lt]
  · rename_i otherByte
    have ne : other ≠ pid := fun eq => otherByte (by rw [eq])
    simp [ne]

/-- The mask of `pid_free` is the bit of a `pid` whose last five bits are below 3. -/
theorem isSet_pidFree {map map' : PidMap} {pid : ℕ} (clears : pid % 32 < 3)
    (isHeld : map.pidCheck pid = false) (freed : map.pidFree pid = some map') (other : ℕ) :
    map'.isSet other = (decide (other ≠ pid) && map.isSet other) := by
  have below : other % 8 < 8 := Nat.mod_lt _ (by decide)
  simp only [pidFree, isHeld, Bool.false_eq_true, if_false] at freed
  split at freed
  · cases freed
    have shift : pid % 32 = pid % 8 := by omega
    have mask : (((1 : BitVec 32) <<< (pid % 32)) &&& 7).setWidth 8 =
        BitVec.twoPow 8 (pid % 8) := by
      rw [shift] at clears ⊢
      interval_cases pid % 8 <;> rfl
    simp only [isSet, Function.update_apply]
    split
    · rename_i sameByte
      have same : other % 8 = pid % 8 ↔ other = pid := by omega
      rw [BitVec.getLsbD_and, BitVec.getLsbD_not, mask, BitVec.getLsbD_twoPow, sameByte,
        Bool.and_comm]
      simp [← same, eq_comm, below, Nat.mod_lt]
    · rename_i otherByte
      have ne : other ≠ pid := fun eq => otherByte (by rw [eq])
      simp [ne]
  · simp at freed

theorem pidFree_nextPid {map map' : PidMap} {pid : ℕ} (freed : map.pidFree pid = some map') :
    map'.nextPid = map.nextPid := by
  unfold pidFree at freed
  split_ifs at freed
  · cases freed
    rfl
  · cases freed
    rfl

/-- The `pid` that `pid_alloc` gives was free and is marked; none is given when none is free. -/
theorem pidAlloc_spec (map : PidMap) (inside : 1 ≤ map.nextPid ∧ map.nextPid < pidNum) :
    (∃ pid nextPid, map.pidAlloc = (pid, map.mark pid nextPid) ∧ 1 ≤ pid ∧ pid < pidNum ∧
      map.isSet pid = false ∧ 1 ≤ nextPid ∧ nextPid < pidNum) ∨
      map.pidAlloc = (2 ^ 32 - 1, map) ∧ ∀ pid, 1 ≤ pid → pid < pidNum → map.isSet pid := by
  unfold pidAlloc
  split
  · rename_i isFree
    left
    refine ⟨_, _, rfl, inside.1, inside.2, (pidCheck_iff.mp isFree).2, ?_, ?_⟩
    · split <;> omega
    · unfold pidNum at *
      split <;> omega
  · split
    · rename_i pid found
      have isFree := List.find?_some found
      have range := List.mem_of_find?_eq_some found
      simp only [List.mem_range'_1] at range
      left
      unfold pidNum at *
      exact ⟨_, _, rfl, by omega, by omega, (pidCheck_iff.mp isFree).2, by omega, by omega⟩
    · rename_i notFound
      split
      · rename_i isFree
        left
        exact ⟨_, _, rfl, by decide, by decide, (pidCheck_iff.mp isFree).2, by decide, by decide⟩
      · rename_i notFree
        right
        refine ⟨rfl, fun pid lower upper => ?_⟩
        have notCheck : ¬map.pidCheck pid := by
          by_cases last : pid = pidNum - 1
          · rwa [last]
          · refine List.find?_eq_none.mp notFound pid ?_
            simp only [List.mem_range'_1]
            unfold pidNum at *
            omega
        by_contra notSet
        exact notCheck (pidCheck_iff.mpr ⟨upper, by simpa using notSet⟩)

/-- The identifier of the idle task is taken, and the search starts at another one. -/
structure Started (map : PidMap) : Prop where
  idle : map.isSet idlePid = true
  inside : 1 ≤ map.nextPid ∧ map.nextPid < pidNum

/-- All identifiers are taken. -/
def AllTaken (map : PidMap) : Prop := ∀ pid, 1 ≤ pid → pid < pidNum → map.isSet pid = true

/-- One identifier is taken that was not, and no other. -/
structure Takes (map : PidMap) (pid : ℕ) (map' : PidMap) : Prop where
  lower : 1 ≤ pid
  upper : pid < pidNum
  wasFree : map.isSet pid = false
  taken : ∀ other, map'.isSet other = (decide (other = pid) || map.isSet other)

/-- An identifier is given whenever there is one, and the next call can be made. -/
theorem pidAlloc_complete (map : PidMap) (started : map.Started) :
    ((map.pidAlloc.1 = 2 ^ 32 - 1 ∧ map.pidAlloc.2.pidmap = map.pidmap) ↔ map.AllTaken) ∧
      (¬map.AllTaken → map.Takes map.pidAlloc.1 map.pidAlloc.2) ∧ map.pidAlloc.2.Started := by
  rcases map.pidAlloc_spec started.inside with
    ⟨pid, nextPid, allocated, lower, upper, wasFree, inside⟩ | ⟨allocated, allTaken⟩
  · have notTaken : ¬map.AllTaken := by
      intro allTaken
      rw [allTaken pid lower upper] at wasFree
      exact absurd wasFree (by decide)
    have taken := map.isSet_mark pid nextPid
    rw [allocated]
    refine ⟨iff_of_false (fun failed => ?_) notTaken, fun _ => ⟨lower, upper, wasFree, taken⟩,
      ?_, inside⟩
    · have isFailed : pid = 2 ^ 32 - 1 := failed.1
      unfold pidNum at upper
      omega
    · rw [taken, started.idle, Bool.or_true]
  · rw [allocated]
    exact ⟨iff_of_true ⟨rfl, rfl⟩ allTaken, fun notTaken => absurd allTaken notTaken, started⟩

/-- A map in which only the identifier 3 is free, in front of the hint. -/
def onlyThree : PidMap := ⟨fun byte => if byte = 0 then 0xf7 else 0xff, 200⟩

theorem pidAlloc_complete_onlyThree :
    onlyThree.pidAlloc.1 = 3 ∧ onlyThree.Takes onlyThree.pidAlloc.1 onlyThree.pidAlloc.2 := by
  have started : onlyThree.Started := ⟨by decide, by decide⟩
  have notTaken : ¬onlyThree.AllTaken := fun all => absurd (all 3 (by decide) (by decide)) (by decide)
  exact ⟨by decide +kernel, (pidAlloc_complete onlyThree started).2.1 notTaken⟩

end PidMap

/-! ## The set of held identifiers -/

/-- The allocator and the identifiers that are held. -/
structure PidRun where
  map : PidMap
  held : List ℕ

inductive PidOp
  | pidAlloc
  | pidFree (pid : ℕ)

namespace PidRun

def start : PidRun := ⟨.initPid, []⟩

/-- A call of the allocator, where only identifiers that are held are freed. -/
def step (run : PidRun) : PidOp → Option PidRun
  | .pidAlloc =>
      let (ret, map) := run.map.pidAlloc
      some ⟨map, if ret = 2 ^ 32 - 1 then run.held else ret :: run.held⟩
  | .pidFree pid =>
      if pid ∈ run.held then
        (run.map.pidFree pid).map fun map => ⟨map, run.held.filter (· ≠ pid)⟩
      else none

/-- The shift in `pid_free` reaches the three bits that its mask keeps. -/
def Clears (_ : PidRun) : PidOp → Prop
  | .pidAlloc => True
  | .pidFree pid => pid % 32 < 3

/-- The bitmap denotes the held identifiers and the idle task's. -/
structure Inv (run : PidRun) : Prop where
  denotes : ∀ pid < pidNum, run.map.isSet pid ↔ pid = idlePid ∨ pid ∈ run.held
  held : ∀ pid ∈ run.held, 1 ≤ pid ∧ pid < pidNum
  next : 1 ≤ run.map.nextPid ∧ run.map.nextPid < pidNum

theorem start_inv : start.Inv where
  denotes := by decide +kernel
  held pid mem := by simp [start] at mem
  next := by decide

theorem Inv.step {run next : PidRun} (inv : run.Inv) {op : PidOp} (clears : run.Clears op)
    (stepped : run.step op = some next) : next.Inv := by
  cases op with
  | pidAlloc =>
      rcases run.map.pidAlloc_spec inv.next with
        ⟨pid, nextPid, allocated, lower, upper, _, nextLower, nextUpper⟩ | ⟨allocated, _⟩
      · have notFailed : pid ≠ 2 ^ 32 - 1 := by
          unfold pidNum at upper
          omega
        simp only [PidRun.step, allocated, if_neg notFailed, Option.some.injEq] at stepped
        subst stepped
        refine ⟨fun other lt => ?_, fun other mem => ?_, nextLower, nextUpper⟩
        · rw [PidMap.isSet_mark, Bool.or_eq_true, decide_eq_true_eq, inv.denotes other lt,
            List.mem_cons]
          exact or_left_comm
        · rcases List.mem_cons.mp mem with rfl | mem
          · exact ⟨lower, upper⟩
          · exact inv.held other mem
      · simp only [PidRun.step, allocated, if_true, Option.some.injEq] at stepped
        subst stepped
        exact inv
  | pidFree pid =>
      simp only [PidRun.step] at stepped
      split at stepped
      · rename_i isHeld
        rcases Option.map_eq_some_iff.mp stepped with ⟨map, freed, rfl⟩
        have range := inv.held pid isHeld
        have isSet := (inv.denotes pid range.2).mpr (Or.inr isHeld)
        have notCheck : run.map.pidCheck pid = false := by
          rw [Bool.eq_false_iff, Ne, PidMap.pidCheck_iff]
          simp [isSet]
        have next : map.nextPid = run.map.nextPid := PidMap.pidFree_nextPid freed
        refine ⟨fun other lt => ?_, fun other mem => ?_, next ▸ inv.next⟩
        · rw [PidMap.isSet_pidFree clears notCheck freed, Bool.and_eq_true, decide_eq_true_eq,
            inv.denotes other lt, List.mem_filter, decide_eq_true_eq]
          have notIdle : idlePid ≠ pid := by
            unfold idlePid
            omega
          constructor
          · rintro ⟨ne, rfl | mem⟩
            · exact Or.inl rfl
            · exact Or.inr ⟨mem, ne⟩
          · rintro (rfl | ⟨mem, ne⟩)
            · exact ⟨notIdle, Or.inl rfl⟩
            · exact ⟨ne, Or.inr mem⟩
        · exact inv.held other (List.mem_filter.mp mem).1
      · simp at stepped

/--
In a run that frees only held identifiers whose last five bits are below 3, the set bits are the
idle task's and those of the held identifiers. So no held one is allocated, one that is not held
can be allocated, and an allocation fails only when all are held.
-/
theorem refines_of_reach {run : PidRun}
    (reached : GuardedReach PidRun.step Clears (· = start) run) :
    (∀ pid < pidNum, run.map.isSet pid ↔ pid = idlePid ∨ pid ∈ run.held) ∧
      (∀ pid, 1 ≤ pid → pid < pidNum → (run.map.pidCheck pid ↔ pid ∉ run.held)) ∧
      ((1 ≤ run.map.pidAlloc.1 ∧ run.map.pidAlloc.1 < pidNum ∧ run.map.pidAlloc.1 ∉ run.held) ∨
        run.map.pidAlloc.1 = 2 ^ 32 - 1 ∧
          ∀ pid, 1 ≤ pid → pid < pidNum → pid ∈ run.held) := by
  have inv : run.Inv := by
    refine reached.invariant (fun state isStart => ?_)
      fun _ _ _ inv clears stepped => inv.step clears stepped
    rw [isStart]
    exact start_inv
  have isHeld : ∀ pid, 1 ≤ pid → pid < pidNum → (run.map.isSet pid ↔ pid ∈ run.held) := by
    intro pid lower upper
    rw [inv.denotes pid upper]
    exact or_iff_right (by unfold idlePid; omega)
  refine ⟨inv.denotes, fun pid lower upper => ?_, ?_⟩
  · rw [PidMap.pidCheck_iff, ← isHeld pid lower upper]
    simp [upper]
  · rcases run.map.pidAlloc_spec inv.next with
      ⟨pid, _, allocated, lower, upper, isFree, _⟩ | ⟨allocated, allSet⟩
    · rw [allocated]
      refine Or.inl ⟨lower, upper, fun mem => ?_⟩
      rw [← isHeld pid lower upper, isFree] at mem
      simp at mem
    · rw [allocated]
      exact Or.inr
        ⟨rfl, fun pid lower upper => (isHeld pid lower upper).mp (allSet pid lower upper)⟩

/-- The identifier 1 is allocated and freed. -/
theorem refines_of_reach_freed : ∃ run : PidRun, run.held = [] ∧ run.map.pidCheck 1 := by
  have allocated : start.step .pidAlloc = some ⟨start.map.pidAlloc.2, [1]⟩ := rfl
  have freed : (PidRun.mk start.map.pidAlloc.2 [1]).step (.pidFree 1) =
      ((start.map.pidAlloc.2).pidFree 1).map fun map => ⟨map, []⟩ := rfl
  rcases Option.isSome_iff_exists.mp (show ((start.map.pidAlloc.2).pidFree 1).isSome by decide)
    with ⟨map, isMap⟩
  rw [isMap] at freed
  have reached : GuardedReach PidRun.step Clears (· = start) ⟨start.map.pidAlloc.2, [1]⟩ :=
    .step (.start rfl) (show start.Clears .pidAlloc from trivial) allocated
  have clears : (PidRun.mk start.map.pidAlloc.2 [1]).Clears (.pidFree 1) := by
    unfold Clears
    decide
  have refines := refines_of_reach (.step reached clears freed)
  exact ⟨⟨map, []⟩, rfl, (refines.2.1 1 (by decide) (by decide)).mpr (by simp)⟩

/-- The identifier 3 keeps its bit when it is freed. -/
theorem not_refines_of_reach : ¬∀ run : PidRun, Reach PidRun.step (· = start) run →
    ∀ pid < pidNum, run.map.isSet pid ↔ pid = idlePid ∨ pid ∈ run.held := by
  intro all
  have runs : (TransitionSystem.run PidRun.step start
      [.pidAlloc, .pidAlloc, .pidAlloc, .pidFree 3]).map
        (fun run => (run.map.isSet 3, run.held)) = some (true, [2, 1]) := by decide
  rcases Option.map_eq_some_iff.mp runs with ⟨run, ran, eq⟩
  simp only [Prod.mk.injEq] at eq
  have initially : Reach PidRun.step (· = start) start := .start rfl
  have reached := reach_of_run initially ran
  have isHeld := (all run reached 3 (by decide)).mp eq.1
  rw [eq.2] at isHeld
  exact absurd isHeld (by decide)

end PidRun

end Ninix.Process
