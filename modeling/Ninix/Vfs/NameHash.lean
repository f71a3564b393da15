import Mathlib.Algebra.BigOperators.Group.Finset.Basic
import Mathlib.Data.Nat.ModEq
import Mathlib.Tactic.Ring
import Ninix.Vfs.DentryCache

/-!
# Hashes of names that are the same

The cache of dentries compares names without regard to the case of letters, and hashes them with
regard to it. A small letter adds 32 to what the capital one adds, doubled for every byte behind
it, so the names that are the same fall into one list exactly if the size of the table divides
that difference. It does for all of them only if the size divides 32.
-/

namespace Ninix.Vfs

open TransitionSystem

/-- The characters of a name are bytes. -/
def Qstr.IsBytes (s : Qstr) : Prop := ∀ i < s.len, s.name i < 256

instance (s : Qstr) : Decidable s.IsBytes := inferInstanceAs (Decidable (∀ i < s.len, _))

/-- The value of the first `n` characters where each counts twice the one behind it. -/
def weigh (value : ℕ → ℕ) : ℕ → ℕ
  | 0 => 0
  | n + 1 => weigh value n * 2 + value n

/-- One for a small letter. -/
def small (c : ℕ) : ℕ := if 97 ≤ c ∧ c ≤ 122 then 1 else 0

/-- The small letters among the characters that are hashed, as the bits of a number. -/
def Qstr.smallBits (s : Qstr) : ℕ := weigh (fun i => small (s.name i)) (min s.len 24)

/-- The hash table with the names and the parents of its dentries. -/
structure DentryTable where
  tablesize : ℕ
  dName : ℕ → Qstr
  dParent : ℕ → ℕ
  hashtable : ℕ → List ℕ

namespace DentryTable

variable (t : DentryTable)

/-- `dcache_look_up` -/
def lookUp (name : Qstr) (parent : ℕ) : Option ℕ :=
  (t.hashtable (stringHash name t.tablesize)).find? fun d =>
    genericCheckFilename (t.dName d) name && t.dParent d = parent

/-- `dcache_add`, for a dentry of a name and a parent -/
def add (d : ℕ) (name : Qstr) (parent : ℕ) : DentryTable :=
  let hash := stringHash name t.tablesize
  { t with
    dName := Function.update t.dName d name
    dParent := Function.update t.dParent d parent
    hashtable := Function.update t.hashtable hash (d :: t.hashtable hash) }

/-- `dcache_del`, which unlinks the dentry -/
def del (d : ℕ) : DentryTable :=
  { t with hashtable := fun hash => (t.hashtable hash).filter (· ≠ d) }

end DentryTable

/-- Calls that change the table. -/
inductive TableOp
  | add (d : ℕ) (name : Qstr) (parent : ℕ)
  | del (d : ℕ)

/-- The table, and the dentries that have been added and not deleted. -/
structure TableRun where
  table : DentryTable
  live : List ℕ

namespace TableRun

/-- A dentry is added while it is not in the table and deleted while it is. -/
def step (r : TableRun) : TableOp → Option TableRun
  | .add d name parent =>
      if d ∉ r.live ∧ name.IsBytes then some ⟨r.table.add d name parent, d :: r.live⟩ else none
  | .del d => if d ∈ r.live then some ⟨r.table.del d, r.live.filter (· ≠ d)⟩ else none

/-- The lists of a table of a size are empty. -/
def Empty (size : ℕ) (r : TableRun) : Prop :=
  r.table.tablesize = size ∧ (∀ hash, r.table.hashtable hash = []) ∧ r.live = []

/-- A dentry in the table has a name that is the same, and the parent. -/
def Matches (r : TableRun) (name : Qstr) (parent d : ℕ) : Prop :=
  d ∈ r.live ∧ genericCheckFilename (r.table.dName d) name ∧ r.table.dParent d = parent

/-- What was added is found until it is deleted. -/
def Finds (r : TableRun) (name : Qstr) (parent : ℕ) : Prop :=
  (∃ d, r.Matches name parent d) → ∃ d, r.table.lookUp name parent = some d

/-- Each dentry in the table is in the list of its name. -/
structure Placed (size : ℕ) (r : TableRun) : Prop where
  tablesize : r.table.tablesize = size
  bytes : ∀ d ∈ r.live, (r.table.dName d).IsBytes
  mem_iff : ∀ hash d, d ∈ r.table.hashtable hash ↔
    d ∈ r.live ∧ stringHash (r.table.dName d) size = hash

end TableRun

/-! ## The hash as a number -/

theorem weigh_le {value : ℕ → ℕ} {bound n : ℕ} (le : ∀ i < n, value i ≤ bound) :
    weigh value n + bound ≤ bound * 2 ^ n := by
  induction n with
  | zero => simp [weigh]
  | succ n ih =>
      have before := ih fun i lt => le i (Nat.lt_succ_of_lt lt)
      have last := le n (Nat.lt_succ_self n)
      rw [weigh, Nat.pow_succ, ← Nat.mul_assoc]
      omega

/-- Values that differ by multiples weigh so. -/
theorem weigh_add_mul (left right : ℕ → ℕ) (factor n : ℕ) :
    weigh (fun i => left i + factor * right i) n = weigh left n + factor * weigh right n := by
  induction n with
  | zero => simp [weigh]
  | succ n ih =>
      rw [weigh, weigh, weigh, ih]
      ring

theorem weigh_congr {left right : ℕ → ℕ} {n : ℕ} (same : ∀ i < n, left i = right i) :
    weigh left n = weigh right n := by
  induction n with
  | zero => rfl
  | succ n ih =>
      rw [weigh, weigh, ih fun i lt => same i (Nat.lt_succ_of_lt lt), same n (Nat.lt_succ_self n)]

/-- The sum of the loop of `__stringHash` does not wrap. -/
theorem stringHash_eq {s : Qstr} (bytes : s.IsBytes) (size : ℕ) :
    stringHash s size = weigh s.name (min s.len 24) % size := by
  have sums : ∀ n ≤ min s.len 24,
      (List.range n).foldl (fun sum i => (sum * 2 + s.name i) % 2 ^ 32) 0 = weigh s.name n := by
    intro n le
    induction n with
    | zero => rfl
    | succ n ih =>
        have isByte : ∀ i < n + 1, s.name i ≤ 255 := fun i lt =>
          Nat.le_of_lt_succ (bytes i (by omega))
        have bound := weigh_le isByte
        have power : 2 ^ (n + 1) ≤ 2 ^ 24 := Nat.pow_le_pow_right (by decide) (by omega)
        rw [List.range_succ, List.foldl_append, ih (by omega)]
        apply Nat.mod_eq_of_lt
        show weigh s.name (n + 1) < 2 ^ 32
        omega
  rw [stringHash, sums _ le_rfl]

theorem eq_upper_add (c : ℕ) : c = upper c + 32 * small c := by
  unfold upper small
  split <;> omega

/-- Names that are the same have the same hash exactly if the size of the table divides the
difference their small letters make. -/
theorem stringHash_eq_iff {first second : Qstr} (bytes : first.IsBytes) (bytes' : second.IsBytes)
    (same : genericCheckFilename first second) (size : ℕ) :
    stringHash first size = stringHash second size ↔
      32 * first.smallBits ≡ 32 * second.smallBits [MOD size] := by
  rcases genericCheckFilename_iff.mp same with ⟨sameLen, sameUpper⟩
  have split : ∀ s : Qstr, weigh s.name (min s.len 24) =
      weigh (fun i => upper (s.name i)) (min s.len 24) + 32 * s.smallBits := by
    intro s
    rw [Qstr.smallBits, ← weigh_add_mul]
    exact weigh_congr fun i _ => eq_upper_add (s.name i)
  have capitals : weigh (fun i => upper (first.name i)) (min first.len 24) =
      weigh (fun i => upper (second.name i)) (min second.len 24) := by
    rw [← sameLen]
    exact weigh_congr fun i lt => sameUpper i (by omega)
  rw [stringHash_eq bytes, stringHash_eq bytes', split, split, capitals]
  exact ⟨Nat.ModEq.add_left_cancel' _, Nat.ModEq.add_left _⟩

/-- The names `a` and `A`. -/
theorem hashes_a_iff {size : ℕ} :
    stringHash (.ofList [97]) size = stringHash (.ofList [65]) size ↔ size ∣ 32 := by
  rw [stringHash_eq_iff (by decide) (by decide) (by decide)]
  show 32 ≡ 0 [MOD size] ↔ _
  exact Nat.modEq_zero_iff_dvd

/-! ## Runs of the table -/

/-- The cache of dentries looks up as a table of its size does. -/
theorem DCache.lookUp_eq {Inode : Type} (s : DCache Inode) (name : Qstr) (parent : ℕ) :
    s.lookUp name parent = DentryTable.lookUp
      ⟨cacheHashsize, fun d => (s.dentries d).dName, fun d => (s.dentries d).dParent, s.buckets⟩
      name parent := rfl

namespace TableRun

variable {size : ℕ} {r next : TableRun}

theorem Placed.of_empty (empty : r.Empty size) : r.Placed size := by
  rcases empty with ⟨tablesize, lists, live⟩
  refine ⟨tablesize, by simp [live], fun hash d => ?_⟩
  rw [lists, live]
  simp

theorem Placed.add (placed : r.Placed size) {d parent : ℕ} {name : Qstr} (fresh : d ∉ r.live)
    (bytes : name.IsBytes) : Placed size ⟨r.table.add d name parent, d :: r.live⟩ := by
  have other : ∀ e ∈ r.live, e ≠ d := fun e mem same => fresh (same ▸ mem)
  constructor
  · exact placed.tablesize
  · intro e mem
    rcases List.mem_cons.mp mem with rfl | old
    · simpa [DentryTable.add] using bytes
    · simpa [DentryTable.add, other e old] using placed.bytes e old
  · intro hash e
    simp only [DentryTable.add, placed.tablesize, Function.update_apply, List.mem_cons]
    by_cases isNew : e = d
    · -- the new dentry is in the list of its hash and was in no list
      subst isNew
      have nowhere : e ∉ r.table.hashtable hash := fun mem =>
        fresh ((placed.mem_iff hash e).mp mem).1
      by_cases here : hash = stringHash name size
      · simp [here]
      · simp [here, nowhere, Ne.symm here]
    · by_cases here : hash = stringHash name size
      · simp [here, isNew, placed.mem_iff]
      · simp [here, isNew, placed.mem_iff]

theorem Placed.del (placed : r.Placed size) (d : ℕ) :
    Placed size ⟨r.table.del d, r.live.filter (· ≠ d)⟩ := by
  constructor
  · exact placed.tablesize
  · intro e mem
    exact placed.bytes e (List.mem_of_mem_filter mem)
  · intro hash e
    simp only [DentryTable.del, List.mem_filter, placed.mem_iff]
    exact and_right_comm

theorem Placed.step (placed : r.Placed size) {op : TableOp} (stepped : r.step op = some next) :
    next.Placed size := by
  cases op with
  | add d name parent =>
      rcases Option.ite_none_right_eq_some.mp stepped with ⟨⟨fresh, bytes⟩, result⟩
      cases result
      exact placed.add fresh bytes
  | del d =>
      rcases Option.ite_none_right_eq_some.mp stepped with ⟨_, result⟩
      cases result
      exact placed.del d

theorem placed_of_reach (reached : Reach TableRun.step (Empty size) r) : r.Placed size :=
  reached.invariant (fun _ empty => .of_empty empty)
    (fun _ _ _ placed _ stepped => placed.step stepped)

/-- A search finds a dentry exactly if one that matches has the hash of the name. -/
theorem Placed.lookUp_iff (placed : r.Placed size) {name : Qstr} (bytes : name.IsBytes)
    (parent : ℕ) : (∃ d, r.table.lookUp name parent = some d) ↔ ∃ d, r.Matches name parent d ∧
      32 * (r.table.dName d).smallBits ≡ 32 * name.smallBits [MOD size] := by
  rw [← Option.isSome_iff_exists, DentryTable.lookUp, placed.tablesize, List.find?_isSome]
  refine exists_congr fun d => ?_
  rw [placed.mem_iff, Bool.and_eq_true, decide_eq_true_iff]
  constructor
  · rintro ⟨⟨live, hash⟩, same, below⟩
    exact ⟨⟨live, same, below⟩, (stringHash_eq_iff (placed.bytes d live) bytes same size).mp hash⟩
  · rintro ⟨⟨live, same, below⟩, congruent⟩
    exact ⟨⟨live, (stringHash_eq_iff (placed.bytes d live) bytes same size).mpr congruent⟩, same,
      below⟩

/-- A table of a size without dentries. -/
def empty (size : ℕ) : TableRun := ⟨⟨size, fun _ => .ofList [], fun _ => 0, fun _ => []⟩, []⟩

/-- A table of a size with a dentry of the name `a`. -/
def single (size : ℕ) : TableRun := ⟨(empty size).table.add 0 (.ofList [97]) 0, [0]⟩

theorem single_reach (size : ℕ) : Reach TableRun.step (Empty size) (single size) := by
  have stepped : (empty size).step (.add 0 (.ofList [97]) 0) = some (single size) := by
    have allowed : 0 ∉ (empty size).live ∧ (Qstr.ofList [97]).IsBytes :=
      ⟨List.not_mem_nil, by decide⟩
    simp only [TableRun.step, allowed, not_false_eq_true, and_self, if_true]
    rfl
  exact .step (.start ⟨rfl, fun _ => rfl, rfl⟩) trivial stepped

/-- For every size of the table, names that are the same have the same hash, and what was added
is found, exactly where the small letters of the names make no difference modulo the size. For all
names and all runs that is so exactly for the sizes that divide 32. -/
theorem hash_respects_iff (size : ℕ) :
    (∀ first second : Qstr, first.IsBytes → second.IsBytes → genericCheckFilename first second →
      (stringHash first size = stringHash second size ↔
        32 * first.smallBits ≡ 32 * second.smallBits [MOD size])) ∧
    (∀ r, Reach TableRun.step (Empty size) r → ∀ (name : Qstr) (parent : ℕ), name.IsBytes →
      (r.Finds name parent ↔ (∃ d, r.Matches name parent d) → ∃ d, r.Matches name parent d ∧
        32 * (r.table.dName d).smallBits ≡ 32 * name.smallBits [MOD size])) ∧
    ((∀ first second : Qstr, first.IsBytes → second.IsBytes → genericCheckFilename first second →
      stringHash first size = stringHash second size) ↔ size ∣ 32) ∧
    ((∀ r, Reach TableRun.step (Empty size) r → ∀ (name : Qstr) (parent : ℕ), name.IsBytes →
      r.Finds name parent) ↔ size ∣ 32) := by
  have congruent : size ∣ 32 → ∀ i j : ℕ, 32 * i ≡ 32 * j [MOD size] := fun divides i j =>
    (Nat.modEq_zero_iff_dvd.mpr (divides.mul_right i)).trans
      (Nat.modEq_zero_iff_dvd.mpr (divides.mul_right j)).symm
  refine ⟨fun first second bytes bytes' same => stringHash_eq_iff bytes bytes' same size,
    fun r reached name parent bytes => ?_, ⟨fun always => ?_, fun divides => ?_⟩,
    ⟨fun always => ?_, fun divides => ?_⟩⟩
  · rw [Finds, (placed_of_reach reached).lookUp_iff bytes]
  · exact hashes_a_iff.mp (always _ _ (by decide) (by decide) (by decide))
  · intro first second bytes bytes' same
    exact (stringHash_eq_iff bytes bytes' same size).mpr (congruent divides _ _)
  · -- look for `A` where `a` is
    have finds := always _ (single_reach size) (.ofList [65]) 0 (by decide)
    have same : genericCheckFilename (.ofList [97]) (.ofList [65]) := by decide
    have isThere : (single size).Matches (.ofList [65]) 0 0 :=
      ⟨List.mem_singleton_self 0, same, rfl⟩
    rcases ((placed_of_reach (single_reach size)).lookUp_iff (by decide) 0).mp
      (finds ⟨0, isThere⟩) with ⟨d, matchesName, sameHash⟩
    rw [List.mem_singleton.mp matchesName.1] at sameHash
    exact Nat.modEq_zero_iff_dvd.mp sameHash
  · intro r reached name parent bytes found
    apply ((placed_of_reach reached).lookUp_iff bytes parent).mpr
    rcases found with ⟨d, matchesName⟩
    exact ⟨d, matchesName, congruent divides _ _⟩

theorem hash_respects_iff_thirtyTwo :
    stringHash (.ofList [97]) 32 = stringHash (.ofList [65]) 32 ∧
      (single 32).Finds (.ofList [65]) 0 :=
  ⟨(hash_respects_iff 32).2.2.1.mpr (by decide) _ _ (by decide) (by decide) (by decide),
    (hash_respects_iff 32).2.2.2.mpr (by decide) _ (single_reach 32) _ 0 (by decide)⟩

/-- In a table of the size of the caches, `A` is not found where `a` is. -/
theorem not_hash_respects : ¬∀ size > 0,
    (∀ first second : Qstr, first.IsBytes → second.IsBytes → genericCheckFilename first second →
      stringHash first size = stringHash second size) ∧
    ∀ r, Reach TableRun.step (Empty size) r → ∀ (name : Qstr) (parent : ℕ), name.IsBytes →
      r.Finds name parent := by
  intro always
  have same := (always cacheHashsize (by decide)).1 (.ofList [97]) (.ofList [65]) (by decide)
    (by decide) (by decide)
  exact absurd (hashes_a_iff.mp same) (by decide)

end TableRun

end Ninix.Vfs
