import Mathlib.Algebra.Order.Monoid.Unbundled.Pow
import Mathlib.Data.Nat.Prime.Basic
import Ninix.Ext2.Metadata
import Ninix.Library.RunningTerm

/-!
# The copies of the superblock

`save_sb` writes the superblock to its own sector and to the start of every group whose number is
a power of 3, of 5 or of 7. It finds the groups with one running power of each, and a power moves
on when the loop comes to it.
-/

namespace Ninix.Ext2

open ByteBuffer RunningTerm

/-- The groups meant to hold a copy. -/
def IsSparse (group : ℕ) : Prop :=
  group = 1 ∨ (∃ k, group = 3 ^ k) ∨ (∃ k, group = 5 ^ k) ∨ ∃ k, group = 7 ^ k

/-- The list holds the groups with a copy among `left` of them from `first` on, in their order. -/
structure ListsSparse (groups : List ℕ) (first left : ℕ) : Prop where
  increasing : groups.Pairwise (· < ·)
  mem_iff : ∀ group, group ∈ groups ↔ first ≤ group ∧ group < first + left ∧ IsSparse group

namespace ListsSparse

variable {groups : List ℕ} {first left : ℕ}

theorem zero : ListsSparse [] first 0 :=
  ⟨List.Pairwise.nil, fun group => by simp; omega⟩

theorem cons (rest : ListsSparse groups (first + 1) left) (sparse : IsSparse first) :
    ListsSparse (first :: groups) first (left + 1) := by
  refine ⟨List.pairwise_cons.mpr ⟨fun group mem => ?_, rest.increasing⟩, fun group => ?_⟩
  · exact ((rest.mem_iff group).mp mem).1
  · rw [List.mem_cons, rest.mem_iff]
    constructor
    · rintro (rfl | ⟨lower, upper, holds⟩)
      · exact ⟨le_rfl, by omega, sparse⟩
      · exact ⟨by omega, by omega, holds⟩
    · rintro ⟨lower, upper, holds⟩
      rcases Nat.eq_or_lt_of_le lower with same | after
      · exact Or.inl same.symm
      · exact Or.inr ⟨after, by omega, holds⟩

theorem skip (rest : ListsSparse groups (first + 1) left) (other : ¬IsSparse first) :
    ListsSparse groups first (left + 1) := by
  refine ⟨rest.increasing, fun group => ?_⟩
  rw [rest.mem_iff]
  constructor
  · rintro ⟨lower, upper, holds⟩
    exact ⟨by omega, by omega, holds⟩
  · rintro ⟨lower, upper, holds⟩
    have ne : first ≠ group := fun same => other (same ▸ holds)
    exact ⟨by omega, by omega, holds⟩

end ListsSparse

/-! ## The running powers -/

/-- The three sequences the running powers go through. -/
theorem isSparse_iff {group : ℕ} : IsSparse group ↔
    (∃ k, group = 3 ^ k) ∨ (∃ k, group = 5 ^ (k + 1)) ∨ ∃ k, group = 7 ^ (k + 1) := by
  constructor
  · rintro (one | power | ⟨k, power⟩ | ⟨k, power⟩)
    · exact Or.inl ⟨0, one⟩
    · exact Or.inl power
    · cases k with
      | zero => exact Or.inl ⟨0, power⟩
      | succ k => exact Or.inr (Or.inl ⟨k, power⟩)
    · cases k with
      | zero => exact Or.inl ⟨0, power⟩
      | succ k => exact Or.inr (Or.inr ⟨k, power⟩)
  · rintro (power | ⟨k, power⟩ | ⟨k, power⟩)
    · exact Or.inr (Or.inl power)
    · exact Or.inr (Or.inr (Or.inl ⟨k + 1, power⟩))
    · exact Or.inr (Or.inr (Or.inr ⟨k + 1, power⟩))

/-- A power of one prime is no power of another. -/
theorem pow_ne_pow_succ {p q : ℕ} (prime : q.Prime) (apart : ¬q ∣ p) (i j : ℕ) :
    p ^ i ≠ q ^ (j + 1) := by
  intro same
  have divides : q ∣ p ^ i := by
    rw [same]
    exact Dvd.intro_left _ rfl
  exact apart (prime.dvd_of_dvd_pow divides)

theorem powers_increasing {p : ℕ} (big : 1 < p) (shift : ℕ) :
    StrictMono fun i => p ^ (i + shift) :=
  fun _ _ less => Nat.pow_lt_pow_right big (by omega)

/-- A power hit below `2 ^ 29` moves on without an overflow. -/
theorem u32_mul_of_hit {value p : ℕ} (small : value < 2 ^ 29) (le : p ≤ 7) :
    u32 (value * p) = value * p := by
  apply u32_of_lt
  calc value * p ≤ value * 7 := Nat.mul_le_mul_left _ le
    _ < 4294967296 := by omega

/-- The loop of `save_sb` finds the groups with a copy. -/
theorem backups_listsSparse {left group i j k : ℕ} (next3 : Next (3 ^ · ) group i)
    (next5 : Next (fun n => 5 ^ (n + 1)) group j) (next7 : Next (fun n => 7 ^ (n + 1)) group k)
    (small : group + left ≤ 2 ^ 29) :
    ListsSparse (ExtSb.backups left group (3 ^ i) (5 ^ (j + 1)) (7 ^ (k + 1))) group left := by
  have up3 : StrictMono fun n => 3 ^ n := powers_increasing (by decide) 0
  have up5 : StrictMono fun n => 5 ^ (n + 1) := powers_increasing (by decide) 1
  have up7 : StrictMono fun n => 7 ^ (n + 1) := powers_increasing (by decide) 1
  induction left generalizing group i j k with
  | zero => exact .zero
  | succ left ih =>
      have bounded : group < 2 ^ 29 := by omega
      have sparse_iff : IsSparse group ↔
          group = 3 ^ i ∨ group = 5 ^ (j + 1) ∨ group = 7 ^ (k + 1) := by
        rw [isSparse_iff, next3.exists_eq_iff up3, next5.exists_eq_iff up5,
          next7.exists_eq_iff up7]
      simp only [ExtSb.backups]
      split
      · -- no other power is here, so the other two stay
        rename_i here
        have not5 : group ≠ 5 ^ (j + 1) := here ▸ pow_ne_pow_succ Nat.prime_five (by decide) i j
        have not7 : group ≠ 7 ^ (k + 1) := here ▸ pow_ne_pow_succ Nat.prime_seven (by decide) i k
        have rest := ih (next3.hit up3 here) (next5.miss not5) (next7.miss not7) (by omega)
        rw [u32_mul_of_hit (here ▸ bounded) (by decide), ← Nat.pow_succ]
        exact rest.cons (sparse_iff.mpr (Or.inl here))
      · rename_i not3
        split
        · rename_i here
          have not7 : group ≠ 7 ^ (k + 1) :=
            here ▸ pow_ne_pow_succ Nat.prime_seven (by decide) (j + 1) k
          have rest := ih (next3.miss not3) (next5.hit up5 here) (next7.miss not7) (by omega)
          rw [u32_mul_of_hit (here ▸ bounded) (by decide), ← Nat.pow_succ]
          exact rest.cons (sparse_iff.mpr (Or.inr (Or.inl here)))
        · rename_i not5
          split
          · rename_i here
            have rest := ih (next3.miss not3) (next5.miss not5) (next7.hit up7 here) (by omega)
            rw [u32_mul_of_hit (here ▸ bounded) (by decide), ← Nat.pow_succ]
            exact rest.cons (sparse_iff.mpr (Or.inr (Or.inr here)))
          · rename_i not7
            have rest := ih (next3.miss not3) (next5.miss not5) (next7.miss not7) (by omega)
            refine rest.skip fun sparse => ?_
            rcases sparse_iff.mp sparse with is3 | is5 | is7
            · exact not3 is3
            · exact not5 is5
            · exact not7 is7

/-- The groups `save_sb` writes copies to are those meant to hold one. -/
theorem ExtSb.copies_listsSparse {esb : ExtSb} (small : esb.totalGroups < 2 ^ 29) :
    ListsSparse esb.copies 1 (esb.totalGroups - 1) :=
  backups_listsSparse (i := 0) (j := 0) (k := 0) ⟨by simp, by simp⟩ ⟨by simp, by simp⟩
    ⟨by simp, by simp⟩ (by omega)

/-! ## What is written -/

/-- The sectors are written from the buffer, in their order, and no others. -/
structure WritesSectors (buf : Bytes) (sectors : List ℕ) (disk disk' : Disk) : Prop where
  fault : disk'.fault = disk.fault
  written : disk'.written = sectors.reverse ++ disk.written
  image : ∀ id ∈ sectors, ∀ k < sectorBytes, disk'.sector id k = buf k
  others : ∀ id ∉ sectors, disk'.sector id = disk.sector id

namespace WritesSectors

variable {buf : Bytes} {sectors : List ℕ} {id : ℕ} {disk mid disk' : Disk}

theorem nil : WritesSectors buf [] disk disk :=
  ⟨rfl, rfl, by simp, fun _ _ => rfl⟩

theorem single (buf : Bytes) (id : ℕ) (reliable : disk.Reliable) :
    ∃ disk', disk.writeBlock buf id 1 = (0, disk') ∧ WritesSectors buf [id] disk disk' := by
  refine ⟨_, Disk.writeBlock_one (reliable.on fun _ => True) trivial, rfl, rfl, ?_, ?_⟩
  · intro other mem k below
    rw [List.mem_singleton.mp mem]
    simp only [Function.update_self]
    rw [blit_inside (Nat.zero_le k) (by omega), Nat.sub_zero, Nat.zero_add]
  · intro other outside
    exact Function.update_of_ne (fun same => outside (List.mem_singleton.mpr same)) _ _

theorem cons (first : WritesSectors buf [id] disk mid)
    (rest : WritesSectors buf sectors mid disk') :
    WritesSectors buf (id :: sectors) disk disk' := by
  refine ⟨rest.fault.trans first.fault, ?_, fun other mem k below => ?_, fun other outside => ?_⟩
  · rw [rest.written, first.written]
    simp
  · by_cases later : other ∈ sectors
    · exact rest.image other later k below
    · rw [rest.others other later]
      rcases List.mem_cons.mp mem with here | inRest
      · exact first.image other (List.mem_singleton.mpr here) k below
      · exact absurd inRest later
  · rw [List.mem_cons, not_or] at outside
    rw [rest.others other outside.2]
    exact first.others other fun mem => outside.1 (List.mem_singleton.mp mem)

theorem reliable (writes : WritesSectors buf sectors disk disk') (reliable : disk.Reliable) :
    disk'.Reliable := by
  intro k id _
  rw [writes.fault]
  exact reliable k id trivial

end WritesSectors

namespace Fs

theorem saveCopies_writes (esb : ExtSb) (buf : Bytes) {disk : Disk} (reliable : disk.Reliable)
    (groups : List ℕ) : ∃ disk', saveCopies esb buf disk groups = (0, disk') ∧
      WritesSectors buf (groups.map esb.copySector) disk disk' := by
  induction groups generalizing disk with
  | nil => exact ⟨disk, rfl, .nil⟩
  | cons group rest ih =>
      rcases WritesSectors.single buf (esb.copySector group) reliable with ⟨mid, wrote, here⟩
      rcases ih (here.reliable reliable) with ⟨disk', saved, later⟩
      exact ⟨disk', by simp only [saveCopies, wrote, saved], here.cons later⟩

/-- `save_sb` writes the superblock and then the copies of the groups meant to hold one, each once
and in the order of their numbers. -/
theorem saveSb_copies {fs : Fs} (reliable : fs.disk.Reliable)
    (small : fs.esb.totalGroups < 2 ^ 29) :
    ∃ (groups : List ℕ) (disk' : Disk),
      fs.saveSb = (0, { fs with sbBuf := fs.sbImage, disk := disk' }) ∧ groups.Pairwise (· < ·) ∧
      (∀ group, group ∈ groups ↔
        1 ≤ group ∧ group < fs.esb.totalGroups ∧ IsSparse group) ∧
      WritesSectors fs.sbImage (u32 (fs.esb.sBase + 2) :: groups.map fs.esb.copySector)
        fs.disk disk' := by
  rcases WritesSectors.single fs.sbImage (u32 (fs.esb.sBase + 2)) reliable with
    ⟨mid, wrote, first⟩
  rcases saveCopies_writes fs.esb.toExtSb fs.sbImage (first.reliable reliable) fs.esb.copies with
    ⟨disk', saved, rest⟩
  have lists := ExtSb.copies_listsSparse small
  refine ⟨fs.esb.copies, disk', by simp only [saveSb, wrote, saved], lists.increasing, ?_,
    first.cons rest⟩
  intro group
  rw [lists.mem_iff]
  have upper : 1 ≤ group → (group < 1 + (fs.esb.totalGroups - 1) ↔ group < fs.esb.totalGroups) := by
    omega
  constructor
  · rintro ⟨lower, below, sparse⟩
    exact ⟨lower, (upper lower).mp below, sparse⟩
  · rintro ⟨lower, below, sparse⟩
    exact ⟨lower, (upper lower).mpr below, sparse⟩

/-- Ten groups on an empty card. -/
def tenGroups : Fs where
  esb :=
    { sBase := 63
      blocksizeFactor := 2
      totalGroups := 10
      blocksPerGroup := 32768
      inodesPerGroup := 8192
      inodeSize := 128 }
  disk := { sector := fun _ => zeros, fault := fun _ _ => 0, transfers := 0, written := [] }
  dpttable := zeros
  totalUnallocInodes := 5
  totalUnallocBlocks := 7
  sbBuf := zeros
  bitmap := ⟨minusOne32, false, zeros, zeros⟩
  itable := ⟨minusOne32, minusOne32, false, zeros⟩

theorem saveSb_copies_tenGroups : ∃ (groups : List ℕ) (disk' : Disk),
    tenGroups.saveSb = (0, { tenGroups with sbBuf := tenGroups.sbImage, disk := disk' }) ∧
      9 ∈ groups ∧ disk'.written =
        (u32 (63 + 2) :: groups.map tenGroups.esb.copySector).reverse := by
  have total : tenGroups.esb.totalGroups = 10 := rfl
  have reliable : tenGroups.disk.Reliable := fun _ _ _ => rfl
  rcases saveSb_copies reliable (by decide) with
    ⟨groups, disk', saved, _, mem_iff, writes⟩
  refine ⟨groups, disk', saved, (mem_iff 9).mpr ⟨by decide, by omega, Or.inr (Or.inl ⟨2, rfl⟩)⟩, ?_⟩
  rw [writes.written]
  exact List.append_nil _

end Fs

end Ninix.Ext2
