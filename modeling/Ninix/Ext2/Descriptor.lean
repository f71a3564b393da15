import Ninix.Driver.Disk

/-!
# The group descriptor table

`dpttable` holds a descriptor of 32 bytes for every block group. `load_dpttable` reads the
blocks of the table one after the other when the volume is mounted, and `save_dpttable` writes
the block that holds a changed descriptor. Both treat the last block on its own, by two different
formulas: loading takes `total_groups` modulo the descriptors of a block, saving takes
`total_groups - 1`.
-/

namespace Ninix.Ext2

open ByteBuffer

/-- The numbers of `struct ext2_ext_sb` and its super block that stay as `ext2_init` sets them. -/
structure ExtSb where
  sBase : ℕ
  blocksizeFactor : ℕ
  totalGroups : ℕ
  blocksPerGroup : ℕ

/-- `DESCRIPTOR_ENTRY_LEN` -/
abbrev descriptorEntryLen : ℕ := 32

namespace ExtSb

variable (esb : ExtSb)

def sBlksize : ℕ := 1024 * 2 ^ esb.blocksizeFactor

def sectsPerBlock : ℕ := esb.sBlksize / sectorBytes

def descriptorBlock : ℕ := if esb.blocksizeFactor ≠ 0 then 1 else 2

/-- Descriptors in a block. -/
def entriesPerBlock : ℕ := esb.sBlksize / descriptorEntryLen

/-- The sector a block starts at. -/
def blockSector (block : ℕ) : ℕ := u32 (esb.sBase + block * esb.sectsPerBlock)

/-- The sectors of the descriptor table. -/
def DescriptorSector (id : ℕ) : Prop :=
  esb.sBase + esb.descriptorBlock * esb.sectsPerBlock ≤ id ∧
    id < esb.sBase + (esb.descriptorBlock + ((esb.totalGroups - 1) / esb.entriesPerBlock + 1)) *
      esb.sectsPerBlock

/-- A block size is a `u32`, there is a group, and the descriptor table lies on the card. -/
structure Valid : Prop where
  factor : esb.blocksizeFactor ≤ 21
  groups : 0 < esb.totalGroups
  count : esb.totalGroups < 4294967296
  table : esb.sBase + (esb.descriptorBlock + ((esb.totalGroups - 1) / esb.entriesPerBlock + 1)) *
    esb.sectsPerBlock ≤ 4294967296

/-- The bytes of the descriptor table on a card. -/
def descriptorBytes (disk : Disk) : Bytes :=
  disk.bytesFrom (esb.sBase + esb.descriptorBlock * esb.sectsPerBlock)

theorem sectsPerBlock_eq : esb.sectsPerBlock = 2 * 2 ^ esb.blocksizeFactor := by
  unfold sectsPerBlock sBlksize sectorBytes
  omega

theorem entriesPerBlock_eq : esb.entriesPerBlock = 32 * 2 ^ esb.blocksizeFactor := by
  unfold entriesPerBlock sBlksize descriptorEntryLen
  omega

theorem sBlksize_eq : esb.sBlksize = sectorBytes * esb.sectsPerBlock := by
  rw [sectsPerBlock_eq]
  unfold sBlksize sectorBytes
  omega

end ExtSb

/-- The loop of `load_dpttable` from block `i` with `left` blocks to go, where `p` is the offset
in the table it copies to. -/
def loadDpttableLoop (esb : ExtSb) (disk : Disk) (buf table : Bytes) (p i : ℕ) :
    ℕ → ℕ × ℕ × Bytes × Disk
  | 0 => (0, p, table, disk)
  | left + 1 =>
      match disk.readBlock buf (esb.blockSector (esb.descriptorBlock + i)) esb.sectsPerBlock with
      | (0, buf, disk) =>
          let entries :=
            if left ≠ 0 then esb.entriesPerBlock else esb.totalGroups % esb.entriesPerBlock
          loadDpttableLoop esb disk buf (blit table p buf 0 (entries * descriptorEntryLen))
            (p + entries * descriptorEntryLen) (i + 1) left
      | (err + 1, _, disk) => (err + 1, p, table, disk)

/-- `load_dpttable` into the memory of a fresh table: the error, the bytes copied, the table. -/
def loadDpttable (esb : ExtSb) (disk : Disk) (buf table : Bytes) : ℕ × ℕ × Bytes × Disk :=
  let blocks := u32 (sub32 esb.totalGroups 1 * descriptorEntryLen) / esb.sBlksize + 1
  loadDpttableLoop esb disk buf table 0 0 blocks

/-- `save_dpttable` -/
def saveDpttable (esb : ExtSb) (dpttable : Bytes) (disk : Disk) (group : ℕ) : ℕ × Disk :=
  let block := u32 (group * descriptorEntryLen) / esb.sBlksize
  let p := u32 (block * esb.sBlksize) / descriptorEntryLen * descriptorEntryLen
  let len :=
    if u32 (sub32 esb.totalGroups 1 * descriptorEntryLen) / esb.sBlksize = block then
      sub32 esb.totalGroups 1 % esb.entriesPerBlock * descriptorEntryLen
    else esb.sBlksize
  disk.writeBlock (blit zeros 0 dpttable p len)
    (esb.blockSector (esb.descriptorBlock + block)) esb.sectsPerBlock

namespace ExtSb

variable {esb : ExtSb}

theorem entries_mul : esb.entriesPerBlock * descriptorEntryLen = esb.sBlksize := by
  rw [entriesPerBlock_eq]
  unfold sBlksize descriptorEntryLen
  omega

theorem entriesPerBlock_pos : 0 < esb.entriesPerBlock := by
  rw [entriesPerBlock_eq]
  positivity

/-- The block of a descriptor, by bytes and by descriptors. -/
theorem bytes_div (group : ℕ) :
    group * descriptorEntryLen / esb.sBlksize = group / esb.entriesPerBlock := by
  rw [← entries_mul, Nat.mul_div_mul_right _ _ (by decide)]

theorem Valid.entriesPerBlock_le (valid : esb.Valid) : esb.entriesPerBlock ≤ 67108864 := by
  have factor : 2 ^ esb.blocksizeFactor ≤ 2 ^ 21 :=
    Nat.pow_le_pow_right (by decide) valid.factor
  rw [entriesPerBlock_eq]
  omega

theorem Valid.sub_one (valid : esb.Valid) : sub32 esb.totalGroups 1 = esb.totalGroups - 1 := by
  have groups := valid.groups
  have count := valid.count
  exact sub32_of_le groups count

/-- The block of the table `load_dpttable` and `save_dpttable` take for the last. -/
theorem lastBlock_le (esb : ExtSb) (group : ℕ) :
    u32 (group * descriptorEntryLen) / esb.sBlksize ≤ group / esb.entriesPerBlock := by
  rw [← bytes_div]
  apply Nat.div_le_div_right
  exact Nat.mod_le _ _

/-- A block of the table starts where its number says. -/
theorem Valid.block_inside (valid : esb.Valid) {block : ℕ}
    (le : block ≤ (esb.totalGroups - 1) / esb.entriesPerBlock) :
    esb.blockSector (esb.descriptorBlock + block) =
        esb.sBase + esb.descriptorBlock * esb.sectsPerBlock + block * esb.sectsPerBlock ∧
      esb.blockSector (esb.descriptorBlock + block) + esb.sectsPerBlock ≤ 4294967296 ∧
      ∀ k < esb.sectsPerBlock,
        esb.DescriptorSector (esb.blockSector (esb.descriptorBlock + block) + k) := by
  have room := Nat.mul_le_mul_right esb.sectsPerBlock (Nat.succ_le_succ le)
  have table := valid.table
  have positive : 0 < esb.sectsPerBlock := by
    rw [sectsPerBlock_eq]
    positivity
  simp only [Nat.succ_eq_add_one, Nat.add_mul, Nat.one_mul] at room table
  have location : esb.blockSector (esb.descriptorBlock + block) =
      esb.sBase + esb.descriptorBlock * esb.sectsPerBlock + block * esb.sectsPerBlock := by
    unfold blockSector
    rw [Nat.add_mul, u32_of_lt (by omega)]
    omega
  refine ⟨location, by omega, fun k lt => ?_⟩
  unfold DescriptorSector
  simp only [Nat.add_mul, Nat.one_mul]
  omega

/-- The bytes of a block of the table are the bytes of the table from there on. -/
theorem Valid.bytesFrom_block (valid : esb.Valid) (disk : Disk) {block : ℕ}
    (le : block ≤ (esb.totalGroups - 1) / esb.entriesPerBlock) (k : ℕ) :
    disk.bytesFrom (esb.blockSector (esb.descriptorBlock + block)) k =
      esb.descriptorBytes disk (block * esb.sBlksize + k) := by
  unfold descriptorBytes Disk.bytesFrom
  rw [(valid.block_inside le).1, sBlksize_eq, Nat.mul_left_comm, Nat.add_assoc,
    Nat.mul_add_div (by decide), Nat.mul_add_mod]

end ExtSb

/-! ## Loading -/

/-- The bytes `load_dpttable` copies from the last `left` blocks of the table. -/
def loadedBytes (esb : ExtSb) : ℕ → ℕ
  | 0 => 0
  | 1 => esb.totalGroups % esb.entriesPerBlock * descriptorEntryLen
  | left + 2 => esb.sBlksize + loadedBytes esb (left + 1)

section Load

variable {esb : ExtSb} (valid : esb.Valid)
include valid

omit valid in
/-- Bytes the loop copies from a block of which `left` are to go. -/
theorem chunk_eq (left : ℕ) :
    (if left ≠ 0 then esb.entriesPerBlock else esb.totalGroups % esb.entriesPerBlock) *
        descriptorEntryLen + loadedBytes esb left = loadedBytes esb (left + 1) := by
  cases left with
  | zero => simp [loadedBytes]
  | succ left => simp [loadedBytes, ExtSb.entries_mul]

/-- What the loop copies: whole blocks, and of the last one what its formula counts. -/
theorem loadDpttableLoop_spec {disk : Disk} (reliable : disk.ReliableOn esb.DescriptorSector)
    (left i p : ℕ) (buf table : Bytes) (start : left ≠ 0 → p = i * esb.sBlksize)
    (within : i + left ≤ (esb.totalGroups - 1) / esb.entriesPerBlock + 1) :
    ∃ table' disk', loadDpttableLoop esb disk buf table p i left =
        (0, p + loadedBytes esb left, table', disk') ∧
      ∀ k, table' k = if p ≤ k ∧ k < p + loadedBytes esb left
        then esb.descriptorBytes disk k else table k := by
  induction left generalizing disk i p buf table with
  | zero =>
      refine ⟨table, disk, by simp [loadDpttableLoop, loadedBytes], fun k => ?_⟩
      rw [loadedBytes, if_neg (by omega)]
  | succ left ih =>
      have le : i ≤ (esb.totalGroups - 1) / esb.entriesPerBlock := by omega
      have atStart := start (by omega)
      rcases valid.block_inside le with ⟨_, fits, inside⟩
      rcases Disk.readBlock_spec buf reliable inside fits with ⟨buf', transfers', read, bytes⟩
      have chunk := @chunk_eq esb left
      have chunkLe : (if left ≠ 0 then esb.entriesPerBlock
          else esb.totalGroups % esb.entriesPerBlock) * descriptorEntryLen ≤ esb.sBlksize := by
        rw [← esb.entries_mul]
        apply Nat.mul_le_mul_right
        split
        · exact le_rfl
        · exact (Nat.mod_lt _ esb.entriesPerBlock_pos).le
      have chunkFull : left ≠ 0 → (if left ≠ 0 then esb.entriesPerBlock
          else esb.totalGroups % esb.entriesPerBlock) * descriptorEntryLen = esb.sBlksize := by
        intro more
        rw [if_pos more, esb.entries_mul]
      simp only [loadDpttableLoop, read]
      generalize (if left ≠ 0 then esb.entriesPerBlock
          else esb.totalGroups % esb.entriesPerBlock) * descriptorEntryLen = len at *
      have reliableNext : ({ disk with transfers := transfers' } : Disk).ReliableOn
          esb.DescriptorSector := reliable
      rcases ih reliableNext (i + 1) (p + len) buf' (blit table p buf' 0 len)
          (by intro more; rw [chunkFull more, atStart, Nat.add_mul, Nat.one_mul])
          (by omega) with ⟨table', disk', loaded, result⟩
      refine ⟨table', disk', ?_, fun k => ?_⟩
      · rw [loaded, ← chunk, Nat.add_assoc]
      · rw [result k, ← chunk]
        by_cases later : p + len ≤ k ∧ k < p + len + loadedBytes esb left
        · rw [if_pos later, if_pos (by omega)]
          rfl
        · rw [if_neg later]
          by_cases here : p ≤ k ∧ k < p + len
          · rw [blit_inside here.1 here.2, if_pos (by omega), bytes, if_pos ?_,
              valid.bytesFrom_block disk le, ← atStart]
            · congr 1
              omega
            · rw [← esb.sBlksize_eq]
              omega
          · rw [blit_outside (by omega), if_neg (by omega)]

/-- `load_dpttable` copies the front of the table, as far as its formula counts. -/
theorem loadDpttable_spec {disk : Disk} (reliable : disk.ReliableOn esb.DescriptorSector)
    (buf table : Bytes) :
    ∃ table' disk', loadDpttable esb disk buf table = (0, loadedBytes esb
        (u32 (sub32 esb.totalGroups 1 * descriptorEntryLen) / esb.sBlksize + 1), table', disk') ∧
      ∀ k, table' k = if k < loadedBytes esb
          (u32 (sub32 esb.totalGroups 1 * descriptorEntryLen) / esb.sBlksize + 1)
        then esb.descriptorBytes disk k else table k := by
  have groups : sub32 esb.totalGroups 1 = esb.totalGroups - 1 := valid.sub_one
  have within := esb.lastBlock_le (esb.totalGroups - 1)
  rw [← groups] at within
  rcases loadDpttableLoop_spec valid reliable
      (u32 (sub32 esb.totalGroups 1 * descriptorEntryLen) / esb.sBlksize + 1) 0 0 buf table
      (by simp) (by rw [groups] at within ⊢; omega) with ⟨table', disk', loaded, bytes⟩
  rw [Nat.zero_add] at loaded bytes
  refine ⟨table', disk', loaded, fun k => ?_⟩
  rw [bytes k]
  simp

end Load

/-! ## Saving -/

/-- The bytes `save_dpttable` takes from the table for a block. -/
def savedBytes (esb : ExtSb) (block : ℕ) : ℕ :=
  if u32 (sub32 esb.totalGroups 1 * descriptorEntryLen) / esb.sBlksize = block then
    sub32 esb.totalGroups 1 % esb.entriesPerBlock * descriptorEntryLen
  else esb.sBlksize

/-- `save_dpttable` writes the block of the group: its front from the table, then zeros. -/
theorem saveDpttable_spec {esb : ExtSb} (valid : esb.Valid) {disk : Disk}
    (reliable : disk.ReliableOn esb.DescriptorSector) (dpttable : Bytes) {group block : ℕ}
    (lt : group < esb.totalGroups)
    (isBlock : block = u32 (group * descriptorEntryLen) / esb.sBlksize) :
    (saveDpttable esb dpttable disk group).1 = 0 ∧
      (saveDpttable esb dpttable disk group).2.fault = disk.fault ∧
      ∀ k, esb.descriptorBytes (saveDpttable esb dpttable disk group).2 k =
        if k / esb.sBlksize = block then
          if k % esb.sBlksize < savedBytes esb block then dpttable k else 0
        else esb.descriptorBytes disk k := by
  have le : block ≤ (esb.totalGroups - 1) / esb.entriesPerBlock := by
    rw [isBlock]
    apply (esb.lastBlock_le group).trans
    apply Nat.div_le_div_right
    omega
  rcases valid.block_inside le with ⟨location, fits, inside⟩
  have offset : u32 (block * esb.sBlksize) / descriptorEntryLen * descriptorEntryLen =
      block * esb.sBlksize := by
    have small : block * esb.sBlksize ≤ u32 (group * descriptorEntryLen) := by
      rw [isBlock]
      apply Nat.div_mul_le_self
    have bounded := u32_lt (group * descriptorEntryLen)
    rw [u32_of_lt (by omega), ← esb.entries_mul, ← Nat.mul_assoc,
      Nat.mul_div_cancel _ (by decide)]
  have unfolded : saveDpttable esb dpttable disk group =
      disk.writeBlock (blit zeros 0 dpttable (block * esb.sBlksize) (savedBytes esb block))
        (esb.blockSector (esb.descriptorBlock + block)) esb.sectsPerBlock := by
    unfold saveDpttable savedBytes
    simp only [← isBlock, offset]
  rcases Disk.writeBlock_spec (blit zeros 0 dpttable (block * esb.sBlksize)
    (savedBytes esb block)) reliable inside fits with ⟨code, fault, sector, _⟩
  rw [unfolded]
  refine ⟨code, fault, fun k => ?_⟩
  unfold ExtSb.descriptorBytes Disk.bytesFrom
  rw [sector, location]
  have sects : 0 < esb.sectsPerBlock := by
    rw [esb.sectsPerBlock_eq]
    positivity
  have inBlock : k / esb.sBlksize = block ↔ block * esb.sectsPerBlock ≤ k / sectorBytes ∧
      k / sectorBytes < block * esb.sectsPerBlock + esb.sectsPerBlock := by
    rw [esb.sBlksize_eq, ← Nat.div_div_eq_div_mul, Nat.div_eq_iff sects]
    constructor <;> rintro ⟨lower, upper⟩ <;> constructor <;> omega
  have start : esb.sBlksize * block = 512 * (block * esb.sectsPerBlock) := by
    rw [esb.sBlksize_eq, Nat.mul_assoc, Nat.mul_comm esb.sectsPerBlock]
  by_cases here : k / esb.sBlksize = block
  · rcases inBlock.mp here with ⟨lower, upper⟩
    have whole := Nat.div_add_mod k esb.sBlksize
    rw [here, start] at whole
    have within : (esb.sBase + esb.descriptorBlock * esb.sectsPerBlock + k / sectorBytes -
        (esb.sBase + esb.descriptorBlock * esb.sectsPerBlock + block * esb.sectsPerBlock)) *
          sectorBytes + k % sectorBytes = k % esb.sBlksize := by
      unfold sectorBytes at *
      omega
    have position : block * esb.sBlksize + k % esb.sBlksize = k := by
      rw [Nat.mul_comm, start]
      exact whole
    rw [if_pos ⟨by omega, by omega, Nat.mod_lt _ (by decide)⟩, if_pos here, within]
    unfold blit zeros
    simp only [Nat.zero_le, true_and, Nat.zero_add, Nat.sub_zero, position]
  · rw [if_neg here, if_neg]
    rintro ⟨lower, upper, _⟩
    exact here (inBlock.mpr ⟨by omega, by omega⟩)

/-! ## Saving and loading -/

/-- Saving the block of a changed group and loading the table gives the table in memory: every
descriptor on the card is the one in memory, and loading copies exactly those. -/
def RoundTrips (esb : ExtSb) (dpttable : Bytes) (disk : Disk) (group : ℕ) : Prop :=
  (∀ k < esb.totalGroups * descriptorEntryLen,
    esb.descriptorBytes (saveDpttable esb dpttable disk group).2 k = dpttable k) ∧
  ∀ buf table, ∃ table' disk',
    loadDpttable esb (saveDpttable esb dpttable disk group).2 buf table =
      (0, esb.totalGroups * descriptorEntryLen, table', disk') ∧
    ∀ k < esb.totalGroups * descriptorEntryLen, table' k = dpttable k

theorem loadedBytes_succ (esb : ExtSb) (blocks : ℕ) : loadedBytes esb (blocks + 1) =
    (blocks * esb.entriesPerBlock + esb.totalGroups % esb.entriesPerBlock) *
      descriptorEntryLen := by
  induction blocks with
  | zero => simp [loadedBytes]
  | succ blocks ih =>
      rw [loadedBytes, ih, ← esb.entries_mul]
      simp only [Nat.add_mul, Nat.one_mul]
      omega

/-- Loading counts every group exactly when the table's bytes do not wrap and its last block is
not full. -/
theorem loadedBytes_eq_iff {esb : ExtSb} (valid : esb.Valid) :
    loadedBytes esb (u32 (sub32 esb.totalGroups 1 * descriptorEntryLen) / esb.sBlksize + 1) =
        esb.totalGroups * descriptorEntryLen ↔
      esb.totalGroups ≤ 134217728 ∧ esb.totalGroups % esb.entriesPerBlock ≠ 0 := by
  have positive := esb.entriesPerBlock_pos
  have bounded := valid.entriesPerBlock_le
  have groups := valid.groups
  rw [loadedBytes_succ, valid.sub_one]
  have wrapped : u32 ((esb.totalGroups - 1) * descriptorEntryLen) =
      (esb.totalGroups - 1) % 134217728 * descriptorEntryLen := by
    unfold u32 descriptorEntryLen
    omega
  rw [wrapped, esb.bytes_div, Nat.mul_left_inj (by decide)]
  generalize esb.entriesPerBlock = entries at *
  generalize esb.totalGroups = total at *
  have low := Nat.div_add_mod ((total - 1) % 134217728) entries
  have lowRest := Nat.mod_lt ((total - 1) % 134217728) positive
  have rest := Nat.mod_lt total positive
  rw [Nat.mul_comm] at low
  constructor
  · intro counted
    have small : total ≤ 134217728 := by omega
    refine ⟨small, fun full => ?_⟩
    rw [Nat.mod_eq_of_lt (by omega)] at counted low
    omega
  · rintro ⟨small, notFull⟩
    rw [Nat.mod_eq_of_lt (by omega)] at low ⊢
    have whole := Nat.div_add_mod total entries
    rw [Nat.mul_comm] at whole
    have same : (total - 1) / entries = total / entries := by
      apply Nat.div_eq_of_lt_le
      · omega
      · rw [Nat.add_mul, Nat.one_mul]
        omega
    rw [same]
    exact whole

/-- The block of a byte and its place there, by the descriptor the byte belongs to. -/
theorem byte_location (esb : ExtSb) (k : ℕ) :
    k / esb.sBlksize = k / descriptorEntryLen / esb.entriesPerBlock ∧
      k % esb.sBlksize = k % descriptorEntryLen +
        descriptorEntryLen * (k / descriptorEntryLen % esb.entriesPerBlock) := by
  rw [← esb.entries_mul, Nat.mul_comm, Nat.div_div_eq_div_mul, Nat.mod_mul]
  exact ⟨rfl, rfl⟩

/-- Without wrapping, both functions find the block of a group. -/
theorem block_of_small {esb : ExtSb} {group : ℕ} (small : group < 134217728) :
    u32 (group * descriptorEntryLen) / esb.sBlksize = group / esb.entriesPerBlock := by
  rw [u32_of_lt (by unfold descriptorEntryLen; omega), esb.bytes_div]

/-- What is saved of a block: all of it, or the descriptors in front of the last one of the
table. -/
theorem savedBytes_of_small {esb : ExtSb} (valid : esb.Valid)
    (small : esb.totalGroups ≤ 134217728) (block : ℕ) :
    savedBytes esb block =
      if (esb.totalGroups - 1) / esb.entriesPerBlock = block then
        (esb.totalGroups - 1) % esb.entriesPerBlock * descriptorEntryLen
      else esb.sBlksize := by
  have groups := valid.groups
  unfold savedBytes
  rw [valid.sub_one, block_of_small (by omega)]

/-- Saving the last block of the table puts zeros in the place of its last descriptor. -/
theorem last_of_saved {esb : ExtSb} (valid : esb.Valid) {dpttable : Bytes} {disk : Disk}
    (reliable : disk.ReliableOn esb.DescriptorSector) {group k : ℕ}
    (lt : group < esb.totalGroups) (small : esb.totalGroups ≤ 134217728)
    (isLast : group / esb.entriesPerBlock = (esb.totalGroups - 1) / esb.entriesPerBlock)
    (below : k < descriptorEntryLen) :
    esb.descriptorBytes (saveDpttable esb dpttable disk group).2
      ((esb.totalGroups - 1) * descriptorEntryLen + k) = 0 := by
  rcases saveDpttable_spec valid reliable dpttable lt rfl with ⟨_, _, saved⟩
  have number : ((esb.totalGroups - 1) * descriptorEntryLen + k) / descriptorEntryLen =
      esb.totalGroups - 1 := by
    unfold descriptorEntryLen at *
    omega
  have place : ((esb.totalGroups - 1) * descriptorEntryLen + k) % descriptorEntryLen = k := by
    unfold descriptorEntryLen at *
    omega
  have byte := byte_location esb ((esb.totalGroups - 1) * descriptorEntryLen + k)
  rw [number, place] at byte
  rw [saved, block_of_small (by omega), savedBytes_of_small valid small, isLast, if_pos rfl, byte.1,
    if_pos rfl, byte.2, if_neg (by rw [Nat.mul_comm]; omega)]

/-- Elsewhere, or where the last descriptor is zero, a save leaves the whole table on the card. -/
theorem descriptorBytes_of_saved {esb : ExtSb} (valid : esb.Valid) {dpttable : Bytes} {disk : Disk}
    (reliable : disk.ReliableOn esb.DescriptorSector) {group : ℕ}
    (lt : group < esb.totalGroups) (small : esb.totalGroups ≤ 134217728)
    (held : ∀ k < esb.totalGroups * descriptorEntryLen, k / descriptorEntryLen ≠ group →
      esb.descriptorBytes disk k = dpttable k)
    (kept : group / esb.entriesPerBlock ≠ (esb.totalGroups - 1) / esb.entriesPerBlock ∨
      ∀ k < descriptorEntryLen, dpttable ((esb.totalGroups - 1) * descriptorEntryLen + k) = 0)
    {k : ℕ} (below : k < esb.totalGroups * descriptorEntryLen) :
    esb.descriptorBytes (saveDpttable esb dpttable disk group).2 k = dpttable k := by
  rcases saveDpttable_spec valid reliable dpttable lt rfl with ⟨_, _, saved⟩
  have byte := byte_location esb k
  have descriptor : k / descriptorEntryLen < esb.totalGroups := by
    unfold descriptorEntryLen at *
    omega
  rw [saved k, block_of_small (by omega)]
  split
  · rename_i sameBlock
    rw [byte.1] at sameBlock
    rw [savedBytes_of_small valid small, ← sameBlock]
    by_cases isLast : (esb.totalGroups - 1) / esb.entriesPerBlock =
        k / descriptorEntryLen / esb.entriesPerBlock
    · rw [if_pos isLast]
      split
      · rfl
      · -- the bytes left out are those of the last descriptor
        rename_i behind
        rcases kept with notLast | zero
        · exact absurd (sameBlock.symm.trans isLast.symm) notLast
        · have final : k / descriptorEntryLen = esb.totalGroups - 1 := by
            have number := Nat.div_add_mod (k / descriptorEntryLen) esb.entriesPerBlock
            have lastNumber := Nat.div_add_mod (esb.totalGroups - 1) esb.entriesPerBlock
            rw [isLast] at lastNumber
            rw [byte.2] at behind
            unfold descriptorEntryLen at *
            omega
          have position := Nat.div_add_mod k descriptorEntryLen
          rw [final, Nat.mul_comm] at position
          rw [← position]
          exact (zero _ (Nat.mod_lt _ (by decide))).symm
    · rw [if_neg isLast, if_pos]
      apply Nat.mod_lt
      rw [← esb.entries_mul]
      exact Nat.mul_pos esb.entriesPerBlock_pos (by decide)
  · rename_i otherBlock
    apply held k below
    rintro rfl
    exact otherBlock byte.1

/--
The table survives a save and a load exactly when its last block is not full, its bytes do not
wrap, and the save is not of the last block or would lose a descriptor of zeros.
-/
theorem roundTrips_iff {esb : ExtSb} (valid : esb.Valid) {dpttable : Bytes} {disk : Disk}
    (reliable : disk.ReliableOn esb.DescriptorSector) {group : ℕ}
    (lt : group < esb.totalGroups)
    (held : ∀ k < esb.totalGroups * descriptorEntryLen, k / descriptorEntryLen ≠ group →
      esb.descriptorBytes disk k = dpttable k) :
    RoundTrips esb dpttable disk group ↔
      esb.totalGroups ≤ 134217728 ∧ esb.totalGroups % esb.entriesPerBlock ≠ 0 ∧
        (group / esb.entriesPerBlock ≠ (esb.totalGroups - 1) / esb.entriesPerBlock ∨
          ∀ k < descriptorEntryLen,
            dpttable ((esb.totalGroups - 1) * descriptorEntryLen + k) = 0) := by
  have reliable' : (saveDpttable esb dpttable disk group).2.ReliableOn
      esb.DescriptorSector := by
    intro k id inside
    rw [(saveDpttable_spec valid reliable dpttable lt rfl).2.1]
    exact reliable k id inside
  have loaded := loadDpttable_spec valid reliable'
  have counted := loadedBytes_eq_iff valid
  constructor
  · rintro ⟨onCard, loads⟩
    rcases loads zeros zeros with ⟨_, _, result, _⟩
    rcases loaded zeros zeros with ⟨_, _, result', _⟩
    rw [result] at result'
    simp only [Prod.mk.injEq, true_and] at result'
    rcases counted.mp result'.1.symm with ⟨small, notFull⟩
    refine ⟨small, notFull, ?_⟩
    by_cases isLast : group / esb.entriesPerBlock = (esb.totalGroups - 1) / esb.entriesPerBlock
    · right
      intro k below
      have inside : (esb.totalGroups - 1) * descriptorEntryLen + k <
          esb.totalGroups * descriptorEntryLen := by
        unfold descriptorEntryLen at *
        omega
      rw [← onCard _ inside]
      exact last_of_saved valid reliable lt small isLast below
    · exact Or.inl isLast
  · rintro ⟨small, notFull, kept⟩
    have onCard : ∀ k < esb.totalGroups * descriptorEntryLen,
        esb.descriptorBytes (saveDpttable esb dpttable disk group).2 k = dpttable k :=
      fun k below => descriptorBytes_of_saved valid reliable lt small held kept below
    refine ⟨onCard, fun buf table => ?_⟩
    rcases loaded buf table with ⟨table', disk', result, bytes⟩
    rw [counted.mpr ⟨small, notFull⟩] at result bytes
    refine ⟨table', disk', result, fun k below => ?_⟩
    rw [bytes k, if_pos below]
    exact onCard k below

/-- A volume of three groups with blocks of 1024 bytes. -/
def threeGroups : ExtSb where
  sBase := 0
  blocksizeFactor := 0
  totalGroups := 3
  blocksPerGroup := 8192

theorem threeGroups_valid : threeGroups.Valid := by
  constructor <;> decide

/-- A card all of whose bytes are one value and whose transfers succeed. -/
def uniformDisk (byte : UInt8) : Disk where
  sector := fun _ _ => byte
  fault := fun _ _ => 0
  transfers := 0
  written := []

/-- Saving group 0 of three loses the descriptor of group 2, unless it is zero. -/
theorem roundTrips_iff_threeGroups :
    RoundTrips threeGroups zeros (uniformDisk 0) 0 ∧
      ¬RoundTrips threeGroups (fun _ => 1) (uniformDisk 1) 0 := by
  have zeroTable := @roundTrips_iff threeGroups threeGroups_valid zeros (uniformDisk 0)
    (fun _ _ _ => rfl) 0 (by decide) fun _ _ _ => rfl
  have oneTable := @roundTrips_iff threeGroups threeGroups_valid (fun _ => 1) (uniformDisk 1)
    (fun _ _ _ => rfl) 0 (by decide) fun _ _ _ => rfl
  constructor
  · apply zeroTable.mpr
    exact ⟨by decide, by decide, Or.inr fun _ _ => rfl⟩
  · intro roundTrips
    rcases oneTable.mp roundTrips with ⟨_, _, other | zero⟩
    · exact other rfl
    · exact absurd (zero 0 (by decide)) (by decide)

/-- With one group nothing of the table is written back: its only descriptor becomes zero. -/
theorem not_roundTrips_oneGroup :
    ¬∀ (esb : ExtSb) (dpttable : Bytes) (disk : Disk) (group : ℕ), esb.Valid →
      disk.ReliableOn esb.DescriptorSector → group < esb.totalGroups →
      (∀ k < esb.totalGroups * descriptorEntryLen, k / descriptorEntryLen ≠ group →
        esb.descriptorBytes disk k = dpttable k) →
      RoundTrips esb dpttable disk group := by
  intro always
  have valid : ExtSb.Valid { threeGroups with totalGroups := 1 } := by
    constructor <;> decide
  rcases always _ (fun _ => 1) (uniformDisk 1) 0 valid (fun _ _ _ => rfl) (by decide)
    fun _ _ _ => rfl with ⟨onCard, _⟩
  have written : ExtSb.descriptorBytes { threeGroups with totalGroups := 1 }
      (saveDpttable { threeGroups with totalGroups := 1 } (fun _ => 1) (uniformDisk 1) 0).2 0 =
        0 := by decide +kernel
  have kept := onCard 0 (by decide)
  rw [written] at kept
  exact absurd kept (by decide)

end Ninix.Ext2
