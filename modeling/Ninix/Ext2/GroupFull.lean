import Ninix.Ext2.BlockAllocation

/-!
# The full test of `apply_block`

`apply_block` gives up when the count of group 0 is 0, whatever group it is called for. Where the
counts are those of the zero bits, it serves a group exactly if that group and group 0 are both
full or both not. Otherwise it refuses a group with free blocks, or it goes on behind the end of a
full bitmap.
-/

namespace Ninix.Ext2

open ByteBuffer Bitmap

namespace Fs

/-- The counts of free blocks are those of the zero bits in the bitmaps, and a zero bit stands for
a block of its group, whose number is a `u32`. -/
structure CountsBlocks (fs : Fs) : Prop where
  groups : ∀ group < fs.esb.totalGroups, fs.unallocBlocks group = fs.freeBlocks group
  total : fs.totalUnallocBlocks = ∑ group ∈ Finset.range fs.esb.totalGroups, fs.freeBlocks group
  small : fs.totalUnallocBlocks < 4294967296
  padding : ∀ group < fs.esb.totalGroups, ∀ index < 8 * fs.esb.sBlksize,
    bit (fs.blockBits group) index = false →
      index < fs.esb.blocksPerGroup ∧ group * fs.esb.blocksPerGroup + index < 4294967296

/-- One bit of the block bitmap of a group gets a value and the two counts get theirs; nothing else
changes on the card or in memory, but what was loaded and what the counts are written to. -/
structure BlockMoved (fs fs' : Fs) (group index : ℕ) (value : Bool) (count total : ℕ) : Prop where
  ready : fs'.Ready
  esb : fs'.esb = fs.esb
  blocks : ∀ other < fs.esb.totalGroups, ∀ i < 8 * fs.esb.sBlksize, bit (fs'.blockBits other) i =
    if other = group ∧ i = index then value else bit (fs.blockBits other) i
  inodes : ∀ other < fs.esb.totalGroups, ∀ k < fs.esb.sBlksize,
    fs'.inodeBits other k = fs.inodeBits other k
  touches : Touches fs.AllocSector fs.disk fs'.disk
  groupCount : fs'.unallocBlocks group = count
  volumeCount : fs'.totalUnallocBlocks = total
  fields : ∀ other offset width, offset + width ≤ descriptorEntryLen →
    other ≠ group ∨ offset + width ≤ 12 ∨ 14 ≤ offset →
      dptField fs'.dpttable other offset width = dptField fs.dpttable other offset width
  totalInodes : fs'.totalUnallocInodes = fs.totalUnallocInodes
  sbBuf : fs'.sbBuf = write32 (write32 fs.sbBuf 12 total) 16 fs.totalUnallocInodes
  itable : fs'.itable = fs.itable

/-- The block bitmaps and the counts are those there were. -/
structure BlocksRestored (fs fs' : Fs) : Prop where
  blocks : ∀ group < fs.esb.totalGroups, ∀ i < 8 * fs.esb.sBlksize,
    bit (fs'.blockBits group) i = bit (fs.blockBits group) i
  counts : ∀ group, fs'.unallocBlocks group = fs.unallocBlocks group
  total : fs'.totalUnallocBlocks = fs.totalUnallocBlocks

/-- `apply_block` comes to an end inside the bitmap. It takes a free block of the group where there
is one, which `retake_block` gives back, and leaves all as it is where there is none. -/
def ServesGroup (fs : Fs) (group : ℕ) : Prop :=
  ∃ code block fs', fs.applyBlock group = some (code, block, fs') ∧
    (code = 0 ↔ ∃ index < 8 * fs.esb.sBlksize, bit (fs.blockBits group) index = false) ∧
    (code ≠ 0 → fs' = fs) ∧
    (code = 0 → ∃ index < 8 * fs.esb.sBlksize, bit (fs.blockBits group) index = false ∧
      block = group * fs.esb.blocksPerGroup + index ∧
      BlockMoved fs fs' group index true (fs.unallocBlocks group - 1)
        (fs.totalUnallocBlocks - 1) ∧
      ∃ fs'', fs'.retakeBlock block = (0, fs'') ∧ BlocksRestored fs fs'')

end Fs

/-- A bitmap has a first free bit exactly if it has a zero bit. -/
theorem firstFree_isSome {bitmap : Bytes} {size : ℕ} :
    (∃ index, firstFree bitmap size = some index) ↔
      ∃ index < 8 * size, bit bitmap index = false := by
  constructor
  · rintro ⟨index, first⟩
    rcases firstFree_spec first with ⟨below, free⟩
    exact ⟨index, below, free⟩
  · rintro ⟨index, below, free⟩
    rcases findByte_findBit below free with ⟨byte, found, _⟩
    exact ⟨byte * 8 + findBit (bitmap byte), by rw [firstFree, found]; rfl⟩

namespace Fs

variable {fs fs' fs'' f : Fs} {group index block count total : ℕ}

/-! ## What the calls leave in memory -/

theorem saveBitmap_memory (fs : Fs) :
    ∃ disk bitmap, fs.saveBitmap.2 = { fs with disk, bitmap } := by
  unfold saveBitmap
  split
  · exact ⟨fs.disk, fs.bitmap, rfl⟩
  · exact andThen_keeps (P := fun f => ∃ disk bitmap, f = { fs with disk, bitmap })
      ⟨_, fs.bitmap, rfl⟩ (andThen_keeps (P := fun f => ∃ disk bitmap, f = { fs with disk, bitmap })
        ⟨_, fs.bitmap, rfl⟩ ⟨_, _, rfl⟩)

theorem saveSb_memory (fs : Fs) : ∃ disk, fs.saveSb.2 = { fs with disk, sbBuf := fs.sbImage } := by
  unfold saveSb
  dsimp only
  split
  · exact ⟨_, rfl⟩
  · exact ⟨_, rfl⟩

/-- Saving without an error changes the bitmaps and the buffer of the superblock only. -/
theorem saveAll_memory (saved : fs.saveAll group = (0, fs')) :
    ∃ disk bitmap, fs' = { fs with disk, bitmap, sbBuf := fs.sbImage } := by
  rcases saveBitmap_memory fs with ⟨disk, bitmap, kept⟩
  unfold saveAll andThen at saved
  split at saved
  · rw [kept] at saved
    dsimp only at saved
    split at saved
    · generalize saveDpttable fs.esb.toExtSb fs.dpttable disk group = result at saved
      rcases saveSb_memory { fs with disk := result.2, bitmap } with ⟨disk', keptSb⟩
      exact ⟨disk', bitmap, (congrArg Prod.snd saved).symm.trans keptSb⟩
    · rename_i failed
      exact absurd (congrArg Prod.fst saved) failed
  · rename_i failed
    exact absurd (congrArg Prod.fst saved) failed

/-- `apply_block` ends with saving what it has taken. -/
theorem applyBlock_saves (ready : fs.Ready) (lt : group < fs.esb.totalGroups)
    (some : ¬(fs.totalUnallocBlocks = 0 ∨ fs.unallocBlocks 0 = 0))
    (first : firstFree (fs.blockBits group) fs.esb.sBlksize = .some index)
    (applied : fs.applyBlock group = .some (0, block, fs')) :
    ∃ disk bitmap, (({ fs with disk, bitmap } : Fs).takeBlock group index).saveAll group =
      (0, fs') := by
  rcases loadBitmap_spec ready lt with ⟨bitmap, transfers, loads, _, _, holds⟩
  have found : firstFree bitmap.blockbit fs.esb.sBlksize = .some index := by
    rw [← first]
    exact firstFree_congr fun k below => (holds k below).1
  refine ⟨{ fs.disk with transfers }, bitmap, ?_⟩
  simp only [applyBlock, some, if_false, loads, ne_eq, not_true_eq_false, found, Option.map_some,
    Option.some.injEq, Prod.mk.injEq] at applied
  exact Prod.ext applied.1 applied.2.2

theorem applyBlock_full (ready : fs.Ready) (lt : group < fs.esb.totalGroups)
    (some : ¬(fs.totalUnallocBlocks = 0 ∨ fs.unallocBlocks 0 = 0))
    (full : firstFree (fs.blockBits group) fs.esb.sBlksize = none) :
    fs.applyBlock group = none := by
  rcases loadBitmap_spec ready lt with ⟨bitmap, transfers, loads, _, _, holds⟩
  have nothing : firstFree bitmap.blockbit fs.esb.sBlksize = none := by
    rw [← full]
    exact firstFree_congr fun k below => (holds k below).1
  simp only [applyBlock, some, if_false, loads, ne_eq, not_true_eq_false, nothing, Option.map_none]

/-- `retake_block` ends with saving what it has given back. -/
theorem retakeBlock_saves (ready : fs.Ready)
    (lt : block / fs.esb.blocksPerGroup < fs.esb.totalGroups)
    (below : block % fs.esb.blocksPerGroup < 8 * fs.esb.sBlksize)
    (used : bit (fs.blockBits (block / fs.esb.blocksPerGroup)) (block % fs.esb.blocksPerGroup) =
      true)
    (retook : fs.retakeBlock block = (0, fs')) :
    ∃ disk bitmap, (({ fs with disk, bitmap } : Fs).giveBlock (block / fs.esb.blocksPerGroup)
      (block % fs.esb.blocksPerGroup)).saveAll (block / fs.esb.blocksPerGroup) = (0, fs') := by
  rcases loadBitmap_spec ready lt with ⟨bitmap, transfers, loads, _, _, holds⟩
  have marked : checkIorb bitmap.blockbit (block % fs.esb.blocksPerGroup) ≠ 0 := by
    have bits : bit bitmap.blockbit (block % fs.esb.blocksPerGroup) = true := by
      rw [← used]
      exact bit_congr (holds _ (by omega)).1
    rw [checkIorb_eq, bits]
    decide
  refine ⟨{ fs.disk with transfers }, bitmap, ?_⟩
  simpa only [retakeBlock, loads, andThen, if_true, marked, if_false] using retook

/-! ## One block -/

/-- A bitmap that changes in one bit and counts that are saved with it. -/
theorem BlocksChanged.moved {bitmap : Bytes} {value : Bool} (amount : ℕ)
    (changed : BlocksChanged fs fs' group bitmap) (saved : f.saveAll group = (0, fs'))
    (taken : ∃ disk cache, f = { fs with
      disk
      bitmap := cache
      totalUnallocBlocks := total
      dpttable := setDptField fs.dpttable group 12 2 amount })
    (lt : group < fs.esb.totalGroups)
    (bits : ∀ i, bit bitmap i = if i = index then value else bit (fs.blockBits group) i)
    (isCount : amount % 65536 = count) : BlockMoved fs fs' group index value count total := by
  rcases taken with ⟨disk, cache, rfl⟩
  rcases saveAll_memory saved with ⟨disk', cache', rfl⟩
  refine ⟨changed.ready, rfl, ?_, changed.inodes, changed.touches, ?_, rfl, ?_, rfl, rfl, rfl⟩
  · intro other otherLt i below
    have byte : i / 8 < fs.esb.sBlksize := by omega
    by_cases isGroup : other = group
    · subst isGroup
      rw [bit_congr (changed.changed _ byte), bits]
      simp only [true_and]
    · rw [bit_congr (changed.others other otherLt isGroup _ byte), if_neg fun both =>
        isGroup both.1]
  · rw [unallocBlocks, dptField_setDptField]
    exact isCount
  · intro other offset width fits apart
    refine dptField_setDptField_ne (by decide) fits ?_
    rcases apart with ne | before | behind
    · exact Or.inl ne
    · exact Or.inr (Or.inl before)
    · exact Or.inr (Or.inr behind)

/-- A block that is counted is taken. -/
theorem applyBlock_moved (ready : fs.Ready) (counts : fs.CountsBlocks)
    (lt : group < fs.esb.totalGroups)
    (some : ¬(fs.totalUnallocBlocks = 0 ∨ fs.unallocBlocks 0 = 0))
    (first : firstFree (fs.blockBits group) fs.esb.sBlksize = .some index) :
    ∃ fs', fs.applyBlock group = .some (0, group * fs.esb.blocksPerGroup + index, fs') ∧
      BlockMoved fs fs' group index true (fs.unallocBlocks group - 1)
        (fs.totalUnallocBlocks - 1) := by
  rcases firstFree_spec first with ⟨below, free⟩
  have number := (counts.padding group lt index below free).2
  rcases applyBlock_spec ready lt some first with ⟨fs', applied, changed⟩
  rw [u32_of_lt number] at applied
  rcases applyBlock_saves ready lt some first applied with ⟨disk, bitmap, saved⟩
  have counted : 0 < fs.unallocBlocks group := by
    rw [counts.groups group lt]
    exact zeroBits_pos.mpr ⟨index, below, free⟩
  have word : fs.unallocBlocks group < 65536 := readLE_lt _ _ 2
  have total : sub32 fs.totalUnallocBlocks 1 = fs.totalUnallocBlocks - 1 :=
    sub32_of_le (by omega) counts.small
  rw [← total]
  refine ⟨fs', applied, changed.moved (fs.unallocBlocks group + 65535) saved ⟨disk,
    { bitmap with blockbit := setBit bitmap.blockbit index, dirty := true }, rfl⟩ lt (fun i => ?_)
    (by omega)⟩
  by_cases here : i = index
  · simp [here]
  · simp [here]

theorem BlockMoved.retakeBlock (counts : fs.CountsBlocks) (lt : group < fs.esb.totalGroups)
    (below : index < 8 * fs.esb.sBlksize) (free : bit (fs.blockBits group) index = false)
    (moved : BlockMoved fs fs' group index true (fs.unallocBlocks group - 1)
      (fs.totalUnallocBlocks - 1)) (some : fs.totalUnallocBlocks ≠ 0) :
    ∃ fs'', fs'.retakeBlock (group * fs.esb.blocksPerGroup + index) = (0, fs'') ∧
      BlockMoved fs' fs'' group index false (fs.unallocBlocks group) fs.totalUnallocBlocks := by
  rcases counts.padding group lt index below free with ⟨inside, _⟩
  have counted : 0 < fs.unallocBlocks group := by
    rw [counts.groups group lt]
    exact zeroBits_pos.mpr ⟨index, below, free⟩
  have word : fs.unallocBlocks group < 65536 := readLE_lt _ _ 2
  have isGroup : (group * fs.esb.blocksPerGroup + index) / fs'.esb.blocksPerGroup = group := by
    rw [moved.esb, Nat.mul_comm, Nat.mul_add_div (by omega), Nat.div_eq_of_lt inside, Nat.add_zero]
  have isIndex : (group * fs.esb.blocksPerGroup + index) % fs'.esb.blocksPerGroup = index := by
    rw [moved.esb, Nat.mul_comm, Nat.mul_add_mod, Nat.mod_eq_of_lt inside]
  have lt' : group < fs'.esb.totalGroups := moved.esb ▸ lt
  have below' : index < 8 * fs'.esb.sBlksize := moved.esb ▸ below
  have used : bit (fs'.blockBits group) index = true := by
    rw [moved.blocks group lt index below, if_pos ⟨rfl, rfl⟩]
  have spec := @retakeBlock_spec fs' (group * fs.esb.blocksPerGroup + index) moved.ready
  rw [isGroup, isIndex] at spec
  rcases spec lt' below' used with ⟨fs'', retook, changed⟩
  have saves := @retakeBlock_saves fs' fs'' (group * fs.esb.blocksPerGroup + index) moved.ready
  rw [isGroup, isIndex] at saves
  rcases saves lt' below' used retook with ⟨disk, bitmap, saved⟩
  have total : u32 (fs'.totalUnallocBlocks + 1) = fs.totalUnallocBlocks := by
    rw [moved.volumeCount, Nat.sub_add_cancel (by omega)]
    exact u32_of_lt counts.small
  have count : fs'.unallocBlocks group + 1 = fs.unallocBlocks group := by
    rw [moved.groupCount]
    omega
  rw [← total]
  refine ⟨fs'', retook, changed.moved (fs'.unallocBlocks group + 1) saved ⟨disk,
    { bitmap with blockbit := clearBit bitmap.blockbit index, dirty := true }, rfl⟩ lt'
    (fun i => ?_) (by omega)⟩
  by_cases here : i = index
  · simp [here]
  · simp [here]

theorem BlockMoved.restored (free : bit (fs.blockBits group) index = false)
    (taken : BlockMoved fs fs' group index true count total)
    (given : BlockMoved fs' fs'' group index false (fs.unallocBlocks group) fs.totalUnallocBlocks) :
    BlocksRestored fs fs'' := by
  refine ⟨fun other otherLt i below => ?_, fun other => ?_, given.volumeCount⟩
  · rw [given.blocks other (taken.esb ▸ otherLt) i (taken.esb ▸ below),
      taken.blocks other otherLt i below]
    split
    · rename_i here
      rw [here.1, here.2, free]
    · rfl
  · by_cases isGroup : other = group
    · rw [isGroup, given.groupCount]
    · exact (given.fields other 12 2 (by decide) (Or.inl isGroup)).trans
        (taken.fields other 12 2 (by decide) (Or.inl isGroup))

theorem CountsBlocks.group_full (counts : fs.CountsBlocks) (none : fs.totalUnallocBlocks = 0)
    (lt : group < fs.esb.totalGroups) : fs.unallocBlocks group = 0 := by
  rw [counts.groups group lt]
  rw [counts.total, Finset.sum_eq_zero_iff] at none
  exact none group (Finset.mem_range.mpr lt)

/-- `apply_block` serves a group exactly if it is as full as group 0. -/
theorem servesGroup_iff (ready : fs.Ready) (counts : fs.CountsBlocks)
    (lt : group < fs.esb.totalGroups) :
    fs.ServesGroup group ↔ (fs.unallocBlocks 0 = 0 ↔ fs.unallocBlocks group = 0) := by
  have zero : 0 < fs.esb.totalGroups := by omega
  have isFree : 0 < fs.unallocBlocks group ↔
      ∃ index < 8 * fs.esb.sBlksize, bit (fs.blockBits group) index = false := by
    rw [counts.groups group lt]
    exact zeroBits_pos
  by_cases refused : fs.totalUnallocBlocks = 0 ∨ fs.unallocBlocks 0 = 0
  · have firstFull : fs.unallocBlocks 0 = 0 :=
      refused.elim (fun none => counts.group_full none zero) id
    have applied : fs.applyBlock group = some (1, 0, fs) := if_pos refused
    constructor
    · rintro ⟨code, block, fs', applied', isCode, _⟩
      rw [applied] at applied'
      cases applied'
      have notFree := mt isCode.mpr Nat.one_ne_zero
      rw [← isFree] at notFree
      exact iff_of_true firstFull (by omega)
    · intro alike
      refine ⟨1, 0, fs, applied, ?_, fun _ => rfl, fun isZero => absurd isZero Nat.one_ne_zero⟩
      rw [← isFree, alike.mp firstFull]
      decide
  · have zeroFree : fs.unallocBlocks 0 ≠ 0 := fun full => refused (Or.inr full)
    constructor
    · rintro ⟨code, block, fs', applied, _⟩
      refine iff_of_false zeroFree fun full => ?_
      have none : Ext2.firstFree (fs.blockBits group) fs.esb.sBlksize = none := by
        rw [Option.eq_none_iff_forall_ne_some]
        intro index first
        have free := isFree.mpr (firstFree_isSome.mp ⟨index, first⟩)
        omega
      rw [applyBlock_full ready lt refused none] at applied
      cases applied
    · intro alike
      have someFree := isFree.mp (Nat.pos_of_ne_zero fun full => zeroFree (alike.mpr full))
      rcases firstFree_isSome.mpr someFree with ⟨index, first⟩
      rcases firstFree_spec first with ⟨below, free⟩
      rcases applyBlock_moved ready counts lt refused first with ⟨fs', applied, moved⟩
      rcases moved.retakeBlock counts lt below free (fun none => refused (Or.inl none)) with
        ⟨fs'', retook, given⟩
      refine ⟨0, _, fs', applied, iff_of_true rfl someFree, fun failed => absurd rfl failed,
        fun _ => ⟨index, below, free, rfl, moved, fs'', retook, moved.restored free given⟩⟩

/-! ## Volumes of two groups -/

/-- Blocks of 1024 bytes, 8192 in each of two groups. -/
def pairGeometry : Geometry where
  sBase := 0
  blocksizeFactor := 0
  totalGroups := 2
  blocksPerGroup := 8192
  inodesPerGroup := 8
  inodeSize := 128

/-- Two groups, with the bitmaps of each in two blocks from block 3 and block 7 on and its inodes
behind them. Block 0 of one of the groups is free, all others are in use. -/
def twoGroups (second : Bool) : Fs where
  esb := pairGeometry
  disk :=
    { sector := fun id k => if id = (if second then 14 else 6) ∧ k = 0 then 0xfe else 0xff
      fault := fun _ _ => 0
      transfers := 0
      written := [] }
  dpttable := setDptField (setDptField (setDptField (setDptField (setDptField (setDptField
    (setDptField zeros 0 0 4 3) 0 4 4 4) 0 8 4 5) 1 0 4 7) 1 4 4 8) 1 8 4 9)
    second.toNat 12 2 1
  totalUnallocInodes := 0
  totalUnallocBlocks := 1
  sbBuf := zeros
  bitmap := ⟨minusOne32, false, zeros, zeros⟩
  itable := ⟨minusOne32, minusOne32, false, zeros⟩

theorem twoGroups_fields : ∀ second, ∀ group < 2,
    (twoGroups second).blockBitmapBase group = 4 * group + 3 ∧
    (twoGroups second).inodeBitmapBase group = 4 * group + 4 ∧
    (twoGroups second).inodeTableBase group = 4 * group + 5 ∧
    (twoGroups second).unallocBlocks group = if group = second.toNat then 1 else 0 := by
  decide +kernel

theorem twoGroups_layout (second : Bool) : (twoGroups second).Layout := by
  have bases := twoGroups_fields second
  have inTable : ∀ group < 2, ∀ block, (twoGroups second).InItable group block →
      block = 4 * group + 5 := by
    rintro group lt block ⟨index, below, rfl⟩
    change index < 8 at below
    change (twoGroups second).inodeTableBase group + index * 128 / 1024 = _
    rw [(bases group lt).2.2.1]
    omega
  refine
    { valid := (by constructor <;> decide : pairGeometry.Valid)
      inodeSize := (by decide : 128 ≤ 128 ∧ 128 < 65536 ∧ 128 ∣ 1024)
      inodes := (by decide : 8 ≤ 8 * 1024 ∧ 8 < 65536)
      total := (by decide : 2 * 8 < 4294967296)
      onCard := ?_
      blocksApart := ?_
      inodesApart := ?_
      bitmapsApart := ?_
      tablesApart := ?_
      recordsApart := ?_ }
  · intro group lt
    change group < 2 at lt
    rw [(bases group lt).1, (bases group lt).2.1]
    refine ⟨?_, ?_, fun block inside => ?_⟩
    · change pairGeometry.OnCard _
      change 0 + (4 * group + 3 + 1) * 2 ≤ 4294967296
      omega
    · change pairGeometry.OnCard _
      change 0 + (4 * group + 4 + 1) * 2 ≤ 4294967296
      omega
    · rw [inTable group lt block inside]
      change pairGeometry.OnCard _
      change 0 + (4 * group + 5 + 1) * 2 ≤ 4294967296
      omega
  · intro group lt other otherLt
    rw [(bases group lt).1, (bases other otherLt).1]
    omega
  · intro group lt other otherLt
    rw [(bases group lt).2.1, (bases other otherLt).2.1]
    omega
  · intro group lt other otherLt
    rw [(bases group lt).1, (bases other otherLt).2.1]
    omega
  · intro group lt other otherLt block inside
    rw [inTable other otherLt block inside, (bases group lt).1, (bases group lt).2.1]
    omega
  · intro group lt id record
    change group < 2 at lt
    rw [(bases group lt).1, (bases group lt).2.1]
    have apart : id < 6 ∨ 16384 ≤ id := by
      change pairGeometry.DescriptorSector id ∨ pairGeometry.SuperblockSector id at record
      rcases record with descriptor | primary | ⟨copy, mem, isCopy⟩
      · exact Or.inl descriptor.2
      · rw [primary]
        exact Or.inl (by decide : u32 (0 + 2) < 6)
      · have only : copy = 1 := List.mem_singleton.mp mem
        rw [isCopy, only]
        exact Or.inr (by decide : 16384 ≤ u32 (0 + 1 * 8192 * 2))
    change ¬pairGeometry.InBlock _ id ∧ ¬pairGeometry.InBlock _ id
    constructor
    · rintro ⟨_, inBlock⟩
      change (id - 0) / 2 = 4 * group + 3 at inBlock
      omega
    · rintro ⟨_, inBlock⟩
      change (id - 0) / 2 = 4 * group + 4 at inBlock
      omega

theorem twoGroups_ready (second : Bool) : (twoGroups second).Ready :=
  ⟨twoGroups_layout second, fun _ _ _ => rfl, ⟨rfl, rfl⟩, Or.inl rfl⟩

theorem twoGroups_bit (second : Bool) (lt : group < 2) (below : index < 8192) :
    bit ((twoGroups second).blockBits group) index =
      !decide (group = second.toNat ∧ index = 0) := by
  have byte : (twoGroups second).blockBits group (index / 8) =
      if group = second.toNat ∧ index / 8 = 0 then 0xfe else 0xff := by
    rw [blockBits, (twoGroups_fields second group lt).1]
    change pairGeometry.blockBytes (twoGroups second).disk (4 * group + 3) (index / 8) = _
    change (if u32 (0 + (4 * group + 3) * 2) + index / 8 / 512 = (if second then 14 else 6) ∧
      index / 8 % 512 = 0 then 0xfe else 0xff : UInt8) = _
    rw [u32_of_lt (by omega)]
    refine if_congr ?_ rfl rfl
    cases second with
    | false =>
        change _ = 6 ∧ _ ↔ group = 0 ∧ _
        omega
    | true =>
        change _ = 14 ∧ _ ↔ group = 1 ∧ _
        omega
  have small : index % 8 < 8 := Nat.mod_lt _ (by decide)
  rw [bit, byte]
  split
  · rename_i first
    have low : index < 8 := by omega
    have bits : ∀ i < 8, (0xfe : UInt8).toNat.testBit (i % 8) = !decide (i = 0) := by decide
    rw [bits index low, decide_eq_decide.mpr (and_iff_right first.1)]
  · rename_i other
    have notFirst : ¬(group = second.toNat ∧ index = 0) := fun first =>
      other ⟨first.1, by rw [first.2]⟩
    rw [decide_eq_false notFirst]
    exact byte_full.mp rfl _ small

theorem twoGroups_freeBlocks (second : Bool) (lt : group < 2) :
    (twoGroups second).freeBlocks group = if group = second.toNat then 1 else 0 := by
  have bits := fun index below => @twoGroups_bit group index second lt below
  change zeroBits ((twoGroups second).blockBits group) 8192 = _
  split
  · rename_i isFree
    have zero : bit ((twoGroups second).blockBits group) 0 = false := by
      rw [bits 0 (by decide), decide_eq_true ⟨isFree, rfl⟩]
      rfl
    have none : ¬0 < zeroBits (setBit ((twoGroups second).blockBits group) 0) 8192 := by
      rw [zeroBits_pos]
      rintro ⟨index, below, free⟩
      rw [bit_setBit, bits index below] at free
      simp_all
    rw [zeroBits_setBit (by decide) zero]
    omega
  · rename_i isFull
    have none : ¬0 < zeroBits ((twoGroups second).blockBits group) 8192 := by
      rw [zeroBits_pos]
      rintro ⟨index, below, free⟩
      rw [bits index below, decide_eq_false fun both => isFull both.1] at free
      cases free
    omega

theorem twoGroups_countsBlocks (second : Bool) : (twoGroups second).CountsBlocks := by
  refine ⟨fun group lt => ?_, ?_, (by decide : 1 < 4294967296), fun group lt index below free => ?_⟩
  · rw [twoGroups_freeBlocks second lt, (twoGroups_fields second group lt).2.2.2]
  · change 1 = ∑ group ∈ Finset.range 2, (twoGroups second).freeBlocks group
    rw [Finset.sum_range_succ, Finset.sum_range_succ, Finset.sum_range_zero,
      twoGroups_freeBlocks second (by decide), twoGroups_freeBlocks second (by decide)]
    cases second with
    | false => rfl
    | true => rfl
  · change group < 2 at lt
    change index < 8192 at below
    rw [twoGroups_bit second lt below, Bool.not_eq_false', decide_eq_true_iff] at free
    change index < 8192 ∧ group * 8192 + index < 4294967296
    omega

/-- In the first group there is a block, and `apply_block` takes it. -/
theorem servesGroup_iff_twoGroups : (twoGroups false).ServesGroup 0 :=
  (servesGroup_iff (twoGroups_ready false) (twoGroups_countsBlocks false) (by decide)).mpr Iff.rfl

/-- A full group beside one with a free block is not noticed, and a group with a free block beside
a full one is refused. -/
theorem not_servesGroup_second :
    (∀ second, (twoGroups second).Ready ∧ (twoGroups second).CountsBlocks) ∧
      1 < pairGeometry.totalGroups ∧
      (twoGroups false).applyBlock 1 = none ∧ ¬(twoGroups false).ServesGroup 1 ∧
      (twoGroups true).applyBlock 1 = some (1, 0, twoGroups true) ∧
      ¬(twoGroups true).ServesGroup 1 := by
  have fields := fun second => (twoGroups_fields second 0 (by decide)).2.2.2
  have missed : (twoGroups false).applyBlock 1 = none := by
    apply applyBlock_full (twoGroups_ready false) (by decide)
    · rw [fields]
      exact (by decide : ¬(1 = 0 ∨ 1 = 0))
    · rw [Option.eq_none_iff_forall_ne_some]
      intro index first
      rcases firstFree_spec first with ⟨below, free⟩
      rw [twoGroups_bit false (by decide) below] at free
      simp at free
  have refused : (twoGroups true).applyBlock 1 = some (1, 0, twoGroups true) :=
    if_pos (Or.inr (fields true))
  refine ⟨fun second => ⟨twoGroups_ready second, twoGroups_countsBlocks second⟩, by decide, missed,
    ?_, refused, ?_⟩
  · rintro ⟨code, block, fs', applied, _⟩
    rw [missed] at applied
    cases applied
  · rintro ⟨code, block, fs', applied, isCode, _⟩
    rw [refused] at applied
    cases applied
    refine absurd (isCode.mpr ⟨0, (by decide : 0 < 8192), ?_⟩) Nat.one_ne_zero
    rw [twoGroups_bit true (by decide) (by decide)]
    rfl

end Fs

end Ninix.Ext2
