import Ninix.Ext2.BlockMap
import Ninix.Library.Reachability

/-!
# The inode tables as an array

Through the one block of an inode table that is in memory, `read_xinode` and `write_xinode` act on
an array of records, one for each inode: a record read is the one written last, and a record
written leaves the others as they are, on the card and in the block.
-/

namespace Ninix.Ext2

open ByteBuffer TransitionSystem

namespace Fs

variable {fs : Fs} {group block ino other k : ℕ}

/--
Where the inode tables lie. An inode has a size that divides a block, the inodes of a group have
room in its bitmap and the offsets in its table 32 bits, and no two groups share a block of their
tables.
-/
structure TableLayout (fs : Fs) : Prop where
  inodeSize : inodeSizeValid ≤ fs.esb.inodeSize ∧ fs.esb.inodeSize ∣ fs.esb.sBlksize
  inodes : fs.esb.inodesPerGroup ≤ 8 * fs.esb.sBlksize ∧
    fs.esb.inodesPerGroup * fs.esb.inodeSize ≤ 4294967296
  onCard : ∀ group < fs.esb.totalGroups, fs.esb.OnCard (fs.blockBitmapBase group) ∧
    fs.esb.OnCard (fs.inodeBitmapBase group) ∧
    ∀ block, fs.InItable group block → fs.esb.OnCard block
  tablesApart : ∀ group < fs.esb.totalGroups, ∀ other < fs.esb.totalGroups, ∀ block,
    fs.InItable group block → fs.InItable other block → group = other

/-- The inode is one of a group of the volume. -/
def HasInode (fs : Fs) (ino : ℕ) : Prop :=
  1 ≤ ino ∧ ino < 4294967296 ∧ 0 < fs.esb.inodesPerGroup ∧ fs.inodeGroup ino < fs.esb.totalGroups

instance (fs : Fs) (ino : ℕ) : Decidable (fs.HasInode ino) := inferInstanceAs (Decidable (_ ∧ _))

/-- The inode is marked in the bitmap that `load_bitmap` brings in. -/
def Marked (fs : Fs) (ino : ℕ) : Prop :=
  checkIorb (fs.loadBitmap (fs.inodeGroup ino)).2.bitmap.inodebit (fs.inodeIndex ino) ≠ 0

instance (fs : Fs) (ino : ℕ) : Decidable (fs.Marked ino) := inferInstanceAs (Decidable (_ ≠ _))

/-- The block that holds an inode. -/
def tableBlock (fs : Fs) (ino : ℕ) : ℕ :=
  fs.inodeTableBase (fs.inodeGroup ino) + fs.inodeBlock (fs.inodeIndex ino)

/-- A byte of the record of an inode on the card. -/
def recordByte (fs : Fs) (ino k : ℕ) : UInt8 :=
  fs.esb.blockBytes fs.disk (fs.tableBlock ino) (fs.inodeOffset (fs.inodeIndex ino) + k)

/-- The cached block is that of the table of a group on the card, once one has been loaded. -/
def TableCached (fs : Fs) : Prop :=
  fs.itable.group = minusOne32 ∨
    ∀ k < fs.esb.sBlksize, fs.itable.buf k =
      fs.esb.blockBytes fs.disk (fs.inodeTableBase fs.itable.group + fs.itable.block) k

/-- Nothing is dirty, the card does not fail, and the cached block is that on the card. -/
structure TableReady (fs : Fs) : Prop where
  layout : fs.TableLayout
  reliable : fs.disk.Reliable
  clean : fs.bitmap.dirty = false ∧ fs.itable.dirty = false
  cached : fs.TableCached

/-! ## Records in blocks -/

theorem HasInode.index_lt (has : fs.HasInode ino) : fs.inodeIndex ino < fs.esb.inodesPerGroup :=
  Nat.mod_lt _ has.2.2.1

theorem HasInode.group_ne (has : fs.HasInode ino) : fs.inodeGroup ino ≠ minusOne32 := by
  have le : fs.inodeGroup ino ≤ sub32 ino 1 := Nat.div_le_self _ _
  rw [sub32_of_le has.1 has.2.1] at le
  have bound := has.2.1
  unfold minusOne32
  omega

theorem TableLayout.size_pos (layout : fs.TableLayout) : 0 < fs.esb.inodeSize :=
  Nat.lt_of_lt_of_le (by decide) layout.inodeSize.1

theorem TableLayout.inodeBlock_eq (layout : fs.TableLayout) (has : fs.HasInode ino) :
    fs.inodeBlock (fs.inodeIndex ino) = fs.inodeIndex ino * fs.esb.inodeSize / fs.esb.sBlksize := by
  have bound := Nat.mul_lt_mul_of_pos_right has.index_lt layout.size_pos
  rw [inodeBlock, u32_of_lt (bound.trans_le layout.inodes.2)]

theorem TableLayout.inItable (layout : fs.TableLayout) (has : fs.HasInode ino) :
    fs.InItable (fs.inodeGroup ino) (fs.tableBlock ino) :=
  ⟨fs.inodeIndex ino, has.index_lt, by rw [tableBlock, layout.inodeBlock_eq has]⟩

theorem TableLayout.tableOnCard (layout : fs.TableLayout) (has : fs.HasInode ino) :
    fs.esb.OnCard (fs.tableBlock ino) :=
  (layout.onCard _ has.2.2.2).2.2 _ (layout.inItable has)

theorem sBlksize_pos (esb : ExtSb) : 0 < esb.sBlksize := by
  unfold ExtSb.sBlksize
  positivity

/-- The number of records in a block. -/
theorem TableLayout.perBlock (layout : fs.TableLayout) :
    fs.esb.inodeSize * (fs.esb.sBlksize / fs.esb.inodeSize) = fs.esb.sBlksize ∧
      0 < fs.esb.sBlksize / fs.esb.inodeSize := by
  have le := Nat.le_of_dvd (sBlksize_pos fs.esb.toExtSb) layout.inodeSize.2
  exact ⟨Nat.mul_div_cancel' layout.inodeSize.2, Nat.div_pos le layout.size_pos⟩

/-- A record lies in its block. -/
theorem TableLayout.offset_le (layout : fs.TableLayout) (index : ℕ) :
    fs.inodeOffset index + fs.esb.inodeSize ≤ fs.esb.sBlksize := by
  rcases layout.perBlock with ⟨whole, positive⟩
  have below := Nat.mod_lt index positive
  have le := Nat.mul_le_mul_right fs.esb.inodeSize below
  rw [Nat.succ_mul, Nat.mul_comm (_ / _), whole] at le
  exact le

theorem TableLayout.inodeBlock_div (layout : fs.TableLayout) (has : fs.HasInode ino) :
    fs.inodeBlock (fs.inodeIndex ino) =
      fs.inodeIndex ino / (fs.esb.sBlksize / fs.esb.inodeSize) := by
  rw [layout.inodeBlock_eq has]
  conv_lhs => rw [← layout.perBlock.1, Nat.mul_comm fs.esb.inodeSize]
  exact Nat.mul_div_mul_right _ _ layout.size_pos

/-- An inode is determined by its group and its place there. -/
theorem HasInode.eq (has : fs.HasInode ino) (hasOther : fs.HasInode other)
    (sameGroup : fs.inodeGroup other = fs.inodeGroup ino)
    (sameIndex : fs.inodeIndex other = fs.inodeIndex ino) : other = ino := by
  have numbers : sub32 other 1 = sub32 ino 1 := by
    have split := Nat.div_add_mod (sub32 ino 1) fs.esb.inodesPerGroup
    have splitOther := Nat.div_add_mod (sub32 other 1) fs.esb.inodesPerGroup
    unfold inodeGroup at sameGroup
    unfold inodeIndex at sameIndex
    rw [sameGroup, sameIndex] at splitOther
    exact splitOther.symm.trans split
  have value := sub32_of_le has.1 has.2.1
  have valueOther := sub32_of_le hasOther.1 hasOther.2.1
  have lower := has.1
  have lower' := hasOther.1
  omega

/-- The records of two inodes in one block are apart. -/
theorem TableLayout.apart (layout : fs.TableLayout) (has : fs.HasInode ino)
    (hasOther : fs.HasInode other) (ne : other ≠ ino)
    (same : fs.tableBlock other = fs.tableBlock ino) :
    fs.inodeOffset (fs.inodeIndex other) + fs.esb.inodeSize ≤ fs.inodeOffset (fs.inodeIndex ino) ∨
      fs.inodeOffset (fs.inodeIndex ino) + fs.esb.inodeSize ≤
        fs.inodeOffset (fs.inodeIndex other) := by
  have inOther := layout.inItable hasOther
  have inTable := layout.inItable has
  rw [← same] at inTable
  have sameGroup : fs.inodeGroup other = fs.inodeGroup ino :=
    layout.tablesApart _ hasOther.2.2.2 _ has.2.2.2 _ inOther inTable
  have sameBlock : fs.inodeBlock (fs.inodeIndex other) = fs.inodeBlock (fs.inodeIndex ino) := by
    rw [tableBlock, tableBlock, sameGroup] at same
    exact Nat.add_left_cancel same
  rw [layout.inodeBlock_div has, layout.inodeBlock_div hasOther] at sameBlock
  have places : fs.inodeIndex other % (fs.esb.sBlksize / fs.esb.inodeSize) ≠
      fs.inodeIndex ino % (fs.esb.sBlksize / fs.esb.inodeSize) := by
    intro samePlace
    refine ne (has.eq hasOther sameGroup ?_)
    rw [← Nat.div_add_mod (fs.inodeIndex other) (fs.esb.sBlksize / fs.esb.inodeSize), sameBlock,
      samePlace, Nat.div_add_mod]
  unfold inodeOffset
  rcases Nat.lt_or_gt_of_ne places with before | behind
  · left
    rw [← Nat.succ_mul]
    exact Nat.mul_le_mul_right _ before
  · right
    rw [← Nat.succ_mul]
    exact Nat.mul_le_mul_right _ behind

/-! ## The two calls -/

/-- `load_bitmap` with clean bitmaps only reads. -/
theorem TableReady.loadBitmap (ready : fs.TableReady) (lt : group < fs.esb.totalGroups) :
    ∃ bitmap transfers, fs.loadBitmap group =
      (0, { fs with bitmap, disk := { fs.disk with transfers } }) ∧ bitmap.dirty = false := by
  rcases ready.layout.onCard group lt with ⟨blockOn, inodeOn, _⟩
  unfold Fs.loadBitmap
  by_cases loaded : fs.bitmap.bg = group
  · rw [if_pos loaded]
    exact ⟨fs.bitmap, fs.disk.transfers, rfl, ready.clean.1⟩
  · rcases readBlock_block ready.reliable blockOn fs.bitmap.blockbit with
      ⟨blockbit, transfers, readBlocks, _⟩
    have reliableMid : ({ fs.disk with transfers } : Disk).Reliable := ready.reliable
    rcases readBlock_block reliableMid inodeOn fs.bitmap.inodebit with
      ⟨inodebit, transfers', readInodes, _⟩
    refine ⟨⟨group, false, blockbit, inodebit⟩, transfers', ?_, rfl⟩
    rw [if_neg loaded]
    simp only [ready.clean.1, Bool.false_eq_true, if_false, readBlocks, andThen, if_true]
    simp only [inodeBitmapBase] at readInodes ⊢
    simp only [readInodes, if_true]

/-- `load_itable` brings in the block of an inode as it is on the card. -/
theorem TableReady.loadItable (ready : fs.TableReady) (has : fs.HasInode ino) :
    ∃ buf transfers, fs.loadItable (fs.inodeGroup ino) (fs.inodeBlock (fs.inodeIndex ino)) =
      (0, { fs with
        itable := ⟨fs.inodeGroup ino, fs.inodeBlock (fs.inodeIndex ino), false, buf⟩
        disk := { fs.disk with transfers } }) ∧
      ∀ k < fs.esb.sBlksize, buf k = fs.esb.blockBytes fs.disk (fs.tableBlock ino) k := by
  unfold Fs.loadItable
  by_cases loaded : fs.itable.group = fs.inodeGroup ino ∧
      fs.itable.block = fs.inodeBlock (fs.inodeIndex ino)
  · rw [if_pos loaded]
    refine ⟨fs.itable.buf, fs.disk.transfers, ?_, ?_⟩
    · rw [← loaded.1, ← loaded.2, ← ready.clean.2]
    · rcases ready.cached with unset | cached
      · exact absurd (loaded.1.symm.trans unset) has.group_ne
      · rw [tableBlock, ← loaded.1, ← loaded.2]
        exact cached
  · rcases readBlock_block ready.reliable (ready.layout.tableOnCard has) fs.itable.buf with
      ⟨buf, transfers, read, bytes⟩
    refine ⟨buf, transfers, ?_, bytes⟩
    rw [if_neg loaded]
    rw [tableBlock] at read
    simp only [ready.clean.2, Bool.false_eq_true, if_false, andThen, if_true, read]

/-- The table once the block of an inode has been brought in and may have been written. -/
structure TableCall (fs : Fs) (ino : ℕ) (itable : ItableBlock) (disk : Disk) : Prop where
  loaded : itable.group = fs.inodeGroup ino ∧ itable.block = fs.inodeBlock (fs.inodeIndex ino)
  clean : itable.dirty = false
  cached : ∀ k < fs.esb.sBlksize, itable.buf k = fs.esb.blockBytes disk (fs.tableBlock ino) k
  touches : Touches (fs.esb.InBlock (fs.tableBlock ino)) fs.disk disk

theorem TableLayout.of_caches (layout : fs.TableLayout) {bitmap : BitmapCache}
    {itable : ItableBlock} {disk : Disk} :
    ({ fs with bitmap, itable, disk } : Fs).TableLayout :=
  ⟨layout.inodeSize, layout.inodes, layout.onCard, layout.tablesApart⟩

theorem TableReady.call (ready : fs.TableReady) {bitmap : BitmapCache} {itable : ItableBlock}
    {disk : Disk} (clean : bitmap.dirty = false) (call : fs.TableCall ino itable disk) :
    ({ fs with bitmap, itable, disk } : Fs).TableReady := by
  refine ⟨ready.layout.of_caches, call.touches.reliable ready.reliable, ⟨clean, call.clean⟩,
    Or.inr ?_⟩
  intro k lt
  have here := call.cached k lt
  rw [tableBlock, ← call.loaded.1, ← call.loaded.2] at here
  exact here

/-- Both calls bring in the bitmaps, find the inode marked and bring in its block. -/
theorem TableReady.loads (ready : fs.TableReady) (has : fs.HasInode ino) (marked : fs.Marked ino) :
    ∃ mid buf transfers, fs.loadBitmap (fs.inodeGroup ino) = (0, mid) ∧
      checkIorb mid.bitmap.inodebit (fs.inodeIndex ino) ≠ 0 ∧
      mid.loadItable (fs.inodeGroup ino) (mid.inodeBlock (fs.inodeIndex ino)) =
        (0, { fs with
          bitmap := mid.bitmap
          itable := ⟨fs.inodeGroup ino, fs.inodeBlock (fs.inodeIndex ino), false, buf⟩
          disk := { fs.disk with transfers } }) ∧
      mid.bitmap.dirty = false ∧
      ∀ k < fs.esb.sBlksize, buf k = fs.esb.blockBytes fs.disk (fs.tableBlock ino) k := by
  rcases ready.loadBitmap has.2.2.2 with ⟨bitmap, transfers, loadsBitmap, clean⟩
  have readyMid : ({ fs with bitmap, disk := { fs.disk with transfers } } : Fs).TableReady :=
    ⟨ready.layout.of_caches, ready.reliable, ⟨clean, ready.clean.2⟩, ready.cached⟩
  rcases readyMid.loadItable has with ⟨buf, transfers', loads, bytes⟩
  unfold Marked at marked
  rw [loadsBitmap] at marked
  exact ⟨_, buf, transfers', loadsBitmap, marked, loads, clean, bytes⟩

/-- `read_xinode` brings in the block of the inode and copies its record. -/
theorem TableReady.readXinode (ready : fs.TableReady) (has : fs.HasInode ino)
    (marked : fs.Marked ino) (buffer : Bytes) :
    ∃ out bitmap itable transfers, fs.readXinode ino buffer =
        (0, out, { fs with bitmap, itable, disk := { fs.disk with transfers } }) ∧
      bitmap = (fs.loadBitmap (fs.inodeGroup ino)).2.bitmap ∧ bitmap.dirty = false ∧
      fs.TableCall ino itable { fs.disk with transfers } ∧
      ∀ k < inodeSizeValid, out k = fs.recordByte ino k := by
  rcases ready.loads has marked with
    ⟨mid, buf, transfers, loadsBitmap, isMarked, loads, clean, bytes⟩
  refine ⟨blit buffer 0 buf (fs.inodeOffset (fs.inodeIndex ino)) inodeSizeValid, mid.bitmap,
    ⟨fs.inodeGroup ino, fs.inodeBlock (fs.inodeIndex ino), false, buf⟩, transfers, ?_,
    by rw [loadsBitmap], clean, ⟨⟨rfl, rfl⟩, rfl, bytes, .read transfers⟩, ?_⟩
  · unfold Fs.readXinode
    simp only [loadsBitmap, ne_eq, not_true_eq_false, if_false, isMarked, loads]
    rfl
  · intro k lt
    have inside := ready.layout.offset_le (fs.inodeIndex ino)
    have atLeast := ready.layout.inodeSize.1
    rw [blit_inside (Nat.zero_le _) (by omega), Nat.sub_zero, bytes _ (by omega)]
    rfl

/-- `write_xinode` puts the record into the block of the inode, in memory and on the card. -/
theorem TableReady.writeXinode (ready : fs.TableReady) (has : fs.HasInode ino)
    (marked : fs.Marked ino) (xinode : Bytes) :
    ∃ bitmap itable disk, fs.writeXinode ino xinode = (0, { fs with bitmap, itable, disk }) ∧
      bitmap = (fs.loadBitmap (fs.inodeGroup ino)).2.bitmap ∧ bitmap.dirty = false ∧
      fs.TableCall ino itable disk ∧
      ∀ k < fs.esb.sBlksize, itable.buf k =
        blit (fs.esb.blockBytes fs.disk (fs.tableBlock ino)) (fs.inodeOffset (fs.inodeIndex ino))
          xinode 0 inodeSizeValid k := by
  rcases ready.loads has marked with
    ⟨mid, buf, transfers, loadsBitmap, isMarked, loads, clean, bytes⟩
  have reliable : ({ fs.disk with transfers } : Disk).Reliable := ready.reliable
  rcases writeBlock_block reliable (ready.layout.tableOnCard has)
    (blit buf (fs.inodeOffset (fs.inodeIndex ino)) xinode 0 inodeSizeValid) with
    ⟨disk, wrote, touches, written⟩
  have saves := saveItable_eq (f := { fs with
    bitmap := mid.bitmap
    disk := { fs.disk with transfers }
    itable := ⟨fs.inodeGroup ino, fs.inodeBlock (fs.inodeIndex ino), false,
      blit buf (fs.inodeOffset (fs.inodeIndex ino)) xinode 0 inodeSizeValid⟩ }) wrote
  refine ⟨mid.bitmap, ⟨fs.inodeGroup ino, fs.inodeBlock (fs.inodeIndex ino), false,
    blit buf (fs.inodeOffset (fs.inodeIndex ino)) xinode 0 inodeSizeValid⟩, disk, ?_,
    by rw [loadsBitmap], clean, ⟨⟨rfl, rfl⟩, rfl, fun k lt => (written k lt).symm,
      (Touches.read transfers).trans touches⟩, ?_⟩
  · unfold Fs.writeXinode
    simp only [loadsBitmap, andThen, if_true, isMarked, if_false, loads]
    exact saves
  · intro k lt
    have same := bytes k lt
    simp only [blit, same]

/-- The record written is on the card, with the rest of its bytes as before. -/
theorem TableCall.recordByte_same (layout : fs.TableLayout) {itable : ItableBlock} {disk : Disk}
    (call : fs.TableCall ino itable disk) {xinode : Bytes}
    (image : ∀ k < fs.esb.sBlksize, itable.buf k =
      blit (fs.esb.blockBytes fs.disk (fs.tableBlock ino)) (fs.inodeOffset (fs.inodeIndex ino))
        xinode 0 inodeSizeValid k) (lt : k < fs.esb.inodeSize) :
    fs.esb.blockBytes disk (fs.tableBlock ino) (fs.inodeOffset (fs.inodeIndex ino) + k) =
      if k < inodeSizeValid then xinode k else fs.recordByte ino k := by
  have inside := layout.offset_le (fs.inodeIndex ino)
  rw [← call.cached _ (by omega), image _ (by omega)]
  split
  · rw [blit_inside (by omega) (by omega), Nat.zero_add, Nat.add_sub_cancel_left]
  · rw [blit_outside (by omega)]
    rfl

/-- The records of other inodes stay as they are. -/
theorem TableCall.recordByte_other (layout : fs.TableLayout) (has : fs.HasInode ino)
    {itable : ItableBlock} {disk : Disk} (call : fs.TableCall ino itable disk) {xinode : Bytes}
    (image : ∀ k < fs.esb.sBlksize, itable.buf k =
      blit (fs.esb.blockBytes fs.disk (fs.tableBlock ino)) (fs.inodeOffset (fs.inodeIndex ino))
        xinode 0 inodeSizeValid k)
    (hasOther : fs.HasInode other) (ne : other ≠ ino) (lt : k < fs.esb.inodeSize) :
    fs.esb.blockBytes disk (fs.tableBlock other) (fs.inodeOffset (fs.inodeIndex other) + k) =
      fs.recordByte other k := by
  have inside := layout.offset_le (fs.inodeIndex other)
  by_cases same : fs.tableBlock other = fs.tableBlock ino
  · have apart := layout.apart has hasOther ne same
    have atLeast := layout.inodeSize.1
    unfold Fs.recordByte
    rw [same, ← call.cached _ (by omega), image _ (by omega), blit_outside (by omega)]
  · refine call.touches.blockBytes (layout.tableOnCard hasOther) ?_ (by omega)
    exact fun id inBlock inOther => same (inOther.2.symm.trans inBlock.2)

/-- The cached block is that of the inode, as it is on the card. -/
structure Brought (fs : Fs) (ino : ℕ) : Prop where
  group : fs.itable.group = fs.inodeGroup ino
  block : fs.itable.block = fs.inodeBlock (fs.inodeIndex ino)
  bytes : ∀ k < fs.esb.sBlksize, fs.itable.buf k = fs.esb.blockBytes fs.disk (fs.tableBlock ino) k

/-- A call leaves the records of the other inodes alone, on the card and in the block it leaves in
memory. -/
def Spares (fs fs' : Fs) (ino : ℕ) : Prop :=
  ∀ other, fs.HasInode other → other ≠ ino → ∀ k < fs.esb.inodeSize,
    fs'.recordByte other k = fs.recordByte other k ∧
      (fs.tableBlock other = fs.tableBlock ino →
        fs'.itable.buf (fs.inodeOffset (fs.inodeIndex other) + k) = fs.recordByte other k)

theorem TableCall.brought {bitmap : BitmapCache} {itable : ItableBlock} {disk : Disk}
    (call : fs.TableCall ino itable disk) : ({ fs with bitmap, itable, disk } : Fs).Brought ino :=
  ⟨call.loaded.1, call.loaded.2, call.cached⟩

end Fs

/-! ## Runs -/

/-- A call of `read_xinode` into a buffer, or of `write_xinode`. -/
inductive TableOp where
  | read (ino : ℕ) (buffer : Bytes)
  | write (ino : ℕ) (xinode : Bytes)

/-- A volume beside an array of records, one for each inode. -/
structure Table where
  fs : Fs
  records : ℕ → Bytes

namespace Table

variable {table next : Table} {op : TableOp} {ino other k : ℕ}

/-- The inode is of the volume and marked. -/
def Allows (table : Table) : TableOp → Prop
  | .read ino _ | .write ino _ => table.fs.HasInode ino ∧ table.fs.Marked ino

instance (table : Table) (op : TableOp) : Decidable (table.Allows op) := by
  cases op <;> exact inferInstanceAs (Decidable (_ ∧ _))

/-- The call on the volume, and what it means for the array: a write replaces the first bytes of
one record. -/
def step (table : Table) : TableOp → Option Table
  | .read ino buffer => some { table with fs := (table.fs.readXinode ino buffer).2.2 }
  | .write ino xinode => some
      { fs := (table.fs.writeXinode ino xinode).2
        records := Function.update table.records ino
          (blit (table.records ino) 0 xinode 0 inodeSizeValid) }

/-- The array of the records on the card. -/
def Start (table : Table) : Prop := table.fs.TableReady ∧ table.records = table.fs.recordByte

/-- The records on the card are those of the array. -/
structure Refines (table : Table) : Prop where
  ready : table.fs.TableReady
  records : ∀ ino, table.fs.HasInode ino → ∀ k < table.fs.esb.inodeSize,
    table.fs.recordByte ino k = table.records ino k

theorem Refines.read (refines : table.Refines) (has : table.fs.HasInode ino)
    (marked : table.fs.Marked ino) (buffer : Bytes) :
    ∃ out fs, table.fs.readXinode ino buffer = (0, out, fs) ∧
      (∀ k < inodeSizeValid, out k = table.records ino k) ∧ fs.Brought ino ∧
      ({ table with fs } : Table).Refines := by
  rcases refines.ready.readXinode has marked buffer with
    ⟨out, bitmap, itable, transfers, reads, _, clean, call, bytes⟩
  refine ⟨out, _, reads, ?_, call.brought, refines.ready.call clean call, refines.records⟩
  intro k lt
  rw [bytes k lt]
  exact refines.records ino has k (lt.trans_le refines.ready.layout.inodeSize.1)

theorem Refines.write (refines : table.Refines) (has : table.fs.HasInode ino)
    (marked : table.fs.Marked ino) (xinode : Bytes) :
    ∃ fs, table.fs.writeXinode ino xinode = (0, fs) ∧ table.fs.Spares fs ino ∧ fs.Brought ino ∧
      ({ fs, records := Function.update table.records ino
          (blit (table.records ino) 0 xinode 0 inodeSizeValid) } : Table).Refines := by
  rcases refines.ready.writeXinode has marked xinode with
    ⟨bitmap, itable, disk, writes, _, clean, call, image⟩
  have layout := refines.ready.layout
  have others : ∀ other, table.fs.HasInode other → other ≠ ino → ∀ k < table.fs.esb.inodeSize,
      table.fs.esb.blockBytes disk (table.fs.tableBlock other)
        (table.fs.inodeOffset (table.fs.inodeIndex other) + k) = table.fs.recordByte other k :=
    fun other hasOther ne k lt => call.recordByte_other layout has image hasOther ne lt
  refine ⟨_, writes, ?_, call.brought, refines.ready.call clean call, ?_⟩
  · intro other hasOther ne k lt
    refine ⟨others other hasOther ne k lt, fun same => ?_⟩
    have inside := layout.offset_le (table.fs.inodeIndex other)
    rw [← others other hasOther ne k lt, same]
    exact call.cached _ (by omega)
  · intro other hasOther k lt
    by_cases eq : other = ino
    · subst eq
      refine (call.recordByte_same layout image lt).trans ?_
      simp only [Function.update_self]
      split
      · rename_i valid
        rw [blit_inside (Nat.zero_le _) (by omega), Nat.zero_add, Nat.sub_zero]
      · rename_i rest
        rw [blit_outside (Or.inr (by omega))]
        exact refines.records other hasOther k lt
    · simp only [Function.update_of_ne eq]
      exact (others other hasOther eq k lt).trans (refines.records other hasOther k lt)

theorem Refines.step (refines : table.Refines) (allowed : table.Allows op)
    (stepped : table.step op = some next) : next.Refines := by
  cases op with
  | read ino buffer =>
      rcases refines.read allowed.1 allowed.2 buffer with ⟨out, fs, reads, _, _, kept⟩
      rw [Table.step, reads] at stepped
      rw [← Option.some.inj stepped]
      exact kept
  | write ino xinode =>
      rcases refines.write allowed.1 allowed.2 xinode with ⟨fs, writes, _, _, kept⟩
      rw [Table.step, writes] at stepped
      rw [← Option.some.inj stepped]
      exact kept

/-- In every run the calls act on the array: a read returns what was written last, and a write
leaves the other records alone. -/
theorem recordsKept_of_reach (reached : GuardedReach step Allows Start table) :
    table.Refines ∧
      (∀ ino buffer, table.fs.HasInode ino → table.fs.Marked ino →
        ∃ out fs, table.fs.readXinode ino buffer = (0, out, fs) ∧
          (∀ k < inodeSizeValid, out k = table.records ino k) ∧ fs.Brought ino) ∧
      ∀ ino xinode, table.fs.HasInode ino → table.fs.Marked ino →
        ∃ fs, table.fs.writeXinode ino xinode = (0, fs) ∧ table.fs.Spares fs ino ∧
          fs.Brought ino := by
  have refines : table.Refines := by
    apply reached.invariant
    · rintro state ⟨ready, eq⟩
      exact ⟨ready, fun ino _ k _ => by rw [eq]⟩
    · intro state op next refines allowed stepped
      exact refines.step allowed stepped
  refine ⟨refines, ?_, ?_⟩
  · intro ino buffer has marked
    rcases refines.read has marked buffer with ⟨out, fs, reads, bytes, brought, _⟩
    exact ⟨out, fs, reads, bytes, brought⟩
  · intro ino xinode has marked
    rcases refines.write has marked xinode with ⟨fs, writes, spares, brought, _⟩
    exact ⟨fs, writes, spares, brought⟩

/-- The two inodes in use on the volume of one group. -/
def oneGroup : Table := ⟨Fs.oneGroup, Fs.oneGroup.recordByte⟩

/-- Both inodes are written and the first is read again. -/
def twoWrites : List TableOp :=
  [.write 1 (fun _ => 7), .write 2 (fun _ => 9), .read 1 zeros]

theorem oneGroup_start : oneGroup.Start := by
  have layout := Fs.oneGroup_layout
  have only : ∀ {group}, group < Fs.oneGroup.esb.totalGroups → group = 0 := fun lt => by
    change _ < 1 at lt
    omega
  refine ⟨⟨⟨by decide, by decide, layout.onCard, ?_⟩, fun _ _ _ => rfl, ⟨rfl, rfl⟩, Or.inl rfl⟩,
    rfl⟩
  exact fun group lt other otherLt _ _ _ => (only lt).trans (only otherLt).symm

theorem recordsKept_of_reach_oneGroup :
    ∃ table, run step oneGroup twoWrites = some table ∧ table.records 1 127 = 7 ∧
      table.Refines ∧ ∃ out fs, table.fs.readXinode 1 zeros = (0, out, fs) ∧ out 127 = 7 := by
  have guarded : GuardedRun step Allows oneGroup twoWrites := by decide +kernel
  have record : (run step oneGroup twoWrites).map (fun table => table.records 1 127) = some 7 := by
    decide +kernel
  have allowed : (run step oneGroup twoWrites).map
      (fun table => decide (table.Allows (.read 1 zeros))) = some true := by
    decide +kernel
  rcases Option.map_eq_some_iff.mp record with ⟨table, isRun, record⟩
  rw [isRun, Option.map_some, Option.some.injEq, decide_eq_true_eq] at allowed
  have started : GuardedReach step Allows Start oneGroup := .start oneGroup_start
  rcases recordsKept_of_reach (started.of_run guarded isRun) with ⟨refines, reads, _⟩
  rcases reads 1 zeros allowed.1 allowed.2 with ⟨out, fs, read, bytes, _⟩
  exact ⟨table, isRun, record, refines, out, fs, read, (bytes 127 (by decide)).trans record⟩

end Table

end Ninix.Ext2
