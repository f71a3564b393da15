import Ninix.Ext2.Descriptor
import Ninix.Library.Bitmap

/-!
# Bitmaps, inode table and superblock

A mounted volume keeps the two bitmaps of one group and one block of an inode table in memory.
`load_bitmap` and `load_itable` replace them, writing back what is dirty. Every allocation and
release ends with the same three writes: the bitmaps, the block of the descriptor table that
holds the group, and the superblock with its copies.
-/

namespace Ninix.Ext2

open ByteBuffer

/-- The numbers of `struct ext2_ext_sb` that inodes need, beside those blocks need. -/
structure Geometry extends ExtSb where
  inodesPerGroup : ℕ
  inodeSize : ℕ

/-- `struct ext2_bitmap` -/
structure BitmapCache where
  bg : ℕ
  dirty : Bool
  blockbit : Bytes
  inodebit : Bytes

/-- `struct ext2_itable_block` -/
structure ItableBlock where
  group : ℕ
  block : ℕ
  dirty : Bool
  buf : Bytes

/-- A mounted volume: its super block, the descriptor table in memory and the card. -/
structure Fs where
  esb : Geometry
  disk : Disk
  dpttable : Bytes
  totalUnallocInodes : ℕ
  totalUnallocBlocks : ℕ
  sbBuf : Bytes
  bitmap : BitmapCache
  itable : ItableBlock

/-- `INODE_SIZE_VALID` -/
abbrev inodeSizeValid : ℕ := 128

/-- The fields of a descriptor in the table, by offset and width. -/
def dptField (dpttable : Bytes) (group offset width : ℕ) : ℕ :=
  readLE dpttable (descriptorEntryLen * group + offset) width

/-- Set a field of a descriptor. -/
def setDptField (dpttable : Bytes) (group offset width value : ℕ) : Bytes :=
  writeLE dpttable (descriptorEntryLen * group + offset) width value

namespace Fs

variable (fs : Fs)

def blockBitmapBase (group : ℕ) : ℕ := dptField fs.dpttable group 0 4

def inodeBitmapBase (group : ℕ) : ℕ := dptField fs.dpttable group 4 4

def inodeTableBase (group : ℕ) : ℕ := dptField fs.dpttable group 8 4

def unallocBlocks (group : ℕ) : ℕ := dptField fs.dpttable group 12 2

def unallocInodes (group : ℕ) : ℕ := dptField fs.dpttable group 14 2

def dirs (group : ℕ) : ℕ := dptField fs.dpttable group 16 2

end Fs

/-- Go on after a call that returned no error. -/
def andThen (result : ℕ × Fs) (next : Fs → ℕ × Fs) : ℕ × Fs :=
  if result.1 = 0 then next result.2 else result

theorem andThen_keeps {P : Fs → Prop} {result : ℕ × Fs} {next : Fs → ℕ × Fs} (first : P result.2)
    (second : P (next result.2).2) : P (andThen result next).2 := by
  unfold andThen
  split
  · exact second
  · exact first

namespace Fs

/-- Write a block. -/
def writeBlock (fs : Fs) (buf : Bytes) (block : ℕ) : ℕ × Fs :=
  let (err, disk) := fs.disk.writeBlock buf (fs.esb.blockSector block) fs.esb.sectsPerBlock
  (err, { fs with disk })

/-- `save_bitmap` -/
def saveBitmap (fs : Fs) : ℕ × Fs :=
  if !fs.bitmap.dirty then (0, fs)
  else
    let group := fs.bitmap.bg
    andThen (fs.writeBlock fs.bitmap.blockbit (fs.blockBitmapBase group)) fun fs =>
      andThen (fs.writeBlock fs.bitmap.inodebit (fs.inodeBitmapBase group)) fun fs =>
        (0, { fs with bitmap := { fs.bitmap with dirty := false } })

/-- `load_bitmap` -/
def loadBitmap (fs : Fs) (group : ℕ) : ℕ × Fs :=
  if fs.bitmap.bg = group then (0, fs)
  else
    let fs := if fs.bitmap.dirty then fs.saveBitmap.2 else fs
    let (err, blockbit, disk) := fs.disk.readBlock fs.bitmap.blockbit
      (fs.esb.blockSector (fs.blockBitmapBase group)) fs.esb.sectsPerBlock
    andThen (err, { fs with disk, bitmap := { fs.bitmap with blockbit } }) fun fs =>
      let (err, inodebit, disk) := fs.disk.readBlock fs.bitmap.inodebit
        (fs.esb.blockSector (fs.inodeBitmapBase group)) fs.esb.sectsPerBlock
      andThen (err, { fs with disk, bitmap := { fs.bitmap with inodebit } }) fun fs =>
        (0, { fs with bitmap := { fs.bitmap with bg := group, dirty := false } })

/-- `check_iorb` -/
def checkIorb (bitmap : Bytes) (index : ℕ) : ℕ := ((bitmap (index / 8)).toNat >>> (index % 8)) % 2

/-- `save_itable` -/
def saveItable (fs : Fs) : ℕ × Fs :=
  andThen (fs.writeBlock fs.itable.buf (fs.inodeTableBase fs.itable.group + fs.itable.block))
    fun fs => (0, { fs with itable := { fs.itable with dirty := false } })

/-- `load_itable` -/
def loadItable (fs : Fs) (group block : ℕ) : ℕ × Fs :=
  if fs.itable.group = group ∧ fs.itable.block = block then (0, fs)
  else
    andThen (if fs.itable.dirty then fs.saveItable else (0, fs)) fun fs =>
      let (err, buf, disk) := fs.disk.readBlock fs.itable.buf
        (fs.esb.blockSector (fs.inodeTableBase group + block)) fs.esb.sectsPerBlock
      andThen (err, { fs with disk, itable := { fs.itable with buf } }) fun fs =>
        (0, { fs with itable := { fs.itable with group, block, dirty := false } })

/-- The group of an inode, and its place there. -/
def inodeGroup (fs : Fs) (ino : ℕ) : ℕ := sub32 ino 1 / fs.esb.inodesPerGroup

def inodeIndex (fs : Fs) (ino : ℕ) : ℕ := sub32 ino 1 % fs.esb.inodesPerGroup

/-- The block of the inode table that holds the inode of an index, and the offset there. -/
def inodeBlock (fs : Fs) (index : ℕ) : ℕ := u32 (index * fs.esb.inodeSize) / fs.esb.sBlksize

def inodeOffset (fs : Fs) (index : ℕ) : ℕ :=
  index % (fs.esb.sBlksize / fs.esb.inodeSize) * fs.esb.inodeSize

/-- The code of `-ENOINODE` -/
def errNoInode : ℕ := sub32 0 514

/-- `write_xinode` -/
def writeXinode (fs : Fs) (ino : ℕ) (xinode : Bytes) : ℕ × Fs :=
  let group := fs.inodeGroup ino
  let index := fs.inodeIndex ino
  andThen (fs.loadBitmap group) fun fs =>
    if checkIorb fs.bitmap.inodebit index = 0 then (errNoInode, fs)
    else
      andThen (fs.loadItable group (fs.inodeBlock index)) fun fs =>
        let buf := blit fs.itable.buf (fs.inodeOffset index) xinode 0 inodeSizeValid
        saveItable { fs with itable := { fs.itable with buf } }

end Fs

namespace ExtSb

/-- The sector a copy of the superblock is written to in a group. -/
def copySector (esb : ExtSb) (group : ℕ) : ℕ :=
  u32 (esb.sBase + group * esb.blocksPerGroup * esb.sectsPerBlock)

/-- The loop of `save_sb` over the groups from `group` on, with the number of groups to go: the
groups that hold a copy. -/
def backups : ℕ → ℕ → ℕ → ℕ → ℕ → List ℕ
  | 0, _, _, _, _ => []
  | left + 1, group, pow3, pow5, pow7 =>
      if group = pow3 then group :: backups left (group + 1) (u32 (pow3 * 3)) pow5 pow7
      else if group = pow5 then group :: backups left (group + 1) pow3 (u32 (pow5 * 5)) pow7
      else if group = pow7 then group :: backups left (group + 1) pow3 pow5 (u32 (pow7 * 7))
      else backups left (group + 1) pow3 pow5 pow7

/-- The groups `save_sb` writes copies to. -/
def copies (esb : ExtSb) : List ℕ := backups (esb.totalGroups - 1) 1 1 5 7

end ExtSb

namespace Fs

/-- Write the superblock to each of the groups, up to the first failure. -/
def saveCopies (esb : ExtSb) (buf : Bytes) (disk : Disk) : List ℕ → ℕ × Disk
  | [] => (0, disk)
  | group :: rest =>
      match disk.writeBlock buf (esb.copySector group) 1 with
      | (0, disk) => saveCopies esb buf disk rest
      | (_ + 1, disk) => (1, disk)

/-- The buffer of the superblock with the two counts. -/
def sbImage (fs : Fs) : Bytes :=
  write32 (write32 fs.sbBuf 12 fs.totalUnallocBlocks) 16 fs.totalUnallocInodes

/-- `save_sb` -/
def saveSb (fs : Fs) : ℕ × Fs :=
  let sbBuf := fs.sbImage
  match fs.disk.writeBlock sbBuf (u32 (fs.esb.sBase + 2)) 1 with
  | (0, disk) =>
      let (err, disk) := saveCopies fs.esb.toExtSb sbBuf disk fs.esb.copies
      (err, { fs with sbBuf, disk })
  | (_ + 1, disk) => (1, { fs with sbBuf, disk })

/-- The lines `apply_inode`, `apply_block`, `retake_inode` and `retake_block` end with. -/
def saveAll (fs : Fs) (group : ℕ) : ℕ × Fs :=
  andThen fs.saveBitmap fun fs =>
    let (err, disk) := saveDpttable fs.esb.toExtSb fs.dpttable fs.disk group
    andThen (err, { fs with disk }) fun fs => fs.saveSb

end Fs

/-! ## Blocks on the card -/

namespace ExtSb

/-- The sectors of a block. -/
def InBlock (esb : ExtSb) (block id : ℕ) : Prop :=
  esb.sBase ≤ id ∧ (id - esb.sBase) / esb.sectsPerBlock = block

/-- The sectors of a block have numbers that do not wrap. -/
def OnCard (esb : ExtSb) (block : ℕ) : Prop :=
  esb.sBase + (block + 1) * esb.sectsPerBlock ≤ 4294967296

/-- The bytes of a block on a card. -/
def blockBytes (esb : ExtSb) (disk : Disk) (block : ℕ) : Bytes :=
  disk.bytesFrom (esb.blockSector block)

variable {esb : ExtSb} {block : ℕ}

theorem sectsPerBlock_pos : 0 < esb.sectsPerBlock := by
  rw [sectsPerBlock_eq]
  positivity

theorem OnCard.blockSector (onCard : esb.OnCard block) :
    esb.blockSector block = esb.sBase + block * esb.sectsPerBlock ∧
      esb.blockSector block + esb.sectsPerBlock ≤ 4294967296 := by
  have positive : 0 < esb.sectsPerBlock := sectsPerBlock_pos
  unfold OnCard at onCard
  rw [Nat.add_mul, Nat.one_mul] at onCard
  have location : esb.blockSector block = esb.sBase + block * esb.sectsPerBlock :=
    u32_of_lt (by omega)
  exact ⟨location, by omega⟩

theorem OnCard.inBlock_iff (onCard : esb.OnCard block) {id : ℕ} :
    esb.InBlock block id ↔
      esb.blockSector block ≤ id ∧ id < esb.blockSector block + esb.sectsPerBlock := by
  rw [onCard.blockSector.1, InBlock, Nat.div_eq_iff sectsPerBlock_pos]
  have positive : 0 < esb.sectsPerBlock := sectsPerBlock_pos
  omega

/-- The sector of a byte of a block. -/
theorem OnCard.inBlock_byte (onCard : esb.OnCard block) {k : ℕ} (lt : k < esb.sBlksize) :
    esb.InBlock block (esb.blockSector block + k / sectorBytes) := by
  rw [onCard.inBlock_iff]
  rw [sBlksize_eq] at lt
  exact ⟨Nat.le_add_right _ _, Nat.add_lt_add_left (Nat.div_lt_of_lt_mul lt) _⟩

end ExtSb

/-- The second card is the first one after writes to sectors of a set. -/
structure Touches (sectors : ℕ → Prop) (disk disk' : Disk) : Prop where
  fault : disk'.fault = disk.fault
  sector : ∀ id, ¬sectors id → disk'.sector id = disk.sector id
  written : ∃ log, disk'.written = log ++ disk.written ∧ ∀ id ∈ log, sectors id

namespace Touches

variable {sectors wider : ℕ → Prop} {first second third disk disk' : Disk} {esb : ExtSb}

theorem refl : Touches sectors disk disk := ⟨rfl, fun _ _ => rfl, [], rfl, by simp⟩

/-- Reading writes nothing. -/
theorem read (transfers : ℕ) : Touches sectors disk { disk with transfers } :=
  ⟨rfl, fun _ _ => rfl, [], rfl, by simp⟩

theorem trans (left : Touches sectors first second) (right : Touches sectors second third) :
    Touches sectors first third := by
  rcases left.written with ⟨log, eq, inside⟩
  rcases right.written with ⟨log', eq', inside'⟩
  refine ⟨right.fault.trans left.fault, fun id outside =>
    (right.sector id outside).trans (left.sector id outside), log' ++ log, ?_, ?_⟩
  · rw [eq', eq, List.append_assoc]
  · exact fun id mem => (List.mem_append.mp mem).elim (inside' id) (inside id)

theorem mono (touches : Touches sectors disk disk') (le : ∀ id, sectors id → wider id) :
    Touches wider disk disk' := by
  rcases touches.written with ⟨log, eq, inside⟩
  exact ⟨touches.fault, fun id outside => touches.sector id fun inside => outside (le id inside),
    log, eq, fun id mem => le id (inside id mem)⟩

theorem reliable (touches : Touches sectors disk disk') (reliable : disk.Reliable) :
    disk'.Reliable := by
  intro k id _
  rw [touches.fault]
  exact reliable k id trivial

/-- A block none of whose sectors is touched keeps its bytes. -/
theorem blockBytes (touches : Touches sectors disk disk') {block : ℕ} (onCard : esb.OnCard block)
    (apart : ∀ id, sectors id → ¬esb.InBlock block id) {k : ℕ} (lt : k < esb.sBlksize) :
    esb.blockBytes disk' block k = esb.blockBytes disk block k := by
  unfold ExtSb.blockBytes Disk.bytesFrom
  rw [touches.sector _ fun inside => apart _ inside (onCard.inBlock_byte lt)]

end Touches

section Transfers

variable {esb : ExtSb} {block : ℕ} {disk : Disk}

/-- A block is read into a buffer. -/
theorem readBlock_block (reliable : disk.Reliable) (onCard : esb.OnCard block) (buf : Bytes) :
    ∃ buf' transfers, disk.readBlock buf (esb.blockSector block) esb.sectsPerBlock =
        (0, buf', { disk with transfers }) ∧
      ∀ k < esb.sBlksize, buf' k = esb.blockBytes disk block k := by
  rcases Disk.readBlock_spec buf reliable (fun _ _ => trivial) onCard.blockSector.2 with
    ⟨buf', transfers, read, bytes⟩
  refine ⟨buf', transfers, read, fun k lt => ?_⟩
  rw [bytes k, ← esb.sBlksize_eq, if_pos lt]
  rfl

/-- A block is written from a buffer. -/
theorem writeBlock_block (reliable : disk.Reliable) (onCard : esb.OnCard block) (buf : Bytes) :
    ∃ disk', disk.writeBlock buf (esb.blockSector block) esb.sectsPerBlock = (0, disk') ∧
      Touches (esb.InBlock block) disk disk' ∧
      ∀ k < esb.sBlksize, esb.blockBytes disk' block k = buf k := by
  rcases Disk.writeBlock_spec buf reliable (fun _ _ => trivial) onCard.blockSector.2 with
    ⟨code, fault, sector, _⟩
  rcases disk.writeBlock_log buf onCard.blockSector.2 with ⟨log, logged, inside⟩
  refine ⟨_, Prod.ext code rfl, ⟨fault, ?_, log, logged, ?_⟩, ?_⟩
  · intro id outside
    funext k
    rw [sector, if_neg]
    rintro ⟨lower, upper, _⟩
    exact outside (onCard.inBlock_iff.mpr ⟨lower, upper⟩)
  · exact fun id mem => onCard.inBlock_iff.mpr (inside id mem)
  · intro k lt
    have inside := onCard.inBlock_iff.mp (onCard.inBlock_byte lt)
    have small : k % sectorBytes < sectorBytes := Nat.mod_lt _ (by decide)
    unfold ExtSb.blockBytes Disk.bytesFrom
    rw [sector, if_pos ⟨inside.1, inside.2, small⟩, Nat.add_sub_cancel_left, Nat.mul_comm,
      Nat.div_add_mod]

/-- A sector is written. -/
theorem writeBlock_sector (reliable : disk.Reliable) (buf : Bytes) (base : ℕ) :
    ∃ disk', disk.writeBlock buf base 1 = (0, disk') ∧ Touches (fun id => id = base) disk disk' := by
  refine ⟨_, Disk.writeBlock_one (reliable.on fun _ => True) trivial, rfl, fun id outside => ?_,
    [base], rfl, by simp⟩
  exact Function.update_of_ne outside _ _

end Transfers

namespace ExtSb

/-- The sectors `save_sb` writes. -/
def SuperblockSector (esb : ExtSb) (id : ℕ) : Prop :=
  id = u32 (esb.sBase + 2) ∨ ∃ group ∈ esb.copies, id = esb.copySector group

end ExtSb

/-- `save_dpttable` writes sectors of the descriptor table only. -/
theorem saveDpttable_touches {esb : ExtSb} (valid : esb.Valid) {disk : Disk}
    (reliable : disk.Reliable) (dpttable : Bytes) {group : ℕ} (lt : group < esb.totalGroups) :
    ∃ disk', saveDpttable esb dpttable disk group = (0, disk') ∧
      Touches esb.DescriptorSector disk disk' := by
  have le : u32 (group * descriptorEntryLen) / esb.sBlksize ≤
      (esb.totalGroups - 1) / esb.entriesPerBlock := by
    apply (esb.lastBlock_le group).trans
    apply Nat.div_le_div_right
    omega
  rcases valid.block_inside le with ⟨_, fits, inside⟩
  rcases Disk.writeBlock_spec _ reliable (fun _ _ => trivial) fits with ⟨code, fault, sector, _⟩
  have member : ∀ id, esb.blockSector (esb.descriptorBlock +
      u32 (group * descriptorEntryLen) / esb.sBlksize) ≤ id →
      id < esb.blockSector (esb.descriptorBlock + u32 (group * descriptorEntryLen) / esb.sBlksize) +
        esb.sectsPerBlock → esb.DescriptorSector id := by
    intro id lower upper
    have here := inside (id - esb.blockSector (esb.descriptorBlock +
      u32 (group * descriptorEntryLen) / esb.sBlksize)) (by omega)
    rwa [Nat.add_sub_cancel' lower] at here
  rcases disk.writeBlock_log _ fits with ⟨log, logged, inLog⟩
  refine ⟨_, Prod.ext code rfl, fault, fun id outside => ?_, log, logged, fun id mem =>
    member id (inLog id mem).1 (inLog id mem).2⟩
  funext k
  refine (sector id k).trans (if_neg ?_)
  rintro ⟨lower, upper, _⟩
  exact outside (member id lower upper)

namespace Fs

theorem saveCopies_touches {esb : ExtSb} (buf : Bytes) {disk : Disk} (reliable : disk.Reliable)
    {groups : List ℕ} (le : ∀ group ∈ groups, group ∈ esb.copies) :
    ∃ disk', saveCopies esb buf disk groups = (0, disk') ∧
      Touches esb.SuperblockSector disk disk' := by
  induction groups generalizing disk with
  | nil => exact ⟨disk, rfl, .refl⟩
  | cons group rest ih =>
      rcases writeBlock_sector reliable buf (esb.copySector group) with ⟨mid, wrote, touches⟩
      rcases ih (touches.reliable reliable)
          (fun other mem => le other (List.mem_cons_of_mem _ mem)) with ⟨disk', saved, touchesRest⟩
      refine ⟨disk', by simp only [saveCopies, wrote, saved], .trans (touches.mono ?_) touchesRest⟩
      rintro _ rfl
      exact Or.inr ⟨group, le group List.mem_cons_self, rfl⟩

/-- `save_sb` writes the sectors of the superblock and its copies only. -/
theorem saveSb_spec {fs : Fs} (reliable : fs.disk.Reliable) :
    ∃ sbBuf disk', fs.saveSb = (0, { fs with sbBuf, disk := disk' }) ∧
      Touches fs.esb.SuperblockSector fs.disk disk' := by
  rcases writeBlock_sector reliable fs.sbImage (u32 (fs.esb.sBase + 2)) with ⟨mid, wrote, touches⟩
  rcases saveCopies_touches fs.sbImage (touches.reliable reliable) (fun _ mem => mem) with
    ⟨disk', saved, touchesRest⟩
  refine ⟨fs.sbImage, disk', by simp only [saveSb, wrote, saved], .trans (touches.mono ?_) touchesRest⟩
  rintro _ rfl
  exact Or.inl rfl

/-- The blocks of the inode table of a group. -/
def InItable (fs : Fs) (group block : ℕ) : Prop :=
  ∃ index < fs.esb.inodesPerGroup,
    block = fs.inodeTableBase group + index * fs.esb.inodeSize / fs.esb.sBlksize

/-- The sectors that hold metadata. -/
def MetaSector (fs : Fs) (id : ℕ) : Prop :=
  fs.esb.DescriptorSector id ∨ fs.esb.SuperblockSector id ∨
    ∃ group < fs.esb.totalGroups, fs.esb.InBlock (fs.blockBitmapBase group) id ∨
      fs.esb.InBlock (fs.inodeBitmapBase group) id ∨
      ∃ block, fs.InItable group block ∧ fs.esb.InBlock block id

/-- The sectors that allocations write beside inodes. -/
def AllocSector (fs : Fs) (id : ℕ) : Prop :=
  fs.esb.DescriptorSector id ∨ fs.esb.SuperblockSector id ∨
    ∃ group < fs.esb.totalGroups, fs.esb.InBlock (fs.blockBitmapBase group) id ∨
      fs.esb.InBlock (fs.inodeBitmapBase group) id

theorem AllocSector.metaSector {fs : Fs} {id : ℕ} (inside : fs.AllocSector id) :
    fs.MetaSector id := by
  rcases inside with descriptor | superblock | ⟨group, lt, inBlock | inInode⟩
  · exact Or.inl descriptor
  · exact Or.inr (Or.inl superblock)
  · exact Or.inr (Or.inr ⟨group, lt, Or.inl inBlock⟩)
  · exact Or.inr (Or.inr ⟨group, lt, Or.inr (Or.inl inInode)⟩)

/--
Where the metadata lies. An inode has a size that divides a block, the inodes of a group have
room in its bitmap, and no bitmap shares a block with another bitmap, an inode table, the
descriptor table or a copy of the superblock.
-/
structure Layout (fs : Fs) : Prop where
  valid : fs.esb.Valid
  inodeSize : inodeSizeValid ≤ fs.esb.inodeSize ∧ fs.esb.inodeSize < 65536 ∧
    fs.esb.inodeSize ∣ fs.esb.sBlksize
  inodes : fs.esb.inodesPerGroup ≤ 8 * fs.esb.sBlksize ∧ fs.esb.inodesPerGroup < 65536
  total : fs.esb.totalGroups * fs.esb.inodesPerGroup < 4294967296
  onCard : ∀ group < fs.esb.totalGroups, fs.esb.OnCard (fs.blockBitmapBase group) ∧
    fs.esb.OnCard (fs.inodeBitmapBase group) ∧
    ∀ block, fs.InItable group block → fs.esb.OnCard block
  blocksApart : ∀ group < fs.esb.totalGroups, ∀ other < fs.esb.totalGroups,
    fs.blockBitmapBase group = fs.blockBitmapBase other → group = other
  inodesApart : ∀ group < fs.esb.totalGroups, ∀ other < fs.esb.totalGroups,
    fs.inodeBitmapBase group = fs.inodeBitmapBase other → group = other
  bitmapsApart : ∀ group < fs.esb.totalGroups, ∀ other < fs.esb.totalGroups,
    fs.blockBitmapBase group ≠ fs.inodeBitmapBase other
  tablesApart : ∀ group < fs.esb.totalGroups, ∀ other < fs.esb.totalGroups, ∀ block,
    fs.InItable other block →
      block ≠ fs.blockBitmapBase group ∧ block ≠ fs.inodeBitmapBase group
  recordsApart : ∀ group < fs.esb.totalGroups, ∀ id,
    fs.esb.DescriptorSector id ∨ fs.esb.SuperblockSector id →
      ¬fs.esb.InBlock (fs.blockBitmapBase group) id ∧
        ¬fs.esb.InBlock (fs.inodeBitmapBase group) id

/-- A cached pair of bitmaps is that of a group on the card. -/
def Holds (fs : Fs) (disk : Disk) (bitmap : BitmapCache) (group : ℕ) : Prop :=
  ∀ k < fs.esb.sBlksize,
    bitmap.blockbit k = fs.esb.blockBytes disk (fs.blockBitmapBase group) k ∧
      bitmap.inodebit k = fs.esb.blockBytes disk (fs.inodeBitmapBase group) k

/-- The state between two calls: nothing is dirty, and the cached bitmaps are those of the group
they are said to be of, once a group has been loaded. -/
structure Ready (fs : Fs) : Prop where
  layout : fs.Layout
  reliable : fs.disk.Reliable
  clean : fs.bitmap.dirty = false ∧ fs.itable.dirty = false
  cached : fs.bitmap.bg = minusOne32 ∨
    fs.bitmap.bg < fs.esb.totalGroups ∧ fs.Holds fs.disk fs.bitmap fs.bitmap.bg

section Specs

variable {fs : Fs} {group : ℕ}

/-- `load_bitmap` brings in the bitmaps of the group. -/
theorem loadBitmap_spec (ready : fs.Ready) (lt : group < fs.esb.totalGroups) :
    ∃ bitmap transfers, fs.loadBitmap group =
        (0, { fs with bitmap, disk := { fs.disk with transfers } }) ∧
      bitmap.bg = group ∧ bitmap.dirty = false ∧ fs.Holds fs.disk bitmap group := by
  rcases ready.layout.onCard group lt with ⟨blockOn, inodeOn, _⟩
  unfold loadBitmap
  split
  · rename_i loaded
    have small := ready.layout.valid.count
    rcases ready.cached with unset | ⟨_, holds⟩
    · rw [loaded] at unset
      unfold minusOne32 at unset
      omega
    · exact ⟨fs.bitmap, fs.disk.transfers, rfl, loaded, ready.clean.1, loaded ▸ holds⟩
  · rcases readBlock_block ready.reliable blockOn fs.bitmap.blockbit with
      ⟨blockbit, transfers, readBlocks, blockBytes⟩
    have reliableMid : ({ fs.disk with transfers } : Disk).Reliable := ready.reliable
    rcases readBlock_block reliableMid inodeOn fs.bitmap.inodebit with
      ⟨inodebit, transfers', readInodes, inodeBytes⟩
    refine ⟨⟨group, false, blockbit, inodebit⟩, transfers', ?_, rfl, rfl,
      fun k below => ⟨blockBytes k below, inodeBytes k below⟩⟩
    simp only [ready.clean.1, Bool.false_eq_true, if_false, readBlocks, andThen, if_true]
    simp only [inodeBitmapBase] at readInodes ⊢
    simp only [readInodes, if_true]

/-- `load_itable` brings in a block of the inode table. -/
theorem loadItable_spec (reliable : fs.disk.Reliable) (clean : fs.itable.dirty = false) {block : ℕ}
    (onCard : fs.esb.OnCard (fs.inodeTableBase group + block)) :
    ∃ buf transfers, fs.loadItable group block =
      (0, { fs with itable := ⟨group, block, false, buf⟩, disk := { fs.disk with transfers } }) := by
  unfold loadItable
  split
  · rename_i loaded
    refine ⟨fs.itable.buf, fs.disk.transfers, ?_⟩
    rw [← loaded.1, ← loaded.2, ← clean]
  · rcases readBlock_block reliable onCard fs.itable.buf with ⟨buf, transfers, read, _⟩
    refine ⟨buf, transfers, ?_⟩
    simp only [clean, Bool.false_eq_true, if_false, andThen, if_true, read]

/-- `save_itable` whose transfer succeeds. -/
theorem saveItable_eq {f : Fs} {disk' : Disk}
    (wrote : f.disk.writeBlock f.itable.buf
      (f.esb.blockSector (f.inodeTableBase f.itable.group + f.itable.block)) f.esb.sectsPerBlock =
        (0, disk')) :
    f.saveItable = (0, { f with disk := disk', itable := { f.itable with dirty := false } }) := by
  simp only [saveItable, writeBlock, wrote, andThen, if_true]

/-- `check_iorb` looks at the bit. -/
theorem checkIorb_eq (bitmap : Bytes) (index : ℕ) :
    checkIorb bitmap index = (Bitmap.bit bitmap index).toNat := by
  unfold checkIorb Bitmap.bit
  rw [Nat.testBit_eq_decide_div_mod_eq, Nat.shiftRight_eq_div_pow]
  rcases Nat.mod_two_eq_zero_or_one ((bitmap (index / 8)).toNat / 2 ^ (index % 8)) with zero | one
  · simp [zero]
  · simp [one]

/-- `write_xinode` of an inode marked in the loaded bitmap writes a block of the table of its
group and nothing else. -/
theorem writeXinode_spec (layout : fs.Layout) (reliable : fs.disk.Reliable)
    (clean : fs.itable.dirty = false) {ino : ℕ} (loaded : fs.bitmap.bg = fs.inodeGroup ino)
    (lt : fs.inodeGroup ino < fs.esb.totalGroups) (some : 0 < fs.esb.inodesPerGroup)
    (marked : Bitmap.bit fs.bitmap.inodebit (fs.inodeIndex ino) = true) (xinode : Bytes) :
    ∃ itable disk', fs.writeXinode ino xinode = (0, { fs with itable, disk := disk' }) ∧
      itable.dirty = false ∧
      Touches (fun id => ∃ block, fs.InItable (fs.inodeGroup ino) block ∧ fs.esb.InBlock block id)
        fs.disk disk' := by
  have index : fs.inodeIndex ino < fs.esb.inodesPerGroup := Nat.mod_lt _ some
  have product : fs.inodeIndex ino * fs.esb.inodeSize < 4294967296 := by
    have bound := Nat.mul_lt_mul'' (index.trans layout.inodes.2) layout.inodeSize.2.1
    omega
  have inTable : fs.InItable (fs.inodeGroup ino) (fs.inodeTableBase (fs.inodeGroup ino) +
      fs.inodeBlock (fs.inodeIndex ino)) := by
    refine ⟨fs.inodeIndex ino, index, ?_⟩
    rw [inodeBlock, u32_of_lt product]
  have onCard := (layout.onCard _ lt).2.2 _ inTable
  rcases loadItable_spec reliable clean onCard with ⟨buf, transfers, loads⟩
  have reliableMid : ({ fs.disk with transfers } : Disk).Reliable := reliable
  rcases writeBlock_block reliableMid onCard
    (blit buf (fs.inodeOffset (fs.inodeIndex ino)) xinode 0 inodeSizeValid) with
    ⟨disk', wrote, touches, _⟩
  refine ⟨⟨fs.inodeGroup ino, fs.inodeBlock (fs.inodeIndex ino), false,
    blit buf (fs.inodeOffset (fs.inodeIndex ino)) xinode 0 inodeSizeValid⟩, disk', ?_, rfl, ?_⟩
  swap
  · exact (Touches.read transfers).trans (touches.mono fun id inside => ⟨_, inTable, inside⟩)
  have here : fs.loadBitmap (fs.inodeGroup ino) = (0, fs) := if_pos loaded
  have valid : checkIorb fs.bitmap.inodebit (fs.inodeIndex ino) ≠ 0 := by
    rw [checkIorb_eq, marked]
    decide
  have saves := saveItable_eq (f := { fs with
    disk := { fs.disk with transfers },
    itable := ⟨fs.inodeGroup ino, fs.inodeBlock (fs.inodeIndex ino), false,
      blit buf (fs.inodeOffset (fs.inodeIndex ino)) xinode 0 inodeSizeValid⟩ }) wrote
  unfold writeXinode
  simp only [here, andThen, if_true, valid, if_false, loads]
  exact saves

/-- Both bitmaps of a group are alike on two cards. -/
def SameBitmaps (fs : Fs) (disk disk' : Disk) (group : ℕ) : Prop :=
  ∀ k < fs.esb.sBlksize,
    fs.esb.blockBytes disk' (fs.blockBitmapBase group) k =
        fs.esb.blockBytes disk (fs.blockBitmapBase group) k ∧
      fs.esb.blockBytes disk' (fs.inodeBitmapBase group) k =
        fs.esb.blockBytes disk (fs.inodeBitmapBase group) k

/-- Writes that stay off the bitmaps of a group leave them as they are. -/
theorem sameBitmaps_of_touches (layout : fs.Layout) (lt : group < fs.esb.totalGroups)
    {sectors : ℕ → Prop} {disk disk' : Disk} (touches : Touches sectors disk disk')
    (apart : ∀ id, sectors id → ¬fs.esb.InBlock (fs.blockBitmapBase group) id ∧
      ¬fs.esb.InBlock (fs.inodeBitmapBase group) id) : fs.SameBitmaps disk disk' group := by
  rcases layout.onCard group lt with ⟨blockOn, inodeOn, _⟩
  exact fun k below => ⟨touches.blockBytes blockOn (fun id inside => (apart id inside).1) below,
    touches.blockBytes inodeOn (fun id inside => (apart id inside).2) below⟩

theorem SameBitmaps.trans {first second third : Disk} (left : fs.SameBitmaps first second group)
    (right : fs.SameBitmaps second third group) : fs.SameBitmaps first third group :=
  fun k below => ⟨(right k below).1.trans (left k below).1,
    (right k below).2.trans (left k below).2⟩

theorem SameBitmaps.holds {disk disk' : Disk} (same : fs.SameBitmaps disk disk' group)
    {bitmap : BitmapCache} (holds : fs.Holds disk bitmap group) : fs.Holds disk' bitmap group :=
  fun k below => ⟨(holds k below).1.trans (same k below).1.symm,
    (holds k below).2.trans (same k below).2.symm⟩

/-- Writing an inode leaves the bitmaps alone. -/
theorem sameBitmaps_of_itable (layout : fs.Layout) (lt : group < fs.esb.totalGroups) {other : ℕ}
    (otherLt : other < fs.esb.totalGroups) {disk disk' : Disk}
    (touches : Touches (fun id => ∃ block, fs.InItable other block ∧ fs.esb.InBlock block id)
      disk disk') : fs.SameBitmaps disk disk' group := by
  apply sameBitmaps_of_touches layout lt touches
  rintro id ⟨block, inTable, inside⟩
  rcases layout.tablesApart group lt other otherLt block inTable with ⟨neBlock, neInode⟩
  exact ⟨fun inBitmap => neBlock (inside.2.symm.trans inBitmap.2),
    fun inBitmap => neInode (inside.2.symm.trans inBitmap.2)⟩

/-- `save_bitmap` writes the cached bitmaps to the blocks of their group. -/
theorem saveBitmap_spec (layout : fs.Layout) (reliable : fs.disk.Reliable)
    (dirty : fs.bitmap.dirty = true) (lt : fs.bitmap.bg < fs.esb.totalGroups) :
    ∃ disk', fs.saveBitmap =
        (0, { fs with disk := disk', bitmap := { fs.bitmap with dirty := false } }) ∧
      Touches fs.AllocSector fs.disk disk' ∧ fs.Holds disk' fs.bitmap fs.bitmap.bg ∧
      ∀ other < fs.esb.totalGroups, other ≠ fs.bitmap.bg → fs.SameBitmaps fs.disk disk' other := by
  rcases layout.onCard _ lt with ⟨blockOn, inodeOn, _⟩
  rcases writeBlock_block reliable blockOn fs.bitmap.blockbit with
    ⟨mid, wroteBlocks, touchesMid, blockBytes⟩
  rcases writeBlock_block (touchesMid.reliable reliable) inodeOn fs.bitmap.inodebit with
    ⟨disk', wroteInodes, touches, inodeBytes⟩
  have apart := layout.bitmapsApart _ lt _ lt
  have inAlloc : Touches fs.AllocSector fs.disk disk' :=
    (touchesMid.mono fun id inside => Or.inr (Or.inr ⟨_, lt, Or.inl inside⟩)).trans
      (touches.mono fun id inside => Or.inr (Or.inr ⟨_, lt, Or.inr inside⟩))
  refine ⟨disk', ?_, inAlloc, fun k below => ⟨?_, ?_⟩, ?_⟩
  · simp only [saveBitmap, dirty, Bool.not_true, Bool.false_eq_true, if_false, writeBlock,
      wroteBlocks, andThen, if_true]
    simp only [inodeBitmapBase] at wroteInodes ⊢
    simp only [wroteInodes, if_true]
  · rw [touches.blockBytes blockOn (fun id inside inBlock => apart
      (inBlock.2.symm.trans inside.2)) below, blockBytes k below]
  · rw [inodeBytes k below]
  · intro other otherLt ne
    have blocksNe := fun eq => ne (layout.blocksApart _ otherLt _ lt eq)
    have inodesNe := fun eq => ne (layout.inodesApart _ otherLt _ lt eq)
    refine SameBitmaps.trans (sameBitmaps_of_touches layout otherLt touchesMid ?_)
      (sameBitmaps_of_touches layout otherLt touches ?_)
    · exact fun id inside => ⟨fun inBlock => blocksNe (inBlock.2.symm.trans inside.2),
        fun inBlock => layout.bitmapsApart _ lt _ otherLt (inside.2.symm.trans inBlock.2)⟩
    · exact fun id inside => ⟨fun inBlock => layout.bitmapsApart _ otherLt _ lt
        (inBlock.2.symm.trans inside.2), fun inBlock => inodesNe (inBlock.2.symm.trans inside.2)⟩

/-- The writes at the end of an allocation or a release put the cached bitmaps on the card and
leave those of the other groups alone. -/
theorem saveAll_spec (layout : fs.Layout) (reliable : fs.disk.Reliable)
    (dirty : fs.bitmap.dirty = true) (lt : fs.bitmap.bg < fs.esb.totalGroups) :
    ∃ disk' sbBuf, fs.saveAll fs.bitmap.bg = (0, { fs with
        disk := disk', sbBuf, bitmap := { fs.bitmap with dirty := false } }) ∧
      Touches fs.AllocSector fs.disk disk' ∧ fs.Holds disk' fs.bitmap fs.bitmap.bg ∧
      ∀ other < fs.esb.totalGroups, other ≠ fs.bitmap.bg → fs.SameBitmaps fs.disk disk' other := by
  rcases saveBitmap_spec layout reliable dirty lt with ⟨first, saved, touches, holds, others⟩
  have reliableFirst := touches.reliable reliable
  rcases saveDpttable_touches layout.valid reliableFirst fs.dpttable lt with
    ⟨second, savedTable, touchesTable⟩
  have reliableSecond := touchesTable.reliable reliableFirst
  rcases @saveSb_spec { fs with disk := second, bitmap := { fs.bitmap with dirty := false } }
    reliableSecond with ⟨sbBuf, third, savedSb, touchesSb⟩
  have kept : ∀ other < fs.esb.totalGroups, fs.SameBitmaps first third other := fun other otherLt =>
    SameBitmaps.trans
      (sameBitmaps_of_touches layout otherLt touchesTable fun id inside =>
        layout.recordsApart other otherLt id (Or.inl inside))
      (sameBitmaps_of_touches layout otherLt touchesSb fun id inside =>
        layout.recordsApart other otherLt id (Or.inr inside))
  have inAlloc : Touches fs.AllocSector fs.disk third :=
    (touches.trans (touchesTable.mono fun _ => Or.inl)).trans
      (touchesSb.mono fun _ inside => Or.inr (Or.inl inside))
  refine ⟨third, sbBuf, ?_, inAlloc, (kept _ lt).holds holds, fun other otherLt ne =>
    (others other otherLt ne).trans (kept other otherLt)⟩
  simp only [saveAll, saved, andThen, if_true, savedTable, savedSb]

end Specs

end Fs

end Ninix.Ext2
