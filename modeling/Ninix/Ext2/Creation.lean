import Mathlib.Tactic.SplitIfs
import Ninix.Ext2.Directory
import Ninix.Ext2.FileGrowth
import Ninix.Vfs.PageContent

/-!
# Creating a file

`ext2_createinode` takes an inode, enters it in the directory, takes a block for the first page,
writes that and notes the new entry in the inode of the directory. Each step may fail, and none is
taken back when a later one does: what `apply_inode` has counted and marked stays so.

The pages of files are those of the cache of pages, with how each of their transfers goes a part
of the call. Index blocks and metadata are on the card.
-/

namespace Ninix.Ext2

open ByteBuffer Vfs

/-- What the functions here use of `struct inode`. -/
structure FileInode extends Inode where
  iSize : ℕ
  iCount : ℕ

/-- A mounted volume with the cache of pages. -/
structure CachedVolume where
  fs : Fs
  cache : PageCache Bytes

/-- How things go for a page of the directory: whether it can be had, and how the page evicted for
it is written. -/
structure PageIo where
  ready : Bool
  evict : WriteBlock Bytes

/-- How things go for a call of `ext2_createinode`: which of its `kmalloc` find memory, and the
transfers of the pages of the directory and of the first page of the file. -/
structure CreationIo where
  mapping : Bool
  inode : Bool
  aPage : Bool
  scan : ℕ → PageIo
  entry : WriteBlock Bytes
  page : Bool
  pData : Bool
  write : WriteBlock Bytes
  evict : WriteBlock Bytes

/-- The code of `-ENOMEM` -/
def errNoMem : ℕ := sub32 0 512

namespace Fs

/-- `ext2_writeinode` -/
def writeinode (fs : Fs) (inode : FileInode) : ℕ × Fs :=
  let (err, xinode, fs) := fs.readXinode inode.iIno zeros
  if err ≠ 0 then (err, fs)
  else
    let xinode := write32 xinode 4 inode.iSize
    fs.writeXinode inode.iIno (writeLE xinode 26 2 inode.iCount)

end Fs

/-- The records of `.` and `..` that `ext2_createinode` puts in the first page of a directory. -/
def dotRecords (size ino pIno : ℕ) : Bytes :=
  let dr := write32 zeros 0 ino
  let dr := writeLE dr 4 2 0xc
  let dr := writeLE dr 6 1 1
  let dr := writeLE dr 7 1 (dirType .dir)
  let dr := writeLE dr 8 1 0x2e
  let data := blit zeros 0 dr 0 0xc
  let dr := write32 dr 0 pIno
  let dr := writeLE dr 4 2 (size - 0xc)
  let dr := writeLE dr 6 1 2
  let dr := writeLE dr 9 1 0x2e
  blit data 0xc dr 0 0xc

/-- The first page of a new file. -/
def firstPage (size ino pIno : ℕ) : LastType → Bytes
  | .dir => dotRecords size ino pIno
  | .norm => zeros

/-- How the search for a place in a directory ends: with a page that cannot be had, without a
place, or with a page of the cache and a place in it. -/
inductive Search
  | noPage
  | full
  | found (p : ℕ) (place : Place)

namespace CachedVolume

section

variable (host : ℕ) (scan : ℕ → PageIo)

/-- `ext2_bmap` and `general_find_page` for a page of the directory with the inode `host`. -/
def findPage (m : CachedVolume) (inode : Inode) (vpn : ℕ) :
    Option (Option ℕ × Inode × CachedVolume) :=
  (m.fs.bmap inode vpn).bind fun (ppn, inode, fs) =>
    (m.cache.generalFindPage ppn host (scan vpn).ready (scan vpn).evict).map fun (page, cache) =>
      (page, inode, ⟨fs, cache⟩)

/-- The loop of `ext2_apply_direntry` over the pages, with the number of pages to go. -/
def search (lenNeeded1 : ℕ) :
    ℕ → ℕ → Inode → CachedVolume → Option (Search × Inode × CachedVolume)
  | 0, _, inode, m => some (.full, inode, m)
  | left + 1, vpn, inode, m =>
      (m.findPage host scan inode vpn).bind fun
        | (none, inode, m) => some (.noPage, inode, m)
        | (some p, inode, m) =>
            (m.cache.pages p).bind fun page =>
              (findInPage m.fs.esb.sBlksize lenNeeded1 page.pData (m.fs.esb.sBlksize + 1) 0).bind
                fun
                  | some place => some (.found p place, inode, m)
                  | none => search lenNeeded1 left (vpn + 1) inode m

end

/-- The end of `ext2_apply_direntry`: the entry is put in its place and its page written. -/
def putDirentry (m : CachedVolume) (entry : WriteBlock Bytes) (dr : Bytes) (name : Qstr)
    (ino : ℕ) (type : LastType) (p : ℕ) (place : Place) : Option (ℕ × CachedVolume) :=
  let data := blit place.page place.offset (newDirentry dr name ino place.lenTobe type) 0
    (lenNeeded name.len)
  (m.cache.modify p data).bind fun cache =>
    (cache.writepage p entry).map fun (err, cache) => (err.toNat, { m with cache })

/-- `ext2_apply_direntry` in the directory with the inode `host`. -/
def applyDirentry (m : CachedVolume) (host : ℕ) (io : CreationIo) (dr : Bytes) (inode : Inode)
    (name : Qstr) (ino : ℕ) (type : LastType) : Option (ℕ × Inode × CachedVolume) :=
  (m.search host io.scan (lenNeeded name.len) inode.iBlocks 0 inode).bind fun
    | (.noPage, inode, m) => some (errNoMem, inode, m)
    | (.found p place, inode, m) =>
        (m.putDirentry io.entry dr name ino type p place).map fun (err, m) => (err, inode, m)
    | (.full, inode, m) =>
        (m.fs.createPage inode 1).bind fun (pages, inode, fs) =>
          if pages ≠ 1 then some (errNoPage, inode, { m with fs })
          else
            (findPage host io.scan { m with fs } inode (sub32 inode.iBlocks 1)).bind fun
              | (none, inode, m) => some (errNoPage, inode, m)
              | (some p, inode, m) =>
                  (m.cache.pages p).bind fun page =>
                    (m.putDirentry io.entry dr name ino type p
                      ⟨page.pData, 0, m.fs.esb.sBlksize⟩).map fun (err, m) => (err, inode, m)

/-- The end of `ext2_createinode`: the entry is counted in the directory. -/
def countEntry (m : CachedVolume) (parent : FileInode) : ℕ × FileInode × CachedVolume :=
  let parent := { parent with iCount := u32 (parent.iCount + 1) }
  let (err, fs) := m.fs.writeinode parent
  (err, parent, { m with fs })

/-- The part of `ext2_createinode` behind `ext2_apply_direntry`: the first page of the file. -/
def fillInode (m : CachedVolume) (file : ℕ) (io : CreationIo) (parent : FileInode) (ino : ℕ)
    (type : LastType) : Option (ℕ × FileInode × CachedVolume) :=
  (m.fs.createPage ⟨ino, 0, fun _ => 0⟩ 1).bind fun (pages, inode, fs) =>
    if pages ≠ 1 then some (errNoPage, parent, { m with fs })
    else if !(io.page && io.pData) then some (errNoMem, parent, { m with fs })
    else
      (m.cache.createFirstPage file (inode.aPage 0)
          (firstPage fs.esb.sBlksize ino parent.iIno type) io.write io.evict).map fun cache =>
        if io.write.err then (1, parent, ⟨fs, cache⟩) else countEntry ⟨fs, cache⟩ parent

/-- `ext2_createinode`: its code, the inode of the directory and the volume. The inodes `host` of
the directory and `file` of the new file are told apart by where they are in memory, and `dr` is
what the stack holds. -/
def createinode (m : CachedVolume) (host file : ℕ) (io : CreationIo) (dr : Bytes)
    (parent : FileInode) (name : Qstr) (type : LastType) :
    Option (ℕ × FileInode × CachedVolume) :=
  if !(io.mapping && io.inode && io.aPage) then some (errNoMem, parent, m)
  else
    (m.fs.applyInode type).bind fun (err, ino, fs) =>
      if err ≠ 0 then some (err, parent, { m with fs })
      else
        (applyDirentry { m with fs } host io dr parent.toInode name ino type).bind
          fun (err, inode, m) =>
            let parent := { parent with toInode := inode }
            if err ≠ 0 then some (err, parent, m) else m.fillInode file io parent ino type

end CachedVolume

/-! ## What a failed creation is to leave alone -/

namespace Fs

/-- The inode bitmap of a group: the one in memory when the group is loaded. -/
def inodeBitmap (fs : Fs) (group : ℕ) : Bytes :=
  if fs.bitmap.bg = group then fs.bitmap.inodebit else fs.inodeBits group

/-- The bitmaps and the counts of inodes and directories are as before. -/
structure SameInodes (fs fs' : Fs) : Prop where
  bitmaps : ∀ group < fs.esb.totalGroups, ∀ k < fs.esb.sBlksize,
    fs'.inodeBitmap group k = fs.inodeBitmap group k
  unallocInodes : ∀ group < fs.esb.totalGroups, fs'.unallocInodes group = fs.unallocInodes group
  dirs : ∀ group < fs.esb.totalGroups, fs'.dirs group = fs.dirs group
  total : fs'.totalUnallocInodes = fs.totalUnallocInodes

/-- The block of a page by the pointers of the inode and the words of its index blocks. -/
def blockOf (fs : Fs) (inode : Inode) (vpn : ℕ) : ℕ :=
  match fs.esb.getLocation vpn with
  | none => minusOne32
  | some (dp, rest) => rest.foldl fs.word (inode.aPage dp)

end Fs

namespace CachedVolume

/-- The entries of a directory. -/
def listing (m : CachedVolume) (host : ℕ) (inode : Inode) : List Entry :=
  entries m.fs.esb.sBlksize
    ((List.range inode.iBlocks).map fun vpn => m.cache.pageData host (m.fs.blockOf inode vpn))

/-- A call has left the inodes alone and brought no new entry. -/
structure Undone (m : CachedVolume) (host : ℕ) (parent : FileInode) (parent' : FileInode)
    (m' : CachedVolume) : Prop where
  inodes : m.fs.SameInodes m'.fs
  noEntry : ∀ e ∈ m'.listing host parent'.toInode, e ∈ m.listing host parent.toInode

end CachedVolume

/-! ## Calls that leave the number of free inodes alone -/

/-- The superblock in memory counts a number of free inodes. -/
def Fs.CountsInodes (total : ℕ) (fs : Fs) : Prop := fs.totalUnallocInodes = total

namespace Fs.CountsInodes

section

variable {fs fs' : Fs} {total group block err : ℕ}

theorem andThen {result : ℕ × Fs} {next : Fs → ℕ × Fs} (counts : CountsInodes total result.2)
    (keeps : ∀ fs, CountsInodes total fs → CountsInodes total (next fs).2) :
    CountsInodes total (andThen result next).2 :=
  andThen_keeps counts (keeps _ counts)

theorem writeBlock (counts : CountsInodes total fs) (buf : Bytes) (block : ℕ) :
    CountsInodes total (fs.writeBlock buf block).2 := counts

theorem saveBitmap (counts : CountsInodes total fs) : CountsInodes total fs.saveBitmap.2 := by
  unfold Fs.saveBitmap
  split
  · exact counts
  · exact (counts.writeBlock _ _).andThen fun _ counts =>
      (counts.writeBlock _ _).andThen fun _ counts => counts

theorem loadBitmap (counts : CountsInodes total fs) (group : ℕ) :
    CountsInodes total (fs.loadBitmap group).2 := by
  unfold Fs.loadBitmap
  split
  · exact counts
  · have saved : CountsInodes total (if fs.bitmap.dirty then fs.saveBitmap.2 else fs) := by
      split
      · exact counts.saveBitmap
      · exact counts
    apply andThen saved
    exact fun _ counts => andThen counts fun _ counts => counts

theorem saveItable (counts : CountsInodes total fs) : CountsInodes total fs.saveItable.2 :=
  (counts.writeBlock _ _).andThen fun _ counts => counts

theorem loadItable (counts : CountsInodes total fs) (group block : ℕ) :
    CountsInodes total (fs.loadItable group block).2 := by
  unfold Fs.loadItable
  split
  · exact counts
  · refine andThen ?_ fun _ counts => andThen counts fun _ counts => counts
    split
    · exact counts.saveItable
    · exact counts

/-- `write_xinode` behind `load_bitmap`, for any place in the table. -/
theorem writeRecord {result : ℕ × Fs} (counts : CountsInodes total result.2) (index : ℕ)
    (xinode : Bytes) :
    CountsInodes total (Ext2.andThen result fun fs =>
      if checkIorb fs.bitmap.inodebit index = 0 then (errNoInode, fs)
      else
        Ext2.andThen (fs.loadItable group (fs.inodeBlock index)) fun fs =>
          let buf := blit fs.itable.buf (fs.inodeOffset index) xinode 0 inodeSizeValid
          Fs.saveItable { fs with itable := { fs.itable with buf } }).2 := by
  refine andThen counts fun fs counts => ?_
  split
  · exact counts
  · refine (counts.loadItable _ _).andThen fun fs counts => ?_
    exact saveItable counts

theorem writeXinode (counts : CountsInodes total fs) (ino : ℕ) (xinode : Bytes) :
    CountsInodes total (fs.writeXinode ino xinode).2 := by
  unfold Fs.writeXinode
  generalize fs.inodeGroup ino = group
  generalize fs.inodeIndex ino = index
  exact writeRecord (counts.loadBitmap group) index xinode

theorem readXinode (counts : CountsInodes total fs) (ino : ℕ) (xinode : Bytes) :
    CountsInodes total (fs.readXinode ino xinode).2.2 := by
  have loaded := counts.loadBitmap (fs.inodeGroup ino)
  unfold Fs.readXinode
  dsimp only
  split_ifs
  · exact loaded
  · exact loaded
  · exact loaded.loadItable _ _
  · exact loaded.loadItable _ _

theorem saveSb (counts : CountsInodes total fs) : CountsInodes total fs.saveSb.2 := by
  unfold Fs.saveSb
  dsimp only
  split
  · exact counts
  · exact counts

theorem saveAll (counts : CountsInodes total fs) (group : ℕ) :
    CountsInodes total (fs.saveAll group).2 := by
  refine counts.saveBitmap.andThen fun _ counts => ?_
  exact andThen counts fun _ counts => counts.saveSb

theorem writeinode (counts : CountsInodes total fs) (inode : FileInode) :
    CountsInodes total (fs.writeinode inode).2 := by
  have read := counts.readXinode inode.iIno zeros
  unfold Fs.writeinode
  dsimp only
  split
  · exact read
  · exact read.writeXinode _ _

theorem applyBlock (counts : CountsInodes total fs)
    (applied : fs.applyBlock group = some (err, block, fs')) : CountsInodes total fs' := by
  have loaded := counts.loadBitmap group
  unfold Fs.applyBlock at applied
  dsimp only at applied
  split_ifs at applied
  · cases applied
    exact counts
  · cases applied
    exact loaded
  · rcases Option.map_eq_some_iff.mp applied with ⟨index, _, eq⟩
    cases eq
    have taken : CountsInodes total ((fs.loadBitmap group).2.takeBlock group index) := loaded
    exact taken.saveAll _

end

end Fs.CountsInodes

namespace Growth

variable {s s' : Growth} {total group blockNo err : ℕ}

/-- The part of a round below an index block. -/
theorem register_countsInodes {indices : List ℕ} {block : ℕ} (counts : s.fs.CountsInodes total)
    (registered : register group blockNo indices block s = some (err, s')) :
    s'.fs.CountsInodes total := by
  induction indices generalizing block s with
  | nil =>
      cases registered
      exact counts
  | cons i rest ih =>
      rw [register] at registered
      dsimp only [readIndex, writeIndex] at registered
      split at registered
      · cases registered
        exact counts
      · cases rest with
        | nil =>
            cases registered
            exact counts
        | cons j rest =>
            dsimp only at registered
            split at registered
            · refine ih ?_ registered
              exact counts
            · rcases Option.bind_eq_some_iff.mp registered with ⟨⟨err, next, fs⟩, applied, rest⟩
              have kept : fs.CountsInodes total := by
                refine Fs.CountsInodes.applyBlock ?_ applied
                exact counts
              dsimp only at rest
              split at rest
              · cases rest
                exact kept
              · refine ih ?_ rest
                exact kept

theorem growStep_countsInodes {vpn : ℕ} (counts : s.fs.CountsInodes total)
    (stepped : s.growStep vpn = some (err, blockNo, s')) : s'.fs.CountsInodes total := by
  unfold growStep at stepped
  split at stepped
  · cases stepped
    exact counts
  · rcases Option.bind_eq_some_iff.mp stepped with ⟨⟨err, block, fs⟩, applied, rest⟩
    have kept := counts.applyBlock applied
    dsimp only at rest
    split at rest
    · cases rest
      exact kept
    · split at rest
      · cases rest
        exact kept
      · split at rest
        · rcases Option.map_eq_some_iff.mp rest with ⟨⟨err, last⟩, registered, eq⟩
          cases eq
          refine register_countsInodes ?_ registered
          exact kept
        · rcases Option.bind_eq_some_iff.mp rest with ⟨⟨err, next, fs'⟩, appliedNext, rest⟩
          have keptNext := kept.applyBlock appliedNext
          dsimp only at rest
          split at rest
          · cases rest
            exact keptNext
          · rcases Option.map_eq_some_iff.mp rest with ⟨⟨err, last⟩, registered, eq⟩
            cases eq
            refine register_countsInodes ?_ registered
            exact keptNext

theorem growLoop_countsInodes {vpn left : ℕ} {blocks : List ℕ} (counts : s.fs.CountsInodes total)
    (looped : s.growLoop vpn left = some (err, blocks, s')) : s'.fs.CountsInodes total := by
  induction left generalizing s vpn blocks with
  | zero =>
      cases looped
      exact counts
  | succ left ih =>
      rw [growLoop] at looped
      rcases Option.bind_eq_some_iff.mp looped with ⟨⟨err, block, next⟩, stepped, rest⟩
      have kept := growStep_countsInodes counts stepped
      dsimp only at rest
      split at rest
      · cases rest
        exact kept
      · rcases Option.map_eq_some_iff.mp rest with ⟨⟨err, blocks, last⟩, loopedRest, eq⟩
        cases eq
        exact ih kept loopedRest

end Growth

namespace Fs.CountsInodes

variable {fs fs' : Fs} {inode inode' : Inode} {total cnt vpn pages : ℕ}

theorem createPage (counts : fs.CountsInodes total)
    (created : fs.createPage inode cnt = some (pages, inode', fs')) : fs'.CountsInodes total := by
  have started : (fs.startGrowth inode).2.fs.CountsInodes total :=
    counts.readXinode inode.iIno zeros
  rcases Option.map_eq_some_iff.mp created with ⟨⟨pages, blocks, inode', last⟩, ran, eq⟩
  cases eq
  unfold createPages at ran
  dsimp only at ran
  split at ran
  · cases ran
    exact started
  · rcases Option.map_eq_some_iff.mp ran with ⟨⟨err, blocks, s⟩, looped, eq⟩
    have kept := Growth.growLoop_countsInodes started looped
    dsimp only at eq
    split at eq
    · cases eq
      exact kept
    · cases eq
      exact kept.writeXinode _ _

theorem followMap (counts : fs.CountsInodes total) {buf : Bytes} {block : ℕ} {indices : List ℕ} :
    (fs.followMap buf block indices).2.CountsInodes total := by
  induction indices generalizing fs buf block with
  | nil => exact counts
  | cons i rest ih =>
      rw [Fs.followMap]
      dsimp only
      split
      · exact counts
      · refine ih ?_
        exact counts

theorem bmap (counts : fs.CountsInodes total) {ppn : ℕ}
    (mapped : fs.bmap inode vpn = some (ppn, inode', fs')) : fs'.CountsInodes total := by
  rcases Option.map_eq_some_iff.mp mapped with ⟨⟨pages, grown, mid⟩, growth, eq⟩
  have kept : mid.CountsInodes total := by
    split at growth
    · exact counts.createPage growth
    · cases growth
      exact counts
  dsimp only at eq
  split at eq
  · cases eq
    exact kept
  · split at eq
    · cases eq
      exact kept
    · cases eq
      exact kept.followMap

end Fs.CountsInodes

/-! ## A load of bitmaps that fails -/

/-- Whether or not a write succeeds, it leaves the other blocks alone. -/
theorem writeBlock_touches {esb : ExtSb} {disk : Disk} {block : ℕ} (onCard : esb.OnCard block)
    (buf : Bytes) : Touches (esb.InBlock block) disk
      (disk.writeBlock buf (esb.blockSector block) esb.sectsPerBlock).2 := by
  have fits := onCard.blockSector.2
  rcases disk.writeBlock_frame buf fits with ⟨fault, sector⟩
  rcases disk.writeBlock_log buf fits with ⟨log, logged, inside⟩
  refine ⟨fault, fun id outside => sector id ?_, log, logged,
    fun id mem => onCard.inBlock_iff.mpr (inside id mem)⟩
  rw [onCard.inBlock_iff] at outside
  omega

namespace Fs

section

variable {fs : Fs} {group : ℕ}

/-- Reading the bitmaps of a group fails and leaves the inode bitmap in memory as it is: the read
of the block bitmap fails, or that of the inode bitmap does, and what it has put in the buffer by
then is what was there, unless there was nothing. -/
def LoadSpares (fs : Fs) (group : ℕ) : Prop :=
  fs.bitmap.bg ≠ group ∧
    let saved := if fs.bitmap.dirty then fs.saveBitmap.2 else fs
    let count := fs.esb.sectsPerBlock
    let base := fs.esb.blockSector (fs.blockBitmapBase group)
    let base' := fs.esb.blockSector (fs.inodeBitmapBase group)
    let disk : Disk := { saved.disk with transfers := saved.disk.transfers + count }
    saved.disk.firstFault base 0 count ≠ none ∨
      ∃ stop, disk.firstFault base' 0 count = some stop ∧
        (fs.bitmap.bg < fs.esb.totalGroups →
          ∀ k < sectorBytes * stop, disk.bytesAt base' k = fs.bitmap.inodebit k)

/-- Whether or not `save_bitmap` succeeds, it writes the bitmaps of the loaded group only. -/
theorem saveBitmap_frame (layout : fs.Layout) (lt : fs.bitmap.bg < fs.esb.totalGroups) :
    ∃ disk dirty, fs.saveBitmap.2 = { fs with disk, bitmap := { fs.bitmap with dirty } } ∧
      Touches fs.AllocSector fs.disk disk ∧
      ∀ other < fs.esb.totalGroups, other ≠ fs.bitmap.bg → fs.SameBitmaps fs.disk disk other := by
  rcases layout.onCard _ lt with ⟨blockOn, inodeOn, _⟩
  have first := @writeBlock_touches fs.esb.toExtSb fs.disk _ blockOn fs.bitmap.blockbit
  generalize firstEq : (fs.disk.writeBlock fs.bitmap.blockbit
    (fs.esb.blockSector (fs.blockBitmapBase fs.bitmap.bg)) fs.esb.sectsPerBlock).2 = disk at first
  have second := @writeBlock_touches fs.esb.toExtSb disk _ inodeOn fs.bitmap.inodebit
  have blocksOnly : ∀ other < fs.esb.totalGroups, other ≠ fs.bitmap.bg →
      fs.SameBitmaps fs.disk disk other := fun other otherLt ne =>
    sameBitmaps_of_touches layout otherLt first fun id inside =>
      ⟨fun inBlock => ne (layout.blocksApart _ otherLt _ lt (inBlock.2.symm.trans inside.2)),
        fun inBlock => layout.bitmapsApart _ lt _ otherLt (inside.2.symm.trans inBlock.2)⟩
  have inodesOnly : ∀ other < fs.esb.totalGroups, other ≠ fs.bitmap.bg → fs.SameBitmaps disk
      (disk.writeBlock fs.bitmap.inodebit
        (fs.esb.blockSector (fs.inodeBitmapBase fs.bitmap.bg)) fs.esb.sectsPerBlock).2 other :=
    fun other otherLt ne => sameBitmaps_of_touches layout otherLt second fun id inside =>
      ⟨fun inBlock => layout.bitmapsApart _ otherLt _ lt (inBlock.2.symm.trans inside.2),
        fun inBlock => ne (layout.inodesApart _ otherLt _ lt (inBlock.2.symm.trans inside.2))⟩
  have inAlloc : Touches fs.AllocSector fs.disk disk :=
    first.mono fun id inside => Or.inr (Or.inr ⟨_, lt, Or.inl inside⟩)
  have inAlloc' := inAlloc.trans
    (second.mono fun id inside => Or.inr (Or.inr ⟨_, lt, Or.inr inside⟩))
  have bothOnly := fun other otherLt ne => (blocksOnly other otherLt ne).trans
    (inodesOnly other otherLt ne)
  unfold saveBitmap
  split
  · exact ⟨fs.disk, fs.bitmap.dirty, rfl, .refl, fun _ _ _ _ _ => ⟨rfl, rfl⟩⟩
  · simp only [andThen, writeBlock, firstEq]
    split
    · split
      · exact ⟨_, false, rfl, inAlloc', bothOnly⟩
      · exact ⟨_, fs.bitmap.dirty, rfl, inAlloc', bothOnly⟩
    · exact ⟨disk, fs.bitmap.dirty, rfl, inAlloc, blocksOnly⟩

theorem sectsPerBlock_ne_one (esb : ExtSb) : esb.sectsPerBlock ≠ 1 := by
  rw [ExtSb.sectsPerBlock_eq]
  omega

/-- The transfers of `load_bitmap` one after the other: which of the two reads fails, and what
that leaves in memory. -/
theorem loadBitmap_cases {saved : Fs} (ne : fs.bitmap.bg ≠ group)
    (isSaved : (if fs.bitmap.dirty then fs.saveBitmap.2 else fs) = saved)
    (inodeBase : saved.inodeBitmapBase group = fs.inodeBitmapBase group)
    (blockBase : saved.blockBitmapBase group = fs.blockBitmapBase group)
    (esb : saved.esb = fs.esb) :
    let count := fs.esb.sectsPerBlock
    let base := fs.esb.blockSector (fs.blockBitmapBase group)
    let base' := fs.esb.blockSector (fs.inodeBitmapBase group)
    let disk : Disk := { saved.disk with transfers := saved.disk.transfers + count }
    (saved.disk.firstFault base 0 count ≠ none ∧ ∃ transfers blockbit, fs.loadBitmap group =
      (1, { saved with
        disk := { saved.disk with transfers }
        bitmap := { saved.bitmap with blockbit } })) ∨
    (saved.disk.firstFault base 0 count = none ∧ disk.firstFault base' 0 count = none ∧
      (fs.loadBitmap group).1 = 0) ∨
    saved.disk.firstFault base 0 count = none ∧ ∃ stop, disk.firstFault base' 0 count = some stop ∧
      ∃ transfers blockbit inodebit, fs.loadBitmap group =
        (1, { saved with
          disk := { saved.disk with transfers }
          bitmap := { saved.bitmap with blockbit, inodebit } }) ∧
        ∀ k, inodebit k =
          if k < sectorBytes * stop then disk.bytesAt base' k else saved.bitmap.inodebit k := by
  have several := sectsPerBlock_ne_one fs.esb.toExtSb
  dsimp only
  unfold loadBitmap
  rw [if_neg ne]
  simp only [isSaved, blockBase, esb, Disk.readBlock, if_neg several]
  generalize diskEq : ({ saved.disk with
    transfers := saved.disk.transfers + fs.esb.sectsPerBlock } : Disk) = disk
  cases fails : saved.disk.firstFault (fs.esb.blockSector (fs.blockBitmapBase group)) 0
      fs.esb.sectsPerBlock with
  | some stop =>
      rcases Disk.sdReadLoop_fault fails saved.bitmap.blockbit with ⟨blockbit, transfers, ran, _⟩
      refine Or.inl ⟨by simp, transfers, blockbit, ?_⟩
      rw [ran]
      rfl
  | none =>
      rcases Disk.sdReadLoop_faultless fails saved.bitmap.blockbit with ⟨blockbit, ran, _⟩
      rw [ran, diskEq]
      have sameBase : ∀ bitmap, ({ saved with esb := fs.esb, disk, bitmap } : Fs).inodeBitmapBase
          group = fs.inodeBitmapBase group := fun _ => inodeBase
      simp only [andThen, if_true, if_neg several, sameBase]
      cases failsToo : disk.firstFault (fs.esb.blockSector (fs.inodeBitmapBase group)) 0
          fs.esb.sectsPerBlock with
      | some stop =>
          rcases Disk.sdReadLoop_fault failsToo saved.bitmap.inodebit with
            ⟨inodebit, transfers, ranToo, bytes⟩
          refine Or.inr (Or.inr ⟨trivial, stop, rfl, transfers, blockbit, inodebit, ?_, ?_⟩)
          · simp only [ranToo]
            subst diskEq
            rfl
          · intro k
            rw [bytes k, Nat.mul_zero]
            simp
      | none =>
          rcases Disk.sdReadLoop_faultless failsToo saved.bitmap.inodebit with
            ⟨inodebit, ranToo, _⟩
          refine Or.inr (Or.inl ⟨trivial, rfl, ?_⟩)
          simp only [ranToo, if_true]

/-- What a failed load leaves of the inodes. -/
theorem sameInodes_iff {disk : Disk} {dirty : Bool} {blockbit inodebit : Bytes}
    (others : ∀ other < fs.esb.totalGroups, other ≠ fs.bitmap.bg →
      fs.SameBitmaps fs.disk disk other) :
    fs.SameInodes { fs with disk, bitmap := ⟨fs.bitmap.bg, dirty, blockbit, inodebit⟩ } ↔
      (fs.bitmap.bg < fs.esb.totalGroups →
        ∀ k < fs.esb.sBlksize, inodebit k = fs.bitmap.inodebit k) := by
  constructor
  · intro same lt k below
    have here := same.bitmaps _ lt k below
    unfold inodeBitmap at here
    rwa [if_pos rfl, if_pos rfl] at here
  · intro kept
    refine ⟨fun other lt k below => ?_, fun _ _ => rfl, fun _ _ => rfl, rfl⟩
    unfold inodeBitmap
    by_cases loaded : fs.bitmap.bg = other
    · rw [if_pos loaded, if_pos loaded]
      exact kept (loaded ▸ lt) k below
    · rw [if_neg loaded, if_neg loaded]
      exact (others other lt (Ne.symm loaded) k below).2

/-- A load of bitmaps that fails spares the inodes exactly when it says so, and touches nothing but
bitmaps. -/
theorem loadBitmap_spares (layout : fs.Layout)
    (isGroup : fs.bitmap.dirty = true → fs.bitmap.bg < fs.esb.totalGroups) :
    (fs.LoadSpares group → (fs.loadBitmap group).1 ≠ 0) ∧
      ((fs.loadBitmap group).1 ≠ 0 → ∃ disk bitmap,
        (fs.loadBitmap group).2 = { fs with disk, bitmap } ∧ Touches fs.AllocSector fs.disk disk ∧
          (fs.SameInodes { fs with disk, bitmap } ↔ fs.LoadSpares group)) := by
  have frame : ∃ disk dirty, (if fs.bitmap.dirty then fs.saveBitmap.2 else fs) =
        { fs with disk, bitmap := { fs.bitmap with dirty } } ∧
      Touches fs.AllocSector fs.disk disk ∧
      ∀ other < fs.esb.totalGroups, other ≠ fs.bitmap.bg → fs.SameBitmaps fs.disk disk other := by
    split
    · rename_i dirty
      exact saveBitmap_frame layout (isGroup dirty)
    · exact ⟨fs.disk, fs.bitmap.dirty, rfl, .refl, fun _ _ _ _ _ => ⟨rfl, rfl⟩⟩
  rcases frame with ⟨disk, dirty, isSaved, touches, others⟩
  by_cases loaded : fs.bitmap.bg = group
  · have here : fs.loadBitmap group = (0, fs) := if_pos loaded
    refine ⟨fun spares => absurd loaded spares.1, fun failed => ?_⟩
    rw [here] at failed
    exact absurd rfl failed
  have spares : fs.LoadSpares group ↔ _ := and_iff_right loaded
  dsimp only at spares
  simp only [isSaved] at spares
  have cases := loadBitmap_cases loaded isSaved rfl rfl rfl
  dsimp only at cases
  rw [spares]
  rcases cases with ⟨fails, transfers, blockbit, eq⟩ | ⟨first, second, zero⟩ |
    ⟨first, stop, second, transfers, blockbit, inodebit, eq, bytes⟩
  · rw [eq]
    refine ⟨fun _ => by simp, fun _ => ⟨_, _, rfl, touches.trans (.read transfers), ?_⟩⟩
    refine (@sameInodes_iff fs { disk with transfers } dirty blockbit _ others).trans ?_
    exact iff_of_true (fun _ _ _ => rfl) (Or.inl fails)
  · rw [zero, first, second]
    simp
  · rw [eq]
    refine ⟨fun _ => by simp, fun _ => ⟨_, _, rfl, touches.trans (.read transfers), ?_⟩⟩
    refine (@sameInodes_iff fs { disk with transfers } dirty blockbit inodebit others).trans ?_
    rw [first, second]
    have bound := (Disk.firstFault_lt second).2
    have size := @ExtSb.sBlksize_eq fs.esb.toExtSb
    have inside : ∀ k < sectorBytes * stop, k < fs.esb.sBlksize := by
      intro k lt
      rw [size]
      unfold sectorBytes at lt ⊢
      omega
    constructor
    · refine fun same => Or.inr ⟨stop, rfl, fun isLoaded k lt => ?_⟩
      have here := same isLoaded k (inside k lt)
      rwa [bytes k, if_pos lt] at here
    · rintro (absurdity | ⟨_, isStop, same⟩) isLoaded k below
      · exact absurd rfl absurdity
      · cases isStop
        rw [bytes k]
        split
        · rename_i lt
          exact same isLoaded k lt
        · rfl

end

end Fs

/-! ## Creations that fail -/

namespace Fs

section

variable {fs fs' : Fs} {err ino : ℕ} {type : LastType}

/-- `apply_inode` fails before it changes anything but the loaded bitmaps, or counts an inode. -/
theorem applyInode_cases (applied : fs.applyInode type = some (err, ino, fs')) :
    (fs.totalUnallocInodes = 0 ∧ err = 1 ∧ fs' = fs) ∨
      (fs.totalUnallocInodes ≠ 0 ∧ (fs.loadBitmap fs.findGroup).1 ≠ 0 ∧
        (err, fs') = fs.loadBitmap fs.findGroup) ∨
      (fs.totalUnallocInodes ≠ 0 ∧ (fs.loadBitmap fs.findGroup).1 = 0 ∧
        fs'.CountsInodes (sub32 fs.totalUnallocInodes 1)) := by
  have loaded := CountsInodes.loadBitmap (rfl : fs.CountsInodes fs.totalUnallocInodes) fs.findGroup
  unfold applyInode at applied
  dsimp only at applied
  split at applied
  · rename_i full
    cases applied
    exact Or.inl ⟨full, rfl, rfl⟩
  · rename_i some
    split at applied
    · rename_i failed
      cases applied
      exact Or.inr (Or.inl ⟨some, failed, rfl⟩)
    · rename_i zero
      rcases Option.map_eq_some_iff.mp applied with ⟨byte, _, eq⟩
      cases eq
      refine Or.inr (Or.inr ⟨some, not_not.mp zero, ?_⟩)
      refine CountsInodes.andThen (CountsInodes.writeXinode ?_ _ _) fun _ counts => counts.saveAll _
      exact congrArg (sub32 · 1) loaded

end

end Fs

namespace CachedVolume

section

variable {m m' : CachedVolume} {total host file err : ℕ} {io : CreationIo} {inode inode' : Inode}
  {parent parent' : FileInode} {name : Qstr} {type : LastType} {dr : Bytes} {ino : ℕ}

/-! After `apply_inode` nothing touches the count again. -/

theorem findPage_countsInodes {scan : ℕ → PageIo} {vpn : ℕ} {page : Option ℕ}
    (counts : m.fs.CountsInodes total)
    (found : m.findPage host scan inode vpn = some (page, inode', m')) :
    m'.fs.CountsInodes total := by
  rcases Option.bind_eq_some_iff.mp found with ⟨⟨ppn, grown, fs⟩, mapped, rest⟩
  rcases Option.map_eq_some_iff.mp rest with ⟨⟨p, cache⟩, _, eq⟩
  cases eq
  exact counts.bmap mapped

theorem search_countsInodes {scan : ℕ → PageIo} {needed left vpn : ℕ} {result : Search}
    (counts : m.fs.CountsInodes total)
    (searched : m.search host scan needed left vpn inode = some (result, inode', m')) :
    m'.fs.CountsInodes total := by
  induction left generalizing m vpn inode with
  | zero =>
      cases searched
      exact counts
  | succ left ih =>
      rcases Option.bind_eq_some_iff.mp searched with ⟨⟨page, grown, mid⟩, found, rest⟩
      have kept := findPage_countsInodes counts found
      cases page with
      | none =>
          cases rest
          exact kept
      | some p =>
          rcases Option.bind_eq_some_iff.mp rest with ⟨data, _, rest⟩
          rcases Option.bind_eq_some_iff.mp rest with ⟨place, _, rest⟩
          cases place with
          | some place =>
              cases rest
              exact kept
          | none => exact ih kept rest

theorem putDirentry_countsInodes {entry : WriteBlock Bytes} {p : ℕ} {place : Place}
    (counts : m.fs.CountsInodes total)
    (put : m.putDirentry entry dr name ino type p place = some (err, m')) :
    m'.fs.CountsInodes total := by
  rcases Option.bind_eq_some_iff.mp put with ⟨cache, _, rest⟩
  rcases Option.map_eq_some_iff.mp rest with ⟨⟨failed, cache'⟩, _, eq⟩
  cases eq
  exact counts

theorem applyDirentry_countsInodes (counts : m.fs.CountsInodes total)
    (applied : m.applyDirentry host io dr inode name ino type = some (err, inode', m')) :
    m'.fs.CountsInodes total := by
  rcases Option.bind_eq_some_iff.mp applied with ⟨⟨result, grown, mid⟩, searched, rest⟩
  have kept := search_countsInodes counts searched
  cases result with
  | noPage =>
      cases rest
      exact kept
  | found p place =>
      rcases Option.map_eq_some_iff.mp rest with ⟨⟨failed, last⟩, put, eq⟩
      cases eq
      exact putDirentry_countsInodes kept put
  | full =>
      rcases Option.bind_eq_some_iff.mp rest with ⟨⟨pages, inode, fs⟩, created, rest⟩
      have keptPage := kept.createPage created
      dsimp only at rest
      split at rest
      · cases rest
        exact keptPage
      · rcases Option.bind_eq_some_iff.mp rest with ⟨⟨page, inode, last⟩, found, rest⟩
        have keptFound := findPage_countsInodes keptPage found
        cases page with
        | none =>
            cases rest
            exact keptFound
        | some p =>
            rcases Option.bind_eq_some_iff.mp rest with ⟨data, _, rest⟩
            rcases Option.map_eq_some_iff.mp rest with ⟨⟨failed, m₁⟩, put, eq⟩
            cases eq
            exact putDirentry_countsInodes keptFound put

theorem fillInode_countsInodes (counts : m.fs.CountsInodes total)
    (filled : m.fillInode file io parent ino type = some (err, parent', m')) :
    m'.fs.CountsInodes total := by
  rcases Option.bind_eq_some_iff.mp filled with ⟨⟨pages, inode, fs⟩, created, rest⟩
  have kept := counts.createPage created
  dsimp only at rest
  split_ifs at rest
  · cases rest
    exact kept
  · cases rest
    exact kept
  · rcases Option.map_eq_some_iff.mp rest with ⟨cache, _, eq⟩
    cases eq
    exact kept
  · rcases Option.map_eq_some_iff.mp rest with ⟨cache, _, eq⟩
    cases eq
    exact kept.writeinode _

end

/-- Where a directory lies: the metadata is where it belongs, a dirty bitmap is that of a group,
and the index blocks of the directory hold no metadata. -/
structure WellPlaced (m : CachedVolume) (parent : FileInode) : Prop where
  layout : m.fs.Layout
  isGroup : m.fs.bitmap.dirty = true → m.fs.bitmap.bg < m.fs.esb.totalGroups
  indexBlocks : ∀ vpn < parent.iBlocks, ∀ dp front i back,
    m.fs.esb.getLocation vpn = some (dp, front ++ i :: back) →
      m.fs.esb.OnCard (front.foldl m.fs.word (parent.aPage dp)) ∧
        m.fs.Apart (front.foldl m.fs.word (parent.aPage dp))

/-- A call that fails has touched no inode: a `kmalloc` at its start finds no memory, no inode is
free, or the bitmaps of the first group with a free inode cannot be loaded. -/
def FailsFirst (m : CachedVolume) (io : CreationIo) : Prop :=
  (io.mapping && io.inode && io.aPage) = false ∨ m.fs.totalUnallocInodes = 0 ∨
    m.fs.LoadSpares m.fs.findGroup

section

variable {m m' : CachedVolume} {host file err : ℕ} {io : CreationIo}
  {parent parent' : FileInode} {name : Qstr} {type : LastType} {dr : Bytes}

/-- Writing bitmaps changes no block of the directory. -/
theorem WellPlaced.blockOf (placed : m.WellPlaced parent) {disk : Disk} {bitmap : BitmapCache}
    (touches : Touches m.fs.AllocSector m.fs.disk disk) {vpn : ℕ} (lt : vpn < parent.iBlocks) :
    ({ m.fs with disk, bitmap } : Fs).blockOf parent.toInode vpn =
      m.fs.blockOf parent.toInode vpn := by
  have same : Fs.SameLayout m.fs { m.fs with disk, bitmap } :=
    ⟨rfl, fun _ => rfl, fun _ => rfl, fun _ => rfl⟩
  unfold Fs.blockOf
  cases located : m.fs.esb.getLocation vpn with
  | none => rfl
  | some location =>
      rcases location with ⟨dp, rest⟩
      have indices := (ExtSb.getLocation_spec located).2.2.2
      -- the words followed so far are the same
      suffices h : ∀ front back, rest = front ++ back →
          front.foldl ({ m.fs with disk, bitmap } : Fs).word (parent.aPage dp) =
            front.foldl m.fs.word (parent.aPage dp) by
        exact h rest [] (List.append_nil rest).symm
      intro front
      induction front using List.reverseRecOn with
      | nil => exact fun _ _ => rfl
      | append_singleton front i ih =>
          intro back split
          rw [List.append_assoc, List.singleton_append] at split
          rcases placed.indexBlocks vpn lt dp front i back (split ▸ located) with ⟨onCard, apart⟩
          have small := indices i (by rw [split]; simp)
          rw [List.foldl_append, List.foldl_append, ih (i :: back) split]
          exact Fs.word_of_touches same touches onCard
            (fun id inside => apart id inside.metaSector) small

/-- A creation that fails leaves the inodes and the directory alone exactly when it fails before
it has taken an inode. -/
theorem creationUndone_iff (placed : m.WellPlaced parent)
    (called : m.createinode host file io dr parent name type = some (err, parent', m'))
    (failed : err ≠ 0) : m.Undone host parent parent' m' ↔ m.FailsFirst io := by
  unfold createinode at called
  split at called
  · rename_i noMemory
    cases called
    refine iff_of_true ⟨⟨fun _ _ _ _ => rfl, fun _ _ => rfl, fun _ _ => rfl, rfl⟩,
      fun _ mem => mem⟩ (Or.inl ?_)
    rwa [Bool.not_eq_true'] at noMemory
  · rename_i memory
    rcases Option.bind_eq_some_iff.mp called with ⟨⟨code, ino, fs⟩, applied, rest⟩
    rcases Fs.applyInode_cases applied with ⟨full, rfl, rfl⟩ | ⟨some, loadFails, eq⟩ |
      ⟨some, loads, counts⟩
    · cases rest
      exact iff_of_true ⟨⟨fun _ _ _ _ => rfl, fun _ _ => rfl, fun _ _ => rfl, rfl⟩,
        fun _ mem => mem⟩ (Or.inr (Or.inl full))
    · rcases Fs.loadBitmap_spares placed.layout placed.isGroup with ⟨_, spares⟩
      rcases spares loadFails with ⟨disk, bitmap, loaded, touches, sameInodes⟩
      rw [← eq] at loadFails loaded
      dsimp only at loadFails loaded
      subst loaded
      dsimp only at rest
      rw [if_pos loadFails] at rest
      cases rest
      have entriesKept : CachedVolume.listing ⟨{ m.fs with disk, bitmap }, m.cache⟩ host
          parent.toInode = m.listing host parent.toInode := by
        unfold listing
        congr 1
        apply List.map_congr_left
        intro vpn mem
        rw [placed.blockOf touches (List.mem_range.mp mem)]
      constructor
      · exact fun undone => Or.inr (Or.inr (sameInodes.mp undone.inodes))
      · rintro (noMemory | full | spared)
        · rw [noMemory] at memory
          exact absurd rfl memory
        · exact absurd full some
        · exact ⟨sameInodes.mpr spared, fun e mem => entriesKept ▸ mem⟩
    · -- the inode is counted, and nothing behind it counts it back
      have counted : m'.fs.CountsInodes (sub32 m.fs.totalUnallocInodes 1) := by
        dsimp only at rest
        split at rest
        · cases rest
          exact counts
        · rcases Option.bind_eq_some_iff.mp rest with ⟨⟨code, inode, mid⟩, registered, rest⟩
          have kept := applyDirentry_countsInodes counts registered
          dsimp only at rest
          split at rest
          · cases rest
            exact kept
          · exact fillInode_countsInodes kept rest
      have spare := @Fs.loadBitmap_spares m.fs m.fs.findGroup placed.layout placed.isGroup
      refine iff_of_false (fun undone => ?_) ?_
      · have same := counted.symm.trans undone.inodes.total
        unfold sub32 at same
        omega
      · rintro (noMemory | full | spared)
        · rw [noMemory] at memory
          exact memory rfl
        · exact some full
        · exact spare.1 spared loads

end

/-! ## A volume without a free block -/

/-- A directory with one page, in block 7. -/
def rootInode : FileInode := ⟨⟨2, 1, fun dp => if dp = 0 then 7 else 0⟩, 1024, 2⟩

/-- The volume of one group has free inodes but no free block. -/
def oneGroup : CachedVolume where
  fs := Fs.oneGroup
  cache := .initCache (fun _ => 0) fun _ _ => dotRecords 1024 2 2

/-- Memory is there, and pages are transferred. -/
def smooth : CreationIo :=
  ⟨true, true, true, fun _ => ⟨true, .done⟩, .done, true, true, .done, .done⟩

def nameA : Qstr := ⟨fun _ => 0x41, 1⟩

/-- The same volume on a card that answers no transfer. -/
def silent : CachedVolume :=
  { oneGroup with
    fs := { Fs.oneGroup with disk := { Fs.oneGroup.disk with fault := fun _ _ => 1 } } }

/-- Where nothing can be read, a file is not created and no inode is touched. -/
theorem creationUndone_iff_silent : ∃ err parent m,
    silent.createinode 0 1 smooth zeros rootInode nameA .norm = some (err, parent, m) ∧
      err ≠ 0 ∧ silent.Undone 0 rootInode parent m := by
  have placed : silent.WellPlaced rootInode := by
    have same : Fs.SameLayout Fs.oneGroup silent.fs :=
      ⟨rfl, fun _ => rfl, fun _ => rfl, fun _ => rfl⟩
    refine ⟨same.layout Fs.oneGroup_layout, fun dirty => absurd dirty (by decide), ?_⟩
    intro vpn lt dp front i back located
    have isZero : vpn = 0 := Nat.lt_one_iff.mp lt
    subst isZero
    have first : silent.fs.esb.getLocation 0 = some (0, []) := rfl
    rw [first] at located
    simp at located
  have early : silent.FailsFirst smooth := by
    refine Or.inr (Or.inr ⟨by decide +kernel, Or.inl ?_⟩)
    decide +kernel
  have ran : (silent.createinode 0 1 smooth zeros rootInode nameA .norm).map (·.1) = some 1 := by
    decide +kernel
  rcases Option.map_eq_some_iff.mp ran with ⟨⟨err, parent, m⟩, called, rfl⟩
  exact ⟨_, parent, m, called, by decide,
    (creationUndone_iff placed called (by decide)).mpr early⟩

/-- Without a block for its first page a file is not created, but its inode stays taken. -/
theorem not_undone_oneGroup : ∃ err parent m,
    oneGroup.createinode 0 1 smooth zeros rootInode nameA .norm = some (err, parent, m) ∧
      err ≠ 0 ∧ ¬oneGroup.Undone 0 rootInode parent m := by
  have ran : (oneGroup.createinode 0 1 smooth zeros rootInode nameA .norm).map
      (fun result => (result.1, result.2.2.fs.totalUnallocInodes)) = some (errNoPage, 13) := by
    decide +kernel
  rcases Option.map_eq_some_iff.mp ran with ⟨⟨err, parent, m⟩, called, eq⟩
  rcases Prod.mk.inj eq with ⟨rfl, left⟩
  refine ⟨_, parent, m, called, by decide, fun undone => ?_⟩
  have same := left.symm.trans undone.inodes.total
  exact absurd same (by decide)

end CachedVolume

end Ninix.Ext2
