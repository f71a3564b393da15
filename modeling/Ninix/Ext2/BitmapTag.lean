import Ninix.Ext2.Creation
import Ninix.Ext2.GroupFull
import Ninix.Library.HeldCopy

/-!
# The tag of the loaded bitmaps

The two bitmaps in memory share one tag, the group they are of, and one dirty flag. `load_bitmap`
replaces them in two reads, after a write-back whose error it ignores, and moves the tag at the
end. The bitmaps in memory and those on the card stand for the bitmaps of all groups, with the
changes made to them, in any run in which a load that reads the block bitmap reads the inode bitmap
too and has written back what was dirty. Where the second read fails, the block bitmap of the new
group stays under the old tag, and where the write-back fails, what was dirty is read over.
-/

namespace Ninix.Ext2

open ByteBuffer Bitmap HeldCopy TransitionSystem

/-- The bytes of a buffer in front of a bound. -/
def front (size : ℕ) (buf : Bytes) : Bytes := fun k => if k < size then buf k else 0

/-- Set or clear a bit. -/
def putBit (buf : Bytes) (index : ℕ) (value : Bool) : Bytes :=
  if value then setBit buf index else clearBit buf index

/-- The two bitmaps of a group. -/
structure BitmapPair where
  blockbit : Bytes
  inodebit : Bytes

/-- One of the two bitmaps. -/
inductive BitmapKind
  | block
  | inode

/-- Set or clear a bit of one of the bitmaps. -/
def BitmapPair.mark (pair : BitmapPair) (index : ℕ) (value : Bool) : BitmapKind → BitmapPair
  | .block => { pair with blockbit := putBit pair.blockbit index value }
  | .inode => { pair with inodebit := putBit pair.inodebit index value }

/-- The bytes of two bitmaps in front of a bound. -/
def BitmapPair.front (size : ℕ) (pair : BitmapPair) : BitmapPair :=
  ⟨Ext2.front size pair.blockbit, Ext2.front size pair.inodebit⟩

/-- A read that fails leaves its buffer as it was. -/
def KeepsBuffer (disk : Disk) (buf : Bytes) (base count : ℕ) : Prop :=
  (disk.readBlock buf base count).1 ≠ 0 → (disk.readBlock buf base count).2.1 = buf

namespace Fs

/-- The two bitmaps in memory. -/
def loadedPair (fs : Fs) : BitmapPair := ⟨fs.bitmap.blockbit, fs.bitmap.inodebit⟩

/-- The two bitmaps of a group on the card. -/
def cardPair (fs : Fs) (group : ℕ) : BitmapPair := ⟨fs.blockBits group, fs.inodeBits group⟩

/-- The bitmaps on the card, with those of one group in memory. -/
def held (fs : Fs) : Held ℕ BitmapPair where
  store group := (fs.cardPair group).front fs.esb.sBlksize
  tag := if fs.bitmap.bg < fs.esb.totalGroups then some fs.bitmap.bg else none
  copy := fs.loadedPair.front fs.esb.sBlksize
  dirty := fs.bitmap.dirty

/-- The lines of the allocations and releases that change a bit of the loaded bitmaps. -/
def markBitmap (fs : Fs) (kind : BitmapKind) (index : ℕ) (value : Bool) : Fs :=
  let pair := fs.loadedPair.mark index value kind
  { fs with bitmap := ⟨fs.bitmap.bg, true, pair.blockbit, pair.inodebit⟩ }

/-- The first sectors of the bitmaps of a group. -/
def blockbitSector (fs : Fs) (group : ℕ) : ℕ := fs.esb.blockSector (fs.blockBitmapBase group)

def inodebitSector (fs : Fs) (group : ℕ) : ℕ := fs.esb.blockSector (fs.inodeBitmapBase group)

/-- Neither write of `save_bitmap` is going to fail. -/
def Saves (fs : Fs) : Prop :=
  let count := fs.esb.sectsPerBlock
  fs.disk.firstFault (fs.blockbitSector fs.bitmap.bg) 0 count = none ∧
    (fs.disk.later count).firstFault (fs.inodebitSector fs.bitmap.bg) 0 count = none

/-- The transfers `save_bitmap` is going to make. -/
def saveTransfers (fs : Fs) : ℕ :=
  let count := fs.esb.sectsPerBlock
  let base := fs.blockbitSector fs.bitmap.bg
  if fs.bitmap.dirty then
    fs.disk.tries base count +
      if fs.disk.firstFault base 0 count = none then
        (fs.disk.later count).tries (fs.inodebitSector fs.bitmap.bg) count
      else 0
  else 0

/-- Where a load that has to read can read the block bitmap, it can read the inode bitmap too, and
what is dirty is written back before. -/
def LoadsBoth (fs : Fs) (group : ℕ) : Prop :=
  let count := fs.esb.sectsPerBlock
  let disk := fs.disk.later fs.saveTransfers
  fs.bitmap.bg ≠ group → disk.firstFault (fs.blockbitSector group) 0 count = none →
    (fs.bitmap.dirty = true → fs.Saves) ∧
      (disk.later count).firstFault (fs.inodebitSector group) 0 count = none

/-- The reads a load makes leave their buffers as they were where they fail. -/
def ReadsKeep (fs : Fs) (group : ℕ) : Prop :=
  let count := fs.esb.sectsPerBlock
  let saved := fs.saveBitmap.2
  fs.bitmap.bg ≠ group →
    KeepsBuffer saved.disk saved.bitmap.blockbit (fs.blockbitSector group) count ∧
      (saved.disk.firstFault (fs.blockbitSector group) 0 count = none →
        KeepsBuffer (saved.disk.later count) saved.bitmap.inodebit (fs.inodebitSector group) count)

end Fs

/-- A volume, what the bitmaps of its groups are meant to be, and the group of the last call where
that was a `load_bitmap` that returned no error. -/
structure Tracked where
  fs : Fs
  bitmaps : ℕ → BitmapPair
  loaded : Option ℕ

/-- The calls, and the changes made in between to the bitmaps in memory. -/
inductive BitmapCall
  | load (group : ℕ)
  | save
  | mark (kind : BitmapKind) (index : ℕ) (value : Bool)

namespace Tracked

/-- `load_bitmap` of a group. -/
def load (s : Tracked) (group : ℕ) : Tracked :=
  let (err, fs) := s.fs.loadBitmap group
  ⟨fs, s.bitmaps, if err = 0 then some group else none⟩

/-- A change is one of the group that the bitmaps in memory are tagged with. -/
def mark (s : Tracked) (kind : BitmapKind) (index : ℕ) (value : Bool) : Tracked :=
  let group := s.fs.bitmap.bg
  ⟨s.fs.markBitmap kind index value,
    Function.update s.bitmaps group ((s.bitmaps group).mark index value kind), none⟩

/-- One call or change. -/
def step (s : Tracked) : BitmapCall → Option Tracked
  | .load group => if group < s.fs.esb.totalGroups then some (s.load group) else none
  | .save => some ⟨s.fs.saveBitmap.2, s.bitmaps, none⟩
  | .mark kind index value =>
      if s.fs.bitmap.bg < s.fs.esb.totalGroups ∧ index < 8 * s.fs.esb.sBlksize then
        some (s.mark kind index value)
      else none

/-- A volume on which nothing is dirty. -/
structure Start (s : Tracked) : Prop where
  layout : s.fs.Layout
  clean : s.fs.bitmap.dirty = false
  sound : s.fs.held.Sound
  bitmaps : s.bitmaps = s.fs.held.store
  loaded : s.loaded = none

/-- No read that fails changes its buffer. -/
def ReadsKeep (s : Tracked) : BitmapCall → Prop
  | .load group => s.fs.ReadsKeep group
  | _ => True

/-- Where a load reads one of the bitmaps it reads both and has lost nothing. -/
def LoadsBoth (s : Tracked) : BitmapCall → Prop
  | .load group => s.fs.LoadsBoth group
  | _ => True

/-- After a load without an error the bitmaps in memory are those of the group. Those of all groups
are in memory or on the card, and on the card where nothing is dirty. -/
structure Truthful (s : Tracked) : Prop where
  loaded : ∀ group, s.loaded = some group →
    s.fs.bitmap.bg = group ∧ s.fs.loadedPair.front s.fs.esb.sBlksize = s.bitmaps group
  kept : ∀ group < s.fs.esb.totalGroups,
    (if s.fs.bitmap.bg = group then s.fs.loadedPair else s.fs.cardPair group).front
      s.fs.esb.sBlksize = s.bitmaps group
  clean : s.fs.bitmap.dirty = false → ∀ group < s.fs.esb.totalGroups,
    (s.fs.cardPair group).front s.fs.esb.sBlksize = s.bitmaps group

end Tracked

/-! ## Buffers in front of a bound -/

section Front

variable {size index : ℕ} {buf other : Bytes} {value : Bool}

theorem front_congr (agree : ∀ k < size, buf k = other k) : front size buf = front size other := by
  funext k
  unfold front
  split
  · rename_i below
    exact agree k below
  · rfl

theorem front_update {byte : UInt8} (below : index < size) :
    front size (Function.update buf index byte) = Function.update (front size buf) index byte := by
  funext k
  by_cases here : k = index
  · rw [here, Function.update_self, front, if_pos below, Function.update_self]
  · rw [Function.update_of_ne here, front, front, Function.update_of_ne here]

theorem front_putBit (below : index < 8 * size) :
    front size (putBit buf index value) = putBit (front size buf) index value := by
  have inside : index / 8 < size := by omega
  have byte : front size buf (index / 8) = buf (index / 8) := if_pos inside
  cases value with
  | true => exact (front_update inside).trans (by rw [← byte]; rfl)
  | false => exact (front_update inside).trans (by rw [← byte]; rfl)

theorem BitmapPair.front_mark (pair : BitmapPair) (kind : BitmapKind) (below : index < 8 * size) :
    (pair.mark index value kind).front size = (pair.front size).mark index value kind := by
  cases kind with
  | block => exact congrArg (BitmapPair.mk · _) (front_putBit below)
  | inode => exact congrArg (BitmapPair.mk _) (front_putBit below)

end Front

/-! ## Transfers of blocks that may fail -/

section Transfers

variable {esb : ExtSb} {disk : Disk} {block stop : ℕ} {buf : Bytes}

theorem bytesAt_block (onCard : esb.OnCard block) {k : ℕ} (below : k < esb.sBlksize) :
    disk.bytesAt (esb.blockSector block) k = esb.blockBytes disk block k := by
  have inside := (onCard.inBlock_iff.mp (onCard.inBlock_byte below)).2
  have fits := onCard.blockSector.2
  unfold Disk.bytesAt ExtSb.blockBytes Disk.bytesFrom
  rw [u32_of_lt (by omega)]

theorem readBlock_succeeds (succeeds :
      disk.firstFault (esb.blockSector block) 0 esb.sectsPerBlock = none)
    (onCard : esb.OnCard block) (buf : Bytes) :
    ∃ buf', disk.readBlock buf (esb.blockSector block) esb.sectsPerBlock =
        (0, buf', disk.later esb.sectsPerBlock) ∧
      ∀ k < esb.sBlksize, buf' k = esb.blockBytes disk block k := by
  rcases Disk.sdReadLoop_faultless succeeds buf with ⟨buf', ran, bytes⟩
  refine ⟨buf', ?_, fun k below => ?_⟩
  · rw [Disk.readBlock, if_neg (Fs.sectsPerBlock_ne_one esb), ran]
    rfl
  · rw [bytes k, Nat.mul_zero, Nat.zero_add, ← esb.sBlksize_eq, if_pos ⟨Nat.zero_le _, below⟩,
      bytesAt_block onCard below]

theorem readBlock_fails (fails :
      disk.firstFault (esb.blockSector block) 0 esb.sectsPerBlock = some stop) (buf : Bytes) :
    ∃ buf' transfers, disk.readBlock buf (esb.blockSector block) esb.sectsPerBlock =
      (1, buf', { disk with transfers }) := by
  rcases Disk.sdReadLoop_fault fails buf with ⟨buf', transfers, ran, _⟩
  refine ⟨buf', transfers, ?_⟩
  rw [Disk.readBlock, if_neg (Fs.sectsPerBlock_ne_one esb), ran]

theorem writeBlock_succeeds (succeeds :
      disk.firstFault (esb.blockSector block) 0 esb.sectsPerBlock = none)
    (onCard : esb.OnCard block) (buf : Bytes) :
    ∃ disk', disk.writeBlock buf (esb.blockSector block) esb.sectsPerBlock = (0, disk') ∧
      disk'.transfers = disk.transfers + esb.sectsPerBlock ∧
      Touches (esb.InBlock block) disk disk' ∧
      ∀ k < esb.sBlksize, esb.blockBytes disk' block k = buf k := by
  rcases Disk.sdWriteLoop_faultless succeeds buf onCard.blockSector.2 with
    ⟨disk', ran, transfers, bytes⟩
  have wrote : disk.writeBlock buf (esb.blockSector block) esb.sectsPerBlock = (0, disk') := by
    rw [Disk.writeBlock, if_neg (Fs.sectsPerBlock_ne_one esb), ran]
  have touches := @writeBlock_touches esb disk block onCard buf
  rw [wrote] at touches
  refine ⟨disk', wrote, transfers, touches, fun k below => ?_⟩
  rw [← bytesAt_block onCard below]
  refine bytes k (by omega) ?_
  rwa [Nat.zero_add, ← esb.sBlksize_eq]

theorem writeBlock_fails (fails :
      disk.firstFault (esb.blockSector block) 0 esb.sectsPerBlock = some stop)
    (onCard : esb.OnCard block) (buf : Bytes) :
    ∃ disk', disk.writeBlock buf (esb.blockSector block) esb.sectsPerBlock = (1, disk') ∧
      disk'.transfers = disk.transfers + (stop + 1) ∧ Touches (esb.InBlock block) disk disk' := by
  rcases Disk.sdWriteLoop_fault fails buf with ⟨disk', ran, transfers⟩
  have wrote : disk.writeBlock buf (esb.blockSector block) esb.sectsPerBlock = (1, disk') := by
    rw [Disk.writeBlock, if_neg (Fs.sectsPerBlock_ne_one esb), ran]
  have touches := @writeBlock_touches esb disk block onCard buf
  rw [wrote] at touches
  exact ⟨disk', wrote, transfers, touches⟩

end Transfers

namespace Fs

section Saving

variable {fs : Fs} {group : ℕ}

/-- What is written and counted by the two writes of `save_bitmap`. -/
theorem saveBitmap_writes (layout : fs.Layout) (dirty : fs.bitmap.dirty = true)
    (lt : fs.bitmap.bg < fs.esb.totalGroups) :
    fs.saveBitmap.2.disk.transfers = fs.disk.transfers + fs.saveTransfers ∧
      (fs.Saves ∧ fs.saveBitmap.2.bitmap.dirty = false ∧
          fs.Holds fs.saveBitmap.2.disk fs.bitmap fs.bitmap.bg ∨
        ¬fs.Saves ∧ fs.saveBitmap.2.bitmap.dirty = true) := by
  rcases layout.onCard _ lt with ⟨blockOn, inodeOn, _⟩
  have apart := layout.bitmapsApart _ lt _ lt
  unfold saveTransfers Saves
  dsimp only
  rw [if_pos dirty]
  unfold Disk.tries
  cases fails : fs.disk.firstFault (fs.blockbitSector fs.bitmap.bg) 0 fs.esb.sectsPerBlock with
  | some stop =>
      rcases writeBlock_fails fails blockOn fs.bitmap.blockbit with ⟨disk, wrote, transfers, _⟩
      have saved : fs.saveBitmap = (1, { fs with disk }) := by
        simp [saveBitmap, dirty, andThen, writeBlock, wrote]
      rw [saved]
      refine ⟨?_, Or.inr ⟨by simp, dirty⟩⟩
      rw [transfers]
      simp
  | none =>
      rcases writeBlock_succeeds fails blockOn fs.bitmap.blockbit with
        ⟨mid, wroteBlocks, transfersMid, touchesMid, blockBytes⟩
      have sameFault : mid.firstFault (fs.inodebitSector fs.bitmap.bg) 0 fs.esb.sectsPerBlock =
          (fs.disk.later fs.esb.sectsPerBlock).firstFault (fs.inodebitSector fs.bitmap.bg) 0
            fs.esb.sectsPerBlock :=
        Disk.firstFault_congr touchesMid.fault transfersMid
      rw [← sameFault]
      cases failsToo : mid.firstFault (fs.inodebitSector fs.bitmap.bg) 0 fs.esb.sectsPerBlock with
      | some stop =>
          rcases writeBlock_fails failsToo inodeOn fs.bitmap.inodebit with
            ⟨disk, wroteInodes, transfers, _⟩
          have saved : fs.saveBitmap = (1, { fs with disk }) := by
            simp only [saveBitmap, dirty, Bool.not_true, Bool.false_eq_true, if_false, writeBlock,
              wroteBlocks, andThen, if_true]
            simp only [inodeBitmapBase] at wroteInodes ⊢
            simp [wroteInodes]
          rw [saved]
          refine ⟨?_, Or.inr ⟨by simp, dirty⟩⟩
          rw [transfers, transfersMid]
          simp [Nat.add_assoc]
      | none =>
          rcases writeBlock_succeeds failsToo inodeOn fs.bitmap.inodebit with
            ⟨disk, wroteInodes, transfers, touches, inodeBytes⟩
          have saved : fs.saveBitmap =
              (0, { fs with disk, bitmap := { fs.bitmap with dirty := false } }) := by
            simp only [saveBitmap, dirty, Bool.not_true, Bool.false_eq_true, if_false, writeBlock,
              wroteBlocks, andThen, if_true]
            simp only [inodeBitmapBase] at wroteInodes ⊢
            simp only [wroteInodes, if_true]
          rw [saved]
          refine ⟨?_, Or.inl ⟨⟨rfl, rfl⟩, rfl, fun k below => ⟨?_, (inodeBytes k below).symm⟩⟩⟩
          · rw [transfers, transfersMid]
            simp [Nat.add_assoc]
          · exact ((touches.blockBytes blockOn (fun id inside inBlock => apart
              (inBlock.2.symm.trans inside.2)) below).trans (blockBytes k below)).symm

theorem Layout.reload (layout : fs.Layout) (disk : Disk) (bitmap : BitmapCache) :
    ({ fs with disk, bitmap } : Fs).Layout :=
  (⟨rfl, fun _ => rfl, fun _ => rfl, fun _ => rfl⟩ :
    SameLayout fs { fs with disk, bitmap }).layout layout

theorem held_tag : fs.held.tag = some group ↔
    fs.bitmap.bg = group ∧ group < fs.esb.totalGroups := by
  unfold held
  dsimp only
  split
  · rename_i lt
    rw [Option.some.injEq]
    exact ⟨fun isGroup => ⟨isGroup, isGroup ▸ lt⟩, fun both => both.1⟩
  · rename_i outside
    exact iff_of_false (by simp) fun both => outside (both.1.symm ▸ both.2)

theorem Holds.front_eq {disk : Disk} {bitmap : BitmapCache} (holds : fs.Holds disk bitmap group) :
    (({ fs with disk } : Fs).cardPair group).front fs.esb.sBlksize =
      (({ fs with bitmap } : Fs).loadedPair).front fs.esb.sBlksize :=
  BitmapPair.mk.injEq _ _ _ _ ▸ ⟨front_congr fun k below => ((holds k below).1).symm,
    front_congr fun k below => ((holds k below).2).symm⟩

/-- `save_bitmap`, whether or not it succeeds, writes the bitmaps in memory back. -/
theorem saveBitmap_flushed (layout : fs.Layout) (sound : fs.held.Sound)
    (isGroup : fs.bitmap.dirty = true → fs.bitmap.bg < fs.esb.totalGroups) :
    ∃ disk dirty, fs.saveBitmap.2 = { fs with disk, bitmap := { fs.bitmap with dirty } } ∧
      disk.fault = fs.disk.fault ∧ disk.transfers = fs.disk.transfers + fs.saveTransfers ∧
      (dirty = true → fs.bitmap.dirty = true) ∧
      ((fs.bitmap.dirty = true → fs.Saves) → dirty = false) ∧
      Flushed {group | group < fs.esb.totalGroups} fs.held
        ({ fs with disk, bitmap := { fs.bitmap with dirty } } : Fs).held := by
  cases isDirty : fs.bitmap.dirty with
  | false =>
      refine ⟨fs.disk, false, ?_, rfl, ?_, id, fun _ => rfl, rfl, rfl, fun _ _ _ => rfl,
        fun _ => sound isDirty⟩
      · simp only [saveBitmap, isDirty, Bool.not_false, if_true]
        rw [← isDirty]
      · simp [saveTransfers, isDirty]
  | true =>
      have lt := isGroup isDirty
      rcases saveBitmap_frame layout lt with ⟨disk, dirty, saved, touches, others⟩
      rcases saveBitmap_writes layout isDirty lt with ⟨transfers, outcome⟩
      rw [saved] at transfers outcome
      refine ⟨disk, dirty, saved, touches.fault, transfers, fun _ => rfl, fun saves => ?_, rfl, rfl,
        fun key mem ne => ?_, fun clean key isTag => ?_⟩
      · rcases outcome with ⟨_, clean, _⟩ | ⟨notSaves, _⟩
        · exact clean
        · exact absurd (saves rfl) notSaves
      · have other : key ≠ fs.bitmap.bg := fun eq => ne (held_tag.mpr ⟨eq.symm, mem⟩)
        have same := others key mem other
        exact BitmapPair.mk.injEq _ _ _ _ ▸ ⟨front_congr fun k below => (same k below).1,
          front_congr fun k below => (same k below).2⟩
      · rcases outcome with ⟨_, _, holds⟩ | ⟨_, stillDirty⟩
        · have isKey := (held_tag.mp isTag).1
          subst isKey
          exact holds.front_eq
        · exact absurd (stillDirty.symm.trans clean) (by decide)

theorem saveBitmap_dirty :
    (if fs.bitmap.dirty = true then fs.saveBitmap.2 else fs) = fs.saveBitmap.2 := by
  split
  · rfl
  · rename_i clean
    simp [saveBitmap, clean]

section Loading

variable {disk : Disk} {dirty : Bool} {stop : ℕ}

/-- A load whose first read fails leaves what the write-back has left. -/
theorem loadBitmap_fails (ne : fs.bitmap.bg ≠ group)
    (saved : fs.saveBitmap.2 = { fs with disk, bitmap := { fs.bitmap with dirty } })
    (fails : disk.firstFault (fs.blockbitSector group) 0 fs.esb.sectsPerBlock = some stop)
    (keeps : KeepsBuffer disk fs.bitmap.blockbit (fs.blockbitSector group) fs.esb.sectsPerBlock) :
    ∃ transfers, fs.loadBitmap group = (1, { fs with
      disk := { disk with transfers }
      bitmap := { fs.bitmap with dirty } }) := by
  rcases readBlock_fails fails fs.bitmap.blockbit with ⟨buf, transfers, ran⟩
  have kept : buf = fs.bitmap.blockbit := by
    have here := keeps
    unfold KeepsBuffer blockbitSector at here
    rw [ran] at here
    exact here Nat.one_ne_zero
  rw [kept] at ran
  refine ⟨transfers, ?_⟩
  unfold loadBitmap
  rw [if_neg ne, saveBitmap_dirty, saved]
  simp only [blockBitmapBase] at ran ⊢
  simp [ran, andThen]

/-- A load whose reads succeed replaces the bitmaps in memory. -/
theorem loadBitmap_replaces (layout : fs.Layout) (lt : group < fs.esb.totalGroups)
    (ne : fs.bitmap.bg ≠ group)
    (saved : fs.saveBitmap.2 = { fs with disk, bitmap := { fs.bitmap with dirty } })
    (first : disk.firstFault (fs.blockbitSector group) 0 fs.esb.sectsPerBlock = none)
    (second : (disk.later fs.esb.sectsPerBlock).firstFault (fs.inodebitSector group) 0
      fs.esb.sectsPerBlock = none) :
    ∃ transfers bitmap, fs.loadBitmap group =
        (0, { fs with disk := { disk with transfers }, bitmap }) ∧
      bitmap.bg = group ∧ bitmap.dirty = false ∧ fs.Holds disk bitmap group := by
  rcases layout.onCard group lt with ⟨blockOn, inodeOn, _⟩
  rcases readBlock_succeeds first blockOn fs.bitmap.blockbit with ⟨blockbit, ran, blockBytes⟩
  rcases readBlock_succeeds second inodeOn fs.bitmap.inodebit with ⟨inodebit, ranToo, inodeBytes⟩
  refine ⟨disk.transfers + fs.esb.sectsPerBlock + fs.esb.sectsPerBlock,
    ⟨group, false, blockbit, inodebit⟩, ?_, rfl, rfl,
    fun k below => ⟨blockBytes k below, inodeBytes k below⟩⟩
  unfold loadBitmap
  rw [if_neg ne, saveBitmap_dirty, saved]
  simp only [blockBitmapBase, inodeBitmapBase] at ran ranToo ⊢
  simp only [ran, andThen, if_true, ranToo]
  rfl

end Loading

end Saving

end Fs

/-! ## Runs -/

namespace Tracked

variable {s s' : Tracked} {group : ℕ}

/-- What holds all along a run. -/
structure Inv (s : Tracked) : Prop where
  layout : s.fs.Layout
  sound : s.fs.held.Sound
  isGroup : s.fs.bitmap.dirty = true → s.fs.bitmap.bg < s.fs.esb.totalGroups
  content : ∀ group < s.fs.esb.totalGroups, s.fs.held.content group = s.bitmaps group
  loaded : ∀ group, s.loaded = some group → s.fs.bitmap.bg = group ∧ group < s.fs.esb.totalGroups

theorem Start.inv (start : s.Start) : s.Inv where
  layout := start.layout
  sound := start.sound
  isGroup dirty := absurd (start.clean.symm.trans dirty) (by decide)
  content group _ := by rw [start.sound.content_eq start.clean, start.bitmaps]
  loaded group loaded := by
    rw [start.loaded] at loaded
    cases loaded

theorem Inv.truthful (inv : s.Inv) : s.Truthful where
  loaded group loaded := by
    rcases inv.loaded group loaded with ⟨isGroup, lt⟩
    refine ⟨isGroup, ?_⟩
    rw [← inv.content group lt]
    exact (Held.content_tag (Fs.held_tag.mpr ⟨isGroup, lt⟩)).symm
  kept group lt := by
    rw [← inv.content group lt, Held.content]
    simp only [Fs.held_tag, lt, and_true]
    split
    · rfl
    · rfl
  clean clean group lt := by
    rw [← inv.content group lt, inv.sound.content_eq clean]
    rfl

theorem Inv.flush (inv : s.Inv) {disk : Disk} {dirty : Bool}
    (stays : dirty = true → s.fs.bitmap.dirty = true)
    (flushed : Flushed {group | group < s.fs.esb.totalGroups} s.fs.held
      ({ s.fs with disk, bitmap := { s.fs.bitmap with dirty } } : Fs).held) :
    Inv ⟨{ s.fs with disk, bitmap := { s.fs.bitmap with dirty } }, s.bitmaps, none⟩ where
  layout := inv.layout.reload _ _
  sound := flushed.sound
  isGroup still := inv.isGroup (stays still)
  content group lt := (flushed.content lt).trans (inv.content group lt)
  loaded group loaded := by cases loaded

theorem Inv.save (inv : s.Inv) : Inv ⟨s.fs.saveBitmap.2, s.bitmaps, none⟩ := by
  rcases Fs.saveBitmap_flushed inv.layout inv.sound inv.isGroup with
    ⟨disk, dirty, saved, _, _, stays, _, flushed⟩
  rw [saved]
  exact inv.flush stays flushed

/-- A load that meets the guard keeps what the bitmaps stand for. -/
theorem Inv.load (inv : s.Inv) (lt : group < s.fs.esb.totalGroups)
    (keeps : s.fs.ReadsKeep group) (both : s.fs.LoadsBoth group) : (s.load group).Inv := by
  unfold Tracked.load
  by_cases hit : s.fs.bitmap.bg = group
  · have here : s.fs.loadBitmap group = (0, s.fs) := if_pos hit
    rw [here]
    refine ⟨inv.layout, inv.sound, inv.isGroup, inv.content, fun other loaded => ?_⟩
    cases loaded
    exact ⟨hit, lt⟩
  rcases Fs.saveBitmap_flushed inv.layout inv.sound inv.isGroup with
    ⟨disk, dirty, saved, fault, transfers, stays, cleans, flushed⟩
  have flush := inv.flush stays flushed
  cases first : disk.firstFault (s.fs.blockbitSector group) 0 s.fs.esb.sectsPerBlock with
  | some stop =>
      have kept := (keeps hit).1
      rw [saved] at kept
      rcases Fs.loadBitmap_fails hit saved first kept with ⟨transfers', loads⟩
      rw [loads]
      exact ⟨inv.layout.reload _ _, flush.sound, flush.isGroup, flush.content, flush.loaded⟩
  | none =>
      have starts : (s.fs.disk.later s.fs.saveTransfers).firstFault (s.fs.blockbitSector group) 0
          s.fs.esb.sectsPerBlock = none := by
        rw [← first]
        exact (@Disk.firstFault_congr (s.fs.disk.later s.fs.saveTransfers) _ _ _ disk fault
          transfers).symm
      rcases both hit starts with ⟨saves, goesOn⟩
      have second : (disk.later s.fs.esb.sectsPerBlock).firstFault (s.fs.inodebitSector group) 0
          s.fs.esb.sectsPerBlock = none := by
        rw [← goesOn]
        exact Disk.firstFault_congr fault (congrArg (· + s.fs.esb.sectsPerBlock) transfers)
      rcases Fs.loadBitmap_replaces inv.layout lt hit saved first second with
        ⟨transfers', bitmap, loads, isGroup, clean, holds⟩
      rw [loads]
      have replaced : Replaced
          ({ s.fs with disk, bitmap := { s.fs.bitmap with dirty } } : Fs).held
          ({ s.fs with disk := { disk with transfers := transfers' }, bitmap } : Fs).held group :=
        ⟨rfl, Fs.held_tag.mpr ⟨isGroup, lt⟩, holds.front_eq.symm⟩
      refine ⟨inv.layout.reload _ _, replaced.sound, fun dirty' => ?_, fun other otherLt => ?_,
        fun other loaded => ?_⟩
      · exact absurd (clean.symm.trans dirty') (by decide)
      · exact (replaced.content flush.sound (cleans saves) other).trans
          (flush.content other otherLt)
      · cases loaded
        exact ⟨isGroup, lt⟩

/-- A change of a bit in memory is one of what the bitmaps of the group are meant to be. -/
theorem Inv.mark (inv : s.Inv) (lt : s.fs.bitmap.bg < s.fs.esb.totalGroups) {index : ℕ}
    (below : index < 8 * s.fs.esb.sBlksize) (kind : BitmapKind) (value : Bool) :
    (s.mark kind index value).Inv := by
  have isTag : s.fs.held.tag = some s.fs.bitmap.bg := Fs.held_tag.mpr ⟨rfl, lt⟩
  have marked : (s.fs.markBitmap kind index value).held = { s.fs.held with
      copy := s.fs.held.copy.mark index value kind, dirty := true } := by
    unfold Fs.held
    congr 1
    exact BitmapPair.front_mark _ kind below
  refine ⟨?_, ?_, fun _ => lt, fun group groupLt => ?_, fun group loaded => by cases loaded⟩
  · exact inv.layout.reload s.fs.disk _
  · intro clean
    cases clean
  · change (s.fs.markBitmap kind index value).held.content group = Function.update s.bitmaps
      s.fs.bitmap.bg ((s.bitmaps s.fs.bitmap.bg).mark index value kind) group
    rw [marked, Held.content_change isTag]
    by_cases here : group = s.fs.bitmap.bg
    · rw [here, Function.update_self, Function.update_self, ← inv.content _ lt,
        Held.content_tag isTag]
    · rw [Function.update_of_ne here, inv.content group groupLt, Function.update_of_ne here]

theorem Inv.step (inv : s.Inv) {call : BitmapCall}
    (guarded : s.ReadsKeep call ∧ s.LoadsBoth call) (stepped : s.step call = some s') : s'.Inv := by
  cases call with
  | load group =>
      rcases Option.ite_none_right_eq_some.mp stepped with ⟨lt, eq⟩
      cases eq
      exact inv.load lt guarded.1 guarded.2
  | save =>
      cases stepped
      exact inv.save
  | mark kind index value =>
      rcases Option.ite_none_right_eq_some.mp stepped with ⟨inside, eq⟩
      cases eq
      exact inv.mark inside.1 inside.2 kind value

/-- The tag is truthful and nothing marked dirty is lost, in every run in which a load that reads
one bitmap reads both and has written back what was dirty. -/
theorem truthful_of_reach
    (reached : GuardedReach step (fun s call => s.ReadsKeep call ∧ s.LoadsBoth call) Start s) :
    s.Truthful :=
  (reached.invariant (fun _ (start : Start _) => start.inv)
    fun _ _ _ (inv : Inv _) guarded stepped => inv.step guarded stepped).truthful

/-! ## One transfer that fails -/

/-- Two groups on a card on which the transfer of one number fails. -/
def oneFault (n : ℕ) : Tracked :=
  let fs : Fs := { Fs.twoGroups false with
    disk := { (Fs.twoGroups false).disk with fault := fun k _ => if k = n then 1 else 0 } }
  ⟨fs, fs.held.store, none⟩

theorem oneFault_start (n : ℕ) : (oneFault n).Start where
  layout := (Fs.twoGroups_layout false).reload (oneFault n).fs.disk (Fs.twoGroups false).bitmap
  clean := rfl
  sound _ key isTag := by
    rcases Fs.held_tag.mp isTag with ⟨rfl, lt⟩
    exact absurd lt (by decide : ¬minusOne32 < 2)
  bitmaps := rfl
  loaded := rfl

/-- A read that fails with its first sector, if it does, changes nothing. -/
theorem keepsBuffer_of_whole {disk : Disk} {buf : Bytes} {base count : ℕ} (several : count ≠ 1)
    (whole : (disk.firstFault base 0 count).getD 0 = 0) : KeepsBuffer disk buf base count := by
  unfold KeepsBuffer Disk.readBlock
  rw [if_neg several]
  cases fails : disk.firstFault base 0 count with
  | none =>
      rcases Disk.sdReadLoop_faultless fails buf with ⟨buf', ran, _⟩
      rw [ran]
      exact fun failed => absurd rfl failed
  | some stop =>
      rcases Disk.sdReadLoop_fault fails buf with ⟨buf', transfers, ran, bytes⟩
      rw [fails] at whole
      cases whole
      rw [ran]
      exact fun _ => funext fun k => (bytes k).trans
        (if_neg fun inside => absurd inside.2 (Nat.not_lt_zero k))

theorem readsKeep_of_whole
    (first : (s.fs.saveBitmap.2.disk.firstFault (s.fs.blockbitSector group) 0
      s.fs.esb.sectsPerBlock).getD 0 = 0)
    (second : ((s.fs.saveBitmap.2.disk.later s.fs.esb.sectsPerBlock).firstFault
      (s.fs.inodebitSector group) 0 s.fs.esb.sectsPerBlock).getD 0 = 0) :
    s.fs.ReadsKeep group :=
  fun _ => ⟨keepsBuffer_of_whole (Fs.sectsPerBlock_ne_one _) first,
    fun _ => keepsBuffer_of_whole (Fs.sectsPerBlock_ne_one _) second⟩

instance : Decidable s.fs.Saves := inferInstanceAs (Decidable (_ ∧ _))

instance : Decidable (s.fs.LoadsBoth group) :=
  inferInstanceAs (Decidable (s.fs.bitmap.bg ≠ group →
    (s.fs.disk.later s.fs.saveTransfers).firstFault (s.fs.blockbitSector group) 0
      s.fs.esb.sectsPerBlock = none →
    (s.fs.bitmap.dirty = true → s.fs.Saves) ∧
      ((s.fs.disk.later s.fs.saveTransfers).later s.fs.esb.sectsPerBlock).firstFault
        (s.fs.inodebitSector group) 0 s.fs.esb.sectsPerBlock = none))

theorem reach_load {guard : Tracked → BitmapCall → Prop} (group : ℕ)
    (reached : GuardedReach step guard Start s) (lt : group < s.fs.esb.totalGroups)
    (guarded : guard s (.load group)) : GuardedReach step guard Start (s.load group) :=
  .step reached guarded (if_pos lt)

theorem reach_mark {guard : Tracked → BitmapCall → Prop} (kind : BitmapKind) (index : ℕ)
    (value : Bool) (reached : GuardedReach step guard Start s)
    (inside : s.fs.bitmap.bg < s.fs.esb.totalGroups ∧ index < 8 * s.fs.esb.sBlksize)
    (guarded : guard s (.mark kind index value)) :
    GuardedReach step guard Start (s.mark kind index value) :=
  .step reached guarded (if_pos inside)

/-- A change of group 0 is written back when group 1 is loaded, and the first read of that load
fails. The load is made once more. -/
theorem truthful_of_reach_again :
    let s := (((oneFault 8).load 0).mark .block 0 true).load 1
    s.loaded = none ∧ (s.load 1).loaded = some 1 ∧ (s.load 1).Truthful := by
  refine ⟨by decide +kernel, by decide +kernel, truthful_of_reach ?_⟩
  have loads : ∀ {s : Tracked} (group : ℕ),
      GuardedReach step (fun s call => s.ReadsKeep call ∧ s.LoadsBoth call) Start s →
      group < s.fs.esb.totalGroups → s.fs.ReadsKeep group → s.fs.LoadsBoth group →
      GuardedReach step (fun s call => s.ReadsKeep call ∧ s.LoadsBoth call) Start (s.load group) :=
    fun group reached lt keeps both => reach_load group reached lt ⟨keeps, both⟩
  have first := loads 0 (.start (oneFault_start 8)) (by decide +kernel)
    (readsKeep_of_whole (by decide +kernel) (by decide +kernel)) (by decide +kernel)
  have marked := reach_mark .block 0 true first (by decide +kernel) ⟨trivial, trivial⟩
  have failed := loads 1 marked (by decide +kernel)
    (readsKeep_of_whole (by decide +kernel) (by decide +kernel)) (by decide +kernel)
  exact loads 1 failed (by decide +kernel)
    (readsKeep_of_whole (by decide +kernel) (by decide +kernel)) (by decide +kernel)

/-- The second read of a load fails, and what was read first stays under the old tag. A write-back
fails, and the change of a bit is gone. -/
theorem not_truthful_oneFault :
    (∃ s, GuardedReach step ReadsKeep Start s ∧ s.loaded = some 0 ∧
      ¬∀ group, s.loaded = some group →
        s.fs.bitmap.bg = group ∧ s.fs.loadedPair.front s.fs.esb.sBlksize = s.bitmaps group) ∧
    ∃ s, GuardedReach step ReadsKeep Start s ∧ s.loaded = some 1 ∧
      ¬∀ group < s.fs.esb.totalGroups,
        (if s.fs.bitmap.bg = group then s.fs.loadedPair else s.fs.cardPair group).front
          s.fs.esb.sBlksize = s.bitmaps group := by
  constructor
  · have started : GuardedReach step ReadsKeep Start (oneFault 6) := .start (oneFault_start 6)
    have first := reach_load 0 started (by decide +kernel)
      (readsKeep_of_whole (by decide +kernel) (by decide +kernel))
    have second := reach_load 1 first (by decide +kernel)
      (readsKeep_of_whole (by decide +kernel) (by decide +kernel))
    have third := reach_load 0 second (by decide +kernel)
      (readsKeep_of_whole (by decide +kernel) (by decide +kernel))
    refine ⟨_, third, by decide +kernel, fun truthful => ?_⟩
    have same := congrFun (congrArg BitmapPair.blockbit (truthful 0 (by decide +kernel)).2) 0
    exact absurd same (by decide +kernel)
  · have started : GuardedReach step ReadsKeep Start (oneFault 4) := .start (oneFault_start 4)
    have first := reach_load 0 started (by decide +kernel)
      (readsKeep_of_whole (by decide +kernel) (by decide +kernel))
    have marked := reach_mark .block 0 true first (by decide +kernel) trivial
    have second := reach_load 1 marked (by decide +kernel)
      (readsKeep_of_whole (by decide +kernel) (by decide +kernel))
    refine ⟨_, second, by decide +kernel, fun kept => ?_⟩
    have same := congrFun (congrArg BitmapPair.blockbit (kept 0 (by decide +kernel))) 0
    exact absurd same (by decide +kernel)

end Tracked

end Ninix.Ext2
