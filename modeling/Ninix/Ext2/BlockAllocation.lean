import Ninix.Ext2.InodeAllocation

/-!
# Allocating and releasing blocks

`apply_block` takes the first zero bit in the block bitmap of a group, and `retake_block` clears
the bit of a block. Before it takes a block, `apply_block` looks at the count of the superblock
and at the count of group 0, whatever group it is called for, so that a full group is only noticed
when no byte with a zero bit is found.
-/

namespace Ninix.Ext2

open ByteBuffer Bitmap

/-- The first zero bit of a bitmap of a block. -/
def firstFree (bitmap : Bytes) (size : ℕ) : Option ℕ :=
  (findByte bitmap size).map fun byte => byte * 8 + findBit (bitmap byte)

namespace Fs

/-- The changes `apply_block` makes to the superblock, the descriptor and the bitmap. -/
def takeBlock (fs : Fs) (group index : ℕ) : Fs :=
  { fs with
    totalUnallocBlocks := sub32 fs.totalUnallocBlocks 1
    dpttable := setDptField fs.dpttable group 12 2 (fs.unallocBlocks group + 65535)
    bitmap := { fs.bitmap with blockbit := setBit fs.bitmap.blockbit index, dirty := true } }

/-- The changes `retake_block` makes. -/
def giveBlock (fs : Fs) (group index : ℕ) : Fs :=
  { fs with
    totalUnallocBlocks := u32 (fs.totalUnallocBlocks + 1)
    dpttable := setDptField fs.dpttable group 12 2 (fs.unallocBlocks group + 1)
    bitmap := { fs.bitmap with blockbit := clearBit fs.bitmap.blockbit index, dirty := true } }

/-- `apply_block`: its code, what `*block` is set to (0 where it is not set) and the volume. `none`
is a bitmap without a byte to take, for which the code goes on with a variable it never set. -/
def applyBlock (fs : Fs) (group : ℕ) : Option (ℕ × ℕ × Fs) :=
  if fs.totalUnallocBlocks = 0 ∨ fs.unallocBlocks 0 = 0 then some (1, 0, fs)
  else
    let (err, fs) := fs.loadBitmap group
    if err ≠ 0 then some (err, 0, fs)
    else
      (firstFree fs.bitmap.blockbit fs.esb.sBlksize).map fun index =>
        let (err, fs') := (fs.takeBlock group index).saveAll group
        (err, u32 (group * fs.esb.blocksPerGroup + index), fs')

/-- `retake_block` -/
def retakeBlock (fs : Fs) (block : ℕ) : ℕ × Fs :=
  let group := block / fs.esb.blocksPerGroup
  let index := block % fs.esb.blocksPerGroup
  andThen (fs.loadBitmap group) fun fs =>
    if checkIorb fs.bitmap.blockbit index = 0 then (1, fs)
    else (fs.giveBlock group index).saveAll group

/-! ## Bitmaps of blocks -/

/-- The block bitmap of a group on the card. -/
def blockBits (fs : Fs) (group : ℕ) : Bytes :=
  fs.esb.blockBytes fs.disk (fs.blockBitmapBase group)

/-- The zero bits of the block bitmap of a group. -/
def freeBlocks (fs : Fs) (group : ℕ) : ℕ := zeroBits (fs.blockBits group) (8 * fs.esb.sBlksize)

/-- A count of free blocks and the zero bits of its bitmap move together, as far as the count has
bits. -/
structure Balanced (fs fs' : Fs) : Prop where
  groups : ∀ group < fs.esb.totalGroups, (fs'.unallocBlocks group + fs.freeBlocks group) % 65536 =
    (fs.unallocBlocks group + fs'.freeBlocks group) % 65536
  total : (fs'.totalUnallocBlocks + ∑ group ∈ Finset.range fs.esb.totalGroups,
      fs.freeBlocks group) % 4294967296 =
    (fs.totalUnallocBlocks + ∑ group ∈ Finset.range fs.esb.totalGroups,
      fs'.freeBlocks group) % 4294967296

/-- What comes of a volume in which sectors of a set are written and no inode is taken or given
back. -/
structure Evolves (sectors : ℕ → Prop) (fs fs' : Fs) : Prop where
  ready : fs'.Ready
  same : SameLayout fs fs'
  touches : Touches sectors fs.disk fs'.disk
  inodes : ∀ group < fs.esb.totalGroups, ∀ k < fs.esb.sBlksize,
    fs'.inodeBits group k = fs.inodeBits group k
  balanced : Balanced fs fs'

/-- One block bitmap changes. -/
structure BlocksChanged (fs fs' : Fs) (group : ℕ) (bitmap : Bytes) : Prop extends
    Evolves fs.AllocSector fs fs' where
  changed : ∀ k < fs.esb.sBlksize, fs'.blockBits group k = bitmap k
  others : ∀ other < fs.esb.totalGroups, other ≠ group → ∀ k < fs.esb.sBlksize,
    fs'.blockBits other k = fs.blockBits other k
  itable : fs'.itable = fs.itable

end Fs

/-- The first free bit depends on the bytes of the block only. -/
theorem firstFree_congr {bitmap other : Bytes} {size : ℕ} (agree : ∀ k < size, bitmap k = other k) :
    firstFree bitmap size = firstFree other size := by
  have sameByte : findByte bitmap size = findByte other size := by
    unfold findByte
    rw [← List.head?_filter, ← List.head?_filter]
    congr 1
    apply List.filter_congr
    intro k mem
    rw [agree k (List.mem_range.mp mem)]
  unfold firstFree
  rw [sameByte]
  rcases found : findByte other size with _ | byte
  · rfl
  · have lt := List.mem_range.mp (List.mem_of_find?_eq_some found)
    rw [Option.map_some, Option.map_some, agree byte lt]

/-- The first free bit is a zero bit of the block. -/
theorem firstFree_spec {bitmap : Bytes} {size index : ℕ} (first : firstFree bitmap size = some index) :
    index < 8 * size ∧ bit bitmap index = false := by
  rcases Option.map_eq_some_iff.mp first with ⟨byte, found, rfl⟩
  have lt := List.mem_range.mp (List.mem_of_find?_eq_some found)
  have notFull : bitmap byte ≠ 0xff := by simpa using List.find?_some found
  have someZero : ∃ k < 8, (bitmap byte).toNat.testBit k = false := by
    by_contra none
    push Not at none
    exact notFull (byte_full.mpr fun k below => by simpa using none k below)
  rcases someZero with ⟨k, below, zero⟩
  have isZero : bit bitmap (byte * 8 + k) = false := by
    rw [bit, show (byte * 8 + k) / 8 = byte by omega, show (byte * 8 + k) % 8 = k by omega]
    exact zero
  rcases findByte_findBit (show byte * 8 + k < 8 * size by omega) isZero with
    ⟨byte', found', _, small, free⟩
  rw [found] at found'
  cases found'
  exact ⟨by omega, free⟩

namespace Fs

section Steps

variable {sectors wider : ℕ → Prop} {fs mid fs' : Fs} {group index block : ℕ}

theorem Balanced.refl : Balanced fs fs := ⟨fun _ _ => rfl, rfl⟩

theorem Balanced.trans (same : SameLayout fs mid) (left : Balanced fs mid)
    (right : Balanced mid fs') : Balanced fs fs' := by
  constructor
  · intro group lt
    have first := left.groups group lt
    have second := right.groups group (by rw [same.esb]; exact lt)
    omega
  · have first := left.total
    have second := right.total
    rw [same.esb] at second
    omega

/-- Nothing is counted and no bitmap changes. -/
theorem Balanced.of_same (same : SameLayout fs fs')
    (bits : ∀ group < fs.esb.totalGroups, ∀ k < fs.esb.sBlksize,
      fs'.blockBits group k = fs.blockBits group k)
    (counts : ∀ group < fs.esb.totalGroups, fs'.unallocBlocks group = fs.unallocBlocks group)
    (total : fs'.totalUnallocBlocks = fs.totalUnallocBlocks) : Balanced fs fs' := by
  have free : ∀ group < fs.esb.totalGroups, fs'.freeBlocks group = fs.freeBlocks group := by
    intro group lt
    unfold freeBlocks
    rw [same.esb]
    exact zeroBits_congr fun i below => bit_congr (bits group lt (i / 8) (by omega))
  constructor
  · intro group lt
    rw [counts group lt, free group lt]
  · rw [total, Finset.sum_congr rfl fun group mem => free group (Finset.mem_range.mp mem)]

theorem SameLayout.refl : SameLayout fs fs := ⟨rfl, fun _ => rfl, fun _ => rfl, fun _ => rfl⟩

theorem SameLayout.trans (left : SameLayout fs mid) (right : SameLayout mid fs') :
    SameLayout fs fs' :=
  ⟨right.esb.trans left.esb, fun group => (right.blockBitmapBase group).trans
    (left.blockBitmapBase group), fun group => (right.inodeBitmapBase group).trans
    (left.inodeBitmapBase group), fun group => (right.inodeTableBase group).trans
    (left.inodeTableBase group)⟩

theorem SameLayout.metaSector (same : SameLayout fs fs') {id : ℕ} :
    fs'.MetaSector id ↔ fs.MetaSector id := by
  simp only [MetaSector, same.esb, same.blockBitmapBase, same.inodeBitmapBase, same.inItable]

theorem SameLayout.allocSector (same : SameLayout fs fs') {id : ℕ} :
    fs'.AllocSector id ↔ fs.AllocSector id := by
  simp only [AllocSector, same.esb, same.blockBitmapBase, same.inodeBitmapBase]

theorem Evolves.refl (ready : fs.Ready) : Evolves sectors fs fs :=
  ⟨ready, .refl, .refl, fun _ _ _ _ => rfl, .refl⟩

theorem Evolves.trans (left : Evolves sectors fs mid) (right : Evolves sectors mid fs') :
    Evolves sectors fs fs' where
  ready := right.ready
  same := left.same.trans right.same
  touches := left.touches.trans right.touches
  inodes group lt k below := (right.inodes group (by rw [left.same.esb]; exact lt) k
    (by rw [left.same.esb]; exact below)).trans (left.inodes group lt k below)
  balanced := left.balanced.trans left.same right.balanced

theorem Evolves.mono (evolves : Evolves sectors fs fs') (le : ∀ id, sectors id → wider id) :
    Evolves wider fs fs' :=
  ⟨evolves.ready, evolves.same, evolves.touches.mono le, evolves.inodes, evolves.balanced⟩

/-- What both calls end with: the changed bitmap and the counts are put on the card. -/
theorem saveBlocks {f : Fs} (ready : fs.Ready) (same : SameLayout fs f)
    (unwritten : Touches (fun _ => False) fs.disk f.disk) (lt : group < fs.esb.totalGroups)
    (bg : f.bitmap.bg = group) (dirty : f.bitmap.dirty = true) (clean : f.itable.dirty = false)
    (inodes : ∀ k < fs.esb.sBlksize, f.bitmap.inodebit k = fs.inodeBits group k) :
    ∃ fs', f.saveAll group = (0, fs') ∧ fs'.itable = f.itable ∧ fs'.dpttable = f.dpttable ∧
      fs'.totalUnallocBlocks = f.totalUnallocBlocks ∧ fs'.Ready ∧ SameLayout fs fs' ∧
      Touches fs.AllocSector fs.disk fs'.disk ∧
      ∀ other < fs.esb.totalGroups, ∀ k < fs.esb.sBlksize,
        fs'.inodeBits other k = fs.inodeBits other k ∧
        fs'.blockBits other k =
          if other = group then f.bitmap.blockbit k else fs.blockBits other k := by
  subst bg
  have layout := same.layout ready.layout
  have ltNow : f.bitmap.bg < f.esb.totalGroups := by
    rw [same.esb]
    exact lt
  rcases saveAll_spec layout (unwritten.reliable ready.reliable) dirty ltNow with
    ⟨disk', sbBuf, saved, touches, holds, apart⟩
  have sector : f.disk.sector = fs.disk.sector := funext fun id => unwritten.sector id not_false
  have sameEnd : SameLayout f { f with
      disk := disk', sbBuf, bitmap := { f.bitmap with dirty := false } } :=
    ⟨rfl, fun _ => rfl, fun _ => rfl, fun _ => rfl⟩
  refine ⟨_, saved, rfl, rfl, rfl, ⟨?_, ?_, ⟨rfl, clean⟩, Or.inr ⟨ltNow, holds⟩⟩,
    same.trans sameEnd, ?_, ?_⟩
  · exact sameEnd.layout layout
  · exact touches.reliable (unwritten.reliable ready.reliable)
  · exact (unwritten.mono fun _ => False.elim).trans
      (touches.mono fun id inside => same.allocSector.mp inside)
  · intro other otherLt k below
    have here : k < f.esb.sBlksize := by
      rw [same.esb]
      exact below
    by_cases isGroup : other = f.bitmap.bg
    · subst isGroup
      rw [if_pos rfl, ← inodes k below]
      exact ⟨(holds k here).2.symm, (holds k here).1.symm⟩
    · rw [if_neg isGroup]
      have untouched := apart other (by rw [same.esb]; exact otherLt) isGroup k here
      have bytes : ∀ block, f.esb.blockBytes f.disk block k = fs.esb.blockBytes fs.disk block k := by
        intro block
        rw [same.esb, ExtSb.blockBytes, ExtSb.blockBytes, Disk.bytesFrom, Disk.bytesFrom, sector]
      constructor
      · exact untouched.2.trans ((bytes _).trans (by rw [same.inodeBitmapBase]; rfl))
      · exact untouched.1.trans ((bytes _).trans (by rw [same.blockBitmapBase]; rfl))

/-- Only the count of one group differs in what the two calls change. -/
theorem sameLayout_of_unallocBlocks {f : Fs} {value : ℕ} (esb : f.esb = fs.esb)
    (table : f.dpttable = setDptField fs.dpttable group 12 2 value) :
    SameLayout fs f ∧ f.unallocBlocks group = value % 65536 ∧
      ∀ other, other ≠ group → f.unallocBlocks other = fs.unallocBlocks other := by
  have kept : ∀ other offset width, offset + width ≤ 12 →
      dptField f.dpttable other offset width = dptField fs.dpttable other offset width := by
    intro other offset width below
    rw [table, dptField_setDptField_ne (by decide) (below.trans (by decide)) (Or.inr (Or.inl below))]
  refine ⟨⟨esb, fun other => kept other 0 4 (by decide), fun other => kept other 4 4 (by decide),
    fun other => kept other 8 4 (by decide)⟩, ?_, fun other ne => ?_⟩
  · rw [unallocBlocks, table, dptField_setDptField]
    rfl
  · rw [unallocBlocks, table, dptField_setDptField_ne (by decide) (by decide) (Or.inl ne),
      unallocBlocks]

/-- One more bit is set, and one block less is counted. -/
theorem Balanced.of_take (lt : group < fs.esb.totalGroups)
    (taken : fs.freeBlocks group = fs'.freeBlocks group + 1)
    (othersFree : ∀ other < fs.esb.totalGroups, other ≠ group →
      fs'.freeBlocks other = fs.freeBlocks other)
    (count : fs'.unallocBlocks group = (fs.unallocBlocks group + 65535) % 65536)
    (others : ∀ other, other ≠ group → fs'.unallocBlocks other = fs.unallocBlocks other)
    (total : fs'.totalUnallocBlocks = sub32 fs.totalUnallocBlocks 1) : Balanced fs fs' := by
  constructor
  · intro other otherLt
    by_cases isGroup : other = group
    · subst isGroup
      omega
    · rw [others other isGroup, othersFree other otherLt isGroup]
  · have sum := Counting.sum_except lt taken fun other otherLt ne => (othersFree other otherLt ne).symm
    rw [sum, total, sub32]
    omega

/-- One bit is cleared, and one block more is counted. -/
theorem Balanced.of_give (lt : group < fs.esb.totalGroups)
    (given : fs'.freeBlocks group = fs.freeBlocks group + 1)
    (othersFree : ∀ other < fs.esb.totalGroups, other ≠ group →
      fs'.freeBlocks other = fs.freeBlocks other)
    (count : fs'.unallocBlocks group = (fs.unallocBlocks group + 1) % 65536)
    (others : ∀ other, other ≠ group → fs'.unallocBlocks other = fs.unallocBlocks other)
    (total : fs'.totalUnallocBlocks = u32 (fs.totalUnallocBlocks + 1)) : Balanced fs fs' := by
  constructor
  · intro other otherLt
    by_cases isGroup : other = group
    · subst isGroup
      omega
    · rw [others other isGroup, othersFree other otherLt isGroup]
  · have sum := Counting.sum_except lt given fun other otherLt ne => othersFree other otherLt ne
    rw [sum, total, u32]
    omega

/-- The zero bits when the bitmap of one group changes. -/
theorem freeBlocks_changed {bitmap : Bytes} (same : SameLayout fs fs')
    (lt : group < fs.esb.totalGroups)
    (bytes : ∀ other < fs.esb.totalGroups, ∀ k < fs.esb.sBlksize,
      fs'.blockBits other k = if other = group then bitmap k else fs.blockBits other k) :
    fs'.freeBlocks group = zeroBits bitmap (8 * fs.esb.sBlksize) ∧
      ∀ other < fs.esb.totalGroups, other ≠ group → fs'.freeBlocks other = fs.freeBlocks other := by
  unfold freeBlocks
  rw [same.esb]
  constructor
  · apply zeroBits_congr
    intro i below
    have byte := bytes group lt (i / 8) (by omega)
    rw [if_pos rfl] at byte
    exact bit_congr byte
  · intro other otherLt ne
    apply zeroBits_congr
    intro i below
    have byte := bytes other otherLt (i / 8) (by omega)
    rw [if_neg ne] at byte
    exact bit_congr byte

/-- The loaded bitmap is edited, and the changes are saved. -/
theorem saveBlocks_changed {f : Fs} {bitmap : BitmapCache} (edit : Bytes → Bytes)
    (edit_bytes : ∀ buf other, (∀ k < fs.esb.sBlksize, buf k = other k) →
      ∀ k < fs.esb.sBlksize, edit buf k = edit other k)
    (ready : fs.Ready) (lt : group < fs.esb.totalGroups) (holds : fs.Holds fs.disk bitmap group)
    (same : SameLayout fs f) (unwritten : Touches (fun _ => False) fs.disk f.disk)
    (loaded : f.bitmap = ⟨group, true, edit bitmap.blockbit, bitmap.inodebit⟩)
    (itable : f.itable = fs.itable)
    (balanced : ∀ fs' : Fs, fs'.freeBlocks group =
        zeroBits (edit (fs.blockBits group)) (8 * fs.esb.sBlksize) →
      (∀ other < fs.esb.totalGroups, other ≠ group → fs'.freeBlocks other = fs.freeBlocks other) →
      (∀ other, fs'.unallocBlocks other = f.unallocBlocks other) →
      fs'.totalUnallocBlocks = f.totalUnallocBlocks → Balanced fs fs') :
    ∃ fs', f.saveAll group = (0, fs') ∧
      BlocksChanged fs fs' group (edit (fs.blockBits group)) := by
  rcases saveBlocks ready same unwritten lt (by rw [loaded]) (by rw [loaded])
    (itable ▸ ready.clean.2) (fun k below => by rw [loaded]; exact (holds k below).2) with
    ⟨fs', saved, itable', dpttable, total, ready', same', touches, bytes⟩
  have bits : ∀ other < fs.esb.totalGroups, ∀ k < fs.esb.sBlksize, fs'.blockBits other k =
      if other = group then edit (fs.blockBits group) k else fs.blockBits other k := by
    intro other otherLt k kLt
    rw [(bytes other otherLt k kLt).2, loaded]
    split
    · exact edit_bytes _ _ (fun k below => (holds k below).1) k kLt
    · rfl
  rcases freeBlocks_changed same' lt bits with ⟨here, others⟩
  have kept := balanced fs' here others
    (fun other => by rw [unallocBlocks, dpttable, unallocBlocks]) total
  refine ⟨fs', saved, ⟨⟨ready', same', touches, fun other lt k below => (bytes other lt k below).1,
    kept⟩, ?_, ?_, itable'.trans itable⟩⟩
  · intro k kLt
    rw [bits group lt k kLt, if_pos rfl]
  · intro other otherLt ne k kLt
    rw [bits other otherLt k kLt, if_neg ne]

/-- While the two counts it looks at are not 0, `apply_block` takes the first free block. -/
theorem applyBlock_spec (ready : fs.Ready) (lt : group < fs.esb.totalGroups)
    (some : ¬(fs.totalUnallocBlocks = 0 ∨ fs.unallocBlocks 0 = 0))
    (first : firstFree (fs.blockBits group) fs.esb.sBlksize = .some index) :
    ∃ fs', fs.applyBlock group = .some (0, u32 (group * fs.esb.blocksPerGroup + index), fs') ∧
      BlocksChanged fs fs' group (setBit (fs.blockBits group) index) := by
  rcases loadBitmap_spec ready lt with ⟨bitmap, transfers, loads, bg, clean, holds⟩
  have found : firstFree bitmap.blockbit fs.esb.sBlksize = .some index := by
    rw [← first]
    exact firstFree_congr fun k below => (holds k below).1
  rcases firstFree_spec first with ⟨below, free⟩
  generalize takenEq : ({ fs with bitmap, disk := { fs.disk with transfers } } : Fs).takeBlock
    group index = taken
  have counts : SameLayout fs taken ∧
      taken.unallocBlocks group = (fs.unallocBlocks group + 65535) % 65536 ∧
      ∀ other, other ≠ group → taken.unallocBlocks other = fs.unallocBlocks other := by
    subst takenEq
    exact sameLayout_of_unallocBlocks rfl rfl
  have facts : taken.disk = { fs.disk with transfers } ∧ taken.itable = fs.itable ∧
      taken.totalUnallocBlocks = sub32 fs.totalUnallocBlocks 1 ∧
      taken.bitmap = ⟨group, true, setBit bitmap.blockbit index, bitmap.inodebit⟩ := by
    subst takenEq
    subst bg
    exact ⟨rfl, rfl, rfl, rfl⟩
  rcases facts with ⟨diskEq, itable, total, loaded⟩
  rcases saveBlocks_changed (setBit · index) (fun _ _ agree _ => setBit_bytes agree) ready lt holds
    counts.1 (diskEq ▸ .read transfers) loaded itable fun fs' here others count total' =>
      .of_take lt (by rw [here]; exact zeroBits_setBit below free) others
        ((count group).trans counts.2.1) (fun other ne => (count other).trans (counts.2.2 other ne))
        (total'.trans total) with ⟨fs', saved, changed⟩
  refine ⟨fs', ?_, changed⟩
  simp only [applyBlock, some, if_false, loads, ne_eq, not_true_eq_false, found, Option.map_some,
    takenEq, saved]

/-- When `apply_block` returns no error, it has taken the first free block. -/
theorem applyBlock_cases (ready : fs.Ready) (lt : group < fs.esb.totalGroups)
    (applied : fs.applyBlock group = .some (0, block, fs')) :
    ∃ index, firstFree (fs.blockBits group) fs.esb.sBlksize = .some index ∧
      block = u32 (group * fs.esb.blocksPerGroup + index) ∧
      BlocksChanged fs fs' group (setBit (fs.blockBits group) index) := by
  by_cases none : fs.totalUnallocBlocks = 0 ∨ fs.unallocBlocks 0 = 0
  · simp [applyBlock, none] at applied
  · rcases first : firstFree (fs.blockBits group) fs.esb.sBlksize with _ | index
    · rcases loadBitmap_spec ready lt with ⟨bitmap, transfers, loads, _, _, holds⟩
      have full : firstFree bitmap.blockbit fs.esb.sBlksize = .none := by
        rw [← first]
        exact firstFree_congr fun k below => (holds k below).1
      simp [applyBlock, none, loads, full] at applied
    · rcases applyBlock_spec ready lt none first with ⟨after, applied', changed⟩
      rw [applied] at applied'
      cases applied'
      exact ⟨index, rfl, rfl, changed⟩

/-- `retake_block` gives back a block in use. -/
theorem retakeBlock_spec (ready : fs.Ready)
    (lt : block / fs.esb.blocksPerGroup < fs.esb.totalGroups)
    (below : block % fs.esb.blocksPerGroup < 8 * fs.esb.sBlksize)
    (used : bit (fs.blockBits (block / fs.esb.blocksPerGroup)) (block % fs.esb.blocksPerGroup) =
      true) :
    ∃ fs', fs.retakeBlock block = (0, fs') ∧
      BlocksChanged fs fs' (block / fs.esb.blocksPerGroup)
        (clearBit (fs.blockBits (block / fs.esb.blocksPerGroup))
          (block % fs.esb.blocksPerGroup)) := by
  generalize groupEq : block / fs.esb.blocksPerGroup = group at *
  generalize indexEq : block % fs.esb.blocksPerGroup = index at *
  rcases loadBitmap_spec ready lt with ⟨bitmap, transfers, loads, bg, clean, holds⟩
  have marked : checkIorb bitmap.blockbit index ≠ 0 := by
    have bits : bit bitmap.blockbit index = true := by
      rw [← used]
      exact bit_congr (holds _ (by omega)).1
    rw [checkIorb_eq, bits]
    decide
  generalize givenEq : ({ fs with bitmap, disk := { fs.disk with transfers } } : Fs).giveBlock
    group index = given
  have counts : SameLayout fs given ∧
      given.unallocBlocks group = (fs.unallocBlocks group + 1) % 65536 ∧
      ∀ other, other ≠ group → given.unallocBlocks other = fs.unallocBlocks other := by
    subst givenEq
    exact sameLayout_of_unallocBlocks rfl rfl
  have facts : given.disk = { fs.disk with transfers } ∧ given.itable = fs.itable ∧
      given.totalUnallocBlocks = u32 (fs.totalUnallocBlocks + 1) ∧
      given.bitmap = ⟨group, true, clearBit bitmap.blockbit index, bitmap.inodebit⟩ := by
    subst givenEq
    subst bg
    exact ⟨rfl, rfl, rfl, rfl⟩
  rcases facts with ⟨diskEq, itable, total, loaded⟩
  rcases saveBlocks_changed (clearBit · index) (fun _ _ agree _ => clearBit_bytes agree) ready lt
    holds counts.1 (diskEq ▸ .read transfers) loaded itable fun fs' here others count total' =>
      .of_give lt (by rw [here]; exact zeroBits_clearBit below used) others
        ((count group).trans counts.2.1) (fun other ne => (count other).trans (counts.2.2 other ne))
        (total'.trans total) with ⟨fs', saved, changed⟩
  refine ⟨fs', ?_, changed⟩
  simp only [retakeBlock, groupEq, indexEq, loads, andThen, if_true, marked, if_false, givenEq,
    saved]

end Steps

end Fs

end Ninix.Ext2
