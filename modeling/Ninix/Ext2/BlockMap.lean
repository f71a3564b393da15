import Ninix.Ext2.BlockAllocation
import Ninix.Library.IndexTree

/-!
# The block map of a file

An inode has 15 pointers. The first 12 are the numbers of data blocks, and the others those of
index blocks of one, two and three levels. `ext2_bmap` follows the pointers and the words of
index blocks to the block of a page, and `ext2_create_page` takes a block for each new page, with
the index blocks above it that are not there yet. Whether a block is there it reads off the word
that would hold its number, also in an index block it has just taken.
-/

namespace Ninix.Ext2

open ByteBuffer Bitmap IndexTree

namespace ExtSb

/-- `pointers_per_block` -/
def pointersPerBlock (esb : ExtSb) : ℕ := esb.sBlksize / 4

/-- `get_location`: `dp`, and those of the indices `fp`, `sp` and `tp` that are not -1. Where a
product is too large for a `u32` no page is left for the level it belongs to. -/
def getLocation (esb : ExtSb) (vpn : ℕ) : Option (ℕ × List ℕ) :=
  let n := esb.pointersPerBlock
  if vpn < 12 then some (vpn, [])
  else if vpn < 12 + n then some (12, [vpn - 12])
  else if vpn < u32 (12 + n + n * n) then
    let tmp := vpn - 12 - n
    some (13, [tmp / n, tmp % n])
  else if vpn < u32 (12 + n + n * n + n * n * n) then
    let tmp := vpn - 12 - n - n * n
    some (14, [tmp / (n * n), tmp % (n * n) / n, tmp % n])
  else none

end ExtSb

/-- What the functions here use of `struct inode` and its address space. -/
structure Inode where
  iIno : ℕ
  iBlocks : ℕ
  aPage : ℕ → ℕ

/-! ## Fields of `struct ext2_inode` -/

/-- `pointers[dp]` -/
def pointer (xinode : Bytes) (dp : ℕ) : ℕ := read32 xinode (40 + 4 * dp)

/-- `bg_id` -/
def bgId (xinode : Bytes) : ℕ := readLE xinode 24 2

namespace Fs

/-- `read_xinode` -/
def readXinode (fs : Fs) (ino : ℕ) (xinode : Bytes) : ℕ × Bytes × Fs :=
  let group := fs.inodeGroup ino
  let index := fs.inodeIndex ino
  let (err, fs) := fs.loadBitmap group
  if err ≠ 0 then (err, xinode, fs)
  else if checkIorb fs.bitmap.inodebit index = 0 then (errNoInode, xinode, fs)
  else
    let (err, fs) := fs.loadItable group (fs.inodeBlock index)
    if err ≠ 0 then (err, xinode, fs)
    else (0, blit xinode 0 fs.itable.buf (fs.inodeOffset index) inodeSizeValid, fs)

end Fs

/-! ## Growing -/

/-- The variables of the loop of `ext2_create_page`. -/
structure Growth where
  fs : Fs
  inode : Inode
  xinode : Bytes
  buf : Bytes

namespace Growth

/-- Read an index block. -/
def readIndex (s : Growth) (block : ℕ) : ℕ × Growth :=
  let (err, buf, disk) :=
    s.fs.disk.readBlock s.buf (s.fs.esb.blockSector block) s.fs.esb.sectsPerBlock
  (err, { s with fs := { s.fs with disk }, buf })

/-- Set a word of the index block that was read, and write it. -/
def writeIndex (s : Growth) (block i value : ℕ) : ℕ × Growth :=
  let buf := write32 s.buf (4 * i) value
  let (err, fs) := s.fs.writeBlock buf block
  (err, { s with fs, buf })

/-- Set a pointer of the inode, on the card to be and in memory. -/
def setPointer (s : Growth) (dp value : ℕ) : Growth :=
  { s with
    xinode := write32 s.xinode (40 + 4 * dp) value
    inode := { s.inode with aPage := Function.update s.inode.aPage dp value } }

/-- `inode->i_blocks++` -/
def addBlock (s : Growth) : Growth :=
  { s with inode := { s.inode with iBlocks := u32 (s.inode.iBlocks + 1) } }

/-- The part of a round of `ext2_create_page` below an index block: the indices that are left lead
to the word for the data block. -/
def register (group blockNo : ℕ) : List ℕ → ℕ → Growth → Option (ℕ × Growth)
  | [], _, s => some (0, s)
  | i :: rest, block, s =>
      let (err, s) := s.readIndex block
      if err ≠ 0 then some (err, s)
      else
        match rest with
        | [] =>
            let (err, s) := s.writeIndex block i blockNo
            some (err, s.addBlock)
        | _ :: _ =>
            let next := read32 s.buf (4 * i)
            if next ≠ 0 then register group blockNo rest next s
            else
              (s.fs.applyBlock group).bind fun (err, next, fs) =>
                if err ≠ 0 then some (err, { s with fs })
                else
                  -- the code of this write is overwritten by that of the next read
                  let s := (writeIndex { s with fs } block i next).2
                  register group blockNo rest next s

/-- A round of the loop of `ext2_create_page`, with the block it takes for the page. -/
def growStep (s : Growth) (vpn : ℕ) : Option (ℕ × ℕ × Growth) :=
  match s.fs.esb.getLocation vpn with
  | none => some (1, 0, s)
  | some (dp, rest) =>
      let group := bgId s.xinode
      (s.fs.applyBlock group).bind fun (err, blockNo, fs) =>
        let s := { s with fs }
        if err ≠ 0 then some (err, blockNo, s)
        else
          match rest with
          | [] => some (0, blockNo, (s.setPointer dp blockNo).addBlock)
          | _ :: _ =>
              let next := pointer s.xinode dp
              if next ≠ 0 then
                (register group blockNo rest next s).map fun (err, s) => (err, blockNo, s)
              else
                (s.fs.applyBlock group).bind fun (err, next, fs) =>
                  let s := { s with fs }
                  if err ≠ 0 then some (err, blockNo, s)
                  else
                    (register group blockNo rest next (s.setPointer dp next)).map
                      fun (err, s) => (err, blockNo, s)

/-- The loop of `ext2_create_page` with `left` rounds to go, and the blocks it takes for the
pages. -/
def growLoop (s : Growth) (vpn : ℕ) : ℕ → Option (ℕ × List ℕ × Growth)
  | 0 => some (0, [], s)
  | left + 1 =>
      (s.growStep vpn).bind fun (err, blockNo, s) =>
        if err ≠ 0 then some (err, [], s)
        else
          (growLoop s (u32 (vpn + 1)) left).map fun (err, blocks, s) => (err, blockNo :: blocks, s)

end Growth

namespace Fs

/-- What the loop of `ext2_create_page` starts with: the inode is read into `xinode`. -/
def startGrowth (fs : Fs) (inode : Inode) : ℕ × Growth :=
  let (err, xinode, fs) := fs.readXinode inode.iIno zeros
  (err, { fs, inode, xinode, buf := zeros })

/-- `ext2_create_page`, also with the blocks that `apply_block` returned for the pages. -/
def createPages (fs : Fs) (inode : Inode) (cnt : ℕ) : Option (ℕ × List ℕ × Inode × Fs) :=
  let (err, s) := fs.startGrowth inode
  if err ≠ 0 then some (0, [], s.inode, s.fs)
  else
    (s.growLoop inode.iBlocks cnt).map fun (err, blocks, s) =>
      if err ≠ 0 then (0, blocks, s.inode, s.fs)
      else
        let xinode := write32 s.xinode 28 (u32 (s.inode.iBlocks * s.fs.esb.sectsPerBlock))
        let (err, fs) := s.fs.writeXinode s.inode.iIno xinode
        (if err ≠ 0 then 0 else cnt, blocks, s.inode, fs)

/-- `ext2_create_page` -/
def createPage (fs : Fs) (inode : Inode) (cnt : ℕ) : Option (ℕ × Inode × Fs) :=
  (fs.createPages inode cnt).map fun (pages, _, inode, fs) => (pages, inode, fs)

/-- The part of `ext2_bmap` that follows the indices that are left. -/
def followMap (fs : Fs) (buf : Bytes) (block : ℕ) : List ℕ → ℕ × Fs
  | [] => (block, fs)
  | i :: rest =>
      let (err, buf, disk) :=
        fs.disk.readBlock buf (fs.esb.blockSector block) fs.esb.sectsPerBlock
      if err ≠ 0 then (minusOne32, { fs with disk })
      else followMap { fs with disk } buf (read32 buf (4 * i)) rest

/-- `ext2_bmap` -/
def bmap (fs : Fs) (inode : Inode) (vpn : ℕ) : Option (ℕ × Inode × Fs) :=
  let cnt := u32 (sub32 vpn inode.iBlocks + 1)
  (if inode.iBlocks ≤ vpn then fs.createPage inode cnt else some (cnt, inode, fs)).map
    fun (pages, inode, fs) =>
      if pages ≠ cnt then (minusOne32, inode, fs)
      else
        match fs.esb.getLocation vpn with
        | none => (minusOne32, inode, fs)
        | some (dp, rest) =>
            let (ret, fs) := fs.followMap zeros (inode.aPage dp) rest
            (ret, inode, fs)

end Fs

/-! ## Blocks of files -/

namespace Fs

/-- A word of an index block on the card. -/
def word (fs : Fs) (block i : ℕ) : ℕ := read32 (fs.esb.blockBytes fs.disk block) (4 * i)

/-- The bit of a block is set. -/
def Used (fs : Fs) (block : ℕ) : Prop :=
  block / fs.esb.blocksPerGroup < fs.esb.totalGroups ∧
    bit (fs.blockBits (block / fs.esb.blocksPerGroup)) (block % fs.esb.blocksPerGroup) = true

/-- None of the sectors of a block holds metadata. -/
def Apart (fs : Fs) (block : ℕ) : Prop := ∀ id, fs.MetaSector id → ¬fs.esb.InBlock block id

/-- A block that can be one of a file. -/
structure FileBlock (fs : Fs) (block : ℕ) : Prop where
  onCard : fs.esb.OnCard block
  apart : fs.Apart block
  positive : 0 < block
  used : fs.Used block

/-- The blocks of a group have room in its bitmap, the bits behind them are set, and a block whose
bit is not set can become one of a file. -/
structure BlockLayout (fs : Fs) : Prop where
  perGroup : 0 < fs.esb.blocksPerGroup ∧ fs.esb.blocksPerGroup ≤ 8 * fs.esb.sBlksize
  padding : ∀ group < fs.esb.totalGroups, ∀ i, fs.esb.blocksPerGroup ≤ i →
    i < 8 * fs.esb.sBlksize → bit (fs.blockBits group) i = true
  free : ∀ group < fs.esb.totalGroups, ∀ i < fs.esb.blocksPerGroup,
    bit (fs.blockBits group) i = false →
      fs.esb.OnCard (group * fs.esb.blocksPerGroup + i) ∧
        fs.Apart (group * fs.esb.blocksPerGroup + i) ∧ 0 < group * fs.esb.blocksPerGroup + i

section Blocks

variable {fs fs' : Fs} {group index block other i : ℕ}

theorem SameLayout.apart (same : SameLayout fs fs') : fs'.Apart block ↔ fs.Apart block := by
  simp only [Apart, same.metaSector, same.esb]

/-- The words of a buffer that an index block was read into. -/
theorem word_of_bytes {buf : Bytes}
    (bytes : ∀ k < fs.esb.sBlksize, buf k = fs.esb.blockBytes fs.disk block k)
    (lt : i < fs.esb.pointersPerBlock) : read32 buf (4 * i) = fs.word block i := by
  apply readLE_congr
  intro k _ upper
  unfold ExtSb.pointersPerBlock at lt
  exact bytes k (by omega)

/-- A block of a file keeps its words when only other blocks and metadata are written. -/
theorem word_of_touches {sectors : ℕ → Prop} (same : SameLayout fs fs')
    (touches : Touches sectors fs.disk fs'.disk) (onCard : fs.esb.OnCard block)
    (apart : ∀ id, sectors id → ¬fs.esb.InBlock block id) (lt : i < fs.esb.pointersPerBlock) :
    fs'.word block i = fs.word block i := by
  unfold word
  rw [same.esb]
  apply readLE_congr
  intro k _ upper
  unfold ExtSb.pointersPerBlock at lt
  exact touches.blockBytes onCard apart (by omega)

/-- Blocks that share a sector are the same. -/
theorem inBlock_unique {id : ℕ} (inside : fs.esb.InBlock block id)
    (inOther : fs.esb.InBlock other id) : block = other :=
  inside.2.symm.trans inOther.2

/-- Where a block is in its group. -/
theorem location_block (group : ℕ) (below : index < fs.esb.blocksPerGroup) :
    (group * fs.esb.blocksPerGroup + index) / fs.esb.blocksPerGroup = group ∧
      (group * fs.esb.blocksPerGroup + index) % fs.esb.blocksPerGroup = index := by
  have positive : 0 < fs.esb.blocksPerGroup := by omega
  rw [Nat.mul_comm group]
  constructor
  · rw [Nat.mul_add_div positive, Nat.div_eq_of_lt below, Nat.add_zero]
  · rw [Nat.mul_add_mod, Nat.mod_eq_of_lt below]

/-- A block whose bit is not set. -/
theorem BlockLayout.freeBlock (layout : fs.BlockLayout) (lt : group < fs.esb.totalGroups)
    (below : index < 8 * fs.esb.sBlksize) (free : bit (fs.blockBits group) index = false) :
    index < fs.esb.blocksPerGroup ∧
      u32 (group * fs.esb.blocksPerGroup + index) = group * fs.esb.blocksPerGroup + index ∧
      fs.esb.OnCard (group * fs.esb.blocksPerGroup + index) ∧
      fs.Apart (group * fs.esb.blocksPerGroup + index) ∧
      ¬fs.Used (group * fs.esb.blocksPerGroup + index) := by
  have inGroup : index < fs.esb.blocksPerGroup := by
    by_contra behind
    rw [layout.padding group lt index (by omega) below] at free
    exact absurd free (by decide)
  rcases layout.free group lt index inGroup free with ⟨onCard, apart, _⟩
  rcases location_block group inGroup with ⟨groupOf, indexOf⟩
  refine ⟨inGroup, u32_of_lt ?_, onCard, apart, ?_⟩
  · have sects : 0 < fs.esb.sectsPerBlock := ExtSb.sectsPerBlock_pos
    have le := Nat.le_mul_of_pos_right (group * fs.esb.blocksPerGroup + index + 1) sects
    unfold ExtSb.OnCard at onCard
    omega
  · rintro ⟨_, set⟩
    rw [groupOf, indexOf, free] at set
    exact absurd set (by decide)

/-- The block a call has taken: it was free, and is one of a file now. -/
structure Took (fs fs' : Fs) (group block : ℕ) : Prop extends
    Evolves fs.AllocSector fs fs' where
  itable : fs'.itable = fs.itable
  layout : fs'.BlockLayout
  fileBlock : fs'.FileBlock block
  wasFree : ¬fs.Used block
  used (other : ℕ) : fs'.Used other ↔ other = block ∨ fs.Used other
  bits : ∀ g < fs.esb.totalGroups, ∀ i < 8 * fs.esb.sBlksize,
    bit (fs'.blockBits g) i = true ↔ bit (fs.blockBits g) i = true ∨
      i < fs.esb.blocksPerGroup ∧ g * fs.esb.blocksPerGroup + i = block
  first : ∃ index, firstFree (fs.blockBits group) fs.esb.sBlksize = some index ∧
    block = u32 (group * fs.esb.blocksPerGroup + index) ∧
    ∀ k < fs.esb.sBlksize, fs'.blockBits group k = setBit (fs.blockBits group) index k

/-- `apply_block` without an error takes a block for a file. -/
theorem applyBlock_took (ready : fs.Ready) (layout : fs.BlockLayout)
    (lt : group < fs.esb.totalGroups) (applied : fs.applyBlock group = some (0, block, fs')) :
    Took fs fs' group block := by
  rcases applyBlock_cases ready lt applied with ⟨index, first, number, changed⟩
  rcases firstFree_spec first with ⟨below, free⟩
  rcases layout.freeBlock lt below free with ⟨inGroup, small, onCard, apart, wasFree⟩
  rcases location_block group inGroup with ⟨groupOf, indexOf⟩
  have positive := (layout.free group lt index inGroup free).2.2
  rw [small] at number
  subst number
  have room := layout.perGroup.2
  have bits : ∀ g < fs.esb.totalGroups, ∀ i < 8 * fs.esb.sBlksize,
      bit (fs'.blockBits g) i = true ↔ bit (fs.blockBits g) i = true ∨ g = group ∧ i = index := by
    intro g gLt i iLt
    by_cases isGroup : g = group
    · subst isGroup
      have byte : bit (fs'.blockBits g) i = bit (setBit (fs.blockBits g) index) i :=
        bit_congr (changed.changed (i / 8) (by omega))
      rw [byte, bit_setBit]
      by_cases here : i = index <;> simp [here]
    · have byte : bit (fs'.blockBits g) i = bit (fs.blockBits g) i :=
        bit_congr (changed.others g gLt isGroup (i / 8) (by omega))
      rw [byte]
      simp [isGroup]
  have inBlock : ∀ {other}, other / fs.esb.blocksPerGroup < fs.esb.totalGroups →
      (other / fs.esb.blocksPerGroup = group ∧ other % fs.esb.blocksPerGroup = index ↔
        other = group * fs.esb.blocksPerGroup + index) := by
    intro other otherLt
    constructor
    · rintro ⟨rfl, rfl⟩
      exact (Nat.div_add_mod' other _).symm
    · rintro rfl
      exact ⟨groupOf, indexOf⟩
  have used : ∀ other, fs'.Used other ↔
      other = group * fs.esb.blocksPerGroup + index ∨ fs.Used other := by
    intro other
    unfold Used
    rw [changed.same.esb]
    have modLt := Nat.mod_lt other layout.perGroup.1
    constructor
    · rintro ⟨otherLt, set⟩
      rcases (bits _ otherLt _ (by omega)).mp set with old | new
      · exact Or.inr ⟨otherLt, old⟩
      · exact Or.inl ((inBlock otherLt).mp new)
    · rintro (rfl | ⟨otherLt, set⟩)
      · rw [groupOf, indexOf]
        exact ⟨lt, (bits group lt index below).mpr (Or.inr ⟨rfl, rfl⟩)⟩
      · exact ⟨otherLt, (bits _ otherLt _ (by omega)).mpr (Or.inl set)⟩
  refine
    { toEvolves := changed.toEvolves
      itable := changed.itable
      layout := ⟨?_, ?_, ?_⟩
      fileBlock := ⟨?_, ?_, positive, (used _).mpr (Or.inl rfl)⟩
      wasFree := wasFree
      used := used
      bits := ?_
      first := ⟨index, first, small.symm, changed.changed⟩ }
  · rw [changed.same.esb]
    exact layout.perGroup
  · rw [changed.same.esb]
    exact fun g gLt i behind iLt =>
      (bits g gLt i iLt).mpr (Or.inl (layout.padding g gLt i behind iLt))
  · rw [changed.same.esb]
    intro g gLt i iLt isFree
    rw [changed.same.apart]
    apply layout.free g gLt i iLt
    by_contra set
    have set' := (bits g gLt i (by omega)).mpr (Or.inl (by simpa using set))
    rw [isFree] at set'
    exact absurd set' (by decide)
  · rw [changed.same.esb]
    exact onCard
  · exact changed.same.apart.mpr apart
  · intro g gLt i iLt
    rw [bits g gLt i iLt]
    apply or_congr Iff.rfl
    constructor
    · rintro ⟨rfl, rfl⟩
      exact ⟨inGroup, rfl⟩
    · rintro ⟨inside, same⟩
      rcases location_block g inside with ⟨groupOf', indexOf'⟩
      rw [same] at groupOf' indexOf'
      exact ⟨groupOf'.symm.trans groupOf, indexOf'.symm.trans indexOf⟩

theorem FileBlock.lt (fileBlock : fs.FileBlock block) : block < 4294967296 := by
  have onCard := fileBlock.onCard
  have sects : 0 < fs.esb.sectsPerBlock := ExtSb.sectsPerBlock_pos
  have le := Nat.le_mul_of_pos_right (block + 1) sects
  unfold ExtSb.OnCard at onCard
  omega

/-- The volume after a transfer from the card. -/
def Reads (fs fs' : Fs) : Prop :=
  ∃ transfers, fs' = { fs with disk := { fs.disk with transfers } }

theorem Reads.word (reads : Reads fs fs') : fs'.word = fs.word := by
  rcases reads with ⟨transfers, rfl⟩
  rfl

theorem Reads.esb (reads : Reads fs fs') : fs'.esb = fs.esb := by
  rcases reads with ⟨transfers, rfl⟩
  rfl

theorem Reads.blockBits (reads : Reads fs fs') : fs'.blockBits = fs.blockBits := by
  rcases reads with ⟨transfers, rfl⟩
  rfl

theorem Reads.blockBytes (reads : Reads fs fs') (esb : ExtSb) :
    esb.blockBytes fs'.disk = esb.blockBytes fs.disk := by
  rcases reads with ⟨transfers, rfl⟩
  rfl

/-- A block of a file stays one as long as its bit stays set. -/
theorem FileBlock.mono (fileBlock : fs.FileBlock block) (same : SameLayout fs fs')
    (used : fs.Used block → fs'.Used block) : fs'.FileBlock block where
  onCard := by
    rw [same.esb]
    exact fileBlock.onCard
  apart := same.apart.mpr fileBlock.apart
  positive := fileBlock.positive
  used := used fileBlock.used

theorem FileBlock.reads (fileBlock : fs.FileBlock block) (reads : Reads fs fs') :
    fs'.FileBlock block := by
  rcases reads with ⟨transfers, rfl⟩
  exact fileBlock.mono ⟨rfl, fun _ => rfl, fun _ => rfl, fun _ => rfl⟩ id

/-- The volume after a word of an index block was set. -/
structure Wrote (fs fs' : Fs) (block i value : ℕ) : Prop extends
    Evolves (fs.esb.InBlock block) fs fs' where
  itable : fs'.itable = fs.itable
  bitmaps : ∀ g < fs.esb.totalGroups, ∀ k < fs.esb.sBlksize, fs'.blockBits g k = fs.blockBits g k
  word (other : ℕ) : fs.esb.OnCard other → ∀ j < fs.esb.pointersPerBlock,
    fs'.word other j = if other = block ∧ j = i then value else fs.word other j

/-- Where the block bitmaps stay, the same blocks are in use. -/
theorem BlockLayout.used_iff (layout : fs.BlockLayout) (same : SameLayout fs fs')
    (bits : ∀ g < fs.esb.totalGroups, ∀ k < fs.esb.sBlksize, fs'.blockBits g k = fs.blockBits g k)
    (other : ℕ) : fs'.Used other ↔ fs.Used other := by
  have modLt := Nat.mod_lt other layout.perGroup.1
  have room := layout.perGroup.2
  unfold Used
  rw [same.esb]
  apply and_congr_right
  intro lt
  rw [bit_congr (bits _ lt _ (by omega))]

theorem BlockLayout.congr (layout : fs.BlockLayout) (same : SameLayout fs fs')
    (bits : ∀ g < fs.esb.totalGroups, ∀ k < fs.esb.sBlksize, fs'.blockBits g k = fs.blockBits g k) :
    fs'.BlockLayout := by
  have room := layout.perGroup.2
  refine ⟨?_, ?_, ?_⟩
  · rw [same.esb]
    exact layout.perGroup
  · rw [same.esb]
    intro g lt i behind below
    rw [bit_congr (bits g lt _ (by omega))]
    exact layout.padding g lt i behind below
  · rw [same.esb]
    intro g lt i below free
    rw [bit_congr (bits g lt _ (by omega))] at free
    rw [same.apart]
    exact layout.free g lt i below free

theorem Wrote.used {value : ℕ} (layout : fs.BlockLayout) (wrote : Wrote fs fs' block i value)
    (other : ℕ) : fs'.Used other ↔ fs.Used other :=
  layout.used_iff wrote.same wrote.bitmaps other

/-- A block that is written is one of a file: the rest of the volume stays as it is. -/
theorem writeBlock_wrote (ready : fs.Ready) (fileBlock : fs.FileBlock block) {buf : Bytes}
    (read : ∀ k < fs.esb.sBlksize, buf k = fs.esb.blockBytes fs.disk block k) {value : ℕ}
    (small : value < 4294967296) (inside : i < fs.esb.pointersPerBlock) :
    ∃ fs', fs.writeBlock (write32 buf (4 * i) value) block = (0, fs') ∧
      Wrote fs fs' block i value := by
  rcases writeBlock_block ready.reliable fileBlock.onCard (write32 buf (4 * i) value) with
    ⟨disk', wrote, touches, bytes⟩
  have apart : ∀ g < fs.esb.totalGroups, fs.SameBitmaps fs.disk disk' g := by
    intro g lt
    apply sameBitmaps_of_touches ready.layout lt touches
    exact fun id inBlock => ⟨fun inBits => fileBlock.apart id
      (Or.inr (Or.inr ⟨g, lt, Or.inl inBits⟩)) inBlock, fun inBits => fileBlock.apart id
      (Or.inr (Or.inr ⟨g, lt, Or.inr (Or.inl inBits)⟩)) inBlock⟩
  have same : SameLayout fs { fs with disk := disk' } :=
    ⟨rfl, fun _ => rfl, fun _ => rfl, fun _ => rfl⟩
  refine ⟨{ fs with disk := disk' }, by simp only [writeBlock, wrote],
    { ready := ⟨same.layout ready.layout, touches.reliable ready.reliable, ready.clean, ?_⟩
      same := same
      touches := touches
      inodes := fun g lt k below => (apart g lt k below).2
      balanced := .of_same same (fun g lt k below => (apart g lt k below).1) (fun _ _ => rfl) rfl
      itable := rfl
      bitmaps := fun g lt k below => (apart g lt k below).1
      word := ?_ }⟩
  · refine ready.cached.imp id fun cached => ?_
    rcases cached with ⟨lt, holds⟩
    exact ⟨lt, (apart _ lt).holds holds⟩
  · intro other onCard j below
    by_cases isBlock : other = block
    · subst isBlock
      have written : ({ fs with disk := disk' } : Fs).word other j =
          read32 (write32 buf (4 * i) value) (4 * j) := by
        apply readLE_congr
        intro k _ upper
        unfold ExtSb.pointersPerBlock at below
        exact bytes k (by omega)
      rw [written]
      by_cases isWord : j = i
      · subst isWord
        rw [if_pos ⟨rfl, rfl⟩, read32_write32_same]
        exact Nat.mod_eq_of_lt small
      · rw [if_neg (by omega), read32, readLE_writeLE_of_disjoint buf (by omega)]
        apply readLE_congr
        intro k _ upper
        unfold ExtSb.pointersPerBlock at below
        exact read k (by omega)
    · rw [if_neg (fun both => isBlock both.1)]
      apply word_of_touches same touches onCard _ below
      exact fun id inBlock inOther => isBlock (inBlock_unique inOther inBlock)

/-! ## The tree of a file -/

/-- The blocks of a file along some paths, with words inside their blocks. -/
structure FileMap (fs : Fs) (root : ℕ → ℕ) (paths : Set (List ℕ)) : Prop where
  tree : Tree root fs.word paths fs.FileBlock
  inside {path : List ℕ} {i : ℕ} : path ++ [i] ∈ paths → path ≠ [] → i < fs.esb.pointersPerBlock

/-- The sectors of the index blocks along some paths. -/
def IndexSector (fs : Fs) (root : ℕ → ℕ) (paths : Set (List ℕ)) (id : ℕ) : Prop :=
  ∃ path i, path ≠ [] ∧ path ++ [i] ∈ paths ∧ fs.esb.InBlock (node root fs.word path) id

/-- A file grows by the paths it did not have: their blocks were free, the blocks of its other
paths are the same, and only the words of these paths and metadata are written. -/
structure Extends (fs : Fs) (root : ℕ → ℕ) (paths : Set (List ℕ)) (fs' : Fs) (root' : ℕ → ℕ)
    (paths' : Set (List ℕ)) : Prop extends
    Evolves (fun id => fs.AllocSector id ∨ fs'.IndexSector root' paths' id) fs fs' where
  itable : fs'.itable = fs.itable
  layout : fs'.BlockLayout
  map : fs'.FileMap root' paths'
  subset : paths ⊆ paths'
  nodes (path : List ℕ) : path ∈ paths → node root' fs'.word path = node root fs.word path
  bits : ∀ g < fs.esb.totalGroups, ∀ i < 8 * fs.esb.sBlksize,
    bit (fs'.blockBits g) i = true ↔ bit (fs.blockBits g) i = true ∨
      i < fs.esb.blocksPerGroup ∧ ∃ path ∈ paths', path ∉ paths ∧
        node root' fs'.word path = g * fs.esb.blocksPerGroup + i
  roots (dp : ℕ) : [dp] ∉ paths' → root' dp = root dp
  words {path : List ℕ} {i : ℕ} : path ∈ paths' → path ++ [i] ∉ paths' →
    i < fs.esb.pointersPerBlock →
      fs'.word (node root' fs'.word path) i = fs.word (node root' fs'.word path) i

variable {root root' root'' : ℕ → ℕ} {paths paths' paths'' : Set (List ℕ)} {mid : Fs}
  {path : List ℕ} {value : ℕ}

/-- A file keeps its blocks when their words stay and their bits stay set. -/
theorem FileMap.mono (map : fs.FileMap root paths) (same : SameLayout fs fs')
    (words : ∀ block, fs.FileBlock block → ∀ i < fs.esb.pointersPerBlock,
      fs'.word block i = fs.word block i)
    (used : ∀ block, fs.Used block → fs'.Used block) :
    fs'.FileMap root paths ∧
      ∀ path ∈ paths, node root fs'.word path = node root fs.word path := by
  have agree : Agree paths root root fs.word fs'.word :=
    ⟨fun _ _ => rfl, fun mem longer => words _ (map.tree.allGood _ mem) _
      (map.inside longer fun empty => map.tree.closed.nonempty (empty ▸ mem))⟩
  refine ⟨⟨map.tree.congr agree fun path mem good => good.mono same (used _), ?_⟩,
    fun path mem => node_congr map.tree.closed agree mem⟩
  intro path i mem nonempty
  rw [same.esb]
  exact map.inside mem nonempty

theorem FileMap.positive (map : fs.FileMap root paths) (mem : path ∈ paths) :
    0 < node root fs.word path :=
  (map.tree.allGood path mem).positive

/-- Blocks of files keep their words when a block is taken. -/
theorem Took.word (took : Took fs fs' group block) (onCard : fs.esb.OnCard other)
    (apart : fs.Apart other) (lt : i < fs.esb.pointersPerBlock) :
    fs'.word other i = fs.word other i :=
  word_of_touches took.same took.touches onCard (fun id inside => apart id inside.metaSector) lt

theorem FileMap.took (map : fs.FileMap root paths) (took : Took fs fs' group block) :
    fs'.FileMap root paths ∧
      (∀ path ∈ paths, node root fs'.word path = node root fs.word path) ∧
      ∀ path ∈ paths, node root fs'.word path ≠ block := by
  rcases map.mono took.same
    (fun other fileBlock i lt => took.word fileBlock.onCard fileBlock.apart lt)
    (fun other used => (took.used other).mpr (Or.inr used)) with ⟨map', nodes⟩
  refine ⟨map', nodes, fun path mem same => took.wasFree ?_⟩
  rw [← same, nodes path mem]
  exact (map.tree.allGood path mem).used

namespace Extends

theorem refl (ready : fs.Ready) (layout : fs.BlockLayout) (map : fs.FileMap root paths) :
    Extends fs root paths fs root paths where
  toEvolves := .refl ready
  itable := rfl
  layout := layout
  map := map
  subset := subset_rfl
  nodes _ _ := rfl
  bits g _ i _ := by
    refine ⟨Or.inl, fun either => either.elim id ?_⟩
    rintro ⟨_, path, mem, notMem, _⟩
    exact absurd mem notMem
  roots _ _ := rfl
  words _ _ _ := rfl

/-- A block that is not one of the file keeps its words. -/
theorem word (extend : Extends fs root paths fs' root' paths') (onCard : fs.esb.OnCard block)
    (apart : fs.Apart block) (other : ∀ path ∈ paths', node root' fs'.word path ≠ block)
    (lt : i < fs.esb.pointersPerBlock) : fs'.word block i = fs.word block i := by
  apply word_of_touches extend.same extend.touches onCard _ lt
  rintro id (alloc | ⟨path, j, nonempty, mem, inside⟩) inBlock
  · exact apart id alloc.metaSector inBlock
  · rw [extend.same.esb] at inside
    exact other path (extend.map.tree.closed.parent mem nonempty) (inBlock_unique inside inBlock)

/-- The blocks in use stay in use. -/
theorem used (extend : Extends fs root paths fs' root' paths') (layout : fs.BlockLayout)
    (used : fs.Used block) : fs'.Used block := by
  have modLt := Nat.mod_lt block layout.perGroup.1
  have room := layout.perGroup.2
  unfold Used
  rw [extend.same.esb]
  exact ⟨used.1, (extend.bits _ used.1 _ (by omega)).mpr (Or.inl used.2)⟩

theorem indexSector (extend : Extends mid root' paths' fs' root'' paths'')
    (closed : Closed paths') {sector : ℕ}
    (inIndex : mid.IndexSector root' paths' sector) :
    fs'.IndexSector root'' paths'' sector := by
  rcases inIndex with ⟨path, i, nonempty, mem, inside⟩
  refine ⟨path, i, nonempty, extend.subset mem, ?_⟩
  rw [extend.nodes path (closed.parent mem nonempty), extend.same.esb]
  exact inside

theorem trans (first : Extends fs root paths mid root' paths')
    (second : Extends mid root' paths' fs' root'' paths'') :
    Extends fs root paths fs' root'' paths'' where
  toEvolves := (first.toEvolves.mono fun _ inside =>
    inside.imp_right (second.indexSector first.map.tree.closed)).trans
      (second.toEvolves.mono fun _ inside => inside.imp_left first.same.allocSector.mp)
  itable := second.itable.trans first.itable
  layout := second.layout
  map := second.map
  subset := first.subset.trans second.subset
  nodes path mem := (second.nodes path (first.subset mem)).trans (first.nodes path mem)
  bits g lt i below := by
    have later := second.bits g (by rw [first.same.esb]; exact lt) i
      (by rw [first.same.esb]; exact below)
    rw [first.same.esb] at later
    rw [later, first.bits g lt i below]
    constructor
    · rintro ((set | ⟨inside, path, mem, notMem, here⟩) | ⟨inside, path, mem, notMem, here⟩)
      · exact Or.inl set
      · exact Or.inr ⟨inside, path, second.subset mem, notMem, (second.nodes path mem).trans here⟩
      · exact Or.inr ⟨inside, path, mem, fun old => notMem (first.subset old), here⟩
    · rintro (set | ⟨inside, path, mem, notMem, here⟩)
      · exact Or.inl (Or.inl set)
      · by_cases between : path ∈ paths'
        · exact Or.inl (Or.inr ⟨inside, path, between, notMem,
            (second.nodes path between).symm.trans here⟩)
        · exact Or.inr ⟨inside, path, mem, between, here⟩
  roots dp notMem :=
    (second.roots dp notMem).trans (first.roots dp fun mem => notMem (second.subset mem))
  words {path i} mem notMem lt := by
    rw [second.words mem notMem (by rw [first.same.esb]; exact lt)]
    by_cases between : path ∈ paths'
    · rw [second.nodes path between]
      exact first.words between (fun old => notMem (second.subset old)) lt
    · have good := second.map.tree.allGood path mem
      have same := first.same.trans second.same
      refine first.word (same.esb ▸ good.onCard) (same.apart.mp good.apart) ?_ lt
      intro other otherMem eq
      rw [← second.nodes other otherMem] at eq
      exact between (second.map.tree.distinct (second.subset otherMem) mem eq ▸ otherMem)

/-- The block of a new path was taken before. -/
theorem of_took (took : Took fs mid group block) (map : fs.FileMap root paths)
    (extend : Extends mid root paths fs' root' paths') (mem : path ∈ paths') (new : path ∉ paths)
    (here : node root' fs'.word path = block) : Extends fs root paths fs' root' paths' where
  toEvolves := (took.toEvolves.mono fun _ => Or.inl).trans
    (extend.toEvolves.mono fun _ inside => inside.imp_left took.same.allocSector.mp)
  itable := extend.itable.trans took.itable
  layout := extend.layout
  map := extend.map
  subset := extend.subset
  nodes other otherMem :=
    (extend.nodes other otherMem).trans ((map.took took).2.1 other otherMem)
  bits g lt i below := by
    have later := extend.bits g (by rw [took.same.esb]; exact lt) i
      (by rw [took.same.esb]; exact below)
    rw [took.same.esb] at later
    rw [later, took.bits g lt i below, or_assoc]
    apply or_congr_right
    constructor
    · rintro (⟨inside, same⟩ | added)
      · exact ⟨inside, path, mem, new, here.trans same.symm⟩
      · exact added
    · exact Or.inr
  roots := extend.roots
  words {path i} otherMem notMem lt := by
    have good := extend.map.tree.allGood path otherMem
    have same := took.same.trans extend.same
    rw [extend.words otherMem notMem (by rw [took.same.esb]; exact lt)]
    exact took.word (same.esb ▸ good.onCard) (same.apart.mp good.apart) lt

/-- A word is set for a new path to a block that was taken. -/
theorem of_wrote (layout : fs.BlockLayout) (map : fs.FileMap root paths) (mem : path ∈ paths)
    (new : path ++ [i] ∉ paths) (wrote : Wrote fs fs' (node root fs.word path) i value)
    (isBlock : fs.FileBlock value) (fresh : ∀ other ∈ paths, node root fs.word other ≠ value)
    (lt : i < fs.esb.pointersPerBlock) :
    Extends fs root paths fs' root (insert (path ++ [i]) paths) ∧
      node root fs'.word (path ++ [i]) = value := by
  have nonempty : path ≠ [] := fun empty => map.tree.closed.nonempty (empty ▸ mem)
  have parentOnCard := (map.tree.allGood path mem).onCard
  have agree : Agree paths root root fs.word fs'.word := by
    refine ⟨fun _ _ => rfl, fun {other j} otherMem longer => ?_⟩
    have otherNe : other ≠ [] := fun empty => map.tree.closed.nonempty (empty ▸ otherMem)
    rw [wrote.word _ (map.tree.allGood other otherMem).onCard j (map.inside longer otherNe), if_neg]
    rintro ⟨same, rfl⟩
    rw [map.tree.distinct otherMem mem same] at longer
    exact new longer
  have nodes : ∀ other ∈ paths, node root fs'.word other = node root fs.word other :=
    fun other otherMem => node_congr map.tree.closed agree otherMem
  have here : node root fs'.word (path ++ [i]) = value := by
    rw [node_concat nonempty, nodes path mem, wrote.word _ parentOnCard i lt, if_pos ⟨rfl, rfl⟩]
  have tree := map.tree.congr agree fun other otherMem good =>
    FileBlock.mono good wrote.same (wrote.used layout _).mpr
  have tree' : Tree root fs'.word (insert (path ++ [i]) paths) fs'.FileBlock := by
    apply tree.insert (by simp)
    · intro front last eq frontNe
      rw [(List.append_inj' eq rfl).1] at mem
      exact mem
    · intro other otherMem
      rw [nodes other otherMem, here]
      exact fresh other otherMem
    · rw [here]
      exact isBlock.mono wrote.same (wrote.used layout _).mpr
  refine ⟨
    { toEvolves := wrote.toEvolves.mono fun sector inside => Or.inr ⟨path, i, nonempty,
        Set.mem_insert _ _, by rw [nodes path mem, wrote.same.esb]; exact inside⟩
      itable := wrote.itable
      layout := layout.congr wrote.same wrote.bitmaps
      map := ⟨tree', ?_⟩
      subset := Set.subset_insert _ _
      nodes := nodes
      bits := ?_
      roots := fun _ _ => rfl
      words := ?_ }, here⟩
  · rw [wrote.same.esb]
    rintro front last (eq | old) frontNe
    · rw [List.append_singleton_inj.mp eq |>.2]
      exact lt
    · exact map.inside old frontNe
  · intro g gLt k below
    rw [bit_congr (wrote.bitmaps g gLt _ (by omega))]
    constructor
    · exact Or.inl
    · rintro (set | ⟨inside, other, otherMem, notMem, same⟩)
      · exact set
      · rcases otherMem with rfl | old
        · rw [here] at same
          have used := isBlock.used.2
          rw [same] at used
          rcases fs.location_block g inside with ⟨groupOf, indexOf⟩
          rwa [groupOf, indexOf] at used
        · exact absurd old notMem
  · intro other j otherMem notMem below
    have onCard := (tree'.allGood other otherMem).onCard
    rw [wrote.same.esb] at onCard
    rw [wrote.word _ onCard j below, if_neg]
    rintro ⟨same, rfl⟩
    rw [← nodes path mem] at same
    rw [tree'.distinct otherMem (Set.mem_insert_of_mem _ mem) same] at notMem
    exact notMem (Set.mem_insert _ _)

/-- The pointer of a new path is set to a block that was taken. -/
theorem of_root {dp : ℕ} (ready : fs.Ready) (layout : fs.BlockLayout) (map : fs.FileMap root paths)
    (new : [dp] ∉ paths) (isBlock : fs.FileBlock value)
    (fresh : ∀ other ∈ paths, node root fs.word other ≠ value) :
    Extends fs root paths fs (Function.update root dp value) (insert [dp] paths) := by
  have agree : Agree paths root (Function.update root dp value) fs.word fs.word := by
    refine ⟨fun i mem => Function.update_of_ne ?_ _ _, fun _ _ => rfl⟩
    rintro rfl
    exact new mem
  have nodes : ∀ other ∈ paths, node (Function.update root dp value) fs.word other =
      node root fs.word other := fun other mem => node_congr map.tree.closed agree mem
  have here : node (Function.update root dp value) fs.word [dp] = value := by
    rw [node_singleton, Function.update_self]
  have tree : Tree (Function.update root dp value) fs.word (insert [dp] paths) fs.FileBlock := by
    apply (map.tree.congr agree fun _ _ good => good).insert (by simp)
    · intro front last eq frontNe
      exact absurd (List.append_eq_singleton_iff.mp eq.symm) (by simp [frontNe])
    · intro other mem
      rw [nodes other mem, here]
      exact fresh other mem
    · rw [here]
      exact isBlock
  refine
    { toEvolves := .refl ready
      itable := rfl
      layout := layout
      map := ⟨tree, ?_⟩
      subset := Set.subset_insert _ _
      nodes := nodes
      bits := ?_
      roots := ?_
      words := fun _ _ _ => rfl }
  · rintro front last (eq | old) frontNe
    · exact absurd (List.append_eq_singleton_iff.mp eq) (by simp [frontNe])
    · exact map.inside old frontNe
  · intro g gLt k below
    constructor
    · exact Or.inl
    · rintro (set | ⟨inside, other, otherMem, notMem, same⟩)
      · exact set
      · rcases otherMem with rfl | old
        · rw [here] at same
          have used := isBlock.used.2
          rw [same] at used
          rcases fs.location_block g inside with ⟨groupOf, indexOf⟩
          rwa [groupOf, indexOf] at used
        · exact absurd old notMem
  · intro other notMem
    refine Function.update_of_ne ?_ _ _
    rintro rfl
    exact notMem (Set.mem_insert _ _)

/-- Reading changes nothing. -/
theorem of_reads (ready : fs.Ready) (layout : fs.BlockLayout) (map : fs.FileMap root paths)
    (reads : Reads fs fs') : Extends fs root paths fs' root paths := by
  rcases reads with ⟨transfers, rfl⟩
  have same : SameLayout fs { fs with disk := { fs.disk with transfers } } :=
    ⟨rfl, fun _ => rfl, fun _ => rfl, fun _ => rfl⟩
  exact
    { ready := ⟨same.layout ready.layout, ready.reliable, ready.clean, ready.cached⟩
      same := same
      touches := .read transfers
      inodes := fun _ _ _ _ => rfl
      balanced := .of_same same (fun _ _ _ _ => rfl) (fun _ _ => rfl) rfl
      itable := rfl
      layout := layout.congr same fun _ _ _ _ => rfl
      map := (map.mono same (fun _ _ _ _ => rfl) fun _ used => used).1
      subset := subset_rfl
      nodes := fun _ _ => rfl
      bits := (refl ready layout map).bits
      roots := fun _ _ => rfl
      words := fun _ _ _ => rfl }

end Extends

end Blocks

end Fs

end Ninix.Ext2
