import Mathlib.Algebra.Order.BigOperators.Group.Finset
import Ninix.Ext2.Metadata
import Ninix.Library.Reachability
import Ninix.Vfs.Name

/-!
# Allocating and releasing inodes

`apply_inode` takes the first zero bit in the bitmap of the first group that has a free inode,
and `retake_inode` clears the bit of an inode again. Both keep three counts: the zero bits of
each bitmap on the card, the number of free inodes in each descriptor, and their sum in the
superblock. The write of the inode itself goes through `load_bitmap` once more, and finds the
group loaded.
-/

namespace Ninix.Ext2

open ByteBuffer Bitmap TransitionSystem Vfs

/-- The first byte that is not full, among the bytes of a block. -/
def findByte (bitmap : Bytes) (size : ℕ) : Option ℕ :=
  (List.range size).find? fun byte => bitmap byte ≠ 0xff

/-- The first zero bit of a byte, or 8. -/
def findBit (data : UInt8) : ℕ :=
  ((List.range 8).find? fun bit => (data.toNat >>> bit) % 2 = 0).getD 8

namespace Fs

/-- The first group with a free inode, or the number of groups. -/
def findGroup (fs : Fs) : ℕ :=
  ((List.range fs.esb.totalGroups).find? fun group => 0 < fs.unallocInodes group).getD
    fs.esb.totalGroups

/-- Count a directory in or out of a group. -/
def addDirs (dpttable : Bytes) (group amount : ℕ) : LastType → Bytes
  | .dir => setDptField dpttable group 16 2 (dptField dpttable group 16 2 + amount)
  | .norm => dpttable

/-- The changes `apply_inode` makes to the superblock, the descriptor and the bitmap. -/
def takeInode (fs : Fs) (group index : ℕ) (type : LastType) : Fs :=
  { fs with
    totalUnallocInodes := sub32 fs.totalUnallocInodes 1
    dpttable := addDirs
      (setDptField fs.dpttable group 14 2 (fs.unallocInodes group + 65535)) group 1 type
    bitmap := { fs.bitmap with inodebit := setBit fs.bitmap.inodebit index, dirty := true } }

/-- The changes `retake_inode` makes. -/
def giveInode (fs : Fs) (group index : ℕ) (type : LastType) : Fs :=
  { fs with
    totalUnallocInodes := u32 (fs.totalUnallocInodes + 1)
    dpttable := addDirs
      (setDptField fs.dpttable group 14 2 (fs.unallocInodes group + 1)) group 65535 type
    bitmap := { fs.bitmap with inodebit := clearBit fs.bitmap.inodebit index, dirty := true } }

/-- The inode `apply_inode` writes: type and permission, times, group, size and count. -/
def newXinode (fs : Fs) (group : ℕ) (type : LastType) : Bytes :=
  let xinode := writeLE zeros 0 2 (match type with
    | .dir => 0x4000 ||| 0x1ed
    | .norm => 0x8000 ||| 0x1a4)
  let xinode := writeLE xinode 24 2 group
  let xinode := write32 xinode 8 0x5c248d99
  let xinode := write32 xinode 12 0x5c248d99
  let xinode := write32 xinode 16 0x5c248d99
  let xinode := write32 xinode 4 (match type with
    | .dir => fs.esb.sBlksize
    | .norm => 0)
  writeLE xinode 26 2 (match type with
    | .dir => 2
    | .norm => 1)

/-- `apply_inode`: its code, what `*ino` is set to (0 where it is not set) and the volume. `none`
is a bitmap without a byte to take, for which the code goes on with a variable it never set. -/
def applyInode (fs : Fs) (type : LastType) : Option (ℕ × ℕ × Fs) :=
  if fs.totalUnallocInodes = 0 then some (1, 0, fs)
  else
    let group := fs.findGroup
    let (err, fs) := fs.loadBitmap group
    if err ≠ 0 then some (err, 0, fs)
    else
      (findByte fs.bitmap.inodebit fs.esb.sBlksize).map fun byte =>
        let bit := findBit (fs.bitmap.inodebit byte)
        let ino := u32 (group * fs.esb.inodesPerGroup + byte * 8 + bit + 1)
        let fs := fs.takeInode group (byte * 8 + bit) type
        let (err, fs) := andThen (fs.writeXinode ino (fs.newXinode group type)) fun fs =>
          fs.saveAll group
        (err, ino, fs)

/-- `retake_inode` -/
def retakeInode (fs : Fs) (ino : ℕ) (type : LastType) : ℕ × Fs :=
  let group := fs.inodeGroup ino
  let index := fs.inodeIndex ino
  andThen (fs.loadBitmap group) fun fs =>
    if checkIorb fs.bitmap.inodebit index = 0 then (1, fs)
    else
      andThen (fs.writeXinode ino zeros) fun fs => (fs.giveInode group index type).saveAll group

end Fs

/-! ## Descriptors -/

section Descriptors

variable {dpttable : Bytes} {group other offset width offset' width' value : ℕ}

theorem dptField_setDptField :
    dptField (setDptField dpttable group offset width value) group offset width =
      value % 256 ^ width :=
  readLE_writeLE_same _ _ _ _

/-- Setting a field leaves the other fields and the other descriptors alone. -/
theorem dptField_setDptField_ne (fits : offset + width ≤ descriptorEntryLen)
    (fits' : offset' + width' ≤ descriptorEntryLen)
    (apart : other ≠ group ∨ offset' + width' ≤ offset ∨ offset + width ≤ offset') :
    dptField (setDptField dpttable group offset width value) other offset' width' =
      dptField dpttable other offset' width' := by
  apply readLE_writeLE_of_disjoint
  unfold descriptorEntryLen at *
  omega

/-- Counting a directory changes no other field. -/
theorem dptField_addDirs (type : LastType) {amount : ℕ}
    (fits' : offset' + width' ≤ descriptorEntryLen)
    (apart : offset' + width' ≤ 16 ∨ 18 ≤ offset') :
    dptField (Fs.addDirs dpttable group amount type) other offset' width' =
      dptField dpttable other offset' width' := by
  cases type with
  | norm => rfl
  | dir => exact dptField_setDptField_ne (by decide) fits' (Or.inr apart)

end Descriptors

/-- The first byte with a zero bit and its first zero bit. -/
theorem findByte_findBit {buf : Bytes} {size i : ℕ} (lt : i < 8 * size) (zero : bit buf i = false) :
    ∃ byte, findByte buf size = some byte ∧ byte < size ∧ findBit (buf byte) < 8 ∧
      bit buf (byte * 8 + findBit (buf byte)) = false := by
  have someByte : (findByte buf size).isSome := by
    rw [findByte, List.find?_isSome]
    refine ⟨i / 8, List.mem_range.mpr (by omega), ?_⟩
    simp only [ne_eq, decide_not, Bool.not_eq_eq_eq_not, Bool.not_true, decide_eq_false_iff_not]
    intro full
    have set := byte_full.mp full (i % 8) (Nat.mod_lt _ (by decide))
    unfold bit at zero
    rw [zero] at set
    exact absurd set (by decide)
  rcases Option.isSome_iff_exists.mp someByte with ⟨byte, found⟩
  have inRange := List.mem_range.mp (List.mem_of_find?_eq_some found)
  have notFull : buf byte ≠ 0xff := by simpa using List.find?_some found
  have notAll := fun all => notFull (byte_full.mpr all)
  have someBit : ((List.range 8).find? fun k => ((buf byte).toNat >>> k) % 2 = 0).isSome := by
    rw [List.find?_isSome]
    by_contra none
    apply notAll
    intro k lt
    rw [Nat.testBit_eq_decide_div_mod_eq, decide_eq_true_eq]
    by_contra notOne
    apply none
    refine ⟨k, List.mem_range.mpr lt, decide_eq_true ?_⟩
    rw [Nat.shiftRight_eq_div_pow]
    omega
  rcases Option.isSome_iff_exists.mp someBit with ⟨k, foundBit⟩
  have isBit : findBit (buf byte) = k := by rw [findBit, foundBit, Option.getD_some]
  have small := List.mem_range.mp (List.mem_of_find?_eq_some foundBit)
  refine ⟨byte, found, inRange, by omega, ?_⟩
  have isZero : (buf byte).toNat >>> k % 2 = 0 := by simpa using List.find?_some foundBit
  rw [isBit, bit, show (byte * 8 + k) / 8 = byte by omega, show (byte * 8 + k) % 8 = k by omega,
    Nat.testBit_eq_decide_div_mod_eq, decide_eq_false_iff_not, ← Nat.shiftRight_eq_div_pow]
  omega

/-! ## Consistent images -/

namespace Fs

/-- The inode bitmap of a group on the card. -/
def inodeBits (fs : Fs) (group : ℕ) : Bytes :=
  fs.esb.blockBytes fs.disk (fs.inodeBitmapBase group)

/-- The three counts agree: the zero bits of each bitmap, the number in its descriptor, and the
sum of these. -/
structure Counted (fs : Fs) : Prop where
  counts : ∀ group < fs.esb.totalGroups,
    fs.unallocInodes group = zeroBits (fs.inodeBits group) fs.esb.inodesPerGroup
  padding : ∀ group < fs.esb.totalGroups, ∀ i, fs.esb.inodesPerGroup ≤ i →
    i < 8 * fs.esb.sBlksize → bit (fs.inodeBits group) i = true
  total : fs.totalUnallocInodes = ∑ group ∈ Finset.range fs.esb.totalGroups, fs.unallocInodes group

/-- A consistent volume between two calls. -/
structure Consistent (fs : Fs) : Prop extends fs.Ready, fs.Counted

/-- The numbers of inodes begin with 1. -/
def IsInode (fs : Fs) (ino : ℕ) : Prop :=
  1 ≤ ino ∧ ino ≤ fs.esb.totalGroups * fs.esb.inodesPerGroup

instance (fs : Fs) (ino : ℕ) : Decidable (fs.IsInode ino) := inferInstanceAs (Decidable (_ ∧ _))

/-- The bit of an inode is set. -/
def Allocated (fs : Fs) (ino : ℕ) : Prop :=
  bit (fs.inodeBits (fs.inodeGroup ino)) (fs.inodeIndex ino) = true

/-- The geometry of the volume is the same. -/
structure SameLayout (fs fs' : Fs) : Prop where
  esb : fs'.esb = fs.esb
  blockBitmapBase : ∀ group, fs'.blockBitmapBase group = fs.blockBitmapBase group
  inodeBitmapBase : ∀ group, fs'.inodeBitmapBase group = fs.inodeBitmapBase group
  inodeTableBase : ∀ group, fs'.inodeTableBase group = fs.inodeTableBase group

/-- The numbers of free inodes and the bitmaps differ in one bit only, which has the given
value after the step. -/
structure BitChanged (fs fs' : Fs) (group index : ℕ) (value : Bool) : Prop where
  same : SameLayout fs fs'
  bits : ∀ other < fs.esb.totalGroups, ∀ i < 8 * fs.esb.sBlksize,
    bit (fs'.inodeBits other) i =
      if other = group ∧ i = index then value else bit (fs.inodeBits other) i
  others : ∀ other, other ≠ group → fs'.unallocInodes other = fs.unallocInodes other

section Images

variable {fs fs' : Fs} {group index : ℕ}

theorem SameLayout.inItable (same : SameLayout fs fs') (group block : ℕ) :
    fs'.InItable group block ↔ fs.InItable group block := by
  simp only [InItable, same.esb, same.inodeTableBase]

theorem SameLayout.layout (same : SameLayout fs fs') (layout : fs.Layout) : fs'.Layout := by
  refine
    { valid := same.esb ▸ layout.valid
      inodeSize := same.esb ▸ layout.inodeSize
      inodes := same.esb ▸ layout.inodes
      total := same.esb ▸ layout.total
      onCard := ?_
      blocksApart := ?_
      inodesApart := ?_
      bitmapsApart := ?_
      tablesApart := ?_
      recordsApart := ?_ }
  all_goals
    simp only [same.esb, same.blockBitmapBase, same.inodeBitmapBase, same.inItable]
  · exact layout.onCard
  · exact layout.blocksApart
  · exact layout.inodesApart
  · exact layout.bitmapsApart
  · exact layout.tablesApart
  · exact layout.recordsApart

/-- Inodes are numbered through the groups. -/
theorem location_ino (lt : group < fs.esb.totalGroups) (inside : index < fs.esb.inodesPerGroup)
    (total : fs.esb.totalGroups * fs.esb.inodesPerGroup < 4294967296) :
    let ino := group * fs.esb.inodesPerGroup + index + 1
    u32 ino = ino ∧ fs.IsInode ino ∧ fs.inodeGroup ino = group ∧ fs.inodeIndex ino = index := by
  have below : (group + 1) * fs.esb.inodesPerGroup ≤
      fs.esb.totalGroups * fs.esb.inodesPerGroup := Nat.mul_le_mul_right _ lt
  rw [Nat.add_mul, Nat.one_mul] at below
  have sub : sub32 (group * fs.esb.inodesPerGroup + index + 1) 1 =
      index + fs.esb.inodesPerGroup * group := by
    rw [sub32_of_le (by omega) (by omega), Nat.add_sub_cancel, Nat.mul_comm, Nat.add_comm]
  refine ⟨u32_of_lt (by omega), ⟨by omega, by omega⟩, ?_, ?_⟩
  · rw [inodeGroup, sub, Nat.add_mul_div_left _ _ (by omega), Nat.div_eq_of_lt inside,
      Nat.zero_add]
  · rw [inodeIndex, sub, Nat.add_mul_mod_self_left, Nat.mod_eq_of_lt inside]

/-- The group and the place of an inode. -/
theorem location (layout : fs.Layout) {ino : ℕ} (isInode : fs.IsInode ino) :
    fs.inodeGroup ino < fs.esb.totalGroups ∧ fs.inodeIndex ino < fs.esb.inodesPerGroup ∧
      ino = fs.inodeGroup ino * fs.esb.inodesPerGroup + fs.inodeIndex ino + 1 := by
  have total := layout.total
  rcases isInode with ⟨lower, upper⟩
  have sub : sub32 ino 1 = ino - 1 := sub32_of_le lower (by omega)
  have positive : 0 < fs.esb.inodesPerGroup := by
    rcases Nat.eq_zero_or_pos fs.esb.inodesPerGroup with zero | positive
    · rw [zero] at upper
      omega
    · exact positive
  have whole := Nat.div_add_mod (ino - 1) fs.esb.inodesPerGroup
  rw [Nat.mul_comm] at whole
  refine ⟨?_, Nat.mod_lt _ positive, ?_⟩
  · rw [inodeGroup, sub, Nat.div_lt_iff_lt_mul positive]
    omega
  · rw [inodeGroup, inodeIndex, sub]
    omega

/-- The other inodes stay as they are. -/
theorem BitChanged.allocated_iff (layout : fs.Layout) {value : Bool} {ino other : ℕ}
    (isInode : fs.IsInode ino) (isOther : fs.IsInode other)
    (changed : BitChanged fs fs' (fs.inodeGroup ino) (fs.inodeIndex ino) value) :
    fs'.Allocated other ↔ if other = ino then value = true else fs.Allocated other := by
  rcases location layout isInode with ⟨_, _, number⟩
  rcases location layout isOther with ⟨lt, inside, otherNumber⟩
  have room := layout.inodes.1
  have groupEq : fs'.inodeGroup other = fs.inodeGroup other := by
    rw [inodeGroup, changed.same.esb, inodeGroup]
  have indexEq : fs'.inodeIndex other = fs.inodeIndex other := by
    rw [inodeIndex, changed.same.esb, inodeIndex]
  unfold Allocated
  rw [groupEq, indexEq, changed.bits _ lt _ (lt_of_lt_of_le inside room)]
  by_cases same : other = ino
  · simp [same]
  · rw [if_neg, if_neg same]
    rintro ⟨sameGroup, sameIndex⟩
    rw [sameGroup, sameIndex] at otherNumber
    exact same (otherNumber.trans number.symm)

/-- A bit below the padding changes: the bitmaps stay padded. -/
theorem BitChanged.padding {value : Bool} (changed : BitChanged fs fs' group index value)
    (inside : index < fs.esb.inodesPerGroup) (counted : fs.Counted) :
    ∀ other < fs'.esb.totalGroups, ∀ i, fs'.esb.inodesPerGroup ≤ i →
      i < 8 * fs'.esb.sBlksize → bit (fs'.inodeBits other) i = true := by
  rw [changed.same.esb]
  intro other lt i behind below
  rw [changed.bits other lt i below, if_neg (by omega)]
  exact counted.padding other lt i behind below

/-- The zero bits of the other groups. -/
theorem BitChanged.zeroBits_other {value : Bool} (layout : fs.Layout)
    (changed : BitChanged fs fs' group index value) {other : ℕ}
    (lt : other < fs.esb.totalGroups) (ne : other ≠ group) :
    zeroBits (fs'.inodeBits other) fs.esb.inodesPerGroup =
      zeroBits (fs.inodeBits other) fs.esb.inodesPerGroup := by
  have room := layout.inodes.1
  apply zeroBits_congr
  intro i below
  rw [changed.bits other lt i (by omega), if_neg (by omega)]

/-- A free inode was taken. -/
theorem BitChanged.counted_take (layout : fs.Layout) (counted : fs.Counted)
    (changed : BitChanged fs fs' group index true) (lt : group < fs.esb.totalGroups)
    (inside : index < fs.esb.inodesPerGroup) (free : bit (fs.inodeBits group) index = false)
    (count : fs'.unallocInodes group = (fs.unallocInodes group + 65535) % 65536)
    (total : fs'.totalUnallocInodes = sub32 fs.totalUnallocInodes 1)
    (small : fs.totalUnallocInodes < 4294967296) : fs'.Counted := by
  have room := layout.inodes.1
  have bound := layout.inodes.2
  have le := @zeroBits_le (fs.inodeBits group) fs.esb.inodesPerGroup
  have taken : zeroBits (fs.inodeBits group) fs.esb.inodesPerGroup =
      zeroBits (fs'.inodeBits group) fs.esb.inodesPerGroup + 1 := by
    rw [zeroBits_setBit inside free]
    congr 1
    apply zeroBits_congr
    intro i below
    rw [changed.bits group lt i (by omega), bit_setBit]
    by_cases here : i = index <;> simp [here]
  have before := counted.counts group lt
  have here : fs.unallocInodes group = fs'.unallocInodes group + 1 := by omega
  refine ⟨?_, changed.padding inside counted, ?_⟩
  · rw [changed.same.esb]
    intro other otherLt
    by_cases isGroup : other = group
    · subst isGroup
      omega
    · rw [changed.others other isGroup, changed.zeroBits_other layout otherLt isGroup]
      exact counted.counts other otherLt
  · have sum := Counting.sum_except lt here fun other _ ne => (changed.others other ne).symm
    have sumTotal := counted.total
    rw [sum] at sumTotal
    rw [total, changed.same.esb, sub32_of_le (by omega) small]
    omega

/-- An inode was given back. -/
theorem BitChanged.counted_give (layout : fs.Layout) (counted : fs.Counted)
    (changed : BitChanged fs fs' group index false) (lt : group < fs.esb.totalGroups)
    (inside : index < fs.esb.inodesPerGroup) (used : bit (fs.inodeBits group) index = true)
    (count : fs'.unallocInodes group = (fs.unallocInodes group + 1) % 65536)
    (total : fs'.totalUnallocInodes = u32 (fs.totalUnallocInodes + 1))
    (small : fs.totalUnallocInodes + 1 < 4294967296) : fs'.Counted := by
  have room := layout.inodes.1
  have bound := layout.inodes.2
  have le := @zeroBits_le (fs'.inodeBits group) fs.esb.inodesPerGroup
  have given : zeroBits (fs'.inodeBits group) fs.esb.inodesPerGroup =
      zeroBits (fs.inodeBits group) fs.esb.inodesPerGroup + 1 := by
    rw [← zeroBits_clearBit inside used]
    apply zeroBits_congr
    intro i below
    rw [changed.bits group lt i (by omega), bit_clearBit]
    by_cases here : i = index <;> simp [here]
  have before := counted.counts group lt
  have here : fs'.unallocInodes group = fs.unallocInodes group + 1 := by omega
  refine ⟨?_, changed.padding inside counted, ?_⟩
  · rw [changed.same.esb]
    intro other otherLt
    by_cases isGroup : other = group
    · subst isGroup
      omega
    · rw [changed.others other isGroup, changed.zeroBits_other layout otherLt isGroup]
      exact counted.counts other otherLt
  · have sum := Counting.sum_except lt here fun other _ ne => changed.others other ne
    have sumTotal := counted.total
    rw [total, changed.same.esb, u32_of_lt small]
    omega

/-- The sum of the counts is at most the number of inodes, and less while an inode is in use. -/
theorem Counted.total_le (counted : fs.Counted) :
    fs.totalUnallocInodes ≤ fs.esb.totalGroups * fs.esb.inodesPerGroup ∧
      ∀ group < fs.esb.totalGroups, ∀ index < fs.esb.inodesPerGroup,
        bit (fs.inodeBits group) index = true →
          fs.totalUnallocInodes < fs.esb.totalGroups * fs.esb.inodesPerGroup := by
  have bound : ∀ group ∈ Finset.range fs.esb.totalGroups,
      fs.unallocInodes group ≤ fs.esb.inodesPerGroup := by
    intro group mem
    rw [counted.counts group (Finset.mem_range.mp mem)]
    exact zeroBits_le
  have all : ∑ _group ∈ Finset.range fs.esb.totalGroups, fs.esb.inodesPerGroup =
      fs.esb.totalGroups * fs.esb.inodesPerGroup := by simp
  rw [counted.total, ← all]
  refine ⟨Finset.sum_le_sum bound, fun group lt index inside used => ?_⟩
  apply Finset.sum_lt_sum bound
  refine ⟨group, Finset.mem_range.mpr lt, ?_⟩
  have cleared := @zeroBits_le (clearBit (fs.inodeBits group) index) fs.esb.inodesPerGroup
  rw [zeroBits_clearBit inside used] at cleared
  rw [counted.counts group lt]
  omega

/-- While the sum is positive, a group with a free inode is found. -/
theorem Counted.findGroup (counted : fs.Counted) (some : fs.totalUnallocInodes ≠ 0) :
    fs.findGroup < fs.esb.totalGroups ∧ 0 < fs.unallocInodes fs.findGroup := by
  have isSome : ((List.range fs.esb.totalGroups).find? fun group =>
      0 < fs.unallocInodes group).isSome := by
    rw [List.find?_isSome]
    by_contra none
    apply some
    rw [counted.total]
    apply Finset.sum_eq_zero
    intro group mem
    by_contra positive
    exact none ⟨group, List.mem_range.mpr (Finset.mem_range.mp mem),
      decide_eq_true (Nat.pos_of_ne_zero positive)⟩
  rcases Option.isSome_iff_exists.mp isSome with ⟨group, found⟩
  have isGroup : fs.findGroup = group := by rw [Fs.findGroup, found, Option.getD_some]
  rw [isGroup]
  exact ⟨List.mem_range.mp (List.mem_of_find?_eq_some found), by simpa using List.find?_some found⟩

end Images

/-! ## The two calls -/

section Calls

variable {fs f : Fs} {group index : ℕ}

/-- Only the tables of groups differ in what the two calls change. -/
theorem sameLayout_of_dpttable {value amount : ℕ} {type : LastType} (esb : f.esb = fs.esb)
    (table : f.dpttable =
      addDirs (setDptField fs.dpttable group 14 2 value) group amount type) :
    SameLayout fs f ∧ f.unallocInodes group = value % 65536 ∧
      ∀ other, other ≠ group → f.unallocInodes other = fs.unallocInodes other := by
  have kept : ∀ other offset width, offset + width ≤ 12 →
      dptField f.dpttable other offset width = dptField fs.dpttable other offset width := by
    intro other offset width below
    have fits : offset + width ≤ descriptorEntryLen := below.trans (by decide)
    rw [table, dptField_addDirs type fits (Or.inl (by omega)),
      dptField_setDptField_ne (by decide) fits (Or.inr (Or.inl (by omega)))]
  refine ⟨⟨esb, fun other => kept other 0 4 (by decide), fun other => kept other 4 4 (by decide),
    fun other => kept other 8 4 (by decide)⟩, ?_, fun other ne => ?_⟩
  · rw [unallocInodes, table, dptField_addDirs type (by decide) (Or.inl (by decide)),
      dptField_setDptField]
    rfl
  · rw [unallocInodes, table, dptField_addDirs type (by decide) (Or.inl (by decide)),
      dptField_setDptField_ne (by decide) (by decide) (Or.inl ne), unallocInodes]

/-- What both calls end with: the changed bitmap is put on the card. -/
theorem saveChanged (ready : fs.Ready) (same : SameLayout fs f) (reliable : f.disk.Reliable)
    (lt : group < fs.esb.totalGroups) {value : Bool}
    (kept : ∀ other < fs.esb.totalGroups, fs.SameBitmaps fs.disk f.disk other)
    (bg : f.bitmap.bg = group) (dirty : f.bitmap.dirty = true) (clean : f.itable.dirty = false)
    (bits : ∀ i < 8 * fs.esb.sBlksize, bit f.bitmap.inodebit i =
      if i = index then value else bit (fs.inodeBits group) i)
    (others : ∀ other, other ≠ group → f.unallocInodes other = fs.unallocInodes other) :
    ∃ fs', f.saveAll group = (0, fs') ∧ fs'.Ready ∧ BitChanged fs fs' group index value ∧
      fs'.unallocInodes group = f.unallocInodes group ∧
      fs'.totalUnallocInodes = f.totalUnallocInodes := by
  subst bg
  have layout := same.layout ready.layout
  have ltNow : f.bitmap.bg < f.esb.totalGroups := by
    rw [same.esb]
    exact lt
  rcases saveAll_spec layout reliable dirty ltNow with ⟨disk', sbBuf, saved, touches, holds, apart⟩
  have sameEnd : SameLayout fs { f with
      disk := disk', sbBuf, bitmap := { f.bitmap with dirty := false } } :=
    ⟨same.esb, same.blockBitmapBase, same.inodeBitmapBase, same.inodeTableBase⟩
  refine ⟨_, saved, ⟨sameEnd.layout ready.layout, touches.reliable reliable, ⟨rfl, clean⟩,
    Or.inr ⟨ltNow, holds⟩⟩, ⟨sameEnd, ?_, others⟩, rfl, rfl⟩
  · intro other otherLt i below
    have byte : i / 8 < f.esb.sBlksize := by
      rw [same.esb]
      omega
    by_cases isGroup : other = f.bitmap.bg
    · subst isGroup
      have written : bit (f.esb.blockBytes disk' (f.inodeBitmapBase f.bitmap.bg)) i =
          bit f.bitmap.inodebit i := bit_congr ((holds _ byte).2.symm)
      refine (written.trans (bits i below)).trans ?_
      by_cases here : i = index <;> simp [here]
    · rw [if_neg (by omega)]
      have untouched := (apart other (by rw [same.esb]; exact otherLt) isGroup _ byte).2
      have sameByte : f.esb.blockBytes disk' (f.inodeBitmapBase other) (i / 8) =
          fs.esb.blockBytes fs.disk (fs.inodeBitmapBase other) (i / 8) := by
        rw [untouched, same.esb, same.inodeBitmapBase]
        exact (kept other otherLt _ (by omega)).2
      exact bit_congr sameByte

/-- The bits of a loaded bitmap are those on the card. -/
theorem Holds.bit_eq {bitmap : BitmapCache} (holds : fs.Holds fs.disk bitmap group) {i : ℕ}
    (below : i < 8 * fs.esb.sBlksize) :
    bit bitmap.inodebit i = bit (fs.inodeBits group) i :=
  bit_congr (holds _ (by omega)).2

/-- `write_xinode` of an inode of the loaded group, on a card that is as before. -/
theorem writeXinode_kept (ready : fs.Ready) (same : SameLayout fs f)
    (unwritten : Touches (fun _ => False) fs.disk f.disk)
    (clean : f.itable.dirty = false) {ino : ℕ} (isInode : fs.IsInode ino)
    (bg : f.bitmap.bg = fs.inodeGroup ino)
    (marked : bit f.bitmap.inodebit (fs.inodeIndex ino) = true) (xinode : Bytes) :
    ∃ itable disk', f.writeXinode ino xinode = (0, { f with itable, disk := disk' }) ∧
      itable.dirty = false ∧ disk'.Reliable ∧
      ∀ other < fs.esb.totalGroups, fs.SameBitmaps fs.disk disk' other := by
  rcases location ready.layout isInode with ⟨lt, inside, _⟩
  have groupEq : f.inodeGroup ino = fs.inodeGroup ino := by rw [inodeGroup, same.esb, inodeGroup]
  have indexEq : f.inodeIndex ino = fs.inodeIndex ino := by rw [inodeIndex, same.esb, inodeIndex]
  have reliable : f.disk.Reliable := unwritten.reliable ready.reliable
  rcases writeXinode_spec (same.layout ready.layout) reliable clean (groupEq ▸ bg)
    (by rw [groupEq, same.esb]; exact lt) (by rw [same.esb]; omega) (by rw [indexEq]; exact marked)
    xinode with ⟨itable, disk', wrote, itableClean, touches⟩
  refine ⟨itable, disk', wrote, itableClean, touches.reliable reliable, fun other otherLt => ?_⟩
  apply sameBitmaps_of_itable ready.layout otherLt lt
  refine (unwritten.mono fun _ => False.elim).trans (touches.mono fun id inside => ?_)
  simpa only [same.inItable, same.esb, groupEq] using inside

/-- `apply_inode` takes an inode that was free. -/
theorem applyInode_spec (consistent : fs.Consistent) (some : fs.totalUnallocInodes ≠ 0)
    (type : LastType) :
    ∃ ino fs', fs.applyInode type = .some (0, ino, fs') ∧ fs.IsInode ino ∧ ¬fs.Allocated ino ∧
      BitChanged fs fs' (fs.inodeGroup ino) (fs.inodeIndex ino) true ∧ fs'.Consistent := by
  have ready := consistent.toReady
  have layout := ready.layout
  have counted := consistent.toCounted
  rcases counted.findGroup some with ⟨lt, positive⟩
  rcases loadBitmap_spec ready lt with ⟨bitmap, transfers, loads, bg, clean, holds⟩
  -- the bit that is taken
  rw [counted.counts _ lt, zeroBits_pos] at positive
  rcases positive with ⟨spare, spareLt, isZero⟩
  have room := layout.inodes.1
  rw [← holds.bit_eq (by omega)] at isZero
  rcases findByte_findBit (show spare < 8 * fs.esb.sBlksize by omega) isZero with
    ⟨byte, found, byteLt, bitLt, isFree⟩
  generalize indexEq : byte * 8 + findBit (bitmap.inodebit byte) = index at isFree
  have below : index < 8 * fs.esb.sBlksize := by omega
  rw [holds.bit_eq below] at isFree
  have inside : index < fs.esb.inodesPerGroup := by
    by_contra behind
    rw [counted.padding _ lt index (by omega) below] at isFree
    exact absurd isFree (by decide)
  rcases location_ino lt inside layout.total with ⟨number, isInode, groupEq, indexOf⟩
  have inoEq : u32 (fs.findGroup * fs.esb.inodesPerGroup + byte * 8 +
      findBit (bitmap.inodebit byte) + 1) = fs.findGroup * fs.esb.inodesPerGroup + index + 1 := by
    rw [Nat.add_assoc (fs.findGroup * _), indexEq]
    exact number
  generalize fs.findGroup * fs.esb.inodesPerGroup + index + 1 = ino at *
  -- the volume with the inode taken, and the writes that follow
  generalize takenEq : ({ fs with bitmap, disk := { fs.disk with transfers } } : Fs).takeInode
    fs.findGroup index type = taken
  have same : SameLayout fs taken ∧
      taken.unallocInodes fs.findGroup = (fs.unallocInodes fs.findGroup + 65535) % 65536 ∧
      ∀ other, other ≠ fs.findGroup → taken.unallocInodes other = fs.unallocInodes other := by
    subst takenEq
    exact sameLayout_of_dpttable rfl rfl
  have bits : ∀ i < 8 * fs.esb.sBlksize, bit taken.bitmap.inodebit i =
      if i = index then true else bit (fs.inodeBits fs.findGroup) i := by
    subst takenEq
    intro i iLt
    rw [takeInode, bit_setBit, holds.bit_eq iLt]
    by_cases here : i = index <;> simp [here]
  have facts : taken.disk = { fs.disk with transfers } ∧ taken.itable = fs.itable ∧
      taken.bitmap.bg = fs.findGroup ∧ taken.bitmap.dirty = true ∧
      taken.totalUnallocInodes = sub32 fs.totalUnallocInodes 1 := by
    subst takenEq
    exact ⟨rfl, rfl, bg, rfl, rfl⟩
  rcases facts with ⟨diskEq, itableEq, bgEq, dirty, total⟩
  have marked : bit taken.bitmap.inodebit (fs.inodeIndex ino) = true := by
    rw [indexOf, bits index below, if_pos rfl]
  rcases writeXinode_kept ready same.1 (diskEq ▸ .read transfers)
    (itableEq ▸ ready.clean.2) isInode (bgEq.trans groupEq.symm) marked
    (taken.newXinode fs.findGroup type) with ⟨itable, disk', wrote, itableClean, reliable, kept⟩
  have same' : SameLayout fs { taken with itable, disk := disk' } :=
    ⟨same.1.esb, same.1.blockBitmapBase, same.1.inodeBitmapBase, same.1.inodeTableBase⟩
  rcases saveChanged ready same' reliable lt kept bgEq dirty itableClean bits same.2.2 with
    ⟨fs', saved, ready', changed, unalloc, total'⟩
  have small := counted.total_le.1
  have sum := layout.total
  have counted' := changed.counted_take layout counted lt inside isFree
    (unalloc.trans same.2.1) (total'.trans total) (by omega)
  refine ⟨ino, fs', ?_, isInode, ?_, ?_, ⟨ready', counted'⟩⟩
  · have notZero : ¬fs.totalUnallocInodes = 0 := some
    simp only [applyInode, notZero, if_false, loads, ne_eq, not_true_eq_false, found,
      Option.map_some, inoEq, indexEq, takenEq, wrote, andThen, if_true, saved]
  · rw [Allocated, groupEq, indexOf, isFree]
    decide
  · rw [groupEq, indexOf]
    exact changed

/-- `retake_inode` of an inode in use clears its bit. -/
theorem retakeInode_spec (consistent : fs.Consistent) {ino : ℕ} (isInode : fs.IsInode ino)
    (allocated : fs.Allocated ino) (type : LastType) :
    ∃ fs', fs.retakeInode ino type = (0, fs') ∧
      BitChanged fs fs' (fs.inodeGroup ino) (fs.inodeIndex ino) false ∧ fs'.Consistent := by
  have ready := consistent.toReady
  have layout := ready.layout
  have counted := consistent.toCounted
  rcases location layout isInode with ⟨lt, inside, _⟩
  have room := layout.inodes.1
  rcases loadBitmap_spec ready lt with ⟨bitmap, transfers, loads, bg, clean, holds⟩
  have marked : bit bitmap.inodebit (fs.inodeIndex ino) = true := by
    rw [holds.bit_eq (by omega)]
    exact allocated
  have valid : checkIorb bitmap.inodebit (fs.inodeIndex ino) ≠ 0 := by
    rw [checkIorb_eq, marked]
    decide
  rcases @writeXinode_kept fs { fs with bitmap, disk := { fs.disk with transfers } } ready
    ⟨rfl, fun _ => rfl, fun _ => rfl, fun _ => rfl⟩ (.read transfers) ready.clean.2 ino isInode bg marked
    zeros with ⟨itable, disk', wrote, itableClean, reliable, kept⟩
  -- the volume with the inode given back
  generalize givenEq : ({ fs with bitmap, itable, disk := disk' } : Fs).giveInode
    (fs.inodeGroup ino) (fs.inodeIndex ino) type = given
  have same : SameLayout fs given ∧ given.unallocInodes (fs.inodeGroup ino) =
      (fs.unallocInodes (fs.inodeGroup ino) + 1) % 65536 ∧
      ∀ other, other ≠ fs.inodeGroup ino → given.unallocInodes other = fs.unallocInodes other := by
    subst givenEq
    exact sameLayout_of_dpttable rfl rfl
  have bits : ∀ i < 8 * fs.esb.sBlksize, bit given.bitmap.inodebit i =
      if i = fs.inodeIndex ino then false else bit (fs.inodeBits (fs.inodeGroup ino)) i := by
    subst givenEq
    intro i iLt
    rw [giveInode, bit_clearBit, holds.bit_eq iLt]
    by_cases here : i = fs.inodeIndex ino <;> simp [here]
  have facts : given.disk = disk' ∧ given.itable = itable ∧
      given.bitmap.bg = fs.inodeGroup ino ∧ given.bitmap.dirty = true ∧
      given.totalUnallocInodes = u32 (fs.totalUnallocInodes + 1) := by
    subst givenEq
    exact ⟨rfl, rfl, bg, rfl, rfl⟩
  rcases facts with ⟨diskEq, itableEq, bgEq, dirty, total⟩
  rcases saveChanged ready same.1 (diskEq ▸ reliable) lt (diskEq ▸ kept) bgEq dirty
    (itableEq ▸ itableClean) bits same.2.2 with ⟨fs', saved, ready', changed, unalloc, total'⟩
  have small := counted.total_le.2 _ lt _ inside allocated
  have sum := layout.total
  have counted' := changed.counted_give layout counted lt inside allocated
    (unalloc.trans same.2.1) (total'.trans total) (by omega)
  refine ⟨fs', ?_, changed, ⟨ready', counted'⟩⟩
  simp only [retakeInode, loads, andThen, if_true, valid, if_false, wrote, givenEq, saved]

/-- `retake_inode` of a free inode fails and changes no bitmap and no count. -/
theorem retakeInode_free (consistent : fs.Consistent) {ino : ℕ} (isInode : fs.IsInode ino)
    (free : ¬fs.Allocated ino) (type : LastType) :
    ∃ fs', fs.retakeInode ino type = (1, fs') ∧ fs'.Consistent ∧
      fs'.disk.sector = fs.disk.sector ∧ fs'.dpttable = fs.dpttable ∧
      fs'.totalUnallocInodes = fs.totalUnallocInodes := by
  have ready := consistent.toReady
  rcases location ready.layout isInode with ⟨lt, inside, _⟩
  have room := ready.layout.inodes.1
  rcases loadBitmap_spec ready lt with ⟨bitmap, transfers, loads, bg, clean, holds⟩
  have unmarked : bit bitmap.inodebit (fs.inodeIndex ino) = false := by
    rw [holds.bit_eq (by omega)]
    exact Bool.not_eq_true _ ▸ free
  have invalid : checkIorb bitmap.inodebit (fs.inodeIndex ino) = 0 := by
    rw [checkIorb_eq, unmarked]
    rfl
  have same : SameLayout fs { fs with bitmap, disk := { fs.disk with transfers } } :=
    ⟨rfl, fun _ => rfl, fun _ => rfl, fun _ => rfl⟩
  have ltNow : bitmap.bg < fs.esb.totalGroups := bg ▸ lt
  have holdsNow : fs.Holds fs.disk bitmap bitmap.bg := bg ▸ holds
  refine ⟨{ fs with bitmap, disk := { fs.disk with transfers } }, ?_, ⟨⟨same.layout ready.layout,
    ready.reliable, ⟨clean, ready.clean.2⟩, Or.inr ⟨ltNow, holdsNow⟩⟩,
    ⟨consistent.counts, consistent.padding, consistent.total⟩⟩, rfl, rfl, rfl⟩
  simp only [retakeInode, loads, andThen, if_true, invalid]

end Calls

/-! ## Runs -/

/-- The two calls; an inode is given back by a number it can have. -/
inductive InodeCall
  | apply (type : LastType)
  | retake (ino : ℕ) (type : LastType)

/-- A call and the volume it leaves. -/
def step (fs : Fs) : InodeCall → Option Fs
  | .apply type => (fs.applyInode type).map fun (_, _, fs) => fs
  | .retake ino type => if fs.IsInode ino then some (fs.retakeInode ino type).2 else none

/-- A volume stays consistent. -/
theorem Consistent.step {fs fs' : Fs} (consistent : fs.Consistent) {call : InodeCall}
    (stepped : fs.step call = some fs') : fs'.Consistent := by
  cases call with
  | apply type =>
      by_cases full : fs.totalUnallocInodes = 0
      · simp only [Fs.step, applyInode, full, if_true, Option.map_some, Option.some.injEq] at stepped
        exact stepped ▸ consistent
      · rcases applyInode_spec consistent full type with ⟨ino, fs'', applied, _, _, _, consistent'⟩
        simp only [Fs.step, applied, Option.map_some, Option.some.injEq] at stepped
        exact stepped ▸ consistent'
  | retake ino type =>
      simp only [Fs.step] at stepped
      split at stepped
      · rename_i isInode
        rcases Option.some.inj stepped with rfl
        by_cases allocated : fs.Allocated ino
        · rcases retakeInode_spec consistent isInode allocated type with
            ⟨fs'', retook, _, consistent'⟩
          rw [retook]
          exact consistent'
        · rcases retakeInode_free consistent isInode allocated type with
            ⟨fs'', retook, consistent', _⟩
          rw [retook]
          exact consistent'
      · simp at stepped

/--
On every run the three counts agree with the bitmaps, and the cached bitmaps with the card. From
each state reached, `apply_inode` returns and fails exactly when the count of the superblock is
0, and takes an inode that was free and no other; `retake_inode` frees the inode it is given and
no other, and fails on a free one, changing no bitmap and no count.
-/
theorem inodeAccounting_of_reach {fs : Fs} (reached : Reach step Consistent fs) :
    fs.Consistent ∧
      (∀ type, ∃ err ino fs', fs.applyInode type = some (err, ino, fs') ∧ fs'.Consistent ∧
        (err ≠ 0 ↔ fs.totalUnallocInodes = 0) ∧ (err = 0 → fs.IsInode ino ∧ ¬fs.Allocated ino ∧
          ∀ other, fs.IsInode other → (fs'.Allocated other ↔ other = ino ∨ fs.Allocated other))) ∧
      ∀ ino type, fs.IsInode ino → ∃ err fs', fs.retakeInode ino type = (err, fs') ∧
        fs'.Consistent ∧
        (fs.Allocated ino → err = 0 ∧ ∀ other, fs.IsInode other →
          (fs'.Allocated other ↔ other ≠ ino ∧ fs.Allocated other)) ∧
        (¬fs.Allocated ino → err ≠ 0 ∧ fs'.disk.sector = fs.disk.sector ∧
          fs'.dpttable = fs.dpttable ∧ fs'.totalUnallocInodes = fs.totalUnallocInodes) := by
  have consistent : fs.Consistent :=
    reached.invariant (fun _ start => start) fun _ _ _ kept _ stepped => kept.step stepped
  have layout := consistent.layout
  refine ⟨consistent, fun type => ?_, fun ino type isInode => ?_⟩
  · by_cases full : fs.totalUnallocInodes = 0
    · refine ⟨1, 0, fs, ?_, consistent, by simp [full], by simp⟩
      simp only [applyInode, full, if_true]
    · rcases applyInode_spec consistent full type with
        ⟨ino, fs', applied, isInode, free, changed, consistent'⟩
      refine ⟨0, ino, fs', applied, consistent', by simp [full], fun _ => ⟨isInode, free, ?_⟩⟩
      intro other isOther
      rw [changed.allocated_iff layout isInode isOther]
      by_cases same : other = ino <;> simp [same]
  · by_cases allocated : fs.Allocated ino
    · rcases retakeInode_spec consistent isInode allocated type with
        ⟨fs', retook, changed, consistent'⟩
      refine ⟨0, fs', retook, consistent', fun _ => ⟨rfl, fun other isOther => ?_⟩, fun free =>
        absurd allocated free⟩
      rw [changed.allocated_iff layout isInode isOther]
      by_cases same : other = ino <;> simp [same]
    · rcases retakeInode_free consistent isInode allocated type with
        ⟨fs', retook, consistent', sector, table, total⟩
      exact ⟨1, fs', retook, consistent', fun yes => absurd yes allocated,
        fun _ => ⟨by decide, sector, table, total⟩⟩

/-! ## A volume of one group -/

/-- One group of 16 inodes, with its bitmaps in blocks 3 and 4 and its inodes from block 5 on;
the first two inodes are in use. -/
def oneGroup : Fs where
  esb :=
    { sBase := 0
      blocksizeFactor := 0
      totalGroups := 1
      blocksPerGroup := 8192
      inodesPerGroup := 16
      inodeSize := 128 }
  disk :=
    { sector := fun id k => if id = 8 ∧ k = 0 then 3 else if id = 8 ∧ k = 1 then 0 else 0xff
      fault := fun _ _ => 0
      transfers := 0
      written := [] }
  dpttable := setDptField (setDptField (setDptField (setDptField zeros 0 0 4 3) 0 4 4 4) 0 8 4 5)
    0 14 2 14
  totalUnallocInodes := 14
  totalUnallocBlocks := 0
  sbBuf := zeros
  bitmap := ⟨minusOne32, false, zeros, zeros⟩
  itable := ⟨minusOne32, minusOne32, false, zeros⟩

theorem oneGroup_bases : oneGroup.blockBitmapBase 0 = 3 ∧ oneGroup.inodeBitmapBase 0 = 4 ∧
    oneGroup.inodeTableBase 0 = 5 ∧ oneGroup.unallocInodes 0 = 14 := by decide +kernel

theorem oneGroup_layout : oneGroup.Layout := by
  rcases oneGroup_bases with ⟨blockBase, inodeBase, tableBase, _⟩
  have inTable : ∀ block, oneGroup.InItable 0 block → 5 ≤ block ∧ block < 7 := by
    rintro block ⟨index, below, rfl⟩
    change index < 16 at below
    change 5 ≤ oneGroup.inodeTableBase 0 + index * 128 / 1024 ∧
      oneGroup.inodeTableBase 0 + index * 128 / 1024 < 7
    omega
  have only : ∀ {group}, group < oneGroup.esb.totalGroups → group = 0 := fun lt => by
    change _ < 1 at lt
    omega
  refine
    { valid := by constructor <;> decide
      inodeSize := by decide
      inodes := by decide
      total := by decide
      onCard := ?_
      blocksApart := fun group lt other otherLt _ => (only lt).trans (only otherLt).symm
      inodesApart := fun group lt other otherLt _ => (only lt).trans (only otherLt).symm
      bitmapsApart := ?_
      tablesApart := ?_
      recordsApart := ?_ }
  · intro group lt
    rw [only lt, blockBase, inodeBase]
    refine ⟨(by decide : 0 + (3 + 1) * 2 ≤ 4294967296), (by decide : 0 + (4 + 1) * 2 ≤ 4294967296),
      fun block inside => ?_⟩
    have below := (inTable block inside).2
    change 0 + (block + 1) * 2 ≤ 4294967296
    omega
  · intro group lt other otherLt
    rw [only lt, only otherLt, blockBase, inodeBase]
    decide
  · intro group lt other otherLt block inside
    rw [only otherLt] at inside
    have above := (inTable block inside).1
    rw [only lt, blockBase, inodeBase]
    omega
  · intro group lt id record
    rw [only lt, blockBase, inodeBase]
    have below : id < 6 := by
      rcases record with descriptor | primary | ⟨copy, mem, _⟩
      · exact descriptor.2
      · rw [primary]
        decide
      · exact absurd mem List.not_mem_nil
    constructor
    · rintro ⟨_, inBlock⟩
      change (id - 0) / 2 = 3 at inBlock
      omega
    · rintro ⟨_, inBlock⟩
      change (id - 0) / 2 = 4 at inBlock
      omega

theorem oneGroup_consistent : oneGroup.Consistent := by
  have only : ∀ {group}, group < oneGroup.esb.totalGroups → group = 0 := fun lt => by
    change _ < 1 at lt
    omega
  refine ⟨⟨oneGroup_layout, fun _ _ _ => rfl, ⟨rfl, rfl⟩, Or.inl rfl⟩, ⟨?_, ?_, ?_⟩⟩
  · intro group lt
    rw [only lt]
    decide +kernel
  · intro group lt i behind below
    change 16 ≤ i at behind
    rw [only lt, bit]
    have full : oneGroup.inodeBits 0 (i / 8) = 0xff := by
      rw [inodeBits, oneGroup_bases.2.1]
      change (if 8 + i / 8 / 512 = 8 ∧ i / 8 % 512 = 0 then 3
        else if 8 + i / 8 / 512 = 8 ∧ i / 8 % 512 = 1 then 0 else 0xff : UInt8) = 0xff
      rw [if_neg (by omega), if_neg (by omega)]
    exact byte_full.mp full (i % 8) (Nat.mod_lt _ (by decide))
  · decide +kernel

/-- Taking the third inode leaves the volume consistent, with 13 inodes free. -/
theorem inodeAccounting_of_reach_oneGroup :
    ∃ fs, oneGroup.step (.apply .norm) = some fs ∧ fs.Consistent ∧ fs.totalUnallocInodes = 13 := by
  have runs : (oneGroup.step (.apply .norm)).map (·.totalUnallocInodes) = some 13 := by
    decide +kernel
  rcases Option.map_eq_some_iff.mp runs with ⟨fs, stepped, count⟩
  exact ⟨fs, stepped, (inodeAccounting_of_reach
    (.step (.start oneGroup_consistent) trivial stepped)).1, count⟩

end Fs

end Ninix.Ext2
