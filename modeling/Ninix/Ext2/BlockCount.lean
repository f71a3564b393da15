import Ninix.Ext2.Creation
import Ninix.Library.IndexLevels

/-!
# Counting the blocks of a file

`count_blocks` finds the number of blocks of a file without looking at most of them: it goes down
along the last entry of each level, and takes all that is in front of it to be there. `ext2_bmap`
leads to each block that is counted as long as `get_location` has a place for it. The bounds of
`get_location` are sums of `u32` products, and with blocks of 8192 bytes the number of blocks below
the third index block is 0.
-/

namespace Ninix.Ext2

open ByteBuffer IndexLevels

/-- `POINTERS_PER_INODE` -/
abbrev pointersPerInode : ℕ := 15

namespace Fs

/-- The part of `count_blocks` that goes down from an index block of a level, where `tmp` blocks are
in front of those below it. `none`: a word in front of the index page is read. -/
def countLevel : (level : ℕ) → Fs → Bytes → ℕ → ℕ → Option (ℕ × Option ℕ × Fs)
  | 0, fs, _, tmp, _ => some (0, some tmp, fs)
  | level + 1, fs, buf, tmp, nextPointer =>
      if nextPointer = 0 then some (0, some tmp, fs)
      else
        let (err, buf, disk) :=
          fs.disk.readBlock buf (fs.esb.blockSector nextPointer) fs.esb.sectsPerBlock
        let fs := { fs with disk }
        if err ≠ 0 then some (err, none, fs)
        else
          let n := fs.esb.pointersPerBlock
          let i := firstZero (fun k => read32 buf (4 * k)) n
          if level = 0 then some (0, some (u32 (tmp + i)), fs)
          else if i = 0 then none
          else
            countLevel level fs buf (u32 (tmp + (i - 1) * n ^ level)) (read32 buf (4 * (i - 1)))

/-- `count_blocks`: the code it returns and the number of blocks it stores, if it does. -/
def countBlocks (fs : Fs) (memory : Bool) (pointers : ℕ → ℕ) : Option (ℕ × Option ℕ × Fs) :=
  let n := fs.esb.pointersPerBlock
  if memory then
    let dp := firstZero pointers pointersPerInode
    if dp ≤ 12 then some (0, some dp, fs)
    else
      let tmp := if dp = 13 then 12 else if dp = 14 then u32 (12 + n) else u32 (12 + n + n * n)
      countLevel (dp - 12) fs zeros tmp (pointers (dp - 1))
  else some (errNoMem, none, fs)

/-- `ext2_fill_mapping`: the inode with the number of its blocks and its address space. The calls
of `kmalloc` are for the index page, the address space and `a_page`. -/
def fillMapping (fs : Fs) (memory : ℕ → Bool) (iIno : ℕ) (pointers : ℕ → ℕ) :
    Option (Option Inode × Fs) :=
  (fs.countBlocks (memory 0) pointers).map fun (err, blocks, fs) =>
    if err ≠ 0 then (none, fs)
    else if memory 1 && memory 2 then
      (blocks.map fun iBlocks => { iIno, iBlocks, aPage := pointers }, fs)
    else (none, fs)

end Fs

/-! ## Files and their index blocks -/

/-- The blocks in front of those below the index block with a pointer, counted from the first such
pointer on. -/
def pagesInFront (n : ℕ) : ℕ → ℕ
  | 0 => 12
  | k + 1 => pagesInFront n k + n ^ (k + 1)

namespace Fs

/-- The first `b` blocks of a file have entries and no others do. The index blocks above them are
there and lie on the card, and all other entries are 0. -/
structure Indexed (fs : Fs) (pointers : ℕ → ℕ) (b : ℕ) : Prop where
  direct : ∀ dp < 12, (pointers dp ≠ 0 ↔ dp < b)
  indirect : ∀ k < 3, HoldsFirst fs.word fs.esb.pointersPerBlock fs.esb.OnCard (k + 1)
    (pointers (12 + k))
    (min (b - pagesInFront fs.esb.pointersPerBlock k) (fs.esb.pointersPerBlock ^ (k + 1)))

/-- The entry of a block of a file. -/
def entry (fs : Fs) (pointers : ℕ → ℕ) (v : ℕ) : ℕ :=
  let n := fs.esb.pointersPerBlock
  if v < 12 then pointers v
  else if v < pagesInFront n 1 then entryBelow fs.word n 1 (pointers 12) (v - pagesInFront n 0)
  else if v < pagesInFront n 2 then entryBelow fs.word n 2 (pointers 13) (v - pagesInFront n 1)
  else entryBelow fs.word n 3 (pointers 14) (v - pagesInFront n 2)

/-- `count_blocks` returns the number of blocks, `ext2_fill_mapping` makes an inode with it, and for
that `ext2_bmap` returns the entry of each of them. -/
def CountsAndMaps (fs : Fs) (pointers : ℕ → ℕ) (b : ℕ) : Prop :=
  ∃ fs', fs.countBlocks true pointers = some (0, some b, fs') ∧ ∀ iIno,
    fs.fillMapping (fun _ => true) iIno pointers = some (some ⟨iIno, b, pointers⟩, fs') ∧
    ∀ v < b, (fs'.bmap ⟨iIno, b, pointers⟩ v).map (·.1) = some (fs.entry pointers v)

end Fs

/-- The blocks that `get_location` has a place for. -/
def ExtSb.located (esb : ExtSb) : ℕ :=
  let n := esb.pointersPerBlock
  if n < 2048 then pagesInFront n 3 else if n < 65536 then pagesInFront n 2 else pagesInFront n 1

/-! ## Counting -/

section

variable {fs fs' : Fs} {pointers : ℕ → ℕ} {level block count tmp b k v : ℕ}

theorem pagesInFront_mono {n j : ℕ} (le : j ≤ k) : pagesInFront n j ≤ pagesInFront n k := by
  induction le with
  | refl => exact le_rfl
  | step _ ih => exact ih.trans (Nat.le_add_right _ _)

theorem pagesInFront_one (n : ℕ) : pagesInFront n 1 = 12 + n := by
  simp [pagesInFront]

theorem pagesInFront_two (n : ℕ) : pagesInFront n 2 = 12 + n + n * n := by
  simp [pagesInFront, Nat.pow_two]

namespace Fs

theorem Reads.reliable (reads : Reads fs fs') (reliable : fs.disk.Reliable) :
    fs'.disk.Reliable := by
  rcases reads with ⟨transfers, rfl⟩
  exact reliable

/-- A level of `count_blocks`: it goes on below the last word of the block, or ends with it. -/
theorem countLevel_step (reliable : fs.disk.Reliable)
    (holds : HoldsFirst fs.word fs.esb.pointersPerBlock fs.esb.OnCard (level + 1) block count)
    (nonempty : 0 < count) (le : count ≤ fs.esb.pointersPerBlock ^ (level + 1)) (buf : Bytes) :
    ∃ fs' buf' k, Reads fs fs' ∧ k * fs.esb.pointersPerBlock ^ level < count ∧
      count - k * fs.esb.pointersPerBlock ^ level ≤ fs.esb.pointersPerBlock ^ level ∧
      HoldsFirst fs.word fs.esb.pointersPerBlock fs.esb.OnCard level (fs.word block k)
        (count - k * fs.esb.pointersPerBlock ^ level) ∧
      countLevel (level + 1) fs buf tmp block =
        if level = 0 then some (0, some (u32 (tmp + (k + 1))), fs')
        else
          countLevel level fs' buf' (u32 (tmp + k * fs.esb.pointersPerBlock ^ level))
            (fs.word block k) := by
  rcases readBlock_block reliable (holds.2 nonempty).1 buf with ⟨buf', transfers, read, bytes⟩
  rcases holds.descend fs.esb.pointersPerBlock_pos nonempty le with
    ⟨k, lt, isFirst, lower, upper, below⟩
  have words := firstZero_congr fun i lt => fs.word_of_bytes bytes lt
  refine ⟨_, buf', k, ⟨transfers, rfl⟩, lower, upper, below, ?_⟩
  have last := fs.word_of_bytes bytes lt
  simp only [countLevel, holds.1.mpr nonempty, if_false, read, ne_eq, not_true_eq_false, words,
    isFirst, Nat.add_sub_cancel, Nat.succ_ne_zero, last]

/-- Going down from an index block of a level adds the number of blocks below it. -/
theorem countLevel_spec (reliable : fs.disk.Reliable)
    (holds : HoldsFirst fs.word fs.esb.pointersPerBlock fs.esb.OnCard (level + 1) block count)
    (nonempty : 0 < count) (le : count ≤ fs.esb.pointersPerBlock ^ (level + 1))
    (small : tmp + count < 4294967296) (buf : Bytes) :
    ∃ fs', countLevel (level + 1) fs buf tmp block = some (0, some (tmp + count), fs') ∧
      Reads fs fs' := by
  induction level generalizing fs block count tmp buf with
  | zero =>
      rcases countLevel_step reliable holds nonempty le buf with
        ⟨fs', _, k, reads, lower, upper, _, ran⟩
      rw [Nat.pow_zero] at lower upper
      have total : k + 1 = count := by omega
      refine ⟨fs', ?_, reads⟩
      rw [ran, if_pos rfl, total, u32_of_lt small]
  | succ level ih =>
      rcases countLevel_step reliable holds nonempty le buf with
        ⟨mid, buf', k, reads, lower, upper, below, ran⟩
      generalize inFront : k * fs.esb.pointersPerBlock ^ (level + 1) = front at *
      have below' : HoldsFirst mid.word mid.esb.pointersPerBlock mid.esb.OnCard (level + 1)
          (fs.word block k) (count - front) := by
        rw [reads.word, reads.esb]
        exact below
      have upper' : count - front ≤ mid.esb.pointersPerBlock ^ (level + 1) := by
        rw [reads.esb]
        exact upper
      rcases ih (reads.reliable reliable) below' (by omega) upper'
        (show tmp + front + (count - front) < 4294967296 by omega) buf' with
        ⟨fs', ranBelow, readsBelow⟩
      refine ⟨fs', ?_, reads.trans readsBelow⟩
      have total : tmp + front + (count - front) = tmp + count := by omega
      rw [ran, if_neg (Nat.succ_ne_zero level), u32_of_lt (by omega), ranBelow, total]

theorem Indexed.reads (indexed : fs.Indexed pointers b) (reads : Reads fs fs') :
    fs'.Indexed pointers b where
  direct := indexed.direct
  indirect := by
    rw [reads.word, reads.esb]
    exact indexed.indirect

theorem Indexed.ne_zero_iff (indexed : fs.Indexed pointers b) (lt : k < 3) :
    pointers (12 + k) ≠ 0 ↔ pagesInFront fs.esb.pointersPerBlock k < b := by
  have power : 0 < fs.esb.pointersPerBlock ^ (k + 1) := Nat.pow_pos fs.esb.pointersPerBlock_pos
  rw [(indexed.indirect k lt).ne_zero_iff]
  omega

/-- The pointers of an inode that are there. -/
theorem Indexed.firstZero_pointers (indexed : fs.Indexed pointers b) (lt : k < 3)
    (lower : pagesInFront fs.esb.pointersPerBlock k < b)
    (upper : b ≤ pagesInFront fs.esb.pointersPerBlock (k + 1)) :
    firstZero pointers pointersPerInode = 13 + k := by
  apply firstZero_eq
  · show 13 + k ≤ 15
    omega
  · intro dp below
    by_cases isDirect : dp < 12
    · have first : 12 ≤ pagesInFront fs.esb.pointersPerBlock k := pagesInFront_mono (Nat.zero_le k)
      exact (indexed.direct dp isDirect).mpr (by omega)
    · obtain ⟨j, rfl⟩ := Nat.exists_eq_add_of_le (Nat.not_lt.mp isDirect)
      rw [indexed.ne_zero_iff (by omega)]
      exact (pagesInFront_mono (by omega)).trans_lt lower
  · intro less
    have less : 13 + k < 15 := less
    by_contra isThere
    have behind : 13 + k = 12 + (k + 1) := by omega
    rw [behind] at isThere
    exact absurd ((indexed.ne_zero_iff (by omega)).mp isThere) (Nat.not_lt.mpr upper)

/-- The level at which a file ends. -/
theorem exists_level (n : ℕ) (notDirect : 12 < b) (le : b ≤ pagesInFront n 3) :
    ∃ k < 3, pagesInFront n k < b ∧ b ≤ pagesInFront n (k + 1) := by
  by_cases first : b ≤ pagesInFront n 1
  · exact ⟨0, by decide, notDirect, first⟩
  · by_cases second : b ≤ pagesInFront n 2
    · exact ⟨1, by decide, Nat.lt_of_not_le first, second⟩
    · exact ⟨2, by decide, Nat.lt_of_not_le second, le⟩

theorem countBlocks_spec (reliable : fs.disk.Reliable) (indexed : fs.Indexed pointers b)
    (le : b ≤ pagesInFront fs.esb.pointersPerBlock 3) (small : b < 4294967296) :
    ∃ fs', fs.countBlocks true pointers = some (0, some b, fs') ∧ Reads fs fs' := by
  unfold countBlocks
  by_cases isDirect : b ≤ 12
  · have dp : firstZero pointers pointersPerInode = b := by
      apply firstZero_eq
      · show b ≤ 15
        omega
      · exact fun dp below => (indexed.direct dp (by omega)).mpr below
      · intro _
        by_contra isThere
        by_cases below : b < 12
        · exact absurd ((indexed.direct b below).mp isThere) (lt_irrefl b)
        · obtain rfl : b = 12 := by omega
          exact absurd ((indexed.ne_zero_iff (by decide : 0 < 3)).mp isThere) (lt_irrefl 12)
    exact ⟨fs, by simp only [dp, isDirect, if_true], fs.disk.transfers, rfl⟩
  · rcases exists_level fs.esb.pointersPerBlock (Nat.lt_of_not_le isDirect) le with
      ⟨k, lt, lower, upper⟩
    have dp := indexed.firstZero_pointers lt lower upper
    have holds := indexed.indirect k lt
    have upper' : b ≤ pagesInFront fs.esb.pointersPerBlock k + fs.esb.pointersPerBlock ^ (k + 1) :=
      upper
    rw [min_eq_left (by omega)] at holds
    have tmp : (if 13 + k = 13 then 12 else if 13 + k = 14 then u32 (12 + fs.esb.pointersPerBlock)
        else u32 (12 + fs.esb.pointersPerBlock + fs.esb.pointersPerBlock * fs.esb.pointersPerBlock))
          = pagesInFront fs.esb.pointersPerBlock k := by
      have fits : pagesInFront fs.esb.pointersPerBlock k < 4294967296 := by omega
      match k, lt, fits with
      | 0, _, _ => rfl
      | 1, _, fits =>
          rw [pagesInFront_one] at fits ⊢
          exact u32_of_lt fits
      | 2, _, fits =>
          rw [pagesInFront_two] at fits ⊢
          exact u32_of_lt fits
    rcases countLevel_spec reliable holds (by omega) (by omega)
      (show pagesInFront fs.esb.pointersPerBlock k + _ < _ by omega) zeros with ⟨fs', ran, reads⟩
    refine ⟨fs', ?_, reads⟩
    have notDirect : ¬13 + k ≤ 12 := by omega
    have level : 13 + k - 12 = k + 1 := by omega
    have pointer : 13 + k - 1 = 12 + k := by omega
    have total : pagesInFront fs.esb.pointersPerBlock k +
        (b - pagesInFront fs.esb.pointersPerBlock k) = b := by omega
    simp only [dp, if_true, notDirect, if_false, tmp, level, pointer, ran, total]

end Fs

/-! ## Places of blocks -/

namespace ExtSb

variable {esb : ExtSb}

/-- The bounds that `get_location` compares a number with. -/
theorem bounds (factor : esb.blocksizeFactor ≤ 21) :
    u32 (12 + esb.pointersPerBlock + esb.pointersPerBlock * esb.pointersPerBlock) =
      (if esb.pointersPerBlock < 65536 then pagesInFront esb.pointersPerBlock 2
        else pagesInFront esb.pointersPerBlock 1) ∧
    u32 (12 + esb.pointersPerBlock + esb.pointersPerBlock * esb.pointersPerBlock +
      esb.pointersPerBlock * esb.pointersPerBlock * esb.pointersPerBlock) = esb.located := by
  have all : ∀ factor ≤ 21, ∀ n, n = 256 * 2 ^ factor → u32 (12 + n + n * n) =
      (if n < 65536 then pagesInFront n 2 else pagesInFront n 1) ∧
      u32 (12 + n + n * n + n * n * n) = if n < 2048 then pagesInFront n 3
        else if n < 65536 then pagesInFront n 2 else pagesInFront n 1 := by
    intro factor le n isPower
    subst isPower
    revert factor
    decide +kernel
  exact all _ factor _ esb.pointersPerBlock_eq

theorem located_cases (esb : ExtSb) :
    esb.pointersPerBlock < 2048 ∧ esb.located = pagesInFront esb.pointersPerBlock 3 ∨
    (2048 ≤ esb.pointersPerBlock ∧ esb.pointersPerBlock < 65536) ∧
      esb.located = pagesInFront esb.pointersPerBlock 2 ∨
    65536 ≤ esb.pointersPerBlock ∧ esb.located = pagesInFront esb.pointersPerBlock 1 := by
  unfold located
  by_cases small : esb.pointersPerBlock < 2048
  · exact Or.inl ⟨small, if_pos small⟩
  · by_cases medium : esb.pointersPerBlock < 65536
    · exact Or.inr (Or.inl ⟨⟨Nat.not_lt.mp small, medium⟩, by simp only [small, medium, if_true,
        if_false]⟩)
    · exact Or.inr (Or.inr ⟨Nat.not_lt.mp medium, by simp only [small, medium, if_false]⟩)

theorem getLocation_digits (factor : esb.blocksizeFactor ≤ 21) (lt : k < 3)
    (lower : pagesInFront esb.pointersPerBlock k ≤ v)
    (upper : v < pagesInFront esb.pointersPerBlock (k + 1)) (isLocated : v < esb.located) :
    esb.getLocation v = some (12 + k,
      digits esb.pointersPerBlock (k + 1) (v - pagesInFront esb.pointersPerBlock k)) := by
  have first : pagesInFront esb.pointersPerBlock 0 ≤ pagesInFront esb.pointersPerBlock k :=
    pagesInFront_mono (Nat.zero_le k)
  have notDirect : ¬v < 12 := Nat.not_lt.mpr (first.trans lower)
  have mono : pagesInFront esb.pointersPerBlock 1 ≤ pagesInFront esb.pointersPerBlock 2 :=
    pagesInFront_mono (by decide)
  rcases bounds factor with ⟨second, third⟩
  unfold getLocation
  simp only [second, third, notDirect, if_false]
  rw [← pagesInFront_one esb.pointersPerBlock]
  match k, lt, lower, upper with
  | 0, _, _, upper =>
      rw [if_pos upper]
      simp [digits, pagesInFront]
  | 1, _, lower, upper =>
      have medium : esb.pointersPerBlock < 65536 := by
        rcases esb.located_cases with ⟨_, _⟩ | ⟨⟨_, _⟩, _⟩ | ⟨_, same⟩ <;> omega
      rw [if_neg (Nat.not_lt.mpr lower), if_pos medium, if_pos upper]
      simp [digits, pagesInFront_one, Nat.sub_sub]
  | 2, _, lower, upper =>
      have small : esb.pointersPerBlock < 2048 := by
        rcases esb.located_cases with ⟨_, _⟩ | ⟨⟨_, _⟩, _⟩ | ⟨_, same⟩ <;> omega
      have medium : esb.pointersPerBlock < 65536 := by omega
      rw [if_neg (Nat.not_lt.mpr (mono.trans lower)), if_pos medium,
        if_neg (Nat.not_lt.mpr lower), if_pos isLocated]
      have last (tmp : ℕ) : tmp % (esb.pointersPerBlock * esb.pointersPerBlock) %
          esb.pointersPerBlock = tmp % esb.pointersPerBlock :=
        Nat.mod_mod_of_dvd tmp (Nat.dvd_mul_left _ _)
      simp [digits, pagesInFront_two, Nat.sub_sub, Nat.pow_two, last]

theorem getLocation_none (factor : esb.blocksizeFactor ≤ 21) (behind : esb.located ≤ v) :
    esb.getLocation v = none := by
  rcases bounds factor with ⟨second, third⟩
  have first : 12 ≤ pagesInFront esb.pointersPerBlock 1 := pagesInFront_mono (Nat.zero_le 1)
  have mono : pagesInFront esb.pointersPerBlock 1 ≤ pagesInFront esb.pointersPerBlock 2 :=
    pagesInFront_mono (by decide)
  have mono' : pagesInFront esb.pointersPerBlock 2 ≤ pagesInFront esb.pointersPerBlock 3 :=
    pagesInFront_mono (by decide)
  have notSecond : ¬v < if esb.pointersPerBlock < 65536 then pagesInFront esb.pointersPerBlock 2
      else pagesInFront esb.pointersPerBlock 1 := by
    rcases esb.located_cases with ⟨_, _⟩ | ⟨⟨_, _⟩, _⟩ | ⟨_, same⟩ <;> split <;> omega
  have behindFirst : pagesInFront esb.pointersPerBlock 1 ≤ v := by
    rcases esb.located_cases with ⟨_, _⟩ | ⟨⟨_, _⟩, _⟩ | ⟨_, same⟩ <;> omega
  unfold getLocation
  simp only [second, third]
  rw [← pagesInFront_one esb.pointersPerBlock, if_neg (by omega), if_neg (by omega),
    if_neg notSecond, if_neg (Nat.not_lt.mpr behind)]

end ExtSb

namespace Fs

/-- `ext2_bmap` follows the words that lead to a block. -/
theorem followMap_digits (reliable : fs.disk.Reliable)
    (holds : HoldsFirst fs.word fs.esb.pointersPerBlock fs.esb.OnCard level block count)
    (le : count ≤ fs.esb.pointersPerBlock ^ level) (lt : v < count) (buf : Bytes) :
    ∃ fs', fs.followMap buf block (digits fs.esb.pointersPerBlock level v) =
      (entryBelow fs.word fs.esb.pointersPerBlock level block v, fs') := by
  induction level generalizing fs block count v buf with
  | zero => exact ⟨fs, rfl⟩
  | succ level ih =>
      rcases holds.step lt le with ⟨onCard, inside, rest, leRest, ltRest, below⟩
      rcases readBlock_block reliable onCard buf with ⟨buf', transfers, read, bytes⟩
      have next := fs.word_of_bytes bytes inside
      rcases @ih { fs with disk := { fs.disk with transfers } } _ _ _ reliable below leRest ltRest
        buf' with ⟨fs', follows⟩
      refine ⟨fs', ?_⟩
      simp only [digits, followMap, read, ne_eq, not_true_eq_false, if_false, next]
      exact follows

/-- The entry of a block below an index block. -/
theorem entry_eq (lt : k < 3) (lower : pagesInFront fs.esb.pointersPerBlock k ≤ v)
    (upper : v < pagesInFront fs.esb.pointersPerBlock (k + 1)) :
    fs.entry pointers v = entryBelow fs.word fs.esb.pointersPerBlock (k + 1) (pointers (12 + k))
      (v - pagesInFront fs.esb.pointersPerBlock k) := by
  have first : pagesInFront fs.esb.pointersPerBlock 0 ≤ pagesInFront fs.esb.pointersPerBlock k :=
    pagesInFront_mono (Nat.zero_le k)
  have notDirect : ¬v < 12 := Nat.not_lt.mpr (first.trans lower)
  have mono : pagesInFront fs.esb.pointersPerBlock 1 ≤ pagesInFront fs.esb.pointersPerBlock 2 :=
    pagesInFront_mono (by decide)
  unfold entry
  dsimp only
  rw [if_neg notDirect]
  match k, lt, lower, upper with
  | 0, _, _, upper => rw [if_pos upper]
  | 1, _, lower, upper => rw [if_neg (Nat.not_lt.mpr lower), if_pos upper]
  | 2, _, lower, _ =>
      rw [if_neg (Nat.not_lt.mpr (mono.trans lower)), if_neg (Nat.not_lt.mpr lower)]

theorem bmap_of_located (reliable : fs.disk.Reliable) (factor : fs.esb.blocksizeFactor ≤ 21)
    (indexed : fs.Indexed pointers b) (le : b ≤ pagesInFront fs.esb.pointersPerBlock 3)
    (lt : v < b) (isLocated : v < fs.esb.located) (iIno : ℕ) :
    (fs.bmap ⟨iIno, b, pointers⟩ v).map (·.1) = some (fs.entry pointers v) := by
  simp only [bmap, Nat.not_le.mpr lt, if_false, Option.map_some, ne_eq, not_true_eq_false]
  by_cases isDirect : v < 12
  · simp [ExtSb.getLocation, entry, isDirect, followMap]
  · rcases exists_level fs.esb.pointersPerBlock (show 12 < v + 1 by omega) (by omega) with
      ⟨k, kLt, lower, upper⟩
    have upper' : v + 1 ≤ pagesInFront fs.esb.pointersPerBlock k +
      fs.esb.pointersPerBlock ^ (k + 1) := upper
    have inside : v - pagesInFront fs.esb.pointersPerBlock k <
        min (b - pagesInFront fs.esb.pointersPerBlock k) (fs.esb.pointersPerBlock ^ (k + 1)) := by
      omega
    rcases followMap_digits reliable (indexed.indirect k kLt) (min_le_right _ _) inside zeros with
      ⟨fs', follows⟩
    rw [ExtSb.getLocation_digits factor kLt (Nat.le_of_lt_succ lower) upper isLocated,
      entry_eq kLt (Nat.le_of_lt_succ lower) upper]
    simp only [follows]

theorem bmap_of_not_located (factor : fs.esb.blocksizeFactor ≤ 21) (lt : v < b)
    (behind : fs.esb.located ≤ v) (iIno : ℕ) :
    (fs.bmap ⟨iIno, b, pointers⟩ v).map (·.1) = some minusOne32 := by
  simp only [bmap, Nat.not_le.mpr lt, if_false, Option.map_some, ne_eq, not_true_eq_false,
    ExtSb.getLocation_none factor behind]

/-- Counting and mapping agree with the entries exactly if `get_location` has a place for each of
the blocks, or else their entries are the code that `ext2_bmap` returns for an error. -/
theorem countsAndMaps_iff (reliable : fs.disk.Reliable) (factor : fs.esb.blocksizeFactor ≤ 21)
    (indexed : fs.Indexed pointers b) (le : b ≤ pagesInFront fs.esb.pointersPerBlock 3)
    (small : b < 4294967296) : fs.CountsAndMaps pointers b ↔
      ∀ v < b, fs.esb.located ≤ v → fs.entry pointers v = minusOne32 := by
  rcases countBlocks_spec reliable indexed le small with ⟨fs', counted, reads⟩
  have sameEntry : fs'.entry pointers = fs.entry pointers := by
    funext v
    simp only [entry, reads.word, reads.esb]
  constructor
  · rintro ⟨fs₁, counted₁, maps⟩ v lt behind
    have mapped := (maps 0).2 v lt
    cases counted.symm.trans counted₁
    rw [← reads.esb] at factor behind
    rw [bmap_of_not_located factor lt behind] at mapped
    exact (Option.some.inj mapped).symm
  · intro behind
    refine ⟨fs', counted, fun iIno => ⟨?_, fun v lt => ?_⟩⟩
    · rw [fillMapping, counted]
      rfl
    rw [← sameEntry]
    rw [← reads.esb] at factor le behind
    by_cases isLocated : v < fs'.esb.located
    · exact bmap_of_located (reads.reliable reliable) factor (indexed.reads reads) le lt isLocated
        iIno
    · rw [sameEntry, behind v lt (Nat.not_lt.mp isLocated)]
      exact bmap_of_not_located factor lt (Nat.not_lt.mp isLocated) iIno

end Fs

end

/-! ## Cards made of words -/

/-- A volume whose blocks hold given words. -/
def wordVolume (esb : Geometry) (word : ℕ → ℕ → ℕ) : Fs where
  esb
  disk :=
    { sector := fun id k => writeLE zeros 0 4 (word ((id - esb.sBase) / esb.sectsPerBlock)
        ((id - esb.sBase) % esb.sectsPerBlock * 128 + k / 4)) (k % 4)
      fault := fun _ _ => 0
      transfers := 0
      written := [] }
  dpttable := zeros
  totalUnallocInodes := 0
  totalUnallocBlocks := 0
  sbBuf := zeros
  bitmap := ⟨minusOne32, false, zeros, zeros⟩
  itable := ⟨minusOne32, minusOne32, false, zeros⟩

theorem word_wordVolume {esb : Geometry} {word : ℕ → ℕ → ℕ} {block i : ℕ}
    (onCard : esb.OnCard block) (lt : i < esb.pointersPerBlock)
    (small : word block i < 4294967296) : (wordVolume esb word).word block i = word block i := by
  have whole := esb.sBlksize_eq
  have bytes : ∀ r < 4, esb.blockBytes (wordVolume esb word).disk block (4 * i + r) =
      write32 zeros 0 (word block i) (0 + r) := by
    intro r rLt
    have inside : 4 * i + r < esb.sBlksize := by
      unfold ExtSb.pointersPerBlock at lt
      omega
    have sector : (4 * i + r) / sectorBytes < esb.sectsPerBlock :=
      Nat.div_lt_of_lt_mul (whole ▸ inside)
    have start : esb.blockSector block + (4 * i + r) / sectorBytes - esb.sBase =
        esb.sectsPerBlock * block + (4 * i + r) / sectorBytes := by
      rw [onCard.blockSector.1, Nat.mul_comm block, Nat.add_assoc, Nat.add_sub_cancel_left]
    have isBlock : (esb.sectsPerBlock * block + (4 * i + r) / sectorBytes) / esb.sectsPerBlock =
        block := by
      rw [Nat.mul_add_div ExtSb.sectsPerBlock_pos, Nat.div_eq_of_lt sector, Nat.add_zero]
    have isSector : (esb.sectsPerBlock * block + (4 * i + r) / sectorBytes) % esb.sectsPerBlock =
        (4 * i + r) / sectorBytes := by
      rw [Nat.mul_add_mod, Nat.mod_eq_of_lt sector]
    have isWord : (4 * i + r) / sectorBytes * 128 + (4 * i + r) % sectorBytes / 4 = i := by
      unfold sectorBytes
      omega
    have isByte : (4 * i + r) % sectorBytes % 4 = 0 + r := by
      unfold sectorBytes
      omega
    unfold ExtSb.blockBytes Disk.bytesFrom wordVolume
    dsimp only
    rw [start, isBlock, isSector, isWord, isByte]
  have read : (wordVolume esb word).word block i = read32 (write32 zeros 0 (word block i)) 0 :=
    readLE_shift bytes
  rw [read, read32_write32_same, Nat.mod_eq_of_lt small]

theorem Fs.indexed_wordVolume (esb : Geometry) {word : ℕ → ℕ → ℕ} {pointers : ℕ → ℕ} {b : ℕ}
    (small : ∀ block i, word block i < 4294967296)
    (direct : ∀ dp < 12, (pointers dp ≠ 0 ↔ dp < b))
    (indirect : ∀ k < 3, HoldsFirst word esb.pointersPerBlock esb.OnCard (k + 1)
      (pointers (12 + k))
      (min (b - pagesInFront esb.pointersPerBlock k) (esb.pointersPerBlock ^ (k + 1)))) :
    (wordVolume esb word).Indexed pointers b where
  direct := direct
  indirect k lt := (indirect k lt).congr fun block onCard i inside =>
    (word_wordVolume onCard inside (small block i)).symm

/-- One group of blocks of 1024 bytes, or of larger ones. -/
def oneGroupOf (factor : ℕ) : Geometry where
  sBase := 63
  blocksizeFactor := factor
  totalGroups := 1
  blocksPerGroup := 8192
  inodesPerGroup := 128
  inodeSize := 128

theorem onCard_oneGroupOf {factor block : ℕ} (le : factor ≤ 3) (lt : block < 5000) :
    (oneGroupOf factor).OnCard block := by
  have power : 2 ^ factor ≤ 8 := Nat.pow_le_pow_right (by decide) le
  have count := Nat.mul_le_mul (show block + 1 ≤ 5000 from lt) (Nat.mul_le_mul_left 2 power)
  show 63 + (block + 1) * (oneGroupOf factor).sectsPerBlock ≤ 4294967296
  rw [ExtSb.sectsPerBlock_eq]
  exact (Nat.add_le_add_left count 63).trans (by decide)

/-- The words of an index block that holds the number of one block. -/
def thirteenWords (block i : ℕ) : ℕ := if block = 40 ∧ i = 0 then 77 else 0

/-- The pointers of a file of thirteen blocks. -/
def thirteenPointers (dp : ℕ) : ℕ := if dp < 12 then 100 + dp else if dp = 12 then 40 else 0

theorem indexed_thirteen :
    (wordVolume (oneGroupOf 0) thirteenWords).Indexed thirteenPointers 13 := by
  apply Fs.indexed_wordVolume
  · intro block i
    unfold thirteenWords
    split <;> decide
  · intro dp lt
    have isThere : thirteenPointers dp = 100 + dp := if_pos lt
    omega
  · intro k lt
    match k, lt with
    | 0, _ =>
        exact .of_first (by decide) (onCard_oneGroupOf (by decide) (by decide)) (by decide)
          (iff_of_true (by decide) (by decide)) fun i _ notFirst =>
            if_neg fun here => notFirst here.2
    | 1, _ => exact .nothing
    | 2, _ => exact .nothing

theorem countsAndMaps_iff_thirteen :
    (wordVolume (oneGroupOf 0) thirteenWords).CountsAndMaps thirteenPointers 13 := by
  apply (Fs.countsAndMaps_iff (fun _ _ _ => rfl) (by decide) indexed_thirteen (by decide)
    (by decide)).mpr
  intro v lt behind
  have located : 13 ≤ (wordVolume (oneGroupOf 0) thirteenWords).esb.located := by decide
  omega

/-- The words of the index blocks of a file of 4196365 blocks of 8192 bytes: the blocks below the
first two index blocks are all there, and one is below the third. -/
def hugeWords (block i : ℕ) : ℕ :=
  if 2048 ≤ i then 0
  else if block = 1001 then 5000 + i
  else if block = 1002 then 2000 + i
  else if 2000 ≤ block ∧ block < 4048 then 10000 + (block - 2000) * 2048 + i
  else if block = 1003 ∧ i = 0 then 1004
  else if block = 1004 ∧ i = 0 then 1005
  else if block = 1005 ∧ i = 0 then 1006
  else 0

/-- The pointers of that file. -/
def hugePointers (dp : ℕ) : ℕ := if dp < 15 then 989 + dp else 0

theorem holdsFirst_hugeWords : ∀ k < 3,
    HoldsFirst hugeWords (oneGroupOf 3).pointersPerBlock (oneGroupOf 3).OnCard (k + 1)
      (hugePointers (12 + k)) (min (4196365 - pagesInFront (oneGroupOf 3).pointersPerBlock k)
        ((oneGroupOf 3).pointersPerBlock ^ (k + 1))) := by
  have size : (oneGroupOf 3).pointersPerBlock = 2048 := by decide
  have onCard {block : ℕ} (lt : block < 5000) := onCard_oneGroupOf (le_refl 3) lt
  rw [size]
  have full : ∀ block < 4048, (block = 1001 ∨ 2000 ≤ block) →
      HoldsFirst hugeWords 2048 (oneGroupOf 3).OnCard 1 block (2048 ^ 1) := by
    intro block lt isData
    refine .of_full (by decide) (onCard (by omega)) (by omega) fun i iLt => ?_
    refine iff_of_true ?_ (by decide)
    unfold hugeWords
    rw [if_neg (Nat.not_le.mpr iLt)]
    rcases isData with rfl | data
    · rw [if_pos rfl]
      omega
    · rw [if_neg (by omega), if_neg (by omega), if_pos ⟨data, lt⟩]
      omega
  intro k lt
  match k, lt with
  | 0, _ => exact full 1001 (by decide) (Or.inl rfl)
  | 1, _ =>
      refine .of_full (by decide) (onCard (by decide)) (by decide) fun i iLt => ?_
      have word : hugeWords 1002 i = 2000 + i := by
        unfold hugeWords
        rw [if_neg (Nat.not_le.mpr iLt), if_neg (by decide), if_pos rfl]
      rw [show hugePointers (12 + 1) = 1002 from rfl, word]
      exact full (2000 + i) (by omega) (Or.inr (Nat.le_add_right _ _))
  | 2, _ =>
      have rest : ∀ block, 1003 ≤ block → block < 2000 → ∀ i < 2048, i ≠ 0 →
          hugeWords block i = 0 := by
        intro block lower upper i iLt notFirst
        unfold hugeWords
        rw [if_neg (Nat.not_le.mpr iLt), if_neg (by omega), if_neg (by omega), if_neg (by omega),
          if_neg (fun here => notFirst here.2), if_neg (fun here => notFirst here.2),
          if_neg (fun here => notFirst here.2)]
      refine .of_first (by decide) (onCard (by decide)) (by decide) ?_
        (rest 1003 (by decide) (by decide))
      refine .of_first (by decide) (onCard (by decide)) (by decide) ?_
        (rest 1004 (by decide) (by decide))
      refine .of_first (by decide) (onCard (by decide)) (by decide) ?_
        (rest 1005 (by decide) (by decide))
      exact iff_of_true (by decide) (by decide)

theorem hugeWords_lt (block i : ℕ) : hugeWords block i < 4294967296 := by
  unfold hugeWords
  repeat' split
  all_goals omega

theorem indexed_huge :
    (wordVolume (oneGroupOf 3) hugeWords).Indexed hugePointers 4196365 :=
  Fs.indexed_wordVolume _ hugeWords_lt
    (fun dp lt => by
      have isThere : hugePointers dp = 989 + dp := if_pos (by omega)
      omega)
    holdsFirst_hugeWords

/-- A file of 4196365 blocks of 8192 bytes has its last block below the third index block, where
`get_location` has no place for any. -/
theorem not_countsAndMaps : ¬∀ (fs : Fs) (pointers : ℕ → ℕ) (b : ℕ), fs.disk.Reliable →
    fs.esb.blocksizeFactor ≤ 21 → fs.Indexed pointers b →
    b ≤ pagesInFront fs.esb.pointersPerBlock 3 → b < 4294967296 → fs.CountsAndMaps pointers b := by
  intro always
  have reliable : (wordVolume (oneGroupOf 3) hugeWords).disk.Reliable := fun _ _ _ => rfl
  rcases always _ _ _ reliable (by decide) indexed_huge (by decide) (by decide) with
    ⟨fs', counted, maps⟩
  rcases Fs.countBlocks_spec reliable indexed_huge (by decide) (by decide) with
    ⟨fs₁, counted₁, reads⟩
  cases counted.symm.trans counted₁
  have mapped := (maps 0).2 4196364 (by decide)
  have behind : fs'.esb.located ≤ 4196364 := by
    rw [reads.esb]
    decide
  have factor : fs'.esb.blocksizeFactor ≤ 21 := by
    rw [reads.esb]
    decide
  rw [Fs.bmap_of_not_located factor (by decide) behind] at mapped
  have word {block : ℕ} (lt : block < 5000) : (wordVolume (oneGroupOf 3) hugeWords).word block 0 =
      hugeWords block 0 :=
    word_wordVolume (onCard_oneGroupOf (le_refl 3) lt) (by decide) (hugeWords_lt block 0)
  have lastEntry : (wordVolume (oneGroupOf 3) hugeWords).entry hugePointers 4196364 = 1006 := by
    rw [Fs.entry_eq (by decide : 2 < 3) (by decide) (by decide)]
    have top := word (by decide : 1003 < 5000)
    have middle := word (by decide : 1004 < 5000)
    have bottom := word (by decide : 1005 < 5000)
    change (wordVolume (oneGroupOf 3) hugeWords).word
      ((wordVolume (oneGroupOf 3) hugeWords).word
        ((wordVolume (oneGroupOf 3) hugeWords).word 1003 0) 0) 0 = 1006
    rw [top, show hugeWords 1003 0 = 1004 by decide, middle,
      show hugeWords 1004 0 = 1005 by decide, bottom]
    decide
  rw [lastEntry] at mapped
  exact absurd mapped (by decide)

end Ninix.Ext2
