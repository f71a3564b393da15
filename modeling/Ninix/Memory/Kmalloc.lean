import Mathlib.Data.Nat.Bitwise
import Ninix.Memory.BuddySplit
import Ninix.Memory.SlabPages

/-!
# Large requests

A request for more than the largest object of the slab system goes to `alloc_pages`, with its size
in pages. `alloc_pages` returns 0 if it finds no block, and `kmalloc` makes an address of the
kernel's of this as of any other result. A caller that checks the result against 0 never learns of
a request that failed.
-/

namespace Ninix.Memory

/-- `UPPER_ALLIGN` -/
def upperAllign (x y : ℕ) : ℕ := u32 (x + (y - 1)) &&& (minusOne32 - (y - 1))

/-- The result of `alloc_pages`, an address. -/
def pagesAddress (found : Option (ℕ × ℕ)) : ℕ :=
  found.elim 0 fun (page, _) => u32 (page * pageBytes)

/-- `kmalloc`, where `slabAlloc` is `slab_alloc` for the cache with an index; `none` is the endless
loop without a cache. -/
def kmalloc (slabAlloc : ℕ → Buddy → Option (ℕ × Buddy)) (size : ℕ) (buddy : Buddy) :
    Option (ℕ × Buddy) :=
  if size = 0 then some (0, buddy)
  else if objsize (pageShift - 1) < size then
    let size := upperAllign size pageBytes
    (buddy.allocCount (size / pageBytes)).map fun (found, buddy) =>
      (kernelEntry ||| pagesAddress found, buddy)
  else
    let index := getSlab size
    if pageShift ≤ index then none
    else (slabAlloc index buddy).map fun (object, buddy) => (kernelEntry ||| object, buddy)

/-- The pages of a request. -/
def pagesFor (size : ℕ) : ℕ := (size + 4095) / 4096

/-- The free lists are well formed, and their blocks lie in the memory that the kernel addresses. -/
structure Addressed (buddy : Buddy) (lists : ℕ → List ℕ) : Prop extends FreeLists buddy lists where
  inside : ∀ order ≤ buddyMaxOrder, ∀ page ∈ lists order, page + 2 ^ order ≤ buddy.buddyEndPfn
  memory : buddy.buddyEndPfn ≤ 524288

/-- The result is 0 or the kernel's address of a block of free frames, at least as many as were
asked for, that are allocated now. It is 0 exactly if `alloc_pages` finds no block. -/
def Mallocs (slabAlloc : ℕ → Buddy → Option (ℕ × Buddy)) (buddy : Buddy) (lists : ℕ → List ℕ)
    (size : ℕ) : Prop :=
  ∃ res buddy', kmalloc slabAlloc size buddy = some (res, buddy') ∧
    (res = 0 ∨ ∃ page level lists', res = kernelEntry + page * pageBytes ∧
      pagesFor size ≤ 2 ^ level ∧ buddy.Serves buddy' lists lists' level page) ∧
    (res = 0 ↔ ∃ buddy', buddy.allocCount (pagesFor size) = some (none, buddy'))

/-- A free list has blocks of so many pages. -/
def HasBlock (lists : ℕ → List ℕ) (count : ℕ) : Prop :=
  ∃ order ≤ buddyMaxOrder, count ≤ 2 ^ order ∧ lists order ≠ []

variable {buddy : Buddy} {lists : ℕ → List ℕ} {size count level : ℕ}
  {slabAlloc : ℕ → Buddy → Option (ℕ × Buddy)}

/-- The search finds the least level of blocks with so many pages. -/
theorem levelFor_spec {left : ℕ} (enough : count ≤ 2 ^ (level + left)) :
    ∃ least, Buddy.levelFor count level (left + 1) = some least ∧ count ≤ 2 ^ least ∧
      ∀ k, level ≤ k → count ≤ 2 ^ k → least ≤ k := by
  induction left generalizing level with
  | zero =>
      rw [Nat.add_zero] at enough
      refine ⟨level, ?_, enough, fun k le _ => le⟩
      rw [Buddy.levelFor, if_neg (Nat.not_lt.mpr enough)]
  | succ left ih =>
      rw [Buddy.levelFor]
      by_cases small : 2 ^ level < count
      · rw [← Nat.add_assoc, Nat.add_right_comm] at enough
        rcases ih enough with ⟨least, found, fits, isLeast⟩
        refine ⟨least, by rw [if_pos small, found], fits, fun k le fitsToo => ?_⟩
        apply isLeast k (Nat.lt_of_le_of_ne le ?_) fitsToo
        rintro rfl
        exact absurd fitsToo (Nat.not_le.mpr small)
      · exact ⟨level, if_neg small, Nat.not_lt.mp small, fun k le _ => le⟩

/-- `alloc_pages` serves a request if there is a block, and otherwise changes nothing. -/
theorem allocCount_serves (free : FreeLists buddy lists) (positive : count ≠ 0)
    (small : count ≤ 2 ^ 31) :
    (¬HasBlock lists count ∧ buddy.allocCount count = some (none, buddy)) ∨
      (HasBlock lists count ∧ ∃ page least buddy' lists',
        buddy.allocCount count = some (some (page, least), buddy') ∧ count ≤ 2 ^ least ∧
        buddy.Serves buddy' lists lists' least page) := by
  have enough : count ≤ 2 ^ (0 + 31) := by simpa using small
  rcases levelFor_spec enough with ⟨least, found, fits, isLeast⟩
  rw [Buddy.allocCount, if_neg positive, found]
  simp only [Option.bind_eq_bind, Option.bind_some]
  rcases Buddy.allocPages_serves free least with ⟨allEmpty, ran⟩ | ⟨notEmpty, page, buddy', lists',
    ran, serves⟩
  · refine Or.inl ⟨?_, by rw [ran]; rfl⟩
    rintro ⟨order, le, fitsToo, nonempty⟩
    exact nonempty (allEmpty order (isLeast order (Nat.zero_le _) fitsToo) le)
  · refine Or.inr ⟨?_, page, least, buddy', lists', by rw [ran]; rfl, fits, serves⟩
    rcases serves.smallest with ⟨order, le, levelLe, mem, _⟩
    exact ⟨order, le, fits.trans (Nat.pow_le_pow_right (by decide) levelLe),
      List.ne_nil_of_mem mem⟩

/-- The code's number of pages, unless the size wraps when it is rounded up. -/
theorem upperAllign_pages (small : size + 4095 < 4294967296) :
    upperAllign size pageBytes / pageBytes = pagesFor size := by
  have mask : (minusOne32 - (pageBytes - 1)) / 2 ^ 12 = 2 ^ 20 - 1 := by decide
  have shifted : (size + 4095) / 2 ^ 12 < 2 ^ 20 := by omega
  change (u32 (size + 4095) &&& (minusOne32 - (pageBytes - 1))) / 2 ^ 12 = (size + 4095) / 2 ^ 12
  rw [u32_of_lt small, Nat.and_div_two_pow, mask, Nat.and_two_pow_sub_one_eq_mod,
    Nat.mod_eq_of_lt shifted]

/-- A size that wraps is one of no pages. -/
theorem upperAllign_wraps (large : 4294967296 ≤ size + 4095) (fits : size < 4294967296) :
    upperAllign size pageBytes / pageBytes = 0 := by
  have wrapped : u32 (size + 4095) < 4096 := by
    unfold u32
    omega
  exact Nat.div_eq_of_lt (Nat.lt_of_le_of_lt Nat.and_le_left wrapped)

theorem kernelEntry_or {address : ℕ} (small : address < kernelEntry) :
    kernelEntry ||| address = kernelEntry + address :=
  (Nat.two_pow_add_eq_or_of_lt (i := 31) small 1).symm

theorem kmalloc_large (large : objsize (pageShift - 1) < size) :
    kmalloc slabAlloc size buddy =
      (buddy.allocCount (upperAllign size pageBytes / pageBytes)).map fun (found, buddy) =>
        (kernelEntry ||| pagesAddress found, buddy) := by
  rw [kmalloc, if_neg (Nat.ne_of_gt (Nat.zero_lt_of_lt large)), if_pos large]

theorem allocCount_none (free : FreeLists buddy lists) (large : objsize (pageShift - 1) < size)
    (fits : size < 4294967296) (hasNone : ¬HasBlock lists (pagesFor size)) :
    buddy.allocCount (pagesFor size) = some (none, buddy) := by
  have positive : pagesFor size ≠ 0 := by
    unfold pagesFor
    omega
  have small : pagesFor size ≤ 2 ^ 31 := by
    unfold pagesFor
    omega
  rcases allocCount_serves free positive small with ⟨_, ran⟩ | ⟨has, _⟩
  · exact ran
  · exact absurd has hasNone

/-- Where there is no block, the result is an address all the same. -/
theorem kmalloc_none (free : FreeLists buddy lists) (large : objsize (pageShift - 1) < size)
    (fits : size < 4294967296) (hasNone : ¬HasBlock lists (pagesFor size)) :
    kmalloc slabAlloc size buddy = some (kernelEntry, buddy) := by
  rw [kmalloc_large large]
  by_cases wraps : size + 4095 < 4294967296
  · rw [upperAllign_pages wraps, allocCount_none free large fits hasNone]
    rfl
  · rw [upperAllign_wraps (Nat.not_lt.mp wraps) fits]
    rfl

/-- The bytes of the largest block. -/
abbrev kmallocMost : ℕ := 65536

/-- The bytes that a request gets while there is memory. For one that is larger than all blocks
`kmalloc` returns the address at which the kernel itself begins, and for none at all 0. -/
def kmallocRoom (size : ℕ) : ℕ := if size ≤ kmallocMost then size else 0

theorem kmallocMost_eq : kmallocMost = 2 ^ buddyMaxOrder * pageBytes := rfl

/-- A request that is larger than all blocks is answered with the beginning of the kernel. -/
theorem kmalloc_above (free : FreeLists buddy lists) (above : kmallocMost < size)
    (fits : size < 4294967296) : kmalloc slabAlloc size buddy = some (kernelEntry, buddy) := by
  have large : objsize (pageShift - 1) < size := lt_trans (by decide) above
  refine kmalloc_none free large fits ?_
  rintro ⟨order, le, fitsOrder, _⟩
  have small : pagesFor size ≤ 16 := fitsOrder.trans (Nat.pow_le_pow_right (by decide) le)
  unfold kmallocMost at above
  unfold pagesFor at small
  omega

theorem kmallocRoom_of_le {size : ℕ} (le : size ≤ kmallocMost) : kmallocRoom size = size :=
  if_pos le

theorem kmallocRoom_of_lt {size : ℕ} (lt : kmallocMost < size) : kmallocRoom size = 0 :=
  if_neg (Nat.not_le.mpr lt)

/-- A large request is served as it should be exactly if there is a block for it. -/
theorem mallocs_iff (addressed : Addressed buddy lists) (large : objsize (pageShift - 1) < size)
    (fits : size < 4294967296) :
    Mallocs slabAlloc buddy lists size ↔ HasBlock lists (pagesFor size) := by
  constructor
  · rintro ⟨res, buddy', ran, _, zero⟩
    by_contra hasNone
    have nothing := allocCount_none addressed.toFreeLists large fits hasNone
    cases ran.symm.trans (kmalloc_none addressed.toFreeLists large fits hasNone)
    exact absurd (zero.mpr ⟨buddy, nothing⟩) (by decide)
  · intro has
    have count : pagesFor size ≤ 16 := by
      rcases has with ⟨order, le, fitsOrder, _⟩
      exact fitsOrder.trans (Nat.pow_le_pow_right (by decide) le)
    have noWrap : size + 4095 < 4294967296 := by
      unfold pagesFor at count
      omega
    have positive : pagesFor size ≠ 0 := by
      unfold pagesFor
      omega
    rcases allocCount_serves addressed.toFreeLists positive (count.trans (by decide)) with
      ⟨hasNone, _⟩ | ⟨_, page, least, buddy', lists', ran, fitsLeast, serves⟩
    · exact absurd has hasNone
    · have below : page < 524288 := by
        rcases serves.smallest with ⟨order, le, _, mem, _⟩
        have inside := addressed.inside order le page mem
        have memory := addressed.memory
        have somePages := Nat.two_pow_pos order
        omega
      have address : kernelEntry ||| pagesAddress (some (page, least)) =
          kernelEntry + page * pageBytes := by
        have small : page * pageBytes < kernelEntry := by
          unfold pageBytes kernelEntry
          omega
        have isAddress : pagesAddress (some (page, least)) = page * pageBytes :=
          u32_of_lt (small.trans (by decide))
        rw [isAddress, kernelEntry_or small]
      refine ⟨_, buddy', ?_, Or.inr ⟨page, least, lists', address, fitsLeast, serves⟩, ?_⟩
      · rw [kmalloc_large large, upperAllign_pages noWrap, ran]
        rfl
      · rw [address, ran]
        constructor
        · intro isZero
          unfold kernelEntry at isZero
          omega
        · rintro ⟨_, nothing⟩
          cases nothing

theorem oneBlock_addressed :
    Addressed Buddy.oneBlock fun order => if order = 4 then [16] else [] where
  toFreeLists := Buddy.oneBlock_freeLists
  inside order _ page mem := by
    split at mem
    · subst order
      rw [List.mem_singleton.mp mem]
      decide
    · cases mem
  memory := by decide

theorem mallocs_iff_oneBlock :
    Mallocs (fun _ _ => none) Buddy.oneBlock (fun order => if order = 4 then [16] else []) 4097 :=
  (mallocs_iff oneBlock_addressed (by decide) (by decide)).mpr ⟨4, le_rfl, by decide, by decide⟩

/-- No block has 17 pages. -/
theorem not_mallocs_seventeen : ¬∀ slabAlloc buddy lists, Addressed buddy lists →
    ∀ size, objsize (pageShift - 1) < size → size < 4294967296 →
      Mallocs slabAlloc buddy lists size := by
  intro always
  rcases always (fun _ _ => none) _ _ oneBlock_addressed 65537 (by decide) (by decide) with
    ⟨res, buddy', ran, _, zero⟩
  have hasNone : ¬HasBlock (fun order => if order = 4 then [16] else []) (pagesFor 65537) := by
    rintro ⟨order, le, fitsOrder, _⟩
    have small : pagesFor 65537 ≤ 16 := fitsOrder.trans (Nat.pow_le_pow_right (by decide) le)
    exact absurd small (by decide)
  have nothing := allocCount_none oneBlock_addressed.toFreeLists (by decide) (by decide) hasNone
  cases ran.symm.trans
    (kmalloc_none oneBlock_addressed.toFreeLists (by decide) (by decide) hasNone)
  exact absurd (zero.mpr ⟨_, nothing⟩) (by decide)

end Ninix.Memory
