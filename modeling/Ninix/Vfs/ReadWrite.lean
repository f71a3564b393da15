import Mathlib.Data.List.GetD
import Ninix.Driver.Disk
import Ninix.Vfs.PageContent

/-!
# Reading and writing files

`generic_file_read` and `generic_file_write` go through the pages of a file, with a first page
that they begin in and a last one that they end in. `bmap` gives the block of a page, and makes
pages when the file has fewer; a write that makes a file longer notes its size in the directory
first.
-/

namespace Ninix.Vfs

open ByteBuffer

/-- A file that is open: its inode `ino`, with `parent` when the inode has a dentry with a
parent; the blocks that `bmap` gives for its pages; its position; and the cache of pages. -/
structure OpenFile where
  ino : ℕ
  parent : Bool
  iSize : ℕ
  aPage : List ℕ
  fPos : ℕ
  cache : PageCache Bytes

/-- What the file system does: its size of blocks; the blocks it makes pages from, given the
blocks there are and how many pages are wanted; and what `write_inode` does to the cache, with
whether it fails. -/
structure FileHooks where
  iBlksize : ℕ
  createPage : List ℕ → ℕ → Option (List ℕ)
  writeInode : PageCache Bytes → Option (Bool × PageCache Bytes)

/-- How things go for a page of a file: whether memory is there and the block can be read, and how
the write-back of a page evicted for it goes. -/
structure PageIo where
  ready : Bool
  evict : WriteBlock Bytes

namespace OpenFile

variable (hooks : FileHooks) (io : ℕ → PageIo) (f : OpenFile)

/-- `fat32_bmap` and `ext2_bmap` -/
def bmap (vpn : ℕ) : ℕ × OpenFile :=
  if vpn ≥ f.aPage.length then
    match hooks.createPage f.aPage (vpn - f.aPage.length + 1) with
    | none => (minusOne32, f)
    | some blocks =>
        let f := { f with aPage := f.aPage ++ blocks }
        (f.aPage.getD vpn minusOne32, f)
  else (f.aPage.getD vpn minusOne32, f)

/-- Find the page of a logical page, if there is one. -/
def findPage (vpn : ℕ) : Option (Option ℕ × OpenFile) :=
  let (ppn, f) := f.bmap hooks vpn
  if ppn = minusOne32 then some (none, f)
  else
    (f.cache.generalFindPage ppn f.ino (io vpn).ready (io vpn).evict).map fun (page, cache) =>
      (page, { f with cache })

/-- The loop of `generic_file_read` from `vpn` on, with its number of rounds; `len` bytes have
been read. -/
def readLoop (beginPage endPage endLast : ℕ) :
    ℕ → ℕ → ℕ → Bytes → OpenFile → Option (ℕ × Bytes × OpenFile)
  | 0, _, len, buf, f => some (len, buf, f)
  | rounds + 1, vpn, len, buf, f =>
      let beginOff := if vpn = beginPage then f.fPos % hooks.iBlksize else 0
      let endOff := if vpn = endPage then endLast % hooks.iBlksize else hooks.iBlksize - 1
      (f.findPage hooks io vpn).bind fun
        | (none, f) => some (len, buf, f)
        | (some page, f) =>
            (f.cache.pages page).bind fun page =>
              let count := sub32 (endOff + 1) beginOff
              readLoop beginPage endPage endLast rounds (vpn + 1) (len + count)
                (blit buf len page.pData beginOff count) f

/-- `generic_file_read`: how many bytes are read, and the buffer -/
def genericFileRead (buf : Bytes) (count : ℕ) : Option (ℕ × Bytes × OpenFile) :=
  let beginPage := f.fPos / hooks.iBlksize
  let last := sub32 (if u32 (f.fPos + count) > f.iSize then f.iSize else u32 (f.fPos + count)) 1
  let endPage := last / hooks.iBlksize
  (readLoop hooks io beginPage endPage last (endPage + 1 - beginPage) beginPage 0 buf f).map
    fun (len, buf, f) => (u32 len, buf, { f with fPos := u32 (f.fPos + len) })

/-- The loop of `generic_file_write`. -/
def writeLoop (buf : Bytes) (beginPage endPage endLast : ℕ) :
    ℕ → ℕ → ℕ → OpenFile → Option (ℕ × OpenFile)
  | 0, _, len, f => some (len, f)
  | rounds + 1, vpn, len, f =>
      let beginOff := if vpn = beginPage then f.fPos % hooks.iBlksize else 0
      let endOff := if vpn = endPage then endLast % hooks.iBlksize else hooks.iBlksize - 1
      (f.findPage hooks io vpn).bind fun
        | (none, f) => some (len, f)
        | (some p, f) =>
            (f.cache.pages p).bind fun page =>
              let count := sub32 (endOff + 1) beginOff
              (f.cache.modify p (blit page.pData beginOff buf len count)).bind fun cache =>
                writeLoop buf beginPage endPage endLast rounds (vpn + 1) (len + count)
                  { f with cache }

/-- What `generic_file_write` does when the file becomes longer, and whether it goes on. -/
def enlarge (size : ℕ) : Option (Bool × OpenFile) :=
  if f.parent then
    (hooks.writeInode f.cache).map fun (err, cache) => (!err, { f with iSize := size, cache })
  else some (false, f)

/-- `generic_file_write`: how many bytes are written -/
def genericFileWrite (buf : Bytes) (count : ℕ) : Option (ℕ × OpenFile) :=
  let beginPage := f.fPos / hooks.iBlksize
  let last := sub32 (u32 (f.fPos + count)) 1
  let endPage := last / hooks.iBlksize
  let enlarged :=
    if u32 (f.fPos + count) > f.iSize then f.enlarge hooks (u32 (f.fPos + count))
    else some (true, f)
  enlarged.bind fun (goesOn, f) =>
    if goesOn then
      (writeLoop hooks io buf beginPage endPage last (endPage + 1 - beginPage) beginPage 0 f).map
        fun (len, f) => (u32 len, { f with fPos := u32 (f.fPos + len) })
    else some (0, f)

/-! ## What a file contains -/

/-- What a page of a file contains: its page in the cache, or its block. -/
def pageOf (v : ℕ) : Bytes := f.cache.pageData f.ino (f.aPage.getD v minusOne32)

/-- A byte of a file. -/
def content (i : ℕ) : UInt8 := f.pageOf (i / hooks.iBlksize) (i % hooks.iBlksize)

/-- The file is in order: its pages have blocks of their own, among those that are or may become
its own. -/
structure Ok (mine : ℕ → Prop) (f : OpenFile) : Prop where
  cache : f.cache.Sound
  nodup : f.aPage.Nodup
  blocks : ∀ l ∈ f.aPage, mine l
  owned : ∀ l, mine l → f.cache.Owned f.ino l

/-- The blocks of a file are left alone. -/
structure KeepsFile (mine : ℕ → Prop) (ino : ℕ) (before after : PageCache Bytes) : Prop where
  sound : after.Sound
  iSb : after.iSb = before.iSb
  holds : ∀ l, mine l → ∀ data, before.Holds (before.iSb ino) l data →
    after.Holds (before.iSb ino) l data
  owned : ∀ l, mine l → after.Owned ino l

/-- The file system gives each page up to the last one its own block, when the file has the blocks
`aPage` or more. -/
def Creates (hooks : FileHooks) (mine : ℕ → Prop) (aPage : List ℕ) (pages : ℕ) : Prop :=
  ∀ more count, 0 < count → aPage <+: more → more.Nodup → (∀ l ∈ more, mine l) →
    more.length + count ≤ pages → ∃ blocks, hooks.createPage more count = some blocks ∧
      blocks.length = count ∧ (more ++ blocks).Nodup ∧ ∀ l ∈ blocks, mine l

/-- A page is one of the file, or the next that the file system gives it. -/
def Available (hooks : FileHooks) (mine : ℕ → Prop) (aPage : List ℕ) (vpn : ℕ) : Prop :=
  vpn < aPage.length ∨ vpn = aPage.length ∧ ∃ pages, vpn < pages ∧ Creates hooks mine aPage pages

/-- Memory is there and all reads and writes of blocks succeed. -/
def Succeeds (io : ℕ → PageIo) : Prop := ∀ vpn, (io vpn).ready = true ∧ (io vpn).evict = .done

section

variable {hooks io f} {mine : ℕ → Prop} {pages vpn : ℕ}

theorem Creates.mono {aPage more : List ℕ} (creates : Creates hooks mine aPage pages)
    (isPrefix : aPage <+: more) : Creates hooks mine more pages :=
  fun most count some_ isPrefix' => creates most count some_ (isPrefix.trans isPrefix')

theorem Ok.mine_getD (ok : f.Ok mine) (lt : vpn < f.aPage.length) :
    mine (f.aPage.getD vpn minusOne32) := by
  rw [List.getD_eq_getElem _ _ lt]
  exact ok.blocks _ (List.getElem_mem lt)

/-- The block of a page holds what the page contains. -/
theorem Ok.holds_pageOf (ok : f.Ok mine) (lt : vpn < f.aPage.length) :
    f.cache.Holds (f.cache.iSb f.ino) (f.aPage.getD vpn minusOne32) (f.pageOf vpn) :=
  ok.cache.holds_pageData (ok.owned _ (ok.mine_getD lt))

theorem Ok.pageOf_eq (ok : f.Ok mine) (lt : vpn < f.aPage.length) {data : Bytes}
    (holds : f.cache.Holds (f.cache.iSb f.ino) (f.aPage.getD vpn minusOne32) data) :
    f.pageOf vpn = data :=
  ok.cache.holds_unique (ok.holds_pageOf lt) holds

/-- `bmap` gives a page of the file, or makes the next one. -/
theorem bmap_spec (ok : f.Ok mine) (next : Available hooks mine f.aPage vpn) :
    ∃ aPage, f.bmap hooks vpn = (aPage.getD vpn minusOne32, { f with aPage }) ∧
      f.aPage <+: aPage ∧ aPage.length = max f.aPage.length (vpn + 1) ∧
        ({ f with aPage } : OpenFile).Ok mine := by
  unfold bmap
  by_cases beyond : vpn ≥ f.aPage.length
  · rcases next.resolve_left (Nat.not_lt.mpr beyond) with ⟨isNext, pages, lt, creates⟩
    rcases creates f.aPage (vpn - f.aPage.length + 1) (Nat.succ_pos _) (List.prefix_refl _)
      ok.nodup ok.blocks (by omega) with ⟨blocks, created, length, nodup, areMine⟩
    refine ⟨f.aPage ++ blocks, ?_, List.prefix_append .., ?_, ok.cache, nodup, ?_, ok.owned⟩
    · rw [if_pos beyond, created]
    · rw [List.length_append, length]
      omega
    · intro l mem
      exact (List.mem_append.mp mem).elim (ok.blocks l) (areMine l)
  · exact ⟨f.aPage, if_neg beyond, List.prefix_refl _, by omega, ok⟩

theorem getD_of_prefix {aPage more : List ℕ} (isPrefix : aPage <+: more)
    (lt : vpn < aPage.length) : more.getD vpn minusOne32 = aPage.getD vpn minusOne32 := by
  rcases isPrefix with ⟨rest, rfl⟩
  rw [List.getD_append _ _ _ _ lt]

/-- A page of a file is found, and the other pages contain what they did. -/
theorem findPage_spec (ok : f.Ok mine) (numbers : ∀ l, mine l → l ≠ minusOne32)
    (succeeds : Succeeds io) (next : Available hooks mine f.aPage vpn) :
    ∃ p page aPage cache, f.findPage hooks io vpn = some (some p, { f with aPage, cache }) ∧
      ({ f with aPage, cache } : OpenFile).Ok mine ∧ f.aPage <+: aPage ∧
      aPage.length = max f.aPage.length (vpn + 1) ∧
      cache.Caches p (cache.iSb f.ino) (aPage.getD vpn minusOne32) page ∧
      page.pData = ({ f with aPage, cache } : OpenFile).pageOf vpn ∧
      ∀ v < f.aPage.length, ({ f with aPage, cache } : OpenFile).pageOf v = f.pageOf v := by
  rcases bmap_spec ok next with ⟨aPage, bmapEq, isPrefix, length, okMade⟩
  have inside : vpn < aPage.length := by omega
  have isMine : mine (aPage.getD vpn minusOne32) := okMade.mine_getD inside
  rcases ok.cache.generalFindPage (ok.owned _ isMine) with
    ⟨p, page, cache, found, sound, same, isCached, mapping, data, owned⟩
  have okFound : ({ f with aPage, cache } : OpenFile).Ok mine :=
    ⟨sound, okMade.nodup, okMade.blocks, fun l isMine => owned l (ok.owned l isMine)⟩
  have kept (l : ℕ) (isMine : mine l) : cache.pageData f.ino l = f.cache.pageData f.ino l :=
    same.pageData_eq ok.cache sound (ok.owned l isMine) (okFound.owned l isMine)
  refine ⟨p, page, aPage, cache, ?_, okFound, isPrefix, length, same.iSb ▸ isCached, ?_,
    fun v lt => ?_⟩
  · simp only [findPage, bmapEq, numbers _ isMine, if_false, succeeds vpn, found, Option.map_some]
  · exact data.trans (kept _ isMine).symm
  · simp only [pageOf, getD_of_prefix isPrefix lt]
    exact kept _ (ok.mine_getD lt)

/-- Data put in the page of a file is what the page contains; the other pages stay. -/
theorem modify_spec (ok : f.Ok mine) {p : ℕ} {page : VfsPage Bytes} (inside : vpn < f.aPage.length)
    (isCached : f.cache.Caches p (f.cache.iSb f.ino) (f.aPage.getD vpn minusOne32) page)
    (data : Bytes) :
    ∃ cache, f.cache.modify p data = some cache ∧ ({ f with cache } : OpenFile).Ok mine ∧
      ({ f with cache } : OpenFile).pageOf vpn = data ∧
        ∀ v < f.aPage.length, v ≠ vpn → ({ f with cache } : OpenFile).pageOf v = f.pageOf v := by
  rcases ok.cache.modify isCached data with ⟨cache, modified, sound, iSb, holds, others, owned⟩
  have okModified : ({ f with cache } : OpenFile).Ok mine :=
    ⟨sound, ok.nodup, ok.blocks, fun l isMine => owned _ l (ok.owned l isMine)⟩
  refine ⟨cache, modified, okModified, ?_, fun v lt ne => ?_⟩
  · exact okModified.pageOf_eq inside (iSb ▸ holds)
  · have apart : f.aPage.getD v minusOne32 ≠ f.aPage.getD vpn minusOne32 := by
      rw [List.getD_eq_getElem _ _ lt, List.getD_eq_getElem _ _ inside]
      exact fun eq => ne ((ok.nodup.getElem_inj_iff).mp eq)
    have kept := others (f.cache.iSb f.ino) _ _ (fun eq => apart (Prod.mk.inj eq).2)
      (ok.holds_pageOf lt)
    exact okModified.pageOf_eq lt (iSb ▸ kept)

/-- The bytes from `start` up to `stop` are gone through, with the first page `vpn` of the pages
left and the position `done` reached. -/
structure Progress (size start stop vpn rounds done : ℕ) : Prop where
  positive : 0 < size
  started : start < stop
  left : vpn + rounds = (stop - 1) / size + 1
  since : start / size ≤ vpn
  ended : rounds = 0 → done = stop
  position : 0 < rounds → done = if vpn = start / size then start else vpn * size

namespace Progress

variable {size start stop rounds done : ℕ}

/-- Where a page is gone through, and how many bytes. -/
theorem round (progress : Progress size start stop vpn (rounds + 1) done)
    (small : stop < 4294967296) : vpn * size ≤ done ∧ done < (vpn + 1) * size ∧ done < stop ∧
      (if vpn = start / size then start % size else 0) = done - vpn * size ∧
      sub32 ((if vpn = (stop - 1) / size then (stop - 1) % size else size - 1) + 1)
        (done - vpn * size) = min stop ((vpn + 1) * size) - done := by
  rcases progress with ⟨positive, started, left, since, _, position⟩
  have isDone := position (Nat.succ_pos _)
  have split := Nat.div_add_mod' start size
  have splitStop := Nat.div_add_mod' (stop - 1) size
  have lt := Nat.mod_lt start positive
  have ltStop := Nat.mod_lt (stop - 1) positive
  have succ : (vpn + 1) * size = vpn * size + size := Nat.succ_mul vpn size
  have le : vpn ≤ (stop - 1) / size := by omega
  have leMul : vpn * size ≤ (stop - 1) / size * size := Nat.mul_le_mul_right size le
  have bounds : vpn * size ≤ done ∧ done < (vpn + 1) * size ∧ done < stop := by
    split at isDone
    · rename_i isFirst
      rw [← isFirst] at split
      omega
    · omega
  refine ⟨bounds.1, bounds.2.1, bounds.2.2, ?_, ?_⟩
  · split at isDone
    · rename_i isFirst
      rw [if_pos isFirst, isFirst]
      omega
    · rename_i notFirst
      rw [if_neg notFirst]
      omega
  · by_cases isLast : vpn = (stop - 1) / size
    · rw [if_pos isLast]
      rw [← isLast] at splitStop
      rw [sub32_of_le (by omega) (by omega)]
      omega
    · have before : vpn + 1 ≤ (stop - 1) / size := by omega
      have beforeMul := Nat.mul_le_mul_right size before
      rw [if_neg isLast, sub32_of_le (by omega) (by omega)]
      omega

/-- After a page the next one is gone through. -/
theorem succ (progress : Progress size start stop vpn (rounds + 1) done) :
    Progress size start stop (vpn + 1) rounds (min stop ((vpn + 1) * size)) := by
  rcases progress with ⟨positive, started, left, since, _, _⟩
  have splitStop := Nat.div_add_mod' (stop - 1) size
  have ltStop := Nat.mod_lt (stop - 1) positive
  refine ⟨positive, started, by omega, by omega, fun isLast => ?_, fun more => ?_⟩
  · have last : vpn = (stop - 1) / size := by omega
    have mul : (vpn + 1) * size = (stop - 1) / size * size + size := by rw [last, Nat.succ_mul]
    omega
  · rw [if_neg (by omega)]
    have before : vpn + 1 ≤ (stop - 1) / size := by omega
    have beforeMul := Nat.mul_le_mul_right size before
    omega

theorem first (positive : 0 < size) (started : start < stop) :
    Progress size start stop (start / size) ((stop - 1) / size + 1 - start / size) start := by
  have le : start / size ≤ (stop - 1) / size := Nat.div_le_div_right (by omega)
  exact ⟨positive, started, by omega, Nat.le_refl _, fun none => by omega,
    fun _ => (if_pos rfl).symm⟩

end Progress

/-- The bytes of a page with `count` of them replaced, as positions in the file. -/
theorem content_blit (hooks : FileHooks) {g : OpenFile} {old : Bytes} {buf : Bytes} {len count done : ℕ}
    (page : g.pageOf vpn = blit old (done - vpn * hooks.iBlksize) buf len count)
    (lower : vpn * hooks.iBlksize ≤ done) {i : ℕ} (here : i / hooks.iBlksize = vpn) :
    g.content hooks i =
      if done ≤ i ∧ i < done + count then buf (len + (i - done)) else old (i % hooks.iBlksize) := by
  have split := Nat.div_add_mod' i hooks.iBlksize
  rw [here] at split
  rw [content, here, page]
  split
  · rw [blit_inside (by omega) (by omega)]
    congr 1
    omega
  · rw [blit_outside (by omega)]

/-- The loop of a write puts the bytes of the buffer that are left into the file. -/
theorem writeLoop_spec (creates : Creates hooks mine f.aPage pages)
    (numbers : ∀ l, mine l → l ≠ minusOne32) (succeeds : Succeeds io) {buf : Bytes}
    {stop rounds len : ℕ} (small : stop < 4294967296)
    (enough : (stop - 1) / hooks.iBlksize < pages) (ok : f.Ok mine) (next : vpn ≤ f.aPage.length)
    (progress : Progress hooks.iBlksize f.fPos stop vpn rounds (f.fPos + len)) :
    ∃ aPage cache, writeLoop hooks io buf (f.fPos / hooks.iBlksize) ((stop - 1) / hooks.iBlksize)
        (stop - 1) rounds vpn len f = some (stop - f.fPos, { f with aPage, cache }) ∧
      ({ f with aPage, cache } : OpenFile).Ok mine ∧ f.aPage <+: aPage ∧
      (stop - 1) / hooks.iBlksize < aPage.length ∧
      (∀ i, f.fPos + len ≤ i → i < stop →
        ({ f with aPage, cache } : OpenFile).content hooks i = buf (i - f.fPos)) ∧
      ∀ i, i / hooks.iBlksize < f.aPage.length → ¬(f.fPos + len ≤ i ∧ i < stop) →
        ({ f with aPage, cache } : OpenFile).content hooks i = f.content hooks i := by
  induction rounds generalizing vpn len f with
  | zero =>
      have done := progress.ended rfl
      have left := progress.left
      refine ⟨f.aPage, f.cache, ?_, ok, List.prefix_refl _, by omega, fun i lower upper => by omega,
        fun _ _ _ => rfl⟩
      rw [writeLoop, ← done, Nat.add_sub_cancel_left]
  | succ rounds ih =>
      rcases progress.round small with ⟨lower, upper, before, beginOff, count⟩
      have left := progress.left
      have isNext : Available hooks mine f.aPage vpn :=
        next.lt_or_eq.imp_right fun eq => ⟨eq, pages, by omega, creates⟩
      rcases findPage_spec ok numbers succeeds isNext with
        ⟨p, page, aPage, cache, found, okFound, isPrefix, length, isCached, data, kept⟩
      have inside : vpn < aPage.length := by omega
      rcases modify_spec okFound inside isCached (blit page.pData
          (f.fPos + len - vpn * hooks.iBlksize) buf len
            (min stop ((vpn + 1) * hooks.iBlksize) - (f.fPos + len))) with
        ⟨cache', modified, okModified, changed, others⟩
      have reached : f.fPos + (len + (min stop ((vpn + 1) * hooks.iBlksize) - (f.fPos + len))) =
          min stop ((vpn + 1) * hooks.iBlksize) := by omega
      have nextProgress := progress.succ
      rw [← reached] at nextProgress
      rcases ih (f := { f with aPage, cache := cache' }) (creates.mono isPrefix)
        okModified (by simp only; omega) nextProgress with
        ⟨aPage', cache'', ran, okEnd, isPrefix', covered, written, rest⟩
      refine ⟨aPage', cache'', ?_, okEnd, isPrefix.trans isPrefix', covered,
        fun i from_ below => ?_, fun i inFile outside => ?_⟩
      · simp only [writeLoop, found, Option.bind_some, isCached.2.1, beginOff, count, modified]
        exact ran
      · by_cases later : min stop ((vpn + 1) * hooks.iBlksize) ≤ i
        · exact written i (reached.le.trans later) below
        · have here : i / hooks.iBlksize = vpn := by
            apply Nat.div_eq_of_lt_le <;> omega
          have blitted := content_blit hooks changed lower here
          rw [rest i (by simp only; omega) (by simp only; omega), blitted, if_pos (by omega)]
          congr 1
          omega
      · rw [rest i (by simp only; omega) (by simp only; omega)]
        by_cases here : i / hooks.iBlksize = vpn
        · have blitted := content_blit hooks changed lower here
          rw [blitted, if_neg (by omega), data, kept vpn (here ▸ inFile), content, here]
        · rw [content, content, others _ (by simp only; omega) here, kept _ inFile]

/-- The loop of a read gets the bytes of the file that are left, and leaves the file as it is. -/
theorem readLoop_spec (numbers : ∀ l, mine l → l ≠ minusOne32) (succeeds : Succeeds io)
    (buf : Bytes) {stop rounds len : ℕ} (small : stop < 4294967296)
    (covered : (stop - 1) / hooks.iBlksize < f.aPage.length) (ok : f.Ok mine)
    (progress : Progress hooks.iBlksize f.fPos stop vpn rounds (f.fPos + len)) :
    ∃ buf' cache, readLoop hooks io (f.fPos / hooks.iBlksize) ((stop - 1) / hooks.iBlksize)
        (stop - 1) rounds vpn len buf f = some (stop - f.fPos, buf', { f with cache }) ∧
      ({ f with cache } : OpenFile).Ok mine ∧
      (∀ v < f.aPage.length, ({ f with cache } : OpenFile).pageOf v = f.pageOf v) ∧
      (∀ i, f.fPos + len ≤ i → i < stop → buf' (i - f.fPos) = f.content hooks i) ∧
      ∀ j, j < len ∨ stop - f.fPos ≤ j → buf' j = buf j := by
  induction rounds generalizing vpn len f buf with
  | zero =>
      have done := progress.ended rfl
      refine ⟨buf, f.cache, ?_, ok, fun _ _ => rfl, fun i lower upper => by omega,
        fun _ _ => rfl⟩
      rw [readLoop, ← done, Nat.add_sub_cancel_left]
  | succ rounds ih =>
      rcases progress.round small with ⟨lower, upper, before, beginOff, count⟩
      have left := progress.left
      have inside : vpn < f.aPage.length := by omega
      have isOld : Available hooks mine f.aPage vpn := Or.inl inside
      rcases findPage_spec ok numbers succeeds isOld with
        ⟨p, page, aPage, cache, found, okFound, isPrefix, length, isCached, data, kept⟩
      have sameBlocks : aPage = f.aPage := (isPrefix.eq_of_length (by omega)).symm
      subst sameBlocks
      have reached : f.fPos + (len + (min stop ((vpn + 1) * hooks.iBlksize) - (f.fPos + len))) =
          min stop ((vpn + 1) * hooks.iBlksize) := by omega
      have nextProgress := progress.succ
      rw [← reached] at nextProgress
      rcases ih (f := { f with cache }) (blit buf len page.pData
          (f.fPos + len - vpn * hooks.iBlksize)
            (min stop ((vpn + 1) * hooks.iBlksize) - (f.fPos + len))) covered okFound
          nextProgress with
        ⟨buf', cache', ran, okEnd, same, got, before'⟩
      refine ⟨buf', cache', ?_, okEnd, fun v lt => (same v lt).trans (kept v lt),
        fun i from_ below => ?_, fun j outside => ?_⟩
      · simp only [readLoop, found, Option.bind_some, isCached.2.1, beginOff, count]
        exact ran
      · by_cases later : min stop ((vpn + 1) * hooks.iBlksize) ≤ i
        · have here := got i (reached.le.trans later) below
          have le : i / hooks.iBlksize ≤ (stop - 1) / hooks.iBlksize :=
            Nat.div_le_div_right (by omega)
          rw [here, content, content, kept _ (by omega)]
        · have here : i / hooks.iBlksize = vpn := by
            apply Nat.div_eq_of_lt_le <;> omega
          have split := Nat.div_add_mod' i hooks.iBlksize
          rw [here] at split
          rw [before' (i - f.fPos) (Or.inl (by omega)), blit_inside (by omega) (by omega), data, content,
            here, kept vpn inside]
          congr 1
          omega
      · have notPast : len + (min stop ((vpn + 1) * hooks.iBlksize) - (f.fPos + len)) ≤
            stop - f.fPos := by omega
        rw [before' j (outside.imp_left (Nat.lt_add_right _)), blit_outside]
        exact outside.imp_right notPast.trans

/-- A file whose blocks are left alone contains what it did. -/
theorem KeepsFile.ok (ok : f.Ok mine) {after : PageCache Bytes}
    (keeps : KeepsFile mine f.ino f.cache after) :
    ({ f with cache := after } : OpenFile).Ok mine ∧
      ∀ v < f.aPage.length, ({ f with cache := after } : OpenFile).pageOf v = f.pageOf v := by
  have okAfter : ({ f with cache := after } : OpenFile).Ok mine :=
    ⟨keeps.sound, ok.nodup, ok.blocks, keeps.owned⟩
  refine ⟨okAfter, fun v lt => ?_⟩
  have holds := keeps.holds _ (ok.mine_getD lt) _ (ok.holds_pageOf lt)
  exact okAfter.pageOf_eq lt (keeps.iSb ▸ holds)

/-- A read inside a file gets its bytes. -/
theorem genericFileRead_spec (numbers : ∀ l, mine l → l ≠ minusOne32) (succeeds : Succeeds io)
    (positive : 0 < hooks.iBlksize) (ok : f.Ok mine)
    (covers : f.iSize ≤ f.aPage.length * hooks.iBlksize) {count : ℕ} (some_ : 1 ≤ count)
    (inside : f.fPos + count ≤ f.iSize) (small : f.fPos + count < 4294967296) (buf : Bytes) :
    ∃ buf' f', f.genericFileRead hooks io buf count = some (count, buf', f') ∧
      ∀ j < count, buf' j = f.content hooks (f.fPos + j) := by
  have last : sub32 (if u32 (f.fPos + count) > f.iSize then f.iSize else u32 (f.fPos + count)) 1 =
      f.fPos + count - 1 := by
    rw [u32_of_lt small, if_neg (by omega), sub32_of_le (by omega) small]
  have covered : (f.fPos + count - 1) / hooks.iBlksize < f.aPage.length :=
    Nat.div_lt_of_lt_mul (by rw [Nat.mul_comm]; omega)
  have progress : Progress hooks.iBlksize f.fPos (f.fPos + count) (f.fPos / hooks.iBlksize)
      ((f.fPos + count - 1) / hooks.iBlksize + 1 - f.fPos / hooks.iBlksize) (f.fPos + 0) :=
    Progress.first positive (by omega)
  rcases readLoop_spec numbers succeeds buf small covered ok progress with
    ⟨buf', cache, ran, _, _, got, _⟩
  have total : f.fPos + count - f.fPos = count := Nat.add_sub_cancel_left ..
  have reads : f.genericFileRead hooks io buf count =
      some (count, buf', { f with cache, fPos := u32 (f.fPos + count) }) := by
    rw [total] at ran
    simp only [genericFileRead, last, ran, Option.map_some, u32_of_lt (by omega : count < 4294967296)]
  refine ⟨buf', _, reads, fun j lt => ?_⟩
  have here := got (f.fPos + j) (by omega) (by omega)
  rwa [Nat.add_sub_cancel_left] at here

/-- The file system has blocks of positive size, gives each page up to those of the write its own
block, and notes the size of the file. -/
structure Serves (hooks : FileHooks) (mine : ℕ → Prop) (f : OpenFile) (count : ℕ) : Prop where
  positive : 0 < hooks.iBlksize
  numbers : ∀ l, mine l → l ≠ minusOne32
  creates : Creates hooks mine f.aPage ((f.fPos + count - 1) / hooks.iBlksize + 1)
  writes : ∃ cache, hooks.writeInode f.cache = some (false, cache) ∧
    KeepsFile mine f.ino f.cache cache

/-- A write that makes the file longer goes on with its new size. -/
theorem enlarge_spec {count : ℕ} (serves : Serves hooks mine f count) (ok : f.Ok mine)
    (hasParent : f.parent = true) (small : f.fPos + count < 4294967296) :
    ∃ cache, (if u32 (f.fPos + count) > f.iSize then f.enlarge hooks (u32 (f.fPos + count))
        else some (true, f)) =
      some (true, { f with iSize := max f.iSize (f.fPos + count), cache }) ∧
      ({ f with cache } : OpenFile).Ok mine ∧
      ∀ v < f.aPage.length, ({ f with cache } : OpenFile).pageOf v = f.pageOf v := by
  rw [u32_of_lt small]
  by_cases grows : f.fPos + count > f.iSize
  · rcases serves.writes with ⟨cache, wrote, keeps⟩
    rcases keeps.ok ok with ⟨okAfter, same⟩
    refine ⟨cache, ?_, okAfter, same⟩
    rw [if_pos grows, enlarge, if_pos hasParent, wrote, Nat.max_eq_right grows.le]
    rfl
  · refine ⟨f.cache, ?_, ok, fun _ _ => rfl⟩
    rw [if_neg grows, Nat.max_eq_left (Nat.le_of_not_lt grows)]

/-- When everything succeeds, a write puts the bytes of the buffer into the file, and a read after
it gets them back, whatever has happened to other files meanwhile. -/
theorem genericFileWrite_spec {count : ℕ} (serves : Serves hooks mine f count)
    (succeeds : Succeeds io) (ok : f.Ok mine) (hasParent : f.parent = true)
    (covers : f.iSize ≤ f.aPage.length * hooks.iBlksize) (some_ : 1 ≤ count)
    (inside : f.fPos ≤ f.iSize) (small : f.fPos + count < 4294967296) (buf : Bytes) :
    ∃ f', f.genericFileWrite hooks io buf count = some (count, f') ∧
      f'.fPos = f.fPos + count ∧ f'.iSize = max f.iSize (f.fPos + count) ∧
      (∀ i < f'.iSize, f'.content hooks i =
        if f.fPos ≤ i ∧ i < f.fPos + count then buf (i - f.fPos) else f.content hooks i) ∧
      ∀ after, KeepsFile mine f.ino f'.cache after → ∀ io', Succeeds io' → ∀ into,
        ∃ got f'', genericFileRead hooks io' { f' with fPos := f.fPos, cache := after } into count =
          some (count, got, f'') ∧ ∀ j < count, got j = buf j := by
  have positive := serves.positive
  have last : sub32 (u32 (f.fPos + count)) 1 = f.fPos + count - 1 := by
    rw [u32_of_lt small, sub32_of_le (by omega) small]
  have progress : Progress hooks.iBlksize f.fPos (f.fPos + count) (f.fPos / hooks.iBlksize)
      ((f.fPos + count - 1) / hooks.iBlksize + 1 - f.fPos / hooks.iBlksize) (f.fPos + 0) :=
    Progress.first positive (by omega)
  have next : f.fPos / hooks.iBlksize ≤ f.aPage.length :=
    Nat.div_le_of_le_mul (by rw [Nat.mul_comm]; omega)
  rcases enlarge_spec serves ok hasParent small with ⟨cache, enlarged, okEnlarged, same⟩
  let g : OpenFile := { f with iSize := max f.iSize (f.fPos + count), cache }
  have okG : g.Ok mine := ⟨okEnlarged.cache, ok.nodup, ok.blocks, okEnlarged.owned⟩
  rcases writeLoop_spec (f := g) serves.creates serves.numbers succeeds small (Nat.lt_succ_self _)
    okG next progress with ⟨aPage, cache', ran, okEnd, isPrefix, covered, written, rest⟩
  have total : g.fPos + count - g.fPos = count := Nat.add_sub_cancel_left ..
  have inFile {i : ℕ} (lt : i < f.iSize) : i / hooks.iBlksize < f.aPage.length :=
    Nat.div_lt_of_lt_mul (by rw [Nat.mul_comm]; omega)
  refine ⟨{ g with aPage, cache := cache', fPos := f.fPos + count }, ?_, rfl, rfl,
    fun i lt => ?_, fun after keeps io' succeeds' into => ?_⟩
  · rw [total] at ran
    simp only [genericFileWrite, last, enlarged, Option.bind_some, if_true]
    rw [ran, Option.map_some, u32_of_lt small, u32_of_lt (by omega)]
  · split
    · rename_i within
      exact written i within.1 within.2
    · rename_i outside
      have old : i < f.iSize := by
        have lt' : i < max f.iSize (f.fPos + count) := lt
        omega
      have kept := rest i (inFile old) outside
      exact kept.trans (congrFun (same _ (inFile old)) _)
  · rcases KeepsFile.ok okEnd keeps with ⟨okAfter, sameAfter⟩
    have okRead : OpenFile.Ok mine { g with aPage, cache := after } :=
      ⟨okAfter.cache, okAfter.nodup, okAfter.blocks, okAfter.owned⟩
    have coversEnd : max f.iSize (f.fPos + count) ≤ aPage.length * hooks.iBlksize := by
      have longer := Nat.mul_le_mul_right hooks.iBlksize isPrefix.length_le
      have atEnd := Nat.lt_mul_of_div_lt covered positive
      have comm := Nat.mul_comm hooks.iBlksize aPage.length
      simp only [g] at longer atEnd
      omega
    rcases genericFileRead_spec (f := { g with aPage, cache := after }) serves.numbers succeeds'
      positive okRead coversEnd some_ (Nat.le_max_right ..) small into with ⟨got, f'', reads, bytes⟩
    refine ⟨got, f'', reads, fun j lt => (bytes j lt).trans ?_⟩
    have put := written (f.fPos + j) (Nat.le_add_right ..) (by omega)
    have page : (f.fPos + j) / hooks.iBlksize < aPage.length :=
      lt_of_le_of_lt (Nat.div_le_div_right (by omega)) covered
    have kept := congrFun (sameAfter _ page) ((f.fPos + j) % hooks.iBlksize)
    rw [Nat.add_sub_cancel_left] at put
    exact kept.trans put

end

/-- A file of 500 bytes in the block 7, open at its end. -/
def shortFile : OpenFile where
  ino := 1
  parent := true
  iSize := 500
  aPage := [7]
  fPos := 500
  cache := PageCache.initCache (fun _ => 0) fun _ _ => zeros

/-- A file system that makes pages from block 100 on and notes sizes outside the cache. -/
def freshBlocks : FileHooks where
  iBlksize := 512
  createPage := fun _ count => some ((List.range count).map (100 + ·))
  writeInode := fun cache => some (false, cache)

theorem genericFileWrite_spec_shortFile :
    ∃ f', shortFile.genericFileWrite freshBlocks (fun _ => ⟨true, .done⟩) (fun _ => 65) 20 =
      some (20, f') ∧ f'.iSize = 520 := by
  have ok : shortFile.Ok fun l => l = 7 ∨ l = 100 :=
    ⟨PageCache.sound_initCache .., by decide, by simp [shortFile],
      fun l _ p page isCached => absurd isCached.1 (by simp [shortFile, PageCache.initCache])⟩
  have serves : Serves freshBlocks (fun l => l = 7 ∨ l = 100) shortFile 20 := by
    refine ⟨by decide, fun l isMine => ?_, fun more count some_ isPrefix _ _ le => ?_,
      shortFile.cache, rfl, ok.cache, rfl, fun _ _ _ => id, ok.owned⟩
    · rcases isMine with rfl | rfl <;> decide
    · have length := isPrefix.length_le
      have one : count = 1 ∧ more.length = 1 := by
        simp only [shortFile, freshBlocks, List.length_cons, List.length_nil] at le length
        omega
      have same : [7] = more := isPrefix.eq_of_length one.2.symm
      rw [one.1, ← same]
      exact ⟨[100], rfl, rfl, by decide, fun l mem => Or.inr (List.mem_singleton.mp mem)⟩
  have succeeds : Succeeds fun _ => ⟨true, .done⟩ := fun _ => ⟨rfl, rfl⟩
  rcases genericFileWrite_spec serves succeeds ok rfl (by decide) (by decide)
    (by decide) (by decide) (fun _ => 65) with ⟨f', ran, _, size, _⟩
  exact ⟨f', ran, size⟩

end OpenFile

end Ninix.Vfs
