import Ninix.Library.Simulation
import Ninix.Vfs.PartialRead

/-!
# Open files that share one cache of pages

Any number of files is open, more than once perhaps, and all their pages are in one cache, which
evicts the oldest page of whatever file. As long as each file has blocks of its own and nothing
fails, the files are what a user takes them for: sequences of bytes, each with the positions of its
openings, where a read takes the bytes from its position on, and a write replaces them.
-/

namespace Ninix.Vfs

open ByteBuffer Simulation

/-- What `struct inode` says of a file -/
structure StoredInode where
  parent : Bool
  iSize : ℕ
  aPage : List ℕ

/-- `struct file` -/
structure File where
  fMode : ℕ
  ino : ℕ
  fPos : ℕ

/-- The inodes by their number, the files that are open by their address, and the cache. -/
structure FileStore where
  inodes : ℕ → StoredInode
  files : ℕ → Option File
  cache : PageCache Bytes

inductive FileCall
  | dentryOpen (filp ino flags : ℕ)
  | vfsRead (filp : ℕ) (buf : Bytes) (count : ℕ)
  | vfsWrite (filp : ℕ) (buf : Bytes) (count : ℕ)
  | vfsClose (filp : ℕ)

/-- What a call returns, and the buffer behind it. -/
structure FileResult where
  returned : ℕ
  buf : Bytes

/-- `dentry_open`, where the first two bits of the flags are `O_MASK`. -/
def dentryOpen (ino flags : ℕ) : File where
  fMode := (if flags % 4 ≠ 0 then 2 else 0) + if flags % 4 = 0 ∨ flags % 4 = 2 then 1 else 0
  ino := ino
  fPos := 0

/-- `f_mode & FMODE_READ` -/
def File.reads (file : File) : Bool := file.fMode % 2 == 1

/-- `f_mode & FMODE_WRITE` -/
def File.writes (file : File) : Bool := file.fMode / 2 % 2 == 1

/-- All reads and writes of blocks go well, and memory is there. -/
def allDone : ℕ → PageIo := fun _ => ⟨true, .done⟩

namespace FileStore

/-- A file that is open, with its inode and the cache. -/
def openFile (s : FileStore) (file : File) : OpenFile where
  ino := file.ino
  parent := (s.inodes file.ino).parent
  iSize := (s.inodes file.ino).iSize
  aPage := (s.inodes file.ino).aPage
  fPos := file.fPos
  cache := s.cache

/-- What a call has made of it. -/
def putBack (s : FileStore) (filp : ℕ) (file : File) (f : OpenFile) : FileStore where
  inodes := Function.update s.inodes file.ino ⟨f.parent, f.iSize, f.aPage⟩
  files := Function.update s.files filp (some { file with fPos := f.fPos })
  cache := f.cache

/-- A call, where each file has the functions of its file system. -/
def step (hooks : ℕ → FileHooks) (s : FileStore) : FileCall → Option (FileStore × FileResult)
  | .dentryOpen filp ino flags =>
      some ({ s with files := Function.update s.files filp (some (dentryOpen ino flags)) },
        ⟨filp, zeros⟩)
  | .vfsRead filp buf count => (s.files filp).bind fun file =>
      if file.reads then
        ((s.openFile file).genericFileRead (hooks file.ino) allDone buf count).map
          fun (len, buf, f) => (s.putBack filp file f, ⟨len, buf⟩)
      else some (s, ⟨0, buf⟩)
  | .vfsWrite filp buf count => (s.files filp).bind fun file =>
      if file.writes then
        ((s.openFile file).genericFileWrite (hooks file.ino) allDone buf count).map
          fun (len, f) => (s.putBack filp file f, ⟨len, buf⟩)
      else some (s, ⟨0, buf⟩)
  | .vfsClose filp => (s.files filp).bind fun file =>
      (s.cache.genericFileFlush file.ino fun _ => .done).map fun (err, cache) =>
        if err then ({ s with cache }, ⟨sub32 0 513, zeros⟩)
        else ({ s with cache, files := Function.update s.files filp none }, ⟨0, zeros⟩)

end FileStore

/-! ## Files as sequences of bytes -/

/-- The bytes of each file, and the files that are open. -/
structure ByteFiles where
  bytes : ℕ → List UInt8
  files : ℕ → Option File

namespace ByteFiles

/-- The bytes from a position on. -/
def readAt (bytes : List UInt8) (pos count : ℕ) : List UInt8 := (bytes.drop pos).take count

/-- Bytes are put at a position, over those that are there. -/
def writeAt (bytes : List UInt8) (pos : ℕ) (data : List UInt8) : List UInt8 :=
  bytes.take pos ++ data ++ bytes.drop (pos + data.length)

/-- A buffer with bytes at its beginning. -/
def fillBuffer (buf : Bytes) (data : List UInt8) : Bytes := fun j => (data[j]?).getD (buf j)

def step (s : ByteFiles) : FileCall → ByteFiles × FileResult
  | .dentryOpen filp ino flags =>
      ({ s with files := Function.update s.files filp (some (dentryOpen ino flags)) },
        ⟨filp, zeros⟩)
  | .vfsRead filp buf count =>
      match s.files filp with
      | none => (s, ⟨0, buf⟩)
      | some file =>
          let data := readAt (s.bytes file.ino) file.fPos count
          if file.reads then
            let file := { file with fPos := file.fPos + data.length }
            ({ s with files := Function.update s.files filp (some file) },
              ⟨data.length, fillBuffer buf data⟩)
          else (s, ⟨0, buf⟩)
  | .vfsWrite filp buf count =>
      match s.files filp with
      | none => (s, ⟨0, buf⟩)
      | some file =>
          if file.writes then
            (⟨Function.update s.bytes file.ino
                (writeAt (s.bytes file.ino) file.fPos ((List.range count).map buf)),
              Function.update s.files filp (some { file with fPos := file.fPos + count })⟩,
              ⟨count, buf⟩)
          else (s, ⟨0, buf⟩)
  | .vfsClose filp => ({ s with files := Function.update s.files filp none }, ⟨0, zeros⟩)

end ByteFiles

/-- What the files rest on: the functions of their file systems, the file system and the blocks that
each may have, and how many pages there is room for in it. -/
structure FileGround where
  hooks : ℕ → FileHooks
  iSb : ℕ → ℕ
  mine : ℕ → ℕ → Prop
  capacity : ℕ → ℕ

namespace FileGround

/-- The pages of each file are its own. -/
structure Apart (ground : FileGround) (cache : PageCache Bytes) : Prop where
  sound : cache.Sound
  iSb : cache.iSb = ground.iSb
  owned : ∀ ino l, ground.mine ino l → cache.Owned ino l

/-- Blocks are given to one file each, as far as there is room, and noting a size changes no
file. -/
structure Good (ground : FileGround) : Prop where
  positive : ∀ ino, 0 < (ground.hooks ino).iBlksize
  numbers : ∀ ino l, ground.mine ino l → l ≠ minusOne32
  apart : ∀ i j l, i ≠ j → ground.iSb i = ground.iSb j → ground.mine i l → ¬ground.mine j l
  creates : ∀ ino, OpenFile.Creates (ground.hooks ino) (ground.mine ino) [] (ground.capacity ino)
  writes : ∀ ino cache, ground.Apart cache →
    ∃ cache', (ground.hooks ino).writeInode cache = some (false, cache') ∧
      ∀ j, OpenFile.KeepsFile (ground.mine j) j cache cache'

end FileGround

namespace FileStore

variable (ground : FileGround)

def content (s : FileStore) (ino i : ℕ) : UInt8 :=
  s.cache.pageData ino ((s.inodes ino).aPage.getD (i / (ground.hooks ino).iBlksize) minusOne32)
    (i % (ground.hooks ino).iBlksize)

/-- The bytes of a file -/
def bytes (s : FileStore) (ino : ℕ) : List UInt8 :=
  (List.range (s.inodes ino).iSize).map (s.content ground ino)

/-- The store as a user sees it. -/
def view (s : FileStore) : ByteFiles := ⟨s.bytes ground, s.files⟩

/-- The store is in order: each file has its own pages in the cache, blocks for all its bytes, and a
directory that it is in, and no position is behind the end of its file. -/
structure Backed (s : FileStore) : Prop where
  apart : ground.Apart s.cache
  parent : ∀ ino, (s.inodes ino).parent = true
  nodup : ∀ ino, (s.inodes ino).aPage.Nodup
  blocks : ∀ ino, ∀ l ∈ (s.inodes ino).aPage, ground.mine ino l
  covers : ∀ ino, (s.inodes ino).iSize ≤
    (s.inodes ino).aPage.length * (ground.hooks ino).iBlksize
  inside : ∀ filp file, s.files filp = some file → file.fPos ≤ (s.inodes file.ino).iSize

/-- What a call needs: a file that is open; something to read, unless the position is not at the
beginning; something to write, with room for it; and that no page of a file that is closed has been
evicted. Positions are numbers of 32 bits. -/
def Guard (s : FileStore) : FileCall → Prop
  | .dentryOpen _ _ _ => True
  | .vfsRead filp _ count => ∃ file, s.files filp = some file ∧
      (file.reads = true → file.fPos + count < 4294967296 ∧
        (0 < file.fPos ∨ 0 < count ∧ 0 < (s.inodes file.ino).iSize))
  | .vfsWrite filp _ count => ∃ file, s.files filp = some file ∧
      (file.writes = true → 0 < count ∧ file.fPos + count < 4294967296 ∧
        (file.fPos + count - 1) / (ground.hooks file.ino).iBlksize < ground.capacity file.ino)
  | .vfsClose filp => ∃ file, s.files filp = some file ∧
      ∀ p ∈ s.cache.aCache file.ino, p ∈ s.cache.lru

end FileStore

/-! ## Other files -/

/-- The blocks of all files but one are left alone. -/
structure KeepsOthers (ground : FileGround) (ino : ℕ) (before after : PageCache Bytes) : Prop where
  apart : ground.Apart after
  holds : ∀ j, j ≠ ino → ∀ l, ground.mine j l → ∀ data,
    before.Holds (ground.iSb j) l data → after.Holds (ground.iSb j) l data

namespace PageCache

variable {Data : Type} {s s' : PageCache Data}

/-- The pages that are in the cache after one has been found. -/
theorem Sound.generalFindPage_caches (sound : s.Sound) {pageNo inode p : ℕ}
    (owned : s.Owned inode pageNo)
    (found : s.generalFindPage pageNo inode true .done = some (some p, s'))
    {q sb location : ℕ} {other : VfsPage Data} (isCached : s'.Caches q sb location other) :
    s.Caches q sb location other ∨ sb = s.iSb inode ∧ location = pageNo := by
  rw [PageCache.generalFindPage] at found
  rcases pcacheLookUp_cases s pageNo inode with
    ⟨old, page, inBucket, _, _, _, _, eq⟩ | ⟨missing, eq⟩
  · rw [eq] at found
    cases Option.some.inj found
    exact Or.inl (((sound.moved (sound.linked.hashed _ _ inBucket).1).2.2 ..).mp isCached)
  · rw [eq] at found
    let page : VfsPage Data := ⟨s.disk (s.iSb inode) pageNo, .intact, inode, pageNo⟩
    rcases sound.allocPage page with ⟨allocated, sameAlloc, cachesAlloc⟩
    have alive : (s.allocPage page).2.pages s.unused = some page := allocPage_pages page
    have none (q : ℕ) (other : VfsPage Data) : ¬s.Caches q (s.iSb inode) pageNo other := by
      rintro ⟨inOrder, isPage, sb, rfl⟩
      have isOwner := owned q other ⟨inOrder, isPage, sb, rfl⟩
      exact sound.valid q inOrder other isPage
        (missing q other ((sound.linked.mem_iff isPage).mpr inOrder) isPage rfl isOwner)
    rcases allocated.addPage alive sound.linked.unused_not_mem rfl (by simp [page])
      (fun q other isCached => none q other ((cachesAlloc ..).mp isCached)) inode with
      ⟨added, adds, _, same, _, back⟩
    have isAdded : s' = added := by
      change Option.map _ ((s.allocPage page).2.addPage s.unused inode page.pLocation .done) = _
        at found
      rw [adds] at found
      cases Option.some.inj found
      rfl
    subst isAdded
    rcases back q _ _ other isCached with rfl | old
    · refine Or.inr ⟨?_, isCached.2.2.2.symm⟩
      rw [← isCached.2.2.1, same.iSb]
      rfl
    · exact Or.inl ((cachesAlloc ..).mp old)

end PageCache

section Others

variable {ground : FileGround} {ino p : ℕ} {cache cache' cache'' : PageCache Bytes}

theorem KeepsOthers.refl (apart : ground.Apart cache) (ino : ℕ) :
    KeepsOthers ground ino cache cache := ⟨apart, fun _ _ _ _ _ => id⟩

theorem KeepsOthers.trans (first : KeepsOthers ground ino cache cache')
    (second : KeepsOthers ground ino cache' cache'') : KeepsOthers ground ino cache cache'' :=
  ⟨second.apart, fun j other l isMine data holds =>
    second.holds j other l isMine data (first.holds j other l isMine data holds)⟩

/-- The pages of other files have the data they had. -/
theorem KeepsOthers.pageData (keeps : KeepsOthers ground ino cache cache')
    (apart : ground.Apart cache) {j l : ℕ} (other : j ≠ ino) (isMine : ground.mine j l) :
    cache'.pageData j l = cache.pageData j l := by
  have before := apart.sound.holds_pageData (apart.owned j l isMine)
  have after := keeps.apart.sound.holds_pageData (keeps.apart.owned j l isMine)
  rw [apart.iSb] at before
  rw [keeps.apart.iSb] at after
  exact keeps.apart.sound.holds_unique after (keeps.holds j other l isMine _ before)

theorem KeepsFile.keepsOthers (apart : ground.Apart cache)
    (keeps : ∀ j, OpenFile.KeepsFile (ground.mine j) j cache cache') :
    KeepsOthers ground ino cache cache' := by
  refine ⟨⟨(keeps ino).sound, (keeps ino).iSb.trans apart.iSb, fun j => (keeps j).owned⟩,
    fun j _ l isMine data holds => ?_⟩
  have kept := (keeps j).holds l isMine data
  rw [apart.iSb] at kept
  exact kept holds

/-- A page of a file is found in the cache, or put into it. -/
theorem keepsOthers_generalFindPage (good : ground.Good) (apart : ground.Apart cache) {l : ℕ}
    (isMine : ground.mine ino l)
    (found : cache.generalFindPage l ino true .done = some (some p, cache')) :
    KeepsOthers ground ino cache cache' := by
  rcases apart.sound.generalFindPage (apart.owned ino l isMine) with
    ⟨q, page, next, isNext, sound, same, isCached, mapping, data, owned⟩
  have isSame : cache' = next := by
    rw [found] at isNext
    cases Option.some.inj isNext
    rfl
  subst isSame
  refine ⟨⟨sound, same.iSb.trans apart.iSb, fun j k isMine' q other isCached' => ?_⟩,
    fun j _ k _ data holds => same.holds _ _ _ holds⟩
  rw [same.iSb] at isCached'
  rcases apart.sound.generalFindPage_caches (apart.owned ino l isMine) found isCached' with
    old | ⟨sameSb, rfl⟩
  · exact apart.owned j k isMine' q other old
  · by_cases isFile : j = ino
    · subst isFile
      exact owned k (apart.owned j k isMine) q other (same.iSb ▸ isCached')
    · rw [apart.iSb] at sameSb
      exact absurd isMine' (good.apart ino j k (Ne.symm isFile) sameSb.symm isMine)

/-- Data is put into a page of a file. -/
theorem keepsOthers_modify (good : ground.Good) (apart : ground.Apart cache) {l : ℕ}
    (isMine : ground.mine ino l) {page : VfsPage Bytes}
    (isCached : cache.Caches p (cache.iSb ino) l page) {data : Bytes}
    (modified : cache.modify p data = some cache') : KeepsOthers ground ino cache cache' := by
  rcases apart.sound.modify isCached data with ⟨next, isNext, sound, iSb, _, others, owned⟩
  have isSame : cache' = next := Option.some.inj (modified.symm.trans isNext)
  subst isSame
  refine ⟨⟨sound, iSb.trans apart.iSb, fun j k isMine' => owned j k (apart.owned j k isMine')⟩,
    fun j other k isMine' data' holds => others _ _ _ ?_ holds⟩
  rintro same
  rcases Prod.mk.inj same with ⟨sameSb, rfl⟩
  rw [apart.iSb] at sameSb
  exact good.apart ino j k (Ne.symm other) sameSb.symm isMine isMine'

end Others

namespace OpenFile

variable {ground : FileGround} {f f' : OpenFile} {p vpn rounds beginPage endPage endLast : ℕ}
  {len len' : ℕ} {buf buf' : Bytes}

theorem succeeds_allDone : Succeeds allDone := fun _ => ⟨rfl, rfl⟩

/-- A file of a store, by the cache and its blocks. -/
theorem ok_of_apart (apart : ground.Apart f.cache) (nodup : f.aPage.Nodup)
    (blocks : ∀ l ∈ f.aPage, ground.mine f.ino l) : f.Ok (ground.mine f.ino) :=
  ⟨apart.sound, nodup, blocks, apart.owned f.ino⟩

theorem generalFindPage_of_findPage {hooks : FileHooks}
    (found : f.findPage hooks allDone vpn = some (some p, f')) :
    f.cache.generalFindPage (f.bmap hooks vpn).1 f.ino true .done = some (some p, f'.cache) := by
  have same : (f.bmap hooks vpn).2.cache = f.cache ∧ (f.bmap hooks vpn).2.ino = f.ino := by
    unfold bmap
    split
    · split
      · exact ⟨rfl, rfl⟩
      · exact ⟨rfl, rfl⟩
    · exact ⟨rfl, rfl⟩
  unfold findPage at found
  simp only at found
  split at found
  · cases found
  · rcases Option.map_eq_some_iff.mp found with ⟨⟨page, cache⟩, isFound, pair⟩
    cases pair
    rw [same.1, same.2] at isFound
    exact isFound

/-- A page of a file is found. -/
theorem findPage_others (good : ground.Good) (apart : ground.Apart f.cache)
    (ok : f.Ok (ground.mine f.ino))
    (next : Available (ground.hooks f.ino) (ground.mine f.ino) f.aPage vpn)
    (found : f.findPage (ground.hooks f.ino) allDone vpn = some (some p, f')) :
    KeepsOthers ground f.ino f.cache f'.cache := by
  rcases bmap_spec ok next with ⟨aPage, isBlock, isPrefix, length, okMade⟩
  have isMine : ground.mine f.ino (aPage.getD vpn minusOne32) :=
    okMade.mine_getD (by
      show vpn < aPage.length
      omega)
  have isFound := generalFindPage_of_findPage found
  rw [isBlock] at isFound
  exact keepsOthers_generalFindPage good apart isMine isFound

theorem readLoop_others (good : ground.Good) (apart : ground.Apart f.cache)
    (ok : f.Ok (ground.mine f.ino)) (inside : vpn + rounds ≤ f.aPage.length)
    (ran : readLoop (ground.hooks f.ino) allDone beginPage endPage endLast rounds vpn len buf f =
      some (len', buf', f')) :
    ∃ cache, f' = { f with cache } ∧ KeepsOthers ground f.ino f.cache cache ∧
      ∀ v < f.aPage.length, ({ f with cache } : OpenFile).pageOf v = f.pageOf v := by
  induction rounds generalizing vpn len buf f with
  | zero =>
      cases ran
      exact ⟨_, rfl, .refl apart _, fun _ _ => rfl⟩
  | succ rounds ih =>
      have isOld : Available (ground.hooks f.ino) (ground.mine f.ino) f.aPage vpn :=
        Or.inl (by omega)
      rcases findPage_spec ok (good.numbers f.ino) succeeds_allDone isOld with
        ⟨p, page, aPage, cache, found, okFound, isPrefix, length, isCached, data, kept⟩
      have sameBlocks : aPage = f.aPage := (isPrefix.eq_of_length (by omega)).symm
      subst sameBlocks
      have others := findPage_others good apart ok isOld found
      simp only [readLoop, found, Option.bind_some, isCached.2.1] at ran
      rcases ih (f := { f with cache }) others.apart okFound (by simp only; omega) ran with
        ⟨cache', isEnd, others', kept'⟩
      exact ⟨cache', isEnd, others.trans others', fun v lt => (kept' v lt).trans (kept v lt)⟩

theorem writeLoop_others (good : ground.Good) (apart : ground.Apart f.cache)
    (ok : f.Ok (ground.mine f.ino)) {pages : ℕ}
    (creates : Creates (ground.hooks f.ino) (ground.mine f.ino) f.aPage pages)
    (next : vpn ≤ f.aPage.length) (inside : vpn + rounds ≤ pages)
    (ran : writeLoop (ground.hooks f.ino) allDone buf beginPage endPage endLast rounds vpn len f =
      some (len', f')) : KeepsOthers ground f.ino f.cache f'.cache := by
  induction rounds generalizing vpn len f with
  | zero =>
      cases ran
      exact .refl apart _
  | succ rounds ih =>
      have isNext : Available (ground.hooks f.ino) (ground.mine f.ino) f.aPage vpn :=
        next.lt_or_eq.imp_right fun eq => ⟨eq, pages, by omega, creates⟩
      rcases findPage_spec ok (good.numbers f.ino) succeeds_allDone isNext with
        ⟨p, page, aPage, cache, found, okFound, isPrefix, length, isCached, data, kept⟩
      have others := findPage_others good apart ok isNext found
      have inFile : vpn < aPage.length := by omega
      simp only [writeLoop, found, Option.bind_some, isCached.2.1] at ran
      rcases Option.bind_eq_some_iff.mp ran with ⟨changed, modified, ran'⟩
      have others' := keepsOthers_modify good others.apart (okFound.mine_getD inFile) isCached
        modified
      have okChanged : ({ f with aPage, cache := changed } : OpenFile).Ok (ground.mine f.ino) :=
        ok_of_apart (f := { f with aPage, cache := changed }) others'.apart okFound.nodup
          okFound.blocks
      have others'' := ih (f := { f with aPage, cache := changed }) others'.apart okChanged
        (creates.mono isPrefix) (by simp only; omega) (by omega) ran'
      exact (others.trans others').trans others''

/-- A read among other files. -/
theorem genericFileRead_shared (good : ground.Good) (apart : ground.Apart f.cache)
    (ok : f.Ok (ground.mine f.ino))
    (covers : f.iSize ≤ f.aPage.length * (ground.hooks f.ino).iBlksize)
    (inside : f.fPos ≤ f.iSize) {count : ℕ} (small : f.fPos + count < 4294967296)
    (some_ : 0 < f.stop count) (buf : Bytes) :
    ∃ buf' cache, f.genericFileRead (ground.hooks f.ino) allDone buf count =
        some (f.readable count, buf', { f with cache, fPos := f.fPos + f.readable count }) ∧
      (∀ j, buf' j = if j < f.readable count then f.content (ground.hooks f.ino) (f.fPos + j)
        else buf j) ∧ KeepsOthers ground f.ino f.cache cache ∧
      ∀ v < f.aPage.length, ({ f with cache } : OpenFile).pageOf v = f.pageOf v := by
  have positive := good.positive f.ino
  have reads : f.ReadsPart (ground.hooks f.ino) allDone count := by
    by_cases more : 0 < f.readable count
    · exact readsPart_some (good.numbers f.ino) succeeds_allDone positive ok covers inside small
        more
    · have atEnd : 0 < f.fPos := by
        unfold stop at some_
        unfold readable at more
        omega
      exact readsPart_none (good.numbers f.ino) succeeds_allDone positive ok covers inside small
        (Nat.eq_zero_of_not_pos more) atEnd
  rcases reads buf with ⟨buf', f', ran, bytes, position, _, _⟩
  have last : sub32 (f.stop count) 1 = f.stop count - 1 := by
    have le : f.stop count ≤ f.fPos + count := Nat.min_le_left _ _
    exact sub32_of_le some_ (by omega)
  have inFile : f.stop count ≤ f.iSize := Nat.min_le_right _ _
  have firstPage : f.fPos / (ground.hooks f.ino).iBlksize ≤ f.aPage.length :=
    Nat.div_le_of_le_mul (by rw [Nat.mul_comm]; omega)
  have lastPage : (f.stop count - 1) / (ground.hooks f.ino).iBlksize < f.aPage.length :=
    Nat.div_lt_of_lt_mul (by rw [Nat.mul_comm]; omega)
  have ran' := ran
  rw [genericFileRead_eq small, last] at ran'
  rcases Option.map_eq_some_iff.mp ran' with ⟨⟨len, got, g⟩, looped, isResult⟩
  rcases readLoop_others good apart ok (by omega) looped with ⟨cache, rfl, others, kept⟩
  rcases Prod.mk.inj isResult with ⟨_, isRest⟩
  rcases Prod.mk.inj isRest with ⟨_, rfl⟩
  refine ⟨buf', cache, ?_, bytes, others, kept⟩
  rw [ran]
  simp only at position ⊢
  rw [position]

/-- Other files are left alone where a file gets longer. -/
theorem enlarge_others (good : ground.Good) (apart : ground.Apart f.cache)
    (ok : f.Ok (ground.mine f.ino)) (hasParent : f.parent = true) {count : ℕ}
    (small : f.fPos + count < 4294967296) :
    ∃ cache, (if u32 (f.fPos + count) > f.iSize then
        f.enlarge (ground.hooks f.ino) (u32 (f.fPos + count)) else some (true, f)) =
      some (true, { f with iSize := max f.iSize (f.fPos + count), cache }) ∧
      KeepsOthers ground f.ino f.cache cache ∧
      ∀ v < f.aPage.length, ({ f with cache } : OpenFile).pageOf v = f.pageOf v := by
  rw [u32_of_lt small]
  by_cases grows : f.fPos + count > f.iSize
  · rcases good.writes f.ino f.cache apart with ⟨cache, wrote, keeps⟩
    refine ⟨cache, ?_, KeepsFile.keepsOthers apart keeps, ((keeps f.ino).ok ok).2⟩
    rw [if_pos grows, enlarge, if_pos hasParent, wrote, Nat.max_eq_right grows.le]
    rfl
  · refine ⟨f.cache, ?_, .refl apart _, fun _ _ => rfl⟩
    rw [if_neg grows, Nat.max_eq_left (Nat.le_of_not_lt grows)]

/-- A write among other files. -/
theorem genericFileWrite_shared (good : ground.Good) (apart : ground.Apart f.cache)
    (ok : f.Ok (ground.mine f.ino)) (hasParent : f.parent = true)
    (covers : f.iSize ≤ f.aPage.length * (ground.hooks f.ino).iBlksize)
    (inside : f.fPos ≤ f.iSize) {count : ℕ} (some_ : 0 < count)
    (small : f.fPos + count < 4294967296)
    (fits : (f.fPos + count - 1) / (ground.hooks f.ino).iBlksize < ground.capacity f.ino)
    (buf : Bytes) :
    ∃ g : OpenFile, f.genericFileWrite (ground.hooks f.ino) allDone buf count = some (count, g) ∧
      g.ino = f.ino ∧ g.parent = true ∧ g.fPos = f.fPos + count ∧
      g.iSize = max f.iSize (f.fPos + count) ∧
      g.Ok (ground.mine f.ino) ∧ g.iSize ≤ g.aPage.length * (ground.hooks f.ino).iBlksize ∧
      KeepsOthers ground f.ino f.cache g.cache ∧
      ∀ i < g.iSize, g.content (ground.hooks f.ino) i =
        if f.fPos ≤ i ∧ i < f.fPos + count then buf (i - f.fPos)
        else f.content (ground.hooks f.ino) i := by
  have positive := good.positive f.ino
  have creates : Creates (ground.hooks f.ino) (ground.mine f.ino) f.aPage (ground.capacity f.ino) :=
    (good.creates f.ino).mono List.nil_prefix
  have last : sub32 (u32 (f.fPos + count)) 1 = f.fPos + count - 1 := by
    rw [u32_of_lt small, sub32_of_le (by omega) small]
  have progress : Progress (ground.hooks f.ino).iBlksize f.fPos (f.fPos + count)
      (f.fPos / (ground.hooks f.ino).iBlksize) ((f.fPos + count - 1) /
        (ground.hooks f.ino).iBlksize + 1 - f.fPos / (ground.hooks f.ino).iBlksize) (f.fPos + 0) :=
    Progress.first positive (by omega)
  have next : f.fPos / (ground.hooks f.ino).iBlksize ≤ f.aPage.length :=
    Nat.div_le_of_le_mul (by rw [Nat.mul_comm]; omega)
  rcases enlarge_others good apart ok hasParent small with ⟨cache, enlarged, others, same⟩
  let h : OpenFile := { f with iSize := max f.iSize (f.fPos + count), cache }
  have okH : h.Ok (ground.mine f.ino) := ok_of_apart (f := h) others.apart ok.nodup ok.blocks
  rcases writeLoop_spec (f := h) creates (good.numbers f.ino) succeeds_allDone small fits okH next
    progress with ⟨aPage, cache', ran, okEnd, isPrefix, covered, written, rest⟩
  have ascending : f.fPos / (ground.hooks f.ino).iBlksize ≤
      (f.fPos + count - 1) / (ground.hooks f.ino).iBlksize := Nat.div_le_div_right (by omega)
  have others' := writeLoop_others (f := h) good others.apart okH creates next
    (by show _ + _ ≤ ground.capacity f.ino; omega) ran
  have total : h.fPos + count - h.fPos = count := Nat.add_sub_cancel_left ..
  have inFile {i : ℕ} (lt : i < f.iSize) :
      i / (ground.hooks f.ino).iBlksize < f.aPage.length :=
    Nat.div_lt_of_lt_mul (by rw [Nat.mul_comm]; omega)
  refine ⟨{ h with aPage, cache := cache', fPos := f.fPos + count }, ?_, rfl, hasParent, rfl, rfl,
    ⟨okEnd.cache, okEnd.nodup, okEnd.blocks, okEnd.owned⟩, ?_, others.trans others',
    fun i lt => ?_⟩
  · rw [total] at ran
    simp only [genericFileWrite, last, enlarged, Option.bind_some, if_true]
    rw [ran, Option.map_some, u32_of_lt small, u32_of_lt (by omega)]
  · have longer := Nat.mul_le_mul_right (ground.hooks f.ino).iBlksize isPrefix.length_le
    have atEnd := Nat.lt_mul_of_div_lt covered positive
    have comm := Nat.mul_comm (ground.hooks f.ino).iBlksize aPage.length
    simp only [h] at longer atEnd ⊢
    omega
  · split
    next within => exact written i within.1 within.2
    next outside =>
      have old : i < f.iSize := by
        have lt' : i < max f.iSize (f.fPos + count) := lt
        omega
      exact (rest i (inFile old) outside).trans (congrFun (same _ (inFile old)) _)

end OpenFile

/-! ## The store -/

namespace ByteFiles

theorem length_readAt (bytes : List UInt8) (pos count : ℕ) :
    (readAt bytes pos count).length = min count (bytes.length - pos) := by
  rw [readAt, List.length_take, List.length_drop]

/-- What has been written, byte by byte -/
theorem getElem?_writeAt {bytes data : List UInt8} {pos : ℕ} (le : pos ≤ bytes.length) (i : ℕ) :
    (writeAt bytes pos data)[i]? =
      if pos ≤ i ∧ i < pos + data.length then data[i - pos]? else bytes[i]? := by
  have front : (bytes.take pos).length = pos := by
    rw [List.length_take]
    omega
  rw [writeAt, List.append_assoc, List.getElem?_append, front]
  split_ifs with inFront inData inData
  · omega
  · exact List.getElem?_take_of_lt inFront
  · rw [List.getElem?_append_left (by omega)]
  · rw [List.getElem?_append_right (by omega), List.getElem?_drop]
    congr 1
    omega

end ByteFiles

namespace FileStore

variable {ground : FileGround} {s : FileStore} {filp : ℕ} {file : File}

theorem length_bytes (s : FileStore) (ino : ℕ) :
    (s.bytes ground ino).length = (s.inodes ino).iSize := by
  rw [bytes, List.length_map, List.length_range]

theorem getElem?_bytes (s : FileStore) (ino i : ℕ) : (s.bytes ground ino)[i]? =
    if i < (s.inodes ino).iSize then some (s.content ground ino i) else none := by
  rw [bytes, List.getElem?_map]
  split_ifs with inFile
  · rw [List.getElem?_range inFile]
    rfl
  · rw [List.getElem?_eq_none (by rw [List.length_range]; omega)]
    rfl

theorem Backed.ok (backed : s.Backed ground) (file : File) :
    (s.openFile file).Ok (ground.mine file.ino) :=
  OpenFile.ok_of_apart (f := s.openFile file) backed.apart (backed.nodup _) (backed.blocks _)

theorem Backed.page_lt (backed : s.Backed ground) {ino i : ℕ}
    (inFile : i < (s.inodes ino).iSize) :
    i / (ground.hooks ino).iBlksize < (s.inodes ino).aPage.length := by
  have covers := backed.covers ino
  exact Nat.div_lt_of_lt_mul (by rw [Nat.mul_comm]; omega)

theorem Backed.mine_block (backed : s.Backed ground) {ino i : ℕ}
    (inFile : i < (s.inodes ino).iSize) : ground.mine ino
      ((s.inodes ino).aPage.getD (i / (ground.hooks ino).iBlksize) minusOne32) := by
  rw [List.getD_eq_getElem _ _ (backed.page_lt inFile)]
  exact backed.blocks ino _ (List.getElem_mem _)

/-- What a call has made of a file is put back: other files have the bytes they had. -/
theorem bytes_putBack_other (backed : s.Backed ground) {g : OpenFile}
    (others : KeepsOthers ground file.ino s.cache g.cache) {ino : ℕ} (other : ino ≠ file.ino) :
    (s.putBack filp file g).bytes ground ino = s.bytes ground ino := by
  have inode : (s.putBack filp file g).inodes ino = s.inodes ino := Function.update_of_ne other _ _
  refine List.ext_getElem? fun i => ?_
  rw [getElem?_bytes, getElem?_bytes, inode]
  refine if_ctx_congr Iff.rfl (fun inFile => ?_) fun _ => rfl
  rw [content, content, inode]
  exact congrArg some (congrFun (others.pageData backed.apart other
    (backed.mine_block inFile)) _)

/-- The file itself has the bytes that it had, where its size and its pages are the same. -/
theorem bytes_putBack_self {g : OpenFile} (size : g.iSize = (s.inodes file.ino).iSize)
    (same : ∀ i < (s.inodes file.ino).iSize,
      g.cache.pageData file.ino (g.aPage.getD (i / (ground.hooks file.ino).iBlksize) minusOne32)
        (i % (ground.hooks file.ino).iBlksize) = s.content ground file.ino i) :
    (s.putBack filp file g).bytes ground file.ino = s.bytes ground file.ino := by
  have inode : (s.putBack filp file g).inodes file.ino = ⟨g.parent, g.iSize, g.aPage⟩ :=
    Function.update_self ..
  refine List.ext_getElem? fun i => ?_
  rw [getElem?_bytes, getElem?_bytes, inode]
  refine if_ctx_congr (by rw [size]) (fun inFile => ?_) fun _ => rfl
  rw [content, inode]
  exact congrArg some (same i inFile)

/-- The store stays in order when what a call has made of a file is put back. -/
theorem Backed.putBack (backed : s.Backed ground) (isOpen : s.files filp = some file)
    {g : OpenFile} (hasParent : g.parent = true) (ok : g.Ok (ground.mine file.ino))
    (covers : g.iSize ≤ g.aPage.length * (ground.hooks file.ino).iBlksize)
    (longer : (s.inodes file.ino).iSize ≤ g.iSize) (inside : g.fPos ≤ g.iSize)
    (others : KeepsOthers ground file.ino s.cache g.cache) :
    (s.putBack filp file g).Backed ground := by
  have here : (s.putBack filp file g).inodes file.ino = ⟨g.parent, g.iSize, g.aPage⟩ :=
    Function.update_self ..
  have elsewhere {ino : ℕ} (other : ino ≠ file.ino) :
      (s.putBack filp file g).inodes ino = s.inodes ino := Function.update_of_ne other _ _
  refine ⟨others.apart, fun ino => ?_, fun ino => ?_, fun ino => ?_, fun ino => ?_,
    fun other file' isOther => ?_⟩
  · by_cases isFile : ino = file.ino
    · rw [isFile, here]
      exact hasParent
    · rw [elsewhere isFile]
      exact backed.parent ino
  · by_cases isFile : ino = file.ino
    · rw [isFile, here]
      exact ok.nodup
    · rw [elsewhere isFile]
      exact backed.nodup ino
  · by_cases isFile : ino = file.ino
    · rw [isFile, here]
      exact ok.blocks
    · rw [elsewhere isFile]
      exact backed.blocks ino
  · by_cases isFile : ino = file.ino
    · rw [isFile, here]
      exact covers
    · rw [elsewhere isFile]
      exact backed.covers ino
  · have sizes : (s.inodes file'.ino).iSize ≤
        ((s.putBack filp file g).inodes file'.ino).iSize := by
      by_cases isFile : file'.ino = file.ino
      · rw [isFile, here]
        exact longer
      · rw [elsewhere isFile]
    by_cases isSame : other = filp
    · subst isSame
      have updated : (s.putBack other file g).files other = some { file with fPos := g.fPos } :=
        Function.update_self ..
      have isFile := (Option.some.inj (updated.symm.trans isOther)).symm
      subst isFile
      rw [here]
      exact inside
    · have old : s.files other = some file' :=
        (Function.update_of_ne isSame _ _).symm.trans isOther
      exact (backed.inside other file' old).trans sizes

/-! ### The calls -/

/-- A call does to the store what it does to the sequences of bytes. -/
def Refines (ground : FileGround) (s : FileStore) (call : FileCall) : Prop :=
  ∃ next, s.step ground.hooks call = some (next, ((s.view ground).step call).2) ∧
    next.Backed ground ∧ next.view ground = ((s.view ground).step call).1

theorem refines_dentryOpen (backed : s.Backed ground) (filp ino flags : ℕ) :
    s.Refines ground (.dentryOpen filp ino flags) := by
  refine ⟨_, rfl, ⟨backed.apart, backed.parent, backed.nodup, backed.blocks, backed.covers,
    fun other file isOther => ?_⟩, rfl⟩
  by_cases isSame : other = filp
  · subst isSame
    have updated : Function.update s.files other (some (Vfs.dentryOpen ino flags)) other =
      some (Vfs.dentryOpen ino flags) := Function.update_self ..
    have isFile := Option.some.inj (updated.symm.trans isOther)
    subst isFile
    exact Nat.zero_le _
  · exact backed.inside other file ((Function.update_of_ne isSame _ _).symm.trans isOther)

theorem fillBuffer_eq {buf buf' : Bytes} (n pos ino count : ℕ)
    (isReadable : n = min count ((s.inodes ino).iSize - pos))
    (bytes : ∀ j, buf' j = if j < n then s.content ground ino (pos + j) else buf j) :
    ByteFiles.fillBuffer buf (ByteFiles.readAt (s.bytes ground ino) pos count) = buf' := by
  funext j
  rw [bytes, ByteFiles.fillBuffer, ByteFiles.readAt, List.getElem?_take, List.getElem?_drop,
    getElem?_bytes]
  split_ifs with inCount inFile inRead inRead <;> first | rfl | omega

theorem Refines.of_steps {call : FileCall} (next : FileStore) (absNext : ByteFiles)
    (result : FileResult) (stepped : s.step ground.hooks call = some (next, result))
    (absStepped : (s.view ground).step call = (absNext, result)) (backed : next.Backed ground)
    (sameView : next.view ground = absNext) : s.Refines ground call :=
  ⟨next, by rw [stepped, absStepped], backed, by rw [sameView, absStepped]⟩

/-- A call that a file has not been opened for -/
theorem Refines.denied {call : FileCall} (result : FileResult) (backed : s.Backed ground)
    (stepped : s.step ground.hooks call = some (s, result))
    (absStepped : (s.view ground).step call = (s.view ground, result)) : s.Refines ground call :=
  .of_steps _ _ _ stepped absStepped backed rfl

theorem refines_vfsRead (good : ground.Good) (backed : s.Backed ground) {buf : Bytes} {count : ℕ}
    (guard : s.Guard ground (.vfsRead filp buf count)) :
    s.Refines ground (.vfsRead filp buf count) := by
  rcases guard with ⟨file, isOpen, range⟩
  have viewOpen : (s.view ground).files filp = some file := isOpen
  by_cases reads : file.reads = true
  · rcases range reads with ⟨small, nonempty⟩
    have inside := backed.inside filp file isOpen
    have some_ : 0 < (s.openFile file).stop count := by
      show 0 < min (file.fPos + count) (s.inodes file.ino).iSize
      omega
    rcases OpenFile.genericFileRead_shared (f := s.openFile file) good backed.apart
      (backed.ok file) (backed.covers _) inside small some_ buf with
      ⟨buf', cache, ran, got, others, kept⟩
    have got' : ∀ j, buf' j = if j < (s.openFile file).readable count then
      s.content ground file.ino (file.fPos + j) else buf j := got
    have isBuffer := fillBuffer_eq _ file.fPos file.ino count rfl got'
    have length : (ByteFiles.readAt (s.bytes ground file.ino) file.fPos count).length =
        (s.openFile file).readable count := by
      rw [ByteFiles.length_readAt, length_bytes]
      rfl
    have okEnd : ({ s.openFile file with cache } : OpenFile).Ok (ground.mine file.ino) :=
      OpenFile.ok_of_apart (f := { s.openFile file with cache }) others.apart
        (backed.nodup _) (backed.blocks _)
    refine .of_steps (s.putBack filp file { s.openFile file with
        cache, fPos := file.fPos + (s.openFile file).readable count })
      ⟨s.bytes ground, Function.update s.files filp
        (some { file with fPos := file.fPos + (s.openFile file).readable count })⟩
      ⟨(s.openFile file).readable count, buf'⟩ ?_ ?_ ?_ ?_
    · simp only [step, isOpen, Option.bind_some, reads, if_true]
      exact congrArg _ ran
    · simp only [ByteFiles.step, viewOpen, reads, if_true]
      simp only [view, length, isBuffer]
    · refine backed.putBack isOpen (backed.parent _)
        ⟨okEnd.cache, okEnd.nodup, okEnd.blocks, okEnd.owned⟩ (backed.covers _) le_rfl ?_ others
      show file.fPos + min count ((s.inodes file.ino).iSize - file.fPos) ≤ (s.inodes file.ino).iSize
      omega
    · refine congrArg₂ ByteFiles.mk (funext fun ino => ?_) rfl
      by_cases isFile : ino = file.ino
      · subst isFile
        exact bytes_putBack_self rfl fun i inFile =>
          congrFun (kept _ (backed.page_lt inFile)) _
      · exact bytes_putBack_other backed others isFile
  · refine .denied ⟨0, buf⟩ backed ?_ ?_
    · simp only [step, isOpen, Option.bind_some, reads, Bool.false_eq_true, if_false]
    · simp only [ByteFiles.step, viewOpen, reads, Bool.false_eq_true, if_false]

theorem refines_vfsWrite (good : ground.Good) (backed : s.Backed ground) {buf : Bytes}
    {count : ℕ} (guard : s.Guard ground (.vfsWrite filp buf count)) :
    s.Refines ground (.vfsWrite filp buf count) := by
  rcases guard with ⟨file, isOpen, range⟩
  have viewOpen : (s.view ground).files filp = some file := isOpen
  by_cases writes : file.writes = true
  · rcases range writes with ⟨some_, small, fits⟩
    have inside := backed.inside filp file isOpen
    rcases OpenFile.genericFileWrite_shared (f := s.openFile file) good backed.apart
      (backed.ok file) (backed.parent _) (backed.covers _) inside some_ small fits buf with
      ⟨g, ran, isIno, hasParent, position, size, ok, covers, others, written⟩
    have position' : g.fPos = file.fPos + count := position
    have size' : g.iSize = max (s.inodes file.ino).iSize (file.fPos + count) := size
    refine .of_steps (s.putBack filp file g)
      ⟨Function.update (s.bytes ground) file.ino
        (ByteFiles.writeAt (s.bytes ground file.ino) file.fPos ((List.range count).map buf)),
        Function.update s.files filp (some { file with fPos := file.fPos + count })⟩
      ⟨count, buf⟩ ?_ ?_ ?_ ?_
    · simp only [step, isOpen, Option.bind_some, writes, if_true]
      exact congrArg _ ran
    · simp only [ByteFiles.step, viewOpen, writes, if_true]
      rfl
    · exact backed.putBack isOpen hasParent ok covers (by omega) (by omega) others
    · refine congrArg₂ ByteFiles.mk (funext fun ino => ?_) (position' ▸ rfl)
      by_cases isFile : ino = file.ino
      · subst isFile
        rw [Function.update_self]
        refine List.ext_getElem? fun i => ?_
        have inode : (s.putBack filp file g).inodes file.ino = ⟨g.parent, g.iSize, g.aPage⟩ :=
          Function.update_self ..
        have sizeEnd : ((s.putBack filp file g).inodes file.ino).iSize =
            max (s.inodes file.ino).iSize (file.fPos + count) := by
          rw [inode]
          exact size'
        rw [ByteFiles.getElem?_writeAt (by rw [length_bytes]; exact inside), getElem?_bytes,
          sizeEnd, getElem?_bytes, List.length_map, List.length_range]
        have isByte (inFile : i < g.iSize) : (s.putBack filp file g).content ground file.ino i =
            if file.fPos ≤ i ∧ i < file.fPos + count then buf (i - file.fPos)
            else s.content ground file.ino i := by
          have byte := written i inFile
          rw [OpenFile.content, OpenFile.pageOf, isIno] at byte
          rw [content, inode]
          exact byte
        rw [size'] at isByte
        by_cases inWrite : file.fPos ≤ i ∧ i < file.fPos + count
        · have inFile : i < max (s.inodes file.ino).iSize (file.fPos + count) := by omega
          rw [if_pos inFile, if_pos inWrite, isByte inFile, if_pos inWrite, List.getElem?_map,
            List.getElem?_range (by omega)]
          rfl
        · rw [if_neg inWrite]
          by_cases old : i < (s.inodes file.ino).iSize
          · have inFile : i < max (s.inodes file.ino).iSize (file.fPos + count) := by omega
            rw [if_pos inFile, if_pos old, isByte inFile, if_neg inWrite]
          · rw [if_neg (by omega), if_neg old]
      · rw [Function.update_of_ne isFile]
        exact bytes_putBack_other backed others isFile
  · refine .denied ⟨0, buf⟩ backed ?_ ?_
    · simp only [step, isOpen, Option.bind_some, writes, Bool.false_eq_true, if_false]
    · simp only [ByteFiles.step, viewOpen, writes, Bool.false_eq_true, if_false]

/-- Pages are written back, which changes what no block holds. -/
theorem flushLoop_apart {list : List ℕ} {cache : PageCache Bytes} (apart : ground.Apart cache)
    (cached : ∀ p ∈ list, p ∈ cache.lru) :
    ∃ cache', PageCache.flushLoop (fun _ => .done) cache list = some (false, cache') ∧
      ground.Apart cache' ∧ PageCache.SameContent cache cache' := by
  induction list generalizing cache with
  | nil => exact ⟨cache, rfl, apart, rfl, fun _ _ _ => id⟩
  | cons p list ih =>
      have isCached := cached p List.mem_cons_self
      have rest := fun q mem => cached q (List.mem_cons_of_mem p mem)
      rcases apart.sound.linked.ordered p isCached with ⟨page, alive, _⟩
      cases state : page.pState with
      | invalid => exact absurd state (apart.sound.valid p isCached page alive)
      | intact =>
          have wrote : cache.writepage p .done = some (false, cache) := by
            simp only [PageCache.writepage, alive, Option.map_some, state]
          rcases ih apart rest with ⟨cache', ran, apart', same⟩
          refine ⟨cache', ?_, apart', same⟩
          rw [PageCache.flushLoop, wrote]
          exact ran
      | dirty =>
          rcases apart.sound.writeBack isCached alive state with
            ⟨written, wrote, sound, same, lists, _⟩
          have apart' : ground.Apart written := by
            refine ⟨sound, same.iSb.trans apart.iSb, fun ino l isMine q other isCached' => ?_⟩
            rcases isCached' with ⟨inOrder, isPage, sb, location⟩
            rcases lists.page isPage with ⟨old, wasPage, mapping, wasLocation⟩
            rw [same.iSb, ← mapping] at sb
            rw [← mapping]
            exact apart.owned ino l isMine q old
              ⟨lists.lru ▸ inOrder, wasPage, sb, wasLocation.trans location⟩
          rcases ih apart' (fun q mem => lists.lru ▸ rest q mem) with
            ⟨cache', ran, apart'', same'⟩
          refine ⟨cache', ?_, apart'', same'.iSb.trans same.iSb, fun sb l data holds =>
            same'.holds sb l data (same.holds sb l data holds)⟩
          rw [PageCache.flushLoop, wrote]
          exact ran

theorem refines_vfsClose (backed : s.Backed ground) (guard : s.Guard ground (.vfsClose filp)) :
    s.Refines ground (.vfsClose filp) := by
  rcases guard with ⟨file, isOpen, cached⟩
  rcases flushLoop_apart backed.apart cached with ⟨cache, flushed, apart, same⟩
  refine .of_steps { s with cache, files := Function.update s.files filp none }
    ⟨s.bytes ground, Function.update s.files filp none⟩ ⟨0, zeros⟩ ?_ rfl
    ⟨apart, backed.parent, backed.nodup, backed.blocks, backed.covers,
      fun other file' isOther => ?_⟩ ?_
  · have flushes : s.cache.genericFileFlush file.ino (fun _ => .done) = some (false, cache) :=
      flushed
    simp only [step, isOpen, Option.bind_some, flushes, Option.map_some, Bool.false_eq_true,
      if_false]
  · by_cases isSame : other = filp
    · subst isSame
      have closed : Function.update s.files other none other = none := Function.update_self ..
      exact absurd (closed.symm.trans isOther) (Option.some_ne_none _).symm
    · exact backed.inside other file' ((Function.update_of_ne isSame _ _).symm.trans isOther)
  · refine congrArg₂ ByteFiles.mk (funext fun ino => List.ext_getElem? fun i => ?_) rfl
    rw [getElem?_bytes, getElem?_bytes]
    refine if_ctx_congr Iff.rfl (fun inFile => ?_) fun _ => rfl
    have owned := backed.apart.owned ino _ (backed.mine_block inFile)
    have owned' := apart.owned ino _ (backed.mine_block inFile)
    exact congrArg some (congrFun (same.pageData_eq backed.apart.sound apart.sound owned owned') _)

theorem refines (good : ground.Good) (backed : s.Backed ground) {call : FileCall}
    (guard : s.Guard ground call) : s.Refines ground call := by
  cases call with
  | dentryOpen filp ino flags => exact refines_dentryOpen backed filp ino flags
  | vfsRead filp buf count => exact refines_vfsRead good backed guard
  | vfsWrite filp buf count => exact refines_vfsWrite good backed guard
  | vfsClose filp => exact refines_vfsClose backed guard

/-- Whatever the order of the calls, they return what they would where each file is a sequence of
bytes, and so do those that come after them. -/
theorem calls_refine_bytes (good : ground.Good) (backed : s.Backed ground) {calls : List FileCall}
    (allowed : Allowed (step ground.hooks) (Guard ground) s calls) :
    ∃ final, outputs (step ground.hooks) s calls =
        some (final, (trace ByteFiles.step (s.view ground) calls).2) ∧
      final.Backed ground ∧ final.view ground = (trace ByteFiles.step (s.view ground) calls).1 := by
  refine outputs_refines (fun s abs => s.Backed ground ∧ s.view ground = abs) ?_ ⟨backed, rfl⟩
    allowed
  rintro s _ call ⟨backed, rfl⟩ guard
  exact refines good backed guard

/-- Writing through one opening leaves the others as they are. -/
theorem files_vfsWrite {hooks : ℕ → FileHooks} {buf : Bytes} {count other : ℕ}
    {next : FileStore × FileResult} (stepped : s.step hooks (.vfsWrite filp buf count) = some next)
    (ne : other ≠ filp) : next.1.files other = s.files other := by
  rw [step] at stepped
  rcases Option.bind_eq_some_iff.mp stepped with ⟨file, _, written⟩
  split at written
  · rcases Option.map_eq_some_iff.mp written with ⟨result, _, rfl⟩
    exact Function.update_of_ne ne _ _
  · cases Option.some.inj written
    rfl

/-- Two files that may have a block each. -/
def twoFiles : FileGround where
  hooks := fun ino => ⟨512, fun _ _ => some [ino], fun cache => some (false, cache)⟩
  iSb := fun _ => 0
  mine := fun ino l => ino < 2 ∧ l = ino
  capacity := fun ino => if ino < 2 then 1 else 0

theorem good_twoFiles : twoFiles.Good := by
  refine ⟨fun _ => (by decide : 0 < 512), ?_, ?_, ?_, ?_⟩
  · rintro ino l ⟨few, rfl⟩
    show l ≠ 4294967295
    omega
  · rintro i j l ne _ ⟨_, rfl⟩ ⟨_, same⟩
    exact ne same
  · intro ino more count some_ _ _ _ le
    simp only [twoFiles] at le ⊢
    split_ifs at le with few
    · have one : count = 1 := by omega
      have none_ : more = [] := List.length_eq_zero_iff.mp (by omega)
      subst one none_
      refine ⟨[ino], rfl, rfl, List.nodup_singleton ino,
        fun l mem => ⟨few, List.mem_singleton.mp mem⟩⟩
    · omega
  · exact fun ino cache apart => ⟨cache, rfl, fun j =>
      ⟨apart.sound, rfl, fun _ _ _ => id, apart.owned j⟩⟩

/-- No file is open, and none has a byte. -/
def noFiles : FileStore where
  inodes := fun _ => ⟨true, 0, []⟩
  files := fun _ => none
  cache := PageCache.initCache (fun _ => 0) fun _ _ => zeros

theorem backed_noFiles : noFiles.Backed twoFiles := by
  refine ⟨⟨PageCache.sound_initCache .., rfl, fun ino l _ p page isCached => ?_⟩, fun _ => rfl,
    fun _ => List.nodup_nil, fun ino l mem => absurd mem List.not_mem_nil, fun _ => Nat.zero_le _,
    fun filp file isOpen => absurd isOpen (Option.some_ne_none _).symm⟩
  exact absurd isCached.1 List.not_mem_nil

/-- Two files are opened and written one after the other. -/
def writeBoth : List FileCall :=
  [.dentryOpen 0 0 2, .dentryOpen 1 1 2, .vfsWrite 0 (fun _ => 65) 10, .vfsWrite 1 (fun _ => 66) 5]

theorem calls_refine_bytes_writeBoth : ∃ final,
    outputs (step twoFiles.hooks) noFiles writeBoth =
      some (final, (trace ByteFiles.step (noFiles.view twoFiles) writeBoth).2) ∧
    final.bytes twoFiles 0 = List.replicate 10 65 ∧
      final.bytes twoFiles 1 = List.replicate 5 66 := by
  have allowed : Allowed (step twoFiles.hooks) (Guard twoFiles) noFiles writeBoth := by
    refine ⟨trivial, fun next stepped => ?_⟩
    cases Option.some.inj stepped
    refine ⟨trivial, fun next stepped => ?_⟩
    cases Option.some.inj stepped
    refine ⟨⟨_, rfl, fun _ => by decide⟩, fun next stepped => ?_⟩
    have isOpen := files_vfsWrite stepped (by decide : 1 ≠ 0)
    exact ⟨⟨dentryOpen 1 2, isOpen, fun _ => by decide⟩, fun _ _ => trivial⟩
  rcases calls_refine_bytes good_twoFiles backed_noFiles allowed with ⟨final, ran, _, viewed⟩
  have bytes := congrArg ByteFiles.bytes viewed
  exact ⟨final, ran, congrFun bytes 0, congrFun bytes 1⟩

end FileStore

end Ninix.Vfs
