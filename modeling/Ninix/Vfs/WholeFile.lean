import Ninix.Vfs.FileStore

/-!
# Whole files

A file is opened, read as a whole or written from its beginning on, and closed again, which writes
back all pages that have been made for it. Where the cache has room for these pages, none of them is
evicted on the way.
-/

namespace Ninix.Vfs

open ByteBuffer

namespace PageCache

variable {Data : Type} {s s' : PageCache Data} {ino p : ℕ}

/-- All pages on the list of a file are in the cache. -/
def Listed (s : PageCache Data) (ino : ℕ) : Prop := ∀ q ∈ s.aCache ino, q ∈ s.lru

theorem SameLists.listed (same : SameLists s s') (listed : s.Listed ino) : s'.Listed ino := by
  intro q mem
  rw [same.aCache] at mem
  rw [same.lru]
  exact listed q mem

/-- Where there is room, a page is found or made without any other being evicted. -/
theorem listed_generalFindPage (linked : Linked s) (room : s.cSize < cacheCapacity)
    (listed : s.Listed ino) {l : ℕ}
    (found : s.generalFindPage l ino true .done = some (some p, s')) :
    s'.Listed ino ∧ s'.cSize ≤ s.cSize + 1 := by
  rcases generalFindPage_cases found with
    ⟨q, page, inBucket, _, _, _, _, _, rfl⟩ | ⟨_, ⟨isFalse, _⟩ | ⟨_, _, adds⟩⟩
  · exact ⟨fun r mem => (mem_moved (linked.hashed _ q inBucket).1).mpr (listed r mem),
      Nat.le_succ _⟩
  · exact absurd isFalse (by decide)
  · have notFull : ¬s.cSize = cacheCapacity := Nat.ne_of_lt room
    rw [addPage, pcacheAdd, if_neg (by exact notFull), Option.map_some] at adds
    cases Option.some.inj adds
    refine ⟨fun r mem => mem_link_lru.mpr ?_, Nat.le_refl _⟩
    have listedNow : r = s.unused ∨ r ∈ s.aCache ino := by
      rw [link] at mem
      simp only [Function.update_self] at mem
      exact List.mem_cons.mp mem
    exact listedNow.symm.imp_left (listed r)

end PageCache

namespace FileGround

/-- Noting the size of a file leaves the pages of the file in the cache, where there is room for
some pages more. -/
def Notes (ground : FileGround) (ino pages : ℕ) : Prop :=
  ∀ cache cache', ground.Apart cache → cache.cSize + pages ≤ cacheCapacity → cache.Listed ino →
    (ground.hooks ino).writeInode cache = some (false, cache') →
      cache'.Listed ino ∧ cache'.cSize ≤ cache.cSize + pages

end FileGround

namespace OpenFile

variable {ground : FileGround} {f f' : OpenFile} {vpn rounds beginPage endPage endLast : ℕ}
  {len len' : ℕ} {buf buf' : Bytes}

theorem listed_readLoop (good : ground.Good) (apart : ground.Apart f.cache)
    (ok : f.Ok (ground.mine f.ino)) (inside : vpn + rounds ≤ f.aPage.length)
    (room : f.cache.cSize + rounds ≤ cacheCapacity) (listed : f.cache.Listed f.ino)
    (ran : readLoop (ground.hooks f.ino) allDone beginPage endPage endLast rounds vpn len buf f =
      some (len', buf', f')) :
    f'.cache.Listed f.ino ∧ f'.cache.cSize ≤ f.cache.cSize + rounds := by
  induction rounds generalizing vpn len buf f with
  | zero =>
      cases ran
      exact ⟨listed, Nat.le.refl⟩
  | succ rounds ih =>
      have isOld : Available (ground.hooks f.ino) (ground.mine f.ino) f.aPage vpn :=
        Or.inl (by omega)
      rcases findPage_spec ok (good.numbers f.ino) succeeds_allDone isOld with
        ⟨p, page, aPage, cache, found, okFound, isPrefix, length, isCached, data, kept⟩
      have sameBlocks : aPage = f.aPage := (isPrefix.eq_of_length (by omega)).symm
      subst sameBlocks
      have others := findPage_others good apart ok isOld found
      rcases PageCache.listed_generalFindPage apart.sound.linked (by omega) listed
        (generalFindPage_of_findPage found) with ⟨listed', few⟩
      simp only [readLoop, found, Option.bind_some, isCached.2.1] at ran
      simp only at few
      rcases ih (f := { f with cache }) others.apart okFound (by simp only; omega)
        (by simp only; omega) listed' ran with ⟨listedEnd, fewEnd⟩
      refine ⟨listedEnd, ?_⟩
      simp only at fewEnd
      omega

theorem listed_writeLoop (good : ground.Good) (apart : ground.Apart f.cache)
    (ok : f.Ok (ground.mine f.ino)) {pages : ℕ}
    (creates : Creates (ground.hooks f.ino) (ground.mine f.ino) f.aPage pages)
    (next : vpn ≤ f.aPage.length) (inside : vpn + rounds ≤ pages)
    (room : f.cache.cSize + rounds ≤ cacheCapacity) (listed : f.cache.Listed f.ino)
    (ran : writeLoop (ground.hooks f.ino) allDone buf beginPage endPage endLast rounds vpn len f =
      some (len', f')) : f'.cache.Listed f.ino := by
  induction rounds generalizing vpn len f with
  | zero =>
      cases ran
      exact listed
  | succ rounds ih =>
      have isNext : Available (ground.hooks f.ino) (ground.mine f.ino) f.aPage vpn :=
        next.lt_or_eq.imp_right fun eq => ⟨eq, pages, by omega, creates⟩
      rcases findPage_spec ok (good.numbers f.ino) succeeds_allDone isNext with
        ⟨p, page, aPage, cache, found, okFound, isPrefix, length, isCached, data, kept⟩
      have others := findPage_others good apart ok isNext found
      have inFile : vpn < aPage.length := by omega
      rcases PageCache.listed_generalFindPage apart.sound.linked (by omega) listed
        (generalFindPage_of_findPage found) with ⟨listed', few⟩
      simp only [writeLoop, found, Option.bind_some, isCached.2.1] at ran
      rcases Option.bind_eq_some_iff.mp ran with ⟨changed, modified, ran'⟩
      have others' := keepsOthers_modify good others.apart (okFound.mine_getD inFile) isCached
        modified
      have same := PageCache.sameLists_modify modified
      have okChanged : ({ f with aPage, cache := changed } : OpenFile).Ok (ground.mine f.ino) :=
        ok_of_apart (f := { f with aPage, cache := changed }) others'.apart okFound.nodup
          okFound.blocks
      have fewer : changed.cSize + rounds ≤ cacheCapacity := by
        rw [same.cSize]
        simp only at few
        omega
      exact ih (f := { f with aPage, cache := changed }) others'.apart okChanged
        (creates.mono isPrefix) (by simp only; omega) (by omega) fewer (same.listed listed') ran'

end OpenFile

namespace FileStore

variable {ground : FileGround} {s : FileStore} {ino : ℕ}

theorem readAt_whole (ground : FileGround) (s : FileStore) (ino : ℕ) :
    ByteFiles.readAt (s.bytes ground ino) 0 (s.inodes ino).iSize = s.bytes ground ino := by
  have length : (s.bytes ground ino).length = (s.inodes ino).iSize := length_bytes s ino
  rw [ByteFiles.readAt, List.drop_zero, ← length, List.take_length]

/-- A read from the beginning leaves the pages of the file in the cache, where there is room. -/
theorem listed_genericFileRead (good : ground.Good) {f g : OpenFile}
    (apart : ground.Apart f.cache) (ok : f.Ok (ground.mine f.ino)) (first : f.fPos = 0)
    (covers : f.iSize ≤ f.aPage.length * (ground.hooks f.ino).iBlksize)
    (nonempty : 0 < f.iSize) (small : f.iSize < 4294967296)
    (room : f.cache.cSize + f.aPage.length ≤ cacheCapacity) (listed : f.cache.Listed f.ino)
    {buf buf' : Bytes} {len : ℕ}
    (ran : f.genericFileRead (ground.hooks f.ino) allDone buf f.iSize = some (len, buf', g)) :
    g.cache.Listed f.ino ∧ g.cache.cSize ≤ f.cache.cSize + f.aPage.length := by
  have isStop : f.stop f.iSize = f.iSize := by
    rw [OpenFile.stop, first]
    omega
  have last : sub32 f.iSize 1 = f.iSize - 1 := sub32_of_le nonempty small
  have lastPage : (f.iSize - 1) / (ground.hooks f.ino).iBlksize < f.aPage.length :=
    Nat.div_lt_of_lt_mul (by rw [Nat.mul_comm]; omega)
  rw [OpenFile.genericFileRead_eq (by omega), isStop, last, first, Nat.zero_div] at ran
  rcases Option.map_eq_some_iff.mp ran with ⟨⟨len', got, h⟩, looped, isResult⟩
  have isEnd : g.cache = h.cache := by
    cases isResult
    rfl
  rcases OpenFile.listed_readLoop good apart ok (by omega) (by omega) listed looped with
    ⟨listed', few⟩
  rw [isEnd]
  exact ⟨listed', by omega⟩

/-- A write from the beginning leaves the pages of the file in the cache, where there is room. -/
theorem listed_genericFileWrite (good : ground.Good) {f g : OpenFile}
    (apart : ground.Apart f.cache) (ok : f.Ok (ground.mine f.ino)) (hasParent : f.parent = true)
    (first : f.fPos = 0) {count notes : ℕ} (some_ : 0 < count) (small : count < 4294967296)
    (fits : (count - 1) / (ground.hooks f.ino).iBlksize < ground.capacity f.ino)
    (isNoted : ground.Notes f.ino notes)
    (room : f.cache.cSize + notes + ((count - 1) / (ground.hooks f.ino).iBlksize + 1) ≤
      cacheCapacity) (listed : f.cache.Listed f.ino) {buf : Bytes} {len : ℕ}
    (ran : f.genericFileWrite (ground.hooks f.ino) allDone buf count = some (len, g)) :
    g.cache.Listed f.ino := by
  have inRange : f.fPos + count < 4294967296 := by omega
  have creates : OpenFile.Creates (ground.hooks f.ino) (ground.mine f.ino) f.aPage
    (ground.capacity f.ino) := (good.creates f.ino).mono List.nil_prefix
  have last : sub32 (u32 (f.fPos + count)) 1 = count - 1 := by
    rw [u32_of_lt inRange, first, Nat.zero_add, sub32_of_le some_ small]
  rw [OpenFile.genericFileWrite, last] at ran
  rcases Option.bind_eq_some_iff.mp ran with ⟨⟨goesOn, h⟩, enlarged, written⟩
  rcases OpenFile.enlarge_others good apart ok hasParent inRange with ⟨cache, isEnlarged, others, _⟩
  have isPair := Option.some.inj (enlarged.symm.trans isEnlarged)
  rcases Prod.mk.inj isPair with ⟨rfl, rfl⟩
  simp only [if_true, first, Nat.zero_div, Nat.sub_zero] at written
  rcases Option.map_eq_some_iff.mp written with ⟨⟨len', h⟩, looped, isResult⟩
  have isEnd : g.cache = h.cache := by
    cases isResult
    rfl
  -- Noting the size comes before the pages are written.
  have noted : cache.Listed f.ino ∧ cache.cSize ≤ f.cache.cSize + notes := by
    by_cases grows : u32 (f.fPos + count) > f.iSize
    · rw [if_pos grows, OpenFile.enlarge, if_pos hasParent] at isEnlarged
      rcases Option.map_eq_some_iff.mp isEnlarged with ⟨⟨err, after⟩, wrote, isAfter⟩
      simp only [Prod.mk.injEq, OpenFile.mk.injEq, Bool.not_eq_true'] at isAfter
      rcases isAfter with ⟨rfl, _, _, _, _, _, rfl⟩
      exact isNoted _ _ apart (Nat.le_of_add_right_le room) listed wrote
    · rw [if_neg grows] at isEnlarged
      have isSame := congrArg (·.2.cache) (Option.some.inj isEnlarged)
      simp only at isSame
      rw [← isSame]
      exact ⟨listed, Nat.le_add_right _ _⟩
  rw [isEnd]
  let longer : OpenFile := { f with iSize := max f.iSize (f.fPos + count), cache }
  have okLonger : longer.Ok (ground.mine f.ino) :=
    OpenFile.ok_of_apart (f := longer) others.apart ok.nodup ok.blocks
  have inside : 0 + ((count - 1) / (ground.hooks f.ino).iBlksize + 1) ≤ ground.capacity f.ino := by
    rw [Nat.zero_add]
    exact fits
  have room' : cache.cSize + ((count - 1) / (ground.hooks f.ino).iBlksize + 1) ≤ cacheCapacity :=
    Nat.le_trans (Nat.add_le_add_right noted.2 _) room
  have isLonger : ({ f with iSize := max f.iSize (0 + count), fPos := 0, cache } : OpenFile) =
      longer := by
    simp only [longer, first]
  rw [isLonger] at looped
  exact OpenFile.listed_writeLoop (f := longer) good others.apart okLonger creates (Nat.zero_le _)
    inside room' noted.1 looped

/-- Closing a file writes pages back, which changes no list. -/
theorem sameLists_vfsClose {hooks : ℕ → FileHooks} {filp : ℕ} {next : FileStore × FileResult}
    (stepped : s.step hooks (.vfsClose filp) = some next) :
    PageCache.SameLists s.cache next.1.cache := by
  rw [step] at stepped
  rcases Option.bind_eq_some_iff.mp stepped with ⟨file, _, flushed⟩
  rcases Option.map_eq_some_iff.mp flushed with ⟨⟨err, cache⟩, ran, isNext⟩
  have same := PageCache.sameLists_flushLoop ran
  cases err <;> cases isNext <;> exact same

/-- A file is opened, read as a whole, and closed. -/
theorem read_whole (good : ground.Good) (backed : s.Backed ground)
    (nonempty : 0 < (s.inodes ino).iSize) (small : (s.inodes ino).iSize < 4294967296)
    (room : s.cache.cSize + (s.inodes ino).aPage.length ≤ cacheCapacity)
    (listed : s.cache.Listed ino) {filp : ℕ} {opened : FileStore}
    (isOpened : opened = { s with files := Function.update s.files filp (some (dentryOpen ino 0)) })
    (buf : Bytes) :
    ∃ f closed, (opened.openFile (dentryOpen ino 0)).genericFileRead (ground.hooks ino) allDone buf
        (s.inodes ino).iSize =
          some ((s.inodes ino).iSize, ByteFiles.fillBuffer buf (s.bytes ground ino), f) ∧
      (opened.putBack filp (dentryOpen ino 0) f).step ground.hooks (.vfsClose filp) =
        some (closed, ⟨0, zeros⟩) ∧
      closed.Backed ground ∧
      closed.view ground = ⟨s.bytes ground, Function.update s.files filp none⟩ ∧
      closed.cache.Listed ino ∧
      closed.cache.cSize ≤ s.cache.cSize + (s.inodes ino).aPage.length := by
  let file := dentryOpen ino 0
  have isOpen : opened.files filp = some file := by
    rw [isOpened]
    exact Function.update_self ..
  have sameInodes : opened.inodes = s.inodes := by rw [isOpened]
  have sameCache : opened.cache = s.cache := by rw [isOpened]
  have backedOpen : opened.Backed ground := by
    rcases refines_dentryOpen backed filp ino 0 with ⟨next, stepped, backed', _⟩
    cases Option.some.inj stepped
    rw [isOpened]
    exact backed'
  have viewOpen : opened.view ground = ⟨s.bytes ground, opened.files⟩ := by
    rw [isOpened]
    rfl
  have guard : opened.Guard ground (.vfsRead filp buf (s.inodes ino).iSize) :=
    ⟨file, isOpen, fun _ => ⟨by show 0 + _ < _; omega,
      Or.inr ⟨nonempty, by rw [sameInodes]; exact nonempty⟩⟩⟩
  rcases refines_vfsRead good backedOpen guard with ⟨read, stepped, backedRead, viewRead⟩
  have isStep : (opened.view ground).step (.vfsRead filp buf (s.inodes ino).iSize) =
      (⟨s.bytes ground, Function.update opened.files filp
        (some { file with fPos := (s.inodes ino).iSize })⟩,
        ⟨(s.inodes ino).iSize, ByteFiles.fillBuffer buf (s.bytes ground ino)⟩) := by
    have isIno : file.ino = ino := rfl
    have position : file.fPos = 0 := rfl
    have reads : file.reads = true := rfl
    simp only [viewOpen, ByteFiles.step, isOpen, isIno, position, reads, if_true, readAt_whole,
      length_bytes, Nat.zero_add]
  rw [isStep, step, isOpen, Option.bind_some] at stepped
  rcases Option.map_eq_some_iff.mp stepped with ⟨⟨len, buf', f⟩, ran, isResult⟩
  rcases Prod.mk.inj isResult with ⟨rfl, isBuffer⟩
  rcases FileResult.mk.inj isBuffer with ⟨rfl, rfl⟩
  have isFile : opened.openFile file = s.openFile file := by
    rw [isOpened]
    rfl
  have isListed : f.cache.Listed ino ∧
      f.cache.cSize ≤ s.cache.cSize + (s.inodes ino).aPage.length := by
    have ran' := ran
    rw [isFile] at ran'
    exact listed_genericFileRead (f := s.openFile file) good backed.apart (backed.ok file) rfl
      (backed.covers ino) nonempty small room listed ran'
  have isOpen' : (opened.putBack filp file f).files filp = some { file with fPos := f.fPos } :=
    Function.update_self ..
  rcases refines_vfsClose backedRead ⟨_, isOpen', isListed.1⟩ with
    ⟨closed, stepped', backedClosed, viewClosed⟩
  have lists := sameLists_vfsClose stepped'
  refine ⟨f, closed, ran, stepped', backedClosed, ?_, lists.listed isListed.1, ?_⟩
  · rw [viewClosed, viewRead, isStep]
    refine congrArg (ByteFiles.mk _) ?_
    show Function.update (Function.update opened.files filp _) filp none = _
    rw [isOpened, Function.update_idem, Function.update_idem]
  · rw [lists.cSize]
    exact isListed.2

/-- A file is opened, written from its beginning on, and closed. -/
theorem write_whole (good : ground.Good) (backed : s.Backed ground) {count notes : ℕ}
    (some_ : 0 < count) (small : count < 4294967296)
    (fits : (count - 1) / (ground.hooks ino).iBlksize < ground.capacity ino)
    (isNoted : ground.Notes ino notes)
    (room : s.cache.cSize + notes + ((count - 1) / (ground.hooks ino).iBlksize + 1) ≤
      cacheCapacity)
    (listed : s.cache.Listed ino) {filp : ℕ} {opened : FileStore}
    (isOpened : opened = { s with files := Function.update s.files filp (some (dentryOpen ino 1)) })
    (buf : Bytes) :
    ∃ f closed, (opened.openFile (dentryOpen ino 1)).genericFileWrite (ground.hooks ino) allDone buf
        count = some (count, f) ∧
      (opened.putBack filp (dentryOpen ino 1) f).step ground.hooks (.vfsClose filp) =
        some (closed, ⟨0, zeros⟩) ∧
      closed.Backed ground ∧
      closed.view ground = ⟨Function.update (s.bytes ground) ino
        (ByteFiles.writeAt (s.bytes ground ino) 0 ((List.range count).map buf)),
        Function.update s.files filp none⟩ := by
  let file := dentryOpen ino 1
  have isOpen : opened.files filp = some file := by
    rw [isOpened]
    exact Function.update_self ..
  have backedOpen : opened.Backed ground := by
    rcases refines_dentryOpen backed filp ino 1 with ⟨next, stepped, backed', _⟩
    cases Option.some.inj stepped
    rw [isOpened]
    exact backed'
  have viewOpen : opened.view ground = ⟨s.bytes ground, opened.files⟩ := by
    rw [isOpened]
    rfl
  have writes : file.writes = true := by
    simp [file, File.writes, dentryOpen]
  have guard : opened.Guard ground (.vfsWrite filp buf count) :=
    ⟨file, isOpen, fun _ => ⟨some_, by show 0 + _ < _; omega, by
      show (0 + count - 1) / _ < _
      rw [Nat.zero_add]
      exact fits⟩⟩
  rcases refines_vfsWrite good backedOpen guard with ⟨written, stepped, backedWritten, viewWritten⟩
  have isStep : (opened.view ground).step (.vfsWrite filp buf count) =
      (⟨Function.update (s.bytes ground) ino
          (ByteFiles.writeAt (s.bytes ground ino) 0 ((List.range count).map buf)),
        Function.update opened.files filp (some { file with fPos := count })⟩, ⟨count, buf⟩) := by
    have isIno : file.ino = ino := rfl
    have position : file.fPos = 0 := rfl
    simp only [viewOpen, ByteFiles.step, isOpen, isIno, position, writes, if_true, Nat.zero_add]
  rw [isStep, step, isOpen, Option.bind_some, if_pos writes] at stepped
  rcases Option.map_eq_some_iff.mp stepped with ⟨⟨len, f⟩, ran, isResult⟩
  rcases Prod.mk.inj isResult with ⟨rfl, isCount⟩
  have isLen : len = count := (FileResult.mk.inj isCount).1
  subst isLen
  have isFile : opened.openFile file = s.openFile file := by
    rw [isOpened]
    rfl
  have isListed : f.cache.Listed ino := by
    have ran' := ran
    rw [isFile] at ran'
    exact listed_genericFileWrite (f := s.openFile file) good backed.apart (backed.ok file)
      (backed.parent ino) rfl some_ small fits isNoted room listed ran'
  have isOpen' : (opened.putBack filp file f).files filp = some { file with fPos := f.fPos } :=
    Function.update_self ..
  rcases refines_vfsClose backedWritten ⟨_, isOpen', isListed⟩ with
    ⟨closed, stepped', backedClosed, viewClosed⟩
  refine ⟨f, closed, ran, stepped', backedClosed, ?_⟩
  rw [viewClosed, viewWritten, isStep]
  refine congrArg (ByteFiles.mk _) ?_
  show Function.update (Function.update opened.files filp _) filp none = _
  rw [isOpened, Function.update_idem, Function.update_idem]

/-- A file of three bytes, in the block 0. -/
def oneFile : FileStore where
  inodes := fun ino => if ino = 0 then ⟨true, 3, [0]⟩ else ⟨true, 0, []⟩
  files := fun _ => none
  cache := PageCache.initCache (fun _ => 0) fun _ _ => fun _ => 65

theorem backed_oneFile {hooks : ℕ → FileHooks} (fits : ∀ ino, 3 ≤ (hooks ino).iBlksize) :
    oneFile.Backed { twoFiles with hooks } := by
  refine ⟨⟨PageCache.sound_initCache .., rfl, fun ino l _ p page isCached =>
    absurd isCached.1 List.not_mem_nil⟩, fun ino => ?_, fun ino => ?_, fun ino => ?_, fun ino => ?_,
    fun filp file isOpen => absurd isOpen (Option.some_ne_none _).symm⟩
  all_goals simp only [oneFile]; split_ifs with isFile
  · rfl
  · rfl
  · exact List.nodup_singleton 0
  · exact List.nodup_nil
  · rintro l mem
    exact ⟨isFile ▸ by decide, (List.mem_singleton.mp mem).trans isFile.symm⟩
  · exact fun l mem => absurd mem List.not_mem_nil
  · rw [isFile]
    exact (fits 0).trans (Nat.one_mul _).ge
  · exact Nat.zero_le _

end FileStore

end Ninix.Vfs
