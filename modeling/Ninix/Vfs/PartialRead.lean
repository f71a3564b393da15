import Ninix.Vfs.ReadWrite

/-!
# Reading up to the end of a file

A read that asks for more than there is gets what is left. The last byte it reads is that before
the end of the file or of the part that is asked for, and where both are at the beginning of the
file there is no such byte: `generic_file_read` then takes the last page a file could have, and
goes through the pages from the first on, making those that the file does not have.
-/

namespace Ninix.Vfs

open ByteBuffer

namespace OpenFile

variable {hooks : FileHooks} {io : ℕ → PageIo} {f f' : OpenFile} {mine : ℕ → Prop}
  {buf buf' : Bytes} {count vpn : ℕ}

/-- How many bytes there are to be read. -/
def readable (f : OpenFile) (count : ℕ) : ℕ := min count (f.iSize - f.fPos)

/-- Where the part ends that is read. -/
def stop (f : OpenFile) (count : ℕ) : ℕ := min (f.fPos + count) f.iSize

/-- A read gets the bytes that there are and no others, whatever is in the buffer before, and
changes nothing of the file but the position. -/
def ReadsPart (hooks : FileHooks) (io : ℕ → PageIo) (f : OpenFile) (count : ℕ) : Prop :=
  ∀ buf, ∃ buf' f', f.genericFileRead hooks io buf count = some (f.readable count, buf', f') ∧
    (∀ j, buf' j = if j < f.readable count then f.content hooks (f.fPos + j) else buf j) ∧
    f'.fPos = f.fPos + f.readable count ∧ f'.aPage = f.aPage ∧ f'.iSize = f.iSize

theorem stop_sub (inside : f.fPos ≤ f.iSize) : f.stop count - f.fPos = f.readable count := by
  unfold stop readable
  omega

/-- The last byte that is read, as `generic_file_read` computes it. -/
theorem last_eq (small : f.fPos + count < 4294967296) :
    sub32 (if u32 (f.fPos + count) > f.iSize then f.iSize else u32 (f.fPos + count)) 1 =
      sub32 (f.stop count) 1 := by
  rw [u32_of_lt small]
  unfold stop
  split
  next beyond => rw [Nat.min_eq_right beyond.le]
  next within => rw [Nat.min_eq_left (Nat.not_lt.mp within)]

theorem genericFileRead_eq (small : f.fPos + count < 4294967296) :
    f.genericFileRead hooks io buf count =
      (readLoop hooks io (f.fPos / hooks.iBlksize) (sub32 (f.stop count) 1 / hooks.iBlksize)
        (sub32 (f.stop count) 1)
        (sub32 (f.stop count) 1 / hooks.iBlksize + 1 - f.fPos / hooks.iBlksize)
        (f.fPos / hooks.iBlksize) 0 buf f).map
          fun (len, buf, g) => (u32 len, buf, { g with fPos := u32 (g.fPos + len) }) := by
  unfold genericFileRead
  simp only [last_eq small]

/-! ## Where there is something to read -/

theorem readsPart_some (numbers : ∀ l, mine l → l ≠ minusOne32) (succeeds : Succeeds io)
    (positive : 0 < hooks.iBlksize) (ok : f.Ok mine)
    (covers : f.iSize ≤ f.aPage.length * hooks.iBlksize) (inside : f.fPos ≤ f.iSize)
    (small : f.fPos + count < 4294967296) (some_ : 0 < f.readable count) :
    f.ReadsPart hooks io count := by
  intro buf
  have length : f.stop count - f.fPos = f.readable count := stop_sub inside
  have le : f.stop count ≤ f.fPos + count := Nat.min_le_left _ _
  have inFile : f.stop count ≤ f.iSize := Nat.min_le_right _ _
  have stopSmall : f.stop count < 4294967296 := Nat.lt_of_le_of_lt le small
  have last : sub32 (f.stop count) 1 = f.stop count - 1 := sub32_of_le (by omega) stopSmall
  have covered : (f.stop count - 1) / hooks.iBlksize < f.aPage.length :=
    Nat.div_lt_of_lt_mul (by rw [Nat.mul_comm]; omega)
  have progress : Progress hooks.iBlksize f.fPos (f.stop count) (f.fPos / hooks.iBlksize)
      ((f.stop count - 1) / hooks.iBlksize + 1 - f.fPos / hooks.iBlksize) (f.fPos + 0) :=
    Progress.first positive (by omega)
  rcases readLoop_spec numbers succeeds buf stopSmall covered ok progress with
    ⟨buf', cache, ran, _, _, got, outside⟩
  refine ⟨buf', { f with cache, fPos := f.fPos + f.readable count }, ?_, fun j => ?_, rfl, rfl,
    rfl⟩
  · rw [genericFileRead_eq small, last, ran, length]
    simp only [Option.map_some]
    rw [u32_of_lt (by omega), u32_of_lt (by omega)]
  · split
    next read =>
      have here := got (f.fPos + j) (Nat.le_add_right _ _) (by omega)
      rwa [Nat.add_sub_cancel_left] at here
    next beyond => exact outside j (Or.inr (by omega))

/-! ## Where there is nothing to read -/

theorem blit_nothing (dst src : Bytes) (target source : ℕ) : blit dst target src source 0 = dst := by
  funext j
  exact blit_outside (by omega)

/-- Behind the first byte, the last page is in front of the first one, or is the page of the
position, of which no bytes are read. -/
theorem readsPart_none (numbers : ∀ l, mine l → l ≠ minusOne32) (succeeds : Succeeds io)
    (positive : 0 < hooks.iBlksize) (ok : f.Ok mine)
    (covers : f.iSize ≤ f.aPage.length * hooks.iBlksize) (inside : f.fPos ≤ f.iSize)
    (small : f.fPos + count < 4294967296) (none_ : f.readable count = 0) (pos : 0 < f.fPos) :
    f.ReadsPart hooks io count := by
  intro buf
  have isStop : f.stop count = f.fPos := by
    unfold stop
    unfold readable at none_
    omega
  have last : sub32 (f.stop count) 1 = f.fPos - 1 := by
    rw [isStop]
    exact sub32_of_le pos (by omega)
  have split := Nat.div_add_mod' f.fPos hooks.iBlksize
  rw [none_]
  suffices h : ∃ cache, readLoop hooks io (f.fPos / hooks.iBlksize)
      ((f.fPos - 1) / hooks.iBlksize) (f.fPos - 1)
      ((f.fPos - 1) / hooks.iBlksize + 1 - f.fPos / hooks.iBlksize) (f.fPos / hooks.iBlksize) 0 buf
      f = some (0, buf, { f with cache }) by
    rcases h with ⟨cache, ran⟩
    refine ⟨buf, { f with cache }, ?_, fun j => (if_neg (Nat.not_lt_zero j)).symm, rfl, rfl, rfl⟩
    rw [genericFileRead_eq small, last, ran]
    simp only [Option.map_some, Nat.add_zero]
    rw [u32_of_lt (by decide), u32_of_lt (by omega)]
  by_cases aligned : f.fPos % hooks.iBlksize = 0
  · have before : (f.fPos - 1) / hooks.iBlksize < f.fPos / hooks.iBlksize := by
      rw [Nat.div_lt_iff_lt_mul positive]
      omega
    have rounds : (f.fPos - 1) / hooks.iBlksize + 1 - f.fPos / hooks.iBlksize = 0 := by omega
    refine ⟨f.cache, ?_⟩
    rw [rounds]
    rfl
  · have lt := Nat.mod_lt f.fPos positive
    have same : (f.fPos - 1) / hooks.iBlksize = f.fPos / hooks.iBlksize := by
      have succ : (f.fPos / hooks.iBlksize + 1) * hooks.iBlksize =
          f.fPos / hooks.iBlksize * hooks.iBlksize + hooks.iBlksize := Nat.succ_mul _ _
      apply Nat.div_eq_of_lt_le <;> omega
    have off : (f.fPos - 1) % hooks.iBlksize = f.fPos % hooks.iBlksize - 1 := by
      have split' := Nat.div_add_mod' (f.fPos - 1) hooks.iBlksize
      rw [same] at split'
      omega
    have covered : f.fPos / hooks.iBlksize < f.aPage.length := by
      apply Nat.lt_of_mul_lt_mul_right (a := hooks.iBlksize)
      omega
    have isOld : Available hooks mine f.aPage (f.fPos / hooks.iBlksize) := Or.inl covered
    rcases findPage_spec ok numbers succeeds isOld with
      ⟨p, page, aPage, cache, found, _, isPrefix, length, isCached, _, _⟩
    have sameBlocks : aPage = f.aPage := (isPrefix.eq_of_length (by omega)).symm
    subst sameBlocks
    have nothing : sub32 (f.fPos % hooks.iBlksize - 1 + 1) (f.fPos % hooks.iBlksize) = 0 := by
      have back : f.fPos % hooks.iBlksize - 1 + 1 = f.fPos % hooks.iBlksize := by omega
      have le := Nat.mod_le f.fPos hooks.iBlksize
      rw [back, sub32_of_le (Nat.le_refl _) (by omega), Nat.sub_self]
    refine ⟨cache, ?_⟩
    have rounds : f.fPos / hooks.iBlksize + 1 - f.fPos / hooks.iBlksize = 1 := by omega
    rw [same, rounds]
    simp only [readLoop, found, Option.bind_some, isCached.2.1, if_true, off, nothing,
      blit_nothing]

/-! ## Where the last byte is none -/

/-- A page that is found leaves the file with the pages it had and maybe more. -/
theorem findPage_prefix {page : Option ℕ} (found : f.findPage hooks io vpn = some (page, f')) :
    f.aPage <+: f'.aPage := by
  have made : f.aPage <+: (f.bmap hooks vpn).2.aPage := by
    unfold bmap
    split
    · split
      · exact List.prefix_refl _
      · exact List.prefix_append _ _
    · exact List.prefix_refl _
  unfold findPage at found
  simp only at found
  split at found
  · cases found
    exact made
  · rcases Option.map_eq_some_iff.mp found with ⟨⟨page', cache⟩, _, pair⟩
    cases pair
    exact made

/-- What has been read stays in the buffer, and the pages of the file stay its own. -/
theorem readLoop_keeps {beginPage endPage endLast rounds len len' : ℕ}
    (ran : readLoop hooks io beginPage endPage endLast rounds vpn len buf f =
      some (len', buf', f')) :
    (∀ j < len, buf' j = buf j) ∧ f.aPage <+: f'.aPage := by
  induction rounds generalizing vpn len buf f with
  | zero =>
      cases ran
      exact ⟨fun _ _ => rfl, List.prefix_refl _⟩
  | succ rounds ih =>
      simp only [readLoop, Option.bind_eq_some_iff] at ran
      rcases ran with ⟨⟨page, g⟩, found, ran⟩
      have grown := findPage_prefix found
      cases page with
      | none =>
          cases ran
          exact ⟨fun _ _ => rfl, grown⟩
      | some p =>
          rcases Option.bind_eq_some_iff.mp ran with ⟨page, _, ran'⟩
          rcases ih ran' with ⟨kept, grown'⟩
          refine ⟨fun j read => ?_, grown.trans grown'⟩
          rw [kept j (by omega), blit_outside (Or.inl read)]

/-- The file has no page and gets none. -/
def NoPages (hooks : FileHooks) (f : OpenFile) : Prop :=
  f.aPage = [] ∧ ∀ blocks, hooks.createPage [] 1 = some blocks → blocks = []

/-- The pages that are gone through when there is no last byte. -/
theorem genericFileRead_wraps (start : f.fPos = 0) (none_ : f.readable count = 0)
    (small : f.fPos + count < 4294967296) :
    f.genericFileRead hooks io buf count =
      (readLoop hooks io 0 (4294967295 / hooks.iBlksize) 4294967295
        (4294967295 / hooks.iBlksize + 1) 0 0 buf f).map
          fun (len, buf, g) => (u32 len, buf, { g with fPos := u32 (g.fPos + len) }) := by
  have isStop : f.stop count = 0 := by
    unfold stop
    unfold readable at none_
    omega
  have last : sub32 0 1 = 4294967295 := by decide
  rw [genericFileRead_eq small, isStop, last, start, Nat.zero_div, Nat.sub_zero]

/-- The first page of a file that has none is made. -/
theorem bmap_first (noPage : f.aPage = []) : f.bmap hooks 0 =
    match hooks.createPage [] 1 with
    | none => (minusOne32, f)
    | some blocks => (blocks.getD 0 minusOne32, { f with aPage := blocks }) := by
  unfold bmap
  have beyond : 0 ≥ ([] : List ℕ).length := Nat.le_refl 0
  rw [noPage, if_pos beyond]
  show (match hooks.createPage [] 1 with
    | none => (minusOne32, f)
    | some blocks => _) = _
  cases hooks.createPage [] 1 with
  | none => rfl
  | some blocks => rfl

theorem readsPart_noPages (start : f.fPos = 0) (none_ : f.readable count = 0)
    (small : f.fPos + count < 4294967296) (noPages : f.NoPages hooks) :
    f.ReadsPart hooks io count := by
  rcases noPages with ⟨noPage, getsNone⟩
  have unmade : f.bmap hooks 0 = (minusOne32, f) := by
    rw [bmap_first noPage]
    cases made : hooks.createPage [] 1 with
    | none => rfl
    | some blocks =>
        rw [getsNone blocks made]
        show (minusOne32, ({ f with aPage := [] } : OpenFile)) = (minusOne32, f)
        rw [← noPage]
  intro buf
  rw [none_]
  refine ⟨buf, f, ?_, fun j => (if_neg (Nat.not_lt_zero j)).symm, rfl, rfl, rfl⟩
  rw [genericFileRead_wraps start none_ small, readLoop, findPage]
  simp only [unmade, if_true, Option.bind_some, Option.map_some, Nat.add_zero]
  rw [u32_of_lt (by decide), u32_of_lt (by omega)]

/-- Where a page is there or is made, its bytes are read, or the file has a page more. -/
theorem not_readsPart_wraps (numbers : ∀ l, mine l → l ≠ minusOne32) (succeeds : Succeeds io)
    (positive : 0 < hooks.iBlksize) (sizeSmall : hooks.iBlksize < 4294967296) (ok : f.Ok mine)
    (start : f.fPos = 0) (none_ : f.readable count = 0) (small : f.fPos + count < 4294967296)
    (pages : ¬f.NoPages hooks) : ¬f.ReadsPart hooks io count := by
  intro reads
  -- a buffer whose first byte is not that of the file
  rcases reads fun _ => f.content hooks 0 + 1 with ⟨buf', f', ran, bytes, _, blocks, _⟩
  rw [none_] at bytes
  have first := bytes 0
  rw [if_neg (Nat.lt_irrefl 0)] at first
  rw [genericFileRead_wraps start none_ small] at ran
  rcases Option.map_eq_some_iff.mp ran with ⟨⟨len, buf₁, g⟩, looped, pair⟩
  simp only [Prod.mk.injEq] at pair
  rcases pair with ⟨_, rfl, rfl⟩
  rw [readLoop] at looped
  rcases Option.bind_eq_some_iff.mp looped with ⟨⟨page, g₁⟩, found, looped⟩
  have notLast : 0 ≠ 4294967295 / hooks.iBlksize := by
    have one : 1 ≤ 4294967295 / hooks.iBlksize := (Nat.one_le_div_iff positive).mpr (by omega)
    omega
  by_cases noPage : f.aPage = []
  · -- a page is made, and the file keeps it
    have made : ∃ blocks, hooks.createPage [] 1 = some blocks ∧ blocks ≠ [] := by
      by_contra getsNone
      refine pages ⟨noPage, fun blocks created => ?_⟩
      by_contra notNone
      exact getsNone ⟨blocks, created, notNone⟩
    rcases made with ⟨new, created, notNone⟩
    have grown : g₁.aPage = new := by
      have isMade : f.bmap hooks 0 = (new.getD 0 minusOne32, { f with aPage := new }) := by
        rw [bmap_first noPage, created]
      unfold findPage at found
      simp only [isMade] at found
      split at found
      · cases found
        rfl
      · rcases Option.map_eq_some_iff.mp found with ⟨_, _, pair⟩
        cases pair
        rfl
    have kept : g₁.aPage <+: g.aPage := by
      cases page with
      | none =>
          cases looped
          exact List.prefix_refl _
      | some p =>
          rcases Option.bind_eq_some_iff.mp looped with ⟨page, _, rest⟩
          exact (readLoop_keeps rest).2
    have same : g.aPage = [] := blocks.trans noPage
    rw [same, grown] at kept
    exact notNone (List.prefix_nil.mp kept)
  · -- the first page is read
    have covered : 0 < f.aPage.length := List.length_pos_iff.mpr noPage
    have isOld : Available hooks mine f.aPage 0 := Or.inl covered
    rcases findPage_spec ok numbers succeeds isOld with
      ⟨p, page', aPage, cache, found', _, _, _, isCached, data, kept⟩
    rw [found] at found'
    cases found'
    simp only [isCached.2.1, Option.bind_some, start, Nat.zero_mod, ite_self, if_neg notLast]
      at looped
    have whole : sub32 (hooks.iBlksize - 1 + 1) 0 = hooks.iBlksize := by
      have back : hooks.iBlksize - 1 + 1 = hooks.iBlksize := by omega
      rw [back, sub32_of_le (Nat.zero_le _) sizeSmall, Nat.sub_zero]
    rw [whole] at looped
    have read := (readLoop_keeps looped).1 0 (by omega)
    rw [blit_inside (Nat.le_refl 0) (by omega), data, kept 0 covered] at read
    rw [read] at first
    have isFirst : f.pageOf 0 0 = f.content hooks 0 := by
      unfold content
      rw [Nat.zero_div, Nat.zero_mod]
    exact absurd (isFirst.symm.trans first) (by simp)

/--
With all pages to be had, a read gets exactly the part of the file that is asked for when it
starts behind the first byte, or something is asked for of a file that is not empty, or the file
has no page and gets none.
-/
theorem readsPart_iff (numbers : ∀ l, mine l → l ≠ minusOne32) (succeeds : Succeeds io)
    (positive : 0 < hooks.iBlksize) (sizeSmall : hooks.iBlksize < 4294967296) (ok : f.Ok mine)
    (covers : f.iSize ≤ f.aPage.length * hooks.iBlksize) (inside : f.fPos ≤ f.iSize)
    (small : f.fPos + count < 4294967296) :
    f.ReadsPart hooks io count ↔
      0 < f.fPos ∨ 0 < count ∧ 0 < f.iSize ∨ f.NoPages hooks := by
  by_cases some_ : 0 < f.readable count
  · refine iff_of_true (readsPart_some numbers succeeds positive ok covers inside small some_) ?_
    unfold readable at some_
    exact Or.inr (Or.inl (by omega))
  have none_ : f.readable count = 0 := by omega
  by_cases pos : 0 < f.fPos
  · have reads := readsPart_none numbers succeeds positive ok covers inside small none_ pos
    exact iff_of_true reads (Or.inl pos)
  have start : f.fPos = 0 := by omega
  have asked : ¬(0 < count ∧ 0 < f.iSize) := by
    unfold readable at none_
    omega
  rw [or_iff_right pos, or_iff_right asked]
  constructor
  · intro reads
    by_contra pages
    exact not_readsPart_wraps numbers succeeds positive sizeSmall ok start none_ small pages reads
  · exact readsPart_noPages start none_ small

/-- A file of 500 bytes in the block 7. -/
theorem shortFile_ok (fPos iSize : ℕ) :
    ({ shortFile with fPos, iSize } : OpenFile).Ok (· = 7) :=
  ⟨PageCache.sound_initCache .., by simp [shortFile], by simp [shortFile],
    fun l _ p page isCached => absurd isCached.1 (by simp [shortFile, PageCache.initCache])⟩

/-- A read of 100 bytes from 450 on gets the last 50. -/
theorem readsPart_iff_end : ({ shortFile with fPos := 450 } : OpenFile).ReadsPart freshBlocks
    (fun _ => ⟨true, .done⟩) 100 := by
  have numbers : ∀ l : ℕ, l = 7 → l ≠ minusOne32 := by
    rintro l rfl
    decide
  exact (readsPart_iff numbers (fun _ => ⟨rfl, rfl⟩) (by decide) (by decide)
    (shortFile_ok 450 500) (by decide) (by decide) (by decide)).mpr (Or.inl (by decide))

/-- A read of no bytes at the beginning does not. -/
theorem not_readsPart_nothing : ¬({ shortFile with fPos := 0 } : OpenFile).ReadsPart freshBlocks
    (fun _ => ⟨true, .done⟩) 0 := by
  have numbers : ∀ l : ℕ, l = 7 → l ≠ minusOne32 := by
    rintro l rfl
    decide
  exact not_readsPart_wraps numbers (fun _ => ⟨rfl, rfl⟩) (by decide) (by decide)
    (shortFile_ok 0 500) rfl rfl (by decide) fun noPages => absurd noPages.1 (by decide)

end OpenFile

end Ninix.Vfs
