import Ninix.Vfs.ReadWrite

/-!
# Writes that stop early

A write can stop before its first page, because the inode has no dentry or its size could not be
noted, or at any page that cannot be had. `generic_file_write` notes the size the file would have
after the whole write before it writes the first page, and does not come back to it.
-/

namespace Ninix.Vfs

open ByteBuffer

/-- The record of a file in its directory or among the inodes: what `write_inode` does to it with
the size of the inode, with whether it fails, and the size that it notes. -/
structure SizeRecord (σ : Type) where
  writeInode : ℕ → σ → Bool × σ
  size : σ → ℕ

/-- Where a write stops. -/
inductive FailurePoint
  | noDentry
  | metadata
  | page (vpn : ℕ)
  deriving DecidableEq

namespace OpenFile

section

variable (hooks : FileHooks) (io : ℕ → PageIo)

/-- The loop of `generic_file_write`, with the page at which it stops. -/
def writeLoopAt (buf : Bytes) (beginPage endPage endLast : ℕ) :
    ℕ → ℕ → ℕ → OpenFile → Option (ℕ × Option FailurePoint × OpenFile)
  | 0, _, len, f => some (len, none, f)
  | rounds + 1, vpn, len, f =>
      let beginOff := if vpn = beginPage then f.fPos % hooks.iBlksize else 0
      let endOff := if vpn = endPage then endLast % hooks.iBlksize else hooks.iBlksize - 1
      (f.findPage hooks io vpn).bind fun
        | (none, f) => some (len, some (.page vpn), f)
        | (some p, f) =>
            (f.cache.pages p).bind fun page =>
              let count := sub32 (endOff + 1) beginOff
              (f.cache.modify p (blit page.pData beginOff buf len count)).bind fun cache =>
                writeLoopAt buf beginPage endPage endLast rounds (vpn + 1) (len + count)
                  { f with cache }

/-- `generic_file_write` with the record of the file: how many bytes are written, where it stops,
the file and the record -/
def genericFileWriteAt {σ : Type} (record : SizeRecord σ) (e : σ) (f : OpenFile) (buf : Bytes)
    (count : ℕ) : Option (ℕ × Option FailurePoint × OpenFile × σ) :=
  let beginPage := f.fPos / hooks.iBlksize
  let size := u32 (f.fPos + count)
  let last := sub32 size 1
  let endPage := last / hooks.iBlksize
  let write := fun (f : OpenFile) (e : σ) =>
    (writeLoopAt hooks io buf beginPage endPage last (endPage + 1 - beginPage) beginPage 0 f).map
      fun (len, point, f) => (u32 len, point, { f with fPos := u32 (f.fPos + len) }, e)
  if size > f.iSize then
    if f.parent then
      let wrote := record.writeInode size e
      let f := { f with iSize := size }
      if wrote.1 then some (0, some .metadata, f, wrote.2) else write f wrote.2
    else some (0, some .noDentry, f, e)
  else write f e

end

variable {hooks : FileHooks} {io : ℕ → PageIo} {f f' : OpenFile} {buf : Bytes}
  {beginPage endPage endLast rounds vpn len len' count n : ℕ} {point : Option FailurePoint}
  {σ : Type} {record : SizeRecord σ} {e e' : σ}

theorem writeLoopAt_missing (missing : f.findPage hooks io vpn = some (none, f')) :
    writeLoopAt hooks io buf beginPage endPage endLast (rounds + 1) vpn len f =
      some (len, some (.page vpn), f') := by
  rw [writeLoopAt, missing]
  rfl

/-- The loop is that of `generic_file_write`. -/
theorem writeLoopAt_eq : (writeLoopAt hooks io buf beginPage endPage endLast rounds vpn len f).map
    (fun (len, _, f) => (len, f)) =
      writeLoop hooks io buf beginPage endPage endLast rounds vpn len f := by
  induction rounds generalizing vpn len f with
  | zero => rfl
  | succ rounds ih =>
      simp only [writeLoopAt, writeLoop]
      rcases f.findPage hooks io vpn with _ | ⟨_ | p, g⟩
      · rfl
      · rfl
      · simp only [Option.bind_some]
        cases g.cache.pages p with
        | none => rfl
        | some page =>
            simp only [Option.bind_some]
            generalize blit page.pData _ buf len _ = data
            cases g.cache.modify p data with
            | none => rfl
            | some cache => exact ih

/-- So is the write, with a `write_inode` that leaves the pages of the file alone. -/
theorem genericFileWriteAt_eq : (f.genericFileWriteAt hooks io record e buf count).map
    (fun (n, _, f, _) => (n, f)) =
      f.genericFileWrite { hooks with
        writeInode := fun cache => some ((record.writeInode (u32 (f.fPos + count)) e).1, cache) }
        io buf count := by
  have loop (f : OpenFile) (buf : Bytes) (beginPage endPage endLast rounds vpn len : ℕ)
      (writeInode : PageCache Bytes → Option (Bool × PageCache Bytes)) :
      writeLoop { hooks with writeInode } io buf beginPage endPage endLast rounds vpn len f =
        writeLoop hooks io buf beginPage endPage endLast rounds vpn len f := by
    induction rounds generalizing vpn len f with
    | zero => rfl
    | succ rounds ih =>
        simp only [writeLoop, findPage, bmap, ih]
  unfold genericFileWriteAt genericFileWrite enlarge
  dsimp only
  generalize u32 (f.fPos + count) = size
  generalize sub32 size 1 = last
  simp only [loop, ← writeLoopAt_eq]
  split
  · cases f.parent with
    | false => rfl
    | true =>
        simp only [if_true, Option.map_some, Option.bind_some]
        cases (record.writeInode size e).1 with
        | false =>
            simp only [Bool.not_false, if_true, Option.map_map, Bool.false_eq_true, if_false]
            refine congrArg (Option.map · _) (funext ?_)
            rintro ⟨len, point, g⟩
            rfl
        | true => rfl
  · rw [Option.bind_some, if_pos rfl, Option.map_map, Option.map_map]
    refine congrArg (Option.map · _) (funext ?_)
    rintro ⟨len, point, g⟩
    rfl

/-! ## How far a write gets -/

/-- The position at which page `vpn` begins, for the part of the file that is written. -/
def startOf (hooks : FileHooks) (f : OpenFile) (vpn : ℕ) : ℕ :=
  if vpn = f.fPos / hooks.iBlksize then f.fPos else vpn * hooks.iBlksize

theorem findPage_keeps {page : Option ℕ} (found : f.findPage hooks io vpn = some (page, f')) :
    f'.iSize = f.iSize ∧ f'.fPos = f.fPos := by
  have made : (f.bmap hooks vpn).2.iSize = f.iSize ∧ (f.bmap hooks vpn).2.fPos = f.fPos := by
    unfold bmap
    split
    · split
      · exact ⟨rfl, rfl⟩
      · exact ⟨rfl, rfl⟩
    · exact ⟨rfl, rfl⟩
  unfold findPage at found
  simp only at found
  split at found
  · cases found
    exact made
  · rcases Option.map_eq_some_iff.mp found with ⟨⟨page', cache⟩, _, pair⟩
    cases pair
    exact made

/-- What is left of a page in front of the last one. -/
theorem startOf_succ (positive : 0 < hooks.iBlksize) (sizeSmall : hooks.iBlksize < 4294967296)
    (since : f.fPos / hooks.iBlksize ≤ vpn) :
    f.startOf hooks vpn + sub32 (hooks.iBlksize - 1 + 1)
      (if vpn = f.fPos / hooks.iBlksize then f.fPos % hooks.iBlksize else 0) =
        f.startOf hooks (vpn + 1) := by
  have split := Nat.div_add_mod' f.fPos hooks.iBlksize
  have lt := Nat.mod_lt f.fPos positive
  have succ : (vpn + 1) * hooks.iBlksize = vpn * hooks.iBlksize + hooks.iBlksize :=
    Nat.succ_mul _ _
  have back : hooks.iBlksize - 1 + 1 = hooks.iBlksize := by omega
  unfold startOf
  rw [back, if_neg (by omega : vpn + 1 ≠ f.fPos / hooks.iBlksize), succ]
  split
  next isFirst =>
    rw [← isFirst] at split
    rw [sub32_of_le (by omega) sizeSmall]
    omega
  next => rw [sub32_of_le (by omega) sizeSmall, Nat.sub_zero]

/-- What is left of the last page. -/
theorem startOf_last (positive : 0 < hooks.iBlksize) (sizeSmall : hooks.iBlksize < 4294967296)
    (started : f.fPos ≤ endLast) (isLast : vpn = endLast / hooks.iBlksize) :
    f.startOf hooks vpn + sub32 (endLast % hooks.iBlksize + 1)
      (if vpn = f.fPos / hooks.iBlksize then f.fPos % hooks.iBlksize else 0) = endLast + 1 := by
  have split := Nat.div_add_mod' f.fPos hooks.iBlksize
  have splitLast := Nat.div_add_mod' endLast hooks.iBlksize
  have lt := Nat.mod_lt endLast positive
  rw [← isLast] at splitLast
  unfold startOf
  split
  next isFirst =>
    rw [← isFirst] at split
    rw [sub32_of_le (by omega) (by omega)]
    omega
  next => rw [sub32_of_le (by omega) (by omega)]; omega

/-- A write stops at the beginning of a page, or gets to its last byte. -/
theorem writeLoopAt_spec (positive : 0 < hooks.iBlksize) (sizeSmall : hooks.iBlksize < 4294967296)
    (started : f.fPos ≤ endLast) (since : f.fPos / hooks.iBlksize ≤ vpn)
    (left : vpn + rounds = endLast / hooks.iBlksize + 1)
    (position : f.fPos + len = if rounds = 0 then endLast + 1 else f.startOf hooks vpn)
    (ran : writeLoopAt hooks io buf (f.fPos / hooks.iBlksize) (endLast / hooks.iBlksize) endLast
      rounds vpn len f = some (len', point, f')) :
    f'.iSize = f.iSize ∧ f'.fPos = f.fPos ∧
      ((point = none ∧ f.fPos + len' = endLast + 1) ∨
        ∃ v, point = some (.page v) ∧ v ≤ endLast / hooks.iBlksize ∧
          f.fPos / hooks.iBlksize ≤ v ∧ f.fPos + len' = f.startOf hooks v) := by
  induction rounds generalizing vpn len f with
  | zero =>
      cases ran
      rw [if_pos rfl] at position
      exact ⟨rfl, rfl, Or.inl ⟨rfl, position⟩⟩
  | succ rounds ih =>
      rw [if_neg (Nat.succ_ne_zero rounds)] at position
      simp only [writeLoopAt, Option.bind_eq_some_iff] at ran
      rcases ran with ⟨⟨page, g⟩, found, ran⟩
      rcases findPage_keeps found with ⟨size, pos⟩
      cases page with
      | none =>
          cases ran
          exact ⟨size, pos, Or.inr ⟨vpn, rfl, by omega, since, position⟩⟩
      | some p =>
          simp only [Option.bind_eq_some_iff] at ran
          rcases ran with ⟨page, _, cache, _, ran⟩
          have starts : ∀ v, ({ g with cache } : OpenFile).startOf hooks v = f.startOf hooks v := by
            intro v
            unfold startOf
            rw [pos]
          have next := ih (f := { g with cache }) (pos ▸ started) (pos ▸ Nat.le_succ_of_le since)
            (by omega) ?_ (by rw [← pos] at ran; exact ran)
          · simp only [starts] at next
            rw [← size, ← pos]
            exact next
          · rw [starts]
            show g.fPos + _ = _
            rw [pos, ← Nat.add_assoc, position]
            by_cases isLast : vpn = endLast / hooks.iBlksize
            · rw [if_pos isLast, if_pos (by omega : rounds = 0)]
              exact startOf_last positive sizeSmall started isLast
            · rw [if_neg isLast, if_neg (by omega : rounds ≠ 0)]
              exact startOf_succ positive sizeSmall since

/-! ## The size that is left -/

/-- The size of the inode and the size that is noted are that of the file with what has been
written. -/
structure Truthful (record : SizeRecord σ) (f : OpenFile) (n : ℕ) (f' : OpenFile) (e' : σ) :
    Prop where
  iSize : f'.iSize = max f.iSize (f.fPos + n)
  recorded : record.size e' = max f.iSize (f.fPos + n)
  fPos : f'.fPos = f.fPos + n

/-- When a write of `count` bytes may stop: when no size has to be noted for it, because the file
is large enough, is in no directory or has no room for so many bytes. If its last byte is that of
the largest file, it may stop at the pages that begin at or before the end of the file. -/
def MayStop (hooks : FileHooks) (f : OpenFile) (count : ℕ) (point : Option FailurePoint) : Prop :=
  f.fPos + count ≤ f.iSize ∨ f.fPos + count < 4294967296 ∧ f.parent = false ∨
    4294967296 < f.fPos + count ∨
    f.fPos + count = 4294967296 ∧ ∀ v, point = some (.page v) → f.startOf hooks v ≤ f.iSize

/-- A write that goes through its pages. -/
def Writes (hooks : FileHooks) (io : ℕ → PageIo) (f : OpenFile) (buf : Bytes) (count n : ℕ)
    (point : Option FailurePoint) (f' : OpenFile) : Prop :=
  ∃ len g, writeLoopAt hooks io buf (f.fPos / hooks.iBlksize)
      (sub32 (u32 (f.fPos + count)) 1 / hooks.iBlksize) (sub32 (u32 (f.fPos + count)) 1)
      (sub32 (u32 (f.fPos + count)) 1 / hooks.iBlksize + 1 - f.fPos / hooks.iBlksize)
      (f.fPos / hooks.iBlksize) 0 f = some (len, point, g) ∧ n = u32 len ∧
    f' = { g with fPos := u32 (g.fPos + len) }

/-- The ways a write can end. -/
theorem genericFileWriteAt_cases
    (wrote : f.genericFileWriteAt hooks io record e buf count = some (n, point, f', e')) :
    (u32 (f.fPos + count) ≤ f.iSize ∧ e' = e ∧ f.Writes hooks io buf count n point f') ∨
      f.iSize < u32 (f.fPos + count) ∧
        (f.parent = false ∧ n = 0 ∧ f' = f ∧ e' = e ∨
          f.parent = true ∧ n = 0 ∧ f' = { f with iSize := u32 (f.fPos + count) } ∨
          f.parent = true ∧ ({ f with iSize := u32 (f.fPos + count) } : OpenFile).Writes hooks io buf
            count n point f') := by
  unfold genericFileWriteAt at wrote
  dsimp only at wrote
  split at wrote
  next grows =>
    refine Or.inr ⟨grows, ?_⟩
    split at wrote
    next inDirectory =>
      split at wrote
      · cases wrote
        exact Or.inr (Or.inl ⟨inDirectory, rfl, rfl⟩)
      · rcases Option.map_eq_some_iff.mp wrote with ⟨⟨len, point', g⟩, ran, quadruple⟩
        simp only [Prod.mk.injEq] at quadruple
        rcases quadruple with ⟨isLen, rfl, rfl, _⟩
        exact Or.inr (Or.inr ⟨inDirectory, len, g, ran, isLen.symm, rfl⟩)
    next noDirectory =>
      cases wrote
      exact Or.inl ⟨Bool.eq_false_iff.mpr noDirectory, rfl, rfl, rfl⟩
  next fits =>
    rcases Option.map_eq_some_iff.mp wrote with ⟨⟨len, point', g⟩, ran, quadruple⟩
    simp only [Prod.mk.injEq] at quadruple
    rcases quadruple with ⟨isLen, rfl, rfl, rfl⟩
    exact Or.inl ⟨Nat.not_lt.mp fits, rfl, len, g, ran, isLen.symm, rfl⟩

/-- What a write does that does not go past the last byte of the largest file. -/
theorem Writes.spec (writes : f.Writes hooks io buf count n point f')
    (positive : 0 < hooks.iBlksize) (sizeSmall : hooks.iBlksize < 4294967296)
    (some_ : 1 ≤ count) (small : count < 4294967296) (le : f.fPos + count ≤ 4294967296) :
    f'.iSize = f.iSize ∧
      ((point = none ∧ n = count) ∨ ∃ v, point = some (.page v) ∧ f.startOf hooks v < f.fPos + count ∧
        f.fPos + n = f.startOf hooks v ∧ f'.fPos = f.fPos + n) := by
  rcases writes with ⟨len, g, ran, rfl, rfl⟩
  have last : sub32 (u32 (f.fPos + count)) 1 = f.fPos + count - 1 := by
    unfold sub32 u32
    omega
  rw [last] at ran
  have split := Nat.div_add_mod' (f.fPos + count - 1) hooks.iBlksize
  have since : f.fPos / hooks.iBlksize ≤ (f.fPos + count - 1) / hooks.iBlksize :=
    Nat.div_le_div_right (by omega)
  have position : f.fPos + 0 = if (f.fPos + count - 1) / hooks.iBlksize + 1 -
      f.fPos / hooks.iBlksize = 0 then f.fPos + count - 1 + 1 else
        f.startOf hooks (f.fPos / hooks.iBlksize) := by
    rw [if_neg (by omega)]
    exact (if_pos rfl).symm
  rcases writeLoopAt_spec positive sizeSmall (by omega) (Nat.le_refl _) (by omega) position ran with
    ⟨size, pos, ⟨isNone, isEnd⟩ | ⟨v, isPage, atMost, _, isStart⟩⟩
  · refine ⟨size, Or.inl ⟨isNone, ?_⟩⟩
    rw [u32_of_lt (by omega)]
    omega
  · have before : f.startOf hooks v < f.fPos + count := by
      have mul := Nat.mul_le_mul_right hooks.iBlksize atMost
      unfold startOf
      split
      · omega
      · omega
    refine ⟨size, Or.inr ⟨v, isPage, before, ?_, ?_⟩⟩
    · rw [u32_of_lt (by omega)]
      exact isStart
    · show u32 (g.fPos + len) = f.fPos + u32 len
      rw [pos, u32_of_lt (by omega), u32_of_lt (by omega)]

/-- A write past the last byte of the largest file writes nothing, or all of it if its bytes are
in one page. -/
theorem Writes.wrapped (writes : f.Writes hooks io buf count n point f')
    (posSmall : f.fPos < 4294967296) (small : count < 4294967296)
    (past : 4294967296 < f.fPos + count) (short : n < count) :
    f'.iSize = f.iSize ∧ n = 0 ∧ f'.fPos = f.fPos := by
  rcases writes with ⟨len, g, ran, rfl, rfl⟩
  have last : sub32 (u32 (f.fPos + count)) 1 = f.fPos + count - 4294967297 := by
    unfold sub32 u32
    omega
  have before : (f.fPos + count - 4294967297) / hooks.iBlksize ≤ f.fPos / hooks.iBlksize :=
    Nat.div_le_div_right (by omega)
  rw [last] at ran
  by_cases same : (f.fPos + count - 4294967297) / hooks.iBlksize = f.fPos / hooks.iBlksize
  · have one : f.fPos / hooks.iBlksize + 1 - f.fPos / hooks.iBlksize = 1 := by omega
    rw [same, one] at ran
    simp only [writeLoopAt, if_true, Option.bind_eq_some_iff] at ran
    rcases ran with ⟨⟨page, g₁⟩, found, ran⟩
    rcases findPage_keeps found with ⟨size, pos⟩
    cases page with
    | none =>
        cases ran
        refine ⟨size, rfl, ?_⟩
        show u32 (g.fPos + 0) = f.fPos
        rw [pos, Nat.add_zero, u32_of_lt posSmall]
    | some p =>
        -- the last byte is in front of the first, and so many bytes are copied that all are
        simp only [Option.bind_eq_some_iff] at ran
        rcases ran with ⟨page, _, cache, _, ran⟩
        cases ran
        have split := Nat.div_add_mod' f.fPos hooks.iBlksize
        have splitLast := Nat.div_add_mod' (f.fPos + count - 4294967297) hooks.iBlksize
        rw [same] at splitLast
        exfalso
        unfold sub32 u32 at short
        omega
  · have none_ : (f.fPos + count - 4294967297) / hooks.iBlksize + 1 -
        f.fPos / hooks.iBlksize = 0 := by omega
    rw [none_] at ran
    cases ran
    refine ⟨rfl, rfl, ?_⟩
    show u32 (f.fPos + 0) = f.fPos
    rw [Nat.add_zero, u32_of_lt posSmall]

/--
A write that writes less than it is asked to leaves the size of the file truthful exactly when it
stops where it may stop and the size has been noted truthfully before.
-/
theorem truthful_iff (positive : 0 < hooks.iBlksize) (sizeSmall : hooks.iBlksize < 4294967296)
    (inside : f.fPos ≤ f.iSize) (fileSmall : f.iSize < 4294967296) (some_ : 1 ≤ count)
    (small : count < 4294967296)
    (wrote : f.genericFileWriteAt hooks io record e buf count = some (n, point, f', e'))
    (short : n < count) :
    Truthful record f n f' e' ↔ record.size e = f.iSize ∧ MayStop hooks f count point := by
  rcases genericFileWriteAt_cases wrote with ⟨fits, rfl, writes⟩ | ⟨grows, ends⟩
  · by_cases past : 4294967296 < f.fPos + count
    · rcases writes.wrapped (by omega) small past short with ⟨size, rfl, pos⟩
      have most : max f.iSize (f.fPos + 0) = f.iSize := by omega
      constructor
      · intro truthful
        exact ⟨truthful.recorded.trans most, Or.inr (Or.inr (Or.inl past))⟩
      · rintro ⟨recorded, _⟩
        exact ⟨size.trans most.symm, recorded.trans most.symm, pos⟩
    · rcases writes.spec positive sizeSmall some_ small (by omega) with
        ⟨size, ⟨_, all⟩ | ⟨v, rfl, before, isStart, pos⟩⟩
      · exact absurd all (Nat.ne_of_lt short)
      · constructor
        · intro truthful
          have le := truthful.iSize
          rw [size, isStart] at le
          have most : max f.iSize (f.fPos + n) = f.iSize := by omega
          refine ⟨truthful.recorded.trans most, ?_⟩
          by_cases isLast : f.fPos + count = 4294967296
          · refine Or.inr (Or.inr (Or.inr ⟨isLast, fun w isPage => ?_⟩))
            cases isPage
            omega
          · rw [u32_of_lt (by omega)] at fits
            exact Or.inl fits
        · rintro ⟨recorded, mayStop⟩
          have le : f.startOf hooks v ≤ f.iSize := by
            rcases mayStop with le | ⟨noWrap, _⟩ | past' | ⟨_, atLast⟩
            · omega
            · rw [u32_of_lt noWrap] at fits
              omega
            · exact absurd past' past
            · exact atLast v rfl
          have most : max f.iSize (f.fPos + n) = f.iSize := by omega
          exact ⟨size.trans most.symm, recorded.trans most.symm, pos⟩
  · have noWrap : f.fPos + count < 4294967296 := by
      unfold u32 at grows
      omega
    rw [u32_of_lt noWrap] at grows ends
    have notInside (inDirectory : f.parent = true) : ¬MayStop hooks f count point := by
      rintro (le | ⟨_, noDirectory⟩ | past | ⟨isLast, _⟩)
      · omega
      · exact absurd (inDirectory.symm.trans noDirectory) (by decide)
      · omega
      · omega
    rcases ends with ⟨noDirectory, rfl, rfl, rfl⟩ | ⟨inDirectory, rfl, rfl⟩ | ⟨inDirectory, writes⟩
    · have most : max f'.iSize (f'.fPos + 0) = f'.iSize := by omega
      constructor
      · intro truthful
        exact ⟨truthful.recorded.trans most, Or.inr (Or.inl ⟨noWrap, noDirectory⟩)⟩
      · rintro ⟨recorded, _⟩
        exact ⟨most.symm, recorded.trans most.symm, rfl⟩
    · refine iff_of_false (fun truthful => ?_) fun both => notInside inDirectory both.2
      have noted : f.fPos + count = max f.iSize (f.fPos + 0) := truthful.iSize
      omega
    · refine iff_of_false (fun truthful => ?_) fun both => notInside inDirectory both.2
      rcases writes.spec positive sizeSmall some_ small (Nat.le_of_lt noWrap) with
        ⟨size, ⟨_, all⟩ | ⟨v, rfl, _⟩⟩
      · exact Nat.ne_of_lt short all
      · have noted : f.fPos + count = max f.iSize (f.fPos + n) := size.symm.trans truthful.iSize
        omega

/-- A record that notes whatever size it is given. -/
def plainRecord : SizeRecord ℕ := ⟨fun size _ => (false, size), id⟩

/-- A write inside a file whose page cannot be read leaves its size. -/
theorem truthful_iff_inside : ∃ n point f' e',
    ({ shortFile with fPos := 100 } : OpenFile).genericFileWriteAt freshBlocks
      (fun _ => ⟨false, .done⟩) plainRecord 500 (fun _ => 65) 20 = some (n, point, f', e') ∧
    Truthful plainRecord { shortFile with fPos := 100 } n f' e' := by
  have missing : ({ shortFile with fPos := 100 } : OpenFile).findPage freshBlocks
      (fun _ => ⟨false, .done⟩) 0 = some (none, { shortFile with fPos := 100 }) := rfl
  have wrote : ({ shortFile with fPos := 100 } : OpenFile).genericFileWriteAt freshBlocks
      (fun _ => ⟨false, .done⟩) plainRecord 500 (fun _ => 65) 20 =
        some (0, some (.page 0), { shortFile with fPos := 100 }, 500) := by
    unfold genericFileWriteAt
    dsimp only
    rw [if_neg (by decide)]
    show Option.map _ (writeLoopAt _ _ _ _ _ _ 1 0 0 _) = _
    rw [writeLoopAt_missing missing]
    rfl
  have mayStop : MayStop freshBlocks { shortFile with fPos := 100 } 20 (some (.page 0)) :=
    Or.inl (by decide)
  exact ⟨0, _, _, _, wrote, (truthful_iff (by decide) (by decide) (by decide) (by decide)
    (by decide) (by decide) wrote (by decide)).mpr ⟨rfl, mayStop⟩⟩

/-- A write at the end of a file whose page cannot be read leaves a size it does not have. -/
theorem not_truthful_end : ¬∀ (f : OpenFile) (io : ℕ → PageIo) (buf : Bytes) (count n : ℕ)
    (point : Option FailurePoint) (f' : OpenFile) (e' : ℕ), f.fPos ≤ f.iSize → 1 ≤ count →
    f.genericFileWriteAt freshBlocks io plainRecord f.iSize buf count = some (n, point, f', e') →
    n < count → Truthful plainRecord f n f' e' := by
  intro always
  have missing : ({ shortFile with fPos := 500, iSize := u32 (500 + 20) } : OpenFile).findPage
      freshBlocks (fun _ => ⟨false, .done⟩) 0 =
        some (none, { shortFile with fPos := 500, iSize := u32 (500 + 20) }) := rfl
  have wrote : ({ shortFile with fPos := 500, iSize := 500 } : OpenFile).genericFileWriteAt
      freshBlocks (fun _ => ⟨false, .done⟩) plainRecord 500 (fun _ => 65) 20 =
        some (0, some (.page 0), { shortFile with fPos := 500, iSize := 520 }, 520) := by
    unfold genericFileWriteAt
    dsimp only
    rw [if_pos (by decide), if_pos (by decide), if_neg (by decide)]
    show Option.map _ (writeLoopAt _ _ _ _ _ _ 2 0 0 _) = _
    rw [writeLoopAt_missing missing]
    rfl
  have truthful := always { shortFile with fPos := 500, iSize := 500 } _ _ _ _ _ _ _ (by decide)
    (by decide) wrote (by decide)
  exact absurd truthful.iSize (by decide)

end OpenFile

end Ninix.Vfs
