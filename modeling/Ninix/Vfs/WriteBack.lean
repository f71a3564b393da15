import Mathlib.Data.List.Basic
import Ninix.Vfs.PageCache

/-!
# Modified pages

A page that differs from its block has to be marked dirty, or it is never written back. The
hooks of the file systems take the mark away before they write, so it is gone when the write
fails. What a write-back leaves in a block also concerns the other pages of the block: the two
inodes that two lookups make for one file have pages of their own.
-/

namespace Ninix.Vfs

open TransitionSystem

namespace PageCache

variable {Data : Type}

/-- The block of a page. -/
def onDisk (s : PageCache Data) (page : VfsPage Data) : Data :=
  s.disk (s.iSb page.pMapping) page.pLocation

/-- Each of the pages that differs from its block is marked dirty. -/
def SafeOn (s : PageCache Data) (pages : List ℕ) : Prop :=
  ∀ p ∈ pages, ∀ page, s.pages p = some page →
    page.pData ≠ s.onDisk page → page.pState = .dirty

/-- Each page in the cache that differs from its block is marked dirty. -/
def NoLoss (s : PageCache Data) : Prop := s.SafeOn s.lru

/-- A page in the cache that differs from its block is dropped after it has been written only. -/
def WrittenBeforeDropped (s : PageCache Data) : Prop :=
  ∀ p ∈ s.lru, ∀ page, s.pages p = some page → page.pData ≠ s.onDisk page →
    ∀ write s', s.pcacheDel p write = some (false, s') → s'.onDisk page = page.pData

/-- When a page is written back, what is left in the block is the data of those of the pages
there that are not marked dirty afterwards. -/
def WriteSafe (s : PageCache Data) (pages : List ℕ) (p : ℕ) (write : WriteBlock Data) : Prop :=
  ∀ page, s.pages p = some page → page.pState = .dirty →
    ∀ q ∈ pages, ∀ other, s.pages q = some other →
      s.iSb other.pMapping = s.iSb page.pMapping → other.pLocation = page.pLocation →
        (q = p ∨ other.pState ≠ .dirty) → other.pData = write.left page.pData

/-- When a page is added, the oldest page of a full cache is written back safely. -/
def AddSafe (s : PageCache Data) (p : ℕ) (evict : WriteBlock Data) : Prop :=
  s.cSize = cacheCapacity → ∀ delpage, s.lru.head? = some delpage →
    s.WriteSafe (if evict.err then s.lru else s.lru ++ [p]) delpage evict

/-- When pages are flushed, each is written back safely. -/
def FlushSafe (writes : ℕ → WriteBlock Data) : PageCache Data → List ℕ → Prop
  | _, [] => True
  | s, p :: rest => s.WriteSafe s.lru p (writes p) ∧
      ∀ s', s.writepage p (writes p) = some (false, s') → FlushSafe writes s' rest

/-- A call writes pages back safely. -/
def WriteBacksSafe (s : PageCache Data) : PageOp Data → Prop
  | .generalFindPage pageNo inode ready evict =>
      (s.pcacheLookUp pageNo inode).1 = none → ready →
        (s.allocPage ⟨s.disk (s.iSb inode) pageNo, .intact, inode, pageNo⟩).2.AddSafe
          s.unused evict
  | .createFirstPage inode location data write evict =>
      (s.allocPage ⟨data, .dirty, inode, location⟩).2.WriteSafe s.lru s.unused write ∧
        ∀ s', (s.allocPage ⟨data, .dirty, inode, location⟩).2.writepage s.unused write =
          some (false, s') → s'.AddSafe s.unused evict
  | .writepage p write => s.WriteSafe s.lru p write
  | .genericFileFlush inode writes => FlushSafe writes s (s.aCache inode)
  | .modify _ _ | .deletePages _ _ => True

section

variable {s s' : PageCache Data} {pages : List ℕ} {p : ℕ} {write : WriteBlock Data} {err : Bool}

theorem SafeOn.mono {fewer : List ℕ} (safe : s.SafeOn pages) (subset : fewer ⊆ pages) :
    s.SafeOn fewer := fun q mem => safe q (subset mem)

theorem onDisk_setBlock (page other : VfsPage Data) (data : Data) :
    (s.setBlock (s.iSb page.pMapping) page.pLocation data).onDisk other =
      if s.iSb other.pMapping = s.iSb page.pMapping ∧ other.pLocation = page.pLocation then data
      else s.onDisk other := by
  simp only [onDisk, setBlock, Function.update_apply]
  split_ifs <;> simp_all

/-- Pages stay safe as long as each is written back safely. -/
theorem SafeOn.writepage (safe : s.SafeOn pages) (writeSafe : s.WriteSafe pages p write)
    (written : s.writepage p write = some (err, s')) : s'.SafeOn pages := by
  rcases writepage_cases written with
    ⟨page, alive, ⟨_, _, rfl⟩ | ⟨_, _, rfl⟩ | ⟨dirty, _, rfl⟩⟩
  · exact safe
  · exact safe
  intro q mem other alive' differs
  have here : (if s.iSb other.pMapping = s.iSb page.pMapping ∧ other.pLocation = page.pLocation
      then write.left page.pData else s.onDisk other) ≠ other.pData := fun eq =>
    differs (eq.symm.trans (onDisk_setBlock (s := s) page other (write.left page.pData)).symm)
  by_cases isPage : q = p
  · have eq : { page with pState := .intact } = other :=
      Option.some.inj ((setPage_pages_self _).symm.trans (isPage ▸ alive'))
    subst eq
    rw [if_pos ⟨rfl, rfl⟩] at here
    exact absurd (writeSafe page alive dirty q mem page (isPage ▸ alive) rfl rfl
      (Or.inl isPage)).symm here
  · have old : s.pages q = some other := (setPage_pages_of_ne isPage).symm.trans alive'
    by_cases block : s.iSb other.pMapping = s.iSb page.pMapping ∧
        other.pLocation = page.pLocation
    · rw [if_pos block] at here
      by_contra clean
      exact here (writeSafe page alive dirty q mem other old block.1 block.2
        (Or.inr clean)).symm
    · rw [if_neg block] at here
      exact safe q mem other old here.symm

theorem SafeOn.drop (safe : s.SafeOn pages) : (s.drop p).SafeOn pages := by
  intro q mem page alive differs
  by_cases dropped : q = p
  · rw [dropped, drop_pages_self] at alive
    cases alive
  · exact safe q mem page ((drop_pages_of_ne dropped).symm.trans alive) differs

/-- A page that is deleted is written back safely, if it is written back. -/
theorem SafeOn.pcacheDel (safe : s.SafeOn pages) (writeSafe : s.WriteSafe pages p write)
    (deleted : s.pcacheDel p write = some (err, s')) : s'.SafeOn pages := by
  rcases pcacheDel_cases deleted with ⟨page, _, ⟨_, _, rfl⟩ | ⟨_, written, ran, rfl⟩⟩
  · exact safe.drop
  · cases err with
    | true => exact safe.writepage writeSafe ran
    | false => exact (safe.writepage writeSafe ran).drop

/-- A deletion fails as its write does, if there is one. -/
theorem pcacheDel_err (deleted : s.pcacheDel p write = some (err, s')) : err = write.err ∨
    err = false ∧ ∀ page, s.pages p = some page → page.pState ≠ .dirty := by
  rcases pcacheDel_cases deleted with ⟨page, alive, ⟨invalid, err, _⟩ | ⟨valid, written, ran, _⟩⟩
  · refine Or.inr ⟨err, fun other alive' dirty => ?_⟩
    rw [alive, Option.some.injEq] at alive'
    rw [alive', dirty] at invalid
    cases invalid
  · rcases writepage_cases ran with ⟨other, alive', ⟨intact, err, _⟩ | ⟨invalid, _⟩ | ⟨_, err, _⟩⟩
    · refine Or.inr ⟨err, fun another alive'' dirty => ?_⟩
      rw [alive', Option.some.injEq] at alive''
      rw [alive'', dirty] at intact
      cases intact
    · rw [alive, Option.some.injEq] at alive'
      exact absurd (alive' ▸ invalid) valid
    · exact Or.inl err

/-- A page that is safe is added safely. -/
theorem SafeOn.addPage {inode location : ℕ} (safe : s.SafeOn (s.lru ++ [p]))
    (addSafe : s.AddSafe p write) (added : s.addPage p inode location write = some s') :
    s'.NoLoss := by
  rcases Option.map_eq_some_iff.mp added with ⟨⟨err, s''⟩, ran, rfl⟩
  have old : SafeOn { s with aCache := Function.update s.aCache inode (p :: s.aCache inode) }
      (s.lru ++ [p]) := safe
  rcases pcacheAdd_cases ran with ⟨_, _, rfl⟩ | ⟨full, delpage, deleted, isHead, dels, rfl⟩
  · exact old
  have writeSafe := addSafe full delpage isHead
  have lru := pcacheDel_lru dels
  cases err with
  | true =>
      have fails : write.err = true := by
        rcases pcacheDel_err dels with fails | ⟨fails, _⟩
        · exact fails.symm
        · cases fails
      rw [fails, if_pos rfl] at writeSafe
      have kept : deleted.SafeOn s.lru :=
        (old.mono (List.subset_append_left ..)).pcacheDel writeSafe dels
      simp only [if_true] at lru ⊢
      rw [NoLoss, lru]
      exact kept
  | false =>
      have writeSafe' : s.WriteSafe (s.lru ++ [p]) delpage write := by
        rcases pcacheDel_err dels with succeeds | ⟨_, notDirty⟩
        · rwa [← succeeds, if_neg (by simp)] at writeSafe
        · exact fun page alive dirty => absurd dirty (notDirty page alive)
      have kept : deleted.SafeOn (s.lru ++ [p]) := old.pcacheDel writeSafe' dels
      have fewer : (deleted.link p location).lru ⊆ s.lru ++ [p] := by
        simp only [link, lru]
        exact List.append_subset.mpr
          ⟨List.Subset.trans (List.filter_subset_self _) (List.subset_append_left ..),
            List.subset_append_right ..⟩
      exact kept.mono fewer

/-- The pages are as safe as before when a page is allocated. -/
theorem SafeOn.allocPage (linked : Linked s) (safe : s.NoLoss) (page : VfsPage Data) :
    (s.allocPage page).2.SafeOn s.lru := by
  intro q mem other alive differs
  have old : q ≠ s.unused := fun eq => linked.unused_not_mem (eq ▸ mem)
  exact safe q mem other ((allocPage_pages_of_ne old).symm.trans alive) differs

theorem SafeOn.append {page : VfsPage Data} (safe : s.SafeOn pages) (alive : s.pages p = some page)
    (same : page.pData = s.onDisk page) : s.SafeOn (pages ++ [p]) := by
  intro q mem other alive' differs
  rcases List.mem_append.mp mem with mem | mem
  · exact safe q mem other alive' differs
  · rw [List.mem_singleton.mp mem, alive, Option.some.injEq] at alive'
    exact absurd (alive' ▸ same) differs

theorem NoLoss.generalFindPage (linked : Linked s) (safe : s.NoLoss) {pageNo inode : ℕ}
    {ready : Bool} {found : Option ℕ}
    (addSafe : s.WriteBacksSafe (.generalFindPage pageNo inode ready write))
    (ran : s.generalFindPage pageNo inode ready write = some (found, s')) : s'.NoLoss := by
  rcases generalFindPage_cases ran with
    ⟨p, page, inBucket, _, _, _, _, _, rfl⟩ | ⟨missing, ⟨_, _, rfl⟩ | ⟨ready, _, adds⟩⟩
  · have fewer : s.lru.filter (· ≠ p) ++ [p] ⊆ s.lru :=
      List.append_subset.mpr ⟨List.filter_subset_self _,
        List.cons_subset.mpr ⟨(linked.hashed _ p inBucket).1, List.nil_subset _⟩⟩
    exact SafeOn.mono safe fewer
  · exact safe
  · have notFound : (s.pcacheLookUp pageNo inode).1 = none := by
      rcases pcacheLookUp_cases s pageNo inode with
        ⟨p, page, inBucket, alive, location, state, mapping, _⟩ | ⟨_, eq⟩
      · exact absurd (missing p page inBucket alive location mapping) state
      · rw [eq]
    have allocated := (SafeOn.allocPage linked safe
      ⟨s.disk (s.iSb inode) pageNo, .intact, inode, pageNo⟩).append (allocPage_pages _) rfl
    exact allocated.addPage (addSafe notFound ready) adds

/-- A page that has been written is the same as its block. -/
theorem writepage_done {page : VfsPage Data} (alive : s.pages p = some page)
    (dirty : page.pState = .dirty) (written : s.writepage p write = some (false, s')) :
    s'.pages p = some { page with pState := .intact } ∧ s'.onDisk page = page.pData ∧
      s'.iSb = s.iSb := by
  rcases writepage_cases written with
    ⟨other, alive', ⟨intact, _⟩ | ⟨_, err, _⟩ | ⟨_, err, rfl⟩⟩
  · rw [alive, Option.some.injEq] at alive'
    rw [alive', intact] at dirty
    cases dirty
  · cases err
  · rw [alive, Option.some.injEq] at alive'
    subst alive'
    refine ⟨Function.update_self .., ?_, rfl⟩
    cases write with
    | done =>
        have block := onDisk_setBlock (s := s) page page page.pData
        rw [if_pos ⟨rfl, rfl⟩] at block
        exact block
    | failed left => cases err

theorem NoLoss.createFirstPage (linked : Linked s) (safe : s.NoLoss) {inode location : ℕ}
    {data : Data} {evict : WriteBlock Data}
    (writeSafe : s.WriteBacksSafe (.createFirstPage inode location data write evict))
    (ran : s.createFirstPage inode location data write evict = some s') : s'.NoLoss := by
  rcases createFirstPage_cases ran with ⟨err, written, wrote, failed⟩
  have lru := (sameLists_writepage wrote).lru
  have kept : written.SafeOn s.lru :=
    (SafeOn.allocPage linked safe _).writepage writeSafe.1 wrote
  rcases failed with ⟨_, rfl⟩ | ⟨rfl, adds⟩
  · rw [NoLoss, lru]
    exact kept
  · rcases writepage_done (allocPage_pages _) rfl wrote with ⟨alive, same, _⟩
    have appended : written.SafeOn (written.lru ++ [s.unused]) := by
      rw [lru]
      exact kept.append alive same.symm
    exact appended.addPage (writeSafe.2 written wrote) adds

theorem NoLoss.flushLoop {writes : ℕ → WriteBlock Data} {list : List ℕ} (safe : s.NoLoss)
    (flushSafe : FlushSafe writes s list)
    (ran : flushLoop writes s list = some (err, s')) : s'.NoLoss := by
  induction list generalizing s with
  | nil =>
      cases ran
      exact safe
  | cons p rest ih =>
      rcases flushSafe with ⟨first, others⟩
      rcases Option.bind_eq_some_iff.mp ran with ⟨⟨failed, written⟩, wrote, eq⟩
      have kept : written.NoLoss := by
        rw [NoLoss, (sameLists_writepage wrote).lru]
        exact SafeOn.writepage safe first wrote
      cases failed with
      | true =>
          cases eq
          exact kept
      | false => exact ih kept (others written wrote) eq

theorem NoLoss.deleteLoop {list : List ℕ} (safe : s.NoLoss)
    (ran : deleteLoop s list = some s') : s'.NoLoss := by
  induction list generalizing s with
  | nil =>
      cases ran
      exact safe
  | cons p rest ih =>
      rcases deleteLoop_cons ran with ⟨page, alive, ranRest⟩
      refine ih (fun q mem other alive' differs => ?_) ranRest
      rcases mem_drop_lru.mp mem with ⟨mem, ne⟩
      rw [drop_pages_of_ne ne] at alive'
      have old : s.pages q = some other := (setPage_pages_of_ne ne).symm.trans alive'
      exact safe q mem other old differs

theorem NoLoss.modify {data : Data} (safe : s.NoLoss) (ran : s.modify p data = some s') :
    s'.NoLoss := by
  rcases Option.map_eq_some_iff.mp ran with ⟨page, alive, rfl⟩
  intro q mem other alive' differs
  by_cases isPage : q = p
  · have eq : { page with pData := data, pState := PageState.dirty } = other :=
      Option.some.inj ((setPage_pages_self _).symm.trans (isPage ▸ alive'))
    subst eq
    rfl
  · have old : s.pages q = some other := (setPage_pages_of_ne isPage).symm.trans alive'
    exact safe q mem other old differs

/-- A call that writes pages back safely loses no page. -/
theorem NoLoss.step (linked : Linked s) (safe : s.NoLoss) {op : PageOp Data}
    (writeSafe : s.WriteBacksSafe op) (stepped : s.step op = some s') : s'.NoLoss := by
  cases op with
  | generalFindPage pageNo inode ready evict =>
      rcases Option.map_eq_some_iff.mp stepped with ⟨⟨found, _⟩, ran, rfl⟩
      exact safe.generalFindPage linked writeSafe ran
  | createFirstPage inode location data write evict =>
      exact safe.createFirstPage linked writeSafe stepped
  | modify p data => exact safe.modify stepped
  | writepage p write =>
      rcases Option.map_eq_some_iff.mp stepped with ⟨⟨err, written⟩, ran, rfl⟩
      rw [NoLoss, (sameLists_writepage ran).lru]
      exact SafeOn.writepage safe writeSafe ran
  | genericFileFlush inode writes =>
      rcases Option.map_eq_some_iff.mp stepped with ⟨⟨err, _⟩, ran, rfl⟩
      exact safe.flushLoop writeSafe ran
  | deletePages inode completes =>
      rcases Option.map_eq_some_iff.mp stepped with ⟨deleted, ran, rfl⟩
      have kept := safe.deleteLoop ran
      cases completes with
      | true => exact kept
      | false => exact kept

/-- A page that is marked when it differs from its block is written before it is dropped. -/
theorem NoLoss.writtenBeforeDropped (safe : s.NoLoss) : s.WrittenBeforeDropped := by
  intro p mem page alive differs write s' deleted
  have dirty := safe p mem page alive differs
  rcases pcacheDel_cases deleted with ⟨other, alive', ⟨invalid, _⟩ | ⟨_, written, ran, rfl⟩⟩
  · rw [alive, Option.some.injEq] at alive'
    rw [alive', invalid] at dirty
    cases dirty
  · exact (writepage_done alive dirty ran).2.1

/-- In a run that writes pages back safely no modified page is lost. -/
theorem noLoss_of_reach {s : PageCache Data}
    (reached : GuardedReach PageCache.step WriteBacksSafe
      (fun s => ∃ iSb disk, s = initCache iSb disk) s) : s.NoLoss ∧ s.WrittenBeforeDropped := by
  have invariant : Linked s ∧ s.NoLoss := by
    apply reached.invariant
    · rintro _ ⟨iSb, disk, rfl⟩
      exact ⟨linked_initCache iSb disk, fun p mem => absurd mem (by simp [initCache])⟩
    · rintro s op s' ⟨linked, safe⟩ writeSafe stepped
      exact ⟨linked.step stepped, safe.step linked writeSafe stepped⟩
  exact ⟨invariant.2, invariant.2.writtenBeforeDropped⟩

end

/-- A block of a file is read, changed and flushed, the write failing or not. -/
def flushRun (write : WriteBlock ℕ) : List (PageOp ℕ) :=
  [.generalFindPage 5 1 true .done, .modify 0 7, .genericFileFlush 1 fun _ => write]

/-- A file system whose blocks are all 0. -/
def zeroBlocks : PageCache ℕ := initCache (fun _ => 0) fun _ _ => 0

theorem noLoss_of_reach_flushed :
    ∃ s, run PageCache.step zeroBlocks (flushRun .done) = some s ∧
      s.NoLoss ∧ s.WrittenBeforeDropped := by
  have initially : GuardedReach PageCache.step WriteBacksSafe
      (fun s => ∃ iSb disk, s = initCache iSb disk) zeroBlocks := .start ⟨_, _, rfl⟩
  have guarded : GuardedRun PageCache.step WriteBacksSafe zeroBlocks (flushRun .done) := by
    refine ⟨fun _ _ full => absurd full (by decide), fun found isFound => ?_⟩
    cases isFound
    refine ⟨trivial, fun changed isChanged => ?_⟩
    cases isChanged
    refine ⟨⟨?_, fun _ _ => trivial⟩, fun _ _ => trivial⟩
    intro page alive _ q mem other alive' _ _ _
    cases List.mem_singleton.mp mem
    cases alive
    cases alive'
    rfl
  exact ⟨_, rfl, noLoss_of_reach (initially.of_run guarded rfl)⟩

/-- A page whose write fails is not marked dirty any more, though it is not on the disk. -/
theorem not_noLoss_flushed :
    ∃ s, run PageCache.step zeroBlocks (flushRun (.failed 0)) = some s ∧ ¬s.NoLoss := by
  refine ⟨_, rfl, fun safe => ?_⟩
  have dirty := safe 0 (List.mem_singleton.mpr rfl) _ rfl (by decide)
  exact absurd dirty (by decide)

end PageCache

end Ninix.Vfs
