import Ninix.Vfs.PageCache

/-!
# The pages of a file

The list `a_cache` of a file is what a flush and a deletion walk. It holds the pages of the file
that are in the cache as long as no page is evicted: `pcache_del` leaves the page it frees on the
list, and a page that `pcache_add` cannot add is on the list all the same.
-/

namespace Ninix.Vfs

open TransitionSystem

namespace PageCache

variable {Data : Type}

/-- The lists of the files hold the pages in the cache, and no page that is freed. -/
structure ListsAgree (s : PageCache Data) : Prop where
  listed : ∀ p page, s.pages p = some page →
    (p ∈ s.aCache page.pMapping ↔ p ∈ s.hashtable (intHash page.pLocation) ∧ p ∈ s.lru)
  notFreed : ∀ inode, ∀ p ∈ s.aCache inode, ∃ page, s.pages p = some page ∧ page.pMapping = inode

/-- A page is added to a cache that is not full only, and a deletion of a file with pages comes
to its end. -/
def KeepsLists (s : PageCache Data) : PageOp Data → Prop
  | .generalFindPage pageNo inode ready _ =>
      (s.pcacheLookUp pageNo inode).1 = none → ready → s.cSize ≠ cacheCapacity
  | .createFirstPage _ _ _ write _ => write.err = false → s.cSize ≠ cacheCapacity
  | .deletePages inode completes => completes ∨ s.aCache inode = []
  | .modify _ _ | .writepage _ _ | .genericFileFlush _ _ => True

section

variable {s s' : PageCache Data} {p : ℕ} {write : WriteBlock Data}

theorem ListsAgree.of_sameLists (agree : s.ListsAgree) (same : SameLists s s') :
    s'.ListsAgree := by
  refine ⟨fun p page alive => ?_, fun inode p mem => ?_⟩
  · rcases same.page alive with ⟨old, wasAlive, mapping, location⟩
    rw [same.aCache, same.hashtable, same.lru, ← mapping, ← location]
    exact agree.listed p old wasAlive
  · rw [same.aCache] at mem
    rcases agree.notFreed inode p mem with ⟨old, wasAlive, rfl⟩
    rcases same.symm.page wasAlive with ⟨page, alive, mapping, _⟩
    exact ⟨page, alive, mapping⟩

/-- A page that is in the cache is on the list of its file. -/
theorem ListsAgree.mem_aCache (linked : Linked s) (agree : s.ListsAgree) (mem : p ∈ s.lru) :
    ∃ page, s.pages p = some page ∧ p ∈ s.aCache page.pMapping := by
  rcases linked.ordered p mem with ⟨page, alive, inBucket⟩
  exact ⟨page, alive, (agree.listed p page alive).mpr ⟨inBucket, mem⟩⟩

theorem ListsAgree.allocPage (linked : Linked s) (agree : s.ListsAgree) (page : VfsPage Data) :
    (s.allocPage page).2.ListsAgree := by
  have new (inode : ℕ) : s.unused ∉ s.aCache inode := fun mem => by
    rcases agree.notFreed inode _ mem with ⟨other, alive, _⟩
    exact absurd (linked.allocated _ other alive) (Nat.lt_irrefl _)
  refine ⟨fun q other alive => ?_, fun inode q mem => ?_⟩
  · by_cases isNew : q = s.unused
    · subst isNew
      exact ⟨fun mem => absurd mem (new _), fun mem => absurd mem.2 linked.unused_not_mem⟩
    · exact agree.listed q other ((allocPage_pages_of_ne isNew).symm.trans alive)
  · have old : q ≠ s.unused := fun eq => new inode (eq ▸ mem)
    rw [allocPage_pages_of_ne old]
    exact agree.notFreed inode q mem

/-- A page may be added exactly when the cache is not full. -/
theorem listsAgree_addPage (linked : Linked s) (agree : s.ListsAgree) {page : VfsPage Data}
    (alive : s.pages p = some page) (new : p ∉ s.lru)
    (added : s.addPage p page.pMapping page.pLocation write = some s') :
    s'.ListsAgree ↔ s.cSize ≠ cacheCapacity := by
  rcases Option.map_eq_some_iff.mp added with ⟨⟨err, s''⟩, ran, rfl⟩
  have onList (inode q : ℕ) : q ∈ Function.update s.aCache page.pMapping
      (p :: s.aCache page.pMapping) inode ↔
        (inode = page.pMapping ∧ q = p) ∨ q ∈ s.aCache inode := by
    simp only [Function.update_apply]
    split <;> simp [*]
  rcases pcacheAdd_cases ran with ⟨notFull, _, rfl⟩ | ⟨full, delpage, deleted, isHead, dels, rfl⟩
  · refine iff_of_true ⟨fun q other alive' => ?_, fun inode q mem => ?_⟩ notFull
    · rw [mem_link_hashtable, mem_link_lru]
      refine (onList other.pMapping q).trans ?_
      by_cases isNew : q = p
      · subst isNew
        have same : page = other := Option.some.inj (alive.symm.trans alive')
        subst same
        simp
      · simp only [isNew, and_false, false_or, or_false]
        exact agree.listed q other alive'
    · rcases (onList inode q).mp mem with ⟨rfl, rfl⟩ | mem
      · exact ⟨page, alive, rfl⟩
      · exact agree.notFreed inode q mem
  · refine iff_of_false (fun agree' => ?_) (not_not.mpr full)
    have inOrder : delpage ∈ s.lru := List.mem_of_mem_head? isHead
    have aCache := pcacheDel_aCache dels
    cases err with
    | true =>
        -- the new page is on the list of its file, but not in the cache
        have ne : p ≠ delpage := fun eq => new (eq ▸ inOrder)
        rcases pcacheDel_page dels ne alive with ⟨kept, alive', mapping, _⟩
        have listed : p ∈ deleted.aCache kept.pMapping := by
          rw [aCache, mapping]
          exact (onList _ p).mpr (Or.inl ⟨rfl, rfl⟩)
        have there := ((agree'.listed p kept alive').mp listed).2
        have lru : deleted.lru = s.lru := pcacheDel_lru dels
        exact new (lru ▸ there)
    | false =>
        -- the page that was evicted is still on the list of its file
        rcases agree.mem_aCache linked inOrder with ⟨victim, _, wasListed⟩
        have listed : delpage ∈ deleted.aCache victim.pMapping := by
          rw [aCache]
          exact (onList _ delpage).mpr (Or.inr wasListed)
        rcases agree'.notFreed _ delpage listed with ⟨other, alive', _⟩
        exact absurd ((pcacheDel_freed dels).symm.trans alive') (by simp)

theorem listsAgree_generalFindPage (linked : Linked s) (agree : s.ListsAgree) {pageNo inode : ℕ}
    {ready : Bool} {found : Option ℕ}
    (ran : s.generalFindPage pageNo inode ready write = some (found, s')) :
    s'.ListsAgree ↔ s.KeepsLists (.generalFindPage pageNo inode ready write) := by
  rcases generalFindPage_cases ran with
    ⟨p, page, inBucket, alive, location, state, mapping, _, rfl⟩ | ⟨missing, added⟩
  · have isFound : (s.pcacheLookUp pageNo inode).1 ≠ none := by
      rcases pcacheLookUp_cases s pageNo inode with ⟨q, _, _, _, _, _, _, eq⟩ | ⟨missing, _⟩
      · simp [eq]
      · exact absurd (missing p page inBucket alive location mapping) state
    refine iff_of_true ?_ fun notFound => absurd notFound isFound
    have same {q : ℕ} : q ∈ s.lru.filter (· ≠ p) ++ [p] ↔ q ∈ s.lru := by
      by_cases eq : q = p
      · simp [eq, (linked.hashed _ p inBucket).1]
      · simp [eq]
    exact ⟨fun q other alive' => by rw [same]; exact agree.listed q other alive',
      agree.notFreed⟩
  · have notFound : (s.pcacheLookUp pageNo inode).1 = none := by
      rcases pcacheLookUp_cases s pageNo inode with
        ⟨p, page, inBucket, alive, location, state, mapping, _⟩ | ⟨_, eq⟩
      · exact absurd (missing p page inBucket alive location mapping) state
      · rw [eq]
    rcases added with ⟨rfl, _, rfl⟩ | ⟨isReady, _, adds⟩
    · exact iff_of_true agree fun _ ready => absurd ready (by simp)
    · have exact_ := listsAgree_addPage (linked.allocPage _) (agree.allocPage linked _)
        (allocPage_pages _) linked.unused_not_mem adds
      rw [exact_]
      exact ⟨fun notFull _ _ => notFull, fun guard => guard notFound isReady⟩

theorem listsAgree_createFirstPage (linked : Linked s) (agree : s.ListsAgree)
    {inode location : ℕ} {data : Data} {evict : WriteBlock Data}
    (ran : s.createFirstPage inode location data write evict = some s') :
    s'.ListsAgree ↔ s.KeepsLists (.createFirstPage inode location data write evict) := by
  rcases createFirstPage_cases ran with ⟨err, written, wrote, added⟩
  have same := sameLists_writepage wrote
  have agree' := (agree.allocPage linked _).of_sameLists same
  have fails : err = write.err := by
    rcases writepage_cases wrote with ⟨page, alive, ⟨intact, _⟩ | ⟨invalid, _⟩ | ⟨_, err, _⟩⟩
    · cases (allocPage_pages _).symm.trans alive
      cases intact
    · cases (allocPage_pages _).symm.trans alive
      cases invalid
    · exact err
  rcases added with ⟨rfl, rfl⟩ | ⟨rfl, adds⟩
  · exact iff_of_true agree' fun succeeds => absurd (fails.trans succeeds) (by simp)
  · rcases same.symm.page (allocPage_pages _) with ⟨page, alive, rfl, rfl⟩
    have exact_ := listsAgree_addPage ((linked.allocPage _).of_sameLists same) agree' alive
      (same.lru ▸ linked.unused_not_mem) adds
    rw [exact_, same.cSize]
    exact ⟨fun notFull _ => notFull, fun guard => guard fails.symm⟩

/-- What the loop of a deletion leaves. -/
theorem deleteLoop_spec {list : List ℕ} (ran : deleteLoop s list = some s') :
    (∀ q, s'.pages q = if q ∈ list then none else s.pages q) ∧
      (∀ q, q ∈ s'.lru ↔ q ∈ s.lru ∧ q ∉ list) ∧
      (∀ b q, q ∈ s'.hashtable b ↔ q ∈ s.hashtable b ∧ q ∉ list) ∧ s'.aCache = s.aCache := by
  induction list generalizing s with
  | nil =>
      cases ran
      simp
  | cons p rest ih =>
      rcases deleteLoop_cons ran with ⟨page, alive, ranRest⟩
      rcases ih ranRest with ⟨pages, lru, hashtable, aCache⟩
      refine ⟨fun q => ?_, fun q => ?_, fun b q => ?_, aCache⟩
      · rw [pages]
        by_cases isFirst : q = p
        · rw [isFirst, drop_pages_self]
          simp
        · rw [drop_pages_of_ne isFirst, setPage_pages_of_ne isFirst]
          simp [isFirst]
      · rw [lru, mem_drop_lru]
        simp [setPage, and_assoc]
      · rw [hashtable, mem_drop_hashtable]
        simp [setPage, and_assoc]

theorem listsAgree_deletePages (agree : s.ListsAgree) {inode : ℕ} {completes : Bool}
    (ran : s.deletePages inode completes = some s') :
    s'.ListsAgree ↔ s.KeepsLists (.deletePages inode completes) := by
  rcases Option.map_eq_some_iff.mp ran with ⟨deleted, loops, rfl⟩
  rcases deleteLoop_spec loops with ⟨pages, lru, hashtable, aCache⟩
  have alive_iff {q : ℕ} {page : VfsPage Data} :
      deleted.pages q = some page ↔ q ∉ s.aCache inode ∧ s.pages q = some page := by
    rw [pages]
    split <;> simp [*]
  cases completes with
  | true =>
      refine iff_of_true ⟨fun q page alive => ?_, fun other q mem => ?_⟩ (Or.inl rfl)
      · rcases alive_iff.mp alive with ⟨notListed, wasAlive⟩
        have listed := agree.listed q page wasAlive
        simp only [if_true, Function.update_apply, hashtable, lru, notListed, not_false_iff,
          and_true]
        split
        · rename_i isInode
          rw [isInode] at listed
          exact iff_of_false (by simp) fun there => notListed (listed.mpr there)
        · rw [aCache]
          exact listed
      · simp only [if_true, Function.update_apply] at mem
        split at mem
        · simp at mem
        · rename_i ne
          rw [aCache] at mem
          rcases agree.notFreed other q mem with ⟨page, wasAlive, rfl⟩
          refine ⟨page, alive_iff.mpr ⟨fun listed => ?_, wasAlive⟩, rfl⟩
          rcases agree.notFreed inode q listed with ⟨page', alive', rfl⟩
          cases wasAlive.symm.trans alive'
          exact ne rfl
  | false =>
      cases isList : s.aCache inode with
      | nil =>
          rw [isList] at loops
          cases loops
          exact iff_of_true agree (Or.inr isList)
      | cons p rest =>
          refine iff_of_false (fun agree' => ?_) fun guard => ?_
          · have listed : p ∈ deleted.aCache inode := by simp [aCache, isList]
            rcases agree'.notFreed inode p listed with ⟨page, alive, _⟩
            exact (alive_iff.mp alive).1 (by simp [isList])
          · rcases guard with completes | isNil
            · cases completes
            · cases isList.symm.trans isNil

/-- Whether the lists agree after a call is decided by what the call finds. -/
theorem listsAgree_step (linked : Linked s) (agree : s.ListsAgree) {op : PageOp Data}
    (stepped : s.step op = some s') : s'.ListsAgree ↔ s.KeepsLists op := by
  cases op with
  | generalFindPage pageNo inode ready evict =>
      rcases Option.map_eq_some_iff.mp stepped with ⟨⟨found, _⟩, ran, rfl⟩
      exact listsAgree_generalFindPage linked agree ran
  | createFirstPage inode location data write evict =>
      exact listsAgree_createFirstPage linked agree stepped
  | modify p data =>
      exact iff_of_true (agree.of_sameLists (sameLists_modify stepped)) trivial
  | writepage p write =>
      rcases Option.map_eq_some_iff.mp stepped with ⟨⟨err, _⟩, ran, rfl⟩
      exact iff_of_true (agree.of_sameLists (sameLists_writepage ran)) trivial
  | genericFileFlush inode writes =>
      rcases Option.map_eq_some_iff.mp stepped with ⟨⟨err, _⟩, ran, rfl⟩
      exact iff_of_true (agree.of_sameLists (sameLists_flushLoop ran)) trivial
  | deletePages inode completes => exact listsAgree_deletePages agree stepped

end

/-- A file system whose blocks are all 0. -/
def emptyCache : PageCache ℕ := initCache (fun _ => 0) fun _ _ => 0

/-- Blocks of one file are read. -/
def readBlocks (count : ℕ) : List (PageOp ℕ) :=
  (List.range count).map fun block => .generalFindPage block 1 true .done

end PageCache

end Ninix.Vfs
