import Mathlib.Data.List.Find
import Ninix.Vfs.PageContent

/-!
# Requests for the pages of one file

A directory is read and changed through requests for its pages. As long as the cache has room for
the pages that are requested, none is evicted: the pages of other files stay as they are, and
what the pages of the file hold changes only where it is written.
-/

namespace Ninix.Vfs

namespace PageCache

variable {Data : Type}

/-- A page is the one that `pcache_look_up` looks for. -/
def isPage (s : PageCache Data) (ppn inode p : ℕ) : Bool :=
  (s.pages p).any fun page =>
    page.pLocation = ppn && page.pState ≠ .invalid && page.pMapping = inode

/-- The pages of a file that are not in the cache yet fit in beside those that are. -/
def Room (s : PageCache Data) (inode : ℕ) (locations : List ℕ) : Prop :=
  s.cSize + (locations.filter fun l => (s.pcacheLookUp l inode).1.isNone).length ≤ cacheCapacity

instance (s : PageCache Data) (inode : ℕ) (locations : List ℕ) :
    Decidable (s.Room inode locations) :=
  inferInstanceAs (Decidable (_ ≤ _))

/-- The pages of a file hold the given data, and the cache has room for some of them. -/
structure Tracks (s : PageCache Data) (inode : ℕ) (locations : List ℕ) (data : ℕ → Data) :
    Prop where
  linked : Linked s
  room : s.Room inode locations
  holds : ∀ l, s.pageData inode l = data l

/-- No page is lost, pages of other files are as they were, and new pages are of the file. -/
structure KeepsOthers (inode : ℕ) (s s' : PageCache Data) : Prop where
  pages : ∀ p page, s.pages p = some page → ∃ page', s'.pages p = some page' ∧
    page'.pMapping = page.pMapping ∧ (page.pMapping ≠ inode → page' = page)
  lru : ∀ p ∈ s.lru, p ∈ s'.lru
  added : ∀ p ∈ s'.lru, p ∈ s.lru ∨ ∃ page, s'.pages p = some page ∧ page.pMapping = inode
  aCache : ∀ other, other ≠ inode → s'.aCache other = s.aCache other

/-- The list `a_cache` of a file has exactly its pages in the cache, each once. -/
structure ListsPages (s : PageCache Data) (inode : ℕ) : Prop where
  nodup : (s.aCache inode).Nodup
  listed : ∀ p, p ∈ s.aCache inode ↔
    p ∈ s.lru ∧ ∃ page, s.pages p = some page ∧ page.pMapping = inode

section

variable {s s' : PageCache Data} {inode l p : ℕ} {locations : List ℕ} {data : ℕ → Data}

theorem pcacheLookUp_fst (s : PageCache Data) (ppn inode : ℕ) :
    (s.pcacheLookUp ppn inode).1 = (s.hashtable (intHash ppn)).find? (s.isPage ppn inode) := by
  unfold pcacheLookUp isPage
  dsimp only
  cases (s.hashtable (intHash ppn)).find? _ <;> rfl

theorem isPage_iff {ppn : ℕ} : s.isPage ppn inode p ↔ ∃ page, s.pages p = some page ∧
    page.pLocation = ppn ∧ page.pState ≠ .invalid ∧ page.pMapping = inode := by
  unfold isPage
  cases s.pages p with
  | none => simp
  | some page => simp [and_assoc]

theorem lookUp_some (found : (s.pcacheLookUp l inode).1 = some p) :
    p ∈ s.hashtable (intHash l) ∧ ∃ page, s.pages p = some page ∧ page.pLocation = l ∧
      page.pState ≠ .invalid ∧ page.pMapping = inode := by
  rw [pcacheLookUp_fst] at found
  exact ⟨List.mem_of_find?_eq_some found, isPage_iff.mp (List.find?_some found)⟩

/-- What is found, and the block beneath, make up what a page holds. -/
theorem pageData_of_found {page : VfsPage Data} (found : (s.pcacheLookUp l inode).1 = some p)
    (alive : s.pages p = some page) : s.pageData inode l = page.pData := by
  rw [pageData, found, Option.bind_some, alive]
  rfl

theorem pageData_of_missing (missing : (s.pcacheLookUp l inode).1 = none) :
    s.pageData inode l = s.disk (s.iSb inode) l := by
  rw [pageData, missing]
  rfl

theorem KeepsOthers.refl (inode : ℕ) (s : PageCache Data) : KeepsOthers inode s s :=
  ⟨fun _ page alive => ⟨page, alive, rfl, fun _ => rfl⟩, fun _ => id, fun _ => Or.inl,
    fun _ _ => rfl⟩

theorem KeepsOthers.trans {s'' : PageCache Data} (first : KeepsOthers inode s s')
    (second : KeepsOthers inode s' s'') : KeepsOthers inode s s'' := by
  refine ⟨fun p page alive => ?_, fun p mem => second.lru p (first.lru p mem), fun p mem => ?_,
    fun other ne => (second.aCache other ne).trans (first.aCache other ne)⟩
  · rcases first.pages p page alive with ⟨page', alive', mapping, same⟩
    rcases second.pages p page' alive' with ⟨page'', alive'', mapping', same'⟩
    refine ⟨page'', alive'', mapping'.trans mapping, fun ne => ?_⟩
    exact (same' (mapping ▸ ne)).trans (same ne)
  · rcases second.added p mem with mem' | isNew
    · rcases first.added p mem' with old | ⟨page, alive, isFile⟩
      · exact Or.inl old
      · rcases second.pages p page alive with ⟨page', alive', mapping, _⟩
        exact Or.inr ⟨page', alive', mapping.trans isFile⟩
    · exact Or.inr isNew

/-- The cache with a new page for a block, when none is evicted for it. -/
def withPage (s : PageCache Data) (inode l : ℕ) : PageCache Data :=
  let listed := (s.allocPage ⟨s.disk (s.iSb inode) l, .intact, inode, l⟩).2
  { listed with
    aCache := Function.update s.aCache inode (s.unused :: s.aCache inode)
    hashtable := Function.update s.hashtable (intHash l) (s.unused :: s.hashtable (intHash l))
    lru := s.lru ++ [s.unused]
    cSize := s.cSize + 1 }

/-- A block that has no page is in none of the pages that fit in. -/
theorem Room.not_full (room : s.Room inode locations) (mem : l ∈ locations)
    (missing : (s.pcacheLookUp l inode).1 = none) : s.cSize ≠ cacheCapacity := by
  have inFilter : l ∈ locations.filter fun l => (s.pcacheLookUp l inode).1.isNone :=
    List.mem_filter.mpr ⟨mem, by rw [missing]; rfl⟩
  have positive := List.length_pos_of_mem inFilter
  unfold Room at room
  omega

theorem generalFindPage_missing (room : s.Room inode locations) (mem : l ∈ locations)
    (missing : (s.pcacheLookUp l inode).1 = none) (evict : WriteBlock Data) :
    s.generalFindPage l inode true evict = some (some s.unused, s.withPage inode l) := by
  have notFull := room.not_full mem missing
  have isMissing : s.pcacheLookUp l inode = (none, s) := by
    rcases pcacheLookUp_cases s l inode with ⟨p, _, _, _, _, _, _, eq⟩ | ⟨_, eq⟩
    · rw [eq] at missing
      cases missing
    · exact eq
  have adds : (s.allocPage ⟨s.disk (s.iSb inode) l, .intact, inode, l⟩).2.addPage s.unused inode l
      evict = some (s.withPage inode l) := by
    unfold addPage pcacheAdd
    exact congrArg (Option.map _) (if_neg notFull)
  rw [generalFindPage, isMissing]
  dsimp only
  rw [if_pos rfl]
  exact congrArg (Option.map _) adds

theorem withPage_pages (s : PageCache Data) (inode l : ℕ) : (s.withPage inode l).pages =
    Function.update s.pages s.unused (some ⟨s.disk (s.iSb inode) l, .intact, inode, l⟩) := rfl

/-- The new page is found, and other pages as before. -/
theorem withPage_lookUp (linked : Linked s) (inode l other otherInode : ℕ) :
    ((s.withPage inode l).pcacheLookUp other otherInode).1 =
      if other = l ∧ otherInode = inode then some s.unused
      else (s.pcacheLookUp other otherInode).1 := by
  have fresh (b : ℕ) : s.unused ∉ s.hashtable b := fun mem =>
    linked.unused_not_mem (linked.hashed b _ mem).1
  have old (b : ℕ) : (s.hashtable b).find? ((s.withPage inode l).isPage other otherInode) =
      (s.hashtable b).find? (s.isPage other otherInode) := by
    refine List.find?_congr fun q mem => ?_
    have ne : q ≠ s.unused := fun eq => fresh b (eq ▸ mem)
    rw [isPage, withPage_pages, Function.update_of_ne ne]
    rfl
  have new : (s.withPage inode l).isPage other otherInode s.unused =
      decide (other = l ∧ otherInode = inode) := by
    rw [Bool.eq_iff_iff, isPage_iff, withPage_pages, Function.update_self, decide_eq_true_iff]
    constructor
    · rintro ⟨page, alive, location, _, mapping⟩
      cases alive
      exact ⟨location.symm, mapping.symm⟩
    · rintro ⟨rfl, rfl⟩
      exact ⟨_, rfl, rfl, nofun, rfl⟩
  rw [pcacheLookUp_fst, pcacheLookUp_fst]
  show (Function.update s.hashtable (intHash l) (s.unused :: s.hashtable (intHash l))
    (intHash other)).find? _ = _
  by_cases bucket : intHash other = intHash l
  · rw [bucket, Function.update_self, List.find?_cons, new, old]
    by_cases isNew : other = l ∧ otherInode = inode
    · rw [if_pos isNew, decide_eq_true isNew]
    · rw [if_neg isNew, decide_eq_false isNew]
  · rw [Function.update_of_ne bucket, old, if_neg fun isNew => bucket (congrArg _ isNew.1)]

theorem withPage_pageData (linked : Linked s) (missing : (s.pcacheLookUp l inode).1 = none)
    (otherInode other : ℕ) :
    (s.withPage inode l).pageData otherInode other = s.pageData otherInode other := by
  have found := withPage_lookUp linked inode l other otherInode
  by_cases isNew : other = l ∧ otherInode = inode
  · rw [if_pos isNew] at found
    rcases isNew with ⟨rfl, rfl⟩
    have alive : (s.withPage otherInode other).pages s.unused = some _ := Function.update_self ..
    rw [pageData_of_missing missing, pageData_of_found found alive]
  · rw [if_neg isNew] at found
    cases was : (s.pcacheLookUp other otherInode).1 with
    | none =>
        rw [pageData_of_missing (found.trans was), pageData_of_missing was]
        rfl
    | some q =>
        rcases lookUp_some was with ⟨inBucket, page, alive, _⟩
        have ne : q ≠ s.unused := fun eq =>
          linked.unused_not_mem (eq ▸ (linked.hashed _ q inBucket).1)
        have alive' : (s.withPage inode l).pages q = some page := by
          rw [withPage_pages, Function.update_of_ne ne, alive]
        rw [pageData_of_found (found.trans was) alive', pageData_of_found was alive]

theorem withPage_room (linked : Linked s) (room : s.Room inode locations) (mem : l ∈ locations)
    (missing : (s.pcacheLookUp l inode).1 = none) : (s.withPage inode l).Room inode locations := by
  have fewer : (locations.filter fun other =>
      ((s.withPage inode l).pcacheLookUp other inode).1.isNone) =
        (locations.filter fun other => (s.pcacheLookUp other inode).1.isNone).filter (· ≠ l) := by
    rw [List.filter_filter]
    refine List.filter_congr fun other _ => ?_
    rw [withPage_lookUp linked]
    by_cases isNew : other = l
    · simp [isNew]
    · simp [isNew]
  have inFilter : l ∈ locations.filter fun other => (s.pcacheLookUp other inode).1.isNone :=
    List.mem_filter.mpr ⟨mem, by rw [missing]; rfl⟩
  have lt : ((locations.filter fun other => (s.pcacheLookUp other inode).1.isNone).filter
      (· ≠ l)).length <
        (locations.filter fun other => (s.pcacheLookUp other inode).1.isNone).length :=
    List.length_filter_lt_length_iff_exists.mpr ⟨l, inFilter, by simp⟩
  unfold Room at room ⊢
  rw [fewer]
  show s.cSize + 1 + _ ≤ _
  omega

theorem withPage_keepsOthers (linked : Linked s) :
    KeepsOthers inode s (s.withPage inode l) := by
  refine ⟨fun p page alive => ⟨page, ?_, rfl, fun _ => rfl⟩,
    fun p mem => List.mem_append_left _ mem, fun p mem => ?_,
    fun other ne => Function.update_of_ne ne _ _⟩
  · have ne : p ≠ s.unused := Nat.ne_of_lt (linked.allocated p page alive)
    rw [withPage_pages, Function.update_of_ne ne, alive]
  · rcases List.mem_append.mp mem with old | isNew
    · exact Or.inl old
    · rw [List.mem_singleton.mp isNew]
      exact Or.inr ⟨_, Function.update_self .., rfl⟩

/-- A page that fits in is found or made, with what it holds. -/
theorem Tracks.generalFindPage (tracks : s.Tracks inode locations data) (mem : l ∈ locations)
    (evict : WriteBlock Data) :
    ∃ p s' page, s.generalFindPage l inode true evict = some (some p, s') ∧
      (s'.pcacheLookUp l inode).1 = some p ∧ s'.pages p = some page ∧ page.pData = data l ∧
        s'.Tracks inode locations data ∧ KeepsOthers inode s s' := by
  cases found : (s.pcacheLookUp l inode).1 with
  | none =>
      have found' := withPage_lookUp tracks.linked inode l l inode
      rw [if_pos ⟨rfl, rfl⟩] at found'
      have alive : (s.withPage inode l).pages s.unused = some _ := Function.update_self ..
      have ran := generalFindPage_missing tracks.room mem found evict
      refine ⟨_, _, _, ran, found', alive, ?_, ⟨tracks.linked.generalFindPage ran,
        withPage_room tracks.linked tracks.room mem found, fun other => ?_⟩,
        withPage_keepsOthers tracks.linked⟩
      · rw [← tracks.holds, pageData_of_missing found]
      · rw [withPage_pageData tracks.linked found, tracks.holds]
  | some p =>
      rcases lookUp_some found with ⟨inBucket, page, alive, _⟩
      let moved : PageCache Data := { s with lru := s.lru.filter (· ≠ p) ++ [p] }
      have ran : s.generalFindPage l inode true evict = some (some p, moved) := by
        rcases pcacheLookUp_cases s l inode with ⟨q, _, _, _, _, _, _, eq⟩ | ⟨_, eq⟩
        · rw [eq] at found
          cases found
          rw [PageCache.generalFindPage, eq]
        · rw [eq] at found
          cases found
      have lookUp (other otherInode : ℕ) :
          (moved.pcacheLookUp other otherInode).1 = (s.pcacheLookUp other otherInode).1 := by
        rw [pcacheLookUp_fst, pcacheLookUp_fst]
        rfl
      have inOrder : p ∈ s.lru := (tracks.linked.hashed _ p inBucket).1
      refine ⟨p, moved, page, ran, (lookUp l inode).trans found, alive, ?_,
        ⟨tracks.linked.moved inOrder, ?_, fun other => ?_⟩, ?_⟩
      · rw [← tracks.holds, pageData_of_found found alive]
      · unfold Room
        simp only [lookUp]
        exact tracks.room
      · rw [← tracks.holds, pageData, pageData, lookUp]
      · exact ⟨fun q other alive => ⟨other, alive, rfl, fun _ => rfl⟩,
          fun q mem => (mem_moved inOrder).mpr mem, fun q mem => Or.inl ((mem_moved inOrder).mp mem),
          fun _ _ => rfl⟩

/-- A page is changed and written back. -/
theorem Tracks.modify (tracks : s.Tracks inode locations data)
    (found : (s.pcacheLookUp l inode).1 = some p) (changed : Data) :
    ∃ mid s', s.modify p changed = some mid ∧ mid.writepage p .done = some (false, s') ∧
      s'.Tracks inode locations (Function.update data l changed) ∧ KeepsOthers inode s s' := by
  rcases lookUp_some found with ⟨inBucket, page, alive, rfl, valid, rfl⟩
  let mid := s.setPage p { page with pData := changed, pState := .dirty }
  let s' := (mid.setPage p { page with pData := changed, pState := .intact }).setBlock
    (s.iSb page.pMapping) page.pLocation changed
  have modified : s.modify p changed = some mid := by
    rw [PageCache.modify, alive]
    rfl
  have alive' : mid.pages p = some { page with pData := changed, pState := .dirty } :=
    setPage_pages_self _
  have wrote : mid.writepage p .done = some (false, s') := by
    rw [writepage, alive']
    rfl
  have here : s'.pages p = some { page with pData := changed, pState := .intact } :=
    setPage_pages_self _
  have others (q : ℕ) (ne : q ≠ p) : s'.pages q = s.pages q :=
    (setPage_pages_of_ne ne).trans (setPage_pages_of_ne ne)
  have lookUp (other otherInode : ℕ) :
      (s'.pcacheLookUp other otherInode).1 = (s.pcacheLookUp other otherInode).1 := by
    have same : s'.isPage other otherInode = s.isPage other otherInode := by
      funext q
      by_cases isPage : q = p
      · subst isPage
        simp [PageCache.isPage, here, alive, valid]
      · rw [PageCache.isPage, others q isPage, PageCache.isPage]
    rw [pcacheLookUp_fst, pcacheLookUp_fst, same]
    rfl
  have linked : Linked s' := (tracks.linked.of_sameLists (sameLists_modify modified)).of_sameLists
    (sameLists_writepage wrote)
  refine ⟨mid, s', modified, wrote, ⟨linked, ?_, fun other => ?_⟩, fun q old was => ?_,
    fun _ => id, fun _ => Or.inl, fun _ _ => rfl⟩
  · unfold Room
    simp only [lookUp]
    exact tracks.room
  · by_cases isChanged : other = page.pLocation
    · subst isChanged
      rw [pageData_of_found ((lookUp ..).trans found) here, Function.update_self]
    · rw [Function.update_of_ne isChanged, ← tracks.holds]
      cases was : (s.pcacheLookUp other page.pMapping).1 with
      | none =>
          rw [pageData_of_missing was, pageData_of_missing ((lookUp ..).trans was)]
          show Function.update s.disk (s.iSb page.pMapping) (Function.update
            (s.disk (s.iSb page.pMapping)) page.pLocation changed) (s.iSb page.pMapping) other = _
          rw [Function.update_self, Function.update_of_ne isChanged]
      | some q =>
          rcases lookUp_some was with ⟨_, old, isOld, location, _⟩
          have ne : q ≠ p := fun eq => by
            rw [eq] at isOld
            cases alive.symm.trans isOld
            exact isChanged location.symm
          rw [pageData_of_found was isOld,
            pageData_of_found ((lookUp ..).trans was) ((others q ne).trans isOld)]
  · by_cases isPage : q = p
    · subst isPage
      cases alive.symm.trans was
      exact ⟨_, here, rfl, fun ne => absurd rfl ne⟩
    · exact ⟨old, (others q isPage).trans was, rfl, fun _ => rfl⟩

/-! ## Deleting the pages of another file -/

theorem ListsPages.of_keepsOthers {file : ℕ} (lists : s.ListsPages file) (linked : Linked s)
    (keeps : KeepsOthers inode s s') (notFile : inode ≠ file) : s'.ListsPages file := by
  have same := keeps.aCache file notFile.symm
  refine ⟨same ▸ lists.nodup, fun p => ?_⟩
  rw [same, lists.listed]
  constructor
  · rintro ⟨mem, page, alive, rfl⟩
    rcases keeps.pages p page alive with ⟨page', alive', mapping, _⟩
    exact ⟨keeps.lru p mem, page', alive', mapping⟩
  · rintro ⟨mem, page', alive', rfl⟩
    rcases keeps.added p mem with old | ⟨other, isOther, isNew⟩
    · rcases linked.ordered p old with ⟨page, alive, _⟩
      rcases keeps.pages p page alive with ⟨kept, isKept, mapping, _⟩
      cases alive'.symm.trans isKept
      exact ⟨old, page, alive, mapping.symm⟩
    · cases alive'.symm.trans isOther
      exact absurd isNew.symm notFile

/-- The cache without some pages. -/
def withoutPages (s : PageCache Data) (list : List ℕ) : PageCache Data :=
  { s with
    hashtable := fun b => (s.hashtable b).filter (· ∉ list)
    lru := s.lru.filter (· ∉ list)
    pages := fun q => if q ∈ list then none else s.pages q
    cSize := s.cSize - list.length }

/-- The loop of a deletion takes the pages out of the cache and changes nothing else. -/
theorem deleteLoop_eq {list : List ℕ} (nodup : list.Nodup)
    (alive : ∀ p ∈ list, ∃ page, s.pages p = some page) :
    deleteLoop s list = some (s.withoutPages list) := by
  induction list generalizing s with
  | nil => simp [deleteLoop, withoutPages]
  | cons p rest ih =>
      rcases List.nodup_cons.mp nodup with ⟨new, nodupRest⟩
      rcases alive p List.mem_cons_self with ⟨page, isPage⟩
      let dropped := (s.setPage p { page with pState := .invalid }).drop p
      have dels : (s.setPage p { page with pState := .invalid }).pcacheDel p .done =
          some (false, dropped) := by
        rw [pcacheDel, setPage_pages_self]
        rfl
      have pages (q : ℕ) : dropped.pages q = if q = p then none else s.pages q := by
        split
        · next eq => exact eq ▸ drop_pages_self
        · next ne => exact (drop_pages_of_ne ne).trans (setPage_pages_of_ne ne)
      have aliveRest (q : ℕ) (mem : q ∈ rest) : ∃ page, dropped.pages q = some page := by
        rw [pages, if_neg fun eq : q = p => new (eq ▸ mem)]
        exact alive q (List.mem_cons_of_mem _ mem)
      have same : dropped.withoutPages rest = s.withoutPages (p :: rest) := by
        have filters (l : List ℕ) : (l.filter (· ≠ p)).filter (· ∉ rest) =
            l.filter (· ∉ p :: rest) := by
          rw [List.filter_filter]
          refine List.filter_congr fun q _ => ?_
          simp [Bool.and_comm]
        have size : s.cSize - 1 - rest.length = s.cSize - (rest.length + 1) := by omega
        have freed : (fun q => if q ∈ rest then none else dropped.pages q) =
            fun q => if q ∈ p :: rest then none else s.pages q := by
          funext q
          rw [pages]
          by_cases isFirst : q = p
          · simp [isFirst]
          · simp [isFirst]
        unfold withoutPages
        rw [freed]
        simp only [dropped, drop, setPage, filters, size, List.length_cons]
      rw [deleteLoop, isPage, Option.bind_some, dels]
      exact (ih nodupRest aliveRest).trans (congrArg some same)

/-- A deletion takes all pages of a file out of the cache, and no others; what the pages of
another file hold stays. -/
theorem deletePages_spec {file : ℕ} (lists : s.ListsPages file)
    (notFile : inode ≠ file) : ∃ s', s.deletePages file true = some s' ∧
      (∀ p ∈ s.lru, ∀ page, s.pages p = some page →
        (page.pMapping = file → p ∉ s'.lru ∧ s'.pages p = none) ∧
          (page.pMapping ≠ file → p ∈ s'.lru ∧ s'.pages p = some page)) ∧
      (∀ p ∈ s'.lru, p ∈ s.lru) ∧ ∀ l, s'.pageData inode l = s.pageData inode l := by
  have alive (p : ℕ) (mem : p ∈ s.aCache file) : ∃ page, s.pages p = some page := by
    rcases (lists.listed p).mp mem with ⟨_, page, isPage, _⟩
    exact ⟨page, isPage⟩
  let s' : PageCache Data :=
    { s.withoutPages (s.aCache file) with aCache := Function.update s.aCache file [] }
  have ran : s.deletePages file true = some s' := by
    rw [deletePages, deleteLoop_eq lists.nodup alive]
    rfl
  have notListed {q : ℕ} {page : VfsPage Data} (isPage : s.pages q = some page)
      (notFile : page.pMapping ≠ file) : q ∉ s.aCache file := fun listed => by
    rcases (lists.listed q).mp listed with ⟨_, page', isPage', isFile⟩
    cases isPage.symm.trans isPage'
    exact notFile isFile
  have lookUp (l : ℕ) : (s'.pcacheLookUp l inode).1 = (s.pcacheLookUp l inode).1 := by
    rw [pcacheLookUp_fst, pcacheLookUp_fst]
    show ((s.hashtable (intHash l)).filter (· ∉ s.aCache file)).find? _ = _
    rw [List.find?_filter]
    refine List.find?_congr fun q _ => ?_
    by_cases listed : q ∈ s.aCache file
    · have notPage : s.isPage l inode q = false := by
        refine Bool.eq_false_iff.mpr fun isPage => ?_
        rcases isPage_iff.mp isPage with ⟨page, alive, _, _, rfl⟩
        exact notListed alive notFile listed
      simp [listed, notPage]
    · have same : s'.pages q = s.pages q := if_neg listed
      simp [listed, isPage, same]
  refine ⟨s', ran, fun p mem page isPage => ⟨fun isFile => ?_, fun notFile => ?_⟩, fun p mem => ?_,
    fun l => ?_⟩
  · have listed : p ∈ s.aCache file := (lists.listed p).mpr ⟨mem, page, isPage, isFile⟩
    exact ⟨fun kept => by simpa [listed] using (List.mem_filter.mp kept).2, if_pos listed⟩
  · have notHere := notListed isPage notFile
    exact ⟨List.mem_filter.mpr ⟨mem, by simp [notHere]⟩, (if_neg notHere).trans isPage⟩
  · exact (List.mem_filter.mp mem).1
  · cases was : (s.pcacheLookUp l inode).1 with
    | none =>
        rw [pageData_of_missing was, pageData_of_missing ((lookUp l).trans was)]
        rfl
    | some q =>
        rcases lookUp_some was with ⟨_, page, isPage, _, _, rfl⟩
        rw [pageData_of_found was isPage, pageData_of_found ((lookUp l).trans was)
          ((if_neg (notListed isPage notFile)).trans isPage)]

end

end PageCache

end Ninix.Vfs
