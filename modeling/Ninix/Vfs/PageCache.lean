import Mathlib.Logic.Function.Basic
import Mathlib.Tactic.SplitIfs
import Ninix.Library.Reachability

/-!
# The cache of pages

The pages of all files are in one cache, by a hash table and a list in the order of their last
use, and each is on the list `a_cache` of the file it belongs to. A full cache writes its oldest
page back and frees it, which takes it off the hash table and the order but not off `a_cache`. A
block device is given by what each block of a file system holds; what a failed write leaves in
a block is not known.
-/

namespace Ninix.Vfs

/-- `CACHE_CAPACITY` -/
def cacheCapacity : ℕ := 256

/-- `p_state` -/
inductive PageState
  | invalid
  | intact
  | dirty
  deriving DecidableEq

/-- `struct vfs_page`, with the inode whose mapping it belongs to -/
structure VfsPage (Data : Type) where
  pData : Data
  pState : PageState
  pMapping : ℕ
  pLocation : ℕ

/-- How `write_block` goes: it writes the data, or fails and leaves something. -/
inductive WriteBlock (Data : Type)
  | done
  | failed (left : Data)

/-- What is in the block afterwards. -/
def WriteBlock.left {Data : Type} (data : Data) : WriteBlock Data → Data
  | .done => data
  | .failed left => left

def WriteBlock.err {Data : Type} : WriteBlock Data → Bool
  | .done => false
  | .failed _ => true

/-- The pages, `none` for one that is not allocated or freed, the lists they are on, and the
blocks of the file systems. -/
structure PageCache (Data : Type) where
  pages : ℕ → Option (VfsPage Data)
  unused : ℕ
  hashtable : ℕ → List ℕ
  lru : List ℕ
  cSize : ℕ
  aCache : ℕ → List ℕ
  iSb : ℕ → ℕ
  disk : ℕ → ℕ → Data

namespace PageCache

variable {Data : Type} (s : PageCache Data)

/-- `__intHash` of `c_tablesize` -/
def intHash (i : ℕ) : ℕ := i % 64

def setPage (p : ℕ) (page : VfsPage Data) : PageCache Data :=
  { s with pages := Function.update s.pages p (some page) }

def setBlock (sb location : ℕ) (data : Data) : PageCache Data :=
  { s with disk := Function.update s.disk sb (Function.update (s.disk sb) location data) }

/-- `fat32_writepage` and `ext2_writepage`, and whether they fail; `none` for a freed page -/
def writepage (p : ℕ) (write : WriteBlock Data) : Option (Bool × PageCache Data) :=
  (s.pages p).map fun page =>
    match page.pState with
    | .intact => (false, s)
    | .invalid => (true, s)
    | .dirty =>
        let s := s.setPage p { page with pState := .intact }
        (write.err, s.setBlock (s.iSb page.pMapping) page.pLocation (write.left page.pData))

/-- Take a page off the hash table and the order, and free it. -/
def drop (p : ℕ) : PageCache Data :=
  { s with
    hashtable := fun b => (s.hashtable b).filter (· ≠ p)
    lru := s.lru.filter (· ≠ p)
    pages := Function.update s.pages p none
    cSize := s.cSize - 1 }

/-- `pcache_del` -/
def pcacheDel (p : ℕ) (write : WriteBlock Data) : Option (Bool × PageCache Data) :=
  (s.pages p).bind fun page =>
    if page.pState ≠ .invalid then
      (s.writepage p write).map fun (err, s) => if err then (true, s) else (false, s.drop p)
    else some (false, s.drop p)

/-- Put a page in the hash table and at the end of the order. -/
def link (p location : ℕ) : PageCache Data :=
  { s with
    hashtable := Function.update s.hashtable (intHash location)
      (p :: s.hashtable (intHash location))
    lru := s.lru ++ [p]
    cSize := s.cSize + 1 }

/-- `pcache_add` -/
def pcacheAdd (p location : ℕ) (evict : WriteBlock Data) : Option (Bool × PageCache Data) :=
  if s.cSize = cacheCapacity then
    s.lru.head?.bind fun delpage =>
      (s.pcacheDel delpage evict).map fun (err, s) =>
        if err then (true, s) else (false, s.link p location)
  else some (false, s.link p location)

/-- `pcache_look_up` -/
def pcacheLookUp (ppn inode : ℕ) : Option ℕ × PageCache Data :=
  let found := (s.hashtable (intHash ppn)).find? fun p =>
    (s.pages p).any fun page =>
      page.pLocation = ppn && page.pState ≠ .invalid && page.pMapping = inode
  match found with
  | some p => (some p, { s with lru := s.lru.filter (· ≠ p) ++ [p] })
  | none => (none, s)

/-- A new page with its data. -/
def allocPage (page : VfsPage Data) : ℕ × PageCache Data :=
  (s.unused, { s with unused := s.unused + 1 }.setPage s.unused page)

/-- Put a page on `a_cache` and in the cache, whatever `pcache_add` returns. -/
def addPage (p inode location : ℕ) (evict : WriteBlock Data) : Option (PageCache Data) :=
  let s := { s with aCache := Function.update s.aCache inode (p :: s.aCache inode) }
  (s.pcacheAdd p location evict).map (·.2)

/-- `general_find_page`, with `ready` when `kmalloc` has memory and the block can be read -/
def generalFindPage (pageNo inode : ℕ) (ready : Bool) (evict : WriteBlock Data) :
    Option (Option ℕ × PageCache Data) :=
  match s.pcacheLookUp pageNo inode with
  | (some page, s) => some (some page, s)
  | (none, s) =>
      if ready then
        let (page, s) := s.allocPage
          { pData := s.disk (s.iSb inode) pageNo
            pState := .intact
            pMapping := inode
            pLocation := pageNo }
        (s.addPage page inode pageNo evict).map fun s => (some page, s)
      else some (none, s)

/-- What `fat32_createinode` and `ext2_createinode` do with the first page of a file. -/
def createFirstPage (inode location : ℕ) (data : Data) (write evict : WriteBlock Data) :
    Option (PageCache Data) :=
  let (page, s) := s.allocPage
    { pData := data, pState := .dirty, pMapping := inode, pLocation := location }
  (s.writepage page write).bind fun (err, s) =>
    if err then some s else s.addPage page inode location evict

/-- Data is put in a page, as by `generic_file_write`. -/
def modify (p : ℕ) (data : Data) : Option (PageCache Data) :=
  (s.pages p).map fun page => s.setPage p { page with pData := data, pState := .dirty }

/-- The loop of `generic_file_flush` over pages -/
def flushLoop (writes : ℕ → WriteBlock Data) :
    PageCache Data → List ℕ → Option (Bool × PageCache Data)
  | s, [] => some (false, s)
  | s, p :: rest =>
      (s.writepage p (writes p)).bind fun (err, s) =>
        if err then some (true, s) else flushLoop writes s rest

/-- `generic_file_flush` -/
def genericFileFlush (inode : ℕ) (writes : ℕ → WriteBlock Data) : Option (Bool × PageCache Data) :=
  flushLoop writes s (s.aCache inode)

/-- The loop of `fat32_deleteinode` and `ext2_deleteinode` over pages, none of which is written -/
def deleteLoop : PageCache Data → List ℕ → Option (PageCache Data)
  | s, [] => some s
  | s, p :: rest =>
      (s.pages p).bind fun page =>
        ((s.setPage p { page with pState := .invalid }).pcacheDel p .done).bind fun (err, s) =>
          if err then some s else deleteLoop s rest

/-- What the two deletions do with the pages of a file; the mapping is freed when they come to
their end. -/
def deletePages (inode : ℕ) (completes : Bool) : Option (PageCache Data) :=
  (deleteLoop s (s.aCache inode)).map fun s =>
    if completes then { s with aCache := Function.update s.aCache inode [] } else s

end PageCache

/-- Calls that use the cache of pages, with how their reads and writes of blocks go. -/
inductive PageOp (Data : Type)
  | generalFindPage (pageNo inode : ℕ) (ready : Bool) (evict : WriteBlock Data)
  | createFirstPage (inode location : ℕ) (data : Data) (write evict : WriteBlock Data)
  | modify (p : ℕ) (data : Data)
  | writepage (p : ℕ) (write : WriteBlock Data)
  | genericFileFlush (inode : ℕ) (writes : ℕ → WriteBlock Data)
  | deletePages (inode : ℕ) (completes : Bool)

namespace PageCache

variable {Data : Type}

def step (s : PageCache Data) : PageOp Data → Option (PageCache Data)
  | .generalFindPage pageNo inode ready evict =>
      (s.generalFindPage pageNo inode ready evict).map (·.2)
  | .createFirstPage inode location data write evict =>
      s.createFirstPage inode location data write evict
  | .modify p data => s.modify p data
  | .writepage p write => (s.writepage p write).map (·.2)
  | .genericFileFlush inode writes => (s.genericFileFlush inode writes).map (·.2)
  | .deletePages inode completes => s.deletePages inode completes

/-- The cache that `init_cache` leaves. -/
def initCache (iSb : ℕ → ℕ) (disk : ℕ → ℕ → Data) : PageCache Data where
  pages := fun _ => none
  unused := 0
  hashtable := fun _ => []
  lru := []
  cSize := 0
  aCache := fun _ => []
  iSb := iSb
  disk := disk

/-! ## What the operations do -/

section

variable {s s' : PageCache Data} {p : ℕ} {write : WriteBlock Data} {err : Bool}

/-- The cases of `writepage`. -/
theorem writepage_cases (written : s.writepage p write = some (err, s')) :
    ∃ page, s.pages p = some page ∧
      ((page.pState = .intact ∧ err = false ∧ s' = s) ∨
        (page.pState = .invalid ∧ err = true ∧ s' = s) ∨
        (page.pState = .dirty ∧ err = write.err ∧
          s' = (s.setPage p { page with pState := .intact }).setBlock (s.iSb page.pMapping)
            page.pLocation (write.left page.pData))) := by
  rcases Option.map_eq_some_iff.mp written with ⟨page, alive, eq⟩
  refine ⟨page, alive, ?_⟩
  cases state : page.pState with
  | invalid =>
      simp only [state, Prod.mk.injEq] at eq
      exact Or.inr (Or.inl ⟨rfl, eq.1.symm, eq.2.symm⟩)
  | intact =>
      simp only [state, Prod.mk.injEq] at eq
      exact Or.inl ⟨rfl, eq.1.symm, eq.2.symm⟩
  | dirty =>
      simp only [state, Prod.mk.injEq] at eq
      exact Or.inr (Or.inr ⟨rfl, eq.1.symm, eq.2.symm⟩)

/-- The cases of `pcache_del`. -/
theorem pcacheDel_cases (deleted : s.pcacheDel p write = some (err, s')) :
    ∃ page, s.pages p = some page ∧
      ((page.pState = .invalid ∧ err = false ∧ s' = s.drop p) ∨
        (page.pState ≠ .invalid ∧ ∃ written, s.writepage p write = some (err, written) ∧
          s' = if err then written else written.drop p)) := by
  rcases Option.bind_eq_some_iff.mp deleted with ⟨page, alive, eq⟩
  refine ⟨page, alive, ?_⟩
  by_cases valid : page.pState = .invalid
  · rw [if_neg (not_not.mpr valid), Option.some.injEq, Prod.mk.injEq] at eq
    exact Or.inl ⟨valid, eq.1.symm, eq.2.symm⟩
  · rw [if_pos valid] at eq
    rcases Option.map_eq_some_iff.mp eq with ⟨⟨failed, written⟩, ran, eq⟩
    cases failed with
    | true =>
        simp only [if_true, Prod.mk.injEq] at eq
        rcases eq with ⟨rfl, rfl⟩
        exact Or.inr ⟨valid, written, ran, rfl⟩
    | false =>
        simp only [Bool.false_eq_true, if_false, Prod.mk.injEq] at eq
        rcases eq with ⟨rfl, rfl⟩
        exact Or.inr ⟨valid, written, ran, rfl⟩

/-- The cases of `pcache_add`. -/
theorem pcacheAdd_cases {location : ℕ} (added : s.pcacheAdd p location write = some (err, s')) :
    (s.cSize ≠ cacheCapacity ∧ err = false ∧ s' = s.link p location) ∨
      (s.cSize = cacheCapacity ∧ ∃ delpage deleted, s.lru.head? = some delpage ∧
        s.pcacheDel delpage write = some (err, deleted) ∧
          s' = if err then deleted else deleted.link p location) := by
  unfold pcacheAdd at added
  by_cases full : s.cSize = cacheCapacity
  · rw [if_pos full] at added
    rcases Option.bind_eq_some_iff.mp added with ⟨delpage, isHead, eq⟩
    rcases Option.map_eq_some_iff.mp eq with ⟨⟨failed, deleted⟩, ran, eq⟩
    refine Or.inr ⟨full, delpage, deleted, isHead, ?_⟩
    cases failed with
    | true =>
        simp only [if_true, Prod.mk.injEq] at eq
        rcases eq with ⟨rfl, rfl⟩
        exact ⟨ran, rfl⟩
    | false =>
        simp only [Bool.false_eq_true, if_false, Prod.mk.injEq] at eq
        rcases eq with ⟨rfl, rfl⟩
        exact ⟨ran, rfl⟩
  · rw [if_neg full, Option.some.injEq, Prod.mk.injEq] at added
    exact Or.inl ⟨full, added.1.symm, added.2.symm⟩

/-- The page that `pcache_look_up` finds. -/
theorem pcacheLookUp_cases (s : PageCache Data) (ppn inode : ℕ) :
    (∃ p page, p ∈ s.hashtable (intHash ppn) ∧ s.pages p = some page ∧ page.pLocation = ppn ∧
      page.pState ≠ .invalid ∧ page.pMapping = inode ∧
        s.pcacheLookUp ppn inode = (some p, { s with lru := s.lru.filter (· ≠ p) ++ [p] })) ∨
    ((∀ p page, p ∈ s.hashtable (intHash ppn) → s.pages p = some page → page.pLocation = ppn →
      page.pMapping = inode → page.pState = .invalid) ∧
        s.pcacheLookUp ppn inode = (none, s)) := by
  unfold pcacheLookUp
  generalize isFound : (s.hashtable (intHash ppn)).find? _ = found
  cases found with
  | some p =>
      have holds := List.find?_some isFound
      simp only [Option.any_eq_true, Bool.and_eq_true, decide_eq_true_eq] at holds
      rcases holds with ⟨page, alive, ⟨location, state⟩, mapping⟩
      exact Or.inl ⟨p, page, List.mem_of_find?_eq_some isFound, alive, location, state, mapping, rfl⟩
  | none =>
      refine Or.inr ⟨fun p page mem alive location mapping => ?_, rfl⟩
      have passed := List.find?_eq_none.mp isFound p mem
      simp only [alive, Option.any_some, location, mapping, decide_true, Bool.true_and,
        Bool.and_true, decide_not, Bool.not_eq_true', decide_eq_false_iff_not, not_not] at passed
      exact passed

/-! ## Pages in the cache -/

/-- The hash table and the order hold the same pages, which are not freed. -/
structure Linked (s : PageCache Data) : Prop where
  ordered : ∀ p ∈ s.lru, ∃ page, s.pages p = some page ∧
    p ∈ s.hashtable (intHash page.pLocation)
  hashed : ∀ b, ∀ p ∈ s.hashtable b, p ∈ s.lru ∧
    ∃ page, s.pages p = some page ∧ intHash page.pLocation = b
  allocated : ∀ p page, s.pages p = some page → p < s.unused

/-- A state in which pages may differ in their data and states only, and blocks. -/
structure SameLists (s s' : PageCache Data) : Prop where
  pages : ∀ q, (s'.pages q).map (fun page => (page.pMapping, page.pLocation)) =
    (s.pages q).map fun page => (page.pMapping, page.pLocation)
  unused : s'.unused = s.unused
  hashtable : s'.hashtable = s.hashtable
  lru : s'.lru = s.lru
  cSize : s'.cSize = s.cSize
  aCache : s'.aCache = s.aCache
  iSb : s'.iSb = s.iSb

theorem SameLists.refl (s : PageCache Data) : SameLists s s :=
  ⟨fun _ => rfl, rfl, rfl, rfl, rfl, rfl, rfl⟩

theorem SameLists.trans {s'' : PageCache Data} (first : SameLists s s')
    (second : SameLists s' s'') : SameLists s s'' :=
  ⟨fun q => (second.pages q).trans (first.pages q), second.unused.trans first.unused,
    second.hashtable.trans first.hashtable, second.lru.trans first.lru,
    second.cSize.trans first.cSize, second.aCache.trans first.aCache,
    second.iSb.trans first.iSb⟩

/-- A page stays in its mapping and at its location. -/
theorem SameLists.page (same : SameLists s s') {q : ℕ} {page : VfsPage Data}
    (alive : s'.pages q = some page) : ∃ old, s.pages q = some old ∧
      old.pMapping = page.pMapping ∧ old.pLocation = page.pLocation := by
  have pages := same.pages q
  rw [alive] at pages
  rcases Option.map_eq_some_iff.mp pages.symm with ⟨old, wasAlive, eq⟩
  exact ⟨old, wasAlive, (Prod.mk.inj eq).1, (Prod.mk.inj eq).2⟩

theorem SameLists.symm (same : SameLists s s') : SameLists s' s :=
  ⟨fun q => (same.pages q).symm, same.unused.symm, same.hashtable.symm, same.lru.symm,
    same.cSize.symm, same.aCache.symm, same.iSb.symm⟩

theorem setPage_pages_self (page : VfsPage Data) : (s.setPage p page).pages p = some page :=
  Function.update_self ..

theorem setPage_pages_of_ne {page : VfsPage Data} {q : ℕ} (ne : q ≠ p) :
    (s.setPage p page).pages q = s.pages q := Function.update_of_ne ne ..

/-- Other data and states of a page. -/
theorem sameLists_setPage {page changed : VfsPage Data} (alive : s.pages p = some page)
    (mapping : changed.pMapping = page.pMapping)
    (location : changed.pLocation = page.pLocation) : SameLists s (s.setPage p changed) := by
  refine ⟨fun q => ?_, rfl, rfl, rfl, rfl, rfl, rfl⟩
  by_cases same : q = p
  · simp [setPage, same, alive, mapping, location]
  · simp [setPage, Function.update_of_ne same]

/-- Writing a page back changes no list. -/
theorem sameLists_writepage (written : s.writepage p write = some (err, s')) : SameLists s s' := by
  rcases writepage_cases written with
    ⟨page, alive, ⟨_, _, rfl⟩ | ⟨_, _, rfl⟩ | ⟨_, _, rfl⟩⟩
  · exact .refl _
  · exact .refl _
  · have same : SameLists s (s.setPage p { page with pState := .intact }) :=
      sameLists_setPage alive rfl rfl
    exact ⟨same.pages, rfl, rfl, rfl, rfl, rfl, rfl⟩

theorem Linked.of_sameLists (linked : Linked s) (same : SameLists s s') : Linked s' := by
  refine ⟨fun p mem => ?_, fun b p mem => ?_, fun p page alive => ?_⟩
  · rw [same.lru] at mem
    rcases linked.ordered p mem with ⟨page, alive, inBucket⟩
    rcases same.symm.page alive with ⟨changed, alive', _, location⟩
    exact ⟨changed, alive', by rwa [same.hashtable, location]⟩
  · rw [same.hashtable] at mem
    rcases linked.hashed b p mem with ⟨inOrder, page, alive, hash⟩
    rcases same.symm.page alive with ⟨changed, alive', _, location⟩
    exact ⟨same.lru ▸ inOrder, changed, alive', by rwa [location]⟩
  · rcases same.page alive with ⟨old, wasAlive, _, _⟩
    exact same.unused ▸ linked.allocated p old wasAlive

/-- A page is in the cache. -/
theorem Linked.mem_iff (linked : Linked s) {page : VfsPage Data} (alive : s.pages p = some page) :
    p ∈ s.hashtable (intHash page.pLocation) ↔ p ∈ s.lru := by
  constructor
  · exact fun mem => (linked.hashed _ p mem).1
  · intro mem
    rcases linked.ordered p mem with ⟨other, alive', inBucket⟩
    rw [alive, Option.some.injEq] at alive'
    rwa [alive']

theorem drop_pages_of_ne {q : ℕ} (ne : q ≠ p) : (s.drop p).pages q = s.pages q :=
  Function.update_of_ne ne ..

theorem drop_pages_self : (s.drop p).pages p = none := Function.update_self ..

theorem mem_drop_lru {q : ℕ} : q ∈ (s.drop p).lru ↔ q ∈ s.lru ∧ q ≠ p := by
  simp [drop]

theorem mem_drop_hashtable {b q : ℕ} : q ∈ (s.drop p).hashtable b ↔ q ∈ s.hashtable b ∧ q ≠ p := by
  simp [drop]

theorem Linked.drop (linked : Linked s) : Linked (s.drop p) := by
  refine ⟨fun q mem => ?_, fun b q mem => ?_, fun q page alive => ?_⟩
  · rcases mem_drop_lru.mp mem with ⟨mem, ne⟩
    rcases linked.ordered q mem with ⟨page, alive, inBucket⟩
    exact ⟨page, (drop_pages_of_ne ne).trans alive, mem_drop_hashtable.mpr ⟨inBucket, ne⟩⟩
  · rcases mem_drop_hashtable.mp mem with ⟨mem, ne⟩
    rcases linked.hashed b q mem with ⟨inOrder, page, alive, hash⟩
    exact ⟨mem_drop_lru.mpr ⟨inOrder, ne⟩, page, (drop_pages_of_ne ne).trans alive, hash⟩
  · by_cases ne : q = p
    · rw [ne, drop_pages_self] at alive
      cases alive
    · exact linked.allocated q page ((drop_pages_of_ne ne).symm.trans alive)

theorem Linked.pcacheDel (linked : Linked s)
    (deleted : s.pcacheDel p write = some (err, s')) : Linked s' := by
  rcases pcacheDel_cases deleted with ⟨page, _, ⟨_, _, rfl⟩ | ⟨_, written, ran, rfl⟩⟩
  · exact linked.drop
  · have kept := linked.of_sameLists (sameLists_writepage ran)
    cases err with
    | true => exact kept
    | false => exact kept.drop

/-- A page other than the one that is deleted is not freed. -/
theorem pcacheDel_page (deleted : s.pcacheDel p write = some (err, s')) {q : ℕ} (ne : q ≠ p)
    {page : VfsPage Data} (alive : s.pages q = some page) : ∃ kept, s'.pages q = some kept ∧
      kept.pMapping = page.pMapping ∧ kept.pLocation = page.pLocation := by
  rcases pcacheDel_cases deleted with ⟨_, _, ⟨_, _, rfl⟩ | ⟨_, written, ran, rfl⟩⟩
  · exact ⟨page, (drop_pages_of_ne ne).trans alive, rfl, rfl⟩
  · rcases (sameLists_writepage ran).symm.page alive with ⟨kept, alive', mapping, location⟩
    cases err with
    | true => exact ⟨kept, alive', mapping, location⟩
    | false => exact ⟨kept, (drop_pages_of_ne ne).trans alive', mapping, location⟩

/-- The order after a deletion. -/
theorem pcacheDel_lru (deleted : s.pcacheDel p write = some (err, s')) :
    s'.lru = if err then s.lru else s.lru.filter (· ≠ p) := by
  rcases pcacheDel_cases deleted with ⟨page, _, ⟨_, rfl, rfl⟩ | ⟨_, written, ran, rfl⟩⟩
  · rfl
  · have lru := (sameLists_writepage ran).lru
    cases err with
    | true => exact lru
    | false => exact congrArg (List.filter (· ≠ p)) lru

/-- A page that is deleted is freed. -/
theorem pcacheDel_freed (deleted : s.pcacheDel p write = some (false, s')) :
    s'.pages p = none := by
  rcases pcacheDel_cases deleted with ⟨page, _, ⟨_, _, rfl⟩ | ⟨_, written, ran, rfl⟩⟩
  · exact drop_pages_self
  · exact drop_pages_self

/-- It stays on the list of its file. -/
theorem pcacheDel_aCache (deleted : s.pcacheDel p write = some (err, s')) :
    s'.aCache = s.aCache := by
  rcases pcacheDel_cases deleted with ⟨page, _, ⟨_, _, rfl⟩ | ⟨_, written, ran, rfl⟩⟩
  · rfl
  · have same := (sameLists_writepage ran).aCache
    cases err with
    | true => exact same
    | false => exact same

theorem mem_link_hashtable {location b q : ℕ} : q ∈ (s.link p location).hashtable b ↔
    (b = intHash location ∧ q = p) ∨ q ∈ s.hashtable b := by
  simp only [link, Function.update_apply]
  split <;> simp [*]

theorem mem_link_lru {location q : ℕ} :
    q ∈ (s.link p location).lru ↔ q ∈ s.lru ∨ q = p := by
  simp [link]

theorem Linked.link {page : VfsPage Data} (linked : Linked s) (alive : s.pages p = some page) :
    Linked (s.link p page.pLocation) := by
  refine ⟨fun q mem => ?_, fun b q mem => ?_, linked.allocated⟩
  · rcases mem_link_lru.mp mem with mem | rfl
    · rcases linked.ordered q mem with ⟨other, alive', inBucket⟩
      exact ⟨other, alive', mem_link_hashtable.mpr (Or.inr inBucket)⟩
    · exact ⟨page, alive, mem_link_hashtable.mpr (Or.inl ⟨rfl, rfl⟩)⟩
  · rcases mem_link_hashtable.mp mem with ⟨rfl, rfl⟩ | mem
    · exact ⟨mem_link_lru.mpr (Or.inr rfl), page, alive, rfl⟩
    · rcases linked.hashed b q mem with ⟨inOrder, rest⟩
      exact ⟨mem_link_lru.mpr (Or.inl inOrder), rest⟩

/-- A page that is not in the cache may be added. -/
theorem Linked.pcacheAdd {page : VfsPage Data} (linked : Linked s)
    (alive : s.pages p = some page) (new : p ∉ s.lru)
    (added : s.pcacheAdd p page.pLocation write = some (err, s')) : Linked s' := by
  rcases pcacheAdd_cases added with ⟨_, _, rfl⟩ | ⟨_, delpage, deleted, isHead, ran, rfl⟩
  · exact linked.link alive
  · have ne : p ≠ delpage := fun eq => new (eq ▸ List.mem_of_mem_head? isHead)
    rcases pcacheDel_page ran ne alive with ⟨kept, alive', _, location⟩
    cases err with
    | true => exact linked.pcacheDel ran
    | false => exact location ▸ (linked.pcacheDel ran).link alive'

theorem Linked.addPage {page : VfsPage Data} (linked : Linked s) {inode : ℕ}
    (alive : s.pages p = some page) (new : p ∉ s.lru)
    (added : s.addPage p inode page.pLocation write = some s') : Linked s' := by
  rcases Option.map_eq_some_iff.mp added with ⟨⟨err, s''⟩, ran, rfl⟩
  have listed : Linked { s with aCache := Function.update s.aCache inode (p :: s.aCache inode) } :=
    ⟨linked.ordered, linked.hashed, linked.allocated⟩
  exact listed.pcacheAdd (s := { s with aCache := _ }) alive new ran

/-- A page that is not allocated yet is in no list. -/
theorem Linked.unused_not_mem (linked : Linked s) : s.unused ∉ s.lru := fun mem => by
  rcases linked.ordered _ mem with ⟨page, alive, _⟩
  exact absurd (linked.allocated _ page alive) (Nat.lt_irrefl _)

theorem allocPage_pages (page : VfsPage Data) :
    (s.allocPage page).2.pages s.unused = some page := Function.update_self ..

theorem allocPage_pages_of_ne {page : VfsPage Data} {q : ℕ} (ne : q ≠ s.unused) :
    (s.allocPage page).2.pages q = s.pages q := Function.update_of_ne ne ..

theorem Linked.allocPage (linked : Linked s) (page : VfsPage Data) :
    Linked (s.allocPage page).2 := by
  have old {q : ℕ} (mem : q ∈ s.lru) : (s.allocPage page).2.pages q = s.pages q :=
    allocPage_pages_of_ne fun eq => linked.unused_not_mem (eq ▸ mem)
  refine ⟨fun q mem => ?_, fun b q mem => ?_, fun q other alive => ?_⟩
  · rw [old mem]
    exact linked.ordered q mem
  · rw [old (linked.hashed b q mem).1]
    exact linked.hashed b q mem
  · by_cases new : q = s.unused
    · exact new ▸ Nat.lt_succ_self _
    · exact Nat.lt_succ_of_lt
        (linked.allocated q other ((allocPage_pages_of_ne new).symm.trans alive))

theorem mem_moved (mem : p ∈ s.lru) {q : ℕ} : q ∈ s.lru.filter (· ≠ p) ++ [p] ↔ q ∈ s.lru := by
  by_cases eq : q = p
  · simp [eq, mem]
  · simp [eq]

/-- A page that is used moves to the end of the order. -/
theorem Linked.moved (linked : Linked s) (mem : p ∈ s.lru) :
    Linked { s with lru := s.lru.filter (· ≠ p) ++ [p] } :=
  ⟨fun q inOrder => linked.ordered q ((mem_moved mem).mp inOrder),
    fun b q inBucket =>
      ⟨(mem_moved mem).mpr (linked.hashed b q inBucket).1, (linked.hashed b q inBucket).2⟩,
    linked.allocated⟩

/-- What `general_find_page` does: it finds a page, or makes one from the block, or fails. -/
theorem generalFindPage_cases {pageNo inode : ℕ} {ready : Bool} {found : Option ℕ}
    (ran : s.generalFindPage pageNo inode ready write = some (found, s')) :
    (∃ p page, p ∈ s.hashtable (intHash pageNo) ∧ s.pages p = some page ∧
      page.pLocation = pageNo ∧ page.pState ≠ .invalid ∧ page.pMapping = inode ∧
        found = some p ∧ s' = { s with lru := s.lru.filter (· ≠ p) ++ [p] }) ∨
    ((∀ p page, p ∈ s.hashtable (intHash pageNo) → s.pages p = some page →
      page.pLocation = pageNo → page.pMapping = inode → page.pState = .invalid) ∧
        ((ready = false ∧ found = none ∧ s' = s) ∨
          (ready = true ∧ found = some s.unused ∧
            (s.allocPage ⟨s.disk (s.iSb inode) pageNo, .intact, inode, pageNo⟩).2.addPage s.unused
              inode pageNo write = some s'))) := by
  unfold generalFindPage at ran
  rcases pcacheLookUp_cases s pageNo inode with
    ⟨p, page, inBucket, alive, location, state, mapping, eq⟩ | ⟨missing, eq⟩
  · simp only [eq, Option.some.injEq, Prod.mk.injEq] at ran
    exact Or.inl ⟨p, page, inBucket, alive, location, state, mapping, ran.1.symm, ran.2.symm⟩
  · rw [eq] at ran
    cases ready with
    | false =>
        simp only [Bool.false_eq_true, if_false, Option.some.injEq, Prod.mk.injEq] at ran
        exact Or.inr ⟨missing, Or.inl ⟨rfl, ran.1.symm, ran.2.symm⟩⟩
    | true =>
        rcases Option.map_eq_some_iff.mp ran with ⟨added, adds, eq⟩
        cases eq
        exact Or.inr ⟨missing, Or.inr ⟨rfl, rfl, adds⟩⟩

theorem Linked.generalFindPage (linked : Linked s) {pageNo inode : ℕ} {ready : Bool}
    {found : Option ℕ} (ran : s.generalFindPage pageNo inode ready write = some (found, s')) :
    Linked s' := by
  rcases generalFindPage_cases ran with
    ⟨p, page, inBucket, _, _, _, _, _, rfl⟩ | ⟨_, ⟨_, _, rfl⟩ | ⟨_, _, adds⟩⟩
  · exact linked.moved (linked.hashed _ p inBucket).1
  · exact linked
  · exact (linked.allocPage _).addPage (allocPage_pages _) linked.unused_not_mem adds

/-- The cases of the first page of a file: it cannot be written, or it is added. -/
theorem createFirstPage_cases {inode location : ℕ} {data : Data} {evict : WriteBlock Data}
    (ran : s.createFirstPage inode location data write evict = some s') :
    ∃ err written,
      (s.allocPage ⟨data, .dirty, inode, location⟩).2.writepage s.unused write =
        some (err, written) ∧
      ((err = true ∧ s' = written) ∨
        (err = false ∧ written.addPage s.unused inode location evict = some s')) := by
  rcases Option.bind_eq_some_iff.mp ran with ⟨⟨err, written⟩, wrote, eq⟩
  refine ⟨err, written, wrote, ?_⟩
  cases err with
  | true => exact Or.inl ⟨rfl, (Option.some.inj eq).symm⟩
  | false => exact Or.inr ⟨rfl, eq⟩

theorem Linked.createFirstPage (linked : Linked s) {inode location : ℕ} {data : Data}
    {evict : WriteBlock Data}
    (ran : s.createFirstPage inode location data write evict = some s') : Linked s' := by
  rcases createFirstPage_cases ran with ⟨err, written, wrote, ⟨_, rfl⟩ | ⟨_, adds⟩⟩
  · exact (linked.allocPage _).of_sameLists (sameLists_writepage wrote)
  · have same := sameLists_writepage wrote
    rcases same.symm.page (allocPage_pages _) with ⟨page, alive, _, rfl⟩
    exact ((linked.allocPage _).of_sameLists same).addPage alive
      (same.lru ▸ linked.unused_not_mem) adds

theorem sameLists_modify {data : Data} (ran : s.modify p data = some s') : SameLists s s' := by
  rcases Option.map_eq_some_iff.mp ran with ⟨page, alive, rfl⟩
  exact sameLists_setPage alive rfl rfl

/-- Flushing pages changes no list. -/
theorem sameLists_flushLoop {writes : ℕ → WriteBlock Data} {list : List ℕ}
    (ran : flushLoop writes s list = some (err, s')) : SameLists s s' := by
  induction list generalizing s with
  | nil =>
      cases ran
      exact .refl _
  | cons p rest ih =>
      rcases Option.bind_eq_some_iff.mp ran with ⟨⟨failed, written⟩, wrote, eq⟩
      have first := sameLists_writepage wrote
      cases failed with
      | true =>
          cases eq
          exact first
      | false => exact first.trans (ih eq)

/-- A step of the loop that deletes pages frees one. -/
theorem deleteLoop_cons {rest : List ℕ} (ran : deleteLoop s (p :: rest) = some s') :
    ∃ page, s.pages p = some page ∧
      deleteLoop ((s.setPage p { page with pState := .invalid }).drop p) rest = some s' := by
  rcases Option.bind_eq_some_iff.mp ran with ⟨page, alive, eq⟩
  rcases Option.bind_eq_some_iff.mp eq with ⟨⟨err, deleted⟩, dels, eq⟩
  rcases pcacheDel_cases dels with ⟨other, alive', ⟨_, rfl, rfl⟩ | ⟨valid, _⟩⟩
  · exact ⟨page, alive, eq⟩
  · have eq := Option.some.inj ((setPage_pages_self _).symm.trans alive')
    exact absurd (eq ▸ rfl) valid

theorem Linked.deleteLoop (linked : Linked s) {list : List ℕ}
    (ran : deleteLoop s list = some s') : Linked s' := by
  induction list generalizing s with
  | nil =>
      cases ran
      exact linked
  | cons p rest ih =>
      rcases deleteLoop_cons ran with ⟨page, alive, ranRest⟩
      have marked : Linked (s.setPage p { page with pState := .invalid }) :=
        linked.of_sameLists (sameLists_setPage alive rfl rfl)
      exact ih marked.drop ranRest

/-- Every call keeps the cache linked. -/
theorem Linked.step (linked : Linked s) {op : PageOp Data} (stepped : s.step op = some s') :
    Linked s' := by
  cases op with
  | generalFindPage pageNo inode ready evict =>
      rcases Option.map_eq_some_iff.mp stepped with ⟨⟨found, _⟩, ran, rfl⟩
      exact linked.generalFindPage ran
  | createFirstPage inode location data write evict => exact linked.createFirstPage stepped
  | modify p data => exact linked.of_sameLists (sameLists_modify stepped)
  | writepage p write =>
      rcases Option.map_eq_some_iff.mp stepped with ⟨⟨err, _⟩, ran, rfl⟩
      exact linked.of_sameLists (sameLists_writepage ran)
  | genericFileFlush inode writes =>
      rcases Option.map_eq_some_iff.mp stepped with ⟨⟨err, _⟩, ran, rfl⟩
      exact linked.of_sameLists (sameLists_flushLoop ran)
  | deletePages inode completes =>
      rcases Option.map_eq_some_iff.mp stepped with ⟨deleted, ran, rfl⟩
      have kept := linked.deleteLoop ran
      cases completes with
      | true => exact ⟨kept.ordered, kept.hashed, kept.allocated⟩
      | false => exact kept

theorem linked_initCache (iSb : ℕ → ℕ) (disk : ℕ → ℕ → Data) : Linked (initCache iSb disk) :=
  ⟨fun _ mem => absurd mem (by simp [initCache]), fun _ _ mem => absurd mem (by simp [initCache]),
    fun _ _ alive => absurd alive (by simp [initCache])⟩

end

end PageCache

end Ninix.Vfs
