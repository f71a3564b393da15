import Mathlib.Data.List.Nodup
import Mathlib.Data.List.Pairwise
import Ninix.Vfs.DentryCache
import Ninix.Vfs.PageCache

/-!
# The cache of pages as two lists and a counter

Finding a page and putting one in makes it the last of the order, so the order is that of the last
use of the pages, and a full cache gives up the page that has gone unused the longest. The table
has `CACHE_HASHSIZE` buckets, whatever size `cache_init` is given. How a page is written back is
left open: `writepage` returns an error or not and leaves the page in any state.
-/

namespace Ninix.Vfs

open TransitionSystem

/-- What `writepage` returns, and the state in which it leaves the page. -/
structure Writepage where
  err : Bool
  pState : PageState

/-- `struct cache` of the pages with the pages themselves, and the pages that have been found or
put in, the last one first. -/
structure Cache (Data : Type) where
  cCapacity : ℕ
  cTablesize : ℕ
  cSize : ℕ
  cHashtable : ℕ → List ℕ
  cLru : List ℕ
  pages : ℕ → Option (VfsPage Data)
  uses : List ℕ

namespace Cache

variable {Data : Type}

/-- `cache_init` -/
def cacheInit (hashsize capacity : ℕ) : Cache Data where
  cCapacity := capacity
  cTablesize := hashsize
  cSize := 0
  cHashtable := fun _ => []
  cLru := []
  pages := fun _ => none
  uses := []

/-- `cache_is_full` -/
def isFull (s : Cache Data) : Prop := s.cSize = s.cCapacity

instance (s : Cache Data) : Decidable s.isFull := inferInstanceAs (Decidable (_ = _))

/-- The bucket by `__intHash`, `none` outside the table. -/
def bucket (s : Cache Data) (location : ℕ) : Option ℕ :=
  if 0 < s.cTablesize ∧ location % s.cTablesize < cacheHashsize then
    some (location % s.cTablesize)
  else none

def setPage (s : Cache Data) (p : ℕ) (page : VfsPage Data) : Cache Data :=
  { s with pages := Function.update s.pages p (some page) }

/-- A page becomes the last of the order. -/
def use (s : Cache Data) (p : ℕ) : Cache Data :=
  { s with cLru := s.cLru.filter (· ≠ p) ++ [p], uses := p :: s.uses }

/-- The page is the one that `pcache_look_up` is asked for. -/
def isWanted (s : Cache Data) (ppn inode p : ℕ) : Bool :=
  (s.pages p).any fun page =>
    page.pLocation = ppn && page.pState ≠ .invalid && page.pMapping = inode

/-- `pcache_look_up` -/
def pcacheLookUp (s : Cache Data) (ppn inode : ℕ) : Option (Option ℕ × Cache Data) :=
  (s.bucket ppn).map fun head =>
    match (s.cHashtable head).find? (s.isWanted ppn inode) with
    | some p => (some p, s.use p)
    | none => (none, s)

/-- Take a page off the table and the order, and free it. -/
def drop (s : Cache Data) (p : ℕ) : Cache Data :=
  { s with
    cHashtable := fun b => (s.cHashtable b).filter (· ≠ p)
    cLru := s.cLru.filter (· ≠ p)
    pages := Function.update s.pages p none
    cSize := s.cSize - 1 }

/-- `pcache_del` -/
def pcacheDel (s : Cache Data) (p : ℕ) (write : Writepage) : Option (Bool × Cache Data) :=
  (s.pages p).map fun delpage =>
    if delpage.pState ≠ .invalid then
      let s := s.setPage p { delpage with pState := write.pState }
      if write.err then (true, s) else (false, s.drop p)
    else (false, s.drop p)

/-- Put a page in a bucket and at the end of the order. -/
def link (s : Cache Data) (p head : ℕ) : Cache Data :=
  { s with
    cHashtable := Function.update s.cHashtable head (p :: s.cHashtable head)
    cLru := s.cLru ++ [p]
    cSize := s.cSize + 1
    uses := p :: s.uses }

/-- `pcache_add` -/
def pcacheAdd (s : Cache Data) (p : ℕ) (evict : Writepage) : Option (Bool × Cache Data) :=
  (s.pages p).bind fun page =>
    (s.bucket page.pLocation).bind fun head =>
      if s.isFull then
        s.cLru.head?.bind fun delpage =>
          (s.pcacheDel delpage evict).map fun (err, s) =>
            if err then (true, s) else (false, s.link p head)
      else some (false, s.link p head)

end Cache

/-- Calls of the operations of the cache, a page being new to the cache when it is put in; between
them the callers change the data and the states of pages. -/
inductive CacheOp (Data : Type)
  | lookUp (ppn inode : ℕ)
  | add (p : ℕ) (page : VfsPage Data) (evict : Writepage)
  | del (p : ℕ) (write : Writepage)
  | change (p : ℕ) (pData : Data) (pState : PageState)

namespace Cache

variable {Data : Type}

def step (s : Cache Data) : CacheOp Data → Option (Cache Data)
  | .lookUp ppn inode => (s.pcacheLookUp ppn inode).map (·.2)
  | .add p page evict =>
      if p ∈ s.cLru then none else ((s.setPage p page).pcacheAdd p evict).map (·.2)
  | .del p write => if p ∈ s.cLru then (s.pcacheDel p write).map (·.2) else none
  | .change p pData pState =>
      (s.pages p).map fun page => s.setPage p { page with pData, pState }

/-- The write-back of a page is made and fails. -/
def WriteBackFails (s : Cache Data) (p : ℕ) (write : Writepage) : Prop :=
  write.err = true ∧ ∃ page, s.pages p = some page ∧ page.pState ≠ .invalid

/-- Nothing is different but the state of a page. -/
structure SameContents (s s' : Cache Data) (p : ℕ) : Prop where
  cSize : s'.cSize = s.cSize
  cHashtable : s'.cHashtable = s.cHashtable
  cLru : s'.cLru = s.cLru
  others : ∀ q, q ≠ p → s'.pages q = s.pages q
  page : ∃ page pState, s.pages p = some page ∧ s'.pages p = some { page with pState }

/-- What `pcache_add` does to a full cache: it gives up the page whose last use is the oldest, or
fails to write it back and does nothing. -/
structure Evicts (s : Cache Data) (p : ℕ) (evict : Writepage) (oldest : ℕ) (err : Bool)
    (s' : Cache Data) : Prop where
  cached : oldest ∈ s.cLru
  isOldest : ∀ q ∈ s.cLru, q ≠ oldest → s.uses.idxOf q < s.uses.idxOf oldest
  errs : err = true ↔ s.WriteBackFails oldest evict
  evicted : err = false → ∀ q, q ∈ s'.cLru ↔ q = p ∨ q ∈ s.cLru ∧ q ≠ oldest
  failed : err = true → SameContents s s' oldest

/-- The table, the order and the counter agree, and the operations find and evict what they
should. -/
structure InOrder (s : Cache Data) : Prop where
  counted : s.cSize = s.cLru.length
  bounded : s.cSize ≤ s.cCapacity
  once : s.cLru.Nodup
  hashedOnce : ∀ b, (s.cHashtable b).Nodup
  hashed : ∀ p b, p ∈ s.cHashtable b ↔
    p ∈ s.cLru ∧ ∃ page, s.pages p = some page ∧ page.pLocation % s.cTablesize = b
  allocated : ∀ p ∈ s.cLru, ∃ page, s.pages p = some page
  finds : ∀ ppn inode, ∃ found s', s.pcacheLookUp ppn inode = some (found, s') ∧
    (found.isSome ↔ ∃ p ∈ s.cLru, s.isWanted ppn inode p) ∧
      ∀ p, found = some p → p ∈ s.cLru ∧ s.isWanted ppn inode p
  inserts : ∀ p page evict, p ∉ s.cLru → ¬s.isFull →
    ∃ s', (s.setPage p page).pcacheAdd p evict = some (false, s') ∧
      ∀ q, q ∈ s'.cLru ↔ q = p ∨ q ∈ s.cLru
  evicts : ∀ p page evict, p ∉ s.cLru → s.isFull →
    ∃ oldest err s', (s.setPage p page).pcacheAdd p evict = some (err, s') ∧
      (s.setPage p page).Evicts p evict oldest err s'
  deletes : ∀ p ∈ s.cLru, ∀ write, ∃ err s', s.pcacheDel p write = some (err, s') ∧
    (err = true ↔ s.WriteBackFails p write) ∧
      (err = false → ∀ q, q ∈ s'.cLru ↔ q ∈ s.cLru ∧ q ≠ p) ∧
        (err = true → SameContents s s' p)

/-! ## The invariant -/

/-- The pages in the cache are in the table and in the order of their last use. -/
structure Inv (hashsize capacity : ℕ) (s : Cache Data) : Prop where
  cCapacity : s.cCapacity = capacity
  cTablesize : s.cTablesize = hashsize
  counted : s.cSize = s.cLru.length
  bounded : s.cSize ≤ capacity
  hashedOnce : ∀ b, (s.cHashtable b).Nodup
  hashed : ∀ p b, p ∈ s.cHashtable b ↔
    p ∈ s.cLru ∧ ∃ page, s.pages p = some page ∧ page.pLocation % hashsize = b
  allocated : ∀ p ∈ s.cLru, ∃ page, s.pages p = some page
  recent : s.cLru.Pairwise fun p q => s.uses.idxOf q < s.uses.idxOf p

variable {hashsize capacity : ℕ} {s : Cache Data} {p : ℕ}

/-- The pages that are kept stay in their order when one of them is used. -/
theorem recent_cons {lru uses : List ℕ}
    (recent : lru.Pairwise fun p q => uses.idxOf q < uses.idxOf p) (notMem : p ∉ lru) :
    (lru ++ [p]).Pairwise fun a b => (p :: uses).idxOf b < (p :: uses).idxOf a := by
  have ne : ∀ a ∈ lru, p ≠ a := fun a mem eq => notMem (eq ▸ mem)
  apply List.pairwise_append.mpr
  refine ⟨recent.imp_of_mem ?_, List.pairwise_singleton _ _, ?_⟩
  · intro a b memA memB lt
    rw [List.idxOf_cons_ne _ (ne a memA), List.idxOf_cons_ne _ (ne b memB)]
    exact Nat.succ_lt_succ lt
  · intro a memA b memB
    rw [List.mem_singleton.mp memB, List.idxOf_cons_self, List.idxOf_cons_ne _ (ne a memA)]
    exact Nat.succ_pos _

theorem Inv.nodup (inv : Inv hashsize capacity s) : s.cLru.Nodup :=
  inv.recent.imp fun lt eq => absurd (eq ▸ lt) (Nat.lt_irrefl _)

theorem length_filter_ne {list : List ℕ} (nodup : list.Nodup) (mem : p ∈ list) :
    (list.filter (· ≠ p)).length + 1 = list.length := by
  have isErase : list.filter (· ≠ p) = list.erase p := by
    rw [nodup.erase_eq_filter]
    exact List.filter_congr fun q _ => by by_cases eq : q = p <;> simp [eq]
  rw [isErase, List.length_erase_of_mem mem]
  exact Nat.sub_add_cancel (List.length_pos_of_mem mem)

theorem mem_filter_ne {list : List ℕ} {q : ℕ} : q ∈ list.filter (· ≠ p) ↔ q ∈ list ∧ q ≠ p := by
  rw [List.mem_filter, decide_eq_true_eq]

theorem Inv.use (inv : Inv hashsize capacity s) (mem : p ∈ s.cLru) :
    Inv hashsize capacity (s.use p) := by
  have same : ∀ q, q ∈ (s.use p).cLru ↔ q ∈ s.cLru := by
    intro q
    rw [Cache.use, List.mem_append, mem_filter_ne, List.mem_singleton]
    constructor
    · rintro (kept | rfl)
      · exact kept.1
      · exact mem
    · intro kept
      by_cases eq : q = p
      · exact .inr eq
      · exact .inl ⟨kept, eq⟩
  refine ⟨inv.cCapacity, inv.cTablesize, ?_, inv.bounded, inv.hashedOnce, ?_, ?_, ?_⟩
  · rw [Cache.use, List.length_append, List.length_singleton, length_filter_ne inv.nodup mem]
    exact inv.counted
  · intro q b
    rw [same]
    exact inv.hashed q b
  · intro q kept
    exact inv.allocated q ((same q).mp kept)
  · exact recent_cons (inv.recent.filter _) (by simp)

theorem setPage_self (s : Cache Data) (p : ℕ) (page : VfsPage Data) :
    (s.setPage p page).pages p = some page := Function.update_self _ _ _

theorem setPage_of_ne (s : Cache Data) {q : ℕ} (ne : q ≠ p) (page : VfsPage Data) :
    (s.setPage p page).pages q = s.pages q := Function.update_of_ne ne _ _

/-- A page has other data and another state. -/
theorem Inv.setPage (inv : Inv hashsize capacity s) {page new : VfsPage Data}
    (alive : s.pages p = some page) (same : new.pLocation = page.pLocation) :
    Inv hashsize capacity (s.setPage p new) := by
  have pages : ∀ q location, (∃ page, (s.setPage p new).pages q = some page ∧
      page.pLocation % hashsize = location) ↔
      ∃ page, s.pages q = some page ∧ page.pLocation % hashsize = location := by
    intro q location
    by_cases eq : q = p
    · rw [eq, setPage_self, alive]
      simp [same]
    · rw [setPage_of_ne s eq]
  refine ⟨inv.cCapacity, inv.cTablesize, inv.counted, inv.bounded, inv.hashedOnce, ?_, ?_,
    inv.recent⟩
  · intro q b
    rw [pages]
    exact inv.hashed q b
  · intro q mem
    rcases inv.allocated q mem with ⟨old, wasAlive⟩
    rcases (pages q _).mpr ⟨old, wasAlive, rfl⟩ with ⟨page, isPage, _⟩
    exact ⟨page, isPage⟩

/-- A page that is not in the cache is made. -/
theorem Inv.newPage (inv : Inv hashsize capacity s) (notMem : p ∉ s.cLru) (page : VfsPage Data) :
    Inv hashsize capacity (s.setPage p page) := by
  have others : ∀ q ∈ s.cLru, (s.setPage p page).pages q = s.pages q :=
    fun q mem => setPage_of_ne s (ne_of_mem_of_not_mem mem notMem) page
  refine ⟨inv.cCapacity, inv.cTablesize, inv.counted, inv.bounded, inv.hashedOnce, ?_, ?_,
    inv.recent⟩
  · intro q b
    refine (inv.hashed q b).trans (and_congr_right fun mem => ?_)
    rw [others q mem]
  · intro q mem
    rw [others q mem]
    exact inv.allocated q mem

theorem Inv.drop (inv : Inv hashsize capacity s) (mem : p ∈ s.cLru) :
    Inv hashsize capacity (s.drop p) := by
  have length := length_filter_ne inv.nodup mem
  have others : ∀ q, q ≠ p → (s.drop p).pages q = s.pages q :=
    fun q ne => Function.update_of_ne ne _ _
  refine ⟨inv.cCapacity, inv.cTablesize, ?_, ?_, fun b => (inv.hashedOnce b).filter _, ?_, ?_,
    inv.recent.filter _⟩
  · rw [Cache.drop, inv.counted]
    exact Nat.sub_eq_of_eq_add length.symm
  · exact Nat.le_trans (Nat.sub_le _ _) inv.bounded
  · intro q b
    rw [Cache.drop, mem_filter_ne, mem_filter_ne, inv.hashed]
    constructor
    · rintro ⟨⟨kept, page⟩, ne⟩
      exact ⟨⟨kept, ne⟩, (others q ne).symm ▸ page⟩
    · rintro ⟨⟨kept, ne⟩, page⟩
      exact ⟨⟨kept, others q ne ▸ page⟩, ne⟩
  · intro q kept
    rw [others q (mem_filter_ne.mp kept).2]
    exact inv.allocated q (mem_filter_ne.mp kept).1

theorem link_self (s : Cache Data) (p b : ℕ) : (s.link p b).cHashtable b = p :: s.cHashtable b :=
  Function.update_self _ _ _

theorem link_of_ne (s : Cache Data) {b c : ℕ} (ne : c ≠ b) :
    (s.link p b).cHashtable c = s.cHashtable c := Function.update_of_ne ne _ _

theorem Inv.link (inv : Inv hashsize capacity s) (notMem : p ∉ s.cLru) {page : VfsPage Data}
    (alive : s.pages p = some page) (room : s.cSize < capacity) :
    Inv hashsize capacity (s.link p (page.pLocation % hashsize)) := by
  refine ⟨inv.cCapacity, inv.cTablesize, ?_, room, ?_, ?_, ?_, recent_cons inv.recent notMem⟩
  · rw [Cache.link, List.length_append, List.length_singleton, inv.counted]
  · intro b
    by_cases here : b = page.pLocation % hashsize
    · rw [here, link_self]
      exact List.nodup_cons.mpr
        ⟨fun mem => notMem ((inv.hashed p _).mp mem).1, inv.hashedOnce _⟩
    · rw [link_of_ne s here]
      exact inv.hashedOnce b
  · intro q b
    by_cases here : b = page.pLocation % hashsize
    · rw [here, link_self, List.mem_cons, inv.hashed]
      constructor
      · rintro (rfl | ⟨kept, isPage⟩)
        · exact ⟨List.mem_append_right _ List.mem_cons_self, page, alive, rfl⟩
        · exact ⟨List.mem_append_left _ kept, isPage⟩
      · rintro ⟨mem, isPage⟩
        rcases List.mem_append.mp mem with kept | isNew
        · exact .inr ⟨kept, isPage⟩
        · exact .inl (List.mem_singleton.mp isNew)
    · rw [link_of_ne s here, inv.hashed]
      constructor
      · rintro ⟨kept, isPage⟩
        exact ⟨List.mem_append_left _ kept, isPage⟩
      · rintro ⟨mem, other, isOther, location⟩
        rcases List.mem_append.mp mem with kept | isNew
        · exact ⟨kept, other, isOther, location⟩
        · have isPage : s.pages q = some other := isOther
          rw [List.mem_singleton.mp isNew, alive, Option.some.injEq] at isPage
          exact absurd (isPage ▸ location.symm) here
  · intro q mem
    rcases List.mem_append.mp mem with kept | isNew
    · exact inv.allocated q kept
    · exact ⟨page, List.mem_singleton.mp isNew ▸ alive⟩

/-! ## The operations -/

/-- The table of `cache_init` has the bucket of every location. -/
theorem Inv.bucket_eq (inv : Inv hashsize capacity s) (positive : 0 < hashsize)
    (fits : hashsize ≤ cacheHashsize) (location : ℕ) :
    s.bucket location = some (location % hashsize) := by
  have inside := Nat.lt_of_lt_of_le (Nat.mod_lt location positive) fits
  rw [bucket, inv.cTablesize, if_pos ⟨positive, inside⟩]

theorem Inv.isWanted_mem (inv : Inv hashsize capacity s) {ppn inode : ℕ}
    (isWanted : s.isWanted ppn inode p) : p ∈ s.cHashtable (ppn % hashsize) ↔ p ∈ s.cLru := by
  rcases (Option.any_eq_true _ _).mp isWanted with ⟨page, alive, fields⟩
  simp only [Bool.and_eq_true, decide_eq_true_eq] at fields
  rw [inv.hashed]
  exact ⟨And.left, fun mem => ⟨mem, page, alive, fields.1.1 ▸ rfl⟩⟩

theorem Inv.pcacheLookUp (inv : Inv hashsize capacity s) (positive : 0 < hashsize)
    (fits : hashsize ≤ cacheHashsize) (ppn inode : ℕ) :
    ∃ found s', s.pcacheLookUp ppn inode = some (found, s') ∧ Inv hashsize capacity s' ∧
      (found.isSome ↔ ∃ p ∈ s.cLru, s.isWanted ppn inode p) ∧
        ∀ p, found = some p → p ∈ s.cLru ∧ s.isWanted ppn inode p := by
  rw [Cache.pcacheLookUp, inv.bucket_eq positive fits, Option.map_some]
  cases isFound : (s.cHashtable (ppn % hashsize)).find? (s.isWanted ppn inode) with
  | none =>
      refine ⟨none, s, rfl, inv, ?_, fun p eq => nomatch eq⟩
      refine iff_of_false Bool.false_ne_true fun ⟨p, mem, isWanted⟩ => ?_
      exact List.find?_eq_none.mp isFound p ((inv.isWanted_mem isWanted).mpr mem) isWanted
  | some p =>
      have isWanted : s.isWanted ppn inode p = true := List.find?_some isFound
      have mem := (inv.isWanted_mem isWanted).mp (List.mem_of_find?_eq_some isFound)
      refine ⟨some p, s.use p, rfl, inv.use mem, iff_of_true rfl ⟨p, mem, isWanted⟩, ?_⟩
      rintro q eq
      cases eq
      exact ⟨mem, isWanted⟩

/-- What `pcache_del` does to a page in the cache. -/
structure Deletes (s : Cache Data) (p : ℕ) (write : Writepage) (err : Bool) (s' : Cache Data) :
    Prop where
  errs : err = true ↔ s.WriteBackFails p write
  gone : err = false → ∀ q, q ∈ s'.cLru ↔ q ∈ s.cLru ∧ q ≠ p
  fewer : err = false → s'.cSize + 1 = s.cSize
  failed : err = true → SameContents s s' p
  others : ∀ q, q ≠ p → s'.pages q = s.pages q

theorem Inv.pcacheDel (inv : Inv hashsize capacity s) (mem : p ∈ s.cLru) (write : Writepage) :
    ∃ err s', s.pcacheDel p write = some (err, s') ∧ Inv hashsize capacity s' ∧
      s.Deletes p write err s' := by
  rcases inv.allocated p mem with ⟨page, alive⟩
  have positive : 0 < s.cSize := inv.counted ▸ List.length_pos_of_mem mem
  rw [Cache.pcacheDel, alive, Option.map_some]
  by_cases valid : page.pState ≠ .invalid
  · rw [if_pos valid]
    have written : Inv hashsize capacity (s.setPage p { page with pState := write.pState }) :=
      inv.setPage alive rfl
    have others : ∀ q, q ≠ p →
        (s.setPage p { page with pState := write.pState }).pages q = s.pages q :=
      fun q ne => setPage_of_ne s ne _
    cases failed : write.err with
    | true =>
        refine ⟨true, _, rfl, written, iff_of_true rfl ⟨failed, page, alive, valid⟩,
          (nomatch ·), (nomatch ·), fun _ => ?_, others⟩
        exact ⟨rfl, rfl, rfl, others, page, write.pState, alive, setPage_self s p _⟩
    | false =>
        refine ⟨false, _, rfl, written.drop mem,
          iff_of_false Bool.false_ne_true fun fails => ?_, fun _ q => mem_filter_ne,
          fun _ => Nat.sub_add_cancel positive, (nomatch ·), fun q ne => ?_⟩
        · exact absurd (failed.symm.trans fails.1) Bool.false_ne_true
        · exact (Function.update_of_ne ne _ _).trans (others q ne)
  · rw [if_neg valid]
    refine ⟨false, _, rfl, inv.drop mem, iff_of_false Bool.false_ne_true ?_,
      fun _ q => mem_filter_ne, fun _ => Nat.sub_add_cancel positive, (nomatch ·),
      fun q ne => Function.update_of_ne ne _ _⟩
    rintro ⟨_, other, isOther, isValid⟩
    rw [alive, Option.some.injEq] at isOther
    exact valid (isOther ▸ isValid)

/-- The first page of the order is the one whose last use is the oldest. -/
theorem Inv.isOldest (inv : Inv hashsize capacity s) {oldest : ℕ}
    (isHead : s.cLru.head? = some oldest) {q : ℕ} (mem : q ∈ s.cLru) (ne : q ≠ oldest) :
    s.uses.idxOf q < s.uses.idxOf oldest := by
  rcases List.head?_eq_some_iff.mp isHead with ⟨rest, isLru⟩
  have recent := inv.recent
  rw [isLru] at recent mem
  rcases List.mem_cons.mp mem with eq | later
  · exact absurd eq ne
  · exact List.rel_of_pairwise_cons recent later

theorem mem_link {b q : ℕ} : q ∈ (s.link p b).cLru ↔ q = p ∨ q ∈ s.cLru := by
  rw [Cache.link, List.mem_append, List.mem_singleton, or_comm]

theorem Inv.pcacheAdd_room (inv : Inv hashsize capacity s) (positive : 0 < hashsize)
    (fits : hashsize ≤ cacheHashsize) (notMem : p ∉ s.cLru) {page : VfsPage Data}
    (alive : s.pages p = some page) (room : ¬s.isFull) (evict : Writepage) :
    ∃ s', s.pcacheAdd p evict = some (false, s') ∧ Inv hashsize capacity s' ∧
      ∀ q, q ∈ s'.cLru ↔ q = p ∨ q ∈ s.cLru := by
  have less : s.cSize < capacity :=
    Nat.lt_of_le_of_ne inv.bounded fun eq => room (eq.trans inv.cCapacity.symm)
  rw [pcacheAdd, alive, Option.bind_some, inv.bucket_eq positive fits, Option.bind_some,
    if_neg room]
  exact ⟨_, rfl, inv.link notMem alive less, fun q => mem_link⟩

theorem Inv.pcacheAdd_full (inv : Inv hashsize capacity s) (positive : 0 < hashsize)
    (fits : hashsize ≤ cacheHashsize) (holdsOne : 0 < capacity) (notMem : p ∉ s.cLru)
    {page : VfsPage Data} (alive : s.pages p = some page) (full : s.isFull) (evict : Writepage) :
    ∃ oldest err s', s.pcacheAdd p evict = some (err, s') ∧ Inv hashsize capacity s' ∧
      s.Evicts p evict oldest err s' := by
  have size : s.cSize = capacity := Eq.trans full inv.cCapacity
  have nonempty : 0 < s.cLru.length := inv.counted ▸ size.symm ▸ holdsOne
  rw [pcacheAdd, alive, Option.bind_some, inv.bucket_eq positive fits, Option.bind_some,
    if_pos full]
  cases isHead : s.cLru.head? with
  | none =>
      rw [List.head?_eq_none_iff.mp isHead] at nonempty
      exact absurd nonempty (Nat.lt_irrefl 0)
  | some oldest =>
      have cached := List.mem_of_head? isHead
      have ne : p ≠ oldest := fun eq => notMem (eq ▸ cached)
      rcases inv.pcacheDel cached evict with ⟨err, s₁, deleted, inv₁, deletes⟩
      rw [Option.bind_some, deleted, Option.map_some]
      cases err with
      | true =>
          exact ⟨oldest, true, s₁, rfl, inv₁, cached, fun q => inv.isOldest isHead, deletes.errs,
            (nomatch ·), deletes.failed⟩
      | false =>
          have gone := deletes.gone rfl
          have less : s₁.cSize < capacity := by
            rw [← size, ← deletes.fewer rfl]
            exact Nat.lt_succ_self _
          refine ⟨oldest, false, _, rfl, ?_, cached, fun q => inv.isOldest isHead, deletes.errs,
            fun _ q => ?_, (nomatch ·)⟩
          · exact inv₁.link (fun mem => notMem ((gone p).mp mem).1)
              ((deletes.others p ne).trans alive) less
          · exact mem_link.trans (or_congr_right (gone q))

theorem Inv.inOrder (inv : Inv hashsize capacity s) (positive : 0 < hashsize)
    (fits : hashsize ≤ cacheHashsize) (holdsOne : 0 < capacity) : s.InOrder where
  counted := inv.counted
  bounded := inv.cCapacity.symm ▸ inv.bounded
  once := inv.nodup
  hashedOnce := inv.hashedOnce
  hashed := inv.cTablesize.symm ▸ inv.hashed
  allocated := inv.allocated
  finds := by
    intro ppn inode
    rcases inv.pcacheLookUp positive fits ppn inode with ⟨found, s', ran, _, isSome, isFound⟩
    exact ⟨found, s', ran, isSome, isFound⟩
  inserts := by
    intro p page evict notMem room
    rcases (inv.newPage notMem page).pcacheAdd_room positive fits notMem (setPage_self s p page)
      room evict with ⟨s', ran, _, members⟩
    exact ⟨s', ran, members⟩
  evicts := by
    intro p page evict notMem full
    rcases (inv.newPage notMem page).pcacheAdd_full positive fits holdsOne notMem
      (setPage_self s p page) full evict with ⟨oldest, err, s', ran, _, evicts⟩
    exact ⟨oldest, err, s', ran, evicts⟩
  deletes := by
    intro p mem write
    rcases inv.pcacheDel mem write with ⟨err, s', ran, _, deletes⟩
    exact ⟨err, s', ran, deletes.errs, deletes.gone, deletes.failed⟩

theorem Inv.step (inv : Inv hashsize capacity s) (positive : 0 < hashsize)
    (fits : hashsize ≤ cacheHashsize) (holdsOne : 0 < capacity) {op : CacheOp Data}
    {next : Cache Data} (stepped : s.step op = some next) : Inv hashsize capacity next := by
  cases op with
  | lookUp ppn inode =>
      rcases inv.pcacheLookUp positive fits ppn inode with ⟨found, s', ran, inv', _⟩
      rw [Cache.step, ran] at stepped
      exact Option.some.inj stepped ▸ inv'
  | add p page evict =>
      by_cases mem : p ∈ s.cLru
      · rw [Cache.step, if_pos mem] at stepped
        cases stepped
      · rw [Cache.step, if_neg mem] at stepped
        have new := inv.newPage mem page
        by_cases full : s.isFull
        · rcases new.pcacheAdd_full positive fits holdsOne mem (setPage_self s p page) full evict
            with ⟨oldest, err, s', ran, inv', _⟩
          rw [ran] at stepped
          exact Option.some.inj stepped ▸ inv'
        · rcases new.pcacheAdd_room positive fits mem (setPage_self s p page) full evict
            with ⟨s', ran, inv', _⟩
          rw [ran] at stepped
          exact Option.some.inj stepped ▸ inv'
  | del p write =>
      by_cases mem : p ∈ s.cLru
      · rcases inv.pcacheDel mem write with ⟨err, s', ran, inv', _⟩
        rw [Cache.step, if_pos mem, ran] at stepped
        exact Option.some.inj stepped ▸ inv'
      · rw [Cache.step, if_neg mem] at stepped
        cases stepped
  | change p pData pState =>
      rcases Option.map_eq_some_iff.mp stepped with ⟨page, alive, rfl⟩
      exact inv.setPage alive rfl

theorem inv_cacheInit (hashsize capacity : ℕ) :
    Inv hashsize capacity (cacheInit hashsize capacity : Cache Data) where
  cCapacity := rfl
  cTablesize := rfl
  counted := rfl
  bounded := Nat.zero_le _
  hashedOnce := fun _ => List.nodup_nil
  hashed := fun _ _ => iff_of_false List.not_mem_nil fun ⟨mem, _⟩ => List.not_mem_nil mem
  allocated := fun _ mem => absurd mem List.not_mem_nil
  recent := List.Pairwise.nil

/-- The cache stays in order however its operations follow one another. -/
theorem inOrder_of_reach {hashsize capacity : ℕ} (positive : 0 < hashsize)
    (fits : hashsize ≤ cacheHashsize) (holdsOne : 0 < capacity) {s : Cache Data}
    (reached : Reach step (· = cacheInit hashsize capacity) s) :
    s.cTablesize = hashsize ∧ s.cCapacity = capacity ∧ s.InOrder := by
  have inv : Inv hashsize capacity s := by
    apply reached.invariant
    · rintro _ rfl
      exact inv_cacheInit hashsize capacity
    · intro state op next inv _ stepped
      exact inv.step positive fits holdsOne stepped
  exact ⟨inv.cTablesize, inv.cCapacity, inv.inOrder positive fits holdsOne⟩

/-- Three pages in a cache of two, of which the first one is found before the third one comes. -/
def thirdPage : List (CacheOp ℕ) :=
  [.add 0 ⟨10, .intact, 5, 0⟩ ⟨false, .intact⟩, .add 1 ⟨11, .dirty, 5, 1⟩ ⟨false, .intact⟩,
    .lookUp 0 5, .add 2 ⟨12, .intact, 5, 2⟩ ⟨false, .intact⟩]

theorem inOrder_of_reach_thirdPage :
    ∃ s, run step (cacheInit 64 2) thirdPage = some s ∧ s.cLru = [0, 2] ∧ s.InOrder := by
  have started : Reach step (· = cacheInit 64 2) (cacheInit 64 2 : Cache ℕ) := .start rfl
  have ran : run step (cacheInit 64 2) thirdPage =
      some ((run step (cacheInit 64 2) thirdPage).getD (cacheInit 64 2)) := rfl
  refine ⟨_, ran, rfl, ?_⟩
  exact (inOrder_of_reach (by decide) (by decide) (by decide) (reach_of_run started ran)).2.2

end Cache

namespace PageCache

variable {Data : Type}

/-- The cache of the pages of all files, without the blocks. -/
def toCache (s : PageCache Data) (uses : List ℕ) : Cache Data where
  cCapacity := cacheCapacity
  cTablesize := cacheHashsize
  cSize := s.cSize
  cHashtable := s.hashtable
  cLru := s.lru
  pages := s.pages
  uses := uses

variable {s s' : PageCache Data} {p : ℕ} {write : WriteBlock Data} {err : Bool}

theorem toCache_bucket (s : PageCache Data) (uses : List ℕ) (location : ℕ) :
    (s.toCache uses).bucket location = some (intHash location) := by
  have inside : location % cacheHashsize < cacheHashsize := Nat.mod_lt _ (by decide)
  have positive : 0 < cacheHashsize := by decide
  exact if_pos ⟨positive, inside⟩

theorem toCache_pcacheLookUp (s : PageCache Data) (uses : List ℕ) (ppn inode : ℕ) :
    ∃ uses', (s.toCache uses).pcacheLookUp ppn inode =
      some ((s.pcacheLookUp ppn inode).1, (s.pcacheLookUp ppn inode).2.toCache uses') := by
  rw [Cache.pcacheLookUp, toCache_bucket, Option.map_some, pcacheLookUp]
  have same : (s.toCache uses).isWanted ppn inode = fun p => (s.pages p).any fun page =>
      page.pLocation = ppn && page.pState ≠ .invalid && page.pMapping = inode := rfl
  have buckets : (s.toCache uses).cHashtable = s.hashtable := rfl
  rw [same, buckets]
  cases (s.hashtable (intHash ppn)).find? _ with
  | none => exact ⟨uses, rfl⟩
  | some p => exact ⟨p :: uses, rfl⟩

/-- Writing a page back to its block is one way for `writepage` to go. -/
theorem toCache_pcacheDel (uses : List ℕ) (deleted : s.pcacheDel p write = some (err, s')) :
    ∃ outcome, (s.toCache uses).pcacheDel p outcome = some (err, s'.toCache uses) := by
  rcases pcacheDel_cases deleted with ⟨page, alive, ⟨invalid, rfl, rfl⟩ | ⟨valid, s₁, written, rfl⟩⟩
  · have pages : (s.toCache uses).pages p = some page := alive
    refine ⟨⟨false, .invalid⟩, ?_⟩
    rw [Cache.pcacheDel, pages, Option.map_some, if_neg (not_not.mpr invalid)]
    rfl
  · have pages : (s.toCache uses).pages p = some page := alive
    rcases writepage_cases written with ⟨other, isOther, states⟩
    cases alive.symm.trans isOther
    rcases states with ⟨intact, rfl, rfl⟩ | ⟨invalid, _, _⟩ | ⟨_, rfl, rfl⟩
    · refine ⟨⟨false, .intact⟩, ?_⟩
      have same : { page with pState := .intact } = page := by rw [← intact]
      have kept : (s₁.toCache uses).setPage p page = s₁.toCache uses := by
        have idle : Function.update s₁.pages p (some page) = s₁.pages :=
          Function.update_eq_self_iff.mpr alive.symm
        simp only [Cache.setPage, toCache, idle]
      rw [Cache.pcacheDel, pages, Option.map_some, if_pos valid]
      simp only [same, kept, Bool.false_eq_true, if_false]
      rfl
    · exact absurd invalid valid
    · refine ⟨⟨write.err, .intact⟩, ?_⟩
      rw [Cache.pcacheDel, pages, Option.map_some, if_pos valid]
      cases write <;> rfl

theorem toCache_pcacheAdd {location : ℕ} {page : VfsPage Data} (alive : s.pages p = some page)
    (isAt : page.pLocation = location) (uses : List ℕ)
    (added : s.pcacheAdd p location write = some (err, s')) :
    ∃ evict uses', (s.toCache uses).pcacheAdd p evict = some (err, s'.toCache uses') := by
  have pages : (s.toCache uses).pages p = some page := alive
  rcases pcacheAdd_cases added with ⟨room, rfl, rfl⟩ | ⟨full, delpage, deleted, isHead, ran, rfl⟩
  · have notFull : ¬(s.toCache uses).isFull := room
    refine ⟨⟨false, .intact⟩, p :: uses, ?_⟩
    rw [Cache.pcacheAdd, pages, Option.bind_some, toCache_bucket, Option.bind_some,
      if_neg notFull, isAt]
    rfl
  · have isFull : (s.toCache uses).isFull := full
    have head : (s.toCache uses).cLru.head? = some delpage := isHead
    rcases toCache_pcacheDel uses ran with ⟨outcome, deletes⟩
    refine ⟨outcome, if err then uses else p :: uses, ?_⟩
    rw [Cache.pcacheAdd, pages, Option.bind_some, toCache_bucket, Option.bind_some,
      if_pos isFull, head, Option.bind_some, deletes, Option.map_some, isAt]
    cases err <;> rfl

end PageCache

end Ninix.Vfs
