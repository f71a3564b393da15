import Mathlib.Data.List.Perm.Basic
import Ninix.Memory.Buddy

/-!
# The slab allocator

Each of the twelve caches of `init_slab` hands out objects of one size from the page its
`cpu.page` points to. A page starts with a `slab_head`; behind it lie the objects, first handed
out one after the other up to `end_ptr`, and later from the chain `slabp` of freed ones. Once a
cache has a page it keeps it: nothing ever looks at the lists of other pages again.

`is_full` is to tell that no object fits behind `end_ptr`. `slab_free` clears it, so that it
says nothing once the chain has been used up, and `slab_alloc` returns nothing at all when a page
is full and its chain is empty.
-/

namespace Ninix.Memory

open TransitionSystem LinkedChain ListHead

/-- The `list_head`s of the slab system. -/
inductive SlabNode
  | nodePartial (cache : ℕ)
  | nodeFull (cache : ℕ)
  | page (pfn : ℕ)
  deriving DecidableEq

abbrev buddySlab : ℕ := 2 ^ 29
abbrev kernelEntry : ℕ := 2147483648
abbrev slabHeadBytes : ℕ := 12

/-- `PAGE_SHIFT`, the number of caches and the binary logarithm of the bytes of a page. -/
abbrev pageShift : ℕ := 12
abbrev pageBytes : ℕ := 4096

def sizeKmemCache : List ℕ := [96, 192, 8, 16, 32, 64, 128, 256, 512, 1024, 1536, 2048]

/-- `objsize` of a cache as `init_each_slab` rounds it up. -/
def objsize (cache : ℕ) : ℕ := (sizeKmemCache.getD cache 0 + 3) / 4 * 4

/-- `size` of a cache: an object with its mark. -/
def slabSize (cache : ℕ) : ℕ := objsize cache + 4

/-- `KMEM_ADDR` -/
def kmemAddr (page : ℕ) : ℕ := page * pageBytes + kernelEntry

/-- `struct slab_head` -/
structure SlabHead where
  endPtr : ℕ
  nrObjs : ℕ
  isFull : ℕ

/-- The slab system: `struct page` and `slab_head` of every page, the `cpu.page` and the lists of
every cache, and the words of memory. -/
structure Slab where
  pages : ℕ → Page
  heads : ℕ → SlabHead
  links : Links SlabNode
  cpuPage : ℕ → Option ℕ
  word : ℕ → ℕ

namespace Slab

def setPage (slab : Slab) (page : ℕ) (value : Page) : Slab :=
  { slab with pages := Function.update slab.pages page value }

def setHead (slab : Slab) (page : ℕ) (value : SlabHead) : Slab :=
  { slab with heads := Function.update slab.heads page value }

/-- What the buddy system does to a page it supplies. -/
def supplied (slab : Slab) (page : ℕ) : Slab :=
  { slab.setPage page { slab.pages page with flag := buddyAllocated, bplevel := 0 } with
    links := slab.links.initListHead (.page page) }

/-- `format_slabpage` -/
def formatSlabpage (slab : Slab) (cache page : ℕ) : Slab :=
  { (slab.setPage page
      { slab.pages page with flag := buddySlab, virtual := cache, slabp := 0 }).setHead page
        ⟨kmemAddr page + slabHeadBytes, 0, 0⟩ with
    cpuPage := Function.update slab.cpuPage cache (some page) }

/-- Hand out the object at `end_ptr`. -/
def takeEnd (slab : Slab) (cache page : ℕ) : Option (ℕ × Slab) :=
  let head := slab.heads page
  let endPtr := head.endPtr + slabSize cache
  if kmemAddr page + pageBytes ≤ endPtr + slabSize cache then
    (slab.links.listAddTail (.page page) (.nodeFull cache)).map fun links =>
      (head.endPtr, { slab.setHead page ⟨endPtr, head.nrObjs + 1, 1⟩ with links })
  else some (head.endPtr, slab.setHead page ⟨endPtr, head.nrObjs + 1, head.isFull⟩)

/-- Hand out the first object of the chain. -/
def takeChain (slab : Slab) (page : ℕ) : ℕ × Slab :=
  let info := slab.pages page
  let head := slab.heads page
  (info.slabp, (slab.setPage page { info with slabp := slab.word info.slabp }).setHead page
    { head with nrObjs := head.nrObjs + 1 })

/-- The part of `slab_alloc` that takes a page off the `partial` list. -/
def takePartial (slab : Slab) (cache : ℕ) : Option (ℕ × Slab) :=
  match slab.links.next (.nodePartial cache) with
  | some (.page page) =>
      match slab.links.listDel (.page page) with
      | none => none
      | some links =>
          let slab :=
            { slab with links, cpuPage := Function.update slab.cpuPage cache (some page) }
          if (slab.pages page).slabp ≠ 0 then some (slab.takeChain page) else none
  | _ => none

/-- `slab_alloc` with the page the buddy system supplies if it is asked; `none` where the function
ends without a `return`. -/
def slabAlloc (slab : Slab) (cache supply : ℕ) : Option (ℕ × Slab) :=
  match slab.cpuPage cache with
  | none =>
      if slab.links.listEmpty (.nodePartial cache) then
        let slab := (slab.supplied supply).formatSlabpage cache supply
        if (slab.heads supply).isFull = 0 then slab.takeEnd cache supply
        else slab.takePartial cache
      else slab.takePartial cache
  | some page =>
      if (slab.pages page).slabp ≠ 0 then some (slab.takeChain page)
      else if (slab.heads page).isFull = 0 then slab.takeEnd cache page
      else none

/-- `slab_free` of an object given by its physical address, with whether the page went back to
the buddy system; `none` is the endless loop after an error. -/
def slabFree (slab : Slab) (cache object : ℕ) : Option (Slab × Bool) :=
  let page := object / pageBytes
  let info := slab.pages page
  let head := slab.heads page
  let object := object + kernelEntry
  if head.nrObjs = 0 then none
  else
    let iffull := info.slabp = 0 ∧ head.isFull ≠ 0
    let slab := ({ slab with word := Function.update slab.word object info.slabp }.setPage page
      { info with slabp := object }).setHead page
        { head with nrObjs := head.nrObjs - 1, isFull := 0 }
    if head.nrObjs - 1 = 0 then
      (slab.links.listDelInit (.page page)).map fun links => ({ slab with links }, true)
    else if slab.links.listEmpty (.page page) then some (slab, false)
    else if iffull then do
      let links ← slab.links.listDelInit (.page page)
      let links ← links.listAddTail (.page page) (.nodePartial cache)
      some ({ slab with links }, false)
    else some (slab, false)

end Slab

/-! ## Runs -/

/-- The slab system with the objects handed out and not yet freed, and the pages the buddy
system has supplied and not got back. -/
structure SlabSystem where
  slab : Slab
  live : List ℕ
  held : List ℕ

/-- Calls of the slab system, and what the owner of an object does with it. -/
inductive SlabOp
  | alloc (cache supply : ℕ)
  | free (object : ℕ)
  | write (object offset value : ℕ)

namespace SlabSystem

/-- The page of an object, as `kfree` computes it. -/
def pageOf (object : ℕ) : ℕ := (object - kernelEntry) / pageBytes

/-- The buddy system is asked for a page. -/
def Asks (s : SlabSystem) (cache : ℕ) : Prop :=
  s.slab.cpuPage cache = none ∧ s.slab.links.listEmpty (.nodePartial cache)

instance (s : SlabSystem) (cache : ℕ) : Decidable (s.Asks cache) :=
  inferInstanceAs (Decidable (_ ∧ _))

/-- The buddy system supplies a page of the 512 MiB the kernel addresses that it has not supplied
already. -/
def Supplies (s : SlabSystem) (cache supply : ℕ) : Prop :=
  cache < pageShift ∧ (s.Asks cache → supply ∉ s.held ∧ supply < 131072)

instance (s : SlabSystem) (cache supply : ℕ) : Decidable (s.Supplies cache supply) :=
  inferInstanceAs (Decidable (_ ∧ _))

def step (s : SlabSystem) : SlabOp → Option SlabSystem
  | .alloc cache supply =>
      if s.Supplies cache supply then
        (s.slab.slabAlloc cache supply).map fun (object, slab) =>
          { slab
            live := object :: s.live
            held := if s.Asks cache then supply :: s.held else s.held }
      else none
  | .free object => do
      let object ← s.live[object]?
      let cache := (s.slab.pages (pageOf object)).virtual
      let (slab, back) ← s.slab.slabFree cache (object - kernelEntry)
      some
        { slab
          live := s.live.erase object
          held := if back then s.held.erase (pageOf object) else s.held }
  | .write object offset value => do
      let object ← s.live[object]?
      if offset % 4 = 0 ∧ offset + 4 ≤ objsize (s.slab.pages (pageOf object)).virtual then
        some { s with
          slab := { s.slab with word := Function.update s.slab.word (object + offset) value } }
      else none

/-- What `init_slab` leaves: no cache has a page, and the lists are empty. -/
structure Start (s : SlabSystem) : Prop where
  cpuPage : ∀ cache, s.slab.cpuPage cache = none
  lists : ∀ cache, s.slab.links.ClosedOn (· = .nodePartial cache) ∧
    s.slab.links.ClosedOn (· = .nodeFull cache)
  live : s.live = []
  held : s.held = []

/-- An object is defined, not null, and lies in a page of its cache behind the `slab_head`. -/
def Inside (slab : Slab) (cache object : ℕ) : Prop :=
  object ≠ 0 ∧ ∃ page, slab.cpuPage cache = some page ∧
    kmemAddr page + slabHeadBytes ≤ object ∧
    object + objsize cache ≤ kmemAddr page + pageBytes

/-- A call of `slab_alloc` returns such an object. -/
def AllocInside (slab : Slab) (cache supply : ℕ) : Prop :=
  ∃ object slab', slab.slabAlloc cache supply = some (object, slab') ∧ Inside slab' cache object

/-- A cache without a page, or whose page has a freed object in it or space at its end that is
not marked full and really has room for an object. -/
def HasRoom (slab : Slab) (cache : ℕ) : Prop :=
  match slab.cpuPage cache with
  | none => True
  | some page =>
      (slab.pages page).slabp ≠ 0 ∨ (slab.heads page).isFull = 0 ∧
        (slab.heads page).endPtr + objsize cache ≤ kmemAddr page + pageBytes

/-- The calls that stay within a page: the cache has room, and a page that is supplied is no
cache's already. -/
def Fits (s : SlabSystem) : SlabOp → Prop
  | .alloc cache supply => HasRoom s.slab cache ∧
      (s.slab.cpuPage cache = none → ∀ other, s.slab.cpuPage other ≠ some supply)
  | _ => True

/-! ## The invariant -/

/-- An object of the first `count` of a cache's page. -/
def Slot (cache page count object : ℕ) : Prop :=
  cache < pageShift ∧
    (∃ k < count, object = kmemAddr page + slabHeadBytes + k * slabSize cache) ∧
    object + objsize cache ≤ kmemAddr page + pageBytes

/-- The chain of freed objects that `slabp` starts. -/
def FreeChain (word : ℕ → ℕ) (slabp : ℕ) (chain : List ℕ) : Prop :=
  slabp = 0 ∧ chain = [] ∨ slabp ≠ 0 ∧ Follows word 0 slabp chain

/-- The `list_head`s of a cache and its page. -/
def Group (cache page : ℕ) (node : SlabNode) : Prop :=
  node = .nodePartial cache ∨ node = .nodeFull cache ∨ node = .page page

/-- The page of a cache: every object behind the head and up to `end_ptr` is either live or on
the chain, once. -/
structure PageInv (slab : Slab) (live : List ℕ) (cache page count : ℕ) (chain : List ℕ) :
    Prop where
  owner : (slab.pages page).virtual = cache
  endPtr : (slab.heads page).endPtr = kmemAddr page + slabHeadBytes + count * slabSize cache
  freed : FreeChain slab.word (slab.pages page).slabp chain
  nodup : (chain ++ live.filter (pageOf · = page)).Nodup
  slots : ∀ object ∈ chain ++ live.filter (pageOf · = page), Slot cache page count object
  nrObjs : (slab.heads page).nrObjs = (live.filter (pageOf · = page)).length

structure Inv (s : SlabSystem) : Prop where
  unused : ∀ cache, s.slab.cpuPage cache = none →
    s.slab.links.ClosedOn (· = .nodePartial cache) ∧ s.slab.links.ClosedOn (· = .nodeFull cache)
  group : ∀ cache page, s.slab.cpuPage cache = some page →
    s.slab.links.ClosedOn (Group cache page)
  distinct : ∀ cache other page, s.slab.cpuPage cache = some page →
    s.slab.cpuPage other = some page → cache = other
  page : ∀ cache page, s.slab.cpuPage cache = some page →
    ∃ count chain, PageInv s.slab s.live cache page count chain
  live : ∀ object ∈ s.live, ∃ cache, s.slab.cpuPage cache = some (pageOf object)

theorem Start.inv {s : SlabSystem} (start : Start s) : s.Inv where
  unused := fun cache _ => start.lists cache
  group := by simp [start.cpuPage]
  distinct := by simp [start.cpuPage]
  page := by simp [start.cpuPage]
  live := by simp [start.live]

/-! ## Objects and the chain -/

section Objects

variable {cache page count object other : ℕ}

theorem slabSize_eq (cache : ℕ) : slabSize cache = objsize cache + 4 := rfl

theorem objsize_pos (lt : cache < pageShift) : 8 ≤ objsize cache := by
  have all : ∀ c < pageShift, 8 ≤ objsize c := by decide
  exact all cache lt

theorem Slot.pageOf_eq (slot : Slot cache page count object) : pageOf object = page := by
  rcases slot with ⟨lt, ⟨k, _, rfl⟩, fits⟩
  have positive := objsize_pos lt
  unfold pageOf kmemAddr slabHeadBytes pageBytes kernelEntry at *
  omega

/-- Objects of one page are a slot apart. -/
theorem Slot.apart (slot : Slot cache page count object) (otherSlot : Slot cache page count other)
    (ne : object ≠ other) :
    object + slabSize cache ≤ other ∨ other + slabSize cache ≤ object := by
  rcases slot with ⟨_, ⟨k, _, rfl⟩, _⟩
  rcases otherSlot with ⟨_, ⟨j, _, rfl⟩, _⟩
  rcases Nat.lt_trichotomy k j with lt | rfl | gt
  · left
    have le := Nat.mul_le_mul_right (slabSize cache) (show k + 1 ≤ j from lt)
    rw [Nat.add_mul] at le
    omega
  · exact absurd rfl ne
  · right
    have le := Nat.mul_le_mul_right (slabSize cache) (show j + 1 ≤ k from gt)
    rw [Nat.add_mul] at le
    omega

theorem Slot.mono (slot : Slot cache page count object) :
    Slot cache page (count + 1) object := by
  rcases slot with ⟨isCache, ⟨k, lt, isSlot⟩, fits⟩
  exact ⟨isCache, ⟨k, by omega, isSlot⟩, fits⟩

theorem Slot.pageOf_add (slot : Slot cache page count object) {offset : ℕ}
    (inObject : offset < objsize cache) : pageOf (object + offset) = pageOf object := by
  rw [slot.pageOf_eq]
  rcases slot with ⟨_, ⟨k, _, isSlot⟩, fits⟩
  unfold pageOf kmemAddr slabHeadBytes pageBytes kernelEntry at *
  omega

theorem Slot.isObject (slot : Slot cache page count object) : kernelEntry ≤ object := by
  rcases slot with ⟨_, ⟨k, _, isSlot⟩, _⟩
  rw [isSlot]
  unfold kmemAddr
  omega

theorem Slot.ne_zero (slot : Slot cache page count object) : object ≠ 0 := by
  rcases slot with ⟨_, ⟨k, _, rfl⟩, _⟩
  unfold slabHeadBytes
  omega

theorem FreeChain.nodup {word : ℕ → ℕ} {slabp : ℕ} {chain : List ℕ}
    (freed : FreeChain word slabp chain) : chain.Nodup := by
  rcases freed with ⟨_, rfl⟩ | ⟨_, follows⟩
  · exact List.nodup_nil
  · exact follows.nodup

/-- Freed objects put in front of the chain. -/
theorem FreeChain.push {word : ℕ → ℕ} {slabp : ℕ} {chain : List ℕ}
    (freed : FreeChain word slabp chain) (ne : object ≠ 0) (notMem : object ∉ chain) :
    FreeChain (Function.update word object slabp) object (object :: chain) := by
  right
  refine ⟨ne, ?_⟩
  rcases freed with ⟨rfl, rfl⟩ | ⟨neZero, follows⟩
  · exact .last (by simp)
  · have kept : Follows (Function.update word object slabp) 0 slabp chain := by
      apply follows.congr
      intro node mem
      rw [Function.update_of_ne]
      rintro rfl
      exact notMem mem
    refine .link ?_ ?_ <;> rw [Function.update_self]
    · exact neZero
    · exact kept

/-- The chain behind its first object. -/
theorem FreeChain.pop {word : ℕ → ℕ} {slabp : ℕ} {chain : List ℕ}
    (freed : FreeChain word slabp chain) (ne : slabp ≠ 0) :
    ∃ rest, chain = slabp :: rest ∧ FreeChain word (word slabp) rest := by
  rcases freed with ⟨isZero, _⟩ | ⟨_, follows⟩
  · exact absurd isZero ne
  · rcases follows.head_eq with ⟨rest, rfl⟩
    refine ⟨rest, rfl, ?_⟩
    rcases follows.uncons with ⟨ends, rfl⟩ | ⟨continues, further⟩
    · exact Or.inl ⟨ends, rfl⟩
    · exact Or.inr ⟨continues, further⟩

/-- A write beside the chain leaves it alone. -/
theorem FreeChain.write {word : ℕ → ℕ} {slabp address : ℕ} {chain : List ℕ}
    (freed : FreeChain word slabp chain) (notMem : address ∉ chain) (value : ℕ) :
    FreeChain (Function.update word address value) slabp chain := by
  rcases freed with empty | ⟨ne, follows⟩
  · exact Or.inl empty
  · refine Or.inr ⟨ne, follows.congr fun node mem => ?_⟩
    rw [Function.update_of_ne]
    rintro rfl
    exact notMem mem

end Objects

/-! ## Steps -/

section Steps

variable {s : SlabSystem} {cache page : ℕ}

/-- A page that a call leaves alone stays as it is. -/
theorem PageInv.congr {slab slab' : Slab} {live live' chain : List ℕ} {count : ℕ}
    (pageInv : PageInv slab live cache page count chain)
    (pages : slab'.pages page = slab.pages page) (heads : slab'.heads page = slab.heads page)
    (words : ∀ object, pageOf object = page → slab'.word object = slab.word object)
    (objects : (live'.filter (pageOf · = page)).Perm (live.filter (pageOf · = page))) :
    PageInv slab' live' cache page count chain := by
  constructor
  · rw [pages]
    exact pageInv.owner
  · rw [heads]
    exact pageInv.endPtr
  · rw [pages]
    rcases pageInv.freed with empty | ⟨neZero, follows⟩
    · exact Or.inl empty
    · refine Or.inr ⟨neZero, follows.congr fun object mem => words object ?_⟩
      exact (pageInv.slots object (List.mem_append_left _ mem)).pageOf_eq
  · exact (objects.append_left chain).nodup_iff.mpr pageInv.nodup
  · intro object mem
    exact pageInv.slots object ((objects.append_left chain).mem_iff.mp mem)
  · rw [heads, objects.length_eq]
    exact pageInv.nrObjs

/-- A call that keeps to one page of one cache keeps the invariant. -/
theorem Inv.replace (inv : s.Inv) {slab' : Slab} {live' held' : List ℕ}
    (isPage : slab'.cpuPage cache = some page)
    (otherCaches : ∀ other, other ≠ cache → slab'.cpuPage other = s.slab.cpuPage other)
    (before : s.slab.cpuPage cache = some page ∨
      s.slab.cpuPage cache = none ∧ ∀ other, s.slab.cpuPage other ≠ some page)
    (otherPages : ∀ q, q ≠ page → slab'.pages q = s.slab.pages q ∧
      slab'.heads q = s.slab.heads q)
    (words : ∀ object, pageOf object ≠ page → slab'.word object = s.slab.word object)
    (objects : ∀ q, q ≠ page →
      (live'.filter (pageOf · = q)).Perm (s.live.filter (pageOf · = q)))
    (closed : slab'.links.ClosedOn (Group cache page))
    (same : s.slab.links.SameOutside slab'.links (Group cache page))
    (pageInv : ∃ count chain, PageInv slab' live' cache page count chain) :
    Inv ⟨slab', live', held'⟩ := by
  have neCache : ∀ other q, s.slab.cpuPage other = some q → q ≠ page → other ≠ cache := by
    rintro other q hasPage ne rfl
    rcases before with isSame | ⟨isNone, _⟩
    · rw [isSame] at hasPage
      exact ne (Option.some.inj hasPage).symm
    · rw [isNone] at hasPage
      cases hasPage
  have nePage : ∀ other q, other ≠ cache → s.slab.cpuPage other = some q → q ≠ page := by
    rintro other q ne hasPage rfl
    rcases before with isSame | ⟨_, unowned⟩
    · exact ne (inv.distinct other cache q hasPage isSame)
    · exact unowned other hasPage
  have outside : ∀ other node, other ≠ cache →
      node = .nodePartial other ∨ node = .nodeFull other → ¬Group cache page node := by
    rintro other node ne (rfl | rfl) (eq | eq | eq) <;> cases eq <;> exact ne rfl
  constructor
  · intro other isNone
    have ne : other ≠ cache := by
      rintro rfl
      rw [isPage] at isNone
      cases isNone
    rw [otherCaches other ne] at isNone
    rcases inv.unused other isNone with ⟨partials, fulls⟩
    constructor
    · apply partials.congr
      rintro node rfl
      exact same _ (outside other _ ne (Or.inl rfl))
    · apply fulls.congr
      rintro node rfl
      exact same _ (outside other _ ne (Or.inr rfl))
  · intro other q hasPage
    by_cases isCache : other = cache
    · subst isCache
      rw [isPage] at hasPage
      cases hasPage
      exact closed
    · rw [otherCaches other isCache] at hasPage
      apply (inv.group other q hasPage).congr
      rintro node (rfl | rfl | rfl)
      · exact same _ (outside other _ isCache (Or.inl rfl))
      · exact same _ (outside other _ isCache (Or.inr rfl))
      · apply same
        rintro (eq | eq | eq) <;> cases eq
        exact nePage other page isCache hasPage rfl
  · intro first second q hasPage hasPage'
    by_cases isFirst : first = cache <;> by_cases isSecond : second = cache
    · rw [isFirst, isSecond]
    · subst isFirst
      rw [isPage] at hasPage
      cases hasPage
      rw [otherCaches second isSecond] at hasPage'
      exact absurd rfl (nePage second page isSecond hasPage')
    · subst isSecond
      rw [isPage] at hasPage'
      cases hasPage'
      rw [otherCaches first isFirst] at hasPage
      exact absurd rfl (nePage first page isFirst hasPage)
    · rw [otherCaches first isFirst] at hasPage
      rw [otherCaches second isSecond] at hasPage'
      exact inv.distinct first second q hasPage hasPage'
  · intro other q hasPage
    by_cases isCache : other = cache
    · subst isCache
      rw [isPage] at hasPage
      cases hasPage
      exact pageInv
    · rw [otherCaches other isCache] at hasPage
      have ne := nePage other q isCache hasPage
      rcases inv.page other q hasPage with ⟨count, chain, otherInv⟩
      refine ⟨count, chain, otherInv.congr (otherPages q ne).1 (otherPages q ne).2 ?_
        (objects q ne)⟩
      rintro object rfl
      exact words object ne
  · intro object mem
    by_cases onPage : pageOf object = page
    · exact ⟨cache, by rw [onPage]; exact isPage⟩
    · have isLive : object ∈ live'.filter (pageOf · = pageOf object) := by simpa using mem
      have wasLive := (objects _ onPage).mem_iff.mp isLive
      rcases inv.live object (List.mem_filter.mp wasLive).1 with ⟨other, hasPage⟩
      refine ⟨other, ?_⟩
      rw [otherCaches other (neCache other _ hasPage onPage)]
      exact hasPage

/-- Handing out the object at `end_ptr` changes the head of the page and its place on a list. -/
theorem takeEnd_spec {slab : Slab} (closed : slab.links.ClosedOn (Group cache page)) :
    ∃ slab', slab.takeEnd cache page = some ((slab.heads page).endPtr, slab') ∧
      slab'.pages = slab.pages ∧ slab'.word = slab.word ∧ slab'.cpuPage = slab.cpuPage ∧
      (slab'.heads page).endPtr = (slab.heads page).endPtr + slabSize cache ∧
      (slab'.heads page).nrObjs = (slab.heads page).nrObjs + 1 ∧
      (∀ q, q ≠ page → slab'.heads q = slab.heads q) ∧
      slab'.links.ClosedOn (Group cache page) ∧
      slab.links.SameOutside slab'.links (Group cache page) := by
  unfold Slab.takeEnd
  simp only
  split
  · rcases closed.listAddTail (Or.inr (Or.inr rfl)) (Or.inr (Or.inl rfl)) with
      ⟨links', added, closed', same⟩
    rw [added]
    refine ⟨_, rfl, rfl, rfl, rfl, ?_, ?_, ?_, closed', same⟩
    · simp [Slab.setHead]
    · simp [Slab.setHead]
    · intro q ne
      simp [Slab.setHead, ne]
  · refine ⟨_, rfl, rfl, rfl, rfl, ?_, ?_, ?_, closed, fun _ _ => ⟨rfl, rfl⟩⟩
    · simp [Slab.setHead]
    · simp [Slab.setHead]
    · intro q ne
      simp [Slab.setHead, ne]

theorem takeEnd_eq {slab slab' : Slab} {object : ℕ}
    (taken : slab.takeEnd cache page = some (object, slab')) :
    object = (slab.heads page).endPtr ∧ slab'.cpuPage = slab.cpuPage := by
  unfold Slab.takeEnd at taken
  simp only at taken
  split at taken
  · rcases Option.map_eq_some_iff.mp taken with ⟨links, _, pair⟩
    cases pair
    exact ⟨rfl, rfl⟩
  · cases taken
    exact ⟨rfl, rfl⟩

/-- The objects of a page with one more in front. -/
theorem filter_cons {object : ℕ} (onPage : pageOf object = page) (live : List ℕ) :
    (object :: live).filter (pageOf · = page) =
      object :: live.filter (pageOf · = page) := by
  simp [onPage]

theorem filter_cons_other {object q : ℕ} (onPage : pageOf object = page) (ne : q ≠ page)
    (live : List ℕ) :
    (object :: live).filter (pageOf · = q) = live.filter (pageOf · = q) := by
  have other : pageOf object ≠ q := fun eq => ne (eq.symm.trans onPage)
  simp [other]

/-- The page after the object at `end_ptr` has been handed out. -/
theorem PageInv.takeEnd {slab slab' : Slab} {live : List ℕ} {count : ℕ}
    (pageInv : PageInv slab live cache page count []) (isCache : cache < pageShift)
    (fits : (slab.heads page).endPtr + objsize cache ≤ kmemAddr page + pageBytes)
    (pages : slab'.pages = slab.pages) (word : slab'.word = slab.word)
    (endPtr : (slab'.heads page).endPtr = (slab.heads page).endPtr + slabSize cache)
    (nrObjs : (slab'.heads page).nrObjs = (slab.heads page).nrObjs + 1) :
    Slot cache page (count + 1) (slab.heads page).endPtr ∧
      PageInv slab' ((slab.heads page).endPtr :: live) cache page (count + 1) [] := by
  have slot : Slot cache page (count + 1) (slab.heads page).endPtr :=
    ⟨isCache, ⟨count, by omega, pageInv.endPtr⟩, fits⟩
  refine ⟨slot, ?_⟩
  have objects := filter_cons slot.pageOf_eq live
  have nodup := pageInv.nodup
  have slots := pageInv.slots
  simp only [List.nil_append] at nodup slots
  constructor
  · rw [pages]
    exact pageInv.owner
  · rw [endPtr, pageInv.endPtr, Nat.add_mul, Nat.one_mul, Nat.add_assoc]
  · rw [pages, word]
    exact pageInv.freed
  · rw [List.nil_append, objects, List.nodup_cons]
    refine ⟨fun mem => ?_, nodup⟩
    rcases slots _ mem with ⟨_, ⟨k, lt, isSlot⟩, _⟩
    rw [pageInv.endPtr] at isSlot
    have le := Nat.mul_le_mul_right (slabSize cache) lt
    have positive : 0 < slabSize cache := Nat.succ_pos _
    rw [Nat.succ_mul] at le
    omega
  · rw [List.nil_append, objects]
    intro object mem
    rcases List.mem_cons.mp mem with rfl | old
    · exact slot
    · exact (slots object old).mono
  · rw [nrObjs, pageInv.nrObjs, objects, List.length_cons]

/-- The page after the first object of the chain has been handed out. -/
theorem PageInv.takeChain {slab : Slab} {live : List ℕ} {count : ℕ} {chain : List ℕ}
    (pageInv : PageInv slab live cache page count chain) (some : (slab.pages page).slabp ≠ 0) :
    Slot cache page count (slab.pages page).slabp ∧
      ∃ rest, PageInv (slab.takeChain page).2 ((slab.pages page).slabp :: live) cache page count
        rest := by
  rcases pageInv.freed.pop some with ⟨rest, rfl, freed⟩
  have slot := pageInv.slots (slab.pages page).slabp (by simp)
  have objects := filter_cons slot.pageOf_eq live
  have perm : (rest ++ ((slab.pages page).slabp :: live).filter (pageOf · = page)).Perm
      ((slab.pages page).slabp :: rest ++ live.filter (pageOf · = page)) := by
    rw [objects]
    exact List.perm_middle
  refine ⟨slot, rest, ?_⟩
  constructor
  · simpa [Slab.takeChain, Slab.setPage, Slab.setHead] using pageInv.owner
  · simpa [Slab.takeChain, Slab.setPage, Slab.setHead] using pageInv.endPtr
  · simpa [Slab.takeChain, Slab.setPage, Slab.setHead] using freed
  · exact perm.nodup_iff.mpr pageInv.nodup
  · intro object mem
    exact pageInv.slots object (perm.mem_iff.mp mem)
  · rw [objects, List.length_cons, ← pageInv.nrObjs]
    simp [Slab.takeChain, Slab.setPage, Slab.setHead]

theorem Slot.inside {slab : Slab} {count object : ℕ} (slot : Slot cache page count object)
    (isPage : slab.cpuPage cache = some page) : Inside slab cache object := by
  refine ⟨slot.ne_zero, page, isPage, ?_, slot.2.2⟩
  rcases slot with ⟨_, ⟨k, _, rfl⟩, _⟩
  omega

/-- A page formatted for a cache is a list of its own beside the empty lists of the cache. -/
theorem formatted_closed {slab : Slab} (supply : ℕ)
    (partials : slab.links.ClosedOn (· = .nodePartial cache))
    (fulls : slab.links.ClosedOn (· = .nodeFull cache)) :
    ((slab.supplied supply).formatSlabpage cache supply).links.ClosedOn (Group cache supply) ∧
      slab.links.SameOutside ((slab.supplied supply).formatSlabpage cache supply).links
        (Group cache supply) := by
  show (slab.links.initListHead _).ClosedOn _ ∧
    slab.links.SameOutside (slab.links.initListHead _) _
  constructor
  · rintro node (rfl | rfl | rfl)
    · rcases partials _ rfl with ⟨⟨_, isPrev, rfl⟩, _, isNext, rfl⟩
      exact ⟨⟨.nodePartial cache, by simpa [Links.initListHead] using isPrev, Or.inl rfl⟩,
        .nodePartial cache, by simpa [Links.initListHead] using isNext, Or.inl rfl⟩
    · rcases fulls _ rfl with ⟨⟨_, isPrev, rfl⟩, _, isNext, rfl⟩
      exact ⟨⟨.nodeFull cache, by simpa [Links.initListHead] using isPrev, Or.inr (Or.inl rfl)⟩,
        .nodeFull cache, by simpa [Links.initListHead] using isNext, Or.inr (Or.inl rfl)⟩
    · exact ⟨⟨.page supply, by simp [Links.initListHead], Or.inr (Or.inr rfl)⟩,
        .page supply, by simp [Links.initListHead], Or.inr (Or.inr rfl)⟩
  · intro node outside
    have ne : node ≠ .page supply := fun eq => outside (Or.inr (Or.inr eq))
    simp [Links.initListHead, ne]

theorem formatted_links (inv : s.Inv) (supply : ℕ) (hasNone : s.slab.cpuPage cache = none) :
    ((s.slab.supplied supply).formatSlabpage cache supply).links.ClosedOn
        (Group cache supply) ∧
      s.slab.links.SameOutside ((s.slab.supplied supply).formatSlabpage cache supply).links
        (Group cache supply) :=
  formatted_closed supply (inv.unused cache hasNone).1 (inv.unused cache hasNone).2

/-- A page that is no cache's, formatted for a cache, has no objects in it. -/
theorem formatted_page (inv : s.Inv) (cache : ℕ) {supply : ℕ}
    (unowned : ∀ other, s.slab.cpuPage other ≠ some supply) :
    PageInv ((s.slab.supplied supply).formatSlabpage cache supply) s.live cache supply 0 [] := by
  have noObjects : s.live.filter (pageOf · = supply) = [] := by
    apply List.filter_eq_nil_iff.mpr
    intro object mem onPage
    rcases inv.live object mem with ⟨other, hasPage⟩
    rw [of_decide_eq_true onPage] at hasPage
    exact unowned other hasPage
  constructor
  · simp [Slab.formatSlabpage, Slab.setPage, Slab.setHead]
  · simp [Slab.formatSlabpage, Slab.setPage, Slab.setHead]
  · left
    simp [Slab.formatSlabpage, Slab.setPage, Slab.setHead]
  · simp [noObjects]
  · simp [noObjects]
  · simp [Slab.formatSlabpage, Slab.setPage, Slab.setHead, noObjects]

/-- The first call for a cache hands out the first object of the page it is supplied. -/
theorem slabAlloc_first (inv : s.Inv) (supply : ℕ) (hasNone : s.slab.cpuPage cache = none) :
    s.slab.slabAlloc cache supply =
      ((s.slab.supplied supply).formatSlabpage cache supply).takeEnd cache supply := by
  have empty : s.slab.links.listEmpty (.nodePartial cache) := by
    rcases (inv.unused cache hasNone).1 _ rfl with ⟨_, _, isNext, rfl⟩
    exact isNext
  have notFull : (((s.slab.supplied supply).formatSlabpage cache supply).heads
      supply).isFull = 0 := by
    simp [Slab.formatSlabpage, Slab.setPage, Slab.setHead]
  simp only [Slab.slabAlloc, hasNone, empty, if_true, notFull]

theorem objsize_le (isCache : cache < pageShift) : objsize cache ≤ 2048 := by
  have all : ∀ c < pageShift, objsize c ≤ 2048 := by decide
  exact all cache isCache

/-- A call of `slab_alloc` that fits returns an object in its page and keeps the invariant. -/
theorem alloc_inside (inv : s.Inv) (supply : ℕ) (fits : s.Fits (.alloc cache supply))
    (isCache : cache < pageShift) :
    ∃ object slab', s.slab.slabAlloc cache supply = some (object, slab') ∧
      Inside slab' cache object ∧ ∀ held', Inv ⟨slab', object :: s.live, held'⟩ := by
  cases hasPage : s.slab.cpuPage cache with
  | none =>
      have unowned := fits.2 hasPage
      have first := slabAlloc_first inv supply hasPage
      have pageInv₁ := formatted_page inv cache unowned
      rcases formatted_links inv supply hasPage with ⟨closed₁, same₁⟩
      have others₁ : ∀ q, q ≠ supply →
          ((s.slab.supplied supply).formatSlabpage cache supply).pages q = s.slab.pages q ∧
          ((s.slab.supplied supply).formatSlabpage cache supply).heads q = s.slab.heads q := by
        intro q ne
        simp [Slab.formatSlabpage, Slab.supplied, Slab.setPage, Slab.setHead, ne]
      have caches₁ : ((s.slab.supplied supply).formatSlabpage cache supply).cpuPage =
          Function.update s.slab.cpuPage cache (some supply) := rfl
      have words₁ : ((s.slab.supplied supply).formatSlabpage cache supply).word =
          s.slab.word := rfl
      generalize (s.slab.supplied supply).formatSlabpage cache supply = slab₁ at *
      have room : (slab₁.heads supply).endPtr + objsize cache ≤
          kmemAddr supply + pageBytes := by
        have small := objsize_le isCache
        rw [pageInv₁.endPtr]
        unfold slabHeadBytes pageBytes
        omega
      rcases takeEnd_spec closed₁ with
        ⟨slab', taken, pages, word, cpuPage, endPtr, nrObjs, heads, closed, same⟩
      rcases pageInv₁.takeEnd isCache room pages word endPtr nrObjs with ⟨slot, pageInv'⟩
      have isPage : slab'.cpuPage cache = some supply := by
        rw [cpuPage, caches₁, Function.update_self]
      refine ⟨_, slab', first.trans taken, slot.inside isPage, fun held' => ?_⟩
      apply inv.replace isPage ?_ (Or.inr ⟨hasPage, unowned⟩)
      · intro q ne
        rw [pages, heads q ne]
        exact others₁ q ne
      · intro object _
        rw [word, words₁]
      · exact fun q ne => .of_eq (filter_cons_other slot.pageOf_eq ne s.live)
      · exact closed
      · intro node outside
        rw [(same node outside).1, (same node outside).2]
        exact same₁ node outside
      · exact ⟨_, _, pageInv'⟩
      · intro other ne
        rw [cpuPage, caches₁, Function.update_of_ne ne]
  | some page =>
      have room := fits.1
      simp only [HasRoom, hasPage] at room
      rcases inv.page cache page hasPage with ⟨count, chain, pageInv⟩
      by_cases chained : (s.slab.pages page).slabp = 0
      · rcases room with freed | ⟨notFull, room⟩
        · exact absurd chained freed
        · have empty : chain = [] := by
            rcases pageInv.freed with ⟨_, empty⟩ | ⟨ne, _⟩
            · exact empty
            · exact absurd chained ne
          subst empty
          rcases takeEnd_spec (inv.group cache page hasPage) with
            ⟨slab', taken, pages, word, cpuPage, endPtr, nrObjs, heads, closed, same⟩
          rcases pageInv.takeEnd isCache room pages word endPtr nrObjs with ⟨slot, pageInv'⟩
          have isPage : slab'.cpuPage cache = some page := by
            rw [cpuPage]
            exact hasPage
          refine ⟨_, slab', ?_, slot.inside isPage, fun held' => ?_⟩
          · simp [Slab.slabAlloc, hasPage, chained, notFull, taken]
          · apply inv.replace isPage (fun other _ => by rw [cpuPage]) (Or.inl hasPage)
            · exact fun q ne => ⟨by rw [pages], heads q ne⟩
            · exact fun object _ => by rw [word]
            · exact fun q ne => .of_eq (filter_cons_other slot.pageOf_eq ne s.live)
            · exact closed
            · exact same
            · exact ⟨_, _, pageInv'⟩
      · rcases pageInv.takeChain chained with ⟨slot, rest, pageInv'⟩
        have isPage : (s.slab.takeChain page).2.cpuPage cache = some page := hasPage
        refine ⟨_, (s.slab.takeChain page).2, ?_, slot.inside isPage, fun held' => ?_⟩
        · simp [Slab.slabAlloc, hasPage, chained, Slab.takeChain]
        · apply inv.replace isPage (fun _ _ => rfl) (Or.inl hasPage)
          · intro q ne
            simp [Slab.takeChain, Slab.setPage, Slab.setHead, ne]
          · exact fun _ _ => rfl
          · exact fun q ne => .of_eq (filter_cons_other slot.pageOf_eq ne s.live)
          · exact inv.group cache page hasPage
          · exact fun _ _ => ⟨rfl, rfl⟩
          · exact ⟨_, _, pageInv'⟩

/-- What `slab_free` of a live object does to its page and the lists of its cache. -/
theorem slabFree_spec {slab : Slab} {object : ℕ} (isObject : kernelEntry ≤ object)
    (onPage : pageOf object = page) (some' : (slab.heads page).nrObjs ≠ 0)
    (closed : slab.links.ClosedOn (Group cache page)) :
    ∃ slab' back, slab.slabFree cache (object - kernelEntry) = some (slab', back) ∧
      slab'.pages = Function.update slab.pages page
        { slab.pages page with slabp := object } ∧
      slab'.word = Function.update slab.word object (slab.pages page).slabp ∧
      slab'.cpuPage = slab.cpuPage ∧
      slab'.heads = Function.update slab.heads page
        { slab.heads page with nrObjs := (slab.heads page).nrObjs - 1, isFull := 0 } ∧
      slab'.links.ClosedOn (Group cache page) ∧
      slab.links.SameOutside slab'.links (Group cache page) := by
  have address : object - kernelEntry + kernelEntry = object := by omega
  have isPage : (object - kernelEntry) / pageBytes = page := onPage
  unfold Slab.slabFree
  simp only [address, isPage, some', if_false, Slab.setPage, Slab.setHead]
  split
  · rcases closed.listDelInit (Or.inr (Or.inr rfl)) with ⟨links', removed, closed', same⟩
    rw [removed]
    exact ⟨_, _, rfl, rfl, rfl, rfl, rfl, closed', same⟩
  · split
    · exact ⟨_, _, rfl, rfl, rfl, rfl, rfl, closed, fun _ _ => ⟨rfl, rfl⟩⟩
    · split
      · rcases closed.listDelInit (Or.inr (Or.inr rfl)) with ⟨links₁, removed, closed₁, same₁⟩
        rcases closed₁.listAddTail (Or.inr (Or.inr rfl)) (Or.inl rfl) with
          ⟨links₂, added, closed₂, same₂⟩
        simp only [removed, Option.bind_eq_bind, Option.bind_some, added]
        refine ⟨_, _, rfl, rfl, rfl, rfl, rfl, closed₂, fun node outside => ?_⟩
        rw [(same₂ node outside).1, (same₂ node outside).2]
        exact same₁ node outside
      · exact ⟨_, _, rfl, rfl, rfl, rfl, rfl, closed, fun _ _ => ⟨rfl, rfl⟩⟩

theorem filter_erase {object : ℕ} {live : List ℕ} (mem : object ∈ live)
    (onPage : pageOf object = page) :
    (live.filter (pageOf · = page)).Perm
        (object :: (live.erase object).filter (pageOf · = page)) ∧
      ∀ q, q ≠ page →
        ((live.erase object).filter (pageOf · = q)).Perm (live.filter (pageOf · = q)) := by
  have perm := List.perm_cons_erase mem
  constructor
  · rw [← filter_cons onPage]
    exact perm.filter _
  · intro q ne
    rw [← filter_cons_other onPage ne]
    exact (perm.filter _).symm

theorem inv_free (inv : s.Inv) {object : ℕ} (isLive : object ∈ s.live)
    {slab' : Slab} {back : Bool}
    (freed : s.slab.slabFree (s.slab.pages (pageOf object)).virtual (object - kernelEntry) =
      some (slab', back)) (held' : List ℕ) :
    Inv ⟨slab', s.live.erase object, held'⟩ := by
  rcases inv.live object isLive with ⟨cache, hasPage⟩
  rcases inv.page cache _ hasPage with ⟨count, chain, pageInv⟩
  rcases filter_erase isLive rfl with ⟨objects, others⟩
  have inPage : object ∈ s.live.filter (pageOf · = pageOf object) := by simpa using isLive
  have slot := pageInv.slots object (List.mem_append_right _ inPage)
  have isObject := slot.isObject
  have counted : (s.slab.heads (pageOf object)).nrObjs ≠ 0 := by
    rw [pageInv.nrObjs, objects.length_eq]
    simp
  rw [pageInv.owner] at freed
  rcases slabFree_spec isObject rfl counted (inv.group cache _ hasPage) with
    ⟨slab₁, back₁, freed₁, pages, word, cpuPage, heads, closed, same⟩
  rw [freed₁] at freed
  cases freed
  have perm := (objects.append_left chain).trans List.perm_middle
  have nodup := perm.nodup_iff.mp pageInv.nodup
  have notMem : object ∉ chain := fun mem =>
    (List.nodup_cons.mp nodup).1 (List.mem_append_left _ mem)
  apply inv.replace (by rw [cpuPage]; exact hasPage) (fun _ _ => by rw [cpuPage])
    (Or.inl hasPage)
  · intro q ne
    rw [pages, heads, Function.update_of_ne ne, Function.update_of_ne ne]
    exact ⟨rfl, rfl⟩
  · intro address ne
    rw [word, Function.update_of_ne]
    rintro rfl
    exact ne rfl
  · exact others
  · exact closed
  · exact same
  · refine ⟨count, object :: chain, ?_⟩
    constructor
    · rw [pages, Function.update_self]
      exact pageInv.owner
    · rw [heads, Function.update_self]
      exact pageInv.endPtr
    · rw [pages, word, Function.update_self]
      exact pageInv.freed.push slot.ne_zero notMem
    · exact nodup
    · intro other mem
      exact pageInv.slots other (perm.mem_iff.mpr mem)
    · rw [heads, Function.update_self, pageInv.nrObjs, objects.length_eq, List.length_cons,
        Nat.add_sub_cancel]

/-- The owner of an object writes beside the chain and in no other page. -/
theorem inv_write (inv : s.Inv) {object offset : ℕ} (isLive : object ∈ s.live)
    (inObject : offset + 4 ≤ objsize (s.slab.pages (pageOf object)).virtual) (value : ℕ) :
    Inv { s with
      slab := { s.slab with word := Function.update s.slab.word (object + offset) value } } := by
  rcases inv.live object isLive with ⟨cache, hasPage⟩
  rcases inv.page cache _ hasPage with ⟨count, chain, pageInv⟩
  rw [pageInv.owner] at inObject
  have inPage : object ∈ s.live.filter (pageOf · = pageOf object) := by simpa using isLive
  have slot := pageInv.slots object (List.mem_append_right _ inPage)
  have notMem : object + offset ∉ chain := by
    intro mem
    have otherSlot := pageInv.slots _ (List.mem_append_left _ mem)
    have ne : object ≠ object + offset := by
      intro eq
      rw [← eq] at mem
      exact List.disjoint_of_nodup_append pageInv.nodup mem inPage
    have apart := slot.apart otherSlot ne
    rw [slabSize_eq] at apart
    omega
  have samePage : pageOf (object + offset) = pageOf object := slot.pageOf_add (by omega)
  refine inv.replace hasPage (fun _ _ => rfl) (Or.inl hasPage) (fun _ _ => ⟨rfl, rfl⟩) ?_
    (fun _ _ => .refl _) (inv.group cache _ hasPage) (fun _ _ => ⟨rfl, rfl⟩) ?_
  · intro address ne
    show Function.update s.slab.word (object + offset) value address = s.slab.word address
    rw [Function.update_of_ne]
    rintro rfl
    exact ne samePage
  · exact ⟨count, chain, pageInv.owner, pageInv.endPtr, pageInv.freed.write notMem value,
      pageInv.nodup, pageInv.slots, pageInv.nrObjs⟩

theorem inv_step (inv : s.Inv) {op : SlabOp} (fits : s.Fits op) {next : SlabSystem}
    (stepped : s.step op = some next) : next.Inv := by
  cases op with
  | alloc cache supply =>
      simp only [step] at stepped
      split at stepped
      next allowed =>
        rcases alloc_inside inv _ fits allowed.1 with ⟨object, slab', allocated, _, kept⟩
        rw [allocated] at stepped
        simp only [Option.map_some, Option.some.injEq] at stepped
        rw [← stepped]
        exact kept _
      next => cases stepped
  | free index =>
      simp only [step, Option.bind_eq_bind, Option.bind_eq_some_iff, Option.some.injEq]
        at stepped
      rcases stepped with ⟨object, isLive, ⟨slab', back⟩, freed, rfl⟩
      exact inv_free inv (List.mem_of_getElem? isLive) freed _
  | write index offset value =>
      simp only [step, Option.bind_eq_bind, Option.bind_eq_some_iff] at stepped
      rcases stepped with ⟨object, isLive, stepped⟩
      split at stepped
      next inObject =>
        cases stepped
        exact inv_write inv (List.mem_of_getElem? isLive) inObject.2 value
      next => cases stepped

theorem inv_of_reach (reached : GuardedReach step Fits Start s) : s.Inv :=
  reached.invariant (fun _ start => start.inv)
    fun _ _ _ inv fits stepped => inv_step inv fits stepped

/-- The first call for a cache returns an object inside the page whatever page is supplied. -/
theorem allocInside_first (inv : s.Inv) {supply : ℕ} (isCache : cache < pageShift)
    (hasNone : s.slab.cpuPage cache = none) : AllocInside s.slab cache supply := by
  have small := objsize_le isCache
  rcases takeEnd_spec (formatted_links inv supply hasNone).1 with
    ⟨slab', taken, _, _, cpuPage, _⟩
  have endPtr : (((s.slab.supplied supply).formatSlabpage cache supply).heads supply).endPtr =
      kmemAddr supply + slabHeadBytes := by
    simp [Slab.formatSlabpage, Slab.setPage, Slab.setHead]
  have isPage : slab'.cpuPage cache = some supply := by
    rw [cpuPage]
    simp [Slab.formatSlabpage]
  rw [endPtr] at taken
  refine ⟨_, slab', (slabAlloc_first inv supply hasNone).trans taken, ?_, supply, isPage, le_rfl, ?_⟩
  · unfold slabHeadBytes
    omega
  · unfold slabHeadBytes pageBytes
    omega

/-- A page without room cannot serve a call. -/
theorem HasRoom.of_allocInside {slab : Slab} {supply : ℕ}
    (inside : AllocInside slab cache supply) : HasRoom slab cache := by
  unfold HasRoom
  cases hasPage : slab.cpuPage cache with
  | none => trivial
  | some page =>
      by_cases chained : (slab.pages page).slabp = 0
      · right
        rcases inside with ⟨object, slab', allocated, _, page', isPage, _, fits⟩
        simp only [Slab.slabAlloc, hasPage, chained, ne_eq, not_true_eq_false, if_false]
          at allocated
        split at allocated
        next notFull =>
          rcases takeEnd_eq allocated with ⟨rfl, cpuPage⟩
          rw [cpuPage, hasPage] at isPage
          cases isPage
          exact ⟨notFull, fits⟩
        next => cases allocated
      · exact Or.inl chained

end Steps

/-- In a run whose calls all fit, a call returns an object inside its page exactly if the cache
has room. -/
theorem allocInside_iff_of_reach (s : SlabSystem) (reached : GuardedReach step Fits Start s)
    (cache supply : ℕ) (allowed : s.Supplies cache supply) :
    AllocInside s.slab cache supply ↔ HasRoom s.slab cache := by
  constructor
  · exact HasRoom.of_allocInside
  · intro room
    have inv := inv_of_reach reached
    by_cases hasNone : s.slab.cpuPage cache = none
    · exact allocInside_first inv allowed.1 hasNone
    · rcases alloc_inside inv supply ⟨room, fun isNone => absurd isNone hasNone⟩
        allowed.1 with ⟨object, slab', allocated, inside, _⟩
      exact ⟨object, slab', allocated, inside⟩

/-- What `init_slab` leaves in memory that holds no page of the slab system yet. -/
def booted : SlabSystem where
  slab :=
    { pages := fun _ => ⟨0, 0, 0, 0, 0⟩
      heads := fun _ => ⟨0, 0, 0⟩
      links := ⟨some, some⟩
      cpuPage := fun _ => none
      word := fun _ => 0 }
  live := []
  held := []

theorem booted_start : Start booted where
  cpuPage := fun _ => rfl
  lists := fun _ => ⟨fun node eq => ⟨⟨node, rfl, eq⟩, node, rfl, eq⟩,
    fun node eq => ⟨⟨node, rfl, eq⟩, node, rfl, eq⟩⟩
  live := rfl
  held := rfl

/-- The second object of 1536 bytes fits in the page of the first. -/
theorem allocInside_iff_second : ∃ s : SlabSystem, s.live = [kmemAddr 5 + slabHeadBytes] ∧
    (AllocInside s.slab 10 6 ↔ HasRoom s.slab 10) := by
  have fits : booted.Fits (.alloc 10 5) := by simp [Fits, HasRoom, booted]
  have steps : (booted.step (.alloc 10 5)).isSome := by decide
  have live : (booted.step (.alloc 10 5)).map (·.live) =
      some [kmemAddr 5 + slabHeadBytes] := by decide
  have allowed : (booted.step (.alloc 10 5)).all fun s => s.Supplies 10 6 := by decide
  rcases Option.isSome_iff_exists.mp steps with ⟨s, stepped⟩
  rw [stepped] at live allowed
  refine ⟨s, Option.some.inj live, ?_⟩
  apply allocInside_iff_of_reach s (.step (.start booted_start) fits stepped)
  simpa using allowed

/-- The second object of 2048 bytes is never returned: the page of the first counts as full, and
a call then ends without a `return`. -/
theorem not_allocInside_second : ¬∀ (s : SlabSystem) (cache supply : ℕ), Reach step Start s →
    s.Supplies cache supply → AllocInside s.slab cache supply := by
  intro always
  have steps : (booted.step (.alloc 11 5)).isSome := by decide
  have allowed : (booted.step (.alloc 11 5)).all fun s => s.Supplies 11 6 := by decide
  have ends : ((booted.step (.alloc 11 5)).bind fun s => s.slab.slabAlloc 11 6).isNone := by
    decide
  rcases Option.isSome_iff_exists.mp steps with ⟨s, stepped⟩
  rw [stepped] at allowed ends
  rcases always s 11 6 (.step (.start booted_start) trivial stepped) (by simpa using allowed)
    with ⟨object, slab', allocated, _⟩
  rw [Option.bind_some, allocated] at ends
  cases ends

end SlabSystem

end Ninix.Memory
