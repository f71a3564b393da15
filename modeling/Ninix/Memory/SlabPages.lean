import Ninix.Memory.Slab

/-!
# The life of a slab page

A page goes on the list `full` of its cache when no further object fits behind `end_ptr`, and over
to `partial` when the first object is freed after that. It stays the `cpu.page` of its cache all
the while. When its last object is freed, it goes back to the buddy system and is the `cpu.page`
still. When all its objects have been handed out again, `is_full` is not set, so an object behind
the last one is handed out, and the page is put on `full` while it is on `partial`.
-/

namespace Ninix.Memory

open TransitionSystem ListHead

/-- The loop of `get_slab` -/
def getSlabLoop (size : ℕ) : List ℕ → ℕ × ℕ → ℕ × ℕ
  | [], best => best
  | i :: rest, (num, index) =>
      getSlabLoop size rest
        (if size ≤ objsize i ∧ objsize i ≤ num then (objsize i, i) else (num, index))

/-- `get_slab` -/
def getSlab (size : ℕ) : ℕ := (getSlabLoop size (List.range pageShift) (2048, pageShift)).2

theorem getSlabLoop_fits {size : ℕ} (list : List ℕ) (best : ℕ × ℕ)
    (inside : ∀ i ∈ list, i < pageShift)
    (fits : best.2 < pageShift ∧ size ≤ objsize best.2 ∨ best.1 = 2048 ∧ 11 ∈ list)
    (small : size ≤ 2048) :
    (getSlabLoop size list best).2 < pageShift ∧ size ≤ objsize (getSlabLoop size list best).2 := by
  induction list generalizing best with
  | nil => exact fits.resolve_right fun none => absurd none.2 List.not_mem_nil
  | cons i rest ih =>
      rw [getSlabLoop]
      apply ih _ fun j mem => inside j (List.mem_cons_of_mem i mem)
      by_cases better : size ≤ objsize i ∧ objsize i ≤ best.1
      · rw [if_pos better]
        exact .inl ⟨inside i List.mem_cons_self, better.1⟩
      · rw [if_neg better]
        refine fits.imp_right fun none => ⟨none.1, ?_⟩
        rcases List.mem_cons.mp none.2 with isLast | later
        · have largest : objsize 11 = 2048 := by decide
          rw [← isLast, largest, none.1] at better
          exact absurd ⟨small, le_rfl⟩ better
        · exact later

/-- A size of up to 2048 bytes has a cache. -/
theorem getSlab_fits {size : ℕ} (small : size ≤ 2048) :
    getSlab size < pageShift ∧ size ≤ objsize (getSlab size) :=
  getSlabLoop_fits _ _ (fun _ => List.mem_range.mp)
    (.inr ⟨rfl, List.mem_range.mpr (by decide)⟩) small

/-- Every cache is that of some size. -/
theorem getSlab_objsize : ∀ cache < pageShift, getSlab (objsize cache) = cache := by decide

theorem page_ne_nodePartial (page cache : ℕ) : SlabNode.page page ≠ .nodePartial cache := by
  rintro ⟨⟩

theorem page_ne_nodeFull (page cache : ℕ) : SlabNode.page page ≠ .nodeFull cache := by
  rintro ⟨⟩

theorem nodePartial_ne_nodeFull (cache other : ℕ) :
    SlabNode.nodePartial cache ≠ .nodeFull other := by
  rintro ⟨⟩

namespace SlabSystem

/-- A page is on one list of its cache at most and there once, and the caches know only pages
that the buddy system has supplied and not got back. -/
structure LifeCycle (s : SlabSystem) : Prop where
  lists : ∀ cache, ∃ partials fulls : List ℕ,
    s.slab.links.IsList (.nodePartial cache) (partials.map .page) ∧
      s.slab.links.IsList (.nodeFull cache) (fulls.map .page) ∧ (partials ++ fulls).Nodup ∧
        ∀ page ∈ partials ++ fulls, (s.slab.pages page).virtual = cache ∧ page ∈ s.held
  cpuPage : ∀ cache page, s.slab.cpuPage cache = some page → page ∈ s.held

/-- No page is asked for an object that is on a list and has no freed object left, unless it is
marked full, and no page's last object is freed. -/
def Keeps (s : SlabSystem) : SlabOp → Prop
  | .alloc cache _ => ∀ page, s.slab.cpuPage cache = some page → (s.slab.pages page).slabp = 0 →
      (s.slab.heads page).isFull = 0 → s.slab.links.listEmpty (.page page)
  | .free index => ∀ object, s.live[index]? = some object →
      (s.slab.heads (pageOf object)).nrObjs ≠ 1
  | .write _ _ _ => True

instance (s : SlabSystem) : (op : SlabOp) → Decidable (s.Keeps op)
  | .alloc cache _ => decidable_of_iff (∀ page ∈ s.slab.cpuPage cache,
      (s.slab.pages page).slabp = 0 → (s.slab.heads page).isFull = 0 →
        s.slab.links.listEmpty (.page page)) Iff.rfl
  | .free index => decidable_of_iff (∀ object ∈ s.live[index]?,
      (s.slab.heads (pageOf object)).nrObjs ≠ 1) Iff.rfl
  | .write _ _ _ => .isTrue trivial

/-! ## The place of a page -/

/-- Where the page of a cache is: on no list, as it has room behind `end_ptr`, or on `full` or
`partial`. -/
inductive Place (slab : Slab) (cache page : ℕ) : Prop
  | unlinked (partials : slab.links.Alone (.nodePartial cache))
      (fulls : slab.links.Alone (.nodeFull cache)) (alone : slab.links.Alone (.page page))
      (notFull : (slab.heads page).isFull = 0)
      (room : (slab.heads page).endPtr + slabSize cache < kmemAddr page + pageBytes)
  | onFull (partials : slab.links.Alone (.nodePartial cache))
      (fulls : slab.links.Pair (.nodeFull cache) (.page page))
      (isFull : (slab.heads page).isFull ≠ 0) (unchained : (slab.pages page).slabp = 0)
      (noRoom : kmemAddr page + pageBytes ≤ (slab.heads page).endPtr + slabSize cache)
  | onPartial (partials : slab.links.Pair (.nodePartial cache) (.page page))
      (fulls : slab.links.Alone (.nodeFull cache)) (notFull : (slab.heads page).isFull = 0)
      (noRoom : kmemAddr page + pageBytes ≤ (slab.heads page).endPtr + slabSize cache)

/-- Every cache's page is in its place, with an object handed out. -/
structure LifeInv (s : SlabSystem) : Prop where
  inv : s.Inv
  isCache : ∀ cache page, s.slab.cpuPage cache = some page → cache < pageShift
  held : ∀ cache page, s.slab.cpuPage cache = some page → page ∈ s.held
  counted : ∀ cache page, s.slab.cpuPage cache = some page → (s.slab.heads page).nrObjs ≠ 0
  place : ∀ cache page, s.slab.cpuPage cache = some page → Place s.slab cache page
  nodup : s.held.Nodup

variable {s : SlabSystem} {slab slab' : Slab} {cache page object : ℕ}

theorem Inv.unused_alone (inv : s.Inv) (hasNone : s.slab.cpuPage cache = none) :
    s.slab.links.Alone (.nodePartial cache) ∧ s.slab.links.Alone (.nodeFull cache) := by
  rcases inv.unused cache hasNone with ⟨partials, fulls⟩
  rcases partials _ rfl with ⟨⟨_, isPrev, rfl⟩, _, isNext, rfl⟩
  rcases fulls _ rfl with ⟨⟨_, isPrev', rfl⟩, _, isNext', rfl⟩
  exact ⟨⟨isPrev, isNext⟩, isPrev', isNext'⟩

/-- A page stays in its place when another page is worked on. -/
theorem Place.congr {other q : ℕ} (place : Place slab other q) (neCache : other ≠ cache)
    (nePage : q ≠ page) (same : slab.links.SameOutside slab'.links (Group cache page))
    (pages : slab'.pages q = slab.pages q) (heads : slab'.heads q = slab.heads q) :
    Place slab' other q := by
  have partialOutside : ¬Group cache page (.nodePartial other) := by
    rintro (eq | eq | eq) <;> cases eq
    exact neCache rfl
  have fullOutside : ¬Group cache page (.nodeFull other) := by
    rintro (eq | eq | eq) <;> cases eq
    exact neCache rfl
  have pageOutside : ¬Group cache page (.page q) := by
    rintro (eq | eq | eq) <;> cases eq
    exact nePage rfl
  cases place with
  | unlinked partials fulls alone notFull room =>
      rw [← heads] at notFull room
      exact .unlinked (partials.congr same partialOutside) (fulls.congr same fullOutside)
        (alone.congr same pageOutside) notFull room
  | onFull partials fulls isFull unchained noRoom =>
      rw [← heads] at isFull noRoom
      rw [← pages] at unchained
      exact .onFull (partials.congr same partialOutside)
        (fulls.congr same fullOutside pageOutside) isFull unchained noRoom
  | onPartial partials fulls notFull noRoom =>
      rw [← heads] at notFull noRoom
      exact .onPartial (partials.congr same partialOutside pageOutside)
        (fulls.congr same fullOutside) notFull noRoom

/-- A call that keeps to one page of one cache keeps the invariant. -/
theorem LifeInv.replace (life : s.LifeInv) {live' held' : List ℕ}
    (inv' : Inv ⟨slab', live', held'⟩) (isPage : slab'.cpuPage cache = some page)
    (otherCaches : ∀ other, other ≠ cache → slab'.cpuPage other = s.slab.cpuPage other)
    (otherPages : ∀ q, q ≠ page → slab'.pages q = s.slab.pages q ∧
      slab'.heads q = s.slab.heads q)
    (same : s.slab.links.SameOutside slab'.links (Group cache page)) (isCache : cache < pageShift)
    (here : page ∈ held') (subset : s.held ⊆ held') (nodup : held'.Nodup)
    (counted : (slab'.heads page).nrObjs ≠ 0) (place : Place slab' cache page) :
    LifeInv ⟨slab', live', held'⟩ := by
  have cases' : ∀ other q, slab'.cpuPage other = some q → other = cache ∧ q = page ∨
      other ≠ cache ∧ q ≠ page ∧ s.slab.cpuPage other = some q := by
    intro other q hasPage
    by_cases isSame : other = cache
    · subst isSame
      exact .inl ⟨rfl, Option.some.inj (hasPage.symm.trans isPage)⟩
    · refine .inr ⟨isSame, ?_, otherCaches other isSame ▸ hasPage⟩
      rintro rfl
      exact isSame (inv'.distinct other cache q hasPage isPage)
  refine ⟨inv', ?_, ?_, ?_, ?_, nodup⟩
  · intro other q hasPage
    rcases cases' other q hasPage with ⟨rfl, rfl⟩ | ⟨_, _, hadPage⟩
    · exact isCache
    · exact life.isCache other q hadPage
  · intro other q hasPage
    rcases cases' other q hasPage with ⟨rfl, rfl⟩ | ⟨_, _, hadPage⟩
    · exact here
    · exact subset (life.held other q hadPage)
  · intro other q hasPage
    rcases cases' other q hasPage with ⟨rfl, rfl⟩ | ⟨_, nePage, hadPage⟩
    · exact counted
    · exact (otherPages q nePage).2 ▸ life.counted other q hadPage
  · intro other q hasPage
    rcases cases' other q hasPage with ⟨rfl, rfl⟩ | ⟨neCache, nePage, hadPage⟩
    · exact place
    · exact (life.place other q hadPage).congr neCache nePage same (otherPages q nePage).1
        (otherPages q nePage).2

/-! ## Objects handed out -/

/-- A page with room behind `end_ptr` goes on `full` when the object there is the last one. -/
theorem Place.takeEnd (partials : slab.links.Alone (.nodePartial cache))
    (fulls : slab.links.Alone (.nodeFull cache)) (alone : slab.links.Alone (.page page))
    (notFull : (slab.heads page).isFull = 0) (unchained : (slab.pages page).slabp = 0)
    (taken : slab.takeEnd cache page = some (object, slab')) : Place slab' cache page := by
  rw [Slab.takeEnd] at taken
  simp only at taken
  by_cases isLast : kmemAddr page + pageBytes ≤
      (slab.heads page).endPtr + slabSize cache + slabSize cache
  · rw [if_pos isLast] at taken
    rcases fulls.listAddTail (page_ne_nodeFull page cache) with ⟨links', added, pair, same⟩
    rw [added, Option.map_some, Option.some.injEq, Prod.mk.injEq] at taken
    rw [← taken.2]
    have outside : ¬(SlabNode.nodePartial cache = .nodeFull cache ∨
        SlabNode.nodePartial cache = .page page) := by
      rintro (eq | eq) <;> cases eq
    have head : (Function.update slab.heads page
        ⟨(slab.heads page).endPtr + slabSize cache, (slab.heads page).nrObjs + 1, 1⟩) page =
          ⟨(slab.heads page).endPtr + slabSize cache, (slab.heads page).nrObjs + 1, 1⟩ :=
      Function.update_self _ _ _
    refine .onFull (partials.congr same outside) pair ?_ unchained ?_
    · exact (congrArg SlabHead.isFull head).trans_ne Nat.one_ne_zero
    · exact isLast.trans_eq (congrArg (SlabHead.endPtr · + slabSize cache) head.symm)
  · rw [if_neg isLast, Option.some.injEq, Prod.mk.injEq] at taken
    rw [← taken.2]
    have head : (Function.update slab.heads page
        ⟨(slab.heads page).endPtr + slabSize cache, (slab.heads page).nrObjs + 1,
          (slab.heads page).isFull⟩) page =
          ⟨(slab.heads page).endPtr + slabSize cache, (slab.heads page).nrObjs + 1,
            (slab.heads page).isFull⟩ :=
      Function.update_self _ _ _
    refine .unlinked partials fulls alone ?_ ?_
    · exact (congrArg SlabHead.isFull head).trans notFull
    · exact (congrArg (SlabHead.endPtr · + slabSize cache) head).trans_lt (Nat.not_le.mp isLast)

/-- A page stays in its place when a freed object is handed out. -/
theorem Place.takeChain (place : Place slab cache page) (chained : (slab.pages page).slabp ≠ 0) :
    Place (slab.takeChain page).2 cache page := by
  have head : (slab.takeChain page).2.heads page =
      { slab.heads page with nrObjs := (slab.heads page).nrObjs + 1 } := by
    simp [Slab.takeChain, Slab.setHead]
  cases place with
  | unlinked partials fulls alone notFull room =>
      exact .unlinked partials fulls alone (by rw [head]; exact notFull) (by rw [head]; exact room)
  | onFull partials fulls isFull unchained noRoom => exact absurd unchained chained
  | onPartial partials fulls notFull noRoom =>
      exact .onPartial partials fulls (by rw [head]; exact notFull) (by rw [head]; exact noRoom)

/-- What is supplied is no cache's page. -/
theorem LifeInv.unowned (life : s.LifeInv) {supply : ℕ} (hasNone : s.slab.cpuPage cache = none)
    (supplies : s.Supplies cache supply) :
    supply ∉ s.held ∧ ∀ other, s.slab.cpuPage other ≠ some supply := by
  have asks : s.Asks cache := ⟨hasNone, (life.inv.unused_alone hasNone).1.next⟩
  have notHeld := (supplies.2 asks).1
  exact ⟨notHeld, fun other hasPage => notHeld (life.held other supply hasPage)⟩

/-- A call that is kept to and returns an object fits. -/
theorem LifeInv.fits (life : s.LifeInv) {supply : ℕ} (supplies : s.Supplies cache supply)
    (keeps : s.Keeps (.alloc cache supply))
    (allocated : s.slab.slabAlloc cache supply = some (object, slab')) :
    s.Fits (.alloc cache supply) := by
  refine ⟨?_, fun hasNone => (life.unowned hasNone supplies).2⟩
  unfold HasRoom
  cases hasPage : s.slab.cpuPage cache with
  | none => trivial
  | some page =>
      simp only
      by_cases chained : (s.slab.pages page).slabp = 0
      · by_cases notFull : (s.slab.heads page).isFull = 0
        · have empty := keeps page hasPage chained notFull
          cases life.place cache page hasPage with
          | unlinked _ _ _ _ room =>
              rw [slabSize_eq] at room
              exact .inr ⟨notFull, by omega⟩
          | onFull _ _ isFull => exact absurd notFull isFull
          | onPartial partials =>
              exact absurd empty (partials.not_empty (page_ne_nodePartial page cache).symm)
        · simp [Slab.slabAlloc, hasPage, chained, notFull] at allocated
      · exact .inl chained

/-- The first call for a cache puts the page it is supplied in its place. -/
theorem LifeInv.allocFirst (life : s.LifeInv) {supply : ℕ} (hasNone : s.slab.cpuPage cache = none)
    (supplies : s.Supplies cache supply)
    (allocated : s.slab.slabAlloc cache supply = some (object, slab'))
    (inv' : Inv ⟨slab', object :: s.live, supply :: s.held⟩) :
    LifeInv ⟨slab', object :: s.live, supply :: s.held⟩ := by
  have notHeld := (life.unowned hasNone supplies).1
  rcases life.inv.unused_alone hasNone with ⟨partials, fulls⟩
  rcases formatted_links life.inv supply hasNone with ⟨closed₁, same₁⟩
  rw [slabAlloc_first life.inv supply hasNone] at allocated
  rcases takeEnd_spec closed₁ with
    ⟨slab'', taken, pages, _, cpuPage, endPtr, nrObjs, heads, _, same⟩
  have isSame := Option.some.inj (allocated.symm.trans taken)
  obtain rfl : slab' = slab'' := (Prod.mk.inj isSame).2
  have newLinks : s.slab.links.SameOutside
      ((s.slab.supplied supply).formatSlabpage cache supply).links (· = .page supply) := by
    intro node outside
    exact ⟨Function.update_of_ne outside _ _, Function.update_of_ne outside _ _⟩
  have place : Place slab' cache supply := by
    refine Place.takeEnd (partials.congr newLinks (page_ne_nodePartial supply cache).symm)
      (fulls.congr newLinks (page_ne_nodeFull supply cache).symm)
      (Links.alone_initListHead _ _) ?_ ?_ allocated
    · simp [Slab.formatSlabpage, Slab.setPage, Slab.setHead]
    · simp [Slab.formatSlabpage, Slab.setPage, Slab.setHead]
  apply life.replace inv' ?_ ?_ ?_ ?_ supplies.1 List.mem_cons_self (List.subset_cons_self _ _)
    (List.nodup_cons.mpr ⟨notHeld, life.nodup⟩) ?_ place
  · rw [cpuPage]
    exact Function.update_self _ _ _
  · intro other ne
    rw [cpuPage]
    exact Function.update_of_ne ne _ _
  · intro q ne
    rw [pages, heads q ne]
    simp [Slab.formatSlabpage, Slab.supplied, Slab.setPage, Slab.setHead, ne]
  · intro node outside
    rw [(same node outside).1, (same node outside).2]
    exact same₁ node outside
  · rw [nrObjs]
    exact Nat.succ_ne_zero _

theorem LifeInv.allocNext (life : s.LifeInv) {supply : ℕ}
    (hasPage : s.slab.cpuPage cache = some page) (keeps : s.Keeps (.alloc cache supply))
    (allocated : s.slab.slabAlloc cache supply = some (object, slab'))
    (inv' : Inv ⟨slab', object :: s.live, s.held⟩) :
    LifeInv ⟨slab', object :: s.live, s.held⟩ := by
  have isCache := life.isCache cache page hasPage
  have here := life.held cache page hasPage
  have place := life.place cache page hasPage
  rw [Slab.slabAlloc, hasPage] at allocated
  simp only at allocated
  by_cases chained : (s.slab.pages page).slabp ≠ 0
  · rw [if_pos chained, Option.some.injEq] at allocated
    obtain rfl : (s.slab.takeChain page).2 = slab' := congrArg Prod.snd allocated
    apply life.replace inv' hasPage (fun _ _ => rfl) ?_ (fun _ _ => ⟨rfl, rfl⟩) isCache here
      (List.Subset.refl _) life.nodup ?_ (place.takeChain chained)
    · intro q ne
      simp [Slab.takeChain, Slab.setPage, Slab.setHead, ne]
    · simp [Slab.takeChain, Slab.setHead]
  · rw [if_neg chained] at allocated
    have unchained := not_not.mp chained
    by_cases notFull : (s.slab.heads page).isFull = 0
    · rw [if_pos notFull] at allocated
      have empty := keeps page hasPage unchained notFull
      rcases takeEnd_spec (life.inv.group cache page hasPage) with
        ⟨slab'', taken, pages, _, cpuPage, endPtr, nrObjs, heads, _, same⟩
      have isSame := Option.some.inj (allocated.symm.trans taken)
      obtain rfl : slab' = slab'' := (Prod.mk.inj isSame).2
      have place' : Place slab' cache page := by
        cases place with
        | unlinked partials fulls alone _ room =>
            exact Place.takeEnd partials fulls alone notFull unchained allocated
        | onFull _ _ isFull => exact absurd notFull isFull
        | onPartial partials =>
            exact absurd empty (partials.not_empty (page_ne_nodePartial page cache).symm)
      apply life.replace inv' (cpuPage ▸ hasPage) (fun _ _ => by rw [cpuPage]) ?_ same isCache here
        (List.Subset.refl _) life.nodup ?_ place'
      · intro q ne
        rw [pages, heads q ne]
        exact ⟨rfl, rfl⟩
      · rw [nrObjs]
        exact Nat.succ_ne_zero _
    · rw [if_neg notFull] at allocated
      cases allocated

/-! ## Objects freed -/

/-- A page stays in its place, or goes over to `partial`, when an object is freed that is not its
last one. -/
theorem Place.slabFree (place : Place slab cache page)
    (onPage : pageOf object = page) (some' : (slab.heads page).nrObjs ≠ 0)
    (many : (slab.heads page).nrObjs ≠ 1) :
    ∃ slab', slab.slabFree cache (object - kernelEntry) = some (slab', false) ∧
      Place slab' cache page := by
  have isPage : (object - kernelEntry) / pageBytes = page := onPage
  have others : ¬(slab.heads page).nrObjs - 1 = 0 := by omega
  unfold Slab.slabFree
  simp only [isPage, some', others, if_false, Slab.setPage, Slab.setHead]
  cases place with
  | unlinked partials fulls alone notFull room =>
      have empty : slab.links.listEmpty (.page page) := alone.next
      rw [if_pos empty]
      exact ⟨_, rfl, .unlinked partials fulls alone (by simp) (by simpa using room)⟩
  | onFull partials fulls isFull unchained noRoom =>
      rcases fulls.listDelInit (page_ne_nodeFull page cache) with
        ⟨links₁, removed, fulls₁, alone₁, same₁⟩
      have outside : ¬(SlabNode.nodePartial cache = .nodeFull cache ∨
          SlabNode.nodePartial cache = .page page) := by
        rintro (eq | eq) <;> cases eq
      rcases (partials.congr same₁ outside).listAddTail (page_ne_nodePartial page cache) with
        ⟨links₂, added, partials₂, same₂⟩
      have outside' : ¬(SlabNode.nodeFull cache = .nodePartial cache ∨
          SlabNode.nodeFull cache = .page page) := by
        rintro (eq | eq) <;> cases eq
      rw [if_neg (fulls.not_empty (page_ne_nodeFull page cache).symm),
        if_pos ⟨unchained, isFull⟩, removed]
      simp only [Option.bind_eq_bind, Option.bind_some, added]
      exact ⟨_, rfl, .onPartial partials₂ (fulls₁.congr same₂ outside') (by simp)
        (by simpa using noRoom)⟩
  | onPartial partials fulls notFull noRoom =>
      rw [if_neg (partials.not_empty (page_ne_nodePartial page cache).symm),
        if_neg (fun iffull => iffull.2 notFull)]
      exact ⟨_, rfl, .onPartial partials fulls (by simp) (by simpa using noRoom)⟩

/-- A live object is on the page of its cache, which is the one `kfree` finds. -/
theorem Inv.ofLive (inv : s.Inv) (isLive : object ∈ s.live) :
    ∃ cache, s.slab.cpuPage cache = some (pageOf object) ∧
      (s.slab.pages (pageOf object)).virtual = cache ∧ kernelEntry ≤ object ∧
        (s.slab.heads (pageOf object)).nrObjs ≠ 0 := by
  rcases inv.live object isLive with ⟨cache, hasPage⟩
  rcases inv.page cache _ hasPage with ⟨count, chain, pageInv⟩
  have inPage : object ∈ s.live.filter (pageOf · = pageOf object) := by simpa using isLive
  refine ⟨cache, hasPage, pageInv.owner,
    (pageInv.slots object (List.mem_append_right _ inPage)).isObject, ?_⟩
  rw [pageInv.nrObjs]
  exact Nat.ne_of_gt (List.length_pos_of_mem inPage)

theorem LifeInv.free (life : s.LifeInv) (isLive : object ∈ s.live)
    (many : (s.slab.heads (pageOf object)).nrObjs ≠ 1) {back : Bool}
    (freed : s.slab.slabFree (s.slab.pages (pageOf object)).virtual (object - kernelEntry) =
      some (slab', back)) :
    LifeInv ⟨slab', s.live.erase object,
      if back then s.held.erase (pageOf object) else s.held⟩ := by
  rcases life.inv.ofLive isLive with ⟨cache, hasPage, owner, isObject, some'⟩
  have inv' := inv_free life.inv isLive freed
    (if back then s.held.erase (pageOf object) else s.held)
  rw [owner] at freed
  rcases (life.place cache _ hasPage).slabFree rfl some' many with
    ⟨slab'', freed', place⟩
  rcases slabFree_spec isObject rfl some' (life.inv.group cache _ hasPage) with
    ⟨slab₁, back₁, freed₁, pages, _, cpuPage, heads, _, same⟩
  cases freed.symm.trans freed'
  cases freed₁.symm.trans freed'
  apply life.replace inv' (cpuPage ▸ hasPage) (fun _ _ => by rw [cpuPage]) ?_ same
    (life.isCache cache _ hasPage) (life.held cache _ hasPage) (List.Subset.refl _) life.nodup ?_
    place
  · intro q ne
    rw [pages, heads, Function.update_of_ne ne, Function.update_of_ne ne]
    exact ⟨rfl, rfl⟩
  · rw [heads, Function.update_self]
    change (s.slab.heads (pageOf object)).nrObjs - 1 ≠ 0
    omega

/-! ## Runs -/

theorem LifeInv.step (life : s.LifeInv) {op : SlabOp} (keeps : s.Keeps op) {next : SlabSystem}
    (stepped : s.step op = some next) : next.LifeInv := by
  cases op with
  | alloc cache supply =>
      by_cases supplies : s.Supplies cache supply
      · rw [SlabSystem.step, if_pos supplies] at stepped
        rcases Option.map_eq_some_iff.mp stepped with ⟨⟨object, slab'⟩, allocated, rfl⟩
        rcases alloc_inside life.inv supply (life.fits supplies keeps allocated) supplies.1 with
          ⟨_, _, allocated', _, inv'⟩
        cases allocated.symm.trans allocated'
        cases hasPage : s.slab.cpuPage cache with
        | none =>
            have asks : s.Asks cache := ⟨hasPage, (life.inv.unused_alone hasPage).1.next⟩
            simp only [asks, if_true]
            exact life.allocFirst hasPage supplies allocated (inv' _)
        | some page =>
            have notAsks : ¬s.Asks cache := fun asks =>
              Option.some_ne_none page (hasPage.symm.trans asks.1)
            simp only [notAsks, if_false]
            exact life.allocNext hasPage keeps allocated (inv' _)
      · rw [SlabSystem.step, if_neg supplies] at stepped
        cases stepped
  | free index =>
      simp only [SlabSystem.step, Option.bind_eq_bind, Option.bind_eq_some_iff, Option.some.injEq]
        at stepped
      rcases stepped with ⟨object, isLive, ⟨slab', back⟩, freed, rfl⟩
      exact life.free (List.mem_of_getElem? isLive) (keeps object isLive) freed
  | write index offset value =>
      have fits : s.Fits (.write index offset value) := trivial
      have inv' := inv_step life.inv fits stepped
      simp only [SlabSystem.step, Option.bind_eq_bind, Option.bind_eq_some_iff] at stepped
      rcases stepped with ⟨object, isLive, stepped⟩
      by_cases inObject : offset % 4 = 0 ∧
          offset + 4 ≤ objsize (s.slab.pages (pageOf object)).virtual
      · rw [if_pos inObject] at stepped
        cases stepped
        refine ⟨inv', life.isCache, life.held, life.counted, fun other q hasPage => ?_, life.nodup⟩
        cases life.place other q hasPage with
        | unlinked partials fulls alone notFull room =>
            exact .unlinked partials fulls alone notFull room
        | onFull partials fulls isFull unchained noRoom =>
            exact .onFull partials fulls isFull unchained noRoom
        | onPartial partials fulls notFull noRoom =>
            exact .onPartial partials fulls notFull noRoom
      · rw [if_neg inObject] at stepped
        cases stepped

theorem LifeInv.lifeCycle (life : s.LifeInv) : s.LifeCycle := by
  refine ⟨fun cache => ?_, life.held⟩
  cases hasPage : s.slab.cpuPage cache with
  | none =>
      rcases life.inv.unused_alone hasPage with ⟨partials, fulls⟩
      exact ⟨[], [], partials.isList, fulls.isList, List.nodup_nil,
        fun _ mem => absurd mem List.not_mem_nil⟩
  | some page =>
      rcases life.inv.page cache page hasPage with ⟨_, _, pageInv⟩
      have isOwn : ∀ q ∈ [page], (s.slab.pages q).virtual = cache ∧ q ∈ s.held := by
        intro q mem
        rw [List.mem_singleton.mp mem]
        exact ⟨pageInv.owner, life.held cache page hasPage⟩
      cases life.place cache page hasPage with
      | unlinked partials fulls =>
          exact ⟨[], [], partials.isList, fulls.isList, List.nodup_nil,
            fun _ mem => absurd mem List.not_mem_nil⟩
      | onFull partials fulls =>
          exact ⟨[], [page], partials.isList, fulls.isList, List.nodup_singleton page, isOwn⟩
      | onPartial partials fulls =>
          exact ⟨[page], [], partials.isList, fulls.isList, List.nodup_singleton page, isOwn⟩

/-- A page that is put on `full` while it is on `partial` is on no list any more. -/
theorem LifeInv.twice (life : s.LifeInv) {supply : ℕ} (hasPage : s.slab.cpuPage cache = some page)
    (unchained : (s.slab.pages page).slabp = 0) (notFull : (s.slab.heads page).isFull = 0)
    (linked : ¬s.slab.links.listEmpty (.page page)) :
    ∃ next, s.step (.alloc cache supply) = some next ∧ ¬next.LifeCycle := by
  have notAsks : ¬s.Asks cache := fun asks =>
    Option.some_ne_none page (hasPage.symm.trans asks.1)
  have supplies : s.Supplies cache supply :=
    ⟨life.isCache cache page hasPage, fun asks => absurd asks notAsks⟩
  cases life.place cache page hasPage with
  | unlinked _ _ alone => exact absurd alone.next linked
  | onFull _ _ isFull => exact absurd notFull isFull
  | onPartial partials fulls _ noRoom =>
      rcases partials.listAddTail_other fulls (page_ne_nodeFull page cache)
        (nodePartial_ne_nodeFull cache cache) (page_ne_nodePartial page cache).symm with
        ⟨links', added, noList⟩
      have noRoom' : kmemAddr page + pageBytes ≤
          (s.slab.heads page).endPtr + slabSize cache + slabSize cache :=
        Nat.le_trans noRoom (Nat.le_add_right _ _)
      have allocated : s.slab.slabAlloc cache supply = s.slab.takeEnd cache page := by
        simp only [Slab.slabAlloc, hasPage, unchained, ne_eq, not_true_eq_false, if_false, notFull,
          if_true]
      rw [SlabSystem.step, if_pos supplies, allocated, Slab.takeEnd]
      simp only [if_pos noRoom', added, Option.map_some]
      refine ⟨_, rfl, fun lifeCycle => ?_⟩
      rcases lifeCycle.lists cache with ⟨pages, _, isList, _⟩
      exact noList _ isList

/-- A page whose last object is freed goes back while it is the page of its cache. -/
theorem LifeInv.back (life : s.LifeInv) {index : ℕ} (isLive : s.live[index]? = some object)
    (isLast : (s.slab.heads (pageOf object)).nrObjs = 1) :
    ∃ next, s.step (.free index) = some next ∧ ¬next.LifeCycle := by
  rcases life.inv.ofLive (List.mem_of_getElem? isLive) with
    ⟨cache, hasPage, owner, isObject, some'⟩
  have isPage : (object - kernelEntry) / pageBytes = pageOf object := rfl
  have removes : ∃ links', s.slab.links.listDelInit (.page (pageOf object)) = some links' := by
    cases life.place cache _ hasPage with
    | unlinked _ _ alone => exact alone.listDelInit
    | onFull _ fulls =>
        rcases fulls.listDelInit (page_ne_nodeFull _ _) with ⟨links', removed, _⟩
        exact ⟨links', removed⟩
    | onPartial partials =>
        rcases partials.listDelInit (page_ne_nodePartial _ _) with ⟨links', removed, _⟩
        exact ⟨links', removed⟩
  rcases removes with ⟨links', removed⟩
  have freed : ∃ slab', s.slab.slabFree cache (object - kernelEntry) = some (slab', true) ∧
      slab'.cpuPage = s.slab.cpuPage := by
    simp only [Slab.slabFree, isPage, isLast, Nat.sub_self, if_false, if_true, Slab.setPage,
      Slab.setHead, removed, Option.map_some, Nat.one_ne_zero]
    exact ⟨_, rfl, rfl⟩
  rcases freed with ⟨slab', freed, cpuPage⟩
  simp only [SlabSystem.step, isLive, owner, freed, Option.bind_eq_bind, Option.bind_some]
  refine ⟨_, rfl, fun lifeCycle => ?_⟩
  have stillHeld := lifeCycle.cpuPage cache (pageOf object) (cpuPage ▸ hasPage)
  exact life.nodup.not_mem_erase stillHeld

theorem LifeInv.broken (life : s.LifeInv) {op : SlabOp} (careless : ¬s.Keeps op) :
    ∃ next, s.step op = some next ∧ ¬next.LifeCycle := by
  cases op with
  | alloc cache supply =>
      simp only [Keeps, not_forall] at careless
      rcases careless with ⟨page, hasPage, unchained, notFull, linked⟩
      exact life.twice hasPage unchained notFull linked
  | free index =>
      simp only [Keeps, not_forall, not_not] at careless
      rcases careless with ⟨object, isLive, isLast⟩
      exact life.back isLive isLast
  | write => exact absurd trivial careless

theorem Start.lifeInv (start : Start s) : s.LifeInv where
  inv := start.inv
  isCache := by simp [start.cpuPage]
  held := by simp [start.cpuPage]
  counted := by simp [start.cpuPage]
  place := by simp [start.cpuPage]
  nodup := by simp [start.held]

/-- All along a run the lists are in order and the caches know only pages they have, exactly if
every call of it keeps to that. -/
theorem lifeCycle_iff (start : Start s) (ops : List SlabOp) :
    (∀ n s', TransitionSystem.run SlabSystem.step s (ops.take n) = some s' → s'.LifeCycle) ↔
      GuardedRun SlabSystem.step Keeps s ops :=
  guardedRun_iff (fun _ _ _ life keeps stepped => life.step keeps stepped)
    (fun _ life => life.lifeCycle) (fun _ _ life careless => life.broken careless)
    start.lifeInv ops

/-- Two objects that fill a page, of which the first one is freed and handed out again. -/
def refill : List SlabOp := [.alloc 10 5, .alloc 10 6, .free 1, .alloc 10 6]

theorem lifeCycle_iff_refill :
    ∃ s, TransitionSystem.run SlabSystem.step booted refill = some s ∧ s.LifeCycle := by
  have isRun : (TransitionSystem.run SlabSystem.step booted refill).isSome := by decide +kernel
  rcases Option.isSome_iff_exists.mp isRun with ⟨s, ran⟩
  exact ⟨s, ran, (lifeCycle_iff booted_start refill).mpr (by decide +kernel) 4 s ran⟩

theorem not_lifeCycle_freed : ¬∀ s : SlabSystem, Reach SlabSystem.step Start s → s.LifeCycle := by
  intro always
  have ran : (TransitionSystem.run SlabSystem.step booted [.alloc 2 5, .free 0]).map
      (fun s => (s.slab.cpuPage 2, s.held)) = some (some 5, []) := by decide
  rcases Option.map_eq_some_iff.mp ran with ⟨s, isRun, fields⟩
  have started : Reach SlabSystem.step Start booted := .start booted_start
  have stillHeld := (always s (reach_of_run started isRun)).cpuPage 2 5 (Prod.mk.inj fields).1
  rw [(Prod.mk.inj fields).2] at stillHeld
  exact absurd stillHeld List.not_mem_nil

end SlabSystem

end Ninix.Memory
