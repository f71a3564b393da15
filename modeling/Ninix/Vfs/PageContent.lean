import Mathlib.Data.List.Nodup
import Ninix.Vfs.WriteBack

/-!
# What blocks hold

With the cache of pages in front of the disk, a block holds the data of its page when it has one
in the cache and what is on the disk otherwise. As long as no two pages in the cache are of one
block, finding a page changes what no block holds, whatever is evicted for it.
-/

namespace Ninix.Vfs

namespace PageCache

variable {Data : Type}

/-- A page in the cache is of a block. -/
def Caches (s : PageCache Data) (p sb location : ℕ) (page : VfsPage Data) : Prop :=
  p ∈ s.lru ∧ s.pages p = some page ∧ s.iSb page.pMapping = sb ∧ page.pLocation = location

/-- What a block holds. -/
def Holds (s : PageCache Data) (sb location : ℕ) (data : Data) : Prop :=
  (∃ p page, s.Caches p sb location page ∧ page.pData = data) ∨
    ((∀ p page, ¬s.Caches p sb location page) ∧ s.disk sb location = data)

/-- The cache is in order: pages that are not dirty are the same as their blocks, and no block has
two pages. -/
structure Sound (s : PageCache Data) : Prop where
  linked : Linked s
  noLoss : s.NoLoss
  valid : ∀ p ∈ s.lru, ∀ page, s.pages p = some page → page.pState ≠ .invalid
  own : ∀ p q sb location page other, s.Caches p sb location page →
    s.Caches q sb location other → p = q
  nodup : s.lru.Nodup
  counted : s.cSize = s.lru.length

/-- The pages in the cache of a block of a file are of the file. -/
def Owned (s : PageCache Data) (inode location : ℕ) : Prop :=
  ∀ p page, s.Caches p (s.iSb inode) location page → page.pMapping = inode

/-- The page of a block as `pcache_look_up` finds it, or the block. -/
def pageData (s : PageCache Data) (inode location : ℕ) : Data :=
  (((s.pcacheLookUp location inode).1.bind s.pages).map VfsPage.pData).getD
    (s.disk (s.iSb inode) location)

/-- Nothing has happened to what blocks hold, and to whose pages are in the cache. -/
structure SameContent (s s' : PageCache Data) : Prop where
  iSb : s'.iSb = s.iSb
  holds : ∀ sb location data, s.Holds sb location data → s'.Holds sb location data

section

variable {s s' : PageCache Data} {p : ℕ}

theorem Sound.exists_holds (s : PageCache Data) (sb location : ℕ) :
    ∃ data, s.Holds sb location data := by
  by_cases cached : ∃ p page, s.Caches p sb location page
  · rcases cached with ⟨p, page, caches⟩
    exact ⟨page.pData, Or.inl ⟨p, page, caches, rfl⟩⟩
  · exact ⟨_, Or.inr ⟨fun p page caches => cached ⟨p, page, caches⟩, rfl⟩⟩

theorem Sound.holds_unique (sound : s.Sound) {sb location : ℕ} {data other : Data}
    (holds : s.Holds sb location data) (holds' : s.Holds sb location other) : data = other := by
  rcases holds with ⟨p, page, caches, rfl⟩ | ⟨none, rfl⟩
  · rcases holds' with ⟨q, page', caches', rfl⟩ | ⟨none, _⟩
    · have same := sound.own p q sb location page page' caches caches'
      subst same
      rw [Option.some.inj (caches.2.1.symm.trans caches'.2.1)]
    · exact absurd caches (none p page)
  · rcases holds' with ⟨q, page', caches', _⟩ | ⟨_, rfl⟩
    · exact absurd caches' (none q page')
    · rfl

/-- A block of a file holds the data of the page that a lookup finds. -/
theorem Sound.holds_pageData (sound : s.Sound) {inode location : ℕ}
    (owned : s.Owned inode location) :
    s.Holds (s.iSb inode) location (s.pageData inode location) := by
  unfold pageData
  rcases pcacheLookUp_cases s location inode with
    ⟨p, page, inBucket, alive, rfl, _, rfl, eq⟩ | ⟨missing, eq⟩
  · rw [eq]
    simp only [Option.bind_some, alive, Option.map_some, Option.getD_some]
    exact Or.inl ⟨p, page, ⟨(sound.linked.hashed _ p inBucket).1, alive, rfl, rfl⟩, rfl⟩
  · rw [eq]
    refine Or.inr ⟨fun p page caches => ?_, rfl⟩
    rcases caches with ⟨mem, alive, sb, rfl⟩
    have inBucket := (sound.linked.mem_iff alive).mpr mem
    have isOwner := owned p page ⟨mem, alive, sb, rfl⟩
    exact sound.valid p mem page alive (missing p page inBucket alive rfl isOwner)

/-- What a block of a file holds stays its page data. -/
theorem SameContent.pageData_eq (same : SameContent s s') (sound : s.Sound) (sound' : s'.Sound)
    {inode location : ℕ} (owned : s.Owned inode location) (owned' : s'.Owned inode location) :
    s'.pageData inode location = s.pageData inode location := by
  have before := same.holds _ _ _ (sound.holds_pageData owned)
  have after := sound'.holds_pageData owned'
  rw [same.iSb] at after
  exact sound'.holds_unique after before

/-! ## Making room -/

/-- A page that is written back or intact may be dropped: its block holds its data. -/
theorem Sound.drop (sound : s.Sound) (mem : p ∈ s.lru) {page : VfsPage Data}
    (alive : s.pages p = some page) (clean : page.pData = s.onDisk page) :
    (s.drop p).Sound ∧ SameContent s (s.drop p) := by
  have caches {q sb location : ℕ} {other : VfsPage Data} :
      (s.drop p).Caches q sb location other ↔ s.Caches q sb location other ∧ q ≠ p := by
    by_cases dropped : q = p
    · simp [Caches, mem_drop_lru, dropped]
    · simp [Caches, dropped, PageCache.drop]
  refine ⟨⟨sound.linked.drop, SafeOn.mono sound.noLoss.drop (List.filter_subset_self _),
    fun q inOrder other alive' => ?_, fun q r sb location first second caches' caches'' => ?_,
    sound.nodup.filter _, ?_⟩, rfl, fun sb location data holds => ?_⟩
  · rcases mem_drop_lru.mp inOrder with ⟨inOrder, ne⟩
    exact sound.valid q inOrder other ((drop_pages_of_ne ne).symm.trans alive')
  · exact sound.own q r sb location first second (caches.mp caches').1 (caches.mp caches'').1
  · have fewer : s.lru.filter (· ≠ p) = s.lru.erase p := by
      rw [sound.nodup.erase_eq_filter]
      exact List.filter_congr fun q _ => by by_cases eq : q = p <;> simp [eq]
    change s.cSize - 1 = (s.lru.filter (· ≠ p)).length
    rw [fewer, List.length_erase_of_mem mem, sound.counted]
  · rcases holds with ⟨q, other, isCached, rfl⟩ | ⟨none, rfl⟩
    · by_cases dropped : q = p
      · subst dropped
        cases alive.symm.trans isCached.2.1
        refine Or.inr ⟨fun r another caches' => ?_, ?_⟩
        · rcases caches.mp caches' with ⟨caches', ne⟩
          exact ne (sound.own r q sb location another page caches' isCached)
        · rcases isCached with ⟨_, _, rfl, rfl⟩
          exact clean.symm
      · exact Or.inl ⟨q, other, caches.mpr ⟨isCached, dropped⟩, rfl⟩
    · exact Or.inr ⟨fun q other caches' => none q other (caches.mp caches').1, rfl⟩

/-- A dirty page is written back: nothing changes but the disk below it. -/
theorem Sound.writeBack (sound : s.Sound) (mem : p ∈ s.lru) {page : VfsPage Data}
    (alive : s.pages p = some page) (dirty : page.pState = .dirty) :
    ∃ written, s.writepage p .done = some (false, written) ∧ written.Sound ∧
      SameContent s written ∧ SameLists s written ∧ written.pages p = some { page with pState := .intact } ∧
        page.pData = written.onDisk page ∧ ∀ q, q ≠ p → written.pages q = s.pages q := by
  let written := (s.setPage p { page with pState := .intact }).setBlock (s.iSb page.pMapping)
    page.pLocation page.pData
  have wrote : s.writepage p .done = some (false, written) := by
    simp only [writepage, alive, Option.map_some, dirty]
    rfl
  have same := sameLists_writepage wrote
  have others {q : ℕ} (ne : q ≠ p) : written.pages q = s.pages q := setPage_pages_of_ne ne
  have here : written.pages p = some { page with pState := .intact } := setPage_pages_self _
  have done := writepage_done alive dirty wrote
  -- each page in the cache is one from before, with the same data
  have caches {q sb location : ℕ} {other : VfsPage Data}
      (caches : written.Caches q sb location other) :
      ∃ old, s.Caches q sb location old ∧ old.pData = other.pData ∧
        (old.pState ≠ .invalid → other.pState ≠ .invalid) := by
    rcases caches with ⟨inOrder, alive', sb, location⟩
    by_cases isPage : q = p
    · subst isPage
      cases here.symm.trans alive'
      exact ⟨page, ⟨inOrder, alive, sb, location⟩, rfl, fun _ => by simp⟩
    · exact ⟨other, ⟨inOrder, (others isPage).symm.trans alive', sb, location⟩, rfl, id⟩
  have writeSafe : s.WriteSafe s.lru p .done := by
    intro page' alive' _ q inOrder other isOther sb location _
    have samePage := sound.own q p _ _ other page' ⟨inOrder, isOther, sb, location⟩
      ⟨mem, alive', rfl, rfl⟩
    subst samePage
    rw [Option.some.inj (isOther.symm.trans alive')]
    rfl
  refine ⟨written, wrote, ⟨sound.linked.of_sameLists same, ?_, fun q inOrder other alive' => ?_,
    fun q r sb location first second caches' caches'' => ?_, sound.nodup, sound.counted⟩,
    ⟨rfl, fun sb location data holds => ?_⟩, same, here, done.2.1.symm, fun q => others⟩
  · exact SafeOn.writepage sound.noLoss writeSafe wrote
  · rcases caches ⟨inOrder, alive', rfl, rfl⟩ with ⟨old, ⟨_, wasAlive, _⟩, _, valid⟩
    exact valid (sound.valid q inOrder old wasAlive)
  · rcases caches caches' with ⟨old, was, _⟩
    rcases caches caches'' with ⟨old', was', _⟩
    exact sound.own q r sb location old old' was was'
  · rcases holds with ⟨q, other, ⟨inOrder, isOther, sb, location⟩, rfl⟩ | ⟨none, rfl⟩
    · by_cases isPage : q = p
      · subst isPage
        cases alive.symm.trans isOther
        exact Or.inl ⟨q, _, ⟨inOrder, here, sb, location⟩, rfl⟩
      · exact Or.inl ⟨q, other, ⟨inOrder, (others isPage).trans isOther, sb, location⟩, rfl⟩
    · refine Or.inr ⟨fun q other isCached => ?_, ?_⟩
      · rcases caches isCached with ⟨old, was, _⟩
        exact none q old was
      · have block : ¬(sb = s.iSb page.pMapping ∧ location = page.pLocation) := fun eq =>
          none p page ⟨mem, alive, eq.1.symm, eq.2.symm⟩
        simp only [written, setBlock, setPage, Function.update_apply]
        split_ifs <;> simp_all

/-- The oldest page of a full cache is evicted. -/
theorem Sound.evict (sound : s.Sound) (full : s.cSize = cacheCapacity) :
    ∃ delpage deleted, s.lru.head? = some delpage ∧
      s.pcacheDel delpage .done = some (false, deleted) ∧ deleted.Sound ∧
      SameContent s deleted ∧ (∀ q, q ≠ delpage → deleted.pages q = s.pages q) ∧
      deleted.lru = s.lru.filter (· ≠ delpage) ∧ deleted.unused = s.unused := by
  cases lru : s.lru with
  | nil =>
      rw [sound.counted, lru] at full
      exact absurd full (by decide)
  | cons delpage rest =>
      have mem : delpage ∈ s.lru := lru ▸ List.mem_cons_self
      rcases sound.linked.ordered delpage mem with ⟨page, alive, _⟩
      have valid := sound.valid delpage mem page alive
      cases state : page.pState with
      | invalid => exact absurd state valid
      | intact =>
          have clean : page.pData = s.onDisk page := by
            by_contra differs
            rw [sound.noLoss delpage mem page alive differs] at state
            cases state
          have deletes : s.pcacheDel delpage .done = some (false, s.drop delpage) := by
            simp [pcacheDel, writepage, alive, state]
          rcases sound.drop mem alive clean with ⟨kept, same⟩
          exact ⟨delpage, _, rfl, deletes, kept, same, fun q => drop_pages_of_ne, lru ▸ rfl, rfl⟩
      | dirty =>
          rcases sound.writeBack mem alive state with
            ⟨written, wrote, kept, same, sameLists, here, clean, others⟩
          have deletes : s.pcacheDel delpage .done = some (false, written.drop delpage) := by
            simp [pcacheDel, wrote, alive, state]
          rcases kept.drop (sameLists.lru ▸ mem) here clean with ⟨dropped, same'⟩
          refine ⟨delpage, _, rfl, deletes, dropped,
            ⟨same'.iSb.trans same.iSb, fun sb location data holds =>
              same'.holds sb location data (same.holds sb location data holds)⟩,
            fun q ne => (drop_pages_of_ne ne).trans (others q ne), ?_, sameLists.unused⟩
          exact lru ▸ congrArg (List.filter (· ≠ delpage)) sameLists.lru

/-! ## Finding a page -/

/-- A page with the data of its block may be added when no page of the block is there. -/
theorem Sound.link (sound : s.Sound) {page : VfsPage Data} (alive : s.pages p = some page)
    (new : p ∉ s.lru) (clean : page.pData = s.onDisk page) (valid : page.pState ≠ .invalid)
    (none : ∀ q other, ¬s.Caches q (s.iSb page.pMapping) page.pLocation other) :
    (s.link p page.pLocation).Sound ∧ SameContent s (s.link p page.pLocation) := by
  have caches {q sb location : ℕ} {other : VfsPage Data} :
      (s.link p page.pLocation).Caches q sb location other ↔ s.Caches q sb location other ∨
        (q = p ∧ other = page ∧ s.iSb page.pMapping = sb ∧ page.pLocation = location) := by
    constructor
    · rintro ⟨inOrder, isPage, sb, location⟩
      rcases mem_link_lru.mp inOrder with inOrder | rfl
      · exact Or.inl ⟨inOrder, isPage, sb, location⟩
      · cases alive.symm.trans isPage
        exact Or.inr ⟨rfl, rfl, sb, location⟩
    · rintro (⟨inOrder, isPage, sb, location⟩ | ⟨rfl, rfl, sb, location⟩)
      · exact ⟨mem_link_lru.mpr (Or.inl inOrder), isPage, sb, location⟩
      · exact ⟨mem_link_lru.mpr (Or.inr rfl), alive, sb, location⟩
  refine ⟨⟨sound.linked.link alive, sound.noLoss.append alive clean,
    fun q inOrder other isPage => ?_, fun q r sb location first second isFirst isSecond => ?_,
    ?_, ?_⟩, rfl, fun sb location data holds => ?_⟩
  · rcases caches.mp ⟨inOrder, isPage, rfl, rfl⟩ with ⟨inOrder, isPage, _⟩ | ⟨_, rfl, _⟩
    · exact sound.valid q inOrder other isPage
    · exact valid
  · rcases caches.mp isFirst with wasFirst | ⟨rfl, rfl, rfl, rfl⟩
    · rcases caches.mp isSecond with wasSecond | ⟨rfl, rfl, rfl, rfl⟩
      · exact sound.own q r sb location first second wasFirst wasSecond
      · exact absurd wasFirst (none q first)
    · rcases caches.mp isSecond with wasSecond | ⟨rfl, _⟩
      · exact absurd wasSecond (none r second)
      · rfl
  · exact List.Nodup.append sound.nodup (List.nodup_singleton p) (by simpa using new)
  · simp [PageCache.link, sound.counted]
  · rcases holds with ⟨q, other, isCached, rfl⟩ | ⟨free, rfl⟩
    · exact Or.inl ⟨q, other, caches.mpr (Or.inl isCached), rfl⟩
    · by_cases block : s.iSb page.pMapping = sb ∧ page.pLocation = location
      · rcases block with ⟨rfl, rfl⟩
        exact Or.inl ⟨p, page, caches.mpr (Or.inr ⟨rfl, rfl, rfl, rfl⟩), clean⟩
      · refine Or.inr ⟨fun q other isCached => ?_, rfl⟩
        rcases caches.mp isCached with isCached | ⟨_, rfl, same⟩
        · exact free q other isCached
        · exact block same

/-- A new page that is not in the cache yet changes nothing. -/
theorem Sound.allocPage (sound : s.Sound) (page : VfsPage Data) :
    (s.allocPage page).2.Sound ∧ SameContent s (s.allocPage page).2 ∧
      ∀ q sb location other, (s.allocPage page).2.Caches q sb location other ↔
        s.Caches q sb location other := by
  have caches {q sb location : ℕ} {other : VfsPage Data} :
      (s.allocPage page).2.Caches q sb location other ↔ s.Caches q sb location other := by
    refine and_congr_right fun inOrder => ?_
    have old : q ≠ s.unused := fun eq => sound.linked.unused_not_mem (eq ▸ inOrder)
    rw [allocPage_pages_of_ne old]
    rfl
  refine ⟨⟨sound.linked.allocPage page, SafeOn.allocPage sound.linked sound.noLoss page,
    fun q inOrder other isPage => ?_, fun q r sb location first second isFirst isSecond => ?_,
    sound.nodup, sound.counted⟩, ⟨rfl, fun sb location data holds => ?_⟩, fun _ _ _ _ => caches⟩
  · have was := caches.mp ⟨inOrder, isPage, rfl, rfl⟩
    exact sound.valid q was.1 other was.2.1
  · exact sound.own q r sb location first second (caches.mp isFirst) (caches.mp isSecond)
  · rcases holds with ⟨q, other, isCached, rfl⟩ | ⟨none, rfl⟩
    · exact Or.inl ⟨q, other, caches.mpr isCached, rfl⟩
    · exact Or.inr ⟨fun q other isCached => none q other (caches.mp isCached), rfl⟩

/-- Such a page is added, whether the oldest page is evicted for it or not. -/
theorem Sound.addPage (sound : s.Sound) {page : VfsPage Data} (alive : s.pages p = some page)
    (new : p ∉ s.lru) (clean : page.pData = s.onDisk page) (valid : page.pState ≠ .invalid)
    (none : ∀ q other, ¬s.Caches q (s.iSb page.pMapping) page.pLocation other) (inode : ℕ) :
    ∃ s', s.addPage p inode page.pLocation .done = some s' ∧ s'.Sound ∧ SameContent s s' ∧
      s'.Caches p (s.iSb page.pMapping) page.pLocation page ∧
        ∀ q sb location other, s'.Caches q sb location other →
          other = page ∨ s.Caches q sb location other := by
  let listed : PageCache Data :=
    { s with aCache := Function.update s.aCache inode (p :: s.aCache inode) }
  have soundListed : listed.Sound :=
    ⟨⟨sound.linked.ordered, sound.linked.hashed, sound.linked.allocated⟩, sound.noLoss,
      sound.valid, sound.own, sound.nodup, sound.counted⟩
  have backTo {room : PageCache Data} (pages : ∀ q ∈ room.lru, room.pages q = s.pages q)
      (fewer : ∀ q ∈ room.lru, q ∈ s.lru) (iSb : room.iSb = s.iSb)
      (isPage : room.pages p = some page) {q sb location : ℕ} {other : VfsPage Data}
      (isCached : (room.link p page.pLocation).Caches q sb location other) :
      other = page ∨ s.Caches q sb location other := by
    rcases isCached with ⟨inOrder, isOther, rfl, rfl⟩
    rcases mem_link_lru.mp inOrder with inOrder | rfl
    · exact Or.inr ⟨fewer q inOrder, (pages q inOrder).symm.trans isOther,
        congrFun iSb.symm _, rfl⟩
    · exact Or.inl (Option.some.inj (isOther.symm.trans isPage))
  by_cases full : s.cSize = cacheCapacity
  · rcases soundListed.evict full with
      ⟨delpage, deleted, isHead, dels, kept, same, others, lru, _⟩
    have victim : delpage ∈ s.lru := List.mem_of_mem_head? isHead
    have notVictim : p ≠ delpage := fun eq => new (eq ▸ victim)
    have alive' : deleted.pages p = some page := (others p notVictim).trans alive
    have fewer (q : ℕ) (inOrder : q ∈ deleted.lru) : q ∈ s.lru ∧ q ≠ delpage := by
      rw [lru] at inOrder
      simpa [listed] using inOrder
    have iSb : deleted.iSb = s.iSb := same.iSb
    have none' (q : ℕ) (other : VfsPage Data) :
        ¬deleted.Caches q (deleted.iSb page.pMapping) page.pLocation other := by
      rintro ⟨inOrder, isOther, sb, location⟩
      rw [others q (fewer q inOrder).2] at isOther
      rw [iSb] at sb
      exact none q other ⟨(fewer q inOrder).1, isOther, sb, location⟩
    have clean' : page.pData = deleted.onDisk page := by
      have before : listed.Holds (s.iSb page.pMapping) page.pLocation page.pData :=
        Or.inr ⟨none, clean.symm⟩
      rcases same.holds _ _ _ before with ⟨q, other, isCached, _⟩ | ⟨_, onDisk⟩
      · exact absurd (iSb ▸ isCached) (none' q other)
      · rw [PageCache.onDisk, iSb, onDisk]
    rcases kept.link alive' (fun inOrder => new (fewer p inOrder).1) clean' valid none' with
      ⟨linked, same'⟩
    have adds : s.addPage p inode page.pLocation .done =
        some (deleted.link p page.pLocation) := by
      change (listed.pcacheAdd p page.pLocation .done).map (·.2) = _
      rw [pcacheAdd, if_pos full, isHead, Option.bind_some, dels]
      rfl
    refine ⟨_, adds, linked, ⟨same'.iSb.trans iSb, fun sb location data holds =>
      same'.holds sb location data (same.holds sb location data holds)⟩,
      ⟨mem_link_lru.mpr (Or.inr rfl), alive', congrFun iSb _, rfl⟩, fun q sb location other =>
      backTo (fun q inOrder => others q (fewer q inOrder).2) (fun q inOrder => (fewer q inOrder).1)
        iSb alive'⟩
  · rcases soundListed.link alive new clean valid none with ⟨linked, same⟩
    have adds : s.addPage p inode page.pLocation .done =
        some (listed.link p page.pLocation) := by
      change (listed.pcacheAdd p page.pLocation .done).map (·.2) = _
      rw [pcacheAdd, if_neg full]
      rfl
    exact ⟨_, adds, linked, ⟨rfl, same.holds⟩, ⟨mem_link_lru.mpr (Or.inr rfl), alive, rfl, rfl⟩,
      fun q sb location other => backTo (fun _ _ => rfl) (fun _ => id) rfl alive⟩

/-- A page that is used moves to the end of the order. -/
theorem Sound.moved (sound : s.Sound) (mem : p ∈ s.lru) :
    Sound { s with lru := s.lru.filter (· ≠ p) ++ [p] } ∧
      SameContent s { s with lru := s.lru.filter (· ≠ p) ++ [p] } ∧
        ∀ q sb location other, Caches { s with lru := s.lru.filter (· ≠ p) ++ [p] } q sb location
          other ↔ s.Caches q sb location other := by
  have same {q : ℕ} : q ∈ s.lru.filter (· ≠ p) ++ [p] ↔ q ∈ s.lru := by
    by_cases eq : q = p
    · simp [eq, mem]
    · simp [eq]
  have perm : (s.lru.filter (· ≠ p) ++ [p]).Nodup :=
    List.Nodup.append (sound.nodup.filter _) (List.nodup_singleton p) (by simp)
  have caches {q sb location : ℕ} {other : VfsPage Data} :
      Caches { s with lru := s.lru.filter (· ≠ p) ++ [p] } q sb location other ↔
        s.Caches q sb location other := and_congr_left fun _ => same
  have length : (s.lru.filter (· ≠ p) ++ [p]).length = s.lru.length :=
    ((List.perm_ext_iff_of_nodup perm sound.nodup).mpr fun _ => same).length_eq
  refine ⟨⟨sound.linked.moved mem, fun q inOrder => sound.noLoss q (same.mp inOrder),
    fun q inOrder => sound.valid q (same.mp inOrder), fun q r sb location first second isFirst
      isSecond => ?_, perm, sound.counted.trans length.symm⟩, ⟨rfl, fun sb location data holds => ?_⟩,
    fun _ _ _ _ => caches⟩
  · exact sound.own q r sb location first second (caches.mp isFirst) (caches.mp isSecond)
  · rcases holds with ⟨q, other, isCached, rfl⟩ | ⟨none, rfl⟩
    · exact Or.inl ⟨q, other, caches.mpr isCached, rfl⟩
    · exact Or.inr ⟨fun q other isCached => none q other (caches.mp isCached), rfl⟩

/-- Finding a page of a file, with memory and without a failing read or write, gives a page with
what its block holds, and changes what no block holds. -/
theorem Sound.generalFindPage (sound : s.Sound) {pageNo inode : ℕ}
    (owned : s.Owned inode pageNo) : ∃ p page s',
      s.generalFindPage pageNo inode true .done = some (some p, s') ∧ s'.Sound ∧
        SameContent s s' ∧ s'.Caches p (s.iSb inode) pageNo page ∧ page.pMapping = inode ∧
          page.pData = s.pageData inode pageNo ∧
            ∀ location, s.Owned inode location → s'.Owned inode location := by
  rcases pcacheLookUp_cases s pageNo inode with
    ⟨p, page, inBucket, alive, rfl, _, rfl, eq⟩ | ⟨missing, eq⟩
  · rcases sound.moved (sound.linked.hashed _ p inBucket).1 with ⟨kept, same, caches⟩
    refine ⟨p, page, _, by rw [PageCache.generalFindPage, eq], kept, same,
      (caches p _ _ page).mpr ⟨(sound.linked.hashed _ p inBucket).1, alive, rfl, rfl⟩, rfl, ?_,
      fun location ownedThere q other isCached => ownedThere q other ((caches ..).mp isCached)⟩
    simp [pageData, eq, alive]
  · let page : VfsPage Data := ⟨s.disk (s.iSb inode) pageNo, .intact, inode, pageNo⟩
    have data : page.pData = s.pageData inode pageNo := by
      simp [pageData, eq, page]
    rcases sound.allocPage page with ⟨allocated, sameAlloc, cachesAlloc⟩
    have alive : (s.allocPage page).2.pages s.unused = some page := allocPage_pages page
    have none (q : ℕ) (other : VfsPage Data) : ¬s.Caches q (s.iSb inode) pageNo other := by
      rintro ⟨inOrder, isPage, sb, rfl⟩
      have isOwner := owned q other ⟨inOrder, isPage, sb, rfl⟩
      exact sound.valid q inOrder other isPage
        (missing q other ((sound.linked.mem_iff isPage).mpr inOrder) isPage rfl isOwner)
    rcases allocated.addPage alive sound.linked.unused_not_mem rfl (by simp [page])
      (fun q other isCached => none q other ((cachesAlloc ..).mp isCached)) inode with
      ⟨s', adds, kept, same, isCached, back⟩
    refine ⟨s.unused, page, s', ?_, kept, ⟨same.iSb.trans sameAlloc.iSb, fun sb location data
      holds => same.holds sb location data (sameAlloc.holds sb location data holds)⟩, isCached,
      rfl, data, fun location ownedThere q other isCached => ?_⟩
    · rw [PageCache.generalFindPage, eq]
      simp only [if_true]
      exact congrArg (Option.map fun s => (some (PageCache.unused _), s)) adds
    · rcases back q _ _ other isCached with rfl | isCached
      · rfl
      · rw [same.iSb] at isCached
        exact ownedThere q other ((cachesAlloc ..).mp isCached)

/-- Data put in a page is what its block holds; other blocks are as before. -/
theorem Sound.modify (sound : s.Sound) {sb location : ℕ} {page : VfsPage Data}
    (isCached : s.Caches p sb location page) (data : Data) :
    ∃ s', s.modify p data = some s' ∧ s'.Sound ∧ s'.iSb = s.iSb ∧ s'.Holds sb location data ∧
      (∀ sb' location' data', (sb', location') ≠ (sb, location) →
        s.Holds sb' location' data' → s'.Holds sb' location' data') ∧
        ∀ inode location, s.Owned inode location → s'.Owned inode location := by
  rcases isCached with ⟨mem, alive, rfl, rfl⟩
  have modifies : s.modify p data =
      some (s.setPage p { page with pData := data, pState := .dirty }) := by
    rw [PageCache.modify, alive]
    rfl
  generalize changed : s.setPage p { page with pData := data, pState := .dirty } = s' at modifies
  have same := sameLists_modify modifies
  have here : s'.pages p = some { page with pData := data, pState := .dirty } :=
    changed ▸ setPage_pages_self _
  have others {q : ℕ} (ne : q ≠ p) : s'.pages q = s.pages q :=
    changed ▸ setPage_pages_of_ne ne
  have caches {q sb location : ℕ} {other : VfsPage Data}
      (isCached : s'.Caches q sb location other) :
      ∃ old, s.Caches q sb location old ∧ old.pMapping = other.pMapping ∧
        (old = other ∨ q = p ∧ other.pState = .dirty) := by
    rcases isCached with ⟨inOrder, isPage, sb, location⟩
    rw [same.lru] at inOrder
    rw [same.iSb] at sb
    by_cases isChanged : q = p
    · subst isChanged
      cases here.symm.trans isPage
      exact ⟨page, ⟨inOrder, alive, sb, location⟩, rfl, Or.inr ⟨rfl, rfl⟩⟩
    · exact ⟨other, ⟨inOrder, (others isChanged).symm.trans isPage, sb, location⟩, rfl, Or.inl rfl⟩
  refine ⟨s', modifies, ⟨sound.linked.of_sameLists same, sound.noLoss.modify modifies,
    fun q inOrder other isPage => ?_, fun q r sb location first second isFirst isSecond => ?_,
    same.lru ▸ sound.nodup, ?_⟩, same.iSb, ?_, fun sb location data' ne holds => ?_,
    fun inode location owned q other isCached => ?_⟩
  · rcases caches ⟨inOrder, isPage, rfl, rfl⟩ with ⟨old, was, _, rfl | ⟨_, dirty⟩⟩
    · exact sound.valid q was.1 old was.2.1
    · rw [dirty]
      simp
  · rcases caches isFirst with ⟨old, was, _⟩
    rcases caches isSecond with ⟨old', was', _⟩
    exact sound.own q r sb location old old' was was'
  · rw [same.cSize, same.lru]
    exact sound.counted
  · exact Or.inl ⟨p, _, ⟨same.lru ▸ mem, here, congrFun same.iSb _, rfl⟩, rfl⟩
  · rcases holds with ⟨q, other, ⟨inOrder, isPage, rfl, rfl⟩, rfl⟩ | ⟨none, rfl⟩
    · by_cases isChanged : q = p
      · subst isChanged
        cases alive.symm.trans isPage
        exact absurd rfl ne
      · exact Or.inl ⟨q, other, ⟨same.lru ▸ inOrder, (others isChanged).trans isPage,
          congrFun same.iSb _, rfl⟩, rfl⟩
    · refine Or.inr ⟨fun q other isCached => ?_, ?_⟩
      · rcases caches isCached with ⟨old, was, _⟩
        exact none q old was
      · rw [← changed]
        rfl
  · rw [same.iSb] at isCached
    rcases caches isCached with ⟨old, was, mapping, _⟩
    exact mapping ▸ owned q old was

/-- The cache is in order when it is set up. -/
theorem sound_initCache (iSb : ℕ → ℕ) (disk : ℕ → ℕ → Data) : (initCache iSb disk).Sound :=
  ⟨linked_initCache iSb disk, fun _ mem => absurd mem (by simp [initCache]),
    fun _ mem => absurd mem (by simp [initCache]),
    fun _ _ _ _ _ _ isFirst => absurd isFirst.1 (by simp [initCache]), List.nodup_nil, rfl⟩

end

end PageCache

end Ninix.Vfs
