import Ninix.Fat32.Deletion

/-!
# Where a slot of a directory lies

`read_dr`, `write_dr` and `fat32_delete_direntry` take `DIRENTRY_LEN`, the number of bytes of an
entry, for the number of entries of a cluster. A cluster of two sectors has as many entries; in
clusters of another size the three come to the right place only in the first cluster.
-/

namespace Ninix.Fat32

open ByteBuffer Vfs

/-- `write_dr`, and whether it fails. `none` follows a null pointer or leaves the page. -/
def writeDrIo (pageSize host : ℕ) (inode : Inode) (io : ℕ → SlotIo) (i : ℕ) (dr : Bytes)
    (cache : PageCache Bytes) : Option (Bool × PageCache Bytes) :=
  match inode.aPage[i / 32]? with
  | none => some (true, cache)
  | some ppn =>
      (cache.generalFindPage ppn host (io i).ready (io i).evict).bind fun
        | (none, _) => none
        | (some p, cache) =>
            (cache.pages p).bind fun page =>
              if i % 32 * 32 + 32 ≤ pageSize then
                (cache.modify p (blit page.pData (i % 32 * 32) dr 0 32)).bind fun cache =>
                  cache.writepage p (io i).write
              else none

/-- Memory suffices, and blocks are read and written. -/
def goodIo (_ : ℕ) : SlotIo := ⟨true, .done, .done⟩

/-- A byte of the clusters of a directory, one behind the other in the order of the chain. -/
def dirByte (pageSize host : ℕ) (inode : Inode) (cache : PageCache Bytes) (p : ℕ) :
    Option UInt8 :=
  (inode.aPage[p / pageSize]?).map fun ppn => cache.pageData host ppn (p % pageSize)

/-- The cache is in order, and the clusters of the directory are in it for no other file. -/
structure Serves (cache : PageCache Bytes) (host : ℕ) (inode : Inode) : Prop where
  sound : cache.Sound
  owned : ∀ clst ∈ inode.aPage, cache.Owned host clst

/-- A slot that lies in the clusters of the directory is read, written and marked at its place,
and for one that lies behind them errors are reported. -/
structure IndexesSlot (pageSize host : ℕ) (inode : Inode) (i : ℕ) : Prop where
  reads : 32 * (i + 1) ≤ inode.iBlocks * pageSize → ∀ cache, Serves cache host inode →
    ∃ dr cache', readDrIo pageSize host inode goodIo i cache = some (some dr, cache') ∧
      (∀ j : Fin 32, (dirByte pageSize host inode cache (32 * i + j)).map UInt8.toNat =
        some (dr j)) ∧
      ∀ p, dirByte pageSize host inode cache' p = dirByte pageSize host inode cache p
  writes : 32 * (i + 1) ≤ inode.iBlocks * pageSize → ∀ cache, Serves cache host inode → ∀ dr,
    ∃ cache', writeDrIo pageSize host inode goodIo i dr cache = some (false, cache') ∧
      ∀ p, dirByte pageSize host inode cache' p = if 32 * i ≤ p ∧ p < 32 * i + 32 then
        some (dr (p - 32 * i)) else dirByte pageSize host inode cache p
  deletes : 32 * (i + 1) ≤ inode.iBlocks * pageSize → ∀ cache, Serves cache host inode →
    ∃ cache', deleteDirentryIo pageSize host inode goodIo 1 i cache = some (true, cache') ∧
      ∀ p, dirByte pageSize host inode cache' p = if p = 32 * i then some 0xe5
        else dirByte pageSize host inode cache p
  reports : inode.iBlocks * pageSize < 32 * (i + 1) → ∀ cache, Serves cache host inode →
    readDrIo pageSize host inode goodIo i cache = some (none, cache) ∧
      ∀ dr, writeDrIo pageSize host inode goodIo i dr cache = some (true, cache)

section

variable {host s i ppn : ℕ} {inode : Inode} {cache cache' : PageCache Bytes}

/-! ## The place that is computed -/

/-- The page and the place in it are those of the slot. -/
def Hits (s i : ℕ) : Prop := 32 * i / (512 * s) = i / 32 ∧ 32 * i % (512 * s) = i % 32 * 32

theorem hits_iff (positive : 0 < s) : Hits s i ↔ s = 2 ∨ (i < 32 ∧ i < 16 * s) := by
  have page : 32 * i / (512 * s) = i / (16 * s) := by
    rw [show 512 * s = 32 * (16 * s) by omega]
    exact Nat.mul_div_mul_left i (16 * s) (by decide)
  have place : 32 * i % (512 * s) = 32 * (i % (16 * s)) := by
    rw [show 512 * s = 32 * (16 * s) by omega]
    exact Nat.mul_mod_mul_left 32 i (16 * s)
  unfold Hits
  rw [page, place]
  constructor
  · rintro ⟨samePage, samePlace⟩
    have bySlots := Nat.div_add_mod i (16 * s)
    have byEntries := Nat.div_add_mod i 32
    have sameRest : i % (16 * s) = i % 32 := by omega
    rw [samePage, sameRest] at bySlots
    by_cases first : i / 32 = 0
    · right
      have small : i % (16 * s) < 16 * s := Nat.mod_lt _ (by omega)
      rw [sameRest] at small
      omega
    · left
      have same : 16 * s * (i / 32) = 32 * (i / 32) := by omega
      have size := Nat.eq_of_mul_eq_mul_right (Nat.pos_of_ne_zero first) same
      omega
  · rintro (rfl | ⟨below, inside⟩)
    · omega
    · rw [Nat.div_eq_of_lt inside, Nat.mod_eq_of_lt inside, Nat.div_eq_of_lt below,
        Nat.mod_eq_of_lt below, Nat.mul_comm]
      exact ⟨rfl, rfl⟩

/-- The bytes of a slot lie in one cluster. -/
theorem slot_byte {j : ℕ} (positive : 0 < s) (lt : j < 32) :
    (32 * i + j) / (512 * s) = 32 * i / (512 * s) ∧
      (32 * i + j) % (512 * s) = 32 * i % (512 * s) + j := by
  have place : 32 * i % (512 * s) = 32 * (i % (16 * s)) := by
    rw [show 512 * s = 32 * (16 * s) by omega]
    exact Nat.mul_mod_mul_left 32 i (16 * s)
  have small : i % (16 * s) < 16 * s := Nat.mod_lt _ (by omega)
  have fits : 32 * i % (512 * s) + j < 512 * s := by omega
  have split : 32 * i + j = 512 * s * (32 * i / (512 * s)) + (32 * i % (512 * s) + j) := by
    rw [← Nat.add_assoc, Nat.div_add_mod]
  constructor
  · rw [split, Nat.mul_add_div (by omega), Nat.div_eq_of_lt fits, Nat.add_zero]
  · rw [split, Nat.mul_add_mod, Nat.mod_eq_of_lt fits]

/-! ## Pages of the directory -/

/-- The page of a cluster is found with what the cluster holds. -/
theorem Serves.find (serves : Serves cache host inode) (mem : ppn ∈ inode.aPage) :
    ∃ p cache' page, cache.generalFindPage ppn host true .done = some (some p, cache') ∧
      cache'.Caches p (cache'.iSb host) ppn page ∧ page.pMapping = host ∧
        page.pData = cache.pageData host ppn ∧ Serves cache' host inode ∧
          ∀ clst ∈ inode.aPage, cache'.pageData host clst = cache.pageData host clst := by
  rcases serves.sound.generalFindPage (serves.owned ppn mem) with
    ⟨p, page, cache', found, sound, same, isCached, isHost, data, owned⟩
  rw [← same.iSb] at isCached
  refine ⟨p, cache', page, found, isCached, isHost, data,
    ⟨sound, fun clst isCluster => owned clst (serves.owned clst isCluster)⟩, ?_⟩
  intro clst isCluster
  exact same.pageData_eq serves.sound sound (serves.owned clst isCluster)
    (owned clst (serves.owned clst isCluster))

/-- A page is changed and written back; what the other clusters hold stays. -/
theorem Serves.change (serves : Serves cache host inode) (mem : ppn ∈ inode.aPage) {p : ℕ}
    {page : VfsPage Bytes} (isCached : cache.Caches p (cache.iSb host) ppn page) (data : Bytes) :
    ∃ mid cache', cache.modify p data = some mid ∧ mid.writepage p .done = some (false, cache') ∧
      Serves cache' host inode ∧ ∀ clst ∈ inode.aPage, cache'.pageData host clst =
        if clst = ppn then data else cache.pageData host clst := by
  rcases serves.sound.modify isCached data with
    ⟨mid, modified, soundMid, iSbMid, holdsMid, othersMid, ownedMid⟩
  have alive : mid.pages p = some { page with pData := data, pState := .dirty } := by
    rw [PageCache.modify, isCached.2.1] at modified
    cases modified
    exact PageCache.setPage_pages_self _
  have inOrder : p ∈ mid.lru := by
    rw [(PageCache.sameLists_modify modified).lru]
    exact isCached.1
  rcases soundMid.writeBack inOrder alive rfl with
    ⟨cache', wrote, sound, same, lists, here, _, others⟩
  have owned (clst : ℕ) (isCluster : clst ∈ inode.aPage) : cache'.Owned host clst := by
    rintro q other ⟨there, isPage, sb, location⟩
    have wasOwned := ownedMid host clst (serves.owned clst isCluster)
    rw [lists.lru] at there
    rw [same.iSb] at sb
    by_cases isChanged : q = p
    · subst isChanged
      cases here.symm.trans isPage
      exact wasOwned q { page with pData := data, pState := .dirty } ⟨there, alive, sb, location⟩
    · exact wasOwned q other ⟨there, (others q isChanged).symm.trans isPage, sb, location⟩
  refine ⟨mid, cache', modified, wrote, ⟨sound, owned⟩, fun clst isCluster => ?_⟩
  have after := sound.holds_pageData (owned clst isCluster)
  rw [same.iSb, iSbMid] at after
  split
  · rename_i isChanged
    subst isChanged
    exact sound.holds_unique after (same.holds _ _ _ holdsMid)
  · rename_i isOther
    have before := serves.sound.holds_pageData (serves.owned clst isCluster)
    have ne : (cache.iSb host, clst) ≠ (cache.iSb host, ppn) := fun eq =>
      isOther (Prod.mk.inj eq).2
    exact sound.holds_unique after (same.holds _ _ _ (othersMid _ _ _ ne before))

theorem dirByte_congr {pageSize : ℕ}
    (same : ∀ clst ∈ inode.aPage, cache'.pageData host clst = cache.pageData host clst) (p : ℕ) :
    dirByte pageSize host inode cache' p = dirByte pageSize host inode cache p := by
  unfold dirByte
  cases cluster : inode.aPage[p / pageSize]? with
  | none => rfl
  | some ppn => rw [Option.map_some, Option.map_some, same ppn (List.mem_of_getElem? cluster)]

/-- A change of one page is seen in the bytes of its cluster. -/
theorem dirByte_change {pageSize vpn : ℕ} {data : Bytes} (nodup : inode.aPage.Nodup)
    (cluster : inode.aPage[vpn]? = some ppn)
    (changed : ∀ clst ∈ inode.aPage, cache'.pageData host clst =
      if clst = ppn then data else cache.pageData host clst) (p : ℕ) :
    dirByte pageSize host inode cache' p = if p / pageSize = vpn then some (data (p % pageSize))
      else dirByte pageSize host inode cache p := by
  unfold dirByte
  cases other : inode.aPage[p / pageSize]? with
  | none =>
      have ne : p / pageSize ≠ vpn := fun eq => by
        rw [eq, cluster] at other
        cases other
      rw [if_neg ne, Option.map_none, Option.map_none]
  | some clst =>
      rw [Option.map_some, Option.map_some, changed clst (List.mem_of_getElem? other)]
      by_cases same : p / pageSize = vpn
      · rw [same, cluster] at other
        cases other
        rw [if_pos rfl, if_pos same]
      · have apart : clst ≠ ppn := fun eq => by
          rcases List.getElem?_eq_some_iff.mp cluster with ⟨lt, atVpn⟩
          rcases List.getElem?_eq_some_iff.mp other with ⟨lt', atPage⟩
          exact same ((List.Nodup.getElem_inj_iff nodup).mp (atPage.trans (eq.trans atVpn.symm)))
        rw [if_neg apart, if_neg same]

/-! ## What the three do -/

/-- `read_dr` of a slot in a page: the bytes at the place in the page, unless they leave it. -/
theorem Serves.readDrIo {pageSize : ℕ} (serves : Serves cache host inode)
    (cluster : inode.aPage[i / 32]? = some ppn) :
    ∃ cache', readDrIo pageSize host inode goodIo i cache = (if i % 32 * 32 + 32 ≤ pageSize then
        some (some (slotIn (cache.pageData host ppn) (i % 32)), cache') else none) ∧
      ∀ clst ∈ inode.aPage, cache'.pageData host clst = cache.pageData host clst := by
  rcases serves.find (List.mem_of_getElem? cluster) with
    ⟨p, cache', page, found, isCached, _, data, _, same⟩
  refine ⟨cache', ?_, same⟩
  simp only [Fat32.readDrIo, cluster, goodIo, found, Option.bind_some, isCached.2.1, data]

/-- `write_dr` of a slot in a page. -/
theorem Serves.writeDrIo {pageSize : ℕ} (serves : Serves cache host inode)
    (cluster : inode.aPage[i / 32]? = some ppn) (fits : i % 32 * 32 + 32 ≤ pageSize)
    (dr : Bytes) :
    ∃ cache', writeDrIo pageSize host inode goodIo i dr cache = some (false, cache') ∧
      ∀ clst ∈ inode.aPage, cache'.pageData host clst = if clst = ppn then
        blit (cache.pageData host ppn) (i % 32 * 32) dr 0 32 else cache.pageData host clst := by
  have mem := List.mem_of_getElem? cluster
  rcases serves.find mem with ⟨p, mid, page, found, isCached, _, data, servesMid, same⟩
  rcases servesMid.change mem isCached (blit page.pData (i % 32 * 32) dr 0 32) with
    ⟨written, cache', modified, wrote, _, changed⟩
  refine ⟨cache', ?_, fun clst isCluster => ?_⟩
  · simp only [Fat32.writeDrIo, cluster, goodIo, found, Option.bind_some, isCached.2.1, fits,
      if_true, modified, wrote]
  · rw [changed clst isCluster, same clst isCluster, data]

/-- `fat32_delete_direntry` of one slot. -/
theorem Serves.deleteDirentryIo {pageSize : ℕ} (serves : Serves cache host inode)
    (cluster : inode.aPage[i / 32]? = some ppn) (fits : i % 32 * 32 < pageSize) :
    ∃ cache', deleteDirentryIo pageSize host inode goodIo 1 i cache = some (true, cache') ∧
      ∀ clst ∈ inode.aPage, cache'.pageData host clst = if clst = ppn then
        Function.update (cache.pageData host ppn) (i % 32 * 32) 0xe5
          else cache.pageData host clst := by
  have mem := List.mem_of_getElem? cluster
  rcases serves.find mem with ⟨p, mid, page, found, isCached, _, data, servesMid, same⟩
  rcases servesMid.change mem isCached (Function.update page.pData (i % 32 * 32) 0xe5) with
    ⟨written, cache', modified, wrote, _, changed⟩
  refine ⟨cache', ?_, fun clst isCluster => ?_⟩
  · simp only [Fat32.deleteDirentryIo, cluster, Option.bind_some, goodIo, found, isCached.2.1,
      fits, if_true, modified, wrote, Bool.false_eq_true, if_false]
  · rw [changed clst isCluster, same clst isCluster, data]

/-! ## The slots that are indexed -/

/-- A slot that is hit is read, written and marked at its place. -/
theorem Hits.inRange (hits : Hits s i) (positive : 0 < s)
    (inRange : 32 * (i + 1) ≤ inode.iBlocks * (512 * s)) :
    (∃ ppn, inode.aPage[i / 32]? = some ppn) ∧ i % 32 * 32 + 32 ≤ 512 * s ∧
      ∀ j < 32, (32 * i + j) / (512 * s) = i / 32 ∧
        (32 * i + j) % (512 * s) = i % 32 * 32 + j := by
  have bytes (j : ℕ) (lt : j < 32) := @slot_byte s i j positive lt
  rw [hits.1, hits.2] at bytes
  have lt : i / 32 < inode.aPage.length := by
    rw [← hits.1]
    refine Nat.div_lt_of_lt_mul (lt_of_lt_of_le (show 32 * i < 32 * (i + 1) by omega) ?_)
    exact inRange.trans_eq (Nat.mul_comm ..)
  refine ⟨⟨_, List.getElem?_eq_getElem lt⟩, ?_, bytes⟩
  have small : (32 * i + 31) % (512 * s) < 512 * s := Nat.mod_lt _ (by omega)
  rw [(bytes 31 (by decide)).2] at small
  omega

/-- The position of a byte in the concatenation, when it is in the slot. -/
theorem Hits.mem_slot (hits : Hits s i) (positive : 0 < s) (p : ℕ) :
    (32 * i ≤ p ∧ p < 32 * i + 32) ↔ p / (512 * s) = i / 32 ∧ i % 32 * 32 ≤ p % (512 * s) ∧
      p % (512 * s) < i % 32 * 32 + 32 := by
  have slot := Nat.div_add_mod (32 * i) (512 * s)
  have byte := Nat.div_add_mod p (512 * s)
  rw [hits.1, hits.2] at slot
  constructor
  · rintro ⟨lower, upper⟩
    obtain ⟨j, rfl⟩ := Nat.exists_eq_add_of_le lower
    rcases @slot_byte s i j positive (by omega) with ⟨page, place⟩
    rw [page, place, hits.1, hits.2]
    exact ⟨rfl, by omega, by omega⟩
  · rintro ⟨page, lower, upper⟩
    rw [page] at byte
    omega

theorem Hits.reads (hits : Hits s i) (positive : 0 < s)
    (inRange : 32 * (i + 1) ≤ inode.iBlocks * (512 * s)) (serves : Serves cache host inode) :
    ∃ dr cache', Fat32.readDrIo (512 * s) host inode goodIo i cache = some (some dr, cache') ∧
      (∀ j : Fin 32, (dirByte (512 * s) host inode cache (32 * i + j)).map UInt8.toNat =
        some (dr j)) ∧
      ∀ p, dirByte (512 * s) host inode cache' p = dirByte (512 * s) host inode cache p := by
  rcases hits.inRange positive inRange with ⟨⟨ppn, cluster⟩, fits, bytes⟩
  rcases serves.readDrIo cluster with ⟨cache', ran, same⟩
  rw [if_pos fits] at ran
  refine ⟨_, cache', ran, fun j => ?_, dirByte_congr same⟩
  rcases bytes j j.isLt with ⟨page, place⟩
  rw [dirByte, page, place, cluster]
  rfl

theorem Hits.writes (hits : Hits s i) (positive : 0 < s) (nodup : inode.aPage.Nodup)
    (inRange : 32 * (i + 1) ≤ inode.iBlocks * (512 * s)) (serves : Serves cache host inode)
    (dr : Bytes) :
    ∃ cache', Fat32.writeDrIo (512 * s) host inode goodIo i dr cache = some (false, cache') ∧
      ∀ p, dirByte (512 * s) host inode cache' p = if 32 * i ≤ p ∧ p < 32 * i + 32 then
        some (dr (p - 32 * i)) else dirByte (512 * s) host inode cache p := by
  rcases hits.inRange positive inRange with ⟨⟨ppn, cluster⟩, fits, bytes⟩
  rcases serves.writeDrIo cluster fits dr with ⟨cache', ran, changed⟩
  refine ⟨cache', ran, fun p => ?_⟩
  rw [dirByte_change nodup cluster changed]
  by_cases inSlot : 32 * i ≤ p ∧ p < 32 * i + 32
  · obtain ⟨j, rfl⟩ := Nat.exists_eq_add_of_le inSlot.1
    rcases bytes j (by omega) with ⟨page, place⟩
    rw [if_pos page, if_pos inSlot, place, blit_inside (by omega) (by omega)]
    congr 2
    omega
  · rw [if_neg inSlot]
    split
    · rename_i page
      have outside : p % (512 * s) < i % 32 * 32 ∨ i % 32 * 32 + 32 ≤ p % (512 * s) := by
        by_contra inside
        exact inSlot ((hits.mem_slot positive p).mpr ⟨page, by omega, by omega⟩)
      rw [blit_outside outside, dirByte, page, cluster]
      rfl
    · rfl

theorem Hits.deletes (hits : Hits s i) (positive : 0 < s) (nodup : inode.aPage.Nodup)
    (inRange : 32 * (i + 1) ≤ inode.iBlocks * (512 * s)) (serves : Serves cache host inode) :
    ∃ cache', Fat32.deleteDirentryIo (512 * s) host inode goodIo 1 i cache = some (true, cache') ∧
      ∀ p, dirByte (512 * s) host inode cache' p = if p = 32 * i then some 0xe5
        else dirByte (512 * s) host inode cache p := by
  rcases hits.inRange positive inRange with ⟨⟨ppn, cluster⟩, fits, bytes⟩
  rcases serves.deleteDirentryIo cluster (show i % 32 * 32 < 512 * s by omega) with
    ⟨cache', ran, changed⟩
  refine ⟨cache', ran, fun p => ?_⟩
  rw [dirByte_change nodup cluster changed]
  by_cases isFirst : p = 32 * i
  · subst isFirst
    rw [if_pos hits.1, if_pos rfl, hits.2, Function.update_self]
  · rw [if_neg isFirst]
    split
    · rename_i page
      have ne : p % (512 * s) ≠ i % 32 * 32 := fun place => by
        have inSlot := (hits.mem_slot positive p).mpr ⟨page, by omega, by omega⟩
        rcases bytes (p - 32 * i) (by omega) with ⟨_, place'⟩
        rw [Nat.add_sub_cancel' inSlot.1] at place'
        omega
      rw [Function.update_of_ne ne, dirByte, page, cluster]
      rfl
    · rfl

/-- The slot behind the pages is reported. -/
theorem reports_of_le (behind : 32 * inode.iBlocks ≤ i) (pageSize : ℕ)
    (cache : PageCache Bytes) :
    Fat32.readDrIo pageSize host inode goodIo i cache = some (none, cache) ∧
      ∀ dr, Fat32.writeDrIo pageSize host inode goodIo i dr cache = some (true, cache) := by
  have missing : inode.aPage[i / 32]? = none := by
    refine List.getElem?_eq_none ?_
    unfold Inode.iBlocks at behind
    omega
  exact ⟨by rw [Fat32.readDrIo, missing], fun dr => by rw [Fat32.writeDrIo, missing]⟩

/-- A cache without pages, with the data on the card. -/
def emptyCache (data : ℕ → Bytes) : PageCache Bytes :=
  PageCache.initCache (fun _ => 0) fun _ => data

theorem emptyCache_pageData (data : ℕ → Bytes) (host clst : ℕ) :
    (emptyCache data).pageData host clst = data clst := rfl

theorem serves_emptyCache (data : ℕ → Bytes) (host : ℕ) (inode : Inode) :
    Serves (emptyCache data) host inode :=
  ⟨PageCache.sound_initCache _ _, fun _ _ _ _ isCached => absurd isCached.1 List.not_mem_nil⟩

/-- A directory in which only the byte is not zero that is read first for slot `i` shows where
that byte lies. -/
theorem IndexesSlot.hits (indexes : IndexesSlot (512 * s) host inode i)
    (nodup : inode.aPage.Nodup) (inRange : 32 * (i + 1) ≤ inode.iBlocks * (512 * s)) :
    Hits s i := by
  have serves (data : ℕ → Bytes) := serves_emptyCache data host inode
  cases cluster : inode.aPage[i / 32]? with
  | none =>
      rcases indexes.reads inRange _ (serves fun _ => zeros) with ⟨dr, cache', ran, _⟩
      rw [Fat32.readDrIo, cluster] at ran
      cases ran
  | some ppn =>
      let data : ℕ → Bytes := fun clst k => if clst = ppn ∧ k = i % 32 * 32 then 1 else 0
      rcases indexes.reads inRange _ (serves data) with ⟨dr, cache', ran, bytes, _⟩
      rcases (serves data).readDrIo cluster with ⟨_, ran', _⟩
      rw [ran'] at ran
      split at ran
      · cases ran
        have first := bytes 0
        have isOne : slotIn (data ppn) (i % 32) 0 = 1 := by
          simp [slotIn, data]
        rw [emptyCache_pageData, isOne, dirByte] at first
        cases place : inode.aPage[(32 * i + ((0 : Fin 32) : ℕ)) / (512 * s)]? with
        | none =>
            rw [place] at first
            cases first
        | some clst =>
            rw [place, Option.map_some, Option.map_some, emptyCache_pageData] at first
            simp only [Fin.val_zero, Nat.add_zero] at place first
            by_cases same : clst = ppn ∧ 32 * i % (512 * s) = i % 32 * 32
            · refine ⟨?_, same.2⟩
              rcases List.getElem?_eq_some_iff.mp cluster with ⟨lt, atVpn⟩
              rcases List.getElem?_eq_some_iff.mp place with ⟨lt', atPlace⟩
              exact (List.Nodup.getElem_inj_iff nodup).mp
                (atPlace.trans (same.1.trans atVpn.symm))
            · simp [data, same] at first
      · cases ran

/--
A slot is read, written and marked where it lies exactly when the clusters have two sectors, or the
slot is one of the first 32 and lies in the first cluster, or it lies behind both the clusters and
32 slots for each of them.
-/
theorem indexesSlot_iff (positive : 0 < s) (nodup : inode.aPage.Nodup) :
    IndexesSlot (512 * s) host inode i ↔
      if 32 * (i + 1) ≤ inode.iBlocks * (512 * s) then s = 2 ∨ (i < 32 ∧ i < 16 * s)
      else 32 * inode.iBlocks ≤ i := by
  have serves (data : ℕ → Bytes) := serves_emptyCache data host inode
  split
  · rename_i inRange
    constructor
    · intro indexes
      exact (hits_iff positive).mp (indexes.hits nodup inRange)
    · intro fits
      have hits := (hits_iff positive).mpr fits
      exact ⟨fun _ _ serves => hits.reads positive inRange serves,
        fun _ _ serves => hits.writes positive nodup inRange serves,
        fun _ _ serves => hits.deletes positive nodup inRange serves,
        fun outOfRange => absurd outOfRange (Nat.not_lt_of_ge inRange)⟩
  · rename_i outOfRange
    constructor
    · intro indexes
      by_contra inPages
      have lt : i / 32 < inode.aPage.length := by
        unfold Inode.iBlocks at inPages
        omega
      have cluster := List.getElem?_eq_getElem lt
      have reported := (indexes.reports (Nat.lt_of_not_ge outOfRange) _ (serves fun _ => zeros)).1
      rcases (serves fun _ => zeros).readDrIo cluster with ⟨cache', ran, _⟩
      rw [reported] at ran
      split at ran
      · cases ran
      · cases ran
    · intro behind
      exact ⟨fun inRange => absurd inRange outOfRange, fun inRange => absurd inRange outOfRange,
        fun inRange => absurd inRange outOfRange, fun _ cache _ => reports_of_le behind _ cache⟩

end

/-- In a directory of two clusters of two sectors a slot of the second cluster is indexed. -/
theorem indexesSlot_iff_second : IndexesSlot (512 * 2) 0 ⟨2, [2, 5]⟩ 40 :=
  (indexesSlot_iff (by decide) (by decide)).mpr (by decide)

/-- In clusters of one sector slot 16 is the first of the second cluster; it is looked for behind
the end of the first one. -/
theorem not_indexesSlot_oneSector : ¬∀ s ≥ 1, ∀ (host : ℕ) (inode : Inode),
    inode.aPage.Nodup → ∀ i, IndexesSlot (512 * s) host inode i := by
  intro always
  rcases (always 1 le_rfl 0 ⟨2, [2, 3]⟩ (by decide) 16).reads (by decide) _
    (serves_emptyCache (fun _ => zeros) 0 ⟨2, [2, 3]⟩) with ⟨_, _, ran, _⟩
  rcases (serves_emptyCache (fun _ => zeros) 0 ⟨2, [2, 3]⟩).readDrIo
    (show ([2, 3] : List ℕ)[16 / 32]? = some 2 from rfl) with ⟨_, ran', _⟩
  rw [ran', if_neg (by decide)] at ran
  cases ran

end Ninix.Fat32
