import Ninix.Fat32.FreeCount
import Ninix.Fat32.Mirror
import Ninix.Vfs.PageRequests

/-!
# Deleting a file

`fat32_deleteinode` finds the entries of the file through the pages of its directory, marks them
deleted there, takes the pages of the file out of the cache and releases its clusters. The slots
of the directory are read and written through the cache of pages; the clusters that hold them are
apart from the sectors of the table.
-/

namespace Ninix.Fat32

open Vfs ByteBuffer

/-- A mounted volume with the cache of pages. -/
structure CachedVolume where
  vol : Volume
  cache : PageCache Bytes

/-- How things go for the page of a slot: whether it can be had, how the page evicted for it is
written, and how it is written itself. -/
structure SlotIo where
  ready : Bool
  evict : WriteBlock Bytes
  write : WriteBlock Bytes

/-- An entry of a page. -/
def slotIn (data : Bytes) (place : ℕ) : Slot := fun j => (data (place * 32 + j)).toNat

/-- The slots of a directory whose clusters hold the data. -/
def slotsOf (inode : Inode) (data : ℕ → Bytes) (i : ℕ) : Option Slot :=
  (inode.aPage[i / 32]?).map fun ppn => slotIn (data ppn) (i % 32)

section

variable (pageSize host : ℕ) (inode : Inode) (io : ℕ → SlotIo)

/-- `read_dr` of an inode `host` with its map. `none` follows a null pointer or leaves the page. -/
def readDrIo (i : ℕ) (cache : PageCache Bytes) : Option (Option Slot × PageCache Bytes) :=
  match inode.aPage[i / 32]? with
  | none => some (none, cache)
  | some ppn =>
      (cache.generalFindPage ppn host (io i).ready (io i).evict).bind fun
        | (none, _) => none
        | (some p, cache) =>
            (cache.pages p).bind fun page =>
              if i % 32 * 32 + 32 ≤ pageSize then some (some (slotIn page.pData (i % 32)), cache)
              else none

/-- The loop over the entries of a long name in `fat32_lookup_direntry`. -/
def readLongIo : ℕ → ℕ → Slot → Qstr → PageCache Bytes → Option ((Slot × Qstr) × PageCache Bytes)
  | 0, _, dr, q, cache => some ((dr, q), cache)
  | n + 1, i, dr, q, cache =>
      (readDrIo pageSize host inode io (i + 1) cache).bind fun (next, cache) =>
        readLongIo n (i + 1) (next.getD dr) (putChars q (n * 13) dr) cache

/-- What the entries from `i` on hold. -/
def groupAtIo (i : ℕ) (dr : Slot) (nameLen : ℕ) (cache : PageCache Bytes) :
    Option ((ℕ × Qstr × Slot) × PageCache Bytes) :=
  if dr 11 = 0x0f then
    let n := dr 0 &&& 0x3f
    (readLongIo pageSize host inode io n i dr ⟨fun _ => 0, nameLen⟩ cache).map
      fun ((dr, q), cache) => ((n + 1, q, dr), cache)
  else some ((1, shortName dr, dr), cache)

/-- The loop of `fat32_lookup_direntry` through the cache, with fuel for its rounds. -/
def lookupLoopIo (s : Qstr) (type : LastType) :
    ℕ → ℕ → ℕ → PageCache Bytes → Option (Option FoundFile × PageCache Bytes)
  | 0, _, _, cache => some (none, cache)
  | fuel + 1, i, nameLen, cache =>
      (readDrIo pageSize host inode io i cache).bind fun
        | (none, cache) => some (none, cache)
        | (some dr, cache) =>
            if dr 0 = 0 then some (none, cache)
            else if dr 0 = 0xe5 then lookupLoopIo s type fuel (i + 1) nameLen cache
            else
              (groupAtIo pageSize host inode io i dr nameLen cache).bind
                fun ((len, q, dr), cache) =>
                  if genericCheckFilename s q ∧
                      ((dr 11 = 0x20 ∧ type = .norm) ∨ (dr 11 = 0x10 ∧ type = .dir)) then
                    some (some ⟨i, len, q.toList, dr⟩, cache)
                  else lookupLoopIo s type fuel (i + len) q.len cache

/-- `fat32_delete_direntry` from slot `i`, with the number of slots to go, and whether it
succeeds -/
def deleteDirentryIo : ℕ → ℕ → PageCache Bytes → Option (Bool × PageCache Bytes)
  | 0, _, cache => some (true, cache)
  | left + 1, i, cache =>
      (inode.aPage[i / 32]?).bind fun ppn =>
        (cache.generalFindPage ppn host (io i).ready (io i).evict).bind fun
          | (none, cache) => some (false, cache)
          | (some p, cache) =>
              (cache.pages p).bind fun page =>
                if i % 32 * 32 < pageSize then
                  (cache.modify p (Function.update page.pData (i % 32 * 32) 0xe5)).bind fun cache =>
                    (cache.writepage p (io i).write).bind fun (err, cache) =>
                      if err then some (false, cache) else deleteDirentryIo left (i + 1) cache
                else none

end

/-- What `fat32_deleteinode` returns: 0, `-ENOINODE` or `-ENOPAGE`. -/
inductive Deletion
  | deleted
  | noInode
  | noPage
  deriving DecidableEq

/-- `fat32_deleteinode` of a file with the inode `file` and its map, in a directory with the inode
`parent`. `scan` and `mark` are how things go for the slots that are read and changed. -/
def CachedVolume.deleteinode (fs : CachedVolume) (parent file : ℕ) (dir inode : Inode)
    (scan mark : ℕ → SlotIo) (s : Qstr) (type : LastType) (nameLen : ℕ) :
    Option (Deletion × CachedVolume) :=
  let pageSize := fs.vol.esb.sectsPerClst * sectorBytes
  (lookupLoopIo pageSize parent dir scan s type (dir.iBlocks * 32 + 1) 0 nameLen fs.cache).bind fun
    | (none, cache) => some (.noInode, { fs with cache })
    | (some found, cache) =>
        (deleteDirentryIo pageSize parent dir mark found.len found.begin cache).bind fun
          | (false, cache) => some (.noPage, { fs with cache })
          | (true, cache) =>
              (cache.deletePages file true).map fun cache =>
                (.deleted, ⟨fs.vol.retakeAll inode.aPage, cache⟩)

/-! ## Finding the entries -/

section

variable {pageSize host i stop n nameLen fuel : ℕ} {inode : Inode} {io : ℕ → SlotIo}
  {cache : PageCache Bytes} {data : ℕ → Bytes} {dr : Slot} {q s : Qstr} {type : LastType}
  {file : FoundFile}

/-- The clusters with the slots below a position. -/
def clustersBelow (inode : Inode) (stop : ℕ) : List ℕ := inode.aPage.take ((stop + 31) / 32)

theorem mem_clustersBelow {ppn : ℕ} (cluster : inode.aPage[i / 32]? = some ppn) (lt : i < stop) :
    ppn ∈ clustersBelow inode stop := by
  refine List.mem_of_getElem? (i := i / 32) ?_
  rw [clustersBelow, List.getElem?_take_of_lt (by omega), cluster]

/-- A slot is read as its page holds it. -/
theorem readDrIo_spec (tracks : cache.Tracks host (clustersBelow inode stop) data)
    (large : 1024 ≤ pageSize) (ready : (io i).ready = true) (lt : i < stop) :
    ∃ cache', readDrIo pageSize host inode io i cache = some (slotsOf inode data i, cache') ∧
      cache'.Tracks host (clustersBelow inode stop) data ∧
        PageCache.KeepsOthers host cache cache' := by
  unfold readDrIo slotsOf
  cases cluster : inode.aPage[i / 32]? with
  | none => exact ⟨cache, rfl, tracks, .refl host cache⟩
  | some ppn =>
      rcases tracks.generalFindPage (mem_clustersBelow cluster lt) (io i).evict with
        ⟨p, cache', page, found, _, alive, holds, tracks', keeps⟩
      refine ⟨cache', ?_, tracks', keeps⟩
      have inPage : i % 32 * 32 + 32 ≤ pageSize := by omega
      simp only [ready, found, Option.bind_some, alive, inPage, if_true, holds, Option.map_some]

theorem readLongIo_spec (tracks : cache.Tracks host (clustersBelow inode stop) data)
    (large : 1024 ≤ pageSize) (ready : ∀ i, (io i).ready = true) (le : i + n < stop) :
    ∃ cache', readLongIo pageSize host inode io n i dr q cache =
        some (readLong (slotsOf inode data) n i dr q, cache') ∧
      cache'.Tracks host (clustersBelow inode stop) data ∧
        PageCache.KeepsOthers host cache cache' := by
  induction n generalizing i dr q cache with
  | zero => exact ⟨cache, rfl, tracks, .refl host cache⟩
  | succ n ih =>
      rcases readDrIo_spec tracks large (ready (i + 1)) (by omega) with
        ⟨mid, read, tracksMid, keepsMid⟩
      have below : i + 1 + n < stop := by omega
      rcases ih tracksMid below with ⟨cache', ran, tracks', keeps⟩
      refine ⟨cache', ?_, tracks', keepsMid.trans keeps⟩
      rw [readLongIo, read, Option.bind_some]
      exact ran

theorem groupAtIo_spec (tracks : cache.Tracks host (clustersBelow inode stop) data)
    (large : 1024 ≤ pageSize) (ready : ∀ i, (io i).ready = true)
    (le : i + (groupAt (slotsOf inode data) i dr nameLen).1 ≤ stop) :
    ∃ cache', groupAtIo pageSize host inode io i dr nameLen cache =
        some (groupAt (slotsOf inode data) i dr nameLen, cache') ∧
      cache'.Tracks host (clustersBelow inode stop) data ∧
        PageCache.KeepsOthers host cache cache' := by
  unfold groupAtIo
  unfold groupAt at le ⊢
  by_cases long : dr 11 = 0x0f
  · simp only [long, if_true] at le ⊢
    have below : i + (dr 0 &&& 0x3f) < stop := Nat.lt_of_succ_le le
    rcases readLongIo_spec tracks large ready below with ⟨cache', ran, tracks', keeps⟩
    exact ⟨cache', by rw [ran]; rfl, tracks', keeps⟩
  · simp only [long, if_false]
    exact ⟨cache, rfl, tracks, .refl host cache⟩

/-- A file is found at or behind the slot from which it is looked for, and has an entry. -/
theorem lookupLoop_bounds {readDr : ℕ → Option Slot}
    (found : lookupLoop readDr s type fuel i nameLen = some file) :
    i ≤ file.begin ∧ 0 < file.len := by
  induction fuel generalizing i nameLen with
  | zero => cases found
  | succ fuel ih =>
      simp only [lookupLoop] at found
      split at found
      · cases found
      · split_ifs at found
        · exact ⟨Nat.le_of_succ_le (ih found).1, (ih found).2⟩
        · cases found
          exact ⟨le_rfl, groupAt_pos ..⟩
        · exact ⟨Nat.le_of_add_right_le (ih found).1, (ih found).2⟩

theorem readLong_last {readDr : ℕ → Option Slot} (read : readDr i = some dr)
    (readable : ∀ k ≤ n, (readDr (i + k)).isSome) :
    readDr (i + n) = some (readLong readDr n i dr q).1 := by
  induction n generalizing i dr q with
  | zero => exact read
  | succ n ih =>
      rcases Option.isSome_iff_exists.mp (readable 1 (by omega)) with ⟨next, readNext⟩
      rw [readLong, readNext, Option.getD_some, Nat.add_comm n 1, ← Nat.add_assoc]
      refine ih readNext fun k le => ?_
      rw [Nat.add_assoc, Nat.add_comm 1]
      exact readable (k + 1) (by omega)

/-- The last of the entries of a file is the 8.3 entry. -/
theorem lookupLoop_last {readDr : ℕ → Option Slot}
    (found : lookupLoop readDr s type fuel i nameLen = some file)
    (readable : ∀ j < file.begin + file.len, (readDr j).isSome) :
    readDr (file.begin + file.len - 1) = some file.dr := by
  induction fuel generalizing i nameLen with
  | zero => cases found
  | succ fuel ih =>
      simp only [lookupLoop] at found
      split at found
      · cases found
      · rename_i dr read
        split_ifs at found
        · exact ih found
        · cases found
          dsimp only at readable ⊢
          unfold groupAt at readable ⊢
          split
          · rename_i long
            simp only [long, if_true] at readable
            exact readLong_last read fun k le => readable _ (by omega)
          · exact read
        · exact ih found

/-- The entries of a file are found through the cache as they stand in the slots. -/
theorem lookupLoopIo_spec (tracks : cache.Tracks host (clustersBelow inode stop) data)
    (large : 1024 ≤ pageSize) (ready : ∀ i, (io i).ready = true)
    (found : lookupLoop (slotsOf inode data) s type fuel i nameLen = some file)
    (isStop : file.begin + file.len = stop) :
    ∃ cache', lookupLoopIo pageSize host inode io s type fuel i nameLen cache =
        some (some file, cache') ∧
      cache'.Tracks host (clustersBelow inode stop) data ∧
        PageCache.KeepsOthers host cache cache' := by
  induction fuel generalizing i nameLen cache with
  | zero => cases found
  | succ fuel ih =>
      have inside : i < stop := by
        rcases lookupLoop_bounds found with ⟨le, positive⟩
        omega
      rcases readDrIo_spec tracks large (ready i) inside with ⟨mid, read, tracksMid, keepsMid⟩
      simp only [lookupLoop] at found
      simp only [lookupLoopIo, read, Option.bind_some]
      cases slot : slotsOf inode data i with
      | none => rw [slot] at found; cases found
      | some dr =>
          simp only [slot] at found ⊢
          by_cases ended : dr 0 = 0
          · rw [if_pos ended] at found
            cases found
          rw [if_neg ended] at found ⊢
          by_cases deleted : dr 0 = 0xe5
          · rw [if_pos deleted] at found ⊢
            rcases ih tracksMid found with ⟨cache', ran, tracks', keeps⟩
            exact ⟨cache', ran, tracks', keepsMid.trans keeps⟩
          rw [if_neg deleted] at found ⊢
          by_cases isFile : genericCheckFilename s (groupAt (slotsOf inode data) i dr nameLen).2.1 ∧
              (((groupAt (slotsOf inode data) i dr nameLen).2.2 11 = 0x20 ∧ type = .norm) ∨
                ((groupAt (slotsOf inode data) i dr nameLen).2.2 11 = 0x10 ∧ type = .dir))
          · rw [if_pos isFile] at found
            cases found
            rcases groupAtIo_spec tracksMid large ready (Nat.le_of_eq isStop) with
              ⟨cache', ran, tracks', keeps⟩
            refine ⟨cache', ?_, tracks', keepsMid.trans keeps⟩
            rw [ran, Option.bind_some, if_pos isFile]
          · rw [if_neg isFile] at found
            have fits : i + (groupAt (slotsOf inode data) i dr nameLen).1 ≤ stop := by
              have le := (lookupLoop_bounds found).1
              omega
            rcases groupAtIo_spec tracksMid large ready fits with
              ⟨mid', ran', tracksMid', keepsMid'⟩
            rcases ih tracksMid' found with ⟨cache', ran, tracks', keeps⟩
            refine ⟨cache', ?_, tracks', (keepsMid.trans keepsMid').trans keeps⟩
            rw [ran', Option.bind_some, if_neg isFile]
            exact ran

/-! ## Deleting the entries -/

/-- A slot that is marked. -/
def markDeleted (dr : Slot) : Slot := Function.update dr 0 0xe5

/-- Changing the first byte of a slot marks it and leaves the others. -/
theorem slotsOf_update (nodup : inode.aPage.Nodup) {ppn : ℕ}
    (cluster : inode.aPage[i / 32]? = some ppn) (j : ℕ) :
    slotsOf inode (Function.update data ppn (Function.update (data ppn) (i % 32 * 32) 0xe5)) j =
      if j = i then (slotsOf inode data j).map markDeleted else slotsOf inode data j := by
  unfold slotsOf
  cases other : inode.aPage[j / 32]? with
  | none =>
      have ne : j ≠ i := fun eq => by
        rw [eq, cluster] at other
        cases other
      rw [if_neg ne]
      rfl
  | some ppn' =>
      simp only [Option.map_some]
      by_cases isSlot : j = i
      · subst isSlot
        cases cluster.symm.trans other
        rw [if_pos rfl, Function.update_self]
        congr 1
        funext k
        unfold slotIn markDeleted
        by_cases first : k = 0
        · subst first
          rw [Function.update_self]
          show (Function.update (data ppn) (j % 32 * 32) 0xe5 (j % 32 * 32 + 0)).toNat = 0xe5
          rw [Nat.add_zero, Function.update_self]
          rfl
        · have behind : j % 32 * 32 + (k : ℕ) ≠ j % 32 * 32 := by
            have positive := Fin.pos_iff_ne_zero.mpr first
            have := Fin.lt_def.mp positive
            omega
          rw [Function.update_of_ne first, Function.update_of_ne behind]
      · rw [if_neg isSlot]
        congr 1
        funext k
        unfold slotIn
        by_cases same : ppn' = ppn
        · subst same
          -- the slots are in one page, at different places
          have page : j / 32 = i / 32 := by
            rcases List.getElem?_eq_some_iff.mp cluster with ⟨ltI, atI⟩
            rcases List.getElem?_eq_some_iff.mp other with ⟨ltJ, atJ⟩
            exact (List.Nodup.getElem_inj_iff nodup).mp (atJ.trans atI.symm)
          have apart : j % 32 * 32 + (k : ℕ) ≠ i % 32 * 32 := by omega
          rw [Function.update_self, Function.update_of_ne apart]
        · rw [Function.update_of_ne same]

/-- The slots of a file are marked through the cache, and no others. -/
theorem deleteDirentryIo_spec (nodup : inode.aPage.Nodup)
    (tracks : cache.Tracks host (clustersBelow inode stop) data) (large : 1024 ≤ pageSize)
    (good : ∀ i, (io i).ready = true ∧ (io i).write = .done) (le : i + n ≤ stop)
    (inside : i + n ≤ inode.iBlocks * 32) :
    ∃ cache' data', deleteDirentryIo pageSize host inode io n i cache = some (true, cache') ∧
      cache'.Tracks host (clustersBelow inode stop) data' ∧
        PageCache.KeepsOthers host cache cache' ∧
          ∀ j, slotsOf inode data' j = if i ≤ j ∧ j < i + n then
            (slotsOf inode data j).map markDeleted else slotsOf inode data j := by
  induction n generalizing i cache data with
  | zero => exact ⟨cache, data, rfl, tracks, .refl host cache, fun j => (if_neg (by omega)).symm⟩
  | succ n ih =>
      have lt : i / 32 < inode.aPage.length := by
        unfold Inode.iBlocks at inside
        omega
      have cluster := List.getElem?_eq_getElem lt
      rcases tracks.generalFindPage (mem_clustersBelow cluster (by omega)) (io i).evict with
        ⟨p, mid, page, found, isPage, alive, holds, tracksMid, keepsMid⟩
      rcases tracksMid.modify isPage (Function.update page.pData (i % 32 * 32) 0xe5) with
        ⟨marked, written, modified, wrote, tracksWritten, keepsWritten⟩
      have le' : i + 1 + n ≤ stop := by omega
      rcases ih tracksWritten le' (by omega) with ⟨cache', data', ran, tracks', keeps, slots⟩
      refine ⟨cache', data', ?_, tracks', (keepsMid.trans keepsWritten).trans keeps, fun j => ?_⟩
      · have inPage : i % 32 * 32 < pageSize := by omega
        rw [deleteDirentryIo, cluster, Option.bind_some, (good i).1, found]
        simp only [Option.bind_some, alive, inPage, if_true, modified, (good i).2, wrote]
        exact ran
      · rw [slots, holds, slotsOf_update nodup cluster]
        by_cases first : j = i
        · rw [if_neg (by omega), if_pos first, if_pos (by omega)]
        · rw [if_neg first]
          exact if_congr (by omega) rfl rfl

end

/-! ## Releasing the clusters -/

namespace Volume

variable {vol : Volume} {clst copy sectOff : ℕ} {clsts : List ℕ}

/-- Where the copies of the table are the same, an entry is the same in all of them. -/
theorem entryIn_eq (coherent : vol.Coherent) (mirrored : vol.Mirrored (clst / 128))
    (lt : copy < vol.esb.totalFats) (inFat : vol.esb.InFat clst) :
    vol.entryIn copy clst = vol.entry clst := by
  have valid := coherent.layout
  have offset := (cluster_location valid inFat).2.2
  have first : u32 (vol.esb.fatBaseSect 0 + clst / 128) = vol.esb.fatBaseSect 0 + clst / 128 := by
    rw [(fatSector_copy valid 0 valid.fats offset).1, fatBaseSect_eq valid valid.fats (by omega)]
  unfold entryIn entry
  rw [← first]
  refine readLE_congr fun k _ upper => mirrored copy lt k ?_
  unfold sectorBytes
  omega

theorem retakeFat_mirrored (coherent : vol.Coherent) (isCluster : vol.esb.IsCluster clst)
    (offset : sectOff < vol.esb.sectsPerFat) (mirrored : vol.Mirrored sectOff) :
    (vol.retakeFat clst).Mirrored sectOff := by
  unfold retakeFat
  dsimp only
  generalize (if clst < (vol.info.setFreeClsts (u32 (vol.info.freeClsts + 1))).nextFreeClst then
    (vol.info.setFreeClsts (u32 (vol.info.freeClsts + 1))).setNextFreeClst clst
      else vol.info.setFreeClsts (u32 (vol.info.freeClsts + 1))) = info
  have marked : ({ vol with info } : Volume).Coherent ∧ SameEntries vol { vol with info } :=
    coherent.of_fatSectors rfl rfl rfl fun _ _ => rfl
  have written := writeFsinfo_spec marked.1
  have valid := coherent.layout
  refine writeFat_mirrored written.1 ?_ ?_ (Or.inr fun other lt k inside => ?_)
  · rw [written.2.1.esb]
    exact isCluster.inFat valid
  · rw [written.2.1.esb]
    exact offset
  · have kept (other : ℕ) (lt : other < vol.esb.totalFats) :
        ({ vol with info } : Volume).writeFsinfo.2.copySector other sectOff =
          vol.copySector other sectOff := by
      refine Disk.writeBlock_one_sector_ne _ _ _ fun eq => ?_
      have fatSector := (fatSector_copy valid other lt offset).2
      have fsinfo := valid.fsinfo
      have sectors := valid.sectors
      change u32 (vol.esb.fatBaseSect other + sectOff) =
        u32 (vol.esb.sBase + vol.esb.fsinfoBaseSect) at eq
      rw [eq, u32_of_lt (by omega)] at fatSector
      have lower := fatSector.1
      omega
    rw [kept other lt, kept 0 valid.fats]
    exact mirrored other lt k inside

/-- Releasing clusters leaves the copies of the table the same. -/
theorem retakeAll_mirrored (coherent : vol.Coherent)
    (clusters : ∀ clst ∈ clsts, vol.esb.IsCluster clst) (offset : sectOff < vol.esb.sectsPerFat)
    (mirrored : vol.Mirrored sectOff) : (vol.retakeAll clsts).Mirrored sectOff := by
  induction clsts generalizing vol with
  | nil => exact mirrored
  | cons clst rest ih =>
      have isCluster := clusters clst List.mem_cons_self
      rcases retakeFat_spec coherent isCluster with ⟨coherent', esb, _⟩
      rw [retakeAll_cons]
      refine ih coherent' (fun other mem => ?_) (esb.symm ▸ offset)
        (retakeFat_mirrored coherent isCluster offset mirrored)
      rw [esb]
      exact clusters other (List.mem_cons_of_mem _ mem)

theorem retakeAll_freeClsts (vol : Volume) (clsts : List ℕ) :
    (vol.retakeAll clsts).info.freeClsts = u32 (vol.info.freeClsts + clsts.length) := by
  induction clsts generalizing vol with
  | nil => exact (u32_of_lt vol.info.freeClsts_lt).symm
  | cons clst rest ih =>
      rw [retakeAll_cons, ih, retakeFat_freeClsts, List.length_cons]
      unfold u32
      omega

end Volume

/-! ## Deleting a file -/

/-- The slots of a directory as its inode reads them. -/
def CachedVolume.slots (fs : CachedVolume) (parent : ℕ) (dir : Inode) (i : ℕ) : Option Slot :=
  slotsOf dir (fs.cache.pageData parent) i

/-- What the deletion of a file leaves: its clusters are free in all copies of the table, its pages
are out of the cache and its entries, of which the last is the 8.3 entry, are marked; everything
else is as it was. -/
structure Released (fs fs' : CachedVolume) (parent file : ℕ) (dir inode : Inode)
    (found : FoundFile) : Prop where
  entries : ∀ copy < fs.vol.esb.totalFats, ∀ clst, fs.vol.esb.InFat clst →
    fs'.vol.entryIn copy clst = if clst ∈ inode.aPage then 0 else fs.vol.entryIn copy clst
  freeClsts : fs'.vol.info.freeClsts = u32 (fs.vol.info.freeClsts + inode.iBlocks)
  linked : fs'.cache.Linked
  removed : ∀ p ∈ fs'.cache.lru, ∀ page, fs'.cache.pages p = some page → page.pMapping ≠ file
  kept : ∀ p ∈ fs.cache.lru, ∀ page, fs.cache.pages p = some page → page.pMapping ≠ file →
    p ∈ fs'.cache.lru ∧ ∃ page', fs'.cache.pages p = some page' ∧
      page'.pMapping = page.pMapping ∧ (page.pMapping ≠ parent → page' = page)
  short : fs.slots parent dir (found.begin + found.len - 1) = some found.dr
  slots : ∀ i, fs'.slots parent dir i = if found.begin ≤ i ∧ i < found.begin + found.len then
    (fs.slots parent dir i).map markDeleted else fs.slots parent dir i

/--
A file whose entries are found in its directory is deleted: on a volume whose clusters hold at
least 32 slots and whose copies of the table are the same, with room in the cache for the pages
of the directory up to the entries and with transfers that succeed.
-/
theorem released_of_deleteinode {fs : CachedVolume} {parent file : ℕ} {dir inode : Inode}
    {scan mark : ℕ → SlotIo} {s : Qstr} {type : LastType} {nameLen : ℕ} {found : FoundFile}
    (coherent : fs.vol.Coherent)
    (mirrored : ∀ sectOff < fs.vol.esb.sectsPerFat, fs.vol.Mirrored sectOff)
    (large : 1024 ≤ fs.vol.esb.sectsPerClst * sectorBytes)
    (clusters : ∀ clst ∈ inode.aPage, fs.vol.esb.IsCluster clst) (dirMap : dir.aPage.Nodup)
    (linked : fs.cache.Linked) (lists : fs.cache.ListsPages file) (apart : parent ≠ file)
    (room : fs.cache.Room parent (clustersBelow dir (found.begin + found.len)))
    (read : ∀ i, (scan i).ready = true)
    (written : ∀ i, (mark i).ready = true ∧ (mark i).write = .done)
    (isFound : lookupLoop (fs.slots parent dir) s type (dir.iBlocks * 32 + 1) 0 nameLen =
      some found) (inside : found.begin + found.len ≤ dir.iBlocks * 32) :
    ∃ fs', fs.deleteinode parent file dir inode scan mark s type nameLen =
      some (.deleted, fs') ∧ Released fs fs' parent file dir inode found := by
  have tracks : fs.cache.Tracks parent (clustersBelow dir (found.begin + found.len))
      (fs.cache.pageData parent) := ⟨linked, room, fun _ => rfl⟩
  rcases lookupLoopIo_spec tracks large read isFound rfl with
    ⟨mid, looked, tracksMid, keepsMid⟩
  rcases deleteDirentryIo_spec dirMap tracksMid large written le_rfl inside with
    ⟨marked, data, deleted, tracksMarked, keepsMarked, slots⟩
  have keeps := keepsMid.trans keepsMarked
  rcases PageCache.deletePages_spec (lists.of_keepsOthers linked keeps apart) apart with
    ⟨cache, dropped, pages, fewer, pageData⟩
  refine ⟨⟨fs.vol.retakeAll inode.aPage, cache⟩, ?_, ?_⟩
  · unfold CachedVolume.deleteinode
    dsimp only
    rw [looked, Option.bind_some]
    dsimp only
    rw [deleted, Option.bind_some]
    dsimp only
    rw [dropped]
    rfl
  rcases Volume.retakeAll_spec coherent clusters with ⟨coherent', esb, _, _, entry⟩
  refine ⟨fun copy lt clst inFat => ?_, Volume.retakeAll_freeClsts _ _, ?_, fun p mem page alive =>
    ?_, fun p mem page alive notFile => ?_, lookupLoop_last isFound fun j lt => ?_, fun i => ?_⟩
  · have offset := (Volume.cluster_location coherent.layout inFat).2.2
    rw [Volume.entryIn_eq coherent (mirrored _ offset) lt inFat, ← entry clst inFat]
    exact Volume.entryIn_eq coherent' (Volume.retakeAll_mirrored coherent clusters offset
      (mirrored _ offset)) (esb.symm ▸ lt) (esb.symm ▸ inFat)
  · have stepped : marked.step (.deletePages file true) = some cache := dropped
    exact tracksMarked.linked.step stepped
  · rcases tracksMarked.linked.ordered p (fewer p mem) with ⟨old, was, _⟩
    rcases pages p (fewer p mem) old was with ⟨ofFile, others⟩
    by_cases isFile : old.pMapping = file
    · exact absurd mem (ofFile isFile).1
    · cases alive.symm.trans (others isFile).2
      exact isFile
  · rcases keeps.pages p page alive with ⟨page', alive', mapping, same⟩
    rcases (pages p (keeps.lru p mem) page' alive').2 (mapping ▸ notFile) with ⟨mem', kept⟩
    exact ⟨mem', page', kept, mapping, same⟩
  · have cluster : j / 32 < dir.aPage.length := by
      unfold Inode.iBlocks at inside
      omega
    rw [CachedVolume.slots, slotsOf, List.getElem?_eq_getElem cluster]
    rfl
  · have unread (j : ℕ) : slotsOf dir (cache.pageData parent) j = slotsOf dir data j := by
      unfold slotsOf
      simp only [pageData, tracksMarked.holds]
    exact (unread i).trans (slots i)

/-- The name `ABCDEFGH.TXT`, which needs two entries. -/
def longName : Qstr where
  name := fun i => ([0x41, 0x42, 0x43, 0x44, 0x45, 0x46, 0x47, 0x48, 0x2e, 0x54, 0x58, 0x54] :
    List ℕ).getD i 0
  len := 12

/-- A cluster with the two entries of a file of this name that begins with cluster 3. -/
def longEntries : Bytes := fun k =>
  if k < 64 then .ofNat (entries longName .norm 0 2 3 (k / 32) (.ofNat 32 k)) else 0

/-- A volume with two copies of the table and the directory of cluster 2, whose only file has the
clusters 3 and 4 and a page of the first of them in the cache. -/
def oneEntry : CachedVolume where
  vol := Volume.ofTable fiveClusters
    (fun clst => if clst = 3 then 4 else if clst < 5 then endOfChain else 0) 2 5
  cache := (PageCache.initCache (fun _ => 0) fun _ _ => longEntries).withPage 1 3

/-- The file is deleted. -/
theorem released_of_deleteinode_oneEntry : ∃ found fs',
    oneEntry.deleteinode 0 1 ⟨2, [2]⟩ ⟨3, [3, 4]⟩ (fun _ => ⟨true, .done, .done⟩)
      (fun _ => ⟨true, .done, .done⟩) longName .norm 0 = some (.deleted, fs') ∧ found.len = 2 ∧
    Released oneEntry fs' 0 1 ⟨2, [2]⟩ ⟨3, [3, 4]⟩ found := by
  have looked : (lookupLoop (oneEntry.slots 0 ⟨2, [2]⟩) longName .norm 33 0 0).map
      (fun file => (file.begin, file.len)) = some (0, 2) := by decide +kernel
  rcases Option.map_eq_some_iff.mp looked with ⟨found, isFound, place⟩
  simp only [Prod.mk.injEq] at place
  rcases place with ⟨begin, len⟩
  have added := PageCache.generalFindPage_missing
    (s := PageCache.initCache (fun _ => 0) fun _ _ => longEntries)
    (show PageCache.Room _ 1 [3] by decide) List.mem_cons_self rfl .done
  have linked : oneEntry.cache.Linked := (PageCache.linked_initCache _ _).generalFindPage added
  have lists : oneEntry.cache.ListsPages 1 := by
    refine ⟨List.nodup_singleton 0, fun p => ⟨fun mem => ⟨mem, ?_⟩, And.left⟩⟩
    rw [List.mem_singleton.mp mem]
    exact ⟨_, rfl, rfl⟩
  have clusters : ∀ clst ∈ [3, 4], oneEntry.vol.esb.IsCluster clst := by decide
  let io : ℕ → SlotIo := fun _ => ⟨true, .done, .done⟩
  rcases @released_of_deleteinode oneEntry 0 1 ⟨2, [2]⟩ ⟨3, [3, 4]⟩ io io longName .norm 0 found
      (Volume.ofTable_coherent fiveClusters_valid)
      (fun sectOff _ => Volume.ofTable_mirrored rfl _ _ _ sectOff) (by decide) clusters
      (List.nodup_singleton 2) linked lists (by decide) (by rw [begin, len]; decide)
      (fun _ => rfl) (fun _ => ⟨rfl, rfl⟩) isFound (by rw [begin, len]; decide) with
    ⟨fs', ran, released⟩
  exact ⟨found, fs', ran, len, released⟩

end Ninix.Fat32
