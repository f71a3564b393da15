import Ninix.Ext2.Descriptor
import Ninix.Vfs.Name
import Ninix.Library.Tiling

/-!
# Directories of records

A page of an EXT2 directory is filled with records. Each record has a length of its own that may
be more than it needs for its name, and a page without entries keeps one record whose inode
number is 0. `ext2_apply_direntry` puts a new record into the slack behind another one, into an
empty page or into a new page. `ext2_delete_direntry` gives the bytes of a record to the one in
front of it, or moves the one behind it to the start of the page.
-/

namespace Ninix.Ext2

open ByteBuffer Tiling Vfs

/-- `DIRENTRY_META_LEN` -/
abbrev direntryMetaLen : ℕ := 8

/-- `FILENAME_MX_LEN` -/
abbrev filenameMxLen : ℕ := 255

/-! ## Records -/

def ino (page : Bytes) (j : ℕ) : ℕ := read32 page j

def totalLen (page : Bytes) (j : ℕ) : ℕ := readLE page (j + 4) 2

def nameLen (page : Bytes) (j : ℕ) : ℕ := readLE page (j + 6) 1

def fileType (page : Bytes) (j : ℕ) : ℕ := readLE page (j + 7) 1

/-- The bytes a record with a name needs. For an empty name the shift of -1 to the right gives -1
again, and no byte is needed. -/
def lenNeeded (nameLen : ℕ) : ℕ :=
  (if nameLen = 0 then 0 else ((nameLen - 1) / 4 + 1) * 4) + direntryMetaLen

/-- `DIR_DIRECTORY` and `DIR_NORMFILE` -/
def dirType : LastType → ℕ
  | .dir => 2
  | .norm => 1

/-- The record `ext2_apply_direntry` makes in `dr`, whose last byte is padding. -/
def newDirentry (dr : Bytes) (name : Qstr) (ino lenTobe : ℕ) (type : LastType) : Bytes :=
  let dr := write32 dr 0 ino
  let dr := writeLE dr 4 2 lenTobe
  let dr := writeLE dr 6 1 name.len
  let dr := writeLE dr 7 1 (dirType type)
  let dr := fill dr direntryMetaLen filenameMxLen 0
  blit dr direntryMetaLen (fun i => UInt8.ofNat (name.name i)) 0 name.len

/-- Where a new record goes: the page as it is then, the offset there and the length. -/
structure Place where
  page : Bytes
  offset : ℕ
  lenTobe : ℕ

/-- The loop of `ext2_apply_direntry` over the records of a page. Without fuel left it does not
end. -/
def findInPage (size lenNeeded1 : ℕ) (page : Bytes) : ℕ → ℕ → Option (Option Place)
  | 0, _ => none
  | fuel + 1, j =>
      if j < size then
        if ino page j = 0 ∧ j = 0 then some (some ⟨fill page 0 size 0, 0, size⟩)
        else
          let lenTaken := totalLen page j
          let lenNeeded2 := lenNeeded (nameLen page j)
          if lenNeeded1 + lenNeeded2 ≤ lenTaken then
            some (some ⟨writeLE page (j + 4) 2 lenNeeded2, j + lenNeeded2, lenTaken - lenNeeded2⟩)
          else findInPage size lenNeeded1 page fuel (j + lenTaken)
      else some none

/-- The loop over the pages. -/
def findPlace (size lenNeeded1 : ℕ) : List Bytes → Option (Option (ℕ × Place))
  | [] => some none
  | page :: rest =>
      match findInPage size lenNeeded1 page (size + 1) 0 with
      | none => none
      | some (some place) => some (some (0, place))
      | some none => (findPlace size lenNeeded1 rest).map (·.map fun found => (found.1 + 1, found.2))

/-- The code of `-ENOPAGE` -/
def errNoPage : ℕ := sub32 0 519

/-- `ext2_apply_direntry`, where `created` is the page that `ext2_create_page` adds. -/
def applyDirentry (size : ℕ) (pages : List Bytes) (created : Option Bytes) (dr : Bytes)
    (name : Qstr) (ino : ℕ) (type : LastType) : Option (ℕ × List Bytes) :=
  let lenNeeded1 := lenNeeded name.len
  match findPlace size lenNeeded1 pages with
  | none => none
  | some (some (block, ⟨page, offset, lenTobe⟩)) =>
      let page := blit page offset (newDirentry dr name ino lenTobe type) 0 lenNeeded1
      some (0, pages.set block page)
  | some none =>
      match created with
      | none => some (errNoPage, pages)
      | some page =>
          let page := blit page 0 (newDirentry dr name ino size type) 0 lenNeeded1
          some (0, pages ++ [page])

/-- The loop of `ext2_delete_direntry` that looks for the record in front of an offset. -/
def findPrev (page : Bytes) (offset : ℕ) : ℕ → ℕ → Option ℕ
  | 0, _ => none
  | fuel + 1, prevOffset =>
      if totalLen page prevOffset + prevOffset = offset then some prevOffset
      else findPrev page offset fuel (prevOffset + totalLen page prevOffset)

/-- What `ext2_delete_direntry` does to a page. -/
def deleteInPage (size : ℕ) (page dr : Bytes) (offset : ℕ) : Option Bytes :=
  let lenTodelete := totalLen page offset
  if offset ≠ 0 then
    (findPrev page offset offset 0).map fun prevOffset =>
      let page := writeLE page (prevOffset + 4) 2 (totalLen page prevOffset + lenTodelete)
      fill page offset lenTodelete 0
  else if lenTodelete = size then some (write32 page 0 0)
  else
    let nextOffset := lenTodelete
    let needed := lenNeeded (nameLen page nextOffset)
    let dr := blit dr 0 page nextOffset needed
    let page := fill page 0 (nextOffset + needed) 0
    let dr := writeLE dr 4 2 (totalLen dr 0 + nextOffset)
    some (blit page 0 dr 0 needed)

/-- `ext2_delete_direntry` -/
def deleteDirentry (size : ℕ) (pages : List Bytes) (dr : Bytes) (block offset : ℕ) :
    Option (ℕ × List Bytes) :=
  match pages[block]? with
  | none => some (errNoPage, pages)
  | some page => (deleteInPage size page dr offset).map fun page => (0, pages.set block page)

/-! ## Entries -/

/-- What a live record says. -/
structure Entry where
  ino : ℕ
  name : List ℕ
  type : ℕ
  deriving DecidableEq

/-- The entry of a record. -/
def entryAt (page : Bytes) (j : ℕ) : Entry where
  ino := ino page j
  name := (List.range (nameLen page j)).map fun k => (page (j + direntryMetaLen + k)).toNat
  type := fileType page j

/-- The offsets of the records of a page, as `ext2_readdir` comes to them. -/
def records (size : ℕ) (page : Bytes) : List ℕ := walk (totalLen page) size size 0

/-- The entries of the live records among those at some offsets. -/
def entriesOf (page : Bytes) (positions : List ℕ) : List Entry :=
  (positions.filter (ino page · ≠ 0)).map (entryAt page)

/-- The entries of a page. -/
def pageEntries (size : ℕ) (page : Bytes) : List Entry := entriesOf page (records size page)

/-- The entries of a directory. -/
def entries (size : ℕ) (pages : List Bytes) : List Entry := pages.flatMap (pageEntries size)

/-- The entries in front of a position. -/
def entriesBefore (size : ℕ) (pages : List Bytes) (block offset : ℕ) : List Entry :=
  entries size (pages.take block) ++
    (pages[block]?.map fun page =>
      entriesOf page ((records size page).filter (· < offset))).getD []

/-- The length of a record is aligned and enough for its name. -/
structure Proper (page : Bytes) (j : ℕ) : Prop where
  aligned : 4 ∣ totalLen page j
  fits : 8 + (nameLen page j + 3) / 4 * 4 ≤ totalLen page j

/-- Records tile the page, and all of them are live but the record of an empty page. -/
structure WellFormed (size : ℕ) (page : Bytes) : Prop where
  tiles : Tiles (totalLen page) 0 (records size page) size
  proper : ∀ j ∈ records size page, Proper page j
  live : ∀ j ∈ records size page, ino page j ≠ 0 ∨ records size page = [0]

/-- There is a live record at a position. -/
def LiveAt (size : ℕ) (pages : List Bytes) (block offset : ℕ) : Prop :=
  ∃ page, pages[block]? = some page ∧ offset ∈ records size page ∧ ino page offset ≠ 0

/-! ## Records and the bytes they are read from -/

section

variable {size : ℕ} {page other : Bytes} {j start mid stop : ℕ} {positions front back : List ℕ}

/-- Two pages have the same bytes in a range. -/
def SameBytes (page other : Bytes) (start stop : ℕ) : Prop :=
  ∀ i, start ≤ i → i < stop → page i = other i

theorem lenNeeded_eq (len : ℕ) : lenNeeded len = 8 + (len + 3) / 4 * 4 := by
  unfold lenNeeded direntryMetaLen
  split <;> omega

theorem lenNeeded_ge (len : ℕ) : 8 + len ≤ lenNeeded len := by
  rw [lenNeeded_eq]
  omega

theorem Proper.needed (proper : Proper page j) : lenNeeded (nameLen page j) ≤ totalLen page j := by
  rw [lenNeeded_eq]
  exact proper.fits

theorem Proper.meta_le (proper : Proper page j) : 8 ≤ totalLen page j :=
  le_trans (le_trans (Nat.le_add_right _ _) (lenNeeded_ge _)) proper.needed

theorem totalLen_lt : totalLen page j < 65536 := readLE_lt page (j + 4) 2

/-- The number and the name of a record that is moved are the same. -/
theorem record_shift (page other : Bytes) (j j' : ℕ)
    (agree : ∀ i < lenNeeded (nameLen page j), i < 4 ∨ 6 ≤ i → other (j' + i) = page (j + i)) :
    ino other j' = ino page j ∧ nameLen other j' = nameLen page j ∧
      entryAt other j' = entryAt page j := by
  have needed := lenNeeded_ge (nameLen page j)
  have sameIno : ino other j' = ino page j :=
    readLE_shift fun i lt => agree i (by omega) (by omega)
  have sameLen : nameLen other j' = nameLen page j :=
    readLE_shift fun i lt => by
      have := agree (6 + i) (by omega) (by omega)
      simpa only [Nat.add_assoc] using this
  have sameType : fileType other j' = fileType page j :=
    readLE_shift fun i lt => by
      have := agree (7 + i) (by omega) (by omega)
      simpa only [Nat.add_assoc] using this
  refine ⟨sameIno, sameLen, ?_⟩
  simp only [entryAt, sameIno, sameLen, sameType, Entry.mk.injEq, true_and, and_true]
  apply List.map_congr_left
  intro k mem
  have lt := List.mem_range.mp mem
  have same := agree (8 + k) (by omega) (by omega)
  rw [← Nat.add_assoc, ← Nat.add_assoc] at same
  rw [same]

/-- A record is read from the bytes up to the next one. -/
theorem Proper.congr (proper : Proper page j)
    (same : SameBytes page other j (j + totalLen page j)) :
    totalLen other j = totalLen page j ∧ Proper other j ∧ ino other j = ino page j ∧
      entryAt other j = entryAt page j := by
  have needed := proper.needed
  have short := proper.meta_le
  have sameTotal : totalLen other j = totalLen page j :=
    readLE_congr fun i lower upper => (same i (by omega) (by omega)).symm
  rcases record_shift page other j j fun i lt _ => (same (j + i) (by omega) (by omega)).symm with
    ⟨sameIno, sameLen, sameEntry⟩
  refine ⟨sameTotal, ⟨?_, ?_⟩, sameIno, sameEntry⟩
  · rw [sameTotal]
    exact proper.aligned
  · rw [sameTotal, sameLen]
    exact proper.fits

/-! ## Runs of live records -/

/-- Live records tile a range of a page. -/
structure LiveRun (page : Bytes) (start : ℕ) (positions : List ℕ) (stop : ℕ) : Prop where
  tiles : Tiles (totalLen page) start positions stop
  proper : ∀ j ∈ positions, Proper page j
  live : ∀ j ∈ positions, ino page j ≠ 0

namespace LiveRun

theorem append (first : LiveRun page start front mid) (second : LiveRun page mid back stop) :
    LiveRun page start (front ++ back) stop where
  tiles := first.tiles.append second.tiles
  proper j mem := (List.mem_append.mp mem).elim (first.proper j) (second.proper j)
  live j mem := (List.mem_append.mp mem).elim (first.live j) (second.live j)

/-- One live record. -/
theorem single (proper : Proper page j) (live : ino page j ≠ 0) (ends : j + totalLen page j = stop) :
    LiveRun page j [j] stop where
  tiles := by
    have := proper.meta_le
    rw [← ends]
    exact .single (by omega)
  proper i mem := by
    rw [List.mem_singleton.mp mem]
    exact proper
  live i mem := by
    rw [List.mem_singleton.mp mem]
    exact live

/-- A record cuts a run in two. -/
theorem split (run : LiveRun page start positions stop) (mem : j ∈ positions) :
    ∃ front back, positions = front ++ j :: back ∧ LiveRun page start front j ∧
      LiveRun page (j + totalLen page j) back stop := by
  rcases run.tiles.split mem with ⟨front, back, rfl, first, second⟩
  refine ⟨front, back, rfl, ⟨first, ?_, ?_⟩, ⟨second, ?_, ?_⟩⟩
  · exact fun i mem => run.proper i (by simp [mem])
  · exact fun i mem => run.live i (by simp [mem])
  · exact fun i mem => run.proper i (by simp [mem])
  · exact fun i mem => run.live i (by simp [mem])

/-- The first record of a run. -/
theorem head (run : LiveRun page start (j :: back) stop) :
    j = start ∧ Proper page j ∧ ino page j ≠ 0 ∧ LiveRun page (j + totalLen page j) back stop := by
  rcases run with ⟨tiles, proper, live⟩
  refine ⟨?_, proper j (by simp), live j (by simp), ?_, ?_, ?_⟩
  · cases tiles
    rfl
  · cases tiles
    assumption
  · exact fun i mem => proper i (by simp [mem])
  · exact fun i mem => live i (by simp [mem])

/-- The last record of a run. -/
theorem last (run : LiveRun page start positions stop) (nonempty : start ≠ stop) :
    ∃ front j, positions = front ++ [j] ∧ LiveRun page start front j ∧
      Proper page j ∧ ino page j ≠ 0 ∧ j + totalLen page j = stop := by
  rcases run.tiles.last nonempty with ⟨front, j, rfl, first, ends⟩
  refine ⟨front, j, rfl, ⟨first, ?_, ?_⟩, run.proper j (by simp), run.live j (by simp), ends⟩
  · exact fun i mem => run.proper i (by simp [mem])
  · exact fun i mem => run.live i (by simp [mem])

/-- A run stays as it is when nothing in its range changes. -/
theorem congr (run : LiveRun page start positions stop) (other : Bytes)
    (same : SameBytes page other start stop) :
    LiveRun other start positions stop ∧
      positions.map (entryAt other) = positions.map (entryAt page) := by
  have records : ∀ j ∈ positions, totalLen other j = totalLen page j ∧ Proper other j ∧
      ino other j = ino page j ∧ entryAt other j = entryAt page j := by
    intro j mem
    rcases run.tiles.bounds mem with ⟨after, _, before⟩
    exact (run.proper j mem).congr fun i lower upper => same i (by omega) (by omega)
  refine ⟨⟨run.tiles.congr fun j mem => (records j mem).1.symm, ?_, ?_⟩, ?_⟩
  · exact fun j mem => (records j mem).2.1
  · intro j mem
    rw [(records j mem).2.2.1]
    exact run.live j mem
  · exact List.map_congr_left fun j mem => (records j mem).2.2.2

/-- A page filled by a run is well formed, and its entries are those of the run. -/
theorem wellFormed (run : LiveRun page 0 positions size) :
    WellFormed size page ∧ records size page = positions ∧
      pageEntries size page = positions.map (entryAt page) := by
  have walked : records size page = positions := run.tiles.walk_eq (by omega)
  refine ⟨⟨?_, ?_, ?_⟩, walked, ?_⟩
  · rw [walked]
    exact run.tiles
  · rw [walked]
    exact run.proper
  · rw [walked]
    exact fun j mem => Or.inl (run.live j mem)
  · rw [pageEntries, entriesOf, walked, List.filter_eq_self.mpr]
    exact fun j mem => by simpa using run.live j mem

end LiveRun

/-- Records tile a page with a dead record. -/
structure DeadPage (size : ℕ) (page : Bytes) : Prop where
  spans : totalLen page 0 = size
  proper : Proper page 0
  dead : ino page 0 = 0

namespace DeadPage

theorem records_eq (empty : DeadPage size page) : records size page = [0] := by
  have positive := empty.proper.meta_le
  have tiles : Tiles (totalLen page) 0 [0] (0 + totalLen page 0) := .single (by omega)
  rw [Nat.zero_add, empty.spans] at tiles
  exact tiles.walk_eq (by omega)

/-- An empty page is well formed and has no entries. -/
theorem wellFormed (empty : DeadPage size page) :
    WellFormed size page ∧ pageEntries size page = [] := by
  have positive := empty.proper.meta_le
  have tiles : Tiles (totalLen page) 0 [0] (0 + totalLen page 0) := .single (by omega)
  rw [Nat.zero_add, empty.spans] at tiles
  have walked := empty.records_eq
  refine ⟨⟨?_, ?_, ?_⟩, ?_⟩
  · rw [walked]
    exact tiles
  · rw [walked]
    intro j mem
    rw [List.mem_singleton.mp mem]
    exact empty.proper
  · exact fun _ _ => Or.inr walked
  · simp [pageEntries, entriesOf, walked, empty.dead]

end DeadPage

/-- A well formed page is filled by live records, or it is empty. -/
theorem WellFormed.cases (formed : WellFormed size page) :
    LiveRun page 0 (records size page) size ∨ DeadPage size page := by
  by_cases live : ∀ j ∈ records size page, ino page j ≠ 0
  · exact Or.inl ⟨formed.tiles, formed.proper, live⟩
  · push Not at live
    rcases live with ⟨j, mem, dead⟩
    have only : records size page = [0] := (formed.live j mem).resolve_left (not_not.mpr dead)
    have tiles := formed.tiles
    have proper := formed.proper
    rw [only] at mem tiles proper
    rw [List.mem_singleton.mp mem] at dead
    refine Or.inr ⟨?_, proper 0 (by simp), dead⟩
    cases tiles with
    | cons _ rest =>
        cases rest
        rw [Nat.zero_add]

/-! ## Writing a record -/

/-- The entry of a new record. -/
def newEntry (name : Qstr) (ino : ℕ) (type : LastType) : Entry := ⟨ino, name.toList, dirType type⟩

/-- What `ext2_apply_direntry` is called with: a name of bytes that fits, and an inode number. -/
structure Request (name : Qstr) (ino : ℕ) : Prop where
  nonempty : 0 < name.len
  short : name.len ≤ filenameMxLen
  bytes : ∀ i < name.len, name.name i < 256
  positive : 0 < ino
  number : ino < 4294967296

variable (dr : Bytes) {name : Qstr} {number lenTobe : ℕ} (type : LastType)

/-- The fields of a new record. -/
theorem newDirentry_fields (request : Request name number) (small : lenTobe < 65536) :
    totalLen (newDirentry dr name number lenTobe type) 0 = lenTobe ∧
      nameLen (newDirentry dr name number lenTobe type) 0 = name.len ∧
      entryAt (newDirentry dr name number lenTobe type) 0 = newEntry name number type := by
  have short := request.short
  unfold filenameMxLen at short
  have header : ∀ offset width, offset + width ≤ 8 →
      readLE (newDirentry dr name number lenTobe type) offset width =
        readLE (writeLE (writeLE (writeLE (write32 dr 0 number) 4 2 lenTobe) 6 1 name.len)
          7 1 (dirType type)) offset width := by
    intro offset width le
    apply readLE_congr
    intro i _ upper
    have inMeta : i < direntryMetaLen := show i < 8 by omega
    rw [newDirentry, blit_outside (Or.inl inMeta), fill_outside (Or.inl inMeta)]
  have lenEq : nameLen (newDirentry dr name number lenTobe type) 0 = name.len := by
    rw [nameLen, header _ _ (by omega), readLE_writeLE_of_disjoint _ (by omega),
      readLE_writeLE_same]
    exact Nat.mod_eq_of_lt (by omega)
  refine ⟨?_, lenEq, ?_⟩
  · rw [totalLen, header _ _ (by omega), readLE_writeLE_of_disjoint _ (by omega),
      readLE_writeLE_of_disjoint _ (by omega), readLE_writeLE_same]
    exact Nat.mod_eq_of_lt small
  · rw [newEntry, entryAt, lenEq, Entry.mk.injEq]
    refine ⟨?_, ?_, ?_⟩
    · rw [ino, read32, header _ _ (by omega), readLE_writeLE_of_disjoint _ (by omega),
        readLE_writeLE_of_disjoint _ (by omega), readLE_writeLE_of_disjoint _ (by omega),
        readLE_writeLE_same]
      exact Nat.mod_eq_of_lt request.number
    · apply List.map_congr_left
      intro k mem
      have lt := List.mem_range.mp mem
      have byte := request.bytes k lt
      have place : 0 + (0 + direntryMetaLen + k - direntryMetaLen) = k := by omega
      rw [newDirentry, blit_inside (by omega) (by omega), place, UInt8.toNat_ofNat']
      exact Nat.mod_eq_of_lt byte
    · rw [fileType, header _ _ (by omega), readLE_writeLE_same]
      cases type <;> rfl

/-- A new record is proper and live where it is written. -/
theorem written (request : Request name number) (small : lenTobe < 65536) (aligned : 4 ∣ lenTobe)
    (enough : lenNeeded name.len ≤ lenTobe) (target : Bytes) (j : ℕ)
    (agree : ∀ i < lenNeeded name.len,
      target (j + i) = newDirentry dr name number lenTobe type i) :
    LiveRun target j [j] (j + lenTobe) ∧ entryAt target j = newEntry name number type := by
  rcases newDirentry_fields dr type request small with ⟨total, len, entry⟩
  have needed := lenNeeded_ge name.len
  rcases record_shift (newDirentry dr name number lenTobe type) target 0 j (by
      intro i lt _
      rw [len] at lt
      rw [Nat.zero_add]
      exact agree i lt) with ⟨inoEq, lenEq, entryEq⟩
  have totalEq : totalLen target j = lenTobe := by
    rw [← total]
    apply readLE_shift
    intro i lt
    have := agree (4 + i) (by omega)
    simpa only [Nat.add_assoc, Nat.zero_add] using this
  have live : ino target j ≠ 0 := by
    have same : ino target j = number := by
      have := congrArg Entry.ino (entryEq.trans entry)
      exact this
    have := request.positive
    omega
  refine ⟨.single ⟨?_, ?_⟩ live (by rw [totalEq]), entryEq.trans entry⟩
  · rw [totalEq]
    exact aligned
  · rw [totalEq, lenEq, len, ← lenNeeded_eq]
    exact enough

/-! ## Adding an entry -/

/-- A list is another one with one more element. -/
def Inserted {α : Type*} (e : α) (old new : List α) : Prop :=
  ∃ before after, old = before ++ after ∧ new = before ++ e :: after

/-- A record that fills a page. -/
theorem written_page (page : Bytes) (request : Request name number) (small : size < 65536)
    (aligned : 4 ∣ size) (large : 264 ≤ size) :
    WellFormed size (blit page 0 (newDirentry dr name number size type) 0 (lenNeeded name.len)) ∧
      pageEntries size
        (blit page 0 (newDirentry dr name number size type) 0 (lenNeeded name.len)) =
        [newEntry name number type] := by
  have short := request.short
  have needed : lenNeeded name.len ≤ size := by
    rw [lenNeeded_eq]
    unfold filenameMxLen at short
    omega
  rcases written dr type request small aligned needed
    (blit page 0 (newDirentry dr name number size type) 0 (lenNeeded name.len)) 0
    (fun i lt => by
      rw [blit_inside (Nat.zero_le _) (by omega)]
      congr 1
      omega) with ⟨run, entry⟩
  rw [Nat.zero_add] at run
  rcases run.wellFormed with ⟨formed, _, entries⟩
  refine ⟨formed, ?_⟩
  rw [entries, List.map_singleton, entry]

/-- A record takes the slack behind another one, which keeps `len` bytes. -/
theorem split_record {len : ℕ} (request : Request name number)
    (run : LiveRun page 0 positions size) (mem : j ∈ positions)
    (kept : lenNeeded (nameLen page j) = len) (room : lenNeeded name.len + len ≤ totalLen page j)
    (outside : ∀ i, (i < j + 4 ∨ j + 6 ≤ i) → (i < j + len ∨ j + len + lenNeeded name.len ≤ i) →
      other i = page i)
    (shrunk : totalLen other j = len)
    (record : ∀ i < lenNeeded name.len,
      other (j + len + i) = newDirentry dr name number (totalLen page j - len) type i) :
    WellFormed size other ∧
      Inserted (newEntry name number type) (pageEntries size page) (pageEntries size other) := by
  rcases run.split mem with ⟨front, back, eq, first, second⟩
  have proper := run.proper j mem
  have total : totalLen page j < 65536 := totalLen_lt
  have least := lenNeeded_ge (nameLen page j)
  have aligned : 4 ∣ len := by
    rw [← kept, lenNeeded_eq]
    omega
  -- the record in front keeps its entry and gets the length it needs
  rcases record_shift page other j j
    (fun i lt apart => outside (j + i) (by omega) (by omega)) with ⟨inoEq, lenEq, entryEq⟩
  have frontRun : LiveRun other j [j] (j + len) := by
    refine .single ⟨?_, ?_⟩ ?_ (by rw [shrunk])
    · rw [shrunk]
      exact aligned
    · rw [shrunk, lenEq, ← lenNeeded_eq, kept]
    · rw [inoEq]
      exact run.live j mem
  have small : totalLen page j - len < 65536 := by omega
  have rest : 4 ∣ totalLen page j - len := Nat.dvd_sub proper.aligned aligned
  rcases written dr type request small rest (by omega) other (j + len) record with
    ⟨newRun, newEq⟩
  have place : j + len + (totalLen page j - len) = j + totalLen page j := by omega
  rw [place] at newRun
  rcases first.congr other (fun i _ upper => (outside i (by omega) (by omega)).symm) with
    ⟨first', firstEq⟩
  rcases second.congr other
    (fun i lower _ => (outside i (by omega) (by omega)).symm) with ⟨second', secondEq⟩
  rcases (first'.append (frontRun.append (newRun.append second'))).wellFormed with
    ⟨formed, _, entries⟩
  refine ⟨formed, front.map (entryAt page) ++ [entryAt page j], back.map (entryAt page), ?_, ?_⟩
  · rw [run.wellFormed.2.2, eq]
    simp
  · rw [entries]
    simp [firstEq, secondEq, entryEq, newEq]

/-- What is written into the slack behind a record. -/
theorem split_place (request : Request name number) (run : LiveRun page 0 positions size)
    (mem : j ∈ positions)
    (room : lenNeeded name.len + lenNeeded (nameLen page j) ≤ totalLen page j) :
    WellFormed size (blit (writeLE page (j + 4) 2 (lenNeeded (nameLen page j)))
        (j + lenNeeded (nameLen page j)) (newDirentry dr name number
          (totalLen page j - lenNeeded (nameLen page j)) type) 0 (lenNeeded name.len)) ∧
      Inserted (newEntry name number type) (pageEntries size page)
        (pageEntries size (blit (writeLE page (j + 4) 2 (lenNeeded (nameLen page j)))
          (j + lenNeeded (nameLen page j)) (newDirentry dr name number
            (totalLen page j - lenNeeded (nameLen page j)) type) 0 (lenNeeded name.len))) := by
  have total : totalLen page j < 65536 := totalLen_lt
  have least := lenNeeded_ge (nameLen page j)
  generalize kept : lenNeeded (nameLen page j) = len at room least ⊢
  apply split_record dr type request run mem kept room
  · intro i here there
    rw [blit_outside there, writeLE_outside (by omega)]
  · have written : totalLen (blit (writeLE page (j + 4) 2 len) (j + len) (newDirentry dr name number
        (totalLen page j - len) type) 0 (lenNeeded name.len)) j =
        readLE (writeLE page (j + 4) 2 len) (j + 4) 2 :=
      readLE_congr fun i _ _ => blit_outside (by omega)
    rw [written, readLE_writeLE_same]
    exact Nat.mod_eq_of_lt (by omega)
  · intro i lt
    have same : 0 + (j + len + i - (j + len)) = i := by omega
    rw [blit_inside (by omega) (by omega), same]

/-- The loop over a run ends, and it finds slack behind a record or none. -/
theorem findInPage_run {fuel : ℕ} (len : ℕ) (run : LiveRun page start positions size)
    (enough : size < start + fuel) :
    findInPage size len page fuel start = some none ∨
      ∃ j ∈ positions, findInPage size len page fuel start = some (some
          ⟨writeLE page (j + 4) 2 (lenNeeded (nameLen page j)), j + lenNeeded (nameLen page j),
            totalLen page j - lenNeeded (nameLen page j)⟩) ∧
        len + lenNeeded (nameLen page j) ≤ totalLen page j := by
  rcases run with ⟨tiles, proper, live⟩
  induction tiles generalizing fuel with
  | nil stop =>
      cases fuel with
      | zero => omega
      | succ fuel => simp [findInPage]
  | @cons i stop rest positive tiles ih =>
      have below : i < stop := by
        have := tiles.le
        omega
      cases fuel with
      | zero => omega
      | succ fuel =>
          have alive : ¬(ino page i = 0 ∧ i = 0) := fun dead => live i (by simp) dead.1
          simp only [findInPage, below, alive, if_true, if_false]
          by_cases room : len + lenNeeded (nameLen page i) ≤ totalLen page i
          · exact Or.inr ⟨i, by simp, by simp [room], room⟩
          · simp only [room, if_false]
            have later : stop < i + totalLen page i + fuel := by omega
            rcases ih later (fun j mem => proper j (by simp [mem]))
              (fun j mem => live j (by simp [mem])) with none | ⟨j, mem, found⟩
            · exact Or.inl none
            · exact Or.inr ⟨j, by simp [mem], found⟩

/-- The search in a well formed page ends, and a record written where it says adds the entry. -/
theorem page_place (request : Request name number) (small : size < 65536) (aligned : 4 ∣ size)
    (large : 264 ≤ size) (formed : WellFormed size page) :
    findInPage size (lenNeeded name.len) page (size + 1) 0 = some none ∨
      ∃ place, findInPage size (lenNeeded name.len) page (size + 1) 0 = some (some place) ∧
        WellFormed size (blit place.page place.offset
          (newDirentry dr name number place.lenTobe type) 0 (lenNeeded name.len)) ∧
        Inserted (newEntry name number type) (pageEntries size page)
          (pageEntries size (blit place.page place.offset
            (newDirentry dr name number place.lenTobe type) 0 (lenNeeded name.len))) := by
  rcases formed.cases with run | empty
  · have enough : size < 0 + (size + 1) := by omega
    rcases findInPage_run (lenNeeded name.len) run enough with
      none | ⟨j, mem, found, room⟩
    · exact Or.inl none
    · exact Or.inr ⟨_, found, split_place dr type request run mem room⟩
  · refine Or.inr ⟨⟨fill page 0 size 0, 0, size⟩, ?_, ?_⟩
    · have positive : 0 < size := by omega
      simp [findInPage, positive, empty.dead]
    · rcases written_page dr type (fill page 0 size 0) request small aligned large with ⟨formed', entries⟩
      refine ⟨formed', [], [], ?_, ?_⟩
      · exact empty.wellFormed.2
      · exact entries

/-- The loop over the pages stops at the first page with a place, or finds none. -/
theorem findPlace_cases {len : ℕ} {pages : List Bytes} (ends : ∀ page ∈ pages,
      findInPage size len page (size + 1) 0 = some none ∨
        ∃ place, findInPage size len page (size + 1) 0 = some (some place)) :
    findPlace size len pages = some none ∨
      ∃ front page back place, pages = front ++ page :: back ∧
        findPlace size len pages = some (some (front.length, place)) ∧
        findInPage size len page (size + 1) 0 = some (some place) := by
  induction pages with
  | nil => exact Or.inl rfl
  | cons page rest ih =>
      rcases ends page (by simp) with none | ⟨place, found⟩
      · simp only [findPlace, none]
        rcases ih fun page mem => ends page (by simp [mem]) with
          none | ⟨front, page', back, place, rfl, later, found⟩
        · exact Or.inl (by simp [none])
        · exact Or.inr ⟨page :: front, page', back, place, rfl, by simp [later], found⟩
      · exact Or.inr ⟨[], page, rest, place, rfl, by simp [findPlace, found], found⟩

theorem entries_append (pages more : List Bytes) :
    entries size (pages ++ more) = entries size pages ++ entries size more := by
  simp [entries]

theorem entries_cons (page : Bytes) (pages : List Bytes) :
    entries size (page :: pages) = pageEntries size page ++ entries size pages := by
  simp [entries]

/-- An entry that is added to a page is added to the directory. -/
theorem Inserted.pages {e : Entry} {before after : List Bytes}
    (inserted : Inserted e (pageEntries size page) (pageEntries size other)) :
    Inserted e (entries size (before ++ page :: after)) (entries size (before ++ other :: after)) := by
  rcases inserted with ⟨front, back, old, new⟩
  refine ⟨entries size before ++ front, back ++ entries size after, ?_, ?_⟩
  · rw [entries_append, entries_cons, old]
    simp
  · rw [entries_append, entries_cons, new]
    simp

/-- `ext2_apply_direntry` adds the entry to a directory of well formed pages. -/
theorem applyDirentry_spec {pages : List Bytes} {created : Bytes}
    (request : Request name number) (small : size < 65536) (aligned : 4 ∣ size) (large : 264 ≤ size)
    (formed : ∀ page ∈ pages, WellFormed size page) :
    ∃ pages', applyDirentry size pages (some created) dr name number type = some (0, pages') ∧
      (∀ page ∈ pages', WellFormed size page) ∧
      Inserted (newEntry name number type) (entries size pages) (entries size pages') := by
  have place := fun page mem =>
    page_place dr type request small aligned large (formed page mem)
  have ends : ∀ page ∈ pages, findInPage size (lenNeeded name.len) page (size + 1) 0 = some none ∨
      ∃ place, findInPage size (lenNeeded name.len) page (size + 1) 0 = some (some place) :=
    fun page mem => (place page mem).imp id fun found => ⟨found.choose, found.choose_spec.1⟩
  rcases findPlace_cases ends with none | ⟨front, page, back, found, rfl, search, inPage⟩
  · rcases written_page dr type created request small aligned large with
      ⟨formed', added⟩
    have applied : applyDirentry size pages (some created) dr name number type = some (0, pages ++
        [blit created 0 (newDirentry dr name number size type) 0 (lenNeeded name.len)]) := by
      simp only [applyDirentry, none]
    refine ⟨_, applied, ?_, entries size pages, [], ?_, ?_⟩
    · intro page mem
      rcases List.mem_append.mp mem with old | new
      · exact formed page old
      · rw [List.mem_singleton.mp new]
        exact formed'
    · simp
    · rw [entries_append, entries_cons, added]
      simp [entries]
  · rcases place page (by simp) with none | ⟨found', inPage', formed', inserted⟩
    · rw [inPage] at none
      simp at none
    · rw [inPage] at inPage'
      cases inPage'
      have applied : applyDirentry size (front ++ page :: back) (some created) dr name number type =
          some (0, front ++ blit found.page found.offset
            (newDirentry dr name number found.lenTobe type) 0 (lenNeeded name.len) :: back) := by
        simp only [applyDirentry, search, List.set_append_right _ _ le_rfl, Nat.sub_self,
          List.set_cons_zero]
      refine ⟨_, applied, ?_, inserted.pages⟩
      intro page' mem
      rcases List.mem_append.mp mem with before | here
      · exact formed page' (by simp [before])
      · rcases List.mem_cons.mp here with rfl | after
        · exact formed'
        · exact formed page' (by simp [after])

/-! ## Deleting an entry -/

/-- The search for the record in front of an offset finds it. -/
theorem findPrev_eq {offset prev fuel : ℕ} (tiles : Tiles (totalLen page) start positions offset)
    (last : positions = front ++ [prev]) (enough : offset ≤ start + fuel) :
    findPrev page offset fuel start = some prev := by
  induction front generalizing start positions fuel with
  | nil =>
      subst last
      cases tiles with
      | cons positive rest =>
          cases rest
          cases fuel with
          | zero => omega
          | succ fuel => simp [findPrev, Nat.add_comm]
  | cons i front ih =>
      subst last
      cases tiles with
      | cons positive rest =>
          rcases rest.bounds (i := prev) (by simp) with ⟨after, positive', before⟩
          cases fuel with
          | zero => omega
          | succ fuel =>
              have notYet : totalLen page i + i ≠ offset := by omega
              simp only [findPrev, notYet, if_false]
              exact ih rest rfl (by omega)

/-- A list is another one with one element less behind the given ones. -/
def Removed {α : Type*} (before : List α) (e : α) (old new : List α) : Prop :=
  ∃ after, old = before ++ e :: after ∧ new = before ++ after

/-- A record gives its bytes to the one in front of it. -/
theorem merge_record {prev : ℕ} (first : LiveRun page 0 front prev) (proper : Proper page prev)
    (live : ino page prev ≠ 0) (ends : prev + totalLen page prev = j) (proper' : Proper page j)
    (behind : LiveRun page (j + totalLen page j) back size) (small : size < 65536) :
    WellFormed size (fill (writeLE page (prev + 4) 2 (totalLen page prev + totalLen page j)) j
        (totalLen page j) 0) ∧
      pageEntries size (fill (writeLE page (prev + 4) 2 (totalLen page prev + totalLen page j)) j
        (totalLen page j) 0) = (front ++ [prev]).map (entryAt page) ++ back.map (entryAt page) := by
  generalize changed : fill (writeLE page (prev + 4) 2 (totalLen page prev + totalLen page j)) j
    (totalLen page j) 0 = other
  have least := proper.needed
  have header := proper.meta_le
  have atEnd := behind.tiles.le
  have outside : ∀ i, (i < prev + 4 ∨ prev + 6 ≤ i) → (i < j ∨ j + totalLen page j ≤ i) →
      other i = page i := fun i apart away => by
    rw [← changed, fill_outside away, writeLE_outside (by omega)]
  rcases record_shift page other prev prev
    (fun i lt apart => outside (prev + i) (by omega) (by omega)) with ⟨inoEq, lenEq, entryEq⟩
  have totalEq : totalLen other prev = totalLen page prev + totalLen page j := by
    have written : totalLen other prev = readLE
        (writeLE page (prev + 4) 2 (totalLen page prev + totalLen page j)) (prev + 4) 2 := by
      rw [← changed]
      exact readLE_congr fun i _ _ => fill_outside (by omega)
    rw [written, readLE_writeLE_same]
    exact Nat.mod_eq_of_lt (by omega)
  have grown : LiveRun other prev [prev] (j + totalLen page j) := by
    refine .single ⟨?_, ?_⟩ ?_ (by omega)
    · rw [totalEq]
      exact Nat.dvd_add proper.aligned proper'.aligned
    · rw [totalEq, lenEq]
      exact le_trans proper.fits (Nat.le_add_right _ _)
    · rw [inoEq]
      exact live
  rcases first.congr other (fun i _ upper => (outside i (by omega) (by omega)).symm) with
    ⟨first', firstEq⟩
  rcases behind.congr other
    (fun i lower _ => (outside i (by omega) (by omega)).symm) with ⟨behind', behindEq⟩
  rcases (first'.append (grown.append behind')).wellFormed with ⟨formed, _, entries⟩
  refine ⟨formed, ?_⟩
  rw [entries]
  simp [firstEq, behindEq, entryEq]

/-- The only record of a page dies. -/
theorem kill_record (proper : Proper page 0) (spans : totalLen page 0 = size) :
    WellFormed size (write32 page 0 0) ∧ pageEntries size (write32 page 0 0) = [] := by
  have totalEq : totalLen (write32 page 0 0) 0 = totalLen page 0 :=
    readLE_writeLE_of_disjoint page (by omega)
  have lenEq : nameLen (write32 page 0 0) 0 = nameLen page 0 :=
    readLE_writeLE_of_disjoint page (by omega)
  have empty : DeadPage size (write32 page 0 0) := by
    refine ⟨?_, ⟨?_, ?_⟩, ?_⟩
    · rw [totalEq, spans]
    · rw [totalEq]
      exact proper.aligned
    · rw [totalEq, lenEq]
      exact proper.fits
    · exact read32_write32_same page 0 0
  exact empty.wellFormed

/-- The record behind the first one moves to the start of the page. -/
theorem pull_record {next len : ℕ} (proper : Proper page next) (live : ino page next ≠ 0)
    (aligned : 4 ∣ next) (needed : lenNeeded (nameLen page next) = len)
    (behind : LiveRun page (next + totalLen page next) back size) (small : size < 65536) :
    WellFormed size (blit (fill page 0 (next + len) 0) 0
        (writeLE (blit dr 0 page next len) 4 2 (totalLen (blit dr 0 page next len) 0 + next))
        0 len) ∧
      pageEntries size (blit (fill page 0 (next + len) 0) 0
        (writeLE (blit dr 0 page next len) 4 2 (totalLen (blit dr 0 page next len) 0 + next))
        0 len) = entryAt page next :: back.map (entryAt page) := by
  have least := lenNeeded_ge (nameLen page next)
  have header := proper.needed
  have atEnd := behind.tiles.le
  have copied : ∀ i < len, blit dr 0 page next len i = page (next + i) := fun i lt => by
    rw [blit_inside (Nat.zero_le i) (by omega), Nat.sub_zero]
  have copiedLen : totalLen (blit dr 0 page next len) 0 = totalLen page next :=
    readLE_shift fun i lt => by
      rw [copied (0 + 4 + i) (by omega)]
      congr 1
      omega
  rw [copiedLen]
  generalize changed : blit (fill page 0 (next + len) 0) 0
    (writeLE (blit dr 0 page next len) 4 2 (totalLen page next + next)) 0 len = other
  have inside : ∀ i < len, other i =
      writeLE (blit dr 0 page next len) 4 2 (totalLen page next + next) i := fun i lt => by
    rw [← changed, blit_inside (Nat.zero_le i) (by omega)]
    congr 1
    omega
  have outside : ∀ i, next + len ≤ i → other i = page i := fun i lower => by
    rw [← changed, blit_outside (by omega), fill_outside (by omega)]
  rcases record_shift page other next 0
    (fun i lt apart => by
      rw [Nat.zero_add, inside i (by omega), writeLE_outside (by omega), copied i (by omega)])
    with ⟨inoEq, lenEq, entryEq⟩
  have totalEq : totalLen other 0 = totalLen page next + next := by
    have written : totalLen other 0 = readLE
        (writeLE (blit dr 0 page next len) 4 2 (totalLen page next + next)) 4 2 :=
      readLE_congr fun i _ upper => inside i (by omega)
    rw [written, readLE_writeLE_same]
    exact Nat.mod_eq_of_lt (by omega)
  have moved : LiveRun other 0 [0] (next + totalLen page next) := by
    refine .single ⟨?_, ?_⟩ ?_ (by omega)
    · rw [totalEq]
      exact Nat.dvd_add proper.aligned aligned
    · rw [totalEq, lenEq]
      exact le_trans proper.fits (Nat.le_add_right _ _)
    · rw [inoEq]
      exact live
  rcases behind.congr other (fun i lower _ => (outside i (by omega)).symm) with
    ⟨behind', behindEq⟩
  rcases (moved.append behind').wellFormed with ⟨formed, _, entries⟩
  refine ⟨formed, ?_⟩
  rw [entries]
  simp [behindEq, entryEq]

/-- The offsets in front of a record of a run. -/
theorem filter_before (first : LiveRun page 0 front j)
    (behind : LiveRun page (j + totalLen page j) back size) :
    (front ++ j :: back).filter (· < j) = front := by
  have before : front.filter (· < j) = front := List.filter_eq_self.mpr fun i mem => by
    have := first.tiles.bounds mem
    simp only [decide_eq_true_eq]
    omega
  have after : back.filter (· < j) = [] := List.filter_eq_nil_iff.mpr fun i mem => by
    have := behind.tiles.bounds mem
    simp only [decide_eq_true_eq]
    omega
  simp [before, after]

/-- A live record of a well formed page is deleted, and nothing else. -/
theorem deleteInPage_spec (formed : WellFormed size page) (mem : j ∈ records size page)
    (live : ino page j ≠ 0) (small : size < 65536) :
    ∃ page', deleteInPage size page dr j = some page' ∧ WellFormed size page' ∧
      Removed (entriesOf page ((records size page).filter (· < j))) (entryAt page j)
        (pageEntries size page) (pageEntries size page') := by
  rcases formed.cases with run | empty
  swap
  · rw [empty.records_eq] at mem
    rw [List.mem_singleton.mp mem] at live
    exact absurd empty.dead live
  have proper := run.proper j mem
  have listed : pageEntries size page = (records size page).map (entryAt page) := run.wellFormed.2.2
  rcases run.split mem with ⟨front, back, eq, first, behind⟩
  have frontEq : entriesOf page ((records size page).filter (· < j)) = front.map (entryAt page) := by
    rw [eq, filter_before first behind, entriesOf, List.filter_eq_self.mpr]
    exact fun i mem => by simpa using first.live i mem
  rw [frontEq, listed, eq]
  by_cases start : j = 0
  · subst start
    have frontNil : front = [] := List.eq_nil_iff_forall_not_mem.mpr fun i mem => by
      have := first.tiles.bounds mem
      omega
    subst frontNil
    rw [Nat.zero_add] at behind
    have atEnd := behind.tiles.le
    by_cases only : totalLen page 0 = size
    · have backNil : back = [] := List.eq_nil_iff_forall_not_mem.mpr fun i mem => by
        have := behind.tiles.bounds mem
        omega
      subst backNil
      rcases kill_record proper only with ⟨formed', entries⟩
      exact ⟨_, by simp [deleteInPage, only], formed', [], rfl, entries⟩
    · rcases back with _ | ⟨next, back⟩
      · cases behind.tiles
        exact absurd rfl only
      · rcases behind.head with ⟨rfl, proper', live', behind'⟩
        rcases pull_record dr proper' live' proper.aligned rfl behind' small with
          ⟨formed', entries⟩
        refine ⟨_, by simp only [deleteInPage, ne_eq, not_true_eq_false, if_false, only], formed',
          (totalLen page 0 :: back).map (entryAt page), rfl, ?_⟩
        exact entries
  · rcases first.last (Ne.symm start) with ⟨front, prev, rfl, first', proper', live', ends⟩
    rcases merge_record first' proper' live' ends proper behind small with ⟨formed', entries⟩
    have found : findPrev page j j 0 = some prev := findPrev_eq first.tiles rfl (by omega)
    refine ⟨_, by simp only [deleteInPage, start, found, ne_eq, not_false_eq_true, if_true,
      Option.map_some], formed', back.map (entryAt page), ?_, entries⟩
    simp

/-- `ext2_delete_direntry` removes the entry at a position. -/
theorem deleteDirentry_spec {pages : List Bytes} {block : ℕ} (small : size < 65536)
    (formed : ∀ page ∈ pages, WellFormed size page) (found : pages[block]? = some page)
    (mem : j ∈ records size page) (live : ino page j ≠ 0) :
    ∃ pages', deleteDirentry size pages dr block j = some (0, pages') ∧
      (∀ page ∈ pages', WellFormed size page) ∧
      Removed (entriesBefore size pages block j) (entryAt page j) (entries size pages)
        (entries size pages') := by
  rcases List.getElem?_eq_some_iff.mp found with ⟨lt, here⟩
  rcases deleteInPage_spec dr (formed page (List.mem_of_getElem? found)) mem live small with
    ⟨page', deleted, formed', after, old, new⟩
  refine ⟨pages.set block page', by simp [deleteDirentry, found, deleted], ?_,
    after ++ entries size (pages.drop (block + 1)), ?_, ?_⟩
  · intro other mem
    rcases List.mem_or_eq_of_mem_set mem with old | rfl
    · exact formed other old
    · exact formed'
  · conv_lhs => rw [← List.take_append_drop block pages, ← List.getElem_cons_drop lt, here]
    rw [entries_append, entries_cons, old, entriesBefore, found]
    simp
  · rw [List.set_eq_take_append_cons_drop, if_pos lt, entries_append, entries_cons, new,
      entriesBefore, found]
    simp

end

/-! ## Blocks below 64 KiB -/

theorem ExtSb.sBlksize_aligned (esb : ExtSb) : 4 ∣ esb.sBlksize ∧ 264 ≤ esb.sBlksize := by
  unfold sBlksize
  have := Nat.one_le_two_pow (n := esb.blocksizeFactor)
  omega

/-- When a record as long as a block has a length of 16 bits, insertion and deletion keep the pages
of a directory well formed, and change the sequence of its entries by the one entry. -/
theorem direntries_exact {esb : ExtSb} (small : esb.sBlksize < 65536) {pages : List Bytes}
    (formed : ∀ page ∈ pages, WellFormed esb.sBlksize page) :
    (∀ created dr name number type, Request name number →
      ∃ pages', applyDirentry esb.sBlksize pages (some created) dr name number type =
          some (0, pages') ∧
        (∀ page ∈ pages', WellFormed esb.sBlksize page) ∧
        Inserted (newEntry name number type) (entries esb.sBlksize pages)
          (entries esb.sBlksize pages')) ∧
      ∀ dr block offset, LiveAt esb.sBlksize pages block offset →
        ∃ page pages', pages[block]? = some page ∧
          deleteDirentry esb.sBlksize pages dr block offset = some (0, pages') ∧
          (∀ page ∈ pages', WellFormed esb.sBlksize page) ∧
          Removed (entriesBefore esb.sBlksize pages block offset) (entryAt page offset)
            (entries esb.sBlksize pages) (entries esb.sBlksize pages') := by
  rcases esb.sBlksize_aligned with ⟨aligned, large⟩
  constructor
  · intro created dr name number type request
    exact applyDirentry_spec dr type request small aligned large formed
  · intro dr block offset liveAt
    rcases liveAt with ⟨page, found, mem, live⟩
    rcases deleteDirentry_spec dr small formed found mem live with ⟨pages', result⟩
    exact ⟨page, pages', found, result⟩

/-- A page of 1024 bytes with the records of the files a, b and c. -/
def threeFiles : Bytes := fun i => ([2, 0, 0, 0, 12, 0, 1, 1, 97, 0, 0, 0,
  3, 0, 0, 0, 12, 0, 1, 1, 98, 0, 0, 0, 4, 0, 0, 0, 232, 3, 1, 1, 99] : List UInt8).getD i 0

theorem threeFiles_run : LiveRun threeFiles 0 [0, 12, 24] 1024 := by
  have first : LiveRun threeFiles 0 [0] 12 :=
    .single ⟨by decide, by decide⟩ (by decide) (by decide)
  have second : LiveRun threeFiles 12 [12] 24 :=
    .single ⟨by decide, by decide⟩ (by decide) (by decide)
  have third : LiveRun threeFiles 24 [24] 1024 :=
    .single ⟨by decide, by decide⟩ (by decide) (by decide)
  exact (first.append second).append third

/-- A file is entered behind the last record, the record of b is given to the one in front of it,
and the one of b is moved to the start of the page in place of the one of a. -/
theorem direntries_exact_threeFiles :
    (∃ pages', applyDirentry 1024 [threeFiles] (some zeros) zeros (.ofList [100]) 5 .norm =
        some (0, pages') ∧ (∀ page ∈ pages', WellFormed 1024 page) ∧
        Inserted ⟨5, [100], 1⟩ (entries 1024 [threeFiles]) (entries 1024 pages')) ∧
      (∃ pages', deleteDirentry 1024 [threeFiles] zeros 0 12 = some (0, pages') ∧
        (∀ page ∈ pages', WellFormed 1024 page) ∧
        Removed [⟨2, [97], 1⟩] ⟨3, [98], 1⟩ (entries 1024 [threeFiles]) (entries 1024 pages')) ∧
      ∃ pages', deleteDirentry 1024 [threeFiles] zeros 0 0 = some (0, pages') ∧
        (∀ page ∈ pages', WellFormed 1024 page) ∧
        Removed [] ⟨2, [97], 1⟩ (entries 1024 [threeFiles]) (entries 1024 pages') := by
  rcases threeFiles_run.wellFormed with ⟨wellFormed, listed, _⟩
  have formed : ∀ page ∈ [threeFiles], WellFormed 1024 page := fun page mem => by
    rw [List.mem_singleton.mp mem]
    exact wellFormed
  have before : ∀ offset, entriesBefore 1024 [threeFiles] 0 offset =
      entriesOf threeFiles ([0, 12, 24].filter (· < offset)) := fun offset => by
    rw [← listed]
    rfl
  rcases @direntries_exact ⟨0, 0, 1, 1024⟩ (by decide) [threeFiles] formed with ⟨insert, delete⟩
  have deletes : ∀ offset, offset ∈ records 1024 threeFiles → ino threeFiles offset ≠ 0 →
      ∃ pages', deleteDirentry 1024 [threeFiles] zeros 0 offset = some (0, pages') ∧
        (∀ page ∈ pages', WellFormed 1024 page) ∧
        Removed (entriesOf threeFiles ([0, 12, 24].filter (· < offset)))
          (entryAt threeFiles offset) (entries 1024 [threeFiles]) (entries 1024 pages') := by
    intro offset mem live
    rcases delete zeros 0 offset ⟨threeFiles, rfl, mem, live⟩ with ⟨page, pages', found, deleted⟩
    cases found
    rw [← before]
    exact ⟨pages', deleted⟩
  rw [listed] at deletes
  refine ⟨insert zeros zeros (.ofList [100]) 5 .norm ⟨by decide, by decide, by decide, by decide,
    by decide⟩, ?_, ?_⟩
  · exact deletes 12 (by decide) (by decide)
  · exact deletes 0 (by decide) (by decide)

/-- A page of 65536 bytes with two records of 32768 bytes. -/
def halvedPage : Bytes := fun i =>
  if i % 32768 = 0 then 2 else if i % 32768 = 5 then 128 else if i % 32768 = 6 then 1 else 0

/-- In a block of 64 KiB the length of a record that gets the bytes of the other one is 0. -/
theorem halvedPage_delete :
    (⟨0, 6, 1, 65536⟩ : ExtSb).sBlksize = 65536 ∧ WellFormed 65536 halvedPage ∧
      LiveAt 65536 [halvedPage] 0 32768 ∧
      ∃ page', deleteDirentry 65536 [halvedPage] zeros 0 32768 = some (0, [page']) ∧
        totalLen page' 0 = 0 ∧ ¬WellFormed 65536 page' := by
  have first : LiveRun halvedPage 0 [0] 32768 :=
    .single ⟨by decide, by decide⟩ (by decide) (by decide)
  have second : LiveRun halvedPage 32768 [32768] 65536 :=
    .single ⟨by decide, by decide⟩ (by decide) (by decide)
  rcases (first.append second).wellFormed with ⟨formed, listed, _⟩
  have mem : 32768 ∈ records 65536 halvedPage := by
    rw [listed]
    simp
  have prev : findPrev halvedPage 32768 32768 0 = some 0 :=
    @findPrev_eq halvedPage 0 [0] [] 32768 0 32768 first.tiles rfl (by omega)
  have total : totalLen halvedPage 0 + totalLen halvedPage 32768 = 65536 := by decide
  have merged : totalLen (fill (writeLE halvedPage 4 2 65536) 32768 (totalLen halvedPage 32768) 0)
      0 = 0 := by
    have written : totalLen (fill (writeLE halvedPage 4 2 65536) 32768
        (totalLen halvedPage 32768) 0) 0 = readLE (writeLE halvedPage 4 2 65536) 4 2 :=
      readLE_congr fun i _ _ => fill_outside (by omega)
    rw [written, readLE_writeLE_same]
    decide
  refine ⟨rfl, formed, ⟨halvedPage, rfl, mem, by decide⟩, _, ?_, merged, ?_⟩
  · simp [deleteDirentry, deleteInPage, prev, total]
  · intro formed'
    have tiles := formed'.tiles
    generalize records 65536 _ = positions at tiles
    cases tiles with
    | cons positive _ =>
        rw [merged] at positive
        exact absurd positive (by decide)

end Ninix.Ext2
