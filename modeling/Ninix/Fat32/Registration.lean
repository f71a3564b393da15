import Mathlib.Tactic.Tauto
import Ninix.Fat32.Directory

/-!
# When adding a file keeps the listing

Adding a file keeps the other files of a directory and adds the new one exactly when the entries
are put where a lookup begins a group, hold the name and the cluster, fit the buffer of a lookup,
and are followed by slots in which a lookup finds what it found before. The slots behind the end of
a directory, and those of a cluster that is added to it, may hold anything, so that this is not so
in general.
-/

namespace Ninix.Fat32

open Vfs

/-- The slot lies in front of the end and is not a deleted one. -/
def Live (readDr : ℕ → Option Slot) (i : ℕ) : Prop :=
  (∀ j ≤ i, InUse readDr j) ∧ ¬Deleted readDr i

/-- The files found in the slots of the directory from `i` on. -/
def Dir.files (dir : Dir) (i nameLen : ℕ) : List FoundFile :=
  listing dir.readDr dir.slots i nameLen

/-- A long name that begins in the slot has no more parts than fit the buffer of a lookup. -/
def PartsFit (readDr : ℕ → Option Slot) (i : ℕ) : Prop :=
  ∀ dr, readDr i = some dr → dr 0 ≠ 0 → dr 0 ≠ 0xe5 → dr 11 = 0x0f →
    (dr 0 &&& 0x3f) * 13 ≤ filenameMxLen

/-- The names that a lookup comes to from slot `i` on fit its buffer. -/
def NamesFit (readDr : ℕ → Option Slot) (i nameLen : ℕ) : Prop :=
  Scan.Throughout (scanStep readDr) (i, nameLen) (PartsFit readDr)

/-- A directory as it is opened: its pages hold the slots that are numbered in them, its map is one
that `fat32_fill_mapping` has an array for, and its names fit the buffer of a lookup. -/
structure Dir.Opened (dir : Dir) (nameLen : ℕ) : Prop extends dir.Sound where
  large : 1024 ≤ dir.vol.esb.sectsPerClst * sectorBytes
  few : dir.inode.iBlocks ≤ largestTable
  names : NamesFit dir.readDr 0 nameLen

/-- The listing has the new file at its place and is otherwise as before. -/
def Added (s : Qstr) (type : LastType) (inodeNo begin nameLen : ℕ) (dir dir' : Dir) : Prop :=
  ∃ file : FoundFile, file.begin = begin ∧ genericCheckFilename s (.ofList file.name) ∧
    file.dr 11 = attrOf type ∧ firstClst file.dr = inodeNo ∧ file ∉ dir.files 0 nameLen ∧
    ∀ other, other ∈ dir'.files 0 nameLen ↔ other ∈ dir.files 0 nameLen ∨ other = file

/-- What is expected of adding a file: live slots stay as they are, a success adds the file to
the listing, with names that fit the buffer of a lookup, and only the lack of a cluster makes it
fail. -/
def Expected (s : Qstr) (type : LastType) (nameLen : ℕ) (dir : Dir) : Outcome × Dir → Prop
  | (outcome, dir') => (∀ i, Live dir.readDr i → dir'.readDr i = dir.readDr i) ∧
      match outcome with
      | .registered inodeNo => ∃ begin, IsPlace dir.readDr (getDirentyNo s.len) begin ∧
          Added s type inodeNo begin nameLen dir dir' ∧ NamesFit dir'.readDr 0 nameLen
      | .noCluster => True
      | .noSlot | .overrun => False

/-- The new file can be listed at a place, in a directory with the pages its entries need: the
first entry is not taken for a deleted one, the entry keeps the number of the cluster, the name fits
the buffer of a lookup, a lookup comes to begin a group at the place, the name can be stored, and
behind the entries a lookup finds what it found before from the place on, with names that fit. -/
def Listable (s : Qstr) (inodeNo begin nameLen : ℕ) (dir grown : Dir) : Prop :=
  HeadLive s ∧ inodeNo < 16777216 ∧ inodeNo / 256 % 256 = 0 ∧ s.len ≤ 246 ∧
    ∃ len, Scan.Reaches (scanStep dir.readDr) (0, nameLen) (begin, len) ∧ Storable s len ∧
      NamesFit grown.readDr (begin + getDirentyNo s.len) s.len ∧
      ∀ file, file ∈ grown.files (begin + getDirentyNo s.len) s.len ↔ file ∈ dir.files begin len

/-- There is a place for the entries, and unless clusters run out the file can be listed
there. -/
def Accommodates (fuel : ℕ) (s : Qstr) (nameLen : ℕ) (dir : Dir) : Prop :=
  ∃ begin, IsPlace dir.readDr (getDirentyNo s.len) begin ∧
    ∀ inodeNo vol, dir.vol.applyFat fuel = some (inodeNo, vol) → inodeNo ≠ minusOne32 →
      s.len ≤ 254 ∧
        ∀ grown, ({ dir with vol } : Dir).prepare fuel (begin + getDirentyNo s.len) =
          some (true, grown) → Listable s inodeNo begin nameLen dir grown

/-- The entries of the new file in the slots of a directory. -/
structure Registered (s : Qstr) (type : LastType) (inodeNo begin : ℕ) (start : Slot)
    (dir grown dir' : Dir) : Prop where
  below : ∀ j < begin, dir'.readDr j = dir.readDr j
  behind : ∀ j, begin + getDirentyNo s.len ≤ j → dir'.readDr j = grown.readDr j
  written : ∀ k < getDirentyNo s.len, dir'.readDr (begin + k) =
    some (entries s type start (getDirentyNo s.len) inodeNo k)

section

variable {s : Qstr} {type : LastType} {inodeNo begin nameLen : ℕ} {start : Slot}
  {dir grown dir' : Dir}

/-- Behind the place of the new file no file begins in front of its entries' end. -/
theorem IsPlace.not_begin (place : IsPlace dir.readDr (getDirentyNo s.len) begin)
    (positive : 0 < getDirentyNo s.len) {len : ℕ} {file : FoundFile}
    (mem : file ∈ dir.files begin len) : begin < file.begin := by
  rcases place.room with ⟨dr, read, ended⟩ | run
  · rw [Dir.files, listing_at_end read ended] at mem
    simp at mem
  · rcases run 0 positive with ⟨dr, read, deleted⟩
    rw [Nat.add_zero] at read
    rw [Dir.files,
      listing_at_deleted (Dir.endsAt_slots _) (Nat.le_add_left _ _) read deleted] at mem
    exact begin_of_mem_listing (Dir.endsAt_slots _) mem

/-- Behind the entries the slots are those of the grown directory. -/
theorem Registered.files_behind (registered : Registered s type inodeNo begin start dir grown dir')
    (len : ℕ) : dir'.files (begin + getDirentyNo s.len) len =
      grown.files (begin + getDirentyNo s.len) len := by
  have forward := scanStep_forward dir'.endsAt_slots
  have forwardGrown := scanStep_forward grown.endsAt_slots
  unfold Dir.files listing
  rw [Scan.collect_fuel forward (Nat.le_add_left _ _) (Nat.le_add_right _ grown.slots),
    Scan.collect_congr forward
      (fun i le nameLen => scanStep_agreeFrom registered.behind le nameLen) le_rfl,
    Scan.collect_fuel forwardGrown (Nat.le_add_left _ _) (Nat.le_add_left _ dir'.slots)]

/-- In front of the entries the listing is as before. -/
theorem Registered.files_split (registered : Registered s type inodeNo begin start dir grown dir')
    {len : ℕ} (reaches : Scan.Reaches (scanStep dir.readDr) (0, nameLen) (begin, len)) :
    ∃ front, dir.files 0 nameLen = front ++ dir.files begin len ∧
      dir'.files 0 nameLen = front ++ dir'.files begin len ∧ ∀ file ∈ front, file.begin < begin :=
  Scan.collect_split (scanStep_forward (Dir.endsAt_slots _)) (scanStep_forward (Dir.endsAt_slots _))
    (scanStep_agreeBelow fun j lt => (registered.below j lt).symm) reaches le_rfl le_rfl

/-- Where a directory ends, all names fit. -/
theorem namesFit_at_end {readDr : ℕ → Option Slot} {i : ℕ} {dr : Slot} (read : readDr i = some dr)
    (ended : dr 0 = 0) (nameLen : ℕ) : NamesFit readDr i nameLen := by
  have ends : scanStep readDr i nameLen = none := by simp [scanStep, read, ended]
  intro there reaches
  rcases Relation.ReflTransGen.cases_head reaches with rfl | ⟨next, ⟨found, stepped⟩, _⟩
  · intro dr' read' notEnd
    rw [read] at read'
    cases read'
    exact absurd ended notEnd
  · rw [ends] at stepped
    cases stepped

theorem getDirentyNo_pos (len : ℕ) : 0 < getDirentyNo len := by
  unfold getDirentyNo
  split <;> omega

/-- A lookup that comes to the place finds the new file there and the files behind it. -/
theorem Registered.files_begin (registered : Registered s type inodeNo begin start dir grown dir')
    (noZero : ∀ i < s.len, s.name i ≠ 0) (short : s.len ≤ 254) (headLive : HeadLive s) (len : ℕ) :
    ∃ file : FoundFile, ∃ q : Qstr, file.begin = begin ∧ file.name = q.toList ∧
      file.dr 11 = attrOf type ∧ (firstClst file.dr = inodeNo ↔
        inodeNo < 16777216 ∧ inodeNo / 256 % 256 = 0) ∧
      (genericCheckFilename s q ↔ Storable s len) ∧
      dir'.files begin len = file :: dir'.files (begin + getDirentyNo s.len) q.len := by
  rcases groupAt_entries type start inodeNo noZero short registered.written len with
    ⟨q, buffer, group, same⟩
  have head := (entries_head type start inodeNo noZero short).mpr headLive
  have read := registered.written 0 (getDirentyNo_pos s.len)
  rw [Nat.add_zero] at read
  have listed := listing_at_live dir'.endsAt_slots (Nat.le_add_left _ _) read head len
  rw [group] at listed
  have attr := @fillShort_attr s type buffer inodeNo (getDirentyNo s.len)
  refine ⟨⟨begin, getDirentyNo s.len, q.toList,
    fillShort s type buffer (getDirentyNo s.len) inodeNo⟩, q, rfl, rfl, attr,
    firstClst_iff type buffer inodeNo _, same, ?_⟩
  refine listed.trans ?_
  have typed : attrOf type = 0x20 ∨ attrOf type = 0x10 := by cases type <;> decide
  simp only [fileIn, attr, if_pos typed]
  rfl

/-- A file found at the place shows that a lookup comes there, as it did before. -/
theorem Registered.begin_reached (registered : Registered s type inodeNo begin start dir grown dir')
    {file : FoundFile} (atPlace : file.begin = begin) (mem : file ∈ dir'.files 0 nameLen) :
    ∃ len, Scan.Reaches (scanStep dir.readDr) (0, nameLen) (begin, len) := by
  have forward := scanStep_forward dir'.endsAt_slots
  rcases Scan.reaches_of_mem forward mem with ⟨_, len, reaches⟩
  rw [atPlace] at reaches
  exact ⟨len, reaches.congr forward (scanStep_agreeBelow registered.below) le_rfl⟩

/-- A file found at the place shows that its first entry is not taken for a deleted one. -/
theorem Registered.headLive (registered : Registered s type inodeNo begin start dir grown dir')
    (noZero : ∀ i < s.len, s.name i ≠ 0) (short : s.len ≤ 254) {file : FoundFile}
    (atPlace : file.begin = begin) {len : ℕ} (mem : file ∈ dir'.files begin len) : HeadLive s := by
  have read := registered.written 0 (getDirentyNo_pos s.len)
  rw [Nat.add_zero] at read
  refine (entries_head type start inodeNo noZero short).mp ⟨?_, ?_⟩
  · intro ended
    rw [Dir.files, listing_at_end read ended] at mem
    simp at mem
  · intro deleted
    rw [Dir.files,
      listing_at_deleted (Dir.endsAt_slots _) (Nat.le_add_left _ _) read deleted] at mem
    have := begin_of_mem_listing (Dir.endsAt_slots _) mem
    omega

/-- The entries of the new file fit the buffer of a lookup when its name has at most 246 bytes. -/
theorem Registered.partsFit_iff (registered : Registered s type inodeNo begin start dir grown dir')
    (noZero : ∀ i < s.len, s.name i ≠ 0) (short : s.len ≤ 254) (headLive : HeadLive s) :
    PartsFit dir'.readDr begin ↔ s.len ≤ 246 := by
  have read := registered.written 0 (getDirentyNo_pos s.len)
  rw [Nat.add_zero] at read
  have head := (entries_head type start inodeNo noZero short).mpr headLive
  have unfolded : PartsFit dir'.readDr begin ↔
      (entries s type start (getDirentyNo s.len) inodeNo 0 11 = 0x0f →
        (entries s type start (getDirentyNo s.len) inodeNo 0 0 &&& 0x3f) * 13 ≤ filenameMxLen) :=
    ⟨fun fit => fit _ read head.1 head.2, fun fit dr read' _ _ => by
      rw [read] at read'
      cases read'
      exact fit⟩
  rw [unfolded]
  unfold getDirentyNo
  split
  · have attr : entries s type start 1 inodeNo 0 11 = attrOf type := rfl
    have notLong : attrOf type ≠ 0x0f := by cases type <;> decide
    rw [attr]
    exact ⟨fun _ => by omega, fun _ isLong => absurd isLong notLong⟩
  · have number := (flagged (show 1 + s.len / 13 < 64 by omega)).1
    have first : entries s type start (2 + s.len / 13) inodeNo 0 =
        fillLong s (1 + s.len / 13) (2 + s.len / 13) := by
      rw [entries_long (by omega), show 2 + s.len / 13 - 1 - 0 = 1 + s.len / 13 by omega]
    have attr : fillLong s (1 + s.len / 13) (2 + s.len / 13) 11 = 0x0f := rfl
    have byte : fillLong s (1 + s.len / 13) (2 + s.len / 13) 0 = (1 + s.len / 13) ||| 0x40 :=
      if_pos (by omega)
    rw [first, attr, byte, number]
    refine ⟨fun fit => ?_, fun small _ => ?_⟩
    · have parts := fit rfl
      unfold filenameMxLen at parts
      omega
    · unfold filenameMxLen
      omega

/-- The names of the directory with the new file fit when the name of the file does, and those
behind its entries. -/
theorem Registered.namesFit_iff (registered : Registered s type inodeNo begin start dir grown dir')
    (noZero : ∀ i < s.len, s.name i ≠ 0) (short : s.len ≤ 254) (headLive : HeadLive s)
    (names : NamesFit dir.readDr 0 nameLen) {len : ℕ}
    (reaches : Scan.Reaches (scanStep dir.readDr) (0, nameLen) (begin, len))
    (storable : Storable s len) : NamesFit dir'.readDr 0 nameLen ↔
      s.len ≤ 246 ∧ NamesFit grown.readDr (begin + getDirentyNo s.len) s.len := by
  have read := registered.written 0 (getDirentyNo_pos s.len)
  rw [Nat.add_zero] at read
  have head := (entries_head type start inodeNo noZero short).mpr headLive
  rcases groupAt_entries type start inodeNo noZero short registered.written len with
    ⟨q, buffer, group, same⟩
  have sameLen := (genericCheckFilename_iff.mp (same.mpr storable)).1
  have steps : ∃ found, scanStep dir'.readDr begin len =
      some (found, begin + getDirentyNo s.len, q.len) :=
    ⟨_, scanStep_eq_some.mpr
      ⟨_, read, head.1, Or.inr ⟨head.2, rfl, by rw [group], by rw [group]⟩⟩⟩
  rcases steps with ⟨found, stepped⟩
  have inFront : NamesFit dir'.readDr 0 nameLen ↔ NamesFit dir'.readDr begin len :=
    Scan.throughout_split (scanStep_forward dir.endsAt_slots)
      (scanStep_agreeBelow fun j lt => (registered.below j lt).symm)
      (fun j lt fit dr read => fit dr ((registered.below j lt).symm.trans read)) reaches names
  have atPlace : NamesFit dir'.readDr begin len ↔ PartsFit dir'.readDr begin ∧
      NamesFit dir'.readDr (begin + getDirentyNo s.len) q.len :=
    Scan.throughout_step stepped
  have behind : NamesFit dir'.readDr (begin + getDirentyNo s.len) s.len ↔
      NamesFit grown.readDr (begin + getDirentyNo s.len) s.len :=
    Scan.throughout_congr (scanStep_forward dir'.endsAt_slots) (scanStep_forward grown.endsAt_slots)
      (fun i le nameLen => scanStep_agreeFrom registered.behind le nameLen)
      (fun i le => by unfold PartsFit; rw [registered.behind i le]) le_rfl _
  rw [inFront, atPlace, registered.partsFit_iff noZero short headLive, ← sameLen, behind]

/-- A new file that is listed, with names that fit, is listable. -/
theorem Registered.listable_of_added
    (registered : Registered s type inodeNo begin start dir grown dir')
    (place : IsPlace dir.readDr (getDirentyNo s.len) begin)
    (noZero : ∀ i < s.len, s.name i ≠ 0) (short : s.len ≤ 254)
    (names : NamesFit dir.readDr 0 nameLen)
    (added : Added s type inodeNo begin nameLen dir dir') (fit : NamesFit dir'.readDr 0 nameLen) :
    Listable s inodeNo begin nameLen dir grown := by
  have positive := getDirentyNo_pos s.len
  rcases added with ⟨file, atPlace, sameName, _, clst, isNew, others⟩
  rcases registered.begin_reached atPlace ((others file).mpr (Or.inr rfl)) with ⟨len, reaches⟩
  rcases registered.files_split reaches with ⟨front, before, after, inFront⟩
  have inPlace : file ∈ dir'.files begin len := by
    have mem := (others file).mpr (Or.inr rfl)
    rw [after, List.mem_append] at mem
    refine mem.resolve_left fun mem => ?_
    have := inFront file mem
    omega
  have headLive := registered.headLive noZero short atPlace inPlace
  rcases registered.files_begin noZero short headLive len with
    ⟨file', q, atPlace', name, _, clst', same, listed⟩
  obtain rfl : file = file' := by
    rw [listed, List.mem_cons] at inPlace
    refine inPlace.resolve_right fun mem => ?_
    have := begin_of_mem_listing (Dir.endsAt_slots _) mem
    omega
  rw [name, genericCheckFilename_toList] at sameName
  have sameLen := (genericCheckFilename_iff.mp sameName).1
  rw [listed, ← sameLen, registered.files_behind] at after
  rcases clst'.mp clst with ⟨low, high⟩
  have storable := same.mp sameName
  have fits := (registered.namesFit_iff noZero short headLive names reaches storable).mp fit
  refine ⟨headLive, low, high, fits.1, len, reaches, storable, fits.2, fun other => ?_⟩
  have iff := others other
  rw [after, before, List.mem_append, List.mem_cons, List.mem_append] at iff
  rw [before, List.mem_append] at isNew
  constructor
  · intro mem
    have lower := begin_of_mem_listing (Dir.endsAt_slots _) mem
    rcases iff.mp (Or.inr (Or.inr mem)) with (inside | tail) | rfl
    · have := inFront other inside
      omega
    · exact tail
    · omega
  · intro mem
    have lower := place.not_begin positive mem
    rcases iff.mpr (Or.inl (Or.inr mem)) with inside | rfl | tail
    · have := inFront other inside
      omega
    · omega
    · exact tail

/-- A listable file is listed, and names fit. -/
theorem Registered.added_of_listable
    (registered : Registered s type inodeNo begin start dir grown dir')
    (place : IsPlace dir.readDr (getDirentyNo s.len) begin)
    (noZero : ∀ i < s.len, s.name i ≠ 0) (short : s.len ≤ 254)
    (names : NamesFit dir.readDr 0 nameLen)
    (listable : Listable s inodeNo begin nameLen dir grown) :
    Added s type inodeNo begin nameLen dir dir' ∧ NamesFit dir'.readDr 0 nameLen := by
  have positive := getDirentyNo_pos s.len
  rcases listable with ⟨headLive, low, high, fits, len, reaches, storable, fitBehind, behind⟩
  rcases registered.files_begin noZero short headLive len with
    ⟨file, q, atPlace, name, attr, clst, same, listed⟩
  rcases registered.files_split reaches with ⟨front, before, after, inFront⟩
  have sameName := same.mpr storable
  have sameLen := (genericCheckFilename_iff.mp sameName).1
  rw [listed, ← sameLen, registered.files_behind] at after
  refine ⟨⟨file, atPlace, ?_, attr, clst.mpr ⟨low, high⟩, ?_, fun other => ?_⟩,
    (registered.namesFit_iff noZero short headLive names reaches storable).mpr ⟨fits, fitBehind⟩⟩
  · rw [name, genericCheckFilename_toList]
    exact sameName
  · rw [before, List.mem_append]
    rintro (mem | mem)
    · have := inFront file mem
      omega
    · have := place.not_begin positive mem
      omega
  · rw [after, before, List.mem_append, List.mem_cons, List.mem_append, behind]
    tauto

/-- The new file is listed, and names fit, exactly when it is listable. -/
theorem Registered.added_iff (registered : Registered s type inodeNo begin start dir grown dir')
    (place : IsPlace dir.readDr (getDirentyNo s.len) begin)
    (noZero : ∀ i < s.len, s.name i ≠ 0) (short : s.len ≤ 254)
    (names : NamesFit dir.readDr 0 nameLen) :
    Added s type inodeNo begin nameLen dir dir' ∧ NamesFit dir'.readDr 0 nameLen ↔
      Listable s inodeNo begin nameLen dir grown :=
  ⟨fun ⟨added, fit⟩ => registered.listable_of_added place noZero short names added fit,
    registered.added_of_listable place noZero short names⟩

/-- The slots for the new file are not live ones. -/
theorem IsPlace.live (place : IsPlace dir.readDr (getDirentyNo s.len) begin) {i : ℕ}
    (live : Live dir.readDr i) : i < begin ∨ begin + getDirentyNo s.len ≤ i := by
  by_contra inside
  rcases place.room with ⟨dr, read, ended⟩ | run
  · exact (live.1 begin (by omega)).not_end read ended
  · exact live.2 (run.deleted (by omega) (by omega))

theorem IsPlace.lt_slots (place : IsPlace dir.readDr (getDirentyNo s.len) begin) :
    begin < dir.slots := by
  rw [← Dir.readDr_isSome]
  rcases place.room with ⟨dr, read, _⟩ | run
  · simp [read]
  · rcases run 0 (getDirentyNo_pos _) with ⟨dr, read, _⟩
    rw [Nat.add_zero] at read
    simp [read]

theorem Live.lt_slots {i : ℕ} (live : Live dir.readDr i) : i < dir.slots := by
  rcases live.1 i le_rfl with ⟨dr, read, _⟩
  simp [← Dir.readDr_isSome, read]

/-- What the loop has done, whether or not a page could be added: live slots are as they were,
and with all pages the entries are registered. -/
theorem registerLoop_outcome {fuel : ℕ} (sound : dir.Sound)
    (place : IsPlace dir.readDr (getDirentyNo s.len) begin) (short : s.len ≤ 254) {vol : Volume}
    (applied : dir.vol.applyFat fuel = some (inodeNo, vol)) (handsOut : HandsOutFree fuel vol)
    {ready : Bool} (ran : registerLoop fuel s type (getDirentyNo s.len) inodeNo
      (getDirentyNo s.len) begin start { dir with vol } = some (ready, dir')) :
    ∃ grown, ({ dir with vol } : Dir).prepare fuel (begin + getDirentyNo s.len) =
        some (ready, grown) ∧
      (∀ i, Live dir.readDr i → dir'.readDr i = dir.readDr i) ∧
      (ready → Registered s type inodeNo begin start dir grown dir') := by
  rcases applyFat_frame sound.coherent applied with ⟨coherent, sameTable⟩
  have sound' : ({ dir with vol } : Dir).Sound :=
    ⟨coherent, sound.agrees.of_sameEntries sound.coherent sameTable⟩
  have atMost : getDirentyNo s.len ≤ 32 := by
    unfold getDirentyNo
    split <;> omega
  have inside := place.lt_slots
  have first : begin + 0 ≤ ({ dir with vol } : Dir).slots := inside.le
  rcases registerLoop_spec atMost (Nat.zero_add _) first sound' (fun _ => handsOut)
      (fun _ => rfl) ran with ⟨grown, prepared, others, written⟩
  rcases Dir.prepare_spec sound' (fun _ => handsOut)
    (show _ ≤ dir.slots + 32 by omega) prepared with ⟨_, store, isPrefix, _, _⟩
  have old : ∀ i < dir.slots, grown.readDr i = dir.readDr i := fun i lt =>
    Dir.readDr_of_prefix isPrefix store lt
  refine ⟨grown, prepared, fun i live => ?_, fun isReady => ⟨fun j lt => ?_, fun j le => ?_,
    fun k lt => ?_⟩⟩
  · rw [others i (by simpa using place.live live), old i live.lt_slots]
  · rw [others j (by omega), old j (by omega)]
  · exact others j (Or.inr le)
  · simpa using written isReady (begin + k) (by omega) (by omega)

end

/--
Adding a file does what is expected of it exactly when the directory accommodates the file. The
name is one of a path, which a zero byte ends, and what is handed out for a new page of the
directory is a free cluster; the call returns when its scans for free clusters do.
-/
theorem applyDirentry_iff {fuel nameLen : ℕ} {s : Qstr} {type : LastType} {dir : Dir}
    (opened : dir.Opened nameLen) (noZero : ∀ i < s.len, s.name i ≠ 0)
    (handsOut : ∀ inodeNo vol, dir.vol.applyFat fuel = some (inodeNo, vol) →
      HandsOutFree fuel vol) {result : Outcome × Dir}
    (ran : applyDirentry fuel s type dir = some result) :
    Expected s type nameLen dir result ↔ Accommodates fuel s nameLen dir := by
  have positive := getDirentyNo_pos s.len
  have search := findPlace_spec dir.endsAt_slots (searching_start positive)
    (show dir.slots < 0 + (dir.slots + 1) by omega)
  unfold applyDirentry at ran
  simp only at ran
  split at ran
  · rename_i notFound
    rw [notFound] at search
    cases ran
    exact ⟨fun expected => expected.2.elim, fun ⟨begin, place, _⟩ => (search begin place).elim⟩
  · rename_i begin dr found
    rw [found] at search
    have place : IsPlace dir.readDr (getDirentyNo s.len) begin := search
    split at ran
    · simp at ran
    · rename_i inodeNo vol applied
      split at ran
      · rename_i failed
        cases ran
        refine ⟨fun _ => ⟨begin, place, fun inodeNo' vol' applied' ok => ?_⟩,
          fun _ => ⟨fun _ _ => rfl, trivial⟩⟩
        rw [applied] at applied'
        cases applied'
        exact absurd failed ok
      · rename_i handedOut
        split at ran
        · rename_i long
          cases ran
          refine ⟨fun expected => expected.2.elim, fun ⟨_, _, accommodates⟩ => ?_⟩
          have := (accommodates inodeNo vol applied handedOut).1
          omega
        · rename_i notLong
          have short : s.len ≤ 254 := Nat.le_of_not_lt notLong
          rcases Option.map_eq_some_iff.mp ran with ⟨⟨ready, dir'⟩, looped, rfl⟩
          rcases registerLoop_outcome opened.toSound place short applied
            (handsOut inodeNo vol applied) looped with ⟨grown, prepared, kept, registered⟩
          cases ready with
          | false =>
              refine ⟨fun _ => ⟨begin, place, fun inodeNo' vol' applied' _ => ?_⟩,
                fun _ => ⟨kept, trivial⟩⟩
              rw [applied] at applied'
              cases applied'
              refine ⟨short, fun grown' prepared' => ?_⟩
              rw [prepared] at prepared'
              simp at prepared'
          | true =>
              have listed : Added s type inodeNo begin nameLen dir dir' ∧
                  NamesFit dir'.readDr 0 nameLen ↔ Listable s inodeNo begin nameLen dir grown :=
                (registered rfl).added_iff place noZero short opened.names
              constructor
              · rintro ⟨_, other, place', added⟩
                rw [← place.unique place'] at added
                refine ⟨begin, place, fun inodeNo' vol' applied' _ => ?_⟩
                rw [applied] at applied'
                cases applied'
                refine ⟨short, fun grown' prepared' => ?_⟩
                rw [prepared] at prepared'
                cases prepared'
                exact listed.mp added
              · rintro ⟨other, place', accommodates⟩
                rw [← place.unique place'] at accommodates
                exact ⟨kept, begin, place, listed.mpr
                  ((accommodates inodeNo vol applied handedOut).2 grown prepared)⟩

/-! ## A directory of one page -/

/-- A directory of the cluster 2 of the volume `oneFile`. -/
def onePage (slots : ℕ → Slot) : Dir := ⟨oneFile, ⟨2, [2]⟩, fun _ => slots⟩

/-- The name `A`. -/
def nameA : Qstr := ⟨fun _ => 0x41, 1⟩

theorem oneFile_entry {clst : ℕ} (lt : clst < 128) :
    oneFile.entry clst = if clst < 3 then endOfChain else 0 :=
  Volume.ofTable_entry fiveClusters_valid lt (by split <;> decide)

theorem oneFile_agrees : Inode.Agrees oneFile ⟨2, [2]⟩ :=
  ⟨.last (oneFile_entry (by decide)), by simp; decide⟩

theorem onePage_sound (slots : ℕ → Slot) : (onePage slots).Sound where
  coherent := Volume.ofTable_coherent fiveClusters_valid
  agrees := oneFile_agrees

/-- A directory that ends in its first slot has no names that do not fit. -/
theorem onePage_opened {slots : ℕ → Slot} (ended : slots 0 0 = 0) (nameLen : ℕ) :
    (onePage slots).Opened nameLen where
  toSound := onePage_sound slots
  large := (by decide : 1024 ≤ fiveClusters.sectsPerClst * sectorBytes)
  few := (by decide : 1 ≤ largestTable)
  names := namesFit_at_end rfl ended nameLen

/-- With cluster 3 handed out for the file, the hint names cluster 4, which is free. -/
theorem onePage_handsOut (slots : ℕ → Slot) :
    ∀ inodeNo vol, (onePage slots).vol.applyFat 8 = some (inodeNo, vol) →
      inodeNo = 3 ∧ HandsOutFree 8 vol := by
  intro inodeNo vol applied
  have runs : (oneFile.applyFat 8).map (fun result => (result.1, result.2.info.nextFreeClst)) =
      some (3, 4) := by decide +kernel
  rw [show oneFile.applyFat 8 = some (inodeNo, vol) from applied] at runs
  simp only [Option.map_some, Option.some.injEq, Prod.mk.injEq] at runs
  rcases applyFat_frame (onePage_sound slots).coherent applied with ⟨coherent, same⟩
  have cluster : oneFile.esb.IsCluster 4 := by decide
  refine ⟨runs.1, handsOutFree_of_hint coherent ?_ ?_⟩
  · rw [runs.2, same.esb]
    exact cluster
  · rw [runs.2]
    exact (same.free (cluster.inFat (onePage_sound slots).coherent.layout)).mpr
      (oneFile_entry (by decide))

/-- In an empty directory with no old entries the first file is listed. -/
theorem applyDirentry_iff_empty :
    ∃ result, applyDirentry 8 nameA .norm (onePage fun _ _ => 0) = some result ∧
      Expected nameA .norm 0 (onePage fun _ _ => 0) result := by
  have returns : (applyDirentry 8 nameA .norm (onePage fun _ _ => 0)).isSome := by decide +kernel
  rcases Option.isSome_iff_exists.mp returns with ⟨result, ran⟩
  refine ⟨result, ran, (applyDirentry_iff (onePage_opened rfl 0) (fun _ _ => (by decide : 0x41 ≠ 0))
    (fun inodeNo vol applied => (onePage_handsOut _ inodeNo vol applied).2) ran).mpr ?_⟩
  have place : IsPlace (onePage fun _ _ => 0).readDr (getDirentyNo nameA.len) 0 :=
    ⟨fun _ lt => absurd lt (by omega), fun _ lt => absurd lt (by omega), Or.inl ⟨_, rfl, rfl⟩⟩
  refine ⟨0, place, fun inodeNo vol applied _ => ⟨by decide, fun grown prepared => ?_⟩⟩
  obtain rfl := (onePage_handsOut _ inodeNo vol applied).1
  have grownEq : grown = { onePage (fun _ _ => 0) with vol } := by
    have fits : 0 + getDirentyNo nameA.len ≤
        ({ onePage (fun _ _ => 0) with vol } : Dir).slots :=
      (by decide : 0 + getDirentyNo 1 ≤ 1 * 32)
    rw [Dir.prepare_of_le fits] at prepared
    exact (Prod.mk.inj (Option.some.inj prepared)).2.symm
  have fits : Fits83 nameA := ⟨by decide, fun _ _ => (by decide : 0x41 ≠ 0x20), by decide,
    fun _ _ => (by decide : 0x41 ≠ 0x20), by decide⟩
  refine ⟨fun _ _ => (by decide : 0x41 ≠ 0xe5), by decide, by decide, by decide, 0, .refl,
    (if_pos (by decide)).mpr fits, ?_, fun file => ?_⟩
  · rw [grownEq]
    exact namesFit_at_end rfl rfl _
  rw [grownEq, Dir.files, Dir.files, listing_at_end rfl rfl, listing_at_end rfl rfl]

/-- A slot of the file `B`, behind the end of a directory. -/
def slotB : Slot :=
  ![0x42, 0x20, 0x20, 0x20, 0x20, 0x20, 0x20, 0x20, 0x20, 0x20, 0x20, 0x20, 0, 0, 0, 0, 0, 0, 0, 0,
    0, 0, 0, 0, 0, 0, 0, 0, 0, 0, 0, 0]

/-- When an old entry stands behind the end of a directory, a new file brings it back. -/
theorem not_expected_staleEntry :
    let dir := onePage fun i => if i = 1 then slotB else 0
    dir.Opened 0 ∧ (∀ inodeNo vol, dir.vol.applyFat 8 = some (inodeNo, vol) → HandsOutFree 8 vol) ∧
      ∃ result, applyDirentry 8 nameA .norm dir = some result ∧
        ¬Expected nameA .norm 0 dir result := by
  refine ⟨onePage_opened rfl 0,
    fun inodeNo vol applied => (onePage_handsOut _ inodeNo vol applied).2, ?_⟩
  have runs : (applyDirentry 8 nameA .norm (onePage fun i => if i = 1 then slotB else 0)).map
      (fun result => (result.1, (result.2.files 0 0).map FoundFile.begin)) =
        some (.registered 3, [0, 1]) := by decide +kernel
  have before : ((onePage fun i => if i = 1 then slotB else 0).files 0 0).map FoundFile.begin =
      [] := by decide +kernel
  rcases Option.map_eq_some_iff.mp runs with ⟨⟨outcome, dir'⟩, ran, eq⟩
  simp only [Prod.mk.injEq] at eq
  rcases eq with ⟨rfl, begins⟩
  refine ⟨_, ran, ?_⟩
  rintro ⟨_, begin, _, ⟨file, _, _, _, _, _, others⟩, _⟩
  rw [List.map_eq_nil_iff.mp before] at others
  have found : ∀ position ∈ [0, 1], position = file.begin := fun position mem => by
    rw [← begins] at mem
    rcases List.mem_map.mp mem with ⟨other, isFile, rfl⟩
    rw [((others other).mp isFile).resolve_left (by simp)]
  exact absurd ((found 0 (by simp)).trans (found 1 (by simp)).symm) (by decide)

end Ninix.Fat32
