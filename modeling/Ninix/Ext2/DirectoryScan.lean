import Ninix.Ext2.Creation
import Ninix.Library.RecordScan

/-!
# Scans of directories

`ext2_lookup_direntry`, `ext2_readdir` and `ext2_apply_direntry` go from record to record of a
directory by the lengths they find there, and are followed here with the pieces they copy out of
its pages. A record of length 0 keeps them where they are, a record near the end of a page has
them copy bytes from behind the page, and `ext2_readdir` makes room for records of no less than
twelve bytes.
-/

namespace Ninix.Ext2

open ByteBuffer Tiling RecordScan Vfs

/-- What is copied of each record. -/
def metaPiece (j : ℕ) : Piece := ⟨j, direntryMetaLen⟩

/-- The name of a record, copied with the length the record has for it. -/
def namePiece (page : Bytes) (j : ℕ) : Piece := ⟨j + direntryMetaLen, nameLen page j⟩

/-! ## Looking up -/

/-- The name in `filename`. -/
def filenameAt (page : Bytes) (j : ℕ) : Qstr :=
  ⟨fun k => (page (j + direntryMetaLen + k)).toNat, nameLen page j⟩

/-- A round of the loop of `ext2_lookup_direntry`. -/
def lookupVisit (dName : Qstr) (type : LastType) (block : ℕ) (page : Bytes) (j : ℕ) (_ : Unit) :
    Copied Unit (Option (ℕ × ℕ)) :=
  ([metaPiece j, namePiece page j],
    if ino page j ≠ 0 ∧ genericCheckFilename dName (filenameAt page j) ∧
        fileType page j = dirType type then
      .inr (some (block, j))
    else .inl ())

/-- `ext2_lookup_direntry`: the block and the offset of the record that is found. A page is `none`
when `general_find_page` does not find it. -/
def lookupDirentry (size : ℕ) (dName : Qstr) (type : LastType) (pages : List (Option Bytes))
    (fuel : ℕ) : Option (List Piece × Option (ℕ × ℕ)) :=
  (scanAll (fun block page => scan size (totalLen page) (lookupVisit dName type block page) fuel 0)
    (fun _ => none) 0 pages ()).map fun (pieces, outcome) =>
      (pieces, outcome.elim (fun _ => none) id)

/-! ## Listing -/

/-- `struct dirent`. The name is a null pointer where there was no memory for it. -/
structure Dirent where
  ino : ℕ
  name : Option (List ℕ)
  type : LastType

/-- A round of the loop of `ext2_readdir` with the entries of `gen_temp`. Before the name of an
entry `kmalloc` has been called once for `gen_temp` and once for each entry in front of it. -/
def readdirVisit (memory : ℕ → Bool) (page : Bytes) (j : ℕ) (stored : List Dirent) :
    Copied (List Dirent) (ℕ × List Dirent) :=
  if ino page j ≠ 0 then
    let type : LastType := if fileType page j = dirType .dir then .dir else .norm
    if memory (stored.length + 1) then
      ([metaPiece j, namePiece page j],
        .inl (stored ++ [⟨ino page j, some (filenameAt page j).toList, type⟩]))
    else ([metaPiece j], .inr (errNoMem, stored ++ [⟨ino page j, none, type⟩]))
  else ([metaPiece j], .inl stored)

/-- The entries `ext2_readdir` has room for. -/
def capacity (size blocks : ℕ) : ℕ := u32 (size / (direntryMetaLen + 4) * blocks)

/-- `ext2_readdir` of a directory: the code it returns and what it has stored in `gen_temp`. For an
empty listing `kmalloc` is asked for 0 bytes and returns 0. -/
def readdir (size : ℕ) (memory : ℕ → Bool) (pages : List (Option Bytes)) (fuel : ℕ) :
    Option (List Piece × ℕ × List Dirent) :=
  if memory 0 then
    (scanAll (fun _ page => scan size (totalLen page) (readdirVisit memory page) fuel 0)
      (fun stored => (errNoPage, stored)) 0 pages []).map fun (pieces, outcome) =>
        (pieces, outcome.elim
          (fun stored =>
            (if stored ≠ [] ∧ memory (stored.length + 1) then 0 else errNoMem, stored)) id)
  else some ([], errNoMem, [])

/-! ## Looking for room -/

/-- A round of the loop of `ext2_apply_direntry`. -/
def applyVisit (size lenNeeded1 block : ℕ) (page : Bytes) (j : ℕ) (_ : Unit) :
    Copied Unit (Option (ℕ × Place)) :=
  let lenTaken := totalLen page j
  let lenNeeded2 := lenNeeded (nameLen page j)
  ([metaPiece j],
    if ino page j = 0 ∧ j = 0 then .inr (some (block, ⟨fill page 0 size 0, 0, size⟩))
    else if lenNeeded1 + lenNeeded2 ≤ lenTaken then
      .inr (some (block,
        ⟨writeLE page (j + 4) 2 lenNeeded2, j + lenNeeded2, lenTaken - lenNeeded2⟩))
    else .inl ())

/-- The loops of `ext2_apply_direntry`, from a block on. -/
def applyScan (size lenNeeded1 block : ℕ) (pages : List (Option Bytes)) (fuel : ℕ) :
    Option (Copied Unit (Option (ℕ × Place))) :=
  scanAll (fun block page =>
      scan size (totalLen page) (applyVisit size lenNeeded1 block page) fuel 0)
    (fun _ => none) block pages ()

/-- The scan is the loop of `ext2_apply_direntry` over the records of a page. -/
theorem scan_applyVisit (size lenNeeded1 block : ℕ) (page : Bytes) (fuel j : ℕ) :
    (scan size (totalLen page) (applyVisit size lenNeeded1 block page) fuel j ()).map Prod.snd =
      (findInPage size lenNeeded1 page fuel j).map fun found =>
        found.elim (.inl ()) fun place => .inr (some (block, place)) := by
  induction fuel generalizing j with
  | zero => rfl
  | succ fuel ih =>
      rw [scan, findInPage]
      by_cases inside : j < size
      · simp only [inside, if_true, applyVisit]
        by_cases empty : ino page j = 0 ∧ j = 0
        · rw [if_pos empty, if_pos empty]
          rfl
        · rw [if_neg empty, if_neg empty]
          by_cases fits : lenNeeded1 + lenNeeded (nameLen page j) ≤ totalLen page j
          · rw [if_pos fits, if_pos fits]
            rfl
          · rw [if_neg fits, if_neg fits, ← ih, Option.map_map]
            rfl
      · simp only [inside, if_false]
        rfl

/-- The scans are the loops of `ext2_apply_direntry` over the pages. -/
theorem applyScan_map (size lenNeeded1 block : ℕ) (pages : List Bytes) :
    (applyScan size lenNeeded1 block (pages.map some) (size + 1)).map Prod.snd =
      (findPlace size lenNeeded1 pages).map fun found =>
        found.elim (.inl ()) fun place => .inr (some (block + place.1, place.2)) := by
  induction pages generalizing block with
  | nil => rfl
  | cons page rest ih =>
      have record := scan_applyVisit size lenNeeded1 block page (size + 1) 0
      have later := ih (block + 1)
      unfold applyScan at later ⊢
      rw [List.map_cons, scanAll, findPlace]
      rcases ran : scan size (totalLen page) (applyVisit size lenNeeded1 block page) (size + 1) 0 ()
        with _ | ⟨pieces, outcome⟩ <;> rw [ran] at record
      · have endless := Option.map_eq_none_iff.mp record.symm
        rw [endless]
        rfl
      · rcases Option.map_eq_some_iff.mp record.symm with ⟨found, inPage, same⟩
        rw [inPage]
        cases found with
        | some place =>
            cases same
            rfl
        | none =>
            cases same
            dsimp only
            rw [Option.map_map]
            change Option.map Prod.snd _ = _
            rw [later, Option.map_map]
            congr 1
            funext found
            cases found with
            | none => rfl
            | some place =>
                simp only [Function.comp, Option.map_some, Option.elim_some]
                rw [Nat.add_assoc, Nat.add_comm 1]

/-! ## Safe scans -/

/-- The functions that scan a directory come to an end, whatever they look for and whatever memory
there is, copy from inside its pages only, and `ext2_readdir` stores no more entries than it has
room for. -/
structure ScansSafely (size : ℕ) (pages : List (Option Bytes)) : Prop where
  lookup : ∀ dName type, ∃ fuel pieces found,
    lookupDirentry size dName type pages fuel = some (pieces, found) ∧ Within size pieces
  readdir : ∀ memory, ∃ fuel pieces err stored,
    readdir size memory pages fuel = some (pieces, err, stored) ∧ Within size pieces ∧
      stored.length ≤ capacity size pages.length
  apply : ∀ lenNeeded1, ∃ fuel pieces outcome,
    applyScan size lenNeeded1 0 pages fuel = some (pieces, outcome) ∧ Within size pieces

/-- Each record that a scan of the pages comes to has a length other than 0 and lies in the page
with its name, and there are no more live ones than `ext2_readdir` has room for. -/
structure Scannable (size : ℕ) (pages : List (Option Bytes)) : Prop where
  moves : ∀ page ∈ present pages, ∀ j, Comes size (totalLen page) 0 j →
    0 < totalLen page j ∧ j + direntryMetaLen + nameLen page j ≤ size
  few : (entries size (present pages)).length ≤ capacity size pages.length

section

variable {size : ℕ} {pages : List (Option Bytes)} {page : Bytes} {j : ℕ}

/-- What a live record counts for. -/
def liveWeight (page : Bytes) (j : ℕ) : ℕ := if ino page j ≠ 0 then 1 else 0

theorem sum_liveWeight (positions : List ℕ) :
    (positions.map (liveWeight page)).sum = (entriesOf page positions).length := by
  induction positions with
  | nil => rfl
  | cons j rest ih =>
      rw [List.map_cons, List.sum_cons, ih]
      by_cases live : ino page j ≠ 0
      · simp [entriesOf, liveWeight, live, Nat.add_comm]
      · simp [entriesOf, liveWeight, live]

theorem length_entries (size : ℕ) (pages : List Bytes) :
    (entries size pages).length = (pages.map fun page => (pageEntries size page).length).sum :=
  List.length_flatMap

/-- Any walk with enough fuel finds the live records of a page. -/
theorem sum_walk (positive : ∀ j, Comes size (totalLen page) 0 j → 0 < totalLen page j) {more : ℕ}
    (le : size ≤ more) :
    ((walk (totalLen page) size more 0).map (liveWeight page)).sum =
      (pageEntries size page).length := by
  rw [walk_fuel positive (Nat.sub_le size 0) le, sum_liveWeight]
  rfl

/-- The entries stored when a part of `ext2_readdir` is done. -/
def storedOf : List Dirent ⊕ (ℕ × List Dirent) → List Dirent := Sum.elim id Prod.snd

/-- A round of `ext2_readdir` stores one entry at most, and only for a live record. -/
theorem stored_readdirVisit (memory : ℕ → Bool) (page : Bytes) (j : ℕ) (stored : List Dirent) :
    (storedOf (readdirVisit memory page j stored).2).length =
      stored.length + liveWeight page j := by
  unfold readdirVisit liveWeight
  by_cases live : ino page j ≠ 0
  · by_cases room : memory (stored.length + 1) <;> simp [live, room, storedOf]
  · simp [live, storedOf]

namespace Scannable

theorem within_meta (scannable : Scannable size pages) (mem : page ∈ present pages)
    (comes : Comes size (totalLen page) 0 j) : Within size [metaPiece j] := by
  intro piece isMeta
  have inside := (scannable.moves page mem j comes).2
  rw [List.mem_singleton.mp isMeta]
  show j + direntryMetaLen ≤ size
  omega

theorem within_both (scannable : Scannable size pages) (mem : page ∈ present pages)
    (comes : Comes size (totalLen page) 0 j) :
    Within size [metaPiece j, namePiece page j] := by
  intro piece isPiece
  rcases List.mem_cons.mp isPiece with rfl | isName
  · exact scannable.within_meta mem comes _ (List.mem_singleton_self _)
  · rw [List.mem_singleton.mp isName]
    exact (scannable.moves page mem j comes).2

theorem positive (scannable : Scannable size pages) (mem : page ∈ present pages) (j : ℕ)
    (comes : Comes size (totalLen page) 0 j) : 0 < totalLen page j :=
  (scannable.moves page mem j comes).1

theorem lookup (scannable : Scannable size pages) (dName : Qstr) (type : LastType) :
    ∃ pieces found, lookupDirentry size dName type pages (size + 1) = some (pieces, found) ∧
      Within size pieces := by
  have scanned : ∃ pieces outcome, scanAll (fun block page => scan size (totalLen page)
      (lookupVisit dName type block page) (size + 1) 0) (fun _ => none) 0 pages () =
        some (pieces, outcome) ∧ Within size pieces := by
    refine scanAll_within fun block page mem carried => scan_within (fun j comes => ?_) (by omega)
    exact ⟨scannable.positive mem j comes, fun _ => scannable.within_both mem comes⟩
  rcases scanned with ⟨pieces, outcome, ran, within⟩
  exact ⟨pieces, _, by rw [lookupDirentry, ran, Option.map_some], within⟩

theorem apply (scannable : Scannable size pages) (lenNeeded1 : ℕ) :
    ∃ pieces outcome, applyScan size lenNeeded1 0 pages (size + 1) = some (pieces, outcome) ∧
      Within size pieces := by
  refine scanAll_within fun block page mem carried => scan_within (fun j comes => ?_) (by omega)
  exact ⟨scannable.positive mem j comes, fun _ => scannable.within_meta mem comes⟩

theorem readdir (scannable : Scannable size pages) (memory : ℕ → Bool) :
    ∃ pieces err stored, readdir size memory pages (size + 1) = some (pieces, err, stored) ∧
      Within size pieces ∧ stored.length ≤ capacity size pages.length := by
  unfold Ext2.readdir
  by_cases first : memory 0
  · have scanned : ∃ pieces outcome, scanAll (fun _ page => scan size (totalLen page)
        (readdirVisit memory page) (size + 1) 0) (fun stored => (errNoPage, stored)) 0 pages [] =
          some (pieces, outcome) ∧ Within size pieces := by
      refine scanAll_within fun block page mem carried =>
        scan_within (fun j comes => ⟨scannable.positive mem j comes, fun stored => ?_⟩) (by omega)
      unfold readdirVisit
      dsimp only
      split
      · split
        · exact scannable.within_both mem comes
        · exact scannable.within_meta mem comes
      · exact scannable.within_meta mem comes
    rcases scanned with ⟨pieces, outcome, ran, within⟩
    have counted : (storedOf outcome).length ≤
        (storedOf (.inl [] : List Dirent ⊕ (ℕ × List Dirent))).length +
          ((present pages).map fun page => (pageEntries size page).length).sum := by
      refine (scanAll_count (fun outcome => (storedOf outcome).length) _ (fun _ => rfl) ?_ ran).1
      intro _ page mem stored copied outcome scanned
      rw [← sum_walk (scannable.positive mem) (Nat.le_succ size)]
      exact scan_count (fun outcome => (storedOf outcome).length) (liveWeight page)
        (stored_readdirVisit memory page) scanned le_rfl
    rw [← length_entries] at counted
    have few : (storedOf outcome).length ≤ capacity size pages.length := by
      have := scannable.few
      have nothing : (storedOf (.inl [] : List Dirent ⊕ (ℕ × List Dirent))).length = 0 := rfl
      omega
    rw [if_pos first, ran, Option.map_some]
    cases outcome with
    | inl stored => exact ⟨pieces, _, stored, rfl, within, few⟩
    | inr result => exact ⟨pieces, result.1, result.2, rfl, within, few⟩
  · rw [if_neg first]
    exact ⟨[], errNoMem, [], rfl, fun _ mem => absurd mem List.not_mem_nil, Nat.zero_le _⟩

end Scannable

namespace ScansSafely

/-- A name no record can have: its length does not fit a byte. -/
def longName : Qstr := ⟨fun _ => 0, 256⟩

theorem lookupVisit_longName (block : ℕ) (page : Bytes) (j : ℕ) (carried : Unit) :
    (lookupVisit longName .norm block page j carried).2 = .inl () := by
  have short : nameLen page j < 256 := readLE_lt page (j + 6) 1
  have differs : ¬genericCheckFilename longName (filenameAt page j) := by
    rw [genericCheckFilename_iff]
    rintro ⟨same, _⟩
    have isLong : 256 = nameLen page j := same
    omega
  simp [lookupVisit, differs]

theorem moves (safely : ScansSafely size pages) (mem : page ∈ present pages)
    (comes : Comes size (totalLen page) 0 j) :
    0 < totalLen page j ∧ j + direntryMetaLen + nameLen page j ≤ size := by
  rcases safely.lookup longName .norm with ⟨fuel, pieces, found, ran, within⟩
  rcases Option.map_eq_some_iff.mp ran with ⟨⟨copied, outcome⟩, scanned, same⟩
  cases same
  have goesOn (block : ℕ) (page : Bytes) (j : ℕ) (carried : Unit) : ∃ carried',
      (lookupVisit longName .norm block page j carried).2 = .inl carried' :=
    ⟨(), lookupVisit_longName block page j carried⟩
  rcases present_of_scanAll (fun block page _ _ _ ran => scan_goesOn (goesOn block page) ran)
    scanned mem with ⟨block, _, _, _, ranPage, subset⟩
  rcases comes_of_scan (goesOn block page) ranPage comes with ⟨positive, _, copied⟩
  have isName : namePiece page j ∈ [metaPiece j, namePiece page j] := by simp
  exact ⟨positive, within _ (subset (copied isName))⟩

/-- Where all names get memory, `ext2_readdir` goes through all records. -/
theorem readdirVisit_all (page : Bytes) (j : ℕ) (stored : List Dirent) :
    ∃ stored', (readdirVisit (fun _ => true) page j stored).2 = .inl stored' := by
  unfold readdirVisit
  by_cases live : ino page j ≠ 0 <;> simp [live]

theorem few (safely : ScansSafely size pages) :
    (entries size (present pages)).length ≤ capacity size pages.length := by
  rcases safely.readdir fun _ => true with ⟨fuel, pieces, err, stored, ran, _, few⟩
  rw [Ext2.readdir, if_pos rfl] at ran
  rcases Option.map_eq_some_iff.mp ran with ⟨⟨copied, outcome⟩, scanned, same⟩
  have total : (storedOf outcome).length = 0 +
      ((present pages).map fun page => (pageEntries size page).length).sum := by
    refine (scanAll_count (fun outcome => (storedOf outcome).length) _ (fun _ => rfl) ?_
      scanned).2 fun _ page _ _ _ ran => scan_goesOn (readdirVisit_all page) ran
    intro _ page mem stored copied outcome scanned
    rw [← sum_walk (fun j comes => (safely.moves mem comes).1) (le_max_right fuel size)]
    exact scan_count (fun outcome => (storedOf outcome).length) (liveWeight page)
      (stored_readdirVisit _ page) scanned (le_max_left fuel size)
  have isStored : stored = storedOf outcome := by
    cases outcome <;> exact congrArg (·.2.2) same.symm
  rw [Nat.zero_add, ← length_entries, ← isStored] at total
  exact total.ge.trans few

end ScansSafely

end

/-- The scans of a directory are safe exactly if it can be scanned. -/
theorem scansSafely_iff (size : ℕ) (pages : List (Option Bytes)) :
    ScansSafely size pages ↔ Scannable size pages := by
  constructor
  · intro safely
    exact ⟨fun page mem j comes => safely.moves mem comes, safely.few⟩
  · intro scannable
    refine ⟨fun dName type => ⟨size + 1, scannable.lookup dName type⟩,
      fun memory => ⟨size + 1, scannable.readdir memory⟩,
      fun lenNeeded1 => ⟨size + 1, scannable.apply lenNeeded1⟩⟩

/-- In a page of zeros no scan gets on from the first record. -/
theorem not_scansSafely : ¬∀ size pages, ScansSafely size pages := by
  intro always
  have comes : Comes 1024 (totalLen zeros) 0 0 := .here (by decide)
  have moves := (always 1024 [some zeros]).moves (List.mem_singleton_self zeros) comes
  exact absurd moves.1 (by decide)

end Ninix.Ext2
