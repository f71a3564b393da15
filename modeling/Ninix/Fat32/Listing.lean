import Ninix.Fat32.Direntry
import Ninix.Library.Scan

/-!
# Listing a directory

`fat32_lookup_direntry` scans the slots of a directory until one begins with 0: it passes over
deleted slots and takes an entry for long names and the entries behind it together. The files
that such a scan finds, whatever name it looks for, are the listing of the directory.
-/

namespace Ninix.Fat32

open Vfs

/-- What a scan finds for a file: the position and the number of its entries, the name, and the
8.3 entry. -/
structure FoundFile where
  begin : ℕ
  len : ℕ
  name : List ℕ
  dr : Slot

/-- The file has the name and the type. -/
def FoundFile.matches (file : FoundFile) (s : Qstr) (type : LastType) : Bool :=
  genericCheckFilename s (.ofList file.name) && file.dr 11 = attrOf type

/-- The loop of `fat32_lookup_direntry`, with fuel for its rounds. `nameLen` is the length in the
buffer for the name, which is not cleared. -/
def lookupLoop (readDr : ℕ → Option Slot) (s : Qstr) (type : LastType) :
    ℕ → ℕ → ℕ → Option FoundFile
  | 0, _, _ => none
  | fuel + 1, i, nameLen =>
      match readDr i with
      | none => none
      | some dr =>
          if dr 0 = 0 then none
          else if dr 0 = 0xe5 then lookupLoop readDr s type fuel (i + 1) nameLen
          else
            let (len, q, dr) := groupAt readDr i dr nameLen
            if genericCheckFilename s q ∧
                ((dr 11 = 0x20 ∧ type = .norm) ∨ (dr 11 = 0x10 ∧ type = .dir)) then
              some ⟨i, len, q.toList, dr⟩
            else lookupLoop readDr s type fuel (i + len) q.len

/-- The file in a group of entries, when it has one of the types that can be looked for. -/
def fileIn (i : ℕ) : ℕ × Qstr × Slot → List FoundFile
  | (len, q, dr) => if dr 11 = 0x20 ∨ dr 11 = 0x10 then [⟨i, len, q.toList, dr⟩] else []

/-- A round of the loop without the comparison. -/
def scanStep (readDr : ℕ → Option Slot) : Scan.Step ℕ FoundFile := fun i nameLen =>
  match readDr i with
  | none => none
  | some dr =>
      if dr 0 = 0 then none
      else if dr 0 = 0xe5 then some ([], i + 1, nameLen)
      else
        let group := groupAt readDr i dr nameLen
        some (fileIn i group, i + group.1, group.2.1.len)

/-- The files in the slots from `i` on. -/
def listing (readDr : ℕ → Option Slot) (fuel i nameLen : ℕ) : List FoundFile :=
  Scan.collect (scanStep readDr) fuel i nameLen

/-- A lookup is the first match in the listing. -/
theorem lookupLoop_eq {readDr : ℕ → Option Slot} {s : Qstr} {type : LastType}
    {fuel i nameLen : ℕ} : lookupLoop readDr s type fuel i nameLen =
      (listing readDr fuel i nameLen).find? (·.matches s type) := by
  induction fuel generalizing i nameLen with
  | zero => rfl
  | succ fuel ih =>
      simp only [listing, lookupLoop, Scan.collect, scanStep] at ih ⊢
      cases readDr i with
      | none => rfl
      | some dr =>
          simp only
          by_cases ended : dr 0 = 0
          · simp [ended]
          by_cases deleted : dr 0 = 0xe5
          · simp only [deleted, if_true]
            exact ih
          rcases groupAt readDr i dr nameLen with ⟨len, q, last⟩
          have typed : ((last 11 = 0x20 ∧ type = .norm) ∨ (last 11 = 0x10 ∧ type = .dir)) ↔
              last 11 = attrOf type := by
            cases type <;> simp [attrOf]
          simp only [ended, deleted, if_false, typed, ih, fileIn]
          split_ifs with found kept kept
          · simp [FoundFile.matches, genericCheckFilename_toList, found]
          · refine absurd found.2 fun same => kept ?_
            cases type
            · exact Or.inl same
            · exact Or.inr same
          · simp [FoundFile.matches, genericCheckFilename_toList, found]
          · rfl

/-! ## Scans and the slots they read -/

section

variable {readDr other : ℕ → Option Slot}

/-- The entries of a long name are read alike from slots that agree. -/
theorem readLong_congr {n i : ℕ} {dr : Slot} {q : Qstr}
    (agree : ∀ j, i < j → j ≤ i + n → readDr j = other j) :
    readLong readDr n i dr q = readLong other n i dr q := by
  induction n generalizing i dr q with
  | zero => rfl
  | succ n ih =>
      simp only [readLong, agree (i + 1) (by omega) (by omega)]
      exact ih fun j lower upper => agree j (by omega) (by omega)

theorem groupAt_pos (readDr : ℕ → Option Slot) (i : ℕ) (dr : Slot) (nameLen : ℕ) :
    0 < (groupAt readDr i dr nameLen).1 := by
  unfold groupAt
  split
  · exact Nat.succ_pos _
  · exact Nat.one_pos

/-- Entries are taken together alike from slots that agree. -/
theorem groupAt_congr {i : ℕ} {dr : Slot} {nameLen bound : ℕ}
    (inside : i + (groupAt readDr i dr nameLen).1 ≤ bound)
    (agree : ∀ j < bound, readDr j = other j) :
    groupAt readDr i dr nameLen = groupAt other i dr nameLen := by
  unfold groupAt at inside ⊢
  by_cases long : dr 11 = 0x0f
  · simp only [long, if_true] at inside ⊢
    rw [readLong_congr fun j _ upper => agree j (by omega)]
  · simp only [long, if_false]

/-- The slots of a directory end somewhere. -/
def EndsAt (readDr : ℕ → Option Slot) (total : ℕ) : Prop := ∀ i, total ≤ i → readDr i = none

/-- What a step of the scan does. -/
theorem scanStep_eq_some {i nameLen : ℕ} {found : List FoundFile} {next nameLen' : ℕ} :
    scanStep readDr i nameLen = some (found, next, nameLen') ↔
      ∃ dr, readDr i = some dr ∧ dr 0 ≠ 0 ∧
        ((dr 0 = 0xe5 ∧ found = [] ∧ next = i + 1 ∧ nameLen' = nameLen) ∨
          (dr 0 ≠ 0xe5 ∧ found = fileIn i (groupAt readDr i dr nameLen) ∧
            next = i + (groupAt readDr i dr nameLen).1 ∧
            nameLen' = (groupAt readDr i dr nameLen).2.1.len)) := by
  unfold scanStep
  cases readDr i with
  | none => simp
  | some dr =>
      by_cases ended : dr 0 = 0
      · simp [ended]
      · by_cases deleted : dr 0 = 0xe5
        · simp [deleted, eq_comm]
        · simp only [ended, deleted, if_false, Option.some.injEq, Prod.mk.injEq,
            exists_eq_left', ne_eq, not_false_eq_true, true_and, false_and, false_or]
          exact and_congr eq_comm (and_congr eq_comm eq_comm)

theorem begin_of_mem_fileIn {i : ℕ} {group : ℕ × Qstr × Slot} {file : FoundFile}
    (mem : file ∈ fileIn i group) : file.begin = i := by
  rcases group with ⟨len, q, dr⟩
  simp only [fileIn] at mem
  split at mem
  · rw [List.mem_singleton.mp mem]
  · simp at mem

theorem scanStep_forward {total : ℕ} (ends : EndsAt readDr total) :
    Scan.Forward (scanStep readDr) total FoundFile.begin where
  advances {i _ _ _ _} stepped := by
    rcases scanStep_eq_some.mp stepped with
      ⟨dr, _, _, ⟨_, _, rfl, _⟩ | ⟨_, _, rfl, _⟩⟩
    · exact Nat.lt_succ_self i
    · exact Nat.lt_add_of_pos_right (groupAt_pos ..)
  ends le := by rw [scanStep, ends _ le]
  positioned stepped file mem := by
    rcases scanStep_eq_some.mp stepped with
      ⟨dr, _, _, ⟨_, rfl, _⟩ | ⟨_, rfl, _⟩⟩
    · simp at mem
    · exact begin_of_mem_fileIn mem

/-- One direction of `scanStep_agreeBelow`. -/
theorem scanStep_of_agree {bound i nameLen : ℕ} (agree : ∀ j < bound, readDr j = other j)
    {found : List FoundFile} {next nameLen' : ℕ} (inside : next ≤ bound)
    (stepped : scanStep readDr i nameLen = some (found, next, nameLen')) :
    scanStep other i nameLen = some (found, next, nameLen') := by
  rcases scanStep_eq_some.mp stepped with
    ⟨dr, read, live, ⟨deleted, rfl, rfl, rfl⟩ | ⟨notDeleted, rfl, rfl, rfl⟩⟩
  · rw [agree i (by omega)] at read
    exact scanStep_eq_some.mpr ⟨dr, read, live, Or.inl ⟨deleted, rfl, rfl, rfl⟩⟩
  · have positive := groupAt_pos readDr i dr nameLen
    rw [agree i (by omega)] at read
    rw [groupAt_congr inside agree]
    exact scanStep_eq_some.mpr ⟨dr, read, live, Or.inr ⟨notDeleted, rfl, rfl, rfl⟩⟩

/-- Slots that agree below a position are scanned alike up to there. -/
theorem scanStep_agreeBelow {bound : ℕ} (agree : ∀ j < bound, readDr j = other j) :
    Scan.AgreeBelow bound (scanStep readDr) (scanStep other) := fun _ _ _ _ _ inside =>
  ⟨scanStep_of_agree agree inside, scanStep_of_agree (fun j lt => (agree j lt).symm) inside⟩

/-- A scan from a position on reads the slots from there on. -/
theorem scanStep_agreeFrom {bound : ℕ} (agree : ∀ j, bound ≤ j → readDr j = other j) {i : ℕ}
    (le : bound ≤ i) (nameLen : ℕ) : scanStep readDr i nameLen = scanStep other i nameLen := by
  have long : ∀ n dr q, readLong readDr n i dr q = readLong other n i dr q := fun _ _ _ =>
    readLong_congr fun j lower _ => agree j (by omega)
  simp only [scanStep, agree i le, groupAt, long]

/-- Nothing is found from the end of a directory on. -/
theorem listing_at_end {fuel i nameLen : ℕ} {dr : Slot} (read : readDr i = some dr)
    (ended : dr 0 = 0) : listing readDr fuel i nameLen = [] :=
  Scan.collect_end (by simp [scanStep, read, ended])

/-- A deleted slot is passed over. -/
theorem listing_at_deleted {total fuel i nameLen : ℕ} (ends : EndsAt readDr total)
    (enough : total ≤ i + fuel) {dr : Slot} (read : readDr i = some dr) (deleted : dr 0 = 0xe5) :
    listing readDr fuel i nameLen = listing readDr fuel (i + 1) nameLen :=
  Scan.collect_step (scanStep_forward ends) enough
    (scanStep_eq_some.mpr ⟨dr, read, by simp [deleted], Or.inl ⟨deleted, rfl, rfl, rfl⟩⟩)

/-- The files behind an entry in use begin behind the entries that belong to it. -/
theorem listing_at_live {total fuel i : ℕ} (ends : EndsAt readDr total)
    (enough : total ≤ i + fuel) {dr : Slot} (read : readDr i = some dr)
    (live : dr 0 ≠ 0 ∧ dr 0 ≠ 0xe5) (nameLen : ℕ) :
    listing readDr fuel i nameLen = fileIn i (groupAt readDr i dr nameLen) ++
      listing readDr fuel (i + (groupAt readDr i dr nameLen).1)
        (groupAt readDr i dr nameLen).2.1.len :=
  Scan.collect_step (scanStep_forward ends) enough
    (scanStep_eq_some.mpr ⟨dr, read, live.1, Or.inr ⟨live.2, rfl, rfl, rfl⟩⟩)

/-- Files are found from the position on from which the scan starts. -/
theorem begin_of_mem_listing {total fuel i nameLen : ℕ} (ends : EndsAt readDr total)
    {file : FoundFile} (mem : file ∈ listing readDr fuel i nameLen) : i ≤ file.begin :=
  (Scan.reaches_of_mem (scanStep_forward ends) mem).1

end

end Ninix.Fat32
