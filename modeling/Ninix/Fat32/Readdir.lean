import Ninix.Fat32.Registration

/-!
# Listing and looking up

`fat32_readdir` and `fat32_lookup_direntry` go through the same slots. The first passes over
volume labels, tells directories by a bit of the attribute and reads the whole number of the
first cluster; the second compares the attribute with one value and keeps eight bits of the low
half of the number.
-/

namespace Ninix.Fat32

open Vfs

/-- `struct dirent` -/
structure Dirent where
  ino : ℕ
  type : LastType
  name : List ℕ

/-- The type that `fat32_readdir` reports. -/
def typeOf (dr : Slot) : LastType := if dr 11 &&& 0x10 = 0 then .norm else .dir

/-- `first_clst_lo` -/
def firstClstLo (dr : Slot) : ℕ := dr 26 + 256 * dr 27

/-- The first cluster of a file, as `fat32_readdir` reads it from the 8.3 entry. -/
def wholeClst (dr : Slot) : ℕ := ((dr 20 + 256 * dr 21) <<< 16) + firstClstLo dr

/-- What `fat32_readdir` reports of an entry. -/
def direntOf (q : Qstr) (dr : Slot) : Dirent := ⟨wholeClst dr, typeOf dr, q.toList⟩

/-- The loop over the entries of a long name in `fat32_readdir`, which gives up at an entry that
cannot be read. -/
def readLongOrFail (readDr : ℕ → Option Slot) : ℕ → ℕ → Slot → Qstr → Option (Slot × Qstr)
  | 0, _, dr, q => some (dr, q)
  | n + 1, i, dr, q =>
      (readDr (i + 1)).bind fun next =>
        readLongOrFail readDr n (i + 1) next (putChars q (n * 13) dr)

/-- The loop of `fat32_readdir`, with fuel for its rounds: whether there is an error, and the
entries reported. -/
def readdirLoop (readDr : ℕ → Option Slot) : ℕ → ℕ → ℕ → Bool × Option (List Dirent)
  | 0, _, _ => (false, some [])
  | fuel + 1, i, nameLen =>
      match readDr i with
      | none => (true, some [])
      | some dr =>
          if dr 0 = 0 then (false, some [])
          else if dr 0 = 0xe5 ∨ dr 11 = 0x08 then readdirLoop readDr fuel (i + 1) nameLen
          else
            let group := if dr 11 = 0x0f then
                let n := dr 0 &&& 0x3f
                (readLongOrFail readDr n i dr ⟨fun _ => 0, nameLen⟩).map fun (dr, q) =>
                  (n + 1, q, dr)
              else some (1, shortName dr, dr)
            match group with
            | none => (true, none)
            | some (len, q, dr) =>
                let (err, dirents) := readdirLoop readDr fuel (i + len) q.len
                (err, dirents.map (direntOf q dr :: ·))

/-- `fat32_readdir` with memory for what it reports. For an empty listing `kmalloc` is asked for 0
bytes and returns 0. -/
def Dir.fat32Readdir (dir : Dir) (fFlags : LastType) (nameLen : ℕ) :
    Bool × Option (List Dirent) :=
  if fFlags = .dir then
    let (err, dirents) := readdirLoop dir.readDr (dir.slots + 1) 0 nameLen
    (err || dirents.any (·.isEmpty), dirents)
  else (true, none)

/-- `fat32_lookup` with memory for the inode, up to the number of the inode -/
def Dir.fat32Lookup (dir : Dir) (s : Qstr) (type : LastType) (nameLen : ℕ) : Option ℕ :=
  (lookupLoop dir.readDr s type (dir.slots + 1) 0 nameLen).map (firstClst ·.dr)

/-! ## The files in the slots -/

/-- A file in a directory: the name that `fat32_readdir` reads for it unless it passes over the
file, the name that `fat32_lookup_direntry` reads, and the 8.3 entry. -/
structure NamedEntry where
  listed : Option Qstr
  found : Qstr
  dr : Slot

/-- The files that stand in the slots from `i` on, up to a slot that begins with 0. `listedLen`
and `foundLen` are the lengths left in the buffers for the name, which a long name that fills its
entries takes over. -/
inductive HoldsFiles (readDr : ℕ → Option Slot) : ℕ → ℕ → ℕ → List NamedEntry → Prop
  | ended {i listedLen foundLen : ℕ} {dr : Slot} (read : readDr i = some dr) (isEnd : dr 0 = 0) :
      HoldsFiles readDr i listedLen foundLen []
  | deleted {i listedLen foundLen : ℕ} {dr : Slot} {files : List NamedEntry}
      (read : readDr i = some dr) (isDeleted : dr 0 = 0xe5)
      (rest : HoldsFiles readDr (i + 1) listedLen foundLen files) :
      HoldsFiles readDr i listedLen foundLen files
  | label {i listedLen foundLen : ℕ} {dr : Slot} {files : List NamedEntry}
      (read : readDr i = some dr) (live : dr 0 ≠ 0 ∧ dr 0 ≠ 0xe5) (isLabel : dr 11 = 0x08)
      (rest : HoldsFiles readDr (i + 1) listedLen (shortName dr).len files) :
      HoldsFiles readDr i listedLen foundLen (⟨none, shortName dr, dr⟩ :: files)
  | short {i listedLen foundLen : ℕ} {dr : Slot} {files : List NamedEntry}
      (read : readDr i = some dr) (live : dr 0 ≠ 0 ∧ dr 0 ≠ 0xe5) (notLabel : dr 11 ≠ 0x08)
      (notLong : dr 11 ≠ 0x0f)
      (rest : HoldsFiles readDr (i + 1) (shortName dr).len (shortName dr).len files) :
      HoldsFiles readDr i listedLen foundLen (⟨some (shortName dr), shortName dr, dr⟩ :: files)
  | long {i listedLen foundLen n : ℕ} {dr last : Slot} {listed found : Qstr}
      {files : List NamedEntry} (read : readDr i = some dr) (live : dr 0 ≠ 0 ∧ dr 0 ≠ 0xe5)
      (isLong : dr 11 = 0x0f) (number : dr 0 &&& 0x3f = n)
      (readable : ∀ k, 0 < k → k ≤ n → (readDr (i + k)).isSome)
      (isListed : readLong readDr n i dr ⟨fun _ => 0, listedLen⟩ = (last, listed))
      (isFound : readLong readDr n i dr ⟨fun _ => 0, foundLen⟩ = (last, found))
      (rest : HoldsFiles readDr (i + n + 1) listed.len found.len files) :
      HoldsFiles readDr i listedLen foundLen (⟨some listed, found, last⟩ :: files)

namespace NamedEntry

/-- `fat32_readdir` reports the file with the name and the type. -/
def listedAs (file : NamedEntry) (s : Qstr) (type : LastType) : Bool :=
  file.listed.any (genericCheckFilename s) && typeOf file.dr = type

/-- `fat32_lookup_direntry` takes the file for the name and the type. -/
def foundAs (file : NamedEntry) (s : Qstr) (type : LastType) : Bool :=
  genericCheckFilename s file.found && file.dr 11 = attrOf type

end NamedEntry

section

variable {readDr : ℕ → Option Slot} {total fuel i n listedLen foundLen : ℕ} {dr : Slot} {q : Qstr}
  {files : List NamedEntry}

theorem readLongOrFail_eq (readable : ∀ k, 0 < k → k ≤ n → (readDr (i + k)).isSome) :
    readLongOrFail readDr n i dr q = some (readLong readDr n i dr q) := by
  induction n generalizing i dr q with
  | zero => rfl
  | succ n ih =>
      rcases Option.isSome_iff_exists.mp (readable 1 (by omega) (by omega)) with ⟨next, read⟩
      simp only [readLongOrFail, readLong, read, Option.bind_some, Option.getD_some]
      refine ih fun k positive le => ?_
      rw [Nat.add_assoc, Nat.add_comm 1]
      exact readable (k + 1) (by omega) (by omega)

theorem EndsAt.exists_fuel (ends : EndsAt readDr total) (enough : total ≤ i + fuel)
    (read : readDr i = some dr) : ∃ left, fuel = left + 1 ∧ total ≤ i + 1 + left := by
  have lt : i < total := by
    by_contra behind
    rw [ends i (Nat.le_of_not_lt behind)] at read
    cases read
  exact ⟨fuel - 1, by omega, by omega⟩

/-- The files that `fat32_readdir` reports. -/
theorem HoldsFiles.readdirLoop_eq (holds : HoldsFiles readDr i listedLen foundLen files)
    (ends : EndsAt readDr total) (enough : total ≤ i + fuel) :
    readdirLoop readDr fuel i listedLen =
      (false, some (files.filterMap fun file => file.listed.map (direntOf · file.dr))) := by
  induction holds generalizing fuel with
  | ended read isEnd =>
      rcases ends.exists_fuel enough read with ⟨left, rfl, _⟩
      simp only [readdirLoop, read, isEnd, if_true, List.filterMap_nil]
  | deleted read isDeleted _ ih =>
      rcases ends.exists_fuel enough read with ⟨left, rfl, enough'⟩
      have notEnd : ¬(0xe5 = 0) := by decide
      simp only [readdirLoop, read, isDeleted, notEnd, if_false, true_or, if_true]
      exact ih enough'
  | label read live isLabel _ ih =>
      rcases ends.exists_fuel enough read with ⟨left, rfl, enough'⟩
      simp only [readdirLoop, read, live.1, isLabel, if_false, or_true, if_true]
      exact ih enough'
  | short read live notLabel notLong _ ih =>
      rcases ends.exists_fuel enough read with ⟨left, rfl, enough'⟩
      simp only [readdirLoop, read, live.1, live.2, notLabel, notLong, or_self, if_false]
      rw [ih enough']
      rfl
  | @long i _ _ n _ _ _ _ _ read live isLong number readable isListed _ _ ih =>
      rcases ends.exists_fuel enough read with ⟨left, rfl, enough'⟩
      have notLabel : ¬(0x0f = 0x08) := by decide
      simp only [readdirLoop, read, live.1, live.2, isLong, notLabel, or_self, if_false, if_true,
        number, readLongOrFail_eq readable, Option.map_some, isListed]
      rw [← Nat.add_assoc, ih (by omega)]
      rfl

/-- A round of `fat32_lookup_direntry` at an entry in use. -/
theorem lookupLoop_live {s : Qstr} {type : LastType} {nameLen len : ℕ} {last : Slot}
    {listed : Option Qstr} (read : readDr i = some dr) (live : dr 0 ≠ 0 ∧ dr 0 ≠ 0xe5)
    (group : groupAt readDr i dr nameLen = (len, q, last))
    (rest : (lookupLoop readDr s type fuel (i + len) q.len).map (firstClst ·.dr) =
      (files.find? (·.foundAs s type)).map (firstClst ·.dr)) :
    (lookupLoop readDr s type (fuel + 1) i nameLen).map (firstClst ·.dr) =
      ((⟨listed, q, last⟩ :: files).find? (·.foundAs s type)).map (firstClst ·.dr) := by
  have typed : ((last 11 = 0x20 ∧ type = .norm) ∨ (last 11 = 0x10 ∧ type = .dir)) ↔
      last 11 = attrOf type := by
    cases type <;> simp [attrOf]
  simp only [lookupLoop, read, live.1, live.2, if_false, group, typed, List.find?_cons,
    NamedEntry.foundAs]
  by_cases found : genericCheckFilename s q ∧ last 11 = attrOf type
  · simp only [found, and_self, if_true, decide_true, Bool.and_self, Option.map_some]
  · have notFound : (genericCheckFilename s q && decide (last 11 = attrOf type)) = false := by
      simpa using found
    rw [if_neg found, notFound]
    exact rest

/-- The file that `fat32_lookup_direntry` finds. -/
theorem HoldsFiles.lookupLoop_eq (holds : HoldsFiles readDr i listedLen foundLen files)
    (ends : EndsAt readDr total) (enough : total ≤ i + fuel) (s : Qstr) (type : LastType) :
    (lookupLoop readDr s type fuel i foundLen).map (firstClst ·.dr) =
      (files.find? (·.foundAs s type)).map (firstClst ·.dr) := by
  induction holds generalizing fuel with
  | ended read isEnd =>
      rcases ends.exists_fuel enough read with ⟨left, rfl, _⟩
      simp only [lookupLoop, read, isEnd, if_true, List.find?_nil, Option.map_none]
  | deleted read isDeleted _ ih =>
      rcases ends.exists_fuel enough read with ⟨left, rfl, enough'⟩
      have notEnd : ¬(0xe5 = 0) := by decide
      simp only [lookupLoop, read, isDeleted, notEnd, if_false, if_true]
      exact ih enough'
  | @label _ _ _ dr _ read live isLabel _ ih =>
      rcases ends.exists_fuel enough read with ⟨left, rfl, enough'⟩
      have notLong : dr 11 ≠ 0x0f := by
        rw [isLabel]
        decide
      exact lookupLoop_live read live (if_neg notLong) (ih enough')
  | short read live _ notLong _ ih =>
      rcases ends.exists_fuel enough read with ⟨left, rfl, enough'⟩
      exact lookupLoop_live read live (if_neg notLong) (ih enough')
  | @long i _ _ n dr last _ found _ read live isLong number _ _ isFound _ ih =>
      rcases ends.exists_fuel enough read with ⟨left, rfl, enough'⟩
      have group (foundLen : ℕ)
          (isFound : readLong readDr n i dr ⟨fun _ => 0, foundLen⟩ = (last, found)) :
          groupAt readDr i dr foundLen = (n + 1, found, last) := by
        simp only [groupAt, isLong, if_true, number, isFound]
      exact lookupLoop_live read live (group _ isFound) (ih (by omega))

/-! ## Where the two agree -/

/-- `fat32_readdir` reports a file with the name, the type and the cluster, and none with the
name and the type in front of it. -/
def Dir.Reports (dir : Dir) (nameLen : ℕ) (s : Qstr) (type : LastType) (clst : ℕ) : Prop :=
  ∃ dirents, dir.fat32Readdir .dir nameLen = (false, some dirents) ∧
    ∃ dirent, dirents.find? (fun dirent => genericCheckFilename s (.ofList dirent.name) &&
      dirent.type = type) = some dirent ∧ dirent.ino = clst

/-- A file is reported with just the cluster under which it is found. -/
def Dir.ListsAsFound (dir : Dir) (listedLen foundLen : ℕ) (s : Qstr) (type : LastType) : Prop :=
  ∀ clst, dir.Reports listedLen s type clst ↔ dir.fat32Lookup s type foundLen = some clst

/-- The first of the files that is listed or found with a name and a type is both, and the low
half of its cluster has only eight bits. Otherwise a file behind it that is found, or listed,
with the same number takes its place. -/
def Unambiguous (files : List NamedEntry) (s : Qstr) (type : LastType) : Prop :=
  ∀ file, files.find? (fun file => file.listedAs s type || file.foundAs s type) = some file →
    if file.listedAs s type then
      if file.foundAs s type then firstClstLo file.dr < 256
      else ∃ behind, files.find? (·.foundAs s type) = some behind ∧
        firstClst behind.dr = wholeClst file.dr
    else ∃ behind, files.find? (·.listedAs s type) = some behind ∧
      wholeClst behind.dr = firstClst file.dr

/-- The first element of either kind is the first of each kind it is of. -/
theorem find?_of_either {α : Type*} {l : List α} {p q : α → Bool} {a : α}
    (first : l.find? (fun a => p a || q a) = some a) :
    (p a → l.find? p = some a) ∧ (q a → l.find? q = some a) := by
  rcases List.find?_eq_some_iff_append.mp first with ⟨_, front, rest, split, before⟩
  have neither (b : α) (mem : b ∈ front) : p b = false ∧ q b = false := by
    have neitherHere := before b mem
    simpa using neitherHere
  refine ⟨fun isP => ?_, fun isQ => ?_⟩
  · exact List.find?_eq_some_iff_append.mpr
      ⟨isP, front, rest, split, fun b mem => by simp [(neither b mem).1]⟩
  · exact List.find?_eq_some_iff_append.mpr
      ⟨isQ, front, rest, split, fun b mem => by simp [(neither b mem).2]⟩

/-- Eight bits of the low half are the number where the half has no more. -/
theorem wholeClst_eq_firstClst : wholeClst dr = firstClst dr ↔ firstClstLo dr < 256 := by
  unfold wholeClst firstClst firstClstLo
  rw [show (0xff : ℕ) = 2 ^ 8 - 1 by rfl, Nat.and_two_pow_sub_one_eq_mod]
  omega

theorem Dir.reports_iff {dir : Dir} {s : Qstr} {type : LastType} {clst : ℕ}
    (holds : HoldsFiles dir.readDr 0 listedLen foundLen files) :
    dir.Reports listedLen s type clst ↔
      (files.find? (·.listedAs s type)).map (wholeClst ·.dr) = some clst := by
  let reported := files.filterMap fun file => file.listed.map (direntOf · file.dr)
  have listed : dir.fat32Readdir .dir listedLen = (reported.isEmpty, some reported) := by
    rw [Dir.fat32Readdir, if_pos rfl, holds.readdirLoop_eq (Dir.endsAt_slots dir) (by omega)]
    rfl
  have notEmpty : ∀ {p : Dirent → Bool} {dirent : Dirent}, reported.find? p = some dirent →
      reported.isEmpty = false := fun found =>
    List.isEmpty_eq_false_iff.mpr (List.ne_nil_of_mem (List.mem_of_find?_eq_some found))
  have isFound : dir.Reports listedLen s type clst ↔
      ∃ dirent, reported.find? (fun dirent => genericCheckFilename s (.ofList dirent.name) &&
        dirent.type = type) = some dirent ∧ dirent.ino = clst := by
    rw [Dir.Reports, listed]
    constructor
    · rintro ⟨dirents, isReported, found⟩
      rwa [← Option.some.inj (Prod.mk.inj isReported).2] at found
    · rintro ⟨dirent, found, same⟩
      exact ⟨reported, by rw [notEmpty found], dirent, found, same⟩
  have sameFile : (fun file : NamedEntry => (file.listed.map (direntOf · file.dr)).any
      fun dirent => genericCheckFilename s (.ofList dirent.name) && dirent.type = type) =
        (·.listedAs s type) := by
    funext file
    cases named : file.listed with
    | none => simp [NamedEntry.listedAs, named]
    | some q => simp [NamedEntry.listedAs, named, direntOf, genericCheckFilename_toList]
  simp only [isFound, reported, List.find?_filterMap, sameFile]
  cases found : files.find? (·.listedAs s type) with
  | none => simp
  | some file =>
      have isListed := List.find?_some found
      cases named : file.listed with
      | none => simp [NamedEntry.listedAs, named] at isListed
      | some q => simp [named, direntOf]

/-- A directory is listed as its files are found exactly when the names and types are
unambiguous. -/
theorem listsAsFound_iff {dir : Dir} {s : Qstr} {type : LastType}
    (holds : HoldsFiles dir.readDr 0 listedLen foundLen files) :
    dir.ListsAsFound listedLen foundLen s type ↔ Unambiguous files s type := by
  have found : dir.fat32Lookup s type foundLen =
      (files.find? (·.foundAs s type)).map (firstClst ·.dr) :=
    holds.lookupLoop_eq (Dir.endsAt_slots dir) (by omega) s type
  simp only [Dir.ListsAsFound, Dir.reports_iff holds, found]
  rw [← Option.ext_iff]
  unfold Unambiguous
  cases first : files.find? fun file => file.listedAs s type || file.foundAs s type with
  | none =>
      have neither (file : NamedEntry) (mem : file ∈ files) :
          file.listedAs s type = false ∧ file.foundAs s type = false := by
        have neitherHere := List.find?_eq_none.mp first file mem
        simpa using neitherHere
      have notListed : files.find? (·.listedAs s type) = none :=
        List.find?_eq_none.mpr fun file mem => by simp [(neither file mem).1]
      have notFound : files.find? (·.foundAs s type) = none :=
        List.find?_eq_none.mpr fun file mem => by simp [(neither file mem).2]
      rw [notListed, notFound]
      exact iff_of_true rfl nofun
  | some file =>
      rcases find?_of_either first with ⟨isListed, isFound⟩
      have either := List.find?_some first
      simp only [Option.some.injEq, forall_eq']
      by_cases listed : file.listedAs s type
      · rw [isListed listed, if_pos listed]
        by_cases found : file.foundAs s type
        · rw [isFound found, if_pos found, Option.map_some, Option.map_some, Option.some.injEq]
          exact wholeClst_eq_firstClst
        · rw [if_neg found, Option.map_some, eq_comm, Option.map_eq_some_iff]
      · have found : file.foundAs s type := by
          simpa [listed] using either
        rw [isFound found, if_neg listed, Option.map_some, Option.map_eq_some_iff]

end

/-- The entry of a file `B` with a first cluster below 65536. -/
def entryB (clstLow clstHigh : ℕ) : Slot :=
  ![0x42, 0x20, 0x20, 0x20, 0x20, 0x20, 0x20, 0x20, 0x20, 0x20, 0x20, 0x20, 0, 0, 0, 0, 0, 0, 0, 0,
    0, 0, 0, 0, 0, 0, clstLow, clstHigh, 0, 0, 0, 0]

/-- A directory with the file `B` in cluster 300. -/
def farB : Dir := onePage fun i => if i = 0 then entryB 44 1 else 0

/-- The name `B`. -/
def nameB : Qstr := ⟨fun _ => 0x42, 1⟩

theorem onePage_holdsFiles (clstLow clstHigh listedLen foundLen : ℕ) :
    HoldsFiles (onePage fun i => if i = 0 then entryB clstLow clstHigh else 0).readDr 0 listedLen
      foundLen [⟨some (shortName (entryB clstLow clstHigh)),
        shortName (entryB clstLow clstHigh), entryB clstLow clstHigh⟩] :=
  .short rfl ⟨(by decide : 0x42 ≠ 0), (by decide : 0x42 ≠ 0xe5)⟩ (by decide : 0x20 ≠ 0x08)
    (by decide : 0x20 ≠ 0x0f) (.ended rfl rfl)

/-- A file in cluster 5 is listed as it is found. -/
theorem listsAsFound_iff_near :
    (onePage fun i => if i = 0 then entryB 5 0 else 0).ListsAsFound 0 0 nameB .norm := by
  refine (listsAsFound_iff (onePage_holdsFiles 5 0 0 0)).mpr fun file first => ?_
  have isB := List.mem_singleton.mp (List.mem_of_find?_eq_some first)
  subst isB
  decide

/-- A file in cluster 300 is listed with this cluster and found with cluster 44. -/
theorem not_listsAsFound_far : ¬∀ (dir : Dir) (listedLen foundLen : ℕ) (files : List NamedEntry),
    HoldsFiles dir.readDr 0 listedLen foundLen files →
      ∀ s type, dir.ListsAsFound listedLen foundLen s type := by
  intro always
  have agree := always farB 0 0 _ (onePage_holdsFiles 44 1 0 0) nameB .norm 300
  have listed : farB.Reports 0 nameB .norm 300 := ⟨_, rfl, _, rfl, by decide⟩
  have found : farB.fat32Lookup nameB .norm 0 = some 44 := by decide +kernel
  rw [agree.mp listed] at found
  exact absurd (Option.some.inj found) (by decide)

end Ninix.Fat32
