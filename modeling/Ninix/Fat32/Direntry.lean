import Mathlib.Data.Fin.VecNotation
import Mathlib.Data.List.TakeWhile
import Mathlib.Tactic.IntervalCases
import Mathlib.Tactic.SplitIfs
import Ninix.Vfs.Name

/-!
# Directory entries

A file has one entry in the 8.3 format. In front of it stand, for a name of more than eleven
bytes, entries with thirteen bytes of the name each, the last part of the name first.
`fill_direntry` writes the entries and the loops of `fat32_lookup_direntry` read them; the names
and cluster numbers that survive the way through both are determined here.
-/

namespace Ninix.Fat32

open Vfs

/-- The bytes of an entry, `DIRENTRY_LEN` of them. -/
abbrev Slot := Fin 32 → ℕ

scoped instance neZero_direntryLen : NeZero 32 := ⟨by decide⟩

/-- `lgfile_mapping`, where the bytes of a name stand in an entry for long names. -/
def lgfileMapping : List (Fin 32) :=
  [0x1, 0x3, 0x5, 0x7, 0x9, 0xe, 0x10, 0x12, 0x14, 0x16, 0x18, 0x1c, 0x1e]

/-- `get_direnty_no` -/
def getDirentyNo (len : ℕ) : ℕ := if len ≤ 11 then 1 else 2 + len / 13

/-! ## Writing -/

/-- The last position below a bound that holds a dot. -/
def lastDot (name : ℕ → ℕ) : ℕ → Option ℕ
  | 0 => none
  | bound + 1 => if name bound = 0x2e then some bound else lastDot name bound

/-- The bytes in front of the last dot. -/
def fileLen (s : Qstr) : ℕ := (lastDot s.name s.len).getD s.len

/-- The position behind the last dot, or the end of a name without one. -/
def extBase (s : Qstr) : ℕ := ((lastDot s.name s.len).map (· + 1)).getD s.len

/-- The bytes behind the last dot. -/
def extLen (s : Qstr) : ℕ := ((lastDot s.name s.len).map (s.len - · - 1)).getD 0

/-- `st_filename` of the 8.3 entry, which a name with entries of its own ends in a number. -/
def stFilename (s : Qstr) (totalNo i : ℕ) : ℕ :=
  if i < 8 then
    if totalNo = 1 then if i < fileLen s then upper (s.name i) else 0x20
    else if i < 6 then upper (s.name i)
    else if i = 6 then 0x7e
    else 0x31
  else if i < extLen s + 8 then upper (s.name (extBase s + i - 8))
  else 0x20

/-- The attribute of a file or of a directory. -/
def attrOf : LastType → ℕ
  | .norm => 0x20
  | .dir => 0x10

/-- The 8.3 entry. The byte `c_ms` is the one the buffer held before. -/
def fillShort (s : Qstr) (type : LastType) (dir : Slot) (totalNo inodeNo : ℕ) : Slot :=
  let st := stFilename s totalNo
  ![st 0, st 1, st 2, st 3, st 4, st 5, st 6, st 7, st 8, st 9, st 10, attrOf type,
    0x18, dir 13, 0xc8, 0x95, 0x95, 0x4d, 0x95, 0x4d, (inodeNo >>> 16) &&& 0xff, 0,
    0xc8, 0x95, 0x95, 0x4d, inodeNo &&& 0xff, 0, 0, 0, 0, 0]

/-- The buffer an entry for a long name is filled from: a dot is put behind every name that has
no extension. -/
def nameBuf (s : Qstr) (i : ℕ) : ℕ :=
  if i < fileLen s then s.name i
  else if i = fileLen s then 0x2e
  else if i < fileLen s + 1 + extLen s then s.name (extBase s + (i - (fileLen s + 1)))
  else 0

/-- The entry with part `index` of a long name. -/
def fillLong (s : Qstr) (index totalNo : ℕ) : Slot :=
  let base := (index - 1) * 13
  let low k := if base + k > s.len then 0xff else nameBuf s (base + k)
  let high k := if base + k > s.len then 0xff else 0
  ![if index = totalNo - 1 then index ||| 0x40 else index, nameBuf s base, 0,
    low 1, high 1, low 2, high 2, low 3, high 3, low 4, high 4, 0x0f, 0, 0x2a,
    low 5, high 5, low 6, high 6, low 7, high 7, low 8, high 8, low 9, high 9, low 10, high 10,
    0, 0, low 11, high 11, low 12, high 12]

/-- `fill_direntry` -/
def fillDirentry (s : Qstr) (type : LastType) (dir : Slot) (index totalNo inodeNo : ℕ) : Slot :=
  if index = 0 then fillShort s type dir totalNo inodeNo else fillLong s index totalNo

/-- The entries of a file as they are written one behind the other into one buffer. -/
def entries (s : Qstr) (type : LastType) (dir : Slot) (totalNo inodeNo : ℕ) : ℕ → Slot
  | 0 => fillDirentry s type dir (totalNo - 1) totalNo inodeNo
  | k + 1 =>
      fillDirentry s type (entries s type dir totalNo inodeNo k) (totalNo - 1 - (k + 1)) totalNo
        inodeNo

/-! ## Reading -/

/-- `FILENAME_MX_LEN` -/
abbrev filenameMxLen : ℕ := 255

/-- A byte of a long name; a zero byte ends the name. -/
def putChar (q : Qstr) (i c : ℕ) : Qstr where
  name := fun other => if other = i then c else q.name other
  len := if c = 0 then i else q.len

/-- The thirteen bytes of an entry for long names. -/
def putChars (q : Qstr) (base : ℕ) (dr : Slot) : Qstr :=
  (List.range 13).foldl (fun q j => putChar q (base + j) (dr (lgfileMapping.getD j 0))) q

/-- The loop over the entries of a long name: an entry that cannot be read leaves the one read
before in the buffer. -/
def readLong (readDr : ℕ → Option Slot) : ℕ → ℕ → Slot → Qstr → Slot × Qstr
  | 0, _, dr, q => (dr, q)
  | n + 1, i, dr, q =>
      readLong readDr n (i + 1) ((readDr (i + 1)).getD dr) (putChars q (n * 13) dr)

/-- The bytes of a field in front of its padding. -/
def field (dr : Slot) (positions : List (Fin 32)) : List ℕ :=
  (positions.map dr).takeWhile (· ≠ 0x20)

/-- The bytes of the name in an 8.3 entry. -/
def shortChars (dr : Slot) : List ℕ :=
  let file := field dr [0, 1, 2, 3, 4, 5, 6, 7]
  let ext := field dr [8, 9, 10]
  if ext = [] then file else file ++ 0x2e :: ext

/-- The name in an 8.3 entry. -/
def shortName (dr : Slot) : Qstr := .ofList (shortChars dr)

/-- What the entries from `i` on hold: how many there are, the name and the 8.3 entry. The
length of a name without an end stays the length of the name before. -/
def groupAt (readDr : ℕ → Option Slot) (i : ℕ) (dr : Slot) (nameLen : ℕ) : ℕ × Qstr × Slot :=
  if dr 11 = 0x0f then
    let n := dr 0 &&& 0x3f
    let (dr, q) := readLong readDr n i dr ⟨fun _ => 0, nameLen⟩
    (n + 1, q, dr)
  else (1, shortName dr, dr)

/-- The first cluster of a file, as `fat32_lookup` reads it from the 8.3 entry. -/
def firstClst (dr : Slot) : ℕ :=
  ((dr 20 + 256 * dr 21) <<< 16) + ((dr 26 + 256 * dr 27) &&& 0xff)

/-! ## Names that are read as they were written -/

/-- A name that the 8.3 entry holds whole. -/
def Fits83 (s : Qstr) : Prop :=
  fileLen s ≤ 8 ∧ (∀ i < fileLen s, s.name i ≠ 0x20) ∧ extLen s ≤ 3 ∧
    (∀ i < extLen s, s.name (extBase s + i) ≠ 0x20) ∧ ((lastDot s.name s.len).isSome → 0 < extLen s)

theorem lastDot_some {name : ℕ → ℕ} {bound pos : ℕ} (found : lastDot name bound = some pos) :
    pos < bound ∧ name pos = 0x2e := by
  induction bound with
  | zero => simp [lastDot] at found
  | succ bound ih =>
      simp only [lastDot] at found
      split at found
      · rename_i isDot
        cases found
        exact ⟨by omega, isDot⟩
      · rcases ih found with ⟨lt, isDot⟩
        exact ⟨by omega, isDot⟩

theorem upper_eq_space {c : ℕ} : upper c = 0x20 ↔ c = 0x20 := by
  unfold upper
  split <;> omega

theorem upper_upper (c : ℕ) : upper (upper c) = upper c := by
  simp only [upper]
  split_ifs <;> omega

/-- A field of `width` bytes padded with blanks. -/
def padded (width len : ℕ) (c : ℕ → ℕ) : List ℕ :=
  (List.range width).map fun i => if i < len then c i else 0x20

/-- A field read up to its padding holds no more than was put in, and all of it only when it
fits and has no blanks. -/
theorem padded_length {width len : ℕ} {c : ℕ → ℕ} :
    ((padded width len c).takeWhile (· ≠ 0x20)).length ≤ len ∧
      (((padded width len c).takeWhile (· ≠ 0x20)).length = len →
        len ≤ width ∧ ∀ i < len, c i ≠ 0x20) := by
  have isPrefix := List.takeWhile_prefix (p := (· ≠ 0x20)) (l := padded width len c)
  have short := isPrefix.length_le
  have bytes : ∀ i, i < ((padded width len c).takeWhile (· ≠ 0x20)).length →
      i < len ∧ c i ≠ 0x20 := by
    intro i lt
    have lower : i < width := by
      rw [padded, List.length_map, List.length_range] at short
      exact lt_of_lt_of_le lt short
    have kept := List.mem_takeWhile_imp (List.getElem_mem lt)
    rw [isPrefix.getElem lt] at kept
    simp only [padded, List.getElem_map, List.getElem_range] at kept
    split at kept
    · exact ⟨by assumption, by simpa using kept⟩
    · simp at kept
  have le : ((padded width len c).takeWhile (· ≠ 0x20)).length ≤ len := by
    by_contra exceeds
    exact absurd (bytes len (by omega)).1 (lt_irrefl _)
  refine ⟨le, fun all => ⟨?_, fun i lt => (bytes i (by omega)).2⟩⟩
  rw [padded, List.length_map, List.length_range] at short
  rw [← padded, all] at short
  exact short

/-- A field that fits and has no blanks is read whole. -/
theorem padded_takeWhile {width len : ℕ} {c : ℕ → ℕ} (fits : len ≤ width)
    (noBlank : ∀ i < len, c i ≠ 0x20) :
    (padded width len c).takeWhile (· ≠ 0x20) = (List.range len).map c := by
  obtain ⟨rest, rfl⟩ := Nat.exists_eq_add_of_le fits
  have split : padded (len + rest) len c =
      (List.range len).map c ++ List.replicate rest 0x20 := by
    rw [padded, List.range_add, List.map_append, List.map_map]
    congr 1
    · refine List.map_congr_left fun i mem => ?_
      rw [if_pos (List.mem_range.mp mem)]
    · refine List.eq_replicate_iff.mpr ⟨by simp, ?_⟩
      intro b mem
      rcases List.mem_map.mp mem with ⟨i, _, rfl⟩
      simp
  have none : (List.replicate rest 0x20).takeWhile (· ≠ 0x20) = [] := by
    cases rest with
    | zero => rfl
    | succ rest => simp [List.replicate_succ]
  rw [split, List.takeWhile_append_of_pos, none, List.append_nil]
  intro b mem
  rcases List.mem_map.mp mem with ⟨i, lt, rfl⟩
  simpa using noBlank i (List.mem_range.mp lt)

section Short

variable (s : Qstr) (type : LastType) (dir : Slot) (inodeNo : ℕ)

theorem field_file : field (fillShort s type dir 1 inodeNo) [0, 1, 2, 3, 4, 5, 6, 7] =
    (padded 8 (fileLen s) fun i => upper (s.name i)).takeWhile (· ≠ 0x20) := rfl

theorem field_ext (totalNo : ℕ) : field (fillShort s type dir totalNo inodeNo) [8, 9, 10] =
    (padded 3 (extLen s) fun i => upper (s.name (extBase s + i))).takeWhile (· ≠ 0x20) := by
  have positions : [8, 9, 10].map (fillShort s type dir totalNo inodeNo) =
      padded 3 (extLen s) fun i => upper (s.name (extBase s + i)) := by
    simp only [fillShort, stFilename, padded, List.range_succ]
    simp
    exact ⟨if_congr (by omega) rfl rfl, if_congr (by omega) rfl rfl⟩
  rw [field, positions]

/-- The parts a name splits into. -/
theorem split_cases : (lastDot s.name s.len = none ∧ fileLen s = s.len ∧ extLen s = 0) ∨
    ∃ pos < s.len, lastDot s.name s.len = some pos ∧ s.name pos = 0x2e ∧ fileLen s = pos ∧
      extBase s = pos + 1 ∧ extLen s = s.len - pos - 1 := by
  cases found : lastDot s.name s.len with
  | none => simp [fileLen, extLen, found]
  | some pos =>
      rcases lastDot_some found with ⟨lt, isDot⟩
      exact Or.inr ⟨pos, lt, rfl, isDot, by simp [fileLen, extBase, extLen, found]⟩

variable {s}

/-- A name that fits is spelled out in capital letters. -/
theorem shortChars_eq (fits : Fits83 s) : shortChars (fillShort s type dir 1 inodeNo) =
    (List.range s.len).map fun i => upper (s.name i) := by
  rcases fits with ⟨fileFits, fileNoBlank, extFits, extNoBlank, dotted⟩
  simp only [shortChars, field_file, field_ext]
  rw [padded_takeWhile fileFits fun i below => mt upper_eq_space.mp (fileNoBlank i below),
    padded_takeWhile extFits fun i below => mt upper_eq_space.mp (extNoBlank i below)]
  rcases split_cases s with
    ⟨_, fileAll, extNone⟩ | ⟨pos, lt, found, isDot, filePos, basePos, extPos⟩
  · rw [extNone, fileAll]
    simp
  · have positive := dotted (by simp [found])
    have len : s.len = pos + 1 + extLen s := by omega
    have dot : upper (s.name pos) = 0x2e := by simp [isDot, upper]
    rw [if_neg (by simpa using Nat.ne_of_gt positive), filePos, basePos, len, List.range_add,
      List.range_succ]
    simp [dot]

/-- The name in the 8.3 entry of a file without other entries is the name it was written for
exactly when it fits there. -/
theorem shortName_iff :
    genericCheckFilename s (shortName (fillShort s type dir 1 inodeNo)) ↔ Fits83 s := by
  rw [genericCheckFilename_iff]
  constructor
  · rintro ⟨sameLen, _⟩
    have file := @padded_length 8 (fileLen s) fun i => upper (s.name i)
    have ext := @padded_length 3 (extLen s) fun i => upper (s.name (extBase s + i))
    simp only [shortName, Qstr.ofList, shortChars, field_file, field_ext] at sameLen
    rcases split_cases s with
      ⟨noDot, fileAll, extNone⟩ | ⟨pos, lt, found, _, filePos, _, extPos⟩
    · have empty : ((padded 3 (extLen s) fun i => upper (s.name (extBase s + i))).takeWhile
          (· ≠ 0x20)) = [] := List.eq_nil_of_length_eq_zero (by omega)
      rw [if_pos empty] at sameLen
      rcases file.2 (by omega) with ⟨fits, noBlank⟩
      exact ⟨fits, fun i below => mt upper_eq_space.mpr (noBlank i below), by omega, by omega,
        by simp [noDot]⟩
    · split at sameLen
      · omega
      · rename_i nonempty
        have positive := List.length_pos_iff.mpr nonempty
        rw [List.length_append, List.length_cons] at sameLen
        rcases file.2 (by omega) with ⟨fits, noBlank⟩
        rcases ext.2 (by omega) with ⟨extFits, extNoBlank⟩
        exact ⟨fits, fun i below => mt upper_eq_space.mpr (noBlank i below), extFits,
          fun i below => mt upper_eq_space.mpr (extNoBlank i below), fun _ => by omega⟩
  · intro fits
    simp only [shortName, Qstr.ofList, shortChars_eq type dir inodeNo fits]
    refine ⟨by simp, fun i below => ?_⟩
    simp [List.getD_eq_getElem?_getD, below, upper_upper]

end Short

/-! ## Long names -/

section Long

/-- What `putChars` does, for a part of the bytes. -/
theorem putChar_fold (q : Qstr) (base : ℕ) (c : ℕ → ℕ) (count : ℕ) :
    let filled := (List.range count).foldl (fun q j => putChar q (base + j) (c j)) q
    (∀ i, filled.name i = if base ≤ i ∧ i < base + count then c (i - base) else q.name i) ∧
      ((∀ j < count, c j ≠ 0) → filled.len = q.len) ∧
      ∀ last < count, c last = 0 → (∀ j < count, c j = 0 → j = last) →
        filled.len = base + last := by
  induction count with
  | zero => simp
  | succ count ih =>
      simp only [List.range_succ, List.foldl_append, List.foldl_cons, List.foldl_nil]
      rcases ih with ⟨name, noEnd, oneEnd⟩
      refine ⟨fun i => ?_, fun none => ?_, fun last lt isZero only => ?_⟩
      · rw [putChar]
        by_cases here : i = base + count
        · simp [here]
        · simp only [if_neg here, name]
          exact if_congr (by omega) rfl rfl
      · rw [putChar, if_neg (none count (by omega))]
        exact noEnd fun j below => none j (by omega)
      · by_cases here : last = count
        · subst here
          rw [putChar, if_pos isZero]
        · have notHere : c count ≠ 0 := fun other => here (only count (by omega) other).symm
          rw [putChar, if_neg notHere]
          exact oneEnd last (by omega) isZero fun j below => only j (by omega)

/-- The bytes of the parts of a long name: behind the end there is padding. -/
def longChar (s : Qstr) (i : ℕ) : ℕ := if i > s.len then 0xff else nameBuf s i

/-- An entry with a part that begins inside the name holds the bytes of the part. -/
theorem fillLong_char {s : Qstr} {n totalNo j : ℕ} (lt : j < 13) (inside : n * 13 ≤ s.len) :
    fillLong s (n + 1) totalNo (lgfileMapping.getD j 0) = longChar s (n * 13 + j) := by
  interval_cases j <;> simp [lgfileMapping, fillLong, longChar]
  omega

/-- The name read from the parts of a long name: the bytes of the parts, and the length up to
the only zero byte or, without one, the length before. -/
theorem readLong_spec {readDr : ℕ → Option Slot} {c : ℕ → ℕ} {n i : ℕ} {slots : ℕ → Slot}
    {q : Qstr} (reads : ∀ k, 0 < k → k ≤ n → readDr (i + k) = some (slots k))
    (bytes : ∀ k < n, ∀ j < 13,
      slots k (lgfileMapping.getD j 0) = c ((n - 1 - k) * 13 + j)) :
    let (dr, name) := readLong readDr n i (slots 0) q
    dr = slots n ∧ (∀ p < n * 13, name.name p = c p) ∧
      (∀ p, n * 13 ≤ p → name.name p = q.name p) ∧
      ((∀ p < n * 13, c p ≠ 0) → name.len = q.len) ∧
      ∀ last < n * 13, c last = 0 → (∀ p < n * 13, c p = 0 → p = last) → name.len = last := by
  induction n generalizing i slots q with
  | zero => simp [readLong]
  | succ n ih =>
      simp only [readLong, reads 1 (by omega) (by omega), Option.getD_some]
      have rest := @ih (i + 1) (fun k => slots (k + 1)) (putChars q (n * 13) (slots 0))
        (fun k positive le => by
          rw [← reads (k + 1) (by omega) (by omega)]
          congr 1
          omega)
        (fun k lt j below => by
          rw [bytes (k + 1) (by omega) j below]
          congr 3
          omega)
      rcases rest with ⟨drEq, low, high, noEnd, oneEnd⟩
      have part : ∀ j < 13, slots 0 (lgfileMapping.getD j 0) = c (n * 13 + j) :=
        fun j below => by simpa using bytes 0 (by omega) j below
      rcases putChar_fold q (n * 13) (fun j => slots 0 (lgfileMapping.getD j 0)) 13 with
        ⟨partName, partNoEnd, partOneEnd⟩
      refine ⟨drEq, fun p lt => ?_, fun p le => ?_, fun none => ?_, fun last lt isZero only => ?_⟩
      · by_cases inRest : p < n * 13
        · exact low p inRest
        · rw [high p (by omega), putChars, partName, if_pos (by omega), part _ (by omega)]
          congr 1
          omega
      · rw [high p (by omega), putChars, partName, if_neg (by omega)]
      · rw [noEnd fun p lt => none p (by omega), putChars]
        exact partNoEnd fun j below => by
          rw [part j below]
          exact none _ (by omega)
      · by_cases inRest : last < n * 13
        · exact oneEnd last inRest isZero fun p lt => only p (by omega)
        · have noneLow : ∀ p < n * 13, c p ≠ 0 := fun p lt isZero' => by
            have := only p (by omega) isZero'
            omega
          obtain ⟨j, rfl⟩ := Nat.exists_eq_add_of_le (Nat.le_of_not_lt inRest)
          rw [noEnd noneLow, putChars]
          refine partOneEnd j (by omega) ((part j (by omega)).trans isZero) fun other below zero => ?_
          rw [part other below] at zero
          have := only _ (by omega) zero
          omega

variable {s : Qstr}

theorem nameBuf_lt {p : ℕ} (lt : p < s.len) : nameBuf s p = s.name p := by
  unfold nameBuf
  rcases split_cases s with
    ⟨_, fileAll, extNone⟩ | ⟨pos, below, _, isDot, filePos, basePos, extPos⟩
  · rw [if_pos (by omega)]
  · rw [filePos, basePos, extPos]
    split
    · rfl
    · split
      · rename_i here
        rw [here, isDot]
      · rw [if_pos (by omega)]
        congr 1
        omega

theorem nameBuf_len : nameBuf s s.len = if (lastDot s.name s.len).isSome then 0 else 0x2e := by
  unfold nameBuf
  rcases split_cases s with
    ⟨noDot, fileAll, extNone⟩ | ⟨pos, below, found, isDot, filePos, basePos, extPos⟩
  · simp [noDot, fileAll]
  · rw [filePos, extPos, found, if_neg (by omega), if_neg (by omega), if_neg (by omega)]
    rfl

/-- The entry in front has the parts of a long name with the last part first. -/
theorem entries_long {type : LastType} {dir : Slot} {totalNo inodeNo k : ℕ}
    (lt : k < totalNo - 1) :
    entries s type dir totalNo inodeNo k = fillLong s (totalNo - 1 - k) totalNo := by
  cases k with
  | zero => rw [entries, fillDirentry, if_neg (by omega), Nat.sub_zero]
  | succ k => rw [entries, fillDirentry, if_neg (by omega)]

/-- The entry behind the others is the one in the 8.3 format. -/
theorem entries_last {type : LastType} {dir : Slot} {totalNo inodeNo : ℕ} :
    ∃ dir', entries s type dir totalNo inodeNo (totalNo - 1) =
      fillShort s type dir' totalNo inodeNo := by
  cases number : totalNo - 1 with
  | zero => exact ⟨dir, by rw [entries, fillDirentry, if_pos number]⟩
  | succ k =>
      exact ⟨entries s type dir totalNo inodeNo k, by
        rw [entries, fillDirentry, if_pos (by omega)]⟩

/-- The length read for a long name: its own when it has a dot, and otherwise the one before,
since the dot put behind the name takes the place of its end. -/
theorem longName_iff {readDr : ℕ → Option Slot} {begin n : ℕ} {slots : ℕ → Slot}
    (number : n = s.len / 13 + 1) (noZero : ∀ i < s.len, s.name i ≠ 0)
    (reads : ∀ k, 0 < k → k ≤ n → readDr (begin + k) = some (slots k))
    (parts : ∀ k < n, slots k = fillLong s (n - k) (n + 1)) (nameLen : ℕ) :
    let (dr, q) := readLong readDr n begin (slots 0) ⟨fun _ => 0, nameLen⟩
    dr = slots n ∧
      (genericCheckFilename s q ↔ (lastDot s.name s.len).isSome ∨ nameLen = s.len) := by
  have spec := @readLong_spec readDr (longChar s) n begin slots
    ⟨fun _ => 0, nameLen⟩ reads (fun k lt j below => by
      rw [parts k lt, show n - k = n - 1 - k + 1 by omega, fillLong_char below (by omega)])
  rcases spec with ⟨drEq, low, _, noEnd, oneEnd⟩
  refine ⟨drEq, ?_⟩
  have bytes : ∀ p < s.len, longChar s p = s.name p := fun p lt => by
    rw [longChar, if_neg (by omega), nameBuf_lt lt]
  have padding : ∀ p, s.len < p → longChar s p ≠ 0 := fun p lt => by simp [longChar, lt]
  have atEnd : longChar s s.len = if (lastDot s.name s.len).isSome then 0 else 0x2e := by
    rw [longChar, if_neg (lt_irrefl _), nameBuf_len]
  have sameName : ∀ i < s.len, upper (s.name i) =
      upper ((readLong readDr n begin (slots 0) ⟨fun _ => 0, nameLen⟩).2.name i) := fun i lt => by
    rw [low i (by omega), bytes i lt]
  rw [genericCheckFilename_iff, and_iff_left sameName]
  by_cases dotted : (lastDot s.name s.len).isSome
  · rw [if_pos dotted] at atEnd
    have lenEq := oneEnd s.len (by omega) atEnd fun p _ isZero => by
      rcases lt_trichotomy p s.len with lt | eq | gt
      · exact absurd ((bytes p lt).symm.trans isZero) (noZero p lt)
      · exact eq
      · exact absurd isZero (padding p gt)
    simp [dotted, lenEq]
  · rw [if_neg dotted] at atEnd
    have lenEq := noEnd fun p _ isZero => by
      rcases lt_trichotomy p s.len with lt | eq | gt
      · exact noZero p lt ((bytes p lt).symm.trans isZero)
      · simp [eq, atEnd] at isZero
      · exact padding p gt isZero
    simp only [dotted, Bool.false_eq_true, false_or, lenEq]
    exact eq_comm

end Long

/-! ## The entries of a file -/

section File

variable {s : Qstr}

/-- The first byte of the entries does not mark them as deleted. -/
def HeadLive (s : Qstr) : Prop := s.len ≤ 11 → 0 < fileLen s → s.name 0 ≠ 0xe5

/-- The name is read from the entries as it was written, when the name read before has the given
length: a short name fits the 8.3 entry, and a long one has a dot or happens to have the length
of the name before. -/
def Storable (s : Qstr) (nameLen : ℕ) : Prop :=
  if s.len ≤ 11 then Fits83 s else (lastDot s.name s.len).isSome ∨ nameLen = s.len

/-- The flag of the first entry hides neither its number nor makes the entry a deleted one. -/
theorem flagged {index : ℕ} (lt : index < 64) :
    (index ||| 0x40) &&& 0x3f = index ∧ index ||| 0x40 ≠ 0 ∧ index ||| 0x40 ≠ 0xe5 := by
  have all : ∀ index < 64, (index ||| 0x40) &&& 0x3f = index ∧ index ||| 0x40 ≠ 0 ∧
      index ||| 0x40 ≠ 0xe5 := by decide
  exact all index lt

variable (type : LastType) (dir : Slot) (inodeNo : ℕ)

/-- Whether the first entry of a file is taken for one in use. -/
theorem entries_head (noZero : ∀ i < s.len, s.name i ≠ 0) (short : s.len ≤ 254) :
    let head := entries s type dir (getDirentyNo s.len) inodeNo 0
    (head 0 ≠ 0 ∧ head 0 ≠ 0xe5) ↔ HeadLive s := by
  unfold HeadLive getDirentyNo
  split
  · rename_i fits
    have head : entries s type dir 1 inodeNo 0 0 = stFilename s 1 0 := rfl
    have fileLe : fileLen s ≤ s.len := by
      rcases split_cases s with ⟨_, eq, _⟩ | ⟨pos, lt, _, _, eq, _⟩ <;> omega
    simp only [fits, forall_const, head, stFilename]
    by_cases nonempty : 0 < fileLen s
    · have byte := noZero 0 (by omega)
      simp only [nonempty, if_true, forall_const, upper]
      split_ifs <;> omega
    · simp [nonempty]
  · rename_i long
    rw [entries_long (by omega)]
    have number : fillLong s (2 + s.len / 13 - 1 - 0) (2 + s.len / 13) 0 =
        (1 + s.len / 13) ||| 0x40 := by
      rw [show 2 + s.len / 13 - 1 - 0 = 1 + s.len / 13 by omega]
      simp [fillLong, show 2 + s.len / 13 - 1 = 1 + s.len / 13 by omega]
    simp only [number]
    have flag := flagged (show 1 + s.len / 13 < 64 by omega)
    exact ⟨fun _ fits => absurd fits long, fun _ => flag.2⟩

/-- What is read back from the entries of a file: they belong together, and the name is the one
they were written for exactly when it is storable. -/
theorem groupAt_entries (noZero : ∀ i < s.len, s.name i ≠ 0) (short : s.len ≤ 254)
    {readDr : ℕ → Option Slot} {begin : ℕ}
    (reads : ∀ k < getDirentyNo s.len, readDr (begin + k) =
      some (entries s type dir (getDirentyNo s.len) inodeNo k)) (nameLen : ℕ) :
    ∃ q dir', groupAt readDr begin (entries s type dir (getDirentyNo s.len) inodeNo 0) nameLen =
        (getDirentyNo s.len, q, fillShort s type dir' (getDirentyNo s.len) inodeNo) ∧
      (genericCheckFilename s q ↔ Storable s nameLen) := by
  unfold Storable
  by_cases fits : s.len ≤ 11
  · have one : getDirentyNo s.len = 1 := if_pos fits
    have attr : attrOf type ≠ 0x0f := by cases type <;> decide
    rw [one, if_pos fits]
    refine ⟨_, dir, ?_, shortName_iff type dir inodeNo⟩
    rw [groupAt, if_neg]
    · rfl
    · exact attr
  · have number : getDirentyNo s.len = s.len / 13 + 2 := by
      rw [getDirentyNo, if_neg fits, Nat.add_comm]
    rw [number] at reads ⊢
    rw [if_neg fits]
    obtain ⟨n, count⟩ : ∃ n, n = s.len / 13 + 1 := ⟨_, rfl⟩
    rw [show s.len / 13 + 2 = n + 1 by omega] at reads ⊢
    have parts : ∀ k < n, entries s type dir (n + 1) inodeNo k = fillLong s (n - k) (n + 1) :=
      fun k lt => entries_long (by omega)
    rcases @entries_last s type dir (n + 1) inodeNo with ⟨dir', last⟩
    rw [Nat.add_sub_cancel] at last
    rcases longName_iff count noZero (fun k _ le => reads k (by omega)) parts nameLen with
      ⟨drEq, same⟩
    have head := parts 0 (by omega)
    have attr : entries s type dir (n + 1) inodeNo 0 11 = 0x0f := by
      rw [head]
      rfl
    have flag : entries s type dir (n + 1) inodeNo 0 0 &&& 0x3f = n := by
      rw [head]
      simpa [fillLong] using (flagged (show n < 64 by omega)).1
    refine ⟨_, dir', ?_, same⟩
    rw [groupAt, if_pos attr, flag, ← last, ← drEq]

/-- The attribute in the 8.3 entry is the one of the type. -/
theorem fillShort_attr (totalNo : ℕ) : fillShort s type dir totalNo inodeNo 11 = attrOf type :=
  rfl

/-- Of the number of the first cluster the entry keeps the bits 0 to 7 and 16 to 23. -/
theorem firstClst_iff (totalNo : ℕ) :
    firstClst (fillShort s type dir totalNo inodeNo) = inodeNo ↔
      inodeNo < 16777216 ∧ inodeNo / 256 % 256 = 0 := by
  have low : inodeNo &&& 0xff = inodeNo % 256 := Nat.and_two_pow_sub_one_eq_mod inodeNo 8
  have high : (inodeNo >>> 16) &&& 0xff = inodeNo / 65536 % 256 := by
    rw [Nat.shiftRight_eq_div_pow]
    exact Nat.and_two_pow_sub_one_eq_mod _ 8
  have read : firstClst (fillShort s type dir totalNo inodeNo) =
      inodeNo / 65536 % 256 * 65536 + inodeNo % 256 := by
    have bytes : firstClst (fillShort s type dir totalNo inodeNo) =
        (((inodeNo >>> 16) &&& 0xff) + 256 * 0) <<< 16 +
          (((inodeNo &&& 0xff) + 256 * 0) &&& 0xff) := rfl
    have mask : inodeNo % 256 &&& 0xff = inodeNo % 256 % 256 :=
      Nat.and_two_pow_sub_one_eq_mod _ 8
    rw [bytes, high, low, Nat.mul_zero, Nat.add_zero, Nat.add_zero, mask, Nat.mod_mod,
      Nat.shiftLeft_eq]
  rw [read]
  omega

end File

end Ninix.Fat32
