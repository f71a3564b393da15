import Ninix.Fat32.Readdir

/-!
# What comes back from the entries of a file

The entries that `fill_direntry` writes for a file are read by `fat32_lookup_direntry` and by
`fat32_readdir`. The number of the first cluster loses bits on the way in, so that both readers
agree on what is left of it. The name comes back when it is long and has a dot; a short name has
to fit its two fields, and a long one without a dot loses its end.
-/

namespace Ninix.Fat32

open Vfs

/-! ## Numbers of clusters -/

/-- The entries for `.` and `..` that `fat32_createinode` puts into a new directory, with the
second byte of the name. -/
def dotSlot (second inodeNo : ℕ) : Slot :=
  ![0x2e, second, 0x20, 0x20, 0x20, 0x20, 0x20, 0x20, 0x20, 0x20, 0x20, attrOf .dir,
    0x18, 0, 0xc8, 0x95, 0x95, 0x4d, 0x95, 0x4d, (inodeNo >>> 16) &&& 0xff, 0,
    0xc8, 0x95, 0x95, 0x4d, inodeNo &&& 0xff, 0, 0, 0, 0, 0]

/-- The entry `.` -/
def selfSlot (inodeNo : ℕ) : Slot := dotSlot 0x20 inodeNo

/-- The entry `..` -/
def parentSlot (pinodeNo : ℕ) : Slot := dotSlot 0x2e pinodeNo

/-- Both `fat32_lookup` and `fat32_readdir` read the number of the cluster from the entry. -/
def ReadsClst (dr : Slot) (clst : ℕ) : Prop := firstClst dr = clst ∧ wholeClst dr = clst

/-- The number of the cluster is read back from every entry it is written to. -/
def KeepsClst (clst : ℕ) : Prop :=
  (∀ s type dir totalNo, ReadsClst (fillDirentry s type dir 0 totalNo clst) clst) ∧
    ReadsClst (selfSlot clst) clst ∧ ReadsClst (parentSlot clst) clst

/-- An entry with the bytes of an 8.3 entry in the fields for the cluster reads the same. -/
theorem readsClst_iff {s : Qstr} {type : LastType} {dir dr : Slot} {totalNo clst : ℕ}
    (sameHi : dr 20 = fillShort s type dir totalNo clst 20 ∧ dr 21 = 0)
    (sameLo : dr 26 = fillShort s type dir totalNo clst 26 ∧ dr 27 = 0) :
    ReadsClst dr clst ↔ clst < 16777216 ∧ clst / 256 % 256 = 0 := by
  have sameFirst : firstClst dr = firstClst (fillShort s type dir totalNo clst) := by
    unfold firstClst
    rw [sameHi.1, sameHi.2, sameLo.1, sameLo.2]
    rfl
  have low : firstClstLo dr < 256 := by
    have byte : dr 26 = clst % 256 := sameLo.1.trans (Nat.and_two_pow_sub_one_eq_mod clst 8)
    unfold firstClstLo
    rw [byte, sameLo.2]
    omega
  unfold ReadsClst
  rw [wholeClst_eq_firstClst.mpr low, and_self, sameFirst]
  exact firstClst_iff type dir clst totalNo

/-- The number of a cluster survives the directory entry exactly when its bits 8 to 15 and the
bits from 24 on are zero. -/
theorem keepsClst_iff (clst : ℕ) : KeepsClst clst ↔ clst < 16777216 ∧ clst / 256 % 256 = 0 := by
  have file (s : Qstr) (type : LastType) (dir : Slot) (totalNo : ℕ) :
      ReadsClst (fillDirentry s type dir 0 totalNo clst) clst ↔
        clst < 16777216 ∧ clst / 256 % 256 = 0 := by
    rw [fillDirentry, if_pos rfl]
    exact readsClst_iff ⟨rfl, rfl⟩ ⟨rfl, rfl⟩
  have dots (second : ℕ) : ReadsClst (dotSlot second clst) clst ↔
      clst < 16777216 ∧ clst / 256 % 256 = 0 :=
    @readsClst_iff nameA .dir 0 (dotSlot second clst) 1 clst ⟨rfl, rfl⟩ ⟨rfl, rfl⟩
  unfold KeepsClst selfSlot parentSlot
  rw [dots, dots, and_self]
  refine ⟨fun keeps => keeps.2, fun fits => ⟨fun s type dir totalNo => ?_, fits⟩⟩
  exact (file s type dir totalNo).mpr fits

/-- Cluster 300 does not survive. -/
theorem not_keepsClst_far : ¬∀ clst < 2 ^ 28, KeepsClst clst := by
  intro always
  have read : firstClst (selfSlot 300) = 300 := (always 300 (by decide)).2.1.1
  exact absurd read (by decide)

/-! ## Long names with a dot -/

theorem lastDot_isSome {name : ℕ → ℕ} {bound : ℕ} :
    (lastDot name bound).isSome ↔ ∃ i < bound, name i = 0x2e := by
  induction bound with
  | zero => simp [lastDot]
  | succ bound ih =>
      rw [lastDot]
      split
      · rename_i isDot
        exact iff_of_true rfl ⟨bound, Nat.lt_succ_self _, isDot⟩
      · rename_i noDot
        rw [ih]
        constructor
        · rintro ⟨i, lt, isDot⟩
          exact ⟨i, by omega, isDot⟩
        · rintro ⟨i, lt, isDot⟩
          have other : i ≠ bound := fun here => noDot (here ▸ isDot)
          exact ⟨i, by omega, isDot⟩

section

variable {s : Qstr} {readDr : ℕ → Option Slot} {begin inodeNo : ℕ} {type : LastType} {dir : Slot}

/-- The entries of a file stand in the slots from `begin` on, in the order in which they are
stored. -/
def Stored (readDr : ℕ → Option Slot) (begin : ℕ) (s : Qstr) (type : LastType) (dir : Slot)
    (inodeNo : ℕ) : Prop :=
  ∀ k < getDirentyNo s.len,
    readDr (begin + k) = some (entries s type dir (getDirentyNo s.len) inodeNo k)

theorem Stored.head (stored : Stored readDr begin s type dir inodeNo) :
    readDr begin = some (entries s type dir (getDirentyNo s.len) inodeNo 0) :=
  stored 0 (getDirentyNo_pos s.len)

/-- The parts of a long name with a dot give back its bytes and its length. -/
theorem readLong_dotted {n : ℕ} {slots : ℕ → Slot} (number : n = s.len / 13 + 1)
    (noZero : ∀ i < s.len, s.name i ≠ 0) (dotted : (lastDot s.name s.len).isSome)
    (reads : ∀ k, 0 < k → k ≤ n → readDr (begin + k) = some (slots k))
    (parts : ∀ k < n, slots k = fillLong s (n - k) (n + 1)) (nameLen : ℕ) :
    ∃ q, readLong readDr n begin (slots 0) ⟨fun _ => 0, nameLen⟩ = (slots n, q) ∧
      q.len = s.len ∧ q.toList = s.toList := by
  rcases @readLong_spec readDr (longChar s) n begin slots ⟨fun _ => 0, nameLen⟩ reads
    (fun k lt j below => by
      rw [parts k lt, show n - k = n - 1 - k + 1 by omega, fillLong_char below (by omega)]) with
    ⟨last, low, _, _, oneEnd⟩
  have inName : ∀ p < s.len, longChar s p = s.name p := fun p lt => by
    rw [longChar, if_neg (by omega), nameBuf_lt lt]
  have atEnd : longChar s s.len = 0 := by
    rw [longChar, if_neg (lt_irrefl _), nameBuf_len, if_pos dotted]
  have onlyEnd : ∀ p < n * 13, longChar s p = 0 → p = s.len := fun p _ isZero => by
    rcases lt_trichotomy p s.len with lt | eq | gt
    · exact absurd ((inName p lt).symm.trans isZero) (noZero p lt)
    · exact eq
    · simp [longChar, gt] at isZero
  have len := oneEnd s.len (by omega) atEnd onlyEnd
  refine ⟨_, Prod.ext last rfl, len, ?_⟩
  rw [Qstr.toList, Qstr.toList, len]
  refine List.map_congr_left fun p mem => ?_
  have lt := List.mem_range.mp mem
  rw [low p (by omega), inName p lt]

/-- What the entries of a long name with a dot are read as. -/
theorem Stored.groupAt_dotted (stored : Stored readDr begin s type dir inodeNo)
    (long : 12 ≤ s.len) (short : s.len ≤ 246) (noZero : ∀ i < s.len, s.name i ≠ 0)
    (dotted : (lastDot s.name s.len).isSome) (nameLen : ℕ) :
    let head := entries s type dir (getDirentyNo s.len) inodeNo 0
    let last := entries s type dir (getDirentyNo s.len) inodeNo (getDirentyNo s.len - 1)
    (head 0 ≠ 0 ∧ head 0 ≠ 0xe5) ∧ head 11 = 0x0f ∧
      (head 0 &&& 0x3f) + 1 = getDirentyNo s.len ∧ last 11 = attrOf type ∧
      ∃ q, readLong readDr (head 0 &&& 0x3f) begin head ⟨fun _ => 0, nameLen⟩ = (last, q) ∧
        q.len = s.len ∧ q.toList = s.toList := by
  have live := (entries_head type dir inodeNo noZero (show s.len ≤ 254 by omega)).mpr
    fun fits => absurd fits (by omega)
  obtain ⟨n, number⟩ : ∃ n, n = s.len / 13 + 1 := ⟨_, rfl⟩
  have total : getDirentyNo s.len = n + 1 := by
    rw [getDirentyNo, if_neg (by omega)]
    omega
  unfold Stored at stored
  rw [total] at stored live ⊢
  rw [Nat.add_sub_cancel]
  have parts : ∀ k < n, entries s type dir (n + 1) inodeNo k = fillLong s (n - k) (n + 1) :=
    fun k lt => entries_long (by omega)
  have count : entries s type dir (n + 1) inodeNo 0 0 &&& 0x3f = n := by
    rw [parts 0 (by omega)]
    simpa [fillLong] using (flagged (show n < 64 by omega)).1
  have attr : entries s type dir (n + 1) inodeNo n 11 = attrOf type := by
    rcases @entries_last s type dir (n + 1) inodeNo with ⟨dir', last⟩
    rw [Nat.add_sub_cancel] at last
    rw [last]
    exact fillShort_attr type dir' inodeNo (n + 1)
  refine ⟨live, ?_, by rw [count], attr, ?_⟩
  · rw [parts 0 (by omega)]
    rfl
  · rw [count]
    exact readLong_dotted number noZero dotted (fun k _ le => stored k (by omega)) parts nameLen

theorem typeOf_attrOf {dr : Slot} (attr : dr 11 = attrOf type) : typeOf dr = type := by
  unfold typeOf
  rw [attr]
  cases type <;> rfl

/--
The entries of a long name with a dot, read by the loop of either function whatever the buffer
for the name held before: the bytes and the length are those of the name, the entries are counted
from the first to the one in the 8.3 format, and there the scan ends.
-/
theorem longName_roundTrip (long : 12 ≤ s.len) (short : s.len ≤ 246)
    (noZero : ∀ i < s.len, s.name i ≠ 0) (hasDot : ∃ i < s.len, s.name i = 0x2e)
    (stored : Stored readDr begin s type dir inodeNo) (fuel nameLen : ℕ) :
    ∃ q last, q.len = s.len ∧ q.toList = s.toList ∧
      readDr (begin + (getDirentyNo s.len - 1)) = some last ∧
      groupAt readDr begin (entries s type dir (getDirentyNo s.len) inodeNo 0) nameLen =
        (getDirentyNo s.len, q, last) ∧
      lookupLoop readDr s type (fuel + 1) begin nameLen =
        some ⟨begin, getDirentyNo s.len, s.toList, last⟩ ∧
      readdirLoop readDr (fuel + 1) begin nameLen =
        ((readdirLoop readDr fuel (begin + getDirentyNo s.len) s.len).1,
          (readdirLoop readDr fuel (begin + getDirentyNo s.len) s.len).2.map
            (⟨wholeClst last, type, s.toList⟩ :: ·)) := by
  have positive := getDirentyNo_pos s.len
  rcases stored.groupAt_dotted long short noZero (lastDot_isSome.mpr hasDot) nameLen with
    ⟨live, isLong, count, attr, q, readAll, len, bytes⟩
  have atLast := stored (getDirentyNo s.len - 1) (by omega)
  have group : groupAt readDr begin (entries s type dir (getDirentyNo s.len) inodeNo 0) nameLen =
      (getDirentyNo s.len, q,
        entries s type dir (getDirentyNo s.len) inodeNo (getDirentyNo s.len - 1)) := by
    simp only [groupAt, isLong, if_true, readAll, count]
  refine ⟨q, _, len, bytes, atLast, group, ?_, ?_⟩
  · have same : genericCheckFilename s q := by
      rw [← genericCheckFilename_toList, bytes, genericCheckFilename_toList,
        genericCheckFilename_iff]
      exact ⟨rfl, fun _ _ => rfl⟩
    have typed : (attrOf type = 0x20 ∧ type = .norm) ∨ (attrOf type = 0x10 ∧ type = .dir) := by
      cases type <;> decide
    simp only [lookupLoop, stored.head, live.1, live.2, if_false, group, same, attr, typed,
      and_self, if_true, bytes]
  · have notLabel : ¬(0x0f = 0x08) := by decide
    have readable : ∀ k, 0 < k →
        k ≤ entries s type dir (getDirentyNo s.len) inodeNo 0 0 &&& 0x3f →
          (readDr (begin + k)).isSome := fun k _ le => by
      rw [stored k (by omega)]
      rfl
    simp only [readdirLoop, stored.head, live.1, live.2, isLong, notLabel, or_self, if_false,
      if_true, readLongOrFail_eq readable, readAll, Option.map_some, count, len, direntOf, bytes,
      typeOf_attrOf attr]

end

/-- The slots of a directory that holds nothing but one file. -/
def loneFile (s : Qstr) (inodeNo i : ℕ) : Option Slot :=
  some (if i < getDirentyNo s.len then entries s .norm 0 (getDirentyNo s.len) inodeNo i else 0)

theorem loneFile_stored (s : Qstr) (inodeNo : ℕ) :
    Stored (loneFile s inodeNo) 0 s .norm 0 inodeNo := fun k lt => by
  rw [Nat.zero_add, loneFile, if_pos lt]

/-- A name of thirteen bytes, of which the second is a dot. -/
def dottedName : Qstr := ⟨fun i => if i = 1 then 0x2e else 0x41, 13⟩

/-- The name fills one entry and needs another one for its end. -/
theorem longName_roundTrip_thirteen : ∃ last,
    lookupLoop (loneFile dottedName 5) dottedName .norm 1 0 0 =
      some ⟨0, 3, dottedName.toList, last⟩ := by
  have noZero : ∀ i < 13, dottedName.name i ≠ 0 := by decide
  rcases longName_roundTrip (by decide) (by decide) noZero ⟨1, by decide, rfl⟩
    (loneFile_stored dottedName 5) 0 0 with ⟨_, last, _, _, _, _, found, _⟩
  exact ⟨last, found⟩

/-! ## Short names and names without a dot -/

section

variable {s : Qstr} {readDr : ℕ → Option Slot} {begin inodeNo : ℕ} {type : LastType} {dir : Slot}

/-- `fat32_lookup_direntry` finds the file that begins in the slot it has come to. -/
def FindsAt (readDr : ℕ → Option Slot) (begin nameLen : ℕ) (s : Qstr) (type : LastType) : Prop :=
  ∀ fuel, ∃ file, lookupLoop readDr s type (fuel + 1) begin nameLen = some file ∧
    file.begin = begin

/--
A file of which the entries are stored is found under its name exactly when its first byte does
not mark the entries as deleted and its name can be stored: a short name fits the fields of the
8.3 entry, and a long one without a dot has by chance the length left in the buffer for the name.
-/
theorem findsAt_iff (short : s.len ≤ 254) (noZero : ∀ i < s.len, s.name i ≠ 0)
    (stored : Stored readDr begin s type dir inodeNo) (nameLen : ℕ) :
    FindsAt readDr begin nameLen s type ↔ HeadLive s ∧ Storable s nameLen := by
  have positive := getDirentyNo_pos s.len
  have typed : (attrOf type = 0x20 ∧ type = .norm) ∨ (attrOf type = 0x10 ∧ type = .dir) := by
    cases type <;> decide
  rcases groupAt_entries type dir inodeNo noZero short stored nameLen with
    ⟨q, dir', group, same⟩
  have head := entries_head type dir inodeNo noZero short
  constructor
  · intro finds
    rcases finds 0 with ⟨file, found, atPlace⟩
    simp only [lookupLoop, stored.head] at found
    have live : HeadLive s := by
      refine head.mp ⟨fun ended => ?_, fun deleted => ?_⟩
      · simp [ended] at found
      · simp [deleted] at found
    refine ⟨live, same.mp ?_⟩
    rcases head.mpr live with ⟨notEnd, notDeleted⟩
    simp only [notEnd, notDeleted, if_false, group, fillShort_attr, typed, and_true] at found
    by_contra other
    simp [other] at found
  · rintro ⟨live, storable⟩ fuel
    rcases head.mpr live with ⟨notEnd, notDeleted⟩
    have found : lookupLoop readDr s type (fuel + 1) begin nameLen = some ⟨begin,
        getDirentyNo s.len, q.toList, fillShort s type dir' (getDirentyNo s.len) inodeNo⟩ := by
      simp only [lookupLoop, stored.head, notEnd, notDeleted, if_false, group,
        same.mpr storable, fillShort_attr, typed, and_self, if_true]
    exact ⟨_, found, rfl⟩

end

/-- The name `A` is found. -/
theorem findsAt_iff_nameA : FindsAt (loneFile nameA 5) 0 0 nameA .norm := by
  refine (findsAt_iff (by decide) (fun _ _ => (by decide : 0x41 ≠ 0)) (loneFile_stored nameA 5)
    0).mpr ⟨fun _ _ => (by decide : 0x41 ≠ 0xe5), ?_⟩
  exact (if_pos (by decide)).mpr ⟨by decide, fun _ _ => (by decide : 0x41 ≠ 0x20), by decide,
    fun _ _ => (by decide : 0x41 ≠ 0x20), by decide⟩

/-- A name of eleven bytes without a dot. -/
def elevenAs : Qstr := ⟨fun _ => 0x41, 11⟩

/-- Of a name of eleven bytes without a dot the last three are lost. -/
theorem not_findsAt_eleven : ¬∀ (s : Qstr) (readDr : ℕ → Option Slot) (begin inodeNo nameLen : ℕ)
    (type : LastType) (dir : Slot),
    (1 ≤ s.len ∧ s.len ≤ 11) ∨ (12 ≤ s.len ∧ s.len ≤ 246 ∧ ∀ i < s.len, s.name i ≠ 0x2e) →
      (∀ i < s.len, s.name i ≠ 0 ∧ s.name i ≠ 0x2f) →
        Stored readDr begin s type dir inodeNo → FindsAt readDr begin nameLen s type := by
  intro always
  rcases always elevenAs (loneFile elevenAs 5) 0 5 0 .norm 0 (Or.inl ⟨by decide, by decide⟩)
    (fun _ _ => ⟨(by decide : 0x41 ≠ 0), (by decide : 0x41 ≠ 0x2f)⟩)
    (loneFile_stored elevenAs 5) 0 with ⟨file, found, _⟩
  have lost : (lookupLoop (loneFile elevenAs 5) elevenAs .norm 1 0 0).isNone := by decide +kernel
  simp [found] at lost

end Ninix.Fat32
