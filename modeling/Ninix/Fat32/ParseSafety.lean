import Ninix.Fat32.RoundTrip

/-!
# What the scans of a directory do to their buffer

`fat32_lookup_direntry` and `fat32_readdir` put the name of an entry together in a buffer of
`FILENAME_MX_LEN` bytes. The number of the parts of a long name comes from the disk and is not
compared with the size of the buffer, the length of the name is set only by a zero byte among the
parts, and `fat32_lookup_direntry` does not look at the result of `read_dr` for the later parts.
The loops are followed here with a log of what they do, in which these three things can be seen.
-/

namespace Ninix.Fat32

open Vfs

/-- What a scan does: a slot is read, `read_dr` reports the end of the directory, the bytes of
the buffer are cleared for an entry, a byte of it is stored, the length is set, and the length is
used. -/
inductive Event
  | read (i : ℕ)
  | ended (i : ℕ)
  | cleared
  | store (index : ℕ)
  | setLen
  | useLen
  deriving DecidableEq

/-- The bytes of a part of a long name are stored. -/
def charsLog (base : ℕ) (dr : Slot) : List Event :=
  (List.range 13).flatMap fun j =>
    .store (base + j) :: if dr (lgfileMapping.getD j 0) = 0 then [.setLen] else []

/-- The loop over the parts of a long name in `fat32_lookup_direntry`, which goes on with the
slot before when a slot cannot be read. -/
def readLongLog (readDr : ℕ → Option Slot) : ℕ → ℕ → Slot → List Event
  | 0, _, _ => []
  | n + 1, i, dr =>
      charsLog (n * 13) dr ++
        (if (readDr (i + 1)).isSome then .read (i + 1) else .ended (i + 1)) ::
          readLongLog readDr n (i + 1) ((readDr (i + 1)).getD dr)

/-- The loop over the parts of a long name in `fat32_readdir`. -/
def readLongOrFailLog (readDr : ℕ → Option Slot) : ℕ → ℕ → Slot → List Event
  | 0, _, _ => []
  | n + 1, i, dr =>
      charsLog (n * 13) dr ++
        match readDr (i + 1) with
        | none => [.ended (i + 1)]
        | some next => .read (i + 1) :: readLongOrFailLog readDr n (i + 1) next

/-- The bytes of a short name are stored: the name, a dot and the extension, or a zero byte in
place of the dot. -/
def shortLog (dr : Slot) : List Event :=
  let file := (field dr [0, 1, 2, 3, 4, 5, 6, 7]).length
  let ext := (field dr [8, 9, 10]).length
  (List.range (file + 1 + ext)).map .store ++ (if ext = 0 then [.store file] else []) ++ [.setLen]

/-- `fat32_lookup_direntry` with what it does in each round. -/
def lookupLog (readDr : ℕ → Option Slot) (s : Qstr) (type : LastType) :
    ℕ → ℕ → ℕ → Option FoundFile × List Event
  | 0, _, _ => (none, [])
  | fuel + 1, i, nameLen =>
      match readDr i with
      | none => (none, [.ended i])
      | some dr =>
          if dr 0 = 0 then (none, [.read i])
          else if dr 0 = 0xe5 then
            let (found, log) := lookupLog readDr s type fuel (i + 1) nameLen
            (found, .read i :: log)
          else
            let log := if dr 11 = 0x0f then readLongLog readDr (dr 0 &&& 0x3f) i dr
              else shortLog dr
            let (len, q, dr) := groupAt readDr i dr nameLen
            if genericCheckFilename s q ∧
                ((dr 11 = 0x20 ∧ type = .norm) ∨ (dr 11 = 0x10 ∧ type = .dir)) then
              (some ⟨i, len, q.toList, dr⟩, .read i :: .cleared :: (log ++ [.useLen]))
            else
              let (found, rest) := lookupLog readDr s type fuel (i + len) q.len
              (found, .read i :: .cleared :: (log ++ .useLen :: rest))

/-- `fat32_readdir` with what it does in each round. -/
def readdirLog (readDr : ℕ → Option Slot) :
    ℕ → ℕ → ℕ → (Bool × Option (List Dirent)) × List Event
  | 0, _, _ => ((false, some []), [])
  | fuel + 1, i, nameLen =>
      match readDr i with
      | none => ((true, some []), [.ended i])
      | some dr =>
          if dr 0 = 0 then ((false, some []), [.read i])
          else if dr 0 = 0xe5 ∨ dr 11 = 0x08 then
            let (result, log) := readdirLog readDr fuel (i + 1) nameLen
            (result, .read i :: log)
          else
            let log := if dr 11 = 0x0f then readLongOrFailLog readDr (dr 0 &&& 0x3f) i dr
              else shortLog dr
            let group := if dr 11 = 0x0f then
                let n := dr 0 &&& 0x3f
                (readLongOrFail readDr n i dr ⟨fun _ => 0, nameLen⟩).map fun (dr, q) =>
                  (n + 1, q, dr)
              else some (1, shortName dr, dr)
            match group with
            | none => ((true, none), .read i :: .cleared :: log)
            | some (len, q, dr) =>
                let ((err, dirents), rest) := readdirLog readDr fuel (i + len) q.len
                ((err, dirents.map (direntOf q dr :: ·)),
                  .read i :: .cleared :: (log ++ .useLen :: rest))

/-- The log is one of `fat32_lookup_direntry`. -/
theorem lookupLog_fst {readDr : ℕ → Option Slot} {s : Qstr} {type : LastType}
    {fuel i nameLen : ℕ} :
    (lookupLog readDr s type fuel i nameLen).1 = lookupLoop readDr s type fuel i nameLen := by
  induction fuel generalizing i nameLen with
  | zero => rfl
  | succ fuel ih =>
      rw [lookupLog, lookupLoop]
      cases readDr i with
      | none => rfl
      | some dr =>
          simp only
          split
          · rfl
          split
          · exact ih
          split
          · rfl
          · exact ih

/-- The log is one of `fat32_readdir`. -/
theorem readdirLog_fst {readDr : ℕ → Option Slot} {fuel i nameLen : ℕ} :
    (readdirLog readDr fuel i nameLen).1 = readdirLoop readDr fuel i nameLen := by
  induction fuel generalizing i nameLen with
  | zero => rfl
  | succ fuel ih =>
      rw [readdirLog, readdirLoop]
      cases readDr i with
      | none => rfl
      | some dr =>
          simp only
          split
          · rfl
          split
          · exact ih
          by_cases long : dr 11 = 0x0f
          · simp only [long, if_true]
            cases readLongOrFail readDr (dr 0 &&& 0x3f) i dr ⟨fun _ => 0, nameLen⟩ with
            | none => rfl
            | some group => simp only [Option.map_some, ← ih]
          · simp only [long, if_false, ← ih]

/-! ## Safe logs -/

/-- Bytes are stored only inside the buffer, the length is used only when it has been set since
the buffer was cleared, as it has at first when `known` is true, and nothing is done after the end
of the directory has been reported. -/
def SafeLog : Bool → List Event → Prop
  | _, [] => True
  | known, .read _ :: log => SafeLog known log
  | _, .ended _ :: log => log = []
  | _, .cleared :: log => SafeLog false log
  | known, .store index :: log => index < filenameMxLen ∧ SafeLog known log
  | _, .setLen :: log => SafeLog true log
  | known, .useLen :: log => known = true ∧ SafeLog known log

instance decideSafeLog : (known : Bool) → (log : List Event) → Decidable (SafeLog known log)
  | _, [] => inferInstanceAs (Decidable True)
  | known, .read _ :: log => decideSafeLog known log
  | _, .ended _ :: log => inferInstanceAs (Decidable (log = []))
  | _, .cleared :: log => decideSafeLog false log
  | known, .store index :: log =>
      have := decideSafeLog known log
      inferInstanceAs (Decidable (index < filenameMxLen ∧ SafeLog known log))
  | _, .setLen :: log => decideSafeLog true log
  | known, .useLen :: log =>
      have := decideSafeLog known log
      inferInstanceAs (Decidable (known = true ∧ SafeLog known log))

/-- A part of a long name with a zero byte. -/
def EndsName (dr : Slot) : Prop := ∃ j < 13, dr (lgfileMapping.getD j 0) = 0

instance (dr : Slot) : Decidable (EndsName dr) := inferInstanceAs (Decidable (∃ j < 13, _))

/-- One of the parts of a long name has a zero byte. -/
def endsLong (readDr : ℕ → Option Slot) : ℕ → ℕ → Slot → Bool
  | 0, _, _ => false
  | n + 1, i, dr => decide (EndsName dr) || endsLong readDr n (i + 1) ((readDr (i + 1)).getD dr)

section

variable {readDr : ℕ → Option Slot} {known : Bool} {rest : List Event} {i n base : ℕ} {dr : Slot}

/-- What is left of a safe log is safe. -/
theorem SafeLog.suffix {front : List Event} (safe : SafeLog known (front ++ rest)) :
    ∃ known', SafeLog known' rest := by
  induction front generalizing known with
  | nil => exact ⟨known, safe⟩
  | cons event front ih =>
      cases event with
      | read i => exact ih safe
      | ended i =>
          have nothing : front ++ rest = [] := safe
          rw [(List.append_eq_nil_iff.mp nothing).2]
          exact ⟨true, trivial⟩
      | cleared => exact ih safe
      | store index => exact ih safe.2
      | setLen => exact ih safe
      | useLen => exact ih safe.2

theorem safeLog_stores {indices : List ℕ} : SafeLog known (indices.map .store ++ rest) ↔
    (∀ index ∈ indices, index < filenameMxLen) ∧ SafeLog known rest := by
  induction indices with
  | nil => simp
  | cons index indices ih =>
      simp only [List.map_cons, List.cons_append, SafeLog, ih, List.forall_mem_cons, and_assoc]

/-- The bytes of a part are stored safely when the part lies in the buffer, and a zero byte among
them sets the length. -/
theorem safeLog_chars : SafeLog known (charsLog base dr ++ rest) ↔
    base + 13 ≤ filenameMxLen ∧ SafeLog (known || decide (EndsName dr)) rest := by
  have part (c : ℕ → ℕ) (positions : List ℕ) (known : Bool) :
      SafeLog known ((positions.flatMap fun j =>
        .store (base + j) :: if c j = 0 then [.setLen] else []) ++ rest) ↔
      (∀ j ∈ positions, base + j < filenameMxLen) ∧
        SafeLog (known || positions.any fun j => c j = 0) rest := by
    induction positions generalizing known with
    | nil => simp
    | cons j positions ih =>
        by_cases isZero : c j = 0
        · simp [isZero, SafeLog, ih, and_assoc]
        · simp [isZero, SafeLog, ih, and_assoc]
  have ends : ((List.range 13).any fun j => dr (lgfileMapping.getD j 0) = 0) =
      decide (EndsName dr) := by
    rw [Bool.eq_iff_iff]
    simp [EndsName]
  rw [charsLog, part fun j => dr (lgfileMapping.getD j 0), ends]
  refine and_congr_left fun _ => ⟨fun inside => ?_, fun inside j mem => ?_⟩
  · have atLast := inside 12 (by simp)
    omega
  · have lt := List.mem_range.mp mem
    omega

/-- The parts of a long name are read safely when they fit the buffer and can all be read. -/
theorem safeLog_readLong (goesOn : rest ≠ []) :
    SafeLog known (readLongLog readDr n i dr ++ rest) ↔
      (0 < n → n * 13 ≤ filenameMxLen) ∧
        (∀ k, 0 < k → k ≤ n → (readDr (i + k)).isSome) ∧
          SafeLog (known || endsLong readDr n i dr) rest := by
  induction n generalizing known i dr with
  | zero =>
      simp only [readLongLog, endsLong, List.nil_append, Bool.or_false]
      exact ⟨fun safe => ⟨fun lt => absurd lt (lt_irrefl _), fun k positive le => by omega, safe⟩,
        fun ⟨_, _, safe⟩ => safe⟩
  | succ n ih =>
      rw [readLongLog, List.append_assoc, safeLog_chars]
      cases read : readDr (i + 1) with
      | none =>
          simp only [Option.isSome_none, Bool.false_eq_true, if_false, List.cons_append, SafeLog,
            List.append_eq_nil_iff, goesOn, and_false, false_iff, not_and]
          intro _ readable
          have first := readable 1 (by omega) (by omega)
          simp [read] at first
      | some next =>
          simp only [Option.isSome_some, if_true, List.cons_append, SafeLog, ih, endsLong, read,
            Option.getD_some, Bool.or_assoc]
          constructor
          · rintro ⟨inside, _, readable, safe⟩
            refine ⟨fun _ => by omega, fun k positive le => ?_, safe⟩
            by_cases first : k = 1
            · simp [first, read]
            · have later := readable (k - 1) (by omega) (by omega)
              rwa [show i + 1 + (k - 1) = i + k by omega] at later
          · rintro ⟨inside, readable, safe⟩
            have fits := inside (Nat.succ_pos n)
            refine ⟨by omega, fun _ => by omega, fun k positive le => ?_, safe⟩
            rw [Nat.add_assoc, Nat.add_comm 1]
            exact readable (k + 1) (by omega) (by omega)

/-- `fat32_readdir` reads the parts as `fat32_lookup_direntry` does when all can be read. -/
theorem readLongOrFailLog_eq (readable : ∀ k, 0 < k → k ≤ n → (readDr (i + k)).isSome) :
    readLongOrFailLog readDr n i dr = readLongLog readDr n i dr := by
  induction n generalizing i dr with
  | zero => rfl
  | succ n ih =>
      rcases Option.isSome_iff_exists.mp (readable 1 (by omega) (by omega)) with ⟨next, read⟩
      simp only [readLongOrFailLog, readLongLog, read, Option.isSome_some, if_true,
        Option.getD_some]
      rw [ih fun k positive le => ?_]
      rw [Nat.add_assoc, Nat.add_comm 1]
      exact readable (k + 1) (by omega) (by omega)

theorem field_length_le (dr : Slot) (positions : List (Fin 32)) :
    (field dr positions).length ≤ positions.length := by
  have le := (List.takeWhile_prefix (p := (· ≠ 0x20)) (l := positions.map dr)).length_le
  rwa [List.length_map] at le

/-- A short name is stored safely and has its length set. -/
theorem safeLog_short : SafeLog known (shortLog dr ++ rest) ↔ SafeLog true rest := by
  have fileLe := field_length_le dr [0, 1, 2, 3, 4, 5, 6, 7]
  have extLe := field_length_le dr [8, 9, 10]
  simp only [List.length_cons, List.length_nil] at fileLe extLe
  rw [shortLog, List.append_assoc, List.append_assoc, safeLog_stores]
  refine (and_iff_right fun index mem => ?_).trans ?_
  · have lt := List.mem_range.mp mem
    unfold filenameMxLen
    omega
  · split
    · simp only [List.cons_append, List.nil_append, SafeLog]
      exact and_iff_right (show _ < 255 by omega)
    · rfl

/-! ## Entries that are read safely -/

/-- How many slots the scans go on by at an entry. -/
def width (dr : Slot) : ℕ :=
  if dr 0 ≠ 0xe5 ∧ dr 11 = 0x0f then (dr 0 &&& 0x3f) + 1 else 1

/-- A scan from slot 0 comes to the slot. -/
inductive Visited (readDr : ℕ → Option Slot) : ℕ → Prop
  | start : Visited readDr 0
  | next {i : ℕ} {dr : Slot} (visited : Visited readDr i) (read : readDr i = some dr)
      (notEnd : dr 0 ≠ 0) : Visited readDr (i + width dr)

/-- A long name of `n` parts from slot `i` on: the parts fit the buffer, they are followed by as
many slots, and one of them holds a zero byte. -/
structure WellFormed (readDr : ℕ → Option Slot) (i n : ℕ) : Prop where
  fits : n * 13 ≤ filenameMxLen
  readable : ∀ k ≤ n, (readDr (i + k)).isSome
  ended : ∃ k < n, ∃ dr, readDr (i + k) = some dr ∧ EndsName dr

/-- Every long name that a scan comes to is well formed. -/
def LongNamesWellFormed (readDr : ℕ → Option Slot) : Prop :=
  ∀ i dr, Visited readDr i → readDr i = some dr → dr 0 ≠ 0 → dr 0 ≠ 0xe5 → dr 11 = 0x0f →
    WellFormed readDr i (dr 0 &&& 0x3f)

/-- Whatever is looked up, both functions go through the slots safely. -/
def ParsesSafely (readDr : ℕ → Option Slot) : Prop :=
  ∀ fuel nameLen, (∀ s type, SafeLog false (lookupLog readDr s type fuel 0 nameLen).2) ∧
    SafeLog false (readdirLog readDr fuel 0 nameLen).2

theorem endsLong_iff (readable : ∀ k, 0 < k → k ≤ n → (readDr (i + k)).isSome)
    (read : readDr i = some dr) :
    endsLong readDr n i dr ↔ ∃ k < n, ∃ dr, readDr (i + k) = some dr ∧ EndsName dr := by
  induction n generalizing i dr with
  | zero => simp [endsLong]
  | succ n ih =>
      rcases Option.isSome_iff_exists.mp (readable 1 (by omega) (by omega)) with ⟨next, readNext⟩
      have tail := @ih (i + 1) next (fun k positive le => by
        rw [Nat.add_assoc, Nat.add_comm 1]
        exact readable (k + 1) (by omega) (by omega)) readNext
      rw [endsLong, readNext, Option.getD_some, Bool.or_eq_true, decide_eq_true_iff, tail]
      constructor
      · rintro (here | ⟨k, lt, later⟩)
        · exact ⟨0, by omega, dr, read, here⟩
        · rw [Nat.add_assoc, Nat.add_comm 1] at later
          exact ⟨k + 1, by omega, later⟩
      · rintro ⟨k, lt, later⟩
        cases k with
        | zero =>
            rcases later with ⟨dr', read', ends⟩
            rw [Nat.add_zero, read] at read'
            cases read'
            exact Or.inl ends
        | succ k =>
            rw [Nat.add_comm k, ← Nat.add_assoc] at later
            exact Or.inr ⟨k, by omega, later⟩

/-- The parts of a long name are read safely and their length is used afterwards exactly when the
name is well formed. -/
theorem safeLog_long (read : readDr i = some dr) :
    SafeLog false (readLongLog readDr n i dr ++ .useLen :: rest) ↔
      WellFormed readDr i n ∧ SafeLog true rest := by
  rw [safeLog_readLong (List.cons_ne_nil _ _), SafeLog, Bool.false_or]
  constructor
  · rintro ⟨inside, readable, ends, safe⟩
    have ended := (endsLong_iff readable read).mp ends
    have positive : 0 < n := by
      rcases ended with ⟨k, lt, _⟩
      omega
    refine ⟨⟨inside positive, fun k le => ?_, ended⟩, ends ▸ safe⟩
    cases k with
    | zero => simp [read]
    | succ k => exact readable (k + 1) (by omega) le
  · rintro ⟨wellFormed, safe⟩
    have readable : ∀ k, 0 < k → k ≤ n → (readDr (i + k)).isSome :=
      fun k _ le => wellFormed.readable k le
    have ends := (endsLong_iff readable read).mpr wellFormed.ended
    exact ⟨fun _ => wellFormed.fits, readable, ends, ends.symm ▸ safe⟩

/-- The entry in a slot is read safely and its length is used afterwards. -/
theorem safeLog_entry (read : readDr i = some dr) :
    SafeLog false ((if dr 11 = 0x0f then readLongLog readDr (dr 0 &&& 0x3f) i dr
      else shortLog dr) ++ .useLen :: rest) ↔
      (dr 11 = 0x0f → WellFormed readDr i (dr 0 &&& 0x3f)) ∧ SafeLog true rest := by
  by_cases isLong : dr 11 = 0x0f
  · rw [if_pos isLong, safeLog_long read]
    simp only [isLong, forall_const]
  · rw [if_neg isLong, safeLog_short]
    simp only [isLong, false_implies, true_and, SafeLog]

theorem groupAt_fst (notDeleted : dr 0 ≠ 0xe5) (nameLen : ℕ) :
    (groupAt readDr i dr nameLen).1 = width dr := by
  unfold groupAt width
  by_cases isLong : dr 11 = 0x0f
  · simp only [isLong, if_true, notDeleted, ne_eq, not_false_eq_true, and_self]
  · simp only [isLong, if_false, and_false]

/-! ## Both functions where long names are well formed -/

theorem Visited.next_deleted (visited : Visited readDr i) (read : readDr i = some dr)
    (deleted : dr 0 = 0xe5) : Visited readDr (i + 1) := by
  have next := visited.next read (by rw [deleted]; decide)
  rwa [width, if_neg (fun both => both.1 deleted)] at next

theorem lookupLog_safe (wellFormed : LongNamesWellFormed readDr) {s : Qstr} {type : LastType}
    {fuel nameLen : ℕ} (visited : Visited readDr i) (known : Bool) :
    SafeLog known (lookupLog readDr s type fuel i nameLen).2 := by
  induction fuel generalizing i nameLen known with
  | zero => trivial
  | succ fuel ih =>
      rw [lookupLog]
      cases read : readDr i with
      | none => exact rfl
      | some dr =>
          simp only
          split
          · trivial
          rename_i notEnd
          split
          · rename_i deleted
            exact ih (visited.next_deleted read deleted) known
          rename_i notDeleted
          have wellHere := wellFormed i dr visited read notEnd notDeleted
          have next := visited.next read notEnd
          rw [← groupAt_fst notDeleted nameLen] at next
          split
          · exact (safeLog_entry read).mpr ⟨wellHere, trivial⟩
          · exact (safeLog_entry read).mpr ⟨wellHere, ih next true⟩

theorem readdirLog_safe (wellFormed : LongNamesWellFormed readDr) {fuel nameLen : ℕ}
    (visited : Visited readDr i) (known : Bool) :
    SafeLog known (readdirLog readDr fuel i nameLen).2 := by
  induction fuel generalizing i nameLen known with
  | zero => trivial
  | succ fuel ih =>
      rw [readdirLog]
      cases read : readDr i with
      | none => exact rfl
      | some dr =>
          simp only
          split
          · trivial
          rename_i notEnd
          have next := visited.next read notEnd
          split
          · rename_i passed
            rcases passed with deleted | isLabel
            · exact ih (visited.next_deleted read deleted) known
            · rw [width, if_neg fun both => absurd (isLabel.symm.trans both.2) (by decide)] at next
              exact ih next known
          rename_i notPassed
          have notDeleted : dr 0 ≠ 0xe5 := fun deleted => notPassed (Or.inl deleted)
          by_cases isLong : dr 11 = 0x0f
          · have wellHere := wellFormed i dr visited read notEnd notDeleted isLong
            have readable : ∀ k, 0 < k → k ≤ dr 0 &&& 0x3f → (readDr (i + k)).isSome :=
              fun k _ le => wellHere.readable k le
            rw [width, if_pos ⟨notDeleted, isLong⟩] at next
            simp only [isLong, if_true, readLongOrFailLog_eq readable, readLongOrFail_eq readable,
              Option.map_some]
            exact (safeLog_long read).mpr ⟨wellHere, ih next true⟩
          · rw [width, if_neg fun both => isLong both.2] at next
            simp only [isLong, if_false]
            exact safeLog_short.mpr ⟨rfl, ih next true⟩

/-! ## A name that is nowhere found -/

theorem putChar_len (q : Qstr) (i c : ℕ) : (putChar q i c).len ≤ max q.len i := by
  unfold putChar
  split
  · exact le_max_right _ _
  · exact le_max_left _ _

theorem putChars_len (q : Qstr) (base : ℕ) (dr : Slot) :
    (putChars q base dr).len ≤ max q.len (base + 13) := by
  have part (count : ℕ) : ((List.range count).foldl
      (fun q j => putChar q (base + j) (dr (lgfileMapping.getD j 0))) q).len ≤
        max q.len (base + count) := by
    induction count with
    | zero => exact le_max_left _ _
    | succ count ih =>
        rw [List.range_succ, List.foldl_append, List.foldl_cons, List.foldl_nil]
        refine (putChar_len _ _ _).trans (max_le (ih.trans ?_) ?_)
        · exact max_le_max le_rfl (by omega)
        · exact le_max_of_le_right (by omega)
  exact part 13

theorem readLong_len (q : Qstr) : (readLong readDr n i dr q).2.len ≤ max q.len (n * 13) := by
  induction n generalizing i dr q with
  | zero => exact le_max_left _ _
  | succ n ih =>
      rw [readLong]
      refine (ih _).trans (max_le ((putChars_len q (n * 13) dr).trans ?_) ?_)
      · exact max_le_max le_rfl (by omega)
      · exact le_max_of_le_right (by omega)

/-- No name that is read is longer than all the parts that can be numbered. -/
theorem groupAt_len {nameLen : ℕ} (le : nameLen ≤ 819) :
    (groupAt readDr i dr nameLen).2.1.len ≤ 819 := by
  unfold groupAt
  split
  · have number : dr 0 &&& 0x3f ≤ 63 := Nat.and_le_right
    have len := @readLong_len readDr i (dr 0 &&& 0x3f) dr ⟨fun _ => 0, nameLen⟩
    exact len.trans (max_le le (by omega))
  · have fileLe := field_length_le dr [0, 1, 2, 3, 4, 5, 6, 7]
    have extLe := field_length_le dr [8, 9, 10]
    simp only [List.length_cons, List.length_nil] at fileLe extLe
    simp only [shortName, Qstr.ofList, shortChars]
    split
    · omega
    · rw [List.length_append, List.length_cons]
      omega

/-- A name longer than any that is read. -/
def unmatched : Qstr := ⟨fun _ => 0x41, 820⟩

/-- A lookup of the long name comes to every visited slot. -/
theorem Visited.lookupLog_eq (visited : Visited readDr i) :
    ∃ front rounds nameLen, nameLen ≤ 819 ∧ ∀ fuel,
      (lookupLog readDr unmatched .norm (rounds + fuel) 0 0).2 =
        front ++ (lookupLog readDr unmatched .norm fuel i nameLen).2 := by
  induction visited with
  | start => exact ⟨[], 0, 0, by decide, fun fuel => by rw [Nat.zero_add, List.nil_append]⟩
  | @next i dr _ read notEnd ih =>
      rcases ih with ⟨front, rounds, nameLen, le, log⟩
      by_cases deleted : dr 0 = 0xe5
      · have notZero : ¬(0xe5 = 0) := by decide
        refine ⟨front ++ [.read i], rounds + 1, nameLen, le, fun fuel => ?_⟩
        rw [Nat.add_assoc, Nat.add_comm 1, log, lookupLog, read, width,
          if_neg fun both => both.1 deleted]
        simp only [deleted, notZero, if_false, if_true, List.append_assoc, List.cons_append,
          List.nil_append]
      · have differs : ¬genericCheckFilename unmatched (groupAt readDr i dr nameLen).2.1 := by
          intro same
          have sameLen := (genericCheckFilename_iff.mp same).1
          have short := @groupAt_len readDr i dr nameLen le
          rw [← sameLen] at short
          exact absurd short (by decide)
        refine ⟨front ++ .read i :: .cleared :: ((if dr 11 = 0x0f then
          readLongLog readDr (dr 0 &&& 0x3f) i dr else shortLog dr) ++ [.useLen]), rounds + 1, _,
          @groupAt_len readDr i dr nameLen le, fun fuel => ?_⟩
        rw [Nat.add_assoc, Nat.add_comm 1, log, lookupLog, read,
          ← @groupAt_fst readDr i dr deleted nameLen]
        simp only [notEnd, if_false, deleted, differs, Bool.false_eq_true, false_and,
          List.append_assoc, List.cons_append, List.nil_append]

/-- The directories that are parsed safely are those in which every long name that a scan comes to
is well formed. -/
theorem parsesSafely_iff (readDr : ℕ → Option Slot) :
    ParsesSafely readDr ↔ LongNamesWellFormed readDr := by
  constructor
  · intro safe i dr visited read notEnd notDeleted isLong
    rcases visited.lookupLog_eq with ⟨front, rounds, nameLen, _, log⟩
    have whole := (safe (rounds + 1) 0).1 unmatched .norm
    rw [log] at whole
    rcases whole.suffix with ⟨known, here⟩
    rw [lookupLog, read] at here
    simp only [notEnd, if_false, notDeleted] at here
    rw [if_pos isLong] at here
    split at here
    · exact ((safeLog_long read).mp here).1
    · exact ((safeLog_long read).mp here).1
  · intro wellFormed fuel nameLen
    exact ⟨fun s type => lookupLog_safe wellFormed .start false,
      readdirLog_safe wellFormed .start false⟩

end

/-- A long name of thirteen bytes in one part, which has no room for a zero byte. -/
def fullPart : Slot :=
  ![0x41, 0x41, 0, 0x41, 0, 0x41, 0, 0x41, 0, 0x41, 0, 0x0f, 0, 0x2a, 0x41, 0, 0x41, 0, 0x41, 0,
    0x41, 0, 0x41, 0, 0x41, 0, 0, 0, 0x41, 0, 0x41, 0]

/-- A directory with the long name of thirteen bytes in front of an 8.3 entry. -/
def fullName (i : ℕ) : Option Slot :=
  if i = 0 then some fullPart else if i = 1 then some slotB else if i < 32 then some 0 else none

/-- The length of a name that fills its parts is used without having been set. -/
theorem not_parsesSafely_fullName : ¬∀ readDr, ParsesSafely readDr := by
  intro always
  have unset : ¬SafeLog false (readdirLog fullName 1 0 0).2 := by decide +kernel
  exact unset (always fullName 1 0).2

end Ninix.Fat32
