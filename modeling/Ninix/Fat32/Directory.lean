import Ninix.Fat32.Growth
import Ninix.Fat32.Listing

/-!
# Adding a file to a directory

`fat32_apply_direntry` looks for a run of deleted slots of the length it needs or for the slot
that ends the directory, and writes the entries of the new file there. It writes no new end
behind them, and a cluster it adds to the directory keeps its old contents.
-/

namespace Ninix.Fat32

open Vfs

/-- A directory: the volume, the inode, and the slots in the page of each cluster. `read_dr` and
`write_dr` number `DIRENTRY_LEN` slots in a page, as a page of 1024 bytes has. -/
structure Dir where
  vol : Volume
  inode : Inode
  store : ℕ → ℕ → Slot

namespace Dir

/-- How many slots `read_dr` can read. -/
def slots (dir : Dir) : ℕ := dir.inode.iBlocks * 32

/-- `read_dr` -/
def readDr (dir : Dir) (i : ℕ) : Option Slot :=
  (dir.inode.aPage[i / 32]?).map fun ppn => dir.store ppn (i % 32)

/-- The copy of an entry into its page, which is written back. -/
def writeDr (dir : Dir) (i : ℕ) (dr : Slot) : Option Dir :=
  (dir.inode.aPage[i / 32]?).map fun ppn =>
    { dir with store := fun clst k => if clst = ppn ∧ k = i % 32 then dr else dir.store clst k }

end Dir

/-- The search for a place: `len` deleted slots stand in front of slot `i`. -/
def findPlace (readDr : ℕ → Option Slot) (entriesNeeded : ℕ) : ℕ → ℕ → ℕ → Option (ℕ × Slot)
  | 0, _, _ => none
  | fuel + 1, i, len =>
      match readDr i with
      | none => none
      | some dr =>
          if dr 0 = 0 then some (i, dr)
          else if dr 0 = 0xe5 then
            if len + 1 = entriesNeeded then some (i - len, dr)
            else findPlace readDr entriesNeeded fuel (i + 1) (len + 1)
          else findPlace readDr entriesNeeded fuel (i + 1) 0

/-- A page is added when slot `i` lies behind the last one; `false` is a page that could not be
added. A directory whose map has no larger array is left out. -/
def extend (fuel : ℕ) (dir : Dir) (i : ℕ) : Option (Bool × Dir) :=
  if i / 32 = dir.inode.iBlocks then
    (createPage fuel dir.vol dir.inode 1).join.map fun (cnt, vol, inode) =>
      (cnt = 1, { dir with vol, inode })
  else some (true, dir)

/-- The loop that registers the new file, with the number of entries to go. -/
def registerLoop (fuel : ℕ) (s : Qstr) (type : LastType) (entriesNeeded inodeNo : ℕ) :
    ℕ → ℕ → Slot → Dir → Option (Bool × Dir)
  | 0, _, _, dir => some (true, dir)
  | left + 1, i, dr, dir =>
      match extend fuel dir i with
      | none => none
      | some (false, dir) => some (false, dir)
      | some (true, dir) =>
          let dr := fillDirentry s type dr left entriesNeeded inodeNo
          match dir.writeDr i dr with
          | none => none
          | some dir => registerLoop fuel s type entriesNeeded inodeNo left (i + 1) dr dir

/-- How `fat32_apply_direntry` ends: with the number of the first cluster, or with -1 because
the slots of the directory or the clusters of the volume ran out; a name of more than 254 bytes
overruns the buffer it is prepared in. -/
inductive Outcome
  | registered (inodeNo : ℕ)
  | noSlot
  | noCluster
  | overrun
  deriving DecidableEq

/-- `fat32_apply_direntry` with pages that can be read and written. `none` is a scan for a free
cluster that runs out of fuel. -/
def applyDirentry (fuel : ℕ) (s : Qstr) (type : LastType) (dir : Dir) : Option (Outcome × Dir) :=
  let entriesNeeded := getDirentyNo s.len
  match findPlace dir.readDr entriesNeeded (dir.slots + 1) 0 0 with
  | none => some (.noSlot, dir)
  | some (begin, dr) =>
      match dir.vol.applyFat fuel with
      | none => none
      | some (inodeNo, vol) =>
          if inodeNo = minusOne32 then some (.noCluster, { dir with vol })
          else if 254 < s.len then some (.overrun, { dir with vol })
          else
            (registerLoop fuel s type entriesNeeded inodeNo entriesNeeded begin dr
              { dir with vol }).map fun (registered, dir) =>
                (if registered then .registered inodeNo else .noCluster, dir)

/-! ## The place of a new file -/

section Place

variable {readDr : ℕ → Option Slot} {needed : ℕ}

/-- A slot that does not end the directory. -/
def InUse (readDr : ℕ → Option Slot) (i : ℕ) : Prop := ∃ dr, readDr i = some dr ∧ dr 0 ≠ 0

/-- A deleted slot. -/
def Deleted (readDr : ℕ → Option Slot) (i : ℕ) : Prop := ∃ dr, readDr i = some dr ∧ dr 0 = 0xe5

/-- A run of deleted slots that is long enough. -/
def IsRun (readDr : ℕ → Option Slot) (needed begin : ℕ) : Prop :=
  ∀ k < needed, Deleted readDr (begin + k)

/-- The first place for the entries of a new file in front of the end or at the end. -/
structure IsPlace (readDr : ℕ → Option Slot) (needed begin : ℕ) : Prop where
  inUse : ∀ i < begin, InUse readDr i
  noRun : ∀ earlier < begin, ¬IsRun readDr needed earlier
  room : (∃ dr, readDr begin = some dr ∧ dr 0 = 0) ∨ IsRun readDr needed begin

/-- What the search knows at slot `i`. -/
structure Searching (readDr : ℕ → Option Slot) (needed i len : ℕ) : Prop where
  inUse : ∀ j < i, InUse readDr j
  noRun : ∀ earlier, earlier + needed ≤ i → ¬IsRun readDr needed earlier
  le : len ≤ i
  short : len < needed
  deleted : ∀ j < i, i ≤ j + len → Deleted readDr j
  maximal : ∀ j, j + len + 1 = i → ¬Deleted readDr j

theorem InUse.not_end {i : ℕ} (inUse : InUse readDr i) {dr : Slot} (read : readDr i = some dr) :
    dr 0 ≠ 0 := by
  rcases inUse with ⟨dr', read', ne⟩
  rw [read] at read'
  cases read'
  exact ne

theorem Deleted.byte {i : ℕ} (deleted : Deleted readDr i) {dr : Slot}
    (read : readDr i = some dr) : dr 0 = 0xe5 := by
  rcases deleted with ⟨dr', read', eq⟩
  rw [read] at read'
  cases read'
  exact eq

theorem Deleted.inUse {i : ℕ} (deleted : Deleted readDr i) : InUse readDr i := by
  rcases deleted with ⟨dr, read, eq⟩
  exact ⟨dr, read, by rw [eq]; decide⟩

/-- A run among slots in front of which none is found contains the slot that is looked at. -/
theorem IsRun.deleted {earlier i : ℕ} (run : IsRun readDr needed earlier) (le : earlier ≤ i)
    (lt : i < earlier + needed) : Deleted readDr i := by
  have here := run (i - earlier) (by omega)
  rwa [Nat.add_sub_cancel' le] at here

namespace Searching

variable {i len : ℕ} (searching : Searching readDr needed i len)

include searching

/-- No run begins in front of the deleted slots just seen. -/
theorem not_run {earlier : ℕ} (lt : earlier + len < i) (le : i < earlier + needed) :
    ¬IsRun readDr needed earlier := fun run =>
  searching.maximal (i - len - 1) (by omega) (run.deleted (by omega) (by omega))

theorem no_place (read : readDr i = none) {begin : ℕ} : ¬IsPlace readDr needed begin := by
  intro place
  have notDeleted : ¬Deleted readDr i := by
    rintro ⟨dr, read', _⟩
    simp [read] at read'
  have positive := searching.short
  rcases lt_trichotomy begin i with before | rfl | behind
  · rcases place.room with ⟨dr, read', ended⟩ | run
    · exact (searching.inUse begin before).not_end read' ended
    · by_cases inside : begin + needed ≤ i
      · exact searching.noRun begin inside run
      · exact notDeleted (run.deleted before.le (by omega))
  · rcases place.room with ⟨dr, read', _⟩ | run
    · simp [read] at read'
    · exact notDeleted (run.deleted le_rfl (by omega))
  · rcases place.inUse i behind with ⟨dr, read', _⟩
    simp [read] at read'

theorem place_at_end {dr : Slot} (read : readDr i = some dr) (ended : dr 0 = 0) :
    IsPlace readDr needed i where
  inUse := searching.inUse
  noRun earlier lt run := by
    by_cases inside : earlier + needed ≤ i
    · exact searching.noRun earlier inside run
    · have deleted := (run.deleted lt.le (by omega)).byte read
      simp [ended] at deleted
  room := Or.inl ⟨dr, read, ended⟩

theorem place_at_run (here : Deleted readDr i) (enough : len + 1 = needed) :
    IsPlace readDr needed (i - len) where
  inUse j lt := searching.inUse j (by omega)
  noRun earlier lt run := by
    by_cases inside : earlier + needed ≤ i
    · exact searching.noRun earlier inside run
    · exact searching.not_run (by omega) (by omega) run
  room := Or.inr fun k lt => by
    have le := searching.le
    by_cases last : k = len
    · rw [last, Nat.sub_add_cancel le]
      exact here
    · exact searching.deleted _ (by omega) (by omega)

theorem next_deleted (here : Deleted readDr i) (notEnough : len + 1 ≠ needed) :
    Searching readDr needed (i + 1) (len + 1) where
  inUse j lt := by
    rcases Nat.lt_succ_iff_lt_or_eq.mp lt with before | rfl
    · exact searching.inUse j before
    · exact here.inUse
  noRun earlier le run := by
    have short := searching.short
    by_cases inside : earlier + needed ≤ i
    · exact searching.noRun earlier inside run
    · exact searching.not_run (by omega) (by omega) run
  le := Nat.succ_le_succ searching.le
  short := by
    have short := searching.short
    omega
  deleted j lt le := by
    rcases Nat.lt_succ_iff_lt_or_eq.mp lt with before | rfl
    · exact searching.deleted j before (by omega)
    · exact here
  maximal j eq := searching.maximal j (by omega)

theorem next_live (here : InUse readDr i) (notDeleted : ¬Deleted readDr i) :
    Searching readDr needed (i + 1) 0 where
  inUse j lt := by
    rcases Nat.lt_succ_iff_lt_or_eq.mp lt with before | rfl
    · exact searching.inUse j before
    · exact here
  noRun earlier le run := by
    have short := searching.short
    by_cases inside : earlier + needed ≤ i
    · exact searching.noRun earlier inside run
    · exact notDeleted (run.deleted (by omega) (by omega))
  le := Nat.zero_le _
  short := by
    have short := searching.short
    omega
  deleted j lt le := absurd le (by omega)
  maximal j eq := by
    obtain rfl : j = i := by omega
    exact notDeleted

end Searching

/-- The search ends at the first place, or there is none. -/
theorem findPlace_spec {total : ℕ} (ends : EndsAt readDr total) {fuel i len : ℕ}
    (searching : Searching readDr needed i len) (enough : total < i + fuel) :
    match findPlace readDr needed fuel i len with
    | none => ∀ begin, ¬IsPlace readDr needed begin
    | some (begin, _) => IsPlace readDr needed begin := by
  induction fuel generalizing i len with
  | zero =>
      rcases searching.inUse total (by omega) with ⟨dr, read, _⟩
      simp [ends total le_rfl] at read
  | succ fuel ih =>
      simp only [findPlace]
      cases read : readDr i with
      | none => exact fun begin => searching.no_place read
      | some dr =>
          simp only
          by_cases ended : dr 0 = 0
          · simp only [ended, if_true]
            exact searching.place_at_end read ended
          by_cases deleted : dr 0 = 0xe5
          · have here : Deleted readDr i := ⟨dr, read, deleted⟩
            simp only [deleted, if_true]
            by_cases found : len + 1 = needed
            · simp only [found, if_true]
              exact searching.place_at_run here found
            · simp only [found, if_false]
              exact ih (searching.next_deleted here found) (by omega)
          · simp only [ended, deleted, if_false]
            exact ih (searching.next_live ⟨dr, read, ended⟩ fun other => deleted (other.byte read))
              (by omega)

/-- The search from the first slot on. -/
theorem searching_start (positive : 0 < needed) : Searching readDr needed 0 0 where
  inUse j lt := absurd lt (by omega)
  noRun earlier le := absurd le (by omega)
  le := le_rfl
  short := positive
  deleted j lt := absurd lt (by omega)
  maximal j eq := absurd eq (by omega)

theorem IsPlace.not_lt {begin other : ℕ} (place : IsPlace readDr needed begin)
    (place' : IsPlace readDr needed other) : ¬begin < other := fun lt => by
  rcases place.room with ⟨dr, read, ended⟩ | run
  · exact (place'.inUse begin lt).not_end read ended
  · exact place'.noRun begin lt run

/-- There is at most one first place. -/
theorem IsPlace.unique {begin other : ℕ} (place : IsPlace readDr needed begin)
    (place' : IsPlace readDr needed other) : begin = other :=
  le_antisymm (Nat.le_of_not_lt (place'.not_lt place)) (Nat.le_of_not_lt (place.not_lt place'))

end Place

/-! ## Registering the entries -/

namespace Dir

/-- The state in which entries can be registered: the map is the chain on the card. -/
structure Sound (dir : Dir) : Prop where
  coherent : dir.vol.Coherent
  agrees : dir.inode.Agrees dir.vol

/-- The directory with the pages that the slots below a bound need. -/
def prepare (fuel : ℕ) (dir : Dir) (bound : ℕ) : Option (Bool × Dir) :=
  if bound ≤ dir.slots then some (true, dir) else extend fuel dir dir.slots

variable {dir : Dir}

theorem readDr_isSome {i : ℕ} : (dir.readDr i).isSome ↔ i < dir.slots := by
  rw [readDr, Option.isSome_map, slots, Inode.iBlocks, ← Nat.div_lt_iff_lt_mul (by decide)]
  simp

theorem endsAt_slots (dir : Dir) : EndsAt dir.readDr dir.slots := fun i le => by
  have none : ¬(dir.readDr i).isSome := by
    rw [readDr_isSome]
    omega
  simpa using none

/-- More pages behind the ones there are leave the slots of these as they are. -/
theorem readDr_of_prefix {other : Dir} (isPrefix : dir.inode.aPage <+: other.inode.aPage)
    (store : other.store = dir.store) {i : ℕ} (lt : i < dir.slots) :
    other.readDr i = dir.readDr i := by
  rcases isPrefix with ⟨rest, eq⟩
  have inside : i / 32 < dir.inode.aPage.length := by
    unfold slots Inode.iBlocks at lt
    omega
  rw [readDr, readDr, ← eq, store, List.getElem?_append_left inside]

/-- Writing a slot changes that slot only. -/
theorem writeDr_spec (nodup : dir.inode.aPage.Nodup) {i : ℕ} {dr : Slot} {dir' : Dir}
    (wrote : dir.writeDr i dr = some dir') :
    dir'.vol = dir.vol ∧ dir'.inode = dir.inode ∧
      ∀ j, dir'.readDr j = if j = i then some dr else dir.readDr j := by
  rcases Option.map_eq_some_iff.mp wrote with ⟨ppn, page, rfl⟩
  refine ⟨rfl, rfl, fun j => ?_⟩
  simp only [readDr]
  by_cases here : j = i
  · simp [here, page]
  · rw [if_neg here]
    cases page' : dir.inode.aPage[j / 32]? with
    | none => rfl
    | some ppn' =>
        have other : ¬(ppn' = ppn ∧ j % 32 = i % 32) := by
          rintro ⟨rfl, offset⟩
          rcases List.getElem?_eq_some_iff.mp page with ⟨inside, eq⟩
          rcases List.getElem?_eq_some_iff.mp page' with ⟨inside', eq'⟩
          have := (nodup.getElem_inj_iff).mp (eq.trans eq'.symm)
          omega
        simp only [Option.map_some, if_neg other]

/-- What adding a page does, when one is needed. -/
theorem extend_spec {fuel : ℕ} (sound : dir.Sound) (handsOut : HandsOutFree fuel dir.vol)
    {added : Bool} {dir' : Dir} (extended : extend fuel dir dir.slots = some (added, dir')) :
    dir'.Sound ∧ dir'.store = dir.store ∧ dir.inode.aPage <+: dir'.inode.aPage ∧
      dir'.slots = dir.slots + if added then 32 else 0 := by
  rw [extend, slots, Nat.mul_div_cancel _ (by decide), if_pos rfl] at extended
  rcases Option.map_eq_some_iff.mp extended with ⟨⟨cnt, vol, inode⟩, created, eq⟩
  simp only [Prod.mk.injEq] at eq
  rcases eq with ⟨rfl, rfl⟩
  have atApply : AtEachApply (HandsOutFree fuel) fuel 1 dir.vol dir.inode.aPage :=
    ⟨handsOut, fun _ _ _ _ _ _ => trivial⟩
  rcases createPage_spec sound.coherent sound.agrees atApply
      (Option.join_eq_some_iff.mp created) with ⟨coherent, _, agrees, _, isPrefix, count, atMost, _⟩
  refine ⟨⟨coherent, agrees⟩, rfl, isPrefix, ?_⟩
  simp only [slots, count, decide_eq_true_eq]
  split <;> omega

/-- With slots enough no page is needed. -/
theorem prepare_of_le {fuel bound : ℕ} (fits : bound ≤ dir.slots) :
    dir.prepare fuel bound = some (true, dir) := if_pos fits

/-- What `prepare` does. -/
theorem prepare_spec {fuel bound : ℕ} (sound : dir.Sound)
    (handsOut : dir.slots < bound → HandsOutFree fuel dir.vol)
    (le : bound ≤ dir.slots + 32) {ready : Bool} {grown : Dir}
    (prepared : prepare fuel dir bound = some (ready, grown)) :
    grown.Sound ∧ grown.store = dir.store ∧ dir.inode.aPage <+: grown.inode.aPage ∧
      dir.slots ≤ grown.slots ∧ (ready → bound ≤ grown.slots) := by
  unfold prepare at prepared
  split at prepared
  · rename_i fits
    simp only [Option.some.injEq, Prod.mk.injEq] at prepared
    rcases prepared with ⟨rfl, rfl⟩
    exact ⟨sound, rfl, List.prefix_rfl, le_rfl, fun _ => fits⟩
  · rename_i tooFew
    rcases extend_spec sound (handsOut (by omega)) prepared with
      ⟨sound', store, isPrefix, count⟩
    refine ⟨sound', store, isPrefix, by omega, fun isReady => ?_⟩
    rw [if_pos isReady] at count
    omega

theorem Sound.nodup (sound : dir.Sound) : dir.inode.aPage.Nodup := sound.agrees.follows.nodup

/-- The pages that are added do not depend on what the slots hold. -/
theorem prepare_store {fuel bound : ℕ} {ready : Bool} {grown : Dir}
    (prepared : prepare fuel dir bound = some (ready, grown)) (store : ℕ → ℕ → Slot) :
    prepare fuel { dir with store } bound = some (ready, { grown with store }) := by
  unfold prepare at prepared ⊢
  split at prepared
  · rename_i fits
    simp only [Option.some.injEq, Prod.mk.injEq] at prepared
    rcases prepared with ⟨rfl, rfl⟩
    exact if_pos fits
  · rename_i tooFew
    refine (if_neg tooFew).trans ?_
    unfold extend at prepared ⊢
    split at prepared
    · rename_i needed
      rcases Option.map_eq_some_iff.mp prepared with ⟨⟨cnt, vol, inode⟩, created, eq⟩
      simp only [Prod.mk.injEq] at eq
      rcases eq with ⟨rfl, rfl⟩
      exact (if_pos needed).trans (by rw [created]; rfl)
    · rename_i notNeeded
      simp only [Option.some.injEq, Prod.mk.injEq] at prepared
      rcases prepared with ⟨rfl, rfl⟩
      exact if_neg notNeeded

/-- Writing a slot and adding pages behind it can be exchanged. -/
theorem writeDr_prefix {grown dir' : Dir} (isPrefix : dir.inode.aPage <+: grown.inode.aPage)
    (store : grown.store = dir.store) {i : ℕ} {dr : Slot} (wrote : dir.writeDr i dr = some dir') :
    grown.writeDr i dr = some { grown with store := dir'.store } := by
  rcases Option.map_eq_some_iff.mp wrote with ⟨ppn, page, rfl⟩
  rcases isPrefix with ⟨rest, eq⟩
  rcases List.getElem?_eq_some_iff.mp page with ⟨inside, _⟩
  rw [writeDr, ← eq, List.getElem?_append_left inside, page, store]
  rfl

/-- The page added for a slot is the one that the slots below a bound need. -/
theorem prepare_of_extend {fuel i bound : ℕ} (sound : dir.Sound)
    (handsOut : dir.slots < bound → HandsOutFree fuel dir.vol) (inside : i ≤ dir.slots)
    (lt : i < bound) (near : bound ≤ i + 32) {added : Bool} {mid : Dir}
    (extended : extend fuel dir i = some (added, mid)) :
    (added = false → dir.prepare fuel bound = some (false, mid)) ∧
      (added → mid.Sound ∧ (mid.slots < bound → HandsOutFree fuel mid.vol) ∧ i < mid.slots ∧
        ∀ ready grown, mid.prepare fuel bound = some (ready, grown) →
          dir.prepare fuel bound = some (ready, grown)) := by
  by_cases atEnd : i / 32 = dir.inode.iBlocks
  · obtain rfl : i = dir.slots := by
      unfold slots at inside ⊢
      omega
    have prepared : dir.prepare fuel bound = some (added, mid) :=
      (if_neg (by omega)).trans extended
    rcases extend_spec sound (handsOut lt) extended with ⟨sound', _, _, count⟩
    refine ⟨fun failed => failed ▸ prepared, fun succeeded => ?_⟩
    rw [if_pos succeeded] at count
    refine ⟨sound', fun tooFew => absurd tooFew (by omega), by omega,
      fun ready grown prepared' => ?_⟩
    rw [prepare_of_le (by omega)] at prepared'
    simp only [Option.some.injEq, Prod.mk.injEq] at prepared'
    rcases prepared' with ⟨rfl, rfl⟩
    rw [prepared, succeeded]
  · rw [extend, if_neg atEnd] at extended
    simp only [Option.some.injEq, Prod.mk.injEq] at extended
    rcases extended with ⟨rfl, rfl⟩
    refine ⟨fun failed => by simp at failed, fun _ => ⟨sound, handsOut, ?_, fun _ _ => id⟩⟩
    unfold slots at inside ⊢
    omega

end Dir

/-- A round of the loop. -/
theorem registerLoop_succ {fuel : ℕ} {s : Qstr} {type : LastType} {needed inodeNo left i : ℕ}
    {dr : Slot} {dir dir' : Dir} {ready : Bool}
    (ran : registerLoop fuel s type needed inodeNo (left + 1) i dr dir = some (ready, dir')) :
    ∃ added mid, extend fuel dir i = some (added, mid) ∧
      ((added = false ∧ ready = false ∧ dir' = mid) ∨
        (added ∧ ∃ wrote, mid.writeDr i (fillDirentry s type dr left needed inodeNo) = some wrote ∧
          registerLoop fuel s type needed inodeNo left (i + 1)
            (fillDirentry s type dr left needed inodeNo) wrote = some (ready, dir'))) := by
  simp only [registerLoop] at ran
  split at ran
  · simp at ran
  · rename_i mid extended
    simp only [Option.some.injEq, Prod.mk.injEq] at ran
    exact ⟨false, mid, extended, Or.inl ⟨rfl, ran.1.symm, ran.2.symm⟩⟩
  · rename_i mid extended
    split at ran
    · simp at ran
    · rename_i wrote writes
      exact ⟨true, mid, extended, Or.inr ⟨rfl, wrote, writes, ran⟩⟩

/-- What the loop has done when it ends: pages are added as for the last entry, and then the
entries are written. When no page could be added, the other slots are as they were all the
same. -/
theorem registerLoop_spec {fuel : ℕ} {s : Qstr} {type : LastType} {needed inodeNo begin : ℕ}
    {start : Slot} (small : needed ≤ 32) {left k : ℕ} {dr : Slot} {dir dir' : Dir} {ready : Bool}
    (count : k + left = needed) (inside : begin + k ≤ dir.slots) (sound : dir.Sound)
    (handsOut : dir.slots < begin + needed → HandsOutFree fuel dir.vol)
    (next : 0 < left → fillDirentry s type dr (left - 1) needed inodeNo =
      entries s type start needed inodeNo k)
    (ran : registerLoop fuel s type needed inodeNo left (begin + k) dr dir =
      some (ready, dir')) :
    ∃ grown, dir.prepare fuel (begin + needed) = some (ready, grown) ∧
      (∀ j, j < begin + k ∨ begin + needed ≤ j → dir'.readDr j = grown.readDr j) ∧
      (ready → ∀ j, begin + k ≤ j → j < begin + needed →
        dir'.readDr j = some (entries s type start needed inodeNo (j - begin))) := by
  induction left generalizing k dr dir with
  | zero =>
      simp only [registerLoop, Option.some.injEq, Prod.mk.injEq] at ran
      rcases ran with ⟨rfl, rfl⟩
      refine ⟨dir, Dir.prepare_of_le (by omega), fun j _ => rfl, fun _ j lower upper => ?_⟩
      omega
  | succ left ih =>
      have fill := next (Nat.succ_pos left)
      rw [Nat.add_sub_cancel] at fill
      rcases registerLoop_succ ran with ⟨added, mid, extended, ended⟩
      rcases Dir.prepare_of_extend sound handsOut inside (show begin + k < begin + needed by omega)
        (by omega) extended with ⟨failure, success⟩
      rcases ended with ⟨failed, rfl, rfl⟩ | ⟨succeeded, wrote, writes, rest⟩
      · exact ⟨dir', failure failed, fun _ _ => rfl, by simp⟩
      · rcases success succeeded with ⟨soundMid, handsOutMid, below, prepares⟩
        rw [fill] at writes rest
        rcases Dir.writeDr_spec soundMid.nodup writes with ⟨volEq, inodeEq, _⟩
        have soundWrote : wrote.Sound := ⟨volEq ▸ soundMid.coherent,
          by rw [inodeEq, volEq]; exact soundMid.agrees⟩
        have slotsEq : wrote.slots = mid.slots := by rw [Dir.slots, inodeEq, Dir.slots]
        rcases @ih (k + 1) _ _ (by omega) (by rw [slotsEq]; omega) soundWrote
            (by rw [slotsEq, volEq]; exact handsOutMid) (fun positive => by
              obtain ⟨left, rfl⟩ : ∃ n, left = n + 1 := ⟨left - 1, by omega⟩
              rw [entries]
              congr 1
              omega) rest with
          ⟨grown', prepared', others, written⟩
        have same : { wrote with store := mid.store } = mid := by
          cases wrote
          cases mid
          simp_all
        have prepared := Dir.prepare_store prepared' mid.store
        rw [same] at prepared
        rcases Dir.prepare_spec soundMid handsOutMid (by omega) prepared with
          ⟨soundGrown, _, isPrefix, _, _⟩
        rcases Dir.prepare_spec soundWrote (by rw [slotsEq, volEq]; exact handsOutMid)
          (by rw [slotsEq]; omega) prepared' with ⟨_, storeGrown', _, _, _⟩
        have grownWrites := Dir.writeDr_prefix isPrefix rfl writes
        rw [← storeGrown'] at grownWrites
        rcases Dir.writeDr_spec soundGrown.nodup grownWrites with ⟨_, _, reads⟩
        have readGrown : ∀ j, grown'.readDr j = if j = begin + k then
            some (entries s type start needed inodeNo k) else
              ({ grown' with store := mid.store } : Dir).readDr j := reads
        refine ⟨_, prepares _ _ prepared, fun j outside => ?_, fun isReady j lower upper => ?_⟩
        · rw [others j (by omega), readGrown, if_neg (by omega)]
        · by_cases here : j = begin + k
          · rw [others j (by omega), readGrown, if_pos here, here, Nat.add_sub_cancel_left]
          · exact written isReady j (by omega) upper

end Ninix.Fat32
