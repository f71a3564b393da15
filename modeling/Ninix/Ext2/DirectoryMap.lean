import Ninix.Ext2.DirectoryScan
import Ninix.Library.Catalog
import Ninix.Library.Simulation

/-!
# Directories as maps

For what its users see, an EXT2 directory is a map: from a name, where the case of letters does not
matter, and a type to the number of an inode. `ext2_lookup_direntry` reads the map,
`ext2_apply_direntry` adds a pair to it and `ext2_delete_direntry` takes one away, however the
records lie in the pages. `ext2_readdir` lists the map, unless it is empty.
-/

namespace Ninix.Ext2

open ByteBuffer Tiling RecordScan Vfs Catalog Simulation

/-- A name without the case of its letters, and the type of a record. -/
abbrev DirKey := List ℕ × ℕ

def foldName (name : List ℕ) : List ℕ := name.map upper

def Entry.key (e : Entry) : DirKey := (foldName e.name, e.type)

/-- What is looked for. -/
def keyOf (name : Qstr) (type : LastType) : DirKey := (foldName name.toList, dirType type)

/-- The map that a directory stands for. -/
def inoAt (size : ℕ) (pages : List Bytes) : DirKey → Option ℕ :=
  valueAt Entry.key Entry.ino (entries size pages)

/-! ## Looking up -/

section

variable {size : ℕ} {pages : List Bytes} {page : Bytes} {name : Qstr} {type : LastType} {j : ℕ}

theorem genericCheckFilename_fold {first second : Qstr} :
    genericCheckFilename first second ↔ foldName first.toList = foldName second.toList := by
  rw [genericCheckFilename_iff]
  constructor
  · rintro ⟨len, same⟩
    simp only [foldName, Qstr.toList, List.map_map, ← len]
    exact List.map_congr_left fun i mem => same i (List.mem_range.mp mem)
  · intro same
    have len := congrArg List.length same
    simp only [foldName, Qstr.toList, List.map_map, List.length_map, List.length_range] at len
    refine ⟨len, fun i lt => ?_⟩
    simp only [foldName, Qstr.toList, List.map_map, ← len] at same
    exact List.map_inj_left.mp same i (List.mem_range.mpr lt)

/-- The record at an offset is one that is looked for. -/
def Matches (page : Bytes) (name : Qstr) (type : LastType) (j : ℕ) : Prop :=
  ino page j ≠ 0 ∧ (entryAt page j).key = keyOf name type

theorem matches_iff : Matches page name type j ↔
    ino page j ≠ 0 ∧ genericCheckFilename name (filenameAt page j) ∧
      fileType page j = dirType type := by
  rw [Matches, genericCheckFilename_fold, Entry.key, keyOf, Prod.mk.injEq]
  have isName : (entryAt page j).name = (filenameAt page j).toList := rfl
  rw [isName, eq_comm (a := foldName name.toList)]
  rfl

theorem lookupVisit_matches (isMatch : Matches page name type j) (block : ℕ) (carried : Unit) :
    (lookupVisit name type block page j carried).2 = .inr (some (block, j)) := by
  rw [lookupVisit, if_pos (matches_iff.mp isMatch)]

theorem lookupVisit_passes (noMatch : ¬Matches page name type j) (block : ℕ) (carried : Unit) :
    (lookupVisit name type block page j carried).2 = .inl () := by
  rw [lookupVisit, if_neg (mt matches_iff.mpr noMatch)]

/-- What the scan of a page finds. -/
theorem visitAll_lookup (name : Qstr) (type : LastType) (block : ℕ) (page : Bytes)
    (positions : List ℕ) :
    visitAll (lookupVisit name type block page) positions () = .inl () ∧
        (∀ j ∈ positions, ¬Matches page name type j) ∨
      ∃ j ∈ positions, Matches page name type j ∧
        visitAll (lookupVisit name type block page) positions () = .inr (some (block, j)) := by
  induction positions with
  | nil => exact .inl ⟨rfl, fun j mem => absurd mem List.not_mem_nil⟩
  | cons j rest ih =>
      by_cases isMatch : Matches page name type j
      · refine .inr ⟨j, List.mem_cons_self, isMatch, ?_⟩
        rw [visitAll, lookupVisit_matches isMatch, Sum.elim_inr]
      · rw [visitAll, lookupVisit_passes isMatch, Sum.elim_inl]
        rcases ih with ⟨goesOn, none⟩ | ⟨j', mem, isMatch', found⟩
        · refine .inl ⟨goesOn, fun j' mem => ?_⟩
          rcases List.mem_cons.mp mem with rfl | mem
          · exact isMatch
          · exact none j' mem
        · exact .inr ⟨j', List.mem_cons_of_mem _ mem, isMatch', found⟩

/-- What the scans of the pages find. -/
theorem visitBuffers_lookup (size : ℕ) (name : Qstr) (type : LastType) (n : ℕ)
    (pages : List Bytes) :
    let outcome := fun n page carried =>
      visitAll (lookupVisit name type n page) (records size page) carried
    visitBuffers outcome n pages () = .inl () ∧
        (∀ page ∈ pages, ∀ j ∈ records size page, ¬Matches page name type j) ∨
      ∃ block page j, pages[block]? = some page ∧ j ∈ records size page ∧
        Matches page name type j ∧
        visitBuffers outcome n pages () = .inr (some (n + block, j)) := by
  intro outcome
  induction pages generalizing n with
  | nil => exact .inl ⟨rfl, fun page mem => absurd mem List.not_mem_nil⟩
  | cons page rest ih =>
      rcases visitAll_lookup name type n page (records size page) with
        ⟨goesOn, none⟩ | ⟨j, mem, isMatch, found⟩
      · have onwards : visitBuffers outcome n (page :: rest) () =
            visitBuffers outcome (n + 1) rest () := by
          rw [visitBuffers]
          exact congrArg _ goesOn
        rw [onwards]
        rcases ih (n + 1) with ⟨ended, others⟩ | ⟨block, page', j, here, mem, isMatch, found⟩
        · refine .inl ⟨ended, fun page' isPage => ?_⟩
          rcases List.mem_cons.mp isPage with rfl | later
          · exact none
          · exact others page' later
        · refine .inr ⟨block + 1, page', j, here, mem, isMatch, ?_⟩
          rw [found, Nat.add_assoc, Nat.add_comm 1]
      · refine .inr ⟨0, page, j, rfl, mem, isMatch, ?_⟩
        rw [visitBuffers]
        exact congrArg (Sum.elim _ _) found

theorem mem_entries {e : Entry} : e ∈ entries size pages ↔
    ∃ page ∈ pages, ∃ j ∈ records size page, ino page j ≠ 0 ∧ entryAt page j = e := by
  simp only [entries, pageEntries, entriesOf, List.mem_flatMap, List.mem_map, List.mem_filter,
    decide_eq_true_eq, and_assoc]

/-- `ext2_lookup_direntry` finds a record with the name and the type if there is one. -/
theorem lookupDirentry_spec (formed : ∀ page ∈ pages, WellFormed size page) (name : Qstr)
    (type : LastType) :
    ∃ pieces found,
      lookupDirentry size name type (pages.map some) (size + 1) = some (pieces, found) ∧
        (found = none → ∀ e ∈ entries size pages, e.key ≠ keyOf name type) ∧
        ∀ block offset, found = some (block, offset) →
          ∃ page, pages[block]? = some page ∧ offset ∈ records size page ∧
            Matches page name type offset := by
  have each : ∀ n, ∀ page ∈ pages, ∀ carried, ∃ pieces,
      scan size (totalLen page) (lookupVisit name type n page) (size + 1) 0 carried =
        some (pieces, visitAll (lookupVisit name type n page) (records size page) carried) :=
    fun n page mem carried => scan_tiles (formed page mem).tiles (by omega) _ carried
  rcases scanAll_visits (fun _ => none) each 0 () with ⟨pieces, ran⟩
  rw [lookupDirentry, ran, Option.map_some]
  refine ⟨pieces, _, rfl, ?_⟩
  rcases visitBuffers_lookup size name type 0 pages with
    ⟨ended, others⟩ | ⟨block, page, j, here, mem, isMatch, found⟩
  · rw [ended]
    refine ⟨fun _ e isEntry => ?_, fun block offset absurd => by cases absurd⟩
    rcases mem_entries.mp isEntry with ⟨page, isPage, j, mem, live, rfl⟩
    exact fun same => others page isPage j mem ⟨live, same⟩
  · rw [found, Nat.zero_add]
    refine ⟨fun absurd => (by cases absurd), fun block' offset same => ?_⟩
    cases same
    exact ⟨page, here, mem, isMatch⟩

/-! ## Calls -/

/-- What is done to a directory, with the page that `ext2_create_page` adds to it, and with what is
in `dr` before. -/
inductive DirCall
  | lookup (name : Qstr) (type : LastType)
  | create (name : Qstr) (ino : ℕ) (type : LastType) (created dr : Bytes)
  | delete (name : Qstr) (type : LastType) (dr : Bytes)

inductive DirResult
  | found (ino : Option ℕ)
  | returned (err : ℕ)

/-- What `ext2_lookup`, `ext2_createinode` and `ext2_deleteinode` do to the directory. -/
def dirStep (size : ℕ) (pages : List Bytes) : DirCall → Option (List Bytes × DirResult)
  | .lookup name type =>
      (lookupDirentry size name type (pages.map some) (size + 1)).map fun looked =>
        (pages, .found (looked.2.bind fun place => pages[place.1]?.map (ino · place.2)))
  | .create name number type created dr =>
      (applyDirentry size pages (some created) dr name number type).map fun applied =>
        (applied.2, .returned applied.1)
  | .delete name type dr =>
      (lookupDirentry size name type (pages.map some) (size + 1)).bind fun looked =>
        match looked.2 with
        | none => some (pages, .returned Fs.errNoInode)
        | some (block, offset) =>
            (deleteDirentry size pages dr block offset).map fun deleted =>
              (deleted.2, .returned deleted.1)

/-- The same for a map. -/
def mapStep (m : DirKey → Option ℕ) : DirCall → (DirKey → Option ℕ) × DirResult
  | .lookup name type => (m, .found (m (keyOf name type)))
  | .create name number type _ _ =>
      (Function.update m (keyOf name type) (some number), .returned 0)
  | .delete name type _ =>
      if m (keyOf name type) = none then (m, .returned Fs.errNoInode)
      else (Function.update m (keyOf name type) none, .returned 0)

/-- Inodes are created for proper names only, and only if the lookup finds none. -/
def Creates (size : ℕ) (pages : List Bytes) : DirCall → Prop
  | .create name number type _ _ => Request name number ∧
      ∃ pieces, lookupDirentry size name type (pages.map some) (size + 1) = some (pieces, none)
  | _ => True

/-- The pages are well formed with names that are not empty, and stand for a map. -/
structure Stands (size : ℕ) (pages : List Bytes) (m : DirKey → Option ℕ) : Prop where
  formed : ∀ page ∈ pages, WellFormed size page
  named : ∀ e ∈ entries size pages, e.name ≠ []
  distinct : Distinct Entry.key (entries size pages)
  isMap : m = inoAt size pages

variable {m : DirKey → Option ℕ}

theorem mem_of_matches (here : page ∈ pages) (mem : j ∈ records size page)
    (isMatch : Matches page name type j) : entryAt page j ∈ entries size pages :=
  mem_entries.mpr ⟨page, here, j, mem, isMatch.1, rfl⟩

theorem Stands.lookup (stands : Stands size pages m) (name : Qstr) (type : LastType) :
    dirStep size pages (.lookup name type) = some (pages, (mapStep m (.lookup name type)).2) := by
  rcases lookupDirentry_spec stands.formed name type with ⟨pieces, found, looked, missing, place⟩
  rw [dirStep, looked, mapStep, stands.isMap, Option.map_some]
  cases found with
  | none =>
      rw [inoAt, valueAt_eq_none.mpr (missing rfl)]
      rfl
  | some place' =>
      rcases place _ _ rfl with ⟨page, here, mem, isMatch⟩
      have isEntry := mem_of_matches (List.mem_of_getElem? here) mem isMatch
      rw [inoAt, ← isMatch.2, valueAt_of_mem stands.distinct isEntry, Option.bind_some, here]
      rfl

/-- What the map lacks is not found. -/
theorem Stands.missing (stands : Stands size pages m) (absent : m (keyOf name type) = none) :
    ∃ pieces, lookupDirentry size name type (pages.map some) (size + 1) = some (pieces, none) := by
  rcases lookupDirentry_spec stands.formed name type with ⟨pieces, found, looked, _, place⟩
  cases found with
  | none => exact ⟨pieces, looked⟩
  | some place' =>
      rcases place _ _ rfl with ⟨page, here, mem, isMatch⟩
      have isEntry := mem_of_matches (List.mem_of_getElem? here) mem isMatch
      rw [stands.isMap, inoAt, ← isMatch.2, valueAt_of_mem stands.distinct isEntry] at absent
      cases absent

theorem newEntry_named {number : ℕ} (request : Request name number) (type : LastType) :
    (newEntry name number type).name ≠ [] := by
  intro nothing
  have len := congrArg List.length nothing
  simp only [newEntry, Qstr.toList, List.length_map, List.length_range, List.length_nil] at len
  exact absurd len (Nat.ne_of_gt request.nonempty)

theorem Stands.create (stands : Stands size pages m) (small : size < 65536) (aligned : 4 ∣ size)
    (large : 264 ≤ size) {number : ℕ} {created dr : Bytes}
    (creates : Creates size pages (.create name number type created dr)) :
    ∃ pages', dirStep size pages (.create name number type created dr) =
        some (pages', .returned 0) ∧
      Stands size pages' (mapStep m (.create name number type created dr)).1 := by
  rcases creates with ⟨request, pieces, looked⟩
  rcases lookupDirentry_spec stands.formed name type with ⟨_, found, looked', missing, _⟩
  rw [looked] at looked'
  cases looked'
  have isApplied : ∃ pages', applyDirentry size pages (some created) dr name number type =
      some (0, pages') ∧ _ ∧ _ :=
    applyDirentry_spec dr type request small aligned large stands.formed
  rcases isApplied with ⟨pages', applied, formed', before, after, old, new⟩
  have absent : ∀ e ∈ before ++ after, e.key ≠ (newEntry name number type).key := by
    rw [← old]
    exact missing rfl
  refine ⟨pages', by rw [dirStep, applied]; rfl, formed', fun e mem => ?_, ?_, ?_⟩
  · rw [new, List.mem_append, List.mem_cons] at mem
    rcases mem with front | rfl | back
    · exact stands.named e (old ▸ List.mem_append_left _ front)
    · exact newEntry_named request type
    · exact stands.named e (old ▸ List.mem_append_right _ back)
  · rw [new]
    refine distinct_middle.mpr ⟨absent, ?_⟩
    rw [← old]
    exact stands.distinct
  · rw [inoAt, new, valueAt_insert absent, ← old, mapStep, stands.isMap]
    rfl

theorem Stands.delete (stands : Stands size pages m) (small : size < 65536) (name : Qstr)
    (type : LastType) (dr : Bytes) :
    ∃ pages', dirStep size pages (.delete name type dr) =
        some (pages', (mapStep m (.delete name type dr)).2) ∧
      Stands size pages' (mapStep m (.delete name type dr)).1 := by
  rcases lookupDirentry_spec stands.formed name type with ⟨pieces, found, looked, missing, place⟩
  rw [dirStep, looked, Option.bind_some]
  cases found with
  | none =>
      have none : m (keyOf name type) = none := by
        rw [stands.isMap]
        exact valueAt_eq_none.mpr (missing rfl)
      rw [mapStep, if_pos none]
      exact ⟨pages, rfl, stands⟩
  | some place' =>
      rcases place _ _ rfl with ⟨page, here, mem, isMatch⟩
      have isEntry := mem_of_matches (List.mem_of_getElem? here) mem isMatch
      rcases deleteDirentry_spec dr small stands.formed here mem isMatch.1 with
        ⟨pages', deleted, formed', after, old, new⟩
      have there : m (keyOf name type) ≠ none := by
        rw [stands.isMap, inoAt, ← isMatch.2, valueAt_of_mem stands.distinct isEntry]
        exact Option.some_ne_none _
      have distinct := stands.distinct
      rw [old] at distinct
      rw [mapStep, if_neg there]
      refine ⟨pages', by dsimp only; rw [deleted]; rfl, formed', fun e mem => ?_, ?_, ?_⟩
      · rw [new, List.mem_append] at mem
        refine stands.named e (old ▸ List.mem_append.mpr (mem.imp_right ?_))
        exact List.mem_cons_of_mem _
      · rw [new]
        exact (distinct_middle.mp distinct).2
      · rw [inoAt, new, valueAt_remove distinct, ← old, stands.isMap, isMatch.2]
        rfl

/-! ## Listing -/

/-- What `ext2_readdir` stores for a record. -/
def Entry.dirent (e : Entry) : Dirent where
  ino := e.ino
  name := some e.name
  type := if e.type = dirType .dir then .dir else .norm

theorem visitAll_readdir (page : Bytes) (positions : List ℕ) (stored : List Dirent) :
    visitAll (readdirVisit (fun _ => true) page) positions stored =
      .inl (stored ++ (entriesOf page positions).map Entry.dirent) := by
  induction positions generalizing stored with
  | nil => simp [visitAll, entriesOf]
  | cons j rest ih =>
      by_cases live : ino page j ≠ 0
      · have visited : (readdirVisit (fun _ => true) page j stored).2 =
            .inl (stored ++ [(entryAt page j).dirent]) := by
          rw [readdirVisit, if_pos live, if_pos rfl]
          rfl
        rw [visitAll, visited, Sum.elim_inl, ih]
        simp [entriesOf, live]
      · have visited : (readdirVisit (fun _ => true) page j stored).2 = .inl stored := by
          rw [readdirVisit, if_neg live]
        rw [visitAll, visited, Sum.elim_inl, ih]
        simp [entriesOf, live]

/-- A page has no more entries with a name than `ext2_readdir` counts on. -/
theorem length_pageEntries (formed : WellFormed size page)
    (named : ∀ e ∈ pageEntries size page, e.name ≠ []) :
    (pageEntries size page).length ≤ size / (direntryMetaLen + 4) := by
  by_cases live : ∀ j ∈ records size page, ino page j ≠ 0
  · have all : (records size page).filter (ino page · ≠ 0) = records size page :=
      List.filter_eq_self.mpr fun j mem => by simpa using live j mem
    have large : ∀ j ∈ records size page, direntryMetaLen + 4 ≤ totalLen page j := by
      intro j mem
      have isEntry : entryAt page j ∈ pageEntries size page := by
        rw [pageEntries, entriesOf, all]
        exact List.mem_map_of_mem mem
      have hasName : nameLen page j ≠ 0 := fun nothing =>
        named _ isEntry (by rw [entryAt, nothing]; rfl)
      have fits := (formed.proper j mem).fits
      unfold direntryMetaLen
      omega
    have inside := formed.tiles.mul_length_le large
    rw [pageEntries, entriesOf, all, List.length_map,
      Nat.le_div_iff_mul_le (by decide), Nat.mul_comm]
    omega
  · push Not at live
    rcases live with ⟨j, mem, free⟩
    have only := (formed.live j mem).resolve_left (not_not.mpr free)
    rw [only, List.mem_singleton] at mem
    subst mem
    simp [pageEntries, entriesOf, only, free]

/-- There is room in `gen_temp` for all entries when they have names. -/
theorem length_entries_le (formed : ∀ page ∈ pages, WellFormed size page)
    (named : ∀ e ∈ entries size pages, e.name ≠ [])
    (small : size / (direntryMetaLen + 4) * pages.length < 4294967296) :
    (entries size pages).length ≤ capacity size pages.length := by
  rw [capacity, u32_of_lt small, length_entries]
  have each : ∀ count ∈ pages.map fun page => (pageEntries size page).length,
      count ≤ size / (direntryMetaLen + 4) := by
    intro count mem
    rcases List.mem_map.mp mem with ⟨page, isPage, rfl⟩
    refine length_pageEntries (formed page isPage) fun e isEntry => named e ?_
    exact List.mem_flatMap.mpr ⟨page, isPage, isEntry⟩
  have sum := List.sum_le_card_nsmul _ _ each
  rwa [List.length_map, nsmul_eq_mul, Nat.cast_id, Nat.mul_comm] at sum

/-- `ext2_readdir` lists the entries, where there is memory for them, and fails if there are
none. -/
theorem readdir_spec (formed : ∀ page ∈ pages, WellFormed size page) :
    ∃ pieces, readdir size (fun _ => true) (pages.map some) (size + 1) =
      some (pieces, if entries size pages = [] then errNoMem else 0,
        (entries size pages).map Entry.dirent) := by
  let outcome := fun (_ : ℕ) (page : Bytes) (stored : List Dirent) =>
    visitAll (readdirVisit (fun _ => true) page) (records size page) stored
  have each : ∀ n, ∀ page ∈ pages, ∀ stored, ∃ pieces,
      scan size (totalLen page) (readdirVisit (fun _ => true) page) (size + 1) 0 stored =
        some (pieces, outcome n page stored) :=
    fun n page mem stored => scan_tiles (formed page mem).tiles (by omega) _ stored
  have listed : ∀ (pages : List Bytes) (n : ℕ) (stored : List Dirent),
      visitBuffers outcome n pages stored =
        .inl (stored ++ (entries size pages).map Entry.dirent) := by
    intro pages
    induction pages with
    | nil =>
        intro n stored
        simp [visitBuffers, entries]
    | cons page rest ih =>
        intro n stored
        have here : outcome n page stored =
            .inl (stored ++ (pageEntries size page).map Entry.dirent) :=
          visitAll_readdir page _ stored
        rw [visitBuffers, here, Sum.elim_inl, ih, entries_cons, List.map_append, List.append_assoc]
  rcases scanAll_visits (fun stored => (errNoPage, stored)) each 0 [] with ⟨pieces, ran⟩
  rw [readdir, if_pos rfl, ran, listed]
  refine ⟨pieces, ?_⟩
  by_cases nothing : entries size pages = []
  · simp [nothing]
  · simp [nothing]

end

/-! ## Runs -/

/-- A page of 1024 bytes with the records of the file d and of the directory e. -/
def twoFiles : Bytes := fun i => ([5, 0, 0, 0, 12, 0, 1, 1, 100, 0, 0, 0,
  6, 0, 0, 0, 244, 3, 1, 2, 101] : List UInt8).getD i 0

theorem twoFiles_run : LiveRun twoFiles 0 [0, 12] 1024 := by
  have first : LiveRun twoFiles 0 [0] 12 :=
    .single ⟨by decide, by decide⟩ (by decide) (by decide)
  have second : LiveRun twoFiles 12 [12] 1024 :=
    .single ⟨by decide, by decide⟩ (by decide) (by decide)
  exact first.append second

theorem entries_twoPages : entries 1024 [threeFiles, twoFiles] =
    [⟨2, [97], 1⟩, ⟨3, [98], 1⟩, ⟨4, [99], 1⟩, ⟨5, [100], 1⟩, ⟨6, [101], 2⟩] := by
  rw [entries_cons, entries_cons, threeFiles_run.wellFormed.2.2, twoFiles_run.wellFormed.2.2]
  decide

theorem stands_twoPages : Stands 1024 [threeFiles, twoFiles]
    (inoAt 1024 [threeFiles, twoFiles]) where
  formed page mem := by
    rcases List.mem_cons.mp mem with rfl | mem
    · exact threeFiles_run.wellFormed.1
    · rw [List.mem_singleton.mp mem]
      exact twoFiles_run.wellFormed.1
  named := by
    rw [entries_twoPages]
    decide
  distinct := by
    rw [entries_twoPages, Distinct]
    decide
  isMap := rfl

end Ninix.Ext2
