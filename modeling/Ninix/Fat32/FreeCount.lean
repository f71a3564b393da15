import Ninix.Fat32.Directory
import Ninix.Fat32.Ownership
import Ninix.Library.Counting

/-!
# The count of free clusters

FSINFO counts the free clusters. `apply_fat` takes one off the count, and the entry of the table
follows later, from another function: `fat32_create_page` links the cluster at once, but
`fat32_createinode` marks it after `fat32_apply_direntry` has returned. Whatever goes wrong
between the two leaves the count one too low, and nothing puts it right.

What the pages of a directory hold and how their transfers end is part of each call. A page that
cannot be read is a null pointer, which `read_dr` and `fat32_apply_direntry` follow without a
look, so that a call that comes to one there does not return or finds anything.
-/

namespace Ninix.Fat32

open Vfs TransitionSystem

/-! ## Calls that may fail -/

/-- How a change of a slot ends: `general_find_page` has no page, or `writepage` fails. -/
inductive PageIo
  | written
  | notRead
  | notWritten
  deriving DecidableEq

/-- What a call meets in the pages: the slots of the directory by cluster, how the change of
each slot ends, how the first page of a new file is written, and the length left in the buffer
for names. -/
structure Surroundings where
  store : ℕ → ℕ → Slot
  page : ℕ → PageIo
  newPage : PageIo
  nameLen : ℕ

/-- The loop of `fat32_apply_direntry` that registers the new file; `false` is -1, and `none` a
null pointer or a scan without end. -/
def registerSlots (fuel : ℕ) (io : Surroundings) (s : Qstr) (type : LastType)
    (entriesNeeded inodeNo : ℕ) : ℕ → ℕ → Slot → Dir → Option (Bool × Dir)
  | 0, _, _, dir => some (true, dir)
  | left + 1, i, dr, dir =>
      match extend fuel dir i with
      | none => none
      | some (false, dir) => some (false, dir)
      | some (true, dir) =>
          let dr := fillDirentry s type dr left entriesNeeded inodeNo
          match io.page i, dir.writeDr i dr with
          | .notRead, _ => none
          | _, none => none
          | .notWritten, some dir => some (false, dir)
          | .written, some dir =>
              registerSlots fuel io s type entriesNeeded inodeNo left (i + 1) dr dir

/-- `fat32_apply_direntry`, where an inner `none` is -1. A name of more than 254 bytes overruns
the buffer it is prepared in. -/
def applyDirentryIo (fuel : ℕ) (io : Surroundings) (s : Qstr) (type : LastType) (dir : Dir) :
    Option (Option ℕ × Dir) :=
  let entriesNeeded := getDirentyNo s.len
  match findPlace dir.readDr entriesNeeded (dir.slots + 1) 0 0 with
  | none => some (none, dir)
  | some (begin, dr) =>
      match dir.vol.applyFat fuel with
      | none => none
      | some (inodeNo, vol) =>
          if inodeNo = minusOne32 then some (none, { dir with vol })
          else if 254 < s.len then none
          else
            (registerSlots fuel io s type entriesNeeded inodeNo entriesNeeded begin dr
              { dir with vol }).map fun (registered, dir) =>
                (if registered then some inodeNo else none, dir)

/-- `fat32_createinode`: its code, the volume, the parent and the new inode. Memory does not run
out, and a page that is not written makes the call fail with the inode in place. -/
def createinode (fuel : ℕ) (io : Surroundings) (s : Qstr) (type : LastType) (vol : Volume)
    (parent : Inode) : Option (ℕ × Volume × Inode × Option Inode) :=
  (applyDirentryIo fuel io s type ⟨vol, parent, io.store⟩).map fun
    | (none, dir) => (1, dir.vol, dir.inode, none)
    | (some inodeNo, dir) =>
        (if io.newPage = .written then 0 else 1, dir.vol.writeFat inodeNo endOfChain, dir.inode,
          some { iIno := inodeNo, aPage := [inodeNo] })

/-- `fat32_delete_direntry` from slot `i`, with the number of slots to go. -/
def deleteDirentry (io : Surroundings) : ℕ → ℕ → Dir → Option (Bool × Dir)
  | 0, _, dir => some (true, dir)
  | left + 1, i, dir =>
      match dir.readDr i with
      | none => none
      | some dr =>
          match io.page i, dir.writeDr i (Function.update dr 0 0xe5) with
          | .notRead, _ => some (false, dir)
          | _, none => none
          | .notWritten, some dir => some (false, dir)
          | .written, some dir => deleteDirentry io left (i + 1) dir

/-- `fat32_deleteinode`, and whether it succeeds. Its pages are dropped without a transfer. -/
def deleteinode (io : Surroundings) (s : Qstr) (type : LastType) (vol : Volume)
    (parent inode : Inode) : Option (Bool × Volume) :=
  let dir : Dir := ⟨vol, parent, io.store⟩
  match lookupLoop dir.readDr s type (dir.slots + 1) 0 io.nameLen with
  | none => some (false, vol)
  | some file =>
      (deleteDirentry io file.len file.begin dir).map fun (deleted, dir) =>
        (deleted, if deleted then dir.vol.retakeAll inode.aPage else dir.vol)

/-- A mounted volume and the inodes in memory, directories among them. -/
structure Mounted where
  vol : Volume
  inodes : List Inode

/-- The calls of the claim, with the positions of the inodes they are made for. -/
inductive FileCall
  | createinode (parent : ℕ) (s : Qstr) (type : LastType) (io : Surroundings)
  | createPage (file cnt : ℕ)
  | deleteinode (parent file : ℕ) (s : Qstr) (type : LastType) (io : Surroundings)

namespace Mounted

/-- A call that returns, successfully or not. A map for which there is no array does not. -/
def step (fuel : ℕ) (m : Mounted) : FileCall → Option Mounted
  | .createinode parent s type io => do
      let inode ← m.inodes[parent]?
      let (_, vol, inode, created) ← Fat32.createinode fuel io s type m.vol inode
      some { vol, inodes := m.inodes.set parent inode ++ created.toList }
  | .createPage file cnt => do
      let inode ← m.inodes[file]?
      let (_, vol, inode) ← (Fat32.createPage fuel m.vol inode cnt).join
      some { vol, inodes := m.inodes.set file inode }
  | .deleteinode parent file s type io => do
      let pInode ← m.inodes[parent]?
      let inode ← m.inodes[file]?
      let (deleted, vol) ← Fat32.deleteinode io s type m.vol pInode inode
      some { vol, inodes := if deleted then m.inodes.eraseIdx file else m.inodes }

end Mounted

/-- Writing a slot leaves the table and the map alone. -/
theorem Dir.writeDr_frame {dir next : Dir} {i : ℕ} {dr : Slot}
    (wrote : dir.writeDr i dr = some next) : next.vol = dir.vol ∧ next.inode = dir.inode := by
  rcases Option.map_eq_some_iff.mp wrote with ⟨_, _, rfl⟩
  exact ⟨rfl, rfl⟩

/-- With every page written, an entry is registered as in a directory whose pages can be
transferred. -/
theorem registerSlots_written {fuel : ℕ} {io : Surroundings} (written : ∀ i, io.page i = .written)
    {s : Qstr} {type : LastType} {needed inodeNo left i : ℕ} {dr : Slot} {dir : Dir} :
    registerSlots fuel io s type needed inodeNo left i dr dir =
      registerLoop fuel s type needed inodeNo left i dr dir := by
  induction left generalizing i dr dir with
  | zero => rfl
  | succ left ih =>
      simp only [registerSlots, registerLoop, written]
      rcases extend fuel dir i with _ | ⟨added, mid⟩
      · rfl
      · cases added with
        | false => rfl
        | true =>
            simp only
            cases mid.writeDr i (fillDirentry s type dr left needed inodeNo) with
            | none => rfl
            | some wrote => exact ih

/-- A place for entries lies among the slots there are. -/
theorem Dir.findPlace_lt {dir : Dir} {needed fuel i len begin : ℕ} {dr : Slot}
    (found : findPlace dir.readDr needed fuel i len = some (begin, dr)) : begin < dir.slots := by
  induction fuel generalizing i len with
  | zero => simp [findPlace] at found
  | succ fuel ih =>
      simp only [findPlace] at found
      split at found
      · simp at found
      · rename_i here read
        have inside : i < dir.slots := Dir.readDr_isSome.mp (by rw [read]; rfl)
        split at found
        · simp only [Option.some.injEq, Prod.mk.injEq] at found
          omega
        · split at found
          · split at found
            · simp only [Option.some.injEq, Prod.mk.injEq] at found
              omega
            · exact ih found
          · exact ih found

/-! ## When the count stays exact -/

/-- The transfer of FSINFO that an `apply_fat` makes behind its scan succeeds. -/
def FsinfoWritten (fuel : ℕ) (vol : Volume) : Prop :=
  ∀ i mid, vol.scanFree (u32 (vol.info.nextFreeClst + 1)) fuel = some (i, mid) →
    mid.disk.fault mid.disk.transfers (u32 (vol.esb.sBase + vol.esb.fsinfoBaseSect)) = 0

/-- An `apply_fat` that has no cluster by the count, or whose hint names a free cluster other
than the one that waits to be marked and whose transfer of FSINFO succeeds. -/
def TakesFree (fuel : ℕ) (pending : Option ℕ) (vol : Volume) : Prop :=
  vol.info.freeClsts = 0 ∨
    vol.HintFree ∧ pending ≠ some vol.info.nextFreeClst ∧ FsinfoWritten fuel vol

/-- A `fat32_apply_direntry` that finds a place gets a free cluster, and once it has the cluster
no page fails to be written and a page the entries need behind the last one can be added. -/
def Registers (fuel : ℕ) (io : Surroundings) (s : Qstr) (dir : Dir) : Prop :=
  ∀ begin dr, findPlace dir.readDr (getDirentyNo s.len) (dir.slots + 1) 0 0 = some (begin, dr) →
    TakesFree fuel none dir.vol ∧
      ∀ inodeNo vol, dir.vol.applyFat fuel = some (inodeNo, vol) → inodeNo ≠ minusOne32 →
        (∀ k < getDirentyNo s.len, io.page (begin + k) ≠ .notWritten) ∧
          (dir.slots < begin + getDirentyNo s.len →
            vol.info.freeClsts ≠ 0 ∧ TakesFree fuel (some inodeNo) vol)

/-- The calls that keep the count exact. -/
def Mounted.KeepsCount (fuel : ℕ) (m : Mounted) : FileCall → Prop
  | .createinode parent s _ io =>
      ∀ inode, m.inodes[parent]? = some inode → Registers fuel io s ⟨m.vol, inode, io.store⟩
  | .createPage file cnt =>
      ∀ inode, m.inodes[file]? = some inode →
        AtEachApply (TakesFree fuel none) fuel cnt m.vol inode.aPage
  | .deleteinode _ _ _ _ _ => True

/-- The volume holds the files' chains, which share no cluster, and the count is the number of
free clusters but for a cluster that was handed out and is not marked yet. -/
structure Balanced (vol : Volume) (files : List (List ℕ)) (pending : Option ℕ) : Prop where
  coherent : vol.Coherent
  exclusive : Exclusive vol files
  waiting : ∀ clst, pending = some clst → vol.esb.IsCluster clst ∧ vol.Free clst
  count : vol.countFree = vol.info.freeClsts + pending.toList.length

/-! ## Counting -/

namespace Volume

variable {vol vol' : Volume}

theorem mem_clusters {clst : ℕ} :
    clst ∈ List.range' 2 vol.esb.totalDatClst ↔ vol.esb.IsCluster clst := by
  rw [List.mem_range'_1, ExtSb.IsCluster, Nat.add_comm 2]

theorem SameEntries.countFree (same : vol.SameEntries vol') (coherent : vol.Coherent) :
    vol'.countFree = vol.countFree := by
  unfold Volume.countFree
  rw [same.esb]
  apply List.countP_congr
  intro clst mem
  simpa using same.free ((mem_clusters.mp mem).inFat coherent.layout)

/-- A cluster that is no longer free. -/
theorem countFree_mark (esb : vol'.esb = vol.esb) {newClst : ℕ}
    (isCluster : vol.esb.IsCluster newClst) (isFree : vol.Free newClst)
    (marked : ∀ clst, vol.esb.IsCluster clst → (vol'.Free clst ↔ vol.Free clst ∧ clst ≠ newClst)) :
    vol.countFree = vol'.countFree + 1 := by
  unfold Volume.countFree
  rw [esb]
  apply Counting.countP_except List.nodup_range' (mem_clusters.mpr isCluster) isFree
  · exact fun isFree' => ((marked newClst isCluster).mp isFree').2 rfl
  · intro clst mem ne
    rw [marked clst (mem_clusters.mp mem)]
    simp [ne]

/-- A cluster that has become free. -/
theorem countFree_release (esb : vol'.esb = vol.esb) {clst : ℕ}
    (isCluster : vol.esb.IsCluster clst) (used : ¬vol.Free clst)
    (released : ∀ other, vol.esb.IsCluster other →
      (vol'.Free other ↔ vol.Free other ∨ other = clst)) :
    vol'.countFree = vol.countFree + 1 := by
  unfold Volume.countFree
  rw [esb]
  apply Counting.countP_except List.nodup_range' (mem_clusters.mpr isCluster)
    ((released clst isCluster).mpr (Or.inr rfl)) used
  intro other mem ne
  rw [released other (mem_clusters.mp mem)]
  simp [ne]

theorem countFree_le : vol.countFree ≤ vol.esb.totalDatClst := by
  unfold Volume.countFree
  have := List.countP_le_length (p := fun clst => vol.Free clst)
    (l := List.range' 2 vol.esb.totalDatClst)
  rwa [List.length_range'] at this

theorem writeFat_info (clst value : ℕ) : (vol.writeFat clst value).info = vol.info := by
  simp only [writeFat, loadSector]
  split <;> rfl

theorem retakeFat_freeClsts (clst : ℕ) :
    (vol.retakeFat clst).info.freeClsts = u32 (u32 (vol.info.freeClsts + 1)) := by
  simp only [retakeFat, writeFat_info, writeFsinfo]
  split
  · rw [Fsinfo.freeClsts_setNextFreeClst, Fsinfo.freeClsts_setFreeClsts]
  · exact Fsinfo.freeClsts_setFreeClsts _ _

/-- Releasing a cluster in use keeps the count exact. -/
theorem retakeFat_count (coherent : vol.Coherent) {clst : ℕ} (isCluster : vol.esb.IsCluster clst)
    (used : ¬vol.Free clst) (count : vol.countFree = vol.info.freeClsts) :
    (vol.retakeFat clst).countFree = (vol.retakeFat clst).info.freeClsts := by
  have valid := coherent.layout
  rcases retakeFat_spec coherent isCluster with ⟨_, esb', _, _, entry'⟩
  have released := countFree_release esb' isCluster used fun other inside => by
    unfold Free
    rw [entry' other (inside.inFat valid)]
    split <;> simp_all
  have le := vol.countFree_le
  have covers := valid.covers
  have entries := valid.entries
  rw [retakeFat_freeClsts, u32_of_lt (u32_lt _), u32_of_lt (by omega)]
  omega

/-- Releasing the clusters of a file keeps the count exact. -/
theorem retakeAll_count (coherent : vol.Coherent) {clsts : List ℕ}
    (clusters : ∀ clst ∈ clsts, vol.esb.IsCluster clst) (nodup : clsts.Nodup)
    (used : ∀ clst ∈ clsts, ¬vol.Free clst) (count : vol.countFree = vol.info.freeClsts) :
    (vol.retakeAll clsts).countFree = (vol.retakeAll clsts).info.freeClsts := by
  induction clsts generalizing vol with
  | nil => exact count
  | cons clst rest ih =>
      rcases List.nodup_cons.mp nodup with ⟨notMem, nodupRest⟩
      have isCluster := clusters clst List.mem_cons_self
      rcases retakeFat_spec coherent isCluster with ⟨coherent', esb', _, _, entry'⟩
      have count' := retakeFat_count coherent isCluster (used clst List.mem_cons_self) count
      rw [retakeAll_cons]
      refine ih coherent' (fun other mem => ?_) nodupRest (fun other mem => ?_) count'
      · rw [esb']
        exact clusters other (List.mem_cons_of_mem _ mem)
      · have inRest := List.mem_cons_of_mem clst mem
        unfold Free
        rw [entry' other ((clusters other inRest).inFat coherent.layout), if_neg]
        · exact used other inRest
        · rintro rfl
          exact notMem mem

end Volume

/-! ## One cluster at a time -/

section Applying

variable {fuel newClst : ℕ} {pending : Option ℕ} {vol vol' : Volume}

/-- With its transfer of FSINFO a success, `apply_fat` returns the hint. -/
theorem applyFat_hint (coherent : vol.Coherent) (someFree : vol.info.freeClsts ≠ 0)
    (written : FsinfoWritten fuel vol) (applied : vol.applyFat fuel = some (newClst, vol')) :
    newClst = vol.info.nextFreeClst := by
  rw [Volume.applyFat, if_neg someFree] at applied
  simp only at applied
  split at applied
  · simp at applied
  · rename_i i mid scanned
    have same := (Volume.scanFree_spec coherent scanned).1
    have success := written i mid scanned
    rw [← same.esb] at success
    simp only [Option.some.injEq, Prod.mk.injEq] at applied
    rcases applied with ⟨rfl, _⟩
    apply if_neg
    simp [Volume.writeFsinfo, Disk.writeBlock, Disk.sdWriteSector, success]

/-- An `apply_fat` that fails changes nothing. -/
theorem TakesFree.failed (takes : TakesFree fuel pending vol) (coherent : vol.Coherent)
    (applied : vol.applyFat fuel = some (minusOne32, vol')) : vol' = vol := by
  rcases takes with noneFree | ⟨hintFree, _, written⟩
  · rw [Volume.applyFat, if_pos noneFree] at applied
    simp only [Option.some.injEq, Prod.mk.injEq, true_and] at applied
    exact applied.symm
  · rcases Volume.applyFat_cases coherent applied with ⟨_, _, rfl⟩ | ⟨someFree, _⟩
    · rfl
    · have isHint := applyFat_hint coherent someFree written applied
      have small := hintFree.1.lt coherent.layout
      rw [← isHint] at small
      exact absurd small (by decide)

/-- What an `apply_fat` that succeeds takes is free, and the count is one less. -/
theorem TakesFree.taken (takes : TakesFree fuel pending vol) (coherent : vol.Coherent)
    (applied : vol.applyFat fuel = some (newClst, vol')) (handedOut : newClst ≠ minusOne32) :
    vol'.Coherent ∧ vol.SameEntries vol' ∧ vol.esb.IsCluster newClst ∧ vol.Free newClst ∧
      pending ≠ some newClst ∧ vol.info.freeClsts = vol'.info.freeClsts + 1 := by
  rcases Volume.applyFat_cases coherent applied with
    ⟨_, failed, _⟩ | ⟨someFree, coherent', same, count, _⟩
  · exact absurd failed handedOut
  · rcases takes with noneFree | ⟨hintFree, notPending, written⟩
    · exact absurd noneFree someFree
    · have isHint := applyFat_hint coherent someFree written applied
      rw [Volume.HintFree, ← isHint] at hintFree
      rw [← isHint] at notPending
      exact ⟨coherent', same, hintFree.1, hintFree.2, notPending, by omega⟩

/-- While the count is positive, an `apply_fat` succeeds. -/
theorem TakesFree.handedOut (takes : TakesFree fuel pending vol) (coherent : vol.Coherent)
    (someFree : vol.info.freeClsts ≠ 0) (applied : vol.applyFat fuel = some (newClst, vol')) :
    newClst ≠ minusOne32 := by
  rcases takes with noneFree | ⟨hintFree, _, written⟩
  · exact absurd noneFree someFree
  · have small := hintFree.1.lt coherent.layout
    rw [← applyFat_hint coherent someFree written applied] at small
    rintro rfl
    exact absurd small (by decide)

/-- While the count is positive, a page can be added. -/
theorem TakesFree.createPage_one (takes : TakesFree fuel pending vol) (coherent : vol.Coherent)
    (someFree : vol.info.freeClsts ≠ 0) {inode inode' : Inode} (nonempty : inode.aPage ≠ [])
    {cnt : ℕ} (created : createPage fuel vol inode 1 = some (some (cnt, vol', inode'))) :
    cnt = 1 ∧ inode'.iBlocks = inode.iBlocks + 1 := by
  have ran := (createLoop_of_createPage nonempty created).2
  rcases createLoop_cases ran with ⟨newClst, mid, applied, ended⟩
  rcases ended with ⟨failed, _⟩ | ⟨_, ⟨_, eq⟩ | ⟨_, last, _, ran⟩⟩
  · exact absurd failed (takes.handedOut coherent someFree applied)
  · cases eq
  · simp only [createLoop, Option.some.injEq, Prod.mk.injEq] at ran
    rcases ran with ⟨rfl, _, pages⟩
    exact ⟨rfl, by simp [Inode.iBlocks, ← pages]⟩

end Applying

namespace Balanced

variable {fuel newClst : ℕ} {pending : Option ℕ} {vol vol' : Volume} {files : List (List ℕ)}

/-- Nothing is counted twice when the loaded sector of the table or FSINFO changes. -/
theorem transfer (balanced : Balanced vol files pending) (coherent : vol'.Coherent)
    (same : vol.SameEntries vol') {pending' : Option ℕ}
    (waiting : ∀ clst, pending' = some clst → vol.esb.IsCluster clst ∧ vol.Free clst)
    (count : vol'.info.freeClsts + pending'.toList.length =
      vol.info.freeClsts + pending.toList.length) : Balanced vol' files pending' where
  coherent
  exclusive := balanced.exclusive.of_sameEntries balanced.coherent same
  waiting clst isPending := by
    rcases waiting clst isPending with ⟨isCluster, isFree⟩
    rw [same.esb, same.free (isCluster.inFat balanced.coherent.layout)]
    exact ⟨isCluster, isFree⟩
  count := by
    rw [same.countFree balanced.coherent, balanced.count, count]

/-- A cluster is handed out to a new file. -/
theorem begin (balanced : Balanced vol files none) (takes : TakesFree fuel none vol)
    (applied : vol.applyFat fuel = some (newClst, vol')) (handedOut : newClst ≠ minusOne32) :
    Balanced vol' files (some newClst) := by
  rcases takes.taken balanced.coherent applied handedOut with
    ⟨coherent', same, isCluster, isFree, _, count⟩
  apply balanced.transfer coherent' same
  · rintro _ ⟨rfl⟩
    exact ⟨isCluster, isFree⟩
  · exact count.symm

/-- The cluster that was handed out is marked. -/
theorem link (balanced : Balanced vol files (some newClst)) :
    Balanced (vol.writeFat newClst endOfChain) (files ++ [[newClst]]) none := by
  have valid := balanced.coherent.layout
  rcases balanced.waiting newClst rfl with ⟨isCluster, isFree⟩
  have fits : endOfChain < 4294967296 := by decide
  rcases Volume.writeFat_spec balanced.coherent (isCluster.inFat valid) fits with
    ⟨coherent', esb', info', _, entry', _⟩
  have marked := Volume.countFree_mark esb' isCluster isFree fun clst inside => by
    unfold Volume.Free
    rw [entry' clst (inside.inFat valid)]
    split <;> simp_all
  have count := balanced.count
  refine ⟨coherent', balanced.exclusive.begin balanced.coherent isCluster isFree, by simp, ?_⟩
  rw [info']
  simp only [Option.toList_some, Option.toList_none, List.length_singleton, List.length_nil]
    at count ⊢
  omega

/-- A cluster is handed out and linked behind a file. -/
theorem extend (balanced : Balanced vol files pending) (takes : TakesFree fuel pending vol)
    {file last : ℕ} {clsts : List ℕ} (isFile : files[file]? = some clsts)
    (isLast : clsts.getLast? = some last)
    (applied : vol.applyFat fuel = some (newClst, vol')) (handedOut : newClst ≠ minusOne32) :
    Balanced (vol'.linkCluster last newClst) (files.set file (clsts ++ [newClst])) pending := by
  rcases takes.taken balanced.coherent applied handedOut with
    ⟨coherent', same, isCluster, isFree, notPending, count⟩
  have valid := balanced.coherent.layout
  have free' := same.free (isCluster.inFat valid)
  have exclusive' := balanced.exclusive.of_sameEntries balanced.coherent same
  rcases (exclusive'.split isFile).1 with ⟨_, chain⟩
  have lastMem := List.mem_of_getLast? isLast
  have lastIn := chain.clusters last lastMem
  rw [← same.esb] at isCluster
  rcases Volume.linkCluster_spec coherent' lastIn isCluster with ⟨coherentEnd, esbEnd, infoEnd, _⟩
  have linked : ∀ clst, vol'.esb.IsCluster clst →
      ((vol'.linkCluster last newClst).Free clst ↔ vol'.Free clst ∧ clst ≠ newClst) :=
    fun clst inside => Allocator.linkCluster_free coherent' lastIn (chain.not_free lastMem)
      isCluster (inside.inFat coherent'.layout)
  have marked := Volume.countFree_mark esbEnd isCluster (free'.mpr isFree) linked
  have counted := balanced.count
  have sameCount := same.countFree balanced.coherent
  refine ⟨coherentEnd, exclusive'.extend coherent' isFile isLast isCluster (free'.mpr isFree),
    ?_, ?_⟩
  · intro clst isPending
    rcases balanced.waiting clst isPending with ⟨waitingIn, waitingFree⟩
    have waitingFree' := (same.free (waitingIn.inFat valid)).mpr waitingFree
    rw [← same.esb] at waitingIn
    rw [esbEnd, linked clst waitingIn]
    refine ⟨waitingIn, waitingFree', ?_⟩
    rintro rfl
    exact notPending isPending
  · rw [infoEnd]
    omega

/-- A file is deleted. -/
theorem delete (balanced : Balanced vol files none) {file : ℕ} {clsts : List ℕ}
    (isFile : files[file]? = some clsts) :
    Balanced (vol.retakeAll clsts) (files.eraseIdx file) none := by
  rcases (balanced.exclusive.split isFile).1 with ⟨_, chain⟩
  refine ⟨(Volume.retakeAll_spec balanced.coherent chain.clusters).1,
    balanced.exclusive.delete balanced.coherent isFile, by simp, ?_⟩
  exact Volume.retakeAll_count balanced.coherent chain.clusters chain.follows.nodup
    (fun clst mem => chain.not_free mem) balanced.count

/-! ## Whole calls -/

/-- `fat32_create_page` keeps the count, whether or not it gets all the clusters. -/
theorem createLoop (balanced : Balanced vol files pending) {file left curCnt words : ℕ}
    {aPage : List ℕ} (isFile : files[file]? = some aPage)
    (takes : AtEachApply (TakesFree fuel pending) fuel left vol aPage)
    {curCnt' : ℕ} {aPage' : List ℕ} (ran : Fat32.createLoop fuel words vol aPage curCnt left =
      some (some (curCnt', vol', aPage'))) :
    Balanced vol' (files.set file aPage') pending := by
  induction left generalizing vol aPage curCnt files with
  | zero =>
      simp only [Fat32.createLoop, Option.some.injEq, Prod.mk.injEq] at ran
      rcases ran with ⟨_, rfl, rfl⟩
      rw [Allocator.set_getElem?_self isFile]
      exact balanced
  | succ left ih =>
      rcases takes with ⟨takesHere, later⟩
      rcases createLoop_cases ran with ⟨newClst, mid, applied, ended⟩
      rcases ended with ⟨failed, eq⟩ | ⟨handedOut, ⟨_, eq⟩ | ⟨_, last, isLast, ran⟩⟩
      · subst failed
        cases eq
        rw [takesHere.failed balanced.coherent applied, Allocator.set_getElem?_self isFile]
        exact balanced
      · cases eq
      · have extended := balanced.extend takesHere isFile isLast applied handedOut
        rcases List.getElem?_eq_some_iff.mp isFile with ⟨lt, _⟩
        have now := ih extended (List.getElem?_set_self lt)
          (later newClst mid last applied handedOut isLast) ran
        rwa [List.set_set] at now

/-- A call of `fat32_create_page`. -/
theorem createPage (balanced : Balanced vol files pending) {file cnt : ℕ} {inode : Inode}
    (isFile : files[file]? = some inode.aPage)
    (takes : AtEachApply (TakesFree fuel pending) fuel cnt vol inode.aPage)
    {grown : ℕ} {inode' : Inode}
    (created : Fat32.createPage fuel vol inode cnt = some (some (grown, vol', inode'))) :
    Balanced vol' (files.set file inode'.aPage) pending := by
  rcases (balanced.exclusive.split isFile).1 with ⟨_, chain⟩
  exact balanced.createLoop isFile takes
    (createLoop_of_createPage chain.follows.ne_nil created).2

/-- The page an entry needs is added. -/
theorem extendDir {file inodeNo i left : ℕ} {dir dir' : Dir}
    (balanced : Balanced dir.vol files (some inodeNo))
    (isFile : files[file]? = some dir.inode.aPage) (inside : i ≤ dir.slots)
    (positive : 0 < left) (near : left ≤ 32)
    (room : dir.slots < i + left →
      dir.vol.info.freeClsts ≠ 0 ∧ TakesFree fuel (some inodeNo) dir.vol)
    {added : Bool} (extended : Fat32.extend fuel dir i = some (added, dir')) :
    added = true ∧ Balanced dir'.vol (files.set file dir'.inode.aPage) (some inodeNo) ∧
      i < dir'.slots ∧ (dir'.slots < i + left →
        dir'.vol.info.freeClsts ≠ 0 ∧ TakesFree fuel (some inodeNo) dir'.vol) := by
  unfold Fat32.extend at extended
  split at extended
  · rename_i atEnd
    have isEnd : i = dir.slots := by
      unfold Dir.slots at inside ⊢
      omega
    rcases room (by omega) with ⟨someFree, takes⟩
    rcases Option.map_eq_some_iff.mp extended with ⟨⟨cnt, vol, inode⟩, created, result⟩
    simp only [Prod.mk.injEq] at result
    rcases result with ⟨rfl, rfl⟩
    rcases (balanced.exclusive.split isFile).1 with ⟨_, chain⟩
    have made := Option.join_eq_some_iff.mp created
    rcases takes.createPage_one balanced.coherent someFree chain.follows.ne_nil made with
      ⟨one, count⟩
    have slots : Dir.slots { dir with vol, inode } = dir.slots + 32 := by
      simp only [Dir.slots, count]
      omega
    have takesAll : AtEachApply (TakesFree fuel (some inodeNo)) fuel 1 dir.vol dir.inode.aPage :=
      ⟨takes, fun _ _ _ _ _ _ => trivial⟩
    refine ⟨by simp [one], balanced.createPage isFile takesAll made, ?_, ?_⟩
    · rw [slots]
      omega
    · rw [slots]
      omega
  · rename_i notEnd
    simp only [Option.some.injEq, Prod.mk.injEq] at extended
    rcases extended with ⟨rfl, rfl⟩
    rw [Allocator.set_getElem?_self isFile]
    refine ⟨rfl, balanced, ?_, room⟩
    unfold Dir.slots at inside ⊢
    omega

/-- The loop that registers a file succeeds and keeps the count. -/
theorem registerSlots {file inodeNo needed left i : ℕ} {io : Surroundings} {s : Qstr}
    {type : LastType} {dr : Slot} {dir dir' : Dir}
    (balanced : Balanced dir.vol files (some inodeNo))
    (isFile : files[file]? = some dir.inode.aPage) (inside : i ≤ dir.slots) (near : left ≤ 32)
    (pages : ∀ k < left, io.page (i + k) ≠ .notWritten)
    (room : dir.slots < i + left →
      dir.vol.info.freeClsts ≠ 0 ∧ TakesFree fuel (some inodeNo) dir.vol)
    {registered : Bool}
    (ran : Fat32.registerSlots fuel io s type needed inodeNo left i dr dir =
      some (registered, dir')) :
    registered = true ∧ Balanced dir'.vol (files.set file dir'.inode.aPage) (some inodeNo) := by
  induction left generalizing i dr dir files with
  | zero =>
      simp only [Fat32.registerSlots, Option.some.injEq, Prod.mk.injEq] at ran
      rcases ran with ⟨rfl, rfl⟩
      rw [Allocator.set_getElem?_self isFile]
      exact ⟨rfl, balanced⟩
  | succ left ih =>
      simp only [Fat32.registerSlots] at ran
      rcases extended : Fat32.extend fuel dir i with _ | ⟨added, mid⟩
      · simp [extended] at ran
      · rcases balanced.extendDir isFile inside (Nat.succ_pos left) near room extended with
          ⟨rfl, balancedMid, below, roomMid⟩
        simp only [extended] at ran
        rcases wrote : mid.writeDr i (fillDirentry s type dr left needed inodeNo) with _ | next
        · simp only [wrote] at ran
          split at ran <;> simp_all
        · rcases Dir.writeDr_frame wrote with ⟨volEq, inodeEq⟩
          have slotsEq : next.slots = mid.slots := by rw [Dir.slots, inodeEq, Dir.slots]
          simp only [wrote] at ran
          split at ran
          · simp at ran
          · simp at ran
          · rename_i failed _
            exact absurd failed (pages 0 (by omega))
          · rename_i next' _ nextEq
            rcases Option.some.inj nextEq with rfl
            rcases List.getElem?_eq_some_iff.mp isFile with ⟨lt, _⟩
            have pagesLeft : ∀ k < left, io.page (i + 1 + k) ≠ .notWritten := fun k lt => by
              have page := pages (k + 1) (by omega)
              rwa [← Nat.add_assoc, Nat.add_right_comm] at page
            rw [← volEq, ← inodeEq] at balancedMid
            rw [← volEq, ← slotsEq] at roomMid
            have now := ih balancedMid (List.getElem?_set_self lt) (by omega) (by omega) pagesLeft
              (fun short => roomMid (by omega)) ran
            rwa [List.set_set] at now

/-- A `fat32_apply_direntry` either returns a cluster that waits to be marked or changes no
count. -/
theorem applyDirentryIo {file : ℕ} {io : Surroundings} {s : Qstr} {type : LastType}
    {dir dir' : Dir} (balanced : Balanced dir.vol files none)
    (isFile : files[file]? = some dir.inode.aPage) (registers : Registers fuel io s dir)
    {inodeNo : Option ℕ}
    (ran : Fat32.applyDirentryIo fuel io s type dir = some (inodeNo, dir')) :
    Balanced dir'.vol (files.set file dir'.inode.aPage) inodeNo := by
  simp only [Fat32.applyDirentryIo] at ran
  split at ran
  · simp only [Option.some.injEq, Prod.mk.injEq] at ran
    rcases ran with ⟨rfl, rfl⟩
    rwa [Allocator.set_getElem?_self isFile]
  · rename_i begin dr found
    rcases registers begin dr found with ⟨takes, afterwards⟩
    split at ran
    · simp at ran
    · rename_i newClst vol applied
      split at ran
      · rename_i failed
        subst failed
        simp only [Option.some.injEq, Prod.mk.injEq] at ran
        rcases ran with ⟨rfl, rfl⟩
        rwa [Allocator.set_getElem?_self isFile, takes.failed balanced.coherent applied]
      · rename_i handedOut
        rcases afterwards newClst vol applied handedOut with ⟨pages, room⟩
        split at ran
        · simp at ran
        · rename_i notLong
          have small : getDirentyNo s.len ≤ 32 := by
            unfold getDirentyNo
            split <;> omega
          rcases Option.map_eq_some_iff.mp ran with ⟨⟨registered, grown⟩, looped, result⟩
          have inside := Dir.findPlace_lt found
          have begun : Balanced ({ dir with vol } : Dir).vol files (some newClst) :=
            balanced.begin takes applied handedOut
          rcases begun.registerSlots isFile inside.le small pages room looped with
            ⟨rfl, balanced'⟩
          simp only [if_true, Prod.mk.injEq] at result
          rcases result with ⟨rfl, rfl⟩
          exact balanced'

/-- A call of `fat32_createinode`. -/
theorem createinode {file : ℕ} {io : Surroundings} {s : Qstr} {type : LastType}
    {parent parent' : Inode} (balanced : Balanced vol files none)
    (isFile : files[file]? = some parent.aPage)
    (registers : Registers fuel io s ⟨vol, parent, io.store⟩) {err : ℕ} {created : Option Inode}
    (ran : Fat32.createinode fuel io s type vol parent = some (err, vol', parent', created)) :
    Balanced vol' (files.set file parent'.aPage ++ created.toList.map Inode.aPage) none := by
  rcases Option.map_eq_some_iff.mp ran with ⟨⟨inodeNo, dir⟩, applied, result⟩
  have balanced' := balanced.applyDirentryIo isFile registers applied
  cases inodeNo with
  | none =>
      simp only [Prod.mk.injEq] at result
      rcases result with ⟨_, rfl, rfl, rfl⟩
      simpa using balanced'
  | some newClst =>
      simp only [Prod.mk.injEq] at result
      rcases result with ⟨_, rfl, rfl, rfl⟩
      exact balanced'.link

/-- `fat32_delete_direntry` leaves the table alone. -/
theorem deleteDirentry_vol {io : Surroundings} {left i : ℕ} {dir dir' : Dir} {deleted : Bool}
    (ran : deleteDirentry io left i dir = some (deleted, dir')) : dir'.vol = dir.vol := by
  induction left generalizing i dir with
  | zero =>
      simp only [deleteDirentry, Option.some.injEq, Prod.mk.injEq] at ran
      rw [ran.2]
  | succ left ih =>
      simp only [deleteDirentry] at ran
      split at ran
      · simp at ran
      · split at ran
        · simp only [Option.some.injEq, Prod.mk.injEq] at ran
          rw [ran.2]
        · simp at ran
        · rename_i wrote
          simp only [Option.some.injEq, Prod.mk.injEq] at ran
          rw [← ran.2, (Dir.writeDr_frame wrote).1]
        · rename_i wrote
          rw [ih ran, (Dir.writeDr_frame wrote).1]

/-- A call of `fat32_deleteinode`. -/
theorem deleteinode {file : ℕ} {io : Surroundings} {s : Qstr} {type : LastType}
    {parent inode : Inode} (balanced : Balanced vol files none)
    (isFile : files[file]? = some inode.aPage) {deleted : Bool}
    (ran : Fat32.deleteinode io s type vol parent inode = some (deleted, vol')) :
    Balanced vol' (if deleted then files.eraseIdx file else files) none := by
  simp only [Fat32.deleteinode] at ran
  split at ran
  · simp only [Option.some.injEq, Prod.mk.injEq] at ran
    rcases ran with ⟨rfl, rfl⟩
    exact balanced
  · rcases Option.map_eq_some_iff.mp ran with ⟨⟨removed, dir⟩, looped, result⟩
    have volEq : dir.vol = vol := deleteDirentry_vol looped
    simp only [Prod.mk.injEq, volEq] at result
    rcases result with ⟨rfl, rfl⟩
    cases removed with
    | false => exact balanced
    | true => exact balanced.delete isFile

end Balanced

namespace Mounted

/-- The states a run starts in: the open files are disjoint chains and the count is exact. -/
structure Start (m : Mounted) : Prop where
  coherent : m.vol.Coherent
  exclusive : Exclusive m.vol (m.inodes.map Inode.aPage)
  count : m.vol.info.freeClsts = m.vol.countFree

/-- A call that returns keeps the count exact. -/
theorem balanced_step {fuel : ℕ} {m m' : Mounted} {call : FileCall}
    (balanced : Balanced m.vol (m.inodes.map Inode.aPage) none) (keeps : m.KeepsCount fuel call)
    (stepped : step fuel m call = some m') :
    Balanced m'.vol (m'.inodes.map Inode.aPage) none := by
  have fileAt : ∀ {file : ℕ} {inode : Inode}, m.inodes[file]? = some inode →
      (m.inodes.map Inode.aPage)[file]? = some inode.aPage := by
    intro file inode isInode
    rw [List.getElem?_map, isInode, Option.map_some]
  cases call with
  | createinode parent s type io =>
      simp only [step, Option.bind_eq_bind, Option.bind_eq_some_iff] at stepped
      rcases stepped with ⟨inode, isInode, ⟨err, vol, inode', created⟩, ran, result⟩
      rcases Option.some.inj result with rfl
      rw [List.map_append, List.map_set]
      exact balanced.createinode (fileAt isInode) (keeps inode isInode) ran
  | createPage file cnt =>
      simp only [step, Option.bind_eq_bind, Option.bind_eq_some_iff] at stepped
      rcases stepped with ⟨inode, isInode, ⟨grown, vol, inode'⟩, ran, result⟩
      rcases Option.some.inj result with rfl
      rw [List.map_set]
      exact balanced.createPage (fileAt isInode) (keeps inode isInode)
        (Option.join_eq_some_iff.mp ran)
  | deleteinode parent file s type io =>
      simp only [step, Option.bind_eq_bind, Option.bind_eq_some_iff] at stepped
      rcases stepped with ⟨pInode, _, inode, isInode, ⟨deleted, vol⟩, ran, result⟩
      rcases Option.some.inj result with rfl
      have balanced' := balanced.deleteinode (fileAt isInode) ran
      cases deleted with
      | false => exact balanced'
      | true =>
          simpa only [if_true, List.eraseIdx_map] using balanced'

/--
On every run whose calls keep the count, FSINFO counts the free clusters exactly whenever a call
has returned, successfully or not.
-/
theorem freeClsts_of_reach {fuel : ℕ} {m : Mounted}
    (reached : GuardedReach (step fuel) (KeepsCount fuel) Start m) :
    m.vol.info.freeClsts = m.vol.countFree := by
  have balanced : Balanced m.vol (m.inodes.map Inode.aPage) none :=
    reached.invariant (fun _ start => ⟨start.coherent, start.exclusive, by simp, start.count.symm⟩)
      fun _ _ _ balanced keeps stepped => balanced_step balanced keeps stepped
  exact balanced.count.symm

/-- A directory of the cluster 2 with clusters 3 to 6 free. -/
def emptyDirectory : Mounted := ⟨oneFile, [⟨2, [2]⟩]⟩

/-- Pages of the given slots whose transfers all succeed. -/
def goodPages (slots : ℕ → Slot) : Surroundings := ⟨fun _ => slots, fun _ => .written, .written, 0⟩

/-- The cluster 2 as the only file. -/
theorem exclusive_two {vol : Volume} (ends : vol.entry 2 = endOfChain)
    (isCluster : vol.esb.IsCluster 2) : Exclusive vol [[2]] := by
  refine ⟨fun clsts mem => ?_, List.pairwise_singleton _ _⟩
  rw [List.mem_singleton.mp mem]
  exact ⟨2, .last ends, by simpa using isCluster⟩

theorem emptyDirectory_start : emptyDirectory.Start where
  coherent := Volume.ofTable_coherent fiveClusters_valid
  exclusive := exclusive_two (Volume.ofTable_entry fiveClusters_valid (by decide) (by decide))
    (by decide)
  count := by decide +kernel

/-- A file is created in an empty directory. -/
theorem freeClsts_of_reach_createinode :
    ∃ m, step 8 emptyDirectory (.createinode 0 ⟨fun _ => 0x41, 1⟩ .norm (goodPages fun _ _ => 0)) =
        some m ∧ m.inodes.length = 2 ∧ m.vol.info.freeClsts = m.vol.countFree := by
  have runs : (step 8 emptyDirectory
      (.createinode 0 ⟨fun _ => 0x41, 1⟩ .norm (goodPages fun _ _ => 0))).map (·.inodes.length) =
        some 2 := by decide +kernel
  rcases Option.map_eq_some_iff.mp runs with ⟨m, stepped, two⟩
  have coherent := emptyDirectory_start.coherent
  refine ⟨m, stepped, two, freeClsts_of_reach (.step (.start emptyDirectory_start) ?_ stepped)⟩
  intro inode isInode begin dr found
  rcases Option.some.inj isInode with rfl
  refine ⟨Or.inr ⟨by decide +kernel, by simp, fun i mid scanned => ?_⟩,
    fun inodeNo vol applied _ =>
      ⟨fun k _ written => by simp [goodPages] at written, fun tooFew => ?_⟩⟩
  · rw [(Volume.scanFree_spec coherent scanned).1.fault]
    rfl
  · have below := Dir.findPlace_lt found
    change begin < 32 at below
    change 32 < begin + 1 at tooFew
    omega

/-- A directory of the cluster 2 with one free cluster, 3. -/
def crowded : Mounted where
  vol := Volume.ofTable fiveClusters (fun clst => if clst = 3 then 0 else endOfChain) 1 3
  inodes := [⟨2, [2]⟩]

theorem crowded_start : crowded.Start where
  coherent := Volume.ofTable_coherent fiveClusters_valid
  exclusive := exclusive_two (Volume.ofTable_entry fiveClusters_valid (by decide) (by decide))
    (by decide)
  count := by decide +kernel

/--
The page of the directory has one slot left, and the new file needs two entries. Its cluster is
the last free one, so that no page can be added for the second entry: the call fails, and the
count is 0 with cluster 3 still free.
-/
theorem not_freeClsts_of_reach :
    ¬∀ (fuel : ℕ) (m : Mounted), Reach (step fuel) Start m →
      m.vol.info.freeClsts = m.vol.countFree := by
  intro always
  have runs : (run (step 8) crowded [.createinode 0 ⟨fun _ => 0x41, 12⟩ .norm
      (goodPages fun i _ => if i < 31 then 0x41 else 0)]).map
        (fun m => (m.vol.info.freeClsts, m.vol.countFree)) = some (0, 1) := by decide +kernel
  rcases Option.map_eq_some_iff.mp runs with ⟨m, ran, counts⟩
  have exact := always 8 m (reach_of_run (.start crowded_start) ran)
  rw [Prod.mk.injEq] at counts
  omega

end Mounted

end Ninix.Fat32
