import Mathlib.Data.List.Perm.Basic
import Ninix.Fat32.Growth
import Ninix.Library.Reachability

/-!
# Who owns a cluster

The files of a volume and the allocations and releases the system makes for them, one at a time:
`fat32_create_page` extends a file by what `apply_fat` returns, `fat32_createinode` calls
`apply_fat` first and starts the new file's chain with the cluster only after its directory has
an entry for it, which may extend the directory in between, and `fat32_deleteinode` releases the
clusters of a file.

What `apply_fat` returns was found by an earlier call. It is free as long as every call that
leaves a count of free clusters also finds another free cluster for its successor, and as long
as a release on a full disk lowers the hint to what it releases.
-/

namespace Ninix.Fat32

open TransitionSystem CyclicScan

/-- The volume, the clusters of each file in order, and the cluster `fat32_createinode` has been
given and not yet marked. -/
structure Allocator where
  vol : Volume
  files : List (List ℕ)
  pending : Option ℕ

/-- What the system does to the clusters of a volume. -/
inductive ClusterOp
  /-- A round of the last loop of `fat32_create_page`. -/
  | extend (file : ℕ)
  /-- The `apply_fat` of a `fat32_createinode`. -/
  | begin
  /-- The `write_fat` of the same `fat32_createinode`. -/
  | link
  /-- A `fat32_createinode` that fails after its `apply_fat`. -/
  | abandon
  /-- The last loop of `fat32_deleteinode`. -/
  | delete (file : ℕ)

namespace Allocator

/-- One action of the system, `none` where it cannot happen or a scan runs out of fuel. -/
def step (fuel : ℕ) (s : Allocator) : ClusterOp → Option Allocator
  | .extend file => do
      let clsts ← s.files[file]?
      let last ← clsts.getLast?
      let (newClst, vol) ← s.vol.applyFat fuel
      if newClst = minusOne32 then some { s with vol }
      else
        some { s with
          vol := vol.linkCluster last newClst
          files := s.files.set file (clsts ++ [newClst]) }
  | .begin =>
      if s.pending.isSome then none
      else do
        let (newClst, vol) ← s.vol.applyFat fuel
        if newClst = minusOne32 then some { s with vol }
        else some { s with vol, pending := some newClst }
  | .link => do
      let newClst ← s.pending
      some
        { vol := s.vol.writeFat newClst endOfChain
          files := s.files ++ [[newClst]]
          pending := none }
  | .abandon => some { s with pending := none }
  | .delete file =>
      if s.pending.isSome then none
      else do
        let clsts ← s.files[file]?
        some { s with vol := s.vol.retakeAll clsts, files := s.files.eraseIdx file }

/-- Putting an element where it is changes nothing. -/
theorem set_getElem?_self {files : List (List ℕ)} {file : ℕ} {clsts : List ℕ}
    (isFile : files[file]? = some clsts) : files.set file clsts = files := by
  rcases List.getElem?_eq_some_iff.mp isFile with ⟨lt, rfl⟩
  exact List.set_getElem_self lt

/-- Growing a file by several clusters is a run that extends it by one at a time. -/
theorem createLoop_run {fuel words : ℕ} {s : Allocator} {file left curCnt : ℕ} {aPage : List ℕ}
    (isFile : s.files[file]? = some aPage) (nonempty : aPage ≠ [])
    {curCnt' : ℕ} {vol' : Volume} {aPage' : List ℕ}
    (ran : createLoop fuel words s.vol aPage curCnt left = some (some (curCnt', vol', aPage'))) :
    ∃ ops, (∀ op ∈ ops, op = .extend file) ∧
      run (step fuel) s ops = some { s with vol := vol', files := s.files.set file aPage' } := by
  have unchanged := set_getElem?_self isFile
  induction left generalizing s aPage curCnt with
  | zero =>
      simp only [createLoop, Option.some.injEq, Prod.mk.injEq] at ran
      rcases ran with ⟨_, rfl, rfl⟩
      exact ⟨[], by simp, by rw [unchanged]; rfl⟩
  | succ left ih =>
      rcases createLoop_cases ran with ⟨newClst, mid, applied, ended⟩
      rcases ended with ⟨failed, eq⟩ | ⟨handedOut, ⟨_, eq⟩ | ⟨_, last, isLast, ran⟩⟩
      · cases eq
        have isLast := List.getLast?_eq_some_getLast nonempty
        refine ⟨[.extend file], by simp, ?_⟩
        simp [run, step, isFile, isLast, applied, failed, unchanged]
      · cases eq
      · rcases List.getElem?_eq_some_iff.mp isFile with ⟨lt, _⟩
        have isFileNow :
            (s.files.set file (aPage ++ [newClst]))[file]? = some (aPage ++ [newClst]) := by
          rw [List.getElem?_set_self lt]
        rcases ih (s := { s with
            vol := mid.linkCluster last newClst
            files := s.files.set file (aPage ++ [newClst]) })
          isFileNow (by simp) ran (by simp) with ⟨ops, onlyExtends, runs⟩
        refine ⟨.extend file :: ops, by simpa using onlyExtends, ?_⟩
        have stepped : step fuel s (.extend file) = some { s with
            vol := mid.linkCluster last newClst
            files := s.files.set file (aPage ++ [newClst]) } := by
          simp [step, isFile, isLast, applied, handedOut]
        rw [run, stepped, Option.bind_some, runs]
        simp

end Allocator

/-- Each file is a chain on the card, and no cluster is in two of them. -/
structure Exclusive (vol : Volume) (files : List (List ℕ)) : Prop where
  chains : ∀ clsts ∈ files, ∃ head, IsChain vol head clsts
  disjoint : files.Pairwise List.Disjoint

namespace Exclusive

variable {vol vol' : Volume} {files files' : List (List ℕ)}

theorem perm (exclusive : Exclusive vol files) (perm : files.Perm files') :
    Exclusive vol files' :=
  ⟨fun clsts mem => exclusive.chains clsts (perm.mem_iff.mpr mem),
    exclusive.disjoint.perm perm fun disjoint _ left right => disjoint right left⟩

theorem cons_iff {clsts : List ℕ} : Exclusive vol (clsts :: files) ↔
    (∃ head, IsChain vol head clsts) ∧ (∀ other ∈ files, clsts.Disjoint other) ∧
      Exclusive vol files := by
  constructor
  · rintro ⟨chains, disjoint⟩
    rw [List.pairwise_cons] at disjoint
    exact ⟨chains clsts (by simp), disjoint.1,
      fun other mem => chains other (List.mem_cons_of_mem _ mem), disjoint.2⟩
  · rintro ⟨chain, apart, rest⟩
    refine ⟨?_, List.pairwise_cons.mpr ⟨apart, rest.disjoint⟩⟩
    intro other mem
    rcases List.mem_cons.mp mem with rfl | inRest
    · exact chain
    · exact rest.chains other inRest

theorem of_sameEntries (exclusive : Exclusive vol files) (coherent : vol.Coherent)
    (same : vol.SameEntries vol') : Exclusive vol' files := by
  refine ⟨fun clsts mem => ?_, exclusive.disjoint⟩
  rcases exclusive.chains clsts mem with ⟨head, chain⟩
  exact ⟨head, chain.of_sameEntries coherent same⟩

/-- A free cluster is in no file. -/
theorem not_mem_of_free (exclusive : Exclusive vol files) {clst : ℕ} (isFree : vol.Free clst)
    {clsts : List ℕ} (mem : clsts ∈ files) : clst ∉ clsts := by
  rcases exclusive.chains clsts mem with ⟨head, chain⟩
  exact fun inFile => chain.not_free inFile isFree

section Changes

variable {file newClst last : ℕ} {clsts : List ℕ}

/-- A file is a chain that shares no cluster with the files beside it. -/
theorem split (exclusive : Exclusive vol files) (isFile : files[file]? = some clsts) :
    (∃ head, IsChain vol head clsts) ∧ (∀ other ∈ files.eraseIdx file, clsts.Disjoint other) ∧
      Exclusive vol (files.eraseIdx file) := by
  rcases List.getElem?_eq_some_iff.mp isFile with ⟨lt, isElem⟩
  have perm := List.getElem_cons_eraseIdx_perm lt
  rw [isElem] at perm
  exact cons_iff.mp (exclusive.perm perm.symm)

/-- A free cluster linked behind a file. -/
theorem extend (exclusive : Exclusive vol files) (coherent : vol.Coherent)
    (isFile : files[file]? = some clsts) (isLast : clsts.getLast? = some last)
    (isCluster : vol.esb.IsCluster newClst) (isFree : vol.Free newClst) :
    Exclusive (vol.linkCluster last newClst) (files.set file (clsts ++ [newClst])) := by
  rcases List.getElem?_eq_some_iff.mp isFile with ⟨lt, _⟩
  have permSet := List.set_perm_cons_eraseIdx lt (clsts ++ [newClst])
  rcases exclusive.split isFile with ⟨⟨head, chain⟩, apart, rest⟩
  have lastMem := List.mem_of_getLast? isLast
  have lastIn := chain.clusters last lastMem
  refine Exclusive.perm (cons_iff.mpr ⟨⟨head, ?_⟩, ?_, ?_, rest.disjoint⟩) permSet.symm
  · exact chain.link coherent isLast isCluster isFree
  · intro other mem clst inNew inOther
    rcases List.mem_append.mp inNew with old | new
    · exact apart other mem old inOther
    · rw [List.mem_singleton.mp new] at inOther
      exact rest.not_mem_of_free isFree mem inOther
  · intro other mem
    rcases rest.chains other mem with ⟨otherHead, otherChain⟩
    exact ⟨otherHead, otherChain.link_other coherent
      (fun inOther => apart other mem lastMem inOther) lastIn isCluster isFree⟩

/-- A free cluster marked as the end of a new file. -/
theorem begin (exclusive : Exclusive vol files) (coherent : vol.Coherent)
    (isCluster : vol.esb.IsCluster newClst) (isFree : vol.Free newClst) :
    Exclusive (vol.writeFat newClst endOfChain) (files ++ [[newClst]]) := by
  have valid := coherent.layout
  have fits : endOfChain < 4294967296 := by decide
  rcases Volume.writeFat_spec coherent (isCluster.inFat valid) fits with ⟨_, esb', _, _, entry', _⟩
  refine Exclusive.perm (cons_iff.mpr ⟨⟨newClst, ?_, ?_⟩, ?_, ?_, exclusive.disjoint⟩)
    (List.perm_append_singleton [newClst] files).symm
  · exact .last (by rw [entry' newClst (isCluster.inFat valid), if_pos rfl])
  · intro clst mem
    rw [List.mem_singleton.mp mem, esb']
    exact isCluster
  · intro other mem clst inNew inOther
    rw [List.mem_singleton.mp inNew] at inOther
    exact exclusive.not_mem_of_free isFree mem inOther
  · intro other mem
    rcases exclusive.chains other mem with ⟨head, chain⟩
    refine ⟨head, chain.congr esb' fun clst inOther => ?_⟩
    rw [entry' clst ((chain.clusters clst inOther).inFat valid), if_neg]
    rintro rfl
    exact chain.not_free inOther isFree

/-- A file whose clusters are released. -/
theorem delete (exclusive : Exclusive vol files) (coherent : vol.Coherent)
    (isFile : files[file]? = some clsts) :
    Exclusive (vol.retakeAll clsts) (files.eraseIdx file) := by
  have valid := coherent.layout
  rcases exclusive.split isFile with ⟨⟨_, chain⟩, apart, rest⟩
  rcases Volume.retakeAll_spec coherent chain.clusters with ⟨_, esb', _, _, entry'⟩
  refine ⟨fun other mem => ?_, rest.disjoint⟩
  rcases rest.chains other mem with ⟨otherHead, otherChain⟩
  refine ⟨otherHead, otherChain.congr esb' fun clst inOther => ?_⟩
  rw [entry' clst ((otherChain.clusters clst inOther).inFat valid), if_neg]
  exact fun inFile => apart other mem inFile inOther

end Changes

end Exclusive

/-! ## The hint -/

namespace Volume

/-- FSINFO's hint names a free cluster of the data area. -/
def HintFree (vol : Volume) : Prop :=
  vol.esb.IsCluster vol.info.nextFreeClst ∧ vol.Free vol.info.nextFreeClst

instance (vol : Volume) : Decidable vol.HintFree := inferInstanceAs (Decidable (_ ∧ _))

/-- The clusters of the data area with entry 0, counted. -/
def countFree (vol : Volume) : ℕ :=
  (List.range' 2 vol.esb.totalDatClst).countP fun clst => vol.Free clst

end Volume

namespace Allocator

/-- The states a run starts in: no call is under way, the two reserved entries are in use, the
hint names a free cluster and the count is the number of free clusters. -/
structure Start (s : Allocator) : Prop where
  coherent : s.vol.Coherent
  reliable : s.vol.disk.Reliable
  reserved : ¬s.vol.Free 0 ∧ ¬s.vol.Free 1
  hint : s.vol.HintFree
  count : s.vol.info.freeClsts = s.vol.countFree
  exclusive : Exclusive s.vol s.files
  idle : s.pending = none

/--
The steps that keep the hint good: an allocation takes the last cluster of the count, or leaves
one below `total_dat_clst` that is neither the hint nor waiting to be marked; a deletion finds
the hint good, or releases a cluster that is not above it.
-/
def KeepsHint (s : Allocator) : ClusterOp → Prop
  | .extend _ | .begin =>
      s.vol.info.freeClsts ≤ 1 ∨ ∃ other < s.vol.esb.totalDatClst, s.vol.Free other ∧
        other ≠ s.vol.info.nextFreeClst ∧ s.pending ≠ some other
  | .link | .abandon => True
  | .delete file =>
      s.vol.HintFree ∨ ∃ clsts, s.files[file]? = some clsts ∧
        ∃ clst ∈ clsts, clst ≤ s.vol.info.nextFreeClst

/-- What every run of such steps keeps. -/
structure Inv (s : Allocator) : Prop where
  coherent : s.vol.Coherent
  reliable : s.vol.disk.Reliable
  reserved : ¬s.vol.Free 0 ∧ ¬s.vol.Free 1
  exclusive : Exclusive s.vol s.files
  waiting : ∀ clst, s.pending = some clst → s.vol.esb.IsCluster clst ∧ s.vol.Free clst
  hint : s.vol.info.freeClsts ≠ 0 →
    s.vol.HintFree ∧ s.pending ≠ some s.vol.info.nextFreeClst
  order : ∀ clst, s.pending = some clst → s.vol.info.freeClsts ≠ 0 →
    FirstFrom s.vol.Free s.vol.esb.totalDatClst (clst + 1) s.vol.info.nextFreeClst

theorem Start.inv {s : Allocator} (start : s.Start) : s.Inv where
  coherent := start.coherent
  reliable := start.reliable
  reserved := start.reserved
  exclusive := start.exclusive
  waiting := by simp [start.idle]
  hint := by simp [start.idle, start.hint]
  order := by simp [start.idle]

/-- The volume after an `apply_fat` that hands out a cluster, as it is before that cluster is
marked: the next hint is another free cluster. -/
structure Applied (s : Allocator) (newClst : ℕ) (vol' : Volume) : Prop where
  coherent : vol'.Coherent
  same : s.vol.SameEntries vol'
  isCluster : s.vol.esb.IsCluster newClst
  isFree : s.vol.Free newClst
  notPending : s.pending ≠ some newClst
  next : vol'.info.freeClsts ≠ 0 → vol'.info.nextFreeClst ≠ newClst ∧ vol'.HintFree ∧
    s.pending ≠ some vol'.info.nextFreeClst ∧
    FirstFrom s.vol.Free s.vol.esb.totalDatClst (newClst + 1) vol'.info.nextFreeClst ∧
    ∀ clst, s.pending = some clst →
      FirstFrom (fun k => s.vol.Free k ∧ k ≠ newClst) s.vol.esb.totalDatClst (clst + 1)
        vol'.info.nextFreeClst

section Steps

variable {fuel : ℕ} {s : Allocator}

/-- On a run that keeps the hint good, what `apply_fat` returns is free. -/
theorem applyFat_free (inv : s.Inv) {newClst : ℕ} {vol' : Volume}
    (applied : s.vol.applyFat fuel = some (newClst, vol')) (handedOut : newClst ≠ minusOne32) :
    newClst = s.vol.info.nextFreeClst ∧ s.vol.HintFree ∧ s.vol.info.freeClsts ≠ 0 ∧
      vol'.Coherent ∧ s.vol.SameEntries vol' ∧
      vol'.info.freeClsts = s.vol.info.freeClsts - 1 ∧
      FirstFrom s.vol.Free s.vol.esb.totalDatClst (newClst + 1) vol'.info.nextFreeClst := by
  rcases Volume.applyFat_cases inv.coherent applied with
    ⟨_, failed, _⟩ | ⟨someFree, coherent', same, count, _, returned, found⟩
  · exact absurd failed handedOut
  · have isHint := returned inv.reliable
    have hintFree := (inv.hint someFree).1
    have positive : 0 < s.vol.esb.totalDatClst := by
      have inside := hintFree.1.2
      have above := hintFree.1.1
      omega
    have small := hintFree.1.lt inv.coherent.layout
    have scanned := found positive
    rw [u32_of_lt (by omega), ← isHint] at scanned
    exact ⟨isHint, hintFree, someFree, coherent', same, count, scanned⟩

/-- A search of the table meets no reserved entry. -/
theorem isCluster_of_firstFrom (inv : s.Inv) {start hit : ℕ}
    (found : FirstFrom s.vol.Free s.vol.esb.totalDatClst start hit) :
    s.vol.esb.IsCluster hit := by
  have lt := found.lt
  have ne0 : hit ≠ 0 := fun eq => inv.reserved.1 (eq ▸ found.isFree)
  have ne1 : hit ≠ 1 := fun eq => inv.reserved.2 (eq ▸ found.isFree)
  constructor <;> omega

/-- An `apply_fat` that finds another free cluster for its successor. -/
theorem applied_of_applyFat (inv : s.Inv)
    (guarded : s.vol.info.freeClsts ≤ 1 ∨ ∃ other < s.vol.esb.totalDatClst,
      s.vol.Free other ∧ other ≠ s.vol.info.nextFreeClst ∧ s.pending ≠ some other)
    {newClst : ℕ} {vol' : Volume} (applied : s.vol.applyFat fuel = some (newClst, vol'))
    (handedOut : newClst ≠ minusOne32) : Applied s newClst vol' := by
  rcases applyFat_free inv applied handedOut with
    ⟨isHint, hintFree, someFree, coherent', same, count, found⟩
  rw [Volume.HintFree, ← isHint] at hintFree
  have notPending : s.pending ≠ some newClst := isHint ▸ (inv.hint someFree).2
  refine ⟨coherent', same, hintFree.1, hintFree.2, notPending, fun more => ?_⟩
  rcases guarded with last | ⟨other, lt, isFree, neHint, nePending⟩
  · omega
  · rw [← isHint] at neHint
    have neNew := found.ne_of_other lt isFree neHint
    have isCluster := isCluster_of_firstFrom inv found
    have ordered : ∀ clst, s.pending = some clst →
        vol'.info.nextFreeClst ≠ clst ∧
          FirstFrom (fun k => s.vol.Free k ∧ k ≠ newClst) s.vol.esb.totalDatClst (clst + 1)
            vol'.info.nextFreeClst := by
      intro clst isPending
      have order := inv.order clst isPending someFree
      rw [← isHint] at order
      exact order.after found lt isFree neHint (fun eq => nePending (eq ▸ isPending))
        (fun _ _ both => both) ⟨found.isFree, neNew⟩
    refine ⟨neNew, ⟨?_, ?_⟩, ?_, found, fun clst isPending => (ordered clst isPending).2⟩
    · rw [same.esb]
      exact isCluster
    · exact (same.free (isCluster.inFat inv.coherent.layout)).mpr found.isFree
    · intro isPending
      exact (ordered _ isPending).1 rfl

/-- Without a free cluster to hand out, `apply_fat` changes nothing. -/
theorem applyFat_failed (inv : s.Inv) {vol' : Volume}
    (applied : s.vol.applyFat fuel = some (minusOne32, vol')) : vol' = s.vol := by
  rcases Volume.applyFat_cases inv.coherent applied with
    ⟨_, _, same⟩ | ⟨someFree, _, _, _, _, returned, _⟩
  · exact same
  · have small := (inv.hint someFree).1.1.lt inv.coherent.layout
    rw [← returned inv.reliable] at small
    exact absurd small (by decide)

/-- The clusters that are free once one has been linked behind the last of a chain. -/
theorem linkCluster_free {vol : Volume} (coherent : vol.Coherent) {last newClst : ℕ}
    (lastIn : vol.esb.IsCluster last) (lastUsed : ¬vol.Free last)
    (newIn : vol.esb.IsCluster newClst) {clst : ℕ} (inFat : vol.esb.InFat clst) :
    (vol.linkCluster last newClst).Free clst ↔ vol.Free clst ∧ clst ≠ newClst := by
  have entry := (Volume.linkCluster_spec coherent lastIn newIn).2.2.2.2 clst inFat
  unfold Volume.Free at lastUsed ⊢
  rw [entry]
  split
  · rename_i isNew
    simp [isNew]
  · rename_i notNew
    split
    · rename_i isLast
      have positive := newIn.1
      subst isLast
      constructor
      · omega
      · exact fun both => absurd both.1 lastUsed
    · exact ⟨fun isFree => ⟨isFree, notNew⟩, fun both => both.1⟩

theorem inv_extend (inv : s.Inv) {file newClst last : ℕ} {clsts : List ℕ} {vol' : Volume}
    (isFile : s.files[file]? = some clsts) (isLast : clsts.getLast? = some last)
    (applied : Applied s newClst vol') :
    Inv { s with
      vol := vol'.linkCluster last newClst
      files := s.files.set file (clsts ++ [newClst]) } := by
  have valid := inv.coherent.layout
  have exclusive' := inv.exclusive.of_sameEntries inv.coherent applied.same
  rcases (exclusive'.split isFile).1 with ⟨_, chain'⟩
  have lastMem := List.mem_of_getLast? isLast
  have lastIn := chain'.clusters last lastMem
  have isCluster := applied.isCluster
  rw [← applied.same.esb] at isCluster
  have freeSame : ∀ clst, s.vol.esb.InFat clst → (vol'.Free clst ↔ s.vol.Free clst) :=
    fun clst inFat => applied.same.free inFat
  have isFree := (freeSame _ (applied.isCluster.inFat valid)).mpr applied.isFree
  rcases Volume.linkCluster_spec applied.coherent lastIn isCluster with
    ⟨coherent'', esb'', info'', fault'', _⟩
  have free'' : ∀ clst, s.vol.esb.InFat clst →
      ((vol'.linkCluster last newClst).Free clst ↔ s.vol.Free clst ∧ clst ≠ newClst) := by
    intro clst inFat
    rw [linkCluster_free applied.coherent lastIn (chain'.not_free lastMem) isCluster
      (by rw [applied.same.esb]; exact inFat), freeSame clst inFat]
  refine
    { coherent := coherent''
      reliable := ?_
      reserved := ?_
      exclusive := ?_
      waiting := ?_
      hint := ?_
      order := ?_ }
  · intro k id _
    rw [fault'', applied.same.fault]
    exact inv.reliable k id trivial
  · have covered := valid.covers
    rw [free'' 0 (valid.inFat (by omega)), free'' 1 (valid.inFat (by omega))]
    exact ⟨fun both => inv.reserved.1 both.1, fun both => inv.reserved.2 both.1⟩
  · exact exclusive'.extend applied.coherent isFile isLast isCluster isFree
  · intro clst isPending
    rcases inv.waiting clst isPending with ⟨waitingIn, waitingFree⟩
    refine ⟨?_, (free'' clst (waitingIn.inFat valid)).mpr ⟨waitingFree, ?_⟩⟩
    · rw [esb'', applied.same.esb]
      exact waitingIn
    · rintro rfl
      exact applied.notPending isPending
  · intro more
    rw [info''] at more ⊢
    rcases applied.next more with ⟨ne, ⟨hintIn, hintFree⟩, notPending, _⟩
    refine ⟨⟨?_, ?_⟩, notPending⟩
    · rw [esb'', info'']
      exact hintIn
    · have inFat := hintIn.inFat applied.coherent.layout
      rw [applied.same.esb] at inFat
      rw [info'', free'' _ inFat]
      exact ⟨(freeSame _ inFat).mp hintFree, ne⟩
  · intro clst isPending more
    rw [info''] at more ⊢
    rcases applied.next more with ⟨_, _, _, _, order⟩
    have found := order clst isPending
    rw [esb'', applied.same.esb]
    have inFat : ∀ k < s.vol.esb.totalDatClst, s.vol.esb.InFat k := fun k lt =>
      valid.inFat (by omega)
    exact ⟨found.lt, (free'' _ (inFat _ found.lt)).mpr found.isFree, fun k lt earlier isFree'' =>
      found.before k lt earlier ((free'' k (inFat k lt)).mp isFree'')⟩

theorem inv_begin (inv : s.Inv) {newClst : ℕ} {vol' : Volume}
    (applied : Applied s newClst vol') :
    Inv { s with vol := vol', pending := some newClst } := by
  have valid := inv.coherent.layout
  have covered := valid.covers
  refine
    { coherent := applied.coherent
      reliable := applied.same.reliable inv.reliable
      reserved := ?_
      exclusive := inv.exclusive.of_sameEntries inv.coherent applied.same
      waiting := ?_
      hint := ?_
      order := ?_ }
  · rw [applied.same.free (valid.inFat (by omega)), applied.same.free (valid.inFat (by omega))]
    exact inv.reserved
  · rintro _ ⟨rfl⟩
    rw [applied.same.free (applied.isCluster.inFat valid), applied.same.esb]
    exact ⟨applied.isCluster, applied.isFree⟩
  · intro more
    rcases applied.next more with ⟨ne, hintFree, _⟩
    exact ⟨hintFree, fun isHint => ne (Option.some.inj isHint).symm⟩
  · rintro _ ⟨rfl⟩ more
    rcases applied.next more with ⟨_, _, _, found, _⟩
    rw [applied.same.esb]
    have inFat : ∀ k < s.vol.esb.totalDatClst, s.vol.esb.InFat k := fun k lt =>
      valid.inFat (by omega)
    exact ⟨found.lt, (applied.same.free (inFat _ found.lt)).mpr found.isFree,
      fun k lt earlier isFree =>
        found.before k lt earlier ((applied.same.free (inFat k lt)).mp isFree)⟩

theorem inv_link (inv : s.Inv) {newClst : ℕ} (isPending : s.pending = some newClst) :
    Inv
      { vol := s.vol.writeFat newClst endOfChain
        files := s.files ++ [[newClst]]
        pending := none } := by
  have valid := inv.coherent.layout
  have covered := valid.covers
  rcases inv.waiting newClst isPending with ⟨isCluster, isFree⟩
  have fits : endOfChain < 4294967296 := by decide
  rcases Volume.writeFat_spec inv.coherent (isCluster.inFat valid) fits with
    ⟨coherent', esb', info', fault', entry', _⟩
  have free' : ∀ clst, s.vol.esb.InFat clst →
      ((s.vol.writeFat newClst endOfChain).Free clst ↔ s.vol.Free clst ∧ clst ≠ newClst) := by
    intro clst inFat
    unfold Volume.Free
    rw [entry' clst inFat]
    split <;> simp_all
  refine
    { coherent := coherent'
      reliable := ?_
      reserved := ?_
      exclusive := ?_
      waiting := by simp
      hint := ?_
      order := by simp }
  · intro k id _
    rw [fault']
    exact inv.reliable k id trivial
  · rw [free' 0 (valid.inFat (by omega)), free' 1 (valid.inFat (by omega))]
    exact ⟨fun both => inv.reserved.1 both.1, fun both => inv.reserved.2 both.1⟩
  · exact inv.exclusive.begin inv.coherent isCluster isFree
  · intro more
    rw [info'] at more ⊢
    rcases inv.hint more with ⟨⟨hintIn, hintFree⟩, notPending⟩
    refine ⟨⟨?_, ?_⟩, by simp⟩
    · rw [esb', info']
      exact hintIn
    · rw [info', free' _ (hintIn.inFat valid)]
      exact ⟨hintFree, fun isHint => notPending (isHint ▸ isPending)⟩

theorem inv_delete (inv : s.Inv) (idle : s.pending = none) {file : ℕ} {clsts : List ℕ}
    (isFile : s.files[file]? = some clsts)
    (guarded : s.vol.HintFree ∨ ∃ clst ∈ clsts, clst ≤ s.vol.info.nextFreeClst) :
    Inv { s with vol := s.vol.retakeAll clsts, files := s.files.eraseIdx file } := by
  have valid := inv.coherent.layout
  have covered := valid.covers
  rcases (inv.exclusive.split isFile).1 with ⟨_, chain⟩
  rcases Volume.retakeAll_spec inv.coherent chain.clusters with
    ⟨coherent', esb', fault', hint', entry'⟩
  have reservedKept : ∀ clst < 2, ¬s.vol.Free clst → ¬(s.vol.retakeAll clsts).Free clst := by
    intro clst below used
    have notMem : clst ∉ clsts := fun mem => by
      have above := (chain.clusters clst mem).1
      omega
    unfold Volume.Free at used ⊢
    rw [entry' clst (valid.inFat (by omega)), if_neg notMem]
    exact used
  refine
    { coherent := coherent'
      reliable := ?_
      reserved := ⟨reservedKept 0 (by decide) inv.reserved.1,
        reservedKept 1 (by decide) inv.reserved.2⟩
      exclusive := inv.exclusive.delete inv.coherent isFile
      waiting := by simp [idle]
      hint := ?_
      order := by simp [idle] }
  · intro k id _
    rw [fault']
    exact inv.reliable k id trivial
  · intro _
    refine ⟨?_, by simp [idle]⟩
    unfold Volume.HintFree Volume.Free
    rcases hint' with released | ⟨kept, above⟩
    · have isCluster := chain.clusters _ released
      rw [entry' _ (isCluster.inFat valid), if_pos released, esb']
      exact ⟨isCluster, rfl⟩
    · rcases guarded with hintFree | ⟨clst, mem, notAbove⟩
      · rw [kept, esb', entry' _ (hintFree.1.inFat valid)]
        refine ⟨hintFree.1, ?_⟩
        split
        · rfl
        · exact hintFree.2
      · exact absurd (above clst mem) (by omega)

/-- Each action that keeps the hint good keeps the invariant. -/
theorem inv_step (inv : s.Inv) {op : ClusterOp} (keeps : s.KeepsHint op) {s' : Allocator}
    (stepped : step fuel s op = some s') : s'.Inv := by
  cases op with
  | extend file =>
      simp only [step, Option.bind_eq_bind, Option.bind_eq_some_iff] at stepped
      rcases stepped with ⟨clsts, isFile, last, isLast, ⟨newClst, vol'⟩, applied, result⟩
      split at result
      · rename_i failed
        change newClst = minusOne32 at failed
        subst failed
        rcases applyFat_failed inv applied with rfl
        rcases Option.some.inj result with rfl
        exact inv
      · rename_i handedOut
        rcases Option.some.inj result with rfl
        exact inv_extend inv isFile isLast (applied_of_applyFat inv keeps applied handedOut)
  | begin =>
      simp only [step, Option.bind_eq_bind] at stepped
      split at stepped
      · simp at stepped
      · rcases Option.bind_eq_some_iff.mp stepped with ⟨⟨newClst, vol'⟩, applied, result⟩
        simp only at result
        split at result
        · rename_i failed
          change newClst = minusOne32 at failed
          subst failed
          rcases applyFat_failed inv applied with rfl
          rcases Option.some.inj result with rfl
          exact inv
        · rename_i handedOut
          rcases Option.some.inj result with rfl
          exact inv_begin inv (applied_of_applyFat inv keeps applied handedOut)
  | link =>
      simp only [step, Option.bind_eq_bind, Option.bind_eq_some_iff] at stepped
      rcases stepped with ⟨newClst, isPending, result⟩
      rcases Option.some.inj result with rfl
      exact inv_link inv isPending
  | abandon =>
      rcases Option.some.inj stepped with rfl
      exact
        { coherent := inv.coherent
          reliable := inv.reliable
          reserved := inv.reserved
          exclusive := inv.exclusive
          waiting := by simp
          hint := fun more => ⟨(inv.hint more).1, by simp⟩
          order := by simp }
  | delete file =>
      simp only [step, Option.bind_eq_bind] at stepped
      split at stepped
      · simp at stepped
      · rename_i idle
        rcases Option.bind_eq_some_iff.mp stepped with ⟨clsts, isFile, result⟩
        rcases Option.some.inj result with rfl
        refine inv_delete inv (by simpa using idle) isFile ?_
        rcases keeps with hintFree | ⟨_, isSame, lower⟩
        · exact Or.inl hintFree
        · rw [isFile] at isSame
          rcases Option.some.inj isSame with rfl
          exact Or.inr lower

end Steps

/--
Cluster ownership is exclusive on every run whose steps keep the hint good: the files stay
disjoint chains on the card, and `apply_fat` only returns clusters with entry 0.
-/
theorem exclusive_of_reach {fuel : ℕ} {s : Allocator}
    (reached : GuardedReach (step fuel) KeepsHint Start s) :
    Exclusive s.vol s.files ∧ ∀ newClst vol', s.vol.applyFat fuel = some (newClst, vol') →
      newClst ≠ minusOne32 → vol'.Free newClst := by
  have inv : s.Inv := reached.invariant (fun _ start => start.inv)
    fun _ _ _ inv keeps stepped => inv_step inv keeps stepped
  refine ⟨inv.exclusive, fun newClst vol' applied handedOut => ?_⟩
  rcases applyFat_free inv applied handedOut with ⟨isHint, hintFree, _, _, same, _⟩
  rw [isHint, same.free (hintFree.1.inFat inv.coherent.layout)]
  exact hintFree.2

/-! ## A hint that goes stale -/

/-- Three files and one free cluster, 3, which is the hint. -/
def oneFreeCluster : Allocator where
  vol := Volume.ofTable fiveClusters
    (fun clst => if clst = 3 then 0 else if clst = 5 then 6 else endOfChain) 1 3
  files := [[2], [4], [5, 6]]
  pending := none

theorem oneFreeCluster_start : oneFreeCluster.Start := by
  have entry : ∀ clst < 128, oneFreeCluster.vol.entry clst =
      if clst = 3 then 0 else if clst = 5 then 6 else endOfChain := fun clst lt =>
    Volume.ofTable_entry fiveClusters_valid lt (by split_ifs <;> decide)
  have ends : ∀ clst < 128, clst ≠ 3 → clst ≠ 5 →
      oneFreeCluster.vol.entry clst = endOfChain := fun clst lt ne3 ne5 => by
    rw [entry clst lt, if_neg ne3, if_neg ne5]
  have isCluster : ∀ clst, 2 ≤ clst → clst < 7 → oneFreeCluster.vol.esb.IsCluster clst :=
    fun clst lower upper => ⟨lower, upper⟩
  refine
    { coherent := Volume.ofTable_coherent fiveClusters_valid
      reliable := Volume.ofTable_reliable
      reserved := ?_
      hint := by decide +kernel
      count := by decide +kernel
      exclusive := ⟨?_, by simp [oneFreeCluster]⟩
      idle := rfl }
  · unfold Volume.Free
    rw [ends 0 (by decide) (by decide) (by decide), ends 1 (by decide) (by decide) (by decide)]
    decide
  · intro clsts mem
    have files : clsts = [2] ∨ clsts = [4] ∨ clsts = [5, 6] := by
      simpa [oneFreeCluster] using mem
    rcases files with rfl | rfl | rfl
    · exact ⟨2, .last (ends 2 (by decide) (by decide) (by decide)),
        by simpa using isCluster 2 (by decide) (by decide)⟩
    · exact ⟨4, .last (ends 4 (by decide) (by decide) (by decide)),
        by simpa using isCluster 4 (by decide) (by decide)⟩
    · have next : oneFreeCluster.vol.entry 5 = 6 := entry 5 (by decide)
      refine ⟨5, .link (by rw [next]; decide) ?_, ?_⟩
      · rw [next]
        exact .last (ends 6 (by decide) (by decide) (by decide))
      · simpa using ⟨isCluster 5 (by decide) (by decide), isCluster 6 (by decide) (by decide)⟩

/-- A file that takes the last free cluster keeps the files exclusive. -/
theorem exclusive_of_reach_oneFreeCluster :
    ∃ s, step 8 oneFreeCluster (.extend 0) = some s ∧ Exclusive s.vol s.files := by
  have runs : (step 8 oneFreeCluster (.extend 0)).isSome := by decide +kernel
  rcases Option.isSome_iff_exists.mp runs with ⟨s, stepped⟩
  have keeps : oneFreeCluster.KeepsHint (.extend 0) := Or.inl (by decide +kernel)
  exact ⟨s, stepped, (exclusive_of_reach (.step (.start oneFreeCluster_start) keeps stepped)).1⟩

/--
The first file takes cluster 3, the last free one, and FSINFO goes on naming it. Deleting the
file of cluster 4 makes the count positive again, and `apply_fat` hands out cluster 3, which
ends the chain of the first file.
-/
theorem not_free_of_reach :
    ¬∀ (fuel : ℕ) (s : Allocator), Reach (step fuel) Start s →
      ∀ newClst vol', s.vol.applyFat fuel = some (newClst, vol') → newClst ≠ minusOne32 →
        vol'.Free newClst := by
  intro always
  have outcome : ((run (step 8) oneFreeCluster [.extend 0, .delete 1]).bind fun s =>
      (s.vol.applyFat 8).map fun (newClst, vol') => (newClst, vol'.entry newClst)) =
        some (3, endOfChain) := by decide +kernel
  rcases Option.bind_eq_some_iff.mp outcome with ⟨s, ran, applied⟩
  rcases Option.map_eq_some_iff.mp applied with ⟨⟨newClst, vol'⟩, applied, result⟩
  simp only [Prod.mk.injEq] at result
  have reached := reach_of_run (.start oneFreeCluster_start) ran
  have isFree := always 8 s reached newClst vol' applied (by rw [result.1]; decide)
  unfold Volume.Free at isFree
  rw [result.2] at isFree
  exact absurd isFree (by decide)

end Allocator

end Ninix.Fat32
