import Ninix.Fat32.Filling

/-!
# Growing a file

`fat32_create_page` adds clusters to the chain on the card and to the array `a_page` at once. The
two agree when the array is the chain from `i_ino`; growing a file keeps the agreement, so that
filling the map afresh finds the same array, as long as there are arrays for its size.
-/

namespace Ninix.Fat32

open Memory

/-! ## Growing a file -/

/-- The last loop of `fat32_create_page` with `left` clusters to go. The new array has `words`
words, and no map is a store outside of it. -/
def createLoop (fuel words : ℕ) (vol : Volume) (aPage : List ℕ) (curCnt : ℕ) :
    ℕ → Option (Option (ℕ × Volume × List ℕ))
  | 0 => some (some (curCnt, vol, aPage))
  | left + 1 =>
      match vol.applyFat fuel with
      | none => none
      | some (newClst, vol) =>
          if newClst = minusOne32 then some (some (curCnt, vol, aPage))
          else if words ≤ aPage.length then some none
          else
            match aPage.getLast? with
            | none => none
            | some last =>
                createLoop fuel words (vol.linkCluster last newClst) (aPage ++ [newClst])
                  (curCnt + 1) left

/--
`fat32_create_page` as long as there is memory. An empty map makes `kmalloc` return 0, as it does
for zero bytes. No result is a scan that runs out of fuel, and no inode in it is a map that is
copied into an array which is too short, or grows out of one.
-/
def createPage (fuel : ℕ) (vol : Volume) (inode : Inode) (cnt : ℕ) :
    Option (Option (ℕ × Volume × Inode)) :=
  let words := mapWords (inode.iBlocks + cnt)
  if inode.iBlocks = 0 then some (some (0, vol, inode))
  else if mapWords inode.iBlocks < inode.iBlocks ∨ words < inode.iBlocks then some none
  else
    (createLoop fuel words vol inode.aPage 0 cnt).map fun created =>
      created.map fun (curCnt, vol, aPage) => (curCnt, vol, { inode with aPage })

/-- `fat32_bmap` -/
def bmap (fuel : ℕ) (vol : Volume) (inode : Inode) (vpn : ℕ) : Option (ℕ × Volume × Inode) :=
  if inode.iBlocks ≤ vpn then
    let cnt := vpn - inode.iBlocks + 1
    match (createPage fuel vol inode cnt).join with
    | none => none
    | some (grown, vol, inode) =>
        if grown ≠ cnt then some (minusOne32, vol, inode)
        else (inode.aPage[vpn]?).map fun clst => (clst, vol, inode)
  else (inode.aPage[vpn]?).map fun clst => (clst, vol, inode)

/-- A condition on the volume at each call of `apply_fat` the loop makes. -/
def AtEachApply (condition : Volume → Prop) (fuel : ℕ) : ℕ → Volume → List ℕ → Prop
  | 0, _, _ => True
  | left + 1, vol, aPage =>
      condition vol ∧ ∀ newClst vol' last, vol.applyFat fuel = some (newClst, vol') →
        newClst ≠ minusOne32 → aPage.getLast? = some last →
        AtEachApply condition fuel left (vol'.linkCluster last newClst) (aPage ++ [newClst])

/-- What `apply_fat` hands out is a cluster of the data area with entry 0. -/
def HandsOutFree (fuel : ℕ) (vol : Volume) : Prop :=
  ∀ newClst vol', vol.applyFat fuel = some (newClst, vol') → newClst ≠ minusOne32 →
    vol.esb.IsCluster newClst ∧ vol'.Free newClst

/-- Whenever the loop is handed out a cluster, the map has fewer than so many. -/
def RoomFor (most fuel : ℕ) : ℕ → Volume → List ℕ → Prop
  | 0, _, _ => True
  | left + 1, vol, aPage =>
      ∀ newClst vol' last, vol.applyFat fuel = some (newClst, vol') → newClst ≠ minusOne32 →
        aPage.getLast? = some last → aPage.length < most ∧
          RoomFor most fuel left (vol'.linkCluster last newClst) (aPage ++ [newClst])

/-- There is no free cluster by FSINFO's count, or one the scan of `apply_fat` can find. -/
def Scannable (vol : Volume) : Prop :=
  vol.info.freeClsts = 0 ∨ ∃ clst < vol.esb.totalDatClst, vol.Free clst

/-- The number of clusters that are handed out when every sector can be transferred: `apply_fat`
takes a hint of all ones, which no cluster has, for a failure. -/
def givenOut (vol : Volume) (cnt : ℕ) : ℕ :=
  if vol.info.nextFreeClst = minusOne32 then 0 else min cnt vol.info.freeClsts

/-- `apply_fat` keeps a volume coherent and its table as it is. -/
theorem applyFat_frame {vol : Volume} (coherent : vol.Coherent) {fuel clst : ℕ} {vol' : Volume}
    (applied : vol.applyFat fuel = some (clst, vol')) :
    vol'.Coherent ∧ vol.SameEntries vol' := by
  rcases Volume.applyFat_cases coherent applied with ⟨_, _, rfl⟩ | ⟨_, coherent', same, _⟩
  · exact ⟨coherent, .refl _⟩
  · exact ⟨coherent', same⟩

section Loop

variable {fuel words : ℕ} {vol : Volume} {head : ℕ} {aPage : List ℕ}

/-- One cluster handed out and linked: the chain has grown and the chains beside it stay. -/
theorem append_spec (coherent : vol.Coherent) (chain : IsChain vol head aPage)
    (handsOut : HandsOutFree fuel vol) {newClst last : ℕ} {vol' : Volume}
    (applied : vol.applyFat fuel = some (newClst, vol')) (handedOut : newClst ≠ minusOne32)
    (isLast : aPage.getLast? = some last) :
    (vol'.linkCluster last newClst).Coherent ∧
      (vol'.linkCluster last newClst).esb = vol.esb ∧
      IsChain (vol'.linkCluster last newClst) head (aPage ++ [newClst]) ∧
      ∀ other clsts, IsChain vol other clsts → (∀ clst ∈ clsts, clst ∉ aPage) →
        IsChain (vol'.linkCluster last newClst) other clsts ∧
          ∀ clst ∈ clsts, clst ∉ aPage ++ [newClst] := by
  rcases applyFat_frame coherent applied with ⟨coherent', same⟩
  have chain' := chain.of_sameEntries coherent same
  rcases handsOut newClst vol' applied handedOut with ⟨isCluster, isFree⟩
  rw [← same.esb] at isCluster
  have lastMem : last ∈ aPage := List.mem_of_getLast? isLast
  have lastIn := chain'.clusters last lastMem
  have linked := Volume.linkCluster_spec coherent' lastIn isCluster
  refine ⟨linked.1, linked.2.1.trans same.esb, chain'.link coherent' isLast isCluster isFree, ?_⟩
  intro other clsts otherChain disjoint
  have other' := otherChain.of_sameEntries coherent same
  refine ⟨other'.link_other coherent' (fun mem => disjoint last mem lastMem) lastIn isCluster
    isFree, ?_⟩
  intro clst mem inNew
  rcases List.mem_append.mp inNew with old | new
  · exact disjoint clst mem old
  · rw [List.mem_singleton.mp new] at mem
    exact other'.not_free mem isFree

/-- A round of the loop that has been handed out a cluster. -/
theorem createLoop_succ {left curCnt newClst last : ℕ} {vol' : Volume}
    (applied : vol.applyFat fuel = some (newClst, vol')) (handedOut : newClst ≠ minusOne32)
    (isLast : aPage.getLast? = some last) :
    createLoop fuel words vol aPage curCnt (left + 1) = if words ≤ aPage.length then some none
      else createLoop fuel words (vol'.linkCluster last newClst) (aPage ++ [newClst]) (curCnt + 1)
        left := by
  simp only [createLoop, applied, if_neg handedOut, isLast]

/-- What a round of the loop does. -/
theorem createLoop_cases {left curCnt : ℕ} {result : Option (ℕ × Volume × List ℕ)}
    (ran : createLoop fuel words vol aPage curCnt (left + 1) = some result) :
    ∃ newClst vol', vol.applyFat fuel = some (newClst, vol') ∧
      ((newClst = minusOne32 ∧ result = some (curCnt, vol', aPage)) ∨
        newClst ≠ minusOne32 ∧ ((words ≤ aPage.length ∧ result = none) ∨
          aPage.length < words ∧ ∃ last, aPage.getLast? = some last ∧
            createLoop fuel words (vol'.linkCluster last newClst) (aPage ++ [newClst])
              (curCnt + 1) left = some result)) := by
  rw [createLoop] at ran
  split at ran
  · cases ran
  rename_i newClst vol' applied
  refine ⟨newClst, vol', applied, ?_⟩
  split at ran
  · rename_i failed
    exact Or.inl ⟨failed, (Option.some.inj ran).symm⟩
  rename_i handedOut
  refine Or.inr ⟨handedOut, ?_⟩
  split at ran
  · rename_i full
    exact Or.inl ⟨full, (Option.some.inj ran).symm⟩
  rename_i notFull
  split at ran
  · cases ran
  · rename_i last isLast
    exact Or.inr ⟨Nat.lt_of_not_le notFull, last, isLast, ran⟩

/-- What the loop has done when it ends within the array, early or not. -/
theorem createLoop_spec {left curCnt : ℕ} (coherent : vol.Coherent)
    (chain : IsChain vol head aPage)
    (handsOut : AtEachApply (HandsOutFree fuel) fuel left vol aPage)
    {curCnt' : ℕ} {vol' : Volume} {aPage' : List ℕ}
    (ran : createLoop fuel words vol aPage curCnt left = some (some (curCnt', vol', aPage'))) :
    vol'.Coherent ∧ vol'.esb = vol.esb ∧ IsChain vol' head aPage' ∧ aPage <+: aPage' ∧
      aPage'.length + curCnt = aPage.length + curCnt' ∧
      ∀ other clsts, IsChain vol other clsts → (∀ clst ∈ clsts, clst ∉ aPage) →
        IsChain vol' other clsts := by
  induction left generalizing vol aPage curCnt with
  | zero =>
      simp only [createLoop, Option.some.injEq, Prod.mk.injEq] at ran
      rcases ran with ⟨rfl, rfl, rfl⟩
      exact ⟨coherent, rfl, chain, List.prefix_rfl, rfl, fun _ _ other _ => other⟩
  | succ left ih =>
      rcases createLoop_cases ran with ⟨newClst, mid, applied, ended⟩
      rcases ended with ⟨_, eq⟩ | ⟨handedOut, ⟨_, eq⟩ | ⟨_, last, isLast, ran⟩⟩
      · rcases applyFat_frame coherent applied with ⟨coherentMid, same⟩
        cases eq
        exact ⟨coherentMid, same.esb, chain.of_sameEntries coherent same, List.prefix_rfl, rfl,
          fun _ _ other _ => other.of_sameEntries coherent same⟩
      · cases eq
      · rcases append_spec coherent chain handsOut.1 applied handedOut isLast with
          ⟨coherentNow, esbNow, chainNow, othersNow⟩
        rcases ih coherentNow chainNow (handsOut.2 newClst mid last applied handedOut isLast) ran
          with ⟨coherentEnd, esbEnd, chainEnd, isPrefix, count, others⟩
        refine ⟨coherentEnd, esbEnd.trans esbNow, chainEnd,
          (List.prefix_append _ _).trans isPrefix, ?_, ?_⟩
        · rw [List.length_append, List.length_singleton] at count
          omega
        · intro other clsts otherChain disjoint
          rcases othersNow other clsts otherChain disjoint with ⟨otherNow, disjointNow⟩
          exact others other clsts otherNow disjointNow

/-- The loop adds no more clusters than it was asked for. -/
theorem createLoop_le {left curCnt : ℕ} {curCnt' : ℕ} {vol' : Volume} {aPage' : List ℕ}
    (ran : createLoop fuel words vol aPage curCnt left = some (some (curCnt', vol', aPage'))) :
    curCnt' ≤ curCnt + left := by
  induction left generalizing vol aPage curCnt with
  | zero =>
      simp only [createLoop, Option.some.injEq, Prod.mk.injEq] at ran
      exact ran.1.ge
  | succ left ih =>
      rcases createLoop_cases ran with ⟨newClst, mid, _, ended⟩
      rcases ended with ⟨_, eq⟩ | ⟨_, ⟨_, eq⟩ | ⟨_, last, _, ran⟩⟩
      · cases eq
        exact Nat.le_add_right _ _
      · cases eq
      · have := ih ran
        omega

/-- The loop drops no cluster of the map. -/
theorem length_le_of_createLoop {left curCnt : ℕ} {curCnt' : ℕ} {vol' : Volume}
    {aPage' : List ℕ}
    (ran : createLoop fuel words vol aPage curCnt left = some (some (curCnt', vol', aPage'))) :
    aPage.length ≤ aPage'.length := by
  induction left generalizing vol aPage curCnt with
  | zero =>
      cases ran
      exact le_rfl
  | succ left ih =>
      rcases createLoop_cases ran with ⟨newClst, mid, _, ended⟩
      rcases ended with ⟨_, eq⟩ | ⟨_, ⟨_, eq⟩ | ⟨_, last, _, ran⟩⟩
      · cases eq
        exact le_rfl
      · cases eq
      · have longer := ih ran
        rw [List.length_append, List.length_singleton] at longer
        exact Nat.le_of_succ_le longer

/-- What is handed out decides whether there is room for the rest. -/
theorem roomFor_succ {most left newClst last : ℕ} {mid : Volume}
    (applied : vol.applyFat fuel = some (newClst, mid)) (handedOut : newClst ≠ minusOne32)
    (isLast : aPage.getLast? = some last) :
    RoomFor most fuel (left + 1) vol aPage ↔ aPage.length < most ∧
      RoomFor most fuel left (mid.linkCluster last newClst) (aPage ++ [newClst]) := by
  constructor
  · exact fun room => room newClst mid last applied handedOut isLast
  · intro room newClst' mid' last' applied' _ isLast'
    rw [applied] at applied'
    rw [isLast] at isLast'
    cases applied'
    cases isLast'
    exact room

/-- The loop stays within the array and ends with at most so many clusters exactly if there is room
for each cluster that it is handed out. -/
theorem createLoop_room {most left curCnt : ℕ} {result : Option (ℕ × Volume × List ℕ)}
    (ran : createLoop fuel words vol aPage curCnt left = some result) (nonempty : aPage ≠ [])
    (fits : aPage.length ≤ most) :
    (∃ curCnt' vol' aPage', result = some (curCnt', vol', aPage') ∧ aPage'.length ≤ most) ↔
      RoomFor (min words most) fuel left vol aPage := by
  induction left generalizing vol aPage curCnt with
  | zero =>
      cases ran
      exact iff_of_true ⟨_, _, _, rfl, fits⟩ trivial
  | succ left ih =>
      have hasLast : aPage.getLast? = some (aPage.getLast nonempty) :=
        List.getLast?_eq_some_getLast nonempty
      rcases createLoop_cases ran with ⟨newClst, mid, applied, ended⟩
      rcases ended with ⟨failed, rfl⟩ | ⟨handedOut, ended⟩
      · refine iff_of_true ⟨_, _, _, rfl, fits⟩ fun newClst' vol' _ applied' handedOut => ?_
        rw [applied] at applied'
        cases applied'
        exact absurd failed handedOut
      rw [roomFor_succ applied handedOut hasLast]
      rcases ended with ⟨full, rfl⟩ | ⟨notFull, last, isLast, ran⟩
      · refine iff_of_false (fun ⟨_, _, _, eq, _⟩ => nomatch eq) fun room => ?_
        exact absurd (lt_min_iff.mp room.1).1 (Nat.not_lt.mpr full)
      · rw [hasLast] at isLast
        cases isLast
        have lenEq : (aPage ++ [newClst]).length = aPage.length + 1 := by simp
        rcases Nat.lt_or_eq_of_le fits with less | isMost
        · rw [ih ran (by simp) (by rw [lenEq]; exact less)]
          exact (and_iff_right (lt_min_iff.mpr ⟨notFull, less⟩)).symm
        · refine iff_of_false ?_ fun room => ?_
          · rintro ⟨curCnt', vol', aPage', rfl, le⟩
            have longer := length_le_of_createLoop ran
            omega
          · exact absurd (lt_min_iff.mp room.1).2 (Nat.not_lt.mpr isMost.ge)

/-- Linking a cluster leaves FSINFO and the transfers that fail. -/
theorem append_frame (coherent : vol.Coherent) (chain : IsChain vol head aPage)
    (handsOut : HandsOutFree fuel vol) {newClst last : ℕ} {vol' : Volume}
    (applied : vol.applyFat fuel = some (newClst, vol')) (handedOut : newClst ≠ minusOne32)
    (isLast : aPage.getLast? = some last) (reliable : vol.disk.Reliable) :
    (vol'.linkCluster last newClst).info = vol'.info ∧
      (vol'.linkCluster last newClst).disk.Reliable := by
  rcases applyFat_frame coherent applied with ⟨coherent', same⟩
  have lastIn := chain.clusters last (List.mem_of_getLast? isLast)
  have newIn := (handsOut newClst vol' applied handedOut).1
  rw [← same.esb] at lastIn newIn
  rcases Volume.linkCluster_spec coherent' lastIn newIn with ⟨_, _, info, fault, _⟩
  refine ⟨info, fun k id _ => ?_⟩
  rw [fault]
  exact same.reliable reliable k id trivial

/-- A cluster that is handed out leaves one less to hand out. -/
theorem givenOut_succ (coherent : vol.Coherent) (handsOut : HandsOutFree fuel vol)
    (reliable : vol.disk.Reliable) {newClst left : ℕ} {mid : Volume}
    (applied : vol.applyFat fuel = some (newClst, mid)) (handedOut : newClst ≠ minusOne32) :
    givenOut vol (left + 1) = givenOut mid left + 1 := by
  rcases Volume.applyFat_cases coherent applied with
    ⟨_, failed, _⟩ | ⟨someFree, _, _, count, _, isHint, found⟩
  · exact absurd failed handedOut
  · have isCluster := (handsOut newClst mid applied handedOut).1
    have inFat := coherent.layout.covers
    have entries := coherent.layout.entries
    unfold ExtSb.IsCluster at isCluster
    have lt := (found (by omega)).lt
    have notHint : vol.info.nextFreeClst ≠ minusOne32 := isHint reliable ▸ handedOut
    have notNext : mid.info.nextFreeClst ≠ minusOne32 := by
      unfold minusOne32
      omega
    rw [givenOut, givenOut, if_neg notHint, if_neg notNext, count]
    omega

/-- Nothing is handed out when the first call fails. -/
theorem givenOut_failed (coherent : vol.Coherent) (reliable : vol.disk.Reliable) {cnt : ℕ}
    {mid : Volume} (applied : vol.applyFat fuel = some (minusOne32, mid)) :
    givenOut vol cnt = 0 := by
  rw [givenOut]
  rcases Volume.applyFat_cases coherent applied with ⟨noneFree, _⟩ | ⟨_, _, _, _, _, isHint, _⟩
  · rw [noneFree, Nat.min_zero, ite_self]
  · rw [if_pos (isHint reliable).symm]

/-- Whether there is room is known before the loop when every sector can be transferred. -/
theorem roomFor_iff {most left curCnt : ℕ} {result : Option (ℕ × Volume × List ℕ)}
    (coherent : vol.Coherent) (reliable : vol.disk.Reliable) (chain : IsChain vol head aPage)
    (handsOut : AtEachApply (HandsOutFree fuel) fuel left vol aPage)
    (ran : createLoop fuel words vol aPage curCnt left = some result)
    (fits : aPage.length ≤ min words most) :
    RoomFor (min words most) fuel left vol aPage ↔
      aPage.length + givenOut vol left ≤ min words most := by
  induction left generalizing vol aPage curCnt with
  | zero =>
      have none : givenOut vol 0 = 0 := by simp [givenOut]
      exact iff_of_true trivial (by rwa [none])
  | succ left ih =>
      rcases createLoop_cases ran with ⟨newClst, mid, applied, ended⟩
      rcases ended with ⟨rfl, _⟩ | ⟨handedOut, ended⟩
      · rw [givenOut_failed coherent reliable applied]
        refine iff_of_true (fun newClst' vol' _ applied' handedOut => ?_) fits
        rw [applied] at applied'
        cases applied'
        exact absurd rfl handedOut
      rcases chain.exists_last with ⟨last, isLast⟩
      rw [roomFor_succ applied handedOut isLast,
        givenOut_succ coherent handsOut.1 reliable applied handedOut]
      rcases Nat.lt_or_eq_of_le fits with less | isMost
      · rcases ended with ⟨full, _⟩ | ⟨_, last', isLast', ran⟩
        · exact absurd (lt_min_iff.mp less).1 (Nat.not_lt.mpr full)
        rw [isLast] at isLast'
        cases isLast'
        rcases append_spec coherent chain handsOut.1 applied handedOut isLast with
          ⟨coherentNow, _, chainNow, _⟩
        rcases append_frame coherent chain handsOut.1 applied handedOut isLast reliable with
          ⟨info, reliableNow⟩
        have lenEq : (aPage ++ [newClst]).length = aPage.length + 1 := by simp
        have given : givenOut (mid.linkCluster last newClst) left = givenOut mid left := by
          rw [givenOut, givenOut, info]
        rw [and_iff_right less, ih coherentNow reliableNow chainNow
          (handsOut.2 newClst mid last applied handedOut isLast) ran (by rw [lenEq]; exact less),
          given, lenEq]
        omega
      · exact iff_of_false (fun room => absurd room.1 (by omega)) (by omega)

/-- A hint that names a free cluster is what `apply_fat` hands out. -/
theorem handsOutFree_of_hint (coherent : vol.Coherent)
    (isCluster : vol.esb.IsCluster vol.info.nextFreeClst)
    (isFree : vol.Free vol.info.nextFreeClst) : HandsOutFree fuel vol := by
  intro newClst vol' applied handedOut
  rcases Volume.applyFat_cases coherent applied with
    ⟨_, failed, _⟩ | ⟨_, _, same, _, returned, _⟩
  · exact absurd failed handedOut
  · rcases returned with failed | rfl
    · exact absurd failed handedOut
    · exact ⟨isCluster, (same.free (isCluster.inFat coherent.layout)).mpr isFree⟩

/-- The loop ends when every scan it makes does. -/
theorem createLoop_isSome {left curCnt : ℕ} (coherent : vol.Coherent)
    (chain : IsChain vol head aPage)
    (handsOut : AtEachApply (HandsOutFree fuel) fuel left vol aPage)
    (scannable : AtEachApply Scannable fuel left vol aPage)
    (enough : vol.esb.totalDatClst ≤ fuel) :
    (createLoop fuel words vol aPage curCnt left).isSome := by
  induction left generalizing vol aPage curCnt with
  | zero => rfl
  | succ left ih =>
      have returns : (vol.applyFat fuel).isSome := by
        rcases scannable.1 with noneFree | ⟨clst, lt, isFree⟩
        · simp [Volume.applyFat, noneFree]
        · exact Volume.applyFat_isSome coherent lt isFree enough
      rcases Option.isSome_iff_exists.mp returns with ⟨⟨newClst, mid⟩, applied⟩
      by_cases handedOut : newClst = minusOne32
      · simp only [createLoop, applied, if_pos handedOut, Option.isSome_some]
      rcases chain.exists_last with ⟨last, isLast⟩
      rw [createLoop_succ applied handedOut isLast]
      split
      · rfl
      · rcases append_spec coherent chain handsOut.1 applied handedOut isLast with
          ⟨coherentNow, esbNow, chainNow, _⟩
        exact ih coherentNow chainNow (handsOut.2 newClst mid last applied handedOut isLast)
          (scannable.2 newClst mid last applied handedOut isLast) (by rw [esbNow]; exact enough)

end Loop

/-! ## Agreement is kept -/

section Agreement

variable {fuel cnt : ℕ} {vol : Volume} {inode : Inode}

/-- With a chain in the map and an array for it, growing a file is the loop. -/
theorem createPage_eq_loop (nonempty : inode.aPage ≠ [])
    (old : inode.iBlocks ≤ mapWords inode.iBlocks)
    (fits : inode.iBlocks ≤ mapWords (inode.iBlocks + cnt)) :
    createPage fuel vol inode cnt =
      (createLoop fuel (mapWords (inode.iBlocks + cnt)) vol inode.aPage 0 cnt).map fun created =>
        created.map fun (curCnt, vol, aPage) => (curCnt, vol, { inode with aPage }) := by
  have notNone : inode.iBlocks ≠ 0 := by simpa [Inode.iBlocks] using nonempty
  rw [createPage, if_neg notNone, if_neg (by omega)]

/-- A growth that returns with a map is one of the loop. -/
theorem createLoop_of_createPage (nonempty : inode.aPage ≠ []) {grown : ℕ} {vol' : Volume}
    {inode' : Inode} (created : createPage fuel vol inode cnt = some (some (grown, vol', inode'))) :
    inode'.iIno = inode.iIno ∧
      createLoop fuel (mapWords (inode.iBlocks + cnt)) vol inode.aPage 0 cnt =
        some (some (grown, vol', inode'.aPage)) := by
  have notNone : inode.iBlocks ≠ 0 := by simpa [Inode.iBlocks] using nonempty
  rw [createPage, if_neg notNone] at created
  split at created
  · cases created
  rcases Option.map_eq_some_iff.mp created with ⟨result, ran, eq⟩
  rcases Option.map_eq_some_iff.mp eq with ⟨⟨_, _, aPage'⟩, rfl, eq⟩
  cases eq
  exact ⟨rfl, ran⟩

/-- What a growth of a file that returns with a map has done. -/
theorem createPage_spec (coherent : vol.Coherent) (agrees : inode.Agrees vol)
    (handsOut : AtEachApply (HandsOutFree fuel) fuel cnt vol inode.aPage)
    {grown : ℕ} {vol' : Volume} {inode' : Inode}
    (created : createPage fuel vol inode cnt = some (some (grown, vol', inode'))) :
    vol'.Coherent ∧ vol'.esb = vol.esb ∧ inode'.Agrees vol' ∧ inode'.iIno = inode.iIno ∧
      inode.aPage <+: inode'.aPage ∧ inode'.iBlocks = inode.iBlocks + grown ∧ grown ≤ cnt ∧
      ∀ head clsts, IsChain vol head clsts → (∀ clst ∈ clsts, clst ∉ inode.aPage) →
        IsChain vol' head clsts := by
  rcases createLoop_of_createPage agrees.follows.ne_nil created with ⟨number, ran⟩
  rcases createLoop_spec coherent agrees handsOut ran with
    ⟨coherent', esb, chain, isPrefix, count, others⟩
  refine ⟨coherent', esb, ?_, number, isPrefix, by simpa [Inode.iBlocks] using count,
    by simpa using createLoop_le ran, others⟩
  rw [Inode.Agrees, number]
  exact chain

/-- What is expected of growing a file: a map that is the chain on the card, with the old map in
front and as many clusters more as are returned, other chains as they were, and a map filled afresh
that is the same. -/
def KeepsMap (vol : Volume) (inode : Inode) : Option (ℕ × Volume × Inode) → Prop
  | none => False
  | some (grown, vol', inode') =>
      inode'.Agrees vol' ∧ inode'.iIno = inode.iIno ∧ inode.aPage <+: inode'.aPage ∧
        inode'.iBlocks = inode.iBlocks + grown ∧
        (∀ head clsts, IsChain vol head clsts → (∀ clst ∈ clsts, clst ∉ inode.aPage) →
          IsChain vol' head clsts) ∧
        ∀ fuel, inode'.iBlocks ≤ fuel →
          ∃ vol'', fillMapping fuel vol' inode.iIno = some (some (vol'', inode'))

/-- There are arrays for the map: the new one holds the old map, the old map is one that can be
filled, and with each cluster that is handed out it stays so and within the new one. -/
structure HasArrays (fuel cnt : ℕ) (vol : Volume) (inode : Inode) : Prop where
  copied : inode.iBlocks ≤ mapWords (inode.iBlocks + cnt)
  small : inode.iBlocks ≤ largestTable
  room : RoomFor (min (mapWords (inode.iBlocks + cnt)) largestTable) fuel cnt vol inode.aPage

/-- Whether there are arrays is known before the call when every sector can be transferred. -/
theorem hasArrays_iff (coherent : vol.Coherent) (reliable : vol.disk.Reliable)
    (agrees : inode.Agrees vol)
    (handsOut : AtEachApply (HandsOutFree fuel) fuel cnt vol inode.aPage)
    {result : Option (ℕ × Volume × Inode)} (created : createPage fuel vol inode cnt = some result) :
    HasArrays fuel cnt vol inode ↔
      inode.iBlocks + givenOut vol cnt ≤
        min (mapWords (inode.iBlocks + cnt)) largestTable := by
  by_cases fits : inode.iBlocks ≤ min (mapWords (inode.iBlocks + cnt)) largestTable
  · rcases le_min_iff.mp fits with ⟨copied, small⟩
    rw [createPage_eq_loop agrees.follows.ne_nil (le_mapWords small) copied] at created
    rcases Option.map_eq_some_iff.mp created with ⟨looped, ran, _⟩
    have room := roomFor_iff coherent reliable agrees handsOut ran fits
    exact ⟨fun arrays => room.mp arrays.room, fun le => ⟨copied, small, room.mpr le⟩⟩
  · exact iff_of_false (fun arrays => fits (le_min arrays.copied arrays.small)) (by omega)

/-- A map that is kept has been in arrays all the time. -/
theorem hasArrays_of_keepsMap (nonempty : inode.aPage ≠ [])
    {result : Option (ℕ × Volume × Inode)} (created : createPage fuel vol inode cnt = some result)
    (keeps : KeepsMap vol inode result) : HasArrays fuel cnt vol inode := by
  rcases result with _ | ⟨grown, vol', inode'⟩
  · cases keeps
  rcases keeps with ⟨_, _, isPrefix, _, _, fills⟩
  rcases fills _ le_rfl with ⟨vol'', filled⟩
  have le := (fillMapping_eq_some filled).1
  have ran := (createLoop_of_createPage nonempty created).2
  have small : inode.iBlocks ≤ largestTable := isPrefix.length_le.trans le
  refine ⟨?_, small, (createLoop_room ran nonempty small).mp ⟨_, _, _, rfl, le⟩⟩
  by_contra tooShort
  rw [createPage, if_neg (by simpa [Inode.iBlocks] using nonempty),
    if_pos (Or.inr (Nat.lt_of_not_le tooShort))] at created
  cases created

/-- Within arrays the map is kept. -/
theorem keepsMap_of_hasArrays (coherent : vol.Coherent) (agrees : inode.Agrees vol)
    (handsOut : AtEachApply (HandsOutFree fuel) fuel cnt vol inode.aPage)
    {result : Option (ℕ × Volume × Inode)} (created : createPage fuel vol inode cnt = some result)
    (arrays : HasArrays fuel cnt vol inode) : KeepsMap vol inode result := by
  have nonempty : inode.aPage ≠ [] := agrees.follows.ne_nil
  have created' := created
  rw [createPage_eq_loop nonempty (le_mapWords arrays.small) arrays.copied] at created'
  rcases Option.map_eq_some_iff.mp created' with ⟨looped, ran, eq⟩
  rcases (createLoop_room ran nonempty arrays.small).mpr arrays.room with
    ⟨curCnt', vol', aPage', rfl, le⟩
  cases eq
  rcases createPage_spec coherent agrees handsOut created with
    ⟨coherent', _, agrees', number, isPrefix, count, _, others⟩
  refine ⟨agrees', number, isPrefix, count, others, fun fuel' enough => ?_⟩
  rcases fillMapping_spec coherent' agrees' le enough with ⟨vol'', filled, _⟩
  exact ⟨vol'', filled⟩

/-- A volume with a file of the one cluster 2, and clusters 3 to 6 free. -/
def oneFile : Volume :=
  Volume.ofTable fiveClusters (fun clst => if clst < 3 then endOfChain else 0) 4 3

/-- A volume without free clusters, on which each cluster is a file. -/
def fullVolume : Volume := Volume.ofTable fiveClusters (fun _ => endOfChain) 0 3

/-- A page is looked up in a map that agrees with the chain. -/
theorem bmap_agrees {vpn : ℕ} (coherent : vol.Coherent) (agrees : inode.Agrees vol)
    (handsOut : AtEachApply (HandsOutFree fuel) fuel (vpn + 1 - inode.iBlocks) vol inode.aPage)
    {clst : ℕ} {vol' : Volume} {inode' : Inode}
    (mapped : bmap fuel vol inode vpn = some (clst, vol', inode')) :
    inode'.Agrees vol' ∧ (clst = minusOne32 ∨ inode'.aPage[vpn]? = some clst) := by
  unfold bmap at mapped
  split at mapped
  · rename_i beyond
    simp only at mapped
    split at mapped
    · simp at mapped
    · rename_i grown mid grownInode created
      rw [show vpn + 1 - inode.iBlocks = vpn - inode.iBlocks + 1 by omega] at handsOut
      have spec := createPage_spec coherent agrees handsOut (Option.join_eq_some_iff.mp created)
      split at mapped
      · simp only [Option.some.injEq, Prod.mk.injEq] at mapped
        rcases mapped with ⟨rfl, rfl, rfl⟩
        exact ⟨spec.2.2.1, Or.inl rfl⟩
      · rcases Option.map_eq_some_iff.mp mapped with ⟨found, lookup, result⟩
        simp only [Prod.mk.injEq] at result
        rcases result with ⟨rfl, rfl, rfl⟩
        exact ⟨spec.2.2.1, Or.inr lookup⟩
  · rcases Option.map_eq_some_iff.mp mapped with ⟨found, lookup, result⟩
    simp only [Prod.mk.injEq] at result
    rcases result with ⟨rfl, rfl, rfl⟩
    exact ⟨agrees, Or.inr lookup⟩

end Agreement

end Ninix.Fat32
