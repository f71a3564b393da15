import Ninix.Fat32.Allocation

/-!
# Cluster chains

A file is the chain of clusters that the table threads from its first cluster to the end mark.
Every cluster of a chain has a non-zero entry, so marking a free cluster never touches a chain,
and a chain changes only when its own clusters are linked or released.
-/

namespace Ninix.Fat32

open LinkedChain

/-- The chain of data clusters the table threads from `head` to the end mark. -/
structure IsChain (vol : Volume) (head : ℕ) (clsts : List ℕ) : Prop where
  follows : Follows vol.entry endOfChain head clsts
  clusters : ∀ clst ∈ clsts, vol.esb.IsCluster clst

namespace IsChain

variable {vol vol' : Volume} {head : ℕ} {clsts : List ℕ}

/-- The clusters of a chain are in use. -/
theorem not_free (chain : IsChain vol head clsts) {clst : ℕ} (mem : clst ∈ clsts) :
    ¬vol.Free clst := by
  intro isFree
  unfold Volume.Free at isFree
  by_cases ends : vol.entry clst = endOfChain
  · rw [ends] at isFree
    exact absurd isFree (by decide)
  · have inside := chain.clusters _ (chain.follows.next_mem mem ends)
    rw [isFree] at inside
    exact absurd inside.1 (by decide)

/-- A chain depends on the entries of its own clusters only. -/
theorem congr (chain : IsChain vol head clsts) (esb : vol'.esb = vol.esb)
    (agree : ∀ clst ∈ clsts, vol'.entry clst = vol.entry clst) : IsChain vol' head clsts :=
  ⟨chain.follows.congr agree, esb ▸ chain.clusters⟩

theorem of_sameEntries (chain : IsChain vol head clsts) (coherent : vol.Coherent)
    (same : vol.SameEntries vol') : IsChain vol' head clsts :=
  chain.congr same.esb fun clst mem =>
    same.entry clst ((chain.clusters clst mem).inFat coherent.layout)

theorem exists_last (chain : IsChain vol head clsts) : ∃ last, clsts.getLast? = some last :=
  Option.isSome_iff_exists.mp (List.getLast?_isSome.mpr chain.follows.ne_nil)

theorem lt_endOfChain (chain : IsChain vol head clsts) (coherent : vol.Coherent) {clst : ℕ}
    (mem : clst ∈ clsts) : clst < endOfChain :=
  (chain.clusters clst mem).lt coherent.layout

end IsChain

namespace Volume

/-- The entries after a new cluster has been linked behind the last one of a chain. -/
theorem linkCluster_spec {vol : Volume} (coherent : vol.Coherent) {last newClst : ℕ}
    (lastIn : vol.esb.IsCluster last) (newIn : vol.esb.IsCluster newClst) :
    (vol.linkCluster last newClst).Coherent ∧ (vol.linkCluster last newClst).esb = vol.esb ∧
      (vol.linkCluster last newClst).info = vol.info ∧
      (vol.linkCluster last newClst).disk.fault = vol.disk.fault ∧
      ∀ other, vol.esb.InFat other → (vol.linkCluster last newClst).entry other =
        if other = newClst then endOfChain
        else if other = last then newClst else vol.entry other := by
  have small := newIn.lt coherent.layout
  have fits : newClst < 4294967296 := by omega
  rcases writeFat_spec coherent (lastIn.inFat coherent.layout) fits with
    ⟨coherentMid, esbMid, infoMid, faultMid, entryMid, _⟩
  have newMid : (vol.writeFat last newClst).esb.InFat newClst := by
    rw [esbMid]
    exact newIn.inFat coherent.layout
  have fitsEnd : endOfChain < 4294967296 := by decide
  rcases writeFat_spec coherentMid newMid fitsEnd with
    ⟨coherentEnd, esbEnd, infoEnd, faultEnd, entryEnd, _⟩
  refine ⟨coherentEnd, esbEnd.trans esbMid, infoEnd.trans infoMid, faultEnd.trans faultMid, ?_⟩
  intro other inFat
  unfold linkCluster
  rw [entryEnd other (esbMid ▸ inFat), entryMid other inFat]

/-- `retake_fat` frees the cluster and lowers the hint to it. -/
theorem retakeFat_spec {vol : Volume} (coherent : vol.Coherent) {clst : ℕ}
    (isCluster : vol.esb.IsCluster clst) :
    (vol.retakeFat clst).Coherent ∧ (vol.retakeFat clst).esb = vol.esb ∧
      (vol.retakeFat clst).disk.fault = vol.disk.fault ∧
      (vol.retakeFat clst).info.nextFreeClst = min clst vol.info.nextFreeClst ∧
      ∀ other, vol.esb.InFat other → (vol.retakeFat clst).entry other =
        if other = clst then 0 else vol.entry other := by
  have small := isCluster.lt coherent.layout
  unfold retakeFat
  simp only
  generalize infoEq : (if clst <
      (vol.info.setFreeClsts (u32 (vol.info.freeClsts + 1))).nextFreeClst then
      (vol.info.setFreeClsts (u32 (vol.info.freeClsts + 1))).setNextFreeClst clst
    else vol.info.setFreeClsts (u32 (vol.info.freeClsts + 1))) = info
  have marked : ({ vol with info } : Volume).Coherent ∧ SameEntries vol { vol with info } :=
    coherent.of_fatSectors rfl rfl rfl fun _ _ => rfl
  rcases writeFsinfo_spec marked.1 with ⟨coherentMid, sameMid, infoMid, _⟩
  have same := marked.2.trans sameMid
  have inFatMid := isCluster.inFat coherent.layout
  rw [← same.esb] at inFatMid
  rcases writeFat_spec coherentMid inFatMid (show 0 < 4294967296 by decide) with
    ⟨coherentEnd, esbEnd, infoEnd, faultEnd, entryEnd, _⟩
  refine ⟨coherentEnd, esbEnd.trans same.esb, faultEnd.trans same.fault, ?_, ?_⟩
  · rw [infoEnd, infoMid, ← infoEq]
    simp only [Fsinfo.nextFreeClst_setFreeClsts]
    split
    · rename_i lower
      rw [Fsinfo.nextFreeClst_setNextFreeClst, u32_of_lt (by omega)]
      omega
    · rename_i notLower
      rw [Fsinfo.nextFreeClst_setFreeClsts]
      omega
  · intro other inFat
    rw [entryEnd other (same.esb ▸ inFat), same.entry other inFat]

theorem retakeAll_cons (vol : Volume) (clst : ℕ) (clsts : List ℕ) :
    vol.retakeAll (clst :: clsts) = (vol.retakeFat clst).retakeAll clsts := rfl

/-- Releasing clusters frees them, leaves every other entry and lowers the hint to the least. -/
theorem retakeAll_spec {vol : Volume} (coherent : vol.Coherent) {clsts : List ℕ}
    (clusters : ∀ clst ∈ clsts, vol.esb.IsCluster clst) :
    (vol.retakeAll clsts).Coherent ∧ (vol.retakeAll clsts).esb = vol.esb ∧
      (vol.retakeAll clsts).disk.fault = vol.disk.fault ∧
      ((vol.retakeAll clsts).info.nextFreeClst ∈ clsts ∨
        (vol.retakeAll clsts).info.nextFreeClst = vol.info.nextFreeClst ∧
          ∀ clst ∈ clsts, vol.info.nextFreeClst < clst) ∧
      ∀ other, vol.esb.InFat other → (vol.retakeAll clsts).entry other =
        if other ∈ clsts then 0 else vol.entry other := by
  induction clsts generalizing vol with
  | nil => exact ⟨coherent, rfl, rfl, Or.inr ⟨rfl, by simp⟩, by simp [retakeAll]⟩
  | cons clst rest ih =>
      rw [retakeAll_cons]
      rcases retakeFat_spec coherent (clusters clst (by simp)) with
        ⟨coherentMid, esbMid, faultMid, hintMid, entryMid⟩
      generalize vol.retakeFat clst = mid at *
      rcases ih coherentMid (by
          rw [esbMid]
          exact fun other mem => clusters other (List.mem_cons_of_mem _ mem)) with
        ⟨coherentEnd, esbEnd, faultEnd, hintEnd, entryEnd⟩
      refine ⟨coherentEnd, esbEnd.trans esbMid, faultEnd.trans faultMid, ?_, ?_⟩
      · rcases hintEnd with inRest | ⟨kept, above⟩
        · exact Or.inl (List.mem_cons_of_mem _ inRest)
        · rw [hintMid] at kept above
          by_cases lower : clst ≤ vol.info.nextFreeClst
          · rw [min_eq_left lower] at kept
            exact Or.inl (kept ▸ List.mem_cons_self)
          · rw [min_eq_right (by omega)] at kept above
            refine Or.inr ⟨kept, fun other mem => ?_⟩
            rcases List.mem_cons.mp mem with rfl | inRest
            · omega
            · exact above other inRest
      · intro other inFat
        have unfolded := entryEnd other (esbMid ▸ inFat)
        rw [entryMid other inFat] at unfolded
        refine unfolded.trans ?_
        by_cases isFirst : other = clst
        · simp [isFirst]
        · simp [isFirst]

end Volume

namespace IsChain

variable {vol : Volume} {head : ℕ} {clsts : List ℕ}

/-- Linking a free cluster behind the last one makes the chain one cluster longer. -/
theorem link (chain : IsChain vol head clsts) (coherent : vol.Coherent) {last newClst : ℕ}
    (isLast : clsts.getLast? = some last) (isCluster : vol.esb.IsCluster newClst)
    (isFree : vol.Free newClst) :
    IsChain (vol.linkCluster last newClst) head (clsts ++ [newClst]) := by
  have lastIn := chain.clusters last (List.mem_of_getLast? isLast)
  rcases Volume.linkCluster_spec coherent lastIn isCluster with ⟨_, esb, _, _, entry⟩
  have ne : ∀ clst ∈ clsts, clst ≠ newClst := fun clst mem eq => chain.not_free mem (eq ▸ isFree)
  have valid := coherent.layout
  refine ⟨chain.follows.append isLast ?_ ?_ ?_ ?_, ?_⟩
  · intro clst mem notLast
    rw [entry clst ((chain.clusters clst mem).inFat valid), if_neg (ne clst mem),
      if_neg notLast]
  · rw [entry last (lastIn.inFat valid), if_neg (ne last (List.mem_of_getLast? isLast)),
      if_pos rfl]
  · exact (isCluster.lt valid).ne
  · rw [entry newClst (isCluster.inFat valid), if_pos rfl]
  · intro clst mem
    rw [esb]
    rcases List.mem_append.mp mem with old | new
    · exact chain.clusters clst old
    · rcases List.mem_singleton.mp new with rfl
      exact isCluster

/-- Linking a free cluster into one chain leaves the chains beside it alone. -/
theorem link_other (chain : IsChain vol head clsts) (coherent : vol.Coherent)
    {last newClst : ℕ} (notMem : last ∉ clsts) (lastIn : vol.esb.IsCluster last)
    (isCluster : vol.esb.IsCluster newClst) (isFree : vol.Free newClst) :
    IsChain (vol.linkCluster last newClst) head clsts := by
  rcases Volume.linkCluster_spec coherent lastIn isCluster with ⟨_, esb, _, _, entry⟩
  refine chain.congr esb fun clst mem => ?_
  have notNew : clst ≠ newClst := fun eq => chain.not_free mem (eq ▸ isFree)
  have notLast : clst ≠ last := fun eq => notMem (eq ▸ mem)
  rw [entry clst ((chain.clusters clst mem).inFat coherent.layout), if_neg notNew,
    if_neg notLast]

end IsChain

end Ninix.Fat32
