import Ninix.Fat32.Ownership

/-!
# The range of the search for a free cluster

The clusters of a volume are numbered from 2, and `apply_fat` looks at the entries from 0 up to
`total_dat_clst - 1`: at two that belong to no cluster, and not at those of the last two
clusters.
-/

namespace Ninix.Fat32

open CyclicScan

namespace Volume

/-- What is expected of `apply_fat` when it hands out a cluster: it returns, and when another
cluster is free the hint names a free cluster other than the one returned. -/
structure UsesVolume (vol : Volume) : Prop where
  terminates : ∃ fuel, (vol.applyFat fuel).isSome
  another : (∃ clst, vol.esb.IsCluster clst ∧ vol.Free clst ∧ clst ≠ vol.info.nextFreeClst) →
    ∀ fuel clst vol', vol.applyFat fuel = some (clst, vol') →
      vol'.esb.IsCluster vol'.info.nextFreeClst ∧ vol'.Free vol'.info.nextFreeClst ∧
        vol'.info.nextFreeClst ≠ clst

/-- An entry that the search looks at is 0; and when a cluster other than the one the hint names is
free, one behind the hint is that the search comes to, or the entries 0 and 1 are not 0 and one in
front of the hint is. -/
structure FreeInRange (vol : Volume) : Prop where
  inRange : ∃ clst < vol.esb.totalDatClst, vol.Free clst
  another : (∃ clst, vol.esb.IsCluster clst ∧ vol.Free clst ∧ clst ≠ vol.info.nextFreeClst) →
    (∃ clst, vol.info.nextFreeClst < clst ∧ clst < vol.esb.totalDatClst ∧ vol.Free clst) ∨
      (¬vol.Free 0 ∧ ¬vol.Free 1 ∧ ∃ clst, 2 ≤ clst ∧ clst < vol.info.nextFreeClst ∧
        clst < vol.esb.totalDatClst ∧ vol.Free clst)

section

variable {vol : Volume}

/-- A call that returns has come to a free entry. -/
theorem exists_free_of_applyFat (coherent : vol.Coherent) (positive : 0 < vol.esb.totalDatClst)
    (someFree : vol.info.freeClsts ≠ 0) {fuel : ℕ} (returns : (vol.applyFat fuel).isSome) :
    ∃ clst < vol.esb.totalDatClst, vol.Free clst := by
  rcases Option.isSome_iff_exists.mp returns with ⟨⟨clst, vol'⟩, applied⟩
  rcases applyFat_cases coherent applied with ⟨noneFree, _⟩ | ⟨_, _, _, _, _, _, found⟩
  · exact absurd noneFree someFree
  · exact ⟨_, (found positive).lt, (found positive).isFree⟩

/-- What a call stores in the hint: the first free entry from behind the cluster it returns. -/
theorem applyFat_found (coherent : vol.Coherent) (reliable : vol.disk.Reliable)
    (someFree : vol.info.freeClsts ≠ 0) (isCluster : vol.esb.IsCluster vol.info.nextFreeClst)
    {fuel clst : ℕ} {vol' : Volume} (applied : vol.applyFat fuel = some (clst, vol')) :
    clst = vol.info.nextFreeClst ∧ SameEntries vol vol' ∧
      FirstFrom vol.Free vol.esb.totalDatClst (vol.info.nextFreeClst + 1)
        vol'.info.nextFreeClst := by
  have positive : 0 < vol.esb.totalDatClst := by
    unfold ExtSb.IsCluster at isCluster
    omega
  have small := isCluster.lt coherent.layout
  rcases applyFat_cases coherent applied with ⟨noneFree, _⟩ | ⟨_, _, same, _, _, handed, found⟩
  · exact absurd noneFree someFree
  · have first := found positive
    rw [u32_of_lt (by omega)] at first
    exact ⟨handed reliable, same, first⟩

/--
`apply_fat` uses the volume exactly when a free cluster is in its range, and another one where
there is one.
-/
theorem usesVolume_iff (coherent : vol.Coherent) (reliable : vol.disk.Reliable)
    (someFree : vol.info.freeClsts ≠ 0) (isCluster : vol.esb.IsCluster vol.info.nextFreeClst) :
    UsesVolume vol ↔ FreeInRange vol := by
  have positive : 0 < vol.esb.totalDatClst := by
    unfold ExtSb.IsCluster at isCluster
    omega
  constructor
  · rintro ⟨⟨fuel, returns⟩, another⟩
    refine ⟨exists_free_of_applyFat coherent positive someFree returns, fun isOther => ?_⟩
    rcases Option.isSome_iff_exists.mp returns with ⟨⟨clst, vol'⟩, applied⟩
    rcases applyFat_found coherent reliable someFree isCluster applied with ⟨rfl, same, found⟩
    rcases another isOther fuel _ vol' applied with ⟨hitCluster, _, differs⟩
    generalize vol'.info.nextFreeClst = hit at found hitCluster differs
    by_cases isBehind : vol.info.nextFreeClst < hit
    · exact Or.inl ⟨hit, isBehind, found.lt, found.isFree⟩
    · have startedOver := Nat.le_of_not_lt isBehind
      have lower := hitCluster.1
      have lt := found.lt
      refine Or.inr ⟨fun isFree => ?_, fun isFree => ?_, hit, lower, by omega, lt, found.isFree⟩
      · have := found.least positive isFree startedOver
        omega
      · have := found.least (show 1 < _ by omega) isFree startedOver
        omega
  · rintro ⟨⟨clst, lt, isFree⟩, another⟩
    refine ⟨⟨_, applyFat_isSome coherent lt isFree le_rfl⟩, ?_⟩
    intro isOther fuel clst vol' applied
    rcases applyFat_found coherent reliable someFree isCluster applied with ⟨rfl, same, found⟩
    have hitLt := found.lt
    have lower := isCluster.1
    have inFat := coherent.layout.inFat (show vol'.info.nextFreeClst < _ by omega)
    rw [same.esb]
    refine ⟨?_, (same.free inFat).mpr found.isFree, ?_⟩
    all_goals
      generalize vol'.info.nextFreeClst = hit at found hitLt
      rcases another isOther with
        ⟨k, isBehind, kLt, kFree⟩ | ⟨notZero, notOne, k, kLower, kUpper, kLt, kFree⟩
    · have := found.behind kLt kFree isBehind
      exact ⟨by omega, by omega⟩
    · have neZero : hit ≠ 0 := fun eq => notZero (eq ▸ found.isFree)
      have neOne : hit ≠ 1 := fun eq => notOne (eq ▸ found.isFree)
      exact ⟨by omega, by omega⟩
    · have := found.behind kLt kFree isBehind
      omega
    · rintro rfl
      have := found.least kLt kFree le_rfl
      omega

end

/-- The search uses the volume with one file of one cluster. -/
theorem usesVolume_iff_oneFile : UsesVolume oneFile := by
  have third : oneFile.Free 3 := ofTable_entry fiveClusters_valid (by decide) (by decide)
  have fourth : oneFile.Free 4 := ofTable_entry fiveClusters_valid (by decide) (by decide)
  refine (usesVolume_iff (ofTable_coherent fiveClusters_valid) ofTable_reliable (by decide)
    (by decide)).mpr ⟨⟨3, by decide, third⟩, fun _ => ?_⟩
  exact Or.inl ⟨4, by decide, by decide, fourth⟩

/-- A volume of which the clusters 4 and 6 are free, and the hint names cluster 4. -/
def lastFree : Volume :=
  ofTable fiveClusters (fun clst => if clst = 4 ∨ clst = 6 then 0 else endOfChain) 2 4

/-- The last cluster of a volume is not found: the cluster that is handed out is named again. -/
theorem not_usesVolume_lastFree : ¬∀ vol : Volume, vol.Coherent → vol.disk.Reliable →
    1 ≤ vol.info.freeClsts → vol.info.freeClsts = vol.countFree → vol.HintFree →
      UsesVolume vol := by
  intro always
  have coherent : lastFree.Coherent := ofTable_coherent fiveClusters_valid
  have uses := always lastFree coherent ofTable_reliable (by decide) (by decide +kernel)
    (by decide +kernel)
  have isFree : lastFree.Free 6 := ofTable_entry fiveClusters_valid (by decide) (by decide)
  have runs : (lastFree.applyFat 8).map (fun result => (result.1, result.2.info.nextFreeClst)) =
      some (4, 4) := by decide +kernel
  rcases Option.map_eq_some_iff.mp runs with ⟨⟨clst, vol'⟩, applied, eq⟩
  simp only [Prod.mk.injEq] at eq
  have another := uses.another ⟨6, by decide, isFree, by decide⟩ 8 clst vol' applied
  exact another.2.2 (eq.2.trans eq.1.symm)

end Volume

end Ninix.Fat32
