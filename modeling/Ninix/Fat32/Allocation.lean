import Ninix.Fat32.Table
import Ninix.Library.CyclicScan
import Ninix.Library.LinkedChain

/-!
# Allocating and releasing clusters

`apply_fat` hands out the cluster FSINFO names as the next free one, and looks through the table
for the next such name before it returns. `retake_fat` clears an entry of the table and lowers
the name. Between the two, `fat32_create_page` and `fat32_createinode` mark the cluster they were
given with `write_fat`.
-/

namespace Ninix.Fat32

/-- The FAT entry of the last cluster of a file. -/
abbrev endOfChain : ℕ := 0x0fffffff

namespace Volume

/--
The loop of `apply_fat` from cluster `i`, with fuel for the number of clusters it looks at. It
starts over at cluster 0 behind cluster `total_dat_clst - 1`.
-/
def scanFree (vol : Volume) (i : ℕ) : ℕ → Option (ℕ × Volume)
  | 0 => none
  | fuel + 1 =>
      let i := if vol.esb.totalDatClst ≤ i then 0 else i
      match vol.readFat i with
      | (0, vol) => some (i, vol)
      | (_ + 1, vol) => scanFree vol (u32 (i + 1)) fuel

/-- Write the FSINFO sector back. -/
def writeFsinfo (vol : Volume) : ℕ × Volume :=
  let (err, disk) :=
    vol.disk.writeBlock vol.info.buf (u32 (vol.esb.sBase + vol.esb.fsinfoBaseSect)) 1
  (err, { vol with disk })

/-- `apply_fat`, where `none` is a scan that runs out of fuel. -/
def applyFat (fuel : ℕ) (vol : Volume) : Option (ℕ × Volume) :=
  if vol.info.freeClsts = 0 then some (minusOne32, vol)
  else
    let clstNo := vol.info.nextFreeClst
    match vol.scanFree (u32 (clstNo + 1)) fuel with
    | none => none
    | some (i, vol) =>
        let info := (vol.info.setFreeClsts (sub32 vol.info.freeClsts 1)).setNextFreeClst i
        let (err, vol) := { vol with info }.writeFsinfo
        some (if err ≠ 0 then minusOne32 else clstNo, vol)

/-- `retake_fat` -/
def retakeFat (vol : Volume) (clstNo : ℕ) : Volume :=
  let info := vol.info.setFreeClsts (u32 (vol.info.freeClsts + 1))
  let info := if clstNo < info.nextFreeClst then info.setNextFreeClst clstNo else info
  let vol := { vol with info }.writeFsinfo.2
  vol.writeFat clstNo 0

/-- The two entries `fat32_create_page` writes for a new cluster behind the last one. -/
def linkCluster (vol : Volume) (last newClst : ℕ) : Volume :=
  (vol.writeFat last newClst).writeFat newClst endOfChain

/-- The last loop of `fat32_deleteinode`. -/
def retakeAll (vol : Volume) (clsts : List ℕ) : Volume :=
  clsts.foldl retakeFat vol

/-- A cluster with entry 0 is free. -/
def Free (vol : Volume) (clst : ℕ) : Prop := vol.entry clst = 0

instance (vol : Volume) (clst : ℕ) : Decidable (vol.Free clst) :=
  inferInstanceAs (Decidable (_ = _))

theorem SameEntries.free {vol vol' : Volume} (same : SameEntries vol vol') {clst : ℕ}
    (inFat : vol.esb.InFat clst) : vol'.Free clst ↔ vol.Free clst := by
  unfold Free
  rw [same.entry clst inFat]

theorem SameTable.free {vol vol' : Volume} (same : SameTable vol vol') (clst : ℕ) :
    vol'.Free clst ↔ vol.Free clst := by
  unfold Free
  rw [same.entry]

theorem SameEntries.reliable {vol vol' : Volume} (same : SameEntries vol vol')
    (reliable : vol.disk.Reliable) : vol'.disk.Reliable := by
  intro k id _
  rw [same.fault]
  exact reliable k id trivial

/-- Writing FSINFO back leaves the table alone, whether or not the transfer succeeds. -/
theorem writeFsinfo_spec {vol : Volume} (coherent : vol.Coherent) :
    vol.writeFsinfo.2.Coherent ∧ SameEntries vol vol.writeFsinfo.2 ∧
      vol.writeFsinfo.2.info = vol.info ∧ (vol.disk.Reliable → vol.writeFsinfo.1 = 0) := by
  have valid := coherent.layout
  have outside : ¬vol.esb.FatSector (u32 (vol.esb.sBase + vol.esb.fsinfoBaseSect)) := by
    have fsinfo := valid.fsinfo
    have sectors := valid.sectors
    rw [u32_of_lt (by omega)]
    rintro ⟨lower, _⟩
    omega
  have frame : vol.writeFsinfo.2.Coherent ∧ SameEntries vol vol.writeFsinfo.2 := by
    refine coherent.of_fatSectors rfl rfl (Disk.writeBlock_one_fault _ _ _) ?_
    intro id isFat
    exact Disk.writeBlock_one_sector_ne _ _ _ fun eq => outside (eq ▸ isFat)
  refine ⟨frame.1, frame.2, rfl, fun reliable => ?_⟩
  simp [writeFsinfo, Disk.writeBlock_one (reliable.on fun _ => True) trivial]

/-- The scan changes nothing but the loaded sector and stops at the first free cluster. -/
theorem scanFree_spec {vol : Volume} (coherent : vol.Coherent) {start fuel i : ℕ}
    {vol' : Volume} (scanned : vol.scanFree start fuel = some (i, vol')) :
    SameTable vol vol' ∧ vol'.Coherent ∧ (0 < vol.esb.totalDatClst →
      CyclicScan.FirstFrom vol.Free vol.esb.totalDatClst start i) := by
  induction fuel generalizing vol start with
  | zero => simp [scanFree] at scanned
  | succ fuel ih =>
      have below : CyclicScan.wrap vol.esb.totalDatClst start < vol.esb.totalDatClst + 2 := by
        rcases CyclicScan.wrap_cases vol.esb.totalDatClst start with ⟨_, _⟩ | ⟨_, _⟩ <;> omega
      have inFat := coherent.layout.inFat below
      rcases readFat_spec coherent inFat with ⟨read, same, coherent'⟩
      have wrapped : (if vol.esb.totalDatClst ≤ start then 0 else start) =
          CyclicScan.wrap vol.esb.totalDatClst start := rfl
      simp only [scanFree, wrapped] at scanned
      split at scanned
      · rename_i mid isZero
        simp only [Option.some.injEq, Prod.mk.injEq] at scanned
        rcases scanned with ⟨rfl, rfl⟩
        rw [isZero] at read same coherent'
        exact ⟨same, coherent', fun positive => .here positive read.symm⟩
      · rename_i value mid isNonzero
        rw [isNonzero] at read same coherent'
        rcases ih coherent' scanned with ⟨sameRest, coherentRest, found⟩
        refine ⟨same.trans sameRest, coherentRest, fun positive => .pass ?_ ?_⟩
        · unfold Free
          omega
        · have small := inFat
          have entries := coherent.layout.entries
          unfold ExtSb.InFat at small
          rw [same.esb, u32_of_lt (by omega)] at found
          have agrees := found positive
          exact ⟨agrees.lt, (same.free i).mp agrees.isFree, fun k lt earlier isFree =>
            agrees.before k lt earlier ((same.free k).mpr isFree)⟩

/-- The scan ends once it has the fuel to come to a free cluster. -/
theorem scanFree_isSome {vol : Volume} (coherent : vol.Coherent) (start : ℕ) {fuel clst : ℕ}
    (lt : clst < vol.esb.totalDatClst) (isFree : vol.Free clst)
    (enough : CyclicScan.turns vol.esb.totalDatClst start clst < fuel) :
    (vol.scanFree start fuel).isSome := by
  induction fuel generalizing vol start with
  | zero => omega
  | succ fuel ih =>
      have wrapped : (if vol.esb.totalDatClst ≤ start then 0 else start) =
          CyclicScan.wrap vol.esb.totalDatClst start := rfl
      have startLt : CyclicScan.wrap vol.esb.totalDatClst start < vol.esb.totalDatClst := by
        rcases CyclicScan.wrap_cases vol.esb.totalDatClst start with ⟨_, _⟩ | ⟨_, _⟩ <;> omega
      have inFat : vol.esb.InFat (CyclicScan.wrap vol.esb.totalDatClst start) :=
        coherent.layout.inFat (by omega)
      rcases readFat_spec coherent inFat with ⟨read, same, coherent'⟩
      simp only [scanFree, wrapped]
      split
      · rfl
      · rename_i value mid isNonzero
        rw [isNonzero] at read same coherent'
        have ne : clst ≠ CyclicScan.wrap vol.esb.totalDatClst start := by
          rintro rfl
          unfold Free at isFree
          omega
        have entries := coherent.layout.entries
        unfold ExtSb.InFat at inFat
        rw [u32_of_lt (by omega)]
        refine ih coherent' _ (same.esb ▸ lt) ((same.free clst).mpr isFree) ?_
        rw [same.esb]
        have := CyclicScan.turns_pass lt ne
        omega

/-- `apply_fat` returns when it looks at every cluster and one of them is free. -/
theorem applyFat_isSome {vol : Volume} (coherent : vol.Coherent) {fuel clst : ℕ}
    (lt : clst < vol.esb.totalDatClst) (isFree : vol.Free clst)
    (enough : vol.esb.totalDatClst ≤ fuel) : (vol.applyFat fuel).isSome := by
  have scanned := scanFree_isSome coherent (u32 (vol.info.nextFreeClst + 1)) lt isFree
    (lt_of_lt_of_le (CyclicScan.turns_lt _ lt) enough)
  rcases Option.isSome_iff_exists.mp scanned with ⟨found, scanned⟩
  unfold applyFat
  split
  · rfl
  · simp only [scanned, Option.isSome_some]

/--
What a call of `apply_fat` does: without free clusters it fails and changes nothing; otherwise
it moves the hint to the first free cluster behind the old one, whose name it returns.
-/
theorem applyFat_cases {vol : Volume} (coherent : vol.Coherent) {fuel clst : ℕ} {vol' : Volume}
    (applied : vol.applyFat fuel = some (clst, vol')) :
    vol.info.freeClsts = 0 ∧ clst = minusOne32 ∧ vol' = vol ∨
      vol.info.freeClsts ≠ 0 ∧ vol'.Coherent ∧ SameEntries vol vol' ∧
        vol'.info.freeClsts = vol.info.freeClsts - 1 ∧
        (clst = minusOne32 ∨ clst = vol.info.nextFreeClst) ∧
        (vol.disk.Reliable → clst = vol.info.nextFreeClst) ∧
        (0 < vol.esb.totalDatClst → CyclicScan.FirstFrom vol.Free vol.esb.totalDatClst
          (u32 (vol.info.nextFreeClst + 1)) vol'.info.nextFreeClst) := by
  unfold applyFat at applied
  split at applied
  · rename_i noneFree
    simp only [Option.some.injEq, Prod.mk.injEq] at applied
    exact Or.inl ⟨noneFree, applied.1.symm, applied.2.symm⟩
  · rename_i someFree
    right
    simp only at applied
    split at applied
    · simp at applied
    · rename_i i mid scanned
      rcases scanFree_spec coherent scanned with ⟨same, coherent', found⟩
      simp only [Option.some.injEq, Prod.mk.injEq] at applied
      generalize infoEq : (mid.info.setFreeClsts (sub32 mid.info.freeClsts 1)).setNextFreeClst i
        = info at applied
      have marked : ({ mid with info } : Volume).Coherent ∧
          SameEntries mid { mid with info } :=
        coherent'.of_fatSectors rfl rfl rfl fun _ _ => rfl
      rcases writeFsinfo_spec marked.1 with ⟨coherentEnd, sameEnd, infoEnd, noError⟩
      rcases applied with ⟨rfl, rfl⟩
      have small := vol.info.freeClsts_lt
      refine ⟨someFree, coherentEnd, same.sameEntries.trans (marked.2.trans sameEnd),
        ?_, ?_, ?_, ?_⟩
      · rw [infoEnd, ← infoEq, same.info]
        simp only [Fsinfo.freeClsts_setNextFreeClst, Fsinfo.freeClsts_setFreeClsts]
        rw [sub32_of_le (by omega) small, u32_of_lt (by omega)]
      · split
        · exact Or.inl rfl
        · exact Or.inr rfl
      · intro reliable
        rw [if_neg]
        rw [noError ((same.sameEntries.trans marked.2).reliable reliable)]
        simp
      · intro positive
        have hint : i < 4294967296 := by
          have lt := (found positive).lt
          have inFat : vol.esb.InFat i := coherent.layout.inFat (by omega)
          have entries := coherent.layout.entries
          unfold ExtSb.InFat at inFat
          omega
        rw [infoEnd, ← infoEq]
        simp only [Fsinfo.nextFreeClst_setNextFreeClst]
        rw [u32_of_lt hint]
        exact found positive

end Volume

end Ninix.Fat32
