import Ninix.Fat32.Table
import Ninix.Library.Reachability

/-!
# The cached table as an array, and reads that fail

As long as every transfer succeeds, `read_fat` and `write_fat` read and write an array, and the
sectors written are the same in all copies of the table. A read that fails leaves the sector
loaded before in the buffer under the number of the new one; a later write then puts its entries
into the new sector of every copy.
-/

namespace Ninix.Fat32

open ByteBuffer TransitionSystem

/-- A call of one of the two functions. -/
inductive FatOp
  | readFat (clst : ℕ)
  | writeFat (clst value : ℕ)

namespace FatOp

/-- The cluster the call is about. -/
def clst : FatOp → ℕ
  | readFat clst => clst
  | writeFat clst _ => clst

/-- The cluster is in the table, and the value is a `u32`. -/
def Proper (esb : ExtSb) : FatOp → Prop
  | readFat clst => esb.InFat clst
  | writeFat clst value => esb.InFat clst ∧ value < 4294967296

/-- The sector of the table that the call writes. -/
def written : FatOp → Option ℕ
  | readFat _ => none
  | writeFat clst _ => some (clst / 128)

end FatOp

namespace Volume

/-! ## The array -/

/-- The values read by a sequence of calls, and the volume behind them. -/
def runOps : Volume → List FatOp → List ℕ × Volume
  | vol, [] => ([], vol)
  | vol, .readFat clst :: ops =>
      let (value, vol) := vol.readFat clst
      let (values, vol) := vol.runOps ops
      (value :: values, vol)
  | vol, .writeFat clst value :: ops => (vol.writeFat clst value).runOps ops

/-- What the calls do to a plain array. -/
def runArray : (ℕ → ℕ) → List FatOp → List ℕ × (ℕ → ℕ)
  | array, [] => ([], array)
  | array, .readFat clst :: ops =>
      let (values, array') := runArray array ops
      (array clst :: values, array')
  | array, .writeFat clst value :: ops => runArray (Function.update array clst value) ops

/-- The bytes of a sector of the table in one of its copies. -/
def copySector (vol : Volume) (copy sectOff : ℕ) : Bytes :=
  vol.disk.sector (u32 (vol.esb.fatBaseSect copy + sectOff))

/-- A sector of the table is the same in all copies. -/
def Mirrored (vol : Volume) (sectOff : ℕ) : Prop :=
  ∀ copy < vol.esb.totalFats, ∀ k < sectorBytes,
    vol.copySector copy sectOff k = vol.copySector 0 sectOff k

/-- A table of one sector is the same in all copies. -/
theorem ofTable_mirrored {esb : ExtSb} (one : esb.sectsPerFat = 1) (table : ℕ → ℕ)
    (freeClsts nextFreeClst sectOff : ℕ) :
    (ofTable esb table freeClsts nextFreeClst).Mirrored sectOff := by
  intro copy _ k _
  simp only [copySector, ofTable, one, Nat.mod_one]

/-- A sector lies in one place in each copy. -/
theorem copySector_ne {esb : ExtSb} (valid : esb.Valid) {copy other sectOff otherOff : ℕ}
    (lt : copy < esb.totalFats) (otherLt : other < esb.totalFats) (offset : sectOff < esb.sectsPerFat)
    (otherOffset : otherOff < esb.sectsPerFat) (ne : sectOff ≠ otherOff) :
    u32 (esb.fatBaseSect copy + sectOff) ≠ u32 (esb.fatBaseSect other + otherOff) := by
  rw [(fatSector_copy valid copy lt offset).1, (fatSector_copy valid other otherLt otherOffset).1]
  intro same
  rcases lt_trichotomy copy other with before | rfl | behind
  · have := Nat.mul_le_mul_right esb.sectsPerFat (Nat.succ_le_of_lt before)
    rw [Nat.succ_mul] at this
    omega
  · omega
  · have := Nat.mul_le_mul_right esb.sectsPerFat (Nat.succ_le_of_lt behind)
    rw [Nat.succ_mul] at this
    omega

/-- Writing an entry leaves its sector the same in all copies and other sectors alone. -/
theorem writeFat_mirrored {vol : Volume} (coherent : vol.Coherent) {clst value sectOff : ℕ}
    (inFat : vol.esb.InFat clst) (offset : sectOff < vol.esb.sectsPerFat)
    (mirrored : sectOff = clst / 128 ∨ vol.Mirrored sectOff) :
    (vol.writeFat clst value).Mirrored sectOff := by
  rcases cluster_location coherent.layout inFat with ⟨sectOffEq, _, clstOffset⟩
  rcases loadSector_spec coherent clstOffset with ⟨same, coherent', loaded⟩
  simp only [writeFat, sectOffEq, Mirrored, copySector, loaded]
  generalize vol.loadSector (clst / 128) = mid at same coherent' loaded ⊢
  have valid := coherent'.layout
  intro copy lt k inside
  rw [← same.esb] at offset clstOffset
  by_cases here : sectOff = clst / 128
  · rw [here, writeCopies_sector valid clstOffset le_rfl coherent'.reliable lt inside,
      writeCopies_sector valid clstOffset le_rfl coherent'.reliable valid.fats inside]
  · have old := mirrored.resolve_left here copy (same.esb ▸ lt) k inside
    simp only [copySector, ← same.esb, ← same.sector] at old
    rw [writeCopies_sector_of_ne fun other otherLt =>
        copySector_ne valid lt otherLt offset clstOffset here,
      writeCopies_sector_of_ne fun other otherLt =>
        copySector_ne valid valid.fats otherLt offset clstOffset here, old]

theorem SameTable.mirrored {vol vol' : Volume} (same : SameTable vol vol') {sectOff : ℕ}
    (mirrored : vol.Mirrored sectOff) : vol'.Mirrored sectOff := by
  simpa only [Mirrored, copySector, same.esb, same.sector] using mirrored

/-- The calls read and write the array that the entries make up, and sectors that were written
or the same in all copies are so afterwards. -/
theorem runOps_spec {vol : Volume} (coherent : vol.Coherent) {array : ℕ → ℕ}
    (entries : ∀ clst, vol.esb.InFat clst → vol.entry clst = array clst) {ops : List FatOp}
    (proper : ∀ op ∈ ops, op.Proper vol.esb) :
    (vol.runOps ops).1 = (runArray array ops).1 ∧
      (∀ clst, vol.esb.InFat clst → (vol.runOps ops).2.entry clst = (runArray array ops).2 clst) ∧
      ∀ sectOff < vol.esb.sectsPerFat,
        some sectOff ∈ ops.map FatOp.written ∨ vol.Mirrored sectOff →
          (vol.runOps ops).2.Mirrored sectOff := by
  induction ops generalizing vol array with
  | nil => exact ⟨rfl, entries, fun sectOff _ mirrored => mirrored.resolve_left (by simp)⟩
  | cons op ops ih =>
      have here := proper op List.mem_cons_self
      have later : ∀ op ∈ ops, op.Proper vol.esb := fun op mem =>
        proper op (List.mem_cons_of_mem _ mem)
      cases op with
      | readFat clst =>
          rcases readFat_spec coherent here with ⟨value, same, coherent'⟩
          rw [← same.esb] at later
          have entries' : ∀ other, (vol.readFat clst).2.esb.InFat other →
              (vol.readFat clst).2.entry other = array other := fun other inFat => by
            rw [same.entry]
            exact entries other (same.esb ▸ inFat)
          rcases ih coherent' entries' later with ⟨reads, after, mirrored⟩
          rw [same.esb] at after mirrored
          refine ⟨?_, after, fun sectOff offset before => mirrored sectOff offset ?_⟩
          · simp only [runOps, runArray, value, entries clst here, reads]
          · exact before.imp (fun mem => by simpa [FatOp.written] using mem) same.mirrored
      | writeFat clst value =>
          rcases writeFat_spec coherent here.1 here.2 with ⟨coherent', esb, _, _, written, _⟩
          rw [← esb] at later
          have entries' : ∀ other, (vol.writeFat clst value).esb.InFat other →
              (vol.writeFat clst value).entry other = Function.update array clst value other :=
            fun other inFat => by
              rw [esb] at inFat
              rw [written other inFat, Function.update_apply, entries other inFat]
          rcases ih coherent' entries' later with ⟨reads, after, mirrored⟩
          rw [esb] at after mirrored
          refine ⟨reads, after, fun sectOff offset before => mirrored sectOff offset ?_⟩
          simp only [List.map_cons, FatOp.written, List.mem_cons, Option.some.injEq] at before
          rcases before with (now | mem) | old
          · exact Or.inr (writeFat_mirrored coherent here.1 offset (Or.inl now))
          · exact Or.inl mem
          · exact Or.inr (writeFat_mirrored coherent here.1 offset (Or.inr old))

/--
The one-sector cache refines a plain array: on a volume whose loaded sector is the one it claims
to be and whose transfers succeed, a sequence of calls reads what the array has, the entries
afterwards are those of the array, and each sector written is the same in all copies.
-/
theorem runOps_refines {vol : Volume} (coherent : vol.Coherent) {ops : List FatOp}
    (proper : ∀ op ∈ ops, op.Proper vol.esb) :
    (vol.runOps ops).1 = (runArray vol.entry ops).1 ∧
      (∀ clst, vol.esb.InFat clst →
        (vol.runOps ops).2.entry clst = (runArray vol.entry ops).2 clst) ∧
      ∀ op ∈ ops, ∀ sectOff, op.written = some sectOff →
        (vol.runOps ops).2.Mirrored sectOff := by
  rcases runOps_spec coherent (fun _ _ => rfl) proper with ⟨reads, after, mirrored⟩
  refine ⟨reads, after, fun op mem sectOff isWritten => ?_⟩
  cases op with
  | readFat clst => simp [FatOp.written] at isWritten
  | writeFat clst value =>
      simp only [FatOp.written, Option.some.injEq] at isWritten
      subst isWritten
      exact mirrored _ (cluster_location coherent.layout (proper _ mem).1).2.2
        (Or.inl (List.mem_map_of_mem mem))

/-- Entries of two sectors are written, and three are read. -/
theorem runOps_refines_twoSectors :
    let vol := Volume.ofTable twoSectors (fun _ => 0) 5 2
    let ops := [.writeFat 2 7, .writeFat 130 9, .readFat 2, .readFat 130, .readFat 3]
    (vol.runOps ops).1 = [7, 9, 0] ∧ (vol.runOps ops).2.Mirrored 0 ∧
      (vol.runOps ops).2.Mirrored 1 := by
  have refines := @runOps_refines (Volume.ofTable twoSectors (fun _ => 0) 5 2)
    (Volume.ofTable_coherent twoSectors_valid)
    [.writeFat 2 7, .writeFat 130 9, .readFat 2, .readFat 130, .readFat 3]
    (by
      intro op mem
      simp only [List.mem_cons, List.not_mem_nil, or_false] at mem
      rcases mem with rfl | rfl | rfl | rfl | rfl
      · exact ⟨by decide, by decide⟩
      · exact ⟨by decide, by decide⟩
      · exact (by decide : twoSectors.InFat 2)
      · exact (by decide : twoSectors.InFat 130)
      · exact (by decide : twoSectors.InFat 3))
  have original : (Volume.ofTable twoSectors (fun _ => 0) 5 2).entry 3 = 0 :=
    Volume.ofTable_entry twoSectors_valid (by decide) (by decide)
  refine ⟨?_, refines.2.2 _ List.mem_cons_self 0 rfl,
    refines.2.2 _ (List.mem_cons_of_mem _ List.mem_cons_self) 1 rfl⟩
  rw [refines.1]
  simp [runArray, original]

end Volume

/-! ## Reads that fail -/

/-- A volume on which calls have been made, and the value last passed to `write_fat` for each
cluster. -/
structure FatRun where
  vol : Volume
  passed : ℕ → Option ℕ

namespace Volume

/-- The entry of a cluster in one of the copies of the table. -/
def entryIn (vol : Volume) (copy clst : ℕ) : ℕ :=
  read32 (vol.copySector copy (clst / 128)) (4 * (clst % 128))

/-- The writes to the copies of a sector succeed. -/
def WritesSucceed (vol : Volume) (sectOff : ℕ) : Prop :=
  ∀ copy < vol.esb.totalFats,
    vol.disk.fault (vol.disk.transfers + copy) (u32 (vol.esb.fatBaseSect copy + sectOff)) = 0

instance (vol : Volume) (sectOff : ℕ) : Decidable (vol.WritesSucceed sectOff) :=
  inferInstanceAs (Decidable (∀ copy < _, _))

/-- The buffer holds the sector of the table it is said to hold. -/
def Loaded (vol : Volume) : Prop :=
  ∀ k < sectorBytes, vol.table.data k = vol.copySector 0 vol.table.fatSectOff k

end Volume

namespace FatRun

/-- A call on a cluster of the table. Reads of sectors may fail, and writes succeed. -/
def step (run : FatRun) : FatOp → Option FatRun
  | .readFat clst =>
      if run.vol.esb.InFat clst then some { run with vol := (run.vol.readFat clst).2 } else none
  | .writeFat clst value =>
      if run.vol.esb.InFat clst ∧ value < 4294967296 ∧
          (run.vol.loadSector (clst / 128)).WritesSucceed (clst / 128) then
        some ⟨run.vol.writeFat clst value, Function.update run.passed clst (some value)⟩
      else none

theorem step_writeFat {run : FatRun} {clst value : ℕ}
    (proper : run.vol.esb.InFat clst ∧ value < 4294967296 ∧
      (run.vol.loadSector (clst / 128)).WritesSucceed (clst / 128)) :
    run.step (.writeFat clst value) =
      some ⟨run.vol.writeFat clst value, Function.update run.passed clst (some value)⟩ := by
  rw [FatRun.step, if_pos proper]

/-- Nothing has been passed to `write_fat`, and each copy of the table has its entries. -/
structure Start (original : ℕ → ℕ → ℕ) (run : FatRun) : Prop where
  layout : run.vol.esb.Valid
  clean : run.vol.table.dirty = false
  offset : run.vol.table.fatSectOff < run.vol.esb.sectsPerFat
  passed : ∀ clst, run.passed clst = none
  entries : ∀ copy < run.vol.esb.totalFats, ∀ clst, run.vol.esb.InFat clst →
    run.vol.entryIn copy clst = original copy clst

/-- A call of `write_fat` changes a sector that is the same in all copies and is in the buffer:
it was loaded before without a failure, or it is read now and the read succeeds. -/
def Faithful (run : FatRun) : FatOp → Prop
  | .readFat _ => True
  | .writeFat clst _ => run.vol.Mirrored (clst / 128) ∧
      if run.vol.table.fatSectOff = clst / 128 then run.vol.Loaded
      else run.vol.disk.fault run.vol.disk.transfers
        (u32 (run.vol.esb.fatBaseSect 0 + clst / 128)) = 0

end FatRun

namespace Volume

/-- Loading a sector changes nothing on the card, whether or not it can be read. -/
theorem loadSector_frame {vol : Volume} (clean : vol.table.dirty = false) (sectOff : ℕ) :
    (vol.loadSector sectOff).esb = vol.esb ∧
      (vol.loadSector sectOff).disk.sector = vol.disk.sector ∧
      (vol.loadSector sectOff).table.fatSectOff = sectOff ∧
      (vol.loadSector sectOff).table.dirty = false := by
  unfold loadSector
  split
  · simp only [clean, Bool.false_eq_true, if_false]
    exact ⟨trivial, Disk.readBlock_one_sector _ _ _, trivial, trivial⟩
  · rename_i loaded
    exact ⟨rfl, rfl, not_not.mp loaded, clean⟩

/-- Behind a load without a failure the buffer holds the sector. -/
theorem loadSector_loaded {vol : Volume} (clean : vol.table.dirty = false) {sectOff : ℕ}
    (faithful : if vol.table.fatSectOff = sectOff then vol.Loaded
      else vol.disk.fault vol.disk.transfers (u32 (vol.esb.fatBaseSect 0 + sectOff)) = 0) :
    ∀ k < sectorBytes, (vol.loadSector sectOff).table.data k = vol.copySector 0 sectOff k := by
  intro k inside
  unfold loadSector
  split
  · rename_i notLoaded
    rw [if_neg notLoaded] at faithful
    simp only [clean, Bool.false_eq_true, if_false, Disk.readBlock, Disk.sdReadSector, if_true,
      faithful]
    simp [blit, inside, copySector]
  · rename_i loaded
    have here := not_not.mp loaded
    rw [if_pos here] at faithful
    rw [faithful k inside, here]

theorem writeCopies_transfers {esb : ExtSb} {data : Bytes} {sectOff : ℕ} {disk : Disk}
    {copies : ℕ} :
    (writeCopies esb data sectOff disk copies).transfers = disk.transfers + copies := by
  induction copies with
  | zero => rfl
  | succ copies ih =>
      simp only [writeCopies, Disk.writeBlock, Disk.sdWriteSector, if_true]
      split <;> rw [ih, Nat.add_assoc]

/-- Every copy of the sector holds the data when the writes to it succeed. -/
theorem writeCopies_sector_of_succeed {esb : ExtSb} (valid : esb.Valid) {data : Bytes}
    {sectOff : ℕ} {disk : Disk} {copies : ℕ} (offset : sectOff < esb.sectsPerFat)
    (le : copies ≤ esb.totalFats)
    (succeed : ∀ copy < copies,
      disk.fault (disk.transfers + copy) (u32 (esb.fatBaseSect copy + sectOff)) = 0)
    {copy k : ℕ} (lt : copy < copies) (inside : k < sectorBytes) :
    (writeCopies esb data sectOff disk copies).sector
      (u32 (esb.fatBaseSect copy + sectOff)) k = data k := by
  induction copies with
  | zero => omega
  | succ copies ih =>
      rcases Nat.lt_succ_iff_lt_or_eq.mp lt with earlier | rfl
      · have apart : u32 (esb.fatBaseSect copy + sectOff) ≠
            u32 (esb.fatBaseSect copies + sectOff) := by
          have := Nat.mul_le_mul_right esb.sectsPerFat (Nat.succ_le_of_lt earlier)
          rw [Nat.succ_mul] at this
          rw [(fatSector_copy valid copy (by omega) offset).1,
            (fatSector_copy valid copies (by omega) offset).1]
          omega
        rw [writeCopies, Disk.writeBlock_one_sector_ne _ _ _ apart]
        exact ih (by omega) (fun other otherLt => succeed other (by omega)) earlier
      · have success := succeed copy (Nat.lt_succ_self copy)
        rw [← writeCopies_fault esb data sectOff disk copy,
          ← @writeCopies_transfers esb data sectOff disk copy] at success
        simp only [writeCopies, Disk.writeBlock, Disk.sdWriteSector, if_true, success]
        simp [blit, inside]

/-- Writing an entry of a sector that is in the buffer changes this entry in every copy and no
other. -/
theorem writeFat_entryIn {vol : Volume} (valid : vol.esb.Valid)
    (clean : vol.table.dirty = false) {clst value : ℕ} (inFat : vol.esb.InFat clst)
    (fits : value < 4294967296) (mirrored : vol.Mirrored (clst / 128))
    (faithful : if vol.table.fatSectOff = clst / 128 then vol.Loaded
      else vol.disk.fault vol.disk.transfers (u32 (vol.esb.fatBaseSect 0 + clst / 128)) = 0)
    (succeed : (vol.loadSector (clst / 128)).WritesSucceed (clst / 128)) :
    (vol.writeFat clst value).esb = vol.esb ∧
      (vol.writeFat clst value).table.dirty = false ∧
      (vol.writeFat clst value).table.fatSectOff = clst / 128 ∧
      ∀ copy < vol.esb.totalFats, ∀ other, vol.esb.InFat other →
        (vol.writeFat clst value).entryIn copy other =
          if other = clst then value else vol.entryIn copy other := by
  rcases cluster_location valid inFat with ⟨sectOff, _, offset⟩
  rcases loadSector_frame clean (clst / 128) with ⟨esb, sector, tag, clean'⟩
  have loaded := loadSector_loaded clean faithful
  simp only [writeFat, sectOff, show sectorBytes / 4 = 128 from rfl]
  refine ⟨esb, clean', tag, fun copy lt other otherIn => ?_⟩
  have otherOffset := (cluster_location valid otherIn).2.2
  simp only [entryIn, copySector, tag]
  generalize vol.loadSector (clst / 128) = mid at *
  have rem : clst % 128 < 128 := Nat.mod_lt _ (by decide)
  have otherRem : other % 128 < 128 := Nat.mod_lt _ (by decide)
  rw [WritesSucceed, esb] at succeed
  rw [esb]
  by_cases here : other / 128 = clst / 128
  · have written : read32 ((writeCopies vol.esb (write32 mid.table.data (4 * (clst % 128)) value)
        (clst / 128) mid.disk vol.esb.totalFats).sector
          (u32 (vol.esb.fatBaseSect copy + other / 128))) (4 * (other % 128)) =
        read32 (write32 mid.table.data (4 * (clst % 128)) value) (4 * (other % 128)) := by
      refine readLE_congr fun i lower upper => ?_
      rw [here]
      exact writeCopies_sector_of_succeed valid offset le_rfl succeed lt
        (by unfold sectorBytes; omega)
    rw [written]
    split
    · rename_i isClst
      rw [isClst, read32_write32_same, Nat.mod_eq_of_lt fits]
    · rename_i notClst
      rw [read32, write32, readLE_writeLE_of_disjoint _ (by omega)]
      refine readLE_congr fun i lower upper => ?_
      have inside : i < sectorBytes := by unfold sectorBytes; omega
      rw [loaded i inside, here]
      exact (mirrored copy lt i inside).symm
  · rw [if_neg (by rintro rfl; exact here rfl), writeCopies_sector_of_ne fun next nextLt =>
      copySector_ne valid lt nextLt otherOffset offset here, sector]

end Volume

namespace FatRun

/-- Each copy of the table has its entries but for the values passed to `write_fat`. -/
structure Inv (original : ℕ → ℕ → ℕ) (run : FatRun) : Prop where
  layout : run.vol.esb.Valid
  clean : run.vol.table.dirty = false
  entries : ∀ copy < run.vol.esb.totalFats, ∀ clst, run.vol.esb.InFat clst →
    run.vol.entryIn copy clst = (run.passed clst).getD (original copy clst)

theorem Inv.step {original : ℕ → ℕ → ℕ} {run next : FatRun} (inv : run.Inv original) {op : FatOp}
    (faithful : run.Faithful op) (stepped : run.step op = some next) : next.Inv original := by
  cases op with
  | readFat clst =>
      simp only [FatRun.step] at stepped
      split at stepped
      · rename_i inFat
        cases stepped
        rcases Volume.loadSector_frame inv.clean (u32 (clst * 4) / sectorBytes) with
          ⟨esb, sector, _, clean⟩
        refine ⟨?_, clean, fun copy lt other otherIn => ?_⟩
        · simpa only [Volume.readFat, esb] using inv.layout
        · simp only [Volume.readFat, esb] at lt otherIn
          rw [← inv.entries copy lt other otherIn]
          simp only [Volume.readFat, Volume.entryIn, Volume.copySector, esb, sector]
      · simp at stepped
  | writeFat clst value =>
      simp only [FatRun.step] at stepped
      split at stepped
      · rename_i proper
        cases stepped
        rcases Volume.writeFat_entryIn inv.layout inv.clean proper.1 proper.2.1 faithful.1
          faithful.2 proper.2.2 with ⟨esb, clean, _, entries⟩
        refine ⟨esb ▸ inv.layout, clean, fun copy lt other otherIn => ?_⟩
        rw [esb] at lt otherIn
        simp only [entries copy lt other otherIn, Function.update_apply]
        split
        · rfl
        · exact inv.entries copy lt other otherIn
      · simp at stepped

/--
In a run whose writes find their sector read without a failure and the same in all copies, the
entries that change, in any copy, are those passed to `write_fat`, and each holds the last value
passed for it.
-/
theorem entries_of_reach {original : ℕ → ℕ → ℕ} {run : FatRun}
    (reached : GuardedReach FatRun.step Faithful (Start original) run) :
    ∀ copy < run.vol.esb.totalFats, ∀ clst, run.vol.esb.InFat clst →
      run.vol.entryIn copy clst = (run.passed clst).getD (original copy clst) := by
  have inv : run.Inv original := by
    refine reached.invariant (fun start starts => ?_)
      fun _ _ _ inv faithful stepped => inv.step faithful stepped
    refine ⟨starts.layout, starts.clean, fun copy lt clst inFat => ?_⟩
    rw [starts.passed clst]
    exact starts.entries copy lt clst inFat
  exact inv.entries

/-- A table before any call. -/
theorem ofTable_start {esb : ExtSb} (valid : esb.Valid) (positive : 0 < esb.sectsPerFat)
    (table : ℕ → ℕ) (fault : ℕ → ℕ → ℕ) :
    let vol := Volume.ofTable esb table 0 0
    Start ({ vol with disk := { vol.disk with fault } } : Volume).entryIn
      ⟨{ vol with disk := { vol.disk with fault } }, fun _ => none⟩ where
  layout := valid
  clean := rfl
  offset := positive
  passed _ := rfl
  entries _ _ _ _ := rfl

/-- The first transfer of a run fails. -/
def firstFails : ℕ → ℕ → ℕ := fun k _ => if k = 0 then 1 else 0

/-- A table of two sectors, all entries of the first one being 1. -/
def onesAndZeros : Volume :=
  let vol := Volume.ofTable twoSectors (fun clst => if clst < 128 then 1 else 0) 0 0
  { vol with disk := { vol.disk with fault := firstFails } }

theorem onesAndZeros_start : Start onesAndZeros.entryIn ⟨onesAndZeros, fun _ => none⟩ :=
  ofTable_start twoSectors_valid (by decide) _ firstFails

/-- A read of the second sector fails, and then an entry of the first one is written, which is found
in both copies. -/
theorem entries_of_reach_failedRead :
    ∃ run : FatRun, run.passed 2 = some 7 ∧ run.vol.entryIn 0 2 = 7 ∧ run.vol.entryIn 1 2 = 7 := by
  let start : FatRun := ⟨onesAndZeros, fun _ => none⟩
  let next : FatRun := ⟨(onesAndZeros.readFat 130).2, fun _ => none⟩
  have inTable : start.vol.esb.InFat 130 := (by decide : twoSectors.InFat 130)
  have failed : start.step (.readFat 130) = some next := by
    rw [FatRun.step, if_pos inTable]
  have proper : next.vol.esb.InFat 2 ∧ 7 < 4294967296 ∧
      (next.vol.loadSector (2 / 128)).WritesSucceed (2 / 128) := by decide +kernel
  have stepped : next.step (.writeFat 2 7) =
      some ⟨next.vol.writeFat 2 7, Function.update next.passed 2 (some 7)⟩ :=
    step_writeFat proper
  have frame := Volume.loadSector_frame (show onesAndZeros.table.dirty = false from rfl) 1
  have mirrored : next.vol.Mirrored (2 / 128) := by
    intro copy lt k _
    have isCopy : copy < 2 := lt
    have same : ∀ id, next.vol.disk.sector id = onesAndZeros.disk.sector id :=
      fun id => congrFun frame.2.1 id
    simp only [Volume.copySector, same]
    rcases Nat.lt_succ_iff_lt_or_eq.mp isCopy with first | rfl
    · obtain rfl : copy = 0 := Nat.lt_one_iff.mp first
      rfl
    · have here : u32 (next.vol.esb.fatBaseSect 1 + 2 / 128) = 10 := by decide +kernel
      have there : u32 (next.vol.esb.fatBaseSect 0 + 2 / 128) = 8 := by decide +kernel
      rw [here, there]
      rfl
  have readNow : next.vol.disk.fault next.vol.disk.transfers
      (u32 (next.vol.esb.fatBaseSect 0 + 2 / 128)) = 0 := by decide +kernel
  have faithful : next.Faithful (.writeFat 2 7) := ⟨mirrored, by
    have notLoaded : ¬next.vol.table.fatSectOff = 2 / 128 := by decide +kernel
    rw [if_neg notLoaded]
    exact readNow⟩
  have anyRead : start.Faithful (.readFat 130) := trivial
  have reached := entries_of_reach
    (.step (.step (.start onesAndZeros_start) anyRead failed) faithful stepped)
  have inFat : twoSectors.InFat 2 := by decide
  exact ⟨_, rfl, reached 0 (by decide) 2 inFat, reached 1 (by decide) 2 inFat⟩

/-- The first transfer of the run fails: it is the read of the second sector, whose entries
become those of the first one. -/
theorem not_entries_of_reach : ¬∀ (original : ℕ → ℕ → ℕ) (run : FatRun),
    Reach FatRun.step (Start original) run →
      ∀ copy < run.vol.esb.totalFats, ∀ clst, run.vol.esb.InFat clst →
        run.vol.entryIn copy clst = (run.passed clst).getD (original copy clst) := by
  intro all
  let start : FatRun := ⟨onesAndZeros, fun _ => none⟩
  have proper : start.vol.esb.InFat 130 ∧ 7 < 4294967296 ∧
      (start.vol.loadSector (130 / 128)).WritesSucceed (130 / 128) := by decide +kernel
  have stepped : start.step (.writeFat 130 7) =
      some ⟨start.vol.writeFat 130 7, Function.update start.passed 130 (some 7)⟩ :=
    step_writeFat proper
  have reached : Reach FatRun.step (Start start.vol.entryIn) _ :=
    .step (.start onesAndZeros_start) trivial stepped
  have kept : (start.vol.writeFat 130 7).entryIn 0 128 = start.vol.entryIn 0 128 :=
    all _ _ reached 0 (by decide) 128 (by decide : twoSectors.InFat 128)
  have now : (start.vol.writeFat 130 7).entryIn 0 128 = 1 := by decide +kernel
  have before : start.vol.entryIn 0 128 = 0 := by decide +kernel
  exact absurd (now.symm.trans (kept.trans before)) (by decide)

end FatRun

end Ninix.Fat32
