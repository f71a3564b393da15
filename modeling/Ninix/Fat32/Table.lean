import Mathlib.Logic.Function.Basic
import Ninix.Driver.Disk

/-!
# The file allocation table and its one-sector cache

`read_fat` and `write_fat` work on one loaded sector of the table. Looking up a cluster of
another sector loads that sector over it, and a write goes to every copy of the table at once.

A volume is coherent when the loaded sector is the sector of the first copy it claims to be and
the transfers of table sectors succeed. On a coherent volume the two functions read and write
the plain array `entry`, so what is proved about chains of clusters need not mention the cache.
-/

namespace Ninix.Fat32

open ByteBuffer

/-- `struct fat32_ext_sb` with the `s_base` of its super block: the numbers `fat32_init` reads. -/
structure ExtSb where
  sBase : ℕ
  sectsPerClst : ℕ
  reservedSects : ℕ
  totalFats : ℕ
  totalSects : ℕ
  sectsPerFat : ℕ
  fsinfoBaseSect : ℕ

namespace ExtSb

/-- The array `fat_base_sect` as `fat32_init` fills it. -/
def fatBaseSect (esb : ExtSb) (copy : ℕ) : ℕ :=
  u32 (esb.reservedSects + esb.sBase + copy * esb.sectsPerFat)

/-- `data_clst_sect`, the first sector behind the last copy of the table. -/
def dataClstSect (esb : ExtSb) : ℕ :=
  u32 (esb.fatBaseSect (esb.totalFats - 1) + esb.sectsPerFat)

/-- The sectors of the copies of the table. -/
def FatSector (esb : ExtSb) (id : ℕ) : Prop :=
  esb.reservedSects + esb.sBase ≤ id ∧
    id < esb.reservedSects + esb.sBase + esb.totalFats * esb.sectsPerFat

/-- Clusters that have an entry in the table. -/
def InFat (esb : ExtSb) (clst : ℕ) : Prop := clst < 128 * esb.sectsPerFat

instance (esb : ExtSb) (clst : ℕ) : Decidable (esb.InFat clst) :=
  inferInstanceAs (Decidable (_ < _))

/-- `total_dat_clst` of `apply_fat`, the number of clusters in the data area. -/
def totalDatClst (esb : ExtSb) : ℕ :=
  sub32 esb.totalSects (sub32 esb.dataClstSect esb.sBase) / esb.sectsPerClst

/-- The clusters of the data area are numbered from 2. -/
def IsCluster (esb : ExtSb) (clst : ℕ) : Prop := 2 ≤ clst ∧ clst < esb.totalDatClst + 2

instance (esb : ExtSb) (clst : ℕ) : Decidable (esb.IsCluster clst) :=
  inferInstanceAs (Decidable (_ ∧ _))

/--
The layout of a FAT32 volume: FSINFO lies among the reserved sectors, sector numbers do not
wrap, clusters are numbered in 28 bits below the end mark, and the table has an entry for each.
-/
structure Valid (esb : ExtSb) : Prop where
  fats : 0 < esb.totalFats
  clusterSize : 0 < esb.sectsPerClst
  sectors : esb.reservedSects + esb.sBase + esb.totalFats * esb.sectsPerFat ≤ 4294967296
  entries : 128 * esb.sectsPerFat ≤ 0x0fffffff
  covers : esb.totalDatClst + 2 ≤ 128 * esb.sectsPerFat
  fsinfo : esb.fsinfoBaseSect < esb.reservedSects

theorem Valid.inFat {esb : ExtSb} (valid : esb.Valid) {clst : ℕ}
    (lt : clst < esb.totalDatClst + 2) : esb.InFat clst :=
  lt_of_lt_of_le lt valid.covers

theorem IsCluster.inFat {esb : ExtSb} {clst : ℕ} (isCluster : esb.IsCluster clst)
    (valid : esb.Valid) : esb.InFat clst :=
  valid.inFat isCluster.2

theorem IsCluster.lt {esb : ExtSb} {clst : ℕ} (isCluster : esb.IsCluster clst)
    (valid : esb.Valid) : clst < 0x0fffffff :=
  lt_of_lt_of_le (isCluster.inFat valid) valid.entries

end ExtSb

/-- `struct fat32_fattable`: the loaded sector of the table. -/
structure FatTable where
  fatSectOff : ℕ
  dirty : Bool
  data : Bytes

/-- `struct fat32_fsinfo`: the FSINFO sector. -/
structure Fsinfo where
  buf : Bytes

namespace Fsinfo

def freeClsts (info : Fsinfo) : ℕ := read32 info.buf 0x1e8

def nextFreeClst (info : Fsinfo) : ℕ := read32 info.buf 0x1ec

def setFreeClsts (info : Fsinfo) (value : ℕ) : Fsinfo := ⟨write32 info.buf 0x1e8 value⟩

def setNextFreeClst (info : Fsinfo) (value : ℕ) : Fsinfo := ⟨write32 info.buf 0x1ec value⟩

variable (info : Fsinfo) (value : ℕ)

@[simp]
theorem freeClsts_setFreeClsts : (info.setFreeClsts value).freeClsts = u32 value :=
  read32_write32_same _ _ _

@[simp]
theorem nextFreeClst_setNextFreeClst : (info.setNextFreeClst value).nextFreeClst = u32 value :=
  read32_write32_same _ _ _

@[simp]
theorem nextFreeClst_setFreeClsts :
    (info.setFreeClsts value).nextFreeClst = info.nextFreeClst :=
  readLE_writeLE_of_disjoint _ (by decide)

@[simp]
theorem freeClsts_setNextFreeClst :
    (info.setNextFreeClst value).freeClsts = info.freeClsts :=
  readLE_writeLE_of_disjoint _ (by decide)

theorem freeClsts_lt : info.freeClsts < 4294967296 := read32_lt _ _

end Fsinfo

/-- A mounted FAT32 volume: what the super block points to, and the card it is on. -/
structure Volume where
  esb : ExtSb
  disk : Disk
  table : FatTable
  info : Fsinfo

namespace Volume

/-- Write a table sector to the first `copies` copies of the table, ignoring failures. -/
def writeCopies (esb : ExtSb) (data : Bytes) (sectOff : ℕ) (disk : Disk) : ℕ → Disk
  | 0 => disk
  | copies + 1 =>
      ((writeCopies esb data sectOff disk copies).writeBlock data
        (u32 (esb.fatBaseSect copies + sectOff)) 1).2

/-- The lines `read_fat` and `write_fat` share: make a sector of the table the loaded one. -/
def loadSector (vol : Volume) (sectOff : ℕ) : Volume :=
  if vol.table.fatSectOff ≠ sectOff then
    let disk :=
      if vol.table.dirty then
        writeCopies vol.esb vol.table.data vol.table.fatSectOff vol.disk vol.esb.totalFats
      else vol.disk
    let (_, data, disk) :=
      disk.readBlock vol.table.data (u32 (vol.esb.fatBaseSect 0 + sectOff)) 1
    { vol with disk, table := { vol.table with fatSectOff := sectOff, data } }
  else vol

/-- `write_fat` -/
def writeFat (vol : Volume) (clstNo fatValue : ℕ) : Volume :=
  let sectOff := u32 (clstNo * 4) / sectorBytes
  let entrOff := clstNo % (sectorBytes / 4)
  let vol := vol.loadSector sectOff
  let data := write32 vol.table.data (4 * entrOff) fatValue
  { vol with
    disk := writeCopies vol.esb data vol.table.fatSectOff vol.disk vol.esb.totalFats
    table := { vol.table with data } }

/-- `read_fat` -/
def readFat (vol : Volume) (clstNo : ℕ) : ℕ × Volume :=
  let sectOff := u32 (clstNo * 4) / sectorBytes
  let entrOff := u32 (clstNo * 4) % sectorBytes / 4
  let vol := vol.loadSector sectOff
  (read32 vol.table.data (4 * entrOff), vol)

/-! ## The table as an array -/

/-- The entry of a cluster in the first copy of the table on the card. -/
def entry (vol : Volume) (clst : ℕ) : ℕ :=
  read32 (vol.disk.sector (vol.esb.fatBaseSect 0 + clst / 128)) (4 * (clst % 128))

/-- The loaded sector is the sector of the first copy it claims to be, and table sectors
can be transferred. -/
structure Coherent (vol : Volume) : Prop where
  layout : vol.esb.Valid
  clean : vol.table.dirty = false
  offset : vol.table.fatSectOff < vol.esb.sectsPerFat
  loaded : ∀ k < sectorBytes,
    vol.table.data k = vol.disk.sector (vol.esb.fatBaseSect 0 + vol.table.fatSectOff) k
  reliable : vol.disk.ReliableOn vol.esb.FatSector

/-- Two volumes that differ at most in which table sector is loaded. -/
structure SameTable (vol vol' : Volume) : Prop where
  esb : vol'.esb = vol.esb
  info : vol'.info = vol.info
  sector : vol'.disk.sector = vol.disk.sector
  fault : vol'.disk.fault = vol.disk.fault

theorem SameTable.refl (vol : Volume) : SameTable vol vol := ⟨rfl, rfl, rfl, rfl⟩

theorem SameTable.trans {first second third : Volume} (left : SameTable first second)
    (right : SameTable second third) : SameTable first third :=
  ⟨right.esb.trans left.esb, right.info.trans left.info, right.sector.trans left.sector,
    right.fault.trans left.fault⟩

theorem SameTable.entry {vol vol' : Volume} (same : SameTable vol vol') (clst : ℕ) :
    vol'.entry clst = vol.entry clst := by
  simp only [Volume.entry, same.esb, same.sector]

section Layout

variable {esb : ExtSb} (valid : esb.Valid)
include valid

theorem fatBaseSect_eq {copy : ℕ} (lt : copy < esb.totalFats) (pos : 0 < esb.sectsPerFat) :
    esb.fatBaseSect copy = esb.reservedSects + esb.sBase + copy * esb.sectsPerFat := by
  apply u32_of_lt
  have sectors := valid.sectors
  have le : (copy + 1) * esb.sectsPerFat ≤ esb.totalFats * esb.sectsPerFat :=
    Nat.mul_le_mul_right _ lt
  rw [Nat.add_mul] at le
  omega

theorem fatSector_copy (copy : ℕ) {sectOff : ℕ} (lt : copy < esb.totalFats)
    (offset : sectOff < esb.sectsPerFat) :
    u32 (esb.fatBaseSect copy + sectOff) =
        esb.reservedSects + esb.sBase + copy * esb.sectsPerFat + sectOff ∧
      esb.FatSector (u32 (esb.fatBaseSect copy + sectOff)) := by
  have base := fatBaseSect_eq valid lt (by omega)
  have sectors := valid.sectors
  have le : (copy + 1) * esb.sectsPerFat ≤ esb.totalFats * esb.sectsPerFat :=
    Nat.mul_le_mul_right _ lt
  rw [Nat.add_mul] at le
  have exact : u32 (esb.fatBaseSect copy + sectOff) =
      esb.reservedSects + esb.sBase + copy * esb.sectsPerFat + sectOff := by
    rw [base]
    exact u32_of_lt (by omega)
  refine ⟨exact, ?_⟩
  rw [exact]
  constructor <;> omega

/-- The loaded sector's number and entry offset of a cluster in the table do not wrap. -/
theorem cluster_location {clst : ℕ} (inFat : esb.InFat clst) :
    u32 (clst * 4) / sectorBytes = clst / 128 ∧
      u32 (clst * 4) % sectorBytes / 4 = clst % 128 ∧ clst / 128 < esb.sectsPerFat := by
  have entries := valid.entries
  unfold ExtSb.InFat at inFat
  rw [u32_of_lt (by omega)]
  unfold sectorBytes
  omega

end Layout

/-- The entry of a cluster lies in a table sector. -/
theorem entry_fatSector {esb : ExtSb} (valid : esb.Valid) {clst : ℕ} (inFat : esb.InFat clst) :
    esb.FatSector (esb.fatBaseSect 0 + clst / 128) := by
  have offset := (cluster_location valid inFat).2.2
  have location := fatSector_copy valid 0 valid.fats offset
  rw [fatBaseSect_eq valid valid.fats (by omega), ← location.1]
  exact location.2

/-- Two volumes with the same table entries, whatever else lies on their cards. -/
structure SameEntries (vol vol' : Volume) : Prop where
  esb : vol'.esb = vol.esb
  fault : vol'.disk.fault = vol.disk.fault
  entry : ∀ clst, vol.esb.InFat clst → vol'.entry clst = vol.entry clst

theorem SameEntries.refl (vol : Volume) : SameEntries vol vol := ⟨rfl, rfl, fun _ _ => rfl⟩

theorem SameEntries.trans {first second third : Volume} (left : SameEntries first second)
    (right : SameEntries second third) : SameEntries first third :=
  ⟨right.esb.trans left.esb, right.fault.trans left.fault, fun clst inFat =>
    (right.entry clst (left.esb ▸ inFat)).trans (left.entry clst inFat)⟩

theorem SameTable.sameEntries {vol vol' : Volume} (same : SameTable vol vol') :
    SameEntries vol vol' :=
  ⟨same.esb, same.fault, fun clst _ => same.entry clst⟩

/-- A volume stays coherent when sectors outside the table change. -/
theorem Coherent.of_fatSectors {vol vol' : Volume} (coherent : vol.Coherent)
    (esb : vol'.esb = vol.esb) (table : vol'.table = vol.table)
    (fault : vol'.disk.fault = vol.disk.fault)
    (sector : ∀ id, vol.esb.FatSector id → vol'.disk.sector id = vol.disk.sector id) :
    vol'.Coherent ∧ SameEntries vol vol' := by
  have valid := coherent.layout
  have loadedSector : vol.esb.FatSector (vol.esb.fatBaseSect 0 + vol.table.fatSectOff) := by
    have location := fatSector_copy valid 0 valid.fats coherent.offset
    have positive : 0 < vol.esb.sectsPerFat := Nat.zero_lt_of_lt coherent.offset
    rw [fatBaseSect_eq valid valid.fats positive, ← location.1]
    exact location.2
  refine ⟨⟨esb ▸ valid, table ▸ coherent.clean, ?_, ?_, ?_⟩, esb, fault, ?_⟩
  · rw [esb, table]
    exact coherent.offset
  · intro k inside
    rw [esb, table, sector _ loadedSector]
    exact coherent.loaded k inside
  · intro k id isFat
    rw [fault]
    exact coherent.reliable k id (esb ▸ isFat)
  · intro clst inFat
    unfold Volume.entry
    rw [esb, sector _ (entry_fatSector valid inFat)]

/-- Writing copies of a table sector leaves the other sectors and the answers alone. -/
theorem writeCopies_fault (esb : ExtSb) (data : Bytes) (sectOff : ℕ) (disk : Disk)
    (copies : ℕ) : (writeCopies esb data sectOff disk copies).fault = disk.fault := by
  induction copies with
  | zero => rfl
  | succ copies ih => rw [writeCopies, Disk.writeBlock_one_fault, ih]

theorem writeCopies_sector_of_ne {esb : ExtSb} {data : Bytes} {sectOff id : ℕ} {disk : Disk}
    {copies : ℕ}
    (ne : ∀ copy < copies, id ≠ u32 (esb.fatBaseSect copy + sectOff)) :
    (writeCopies esb data sectOff disk copies).sector id = disk.sector id := by
  induction copies with
  | zero => rfl
  | succ copies ih =>
      rw [writeCopies, Disk.writeBlock_one_sector_ne _ _ _ (ne copies (by omega))]
      exact ih fun copy lt => ne copy (by omega)

/-- Every copy of the sector holds the data that was written. -/
theorem writeCopies_sector {esb : ExtSb} (valid : esb.Valid) {data : Bytes} {sectOff : ℕ}
    {disk : Disk} {copies : ℕ} (offset : sectOff < esb.sectsPerFat)
    (le : copies ≤ esb.totalFats) (reliable : disk.ReliableOn esb.FatSector)
    {copy k : ℕ} (lt : copy < copies) (inside : k < sectorBytes) :
    (writeCopies esb data sectOff disk copies).sector
      (u32 (esb.fatBaseSect copy + sectOff)) k = data k := by
  induction copies with
  | zero => omega
  | succ copies ih =>
      have location := fatSector_copy valid copies (by omega) offset
      have reliableNow : (writeCopies esb data sectOff disk copies).ReliableOn esb.FatSector := by
        intro k id isFat
        rw [writeCopies_fault]
        exact reliable k id isFat
      rcases Nat.lt_succ_iff_lt_or_eq.mp lt with earlier | rfl
      · have other := fatSector_copy valid copy (by omega) offset
        have apart : (copy + 1) * esb.sectsPerFat ≤ copies * esb.sectsPerFat :=
          Nat.mul_le_mul_right _ earlier
        rw [Nat.add_mul] at apart
        rw [writeCopies, Disk.writeBlock_one_sector_ne _ _ _ (by omega)]
        exact ih (by omega) earlier
      · rw [writeCopies, Disk.writeBlock_one reliableNow location.2]
        simp [blit, inside]

/-- Loading a sector of a coherent volume changes nothing else. -/
theorem loadSector_spec {vol : Volume} (coherent : vol.Coherent) {sectOff : ℕ}
    (offset : sectOff < vol.esb.sectsPerFat) :
    SameTable vol (vol.loadSector sectOff) ∧ (vol.loadSector sectOff).Coherent ∧
      (vol.loadSector sectOff).table.fatSectOff = sectOff := by
  unfold loadSector
  split
  · have location := fatSector_copy coherent.layout 0 coherent.layout.fats offset
    have base : vol.esb.fatBaseSect 0 + sectOff = u32 (vol.esb.fatBaseSect 0 + sectOff) := by
      rw [location.1, fatBaseSect_eq coherent.layout coherent.layout.fats (by omega)]
    simp only [coherent.clean, Bool.false_eq_true, if_false,
      Disk.readBlock_one coherent.reliable location.2]
    refine ⟨⟨rfl, rfl, rfl, rfl⟩, ⟨coherent.layout, rfl, offset, ?_, ?_⟩, trivial⟩
    · intro k inside
      simp [blit, inside, ← base]
    · exact coherent.reliable
  · rename_i loaded
    rw [ne_eq, not_not] at loaded
    exact ⟨.refl vol, coherent, loaded⟩

/-- `read_fat` on a coherent volume returns the entry and changes nothing else. -/
theorem readFat_spec {vol : Volume} (coherent : vol.Coherent) {clst : ℕ}
    (inFat : vol.esb.InFat clst) :
    (vol.readFat clst).1 = vol.entry clst ∧ SameTable vol (vol.readFat clst).2 ∧
      (vol.readFat clst).2.Coherent := by
  rcases cluster_location coherent.layout inFat with ⟨sectOff, entrOff, offset⟩
  rcases loadSector_spec coherent offset with ⟨same, coherent', loaded⟩
  simp only [readFat, sectOff, entrOff]
  refine ⟨?_, same, coherent'⟩
  rw [← same.entry]
  unfold entry
  apply readLE_congr
  intro i lower upper
  have rem : clst % 128 < 128 := Nat.mod_lt _ (by decide)
  rw [coherent'.loaded i (by unfold sectorBytes; omega), loaded]

/-- `write_fat` on a coherent volume sets the entry and changes no other. -/
theorem writeFat_spec {vol : Volume} (coherent : vol.Coherent) {clst : ℕ}
    (inFat : vol.esb.InFat clst) {value : ℕ} (fits : value < 4294967296) :
    (vol.writeFat clst value).Coherent ∧ (vol.writeFat clst value).esb = vol.esb ∧
      (vol.writeFat clst value).info = vol.info ∧
      (vol.writeFat clst value).disk.fault = vol.disk.fault ∧
      (∀ other, vol.esb.InFat other → (vol.writeFat clst value).entry other =
        if other = clst then value else vol.entry other) ∧
      ∀ id, ¬vol.esb.FatSector id →
        (vol.writeFat clst value).disk.sector id = vol.disk.sector id := by
  rcases cluster_location coherent.layout inFat with ⟨sectOff, entrOff, offset⟩
  rcases loadSector_spec coherent offset with ⟨same, coherent', loaded⟩
  have rem : clst % 128 < 128 := Nat.mod_lt _ (by decide)
  simp only [writeFat, sectOff, show sectorBytes / 4 = 128 from rfl, loaded]
  generalize vol.loadSector (clst / 128) = mid at same coherent' loaded
  have valid := coherent'.layout
  rw [← same.esb] at offset ⊢
  have base := fatBaseSect_eq valid valid.fats (by omega)
  simp only [Nat.zero_mul, Nat.add_zero] at base
  have location := fatSector_copy valid 0 valid.fats offset
  simp only [Nat.zero_mul, Nat.add_zero] at location
  -- the first copy of the sector after the write, and the sectors beside it
  have written : ∀ k < sectorBytes, (writeCopies mid.esb
      (write32 mid.table.data (4 * (clst % 128)) value) (clst / 128) mid.disk
      mid.esb.totalFats).sector (u32 (mid.esb.fatBaseSect 0 + clst / 128)) k =
        write32 mid.table.data (4 * (clst % 128)) value k := fun k inside =>
    writeCopies_sector valid offset le_rfl coherent'.reliable valid.fats inside
  rw [location.1, ← base] at written
  have beside : ∀ id, (∀ copy < mid.esb.totalFats,
      id ≠ mid.esb.reservedSects + mid.esb.sBase + copy * mid.esb.sectsPerFat + clst / 128) →
      (writeCopies mid.esb (write32 mid.table.data (4 * (clst % 128)) value) (clst / 128)
        mid.disk mid.esb.totalFats).sector id = mid.disk.sector id := by
    intro id ne
    apply writeCopies_sector_of_ne
    intro copy lt
    rw [(fatSector_copy valid copy lt offset).1]
    exact ne copy lt
  refine ⟨⟨valid, coherent'.clean, ?_, ?_, ?_⟩, rfl, same.info, ?_, ?_, ?_⟩
  · simpa only [loaded] using offset
  · intro k inside
    exact (written k inside).symm
  · intro k id isFat
    simp only [writeCopies_fault]
    exact coherent'.reliable k id isFat
  · simp only [writeCopies_fault]
    exact same.fault
  · intro other otherIn
    rw [← same.entry]
    unfold entry
    simp only
    have otherRem : other % 128 < 128 := Nat.mod_lt _ (by decide)
    by_cases sameSector : other / 128 = clst / 128
    · rw [sameSector]
      have readBack : read32 ((writeCopies mid.esb
            (write32 mid.table.data (4 * (clst % 128)) value) (clst / 128) mid.disk
            mid.esb.totalFats).sector (mid.esb.fatBaseSect 0 + clst / 128))
            (4 * (other % 128)) =
          read32 (write32 mid.table.data (4 * (clst % 128)) value) (4 * (other % 128)) :=
        readLE_congr fun i lower upper => written i (by unfold sectorBytes; omega)
      rw [readBack]
      split
      · rename_i isClst
        rw [isClst, read32_write32_same, Nat.mod_eq_of_lt fits]
      · rename_i notClst
        have apart : other % 128 ≠ clst % 128 := by omega
        rw [read32, write32, readLE_writeLE_of_disjoint _ (by omega)]
        refine readLE_congr fun i lower upper => ?_
        rw [coherent'.loaded i (by unfold sectorBytes; omega), loaded]
    · rw [if_neg (by rintro rfl; exact sameSector rfl), beside]
      intro copy lt
      rw [base]
      unfold ExtSb.InFat at otherIn
      rcases Nat.eq_zero_or_pos copy with rfl | pos
      · omega
      · have := Nat.mul_le_mul_right mid.esb.sectsPerFat pos
        omega
  · intro id notFat
    rw [← same.sector]
    apply beside
    intro copy lt isCopy
    have inArea := (fatSector_copy valid copy lt offset)
    rw [inArea.1, ← isCopy] at inArea
    exact notFat inArea.2

/-! ## A volume for every table -/

/-- The bytes of a sector of the table that holds the given entries. -/
def sectorOf (table : ℕ → ℕ) (sectOff : ℕ) : Bytes := fun k =>
  UInt8.ofNat (table (128 * sectOff + k / 4) / 256 ^ (k % 4))

/-- A volume with the given entries and counters whose transfers all succeed. -/
def ofTable (esb : ExtSb) (table : ℕ → ℕ) (freeClsts nextFreeClst : ℕ) : Volume where
  esb
  disk :=
    { sector := fun id =>
        sectorOf table ((id - (esb.reservedSects + esb.sBase)) % esb.sectsPerFat)
      fault := fun _ _ => 0
      transfers := 0
      written := [] }
  table := ⟨0, false, sectorOf table 0⟩
  info := (Fsinfo.setFreeClsts ⟨zeros⟩ freeClsts).setNextFreeClst nextFreeClst

section OfTable

variable {esb : ExtSb} {table : ℕ → ℕ} {freeClsts nextFreeClst : ℕ}

theorem read32_sectorOf (sectOff j : ℕ) :
    read32 (sectorOf table sectOff) (4 * j) = u32 (table (128 * sectOff + j)) := by
  rw [u32, ← read32_write32_same zeros 0 (table (128 * sectOff + j))]
  apply readLE_shift
  intro i below
  simp only [sectorOf, writeLE, Nat.zero_add]
  rw [if_pos (by omega), show (4 * j + i) / 4 = j by omega,
    show (4 * j + i) % 4 = i by omega, Nat.sub_zero]

theorem ofTable_reliable : (ofTable esb table freeClsts nextFreeClst).disk.Reliable :=
  fun _ _ _ => rfl

theorem ofTable_coherent (valid : esb.Valid) :
    (ofTable esb table freeClsts nextFreeClst).Coherent := by
  have covers := valid.covers
  have base := fatBaseSect_eq valid valid.fats (by omega)
  refine ⟨valid, rfl, ?_, ?_, fun _ _ _ => rfl⟩
  · simp only [ofTable]
    omega
  · intro k _
    simp only [ofTable, base, Nat.zero_mul, Nat.add_zero, Nat.sub_self, Nat.zero_mod]

theorem ofTable_entry (valid : esb.Valid) {clst : ℕ} (inFat : esb.InFat clst)
    (fits : table clst < 4294967296) :
    (ofTable esb table freeClsts nextFreeClst).entry clst = table clst := by
  have offset := (cluster_location valid inFat).2.2
  have base := fatBaseSect_eq valid valid.fats (by omega)
  simp only [Nat.zero_mul, Nat.add_zero] at base
  simp only [entry, ofTable, base]
  rw [Nat.add_sub_cancel_left, Nat.mod_eq_of_lt offset, read32_sectorOf,
    Nat.div_add_mod, u32_of_lt fits]

end OfTable

end Volume

/-- The smallest layout used in examples: two copies of one table sector, and the clusters 2 to 6
of two sectors each. -/
def fiveClusters : ExtSb where
  sBase := 0
  sectsPerClst := 2
  reservedSects := 8
  totalFats := 2
  totalSects := 20
  sectsPerFat := 1
  fsinfoBaseSect := 1

theorem fiveClusters_valid : fiveClusters.Valid := by
  constructor <;> decide

/-- A layout with two copies of a table of two sectors, and clusters 2 to 151. -/
def twoSectors : ExtSb where
  sBase := 0
  sectsPerClst := 2
  reservedSects := 8
  totalFats := 2
  totalSects := 312
  sectsPerFat := 2
  fsinfoBaseSect := 1

theorem twoSectors_valid : twoSectors.Valid := by
  constructor <;> decide

end Ninix.Fat32
