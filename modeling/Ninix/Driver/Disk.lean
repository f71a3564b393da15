import Ninix.Library.ByteBuffer

/-!
# The SD card and the block interface

`sd.c` transfers sectors of 512 bytes one at a time. A transfer may fail: the card answers with
a code other than zero, a failed read leaves the buffer as it was and a failed write leaves the
sector as it was. Which transfers fail is a parameter of the disk, by the number of the transfer
and the sector it addresses. `vfscache.c` calls the two operations `read_block` and
`write_block`.

The sectors written are recorded, newest first, so that statements can speak of the writes of a
call and not only of what they leave behind.
-/

namespace Ninix

open ByteBuffer

/-- Arithmetic on `u32` values wraps. -/
def u32 (value : ℕ) : ℕ := value % 4294967296

/-- Subtraction of `u32` values wraps. -/
def sub32 (left right : ℕ) : ℕ := (left + (4294967296 - right)) % 4294967296

/-- The value `-1` has in a `u32`. -/
def minusOne32 : ℕ := 4294967295

theorem u32_of_lt {value : ℕ} (small : value < 4294967296) : u32 value = value :=
  Nat.mod_eq_of_lt small

theorem u32_lt (value : ℕ) : u32 value < 4294967296 :=
  Nat.mod_lt _ (by decide)

theorem sub32_of_le {left right : ℕ} (le : right ≤ left) (small : left < 4294967296) :
    sub32 left right = left - right := by
  unfold sub32
  omega

/-- Bytes in a sector (`SECSIZE`, `BYTES_PER_SECT`). -/
abbrev sectorBytes : ℕ := 512

/-- The card: its sectors, the answers its transfers get and the writes made so far. -/
structure Disk where
  /-- The bytes of a sector, by sector number and offset. -/
  sector : ℕ → Bytes
  /-- The code of a transfer, by its number and its sector; zero is success. -/
  fault : ℕ → ℕ → ℕ
  /-- Transfers made so far. -/
  transfers : ℕ
  /-- Sectors written so far, newest first. -/
  written : List ℕ

namespace Disk

/-- `sd_read_sector_blocking`: read one sector to an offset of the buffer. -/
def sdReadSector (disk : Disk) (id : ℕ) (buf : Bytes) (offset : ℕ) : ℕ × Bytes × Disk :=
  let code := disk.fault disk.transfers id
  let disk := { disk with transfers := disk.transfers + 1 }
  if code = 0 then (0, blit buf offset (disk.sector id) 0 sectorBytes, disk)
  else (code, buf, disk)

/-- `sd_write_sector_blocking`: write one sector from an offset of the buffer. -/
def sdWriteSector (disk : Disk) (id : ℕ) (buf : Bytes) (offset : ℕ) : ℕ × Disk :=
  let code := disk.fault disk.transfers id
  let disk := { disk with transfers := disk.transfers + 1 }
  if code = 0 then
    (0, { disk with
      sector := Function.update disk.sector id
        (blit (disk.sector id) 0 buf offset sectorBytes)
      written := id :: disk.written })
  else (code, disk)

/-- The loop of `sd_read_block`, from sector `i` of the range with `left` sectors to go. -/
def sdReadLoop (disk : Disk) (addr : ℕ) (buf : Bytes) (i : ℕ) : ℕ → ℕ × Bytes × Disk
  | 0 => (0, buf, disk)
  | left + 1 =>
      match disk.sdReadSector (u32 (addr + i)) buf (i * sectorBytes) with
      | (0, buf, disk) => sdReadLoop disk addr buf (i + 1) left
      | (_ + 1, buf, disk) => (1, buf, disk)

/-- The loop of `sd_write_block`, from sector `i` of the range with `left` sectors to go. -/
def sdWriteLoop (disk : Disk) (addr : ℕ) (buf : Bytes) (i : ℕ) : ℕ → ℕ × Disk
  | 0 => (0, disk)
  | left + 1 =>
      match disk.sdWriteSector (u32 (addr + i)) buf (i * sectorBytes) with
      | (0, disk) => sdWriteLoop disk addr buf (i + 1) left
      | (_ + 1, disk) => (1, disk)

/-- `read_block`, which is `sd_read_block`: a single sector keeps the code of its transfer. -/
def readBlock (disk : Disk) (buf : Bytes) (base count : ℕ) : ℕ × Bytes × Disk :=
  if count = 1 then disk.sdReadSector base buf 0 else disk.sdReadLoop base buf 0 count

/-- `write_block`, which is `sd_write_block`. -/
def writeBlock (disk : Disk) (buf : Bytes) (base count : ℕ) : ℕ × Disk :=
  if count = 1 then disk.sdWriteSector base buf 0 else disk.sdWriteLoop base buf 0 count

/-- No transfer of a sector in the set fails. -/
def ReliableOn (disk : Disk) (sectors : ℕ → Prop) : Prop :=
  ∀ k id, sectors id → disk.fault k id = 0

/-- All block input and output succeeds. -/
def Reliable (disk : Disk) : Prop := disk.ReliableOn fun _ => True

theorem Reliable.on {disk : Disk} (reliable : disk.Reliable) (sectors : ℕ → Prop) :
    disk.ReliableOn sectors :=
  fun k id _ => reliable k id trivial

/-! ## Transfers that succeed -/

section Single

variable {disk : Disk} {sectors : ℕ → Prop} {base : ℕ} {buf : Bytes}

theorem readBlock_one (reliable : disk.ReliableOn sectors) (inside : sectors base) :
    disk.readBlock buf base 1 =
      (0, blit buf 0 (disk.sector base) 0 sectorBytes,
        { disk with transfers := disk.transfers + 1 }) := by
  simp [readBlock, sdReadSector, reliable _ _ inside]

theorem writeBlock_one (reliable : disk.ReliableOn sectors) (inside : sectors base) :
    disk.writeBlock buf base 1 =
      (0, { disk with
        sector := Function.update disk.sector base
          (blit (disk.sector base) 0 buf 0 sectorBytes)
        transfers := disk.transfers + 1
        written := base :: disk.written }) := by
  simp [writeBlock, sdWriteSector, reliable _ _ inside]

end Single

/-! ## What a transfer leaves alone, whether or not it succeeds -/

section Frame

variable (disk : Disk) (buf : Bytes) (base : ℕ)

theorem readBlock_one_sector : (disk.readBlock buf base 1).2.2.sector = disk.sector := by
  simp only [readBlock, sdReadSector, if_true]
  split <;> rfl

theorem writeBlock_one_fault : (disk.writeBlock buf base 1).2.fault = disk.fault := by
  simp only [writeBlock, sdWriteSector, if_true]
  split <;> rfl

theorem writeBlock_one_sector_ne {id : ℕ} (ne : id ≠ base) :
    (disk.writeBlock buf base 1).2.sector id = disk.sector id := by
  simp only [writeBlock, sdWriteSector, if_true]
  split
  · exact Function.update_of_ne ne _ _
  · rfl

end Frame

/-! ## Transfers of several sectors -/

/-- The bytes of the card from a sector on. -/
def bytesFrom (disk : Disk) (base : ℕ) : Bytes := fun i =>
  disk.sector (base + i / sectorBytes) (i % sectorBytes)

section Several

variable {disk : Disk} {sectors : ℕ → Prop} {base count : ℕ} {buf : Bytes}

theorem sdReadLoop_spec (i : ℕ) (buf : Bytes) (reliable : disk.ReliableOn sectors)
    (inside : ∀ k, i ≤ k → k < i + count → sectors (base + k))
    (fits : base + i + count ≤ 4294967296) :
    ∃ buf' transfers', disk.sdReadLoop base buf i count =
        (0, buf', { disk with transfers := transfers' }) ∧
      ∀ k, buf' k = if sectorBytes * i ≤ k ∧ k < sectorBytes * (i + count)
        then disk.bytesFrom base k else buf k := by
  induction count generalizing disk i buf with
  | zero =>
      refine ⟨buf, disk.transfers, rfl, fun k => ?_⟩
      rw [Nat.add_zero, if_neg (by omega)]
  | succ count ih =>
      have success : disk.fault disk.transfers (u32 (base + i)) = 0 := by
        rw [u32_of_lt (by omega)]
        apply reliable
        exact inside i le_rfl (by omega)
      let next : Disk := { disk with transfers := disk.transfers + 1 }
      let buf₁ := blit buf (i * sectorBytes) (disk.sector (base + i)) 0 sectorBytes
      have reliableNext : next.ReliableOn sectors := reliable
      rcases ih (i + 1) buf₁ reliableNext
          (fun k lower upper => inside k (by omega) (by omega)) (by omega) with
        ⟨buf', transfers', ran, bytes⟩
      refine ⟨buf', transfers', ?_, fun k => ?_⟩
      · simp only [sdReadLoop, sdReadSector, success, if_true]
        rw [u32_of_lt (by omega)]
        exact ran
      · rw [bytes k]
        unfold sectorBytes bytesFrom buf₁ blit sectorBytes
        by_cases here : 512 * i ≤ k ∧ k < 512 * (i + 1)
        · have number : k / 512 = i := by omega
          have offset : k - i * 512 = k % 512 := by omega
          rw [if_neg (by omega), if_pos (by omega), if_pos (by omega), number, offset,
            Nat.zero_add]
        · by_cases later : 512 * (i + 1) ≤ k ∧ k < 512 * (i + 1 + count)
          · rw [if_pos later, if_pos (by omega)]
          · rw [if_neg later, if_neg (by omega), if_neg (by omega)]

/-- A read that succeeds fills the front of the buffer and changes nothing on the card. -/
theorem readBlock_spec (buf : Bytes) (reliable : disk.ReliableOn sectors)
    (inside : ∀ k < count, sectors (base + k)) (fits : base + count ≤ 4294967296) :
    ∃ buf' transfers', disk.readBlock buf base count =
        (0, buf', { disk with transfers := transfers' }) ∧
      ∀ k, buf' k = if k < sectorBytes * count then disk.bytesFrom base k else buf k := by
  unfold readBlock
  split
  · rename_i isOne
    subst isOne
    have success : disk.fault disk.transfers base = 0 := reliable _ _ (inside 0 (by decide))
    refine ⟨blit buf 0 (disk.sector base) 0 sectorBytes, disk.transfers + 1, ?_, fun k => ?_⟩
    · simp [sdReadSector, success]
    · unfold bytesFrom blit
      by_cases below : k < sectorBytes
      · rw [if_pos (by omega), if_pos (by omega), Nat.div_eq_of_lt below,
          Nat.mod_eq_of_lt below]
        simp
      · rw [if_neg (by omega), if_neg (by omega)]
  · rcases sdReadLoop_spec 0 buf reliable
        (fun k _ (upper : k < 0 + count) => inside k (by omega)) (by omega) with
        ⟨buf', transfers', ran, bytes⟩
    refine ⟨buf', transfers', ran, fun k => ?_⟩
    rw [bytes k]
    simp

theorem sdWriteLoop_spec (i : ℕ) (buf : Bytes) (reliable : disk.ReliableOn sectors)
    (inside : ∀ k, i ≤ k → k < i + count → sectors (base + k))
    (fits : base + i + count ≤ 4294967296) :
    (disk.sdWriteLoop base buf i count).1 = 0 ∧
      (disk.sdWriteLoop base buf i count).2.fault = disk.fault ∧
      (∀ id k, (disk.sdWriteLoop base buf i count).2.sector id k =
        if base + i ≤ id ∧ id < base + i + count ∧ k < sectorBytes
          then buf ((id - base) * sectorBytes + k) else disk.sector id k) ∧
      ∀ id, id ∈ (disk.sdWriteLoop base buf i count).2.written ↔
        id ∈ disk.written ∨ base + i ≤ id ∧ id < base + i + count := by
  induction count generalizing disk i with
  | zero =>
      refine ⟨rfl, rfl, fun id k => ?_, fun id => ?_⟩
      · rw [if_neg (by omega)]
        rfl
      · have nowhere : ¬(base + i ≤ id ∧ id < base + i + 0) := by omega
        simp only [sdWriteLoop, nowhere, or_false]
  | succ count ih =>
      have success : disk.fault disk.transfers (u32 (base + i)) = 0 := by
        rw [u32_of_lt (by omega)]
        apply reliable
        exact inside i le_rfl (by omega)
      simp only [sdWriteLoop, sdWriteSector, success, if_true]
      rw [u32_of_lt (by omega)]
      generalize nextEq : (Disk.mk (Function.update disk.sector (base + i)
        (blit (disk.sector (base + i)) 0 buf (i * sectorBytes) sectorBytes)) disk.fault
        (disk.transfers + 1) ((base + i) :: disk.written)) = next
      have reliableNext : next.ReliableOn sectors := by
        subst nextEq
        exact reliable
      rcases ih (i + 1) reliableNext
          (fun k lower upper => inside k (by omega) (by omega)) (by omega) with
        ⟨code, fault, sector, written⟩
      refine ⟨code, ?_, fun id k => ?_, fun id => ?_⟩
      · rw [fault, ← nextEq]
      · rw [sector id k, ← nextEq]
        simp only [Function.update_apply]
        by_cases isHere : id = base + i
        · have offset : id - base = i := by omega
          rw [if_neg (by omega), if_pos isHere, offset]
          by_cases below : k < sectorBytes
          · rw [if_pos (by omega), blit_inside (by omega) (by omega), Nat.sub_zero]
          · rw [if_neg (by omega), blit_outside (by omega), isHere]
        · rw [if_neg isHere]
          by_cases later : base + (i + 1) ≤ id ∧ id < base + (i + 1) + count ∧ k < sectorBytes
          · rw [if_pos later, if_pos (by omega)]
          · rw [if_neg later, if_neg (by omega)]
      · have here : base + i ≤ id ∧ id < base + i + (count + 1) ↔
            id = base + i ∨ base + (i + 1) ≤ id ∧ id < base + (i + 1) + count := by omega
        rw [written id, ← nextEq, here, List.mem_cons, or_assoc, or_left_comm]

/-- A write that succeeds changes the bytes of its sectors and no others. -/
theorem writeBlock_spec (buf : Bytes) (reliable : disk.ReliableOn sectors)
    (inside : ∀ k < count, sectors (base + k)) (fits : base + count ≤ 4294967296) :
    (disk.writeBlock buf base count).1 = 0 ∧
      (disk.writeBlock buf base count).2.fault = disk.fault ∧
      (∀ id k, (disk.writeBlock buf base count).2.sector id k =
        if base ≤ id ∧ id < base + count ∧ k < sectorBytes
          then buf ((id - base) * sectorBytes + k) else disk.sector id k) ∧
      ∀ id, id ∈ (disk.writeBlock buf base count).2.written ↔
        id ∈ disk.written ∨ base ≤ id ∧ id < base + count := by
  have loop := sdWriteLoop_spec 0 buf reliable
    (fun k _ (upper : k < 0 + count) => inside k (by omega)) (by omega)
  simp only [Nat.add_zero] at loop
  unfold writeBlock
  split
  · rename_i isOne
    subst isOne
    have unfolded : disk.sdWriteLoop base buf 0 1 = disk.sdWriteSector base buf 0 := by
      have success : disk.fault disk.transfers base = 0 := reliable _ _ (inside 0 (by decide))
      simp [sdWriteLoop, sdWriteSector, u32_of_lt (show base < 4294967296 by omega), success]
    rw [← unfolded]
    exact loop
  · exact loop

/-- The sectors a write is logged for are those of its range. -/
theorem sdWriteLoop_log (disk : Disk) (i : ℕ) (buf : Bytes) (fits : base + i + count ≤ 4294967296) :
    ∃ log, (disk.sdWriteLoop base buf i count).2.written = log ++ disk.written ∧
      ∀ id ∈ log, base + i ≤ id ∧ id < base + i + count := by
  induction count generalizing disk i with
  | zero => exact ⟨[], rfl, by simp⟩
  | succ count ih =>
      simp only [sdWriteLoop, sdWriteSector]
      rw [u32_of_lt (by omega)]
      split
      · rename_i success
        split at success
        · rcases Prod.mk.inj success with ⟨_, rfl⟩
          rcases ih _ (i + 1) (by omega) with ⟨log, eq, inside⟩
          refine ⟨log ++ [base + i], by rw [eq]; simp, fun id mem => ?_⟩
          rcases List.mem_append.mp mem with later | here
          · have := inside id later
            omega
          · rw [List.mem_singleton.mp here]
            omega
        · rename_i failed
          exact absurd (Prod.mk.inj success).1 failed
      · rename_i failure
        split at failure
        · exact absurd (Prod.mk.inj failure).1 (by simp)
        · rcases Prod.mk.inj failure with ⟨_, rfl⟩
          exact ⟨[], rfl, by simp⟩

theorem writeBlock_log (disk : Disk) (buf : Bytes) (fits : base + count ≤ 4294967296) :
    ∃ log, (disk.writeBlock buf base count).2.written = log ++ disk.written ∧
      ∀ id ∈ log, base ≤ id ∧ id < base + count := by
  unfold writeBlock
  split
  · rename_i isOne
    subst isOne
    simp only [sdWriteSector]
    split
    · exact ⟨[base], rfl, by simp⟩
    · exact ⟨[], rfl, by simp⟩
  · exact sdWriteLoop_log disk 0 buf fits

end Several

/-! ## Transfers that fail -/

/-- The first sector of a range whose transfer is going to fail, from sector `i` of the range with
`left` sectors to go. -/
def firstFault (disk : Disk) (addr i : ℕ) : ℕ → Option ℕ
  | 0 => none
  | left + 1 =>
      if disk.fault disk.transfers (u32 (addr + i)) ≠ 0 then some i
      else firstFault { disk with transfers := disk.transfers + 1 } addr (i + 1) left

/-- The transfers a loop over a range makes: all of them, or those up to the first that fails. -/
def tries (disk : Disk) (addr count : ℕ) : ℕ :=
  ((disk.firstFault addr 0 count).map (· + 1)).getD count

/-- The card when a number of transfers more has been made. -/
def later (disk : Disk) (n : ℕ) : Disk := { disk with transfers := disk.transfers + n }

/-- The bytes a loop over sectors comes to, whose numbers wrap. -/
def bytesAt (disk : Disk) (addr : ℕ) : Bytes := fun k =>
  disk.sector (u32 (addr + k / sectorBytes)) (k % sectorBytes)

section Faults

variable {disk : Disk} {addr i left stop base count : ℕ} {buf : Bytes}

theorem firstFault_lt (fails : disk.firstFault addr i left = some stop) :
    i ≤ stop ∧ stop < i + left := by
  induction left generalizing disk i with
  | zero => simp [firstFault] at fails
  | succ left ih =>
      rw [firstFault] at fails
      split at fails
      · cases fails
        omega
      · have := ih fails
        omega

/-- Which transfer fails first depends on the pattern of failures and the transfers made. -/
theorem firstFault_congr {disk' : Disk} (fault : disk'.fault = disk.fault)
    (transfers : disk'.transfers = disk.transfers) :
    disk'.firstFault addr i left = disk.firstFault addr i left := by
  induction left generalizing disk disk' i with
  | zero => rfl
  | succ left ih =>
      rw [firstFault, firstFault, fault, transfers]
      split
      · rfl
      · exact ih rfl rfl

/-- A loop none of whose transfers fails. -/
theorem sdReadLoop_faultless (succeeds : disk.firstFault addr i left = none) (buf : Bytes) :
    ∃ buf', disk.sdReadLoop addr buf i left =
        (0, buf', { disk with transfers := disk.transfers + left }) ∧
      ∀ k, buf' k = if sectorBytes * i ≤ k ∧ k < sectorBytes * (i + left)
        then disk.bytesAt addr k else buf k := by
  induction left generalizing disk i buf with
  | zero => exact ⟨buf, rfl, fun k => by rw [Nat.add_zero, if_neg (by omega)]⟩
  | succ left ih =>
      rw [firstFault] at succeeds
      split at succeeds
      · simp at succeeds
      · rename_i success
        rw [not_not] at success
        rcases ih succeeds (blit buf (i * sectorBytes) (disk.sector (u32 (addr + i))) 0 sectorBytes)
          with ⟨buf', ran, bytes⟩
        refine ⟨buf', ?_, fun k => ?_⟩
        · simp only [sdReadLoop, sdReadSector, success, if_true, ran, Nat.add_assoc,
            Nat.add_comm left]
        · rw [bytes k]
          unfold bytesAt blit sectorBytes
          by_cases here : 512 * i ≤ k ∧ k < 512 * (i + 1)
          · have number : k / 512 = i := by omega
            have offset : k - i * 512 = k % 512 := by omega
            rw [if_neg (by omega), if_pos (by omega), if_pos (by omega), number, offset,
              Nat.zero_add]
          · by_cases later : 512 * (i + 1) ≤ k ∧ k < 512 * (i + (left + 1))
            · rw [if_pos (by omega), if_pos (by omega)]
            · rw [if_neg (by omega), if_neg (by omega), if_neg (by omega)]

/-- A loop one of whose transfers fails has filled the buffer up to there. -/
theorem sdReadLoop_fault (fails : disk.firstFault addr i left = some stop) (buf : Bytes) :
    ∃ buf' transfers, disk.sdReadLoop addr buf i left = (1, buf', { disk with transfers }) ∧
      ∀ k, buf' k = if sectorBytes * i ≤ k ∧ k < sectorBytes * stop
        then disk.bytesAt addr k else buf k := by
  induction left generalizing disk i buf with
  | zero => simp [firstFault] at fails
  | succ left ih =>
      rw [firstFault] at fails
      split at fails
      · rename_i failure
        cases fails
        refine ⟨buf, disk.transfers + 1, ?_, fun k => by rw [if_neg (by omega)]⟩
        simp only [sdReadLoop, sdReadSector, failure, if_false]
        rcases Nat.exists_eq_succ_of_ne_zero failure with ⟨code, eq⟩
        rw [eq]
      · rename_i success
        rw [not_not] at success
        have bounds := firstFault_lt fails
        rcases ih fails (blit buf (i * sectorBytes) (disk.sector (u32 (addr + i))) 0 sectorBytes)
          with ⟨buf', transfers, ran, bytes⟩
        refine ⟨buf', transfers, ?_, fun k => ?_⟩
        · simp only [sdReadLoop, sdReadSector, success, if_true, ran]
        · rw [bytes k]
          unfold bytesAt blit sectorBytes
          by_cases here : 512 * i ≤ k ∧ k < 512 * (i + 1)
          · have number : k / 512 = i := by omega
            have offset : k - i * 512 = k % 512 := by omega
            rw [if_neg (by omega), if_pos (by omega), if_pos (by omega), number, offset,
              Nat.zero_add]
          · by_cases later : 512 * (i + 1) ≤ k ∧ k < 512 * stop
            · rw [if_pos later, if_pos (by omega)]
            · rw [if_neg later, if_neg (by omega), if_neg (by omega)]

/-- Whether or not a write succeeds, it leaves the other sectors alone. -/
theorem sdWriteLoop_frame (buf : Bytes) (fits : base + i + count ≤ 4294967296) :
    (disk.sdWriteLoop base buf i count).2.fault = disk.fault ∧
      ∀ id, id < base + i ∨ base + i + count ≤ id →
        (disk.sdWriteLoop base buf i count).2.sector id = disk.sector id := by
  induction count generalizing disk i with
  | zero => exact ⟨rfl, fun _ _ => rfl⟩
  | succ count ih =>
      simp only [sdWriteLoop, sdWriteSector]
      rw [u32_of_lt (by omega)]
      by_cases success : disk.fault disk.transfers (base + i) = 0
      · simp only [success, if_true]
        rcases @ih { disk with
          sector := Function.update disk.sector (base + i)
            (blit (disk.sector (base + i)) 0 buf (i * sectorBytes) sectorBytes)
          transfers := disk.transfers + 1
          written := (base + i) :: disk.written } (i + 1) (by omega) with ⟨fault, sector⟩
        refine ⟨fault, fun id outside => ?_⟩
        rw [sector id (by omega)]
        exact Function.update_of_ne (by omega) _ _
      · rcases Nat.exists_eq_succ_of_ne_zero success with ⟨code, eq⟩
        simp only [eq, Nat.succ_ne_zero, if_false, implies_true, and_self]

/-- A loop of writes that fails makes no transfer behind the one that fails. -/
theorem sdWriteLoop_fault (fails : disk.firstFault addr i left = some stop) (buf : Bytes) :
    ∃ disk', disk.sdWriteLoop addr buf i left = (1, disk') ∧
      disk'.transfers = disk.transfers + (stop + 1 - i) := by
  induction left generalizing disk i with
  | zero => simp [firstFault] at fails
  | succ left ih =>
      rw [firstFault] at fails
      split at fails
      · rename_i failure
        cases fails
        rcases Nat.exists_eq_succ_of_ne_zero failure with ⟨code, eq⟩
        refine ⟨{ disk with transfers := disk.transfers + 1 }, ?_, ?_⟩
        · simp only [sdWriteLoop, sdWriteSector, eq, Nat.succ_ne_zero, if_false]
        · rw [Nat.add_sub_cancel_left]
      · rename_i success
        rw [not_not] at success
        have bounds := (firstFault_lt fails).1
        generalize nextEq : ({ disk with
          sector := Function.update disk.sector (u32 (addr + i))
            (blit (disk.sector (u32 (addr + i))) 0 buf (i * sectorBytes) sectorBytes)
          transfers := disk.transfers + 1
          written := u32 (addr + i) :: disk.written } : Disk) = next
        have nextFails : next.firstFault addr (i + 1) left = some stop := by
          rw [← fails, ← nextEq]
          exact firstFault_congr rfl rfl
        rcases ih nextFails with ⟨disk', ran, transfers⟩
        refine ⟨disk', ?_, ?_⟩
        · simp only [sdWriteLoop, sdWriteSector, success, if_true, nextEq, ran]
        · rw [transfers, ← nextEq]
          dsimp only
          omega

/-- A loop of writes none of which fails has put the buffer on the card. -/
theorem sdWriteLoop_faultless (succeeds : disk.firstFault addr i left = none) (buf : Bytes)
    (fits : addr + i + left ≤ 4294967296) :
    ∃ disk', disk.sdWriteLoop addr buf i left = (0, disk') ∧
      disk'.transfers = disk.transfers + left ∧
      ∀ k, sectorBytes * i ≤ k → k < sectorBytes * (i + left) →
        disk'.bytesAt addr k = buf k := by
  induction left generalizing disk i with
  | zero => exact ⟨disk, rfl, rfl, fun k lower upper => absurd upper (not_lt.mpr lower)⟩
  | succ left ih =>
      rw [firstFault] at succeeds
      split at succeeds
      · simp at succeeds
      · rename_i success
        rw [not_not] at success
        generalize nextEq : ({ disk with
          sector := Function.update disk.sector (u32 (addr + i))
            (blit (disk.sector (u32 (addr + i))) 0 buf (i * sectorBytes) sectorBytes)
          transfers := disk.transfers + 1
          written := u32 (addr + i) :: disk.written } : Disk) = next
        have nextSucceeds : next.firstFault addr (i + 1) left = none := by
          rw [← succeeds, ← nextEq]
          exact firstFault_congr rfl rfl
        rcases ih nextSucceeds (by omega) with ⟨disk', ran, transfers, bytes⟩
        have frame : ∀ id, id < addr + (i + 1) ∨ addr + (i + 1) + left ≤ id →
            (next.sdWriteLoop addr buf (i + 1) left).2.sector id = next.sector id :=
          (sdWriteLoop_frame buf (by omega)).2
        rw [ran] at frame
        refine ⟨disk', ?_, ?_, fun k lower upper => ?_⟩
        · simp only [sdWriteLoop, sdWriteSector, success, if_true, nextEq, ran]
        · rw [transfers, ← nextEq]
          dsimp only
          omega
        · by_cases here : k < sectorBytes * (i + 1)
          · unfold sectorBytes at lower here
            have number : k / sectorBytes = i := by
              unfold sectorBytes
              omega
            rw [bytesAt, number, u32_of_lt (by omega), frame _ (Or.inl (by omega)), ← nextEq]
            dsimp only
            rw [u32_of_lt (by omega), Function.update_self, blit_inside (Nat.zero_le _)
              (by rw [Nat.zero_add]; exact Nat.mod_lt _ (by decide))]
            unfold sectorBytes
            congr 1
            omega
          · exact bytes k (by omega) (by rw [Nat.add_assoc, Nat.add_comm 1]; exact upper)

theorem writeBlock_frame (disk : Disk) (buf : Bytes) (fits : base + count ≤ 4294967296) :
    (disk.writeBlock buf base count).2.fault = disk.fault ∧
      ∀ id, id < base ∨ base + count ≤ id →
        (disk.writeBlock buf base count).2.sector id = disk.sector id := by
  unfold writeBlock
  split
  · rename_i isOne
    subst isOne
    refine ⟨disk.writeBlock_one_fault buf base, fun id outside => ?_⟩
    exact disk.writeBlock_one_sector_ne buf base (by omega)
  · exact sdWriteLoop_frame buf fits

end Faults

end Disk

end Ninix
