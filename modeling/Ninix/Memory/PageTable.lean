import Mathlib.Data.Nat.Bitwise
import Ninix.Driver.Disk

/-!
# Page tables

A page directory has an entry for every 4 MB of the virtual addresses, which points to a table
with an entry for every page of them. `do_mapping` maps pages one by one, and a table is allocated
and cleared when the first page of its 4 MB is mapped. The tables lie apart from each other and
from the directory, so that mapping a page changes what the translation says of this page only.
-/

namespace Ninix.Paging

/-- `PAGE_SHIFT` -/
def pageShift : ℕ := 12

/-- `PAGE_SIZE` -/
def pageSize : ℕ := 4096

/-- `PAGE_MASK` -/
def pageMask : ℕ := 0xfffff000

/-- `INDEX_MASK` -/
def indexMask : ℕ := 0x3ff

/-- `PGD_SHIFT` -/
def pgdShift : ℕ := 22

/-- The words of the memory at their addresses, and how many calls of `kmalloc` there were. -/
structure Memory where
  word : ℕ → ℕ
  calls : ℕ

namespace Memory

def store (s : Memory) (address value : ℕ) : Memory :=
  { s with word := Function.update s.word address value }

/-- `kernel_memset` to zero -/
def clear (s : Memory) (address count : ℕ) : Memory :=
  { s with word := fun other =>
      if address ≤ other ∧ other < address + count then 0 else s.word other }

/-- The end of `do_one_mapping`: the directory entry at `entry` gets the attributes, and the
entry of the table `pde` the page. -/
def insertPte (s : Memory) (entry pde pteIndex pa attr : ℕ) : Memory :=
  let s := s.store entry (s.word entry &&& pageMask)
  let s := s.store entry (s.word entry ||| attr)
  let s := s.store (pde + 4 * pteIndex) (pa &&& pageMask)
  s.store (pde + 4 * pteIndex) (s.word (pde + 4 * pteIndex) ||| attr)

section Mapping

variable (kmalloc : ℕ → ℕ)

/-- `do_one_mapping`, where `kmalloc` gives the result of every call -/
def doOneMapping (s : Memory) (pgd va pa attr : ℕ) : ℕ × Memory :=
  let pdeIndex := va / 2 ^ pgdShift
  let pteIndex := va / 2 ^ pageShift &&& indexMask
  let pde := s.word (pgd + 4 * pdeIndex) &&& pageMask
  if pde = 0 then
    let pde := kmalloc s.calls
    let s := { s with calls := s.calls + 1 }
    if pde = 0 then (1, s)
    else
      let s := s.clear pde pageSize
      let s := s.store (pgd + 4 * pdeIndex) pde
      (0, s.insertPte (pgd + 4 * pdeIndex) pde pteIndex pa attr)
  else (0, s.insertPte (pgd + 4 * pdeIndex) pde pteIndex pa attr)

/-- `do_mapping` -/
def doMapping (s : Memory) (pgd va : ℕ) : ℕ → ℕ → ℕ → ℕ × Memory
  | 0, _, _ => (0, s)
  | npage + 1, pa, attr =>
      match s.doOneMapping kmalloc pgd va pa attr with
      | (res, s) =>
          if res ≠ 0 then (1, s)
          else s.doMapping pgd (u32 (va + pageSize)) npage (u32 (pa + pageSize)) attr

end Mapping

/-- The table that an entry of the directory points to -/
def table (s : Memory) (pgd i : ℕ) : ℕ := s.word (pgd + 4 * i) &&& pageMask

/-- The page-table entry of a virtual address, 0 when there is no table -/
def walk (s : Memory) (pgd va : ℕ) : ℕ :=
  let pde := s.table pgd (va / 2 ^ pgdShift)
  if pde = 0 then 0 else s.word (pde + 4 * (va / 2 ^ pageShift &&& indexMask))

/-- An address begins a page that shares nothing with the directory. -/
structure IsTable (pgd pde : ℕ) : Prop where
  notNull : pde ≠ 0
  aligned : pageSize ∣ pde
  inside : pde < 2 ^ 32
  apart : pde + pageSize ≤ pgd ∨ pgd + pageSize ≤ pde

/-- The present entries of the directory point to different tables. -/
structure WellFormed (s : Memory) (pgd : ℕ) : Prop where
  entry : ∀ i < 1024, s.word (pgd + 4 * i) < 2 ^ 32
  present : ∀ i < 1024, s.table pgd i ≠ 0 → IsTable pgd (s.table pgd i)
  distinct : ∀ i < 1024, ∀ j < 1024, s.table pgd i ≠ 0 → s.table pgd i = s.table pgd j → i = j

/-- The calls of `kmalloc` up to one of them give fresh tables. -/
structure Fresh (kmalloc : ℕ → ℕ) (s : Memory) (pgd upTo : ℕ) : Prop where
  isTable : ∀ n, s.calls ≤ n → n < upTo → IsTable pgd (kmalloc n)
  unused : ∀ n, s.calls ≤ n → n < upTo → ∀ i < 1024, s.table pgd i ≠ kmalloc n
  distinct : ∀ n, s.calls ≤ n → n < upTo → ∀ m, s.calls ≤ m → m < upTo →
    kmalloc n = kmalloc m → n = m

/-- What mapping a page does. -/
structure MapsPage (s : Memory) (pgd va pa attr : ℕ) (s' : Memory) : Prop where
  wellFormed : s'.WellFormed pgd
  mapped : s'.walk pgd va = pa ||| attr
  others : ∀ other < 2 ^ 32, other / pageSize ≠ va / pageSize → s'.walk pgd other = s.walk pgd other
  tables : ∀ i < 1024, s.table pgd i ≠ 0 ∨ i ≠ va / 2 ^ pgdShift →
    s'.table pgd i = s.table pgd i

/-! ## Masks -/

theorem and_pageMask {value : ℕ} (small : value < 2 ^ 32) :
    value &&& pageMask = value / 4096 * 4096 := by
  have mask : pageMask / 2 ^ 12 = 2 ^ 20 - 1 := by decide
  have lower : (value &&& pageMask) % 2 ^ 12 = 0 := by
    rw [Nat.and_mod_two_pow]
    exact Nat.and_zero _
  have upper : (value &&& pageMask) / 2 ^ 12 = value / 4096 := by
    rw [Nat.and_div_two_pow, mask, Nat.and_two_pow_sub_one_eq_mod]
    exact Nat.mod_eq_of_lt (by omega)
  omega

theorem and_indexMask (value : ℕ) : value &&& indexMask = value % 1024 :=
  Nat.and_two_pow_sub_one_eq_mod value 10

/-- Attributes do not reach the address. -/
theorem or_attr {value attr : ℕ} (aligned : pageSize ∣ value) (small : attr < 4096) :
    value ||| attr = value + attr := by
  rcases aligned with ⟨frame, rfl⟩
  exact (Nat.two_pow_add_eq_or_of_lt (i := 12) small frame).symm

/-! ## Tables -/

variable {s : Memory} {pgd : ℕ}

/-- Two pages are the same one or share nothing. -/
theorem IsTable.eq_or_apart {pde other : ℕ} (isTable : IsTable pgd pde)
    (isTable' : IsTable pgd other) :
    pde = other ∨ pde + pageSize ≤ other ∨ other + pageSize ≤ pde := by
  rcases isTable.aligned with ⟨frame, rfl⟩
  rcases isTable'.aligned with ⟨frame', rfl⟩
  unfold pageSize
  omega

theorem IsTable.and_pageMask {pde : ℕ} (isTable : IsTable pgd pde) : pde &&& pageMask = pde := by
  rw [Memory.and_pageMask isTable.inside]
  rcases isTable.aligned with ⟨frame, rfl⟩
  unfold pageSize
  omega

/-- The attributes of an entry leave its table as it is. -/
theorem IsTable.or_attr {pde attr : ℕ} (isTable : IsTable pgd pde) (small : attr < 4096) :
    pde ||| attr < 2 ^ 32 ∧ (pde ||| attr) &&& pageMask = pde := by
  have inside := isTable.inside
  rw [Memory.or_attr isTable.aligned small]
  rcases isTable.aligned with ⟨frame, rfl⟩
  unfold pageSize at inside ⊢
  have bound : 4096 * frame + attr < 2 ^ 32 := by omega
  rw [Memory.and_pageMask bound]
  omega

/-- An entry of the directory is in no table. -/
theorem IsTable.ne_entry {pde i index : ℕ} (isTable : IsTable pgd pde) (inside : i < 1024)
    (small : index < 1024) : pgd + 4 * i ≠ pde + 4 * index := by
  have apart := isTable.apart
  unfold pageSize at apart
  omega

theorem WellFormed.congr {s' : Memory} (wellFormed : s.WellFormed pgd)
    (entry : ∀ i < 1024, s'.word (pgd + 4 * i) < 2 ^ 32)
    (tables : ∀ i < 1024, s'.table pgd i = s.table pgd i) : s'.WellFormed pgd := by
  refine ⟨entry, fun i inside present => ?_, fun i inside j inside' => ?_⟩
  · rw [tables i inside] at present ⊢
    exact wellFormed.present i inside present
  · rw [tables i inside, tables j inside']
    exact wellFormed.distinct i inside j inside'

/-- An entry of the directory gets a table of its own. -/
theorem WellFormed.newTable {s' : Memory} (wellFormed : s.WellFormed pgd) {index pde : ℕ}
    (isTable : IsTable pgd pde) (unused : ∀ i < 1024, s.table pgd i ≠ pde)
    (entry : ∀ i < 1024, s'.word (pgd + 4 * i) < 2 ^ 32) (isNew : s'.table pgd index = pde)
    (tables : ∀ i < 1024, i ≠ index → s'.table pgd i = s.table pgd i) : s'.WellFormed pgd := by
  refine ⟨entry, fun i inside present => ?_, fun i inside j inside' present same => ?_⟩
  · by_cases isIndex : i = index
    · rw [isIndex, isNew]
      exact isTable
    · rw [tables i inside isIndex] at present ⊢
      exact wellFormed.present i inside present
  · by_cases isIndex : i = index
    · by_cases isIndex' : j = index
      · exact isIndex.trans isIndex'.symm
      · rw [isIndex, isNew, tables j inside' isIndex'] at same
        exact absurd same.symm (unused j inside')
    · rw [tables i inside isIndex] at present same
      by_cases isIndex' : j = index
      · rw [isIndex', isNew] at same
        exact absurd same (unused i inside)
      · rw [tables j inside' isIndex'] at same
        exact wellFormed.distinct i inside j inside' present same

/-- The translation of an address in parts. -/
theorem walk_eq (s : Memory) (pgd va : ℕ) :
    s.walk pgd va = if s.table pgd (va / 2 ^ pgdShift) = 0 then 0
      else s.word (s.table pgd (va / 2 ^ pgdShift) + 4 * (va / 2 ^ pageShift % 1024)) := by
  rw [walk, and_indexMask]

theorem pdeIndex_lt {va : ℕ} (small : va < 2 ^ 32) : va / 2 ^ pgdShift < 1024 := by
  unfold pgdShift
  omega

/-- Different pages have different entries. -/
theorem WellFormed.pte_ne (wellFormed : s.WellFormed pgd) {va other : ℕ} (small : va < 2 ^ 32)
    (small' : other < 2 ^ 32) (present : s.table pgd (va / 2 ^ pgdShift) ≠ 0)
    (present' : s.table pgd (other / 2 ^ pgdShift) ≠ 0) (ne : other / pageSize ≠ va / pageSize) :
    s.table pgd (other / 2 ^ pgdShift) + 4 * (other / 2 ^ pageShift % 1024) ≠
      s.table pgd (va / 2 ^ pgdShift) + 4 * (va / 2 ^ pageShift % 1024) := by
  intro same
  have index := pdeIndex_lt small
  have index' := pdeIndex_lt small'
  have sameTable : s.table pgd (other / 2 ^ pgdShift) = s.table pgd (va / 2 ^ pgdShift) := by
    rcases (wellFormed.present _ index' present').eq_or_apart (wellFormed.present _ index present)
      with eq | apart
    · exact eq
    · unfold pageSize at apart
      omega
  have sameIndex := wellFormed.distinct _ index' _ index present' sameTable
  unfold pageShift pgdShift pageSize at *
  omega

/-! ## Mapping a page -/

/-- The words that change when a page is put into a table. -/
theorem insertPte_word {entry pde index pa attr : ℕ} (ne : entry ≠ pde + 4 * index)
    (address : ℕ) :
    (s.insertPte entry pde index pa attr).word address =
      if address = pde + 4 * index then pa &&& pageMask ||| attr
      else if address = entry then s.word entry &&& pageMask ||| attr
      else s.word address := by
  simp only [insertPte, store, Function.update_apply, if_true, if_neg ne.symm]
  by_cases atPte : address = pde + 4 * index
  · rw [if_pos atPte, if_pos atPte]
  by_cases atEntry : address = entry
  · simp only [if_neg atPte, if_pos atEntry]
  · simp only [if_neg atPte, if_neg atEntry]

/-- A page that is put into the table of its directory entry is mapped. -/
theorem WellFormed.insertPte (wellFormed : s.WellFormed pgd) {va pa attr : ℕ}
    (small : va < 2 ^ 32) (aligned : pageSize ∣ pa) (smallPa : pa < 2 ^ 32)
    (smallAttr : attr < 4096) (present : s.table pgd (va / 2 ^ pgdShift) ≠ 0) :
    MapsPage s pgd va pa attr (s.insertPte (pgd + 4 * (va / 2 ^ pgdShift))
      (s.table pgd (va / 2 ^ pgdShift)) (va / 2 ^ pageShift &&& indexMask) pa attr) := by
  have index := pdeIndex_lt small
  have isTable := wellFormed.present _ index present
  have pteIndex : va / 2 ^ pageShift % 1024 < 1024 := Nat.mod_lt _ (by decide)
  rw [and_indexMask]
  generalize isNext : s.insertPte (pgd + 4 * (va / 2 ^ pgdShift))
    (s.table pgd (va / 2 ^ pgdShift)) (va / 2 ^ pageShift % 1024) pa attr = s'
  have word : ∀ address, s'.word address =
      if address = s.table pgd (va / 2 ^ pgdShift) + 4 * (va / 2 ^ pageShift % 1024) then
        pa &&& pageMask ||| attr
      else if address = pgd + 4 * (va / 2 ^ pgdShift) then
        s.table pgd (va / 2 ^ pgdShift) ||| attr
      else s.word address :=
    fun address => isNext ▸ insertPte_word (isTable.ne_entry index pteIndex) address
  have entries : ∀ i < 1024, s'.word (pgd + 4 * i) =
      if i = va / 2 ^ pgdShift then s.table pgd i ||| attr else s.word (pgd + 4 * i) := by
    intro i inside
    rw [word, if_neg (isTable.ne_entry inside pteIndex)]
    by_cases same : i = va / 2 ^ pgdShift
    · rw [if_pos same, if_pos (by rw [same]), same]
    · rw [if_neg same, if_neg (by omega)]
  have tables : ∀ i < 1024, s'.table pgd i = s.table pgd i := by
    intro i inside
    rw [table, entries i inside]
    by_cases same : i = va / 2 ^ pgdShift
    · rw [if_pos same, same]
      exact (isTable.or_attr smallAttr).2
    · rw [if_neg same]
      rfl
  have entry : ∀ i < 1024, s'.word (pgd + 4 * i) < 2 ^ 32 := by
    intro i inside
    rw [entries i inside]
    by_cases same : i = va / 2 ^ pgdShift
    · rw [if_pos same, same]
      exact (isTable.or_attr smallAttr).1
    · rw [if_neg same]
      exact wellFormed.entry i inside
  refine ⟨wellFormed.congr entry tables, ?_, fun other small' ne => ?_,
    fun i inside _ => tables i inside⟩
  · have isPa : pa &&& pageMask = pa := by
      rw [and_pageMask smallPa]
      rcases aligned with ⟨frame, rfl⟩
      unfold pageSize
      omega
    rw [walk_eq, tables _ index, if_neg present, word, if_pos rfl, isPa]
  · have index' := pdeIndex_lt small'
    have pteIndex' : other / 2 ^ pageShift % 1024 < 1024 := Nat.mod_lt _ (by decide)
    rw [walk_eq, walk_eq, tables _ index']
    by_cases absent : s.table pgd (other / 2 ^ pgdShift) = 0
    · rw [if_pos absent, if_pos absent]
    have isTable' := wellFormed.present _ index' absent
    rw [if_neg absent, if_neg absent, word,
      if_neg (wellFormed.pte_ne small small' present absent ne),
      if_neg (isTable'.ne_entry index pteIndex').symm]

/-- A fresh table that is put into an empty entry of the directory changes no translation. -/
theorem WellFormed.allocate (wellFormed : s.WellFormed pgd) {index pde calls : ℕ}
    (inside : index < 1024) (absent : s.table pgd index = 0) (isTable : IsTable pgd pde)
    (unused : ∀ i < 1024, s.table pgd i ≠ pde) {s' : Memory}
    (isNext : (({ s with calls }).clear pde pageSize).store (pgd + 4 * index) pde = s') :
    s'.WellFormed pgd ∧ (∀ other < 2 ^ 32, s'.walk pgd other = s.walk pgd other) ∧
      s'.table pgd index = pde ∧ ∀ i < 1024, i ≠ index → s'.table pgd i = s.table pgd i := by
  have word : ∀ address, s'.word address =
      if address = pgd + 4 * index then pde
      else if pde ≤ address ∧ address < pde + pageSize then 0 else s.word address := by
    intro address
    rw [← isNext]
    exact Function.update_apply _ _ _ _
  have outside : ∀ i < 1024, ¬(pde ≤ pgd + 4 * i ∧ pgd + 4 * i < pde + pageSize) := by
    intro i inside
    have apart := isTable.apart
    unfold pageSize at apart ⊢
    omega
  have isNew : s'.table pgd index = pde := by
    rw [table, word, if_pos rfl]
    exact isTable.and_pageMask
  have others : ∀ i < 1024, i ≠ index → s'.word (pgd + 4 * i) = s.word (pgd + 4 * i) := by
    intro i inside ne
    rw [word, if_neg (by omega), if_neg (outside i inside)]
  have tables : ∀ i < 1024, i ≠ index → s'.table pgd i = s.table pgd i := by
    intro i inside ne
    rw [table, others i inside ne]
    rfl
  have entry : ∀ i < 1024, s'.word (pgd + 4 * i) < 2 ^ 32 := by
    intro i inside
    by_cases isIndex : i = index
    · rw [isIndex, word, if_pos rfl]
      exact isTable.inside
    · rw [others i inside isIndex]
      exact wellFormed.entry i inside
  refine ⟨wellFormed.newTable isTable unused entry isNew tables, fun other small => ?_, isNew,
    tables⟩
  have index' := pdeIndex_lt small
  have pteIndex : other / 2 ^ pageShift % 1024 < 1024 := Nat.mod_lt _ (by decide)
  rw [walk_eq, walk_eq]
  by_cases isIndex : other / 2 ^ pgdShift = index
  · rw [isIndex, isNew, absent, if_neg isTable.notNull, if_pos rfl, word,
      if_neg (isTable.ne_entry inside pteIndex).symm, if_pos]
    unfold pageSize
    omega
  · rw [tables _ index' isIndex]
    by_cases absent' : s.table pgd (other / 2 ^ pgdShift) = 0
    · rw [if_pos absent', if_pos absent']
    have isTable' := wellFormed.present _ index' absent'
    have apart := (isTable'.eq_or_apart isTable).resolve_left (unused _ index')
    rw [if_neg absent', if_neg absent', word, if_neg (isTable'.ne_entry inside pteIndex).symm,
      if_neg]
    unfold pageSize at apart ⊢
    omega

variable {kmalloc : ℕ → ℕ}

/-- No call is undone. -/
theorem doOneMapping_calls (va pa attr : ℕ) :
    s.calls ≤ (s.doOneMapping kmalloc pgd va pa attr).2.calls := by
  rw [doOneMapping]
  simp only
  split_ifs
  · exact Nat.le_succ _
  · exact Nat.le_succ _
  · exact Nat.le.refl

theorem doMapping_calls (va npage pa attr : ℕ) :
    s.calls ≤ (s.doMapping kmalloc pgd va npage pa attr).2.calls := by
  induction npage generalizing s va pa with
  | zero => exact Nat.le.refl
  | succ npage ih =>
      have step : s.calls ≤ (s.doOneMapping kmalloc pgd va pa attr).2.calls :=
        doOneMapping_calls va pa attr
      rw [doMapping]
      by_cases failed : (s.doOneMapping kmalloc pgd va pa attr).1 ≠ 0
      · simp only [if_pos failed]
        exact step
      · simp only [if_neg failed]
        exact Nat.le_trans step (ih _ _)

/-- The calls for the first page are among those for all pages. -/
theorem doMapping_succ_calls (va npage pa attr : ℕ) :
    (s.doOneMapping kmalloc pgd va pa attr).2.calls ≤
      (s.doMapping kmalloc pgd va (npage + 1) pa attr).2.calls := by
  rw [doMapping]
  by_cases failed : (s.doOneMapping kmalloc pgd va pa attr).1 ≠ 0
  · simp only [if_pos failed]
    exact Nat.le.refl
  · simp only [if_neg failed]
    exact doMapping_calls _ _ _ _

/-- The tables that may still be allocated stay unused when only a table of the call made now is
put into the directory. -/
theorem Fresh.next {upTo index : ℕ} {s' : Memory} (fresh : s.Fresh kmalloc pgd upTo)
    (called : s.calls < upTo) (calls : s'.calls = s.calls + 1)
    (isNew : s'.table pgd index = kmalloc s.calls)
    (tables : ∀ i < 1024, i ≠ index → s'.table pgd i = s.table pgd i) :
    s'.Fresh kmalloc pgd upTo := by
  refine ⟨fun n lower upper => ?_, fun n lower upper i inside => ?_,
    fun n lower upper m lower' upper' => ?_⟩
  · exact fresh.isTable n (by omega) upper
  · by_cases isIndex : i = index
    · rw [isIndex, isNew]
      intro same
      have isCall := fresh.distinct s.calls Nat.le.refl called n (by omega) upper same
      omega
    · rw [tables i inside isIndex]
      exact fresh.unused n (by omega) upper i inside
  · exact fresh.distinct n (by omega) upper m (by omega) upper'

/-- A page is mapped, and the tables that may still be allocated stay unused. -/
theorem WellFormed.doOneMapping (wellFormed : s.WellFormed pgd) {va pa attr upTo : ℕ}
    (small : va < 2 ^ 32) (aligned : pageSize ∣ pa) (smallPa : pa < 2 ^ 32)
    (smallAttr : attr < 4096) (fresh : s.Fresh kmalloc pgd upTo)
    (made : (s.doOneMapping kmalloc pgd va pa attr).2.calls ≤ upTo) :
    ∃ s', s.doOneMapping kmalloc pgd va pa attr = (0, s') ∧ MapsPage s pgd va pa attr s' ∧
      s'.Fresh kmalloc pgd upTo := by
  have index := pdeIndex_lt small
  by_cases absent : s.table pgd (va / 2 ^ pgdShift) = 0
  · have isAbsent : s.word (pgd + 4 * (va / 2 ^ pgdShift)) &&& pageMask = 0 := absent
    have called : s.calls < upTo := by
      have calls : (s.doOneMapping kmalloc pgd va pa attr).2.calls = s.calls + 1 := by
        simp only [Memory.doOneMapping, if_pos isAbsent]
        split_ifs
        · rfl
        · rfl
      omega
    have isTable := fresh.isTable s.calls Nat.le.refl called
    have unused := fresh.unused s.calls Nat.le.refl called
    generalize isNext : ((({ s with calls := s.calls + 1 }).clear (kmalloc s.calls) pageSize).store
      (pgd + 4 * (va / 2 ^ pgdShift)) (kmalloc s.calls)) = s'
    have calls : s'.calls = s.calls + 1 := by
      rw [← isNext]
      rfl
    rcases wellFormed.allocate index absent isTable unused isNext with
      ⟨wellFormed', walks, isNew, tables⟩
    have mapped := wellFormed'.insertPte small aligned smallPa smallAttr (isNew ▸ isTable.notNull)
    have tables' : ∀ i < 1024, i ≠ va / 2 ^ pgdShift → (s'.insertPte
        (pgd + 4 * (va / 2 ^ pgdShift)) (s'.table pgd (va / 2 ^ pgdShift))
        (va / 2 ^ pageShift &&& indexMask) pa attr).table pgd i = s.table pgd i :=
      fun i inside ne => (mapped.tables i inside (.inr ne)).trans (tables i inside ne)
    refine ⟨_, ?_, ⟨mapped.wellFormed, mapped.mapped, fun other small' ne => ?_,
      fun i inside kept => ?_⟩, fresh.next called ?_ ?_ tables'⟩
    · rw [isNew, ← isNext]
      simp only [Memory.doOneMapping, if_pos isAbsent, if_neg isTable.notNull]
    · exact (mapped.others other small' ne).trans (walks other small')
    · apply tables' i inside
      rcases kept with present | ne
      · exact fun same => present (same ▸ absent)
      · exact ne
    · exact calls
    · exact (mapped.tables _ index (.inl (isNew ▸ isTable.notNull))).trans isNew
  · have isPresent : s.word (pgd + 4 * (va / 2 ^ pgdShift)) &&& pageMask ≠ 0 := absent
    have mapped := wellFormed.insertPte small aligned smallPa smallAttr absent
    have tables : ∀ i < 1024, (s.insertPte
        (pgd + 4 * (va / 2 ^ pgdShift)) (s.table pgd (va / 2 ^ pgdShift))
        (va / 2 ^ pageShift &&& indexMask) pa attr).table pgd i = s.table pgd i := by
      intro i inside
      by_cases same : i = va / 2 ^ pgdShift
      · exact mapped.tables i inside (.inl (same ▸ absent))
      · exact mapped.tables i inside (.inr same)
    refine ⟨_, ?_, mapped, fun n lower upper => fresh.isTable n lower upper,
      fun n lower upper i inside => ?_, fresh.distinct⟩
    · simp only [Memory.doOneMapping, if_neg isPresent]
      rfl
    · rw [tables i inside]
      exact fresh.unused n lower upper i inside

/-! ## Mapping pages -/

/-- The page of an address that is some pages further on. -/
theorem page_ne {va other k : ℕ} (aligned : pageSize ∣ va) (small : va < 2 ^ 32)
    (positive : 0 < k) (few : k < 2 ^ 20) (same : other = u32 (va + pageSize * k)) :
    other / pageSize ≠ va / pageSize := by
  rcases aligned with ⟨frame, rfl⟩
  unfold u32 pageSize at *
  omega

theorem u32_page_succ (va k : ℕ) :
    u32 (u32 (va + pageSize) + pageSize * k) = u32 (va + pageSize * (k + 1)) := by
  unfold u32 pageSize
  omega

theorem page_dvd_u32 {va : ℕ} (aligned : pageSize ∣ va) : pageSize ∣ u32 (va + pageSize) := by
  rcases aligned with ⟨frame, rfl⟩
  unfold u32 pageSize
  omega

/-- Pages are mapped one after another to pages one after another; no other page is mapped in
another way, and no table that there was is moved. -/
theorem doMapping_maps {va npage pa attr : ℕ} (wellFormed : s.WellFormed pgd)
    (aligned : pageSize ∣ va) (small : va < 2 ^ 32) (alignedPa : pageSize ∣ pa)
    (smallPa : pa < 2 ^ 32) (few : npage ≤ 2 ^ 20) (smallAttr : attr < 4096)
    (fresh : s.Fresh kmalloc pgd (s.doMapping kmalloc pgd va npage pa attr).2.calls) :
    ∃ s', s.doMapping kmalloc pgd va npage pa attr = (0, s') ∧
      (∀ k < npage, s'.walk pgd (u32 (va + pageSize * k)) = u32 (pa + pageSize * k) ||| attr) ∧
      (∀ other < 2 ^ 32, (∀ k < npage, other / pageSize ≠ u32 (va + pageSize * k) / pageSize) →
        s'.walk pgd other = s.walk pgd other) ∧
      (∀ i < 1024, s.table pgd i ≠ 0 → s'.table pgd i = s.table pgd i) ∧ s'.WellFormed pgd := by
  generalize isEnd : (s.doMapping kmalloc pgd va npage pa attr).2.calls = upTo at fresh
  replace isEnd := Nat.le_of_eq isEnd
  induction npage generalizing s va pa with
  | zero => exact ⟨s, rfl, by omega, fun _ _ _ => rfl, fun _ _ _ => rfl, wellFormed⟩
  | succ npage ih =>
      have made := Nat.le_trans (doMapping_succ_calls va npage pa attr) isEnd
      rcases wellFormed.doOneMapping small alignedPa smallPa smallAttr fresh made with
        ⟨next, isStep, mapsPage, fresh'⟩
      have isRest : s.doMapping kmalloc pgd va (npage + 1) pa attr =
          next.doMapping kmalloc pgd (u32 (va + pageSize)) npage (u32 (pa + pageSize)) attr := by
        rw [Memory.doMapping, isStep]
        rfl
      rcases ih mapsPage.wellFormed (page_dvd_u32 aligned) (u32_lt _) (page_dvd_u32 alignedPa)
        (u32_lt _) (by omega) fresh' (isRest ▸ isEnd) with
        ⟨s', ran, mapped, others, tables, wellFormed'⟩
      refine ⟨s', isRest.trans ran, fun k lt => ?_, fun other small' apart => ?_,
        fun i inside present => ?_, wellFormed'⟩
      · cases k with
        | zero =>
            -- the page mapped first is none of those mapped behind it
            have isFirst : u32 (va + pageSize * 0) = va := u32_of_lt small
            have isFirst' : u32 (pa + pageSize * 0) = pa := u32_of_lt smallPa
            rw [isFirst, isFirst', others va small, mapsPage.mapped]
            intro k lt
            exact (page_ne aligned small (Nat.succ_pos k) (by omega) (u32_page_succ va k)).symm
        | succ k =>
            rw [← u32_page_succ, ← u32_page_succ]
            exact mapped k (by omega)
      · have first := apart 0 (by omega)
        have isFirst : u32 (va + pageSize * 0) = va := u32_of_lt small
        rw [isFirst] at first
        rw [others other small' ?_, mapsPage.others other small' first]
        intro k lt
        rw [u32_page_succ]
        exact apart (k + 1) (by omega)
      · have kept := mapsPage.tables i inside (.inl present)
        exact (tables i inside (kept ▸ present)).trans kept

/-- A memory in which all words are 0, those of a directory at any address too -/
def empty : Memory := ⟨fun _ => 0, 0⟩

/-- Tables one after another from 1 MB on -/
def tablesFrom1M (n : ℕ) : ℕ := 0x100000 + 4096 * n

theorem empty_wellFormed (pgd : ℕ) : empty.WellFormed pgd := by
  have absent : ∀ i, empty.table pgd i = 0 := fun _ => Nat.zero_and _
  refine ⟨fun _ _ => Nat.two_pow_pos 32, fun i _ present => ?_, fun i _ _ _ present => ?_⟩
  · exact absurd (absent i) present
  · exact absurd (absent i) present

/-- The last page of 4 MB and the first one behind, each in a table of its own. -/
theorem doMapping_maps_twoTables :
    ∃ s', empty.doMapping tablesFrom1M 0x1000 0x3ff000 2 0x5000 7 = (0, s') ∧
      (∀ k < 2, s'.walk 0x1000 (u32 (0x3ff000 + pageSize * k)) =
        u32 (0x5000 + pageSize * k) ||| 7) ∧
      (∀ other < 2 ^ 32, (∀ k < 2, other / pageSize ≠ u32 (0x3ff000 + pageSize * k) / pageSize) →
        s'.walk 0x1000 other = empty.walk 0x1000 other) ∧
      (∀ i < 1024, empty.table 0x1000 i ≠ 0 → s'.table 0x1000 i = empty.table 0x1000 i) ∧
      s'.WellFormed 0x1000 := by
  have calls : (empty.doMapping tablesFrom1M 0x1000 0x3ff000 2 0x5000 7).2.calls = 2 := by
    decide +kernel
  have fresh : empty.Fresh tablesFrom1M 0x1000 2 := by
    refine ⟨fun n _ upper => ⟨?_, ?_, ?_, ?_⟩, fun n _ _ i _ same => ?_, fun n _ _ m _ _ same => ?_⟩
    · unfold tablesFrom1M
      omega
    · unfold tablesFrom1M pageSize
      omega
    · unfold tablesFrom1M
      omega
    · unfold tablesFrom1M pageSize
      omega
    · have absent : empty.table 0x1000 i = 0 := Nat.zero_and _
      unfold tablesFrom1M at same
      omega
    · unfold tablesFrom1M at same
      omega
  exact doMapping_maps (empty_wellFormed 0x1000) (by decide) (by decide) (by decide) (by decide)
    (by decide) (by decide) (calls ▸ fresh)

end Memory

end Ninix.Paging
