import Ninix.Memory.BootSearch

/-!
# The alignment of boot allocations

The place where `find_pages` begins is rounded with a mask that clears two bits where it should
clear the lower ones, and a frame that is passed over because it is used is followed by the next
one. So neither the beginning of the search nor its steps keep to aligned frames: what is handed
out is whatever is free first, and it is aligned when nothing else has room in the window.
-/

namespace Ninix.Boot

open TransitionSystem

namespace Bootmm

variable {s : Bootmm}

/-- Whatever the map, frames are found at an aligned one behind that which is asked for. -/
def FindsAligned (cnt sPfn ePfn alignPfn : ℕ) : Prop :=
  ∀ (s : Bootmm) (res : ℕ) (s' : Bootmm),
    s.findPages cnt sPfn ePfn alignPfn = some (res, s') → res ≠ 0 →
      ∃ pfn, res = pfn * 4096 ∧ sPfn ≤ pfn ∧ alignPfn ∣ pfn

/-- Whatever the map of the machine, aligned addresses are handed out. -/
def AllocatesAligned (size align lastAllocEnd : ℕ) : Prop :=
  ∀ (s : Bootmm) (type res : ℕ) (s' : Bootmm),
    s.maxPfn = machineMmsize / 2 ^ pageShift → s.lastAllocEnd = lastAllocEnd →
      s.bootmmAllocPages size type align = some (res, s') → res ≠ 0 → align ∣ res

/-- The number of pages that `bootmm_alloc_pages` looks for. -/
def nsize (size : ℕ) : ℕ := (u32 (size + (2 ^ pageShift - 1)) &&& pageAlign) / 2 ^ pageShift

/-- The first frame of a window that can be handed out, as the null one is not. -/
def firstFrame (sPfn alignPfn : ℕ) : ℕ := max 1 (firstPfn sPfn alignPfn)

/-- There is no room in a window, every frame is aligned, or there is room at one frame only and
this is aligned. -/
def OnlyAligned (cnt sPfn ePfn alignPfn : ℕ) : Prop :=
  ePfn < firstFrame sPfn alignPfn + max cnt 1 ∨ alignPfn = 1 ∨
    (ePfn = firstFrame sPfn alignPfn + max cnt 1 ∧ alignPfn ∣ firstFrame sPfn alignPfn)

/-- Of two frames that follow each other one is not aligned. -/
theorem onlyAligned_iff {cnt sPfn ePfn alignPfn : ℕ} :
    OnlyAligned cnt sPfn ePfn alignPfn ↔ ∀ pfn, firstPfn sPfn alignPfn ≤ pfn → pfn ≠ 0 →
      pfn + max cnt 1 ≤ ePfn → alignPfn ∣ pfn := by
  unfold OnlyAligned firstFrame
  constructor
  · rintro (noRoom | isOne | ⟨room, isAligned⟩) pfn lower notNull fits
    · omega
    · exact isOne ▸ one_dvd pfn
    · have isFirst : pfn = max 1 (firstPfn sPfn alignPfn) := by omega
      exact isFirst ▸ isAligned
  · intro aligned
    by_cases noRoom : ePfn < max 1 (firstPfn sPfn alignPfn) + max cnt 1
    · exact .inl noRoom
    have first := aligned (max 1 (firstPfn sPfn alignPfn)) (by omega) (by omega) (by omega)
    by_cases roomForOne : ePfn = max 1 (firstPfn sPfn alignPfn) + max cnt 1
    · exact .inr (.inr ⟨roomForOne, first⟩)
    · have second := aligned (max 1 (firstPfn sPfn alignPfn) + 1) (by omega) (by omega) (by omega)
      exact .inr (.inl (Nat.dvd_one.mp ((Nat.dvd_add_right first).mp second)))

/-- The addresses of frames are told apart. -/
theorem address_eq {pfn : ℕ} (small : pfn < 2 ^ 20) : u32 (pfn * 2 ^ pageShift) = pfn * 4096 :=
  u32_of_lt (by unfold pageShift; omega)

/-! ## A map with few free frames -/

/-- Only some frames in a row are free. -/
def onlyFree (lastAllocEnd first count : ℕ) : Bootmm where
  phymm := machineMmsize
  maxPfn := machineMmsize / 2 ^ pageShift
  sMap pfn := if first ≤ pfn ∧ pfn < first + count then pageFree else pageUsed
  lastAllocEnd := lastAllocEnd
  cntInfos := 0
  info _ := ⟨0, 0, 0⟩

theorem onlyFree_used (lastAllocEnd : ℕ) {first count pfn : ℕ}
    (outside : ¬(first ≤ pfn ∧ pfn < first + count)) :
    (onlyFree lastAllocEnd first count).sMap pfn = pageUsed := if_neg outside

theorem onlyFree_freeRun {lastAllocEnd first cnt : ℕ} :
    (onlyFree lastAllocEnd first (max cnt 1)).FreeRun cnt first := by
  intro pfn lower upper
  exact if_pos ⟨lower, by omega⟩

theorem onlyFree_marked (lastAllocEnd first count : ℕ) :
    (onlyFree lastAllocEnd first count).Marked := by
  intro pfn
  by_cases inside : first ≤ pfn ∧ pfn < first + count
  · exact .inl (if_pos inside)
  · exact .inr (if_neg inside)

/-- The frames that are free are found. -/
theorem findPages_onlyFree (lastAllocEnd : ℕ) {cnt sPfn ePfn alignPfn pfn : ℕ}
    (lower : firstPfn sPfn alignPfn ≤ pfn) (fits : pfn + max cnt 1 ≤ ePfn) :
    (onlyFree lastAllocEnd pfn (max cnt 1)).findPages cnt sPfn ePfn alignPfn =
      some ((onlyFree lastAllocEnd pfn (max cnt 1)).handOut pfn cnt) := by
  apply findPages_first lower (by omega) (by omega) _ onlyFree_freeRun
  · intro other upper
    exact onlyFree_used lastAllocEnd (by omega)
  · have isFree : (onlyFree lastAllocEnd pfn (max cnt 1)).sMap pfn = pageFree :=
      if_pos ⟨Nat.le.refl, by omega⟩
    exact isFree ▸ pageFree_ne_pageUsed

/-- The free frames are the only ones that are found. -/
theorem findPages_onlyFree_none (lastAllocEnd : ℕ) {cnt sPfn ePfn alignPfn pfn : ℕ}
    (small : ePfn ≤ 2 ^ 20) (smallAlign : alignPfn < 2 ^ 20)
    (outside : ¬(firstPfn sPfn alignPfn ≤ pfn ∧ pfn + max cnt 1 ≤ ePfn)) :
    (onlyFree lastAllocEnd pfn (max cnt 1)).findPages cnt sPfn ePfn alignPfn =
      some (0, onlyFree lastAllocEnd pfn (max cnt 1)) := by
  rcases Nat.eq_zero_or_pos cnt with rfl | positive
  · apply findPages_none
    intro other lower upper
    exact onlyFree_used lastAllocEnd (by omega)
  · rcases (onlyFree_marked lastAllocEnd pfn (max cnt 1)).findLoop positive small smallAlign ePfn
      (firstPfn sPfn alignPfn) (Nat.le_add_right _ _) with ⟨out, ran, _⟩
    rcases findPages_found small (by omega) ran with
      rfl | ⟨first, lower, inside, fits, _, free, _⟩
    · exact ran
    · -- free frames in a row begin at the first one that is free
      have isFree : ∀ other, first ≤ other → other < first + cnt →
          pfn ≤ other ∧ other < pfn + max cnt 1 := by
        intro other lower' upper'
        by_contra notFree
        have isUsed := onlyFree_used lastAllocEnd notFree
        exact pageFree_ne_pageUsed ((free other lower' upper').symm.trans isUsed)
      have atFirst := isFree first Nat.le.refl (by omega)
      have atLast := isFree (first + cnt - 1) (by omega) (by omega)
      omega

/-! ## Searches -/

/-- What `find_pages` finds is aligned when nothing else has room. -/
theorem findsAligned_iff {cnt sPfn ePfn order : ℕ} (positive : 0 < cnt) (small : ePfn ≤ 2 ^ 20)
    (smallOrder : order ≤ 31) :
    FindsAligned cnt sPfn ePfn (2 ^ order) ↔
      OnlyAligned cnt sPfn ePfn (2 ^ order) ∧
        (ePfn < firstFrame sPfn (2 ^ order) + cnt ∨ sPfn ≤ firstFrame sPfn (2 ^ order)) := by
  have smallAlign : 2 ^ order ≤ 2 ^ 31 := Nat.pow_le_pow_right (by decide) smallOrder
  constructor
  · intro aligned
    have atFrame : ∀ pfn, firstPfn sPfn (2 ^ order) ≤ pfn → pfn ≠ 0 → pfn + max cnt 1 ≤ ePfn →
        sPfn ≤ pfn ∧ 2 ^ order ∣ pfn := by
      intro pfn lower notNull fits
      have isAddress : u32 (pfn * 2 ^ pageShift) = pfn * 4096 := address_eq (by omega)
      have notNull' : u32 (pfn * 2 ^ pageShift) ≠ 0 := by omega
      rcases aligned _ _ _ (findPages_onlyFree 0 lower fits) notNull' with
        ⟨pfn', isAddress', behind, isAligned⟩
      have same : pfn' = pfn :=
        Nat.eq_of_mul_eq_mul_right (by decide) (isAddress'.symm.trans isAddress)
      exact same ▸ ⟨behind, isAligned⟩
    refine ⟨onlyAligned_iff.mpr fun pfn lower notNull fits => (atFrame pfn lower notNull fits).2,
      ?_⟩
    by_cases noRoom : ePfn < firstFrame sPfn (2 ^ order) + cnt
    · exact .inl noRoom
    · unfold firstFrame at noRoom ⊢
      exact .inr (atFrame _ (by omega) (by omega) (by omega)).1
  · rintro ⟨onlyAligned, behind⟩ s res s' ran notNull
    rcases findPages_found small smallAlign ran with
      nothing | ⟨first, lower, inside, fits, _, _, found⟩
    · exact absurd (Prod.mk.inj nothing).1 notNull
    · have isAddress : res = first * 4096 :=
        (congrArg Prod.fst found).trans (address_eq (by omega))
      refine ⟨first, isAddress, ?_, ?_⟩
      · unfold firstFrame at behind
        omega
      · exact onlyAligned_iff.mp onlyAligned first lower (by omega) (by omega)

theorem page_dvd_address (pfn : ℕ) : 4096 ∣ u32 (pfn * 2 ^ pageShift) := by
  unfold u32 pageShift
  omega

/-- The results are addresses of pages. -/
theorem findLoop_page {pageCnt ePfn alignPfn fuel i : ℕ} {out : ℕ × Bootmm}
    (ran : s.findLoop pageCnt ePfn alignPfn fuel i = some out) : 4096 ∣ out.1 := by
  induction fuel generalizing i with
  | zero => exact absurd ran nofun
  | succ fuel ih =>
      rw [findLoop] at ran
      by_cases inside : i < ePfn
      · rw [if_pos inside] at ran
        by_cases isUsed : s.sMap i = pageUsed
        · rw [if_pos isUsed] at ran
          exact ih ran
        · rw [if_neg isUsed] at ran
          rcases Option.bind_eq_some_iff.mp ran with ⟨outcome, _, ran⟩
          cases outcome with
          | stop => exact Option.some.inj ran ▸ Nat.dvd_zero 4096
          | used pfn => exact ih ran
          | found last =>
              have isAddress := congrArg Prod.fst (Option.some.inj ran)
              exact isAddress ▸ page_dvd_address i
      · rw [if_neg inside, Option.some.injEq] at ran
        exact ran ▸ Nat.dvd_zero 4096

theorem findPages_page {pageCnt sPfn ePfn alignPfn : ℕ} {out : ℕ × Bootmm}
    (ran : s.findPages pageCnt sPfn ePfn alignPfn = some out) : 4096 ∣ out.1 :=
  findLoop_page ran

/-! ## Allocations -/

/-- A call hands out what one of its searches has found. -/
theorem bootmmAllocPages_found {size type align res : ℕ} {s' : Bootmm}
    (ran : s.bootmmAllocPages size type align = some (res, s')) (notNull : res ≠ 0) :
    ∃ behind next, s.findPages (nsize size) (u32 (s.lastAllocEnd + 1)) s.maxPfn
        (align / 2 ^ pageShift) = some (behind, next) ∧
      (res = behind ∨ behind = 0 ∧ ∃ final, next.findPages (nsize size) 0 next.lastAllocEnd
        (align / 2 ^ pageShift) = some (res, final)) := by
  unfold nsize
  rw [bootmmAllocPages] at ran
  simp only at ran
  rcases Option.bind_eq_some_iff.mp ran with ⟨⟨behind, next⟩, ranBehind, ran⟩
  refine ⟨behind, next, ranBehind, ?_⟩
  by_cases found : behind ≠ 0
  · simp only [if_pos found, Option.some.injEq, Prod.mk.injEq] at ran
    exact .inl ran.1.symm
  · simp only [if_neg found] at ran
    rcases Option.map_eq_some_iff.mp ran with ⟨⟨front, final⟩, ranFront, ran⟩
    by_cases found' : front ≠ 0
    · simp only [if_pos found', Prod.mk.injEq] at ran
      exact .inr ⟨not_not.mp found, final, ran.1 ▸ ranFront⟩
    · simp only [if_neg found', Prod.mk.injEq] at ran
      exact absurd ran.1.symm notNull

/-- A call hands out what its first search finds. -/
theorem bootmmAllocPages_behind {size type align behind : ℕ} {next : Bootmm}
    (ran : s.findPages (nsize size) (u32 (s.lastAllocEnd + 1)) s.maxPfn (align / 2 ^ pageShift) =
      some (behind, next)) (notNull : behind ≠ 0) :
    ∃ s', s.bootmmAllocPages size type align = some (behind, s') := by
  unfold nsize at ran
  rw [bootmmAllocPages]
  simp only [ran, Option.bind_some, if_pos notNull]
  exact ⟨_, rfl⟩

/-- A call hands out what its second search finds when the first one finds nothing. -/
theorem bootmmAllocPages_front {size type align front : ℕ} {next : Bootmm}
    (ranBehind : s.findPages (nsize size) (u32 (s.lastAllocEnd + 1)) s.maxPfn
      (align / 2 ^ pageShift) = some (0, s))
    (ran : s.findPages (nsize size) 0 s.lastAllocEnd (align / 2 ^ pageShift) =
      some (front, next)) (notNull : front ≠ 0) :
    ∃ s', s.bootmmAllocPages size type align = some (front, s') := by
  unfold nsize at ran ranBehind
  simp only [bootmmAllocPages]
  generalize u32 (size + (2 ^ pageShift - 1)) &&& pageAlign = rounded at ran ranBehind ⊢
  rw [ranBehind, Option.bind_some, if_neg (not_not.mpr rfl), ran, Option.map_some,
    if_pos notNull]
  exact ⟨_, rfl⟩

/-- The alignment of an address is that of its frame. -/
theorem align_dvd_iff {order pfn : ℕ} : 2 ^ (pageShift + order) ∣ pfn * 4096 ↔ 2 ^ order ∣ pfn := by
  have isPage : 2 ^ pageShift = 4096 := by decide
  have isShifted : 2 ^ (pageShift + order) = 2 ^ order * 4096 := by
    rw [Nat.pow_add, isPage, Nat.mul_comm]
  rw [isShifted]
  exact Nat.mul_dvd_mul_iff_right (by decide)

theorem alignPfn_eq (order : ℕ) : 2 ^ (pageShift + order) / 2 ^ pageShift = 2 ^ order := by
  rw [Nat.pow_add]
  exact Nat.mul_div_cancel_left _ (Nat.two_pow_pos _)

/-- The frame of an aligned address is aligned. -/
theorem AllocatesAligned.dvd {size order lastAllocEnd pfn : ℕ} {s' : Bootmm}
    (aligned : AllocatesAligned size (2 ^ (pageShift + order)) lastAllocEnd)
    (maxPfn : s.maxPfn = machineMmsize / 2 ^ pageShift) (isLast : s.lastAllocEnd = lastAllocEnd)
    (small : pfn < 2 ^ 20) (notNull : pfn ≠ 0)
    (ran : s.bootmmAllocPages size mmKernel (2 ^ (pageShift + order)) =
      some (u32 (pfn * 2 ^ pageShift), s')) : 2 ^ order ∣ pfn := by
  rw [address_eq small] at ran
  exact align_dvd_iff.mp (aligned s mmKernel (pfn * 4096) s' maxPfn isLast ran (by omega))

/-- Frames with room in one of the two windows are handed out when they alone are free. -/
theorem AllocatesAligned.onlyAligned {size order lastAllocEnd : ℕ} (smallOrder : order ≤ 19)
    (small : lastAllocEnd < 2 ^ 20)
    (aligned : AllocatesAligned size (2 ^ (pageShift + order)) lastAllocEnd) :
    OnlyAligned (nsize size) (lastAllocEnd + 1) (machineMmsize / 2 ^ pageShift) (2 ^ order) ∧
      OnlyAligned (nsize size) 0 lastAllocEnd (2 ^ order) := by
  have smallAlign : 2 ^ order < 2 ^ 20 := Nat.pow_lt_pow_right (by decide) (by omega)
  have isMachine : machineMmsize / 2 ^ pageShift = 2 ^ 15 := by decide
  have isStart : u32 (lastAllocEnd + 1) = lastAllocEnd + 1 := u32_of_lt (by omega)
  have notNullAddress : ∀ {pfn : ℕ}, pfn < 2 ^ 20 → pfn ≠ 0 → u32 (pfn * 2 ^ pageShift) ≠ 0 := by
    intro pfn smallPfn notNull
    rw [address_eq smallPfn]
    omega
  have behind : ∀ pfn, firstPfn (lastAllocEnd + 1) (2 ^ order) ≤ pfn → pfn ≠ 0 →
      pfn + max (nsize size) 1 ≤ machineMmsize / 2 ^ pageShift → 2 ^ order ∣ pfn := by
    intro pfn lower notNull fits
    have smallPfn : pfn < 2 ^ 20 := by omega
    have found := findPages_onlyFree lastAllocEnd lower fits
    rw [← alignPfn_eq order, ← isStart] at found
    rcases bootmmAllocPages_behind found (notNullAddress smallPfn notNull) with ⟨s', ran⟩
    exact aligned.dvd rfl rfl smallPfn notNull ran
  refine ⟨onlyAligned_iff.mpr behind, onlyAligned_iff.mpr fun pfn lower notNull fits => ?_⟩
  by_cases first : firstPfn (lastAllocEnd + 1) (2 ^ order) ≤ pfn ∧
      pfn + max (nsize size) 1 ≤ machineMmsize / 2 ^ pageShift
  · exact behind pfn first.1 notNull first.2
  · have smallPfn : pfn < 2 ^ 20 := by omega
    have nothing := findPages_onlyFree_none lastAllocEnd (by omega) smallAlign first
    have found := findPages_onlyFree lastAllocEnd lower fits
    rw [← alignPfn_eq order, ← isStart] at nothing
    rw [← alignPfn_eq order] at found
    rcases bootmmAllocPages_front nothing found (notNullAddress smallPfn notNull) with
      ⟨s', ran⟩
    exact aligned.dvd rfl rfl smallPfn notNull ran

/-- A window in which only aligned frames have room gives aligned frames. -/
theorem OnlyAligned.findPages {cnt sPfn ePfn order res : ℕ} {s' : Bootmm}
    (onlyAligned : OnlyAligned cnt sPfn ePfn (2 ^ order)) (small : ePfn ≤ 2 ^ 20)
    (smallOrder : order ≤ 19)
    (ran : s.findPages cnt sPfn ePfn (2 ^ order) = some (res, s')) (notNull : res ≠ 0) :
    2 ^ (pageShift + order) ∣ res := by
  have smallAlign : 2 ^ order ≤ 2 ^ 31 := Nat.pow_le_pow_right (by decide) (by omega)
  rcases findPages_found small smallAlign ran with
    nothing | ⟨first, lower, inside, fits, _, _, found⟩
  · exact absurd (Prod.mk.inj nothing).1 notNull
  · have isAddress : res = first * 4096 :=
      (congrArg Prod.fst found).trans (address_eq (by omega))
    rw [isAddress, align_dvd_iff]
    exact onlyAligned_iff.mp onlyAligned first lower (by omega) (by omega)

/-- The first search may hand the null frame out, which is taken for nothing. Then there is no
room for the second one, or frames that are not aligned have room. -/
theorem allocatesAligned_of_onlyAligned {size order lastAllocEnd : ℕ} (smallOrder : order ≤ 19)
    (small : lastAllocEnd < 2 ^ 20)
    (behind : OnlyAligned (nsize size) (lastAllocEnd + 1) (machineMmsize / 2 ^ pageShift)
      (2 ^ order))
    (front : OnlyAligned (nsize size) 0 lastAllocEnd (2 ^ order)) :
    AllocatesAligned size (2 ^ (pageShift + order)) lastAllocEnd := by
  have smallAlign : 2 ^ order ≤ 2 ^ 31 := Nat.pow_le_pow_right (by decide) (by omega)
  have isMachine : machineMmsize / 2 ^ pageShift = 2 ^ 15 := by decide
  intro s type res s' maxPfn isLast ran notNull
  rcases bootmmAllocPages_found ran notNull with ⟨res', next, ranBehind, isRes⟩
  rw [isLast, u32_of_lt (by omega), maxPfn, isMachine, alignPfn_eq] at ranBehind
  rw [isMachine] at behind
  clear isMachine maxPfn
  rcases isRes with rfl | ⟨rfl, final, ranFront⟩
  · exact behind.findPages (by omega) smallOrder ranBehind notNull
  rw [alignPfn_eq] at ranFront
  rcases findPages_found (by omega) smallAlign ranBehind with
    nothing | ⟨first, lower, inside, fits, _, _, found⟩
  · rw [(Prod.mk.inj nothing).2, isLast] at ranFront
    exact front.findPages (by omega) smallOrder ranFront notNull
  · have isNull : first = 0 := by
      have isAddress := (congrArg Prod.fst found).trans (address_eq (by omega))
      simp only at isAddress
      omega
    have isNext : next.lastAllocEnd = sub32 (nsize size) 1 := by
      rw [(Prod.mk.inj found).2, setMaps_eq, isNull, Nat.zero_add]
    rw [isNext] at ranFront
    rcases Nat.eq_zero_or_pos (nsize size) with nothing | positive
    · -- with no page to hand out any frame has room, so the alignment is that of a page
      have isPage : order = 0 := by
        rcases behind with noRoom | isOne | ⟨room, _⟩
        · unfold firstFrame at noRoom
          omega
        · exact (Nat.pow_eq_one.mp isOne).resolve_left (by decide)
        · unfold firstFrame at room
          omega
      have isAlign : 2 ^ (pageShift + order) = 4096 := by
        rw [isPage]
        decide
      rw [isAlign]
      exact findPages_page ranFront
    · rw [sub32_of_le (by omega) (by omega)] at ranFront
      rcases findPages_found (by omega) smallAlign ranFront with
        nothing | ⟨first', _, _, fits', _, _, _⟩
      · exact absurd (Prod.mk.inj nothing).1 notNull
      · omega

/-- Searches and allocations are aligned when only aligned frames have room. -/
theorem aligned_iff {size order lastAllocEnd cnt sPfn ePfn orderPfn : ℕ}
    (smallOrder : order ≤ 19) (lastFrame : lastAllocEnd < 2 ^ 20) (positive : 0 < cnt)
    (endFrame : ePfn ≤ 2 ^ 20) (smallOrderPfn : orderPfn ≤ 31) :
    (AllocatesAligned size (2 ^ (pageShift + order)) lastAllocEnd ↔
      OnlyAligned (nsize size) (lastAllocEnd + 1) (machineMmsize / 2 ^ pageShift) (2 ^ order) ∧
        OnlyAligned (nsize size) 0 lastAllocEnd (2 ^ order)) ∧
    (FindsAligned cnt sPfn ePfn (2 ^ orderPfn) ↔
      OnlyAligned cnt sPfn ePfn (2 ^ orderPfn) ∧
        (ePfn < firstFrame sPfn (2 ^ orderPfn) + cnt ∨ sPfn ≤ firstFrame sPfn (2 ^ orderPfn))) := by
  refine ⟨⟨AllocatesAligned.onlyAligned smallOrder lastFrame, ?_⟩,
    findsAligned_iff positive endFrame smallOrderPfn⟩
  rintro ⟨behind, front⟩
  exact allocatesAligned_of_onlyAligned smallOrder lastFrame behind front

/-- Two pages at an even frame behind the kernel's, and one behind the frame with number 8. -/
theorem aligned_iff_twoPages :
    (AllocatesAligned 8192 (2 ^ (pageShift + 1)) 4095 ↔
      OnlyAligned (nsize 8192) (4095 + 1) (machineMmsize / 2 ^ pageShift) (2 ^ 1) ∧
        OnlyAligned (nsize 8192) 0 4095 (2 ^ 1)) ∧
    (FindsAligned 1 8 16 (2 ^ 0) ↔
      OnlyAligned 1 8 16 (2 ^ 0) ∧
        (16 < firstFrame 8 (2 ^ 0) + 1 ∨ 8 ≤ firstFrame 8 (2 ^ 0))) :=
  aligned_iff (by decide) (by decide) (by decide) (by decide) (by decide)

/-- Behind a page that has been handed out a page at an even frame is asked for, and the next
one, which is odd, is handed out. -/
theorem not_allocatesAligned :
    ∃ s s', run Allocator.step Allocator.initAllocator [⟨4096, mmKernel, 4096⟩] = some s ∧
      s.mm.bootmmAllocPages 4096 mmKernel 8192 = some (4097 * 4096, s') ∧
      ¬AllocatesAligned 4096 8192 s.mm.lastAllocEnd := by
  have ran : (run Allocator.step Allocator.initAllocator [⟨4096, mmKernel, 4096⟩]).bind (fun s =>
      (s.mm.bootmmAllocPages 4096 mmKernel 8192).map fun out =>
        (s.mm.maxPfn, out.1)) = some (2 ^ 15, 4097 * 4096) := by
    decide +kernel
  rcases Option.bind_eq_some_iff.mp ran with ⟨s, isRun, ran⟩
  rcases Option.map_eq_some_iff.mp ran with ⟨⟨res, s'⟩, allocated, isOut⟩
  rcases Prod.mk.inj isOut with ⟨maxPfn, rfl⟩
  have isMachine : s.mm.maxPfn = machineMmsize / 2 ^ pageShift := maxPfn.trans (by decide)
  refine ⟨s, s', isRun, allocated, fun aligned => ?_⟩
  exact absurd (aligned s.mm mmKernel _ s' isMachine rfl allocated (by decide)) (by decide)

end Bootmm

end Ninix.Boot
