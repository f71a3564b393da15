import Ninix.Memory.Bootmm

/-!
# Where the boot allocator looks for frames

`find_pages` goes through a window of frames. With the alignment of a page it leaves no frame out
that free frames could begin at, and the two windows of `bootmm_alloc_pages` meet in a used frame,
so that free frames are found wherever they are.
-/

namespace Ninix.Boot

open TransitionSystem

namespace Bootmm

variable {s : Bootmm}

/-- As many frames are free from one on. -/
def FreeRun (s : Bootmm) (count first : ℕ) : Prop :=
  ∀ pfn, first ≤ pfn → pfn < first + count → s.sMap pfn = pageFree

/-- Some frames of the machine are free in a row. -/
def HasRun (s : Bootmm) (count : ℕ) : Prop :=
  ∃ first, first + count ≤ s.maxPfn ∧ s.FreeRun count first

/-- How `find_pages` hands frames out. -/
def handOut (s : Bootmm) (first count : ℕ) : ℕ × Bootmm :=
  (u32 (first * 2 ^ pageShift),
    { s with lastAllocEnd := sub32 (first + count) 1 }.setMaps first pageUsed count)

/-! ## The inner loop -/

/-- How the inner loop of `find_pages` ends, whatever the map. -/
inductive Counts (s : Bootmm) (ePfn cnt temp : ℕ) : CountLoop → Prop
  | stop (short : ePfn < temp + cnt) : Counts s ePfn cnt temp .stop
  | used (pfn : ℕ) (lower : temp ≤ pfn) (upper : pfn < temp + cnt) (inside : pfn < ePfn)
      (isUsed : s.sMap pfn = pageUsed) : Counts s ePfn cnt temp (.used pfn)
  | found (fits : 0 < cnt → temp + cnt ≤ ePfn) (free : s.FreeRun cnt temp) :
      Counts s ePfn cnt temp (.found (temp + cnt))

theorem countLoop_counts {ePfn cnt temp : ℕ} {outcome : CountLoop}
    (ran : s.countLoop ePfn cnt temp = some outcome) : s.Counts ePfn cnt temp outcome := by
  induction cnt generalizing temp with
  | zero =>
      rw [countLoop, Option.some.injEq] at ran
      exact ran ▸ .found (by omega) (by intro pfn; omega)
  | succ cnt ih =>
      rw [countLoop] at ran
      by_cases atEnd : ePfn ≤ temp
      · rw [if_pos atEnd, Option.some.injEq] at ran
        exact ran ▸ .stop (by omega)
      rw [if_neg atEnd] at ran
      by_cases isUsed : s.sMap temp = pageUsed
      · rw [if_pos isUsed, Option.some.injEq] at ran
        exact ran ▸ .used temp (by omega) (by omega) (by omega) isUsed
      rw [if_neg isUsed] at ran
      by_cases isFree : s.sMap temp = pageFree
      · rw [if_pos isFree] at ran
        cases ih ran with
        | stop short => exact .stop (by omega)
        | used pfn lower upper inside isUsed =>
            exact .used pfn (by omega) (by omega) inside isUsed
        | found fits free =>
            rw [Nat.add_assoc, Nat.add_comm 1]
            refine .found (by omega) fun pfn lower upper => ?_
            rcases Nat.eq_or_lt_of_le lower with eq | behind
            · exact eq ▸ isFree
            · exact free pfn behind (by omega)
      · rw [if_neg isFree] at ran
        cases ran

/-- Free frames in the window are all counted. -/
theorem FreeRun.countLoop {ePfn cnt temp : ℕ} (free : s.FreeRun cnt temp)
    (fits : temp + cnt ≤ ePfn) : s.countLoop ePfn cnt temp = some (.found (temp + cnt)) := by
  induction cnt generalizing temp with
  | zero => rfl
  | succ cnt ih =>
      have isFree : s.sMap temp = pageFree := free temp Nat.le.refl (by omega)
      have notUsed : s.sMap temp ≠ pageUsed := isFree ▸ pageFree_ne_pageUsed
      have others : s.FreeRun cnt (temp + 1) := fun pfn lower upper =>
        free pfn (by omega) (by omega)
      rw [Bootmm.countLoop, if_neg (by omega), if_neg notUsed, if_pos isFree,
        ih others (by omega), Nat.add_assoc, Nat.add_comm 1]

/-! ## The search -/

/-- What is found is in the window and behind the place where the search began. -/
theorem findLoop_found {pageCnt ePfn alignPfn fuel i : ℕ} {out : ℕ × Bootmm}
    (small : ePfn ≤ 2 ^ 20) (smallAlign : alignPfn ≤ 2 ^ 31)
    (ran : s.findLoop pageCnt ePfn alignPfn fuel i = some out) :
    out = (0, s) ∨ ∃ first, i ≤ first ∧ first < ePfn ∧ first + pageCnt ≤ ePfn ∧
      s.sMap first ≠ pageUsed ∧ s.FreeRun pageCnt first ∧ out = s.handOut first pageCnt := by
  induction fuel generalizing i with
  | zero => exact absurd ran nofun
  | succ fuel ih =>
      -- a search further behind begins behind this place as well
      have later : ∀ j, i ≤ j → s.findLoop pageCnt ePfn alignPfn fuel j = some out →
          out = (0, s) ∨ ∃ first, i ≤ first ∧ first < ePfn ∧ first + pageCnt ≤ ePfn ∧
            s.sMap first ≠ pageUsed ∧ s.FreeRun pageCnt first ∧
            out = s.handOut first pageCnt := by
        intro j behind ran
        refine (ih ran).imp_right ?_
        rintro ⟨first, lower, others⟩
        exact ⟨first, Nat.le_trans behind lower, others⟩
      rw [findLoop] at ran
      by_cases inside : i < ePfn
      · rw [if_pos inside] at ran
        by_cases isUsed : s.sMap i = pageUsed
        · rw [if_pos isUsed] at ran
          exact later (i + 1) (Nat.le_succ i) ran
        · rw [if_neg isUsed] at ran
          rcases Option.bind_eq_some_iff.mp ran with ⟨outcome, counted, ran⟩
          cases countLoop_counts counted with
          | stop _ => exact .inl (Option.some.inj ran).symm
          | used pfn lower _ inside' _ =>
              simp only at ran
              rw [u32_of_lt (by omega)] at ran
              exact later (pfn + alignPfn) (by omega) ran
          | found fits free =>
              refine .inr ⟨i, Nat.le.refl, inside, ?_, isUsed, free, (Option.some.inj ran).symm⟩
              rcases Nat.eq_zero_or_pos pageCnt with none | some
              · omega
              · exact fits some
      · rw [if_neg inside, Option.some.injEq] at ran
        exact .inl ran.symm

theorem findPages_found {pageCnt sPfn ePfn alignPfn : ℕ} {out : ℕ × Bootmm}
    (small : ePfn ≤ 2 ^ 20) (smallAlign : alignPfn ≤ 2 ^ 31)
    (ran : s.findPages pageCnt sPfn ePfn alignPfn = some out) :
    out = (0, s) ∨ ∃ first, firstPfn sPfn alignPfn ≤ first ∧ first < ePfn ∧
      first + pageCnt ≤ ePfn ∧ s.sMap first ≠ pageUsed ∧ s.FreeRun pageCnt first ∧
      out = s.handOut first pageCnt :=
  findLoop_found small smallAlign ran

/-- Used frames are passed one by one. -/
theorem findLoop_skip {pageCnt ePfn alignPfn : ℕ} (fuel : ℕ) {i pfn : ℕ} (le : i ≤ pfn)
    (inside : pfn ≤ ePfn) (used : ∀ other, i ≤ other → other < pfn → s.sMap other = pageUsed) :
    s.findLoop pageCnt ePfn alignPfn (fuel + (pfn - i)) i =
      s.findLoop pageCnt ePfn alignPfn fuel pfn := by
  obtain ⟨n, rfl⟩ := Nat.exists_eq_add_of_le le
  rw [Nat.add_sub_cancel_left]
  clear le
  induction n generalizing i with
  | zero => rfl
  | succ n ih =>
      have next := @ih (i + 1) (by omega) fun other lower upper =>
        used other (by omega) (by omega)
      rw [← Nat.add_assoc, findLoop, if_pos (by omega), if_pos (used i Nat.le.refl (by omega)),
        next, Nat.add_assoc, Nat.add_comm 1]

/-- Free frames in the window are handed out when there are only used ones in front. -/
theorem findPages_first {pageCnt sPfn ePfn alignPfn pfn : ℕ} (lower : firstPfn sPfn alignPfn ≤ pfn)
    (inside : pfn < ePfn) (fits : pfn + pageCnt ≤ ePfn) (notUsed : s.sMap pfn ≠ pageUsed)
    (free : s.FreeRun pageCnt pfn)
    (used : ∀ other, other < pfn → s.sMap other = pageUsed) :
    s.findPages pageCnt sPfn ePfn alignPfn = some (s.handOut pfn pageCnt) := by
  have enough : ePfn + 1 = ePfn - (pfn - firstPfn sPfn alignPfn) + 1 +
      (pfn - firstPfn sPfn alignPfn) := by omega
  rw [findPages, enough, findLoop_skip _ lower (Nat.le_of_lt inside) fun other _ => used other,
    findLoop, if_pos inside, if_neg notUsed, free.countLoop fits]
  rfl

/-- Nothing is found where all frames are used. -/
theorem findPages_none {pageCnt sPfn ePfn alignPfn : ℕ}
    (used : ∀ pfn, firstPfn sPfn alignPfn ≤ pfn → pfn < ePfn → s.sMap pfn = pageUsed) :
    s.findPages pageCnt sPfn ePfn alignPfn = some (0, s) := by
  by_cases inside : firstPfn sPfn alignPfn ≤ ePfn
  · have enough : ePfn + 1 = ePfn - (ePfn - firstPfn sPfn alignPfn) + 1 +
        (ePfn - firstPfn sPfn alignPfn) := by omega
    rw [findPages, enough, findLoop_skip _ inside Nat.le.refl used, findLoop,
      if_neg (Nat.lt_irrefl ePfn)]
  · rw [findPages, findLoop, if_neg (by omega)]

/-- A search that goes on right behind a used frame passes no free ones over. -/
theorem findLoop_complete {pageCnt ePfn fuel i pfn : ℕ} {out : ℕ × Bootmm}
    (positive : 0 < pageCnt) (small : ePfn ≤ 2 ^ 20) (lower : i ≤ pfn) (fits : pfn + pageCnt ≤ ePfn)
    (free : s.FreeRun pageCnt pfn)
    (ran : s.findLoop pageCnt ePfn 1 fuel i = some out) :
    ∃ first, s.FreeRun pageCnt first ∧ first + pageCnt ≤ ePfn ∧
      out = s.handOut first pageCnt := by
  induction fuel generalizing i with
  | zero => exact absurd ran nofun
  | succ fuel ih =>
      rw [findLoop, if_pos (by omega)] at ran
      by_cases isUsed : s.sMap i = pageUsed
      · rw [if_pos isUsed] at ran
        have isFree := free pfn Nat.le.refl (by omega)
        have ne : i ≠ pfn := fun eq => pageFree_ne_pageUsed (isFree.symm.trans (eq ▸ isUsed))
        exact ih (by omega) ran
      · rw [if_neg isUsed] at ran
        rcases Option.bind_eq_some_iff.mp ran with ⟨outcome, counted, ran⟩
        cases countLoop_counts counted with
        | stop short => omega
        | used other _ upper inside' isUsed' =>
            -- a used frame is not among the free ones, which begin behind it
            have behind : other < pfn := by
              by_contra notBehind
              have isFree' := free other (Nat.not_lt.mp notBehind) (by omega)
              exact pageFree_ne_pageUsed (isFree'.symm.trans isUsed')
            simp only at ran
            rw [u32_of_lt (by omega)] at ran
            exact ih behind ran
        | found _ free' =>
            exact ⟨i, free', by omega, (Option.some.inj ran).symm⟩

/-! ## Completeness -/

theorem firstPfn_page_le {sPfn : ℕ} (small : sPfn < 2 ^ 32) : firstPfn sPfn 1 ≤ sPfn := by
  calc
    firstPfn sPfn 1 ≤ u32 (sPfn + sub32 1 1) := Nat.and_le_left
    _ = sPfn := u32_of_lt small

/-- The window in front of the frame handed out last and the one behind it meet in a used
frame. -/
structure Ended (s : Bootmm) : Prop where
  inside : s.lastAllocEnd < 2 ^ 20
  last : s.sMap s.lastAllocEnd = pageUsed

/-- The last one of the frames that have been handed out is used. -/
theorem Ended.handOut {first count ePfn : ℕ} (positive : 0 < count) (small : ePfn ≤ 2 ^ 20)
    (fits : first + count ≤ ePfn) : (s.handOut first count).2.Ended := by
  have isLast : sub32 (first + count) 1 = first + count - 1 := sub32_of_le (by omega) (by omega)
  rw [Bootmm.handOut, isLast, setMaps_eq]
  refine ⟨?_, if_pos ⟨?_, ?_⟩⟩
  · change first + count - 1 < 2 ^ 20
    omega
  · change first ≤ first + count - 1
    omega
  · change first + count - 1 < first + count
    omega

theorem Ended.findPages (ended : s.Ended) {pageCnt sPfn ePfn alignPfn : ℕ} {out : ℕ × Bootmm}
    (positive : 0 < pageCnt) (small : ePfn ≤ 2 ^ 20) (smallAlign : alignPfn ≤ 2 ^ 31)
    (ran : s.findPages pageCnt sPfn ePfn alignPfn = some out) : out.2.Ended := by
  rcases findPages_found small smallAlign ran with rfl | ⟨first, _, _, fits, _, _, rfl⟩
  · exact ended
  · exact .handOut positive small fits

theorem Ended.insertMminfo (ended : s.Ended) (start last type : ℕ) :
    (s.insertMminfo start last type).2.Ended := by
  rcases insertMminfo_frame s start last type with ⟨cntInfos, info, isNext⟩
  rw [isNext]
  exact ⟨ended.inside, ended.last⟩

theorem Ended.bootmmAllocPages (ended : s.Ended) (small : s.maxPfn ≤ 2 ^ 20) {call : Call}
    (inRange : call.InRange) {res : ℕ} {s' : Bootmm}
    (ran : s.bootmmAllocPages call.size call.type call.align = some (res, s')) : s'.Ended := by
  have positive := pages_pos inRange
  have smallAlign : call.align / 2 ^ pageShift ≤ 2 ^ 31 :=
    Nat.le_of_lt (Nat.div_lt_of_lt_mul (Nat.lt_trans inRange.2.2 (by decide)))
  rw [Bootmm.bootmmAllocPages] at ran
  simp only [pages_eq inRange] at ran
  rcases Option.bind_eq_some_iff.mp ran with ⟨⟨behind, next⟩, ranBehind, ran⟩
  have endedNext : next.Ended := ended.findPages positive small smallAlign ranBehind
  by_cases found : behind ≠ 0
  · simp only [if_pos found, Option.some.injEq, Prod.mk.injEq] at ran
    exact ran.2 ▸ endedNext.insertMminfo _ _ _
  · simp only [if_neg found] at ran
    rcases Option.map_eq_some_iff.mp ran with ⟨⟨front, final⟩, ranFront, ran⟩
    have endedFinal : final.Ended :=
      endedNext.findPages positive (Nat.le_of_lt endedNext.inside) smallAlign ranFront
    by_cases found' : front ≠ 0
    · simp only [if_pos found', Prod.mk.injEq] at ran
      exact ran.2 ▸ endedFinal.insertMminfo _ _ _
    · simp only [if_neg found', Prod.mk.injEq] at ran
      exact ran.2 ▸ endedFinal

theorem ended_initBootmm : initBootmm.Ended := by
  have isLast : initBootmm.lastAllocEnd = 4095 := by
    rw [initBootmm]
    simp only [setMaps_eq]
    rfl
  refine ⟨?_, ?_⟩
  · rw [isLast]
    decide
  · rw [isLast]
    exact inv_initBootmm.kernel 4095 (by decide)

/-- Frames that are free in a window are found there. -/
theorem Inv.findPages_complete (inv : s.Inv) {call : Call} (inRange : call.InRange)
    (align : call.align = 4096) {sPfn ePfn pfn : ℕ} (smallStart : sPfn < 2 ^ 32)
    (inside : ePfn ≤ s.maxPfn) (lower : sPfn ≤ pfn) (fits : pfn + call.pages ≤ ePfn)
    (free : s.FreeRun call.pages pfn) :
    ∃ out, s.findPages call.pages sPfn ePfn (call.align / 2 ^ pageShift) = some out ∧
      out.1 ≠ 0 := by
  have positive := pages_pos inRange
  have isPage : call.align / 2 ^ pageShift = 1 := by rw [align]; rfl
  have small : ePfn ≤ 2 ^ 20 := by
    rw [inv.maxPfn] at inside
    omega
  rcases inv.findPages inRange inside sPfn with ⟨out, ran, _⟩
  refine ⟨out, ran, ?_⟩
  rw [isPage] at ran
  rcases findLoop_complete positive small (Nat.le_trans (firstPfn_page_le smallStart) lower) fits
    free ran with ⟨first, free', fits', rfl⟩
  have notKernel : 4096 ≤ first := by
    by_contra early
    have isUsed := inv.kernel first (Nat.not_le.mp early)
    exact pageFree_ne_pageUsed ((free' first Nat.le.refl (by omega)).symm.trans isUsed)
  change u32 (first * 2 ^ pageShift) ≠ 0
  rw [u32_of_lt (by unfold pageShift; omega)]
  unfold pageShift
  omega

/-- A call with free frames anywhere is served. -/
theorem Inv.serves (inv : s.Inv) (ended : s.Ended) {call : Call} (inRange : call.InRange)
    (align : call.align = 4096) (hasRun : s.HasRun call.pages) :
    ∃ res s', s.bootmmAllocPages call.size call.type call.align = some (res, s') ∧ res ≠ 0 := by
  rcases hasRun with ⟨pfn, fits, free⟩
  have positive := pages_pos inRange
  have isLast := ended.last
  have isSmall : u32 (s.lastAllocEnd + 1) = s.lastAllocEnd + 1 :=
    u32_of_lt (by have inside := ended.inside; omega)
  rw [Bootmm.bootmmAllocPages]
  simp only [pages_eq inRange, isSmall]
  -- the frame handed out last is used and so not among the free ones
  have apart : s.lastAllocEnd + 1 ≤ pfn ∨ pfn + call.pages ≤ s.lastAllocEnd := by
    by_contra straddles
    have isFree := free s.lastAllocEnd (by omega) (by omega)
    exact pageFree_ne_pageUsed (isFree.symm.trans isLast)
  rcases inv.findPages inRange Nat.le.refl (s.lastAllocEnd + 1) with ⟨out, ran, finds⟩
  by_cases found : out.1 ≠ 0
  · rw [ran, Option.bind_some, if_pos found]
    exact ⟨_, _, rfl, found⟩
  · rcases apart with behind | front
    · have smallStart : s.lastAllocEnd + 1 < 2 ^ 32 := by
        have inside := ended.inside
        omega
      rcases inv.findPages_complete inRange align smallStart Nat.le.refl behind fits free with
        ⟨out', ran', notNull⟩
      rw [ran, Option.some.injEq] at ran'
      exact absurd (ran' ▸ notNull) found
    · -- a search that has found nothing leaves the map as it is
      have same : out = (0, s) := by
        cases finds with
        | none => rfl
        | found first fits free =>
            have notNull := (inv.inserted inRange fits free 0 0).1
            exact absurd notNull found
      rcases inv.findPages_complete inRange align (by decide) (Nat.le_of_lt inv.upper)
        (Nat.zero_le pfn) front free with ⟨out', ran', notNull⟩
      rw [ran, Option.bind_some, same, if_neg (not_not.mpr rfl), ran', Option.map_some,
        if_pos notNull]
      exact ⟨_, _, rfl, notNull⟩

end Bootmm

namespace Allocator

variable {s : Allocator}

/-- What is handed out is accounted for, and the windows of a search meet in a used frame. -/
structure Searched (s : Allocator) : Prop where
  inv : s.Inv
  ended : s.mm.Ended

/-- A call for pages, which may be at any place. -/
def PageCall (call : Call) : Prop := call.InRange ∧ call.align = 4096

instance (call : Call) : Decidable (PageCall call) := inferInstanceAs (Decidable (_ ∧ _))

/-- However often pages are asked for, there are none only when no frames in a row are free. -/
theorem complete_of_reach
    (reached : GuardedReach step (fun _ call => PageCall call) (· = initAllocator) s) :
    ∀ call, PageCall call →
      ∃ res s', s.mm.bootmmAllocPages call.size call.type call.align = some (res, s') ∧
        (res = 0 ↔ ¬s.mm.HasRun call.pages) := by
  have searched : s.Searched := by
    apply reached.invariant
    · rintro _ rfl
      refine ⟨inv_initAllocator, ?_⟩
      simp only [initAllocator]
      exact Bootmm.ended_initBootmm
    · rintro state call next ⟨inv, ended⟩ ⟨inRange, _⟩ stepped
      refine ⟨inv.step inRange stepped, ?_⟩
      rcases Option.map_eq_some_iff.mp stepped with ⟨⟨res, mm⟩, ran, rfl⟩
      have small : state.mm.maxPfn ≤ 2 ^ 20 := by
        rw [inv.mm.maxPfn]
        decide
      exact ended.bootmmAllocPages small inRange ran
  rcases searched with ⟨inv, ended⟩
  rintro call ⟨inRange, align⟩
  rcases inv.mm.bootmmAllocPages inRange with ⟨res, mm, ran, _, outcome⟩
  refine ⟨res, mm, ran, fun isNull hasRun => ?_, fun noRun => ?_⟩
  · rcases inv.mm.serves ended inRange align hasRun with ⟨res', mm', ran', notNull⟩
    rw [ran, Option.some.injEq, Prod.mk.injEq] at ran'
    exact notNull (ran'.1 ▸ isNull)
  · rcases outcome with ⟨isNull, _⟩ | ⟨frames, _, handsOut⟩
    · exact isNull
    · refine absurd ⟨frames.first, handsOut.upper, fun pfn lower upper => ?_⟩ noRun
      exact handsOut.free pfn ⟨lower, handsOut.length ▸ upper⟩

theorem complete_of_reach_threePages :
    ∃ s, run step initAllocator [⟨12288, mmKernel, 4096⟩] = some s ∧
      ∀ call, PageCall call →
        ∃ res s', s.mm.bootmmAllocPages call.size call.type call.align = some (res, s') ∧
          (res = 0 ↔ ¬s.mm.HasRun call.pages) := by
  have guarded : GuardedRun step (fun _ call => PageCall call) initAllocator
      [⟨12288, mmKernel, 4096⟩] := by
    decide +kernel
  have ran : (run step initAllocator [⟨12288, mmKernel, 4096⟩]).isSome := by decide +kernel
  rcases Option.isSome_iff_exists.mp ran with ⟨s, isRun⟩
  have started : GuardedReach step (fun _ call => PageCall call) (· = initAllocator)
      initAllocator := .start rfl
  exact ⟨s, isRun, complete_of_reach (started.of_run guarded isRun)⟩

end Allocator

end Ninix.Boot
