import Mathlib.Data.Nat.Bitwise
import Mathlib.Tactic.SplitIfs
import Ninix.Driver.Disk
import Ninix.Library.Reachability

/-!
# The boot allocator

While the kernel starts, `bootmm_alloc_pages` hands out page frames by a map with a byte for each
of them. It looks for frames behind those it handed out last and then for frames in front of
these. The place where the search begins is rounded by an expression that is no rounding, and a
search that comes to the end of its window inside free frames is given up; neither matters to
which frames are handed out, as every one of them is looked at first.
-/

namespace Ninix.Boot

open TransitionSystem

/-- `PAGE_SHIFT` -/
def pageShift : ℕ := 12

/-- `PAGE_ALIGN` -/
def pageAlign : ℕ := 0xfffff000

/-- `PAGE_FREE` -/
def pageFree : UInt8 := 0x00

/-- `PAGE_USED` -/
def pageUsed : UInt8 := 0xff

/-- `MAX_INFO` -/
def maxInfo : ℕ := 10

/-- `MACHINE_MMSIZE`, which is what `get_phymm_size` returns -/
def machineMmsize : ℕ := 128 * 1024 * 1024

/-- `_MM_KERNEL` -/
def mmKernel : ℕ := 0

/-- `struct bootmm_info` -/
structure BootmmInfo where
  start : ℕ
  last : ℕ
  type : ℕ
  deriving DecidableEq

/-- `struct bootmm` with its map -/
structure Bootmm where
  phymm : ℕ
  maxPfn : ℕ
  sMap : ℕ → UInt8
  lastAllocEnd : ℕ
  cntInfos : ℕ
  info : ℕ → BootmmInfo

/-- `enum insertion_state` -/
inductive InsertionState
  | failed
  | nonConnection
  | forwardConnection
  | backwardConnection
  | twoWayConnection
  | afterLastConnection
  | firstInsertion
  deriving DecidableEq

namespace Bootmm

def setMminfo (s : Bootmm) (i : ℕ) (info : BootmmInfo) : Bootmm :=
  { s with info := Function.update s.info i info }

/-- The loop of `insert_mminfo` from `i` on, with `n` infos to go -/
def insertLoop (s : Bootmm) (start last type : ℕ) : ℕ → ℕ → InsertionState × Bootmm
  | 0, _ =>
      (.firstInsertion,
        { s.setMminfo s.cntInfos ⟨start, last, type⟩ with cntInfos := s.cntInfos + 1 })
  | n + 1, i =>
      if (s.info i).type ≠ type then s.insertLoop start last type n (i + 1)
      else if (s.info i).last = sub32 start 1 then
        if i = sub32 s.cntInfos 1 then
          (.afterLastConnection, s.setMminfo i { s.info i with last })
        else if sub32 (s.info (i + 1)).start 1 = last then
          (.twoWayConnection,
            { s.setMminfo i { s.info i with last := (s.info (i + 1)).last } with
              cntInfos := s.cntInfos - 1 })
        else if (s.info (i + 1)).start ≤ last then (.failed, s)
        else (.forwardConnection, s.setMminfo i { s.info i with last })
      else if (s.info i).last < sub32 start 1 ∧ last < sub32 (s.info (i + 1)).start 1 then
        -- the infos behind are each set to themselves
        (.nonConnection, { s.setMminfo i ⟨start, last, type⟩ with cntInfos := s.cntInfos + 1 })
      else if sub32 (s.info i).start 1 = last then
        (.backwardConnection, s.setMminfo i { s.info i with start })
      else s.insertLoop start last type n (i + 1)

/-- `insert_mminfo` -/
def insertMminfo (s : Bootmm) (start last type : ℕ) : InsertionState × Bootmm :=
  if s.cntInfos = maxInfo then (.failed, s) else s.insertLoop start last type s.cntInfos 0

/-- `set_maps` -/
def setMaps (s : Bootmm) (sPfn : ℕ) (value : UInt8) : ℕ → Bootmm
  | 0 => s
  | cnt + 1 =>
      setMaps { s with sMap := Function.update s.sMap sPfn value } (sPfn + 1) value cnt

/-- `init_bootmm` -/
def initBootmm : Bootmm :=
  let end' := 16 * 1024 * 1024
  let s : Bootmm :=
    { phymm := machineMmsize
      maxPfn := machineMmsize / 2 ^ pageShift
      sMap := fun _ => pageFree
      lastAllocEnd := 0
      cntInfos := 0
      info := fun _ => ⟨0, 0, 0⟩ }
  let s := (s.insertMminfo 0 (end' - 1) mmKernel).2
  { s with lastAllocEnd := end' / 2 ^ pageShift - 1 }.setMaps 0 pageUsed (end' / 2 ^ pageShift)

/-- How the inner loop of `find_pages` ends. -/
inductive CountLoop
  | stop
  | used (temp : ℕ)
  | found (temp : ℕ)

/-- The inner loop of `find_pages`, `none` when it does not end -/
def countLoop (s : Bootmm) (ePfn : ℕ) : ℕ → ℕ → Option CountLoop
  | 0, temp => some (.found temp)
  | cnt + 1, temp =>
      if ePfn ≤ temp then some .stop
      else if s.sMap temp = pageUsed then some (.used temp)
      else if s.sMap temp = pageFree then s.countLoop ePfn cnt (temp + 1)
      else none

/-- The loop of `find_pages` from `i` on, for `fuel` turns at most -/
def findLoop (s : Bootmm) (pageCnt ePfn alignPfn : ℕ) : ℕ → ℕ → Option (ℕ × Bootmm)
  | 0, _ => none
  | fuel + 1, i =>
      if i < ePfn then
        if s.sMap i = pageUsed then s.findLoop pageCnt ePfn alignPfn fuel (i + 1)
        else
          (s.countLoop ePfn pageCnt i).bind fun
            | .stop => some (0, s)
            | .used temp => s.findLoop pageCnt ePfn alignPfn fuel (u32 (temp + alignPfn))
            | .found temp =>
                some (u32 (i * 2 ^ pageShift),
                  { s with lastAllocEnd := sub32 temp 1 }.setMaps i pageUsed pageCnt)
      else some (0, s)

/-- Where `find_pages` begins. -/
def firstPfn (sPfn alignPfn : ℕ) : ℕ :=
  u32 (sPfn + sub32 alignPfn 1) &&& sub32 (minusOne32 - alignPfn) 1

/-- `find_pages` -/
def findPages (s : Bootmm) (pageCnt sPfn ePfn alignPfn : ℕ) : Option (ℕ × Bootmm) :=
  s.findLoop pageCnt ePfn alignPfn (ePfn + 1) (firstPfn sPfn alignPfn)

/-- `bootmm_alloc_pages` -/
def bootmmAllocPages (s : Bootmm) (size type align : ℕ) : Option (ℕ × Bootmm) :=
  let size := u32 (size + (2 ^ pageShift - 1)) &&& pageAlign
  let nsize := size / 2 ^ pageShift
  (s.findPages nsize (u32 (s.lastAllocEnd + 1)) s.maxPfn (align / 2 ^ pageShift)).bind
    fun (res, s) =>
      if res ≠ 0 then some (res, (s.insertMminfo res (sub32 (u32 (res + size)) 1) type).2)
      else
        (s.findPages nsize 0 s.lastAllocEnd (align / 2 ^ pageShift)).map fun (res, s) =>
          if res ≠ 0 then (res, (s.insertMminfo res (sub32 (u32 (res + size)) 1) type).2)
          else (0, s)

end Bootmm

/-- A call of `bootmm_alloc_pages`. -/
structure Call where
  size : ℕ
  type : ℕ
  align : ℕ

/-- The numbers are those of an `unsigned int`, and rounding the size up to pages does not
wrap. -/
def Call.InRange (call : Call) : Prop :=
  1 ≤ call.size ∧ call.size ≤ 2 ^ 32 - 4096 ∧ call.align < 2 ^ 32

instance (call : Call) : Decidable call.InRange := inferInstanceAs (Decidable (_ ∧ _))

/-- The number of pages that are asked for. -/
def Call.pages (call : Call) : ℕ := (call.size + 4095) / 4096

/-- Page frames from the first one on. -/
structure Frames where
  first : ℕ
  count : ℕ

def Frames.Has (frames : Frames) (pfn : ℕ) : Prop :=
  frames.first ≤ pfn ∧ pfn < frames.first + frames.count

def Frames.Disjoint (frames others : Frames) : Prop := ∀ pfn, frames.Has pfn → ¬others.Has pfn

/-- The allocator with the frames it has handed out. -/
structure Allocator where
  mm : Bootmm
  handed : List Frames

namespace Allocator

def initAllocator : Allocator := ⟨Bootmm.initBootmm, []⟩

def step (s : Allocator) (call : Call) : Option Allocator :=
  (s.mm.bootmmAllocPages call.size call.type call.align).map fun (res, mm) =>
    ⟨mm, if res ≠ 0 then ⟨res / 4096, call.pages⟩ :: s.handed else s.handed⟩

end Allocator

/-- What is in the way of the 16 MB that the kernel has. -/
def kernelFrames : Frames := ⟨0, 4096⟩

/-- The result is the address of the first one of frames that were all free and that are all
used now, as no others are. -/
structure HandsOut (s : Bootmm) (count res : ℕ) (s' : Bootmm) (frames : Frames) : Prop where
  address : res = frames.first * 4096
  length : frames.count = count
  lower : 4096 ≤ frames.first
  upper : frames.first + count ≤ s.maxPfn
  free : ∀ pfn, frames.Has pfn → s.sMap pfn = pageFree
  used : ∀ pfn, frames.Has pfn → s'.sMap pfn = pageUsed
  others : ∀ pfn, ¬frames.Has pfn → s'.sMap pfn = s.sMap pfn

/-- A call returns, and it hands out frames or does nothing to the map. -/
def Serves (s : Bootmm) (call : Call) : Prop :=
  ∃ res s', s.bootmmAllocPages call.size call.type call.align = some (res, s') ∧
    (res ≠ 0 → ∃ frames, HandsOut s call.pages res s' frames) ∧ (res = 0 → s'.sMap = s.sMap)

/-- No frame is handed out twice. -/
structure Disjoint (s : Allocator) : Prop where
  handed : s.handed.Pairwise Frames.Disjoint
  kernel : ∀ frames ∈ s.handed, frames.Disjoint kernelFrames

theorem pageFree_ne_pageUsed : pageFree ≠ pageUsed := by decide

/-! ## The loops -/

namespace Bootmm

variable {s : Bootmm}

theorem setMaps_eq (s : Bootmm) (sPfn : ℕ) (value : UInt8) (cnt : ℕ) :
    s.setMaps sPfn value cnt = { s with
      sMap := fun pfn => if sPfn ≤ pfn ∧ pfn < sPfn + cnt then value else s.sMap pfn } := by
  induction cnt generalizing s sPfn with
  | zero =>
      have nothing : ∀ pfn, ¬(sPfn ≤ pfn ∧ pfn < sPfn + 0) := by omega
      simp only [setMaps, nothing, if_false]
  | succ cnt ih =>
      rw [setMaps, ih]
      congr 1
      funext pfn
      by_cases isFirst : pfn = sPfn
      · subst isFirst
        rw [if_neg (by omega), if_pos (by omega)]
        exact Function.update_self pfn value s.sMap
      · by_cases inside : sPfn + 1 ≤ pfn ∧ pfn < sPfn + 1 + cnt
        · rw [if_pos inside, if_pos (by omega)]
        · rw [if_neg inside, if_neg (by omega)]
          exact Function.update_of_ne isFirst value s.sMap

/-- Only the infos are changed. -/
theorem insertMminfo_frame (s : Bootmm) (start last type : ℕ) :
    ∃ cntInfos info, (s.insertMminfo start last type).2 = { s with cntInfos, info } := by
  have loop : ∀ n i, ∃ cntInfos info,
      (s.insertLoop start last type n i).2 = { s with cntInfos, info } := by
    intro n
    induction n with
    | zero => exact fun i => ⟨_, _, rfl⟩
    | succ n ih =>
        intro i
        rw [insertLoop]
        split_ifs
        all_goals first | exact ih _ | exact ⟨_, _, rfl⟩
  rw [insertMminfo]
  by_cases full : s.cntInfos = maxInfo
  · rw [if_pos full]
    exact ⟨_, _, rfl⟩
  · rw [if_neg full]
    exact loop _ _

/-- A frame is free or used. -/
def Marked (s : Bootmm) : Prop := ∀ pfn, s.sMap pfn = pageFree ∨ s.sMap pfn = pageUsed

theorem Marked.free_iff (marked : s.Marked) {pfn : ℕ} :
    s.sMap pfn = pageFree ↔ s.sMap pfn ≠ pageUsed := by
  constructor
  · exact fun isFree isUsed => pageFree_ne_pageUsed (isFree.symm.trans isUsed)
  · exact (marked pfn).resolve_right

/-- The inner loop finds as many free frames as it is to, or a used one behind free ones. -/
theorem Marked.countLoop (marked : s.Marked) (ePfn cnt temp : ℕ) :
    s.countLoop ePfn cnt temp = some .stop ∨
      (∃ used, s.countLoop ePfn cnt temp = some (.used used) ∧ temp ≤ used ∧ used < ePfn ∧
        s.sMap used = pageUsed) ∨
      (s.countLoop ePfn cnt temp = some (.found (temp + cnt)) ∧ (0 < cnt → temp + cnt ≤ ePfn) ∧
        ∀ pfn, temp ≤ pfn → pfn < temp + cnt → s.sMap pfn = pageFree) := by
  induction cnt generalizing temp with
  | zero => exact .inr (.inr ⟨rfl, by omega, by omega⟩)
  | succ cnt ih =>
      rw [Bootmm.countLoop]
      by_cases atEnd : ePfn ≤ temp
      · exact .inl (if_pos atEnd)
      rw [if_neg atEnd]
      by_cases isUsed : s.sMap temp = pageUsed
      · exact .inr (.inl ⟨temp, if_pos isUsed, Nat.le.refl, Nat.not_le.mp atEnd, isUsed⟩)
      have isFree := marked.free_iff.mpr isUsed
      rw [if_neg isUsed, if_pos isFree]
      rcases ih (temp + 1) with stop | ⟨used, ran, lower, upper, isUsed⟩ | ⟨ran, upper, areFree⟩
      · exact .inl stop
      · exact .inr (.inl ⟨used, ran, Nat.le_of_succ_le lower, upper, isUsed⟩)
      · refine .inr (.inr ⟨?_, fun _ => ?_, fun pfn lower lt => ?_⟩)
        · rw [ran, Nat.add_assoc, Nat.add_comm 1]
        · rcases Nat.eq_zero_or_pos cnt with none | some
          · omega
          · have le := upper some
            omega
        · by_cases isFirst : pfn = temp
          · exact isFirst ▸ isFree
          · exact areFree pfn (by omega) (by omega)

/-- What `find_pages` does in front of `ePfn`. -/
inductive Finds (s : Bootmm) (pageCnt ePfn : ℕ) : ℕ × Bootmm → Prop
  | none : Finds s pageCnt ePfn (0, s)
  | found (first : ℕ) (fits : first + pageCnt ≤ ePfn)
      (free : ∀ pfn, first ≤ pfn → pfn < first + pageCnt → s.sMap pfn = pageFree) :
      Finds s pageCnt ePfn (first * 4096,
        { s with
          lastAllocEnd := first + pageCnt - 1
          sMap := fun pfn =>
            if first ≤ pfn ∧ pfn < first + pageCnt then pageUsed else s.sMap pfn })

/-- The search goes on behind a used frame, and so it comes to its end. -/
theorem Marked.findLoop (marked : s.Marked) {pageCnt ePfn alignPfn : ℕ} (some : 0 < pageCnt)
    (small : ePfn ≤ 2 ^ 20) (smallAlign : alignPfn < 2 ^ 20) :
    ∀ fuel i, ePfn ≤ fuel + i → ∃ out, s.findLoop pageCnt ePfn alignPfn (fuel + 1) i = .some out ∧
      s.Finds pageCnt ePfn out := by
  intro fuel
  induction fuel with
  | zero =>
      intro i enough
      rw [Bootmm.findLoop, if_neg (by omega)]
      exact ⟨_, rfl, .none⟩
  | succ fuel ih =>
      intro i enough
      rw [Bootmm.findLoop]
      by_cases inside : i < ePfn
      · rw [if_pos inside]
        by_cases isUsed : s.sMap i = pageUsed
        · rw [if_pos isUsed]
          exact ih (i + 1) (by omega)
        · rw [if_neg isUsed]
          rcases marked.countLoop ePfn pageCnt i with
            stop | ⟨used, ran, lower, upper, isUsed'⟩ | ⟨ran, upper, areFree⟩
          · rw [stop, Option.bind_some]
            exact ⟨_, rfl, .none⟩
          · have ne : used ≠ i := fun eq => isUsed (eq ▸ isUsed')
            rw [ran, Option.bind_some]
            simp only
            rw [u32_of_lt (by omega)]
            exact ih (used + alignPfn) (by omega)
          · have fits := upper some
            rw [ran, Option.bind_some]
            simp only
            rw [u32_of_lt (by unfold pageShift; omega), sub32_of_le (by omega) (by omega),
              setMaps_eq]
            exact ⟨_, rfl, .found i fits areFree⟩
      · rw [if_neg inside]
        exact ⟨_, rfl, .none⟩

/-- The size is rounded up to pages. -/
theorem pages_eq {call : Call} (inRange : call.InRange) :
    (u32 (call.size + (2 ^ pageShift - 1)) &&& pageAlign) / 2 ^ pageShift = call.pages := by
  have small : call.size + 4095 < 2 ^ 32 := by
    have upper := inRange.2.1
    omega
  have mask : pageAlign / 2 ^ 12 = 2 ^ 20 - 1 := by decide
  have shifted : (call.size + 4095) / 2 ^ 12 < 2 ^ 20 := by omega
  change (u32 (call.size + 4095) &&& pageAlign) / 2 ^ 12 = _
  rw [u32_of_lt small, Nat.and_div_two_pow, mask, Nat.and_two_pow_sub_one_eq_mod,
    Nat.mod_eq_of_lt shifted]
  rfl

theorem pages_pos {call : Call} (inRange : call.InRange) : 0 < call.pages := by
  have lower := inRange.1
  unfold Call.pages
  omega

/-- The kernel's frames are used, and frames were last handed out behind them. -/
structure Inv (s : Bootmm) : Prop where
  maxPfn : s.maxPfn = 2 ^ 15
  marked : s.Marked
  kernel : ∀ pfn < 4096, s.sMap pfn = pageUsed
  lower : 4095 ≤ s.lastAllocEnd
  upper : s.lastAllocEnd < s.maxPfn

/-- What a search for the frames of a call comes to. -/
theorem Inv.findPages (inv : s.Inv) {call : Call} (inRange : call.InRange) {ePfn : ℕ}
    (inside : ePfn ≤ s.maxPfn) (sPfn : ℕ) :
    ∃ out, s.findPages call.pages sPfn ePfn (call.align / 2 ^ pageShift) = some out ∧
      s.Finds call.pages ePfn out := by
  have small : ePfn ≤ 2 ^ 20 := by
    rw [inv.maxPfn] at inside
    omega
  have smallAlign : call.align / 2 ^ pageShift < 2 ^ 20 := by
    have bound := inRange.2.2
    unfold pageShift
    omega
  exact inv.marked.findLoop (pages_pos inRange) small smallAlign ePfn _ (Nat.le_add_right _ _)

/-- Frames that have been found are handed out. -/
theorem Inv.handsOut (inv : s.Inv) {call : Call} (inRange : call.InRange) {first : ℕ}
    (fits : first + call.pages ≤ s.maxPfn)
    (free : ∀ pfn, first ≤ pfn → pfn < first + call.pages → s.sMap pfn = pageFree)
    (cntInfos : ℕ) (info : ℕ → BootmmInfo) :
    let s' := { s with
      lastAllocEnd := first + call.pages - 1
      sMap := fun pfn =>
        if first ≤ pfn ∧ pfn < first + call.pages then pageUsed else s.sMap pfn
      cntInfos, info }
    HandsOut s call.pages (first * 4096) s' ⟨first, call.pages⟩ ∧ s'.Inv := by
  have positive := pages_pos inRange
  have lower : 4096 ≤ first := by
    by_contra early
    have isUsed := inv.kernel first (Nat.not_le.mp early)
    exact pageFree_ne_pageUsed ((free first Nat.le.refl (by omega)).symm.trans isUsed)
  refine ⟨⟨rfl, rfl, lower, fits, fun pfn has => free pfn has.1 has.2, fun _ has => if_pos has,
    fun _ hasNot => if_neg hasNot⟩, inv.maxPfn, ?_, ?_, ?_, ?_⟩
  · intro pfn
    by_cases has : first ≤ pfn ∧ pfn < first + call.pages
    · exact .inr (if_pos has)
    · exact (inv.marked pfn).imp (if_neg has).trans (if_neg has).trans
  · intro pfn lt
    exact (if_neg (by omega)).trans (inv.kernel pfn lt)
  · change 4095 ≤ first + call.pages - 1
    omega
  · change first + call.pages - 1 < s.maxPfn
    omega

/-- The infos do not matter to the frames that are handed out. -/
theorem Inv.inserted (inv : s.Inv) {call : Call} (inRange : call.InRange) {first : ℕ}
    (fits : first + call.pages ≤ s.maxPfn)
    (free : ∀ pfn, first ≤ pfn → pfn < first + call.pages → s.sMap pfn = pageFree)
    (last type : ℕ) :
    first * 4096 ≠ 0 ∧ ∃ s', (insertMminfo { s with
        lastAllocEnd := first + call.pages - 1
        sMap := fun pfn =>
          if first ≤ pfn ∧ pfn < first + call.pages then pageUsed else s.sMap pfn }
        (first * 4096) last type).2 = s' ∧
      HandsOut s call.pages (first * 4096) s' ⟨first, call.pages⟩ ∧ s'.Inv := by
  rcases insertMminfo_frame { s with
    lastAllocEnd := first + call.pages - 1
    sMap := fun pfn =>
      if first ≤ pfn ∧ pfn < first + call.pages then pageUsed else s.sMap pfn }
    (first * 4096) last type with ⟨cntInfos, info, isNext⟩
  rcases inv.handsOut inRange fits free cntInfos info with ⟨handsOut, inv'⟩
  refine ⟨?_, _, isNext, handsOut, inv'⟩
  have lower : 4096 ≤ first := handsOut.lower
  omega

/-- A call hands frames out or leaves everything as it is. -/
theorem Inv.bootmmAllocPages (inv : s.Inv) {call : Call} (inRange : call.InRange) :
    ∃ res s', s.bootmmAllocPages call.size call.type call.align = some (res, s') ∧ s'.Inv ∧
      ((res = 0 ∧ s'.sMap = s.sMap) ∨
        ∃ frames, res ≠ 0 ∧ HandsOut s call.pages res s' frames) := by
  rw [Bootmm.bootmmAllocPages]
  simp only [pages_eq inRange]
  rcases inv.findPages inRange Nat.le.refl (u32 (s.lastAllocEnd + 1)) with ⟨out, ran, finds⟩
  rcases inv.findPages inRange (Nat.le_of_lt inv.upper) 0 with ⟨out', ran', finds'⟩
  rw [ran, Option.bind_some]
  cases finds with
  | found first fits free =>
      rcases inv.inserted inRange fits free (sub32 (u32 (first * 4096 + _)) 1) call.type with
        ⟨notNull, s', isNext, handsOut, inv'⟩
      rw [if_pos notNull, isNext]
      exact ⟨_, _, rfl, inv', .inr ⟨_, notNull, handsOut⟩⟩
  | none =>
      rw [if_neg (not_not.mpr rfl), ran', Option.map_some]
      cases finds' with
      | found first fits free =>
          have fits' := Nat.le_trans fits (Nat.le_of_lt inv.upper)
          rcases inv.inserted inRange fits' free (sub32 (u32 (first * 4096 + _)) 1) call.type with
            ⟨notNull, s', isNext, handsOut, inv'⟩
          rw [if_pos notNull, isNext]
          exact ⟨_, _, rfl, inv', .inr ⟨_, notNull, handsOut⟩⟩
      | none =>
          rw [if_neg (not_not.mpr rfl)]
          exact ⟨0, s, rfl, inv, .inl ⟨rfl, rfl⟩⟩

theorem inv_initBootmm : initBootmm.Inv := by
  rcases insertMminfo_frame
    { phymm := machineMmsize
      maxPfn := machineMmsize / 2 ^ pageShift
      sMap := fun _ => pageFree
      lastAllocEnd := 0
      cntInfos := 0
      info := fun _ => ⟨0, 0, 0⟩ } 0 (16 * 1024 * 1024 - 1) mmKernel with
    ⟨cntInfos, info, isInserted⟩
  have isKernel : 16 * 1024 * 1024 / 2 ^ pageShift = 4096 := by decide
  have isMachine : machineMmsize / 2 ^ pageShift = 2 ^ 15 := by decide
  simp only [initBootmm, isInserted, setMaps_eq, isKernel]
  refine ⟨isMachine, fun pfn => ?_, fun pfn lt => ?_, Nat.le.refl, ?_⟩
  · by_cases inside : 0 ≤ pfn ∧ pfn < 0 + 4096
    · exact .inr (if_pos inside)
    · exact .inl (if_neg inside)
  · exact if_pos ⟨Nat.zero_le _, by omega⟩
  · change 4095 < machineMmsize / 2 ^ pageShift
    rw [isMachine]
    decide

end Bootmm

/-! ## Runs -/

namespace Allocator

/-- The frames that have been handed out are used and behind the kernel's. -/
structure Inv (s : Allocator) : Prop where
  mm : s.mm.Inv
  used : ∀ frames ∈ s.handed, ∀ pfn, frames.Has pfn → s.mm.sMap pfn = pageUsed
  lower : ∀ frames ∈ s.handed, 4096 ≤ frames.first
  disjoint : s.handed.Pairwise Frames.Disjoint

variable {s : Allocator}

theorem Inv.step (inv : s.Inv) {call : Call} (inRange : call.InRange) {next : Allocator}
    (stepped : s.step call = some next) : next.Inv := by
  rcases inv.mm.bootmmAllocPages inRange with ⟨res, mm, ran, mm', outcome⟩
  rw [Allocator.step, ran, Option.map_some, Option.some.injEq] at stepped
  rcases outcome with ⟨isNull, same⟩ | ⟨frames, notNull, handsOut⟩
  · rw [← stepped]
    simp only [isNull, ne_eq, not_true_eq_false, if_false]
    exact ⟨mm', fun frames mem pfn has => by rw [same]; exact inv.used frames mem pfn has,
      inv.lower, inv.disjoint⟩
  · have isFrames : (⟨res / 4096, call.pages⟩ : Frames) = frames := by
      rw [handsOut.address, Nat.mul_div_cancel _ (by decide), ← handsOut.length]
    rw [← stepped]
    simp only [notNull, ne_eq, not_false_eq_true, if_true, isFrames]
    refine ⟨mm', ?_, ?_, List.pairwise_cons.mpr ⟨?_, inv.disjoint⟩⟩
    · intro others mem pfn has
      by_cases isNew : frames.Has pfn
      · exact handsOut.used pfn isNew
      · rcases List.mem_cons.mp mem with eq | old
        · exact absurd (eq ▸ has) isNew
        · exact (handsOut.others pfn isNew).trans (inv.used others old pfn has)
    · intro others mem
      rcases List.mem_cons.mp mem with eq | old
      · exact eq ▸ handsOut.lower
      · exact inv.lower others old
    · intro others old pfn has has'
      have isFree := handsOut.free pfn has
      exact pageFree_ne_pageUsed (isFree.symm.trans (inv.used others old pfn has'))

theorem inv_initAllocator : initAllocator.Inv := by
  have none : ∀ frames, frames ∉ initAllocator.handed := fun _ => List.not_mem_nil
  refine ⟨?_, ?_, ?_, List.Pairwise.nil⟩
  · simp only [initAllocator]
    exact Bootmm.inv_initBootmm
  · intro frames mem
    exact absurd mem (none frames)
  · intro frames mem
    exact absurd mem (none frames)

/-- However often pages are asked for, what is handed out was free and is handed out once. -/
theorem serves_of_reach
    (reached : GuardedReach step (fun _ call => call.InRange) (· = initAllocator) s) :
    Disjoint s ∧ ∀ call : Call, call.InRange → Serves s.mm call := by
  have inv : s.Inv := by
    apply reached.invariant
    · rintro _ rfl
      exact inv_initAllocator
    · intro state call next inv inRange stepped
      exact inv.step inRange stepped
  refine ⟨⟨inv.disjoint, fun frames mem pfn has has' => ?_⟩, fun call inRange => ?_⟩
  · have lower := inv.lower frames mem
    have upper : pfn < 0 + 4096 := has'.2
    have lower' := has.1
    omega
  · rcases inv.mm.bootmmAllocPages inRange with ⟨res, mm, ran, _, outcome⟩
    refine ⟨res, mm, ran, fun notNull => ?_, fun isNull => ?_⟩
    · rcases outcome with ⟨isNull, _⟩ | ⟨frames, _, handsOut⟩
      · exact absurd isNull notNull
      · exact ⟨frames, handsOut⟩
    · rcases outcome with ⟨_, same⟩ | ⟨frames, notNull, _⟩
      · exact same
      · exact absurd isNull notNull

/-- Two pages and then one, which is to be at an even frame. -/
def twoCalls : List Call := [⟨5000, mmKernel, 4096⟩, ⟨4096, mmKernel, 8192⟩]

theorem serves_of_reach_twoCalls :
    ∃ s, run step initAllocator twoCalls = some s ∧
      (s.handed.map fun frames => (frames.first, frames.count)) = [(4098, 1), (4096, 2)] ∧
      Disjoint s ∧ ∀ call : Call, call.InRange → Serves s.mm call := by
  have guarded : GuardedRun step (fun _ call => call.InRange) initAllocator twoCalls := by
    decide +kernel
  have handed : (run step initAllocator twoCalls).map (fun s =>
      s.handed.map fun frames => (frames.first, frames.count)) = some [(4098, 1), (4096, 2)] := by
    decide +kernel
  rcases Option.map_eq_some_iff.mp handed with ⟨s, isRun, handed⟩
  have started : GuardedReach step (fun _ call => call.InRange) (· = initAllocator)
      initAllocator := .start rfl
  exact ⟨s, isRun, handed, serves_of_reach (started.of_run guarded isRun)⟩

end Allocator

end Ninix.Boot
