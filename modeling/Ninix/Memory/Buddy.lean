import Ninix.Driver.Disk
import Ninix.Library.LinkedChain
import Ninix.Library.ListHead
import Ninix.Library.Reachability

/-!
# The buddy system

`init_buddy` sets up the free lists of the orders below `BUDDY_MAX_ORDER` and hands every page
frame to `__free_pages`. The list of order `BUDDY_MAX_ORDER` keeps the null pointers of static
memory, and `__free_pages` compares the level of a neighbour with the number of the page being
freed, where the order is meant: it finds no block of the same level and leaves the loop before
it has put the page on a list. So the system starts without a single free block, and the first
allocation dereferences the null head of the last list.

The list heads are modelled as in memory, by two pointers for every node, since the defect is
about one of them. Following a null pointer is undefined and stands as `none`.
-/

namespace Ninix.Memory

open TransitionSystem LinkedChain ListHead

/-- The `list_head`s of the buddy system: of a free list, by order, and of a page, by number. -/
inductive Node
  | head (order : ℕ)
  | page (pfn : ℕ)
  deriving DecidableEq

/-- `struct page` -/
structure Page where
  flag : ℕ
  reference : ℕ
  virtual : ℕ
  bplevel : ℕ
  slabp : ℕ

abbrev buddyReserved : ℕ := 2 ^ 31
abbrev buddyAllocated : ℕ := 2 ^ 30
abbrev buddyFree : ℕ := 0
abbrev buddyMaxOrder : ℕ := 4

/-- `pages` with `struct buddy_sys`. -/
structure Buddy where
  pages : ℕ → Page
  links : Links Node
  nrFree : ℕ → ℕ
  buddyStartPfn : ℕ
  buddyEndPfn : ℕ

namespace Buddy

def setLevel (buddy : Buddy) (page level : ℕ) : Buddy :=
  { buddy with
    pages := Function.update buddy.pages page { buddy.pages page with bplevel := level } }

def setFlag (buddy : Buddy) (page flag : ℕ) : Buddy :=
  { buddy with pages := Function.update buddy.pages page { buddy.pages page with flag := flag } }

def changeFree (buddy : Buddy) (order : ℕ) (change : ℕ → ℕ) : Buddy :=
  { buddy with nrFree := Function.update buddy.nrFree order (change (buddy.nrFree order)) }

/-- A neighbour on the list of the order is taken off it to be combined. -/
def takeFriend (buddy : Buddy) (friend order : ℕ) : Option Buddy :=
  (buddy.links.listDelInit (.page friend)).map fun links =>
    { buddy with links }.changeFree order (sub32 · 1)

/-- The end of a round of `__free_pages`: the page goes on the list of the order. -/
def putFree (buddy : Buddy) (page order : ℕ) : Option Buddy :=
  if order ≤ buddyMaxOrder then
    let buddy := (buddy.setLevel page order).setFlag page buddyFree
    (buddy.links.listAdd (.page page) (.head order)).map fun links =>
      { buddy with links }.changeFree order fun nrFree => u32 (nrFree + 1)
  else none

/-- `is_same_level` of a page and the number of the page being freed. -/
def sameLevel (buddy : Buddy) (friend page : ℕ) : Prop :=
  (buddy.pages friend).bplevel = sub32 page buddy.buddyStartPfn

instance (buddy : Buddy) (friend page : ℕ) : Decidable (buddy.sameLevel friend page) :=
  inferInstanceAs (Decidable (_ = _))

/-- Combine the page with the block below it, if that has the level looked for. -/
def combineBelow (buddy : Buddy) (page order : ℕ) : Option (Buddy × ℕ × ℕ) :=
  if buddy.sameLevel (page - 2 ^ order) page then
    (buddy.takeFriend (page - 2 ^ order) order).map fun buddy =>
      (buddy.setLevel page minusOne32, page - 2 ^ order, order + 1)
  else some (buddy, page, order)

/--
The loop of `__free_pages`, of at most `left` rounds. `none` is a null pointer followed, a page
in front of `pages` or a free list behind the last.
-/
def freeLoop (buddy : Buddy) (page order : ℕ) : ℕ → Option Buddy
  | 0 => none
  | left + 1 =>
      let friend₁ := page - 2 ^ order
      let friend₂ := page + 2 ^ order
      if buddyMaxOrder ≤ order then some buddy
      else if page < 2 ^ order then none
      else if ¬buddy.sameLevel friend₁ page ∧ ¬buddy.sameLevel friend₂ page then some buddy
      else if buddy.sameLevel friend₁ page ∧ (buddy.pages friend₁).flag ≠ buddyFree then
        some buddy
      else
        match buddy.combineBelow page order with
        | none => none
        | some (buddy, page, order) =>
            if buddy.sameLevel friend₂ page then
              if (buddy.pages friend₂).flag ≠ buddyFree then some buddy
              else
                match buddy.takeFriend friend₂ order with
                | none => none
                | some buddy =>
                    ((buddy.setLevel friend₂ minusOne32).putFree page (order + 1)).bind
                      fun buddy => freeLoop buddy page (order + 1) left
            else (buddy.putFree page order).bind fun buddy => freeLoop buddy page order left

/-- `__free_pages`: every round of its loop raises the order. -/
def freePages (buddy : Buddy) (page order : ℕ) : Option Buddy :=
  buddy.freeLoop page order (buddyMaxOrder + 1)

/-- The inner loop of `__alloc_pages`: give the upper halves back down to the level. -/
def splitLoop (buddy : Buddy) (page level size : ℕ) : ℕ → Option Buddy
  | 0 => some buddy
  | clevel + 1 =>
      if clevel + 1 ≤ level then some buddy
      else do
        let size := size / 2
        let buddyPage := page + size
        let links ← buddy.links.listAdd (.page buddyPage) (.head clevel)
        let buddy := { buddy with links }.changeFree clevel fun nrFree => u32 (nrFree + 1)
        ((buddy.setFlag buddyPage buddyFree).setLevel buddyPage clevel).splitLoop page level size
          clevel

/-- The loop of `__alloc_pages` from `clevel` with `left` lists to look at; the page is `none`
when no list has one. -/
def allocLoop (buddy : Buddy) (level clevel : ℕ) : ℕ → Option (Option ℕ × Buddy)
  | 0 => some (none, buddy)
  | left + 1 =>
      if buddy.links.listEmpty (.head clevel) then buddy.allocLoop level (clevel + 1) left
      else
        match buddy.links.next (.head clevel) with
        | some (.page page) => do
            let links ← buddy.links.listDelInit (.page page)
            let buddy := (({ buddy with links }.setLevel page level).setFlag page
              buddyAllocated).changeFree clevel (sub32 · 1)
            let buddy ← buddy.splitLoop page level (2 ^ clevel) clevel
            some (some page, buddy)
        | _ => none

/-- `__alloc_pages` -/
def allocPages (buddy : Buddy) (level : ℕ) : Option (Option ℕ × Buddy) :=
  buddy.allocLoop level level (buddyMaxOrder + 1 - level)

/-- The least level `alloc_pages` finds for a number of pages, `none` where the shift of its
search is undefined. -/
def levelFor (count level : ℕ) : ℕ → Option ℕ
  | 0 => none
  | left + 1 => if 2 ^ level < count then levelFor count (level + 1) left else some level

/-- `alloc_pages`: the page it hands out with its level. -/
def allocCount (buddy : Buddy) (count : ℕ) : Option (Option (ℕ × ℕ) × Buddy) :=
  if count = 0 then some (none, buddy)
  else do
    let level ← levelFor count 0 32
    let (page, buddy) ← buddy.allocPages level
    some (page.map (·, level), buddy)

end Buddy

/-! ## Starting up -/

/-- What `init_buddy` finds: the boot memory manager's numbers and the memory behind `pages`. -/
structure Boot where
  bpBase : ℕ
  maxPfn : ℕ
  infoEnds : List ℕ
  memory : ℕ → Page

namespace Boot

/-- `kernel_end_pfn` -/
def kernelEndPfn (boot : Boot) : ℕ :=
  boot.infoEnds.foldl (fun kernelEnd infoEnd => max kernelEnd (infoEnd / 4096)) 0

/-- The links of static memory, all null. -/
def nullLinks : Links Node where
  prev := fun _ => none
  next := fun _ => none

/-- The loop that initialises the free lists. -/
def initFreelists (links : Links Node) : ℕ → Links Node
  | 0 => links
  | i + 1 => (initFreelists links i).initListHead (.head i)

/-- `init_pages` for the pages below a number. -/
def initPages (pages : ℕ → Page) (links : Links Node) : ℕ → (ℕ → Page) × Links Node
  | 0 => (pages, links)
  | i + 1 =>
      let (pages, links) := initPages pages links i
      (Function.update pages i ⟨buddyReserved, 1, minusOne32, 0, 0⟩,
        links.initListHead (.page i))

/-- The last loop of `init_buddy`, from page `i` with `left` to go. -/
def freeAll (buddy : Buddy) (i : ℕ) : ℕ → Option Buddy
  | 0 => some buddy
  | left + 1 => (buddy.freePages i 0).bind fun buddy => freeAll buddy (i + 1) left

/-- `init_buddy` up to its last loop. -/
def setup (boot : Boot) : Buddy :=
  let (pages, links) :=
    initPages boot.memory (initFreelists nullLinks buddyMaxOrder) boot.maxPfn
  { pages
    links
    nrFree := fun _ => 0
    buddyStartPfn := (boot.kernelEndPfn + 15) / 16 * 16
    buddyEndPfn := boot.maxPfn / 16 * 16 }

/-- `init_buddy`, which stops without memory for `pages`. -/
def initBuddy (boot : Boot) : Option Buddy :=
  if boot.bpBase = 0 then none
  else
    freeAll boot.setup boot.setup.buddyStartPfn
      (boot.setup.buddyEndPfn - boot.setup.buddyStartPfn)

end Boot

/-! ## Runs -/

/-- The buddy system and the blocks handed out and not yet freed, each with its order. -/
structure BuddySystem where
  buddy : Buddy
  live : List (ℕ × ℕ)

/-- Calls of the buddy system; a block is freed with the order it was allocated with. -/
inductive BuddyOp
  | alloc (level : ℕ)
  | allocCount (count : ℕ)
  | free (block : ℕ)

namespace BuddySystem

def step (s : BuddySystem) : BuddyOp → Option BuddySystem
  | .alloc level => do
      let (page, buddy) ← s.buddy.allocPages level
      match page with
      | none => some { s with buddy }
      | some page => some { buddy, live := (page, level) :: s.live }
  | .allocCount count => do
      let (block, buddy) ← s.buddy.allocCount count
      match block with
      | none => some { s with buddy }
      | some block => some { buddy, live := block :: s.live }
  | .free block => do
      let (page, order) ← s.live[block]?
      let buddy ← s.buddy.freePages page order
      some { buddy, live := s.live.eraseIdx block }

/-- The states `init_buddy` may leave. -/
def Start (boot : Boot) (s : BuddySystem) : Prop :=
  boot.initBuddy = some s.buddy ∧ s.live = []

/-- The pages on a free list, following its `next` pointers around. -/
def OnList (s : BuddySystem) (order : ℕ) (blocks : List ℕ) : Prop :=
  Follows (fun node => node.bind s.buddy.links.next) (some (.head order)) (some (.head order))
    (some (.head order) :: blocks.map fun page => some (.page page))

/--
The page frames are conserved: each free list is a ring of as many blocks as it counts, the
blocks on the list of an order have that order and lie where they should, and every frame of the
buddy system is in exactly one block that is live or on a list.
-/
structure Conserved (s : BuddySystem) (lists : ℕ → List ℕ) : Prop where
  ring : ∀ order ≤ buddyMaxOrder, s.OnList order (lists order)
  count : ∀ order ≤ buddyMaxOrder, s.buddy.nrFree order = (lists order).length
  shape : ∀ order ≤ buddyMaxOrder, ∀ page ∈ lists order,
    (page - s.buddy.buddyStartPfn) % 2 ^ order = 0 ∧ s.buddy.buddyStartPfn ≤ page ∧
      page + 2 ^ order ≤ s.buddy.buddyEndPfn ∧ (s.buddy.pages page).flag = buddyFree ∧
      (s.buddy.pages page).bplevel = order
  cover : ∀ pfn, s.buddy.buddyStartPfn ≤ pfn → pfn < s.buddy.buddyEndPfn →
    ∃! block : ℕ × ℕ, (block ∈ s.live ∨ block.2 ≤ buddyMaxOrder ∧ block.1 ∈ lists block.2) ∧
      block.1 ≤ pfn ∧ pfn < block.1 + 2 ^ block.2

/-- What `init_buddy` leaves and nothing can change: the lists of the lower orders are empty,
the last has null pointers, and no block is live. -/
structure Stuck (s : BuddySystem) : Prop where
  empty : ∀ order < buddyMaxOrder, s.buddy.links.next (.head order) = some (.head order)
  null : s.buddy.links.next (.head buddyMaxOrder) = none
  nothing : s.live = []

end BuddySystem

/-! ## What starting up leaves -/

/-- A page behind a reserved page of level 0 stays as it is, unless a null pointer is followed. -/
theorem Buddy.freePages_of_reserved {buddy : Buddy} {pfn : ℕ} (positive : 0 < pfn)
    (reserved : (buddy.pages (pfn - 1)).flag = buddyReserved)
    (level : (buddy.pages (pfn - 1)).bplevel = 0)
    (next : (buddy.pages (pfn + 1)).bplevel = 0 ∨ buddy.links.prev (.page (pfn + 1)) = none) :
    buddy.freePages pfn 0 = none ∨ buddy.freePages pfn 0 = some buddy := by
  have notFree : (buddy.pages (pfn - 1)).flag ≠ buddyFree := by
    rw [reserved]
    decide
  have inFront : ¬pfn < 1 := by omega
  unfold freePages freeLoop
  simp only [Nat.pow_zero, inFront, if_false, show ¬buddyMaxOrder ≤ 0 by decide]
  by_cases below : buddy.sameLevel (pfn - 1) pfn
  · right
    simp only [below, notFree, not_true_eq_false, false_and, if_false, ne_eq, not_false_eq_true,
      and_self, if_true]
  · by_cases above : buddy.sameLevel (pfn + 1) pfn
    · have combined : buddy.combineBelow pfn 0 = some (buddy, pfn, 0) := by
        simp only [combineBelow, Nat.pow_zero, below, if_false]
      have unlinked : buddy.links.prev (.page (pfn + 1)) = none := by
        rcases next with isZero | unlinked
        · unfold sameLevel at below above
          exact absurd (level.trans (isZero.symm.trans above)) below
        · exact unlinked
      have undefined : buddy.takeFriend (pfn + 1) 0 = none := by
        simp [takeFriend, Links.listDelInit, Links.unlink, unlinked]
      simp only [below, above, combined, undefined, not_true_eq_false, and_false, if_false,
        false_and, if_true]
      split
      · exact Or.inr rfl
      · exact Or.inl rfl
    · right
      simp only [below, above, not_false_eq_true, and_self, if_true]

namespace Boot

variable (boot : Boot)

theorem initPages_fst (pages : ℕ → Page) (links : Links Node) (count pfn : ℕ) :
    (initPages pages links count).1 pfn =
      if pfn < count then ⟨buddyReserved, 1, minusOne32, 0, 0⟩ else pages pfn := by
  induction count with
  | zero => simp [initPages]
  | succ count ih =>
      simp only [initPages, Function.update_apply, ih]
      split_ifs <;> first | rfl | omega

theorem initPages_head (pages : ℕ → Page) (links : Links Node) (count order : ℕ) :
    (initPages pages links count).2.next (.head order) = links.next (.head order) := by
  induction count with
  | zero => rfl
  | succ count ih => simpa [initPages, Links.initListHead] using ih

theorem initPages_behind (pages : ℕ → Page) (links : Links Node) (count : ℕ) {pfn : ℕ}
    (behind : count ≤ pfn) :
    (initPages pages links count).2.prev (.page pfn) = links.prev (.page pfn) := by
  induction count with
  | zero => rfl
  | succ count ih =>
      have ne : (Node.page pfn) ≠ .page count := by
        intro eq
        cases eq
        omega
      simpa [initPages, Links.initListHead, ne] using ih (by omega)

theorem initFreelists_next (links : Links Node) (count order : ℕ) :
    (initFreelists links count).next (.head order) =
      if order < count then some (.head order) else links.next (.head order) := by
  induction count with
  | zero => simp [initFreelists]
  | succ count ih =>
      simp only [initFreelists, Links.initListHead, Function.update_apply, ih, Node.head.injEq]
      split_ifs <;> first | omega | simp_all

theorem initFreelists_page (links : Links Node) (count pfn : ℕ) :
    (initFreelists links count).prev (.page pfn) = links.prev (.page pfn) := by
  induction count with
  | zero => rfl
  | succ count ih => simpa [initFreelists, Links.initListHead] using ih

theorem setup_page {pfn : ℕ} (lt : pfn < boot.maxPfn) :
    (boot.setup.pages pfn).flag = buddyReserved ∧ (boot.setup.pages pfn).bplevel = 0 := by
  have page := initPages_fst boot.memory (initFreelists nullLinks buddyMaxOrder) boot.maxPfn pfn
  rw [if_pos lt] at page
  simp only [setup, page, and_self]

theorem setup_behind : boot.setup.links.prev (.page boot.maxPfn) = none := by
  have behind := initPages_behind boot.memory (initFreelists nullLinks buddyMaxOrder)
    boot.maxPfn le_rfl
  rw [initFreelists_page] at behind
  exact behind

theorem setup_head (order : ℕ) : boot.setup.links.next (.head order) =
    if order < buddyMaxOrder then some (.head order) else none := by
  have head := initPages_head boot.memory (initFreelists nullLinks buddyMaxOrder) boot.maxPfn
    order
  rw [initFreelists_next] at head
  exact head

/-- No page is put on a list: the level of a page in memory is 0, which is the number of the
first page only, and that one's neighbour is reserved. -/
theorem freePages_setup {pfn : ℕ} (upper : pfn < boot.maxPfn) :
    boot.setup.freePages pfn 0 = none ∨ boot.setup.freePages pfn 0 = some boot.setup := by
  rcases Nat.eq_zero_or_pos pfn with isZero | positive
  · left
    simp [Buddy.freePages, Buddy.freeLoop, isZero]
  · have before := boot.setup_page (show pfn - 1 < boot.maxPfn by omega)
    apply Buddy.freePages_of_reserved positive before.1 before.2
    rcases Nat.lt_or_ge (pfn + 1) boot.maxPfn with inside | behind
    · exact Or.inl (boot.setup_page inside).2
    · have isBehind : pfn + 1 = boot.maxPfn := by omega
      right
      rw [isBehind]
      exact boot.setup_behind

theorem freeAll_setup (left i : ℕ) (upper : i + left ≤ boot.maxPfn) :
    freeAll boot.setup i left = none ∨ freeAll boot.setup i left = some boot.setup := by
  induction left generalizing i with
  | zero => exact Or.inr rfl
  | succ left ih =>
      rcases boot.freePages_setup (show i < boot.maxPfn by omega) with
        undefined | unchanged
      · left
        simp [freeAll, undefined]
      · simpa [freeAll, unchanged] using ih (i + 1) (by omega)

/-- When `init_buddy` returns, it has only set up the lists and the pages. -/
theorem initBuddy_eq_setup {buddy : Buddy} (booted : boot.initBuddy = some buddy) :
    buddy = boot.setup := by
  unfold initBuddy at booted
  split at booted
  · simp at booted
  · have inside : boot.setup.buddyEndPfn ≤ boot.maxPfn := Nat.div_mul_le_self _ _
    by_cases nonempty : boot.setup.buddyStartPfn ≤ boot.setup.buddyEndPfn
    · rcases boot.freeAll_setup (boot.setup.buddyEndPfn - boot.setup.buddyStartPfn)
          boot.setup.buddyStartPfn (by omega) with undefined | unchanged
      · rw [undefined] at booted
        cases booted
      · rw [unchanged] at booted
        exact (Option.some.inj booted).symm
    · rw [Nat.sub_eq_zero_of_le (by omega)] at booted
      exact (Option.some.inj booted).symm

end Boot

namespace BuddySystem

variable {boot : Boot} {s : BuddySystem}

theorem Start.stuck (start : Start boot s) : s.Stuck := by
  rcases start with ⟨booted, nothing⟩
  have isSetup := boot.initBuddy_eq_setup booted
  refine ⟨fun order lt => ?_, ?_, nothing⟩
  · rw [isSetup, boot.setup_head, if_pos lt]
  · rw [isSetup, boot.setup_head, if_neg (by decide)]

/-- On the way up the lists an allocation finds nothing, and at the last it is undefined. -/
theorem allocLoop_of_stuck (stuck : s.Stuck) (level clevel left : ℕ)
    (reaches : clevel + left ≤ buddyMaxOrder + 1) :
    s.buddy.allocLoop level clevel left = none ∨
      s.buddy.allocLoop level clevel left = some (none, s.buddy) := by
  induction left generalizing clevel with
  | zero => exact Or.inr rfl
  | succ left ih =>
      rcases Nat.lt_or_ge clevel buddyMaxOrder with lower | last
      · have empty : s.buddy.links.listEmpty (.head clevel) := stuck.empty clevel lower
        simpa [Buddy.allocLoop, empty] using ih (clevel + 1) (by omega)
      · have isLast : clevel = buddyMaxOrder := by omega
        subst isLast
        have notEmpty : ¬s.buddy.links.listEmpty (.head buddyMaxOrder) := by
          unfold Links.listEmpty
          rw [stuck.null]
          simp
        left
        simp [Buddy.allocLoop, notEmpty, stuck.null]

theorem allocPages_of_stuck (stuck : s.Stuck) {level : ℕ} {page : Option ℕ} {buddy : Buddy}
    (allocated : s.buddy.allocPages level = some (page, buddy)) :
    page = none ∧ buddy = s.buddy := by
  unfold Buddy.allocPages at allocated
  rcases Nat.lt_or_ge buddyMaxOrder level with above | within
  · have nothing : buddyMaxOrder + 1 - level = 0 := by omega
    rw [nothing] at allocated
    cases allocated
    exact ⟨rfl, rfl⟩
  · rcases allocLoop_of_stuck stuck level level (buddyMaxOrder + 1 - level) (by omega) with
      undefined | nothing
    · rw [undefined] at allocated
      cases allocated
    · rw [nothing] at allocated
      cases allocated
      exact ⟨rfl, rfl⟩

/-- Every call leaves the system as it was. -/
theorem step_of_stuck (stuck : s.Stuck) {op : BuddyOp} {s' : BuddySystem}
    (stepped : step s op = some s') : s' = s := by
  cases op with
  | alloc level =>
      simp only [step, Option.bind_eq_bind, Option.bind_eq_some_iff] at stepped
      rcases stepped with ⟨⟨page, buddy⟩, allocated, result⟩
      rcases allocPages_of_stuck stuck allocated with ⟨rfl, rfl⟩
      cases result
      rfl
  | allocCount count =>
      simp only [step, Option.bind_eq_bind, Option.bind_eq_some_iff] at stepped
      rcases stepped with ⟨⟨block, buddy⟩, allocated, result⟩
      unfold Buddy.allocCount at allocated
      split at allocated
      · cases allocated
        cases result
        rfl
      · simp only [Option.bind_eq_bind, Option.bind_eq_some_iff] at allocated
        rcases allocated with ⟨level, _, ⟨page, buddy'⟩, allocated, returned⟩
        rcases allocPages_of_stuck stuck allocated with ⟨rfl, rfl⟩
        cases returned
        cases result
        rfl
  | free block =>
      simp [step, stuck.nothing] at stepped

theorem stuck_of_reach (reached : Reach step (Start boot) s) : s.Stuck := by
  apply reached.invariant
  · exact fun _ start => start.stuck
  · intro state op next stuck _ stepped
    rw [step_of_stuck stuck stepped]
    exact stuck

/-- A null pointer is no ring. -/
theorem Stuck.not_onList (stuck : s.Stuck) (blocks : List ℕ) :
    ¬s.OnList buddyMaxOrder blocks := by
  intro onList
  have null : (some (Node.head buddyMaxOrder)).bind s.buddy.links.next = none := stuck.null
  rcases onList.uncons with ⟨ends, _⟩ | ⟨_, rest⟩
  · rw [null] at ends
    cases ends
  · rw [null] at rest
    rcases rest.head_eq with ⟨tail, isHead⟩
    cases blocks with
    | nil => cases isHead
    | cons block blocks => cases isHead

/-- After `init_buddy`, and after any calls whatever, the page frames are not conserved: no block
is live, and the lists below the last, which is none, are empty. -/
theorem not_conserved (reached : Reach step (Start boot) s) :
    (¬∃ lists, s.Conserved lists) ∧ s.live = [] ∧
      ∀ order < buddyMaxOrder, s.OnList order [] := by
  have stuck := stuck_of_reach reached
  refine ⟨?_, stuck.nothing, fun order lt => .last (stuck.empty order lt)⟩
  rintro ⟨lists, conserved⟩
  apply stuck.not_onList
  exact conserved.ring buddyMaxOrder le_rfl

/-- A machine of 48 page frames whose first frame is the kernel's. -/
def smallMachine : Boot where
  bpBase := 4096
  maxPfn := 48
  infoEnds := [4096]
  memory := fun _ => ⟨0, 0, 0, 0, 0⟩

theorem smallMachine_starts : ∃ s, Start smallMachine s := by
  have boots : smallMachine.initBuddy.isSome := by decide +kernel
  rcases Option.isSome_iff_exists.mp boots with ⟨buddy, booted⟩
  exact ⟨⟨buddy, []⟩, booted, rfl⟩

/-- Its 32 frames for the buddy system are in no block. -/
theorem not_conserved_smallMachine :
    ∃ s, Start smallMachine s ∧ ¬∃ lists, s.Conserved lists := by
  rcases smallMachine_starts with ⟨s, start⟩
  exact ⟨s, start, (not_conserved (.start start)).1⟩

/-- The last free list is not initialised, so that starting up alone breaks conservation. -/
theorem not_conserved_after_initBuddy :
    ¬∀ (boot : Boot) (s : BuddySystem), Reach step (Start boot) s →
      ∃ lists, s.Conserved lists := by
  intro always
  rcases smallMachine_starts with ⟨s, start⟩
  rcases always smallMachine s (.start start) with ⟨lists, conserved⟩
  exact start.stuck.not_onList _ (conserved.ring buddyMaxOrder le_rfl)

end BuddySystem

end Ninix.Memory
