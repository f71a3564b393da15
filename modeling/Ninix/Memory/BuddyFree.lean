import Mathlib.Data.Nat.Bitwise
import Ninix.Memory.BuddySplit

/-!
# Merging freed blocks

A freed block is to be merged with its buddy for as long as that is free. `__free_pages` takes a
neighbour for the buddy where the level of its page is the number of the page that is freed, which
is not the order of the block. A round of its loop either merges the wrong blocks or leaves the
loop in front of the line that releases the lock.
-/

namespace Ninix.Memory

open ListHead

/-- What a round of the loop of `__free_pages` does: it leaves the loop, or it puts a block on a
list, releases the lock and goes on with that block. -/
inductive FreeRound
  | leave (buddy : Buddy)
  | again (buddy : Buddy) (page order : ℕ)

namespace Buddy

/-- A round of the loop of `__free_pages`. -/
def freeRound (buddy : Buddy) (page order : ℕ) : Option FreeRound :=
  let friend₁ := page - 2 ^ order
  let friend₂ := page + 2 ^ order
  if page < 2 ^ order then none
  else if ¬buddy.sameLevel friend₁ page ∧ ¬buddy.sameLevel friend₂ page then some (.leave buddy)
  else if buddy.sameLevel friend₁ page ∧ (buddy.pages friend₁).flag ≠ buddyFree then
    some (.leave buddy)
  else
    match buddy.combineBelow page order with
    | none => none
    | some (buddy, page, order) =>
        if buddy.sameLevel friend₂ page then
          if (buddy.pages friend₂).flag ≠ buddyFree then some (.leave buddy)
          else
            match buddy.takeFriend friend₂ order with
            | none => none
            | some buddy =>
                ((buddy.setLevel friend₂ minusOne32).putFree page (order + 1)).map
                  (.again · page (order + 1))
        else (buddy.putFree page order).map (.again · page order)

/-- The loop of `__free_pages` with the state of `buddy.lock`. -/
def freeLocked (buddy : Buddy) (locked : Bool) (page order : ℕ) : ℕ → Option (Buddy × Bool)
  | 0 => none
  | left + 1 =>
      if buddyMaxOrder ≤ order then some (buddy, locked)
      else
        match buddy.freeRound page order with
        | none => none
        | some (.leave buddy) => some (buddy, locked)
        | some (.again buddy page order) => freeLocked buddy false page order left

/-- `__free_pages`, which takes the lock first, and whether it still has it in the end. -/
def freePagesLocked (buddy : Buddy) (page order : ℕ) : Option (Buddy × Bool) :=
  buddy.freeLocked true page order (buddyMaxOrder + 1)

/-- The loop does the same whether or not its lock is looked at. -/
theorem freeLocked_map (buddy : Buddy) (locked : Bool) (page order left : ℕ) :
    (buddy.freeLocked locked page order left).map Prod.fst = buddy.freeLoop page order left := by
  induction left generalizing buddy locked page order with
  | zero => rfl
  | succ left ih =>
      unfold freeLocked freeLoop freeRound
      by_cases done : buddyMaxOrder ≤ order
      · simp [done]
      · simp only [done, if_false]
        by_cases front : page < 2 ^ order
        · simp [front]
        · simp only [front, if_false]
          by_cases neither : ¬buddy.sameLevel (page - 2 ^ order) page ∧
              ¬buddy.sameLevel (page + 2 ^ order) page
          · rw [if_pos neither, if_pos neither]
            rfl
          · rw [if_neg neither, if_neg neither]
            by_cases inUse : buddy.sameLevel (page - 2 ^ order) page ∧
                (buddy.pages (page - 2 ^ order)).flag ≠ buddyFree
            · rw [if_pos inUse, if_pos inUse]
              rfl
            · rw [if_neg inUse, if_neg inUse]
              rcases buddy.combineBelow page order with _ | ⟨buddy₁, page₁, order₁⟩
              · rfl
              · dsimp only
                by_cases above : buddy₁.sameLevel (page + 2 ^ order) page₁
                · rw [if_pos above, if_pos above]
                  by_cases inUse₂ : (buddy₁.pages (page + 2 ^ order)).flag ≠ buddyFree
                  · rw [if_pos inUse₂, if_pos inUse₂]
                    rfl
                  · rw [if_neg inUse₂, if_neg inUse₂]
                    rcases buddy₁.takeFriend (page + 2 ^ order) order₁ with _ | buddy₂
                    · rfl
                    · dsimp only
                      rcases (buddy₂.setLevel (page + 2 ^ order) minusOne32).putFree page₁
                        (order₁ + 1) with _ | buddy₃
                      · rfl
                      · exact ih buddy₃ false page₁ (order₁ + 1)
                · rw [if_neg above, if_neg above]
                  rcases buddy₁.putFree page₁ order₁ with _ | buddy₂
                  · rfl
                  · exact ih buddy₂ false page₁ order₁

theorem freePagesLocked_map (buddy : Buddy) (page order : ℕ) :
    (buddy.freePagesLocked page order).map Prod.fst = buddy.freePages page order :=
  buddy.freeLocked_map true page order (buddyMaxOrder + 1)

end Buddy

/-! ## What freeing is meant to do -/

/-- The block whose index differs from that of a block in the bit of its order only. -/
def buddyPage (start page order : ℕ) : ℕ := start + ((page - start) ^^^ 2 ^ order)

/-- The block a freed one is merged into, with its order: as long as the buddy is on the list of
the order, the two become one. -/
def coalesce (lists : ℕ → List ℕ) (start : ℕ) : ℕ → ℕ → ℕ → ℕ × ℕ
  | 0, page, order => (page, order)
  | left + 1, page, order =>
      if buddyPage start page order ∈ lists order then
        coalesce lists start left (min page (buddyPage start page order)) (order + 1)
      else (page, order)

/-- A buddy system and a block of it that is in use: the free blocks are well formed and lie in the
range of the system, and so does the block, apart from them. The pages in front of the range are
those `init_pages` reserved, at level 0. -/
structure Frees (buddy : Buddy) (lists : ℕ → List ℕ) (page order : ℕ) : Prop where
  free : FreeBlocks buddy lists
  inside : ∀ k ≤ buddyMaxOrder, ∀ p ∈ lists k, p + 2 ^ k ≤ buddy.buddyEndPfn
  front : ∀ pfn < buddy.buddyStartPfn,
    (buddy.pages pfn).flag = buddyReserved ∧ (buddy.pages pfn).bplevel = 0
  orderLe : order ≤ buddyMaxOrder
  live : Loose buddy.buddyStartPfn lists page order
  liveInside : page + 2 ^ order ≤ buddy.buddyEndPfn

/-- `__free_pages` returns without the lock. The free blocks are well formed again and lie in the
range, their frames are those that were free and those of the block, and the block has been merged
with its buddies. -/
def FreesBlock (buddy : Buddy) (lists : ℕ → List ℕ) (page order : ℕ) : Prop :=
  ∃ buddy' lists', buddy.freePagesLocked page order = some (buddy', false) ∧
    FreeBlocks buddy' lists' ∧
    (∀ k ≤ buddyMaxOrder, ∀ p ∈ lists' k, p + 2 ^ k ≤ buddy.buddyEndPfn) ∧
    (∀ pfn, FreeFrame lists' pfn ↔ FreeFrame lists pfn ∨ InBlock page order pfn) ∧
    (coalesce lists buddy.buddyStartPfn (buddyMaxOrder - order) page order).1 ∈
      lists' (coalesce lists buddy.buddyStartPfn (buddyMaxOrder - order) page order).2

/-! ## The levels of the pages -/

namespace Buddy

variable {buddy buddy' : Buddy} {page order page' order' q : ℕ}

theorem setLevel_level : ((buddy.setLevel page order).pages q).bplevel =
    if q = page then order else (buddy.pages q).bplevel := by
  unfold setLevel
  by_cases same : q = page <;> simp [same]

theorem setFlag_level {flag : ℕ} :
    ((buddy.setFlag page flag).pages q).bplevel = (buddy.pages q).bplevel := by
  unfold setFlag
  by_cases same : q = page <;> simp [same]

theorem putFree_level (put : buddy.putFree page order = some buddy') : order ≤ buddyMaxOrder ∧
    buddy'.buddyStartPfn = buddy.buddyStartPfn ∧
    (buddy'.pages q).bplevel = if q = page then order else (buddy.pages q).bplevel := by
  rcases Option.ite_none_right_eq_some.mp put with ⟨le, added⟩
  rcases Option.map_eq_some_iff.mp added with ⟨links', _, rfl⟩
  refine ⟨le, rfl, ?_⟩
  show (((buddy.setLevel page order).setFlag page buddyFree).pages q).bplevel = _
  rw [setFlag_level, setLevel_level]

theorem takeFriend_level {friend : ℕ} (took : buddy.takeFriend friend order = some buddy') :
    buddy'.pages = buddy.pages ∧ buddy'.buddyStartPfn = buddy.buddyStartPfn := by
  rcases Option.map_eq_some_iff.mp took with ⟨links', _, rfl⟩
  exact ⟨rfl, rfl⟩

/-- What a round leaves that goes on: it has merged with the block below, or else with the one
above, and given the levels that go with it. -/
structure Again (buddy buddy' : Buddy) (page page' order order' : ℕ) : Prop where
  start : buddy'.buddyStartPfn = buddy.buddyStartPfn
  grows : order < order'
  le : order' ≤ buddyMaxOrder
  merged : 2 ^ order ≤ page ∧
    (buddy.sameLevel (page - 2 ^ order) page ∧ page' = page - 2 ^ order ∧
        (buddy'.pages page).bplevel = minusOne32 ∨
      ¬buddy.sameLevel (page - 2 ^ order) page ∧ buddy.sameLevel (page + 2 ^ order) page ∧
        page' = page)
  new : (buddy'.pages page').bplevel = order'
  others : ∀ q, q ≠ page' → (buddy'.pages q).bplevel = (buddy.pages q).bplevel ∨
    (buddy'.pages q).bplevel = minusOne32

/-- The levels a combination with the block below leaves. -/
theorem combineBelow_level {buddy₁ : Buddy} {page₁ order₁ : ℕ}
    (combined : buddy.combineBelow page order = some (buddy₁, page₁, order₁)) :
    buddy₁.buddyStartPfn = buddy.buddyStartPfn ∧
    (buddy.sameLevel (page - 2 ^ order) page ∧ page₁ = page - 2 ^ order ∧ order₁ = order + 1 ∧
        (∀ q, (buddy₁.pages q).bplevel =
          if q = page then minusOne32 else (buddy.pages q).bplevel) ∨
      ¬buddy.sameLevel (page - 2 ^ order) page ∧ page₁ = page ∧ order₁ = order ∧
        buddy₁ = buddy) := by
  unfold combineBelow at combined
  split at combined
  · rename_i below
    rcases Option.map_eq_some_iff.mp combined with ⟨buddy₂, took, same⟩
    cases same
    rcases takeFriend_level took with ⟨pages, start⟩
    refine ⟨start, Or.inl ⟨below, rfl, rfl, fun q => ?_⟩⟩
    rw [setLevel_level, pages]
  · rename_i below
    cases combined
    exact ⟨rfl, Or.inr ⟨below, rfl, rfl, rfl⟩⟩

/-- The end of a round that goes on. -/
theorem Again.of_put {buddy₁ buddy₂ : Buddy} {page₁ order₁ order₂ : ℕ} (fits : 2 ^ order ≤ page)
    (combined : buddy.combineBelow page order = some (buddy₁, page₁, order₁))
    (start : buddy₂.buddyStartPfn = buddy₁.buddyStartPfn)
    (levels : ∀ q, (buddy₂.pages q).bplevel = (buddy₁.pages q).bplevel ∨
      (buddy₂.pages q).bplevel = minusOne32)
    (le : order₁ ≤ order₂)
    (above : ¬buddy.sameLevel (page - 2 ^ order) page →
      buddy.sameLevel (page + 2 ^ order) page ∧ order₁ < order₂)
    (put : buddy₂.putFree page₁ order₂ = some buddy') :
    Again buddy buddy' page page₁ order order₂ := by
  have positive : 0 < 2 ^ order := Nat.two_pow_pos order
  rcases putFree_level (q := page₁) put with ⟨fitsOrder, startPut, new⟩
  rw [if_pos rfl] at new
  have old : ∀ q, q ≠ page₁ → (buddy'.pages q).bplevel = (buddy₁.pages q).bplevel ∨
      (buddy'.pages q).bplevel = minusOne32 := by
    intro q ne
    have kept := (putFree_level (q := q) put).2.2
    rw [if_neg ne] at kept
    rw [kept]
    exact levels q
  rcases combineBelow_level combined with
    ⟨start₁, ⟨below, isPage, isOrder, levels₁⟩ | ⟨notBelow, isPage, isOrder, same⟩⟩
  · refine ⟨startPut.trans (start.trans start₁), by omega, fitsOrder,
      ⟨fits, Or.inl ⟨below, isPage, ?_⟩⟩, new, fun q ne => ?_⟩
    · rcases old page (by omega) with kept | isMinus
      · rw [kept, levels₁, if_pos rfl]
      · exact isMinus
    · rcases old q ne with kept | isMinus
      · rw [kept, levels₁]
        split
        · exact Or.inr rfl
        · exact Or.inl rfl
      · exact Or.inr isMinus
  · rcases above notBelow with ⟨sameAbove, less⟩
    refine ⟨startPut.trans (start.trans start₁), by omega, fitsOrder,
      ⟨fits, Or.inr ⟨notBelow, sameAbove, isPage⟩⟩, new, fun q ne => ?_⟩
    rw [← same]
    exact old q ne

theorem freeRound_again (round : buddy.freeRound page order = some (.again buddy' page' order')) :
    Again buddy buddy' page page' order order' := by
  unfold freeRound at round
  dsimp only at round
  by_cases front : page < 2 ^ order
  · rw [if_pos front] at round
    cases round
  · rw [if_neg front] at round
    have positive : 0 < 2 ^ order := Nat.two_pow_pos order
    by_cases neither : ¬buddy.sameLevel (page - 2 ^ order) page ∧
        ¬buddy.sameLevel (page + 2 ^ order) page
    · rw [if_pos neither] at round
      cases round
    · rw [if_neg neither] at round
      split at round
      · cases round
      · rcases combined : buddy.combineBelow page order with _ | ⟨buddy₁, page₁, order₁⟩
        · rw [combined] at round
          cases round
        · rw [combined] at round
          dsimp only at round
          have fits : 2 ^ order ≤ page := Nat.not_lt.mp front
          have unmerged : ¬buddy.sameLevel (page - 2 ^ order) page →
              buddy₁ = buddy ∧ page₁ = page ∧ buddy.sameLevel (page + 2 ^ order) page := by
            intro notBelow
            rcases (combineBelow_level combined).2 with ⟨below, _⟩ | ⟨_, isPage, _, same⟩
            · exact absurd below notBelow
            · exact ⟨same, isPage, by_contra fun notAbove => neither ⟨notBelow, notAbove⟩⟩
          split at round
          · split at round
            · cases round
            · -- the block above is merged
              rcases took : buddy₁.takeFriend (page + 2 ^ order) order₁ with _ | buddy₂
              · rw [took] at round
                cases round
              · rw [took] at round
                rcases Option.map_eq_some_iff.mp round with ⟨buddy₃, put, same⟩
                cases same
                rcases takeFriend_level took with ⟨pages₂, start₂⟩
                have start₃ : (buddy₂.setLevel (page + 2 ^ order) minusOne32).buddyStartPfn =
                    buddy₁.buddyStartPfn := start₂
                refine .of_put fits combined start₃ (fun q => ?_) (Nat.le_succ order₁)
                  (fun notBelow => ⟨(unmerged notBelow).2.2, Nat.lt_succ_self order₁⟩) put
                rw [setLevel_level, pages₂]
                split
                · exact Or.inr rfl
                · exact Or.inl rfl
          · rename_i notAbove
            rcases Option.map_eq_some_iff.mp round with ⟨buddy₂, put, same⟩
            cases same
            refine .of_put fits combined rfl (fun q => Or.inl rfl) le_rfl (fun notBelow => ?_) put
            rcases unmerged notBelow with ⟨rfl, rfl, above⟩
            exact absurd above notAbove

/-- A round that leaves the loop takes levels away only. -/
theorem freeRound_leave (round : buddy.freeRound page order = some (.leave buddy')) (q : ℕ) :
    (buddy'.pages q).bplevel = (buddy.pages q).bplevel ∨
      (buddy'.pages q).bplevel = minusOne32 := by
  unfold freeRound at round
  dsimp only at round
  split at round
  · cases round
  · split at round
    · cases round
      exact Or.inl rfl
    · split at round
      · cases round
        exact Or.inl rfl
      · rcases combined : buddy.combineBelow page order with _ | ⟨buddy₁, page₁, order₁⟩
        · rw [combined] at round
          cases round
        · rw [combined] at round
          dsimp only at round
          split at round
          · split at round
            · cases round
              rcases (combineBelow_level combined).2 with ⟨_, _, _, levels⟩ | ⟨_, _, _, same⟩
              · rw [levels q]
                split
                · exact Or.inr rfl
                · exact Or.inl rfl
              · rw [same]
                exact Or.inl rfl
            · rcases took : buddy₁.takeFriend (page + 2 ^ order) order₁ with _ | buddy₂
              · rw [took] at round
                cases round
              · rw [took] at round
                rcases Option.map_eq_some_iff.mp round with ⟨_, _, same⟩
                cases same
          · rcases Option.map_eq_some_iff.mp round with ⟨_, _, same⟩
            cases same

/-- The levels a run of the loop leaves: it takes them away, and it gives levels above its order to
pages it comes down to by steps of the size of its block. -/
theorem freeLocked_level {locked locked' : Bool} {left : ℕ}
    (ran : buddy.freeLocked locked page order left = some (buddy', locked')) (q : ℕ) :
    (buddy'.pages q).bplevel = (buddy.pages q).bplevel ∨
      (buddy'.pages q).bplevel = minusOne32 ∨
      q ≤ page ∧ 2 ^ order ∣ page - q ∧ order < (buddy'.pages q).bplevel := by
  induction left generalizing buddy locked page order with
  | zero => cases ran
  | succ left ih =>
      unfold freeLocked at ran
      split at ran
      · cases ran
        exact Or.inl rfl
      · split at ran
        · cases ran
        · rename_i buddy₁ round
          cases ran
          exact (freeRound_leave round q).imp_right Or.inl
        · rename_i buddy₁ page₁ order₁ round
          have again := freeRound_again round
          have down : page₁ ≤ page ∧ 2 ^ order ∣ page - page₁ := by
            rcases again.merged with ⟨fits, ⟨_, rfl, _⟩ | ⟨_, _, rfl⟩⟩
            · exact ⟨Nat.sub_le _ _, by rw [Nat.sub_sub_self fits]⟩
            · exact ⟨le_rfl, by rw [Nat.sub_self]; exact dvd_zero _⟩
          rcases ih ran with kept | isMinus | ⟨le, divides, above⟩
          · rw [kept]
            by_cases here : q = page₁
            · subst here
              rw [again.new]
              exact Or.inr (Or.inr ⟨down.1, down.2, again.grows⟩)
            · exact (again.others q here).imp_right Or.inl
          · exact Or.inr (Or.inl isMinus)
          · have step : 2 ^ order ∣ page₁ - q :=
              (Nat.pow_dvd_pow 2 again.grows.le).trans divides
            have sum : page - q = page - page₁ + (page₁ - q) := by omega
            refine Or.inr (Or.inr ⟨le.trans down.1, ?_, again.grows.trans above⟩)
            rw [sum]
            exact Nat.dvd_add down.2 step

end Buddy

/-! ## The block a freed one is merged into -/

section Coalescing

variable {lists : ℕ → List ℕ} {start page order left : ℕ}

/-- The buddy of a block with the bit of its order clear is the block above. -/
theorem buddyPage_of_dvd (le : start ≤ page) (even : 2 ^ (order + 1) ∣ page - start) :
    buddyPage start page order = page + 2 ^ order := by
  rcases even with ⟨n, isMultiple⟩
  have shifted : (n * 2) <<< order ^^^ 1 <<< order = (n * 2 + 1) <<< order := by
    rw [← Nat.shiftLeft_xor_distrib, Nat.xor_one_of_even (by simp)]
  simp only [Nat.shiftLeft_eq, Nat.one_mul] at shifted
  have index : page - start = n * 2 * 2 ^ order := by
    rw [isMultiple, Nat.pow_succ]
    ac_rfl
  rw [buddyPage, index, shifted, Nat.add_mul, ← index]
  omega

/-- The buddy of a block with the bit of its order set is the block below. -/
theorem buddyPage_of_not_dvd (le : start ≤ page) (aligned : 2 ^ order ∣ page - start)
    (odd : ¬2 ^ (order + 1) ∣ page - start) :
    2 ^ order ≤ page - start ∧ buddyPage start page order = page - 2 ^ order := by
  rcases aligned with ⟨n, isMultiple⟩
  have isOdd : n % 2 = 1 := by
    by_contra even
    apply odd
    rw [isMultiple, Nat.pow_succ]
    exact Nat.mul_dvd_mul_left _ (Nat.dvd_of_mod_eq_zero (by omega))
  have shifted : n <<< order ^^^ 1 <<< order = (n - 1) <<< order := by
    rw [← Nat.shiftLeft_xor_distrib, Nat.xor_one_of_odd (Nat.odd_iff.mpr isOdd)]
  simp only [Nat.shiftLeft_eq, Nat.one_mul] at shifted
  have index : page - start = n * 2 ^ order := by rw [isMultiple, Nat.mul_comm]
  have large : 2 ^ order ≤ page - start := by
    rw [index]
    exact Nat.le_mul_of_pos_left _ (by omega)
  refine ⟨large, ?_⟩
  rw [buddyPage, index, shifted, Nat.sub_mul, ← index, Nat.one_mul]
  omega

/-- A block that has lost its bit is a block of the next order. -/
theorem dvd_sub_of_not_dvd {id : ℕ} (aligned : 2 ^ order ∣ id) (odd : ¬2 ^ (order + 1) ∣ id) :
    2 ^ (order + 1) ∣ id - 2 ^ order := by
  rcases aligned with ⟨n, rfl⟩
  have isOdd : n % 2 = 1 := by
    by_contra even
    apply odd
    rw [Nat.pow_succ]
    exact Nat.mul_dvd_mul_left _ (Nat.dvd_of_mod_eq_zero (by omega))
  have less : 2 ^ order * n - 2 ^ order = 2 ^ order * (n - 1) := by
    rw [Nat.mul_sub, Nat.mul_one]
  rw [less, Nat.pow_succ]
  exact Nat.mul_dvd_mul_left _ (Nat.dvd_of_mod_eq_zero (by omega))

/-- What is known of the block a freed one is merged into. -/
structure Coalesced (lists : ℕ → List ℕ) (start page order : ℕ) (block : ℕ × ℕ) : Prop where
  orderLe : order ≤ block.2
  start_le : start ≤ block.1
  le : block.1 ≤ page
  aligned : 2 ^ block.2 ∣ block.1 - start
  same : block.2 = order → block.1 = page
  buddy : order < block.2 → buddyPage start page order ∈ lists order
  lower : block.1 ≠ page → ∃ k, order ≤ k ∧ k < block.2 ∧ block.1 ∈ lists k

theorem coalesce_coalesced (lists : ℕ → List ℕ) (left : ℕ) (start_le : start ≤ page)
    (aligned : 2 ^ order ∣ page - start) :
    Coalesced lists start page order (coalesce lists start left page order) ∧
      (coalesce lists start left page order).2 ≤ order + left := by
  induction left generalizing page order with
  | zero =>
      exact ⟨⟨le_rfl, start_le, le_rfl, aligned, fun _ => rfl,
        fun less => absurd less (lt_irrefl _), fun ne => absurd rfl ne⟩, le_rfl⟩
  | succ left ih =>
      unfold coalesce
      split
      · rename_i isFree
        generalize nextEq : min page (buddyPage start page order) = next
        have nextLe : start ≤ next ∧ next ≤ page ∧ 2 ^ (order + 1) ∣ next - start ∧
            (next ≠ page → next ∈ lists order) := by
          by_cases even : 2 ^ (order + 1) ∣ page - start
          · have isPage : next = page := by
              rw [← nextEq, buddyPage_of_dvd start_le even]
              omega
            subst isPage
            exact ⟨start_le, le_rfl, even, fun ne => absurd rfl ne⟩
          · rcases buddyPage_of_not_dvd start_le aligned even with ⟨large, isBelow⟩
            have isNext : next = page - 2 ^ order := by
              rw [← nextEq, isBelow]
              omega
            refine ⟨by omega, by omega, ?_, fun _ => ?_⟩
            · have moved : next - start = page - start - 2 ^ order := by omega
              rw [moved]
              exact dvd_sub_of_not_dvd aligned even
            · rw [isNext, ← isBelow]
              exact isFree
        rcases nextLe with ⟨startNext, nextPage, alignedNext, memNext⟩
        rcases ih startNext alignedNext with ⟨merged, bound⟩
        refine ⟨⟨Nat.le_of_succ_le merged.orderLe, merged.start_le, merged.le.trans nextPage,
          merged.aligned, fun isOrder => ?_, fun _ => isFree, fun ne => ?_⟩, by omega⟩
        · exact absurd merged.orderLe (by omega)
        · by_cases isNext : (coalesce lists start left next (order + 1)).1 = next
          · refine ⟨order, le_rfl, merged.orderLe, ?_⟩
            rw [isNext] at ne ⊢
            exact memNext ne
          · rcases merged.lower isNext with ⟨k, lower, upper, mem⟩
            exact ⟨k, Nat.le_of_succ_le lower, upper, mem⟩
      · exact ⟨⟨le_rfl, start_le, le_rfl, aligned, fun _ => rfl,
          fun less => absurd less (lt_irrefl _), fun ne => absurd rfl ne⟩, Nat.le_add_right _ _⟩

end Coalescing

namespace Frees

variable {buddy buddy₁ : Buddy} {lists : ℕ → List ℕ} {page order page₁ order₁ : ℕ}
  {block : ℕ × ℕ}

theorem sameLevel_iff (frees : Frees buddy lists page order) {friend : ℕ} :
    buddy.sameLevel friend page ↔ (buddy.pages friend).bplevel = page - buddy.buddyStartPfn := by
  have positive : 0 < 2 ^ order := Nat.two_pow_pos order
  have fits := frees.live.placed.fits
  rw [Buddy.sameLevel, sub32_of_le frees.live.placed.le (by omega)]

theorem dvd (frees : Frees buddy lists page order) : 2 ^ order ∣ page - buddy.buddyStartPfn :=
  Nat.dvd_of_mod_eq_zero frees.live.placed.aligned

/-- The page of the block that a freed one is merged into has a level below that of this block, as
long as it is not the page that is freed. -/
theorem level_ne (frees : Frees buddy lists page order)
    (coalesced : Coalesced lists buddy.buddyStartPfn page order block)
    (le : block.2 ≤ buddyMaxOrder) (ne : block.1 ≠ page) :
    (buddy.pages block.1).bplevel ≠ block.2 := by
  rcases coalesced.lower ne with ⟨k, _, less, mem⟩
  rw [(frees.free.labelled k (less.le.trans le) block.1 mem).2]
  exact less.ne

theorem minusOne_ne (le : block.2 ≤ buddyMaxOrder) : minusOne32 ≠ block.2 := by
  unfold minusOne32 buddyMaxOrder at *
  omega

/-- A page that a round does not put a level in keeps its level or loses it, and is not labelled
with the order of the block. -/
theorem level_ne_after (frees : Frees buddy lists page order)
    (coalesced : Coalesced lists buddy.buddyStartPfn page order block)
    (le : block.2 ≤ buddyMaxOrder) (again : Buddy.Again buddy buddy₁ page page₁ order order₁)
    (ne : block.1 ≠ page) (ne₁ : block.1 ≠ page₁) :
    (buddy₁.pages block.1).bplevel ≠ block.2 := by
  rcases again.others block.1 ne₁ with same | isMinus
  · rw [same]
    exact frees.level_ne coalesced le ne
  · rw [isMinus]
    exact minusOne_ne le

/-- The buddy above is not merged with: only the first two pages could be, and there the page in
front is reserved. -/
theorem not_above (frees : Frees buddy lists page order)
    (buddyLevel : (buddy.pages (page + 2 ^ order)).bplevel = order) (fits : 2 ^ order ≤ page)
    (notBelow : ¬buddy.sameLevel (page - 2 ^ order) page) :
    ¬buddy.sameLevel (page + 2 ^ order) page := by
  intro isAbove
  have startLe := frees.live.placed.le
  have sameIndex := buddyLevel.symm.trans (frees.sameLevel_iff.mp isAbove)
  have isZero : order = 0 := by
    by_contra notZero
    have divides := frees.dvd
    rw [← sameIndex] at divides
    have := Nat.le_of_dvd (Nat.pos_of_ne_zero notZero) divides
    exact absurd this (Nat.not_le.mpr Nat.lt_two_pow_self)
  rw [isZero, Nat.pow_zero] at fits notBelow
  have inFront := (frees.front (page - 1) (by omega)).2
  exact notBelow (frees.sameLevel_iff.mpr (by omega))

/-- The buddy below is not merged with, as its level is its order and not the index of the page. -/
theorem not_below (frees : Frees buddy lists page order)
    (buddyLevel : (buddy.pages (page - 2 ^ order)).bplevel = order)
    (large : 2 ^ order ≤ page - buddy.buddyStartPfn) :
    ¬buddy.sameLevel (page - 2 ^ order) page := by
  intro below
  have sameIndex := buddyLevel.symm.trans (frees.sameLevel_iff.mp below)
  exact absurd large (Nat.not_le.mpr (sameIndex ▸ Nat.lt_two_pow_self))

/-- A round that goes on does not leave the level that the block the freed one is to be merged into
should have, and takes no step that leads to its page. -/
theorem first_round (frees : Frees buddy lists page order)
    (coalesced : Coalesced lists buddy.buddyStartPfn page order block)
    (le : block.2 ≤ buddyMaxOrder) (again : Buddy.Again buddy buddy₁ page page₁ order order₁) :
    (buddy₁.pages block.1).bplevel ≠ block.2 ∧
      (block.1 ≤ page₁ → 2 ^ order₁ ∣ page₁ - block.1 → block.2 = order) := by
  have startLe := frees.live.placed.le
  have coarser : 2 ^ (order + 1) ∣ 2 ^ order₁ := Nat.pow_dvd_pow 2 again.grows
  rcases again.merged with ⟨fits, merged⟩
  by_cases isOrder : block.2 = order
  · refine ⟨?_, fun _ _ => isOrder⟩
    rw [coalesced.same isOrder]
    rcases merged with ⟨_, _, isMinus⟩ | ⟨_, _, isPage⟩
    · rw [isMinus]
      exact minusOne_ne le
    · rw [← isPage, again.new, isOrder]
      exact again.grows.ne'
  · have less : order < block.2 := Nat.lt_of_le_of_ne coalesced.orderLe (Ne.symm isOrder)
    have buddyFreed := coalesced.buddy less
    have buddyLevel := (frees.free.labelled order frees.orderLe _ buddyFreed).2
    have blockStart := coalesced.start_le
    have blockLe := coalesced.le
    have alignedBlock : 2 ^ (order + 1) ∣ block.1 - buddy.buddyStartPfn :=
      (Nat.pow_dvd_pow 2 less).trans coalesced.aligned
    have index : page - buddy.buddyStartPfn =
        page - block.1 + (block.1 - buddy.buddyStartPfn) := by omega
    by_cases even : 2 ^ (order + 1) ∣ page - buddy.buddyStartPfn
    · rw [buddyPage_of_dvd startLe even] at buddyLevel
      -- the distance to the block is even, and the page merged is an odd one away
      have apart : 2 ^ (order + 1) ∣ page - block.1 := by
        rw [index] at even
        exact (Nat.dvd_add_left alignedBlock).mp even
      have tooLarge : ¬2 ^ (order + 1) ∣ 2 ^ order := fun divides =>
        absurd ((Nat.pow_dvd_pow_iff_le_right Nat.one_lt_two).mp divides)
          (Nat.not_succ_le_self order)
      rcases merged with ⟨_, isBelow, isMinus⟩ | ⟨notBelow, isAbove, _⟩
      · constructor
        · by_cases isPage : block.1 = page
          · rw [isPage, isMinus]
            exact minusOne_ne le
          · refine frees.level_ne_after coalesced le again isPage fun isPage₁ => tooLarge ?_
            have distance : page - block.1 = 2 ^ order := by omega
            rw [distance] at apart
            exact apart
        · intro reached divides
          have distance : page - block.1 = page₁ - block.1 + 2 ^ order := by omega
          rw [distance] at apart
          exact absurd ((Nat.dvd_add_right (coarser.trans divides)).mp apart) tooLarge
      · exact absurd isAbove (frees.not_above buddyLevel fits notBelow)
    · rcases buddyPage_of_not_dvd startLe frees.dvd even with ⟨large, isBuddy⟩
      rw [isBuddy] at buddyLevel
      rcases merged with ⟨below, _⟩ | ⟨_, _, isPage⟩
      · exact absurd below (frees.not_below buddyLevel large)
      · have notPage : block.1 ≠ page := fun same => even (same ▸ alignedBlock)
        refine ⟨frees.level_ne_after coalesced le again notPage (isPage ▸ notPage),
          fun _ divides => absurd ?_ even⟩
        rw [isPage] at divides
        rw [index]
        exact Nat.dvd_add (coarser.trans divides) alignedBlock

/-- However it goes, freeing a block does not do what it is meant to. -/
theorem not_freesBlock (frees : Frees buddy lists page order) :
    ¬FreesBlock buddy lists page order := by
  rintro ⟨buddy', lists', ran, free', _, _, mem⟩
  rcases coalesce_coalesced lists (buddyMaxOrder - order) frees.live.placed.le frees.dvd with
    ⟨coalesced, bound⟩
  generalize coalesce lists buddy.buddyStartPfn (buddyMaxOrder - order) page order = block
    at coalesced bound mem
  have le : block.2 ≤ buddyMaxOrder := by
    have := frees.orderLe
    omega
  have level := (free'.labelled block.2 le block.1 mem).2
  unfold Buddy.freePagesLocked Buddy.freeLocked at ran
  split at ran
  · -- the loop is not run at all
    cases ran
  · split at ran
    · cases ran
    · cases ran
    · rename_i buddy₁ page₁ order₁ round
      have again := Buddy.freeRound_again round
      rcases frees.first_round coalesced le again with ⟨lost, unreached⟩
      rcases Buddy.freeLocked_level ran block.1 with kept | isMinus | ⟨below, divides, above⟩
      · exact lost (kept.symm.trans level)
      · exact minusOne_ne le (isMinus.symm.trans level)
      · have isOrder := unreached below divides
        have grows := again.grows
        omega

end Frees

/-- Pages 16 to 31, of which none is free and page 17 is handed out. -/
def onePage : Buddy where
  pages pfn := ⟨if pfn = 17 then buddyAllocated else buddyReserved, 1, minusOne32, 0, 0⟩
  links := { next := some, prev := some }
  nrFree _ := 0
  buddyStartPfn := 16
  buddyEndPfn := 32

theorem onePage_frees : Frees onePage (fun _ => []) 17 0 := by
  refine ⟨⟨fun order _ => ?_, fun _ _ _ mem => ?_, fun _ _ _ mem => ?_, fun _ _ _ mem => ?_⟩,
    fun _ _ _ mem => ?_, fun pfn inFront => ?_, by decide, ⟨⟨?_, ?_, ?_⟩, ?_⟩, by decide⟩
  · exact ⟨by simp [Links.Joined, onePage], by simp⟩
  · cases mem
  · cases mem
  · cases mem
  · cases mem
  · have notPage : pfn ≠ 17 := by
      have : pfn < 16 := inFront
      omega
    exact ⟨if_neg notPage, rfl⟩
  · decide
  · decide
  · decide
  · rintro pfn _ ⟨order, _, page, mem, _⟩
    cases mem

theorem not_freesBlock_onePage : ¬FreesBlock onePage (fun _ => []) 17 0 :=
  onePage_frees.not_freesBlock

/-- Page 17 has no neighbour at level 1: the loop is left at once and the lock never released. -/
theorem not_forall_freesBlock :
    ¬∀ buddy lists page order, Frees buddy lists page order →
      FreesBlock buddy lists page order := by
  intro claimed
  rcases claimed onePage (fun _ => []) 17 0 onePage_frees with ⟨buddy', _, ran, _⟩
  have held : onePage.freePagesLocked 17 0 = some (onePage, true) := by
    have below : ¬onePage.sameLevel 16 17 := by decide
    have above : ¬onePage.sameLevel 18 17 := by decide
    simp [Buddy.freePagesLocked, Buddy.freeLocked, Buddy.freeRound, below, above]
  rw [held] at ran
  cases ran

end Ninix.Memory
