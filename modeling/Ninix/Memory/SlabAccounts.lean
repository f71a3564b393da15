import Ninix.Memory.Slab

/-!
# The accounts of a slab page

A page that has been formatted serves calls for its cache as long as an object of it is handed out.
The objects taken from `end_ptr` lie one behind the other, and each of them is either handed out or
on the chain `slabp`, whose links are in the objects themselves.

As `slab_free` clears `is_full`, objects are also taken from behind the page. `slab_free` counts
such an object on the page its address lies in, and not on the one it was taken from.
-/

namespace Ninix.Memory

open TransitionSystem LinkedChain ListHead SlabSystem

/-- The slab system with the objects of one page that are handed out. -/
structure SlabPage where
  slab : Slab
  live : List ℕ

/-- Calls that the page serves, and what the owner of an object writes. -/
inductive PageOp
  | alloc
  | free (index : ℕ)
  | write (index offset value : ℕ)

/-- The first objects of a page. -/
def slots (cache page count : ℕ) : List ℕ :=
  (List.range count).map fun k => kmemAddr page + slabHeadBytes + k * slabSize cache

namespace SlabPage

variable (cache page : ℕ)

/-- A call of `slab_alloc` that ends without a `return` is not served, nor is one of `slab_free`
that leaves no object. Owners write in their objects, as far as these lie in the page. -/
def step (s : SlabPage) : PageOp → Option SlabPage
  | .alloc =>
      if s.slab.cpuPage cache = some page then
        (s.slab.slabAlloc cache page).map fun (object, slab) => ⟨slab, object :: s.live⟩
      else none
  | .free index =>
      s.live[index]?.bind fun object =>
        if 2 ≤ s.live.length then
          (s.slab.slabFree cache (object - kernelEntry)).map fun (slab, _) =>
            ⟨slab, s.live.erase object⟩
        else none
  | .write index offset value =>
      s.live[index]?.bind fun object =>
        if offset % 4 = 0 ∧ offset + 4 ≤ objsize cache ∧ pageOf (object + offset) = page then
          some { s with
            slab := { s.slab with word := Function.update s.slab.word (object + offset) value } }
        else none

/-- `format_slabpage` has just formatted the page, one of those the kernel addresses, for a cache
with empty lists. -/
def Formatted (s : SlabPage) : Prop :=
  cache < pageShift ∧ page < 131072 ∧ s.live = [] ∧
    ∃ slab : Slab, slab.links.ClosedOn (· = .nodePartial cache) ∧
      slab.links.ClosedOn (· = .nodeFull cache) ∧
      s.slab = (slab.supplied page).formatSlabpage cache page

/-- The objects up to `end_ptr` are each handed out or on the chain, once, and `nr_objs` counts
those handed out. -/
structure Accounts (s : SlabPage) (count : ℕ) (chain : List ℕ) : Prop where
  endPtr : (s.slab.heads page).endPtr = kmemAddr page + slabHeadBytes + count * slabSize cache
  freed : FreeChain s.slab.word (s.slab.pages page).slabp chain
  once : (chain ++ s.live).Perm (slots cache page count)
  nrObjs : (s.slab.heads page).nrObjs = s.live.length

/-- The accounts of the page are right, and no object is handed out twice. -/
structure Accounted (s : SlabPage) : Prop where
  accounts : ∃ count chain, Accounts cache page s count chain
  fresh : ∀ object slab', s.slab.slabAlloc cache page = some (object, slab') → object ∉ s.live

/-- An object that is freed begins in the page, and the addresses of objects do not come to the
end of the address space. -/
def Keeps (s : SlabPage) : PageOp → Prop
  | .alloc => (s.slab.pages page).slabp = 0 → (s.slab.heads page).isFull = 0 →
      (s.slab.heads page).endPtr + 2 * slabSize cache < 4294967296
  | .free index => ∀ object, s.live[index]? = some object → pageOf object = page
  | .write _ _ _ => True

instance (s : SlabPage) : (op : PageOp) → Decidable (s.Keeps cache page op)
  | .alloc => inferInstanceAs (Decidable (_ → _))
  | .free index => decidable_of_iff (∀ object ∈ s.live[index]?, pageOf object = page) Iff.rfl
  | .write _ _ _ => .isTrue trivial

structure Inv (s : SlabPage) : Prop where
  isCache : cache < pageShift
  hasPage : s.slab.cpuPage cache = some page
  closed : s.slab.links.ClosedOn (Group cache page)
  accounts : ∃ count chain, Accounts cache page s count chain

variable {cache page} {s : SlabPage} {count object : ℕ} {chain : List ℕ}

/-! ## Objects -/

theorem mem_slots : object ∈ slots cache page count ↔
    ∃ k < count, kmemAddr page + slabHeadBytes + k * slabSize cache = object := by
  simp [slots]

theorem slots_succ : slots cache page (count + 1) =
    slots cache page count ++ [kmemAddr page + slabHeadBytes + count * slabSize cache] := by
  simp [slots, List.range_succ]

theorem slots_nodup : (slots cache page count).Nodup := by
  refine (List.nodup_range).map fun k j same => ?_
  have products : k * slabSize cache = j * slabSize cache := by omega
  exact Nat.eq_of_mul_eq_mul_right (Nat.succ_pos _) products

namespace Accounts

theorem nodup (accounts : Accounts cache page s count chain) : (chain ++ s.live).Nodup :=
  accounts.once.nodup_iff.mpr slots_nodup

theorem isObject (accounts : Accounts cache page s count chain) (mem : object ∈ chain ++ s.live) :
    kernelEntry ≤ object := by
  rcases mem_slots.mp (accounts.once.mem_iff.mp mem) with ⟨k, _, rfl⟩
  unfold kmemAddr
  omega

/-- The object at `end_ptr` is a new one. -/
theorem takeEnd (accounts : Accounts cache page s count []) {slab' : Slab}
    (pages : slab'.pages = s.slab.pages) (word : slab'.word = s.slab.word)
    (endPtr : (slab'.heads page).endPtr = (s.slab.heads page).endPtr + slabSize cache)
    (nrObjs : (slab'.heads page).nrObjs = (s.slab.heads page).nrObjs + 1) :
    (s.slab.heads page).endPtr ∉ s.live ∧
      Accounts cache page ⟨slab', (s.slab.heads page).endPtr :: s.live⟩ (count + 1) [] := by
  have once : ((s.slab.heads page).endPtr :: s.live).Perm (slots cache page (count + 1)) := by
    rw [slots_succ, accounts.endPtr]
    exact (accounts.once.cons _).trans (List.perm_append_singleton _ _).symm
  refine ⟨(List.nodup_cons.mp (once.nodup_iff.mpr slots_nodup)).1, ?_, ?_, once, ?_⟩
  · rw [endPtr, accounts.endPtr, Nat.add_mul, Nat.one_mul, Nat.add_assoc]
  · rw [pages, word]
    exact accounts.freed
  · rw [nrObjs, accounts.nrObjs]
    rfl

/-- The first object of the chain has been freed. -/
theorem takeChain (accounts : Accounts cache page s count chain)
    (chained : (s.slab.pages page).slabp ≠ 0) :
    (s.slab.pages page).slabp ∉ s.live ∧ ∃ rest, Accounts cache page
      ⟨(s.slab.takeChain page).2, (s.slab.pages page).slabp :: s.live⟩ count rest := by
  rcases accounts.freed.pop chained with ⟨rest, rfl, freed⟩
  have nodup := List.nodup_cons.mp accounts.nodup
  refine ⟨fun isLive => nodup.1 (List.mem_append_right _ isLive), rest, ?_, ?_, ?_, ?_⟩
  · simpa [Slab.takeChain, Slab.setPage, Slab.setHead] using accounts.endPtr
  · simpa [Slab.takeChain, Slab.setPage, Slab.setHead] using freed
  · exact List.perm_middle.trans accounts.once
  · simpa [Slab.takeChain, Slab.setPage, Slab.setHead] using accounts.nrObjs

/-- An object that is freed is put in front of the chain. -/
theorem free (accounts : Accounts cache page s count chain) (isLive : object ∈ s.live)
    {slab' : Slab}
    (pages : slab'.pages = Function.update s.slab.pages page
      { s.slab.pages page with slabp := object })
    (word : slab'.word = Function.update s.slab.word object (s.slab.pages page).slabp)
    (heads : slab'.heads = Function.update s.slab.heads page
      { s.slab.heads page with nrObjs := (s.slab.heads page).nrObjs - 1, isFull := 0 }) :
    Accounts cache page ⟨slab', s.live.erase object⟩ count (object :: chain) := by
  have perm : (object :: chain ++ s.live.erase object).Perm (chain ++ s.live) :=
    List.perm_middle.symm.trans ((List.perm_cons_erase isLive).symm.append_left chain)
  have notMem : object ∉ chain := fun mem =>
    (List.nodup_cons.mp (perm.nodup_iff.mpr accounts.nodup)).1 (List.mem_append_left _ mem)
  have ne : object ≠ 0 := by
    have isObject := accounts.isObject (List.mem_append_right chain isLive)
    unfold kernelEntry at isObject
    omega
  refine ⟨?_, ?_, perm.trans accounts.once, ?_⟩
  · rw [heads, Function.update_self]
    exact accounts.endPtr
  · rw [pages, word, Function.update_self]
    exact accounts.freed.push ne notMem
  · rw [heads, Function.update_self, List.length_erase_of_mem isLive]
    exact congrArg (· - 1) accounts.nrObjs

/-- Objects are apart, so that a write in one that is handed out spares the chain. -/
theorem write (accounts : Accounts cache page s count chain) (isLive : object ∈ s.live)
    {offset : ℕ} (inObject : offset + 4 ≤ objsize cache) (value : ℕ) :
    Accounts cache page { s with
      slab := { s.slab with word := Function.update s.slab.word (object + offset) value } }
      count chain := by
  refine ⟨accounts.endPtr, accounts.freed.write (fun mem => ?_) value, accounts.once,
    accounts.nrObjs⟩
  have nodup := List.nodup_append.mp accounts.nodup
  rcases mem_slots.mp (accounts.once.mem_iff.mp (List.mem_append_left _ mem)) with ⟨k, _, isSlot⟩
  rcases mem_slots.mp (accounts.once.mem_iff.mp (List.mem_append_right _ isLive)) with
    ⟨j, _, rfl⟩
  have size : objsize cache < slabSize cache := Nat.lt_add_of_pos_right (by decide)
  have positive : 0 < slabSize cache := Nat.zero_lt_of_lt size
  rcases Nat.lt_trichotomy k j with less | rfl | greater
  · have lt := Nat.mul_lt_mul_of_pos_right less positive
    omega
  · have isFirst : offset = 0 := Nat.left_eq_add.mp isSlot
    subst isFirst
    exact nodup.2.2 _ mem _ isLive (Nat.add_zero _)
  · have le := Nat.mul_le_mul_right (slabSize cache) (Nat.succ_le_of_lt greater)
    rw [Nat.succ_mul] at le
    omega

end Accounts

/-! ## Steps -/

theorem Formatted.inv (formatted : Formatted cache page s) : Inv cache page s := by
  rcases s with ⟨_, _⟩
  rcases formatted with ⟨isCache, _, rfl, slab, partials, fulls, rfl⟩
  refine ⟨isCache, by simp [Slab.formatSlabpage], (formatted_closed page partials fulls).1,
    0, [], ?_, Or.inl ⟨?_, rfl⟩, .refl _, ?_⟩
  all_goals simp [Slab.formatSlabpage, Slab.setPage, Slab.setHead]

theorem Inv.alloc (inv : Inv cache page s) {slab' : Slab}
    (allocated : s.slab.slabAlloc cache page = some (object, slab')) :
    object ∉ s.live ∧ Inv cache page ⟨slab', object :: s.live⟩ := by
  rcases inv.accounts with ⟨count, chain, accounts⟩
  simp only [Slab.slabAlloc, inv.hasPage] at allocated
  by_cases chained : (s.slab.pages page).slabp ≠ 0
  · rw [if_pos chained] at allocated
    cases allocated
    rcases accounts.takeChain chained with ⟨notLive, rest, accounts'⟩
    exact ⟨notLive, inv.isCache, inv.hasPage, inv.closed, count, rest, accounts'⟩
  · rw [if_neg chained] at allocated
    rcases accounts.freed with ⟨_, rfl⟩ | ⟨ne, _⟩
    · split at allocated
      · rcases takeEnd_spec inv.closed with
          ⟨_, taken, pages, word, cpuPage, endPtr, nrObjs, _, closed, _⟩
        rw [taken] at allocated
        cases allocated
        rcases accounts.takeEnd pages word endPtr nrObjs with ⟨notLive, accounts'⟩
        exact ⟨notLive, inv.isCache, cpuPage ▸ inv.hasPage, closed, count + 1, [], accounts'⟩
      · cases allocated
    · exact absurd ne chained

theorem Inv.free (inv : Inv cache page s) (isLive : object ∈ s.live) (onPage : pageOf object = page)
    {slab' : Slab} {back : Bool}
    (freed : s.slab.slabFree cache (object - kernelEntry) = some (slab', back)) :
    Inv cache page ⟨slab', s.live.erase object⟩ := by
  rcases inv.accounts with ⟨count, chain, accounts⟩
  have isObject := accounts.isObject (List.mem_append_right chain isLive)
  have counted : (s.slab.heads page).nrObjs ≠ 0 := by
    rw [accounts.nrObjs]
    exact Nat.ne_of_gt (List.length_pos_of_mem isLive)
  rcases slabFree_spec isObject onPage counted inv.closed with
    ⟨_, _, freed', pages, word, cpuPage, heads, closed, _⟩
  cases freed.symm.trans freed'
  exact ⟨inv.isCache, cpuPage ▸ inv.hasPage, closed, count, object :: chain,
    accounts.free isLive pages word heads⟩

theorem Inv.step (inv : Inv cache page s) {op : PageOp} (keeps : s.Keeps cache page op)
    {next : SlabPage} (stepped : s.step cache page op = some next) : Inv cache page next := by
  cases op with
  | alloc =>
      rw [SlabPage.step, if_pos inv.hasPage] at stepped
      rcases Option.map_eq_some_iff.mp stepped with ⟨⟨object, slab'⟩, allocated, rfl⟩
      exact (inv.alloc allocated).2
  | free index =>
      rcases Option.bind_eq_some_iff.mp stepped with ⟨object, isLive, stepped⟩
      split at stepped
      · rcases Option.map_eq_some_iff.mp stepped with ⟨⟨slab', back⟩, freed, rfl⟩
        exact inv.free (List.mem_of_getElem? isLive) (keeps object isLive) freed
      · cases stepped
  | write index offset value =>
      rcases Option.bind_eq_some_iff.mp stepped with ⟨object, isLive, stepped⟩
      split at stepped
      · rename_i inObject
        cases stepped
        rcases inv.accounts with ⟨count, chain, accounts⟩
        exact ⟨inv.isCache, inv.hasPage, inv.closed, count, chain,
          accounts.write (List.mem_of_getElem? isLive) inObject.2.1 value⟩
      · cases stepped

/-- In a run that frees only objects beginning in the page, its accounts are right. -/
theorem accounted_of_reach
    (reached : GuardedReach (step cache page) (Keeps cache page) (Formatted cache page) s) :
    Accounted cache page s := by
  have inv : Inv cache page s := reached.invariant (fun _ formatted => formatted.inv)
    fun _ _ _ inv keeps stepped => inv.step keeps stepped
  exact ⟨inv.accounts, fun object slab' allocated => (inv.alloc allocated).1⟩

/-- Page 5 formatted for objects of 1536 bytes. The page behind it has objects too. -/
def formattedPage : SlabPage where
  slab := (Slab.supplied
    { pages := fun _ => ⟨0, 0, 0, 0, 0⟩
      heads := fun _ => ⟨0, 2, 0⟩
      links := ⟨some, some⟩
      cpuPage := fun _ => none
      word := fun _ => 0 } 5).formatSlabpage 10 5
  live := []

theorem formattedPage_formatted : Formatted 10 5 formattedPage :=
  ⟨by decide, by decide, rfl, _, fun node eq => ⟨⟨node, rfl, eq⟩, node, rfl, eq⟩,
    fun node eq => ⟨⟨node, rfl, eq⟩, node, rfl, eq⟩, rfl⟩

/-- Two objects are handed out, the first one is freed and handed out again. -/
theorem accounted_of_reach_again :
    ∃ s, run (step 10 5) formattedPage [.alloc, .alloc, .free 1, .alloc] = some s ∧
      Accounted 10 5 s := by
  have isRun : (run (step 10 5) formattedPage [.alloc, .alloc, .free 1, .alloc]).isSome := by
    decide
  have guarded : GuardedRun (step 10 5) (Keeps 10 5) formattedPage
      [.alloc, .alloc, .free 1, .alloc] := by
    decide
  rcases Option.isSome_iff_exists.mp isRun with ⟨s, ran⟩
  have started : GuardedReach (step 10 5) (Keeps 10 5) (Formatted 10 5) formattedPage :=
    .start formattedPage_formatted
  exact ⟨s, ran, accounted_of_reach (started.of_run guarded ran)⟩

/-- Freeing and allocating lead to an object behind the page, which is freed on the page there. -/
def overrun : List PageOp :=
  [.alloc, .alloc, .free 1, .alloc, .alloc, .free 1, .alloc, .alloc, .free 0]

theorem not_accounted_overrun : ¬∀ cache page (s : SlabPage),
    Reach (step cache page) (Formatted cache page) s → Accounted cache page s := by
  intro always
  have counts : (run (step 10 5) formattedPage overrun).map (fun s =>
      ((s.slab.heads 5).nrObjs, s.live.length)) = some (4, 3) := by
    decide
  rcases Option.map_eq_some_iff.mp counts with ⟨s, ran, counted⟩
  have started : Reach (step 10 5) (Formatted 10 5) formattedPage := .start formattedPage_formatted
  rcases (always 10 5 s (reach_of_run started ran)).accounts with ⟨count, chain, accounts⟩
  have nrObjs := accounts.nrObjs
  rw [(Prod.mk.inj counted).1, (Prod.mk.inj counted).2] at nrObjs
  exact absurd nrObjs (by decide)

end SlabPage

end Ninix.Memory
