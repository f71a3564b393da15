import Mathlib.Data.List.Chain
import Ninix.Library.ListHead

/-!
# Lists as rings

A list that is linked both ways is a ring of its head and its elements. It can be cut between any
two neighbours: a node is added at the cut or taken out there, and the parts in front of it and
behind it stay as they are. The pointers of other nodes do not change, so another ring stays one.
-/

namespace ListHead

namespace Links

universe u

variable {Node : Type u}

/-- An element is in front of another one. -/
def Joined (links : Links Node) (left right : Node) : Prop :=
  links.next left = some right ∧ links.prev right = some left

/-- The head and the elements are linked in a circle, both ways. -/
structure Ring (links : Links Node) (head : Node) (elements : List Node) : Prop where
  chain : List.IsChain links.Joined (head :: (elements ++ [head]))
  nodup : (head :: elements).Nodup

namespace Ring

variable {links links' : Links Node} {head first new : Node} {elements : List Node}
  {group : Node → Prop}

/-- A ring no node of which changes its pointers is still one. -/
theorem congr (ring : links.Ring head elements) (same : links.SameOutside links' group)
    (outside : ∀ node ∈ head :: elements, ¬group node) : links'.Ring head elements := by
  refine ⟨ring.chain.imp_of_mem_imp fun left right memLeft memRight joined => ?_, ring.nodup⟩
  have inRing : ∀ node ∈ head :: (elements ++ [head]), ¬group node := by
    intro node mem
    apply outside
    simpa [or_comm, or_assoc] using mem
  exact ⟨(same left (inRing left memLeft)).2.trans joined.1,
    (same right (inRing right memRight)).1.trans joined.2⟩

theorem next_head (ring : links.Ring head (first :: elements)) : links.next head = some first :=
  (List.isChain_cons_cons.mp ring.chain).1.1

theorem listEmpty_iff (ring : links.Ring head elements) :
    links.listEmpty head ↔ elements = [] := by
  cases elements with
  | nil => exact iff_of_true (List.isChain_cons_cons.mp ring.chain).1.1 rfl
  | cons first rest =>
      refine iff_of_false (fun empty => ?_) (List.cons_ne_nil _ _)
      have same : first = head := Option.some.inj (ring.next_head.symm.trans empty)
      exact (List.nodup_cons.mp ring.nodup).1 (same ▸ List.mem_cons_self)

/-- A chain stays one where its links but those at its ends do. -/
theorem isChain_imp {R S : Node → Node → Prop} {last : Node}
    (chain : List.IsChain R (elements ++ [last]))
    (kept : ∀ left ∈ elements, ∀ right ∈ (elements ++ [last]).tail, R left right → S left right) :
    List.IsChain S (elements ++ [last]) := by
  induction elements with
  | nil => exact List.isChain_singleton last
  | cons first rest ih =>
      rw [List.cons_append, List.isChain_cons] at chain ⊢
      refine ⟨fun next isNext => kept first List.mem_cons_self next (List.mem_of_head? isNext)
        (chain.1 next isNext), ih chain.2 fun left memLeft right memRight => ?_⟩
      exact kept left (List.mem_cons_of_mem _ memLeft) right (List.mem_of_mem_tail memRight)

/-- A ring is cut between two neighbours. -/
theorem isChain_cut {R : Node → Node → Prop} {front back before behind : List Node}
    {left right : Node} (ends : head :: front = before ++ [left])
    (begins : back ++ [head] = right :: behind) :
    List.IsChain R (head :: (front ++ back ++ [head])) ↔
      List.IsChain R (head :: front) ∧ R left right ∧ List.IsChain R (back ++ [head]) := by
  have whole : head :: (front ++ back ++ [head]) = before ++ left :: right :: behind := by
    rw [List.append_assoc, begins, ← List.cons_append, ends, List.append_assoc]
    rfl
  rw [whole, List.isChain_append_cons_cons, ends, begins]

/-- A ring is cut on both sides of one of its elements. -/
theorem isChain_cut_around {R : Node → Node → Prop} {front back before behind : List Node}
    {left right entry : Node} (ends : head :: front = before ++ [left])
    (begins : back ++ [head] = right :: behind) :
    List.IsChain R (head :: (front ++ entry :: back ++ [head])) ↔
      List.IsChain R (head :: front) ∧ R left entry ∧ R entry right ∧
        List.IsChain R (back ++ [head]) := by
  have starts : (entry :: back) ++ [head] = entry :: (right :: behind) := by
    rw [List.cons_append, begins]
  rw [isChain_cut ends starts, List.cons_append, begins, List.isChain_cons_cons]

/-- The last node in front of a cut and the first one behind it. -/
theorem exists_cut (head : Node) (front back : List Node) :
    (∃ before left, head :: front = before ++ [left]) ∧
      ∃ right behind, back ++ [head] = right :: behind := by
  constructor
  · exact ⟨_, _, (List.dropLast_append_getLast (List.cons_ne_nil head front)).symm⟩
  · exact List.exists_cons_of_ne_nil
      (List.append_ne_nil_of_right_ne_nil back (List.cons_ne_nil head []))

/-- The nodes at a cut are nodes of the ring. -/
theorem mem_of_cut {front back before behind : List Node} {left right : Node}
    (ends : head :: front = before ++ [left]) (begins : back ++ [head] = right :: behind) :
    left ∈ head :: (front ++ back) ∧ right ∈ head :: (front ++ back) := by
  have memLeft : left ∈ head :: front := ends ▸ List.mem_append_right before List.mem_cons_self
  have memRight : right ∈ back ++ [head] := begins ▸ List.mem_cons_self
  constructor
  · rw [← List.cons_append]
    exact List.mem_append_left back memLeft
  · rcases List.mem_append.mp memRight with inBack | isHead
    · exact List.mem_cons_of_mem _ (List.mem_append_right front inBack)
    · exact List.mem_singleton.mp isHead ▸ List.mem_cons_self

/-- The two parts of a ring stay as they are when the pointers change at the cut only. -/
theorem isChain_parts {front back before behind : List Node} {left right : Node}
    (nodup : (head :: (front ++ back)).Nodup) (ends : head :: front = before ++ [left])
    (begins : back ++ [head] = right :: behind)
    (chain : List.IsChain links.Joined (head :: front))
    (chain' : List.IsChain links.Joined (back ++ [head]))
    (next : ∀ node ∈ head :: (front ++ back), node ≠ left → links'.next node = links.next node)
    (prev : ∀ node ∈ head :: (front ++ back), node ≠ right →
      links'.prev node = links.prev node) :
    List.IsChain links'.Joined (head :: front) ∧
      List.IsChain links'.Joined (back ++ [head]) := by
  rcases List.nodup_append.mp (List.cons_append ▸ nodup) with ⟨nodupFront, nodupBack, apart⟩
  rcases List.nodup_cons.mp nodup with ⟨headOutside, _⟩
  have nodupEnd : (back ++ [head]).Nodup :=
    (List.perm_append_singleton head back).nodup_iff.mpr (List.nodup_cons.mpr
      ⟨fun mem => headOutside (List.mem_append_right front mem), nodupBack⟩)
  have memRight : right ∈ back ++ [head] := begins ▸ List.mem_cons_self
  have memLeft : left ∈ head :: front := ends ▸ List.mem_append_right before List.mem_cons_self
  constructor
  · have tail : (before ++ [left]).tail = front := by rw [← ends, List.tail_cons]
    rw [ends] at chain ⊢
    refine isChain_imp chain fun l memL r memR joined => ?_
    rw [tail] at memR
    have inFront : l ∈ head :: front := ends ▸ List.mem_append_left [left] memL
    have neLeft : l ≠ left := by
      rw [ends, List.nodup_append] at nodupFront
      exact nodupFront.2.2 l memL left List.mem_cons_self
    have neRight : r ≠ right := by
      rintro rfl
      rcases List.mem_append.mp memRight with inBack | isHead
      · exact apart r (List.mem_cons_of_mem _ memR) r inBack rfl
      · exact headOutside (List.mem_append_left back (List.mem_singleton.mp isHead ▸ memR))
    exact ⟨(next l (List.cons_append ▸ List.mem_append_left back inFront) neLeft).trans joined.1,
      (prev r (List.mem_cons_of_mem _ (List.mem_append_left back memR)) neRight).trans joined.2⟩
  · refine isChain_imp chain' fun l memL r memR joined => ?_
    rw [begins, List.tail_cons] at memR
    have neLeft : l ≠ left := by
      rintro rfl
      exact apart l memLeft l memL rfl
    have neRight : r ≠ right := by
      rintro rfl
      rw [begins] at nodupEnd
      exact (List.nodup_cons.mp nodupEnd).1 memR
    have inEnd : r ∈ back ++ [head] := begins ▸ List.mem_cons_of_mem _ memR
    have inRing : r ∈ head :: (front ++ back) := by
      rcases List.mem_append.mp inEnd with inBack | isHead
      · exact List.mem_cons_of_mem _ (List.mem_append_right front inBack)
      · exact List.mem_singleton.mp isHead ▸ List.mem_cons_self
    exact ⟨(next l (List.mem_cons_of_mem _ (List.mem_append_right front memL)) neLeft).trans
      joined.1, (prev r inRing neRight).trans joined.2⟩

theorem perm_cut (head entry : Node) (front back : List Node) :
    (head :: (front ++ entry :: back)).Perm (entry :: head :: (front ++ back)) :=
  (List.perm_middle.cons head).trans (List.Perm.swap entry head _)

variable [DecidableEq Node]

/-- Joining the neighbours of an element takes it out of its ring. -/
theorem unlink {front back : List Node} {entry : Node}
    (ring : links.Ring head (front ++ entry :: back)) :
    ∃ links', links.unlink entry = some links' ∧ links'.Ring head (front ++ back) ∧
      links.SameOutside links' (fun node => node ∈ head :: (front ++ back)) := by
  rcases exists_cut head front back with ⟨⟨before, left, ends⟩, right, behind, begins⟩
  rcases mem_of_cut ends begins with ⟨memLeft, memRight⟩
  rcases (isChain_cut_around ends begins).mp ring.chain with ⟨chain, joined, joined', chain'⟩
  have nodup : (head :: (front ++ back)).Nodup :=
    (List.nodup_cons.mp ((perm_cut head entry front back).nodup_iff.mp ring.nodup)).2
  let links' : Links Node :=
    { next := Function.update links.next left (some right)
      prev := Function.update links.prev right (some left) }
  have unlinked : links.unlink entry = some links' := by
    simp only [Links.unlink, joined.2, joined'.1, Option.bind_eq_bind, Option.bind_some, links']
  have kept : List.IsChain links'.Joined (head :: front) ∧
      List.IsChain links'.Joined (back ++ [head]) :=
    isChain_parts nodup ends begins chain chain' (fun node _ ne => Function.update_of_ne ne _ _)
      (fun node _ ne => Function.update_of_ne ne _ _)
  refine ⟨links', unlinked, ⟨(isChain_cut ends begins).mpr
    ⟨kept.1, ⟨?_, ?_⟩, kept.2⟩, nodup⟩, fun node outside => ⟨?_, ?_⟩⟩
  · exact Function.update_self _ _ _
  · exact Function.update_self _ _ _
  · have ne : node ≠ right := fun same => outside (show node ∈ _ from same ▸ memRight)
    exact Function.update_of_ne ne _ _
  · have ne : node ≠ left := fun same => outside (show node ∈ _ from same ▸ memLeft)
    exact Function.update_of_ne ne _ _

/-- A node put between two neighbours of a ring is one of its elements. -/
theorem listAddBetween {front back before behind : List Node} {left right : Node}
    (ring : links.Ring head (front ++ back)) (fresh : new ∉ head :: (front ++ back))
    (ends : head :: front = before ++ [left]) (begins : back ++ [head] = right :: behind) :
    (links.listAddBetween new left right).Ring head (front ++ new :: back) ∧
      links.SameOutside (links.listAddBetween new left right)
        (fun node => node ∈ head :: (front ++ new :: back)) := by
  rcases mem_of_cut ends begins with ⟨memLeft, memRight⟩
  rcases (isChain_cut ends begins).mp ring.chain with ⟨chain, _, chain'⟩
  have neNew : ∀ node ∈ head :: (front ++ back), node ≠ new := fun node mem same =>
    fresh (same ▸ mem)
  have perm := perm_cut head new front back
  have kept : List.IsChain (links.listAddBetween new left right).Joined (head :: front) ∧
      List.IsChain (links.listAddBetween new left right).Joined (back ++ [head]) :=
    isChain_parts ring.nodup ends begins chain chain'
      (fun node mem ne => (Function.update_of_ne ne _ _).trans
        (Function.update_of_ne (neNew node mem) _ _))
      (fun node mem ne => (Function.update_of_ne ne _ _).trans
        (Function.update_of_ne (neNew node mem) _ _))
  refine ⟨⟨(isChain_cut_around ends begins).mpr ⟨kept.1, ⟨?_, ?_⟩, ⟨?_, ?_⟩, kept.2⟩,
    perm.nodup_iff.mpr (List.nodup_cons.mpr ⟨fresh, ring.nodup⟩)⟩, fun node outside => ?_⟩
  · exact Function.update_self _ _ _
  · exact (Function.update_of_ne (neNew right memRight).symm _ _).trans
      (Function.update_self _ _ _)
  · exact (Function.update_of_ne (neNew left memLeft).symm _ _).trans (Function.update_self _ _ _)
  · exact Function.update_self _ _ _
  · rcases not_or.mp (List.mem_cons.not.mp (perm.mem_iff.not.mp outside)) with ⟨ne, notInRing⟩
    have neLeft : node ≠ left := fun same => notInRing (same ▸ memLeft)
    have neRight : node ≠ right := fun same => notInRing (same ▸ memRight)
    exact ⟨(Function.update_of_ne neRight _ _).trans (Function.update_of_ne ne _ _),
      (Function.update_of_ne neLeft _ _).trans (Function.update_of_ne ne _ _)⟩

theorem listAdd (ring : links.Ring head elements) (fresh : new ∉ head :: elements) :
    ∃ links', links.listAdd new head = some links' ∧ links'.Ring head (new :: elements) ∧
      links.SameOutside links' (fun node => node ∈ head :: new :: elements) := by
  rcases (exists_cut head [] elements).2 with ⟨right, behind, begins⟩
  have ends : head :: [] = [] ++ [head] := rfl
  have joined := ((isChain_cut ends begins).mp ring.chain).2.1
  refine ⟨links.listAddBetween new head right, ?_, ring.listAddBetween fresh ends begins⟩
  rw [Links.listAdd, joined.1, Option.map_some]

theorem listAddTail (ring : links.Ring head elements) (fresh : new ∉ head :: elements) :
    ∃ links', links.listAddTail new head = some links' ∧ links'.Ring head (elements ++ [new]) ∧
      links.SameOutside links' (fun node => node ∈ head :: (elements ++ [new])) := by
  rcases (exists_cut head elements []).1 with ⟨before, left, ends⟩
  rw [← List.append_nil elements] at ring fresh
  have joined := ((isChain_cut ends rfl).mp ring.chain).2.1
  refine ⟨links.listAddBetween new left head, ?_, ring.listAddBetween fresh ends rfl⟩
  rw [Links.listAddTail, joined.2, Option.map_some]

theorem listDelInit {front back : List Node} {entry : Node}
    (ring : links.Ring head (front ++ entry :: back)) :
    ∃ links', links.listDelInit entry = some links' ∧ links'.Ring head (front ++ back) ∧
      links'.Alone entry ∧
      links.SameOutside links' (fun node => node ∈ head :: (front ++ entry :: back)) := by
  rcases ring.unlink with ⟨joined, unlinked, ring', same⟩
  have perm := perm_cut head entry front back
  have entryOutside := (List.nodup_cons.mp (perm.nodup_iff.mp ring.nodup)).1
  have initialised : joined.SameOutside (joined.initListHead entry) (fun node => node = entry) :=
    fun node ne => ⟨Function.update_of_ne ne _ _, Function.update_of_ne ne _ _⟩
  refine ⟨joined.initListHead entry, ?_, ?_, alone_initListHead _ _, fun node outside => ?_⟩
  · rw [Links.listDelInit, unlinked, Option.map_some]
  · apply ring'.congr initialised
    rintro node mem rfl
    exact entryOutside mem
  · rcases not_or.mp (List.mem_cons.not.mp (perm.mem_iff.not.mp outside)) with ⟨ne, notInRing⟩
    exact ⟨(initialised node ne).1.trans (same node notInRing).1,
      (initialised node ne).2.trans (same node notInRing).2⟩

end Ring

end Links

end ListHead
