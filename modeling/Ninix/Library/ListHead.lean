import Mathlib.Logic.Function.Basic
import Mathlib.Tactic.SplitIfs

/-!
# Intrusive doubly linked lists

A list is threaded through its elements by two pointers in each of them, and an element that is
on no list points to itself. The operations follow pointers, so they are undefined where one is
null or poisoned, which `none` stands for. As long as no pointer is, they are all defined.
-/

namespace ListHead

universe u

variable {Node : Type u} [DecidableEq Node]

/-- The two pointers of every element. -/
structure Links (Node : Type u) where
  prev : Node → Option Node
  next : Node → Option Node

namespace Links

/-- An element that is on no list. -/
def initListHead (links : Links Node) (list : Node) : Links Node where
  prev := Function.update links.prev list (some list)
  next := Function.update links.next list (some list)

/-- Put an element between two neighbours. -/
def listAddBetween (links : Links Node) (new prev next : Node) : Links Node where
  next := Function.update (Function.update links.next new (some next)) prev (some new)
  prev := Function.update (Function.update links.prev new (some prev)) next (some new)

/-- Put an element behind the head of a list. -/
def listAdd (links : Links Node) (new head : Node) : Option (Links Node) :=
  (links.next head).map fun next => links.listAddBetween new head next

/-- Put an element at the end of a list. -/
def listAddTail (links : Links Node) (new head : Node) : Option (Links Node) :=
  (links.prev head).map fun prev => links.listAddBetween new prev head

/-- Join the neighbours of an element. -/
def unlink (links : Links Node) (entry : Node) : Option (Links Node) := do
  let prev ← links.prev entry
  let next ← links.next entry
  some
    { next := Function.update links.next prev (some next)
      prev := Function.update links.prev next (some prev) }

/-- Take an element off its list and leave it on none. -/
def listDelInit (links : Links Node) (entry : Node) : Option (Links Node) :=
  (links.unlink entry).map fun links => links.initListHead entry

/-- Take an element off its list and poison its pointers. -/
def listDel (links : Links Node) (entry : Node) : Option (Links Node) :=
  (links.unlink entry).map fun links =>
    { next := Function.update links.next entry none
      prev := Function.update links.prev entry none }

/-- Take an element off its list and put it behind the head of another one or the same. -/
def listMove (links : Links Node) (entry head : Node) : Option (Links Node) :=
  (links.unlink entry).bind fun links => links.listAdd entry head

/-- Take an element off its list and put it at the end of another one or the same. -/
def listMoveTail (links : Links Node) (entry head : Node) : Option (Links Node) :=
  (links.unlink entry).bind fun links => links.listAddTail entry head

/-- A head that points to itself has no elements. -/
def listEmpty (links : Links Node) (head : Node) : Prop := links.next head = some head

instance (links : Links Node) (head : Node) : Decidable (links.listEmpty head) :=
  inferInstanceAs (Decidable (_ = _))

/-- The pointers of a group of elements lead to elements of the group. -/
def ClosedOn (links : Links Node) (group : Node → Prop) : Prop :=
  ∀ node, group node → (∃ prev, links.prev node = some prev ∧ group prev) ∧
    ∃ next, links.next node = some next ∧ group next

/-- Two links that differ within a group of elements only. -/
def SameOutside (links links' : Links Node) (group : Node → Prop) : Prop :=
  ∀ node, ¬group node → links'.prev node = links.prev node ∧ links'.next node = links.next node

namespace ClosedOn

variable {links : Links Node} {group : Node → Prop} (closed : links.ClosedOn group)
include closed

omit [DecidableEq Node] in
/-- A group stays closed when the pointers of its elements do not change. -/
theorem congr {links' : Links Node}
    (same : ∀ node, group node → links'.prev node = links.prev node ∧
      links'.next node = links.next node) : links'.ClosedOn group := by
  intro node inside
  rw [(same node inside).1, (same node inside).2]
  exact closed node inside

theorem initListHead {list : Node} (mem : group list) :
    (links.initListHead list).ClosedOn group ∧
      links.SameOutside (links.initListHead list) group := by
  constructor
  · intro node inside
    by_cases same : node = list
    · subst same
      simp [Links.initListHead, mem]
    · simpa [Links.initListHead, same] using closed node inside
  · intro node outside
    have ne : node ≠ list := fun eq => outside (eq ▸ mem)
    simp [Links.initListHead, ne]

/-- Adding an element of a group at the end of a list of the group stays within the group. -/
theorem listAddTail {new head : Node} (newMem : group new) (headMem : group head) :
    ∃ links', links.listAddTail new head = some links' ∧ links'.ClosedOn group ∧
      links.SameOutside links' group := by
  rcases (closed head headMem).1 with ⟨prev, isPrev, prevMem⟩
  refine ⟨links.listAddBetween new prev head, by simp [Links.listAddTail, isPrev], ?_, ?_⟩
  · intro node inside
    rcases closed node inside with ⟨⟨before, isBefore, beforeMem⟩, after, isAfter, afterMem⟩
    simp only [Links.listAddBetween, Function.update_apply]
    constructor <;> split_ifs
    · exact ⟨new, rfl, newMem⟩
    · exact ⟨prev, rfl, prevMem⟩
    · exact ⟨before, isBefore, beforeMem⟩
    · exact ⟨new, rfl, newMem⟩
    · exact ⟨head, rfl, headMem⟩
    · exact ⟨after, isAfter, afterMem⟩
  · intro node outside
    have neNew : node ≠ new := fun eq => outside (eq ▸ newMem)
    have neHead : node ≠ head := fun eq => outside (eq ▸ headMem)
    have nePrev : node ≠ prev := fun eq => outside (eq ▸ prevMem)
    simp [Links.listAddBetween, neNew, neHead, nePrev]

/-- Taking an element of a group off its list stays within the group. -/
theorem listDelInit {entry : Node} (mem : group entry) :
    ∃ links', links.listDelInit entry = some links' ∧ links'.ClosedOn group ∧
      links.SameOutside links' group := by
  rcases closed entry mem with ⟨⟨prev, isPrev, prevMem⟩, next, isNext, nextMem⟩
  let joined : Links Node :=
    { next := Function.update links.next prev (some next)
      prev := Function.update links.prev next (some prev) }
  have joinedClosed : joined.ClosedOn group := by
    intro node inside
    rcases closed node inside with ⟨⟨before, isBefore, beforeMem⟩, after, isAfter, afterMem⟩
    simp only [joined, Function.update_apply]
    constructor <;> split_ifs
    · exact ⟨prev, rfl, prevMem⟩
    · exact ⟨before, isBefore, beforeMem⟩
    · exact ⟨next, rfl, nextMem⟩
    · exact ⟨after, isAfter, afterMem⟩
  rcases joinedClosed.initListHead mem with ⟨closedEnd, sameEnd⟩
  refine ⟨joined.initListHead entry, ?_, closedEnd, fun node outside => ?_⟩
  · simp [Links.listDelInit, Links.unlink, isPrev, isNext, joined]
  · have nePrev : node ≠ prev := fun eq => outside (eq ▸ prevMem)
    have neNext : node ≠ next := fun eq => outside (eq ▸ nextMem)
    rw [(sameEnd node outside).1, (sameEnd node outside).2]
    simp [joined, nePrev, neNext]

end ClosedOn

/-! ## Lists with one element -/

/-- The elements that lie one behind the other from an element to the end of its list. -/
def Leads (links : Links Node) (stop : Node) : Node → List Node → Prop
  | node, [] => links.next node = some stop
  | node, next :: rest => links.next node = some next ∧ links.Leads stop next rest

/-- The elements of the list of a head. -/
def IsList (links : Links Node) (head : Node) (elements : List Node) : Prop :=
  links.Leads head head elements

/-- An element on no list, or the head of a list without elements. -/
structure Alone (links : Links Node) (node : Node) : Prop where
  prev : links.prev node = some node
  next : links.next node = some node

/-- The head of a list whose only element is the other one. -/
structure Pair (links : Links Node) (head node : Node) : Prop where
  headNext : links.next head = some node
  headPrev : links.prev head = some node
  nodeNext : links.next node = some head
  nodePrev : links.prev node = some head

section Short

variable {links links' : Links Node} {head node other : Node} {group : Node → Prop}

omit [DecidableEq Node] in
theorem Alone.isList (alone : links.Alone head) : links.IsList head [] := alone.next

omit [DecidableEq Node] in
theorem Pair.isList (pair : links.Pair head node) : links.IsList head [node] :=
  ⟨pair.headNext, pair.nodeNext⟩

omit [DecidableEq Node] in
theorem Alone.congr (alone : links.Alone node) (same : links.SameOutside links' group)
    (outside : ¬group node) : links'.Alone node :=
  ⟨(same node outside).1.trans alone.prev, (same node outside).2.trans alone.next⟩

omit [DecidableEq Node] in
theorem Pair.congr (pair : links.Pair head node) (same : links.SameOutside links' group)
    (headOutside : ¬group head) (nodeOutside : ¬group node) : links'.Pair head node :=
  ⟨(same head headOutside).2.trans pair.headNext, (same head headOutside).1.trans pair.headPrev,
    (same node nodeOutside).2.trans pair.nodeNext, (same node nodeOutside).1.trans pair.nodePrev⟩

omit [DecidableEq Node] in
theorem Pair.not_empty (pair : links.Pair head node) (ne : head ≠ node) :
    ¬links.listEmpty node := fun empty =>
  ne (Option.some.inj (pair.nodeNext.symm.trans empty))

theorem alone_initListHead (links : Links Node) (node : Node) :
    (links.initListHead node).Alone node :=
  ⟨Function.update_self _ _ _, Function.update_self _ _ _⟩

/-- An element put in an empty list is the only one there, wherever its pointers led. -/
theorem Alone.listAddTail (alone : links.Alone head) (ne : node ≠ head) :
    ∃ links', links.listAddTail node head = some links' ∧ links'.Pair head node ∧
      links.SameOutside links' (fun n => n = head ∨ n = node) := by
  refine ⟨links.listAddBetween node head head, ?_, ⟨?_, ?_, ?_, ?_⟩, fun n outside => ?_⟩
  · rw [Links.listAddTail, alone.prev, Option.map_some]
  · exact Function.update_self _ _ _
  · exact Function.update_self _ _ _
  · exact (Function.update_of_ne ne _ _).trans (Function.update_self _ _ _)
  · exact (Function.update_of_ne ne _ _).trans (Function.update_self _ _ _)
  · have neHead : n ≠ head := fun eq => outside (.inl eq)
    have neNode : n ≠ node := fun eq => outside (.inr eq)
    exact ⟨(Function.update_of_ne neHead _ _).trans (Function.update_of_ne neNode _ _),
      (Function.update_of_ne neHead _ _).trans (Function.update_of_ne neNode _ _)⟩

/-- The only element of a list taken off leaves it empty. -/
theorem Pair.listDelInit (pair : links.Pair head node) (ne : node ≠ head) :
    ∃ links', links.listDelInit node = some links' ∧ links'.Alone head ∧ links'.Alone node ∧
      links.SameOutside links' (fun n => n = head ∨ n = node) := by
  have unlinked : links.unlink node = some
      { next := Function.update links.next head (some head)
        prev := Function.update links.prev head (some head) } := by
    simp only [Links.unlink, pair.nodePrev, pair.nodeNext, Option.bind_eq_bind, Option.bind_some]
  refine ⟨_, by rw [Links.listDelInit, unlinked, Option.map_some], ⟨?_, ?_⟩,
    alone_initListHead _ _, fun n outside => ?_⟩
  · exact (Function.update_of_ne ne.symm _ _).trans (Function.update_self _ _ _)
  · exact (Function.update_of_ne ne.symm _ _).trans (Function.update_self _ _ _)
  · have neHead : n ≠ head := fun eq => outside (.inl eq)
    have neNode : n ≠ node := fun eq => outside (.inr eq)
    exact ⟨(Function.update_of_ne neNode _ _).trans (Function.update_of_ne neHead _ _),
      (Function.update_of_ne neNode _ _).trans (Function.update_of_ne neHead _ _)⟩

/-- Taking an element off that is on no list does nothing. -/
theorem Alone.listDelInit (alone : links.Alone node) :
    ∃ links', links.listDelInit node = some links' := by
  have unlinked : links.unlink node = some
      { next := Function.update links.next node (some node)
        prev := Function.update links.prev node (some node) } := by
    simp only [Links.unlink, alone.prev, alone.next, Option.bind_eq_bind, Option.bind_some]
  exact ⟨_, by rw [Links.listDelInit, unlinked, Option.map_some]⟩

omit [DecidableEq Node] in
/-- Two elements that lead to each other lead to no other one. -/
theorem Pair.not_leads (pair : links.Pair head node) {stop : Node} (neHead : stop ≠ head)
    (neNode : stop ≠ node) (elements : List Node) :
    ¬links.Leads stop head elements ∧ ¬links.Leads stop node elements := by
  induction elements with
  | nil =>
      exact ⟨fun leads => neNode (Option.some.inj (leads.symm.trans pair.headNext)),
        fun leads => neHead (Option.some.inj (leads.symm.trans pair.nodeNext))⟩
  | cons first rest ih =>
      constructor
      · rintro ⟨isNext, leads⟩
        cases isNext.symm.trans pair.headNext
        exact ih.2 leads
      · rintro ⟨isNext, leads⟩
        cases isNext.symm.trans pair.nodeNext
        exact ih.1 leads

/-- An element that is on one list and put in another, empty one leads from the first list into
the second. -/
theorem Pair.listAddTail_other (pair : links.Pair head node) (alone : links.Alone other)
    (ne : node ≠ other) (neHead : head ≠ other) (neNode : head ≠ node) :
    ∃ links', links.listAddTail node other = some links' ∧
      ∀ elements, ¬links'.IsList head elements := by
  rcases alone.listAddTail ne with ⟨links', added, pair', same⟩
  refine ⟨links', added, fun elements isList => ?_⟩
  have outside : ¬(head = other ∨ head = node) := fun mem => mem.elim neHead neNode
  have isFirst : links'.next head = some node := (same head outside).2.trans pair.headNext
  cases elements with
  | nil => exact neNode (Option.some.inj (isList.symm.trans isFirst))
  | cons first rest =>
      rcases isList with ⟨isNext, leads⟩
      cases isNext.symm.trans isFirst
      exact (pair'.not_leads neHead neNode rest).2 leads

end Short

end Links

end ListHead
