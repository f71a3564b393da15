import Mathlib.Data.List.Basic
import Ninix.Library.ListRing

/-!
# The lists of the kernel

The queues, caches and free lists of the kernel are rings in one heap of list heads. A heap with
any number of them stands for a sequence for each head. An operation on the pointers changes the
sequences of the heads it is about and those of no other one, whether these have elements or not,
and whether an element is moved to another list or within its own.
-/

namespace Ninix.ListHeads

open ListHead

universe u

variable {Node : Type u}

/-- The heads are those of rings that have no node in common. -/
structure Represents (links : Links Node) (heads : Node → Prop)
    (elements : Node → List Node) : Prop where
  ring : ∀ head, heads head → links.Ring head (elements head)
  apart : ∀ head, heads head → ∀ other, heads other → head ≠ other →
    ∀ node ∈ head :: elements head, node ∉ other :: elements other

/-- A node that is neither a head nor an element. -/
def Fresh (heads : Node → Prop) (elements : Node → List Node) (new : Node) : Prop :=
  ∀ head, heads head → new ∉ head :: elements head

variable [DecidableEq Node]

/-- A call of one of the operations that change pointers. -/
inductive Operation (Node : Type u) where
  | listAdd (new head : Node)
  | listAddTail (new head : Node)
  | listDelInit (entry : Node)
  | listMove (entry head : Node)
  | listMoveTail (entry head : Node)

namespace Operation

/-- What a call does to the pointers. -/
def apply (links : Links Node) : Operation Node → Option (Links Node)
  | .listAdd new head => links.listAdd new head
  | .listAddTail new head => links.listAddTail new head
  | .listDelInit entry => links.listDelInit entry
  | .listMove entry head => links.listMove entry head
  | .listMoveTail entry head => links.listMoveTail entry head

end Operation

/-- The sequence of one head with an element in front. -/
def pushFront (elements : Node → List Node) (head new : Node) : Node → List Node :=
  Function.update elements head (new :: elements head)

/-- The sequence of one head with an element at the end. -/
def pushBack (elements : Node → List Node) (head new : Node) : Node → List Node :=
  Function.update elements head (elements head ++ [new])

/-- The sequence of one head without an element. -/
def remove (elements : Node → List Node) (head entry : Node) : Node → List Node :=
  Function.update elements head ((elements head).erase entry)

/-- What a call does to the sequences, where it is one the kernel may make. -/
inductive Changes (heads : Node → Prop) (elements : Node → List Node) :
    Operation Node → (Node → List Node) → Prop where
  | listAdd {new head : Node} (isHead : heads head) (fresh : Fresh heads elements new) :
      Changes heads elements (.listAdd new head) (pushFront elements head new)
  | listAddTail {new head : Node} (isHead : heads head) (fresh : Fresh heads elements new) :
      Changes heads elements (.listAddTail new head) (pushBack elements head new)
  | listDelInit {entry source : Node} (isSource : heads source)
      (member : entry ∈ elements source) :
      Changes heads elements (.listDelInit entry) (remove elements source entry)
  | listMove {entry source head : Node} (isSource : heads source)
      (member : entry ∈ elements source) (isHead : heads head) :
      Changes heads elements (.listMove entry head)
        (pushFront (remove elements source entry) head entry)
  | listMoveTail {entry source head : Node} (isSource : heads source)
      (member : entry ∈ elements source) (isHead : heads head) :
      Changes heads elements (.listMoveTail entry head)
        (pushBack (remove elements source entry) head entry)

namespace Represents

variable {links links' : Links Node} {heads : Node → Prop} {elements : Node → List Node}
  {head source new entry : Node} {sequence : List Node}

omit [DecidableEq Node] in
theorem listEmpty_iff (represents : Represents links heads elements) (isHead : heads head) :
    links.listEmpty head ↔ elements head = [] :=
  (represents.ring head isHead).listEmpty_iff

/-- One ring becomes another one while the pointers of all others stay. -/
theorem update {group : Node → Prop} (represents : Represents links heads elements)
    (ring : links'.Ring head sequence) (same : links.SameOutside links' group)
    (covers : ∀ node ∈ head :: sequence, group node)
    (within : ∀ node, group node → ∀ other, heads other → other ≠ head →
      node ∉ other :: elements other) :
    Represents links' heads (Function.update elements head sequence) := by
  constructor
  · intro other isHead
    by_cases here : other = head
    · subst here
      rwa [Function.update_self]
    · rw [Function.update_of_ne here]
      exact (represents.ring other isHead).congr same fun node mem inGroup =>
        within node inGroup other isHead here mem
  · intro first isFirst second isSecond ne node memFirst memSecond
    by_cases atFirst : first = head
    · subst atFirst
      rw [Function.update_self] at memFirst
      rw [Function.update_of_ne ne.symm] at memSecond
      exact within node (covers node memFirst) second isSecond ne.symm memSecond
    · rw [Function.update_of_ne atFirst] at memFirst
      by_cases atSecond : second = head
      · subst atSecond
        rw [Function.update_self] at memSecond
        exact within node (covers node memSecond) first isFirst ne memFirst
      · rw [Function.update_of_ne atSecond] at memSecond
        exact represents.apart first isFirst second isSecond ne node memFirst memSecond

omit [DecidableEq Node] in
/-- Neither a new node nor one of a ring is in another ring. -/
theorem notMem_other (represents : Represents links heads elements) (isHead : heads head)
    (fresh : Fresh heads elements new) {node : Node}
    (mem : node = new ∨ node ∈ head :: elements head) {other : Node} (isOther : heads other)
    (ne : other ≠ head) : node ∉ other :: elements other := by
  rcases mem with rfl | inRing
  · exact fresh other isOther
  · exact represents.apart head isHead other isOther ne.symm node inRing

theorem listAdd (represents : Represents links heads elements) (isHead : heads head)
    (fresh : Fresh heads elements new) :
    ∃ links', links.listAdd new head = some links' ∧
      Represents links' heads (pushFront elements head new) := by
  rcases (represents.ring head isHead).listAdd (fresh head isHead) with
    ⟨links', added, ring, same⟩
  refine ⟨links', added, represents.update ring same (fun _ mem => mem) ?_⟩
  intro node mem other isOther ne
  refine represents.notMem_other isHead fresh ?_ isOther ne
  simpa [or_left_comm] using mem

theorem listAddTail (represents : Represents links heads elements) (isHead : heads head)
    (fresh : Fresh heads elements new) :
    ∃ links', links.listAddTail new head = some links' ∧
      Represents links' heads (pushBack elements head new) := by
  rcases (represents.ring head isHead).listAddTail (fresh head isHead) with
    ⟨links', added, ring, same⟩
  refine ⟨links', added, represents.update ring same (fun _ mem => mem) ?_⟩
  intro node mem other isOther ne
  refine represents.notMem_other isHead fresh ?_ isOther ne
  simpa [or_comm, or_left_comm] using mem

/-- The parts of a sequence around an element, which is what its removal leaves. -/
theorem split (represents : Represents links heads elements) (isSource : heads source)
    (member : entry ∈ elements source) : ∃ front back,
      links.Ring source (front ++ entry :: back) ∧ elements source = front ++ entry :: back ∧
        remove elements source entry = Function.update elements source (front ++ back) := by
  rcases List.append_of_mem member with ⟨front, back, parts⟩
  have ring := represents.ring source isSource
  have nodup := (List.nodup_cons.mp ring.nodup).2
  rw [parts] at nodup
  have notInFront : entry ∉ front := fun mem =>
    (List.nodup_append.mp nodup).2.2 entry mem entry List.mem_cons_self rfl
  refine ⟨front, back, parts ▸ ring, parts, ?_⟩
  rw [remove, parts, List.erase_append_right _ notInFront, List.erase_cons_head]

theorem listDelInit (represents : Represents links heads elements) (isSource : heads source)
    (member : entry ∈ elements source) :
    ∃ links', links.listDelInit entry = some links' ∧
      Represents links' heads (remove elements source entry) := by
  rcases represents.split isSource member with ⟨front, back, ring, parts, removed⟩
  rcases ring.listDelInit with ⟨links', deleted, ring', _, same⟩
  refine ⟨links', deleted, ?_⟩
  rw [removed]
  refine represents.update ring' same (fun node mem => ?_) fun node mem other isOther ne => ?_
  · exact (Links.Ring.perm_cut source entry front back).mem_iff.mpr (List.mem_cons_of_mem _ mem)
  · exact represents.apart source isSource other isOther ne.symm node (parts ▸ mem)

/-- A node that is unlinked is in no ring any more. -/
theorem unlink (represents : Represents links heads elements) (isSource : heads source)
    (member : entry ∈ elements source) :
    ∃ links', links.unlink entry = some links' ∧
      Represents links' heads (remove elements source entry) ∧
      Fresh heads (remove elements source entry) entry := by
  rcases represents.split isSource member with ⟨front, back, ring, parts, removed⟩
  have perm := Links.Ring.perm_cut source entry front back
  rcases ring.unlink with ⟨links', unlinked, ring', same⟩
  refine ⟨links', unlinked, ?_, ?_⟩
  · rw [removed]
    refine represents.update ring' same (fun _ mem => mem) fun node mem other isOther ne => ?_
    exact represents.apart source isSource other isOther ne.symm node
      (parts ▸ perm.mem_iff.mpr (List.mem_cons_of_mem _ mem))
  · intro other isOther
    rw [removed]
    by_cases here : other = source
    · subst here
      rw [Function.update_self]
      exact (List.nodup_cons.mp (perm.nodup_iff.mp ring.nodup)).1
    · rw [Function.update_of_ne here]
      exact represents.apart source isSource other isOther (Ne.symm here) entry
        (List.mem_cons_of_mem _ member)

/-- A call changes the pointers as it changes the sequences. -/
theorem step {operation : Operation Node} {elements' : Node → List Node}
    (represents : Represents links heads elements)
    (changes : Changes heads elements operation elements') :
    ∃ links', operation.apply links = some links' ∧ Represents links' heads elements' := by
  cases changes with
  | listAdd isHead fresh => exact represents.listAdd isHead fresh
  | listAddTail isHead fresh => exact represents.listAddTail isHead fresh
  | listDelInit isSource member => exact represents.listDelInit isSource member
  | listMove isSource member isHead =>
      rcases represents.unlink isSource member with ⟨joined, unlinked, represents', fresh⟩
      rcases represents'.listAdd isHead fresh with ⟨links', added, represents''⟩
      refine ⟨links', ?_, represents''⟩
      rw [Operation.apply, Links.listMove, unlinked, Option.bind_some, added]
  | listMoveTail isSource member isHead =>
      rcases represents.unlink isSource member with ⟨joined, unlinked, represents', fresh⟩
      rcases represents'.listAddTail isHead fresh with ⟨links', added, represents''⟩
      refine ⟨links', ?_, represents''⟩
      rw [Operation.apply, Links.listMoveTail, unlinked, Option.bind_some, added]

end Represents

/-- A run of calls and what each of them does to the sequences. -/
inductive Run (heads : Node → Prop) :
    (Node → List Node) → List (Operation Node) → (Node → List Node) → Prop where
  | nil (elements : Node → List Node) : Run heads elements [] elements
  | cons {elements elements' elements'' : Node → List Node} {operation : Operation Node}
      {operations : List (Operation Node)} (changes : Changes heads elements operation elements')
      (rest : Run heads elements' operations elements'') :
      Run heads elements (operation :: operations) elements''

/-- The pointers follow the sequences through a whole run. -/
theorem Represents.run {links : Links Node} {heads : Node → Prop}
    {elements elements' : Node → List Node} {operations : List (Operation Node)}
    (represents : Represents links heads elements)
    (run : Run heads elements operations elements') :
    ∃ links', operations.foldlM Operation.apply links = some links' ∧
      Represents links' heads elements' := by
  induction run generalizing links with
  | nil elements => exact ⟨links, rfl, represents⟩
  | cons changes rest ih =>
      rcases represents.step changes with ⟨links', applied, represents'⟩
      rcases ih represents' with ⟨links'', run, represents''⟩
      refine ⟨links'', ?_, represents''⟩
      rw [List.foldlM_cons, applied]
      exact run

/-- In every heap of disjoint rings, the operations change the sequences as insertion, removal and
removal followed by insertion do, and a head is empty when its sequence is. -/
theorem operations_refine_sequences {links : Links Node} {heads : Node → Prop}
    {elements : Node → List Node} (represents : Represents links heads elements) :
    (∀ head, heads head → (links.listEmpty head ↔ elements head = [])) ∧
      ∀ operation elements', Changes heads elements operation elements' →
        ∃ links', operation.apply links = some links' ∧ Represents links' heads elements' ∧
          ∀ head, heads head → (links'.listEmpty head ↔ elements' head = []) := by
  refine ⟨fun head isHead => represents.listEmpty_iff isHead, ?_⟩
  intro operation elements' changes
  rcases represents.step changes with ⟨links', applied, represents'⟩
  exact ⟨links', applied, represents', fun head isHead => represents'.listEmpty_iff isHead⟩

/-- A heap with two heads, of which the first one has two elements. -/
def twoHeads : Links ℕ where
  next node := some (if node = 0 then 2 else if node = 2 then 3 else if node = 3 then 0 else node)
  prev node := some (if node = 0 then 3 else if node = 2 then 0 else if node = 3 then 2 else node)

theorem represents_twoHeads : Represents twoHeads (fun node => node = 0 ∨ node = 1)
    (fun node => if node = 0 then [2, 3] else []) := by
  constructor
  · rintro head (rfl | rfl)
    · refine ⟨?_, by decide⟩
      simp [Links.Joined, twoHeads]
    · refine ⟨?_, by decide⟩
      simp [Links.Joined, twoHeads]
  · rintro head (rfl | rfl) other (rfl | rfl) ne <;> simp_all

theorem operations_refine_sequences_twoHeads :
    (twoHeads.listEmpty 0 ↔ [2, 3] = []) ∧
      ∃ links', (Operation.listMoveTail 2 0).apply twoHeads = some links' ∧
        links'.Ring 0 [3, 2] ∧ links'.Ring 1 [] := by
  have refines := operations_refine_sequences represents_twoHeads
  have isHead : (fun node : ℕ => node = 0 ∨ node = 1) 0 := .inl rfl
  have member : 2 ∈ (fun node : ℕ => if node = 0 then [2, 3] else []) 0 := by decide
  refine ⟨refines.1 0 isHead, ?_⟩
  rcases refines.2 _ _ (.listMoveTail isHead member isHead) with ⟨links', applied, represents, _⟩
  exact ⟨links', applied, represents.ring 0 isHead, represents.ring 1 (.inr rfl)⟩

end Ninix.ListHeads
