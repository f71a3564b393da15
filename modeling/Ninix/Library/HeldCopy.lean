import Mathlib.Data.Set.Basic
import Mathlib.Logic.Function.Basic

/-!
# A copy of one entry of a store

A store maps keys to values. The value of one key, its tag, is held in a copy, which may be changed
and is then dirty until it has been written back. What the two stand for is the copy for the tag
and the store for all other keys. A write-back, done in full or given up on the way, and replacing
a clean copy by that of another key change nothing in what they stand for. The writes may reach
entries of the store beside a set of keys, which do not matter.
-/

namespace HeldCopy

universe u v

variable {Key : Type u} {Value : Type v} [DecidableEq Key]

/-- A store with a copy of one entry. -/
structure Held (Key : Type u) (Value : Type v) where
  store : Key → Value
  tag : Option Key
  copy : Value
  dirty : Bool

/-- What the store and the copy stand for. -/
def Held.content (held : Held Key Value) (key : Key) : Value :=
  if held.tag = some key then held.copy else held.store key

/-- A clean copy is the entry it is tagged with. -/
def Held.Sound (held : Held Key Value) : Prop :=
  held.dirty = false → ∀ key, held.tag = some key → held.store key = held.copy

/-- The copy is written back: no entry of the keys but that of the tag changes, and the copy is
clean afterwards only if it is the entry. -/
structure Flushed (keys : Set Key) (before after : Held Key Value) : Prop where
  tag : after.tag = before.tag
  copy : after.copy = before.copy
  others : ∀ key ∈ keys, before.tag ≠ some key → after.store key = before.store key
  sound : after.Sound

/-- The copy is replaced by the entry of a key. -/
structure Replaced (before after : Held Key Value) (key : Key) : Prop where
  store : after.store = before.store
  tag : after.tag = some key
  copy : after.copy = before.store key

variable {keys : Set Key} {before mid after : Held Key Value} {key : Key}

theorem Held.content_tag (isTag : before.tag = some key) : before.content key = before.copy :=
  if_pos isTag

theorem Held.Sound.content_eq (sound : before.Sound) (clean : before.dirty = false) (key : Key) :
    before.content key = before.store key := by
  unfold Held.content
  split
  · rename_i isTag
    exact (sound clean key isTag).symm
  · rfl

theorem Flushed.content (flushed : Flushed keys before after) (mem : key ∈ keys) :
    after.content key = before.content key := by
  unfold Held.content
  rw [flushed.tag, flushed.copy]
  split
  · rfl
  · rename_i other
    exact flushed.others key mem other

omit [DecidableEq Key] in
theorem Replaced.sound (replaced : Replaced before after key) : after.Sound := by
  intro _ other isTag
  rw [replaced.tag] at isTag
  cases isTag
  rw [replaced.store, replaced.copy]

/-- Nothing is lost where the copy that is replaced is clean. -/
theorem Replaced.content (replaced : Replaced before after key) (sound : before.Sound)
    (clean : before.dirty = false) (other : Key) : after.content other = before.content other := by
  rw [sound.content_eq clean]
  unfold Held.content
  rw [replaced.tag, replaced.store, replaced.copy]
  split
  · rename_i isKey
    rw [Option.some.inj isKey]
  · rfl

/-- A change of the copy is one of the content of its tag. -/
theorem Held.content_change (isTag : before.tag = some key) (value : Value) (dirty : Bool) :
    ({ before with copy := value, dirty } : Held Key Value).content =
      Function.update before.content key value := by
  funext other
  by_cases isKey : other = key
  · rw [isKey, Function.update_self]
    exact Held.content_tag isTag
  · have ne : ¬some key = some other := fun eq => isKey (Option.some.inj eq).symm
    rw [Function.update_of_ne isKey]
    unfold Held.content
    rw [isTag, if_neg ne, if_neg ne]

end HeldCopy
