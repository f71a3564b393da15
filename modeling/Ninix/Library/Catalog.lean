import Mathlib.Data.List.Basic
import Mathlib.Data.List.Nodup
import Mathlib.Logic.Function.Basic

/-!
# Lists of entries as maps

Entries that have different keys stand for a map from keys to values. An entry with a new key that
comes anywhere into the list is one more pair of the map, and one that goes is one less.
-/

namespace Catalog

variable {α κ ν : Type*}

/-- The value of the first entry with a key. -/
def valueAt [DecidableEq κ] (key : α → κ) (value : α → ν) (entries : List α) (k : κ) : Option ν :=
  (entries.find? fun e => key e = k).map value

/-- No two entries have the same key. -/
def Distinct (key : α → κ) (entries : List α) : Prop := (entries.map key).Nodup

variable {key : α → κ} {value : α → ν} {entries before after : List α} {e : α} {k : κ} {v : ν}

theorem distinct_middle : Distinct key (before ++ e :: after) ↔
    (∀ other ∈ before ++ after, key other ≠ key e) ∧ Distinct key (before ++ after) := by
  rw [Distinct, Distinct, List.map_append, List.map_cons, List.nodup_middle, List.nodup_cons,
    ← List.map_append]
  refine and_congr_left' ?_
  simp only [List.mem_map, not_exists, not_and]

variable [DecidableEq κ]

theorem valueAt_eq_none : valueAt key value entries k = none ↔ ∀ e ∈ entries, key e ≠ k := by
  rw [valueAt, Option.map_eq_none_iff, List.find?_eq_none]
  simp only [decide_eq_true_eq]

/-- The value of an entry that is the only one with its key. -/
theorem valueAt_middle (absent : ∀ other ∈ before, key other ≠ key e) (k : κ) :
    valueAt key value (before ++ e :: after) k =
      Function.update (valueAt key value (before ++ after)) (key e) (some (value e)) k := by
  by_cases isKey : k = key e
  · subst isKey
    have none : before.find? (fun other => key other = key e) = none :=
      List.find?_eq_none.mpr fun other mem => by simp [absent other mem]
    rw [Function.update_self, valueAt, List.find?_append, none, Option.none_or, List.find?_cons]
    simp
  · have other : ¬key e = k := fun eq => isKey eq.symm
    rw [Function.update_of_ne isKey, valueAt, valueAt, List.find?_append, List.find?_append,
      List.find?_cons]
    simp [other]

theorem valueAt_insert (absent : ∀ other ∈ before ++ after, key other ≠ key e) :
    valueAt key value (before ++ e :: after) =
      Function.update (valueAt key value (before ++ after)) (key e) (some (value e)) :=
  funext (valueAt_middle fun other mem => absent other (List.mem_append_left _ mem))

theorem valueAt_remove (distinct : Distinct key (before ++ e :: after)) :
    valueAt key value (before ++ after) =
      Function.update (valueAt key value (before ++ e :: after)) (key e) none := by
  rcases distinct_middle.mp distinct with ⟨absent, _⟩
  rw [valueAt_insert absent, Function.update_idem]
  exact (Function.update_eq_self_iff.mpr (valueAt_eq_none.mpr absent).symm).symm

/-- An entry is found under its key. -/
theorem valueAt_of_mem (distinct : Distinct key entries) (mem : e ∈ entries) :
    valueAt key value entries (key e) = some (value e) := by
  rcases List.append_of_mem mem with ⟨before, after, rfl⟩
  rw [valueAt_insert (distinct_middle.mp distinct).1, Function.update_self]

theorem valueAt_eq_some (distinct : Distinct key entries) :
    valueAt key value entries k = some v ↔ ∃ e ∈ entries, key e = k ∧ value e = v := by
  constructor
  · intro found
    rcases Option.map_eq_some_iff.mp found with ⟨e, isFirst, isValue⟩
    have isKey := List.find?_some isFirst
    exact ⟨e, List.mem_of_find?_eq_some isFirst, by simpa using isKey, isValue⟩
  · rintro ⟨e, mem, rfl, rfl⟩
    exact valueAt_of_mem distinct mem

end Catalog
