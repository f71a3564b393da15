import Mathlib.Algebra.Group.Nat.Defs
import Mathlib.Data.Nat.Notation
import Mathlib.Logic.Basic

/-!
# File names

A name is a buffer and a length. Two names are compared without regard to the case of Latin
letters; the hash of the cache of directory entries does regard it.
-/

namespace Ninix.Vfs

/-- `struct qstr` -/
structure Qstr where
  name : ℕ → ℕ
  len : ℕ

namespace Qstr

/-- The bytes of a name. -/
def toList (s : Qstr) : List ℕ := (List.range s.len).map s.name

/-- The name with the given bytes. -/
def ofList (bytes : List ℕ) : Qstr := ⟨fun i => bytes.getD i 0, bytes.length⟩

end Qstr

/-- The types of a last component that a lookup asks for. -/
inductive LastType
  | norm
  | dir
  deriving DecidableEq

/-- A small letter as the capital one. -/
def upper (c : ℕ) : ℕ := if 97 ≤ c ∧ c ≤ 122 then c - 97 + 65 else c

/-- `generic_check_filename` returns 0. -/
def genericCheckFilename (dentryS filenameS : Qstr) : Bool :=
  dentryS.len = filenameS.len &&
    (List.range dentryS.len).all fun i => upper (dentryS.name i) = upper (filenameS.name i)

/-- `__stringHash` -/
def stringHash (s : Qstr) (hashsize : ℕ) : ℕ :=
  ((List.range (min s.len 24)).foldl (fun sum i => (sum * 2 + s.name i) % 2 ^ 32) 0) % hashsize

theorem genericCheckFilename_iff {first second : Qstr} :
    genericCheckFilename first second ↔ first.len = second.len ∧
      ∀ i < first.len, upper (first.name i) = upper (second.name i) := by
  simp [genericCheckFilename]

theorem genericCheckFilename_symm {first second : Qstr}
    (same : genericCheckFilename first second) : genericCheckFilename second first := by
  rw [genericCheckFilename_iff] at same ⊢
  rcases same with ⟨len, name⟩
  exact ⟨len.symm, fun i lt => (name i (len ▸ lt)).symm⟩

theorem genericCheckFilename_trans {first second third : Qstr}
    (left : genericCheckFilename first second) (right : genericCheckFilename second third) :
    genericCheckFilename first third := by
  rw [genericCheckFilename_iff] at left right ⊢
  exact ⟨left.1.trans right.1, fun i lt => (left.2 i lt).trans (right.2 i (left.1 ▸ lt))⟩

/-- Names that are the same compare alike with any other. -/
theorem genericCheckFilename_congr {first second : Qstr}
    (same : genericCheckFilename first second) (other : Qstr) :
    genericCheckFilename first other = genericCheckFilename second other := by
  rw [Bool.eq_iff_iff]
  exact ⟨genericCheckFilename_trans (genericCheckFilename_symm same),
    genericCheckFilename_trans same⟩

/-- A name compares with any other as its bytes do. -/
theorem genericCheckFilename_toList (first second : Qstr) :
    genericCheckFilename first (.ofList second.toList) = genericCheckFilename first second := by
  rw [Bool.eq_iff_iff, genericCheckFilename_iff, genericCheckFilename_iff]
  simp only [Qstr.ofList, Qstr.toList, List.length_map, List.length_range]
  refine and_congr_right fun sameLen => forall_congr' fun i => imp_congr_right fun lt => ?_
  rw [List.getD_eq_getElem?_getD]
  simp [sameLen ▸ lt]

end Ninix.Vfs
