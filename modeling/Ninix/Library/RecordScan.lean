import Mathlib.Algebra.BigOperators.Group.List.Basic
import Mathlib.Algebra.GroupWithZero.Nat
import Mathlib.Data.List.Basic
import Mathlib.Data.Nat.Notation
import Ninix.Library.Tiling

/-!
# Scans by lengths that are not to be trusted

A buffer holds records, and each of them says how long it is. A scan looks at the record at a
position and copies pieces of the buffer; then it ends, or goes on behind the record. As nothing
is known of the lengths, a scan need not come to an end, and its pieces need not lie in the buffer.
-/

namespace RecordScan

open Tiling

/-- A piece of a buffer that is copied out of it. -/
structure Piece where
  offset : ℕ
  len : ℕ
  deriving DecidableEq

/-- The pieces lie in a buffer of a size. -/
def Within (size : ℕ) (pieces : List Piece) : Prop :=
  ∀ piece ∈ pieces, piece.offset + piece.len ≤ size

/-- The pieces a scan copies, and the value it goes on with or the result it ends with. -/
abbrev Copied (κ ρ : Type) := List Piece × (κ ⊕ ρ)

variable {κ ρ β : Type}

/-- A scan from a position on in a buffer of a size. Without fuel left it does not end. -/
def scan (size : ℕ) (len : ℕ → ℕ) (visit : ℕ → κ → Copied κ ρ) :
    ℕ → ℕ → κ → Option (Copied κ ρ)
  | 0, _, _ => none
  | fuel + 1, j, carried =>
      if j < size then
        match visit j carried with
        | (pieces, .inr result) => some (pieces, .inr result)
        | (pieces, .inl carried) =>
            (scan size len visit fuel (j + len j) carried).map fun rest =>
              (pieces ++ rest.1, rest.2)
      else some ([], .inl carried)

/-- Scans of numbered buffers, one behind the other, up to the first that is missing. -/
def scanAll (scan : ℕ → β → κ → Option (Copied κ ρ)) (missing : κ → ρ) :
    ℕ → List (Option β) → κ → Option (Copied κ ρ)
  | _, [], carried => some ([], .inl carried)
  | _, none :: _, carried => some ([], .inr (missing carried))
  | n, some buffer :: rest, carried =>
      match scan n buffer carried with
      | none => none
      | some (pieces, .inr result) => some (pieces, .inr result)
      | some (pieces, .inl carried) =>
          (scanAll scan missing (n + 1) rest carried).map fun later =>
            (pieces ++ later.1, later.2)

/-- A scan from one position on that nothing ends comes to another. -/
inductive Comes (size : ℕ) (len : ℕ → ℕ) : ℕ → ℕ → Prop
  | here {i : ℕ} (inside : i < size) : Comes size len i i
  | next {i j : ℕ} (inside : i < size) (later : Comes size len (i + len i) j) :
      Comes size len i j

/-- The buffers in front of the first that is missing. -/
def present : List (Option β) → List β
  | some buffer :: rest => buffer :: present rest
  | _ => []

section

variable {size fuel i j : ℕ} {len : ℕ → ℕ} {visit : ℕ → κ → Copied κ ρ} {carried : κ}
  {pieces : List Piece} {outcome : κ ⊕ ρ}

theorem Comes.inside (comes : Comes size len i j) : i < size := by
  cases comes <;> assumption

theorem within_append {first second : List Piece} :
    Within size (first ++ second) ↔ Within size first ∧ Within size second :=
  List.forall_mem_append

/-- A scan that moves on from each record and copies from inside the buffer only comes to an end. -/
theorem scan_within (sound : ∀ j, Comes size len i j →
      0 < len j ∧ ∀ carried, Within size (visit j carried).1) (enough : size - i < fuel) :
    ∃ pieces outcome, scan size len visit fuel i carried = some (pieces, outcome) ∧
      Within size pieces := by
  induction fuel generalizing i carried with
  | zero => omega
  | succ fuel ih =>
      unfold scan
      by_cases inside : i < size
      · simp only [inside, if_true]
        rcases sound i (.here inside) with ⟨positive, within⟩
        have copied := within carried
        rcases visited : visit i carried with ⟨pieces, carried' | result⟩
          <;> rw [visited] at copied
        · have later : ∀ j, Comes size len (i + len i) j →
              0 < len j ∧ ∀ carried, Within size (visit j carried).1 :=
            fun j comes => sound j (.next inside comes)
          rcases @ih (i + len i) carried' later (by omega) with ⟨rest, outcome, ran, withinRest⟩
          exact ⟨pieces ++ rest, outcome, by simp only [ran, Option.map_some],
            within_append.mpr ⟨copied, withinRest⟩⟩
        · exact ⟨pieces, .inr result, rfl, copied⟩
      · simp only [inside, if_false]
        exact ⟨[], .inl carried, rfl, fun _ mem => absurd mem List.not_mem_nil⟩

/-- Where a scan that no record ends has come to an end, it has moved on from each record it came
to, and has copied the pieces of each. -/
theorem comes_of_scan (goesOn : ∀ j carried, ∃ carried', (visit j carried).2 = .inl carried')
    (ran : scan size len visit fuel i carried = some (pieces, outcome))
    (comes : Comes size len i j) :
    0 < len j ∧ ∃ carried, (visit j carried).1 ⊆ pieces := by
  induction fuel generalizing i carried pieces with
  | zero => cases ran
  | succ fuel ih =>
      unfold scan at ran
      simp only [comes.inside, if_true] at ran
      rcases visited : visit i carried with ⟨copied, carried' | result⟩
      · rw [visited] at ran
        rcases Option.map_eq_some_iff.mp ran with ⟨⟨rest, outcome'⟩, later, same⟩
        cases same
        cases comes with
        | here inside =>
            constructor
            · by_contra notPositive
              have stays : j + len j = j := by omega
              rw [stays] at later
              exact notPositive (ih later (.here inside)).1
            · refine ⟨carried, ?_⟩
              rw [visited]
              exact List.subset_append_left _ _
        | next _ comes =>
            rcases ih later comes with ⟨positive, carried₁, subset⟩
            exact ⟨positive, carried₁, List.Subset.trans subset (List.subset_append_right _ _)⟩
      · rcases goesOn i carried with ⟨carried', onwards⟩
        rw [visited] at onwards
        cases onwards

/-- With more fuel than there are positions, a walk over records that all move on finds the same. -/
theorem walk_fuel (positive : ∀ j, Comes size len i j → 0 < len j) {more : ℕ}
    (enough : size - i ≤ fuel) (le : fuel ≤ more) :
    walk len size more i = walk len size fuel i := by
  induction fuel generalizing more i with
  | zero =>
      have outside : ¬i < size := by omega
      cases more with
      | zero => rfl
      | succ => simp only [walk, outside, if_false]
  | succ fuel ih =>
      obtain ⟨more, rfl⟩ : ∃ n, more = n + 1 := ⟨more - 1, by omega⟩
      by_cases inside : i < size
      · have moves := positive i (.here inside)
        simp only [walk, inside, if_true]
        rw [ih (fun j comes => positive j (.next inside comes)) (by omega) (by omega)]
      · simp only [walk, inside, if_false]

/-- A scan that no record ends goes on to the end of the buffer. -/
theorem scan_goesOn (goesOn : ∀ j carried, ∃ carried', (visit j carried).2 = .inl carried')
    (ran : scan size len visit fuel i carried = some (pieces, outcome)) :
    ∃ carried', outcome = .inl carried' := by
  induction fuel generalizing i carried pieces with
  | zero => cases ran
  | succ fuel ih =>
      unfold scan at ran
      split at ran
      · rcases goesOn i carried with ⟨carried₁, onwards⟩
        rcases visited : visit i carried with ⟨copied, carried' | result⟩
        · rw [visited] at ran
          rcases Option.map_eq_some_iff.mp ran with ⟨⟨rest, outcome'⟩, later, same⟩
          cases same
          exact ih later
        · rw [visited] at onwards
          cases onwards
      · cases ran
        exact ⟨carried, rfl⟩

/-- What a scan counts is no more than the records weigh, and as much if none of them ends it. -/
theorem scan_count (count : κ ⊕ ρ → ℕ) (weight : ℕ → ℕ)
    (grows : ∀ j carried, count (visit j carried).2 = count (.inl carried) + weight j)
    (ran : scan size len visit fuel i carried = some (pieces, outcome)) {more : ℕ}
    (le : fuel ≤ more) :
    count outcome ≤ count (.inl carried) + ((walk len size more i).map weight).sum ∧
      ∀ carried', outcome = .inl carried' →
        count outcome = count (.inl carried) + ((walk len size more i).map weight).sum := by
  induction fuel generalizing i carried pieces more with
  | zero => cases ran
  | succ fuel ih =>
      obtain ⟨more, rfl⟩ : ∃ n, more = n + 1 := ⟨more - 1, by omega⟩
      unfold scan at ran
      by_cases inside : i < size
      · simp only [inside, if_true] at ran
        have step := grows i carried
        simp only [walk, inside, if_true, List.map_cons, List.sum_cons]
        rcases visited : visit i carried with ⟨copied, carried' | result⟩
        · rw [visited] at ran step
          rcases Option.map_eq_some_iff.mp ran with ⟨⟨rest, outcome'⟩, later, same⟩
          cases same
          rcases ih later (Nat.le_of_succ_le_succ le) with ⟨atMost, equal⟩
          dsimp only at step
          refine ⟨by omega, fun carried₁ goesOn => ?_⟩
          have := equal carried₁ goesOn
          omega
        · rw [visited] at ran step
          cases ran
          dsimp only at step
          exact ⟨by omega, fun _ goesOn => by cases goesOn⟩
      · simp only [inside, if_false] at ran
        cases ran
        simp only [walk, inside, if_false]
        exact ⟨Nat.le_add_right _ _, fun _ _ => rfl⟩

end

/-! ## Records that tile the buffer -/

/-- What a scan of records in order comes to. -/
def visitAll (visit : ℕ → κ → Copied κ ρ) : List ℕ → κ → κ ⊕ ρ
  | [], carried => .inl carried
  | j :: rest, carried => (visit j carried).2.elim (visitAll visit rest) .inr

/-- A scan of records that tile the buffer visits them in order. -/
theorem scan_tiles {size fuel i : ℕ} {len : ℕ → ℕ} {positions : List ℕ}
    (tiles : Tiles len i positions size) (enough : size - i < fuel) (visit : ℕ → κ → Copied κ ρ)
    (carried : κ) :
    ∃ pieces, scan size len visit fuel i carried =
      some (pieces, visitAll visit positions carried) := by
  induction fuel generalizing i positions carried with
  | zero => omega
  | succ fuel ih =>
      unfold scan
      cases tiles with
      | nil => exact ⟨[], by simp only [Nat.lt_irrefl, if_false]; rfl⟩
      | @cons _ _ rest positive tiles =>
          have inside : i < size := by
            have := tiles.le
            omega
          simp only [inside, if_true]
          rcases visited : visit i carried with ⟨pieces, carried' | result⟩
          · rcases ih tiles (by omega) carried' with ⟨more, ran⟩
            exact ⟨pieces ++ more, by
              simp only [ran, Option.map_some, visitAll, visited, Sum.elim_inl]⟩
          · exact ⟨pieces, by simp only [visitAll, visited, Sum.elim_inr]⟩

/-! ## Several buffers -/

/-- What scans of numbered buffers come to. -/
def visitBuffers (outcome : ℕ → β → κ → κ ⊕ ρ) : ℕ → List β → κ → κ ⊕ ρ
  | _, [], carried => .inl carried
  | n, buffer :: rest, carried =>
      (outcome n buffer carried).elim (visitBuffers outcome (n + 1) rest) .inr

/-- Where each buffer is there, they are scanned in order. -/
theorem scanAll_visits {scan : ℕ → β → κ → Option (Copied κ ρ)} (missing : κ → ρ)
    {outcome : ℕ → β → κ → κ ⊕ ρ} {buffers : List β}
    (each : ∀ n, ∀ buffer ∈ buffers, ∀ carried, ∃ pieces,
      scan n buffer carried = some (pieces, outcome n buffer carried)) (n : ℕ) (carried : κ) :
    ∃ pieces, scanAll scan missing n (buffers.map some) carried =
      some (pieces, visitBuffers outcome n buffers carried) := by
  induction buffers generalizing n carried with
  | nil => exact ⟨[], rfl⟩
  | cons buffer rest ih =>
      rcases each n buffer List.mem_cons_self carried with ⟨pieces, ran⟩
      simp only [List.map_cons, scanAll, ran, visitBuffers]
      rcases outcome n buffer carried with carried' | result
      · rcases ih (fun n other mem => each n other (List.mem_cons_of_mem _ mem)) (n + 1)
          carried' with ⟨more, ranRest⟩
        exact ⟨pieces ++ more, by simp only [ranRest, Option.map_some, Sum.elim_inl]⟩
      · exact ⟨pieces, rfl⟩

section

variable {size n : ℕ} {scan : ℕ → β → κ → Option (Copied κ ρ)} {missing : κ → ρ}
  {buffers : List (Option β)} {carried : κ} {pieces : List Piece} {outcome : κ ⊕ ρ}

theorem scanAll_within (sound : ∀ n, ∀ buffer ∈ present buffers, ∀ carried, ∃ pieces outcome,
      scan n buffer carried = some (pieces, outcome) ∧ Within size pieces) :
    ∃ pieces outcome, scanAll scan missing n buffers carried = some (pieces, outcome) ∧
      Within size pieces := by
  induction buffers generalizing n carried with
  | nil => exact ⟨[], .inl carried, rfl, fun _ mem => absurd mem List.not_mem_nil⟩
  | cons first rest ih =>
      cases first with
      | none => exact ⟨[], .inr (missing carried), rfl, fun _ mem => absurd mem List.not_mem_nil⟩
      | some buffer =>
          rcases sound n buffer List.mem_cons_self carried with ⟨pieces, outcome, ran, within⟩
          cases outcome with
          | inr result => exact ⟨pieces, .inr result, by simp only [scanAll, ran], within⟩
          | inl carried' =>
              have soundLater := fun n other mem => sound n other (List.mem_cons_of_mem _ mem)
              rcases @ih (n + 1) carried' soundLater with ⟨later, outcome, ranLater, withinLater⟩
              refine ⟨pieces ++ later, outcome, ?_, within_append.mpr ⟨within, withinLater⟩⟩
              simp only [scanAll, ran, ranLater, Option.map_some]

/-- Where scans that nothing ends have come to an end, so has the scan of each buffer. -/
theorem present_of_scanAll
    (goesOn : ∀ n buffer carried pieces outcome, scan n buffer carried = some (pieces, outcome) →
      ∃ carried', outcome = .inl carried')
    (ran : scanAll scan missing n buffers carried = some (pieces, outcome)) {buffer : β}
    (mem : buffer ∈ present buffers) : ∃ n carried copied outcome,
      scan n buffer carried = some (copied, outcome) ∧ copied ⊆ pieces := by
  induction buffers generalizing n carried pieces with
  | nil => cases mem
  | cons first rest ih =>
      cases first with
      | none => cases mem
      | some other =>
          unfold scanAll at ran
          split at ran
          · cases ran
          · rename_i copied result ended
            rcases goesOn _ _ _ _ _ ended with ⟨_, onwards⟩
            cases onwards
          · rename_i copied carried' scanned
            rcases Option.map_eq_some_iff.mp ran with ⟨⟨later, outcome'⟩, ranLater, same⟩
            cases same
            rcases List.mem_cons.mp mem with rfl | mem
            · exact ⟨n, carried, copied, _, scanned, List.subset_append_left _ _⟩
            · rcases ih ranLater mem with ⟨n', carried₁, copied₁, outcome₁, scanned₁, subset⟩
              exact ⟨n', carried₁, copied₁, outcome₁, scanned₁,
                List.Subset.trans subset (List.subset_append_right _ _)⟩

/-- What scans count is no more than the buffers weigh, and as much if no record ends a scan. -/
theorem scanAll_count (count : κ ⊕ ρ → ℕ) (weight : β → ℕ)
    (isMissing : ∀ carried, count (.inr (missing carried)) = count (.inl carried))
    (grows : ∀ n, ∀ buffer ∈ present buffers, ∀ carried pieces outcome,
      scan n buffer carried = some (pieces, outcome) →
        count outcome ≤ count (.inl carried) + weight buffer ∧
        ∀ carried', outcome = .inl carried' →
          count outcome = count (.inl carried) + weight buffer)
    (ran : scanAll scan missing n buffers carried = some (pieces, outcome)) :
    count outcome ≤ count (.inl carried) + ((present buffers).map weight).sum ∧
      ((∀ n buffer carried pieces outcome, scan n buffer carried = some (pieces, outcome) →
        ∃ carried', outcome = .inl carried') →
        count outcome = count (.inl carried) + ((present buffers).map weight).sum) := by
  induction buffers generalizing n carried pieces with
  | nil =>
      cases ran
      exact ⟨Nat.le_add_right _ _, fun _ => rfl⟩
  | cons first rest ih =>
      cases first with
      | none =>
          cases ran
          exact ⟨(isMissing carried).le.trans (Nat.le_add_right _ _), fun _ => isMissing carried⟩
      | some buffer =>
          simp only [present, List.map_cons, List.sum_cons]
          unfold scanAll at ran
          split at ran
          · cases ran
          · rename_i copied result ended
            cases ran
            have here := (grows n buffer List.mem_cons_self carried _ _ ended).1
            refine ⟨by omega, fun goesOn => ?_⟩
            rcases goesOn _ _ _ _ _ ended with ⟨_, onwards⟩
            cases onwards
          · rename_i copied carried' scanned
            rcases Option.map_eq_some_iff.mp ran with ⟨⟨later, outcome'⟩, ranLater, same⟩
            cases same
            have here := (grows n buffer List.mem_cons_self carried _ _ scanned).2 carried' rfl
            rcases ih (fun n other mem => grows n other (List.mem_cons_of_mem _ mem)) ranLater with
              ⟨atMost, equal⟩
            refine ⟨by omega, fun goesOn => ?_⟩
            have := equal goesOn
            omega

end

end RecordScan
