import Ninix.Fat32.Chain
import Ninix.Memory.Kmalloc

/-!
# The cluster map of an open file

An open file keeps the clusters of its chain in the array `a_page`. `fat32_fill_mapping` builds
the array by following the table, and doubles it when it is full. `kmalloc` has no array of more
than 65536 bytes and does not say so, so that a map of more than 10240 clusters is written to
where the kernel itself begins.
-/

namespace Ninix.Fat32

open LinkedChain Memory

/-- The fields of an inode and its address space that say which clusters the file has: `a_page`
has `i_blocks` entries. -/
structure Inode where
  iIno : ℕ
  aPage : List ℕ

namespace Inode

def iBlocks (inode : Inode) : ℕ := inode.aPage.length

/-- The array in memory is the chain on the card. -/
def Agrees (vol : Volume) (inode : Inode) : Prop := IsChain vol inode.iIno inode.aPage

end Inode

/-- The words of an array for so many clusters, memory permitting. -/
def mapWords (count : ℕ) : ℕ := kmallocRoom (u32 (4 * count)) / 4

/--
The loop of `fat32_fill_mapping`, with fuel for its rounds, as long as there is memory. The array
has `words` words, which are fewer than `capacity` when `kmalloc` has no block of the size. No map
is a store outside of the array.
-/
def fillLoop (vol : Volume) (words capacity : ℕ) (table : List ℕ) (clstNo : ℕ) :
    ℕ → Option (Option (Volume × List ℕ))
  | 0 => none
  | fuel + 1 =>
      let grown := u32 (capacity * 2)
      let (words, capacity) :=
        if table.length = capacity then (mapWords grown, grown) else (words, capacity)
      if words ≤ table.length then some none
      else
        let table := table ++ [clstNo]
        let (clstNo, vol) := vol.readFat clstNo
        if clstNo = endOfChain then some (some (vol, table))
        else fillLoop vol words capacity table clstNo fuel

/-- `fat32_fill_mapping` for the inode with the given number. -/
def fillMapping (fuel : ℕ) (vol : Volume) (iIno : ℕ) : Option (Option (Volume × Inode)) :=
  (fillLoop vol (mapWords 10) 10 [] iIno fuel).map fun filled =>
    filled.map fun (vol, table) => (vol, { iIno, aPage := table.take (mapWords table.length) })

/-- The largest capacity for which there is an array. -/
def largestTable : ℕ := 10240

/-- The array has the size that its capacity says. -/
structure Sized (words capacity len : ℕ) : Prop where
  words : words = capacity
  doubled : ∃ k, capacity = 10 * 2 ^ k
  le : capacity ≤ largestTable
  fits : len ≤ capacity

section

variable {vol : Volume} {words capacity len count clstNo iIno fuel : ℕ} {table : List ℕ}

theorem mapWords_of_le (le : count ≤ 16384) : mapWords count = count := by
  have most : 4 * count ≤ kmallocMost := by
    unfold kmallocMost
    omega
  rw [mapWords, u32_of_lt (by omega), kmallocRoom_of_le most,
    Nat.mul_div_cancel_left _ (by decide)]

theorem mapWords_of_lt (lt : 16384 < count) (small : count < 1073741824) : mapWords count = 0 := by
  have above : kmallocMost < 4 * count := by
    unfold kmallocMost
    omega
  rw [mapWords, u32_of_lt (by omega), kmallocRoom_of_lt above]

/-- There is an array for every map that can be filled. -/
theorem mapWords_eq (le : count ≤ largestTable) : mapWords count = count := by
  unfold largestTable at le
  exact mapWords_of_le (by omega)

theorem le_mapWords (le : count ≤ largestTable) : count ≤ mapWords count := (mapWords_eq le).ge

theorem sized_start : Sized (mapWords 10) 10 ([] : List ℕ).length :=
  ⟨mapWords_of_le (by decide), ⟨0, rfl⟩, by decide, Nat.zero_le _⟩

theorem Sized.doubled_le (sized : Sized words capacity len) (full : len = capacity)
    (small : len < largestTable) : capacity * 2 ≤ largestTable := by
  rcases sized with ⟨_, ⟨k, eq⟩, le, fits⟩
  unfold largestTable at *
  have exponent : k < 10 := by
    by_contra large
    have pow : 2 ^ 10 ≤ 2 ^ k := Nat.pow_le_pow_right (by decide) (Nat.le_of_not_lt large)
    omega
  have pow : 2 ^ (k + 1) ≤ 2 ^ 10 := Nat.pow_le_pow_right (by decide) exponent
  have double : 2 ^ (k + 1) = 2 * 2 ^ k := Nat.pow_succ'
  omega

/-- There is room for one cluster more unless the map has the largest size. -/
theorem Sized.room (sized : Sized words capacity len) :
    ∃ words' capacity', (if len = capacity then (mapWords (u32 (capacity * 2)), u32 (capacity * 2))
        else (words, capacity)) = (words', capacity') ∧
      (len < largestTable → len < words' ∧ Sized words' capacity' (len + 1)) ∧
        (len = largestTable → words' ≤ len) := by
  have doubled := sized.doubled_le
  rcases sized with ⟨rfl, ⟨k, eq⟩, le, fits⟩
  have atMost := le
  unfold largestTable at atMost
  have small : u32 (words * 2) = words * 2 := u32_of_lt (by omega)
  split
  · rename_i full
    refine ⟨_, _, rfl, fun lt => ?_, fun isLargest => ?_⟩
    · have twice := doubled full lt
      have twice' := twice
      unfold largestTable at twice'
      have positive : 0 < 2 ^ k := Nat.two_pow_pos k
      rw [small, mapWords_of_le (by omega)]
      exact ⟨by omega, rfl, ⟨k + 1, by rw [Nat.pow_succ]; omega⟩, twice, by omega⟩
    · unfold largestTable at isLargest
      rw [small, mapWords_of_lt (by omega) (by omega)]
      exact Nat.zero_le _
  · refine ⟨_, _, rfl, fun lt => ⟨by omega, rfl, ⟨k, eq⟩, le, by omega⟩, fun isLargest => ?_⟩
    unfold largestTable at isLargest
    omega

/-- What the loop needs of the table: while an invariant of the volume holds, the words of certain
numbers are read as they are. -/
structure Reads (inv : Volume → Prop) (readable : ℕ → Prop) (value : ℕ → ℕ) : Prop where
  read : ∀ vol, inv vol → ∀ clst, readable clst →
    (vol.readFat clst).1 = value clst ∧ inv (vol.readFat clst).2

variable {inv : Volume → Prop} {readable : ℕ → Prop} {value : ℕ → ℕ}

/-- The loop goes through the words of the table up to the mark it knows, if the array does not
get too large on the way. -/
theorem fillLoop_spec (reads : Reads inv readable value) (holds : inv vol) {nodes : List ℕ}
    (follows : Follows value endOfChain clstNo nodes) (all : ∀ clst ∈ nodes, readable clst)
    (sized : Sized words capacity table.length)
    (small : table.length + nodes.length ≤ largestTable) (enough : nodes.length ≤ fuel) :
    ∃ vol', fillLoop vol words capacity table clstNo fuel = some (some (vol', table ++ nodes)) ∧
      inv vol' := by
  induction follows generalizing vol words capacity table fuel with
  | @last clst ends =>
      obtain ⟨fuel, rfl⟩ := Nat.exists_eq_add_of_le' enough
      rw [List.length_singleton] at small
      rcases sized.room with ⟨words', capacity', roomEq, room, _⟩
      have notFull : ¬words' ≤ table.length := Nat.not_le_of_gt (room (by omega)).1
      rcases reads.read vol holds clst (all clst List.mem_cons_self) with ⟨read, holds'⟩
      rw [ends] at read
      refine ⟨(vol.readFat clst).2, ?_, holds'⟩
      simp only [List.length_singleton, fillLoop, roomEq, if_neg notFull, read, if_true]
  | @link clst rest continues _ ih =>
      rw [List.length_cons] at small enough
      obtain ⟨fuel, rfl⟩ : ∃ n, fuel = n + 1 := ⟨fuel - 1, by omega⟩
      rcases sized.room with ⟨words', capacity', roomEq, room, _⟩
      rcases room (by omega) with ⟨lt, sized'⟩
      rcases reads.read vol holds clst (all clst List.mem_cons_self) with ⟨read, holds'⟩
      have lenEq : (table ++ [clst]).length = table.length + 1 := by simp
      rw [← lenEq] at sized'
      rcases ih holds' (fun other mem => all other (List.mem_cons_of_mem _ mem)) sized' (by omega)
        (Nat.le_of_succ_le_succ enough) with ⟨vol', filled, holdsEnd⟩
      refine ⟨vol', ?_, holdsEnd⟩
      simp only [fillLoop, roomEq, if_neg (Nat.not_le_of_gt lt), read, if_neg continues]
      rw [filled, List.append_assoc, List.singleton_append]

/-- What the loop ends with is what it went through. -/
theorem follows_of_fillLoop (reads : Reads inv (fun _ => True) value) (holds : inv vol)
    (sized : Sized words capacity table.length) {vol' : Volume} {table' : List ℕ}
    (filled : fillLoop vol words capacity table clstNo fuel = some (some (vol', table'))) :
    ∃ nodes, Follows value endOfChain clstNo nodes ∧ table' = table ++ nodes := by
  induction fuel generalizing vol words capacity table clstNo with
  | zero => simp [fillLoop] at filled
  | succ fuel ih =>
      rcases sized.room with ⟨words', capacity', roomEq, room, full⟩
      simp only [fillLoop, roomEq] at filled
      split at filled
      · simp at filled
      rename_i notFull
      have small : table.length < largestTable :=
        lt_of_le_of_ne (sized.fits.trans sized.le) fun isLargest => notFull (full isLargest)
      rcases reads.read vol holds clstNo trivial with ⟨read, holds'⟩
      rw [read] at filled
      split at filled
      · rename_i ends
        cases filled
        exact ⟨[clstNo], .last ends, rfl⟩
      · rename_i continues
        have sized' := (room small).2
        have lenEq : (table ++ [clstNo]).length = table.length + 1 := by simp
        rw [← lenEq] at sized'
        rcases ih holds' sized' filled with ⟨nodes, follows, eq⟩
        refine ⟨clstNo :: nodes, .link continues follows, ?_⟩
        rw [eq, List.append_assoc, List.singleton_append]

/-- The loop ends with no more clusters than the largest array has words. -/
theorem length_le_of_fillLoop (sized : Sized words capacity table.length) {vol' : Volume}
    {table' : List ℕ}
    (filled : fillLoop vol words capacity table clstNo fuel = some (some (vol', table'))) :
    table'.length ≤ largestTable := by
  induction fuel generalizing vol words capacity table clstNo with
  | zero => simp [fillLoop] at filled
  | succ fuel ih =>
      rcases sized.room with ⟨words', capacity', roomEq, room, full⟩
      simp only [fillLoop, roomEq] at filled
      split at filled
      · simp at filled
      rename_i notFull
      have small : table.length < largestTable :=
        lt_of_le_of_ne (sized.fits.trans sized.le) fun isLargest => notFull (full isLargest)
      have lenEq : (table ++ [clstNo]).length = table.length + 1 := by simp
      split at filled
      · cases filled
        rw [lenEq]
        exact small
      · have sized' := (room small).2
        rw [← lenEq] at sized'
        exact ih sized' filled

/-- A map that is filled is the whole array of the loop, and fits it. -/
theorem fillMapping_eq_some {vol' : Volume} {inode : Inode}
    (filled : fillMapping fuel vol iIno = some (some (vol', inode))) :
    inode.aPage.length ≤ largestTable ∧ inode.iIno = iIno ∧
      fillLoop vol (mapWords 10) 10 [] iIno fuel = some (some (vol', inode.aPage)) := by
  rcases Option.map_eq_some_iff.mp filled with ⟨result, ran, eq⟩
  rcases Option.map_eq_some_iff.mp eq with ⟨⟨end', table⟩, rfl, eq⟩
  cases eq
  have le := length_le_of_fillLoop sized_start ran
  simp only [mapWords_eq le, List.take_length]
  exact ⟨le, trivial, ran⟩

/-- Filling the map of words that lead to the mark. -/
theorem fillMapping_of_follows (reads : Reads inv readable value) (holds : inv vol)
    {nodes : List ℕ} (follows : Follows value endOfChain iIno nodes)
    (all : ∀ clst ∈ nodes, readable clst) (le : nodes.length ≤ largestTable)
    (enough : nodes.length ≤ fuel) :
    ∃ vol', fillMapping fuel vol iIno = some (some (vol', ⟨iIno, nodes⟩)) ∧ inv vol' := by
  have small : ([] : List ℕ).length + nodes.length ≤ largestTable := by simpa using le
  rcases fillLoop_spec reads holds follows all sized_start small enough with ⟨vol', ran, holds'⟩
  refine ⟨vol', ?_, holds'⟩
  rw [fillMapping, ran]
  simp only [Option.map_some, List.nil_append, mapWords_eq le, List.take_length]

/-- The clusters of a coherent volume are read as they are. -/
theorem reads_entry (start : Volume) :
    Reads (fun vol => start.SameTable vol ∧ vol.Coherent) start.esb.InFat start.entry where
  read vol := by
    rintro ⟨same, coherent⟩ clst inFat
    rw [← same.esb] at inFat
    rcases Volume.readFat_spec coherent inFat with ⟨read, sameRead, coherentRead⟩
    rw [same.entry] at read
    exact ⟨read, same.trans sameRead, coherentRead⟩

/-- Filling the map of a chain finds the chain, if an array can hold it. -/
theorem fillMapping_spec (coherent : vol.Coherent) {inode : Inode} (agrees : inode.Agrees vol)
    (le : inode.iBlocks ≤ largestTable) (enough : inode.iBlocks ≤ fuel) :
    ∃ vol', fillMapping fuel vol inode.iIno = some (some (vol', inode)) ∧ vol.SameTable vol' := by
  rcases fillMapping_of_follows (reads_entry vol) ⟨.refl vol, coherent⟩ agrees.follows
      (fun clst mem => (agrees.clusters clst mem).inFat coherent.layout) le enough with
    ⟨vol', filled, same, _⟩
  exact ⟨vol', filled, same⟩

end

end Ninix.Fat32
