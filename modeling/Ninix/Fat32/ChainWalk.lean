import Ninix.Fat32.Growth

/-!
# Following any table

`fat32_fill_mapping` takes an entry of the table for the number of the next cluster as it stands,
with the four bits that belong to no number, and knows one of the eight marks that end a chain.
Here it is followed through every table, also to numbers that are no clusters of the volume.
-/

namespace Ninix.Fat32

open ByteBuffer LinkedChain

namespace Volume

/-- The word of the card that `read_fat` takes for the entry of any number. -/
def word (vol : Volume) (clst : ℕ) : ℕ :=
  read32 (vol.disk.sector (u32 (vol.esb.fatBaseSect 0 + u32 (clst * 4) / sectorBytes)))
    (4 * (u32 (clst * 4) % sectorBytes / 4))

/-- The loaded sector is one of the card, wherever it lies, and all transfers succeed. -/
structure Readable (vol : Volume) : Prop where
  clean : vol.table.dirty = false
  loaded : ∀ k < sectorBytes,
    vol.table.data k = vol.disk.sector (u32 (vol.esb.fatBaseSect 0 + vol.table.fatSectOff)) k
  reliable : vol.disk.Reliable

variable {vol vol' : Volume} {clst : ℕ}

theorem Coherent.readable (coherent : vol.Coherent) (reliable : vol.disk.Reliable) :
    vol.Readable := by
  have location := fatSector_copy coherent.layout 0 coherent.layout.fats coherent.offset
  have base := fatBaseSect_eq coherent.layout coherent.layout.fats
    (Nat.zero_lt_of_lt coherent.offset)
  have same : u32 (vol.esb.fatBaseSect 0 + vol.table.fatSectOff) =
      vol.esb.fatBaseSect 0 + vol.table.fatSectOff := by
    rw [location.1, base]
  refine ⟨coherent.clean, fun k inside => ?_, reliable⟩
  rw [same]
  exact coherent.loaded k inside

/-- The word of a cluster in the table is its entry. -/
theorem Coherent.word_eq (coherent : vol.Coherent) (inFat : vol.esb.InFat clst) :
    vol.word clst = vol.entry clst := by
  rcases cluster_location coherent.layout inFat with ⟨sectOff, entrOff, offset⟩
  have location := fatSector_copy coherent.layout 0 coherent.layout.fats offset
  have base := fatBaseSect_eq coherent.layout coherent.layout.fats (Nat.zero_lt_of_lt offset)
  unfold word entry
  rw [sectOff, entrOff, location.1, base]

theorem SameTable.word (same : SameTable vol vol') (clst : ℕ) : vol'.word clst = vol.word clst := by
  simp only [Volume.word, same.esb, same.sector]

/-- `read_fat` of any number returns the word and changes nothing on the card. -/
theorem Readable.readFat (readable : vol.Readable) (clst : ℕ) :
    (vol.readFat clst).1 = vol.word clst ∧ SameTable vol (vol.readFat clst).2 ∧
      (vol.readFat clst).2.Readable := by
  have inside : ∀ i, 4 * (u32 (clst * 4) % sectorBytes / 4) ≤ i →
      i < 4 * (u32 (clst * 4) % sectorBytes / 4) + 4 → i < sectorBytes := fun i _ upper => by
    unfold sectorBytes at upper ⊢
    omega
  unfold Volume.readFat Volume.word loadSector
  simp only
  split
  · simp only [readable.clean, Bool.false_eq_true, if_false,
      Disk.readBlock_one (readable.reliable.on fun _ => True) trivial]
    refine ⟨readLE_congr fun i lower upper => ?_, ⟨rfl, rfl, rfl, rfl⟩, rfl, fun k lt => ?_,
      readable.reliable⟩
    · rw [blit_inside (Nat.zero_le i) (by rw [Nat.zero_add]; exact inside i lower upper),
        Nat.zero_add, Nat.sub_zero]
    · refine (blit_inside (Nat.zero_le k) (by rwa [Nat.zero_add])).trans ?_
      rw [Nat.zero_add, Nat.sub_zero]
  · rename_i isLoaded
    rw [ne_eq, not_not] at isLoaded
    refine ⟨readLE_congr fun i lower upper => ?_, .refl vol, readable⟩
    rw [readable.loaded i (inside i lower upper), isLoaded]

end Volume

/-- All words of a card can be read. -/
theorem reads_word (start : Volume) :
    Reads (fun vol => start.SameTable vol ∧ vol.Readable) (fun _ => True) start.word where
  read vol := by
    rintro ⟨same, readable⟩ clst _
    rcases readable.readFat clst with ⟨read, sameRead, readable'⟩
    rw [same.word] at read
    exact ⟨read, same.trans sameRead, readable'⟩


/-! ## Tables that are followed to the end -/

/-- The data clusters that the low 28 bits of the entries thread from a first one, up to any mark
of an end. -/
inductive LowChain (vol : Volume) : ℕ → List ℕ → Prop
  | last {clst : ℕ} (isCluster : vol.esb.IsCluster clst)
      (isEnd : 0x0ffffff8 ≤ vol.entry clst % 0x10000000) : LowChain vol clst [clst]
  | link {clst : ℕ} {rest : List ℕ} (isCluster : vol.esb.IsCluster clst)
      (follows : LowChain vol (vol.entry clst % 0x10000000) rest) :
      LowChain vol clst (clst :: rest)

/-- What is expected of filling the map from a cluster: it ends with a map, and the map of a file is
its chain. -/
structure FillsMap (vol : Volume) (iIno : ℕ) : Prop where
  terminates : ∃ fuel vol' inode, fillMapping fuel vol iIno = some (some (vol', inode))
  mapsChain : ∀ clsts, clsts.Nodup → LowChain vol iIno clsts → ∀ fuel vol' inode,
    fillMapping fuel vol iIno = some (some (vol', inode)) →
      inode.aPage = clsts ∧ inode.iBlocks = clsts.length

/-- The words from a cluster on lead to the mark that the loop knows while there is an array for
them, and on the chain of a file no entry has one of the upper four bits or another mark. -/
structure EndsPlainly (vol : Volume) (iIno : ℕ) : Prop where
  reaches : ∃ nodes, Follows vol.word endOfChain iIno nodes ∧ nodes.length ≤ largestTable
  plain : ∀ clsts, LowChain vol iIno clsts → ∀ clst ∈ clsts,
    vol.entry clst < 0x0ffffff8 ∨ vol.entry clst = endOfChain

section

variable {vol : Volume} {clst iIno fuel : ℕ} {clsts : List ℕ} {inode : Inode}

/-- A map that is filled is what the loop goes through. -/
theorem follows_of_fillMapping (readable : vol.Readable) {vol' : Volume}
    (filled : fillMapping fuel vol iIno = some (some (vol', inode))) :
    Follows vol.word endOfChain iIno inode.aPage ∧ inode.aPage.length ≤ largestTable := by
  rcases fillMapping_eq_some filled with ⟨le, _, ran⟩
  rcases follows_of_fillLoop (reads_word vol) ⟨.refl vol, readable⟩ sized_start ran with
    ⟨nodes, follows, eq⟩
  rw [List.nil_append] at eq
  exact ⟨eq ▸ follows, le⟩

theorem LowChain.clusters (chain : LowChain vol clst clsts) :
    ∀ other ∈ clsts, vol.esb.IsCluster other := by
  induction chain with
  | last isCluster _ =>
      intro other mem
      exact List.mem_singleton.mp mem ▸ isCluster
  | link isCluster _ ih => exact List.forall_mem_cons.mpr ⟨isCluster, ih⟩

theorem LowChain.head_eq (chain : LowChain vol clst clsts) : ∃ tail, clsts = clst :: tail := by
  cases chain with
  | last _ _ => exact ⟨[], rfl⟩
  | link _ _ => exact ⟨_, rfl⟩

theorem LowChain.head_mem (chain : LowChain vol clst clsts) : clst ∈ clsts := by
  rcases chain.head_eq with ⟨tail, rfl⟩
  exact List.mem_cons_self

/-- The number of a cluster is below all marks. -/
theorem cluster_lt (coherent : vol.Coherent) (isCluster : vol.esb.IsCluster clst) :
    clst < 0x0ffffff8 := by
  have inFat := isCluster.inFat coherent.layout
  have entries := coherent.layout.entries
  unfold ExtSb.InFat at inFat
  omega

/-- The chain of a file has no cluster twice. -/
theorem LowChain.nodup (coherent : vol.Coherent) (chain : LowChain vol clst clsts) :
    clsts.Nodup := by
  let next (clst : ℕ) : ℕ := if 0x0ffffff8 ≤ vol.entry clst % 0x10000000 then endOfChain
    else vol.entry clst % 0x10000000
  have follows : Follows next endOfChain clst clsts := by
    induction chain with
    | last _ isEnd => exact .last (if_pos isEnd)
    | @link clst rest _ chain ih =>
        have below := cluster_lt coherent (chain.clusters _ chain.head_mem)
        have isNext : next clst = vol.entry clst % 0x10000000 := if_neg (by omega)
        refine .link ?_ ?_
        · rw [isNext]
          unfold endOfChain
          omega
        · rw [isNext]
          exact ih
  exact follows.nodup

/-- On a chain that is followed to its end all entries are plain. -/
theorem LowChain.plain_of_follows (coherent : vol.Coherent) (chain : LowChain vol clst clsts)
    (follows : Follows vol.word endOfChain clst clsts) :
    ∀ other ∈ clsts, vol.entry other < 0x0ffffff8 ∨ vol.entry other = endOfChain := by
  induction chain with
  | @last clst isCluster _ =>
      rcases follows.uncons with ⟨ends, _⟩ | ⟨_, rest⟩
      · rw [coherent.word_eq (isCluster.inFat coherent.layout)] at ends
        intro other mem
        exact List.mem_singleton.mp mem ▸ Or.inr ends
      · exact absurd rfl rest.ne_nil
  | @link clst rest isCluster chain ih =>
      rcases follows.uncons with ⟨_, none⟩ | ⟨_, follows⟩
      · rw [none] at chain
        exact absurd chain.head_mem List.not_mem_nil
      · rw [coherent.word_eq (isCluster.inFat coherent.layout)] at follows
        have same : vol.entry clst = vol.entry clst % 0x10000000 := by
          rcases follows.head_eq with ⟨tail, eq⟩
          rcases chain.head_eq with ⟨tail', eq'⟩
          exact (List.cons.inj (eq.symm.trans eq')).1
        have below := cluster_lt coherent (chain.clusters _ chain.head_mem)
        rw [← same] at below ih
        exact List.forall_mem_cons.mpr ⟨Or.inl below, ih follows⟩

/-- A chain with plain entries is followed to its end. -/
theorem LowChain.follows_of_plain (coherent : vol.Coherent) (chain : LowChain vol clst clsts)
    (plain : ∀ other ∈ clsts, vol.entry other < 0x0ffffff8 ∨ vol.entry other = endOfChain) :
    Follows vol.word endOfChain clst clsts := by
  induction chain with
  | @last clst isCluster isEnd =>
      refine .last ?_
      rw [coherent.word_eq (isCluster.inFat coherent.layout)]
      refine (plain clst (List.mem_singleton_self _)).resolve_left fun below => ?_
      omega
  | @link clst rest isCluster chain ih =>
      rcases List.forall_mem_cons.mp plain with ⟨here, later⟩
      have below := cluster_lt coherent (chain.clusters _ chain.head_mem)
      have word := coherent.word_eq (isCluster.inFat coherent.layout)
      have lower : vol.entry clst < 0x0ffffff8 := by
        refine here.resolve_right fun isMark => ?_
        rw [isMark] at below
        exact absurd below (by decide)
      have same : vol.entry clst % 0x10000000 = vol.entry clst := Nat.mod_eq_of_lt (by omega)
      rw [same] at ih
      refine .link ?_ ?_
      · rw [word]
        unfold endOfChain
        omega
      · rw [word]
        exact ih later

end

/--
Filling the map from a cluster ends, with the chain where the cluster begins one, exactly when the
words from the cluster on lead to the mark 0x0fffffff within 10240 clusters and, on a chain, no
entry has one of the upper four bits or another mark.
-/
theorem fillsMap_iff {vol : Volume} (coherent : vol.Coherent) (reliable : vol.disk.Reliable)
    (iIno : ℕ) : FillsMap vol iIno ↔ EndsPlainly vol iIno := by
  have readable := coherent.readable reliable
  constructor
  · rintro ⟨⟨fuel, vol', inode, filled⟩, mapsChain⟩
    rcases follows_of_fillMapping readable filled with ⟨follows, le⟩
    refine ⟨⟨_, follows, le⟩, fun clsts chain => ?_⟩
    rw [(mapsChain clsts (chain.nodup coherent) chain fuel vol' inode filled).1] at follows
    exact chain.plain_of_follows coherent follows
  · rintro ⟨⟨nodes, follows, le⟩, plain⟩
    refine ⟨?_, fun clsts _ chain fuel vol' inode filled => ?_⟩
    · rcases fillMapping_of_follows (reads_word vol) ⟨.refl vol, readable⟩ follows
        (fun _ _ => trivial) le le_rfl with ⟨vol', filled, _⟩
      exact ⟨_, vol', _, filled⟩
    have isChain := chain.follows_of_plain coherent (plain clsts chain)
    have same := (follows_of_fillMapping readable filled).1.unique isChain
    exact ⟨same, by rw [Inode.iBlocks, same]⟩

/-- The map of the one file of a volume is filled. -/
theorem fillsMap_iff_oneFile : FillsMap oneFile 2 := by
  have coherent : oneFile.Coherent := Volume.ofTable_coherent fiveClusters_valid
  have ends : oneFile.entry 2 = endOfChain :=
    Volume.ofTable_entry fiveClusters_valid (by decide) (by decide)
  have word : oneFile.word 2 = endOfChain := (coherent.word_eq (by decide)).trans ends
  refine (fillsMap_iff coherent Volume.ofTable_reliable 2).mpr
    ⟨⟨[2], .last word, by decide⟩, fun clsts chain clst mem => ?_⟩
  cases chain with
  | last _ _ => exact List.mem_singleton.mp mem ▸ Or.inr ends
  | link _ chain =>
      have beyond := chain.clusters _ chain.head_mem
      rw [ends] at beyond
      exact absurd beyond.2 (by decide)

/-- A volume with a file of one cluster, which ends with the first of the marks. -/
def otherMark : Volume :=
  Volume.ofTable fiveClusters (fun clst => if clst = 2 then 0x0ffffff8 else 0) 4 3

/-- The first of the marks is taken for the number of a cluster. -/
theorem not_fillsMap_otherMark : ¬∀ (vol : Volume), vol.Coherent → vol.disk.Reliable →
    ∀ iIno, FillsMap vol iIno := by
  intro always
  have coherent : otherMark.Coherent := Volume.ofTable_coherent fiveClusters_valid
  have entry : otherMark.entry 2 = 0x0ffffff8 :=
    Volume.ofTable_entry fiveClusters_valid (by decide) (by decide)
  have word : otherMark.word 2 = 0x0ffffff8 := (coherent.word_eq (by decide)).trans entry
  rcases always otherMark coherent Volume.ofTable_reliable 2 with
    ⟨⟨fuel, vol', inode, filled⟩, mapsChain⟩
  have chain : LowChain otherMark 2 [2] := .last (by decide) (by rw [entry])
  have follows := (follows_of_fillMapping (coherent.readable Volume.ofTable_reliable) filled).1
  rw [(mapsChain [2] (List.nodup_singleton 2) chain fuel vol' inode filled).1] at follows
  rcases follows.uncons with ⟨ends, _⟩ | ⟨_, rest⟩
  · rw [word] at ends
    exact absurd ends (by decide)
  · exact absurd rfl rest.ne_nil

end Ninix.Fat32
