import Mathlib.Tactic.Ring
import Ninix.Ext2.InodeTable

/-!
# Growing a file

Each round of `ext2_create_page` takes a block for a page and the index blocks above it that are
not there. Which blocks these are is determined by the block bitmap, and so is whether a round
comes upon a word that no round has written: then the word is what the block held before it was
taken. While these words are 0 the file grows as its block map says.
-/

namespace Ninix.Ext2

open ByteBuffer Bitmap IndexTree

/-! ## Locations of pages -/

namespace ExtSb

variable {esb : ExtSb} {vpn other dp i b : ℕ} {rest path : List ℕ}

theorem pointersPerBlock_eq (esb : ExtSb) :
    esb.pointersPerBlock = 256 * 2 ^ esb.blocksizeFactor := by
  unfold pointersPerBlock sBlksize
  omega

theorem pointersPerBlock_pos (esb : ExtSb) : 0 < esb.pointersPerBlock := by
  rw [pointersPerBlock_eq]
  positivity

/-- The page at a location. -/
def pageOf (n : ℕ) : ℕ → List ℕ → ℕ
  | _, [i] => 12 + i
  | _, [i, j] => 12 + n + (n * i + j)
  | _, [i, j, k] => 12 + n + n * n + (n * n * i + (n * j + k))
  | dp, _ => dp

/-- Where the products wrap no page is left for the third level. -/
theorem thirdLevel (small : ¬vpn < 12 + esb.pointersPerBlock)
    (notSecond : ¬vpn < u32 (12 + esb.pointersPerBlock +
      esb.pointersPerBlock * esb.pointersPerBlock))
    (third : vpn < u32 (12 + esb.pointersPerBlock + esb.pointersPerBlock * esb.pointersPerBlock +
      esb.pointersPerBlock * esb.pointersPerBlock * esb.pointersPerBlock)) :
    12 + esb.pointersPerBlock + esb.pointersPerBlock * esb.pointersPerBlock ≤ vpn := by
  by_cases fits : esb.blocksizeFactor < 8
  · have le : esb.pointersPerBlock ≤ 32768 := by
      rw [pointersPerBlock_eq]
      have power := Nat.pow_le_pow_right (show 0 < 2 by decide)
        (show esb.blocksizeFactor ≤ 7 by omega)
      omega
    have square := Nat.mul_le_mul le le
    rw [u32_of_lt (by omega)] at notSecond
    omega
  · exfalso
    rcases Nat.exists_eq_add_of_le (not_lt.mp fits) with ⟨more, factor⟩
    have value : esb.pointersPerBlock = 65536 * 2 ^ more := by
      rw [pointersPerBlock_eq, factor, Nat.pow_add]
      omega
    have wraps : u32 (12 + esb.pointersPerBlock + esb.pointersPerBlock * esb.pointersPerBlock +
        esb.pointersPerBlock * esb.pointersPerBlock * esb.pointersPerBlock) =
          u32 (12 + esb.pointersPerBlock) := by
      unfold u32
      have products : 12 + esb.pointersPerBlock + esb.pointersPerBlock * esb.pointersPerBlock +
          esb.pointersPerBlock * esb.pointersPerBlock * esb.pointersPerBlock =
            12 + esb.pointersPerBlock + 4294967296 *
              (2 ^ more * 2 ^ more + 65536 * 2 ^ more * 2 ^ more * 2 ^ more) := by
        rw [value]
        ring
      rw [products, Nat.add_mul_mod_self_left]
    rw [wraps] at third
    exact small (third.trans_le (Nat.mod_le _ _))

/-- What a location is made of. -/
theorem getLocation_spec (located : esb.getLocation vpn = some (dp, rest)) :
    pageOf esb.pointersPerBlock dp rest = vpn ∧ dp < 15 ∧ rest.length = dp - 11 ∧
      ∀ i ∈ rest, i < esb.pointersPerBlock := by
  have positive := esb.pointersPerBlock_pos
  unfold getLocation at located
  simp only at located
  split at located
  · simp only [Option.some.injEq, Prod.mk.injEq] at located
    rcases located with ⟨rfl, rfl⟩
    exact ⟨rfl, by omega, by rw [List.length_nil]; omega, by simp⟩
  · split at located
    · simp only [Option.some.injEq, Prod.mk.injEq] at located
      rcases located with ⟨rfl, rfl⟩
      refine ⟨?_, by decide, rfl, by simp; omega⟩
      simp only [pageOf]
      omega
    · rename_i behindFirst
      split at located
      · rename_i second
        simp only [Option.some.injEq, Prod.mk.injEq] at located
        rcases located with ⟨rfl, rfl⟩
        have bound := second.trans_le (Nat.mod_le _ _)
        have whole := Nat.div_add_mod (vpn - 12 - esb.pointersPerBlock) esb.pointersPerBlock
        refine ⟨?_, by decide, rfl, ?_⟩
        · simp only [pageOf]
          omega
        · simp only [List.mem_cons, List.not_mem_nil, or_false, forall_eq_or_imp, forall_eq]
          exact ⟨Nat.div_lt_of_lt_mul (by omega), Nat.mod_lt _ positive⟩
      · rename_i behindSecond
        split at located
        · rename_i third
          simp only [Option.some.injEq, Prod.mk.injEq] at located
          rcases located with ⟨rfl, rfl⟩
          have lower := thirdLevel behindFirst behindSecond third
          have bound := third.trans_le (Nat.mod_le _ _)
          generalize esb.pointersPerBlock = n at *
          generalize tmpEq : vpn - 12 - n - n * n = tmp
          have whole := Nat.div_add_mod tmp (n * n)
          have part := Nat.div_add_mod (tmp % (n * n)) n
          have last : tmp % (n * n) % n = tmp % n := Nat.mod_mod_of_dvd tmp (Nat.dvd_mul_left n n)
          have below := Nat.mod_lt tmp (Nat.mul_pos positive positive)
          refine ⟨?_, by decide, rfl, ?_⟩
          · simp only [pageOf]
            omega
          · simp only [List.mem_cons, List.not_mem_nil, or_false, forall_eq_or_imp, forall_eq]
            exact ⟨Nat.div_lt_of_lt_mul (by omega), Nat.div_lt_of_lt_mul below,
              Nat.mod_lt _ positive⟩
        · simp at located

/-- A page that has a location is not the last one of 32 bits. -/
theorem getLocation_small (valid : esb.Valid) (located : esb.getLocation vpn = some (dp, rest)) :
    vpn + 1 < 4294967296 := by
  have power := Nat.pow_le_pow_right (show 0 < 2 by decide) valid.factor
  have pointers := esb.pointersPerBlock_eq
  unfold getLocation at located
  simp only at located
  split at located
  · omega
  · split at located
    · omega
    · split at located
      · rename_i second
        have bound := u32_lt (12 + esb.pointersPerBlock +
          esb.pointersPerBlock * esb.pointersPerBlock)
        omega
      · split at located
        · rename_i third
          have bound := u32_lt (12 + esb.pointersPerBlock +
            esb.pointersPerBlock * esb.pointersPerBlock +
            esb.pointersPerBlock * esb.pointersPerBlock * esb.pointersPerBlock)
          omega
        · simp at located

/-- Two pages do not have one location. -/
theorem getLocation_injective (located : esb.getLocation vpn = some (dp, rest))
    (locatedOther : esb.getLocation other = some (dp, rest)) : vpn = other :=
  (getLocation_spec located).1.symm.trans (getLocation_spec locatedOther).1

/-- The paths of the first pages of a file: those to their blocks and to the index blocks above. -/
def filePaths (esb : ExtSb) (b : ℕ) : Set (List ℕ) :=
  {path | path ≠ [] ∧ ∃ vpn < b, ∃ dp rest,
    esb.getLocation vpn = some (dp, rest) ∧ path <+: dp :: rest}

/-- The paths below a path that lead to the end of a list of indices. -/
def below (path rest : List ℕ) : Set (List ℕ) := {q | ∃ t, t ≠ [] ∧ t <+: rest ∧ q = path ++ t}

theorem below_nil : below path [] = ∅ := by
  ext q
  constructor
  · rintro ⟨t, nonempty, front, _⟩
    exact nonempty (List.prefix_nil.mp front)
  · exact False.elim

theorem below_cons : below path (i :: rest) = insert (path ++ [i]) (below (path ++ [i]) rest) := by
  ext q
  constructor
  · rintro ⟨t, nonempty, front, rfl⟩
    rcases List.prefix_cons_iff.mp front with rfl | ⟨t', rfl, front'⟩
    · exact absurd rfl nonempty
    · by_cases empty : t' = []
      · subst empty
        exact Or.inl rfl
      · exact Or.inr ⟨t', empty, front', by simp⟩
  · rintro (rfl | ⟨t, nonempty, front, rfl⟩)
    · exact ⟨[i], by simp, by simp, rfl⟩
    · exact ⟨i :: t, by simp, by simpa using front, by simp⟩

/-- One more page adds the paths that lead to it. -/
theorem filePaths_succ (located : esb.getLocation vpn = some (dp, rest)) :
    esb.filePaths (vpn + 1) = insert [dp] (esb.filePaths vpn) ∪ below [dp] rest := by
  ext path
  constructor
  · rintro ⟨nonempty, other, lt, dp', rest', locatedOther, isPrefix⟩
    rcases Nat.lt_succ_iff_lt_or_eq.mp lt with before | rfl
    · exact Or.inl (Or.inr ⟨nonempty, other, before, dp', rest', locatedOther, isPrefix⟩)
    · rw [located] at locatedOther
      cases locatedOther
      rcases List.prefix_cons_iff.mp isPrefix with rfl | ⟨t, rfl, front⟩
      · exact absurd rfl nonempty
      · by_cases empty : t = []
        · exact Or.inl (Or.inl (by rw [empty]))
        · exact Or.inr ⟨t, empty, front, rfl⟩
  · rintro ((rfl | ⟨nonempty, other, lt, dp', rest', locatedOther, isPrefix⟩) |
      ⟨t, nonempty, front, rfl⟩)
    · exact ⟨by simp, vpn, Nat.lt_succ_self _, dp, rest, located, by simp⟩
    · exact ⟨nonempty, other, by omega, dp', rest', locatedOther, isPrefix⟩
    · exact ⟨by simp, vpn, Nat.lt_succ_self _, dp, rest, located, by simpa using front⟩

theorem filePaths_closed (esb : ExtSb) (b : ℕ) : Closed (esb.filePaths b) where
  nonempty mem := mem.1 rfl
  parent := by
    rintro path i ⟨_, vpn, lt, dp, rest, located, isPrefix⟩ nonempty
    exact ⟨nonempty, vpn, lt, dp, rest, located, (List.prefix_append path [i]).trans isPrefix⟩

theorem leaf_mem (located : esb.getLocation vpn = some (dp, rest)) (lt : vpn < b) :
    dp :: rest ∈ esb.filePaths b :=
  ⟨by simp, vpn, lt, dp, rest, located, List.prefix_rfl⟩

/-- The path to a page is not one of the paths to other pages or index blocks. -/
theorem leaf_notMem (located : esb.getLocation vpn = some (dp, rest)) :
    dp :: rest ∉ esb.filePaths vpn := by
  rintro ⟨_, other, lt, dp', rest', locatedOther, isPrefix⟩
  rcases List.cons_prefix_cons.mp isPrefix with ⟨rfl, inRest⟩
  have length := (getLocation_spec located).2.2.1
  have lengthOther := (getLocation_spec locatedOther).2.2.1
  have same := inRest.eq_of_length (length.trans lengthOther.symm)
  subst same
  have eq := getLocation_injective located locatedOther
  omega

/-- Where a file has an index block, it has a path through it. -/
theorem index_of_mem {more : ℕ} (mem : path ∈ esb.filePaths b)
    (longer : path ++ [i] ∈ esb.filePaths more) : ∃ j, path ++ [j] ∈ esb.filePaths b := by
  rcases mem with ⟨nonempty, vpn, lt, dp, rest, located, isPrefix⟩
  rcases longer with ⟨_, other, _, dp', rest', locatedOther, isPrefix'⟩
  rcases isPrefix with ⟨tail, eq⟩
  cases tail with
  | cons j tail => exact ⟨j, by simp, vpn, lt, dp, rest, located, tail, by simp [← eq]⟩
  | nil =>
      exfalso
      rw [List.append_nil] at eq
      subst eq
      rw [List.cons_append] at isPrefix'
      rcases List.cons_prefix_cons.mp isPrefix' with ⟨rfl, inRest⟩
      have length := (getLocation_spec located).2.2.1
      have lengthOther := (getLocation_spec locatedOther).2.2.1
      have le := inRest.length_le
      rw [List.length_append, List.length_singleton] at le
      omega

/-- Whether a path is one of the first pages of a file. -/
def hasPath (esb : ExtSb) (b : ℕ) (path : List ℕ) : Bool :=
  path ≠ [] && (List.range b).any fun vpn =>
    match esb.getLocation vpn with
    | some (dp, rest) => path.isPrefixOf (dp :: rest)
    | none => false

theorem hasPath_iff : esb.hasPath b path = true ↔ path ∈ esb.filePaths b := by
  unfold hasPath filePaths
  simp only [ne_eq, decide_not, Bool.and_eq_true, Bool.not_eq_eq_eq_not, Bool.not_true,
    decide_eq_false_iff_not, List.any_eq_true, List.mem_range, Set.mem_ofPred_eq]
  apply and_congr_right
  intro _
  constructor
  · rintro ⟨vpn, lt, isPrefix⟩
    rcases located : esb.getLocation vpn with _ | ⟨dp, rest⟩
    · rw [located] at isPrefix
      exact absurd isPrefix Bool.false_ne_true
    · rw [located] at isPrefix
      exact ⟨vpn, lt, dp, rest, located, List.isPrefixOf_iff_prefix.mp isPrefix⟩
  · rintro ⟨vpn, lt, dp, rest, located, isPrefix⟩
    refine ⟨vpn, lt, ?_⟩
    rw [located]
    exact List.isPrefixOf_iff_prefix.mpr isPrefix

end ExtSb

/-! ## Which blocks are taken -/

/-- The block bitmap of a group as the rounds leave it, and the blocks at the ends of paths, 0
where there is none. -/
structure Plan where
  bitmap : Bytes
  node : List ℕ → ℕ

/-- Why a plan ends early: no block is free, or a word that is looked at for an index block that
is not there is not 0. -/
inductive Halt where
  | full
  | spoiled
  deriving DecidableEq

namespace Plan

variable (fs : Fs) (group : ℕ)

/-- The first free block is taken. -/
def take (p : Plan) : Except Halt (ℕ × Plan) :=
  match firstFree p.bitmap fs.esb.sBlksize with
  | none => .error .full
  | some index =>
      .ok (u32 (group * fs.esb.blocksPerGroup + index), { p with bitmap := setBit p.bitmap index })

/-- A block is put at the end of a path. -/
def put (p : Plan) (path : List ℕ) (block : ℕ) : Plan :=
  { p with node := Function.update p.node path block }

@[simp]
theorem put_bitmap (p : Plan) (path : List ℕ) (block : ℕ) : (p.put path block).bitmap = p.bitmap :=
  rfl

@[simp]
theorem put_node_self (p : Plan) (path : List ℕ) (block : ℕ) :
    (p.put path block).node path = block :=
  Function.update_self _ _ _

theorem put_node_of_ne (p : Plan) {path other : List ℕ} (block : ℕ) (ne : other ≠ path) :
    (p.put path block).node other = p.node other :=
  Function.update_of_ne ne _ _

/-- An index block is taken unless it is there, where the word for it is `entry`. -/
def index (p : Plan) (path : List ℕ) (entry : ℕ) : Except Halt Plan :=
  if p.node path ≠ 0 then .ok p
  else if entry ≠ 0 then .error .spoiled
  else (p.take fs group).map fun (block, p) => p.put path block

/-- The index blocks below one, down to the last. -/
def lower : List ℕ → List ℕ → Plan → Except Halt Plan
  | i :: j :: rest, path, p =>
      (p.index fs group (path ++ [i]) (fs.word (p.node path) i)).bind
        (lower (j :: rest) (path ++ [i]))
  | _, _, p => .ok p

/-- The blocks a round takes: the one for the page, and the index blocks above it. -/
def round (root : ℕ → ℕ) (p : Plan) (vpn : ℕ) : Except Halt Plan :=
  match fs.esb.getLocation vpn with
  | none => .ok p
  | some (dp, rest) =>
      (p.take fs group).bind fun (block, p) =>
        Except.map (put · (dp :: rest) block) <|
          match rest with
          | [] => .ok p
          | _ :: _ => (p.index fs group [dp] (root dp)).bind (lower fs group rest [dp])

/-- The blocks a number of rounds take. -/
def rounds (root : ℕ → ℕ) (p : Plan) (vpn : ℕ) : ℕ → Except Halt Plan
  | 0 => .ok p
  | left + 1 => (p.round fs group root vpn).bind fun p => rounds root p (vpn + 1) left

end Plan

namespace Fs

/-- The group `ext2_create_page` takes blocks of. -/
def growthGroup (fs : Fs) (inode : Inode) : ℕ := bgId (fs.recordByte inode.iIno)

/-- What the rounds for a file start with. -/
def startPlan (fs : Fs) (inode : Inode) : Plan where
  bitmap := fs.blockBits (fs.growthGroup inode)
  node path := if fs.esb.hasPath inode.iBlocks path then node inode.aPage fs.word path else 0

/-- The words and pointers looked at for index blocks that are not there are 0. -/
def Unspoiled (fs : Fs) (inode : Inode) (cnt : ℕ) : Prop :=
  match (fs.startPlan inode).rounds fs (fs.growthGroup inode) inode.aPage inode.iBlocks cnt with
  | .error .spoiled => False
  | _ => True

instance (fs : Fs) (inode : Inode) (cnt : ℕ) : Decidable (fs.Unspoiled inode cnt) := by
  unfold Unspoiled
  split
  · exact isFalse id
  · exact isTrue trivial

/-- A plan says which blocks of the group are free and which are those of the file, and the other
words are as they were at the start. -/
structure Follows (start : Fs) (pointers : ℕ → ℕ) (group : ℕ) (fs : Fs) (root : ℕ → ℕ)
    (paths : Set (List ℕ)) (p : Plan) : Prop where
  esb : fs.esb = start.esb
  bits : ∀ k < fs.esb.sBlksize, fs.blockBits group k = p.bitmap k
  nodes : ∀ path ∈ paths, p.node path = node root fs.word path
  absent : ∀ path ∉ paths, p.node path = 0
  roots : ∀ dp, [dp] ∉ paths → root dp = pointers dp
  words : ∀ path ∈ paths, ∀ i < fs.esb.pointersPerBlock, path ++ [i] ∉ paths →
    fs.word (node root fs.word path) i = start.word (node root fs.word path) i
  free : ∀ index < 8 * fs.esb.sBlksize, bit p.bitmap index = false →
    ∀ i < fs.esb.pointersPerBlock, fs.word (u32 (group * fs.esb.blocksPerGroup + index)) i =
      start.word (u32 (group * fs.esb.blocksPerGroup + index)) i

namespace Follows

variable {start fs fs' : Fs} {pointers root root' : ℕ → ℕ} {group block : ℕ}
  {paths : Set (List ℕ)} {path : List ℕ} {p : Plan}

/-- `apply_block` takes the block the plan says. -/
theorem take (follows : Follows start pointers group fs root paths p) (layout : fs.BlockLayout)
    (lt : group < fs.esb.totalGroups) (map : fs.FileMap root paths)
    (took : Took fs fs' group block) :
    ∃ p', p.take start group = .ok (block, p') ∧ p'.node = p.node ∧
      Follows start pointers group fs' root paths p' ∧
      ∀ i < fs.esb.pointersPerBlock, fs'.word block i = start.word block i := by
  rcases took.first with ⟨index, first, number, taken⟩
  have found : firstFree p.bitmap start.esb.sBlksize = some index := by
    rw [← first, ← follows.esb]
    exact (firstFree_congr follows.bits).symm
  rcases firstFree_spec first with ⟨below, isFree⟩
  have isFreePlan := isFree
  rw [bit_congr (follows.bits (index / 8) (by omega))] at isFreePlan
  rcases map.took took with ⟨_, nodes, _⟩
  have sameWord : ∀ other < 8 * fs.esb.sBlksize, bit p.bitmap other = false →
      ∀ i < fs.esb.pointersPerBlock,
        fs'.word (u32 (group * fs.esb.blocksPerGroup + other)) i =
          start.word (u32 (group * fs.esb.blocksPerGroup + other)) i := by
    intro other otherBelow free i iLt
    have held := follows.free other otherBelow free i iLt
    rw [← bit_congr (follows.bits (other / 8) (by omega))] at free
    rcases layout.freeBlock lt otherBelow free with ⟨_, eq, onCard, apart, _⟩
    rw [← held, eq]
    exact took.word onCard apart iLt
  refine ⟨{ p with bitmap := setBit p.bitmap index }, ?_, rfl, ?_, ?_⟩
  · rw [Plan.take, found, number, ← follows.esb]
  · refine ⟨took.same.esb.trans follows.esb, ?_, ?_, follows.absent, follows.roots, ?_, ?_⟩
    · rw [took.same.esb]
      intro k kLt
      rw [taken k kLt]
      exact setBit_bytes follows.bits kLt
    · intro path mem
      rw [nodes path mem]
      exact follows.nodes path mem
    · rw [took.same.esb]
      intro path mem i iLt notMem
      have good := map.tree.allGood path mem
      rw [nodes path mem, took.word good.onCard good.apart iLt]
      exact follows.words path mem i iLt notMem
    · rw [took.same.esb]
      intro other otherBelow free
      rw [bit_setBit] at free
      exact sameWord other otherBelow (Bool.or_eq_false_iff.mp free).2
  · rw [number]
    exact sameWord index below isFreePlan

/-- A block that was taken is put at the end of a path. -/
theorem put (follows : Follows start pointers group fs root paths p) (layout : fs.BlockLayout)
    (lt : group < fs.esb.totalGroups)
    (extend : Extends fs root paths fs' root' (insert path paths))
    (here : node root' fs'.word path = block)
    (bits : ∀ k < fs.esb.sBlksize, fs'.blockBits group k = fs.blockBits group k)
    (held : ∀ i < fs.esb.pointersPerBlock, fs.word block i = start.word block i) :
    Follows start pointers group fs' root' (insert path paths) (p.put path block) := by
  have esb := extend.same.esb
  refine ⟨esb.trans follows.esb, ?_, ?_, ?_, ?_, ?_, ?_⟩
  · rw [esb]
    intro k below
    rw [bits k below]
    exact follows.bits k below
  · intro other mem
    by_cases eq : other = path
    · rw [eq, here, Plan.put_node_self]
    · rcases mem with isPath | old
      · exact absurd isPath eq
      · rw [Plan.put_node_of_ne p block eq, extend.nodes other old]
        exact follows.nodes other old
  · intro other notMem
    have ne : other ≠ path := fun eq => notMem (Or.inl eq)
    rw [Plan.put_node_of_ne p block ne]
    exact follows.absent other fun old => notMem (Or.inr old)
  · intro dp notMem
    rw [extend.roots dp notMem]
    exact follows.roots dp fun old => notMem (Or.inr old)
  · rw [esb]
    intro other mem i iLt notMem
    rw [extend.words mem notMem iLt]
    by_cases eq : other = path
    · rw [eq, here]
      exact held i iLt
    · rcases mem with isPath | old
      · exact absurd isPath eq
      · rw [extend.nodes other old]
        exact follows.words other old i iLt fun inOld => notMem (Or.inr inOld)
  · rw [esb]
    intro index below free i iLt
    have isFree := free
    change bit p.bitmap index = false at isFree
    rw [← bit_congr (follows.bits (index / 8) (by omega))] at isFree
    rcases layout.freeBlock lt below isFree with ⟨inGroup, eq, onCard, apart, _⟩
    refine Eq.trans ?_ (follows.free index below free i iLt)
    rw [eq]
    refine extend.word onCard apart (fun other mem same => ?_) iLt
    have used := (extend.map.tree.allGood other mem).used.2
    rcases fs.location_block group inGroup with ⟨groupOf, indexOf⟩
    rw [same, esb, groupOf, indexOf, bit_congr (bits (index / 8) (by omega)), isFree] at used
    exact absurd used (by decide)

/-- Reading changes nothing. -/
theorem reads (follows : Follows start pointers group fs root paths p) (reads : Reads fs fs') :
    Follows start pointers group fs' root paths p := by
  rcases reads with ⟨transfers, rfl⟩
  exact ⟨follows.esb, follows.bits, follows.nodes, follows.absent, follows.roots, follows.words,
    follows.free⟩

end Follows

end Fs

/-! ## Rounds -/

namespace Growth

open Fs ExtSb

variable {start : Fs} {pointers : ℕ → ℕ} {s s' : Growth} {group block blockNo : ℕ}
  {rest path : List ℕ} {root : ℕ → ℕ} {paths : Set (List ℕ)} {p : Plan}

/-- An index block is read. -/
theorem readIndex_spec (ready : s.fs.Ready) (onCard : s.fs.esb.OnCard block) :
    ∃ buf fs, s.readIndex block = (0, { s with fs, buf }) ∧ Reads s.fs fs ∧
      (∀ k < s.fs.esb.sBlksize, buf k = s.fs.esb.blockBytes s.fs.disk block k) ∧
      ∀ i < s.fs.esb.pointersPerBlock, read32 buf (4 * i) = s.fs.word block i := by
  rcases readBlock_block ready.reliable onCard s.buf with ⟨buf, transfers, read, bytes⟩
  exact ⟨buf, _, by simp only [readIndex, read], ⟨transfers, rfl⟩, bytes,
    fun i lt => s.fs.word_of_bytes bytes lt⟩

/-- An index block that was taken is entered in the one above it. -/
theorem enterIndex {fs fs₂ : Fs} {buf : Bytes} {i next : ℕ}
    (map : fs.FileMap root paths) (mem : path ∈ paths) (new : path ++ [i] ∉ paths)
    (iLt : i < fs.esb.pointersPerBlock)
    (bytes : ∀ k < fs.esb.sBlksize,
      buf k = fs.esb.blockBytes fs.disk (node root fs.word path) k)
    (took : Took fs fs₂ group next) :
    ∃ fs₃, fs₂.writeBlock (write32 buf (4 * i) next) (node root fs.word path) = (0, fs₃) ∧
      Wrote fs₂ fs₃ (node root fs.word path) i next ∧
      Extends fs₂ root paths fs₃ root (insert (path ++ [i]) paths) ∧
      Extends fs root paths fs₃ root (insert (path ++ [i]) paths) ∧
      node root fs₃.word (path ++ [i]) = next := by
  rcases map.took took with ⟨map₂, nodes, fresh⟩
  have parent := map.tree.allGood path mem
  have parent₂ := map₂.tree.allGood path mem
  have esb := took.same.esb
  rw [nodes path mem] at parent₂
  have bytes₂ : ∀ k < fs₂.esb.sBlksize,
      buf k = fs₂.esb.blockBytes fs₂.disk (node root fs.word path) k := by
    rw [esb]
    intro k below
    rw [took.touches.blockBytes parent.onCard (fun id inside => parent.apart id inside.metaSector)
      below]
    exact bytes k below
  rcases writeBlock_wrote took.ready parent₂ bytes₂ took.fileBlock.lt (by rw [esb]; exact iLt) with
    ⟨fs₃, writes, wrote⟩
  have wrote' := wrote
  rw [← nodes path mem] at wrote'
  rcases Extends.of_wrote took.layout map₂ mem new wrote' took.fileBlock fresh
    (by rw [esb]; exact iLt) with ⟨extend, here⟩
  exact ⟨fs₃, writes, wrote, extend, .of_took took map extend (Set.mem_insert _ _) new here, here⟩

/-- What a round below an index block starts from: the path to the data block is new, and the block,
which nothing leads to, has the words the plan started with. -/
structure Descent (start : Fs) (pointers : ℕ → ℕ) (group blockNo : ℕ) (root : ℕ → ℕ)
    (rest path : List ℕ) (paths : Set (List ℕ)) (p : Plan) (fs : Fs) : Prop where
  ready : fs.Ready
  layout : fs.BlockLayout
  map : fs.FileMap root paths
  mem : path ∈ paths
  inside : ∀ i ∈ rest, i < fs.esb.pointersPerBlock
  new : path ++ rest ∉ paths
  isBlock : fs.FileBlock blockNo
  fresh : ∀ other ∈ paths, node root fs.word other ≠ blockNo
  lt : group < fs.esb.totalGroups
  follows : Follows start pointers group fs root paths p
  held : ∀ i < fs.esb.pointersPerBlock, fs.word blockNo i = start.word blockNo i

namespace Descent

variable {fs fs' fs₂ : Fs} {buf : Bytes} {i j next : ℕ}

theorem reads (descent : Descent start pointers group blockNo root rest path paths p fs)
    (reads : Reads fs fs') :
    Descent start pointers group blockNo root rest path paths p fs' := by
  have extend := Extends.of_reads descent.ready descent.layout descent.map reads
  have isBlock := descent.isBlock.reads reads
  have follows := descent.follows.reads reads
  rcases reads with ⟨transfers, rfl⟩
  exact ⟨extend.ready, extend.layout, extend.map, descent.mem, descent.inside, descent.new, isBlock,
    descent.fresh, descent.lt, follows, descent.held⟩

/-- Down to an index block that is there. -/
theorem down (descent : Descent start pointers group blockNo root (i :: rest) path paths p fs)
    (known : path ++ [i] ∈ paths) :
    Descent start pointers group blockNo root rest (path ++ [i]) paths p fs :=
  { descent with
    mem := known
    inside := fun j mem => descent.inside j (List.mem_cons_of_mem i mem)
    new := by simpa using descent.new }

/-- Down to an index block that is taken, and entered in the one above it. -/
theorem take (descent : Descent start pointers group blockNo root (i :: j :: rest) path paths p fs)
    (absent : path ++ [i] ∉ paths)
    (bytes : ∀ k < fs.esb.sBlksize,
      buf k = fs.esb.blockBytes fs.disk (node root fs.word path) k)
    (took : Took fs fs₂ group next) :
    ∃ fs₃ p₁, fs₂.writeBlock (write32 buf (4 * i) next) (node root fs.word path) = (0, fs₃) ∧
      p.take start group = .ok (next, p₁) ∧
      Extends fs root paths fs₃ root (insert (path ++ [i]) paths) ∧
      node root fs₃.word (path ++ [i]) = next ∧
      Descent start pointers group blockNo root (j :: rest) (path ++ [i])
        (insert (path ++ [i]) paths) (p₁.put (path ++ [i]) next) fs₃ := by
  rcases enterIndex descent.map descent.mem absent (descent.inside i List.mem_cons_self) bytes took
    with ⟨fs₃, writes, wrote, extendWrote, extend, here⟩
  rcases descent.follows.take descent.layout descent.lt descent.map took with
    ⟨p₁, taken, _, followsTook, heldNext⟩
  have esbTook := took.same.esb
  have esb := extend.same.esb
  have isBlock := descent.isBlock
  have used : fs₃.Used blockNo := extend.used descent.layout isBlock.used
  have new : path ++ [i] ++ j :: rest ∉ insert (path ++ [i]) paths := by
    rintro (same | old)
    · simp at same
    · exact descent.new (by simpa using old)
  have fresh : ∀ other ∈ insert (path ++ [i]) paths, node root fs₃.word other ≠ blockNo := by
    rintro other (rfl | old)
    · rw [here]
      rintro rfl
      exact took.wasFree isBlock.used
    · rw [extend.nodes other old]
      exact descent.fresh other old
  have followsPut := followsTook.put took.layout (by rw [esbTook]; exact descent.lt) extendWrote
    here (fun k kLt => wrote.bitmaps group (by rw [esbTook]; exact descent.lt) k kLt)
    (by rw [esbTook]; exact heldNext)
  refine ⟨fs₃, p₁, writes, taken, extend, here, extend.ready, extend.layout, extend.map,
    Set.mem_insert _ _, ?_, new, isBlock.mono extend.same fun _ => used, fresh, ?_, followsPut, ?_⟩
  · rw [esb]
    exact fun k mem => descent.inside k (List.mem_cons_of_mem i mem)
  · rw [esb]
    exact descent.lt
  · rw [esb]
    intro k kLt
    rw [extend.word isBlock.onCard isBlock.apart fresh kLt]
    exact descent.held k kLt

end Descent

/-- What a round below an index block comes to: the plan takes the index blocks on the way, and the
data block is at the end of its path. -/
def Registers (start : Fs) (pointers : ℕ → ℕ) (group blockNo : ℕ) (root : ℕ → ℕ)
    (rest path : List ℕ) (paths : Set (List ℕ)) (p : Plan) (s s' : Growth) : Prop :=
  ∃ p', p.lower start group rest path = .ok p' ∧
    Extends s.fs root paths s'.fs root (paths ∪ below path rest) ∧
    node root s'.fs.word (path ++ rest) = blockNo ∧
    s'.xinode = s.xinode ∧ s'.inode = s.addBlock.inode ∧
    (∀ other ∈ paths ∪ below path rest, other ∉ paths → node root s'.fs.word other = blockNo ∨
      ¬s.fs.Used (node root s'.fs.word other)) ∧
    Follows start pointers group s'.fs root (paths ∪ below path rest)
      (p'.put (path ++ rest) blockNo)

/-- In the last index block the data block is entered. -/
theorem register_last {i : ℕ}
    (descent : Descent start pointers group blockNo root [i] path paths p s.fs)
    (ran : register group blockNo [i] (node root s.fs.word path) s = some (0, s')) :
    Registers start pointers group blockNo root [i] path paths p s s' := by
  rcases readIndex_spec descent.ready (descent.map.tree.allGood path descent.mem).onCard with
    ⟨buf, fs₁, read, reads, bytes, _⟩
  have afterRead := Extends.of_reads descent.ready descent.layout descent.map reads
  have descent₁ := descent.reads reads
  have sameNode : node root s.fs.word path = node root fs₁.word path := by rw [reads.word]
  rw [← reads.esb, ← reads.blockBytes, sameNode] at bytes
  rw [sameNode] at ran read
  have iLt := descent₁.inside i List.mem_cons_self
  rcases writeBlock_wrote descent₁.ready (descent₁.map.tree.allGood path descent.mem) bytes
    descent₁.isBlock.lt iLt with ⟨fs', writes, wrote⟩
  rcases Extends.of_wrote descent₁.layout descent₁.map descent.mem descent.new wrote
    descent₁.isBlock descent₁.fresh iLt with ⟨extend, last⟩
  simp only [register, read, writeIndex, writes, ne_eq, not_true_eq_false, if_false,
    Option.some.injEq, Prod.mk.injEq, true_and] at ran
  subst ran
  refine ⟨p, rfl, ?_, last, rfl, rfl, ?_, ?_⟩
  all_goals rw [below_cons, below_nil, insert_empty_eq, Set.union_singleton]
  · exact afterRead.trans extend
  · rintro other (rfl | old) notMem
    · exact Or.inl last
    · exact absurd old notMem
  · exact descent₁.follows.put descent₁.layout descent₁.lt extend last
      (fun k kLt => wrote.bitmaps group descent₁.lt k kLt) descent₁.held

/-- A round below an index block, when the words it looks at are as they should be, puts the data
block at the end of its path. -/
theorem register_spec (nonempty : rest ≠ [])
    (descent : Descent start pointers group blockNo root rest path paths p s.fs)
    (here : node root s.fs.word path = block)
    (unspoiled : p.lower start group rest path ≠ .error .spoiled)
    (ran : register group blockNo rest block s = some (0, s')) :
    Registers start pointers group blockNo root rest path paths p s s' := by
  induction rest generalizing s paths path block p with
  | nil => exact absurd rfl nonempty
  | cons i rest ih =>
      subst here
      cases rest with
      | nil => exact register_last descent ran
      | cons j rest =>
          rcases readIndex_spec descent.ready (descent.map.tree.allGood path descent.mem).onCard
            with ⟨buf, fs₁, read, reads, bytes, words⟩
          have afterRead := Extends.of_reads descent.ready descent.layout descent.map reads
          have descent₁ := descent.reads reads
          have sameNode : node root s.fs.word path = node root fs₁.word path := by
            rw [reads.word]
          have notNil : path ≠ [] := fun empty =>
            descent.map.tree.closed.nonempty (empty ▸ descent.mem)
          have child : node root fs₁.word (path ++ [i]) =
              s.fs.word (node root s.fs.word path) i := by
            rw [reads.word]
            exact node_concat notNil
          have split : path ++ i :: j :: rest = path ++ [i] ++ (j :: rest) := by simp
          have iLt := descent.inside i List.mem_cons_self
          unfold Registers
          rw [split, below_cons, Set.union_insert, ← Set.insert_union]
          simp only [register, read, words i iLt, ne_eq, not_true_eq_false, if_false] at ran
          unfold Plan.lower at unspoiled ⊢
          by_cases known : path ++ [i] ∈ paths
          · -- the index block is there
            have positive := descent₁.map.positive known
            rw [child] at positive
            have planned :
                p.index start group (path ++ [i]) (start.word (p.node path) i) = .ok p := by
              rw [Plan.index, descent.follows.nodes _ known, if_pos]
              rw [← reads.word, child]
              omega
            simp only [planned, Except.bind, positive.ne', not_false_eq_true, if_true]
              at ran unspoiled ⊢
            rcases @ih { s with fs := fs₁, buf } _ _ paths p (by simp) (descent₁.down known) child
              unspoiled ran with ⟨p', lowered, extend, last, xinode, inode, wasFree, follows⟩
            refine ⟨p', lowered, ?_, last, xinode, inode, ?_, ?_⟩
            all_goals rw [Set.insert_eq_of_mem known]
            · exact afterRead.trans extend
            · exact fun other otherMem notMem => (wasFree other otherMem notMem).imp_right
                fun notUsed used => notUsed (afterRead.used descent.layout used)
            · exact follows
          · -- an index block is taken, unless the word is not 0
            have entry : start.word (p.node path) i = s.fs.word (node root s.fs.word path) i := by
              rw [descent.follows.nodes path descent.mem]
              exact (descent.follows.words path descent.mem i iLt known).symm
            have absent := descent.follows.absent _ known
            have zero : s.fs.word (node root s.fs.word path) i = 0 := by
              by_contra garbage
              rw [entry, Plan.index, absent, if_neg (by simp), if_pos garbage] at unspoiled
              exact unspoiled rfl
            simp only [zero, not_true_eq_false, if_false] at ran
            rcases applied : fs₁.applyBlock group with _ | ⟨err, next, fs₂⟩
            · simp [applied] at ran
            rw [applied, Option.bind_some] at ran
            by_cases failed : err = 0
            swap
            · simp [failed] at ran
            subst failed
            have took := applyBlock_took descent₁.ready descent₁.layout descent₁.lt applied
            rw [← reads.esb, ← reads.blockBytes, sameNode] at bytes
            rcases descent₁.take known bytes took with
              ⟨fs₃, p₁, writes, taken, extend, here, descent₃⟩
            rw [← sameNode] at writes
            simp only [not_true_eq_false, if_false, writeIndex, writes] at ran
            have planned : p.index start group (path ++ [i]) (start.word (p.node path) i) =
                .ok (p₁.put (path ++ [i]) next) := by
              rw [entry, zero, Plan.index, absent, if_neg (by simp), if_neg (by simp), taken]
              rfl
            simp only [planned, Except.bind] at unspoiled ⊢
            rcases @ih { s with fs := fs₃, buf := write32 buf (4 * i) next } _ _ _ _ (by simp)
              descent₃ here unspoiled ran with
              ⟨p', lowered, extend', last, xinode, inode, wasFree, follows⟩
            refine ⟨p', lowered, (afterRead.trans extend).trans extend', last, xinode, inode, ?_,
              follows⟩
            intro other otherMem notMem
            by_cases isChild : other = path ++ [i]
            · rw [isChild, extend'.nodes _ (Set.mem_insert _ _), here]
              exact Or.inr fun used => took.wasFree (afterRead.used descent.layout used)
            · exact (wasFree other otherMem fun mem => mem.elim isChild notMem).imp_right
                fun notUsed used =>
                  notUsed ((afterRead.trans extend).used descent.layout used)

/-- Setting a pointer leaves the others and the group alone. -/
theorem pointer_setPointer {xinode : Bytes} {dp value : ℕ} (small : value < 4294967296) :
    (∀ other, pointer (write32 xinode (40 + 4 * dp) value) other =
      if other = dp then value else pointer xinode other) ∧
      bgId (write32 xinode (40 + 4 * dp) value) = bgId xinode := by
  refine ⟨fun other => ?_, readLE_writeLE_of_disjoint xinode (by omega)⟩
  split
  · rename_i eq
    rw [eq, pointer, read32_write32_same]
    exact Nat.mod_eq_of_lt small
  · exact readLE_writeLE_of_disjoint xinode (by omega)

/-- The pointers on the card to be follow those in memory. -/
theorem setPointer_pointers {dp value : ℕ}
    (pointers : ∀ dp < 15, pointer s.xinode dp = s.inode.aPage dp) (small : value < 4294967296) :
    ∀ other < 15, pointer (s.setPointer dp value).xinode other =
      (s.setPointer dp value).inode.aPage other := by
  intro other lt
  refine ((pointer_setPointer small).1 other).trans ?_
  rw [pointers other lt]
  exact (Function.update_apply _ _ _ _).symm

/-- Between two rounds the file has the paths of its pages, the plan has been followed and the
pointers on the card to be are those in memory. -/
structure Growing (start : Fs) (old : ℕ → ℕ) (group vpn : ℕ) (s : Growth) (p : Plan) : Prop where
  ready : s.fs.Ready
  layout : s.fs.BlockLayout
  map : s.fs.FileMap s.inode.aPage (s.fs.esb.filePaths vpn)
  follows : Follows start old group s.fs s.inode.aPage (s.fs.esb.filePaths vpn) p
  pointers : ∀ dp < 15, pointer s.xinode dp = s.inode.aPage dp
  bg : bgId s.xinode = group
  blocks : s.inode.iBlocks = vpn

/-- What a round has done that ends without an error. -/
structure Grown (s s' : Growth) (vpn blockNo : ℕ) : Prop where
  extend : Extends s.fs s.inode.aPage (s.fs.esb.filePaths vpn) s'.fs s'.inode.aPage
    (s.fs.esb.filePaths (vpn + 1))
  leaf : ∃ dp rest, s.fs.esb.getLocation vpn = some (dp, rest) ∧
    node s'.inode.aPage s'.fs.word (dp :: rest) = blockNo
  wasFree : ∀ path ∈ s.fs.esb.filePaths (vpn + 1), path ∉ s.fs.esb.filePaths vpn →
    ¬s.fs.Used (node s'.inode.aPage s'.fs.word path)
  ino : s'.inode.iIno = s.inode.iIno

variable {old : ℕ → ℕ} {vpn dp : ℕ}

/-- A round that has added the paths of its page has grown the file. -/
theorem Growing.next {p' : Plan} (growing : Growing start old group vpn s p)
    (located : s.fs.esb.getLocation vpn = some (dp, rest))
    (extend : Extends s.fs s.inode.aPage (s.fs.esb.filePaths vpn) s'.fs s'.inode.aPage
      (insert [dp] (s.fs.esb.filePaths vpn) ∪ below [dp] rest))
    (follows : Follows start old group s'.fs s'.inode.aPage
      (insert [dp] (s.fs.esb.filePaths vpn) ∪ below [dp] rest) p')
    (pointers : ∀ dp < 15, pointer s'.xinode dp = s'.inode.aPage dp)
    (bg : bgId s'.xinode = group) (inode : s'.inode.iBlocks = u32 (s.inode.iBlocks + 1) ∧
      s'.inode.iIno = s.inode.iIno)
    (leaf : node s'.inode.aPage s'.fs.word (dp :: rest) = blockNo)
    (wasFree : ∀ path ∈ insert [dp] (s.fs.esb.filePaths vpn) ∪ below [dp] rest,
      path ∉ s.fs.esb.filePaths vpn → ¬s.fs.Used (node s'.inode.aPage s'.fs.word path)) :
    Growing start old group (vpn + 1) s' p' ∧ Grown s s' vpn blockNo := by
  rw [← filePaths_succ located] at extend follows wasFree
  have esb := extend.same.esb
  have small := getLocation_small growing.ready.layout.valid located
  refine ⟨⟨extend.ready, extend.layout, ?_, ?_, pointers, bg, ?_⟩,
    ⟨extend, ⟨dp, rest, located, leaf⟩, wasFree, inode.2⟩⟩
  · rw [esb]
    exact extend.map
  · rw [esb]
    exact follows
  · rw [inode.1, growing.blocks, u32_of_lt small]

theorem leaf_below {i : ℕ} : dp :: i :: rest ∈ below [dp] (i :: rest) :=
  ⟨i :: rest, by simp, List.prefix_rfl, rfl⟩

/-- The part of a round below the pointer of the inode, when the index block there is not the data
block just taken. -/
theorem registerRound {fs₂ : Fs} {s₂ : Growth} {p₂ : Plan} {i next : ℕ}
    (growing : Growing start old group vpn s p) (lt : group < s.fs.esb.totalGroups)
    (located : s.fs.esb.getLocation vpn = some (dp, i :: rest))
    (took : Took s.fs fs₂ group blockNo)
    (held : ∀ k < s.fs.esb.pointersPerBlock, fs₂.word blockNo k = start.word blockNo k)
    (extend₂ : Extends fs₂ s.inode.aPage (s.fs.esb.filePaths vpn) s₂.fs s₂.inode.aPage
      (insert [dp] (s.fs.esb.filePaths vpn)))
    (follows₂ : Follows start old group s₂.fs s₂.inode.aPage
      (insert [dp] (s.fs.esb.filePaths vpn)) p₂)
    (pointers : ∀ dp < 15, pointer s₂.xinode dp = s₂.inode.aPage dp) (bg : bgId s₂.xinode = group)
    (inode : s₂.inode.iBlocks = s.inode.iBlocks ∧ s₂.inode.iIno = s.inode.iIno)
    (isRoot : s₂.inode.aPage dp = next)
    (rootFree : [dp] ∉ s.fs.esb.filePaths vpn → ¬fs₂.Used next)
    (unspoiled : p₂.lower start group (i :: rest) [dp] ≠ .error .spoiled)
    (ran : register group blockNo (i :: rest) next s₂ = some (0, s')) :
    ∃ p', p₂.lower start group (i :: rest) [dp] = .ok p' ∧
      Growing start old group (vpn + 1) s' (p'.put (dp :: i :: rest) blockNo) ∧
      Grown s s' vpn blockNo := by
  have esb := took.same.esb
  have esb₂ : s₂.fs.esb = s.fs.esb := extend₂.same.esb.trans esb
  have new := leaf_notMem located
  rcases growing.map.took took with ⟨_, _, fresh⟩
  have wasUsed : ∀ {block}, s.fs.Used block → fs₂.Used block := fun used =>
    (took.used _).mpr (Or.inr used)
  have fresh₂ : ∀ other ∈ insert [dp] (s.fs.esb.filePaths vpn),
      node s₂.inode.aPage s₂.fs.word other ≠ blockNo := by
    intro other mem
    by_cases old : other ∈ s.fs.esb.filePaths vpn
    · rw [extend₂.nodes other old]
      exact fresh other old
    · rcases mem with rfl | old'
      · rw [node_singleton, isRoot]
        intro same
        exact rootFree old (same ▸ took.fileBlock.used)
      · exact absurd old' old
  have isBlock := took.fileBlock.mono extend₂.same (extend₂.used took.layout)
  have held₂ : ∀ k < s₂.fs.esb.pointersPerBlock, s₂.fs.word blockNo k = start.word blockNo k := by
    intro k kLt
    rw [esb₂] at kLt
    rw [extend₂.word took.fileBlock.onCard took.fileBlock.apart fresh₂ (by rw [esb]; exact kLt)]
    exact held k kLt
  have new₂ : [dp] ++ i :: rest ∉ insert [dp] (s.fs.esb.filePaths vpn) := by
    rintro (same | mem)
    · simp at same
    · exact new mem
  have inside : ∀ k ∈ i :: rest, k < s₂.fs.esb.pointersPerBlock := by
    rw [esb₂]
    exact (getLocation_spec located).2.2.2
  rcases register_spec (by simp) ⟨extend₂.ready, extend₂.layout, extend₂.map, Set.mem_insert _ _,
    inside, new₂, isBlock, fresh₂, by rw [esb₂]; exact lt, follows₂, held₂⟩ isRoot unspoiled ran with
    ⟨p', lowered, extend, leaf, xinode, inode', wasFree, follows⟩
  have root : s'.inode.aPage = s₂.inode.aPage := by rw [inode']; rfl
  have rootLast := extend.nodes [dp] (Set.mem_insert _ _)
  rw [← root] at extend leaf follows wasFree rootLast
  refine ⟨p', lowered, growing.next located ?_ follows ?_ ?_ ⟨?_, ?_⟩ leaf ?_⟩
  · refine .of_took took growing.map ?_ (Or.inr leaf_below) new leaf
    rw [← root] at extend₂
    exact extend₂.trans extend
  · rw [xinode, root]
    exact pointers
  · rw [xinode]
    exact bg
  · rw [inode', ← inode.1]
    rfl
  · rw [inode', ← inode.2]
    rfl
  · intro path mem notMem
    by_cases eq : path = [dp]
    · subst eq
      rw [rootLast, root, node_singleton, isRoot]
      exact fun used => rootFree notMem (wasUsed used)
    · rcases wasFree path mem fun inserted => inserted.elim eq notMem with isTaken | notUsed
      · rw [isTaken]
        exact took.wasFree
      · exact fun used => notUsed (extend₂.used took.layout (wasUsed used))

/-- A round of `ext2_create_page` that the plan does not stop takes the blocks the plan says. -/
theorem growStep_spec (growing : Growing start old group vpn s p)
    (lt : group < s.fs.esb.totalGroups)
    (unspoiled : p.round start group old vpn ≠ .error .spoiled)
    (ran : s.growStep vpn = some (0, blockNo, s')) :
    ∃ p', p.round start group old vpn = .ok p' ∧ Growing start old group (vpn + 1) s' p' ∧
      Grown s s' vpn blockNo := by
  have map := growing.map
  unfold growStep at ran
  rcases located : s.fs.esb.getLocation vpn with _ | ⟨dp, rest⟩
  · simp [located] at ran
  have dpLt := (getLocation_spec located).2.1
  have new := leaf_notMem located
  rw [located] at ran
  simp only [growing.bg] at ran
  rcases applied : s.fs.applyBlock group with _ | ⟨err, taken, fs₂⟩
  · simp [applied] at ran
  rw [applied, Option.bind_some] at ran
  by_cases failed : err = 0
  swap
  · simp [failed] at ran
  subst failed
  have took := applyBlock_took growing.ready growing.layout lt applied
  have esb := took.same.esb
  rcases growing.follows.take growing.layout lt map took with
    ⟨p₁, planned, sameNodes, follows₂, held⟩
  rcases map.took took with ⟨map₂, nodes₂, fresh⟩
  unfold Plan.round at unspoiled ⊢
  rw [← growing.follows.esb, located] at unspoiled ⊢
  simp only [planned, Except.bind, ne_eq, not_true_eq_false, if_false] at unspoiled ran ⊢
  cases rest with
  | nil =>
      simp only [Option.some.injEq, Prod.mk.injEq, true_and] at ran
      rcases ran with ⟨rfl, rfl⟩
      have extendRoot := Extends.of_root took.ready took.layout map₂ new took.fileBlock fresh
      have here : node (Function.update s.inode.aPage dp taken) fs₂.word [dp] = taken := by
        rw [node_singleton, Function.update_self]
      refine ⟨p₁.put [dp] taken, rfl, growing.next located ?_ ?_ ?_ ?_ ⟨rfl, rfl⟩ here ?_⟩
      · rw [below_nil, Set.union_empty]
        exact .of_took took map extendRoot (Set.mem_insert _ _) new here
      · rw [below_nil, Set.union_empty]
        exact follows₂.put took.layout (by rw [esb]; exact lt) extendRoot here (fun _ _ => rfl)
          (by rw [esb]; exact held)
      · exact setPointer_pointers growing.pointers took.fileBlock.lt
      · exact (pointer_setPointer took.fileBlock.lt).2.trans growing.bg
      · rw [below_nil, Set.union_empty]
        rintro path (rfl | mem) notMem
        · intro used
          exact took.wasFree (here.symm ▸ used)
        · exact absurd mem notMem
  | cons i rest =>
      rw [growing.pointers dp dpLt] at ran
      by_cases known : [dp] ∈ s.fs.esb.filePaths vpn
      · -- the index block is there
        have positive := map.positive known
        rw [node_singleton] at positive
        have there : p₁.index start group [dp] (old dp) = .ok p₁ := by
          rw [Plan.index, sameNodes, growing.follows.nodes _ known, node_singleton, if_pos]
          omega
        have insertEq := Set.insert_eq_of_mem known
        simp only [there, positive.ne', not_false_eq_true, if_true] at unspoiled ran ⊢
        rcases Option.map_eq_some_iff.mp ran with ⟨⟨err, s₁⟩, registered, eq⟩
        simp only [Prod.mk.injEq] at eq
        rcases eq with ⟨rfl, rfl, rfl⟩
        have extend₂ := Extends.refl took.ready took.layout map₂
        rcases @registerRound start s s₁ group taken rest p old vpn dp fs₂ { s with fs := fs₂ } p₁ i
          _ growing lt located took held (by rwa [insertEq]) (by rwa [insertEq]) growing.pointers
          growing.bg ⟨rfl, rfl⟩ rfl (fun unknown => absurd known unknown)
          (fun stopped => unspoiled (by simp only [stopped]; rfl)) registered with
          ⟨p', lowered, result⟩
        exact ⟨p'.put (dp :: i :: rest) taken, by simp only [lowered]; rfl, result⟩
      · -- an index block is taken, unless the pointer is not 0
        have absent : p₁.node [dp] = 0 := by
          rw [sameNodes]
          exact growing.follows.absent _ known
        have entry := growing.follows.roots dp known
        have zero : s.inode.aPage dp = 0 := by
          by_contra garbage
          rw [Plan.index, absent, if_neg (by simp), if_pos (entry ▸ garbage)] at unspoiled
          exact unspoiled rfl
        simp only [zero, not_true_eq_false, if_false] at ran
        rcases applied₂ : fs₂.applyBlock group with _ | ⟨err, next, fs₃⟩
        · simp [applied₂] at ran
        rw [applied₂, Option.bind_some] at ran
        by_cases failed : err = 0
        swap
        · simp [failed] at ran
        subst failed
        simp only [not_true_eq_false, if_false] at ran
        have lt₂ : group < fs₂.esb.totalGroups := by
          rw [esb]
          exact lt
        have took₂ := applyBlock_took took.ready took.layout lt₂ applied₂
        rcases follows₂.take took.layout lt₂ map₂ took₂ with ⟨p₂, planned₂, _, follows₃, heldNext⟩
        rcases map₂.took took₂ with ⟨map₃, nodes₃, fresh₃⟩
        have there : p₁.index start group [dp] (old dp) = .ok (p₂.put [dp] next) := by
          rw [← entry, zero, Plan.index, absent, if_neg (by simp), if_neg (by simp), planned₂]
          rfl
        simp only [there] at unspoiled ⊢
        have extendRoot :=
          Extends.of_root took₂.ready took₂.layout map₃ known took₂.fileBlock fresh₃
        have root : Function.update s.inode.aPage dp next dp = next := Function.update_self _ _ _
        have extend₃ := Extends.of_took took₂ map₂ extendRoot (Set.mem_insert _ _) known root
        have follows₃' := follows₃.put took₂.layout (by rw [took₂.same.esb]; exact lt₂) extendRoot
          root (fun _ _ => rfl) (by rw [took₂.same.esb]; exact heldNext)
        rcases Option.map_eq_some_iff.mp ran with ⟨⟨err, s₁⟩, registered, eq⟩
        simp only [Prod.mk.injEq] at eq
        rcases eq with ⟨rfl, rfl, rfl⟩
        rcases @registerRound start s s₁ group taken rest p old vpn dp fs₂
          (({ s with fs := fs₃ } : Growth).setPointer dp next) _ i _ growing lt located took held
          extend₃ follows₃' (setPointer_pointers growing.pointers took₂.fileBlock.lt)
          ((pointer_setPointer took₂.fileBlock.lt).2.trans growing.bg) ⟨rfl, rfl⟩ root
          (fun _ used => took₂.wasFree used)
          (fun stopped => unspoiled (by simp only [stopped]; rfl)) registered with
          ⟨p', lowered, result⟩
        exact ⟨p'.put (dp :: i :: rest) taken, by simp only [lowered]; rfl, result⟩

/-- The loop of `ext2_create_page` takes the blocks the plan says, round by round. -/
theorem growLoop_spec {left : ℕ} {blocks : List ℕ} (growing : Growing start old group vpn s p)
    (lt : group < s.fs.esb.totalGroups)
    (unspoiled : p.rounds start group old vpn left ≠ .error .spoiled)
    (ran : s.growLoop vpn left = some (0, blocks, s')) :
    ∃ p', p.rounds start group old vpn left = .ok p' ∧
      Growing start old group (vpn + left) s' p' ∧
      Extends s.fs s.inode.aPage (s.fs.esb.filePaths vpn) s'.fs s'.inode.aPage
        (s.fs.esb.filePaths (vpn + left)) ∧
      s'.inode.iIno = s.inode.iIno ∧ blocks.length = left ∧
      (∀ path ∈ s.fs.esb.filePaths (vpn + left), path ∉ s.fs.esb.filePaths vpn →
        ¬s.fs.Used (node s'.inode.aPage s'.fs.word path)) ∧
      ∀ i < left, ∃ dp rest, s.fs.esb.getLocation (vpn + i) = some (dp, rest) ∧
        blocks[i]? = some (node s'.inode.aPage s'.fs.word (dp :: rest)) := by
  induction left generalizing s vpn p blocks with
  | zero =>
      simp only [growLoop, Option.some.injEq, Prod.mk.injEq, true_and] at ran
      rcases ran with ⟨rfl, rfl⟩
      exact ⟨p, rfl, growing, .refl growing.ready growing.layout growing.map, rfl, rfl,
        fun path mem notMem => absurd mem notMem, fun i below => absurd below (Nat.not_lt_zero i)⟩
  | succ left ih =>
      unfold growLoop at ran
      unfold Plan.rounds at unspoiled ⊢
      rcases stepped : s.growStep vpn with _ | ⟨err, blockNo, mid⟩
      · simp [stepped] at ran
      rw [stepped, Option.bind_some] at ran
      by_cases failed : err = 0
      swap
      · simp [failed] at ran
      subst failed
      simp only [ne_eq, not_true_eq_false, if_false] at ran
      rcases Option.map_eq_some_iff.mp ran with ⟨⟨err, more, last⟩, looped, eq⟩
      simp only [Prod.mk.injEq] at eq
      rcases eq with ⟨rfl, rfl, rfl⟩
      rcases growStep_spec growing lt (fun stopped => unspoiled (by simp only [stopped]; rfl))
        stepped with ⟨p₁, planned, growingMid, grown⟩
      rcases grown.leaf with ⟨dp, rest, located, leaf⟩
      have esb := grown.extend.same.esb
      rw [u32_of_lt (getLocation_small growing.ready.layout.valid located)] at looped
      simp only [planned, Except.bind] at unspoiled ⊢
      rcases ih growingMid (by rw [esb]; exact lt) unspoiled looped with
        ⟨p', planned', growingEnd, extend, ino, length, wasFree, leaves⟩
      rw [esb, Nat.add_assoc, Nat.add_comm 1 left] at extend wasFree
      rw [Nat.add_assoc, Nat.add_comm 1 left] at growingEnd
      refine ⟨p', planned', growingEnd, grown.extend.trans extend, ino.trans grown.ino,
        by rw [List.length_cons, length], fun path mem notMem => ?_, fun i below => ?_⟩
      · by_cases between : path ∈ s.fs.esb.filePaths (vpn + 1)
        · rw [extend.nodes path between]
          exact grown.wasFree path between notMem
        · exact fun used => wasFree path mem between (grown.extend.used growing.layout used)
      cases i with
      | zero =>
          refine ⟨dp, rest, located, ?_⟩
          rw [extend.nodes _ (leaf_mem located (Nat.lt_succ_self vpn)), leaf]
          rfl
      | succ i =>
          rcases leaves i (by omega) with ⟨dp', rest', located', leaf'⟩
          rw [esb, Nat.add_assoc, Nat.add_comm 1 i] at located'
          exact ⟨dp', rest', located', leaf'⟩

end Growth

/-! ## Calls -/

namespace Fs

/-- A volume between two calls: the cached block is one of an inode table, and the tables share no
sector with the descriptor table or a copy of the superblock. -/
structure VolumeSound (fs : Fs) : Prop where
  ready : fs.Ready
  layout : fs.BlockLayout
  tables : fs.TableReady
  loaded : fs.itable.group = minusOne32 ∨ fs.itable.group < fs.esb.totalGroups ∧
    fs.InItable fs.itable.group (fs.inodeTableBase fs.itable.group + fs.itable.block)
  recordsApart : ∀ group < fs.esb.totalGroups, ∀ block, fs.InItable group block → ∀ id,
    fs.esb.DescriptorSector id ∨ fs.esb.SuperblockSector id → ¬fs.esb.InBlock block id

/-- The inode of a file is in use, its pointers on the card are those in memory, and its blocks and
index blocks are distinct blocks in use. -/
structure FileSound (fs : Fs) (inode : Inode) : Prop where
  has : fs.HasInode inode.iIno
  allocated : fs.Allocated inode.iIno
  bg : fs.growthGroup inode < fs.esb.totalGroups
  pointers : ∀ dp < 15, pointer (fs.recordByte inode.iIno) dp = inode.aPage dp
  map : fs.FileMap inode.aPage (fs.esb.filePaths inode.iBlocks)

section Sound

variable {fs fs' : Fs} {group block ino k : ℕ} {itable : ItableBlock} {disk : Disk}
  {root root' : ℕ → ℕ} {paths paths' : Set (List ℕ)}

/-- An inode in use is marked in the bitmap that is brought in. -/
theorem Ready.marked (ready : fs.Ready) (has : fs.HasInode ino)
    (allocated : fs.Allocated ino) : fs.Marked ino := by
  rcases loadBitmap_spec ready has.2.2.2 with ⟨bitmap, transfers, loads, _, _, holds⟩
  have room := ready.layout.inodes.1
  have below := has.index_lt
  unfold Marked
  rw [loads, checkIorb_eq, bit_congr (holds (fs.inodeIndex ino / 8) (by omega)).2]
  unfold Allocated inodeBits at allocated
  rw [allocated]
  decide

/-- A call for an inode leaves the volume sound and the bitmaps alone. -/
theorem VolumeSound.call (vol : fs.VolumeSound) (has : fs.HasInode ino) {bitmap : BitmapCache}
    (brought : bitmap = (fs.loadBitmap (fs.inodeGroup ino)).2.bitmap)
    (call : fs.TableCall ino itable disk) :
    ({ fs with bitmap, itable, disk } : Fs).VolumeSound ∧
      Evolves (fs.esb.InBlock (fs.tableBlock ino)) fs { fs with bitmap, itable, disk } ∧
      ∀ g < fs.esb.totalGroups, ∀ k < fs.esb.sBlksize,
        ({ fs with bitmap, itable, disk } : Fs).blockBits g k = fs.blockBits g k := by
  rcases loadBitmap_spec vol.ready has.2.2.2 with ⟨bitmap', transfers, loads, bg, clean, holds⟩
  rw [loads] at brought
  subst brought
  have inTable := vol.tables.layout.inItable has
  have kept : ∀ g < fs.esb.totalGroups, fs.SameBitmaps fs.disk disk g := fun g lt =>
    sameBitmaps_of_itable vol.ready.layout lt has.2.2.2
      (call.touches.mono fun id inside => ⟨_, inTable, inside⟩)
  have same : SameLayout fs { fs with bitmap, itable, disk } :=
    ⟨rfl, fun _ => rfl, fun _ => rfl, fun _ => rfl⟩
  have ready : ({ fs with bitmap, itable, disk } : Fs).Ready :=
    ⟨same.layout vol.ready.layout, call.touches.reliable vol.ready.reliable, ⟨clean, call.clean⟩,
      Or.inr ⟨bg ▸ has.2.2.2, bg ▸ (kept _ has.2.2.2).holds holds⟩⟩
  have bits : ∀ g < fs.esb.totalGroups, ∀ k < fs.esb.sBlksize,
      ({ fs with bitmap, itable, disk } : Fs).blockBits g k = fs.blockBits g k :=
    fun g lt k below => (kept g lt k below).1
  refine ⟨⟨ready, vol.layout.congr same bits, vol.tables.call clean call, Or.inr ?_, ?_⟩,
    ⟨ready, same, call.touches, fun g lt k below => (kept g lt k below).2,
      .of_same same bits (fun _ _ => rfl) rfl⟩, bits⟩
  · rw [call.loaded.1, call.loaded.2]
    exact ⟨has.2.2.2, inTable⟩
  · exact vol.recordsApart

/-- What a file that grows writes is not in the inode tables. -/
theorem VolumeSound.tableBytes (vol : fs.VolumeSound)
    (extend : Extends fs root paths fs' root' paths') (lt : group < fs.esb.totalGroups)
    (inTable : fs.InItable group block) (below : k < fs.esb.sBlksize) :
    fs.esb.blockBytes fs'.disk block k = fs.esb.blockBytes fs.disk block k := by
  apply extend.touches.blockBytes ((vol.ready.layout.onCard group lt).2.2 block inTable) _ below
  rintro id (alloc | ⟨path, i, nonempty, mem, inside⟩) inBlock
  · rcases alloc with descriptor | superblock | ⟨g, gLt, inBlocks | inInodes⟩
    · exact vol.recordsApart group lt block inTable id (Or.inl descriptor) inBlock
    · exact vol.recordsApart group lt block inTable id (Or.inr superblock) inBlock
    · exact (vol.ready.layout.tablesApart g gLt group lt block inTable).1
        (inBlock_unique inBlock inBlocks)
    · exact (vol.ready.layout.tablesApart g gLt group lt block inTable).2
        (inBlock_unique inBlock inInodes)
  · have closed := extend.map.tree.closed
    have good := extend.map.tree.allGood path (closed.parent mem nonempty)
    refine extend.same.apart.mp good.apart id ?_ (extend.same.esb ▸ inside)
    exact Or.inr (Or.inr ⟨group, lt, Or.inr (Or.inr ⟨block, inTable, inBlock⟩)⟩)

theorem SameLayout.tableLayout (same : SameLayout fs fs') (layout : fs.TableLayout) :
    fs'.TableLayout := by
  refine ⟨same.esb ▸ layout.inodeSize, same.esb ▸ layout.inodes, ?_, ?_⟩
  · rw [same.esb]
    intro group lt
    rw [same.blockBitmapBase, same.inodeBitmapBase]
    rcases layout.onCard group lt with ⟨blocks, inodes, tables⟩
    exact ⟨blocks, inodes, fun block inside => tables block ((same.inItable group block).mp inside)⟩
  · rw [same.esb]
    intro group lt other otherLt block inside inOther
    exact layout.tablesApart group lt other otherLt block ((same.inItable group block).mp inside)
      ((same.inItable other block).mp inOther)

/-- The numbers of an inode are those of the geometry. -/
theorem SameLayout.inode (same : SameLayout fs fs') (ino : ℕ) :
    (fs'.HasInode ino ↔ fs.HasInode ino) ∧ fs'.tableBlock ino = fs.tableBlock ino ∧
      fs'.inodeGroup ino = fs.inodeGroup ino ∧ fs'.inodeIndex ino = fs.inodeIndex ino ∧
      fs'.inodeOffset (fs'.inodeIndex ino) = fs.inodeOffset (fs.inodeIndex ino) := by
  simp only [HasInode, tableBlock, inodeGroup, inodeIndex, inodeBlock, inodeOffset, same.esb,
    same.inodeTableBase, and_self]

/-- The inodes in use stay in use. -/
theorem Evolves.allocated {sectors : ℕ → Prop} (evolves : Evolves sectors fs fs')
    (layout : fs.Layout) (has : fs.HasInode ino) (allocated : fs.Allocated ino) :
    fs'.Allocated ino := by
  rcases evolves.same.inode ino with ⟨_, _, group, index, _⟩
  have indexLt := has.index_lt
  have room := layout.inodes.1
  unfold Allocated at allocated ⊢
  rw [group, index, bit_congr (evolves.inodes _ has.2.2.2 _ (by omega))]
  exact allocated

/-- A volume is sound after a file has grown, and its inodes are the same. -/
theorem VolumeSound.extend (vol : fs.VolumeSound)
    (extend : Extends fs root paths fs' root' paths') :
    fs'.VolumeSound ∧ ∀ ino, fs.HasInode ino → ∀ k < fs.esb.inodeSize,
      fs'.recordByte ino k = fs.recordByte ino k := by
  have same := extend.same
  have esb := same.esb
  refine ⟨⟨extend.ready, extend.layout, ⟨same.tableLayout vol.tables.layout, extend.ready.reliable,
    extend.ready.clean, ?_⟩, ?_, ?_⟩, ?_⟩
  · unfold TableCached
    rw [extend.itable, esb]
    rcases vol.tables.cached with unset | cached
    · exact Or.inl unset
    · rcases vol.loaded with unset | ⟨lt, inTable⟩
      · exact Or.inl unset
      · right
        intro k below
        rw [same.inodeTableBase, vol.tableBytes extend lt inTable below]
        exact cached k below
  · rw [extend.itable, esb, same.inodeTableBase]
    exact vol.loaded.imp_right fun ⟨lt, inTable⟩ => ⟨lt, (same.inItable _ _).mpr inTable⟩
  · rw [esb]
    intro group lt block inTable
    exact vol.recordsApart group lt block ((same.inItable group block).mp inTable)
  · intro ino has k below
    rcases same.inode ino with ⟨_, block, _, _, offset⟩
    have inside := vol.tables.layout.offset_le (fs.inodeIndex ino)
    unfold recordByte
    rw [block, offset, esb]
    exact vol.tableBytes extend has.2.2.2 (vol.tables.layout.inItable has) (by omega)

/-- A file keeps its blocks when an inode is read or written. -/
theorem VolumeSound.callMap (vol : fs.VolumeSound) (has : fs.HasInode ino)
    (same : SameLayout fs fs')
    (touches : Touches (fs.esb.InBlock (fs.tableBlock ino)) fs.disk fs'.disk)
    (bits : ∀ g < fs.esb.totalGroups, ∀ k < fs.esb.sBlksize, fs'.blockBits g k = fs.blockBits g k)
    (map : fs.FileMap root paths) :
    fs'.FileMap root paths ∧
      ∀ path ∈ paths, node root fs'.word path = node root fs.word path := by
  have inTable := vol.tables.layout.inItable has
  apply map.mono same
  · intro block good i lt
    refine word_of_touches same touches good.onCard (fun id inTableBlock inBlock => ?_) lt
    exact good.apart id (Or.inr (Or.inr ⟨_, has.2.2.2, Or.inr (Or.inr ⟨_, inTable, inTableBlock⟩)⟩))
      inBlock
  · exact fun block used => (vol.layout.used_iff same bits block).mpr used

end Sound

/-- What a call of `ext2_create_page` has done that returns the number of pages. -/
structure PagesAdded (fs : Fs) (inode : Inode) (cnt : ℕ) (blocks : List ℕ) (inode' : Inode)
    (fs' : Fs) : Prop extends
    Evolves (fun id => fs.AllocSector id ∨ fs.esb.InBlock (fs.tableBlock inode.iIno) id ∨
      fs'.IndexSector inode'.aPage (fs.esb.filePaths (inode.iBlocks + cnt)) id) fs fs' where
  vol : fs'.VolumeSound
  file : fs'.FileSound inode'
  ino : inode'.iIno = inode.iIno
  iBlocks : inode'.iBlocks = inode.iBlocks + cnt
  nodes : ∀ path ∈ fs.esb.filePaths inode.iBlocks,
    node inode'.aPage fs'.word path = node inode.aPage fs.word path
  bits : ∀ g < fs.esb.totalGroups, ∀ i < 8 * fs.esb.sBlksize,
    bit (fs'.blockBits g) i = true ↔ bit (fs.blockBits g) i = true ∨
      i < fs.esb.blocksPerGroup ∧ ∃ path ∈ fs.esb.filePaths (inode.iBlocks + cnt),
        path ∉ fs.esb.filePaths inode.iBlocks ∧
          node inode'.aPage fs'.word path = g * fs.esb.blocksPerGroup + i
  wasFree : ∀ path ∈ fs.esb.filePaths (inode.iBlocks + cnt),
    path ∉ fs.esb.filePaths inode.iBlocks → ¬fs.Used (node inode'.aPage fs'.word path)
  length : blocks.length = cnt
  leaves : ∀ i < cnt, ∃ dp rest, fs.esb.getLocation (inode.iBlocks + i) = some (dp, rest) ∧
    blocks[i]? = some (node inode'.aPage fs'.word (dp :: rest))

section Growths

open Growth

variable {fs fs' : Fs} {inode inode' : Inode} {cnt : ℕ} {blocks : List ℕ}

/-- The fields of a record that the loop reads. -/
theorem record_fields {xinode other : Bytes} (same : ∀ k < inodeSizeValid, xinode k = other k) :
    (∀ dp < 15, pointer xinode dp = pointer other dp) ∧ bgId xinode = bgId other := by
  constructor
  · intro dp lt
    exact readLE_congr fun k _ upper => same k (by unfold inodeSizeValid; omega)
  · exact readLE_congr fun k _ upper => same k (by unfold inodeSizeValid; omega)

/-- The loop starts with the file as it is on the volume. -/
theorem startGrowth_spec (vol : fs.VolumeSound) (file : fs.FileSound inode) :
    ∃ s, fs.startGrowth inode = (0, s) ∧ s.inode = inode ∧ s.fs.VolumeSound ∧
      Growing fs inode.aPage (fs.growthGroup inode) inode.iBlocks s (fs.startPlan inode) ∧
      Evolves (fs.esb.InBlock (fs.tableBlock inode.iIno)) fs s.fs ∧
      s.fs.word = fs.word ∧ s.fs.blockBits = fs.blockBits := by
  rcases vol.tables.readXinode file.has (vol.ready.marked file.has file.allocated) zeros with
    ⟨out, bitmap, itable, transfers, reads, brought, clean, call, bytes⟩
  rcases vol.call file.has brought call with ⟨volMid, evolves, bits⟩
  rcases vol.callMap file.has evolves.same evolves.touches bits file.map with ⟨map, _⟩
  rcases record_fields bytes with ⟨pointers, bg⟩
  refine ⟨⟨_, inode, out, zeros⟩, by rw [startGrowth, reads], rfl, volMid, ?_, evolves, rfl, rfl⟩
  refine ⟨volMid.ready, volMid.layout, map, ?_, ?_, bg, rfl⟩
  · refine ⟨rfl, fun _ _ => rfl, ?_, ?_, fun _ _ => rfl, fun _ _ _ _ _ => rfl, fun _ _ _ _ _ => rfl⟩
    · intro path mem
      exact if_pos (ExtSb.hasPath_iff.mpr mem)
    · intro path notMem
      exact if_neg fun has => notMem (ExtSb.hasPath_iff.mp has)
  · intro dp lt
    rw [pointers dp lt]
    exact file.pointers dp lt

/-- The inode that has grown is written back. -/
theorem finishGrowth_spec {s₀ s : Growth} {p : Plan} (vol : fs.VolumeSound)
    (file : fs.FileSound inode) (volStart : s₀.fs.VolumeSound)
    (evolves : Evolves (fs.esb.InBlock (fs.tableBlock inode.iIno)) fs s₀.fs)
    (words : s₀.fs.word = fs.word) (blockBits : s₀.fs.blockBits = fs.blockBits)
    (growing : Growing fs inode.aPage (fs.growthGroup inode) (inode.iBlocks + cnt) s p)
    (extend : Extends s₀.fs inode.aPage (fs.esb.filePaths inode.iBlocks) s.fs s.inode.aPage
      (fs.esb.filePaths (inode.iBlocks + cnt)))
    (ino : s.inode.iIno = inode.iIno) (length : blocks.length = cnt)
    (wasFree : ∀ path ∈ fs.esb.filePaths (inode.iBlocks + cnt),
      path ∉ fs.esb.filePaths inode.iBlocks → ¬s₀.fs.Used (node s.inode.aPage s.fs.word path))
    (leaves : ∀ i < cnt, ∃ dp rest, fs.esb.getLocation (inode.iBlocks + i) = some (dp, rest) ∧
      blocks[i]? = some (node s.inode.aPage s.fs.word (dp :: rest))) (sectors : ℕ) :
    ∃ fs', s.fs.writeXinode s.inode.iIno (write32 s.xinode 28 sectors) = (0, fs') ∧
      PagesAdded fs inode cnt blocks s.inode fs' := by
  have volLoop := (volStart.extend extend).1
  have sameLoop := evolves.same.trans extend.same
  have esb := sameLoop.esb
  have hasStart := (evolves.same.inode _).1.mpr file.has
  have has := (sameLoop.inode _).1.mpr file.has
  have allocated := extend.toEvolves.allocated volStart.ready.layout hasStart
    (evolves.allocated vol.ready.layout file.has file.allocated)
  rcases volLoop.tables.writeXinode has (volLoop.ready.marked has allocated)
    (write32 s.xinode 28 sectors) with
    ⟨bitmap, itable, disk, writes, brought, clean, call, image⟩
  rcases volLoop.call has brought call with ⟨volEnd, evolvesEnd, bitsEnd⟩
  have map := growing.map
  rw [esb] at map
  rcases volLoop.callMap has evolvesEnd.same evolvesEnd.touches bitsEnd map with ⟨mapEnd, nodesEnd⟩
  have record : ∀ k < inodeSizeValid,
      ({ s.fs with bitmap, itable, disk } : Fs).recordByte inode.iIno k =
        write32 s.xinode 28 sectors k := fun k lt =>
    (call.recordByte_same volLoop.tables.layout image
      (lt.trans_le volLoop.tables.layout.inodeSize.1)).trans (if_pos lt)
  rcases record_fields record with ⟨pointers, bg⟩
  have index : ∀ id, s.fs.IndexSector s.inode.aPage (fs.esb.filePaths (inode.iBlocks + cnt)) id →
      ({ s.fs with bitmap, itable, disk } : Fs).IndexSector s.inode.aPage
        (fs.esb.filePaths (inode.iBlocks + cnt)) id := by
    rintro id ⟨path, i, nonempty, mem, inside⟩
    refine ⟨path, i, nonempty, mem, ?_⟩
    rw [nodesEnd path (map.tree.closed.parent mem nonempty)]
    exact inside
  rw [ino]
  refine ⟨_, writes,
    { toEvolves := ?_
      vol := volEnd
      file := ⟨?_, ?_, ?_, ?_, ?_⟩
      ino := ino
      iBlocks := growing.blocks
      nodes := ?_
      bits := ?_
      wasFree := ?_
      length := length
      leaves := ?_ }⟩
  · refine (evolves.mono fun id inside => Or.inr (Or.inl inside)).trans
      ((extend.toEvolves.mono fun id inside => ?_).trans (evolvesEnd.mono fun id inside => ?_))
    · exact inside.imp evolves.same.allocSector.mp fun inIndex => Or.inr (index id inIndex)
    · rw [esb, (sameLoop.inode _).2.1] at inside
      exact Or.inr (Or.inl inside)
  · rw [ino]
    exact has
  · rw [ino]
    exact evolvesEnd.allocated volLoop.ready.layout has allocated
  · rw [growthGroup, ino, bg, bgId, readLE_writeLE_of_disjoint s.xinode (by decide)]
    exact (growing.bg ▸ file.bg : bgId s.xinode < fs.esb.totalGroups).trans_eq (by rw [esb])
  · intro dp lt
    rw [ino, pointers dp lt, ← growing.pointers dp lt]
    exact readLE_writeLE_of_disjoint s.xinode (by omega)
  · rw [growing.blocks]
    exact (esb.symm ▸ mapEnd :)
  · intro path mem
    rw [nodesEnd path (extend.subset mem), extend.nodes path mem, words]
  · intro g lt i below
    have loop := extend.bits g (by rw [evolves.same.esb]; exact lt) i
      (by rw [evolves.same.esb]; exact below)
    rw [blockBits, evolves.same.esb] at loop
    rw [bit_congr (bitsEnd g (by rw [esb]; exact lt) (i / 8) (by rw [esb]; omega)), loop]
    refine or_congr_right (and_congr_right fun _ => ?_)
    refine exists_congr fun path => and_congr_right fun mem => ?_
    rw [nodesEnd path mem]
  · intro path mem notMem used
    rw [nodesEnd path mem] at used
    refine wasFree path mem notMem ((vol.layout.used_iff evolves.same ?_ _).mpr used)
    rw [blockBits]
    exact fun _ _ _ _ => rfl
  · intro i lt
    rcases leaves i lt with ⟨dp, rest, located, eq⟩
    refine ⟨dp, rest, located, ?_⟩
    rw [nodesEnd _ (ExtSb.leaf_mem located (by omega))]
    exact eq

/-- A call of `ext2_create_page` that returns the number of pages has added them, if the words it
looks at for index blocks that are not there are 0. -/
theorem createPages_spec (vol : fs.VolumeSound) (file : fs.FileSound inode)
    (unspoiled : fs.Unspoiled inode cnt)
    (created : fs.createPages inode cnt = some (cnt, blocks, inode', fs')) :
    fs.PagesAdded inode cnt blocks inode' fs' := by
  rcases startGrowth_spec vol file with
    ⟨s₀, starts, inodeStart, volStart, growing, evolves, words, blockBits⟩
  have esb := evolves.same.esb
  simp only [createPages, starts, ne_eq, not_true_eq_false, if_false] at created
  rcases Option.map_eq_some_iff.mp created with ⟨⟨err, taken, s⟩, looped, eq⟩
  have success : err = 0 := by
    by_contra failed
    simp only [failed, not_false_eq_true, if_true, Prod.mk.injEq] at eq
    rw [← eq.1] at looped
    simp only [growLoop, Option.some.injEq, Prod.mk.injEq] at looped
    exact failed looped.1.symm
  subst success
  rcases growLoop_spec growing (by rw [esb]; exact file.bg) (fun stopped => by
    rw [Unspoiled, stopped] at unspoiled
    exact unspoiled) looped with ⟨p, _, growingEnd, extend, ino, length, wasFree, leaves⟩
  rw [esb, inodeStart] at extend
  rw [esb] at leaves wasFree
  rw [inodeStart] at ino
  rcases finishGrowth_spec vol file volStart evolves words blockBits growingEnd extend ino length
    wasFree leaves (u32 (s.inode.iBlocks * s.fs.esb.sectsPerBlock)) with ⟨after, writes, added⟩
  simp only [not_true_eq_false, if_false, writes, Prod.mk.injEq, true_and] at eq
  rcases eq with ⟨rfl, rfl, rfl⟩
  exact added

/-! ## The block map -/

theorem Reads.trans {mid : Fs} (left : Reads fs mid) (right : Reads mid fs') : Reads fs fs' := by
  rcases left with ⟨transfers, rfl⟩
  rcases right with ⟨transfers', rfl⟩
  exact ⟨transfers', rfl⟩

/-- `ext2_bmap` follows the words of the index blocks. -/
theorem followMap_spec {root : ℕ → ℕ} {paths : Set (List ℕ)} {path rest : List ℕ} {block : ℕ}
    (ready : fs.Ready) (layout : fs.BlockLayout) (map : fs.FileMap root paths)
    (nonempty : path ≠ []) (mem : path ++ rest ∈ paths) (here : node root fs.word path = block)
    (buf : Bytes) :
    ∃ fs', fs.followMap buf block rest = (node root fs.word (path ++ rest), fs') ∧
      Reads fs fs' := by
  induction rest generalizing fs path block buf with
  | nil => exact ⟨fs, by rw [followMap, List.append_nil, here], fs.disk.transfers, rfl⟩
  | cons i rest ih =>
      subst here
      have inPaths := map.tree.closed.front mem nonempty
      have iLt : i < fs.esb.pointersPerBlock := by
        have longer : path ++ [i] ++ rest ∈ paths := by simpa using mem
        exact map.inside (map.tree.closed.front longer (by simp)) nonempty
      rcases readBlock_block ready.reliable (map.tree.allGood path inPaths).onCard buf with
        ⟨buf', transfers, read, bytes⟩
      have word : read32 buf' (4 * i) = fs.word (node root fs.word path) i :=
        fs.word_of_bytes bytes iLt
      have reads : Reads fs { fs with disk := { fs.disk with transfers } } := ⟨transfers, rfl⟩
      have after := Extends.of_reads ready layout map reads
      rcases ih after.ready after.layout after.map (show path ++ [i] ≠ [] by simp)
        (by simpa using mem) (node_concat nonempty) buf' with ⟨fs', follows, readsRest⟩
      refine ⟨fs', ?_, reads.trans readsRest⟩
      rw [followMap, read]
      simp only [word, ne_eq, not_true_eq_false, if_false]
      rw [List.append_assoc, List.singleton_append] at follows
      exact follows

/-- `ext2_bmap` of a page of the file is the block at the end of its path. -/
theorem bmap_eq {vpn : ℕ} (vol : fs.VolumeSound) (file : fs.FileSound inode)
    (lt : vpn < inode.iBlocks) :
    (fs.bmap inode vpn).map (·.1) = some
      (match fs.esb.getLocation vpn with
        | none => minusOne32
        | some (dp, rest) => node inode.aPage fs.word (dp :: rest)) := by
  simp only [bmap, Nat.not_le.mpr lt, if_false, Option.map_some, ne_eq, not_true_eq_false]
  rcases located : fs.esb.getLocation vpn with _ | ⟨dp, rest⟩
  · rfl
  · rcases followMap_spec vol.ready vol.layout file.map (List.cons_ne_nil dp [])
      (ExtSb.leaf_mem located lt) rfl zeros with ⟨fs', follows, _⟩
    rw [node_singleton] at follows
    simp only [follows]
    rfl

/-- An index block of a file. -/
def IndexBlock (fs : Fs) (inode : Inode) (block : ℕ) : Prop :=
  ∃ path i, path ≠ [] ∧ path ++ [i] ∈ fs.esb.filePaths inode.iBlocks ∧
    node inode.aPage fs.word path = block

/-- The block map has grown by the blocks taken for the pages, which are distinct, and what has
been written is metadata and index blocks of the file. These are in use, and before the call no
other block that was. -/
structure MapGrows (fs : Fs) (inode : Inode) (cnt : ℕ) (blocks : List ℕ) (inode' : Inode)
    (fs' : Fs) : Prop where
  before : ∀ vpn < inode.iBlocks,
    (fs'.bmap inode' vpn).map (·.1) = (fs.bmap inode vpn).map (·.1)
  length : blocks.length = cnt
  pages : ∀ i < cnt, (fs'.bmap inode' (inode.iBlocks + i)).map (·.1) = blocks[i]?
  distinct : blocks.Nodup
  written : ∃ log, fs'.disk.written = log ++ fs.disk.written ∧ ∀ id ∈ log, fs.MetaSector id ∨
    ∃ block, fs'.IndexBlock inode' block ∧ fs.esb.InBlock block id ∧ fs'.Used block ∧
      (fs.Used block → fs.IndexBlock inode block)

/-- While the words looked at for index blocks that are not there are 0, the block map of a file
grows as it should. -/
theorem mapGrows_of_unspoiled (vol : fs.VolumeSound) (file : fs.FileSound inode)
    (unspoiled : fs.Unspoiled inode cnt)
    (created : fs.createPages inode cnt = some (cnt, blocks, inode', fs')) :
    MapGrows fs inode cnt blocks inode' fs' := by
  have added := createPages_spec vol file unspoiled created
  have esb := added.same.esb
  have leafMem : ∀ {i dp rest}, i < cnt → fs.esb.getLocation (inode.iBlocks + i) = some (dp, rest) →
      dp :: rest ∈ fs'.esb.filePaths inode'.iBlocks := by
    intro i dp rest lt located
    rw [esb, added.iBlocks]
    exact ExtSb.leaf_mem located (by omega)
  refine ⟨?_, added.length, ?_, ?_, ?_⟩
  · intro vpn lt
    rw [bmap_eq vol file lt, bmap_eq added.vol added.file (by rw [added.iBlocks]; omega), esb]
    rcases located : fs.esb.getLocation vpn with _ | ⟨dp, rest⟩
    · rfl
    · simp only [added.nodes _ (ExtSb.leaf_mem located lt)]
  · intro i lt
    rcases added.leaves i lt with ⟨dp, rest, located, eq⟩
    rw [bmap_eq added.vol added.file (by rw [added.iBlocks]; omega), esb, located, eq]
  · rw [List.nodup_iff_getElem?_ne_getElem?]
    intro i j iLt jLt same
    rw [added.length] at jLt
    rcases added.leaves i (iLt.trans jLt) with ⟨dp, rest, located, eq⟩
    rcases added.leaves j jLt with ⟨dp', rest', located', eq'⟩
    rw [eq, eq', Option.some.injEq] at same
    have paths := added.file.map.tree.distinct (leafMem (iLt.trans jLt) located)
      (leafMem jLt located') same
    cases paths
    have pages := ExtSb.getLocation_injective located located'
    omega
  · rcases added.touches.written with ⟨log, eq, inside⟩
    refine ⟨log, eq, fun id mem => ?_⟩
    rcases inside id mem with alloc | inTable | ⟨path, i, nonempty, longer, inBlock⟩
    · exact Or.inl alloc.metaSector
    · exact Or.inl (Or.inr (Or.inr ⟨_, file.has.2.2.2, Or.inr (Or.inr
        ⟨_, vol.tables.layout.inItable file.has, inTable⟩)⟩))
    · right
      rw [esb] at inBlock
      have longer' := longer
      rw [← esb, ← added.iBlocks] at longer'
      have closed := added.file.map.tree.closed
      have mem' := closed.parent longer' nonempty
      refine ⟨_, ⟨path, i, nonempty, longer', rfl⟩, inBlock,
        (added.file.map.tree.allGood path mem').used, fun used => ?_⟩
      by_cases old : path ∈ fs.esb.filePaths inode.iBlocks
      · rcases ExtSb.index_of_mem old longer with ⟨j, inOld⟩
        exact ⟨path, j, nonempty, inOld, (added.nodes path old).symm⟩
      · rw [esb, added.iBlocks] at mem'
        exact absurd used (added.wasFree path mem' old)

end Growths

/-! ## A file of 268 pages -/

/-- One group whose first inode has pages in blocks 20 to 31 and, by the index block 32, in blocks
40 to 295. Blocks 300 to 303 are free, and the first word of block 301 is 303 if it is left over
from an earlier use. -/
def indexedGroup (leftOver : Bool) : Fs :=
  { oneGroup with
    disk :=
      { oneGroup.disk with
        sector := fun id k =>
          if id = 6 ∧ k = 37 then 0x0f
          else if id = 10 then
            if 40 ≤ k ∧ k < 92 ∧ k % 4 = 0 then UInt8.ofNat (20 + (k - 40) / 4) else 0
          else if id = 64 ∨ id = 65 then
            let i := (512 * (id - 64) + k) / 4
            if k % 4 = 0 then UInt8.ofNat (40 + i)
            else if k % 4 = 1 then UInt8.ofNat ((40 + i) / 256) else 0
          else if id = 602 ∨ id = 603 then
            if leftOver ∧ id = 602 ∧ k = 0 then 47 else if leftOver ∧ id = 602 ∧ k = 1 then 1 else 0
          else oneGroup.disk.sector id k }
    dpttable := setDptField oneGroup.dpttable 0 12 2 4
    totalUnallocBlocks := 4 }

/-- Its first inode. -/
def indexedFile : Inode where
  iIno := 1
  iBlocks := 268
  aPage dp := if dp ≤ 12 then 20 + dp else 0

section Indexed

variable {leftOver : Bool}

theorem indexedGroup_same : SameLayout oneGroup (indexedGroup leftOver) :=
  (@sameLayout_of_unallocBlocks oneGroup 0 (indexedGroup leftOver) 4 rfl rfl).1

theorem oneGroup_esb : oneGroup.esb.sBase = 0 ∧ oneGroup.esb.sectsPerBlock = 2 ∧
    oneGroup.esb.blocksPerGroup = 8192 ∧ oneGroup.esb.sBlksize = 1024 :=
  ⟨rfl, rfl, rfl, rfl⟩

theorem indexedGroup_only {group : ℕ} (lt : group < (indexedGroup leftOver).esb.totalGroups) :
    group = 0 := Nat.lt_one_iff.mp lt

theorem indexedGroup_inBlock {block id : ℕ}
    (inside : (indexedGroup leftOver).esb.InBlock block id) : id / 2 = block := by
  have place := inside.2
  rw [indexedGroup_same.esb, oneGroup_esb.1, oneGroup_esb.2.1, Nat.sub_zero] at place
  exact place

theorem indexedGroup_inItable {block : ℕ} (inside : (indexedGroup leftOver).InItable 0 block) :
    5 ≤ block ∧ block < 7 := by
  rw [indexedGroup_same.inItable] at inside
  rcases inside with ⟨index, below, rfl⟩
  rw [oneGroup_bases.2.2.1, oneGroup_esb.2.2.2]
  change index < 16 at below
  change 5 ≤ 5 + index * 128 / 1024 ∧ 5 + index * 128 / 1024 < 7
  omega

theorem indexedGroup_recordSector {id : ℕ} (inside :
    (indexedGroup leftOver).esb.DescriptorSector id ∨
      (indexedGroup leftOver).esb.SuperblockSector id) : id < 6 := by
  rw [indexedGroup_same.esb] at inside
  rcases inside with descriptor | primary | ⟨copy, mem, _⟩
  · exact descriptor.2
  · rw [primary]
    decide
  · exact absurd mem List.not_mem_nil

/-- The metadata lies in the first sectors. -/
theorem indexedGroup_metaSector {id : ℕ} (inside : (indexedGroup leftOver).MetaSector id) :
    id < 14 := by
  rw [MetaSector, ← or_assoc] at inside
  rcases inside with record | ⟨group, lt, inside⟩
  · have below := indexedGroup_recordSector record
    omega
  · rw [indexedGroup_only lt, indexedGroup_same.blockBitmapBase, indexedGroup_same.inodeBitmapBase,
      oneGroup_bases.1, oneGroup_bases.2.1] at inside
    rcases inside with inBlocks | inInodes | ⟨block, inTable, inBlock⟩
    · have place := indexedGroup_inBlock inBlocks
      omega
    · have place := indexedGroup_inBlock inInodes
      omega
    · have below := indexedGroup_inItable inTable
      have place := indexedGroup_inBlock inBlock
      omega

theorem indexedGroup_apart {block : ℕ} (behind : 7 ≤ block) :
    (indexedGroup leftOver).Apart block := by
  intro id inside inBlock
  have below := indexedGroup_metaSector inside
  have place := indexedGroup_inBlock inBlock
  omega

theorem indexedGroup_onCard {block : ℕ} (below : block < 8192) :
    (indexedGroup leftOver).esb.OnCard block := by
  rw [indexedGroup_same.esb, ExtSb.OnCard, oneGroup_esb.1, oneGroup_esb.2.1]
  omega

theorem indexedGroup_bytes (leftOver : Bool) :
    (∀ byte < 1024, byte ≠ 37 → (indexedGroup leftOver).blockBits 0 byte = 0xff) ∧
      (∀ i < 4, bit ((indexedGroup leftOver).blockBits 0) (296 + i) = true) ∧
      ∀ i < 256, (indexedGroup leftOver).word 32 i = 40 + i := by
  cases leftOver <;> decide +kernel

/-- Four blocks are free. -/
theorem indexedGroup_free {i : ℕ} (below : i < 8192)
    (free : bit ((indexedGroup leftOver).blockBits 0) i = false) : 300 ≤ i ∧ i < 304 := by
  rcases indexedGroup_bytes leftOver with ⟨full, low, _⟩
  have byte : i / 8 = 37 := by
    by_contra ne
    have set := byte_full.mp (full (i / 8) (by omega) ne) (i % 8) (Nat.mod_lt _ (by decide))
    rw [bit, set] at free
    exact absurd free (by decide)
  refine ⟨?_, by omega⟩
  by_contra small
  have set := low (i - 296) (by omega)
  rw [show 296 + (i - 296) = i by omega, free] at set
  exact absurd set (by decide)

theorem indexedGroup_sound : (indexedGroup leftOver).VolumeSound := by
  have same := @indexedGroup_same leftOver
  have layout := same.layout oneGroup_layout
  refine ⟨⟨layout, fun _ _ _ => rfl, ⟨rfl, rfl⟩, Or.inl rfl⟩, ⟨?_, ?_, ?_⟩,
    ⟨same.tableLayout Table.oneGroup_start.1.layout, fun _ _ _ => rfl, ⟨rfl, rfl⟩, Or.inl rfl⟩,
    Or.inl rfl, ?_⟩
  · rw [same.esb]
    decide
  · rw [same.esb]
    intro group lt i behind below
    rw [oneGroup_esb.2.2.1] at behind
    rw [oneGroup_esb.2.2.2] at below
    omega
  · intro group lt i below free
    rw [indexedGroup_only lt] at free ⊢
    rw [same.esb, oneGroup_esb.2.2.1] at below
    have place := indexedGroup_free below free
    rw [Nat.zero_mul, Nat.zero_add]
    exact ⟨indexedGroup_onCard (by omega), indexedGroup_apart (by omega), by omega⟩
  · intro group lt block inTable id record inBlock
    rw [indexedGroup_only lt] at inTable
    have above := indexedGroup_inItable inTable
    have below := indexedGroup_recordSector record
    have place := indexedGroup_inBlock inBlock
    omega

/-- The paths of the file and their blocks. -/
theorem indexedFile_paths {path : List ℕ}
    (mem : path ∈ (indexedGroup leftOver).esb.filePaths indexedFile.iBlocks) :
    (∃ dp ≤ 12, path = [dp] ∧
        node indexedFile.aPage (indexedGroup leftOver).word path = 20 + dp) ∨
      ∃ i < 256, path = [12, i] ∧
        node indexedFile.aPage (indexedGroup leftOver).word path = 40 + i := by
  have direct : ∀ dp ≤ 12, node indexedFile.aPage (indexedGroup leftOver).word [dp] = 20 + dp :=
    fun dp le => if_pos le
  rw [indexedGroup_same.esb] at mem
  rcases mem with ⟨nonempty, vpn, lt, dp, rest, located, isPrefix⟩
  change vpn < 268 at lt
  have pointers : oneGroup.esb.pointersPerBlock = 256 := rfl
  unfold ExtSb.getLocation at located
  simp only [pointers] at located
  split at located
  · cases located
    rcases List.prefix_cons_iff.mp isPrefix with rfl | ⟨t, rfl, front⟩
    · exact absurd rfl nonempty
    · rw [List.prefix_nil.mp front]
      exact Or.inl ⟨vpn, by omega, rfl, direct vpn (by omega)⟩
  · cases located
    rcases List.prefix_cons_iff.mp isPrefix with rfl | ⟨t, rfl, front⟩
    · exact absurd rfl nonempty
    · rcases List.prefix_cons_iff.mp front with rfl | ⟨t', rfl, front'⟩
      · exact Or.inl ⟨12, le_rfl, rfl, direct 12 le_rfl⟩
      · rw [List.prefix_nil.mp front']
        refine Or.inr ⟨vpn - 12, by omega, rfl, ?_⟩
        exact (indexedGroup_bytes leftOver).2.2 (vpn - 12) (by omega)

theorem indexedFile_block {block : ℕ} (behind : 20 ≤ block) (below : block < 300) :
    (indexedGroup leftOver).FileBlock block := by
  refine ⟨indexedGroup_onCard (by omega), indexedGroup_apart (by omega), by omega, ?_⟩
  rw [Used, indexedGroup_same.esb, oneGroup_esb.2.2.1, Nat.div_eq_of_lt (by omega),
    Nat.mod_eq_of_lt (by omega)]
  refine ⟨Nat.zero_lt_one, ?_⟩
  by_contra free
  have place := indexedGroup_free (by omega) (Bool.eq_false_iff.mpr free)
  omega

theorem indexedFile_sound : (indexedGroup leftOver).FileSound indexedFile := by
  refine ⟨?_, ?_, ?_, ?_, ⟨⟨ExtSb.filePaths_closed _ _, ?_, ?_⟩, ?_⟩⟩
  · cases leftOver <;> decide +kernel
  · unfold Allocated
    cases leftOver <;> decide +kernel
  · cases leftOver <;> decide +kernel
  · cases leftOver <;> decide +kernel
  · intro path mem other otherMem same
    rcases indexedFile_paths mem with ⟨dp, le, rfl, here⟩ | ⟨i, lt, rfl, here⟩
    all_goals
      rcases indexedFile_paths otherMem with ⟨dp', le', rfl, here'⟩ | ⟨i', lt', rfl, here'⟩
    all_goals rw [here, here'] at same
    · rw [Nat.add_left_cancel same]
    · omega
    · omega
    · rw [Nat.add_left_cancel same]
  · intro path mem
    rcases indexedFile_paths mem with ⟨dp, le, rfl, here⟩ | ⟨i, lt, rfl, here⟩
    all_goals
      rw [here]
      exact indexedFile_block (by omega) (by omega)
  · intro path i mem nonempty
    rcases indexedFile_paths mem with ⟨dp, le, eq, _⟩ | ⟨j, lt, eq, _⟩
    · exact absurd (List.append_eq_singleton_iff.mp eq) (by simp [nonempty])
    · have last := (List.append_inj' (eq.trans (show [12, j] = [12] ++ [j] from rfl)) rfl).2
      cases last
      rw [indexedGroup_same.esb]
      exact lt

end Indexed

/-- The page behind the first 268 gets block 300, and both index blocks above it are new. -/
theorem mapGrows_of_unspoiled_indexed :
    ∃ inode' fs', (indexedGroup false).createPages indexedFile 1 = some (1, [300], inode', fs') ∧
      MapGrows (indexedGroup false) indexedFile 1 [300] inode' fs' := by
  have runs : ((indexedGroup false).createPages indexedFile 1).map (fun r => (r.1, r.2.1)) =
      some (1, [300]) := by
    decide +kernel
  rcases Option.map_eq_some_iff.mp runs with ⟨⟨pages, blocks, inode', fs'⟩, created, eq⟩
  simp only [Prod.mk.injEq] at eq
  rcases eq with ⟨rfl, rfl⟩
  have vol := @indexedGroup_sound false
  have file := @indexedFile_sound false
  exact ⟨inode', fs', created, mapGrows_of_unspoiled vol file (by decide +kernel) created⟩

/-- With a word left over in the index block it takes, the call writes to block 303, which is
free. -/
theorem indexedGroup_spoiled :
    (indexedGroup true).VolumeSound ∧ (indexedGroup true).FileSound indexedFile ∧
      ∃ inode' fs', (indexedGroup true).createPages indexedFile 1 = some (1, [300], inode', fs') ∧
        ¬MapGrows (indexedGroup true) indexedFile 1 [300] inode' fs' := by
  refine ⟨indexedGroup_sound, indexedFile_sound, ?_⟩
  have runs : ((indexedGroup true).createPages indexedFile 1).map (fun r => (r.1, r.2.1,
      bit (r.2.2.2.blockBits 0) 303, decide (606 ∈ r.2.2.2.disk.written),
      decide (r.2.2.2.esb.blocksPerGroup = 8192))) = some (1, [300], false, true, true) := by
    decide +kernel
  rcases Option.map_eq_some_iff.mp runs with ⟨⟨pages, blocks, inode', fs'⟩, created, eq⟩
  simp only [Prod.mk.injEq, decide_eq_true_eq] at eq
  rcases eq with ⟨rfl, rfl, free, written, perGroup⟩
  refine ⟨inode', fs', created, fun grows => ?_⟩
  rcases grows.written with ⟨log, eq, inside⟩
  have start : (indexedGroup true).disk.written = [] := rfl
  rw [eq, start, List.append_nil] at written
  rcases inside 606 written with inMeta | ⟨block, _, inBlock, used, _⟩
  · exact absurd (indexedGroup_metaSector inMeta) (by decide)
  · have place := indexedGroup_inBlock inBlock
    rw [← place, Used, perGroup] at used
    exact absurd (used.2.symm.trans free) (by decide)

end Fs

end Ninix.Ext2
