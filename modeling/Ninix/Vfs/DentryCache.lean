import Mathlib.Data.List.Find
import Mathlib.Logic.Function.Basic
import Mathlib.Tactic.SplitIfs
import Ninix.Fat32.Listing
import Ninix.Library.Reachability

/-!
# The cache of dentries

`do_lookup` and `do_lookup_create` look for a dentry of the name and the parent in the cache. When
there is none they make one, which goes into the cache at once, and let the file system look for
the file of the type that is asked for. The dentry stays there whether the file is found or not,
so the type that the first lookup of a name asks for answers the later ones too. The roots and the
mount point that `init_vfs` leaves are in the cache before any lookup.
-/

namespace Ninix.Vfs

open TransitionSystem

/-- `CACHE_HASHSIZE` -/
def cacheHashsize : ℕ := 64

/-- `i_op->lookup`, which does not regard the case of letters. -/
structure InodeOps (Inode : Type) where
  lookup : Inode → Qstr → LastType → Option Inode
  lookup_congr : ∀ dir first second type, genericCheckFilename first second →
    lookup dir first type = lookup dir second type

/-- What a name is looked up with: the dentry of the directory, the name and the type, and
whether `kmalloc` has memory for a dentry and for an inode. -/
structure Request where
  parent : ℕ
  name : Qstr
  type : LastType
  dentryMemory : Bool
  inodeMemory : Bool

/-- `struct dentry` -/
structure Dentry (Inode : Type) where
  dName : Qstr
  dInode : Option Inode
  dParent : ℕ

/-- The dentries, and the lists of `c_hashtable`. -/
structure DCache (Inode : Type) where
  dentries : ℕ → Dentry Inode
  buckets : ℕ → List ℕ
  unused : ℕ

namespace DCache

variable {Inode : Type} (fs : InodeOps Inode) (s : DCache Inode)

/-- `dcache_look_up` -/
def lookUp (name : Qstr) (parent : ℕ) : Option ℕ :=
  (s.buckets (stringHash name cacheHashsize)).find? fun d =>
    genericCheckFilename (s.dentries d).dName name && (s.dentries d).dParent = parent

/-- `dcache_add` -/
def add (d : ℕ) : DCache Inode :=
  let hash := stringHash (s.dentries d).dName cacheHashsize
  { s with buckets := Function.update s.buckets hash (d :: s.buckets hash) }

def setDentry (d : ℕ) (dentry : Dentry Inode) : DCache Inode :=
  { s with dentries := Function.update s.dentries d dentry }

/-- `d_alloc` with memory -/
def dAlloc (name : Qstr) (parent : ℕ) : ℕ × DCache Inode :=
  let new := s.unused
  let s := { s with unused := new + 1 }
  (new, (s.setDentry new { dName := name, dInode := none, dParent := parent }).add new)

/-- What both lookups do when the name is not in the cache: the new dentry, and whether the file
is found. Without an inode the parent cannot be looked in. -/
def lookupNew (r : Request) : Option (ℕ × Bool × DCache Inode) :=
  let (new, s) := s.dAlloc r.name r.parent
  (s.dentries r.parent).dInode.map fun dir =>
    if r.inodeMemory then
      match fs.lookup dir (s.dentries new).dName r.type with
      | some inode => (new, true, s.setDentry new { s.dentries new with dInode := some inode })
      | none => (new, false, s)
    else (new, false, s)

/-- `do_lookup`, with the dentry it puts in the path -/
def doLookup (r : Request) : Option (Option ℕ × DCache Inode) :=
  match s.lookUp r.name r.parent with
  | some this => some (some this, s)
  | none =>
      if r.dentryMemory then
        (s.lookupNew fs r).map fun (new, found, s) => (if found then some new else none, s)
      else some (none, s)

/-- `do_lookup_create` -/
def doLookupCreate (r : Request) : Option (Option ℕ × DCache Inode) :=
  match s.lookUp r.name r.parent with
  | some dentry => some (some dentry, s)
  | none =>
      if r.dentryMemory then (s.lookupNew fs r).map fun (new, _, s) => (some new, s)
      else some (none, s)

end DCache

/-- Calls that look names up. -/
inductive LookupOp
  | doLookup (r : Request)
  | doLookupCreate (r : Request)

def LookupOp.request : LookupOp → Request
  | .doLookup r | .doLookupCreate r => r

/-- A partition of the card, with the inode of the root of its file system. -/
inductive Partition (Inode : Type)
  | fat32 (root : Inode)
  | ext2 (root : Inode)

/-- The name of the root of FAT32. -/
def slash : Qstr := .ofList [0x2f]

/-- The name of the root of EXT2, `ext2/`. -/
def ext2Slash : Qstr := .ofList [0x65, 0x78, 0x74, 0x32, 0x2f]

/-- The name of the place where EXT2 is mounted, `ext2`. -/
def ext2Name : Qstr := .ofList [0x65, 0x78, 0x74, 0x32]

/-- `init_vfs` on its way: the cache, `root_dentry`, and the roots in the list of `root_mount`, the
last one first. -/
structure Mounting (Inode : Type) where
  cache : DCache Inode
  rootDentry : Option ℕ
  mounts : List ℕ

namespace DCache

variable {Inode : Type}

/-- The cache that `init_cache` leaves. -/
def empty : DCache Inode := ⟨fun d => ⟨slash, none, d⟩, fun _ => [], 0⟩

/-- The root of a file system, which is its own parent. It gets its inode in the cache. -/
def addRoot (s : DCache Inode) (name : Qstr) (inode : Inode) : ℕ × DCache Inode :=
  let new := s.unused
  let s := { s with unused := new + 1 }
  let s := (s.setDentry new { dName := name, dInode := none, dParent := new }).add new
  (new, s.setDentry new { s.dentries new with dInode := some inode })

end DCache

namespace Mounting

variable {Inode : Type} (m : Mounting Inode)

/-- `fat32_init` and `ext2_init`. A root of FAT32 is the new `root_dentry`; one of EXT2 goes into
the list of `root_mount`, which there must be. -/
def init : Partition Inode → Option (Mounting Inode)
  | .fat32 root =>
      let (new, cache) := m.cache.addRoot slash root
      some { cache, rootDentry := some new, mounts := [] }
  | .ext2 root => m.rootDentry.map fun rootDentry =>
      let (new, cache) := m.cache.addRoot ext2Slash root
      { cache, rootDentry := some rootDentry, mounts := new :: m.mounts }

/-- `mount_ext2` -/
def mountExt2 : Option (DCache Inode) :=
  m.rootDentry.bind fun rootDentry => m.mounts.head?.map fun mntRoot =>
    let (new, s) := m.cache.dAlloc ext2Name rootDentry
    s.setDentry new { s.dentries new with dInode := (s.dentries mntRoot).dInode }

end Mounting

/-- `init_vfs` with memory and without errors of the card. -/
def initVfs {Inode : Type} (partitions : List (Partition Inode)) : Option (DCache Inode) :=
  (partitions.foldlM Mounting.init ⟨.empty, none, []⟩).bind Mounting.mountExt2

namespace DCache

variable {Inode : Type} (fs : InodeOps Inode)

def step (s : DCache Inode) : LookupOp → Option (DCache Inode)
  | .doLookup r => (s.doLookup fs r).map (·.2)
  | .doLookupCreate r => (s.doLookupCreate fs r).map (·.2)

/-- `do_lookup` yields a dentry with an inode. -/
def Yields (s : DCache Inode) (r : Request) : Prop :=
  ∃ d s', s.doLookup fs r = some (some d, s') ∧ (s'.dentries d).dInode.isSome

/-- `do_lookup` yields a dentry with an inode if and only if the file system finds the name with
the type in the directory. -/
def Transparent (s : DCache Inode) (r : Request) : Prop :=
  ∀ dir, (s.dentries r.parent).dInode = some dir →
    (s.Yields fs r ↔ (fs.lookup dir r.name r.type).isSome)

end DCache

/-- The cache does not tell the names apart. -/
def sameKey (first second : Qstr) : Bool :=
  stringHash first cacheHashsize = stringHash second cacheHashsize &&
    genericCheckFilename first second

/-- A request that leaves a dentry of the name in the directory. -/
def Request.asks (r : Request) (name : Qstr) (parent : ℕ) : Bool :=
  r.dentryMemory && r.parent = parent && sameKey r.name name

/-- The first request of a run for a name. -/
def firstAsk (history : List LookupOp) (name : Qstr) (parent : ℕ) : Option Request :=
  (history.map LookupOp.request).find? fun r => r.asks name parent

/-- There is a dentry of the name in the directory. -/
def DCache.Holds {Inode : Type} (s : DCache Inode) (name : Qstr) (parent : ℕ) : Prop :=
  ∃ d < s.unused, (s.dentries d).dParent = parent ∧ sameKey (s.dentries d).dName name

instance {Inode : Type} (s : DCache Inode) (name : Qstr) (parent : ℕ) :
    Decidable (s.Holds name parent) :=
  inferInstanceAs (Decidable (∃ d < s.unused, _))

/-- The answer in the cache is right: a name that mounting has left in the directory is only asked
for if there is such a file; the name is new and memory is there for a file that exists; or the
first request of the name, which had memory for an inode if it found one, was for a type of which
the directory has a file of the name if and only if it has one of the type that is asked for
now. -/
def Reliable {Inode : Type} (fs : InodeOps Inode) (boot : DCache Inode)
    (history : List LookupOp) (dir : Inode) (r : Request) : Prop :=
  if boot.Holds r.name r.parent then
    ((fs.lookup dir r.name r.type).isSome : Prop)
  else match firstAsk history r.name r.parent with
    | none => (fs.lookup dir r.name r.type).isSome → r.dentryMemory ∧ r.inodeMemory
    | some first =>
        first.inodeMemory ∧ (fs.lookup dir r.name first.type).isSome ↔
          (fs.lookup dir r.name r.type).isSome

theorem sameKey_iff {first second : Qstr} : sameKey first second ↔
    stringHash first cacheHashsize = stringHash second cacheHashsize ∧
      genericCheckFilename first second := by
  simp [sameKey]

theorem Request.asks_iff {r : Request} {name : Qstr} {parent : ℕ} : r.asks name parent ↔
    r.dentryMemory ∧ r.parent = parent ∧ sameKey r.name name := by
  simp [asks, and_assoc]

namespace DCache

variable {Inode : Type} {fs : InodeOps Inode} {s : DCache Inode}

/-- Names that the cache does not tell apart are looked up alike. -/
theorem lookUp_congr {first second : Qstr} (same : sameKey first second) (parent : ℕ) :
    s.lookUp first parent = s.lookUp second parent := by
  rcases sameKey_iff.mp same with ⟨hash, compare⟩
  simp only [lookUp, hash]
  congr 1
  funext d
  have alike : genericCheckFilename (s.dentries d).dName first =
      genericCheckFilename (s.dentries d).dName second := by
    rw [Bool.eq_iff_iff]
    exact ⟨fun left => genericCheckFilename_trans left compare,
      fun left => genericCheckFilename_trans left (genericCheckFilename_symm compare)⟩
  rw [alike]

/-- A cache with one more dentry, the file system having found an inode or not. -/
def insert (s : DCache Inode) (r : Request) (inode : Option Inode) : DCache Inode where
  dentries := Function.update s.dentries s.unused
    { dName := r.name, dInode := inode, dParent := r.parent }
  buckets := Function.update s.buckets (stringHash r.name cacheHashsize)
    (s.unused :: s.buckets (stringHash r.name cacheHashsize))
  unused := s.unused + 1

/-- What the file system finds for a request. -/
def answer (fs : InodeOps Inode) (dir : Inode) (r : Request) : Option Inode :=
  if r.inodeMemory then fs.lookup dir r.name r.type else none

theorem dAlloc_eq (name : Qstr) (parent : ℕ) : s.dAlloc name parent =
    (s.unused, s.insert ⟨parent, name, .norm, true, true⟩ none) := by
  simp only [dAlloc, add, setDentry, insert, Function.update_self]

theorem addRoot_eq (name : Qstr) (inode : Inode) : s.addRoot name inode =
    (s.unused, s.insert ⟨s.unused, name, .norm, true, true⟩ (some inode)) := by
  simp only [addRoot, add, setDentry, insert, Function.update_self, Function.update_idem]

theorem insert_setDentry (r r' : Request) (sameName : r'.name = r.name) (inode : Option Inode) :
    (s.insert r' none).setDentry s.unused
        { dName := r.name, dInode := inode, dParent := r.parent } = s.insert r inode := by
  simp only [insert, setDentry, Function.update_idem, sameName]

/-- A name that is not in the cache becomes a new dentry with what the file system finds. -/
theorem lookupNew_eq {r : Request} {dir : Inode} (old : r.parent ≠ s.unused)
    (isDir : (s.dentries r.parent).dInode = some dir) :
    s.lookupNew fs r =
      some (s.unused, (answer fs dir r).isSome, s.insert r (answer fs dir r)) := by
  have parent : ((s.insert ⟨r.parent, r.name, .norm, true, true⟩ none).dentries
      r.parent).dInode = some dir := by
    simp only [insert, Function.update_of_ne old, isDir]
  have new : (s.insert ⟨r.parent, r.name, .norm, true, true⟩ none).dentries s.unused =
      { dName := r.name, dInode := none, dParent := r.parent } :=
    Function.update_self ..
  simp only [lookupNew, dAlloc_eq, parent, Option.map_some, new, answer]
  split
  · cases fs.lookup dir r.name r.type with
    | none => rfl
    | some inode => simp only [Option.isSome_some, insert_setDentry]
  · rfl

/-- Nothing is looked up in a dentry without an inode. -/
theorem lookupNew_none {r : Request} (notDir : (s.dentries r.parent).dInode = none) :
    s.lookupNew fs r = none := by
  have parent : ((s.insert ⟨r.parent, r.name, .norm, true, true⟩ none).dentries
      r.parent).dInode = none := by
    simp only [insert, Function.update_apply]
    split
    · rfl
    · exact notDir
  simp only [lookupNew, dAlloc_eq, parent, Option.map_none]

/-- Both calls do the same to the cache. -/
theorem step_eq (op : LookupOp) : s.step fs op =
    match s.lookUp op.request.name op.request.parent with
    | some _ => some s
    | none =>
        if op.request.dentryMemory then (s.lookupNew fs op.request).map fun new => new.2.2
        else some s := by
  cases op with
  | doLookup r =>
      simp only [step, doLookup, LookupOp.request]
      cases s.lookUp r.name r.parent with
      | some d => rfl
      | none =>
          by_cases memory : r.dentryMemory
          · simp only [memory, if_true, Option.map_map]
            rfl
          · simp only [memory]
            rfl
  | doLookupCreate r =>
      simp only [step, doLookupCreate, LookupOp.request]
      cases s.lookUp r.name r.parent with
      | some d => rfl
      | none =>
          by_cases memory : r.dentryMemory
          · simp only [memory, if_true, Option.map_map]
            rfl
          · simp only [memory]
            rfl

/-- What the cache remembers of the calls of a run. -/
def remembered (fs : InodeOps Inode) (boot : DCache Inode) (history : List LookupOp)
    (s : DCache Inode) (name : Qstr) (parent : ℕ) : Option Bool :=
  if boot.Holds name parent then some true
  else (firstAsk history name parent).map fun first =>
    first.inodeMemory &&
      (s.dentries parent).dInode.any fun dir => (fs.lookup dir name first.type).isSome

/-- The state of the cache after the calls of a run. -/
structure Recalls (fs : InodeOps Inode) (boot : DCache Inode) (history : List LookupOp)
    (s : DCache Inode) : Prop where
  allocated : ∀ b, ∀ d ∈ s.buckets b, d < s.unused
  parents : ∀ b, ∀ d ∈ s.buckets b, (s.dentries (s.dentries d).dParent).dInode.isSome
  free : ∀ d, s.unused ≤ d → (s.dentries d).dInode = none
  known : ∀ name parent, (s.lookUp name parent).map (fun d => (s.dentries d).dInode.isSome) =
    remembered fs boot history s name parent

/-- What a call does: nothing, when the name is in the cache or there is no memory, or a new
dentry. -/
theorem step_cases {op : LookupOp} {s' : DCache Inode} (stepped : s.step fs op = some s')
    (free : ∀ d, s.unused ≤ d → (s.dentries d).dInode = none) :
    (s' = s ∧ ((s.lookUp op.request.name op.request.parent).isSome ∨
      op.request.dentryMemory = false)) ∨
    (s.lookUp op.request.name op.request.parent = none ∧ op.request.dentryMemory ∧
      ∃ dir, (s.dentries op.request.parent).dInode = some dir ∧
        s' = s.insert op.request (answer fs dir op.request)) := by
  rw [step_eq] at stepped
  generalize op.request = r at stepped ⊢
  cases hit : s.lookUp r.name r.parent with
  | some d =>
      rw [hit] at stepped
      exact Or.inl ⟨(Option.some.inj stepped).symm, Or.inl rfl⟩
  | none =>
      cases memory : r.dentryMemory with
      | false =>
          rw [hit, memory] at stepped
          exact Or.inl ⟨(Option.some.inj stepped).symm, Or.inr rfl⟩
      | true =>
          simp only [hit, memory, if_true] at stepped
          cases isDir : (s.dentries r.parent).dInode with
          | none =>
              rw [lookupNew_none isDir] at stepped
              cases stepped
          | some dir =>
              have old : r.parent ≠ s.unused := fun eq => by
                rw [free _ eq.ge] at isDir
                cases isDir
              rw [lookupNew_eq old isDir] at stepped
              exact Or.inr ⟨rfl, rfl, dir, rfl, (Option.some.inj stepped).symm⟩

/-- Other dentries stay as they are. -/
theorem insert_dentries_of_ne {r : Request} {inode : Option Inode} {d : ℕ} (ne : d ≠ s.unused) :
    (s.insert r inode).dentries d = s.dentries d := Function.update_of_ne ne ..

/-- A new dentry is found first, other dentries as before. -/
theorem lookUp_insert {r : Request} {inode : Option Inode}
    (allocated : ∀ b, ∀ d ∈ s.buckets b, d < s.unused) (name : Qstr) (parent : ℕ) :
    (s.insert r inode).lookUp name parent =
      if r.parent = parent ∧ sameKey r.name name then some s.unused
      else s.lookUp name parent := by
  have new : (s.insert r inode).dentries s.unused =
      { dName := r.name, dInode := inode, dParent := r.parent } := Function.update_self ..
  have others (b : ℕ) : (s.buckets b).find? (fun d =>
      genericCheckFilename ((s.insert r inode).dentries d).dName name &&
        ((s.insert r inode).dentries d).dParent = parent) =
      (s.buckets b).find? (fun d =>
        genericCheckFilename (s.dentries d).dName name && (s.dentries d).dParent = parent) := by
    apply List.find?_congr
    intro d mem
    rw [insert_dentries_of_ne (allocated b d mem).ne]
  by_cases hash : stringHash r.name cacheHashsize = stringHash name cacheHashsize
  · have bucket : (s.insert r inode).buckets (stringHash name cacheHashsize) =
        s.unused :: s.buckets (stringHash name cacheHashsize) := by
      rw [← hash]
      exact Function.update_self ..
    have here : (genericCheckFilename r.name name && (r.parent = parent : Bool)) =
        decide (r.parent = parent ∧ sameKey r.name name) := by
      rw [Bool.eq_iff_iff]
      simp [sameKey, hash, and_comm]
    rw [lookUp, bucket, List.find?_cons, new, others, here]
    by_cases same : r.parent = parent ∧ sameKey r.name name
    · rw [decide_eq_true same, if_pos same]
    · rw [decide_eq_false same, if_neg same]
      rfl
  · have bucket : (s.insert r inode).buckets (stringHash name cacheHashsize) =
        s.buckets (stringHash name cacheHashsize) :=
      Function.update_of_ne (fun eq => hash eq.symm) ..
    have differ : ¬(r.parent = parent ∧ sameKey r.name name) := fun ⟨_, same⟩ =>
      hash (sameKey_iff.mp same).1
    rw [if_neg differ, lookUp, bucket, others]
    rfl

/-- A dentry that is found is in the cache, with the name and the parent. -/
theorem mem_of_lookUp {name : Qstr} {parent d : ℕ} (found : s.lookUp name parent = some d) :
    d ∈ s.buckets (stringHash name cacheHashsize) ∧
      genericCheckFilename (s.dentries d).dName name ∧ (s.dentries d).dParent = parent := by
  have holds := List.find?_some found
  simp only [Bool.and_eq_true, decide_eq_true_eq] at holds
  exact ⟨List.mem_of_find?_eq_some found, holds⟩

section

variable {boot : DCache Inode} {history : List LookupOp} {op : LookupOp}

/-- A dentry without an inode is no directory of a call that left a dentry. -/
theorem Recalls.not_parent (recalls : Recalls fs boot history s) {parent : ℕ}
    (notDir : (s.dentries parent).dInode = none) (name : Qstr) :
    s.lookUp name parent = none := by
  cases found : s.lookUp name parent with
  | none => rfl
  | some d =>
      rcases mem_of_lookUp found with ⟨mem, _, isParent⟩
      have holds := recalls.parents _ d mem
      rw [isParent, notDir] at holds
      cases holds

/-- A call that asks for a name which is there leaves what is remembered. -/
theorem firstAsk_append (name : Qstr) (parent : ℕ) :
    firstAsk (history ++ [op]) name parent =
      (firstAsk history name parent).or
        (if op.request.asks name parent then some op.request else none) := by
  simp only [firstAsk, List.map_append, List.find?_append, List.map_cons, List.map_nil]
  congr 1
  by_cases asks : op.request.asks name parent <;> simp [asks]

/-- The cache recalls a name that is not there as not asked for. -/
theorem Recalls.firstAsk_none (recalls : Recalls fs boot history s) {name : Qstr} {parent : ℕ}
    (missing : s.lookUp name parent = none) :
    ¬boot.Holds name parent ∧ firstAsk history name parent = none := by
  have known := recalls.known name parent
  rw [missing, Option.map_none, remembered] at known
  split at known
  · cases known
  · exact ⟨‹_›, Option.map_eq_none_iff.mp known.symm⟩

theorem mem_bucket_insert {r : Request} {inode : Option Inode} {b d : ℕ}
    (mem : d ∈ (s.insert r inode).buckets b) : d = s.unused ∨ d ∈ s.buckets b := by
  simp only [insert, Function.update_apply] at mem
  split at mem
  · rename_i eq
    exact eq ▸ List.mem_cons.mp mem
  · exact Or.inr mem

/-- A name that is not there is recalled once there is a new dentry of it. -/
theorem Recalls.insert (recalls : Recalls fs boot history s) {dir : Inode}
    (missing : s.lookUp op.request.name op.request.parent = none)
    (memory : op.request.dentryMemory)
    (isDir : (s.dentries op.request.parent).dInode = some dir) :
    Recalls fs boot (history ++ [op]) (s.insert op.request (answer fs dir op.request)) := by
  have isOld {d : ℕ} {inode : Inode} (some : (s.dentries d).dInode = some inode) :
      d < s.unused := by
    by_contra notOld
    rw [recalls.free _ (Nat.le_of_not_lt notOld)] at some
    cases some
  have old {d : ℕ} (lt : d < s.unused) :
      (s.insert op.request (answer fs dir op.request)).dentries d = s.dentries d :=
    insert_dentries_of_ne lt.ne
  have new : (s.insert op.request (answer fs dir op.request)).dentries s.unused =
      ⟨op.request.name, answer fs dir op.request, op.request.parent⟩ := Function.update_self ..
  refine ⟨fun b d mem => ?_, fun b d mem => ?_, fun d le => ?_, fun name parent => ?_⟩
  · rcases mem_bucket_insert mem with rfl | mem
    · exact Nat.lt_succ_self _
    · exact Nat.lt_succ_of_lt (recalls.allocated b d mem)
  · rcases mem_bucket_insert mem with rfl | mem
    · rw [new, old (isOld isDir), isDir]
      rfl
    · have holds := recalls.parents b d mem
      rcases Option.isSome_iff_exists.mp holds with ⟨inode, isSome⟩
      rw [old (recalls.allocated b d mem), old (isOld isSome)]
      exact holds
  · have ne : d ≠ s.unused := (Nat.lt_of_succ_le le).ne'
    rw [insert_dentries_of_ne ne]
    exact recalls.free d (Nat.le_of_succ_le le)
  · rw [lookUp_insert recalls.allocated]
    by_cases same : op.request.parent = parent ∧ sameKey op.request.name name
    · -- the new dentry is found; the name has not been asked for before
      rcases same with ⟨rfl, sameName⟩
      have asks : op.request.asks name op.request.parent :=
        Request.asks_iff.mpr ⟨memory, rfl, sameName⟩
      rw [lookUp_congr sameName] at missing
      rcases recalls.firstAsk_none missing with ⟨notRoot, notAsked⟩
      rw [if_pos ⟨rfl, sameName⟩, Option.map_some, new, remembered, if_neg notRoot,
        firstAsk_append, notAsked, Option.none_or, if_pos asks, Option.map_some,
        old (isOld isDir), isDir, Option.any_some,
        ← fs.lookup_congr dir _ _ _ (sameKey_iff.mp sameName).2]
      simp only [answer]
      cases op.request.inodeMemory <;> rfl
    · have notAsks : ¬op.request.asks name parent := fun asks =>
        same (Request.asks_iff.mp asks).2
      have appended : firstAsk (history ++ [op]) name parent = firstAsk history name parent := by
        rw [firstAsk_append, if_neg notAsks, Option.or_none]
      have remembers : remembered fs boot (history ++ [op])
          (s.insert op.request (answer fs dir op.request)) name parent =
            remembered fs boot history s name parent := by
        by_cases isNew : parent = s.unused
        · have notThere := recalls.not_parent (recalls.free parent isNew.ge) name
          rcases recalls.firstAsk_none notThere with ⟨notRoot, notAsked⟩
          simp only [remembered, appended, if_neg notRoot, notAsked, Option.map_none]
        · simp only [remembered, appended, insert_dentries_of_ne isNew]
      rw [if_neg same, remembers, ← recalls.known]
      cases found : s.lookUp name parent with
      | none => rfl
      | some d =>
          have lt := recalls.allocated _ d (mem_of_lookUp found).1
          rw [Option.map_some, Option.map_some, old lt]

/-- A call keeps what the cache recalls, with the call added to the history. -/
theorem Recalls.step (recalls : Recalls fs boot history s) {s' : DCache Inode}
    (stepped : s.step fs op = some s') : Recalls fs boot (history ++ [op]) s' := by
  rcases step_cases stepped recalls.free with ⟨rfl, silent⟩ | ⟨missing, memory, dir, isDir, rfl⟩
  · refine ⟨recalls.allocated, recalls.parents, recalls.free, fun name parent => ?_⟩
    rw [recalls.known]
    simp only [remembered, firstAsk_append]
    split
    · rfl
    · by_cases asks : op.request.asks name parent
      · rcases Request.asks_iff.mp asks with ⟨memory, rfl, same⟩
        -- the name is in the cache already, so it has been asked for before
        have hit := silent.resolve_right (by simp [memory])
        have known := recalls.known name op.request.parent
        rw [← lookUp_congr same, remembered, if_neg ‹_›] at known
        cases asked : firstAsk history name op.request.parent with
        | none =>
            rw [asked, Option.map_none, Option.map_eq_none_iff] at known
            rw [known] at hit
            cases hit
        | some first => rfl
      · rw [if_neg asks, Option.or_none]
  · exact recalls.insert missing memory isDir

end

/-! ## Runs -/

/-- The cache while the file systems are mounted: all dentries are in their lists, have an inode and
a parent. -/
structure Booted (s : DCache Inode) : Prop where
  listed : ∀ b d, d ∈ s.buckets b ↔
    d < s.unused ∧ stringHash (s.dentries d).dName cacheHashsize = b
  inodes : ∀ d < s.unused, (s.dentries d).dInode.isSome
  parents : ∀ d < s.unused, (s.dentries d).dParent < s.unused
  free : ∀ d, s.unused ≤ d → (s.dentries d).dInode = none

theorem booted_empty : Booted (empty : DCache Inode) where
  listed _ d := iff_of_false List.not_mem_nil fun ⟨lt, _⟩ => Nat.not_lt_zero d lt
  inodes d lt := absurd lt (Nat.not_lt_zero d)
  parents d lt := absurd lt (Nat.not_lt_zero d)
  free _ _ := rfl

/-- A dentry with an inode is added. -/
theorem Booted.insert (booted : Booted s) {r : Request} {inode : Option Inode}
    (hasInode : inode.isSome) (parent : r.parent ≤ s.unused) : Booted (s.insert r inode) := by
  have new : (s.insert r inode).dentries s.unused = ⟨r.name, inode, r.parent⟩ :=
    Function.update_self ..
  have old {d : ℕ} (lt : d < s.unused) : (s.insert r inode).dentries d = s.dentries d :=
    insert_dentries_of_ne lt.ne
  have isNew {d : ℕ} (lt : d < s.unused + 1) : d < s.unused ∨ d = s.unused :=
    Nat.lt_succ_iff_lt_or_eq.mp lt
  refine ⟨fun b d => ?_, fun d lt => ?_, fun d lt => ?_, fun d le => ?_⟩
  · have bucket : d ∈ (s.insert r inode).buckets b ↔
        (d = s.unused ∧ stringHash r.name cacheHashsize = b) ∨ d ∈ s.buckets b := by
      simp only [DCache.insert, Function.update_apply]
      split_ifs with same
      · rw [List.mem_cons, same]
        simp
      · simp [Ne.symm same]
    rw [bucket, booted.listed]
    constructor
    · rintro (⟨rfl, hash⟩ | ⟨lt, hash⟩)
      · exact ⟨Nat.lt_succ_self _, by rw [new, hash]⟩
      · exact ⟨Nat.lt_succ_of_lt lt, by rw [old lt, hash]⟩
    · rintro ⟨lt, hash⟩
      rcases isNew lt with lt | rfl
      · exact Or.inr ⟨lt, by rw [← hash, old lt]⟩
      · exact Or.inl ⟨rfl, by rw [← hash, new]⟩
  · rcases isNew lt with lt | rfl
    · rw [old lt]
      exact booted.inodes d lt
    · rw [new]
      exact hasInode
  · rcases isNew lt with lt | rfl
    · rw [old lt]
      exact Nat.lt_succ_of_lt (booted.parents d lt)
    · rw [new]
      exact Nat.lt_succ_of_le parent
  · rw [insert_dentries_of_ne (Nat.lt_of_succ_le le).ne']
    exact booted.free d (Nat.le_of_succ_le le)

/-- The file systems that are there already are in the cache. -/
structure Started (m : Mounting Inode) : Prop where
  cache : Booted m.cache
  root : ∀ root ∈ m.rootDentry, root < m.cache.unused
  mounts : ∀ mount ∈ m.mounts, mount < m.cache.unused

theorem Started.init {m m' : Mounting Inode} (started : Started m) {partition : Partition Inode}
    (done : m.init partition = some m') : Started m' := by
  cases partition with
  | fat32 root =>
      rw [Mounting.init, addRoot_eq] at done
      cases done
      refine ⟨started.cache.insert rfl le_rfl, fun root isRoot => ?_, fun mount mem => ?_⟩
      · cases isRoot
        exact Nat.lt_succ_self _
      · cases mem
  | ext2 root =>
      rcases Option.map_eq_some_iff.mp done with ⟨rootDentry, isRoot, done⟩
      rw [addRoot_eq] at done
      cases done
      refine ⟨started.cache.insert rfl le_rfl, fun root same => ?_, fun mount mem => ?_⟩
      · cases same
        exact Nat.lt_succ_of_lt (started.root _ isRoot)
      · rcases List.mem_cons.mp mem with rfl | mem
        · exact Nat.lt_succ_self _
        · exact Nat.lt_succ_of_lt (started.mounts mount mem)

/-- The place where EXT2 is mounted has the inode of its root. -/
theorem Started.mountExt2 {m : Mounting Inode} (started : Started m)
    (done : m.mountExt2 = some s) : Booted s := by
  rcases Option.bind_eq_some_iff.mp done with ⟨rootDentry, isRoot, done⟩
  rcases Option.map_eq_some_iff.mp done with ⟨mntRoot, isMount, done⟩
  have lt := started.mounts mntRoot (List.mem_of_head? isMount)
  have new : (m.cache.insert ⟨rootDentry, ext2Name, .norm, true, true⟩ none).dentries
      m.cache.unused = ⟨ext2Name, none, rootDentry⟩ := Function.update_self ..
  rw [dAlloc_eq] at done
  dsimp only at done
  rw [new, insert_dentries_of_ne lt.ne, insert_setDentry ⟨rootDentry, ext2Name, .norm, true, true⟩
    ⟨rootDentry, ext2Name, .norm, true, true⟩ rfl] at done
  cases done
  exact started.cache.insert (started.cache.inodes mntRoot lt) (started.root _ isRoot).le

theorem started_foldlM {partitions : List (Partition Inode)} {m m' : Mounting Inode}
    (started : Started m) (done : partitions.foldlM Mounting.init m = some m') : Started m' := by
  induction partitions generalizing m with
  | nil =>
      cases done
      exact started
  | cons partition partitions ih =>
      rw [List.foldlM_cons] at done
      rcases Option.bind_eq_some_iff.mp done with ⟨next, inited, done⟩
      exact ih (started.init inited) done

theorem booted_initVfs {partitions : List (Partition Inode)} {boot : DCache Inode}
    (booted : initVfs partitions = some boot) : Booted boot := by
  rcases Option.bind_eq_some_iff.mp booted with ⟨m, inited, done⟩
  have empty : Started ⟨(.empty : DCache Inode), none, []⟩ :=
    ⟨booted_empty, fun root mem => absurd mem (Option.not_mem_none root),
      fun mount mem => absurd mem List.not_mem_nil⟩
  exact (started_foldlM empty inited).mountExt2 done

/-- What is looked up after mounting is what mounting has left. -/
theorem Booted.isSome_lookUp (booted : Booted s) (name : Qstr) (parent : ℕ) :
    (s.lookUp name parent).isSome ↔ s.Holds name parent := by
  rw [lookUp, List.find?_isSome]
  simp only [booted.listed, Bool.and_eq_true, decide_eq_true_eq]
  constructor
  · rintro ⟨d, ⟨lt, hash⟩, compare, isParent⟩
    exact ⟨d, lt, isParent, sameKey_iff.mpr ⟨hash, compare⟩⟩
  · rintro ⟨d, lt, isParent, same⟩
    rcases sameKey_iff.mp same with ⟨hash, compare⟩
    exact ⟨d, ⟨lt, hash⟩, compare, isParent⟩

/-- Once the file systems are mounted, the cache recalls what mounting has left. -/
theorem Booted.recalls (booted : Booted s) : Recalls fs s [] s where
  allocated b d mem := ((booted.listed b d).mp mem).1
  parents b d mem := booted.inodes _ (booted.parents d ((booted.listed b d).mp mem).1)
  free := booted.free
  known name parent := by
    have isSome := booted.isSome_lookUp name parent
    rw [remembered]
    cases found : s.lookUp name parent with
    | none =>
        rw [found] at isSome
        rw [if_neg fun holds => nomatch isSome.mpr holds]
        rfl
    | some d =>
        rw [found] at isSome
        have lt := ((booted.listed _ d).mp (mem_of_lookUp found).1).1
        rw [if_pos (isSome.mp rfl), Option.map_some, booted.inodes d lt]

/-- The cache recalls the calls of a run. -/
theorem recalls_of_run {boot : DCache Inode} {history rest : List LookupOp}
    {s s' : DCache Inode} (recalls : Recalls fs boot history s)
    (ran : run (DCache.step fs) s rest = some s') : Recalls fs boot (history ++ rest) s' := by
  induction rest generalizing history s with
  | nil =>
      rw [List.append_nil]
      exact Option.some.inj ran ▸ recalls
  | cons op rest ih =>
      rcases Option.bind_eq_some_iff.mp ran with ⟨next, stepped, ranRest⟩
      have recalled := ih (recalls.step stepped) ranRest
      rwa [List.append_assoc] at recalled

/-- What a lookup yields comes from the cache, or from the file system if memory is there. -/
theorem yields_iff {r : Request} {dir : Inode} (old : r.parent ≠ s.unused)
    (isDir : (s.dentries r.parent).dInode = some dir) :
    s.Yields fs r ↔ match (s.lookUp r.name r.parent).map fun d => (s.dentries d).dInode.isSome with
      | some found => found
      | none => r.dentryMemory ∧ (answer fs dir r).isSome := by
  unfold Yields doLookup
  cases s.lookUp r.name r.parent with
  | some d =>
      simp only [Option.map_some, Option.some.injEq, Prod.mk.injEq]
      constructor
      · rintro ⟨_, _, ⟨rfl, rfl⟩, found⟩
        exact found
      · exact fun found => ⟨d, s, ⟨rfl, rfl⟩, found⟩
  | none =>
      have new : (s.insert r (answer fs dir r)).dentries s.unused =
          ⟨r.name, answer fs dir r, r.parent⟩ := Function.update_self ..
      rw [lookupNew_eq old isDir]
      cases r.dentryMemory with
      | false => simp
      | true =>
          cases found : answer fs dir r with
          | none => simp
          | some inode => simp [found ▸ new]

/-- The dentry cache is transparent for a lookup after a run of lookups exactly when the answer in
the cache is reliable. -/
theorem transparent_iff (fs : InodeOps Inode) {partitions : List (Partition Inode)}
    {boot : DCache Inode} (booted : initVfs partitions = some boot) {history : List LookupOp}
    {s : DCache Inode} (ran : run (DCache.step fs) boot history = some s) (r : Request)
    {dir : Inode} (isDir : (s.dentries r.parent).dInode = some dir) :
    s.Transparent fs r ↔ Reliable fs boot history dir r := by
  have recalls : Recalls fs boot history s := recalls_of_run (booted_initVfs booted).recalls ran
  have old : r.parent ≠ s.unused := fun eq => by
    rw [recalls.free _ eq.ge] at isDir
    cases isDir
  have transparent : s.Transparent fs r ↔
      (s.Yields fs r ↔ (fs.lookup dir r.name r.type).isSome) :=
    ⟨fun all => all dir isDir, fun here other isOther => by
      rw [isDir, Option.some.injEq] at isOther
      exact isOther ▸ here⟩
  rw [transparent, yields_iff old isDir, recalls.known, remembered, Reliable]
  by_cases holds : boot.Holds r.name r.parent
  · rw [if_pos holds, if_pos holds]
    exact ⟨fun same => same.mp rfl, fun found => ⟨fun _ => found, fun _ => rfl⟩⟩
  · rw [if_neg holds, if_neg holds]
    cases firstAsk history r.name r.parent with
    | some first =>
        simp only [Option.map_some, isDir, Option.any_some, Bool.and_eq_true]
    | none =>
        simp only [Option.map_none, answer]
        cases r.inodeMemory <;> cases r.dentryMemory <;> simp

/-! ## Directories of FAT32 -/

/-- `fat32_lookup` of directories given by their slots, the inode being the number of the first
cluster; `nameLen` is the length in the buffer for names. -/
def fat32Lookup (readDr : ℕ → ℕ → Option Fat32.Slot) (fuel nameLen : ℕ) : InodeOps ℕ where
  lookup dir name type :=
    (Fat32.lookupLoop (readDr dir) name type fuel 0 nameLen).map fun file =>
      Fat32.firstClst file.dr
  lookup_congr dir first second type same := by
    have alike (file : Fat32.FoundFile) : file.matches first type = file.matches second type := by
      rw [Fat32.FoundFile.matches, Fat32.FoundFile.matches, genericCheckFilename_congr same]
    simp only [Fat32.lookupLoop_eq, alike]

/-- A directory at cluster 2 with one file, `A` at cluster 3. -/
def oneFile : InodeOps ℕ :=
  fat32Lookup (fun dir i =>
    if dir = 2 ∧ i = 0 then
      some ![0x41, 0x20, 0x20, 0x20, 0x20, 0x20, 0x20, 0x20, 0x20, 0x20, 0x20, 0x20, 0, 0, 0, 0, 0,
        0, 0, 0, 0, 0, 0, 0, 0, 0, 3, 0, 0, 0, 0, 0]
    else none) 2 0

/-- A lookup of the file `A` in the root. -/
def lookupA (type : LastType) : Request := ⟨0, .ofList [0x41], type, true, true⟩

/-- A card with a FAT32, whose root is that directory, and an EXT2. -/
def twoPartitions : List (Partition ℕ) := [.fat32 2, .ext2 0x102]

/-- After `A` has been looked up as a file, another lookup of the file is right. -/
theorem transparent_iff_lookupA :
    ∃ boot s, initVfs twoPartitions = some boot ∧
      run (DCache.step oneFile) boot [.doLookup (lookupA .norm)] = some s ∧
      (s.Transparent oneFile (lookupA .norm) ↔
        Reliable oneFile boot [.doLookup (lookupA .norm)] 2 (lookupA .norm)) := by
  have booted : initVfs twoPartitions = some _ := rfl
  exact ⟨_, _, booted, rfl, transparent_iff oneFile booted rfl (lookupA .norm) rfl⟩

/-- After `A` has been looked up as a directory, the file is not found. -/
theorem not_transparent_lookupA :
    ∃ boot s, initVfs twoPartitions = some boot ∧
      run (DCache.step oneFile) boot [.doLookup (lookupA .dir)] = some s ∧
      ¬s.Transparent oneFile (lookupA .norm) := by
  have isDir : ((initVfs twoPartitions).bind fun boot =>
      run (DCache.step oneFile) boot [.doLookup (lookupA .dir)]).map
        (fun s => (s.dentries 0).dInode) = some (some 2) := by decide +kernel
  have negative : ((initVfs twoPartitions).bind fun boot =>
      run (DCache.step oneFile) boot [.doLookup (lookupA .dir)]).bind
        (fun s => (s.doLookup oneFile (lookupA .norm)).map fun result =>
          result.1.any fun d => (result.2.dentries d).dInode.isSome) = some false := by
    decide +kernel
  rcases Option.map_eq_some_iff.mp isDir with ⟨s, ran, isDir⟩
  rw [ran, Option.bind_some] at negative
  rcases Option.bind_eq_some_iff.mp ran with ⟨boot, booted, ran⟩
  refine ⟨boot, s, booted, ran, fun transparent => ?_⟩
  have inDirectory : (oneFile.lookup 2 (lookupA .norm).name (lookupA .norm).type).isSome := by
    decide +kernel
  rcases (transparent 2 isDir).mpr inDirectory with ⟨d, s', looked, hasInode⟩
  rw [looked] at negative
  simp [hasInode] at negative

end DCache

end Ninix.Vfs
