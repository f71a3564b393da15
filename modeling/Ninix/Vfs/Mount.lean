import Mathlib.Data.List.Find
import Ninix.Driver.Disk
import Ninix.Library.LinkedChain

/-!
# Crossing mounts

A place in the tree of all files is a file system, by its `struct vfsmount`, and a dentry there.
`follow_mount` steps down from a dentry another file system is mounted on to the root of that file
system, which it looks for in the ring of all mounts. `follow_dotdot` steps up to the parent
directory, and from the root of a file system first to the dentry it is mounted on.
-/

namespace Ninix.Vfs

open LinkedChain

/-- `ENOVFSMNT` -/
def enovfsmnt : ℕ := 517

/-- `ENODENTRY` -/
def enodentry : ℕ := 524

/-- `struct vfsmount`, with the name of the type of its file system. -/
structure Vfsmount where
  mntHash : ℕ
  mntParent : ℕ
  mntMountpoint : ℕ
  mntRoot : ℕ
  typeName : String

/-- What mounts need of `struct dentry`. -/
structure MountDentry where
  dParent : ℕ
  dMounted : ℕ

/-- A file system and a dentry. -/
structure Place where
  mnt : ℕ
  dentry : ℕ
deriving DecidableEq

/-- The mounts and the dentries by their addresses, with `root_mount` and `root_dentry`. -/
structure Mounts where
  vfsmount : ℕ → Vfsmount
  dentry : ℕ → MountDentry
  rootMount : ℕ
  rootDentry : ℕ

namespace Mounts

variable (m : Mounts)

/-- The file system of mount `p` is mounted at a place. -/
def MountedAt (place : Place) (p : ℕ) : Prop :=
  (m.vfsmount p).mntParent = place.mnt ∧ (m.vfsmount p).mntMountpoint = place.dentry

instance (place : Place) (p : ℕ) : Decidable (m.MountedAt place p) :=
  inferInstanceAs (Decidable (_ ∧ _))

/-- The loop of `follow_mount` from mount `p` on: the mount it stops at, if it finds one. -/
def followMountLoop (place : Place) : ℕ → ℕ → Option (Option ℕ)
  | 0, _ => none
  | fuel + 1, p =>
      if m.MountedAt place p then some (some p)
      else
        let p := (m.vfsmount p).mntHash
        if p = m.rootMount then some none else followMountLoop place fuel p

/-- `follow_mount` -/
def followMount (fuel : ℕ) (place : Place) : Option (ℕ × Place) :=
  if (m.dentry place.dentry).dMounted = 0 then some (0, place)
  else
    (m.followMountLoop place fuel m.rootMount).map fun
      | some p => (0, ⟨p, (m.vfsmount p).mntRoot⟩)
      | none => (sub32 0 enovfsmnt, place)

/-- `follow_dotdot` -/
def followDotdot : ℕ → Place → Option Place
  | 0, _ => none
  | fuel + 1, place =>
      if place.dentry = m.rootDentry ∧ place.mnt = m.rootMount then some place
      else if place.dentry ≠ (m.vfsmount place.mnt).mntRoot then
        some { place with dentry := (m.dentry place.dentry).dParent }
      else
        followDotdot fuel
          ⟨(m.vfsmount place.mnt).mntParent, (m.vfsmount place.mnt).mntMountpoint⟩

/-- The loop of `mount_ext2` from mount `pos` on. -/
def findExt2 : ℕ → ℕ → Option (Option ℕ)
  | 0, _ => none
  | fuel + 1, pos =>
      if pos = m.rootMount then some none
      else if (m.vfsmount pos).typeName = "EXT2" then some (some pos)
      else findExt2 fuel (m.vfsmount pos).mntHash

/-- `mount_ext2`, with the dentry `d_alloc` makes below the root, if there is memory for one. -/
def mountExt2 (fuel : ℕ) (new : Option ℕ) : Option (ℕ × Mounts) :=
  (m.findExt2 fuel (m.vfsmount m.rootMount).mntHash).map fun
    | none => (sub32 0 enovfsmnt, m)
    | some mnt =>
        match new with
        | none => (sub32 0 enodentry, m)
        | some dentry =>
            (0, { m with
              dentry := Function.update m.dentry dentry ⟨m.rootDentry, 1⟩
              vfsmount := Function.update m.vfsmount mnt
                { m.vfsmount mnt with mntParent := m.rootMount, mntMountpoint := dentry } })

/-- The place above the root of a mount: the dentry it is mounted on. -/
def above (p : ℕ) : Place := ⟨(m.vfsmount p).mntParent, (m.vfsmount p).mntMountpoint⟩

/-- The root of a mount. -/
def rootOf (p : ℕ) : Place := ⟨p, (m.vfsmount p).mntRoot⟩

end Mounts

/-- Mounts that form a tree: every one but the first is mounted, closer to the first one, on a
dentry that is not the root of its file system and carries no other mount. -/
structure MountTree extends Mounts where
  mounts : List ℕ
  depth : ℕ → ℕ
  ring : Follows (fun p => (vfsmount p).mntHash) rootMount rootMount mounts
  root_mounted : (vfsmount rootMount).mntParent = rootMount ∧
    (vfsmount rootMount).mntMountpoint = rootDentry ∧ (vfsmount rootMount).mntRoot = rootDentry
  closer : ∀ p ∈ mounts, p ≠ rootMount →
    (vfsmount p).mntParent ∈ mounts ∧ depth (vfsmount p).mntParent < depth p
  inner : ∀ p ∈ mounts, p ≠ rootMount →
    (vfsmount p).mntMountpoint ≠ (vfsmount (vfsmount p).mntParent).mntRoot
  counted : ∀ p ∈ mounts, p ≠ rootMount → (dentry (vfsmount p).mntMountpoint).dMounted = 1
  apart : ∀ p ∈ mounts, ∀ q ∈ mounts, p ≠ rootMount → q ≠ rootMount →
    (vfsmount p).mntMountpoint = (vfsmount q).mntMountpoint → p = q

/-! ## Down: the search in the ring -/

namespace Mounts

variable {m : Mounts} {place : Place} {p : ℕ} {nodes : List ℕ}

theorem followMountLoop_eq
    (follows : Follows (fun p => (m.vfsmount p).mntHash) m.rootMount p nodes) {fuel : ℕ}
    (enough : nodes.length ≤ fuel) :
    m.followMountLoop place fuel p = some (nodes.find? fun q => m.MountedAt place q) := by
  induction follows generalizing fuel with
  | @last node ends =>
      cases fuel with
      | zero => simp at enough
      | succ fuel =>
          by_cases here : m.MountedAt place node
          · simp [followMountLoop, here]
          · simp [followMountLoop, here, ends]
  | @link node rest continues _ ih =>
      cases fuel with
      | zero => simp at enough
      | succ fuel =>
          by_cases here : m.MountedAt place node
          · simp [followMountLoop, here]
          · simp only [followMountLoop, here, if_false, continues]
            rw [ih (Nat.le_of_succ_le_succ enough), List.find?_cons_of_neg (by simpa using here)]

/-- However far it is followed, the loop finds no other mount. -/
theorem followMountLoop_find?
    (follows : Follows (fun p => (m.vfsmount p).mntHash) m.rootMount p nodes) {fuel : ℕ}
    {result : Option ℕ} (ran : m.followMountLoop place fuel p = some result) :
    result = nodes.find? fun q => m.MountedAt place q := by
  induction follows generalizing fuel with
  | @last node ends =>
      cases fuel with
      | zero => simp [followMountLoop] at ran
      | succ fuel =>
          by_cases here : m.MountedAt place node
          · simp [followMountLoop, here] at ran
            simp [here, ran]
          · simp [followMountLoop, here, ends] at ran
            simp [here, ran]
  | @link node rest continues _ ih =>
      cases fuel with
      | zero => simp [followMountLoop] at ran
      | succ fuel =>
          by_cases here : m.MountedAt place node
          · simp [followMountLoop, here] at ran
            simp [here, ran]
          · simp only [followMountLoop, here, if_false, continues] at ran
            rw [List.find?_cons_of_neg (by simpa using here)]
            exact ih ran

/-- The loop of `follow_dotdot` gives one result, however long it may run. -/
theorem followDotdot_mono {fuel more : ℕ} {result : Place} (le : fuel ≤ more)
    (ran : m.followDotdot fuel place = some result) : m.followDotdot more place = some result := by
  induction fuel generalizing place more with
  | zero => simp [followDotdot] at ran
  | succ fuel ih =>
      rcases Nat.exists_eq_succ_of_ne_zero (Nat.ne_of_gt (Nat.lt_of_lt_of_le (Nat.succ_pos _) le))
        with ⟨more, rfl⟩
      simp only [followDotdot] at ran ⊢
      split
      · rwa [if_pos ‹_›] at ran
      · rw [if_neg ‹_›] at ran
        split
        · rwa [if_pos ‹_›] at ran
        · rw [if_neg ‹_›] at ran
          exact ih (Nat.le_of_succ_le_succ le) ran

end Mounts

namespace MountTree

variable (t : MountTree) {place : Place} {p : ℕ}

/-- `follow_mount` comes to an end, with the mount of the place where there is one. -/
theorem followMount_eq {fuel : ℕ} (enough : t.mounts.length ≤ fuel) :
    t.followMount fuel place = some
      (if (t.dentry place.dentry).dMounted = 0 then (0, place)
      else match t.mounts.find? fun q => t.MountedAt place q with
        | some p => (0, t.rootOf p)
        | none => (sub32 0 enovfsmnt, place)) := by
  unfold Mounts.followMount
  split
  · rfl
  · rw [Mounts.followMountLoop_eq t.ring enough, Option.map_some]
    congr 1

/-- What the search finds is mounted there, and it finds whatever is. -/
theorem find?_eq_some (mem : p ∈ t.mounts) (ne : p ≠ t.rootMount) :
    (t.mounts.find? fun q => t.MountedAt (t.above p) q) = some p := by
  have some_found : (t.mounts.find? fun q => t.MountedAt (t.above p) q).isSome := by
    rw [List.find?_isSome]
    exact ⟨p, mem, decide_eq_true ⟨rfl, rfl⟩⟩
  rcases Option.isSome_iff_exists.mp some_found with ⟨q, found⟩
  rw [found]
  have mounted : t.MountedAt (t.above p) q := by simpa using List.find?_some found
  have memQ : q ∈ t.mounts := List.mem_of_find?_eq_some found
  by_cases isRoot : q = t.rootMount
  · -- the root is its own parent, on its own root, where no mount can be
    exfalso
    subst isRoot
    have onRoot := t.inner p mem ne
    rw [show (t.vfsmount p).mntParent = t.rootMount from mounted.1.symm.trans t.root_mounted.1,
      t.root_mounted.2.2] at onRoot
    exact onRoot (mounted.2.symm.trans t.root_mounted.2.1)
  · rw [t.apart q memQ p mem isRoot ne mounted.2]

/-- Down from the dentry a file system is mounted on. -/
theorem followMount_above (mem : p ∈ t.mounts) (ne : p ≠ t.rootMount) {fuel : ℕ}
    (enough : t.mounts.length ≤ fuel) :
    t.followMount fuel (t.above p) = some (0, t.rootOf p) := by
  have counted : (t.dentry (t.above p).dentry).dMounted = 1 := t.counted p mem ne
  rw [t.followMount_eq enough, counted, t.find?_eq_some mem ne]
  rfl

/-! ## The mounts of the system -/

/-- `mount_ext2` makes a tree of the two mounts the file systems leave in the ring. -/
theorem mountExt2_tree {m : Mounts} {ext2 new : ℕ} (ne : ext2 ≠ m.rootMount)
    (fresh : new ≠ m.rootDentry) (first : (m.vfsmount m.rootMount).mntHash = ext2)
    (second : (m.vfsmount ext2).mntHash = m.rootMount)
    (isExt2 : (m.vfsmount ext2).typeName = "EXT2")
    (root : (m.vfsmount m.rootMount).mntParent = m.rootMount ∧
      (m.vfsmount m.rootMount).mntMountpoint = m.rootDentry ∧
      (m.vfsmount m.rootMount).mntRoot = m.rootDentry) :
    ∃ t : MountTree, m.mountExt2 2 (some new) = some (0, t.toMounts) ∧
      t.mounts = [m.rootMount, ext2] := by
  have mounted : m.mountExt2 2 (some new) = some (0, { m with
      dentry := Function.update m.dentry new ⟨m.rootDentry, 1⟩
      vfsmount := Function.update m.vfsmount ext2
        { m.vfsmount ext2 with mntParent := m.rootMount, mntMountpoint := new } }) := by
    simp [Mounts.mountExt2, Mounts.findExt2, first, ne, isExt2]
  have only : ∀ p ∈ [m.rootMount, ext2], p ≠ m.rootMount → p = ext2 := by
    intro p mem notRoot
    simpa [notRoot] using mem
  refine ⟨{ m with
    dentry := Function.update m.dentry new ⟨m.rootDentry, 1⟩
    vfsmount := Function.update m.vfsmount ext2
      { m.vfsmount ext2 with mntParent := m.rootMount, mntMountpoint := new }
    mounts := [m.rootMount, ext2]
    depth := fun p => if p = m.rootMount then 0 else 1
    ring := ?_
    root_mounted := ?_
    closer := ?_
    inner := ?_
    counted := ?_
    apart := ?_ }, mounted, rfl⟩
  · apply Follows.link
    · simpa [ne.symm, first] using ne
    · simp only [Function.update_of_ne ne.symm, first]
      apply Follows.last
      simp [second]
  · rw [Function.update_of_ne ne.symm]
    exact root
  · intro p mem notRoot
    rw [only p mem notRoot]
    simp [ne]
  · intro p mem notRoot
    rw [only p mem notRoot]
    simpa [ne.symm, root.2.2] using fresh
  · intro p mem notRoot
    rw [only p mem notRoot]
    simp
  · intro p memP q memQ notRootP notRootQ _
    rw [only p memP notRootP, only q memQ notRootQ]

/-! ## Up: from root to root -/

/-- From a dentry that is not the root of its file system up to the parent directory. -/
theorem followDotdot_inside (mem : p ∈ t.mounts) {d : ℕ} (inside : d ≠ (t.vfsmount p).mntRoot)
    {fuel : ℕ} : t.followDotdot (fuel + 1) ⟨p, d⟩ = some ⟨p, (t.dentry d).dParent⟩ := by
  have notTop : ¬(d = t.rootDentry ∧ p = t.rootMount) := by
    rintro ⟨rfl, rfl⟩
    exact inside t.root_mounted.2.2.symm
  simp only [Mounts.followDotdot, notTop, inside, if_false, ne_eq, not_false_eq_true, if_true]

/-- The top of the tree is above itself. -/
theorem followDotdot_top {fuel : ℕ} : t.followDotdot (fuel + 1) ⟨t.rootMount, t.rootDentry⟩ =
    some ⟨t.rootMount, t.rootDentry⟩ := by
  simp only [Mounts.followDotdot, and_self, if_true]

/-- From the root of a mounted file system the loop goes on from the dentry it is mounted on. -/
theorem followDotdot_rootOf (ne : p ≠ t.rootMount) {fuel : ℕ} :
    t.followDotdot (fuel + 1) (t.rootOf p) = t.followDotdot fuel (t.above p) := by
  simp only [Mounts.followDotdot, Mounts.rootOf, ne, and_false, if_false, ne_eq,
    not_true_eq_false]
  rfl

/-- `follow_dotdot` comes to an end after as many steps as mounts lie above the place. -/
theorem followDotdot_isSome (mem : place.mnt ∈ t.mounts) :
    ∃ result, t.followDotdot (t.depth place.mnt + 2) place = some result := by
  induction reached : t.depth place.mnt using Nat.strong_induction_on generalizing place with
  | _ depth ih =>
      rcases place with ⟨p, d⟩
      by_cases inside : d = (t.vfsmount p).mntRoot
      · subst inside
        by_cases isRoot : p = t.rootMount
        · subst isRoot
          rw [t.root_mounted.2.2]
          exact ⟨_, t.followDotdot_top⟩
        · rcases t.closer p mem isRoot with ⟨memParent, closer⟩
          rcases @ih _ (reached ▸ closer) (t.above p) memParent rfl with ⟨result, ran⟩
          refine ⟨result, (t.followDotdot_rootOf isRoot).trans (Mounts.followDotdot_mono ?_ ran)⟩
          exact reached ▸ Nat.succ_le_succ closer
      · exact ⟨_, t.followDotdot_inside mem inside⟩

/-- What `follow_mount` leads to is the root of a mount of the place it started from. -/
theorem mounted_of_followMount {fuel : ℕ} {result : Place}
    (ran : t.followMount fuel place = some (0, result)) (moved : result ≠ place) :
    ∃ p ∈ t.mounts, p ≠ t.rootMount ∧ result = t.rootOf p ∧ place = t.above p := by
  unfold Mounts.followMount at ran
  split at ran
  · cases ran
    exact absurd rfl moved
  · rcases Option.map_eq_some_iff.mp ran with ⟨stopped, loop, gives⟩
    cases stopped with
    | none => exact absurd (Prod.mk.inj gives).1 (by decide)
    | some p =>
        have found := (Mounts.followMountLoop_find? t.ring loop).symm
        have mounted : t.MountedAt place p := by simpa using List.find?_some found
        have isAbove : place = t.above p := by
          rcases place with ⟨mnt, d⟩
          rw [← show _ = mnt from mounted.1, ← show _ = d from mounted.2]
          rfl
        refine ⟨p, List.mem_of_find?_eq_some found, ?_, (Prod.mk.inj gives).2.symm, isAbove⟩
        rintro rfl
        apply moved
        rw [← (Prod.mk.inj gives).2, isAbove]
        simp only [Mounts.above, t.root_mounted.1, t.root_mounted.2]

/-- Going up from where `follow_mount` leads gives the directory of the place it started from. -/
theorem followDotdot_crossing :
    (∀ place : Place, place.mnt ∈ t.mounts → ∃ fuel result, ∀ more ≥ fuel,
      t.followDotdot more place = some result) ∧
    (∀ fuel place result, t.followMount fuel place = some (0, result) → result ≠ place →
      ∃ p ∈ t.mounts, result = t.rootOf p ∧ ∀ more ≥ 2, t.followDotdot more result =
        some ⟨place.mnt, (t.dentry place.dentry).dParent⟩) ∧
    (∀ place : Place, place.mnt ∈ t.mounts → place ≠ t.rootOf place.mnt → ∀ more ≥ 1,
      t.followDotdot more place = some ⟨place.mnt, (t.dentry place.dentry).dParent⟩) ∧
    ∀ more ≥ 1, t.followDotdot more ⟨t.rootMount, t.rootDentry⟩ =
      some ⟨t.rootMount, t.rootDentry⟩ := by
  refine ⟨fun place mem => ?_, fun fuel place result ran moved => ?_,
    fun place mem ne more le => ?_, fun more le => ?_⟩
  · rcases t.followDotdot_isSome mem with ⟨result, reached⟩
    exact ⟨_, result, fun more le => Mounts.followDotdot_mono le reached⟩
  · rcases t.mounted_of_followMount ran moved with ⟨p, mem, ne, rfl, rfl⟩
    refine ⟨p, mem, rfl, fun more le => Mounts.followDotdot_mono le ?_⟩
    rw [t.followDotdot_rootOf ne]
    exact t.followDotdot_inside (t.closer p mem ne).1 (t.inner p mem ne)
  · rcases place with ⟨p, d⟩
    apply Mounts.followDotdot_mono le
    exact t.followDotdot_inside mem fun isRoot => ne (by rw [isRoot]; rfl)
  · exact Mounts.followDotdot_mono le t.followDotdot_top

/-- A file system mounted in the root directory, with another one mounted in its root. -/
def nested : MountTree where
  vfsmount
    | 0 => ⟨2, 0, 10, 10, "FAT32"⟩
    | 1 => ⟨0, 0, 11, 20, "EXT2"⟩
    | _ => ⟨1, 1, 21, 30, "EXT2"⟩
  dentry
    | 11 => ⟨10, 1⟩
    | 21 => ⟨20, 1⟩
    | d => ⟨d, 0⟩
  rootMount := 0
  rootDentry := 10
  mounts := [0, 2, 1]
  depth := id
  ring := .link (by decide) (.link (by decide) (.last rfl))
  root_mounted := by decide
  closer := by decide
  inner := by decide
  counted := by decide
  apart := by decide

theorem followDotdot_crossing_nested :
    nested.followMount 3 ⟨1, 21⟩ = some (0, ⟨2, 30⟩) ∧
      nested.followDotdot 2 ⟨2, 30⟩ = some ⟨1, 20⟩ := by
  have moves : nested.followMount 3 ⟨1, 21⟩ = some (0, ⟨2, 30⟩) := by decide
  rcases nested.followDotdot_crossing.2.1 3 ⟨1, 21⟩ ⟨2, 30⟩ moves (by decide) with ⟨_, _, _, back⟩
  exact ⟨moves, back 2 le_rfl⟩

end MountTree

end Ninix.Vfs
