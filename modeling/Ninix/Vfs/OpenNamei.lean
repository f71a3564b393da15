import Ninix.Vfs.PathWalk

/-!
# Opening and creating

`open_namei` with `O_CREATE` walks to the directory of the last component and looks for the
component there. Where there is no such file, `i_op->create` makes one. A name of one or two dots
is sorted out by its type, but `do_path_lookup` gives that type to the name of a file only.
-/

namespace Ninix.Vfs

/-- `O_DIR` and `O_CREATE` -/
structure OpenFlags where
  dir : Bool
  create : Bool

/-- The functions `open_namei` calls beside the walk. The last two are those of the inode of the
directory; the result of `lookup` is the dentry if there is such a file. -/
structure CreateOps (σ : Type) extends PathOps σ where
  dcacheLookUp : σ → List ℕ → ℕ → Option ℕ
  dAlloc : σ → List ℕ → ℕ → Option ℕ × σ
  lookup : σ → ℕ → ℕ → LastKind → Option ℕ × σ
  create : σ → ℕ → ℕ → ℕ → Nameidata → ℕ × σ

/-- What a call of `open_namei` leaves: its code, `nd`, the state, and the dentry and `nd` it has
called `create` with, if it has. -/
structure Opened (σ : Type) where
  code : ℕ
  nd : Nameidata
  state : σ
  created : Option (ℕ × Nameidata)

namespace CreateOps

variable {σ : Type} (ops : CreateOps σ)

/-- `do_lookup_create` -/
def doLookupCreate (name : List ℕ) (pDentry : ℕ) (type : LastKind) (s : σ) : Option ℕ × σ :=
  match ops.dcacheLookUp s name pDentry with
  | some dentry => (some dentry, s)
  | none =>
      match ops.dAlloc s name pDentry with
      | (none, s) => (none, s)
      | (some new, s) =>
          match ops.lookup s pDentry new type with
          | (none, s) => (some new, s)
          | (some dentry, s) => (some dentry, s)

/-- `open_namei` from the check of the last component on -/
def openLast (mode : ℕ) (nd : Nameidata) (s : σ) : Opened σ :=
  if nd.lastType ≠ .norm ∧ nd.lastType ≠ .dir then ⟨sub32 0 elasttype, nd, s, none⟩
  else
    match ops.doLookupCreate nd.last nd.place.dentry nd.lastType s with
    | (none, s) => ⟨sub32 0 enomem, nd, s, none⟩
    | (some dentry, s) =>
        match ops.dInode s dentry with
        | some _ =>
            if nd.lastType = .dir then ⟨sub32 0 elasttype, nd, s, none⟩
            else ⟨0, { nd with place := { nd.place with dentry } }, s, none⟩
        | none =>
            match ops.create s nd.place.dentry dentry mode nd with
            | (0, s) => ⟨0, { nd with place := { nd.place with dentry } }, s, some (dentry, nd)⟩
            | (_ + 1, s) => ⟨sub32 0 enoinode, nd, s, some (dentry, nd)⟩

/-- `open_namei` -/
def openNamei (fuel : ℕ) (flag : OpenFlags) (mode : ℕ) (root pwd : Place) (path : List ℕ)
    (nd : Nameidata) (s : σ) : Option (Opened σ) :=
  (ops.pathLookup fuel ⟨flag.dir, flag.create⟩ root pwd path nd s).map fun (err, nd, s) =>
    if err ≠ 0 ∨ flag.create = false then ⟨err, nd, s, none⟩ else ops.openLast mode nd s

/-- `create` is called for a name that is not made of dots only, in the directory the other
components lead to. -/
def CreatesNamed (ops : CreateOps σ) (dir : Bool) (mode : ℕ) (root pwd : Place) (path : List ℕ)
    (nd : Nameidata) (s : σ) : Prop :=
  ∀ fuel ≥ path.length, ∃ result,
    ops.openNamei fuel ⟨dir, true⟩ mode root pwd path nd s = some result ∧
    ∀ dentry nd', result.created = some (dentry, nd') →
      nd'.last ≠ [46] ∧ nd'.last ≠ [46, 46] ∧
      (components path).getLast? = some nd'.last ∧
      ∃ s', ops.walk (components path).dropLast (startPlace root pwd path, s) =
        .ok (nd'.place, s')

/-- A directory has no file of a name, neither in the cache nor, where there is memory to look,
on the card. -/
def Lacks (ops : CreateOps σ) (name : List ℕ) (pDentry : ℕ) (type : LastKind) (s : σ) : Prop :=
  (∃ dentry, ops.dcacheLookUp s name pDentry = some dentry ∧ ops.dInode s dentry = none) ∨
  ops.dcacheLookUp s name pDentry = none ∧ ∃ new s₁, ops.dAlloc s name pDentry = (some new, s₁) ∧
    ops.dInode (ops.lookup s₁ pDentry new type).2
      ((ops.lookup s₁ pDentry new type).1.getD new) = none

/-- A directory is to be created under the name of one or two dots, below a directory that has no
file of that name. -/
def CreatesDots (ops : CreateOps σ) (dir : Bool) (root pwd : Place) (path : List ℕ) (s : σ) :
    Prop :=
  dir = true ∧ ∃ name, (components path).getLast? = some name ∧ (name = [46] ∨ name = [46, 46]) ∧
    ∃ place s₁ s₂, ops.walk (components path).dropLast (startPlace root pwd path, s) =
      .ok (place, s₁) ∧ ops.kmalloc s₁ (name.length + 1) = (true, s₂) ∧
      ops.Lacks name place.dentry .dir s₂

end CreateOps

namespace CreateOps

variable {σ : Type} {ops : CreateOps σ} {root pwd : Place} {path name : List ℕ} {nd : Nameidata}
  {s : σ} {fuel mode : ℕ} {dir : Bool}

theorem lacks_iff {pDentry : ℕ} {type : LastKind} : ops.Lacks name pDentry type s ↔
    ∃ dentry s', ops.doLookupCreate name pDentry type s = (some dentry, s') ∧
      ops.dInode s' dentry = none := by
  unfold Lacks doLookupCreate
  cases cached : ops.dcacheLookUp s name pDentry with
  | some dentry => simp
  | none =>
      rcases ops.dAlloc s name pDentry with ⟨_ | new, s₁⟩
      · simp
      · rcases found : ops.lookup s₁ pDentry new type with ⟨_ | dentry, s₂⟩ <;> simp [found]

/-- When the last part calls `create`. -/
theorem openLast_created (nd : Nameidata) {dentry : ℕ} {nd' : Nameidata} :
    (ops.openLast mode nd s).created = some (dentry, nd') ↔
      (nd.lastType = .norm ∨ nd.lastType = .dir) ∧ nd' = nd ∧
      ∃ s', ops.doLookupCreate nd.last nd.place.dentry nd.lastType s = (some dentry, s') ∧
        ops.dInode s' dentry = none := by
  unfold openLast
  split
  · rename_i others
    constructor
    · intro called
      cases called
    · rintro ⟨kind | kind, _⟩
      · exact absurd kind others.1
      · exact absurd kind others.2
  · rename_i kinds
    have kind : nd.lastType = .norm ∨ nd.lastType = .dir := by
      by_contra neither
      exact kinds (not_or.mp neither)
    rcases made : ops.doLookupCreate nd.last nd.place.dentry nd.lastType s with ⟨_ | found, s₁⟩
    · simp
    · rcases inodeOf : ops.dInode s₁ found with _ | inode
      · -- there is no such file, so one is made
        have called : ∀ left : Opened σ, left.created = some (found, nd) →
            (left.created = some (dentry, nd') ↔ (nd.lastType = .norm ∨ nd.lastType = .dir) ∧
              nd' = nd ∧ ∃ s', (some found, s₁) = (some dentry, s') ∧
                ops.dInode s' dentry = none) := by
          intro left call
          rw [call]
          constructor
          · intro same
            cases same
            exact ⟨kind, rfl, s₁, rfl, inodeOf⟩
          · rintro ⟨_, rfl, s', same, _⟩
            cases same
            rfl
        simp only [inodeOf]
        split
        · exact called _ rfl
        · exact called _ rfl
      · simp only [inodeOf]
        constructor
        · intro called
          split at called <;> cases called
        · rintro ⟨_, _, s', same, has⟩
          cases same
          rw [inodeOf] at has
          cases has

/-- The walk of a call that creates comes to the directory of a last component that passes. -/
def Passes (ops : CreateOps σ) (dir : Bool) (root pwd : Place) (path : List ℕ) (s : σ)
    (nd' : Nameidata) (s₂ : σ) : Prop :=
  ∃ name place s₁, (components path).getLast? = some name ∧
    ops.walk (components path).dropLast (startPlace root pwd path, s) = .ok (place, s₁) ∧
    (dir = false → ¬EndsInSlash path ∧ name ≠ [46] ∧ name ≠ [46, 46]) ∧
    ops.kmalloc s₁ (name.length + 1) = (true, s₂) ∧
    nd' = ⟨place, name, if dir then .dir else .norm⟩

/-- What the label `lookup_parent` leaves for a last component. -/
theorem lookupParent_passes (nd : Nameidata) (name : List ℕ) (s₁ : σ) {nd' : Nameidata} {s₂ : σ} :
    (ops.lookupParent ⟨dir, true⟩ nd name s₁ = (0, nd', s₂) ∧
      (nd'.lastType = .norm ∨ nd'.lastType = .dir)) ↔
    (dir = false → name ≠ [46] ∧ name ≠ [46, 46]) ∧
      ops.kmalloc s₁ (name.length + 1) = (true, s₂) ∧
      nd' = ⟨nd.place, name, if dir then .dir else .norm⟩ := by
  unfold PathOps.lookupParent
  rcases memory : ops.kmalloc s₁ (name.length + 1) with ⟨_ | _, s₃⟩
  · have code : sub32 0 enomem ≠ 0 := by decide
    simp [code]
  · cases dir with
    | true =>
        simp only [if_true, Prod.mk.injEq, true_and, Bool.true_eq_false, false_implies]
        constructor
        · rintro ⟨⟨rfl, rfl⟩, _⟩
          exact ⟨rfl, rfl⟩
        · rintro ⟨rfl, rfl⟩
          exact ⟨⟨rfl, rfl⟩, Or.inr rfl⟩
    | false =>
        simp only [Bool.false_eq_true, if_false, Prod.mk.injEq, true_and, true_implies]
        by_cases dot : name = [46]
        · subst dot
          constructor
          · rintro ⟨⟨rfl, rfl⟩, kind | kind⟩ <;> cases kind
          · rintro ⟨⟨notDot, _⟩, _⟩
            exact absurd rfl notDot
        · by_cases dotdot : name = [46, 46]
          · subst dotdot
            constructor
            · rintro ⟨⟨rfl, rfl⟩, kind | kind⟩ <;> cases kind
            · rintro ⟨⟨_, notDotdot⟩, _⟩
              exact absurd rfl notDotdot
          · have notDot : ¬isDot name = true := fun yes => dot (isDot_iff.mp yes)
            have notDotdot : ¬isDotdot name = true := fun yes => dotdot (isDotdot_iff.mp yes)
            rw [if_neg notDot, if_neg notDotdot]
            constructor
            · rintro ⟨⟨rfl, rfl⟩, _⟩
              exact ⟨⟨dot, dotdot⟩, rfl, rfl⟩
            · rintro ⟨_, rfl, rfl⟩
              exact ⟨⟨rfl, rfl⟩, Or.inl rfl⟩

/-- Where looking up the directory of the last component succeeds with a type that passes. -/
theorem pathLookup_passes (ops : CreateOps σ) (dir : Bool) (root pwd : Place) (nd : Nameidata)
    (s : σ) (enough : path.length ≤ fuel) : ∃ result,
    ops.pathLookup fuel ⟨dir, true⟩ root pwd path nd s = some result ∧ ∀ nd' s₂,
      (result = (0, nd', s₂) ∧ (nd'.lastType = .norm ∨ nd'.lastType = .dir)) ↔
        ops.Passes dir root pwd path s nd' s₂ := by
  rcases eq_or_ne (components path) [] with none | some_name
  · have notPasses : ∀ nd' s₂, ¬ops.Passes dir root pwd path s nd' s₂ := by
      rintro nd' s₂ ⟨name, place, s₁, isLast, _⟩
      rw [none] at isLast
      cases isLast
    rcases eq_or_ne path [] with rfl | nonempty
    · refine ⟨_, rfl, fun nd' s₂ => iff_of_false ?_ (notPasses nd' s₂)⟩
      rintro ⟨same, _⟩
      exact absurd (Prod.mk.inj same).1 (by decide)
    · refine ⟨_, PathOps.pathLookup_slashes nonempty none, fun nd' s₂ =>
        iff_of_false ?_ (notPasses nd' s₂)⟩
      rintro ⟨same, kind⟩
      rcases Prod.mk.inj (Prod.mk.inj same).2 with ⟨rfl, _⟩
      rcases kind with kind | kind <;> cases kind
  · rcases ops.toPathOps.pathLookup_ends ⟨dir, true⟩ root pwd nd s some_name enough with
      ⟨result, ran, ends⟩
    refine ⟨result, ran, fun nd' s₂ => ?_⟩
    unfold PathOps.EndsAs at ends
    split at ends
    · rename_i err failed
      apply iff_of_false
      · rintro ⟨rfl, _⟩
        exact PathOps.code_ne_zero ends.2 ends.1.symm
      · rintro ⟨name, place, s₁, _, walked, _⟩
        rw [failed] at walked
        cases walked
    · rename_i place s₁ walked
      rcases ends with ⟨name, isLast, rfl⟩
      have passes_iff : ops.Passes dir root pwd path s nd' s₂ ↔
          (dir = false → ¬EndsInSlash path ∧ name ≠ [46] ∧ name ≠ [46, 46]) ∧
          ops.kmalloc s₁ (name.length + 1) = (true, s₂) ∧
          nd' = ⟨place, name, if dir then .dir else .norm⟩ := by
        constructor
        · rintro ⟨name', place', s₁', isName, walked', rest⟩
          cases isName.symm.trans isLast
          cases walked'.symm.trans walked
          exact rest
        · rintro rest
          exact ⟨name, place, s₁, isLast, walked, rest⟩
      rw [passes_iff]
      by_cases refused : EndsInSlash path ∧ dir = false
      · apply iff_of_false
        · rintro ⟨same, _⟩
          rw [PathOps.finish, if_pos refused] at same
          exact absurd (Prod.mk.inj same).1 (by decide)
        · rintro ⟨passes, _⟩
          exact (passes refused.2).1 refused.1
      · have goes : ops.finish ⟨dir, true⟩ (EndsInSlash path)
            { nd with place, lastType := .root } name s₁ =
            ops.lookupParent ⟨dir, true⟩ { nd with place, lastType := .root } name s₁ := by
          rw [PathOps.finish, if_neg refused]
          rfl
        rw [goes, lookupParent_passes]
        apply and_congr_left
        intro _
        constructor
        · intro passes isFile
          exact ⟨fun slash => refused ⟨slash, isFile⟩, passes isFile⟩
        · intro passes isFile
          exact (passes isFile).2

/-- When `open_namei` calls `create`, and with what. -/
theorem openNamei_created (ops : CreateOps σ) (dir : Bool) (mode : ℕ) (root pwd : Place)
    (nd : Nameidata) (s : σ) (enough : path.length ≤ fuel) : ∃ result,
    ops.openNamei fuel ⟨dir, true⟩ mode root pwd path nd s = some result ∧ ∀ dentry nd',
      result.created = some (dentry, nd') ↔ ∃ s₂, ops.Passes dir root pwd path s nd' s₂ ∧
        ∃ s', ops.doLookupCreate nd'.last nd'.place.dentry nd'.lastType s₂ = (some dentry, s') ∧
          ops.dInode s' dentry = none := by
  rcases ops.pathLookup_passes dir root pwd nd s enough with ⟨⟨err, nd₁, s₁⟩, ran, passes⟩
  refine ⟨_, by rw [openNamei, ran, Option.map_some], fun dentry nd' => ?_⟩
  simp only [Bool.true_eq_false, or_false]
  by_cases failed : err ≠ 0
  · rw [if_pos failed]
    apply iff_of_false
    · intro called
      cases called
    · rintro ⟨s₂, passed, _⟩
      exact failed (Prod.mk.inj ((passes nd' s₂).mpr passed).1).1
  · rw [if_neg failed, openLast_created]
    rw [ne_eq, not_not] at failed
    constructor
    · rintro ⟨kind, rfl, found⟩
      exact ⟨s₁, (passes nd' s₁).mp ⟨by rw [failed], kind⟩, found⟩
    · rintro ⟨s₂, passed, found⟩
      rcases (passes nd' s₂).mpr passed with ⟨same, kind⟩
      cases same
      exact ⟨kind, rfl, found⟩

/-- `open_namei` creates files under names not made of dots only, in the directory the other
components of the path lead to, exactly if it is not to create a directory under such a name. -/
theorem createsNamed_iff (ops : CreateOps σ) (dir : Bool) (mode : ℕ) (root pwd : Place)
    (path : List ℕ) (nd : Nameidata) (s : σ) :
    ops.CreatesNamed dir mode root pwd path nd s ↔ ¬ops.CreatesDots dir root pwd path s := by
  constructor
  · rintro named ⟨isDir, name, isLast, dots, place, s₁, s₂, walked, memory, lacks⟩
    rcases ops.openNamei_created dir mode root pwd nd s (le_refl path.length) with
      ⟨result, ran, created⟩
    rcases named path.length le_rfl with ⟨result', ran', onlyNamed⟩
    cases ran.symm.trans ran'
    rcases lacks_iff.mp lacks with ⟨dentry, s₃, made, noInode⟩
    have called : result.created = some (dentry, ⟨place, name, if dir then .dir else .norm⟩) := by
      apply (created _ _).mpr
      refine ⟨s₂, ⟨name, place, s₁, isLast, walked, ?_, memory, rfl⟩, s₃, ?_, noInode⟩
      · intro isFile
        rw [isDir] at isFile
        cases isFile
      · rw [isDir]
        exact made
    rcases onlyNamed _ _ called with ⟨notDot, notDotdot, _⟩
    exact dots.elim notDot notDotdot
  · intro noDots fuel enough
    rcases ops.openNamei_created dir mode root pwd nd s enough with ⟨result, ran, created⟩
    refine ⟨result, ran, fun dentry nd' called => ?_⟩
    rcases (created _ _).mp called with
      ⟨s₂, ⟨name, place, s₁, isLast, walked, passes, memory, rfl⟩, s₃, made, noInode⟩
    have notDots : name ≠ [46] ∧ name ≠ [46, 46] := by
      cases dir with
      | false => exact (passes rfl).2
      | true =>
          rw [← not_or]
          intro dots
          exact noDots ⟨rfl, name, isLast, dots, place, s₁, s₂, walked, memory,
            lacks_iff.mpr ⟨dentry, s₃, made, noInode⟩⟩
    exact ⟨notDots.1, notDots.2, isLast, s₁, walked⟩

/-- A root directory that stores neither of the dots, with nothing in the cache. -/
def bareRoot : CreateOps Unit where
  doLookup _ _ _ _ := (none, ())
  followMount _ place := some place
  followDotdot _ place := place
  dInode _ dentry := if dentry = 0 then some 0 else none
  hasLookup _ _ := true
  kmalloc _ _ := (true, ())
  dcacheLookUp _ _ _ := none
  dAlloc _ _ _ := (some 1, ())
  lookup _ _ _ _ := (none, ())
  create _ _ _ _ _ := (0, ())

theorem createsNamed_iff_bareRoot :
    bareRoot.CreatesNamed false 0 ⟨0, 0⟩ ⟨0, 0⟩ [46] ⟨⟨0, 0⟩, [], .root⟩ () :=
  (createsNamed_iff bareRoot false 0 ⟨0, 0⟩ ⟨0, 0⟩ [46] ⟨⟨0, 0⟩, [], .root⟩ ()).mpr
    fun dots => Bool.false_ne_true dots.1

/-- `create` is called for the directory `.` of the root. -/
theorem not_createsNamed : ¬∀ dir path,
    bareRoot.CreatesNamed dir 0 ⟨0, 0⟩ ⟨0, 0⟩ path ⟨⟨0, 0⟩, [], .root⟩ () := by
  intro always
  rcases always true [46] 1 (by decide) with ⟨result, ran, onlyNamed⟩
  have opened : bareRoot.openNamei 1 ⟨true, true⟩ 0 ⟨0, 0⟩ ⟨0, 0⟩ [46] ⟨⟨0, 0⟩, [], .root⟩ () =
      some ⟨0, ⟨⟨0, 1⟩, [46], .dir⟩, (), some (1, ⟨⟨0, 0⟩, [46], .dir⟩)⟩ := rfl
  cases opened.symm.trans ran
  exact (onlyNamed 1 _ rfl).1 rfl

end CreateOps

end Ninix.Vfs
