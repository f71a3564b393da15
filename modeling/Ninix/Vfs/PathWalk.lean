import Ninix.Library.Tokens
import Ninix.Vfs.Mount
import Ninix.Vfs.Name

/-!
# Walking along a path

`path_lookup` starts at the root or at the current directory and goes through the components of a
path. A pointer moves over the path, from a component over the slashes behind it to the next one.
The last component is treated on its own: a directory is looked up as all the others are, a file
by a test of its name that differs, and where something is to be created the walk stops before it.

The functions the walk calls are given. They work on the state of the caches.
-/

namespace Ninix.Vfs

open Tokens

/-- `ENOMEM` -/
def enomem : ℕ := 512

/-- `ENOINODE` -/
def enoinode : ℕ := 514

/-- `ENOPATH` -/
def enopath : ℕ := 518

/-- `ELASTTYPE` -/
def elasttype : ℕ := 520

/-- `enum last_type` -/
inductive LastKind
  | norm
  | dir
  | root
  | dot
  | dotdot
  deriving DecidableEq

/-- `LOOKUP_DIRECTORY` and `LOOKUP_CREATE` in `nd->flags` -/
structure LookupFlags where
  directory : Bool
  create : Bool

/-- `struct nameidata` but for its flags, with the bytes of the last component. -/
structure Nameidata where
  place : Place
  last : List ℕ
  lastType : LastKind

/-- The functions a walk calls, with what it reads of dentries and inodes. -/
structure PathOps (σ : Type) where
  doLookup : σ → Place → List ℕ → LastType → Option Place × σ
  followMount : σ → Place → Option Place
  followDotdot : σ → Place → Place
  dInode : σ → ℕ → Option ℕ
  hasLookup : σ → ℕ → Bool
  kmalloc : σ → ℕ → Bool × σ

/-- The character `/` -/
def isSlash (c : ℕ) : Bool := c = 47

/-- The tests for the name `.` -/
def isDot (name : List ℕ) : Bool := name.getD 0 0 = 46 && name.length = 1

/-- The tests for the name `..` -/
def isDotdot (name : List ℕ) : Bool :=
  name.getD 0 0 = 46 && name.length = 2 && name.getD 1 0 = 46

/-- The tests a name has to fail where a file is looked for. -/
def isRefused (name : List ℕ) : Bool :=
  name.length = 1 || name.length = 2 && name.getD 1 0 = 46

namespace PathOps

variable {σ : Type} (ops : PathOps σ)

/-- `do_lookup`, `follow_mount` and the checks of the inode, as both parts of `do_path_lookup`
make them. -/
def enter (type : LastType) (nd : Nameidata) (thisName : List ℕ) (s : σ) : ℕ × Nameidata × σ :=
  match ops.doLookup s nd.place thisName type with
  | (none, s) => (sub32 0 enoinode, nd, s)
  | (some path, s) =>
      match ops.followMount s path with
      | none => (sub32 0 enovfsmnt, nd, s)
      | some path =>
          match ops.dInode s path.dentry with
          | none => (sub32 0 enoinode, nd, s)
          | some inode =>
              if type = .dir ∧ ops.hasLookup s inode = false then (sub32 0 enoinode, nd, s)
              else (0, { nd with place := path }, s)

/-- `do_path_lookup` from `lookup_parent` on -/
def lookupParent (flags : LookupFlags) (nd : Nameidata) (thisName : List ℕ) (s : σ) :
    ℕ × Nameidata × σ :=
  match ops.kmalloc s (thisName.length + 1) with
  | (false, s) => (sub32 0 enomem, nd, s)
  | (true, s) =>
      let lastType :=
        if flags.directory then .dir
        else if isDot thisName then .dot
        else if isDotdot thisName then .dotdot
        else .norm
      (0, { nd with last := thisName, lastType }, s)

/-- `do_path_lookup` from `last_component` on -/
def lastComponent (flags : LookupFlags) (nd : Nameidata) (thisName : List ℕ) (s : σ) :
    ℕ × Nameidata × σ :=
  if flags.create then ops.lookupParent flags nd thisName s
  else if flags.directory then
    if isDot thisName then (0, nd, s)
    else if isDotdot thisName then (0, { nd with place := ops.followDotdot s nd.place }, s)
    else ops.enter .dir nd thisName s
  else if isRefused thisName then (sub32 0 enopath, nd, s)
  else ops.enter .norm nd thisName s

/-- The main loop of `do_path_lookup`, with the pointer at a component. -/
def doPathLookupLoop (flags : LookupFlags) :
    ℕ → Nameidata → List ℕ → σ → Option (ℕ × Nameidata × σ)
  | 0, _, _, _ => none
  | fuel + 1, nd, p, s =>
      let thisName := p.takeWhile fun c => !isSlash c
      match p.dropWhile fun c => !isSlash c with
      | [] => some (ops.lastComponent flags nd thisName s)
      | slash :: behind =>
          match (slash :: behind).dropWhile isSlash with
          | [] =>
              -- the component has slashes behind it and is the last one
              if flags.directory then some (ops.lastComponent flags nd thisName s)
              else some (sub32 0 elasttype, nd, s)
          | c :: rest =>
              if isDot thisName then doPathLookupLoop flags fuel nd (c :: rest) s
              else if isDotdot thisName then
                doPathLookupLoop flags fuel { nd with place := ops.followDotdot s nd.place }
                  (c :: rest) s
              else
                match ops.enter .dir nd thisName s with
                | (0, nd, s) => doPathLookupLoop flags fuel nd (c :: rest) s
                | (err + 1, nd, s) => some (err + 1, nd, s)

/-- `do_path_lookup` -/
def doPathLookup (fuel : ℕ) (flags : LookupFlags) (name : List ℕ) (nd : Nameidata) (s : σ) :
    Option (ℕ × Nameidata × σ) :=
  match name.dropWhile isSlash with
  | [] => if flags.directory then some (0, nd, s) else some (sub32 0 enopath, nd, s)
  | c :: rest => ops.doPathLookupLoop flags fuel nd (c :: rest) s

/-- `path_lookup`, where `pwd` is the current directory and `nd` what the caller has in store. -/
def pathLookup (fuel : ℕ) (flags : LookupFlags) (root pwd : Place) (name : List ℕ)
    (nd : Nameidata) (s : σ) : Option (ℕ × Nameidata × σ) :=
  let nd := { nd with lastType := .root }
  match name with
  | [] => some (sub32 0 enopath, nd, s)
  | c :: _ =>
      ops.doPathLookup fuel flags name { nd with place := if isSlash c then root else pwd } s

end PathOps

/-! ## The walk over the components -/

/-- The components of a path. -/
def components (path : List ℕ) : List (List ℕ) := tokens isSlash path

/-- Where a walk starts. -/
def startPlace (root pwd : Place) (path : List ℕ) : Place :=
  if path.head? = some 47 then root else pwd

namespace PathOps

variable {σ : Type} (ops : PathOps σ)

/-- Go from a directory to a component of it: a dot stays, two dots lead up, and any other name
leads to the directory of that name. -/
def walkStep (here : Place × σ) (name : List ℕ) : Except ℕ (Place × σ) :=
  if name = [46] then .ok here
  else if name = [46, 46] then .ok (ops.followDotdot here.2 here.1, here.2)
  else
    match ops.doLookup here.2 here.1 name .dir with
    | (none, _) => .error (sub32 0 enoinode)
    | (some path, s) =>
        match ops.followMount s path with
        | none => .error (sub32 0 enovfsmnt)
        | some place =>
            if ∃ inode, ops.dInode s place.dentry = some inode ∧ ops.hasLookup s inode then
              .ok (place, s)
            else .error (sub32 0 enoinode)

/-- Go through components, up to the first that fails. -/
def walk (names : List (List ℕ)) (here : Place × σ) : Except ℕ (Place × σ) :=
  names.foldlM ops.walkStep here

end PathOps

/-! ## The tests of a name -/

theorem isDot_iff {name : List ℕ} : isDot name = true ↔ name = [46] := by
  rcases name with _ | ⟨c, _ | ⟨d, rest⟩⟩ <;> simp [isDot]

theorem isDotdot_iff {name : List ℕ} : isDotdot name = true ↔ name = [46, 46] := by
  rcases name with _ | ⟨c, _ | ⟨d, _ | ⟨e, rest⟩⟩⟩ <;> simp [isDotdot]

theorem isRefused_iff {name : List ℕ} :
    isRefused name = true ↔ (∃ c, name = [c]) ∨ ∃ c, name = [c, 46] := by
  rcases name with _ | ⟨c, _ | ⟨d, _ | ⟨e, rest⟩⟩⟩ <;> simp [isRefused]

namespace PathOps

variable {σ : Type} {ops : PathOps σ} {flags : LookupFlags} {nd : Nameidata} {name p : List ℕ}
  {place : Place} {s : σ}

theorem walkStep_dot : ops.walkStep (place, s) [46] = .ok (place, s) := rfl

theorem walkStep_dotdot :
    ops.walkStep (place, s) [46, 46] = .ok (ops.followDotdot s place, s) := rfl

/-- The checks of a directory that has a name of its own are those of a step of the walk. -/
theorem enter_dir (ops : PathOps σ) (nd : Nameidata) (s : σ) (notDot : name ≠ [46])
    (notDotdot : name ≠ [46, 46]) :
    (∃ place' s', ops.walkStep (nd.place, s) name = .ok (place', s') ∧
      ops.enter .dir nd name s = (0, { nd with place := place' }, s')) ∨
    ∃ err s', ops.walkStep (nd.place, s) name = .error err ∧
      (err = sub32 0 enoinode ∨ err = sub32 0 enovfsmnt) ∧
      ops.enter .dir nd name s = (err, nd, s') := by
  simp only [walkStep, notDot, notDotdot, if_false, enter]
  rcases ops.doLookup s nd.place name .dir with ⟨_ | path, s'⟩
  · exact Or.inr ⟨_, s', rfl, Or.inl rfl, rfl⟩
  · rcases followed : ops.followMount s' path with _ | place'
    · exact Or.inr ⟨_, s', by simp only [followed], Or.inr rfl, by simp only [followed]⟩
    · rcases inodeOf : ops.dInode s' place'.dentry with _ | inode
      · exact Or.inr ⟨_, s', by simp [followed, inodeOf], Or.inl rfl, by simp [followed, inodeOf]⟩
      · by_cases canLookup : ops.hasLookup s' inode
        · exact Or.inl ⟨place', s', by simp [followed, inodeOf, canLookup],
            by simp [followed, inodeOf, canLookup]⟩
        · exact Or.inr ⟨_, s', by simp [followed, inodeOf, canLookup], Or.inl rfl,
            by simp [followed, inodeOf, canLookup]⟩

end PathOps

/-! ## The pointer and the components -/

/-- A slash stands behind the last component. -/
def EndsInSlash (path : List ℕ) : Prop := path.getLast? = some 47

instance (path : List ℕ) : Decidable (EndsInSlash path) := inferInstanceAs (Decidable (_ = _))

theorem components_dropWhile (path : List ℕ) :
    components (path.dropWhile isSlash) = components path := tokens_dropWhile path

/-- What the pointer comes to from a component: the end, slashes and then the end, or slashes and
then the next component. -/
theorem component_cases {c : ℕ} {p : List ℕ} (notSlash : isSlash c = false) :
    ((c :: p).dropWhile (fun c => !isSlash c) = [] ∧
      components (c :: p) = [(c :: p).takeWhile fun c => !isSlash c] ∧ ¬EndsInSlash (c :: p)) ∨
    ∃ slash behind, (c :: p).dropWhile (fun c => !isSlash c) = slash :: behind ∧
      (((slash :: behind).dropWhile isSlash = [] ∧
        components (c :: p) = [(c :: p).takeWhile fun c => !isSlash c] ∧ EndsInSlash (c :: p)) ∨
      ∃ d rest, (slash :: behind).dropWhile isSlash = d :: rest ∧ isSlash d = false ∧
        rest.length < p.length ∧ components (c :: p) =
          ((c :: p).takeWhile fun c => !isSlash c) :: components (d :: rest) ∧
        (EndsInSlash (c :: p) ↔ EndsInSlash (d :: rest))) := by
  have first : components (c :: p) = ((c :: p).takeWhile fun c => !isSlash c) ::
      components ((c :: p).dropWhile fun c => !isSlash c) := tokens_cons notSlash
  have whole : ((c :: p).takeWhile fun c => !isSlash c) ++
      ((c :: p).dropWhile fun c => !isSlash c) = c :: p := List.takeWhile_append_dropWhile
  have shorter : ((c :: p).dropWhile fun c => !isSlash c).length ≤ p.length := by
    rw [List.dropWhile_cons_of_pos (by simp [notSlash])]
    exact List.length_dropWhile_le _ p
  cases reached : (c :: p).dropWhile fun c => !isSlash c with
  | nil =>
      refine Or.inl ⟨rfl, by rw [first, reached]; rfl, fun ends => ?_⟩
      rw [reached, List.append_nil] at whole
      have inName : 47 ∈ (c :: p).takeWhile fun c => !isSlash c := by
        rw [whole]
        exact List.mem_of_getLast? ends
      simpa [isSlash] using List.mem_takeWhile_imp inName
  | cons slash behind =>
      have ends_iff : EndsInSlash (c :: p) ↔ EndsInSlash (slash :: behind) := by
        rw [EndsInSlash, ← whole, reached, List.getLast?_append_of_ne_nil _ (by simp)]
        exact Iff.rfl
      refine Or.inr ⟨slash, behind, rfl, ?_⟩
      rw [first, ends_iff, reached, ← components_dropWhile]
      rw [reached] at shorter
      cases next : (slash :: behind).dropWhile isSlash with
      | nil =>
          refine Or.inl ⟨rfl, rfl, ?_⟩
          have allSlashes := List.dropWhile_eq_nil_iff.mp next
          have nonempty : slash :: behind ≠ [] := List.cons_ne_nil slash behind
          have lastSlash := allSlashes _ (List.getLast_mem nonempty)
          rw [EndsInSlash, List.getLast?_eq_some_getLast nonempty]
          simpa [isSlash] using lastSlash
      | cons d rest =>
          refine Or.inr ⟨d, rest, rfl, ?_, ?_, rfl, ?_⟩
          · have headNot := List.head_dropWhile_not isSlash (l := slash :: behind) (by simp [next])
            simpa [next] using headNot
          · have length := List.length_dropWhile_le isSlash (slash :: behind)
            rw [next, List.length_cons] at length
            omega
          · have parts : (slash :: behind).takeWhile isSlash ++ d :: rest = slash :: behind := by
              rw [← next]
              exact List.takeWhile_append_dropWhile
            rw [EndsInSlash, ← parts, List.getLast?_append_of_ne_nil _ (by simp)]
            exact Iff.rfl

namespace PathOps

variable {σ : Type} {ops : PathOps σ} {flags : LookupFlags}

/-- The end of the loop, at the last component. -/
def finish (ops : PathOps σ) (flags : LookupFlags) (slash : Prop) [Decidable slash]
    (nd : Nameidata) (name : List ℕ) (s : σ) : ℕ × Nameidata × σ :=
  if slash ∧ flags.directory = false then (sub32 0 elasttype, nd, s)
  else ops.lastComponent flags nd name s

/-- The loop ends as the walk over all components but the last does, and where that succeeds with
the last one. -/
def EndsAs (ops : PathOps σ) (flags : LookupFlags) (path : List ℕ) (nd : Nameidata) (s : σ)
    (result : ℕ × Nameidata × σ) : Prop :=
  match ops.walk (components path).dropLast (nd.place, s) with
  | .error err => result.1 = err ∧ (err = sub32 0 enoinode ∨ err = sub32 0 enovfsmnt)
  | .ok (place, s') => ∃ name, (components path).getLast? = some name ∧
      result = ops.finish flags (EndsInSlash path) { nd with place } name s'

theorem walk_cons {name : List ℕ} {names : List (List ℕ)} {here : Place × σ} :
    ops.walk (name :: names) here = ops.walkStep here name >>= ops.walk names := by
  rw [walk, List.foldlM_cons]
  rfl

/-- A step of the walk and the rest of the loop. -/
theorem EndsAs.step {path path' name : List ℕ} {nd : Nameidata} {place : Place} {s s' : σ}
    {result : ℕ × Nameidata × σ} (names : components path = name :: components path')
    (more : components path' ≠ []) (slash : EndsInSlash path ↔ EndsInSlash path')
    (stepped : ops.walkStep (nd.place, s) name = .ok (place, s'))
    (rest : ops.EndsAs flags path' { nd with place } s' result) :
    ops.EndsAs flags path nd s result := by
  rw [EndsAs, names, List.dropLast_cons_of_ne_nil more, walk_cons, stepped]
  simp only [List.getLast?_cons_of_ne_nil more, slash]
  exact rest

/-- A step that fails ends the loop. -/
theorem EndsAs.fail {path path' name : List ℕ} {nd nd' : Nameidata} {err : ℕ} {s s' : σ}
    (names : components path = name :: components path') (more : components path' ≠ [])
    (stepped : ops.walkStep (nd.place, s) name = .error err)
    (code : err = sub32 0 enoinode ∨ err = sub32 0 enovfsmnt) :
    ops.EndsAs flags path nd s (err, nd', s') := by
  rw [EndsAs, names, List.dropLast_cons_of_ne_nil more, walk_cons, stepped]
  exact ⟨rfl, code⟩

theorem doPathLookupLoop_ends (ops : PathOps σ) (flags : LookupFlags) {fuel c : ℕ} {p : List ℕ}
    (notSlash : isSlash c = false) (enough : p.length < fuel) (nd : Nameidata) (s : σ) :
    ∃ result, ops.doPathLookupLoop flags fuel nd (c :: p) s = some result ∧
      ops.EndsAs flags (c :: p) nd s result := by
  induction fuel generalizing c p nd s with
  | zero => omega
  | succ fuel ih =>
      rcases component_cases (p := p) notSlash with ⟨atEnd, names, noSlash⟩ |
        ⟨slash, behind, reached, ⟨slashes, names, ends⟩ | ⟨d, rest, next, notSlash', shorter,
          names, ends⟩⟩
      · refine ⟨ops.lastComponent flags nd ((c :: p).takeWhile fun c => !isSlash c) s,
          by simp only [doPathLookupLoop, atEnd], ?_⟩
        rw [EndsAs, names]
        exact ⟨(c :: p).takeWhile fun c => !isSlash c, rfl,
          by simp only [finish, noSlash, false_and, if_false]⟩
      · refine ⟨ops.finish flags (EndsInSlash (c :: p)) nd
          ((c :: p).takeWhile fun c => !isSlash c) s, ?_, ?_⟩
        · simp only [doPathLookupLoop, reached, slashes, finish, ends, true_and]
          by_cases directory : flags.directory <;> simp [directory]
        · rw [EndsAs, names]
          exact ⟨(c :: p).takeWhile fun c => !isSlash c, rfl, rfl⟩
      · have less : rest.length < fuel := by omega
        have more : components (d :: rest) ≠ [] := by
          rw [components, tokens_cons notSlash']
          exact List.cons_ne_nil _ _
        simp only [doPathLookupLoop, reached, next]
        generalize nameEq : ((c :: p).takeWhile fun c => !isSlash c) = name at names ⊢
        by_cases dot : name = [46]
        · subst dot
          rcases ih notSlash' less nd s with ⟨result, ran, rest⟩
          exact ⟨result, ran, .step names more ends walkStep_dot rest⟩
        · have notDot : ¬isDot name = true := fun yes => dot (isDot_iff.mp yes)
          rw [if_neg notDot]
          by_cases dotdot : name = [46, 46]
          · subst dotdot
            rcases ih notSlash' less { nd with place := ops.followDotdot s nd.place } s with
              ⟨result, ran, rest⟩
            exact ⟨result, ran, .step names more ends walkStep_dotdot rest⟩
          · have notDotdot : ¬isDotdot name = true := fun yes => dotdot (isDotdot_iff.mp yes)
            rw [if_neg notDotdot]
            rcases ops.enter_dir nd s dot dotdot with
              ⟨place', s', stepped, entered⟩ | ⟨err, s', stepped, code, entered⟩
            · rw [entered]
              rcases ih notSlash' less { nd with place := place' } s' with ⟨result, ran, rest⟩
              exact ⟨result, ran, .step names more ends stepped rest⟩
            · rw [entered]
              rcases code with rfl | rfl
              · exact ⟨_, rfl, .fail names more stepped (Or.inl rfl)⟩
              · exact ⟨_, rfl, .fail names more stepped (Or.inr rfl)⟩

/-! ## The whole path -/

variable {root pwd : Place} {path last : List ℕ} {nd : Nameidata} {s : σ} {fuel : ℕ}

theorem components_eq_nil_iff : components path = [] ↔ path.dropWhile isSlash = [] := by
  rw [← components_dropWhile]
  constructor
  · intro none
    cases dropped : path.dropWhile isSlash with
    | nil => rfl
    | cons c rest =>
        have notSlash := List.head_dropWhile_not isSlash (l := path) (by simp [dropped])
        simp only [dropped, List.head_cons] at notSlash
        rw [dropped, components, tokens_cons notSlash] at none
        exact absurd none (List.cons_ne_nil _ _)
  · intro none
    rw [none]
    rfl

/-- A path without components is looked up as the directory it starts with, or not at all. -/
theorem pathLookup_slashes (nonempty : path ≠ []) (none : components path = []) :
    ops.pathLookup fuel flags root pwd path nd s = some
      (if flags.directory then 0 else sub32 0 enopath,
        { nd with place := startPlace root pwd path, lastType := .root }, s) := by
  rcases path with _ | ⟨c, rest⟩
  · exact absurd rfl nonempty
  · have start : (if isSlash c = true then root else pwd) = startPlace root pwd (c :: rest) := by
      simp [startPlace, isSlash]
    simp only [pathLookup, doPathLookup, components_eq_nil_iff.mp none, start]
    split <;> rfl

/-- A path with components is looked up by the loop. -/
theorem pathLookup_ends (ops : PathOps σ) (flags : LookupFlags) (root pwd : Place)
    (nd : Nameidata) (s : σ) (some_name : components path ≠ []) (enough : path.length ≤ fuel) :
    ∃ result, ops.pathLookup fuel flags root pwd path nd s = some result ∧ ops.EndsAs flags path
      { nd with place := startPlace root pwd path, lastType := .root } s result := by
  have dropped_ne : path.dropWhile isSlash ≠ [] := fun none =>
    some_name (components_eq_nil_iff.mpr none)
  rcases List.exists_cons_of_ne_nil dropped_ne with ⟨c, rest, dropped⟩
  have notSlash : isSlash c = false := by
    simpa [dropped] using List.head_dropWhile_not isSlash (l := path) dropped_ne
  have shorter : rest.length < fuel := by
    have le := List.length_dropWhile_le isSlash path
    rw [dropped, List.length_cons] at le
    omega
  have same_end : EndsInSlash (c :: rest) ↔ EndsInSlash path := by
    have parts : path.takeWhile isSlash ++ c :: rest = path := by
      rw [← dropped]
      exact List.takeWhile_append_dropWhile
    rw [← parts, EndsInSlash, EndsInSlash, List.getLast?_append_of_ne_nil _ (List.cons_ne_nil _ _)]
  rcases path with _ | ⟨first, others⟩
  · exact absurd dropped (by simp)
  · have start : (if isSlash first = true then root else pwd) =
        startPlace root pwd (first :: others) := by simp [startPlace, isSlash]
    rcases ops.doPathLookupLoop_ends flags notSlash shorter
      { nd with place := startPlace root pwd (first :: others), lastType := .root } s with
      ⟨result, ran, ends⟩
    refine ⟨result, ?_, ?_⟩
    · simp only [pathLookup, doPathLookup, dropped, start]
      exact ran
    · rw [EndsAs, ← components_dropWhile, dropped]
      simpa only [EndsAs, finish, same_end] using ends

/-- The walk over all components is the walk up to the last one and a step. -/
theorem walk_last {names : List (List ℕ)} {here : Place × σ} (isLast : names.getLast? = some last) :
    ops.walk names here = ops.walk names.dropLast here >>= fun mid => ops.walkStep mid last := by
  conv_lhs => rw [← List.dropLast_append_getLast? last isLast]
  rw [walk, List.foldlM_append]
  simp only [List.foldlM_cons, List.foldlM_nil, bind_pure]
  rfl

/-! ## Looking a directory up -/

/-- The last component of a directory is treated as the others are. -/
theorem lastComponent_directory (ops : PathOps σ) (nd : Nameidata) (name : List ℕ) (s : σ) :
    (∃ place' s', ops.walkStep (nd.place, s) name = .ok (place', s') ∧
      ops.lastComponent ⟨true, false⟩ nd name s = (0, { nd with place := place' }, s')) ∨
    ∃ err s', ops.walkStep (nd.place, s) name = .error err ∧
      (err = sub32 0 enoinode ∨ err = sub32 0 enovfsmnt) ∧
      ops.lastComponent ⟨true, false⟩ nd name s = (err, nd, s') := by
  by_cases dot : name = [46]
  · subst dot
    exact Or.inl ⟨nd.place, s, rfl, rfl⟩
  · by_cases dotdot : name = [46, 46]
    · subst dotdot
      exact Or.inl ⟨ops.followDotdot s nd.place, s, rfl, rfl⟩
    · have notDot : ¬isDot name = true := fun yes => dot (isDot_iff.mp yes)
      have notDotdot : ¬isDotdot name = true := fun yes => dotdot (isDotdot_iff.mp yes)
      have entered : ops.lastComponent ⟨true, false⟩ nd name s = ops.enter .dir nd name s := by
        simp only [lastComponent, notDot, notDotdot, if_false, if_true, Bool.false_eq_true]
      rw [entered]
      exact ops.enter_dir nd s dot dotdot

theorem code_ne_zero {err : ℕ} (code : err = sub32 0 enoinode ∨ err = sub32 0 enovfsmnt) :
    err ≠ 0 := by
  rcases code with rfl | rfl <;> decide

/-- Looking a directory up comes to an end, and gives the place the walk over the components of
the path leads to, if it leads to one. -/
theorem pathLookup_directory (ops : PathOps σ) (root pwd : Place) (path : List ℕ) (nd : Nameidata)
    (s : σ) : ∀ fuel ≥ path.length, ∃ result,
      ops.pathLookup fuel ⟨true, false⟩ root pwd path nd s = some result ∧
      ∀ place s', (result.1 = 0 ∧ result.2.1.place = place ∧ result.2.2 = s') ↔
        path ≠ [] ∧ ops.walk (components path) (startPlace root pwd path, s) = .ok (place, s') := by
  intro fuel enough
  rcases eq_or_ne path [] with rfl | nonempty
  · refine ⟨_, rfl, fun place s' => ⟨fun succeeds => ?_, fun walked => absurd rfl walked.1⟩⟩
    exact absurd succeeds.1 (show sub32 0 enopath ≠ 0 by decide)
  · rcases eq_or_ne (components path) [] with none | some_name
    · refine ⟨_, pathLookup_slashes nonempty none, fun place s' => ?_⟩
      rw [none]
      constructor
      · rintro ⟨_, rfl, rfl⟩
        exact ⟨nonempty, rfl⟩
      · rintro ⟨_, walked⟩
        rcases Prod.mk.inj (Except.ok.inj walked) with ⟨rfl, rfl⟩
        exact ⟨rfl, rfl, rfl⟩
    · rcases ops.pathLookup_ends ⟨true, false⟩ root pwd nd s some_name enough with
        ⟨result, ran, ends⟩
      refine ⟨result, ran, fun place s' => ?_⟩
      unfold EndsAs at ends
      split at ends
      · -- a directory on the way is missing
        rename_i err failed
        have isLast := List.getLast?_eq_some_getLast some_name
        rw [walk_last isLast, failed]
        constructor
        · rintro ⟨zero, _⟩
          exact absurd (ends.1 ▸ zero) (code_ne_zero ends.2)
        · rintro ⟨_, walked⟩
          cases walked
      · rename_i mid s₁ walked
        rcases ends with ⟨last, isLast, rfl⟩
        have same : ops.walk (components path) (startPlace root pwd path, s) =
            ops.walkStep (mid, s₁) last := by
          rw [walk_last isLast, walked]
          rfl
        simp only [finish, Bool.true_eq_false, and_false, if_false, same]
        rcases ops.lastComponent_directory { nd with place := mid, lastType := .root } last s₁ with
          ⟨place₂, s₂, stepped, entered⟩ | ⟨err, s₂, stepped, code, entered⟩
        · rw [entered, stepped]
          constructor
          · rintro ⟨_, rfl, rfl⟩
            exact ⟨nonempty, rfl⟩
          · rintro ⟨_, eq⟩
            rcases Prod.mk.inj (Except.ok.inj eq) with ⟨rfl, rfl⟩
            exact ⟨rfl, rfl, rfl⟩
        · rw [entered, stepped]
          constructor
          · rintro ⟨zero, _⟩
            exact absurd zero (code_ne_zero code)
          · rintro ⟨_, eq⟩
            cases eq

/-- A directory `a` in the root with the files `f` and `fg`, all in one file system. -/
def smallTree : PathOps Unit where
  doLookup _ place name _ :=
    (if place.dentry = 0 ∧ name = [97] then some ⟨0, 1⟩
      else if place.dentry = 1 ∧ name = [102] then some ⟨0, 2⟩
      else if place.dentry = 1 ∧ name = [102, 103] then some ⟨0, 3⟩
      else none, ())
  followMount _ place := some place
  followDotdot _ _ := ⟨0, 0⟩
  dInode _ dentry := some dentry
  hasLookup _ inode := inode ≤ 1
  kmalloc _ _ := (true, ())

/-- The path `//a/.././a/`. -/
theorem pathLookup_directory_smallTree : ∃ result,
    smallTree.pathLookup 20 ⟨true, false⟩ ⟨0, 0⟩ ⟨0, 1⟩
      [47, 47, 97, 47, 46, 46, 47, 46, 47, 97, 47] ⟨⟨0, 0⟩, [], .root⟩ () = some result ∧
    result.1 = 0 ∧ result.2.1.place = ⟨0, 1⟩ := by
  rcases smallTree.pathLookup_directory ⟨0, 0⟩ ⟨0, 1⟩
    [47, 47, 97, 47, 46, 46, 47, 46, 47, 97, 47] ⟨⟨0, 0⟩, [], .root⟩ () 20 (by decide) with
    ⟨result, ran, succeeds⟩
  rcases (succeeds ⟨0, 1⟩ ()).mpr ⟨by decide, by decide +kernel⟩ with ⟨zero, place, _⟩
  exact ⟨result, ran, zero, place⟩

/-! ## Looking a file up -/

/-- The codes for a path that is not well formed. -/
def Malformed (code : ℕ) : Prop := code = sub32 0 enopath ∨ code = sub32 0 elasttype

/-- The walk over all components but the last one succeeds, and the last one is found as a file,
which leads to a place. -/
def ReachesFile (ops : PathOps σ) (names : List (List ℕ)) (here : Place × σ) (last : List ℕ)
    (place : Place) (s' : σ) : Prop :=
  ∃ dir mid path inode, ops.walk names.dropLast here = .ok (dir, mid) ∧
    ops.doLookup mid dir last .norm = (some path, s') ∧ ops.followMount s' path = some place ∧
    ops.dInode s' place.dentry = some inode

/-- The last component is refused only where it cannot name a file, and otherwise looked up in the
directory the others lead to. -/
def FindsAs (ops : PathOps σ) (root pwd : Place) (path : List ℕ) (s : σ)
    (result : ℕ × Nameidata × σ) : Prop :=
  (Malformed result.1 → components path = [] ∨ EndsInSlash path ∨
    (components path).getLast? = some [46] ∨ (components path).getLast? = some [46, 46]) ∧
  ∀ last, (components path).getLast? = some last → ¬EndsInSlash path → last ≠ [46] →
    last ≠ [46, 46] → ∀ place s', (result.1 = 0 ∧ result.2.1.place = place ∧ result.2.2 = s') ↔
      ops.ReachesFile (components path) (startPlace root pwd path, s) last place s'

/-- Looking a file up comes to an end, as it is meant to. -/
def FindsFile (ops : PathOps σ) (root pwd : Place) (path : List ℕ) (nd : Nameidata) (s : σ) :
    Prop :=
  ∀ fuel ≥ path.length, ∃ result,
    ops.pathLookup fuel ⟨false, false⟩ root pwd path nd s = some result ∧
    ops.FindsAs root pwd path s result

/-- The last component can name a file, but is a single character or ends in a dot behind one, and
the walk comes to it. -/
def RefusesFile (ops : PathOps σ) (root pwd : Place) (path : List ℕ) (s : σ) : Prop :=
  ∃ last, (components path).getLast? = some last ∧ ¬EndsInSlash path ∧ last ≠ [46] ∧
    last ≠ [46, 46] ∧ ((∃ c, last = [c]) ∨ ∃ c, last = [c, 46]) ∧
    ∃ here, ops.walk (components path).dropLast (startPlace root pwd path, s) = .ok here

theorem not_malformed {err : ℕ} (code : err = sub32 0 enoinode ∨ err = sub32 0 enovfsmnt) :
    ¬Malformed err := by
  rcases code with rfl | rfl <;> unfold Malformed <;> decide

/-- What becomes of a last component that is not refused. -/
theorem lastComponent_file (ops : PathOps σ) (nd : Nameidata) {name : List ℕ}
    (notRefused : isRefused name = false) (s : σ) :
    ¬Malformed (ops.lastComponent ⟨false, false⟩ nd name s).1 ∧ ∀ place s',
      ((ops.lastComponent ⟨false, false⟩ nd name s).1 = 0 ∧
        (ops.lastComponent ⟨false, false⟩ nd name s).2.1.place = place ∧
        (ops.lastComponent ⟨false, false⟩ nd name s).2.2 = s') ↔
      ∃ path inode, ops.doLookup s nd.place name .norm = (some path, s') ∧
        ops.followMount s' path = some place ∧ ops.dInode s' place.dentry = some inode := by
  have entered : ops.lastComponent ⟨false, false⟩ nd name s = ops.enter .norm nd name s := by
    simp [lastComponent, notRefused]
  rw [entered, enter]
  rcases ops.doLookup s nd.place name .norm with ⟨_ | path, s₁⟩
  · refine ⟨not_malformed (Or.inl rfl), fun place s' => ⟨fun zero => ?_, ?_⟩⟩
    · exact absurd zero.1 (code_ne_zero (Or.inl rfl))
    · rintro ⟨path, inode, found, _⟩
      cases found
  · rcases followed : ops.followMount s₁ path with _ | place₁
    · simp only [followed]
      refine ⟨not_malformed (Or.inr rfl), fun place s' => ⟨fun zero => ?_, ?_⟩⟩
      · exact absurd zero.1 (code_ne_zero (Or.inr rfl))
      · rintro ⟨path, inode, found, crossed, _⟩
        cases found
        rw [followed] at crossed
        cases crossed
    · rcases inodeOf : ops.dInode s₁ place₁.dentry with _ | inode
      · simp only [followed, inodeOf]
        refine ⟨not_malformed (Or.inl rfl), fun place s' => ⟨fun zero => ?_, ?_⟩⟩
        · exact absurd zero.1 (code_ne_zero (Or.inl rfl))
        · rintro ⟨path, inode, found, crossed, has⟩
          cases found
          cases followed.symm.trans crossed
          rw [inodeOf] at has
          cases has
      · simp only [followed, inodeOf, reduceCtorEq, false_and, if_false, true_and]
        refine ⟨by unfold Malformed; decide, fun place s' => ⟨?_, ?_⟩⟩
        · rintro ⟨rfl, rfl⟩
          exact ⟨path, inode, rfl, followed, inodeOf⟩
        · rintro ⟨path, inode, found, crossed, has⟩
          cases found
          cases followed.symm.trans crossed
          exact ⟨rfl, rfl⟩

/-- A path without a component is in nobody's way. -/
theorem findsAs_of_nil (ops : PathOps σ) (none : components path = [])
    (result : ℕ × Nameidata × σ) :
    ops.FindsAs root pwd path s result ↔ ¬ops.RefusesFile root pwd path s := by
  apply iff_of_true
  · refine ⟨fun _ => Or.inl none, fun last isLast => ?_⟩
    rw [none] at isLast
    cases isLast
  · rintro ⟨last, isLast, _⟩
    rw [none] at isLast
    cases isLast

/-- Where a directory on the way is missing, no file is found, and none is refused. -/
theorem findsAs_of_error (ops : PathOps σ) {err : ℕ} {result : ℕ × Nameidata × σ}
    (failed : ops.walk (components path).dropLast (startPlace root pwd path, s) = .error err)
    (isErr : result.1 = err) (code : err = sub32 0 enoinode ∨ err = sub32 0 enovfsmnt) :
    ops.FindsAs root pwd path s result ↔ ¬ops.RefusesFile root pwd path s := by
  apply iff_of_true
  · refine ⟨fun malformed => absurd (isErr ▸ malformed) (not_malformed code), ?_⟩
    intro last isLast _ _ _ place s'
    constructor
    · exact fun zero => absurd (isErr ▸ zero.1) (code_ne_zero code)
    · rintro ⟨dir, mid, _, _, walked, _⟩
      rw [failed] at walked
      cases walked
  · rintro ⟨last, isLast, _, _, _, _, here, walked⟩
    rw [failed] at walked
    cases walked

/-- A name with a slash behind it is no file. -/
theorem findsAs_of_slash (ops : PathOps σ) (slash : EndsInSlash path)
    (result : ℕ × Nameidata × σ) :
    ops.FindsAs root pwd path s result ↔ ¬ops.RefusesFile root pwd path s := by
  apply iff_of_true
  · exact ⟨fun _ => Or.inr (Or.inl slash), fun _ _ noSlash => absurd slash noSlash⟩
  · rintro ⟨_, _, noSlash, _⟩
    exact noSlash slash

/-- A name that is refused is refused rightly only if it is a dot or two. -/
theorem findsAs_of_refused (ops : PathOps σ) {here : Place × σ} {result : ℕ × Nameidata × σ}
    (isLast : (components path).getLast? = some last) (noSlash : ¬EndsInSlash path)
    (walked : ops.walk (components path).dropLast (startPlace root pwd path, s) = .ok here)
    (refused : isRefused last = true) (code : result.1 = sub32 0 enopath) :
    ops.FindsAs root pwd path s result ↔ ¬ops.RefusesFile root pwd path s := by
  constructor
  · rintro ⟨onlyBad, _⟩ ⟨name, isName, _, notDot, notDotdot, _⟩
    rcases onlyBad (Or.inl code) with none | slash | isDot | isDotdot
    · rw [none] at isLast
      cases isLast
    · exact noSlash slash
    · exact notDot (Option.some.inj (isName.symm.trans isDot))
    · exact notDotdot (Option.some.inj (isName.symm.trans isDotdot))
  · intro notRefuses
    have isDots : last = [46] ∨ last = [46, 46] := by
      by_contra neither
      rw [not_or] at neither
      exact notRefuses ⟨last, isLast, noSlash, neither.1, neither.2,
        isRefused_iff.mp refused, here, walked⟩
    refine ⟨fun _ => ?_, fun name isName _ notDot notDotdot => ?_⟩
    · rcases isDots with rfl | rfl
      · exact Or.inr (Or.inr (Or.inl isLast))
      · exact Or.inr (Or.inr (Or.inr isLast))
    · cases isName.symm.trans isLast
      rcases isDots with isDot | isDotdot
      · exact absurd isDot notDot
      · exact absurd isDotdot notDotdot

/-- A name that is not refused is looked up in the directory the others lead to. -/
theorem findsAs_of_accepted (ops : PathOps σ) {dir : Place} {mid : σ} (nd : Nameidata)
    (isLast : (components path).getLast? = some last)
    (walked : ops.walk (components path).dropLast (startPlace root pwd path, s) = .ok (dir, mid))
    (accepted : isRefused last = false) :
    ops.FindsAs root pwd path s
        (ops.lastComponent ⟨false, false⟩ { nd with place := dir } last mid) ↔
      ¬ops.RefusesFile root pwd path s := by
  rcases ops.lastComponent_file { nd with place := dir } accepted mid with ⟨wellFormed, succeeds⟩
  apply iff_of_true
  · refine ⟨fun malformed => absurd malformed wellFormed, ?_⟩
    intro name isName _ _ _ place s'
    cases isName.symm.trans isLast
    rw [succeeds]
    constructor
    · rintro ⟨path', inode, found⟩
      exact ⟨dir, mid, path', inode, walked, found⟩
    · rintro ⟨dir', mid', path', inode, walked', found⟩
      cases walked.symm.trans walked'
      exact ⟨path', inode, found⟩
  · rintro ⟨name, isName, _, _, _, shape, _⟩
    cases isName.symm.trans isLast
    rw [isRefused_iff.mpr shape] at accepted
    cases accepted

theorem findsAs_iff (ops : PathOps σ) (root pwd : Place) (nd : Nameidata) (s : σ)
    (enough : path.length ≤ fuel) : ∃ result,
    ops.pathLookup fuel ⟨false, false⟩ root pwd path nd s = some result ∧
    (ops.FindsAs root pwd path s result ↔ ¬ops.RefusesFile root pwd path s) := by
  rcases eq_or_ne (components path) [] with none | some_name
  · -- the path is empty or has slashes only
    rcases eq_or_ne path [] with rfl | nonempty
    · exact ⟨_, rfl, ops.findsAs_of_nil none _⟩
    · exact ⟨_, pathLookup_slashes nonempty none, ops.findsAs_of_nil none _⟩
  · rcases ops.pathLookup_ends ⟨false, false⟩ root pwd nd s some_name enough with
      ⟨result, ran, ends⟩
    refine ⟨result, ran, ?_⟩
    unfold EndsAs at ends
    split at ends
    · rename_i err failed
      exact ops.findsAs_of_error failed ends.1 ends.2
    · rename_i dir mid walked
      rcases ends with ⟨last, isLast, rfl⟩
      by_cases slash : EndsInSlash path
      · exact ops.findsAs_of_slash slash _
      · simp only [finish, slash, false_and, if_false]
        by_cases refused : isRefused last = true
        · apply ops.findsAs_of_refused isLast slash walked refused
          simp [lastComponent, refused]
        · exact ops.findsAs_of_accepted { nd with lastType := .root } isLast walked
            (Bool.eq_false_iff.mpr refused)

/-- Looking a file up does what it is meant to exactly if it does not come to a name of a single
character or of one character and a dot. -/
theorem findsFile_iff (ops : PathOps σ) (root pwd : Place) (path : List ℕ) (nd : Nameidata)
    (s : σ) : ops.FindsFile root pwd path nd s ↔ ¬ops.RefusesFile root pwd path s := by
  constructor
  · intro finds
    rcases ops.findsAs_iff root pwd nd s (le_refl path.length) with ⟨result, ran, iff⟩
    rcases finds path.length le_rfl with ⟨result', ran', as'⟩
    cases ran.symm.trans ran'
    exact iff.mp as'
  · intro notRefused fuel enough
    rcases ops.findsAs_iff root pwd nd s enough with ⟨result, ran, iff⟩
    exact ⟨result, ran, iff.mpr notRefused⟩

theorem findsFile_iff_smallTree :
    smallTree.FindsFile ⟨0, 0⟩ ⟨0, 0⟩ [47, 97, 47, 102, 103] ⟨⟨0, 0⟩, [], .root⟩ () := by
  rw [findsFile_iff]
  rintro ⟨last, isLast, _, _, _, shape, _⟩
  have names : components [47, 97, 47, 102, 103] = [[97], [102, 103]] := by decide
  rw [names] at isLast
  cases isLast
  rcases shape with ⟨c, single⟩ | ⟨c, pair⟩
  · cases single
  · cases pair

/-- The file `/a/f` is refused. -/
theorem not_findsFile : ¬∀ path,
    smallTree.FindsFile ⟨0, 0⟩ ⟨0, 0⟩ path ⟨⟨0, 0⟩, [], .root⟩ () := by
  intro always
  rcases always [47, 97, 47, 102] 20 (by decide) with ⟨result, ran, onlyBad, _⟩
  have refused : smallTree.pathLookup 20 ⟨false, false⟩ ⟨0, 0⟩ ⟨0, 0⟩ [47, 97, 47, 102]
      ⟨⟨0, 0⟩, [], .root⟩ () = some (sub32 0 enopath, ⟨⟨0, 1⟩, [], .root⟩, ()) := rfl
  cases refused.symm.trans ran
  have names : components [47, 97, 47, 102] = [[97], [102]] := by decide
  rw [names] at onlyBad
  rcases onlyBad (Or.inl rfl) with none | ends | isDot | isDotdot
  · cases none
  · exact absurd ends (by decide)
  · cases isDot
  · cases isDotdot

end PathOps

end Ninix.Vfs
