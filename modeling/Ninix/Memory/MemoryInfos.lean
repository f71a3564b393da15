import Ninix.Memory.Bootmm

/-!
# The table of memory regions

`insert_mminfo` puts a region into a table of regions in the order of their addresses. It looks
for a region of the same type: one that the new region connects to, or one that it seems to be
behind. The first of these decides what is done, and most of what can be done is right in some
tables only: a region in front is overwritten and not moved, infos behind two connected regions
are not moved, and a region of another type is put behind all others wherever it lies.
-/

namespace Ninix.Boot

/-- An address is in a region, which has a type. -/
def BootmmInfo.Has (info : BootmmInfo) (address type : ℕ) : Prop :=
  info.start ≤ address ∧ address ≤ info.last ∧ info.type = type

namespace Bootmm

variable {s : Bootmm} {start last type : ℕ}

/-- The table assigns a type to an address. -/
def HasType (s : Bootmm) (address type : ℕ) : Prop :=
  ∃ i < s.cntInfos, (s.info i).Has address type

/-- The regions are in the order of their addresses. -/
structure Ordered (s : Bootmm) : Prop where
  cnt : s.cntInfos ≤ maxInfo
  region : ∀ i < s.cntInfos, (s.info i).start ≤ (s.info i).last
  inside : ∀ i < s.cntInfos, (s.info i).last < 2 ^ 32
  next : ∀ i, i + 1 < s.cntInfos → (s.info i).last < (s.info (i + 1)).start

/-- A new region shares no address with the table. -/
structure Apart (s : Bootmm) (start last : ℕ) : Prop where
  region : start ≤ last
  inside : last < 2 ^ 32
  disjoint : ∀ i < s.cntInfos, last < (s.info i).start ∨ (s.info i).last < start

/-- A region is refused, or it is in the table with all that was there. -/
def Keeps (s : Bootmm) (start last type : ℕ) : InsertionState × Bootmm → Prop
  | (state, s') => (state = .failed ∧ s' = s) ∨
      (s'.Ordered ∧ ∀ address t, s'.HasType address t ↔
        s.HasType address t ∨ (start ≤ address ∧ address ≤ last ∧ type = t))

/-- The table has all that was in it and the new region. -/
def Gains (s s' : Bootmm) (start last type : ℕ) : Prop :=
  ∀ address t, s'.HasType address t ↔
    s.HasType address t ∨ (start ≤ address ∧ address ≤ last ∧ type = t)

/-- The loop of `insert_mminfo` comes to an end at an info. -/
def Acts (s : Bootmm) (start last type i : ℕ) : Prop :=
  (s.info i).type = type ∧
    ((s.info i).last = sub32 start 1 ∨
      ((s.info i).last < sub32 start 1 ∧ last < sub32 (s.info (i + 1)).start 1) ∨
      sub32 (s.info i).start 1 = last)

/-- What is done at an info is right: a region that connects to the one behind as well connects
to the last one, of the same type; the info that is overwritten happens to stand behind; and the
addresses do not go round. -/
def Right (s : Bootmm) (start last type i : ℕ) : Prop :=
  if (s.info i).last = sub32 start 1 then
    start ≠ 0 ∧ (i + 1 < s.cntInfos → (s.info (i + 1)).start = last + 1 →
      i + 2 = s.cntInfos ∧ (s.info (i + 1)).type = type)
  else if (s.info i).last < sub32 start 1 ∧ last < sub32 (s.info (i + 1)).start 1 then
    s.cntInfos = 1 ∧ start = 0 ∧ s.info 1 = s.info 0
  else (s.info i).start ≠ 0

/-- The table is full, the first info at which the loop ends is a right one, or there is none
and all regions are in front. -/
def Fits (s : Bootmm) (start last type : ℕ) : Prop :=
  s.cntInfos = maxInfo ∨
    (∃ i < s.cntInfos, (∀ j < i, ¬s.Acts start last type j) ∧ s.Acts start last type i ∧
      s.Right start last type i) ∨
    ∀ i < s.cntInfos, ¬s.Acts start last type i ∧ (s.info i).last < start

theorem sub32_one_of_pos {value : ℕ} (positive : 0 < value) (small : value < 2 ^ 32) :
    sub32 value 1 = value - 1 := sub32_of_le positive small

/-! ## Tables -/

theorem Ordered.lt (ordered : s.Ordered) {i j : ℕ} (lt : i < j) (inside : j < s.cntInfos) :
    (s.info i).last < (s.info j).start := by
  induction j with
  | zero => omega
  | succ j ih =>
      have next := ordered.next j inside
      rcases Nat.eq_or_lt_of_le (Nat.le_of_lt_succ lt) with rfl | front
      · exact next
      · have region := ordered.region j (by omega)
        have before := ih front (by omega)
        omega

/-- An address is in one region at most. -/
theorem Ordered.eq_of_has (ordered : s.Ordered) {i j address t u : ℕ} (inside : i < s.cntInfos)
    (inside' : j < s.cntInfos) (has : (s.info i).Has address t)
    (has' : (s.info j).Has address u) : i = j := by
  rcases Nat.lt_trichotomy i j with lt | eq | gt
  · have apart := ordered.lt lt inside'
    have lower := has'.1
    have upper := has.2.1
    omega
  · exact eq
  · have apart := ordered.lt gt inside
    have lower := has.1
    have upper := has'.2.1
    omega

theorem setMminfo_self (s : Bootmm) (i : ℕ) (info : BootmmInfo) :
    (s.setMminfo i info).info i = info := by
  rw [setMminfo]
  exact Function.update_self i info s.info

theorem setMminfo_of_ne (s : Bootmm) {i j : ℕ} (ne : j ≠ i) (info : BootmmInfo) :
    (s.setMminfo i info).info j = s.info j := by
  rw [setMminfo]
  exact Function.update_of_ne ne info s.info

/-- A region can be put in the place of another when it stays between its neighbours. -/
theorem Ordered.setMminfo (ordered : s.Ordered) {i : ℕ} {info : BootmmInfo}
    (region : info.start ≤ info.last) (small : info.last < 2 ^ 32)
    (behind : ∀ j, j + 1 = i → (s.info j).last < info.start)
    (front : i + 1 < s.cntInfos → info.last < (s.info (i + 1)).start) :
    (s.setMminfo i info).Ordered := by
  have at_i := s.setMminfo_self i info
  have others : ∀ j, j ≠ i → (s.setMminfo i info).info j = s.info j := fun j ne =>
    s.setMminfo_of_ne ne info
  refine ⟨ordered.cnt, fun j inside => ?_, fun j inside => ?_, fun j inside => ?_⟩
  · by_cases isNew : j = i
    · rw [isNew, at_i]
      exact region
    · rw [others j isNew]
      exact ordered.region j inside
  · by_cases isNew : j = i
    · rw [isNew, at_i]
      exact small
    · rw [others j isNew]
      exact ordered.inside j inside
  · by_cases isNew : j = i
    · rw [isNew, at_i, others (i + 1) (by omega)]
      exact front (isNew ▸ inside)
    · rw [others j isNew]
      by_cases isNext : j + 1 = i
      · rw [isNext, at_i]
        exact behind j isNext
      · rw [others (j + 1) isNext]
        exact ordered.next j inside

/-- What is in a region that is replaced is in the region that replaces it. -/
theorem hasType_setMminfo {i : ℕ} {info : BootmmInfo} (inside : i < s.cntInfos)
    (has : ∀ address t, info.Has address t ↔
      (s.info i).Has address t ∨ (start ≤ address ∧ address ≤ last ∧ type = t)) (address t : ℕ) :
    (s.setMminfo i info).HasType address t ↔
      s.HasType address t ∨ (start ≤ address ∧ address ≤ last ∧ type = t) := by
  have at_i := s.setMminfo_self i info
  have others : ∀ j, j ≠ i → (s.setMminfo i info).info j = s.info j := fun j ne =>
    s.setMminfo_of_ne ne info
  constructor
  · rintro ⟨j, lt, hasJ⟩
    by_cases isNew : j = i
    · rw [isNew, at_i, has] at hasJ
      exact hasJ.imp_left fun hasI => ⟨i, inside, hasI⟩
    · rw [others j isNew] at hasJ
      exact .inl ⟨j, lt, hasJ⟩
  · rintro (⟨j, lt, hasJ⟩ | isNew)
    · by_cases same : j = i
      · refine ⟨i, inside, ?_⟩
        rw [at_i, has]
        exact .inl (same ▸ hasJ)
      · refine ⟨j, lt, ?_⟩
        rw [others j same]
        exact hasJ
    · refine ⟨i, inside, ?_⟩
      rw [at_i, has]
      exact .inr isNew

/-! ## The loop -/

/-- What is done at the info at which the loop ends. -/
def act (s : Bootmm) (start last type i : ℕ) : InsertionState × Bootmm :=
  if (s.info i).last = sub32 start 1 then
    if i = sub32 s.cntInfos 1 then
      (.afterLastConnection, s.setMminfo i { s.info i with last })
    else if sub32 (s.info (i + 1)).start 1 = last then
      (.twoWayConnection,
        { s.setMminfo i { s.info i with last := (s.info (i + 1)).last } with
          cntInfos := s.cntInfos - 1 })
    else if (s.info (i + 1)).start ≤ last then (.failed, s)
    else (.forwardConnection, s.setMminfo i { s.info i with last })
  else if (s.info i).last < sub32 start 1 ∧ last < sub32 (s.info (i + 1)).start 1 then
    (.nonConnection, { s.setMminfo i ⟨start, last, type⟩ with cntInfos := s.cntInfos + 1 })
  else (.backwardConnection, s.setMminfo i { s.info i with start })

/-- What is done when the loop ends at no info. -/
def append (s : Bootmm) (start last type : ℕ) : InsertionState × Bootmm :=
  (.firstInsertion,
    { s.setMminfo s.cntInfos ⟨start, last, type⟩ with cntInfos := s.cntInfos + 1 })

theorem insertLoop_of_acts {n i : ℕ} (acts : s.Acts start last type i) :
    s.insertLoop start last type (n + 1) i = s.act start last type i := by
  rw [insertLoop, if_neg (not_not.mpr acts.1), act]
  by_cases connects : (s.info i).last = sub32 start 1
  · rw [if_pos connects, if_pos connects]
  rw [if_neg connects, if_neg connects]
  by_cases between : (s.info i).last < sub32 start 1 ∧ last < sub32 (s.info (i + 1)).start 1
  · rw [if_pos between, if_pos between]
  · rw [if_neg between, if_neg between,
      if_pos ((acts.2.resolve_left connects).resolve_left between)]

theorem insertLoop_of_not_acts {n i : ℕ} (notActs : ¬s.Acts start last type i) :
    s.insertLoop start last type (n + 1) i = s.insertLoop start last type n (i + 1) := by
  rw [insertLoop]
  by_cases otherType : (s.info i).type ≠ type
  · rw [if_pos otherType]
  have sameType := not_not.mp otherType
  rw [if_neg otherType, if_neg fun connects => notActs ⟨sameType, .inl connects⟩,
    if_neg fun between => notActs ⟨sameType, .inr (.inl between)⟩,
    if_neg fun connects => notActs ⟨sameType, .inr (.inr connects)⟩]

/-- The loop ends at the first info it can end at, or behind all of them. -/
theorem insertLoop_eq (n i : ℕ) :
    (∃ k, i ≤ k ∧ k < i + n ∧ (∀ j, i ≤ j → j < k → ¬s.Acts start last type j) ∧
        s.Acts start last type k ∧
        s.insertLoop start last type n i = s.act start last type k) ∨
      (∀ j, i ≤ j → j < i + n → ¬s.Acts start last type j) ∧
        s.insertLoop start last type n i = s.append start last type := by
  induction n generalizing i with
  | zero => exact .inr ⟨by omega, rfl⟩
  | succ n ih =>
      by_cases acts : s.Acts start last type i
      · exact .inl ⟨i, by omega, by omega, by omega, acts, insertLoop_of_acts acts⟩
      rw [insertLoop_of_not_acts acts]
      rcases ih (i + 1) with ⟨k, lower, upper, before, actsK, ended⟩ | ⟨none, ended⟩
      · refine .inl ⟨k, by omega, by omega, fun j le lt => ?_, actsK, ended⟩
        rcases Nat.eq_or_lt_of_le le with rfl | behind
        · exact acts
        · exact before j behind lt
      · refine .inr ⟨fun j le lt => ?_, ended⟩
        rcases Nat.eq_or_lt_of_le le with rfl | behind
        · exact acts
        · exact none j behind (by omega)

/-! ## What is done at an info -/

/-- The new region is put to the end of the one it is right behind. -/
theorem Ordered.connected (ordered : s.Ordered) (apart : s.Apart start last) {i : ℕ}
    (inside : i < s.cntInfos) (sameType : (s.info i).type = type)
    (connects : (s.info i).last + 1 = start)
    (front : i + 1 < s.cntInfos → last < (s.info (i + 1)).start) :
    (s.setMminfo i { s.info i with last }).Ordered ∧
      s.Gains (s.setMminfo i { s.info i with last }) start last type := by
  have region := ordered.region i inside
  have region' := apart.region
  refine ⟨ordered.setMminfo (by simp only; omega) apart.inside ?_ front,
    hasType_setMminfo inside fun address t => ?_⟩
  · intro j isNext
    exact isNext ▸ ordered.next j (isNext ▸ inside)
  · simp only [BootmmInfo.Has, sameType]
    constructor
    · rintro ⟨lower, upper, isType⟩
      rcases Nat.lt_or_ge address start with before | after
      · exact .inl ⟨lower, by omega, isType⟩
      · exact .inr ⟨after, upper, isType⟩
    · rintro (⟨lower, upper, isType⟩ | ⟨lower, upper, isType⟩)
      · exact ⟨lower, by omega, isType⟩
      · exact ⟨by omega, upper, isType⟩

/-- The new region is put to the beginning of the one it is right in front of. -/
theorem Ordered.connectedBack (ordered : s.Ordered) (apart : s.Apart start last) {i : ℕ}
    (inside : i < s.cntInfos) (sameType : (s.info i).type = type)
    (connects : (s.info i).start = last + 1) :
    (s.setMminfo i { s.info i with start }).Ordered ∧
      s.Gains (s.setMminfo i { s.info i with start }) start last type := by
  have region := ordered.region i inside
  have region' := apart.region
  refine ⟨ordered.setMminfo (by simp only; omega) (ordered.inside i inside) ?_ (ordered.next i),
    hasType_setMminfo inside fun address t => ?_⟩
  · -- the region in front is not behind the new one
    intro j isNext
    have before := ordered.next j (isNext ▸ inside)
    have region := ordered.region j (by omega)
    rw [isNext, connects] at before
    exact (apart.disjoint j (by omega)).resolve_left (by omega)
  · simp only [BootmmInfo.Has, sameType]
    constructor
    · rintro ⟨lower, upper, isType⟩
      rcases Nat.lt_or_ge last address with after | before
      · exact .inl ⟨by omega, upper, isType⟩
      · exact .inr ⟨lower, before, isType⟩
    · rintro (⟨lower, upper, isType⟩ | ⟨lower, upper, isType⟩)
      · exact ⟨by omega, upper, isType⟩
      · exact ⟨lower, by omega, isType⟩

/-- The last region can be left out. -/
theorem Ordered.dropLast (ordered : s.Ordered) :
    { s with cntInfos := s.cntInfos - 1 }.Ordered :=
  ⟨Nat.le_trans (Nat.sub_le _ _) ordered.cnt,
    fun i lt => ordered.region i (by simp only at lt; omega),
    fun i lt => ordered.inside i (by simp only at lt; omega),
    fun i lt => ordered.next i (by simp only at lt; omega)⟩

/-- The new region fills the gap in front of the last one. -/
theorem Ordered.connectedLast (ordered : s.Ordered) (apart : s.Apart start last) {i : ℕ}
    (isLast : i + 2 = s.cntInfos) (sameType : (s.info i).type = type)
    (sameType' : (s.info (i + 1)).type = type) (connects : (s.info i).last + 1 = start)
    (connects' : (s.info (i + 1)).start = last + 1) :
    Keeps s start last type (.twoWayConnection,
      { s.setMminfo i { s.info i with last := (s.info (i + 1)).last } with
        cntInfos := s.cntInfos - 1 }) := by
  have region := ordered.region i (by omega)
  have region' := ordered.region (i + 1) (by omega)
  have newRegion := apart.region
  refine .inr ⟨?_, fun address t => ?_⟩
  · refine ordered.dropLast.setMminfo (by simp only; omega) (ordered.inside (i + 1) (by omega)) ?_
      (by simp only; omega)
    intro j isNext
    exact isNext ▸ ordered.next j (by omega)
  · have merged : (s.info i).start ≤ address ∧ address ≤ (s.info (i + 1)).last ∧ type = t ↔
        (s.info i).Has address t ∨ (s.info (i + 1)).Has address t ∨
          (start ≤ address ∧ address ≤ last ∧ type = t) := by
      simp only [BootmmInfo.Has, sameType, sameType']
      omega
    constructor
    · rintro ⟨j, lt, has⟩
      simp only at lt has
      by_cases isNew : j = i
      · rw [isNew, setMminfo_self, BootmmInfo.Has, sameType, merged] at has
        rcases has with has | has | isNew
        · exact .inl ⟨i, by omega, has⟩
        · exact .inl ⟨i + 1, by omega, has⟩
        · exact .inr isNew
      · rw [setMminfo_of_ne s isNew] at has
        exact .inl ⟨j, by omega, has⟩
    · intro has
      have before : (∃ j < i, (s.info j).Has address t) ∨ (s.info i).Has address t ∨
          (s.info (i + 1)).Has address t ∨ (start ≤ address ∧ address ≤ last ∧ type = t) := by
        rcases has with ⟨j, lt, has⟩ | isNew
        · rcases Nat.lt_trichotomy j i with front | rfl | behind
          · exact .inl ⟨j, front, has⟩
          · exact .inr (.inl has)
          · have isNext : j = i + 1 := by omega
            exact .inr (.inr (.inl (isNext ▸ has)))
        · exact .inr (.inr (.inr isNew))
      rcases before with ⟨j, front, has⟩ | has
      · refine ⟨j, by simp only; omega, ?_⟩
        simp only
        rw [setMminfo_of_ne s (by omega)]
        exact has
      · refine ⟨i, by simp only; omega, ?_⟩
        simp only
        rw [setMminfo_self, BootmmInfo.Has, sameType, merged]
        exact has

/-- A region that does connect to the one behind it is not put in front of further ones, nor in
front of one of another type. -/
theorem Ordered.not_keeps_twoWay (ordered : s.Ordered) {i : ℕ}
    (inside : i + 1 < s.cntInfos) (sameType : (s.info i).type = type)
    (wrong : ¬(i + 2 = s.cntInfos ∧ (s.info (i + 1)).type = type)) :
    ¬Keeps s start last type (.twoWayConnection,
      { s.setMminfo i { s.info i with last := (s.info (i + 1)).last } with
        cntInfos := s.cntInfos - 1 }) := by
  have region := ordered.region (i + 1) inside
  rintro (⟨isFailed, _⟩ | ⟨ordered', types⟩)
  · exact absurd isFailed nofun
  by_cases isLast : i + 2 = s.cntInfos
  · -- the last region's beginning had another type
    have otherType : (s.info (i + 1)).type ≠ type := fun eq => wrong ⟨isLast, eq⟩
    have had : s.HasType (s.info (i + 1)).start (s.info (i + 1)).type :=
      ⟨i + 1, inside, Nat.le.refl, region, rfl⟩
    rcases (types _ _).mpr (.inl had) with ⟨j, lt, has⟩
    simp only at lt has
    by_cases isNew : j = i
    · rw [isNew, setMminfo_self, BootmmInfo.Has] at has
      exact otherType (has.2.2.symm.trans sameType)
    · rw [setMminfo_of_ne s isNew] at has
      have same := ordered.eq_of_has (by omega) inside has ⟨Nat.le.refl, region, rfl⟩
      omega
  · have apart := ordered'.next i (by simp only; omega)
    simp only at apart
    rw [setMminfo_self, setMminfo_of_ne s (by omega)] at apart
    simp only at apart
    omega

/-- The first case of the loop: the new region is right behind another. -/
theorem Ordered.keeps_connected (ordered : s.Ordered) (apart : s.Apart start last) {i : ℕ}
    (inside : i < s.cntInfos) (sameType : (s.info i).type = type)
    (connects : (s.info i).last = sub32 start 1) :
    Keeps s start last type (s.act start last type i) ↔ s.Right start last type i := by
  have region := ordered.region i inside
  have newRegion := apart.region
  have small := apart.inside
  have count : sub32 s.cntInfos 1 = s.cntInfos - 1 := by
    have bound := ordered.cnt
    unfold maxInfo at bound
    exact sub32_one_of_pos (by omega) (by omega)
  rw [act, if_pos connects, Right, if_pos connects, count]
  by_cases isNull : start = 0
  · have isTop : (s.info i).last = 2 ^ 32 - 1 := by
      rw [connects, isNull]
      decide
    have isLast : i = s.cntInfos - 1 := by
      by_contra notLast
      have next := ordered.next i (by omega)
      have region := ordered.region (i + 1) (by omega)
      have inside := ordered.inside (i + 1) (by omega)
      omega
    have behind := (apart.disjoint i inside).resolve_right (by omega)
    rw [if_pos isLast]
    refine iff_of_false ?_ fun right => right.1 isNull
    rintro (⟨isFailed, _⟩ | ⟨ordered', _⟩)
    · exact absurd isFailed nofun
    · have region' := ordered'.region i inside
      rw [setMminfo_self] at region'
      simp only at region'
      omega
  rw [sub32_one_of_pos (by omega) (by omega)] at connects
  by_cases isLast : i = s.cntInfos - 1
  · rw [if_pos isLast]
    refine iff_of_true (.inr ?_) ⟨isNull, by omega⟩
    exact ordered.connected apart inside sameType (by omega) (by omega)
  rw [if_neg isLast]
  have next := ordered.next i (by omega)
  have region' := ordered.region (i + 1) (by omega)
  have small' := ordered.inside (i + 1) (by omega)
  have front := (apart.disjoint (i + 1) (by omega)).resolve_right (by omega)
  rw [sub32_one_of_pos (by omega) (by omega)]
  by_cases two : (s.info (i + 1)).start = last + 1
  · rw [if_pos (by omega)]
    by_cases right : i + 2 = s.cntInfos ∧ (s.info (i + 1)).type = type
    · refine iff_of_true ?_ ⟨isNull, fun _ _ => right⟩
      exact ordered.connectedLast apart right.1 sameType right.2 (by omega) two
    · refine iff_of_false ?_ fun isRight => right (isRight.2 (by omega) two)
      exact ordered.not_keeps_twoWay (by omega) sameType right
  · rw [if_neg (by omega), if_neg (by omega)]
    refine iff_of_true (.inr ?_) ⟨isNull, fun _ isNext => absurd isNext two⟩
    exact ordered.connected apart inside sameType (by omega) fun _ => front

/-- The table of `NON_CONNECTION`, where the region at which the loop ends is overwritten. -/
def overwrite (s : Bootmm) (start last type i : ℕ) : Bootmm :=
  { s.setMminfo i ⟨start, last, type⟩ with cntInfos := s.cntInfos + 1 }

theorem overwrite_self (s : Bootmm) (start last type i : ℕ) :
    (s.overwrite start last type i).info i = ⟨start, last, type⟩ :=
  s.setMminfo_self i _

theorem overwrite_of_ne (s : Bootmm) {i j : ℕ} (ne : j ≠ i) :
    (s.overwrite start last type i).info j = s.info j :=
  s.setMminfo_of_ne ne _

/-- The addresses of the region that is overwritten are in the info behind the table then. -/
theorem Ordered.has_of_gains (ordered : s.Ordered) (apart : s.Apart start last) {i : ℕ}
    (inside : i < s.cntInfos) (gains : s.Gains (s.overwrite start last type i) start last type)
    {address : ℕ} (has : (s.info i).Has address type) :
    (s.info s.cntInfos).Has address type := by
  rcases (gains address type).mpr (.inl ⟨i, inside, has⟩) with ⟨j, lt, has'⟩
  by_cases isNew : j = i
  · rw [isNew, overwrite_self] at has'
    have disjoint := apart.disjoint i inside
    have lower := has.1
    have upper := has.2.1
    have lower' : start ≤ address := has'.1
    have upper' : address ≤ last := has'.2.1
    omega
  · rw [overwrite_of_ne s isNew] at has'
    rcases Nat.lt_or_eq_of_le (Nat.le_of_lt_succ lt) with old | behind
    · exact absurd (ordered.eq_of_has old inside has' has) isNew
    · exact behind ▸ has'

/-- All other regions are in front of the one that is overwritten, so it is the last. -/
theorem Ordered.last_of_gains (ordered : s.Ordered)
    (ordered' : (s.overwrite start last type i).Ordered) (inside : i < s.cntInfos)
    (atStart : (s.info s.cntInfos).start ≤ (s.info i).start) : i + 1 = s.cntInfos := by
  by_contra notLast
  have front := ordered'.lt (show i + 1 < s.cntInfos by omega) (Nat.lt_succ_self _)
  rw [overwrite_of_ne s (show i + 1 ≠ i by omega), overwrite_of_ne s (Nat.ne_of_gt inside)] at front
  have region := ordered.region i inside
  have region' := ordered.region (i + 1) (by omega)
  have next := ordered.next i (by omega)
  omega

/-- The new region is in front of the info behind the table, so it is at the beginning. -/
theorem Ordered.first_of_gains (ordered' : (s.overwrite start last type i).Ordered)
    (inside : i < s.cntInfos) (region : start ≤ last)
    (between : (s.info i).last < sub32 start 1) (small : start < 2 ^ 32)
    (atLast : (s.info s.cntInfos).start ≤ (s.info i).last) : start = 0 ∧ i = 0 := by
  have front := ordered'.lt inside (Nat.lt_succ_self _)
  rw [overwrite_self, overwrite_of_ne s (Nat.ne_of_gt inside)] at front
  have isNull : start = 0 := by
    by_contra positive
    rw [sub32_one_of_pos (Nat.pos_of_ne_zero positive) small] at between
    have upper : last < (s.info s.cntInfos).start := front
    omega
  refine ⟨isNull, ?_⟩
  by_contra positive
  have behind := ordered'.lt (Nat.sub_one_lt positive) (Nat.lt_succ_of_lt inside)
  rw [overwrite_self] at behind
  exact absurd (isNull ▸ behind) (Nat.not_lt_zero _)

/-- The info behind the table has no further address. -/
theorem Ordered.same_of_gains (ordered' : (s.overwrite start last type 0).Ordered)
    (isOne : s.cntInfos = 1) (gains : s.Gains (s.overwrite start last type 0) start last type)
    (atStart : (s.info 1).start ≤ (s.info 0).start) (atLast : (s.info 0).last ≤ (s.info 1).last) :
    s.info 1 = s.info 0 := by
  have inside : 1 < (s.overwrite start last type 0).cntInfos :=
    Nat.lt_succ_of_le (Nat.le_of_eq isOne.symm)
  have info1 : (s.overwrite start last type 0).info 1 = s.info 1 :=
    overwrite_of_ne s (by decide)
  have front := ordered'.lt Nat.zero_lt_one inside
  have region := ordered'.region 1 inside
  rw [overwrite_self, info1] at front
  rw [info1] at region
  have back : ∀ address, (s.info 1).Has address (s.info 1).type →
      (s.info 0).Has address (s.info 1).type := by
    intro address has
    have had := (gains address (s.info 1).type).mp ⟨1, inside, info1.symm ▸ has⟩
    have behind : last < (s.info 1).start := front
    have lower := has.1
    rcases had.resolve_right (by omega) with ⟨j, lt, has'⟩
    have isZero : j = 0 := by omega
    exact isZero ▸ has'
  have start' := back (s.info 1).start ⟨Nat.le.refl, region, rfl⟩
  have last' := back (s.info 1).last ⟨region, Nat.le.refl, rfl⟩
  have sameStart : (s.info 1).start = (s.info 0).start := Nat.le_antisymm atStart start'.1
  have sameLast : (s.info 1).last = (s.info 0).last := Nat.le_antisymm last'.2.1 atLast
  have same : (s.info 1).type = (s.info 0).type := start'.2.2.symm
  calc
    s.info 1 = ⟨(s.info 1).start, (s.info 1).last, (s.info 1).type⟩ := rfl
    _ = s.info 0 := by rw [sameStart, sameLast, same]

/-- Where a copy of the only region stands behind it, no address is lost. -/
theorem Ordered.overwrite_first (ordered : s.Ordered) (apart : s.Apart start last)
    (isOne : s.cntInfos = 1) (front : last < (s.info 0).start) (same : s.info 1 = s.info 0) :
    (s.overwrite start last type 0).Ordered ∧
      s.Gains (s.overwrite start last type 0) start last type := by
  have inside : 0 < s.cntInfos := isOne ▸ Nat.zero_lt_one
  have count : (s.overwrite start last type 0).cntInfos = 2 := congrArg (· + 1) isOne
  have info0 := s.overwrite_self start last type 0
  have info1 : (s.overwrite start last type 0).info 1 = s.info 0 :=
    (overwrite_of_ne s (by decide)).trans same
  have cases_lt : ∀ j < 2, j = 0 ∨ j = 1 := by omega
  refine ⟨⟨count ▸ by decide, fun j lt => ?_, fun j lt => ?_, fun j lt => ?_⟩, fun address t => ?_⟩
  · rcases cases_lt j (count ▸ lt) with rfl | rfl
    · rw [info0]
      exact apart.region
    · rw [info1]
      exact ordered.region 0 inside
  · rcases cases_lt j (count ▸ lt) with rfl | rfl
    · rw [info0]
      exact apart.inside
    · rw [info1]
      exact ordered.inside 0 inside
  · have isZero : j = 0 := by omega
    rw [isZero, info0, info1]
    exact front
  · constructor
    · rintro ⟨j, lt, has⟩
      rcases cases_lt j (count ▸ lt) with rfl | rfl
      · rw [info0] at has
        exact .inr has
      · exact .inl ⟨0, inside, info1 ▸ has⟩
    · rintro (⟨j, lt, has⟩ | isNew)
      · have isZero : j = 0 := by omega
        exact ⟨1, count ▸ by decide, info1.symm ▸ isZero ▸ has⟩
      · exact ⟨0, count ▸ by decide, info0.symm ▸ isNew⟩

/-- The second case: the region at which the loop ends is overwritten, so its addresses have to be
in the info behind the last one, where the table ends now. -/
theorem Ordered.keeps_between (ordered : s.Ordered) (apart : s.Apart start last) {i : ℕ}
    (inside : i < s.cntInfos) (sameType : (s.info i).type = type)
    (notConnects : (s.info i).last ≠ sub32 start 1)
    (between : (s.info i).last < sub32 start 1 ∧ last < sub32 (s.info (i + 1)).start 1) :
    Keeps s start last type (s.act start last type i) ↔ s.Right start last type i := by
  have region := ordered.region i inside
  rw [act, if_neg notConnects, if_pos between, Right, if_neg notConnects, if_pos between]
  constructor
  · rintro (⟨isFailed, _⟩ | ⟨ordered', gains⟩)
    · exact absurd isFailed nofun
    have atStart := ordered.has_of_gains apart inside gains ⟨Nat.le.refl, region, sameType⟩
    have atLast := ordered.has_of_gains apart inside gains ⟨region, Nat.le.refl, sameType⟩
    have isLast := ordered.last_of_gains ordered' inside atStart.1
    have small : start < 2 ^ 32 := Nat.lt_of_le_of_lt apart.region apart.inside
    rcases Ordered.first_of_gains ordered' inside apart.region between.1 small
      (atStart.1.trans region) with ⟨isNull, rfl⟩
    have isOne : s.cntInfos = 1 := isLast.symm
    rw [isOne] at atStart atLast
    exact ⟨isOne, isNull, Ordered.same_of_gains ordered' isOne gains atStart.1 atLast.2.1⟩
  · rintro ⟨isOne, isNull, same⟩
    obtain rfl : i = 0 := by omega
    have front := (apart.disjoint 0 inside).resolve_right (by omega)
    exact .inr (ordered.overwrite_first apart isOne front same)

/-- The third case: the new region is right in front of another. -/
theorem Ordered.keeps_back (ordered : s.Ordered) (apart : s.Apart start last) {i : ℕ}
    (inside : i < s.cntInfos) (sameType : (s.info i).type = type)
    (notConnects : (s.info i).last ≠ sub32 start 1)
    (notBetween : ¬((s.info i).last < sub32 start 1 ∧ last < sub32 (s.info (i + 1)).start 1))
    (connects : sub32 (s.info i).start 1 = last) :
    Keeps s start last type (s.act start last type i) ↔ s.Right start last type i := by
  have region := ordered.region i inside
  have small := ordered.inside i inside
  have newRegion := apart.region
  rw [act, if_neg notConnects, if_neg notBetween, Right, if_neg notConnects, if_neg notBetween]
  by_cases isNull : (s.info i).start = 0
  · have isTop : last = 2 ^ 32 - 1 := by
      rw [← connects, isNull]
      decide
    have behind := (apart.disjoint i inside).resolve_left (by omega)
    refine iff_of_false ?_ (not_not.mpr isNull)
    rintro (⟨isFailed, _⟩ | ⟨ordered', _⟩)
    · exact absurd isFailed nofun
    · have region' := ordered'.region i inside
      rw [setMminfo_self] at region'
      simp only at region'
      omega
  · rw [sub32_one_of_pos (by omega) (by omega)] at connects
    exact iff_of_true (.inr (ordered.connectedBack apart inside sameType (by omega))) isNull

/-- A region that is put behind all others is in its place when they are in front of it. -/
theorem Ordered.keeps_append (ordered : s.Ordered) (apart : s.Apart start last)
    (room : s.cntInfos ≠ maxInfo) :
    Keeps s start last type (s.append start last type) ↔
      ∀ i < s.cntInfos, (s.info i).last < start := by
  have atEnd := s.setMminfo_self s.cntInfos ⟨start, last, type⟩
  have others : ∀ j < s.cntInfos,
      (s.setMminfo s.cntInfos ⟨start, last, type⟩).info j = s.info j := fun j lt =>
    s.setMminfo_of_ne (Nat.ne_of_lt lt) _
  have bound := ordered.cnt
  constructor
  · rintro (⟨isFailed, _⟩ | ⟨ordered', _⟩) i inside
    · exact absurd isFailed nofun
    · have front := ordered'.lt inside (Nat.lt_succ_self _)
      simp only at front
      rw [others i inside, atEnd] at front
      exact front
  · intro front
    refine .inr ⟨⟨?_, fun j lt => ?_, fun j lt => ?_, fun j lt => ?_⟩, fun address t => ?_⟩
    · change s.cntInfos + 1 ≤ maxInfo
      omega
    · simp only at lt ⊢
      rcases Nat.lt_or_eq_of_le (Nat.le_of_lt_succ lt) with old | isNew
      · rw [others j old]
        exact ordered.region j old
      · rw [isNew, atEnd]
        exact apart.region
    · simp only at lt ⊢
      rcases Nat.lt_or_eq_of_le (Nat.le_of_lt_succ lt) with old | isNew
      · rw [others j old]
        exact ordered.inside j old
      · rw [isNew, atEnd]
        exact apart.inside
    · simp only at lt ⊢
      rw [others j (by omega)]
      rcases Nat.lt_or_eq_of_le (Nat.le_of_lt_succ lt) with old | isNew
      · rw [others (j + 1) old]
        exact ordered.next j old
      · rw [isNew, atEnd]
        exact front j (by omega)
    · constructor
      · rintro ⟨j, lt, has⟩
        simp only at lt has
        rcases Nat.lt_or_eq_of_le (Nat.le_of_lt_succ lt) with old | isNew
        · rw [others j old] at has
          exact .inl ⟨j, old, has⟩
        · rw [isNew, atEnd] at has
          exact .inr has
      · rintro (⟨j, lt, has⟩ | isNew)
        · refine ⟨j, Nat.lt_succ_of_lt lt, ?_⟩
          simp only
          rw [others j lt]
          exact has
        · refine ⟨s.cntInfos, Nat.lt_succ_self _, ?_⟩
          simp only
          rw [atEnd]
          exact isNew

/-! ## Insertions -/

/-- A region gets into the table, and all others stay there, just when it fits. -/
theorem keeps_iff (ordered : s.Ordered) (apart : s.Apart start last) :
    s.Keeps start last type (s.insertMminfo start last type) ↔ s.Fits start last type := by
  rw [insertMminfo, Fits]
  by_cases full : s.cntInfos = maxInfo
  · rw [if_pos full]
    exact iff_of_true (.inl ⟨rfl, rfl⟩) (.inl full)
  rw [if_neg full, or_iff_right full]
  rcases @insertLoop_eq s start last type s.cntInfos 0 with
    ⟨k, _, inside, before, acts, ended⟩ | ⟨none, ended⟩
  · rw [Nat.zero_add] at inside
    have decided : Keeps s start last type (s.act start last type k) ↔
        s.Right start last type k := by
      by_cases connects : (s.info k).last = sub32 start 1
      · exact ordered.keeps_connected apart inside acts.1 connects
      by_cases between : (s.info k).last < sub32 start 1 ∧ last < sub32 (s.info (k + 1)).start 1
      · exact ordered.keeps_between apart inside acts.1 connects between
      · exact ordered.keeps_back apart inside acts.1 connects between
          ((acts.2.resolve_left connects).resolve_left between)
    rw [ended, decided]
    constructor
    · exact fun right => .inl ⟨k, inside, fun j lt => before j (Nat.zero_le j) lt, acts, right⟩
    · rintro (⟨i, _, before', acts', right⟩ | none)
      · have same : i = k := by
          rcases Nat.lt_trichotomy i k with lt | eq | gt
          · exact absurd acts' (before i (Nat.zero_le i) lt)
          · exact eq
          · exact absurd acts (before' k gt)
        exact same ▸ right
      · exact absurd acts (none k inside).1
  · rw [Nat.zero_add] at none
    rw [ended, ordered.keeps_append apart full]
    constructor
    · exact fun front => .inr fun i lt => ⟨none i (Nat.zero_le i) lt, front i lt⟩
    · rintro (⟨i, inside, _, acts, _⟩ | front)
      · exact absurd acts (none i (Nat.zero_le i) inside)
      · exact fun i lt => (front i lt).2

/-- At the beginning there is the region of the kernel. -/
theorem initBootmm_infos :
    initBootmm.cntInfos = 1 ∧ initBootmm.info 0 = ⟨0, 0xffffff, mmKernel⟩ ∧
      initBootmm.info 1 = ⟨0, 0, 0⟩ := by
  rw [initBootmm]
  simp only [setMaps_eq]
  exact ⟨rfl, rfl, rfl⟩

theorem ordered_initBootmm : initBootmm.Ordered := by
  rcases initBootmm_infos with ⟨count, kernel, _⟩
  refine ⟨?_, fun i lt => ?_, fun i lt => ?_, fun i lt => ?_⟩
  · rw [count]
    decide
  · have isFirst : i = 0 := by omega
    rw [isFirst, kernel]
    decide
  · have isFirst : i = 0 := by omega
    rw [isFirst, kernel]
    decide
  · omega

/-- What is behind the kernel is apart from it. -/
theorem apart_initBootmm (behind : 0xffffff < start) (region : start ≤ last)
    (inside : last < 2 ^ 32) : initBootmm.Apart start last := by
  rcases initBootmm_infos with ⟨count, kernel, _⟩
  refine ⟨region, inside, fun i lt => ?_⟩
  have isFirst : i = 0 := by omega
  rw [isFirst, kernel]
  exact .inr behind

theorem keeps_iff_initBootmm :
    initBootmm.Keeps 0x1000000 0x1000fff mmKernel
        (initBootmm.insertMminfo 0x1000000 0x1000fff mmKernel) ↔
      initBootmm.Fits 0x1000000 0x1000fff mmKernel :=
  keeps_iff ordered_initBootmm (apart_initBootmm (by decide) (by decide) (by decide))

/-- A page that the kernel gets further behind takes the place of the kernel's region. -/
theorem not_keeps_initBootmm :
    initBootmm.Ordered ∧ initBootmm.Apart 0x1002000 0x1002fff ∧
      (initBootmm.insertMminfo 0x1002000 0x1002fff mmKernel).1 = .nonConnection ∧
      ¬initBootmm.Keeps 0x1002000 0x1002fff mmKernel
        (initBootmm.insertMminfo 0x1002000 0x1002fff mmKernel) := by
  rcases initBootmm_infos with ⟨count, kernel, empty⟩
  have inserted : initBootmm.insertMminfo 0x1002000 0x1002fff mmKernel =
      (.nonConnection, { initBootmm.setMminfo 0 ⟨0x1002000, 0x1002fff, mmKernel⟩ with
        cntInfos := initBootmm.cntInfos + 1 }) := by
    rw [insertMminfo, count, if_neg (by decide), insertLoop, kernel, empty, if_neg (by decide),
      if_neg (by decide), if_pos (by decide), count]
  refine ⟨ordered_initBootmm, apart_initBootmm (by decide) (by decide) (by decide), ?_, ?_⟩
  · rw [inserted]
  · rw [inserted]
    rintro (⟨isFailed, _⟩ | ⟨_, types⟩)
    · cases isFailed
    · have had : initBootmm.HasType 1 mmKernel :=
        ⟨0, by omega, by rw [kernel]; exact ⟨by decide, by decide, rfl⟩⟩
      rcases (types 1 mmKernel).mpr (.inl had) with ⟨j, lt, has⟩
      simp only [count] at lt has
      rcases (by omega : j = 0 ∨ j = 1) with rfl | rfl
      · rw [setMminfo_self] at has
        exact absurd has.1 (by decide)
      · rw [setMminfo_of_ne _ (by decide), empty] at has
        exact absurd has.2.1 (by decide)

end Bootmm

end Ninix.Boot
