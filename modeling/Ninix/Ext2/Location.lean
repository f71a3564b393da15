import Mathlib.Data.Set.Function
import Ninix.Ext2.FileGrowth

/-!
# Locations of pages

`get_location` turns the number of a page of a file into a path: a pointer of the inode and the
words of up to three index blocks. As long as the pages that a file can have are numbers of 32
bits, every path is that of exactly one page, and the paths are in the order of the pages.
-/

namespace Ninix.Ext2

/-- `*dp`, `*fp`, `*sp` and `*tp` -/
@[ext]
structure Location where
  dp : ℕ
  fp : ℕ
  sp : ℕ
  tp : ℕ
  deriving DecidableEq

namespace Location

/-- `get_location`, for blocks of a size -/
def getLocation (sBlksize vpn : ℕ) : ℕ × Location :=
  let pointersPerBlock := sBlksize / 4
  if vpn < 12 then (0, ⟨vpn, minusOne32, minusOne32, minusOne32⟩)
  else if vpn < u32 (12 + pointersPerBlock) then
    (0, ⟨12, sub32 vpn 12, minusOne32, minusOne32⟩)
  else if vpn < u32 (12 + pointersPerBlock + pointersPerBlock * pointersPerBlock) then
    let tmp := sub32 (sub32 vpn 12) pointersPerBlock
    (0, ⟨13, tmp / pointersPerBlock, tmp % pointersPerBlock, minusOne32⟩)
  else if vpn < u32 (12 + pointersPerBlock + pointersPerBlock * pointersPerBlock +
      pointersPerBlock * pointersPerBlock * pointersPerBlock) then
    let square := u32 (pointersPerBlock * pointersPerBlock)
    let tmp := sub32 (sub32 (sub32 vpn 12) pointersPerBlock) square
    (0, ⟨14, tmp / square, tmp % square / pointersPerBlock, tmp % pointersPerBlock⟩)
  else (1, ⟨minusOne32, minusOne32, minusOne32, minusOne32⟩)

/-- The indices of a path, level by level -/
def indices (path : Location) : List ℕ := [path.dp, path.fp, path.sp, path.tp]

/-- The paths to the pages of a file, where an index block has `n` words -/
inductive IsPath (n : ℕ) : Location → Prop
  | direct {dp : ℕ} (small : dp < 12) : IsPath n ⟨dp, minusOne32, minusOne32, minusOne32⟩
  | single {fp : ℕ} (inside : fp < n) : IsPath n ⟨12, fp, minusOne32, minusOne32⟩
  | double {fp sp : ℕ} (inside : fp < n) (inside' : sp < n) : IsPath n ⟨13, fp, sp, minusOne32⟩
  | triple {fp sp tp : ℕ} (inside : fp < n) (inside' : sp < n) (inside'' : tp < n) :
      IsPath n ⟨14, fp, sp, tp⟩

/-- How many pages a file can have -/
def pages (n : ℕ) : ℕ := 12 + n + n ^ 2 + n ^ 3

variable {sBlksize vpn other n : ℕ}

theorem pages_eq (n : ℕ) : pages n = 12 + n + n * n + n * n * n := by
  unfold pages
  ring

/-- Two digits make a number below the product of their bounds. -/
theorem mul_add_lt {m i j : ℕ} (lt : i < n) (lt' : j < m) : m * i + j < m * n := by
  have bound := Nat.mul_le_mul_left m (Nat.succ_le_of_lt lt)
  rw [Nat.mul_succ] at bound
  omega

/-- Numbers are in the order of their digits. -/
theorem div_mod_lt {m i j : ℕ} (lt : i < j) :
    i / m < j / m ∨ i / m = j / m ∧ i % m < j % m := by
  rcases Nat.lt_or_eq_of_le (Nat.div_le_div_right (c := m) lt.le) with less | same
  · exact .inl less
  · have split := Nat.div_add_mod i m
    have split' := Nat.div_add_mod j m
    rw [same] at split
    exact .inr ⟨same, by omega⟩

theorem IsPath.triple_lt {fp sp tp : ℕ} (isPath : IsPath n ⟨14, fp, sp, tp⟩) :
    fp < n ∧ sp < n ∧ tp < n := by
  generalize dp : 14 = dp at isPath
  cases isPath with
  | direct small => omega
  | single inside => omega
  | double inside inside' => omega
  | triple inside inside' inside'' => exact ⟨inside, inside', inside''⟩

/-! ## The ranges of pages -/

/-- A page of the first range has a pointer of the inode. -/
theorem getLocation_direct (small : vpn < 12) :
    getLocation sBlksize vpn = (0, ⟨vpn, minusOne32, minusOne32, minusOne32⟩) :=
  if_pos small

section Ranges

variable (isWords : sBlksize / 4 = n) (fits : pages n < 2 ^ 32)
include isWords fits

theorem getLocation_single (lower : 12 ≤ vpn) (upper : vpn < 12 + n) :
    getLocation sBlksize vpn = (0, ⟨12, vpn - 12, minusOne32, minusOne32⟩) := by
  rw [pages_eq] at fits
  have single : u32 (12 + n) = 12 + n := u32_of_lt (by omega)
  have first : sub32 vpn 12 = vpn - 12 := sub32_of_le lower (by omega)
  simp only [getLocation, isWords, single, first]
  rw [if_neg (Nat.not_lt.mpr lower), if_pos upper]

theorem getLocation_double (lower : 12 + n ≤ vpn) (upper : vpn < 12 + n + n * n) :
    getLocation sBlksize vpn =
      (0, ⟨13, (vpn - 12 - n) / n, (vpn - 12 - n) % n, minusOne32⟩) := by
  rw [pages_eq] at fits
  have single : u32 (12 + n) = 12 + n := u32_of_lt (by omega)
  have double : u32 (12 + n + n * n) = 12 + n + n * n := u32_of_lt (by omega)
  have first : sub32 vpn 12 = vpn - 12 := sub32_of_le (by omega) (by omega)
  have second : sub32 (vpn - 12) n = vpn - 12 - n := sub32_of_le (by omega) (by omega)
  simp only [getLocation, isWords, single, double, first, second]
  rw [if_neg (by omega), if_neg (Nat.not_lt.mpr lower), if_pos upper]

theorem getLocation_triple (lower : 12 + n + n * n ≤ vpn) (upper : vpn < pages n) :
    getLocation sBlksize vpn =
      (0, ⟨14, (vpn - 12 - n - n * n) / (n * n), (vpn - 12 - n - n * n) % (n * n) / n,
        (vpn - 12 - n - n * n) % n⟩) := by
  rw [pages_eq] at fits upper
  have single : u32 (12 + n) = 12 + n := u32_of_lt (by omega)
  have double : u32 (12 + n + n * n) = 12 + n + n * n := u32_of_lt (by omega)
  have triple : u32 (12 + n + n * n + n * n * n) = 12 + n + n * n + n * n * n := u32_of_lt fits
  have square : u32 (n * n) = n * n := u32_of_lt (by omega)
  have first : sub32 vpn 12 = vpn - 12 := sub32_of_le (by omega) (by omega)
  have second : sub32 (vpn - 12) n = vpn - 12 - n := sub32_of_le (by omega) (by omega)
  have third : sub32 (vpn - 12 - n) (n * n) = vpn - 12 - n - n * n :=
    sub32_of_le (by omega) (by omega)
  simp only [getLocation, isWords, single, double, triple, square, first, second, third]
  rw [if_neg (by omega), if_neg (by omega), if_neg (Nat.not_lt.mpr lower), if_pos upper]

theorem getLocation_behind (lower : pages n ≤ vpn) :
    getLocation sBlksize vpn = (1, ⟨minusOne32, minusOne32, minusOne32, minusOne32⟩) := by
  rw [pages_eq] at fits lower
  have single : u32 (12 + n) = 12 + n := u32_of_lt (by omega)
  have double : u32 (12 + n + n * n) = 12 + n + n * n := u32_of_lt (by omega)
  have triple : u32 (12 + n + n * n + n * n * n) = 12 + n + n * n + n * n * n := u32_of_lt fits
  simp only [getLocation, isWords, single, double, triple]
  rw [if_neg (by omega), if_neg (by omega), if_neg (by omega), if_neg (Nat.not_lt.mpr lower)]

theorem getLocation_isPath (inside : vpn < pages n) :
    (getLocation sBlksize vpn).1 = 0 ∧ IsPath n (getLocation sBlksize vpn).2 := by
  rcases Nat.lt_or_ge vpn 12 with direct | behindDirect
  · rw [getLocation_direct direct]
    exact ⟨rfl, .direct direct⟩
  rcases Nat.lt_or_ge vpn (12 + n) with single | behindSingle
  · rw [getLocation_single isWords fits behindDirect single]
    exact ⟨rfl, .single (by omega)⟩
  have positive : 0 < n := by
    by_contra isZero
    rw [Nat.eq_zero_of_not_pos isZero] at inside behindSingle
    exact absurd inside (Nat.not_lt.mpr behindSingle)
  rcases Nat.lt_or_ge vpn (12 + n + n * n) with double | behindDouble
  · rw [getLocation_double isWords fits behindSingle double]
    exact ⟨rfl, .double (Nat.div_lt_of_lt_mul (by omega)) (Nat.mod_lt _ positive)⟩
  · rw [getLocation_triple isWords fits behindDouble inside]
    rw [pages_eq] at inside
    have below : (vpn - 12 - n - n * n) % (n * n) < n * n :=
      Nat.mod_lt _ (Nat.mul_pos positive positive)
    exact ⟨rfl, .triple (Nat.div_lt_of_lt_mul (by omega)) (Nat.div_lt_of_lt_mul below)
      (Nat.mod_lt _ positive)⟩

theorem getLocation_fails_iff : (getLocation sBlksize vpn).1 ≠ 0 ↔ pages n ≤ vpn := by
  constructor
  · intro fails
    by_contra inside
    exact fails (getLocation_isPath isWords fits (Nat.not_le.mp inside)).1
  · intro behind
    rw [getLocation_behind isWords fits behind]
    exact Nat.one_ne_zero

/-- Every path is that of a page. -/
theorem exists_page {path : Location} (isPath : IsPath n path) :
    ∃ vpn < pages n, (getLocation sBlksize vpn).2 = path := by
  have total := pages_eq n
  cases isPath with
  | @direct dp small =>
      exact ⟨dp, by omega, congrArg Prod.snd (getLocation_direct small)⟩
  | @single fp inside =>
      refine ⟨12 + fp, by omega, ?_⟩
      rw [getLocation_single isWords fits (by omega) (by omega), Nat.add_sub_cancel_left]
  | @double fp sp inside inside' =>
      have lt := mul_add_lt inside inside'
      have tmp : 12 + n + (n * fp + sp) - 12 - n = n * fp + sp := by omega
      refine ⟨12 + n + (n * fp + sp), by omega, ?_⟩
      rw [getLocation_double isWords fits (by omega) (by omega), tmp,
        Nat.mul_add_div (Nat.zero_lt_of_lt inside), Nat.div_eq_of_lt inside',
        Nat.mul_add_mod, Nat.mod_eq_of_lt inside', Nat.add_zero]
  | @triple fp sp tp inside inside' inside'' =>
      have positive : 0 < n := Nat.zero_lt_of_lt inside
      have below := mul_add_lt inside' inside''
      have lt := mul_add_lt inside below
      have last : (n * n * fp + (n * sp + tp)) % n = tp := by
        rw [Nat.mul_assoc, ← Nat.add_assoc, ← Nat.mul_add, Nat.mul_add_mod,
          Nat.mod_eq_of_lt inside'']
      have tmp : 12 + n + n * n + (n * n * fp + (n * sp + tp)) - 12 - n - n * n =
          n * n * fp + (n * sp + tp) := by omega
      refine ⟨12 + n + n * n + (n * n * fp + (n * sp + tp)), by omega, ?_⟩
      rw [getLocation_triple isWords fits (by omega) (by omega), tmp, last,
        Nat.mul_add_div (Nat.mul_pos positive positive), Nat.div_eq_of_lt below, Nat.mul_add_mod,
        Nat.mod_eq_of_lt below, Nat.mul_add_div positive, Nat.div_eq_of_lt inside'', Nat.add_zero,
        Nat.add_zero]

theorem getLocation_dp (inside : vpn < pages n) :
    (getLocation sBlksize vpn).2.dp =
      if vpn < 12 then vpn else if vpn < 12 + n then 12 else if vpn < 12 + n + n * n then 13
        else 14 := by
  rcases Nat.lt_or_ge vpn 12 with direct | behindDirect
  · rw [getLocation_direct direct, if_pos direct]
  rcases Nat.lt_or_ge vpn (12 + n) with single | behindSingle
  · rw [getLocation_single isWords fits behindDirect single, if_neg (by omega), if_pos single]
  rcases Nat.lt_or_ge vpn (12 + n + n * n) with double | behindDouble
  · rw [getLocation_double isWords fits behindSingle double, if_neg (by omega),
      if_neg (by omega), if_pos double]
  · rw [getLocation_triple isWords fits behindDouble inside, if_neg (by omega),
      if_neg (by omega), if_neg (by omega)]

/-- The paths are in the order of the pages. -/
theorem indices_lt (lt : vpn < other) (inside : other < pages n) :
    (getLocation sBlksize vpn).2.indices < (getLocation sBlksize other).2.indices := by
  have dp := getLocation_dp isWords fits (lt.trans inside)
  have dp' := getLocation_dp isWords fits inside
  rcases Nat.lt_or_ge (getLocation sBlksize vpn).2.dp (getLocation sBlksize other).2.dp with
    dpLt | dpLe
  · exact List.cons_lt_cons_iff.mpr (.inl dpLt)
  -- With one pointer of the inode the two pages are in one range.
  rw [dp, dp'] at dpLe
  rcases Nat.lt_or_ge other 12 with direct | behindDirect
  · rw [if_pos (lt.trans direct), if_pos direct] at dpLe
    omega
  rcases Nat.lt_or_ge other (12 + n) with single | behindSingle
  · have lower : 12 ≤ vpn := by
      by_contra before
      rw [if_pos (Nat.not_le.mp before), if_neg (by omega), if_pos single] at dpLe
      omega
    rw [getLocation_single isWords fits lower (by omega),
      getLocation_single isWords fits behindDirect single]
    refine List.cons_lt_cons_iff.mpr (.inr ⟨rfl, List.cons_lt_cons_iff.mpr (.inl ?_)⟩)
    exact Nat.sub_lt_sub_right lower lt
  rcases Nat.lt_or_ge other (12 + n + n * n) with double | behindDouble
  · have lower : 12 + n ≤ vpn := by
      by_contra before
      split_ifs at dpLe <;> omega
    rw [getLocation_double isWords fits lower (by omega),
      getLocation_double isWords fits behindSingle double]
    refine List.cons_lt_cons_iff.mpr (.inr ⟨rfl, ?_⟩)
    have shifted : vpn - 12 - n < other - 12 - n := by omega
    rcases div_mod_lt (m := n) shifted with less | ⟨same, less⟩
    · exact List.cons_lt_cons_iff.mpr (.inl less)
    · exact List.cons_lt_cons_iff.mpr (.inr ⟨same, List.cons_lt_cons_iff.mpr (.inl less)⟩)
  · have lower : 12 + n + n * n ≤ vpn := by
      by_contra before
      split_ifs at dpLe <;> omega
    rw [getLocation_triple isWords fits lower (lt.trans inside),
      getLocation_triple isWords fits behindDouble inside]
    refine List.cons_lt_cons_iff.mpr (.inr ⟨rfl, ?_⟩)
    have behind : vpn - 12 - n - n * n < other - 12 - n - n * n := by omega
    rcases div_mod_lt (m := n * n) behind with less | ⟨same, less⟩
    · exact List.cons_lt_cons_iff.mpr (.inl less)
    refine List.cons_lt_cons_iff.mpr (.inr ⟨same, ?_⟩)
    rcases div_mod_lt (m := n) less with less' | ⟨same', less'⟩
    · exact List.cons_lt_cons_iff.mpr (.inl less')
    refine List.cons_lt_cons_iff.mpr (.inr ⟨same', List.cons_lt_cons_iff.mpr (.inl ?_)⟩)
    rw [Nat.mod_mul_left_mod, Nat.mod_mul_left_mod] at less'
    exact less'

/-- What is left of a location when the levels that are not used are dropped -/
def used : ℕ × Location → Option (ℕ × List ℕ)
  | (err, path) =>
      if err = 0 then some (path.dp, [path.fp, path.sp, path.tp].filter (· ≠ minusOne32)) else none

omit isWords in
theorem ne_minusOne32 {i : ℕ} (lt : i < n) : i ≠ minusOne32 := by
  unfold pages at fits
  unfold minusOne32
  omega

end Ranges

/-- As long as the pages that a file can have are numbers of 32 bits, `get_location` fails behind
them only, and its paths are those of the pages, in their order. -/
theorem getLocation_bijective (sBlksize : ℕ) (fits : pages (sBlksize / 4) < 2 ^ 32) :
    (∀ vpn < 2 ^ 32, (getLocation sBlksize vpn).1 ≠ 0 ↔ pages (sBlksize / 4) ≤ vpn) ∧
    Set.BijOn (fun vpn => (getLocation sBlksize vpn).2) {vpn | vpn < pages (sBlksize / 4)}
      {path | IsPath (sBlksize / 4) path} ∧
    ∀ vpn other, vpn < other → other < pages (sBlksize / 4) →
      (getLocation sBlksize vpn).2.indices < (getLocation sBlksize other).2.indices := by
  have ordered : ∀ vpn other, vpn < other → other < pages (sBlksize / 4) →
      (getLocation sBlksize vpn).2.indices < (getLocation sBlksize other).2.indices :=
    fun vpn other lt inside => indices_lt rfl fits lt inside
  refine ⟨fun vpn _ => getLocation_fails_iff rfl fits, ⟨fun vpn inside => ?_, ?_, ?_⟩, ordered⟩
  · exact (getLocation_isPath rfl fits inside).2
  · intro vpn inside other inside' same
    rcases Nat.lt_trichotomy vpn other with lt | eq | gt
    · have less := ordered vpn other lt inside'
      exact absurd (congrArg indices same) (ne_of_lt less)
    · exact eq
    · have less := ordered other vpn gt inside
      exact absurd (congrArg indices same) (ne_of_gt less)
  · intro path isPath
    exact exists_page rfl fits isPath

/-- Blocks of 1024 bytes -/
theorem getLocation_bijective_small :
    Set.BijOn (fun vpn => (getLocation 1024 vpn).2) {vpn | vpn < 16843020}
      {path | IsPath 256 path} :=
  (getLocation_bijective 1024 (by decide)).2.1

end Location

/-- The block map follows the paths of `get_location`. -/
theorem ExtSb.getLocation_used (esb : ExtSb)
    (fits : Location.pages esb.pointersPerBlock < 2 ^ 32) (vpn : ℕ) :
    esb.getLocation vpn = Location.used (Location.getLocation esb.sBlksize vpn) := by
  have double : u32 (12 + esb.pointersPerBlock + esb.pointersPerBlock * esb.pointersPerBlock) =
      12 + esb.pointersPerBlock + esb.pointersPerBlock * esb.pointersPerBlock := by
    rw [Location.pages_eq] at fits
    exact u32_of_lt (by omega)
  have triple : u32 (12 + esb.pointersPerBlock + esb.pointersPerBlock * esb.pointersPerBlock +
      esb.pointersPerBlock * esb.pointersPerBlock * esb.pointersPerBlock) =
        Location.pages esb.pointersPerBlock := by
    rw [← Location.pages_eq]
    exact u32_of_lt fits
  have isWords : esb.sBlksize / 4 = esb.pointersPerBlock := rfl
  simp only [ExtSb.getLocation, double, triple]
  rcases Nat.lt_or_ge vpn 12 with direct | behindDirect
  · rw [if_pos direct, Location.getLocation_direct direct]
    rfl
  rw [if_neg (Nat.not_lt.mpr behindDirect)]
  rcases Nat.lt_or_ge vpn (12 + esb.pointersPerBlock) with single | behindSingle
  · rw [if_pos single, Location.getLocation_single isWords fits behindDirect single]
    have fp := Location.ne_minusOne32 fits (show vpn - 12 < esb.pointersPerBlock by omega)
    simp [Location.used, fp]
  rw [if_neg (Nat.not_lt.mpr behindSingle)]
  have positive := esb.pointersPerBlock_pos
  have last := Location.ne_minusOne32 fits
    (Nat.mod_lt (vpn - 12 - esb.pointersPerBlock) positive)
  rcases Nat.lt_or_ge vpn (12 + esb.pointersPerBlock +
    esb.pointersPerBlock * esb.pointersPerBlock) with second | behindSecond
  · rw [if_pos second, Location.getLocation_double isWords fits behindSingle second]
    have fp := Location.ne_minusOne32 fits (Nat.div_lt_of_lt_mul
      (show vpn - 12 - esb.pointersPerBlock < esb.pointersPerBlock * esb.pointersPerBlock by omega))
    simp [Location.used, fp, last]
  rw [if_neg (Nat.not_lt.mpr behindSecond)]
  rcases Nat.lt_or_ge vpn (Location.pages esb.pointersPerBlock) with third | behindThird
  · rw [if_pos third, Location.getLocation_triple isWords fits behindSecond third]
    rcases Location.getLocation_isPath isWords fits third with ⟨_, path⟩
    rw [Location.getLocation_triple isWords fits behindSecond third] at path
    rcases path.triple_lt with ⟨fp, sp, tp⟩
    simp [Location.used, Location.ne_minusOne32 fits fp, Location.ne_minusOne32 fits sp,
      Location.ne_minusOne32 fits tp]
  · rw [if_neg (Nat.not_lt.mpr behindThird), Location.getLocation_behind isWords fits behindThird]
    rfl

end Ninix.Ext2
