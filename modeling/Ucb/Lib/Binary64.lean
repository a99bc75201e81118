import Mathlib.Algebra.Order.Floor.Ring
import Mathlib.Data.Int.Log
import Mathlib.Data.Rat.Floor
import Mathlib.Tactic.Linarith
import Mathlib.Tactic.NormNum
import Mathlib.Tactic.Ring

/-!
Contract: the values of binary64 that are not negative, as rationals.

Owns:
- rounding to the nearest of 53 bits, ties to even, with subnormal and infinite results;
- sums, products and floors, and comparisons that are false for NaN;
- representable values are their own roundings, and what becomes of a natural number and a half.

Negative values are not modelled, so no zero has a sign.
-/

namespace Ucb.Lib

/-! ## To an integer -/

/-- The nearest integer, ties to even. -/
def roundEven (x : ℚ) : ℤ :=
  if x - ⌊x⌋ < 1 / 2 then ⌊x⌋
  else if 1 / 2 < x - ⌊x⌋ then ⌊x⌋ + 1
  else ⌊x⌋ + ⌊x⌋ % 2

theorem roundEven_intCast (n : ℤ) : roundEven n = n := by
  have below : (n : ℚ) - ⌊(n : ℚ)⌋ < 1 / 2 := by
    rw [Int.floor_intCast, sub_self]
    norm_num
  rw [roundEven, if_pos below, Int.floor_intCast]

/-- A tie goes to the even neighbour. -/
theorem roundEven_half (n : ℤ) : roundEven (n + 1 / 2) = n + n % 2 := by
  have floor : ⌊(n : ℚ) + 1 / 2⌋ = n := by
    rw [Int.floor_eq_iff]
    constructor <;> linarith
  have tie : (n : ℚ) + 1 / 2 - n = 1 / 2 := by ring
  rw [roundEven, floor, tie, if_neg (lt_irrefl _), if_neg (lt_irrefl _)]

/-! ## To 53 bits -/

/-- The exponent of the last place of a value: 53 bits behind the first one, and at least that of
the smallest subnormal value. -/
def ulpExponent (x : ℚ) : ℤ :=
  max (Int.log 2 x - 52) (-1074)

/-- The nearest multiple of the last place, ties to even. -/
def roundBinary64 (x : ℚ) : ℚ :=
  roundEven (x / 2 ^ ulpExponent x) * 2 ^ ulpExponent x

theorem two_zpow_pos (k : ℤ) : (0 : ℚ) < 2 ^ k :=
  zpow_pos (by norm_num) k

/-- The rounding of a value that is not negative is not negative. -/
theorem roundBinary64_nonneg {x : ℚ} (nonneg : 0 ≤ x) : 0 ≤ roundBinary64 x := by
  have floor : 0 ≤ ⌊x / 2 ^ ulpExponent x⌋ :=
    Int.floor_nonneg.mpr (div_nonneg nonneg (two_zpow_pos _).le)
  have rounded : 0 ≤ roundEven (x / 2 ^ ulpExponent x) := by
    rw [roundEven]
    split_ifs <;> omega
  exact mul_nonneg (Int.cast_nonneg rounded) (two_zpow_pos _).le

/-- A value that is a multiple of its last place is its own rounding. -/
theorem roundBinary64_of_multiple {x : ℚ} {n : ℤ} (multiple : x = n * 2 ^ ulpExponent x) :
    roundBinary64 x = x := by
  have scaled : x / 2 ^ ulpExponent x = n :=
    (div_eq_iff (two_zpow_pos _).ne').mpr multiple
  rw [roundBinary64, scaled, roundEven_intCast]
  exact multiple.symm

/-- The last place of `m * 2 ^ k` is no higher than `k` if `m` has at most 53 bits. -/
theorem ulpExponent_le {m : ℕ} {k : ℤ} (positive : 0 < m) (bits : m < 2 ^ 53) (normal : -1074 ≤ k) :
    ulpExponent (m * 2 ^ k) ≤ k := by
  have valuePos : (0 : ℚ) < m * 2 ^ k := mul_pos (Nat.cast_pos.mpr positive) (two_zpow_pos k)
  have below : (m : ℚ) * 2 ^ k < (2 : ℕ) ^ (53 + k) := by
    rw [Nat.cast_ofNat, zpow_add₀ two_ne_zero]
    refine mul_lt_mul_of_pos_right ?_ (two_zpow_pos k)
    exact_mod_cast bits
  have log := (Int.lt_zpow_iff_log_lt (by norm_num) valuePos).mp below
  exact max_le (by omega) normal

/-- Representable values are their own roundings. -/
theorem roundBinary64_representable {m : ℕ} {k : ℤ} (bits : m < 2 ^ 53) (normal : -1074 ≤ k) :
    roundBinary64 (m * 2 ^ k) = m * 2 ^ k := by
  rcases Nat.eq_zero_or_pos m with rfl | positive
  · refine roundBinary64_of_multiple (n := 0) ?_
    rw [Nat.cast_zero, zero_mul, Int.cast_zero, zero_mul]
  · obtain ⟨shift, exponent⟩ := Int.eq_ofNat_of_zero_le
      (sub_nonneg.mpr (ulpExponent_le positive bits normal))
    refine roundBinary64_of_multiple (n := m * 2 ^ shift) ?_
    generalize ulpExponent (m * 2 ^ k) = e at exponent ⊢
    obtain rfl : k = shift + e := by omega
    rw [zpow_add₀ two_ne_zero, zpow_natCast]
    push_cast
    ring

/-- Natural numbers below `2 ^ 53` are representable. -/
theorem roundBinary64_natCast {n : ℕ} (bits : n < 2 ^ 53) : roundBinary64 n = n := by
  have exact := roundBinary64_representable (k := 0) bits (by norm_num)
  rwa [zpow_zero, mul_one] at exact

/-- Below `2 ^ 52` a half can be added to a natural number. -/
theorem roundBinary64_half_small {n : ℕ} (small : n < 2 ^ 52) :
    roundBinary64 (n + 1 / 2) = n + 1 / 2 := by
  have bits : 2 * n + 1 < 2 ^ 53 := by omega
  have exact := roundBinary64_representable (k := -1) bits (by norm_num)
  have same : ((2 * n + 1 : ℕ) : ℚ) * 2 ^ (-1 : ℤ) = n + 1 / 2 := by
    rw [zpow_neg_one]
    push_cast
    ring
  rwa [same] at exact

/-- From `2 ^ 52` on a natural number and a half is a tie. -/
theorem roundBinary64_half_large {n : ℕ} (large : 2 ^ 52 ≤ n) (bits : n < 2 ^ 53) :
    roundBinary64 (n + 1 / 2) = (n + n % 2 : ℕ) := by
  have lower : ((2 : ℕ) : ℚ) ^ (52 : ℤ) ≤ n := by exact_mod_cast large
  have upper : (n : ℚ) + 1 ≤ ((2 : ℕ) : ℚ) ^ (53 : ℤ) := by exact_mod_cast bits
  have positive : (0 : ℚ) < n + 1 / 2 := by positivity
  have halfLt : (n : ℚ) + 1 / 2 < n + 1 := by linarith
  have above := (Int.zpow_le_iff_le_log (by norm_num) positive).mp
    (lower.trans (le_add_of_nonneg_right (by norm_num)))
  have below := (Int.lt_zpow_iff_log_lt (by norm_num) positive).mp (halfLt.trans_le upper)
  have ulp : ulpExponent (n + 1 / 2) = 0 := by
    rw [ulpExponent]
    omega
  have tie := roundEven_half n
  rw [Int.cast_natCast] at tie
  rw [roundBinary64, ulp, zpow_zero, div_one, mul_one, tie]
  push_cast
  rfl

/-! ## Values -/

/-- The values that are not negative, with NaN. -/
inductive Binary64 where
  | finite (value : ℚ)
  | infinity
  | nan
deriving DecidableEq

namespace Binary64

/-- A rational rounded; too large a one is infinite. -/
def ofRat (x : ℚ) : Binary64 :=
  if 2 ^ 1024 ≤ roundBinary64 x then .infinity else .finite (roundBinary64 x)

def add : Binary64 → Binary64 → Binary64
  | .finite x, .finite y => ofRat (x + y)
  | .nan, _ | _, .nan => .nan
  | _, _ => .infinity

def mul : Binary64 → Binary64 → Binary64
  | .finite x, .finite y => ofRat (x * y)
  | .nan, _ | _, .nan => .nan
  | .finite x, .infinity | .infinity, .finite x => if x = 0 then .nan else .infinity
  | .infinity, .infinity => .infinity

def floor : Binary64 → Binary64
  | .finite x => .finite ⌊x⌋
  | .infinity => .infinity
  | .nan => .nan

/-- The comparison `≥`. -/
def ge : Binary64 → Binary64 → Bool
  | .finite x, .finite y => decide (y ≤ x)
  | .infinity, .finite _ | .infinity, .infinity => true
  | .finite _, .infinity => false
  | .nan, _ | _, .nan => false

/-- `isfinite`. -/
def isFinite : Binary64 → Bool
  | .finite _ => true
  | .infinity | .nan => false

/-- Neither NaN nor below zero. -/
def NotNegative : Binary64 → Prop
  | .finite x => 0 ≤ x
  | .infinity => True
  | .nan => False

theorem notNegative_ofRat {x : ℚ} (nonneg : 0 ≤ x) : (ofRat x).NotNegative := by
  rw [ofRat]
  split
  · trivial
  · exact roundBinary64_nonneg nonneg

theorem NotNegative.add {left right : Binary64} (isLeft : left.NotNegative)
    (isRight : right.NotNegative) : (left.add right).NotNegative := by
  cases left with
  | nan => cases isLeft
  | infinity =>
      cases right with
      | nan => cases isRight
      | infinity | finite => trivial
  | finite x =>
      cases right with
      | nan => cases isRight
      | infinity => trivial
      | finite y => exact notNegative_ofRat (add_nonneg isLeft isRight)

theorem NotNegative.floor {value : Binary64} (notNegative : value.NotNegative) :
    value.floor.NotNegative := by
  cases value with
  | nan => cases notNegative
  | infinity => trivial
  | finite x => exact Int.cast_nonneg (Int.floor_nonneg.mpr notNegative)

/-- What a natural number can be rounded to is finite. -/
theorem two_pow_53_lt : (2 : ℚ) ^ 53 < 2 ^ 1024 :=
  pow_lt_pow_right₀ (by norm_num) (by norm_num)

theorem ofRat_of_round {x y : ℚ} (rounded : roundBinary64 x = y) (small : y < 2 ^ 1024) :
    ofRat x = .finite y := by
  rw [ofRat, rounded, if_neg (not_le.mpr small)]

/-- A natural number below `2 ^ 53` is a value. -/
theorem ofRat_natCast {n : ℕ} (bits : n < 2 ^ 53) : ofRat n = .finite n := by
  refine ofRat_of_round (roundBinary64_natCast bits) ?_
  have small : (n : ℚ) < 2 ^ 53 := by exact_mod_cast bits
  exact small.trans two_pow_53_lt

theorem ofRat_zero : ofRat 0 = .finite 0 := by
  have exact := ofRat_natCast (n := 0) (by norm_num)
  rwa [Nat.cast_zero] at exact

theorem ofRat_half : ofRat (1 / 2) = .finite (1 / 2) := by
  have exact := roundBinary64_half_small (n := 0) (by norm_num)
  rw [Nat.cast_zero, zero_add] at exact
  refine ofRat_of_round exact (lt_trans ?_ two_pow_53_lt)
  norm_num

/-- A natural number of 53 bits, shifted. -/
theorem ofRat_shifted {m k : ℕ} (bits : m < 2 ^ 53) (inRange : k ≤ 900) :
    ofRat (m * 2 ^ k) = .finite (m * 2 ^ k) := by
  have exact := roundBinary64_representable (k := k) bits (by omega)
  rw [zpow_natCast] at exact
  refine ofRat_of_round exact ?_
  have bits' : (m : ℚ) < 2 ^ 53 := by exact_mod_cast bits
  calc (m : ℚ) * 2 ^ k < 2 ^ 53 * 2 ^ k := mul_lt_mul_of_pos_right bits' (by positivity)
    _ = 2 ^ (53 + k) := (pow_add 2 53 k).symm
    _ ≤ 2 ^ 1024 := pow_le_pow_right₀ one_le_two (by omega)

/-- Rounding a natural number to the nearest integer by adding a half and taking the floor: it is
lost exactly if it is odd and has 53 bits. -/
theorem floor_add_half {n : ℕ} (bits : n < 2 ^ 53) :
    (add (.finite n) (.finite (1 / 2))).floor =
      .finite (if 2 ^ 52 ≤ n ∧ n % 2 = 1 then n + 1 else n : ℕ) := by
  have bound : (n : ℚ) + 1 ≤ 2 ^ 53 := by exact_mod_cast bits
  by_cases large : 2 ^ 52 ≤ n
  · have rounded := roundBinary64_half_large large bits
    have small : ((n + n % 2 : ℕ) : ℚ) < 2 ^ 1024 := by
      have atMost : n + n % 2 ≤ 2 ^ 53 := by omega
      refine lt_of_le_of_lt ?_ two_pow_53_lt
      exact_mod_cast atMost
    rw [add, ofRat_of_round rounded small, floor, Int.floor_natCast]
    rcases Nat.mod_two_eq_zero_or_one n with even | odd
    · rw [if_neg (fun both => absurd (even.symm.trans both.2) (by decide)), even]
      rfl
    · rw [if_pos ⟨large, odd⟩, odd]
      rfl
  · have rounded := roundBinary64_half_small (Nat.lt_of_not_le large)
    have small : (n : ℚ) + 1 / 2 < 2 ^ 1024 := lt_trans (by linarith) two_pow_53_lt
    have floor_eq : ⌊(n : ℚ) + 1 / 2⌋ = n := by
      rw [Int.floor_eq_iff]
      push_cast
      constructor <;> linarith
    rw [add, ofRat_of_round rounded small, floor, floor_eq, if_neg (fun both => large both.1)]
    rfl

end Binary64

end Ucb.Lib
