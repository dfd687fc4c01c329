import Mathlib.Algebra.Order.Floor.Semiring
import Mathlib.Data.Int.Log
import Mathlib.Data.Rat.Floor
import Mathlib.Tactic.Linarith
import Mathlib.Tactic.NormNum

/-!
# Doubles, by their values

A double is a number, one of two infinities, or no number at all.  A number is kept by its value, as
a rational; the sign of a zero is left out, since no comparison sees it.

## Rounding

A result that no double has is rounded to the nearest one, and between two that are equally near to
the one whose last bit is zero.  What doubles there are near a value depends on its magnitude: they
have 53 bits, so that near `q` they are the multiples of `2 ^ (log₂ |q| - 52)`, and no double has a
bit below the one of `2 ^ (-1074)`.  `lastPlace` is the larger of these two exponents, and `nearest`
rounds the quotient by that power to an integer.  A result of `2 ^ 1024` or more, after the
rounding, is infinite.

Three things are used of it:

* that it is computed, so that a product like `0.57 * 1000.0` has the value that the hardware gives;
* that whole numbers below `2 ^ 53` are exact (`round_intCast`), and with them the products of whole
  numbers that stay below it (`mul_intCast`);
* that nothing from there on is rounded to less (`le_nearest`).

## Comparing

`lt` and `le` are the comparisons of the standard: nothing compares with what is no number.
-/

namespace RFed

/-- A double. -/
inductive Double where
  | finite (v : ℚ)
  | infinite (negative : Bool)
  | nan
  deriving DecidableEq

namespace Double

/-! ## Rounding -/

/-- The nearest integer, and the even one of two. -/
def nearestInt (q : ℚ) : ℤ :=
  if q - ⌊q⌋ < 1 / 2 then ⌊q⌋
  else if 1 / 2 < q - ⌊q⌋ then ⌊q⌋ + 1
  else if ⌊q⌋ % 2 = 0 then ⌊q⌋ else ⌊q⌋ + 1

/-- The exponent of the last bit of the doubles near `q`. -/
def lastPlace (q : ℚ) : ℤ := max (-1074) (Int.log 2 |q| - 52)

/-- The nearest number with 53 bits. -/
def nearest (q : ℚ) : ℚ := nearestInt (q / 2 ^ lastPlace q) * 2 ^ lastPlace q

/-- The double that a result is rounded to. -/
def round (q : ℚ) : Double :=
  if |nearest q| < 2 ^ 1024 then .finite (nearest q) else .infinite (decide (q < 0))

theorem nearestInt_intCast (n : ℤ) : nearestInt n = n := by
  rw [nearestInt, Int.floor_intCast, sub_self, if_pos (by norm_num)]

/-- The last bit of a whole number below `2 ^ 53` is not above the bit of one. -/
theorem lastPlace_intCast_nonpos {n : ℤ} (h : |n| < 2 ^ 53) : lastPlace n ≤ 0 := by
  have hlog : Int.log 2 |(n : ℚ)| < 53 := by
    rcases eq_or_ne n 0 with rfl | hn
    · rw [Int.cast_zero, abs_zero, Int.log_zero_right]
      norm_num
    · have hpos : (0 : ℚ) < |(n : ℚ)| := abs_pos.mpr (Int.cast_ne_zero.mpr hn)
      have hlt : |(n : ℚ)| < 2 ^ (53 : ℤ) := by exact_mod_cast h
      exact (Int.lt_zpow_iff_log_lt (by norm_num) hpos).mp (by exact_mod_cast hlt)
  rw [lastPlace]
  omega

/-- Such a number is its own rounding: scaled by its last place it is still whole. -/
theorem nearest_intCast {n : ℤ} (h : |n| < 2 ^ 53) : nearest n = n := by
  obtain ⟨k, hk⟩ := Int.exists_eq_neg_ofNat (lastPlace_intCast_nonpos h)
  have hscaled : (n : ℚ) / 2 ^ lastPlace n = ((n * 2 ^ k : ℤ) : ℚ) := by
    rw [hk, zpow_neg, div_inv_eq_mul, zpow_natCast]
    push_cast
    rfl
  rw [nearest, hscaled, nearestInt_intCast, hk, zpow_neg, zpow_natCast]
  push_cast
  exact mul_inv_cancel_right₀ (pow_ne_zero k two_ne_zero) _

@[inherit_doc nearest_intCast]
theorem nearest_natCast {n : ℕ} (h : n < 2 ^ 53) : nearest n = n := by
  have habs : |(n : ℤ)| < 2 ^ 53 := by
    rw [Nat.abs_cast]
    exact_mod_cast h
  exact_mod_cast nearest_intCast habs

theorem floor_le_nearestInt (q : ℚ) : ⌊q⌋ ≤ nearestInt q := by
  rw [nearestInt]
  split_ifs
  · exact le_rfl
  · omega
  · exact le_rfl
  · omega

/-- A number from `2 ^ 53` on is not rounded to less: what it is scaled to by its last place has 53
bits before the point, and the power of two that it begins with stays below it. -/
theorem le_nearest {q : ℚ} (h : 2 ^ 53 ≤ q) : 2 ^ 53 ≤ nearest q := by
  have hpos : 0 < q := lt_of_lt_of_le (by norm_num) h
  obtain ⟨k, hk⟩ : ∃ k, Int.log 2 q = k := ⟨_, rfl⟩
  have hlog : 53 ≤ k := by
    rw [← hk]
    refine (Int.zpow_le_iff_le_log (by norm_num) hpos).mp ?_
    exact_mod_cast h
  have hself : (2 : ℚ) ^ k ≤ q := by
    rw [← hk]
    exact_mod_cast Int.zpow_log_le_self (by norm_num : 1 < 2) hpos
  have hplace : lastPlace q = k - 52 := by
    rw [lastPlace, abs_of_pos hpos, hk]
    omega
  have hunit : (0 : ℚ) < 2 ^ (k - 52) := zpow_pos two_pos _
  have hsplit : (2 : ℚ) ^ k = (2 ^ 52 : ℤ) * 2 ^ (k - 52) := by
    rw [zpow_sub₀ two_ne_zero]
    norm_num
    ring
  have hscaled : (2 ^ 52 : ℤ) ≤ ⌊q / 2 ^ (k - 52)⌋ := by
    rw [Int.le_floor, le_div_iff₀ hunit, ← hsplit]
    exact hself
  have hwhole : ((2 ^ 52 : ℤ) : ℚ) ≤ nearestInt (q / 2 ^ (k - 52)) :=
    Int.cast_le.mpr (hscaled.trans (floor_le_nearestInt _))
  calc (2 : ℚ) ^ 53 ≤ 2 ^ k := by
        rw [← zpow_natCast]
        exact zpow_le_zpow_right₀ one_le_two (by exact_mod_cast hlog)
    _ = (2 ^ 52 : ℤ) * 2 ^ (k - 52) := hsplit
    _ ≤ nearestInt (q / 2 ^ (k - 52)) * 2 ^ (k - 52) := mul_le_mul_of_nonneg_right hwhole hunit.le
    _ = nearest q := by rw [nearest, hplace]

/-- **Whole numbers below `2 ^ 53` are doubles.** -/
theorem round_intCast {n : ℤ} (h : |n| < 2 ^ 53) : round n = .finite n := by
  have hlt : |(n : ℚ)| < 2 ^ 53 := by exact_mod_cast h
  rw [round, nearest_intCast h, if_pos (hlt.trans (pow_lt_pow_right₀ one_lt_two (by norm_num)))]

/-! ## Multiplying -/

/-- `a * b`.  Nothing times an infinity is no number. -/
def mul : Double → Double → Double
  | finite v, finite w => round (v * w)
  | finite v, infinite negative =>
      if v = 0 then nan else infinite (decide (v < 0) ^^ negative)
  | infinite negative, finite w =>
      if w = 0 then nan else infinite (negative ^^ decide (w < 0))
  | infinite negative, infinite negative' => infinite (negative ^^ negative')
  | _, _ => nan

/-- The product is a little below 570, and the nearest double is 570. -/
example : (finite (nearest (57 / 100))).mul (finite 1000) = finite 570 ∧
    nearest (57 / 100) * 1000 < 570 := by decide +kernel

theorem mul_intCast {m n : ℤ} (h : |m * n| < 2 ^ 53) :
    (finite m).mul (finite n) = finite (m * n : ℤ) := by
  rw [mul, ← Int.cast_mul, round_intCast h]

/-! ## Comparing -/

/-- `a < b`. -/
def lt : Double → Double → Bool
  | finite v, finite w => decide (v < w)
  | finite _, infinite negative => !negative
  | infinite negative, finite _ => negative
  | infinite negative, infinite negative' => negative && !negative'
  | _, _ => false

/-- `a <= b`. -/
def le : Double → Double → Bool
  | finite v, finite w => decide (v ≤ w)
  | finite _, infinite negative => !negative
  | infinite negative, finite _ => negative
  | infinite negative, infinite negative' => negative || !negative'
  | _, _ => false

theorem lt_finite {v w : ℚ} : (finite v).lt (finite w) = false ↔ w ≤ v :=
  decide_eq_false_iff_not.trans not_lt

theorem le_finite {v w : ℚ} : (finite v).le (finite w) = false ↔ w < v :=
  decide_eq_false_iff_not.trans not_le

end Double

end RFed
