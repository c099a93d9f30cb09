import Mathlib.Data.Int.Log
import Mathlib.Data.Nat.Cast.Order.Field
import Mathlib.Data.Rat.Floor
import Mathlib.Tactic.Linarith
import Mathlib.Tactic.NormNum
import Mathlib.Tactic.Positivity

/-!
# Binary floating point

Numbers with `p` binary digits and an exponent without bounds. `roundNearest p x` is the one nearest to `x`, and of two
the even one. It differs from `x` by half a unit in the last place at most (`roundNearest_near`), and is `x` where `p`
digits are enough (`roundNearest_eq_self`). A quotient and a product with an operand that was rounded before are near to
the exact ones (`quotient_near`, `product_near`), and so is the floor of a number near to a fraction (`floor_of_near`).
-/

namespace Rounding

/-- The nearest integer, and of two the even one. -/
def roundEven (y : ℚ) : ℤ := if y - ⌊y⌋ < 1 / 2 ∨ (y - ⌊y⌋ = 1 / 2 ∧ Even ⌊y⌋) then ⌊y⌋ else ⌊y⌋ + 1

theorem roundEven_near (y : ℚ) : |(roundEven y : ℚ) - y| ≤ 1 / 2 := by
  have h0 := Int.floor_le y
  have h1 := Int.lt_floor_add_one y
  rw [abs_le, roundEven]
  split_ifs with h
  · have hle : y - ⌊y⌋ ≤ 1 / 2 := by
      rcases h with h | h
      · exact h.le
      · exact h.1.le
    constructor <;> linarith
  · have hge : 1 / 2 ≤ y - ⌊y⌋ := not_lt.1 fun hlt => h (.inl hlt)
    push_cast
    constructor <;> linarith

theorem roundEven_intCast (n : ℤ) : roundEven n = n := by
  rw [roundEven, Int.floor_intCast, if_pos (.inl (by norm_num))]

/-- The unit in the last place of a number. -/
def ulp (p : ℕ) (x : ℚ) : ℚ := 2 ^ (Int.log 2 x + 1 - p)

theorem ulp_pos (p : ℕ) (x : ℚ) : 0 < ulp p x := zpow_pos two_pos _

/-- The number with `p` binary digits that is nearest to a non-negative one. -/
def roundNearest (p : ℕ) (x : ℚ) : ℚ := roundEven (x / ulp p x) * ulp p x

variable {p : ℕ} {x : ℚ}

/-- **Rounding** is off by half a unit in the last place at most. -/
theorem roundNearest_near (hx : 0 < x) : |roundNearest p x - x| ≤ x / 2 ^ p := by
  have hu := ulp_pos p x
  have hsplit : roundNearest p x - x = (roundEven (x / ulp p x) - x / ulp p x) * ulp p x := by
    rw [sub_mul, div_mul_cancel₀ x hu.ne']
    rfl
  have hulp : ulp p x ≤ 2 * x / 2 ^ p := by
    have hlog : (2 : ℚ) ^ Int.log 2 x ≤ x := Int.zpow_log_le_self one_lt_two hx
    rw [ulp, zpow_sub₀ two_ne_zero, zpow_add₀ two_ne_zero, zpow_one, zpow_natCast]
    have : (2 : ℚ) ^ Int.log 2 x * 2 ≤ 2 * x := by linarith
    gcongr
  calc |roundNearest p x - x| = |(roundEven (x / ulp p x) : ℚ) - x / ulp p x| * ulp p x := by
        rw [hsplit, abs_mul, abs_of_pos hu]
    _ ≤ 1 / 2 * ulp p x := mul_le_mul_of_nonneg_right (roundEven_near _) hu.le
    _ ≤ 1 / 2 * (2 * x / 2 ^ p) := mul_le_mul_of_nonneg_left hulp (by norm_num)
    _ = x / 2 ^ p := by ring

@[simp] theorem roundNearest_zero (p : ℕ) : roundNearest p 0 = 0 := by
  rw [roundNearest, zero_div, show ((0 : ℚ)) = ((0 : ℤ) : ℚ) from rfl, roundEven_intCast]
  simp

/-- A number of at most `p` binary digits is not rounded. -/
theorem roundNearest_eq_self {n : ℕ} (hn : n < 2 ^ p) (e : ℤ) : roundNearest p (n * 2 ^ e) = n * 2 ^ e := by
  rcases Nat.eq_zero_or_pos n with rfl | hpos
  · simp
  have hx : (0 : ℚ) < n * 2 ^ e := mul_pos (Nat.cast_pos.2 hpos) (zpow_pos two_pos e)
  have hlog : Int.log 2 ((n : ℚ) * 2 ^ e) + 1 ≤ p + e := by
    rw [Int.add_one_le_iff, ← not_le, ← Int.zpow_le_iff_le_log one_lt_two hx, not_le, Nat.cast_two,
      zpow_add₀ two_ne_zero, zpow_natCast]
    exact mul_lt_mul_of_pos_right (by exact_mod_cast hn) (zpow_pos two_pos e)
  obtain ⟨k, hk⟩ := Int.eq_ofNat_of_zero_le (show 0 ≤ e - (Int.log 2 ((n : ℚ) * 2 ^ e) + 1 - p) by omega)
  have hquot : (n : ℚ) * 2 ^ e / ulp p (n * 2 ^ e) = ((n * 2 ^ k : ℕ) : ℤ) := by
    rw [ulp, mul_div_assoc, ← zpow_sub₀ two_ne_zero, hk]
    push_cast
    rw [zpow_natCast]
  have hback := div_mul_cancel₀ ((n : ℚ) * 2 ^ e) (ulp_pos p (n * 2 ^ e)).ne'
  rw [roundNearest, hquot, roundEven_intCast, ← hquot, hback]

theorem roundNearest_natCast {n : ℕ} (hn : n < 2 ^ p) : roundNearest p n = n := by
  have := roundNearest_eq_self hn 0
  rwa [zpow_zero, mul_one] at this

/-! ## Quotients and products -/

variable {a b : ℚ}

/-- Rounding keeps a number positive. -/
theorem half_le_roundNearest (hp : 1 ≤ p) (hx : 0 < x) : x / 2 ≤ roundNearest p x := by
  have hnear := abs_le.1 (roundNearest_near (p := p) hx)
  have hpow : (2 : ℚ) ≤ 2 ^ p := by exact_mod_cast Nat.pow_le_pow_right two_pos hp
  have hle : x / 2 ^ p ≤ x / 2 := div_le_div_of_nonneg_left hx.le two_pos hpow
  linarith

/-- A quotient by a rounded number, rounded. -/
theorem quotient_near (hp : 1 ≤ p) (ha : 0 ≤ a) (hb : 0 < b) :
    |roundNearest p (a / roundNearest p b) - a / b| ≤ 4 * (a / b) / 2 ^ p := by
  rcases ha.eq_or_lt with rfl | ha
  · simp
  have hpow : (0 : ℚ) < 2 ^ p := by positivity
  have hbr := half_le_roundNearest hp hb
  have hpos : 0 < roundNearest p b := by linarith
  have hnear := roundNearest_near (p := p) hb
  have hq : 0 < a / roundNearest p b := div_pos ha hpos
  have hround := roundNearest_near (p := p) hq
  have hle : a / roundNearest p b ≤ 2 * (a / b) := by
    rw [div_le_iff₀ hpos]
    calc a = a / b * b := (div_mul_cancel₀ a hb.ne').symm
      _ ≤ a / b * (2 * roundNearest p b) := mul_le_mul_of_nonneg_left (by linarith) (div_pos ha hb).le
      _ = 2 * (a / b) * roundNearest p b := by ring
  -- the rounded divisor
  have hdiv : |a / roundNearest p b - a / b| ≤ 2 * (a / b) / 2 ^ p := by
    have heq : a / roundNearest p b - a / b = a / roundNearest p b * ((b - roundNearest p b) / b) := by
      field_simp
    rw [heq, abs_mul, abs_of_pos hq, abs_div, abs_of_pos hb, abs_sub_comm]
    calc a / roundNearest p b * (|roundNearest p b - b| / b) ≤ 2 * (a / b) * (b / 2 ^ p / b) :=
          mul_le_mul hle (div_le_div_of_nonneg_right hnear hb.le) (by positivity) (by positivity)
      _ = 2 * (a / b) / 2 ^ p := by field_simp
  calc |roundNearest p (a / roundNearest p b) - a / b| ≤
        |roundNearest p (a / roundNearest p b) - a / roundNearest p b| + |a / roundNearest p b - a / b| :=
        abs_sub_le _ _ _
    _ ≤ 2 * (a / b) / 2 ^ p + 2 * (a / b) / 2 ^ p :=
        add_le_add (hround.trans (div_le_div_of_nonneg_right hle hpow.le)) hdiv
    _ = 4 * (a / b) / 2 ^ p := by ring

/-- A product with a rounded number, rounded. -/
theorem product_near (hp : 1 ≤ p) (ha : 0 ≤ a) (hb : 0 < b) :
    |roundNearest p (a * roundNearest p b) - a * b| ≤ 4 * (a * b) / 2 ^ p := by
  rcases ha.eq_or_lt with rfl | ha
  · simp
  have hpow : (0 : ℚ) < 2 ^ p := by positivity
  have hnear := roundNearest_near (p := p) hb
  have hpos : 0 < roundNearest p b := by linarith [half_le_roundNearest hp hb]
  have hround := roundNearest_near (p := p) (mul_pos ha hpos)
  have hle : roundNearest p b ≤ 2 * b := by
    have hone : (1 : ℚ) ≤ 2 ^ p := one_le_pow₀ one_le_two
    have : b / 2 ^ p ≤ b := div_le_self hb.le hone
    linarith [(abs_le.1 hnear).2]
  have hfactor : |a * roundNearest p b - a * b| ≤ a * b / 2 ^ p := by
    rw [← mul_sub, abs_mul, abs_of_pos ha, mul_div_assoc]
    exact mul_le_mul_of_nonneg_left hnear ha.le
  have hprod : a * roundNearest p b / 2 ^ p ≤ 2 * (a * b) / 2 ^ p := by
    refine div_le_div_of_nonneg_right ?_ hpow.le
    linarith [mul_le_mul_of_nonneg_left hle ha.le]
  have hslack : 0 ≤ a * b / 2 ^ p := by positivity
  calc |roundNearest p (a * roundNearest p b) - a * b| ≤
        |roundNearest p (a * roundNearest p b) - a * roundNearest p b| + |a * roundNearest p b - a * b| :=
        abs_sub_le _ _ _
    _ ≤ 2 * (a * b) / 2 ^ p + a * b / 2 ^ p := add_le_add (hround.trans hprod) hfactor
    _ ≤ 4 * (a * b) / 2 ^ p := by
        have : 2 * (a * b) / 2 ^ p + a * b / 2 ^ p + a * b / 2 ^ p = 4 * (a * b) / 2 ^ p := by ring
        linarith

/-- **The floor** of a number near to a fraction: only an integer can be missed, by one. -/
theorem floor_of_near {n d : ℕ} {y : ℚ} (hd : 0 < d) (hy : |y - (n : ℚ) / d| < 1 / d) :
    ⌊y⌋₊ = n / d ∨ (d ∣ n ∧ ⌊y⌋₊ + 1 = n / d) := by
  have hdq : (0 : ℚ) < d := Nat.cast_pos.2 hd
  obtain ⟨hlow, hhigh⟩ := abs_lt.1 hy
  have hle : ⌊y⌋₊ < n / d + 1 := by
    rw [Nat.floor_lt' (Nat.succ_ne_zero _)]
    calc y < ((n + 1 : ℕ) : ℚ) / d := by
          push_cast
          rw [add_div]
          linarith
      _ ≤ ((n / d + 1 : ℕ) : ℚ) := by
          rw [div_le_iff₀ hdq]
          exact_mod_cast (Nat.lt_div_mul_add hd).trans_eq (Nat.succ_mul _ _).symm
  by_cases heq : ⌊y⌋₊ = n / d
  · exact .inl heq
  have hpos : n / d ≠ 0 := by omega
  have hlt : y < ((n / d : ℕ) : ℚ) := (Nat.floor_lt' hpos).1 (by omega)
  -- nothing is left over by the division
  have hn : n < n / d * d + 1 := by
    have : (n : ℚ) / d < ((n / d : ℕ) : ℚ) + 1 / d := by linarith
    rw [div_lt_iff₀ hdq, add_mul, div_mul_cancel₀ _ hdq.ne'] at this
    exact_mod_cast this
  refine .inr ⟨Nat.dvd_of_mod_eq_zero ?_, ?_⟩
  · have := Nat.div_add_mod' n d
    omega
  · have hone : (1 : ℚ) / d ≤ 1 := (div_le_one hdq).2 (by exact_mod_cast hd)
    have hge : ((n / d : ℕ) : ℚ) ≤ (n : ℚ) / d := Nat.cast_div_le
    have hquot : (1 : ℚ) ≤ (n / d : ℕ) := Nat.one_le_cast.2 (Nat.pos_of_ne_zero hpos)
    have : n / d - 1 ≤ ⌊y⌋₊ := by
      rw [Nat.le_floor_iff (by linarith), Nat.cast_sub (Nat.pos_of_ne_zero hpos), Nat.cast_one]
      linarith
    omega

end Rounding
