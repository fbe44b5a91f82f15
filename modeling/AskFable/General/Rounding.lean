import Mathlib.Algebra.Order.Floor.Ring
import Mathlib.Data.Int.ConditionallyCompleteOrder
import Mathlib.Data.Int.Log
import Mathlib.Tactic.Linarith
import Mathlib.Tactic.Positivity
import Mathlib.Tactic.Ring

/-!
# Rounding to a precision

A number to the nearest integer, ties to the even one, and to the nearest number of so many
binary digits. Rounding is monotone and keeps the powers of two. The range of the exponent is
not bounded.
-/
namespace AskFable.Rounding

variable {K : Type*} [Field K] [LinearOrder K] [IsStrictOrderedRing K] [FloorRing K]

def toEven (x : K) : ℤ :=
  if x - ⌊x⌋ < 1 / 2 then ⌊x⌋
  else if 1 / 2 < x - ⌊x⌋ then ⌊x⌋ + 1
  else ⌊x⌋ + ⌊x⌋ % 2

@[simp] theorem toEven_intCast (k : ℤ) : toEven (k : K) = k := by simp [toEven]

@[simp] theorem toEven_zero : toEven (0 : K) = 0 := by simpa using toEven_intCast (K := K) 0

omit [IsStrictOrderedRing K] in
theorem floor_le_toEven (x : K) : ⌊x⌋ ≤ toEven x := by
  unfold toEven
  split_ifs <;> omega

omit [IsStrictOrderedRing K] in
theorem toEven_le_floor_add_one (x : K) : toEven x ≤ ⌊x⌋ + 1 := by
  unfold toEven
  split_ifs <;> omega

theorem toEven_mono : Monotone (toEven : K → ℤ) := by
  intro x y h
  rcases (Int.floor_mono h).lt_or_eq with hlt | heq
  · calc toEven x ≤ ⌊x⌋ + 1 := toEven_le_floor_add_one x
      _ ≤ ⌊y⌋ := hlt
      _ ≤ toEven y := floor_le_toEven y
  · unfold toEven
    rw [heq]
    have hsub : x - ⌊y⌋ ≤ y - ⌊y⌋ := sub_le_sub_right h _
    split_ifs with hx hy hy hx' hy hy hy hy
    · omega
    · omega
    · omega
    · exact absurd (lt_of_le_of_lt hsub hy) hx
    · omega
    · exact absurd (lt_of_lt_of_le hx' hsub) hy
    · exact absurd (lt_of_le_of_lt hsub hy) hx
    · omega
    · omega

/-- The distance of the numbers with `p + 1` binary digits around a positive one. -/
def ulp (p : ℕ) (x : K) : K := 2 ^ (Int.log 2 x - p)

theorem ulp_pos (p : ℕ) (x : K) : 0 < ulp p x := zpow_pos two_pos _

def magnitude (p : ℕ) (x : K) : K := toEven (x / ulp p x) * ulp p x

/-- The nearest number of `p + 1` binary digits. -/
def nearest (p : ℕ) (x : K) : K := if x < 0 then -magnitude p (-x) else magnitude p x

theorem magnitude_nonneg (p : ℕ) {x : K} (h : 0 ≤ x) : 0 ≤ magnitude p x := by
  have hround : toEven (0 : K) ≤ toEven (x / ulp p x) :=
    toEven_mono (div_nonneg h (ulp_pos p x).le)
  rw [toEven_zero] at hround
  exact mul_nonneg (Int.cast_nonneg hround) (ulp_pos p x).le

theorem magnitude_le (p : ℕ) (x : K) : magnitude p x ≤ 2 ^ (Int.log 2 x + 1) := by
  have hscale : (2 : K) ^ (Int.log 2 x + 1) = ((2 ^ (p + 1) : ℤ) : K) * ulp p x := by
    rw [ulp, Int.cast_pow, Int.cast_ofNat, ← zpow_natCast, ← zpow_add₀ two_ne_zero]
    congr 1
    push_cast
    ring
  have hx : x / ulp p x ≤ ((2 ^ (p + 1) : ℤ) : K) := by
    rw [div_le_iff₀ (ulp_pos p x), ← hscale]
    exact_mod_cast (Int.lt_zpow_succ_log_self one_lt_two x).le
  have hround := toEven_mono hx
  rw [toEven_intCast] at hround
  rw [hscale, magnitude]
  exact mul_le_mul_of_nonneg_right (Int.cast_le.mpr hround) (ulp_pos p x).le

theorem le_magnitude (p : ℕ) {x : K} (h : 0 < x) : 2 ^ Int.log 2 x ≤ magnitude p x := by
  have hscale : (2 : K) ^ Int.log 2 x = ((2 ^ p : ℤ) : K) * ulp p x := by
    rw [ulp, Int.cast_pow, Int.cast_ofNat, ← zpow_natCast, ← zpow_add₀ two_ne_zero]
    congr 1
    ring
  have hx : ((2 ^ p : ℤ) : K) ≤ x / ulp p x := by
    rw [le_div_iff₀ (ulp_pos p x), ← hscale]
    exact_mod_cast Int.zpow_log_le_self one_lt_two h
  have hround := toEven_mono hx
  rw [toEven_intCast] at hround
  rw [hscale, magnitude]
  exact mul_le_mul_of_nonneg_right (Int.cast_le.mpr hround) (ulp_pos p x).le

theorem magnitude_mono (p : ℕ) {x y : K} (hx : 0 ≤ x) (h : x ≤ y) :
    magnitude p x ≤ magnitude p y := by
  rcases hx.eq_or_lt with rfl | hx
  · simpa [magnitude] using magnitude_nonneg p h
  rcases (Int.log_mono_right hx h).lt_or_eq with hlt | heq
  · calc magnitude p x ≤ 2 ^ (Int.log 2 x + 1) := magnitude_le p x
      _ ≤ 2 ^ Int.log 2 y := zpow_le_zpow_right₀ one_le_two hlt
      _ ≤ magnitude p y := le_magnitude p (hx.trans_le h)
  · have hulp : ulp p x = ulp p y := by rw [ulp, ulp, heq]
    rw [magnitude, magnitude, hulp]
    have hround := toEven_mono (div_le_div_of_nonneg_right h (ulp_pos p y).le)
    exact mul_le_mul_of_nonneg_right (Int.cast_le.mpr hround) (ulp_pos p y).le

theorem nearest_mono (p : ℕ) : Monotone (nearest p : K → K) := by
  intro x y h
  unfold nearest
  split_ifs with hx hy hy
  · exact neg_le_neg (magnitude_mono p (neg_nonneg.mpr hy.le) (neg_le_neg h))
  · have hneg := magnitude_nonneg p (neg_nonneg.mpr hx.le)
    exact (neg_nonpos.mpr hneg).trans (magnitude_nonneg p (not_lt.mp hy))
  · exact absurd (h.trans_lt hy) hx
  · exact magnitude_mono p (not_lt.mp hx) h

theorem nearest_zpow (p : ℕ) (k : ℤ) : nearest p ((2 : K) ^ k) = 2 ^ k := by
  have hpos : (0 : K) < 2 ^ k := zpow_pos two_pos k
  have hlog : Int.log 2 ((2 : K) ^ k) = k := by
    exact_mod_cast Int.log_zpow (R := K) one_lt_two k
  have hdiv : (2 : K) ^ k / ulp p (2 ^ k) = ((2 ^ p : ℤ) : K) := by
    rw [ulp, hlog, ← zpow_sub₀ two_ne_zero, sub_sub_cancel, zpow_natCast]
    norm_cast
  rw [nearest, if_neg hpos.not_gt, magnitude, hdiv, toEven_intCast, ← hdiv,
    div_mul_cancel₀ _ (ulp_pos p _).ne']

theorem nearest_one (p : ℕ) : nearest p (1 : K) = 1 := by
  simpa using nearest_zpow (K := K) p 0

theorem nearest_zero (p : ℕ) : nearest p (0 : K) = 0 := by simp [nearest, magnitude]

end AskFable.Rounding
