import AskFable.General.Rounding
import AskFable.Health.Breaker
import Mathlib.Data.Rat.Floor

/-!
# Correctly rounded operations

What the breaker's arithmetic relies on: each operation gives the rounding of the exact result,
and rounding is monotone. Exact operations are of this kind, and those of a double are.
-/
namespace AskFable.Health

/-- Every operation rounds its exact result, in one way that keeps the order. -/
structure Floats.Correct [Floats] (rnd : ℚ → ℚ) : Prop where
  mono : Monotone rnd
  zero : rnd 0 = 0
  quot : ∀ m n, 0 < n → Floats.quot m n = rnd (m / n)
  add : ∀ x y, Floats.add x y = rnd (x + y)
  sub : ∀ x y, Floats.sub x y = rnd (x - y)
  mul : ∀ x y, Floats.mul x y = rnd (x * y)

/-- Doubles, away from the ends of their range: 53 binary digits. -/
@[reducible] def Floats.double : Floats where
  quot m n := Rounding.nearest 52 (m / n)
  add x y := Rounding.nearest 52 (x + y)
  sub x y := Rounding.nearest 52 (x - y)
  mul x y := Rounding.nearest 52 (x * y)
  round x digits := Rounding.nearest 52 (Rounding.toEven (x * 10 ^ digits) / 10 ^ digits)
  quot_self n hn := by
    have hne : (n : ℚ) ≠ 0 := by exact_mod_cast hn.ne'
    rw [div_self hne, Rounding.nearest_one]

theorem double_correct :
    let : Floats := Floats.double
    Floats.Correct (Rounding.nearest 52) := by
  intro floats
  exact ⟨Rounding.nearest_mono 52, Rounding.nearest_zero 52, fun _ _ _ => rfl, fun _ _ => rfl,
    fun _ _ => rfl, fun _ _ => rfl⟩

section
variable [Floats] {rnd : ℚ → ℚ}

theorem Floats.Correct.quot_le (h : Floats.Correct rnd) {m n m' n' : ℕ} (hn : 0 < n)
    (hn' : 0 < n') (hle : m * n' ≤ m' * n) : Floats.quot m n ≤ Floats.quot m' n' := by
  rw [h.quot m n hn, h.quot m' n' hn']
  refine h.mono ?_
  rw [div_le_div_iff₀ (by exact_mod_cast hn) (by exact_mod_cast hn')]
  exact_mod_cast hle

theorem Floats.Correct.add_le (h : Floats.Correct rnd) {x y x' y' : ℚ} (hx : x ≤ x')
    (hy : y ≤ y') : Floats.add x y ≤ Floats.add x' y' := by
  rw [h.add, h.add]
  exact h.mono (add_le_add hx hy)

theorem Floats.Correct.mul_le (h : Floats.Correct rnd) {x y x' y' : ℚ} (hx : x ≤ x')
    (hy : y ≤ y') (hx' : 0 ≤ x') (hy0 : 0 ≤ y) : Floats.mul x y ≤ Floats.mul x' y' := by
  rw [h.mul, h.mul]
  exact h.mono (mul_le_mul hx hy hy0 hx')

end

end AskFable.Health
