import Mathlib.Algebra.Order.Field.Basic
import Mathlib.Analysis.Complex.Exponential
import Mathlib.Tactic.Common
import Mathlib.Tactic.Linarith
import Mathlib.Tactic.Positivity
import Mathlib.Tactic.Ring

/-!
# Compound interest with a linear rest

At the rate `r` a whole period multiplies a balance by `1 + r`, and a part `x` of a period by `part r x = 1 + r * x`.
A span that is split at some moment grows by at least as much as the whole span, and by at most the part `r ^ 2 / 4`
more; if both rests together fill a period, the whole span compounds once more (`carry`).  However a span is split,
it grows by less than under continuous compounding (`pow_mul_part_le_exp`).
-/

namespace Compound

variable {K : Type*} [Field K] [LinearOrder K] [IsStrictOrderedRing K] {r x y : K}

/-- The growth over a part of a period. -/
def part (r x : K) : K := 1 + r * x

/-- The growth over two rests that fill one period and a rest. -/
def carry (r x y : K) : K := (1 + r) * part r (x + y - 1)

theorem one_le_part (hr : 0 ≤ r) (hx : 0 ≤ x) : 1 ≤ part r x := le_add_of_nonneg_right (mul_nonneg hr hx)

omit [LinearOrder K] [IsStrictOrderedRing K] in
private theorem part_excess (r x y : K) : part r x * part r y = part r (x + y) + r ^ 2 * (x * y) := by
  unfold part
  ring

/-- Two parts of one period. -/
theorem part_add_le (hx : 0 ≤ x) (hy : 0 ≤ y) : part r (x + y) ≤ part r x * part r y := by
  rw [part_excess]
  exact le_add_of_nonneg_right (mul_nonneg (sq_nonneg r) (mul_nonneg hx hy))

/-- The product of two parts of a period is at most a quarter. -/
private theorem mul_le_quarter {x y : K} (hx : 0 ≤ x) (hy : 0 ≤ y) (hxy : x + y ≤ 1) : x * y ≤ 1 / 4 := by
  have hsq : (x + y) ^ 2 ≤ 1 := pow_le_one₀ (add_nonneg hx hy) hxy
  have hdiff : 0 ≤ (x - y) ^ 2 := sq_nonneg _
  have hsum : (x + y) ^ 2 = 4 * (x * y) + (x - y) ^ 2 := by ring
  linarith

theorem part_mul_part_le (hr : 0 ≤ r) (hx : 0 ≤ x) (hy : 0 ≤ y) (hxy : x + y ≤ 1) :
    part r x * part r y ≤ part r (x + y) * (1 + r ^ 2 / 4) := by
  have hone := one_le_part hr (add_nonneg hx hy)
  have hquarter := mul_le_mul_of_nonneg_left (mul_le_quarter hx hy hxy) (sq_nonneg r)
  have hgrown : r ^ 2 / 4 ≤ part r (x + y) * (r ^ 2 / 4) := le_mul_of_one_le_left (by positivity) hone
  rw [part_excess, mul_add, mul_one]
  linarith

omit [LinearOrder K] [IsStrictOrderedRing K] in
private theorem carry_excess (r x y : K) : part r x * part r y = carry r x y + r ^ 2 * ((1 - x) * (1 - y)) := by
  unfold carry part
  ring

/-- Two rests that fill a period. -/
theorem carry_le (hx : x ≤ 1) (hy : y ≤ 1) : carry r x y ≤ part r x * part r y := by
  rw [carry_excess]
  exact le_add_of_nonneg_right (mul_nonneg (sq_nonneg r) (mul_nonneg (sub_nonneg.2 hx) (sub_nonneg.2 hy)))

theorem one_le_carry (hr : 0 ≤ r) (hxy : 1 ≤ x + y) : 1 ≤ carry r x y :=
  one_le_mul_of_one_le_of_one_le (le_add_of_nonneg_right hr) (one_le_part hr (sub_nonneg.2 hxy))

theorem part_mul_part_le_carry (hr : 0 ≤ r) (hx : x ≤ 1) (hy : y ≤ 1) (hxy : 1 ≤ x + y) :
    part r x * part r y ≤ carry r x y * (1 + r ^ 2 / 4) := by
  have hone := one_le_carry hr hxy
  have hquarter := mul_le_mul_of_nonneg_left
    (mul_le_quarter (sub_nonneg.2 hx) (sub_nonneg.2 hy) (by linarith)) (sq_nonneg r)
  have hgrown : r ^ 2 / 4 ≤ carry r x y * (r ^ 2 / 4) := le_mul_of_one_le_left (by positivity) hone
  rw [carry_excess, mul_add, mul_one]
  linarith

/-- Whole periods and a rest against continuous compounding. -/
theorem pow_mul_part_le_exp {r x : ℝ} (hr : 0 ≤ r) (hx : 0 ≤ x) (n : ℕ) :
    (1 + r) ^ n * part r x ≤ Real.exp (r * (n + x)) := by
  have hperiods : (1 + r) ^ n ≤ Real.exp (n * r) := by
    rw [Real.exp_nat_mul]
    exact pow_le_pow_left₀ (by linarith) ((add_comm 1 r).trans_le (Real.add_one_le_exp r)) n
  have hrest : part r x ≤ Real.exp (r * x) := (add_comm 1 (r * x)).trans_le (Real.add_one_le_exp _)
  calc (1 + r) ^ n * part r x ≤ Real.exp (n * r) * Real.exp (r * x) :=
        mul_le_mul hperiods hrest (zero_le_one.trans (one_le_part hr hx)) (Real.exp_pos _).le
    _ = Real.exp (r * (n + x)) := by
        rw [← Real.exp_add]
        congr 1
        ring

end Compound
