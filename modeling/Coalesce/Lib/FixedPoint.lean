import Mathlib.Algebra.Order.Field.Basic
import Mathlib.Data.Nat.Cast.Order.Field
import Mathlib.Tactic.Common
import Mathlib.Tactic.Linarith
import Mathlib.Tactic.Positivity
import Mathlib.Tactic.Ring

/-!
# Fixed-point numbers that are rounded down

A natural number `x` stands for the number `x / u`.  `Approx u X x e` says that `x` is `X` rounded down with a
relative error of at most `e / u`; the rules say how the error grows in the computations of a program that
multiplies numbers above one.
-/

namespace FixedPoint

variable {K : Type*} [Field K] [LinearOrder K] [IsStrictOrderedRing K] {u x y e f : ℕ} {X Y : K}

/-- `x / u` lies below `X`, and above it but for `e` parts in `u`. -/
structure Approx (u : ℕ) (X : K) (x e : ℕ) : Prop where
  le : (x : K) ≤ X * u
  ge : X * (u - e) ≤ x

/-- Losses of some parts in `u` add up along a chain of comparisons. -/
theorem loss_trans {k l x y z c d : K} (hu : 0 < u) (hk : 0 ≤ k) (hl : 0 ≤ l) (hx : 0 ≤ x) (hz : 0 ≤ z) (hc : 0 ≤ c)
    (hd : 0 ≤ d) (hxy : x * (u - k) ≤ c * y * u) (hyz : y * (u - l) ≤ d * z * u) :
    x * (u - (k + l)) ≤ c * d * z * u := by
  have hu' : (0 : K) < u := by exact_mod_cast hu
  -- with losses above `u` the bound is negative
  rcases le_total (u : K) (k + l) with hlarge | hsmall
  · have hneg : x * (u - (k + l)) ≤ 0 := mul_nonpos_of_nonneg_of_nonpos hx (sub_nonpos.2 hlarge)
    exact hneg.trans (by positivity)
  · have hcross : 0 ≤ x * (k * l) := by positivity
    refine le_of_mul_le_mul_right ?_ hu'
    calc x * (u - (k + l)) * u = x * (u - k) * (u - l) - x * (k * l) := by ring
      _ ≤ x * (u - k) * (u - l) := by linarith
      _ ≤ c * y * u * (u - l) := mul_le_mul_of_nonneg_right hxy (by linarith)
      _ = c * u * (y * (u - l)) := by ring
      _ ≤ c * u * (d * z * u) := mul_le_mul_of_nonneg_left hyz (by positivity)
      _ = c * d * z * u * u := by ring

namespace Approx

theorem exact (u x : ℕ) (hu : 0 < u) : Approx u (x / u : K) x 0 := by
  have hne : (u : K) ≠ 0 := by exact_mod_cast hu.ne'
  constructor
  · rw [div_mul_cancel₀ _ hne]
  · rw [Nat.cast_zero, sub_zero, div_mul_cancel₀ _ hne]

omit [IsStrictOrderedRing K] in
theorem one (u : ℕ) : Approx u (1 : K) u 0 := by
  constructor <;> simp

theorem mono (h : Approx u X x e) (hX : 0 ≤ X) (hef : e ≤ f) : Approx u X x f where
  le := h.le
  ge := by
    have hcast : (e : K) ≤ f := by exact_mod_cast hef
    refine le_trans ?_ h.ge
    exact mul_le_mul_of_nonneg_left (by linarith) hX

/-- A number above one loses at most one part when it is rounded down. -/
theorem floor (hle : (x : K) ≤ X * u) (hlt : X * u < x + 1) (hX : 1 ≤ X) : Approx u X x 1 where
  le := hle
  ge := by
    push_cast
    linarith

/-- The errors of the factors of an exact product add up. -/
theorem mul_ge (hx : Approx u X x e) (hy : Approx u Y y f) (hX : 0 ≤ X) (hY : 0 ≤ Y) :
    X * Y * (u - (e + f)) * u ≤ x * y := by
  have he : (0 : K) ≤ e := Nat.cast_nonneg e
  have hf : (0 : K) ≤ f := Nat.cast_nonneg f
  have hu : (0 : K) ≤ u := Nat.cast_nonneg u
  -- with errors above `u` the bound is negative
  rcases le_total (u : K) (e + f) with hlarge | hsmall
  · have hneg : X * Y * (u - (e + f)) * u ≤ 0 :=
      mul_nonpos_of_nonpos_of_nonneg
        (mul_nonpos_of_nonneg_of_nonpos (mul_nonneg hX hY) (sub_nonpos.2 hlarge)) hu
    exact hneg.trans (mul_nonneg (Nat.cast_nonneg x) (Nat.cast_nonneg y))
  · have hprod : X * (u - e) * (Y * (u - f)) ≤ x * y :=
      mul_le_mul hx.ge hy.ge (mul_nonneg hY (by linarith)) (Nat.cast_nonneg x)
    have hcross : 0 ≤ X * Y * (e * f) := by positivity
    calc X * Y * (u - (e + f)) * u = X * (u - e) * (Y * (u - f)) - X * Y * (e * f) := by ring
      _ ≤ x * y := by linarith

/-- A rounded product is off by the errors of its factors and one more part. -/
theorem mul (hx : Approx u X x e) (hy : Approx u Y y f) (hX : 1 ≤ X) (hY : 1 ≤ Y) (hu : 0 < u) :
    Approx u (X * Y) (x * y / u) (e + f + 1) := by
  have hu' : (0 : K) < u := by exact_mod_cast hu
  constructor
  · have hfloor : ((x * y / u : ℕ) : K) * u ≤ x * y := by exact_mod_cast Nat.div_mul_le_self (x * y) u
    have hprod : (x * y : K) ≤ X * u * (Y * u) :=
      mul_le_mul hx.le hy.le (Nat.cast_nonneg y) (mul_nonneg (zero_le_one.trans hX) hu'.le)
    refine le_of_mul_le_mul_right ?_ hu'
    calc ((x * y / u : ℕ) : K) * u ≤ x * y := hfloor
      _ ≤ X * u * (Y * u) := hprod
      _ = X * Y * u * u := by ring
  · have hfloor : (x * y : K) ≤ ((x * y / u : ℕ) : K) * u + u := by
      have hlt := Nat.lt_mul_div_succ (x * y) hu
      rw [Nat.mul_succ, mul_comm u] at hlt
      exact_mod_cast hlt.le
    have hprod := hx.mul_ge hy (zero_le_one.trans hX) (zero_le_one.trans hY)
    have hunit : (u : K) ≤ X * Y * u := le_mul_of_one_le_left hu'.le (one_le_mul_of_one_le_of_one_le hX hY)
    refine le_of_mul_le_mul_right ?_ hu'
    push_cast
    calc X * Y * (u - (e + f + 1)) * u = X * Y * (u - (e + f)) * u - X * Y * u := by ring
      _ ≤ ((x * y / u : ℕ) : K) * u := by linarith

/-- If `X` is below `Y`, but for `k` parts, then so are the numbers that approximate them, but for the error of the
larger one. -/
theorem le_of_le {k : ℕ} (hx : Approx u X x e) (hy : Approx u Y y f) (hu : 0 < u) (hX : 0 ≤ X) {c : K} (hc : 0 ≤ c)
    (h : X * (u - k) ≤ c * Y * u) : x * (u - (k + f)) ≤ c * y * u := by
  have hu' : (0 : K) < u := by exact_mod_cast hu
  have hk : (0 : K) ≤ k := Nat.cast_nonneg k
  have hf : (0 : K) ≤ f := Nat.cast_nonneg f
  rcases le_total (u : K) (k + f) with hlarge | hsmall
  · have hneg : (x : K) * (u - (k + f)) ≤ 0 :=
      mul_nonpos_of_nonneg_of_nonpos (Nat.cast_nonneg x) (sub_nonpos.2 hlarge)
    exact hneg.trans (mul_nonneg (mul_nonneg hc (Nat.cast_nonneg y)) hu'.le)
  · have hcross : 0 ≤ X * (k * f) := by positivity
    calc (x : K) * (u - (k + f)) ≤ X * u * (u - (k + f)) := mul_le_mul_of_nonneg_right hx.le (by linarith)
      _ = X * (u - k) * (u - f) - X * (k * f) := by ring
      _ ≤ X * (u - k) * (u - f) := by linarith
      _ ≤ c * Y * u * (u - f) := mul_le_mul_of_nonneg_right h (by linarith)
      _ = c * (Y * (u - f)) * u := by ring
      _ ≤ c * y * u := mul_le_mul_of_nonneg_right (mul_le_mul_of_nonneg_left hy.ge hc) hu'.le

/-- Numbers that are further apart than the error of the larger one stay apart when they are rounded. -/
theorem lt_of_lt (hx : Approx u X x e) (hy : Approx u Y y f) (h : X * u < Y * (u - f)) : x < y := by
  have hlt : (x : K) < y := hx.le.trans_lt (h.trans_le hy.ge)
  exact_mod_cast hlt

end Approx

end FixedPoint
