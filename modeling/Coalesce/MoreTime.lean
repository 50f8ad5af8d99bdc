import Coalesce.Accrual

/-!
# More time, more interest

The growth of a span grows with every second.  Within a day the rest is linear.  When a day is full it is compounded
instead, by a power whose products round differently; but over five years the power loses fewer parts than one second
of interest adds (`growth_lt`), so that the step is upwards there too (`accrual_strictMono`).
-/

namespace Coalesce

open FixedPoint

/-! ### A second of interest -/

section Second

variable {bps s t d : ℕ}

/-- One second adds at least 3170979 parts, the interest at the smallest rate. -/
theorem restGrowth_add_le (hpos : 1 ≤ bps) (h : s < t) : restGrowth bps s + 3170979 ≤ restGrowth bps t := by
  have hyear : 0 < SECONDS_PER_YEAR * BPS := by decide
  have hsecond : 3170979 * (SECONDS_PER_YEAR * BPS) ≤ WAD := by decide
  have hseconds : bps * s + 1 ≤ bps * t := (Nat.add_le_add_left hpos _).trans (Nat.mul_le_mul_left bps h)
  have hinterest : bps * s * WAD + 3170979 * (SECONDS_PER_YEAR * BPS) ≤ bps * t * WAD := by
    calc bps * s * WAD + 3170979 * (SECONDS_PER_YEAR * BPS) ≤ bps * s * WAD + WAD := Nat.add_le_add_left hsecond _
      _ = (bps * s + 1) * WAD := by ring
      _ ≤ bps * t * WAD := Nat.mul_le_mul_right _ hseconds
  unfold restGrowth
  rw [add_assoc, ← Nat.add_mul_div_right _ _ hyear]
  exact Nat.add_le_add_left (Nat.div_le_div_right hinterest) _

/-- A whole day is compounded by the linear growth over its seconds. -/
theorem dailyBase_eq_restGrowth (bps : ℕ) : dailyBase bps = restGrowth bps SECONDS_PER_DAY := by
  have hyear : SECONDS_PER_YEAR * BPS = SECONDS_PER_DAY * (DAYS_PER_YEAR * BPS) := by decide
  unfold dailyBase restGrowth
  rw [hyear, mul_right_comm, mul_comm (bps * WAD), Nat.mul_div_mul_left _ _ (by decide)]

theorem dailyBase_le (hrate : bps ≤ MAX_ANNUAL_INTEREST_BPS) : dailyBase bps ≤ 2 * WAD := by
  have hday : bps * WAD / (DAYS_PER_YEAR * BPS) ≤ WAD := by
    exact Nat.div_le_of_le_mul (Nat.mul_le_mul_right _ (hrate.trans (by decide)))
  unfold dailyBase
  omega

/-- A full day is worth more than the seconds before it, even if it loses a part for every day of five years. -/
theorem restGrowth_lt_dailyBase (hpos : 1 ≤ bps) (hrate : bps ≤ MAX_ANNUAL_INTEREST_BPS) (hs : s < SECONDS_PER_DAY)
    (hd : d ≤ 1826) : restGrowth bps s * WAD < dailyBase bps * (WAD - d) := by
  have hgap : restGrowth bps s + 3170979 ≤ dailyBase bps := by
    rw [dailyBase_eq_restGrowth]
    exact restGrowth_add_le hpos hs
  have hloss : dailyBase bps * d ≤ 3652 * WAD := by
    calc dailyBase bps * d ≤ 2 * WAD * 1826 := Nat.mul_le_mul (dailyBase_le hrate) hd
      _ = 3652 * WAD := by ring
  have hgain := Nat.mul_le_mul_right WAD hgap
  have hwad := WAD_pos
  rw [add_mul] at hgain
  rw [Nat.mul_sub]
  omega

end Second

/-! ### Longer spans -/

section Spans

variable {K : Type*} [Field K] [LinearOrder K] [IsStrictOrderedRing K] {bps t₁ t₂ g₁ g₂ a x y : ℕ}

/-- A span that ends on a later day is ahead by more than the error of its power. -/
theorem growth_lt (hpos : 1 ≤ bps) (hrate : bps ≤ MAX_ANNUAL_INTEREST_BPS)
    (hdays : t₁ / SECONDS_PER_DAY < t₂ / SECONDS_PER_DAY) (hterm : t₂ / SECONDS_PER_DAY ≤ 1825) :
    growth K bps t₁ * WAD < growth K bps t₂ * (WAD - (t₂ / SECONDS_PER_DAY + 1 : ℕ)) := by
  have hwad : (0 : K) < WAD := WAD_cast_pos
  have hbase : (1 : K) ≤ dailyBase bps / WAD := one_le_ratio (WAD_le_dailyBase bps)
  have hrest : (1 : K) ≤ restGrowth bps (t₂ % SECONDS_PER_DAY) / WAD := one_le_ratio (WAD_le_restGrowth bps _)
  have hloss : t₂ / SECONDS_PER_DAY + 1 ≤ WAD := (Nat.add_le_add_right hterm 1).trans (by decide)
  have hloss' : (0 : K) ≤ WAD - (t₂ / SECONDS_PER_DAY + 1 : ℕ) := sub_nonneg.2 (by exact_mod_cast hloss)
  have hday : (restGrowth bps (t₁ % SECONDS_PER_DAY) : K) <
      dailyBase bps / WAD * (WAD - (t₂ / SECONDS_PER_DAY + 1 : ℕ)) := by
    have hlt := restGrowth_lt_dailyBase hpos hrate (Nat.mod_lt t₁ (by decide)) (Nat.add_le_add_right hterm 1)
    rw [div_mul_eq_mul_div, lt_div_iff₀ hwad, ← Nat.cast_sub hloss]
    exact_mod_cast hlt
  have hlonger : (dailyBase bps / WAD : K) ^ (t₁ / SECONDS_PER_DAY + 1) ≤ growth K bps t₂ :=
    (pow_le_pow_right₀ hbase hdays).trans (le_mul_of_one_le_right (pow_nonneg (zero_le_one.trans hbase) _) hrest)
  calc growth K bps t₁ * WAD
      = (dailyBase bps / WAD) ^ (t₁ / SECONDS_PER_DAY) * restGrowth bps (t₁ % SECONDS_PER_DAY) := by
        rw [growth, mul_assoc, div_mul_cancel₀ _ hwad.ne']
    _ < (dailyBase bps / WAD) ^ (t₁ / SECONDS_PER_DAY) *
          (dailyBase bps / WAD * (WAD - (t₂ / SECONDS_PER_DAY + 1 : ℕ))) :=
        mul_lt_mul_of_pos_left hday (pow_pos (zero_lt_one.trans_le hbase) _)
    _ = (dailyBase bps / WAD) ^ (t₁ / SECONDS_PER_DAY + 1) * (WAD - (t₂ / SECONDS_PER_DAY + 1 : ℕ)) := by
        rw [pow_succ, mul_assoc]
    _ ≤ growth K bps t₂ * (WAD - (t₂ / SECONDS_PER_DAY + 1 : ℕ)) := mul_le_mul_of_nonneg_right hlonger hloss'

/-- Above one the product with a larger number stays larger when it is rounded down. -/
theorem mul_div_wad_lt (ha : WAD ≤ a) (h : x < y) : a * x / WAD < a * y / WAD := by
  have hstep : a * x + WAD ≤ a * y := by
    calc a * x + WAD ≤ a * x + a := Nat.add_le_add_left ha _
      _ = a * (x + 1) := by ring
      _ ≤ a * y := Nat.mul_le_mul_left a h
  calc a * x / WAD < a * x / WAD + 1 := Nat.lt_succ_self _
    _ = (a * x + WAD) / WAD := (Nat.add_div_right _ WAD_pos).symm
    _ ≤ a * y / WAD := Nat.div_le_div_right hstep

theorem totalGrowthWad_lt (hpos : 1 ≤ bps) (hrate : bps ≤ MAX_ANNUAL_INTEREST_BPS) (hlt : t₁ < t₂)
    (hterm : t₂ ≤ 5 * DAYS_PER_YEAR * SECONDS_PER_DAY) (h₁ : totalGrowthWad bps t₁ = .ok g₁)
    (h₂ : totalGrowthWad bps t₂ = .ok g₂) : g₁ < g₂ := by
  rcases (Nat.div_le_div_right (c := SECONDS_PER_DAY) hlt.le).eq_or_lt with hsame | hdays
  · -- the same day: the same power, and a larger rest
    obtain ⟨-, p, hp, hg₁⟩ := (totalGrowthWad_eq_ok hrate).1 h₁
    obtain ⟨-, p', hp', hg₂⟩ := (totalGrowthWad_eq_ok hrate).1 h₂
    obtain rfl : p = p' := by
      rw [hsame, hp'] at hp
      exact (Except.ok.inj hp).symm
    obtain ⟨-, rfl⟩ := mulWad_eq_ok.1 hg₁
    obtain ⟨-, rfl⟩ := mulWad_eq_ok.1 hg₂
    have hseconds : t₁ % SECONDS_PER_DAY < t₂ % SECONDS_PER_DAY := by
      have hdiv₁ := Nat.div_add_mod t₁ SECONDS_PER_DAY
      have hdiv₂ := Nat.div_add_mod t₂ SECONDS_PER_DAY
      rw [hsame] at hdiv₁
      omega
    have hrest := restGrowth_add_le hpos hseconds
    exact mul_div_wad_lt (powWad_ge hp (WAD_le_dailyBase bps)) (by omega)
  · have hterm' : t₂ / SECONDS_PER_DAY ≤ 1825 := (Nat.div_le_div_right hterm).trans (by decide)
    exact (totalGrowthWad_approx (K := ℚ) hrate h₁).lt_of_lt (totalGrowthWad_approx hrate h₂)
      (growth_lt hpos hrate hdays hterm')

end Spans

/-- From the same market, an accrual over a longer time leaves a larger scale factor. -/
theorem accrual_strictMono {m m₁ m₂ : Market} {c₁ c₂ : ProtocolConfig} {e₁ e₂ : ℕ} (hpos : 1 ≤ m.annualInterestBps)
    (hrate : m.annualInterestBps ≤ MAX_ANNUAL_INTEREST_BPS) (hsf : WAD ≤ m.scaleFactor) (hlt : e₁ < e₂)
    (hterm : e₂ ≤ 5 * DAYS_PER_YEAR * SECONDS_PER_DAY) (hmaturity : m.lastAccrualTimestamp + e₂ ≤ m.maturityTimestamp)
    (h₁ : accrueInterest m c₁ (m.lastAccrualTimestamp + e₁) = .ok m₁)
    (h₂ : accrueInterest m c₂ (m.lastAccrualTimestamp + e₂) = .ok m₂) : m₁.scaleFactor < m₂.scaleFactor := by
  obtain ⟨g₁, hg₁, hsf₁⟩ := accrueInterest_scaleFactor hrate h₁
  obtain ⟨g₂, hg₂, hsf₂⟩ := accrueInterest_scaleFactor hrate h₂
  have helapsed₁ : m.elapsed (m.lastAccrualTimestamp + e₁) = e₁ := by
    unfold Market.elapsed
    omega
  have helapsed₂ : m.elapsed (m.lastAccrualTimestamp + e₂) = e₂ := by
    unfold Market.elapsed
    omega
  rw [helapsed₁] at hg₁
  rw [helapsed₂] at hg₂
  rw [hsf₁, hsf₂]
  exact mul_div_wad_lt hsf (totalGrowthWad_lt hpos hrate hlt hterm hg₁ hg₂)

/-- The last second of the first day. -/
theorem accrual_strictMono_day :
    ∃ m₁ m₂, accrueInterest Sample.doubling Sample.protocol 86399 = .ok m₁ ∧
      accrueInterest Sample.doubling Sample.protocol 86400 = .ok m₂ ∧ m₁.scaleFactor < m₂.scaleFactor := by
  obtain ⟨m₁, h₁, -⟩ := exists_ok_of_toOption
    (show (accrueInterest Sample.doubling Sample.protocol 86399).toOption.map Market.lastAccrualTimestamp =
      some 86399 by decide +kernel)
  obtain ⟨m₂, h₂, -⟩ := exists_ok_of_toOption
    (show (accrueInterest Sample.doubling Sample.protocol 86400).toOption.map Market.lastAccrualTimestamp =
      some 86400 by decide +kernel)
  have hlt : 86399 < 86400 := by decide
  exact ⟨m₁, m₂, h₁, h₂, accrual_strictMono (by decide) le_rfl le_rfl hlt (by decide) (by decide) h₁ h₂⟩

end Coalesce
