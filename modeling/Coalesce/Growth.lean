import Coalesce.Accrual
import Mathlib.Analysis.Complex.ExponentialBounds

/-!
# The bound on interest

Under every schedule of accruals a market grows by less than continuous compounding, which is `exp 5` over the longest
term.  So the scale factor stays below `149 * WAD` (`growth_bounded`), and the 128-bit products of an accrual fit.
-/

namespace Coalesce

open FixedPoint Compound

/-! ### When the power and the products fit -/

section Fits

variable {K : Type*} [Field K] [LinearOrder K] [IsStrictOrderedRing K] {x y r result b e bits base exp bps t : ℕ}

private theorem ratio_nonneg : (0 : K) ≤ x / WAD := div_nonneg (Nat.cast_nonneg _) (Nat.cast_nonneg _)

/-- A product whose exact value fits. -/
theorem mulWad_fits (h : (x / WAD * (y / WAD) * WAD ^ 2 : K) ≤ u128Max) : mulWad x y = .ok (x * y / WAD) := by
  have hwad : (WAD : K) ≠ 0 := WAD_cast_pos.ne'
  have hexact : (x / WAD * (y / WAD) * WAD ^ 2 : K) = x * y := by field_simp
  rw [hexact] at h
  exact mulWad_eq_ok.2 ⟨by exact_mod_cast h, rfl⟩

theorem mulWad_ratio_le (h : mulWad x y = .ok r) : (r / WAD : K) ≤ x / WAD * (y / WAD) := by
  obtain ⟨-, rfl⟩ := mulWad_eq_ok.1 h
  have hfloor : ((x * y / WAD : ℕ) : K) * WAD ≤ x * y := by exact_mod_cast Nat.div_mul_le_self (x * y) WAD
  rw [div_mul_div_comm, div_le_div_iff₀ WAD_cast_pos (mul_pos WAD_cast_pos WAD_cast_pos), ← mul_assoc]
  exact mul_le_mul_of_nonneg_right hfloor WAD_cast_pos.le

/-- The running result after the lowest bit of the exponent. -/
private theorem powWad_bit_fits (hresult : WAD ≤ result) (hb : WAD ≤ b)
    (h : ((result / WAD : K) * (b / WAD) ^ e) * WAD ^ 2 ≤ u128Max) :
    ∃ result', (if e % 2 = 1 then mulWad result b else .ok result) = .ok result' ∧ WAD ≤ result' ∧
      (result' / WAD : K) * (b / WAD) ^ (2 * (e / 2)) ≤ (result / WAD : K) * (b / WAD) ^ e := by
  have hsplit : e = 2 * (e / 2) + e % 2 := (Nat.div_add_mod e 2).symm
  have hone : (1 : K) ≤ b / WAD := one_le_ratio hb
  by_cases hodd : e % 2 = 1
  · rw [if_pos hodd]
    have hle : (b / WAD : K) ≤ (b / WAD) ^ e := le_self_pow₀ hone (by omega)
    have hok : mulWad result b = .ok (result * b / WAD) :=
      mulWad_fits (K := K) (le_trans (by gcongr) h)
    refine ⟨_, hok, hresult.trans (le_mulWad hok hb), ?_⟩
    calc ((result * b / WAD : ℕ) / WAD : K) * (b / WAD) ^ (2 * (e / 2))
        ≤ (result / WAD * (b / WAD)) * (b / WAD) ^ (2 * (e / 2)) :=
          mul_le_mul_of_nonneg_right (mulWad_ratio_le hok) (pow_nonneg ratio_nonneg _)
      _ = result / WAD * (b / WAD) ^ e := by
          rw [mul_assoc, ← pow_succ', ← hodd, ← hsplit]
  · rw [if_neg hodd]
    refine ⟨result, rfl, hresult, ?_⟩
    have heven : 2 * (e / 2) = e := by omega
    rw [heven]

/-- The loop succeeds if the exact power fits: the running result and the base never exceed it. -/
private theorem powWadLoop_fits (hresult : WAD ≤ result) (hb : WAD ≤ b)
    (h : ((result / WAD : K) * (b / WAD) ^ e) * WAD ^ 2 ≤ u128Max) : ∃ r, powWadLoop bits result b e = .ok r := by
  induction bits generalizing result b e with
  | zero => exact ⟨result, rfl⟩
  | succ bits ih =>
    rw [powWadLoop]
    by_cases he : e = 0
    · exact ⟨result, if_pos he⟩
    rw [if_neg he]
    obtain ⟨result', hresult', hle', hbit⟩ := powWad_bit_fits hresult hb h
    have hone : (1 : K) ≤ b / WAD := one_le_ratio hb
    have hfits : (result' / WAD : K) * (b / WAD) ^ (2 * (e / 2)) * WAD ^ 2 ≤ u128Max :=
      (mul_le_mul_of_nonneg_right hbit (sq_nonneg _)).trans h
    obtain ⟨b', hb', hleb', hsquare⟩ : ∃ b', (if 0 < e / 2 then mulWad b b else .ok b) = .ok b' ∧ WAD ≤ b' ∧
        (b' / WAD : K) ^ (e / 2) ≤ (b / WAD) ^ (2 * (e / 2)) := by
      by_cases hlast : 0 < e / 2
      · rw [if_pos hlast]
        have hle : (b / WAD * (b / WAD) : K) ≤ result' / WAD * (b / WAD) ^ (2 * (e / 2)) := by
          rw [← sq]
          exact (pow_le_pow_right₀ hone (by omega)).trans
            (le_mul_of_one_le_left (pow_nonneg ratio_nonneg _) (one_le_ratio hle'))
        have hok : mulWad b b = .ok (b * b / WAD) :=
          mulWad_fits ((mul_le_mul_of_nonneg_right hle (sq_nonneg _)).trans hfits)
        refine ⟨_, hok, hb.trans (le_mulWad hok hb), ?_⟩
        rw [pow_mul, sq]
        exact pow_le_pow_left₀ ratio_nonneg (mulWad_ratio_le hok) _
      · obtain hzero : e / 2 = 0 := by omega
        exact ⟨b, if_neg hlast, hb, by rw [hzero, pow_zero]⟩
    obtain ⟨r, hr⟩ := ih hle' hleb' (le_trans (mul_le_mul_of_nonneg_right
      (mul_le_mul_of_nonneg_left hsquare ratio_nonneg) (sq_nonneg _)) hfits)
    exact ⟨r, bind_eq_ok.2 ⟨result', hresult', bind_eq_ok.2 ⟨b', hb', hr⟩⟩⟩

theorem totalGrowthWad_fits (hrate : bps ≤ MAX_ANNUAL_INTEREST_BPS) (hdays : t / SECONDS_PER_DAY ≤ u32Max)
    (h : growth K bps t * WAD ^ 2 ≤ u128Max) : ∃ g, totalGrowthWad bps t = .ok g ∧ (g / WAD : K) ≤ growth K bps t := by
  have hbase : (1 : K) ≤ (dailyBase bps / WAD) ^ (t / SECONDS_PER_DAY) :=
    one_le_pow₀ (one_le_ratio (WAD_le_dailyBase bps))
  have hrest : (1 : K) ≤ restGrowth bps (t % SECONDS_PER_DAY) / WAD := one_le_ratio (WAD_le_restGrowth bps _)
  obtain ⟨p, hp⟩ : ∃ p, powWad (dailyBase bps) (t / SECONDS_PER_DAY) = .ok p := by
    apply powWadLoop_fits (K := K) le_rfl (WAD_le_dailyBase bps)
    rw [div_self WAD_cast_pos.ne', one_mul]
    refine le_trans (mul_le_mul_of_nonneg_right ?_ (sq_nonneg _)) h
    exact le_mul_of_one_le_right (zero_le_one.trans hbase) hrest
  have hpower : (p / WAD : K) ≤ (dailyBase bps / WAD) ^ (t / SECONDS_PER_DAY) :=
    (div_le_iff₀ WAD_cast_pos).2 (powWad_approx (WAD_le_dailyBase bps) hdays hp).le
  have hproduct : (p / WAD * (restGrowth bps (t % SECONDS_PER_DAY) / WAD) : K) ≤ growth K bps t :=
    mul_le_mul_of_nonneg_right hpower ratio_nonneg
  have hok := mulWad_fits ((mul_le_mul_of_nonneg_right hproduct (sq_nonneg _)).trans h)
  exact ⟨_, (totalGrowthWad_eq_ok hrate).2 ⟨hdays, p, hp, hok⟩, (mulWad_ratio_le hok).trans hproduct⟩

end Fits

/-! ### Against continuous compounding -/

theorem growth_le_exp {bps : ℕ} (hrate : bps ≤ MAX_ANNUAL_INTEREST_BPS) (t : ℕ) :
    growth ℝ bps t ≤ Real.exp (t / SECONDS_PER_YEAR) := by
  have hwad : (0 : ℝ) < WAD := WAD_cast_pos
  have hbase : (dailyBase bps / WAD : ℝ) ≤ 1 + dailyRate ℝ bps := (div_le_iff₀ hwad).2 (dailyBase_approx bps).le
  have hrest : (restGrowth bps (t % SECONDS_PER_DAY) / WAD : ℝ) ≤
      part (dailyRate ℝ bps) (dayPart ℝ (t % SECONDS_PER_DAY)) := (div_le_iff₀ hwad).2 (restGrowth_approx bps _).le
  have hdays : ((t / SECONDS_PER_DAY : ℕ) : ℝ) + dayPart ℝ (t % SECONDS_PER_DAY) = t / SECONDS_PER_DAY := by
    have hsplit : (t : ℝ) = SECONDS_PER_DAY * (t / SECONDS_PER_DAY : ℕ) + (t % SECONDS_PER_DAY : ℕ) := by
      exact_mod_cast (Nat.div_add_mod t SECONDS_PER_DAY).symm
    unfold dayPart
    conv_rhs => rw [hsplit]
    field_simp [SECONDS_PER_DAY]
  have hdaily : dailyRate ℝ bps ≤ 1 / DAYS_PER_YEAR := by
    have hyear : 0 < DAYS_PER_YEAR * BPS := by decide
    have hyear' : 0 < DAYS_PER_YEAR := by decide
    have hbps : bps * DAYS_PER_YEAR ≤ 1 * (DAYS_PER_YEAR * BPS) := by
      rw [Nat.one_mul, Nat.mul_comm]
      exact Nat.mul_le_mul_left _ hrate
    rw [dailyRate, div_le_div_iff₀ (by exact_mod_cast hyear) (by exact_mod_cast hyear')]
    exact_mod_cast hbps
  calc growth ℝ bps t
      ≤ (1 + dailyRate ℝ bps) ^ (t / SECONDS_PER_DAY) * part (dailyRate ℝ bps) (dayPart ℝ (t % SECONDS_PER_DAY)) :=
        mul_le_mul (pow_le_pow_left₀ (by positivity) hbase _) hrest (by positivity)
          (pow_nonneg (add_nonneg zero_le_one dailyRate_nonneg) _)
    _ ≤ Real.exp (dailyRate ℝ bps * ((t / SECONDS_PER_DAY : ℕ) + dayPart ℝ (t % SECONDS_PER_DAY))) :=
        pow_mul_part_le_exp dailyRate_nonneg (dayPart_nonneg _) _
    _ ≤ Real.exp (t / SECONDS_PER_YEAR) := by
        rw [hdays, Real.exp_le_exp]
        have hyear : (SECONDS_PER_YEAR : ℝ) = DAYS_PER_YEAR * SECONDS_PER_DAY := by
          exact_mod_cast (by decide : SECONDS_PER_YEAR = DAYS_PER_YEAR * SECONDS_PER_DAY)
        calc dailyRate ℝ bps * (t / SECONDS_PER_DAY) ≤ 1 / DAYS_PER_YEAR * (t / SECONDS_PER_DAY) :=
              mul_le_mul_of_nonneg_right hdaily (by positivity)
          _ = t / SECONDS_PER_YEAR := by rw [hyear, div_mul_div_comm, one_mul]

/-! ### The headroom of a market -/

/-- The years until maturity that are not accrued yet. -/
noncomputable def Market.yearsLeft (m : Market) : ℝ :=
  (m.maturityTimestamp - m.lastAccrualTimestamp : ℤ) / SECONDS_PER_YEAR

/-- Even continuous compounding up to maturity keeps the scale factor below `exp 5`. -/
structure Market.Headroom (m : Market) : Prop where
  rate : m.annualInterestBps ≤ MAX_ANNUAL_INTEREST_BPS
  wad_le : WAD ≤ m.scaleFactor
  last_le : m.lastAccrualTimestamp ≤ m.maturityTimestamp
  compound : m.scaleFactor * Real.exp m.yearsLeft ≤ WAD * Real.exp 5

theorem exp_five_lt : Real.exp 5 < 149 := by
  have hexp : Real.exp 5 = Real.exp 1 ^ 5 := by
    rw [← Real.exp_nat_mul]
    norm_num
  have hpow : Real.exp 1 ^ 5 < 2.7182818286 ^ 5 :=
    pow_lt_pow_left₀ Real.exp_one_lt_d9 (Real.exp_pos 1).le (by decide)
  rw [hexp]
  exact hpow.trans (by norm_num)

namespace Market

variable {m m' : Market} {c : ProtocolConfig} {now : ℤ}

private theorem year_pos : (0 : ℝ) < SECONDS_PER_YEAR := by exact_mod_cast (by decide : 0 < SECONDS_PER_YEAR)

theorem yearsLeft_nonneg (h : m.lastAccrualTimestamp ≤ m.maturityTimestamp) : 0 ≤ m.yearsLeft :=
  div_nonneg (by exact_mod_cast sub_nonneg.2 h) (Nat.cast_nonneg _)

/-- A market with a term of at most five years starts with headroom. -/
theorem Headroom.start (hrate : m.annualInterestBps ≤ MAX_ANNUAL_INTEREST_BPS) (hsf : m.scaleFactor = WAD)
    (hlast : m.lastAccrualTimestamp ≤ m.maturityTimestamp)
    (hmaturity : m.maturityTimestamp ≤ m.lastAccrualTimestamp + MAX_MATURITY_DELTA) : m.Headroom := by
  refine ⟨hrate, hsf.ge, hlast, ?_⟩
  have hyears : m.yearsLeft ≤ 5 := by
    have hle : m.maturityTimestamp - m.lastAccrualTimestamp ≤ 5 * (SECONDS_PER_YEAR : ℤ) := by
      rw [show 5 * (SECONDS_PER_YEAR : ℤ) = MAX_MATURITY_DELTA by decide]
      omega
    rw [Market.yearsLeft, div_le_iff₀ year_pos]
    exact_mod_cast hle
  rw [hsf]
  exact mul_le_mul_of_nonneg_left (Real.exp_le_exp.2 hyears) (Nat.cast_nonneg _)

namespace Headroom

theorem scaleFactor_le (h : m.Headroom) : m.scaleFactor ≤ 149 * WAD := by
  have hone : 1 ≤ Real.exp m.yearsLeft := Real.one_le_exp (yearsLeft_nonneg h.last_le)
  have hle : (m.scaleFactor : ℝ) ≤ 149 * WAD := by
    calc (m.scaleFactor : ℝ) ≤ m.scaleFactor * Real.exp m.yearsLeft := le_mul_of_one_le_right (Nat.cast_nonneg _) hone
      _ ≤ WAD * Real.exp 5 := h.compound
      _ ≤ WAD * 149 := mul_le_mul_of_nonneg_left exp_five_lt.le (Nat.cast_nonneg _)
      _ = 149 * WAD := mul_comm _ _
  exact_mod_cast hle

theorem yearsLeft_le (h : m.Headroom) : m.yearsLeft ≤ 5 := by
  have hwad : (0 : ℝ) < WAD := WAD_cast_pos
  have hle : (WAD : ℝ) ≤ m.scaleFactor := by exact_mod_cast h.wad_le
  rw [← Real.exp_le_exp]
  exact le_of_mul_le_mul_left ((mul_le_mul_of_nonneg_right hle (Real.exp_pos _).le).trans h.compound) hwad

theorem term_le (h : m.Headroom) : m.maturityTimestamp - m.lastAccrualTimestamp ≤ MAX_MATURITY_DELTA := by
  have hle := h.yearsLeft_le
  rw [Market.yearsLeft, div_le_iff₀ year_pos] at hle
  have hint : m.maturityTimestamp - m.lastAccrualTimestamp ≤ 5 * (SECONDS_PER_YEAR : ℤ) := by exact_mod_cast hle
  exact hint

theorem elapsed_le (h : m.Headroom) (now : ℤ) :
    (m.elapsed now : ℤ) ≤ m.maturityTimestamp - m.lastAccrualTimestamp := by
  have := h.last_le
  unfold Market.elapsed
  omega

theorem days_le (h : m.Headroom) (now : ℤ) : m.elapsed now / SECONDS_PER_DAY ≤ u32Max := by
  have hle := (h.elapsed_le now).trans h.term_le
  have hterm : MAX_MATURITY_DELTA ≤ (u32Max : ℤ) := by decide
  exact (Nat.div_le_self _ _).trans (by exact_mod_cast hle.trans hterm)

/-- What an accrual multiplies the scale factor by is within the headroom. -/
theorem span_le (h : m.Headroom) (now : ℤ) :
    (m.scaleFactor : ℝ) * growth ℝ m.annualInterestBps (m.elapsed now) ≤
      m.scaleFactor * Real.exp (m.elapsed now / SECONDS_PER_YEAR) ∧
      (m.scaleFactor : ℝ) * Real.exp (m.elapsed now / SECONDS_PER_YEAR) ≤ 149 * WAD := by
  refine ⟨mul_le_mul_of_nonneg_left (growth_le_exp h.rate _) (Nat.cast_nonneg _), ?_⟩
  have hyears : (m.elapsed now / SECONDS_PER_YEAR : ℝ) ≤ m.yearsLeft :=
    div_le_div_of_nonneg_right (by exact_mod_cast h.elapsed_le now) (Nat.cast_nonneg _)
  calc (m.scaleFactor : ℝ) * Real.exp (m.elapsed now / SECONDS_PER_YEAR)
      ≤ m.scaleFactor * Real.exp m.yearsLeft :=
        mul_le_mul_of_nonneg_left (Real.exp_le_exp.2 hyears) (Nat.cast_nonneg _)
    _ ≤ WAD * Real.exp 5 := h.compound
    _ ≤ WAD * 149 := mul_le_mul_of_nonneg_left exp_five_lt.le (Nat.cast_nonneg _)
    _ = 149 * WAD := mul_comm _ _

/-- The growth of a span and the new scale factor never overflow. -/
theorem grows (h : m.Headroom) (now : ℤ) : ∃ g sf, totalGrowthWad m.annualInterestBps (m.elapsed now) = .ok g ∧
    mulWad m.scaleFactor g = .ok sf := by
  have hwad : (0 : ℝ) < WAD := WAD_cast_pos
  have hsf : (1 : ℝ) ≤ m.scaleFactor / WAD := one_le_ratio h.wad_le
  have hfits : (m.scaleFactor / WAD : ℝ) * growth ℝ m.annualInterestBps (m.elapsed now) * WAD ^ 2 ≤ u128Max := by
    obtain ⟨hexp, hlarge⟩ := h.span_le now
    calc (m.scaleFactor / WAD : ℝ) * growth ℝ m.annualInterestBps (m.elapsed now) * WAD ^ 2
        = m.scaleFactor * growth ℝ m.annualInterestBps (m.elapsed now) * WAD := by field_simp
      _ ≤ 149 * WAD * WAD := mul_le_mul_of_nonneg_right (hexp.trans hlarge) hwad.le
      _ ≤ u128Max := by exact_mod_cast (by decide : 149 * WAD * WAD ≤ u128Max)
  have hgrowth : growth ℝ m.annualInterestBps (m.elapsed now) ≤
      m.scaleFactor / WAD * growth ℝ m.annualInterestBps (m.elapsed now) :=
    le_mul_of_one_le_left (zero_le_one.trans one_le_growth) hsf
  obtain ⟨g, hg, hle⟩ := totalGrowthWad_fits h.rate (h.days_le now)
    ((mul_le_mul_of_nonneg_right hgrowth (sq_nonneg _)).trans hfits)
  refine ⟨g, _, hg, mulWad_fits (K := ℝ) ?_⟩
  have hle' := mul_le_mul_of_nonneg_left hle (zero_le_one.trans hsf)
  exact (mul_le_mul_of_nonneg_right hle' (sq_nonneg _)).trans hfits

/-- Of an accrual only the fee can fail. -/
theorem accrueInterest_eq (h : m.Headroom) (c : ProtocolConfig) (hnow : m.lastAccrualTimestamp ≤ now) :
    ∃ g sf, totalGrowthWad m.annualInterestBps (m.elapsed now) = .ok g ∧ mulWad m.scaleFactor g = .ok sf ∧
      accrueInterest m c now =
        if m.elapsed now = 0 then .ok m
        else accruedFees m c (g - WAD) >>= fun fees => .ok { m with
          accruedProtocolFees := fees
          scaleFactor := sf
          lastAccrualTimestamp := min now m.maturityTimestamp } := by
  obtain ⟨g, sf, hg, hsf⟩ := h.grows now
  refine ⟨g, sf, hg, hsf, ?_⟩
  have hlast : m.lastAccrualTimestamp ≤ min now m.maturityTimestamp := le_min hnow h.last_le
  have hterm := h.term_le
  have hspan : checkedSubI64 (min now m.maturityTimestamp) m.lastAccrualTimestamp =
      .ok (min now m.maturityTimestamp - m.lastAccrualTimestamp) := by
    have hmax : MAX_MATURITY_DELTA ≤ i64Max := by decide
    exact checkedSubI64_eq_ok.2 ⟨by omega, rfl⟩
  simp only [accrueInterest, effectiveNow_eq_min, if_neg hlast.not_gt, hspan]
  show (if _ then _ else _) = _
  by_cases hzero : m.elapsed now = 0
  · rw [if_pos hzero, if_pos (Int.toNat_eq_zero.1 hzero)]
  · rw [if_neg hzero, if_neg (mt Int.toNat_eq_zero.2 hzero)]
    have hdelta : checkedSub g WAD = .ok (g - WAD) := checkedSub_eq_ok.2 ⟨totalGrowthWad_ge hg, rfl⟩
    unfold Market.elapsed at hg
    simp only [accrueElapsed, hg]
    show (mulWad _ _ >>= _) = _
    rw [hsf]
    show (checkedSub _ _ >>= _) = _
    rw [hdelta]
    rfl

/-- An accrual moves time from what is left into the scale factor. -/
theorem accrue (h : m.Headroom) (haccrue : accrueInterest m c now = .ok m') : m'.Headroom := by
  obtain ⟨sf, fees, rfl, hle, -, hlast⟩ := accrueInterest_ok haccrue
  have hwad : (0 : ℝ) < WAD := WAD_cast_pos
  have hgrown : (sf : ℝ) ≤ m.scaleFactor * Real.exp (m.elapsed now / SECONDS_PER_YEAR) := by
    rcases accrueInterest_grows haccrue with ⟨-, hsame⟩ | ⟨g, hg, hsf, -⟩
    · obtain rfl : sf = m.scaleFactor := congrArg Market.scaleFactor hsame
      exact le_mul_of_one_le_right (Nat.cast_nonneg _) (Real.one_le_exp (by positivity))
    · have hg' : (g / WAD : ℝ) ≤ growth ℝ m.annualInterestBps (m.elapsed now) :=
        (div_le_iff₀ hwad).2 (totalGrowthWad_approx h.rate hg).le
      have hratio := (mulWad_ratio_le (K := ℝ) hsf).trans
        (mul_le_mul_of_nonneg_left hg' (div_nonneg (Nat.cast_nonneg m.scaleFactor) hwad.le))
      rw [div_mul_eq_mul_div, div_le_div_iff_of_pos_right hwad] at hratio
      exact hratio.trans (h.span_le now).1
  refine ⟨h.rate, h.wad_le.trans hle, min_le_right _ _, ?_⟩
  have helapsed : (m.elapsed now : ℤ) = min now m.maturityTimestamp - m.lastAccrualTimestamp :=
    Int.toNat_of_nonneg (sub_nonneg.2 hlast)
  have hyears : (m.elapsed now / SECONDS_PER_YEAR : ℝ) +
      (m.maturityTimestamp - min now m.maturityTimestamp : ℤ) / SECONDS_PER_YEAR = m.yearsLeft := by
    have hcast : (m.elapsed now : ℝ) = (min now m.maturityTimestamp - m.lastAccrualTimestamp : ℤ) := by
      exact_mod_cast helapsed
    rw [hcast, Market.yearsLeft, ← add_div]
    push_cast
    ring
  calc (sf : ℝ) * Real.exp ((m.maturityTimestamp - min now m.maturityTimestamp : ℤ) / SECONDS_PER_YEAR)
      ≤ m.scaleFactor * Real.exp (m.elapsed now / SECONDS_PER_YEAR) * _ :=
        mul_le_mul_of_nonneg_right hgrown (Real.exp_pos _).le
    _ = m.scaleFactor * Real.exp m.yearsLeft := by rw [mul_assoc, ← Real.exp_add, hyears]
    _ ≤ WAD * Real.exp 5 := h.compound

/-- Without fees every schedule of accruals succeeds. -/
theorem accrueAll (h : m.Headroom) (hfee : c.feeRateBps = 0) {times : List ℤ}
    (htimes : (m.lastAccrualTimestamp :: times).Pairwise (· ≤ ·)) :
    ∃ m', times.foldlM (fun m now => accrueInterest m c now) m = .ok m' ∧ m'.Headroom := by
  induction times generalizing m with
  | nil => exact ⟨m, rfl, h⟩
  | cons now times ih =>
    rw [List.pairwise_cons, List.pairwise_cons] at htimes
    obtain ⟨hlast, hnow, hsorted⟩ := htimes
    obtain ⟨m₁, hm₁⟩ : ∃ m₁, accrueInterest m c now = .ok m₁ := by
      obtain ⟨g, sf, -, -, heq⟩ := h.accrueInterest_eq c (hlast now List.mem_cons_self)
      rw [heq]
      split
      · exact ⟨m, rfl⟩
      · rw [accruedFees, if_neg (by omega)]
        exact ⟨_, rfl⟩
    obtain ⟨_, _, hshape, -⟩ := accrueInterest_ok hm₁
    have hlast₁ : m₁.lastAccrualTimestamp ≤ now := by
      rw [hshape]
      exact min_le_left _ _
    obtain ⟨m', hm', hheadroom⟩ := ih (h.accrue hm₁)
      (List.pairwise_cons.2 ⟨fun t ht => hlast₁.trans (hnow t ht), hsorted⟩)
    exact ⟨m', by rw [List.foldlM_cons, hm₁]; exact hm', hheadroom⟩

end Headroom

end Market

/-- A market as it is created, accrued without fees on any schedule: every accrual succeeds, and the scale factor
stays between `WAD` and `149 * WAD`. -/
theorem growth_bounded {m : Market} {c : ProtocolConfig} (hsf : m.scaleFactor = WAD)
    (hrate : m.annualInterestBps ≤ MAX_ANNUAL_INTEREST_BPS) (hlast : m.lastAccrualTimestamp ≤ m.maturityTimestamp)
    (hmaturity : m.maturityTimestamp ≤ m.lastAccrualTimestamp + MAX_MATURITY_DELTA) (hfee : c.feeRateBps = 0)
    {times : List ℤ} (htimes : (m.lastAccrualTimestamp :: times).Pairwise (· ≤ ·)) :
    ∀ done, done <+: times → ∃ m', done.foldlM (fun m now => accrueInterest m c now) m = .ok m' ∧
      WAD ≤ m'.scaleFactor ∧ m'.scaleFactor ≤ 149 * WAD := by
  intro done hdone
  have hsorted := htimes.sublist (hdone.sublist.cons_cons m.lastAccrualTimestamp)
  obtain ⟨m', hm', hheadroom⟩ := (Market.Headroom.start hrate hsf hlast hmaturity).accrueAll hfee hsorted
  exact ⟨m', hm', hheadroom.wad_le, hheadroom.scaleFactor_le⟩

namespace Sample

/-- A new market at the largest rate, for five years. -/
def longest : Market :=
  (freshMarket borrower (.vault market) market MAX_ANNUAL_INTEREST_BPS 157680000 WAD 0 0).market

end Sample

/-- Within the first day, at once again, after three and a half years, and far past maturity. -/
theorem growth_bounded_longest :
    ∃ m, [50000, 50000, 110376000, 315360000].foldlM (fun m now => accrueInterest m Sample.protocol now)
        Sample.longest = .ok m ∧ WAD ≤ m.scaleFactor ∧ m.scaleFactor ≤ 149 * WAD :=
  growth_bounded rfl le_rfl (by decide) (by decide) rfl (by decide) _ (List.prefix_refl _)

end Coalesce
