import Coalesce.Program
import Coalesce.Lib.Compound
import Coalesce.Lib.FixedPoint
import Mathlib.Data.Nat.ModEq
import Mathlib.Data.Rat.Cast.Order
import Mathlib.Tactic.FieldSimp

/-!
# Interest over time

What an accrual computes against exact numbers.  `powWad` loses at most one part in `WAD` for every factor it
multiplies, so that splitting an accrual changes the scale factor by a few parts only (`accrual_split`).
-/

namespace Coalesce

open FixedPoint Compound

section Ratios

variable {K : Type*} [Field K] [LinearOrder K] [IsStrictOrderedRing K] {x : ℕ}

theorem WAD_cast_pos : (0 : K) < WAD := by exact_mod_cast WAD_pos

theorem one_le_ratio (h : WAD ≤ x) : (1 : K) ≤ x / WAD := (one_le_div WAD_cast_pos).2 (by exact_mod_cast h)

end Ratios

/-! ### The growth of a span -/

/-- The growth over one day. -/
def dailyBase (annualBps : ℕ) : ℕ := WAD + annualBps * WAD / (DAYS_PER_YEAR * BPS)

/-- The linear growth over the seconds after the last whole day. -/
def restGrowth (annualBps seconds : ℕ) : ℕ := WAD + annualBps * seconds * WAD / (SECONDS_PER_YEAR * BPS)

theorem WAD_le_dailyBase (annualBps : ℕ) : WAD ≤ dailyBase annualBps := Nat.le_add_right _ _

theorem WAD_le_restGrowth (annualBps seconds : ℕ) : WAD ≤ restGrowth annualBps seconds := Nat.le_add_right _ _

/-- At an admissible rate only the power and the products with it can overflow. -/
theorem totalGrowthWad_eq_ok {bps t g : ℕ} (hrate : bps ≤ MAX_ANNUAL_INTEREST_BPS) :
    totalGrowthWad bps t = .ok g ↔ t / SECONDS_PER_DAY ≤ u32Max ∧
      ∃ p, powWad (dailyBase bps) (t / SECONDS_PER_DAY) = .ok p ∧
        mulWad p (restGrowth bps (t % SECONDS_PER_DAY)) = .ok g := by
  have hannual : bps * WAD ≤ u128Max := (Nat.mul_le_mul_right _ hrate).trans (by decide)
  have hbase : WAD + bps * WAD / (DAYS_PER_YEAR * BPS) ≤ u128Max :=
    (Nat.add_le_add_left ((Nat.div_le_self _ _).trans (Nat.mul_le_mul_right _ hrate)) _).trans (by decide)
  have hrest : t % SECONDS_PER_DAY ≤ SECONDS_PER_DAY := (Nat.mod_lt _ (by decide)).le
  have hseconds : bps * (t % SECONDS_PER_DAY) ≤ MAX_ANNUAL_INTEREST_BPS * SECONDS_PER_DAY := Nat.mul_le_mul hrate hrest
  have hsecondsWad : bps * (t % SECONDS_PER_DAY) * WAD ≤ u128Max := (Nat.mul_le_mul_right _ hseconds).trans (by decide)
  have hgrowth : WAD + bps * (t % SECONDS_PER_DAY) * WAD / (SECONDS_PER_YEAR * BPS) ≤ u128Max :=
    (Nat.add_le_add_left ((Nat.div_le_self _ _).trans (Nat.mul_le_mul_right _ hseconds)) _).trans (by decide)
  simp only [totalGrowthWad, bind_eq_ok, inRange_eq_ok, checkedMul_eq_ok, checkedDiv_eq_ok, checkedAdd_eq_ok]
  constructor
  · rintro ⟨_, ⟨hdays, rfl⟩, _, ⟨-, rfl⟩, _, ⟨-, rfl⟩, _, ⟨-, rfl⟩, p, hp, _, ⟨-, rfl⟩, _, ⟨-, rfl⟩, _, ⟨-, rfl⟩, _,
      ⟨-, rfl⟩, hg⟩
    exact ⟨hdays, p, hp, hg⟩
  · rintro ⟨hdays, p, hp, hg⟩
    exact ⟨_, ⟨hdays, rfl⟩, _, ⟨hannual, rfl⟩, _, ⟨by decide, rfl⟩, _, ⟨hbase, rfl⟩, p, hp, _,
      ⟨hseconds.trans (by decide), rfl⟩, _, ⟨hsecondsWad, rfl⟩, _, ⟨by decide, rfl⟩, _, ⟨hgrowth, rfl⟩, hg⟩

/-! ### The error of the power -/

section Power

variable {K : Type*} [Field K] [LinearOrder K] [IsStrictOrderedRing K] {R B : K} {bits result b e v r d : ℕ}

/-- The running result after the lowest bit of the exponent, with what the other bits still have to multiply. -/
private theorem powWad_bit_approx {result' : ℕ} (hR : Approx WAD R result r) (hB : Approx WAD B b d) (hR1 : 1 ≤ R)
    (hB1 : 1 ≤ B) (h : (if e % 2 = 1 then mulWad result b else .ok result) = .ok result') :
    ∃ (R' : K) (r' : ℕ), Approx WAD R' result' r' ∧ 1 ≤ R' ∧ R' * (B ^ 2) ^ (e / 2) = R * B ^ e ∧
      r' + e / 2 * (2 * (d + 1)) = r + e * (d + 1) := by
  have hsplit : e = e % 2 + 2 * (e / 2) := (Nat.mod_add_div e 2).symm
  by_cases hodd : e % 2 = 1
  · rw [if_pos hodd] at h
    obtain ⟨-, rfl⟩ := mulWad_eq_ok.1 h
    refine ⟨R * B, r + d + 1, hR.mul hB hR1 hB1 WAD_pos, one_le_mul_of_one_le_of_one_le hR1 hB1, ?_, ?_⟩
    · rw [← pow_mul, mul_assoc, ← pow_succ']
      congr 2
      omega
    · rw [hodd] at hsplit
      conv_rhs => rw [hsplit]
      ring
  · rw [if_neg hodd, Except.ok.injEq] at h
    have heven : e % 2 = 0 := by omega
    refine ⟨R, r, h ▸ hR, hR1, ?_, ?_⟩
    · rw [← pow_mul]
      congr 2
      omega
    · rw [heven] at hsplit
      conv_rhs => rw [hsplit]
      ring

/-- Every set bit adds the error of the squared base and one product, so the error of the base counts `e` times. -/
private theorem powWadLoop_approx (hR : Approx WAD R result r) (hB : Approx WAD B b d) (hR1 : 1 ≤ R) (hB1 : 1 ≤ B)
    (he : e < 2 ^ bits) (h : powWadLoop bits result b e = .ok v) :
    Approx WAD (R * B ^ e) v (r + e * (d + 1)) := by
  induction bits generalizing R B result b e r d with
  | zero =>
    obtain rfl : e = 0 := by simpa using he
    rw [powWadLoop, Except.ok.injEq] at h
    simpa [← h] using hR
  | succ bits ih =>
    rw [powWadLoop] at h
    by_cases he0 : e = 0
    · rw [if_pos he0, Except.ok.injEq] at h
      simpa [he0, ← h] using hR
    rw [if_neg he0] at h
    simp only [bind_eq_ok] at h
    obtain ⟨result', hresult', b', hb', h⟩ := h
    obtain ⟨R', r', hR', hR1', hpow, herr⟩ := powWad_bit_approx hR hB hR1 hB1 hresult'
    have hhalf : e / 2 < 2 ^ bits := by
      rw [Nat.pow_succ] at he
      omega
    by_cases hlast : e / 2 = 0
    · -- the last bit: the base is not squared again
      rw [if_neg (by omega), Except.ok.injEq] at hb'
      subst hb'
      have hfinal := ih hR' hB hR1' hB1 hhalf h
      rw [hlast, pow_zero] at hpow
      rw [hlast, Nat.zero_mul] at herr
      rwa [hlast, pow_zero, Nat.zero_mul, hpow, herr] at hfinal
    · rw [if_pos (by omega)] at hb'
      obtain ⟨-, rfl⟩ := mulWad_eq_ok.1 hb'
      have hsquare : Approx WAD (B ^ 2) (b * b / WAD) (2 * d + 1) := by
        have hmul := hB.mul hB hB1 hB1 WAD_pos
        rwa [← sq, ← two_mul] at hmul
      have hfinal := ih hR' hsquare hR1' (one_le_pow₀ hB1) hhalf h
      rwa [hpow, show 2 * d + 1 + 1 = 2 * (d + 1) by ring, herr] at hfinal

/-- `powWad` loses at most one part for every factor. -/
theorem powWad_approx {base exp : ℕ} (hbase : WAD ≤ base) (hexp : exp ≤ u32Max) (h : powWad base exp = .ok v) :
    Approx WAD ((base / WAD : K) ^ exp) v exp := by
  have hone : (1 : K) ≤ base / WAD := one_le_ratio hbase
  have hbits : exp < 2 ^ 32 := Nat.lt_succ_iff.2 hexp
  have happrox := powWadLoop_approx (.one WAD) (.exact WAD base WAD_pos) le_rfl hone hbits h
  simpa using happrox

end Power

/-- The same in whole numbers: the power is never overstated, and its relative error is at most `exp` parts in
`WAD`. -/
theorem powWad_error_bound {base exp v : ℕ} (hbase : WAD ≤ base) (hexp : exp ≤ u32Max) (h : powWad base exp = .ok v) :
    base ^ exp * (WAD - exp) ≤ v * WAD ^ exp ∧ v * WAD ^ exp ≤ base ^ exp * WAD := by
  obtain ⟨hle, hge⟩ := powWad_approx (K := ℚ) hbase hexp h
  have hpos : (0 : ℚ) < (WAD : ℚ) ^ exp := pow_pos WAD_cast_pos exp
  have hsmall : exp ≤ WAD := hexp.trans (by decide)
  rw [div_pow, div_mul_eq_mul_div] at hle hge
  rw [le_div_iff₀ hpos] at hle
  rw [div_le_iff₀ hpos] at hge
  constructor
  · rw [← Nat.cast_sub hsmall] at hge
    exact_mod_cast hge
  · exact_mod_cast hle

/-- One year of compounding at the largest rate: about 2.7146. -/
theorem powWad_error_bound_year :
    powWad (dailyBase MAX_ANNUAL_INTEREST_BPS) 365 = .ok 2714567482021873489 ∧
      dailyBase MAX_ANNUAL_INTEREST_BPS ^ 365 * (WAD - 365) ≤ 2714567482021873489 * WAD ^ 365 ∧
      2714567482021873489 * WAD ^ 365 ≤ dailyBase MAX_ANNUAL_INTEREST_BPS ^ 365 * WAD := by
  have h : powWad (dailyBase MAX_ANNUAL_INTEREST_BPS) 365 = .ok 2714567482021873489 := by decide +kernel
  exact ⟨h, powWad_error_bound (WAD_le_dailyBase _) (by decide) h⟩

/-! ### The error of an accrual -/

section Growth

variable (K : Type*) [Field K] [LinearOrder K] [IsStrictOrderedRing K]

/-- The interest rate of one day. -/
def dailyRate (annualBps : ℕ) : K := annualBps / (DAYS_PER_YEAR * BPS : ℕ)

/-- The part of a day. -/
def dayPart (seconds : ℕ) : K := seconds / SECONDS_PER_DAY

/-- The two growth factors of `totalGrowthWad` without the rounding of the power and of the products. -/
def growth (annualBps t : ℕ) : K :=
  (dailyBase annualBps / WAD) ^ (t / SECONDS_PER_DAY) * (restGrowth annualBps (t % SECONDS_PER_DAY) / WAD)

variable {K} {bps t g : ℕ}

theorem dailyRate_nonneg : (0 : K) ≤ dailyRate K bps := div_nonneg (Nat.cast_nonneg _) (Nat.cast_nonneg _)

theorem dayPart_nonneg (s : ℕ) : (0 : K) ≤ dayPart K s := div_nonneg (Nat.cast_nonneg _) (Nat.cast_nonneg _)

theorem dayPart_le_one {s : ℕ} (hs : s ≤ SECONDS_PER_DAY) : dayPart K s ≤ 1 :=
  div_le_one_of_le₀ (by exact_mod_cast hs) (Nat.cast_nonneg _)

private theorem one_le_base : (1 : K) ≤ dailyBase bps / WAD := one_le_ratio (WAD_le_dailyBase bps)

private theorem one_le_rest (s : ℕ) : (1 : K) ≤ restGrowth bps s / WAD := one_le_ratio (WAD_le_restGrowth bps s)

theorem one_le_growth : 1 ≤ growth K bps t :=
  one_le_mul_of_one_le_of_one_le (one_le_pow₀ one_le_base) (one_le_rest _)

/-- `WAD` and a rounded quotient added to it. -/
private theorem wad_add_floor_approx {n d : ℕ} (hd : 0 < d) :
    Approx WAD (1 + n / d : K) (WAD + n * WAD / d) 1 := by
  have hd' : (0 : K) < d := by exact_mod_cast hd
  have hfloor : ((n * WAD / d : ℕ) : K) * d ≤ n * WAD := by exact_mod_cast Nat.div_mul_le_self (n * WAD) d
  have hceil : (n * WAD : K) < ((n * WAD / d : ℕ) : K) * d + d := by
    have hlt := Nat.lt_mul_div_succ (n * WAD) hd
    rw [Nat.mul_succ, mul_comm d] at hlt
    exact_mod_cast hlt
  have hexact : (1 + n / d : K) * WAD = WAD + n * WAD / d := by ring
  apply Approx.floor
  · rw [hexact]
    push_cast
    exact add_le_add_right ((le_div_iff₀ hd').2 hfloor) _
  · rw [hexact]
    push_cast
    have hquot : (n * WAD / d : K) < (n * WAD / d : ℕ) + 1 := by
      rw [div_lt_iff₀ hd', add_mul, one_mul]
      exact hceil
    linarith
  · exact le_add_of_nonneg_right (div_nonneg (Nat.cast_nonneg _) hd'.le)

theorem dailyBase_approx (bps : ℕ) : Approx WAD (1 + dailyRate K bps) (dailyBase bps) 1 :=
  wad_add_floor_approx (by decide)

theorem restGrowth_approx (bps s : ℕ) : Approx WAD (part (dailyRate K bps) (dayPart K s)) (restGrowth bps s) 1 := by
  have happrox : Approx WAD (1 + (bps * s : ℕ) / (SECONDS_PER_YEAR * BPS : ℕ) : K) (restGrowth bps s) 1 :=
    wad_add_floor_approx (by decide)
  have hyear : SECONDS_PER_YEAR = SECONDS_PER_DAY * DAYS_PER_YEAR := by decide
  rw [hyear] at happrox
  have hexact : part (dailyRate K bps) (dayPart K s) =
      1 + (bps * s : ℕ) / (SECONDS_PER_DAY * DAYS_PER_YEAR * BPS : ℕ) := by
    unfold part dailyRate dayPart
    push_cast
    rw [div_mul_div_comm]
    ring
  rwa [hexact]

/-! ### Splitting a span -/

/-- Two products are compared through the exact numbers that they round. -/
private theorem compare_of_exact {S T P Q c : K} (hc : 0 ≤ c) (hST : S ≤ T) (hTS : T ≤ S * c)
    (hP : T * (WAD - 2) * WAD ≤ P) (hP' : P ≤ T * WAD * WAD) (hQ : S * (WAD - 2) * WAD ≤ Q) (hQ' : Q ≤ S * WAD * WAD) :
    Q * (WAD - 2) ≤ P * WAD ∧ P * (WAD - 2) ≤ c * Q * WAD := by
  have htwo : (0 : K) ≤ WAD - 2 := by
    rw [sub_nonneg]
    exact_mod_cast (by decide : 2 ≤ WAD)
  have hwad : (0 : K) ≤ WAD := WAD_cast_pos.le
  constructor
  · calc Q * (WAD - 2) ≤ S * WAD * WAD * (WAD - 2) := mul_le_mul_of_nonneg_right hQ' htwo
      _ = S * ((WAD - 2) * WAD * WAD) := by ring
      _ ≤ T * ((WAD - 2) * WAD * WAD) := mul_le_mul_of_nonneg_right hST (by positivity)
      _ = T * (WAD - 2) * WAD * WAD := by ring
      _ ≤ P * WAD := mul_le_mul_of_nonneg_right hP hwad
  · calc P * (WAD - 2) ≤ T * WAD * WAD * (WAD - 2) := mul_le_mul_of_nonneg_right hP' htwo
      _ = T * (WAD * WAD * (WAD - 2)) := by ring
      _ ≤ S * c * (WAD * WAD * (WAD - 2)) := mul_le_mul_of_nonneg_right hTS (by positivity)
      _ = c * (S * (WAD - 2) * WAD) * WAD := by ring
      _ ≤ c * Q * WAD := mul_le_mul_of_nonneg_right (mul_le_mul_of_nonneg_left hQ hc) hwad

/-- A rounded product of two numbers that each lost one part. -/
private theorem mul_bounds {X Y : K} {x y : ℕ} (hx : Approx WAD X x 1) (hy : Approx WAD Y y 1) (hX : 1 ≤ X)
    (hY : 1 ≤ Y) : X * Y * (WAD - 2) * WAD ≤ x * y ∧ (x * y : K) ≤ X * Y * WAD * WAD := by
  constructor
  · have hge := hx.mul_ge hy (zero_le_one.trans hX) (zero_le_one.trans hY)
    rw [Nat.cast_one, one_add_one_eq_two] at hge
    exact hge
  · calc (x * y : K) ≤ X * WAD * (Y * WAD) :=
          mul_le_mul hx.le hy.le (Nat.cast_nonneg y) (mul_nonneg (zero_le_one.trans hX) WAD_cast_pos.le)
      _ = X * Y * WAD * WAD := by ring

private theorem excess_nonneg : 0 ≤ 1 + dailyRate K bps ^ 2 / 4 :=
  add_nonneg zero_le_one (div_nonneg (sq_nonneg _) zero_le_four)

/-- Two rests within one day. -/
private theorem rests_split {s₁ s₂ : ℕ} (hs : s₁ + s₂ ≤ SECONDS_PER_DAY) :
    (restGrowth bps (s₁ + s₂) * WAD * (WAD - 2) : K) ≤ restGrowth bps s₁ * restGrowth bps s₂ * WAD ∧
      (restGrowth bps s₁ * restGrowth bps s₂ * (WAD - 2) : K) ≤
        (1 + dailyRate K bps ^ 2 / 4) * (restGrowth bps (s₁ + s₂) * WAD) * WAD := by
  have hr : (0 : K) ≤ dailyRate K bps := dailyRate_nonneg
  have hx := dayPart_nonneg (K := K) s₁
  have hy := dayPart_nonneg (K := K) s₂
  have hadd : dayPart K s₁ + dayPart K s₂ = dayPart K (s₁ + s₂) := by
    unfold dayPart
    rw [Nat.cast_add, add_div]
  have hone : dayPart K s₁ + dayPart K s₂ ≤ 1 := hadd ▸ dayPart_le_one hs
  have hsum := restGrowth_approx (K := K) bps (s₁ + s₂)
  rw [← hadd] at hsum
  obtain ⟨hP, hP'⟩ := mul_bounds (restGrowth_approx (K := K) bps s₁) (restGrowth_approx bps s₂)
    (one_le_part hr hx) (one_le_part hr hy)
  obtain ⟨hQ, hQ'⟩ := mul_bounds hsum (.mono (.one WAD) zero_le_one zero_le_one)
    (one_le_part hr (add_nonneg hx hy)) le_rfl
  rw [mul_one] at hQ hQ'
  exact compare_of_exact excess_nonneg (part_add_le hx hy) (part_mul_part_le hr hx hy hone) hP hP' hQ hQ'

/-- Two rests that fill a day. -/
private theorem rests_carry {s₁ s₂ : ℕ} (hs₁ : s₁ ≤ SECONDS_PER_DAY) (hs₂ : s₂ ≤ SECONDS_PER_DAY)
    (hs : SECONDS_PER_DAY ≤ s₁ + s₂) :
    (dailyBase bps * restGrowth bps (s₁ + s₂ - SECONDS_PER_DAY) * (WAD - 2) : K) ≤
        restGrowth bps s₁ * restGrowth bps s₂ * WAD ∧
      (restGrowth bps s₁ * restGrowth bps s₂ * (WAD - 2) : K) ≤
        (1 + dailyRate K bps ^ 2 / 4) * (dailyBase bps * restGrowth bps (s₁ + s₂ - SECONDS_PER_DAY)) * WAD := by
  have hr : (0 : K) ≤ dailyRate K bps := dailyRate_nonneg
  have hx := dayPart_le_one (K := K) hs₁
  have hy := dayPart_le_one (K := K) hs₂
  have hday : (SECONDS_PER_DAY : K) ≠ 0 := by exact_mod_cast (by decide : SECONDS_PER_DAY ≠ 0)
  have hsub : dayPart K s₁ + dayPart K s₂ - 1 = dayPart K (s₁ + s₂ - SECONDS_PER_DAY) := by
    unfold dayPart
    rw [Nat.cast_sub hs, sub_div, div_self hday, Nat.cast_add, add_div]
  have hone : 0 ≤ dayPart K s₁ + dayPart K s₂ - 1 := by
    rw [hsub]
    exact dayPart_nonneg _
  have hrest := restGrowth_approx (K := K) bps (s₁ + s₂ - SECONDS_PER_DAY)
  rw [← hsub] at hrest
  obtain ⟨hP, hP'⟩ := mul_bounds (restGrowth_approx (K := K) bps s₁) (restGrowth_approx bps s₂)
    (one_le_part hr (dayPart_nonneg s₁)) (one_le_part hr (dayPart_nonneg s₂))
  obtain ⟨hQ, hQ'⟩ := mul_bounds (dailyBase_approx bps) hrest (le_add_of_nonneg_right hr) (one_le_part hr hone)
  exact compare_of_exact excess_nonneg (carry_le hx hy) (part_mul_part_le_carry hr hx hy (sub_nonneg.1 hone))
    hP hP' hQ hQ'

/-- The growth over a span against the growth over its two parts: they have the whole days of the parts in common,
and differ in the rests. -/
theorem growth_split (bps t₁ t₂ : ℕ) :
    growth K bps (t₁ + t₂) * (WAD - 2) ≤ growth K bps t₁ * growth K bps t₂ * WAD ∧
      growth K bps t₁ * growth K bps t₂ * (WAD - 2) ≤ (1 + dailyRate K bps ^ 2 / 4) * growth K bps (t₁ + t₂) * WAD := by
  have hwad : (0 : K) < WAD := WAD_cast_pos
  have hday : 0 < SECONDS_PER_DAY := by decide
  have hs₁ := (Nat.mod_lt t₁ hday).le
  have hs₂ := (Nat.mod_lt t₂ hday).le
  -- the factor of the common days, and the rest of the whole span
  obtain ⟨C, Q, hC, hparts, hwhole, hlower, hupper⟩ : ∃ C Q : K, 0 ≤ C ∧
      growth K bps t₁ * growth K bps t₂ =
        C * (restGrowth bps (t₁ % SECONDS_PER_DAY) * restGrowth bps (t₂ % SECONDS_PER_DAY)) ∧
      growth K bps (t₁ + t₂) = C * Q ∧
      Q * (WAD - 2) ≤ restGrowth bps (t₁ % SECONDS_PER_DAY) * restGrowth bps (t₂ % SECONDS_PER_DAY) * WAD ∧
      restGrowth bps (t₁ % SECONDS_PER_DAY) * restGrowth bps (t₂ % SECONDS_PER_DAY) * (WAD - 2) ≤
        (1 + dailyRate K bps ^ 2 / 4) * Q * WAD := by
    have hC : (0 : K) ≤ (dailyBase bps / WAD) ^ (t₁ / SECONDS_PER_DAY + t₂ / SECONDS_PER_DAY) / (WAD * WAD) := by
      positivity
    have hparts : growth K bps t₁ * growth K bps t₂ =
        (dailyBase bps / WAD) ^ (t₁ / SECONDS_PER_DAY + t₂ / SECONDS_PER_DAY) / (WAD * WAD) *
          (restGrowth bps (t₁ % SECONDS_PER_DAY) * restGrowth bps (t₂ % SECONDS_PER_DAY)) := by
      unfold growth
      rw [pow_add]
      field_simp
    by_cases hcarry : t₁ % SECONDS_PER_DAY + t₂ % SECONDS_PER_DAY < SECONDS_PER_DAY
    · refine ⟨_, _, hC, hparts, ?_, rests_split hcarry.le⟩
      unfold growth
      rw [Nat.add_div_eq_of_add_mod_lt hcarry, Nat.add_mod_of_add_mod_lt hcarry]
      field_simp
    · have hle : SECONDS_PER_DAY ≤ t₁ % SECONDS_PER_DAY + t₂ % SECONDS_PER_DAY := Nat.le_of_not_lt hcarry
      have hmod : (t₁ + t₂) % SECONDS_PER_DAY = t₁ % SECONDS_PER_DAY + t₂ % SECONDS_PER_DAY - SECONDS_PER_DAY := by
        have := Nat.add_mod_add_of_le_add_mod hle
        omega
      refine ⟨_, _, hC, hparts, ?_, rests_carry hs₁ hs₂ hle⟩
      unfold growth
      rw [Nat.add_div_eq_of_le_mod_add_mod hle hday, hmod, pow_succ]
      field_simp
  rw [hparts, hwhole]
  constructor
  · calc C * Q * (WAD - 2) = C * (Q * (WAD - 2)) := by ring
      _ ≤ C * _ := mul_le_mul_of_nonneg_left hlower hC
      _ = _ := by ring
  · calc C * (restGrowth bps (t₁ % SECONDS_PER_DAY) * restGrowth bps (t₂ % SECONDS_PER_DAY)) * (WAD - 2)
        = C * (restGrowth bps (t₁ % SECONDS_PER_DAY) * restGrowth bps (t₂ % SECONDS_PER_DAY) * (WAD - 2)) := by ring
      _ ≤ C * _ := mul_le_mul_of_nonneg_left hupper hC
      _ = _ := by ring

/-! ### Accruals -/

theorem totalGrowthWad_approx (hrate : bps ≤ MAX_ANNUAL_INTEREST_BPS) (h : totalGrowthWad bps t = .ok g) :
    Approx WAD (growth K bps t) g (t / SECONDS_PER_DAY + 1) := by
  obtain ⟨hdays, p, hp, hg⟩ := (totalGrowthWad_eq_ok hrate).1 h
  obtain ⟨-, rfl⟩ := mulWad_eq_ok.1 hg
  exact (powWad_approx (WAD_le_dailyBase bps) hdays hp).mul (.exact WAD _ WAD_pos) (one_le_pow₀ one_le_base)
    (one_le_rest _) WAD_pos

omit [LinearOrder K] in
theorem growth_zero [CharZero K] : growth K bps 0 = 1 := by
  have hwad : (WAD : K) ≠ 0 := by exact_mod_cast WAD_pos.ne'
  simp [growth, restGrowth, hwad]

/-- The seconds that an accrual at `now` covers. -/
def Market.elapsed (m : Market) (now : ℤ) : ℕ := (min now m.maturityTimestamp - m.lastAccrualTimestamp).toNat

/-- An accrual over no time changes nothing, any other multiplies the scale factor by the growth of its span and adds
the fee on the interest. -/
theorem accrueInterest_grows {m m' : Market} {c : ProtocolConfig} {now : ℤ} (h : accrueInterest m c now = .ok m') :
    (m.elapsed now = 0 ∧ m' = m) ∨
      ∃ g, totalGrowthWad m.annualInterestBps (m.elapsed now) = .ok g ∧ mulWad m.scaleFactor g = .ok m'.scaleFactor ∧
        accruedFees m c (g - WAD) = .ok m'.accruedProtocolFees := by
  unfold Market.elapsed
  simp only [accrueInterest, effectiveNow_eq_min] at h
  by_cases hlast : min now m.maturityTimestamp < m.lastAccrualTimestamp
  · rw [if_pos hlast] at h
    cases h
  rw [if_neg hlast] at h
  simp only [bind_eq_ok, checkedSubI64_eq_ok] at h
  obtain ⟨_, ⟨-, rfl⟩, h⟩ := h
  by_cases hzero : min now m.maturityTimestamp - m.lastAccrualTimestamp ≤ 0
  · rw [if_pos hzero, Except.ok.injEq] at h
    exact .inl ⟨Int.toNat_eq_zero.2 hzero, h.symm⟩
  · rw [if_neg hzero] at h
    simp only [accrueElapsed, bind_eq_ok, checkedSub_eq_ok, Except.ok.injEq] at h
    obtain ⟨g, hg, sf, hsf, _, ⟨-, rfl⟩, fees, hfees, rfl⟩ := h
    exact .inr ⟨g, hg, hsf, hfees⟩

theorem totalGrowthWad_zero (hrate : bps ≤ MAX_ANNUAL_INTEREST_BPS) : totalGrowthWad bps 0 = .ok WAD := by
  have hrest : restGrowth bps (0 % SECONDS_PER_DAY) = WAD := by simp [restGrowth]
  refine (totalGrowthWad_eq_ok hrate).2 ⟨by decide, WAD, rfl, ?_⟩
  rw [hrest]
  exact mulWad_eq_ok.2 ⟨by decide, Nat.mul_div_cancel _ WAD_pos⟩

/-- The scale factor after an accrual does not depend on the fees. -/
theorem accrueInterest_scaleFactor {m m' : Market} {c : ProtocolConfig} {now : ℤ}
    (hrate : m.annualInterestBps ≤ MAX_ANNUAL_INTEREST_BPS) (h : accrueInterest m c now = .ok m') :
    ∃ g, totalGrowthWad m.annualInterestBps (m.elapsed now) = .ok g ∧ m'.scaleFactor = m.scaleFactor * g / WAD := by
  rcases accrueInterest_grows h with ⟨hzero, rfl⟩ | ⟨g, hg, hsf, -⟩
  · rw [hzero]
    exact ⟨WAD, totalGrowthWad_zero hrate, (Nat.mul_div_cancel _ WAD_pos).symm⟩
  · exact ⟨g, hg, (mulWad_eq_ok.1 hsf).2.symm⟩

/-- An accrual multiplies the scale factor by the growth of its span, but for one part for each day and two more. -/
theorem accrueInterest_approx {m m' : Market} {c : ProtocolConfig} {now : ℤ} (h : accrueInterest m c now = .ok m')
    (hrate : m.annualInterestBps ≤ MAX_ANNUAL_INTEREST_BPS) {X : K} {e : ℕ} (hX : 1 ≤ X)
    (hsf : Approx WAD X m.scaleFactor e) :
    Approx WAD (X * growth K m.annualInterestBps (m.elapsed now)) m'.scaleFactor
      (e + (m.elapsed now / SECONDS_PER_DAY + 2)) := by
  rcases accrueInterest_grows h with ⟨hzero, rfl⟩ | ⟨g, hg, hsf', -⟩
  · rw [hzero, growth_zero, mul_one]
    exact hsf.mono (zero_le_one.trans hX) (Nat.le_add_right _ _)
  · obtain ⟨-, hsf'⟩ := mulWad_eq_ok.1 hsf'
    rw [← hsf']
    exact hsf.mul (totalGrowthWad_approx hrate hg) hX one_le_growth WAD_pos

end Growth

/-- An accrual in between, at `half`, costs at most one part in `WAD` for each day and eight more, and gains at most a
quarter of the square of the daily rate. -/
theorem accrual_split {m half one two : Market} {c : ProtocolConfig} {t₁ t₂ : ℤ}
    (hrate : m.annualInterestBps ≤ MAX_ANNUAL_INTEREST_BPS) (hsf : WAD ≤ m.scaleFactor)
    (hmaturity : t₂ ≤ m.maturityTimestamp)
    (hone : accrueInterest m c t₂ = .ok one) (hhalf : accrueInterest m c t₁ = .ok half)
    (htwo : accrueInterest half c t₂ = .ok two) :
    (one.scaleFactor : ℚ) * (WAD - ((t₂ - m.lastAccrualTimestamp) / 86400 : ℤ) - 8) ≤ two.scaleFactor * WAD ∧
      (two.scaleFactor : ℚ) * (WAD - ((t₂ - m.lastAccrualTimestamp) / 86400 : ℤ) - 8) ≤
        one.scaleFactor * WAD * (1 + (m.annualInterestBps / 3650000) ^ 2 / 4) := by
  obtain ⟨sf₁, fees₁, hhalf_eq, -, -, hlast₁⟩ := accrueInterest_ok hhalf
  obtain ⟨sf₂, fees₂, -, -, -, hlast₂⟩ := accrueInterest_ok htwo
  have hterms : half.annualInterestBps = m.annualInterestBps ∧ half.maturityTimestamp = m.maturityTimestamp ∧
      half.lastAccrualTimestamp = min t₁ m.maturityTimestamp := by rw [hhalf_eq]; exact ⟨rfl, rfl, rfl⟩
  obtain ⟨hbps, hmat, hlast⟩ := hterms
  rw [hlast, hmat] at hlast₂
  set s₁ := m.elapsed t₁ with hs₁
  set s₂ := half.elapsed t₂ with hs₂
  have hwhole : m.elapsed t₂ = s₁ + s₂ := by
    rw [hs₁, hs₂, Market.elapsed, Market.elapsed, Market.elapsed, hlast, hmat]
    omega
  have hdays : (t₂ - m.lastAccrualTimestamp) / 86400 = ((s₁ + s₂) / SECONDS_PER_DAY : ℕ) := by
    rw [← hwhole, Market.elapsed, min_eq_left hmaturity]
    have hnonneg : 0 ≤ t₂ - m.lastAccrualTimestamp := by omega
    rw [Int.natCast_div, Int.toNat_of_nonneg hnonneg]
    rfl
  have hX : (1 : ℚ) ≤ m.scaleFactor / WAD := one_le_ratio hsf
  have hG (t : ℕ) : (1 : ℚ) ≤ growth ℚ m.annualInterestBps t := one_le_growth
  have hm : Approx WAD (m.scaleFactor / WAD : ℚ) m.scaleFactor 0 := .exact WAD _ WAD_pos
  have aone := accrueInterest_approx hone hrate hX hm
  have ahalf := accrueInterest_approx hhalf hrate hX hm
  have atwo := accrueInterest_approx htwo (hbps ▸ hrate) (one_le_mul_of_one_le_of_one_le hX (hG _)) ahalf
  rw [hwhole] at aone
  rw [← hs₁] at atwo
  rw [← hs₂, hbps] at atwo
  obtain ⟨hlower, hupper⟩ := growth_split (K := ℚ) m.annualInterestBps s₁ s₂
  have hX0 : (0 : ℚ) ≤ m.scaleFactor / WAD := zero_le_one.trans hX
  have hrho : dailyRate ℚ m.annualInterestBps = m.annualInterestBps / 3650000 := by
    norm_num [dailyRate, DAYS_PER_YEAR, BPS]
  have hparts : s₁ / SECONDS_PER_DAY + s₂ / SECONDS_PER_DAY ≤ (s₁ + s₂) / SECONDS_PER_DAY :=
    Nat.div_add_div_le_add_div
  rw [hdays, Int.cast_natCast]
  set D := (s₁ + s₂) / SECONDS_PER_DAY
  have aone' : Approx WAD _ one.scaleFactor (D + 6) := aone.mono (mul_nonneg hX0 (zero_le_one.trans (hG _))) (by omega)
  have atwo' : Approx WAD _ two.scaleFactor (D + 6) :=
    atwo.mono (mul_nonneg (mul_nonneg hX0 (zero_le_one.trans (hG _))) (zero_le_one.trans (hG _))) (by omega)
  have herr : (WAD - D - 8 : ℚ) = WAD - ((2 : ℕ) + (D + 6 : ℕ)) := by
    push_cast
    ring
  rw [herr]
  constructor
  · rw [← one_mul (two.scaleFactor : ℚ)]
    refine aone'.le_of_le atwo' WAD_pos (mul_nonneg hX0 (zero_le_one.trans (hG _))) zero_le_one ?_
    calc _ = m.scaleFactor / WAD * (growth ℚ m.annualInterestBps (s₁ + s₂) * (WAD - 2)) := by push_cast; ring
      _ ≤ m.scaleFactor / WAD * _ := mul_le_mul_of_nonneg_left hlower hX0
      _ = _ := by ring
  · have hcompare : (two.scaleFactor : ℚ) * (WAD - ((2 : ℕ) + (D + 6 : ℕ))) ≤
        (1 + dailyRate ℚ m.annualInterestBps ^ 2 / 4) * one.scaleFactor * WAD := by
      refine atwo'.le_of_le aone' WAD_pos
        (mul_nonneg (mul_nonneg hX0 (zero_le_one.trans (hG _))) (zero_le_one.trans (hG _))) (by positivity) ?_
      calc _ = m.scaleFactor / WAD *
            (growth ℚ m.annualInterestBps s₁ * growth ℚ m.annualInterestBps s₂ * (WAD - 2)) := by push_cast; ring
        _ ≤ m.scaleFactor / WAD * _ := mul_le_mul_of_nonneg_left hupper hX0
        _ = _ := by ring
    rw [hrho] at hcompare
    exact hcompare.trans_eq (by ring)

namespace Sample

/-- A configuration without fees. -/
def protocol : ProtocolConfig where
  admin := admin
  feeRateBps := 0
  feeAuthority := admin
  whitelistManager := admin
  blacklistProgram := blacklistProgram
  isInitialized := 1
  paused := 0
  blacklistMode := 0

/-- A new market at the largest rate, for one year. -/
def doubling : Market := (freshMarket borrower (.vault market) market MAX_ANNUAL_INTEREST_BPS 31536000 WAD 0 0).market

end Sample

/-- The first accrual ends within a day, which the second one completes. -/
theorem accrual_split_carry :
    ∃ half one two, accrueInterest Sample.doubling Sample.protocol 50000 = .ok half ∧
      accrueInterest Sample.doubling Sample.protocol 100000 = .ok one ∧
      accrueInterest half Sample.protocol 100000 = .ok two ∧
      (one.scaleFactor : ℚ) * (WAD - (1 : ℤ) - 8) ≤ two.scaleFactor * WAD ∧
      (two.scaleFactor : ℚ) * (WAD - (1 : ℤ) - 8) ≤ one.scaleFactor * WAD * (1 + (10000 / 3650000) ^ 2 / 4) := by
  obtain ⟨half, hhalf, hx⟩ := exists_ok_of_toOption
    (show (accrueInterest Sample.doubling Sample.protocol 50000).toOption.map id =
      some { Sample.doubling with scaleFactor := 1001585489599188229, lastAccrualTimestamp := 50000 } by decide +kernel)
  obtain ⟨one, hone, -⟩ := exists_ok_of_toOption
    (show (accrueInterest Sample.doubling Sample.protocol 100000).toOption.map Market.lastAccrualTimestamp =
      some 100000 by decide +kernel)
  obtain ⟨two, htwo, -⟩ := exists_ok_of_toOption
    (show (accrueInterest { Sample.doubling with scaleFactor := 1001585489599188229, lastAccrualTimestamp := 50000 }
      Sample.protocol 100000).toOption.map Market.lastAccrualTimestamp = some 100000 by decide +kernel)
  rw [← hx, id] at htwo
  obtain ⟨hlower, hupper⟩ := accrual_split le_rfl le_rfl (by decide) hone hhalf htwo
  have hdays : ((100000 - Sample.doubling.lastAccrualTimestamp) / 86400 : ℤ) = 1 := by decide
  rw [hdays] at hlower hupper
  exact ⟨half, one, two, hhalf, hone, htwo, hlower, hupper⟩

end Coalesce
