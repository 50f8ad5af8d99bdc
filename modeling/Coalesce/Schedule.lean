import Coalesce.FeeShare

/-!
# The schedule of the accruals

Interest is accrued whenever an instruction touches a market, so the scale factor depends on who happens to call what.
`yield_schedule_free` says by how little: after `k` accruals in any run it differs from a single accrual over the same
time by a few parts in `WAD` for each accrual and each day, and by at most the `k`-th power of one and a quarter of the
squared daily rate.
-/

namespace Coalesce

open FixedPoint

variable {w w' : World} {a : Address} {p p' : Pool} {e : Option Event} {hist : List Record}

namespace Pool

/-- A step accrues interest up to its clock, or leaves the scale factor and the time of the last accrual alone. -/
theorem Step.accrual (h : Step a p e p') :
    (p'.market.scaleFactor = p.market.scaleFactor ∧
        p'.market.lastAccrualTimestamp = p.market.lastAccrualTimestamp) ∨
      (e.any fun e => e.accrues && e.market = some a) ∧
        ∃ c m, accrueInterest p.market c p.clock = .ok m ∧ p'.market.scaleFactor = m.scaleFactor ∧
          p'.market.lastAccrualTimestamp = m.lastAccrualTimestamp := by
  cases h with
  | idle | withdrawExcess | close => exact .inl ⟨rfl, rfl⟩
  | deposit _ _ haccrue | borrow _ haccrue | repay haccrue | repayInterest haccrue | reSettle _ haccrue
  | collectFees _ _ haccrue => exact .inr ⟨by simp [Event.accrues, Event.market], _, _, haccrue, rfl, rfl⟩
  | exit _ haccrue hsettles _ _ _ _ htracks _ _ he =>
    refine .inr ⟨?_, _, _, haccrue, ?_⟩
    · rcases he with rfl | rfl <;> simp [Event.accrues, Event.market]
    · dsimp only
      rw [htracks.shape.market, hsettles.shape]
      exact ⟨rfl, rfl⟩
  | claim _ _ _ _ hrecord =>
    dsimp only
    rw [(recordClaim_shape hrecord).market]
    exact .inl ⟨rfl, rfl⟩

/-- The seconds between the last accruals of two states of a pool. -/
def span (p q : Pool) : ℕ := (q.market.lastAccrualTimestamp - p.market.lastAccrualTimestamp).toNat

/-- What `k` accruals make of the pool `p`: the scale factor is the one of `p` times some growth, rounded down, and
this growth compares with that of a single accrual over the whole span. -/
structure Grown (p : Pool) (k : ℕ) (q : Pool) : Prop where
  terms : q.market.terms = p.market.terms
  last_le : p.market.lastAccrualTimestamp ≤ q.market.lastAccrualTimestamp
  scaleFactor : ∃ G : ℚ, 1 ≤ G ∧
    Approx WAD (p.market.scaleFactor / WAD * G) q.market.scaleFactor (p.span q / SECONDS_PER_DAY + 2 * k) ∧
    growth ℚ p.market.annualInterestBps (p.span q) * (WAD - 2 * k) ≤ G * WAD ∧
    G * (WAD - 2 * k) ≤ (1 + dailyRate ℚ p.market.annualInterestBps ^ 2 / 4) ^ k *
      growth ℚ p.market.annualInterestBps (p.span q) * WAD

theorem Grown.refl (p : Pool) : p.Grown 0 p := by
  refine ⟨rfl, le_rfl, 1, le_rfl, ?_, ?_, ?_⟩
  · rw [mul_one]
    exact (Approx.exact WAD _ WAD_pos).mono (by positivity) (Nat.zero_le _)
  · simp [span, growth_zero]
  · simp [span, growth_zero]

theorem Grown.rate_eq {k : ℕ} {q : Pool} (h : p.Grown k q) :
    q.market.annualInterestBps = p.market.annualInterestBps := by
  have hterms := h.terms
  simp only [Market.terms, Prod.mk.injEq] at hterms
  exact hterms.2.2.2.1

/-- One more accrual. -/
theorem Grown.accrue {k : ℕ} {q q' : Pool} (h : p.Grown k q) (hwad : WAD ≤ p.market.scaleFactor)
    (hrate : p.market.annualInterestBps ≤ MAX_ANNUAL_INTEREST_BPS) {c : ProtocolConfig} {m : Market}
    (haccrue : accrueInterest q.market c q.clock = .ok m) (hterms : q'.market.terms = q.market.terms)
    (hsf : q'.market.scaleFactor = m.scaleFactor)
    (hlast : q'.market.lastAccrualTimestamp = m.lastAccrualTimestamp) : p.Grown (k + 1) q' := by
  obtain ⟨G, hG, happrox, hlower, hupper⟩ := h.scaleFactor
  have hbps := h.rate_eq
  obtain ⟨_, _, hm, -, -, hle⟩ := accrueInterest_ok haccrue
  set t := p.span q with ht
  set t' := q.market.elapsed q.clock with ht'
  have hspan : p.span q' = t + t' := by
    have hstart := h.last_le
    rw [ht, ht', span, span, Market.elapsed, hlast, hm]
    dsimp only
    omega
  have hX : (1 : ℚ) ≤ p.market.scaleFactor / WAD := one_le_ratio hwad
  have hgrowth (s : ℕ) : (1 : ℚ) ≤ growth ℚ p.market.annualInterestBps s := one_le_growth
  have hgrowth' (s : ℕ) : (0 : ℚ) ≤ growth ℚ p.market.annualInterestBps s := zero_le_one.trans (hgrowth s)
  refine ⟨hterms.trans h.terms, ?_, G * growth ℚ p.market.annualInterestBps t',
    one_le_mul_of_one_le_of_one_le hG (hgrowth t'), ?_, ?_, ?_⟩
  · rw [hlast, hm]
    exact h.last_le.trans hle
  · have hnext := accrueInterest_approx haccrue (hbps ▸ hrate) (one_le_mul_of_one_le_of_one_le hX hG) happrox
    rw [hbps, ← ht', mul_assoc, ← hsf] at hnext
    refine hnext.mono (mul_nonneg (zero_le_one.trans hX) (mul_nonneg (zero_le_one.trans hG) (hgrowth' t'))) ?_
    have hdays : t / SECONDS_PER_DAY + t' / SECONDS_PER_DAY ≤ (t + t') / SECONDS_PER_DAY :=
      Nat.div_add_div_le_add_div
    rw [hspan]
    omega
  · -- the whole span against its two parts, then the first part against the accruals so far
    obtain ⟨hsplit, -⟩ := growth_split (K := ℚ) p.market.annualInterestBps t t'
    rw [← one_mul (growth ℚ p.market.annualInterestBps t * _)] at hsplit
    have hfirst : growth ℚ p.market.annualInterestBps t * growth ℚ p.market.annualInterestBps t' * (WAD - 2 * k) ≤
        1 * (G * growth ℚ p.market.annualInterestBps t') * WAD := by
      have := mul_le_mul_of_nonneg_right hlower (hgrowth' t')
      linarith
    have hloss := loss_trans WAD_pos zero_le_two (mul_nonneg zero_le_two (Nat.cast_nonneg k)) (hgrowth' (t + t'))
      (mul_nonneg (zero_le_one.trans hG) (hgrowth' t')) zero_le_one zero_le_one hsplit hfirst
    rw [hspan]
    push_cast
    linarith
  · obtain ⟨-, hsplit⟩ := growth_split (K := ℚ) p.market.annualInterestBps t t'
    have hfirst : G * growth ℚ p.market.annualInterestBps t' * (WAD - 2 * k) ≤
        (1 + dailyRate ℚ p.market.annualInterestBps ^ 2 / 4) ^ k *
          (growth ℚ p.market.annualInterestBps t * growth ℚ p.market.annualInterestBps t') * WAD := by
      have := mul_le_mul_of_nonneg_right hupper (hgrowth' t')
      linarith
    have hloss := loss_trans WAD_pos (mul_nonneg zero_le_two (Nat.cast_nonneg k)) zero_le_two
      (mul_nonneg (zero_le_one.trans hG) (hgrowth' t')) (hgrowth' (t + t')) (by positivity) (by positivity)
      hfirst hsplit
    rw [hspan, pow_succ]
    push_cast
    linarith

/-- A step that counts as an accrual is one, any other keeps what was grown. -/
theorem Grown.step {k : ℕ} {q q' : Pool} (h : p.Grown k q) (hwad : WAD ≤ p.market.scaleFactor)
    (hrate : p.market.annualInterestBps ≤ MAX_ANNUAL_INTEREST_BPS) (hs : Step a q e q') :
    p.Grown (k + if (e.any fun e => e.accrues && e.market = some a) &&
      q.market.lastAccrualTimestamp ≠ q'.market.lastAccrualTimestamp then 1 else 0) q' := by
  have hkept (hsf : q'.market.scaleFactor = q.market.scaleFactor)
      (hlast : q'.market.lastAccrualTimestamp = q.market.lastAccrualTimestamp) : p.Grown k q' := by
    have hspan : p.span q' = p.span q := by rw [span, span, hlast]
    refine ⟨hs.terms.trans h.terms, hlast ▸ h.last_le, ?_⟩
    rw [hsf, hspan]
    exact h.scaleFactor
  rcases hs.accrual with ⟨hsf, hlast⟩ | ⟨haccrues, c, m, haccrue, hsf, hlast⟩
  · simpa [hlast] using hkept hsf hlast
  · by_cases hsame : q.market.lastAccrualTimestamp = q'.market.lastAccrualTimestamp
    · -- no time has passed
      obtain ⟨_, _, hm, -⟩ := accrueInterest_ok haccrue
      have hzero : q.market.elapsed q.clock = 0 := by
        rw [hlast, hm] at hsame
        dsimp only at hsame
        rw [Market.elapsed]
        omega
      have hbps : q.market.annualInterestBps ≤ MAX_ANNUAL_INTEREST_BPS := h.rate_eq ▸ hrate
      obtain ⟨g, hg, hgrown⟩ := accrueInterest_scaleFactor hbps haccrue
      rw [hzero, totalGrowthWad_zero hbps, Except.ok.injEq] at hg
      rw [← hg, Nat.mul_div_cancel _ WAD_pos] at hgrown
      simpa [hsame] using hkept (hsf.trans hgrown) hsame.symm
    · simpa [haccrues, hsame] using h.accrue hwad hrate haccrue hs.terms hsf hlast

end Pool

theorem Run.grown (h : Reachable w) (hp : w.pool a = some p) (r : Run w hist w') :
    ∃ p', w'.pool a = some p' ∧ p.Grown (accruals a hist) p' := by
  have hheadroom := Reachable.headroom h (World.pool_eq_some.1 hp).1
  refine Run.pool_invariant (I := fun hist q => p.Grown (accruals a hist) q) h hp (.refl p) ?_ r
  intro hist x q q' hr hq hq' hs hI
  have hnext := hI.step hheadroom.wad_le hheadroom.rate hs
  rw [accruals_cons, accruesOver, World.lastAccrual_of_pool hq, World.lastAccrual_of_pool hq']
  simpa using hnext

/-- Over any run with `k` accruals, the scale factor against the one after a single accrual over the same time: it is
smaller by at most one part in `WAD` for each day and four for each accrual, and larger by at most a quarter of the
squared daily rate for each accrual, but for rounding.  Who touches the market, and when, makes no other difference. -/
theorem yield_schedule_free (h : Reachable w) {ma ma' : MarketAccounts} (hma : w.markets.lookup a = some ma)
    (r : Run w hist w') (hma' : w'.markets.lookup a = some ma') {c : ProtocolConfig} {one : Market}
    (hone : accrueInterest ma.market c ma'.market.lastAccrualTimestamp = .ok one) :
    (one.scaleFactor : ℚ) *
        (WAD - ((ma'.market.lastAccrualTimestamp - ma.market.lastAccrualTimestamp) / 86400 : ℤ) -
          4 * accruals a hist) ≤ ma'.market.scaleFactor * WAD ∧
      (ma'.market.scaleFactor : ℚ) *
          (WAD - ((ma'.market.lastAccrualTimestamp - ma.market.lastAccrualTimestamp) / 86400 : ℤ) -
            2 * accruals a hist - 2) ≤
        one.scaleFactor * WAD * (1 + (ma.market.annualInterestBps / 3650000) ^ 2 / 4) ^ accruals a hist := by
  obtain ⟨p', hp', hgrown⟩ := Run.grown h (World.pool_of_lookup hma) r
  obtain rfl := Option.some.inj (hma'.symm.trans (World.pool_eq_some.1 hp').1)
  have hheadroom := Reachable.headroom h hma
  have hheadroom' := Reachable.headroom (r.reachable h) hma'
  obtain ⟨G, hG, happrox, hlower, hupper⟩ := hgrown.scaleFactor
  set p : Pool := ⟨ma, w.clock, w.tokens.amount (.vault a)⟩
  set k := accruals a hist
  have hstart := hgrown.last_le
  have hspan : ma.market.elapsed p'.market.lastAccrualTimestamp = p.span p' := by
    have hterms := hgrown.terms
    simp only [Market.terms, Prod.mk.injEq] at hterms
    have hlast : p'.market.lastAccrualTimestamp ≤ ma.market.maturityTimestamp :=
      hheadroom'.last_le.trans hterms.2.2.2.2.1.le
    rw [Market.elapsed, min_eq_left hlast]
    rfl
  have hdays : (p'.market.lastAccrualTimestamp - ma.market.lastAccrualTimestamp) / 86400 =
      (p.span p' / SECONDS_PER_DAY : ℕ) := by
    rw [Int.natCast_div, Pool.span, Int.toNat_of_nonneg (sub_nonneg.2 hstart)]
    rfl
  have hX : (1 : ℚ) ≤ ma.market.scaleFactor / WAD := one_le_ratio hheadroom.wad_le
  have hX0 : (0 : ℚ) ≤ ma.market.scaleFactor / WAD := zero_le_one.trans hX
  have hG0 : (0 : ℚ) ≤ G := zero_le_one.trans hG
  have hsingle := accrueInterest_approx hone hheadroom.rate hX (.exact WAD _ WAD_pos)
  rw [hspan] at hsingle
  have hgrowth : (0 : ℚ) ≤ growth ℚ ma.market.annualInterestBps (p.span p') := zero_le_one.trans one_le_growth
  have hrho : dailyRate ℚ ma.market.annualInterestBps = ma.market.annualInterestBps / 3650000 := by
    norm_num [dailyRate, DAYS_PER_YEAR, BPS]
  rw [hdays, Int.cast_natCast]
  constructor
  · have hcompare := hsingle.le_of_le (k := 2 * k) (c := 1) happrox WAD_pos (mul_nonneg hX0 hgrowth) zero_le_one (by
      have := mul_le_mul_of_nonneg_left hlower hX0
      push_cast
      linarith)
    push_cast at hcompare
    linarith
  · have hcompare := happrox.le_of_le (k := 2 * k)
      (c := (1 + dailyRate ℚ ma.market.annualInterestBps ^ 2 / 4) ^ k) hsingle WAD_pos (mul_nonneg hX0 hG0)
      (by positivity) (by
        have := mul_le_mul_of_nonneg_left hupper hX0
        push_cast
        linarith)
    rw [hrho] at hcompare
    push_cast at hcompare
    linarith

namespace Sample

/-- Two deposits, after half a day and after two days. -/
def halfDays : List Action := [.clock 43200, deposit bob (WAD / 4), .clock 172800, deposit alice 1000]

end Sample

/-- The two accruals against a single one after two days. -/
theorem yield_schedule_free_halfDays :
    (1005486958153499717 : ℚ) * (WAD - 2 - 4 * 2) ≤ 1005488839819339513 * WAD ∧
      (1005488839819339513 : ℚ) * (WAD - 2 - 2 * 2 - 2) ≤
        1005486958153499717 * WAD * (1 + (10000 / 3650000) ^ 2 / 4) ^ 2 := by
  obtain ⟨ma, hma, hx⟩ := Option.map_eq_some_iff.1
    (show ((Sample.genesis.performAll Sample.funded).markets.lookup Sample.market).map
      (fun ma => (ma.market.lastAccrualTimestamp, ma.market.annualInterestBps,
        (accrueInterest ma.market Sample.protocol 172800).toOption.map Market.scaleFactor)) =
      some (0, 10000, some 1005486958153499717) by decide +kernel)
  obtain ⟨ma', hma', hx'⟩ := Option.map_eq_some_iff.1
    (show (((Sample.genesis.performAll Sample.funded).performAll Sample.halfDays).markets.lookup Sample.market).map
      (fun ma => (ma.market.lastAccrualTimestamp, ma.market.scaleFactor)) = some (172800, 1005488839819339513)
      by decide +kernel)
  simp only [Prod.mk.injEq] at hx hx'
  obtain ⟨hlast, hrate, hone⟩ := hx
  obtain ⟨hlast', hscale⟩ := hx'
  obtain ⟨one, hone, hgrown⟩ := exists_ok_of_toOption hone
  have haccruals : accruals Sample.market ((Sample.genesis.performAll Sample.funded).history Sample.halfDays) = 2 := by
    decide +kernel
  have hbound := yield_schedule_free (World.performAll_reachable Sample.genesis_reachable Sample.funded) hma
    (World.performAll_run _ Sample.halfDays) hma' (hlast' ▸ hone)
  rw [hlast, hlast', hrate, hscale, hgrown, haccruals] at hbound
  exact_mod_cast hbound

end Coalesce
