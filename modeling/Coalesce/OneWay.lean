import Coalesce.Solvency

/-!
# Settlement is a one-way door

No flag forbids deposits, loans or interest after the first settlement.  A settled market is past its grace period
and accrued to its maturity, so the maturity checks reject the first two and an accrual changes nothing.
-/

namespace Coalesce

variable {w w' : World} {a : Address} {ma : MarketAccounts} {p p' p'' : Pool} {e : Option Event}

namespace Pool

/-- What a settled market keeps. -/
structure Later (p p' : Pool) : Prop where
  scaleFactor : p'.market.scaleFactor = p.market.scaleFactor
  factor : p.market.settlementFactorWad ≤ p'.market.settlementFactorWad
  supply : p'.market.scaledTotalSupply ≤ p.market.scaledTotalSupply
  borrowed : p'.market.totalBorrowed ≤ p.market.totalBorrowed
  fees : p'.market.accruedProtocolFees ≤ p.market.accruedProtocolFees

theorem Later.refl (p : Pool) : Later p p := ⟨rfl, le_rfl, le_rfl, le_rfl, le_rfl⟩

theorem Later.trans (h : Later p p') (h' : Later p' p'') : Later p p'' where
  scaleFactor := h'.scaleFactor.trans h.scaleFactor
  factor := h.factor.trans h'.factor
  supply := h'.supply.trans h.supply
  borrowed := h'.borrowed.trans h.borrowed
  fees := h'.fees.trans h.fees

theorem Settles.eq_of_ne_zero {clock : ℤ} {vault : ℕ} {m m' : Market} (h : Settles clock vault m m')
    (h0 : m.settlementFactorWad ≠ 0) : m' = m := by
  rcases h with ⟨-, rfl⟩ | ⟨h0', -⟩
  · rfl
  · exact absurd h0' h0

/-- What a step of a settled market can change: neither deposits nor loans, and the factor only by `reSettle`. -/
theorem Step.later (hs : Step a p e p') (h : p.Ledger) (h0 : p.market.settlementFactorWad ≠ 0) :
    Later p p' ∧
      (p'.market.settlementFactorWad ≠ p.market.settlementFactorWad → ∃ f, e = some (.reSettle a f)) ∧
      (∀ lender amount scaled, e ≠ some (.deposit a lender amount scaled)) ∧
      ∀ borrower amount, e ≠ some (.borrow a borrower amount) := by
  cases hs with
  | idle he =>
    refine ⟨⟨rfl, le_rfl, le_rfl, le_rfl, le_rfl⟩, fun hne => absurd rfl hne, ?_, ?_⟩
    · rintro _ _ _ rfl
      exact he rfl
    · rintro _ _ rfl
      exact he rfl
  | deposit _ htime => exact absurd (h.unsettled_of_lt htime) h0
  | borrow htime => exact absurd (h.unsettled_of_lt htime) h0
  | repay haccrue =>
    obtain rfl := h.accrue_settled haccrue h0
    exact ⟨⟨rfl, le_rfl, le_rfl, le_rfl, le_rfl⟩, fun hne => absurd rfl hne, by simp, by simp⟩
  | repayInterest haccrue =>
    obtain rfl := h.accrue_settled haccrue h0
    exact ⟨⟨rfl, le_rfl, le_rfl, le_rfl, le_rfl⟩, fun hne => absurd rfl hne, by simp, by simp⟩
  | exit _ haccrue hsettles _ _ _ _ htracks _ _ he =>
    obtain rfl := h.accrue_settled haccrue h0
    obtain rfl := hsettles.eq_of_ne_zero h0
    rw [htracks.shape.market]
    refine ⟨⟨rfl, le_rfl, Nat.sub_le _ _, le_rfl, le_rfl⟩, fun hne => absurd rfl hne, ?_, ?_⟩ <;>
    · rcases he with rfl | rfl <;> simp
  | claim _ _ _ _ hrecord _ he =>
    rw [(recordClaim_shape hrecord).market]
    refine ⟨⟨rfl, le_rfl, le_rfl, le_rfl, le_rfl⟩, fun hne => absurd rfl hne, ?_, ?_⟩ <;>
    · rcases he with rfl | rfl <;> simp
  | reSettle _ haccrue _ _ himproved =>
    obtain rfl := h.accrue_settled haccrue h0
    exact ⟨⟨rfl, himproved.le, le_rfl, le_rfl, le_rfl⟩, fun _ => ⟨_, rfl⟩, by simp, by simp⟩
  | collectFees _ _ haccrue =>
    obtain rfl := h.accrue_settled haccrue h0
    exact ⟨⟨rfl, le_rfl, le_rfl, le_rfl, Nat.sub_le _ _⟩, fun hne => absurd rfl hne, by simp, by simp⟩
  | withdrawExcess => exact ⟨⟨rfl, le_rfl, le_rfl, le_rfl, le_rfl⟩, fun hne => absurd rfl hne, by simp, by simp⟩
  | close => exact ⟨⟨rfl, le_rfl, le_rfl, le_rfl, le_rfl⟩, fun hne => absurd rfl hne, by simp, by simp⟩

/-- The factor never falls. -/
theorem Step.factor_le (hs : Step a p e p') (h : p.Ledger) :
    p.market.settlementFactorWad ≤ p'.market.settlementFactorWad := by
  by_cases h0 : p.market.settlementFactorWad = 0
  · rw [h0]
    exact Nat.zero_le _
  · exact (hs.later h h0).1.factor

/-! ### How the factor is fixed -/

/-- The factor is fixed for the first time, or again by `reSettle`. -/
inductive Fixes (p : Pool) : Pool → Prop
  | first {config : ProtocolConfig} {m : Market} {total factor : ℕ} (h0 : p.market.settlementFactorWad = 0)
      (haccrue : accrueInterest p.market config p.clock = .ok m)
      (htotal : totalNormalized m = .ok total)
      (hfactor : computeSettlementFactor p.vault total = .ok factor) :
      Fixes p { p with market := { m with settlementFactorWad := factor } }
  | again {factor : ℕ} (h0 : p.market.settlementFactorWad ≠ 0)
      (hfactor : computeResettleFactor p.vault p.face p.haircutState.claimWeightSum p.haircutState.claimOffsetSum =
        .ok factor)
      (himproved : p.market.settlementFactorWad < factor) :
      Fixes p { p with market := { p.market with settlementFactorWad := factor } }

theorem Fixes.keeps (hf : Fixes p p') : p'.market.scaledTotalSupply = p.market.scaledTotalSupply ∧
    p'.haircutState = p.haircutState ∧ p'.positions = p.positions ∧ p'.market.settlementFactorWad ≠ 0 := by
  cases hf with
  | first _ haccrue _ hfactor =>
    obtain ⟨_, _, rfl, -⟩ := accrueInterest_ok haccrue
    exact ⟨rfl, rfl, rfl, Nat.one_le_iff_ne_zero.1 (computeSettlementFactor_bounds hfactor).1⟩
  | again _ _ himproved => exact ⟨rfl, rfl, rfl, Nat.ne_zero_of_lt himproved⟩

/-- An exit that settles the market is an exit from the market that was just settled. -/
theorem Step.fixes (hs : Step a p e p') (h : p.Ledger)
    (hne : p'.market.settlementFactorWad ≠ p.market.settlementFactorWad) :
    ∃ p₀, Fixes p p₀ ∧ p₀.Ledger ∧ p₀.market.settlementFactorWad = p'.market.settlementFactorWad ∧
      (p' = p₀ ∧ (∃ f, e = some (.reSettle a f)) ∨
        p.market.settlementFactorWad = 0 ∧ Step a p₀ e p' ∧ p'.vault ≤ p₀.vault ∧
          ∃ e' l payout scaled, e = some e' ∧ e'.IsExit a l payout scaled) := by
  cases hs with
  | idle | withdrawExcess | close => exact absurd rfl hne
  | deposit _ _ haccrue | borrow _ haccrue | repay haccrue | repayInterest haccrue | collectFees _ _ haccrue =>
    obtain ⟨_, _, rfl, -⟩ := accrueInterest_ok haccrue
    exact absurd rfl hne
  | claim _ _ _ _ hrecord => exact absurd (by rw [(recordClaim_shape hrecord).market]) hne
  | @exit config m m' _ _ _ _ _ t _ hmatured haccrue hsettles hq hpos hle hamounts htracks htotal hpayout he
      deposited =>
    have h' := h.settleExit hmatured haccrue hsettles
    have hmarket := htracks.shape.market
    have hne' := hsettles.ne_zero
    rcases hsettles with ⟨-, rfl⟩ | ⟨h0, -, total, factor, hface, hfactor, rfl⟩
    · obtain ⟨_, _, rfl, -⟩ := accrueInterest_ok haccrue
      exact absurd (by rw [hmarket]) hne
    · have hmaturity : m.maturityTimestamp ≤ p.clock := by
        obtain ⟨_, _, rfl, -⟩ := accrueInterest_ok haccrue
        exact hmatured
      have h0' : p.market.settlementFactorWad = 0 := by
        obtain ⟨_, _, rfl, -⟩ := accrueInterest_ok haccrue
        exact h0
      refine ⟨_, .first h0' haccrue hface hfactor, h', by rw [hmarket],
        .inr ⟨h0', ?_, Nat.sub_le _ _, _, _, _, _, rfl, he⟩⟩
      exact .exit hmaturity (accrueInterest_matured config (h'.settled hne').accrued hmaturity) (.inl ⟨hne', rfl⟩) hq
        hpos hle hamounts htracks htotal hpayout he deposited
  | reSettle hsettled haccrue htotal hfactor himproved =>
    obtain rfl := h.accrue_settled haccrue hsettled
    obtain ⟨-, rfl⟩ := totalNormalized_eq_ok.1 htotal
    exact ⟨_, .again hsettled hfactor himproved, h.reSettle hsettled hfactor himproved, rfl, .inl ⟨rfl, _, rfl⟩⟩

end Pool

/-- In this step no deposit and no loan of the market succeeds, and its factor changes only by `reSettle`. -/
structure KeepsSettled (a : Address) (x : Record) : Prop where
  factor : ∀ ma₁ ma₂, x.pre.markets.lookup a = some ma₁ → x.post.markets.lookup a = some ma₂ →
    ma₂.market.settlementFactorWad ≠ ma₁.market.settlementFactorWad → ∃ f, x.event = some (.reSettle a f)
  deposit : ∀ lender amount scaled, x.event ≠ some (.deposit a lender amount scaled)
  borrow : ∀ borrower amount, x.event ≠ some (.borrow a borrower amount)

theorem Run.later {hist : List Record} (h : Reachable w) (hp : w.pool a = some p)
    (h0 : p.market.settlementFactorWad ≠ 0) (r : Run w hist w') :
    ∃ p', w'.pool a = some p' ∧ Pool.Later p p' ∧ ∀ x ∈ hist, KeepsSettled a x := by
  refine Run.pool_invariant (I := fun hist q => Pool.Later p q ∧ ∀ x ∈ hist, KeepsSettled a x) h hp
    ⟨.refl p, by simp⟩ ?_ r
  rintro hist x q q' hr hq hq' hstep ⟨hlater, hkeeps⟩
  have hne : q.market.settlementFactorWad ≠ 0 := by
    intro hq0
    exact h0 (Nat.eq_zero_of_le_zero (hq0 ▸ hlater.factor))
  obtain ⟨hnext, hchange, hdeposit, hborrow⟩ := hstep.later (Reachable.ledger hr hq) hne
  refine ⟨hlater.trans hnext, List.forall_mem_cons.2 ⟨⟨?_, hdeposit, hborrow⟩, hkeeps⟩⟩
  intro ma₁ ma₂ h₁ h₂ hne
  obtain rfl := Option.some.inj (h₁.symm.trans (World.pool_eq_some.1 hq).1)
  obtain rfl := Option.some.inj (h₂.symm.trans (World.pool_eq_some.1 hq').1)
  exact hchange hne

/-- A settled market is past its grace period and accrued to its maturity.  From then on its scale factor is fixed,
its settlement factor grows and only by `reSettle`, its supply, debt and fees do not grow, and no deposit and no loan
succeeds. -/
theorem settlement_one_way (h : Reachable w) (hma : w.markets.lookup a = some ma)
    (h0 : ma.market.settlementFactorWad ≠ 0) :
    (ma.market.maturityTimestamp + SETTLEMENT_GRACE_PERIOD ≤ w.clock ∧
      ma.market.lastAccrualTimestamp = ma.market.maturityTimestamp ∧
      1 ≤ ma.market.settlementFactorWad ∧ ma.market.settlementFactorWad ≤ WAD) ∧
    ∀ hist w', Run w hist w' →
      (∃ ma', w'.markets.lookup a = some ma' ∧
        ma'.market.scaleFactor = ma.market.scaleFactor ∧
        ma.market.settlementFactorWad ≤ ma'.market.settlementFactorWad ∧
        ma'.market.scaledTotalSupply ≤ ma.market.scaledTotalSupply ∧
        ma'.market.totalBorrowed ≤ ma.market.totalBorrowed ∧
        ma'.market.accruedProtocolFees ≤ ma.market.accruedProtocolFees) ∧
      ∀ x ∈ hist,
        (∀ ma₁ ma₂, x.pre.markets.lookup a = some ma₁ → x.post.markets.lookup a = some ma₂ →
          ma₂.market.settlementFactorWad ≠ ma₁.market.settlementFactorWad → ∃ f, x.event = some (.reSettle a f)) ∧
        (∀ lender amount scaled, x.event ≠ some (.deposit a lender amount scaled)) ∧
        ∀ borrower amount, x.event ≠ some (.borrow a borrower amount) := by
  have hs := (Reachable.books h hma).settled h0
  refine ⟨⟨hs.grace, hs.accrued, Nat.one_le_iff_ne_zero.2 h0, hs.le_wad⟩, ?_⟩
  intro hist w' r
  obtain ⟨p', hp', hlater, hhist⟩ := Run.later h (World.pool_of_lookup hma) h0 r
  constructor
  · exact ⟨_, (World.pool_eq_some.1 hp').1, hlater.scaleFactor, hlater.factor, hlater.supply, hlater.borrowed,
      hlater.fees⟩
  · intro x hx
    exact ⟨(hhist x hx).factor, (hhist x hx).deposit, (hhist x hx).borrow⟩

/-- After the two exits at one half, the full repayment raises the factor to par. -/
theorem settlement_one_way_restored :
    ∃ ma ma', (Sample.genesis.performAll Sample.haircut).markets.lookup Sample.market = some ma ∧
      ma.market.settlementFactorWad ≠ 0 ∧
      ((Sample.genesis.performAll Sample.haircut).performAll [Sample.repay 8, Sample.reSettle]).markets.lookup
        Sample.market = some ma' ∧ ma'.market.scaleFactor = ma.market.scaleFactor ∧
      ma.market.settlementFactorWad ≤ ma'.market.settlementFactorWad := by
  obtain ⟨ma, hma, hx⟩ := Option.map_eq_some_iff.1
    (show ((Sample.genesis.performAll Sample.haircut).markets.lookup Sample.market).map
      (fun ma => ma.market.settlementFactorWad) = some 500000000000000000 by decide +kernel)
  have h0 : ma.market.settlementFactorWad ≠ 0 := hx ▸ by decide
  obtain ⟨-, hlater⟩ := settlement_one_way (World.performAll_reachable Sample.genesis_reachable _) hma h0
  obtain ⟨⟨ma', hma', hfactor, hle, -⟩, -⟩ := hlater _ _ (World.performAll_run _ [Sample.repay 8, Sample.reSettle])
  exact ⟨ma, ma', hma, h0, hma', hfactor, hle⟩

end Coalesce
