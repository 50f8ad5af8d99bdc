import Coalesce.Accrual
import Coalesce.Capacity

/-!
# Every number fits its field

The records keep their numbers in fields of 1, 2, 8 or 16 bytes.  The handlers never test whether a number still fits
when they write it back: the checked arithmetic and the invariants of the market have to see to it.  They do, in every
state that a chain with a 64-bit clock can reach (`records_fit`).
-/

namespace Coalesce

def FitsI64 (x : ℤ) : Prop := -2 ^ 63 ≤ x ∧ x ≤ i64Max

/-! ### The widths of the fields -/

structure ProtocolConfig.Fits (c : ProtocolConfig) : Prop where
  feeRateBps : c.feeRateBps < 2 ^ 16
  isInitialized : c.isInitialized < 2 ^ 8
  paused : c.paused < 2 ^ 8
  blacklistMode : c.blacklistMode < 2 ^ 8

/-- The terms of a market. -/
structure Market.TermsFit (m : Market) : Prop where
  annualInterestBps : m.annualInterestBps < 2 ^ 16
  maturityTimestamp : FitsI64 m.maturityTimestamp
  maxTotalSupply : m.maxTotalSupply ≤ u64Max
  marketNonce : m.marketNonce ≤ u64Max

/-- What accrues and what is counted. -/
structure Market.CountersFit (m : Market) : Prop where
  scaleFactor : m.scaleFactor ≤ u128Max
  accruedProtocolFees : m.accruedProtocolFees ≤ u64Max
  totalDeposited : m.totalDeposited ≤ u64Max
  totalBorrowed : m.totalBorrowed ≤ u64Max
  totalRepaid : m.totalRepaid ≤ u64Max
  totalInterestRepaid : m.totalInterestRepaid ≤ u64Max
  lastAccrualTimestamp : FitsI64 m.lastAccrualTimestamp

structure Market.Fits (m : Market) : Prop extends m.TermsFit, m.CountersFit where
  scaledTotalSupply : m.scaledTotalSupply ≤ u128Max
  settlementFactorWad : m.settlementFactorWad ≤ u128Max
  haircutAccumulator : m.haircutAccumulator ≤ u64Max

structure LenderPosition.Fits (q : LenderPosition) : Prop where
  scaledBalance : q.scaledBalance ≤ u128Max
  haircutOwed : q.haircutOwed ≤ u64Max
  withdrawalSf : q.withdrawalSf ≤ u128Max

structure BorrowerWhitelist.Fits (wl : BorrowerWhitelist) : Prop where
  isWhitelisted : wl.isWhitelisted < 2 ^ 8
  maxBorrowCapacity : wl.maxBorrowCapacity ≤ u64Max
  currentBorrowed : wl.currentBorrowed ≤ u64Max

structure HaircutState.Fits (hs : HaircutState) : Prop where
  claimWeightSum : hs.claimWeightSum ≤ u128Max
  claimOffsetSum : hs.claimOffsetSum ≤ u128Max

structure MarketAccounts.Fits (ma : MarketAccounts) : Prop where
  market : ma.market.Fits
  haircutState : ma.haircutState.Fits
  positions : ∀ l q, ma.positions.lookup l = some q → q.Fits

structure World.Fits (w : World) : Prop where
  config : ∀ c, w.config = some c → c.Fits
  whitelists : ∀ b wl, w.whitelists.lookup b = some wl → wl.Fits
  markets : ∀ a ma, w.markets.lookup a = some ma → ma.Fits

/-! ### What a step of a pool writes -/

section Pools

variable {a : Address} {p p' : Pool} {e : Option Event} {m m' : Market} {c : ProtocolConfig} {now : ℤ}

theorem accruedFees_le {d fees : ℕ} (h : accruedFees m c d = .ok fees) (hm : m.accruedProtocolFees ≤ u64Max) :
    fees ≤ u64Max := by
  unfold accruedFees at h
  split at h
  · simp only [bind_eq_ok, checkedAdd_eq_ok] at h
    obtain ⟨_, -, hle, rfl⟩ := h
    exact hle
  · exact Except.ok.inj h ▸ hm

theorem accrueInterest_fits (h : accrueInterest m c now = .ok m') (hm : m.CountersFit) (hnow : FitsI64 now)
    (hmaturity : FitsI64 m.maturityTimestamp) : m'.CountersFit := by
  have hlast : FitsI64 (min now m.maturityTimestamp) :=
    ⟨le_min hnow.1 hmaturity.1, (min_le_left _ _).trans hnow.2⟩
  have hgrows := accrueInterest_grows h
  obtain ⟨sf, fees, rfl, -⟩ := accrueInterest_ok h
  rcases hgrows with ⟨-, hsame⟩ | ⟨g, -, hsf, hfees⟩
  · exact hsame ▸ hm
  · obtain ⟨hfits, hsf⟩ := mulWad_eq_ok.1 hsf
    exact { hm with
      scaleFactor := hsf ▸ (Nat.div_le_self _ _).trans hfits
      accruedProtocolFees := accruedFees_le hfees hm.accruedProtocolFees
      lastAccrualTimestamp := hlast }

/-- The limits that the handlers check on the totals. -/
structure Pool.Counts (a : Address) (p : Pool) (e : Option Event) (p' : Pool) : Prop where
  borrow : ∀ b n, e = some (.borrow a b n) → p.market.totalBorrowed + n ≤ u64Max
  repay : ∀ payer n debt, e = some (.repay a payer n debt) → p.market.totalRepaid + n ≤ u64Max
  repayInterest : ∀ payer n total, e = some (.repayInterest a payer n total) →
    p.market.totalRepaid + n ≤ u64Max ∧ p.market.totalInterestRepaid + n ≤ u64Max
  exit : ∀ f l payout scaled, e = some f → f.IsExit a l payout scaled →
    p'.market.totalDeposited ≤ p.market.totalDeposited

theorem Pool.Step.countersFit (hs : Pool.Step a p e p') (hp : p.market.CountersFit) (hterms : p.market.TermsFit)
    (hclock : FitsI64 p.clock) (hcounts : Pool.Counts a p e p') : p'.market.CountersFit := by
  have haccrued {m : Market} {c : ProtocolConfig} (haccrue : accrueInterest p.market c p.clock = .ok m) :
      m.CountersFit := accrueInterest_fits haccrue hp hclock hterms.maturityTimestamp
  cases hs with
  | idle | withdrawExcess | close => exact hp
  | deposit _ _ haccrue _ _ hcap =>
    have hm := haccrued haccrue
    obtain ⟨_, _, rfl, -⟩ := accrueInterest_ok haccrue
    exact { hm with totalDeposited := hcap.trans hterms.maxTotalSupply }
  | borrow _ haccrue =>
    have hm := haccrued haccrue
    obtain ⟨_, _, rfl, -⟩ := accrueInterest_ok haccrue
    exact { hm with totalBorrowed := hcounts.borrow _ _ rfl }
  | repay haccrue =>
    have hm := haccrued haccrue
    obtain ⟨_, _, rfl, -⟩ := accrueInterest_ok haccrue
    exact { hm with totalRepaid := hcounts.repay _ _ _ rfl }
  | repayInterest haccrue =>
    have hm := haccrued haccrue
    obtain ⟨_, _, rfl, -⟩ := accrueInterest_ok haccrue
    obtain ⟨hrepaid, hinterest⟩ := hcounts.repayInterest _ _ _ rfl
    exact { hm with totalRepaid := hrepaid, totalInterestRepaid := hinterest }
  | exit _ haccrue hsettles _ _ _ _ htracks _ _ hexit =>
    have hdeposited := hcounts.exit _ _ _ _ rfl hexit
    have hm := haccrued haccrue
    dsimp only at hdeposited ⊢
    rw [htracks.shape.market, hsettles.shape]
    exact { hm with totalDeposited := hdeposited.trans hp.totalDeposited }
  | claim _ _ _ _ hrecord =>
    dsimp only
    rw [(recordClaim_shape hrecord).market]
    exact { hp with }
  | reSettle _ haccrue => exact { haccrued haccrue with }
  | collectFees _ _ haccrue =>
    have hm := haccrued haccrue
    exact { hm with accruedProtocolFees := (Nat.sub_le _ _).trans hm.accruedProtocolFees }

theorem addContribution_fits {hs hs' : HaircutState} {owed sf : ℕ} (h : addContribution hs owed sf = .ok hs') :
    hs'.Fits := by
  obtain ⟨_, -, hw, ho, rfl⟩ := addContribution_eq_ok.1 h
  exact ⟨hw, ho⟩

theorem Pool.Step.haircutFits (hs : Pool.Step a p e p') (hp : p.haircutState.Fits) : p'.haircutState.Fits := by
  cases hs with
  | exit _ _ _ _ _ _ _ htracks =>
    rcases htracks with ⟨-, -, -, h⟩ | ⟨-, rfl⟩
    · obtain ⟨_, _, _, -, -, -, -, -, hadd, rfl⟩ := recordGap_eq_ok.1 h
      exact addContribution_fits hadd
    · exact hp
  | claim _ _ _ _ hrecord =>
    obtain ⟨_, _, -, -, -, hadd, rfl⟩ := recordClaim_eq_ok.1 hrecord
    split at hadd
    · exact addContribution_fits hadd
    · obtain rfl := Except.ok.inj hadd
      exact ⟨(Nat.sub_le _ _).trans hp.claimWeightSum, (Nat.sub_le _ _).trans hp.claimOffsetSum⟩
  | _ => exact hp

end Pools

/-! ### What the handlers check -/

section Handlers

variable {w w' : World} {accounts : List AccountMeta} {data : List UInt8} {e : Event} {a : Address}

/-- The event neither creates a market nor exits one. -/
def Event.routine : Event → Bool
  | createMarket .. | withdraw .. | forceClose .. => false
  | _ => true

private theorem routine_of_market (h : e.market = none) : e.routine := by
  cases e with
  | createMarket | withdraw | forceClose => cases h
  | _ => rfl

/-- A market is created by `createMarket`, and exited by `withdraw` or `forceClosePosition`. -/
theorem processInstruction_routine (hw : WellFormed w) (hsign : ∀ x ∈ accounts, x.isSigner → x.address.isKey)
    (h : processInstruction w accounts data = .ok (w', e)) :
    e.routine ∨ createMarket w accounts data.tail = .ok (w', e) ∨
      ∃ a l x scaled payout, e = x.event a l payout scaled ∧ w.Exits a l x scaled payout w' := by
  unfold processInstruction at h
  split at h
  · cases h
  · split at h
    · exact .inl (routine_of_market (initializeProtocol_leaves h).1.event)
    · exact .inl (routine_of_market (setFeeConfig_leaves h).1.event)
    · exact .inr (.inl h)
    · obtain ⟨_, -, -, _, _, _, rfl⟩ := deposit_accrues hw hsign h
      exact .inl rfl
    · obtain ⟨_, _, _, rfl, -⟩ := borrow_accrues hw hsign h
      exact .inl rfl
    · obtain ⟨_, _, _, _, rfl, -⟩ := repay_accrues hw hsign h
      exact .inl rfl
    · obtain ⟨_, -, -, _, _, _, rfl⟩ := repayInterest_accrues hw hsign h
      exact .inl rfl
    · obtain ⟨a, l, scaled, payout, rfl, hexits, -⟩ := withdraw_exits hw hsign h
      exact .inr (.inr ⟨a, l, _, scaled, payout, rfl, hexits⟩)
    · obtain ⟨_, _, rfl, -⟩ := collectFees_accrues hw hsign h
      exact .inl rfl
    · obtain ⟨_, -, -, _, rfl⟩ := reSettle_accrues hw h
      exact .inl rfl
    · obtain ⟨_, -, -, _, rfl⟩ := closeLenderPosition_acts h
      exact .inl rfl
    · obtain ⟨_, -, -, _, _, rfl⟩ := withdrawExcess_acts hw h
      exact .inl rfl
    · exact .inl (routine_of_market (setBorrowerWhitelist_leaves h).1.event)
    · exact .inl (routine_of_market (setPause_leaves h).1.event)
    · exact .inl (routine_of_market (setBlacklistMode_leaves h).1.event)
    · exact .inl (routine_of_market (setAdmin_leaves h).1.event)
    · exact .inl (routine_of_market (setWhitelistManager_leaves h).1.event)
    · obtain ⟨a, l, scaled, payout, rfl, hexits, -⟩ := forceClosePosition_exits hw h
      exact .inr (.inr ⟨a, l, _, scaled, payout, rfl, hexits⟩)
    · obtain ⟨_, -, -, _, _, _, rfl⟩ := claimHaircut_acts hw hsign h
      exact .inl rfl
    · obtain ⟨_, -, -, _, _, _, rfl⟩ := forceClaimHaircut_acts hw h
      exact .inl rfl
    · cases h

theorem u16At_lt (data : List UInt8) (i : ℕ) : u16At data i < 2 ^ 16 := leNat_take_lt _ 2

theorem createMarket_termsFit (h : createMarket w accounts data = .ok (w', e)) {ma : MarketAccounts}
    (hnone : w.markets.lookup a = none) (hma : w'.markets.lookup a = some ma) : ma.market.TermsFit := by
  unfold createMarket at h
  split at h
  · simp only [bind_eq_ok, require_eq_ok, exists_const, Except.ok.injEq, Prod.mk.injEq] at h
    obtain ⟨-, -, _, -, -, -, _, -, _, -, -, -, _, -, -, _, -, -, -, -, -, _, -, -, rfl, rfl⟩ := h
    rcases Finmap.lookup_of_insert hma with ⟨-, rfl⟩ | hma
    · exact ⟨u16At_lt _ _, i64At_bounds _ _, u64At_le _ _, u64At_le _ _⟩
    · rw [hnone] at hma
      cases hma
  · cases h

/-- An exit takes its payout off the deposits, or leaves them. -/
theorem World.Exits.deposited_le {l : Address} {x : Exit} {scaled payout : ℕ} (h : w.Exits a l x scaled payout w') :
    ∃ p p', w.pool a = some p ∧ w'.pool a = some p' ∧ p'.market.totalDeposited ≤ p.market.totalDeposited := by
  obtain ⟨config, p, p', -, hmoves, hexits⟩ := h
  refine ⟨p, p', hmoves.pre, hmoves.post, ?_⟩
  cases hexits with
  | mk _ haccrue hsettles hpays =>
    obtain ⟨_, _, rfl, -⟩ := accrueInterest_ok haccrue
    cases hpays with
    | mk _ _ _ _ _ htracks =>
      dsimp only
      rw [htracks.shape.market, hsettles.shape]
      cases x with
      | withdraw => exact Nat.sub_le _ _
      | forceClose => exact le_rfl

theorem Authorized.counts {signed : Address → Prop} (h : Authorized w signed e w') {p p' : Pool}
    (hp : w.markets.lookup a = some p.toMarketAccounts)
    (hexit : ∀ l payout scaled, e.IsExit a l payout scaled → p'.market.totalDeposited ≤ p.market.totalDeposited) :
    Pool.Counts a p (some e) p' := by
  refine ⟨?_, ?_, ?_, ?_⟩
  · rintro b n he
    obtain rfl := Option.some.inj he
    cases h with
    | administers _ _ h => cases h
    | market _ _ _ h =>
      cases h with
      | borrow _ _ hfits =>
        obtain ⟨ma, hma, hfits⟩ := hfits
        obtain rfl := Option.some.inj (hp.symm.trans hma)
        exact hfits
  · rintro payer n debt he
    obtain rfl := Option.some.inj he
    cases h with
    | administers _ _ h => cases h
    | market _ _ _ h =>
      cases h with
      | repay hfits =>
        obtain ⟨ma, hma, hfits, -⟩ := hfits
        obtain rfl := Option.some.inj (hp.symm.trans hma)
        exact hfits
  · rintro payer n total he
    obtain rfl := Option.some.inj he
    cases h with
    | administers _ _ h => cases h
    | market _ _ _ h =>
      cases h with
      | repayInterest hfits =>
        obtain ⟨ma, hma, hrepaid, hinterest, -⟩ := hfits
        obtain rfl := Option.some.inj (hp.symm.trans hma)
        exact ⟨hrepaid, hinterest⟩
  · rintro f l payout scaled hf
    obtain rfl := Option.some.inj hf
    exact hexit l payout scaled

end Handlers

/-! ### Every record of every state -/

section States

variable {w w' : World} {a b : Address} {e : Event} {p p' : Pool}

theorem Reachable.capped (h : Reachable w) (hp : w.pool a = some p) : ∃ n, p.Capped n := by
  refine (Reachable.pool_invariant (I := fun p => p.Ledger ∧ ∃ n, p.Capped n) ?_ ?_ h hp).2
  · exact fun _ hfresh => ⟨hfresh.ledger, 0, hfresh.capped⟩
  · rintro q e q' ⟨hl, n, hn⟩ hs
    exact ⟨hs.ledger hl, _, hn.step (x := ⟨w, e, w⟩) hl hs⟩

theorem Market.TermsFit.of_terms {m m' : Market} (h : m.TermsFit) (hterms : m'.terms = m.terms) : m'.TermsFit := by
  simp only [Market.terms, Prod.mk.injEq] at hterms
  obtain ⟨-, -, -, hrate, hmaturity, hcap, hnonce⟩ := hterms
  exact ⟨hrate ▸ h.annualInterestBps, hmaturity ▸ h.maturityTimestamp, hcap ▸ h.maxTotalSupply, hnonce ▸ h.marketNonce⟩

/-- The rest follows from the books. -/
theorem Pool.Ledger.fits (h : p.Ledger) {n : ℕ} (hcap : p.Capped n) (hterms : p.market.TermsFit)
    (hcounters : p.market.CountersFit) (hhaircut : p.haircutState.Fits) : p.toMarketAccounts.Fits := by
  have hu : u64Max ≤ u128Max := by decide
  have hwad : WAD ≤ u128Max := by decide
  have hsupply : p.market.scaledTotalSupply ≤ u128Max :=
    ((hcap.supply.trans hcap.deposits).trans hterms.maxTotalSupply).trans hu
  refine ⟨⟨hterms, hcounters, hsupply, ?_, h.owed_le⟩, hhaircut, ?_⟩
  · by_cases h0 : p.market.settlementFactorWad = 0
    · rw [h0]
      exact Nat.zero_le _
    · exact (h.settled h0).le_wad.trans hwad
  · intro l q hq
    exact ⟨(h.supply_ge hq).trans hsupply, h.owed_u64 hq, (h.anchored l q hq).lt_wad.le.trans hwad⟩

theorem Pool.Fresh.fits (h : p.Fresh a) (hclock : FitsI64 p.clock) (hterms : p.market.TermsFit) :
    p.toMarketAccounts.Fits := by
  refine h.ledger.fits h.capped hterms ?_ ?_
  · cases h with
    | mk =>
      have hwad : WAD ≤ u128Max := by decide
      exact ⟨hwad, Nat.zero_le _, Nat.zero_le _, Nat.zero_le _, Nat.zero_le _, Nat.zero_le _, hclock⟩
  · cases h with
    | mk => exact ⟨Nat.zero_le _, Nat.zero_le _⟩

theorem ProtocolConfig.Fits.administers {c c' : ProtocolConfig} (hc : c.Fits) (h : Administers c e c') : c'.Fits := by
  cases h with
  | setFeeConfig hbps => exact { hc with feeRateBps := hbps.trans_lt (by decide) }
  | setPause paused => exact { hc with paused := by dsimp only; split <;> decide }
  | setBlacklistMode failClosed => exact { hc with blacklistMode := by dsimp only; split <;> decide }
  | setAdmin | setWhitelistManager => exact { hc with }

theorem updatedWhitelist_fits {old : Option BorrowerWhitelist} {f capacity : ℕ} {wl : BorrowerWhitelist}
    (h : updatedWhitelist old b f capacity = .ok wl) (hf : f < 256) (hcapacity : capacity ≤ u64Max)
    (hold : ∀ wl, old = some wl → wl.Fits) : wl.Fits := by
  cases old with
  | none =>
    simp only [updatedWhitelist] at h
    split at h
    · obtain rfl := Except.ok.inj h
      exact ⟨Nat.one_lt_two_pow (by decide), hcapacity, Nat.zero_le _⟩
    · cases h
  | some old =>
    simp only [updatedWhitelist, bind_eq_ok, require_eq_ok, exists_const, Except.ok.injEq] at h
    obtain ⟨-, rfl⟩ := h
    exact ⟨hf, hcapacity, (hold old rfl).currentBorrowed⟩

theorem Authorized.configFits {signed : Address → Prop} (h : Authorized w signed e w')
    (hf : ∀ c, w.config = some c → c.Fits) : ∀ c, w'.config = some c → c.Fits := by
  intro c' hc'
  cases h with
  | initializes _ _ _ hrate hactive =>
    obtain rfl := Option.some.inj hc'
    obtain ⟨hinitialized, hpaused, hmode⟩ := hactive
    exact ⟨hrate.trans_lt (by decide), by rw [hinitialized]; decide, by rw [hpaused]; decide, by rw [hmode]; decide⟩
  | administers hc _ h =>
    obtain rfl := Option.some.inj hc'
    exact (hf _ hc).administers h
  | lists => exact hf c' hc'
  | market _ _ hkeeps =>
    rw [hkeeps] at hc'
    exact hf c' hc'

theorem Authorized.entryFits {signed : Address → Prop} (h : Authorized w signed e w')
    (hentry : EntryMove w b e (w'.whitelists.lookup b)) (hf : ∀ b wl, w.whitelists.lookup b = some wl → wl.Fits) :
    ∀ wl, w'.whitelists.lookup b = some wl → wl.Fits := by
  intro wl hwl
  cases h with
  | initializes | administers => exact hf b wl hwl
  | lists _ _ hflag hcapacity hnew =>
    rcases Finmap.lookup_of_insert hwl with ⟨rfl, rfl⟩ | hwl
    · exact updatedWhitelist_fits hnew hflag hcapacity (hf _)
    · exact hf b wl hwl
  | market _ _ _ h =>
    generalize w'.whitelists.lookup b = entry at hentry hwl
    cases hentry with
    | keeps => exact hf b wl hwl
    | lists => cases h
    | borrows hold =>
      obtain rfl := Option.some.inj hwl
      cases h with
      | borrow _ _ _ hlisted =>
        obtain ⟨wl₁, hwl₁, -, hfits, -⟩ := hlisted
        obtain rfl := Option.some.inj (hold.symm.trans hwl₁)
        exact { hf b _ hold with currentBorrowed := hfits }
    | repays _ hold =>
      obtain rfl := Option.some.inj hwl
      have hfits := hf b _ hold
      exact { hfits with currentBorrowed := (Nat.sub_le _ _).trans hfits.currentBorrowed }

theorem Event.IsExit.market_eq {l k : Address} {payout scaled : ℕ} {x : Exit} {payout' scaled' : ℕ}
    (h : e.IsExit a l payout scaled) (he : e = x.event b k payout' scaled') : a = b := by
  subst he
  cases x <;> rcases h with h | h <;> cases h <;> rfl

/-- The market at `a` after a step. -/
private theorem Step.marketFits {e : Option Event} (hr : Reachable w) (hs : Step w e w') (hf : w.Fits)
    (hclock : FitsI64 w.clock) (hclock' : FitsI64 w'.clock) (hp' : w'.pool a = some p') :
    p'.toMarketAccounts.Fits := by
  have hw := Reachable.wellFormed hr
  obtain ⟨hma', hnow', -⟩ := World.pool_eq_some.1 hp'
  cases hp : w.pool a with
  | none =>
    obtain ⟨hfresh, b, nonce, rfl⟩ := hs.pool_new hw hp hp'
    refine hfresh.fits (hnow' ▸ hclock') ?_
    cases hs with
    | instruction hsign hok =>
      rcases processInstruction_routine hw hsign hok with h | h | ⟨_, _, x, _, _, h, -⟩
      · cases h
      · exact createMarket_termsFit h (World.pool_eq_none.1 hp) hma'
      · cases x <;> cases h
  | some p =>
    obtain ⟨hma, hnow, -⟩ := World.pool_eq_some.1 hp
    have hstep := hs.pool_step hw hp hp'
    have hmarket := (hf.markets a _ hma).market
    obtain ⟨n, hcap⟩ := Reachable.capped (hr.step hs) hp'
    have hcounts : Pool.Counts a p e p' := by
      cases hs with
      | instruction hsign hok =>
        refine (processInstruction_authorized hw hok).counts hma ?_
        intro l payout scaled hexit
        rcases processInstruction_routine hw hsign hok with h | h | ⟨_, _, x, _, _, h, hexits⟩
        · rcases hexit with rfl | rfl <;> cases h
        · obtain ⟨_, hc, -⟩ := createMarket_creates hsign h
          obtain ⟨_, _, rfl⟩ := hc.event
          rcases hexit with hexit | hexit <;> cases hexit
        · obtain ⟨q, q', hq, hq', hle⟩ := hexits.deposited_le
          obtain rfl := hexit.market_eq h
          obtain rfl := Option.some.inj (hp.symm.trans hq)
          obtain rfl := Option.some.inj (hp'.symm.trans hq')
          exact hle
      | clock | tokens | external => exact ⟨by simp, by simp, by simp, by simp⟩
    exact (hstep.ledger (Reachable.ledger hr hp)).fits hcap (hmarket.toTermsFit.of_terms hstep.terms)
      (hstep.countersFit hmarket.toCountersFit hmarket.toTermsFit (hnow ▸ hclock) hcounts)
      (hstep.haircutFits (hf.markets a _ hma).haircutState)

theorem Step.fits {e : Option Event} (hr : Reachable w) (hs : Step w e w') (hf : w.Fits) (hclock : FitsI64 w.clock)
    (hclock' : FitsI64 w'.clock) : w'.Fits := by
  have hw := Reachable.wellFormed hr
  refine ⟨?_, ?_, ?_⟩
  · cases hs with
    | instruction hsign hok => exact (processInstruction_authorized hw hok).configFits hf.config
    | clock | tokens | external => exact hf.config
  · intro b
    cases hs with
    | instruction hsign hok =>
      exact (processInstruction_authorized hw hok).entryFits ((processInstruction_effect hw hsign hok).entry b)
        hf.whitelists
    | clock | tokens | external => exact hf.whitelists b
  · intro a ma hma
    exact hs.marketFits hr hf hclock hclock' (World.pool_of_lookup hma)

theorem Run.fits {w₀ : World} {hist : List Record} (hg : Genesis w₀) (hclock : -2 ^ 63 ≤ w₀.clock)
    (r : Run w₀ hist w) : FitsI64 w.clock ∧ w.Fits := by
  induction r with
  | nil =>
    refine ⟨⟨hclock, hg.clock⟩, ?_, ?_, ?_⟩
    · simp [hg.config]
    · simp [hg.whitelists]
    · simp [hg.markets]
  | cons r hs ih =>
    have hr := r.reachable (.init hg)
    have hclock' : FitsI64 _ :=
      ⟨ih.1.1.trans (hs.clock_le (Reachable.wellFormed hr)), Reachable.clock_le (hr.step hs)⟩
    exact ⟨hclock', hs.fits hr ih.2 ih.1 hclock'⟩

end States

/-- On a chain whose clock starts as a 64-bit number, every number of every record fits its field in every state. -/
theorem records_fit {w₀ w : World} {hist : List Record} (hg : Genesis w₀) (hclock : -2 ^ 63 ≤ w₀.clock)
    (r : Run w₀ hist w) : w.Fits :=
  (r.fits hg hclock).2

/-- The market after two exits at one half. -/
theorem records_fit_haircut : (Sample.genesis.performAll Sample.haircut).Fits :=
  records_fit Sample.genesis_initial (by decide) (Sample.genesis.performAll_run Sample.haircut)

end Coalesce
