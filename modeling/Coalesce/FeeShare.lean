import Coalesce.Fees

/-!
# The share of the protocol

Every fee rate that the program stores is at most one (`Reachable.feeRateAccepted`), and a fee is that part of the
interest on the supply, but for the rounding of the scale factor (`accrueInterest_fee_le`).  Until lenders leave, the
supply only grows; so the fees of all accruals together stay within the interest on the last supply
(`fees_le_interest`).
-/

namespace Coalesce

open LendingError

/-! ### The fee rate -/

/-- The fee rate is one that the program accepts. -/
def World.FeeRateAccepted (w : World) : Prop := ∀ c, w.config = some c → c.feeRateBps ≤ MAX_FEE_RATE_BPS

section FeeRate

variable {w w' : World} {accounts : List AccountMeta} {data : List UInt8} {e : Option Event}

private theorem initializeProtocol_feeRate :
    ∀ r, initializeProtocol w accounts data = .ok r → r.1.FeeRateAccepted := by
  intro r h
  unfold initializeProtocol at h
  split at h
  · simp only [bind_eq_ok, require_eq_ok, exists_const, Except.ok.injEq] at h
    obtain ⟨-, -, -, -, hrate, -, -, -, -, -, rfl⟩ := h
    rintro _ ⟨⟩
    exact hrate
  · cases h

private theorem setFeeConfig_feeRate : ∀ r, setFeeConfig w accounts data = .ok r → r.1.FeeRateAccepted := by
  intro r h
  unfold setFeeConfig at h
  split at h
  · simp only [bind_eq_ok, require_eq_ok, exists_const, Except.ok.injEq] at h
    obtain ⟨-, _, -, hrate, -, rfl⟩ := h
    rintro _ ⟨⟩
    exact hrate
  · cases h

private theorem loadConfigAsAdmin_feeRate (hw : w.FeeRateAccepted) {protocolConfig admin : AccountMeta}
    {c : ProtocolConfig} (h : loadConfigAsAdmin w protocolConfig admin = .ok c) : c.feeRateBps ≤ MAX_FEE_RATE_BPS := by
  simp only [loadConfigAsAdmin, bind_eq_ok, loadProtocolConfig_eq_ok, Except.ok.injEq] at h
  obtain ⟨_, ⟨-, hconfig⟩, _, -, _, -, rfl⟩ := h
  exact hw _ hconfig

theorem processInstruction_feeRate (hw : w.FeeRateAccepted) :
    ∀ r, processInstruction w accounts data = .ok r → r.1.FeeRateAccepted := by
  unfold processInstruction
  split
  · rintro _ ⟨⟩
  · split
    · exact initializeProtocol_feeRate
    · exact setFeeConfig_feeRate
    case h_21 => rintro _ ⟨⟩
    -- the other instructions keep the configuration, or at least the rate in it
    all_goals
      delta createMarket deposit borrow repay repayInterest withdraw collectFees reSettle closeLenderPosition
        withdrawExcess setBorrowerWhitelist setPause setBlacklistMode setAdmin setWhitelistManager forceClosePosition
        claimHaircut forceClaimHaircut
      split
      · repeat refine bind_cases fun _ _ => ?_
        rintro _ ⟨⟩
        first
          | exact hw
          | rintro _ ⟨⟩
            exact (loadConfigAsAdmin_feeRate hw ‹_› :)
      · rintro _ ⟨⟩

theorem Step.feeRateAccepted (h : Step w e w') (hw : w.FeeRateAccepted) : w'.FeeRateAccepted := by
  cases h with
  | instruction _ hok => exact processInstruction_feeRate hw _ hok
  | clock | tokens | external => exact hw

theorem Reachable.feeRateAccepted (h : Reachable w) : w.FeeRateAccepted := by
  apply h.invariant
  · intro w hg c hc
    rw [hg.config] at hc
    cases hc
  · intro _ _ _ _ hw hs
    exact hs.feeRateAccepted hw

end FeeRate

/-! ### One accrual -/

section OneAccrual

variable {m m' : Market} {c : ProtocolConfig} {now : ℤ}

/-- The fee is the rate times the interest on the supply, every factor rounded down. -/
theorem Market.fee_mul_le (m : Market) (bps d : ℕ) :
    m.fee bps d * WAD * BPS * WAD ≤ m.scaledTotalSupply * m.scaleFactor * (d * bps) := by
  have hfee : m.fee bps d * WAD ≤ m.scaledTotalSupply * m.scaleFactor / WAD * (d * bps / BPS) :=
    Nat.div_mul_le_self _ _
  calc m.fee bps d * WAD * BPS * WAD
      ≤ m.scaledTotalSupply * m.scaleFactor / WAD * (d * bps / BPS) * BPS * WAD :=
        Nat.mul_le_mul_right _ (Nat.mul_le_mul_right _ hfee)
    _ = m.scaledTotalSupply * m.scaleFactor / WAD * WAD * (d * bps / BPS * BPS) := by ring
    _ ≤ m.scaledTotalSupply * m.scaleFactor * (d * bps) :=
        Nat.mul_le_mul (Nat.div_mul_le_self _ _) (Nat.div_mul_le_self _ _)

/-- The interest on a scale factor is its increase, but for the rounding. -/
theorem scaleFactor_mul_interest_le {sf g : ℕ} (hg : WAD ≤ g) :
    sf * (g - WAD) ≤ (sf * g / WAD - sf + 1) * WAD := by
  have hle : sf ≤ sf * g / WAD := (Nat.le_div_iff_mul_le WAD_pos).2 (Nat.mul_le_mul_left sf hg)
  have hlt := Nat.lt_mul_div_succ (sf * g) WAD_pos
  have hsub : (sf * g / WAD - sf + 1) * WAD + sf * WAD = WAD * (sf * g / WAD + 1) := by
    rw [← add_mul, mul_comm]
    congr 1
    omega
  rw [Nat.mul_sub]
  omega

/-- An accrual at the rate `c.feeRateBps` charges at most that part of the interest on the supply. -/
theorem accrueInterest_fee_le (h : accrueInterest m c now = .ok m') :
    (m'.accruedProtocolFees - m.accruedProtocolFees) * WAD * BPS ≤
      c.feeRateBps * (m.scaledTotalSupply * (m'.scaleFactor - m.scaleFactor + 1)) := by
  rcases accrueInterest_grows h with ⟨-, rfl⟩ | ⟨g, hg, hsf, hfees⟩
  · rw [Nat.sub_self, Nat.zero_mul, Nat.zero_mul]
    exact Nat.zero_le _
  · obtain ⟨-, hsf⟩ := mulWad_eq_ok.1 hsf
    have hinterest : m.scaleFactor * (g - WAD) ≤ (m'.scaleFactor - m.scaleFactor + 1) * WAD := by
      rw [← hsf]
      exact scaleFactor_mul_interest_le (totalGrowthWad_ge hg)
    rw [accruedFees_eq hfees, Nat.add_sub_cancel_left]
    refine Nat.le_of_mul_le_mul_right ?_ WAD_pos
    calc m.fee c.feeRateBps (g - WAD) * WAD * BPS * WAD
        ≤ m.scaledTotalSupply * m.scaleFactor * ((g - WAD) * c.feeRateBps) := m.fee_mul_le _ _
      _ = c.feeRateBps * m.scaledTotalSupply * (m.scaleFactor * (g - WAD)) := by ring
      _ ≤ c.feeRateBps * m.scaledTotalSupply * ((m'.scaleFactor - m.scaleFactor + 1) * WAD) :=
          Nat.mul_le_mul_left _ hinterest
      _ = c.feeRateBps * (m.scaledTotalSupply * (m'.scaleFactor - m.scaleFactor + 1)) * WAD := by ring

/-- At an accepted rate the whole interest bounds the fee, and no unit is added where no time has passed. -/
theorem accrueInterest_fee_le_interest (h : accrueInterest m c now = .ok m') (hrate : c.feeRateBps ≤ MAX_FEE_RATE_BPS) :
    m'.accruedProtocolFees * WAD ≤ m.accruedProtocolFees * WAD +
      m.scaledTotalSupply * (m'.scaleFactor - m.scaleFactor +
        if m.lastAccrualTimestamp ≠ m'.lastAccrualTimestamp then 1 else 0) := by
  by_cases hlast : m.lastAccrualTimestamp = m'.lastAccrualTimestamp
  · rw [accrueInterest_idle h hlast.symm]
    exact Nat.le_add_right _ _
  · have hle : m.accruedProtocolFees ≤ m'.accruedProtocolFees := by
      obtain ⟨_, _, rfl, -, hle, -⟩ := accrueInterest_ok h
      exact hle
    have hfee : (m'.accruedProtocolFees - m.accruedProtocolFees) * WAD ≤
        m.scaledTotalSupply * (m'.scaleFactor - m.scaleFactor + 1) := by
      refine Nat.le_of_mul_le_mul_right ?_ (show 0 < BPS by decide)
      calc (m'.accruedProtocolFees - m.accruedProtocolFees) * WAD * BPS
          ≤ c.feeRateBps * (m.scaledTotalSupply * (m'.scaleFactor - m.scaleFactor + 1)) := accrueInterest_fee_le h
        _ ≤ BPS * (m.scaledTotalSupply * (m'.scaleFactor - m.scaleFactor + 1)) := Nat.mul_le_mul_right _ hrate
        _ = m.scaledTotalSupply * (m'.scaleFactor - m.scaleFactor + 1) * BPS := mul_comm _ _
    rw [if_pos hlast]
    rw [Nat.sub_mul] at hfee
    omega

end OneAccrual

/-! ### Runs before the first exit -/

/-- The time up to which the market `a` has accrued. -/
def World.lastAccrual (w : World) (a : Address) : Option ℤ :=
  (w.markets.lookup a).map fun ma => ma.market.lastAccrualTimestamp

/-- An instruction that accrues interest on the market `a` over some time. -/
def accruesOver (a : Address) (x : Record) : Bool :=
  x.event.any (fun e => e.accrues && e.market = some a) && x.pre.lastAccrual a ≠ x.post.lastAccrual a

/-- The number of such instructions in a history. -/
def accruals (a : Address) (hist : List Record) : ℕ := hist.countP (accruesOver a)

section Runs

variable {w w' : World} {a : Address} {p p' : Pool} {e : Option Event} {hist : List Record}

theorem World.lastAccrual_of_pool (h : w.pool a = some p) :
    w.lastAccrual a = some p.market.lastAccrualTimestamp := by
  rw [lastAccrual, (World.pool_eq_some.1 h).1]
  rfl

namespace Pool

/-- Until the grace period ends no lender leaves a market, and no fees are collected from it. -/
theorem Step.unsettled_mono (h : Step a p e p') (hl : p.Ledger) (hf : p.Feeless)
    (hclock : p.clock < p.market.maturityTimestamp + SETTLEMENT_GRACE_PERIOD) :
    p.market.scaledTotalSupply ≤ p'.market.scaledTotalSupply ∧
      p.market.accruedProtocolFees ≤ p'.market.accruedProtocolFees := by
  have h0 := hl.unsettled_of_grace hclock
  cases h with
  | idle | withdrawExcess | close => exact ⟨le_rfl, le_rfl⟩
  | deposit _ _ haccrue =>
    obtain ⟨_, _, rfl, -, hfees, -⟩ := accrueInterest_ok haccrue
    exact ⟨Nat.le_add_right _ _, hfees⟩
  | borrow _ haccrue | repay haccrue | repayInterest haccrue =>
    obtain ⟨_, _, rfl, -, hfees, -⟩ := accrueInterest_ok haccrue
    exact ⟨le_rfl, hfees⟩
  | exit _ haccrue hsettles =>
    obtain ⟨_, _, rfl, -⟩ := accrueInterest_ok haccrue
    rcases hsettles with ⟨hne, -⟩ | ⟨-, hgrace, -⟩
    · exact absurd h0 hne
    · dsimp only at hgrace
      omega
  | claim hsettled | reSettle hsettled => exact absurd h0 hsettled
  | collectFees _ hwaiting haccrue =>
    obtain ⟨_, _, rfl, -⟩ := accrueInterest_ok haccrue
    rcases hwaiting with hempty | hpar
    · rw [hf h0 hempty]
      exact ⟨le_rfl, Nat.zero_le _⟩
    · exact absurd (h0.symm.trans hpar) WAD_pos.ne

theorem Step.fees_of_not_accrues (h : Step a p e p') (hnot : ¬e.any fun e => e.accrues && e.market = some a) :
    p'.market.accruedProtocolFees = p.market.accruedProtocolFees := by
  by_cases he : e.bind Event.market = some a
  · obtain ⟨e, rfl, hmarket⟩ := Option.bind_eq_some_iff.1 he
    exact h.fees_of_not hmarket fun haccrues => hnot (by simp [haccrues, hmarket])
  · rw [(h.idle_of_ne he).1]

/-- What an instruction that accrues interest first leaves of the accrual; the fee rate makes no difference. -/
theorem Step.accrued_eq {e : Event} (h : Step a p (some e) p') (he : e.market = some a) (haccrues : e.accrues)
    (hrate : p.market.annualInterestBps ≤ MAX_ANNUAL_INTEREST_BPS) {c : ProtocolConfig} {m : Market}
    (haccrue : accrueInterest p.market c p.clock = .ok m) :
    p'.market.scaleFactor = m.scaleFactor ∧ p'.market.lastAccrualTimestamp = m.lastAccrualTimestamp := by
  have hsame {c' : ProtocolConfig} {m' : Market} (haccrue' : accrueInterest p.market c' p.clock = .ok m') :
      m'.scaleFactor = m.scaleFactor ∧ m'.lastAccrualTimestamp = m.lastAccrualTimestamp := by
    obtain ⟨g, hg, hm⟩ := accrueInterest_scaleFactor hrate haccrue
    obtain ⟨g', hg', hm'⟩ := accrueInterest_scaleFactor hrate haccrue'
    obtain rfl := Except.ok.inj (hg.symm.trans hg')
    obtain ⟨_, _, rfl, -⟩ := accrueInterest_ok haccrue
    obtain ⟨_, _, rfl, -⟩ := accrueInterest_ok haccrue'
    exact ⟨hm'.trans hm.symm, rfl⟩
  cases h with
  | idle hidle => exact absurd he hidle
  | deposit _ _ haccrue' | borrow _ haccrue' | repay haccrue' | repayInterest haccrue' | reSettle _ haccrue'
  | collectFees _ _ haccrue' => exact (hsame haccrue' :)
  | exit _ haccrue' hsettles _ _ _ _ htracks =>
    dsimp only
    rw [htracks.shape.market, hsettles.shape]
    exact (hsame haccrue' :)
  | claim _ _ _ _ _ _ hclaim => rcases hclaim with rfl | rfl <;> exact absurd haccrues Bool.false_ne_true
  | withdrawExcess | close => exact absurd haccrues Bool.false_ne_true

end Pool

private theorem fees_le_accrues {e : Event} (hw : Reachable w) (h : Step w (some e) w') (hp : w.pool a = some p)
    (hp' : w'.pool a = some p') (haccrues : e.accrues) (he : e.market = some a) :
    p'.market.accruedProtocolFees * WAD ≤ p.market.accruedProtocolFees * WAD +
      p.market.scaledTotalSupply * (p'.market.scaleFactor - p.market.scaleFactor +
        if accruesOver a ⟨w, some e, w'⟩ then 1 else 0) := by
  have hwf := Reachable.wellFormed hw
  obtain ⟨c, q, q', m, hc, hq, hq', haccrue, hfees⟩ := (h.accrues hwf haccrues he).accrual
  obtain rfl := Option.some.inj (hp.symm.trans hq)
  obtain rfl := Option.some.inj (hp'.symm.trans hq')
  have hrate := (Reachable.headroom hw (World.pool_eq_some.1 hp).1).rate
  obtain ⟨hsf, hlast⟩ := (h.pool_step hwf hp hp').accrued_eq he haccrues hrate haccrue
  have hover : accruesOver a ⟨w, some e, w'⟩ ↔ p.market.lastAccrualTimestamp ≠ m.lastAccrualTimestamp := by
    simp [accruesOver, haccrues, he, World.lastAccrual_of_pool hp, World.lastAccrual_of_pool hp', hlast]
  have hfee := accrueInterest_fee_le_interest haccrue (Reachable.feeRateAccepted hw c hc)
  have hcollected : p'.market.accruedProtocolFees ≤ m.accruedProtocolFees := hfees ▸ Nat.le_add_right _ _
  simp only [hover, hsf]
  exact (Nat.mul_le_mul_right _ hcollected).trans hfee

/-- In a step the fees of a market grow by at most the interest on its supply. -/
theorem Step.fees_le (hw : Reachable w) (h : Step w e w') (hp : w.pool a = some p) (hp' : w'.pool a = some p') :
    p'.market.accruedProtocolFees * WAD ≤ p.market.accruedProtocolFees * WAD +
      p.market.scaledTotalSupply * (p'.market.scaleFactor - p.market.scaleFactor +
        if accruesOver a ⟨w, e, w'⟩ then 1 else 0) := by
  by_cases haccrues : e.any fun e => e.accrues && e.market = some a
  · obtain ⟨e, rfl, hinterest⟩ := (Option.any_eq_true _ _).1 haccrues
    rw [Bool.and_eq_true, decide_eq_true_iff] at hinterest
    exact fees_le_accrues hw h hp hp' hinterest.1 hinterest.2
  · rw [(h.pool_step (Reachable.wellFormed hw) hp hp').fees_of_not_accrues haccrues]
    exact Nat.le_add_right _ _

/-- What `n` accruals before the first exit can make of the pool `p`. -/
structure Pool.Accrued (p : Pool) (n : ℕ) (q : Pool) : Prop where
  scaleFactor : p.market.scaleFactor ≤ q.market.scaleFactor
  fees : p.market.accruedProtocolFees ≤ q.market.accruedProtocolFees
  interest : q.market.accruedProtocolFees * WAD ≤ p.market.accruedProtocolFees * WAD +
    q.market.scaledTotalSupply * (q.market.scaleFactor - p.market.scaleFactor + n)

theorem accruals_cons (x : Record) :
    accruals a (x :: hist) = accruals a hist + if accruesOver a x then 1 else 0 := List.countP_cons

/-- One more step: the supply that the earlier fees were charged on has only grown since. -/
theorem Step.accrued_cons {p₀ : Pool} (hw : Reachable w) (hs : Step w e w') (hp : w.pool a = some p)
    (hp' : w'.pool a = some p') (h : p₀.Accrued (accruals a hist) p)
    (hclock : p.clock < p.market.maturityTimestamp + SETTLEMENT_GRACE_PERIOD) :
    p₀.Accrued (accruals a (⟨w, e, w'⟩ :: hist)) p' := by
  have hstep := hs.pool_step (Reachable.wellFormed hw) hp hp'
  obtain ⟨hsupply, hfees⟩ := hstep.unsettled_mono (Reachable.ledger hw hp) (Reachable.feeless hw hp) hclock
  have hsf := hstep.scaleFactor_le
  refine ⟨h.scaleFactor.trans hsf, h.fees.trans hfees, ?_⟩
  have hfee := hs.fees_le hw hp hp'
  rw [accruals_cons]
  generalize (if accruesOver a ⟨w, e, w'⟩ then 1 else 0) = k at hfee ⊢
  have hsplit : p'.market.scaleFactor - p₀.market.scaleFactor + (accruals a hist + k) =
      p.market.scaleFactor - p₀.market.scaleFactor + accruals a hist +
        (p'.market.scaleFactor - p.market.scaleFactor + k) := by
    have := h.scaleFactor
    omega
  calc p'.market.accruedProtocolFees * WAD
      ≤ p.market.accruedProtocolFees * WAD +
          p.market.scaledTotalSupply * (p'.market.scaleFactor - p.market.scaleFactor + k) := hfee
    _ ≤ p₀.market.accruedProtocolFees * WAD +
          p.market.scaledTotalSupply * (p.market.scaleFactor - p₀.market.scaleFactor + accruals a hist) +
          p.market.scaledTotalSupply * (p'.market.scaleFactor - p.market.scaleFactor + k) :=
        Nat.add_le_add_right h.interest _
    _ = p₀.market.accruedProtocolFees * WAD + p.market.scaledTotalSupply *
          (p'.market.scaleFactor - p₀.market.scaleFactor + (accruals a hist + k)) := by
        rw [hsplit, add_assoc, ← mul_add]
    _ ≤ p₀.market.accruedProtocolFees * WAD + p'.market.scaledTotalSupply *
          (p'.market.scaleFactor - p₀.market.scaleFactor + (accruals a hist + k)) :=
        Nat.add_le_add_left (Nat.mul_le_mul_right _ hsupply) _

theorem Run.accrued (h : Reachable w) (hp : w.pool a = some p) (r : Run w hist w') :
    ∃ p', w'.pool a = some p' ∧ p'.market.maturityTimestamp = p.market.maturityTimestamp ∧
      (w'.clock < p.market.maturityTimestamp + SETTLEMENT_GRACE_PERIOD → p.Accrued (accruals a hist) p') := by
  induction r with
  | nil => exact ⟨p, hp, rfl, fun _ => ⟨le_rfl, le_rfl, Nat.le_add_right _ _⟩⟩
  | @cons hist w₁ w₂ e r hs ih =>
    obtain ⟨q, hq, hmaturity, hI⟩ := ih
    have hr : Reachable w₁ := r.reachable h
    obtain ⟨q', hq', hstep⟩ := hs.pool (Reachable.wellFormed hr) hq
    have hterms := hstep.terms
    simp only [Market.terms, Prod.mk.injEq] at hterms
    obtain ⟨-, -, -, -, hmaturity', -⟩ := hterms
    refine ⟨q', hq', hmaturity'.trans hmaturity, ?_⟩
    intro hclock
    obtain ⟨-, hqclock, -⟩ := World.pool_eq_some.1 hq
    obtain ⟨-, hqclock', -⟩ := World.pool_eq_some.1 hq'
    have hle := hstep.clock_le
    exact hs.accrued_cons hr hq hq' (hI (by omega)) (by omega)

end Runs

/-- Until the grace period ends, and so before maturity, the fees that a market accrues in a run with `k` accruals are
at most the increase of the scale factor and `k` more parts, on the last supply.  Every accrual by itself charges at
most its rate of its interest. -/
theorem fees_le_interest {w w' : World} {a : Address} {ma ma' : MarketAccounts} {hist : List Record}
    (h : Reachable w) (hma : w.markets.lookup a = some ma) (r : Run w hist w')
    (hma' : w'.markets.lookup a = some ma')
    (hclock : w'.clock < ma.market.maturityTimestamp + SETTLEMENT_GRACE_PERIOD) :
    (ma.market.scaleFactor ≤ ma'.market.scaleFactor ∧
      ma.market.accruedProtocolFees ≤ ma'.market.accruedProtocolFees ∧
      (ma'.market.accruedProtocolFees - ma.market.accruedProtocolFees) * WAD ≤
        ma'.market.scaledTotalSupply * (ma'.market.scaleFactor - ma.market.scaleFactor + accruals a hist)) ∧
    ∀ m m' c now, accrueInterest m c now = .ok m' →
      m.scaleFactor ≤ m'.scaleFactor ∧ m.accruedProtocolFees ≤ m'.accruedProtocolFees ∧
        (m'.accruedProtocolFees - m.accruedProtocolFees) * WAD * BPS ≤
          c.feeRateBps * (m.scaledTotalSupply * (m'.scaleFactor - m.scaleFactor + 1)) := by
  constructor
  · obtain ⟨p', hp', -, hI⟩ := Run.accrued h (World.pool_of_lookup hma) r
    obtain rfl := Option.some.inj (hp'.symm.trans (World.pool_of_lookup hma'))
    obtain ⟨hsf, hfees, hinterest⟩ := hI hclock
    refine ⟨hsf, hfees, ?_⟩
    rw [Nat.sub_mul]
    dsimp only at hinterest
    omega
  · intro m m' c now haccrue
    have hfee := accrueInterest_fee_le haccrue
    obtain ⟨_, _, rfl, hsf, hfees, -⟩ := accrueInterest_ok haccrue
    exact ⟨hsf, hfees, hfee⟩

namespace Sample

def setFee (feeRateBps : ℕ) : Action :=
  .instruction [config, signer admin, account admin] (1 :: leBytes 2 feeRateBps)

/-- A market at the largest rate, of whose interest the protocol takes all. -/
def funded : List Action := [configureWith 10000 admin, whitelist, createWith 10000 864000, deposit alice (WAD / 2)]

/-- Two deposits accrue the interest of a day each, the second at half the fee rate. -/
def growing : List Action := [.clock 86400, deposit bob (WAD / 4), setFee 5000, .clock 172800, deposit alice 1000]

end Sample

theorem fees_le_interest_growing :
    ∃ ma ma', (Sample.genesis.performAll Sample.funded).markets.lookup Sample.market = some ma ∧
      ((Sample.genesis.performAll Sample.funded).performAll Sample.growing).markets.lookup Sample.market = some ma' ∧
      accruals Sample.market ((Sample.genesis.performAll Sample.funded).history Sample.growing) = 2 ∧
      ma'.market.accruedProtocolFees - ma.market.accruedProtocolFees = 2399136798648901 ∧
      2399136798648901 * WAD ≤ ma'.market.scaledTotalSupply * (ma'.market.scaleFactor - ma.market.scaleFactor + 2) := by
  obtain ⟨ma, hma, hx⟩ := Option.map_eq_some_iff.1
    (show ((Sample.genesis.performAll Sample.funded).markets.lookup Sample.market).map
      (fun ma => (ma.market.maturityTimestamp, ma.market.accruedProtocolFees)) = some (864000, 0) by decide +kernel)
  obtain ⟨ma', hma', hx'⟩ := Option.map_eq_some_iff.1
    (show (((Sample.genesis.performAll Sample.funded).performAll Sample.growing).markets.lookup Sample.market).map
      (fun ma => ma.market.accruedProtocolFees) = some 2399136798648901 by decide +kernel)
  obtain ⟨hmaturity, hfees⟩ := Prod.mk.inj hx
  have haccruals : accruals Sample.market ((Sample.genesis.performAll Sample.funded).history Sample.growing) = 2 := by
    decide +kernel
  have hclock : ((Sample.genesis.performAll Sample.funded).performAll Sample.growing).clock <
      ma.market.maturityTimestamp + SETTLEMENT_GRACE_PERIOD := by
    rw [hmaturity]
    decide +kernel
  obtain ⟨⟨-, -, hinterest⟩, -⟩ := fees_le_interest
    (World.performAll_reachable Sample.genesis_reachable Sample.funded) hma
    (World.performAll_run _ Sample.growing) hma' hclock
  rw [haccruals, hx', hfees] at hinterest
  exact ⟨ma, ma', hma, hma', haccruals, by rw [hx', hfees], hinterest⟩

end Coalesce
