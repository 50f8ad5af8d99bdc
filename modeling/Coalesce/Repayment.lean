import Coalesce.Fees
import Coalesce.OneWay

/-!
# A market that is paid back in time

Until the settlement nothing but loans leaves the vault, so it holds the deposits and the repayments less the loans.
Once the borrower has paid what the units are worth at maturity, the settlement cannot be below par.
-/

namespace Coalesce

namespace Pool

variable {a : Address} {p p' : Pool} {e : Option Event}

/-- An unsettled market has what came in less what was lent out. -/
def Backed (p : Pool) : Prop :=
  p.market.settlementFactorWad = 0 →
    p.market.totalDeposited + p.market.totalRepaid ≤ p.vault + p.market.totalBorrowed

theorem Fresh.backed (h : p.Fresh a) : p.Backed := by
  cases h with
  | mk => exact fun _ => le_rfl

theorem Step.backed (hs : Step a p e p') (hp : p.Backed) (hf : p.Feeless) : p'.Backed := by
  intro h0
  cases hs with
  | idle _ _ hvault =>
    have := hp h0
    dsimp only
    omega
  | deposit _ _ haccrue | repay haccrue | repayInterest haccrue =>
    obtain ⟨_, _, rfl, -⟩ := accrueInterest_ok haccrue
    have := hp h0
    dsimp only at this ⊢
    omega
  | borrow _ haccrue hamount =>
    obtain ⟨_, _, rfl, -⟩ := accrueInterest_ok haccrue
    have := hp h0
    dsimp only at this ⊢
    omega
  | exit _ _ hsettles _ _ _ _ htracks =>
    refine absurd ?_ hsettles.ne_zero
    rw [htracks.shape.market] at h0
    exact h0
  | claim hsettled _ _ _ hrecord =>
    rw [(recordClaim_shape hrecord).market] at h0
    exact absurd h0 hsettled
  | reSettle _ _ _ _ himproved => exact absurd h0 (Nat.ne_zero_of_lt himproved)
  | collectFees hsolvent hwaiting haccrue _ hfees hpayout =>
    obtain ⟨_, _, hm, -⟩ := accrueInterest_ok haccrue
    have hunsettled : p.market.settlementFactorWad = 0 := by
      rw [hm] at h0
      exact h0
    have hsupply : p.market.scaledTotalSupply = 0 :=
      hwaiting.resolve_right fun h => absurd (hunsettled.symm.trans h) WAD_pos.ne
    have hzero := (accrueInterest_empty haccrue hsupply).trans (hf hunsettled hsupply)
    have := hp hunsettled
    rw [hm]
    dsimp only
    omega
  | withdrawExcess _ _ hsettled => exact absurd h0 (WAD_pos.trans_le hsettled).ne'
  | close => exact hp h0

/-- The market is accrued to its maturity, and what came in, less the loans, is worth all of its units. -/
structure PaidUp (p : Pool) : Prop where
  unsettled : p.market.settlementFactorWad = 0
  accrued : p.market.lastAccrualTimestamp = p.market.maturityTimestamp
  covers : p.face + p.market.totalBorrowed ≤ p.market.totalDeposited + p.market.totalRepaid

/-- A market that is accrued to its maturity has matured, and accrues no more. -/
theorem PaidUp.accrue (h : p.PaidUp) {m : Market} {c : ProtocolConfig}
    (haccrue : accrueInterest p.market c p.clock = .ok m) : p.market.maturityTimestamp ≤ p.clock ∧ m = p.market := by
  obtain ⟨_, _, -, -, -, hle⟩ := accrueInterest_ok haccrue
  have hmatured : p.market.maturityTimestamp ≤ p.clock := (h.accrued.ge.trans hle).trans (min_le_left _ _)
  rw [accrueInterest_matured c h.accrued hmatured] at haccrue
  exact ⟨hmatured, (Except.ok.inj haccrue).symm⟩

/-- A vault that covers the face value settles at par. -/
theorem Settles.par {clock : ℤ} {vault : ℕ} {m m' : Market} (h : Settles clock vault m m')
    (h0 : m.settlementFactorWad = 0) (hcover : m.scaledTotalSupply * m.scaleFactor / WAD ≤ vault) :
    m'.settlementFactorWad = WAD := by
  rcases h with ⟨hne, -⟩ | ⟨-, -, total, factor, htotal, hfactor, rfl⟩
  · exact absurd h0 hne
  · obtain ⟨-, rfl⟩ := totalNormalized_eq_ok.1 htotal
    rcases computeSettlementFactor_eq_ok.1 hfactor with ⟨-, rfl⟩ | ⟨hz, -, rfl⟩
    · rfl
    · refine le_antisymm (clampFactor_bounds _).2 (le_clampFactor ?_ le_rfl)
      rw [Nat.le_div_iff_mul_le (Nat.pos_of_ne_zero hz), Nat.mul_comm]
      exact Nat.mul_le_mul_right _ hcover

/-- The market is at par, and it never was below. -/
structure Clean (p : Pool) : Prop where
  par : p.market.settlementFactorWad = WAD
  owed : p.market.haircutAccumulator = 0

/-- At par an exit leaves no haircut. -/
theorem Step.clean (hs : Step a p e p') (hp : p.Clean) (hl : p.Ledger) : p'.Clean := by
  have hpar : p'.market.settlementFactorWad = WAD := by
    have hle := hs.factor_le hl
    rw [hp.par] at hle
    exact le_antisymm ((hs.ledger hl).settled (WAD_pos.trans_le hle).ne').le_wad hle
  refine ⟨hpar, ?_⟩
  have h0 : p.market.settlementFactorWad ≠ 0 := hp.par.trans_ne WAD_pos.ne'
  cases hs with
  | idle | withdrawExcess | close => exact hp.owed
  | deposit _ _ haccrue | borrow _ haccrue | repay haccrue | repayInterest haccrue | reSettle _ haccrue
  | collectFees _ _ haccrue =>
    obtain ⟨_, _, rfl, -⟩ := accrueInterest_ok haccrue
    exact hp.owed
  | exit _ haccrue hsettles _ _ _ _ htracks =>
    obtain rfl := hl.accrue_settled haccrue h0
    obtain rfl := hsettles.eq_of_ne_zero h0
    rcases htracks with ⟨hlt, -⟩ | ⟨-, rfl⟩
    · exact absurd hp.par hlt.ne
    · exact hp.owed
  | claim _ _ _ _ hrecord =>
    obtain ⟨_, _, -, -, -, -, rfl⟩ := recordClaim_eq_ok.1 hrecord
    show p.market.haircutAccumulator - _ = 0
    rw [hp.owed, Nat.zero_sub]

/-- The first exit of a market that is paid up settles it at par. -/
theorem Step.paidUp (hs : Step a p e p') (hp : p.PaidUp) (hl : p.Ledger) (hb : p.Backed) : p'.PaidUp ∨ p'.Clean := by
  have hcovers := hp.covers
  have h0 := hp.unsettled
  cases hs with
  | idle => exact .inl ⟨h0, hp.accrued, hcovers⟩
  | deposit _ htime haccrue | borrow htime haccrue => exact absurd htime (hp.accrue haccrue).1.not_gt
  | repay haccrue | repayInterest haccrue =>
    obtain ⟨-, rfl⟩ := hp.accrue haccrue
    exact .inl ⟨h0, hp.accrued, hcovers.trans (Nat.add_le_add_left (Nat.le_add_right _ _) _)⟩
  | exit _ haccrue hsettles _ _ _ _ htracks =>
    obtain ⟨-, rfl⟩ := hp.accrue haccrue
    have hbacked := hb h0
    have hpar := hsettles.par h0 (by unfold face at hcovers; omega)
    right
    rcases htracks with ⟨hlt, -⟩ | ⟨-, rfl⟩
    · exact absurd hpar hlt.ne
    · refine ⟨hpar, ?_⟩
      rw [hsettles.shape]
      exact hl.unsettled h0
  | claim hsettled | reSettle hsettled => exact absurd h0 hsettled
  | collectFees _ _ haccrue =>
    obtain ⟨-, rfl⟩ := hp.accrue haccrue
    exact .inl ⟨h0, hp.accrued, hcovers⟩
  | withdrawExcess _ _ hsettled => exact absurd h0 (WAD_pos.trans_le hsettled).ne'
  | close => exact .inl ⟨h0, hp.accrued, hcovers⟩

end Pool

theorem Reachable.backed {w : World} (h : Reachable w) {a : Address} {p : Pool} (hp : w.pool a = some p) : p.Backed :=
  (Reachable.pool_invariant (I := fun p => p.Backed ∧ p.Feeless)
    (fun _ hfresh => ⟨hfresh.backed, fun _ _ => by cases hfresh; rfl⟩)
    (fun _ _ _ hp hs => ⟨hs.backed hp.1 hp.2, hs.feeless hp.2⟩) h hp).1

/-- A market that is accrued to its maturity and has received what its units are worth beyond the deposits, on top of
the loans, is never settled below par, and no lender of it is ever owed a haircut. -/
theorem paid_up_never_distressed {w w' : World} (h : Reachable w) {a : Address} {ma : MarketAccounts}
    (hma : w.markets.lookup a = some ma) (h0 : ma.market.settlementFactorWad = 0)
    (haccrued : ma.market.lastAccrualTimestamp = ma.market.maturityTimestamp)
    (hpaid : ma.market.scaledTotalSupply * ma.market.scaleFactor / WAD + ma.market.totalBorrowed ≤
      ma.market.totalDeposited + ma.market.totalRepaid)
    {hist : List Record} (r : Run w hist w') :
    ∃ ma', w'.markets.lookup a = some ma' ∧
      (ma'.market.settlementFactorWad = 0 ∨ ma'.market.settlementFactorWad = WAD) ∧
      ma'.market.haircutAccumulator = 0 := by
  obtain ⟨p', hp', hstate⟩ := Run.pool_invariant (I := fun _ p => p.PaidUp ∨ p.Clean) h (World.pool_of_lookup hma)
    (.inl ⟨h0, haccrued, hpaid⟩) (fun hist x q q' hr hq _ hs hI => by
      have hl := Reachable.ledger hr hq
      rcases hI with hI | hI
      · exact hs.paidUp hI hl (Reachable.backed hr hq)
      · exact .inr (hs.clean hI hl)) r
  refine ⟨_, (World.pool_eq_some.1 hp').1, ?_⟩
  rcases hstate with hpaid | hclean
  · exact ⟨.inl hpaid.unsettled, (Reachable.ledger (r.reachable h) hp').unsettled hpaid.unsettled⟩
  · exact ⟨.inr hclean.par, hclean.owed⟩

namespace Sample

/-- The loan of 8 comes back at maturity. -/
def returned : List Action :=
  [configure, whitelist, create, deposit alice 6, deposit bob 10, borrow 8, .clock 100, repay 8]

end Sample

/-- The first exit finds the market at par. -/
theorem paid_up_never_distressed_returned :
    ∃ ma', ((Sample.genesis.performAll Sample.returned).performAll
      [.clock 400, Sample.withdraw Sample.alice 2]).markets.lookup Sample.market = some ma' ∧
      (ma'.market.settlementFactorWad = 0 ∨ ma'.market.settlementFactorWad = WAD) ∧
      ma'.market.haircutAccumulator = 0 := by
  obtain ⟨ma, hma, hx⟩ := Option.map_eq_some_iff.1
    (show ((Sample.genesis.performAll Sample.returned).markets.lookup Sample.market).map
      (fun ma => decide (ma.market.settlementFactorWad = 0 ∧
        ma.market.lastAccrualTimestamp = ma.market.maturityTimestamp ∧
        ma.market.scaledTotalSupply * ma.market.scaleFactor / WAD + ma.market.totalBorrowed ≤
          ma.market.totalDeposited + ma.market.totalRepaid)) = some true by decide +kernel)
  obtain ⟨h0, haccrued, hpaid⟩ := of_decide_eq_true hx
  exact paid_up_never_distressed (World.performAll_reachable Sample.genesis_reachable Sample.returned) hma h0 haccrued
    hpaid (World.performAll_run _ [.clock 400, Sample.withdraw Sample.alice 2])

end Coalesce
