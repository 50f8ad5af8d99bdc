import Coalesce.Program

/-!
# One market as a machine of its own

A `Pool` is what the program keeps about one market: its accounts, the balance of its vault, and the clock.
`Pool.Step` lists what can happen to it, with the checks that matter to its bookkeeping and without the account
lists; the two exits and the two claims of the program are one step each.  The invariants of a market are proved
over these steps, and `Coalesce.Refinement` shows that the program takes no others.
-/

namespace Coalesce

structure Pool extends MarketAccounts where
  clock : ℤ
  vault : ℕ

/-- The pool of a market in a state of the chain. -/
def World.pool (w : World) (a : Address) : Option Pool :=
  (w.markets.lookup a).map fun accounts => { accounts with clock := w.clock, vault := w.tokens.amount (.vault a) }

/-- The market that an event is about. -/
def Event.market : Event → Option Address
  | createMarket a .. | deposit a .. | borrow a .. | repay a .. | repayInterest a .. | withdraw a .. => some a
  | collectFees a .. | reSettle a .. | closePosition a .. | withdrawExcess a .. | forceClose a .. => some a
  | claimHaircut a .. | forceClaimHaircut a .. => some a
  | _ => none

/-- An exit of `scaled` units that pays `payout`. -/
def Event.IsExit (e : Event) (a lender : Address) (payout scaled : ℕ) : Prop :=
  e = .withdraw a lender payout scaled ∨ e = .forceClose a lender payout scaled

/-- A claim that pays `claimed` and leaves `remaining`. -/
def Event.IsClaim (e : Event) (a lender : Address) (claimed remaining : ℕ) : Prop :=
  e = .claimHaircut a lender claimed remaining ∨ e = .forceClaimHaircut a lender claimed remaining

namespace Pool

/-- The pool of a market that was just created at the address `a`. -/
inductive Fresh (a : Address) : Pool → Prop
  | mk {borrower : Address} {annualInterestBps maxTotalSupply marketNonce : ℕ} {maturityTimestamp clock : ℤ}
      (hborrower : borrower.isKey)
      (haddress : a = .market borrower marketNonce)
      (hrate : annualInterestBps ≤ MAX_ANNUAL_INTEREST_BPS)
      (hmin : clock + MIN_MATURITY_DELTA < maturityTimestamp)
      (hmax : maturityTimestamp ≤ clock + MAX_MATURITY_DELTA)
      (hgrace : maturityTimestamp + SETTLEMENT_GRACE_PERIOD ≤ i64Max)
      (hcap : maxTotalSupply ≠ 0) :
      Fresh a { freshMarket borrower (.vault a) a annualInterestBps maturityTimestamp maxTotalSupply marketNonce clock
        with clock, vault := 0 }

/-- An unsettled market is settled by the first exit after the grace period. -/
def Settles (clock : ℤ) (vault : ℕ) (m m' : Market) : Prop :=
  (m.settlementFactorWad ≠ 0 ∧ m' = m) ∨
    (m.settlementFactorWad = 0 ∧ m.maturityTimestamp + SETTLEMENT_GRACE_PERIOD ≤ clock ∧
      ∃ total factor, totalNormalized m = .ok total ∧ computeSettlementFactor vault total = .ok factor ∧
        m' = { m with settlementFactorWad := factor })

/-- The haircut bookkeeping of an exit with face value `n`, of which `pay` is covered. -/
def Tracks (m : Market) (hs : HaircutState) (position : LenderPosition) (n pay : ℕ) (t : Tracked) : Prop :=
  (m.settlementFactorWad < WAD ∧ pay < n ∧ n ≤ u64Max ∧ recordGap m position hs (n - pay) pay = .ok t) ∨
    ((WAD ≤ m.settlementFactorWad ∨ n ≤ pay) ∧
      t = { market := m, position := position, haircutState := hs, payout := pay })

/-- The steps of the pool of the market at the address `a`. -/
inductive Step (a : Address) (p : Pool) : Option Event → Pool → Prop
  | idle {e : Option Event} {clock : ℤ} {vault : ℕ} (he : e.bind Event.market ≠ some a) (hclock : p.clock ≤ clock)
      (hvault : p.vault ≤ vault) : Step a p e { p with clock, vault }
  | deposit {config : ProtocolConfig} {m : Market} {lender : Address} {amount scaled : ℕ} {position : LenderPosition}
      (hlender : lender.isKey)
      (htime : p.clock < p.market.maturityTimestamp)
      (haccrue : accrueInterest p.market config p.clock = .ok m)
      (hfactor : m.scaleFactor ≠ 0)
      (hscaled : scaled = amount * WAD / m.scaleFactor)
      (hcap : m.totalDeposited + amount ≤ m.maxTotalSupply)
      (hposition : depositPosition (p.positions.lookup lender) a lender scaled = .ok position) :
      Step a p (some (.deposit a lender amount scaled))
        { p with
          market := { m with
            scaledTotalSupply := m.scaledTotalSupply + scaled, totalDeposited := m.totalDeposited + amount }
          positions := p.positions.insert lender position
          vault := p.vault + amount }
  | borrow {config : ProtocolConfig} {m : Market} {borrower : Address} {amount : ℕ}
      (htime : p.clock < p.market.maturityTimestamp)
      (haccrue : accrueInterest p.market config p.clock = .ok m)
      (hamount : amount ≤ p.vault) :
      Step a p (some (.borrow a borrower amount))
        { p with market := { m with totalBorrowed := m.totalBorrowed + amount }, vault := p.vault - amount }
  | repay {config : ProtocolConfig} {m : Market} {payer : Address} {amount debt : ℕ}
      (haccrue : accrueInterest p.market config p.clock = .ok m) :
      Step a p (some (.repay a payer amount debt))
        { p with market := { m with totalRepaid := m.totalRepaid + amount }, vault := p.vault + amount }
  | repayInterest {config : ProtocolConfig} {m : Market} {payer : Address} {amount total : ℕ}
      (haccrue : accrueInterest p.market config p.clock = .ok m) :
      Step a p (some (.repayInterest a payer amount total))
        { p with
          market := { m with
            totalRepaid := m.totalRepaid + amount, totalInterestRepaid := m.totalInterestRepaid + amount }
          vault := p.vault + amount }
  | exit {config : ProtocolConfig} {m m' : Market} {lender : Address} {position : LenderPosition}
      {scaled n pay : ℕ} {t : Tracked} {e : Event}
      (hmatured : p.market.maturityTimestamp ≤ p.clock)
      (haccrue : accrueInterest p.market config p.clock = .ok m)
      (hsettles : Settles p.clock p.vault m m')
      (hposition : p.positions.lookup lender = some position)
      (hscaled : 0 < scaled)
      (hle : scaled ≤ position.scaledBalance)
      (hamounts : exitAmounts m' scaled = .ok (n, pay))
      (htracks : Tracks m' p.haircutState position n pay t)
      (htotal : scaled ≤ t.market.scaledTotalSupply)
      (hpayout : t.payout ≤ p.vault)
      (he : e.IsExit a lender t.payout scaled) (deposited : ℕ) :
      Step a p (some e)
        { p with
          market := { t.market with
            scaledTotalSupply := t.market.scaledTotalSupply - scaled, totalDeposited := deposited }
          haircutState := t.haircutState
          positions := p.positions.insert lender
            { t.position with scaledBalance := t.position.scaledBalance - scaled }
          vault := p.vault - t.payout }
  | claim {lender : Address} {position : LenderPosition} {exact claimed : ℕ} {t : Tracked} {e : Event}
      (hsettled : p.market.settlementFactorWad ≠ 0)
      (hposition : p.positions.lookup lender = some position)
      (hexact : claimableNow p.market position = .ok exact)
      (hcap : capAtSurplus p.market p.vault exact = .ok claimed)
      (hrecord : recordClaim p.market position p.haircutState claimed = .ok t)
      (hpayout : claimed ≤ p.vault)
      (he : e.IsClaim a lender claimed t.position.haircutOwed) :
      Step a p (some e)
        { p with
          market := t.market
          haircutState := t.haircutState
          positions := p.positions.insert lender t.position
          vault := p.vault - claimed }
  | reSettle {config : ProtocolConfig} {m : Market} {total factor : ℕ}
      (hsettled : p.market.settlementFactorWad ≠ 0)
      (haccrue : accrueInterest p.market config p.clock = .ok m)
      (htotal : totalNormalized m = .ok total)
      (hfactor : computeResettleFactor p.vault total p.haircutState.claimWeightSum p.haircutState.claimOffsetSum =
        .ok factor)
      (himproved : p.market.settlementFactorWad < factor) :
      Step a p (some (.reSettle a factor)) { p with market := { m with settlementFactorWad := factor } }
  | collectFees {config : ProtocolConfig} {m : Market} {amount : ℕ}
      (hsolvent : p.market.settlementFactorWad = 0 ∨ WAD ≤ p.market.settlementFactorWad)
      (hwaiting : p.market.scaledTotalSupply = 0 ∨ p.market.settlementFactorWad = WAD)
      (haccrue : accrueInterest p.market config p.clock = .ok m)
      (hamount : withdrawableFees m p.vault = .ok amount)
      (hfees : amount ≤ m.accruedProtocolFees)
      (hpayout : amount ≤ p.vault) :
      Step a p (some (.collectFees a amount))
        { p with
          market := { m with accruedProtocolFees := m.accruedProtocolFees - amount }, vault := p.vault - amount }
  | withdrawExcess {borrower : Address} {vault : ℕ}
      (hmatured : p.market.maturityTimestamp ≤ p.clock)
      (hempty : p.market.scaledTotalSupply = 0)
      (hsettled : WAD ≤ p.market.settlementFactorWad)
      (hfees : p.market.accruedProtocolFees = 0)
      (hvault : vault = p.vault - (p.vault - p.market.haircutAccumulator) ∨ vault = p.vault) :
      Step a p (some (.withdrawExcess a borrower (p.vault - p.market.haircutAccumulator))) { p with vault }
  | close {lender : Address} {position : LenderPosition}
      (hposition : p.positions.lookup lender = some position)
      (hbalance : position.scaledBalance = 0)
      (howed : position.haircutOwed = 0) :
      Step a p (some (.closePosition a lender)) { p with positions := p.positions.erase lender }

end Pool

/-! ### The two kinds of exit -/

/-- The lender asks for a number of scaled units, 0 meaning all; the borrower closes the whole position. -/
inductive Exit
  | withdraw (scaled : ℕ)
  | forceClose

namespace Exit

/-- The units that leave a position with the balance `balance`. -/
def units : Exit → (balance : ℕ) → ℕ
  | withdraw scaled, balance => if scaled = 0 then balance else scaled
  | forceClose, balance => balance

/-- The smallest covered amount that is not rejected. -/
def minimum : Exit → ℕ
  | withdraw _ => 1
  | forceClose => 0

/-- Only `withdraw` takes its payout off the deposits. -/
def deposited : Exit → (totalDeposited payout : ℕ) → ℕ
  | withdraw _, totalDeposited, payout => totalDeposited - payout
  | forceClose, totalDeposited, _ => totalDeposited

def event : Exit → (a lender : Address) → (payout scaled : ℕ) → Event
  | withdraw _, a, lender, payout, scaled => .withdraw a lender payout scaled
  | forceClose, a, lender, payout, scaled => .forceClose a lender payout scaled

theorem units_pos {x : Exit} {balance : ℕ} (h : balance ≠ 0) : 0 < x.units balance := by
  cases x with
  | withdraw scaled =>
    show 0 < if scaled = 0 then balance else scaled
    split <;> omega
  | forceClose => exact Nat.pos_of_ne_zero h

theorem event_isExit {x : Exit} {a lender : Address} {payout scaled : ℕ} :
    (x.event a lender payout scaled).IsExit a lender payout scaled := by
  cases x with
  | withdraw => exact .inl rfl
  | forceClose => exact .inr rfl

end Exit

namespace Pool

/-- An exit `x` of `lender` takes `scaled` units out of the settled pool `p` and pays `payout`. -/
inductive Pays (lender : Address) (x : Exit) (p : Pool) : (scaled payout : ℕ) → Pool → Prop
  | mk {position : LenderPosition} {n pay : ℕ} {t : Tracked}
      (hposition : p.positions.lookup lender = some position)
      (hbalance : position.scaledBalance ≠ 0)
      (hle : x.units position.scaledBalance ≤ position.scaledBalance)
      (hamounts : exitAmounts p.market (x.units position.scaledBalance) = .ok (n, pay))
      (hpay : x.minimum ≤ pay)
      (htracks : Tracks p.market p.haircutState position n pay t)
      (htotal : x.units position.scaledBalance ≤ t.market.scaledTotalSupply)
      (hpayout : t.payout ≤ p.vault) :
      Pays lender x p (x.units position.scaledBalance) t.payout
        { p with
          market := { t.market with
            scaledTotalSupply := t.market.scaledTotalSupply - x.units position.scaledBalance
            totalDeposited := x.deposited t.market.totalDeposited t.payout }
          haircutState := t.haircutState
          positions := p.positions.insert lender
            { t.position with scaledBalance := t.position.scaledBalance - x.units position.scaledBalance }
          vault := p.vault - t.payout }

/-- An exit settles the pool first if need be. -/
inductive Exits (config : ProtocolConfig) (lender : Address) (x : Exit) (p : Pool) (scaled payout : ℕ) (p' : Pool) :
    Prop
  | mk {m m' : Market}
      (hmatured : p.market.maturityTimestamp ≤ p.clock)
      (haccrue : accrueInterest p.market config p.clock = .ok m)
      (hsettles : Settles p.clock p.vault m m')
      (hpays : Pays lender x { p with market := m' } scaled payout p')

theorem Exits.step {a lender : Address} {config : ProtocolConfig} {x : Exit} {p p' : Pool} {scaled payout : ℕ}
    (h : p.Exits config lender x scaled payout p') : Step a p (some (x.event a lender payout scaled)) p' := by
  cases h with
  | mk hmatured haccrue hsettles hpays =>
    cases hpays with
    | mk hposition hbalance hle hamounts _ htracks htotal hpayout =>
      exact .exit hmatured haccrue hsettles hposition (Exit.units_pos hbalance) hle hamounts htracks htotal hpayout
        Exit.event_isExit _

/-! ### What the bookkeeping does not touch -/

theorem Settles.shape {clock : ℤ} {vault : ℕ} {m m' : Market} (h : Settles clock vault m m') :
    m' = { m with settlementFactorWad := m'.settlementFactorWad } := by
  rcases h with ⟨-, rfl⟩ | ⟨-, -, _, _, -, -, rfl⟩ <;> rfl

end Pool

/-- The bookkeeping of an exit or a claim edits the accumulator, the two haircut fields of the position and the two
sums. -/
structure Tracked.Shape (t : Tracked) (m : Market) (position : LenderPosition) (hs : HaircutState) : Prop where
  market : t.market = { m with haircutAccumulator := t.market.haircutAccumulator }
  position : t.position =
    { position with haircutOwed := t.position.haircutOwed, withdrawalSf := t.position.withdrawalSf }
  haircutState : t.haircutState.market = hs.market

section Shape

variable {m : Market} {position : LenderPosition} {hs hs' : HaircutState} {t : Tracked}

private theorem removeContribution_market {owed sf : ℕ} (h : removeContribution hs owed sf = .ok hs') :
    hs'.market = hs.market := by
  obtain ⟨_, -, rfl⟩ := removeContribution_eq_ok.1 h
  rfl

private theorem addContribution_market {owed sf : ℕ} (h : addContribution hs owed sf = .ok hs') :
    hs'.market = hs.market := by
  obtain ⟨_, -, -, -, rfl⟩ := addContribution_eq_ok.1 h
  rfl

theorem recordGap_shape {gap payout : ℕ} (h : recordGap m position hs gap payout = .ok t) :
    t.Shape m position hs := by
  obtain ⟨_, _, _, h₁, -, -, -, -, h₂, rfl⟩ := recordGap_eq_ok.1 h
  exact ⟨rfl, rfl, (addContribution_market h₂).trans (removeContribution_market h₁)⟩

theorem Pool.Tracks.shape {n pay : ℕ} (h : Pool.Tracks m hs position n pay t) : t.Shape m position hs := by
  rcases h with ⟨-, -, -, h⟩ | ⟨-, rfl⟩
  · exact recordGap_shape h
  · exact ⟨rfl, rfl, rfl⟩

theorem recordClaim_shape {claimed : ℕ} (h : recordClaim m position hs claimed = .ok t) : t.Shape m position hs := by
  obtain ⟨_, hs', -, -, -, hadd, rfl⟩ := recordClaim_eq_ok.1 h
  refine ⟨rfl, rfl, ?_⟩
  split at hadd
  · exact (addContribution_market hadd :)
  · exact (congrArg HaircutState.market (Except.ok.inj hadd)).symm

end Shape

/-! ### The terms of a market -/

/-- The fields that never change after creation. -/
def Market.terms (m : Market) : Address × Address × Address × ℕ × ℤ × ℕ × ℕ :=
  (m.borrower, m.mint, m.vault, m.annualInterestBps, m.maturityTimestamp, m.maxTotalSupply, m.marketNonce)

theorem accrueInterest_terms {m m' : Market} {c : ProtocolConfig} {now : ℤ} (h : accrueInterest m c now = .ok m') :
    m'.terms = m.terms := by
  obtain ⟨_, _, rfl, -⟩ := accrueInterest_ok h
  rfl

theorem Pool.Settles.terms {clock : ℤ} {vault : ℕ} {m m' : Market} (h : Pool.Settles clock vault m m') :
    m'.terms = m.terms := by
  rw [h.shape]
  rfl

theorem Tracked.Shape.terms {t : Tracked} {m : Market} {position : LenderPosition} {hs : HaircutState}
    (h : t.Shape m position hs) : t.market.terms = m.terms := by
  rw [h.market]
  rfl

theorem Pool.Step.terms {a : Address} {p p' : Pool} {e : Option Event} (h : Pool.Step a p e p') :
    p'.market.terms = p.market.terms := by
  cases h with
  | idle | withdrawExcess | close => rfl
  | deposit _ _ haccrue => exact (accrueInterest_terms haccrue :)
  | borrow _ haccrue => exact (accrueInterest_terms haccrue :)
  | repay haccrue => exact (accrueInterest_terms haccrue :)
  | repayInterest haccrue => exact (accrueInterest_terms haccrue :)
  | exit _ haccrue hsettles _ _ _ _ htracks =>
    exact htracks.shape.terms.trans (hsettles.terms.trans (accrueInterest_terms haccrue))
  | claim _ _ _ _ hrecord => exact (recordClaim_shape hrecord).terms
  | reSettle _ haccrue => exact (accrueInterest_terms haccrue :)
  | collectFees _ _ haccrue => exact (accrueInterest_terms haccrue :)

theorem Pool.Step.scaleFactor_le {a : Address} {p p' : Pool} {e : Option Event} (h : Pool.Step a p e p') :
    p.market.scaleFactor ≤ p'.market.scaleFactor := by
  have haccrued {m : Market} {c : ProtocolConfig} (haccrue : accrueInterest p.market c p.clock = .ok m) :
      p.market.scaleFactor ≤ m.scaleFactor := by
    obtain ⟨_, _, rfl, hle, -⟩ := accrueInterest_ok haccrue
    exact hle
  cases h with
  | idle | withdrawExcess | close => exact le_rfl
  | deposit _ _ haccrue | borrow _ haccrue | repay haccrue | repayInterest haccrue => exact (haccrued haccrue :)
  | reSettle _ haccrue | collectFees _ _ haccrue => exact (haccrued haccrue :)
  | exit _ haccrue hsettles _ _ _ _ htracks =>
    dsimp only
    rw [htracks.shape.market, hsettles.shape]
    exact (haccrued haccrue :)
  | claim _ _ _ _ hrecord =>
    dsimp only
    rw [(recordClaim_shape hrecord).market]

theorem Pool.Step.clock_le {a : Address} {p p' : Pool} {e : Option Event} (h : Pool.Step a p e p') :
    p.clock ≤ p'.clock := by
  cases h with
  | idle _ hclock => exact hclock
  | _ => exact le_rfl

/-- A step that is not about the market leaves its accounts alone, and its vault can only receive tokens. -/
theorem Pool.Step.idle_of_ne {a : Address} {p p' : Pool} {e : Option Event} (h : Pool.Step a p e p')
    (he : e.bind Event.market ≠ some a) : p'.toMarketAccounts = p.toMarketAccounts ∧ p.vault ≤ p'.vault := by
  cases h with
  | idle _ _ hvault => exact ⟨rfl, hvault⟩
  | exit _ _ _ _ _ _ _ _ _ _ hexit => rcases hexit with rfl | rfl <;> exact absurd rfl he
  | claim _ _ _ _ _ _ hclaim => rcases hclaim with rfl | rfl <;> exact absurd rfl he
  | _ => exact absurd rfl he

end Coalesce
