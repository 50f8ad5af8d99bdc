import Coalesce.Processor.Lending

/-!
# Exits

`withdraw` by the lender and `forceClosePosition` by the borrower: the first of them settles the market, each pays
the exited face value at the settlement factor, and in distress the unpaid gap is recorded on the position and in the
aggregates.
-/

namespace Coalesce

open LendingError

def totalNormalized (m : Market) : Result ℕ := do
  let product ← checkedMul u128Max m.scaledTotalSupply m.scaleFactor
  checkedDiv product WAD

theorem totalNormalized_eq_ok {m : Market} {r : ℕ} : totalNormalized m = .ok r ↔
    m.scaledTotalSupply * m.scaleFactor ≤ u128Max ∧ r = m.scaledTotalSupply * m.scaleFactor / WAD := by
  simp [totalNormalized, WAD_pos.ne', @eq_comm _ r]

/-- The first settlement factor: vault balance over face value, clamped to `[1, WAD]`. -/
def computeSettlementFactor (available totalNormalized : ℕ) : Result ℕ :=
  if totalNormalized = 0 then .ok WAD
  else do
    let product ← checkedMul u128Max available WAD
    let raw ← checkedDiv product totalNormalized
    .ok (clampFactor raw)

theorem computeSettlementFactor_eq_ok {v r f : ℕ} : computeSettlementFactor v r = .ok f ↔
    (r = 0 ∧ f = WAD) ∨ (r ≠ 0 ∧ v * WAD ≤ u128Max ∧ f = clampFactor (v * WAD / r)) := by
  unfold computeSettlementFactor
  split
  · simp [*, @eq_comm _ f]
  · simp [*, and_assoc, @eq_comm _ f]

theorem computeSettlementFactor_bounds {v r f : ℕ} (h : computeSettlementFactor v r = .ok f) : 1 ≤ f ∧ f ≤ WAD := by
  rcases computeSettlementFactor_eq_ok.1 h with ⟨-, rfl⟩ | ⟨-, -, rfl⟩
  · exact ⟨WAD_pos, le_rfl⟩
  · exact clampFactor_bounds _

/-- `maturity + SETTLEMENT_GRACE_PERIOD` has passed. -/
def checkGracePeriod (w : World) (m : Market) : Result Unit := do
  let graceEnd ← checkedAddI64 m.maturityTimestamp SETTLEMENT_GRACE_PERIOD
  require (graceEnd ≤ w.clock) settlementGracePeriod

/-- Fix the settlement factor from the whole vault balance. -/
def settle (w : World) (m : Market) (vault : AccountMeta) : Result Market := do
  let vaultToken ← loadVault w m.mint vault
  let total ← totalNormalized m
  let factor ← computeSettlementFactor vaultToken.amount total
  .ok { m with settlementFactorWad := factor }

/-- Step 2 of `withdraw`: the first withdrawal after the grace period settles the market. -/
def settleOnWithdraw (w : World) (m : Market) (vault : AccountMeta) : Result Market :=
  if m.settlementFactorWad = 0 then do
    checkGracePeriod w m
    settle w m vault
  else .ok m

/-- The same step of `forceClosePosition`, which has checked the grace period before. -/
def settleOnForceClose (w : World) (m : Market) (vault : AccountMeta) : Result Market :=
  if m.settlementFactorWad = 0 then do
    requireTokenOwned w vault
    let vaultToken ← loadTokenAccount w vault
    require (vaultToken.mint = m.mint) invalidMint
    validateMarketState m
    settle w m vault
  else .ok m

/-- Face value and payout of `scaledAmount` units. -/
def exitAmounts (m : Market) (scaledAmount : ℕ) : Result (ℕ × ℕ) := do
  let face ← checkedMul u128Max scaledAmount m.scaleFactor
  let normalizedAmount ← checkedDiv face WAD
  let product ← checkedMul u128Max normalizedAmount m.settlementFactorWad
  let payoutU128 ← checkedDiv product WAD
  let payout ← tryU64 payoutU128
  .ok (normalizedAmount, payout)

theorem exitAmounts_eq_ok {m : Market} {scaled : ℕ} {r : ℕ × ℕ} : exitAmounts m scaled = .ok r ↔
    scaled * m.scaleFactor ≤ u128Max ∧
      scaled * m.scaleFactor / WAD * m.settlementFactorWad ≤ u128Max ∧
      scaled * m.scaleFactor / WAD * m.settlementFactorWad / WAD ≤ u64Max ∧
      r = (scaled * m.scaleFactor / WAD, scaled * m.scaleFactor / WAD * m.settlementFactorWad / WAD) := by
  simp only [exitAmounts, bind_eq_ok, checkedMul_eq_ok, checkedDiv_eq_ok, tryU64_eq_ok, Except.ok.injEq]
  constructor
  · rintro ⟨_, ⟨h1, rfl⟩, _, ⟨-, rfl⟩, _, ⟨h2, rfl⟩, _, ⟨-, rfl⟩, _, ⟨h3, rfl⟩, rfl⟩
    exact ⟨h1, h2, h3, rfl⟩
  · rintro ⟨h1, h2, h3, rfl⟩
    exact ⟨_, ⟨h1, rfl⟩, _, ⟨WAD_pos.ne', rfl⟩, _, ⟨h2, rfl⟩, _, ⟨WAD_pos.ne', rfl⟩, _, ⟨h3, rfl⟩, rfl⟩

/-- What the haircut bookkeeping of an exit or a claim leaves behind. -/
structure Tracked where
  market : Market
  position : LenderPosition
  haircutState : HaircutState
  payout : ℕ

/-- Remove the line of a position from the aggregate. -/
def removeContribution (hs : HaircutState) (owed sf : ℕ) : Result HaircutState :=
  if 0 < owed then do
    let old ← positionContribution owed sf
    .ok { hs with claimWeightSum := hs.claimWeightSum - old.1, claimOffsetSum := hs.claimOffsetSum - old.2 }
  else .ok hs

/-- Add the line of a position to the aggregate. -/
def addContribution (hs : HaircutState) (owed sf : ℕ) : Result HaircutState := do
  let new ← positionContribution owed sf
  let wSum ← checkedAdd u128Max hs.claimWeightSum new.1
  let oSum ← checkedAdd u128Max hs.claimOffsetSum new.2
  .ok { hs with claimWeightSum := wSum, claimOffsetSum := oSum }

/-- The owed amount of a position at the anchor `sf`. -/
def rebasedOwed (position : LenderPosition) (sf : ℕ) : Result ℕ :=
  if 0 < position.haircutOwed ∧ position.withdrawalSf ≠ sf then
    rebaseRemainingOwed position.haircutOwed position.withdrawalSf sf
  else .ok position.haircutOwed

/-- Record a new gap on top of what the position is still owed; what an older haircut has recovered since its
anchor is paid out with this exit. -/
def recordGap (m : Market) (position : LenderPosition) (hs : HaircutState) (gap payout : ℕ) : Result Tracked := do
  let sf := m.settlementFactorWad
  let hs ← removeContribution hs position.haircutOwed position.withdrawalSf
  let rebased ← rebasedOwed position sf
  let recovered := position.haircutOwed - rebased
  let payout ← checkedAdd u64Max payout recovered
  let newOwed ← checkedAdd u64Max rebased gap
  let newAcc ← checkedAdd u64Max (m.haircutAccumulator - recovered) gap
  let hs ← addContribution hs newOwed sf
  .ok { market := { m with haircutAccumulator := newAcc }
        position := { position with haircutOwed := newOwed, withdrawalSf := sf }
        haircutState := hs
        payout }

theorem removeContribution_eq_ok {hs hs' : HaircutState} {owed sf : ℕ} :
    removeContribution hs owed sf = .ok hs' ↔
      ∃ old, positionContribution owed sf = .ok old ∧
        hs' = { hs with
          claimWeightSum := hs.claimWeightSum - old.1, claimOffsetSum := hs.claimOffsetSum - old.2 } := by
  unfold removeContribution
  split
  · simp only [bind_eq_ok, Except.ok.injEq, @eq_comm _ hs']
  · obtain rfl : owed = 0 := by omega
    simp only [positionContribution, if_true, Except.ok.injEq, exists_eq_left', Nat.sub_zero, @eq_comm _ hs']

theorem addContribution_eq_ok {hs hs' : HaircutState} {owed sf : ℕ} :
    addContribution hs owed sf = .ok hs' ↔
      ∃ new, positionContribution owed sf = .ok new ∧ hs.claimWeightSum + new.1 ≤ u128Max ∧
        hs.claimOffsetSum + new.2 ≤ u128Max ∧
        hs' = { hs with
          claimWeightSum := hs.claimWeightSum + new.1, claimOffsetSum := hs.claimOffsetSum + new.2 } := by
  simp only [addContribution, bind_eq_ok, checkedAdd_eq_ok, Except.ok.injEq]
  constructor
  · rintro ⟨new, hnew, _, ⟨hw, rfl⟩, _, ⟨ho, rfl⟩, rfl⟩
    exact ⟨new, hnew, hw, ho, rfl⟩
  · rintro ⟨new, hnew, hw, ho, rfl⟩
    exact ⟨new, hnew, _, ⟨hw, rfl⟩, _, ⟨ho, rfl⟩, rfl⟩

/-- Every check of `recordGap` and what it leaves behind. -/
theorem recordGap_eq_ok {m : Market} {position : LenderPosition} {hs : HaircutState} {gap payout : ℕ} {t : Tracked} :
    recordGap m position hs gap payout = .ok t ↔
      ∃ hs₁ rebased hs₂,
        removeContribution hs position.haircutOwed position.withdrawalSf = .ok hs₁ ∧
        rebasedOwed position m.settlementFactorWad = .ok rebased ∧
        payout + (position.haircutOwed - rebased) ≤ u64Max ∧
        rebased + gap ≤ u64Max ∧
        m.haircutAccumulator - (position.haircutOwed - rebased) + gap ≤ u64Max ∧
        addContribution hs₁ (rebased + gap) m.settlementFactorWad = .ok hs₂ ∧
        t = { market := { m with
                haircutAccumulator := m.haircutAccumulator - (position.haircutOwed - rebased) + gap }
              position := { position with haircutOwed := rebased + gap, withdrawalSf := m.settlementFactorWad }
              haircutState := hs₂
              payout := payout + (position.haircutOwed - rebased) } := by
  simp only [recordGap, bind_eq_ok, checkedAdd_eq_ok, Except.ok.injEq]
  constructor
  · rintro ⟨hs₁, h₁, rebased, hr, _, ⟨hp, rfl⟩, _, ⟨ho, rfl⟩, _, ⟨ha, rfl⟩, hs₂, h₂, rfl⟩
    exact ⟨hs₁, rebased, hs₂, h₁, hr, hp, ho, ha, h₂, rfl⟩
  · rintro ⟨hs₁, rebased, hs₂, h₁, hr, hp, ho, ha, h₂, rfl⟩
    exact ⟨hs₁, h₁, rebased, hr, _, ⟨hp, rfl⟩, _, ⟨ho, rfl⟩, _, ⟨ha, rfl⟩, hs₂, h₂, rfl⟩

/-- The haircut bookkeeping of an exit. -/
def trackHaircut (ma : MarketAccounts) (market : Address) (haircutState : AccountMeta) (m : Market)
    (position : LenderPosition) (normalizedAmount payout : ℕ) : Result Tracked :=
  if m.settlementFactorWad < WAD then do
    let entitled ← tryU64 normalizedAmount
    if 0 < entitled - payout then do
      let hs ← loadHaircutState ma market haircutState
      recordGap m position hs (entitled - payout) payout
    else .ok { market := m, position, haircutState := ma.haircutState, payout }
  else .ok { market := m, position, haircutState := ma.haircutState, payout }

/-- Withdraw: a lender takes `scaledAmount` units out, 0 meaning all. -/
def withdraw (w : World) (accounts : List AccountMeta) (data : List UInt8) : Result (World × Event) :=
  match accounts with
  | market :: lender :: lenderToken :: vault :: lenderPosition :: marketAuthority :: blacklistCheck ::
      protocolConfig :: tokenProgram :: haircutState :: _ => do
    require (tokenProgram.address = TOKEN_PROGRAM_ID) invalidTokenProgram
    require (24 ≤ data.length) .invalidInstructionData
    let minPayout := u64At data 16
    require lender.isSigner unauthorized
    let config ← loadProtocolConfig w protocolConfig
    require (¬config.isPaused) protocolPaused
    let ma ← loadMarket w market
    require (ma.market.vault = vault.address) invalidVault
    require (ma.market.maturityTimestamp ≤ w.clock) notMatured
    checkBlacklist w blacklistCheck config lender.address
    let m ← accrueInterest ma.market config w.clock
    let position ← loadLenderPosition ma market.address lender.address lenderPosition
    require (position.scaledBalance ≠ 0) noBalance
    let m ← settleOnWithdraw w m vault
    let scaledAmount := if u128At data 0 = 0 then position.scaledBalance else u128At data 0
    require (scaledAmount ≤ position.scaledBalance) insufficientScaledBalance
    validateMarketState m
    let amounts ← exitAmounts m scaledAmount
    require (amounts.2 ≠ 0) zeroPayout
    require (¬(0 < minPayout ∧ amounts.2 < minPayout)) payoutBelowMinimum
    validateMarketAuthority marketAuthority market.address
    let lenderTokenAccount ← loadTokenAccount w lenderToken
    require (lenderTokenAccount.owner = lender.address) invalidTokenAccountOwner
    let t ← trackHaircut ma market.address haircutState m position amounts.1 amounts.2
    let newBalance ← checkedSub t.position.scaledBalance scaledAmount
    let newScaledTotal ← checkedSub t.market.scaledTotalSupply scaledAmount
    let newTotalDeposited := t.market.totalDeposited - t.payout
    let tokens ← w.tokens.transfer vault.address lenderToken.address marketAuthority.address t.payout
    .ok ({ w with tokens }.setMarket market.address
      { market := { t.market with scaledTotalSupply := newScaledTotal, totalDeposited := newTotalDeposited }
        haircutState := t.haircutState
        positions := ma.positions.insert lender.address { t.position with scaledBalance := newBalance } },
      .withdraw market.address lender.address t.payout scaledAmount)
  | _ => .error .notEnoughAccountKeys

/-- The token account of the lender that a forced payment goes to. -/
def loadEscrow (w : World) (mint lender : Address) (account : AccountMeta) : Result Unit := do
  requireTokenOwned w account
  let escrow ← loadTokenAccount w account
  require (escrow.owner = lender) invalidTokenAccountOwner
  require (escrow.mint = mint) invalidMint

/-- A transfer out of the vault, skipped when there is nothing to pay. -/
def transferIfPositive (w : World) (src dst authority : Address) (amount : ℕ) : Result TokenLedger :=
  if 0 < amount then w.tokens.transfer src dst authority amount else .ok w.tokens

/-- ForceClosePosition: the borrower exits a whole position for the lender. -/
def forceClosePosition (w : World) (accounts : List AccountMeta) : Result (World × Event) :=
  match accounts with
  | market :: borrower :: lenderPosition :: vault :: escrowToken :: marketAuthority :: protocolConfig ::
      tokenProgram :: haircutState :: _ => do
    require (tokenProgram.address = TOKEN_PROGRAM_ID) invalidTokenProgram
    require borrower.isSigner .missingRequiredSignature
    let ma ← loadMarket w market
    require (borrower.address = ma.market.borrower) unauthorized
    require (ma.market.vault = vault.address) invalidVault
    let config ← loadProtocolConfig w protocolConfig
    require (¬config.isPaused) protocolPaused
    require (ma.market.maturityTimestamp ≤ w.clock) notMatured
    checkGracePeriod w ma.market
    let m ← accrueInterest ma.market config w.clock
    let m ← settleOnForceClose w m vault
    let position ← loadPositionOfMarket w market.address lenderPosition
    loadEscrow w m.mint position.lender escrowToken
    let scaledAmount := position.scaledBalance
    require (scaledAmount ≠ 0) noBalance
    validateMarketState m
    let amounts ← exitAmounts m scaledAmount
    validateMarketAuthority marketAuthority market.address
    let t ← trackHaircut ma market.address haircutState m position amounts.1 amounts.2
    let newScaledTotal ← checkedSub t.market.scaledTotalSupply scaledAmount
    let tokens ← transferIfPositive w vault.address escrowToken.address marketAuthority.address t.payout
    .ok ({ w with tokens }.setMarket market.address
      { market := { t.market with scaledTotalSupply := newScaledTotal }
        haircutState := t.haircutState
        positions := ma.positions.insert position.lender { t.position with scaledBalance := 0 } },
      .forceClose market.address position.lender t.payout scaledAmount)
  | _ => .error .notEnoughAccountKeys

end Coalesce
