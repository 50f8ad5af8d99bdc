import Coalesce.Processor.Claim

/-!
# After settlement

`reSettle` raises the settlement factor after further repayments, `collectFees` and `withdrawExcess` sweep what the
lenders are not owed, `closeLenderPosition` removes an empty position.
-/

namespace Coalesce

open LendingError

/-- ReSettle: anyone may call; the factor must strictly improve. -/
def reSettle (w : World) (accounts : List AccountMeta) : Result (World × Event) :=
  match accounts with
  | market :: vault :: protocolConfig :: haircutState :: _ => do
    let ma ← loadMarket w market
    require (ma.market.vault = vault.address) invalidVault
    let oldFactor := ma.market.settlementFactorWad
    require (oldFactor ≠ 0) notSettled
    let config ← loadProtocolConfig w protocolConfig
    require (¬config.isPaused) protocolPaused
    let m ← accrueInterest ma.market config w.clock
    requireTokenOwned w vault
    let vaultToken ← loadTokenAccount w vault
    validateMarketState m
    let total ← totalNormalized m
    let hs ← loadHaircutState ma market.address haircutState
    let newFactor ← computeResettleFactor vaultToken.amount total hs.claimWeightSum hs.claimOffsetSum
    require (oldFactor < newFactor) settlementNotImproved
    .ok (w.setMarket market.address { ma with market := { m with settlementFactorWad := newFactor } },
      .reSettle market.address newFactor)
  | _ => .error .notEnoughAccountKeys

/-- The fees that the vault can pay without touching what lenders are owed. -/
def withdrawableFees (m : Market) (vaultBalance : ℕ) : Result ℕ :=
  let withdrawable := min m.accruedProtocolFees vaultBalance
  if 0 < m.scaledTotalSupply then do
    let total ← totalNormalized m
    let lenderClaims ← tryU64 total
    .ok (min withdrawable (vaultBalance - lenderClaims - m.haircutAccumulator))
  else .ok (min withdrawable (vaultBalance - m.haircutAccumulator))

theorem withdrawableFees_le {m : Market} {vault r : ℕ} (h : withdrawableFees m vault = .ok r) :
    r ≤ vault - m.scaledTotalSupply * m.scaleFactor / WAD - m.haircutAccumulator := by
  unfold withdrawableFees at h
  dsimp only at h
  split at h
  · simp only [bind_eq_ok, totalNormalized_eq_ok, tryU64_eq_ok, Except.ok.injEq] at h
    obtain ⟨_, ⟨-, rfl⟩, _, ⟨-, rfl⟩, rfl⟩ := h
    exact Nat.min_le_right _ _
  · have h0 : m.scaledTotalSupply = 0 := by omega
    rw [← Except.ok.inj h, h0, Nat.zero_mul, Nat.zero_div, Nat.sub_zero]
    exact Nat.min_le_right _ _

/-- CollectFees. -/
def collectFees (w : World) (accounts : List AccountMeta) : Result (World × Event) :=
  match accounts with
  | market :: protocolConfig :: feeAuthority :: feeDestination :: vault :: marketAuthority :: tokenProgram :: _ => do
    require (tokenProgram.address = TOKEN_PROGRAM_ID) invalidTokenProgram
    let config ← loadProtocolConfig w protocolConfig
    require (¬config.isPaused) protocolPaused
    require (config.feeAuthority = feeAuthority.address) unauthorized
    require feeAuthority.isSigner unauthorized
    let ma ← loadMarket w market
    validateMarketState ma.market
    let settlementFactor := ma.market.settlementFactorWad
    -- SR-057: no fees in distress
    require (¬(0 < settlementFactor ∧ settlementFactor < WAD)) feeCollectionDuringDistress
    -- SR-113: no fees while lenders wait, unless fully solvent
    require (¬(0 < ma.market.scaledTotalSupply ∧ settlementFactor ≠ WAD)) lendersPendingWithdrawals
    require (ma.market.vault = vault.address) invalidVault
    let m ← accrueInterest ma.market config w.clock
    require (m.accruedProtocolFees ≠ 0) noFeesToCollect
    let vaultToken ← loadVault w m.mint vault
    let withdrawable ← withdrawableFees m vaultToken.amount
    require (withdrawable ≠ 0) noFeesToCollect
    validateMarketAuthority marketAuthority market.address
    let destination ← loadVault w m.mint feeDestination
    require (destination.owner = feeAuthority.address) invalidTokenAccountOwner
    let remainingFees ← checkedSub m.accruedProtocolFees withdrawable
    let tokens ← w.tokens.transfer vault.address feeDestination.address marketAuthority.address withdrawable
    .ok ({ w with tokens }.setMarket market.address
      { ma with market := { m with accruedProtocolFees := remainingFees } },
      .collectFees market.address withdrawable)
  | _ => .error .notEnoughAccountKeys

/-- WithdrawExcess: after every lender is out and paid in full and the fees are collected. -/
def withdrawExcess (w : World) (accounts : List AccountMeta) : Result (World × Event) :=
  match accounts with
  | market :: borrower :: borrowerToken :: vault :: marketAuthority :: tokenProgram :: protocolConfig ::
      blacklistCheck :: borrowerWhitelist :: _ => do
    require (tokenProgram.address = TOKEN_PROGRAM_ID) invalidTokenProgram
    require borrower.isSigner unauthorized
    let config ← loadProtocolConfig w protocolConfig
    require (¬config.isPaused) protocolPaused
    let ma ← loadMarket w market
    require (ma.market.borrower = borrower.address) unauthorized
    checkBlacklist w blacklistCheck config borrower.address
    let wl ← loadBorrowerWhitelist w borrower.address borrowerWhitelist
    require (wl.isWhitelisted = 1) notWhitelisted
    require (ma.market.vault = vault.address) invalidVault
    require (ma.market.maturityTimestamp ≤ w.clock) notMatured
    require (ma.market.scaledTotalSupply = 0) lendersPendingWithdrawals
    require (ma.market.settlementFactorWad ≠ 0) settlementNotComplete
    require (WAD ≤ ma.market.settlementFactorWad) feeCollectionDuringDistress
    require (ma.market.accruedProtocolFees = 0) feesNotCollected
    let vaultToken ← loadVault w ma.market.mint vault
    let excess := vaultToken.amount - ma.market.haircutAccumulator
    require (excess ≠ 0) noExcessToWithdraw
    let borrowerTokenAccount ← loadTokenAccount w borrowerToken
    require (borrowerTokenAccount.mint = ma.market.mint) invalidMint
    validateMarketAuthority marketAuthority market.address
    let tokens ← w.tokens.transfer vault.address borrowerToken.address marketAuthority.address excess
    .ok ({ w with tokens }, .withdrawExcess market.address borrower.address excess)
  | _ => .error .notEnoughAccountKeys

/-- CloseLenderPosition; the rent goes back to the lender. -/
def closeLenderPosition (w : World) (accounts : List AccountMeta) : Result (World × Event) :=
  match accounts with
  | market :: lender :: lenderPosition :: _ :: protocolConfig :: _ => do
    require lender.isSigner unauthorized
    let config ← loadProtocolConfig w protocolConfig
    require (¬config.isPaused) protocolPaused
    let ma ← loadMarket w market
    let position ← loadLenderPosition ma market.address lender.address lenderPosition
    require (position.lender = lender.address) unauthorized
    require (position.market = market.address) invalidPDA
    require (position.scaledBalance = 0) positionNotEmpty
    require (position.haircutOwed = 0) positionNotEmpty
    .ok (w.setMarket market.address { ma with positions := ma.positions.erase lender.address },
      .closePosition market.address lender.address)
  | _ => .error .notEnoughAccountKeys

end Coalesce
