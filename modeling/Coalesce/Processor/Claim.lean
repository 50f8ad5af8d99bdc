import Coalesce.Processor.Exit

/-!
# Haircut claims

`claimHaircut` by the lender and `forceClaimHaircut` by the borrower pay what a recorded haircut has recovered since
its anchor, capped at the vault surplus over the claims of the remaining lenders.
-/

namespace Coalesce

open LendingError

/-- What the lenders who are still in the market can take out at the current factor. -/
def remainingObligations (m : Market) : Result ℕ :=
  if 0 < m.scaledTotalSupply then do
    validateMarketState m
    let total ← totalNormalized m
    let product ← checkedMul u128Max total m.settlementFactorWad
    let obligations ← checkedDiv product WAD
    tryU64 obligations
  else .ok 0

/-- What the position can claim at the current factor. -/
def claimableNow (m : Market) (position : LenderPosition) : Result ℕ := do
  require (position.haircutOwed ≠ 0) noHaircutToClaim
  require (position.withdrawalSf < m.settlementFactorWad) settlementNotImproved
  claimableExact position.haircutOwed position.withdrawalSf m.settlementFactorWad

/-- The amount a claim pays: what is claimable, capped at the vault surplus. -/
def capAtSurplus (m : Market) (vaultBalance exact : ℕ) : Result ℕ := do
  let obligations ← remainingObligations m
  let available := vaultBalance - obligations
  let amount := if available < exact then available else exact
  require (amount ≠ 0) zeroPayout
  .ok amount

theorem remainingObligations_ok {m : Market} {r : ℕ} (h : remainingObligations m = .ok r) :
    r = m.scaledTotalSupply * m.scaleFactor / WAD * m.settlementFactorWad / WAD := by
  unfold remainingObligations at h
  split at h
  · simp only [bind_eq_ok, totalNormalized_eq_ok, checkedMul_eq_ok, checkedDiv_eq_ok, tryU64_eq_ok] at h
    obtain ⟨_, -, _, ⟨-, rfl⟩, _, ⟨-, rfl⟩, _, ⟨-, rfl⟩, -, rfl⟩ := h
    rfl
  · have h0 : m.scaledTotalSupply = 0 := by omega
    rw [← Except.ok.inj h, h0]
    simp

theorem claimableNow_eq_ok {m : Market} {position : LenderPosition} {r : ℕ} : claimableNow m position = .ok r ↔
    position.haircutOwed ≠ 0 ∧ position.withdrawalSf < m.settlementFactorWad ∧
      claimableExact position.haircutOwed position.withdrawalSf m.settlementFactorWad = .ok r := by
  simp [claimableNow]

theorem capAtSurplus_eq_ok {m : Market} {vault exact r : ℕ} : capAtSurplus m vault exact = .ok r ↔
    ∃ obligations, remainingObligations m = .ok obligations ∧ r = min (vault - obligations) exact ∧ r ≠ 0 := by
  have hmin (x : ℕ) : (if x < exact then x else exact) = min x exact := by
    rw [min_def]
    split <;> split <;> omega
  simp only [capAtSurplus, hmin, bind_eq_ok, require_eq_ok, exists_const, Except.ok.injEq]
  constructor
  · rintro ⟨obligations, ho, hne, rfl⟩
    exact ⟨obligations, ho, rfl, hne⟩
  · rintro ⟨obligations, ho, rfl, hne⟩
    exact ⟨obligations, ho, hne, rfl⟩

/-- The bookkeeping of a claim of `claimable`: the remainder is anchored at the current factor. -/
def recordClaim (m : Market) (position : LenderPosition) (hs : HaircutState) (claimable : ℕ) : Result Tracked := do
  let old ← positionContribution position.haircutOwed position.withdrawalSf
  let hs := { hs with
    claimWeightSum := hs.claimWeightSum - old.1
    claimOffsetSum := hs.claimOffsetSum - old.2 }
  let newOwed ← checkedSub position.haircutOwed claimable
  let newAcc ← checkedSub m.haircutAccumulator claimable
  let hs ← (if 0 < newOwed then addContribution hs newOwed m.settlementFactorWad else .ok hs)
  .ok { market := { m with haircutAccumulator := newAcc }
        position := { position with
          haircutOwed := newOwed
          withdrawalSf := if 0 < newOwed then m.settlementFactorWad else 0 }
        haircutState := hs
        payout := claimable }

theorem recordClaim_eq_ok {m : Market} {position : LenderPosition} {hs : HaircutState} {claimable : ℕ} {t : Tracked} :
    recordClaim m position hs claimable = .ok t ↔
      ∃ old hs₂, positionContribution position.haircutOwed position.withdrawalSf = .ok old ∧
        claimable ≤ position.haircutOwed ∧ claimable ≤ m.haircutAccumulator ∧
        (if 0 < position.haircutOwed - claimable then
          addContribution
            { hs with claimWeightSum := hs.claimWeightSum - old.1, claimOffsetSum := hs.claimOffsetSum - old.2 }
            (position.haircutOwed - claimable) m.settlementFactorWad
        else .ok { hs with claimWeightSum := hs.claimWeightSum - old.1, claimOffsetSum := hs.claimOffsetSum - old.2 })
          = .ok hs₂ ∧
        t = { market := { m with haircutAccumulator := m.haircutAccumulator - claimable }
              position := { position with
                haircutOwed := position.haircutOwed - claimable
                withdrawalSf := if 0 < position.haircutOwed - claimable then m.settlementFactorWad else 0 }
              haircutState := hs₂
              payout := claimable } := by
  simp only [recordClaim, bind_eq_ok, checkedSub_eq_ok, Except.ok.injEq]
  constructor
  · rintro ⟨old, hold, _, ⟨ho, rfl⟩, _, ⟨ha, rfl⟩, hs₂, h₂, rfl⟩
    exact ⟨old, hs₂, hold, ho, ha, h₂, rfl⟩
  · rintro ⟨old, hs₂, hold, ho, ha, h₂, rfl⟩
    exact ⟨old, hold, _, ⟨ho, rfl⟩, _, ⟨ha, rfl⟩, hs₂, h₂, rfl⟩

/-- ClaimHaircut: there is no blacklist check, the tokens are already owed. -/
def claimHaircut (w : World) (accounts : List AccountMeta) : Result (World × Event) :=
  match accounts with
  | market :: lender :: lenderPosition :: lenderToken :: vault :: marketAuthority :: haircutState ::
      protocolConfig :: tokenProgram :: _ => do
    require (tokenProgram.address = TOKEN_PROGRAM_ID) invalidTokenProgram
    require lender.isSigner unauthorized
    let config ← loadProtocolConfig w protocolConfig
    require (¬config.isPaused) protocolPaused
    let ma ← loadMarket w market
    require (ma.market.vault = vault.address) invalidVault
    require (ma.market.settlementFactorWad ≠ 0) notSettled
    let position ← loadLenderPosition ma market.address lender.address lenderPosition
    require (position.market = market.address) invalidPDA
    require (position.lender = lender.address) unauthorized
    let hs ← loadHaircutState ma market.address haircutState
    let exact ← claimableNow ma.market position
    let vaultToken ← loadVault w ma.market.mint vault
    let claimable ← capAtSurplus ma.market vaultToken.amount exact
    let lenderTokenAccount ← loadTokenAccount w lenderToken
    require (lenderTokenAccount.owner = lender.address) invalidTokenAccountOwner
    require (lenderTokenAccount.mint = ma.market.mint) invalidMint
    let t ← recordClaim ma.market position hs claimable
    validateMarketAuthority marketAuthority market.address
    let tokens ← w.tokens.transfer vault.address lenderToken.address marketAuthority.address claimable
    .ok ({ w with tokens }.setMarket market.address
      { market := t.market
        haircutState := t.haircutState
        positions := ma.positions.insert lender.address t.position },
      .claimHaircut market.address lender.address claimable t.position.haircutOwed)
  | _ => .error .notEnoughAccountKeys

/-- ForceClaimHaircut: the borrower claims for the lender, after the grace period. -/
def forceClaimHaircut (w : World) (accounts : List AccountMeta) : Result (World × Event) :=
  match accounts with
  | market :: borrower :: lenderPosition :: escrowToken :: vault :: marketAuthority :: haircutState ::
      protocolConfig :: tokenProgram :: _ => do
    require (tokenProgram.address = TOKEN_PROGRAM_ID) invalidTokenProgram
    require borrower.isSigner .missingRequiredSignature
    let config ← loadProtocolConfig w protocolConfig
    require (¬config.isPaused) protocolPaused
    let ma ← loadMarket w market
    require (borrower.address = ma.market.borrower) unauthorized
    require (ma.market.vault = vault.address) invalidVault
    require (ma.market.maturityTimestamp ≤ w.clock) notMatured
    checkGracePeriod w ma.market
    require (ma.market.settlementFactorWad ≠ 0) notSettled
    let position ← loadPositionOfMarket w market.address lenderPosition
    loadEscrow w ma.market.mint position.lender escrowToken
    let hs ← loadHaircutState ma market.address haircutState
    let exact ← claimableNow ma.market position
    let vaultToken ← loadVault w ma.market.mint vault
    let claimable ← capAtSurplus ma.market vaultToken.amount exact
    let t ← recordClaim ma.market position hs claimable
    validateMarketAuthority marketAuthority market.address
    let tokens ← w.tokens.transfer vault.address escrowToken.address marketAuthority.address claimable
    .ok ({ w with tokens }.setMarket market.address
      { market := t.market
        haircutState := t.haircutState
        positions := ma.positions.insert position.lender t.position },
      .forceClaimHaircut market.address position.lender claimable t.position.haircutOwed)
  | _ => .error .notEnoughAccountKeys

end Coalesce
