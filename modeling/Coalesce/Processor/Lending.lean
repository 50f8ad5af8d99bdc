import Coalesce.Validation

/-!
# Creating and funding a market

`createMarket`, and the four handlers that move principal and interest: `deposit`, `borrow`, `repay` and
`repayInterest`.
-/

namespace Coalesce

open LendingError

namespace World

/-- Write back the accounts of one market. -/
def setMarket (w : World) (market : Address) (accounts : MarketAccounts) : World :=
  { w with markets := w.markets.insert market accounts }

end World

/-- The accounts of a market at its creation. -/
def freshMarket (borrower vault market : Address) (annualInterestBps : ℕ) (maturityTimestamp : ℤ)
    (maxTotalSupply marketNonce : ℕ) (now : ℤ) : MarketAccounts where
  market :=
    { borrower
      mint := USDC_MINT
      vault
      annualInterestBps
      maturityTimestamp
      maxTotalSupply
      marketNonce
      scaledTotalSupply := 0
      scaleFactor := WAD
      accruedProtocolFees := 0
      totalDeposited := 0
      totalBorrowed := 0
      totalRepaid := 0
      totalInterestRepaid := 0
      lastAccrualTimestamp := now
      settlementFactorWad := 0
      haircutAccumulator := 0 }
  haircutState := { market, claimWeightSum := 0, claimOffsetSum := 0 }
  positions := ∅

/-- The checks on the terms of a new market. -/
def checkMarketTerms (now : ℤ) (annualInterestBps : ℕ) (maturityTimestamp : ℤ) (maxTotalSupply : ℕ) :
    Result Unit := do
  require (annualInterestBps ≤ MAX_ANNUAL_INTEREST_BPS) invalidFeeRate
  let minMaturity ← checkedAddI64 now MIN_MATURITY_DELTA
  require (minMaturity < maturityTimestamp) invalidMaturity
  let maxMaturity ← checkedAddI64 now MAX_MATURITY_DELTA
  require (maturityTimestamp ≤ maxMaturity) invalidMaturity
  let _ ← checkedAddI64 maturityTimestamp SETTLEMENT_GRACE_PERIOD
  require (maxTotalSupply ≠ 0) invalidCapacity

/-- CreateMarket. -/
def createMarket (w : World) (accounts : List AccountMeta) (data : List UInt8) : Result (World × Event) :=
  match accounts with
  | market :: borrower :: mint :: vault :: marketAuthority :: protocolConfig :: borrowerWhitelist ::
      blacklistCheck :: _ :: _ :: haircutState :: _ => do
    require (26 ≤ data.length) .invalidInstructionData
    let marketNonce := u64At data 0
    let annualInterestBps := u16At data 8
    let maturityTimestamp := i64At data 10
    let maxTotalSupply := u64At data 18
    require borrower.isSigner unauthorized
    let config ← loadProtocolConfig w protocolConfig
    require (¬config.isPaused) protocolPaused
    require (config.isInitialized = 1) alreadyInitialized
    checkMarketTerms w.clock annualInterestBps maturityTimestamp maxTotalSupply
    let decimals ← okOr (w.mints mint.address) .invalidAccountData
    require (decimals = USDC_DECIMALS) invalidMint
    require (mint.address = USDC_MINT) invalidMint
    let wl ← loadBorrowerWhitelist w borrower.address borrowerWhitelist
    require (wl.isWhitelisted = 1) notWhitelisted
    checkBlacklist w blacklistCheck config borrower.address
    require (market.address = .market borrower.address marketNonce) invalidPDA
    require (vault.address = .vault market.address) invalidVault
    require (marketAuthority.address = .marketAuthority market.address) invalidPDA
    require (w.markets.lookup market.address).isNone marketAlreadyExists
    let tokens ← w.tokens.openAccount vault.address mint.address (.marketAuthority market.address)
    require (haircutState.address = .haircutState market.address) invalidPDA
    let fresh := freshMarket borrower.address vault.address market.address annualInterestBps maturityTimestamp
      maxTotalSupply marketNonce w.clock
    .ok ({ w with tokens }.setMarket market.address fresh,
      .createMarket market.address borrower.address marketNonce)
  | _ => .error .notEnoughAccountKeys

/-- The position of the lender after `scaledAmount` is added; a missing position is created. -/
def depositPosition (existing : Option LenderPosition) (market lender : Address) (scaledAmount : ℕ) :
    Result LenderPosition :=
  match existing with
  | some position => do
    require (position.market = market) invalidPDA
    require (position.lender = lender) unauthorized
    let newBalance ← checkedAdd u128Max position.scaledBalance scaledAmount
    .ok { position with scaledBalance := newBalance }
  | none => .ok { market, lender, scaledBalance := scaledAmount, haircutOwed := 0, withdrawalSf := 0 }

/-- Deposit: the lender receives `amount * WAD / scaleFactor` scaled units. -/
def deposit (w : World) (accounts : List AccountMeta) (data : List UInt8) : Result (World × Event) :=
  match accounts with
  | market :: lender :: lenderToken :: vault :: lenderPosition :: blacklistCheck :: protocolConfig :: mint ::
      tokenProgram :: _ :: _ => do
    require (tokenProgram.address = TOKEN_PROGRAM_ID) invalidTokenProgram
    require (8 ≤ data.length) .invalidInstructionData
    let amount := u64At data 0
    require (amount ≠ 0) zeroAmount
    require lender.isSigner unauthorized
    let config ← loadProtocolConfig w protocolConfig
    require (¬config.isPaused) protocolPaused
    let ma ← loadMarket w market
    require (ma.market.vault = vault.address) invalidVault
    require (ma.market.mint = mint.address) invalidMint
    require (w.clock < ma.market.maturityTimestamp) marketMatured
    checkBlacklist w blacklistCheck config lender.address
    let m ← accrueInterest ma.market config w.clock
    require (m.scaleFactor ≠ 0) invalidScaleFactor
    let amountWad ← checkedMul u128Max amount WAD
    let scaledAmount ← checkedDiv amountWad m.scaleFactor
    require (scaledAmount ≠ 0) zeroScaledAmount
    let newTotalDeposited ← checkedAdd u64Max m.totalDeposited amount
    require (newTotalDeposited ≤ m.maxTotalSupply) capExceeded
    let newScaledTotal ← checkedAdd u128Max m.scaledTotalSupply scaledAmount
    let lenderTokenAccount ← loadTokenAccount w lenderToken
    require (lenderTokenAccount.owner = lender.address) invalidTokenAccountOwner
    require (lenderPosition.address = .lender market.address lender.address) invalidPDA
    let position ← depositPosition (ma.positions.lookup lender.address) market.address lender.address scaledAmount
    let tokens ← w.tokens.transfer lenderToken.address vault.address lender.address amount
    .ok ({ w with tokens }.setMarket market.address
      { ma with
        market := { m with scaledTotalSupply := newScaledTotal, totalDeposited := newTotalDeposited }
        positions := ma.positions.insert lender.address position },
      .deposit market.address lender.address amount scaledAmount)
  | _ => .error .notEnoughAccountKeys

/-- Borrow: the whole vault balance can be borrowed. -/
def borrow (w : World) (accounts : List AccountMeta) (data : List UInt8) : Result (World × Event) :=
  match accounts with
  | market :: borrower :: borrowerToken :: vault :: marketAuthority :: borrowerWhitelist :: blacklistCheck ::
      protocolConfig :: tokenProgram :: _ => do
    require (tokenProgram.address = TOKEN_PROGRAM_ID) invalidTokenProgram
    require (8 ≤ data.length) .invalidInstructionData
    let amount := u64At data 0
    require (amount ≠ 0) zeroAmount
    let config ← loadProtocolConfig w protocolConfig
    require (¬config.isPaused) protocolPaused
    let ma ← loadMarket w market
    validateMarketState ma.market
    require (ma.market.borrower = borrower.address) unauthorized
    require borrower.isSigner unauthorized
    require (ma.market.vault = vault.address) invalidVault
    require (w.clock < ma.market.maturityTimestamp) marketMatured
    checkBlacklist w blacklistCheck config borrower.address
    let m ← accrueInterest ma.market config w.clock
    let vaultToken ← loadVault w m.mint vault
    require (amount ≤ vaultToken.amount) borrowAmountTooHigh
    let wl ← loadBorrowerWhitelist w borrower.address borrowerWhitelist
    require (wl.isWhitelisted = 1) notWhitelisted
    let newWlBorrowed ← checkedAdd u64Max wl.currentBorrowed amount
    require (newWlBorrowed ≤ wl.maxBorrowCapacity) globalCapacityExceeded
    validateMarketAuthority marketAuthority market.address
    requireTokenOwned w borrowerToken
    let borrowerTokenAccount ← loadTokenAccount w borrowerToken
    require (borrowerTokenAccount.owner = borrower.address) invalidTokenAccountOwner
    let newTotalBorrowed ← checkedAdd u64Max m.totalBorrowed amount
    let tokens ← w.tokens.transfer vault.address borrowerToken.address marketAuthority.address amount
    .ok ({ w with
        tokens
        whitelists := w.whitelists.insert borrower.address { wl with currentBorrowed := newWlBorrowed } }.setMarket
      market.address { ma with market := { m with totalBorrowed := newTotalBorrowed } },
      .borrow market.address borrower.address amount)
  | _ => .error .notEnoughAccountKeys

/-- The principal that the borrower still owes to this market. -/
def marketOutstanding (m : Market) : Result ℕ := do
  let principalRepaid ← checkedSub m.totalRepaid m.totalInterestRepaid
  checkedSub m.totalBorrowed principalRepaid

/-- Repay: anyone may pay, up to the outstanding principal. -/
def repay (w : World) (accounts : List AccountMeta) (data : List UInt8) : Result (World × Event) :=
  match accounts with
  | market :: payer :: payerToken :: vault :: protocolConfig :: mint :: borrowerWhitelist :: tokenProgram :: _ => do
    require (tokenProgram.address = TOKEN_PROGRAM_ID) invalidTokenProgram
    require (8 ≤ data.length) .invalidInstructionData
    let amount := u64At data 0
    require (amount ≠ 0) zeroAmount
    require payer.isSigner unauthorized
    let payerTokenAccount ← loadTokenAccount w payerToken
    require (payerTokenAccount.owner = payer.address) invalidTokenAccountOwner
    let ma ← loadMarket w market
    validateMarketState ma.market
    require (ma.market.vault = vault.address) invalidVault
    require (ma.market.mint = mint.address) invalidMint
    let config ← loadProtocolConfig w protocolConfig
    require (¬config.isPaused) protocolPaused
    let m ← accrueInterest ma.market config w.clock
    let outstanding ← marketOutstanding m
    require (amount ≤ outstanding) repaymentExceedsDebt
    requireTokenOwned w vault
    let wl ← loadBorrowerWhitelist w m.borrower borrowerWhitelist
    require (amount ≤ wl.currentBorrowed) repaymentExceedsDebt
    let newTotalRepaid ← checkedAdd u64Max m.totalRepaid amount
    let newBorrowed ← checkedSub wl.currentBorrowed amount
    let tokens ← w.tokens.transfer payerToken.address vault.address payer.address amount
    .ok ({ w with
        tokens
        whitelists := w.whitelists.insert m.borrower { wl with currentBorrowed := newBorrowed } }.setMarket
      market.address { ma with market := { m with totalRepaid := newTotalRepaid } },
      .repay market.address payer.address amount newBorrowed)
  | _ => .error .notEnoughAccountKeys

/-- RepayInterest: does not free borrowing capacity. -/
def repayInterest (w : World) (accounts : List AccountMeta) (data : List UInt8) : Result (World × Event) :=
  match accounts with
  | market :: payer :: payerToken :: vault :: protocolConfig :: tokenProgram :: _ => do
    require (tokenProgram.address = TOKEN_PROGRAM_ID) invalidTokenProgram
    require (8 ≤ data.length) .invalidInstructionData
    let amount := u64At data 0
    require (amount ≠ 0) zeroAmount
    require payer.isSigner unauthorized
    let payerTokenAccount ← loadTokenAccount w payerToken
    require (payerTokenAccount.owner = payer.address) invalidTokenAccountOwner
    let ma ← loadMarket w market
    validateMarketState ma.market
    require (ma.market.vault = vault.address) invalidVault
    require (payerTokenAccount.mint = ma.market.mint) invalidMint
    let config ← loadProtocolConfig w protocolConfig
    require (¬config.isPaused) protocolPaused
    let m ← accrueInterest ma.market config w.clock
    requireTokenOwned w vault
    let newTotalRepaid ← checkedAdd u64Max m.totalRepaid amount
    let newInterestRepaid ← checkedAdd u64Max m.totalInterestRepaid amount
    let tokens ← w.tokens.transfer payerToken.address vault.address payer.address amount
    .ok ({ w with tokens }.setMarket market.address
      { ma with market := { m with totalRepaid := newTotalRepaid, totalInterestRepaid := newInterestRepaid } },
      .repayInterest market.address payer.address amount newInterestRepaid)
  | _ => .error .notEnoughAccountKeys

end Coalesce
