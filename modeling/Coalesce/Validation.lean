import Coalesce.Interest
import Coalesce.Haircuts
import Coalesce.Token

/-!
# Account validation

The checks on the passed accounts that the handlers share, in the order in which the source makes them, and the
events the handlers report.
-/

namespace Coalesce

open LendingError

/-- What an instruction reports; the log has it with the addresses cut short (`Event.line`). -/
inductive Event
  | initializeProtocol (admin : Address) (feeBps : ℕ)
  | setFeeConfig (feeBps : ℕ)
  | createMarket (market borrower : Address) (nonce : ℕ)
  | deposit (market lender : Address) (amount scaled : ℕ)
  | borrow (market borrower : Address) (amount : ℕ)
  | repay (market payer : Address) (amount borrowerDebt : ℕ)
  | repayInterest (market payer : Address) (amount totalInterestRepaid : ℕ)
  | withdraw (market lender : Address) (payout scaled : ℕ)
  | collectFees (market : Address) (amount : ℕ)
  | reSettle (market : Address) (newFactor : ℕ)
  | closePosition (market lender : Address)
  | withdrawExcess (market borrower : Address) (amount : ℕ)
  | setWhitelist (borrower : Address) (whitelisted : ℕ)
  | setPause (paused : Bool)
  | setBlacklistMode (failClosed : Bool)
  | setAdmin (newAdmin : Address)
  | setWhitelistManager (newManager : Address)
  | forceClose (market lender : Address) (payout scaled : ℕ)
  | claimHaircut (market lender : Address) (claimed remaining : ℕ)
  | forceClaimHaircut (market lender : Address) (claimed remaining : ℕ)
  deriving DecidableEq

namespace World

/-- `account.owned_by(program_id)`: the accounts this program has created. -/
def owned (w : World) : Address → Bool
  | .protocolConfig => w.config.isSome
  | .market b n => (w.markets.lookup (.market b n)).isSome
  | .haircutState m => (w.markets.lookup m).isSome
  | .lender m l => ((w.markets.lookup m).bind fun a => a.positions.lookup l).isSome
  | .borrowerWhitelist b => (w.whitelists.lookup b).isSome
  | _ => false

/-- The lender position at an address, if there is one. -/
def lookupPosition (w : World) : Address → Option LenderPosition
  | .lender m l => (w.markets.lookup m).bind fun a => a.positions.lookup l
  | _ => none

end World

def loadProtocolConfig (w : World) (account : AccountMeta) : Result ProtocolConfig := do
  require (account.address = .protocolConfig) invalidPDA
  okOr w.config invalidAccountOwner

/-- Ownership, type and `validate_market_pda`. -/
def loadMarket (w : World) (account : AccountMeta) : Result MarketAccounts := do
  require (w.owned account.address) invalidAccountOwner
  let accounts ← okOr (w.markets.lookup account.address) .invalidAccountData
  require (account.address = .market accounts.market.borrower accounts.market.marketNonce) invalidPDA
  .ok accounts

/-- The position of a lender that the caller names. -/
def loadLenderPosition (accounts : MarketAccounts) (market lender : Address) (account : AccountMeta) :
    Result LenderPosition := do
  require (account.address = .lender market lender) invalidPDA
  okOr (accounts.positions.lookup lender) invalidAccountOwner

/-- A position whose lender is read from the position itself. -/
def loadPositionOfMarket (w : World) (market : Address) (account : AccountMeta) : Result LenderPosition := do
  require (w.owned account.address) invalidAccountOwner
  let position ← okOr (w.lookupPosition account.address) .invalidAccountData
  require (position.market = market) invalidPDA
  require (account.address = .lender market position.lender) invalidPDA
  .ok position

def loadHaircutState (accounts : MarketAccounts) (market : Address) (account : AccountMeta) :
    Result HaircutState := do
  require (account.address = .haircutState market) invalidPDA
  require (accounts.haircutState.market = market) invalidPDA
  .ok accounts.haircutState

def loadBorrowerWhitelist (w : World) (borrower : Address) (account : AccountMeta) : Result BorrowerWhitelist := do
  require (account.address = .borrowerWhitelist borrower) invalidPDA
  okOr (w.whitelists.lookup borrower) invalidAccountOwner

/-- `TokenAccount::from_account_view_unchecked`. -/
def loadTokenAccount (w : World) (account : AccountMeta) : Result TokenAccount :=
  okOr (w.tokens.lookup account.address) .invalidAccountData

/-- The owner of the account is the token program. -/
def requireTokenOwned (w : World) (account : AccountMeta) : Result Unit :=
  require (w.tokens.lookup account.address).isSome invalidAccountOwner

/-- A token account of the token program with the mint of the market. -/
def loadVault (w : World) (mint : Address) (account : AccountMeta) : Result TokenAccount := do
  requireTokenOwned w account
  let vault ← loadTokenAccount w account
  require (vault.mint = mint) invalidMint
  .ok vault

/-- The stored bump is derived from the same seeds, so only the address can differ. -/
def validateMarketAuthority (account : AccountMeta) (market : Address) : Result Unit :=
  require (account.address = .marketAuthority market) invalidPDA

def validateMarketState (market : Market) : Result Unit :=
  require (market.scaleFactor ≠ 0) invalidScaleFactor

def checkBlacklist (w : World) (account : AccountMeta) (config : ProtocolConfig) (address : Address) :
    Result Unit := do
  require (account.address = .blacklist config.blacklistProgram address) invalidPDA
  match w.blacklist account.address with
  | none => require (¬config.isBlacklistFailClosed) blacklisted
  | some [] => .error invalidAccountOwner
  | some (status :: _) =>
    if status = 1 then .error blacklisted else require (status = 0) invalidAccountOwner

/-! ### Loaded records -/

section Inversion

variable {w : World} {account : AccountMeta}

theorem loadProtocolConfig_eq_ok {c : ProtocolConfig} :
    loadProtocolConfig w account = .ok c ↔ account.address = .protocolConfig ∧ w.config = some c := by
  simp [loadProtocolConfig]

theorem loadMarket_eq_ok {a : MarketAccounts} :
    loadMarket w account = .ok a ↔ w.markets.lookup account.address = some a ∧
      account.address = .market a.market.borrower a.market.marketNonce := by
  simp only [loadMarket, bind_eq_ok, require_eq_ok, okOr_eq_ok, Except.ok.injEq]
  constructor
  · rintro ⟨_, _, a', h, _, e, rfl⟩
    exact ⟨h, e⟩
  · rintro ⟨h, e⟩
    refine ⟨(), ?_, a, h, (), e, rfl⟩
    rw [e] at h ⊢
    simp [World.owned, h]

theorem loadLenderPosition_eq_ok {a : MarketAccounts} {m l : Address} {p : LenderPosition} :
    loadLenderPosition a m l account = .ok p ↔ account.address = .lender m l ∧ a.positions.lookup l = some p := by
  simp [loadLenderPosition]

theorem loadPositionOfMarket_eq_ok {m : Address} {p : LenderPosition} :
    loadPositionOfMarket w m account = .ok p ↔ account.address = .lender m p.lender ∧ p.market = m ∧
      ∃ a, w.markets.lookup m = some a ∧ a.positions.lookup p.lender = some p := by
  simp only [loadPositionOfMarket, bind_eq_ok, require_eq_ok, okOr_eq_ok, Except.ok.injEq]
  constructor
  · rintro ⟨_, _, p', h, _, hm, _, e, rfl⟩
    rw [e] at h
    exact ⟨e, hm, Option.bind_eq_some_iff.1 h⟩
  · rintro ⟨e, hm, a, ha, hp⟩
    refine ⟨(), ?_, p, ?_, (), hm, (), e, rfl⟩
    · rw [e]; simp [World.owned, ha, hp]
    · rw [e]; simp [World.lookupPosition, ha, hp]

theorem loadHaircutState_eq_ok {a : MarketAccounts} {m : Address} {s : HaircutState} :
    loadHaircutState a m account = .ok s ↔
      account.address = .haircutState m ∧ a.haircutState.market = m ∧ a.haircutState = s := by
  simp [loadHaircutState]

theorem loadTokenAccount_eq_ok {t : TokenAccount} :
    loadTokenAccount w account = .ok t ↔ w.tokens.lookup account.address = some t := by
  simp [loadTokenAccount]

theorem loadVault_eq_ok {mint : Address} {t : TokenAccount} :
    loadVault w mint account = .ok t ↔ w.tokens.lookup account.address = some t ∧ t.mint = mint := by
  simp only [loadVault, requireTokenOwned, bind_eq_ok, require_eq_ok, loadTokenAccount_eq_ok, Except.ok.injEq]
  constructor
  · rintro ⟨_, _, t', h, _, hm, rfl⟩
    exact ⟨h, hm⟩
  · rintro ⟨h, hm⟩
    exact ⟨(), by simp [h], t, h, (), hm, rfl⟩

theorem loadBorrowerWhitelist_eq_ok {b : Address} {wl : BorrowerWhitelist} :
    loadBorrowerWhitelist w b account = .ok wl ↔
      account.address = .borrowerWhitelist b ∧ w.whitelists.lookup b = some wl := by
  simp [loadBorrowerWhitelist]

end Inversion

end Coalesce
