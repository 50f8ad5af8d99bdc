import Coalesce.Validation

/-!
# Protocol administration

The handlers that touch only the protocol configuration and the borrower whitelist.
-/

namespace Coalesce

open LendingError

/-- InitializeProtocol: only the upgrade authority of the program creates the configuration. -/
def initializeProtocol (w : World) (accounts : List AccountMeta) (data : List UInt8) : Result (World × Event) :=
  match accounts with
  | protocolConfig :: admin :: feeAuthority :: whitelistManager :: blacklistProgram :: _ :: programData :: _ => do
    require (2 ≤ data.length) .invalidInstructionData
    let feeRateBps := u16At data 0
    require admin.isSigner unauthorized
    require (programData.address = .programData) invalidPDA
    require (w.upgradeAuthority = some admin.address) unauthorized
    require (feeRateBps ≤ MAX_FEE_RATE_BPS) invalidFeeRate
    require (feeAuthority.address ≠ ZERO_ADDRESS) invalidAddress
    require (whitelistManager.address ≠ ZERO_ADDRESS) invalidAddress
    require (blacklistProgram.address ≠ ZERO_ADDRESS) invalidAddress
    require (protocolConfig.address = .protocolConfig) invalidPDA
    require (w.config = none) alreadyInitialized
    let config : ProtocolConfig :=
      { admin := admin.address
        feeRateBps
        feeAuthority := feeAuthority.address
        whitelistManager := whitelistManager.address
        blacklistProgram := blacklistProgram.address
        isInitialized := 1
        paused := 0
        blacklistMode := 0 }
    .ok ({ w with config := some config }, .initializeProtocol admin.address feeRateBps)
  | _ => .error .notEnoughAccountKeys

/-- The configuration, for an instruction of the protocol admin. -/
def loadConfigAsAdmin (w : World) (protocolConfig admin : AccountMeta) : Result ProtocolConfig := do
  let config ← loadProtocolConfig w protocolConfig
  require (config.admin = admin.address) unauthorized
  require admin.isSigner unauthorized
  .ok config

/-- SetFeeConfig. -/
def setFeeConfig (w : World) (accounts : List AccountMeta) (data : List UInt8) : Result (World × Event) :=
  match accounts with
  | protocolConfig :: admin :: newFeeAuthority :: _ => do
    require (2 ≤ data.length) .invalidInstructionData
    let newFeeRateBps := u16At data 0
    let config ← loadConfigAsAdmin w protocolConfig admin
    require (newFeeRateBps ≤ MAX_FEE_RATE_BPS) invalidFeeRate
    require (newFeeAuthority.address ≠ ZERO_ADDRESS) invalidAddress
    let config := { config with feeRateBps := newFeeRateBps, feeAuthority := newFeeAuthority.address }
    .ok ({ w with config := some config }, .setFeeConfig newFeeRateBps)
  | _ => .error .notEnoughAccountKeys

/-- SetPause. -/
def setPause (w : World) (accounts : List AccountMeta) (data : List UInt8) : Result (World × Event) :=
  match accounts with
  | protocolConfig :: admin :: _ => do
    let byte ← okOr data.head? .invalidInstructionData
    let config ← loadConfigAsAdmin w protocolConfig admin
    let config := { config with paused := if byte ≠ 0 then 1 else 0 }
    .ok ({ w with config := some config }, .setPause (byte ≠ 0))
  | _ => .error .notEnoughAccountKeys

/-- SetBlacklistMode. -/
def setBlacklistMode (w : World) (accounts : List AccountMeta) (data : List UInt8) : Result (World × Event) :=
  match accounts with
  | protocolConfig :: admin :: _ => do
    let byte ← okOr data.head? .invalidInstructionData
    let config ← loadConfigAsAdmin w protocolConfig admin
    let config := { config with blacklistMode := if byte ≠ 0 then 1 else 0 }
    .ok ({ w with config := some config }, .setBlacklistMode (byte ≠ 0))
  | _ => .error .notEnoughAccountKeys

/-- SetAdmin. -/
def setAdmin (w : World) (accounts : List AccountMeta) : Result (World × Event) :=
  match accounts with
  | protocolConfig :: currentAdmin :: newAdmin :: _ => do
    let config ← loadConfigAsAdmin w protocolConfig currentAdmin
    require (newAdmin.address ≠ ZERO_ADDRESS) invalidAddress
    .ok ({ w with config := some { config with admin := newAdmin.address } }, .setAdmin newAdmin.address)
  | _ => .error .notEnoughAccountKeys

/-- SetWhitelistManager. -/
def setWhitelistManager (w : World) (accounts : List AccountMeta) : Result (World × Event) :=
  match accounts with
  | protocolConfig :: admin :: newWhitelistManager :: _ => do
    let config ← loadConfigAsAdmin w protocolConfig admin
    require (newWhitelistManager.address ≠ ZERO_ADDRESS) invalidAddress
    .ok ({ w with config := some { config with whitelistManager := newWhitelistManager.address } },
      .setWhitelistManager newWhitelistManager.address)
  | _ => .error .notEnoughAccountKeys

/-- The whitelist entry that an accepted update writes. -/
def updatedWhitelist (existing : Option BorrowerWhitelist) (borrower : Address)
    (isWhitelisted maxBorrowCapacity : ℕ) : Result BorrowerWhitelist :=
  match existing with
  | none =>
    if isWhitelisted = 1 then .ok { borrower, isWhitelisted := 1, maxBorrowCapacity, currentBorrowed := 0 }
    else .error notWhitelisted
  | some wl => do
    -- SR-137: no de-whitelisting with outstanding debt
    require (¬(isWhitelisted = 0 ∧ 0 < wl.currentBorrowed)) borrowerHasActiveDebt
    .ok { wl with isWhitelisted, maxBorrowCapacity }

/-- SetBorrowerWhitelist. -/
def setBorrowerWhitelist (w : World) (accounts : List AccountMeta) (data : List UInt8) : Result (World × Event) :=
  match accounts with
  | borrowerWhitelist :: protocolConfig :: whitelistManager :: borrower :: _ :: _ => do
    require (9 ≤ data.length) .invalidInstructionData
    let isWhitelisted := leNat (data.take 1)
    let maxBorrowCapacity := u64At data 1
    let config ← loadProtocolConfig w protocolConfig
    require (config.whitelistManager = whitelistManager.address) unauthorized
    require whitelistManager.isSigner unauthorized
    require (¬(isWhitelisted = 1 ∧ maxBorrowCapacity = 0)) invalidCapacity
    require (borrowerWhitelist.address = .borrowerWhitelist borrower.address) invalidPDA
    let wl ← updatedWhitelist (w.whitelists.lookup borrower.address) borrower.address isWhitelisted
      maxBorrowCapacity
    .ok ({ w with whitelists := w.whitelists.insert borrower.address wl },
      .setWhitelist borrower.address isWhitelisted)
  | _ => .error .notEnoughAccountKeys

end Coalesce
