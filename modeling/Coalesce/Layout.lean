import Coalesce.State
import Coalesce.Lib.Pod

/-!
# The layout of the accounts

The records as they lie in the data of an account: plain structures of bytes and byte arrays without gaps, the numbers
little-endian.  An account starts with the discriminator of its type; the handlers read it with `try_from_bytes`, which
accepts the data of every account of the right size, and then compare the discriminator.
-/

namespace Coalesce

open LendingError

namespace Layout

/-! ### Discriminators and sizes -/

/-- `COALPC__` -/
def DISC_PROTOCOL_CONFIG : Word 8 := #v[67, 79, 65, 76, 80, 67, 95, 95]

/-- `COALMKT_` -/
def DISC_MARKET : Word 8 := #v[67, 79, 65, 76, 77, 75, 84, 95]

/-- `COALLPOS` -/
def DISC_LENDER_POSITION : Word 8 := #v[67, 79, 65, 76, 76, 80, 79, 83]

/-- `COALBWL_` -/
def DISC_BORROWER_WL : Word 8 := #v[67, 79, 65, 76, 66, 87, 76, 95]

/-- `COALHCST` -/
def DISC_HAIRCUT_STATE : Word 8 := #v[67, 79, 65, 76, 72, 67, 83, 84]

def PROTOCOL_CONFIG_SIZE : ℕ := 194

def MARKET_SIZE : ℕ := 250

def LENDER_POSITION_SIZE : ℕ := 128

def BORROWER_WHITELIST_SIZE : ℕ := 96

def HAIRCUT_STATE_SIZE : ℕ := 88

/-! ### Records -/

structure ProtocolConfig where
  discriminator : Word 8
  version : UInt8
  admin : Word 32
  feeRateBpsBytes : Word 2
  feeAuthority : Word 32
  whitelistManager : Word 32
  blacklistProgram : Word 32
  isInitialized : UInt8
  bump : UInt8
  paused : UInt8
  blacklistMode : UInt8
  padding : Word 51
  deriving DecidableEq

structure Market where
  discriminator : Word 8
  version : UInt8
  borrower : Word 32
  mint : Word 32
  vault : Word 32
  marketAuthorityBump : UInt8
  annualInterestBpsBytes : Word 2
  maturityTimestampBytes : Word 8
  maxTotalSupplyBytes : Word 8
  marketNonceBytes : Word 8
  scaledTotalSupplyBytes : Word 16
  scaleFactorBytes : Word 16
  accruedProtocolFeesBytes : Word 8
  totalDepositedBytes : Word 8
  totalBorrowedBytes : Word 8
  totalRepaidBytes : Word 8
  totalInterestRepaidBytes : Word 8
  lastAccrualTimestampBytes : Word 8
  settlementFactorWadBytes : Word 16
  bump : UInt8
  haircutAccumulatorBytes : Word 8
  padding : Word 13
  deriving DecidableEq

structure LenderPosition where
  discriminator : Word 8
  version : UInt8
  market : Word 32
  lender : Word 32
  scaledBalanceBytes : Word 16
  bump : UInt8
  haircutOwedBytes : Word 8
  withdrawalSfBytes : Word 16
  padding : Word 14
  deriving DecidableEq

structure BorrowerWhitelist where
  discriminator : Word 8
  version : UInt8
  borrower : Word 32
  isWhitelisted : UInt8
  maxBorrowCapacityBytes : Word 8
  currentBorrowedBytes : Word 8
  bump : UInt8
  padding : Word 37
  deriving DecidableEq

structure HaircutState where
  discriminator : Word 8
  version : UInt8
  market : Word 32
  claimWeightSumBytes : Word 16
  claimOffsetSumBytes : Word 16
  bump : UInt8
  padding : Word 14
  deriving DecidableEq

/-! ### The bytes of a record -/

def ProtocolConfig.pod : Pod ProtocolConfig :=
  Pod.congr
    (.prod (.bytes 8) <| .prod .byte <| .prod (.bytes 32) <| .prod (.bytes 2) <| .prod (.bytes 32) <|
      .prod (.bytes 32) <| .prod (.bytes 32) <| .prod .byte <| .prod .byte <| .prod .byte <| .prod .byte <| .bytes 51)
    { toFun := fun (a, b, c, d, e, f, g, h, i, j, k, l) =>
        ⟨a, b, c, d, e, f, g, h, i, j, k, l⟩
      invFun x := (x.discriminator, x.version, x.admin, x.feeRateBpsBytes, x.feeAuthority, x.whitelistManager,
        x.blacklistProgram, x.isInitialized, x.bump, x.paused, x.blacklistMode, x.padding)
      left_inv _ := rfl
      right_inv _ := rfl }

def Market.pod : Pod Market :=
  Pod.congr
    (.prod (.bytes 8) <| .prod .byte <| .prod (.bytes 32) <| .prod (.bytes 32) <| .prod (.bytes 32) <| .prod .byte <|
      .prod (.bytes 2) <| .prod (.bytes 8) <| .prod (.bytes 8) <| .prod (.bytes 8) <| .prod (.bytes 16) <|
      .prod (.bytes 16) <| .prod (.bytes 8) <| .prod (.bytes 8) <| .prod (.bytes 8) <| .prod (.bytes 8) <|
      .prod (.bytes 8) <| .prod (.bytes 8) <| .prod (.bytes 16) <| .prod .byte <| .prod (.bytes 8) <| .bytes 13)
    { toFun := fun (a, b, c, d, e, f, g, h, i, j, k, l, m, n, o, p, q, r, s, t, u, v) =>
        ⟨a, b, c, d, e, f, g, h, i, j, k, l, m, n, o, p, q, r, s, t, u, v⟩
      invFun x := (x.discriminator, x.version, x.borrower, x.mint, x.vault, x.marketAuthorityBump,
        x.annualInterestBpsBytes, x.maturityTimestampBytes, x.maxTotalSupplyBytes, x.marketNonceBytes,
        x.scaledTotalSupplyBytes, x.scaleFactorBytes, x.accruedProtocolFeesBytes, x.totalDepositedBytes,
        x.totalBorrowedBytes, x.totalRepaidBytes, x.totalInterestRepaidBytes, x.lastAccrualTimestampBytes,
        x.settlementFactorWadBytes, x.bump, x.haircutAccumulatorBytes, x.padding)
      left_inv _ := rfl
      right_inv _ := rfl }

def LenderPosition.pod : Pod LenderPosition :=
  Pod.congr
    (.prod (.bytes 8) <| .prod .byte <| .prod (.bytes 32) <| .prod (.bytes 32) <| .prod (.bytes 16) <| .prod .byte <|
      .prod (.bytes 8) <| .prod (.bytes 16) <| .bytes 14)
    { toFun := fun (a, b, c, d, e, f, g, h, i) =>
        ⟨a, b, c, d, e, f, g, h, i⟩
      invFun x := (x.discriminator, x.version, x.market, x.lender, x.scaledBalanceBytes, x.bump, x.haircutOwedBytes,
        x.withdrawalSfBytes, x.padding)
      left_inv _ := rfl
      right_inv _ := rfl }

def BorrowerWhitelist.pod : Pod BorrowerWhitelist :=
  Pod.congr
    (.prod (.bytes 8) <| .prod .byte <| .prod (.bytes 32) <| .prod .byte <| .prod (.bytes 8) <| .prod (.bytes 8) <|
      .prod .byte <| .bytes 37)
    { toFun := fun (a, b, c, d, e, f, g, h) =>
        ⟨a, b, c, d, e, f, g, h⟩
      invFun x := (x.discriminator, x.version, x.borrower, x.isWhitelisted, x.maxBorrowCapacityBytes,
        x.currentBorrowedBytes, x.bump, x.padding)
      left_inv _ := rfl
      right_inv _ := rfl }

def HaircutState.pod : Pod HaircutState :=
  Pod.congr
    (.prod (.bytes 8) <| .prod .byte <| .prod (.bytes 32) <| .prod (.bytes 16) <| .prod (.bytes 16) <| .prod .byte <|
      .bytes 14)
    { toFun := fun (a, b, c, d, e, f, g) =>
        ⟨a, b, c, d, e, f, g⟩
      invFun x := (x.discriminator, x.version, x.market, x.claimWeightSumBytes, x.claimOffsetSumBytes, x.bump,
        x.padding)
      left_inv _ := rfl
      right_inv _ := rfl }

/-- The sizes that the accounts are created with. -/
theorem size_pod : ProtocolConfig.pod.size = PROTOCOL_CONFIG_SIZE ∧ Market.pod.size = MARKET_SIZE ∧
    LenderPosition.pod.size = LENDER_POSITION_SIZE ∧ BorrowerWhitelist.pod.size = BORROWER_WHITELIST_SIZE ∧
    HaircutState.pod.size = HAIRCUT_STATE_SIZE :=
  ⟨rfl, rfl, rfl, rfl, rfl⟩

/-! ### Getters and setters -/

namespace ProtocolConfig

variable (x : ProtocolConfig) (val : ℕ)

def feeRateBps : ℕ := x.feeRateBpsBytes.toNat

def setFeeRateBps : ProtocolConfig := { x with feeRateBpsBytes := .ofNat 2 val }

def isPaused : Bool := x.paused != 0

def isBlacklistFailClosed : Bool := x.blacklistMode != 0

end ProtocolConfig

namespace Market

variable (x : Market) (val : ℕ)

def annualInterestBps : ℕ := x.annualInterestBpsBytes.toNat

def setAnnualInterestBps : Market := { x with annualInterestBpsBytes := .ofNat 2 val }

def maturityTimestamp : ℤ := x.maturityTimestampBytes.toInt

def setMaturityTimestamp (val : ℤ) : Market := { x with maturityTimestampBytes := .ofInt 8 val }

def maxTotalSupply : ℕ := x.maxTotalSupplyBytes.toNat

def setMaxTotalSupply : Market := { x with maxTotalSupplyBytes := .ofNat 8 val }

def marketNonce : ℕ := x.marketNonceBytes.toNat

def setMarketNonce : Market := { x with marketNonceBytes := .ofNat 8 val }

def scaledTotalSupply : ℕ := x.scaledTotalSupplyBytes.toNat

def setScaledTotalSupply : Market := { x with scaledTotalSupplyBytes := .ofNat 16 val }

def scaleFactor : ℕ := x.scaleFactorBytes.toNat

def setScaleFactor : Market := { x with scaleFactorBytes := .ofNat 16 val }

def accruedProtocolFees : ℕ := x.accruedProtocolFeesBytes.toNat

def setAccruedProtocolFees : Market := { x with accruedProtocolFeesBytes := .ofNat 8 val }

def totalDeposited : ℕ := x.totalDepositedBytes.toNat

def setTotalDeposited : Market := { x with totalDepositedBytes := .ofNat 8 val }

def totalBorrowed : ℕ := x.totalBorrowedBytes.toNat

def setTotalBorrowed : Market := { x with totalBorrowedBytes := .ofNat 8 val }

def totalRepaid : ℕ := x.totalRepaidBytes.toNat

def setTotalRepaid : Market := { x with totalRepaidBytes := .ofNat 8 val }

def totalInterestRepaid : ℕ := x.totalInterestRepaidBytes.toNat

def setTotalInterestRepaid : Market := { x with totalInterestRepaidBytes := .ofNat 8 val }

def lastAccrualTimestamp : ℤ := x.lastAccrualTimestampBytes.toInt

def setLastAccrualTimestamp (val : ℤ) : Market := { x with lastAccrualTimestampBytes := .ofInt 8 val }

def settlementFactorWad : ℕ := x.settlementFactorWadBytes.toNat

def setSettlementFactorWad : Market := { x with settlementFactorWadBytes := .ofNat 16 val }

def haircutAccumulator : ℕ := x.haircutAccumulatorBytes.toNat

def setHaircutAccumulator : Market := { x with haircutAccumulatorBytes := .ofNat 8 val }

end Market

namespace LenderPosition

variable (x : LenderPosition) (val : ℕ)

def scaledBalance : ℕ := x.scaledBalanceBytes.toNat

def setScaledBalance : LenderPosition := { x with scaledBalanceBytes := .ofNat 16 val }

def haircutOwed : ℕ := x.haircutOwedBytes.toNat

def setHaircutOwed : LenderPosition := { x with haircutOwedBytes := .ofNat 8 val }

def withdrawalSf : ℕ := x.withdrawalSfBytes.toNat

def setWithdrawalSf : LenderPosition := { x with withdrawalSfBytes := .ofNat 16 val }

end LenderPosition

namespace BorrowerWhitelist

variable (x : BorrowerWhitelist) (val : ℕ)

def maxBorrowCapacity : ℕ := x.maxBorrowCapacityBytes.toNat

def setMaxBorrowCapacity : BorrowerWhitelist := { x with maxBorrowCapacityBytes := .ofNat 8 val }

def currentBorrowed : ℕ := x.currentBorrowedBytes.toNat

def setCurrentBorrowed : BorrowerWhitelist := { x with currentBorrowedBytes := .ofNat 8 val }

end BorrowerWhitelist

namespace HaircutState

variable (x : HaircutState) (val : ℕ)

def claimWeightSum : ℕ := x.claimWeightSumBytes.toNat

def setClaimWeightSum : HaircutState := { x with claimWeightSumBytes := .ofNat 16 val }

def claimOffsetSum : ℕ := x.claimOffsetSumBytes.toNat

def setClaimOffsetSum : HaircutState := { x with claimOffsetSumBytes := .ofNat 16 val }

end HaircutState

/-! ### Reading an account -/

section Read

variable {α β : Type}

/-- `try_from_bytes`, and the comparison of the discriminator. -/
def read (f : Pod α) (discriminator : α → Word 8) (expected : Word 8) (data : List UInt8) : Result α := do
  let x ← okOr (f.ofBytes data) .invalidAccountData
  require (discriminator x = expected) .invalidAccountData
  .ok x

theorem read_eq_ok {f : Pod α} {discriminator : α → Word 8} {expected : Word 8} {data : List UInt8} {x : α} :
    read f discriminator expected data = .ok x ↔ f.toBytes x = data ∧ discriminator x = expected := by
  simp only [read, bind_eq_ok, okOr_eq_ok, require_eq_ok, Pod.ofBytes_eq_some, exists_const, Except.ok.injEq]
  constructor
  · rintro ⟨y, hy, hdisc, rfl⟩
    exact ⟨hy, hdisc⟩
  · rintro ⟨hx, hdisc⟩
    exact ⟨x, hx, hdisc, rfl⟩

/-- Reading what was written. -/
theorem read_toBytes {f : Pod α} {discriminator : α → Word 8} {expected : Word 8} {x y : α}
    (h : discriminator x = expected) : read f discriminator expected (f.toBytes x) = .ok y ↔ y = x := by
  rw [read_eq_ok]
  constructor
  · rintro ⟨hy, -⟩
    exact f.toBytes_injective hy
  · rintro rfl
    exact ⟨rfl, h⟩

/-- The data of a record of another size is not read. -/
theorem read_other {f : Pod α} {g : Pod β} (h : g.size ≠ f.size) {discriminator : α → Word 8} {expected : Word 8}
    {x : α} {y : β} : read f discriminator expected (g.toBytes y) ≠ .ok x := by
  intro hread
  have hlength := congrArg List.length (read_eq_ok.1 hread).1
  rw [f.length_toBytes, g.length_toBytes] at hlength
  exact h hlength.symm

end Read

def readProtocolConfig : List UInt8 → Result ProtocolConfig :=
  read ProtocolConfig.pod ProtocolConfig.discriminator DISC_PROTOCOL_CONFIG

def readMarket : List UInt8 → Result Market := read Market.pod Market.discriminator DISC_MARKET

def readLenderPosition : List UInt8 → Result LenderPosition :=
  read LenderPosition.pod LenderPosition.discriminator DISC_LENDER_POSITION

def readBorrowerWhitelist : List UInt8 → Result BorrowerWhitelist :=
  read BorrowerWhitelist.pod BorrowerWhitelist.discriminator DISC_BORROWER_WL

def readHaircutState : List UInt8 → Result HaircutState :=
  read HaircutState.pod HaircutState.discriminator DISC_HAIRCUT_STATE

end Layout

end Coalesce
