import Coalesce.Errors
import Coalesce.Lib.KeyedSum
import Coalesce.Lib.Pod

/-!
# Accounts

The account records of the program, the addresses they live at, and the state of the whole chain as far as the
program can see it.

A program derived address is represented by the seeds it is derived from, so `find_program_address` is the
constructor itself and two different seed lists never give one address.  The records drop the discriminator, the
version, the bump and the padding: a record found at a derived address has the type that belongs to it.  The
accounts of one market (its record, its `HaircutState` and its lender positions) are kept together.
-/

namespace Coalesce

open LendingError

/-! ### Constants -/

/-- Fixed-point one, `1e18`. -/
def WAD : ℕ := 1000000000000000000

def BPS : ℕ := 10000

def SECONDS_PER_YEAR : ℕ := 31536000

def SECONDS_PER_DAY : ℕ := 86400

def DAYS_PER_YEAR : ℕ := 365

def MAX_ANNUAL_INTEREST_BPS : ℕ := 10000

def MAX_FEE_RATE_BPS : ℕ := 10000

def USDC_DECIMALS : ℕ := 6

def MIN_MATURITY_DELTA : ℤ := 60

def MAX_MATURITY_DELTA : ℤ := 157680000

def SETTLEMENT_GRACE_PERIOD : ℤ := 300

theorem WAD_pos : 0 < WAD := by decide

/-! ### Addresses -/

inductive Address
  /-- An address with a private key, or of another program: its 32 bytes read as a number. -/
  | key (n : ℕ)
  /-- The loader's account that holds the code of this program and its upgrade authority. -/
  | programData
  | protocolConfig
  | market (borrower : Address) (nonce : ℕ)
  | marketAuthority (market : Address)
  | lender (market lender : Address)
  | vault (market : Address)
  | borrowerWhitelist (borrower : Address)
  | blacklist (program address : Address)
  | haircutState (market : Address)
  deriving DecidableEq, Repr

/-- Only an address with a private key can sign a transaction. -/
def Address.isKey : Address → Bool
  | key _ => true
  | _ => false

def ZERO_ADDRESS : Address := .key 0

/-- The address of the SPL Token program. -/
def TOKEN_PROGRAM_ID : Address := .key 0x06ddf6e1d765a193d9cbe146ceeb79ac1cb485ed5f5b37913a8cf5857eff00a9

def USDC_MINT : Address := .key 0xc6fa7af3bedbad3a3d65f36aabc97431b1bbe4c2d2f6e0e47ca60203452f5d61

/-! ### Records -/

structure ProtocolConfig where
  admin : Address
  feeRateBps : ℕ
  feeAuthority : Address
  whitelistManager : Address
  blacklistProgram : Address
  isInitialized : ℕ
  paused : ℕ
  blacklistMode : ℕ
  deriving DecidableEq

def ProtocolConfig.isPaused (c : ProtocolConfig) : Bool := c.paused != 0

def ProtocolConfig.isBlacklistFailClosed (c : ProtocolConfig) : Bool := c.blacklistMode != 0

structure Market where
  -- immutable after creation
  borrower : Address
  mint : Address
  vault : Address
  annualInterestBps : ℕ
  maturityTimestamp : ℤ
  maxTotalSupply : ℕ
  marketNonce : ℕ
  -- mutable state
  scaledTotalSupply : ℕ
  scaleFactor : ℕ
  accruedProtocolFees : ℕ
  totalDeposited : ℕ
  totalBorrowed : ℕ
  totalRepaid : ℕ
  totalInterestRepaid : ℕ
  lastAccrualTimestamp : ℤ
  /-- 0 = unsettled. -/
  settlementFactorWad : ℕ
  haircutAccumulator : ℕ
  deriving DecidableEq

structure LenderPosition where
  market : Address
  lender : Address
  scaledBalance : ℕ
  haircutOwed : ℕ
  withdrawalSf : ℕ
  deriving DecidableEq

structure BorrowerWhitelist where
  borrower : Address
  isWhitelisted : ℕ
  maxBorrowCapacity : ℕ
  currentBorrowed : ℕ
  deriving DecidableEq

structure HaircutState where
  market : Address
  claimWeightSum : ℕ
  claimOffsetSum : ℕ
  deriving DecidableEq

/-- The accounts of one market; positions are found by the address of the lender. -/
structure MarketAccounts where
  market : Market
  haircutState : HaircutState
  positions : Finmap fun _ : Address => LenderPosition
  deriving DecidableEq

/-! ### Tokens -/

structure TokenAccount where
  mint : Address
  owner : Address
  amount : ℕ
  deriving DecidableEq

def TokenAccount.amountOf (mint : Address) (t : TokenAccount) : ℕ :=
  if t.mint = mint then t.amount else 0

/-- The token accounts of the chain.  The supply of a mint is a `u64`, so all its accounts together hold at most
that much. -/
structure TokenLedger where
  accounts : Finmap fun _ : Address => TokenAccount
  supply_le : ∀ mint, accounts.total (TokenAccount.amountOf mint) ≤ u64Max

def TokenLedger.lookup (t : TokenLedger) (a : Address) : Option TokenAccount := t.accounts.lookup a

def TokenLedger.amount (t : TokenLedger) (a : Address) : ℕ := ((t.lookup a).map TokenAccount.amount).getD 0

/-! ### The chain -/

structure World where
  /-- `unix_timestamp` of the Clock sysvar. -/
  clock : ℤ
  /-- The upgrade authority of the program, if it still has one. -/
  upgradeAuthority : Option Address
  config : Option ProtocolConfig
  whitelists : Finmap fun _ : Address => BorrowerWhitelist
  markets : Finmap fun _ : Address => MarketAccounts
  tokens : TokenLedger
  /-- The decimals of each mint account. -/
  mints : Address → Option ℕ
  /-- The data of the accounts that the blacklist program owns. -/
  blacklist : Address → Option (List UInt8)

structure AccountMeta where
  address : Address
  isSigner : Bool
  deriving DecidableEq, Repr

/-! ### Instruction data -/

/-- Little-endian bytes as a number. -/
def leNat (bs : List UInt8) : ℕ := bs.foldr (fun b n => b.toNat + 256 * n) 0

def u16At (data : List UInt8) (i : ℕ) : ℕ := leNat ((data.drop i).take 2)

def u64At (data : List UInt8) (i : ℕ) : ℕ := leNat ((data.drop i).take 8)

def u128At (data : List UInt8) (i : ℕ) : ℕ := leNat ((data.drop i).take 16)

/-- Two's complement. -/
def i64At (data : List UInt8) (i : ℕ) : ℤ :=
  let n := u64At data i
  if n < 2 ^ 63 then n else n - 2 ^ 64

theorem leNat_lt (bs : List UInt8) : leNat bs < 256 ^ bs.length := LittleEndian.value_lt bs

theorem leNat_take_lt (bs : List UInt8) (n : ℕ) : leNat (bs.take n) < 256 ^ n := by
  refine (leNat_lt _).trans_le (Nat.pow_le_pow_right (by decide) ?_)
  rw [List.length_take]
  exact Nat.min_le_left _ _

theorem u64At_le (data : List UInt8) (i : ℕ) : u64At data i ≤ u64Max :=
  Nat.le_of_lt_succ (leNat_take_lt _ 8)

theorem i64At_bounds (data : List UInt8) (i : ℕ) : -2 ^ 63 ≤ i64At data i ∧ i64At data i ≤ i64Max := by
  have h : u64At data i < 2 ^ 64 := leNat_take_lt _ 8
  unfold i64At i64Max
  dsimp only
  split <;> omega

end Coalesce
