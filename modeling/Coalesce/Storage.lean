import Coalesce.Layout
import Coalesce.Widths

/-!
# The accounts of a state

What the program has in the data of its accounts, for the records of a state.  The records drop the discriminators and
are found by address; the program reads bytes.  `accounts_read_back` says that the two agree: of every account of every
reachable state exactly the reader of its own type accepts the data, and it reads the record.

`key` gives the 32 bytes of an address, `bump` the bump of a derived address.
-/

namespace Coalesce

/-! ### Records as bytes -/

section Store

variable (key : Address → Word 32) (bump : Address → UInt8)

def ProtocolConfig.store (c : ProtocolConfig) : Layout.ProtocolConfig :=
  { Layout.ProtocolConfig.pod.zeroed.setFeeRateBps c.feeRateBps with
    discriminator := Layout.DISC_PROTOCOL_CONFIG
    version := 1
    admin := key c.admin
    feeAuthority := key c.feeAuthority
    whitelistManager := key c.whitelistManager
    blacklistProgram := key c.blacklistProgram
    isInitialized := .ofNat c.isInitialized
    bump := bump .protocolConfig
    paused := .ofNat c.paused
    blacklistMode := .ofNat c.blacklistMode }

/-- The market at the address `a`. -/
def Market.store (a : Address) (m : Market) : Layout.Market :=
  { Layout.Market.pod.zeroed
      |>.setAnnualInterestBps m.annualInterestBps
      |>.setMaturityTimestamp m.maturityTimestamp
      |>.setMaxTotalSupply m.maxTotalSupply
      |>.setMarketNonce m.marketNonce
      |>.setScaledTotalSupply m.scaledTotalSupply
      |>.setScaleFactor m.scaleFactor
      |>.setAccruedProtocolFees m.accruedProtocolFees
      |>.setTotalDeposited m.totalDeposited
      |>.setTotalBorrowed m.totalBorrowed
      |>.setTotalRepaid m.totalRepaid
      |>.setTotalInterestRepaid m.totalInterestRepaid
      |>.setLastAccrualTimestamp m.lastAccrualTimestamp
      |>.setSettlementFactorWad m.settlementFactorWad
      |>.setHaircutAccumulator m.haircutAccumulator with
    discriminator := Layout.DISC_MARKET
    version := 1
    borrower := key m.borrower
    mint := key m.mint
    vault := key m.vault
    marketAuthorityBump := bump (.marketAuthority a)
    bump := bump a }

def LenderPosition.store (q : LenderPosition) : Layout.LenderPosition :=
  { Layout.LenderPosition.pod.zeroed
      |>.setScaledBalance q.scaledBalance
      |>.setHaircutOwed q.haircutOwed
      |>.setWithdrawalSf q.withdrawalSf with
    discriminator := Layout.DISC_LENDER_POSITION
    version := 1
    market := key q.market
    lender := key q.lender
    bump := bump (.lender q.market q.lender) }

def BorrowerWhitelist.store (wl : BorrowerWhitelist) : Layout.BorrowerWhitelist :=
  { Layout.BorrowerWhitelist.pod.zeroed
      |>.setMaxBorrowCapacity wl.maxBorrowCapacity
      |>.setCurrentBorrowed wl.currentBorrowed with
    discriminator := Layout.DISC_BORROWER_WL
    version := 1
    borrower := key wl.borrower
    isWhitelisted := .ofNat wl.isWhitelisted
    bump := bump (.borrowerWhitelist wl.borrower) }

def HaircutState.store (hs : HaircutState) : Layout.HaircutState :=
  { Layout.HaircutState.pod.zeroed
      |>.setClaimWeightSum hs.claimWeightSum
      |>.setClaimOffsetSum hs.claimOffsetSum with
    discriminator := Layout.DISC_HAIRCUT_STATE
    version := 1
    market := key hs.market
    bump := bump (.haircutState hs.market) }

/-- The data of the accounts of the program. -/
def World.data (w : World) : Address → Option (List UInt8)
  | .protocolConfig => w.config.map fun c => Layout.ProtocolConfig.pod.toBytes (c.store key bump)
  | .market b n => (w.markets.lookup (.market b n)).map fun ma =>
    Layout.Market.pod.toBytes (ma.market.store key bump (.market b n))
  | .haircutState m => (w.markets.lookup m).map fun ma =>
    Layout.HaircutState.pod.toBytes (ma.haircutState.store key bump)
  | .lender m l => (w.lookupPosition (.lender m l)).map fun q => Layout.LenderPosition.pod.toBytes (q.store key bump)
  | .borrowerWhitelist b => (w.whitelists.lookup b).map fun wl =>
    Layout.BorrowerWhitelist.pod.toBytes (wl.store key bump)
  | _ => none

/-- The size that the account of the program at an address is created with. -/
def Address.dataSize : Address → ℕ
  | .protocolConfig => Layout.PROTOCOL_CONFIG_SIZE
  | .market .. => Layout.MARKET_SIZE
  | .haircutState _ => Layout.HAIRCUT_STATE_SIZE
  | .lender .. => Layout.LENDER_POSITION_SIZE
  | .borrowerWhitelist _ => Layout.BORROWER_WHITELIST_SIZE
  | _ => 0

theorem World.length_data {w : World} {x : Address} {data : List UInt8} (h : w.data key bump x = some data) :
    data.length = x.dataSize := by
  obtain ⟨hconfig, hmarket, hposition, hwhitelist, hhaircut⟩ := Layout.size_pod
  cases x with
  | protocolConfig =>
    obtain ⟨_, -, rfl⟩ := Option.map_eq_some_iff.1 h
    exact (Layout.ProtocolConfig.pod.length_toBytes _).trans hconfig
  | market =>
    obtain ⟨_, -, rfl⟩ := Option.map_eq_some_iff.1 h
    exact (Layout.Market.pod.length_toBytes _).trans hmarket
  | haircutState =>
    obtain ⟨_, -, rfl⟩ := Option.map_eq_some_iff.1 h
    exact (Layout.HaircutState.pod.length_toBytes _).trans hhaircut
  | lender =>
    obtain ⟨_, -, rfl⟩ := Option.map_eq_some_iff.1 h
    exact (Layout.LenderPosition.pod.length_toBytes _).trans hposition
  | borrowerWhitelist =>
    obtain ⟨_, -, rfl⟩ := Option.map_eq_some_iff.1 h
    exact (Layout.BorrowerWhitelist.pod.length_toBytes _).trans hwhitelist
  | _ => cases h

end Store

/-! ### What a stored record says -/

section Holds

variable (key : Address → Word 32)

structure Layout.ProtocolConfig.Holds (d : Layout.ProtocolConfig) (c : Coalesce.ProtocolConfig) : Prop where
  admin : d.admin = key c.admin
  feeRateBps : d.feeRateBps = c.feeRateBps
  feeAuthority : d.feeAuthority = key c.feeAuthority
  whitelistManager : d.whitelistManager = key c.whitelistManager
  blacklistProgram : d.blacklistProgram = key c.blacklistProgram
  isInitialized : d.isInitialized.toNat = c.isInitialized
  isPaused : d.isPaused = c.isPaused
  isBlacklistFailClosed : d.isBlacklistFailClosed = c.isBlacklistFailClosed

structure Layout.Market.Holds (d : Layout.Market) (m : Coalesce.Market) : Prop where
  borrower : d.borrower = key m.borrower
  mint : d.mint = key m.mint
  vault : d.vault = key m.vault
  annualInterestBps : d.annualInterestBps = m.annualInterestBps
  maturityTimestamp : d.maturityTimestamp = m.maturityTimestamp
  maxTotalSupply : d.maxTotalSupply = m.maxTotalSupply
  marketNonce : d.marketNonce = m.marketNonce
  scaledTotalSupply : d.scaledTotalSupply = m.scaledTotalSupply
  scaleFactor : d.scaleFactor = m.scaleFactor
  accruedProtocolFees : d.accruedProtocolFees = m.accruedProtocolFees
  totalDeposited : d.totalDeposited = m.totalDeposited
  totalBorrowed : d.totalBorrowed = m.totalBorrowed
  totalRepaid : d.totalRepaid = m.totalRepaid
  totalInterestRepaid : d.totalInterestRepaid = m.totalInterestRepaid
  lastAccrualTimestamp : d.lastAccrualTimestamp = m.lastAccrualTimestamp
  settlementFactorWad : d.settlementFactorWad = m.settlementFactorWad
  haircutAccumulator : d.haircutAccumulator = m.haircutAccumulator

structure Layout.LenderPosition.Holds (d : Layout.LenderPosition) (q : Coalesce.LenderPosition) : Prop where
  market : d.market = key q.market
  lender : d.lender = key q.lender
  scaledBalance : d.scaledBalance = q.scaledBalance
  haircutOwed : d.haircutOwed = q.haircutOwed
  withdrawalSf : d.withdrawalSf = q.withdrawalSf

structure Layout.BorrowerWhitelist.Holds (d : Layout.BorrowerWhitelist) (wl : Coalesce.BorrowerWhitelist) : Prop where
  borrower : d.borrower = key wl.borrower
  isWhitelisted : d.isWhitelisted.toNat = wl.isWhitelisted
  maxBorrowCapacity : d.maxBorrowCapacity = wl.maxBorrowCapacity
  currentBorrowed : d.currentBorrowed = wl.currentBorrowed

structure Layout.HaircutState.Holds (d : Layout.HaircutState) (hs : Coalesce.HaircutState) : Prop where
  market : d.market = key hs.market
  claimWeightSum : d.claimWeightSum = hs.claimWeightSum
  claimOffsetSum : d.claimOffsetSum = hs.claimOffsetSum

variable {key} {bump : Address → UInt8}

private theorem toNat_word8 {n : ℕ} (h : n ≤ u64Max) : (Word.ofNat 8 n).toNat = n :=
  Word.toNat_ofNat (h.trans_lt (by decide))

private theorem toNat_word16 {n : ℕ} (h : n ≤ u128Max) : (Word.ofNat 16 n).toNat = n :=
  Word.toNat_ofNat (h.trans_lt (by decide))

private theorem toInt_word8 {x : ℤ} (h : FitsI64 x) : (Word.ofInt 8 x).toInt = x := by
  obtain ⟨hlo, hhi⟩ := h
  unfold i64Max at hhi
  exact Word.toInt_ofInt (by omega) (by omega)

private theorem toNat_byte {n : ℕ} (h : n < 2 ^ 8) : (UInt8.ofNat n).toNat = n :=
  UInt8.toNat_ofNat'.trans (Nat.mod_eq_of_lt h)

private theorem flag_byte {n : ℕ} (h : n < 2 ^ 8) : (UInt8.ofNat n != 0) = (n != 0) := by
  rw [Bool.eq_iff_iff, bne_iff_ne, bne_iff_ne, ne_eq, ne_eq, ← UInt8.toNat_inj, toNat_byte h]
  rfl

theorem ProtocolConfig.Fits.holds {c : ProtocolConfig} (h : c.Fits) : (c.store key bump).Holds key c where
  admin := rfl
  feeRateBps := Word.toNat_ofNat h.feeRateBps
  feeAuthority := rfl
  whitelistManager := rfl
  blacklistProgram := rfl
  isInitialized := toNat_byte h.isInitialized
  isPaused := flag_byte h.paused
  isBlacklistFailClosed := flag_byte h.blacklistMode

theorem Market.Fits.holds {m : Market} (h : m.Fits) (a : Address) : (m.store key bump a).Holds key m where
  borrower := rfl
  mint := rfl
  vault := rfl
  annualInterestBps := Word.toNat_ofNat h.annualInterestBps
  maturityTimestamp := toInt_word8 h.maturityTimestamp
  maxTotalSupply := toNat_word8 h.maxTotalSupply
  marketNonce := toNat_word8 h.marketNonce
  scaledTotalSupply := toNat_word16 h.scaledTotalSupply
  scaleFactor := toNat_word16 h.scaleFactor
  accruedProtocolFees := toNat_word8 h.accruedProtocolFees
  totalDeposited := toNat_word8 h.totalDeposited
  totalBorrowed := toNat_word8 h.totalBorrowed
  totalRepaid := toNat_word8 h.totalRepaid
  totalInterestRepaid := toNat_word8 h.totalInterestRepaid
  lastAccrualTimestamp := toInt_word8 h.lastAccrualTimestamp
  settlementFactorWad := toNat_word16 h.settlementFactorWad
  haircutAccumulator := toNat_word8 h.haircutAccumulator

theorem LenderPosition.Fits.holds {q : LenderPosition} (h : q.Fits) : (q.store key bump).Holds key q where
  market := rfl
  lender := rfl
  scaledBalance := toNat_word16 h.scaledBalance
  haircutOwed := toNat_word8 h.haircutOwed
  withdrawalSf := toNat_word16 h.withdrawalSf

theorem BorrowerWhitelist.Fits.holds {wl : BorrowerWhitelist} (h : wl.Fits) : (wl.store key bump).Holds key wl where
  borrower := rfl
  isWhitelisted := toNat_byte h.isWhitelisted
  maxBorrowCapacity := toNat_word8 h.maxBorrowCapacity
  currentBorrowed := toNat_word8 h.currentBorrowed

theorem HaircutState.Fits.holds {hs : HaircutState} (h : hs.Fits) : (hs.store key bump).Holds key hs where
  market := rfl
  claimWeightSum := toNat_word16 h.claimWeightSum
  claimOffsetSum := toNat_word16 h.claimOffsetSum

end Holds

/-! ### Reading an account -/

section Read

variable (key : Address → Word 32) (bump : Address → UInt8) (w : World)

/-- The data of the account at `x` is read by the reader of its type, and by no other, as the record of the state. -/
structure World.ReadsBack (x : Address) (data : List UInt8) : Prop where
  protocolConfig : ∀ d, Layout.readProtocolConfig data = .ok d ↔
    x = .protocolConfig ∧ ∃ c, w.config = some c ∧ d = c.store key bump ∧ d.Holds key c
  market : ∀ d, Layout.readMarket data = .ok d ↔
    ∃ ma, w.markets.lookup x = some ma ∧ d = ma.market.store key bump x ∧ d.Holds key ma.market
  haircutState : ∀ d, Layout.readHaircutState data = .ok d ↔ ∃ m ma, x = .haircutState m ∧
    w.markets.lookup m = some ma ∧ d = ma.haircutState.store key bump ∧ d.Holds key ma.haircutState
  lenderPosition : ∀ d, Layout.readLenderPosition data = .ok d ↔
    ∃ q, w.lookupPosition x = some q ∧ d = q.store key bump ∧ d.Holds key q
  borrowerWhitelist : ∀ d, Layout.readBorrowerWhitelist data = .ok d ↔ ∃ b wl, x = .borrowerWhitelist b ∧
    w.whitelists.lookup b = some wl ∧ d = wl.store key bump ∧ d.Holds key wl

variable {key} {bump} {w} {x : Address} {data : List UInt8}

/-- Only market addresses have a market. -/
private theorem WellFormed.no_market (hw : WellFormed w) (hx : ∀ b n, x ≠ .market b n) : w.markets.lookup x = none := by
  cases h : w.markets.lookup x with
  | none => rfl
  | some ma => exact absurd (hw.placed x ma h).address (hx _ _)

private theorem exists_eq_store {α β : Type} (store : α → β) (Q : β → α → Prop) {o : Option α} {y : α}
    (hy : o = some y) (hQ : Q (store y) y) (d : β) : d = store y ↔ ∃ z, o = some z ∧ d = store z ∧ Q d z := by
  constructor
  · rintro rfl
    exact ⟨y, hy, rfl, hQ⟩
  · rintro ⟨z, hz, rfl, -⟩
    rw [Option.some.inj (hy.symm.trans hz)]

/-- The five types have five sizes, so one reader at most gets past `try_from_bytes`. -/
theorem WellFormed.readsBack (hw : WellFormed w) (hf : w.Fits) (h : w.data key bump x = some data) :
    w.ReadsBack key bump x data := by
  cases x with
  | key | programData | marketAuthority | vault | blacklist => cases h
  | protocolConfig =>
    obtain ⟨c, hc, rfl⟩ := Option.map_eq_some_iff.1 h
    have hnone := hw.no_market (x := .protocolConfig) (by simp)
    constructor
    · intro d
      refine (Layout.read_toBytes rfl).trans ((exists_eq_store _ _ hc (hf.config c hc).holds d).trans ?_)
      exact (and_iff_right rfl).symm
    · exact fun d => iff_of_false (Layout.read_other (by decide)) (by simp [hnone])
    · exact fun d => iff_of_false (Layout.read_other (by decide)) (by simp)
    · exact fun d => iff_of_false (Layout.read_other (by decide)) (by simp [World.lookupPosition])
    · exact fun d => iff_of_false (Layout.read_other (by decide)) (by simp)
  | market b n =>
    obtain ⟨ma, hma, rfl⟩ := Option.map_eq_some_iff.1 h
    constructor
    · exact fun d => iff_of_false (Layout.read_other (by decide)) (by simp)
    · exact fun d => (Layout.read_toBytes rfl).trans (exists_eq_store
        (fun ma : MarketAccounts => ma.market.store key bump (.market b n)) (fun d ma => d.Holds key ma.market) hma
        ((hf.markets _ ma hma).market.holds _) d)
    · exact fun d => iff_of_false (Layout.read_other (by decide)) (by simp)
    · exact fun d => iff_of_false (Layout.read_other (by decide)) (by simp [World.lookupPosition])
    · exact fun d => iff_of_false (Layout.read_other (by decide)) (by simp)
  | haircutState m =>
    obtain ⟨ma, hma, rfl⟩ := Option.map_eq_some_iff.1 h
    have hnone := hw.no_market (x := .haircutState m) (by simp)
    constructor
    · exact fun d => iff_of_false (Layout.read_other (by decide)) (by simp)
    · exact fun d => iff_of_false (Layout.read_other (by decide)) (by simp [hnone])
    · intro d
      refine (Layout.read_toBytes rfl).trans ((exists_eq_store
        (fun ma : MarketAccounts => ma.haircutState.store key bump) (fun d ma => d.Holds key ma.haircutState) hma
        (hf.markets m ma hma).haircutState.holds d).trans ?_)
      simp
    · exact fun d => iff_of_false (Layout.read_other (by decide)) (by simp [World.lookupPosition])
    · exact fun d => iff_of_false (Layout.read_other (by decide)) (by simp)
  | lender m l =>
    obtain ⟨q, hq, rfl⟩ := Option.map_eq_some_iff.1 h
    have hnone := hw.no_market (x := .lender m l) (by simp)
    have hfits : q.Fits := by
      obtain ⟨ma, hma, hq⟩ := Option.bind_eq_some_iff.1 hq
      exact (hf.markets m ma hma).positions l q hq
    constructor
    · exact fun d => iff_of_false (Layout.read_other (by decide)) (by simp)
    · exact fun d => iff_of_false (Layout.read_other (by decide)) (by simp [hnone])
    · exact fun d => iff_of_false (Layout.read_other (by decide)) (by simp)
    · exact fun d => (Layout.read_toBytes rfl).trans (exists_eq_store _ _ hq hfits.holds d)
    · exact fun d => iff_of_false (Layout.read_other (by decide)) (by simp)
  | borrowerWhitelist b =>
    obtain ⟨wl, hwl, rfl⟩ := Option.map_eq_some_iff.1 h
    have hnone := hw.no_market (x := .borrowerWhitelist b) (by simp)
    constructor
    · exact fun d => iff_of_false (Layout.read_other (by decide)) (by simp)
    · exact fun d => iff_of_false (Layout.read_other (by decide)) (by simp [hnone])
    · exact fun d => iff_of_false (Layout.read_other (by decide)) (by simp)
    · exact fun d => iff_of_false (Layout.read_other (by decide)) (by simp [World.lookupPosition])
    · intro d
      refine (Layout.read_toBytes rfl).trans ((exists_eq_store _ _ hwl (hf.whitelists b wl hwl).holds d).trans ?_)
      simp

/-- The accounts of the program are those with data. -/
theorem World.owned_iff : w.owned x ↔ ∃ data, w.data key bump x = some data := by
  rw [← Option.isSome_iff_exists]
  cases x with
  | lender m l =>
    rw [owned, data, Option.isSome_map]
    rfl
  | _ => simp [owned, data]

end Read

/-- In every state of a chain whose clock starts as a 64-bit number, every account of the program has data, as long as
the account was made, and of this data exactly the reader of its own type accepts it and reads the record that the state
has there. -/
theorem accounts_read_back {w₀ w : World} {hist : List Record} (hg : Genesis w₀) (hclock : -2 ^ 63 ≤ w₀.clock)
    (r : Run w₀ hist w) (key : Address → Word 32) (bump : Address → UInt8) (x : Address) (hx : w.owned x) :
    ∃ data, w.data key bump x = some data ∧ data.length = x.dataSize ∧ w.ReadsBack key bump x data := by
  obtain ⟨data, hdata⟩ := World.owned_iff.1 hx
  exact ⟨data, hdata, World.length_data key bump hdata,
    (Reachable.wellFormed (r.reachable (.init hg))).readsBack (r.fits hg hclock).2 hdata⟩

/-- The accounts of the market after two exits at one half. -/
theorem accounts_read_back_haircut : ∃ data,
    (Sample.genesis.performAll Sample.haircut).data (fun _ => Word.zero) (fun _ => 255) Sample.market = some data ∧
      data.length = Layout.MARKET_SIZE ∧
      (Sample.genesis.performAll Sample.haircut).ReadsBack (fun _ => Word.zero) (fun _ => 255) Sample.market data :=
  accounts_read_back Sample.genesis_initial (by decide) (Sample.genesis.performAll_run Sample.haircut) _ _ _
    (by decide +kernel)

end Coalesce
