import Coalesce.Refinement

/-!
# Who may do what

`Authorized` lists, for every instruction that succeeds, the keys that signed it, the checks on the configuration, the
blacklist and the whitelist that it passed, and the one token transfer it makes.  It complements `Effect`, which says
what the instruction does to the accounts of a market; every result about signatures, the pause and the flow of tokens
is read off it.
-/

namespace Coalesce

open LendingError

/-- The address signed the transaction. -/
def Signed (accounts : List AccountMeta) (x : Address) : Prop := ∃ s ∈ accounts, s.isSigner ∧ s.address = x

/-- The blacklist of the configuration lets the address pass. -/
def World.NotBlacklisted (w : World) (c : ProtocolConfig) (x : Address) : Prop :=
  match w.blacklist (.blacklist c.blacklistProgram x) with
  | none => ¬c.isBlacklistFailClosed
  | some data => data.head? = some 0

/-- The whitelist accepts the borrower. -/
def World.Whitelisted (w : World) (b : Address) : Prop :=
  ∃ wl, w.whitelists.lookup b = some wl ∧ wl.isWhitelisted = 1

/-- The borrower of the market `a`. -/
def World.IsBorrower (w : World) (a b : Address) : Prop :=
  ∃ ma, w.markets.lookup a = some ma ∧ ma.market.borrower = b

/-- The grace period of the market `a` is over. -/
def World.GraceOver (w : World) (a : Address) : Prop :=
  ∃ ma, w.markets.lookup a = some ma ∧ ma.market.maturityTimestamp + SETTLEMENT_GRACE_PERIOD ≤ w.clock

/-- `payer` signs and moves `n` tokens of its own into the vault of `a`. -/
structure PaysIn (w : World) (signed : Address → Prop) (a payer : Address) (n : ℕ) (t : TokenLedger) : Prop where
  signed : signed payer
  positive : n ≠ 0
  transfer : ∃ src s, w.tokens.lookup src = some s ∧ s.owner = payer ∧
    w.tokens.transfer src (.vault a) payer n = .ok t

/-- `n` tokens move out of the vault of `a` to an account of `payee`. -/
def PaysOut (w : World) (a payee : Address) (n : ℕ) (t : TokenLedger) : Prop :=
  ∃ dst d, w.tokens.lookup dst = some d ∧ d.owner = payee ∧
    (w.tokens.transfer (.vault a) dst (.marketAuthority a) n = .ok t ∨ n = 0 ∧ t = w.tokens)

/-- What an instruction of the admin does to the configuration. -/
inductive Administers (c : ProtocolConfig) : Event → ProtocolConfig → Prop
  | setFeeConfig {bps : ℕ} {feeAuthority : Address} (hbps : bps ≤ MAX_FEE_RATE_BPS)
      (haddress : feeAuthority ≠ ZERO_ADDRESS) :
      Administers c (.setFeeConfig bps) { c with feeRateBps := bps, feeAuthority }
  | setPause (paused : Bool) : Administers c (.setPause paused) { c with paused := if paused then 1 else 0 }
  | setBlacklistMode (failClosed : Bool) :
      Administers c (.setBlacklistMode failClosed) { c with blacklistMode := if failClosed then 1 else 0 }
  | setAdmin {admin : Address} (haddress : admin ≠ ZERO_ADDRESS) : Administers c (.setAdmin admin) { c with admin }
  | setWhitelistManager {whitelistManager : Address} (haddress : whitelistManager ≠ ZERO_ADDRESS) :
      Administers c (.setWhitelistManager whitelistManager) { c with whitelistManager }

/-- Who may order what of the market `a`, and where the tokens go. -/
inductive MarketOrder (w : World) (signed : Address → Prop) (c : ProtocolConfig) (a : Address) :
    Event → TokenLedger → Prop
  | createMarket {b : Address} {nonce : ℕ} {t : TokenLedger} (hsigned : signed b) (hlisted : w.Whitelisted b)
      (hclear : w.NotBlacklisted c b)
      (htokens : w.tokens.openAccount (.vault a) USDC_MINT (.marketAuthority a) = .ok t) :
      MarketOrder w signed c a (.createMarket a b nonce) t
  | deposit {l : Address} {n scaled : ℕ} {t : TokenLedger} (hclear : w.NotBlacklisted c l) (hscaled : scaled ≠ 0)
      (hpays : PaysIn w signed a l n t) : MarketOrder w signed c a (.deposit a l n scaled) t
  | borrow {b : Address} {n : ℕ} {t : TokenLedger} (hsigned : signed b) (hborrower : w.IsBorrower a b)
      (hfits : ∃ ma, w.markets.lookup a = some ma ∧ ma.market.totalBorrowed + n ≤ u64Max)
      (hlisted : ∃ wl, w.whitelists.lookup b = some wl ∧ wl.isWhitelisted = 1 ∧
        wl.currentBorrowed + n ≤ u64Max ∧ wl.currentBorrowed + n ≤ wl.maxBorrowCapacity)
      (hclear : w.NotBlacklisted c b) (hpays : PaysOut w a b n t) : MarketOrder w signed c a (.borrow a b n) t
  | repay {payer : Address} {n debt : ℕ} {t : TokenLedger}
      (hfits : ∃ ma, w.markets.lookup a = some ma ∧ ma.market.totalRepaid + n ≤ u64Max ∧
        ∃ wl, w.whitelists.lookup ma.market.borrower = some wl ∧ n ≤ wl.currentBorrowed ∧
          debt = wl.currentBorrowed - n)
      (hpays : PaysIn w signed a payer n t) : MarketOrder w signed c a (.repay a payer n debt) t
  | repayInterest {payer : Address} {n total : ℕ} {t : TokenLedger}
      (hfits : ∃ ma, w.markets.lookup a = some ma ∧ ma.market.totalRepaid + n ≤ u64Max ∧
        ma.market.totalInterestRepaid + n ≤ u64Max ∧ total = ma.market.totalInterestRepaid + n)
      (hpays : PaysIn w signed a payer n t) : MarketOrder w signed c a (.repayInterest a payer n total) t
  | withdraw {l : Address} {payout scaled : ℕ} {t : TokenLedger} (hsigned : signed l) (hclear : w.NotBlacklisted c l)
      (hpays : PaysOut w a l payout t) : MarketOrder w signed c a (.withdraw a l payout scaled) t
  | collectFees {n : ℕ} (hsigned : signed c.feeAuthority) {t : TokenLedger} (hpays : PaysOut w a c.feeAuthority n t) :
      MarketOrder w signed c a (.collectFees a n) t
  | reSettle {factor : ℕ} : MarketOrder w signed c a (.reSettle a factor) w.tokens
  | closePosition {l : Address} (hsigned : signed l) : MarketOrder w signed c a (.closePosition a l) w.tokens
  | withdrawExcess {b : Address} {n : ℕ} {t : TokenLedger} (hsigned : signed b) (hborrower : w.IsBorrower a b)
      (hlisted : w.Whitelisted b) (hclear : w.NotBlacklisted c b)
      (htransfer : ∃ dst, w.tokens.transfer (.vault a) dst (.marketAuthority a) n = .ok t) :
      MarketOrder w signed c a (.withdrawExcess a b n) t
  | forceClose {b l : Address} {payout scaled : ℕ} {t : TokenLedger} (hsigned : signed b)
      (hborrower : w.IsBorrower a b) (hgrace : w.GraceOver a) (hpays : PaysOut w a l payout t) :
      MarketOrder w signed c a (.forceClose a l payout scaled) t
  | claimHaircut {l : Address} {claimed remaining : ℕ} {t : TokenLedger} (hsigned : signed l)
      (hpays : PaysOut w a l claimed t) : MarketOrder w signed c a (.claimHaircut a l claimed remaining) t
  | forceClaimHaircut {b l : Address} {claimed remaining : ℕ} {t : TokenLedger} (hsigned : signed b)
      (hborrower : w.IsBorrower a b) (hgrace : w.GraceOver a) (hpays : PaysOut w a l claimed t) :
      MarketOrder w signed c a (.forceClaimHaircut a l claimed remaining) t

/-- Every instruction that succeeds is of one of these kinds. -/
inductive Authorized (w : World) (signed : Address → Prop) : Event → World → Prop
  /-- The upgrade authority sets the protocol up. -/
  | initializes {c : ProtocolConfig} (hnew : w.config = none) (hsigned : signed c.admin)
      (hauthority : w.upgradeAuthority = some c.admin) (hrate : c.feeRateBps ≤ MAX_FEE_RATE_BPS)
      (hactive : c.isInitialized = 1 ∧ c.paused = 0 ∧ c.blacklistMode = 0) :
      Authorized w signed (.initializeProtocol c.admin c.feeRateBps) { w with config := some c }
  | administers {c c' : ProtocolConfig} {e : Event} (hconfig : w.config = some c) (hsigned : signed c.admin)
      (h : Administers c e c') : Authorized w signed e { w with config := some c' }
  | lists {c : ProtocolConfig} {b : Address} {flag capacity : ℕ} {wl : BorrowerWhitelist}
      (hconfig : w.config = some c) (hsigned : signed c.whitelistManager) (hflag : flag < 256)
      (hcapacity : capacity ≤ u64Max)
      (hwl : updatedWhitelist (w.whitelists.lookup b) b flag capacity = .ok wl) :
      Authorized w signed (.setWhitelist b flag) { w with whitelists := w.whitelists.insert b wl }
  | market {c : ProtocolConfig} {a : Address} {e : Event} {w' : World} (hconfig : w.config = some c)
      (hpaused : ¬c.isPaused) (hkeeps : w'.config = w.config) (h : MarketOrder w signed c a e w'.tokens) :
      Authorized w signed e w'

/-! ### The guards of the handlers -/

section Guards

variable {w w' : World} {accounts : List AccountMeta} {data : List UInt8} {e : Event}

theorem checkBlacklist_eq_ok {account : AccountMeta} {c : ProtocolConfig} {x : Address} {u : Unit} :
    checkBlacklist w account c x = .ok u ↔
      account.address = .blacklist c.blacklistProgram x ∧ w.NotBlacklisted c x := by
  simp only [checkBlacklist, World.NotBlacklisted, bind_eq_ok, require_eq_ok, exists_const]
  apply and_congr_right
  intro haddress
  rw [haddress]
  cases w.blacklist (.blacklist c.blacklistProgram x) with
  | none => simp
  | some data =>
    cases data with
    | nil => simp
    | cons status data =>
      by_cases h1 : status = 1
      · simp [h1]
      · simp [h1]

theorem loadConfigAsAdmin_eq_ok {protocolConfig admin : AccountMeta} {c : ProtocolConfig} :
    loadConfigAsAdmin w protocolConfig admin = .ok c ↔
      protocolConfig.address = .protocolConfig ∧ w.config = some c ∧ c.admin = admin.address ∧ admin.isSigner := by
  simp only [loadConfigAsAdmin, bind_eq_ok, loadProtocolConfig_eq_ok, require_eq_ok, exists_const, Except.ok.injEq]
  constructor
  · rintro ⟨_, ⟨hp, hc⟩, hadmin, hsigner, rfl⟩
    exact ⟨hp, hc, hadmin, hsigner⟩
  · rintro ⟨hp, hc, hadmin, hsigner⟩
    exact ⟨_, ⟨hp, hc⟩, hadmin, hsigner, rfl⟩

private theorem signed_of {s : AccountMeta} (hs : s ∈ accounts) (h : s.isSigner) : Signed accounts s.address :=
  ⟨s, hs, h, rfl⟩

private theorem paysIn_of_transfer {a payer src : Address} {n : ℕ} {s : TokenAccount} {t : TokenLedger}
    (hsigned : Signed accounts payer) (hn : n ≠ 0) (hs : w.tokens.lookup src = some s) (howner : s.owner = payer)
    (ht : w.tokens.transfer src (.vault a) payer n = .ok t) : PaysIn w (Signed accounts) a payer n t :=
  ⟨hsigned, hn, src, s, hs, howner, ht⟩

private theorem paysOut_of_transferIfPositive {a payee dst : Address} {n : ℕ} {d : TokenAccount} {t : TokenLedger}
    (hd : w.tokens.lookup dst = some d) (howner : d.owner = payee)
    (ht : transferIfPositive w (.vault a) dst (.marketAuthority a) n = .ok t) : PaysOut w a payee n t := by
  refine ⟨dst, d, hd, howner, ?_⟩
  unfold transferIfPositive at ht
  split at ht
  · exact .inl ht
  · exact .inr ⟨by omega, (Except.ok.inj ht).symm⟩

theorem initializeProtocol_authorized (h : initializeProtocol w accounts data = .ok (w', e)) :
    Authorized w (Signed accounts) e w' := by
  unfold initializeProtocol at h
  split at h
  · simp only [bind_eq_ok, require_eq_ok, exists_const, Except.ok.injEq, Prod.mk.injEq] at h
    obtain ⟨-, hsigner, -, hauthority, hrate, -, -, -, -, hnew, rfl, rfl⟩ := h
    exact .initializes (c := ⟨_, _, _, _, _, 1, 0, 0⟩) hnew (signed_of (by simp) hsigner) hauthority hrate
      ⟨rfl, rfl, rfl⟩
  · cases h

theorem setFeeConfig_authorized (h : setFeeConfig w accounts data = .ok (w', e)) :
    Authorized w (Signed accounts) e w' := by
  unfold setFeeConfig at h
  split at h
  · simp only [bind_eq_ok, require_eq_ok, loadConfigAsAdmin_eq_ok, exists_const, Except.ok.injEq, Prod.mk.injEq] at h
    obtain ⟨-, c, ⟨-, hconfig, hadmin, hsigner⟩, hrate, haddress, rfl, rfl⟩ := h
    exact .administers hconfig (hadmin ▸ signed_of (by simp) hsigner) (.setFeeConfig hrate haddress)
  · cases h

private theorem flag_eq (byte : UInt8) : (if byte ≠ 0 then 1 else 0) = if (byte ≠ 0 : Bool) then 1 else 0 := by
  by_cases h : byte = 0 <;> simp [h]

theorem setPause_authorized (h : setPause w accounts data = .ok (w', e)) : Authorized w (Signed accounts) e w' := by
  unfold setPause at h
  split at h
  · simp only [bind_eq_ok, loadConfigAsAdmin_eq_ok, Except.ok.injEq, Prod.mk.injEq] at h
    obtain ⟨byte, -, c, ⟨-, hconfig, hadmin, hsigner⟩, rfl, rfl⟩ := h
    rw [flag_eq]
    exact .administers hconfig (hadmin ▸ signed_of (by simp) hsigner) (.setPause _)
  · cases h

theorem setBlacklistMode_authorized (h : setBlacklistMode w accounts data = .ok (w', e)) :
    Authorized w (Signed accounts) e w' := by
  unfold setBlacklistMode at h
  split at h
  · simp only [bind_eq_ok, loadConfigAsAdmin_eq_ok, Except.ok.injEq, Prod.mk.injEq] at h
    obtain ⟨byte, -, c, ⟨-, hconfig, hadmin, hsigner⟩, rfl, rfl⟩ := h
    rw [flag_eq]
    exact .administers hconfig (hadmin ▸ signed_of (by simp) hsigner) (.setBlacklistMode _)
  · cases h

theorem setAdmin_authorized (h : setAdmin w accounts = .ok (w', e)) : Authorized w (Signed accounts) e w' := by
  unfold setAdmin at h
  split at h
  · simp only [bind_eq_ok, require_eq_ok, loadConfigAsAdmin_eq_ok, exists_const, Except.ok.injEq, Prod.mk.injEq] at h
    obtain ⟨c, ⟨-, hconfig, hadmin, hsigner⟩, haddress, rfl, rfl⟩ := h
    exact .administers hconfig (hadmin ▸ signed_of (by simp) hsigner) (.setAdmin haddress)
  · cases h

theorem setWhitelistManager_authorized (h : setWhitelistManager w accounts = .ok (w', e)) :
    Authorized w (Signed accounts) e w' := by
  unfold setWhitelistManager at h
  split at h
  · simp only [bind_eq_ok, require_eq_ok, loadConfigAsAdmin_eq_ok, exists_const, Except.ok.injEq, Prod.mk.injEq] at h
    obtain ⟨c, ⟨-, hconfig, hadmin, hsigner⟩, haddress, rfl, rfl⟩ := h
    exact .administers hconfig (hadmin ▸ signed_of (by simp) hsigner) (.setWhitelistManager haddress)
  · cases h

theorem setBorrowerWhitelist_authorized (h : setBorrowerWhitelist w accounts data = .ok (w', e)) :
    Authorized w (Signed accounts) e w' := by
  unfold setBorrowerWhitelist at h
  split at h
  · simp only [bind_eq_ok, require_eq_ok, loadProtocolConfig_eq_ok, exists_const, Except.ok.injEq, Prod.mk.injEq] at h
    obtain ⟨-, c, ⟨-, hconfig⟩, hmanager, hsigner, -, -, wl, hwl, rfl, rfl⟩ := h
    exact .lists hconfig (hmanager ▸ signed_of (by simp) hsigner) (leNat_take_lt data 1) (u64At_le data 1) hwl
  · cases h

theorem createMarket_authorized (h : createMarket w accounts data = .ok (w', e)) :
    Authorized w (Signed accounts) e w' := by
  unfold createMarket at h
  split at h
  · rename_i market borrower mint vault marketAuthority protocolConfig borrowerWhitelist blacklistCheck x₁ x₂
      haircutState xs
    simp only [bind_eq_ok, require_eq_ok, loadProtocolConfig_eq_ok, loadBorrowerWhitelist_eq_ok, checkBlacklist_eq_ok,
      exists_const, Except.ok.injEq, Prod.mk.injEq] at h
    obtain ⟨-, hsigner, c, ⟨-, hconfig⟩, hpaused, -, _, -, _, -, -, hmint, wl, ⟨-, hwl⟩, hlisted, ⟨-, hclear⟩, -,
      hvault, -, -, t, ht, -, rfl, rfl⟩ := h
    rw [hvault, hmint] at ht
    exact .market hconfig hpaused rfl
      (.createMarket (signed_of (by simp) hsigner) ⟨wl, hwl, hlisted⟩ hclear ht)
  · cases h

theorem deposit_authorized (hw : WellFormed w) (h : deposit w accounts data = .ok (w', e)) :
    Authorized w (Signed accounts) e w' := by
  unfold deposit at h
  split at h
  · rename_i market lender lenderToken vault lenderPosition blacklistCheck protocolConfig mint tokenProgram x xs
    simp only [bind_eq_ok, require_eq_ok, loadMarket_eq_ok, loadProtocolConfig_eq_ok, loadTokenAccount_eq_ok,
      checkBlacklist_eq_ok, exists_const, Except.ok.injEq, Prod.mk.injEq] at h
    obtain ⟨-, -, hamount, hsigner, c, ⟨-, hconfig⟩, hpaused, ma, ⟨hma, -⟩, hvault, -, -, ⟨-, hclear⟩, m, -, -, _, -,
      scaled, -, hscaled, _, -, -, _, -, s, hs, howner, -, position, -, t, ht, rfl, rfl⟩ := h
    rw [← hvault, (hw.placed _ _ hma).vault] at ht
    exact .market hconfig hpaused rfl (.deposit hclear hscaled
      (paysIn_of_transfer (signed_of (by simp) hsigner) hamount hs howner ht))
  · cases h

theorem borrow_authorized (hw : WellFormed w) (h : borrow w accounts data = .ok (w', e)) :
    Authorized w (Signed accounts) e w' := by
  unfold borrow at h
  split at h
  · rename_i market borrower borrowerToken vault marketAuthority borrowerWhitelist blacklistCheck protocolConfig
      tokenProgram xs
    simp only [bind_eq_ok, require_eq_ok, checkedAdd_eq_ok, loadMarket_eq_ok, loadProtocolConfig_eq_ok,
      loadTokenAccount_eq_ok, loadBorrowerWhitelist_eq_ok, checkBlacklist_eq_ok, validateMarketAuthority, exists_const,
      Except.ok.injEq, Prod.mk.injEq] at h
    obtain ⟨-, -, -, c, ⟨-, hconfig⟩, hpaused, ma, ⟨hma, -⟩, _, -, hborrower, hsigner, hvault, -, ⟨-, hclear⟩, m,
      haccrue, _, -, -, wl, ⟨-, hwl⟩, hlisted, _, ⟨hcounter, rfl⟩, hcapacity, hauthority, _, -, d, hd, howner, _,
      ⟨htotal, rfl⟩, t, ht, rfl, rfl⟩ := h
    rw [← hvault, (hw.placed _ _ hma).vault, hauthority] at ht
    obtain ⟨_, _, rfl, -⟩ := accrueInterest_ok haccrue
    exact .market hconfig hpaused rfl (.borrow (signed_of (by simp) hsigner) ⟨ma, hma, hborrower⟩ ⟨ma, hma, htotal⟩
      ⟨wl, hwl, hlisted, hcounter, hcapacity⟩ hclear ⟨_, d, hd, howner, .inl ht⟩)
  · cases h

theorem repay_authorized (hw : WellFormed w) (h : repay w accounts data = .ok (w', e)) :
    Authorized w (Signed accounts) e w' := by
  unfold repay at h
  split at h
  · rename_i market payer payerToken vault protocolConfig mint borrowerWhitelist tokenProgram xs
    simp only [bind_eq_ok, require_eq_ok, checkedAdd_eq_ok, checkedSub_eq_ok, loadMarket_eq_ok,
      loadProtocolConfig_eq_ok, loadTokenAccount_eq_ok, loadBorrowerWhitelist_eq_ok, exists_const, Except.ok.injEq,
      Prod.mk.injEq] at h
    obtain ⟨-, -, hamount, hsigner, s, hs, howner, ma, ⟨hma, -⟩, _, -, hvault, -, c, ⟨-, hconfig⟩, hpaused, m, haccrue,
      _, -, -, _, -, wl, ⟨-, hwl⟩, hcounter, _, ⟨htotal, rfl⟩, _, ⟨-, rfl⟩, t, ht, rfl, rfl⟩ := h
    rw [← hvault, (hw.placed _ _ hma).vault] at ht
    obtain ⟨_, _, rfl, -⟩ := accrueInterest_ok haccrue
    exact .market hconfig hpaused rfl (.repay ⟨ma, hma, htotal, wl, hwl, hcounter, rfl⟩
      (paysIn_of_transfer (signed_of (by simp) hsigner) hamount hs howner ht))
  · cases h

theorem repayInterest_authorized (hw : WellFormed w) (h : repayInterest w accounts data = .ok (w', e)) :
    Authorized w (Signed accounts) e w' := by
  unfold repayInterest at h
  split at h
  · rename_i market payer payerToken vault protocolConfig tokenProgram xs
    simp only [bind_eq_ok, require_eq_ok, checkedAdd_eq_ok, loadMarket_eq_ok, loadProtocolConfig_eq_ok,
      loadTokenAccount_eq_ok, exists_const, Except.ok.injEq, Prod.mk.injEq] at h
    obtain ⟨-, -, hamount, hsigner, s, hs, howner, ma, ⟨hma, -⟩, _, -, hvault, -, c, ⟨-, hconfig⟩, hpaused, m, haccrue,
      _, -, _, ⟨htotal, rfl⟩, _, ⟨hinterest, rfl⟩, t, ht, rfl, rfl⟩ := h
    rw [← hvault, (hw.placed _ _ hma).vault] at ht
    obtain ⟨_, _, rfl, -⟩ := accrueInterest_ok haccrue
    exact .market hconfig hpaused rfl (.repayInterest ⟨ma, hma, htotal, hinterest, rfl⟩
      (paysIn_of_transfer (signed_of (by simp) hsigner) hamount hs howner ht))
  · cases h

theorem withdraw_authorized (hw : WellFormed w) (h : withdraw w accounts data = .ok (w', e)) :
    Authorized w (Signed accounts) e w' := by
  unfold withdraw at h
  split at h
  · rename_i market lender lenderToken vault lenderPosition marketAuthority blacklistCheck protocolConfig tokenProgram
      haircutState xs
    simp only [bind_eq_ok, require_eq_ok, loadMarket_eq_ok, loadProtocolConfig_eq_ok, loadTokenAccount_eq_ok,
      checkBlacklist_eq_ok, validateMarketAuthority, exists_const, Except.ok.injEq, Prod.mk.injEq] at h
    obtain ⟨-, -, hsigner, c, ⟨-, hconfig⟩, hpaused, ma, ⟨hma, -⟩, hvault, -, ⟨-, hclear⟩, m, -, position, -, -, m', -,
      -, _, -, amounts, -, -, -, hauthority, d, hd, howner, tr, -, _, -, _, -, t, ht, rfl, rfl⟩ := h
    rw [← hvault, (hw.placed _ _ hma).vault, hauthority] at ht
    exact .market hconfig hpaused rfl
      (.withdraw (signed_of (by simp) hsigner) hclear ⟨_, d, hd, howner, .inl ht⟩)
  · cases h

theorem collectFees_authorized (hw : WellFormed w) (h : collectFees w accounts = .ok (w', e)) :
    Authorized w (Signed accounts) e w' := by
  unfold collectFees at h
  split at h
  · rename_i market protocolConfig feeAuthority feeDestination vault marketAuthority tokenProgram xs
    simp only [bind_eq_ok, require_eq_ok, loadMarket_eq_ok, loadProtocolConfig_eq_ok, loadVault_eq_ok,
      validateMarketAuthority, exists_const, Except.ok.injEq, Prod.mk.injEq] at h
    obtain ⟨-, c, ⟨-, hconfig⟩, hpaused, hfee, hsigner, ma, ⟨hma, -⟩, _, -, -, -, hvault, m, -, -, _, -, amount, -, -,
      hauthority, d, ⟨hd, -⟩, howner, _, -, t, ht, rfl, rfl⟩ := h
    rw [← hvault, (hw.placed _ _ hma).vault, hauthority] at ht
    exact .market hconfig hpaused rfl
      (.collectFees (hfee ▸ signed_of (by simp) hsigner) ⟨_, d, hd, howner.trans hfee.symm, .inl ht⟩)
  · cases h

theorem reSettle_authorized (h : reSettle w accounts = .ok (w', e)) : Authorized w (Signed accounts) e w' := by
  unfold reSettle at h
  split at h
  · simp only [bind_eq_ok, require_eq_ok, loadProtocolConfig_eq_ok, exists_const, Except.ok.injEq, Prod.mk.injEq] at h
    obtain ⟨ma, -, -, -, c, ⟨-, hconfig⟩, hpaused, m, -, _, -, _, -, _, -, _, -, _, -, _, -, -, rfl, rfl⟩ := h
    exact .market hconfig hpaused rfl .reSettle
  · cases h

theorem closeLenderPosition_authorized (h : closeLenderPosition w accounts = .ok (w', e)) :
    Authorized w (Signed accounts) e w' := by
  unfold closeLenderPosition at h
  split at h
  · simp only [bind_eq_ok, require_eq_ok, loadProtocolConfig_eq_ok, exists_const, Except.ok.injEq, Prod.mk.injEq] at h
    obtain ⟨hsigner, c, ⟨-, hconfig⟩, hpaused, ma, -, position, -, -, -, -, -, rfl, rfl⟩ := h
    exact .market hconfig hpaused rfl (.closePosition (signed_of (by simp) hsigner))
  · cases h

theorem withdrawExcess_authorized (hw : WellFormed w) (h : withdrawExcess w accounts = .ok (w', e)) :
    Authorized w (Signed accounts) e w' := by
  unfold withdrawExcess at h
  split at h
  · rename_i market borrower borrowerToken vault marketAuthority tokenProgram protocolConfig blacklistCheck
      borrowerWhitelist xs
    simp only [bind_eq_ok, require_eq_ok, loadMarket_eq_ok, loadProtocolConfig_eq_ok, loadBorrowerWhitelist_eq_ok,
      checkBlacklist_eq_ok, validateMarketAuthority, exists_const, Except.ok.injEq, Prod.mk.injEq] at h
    obtain ⟨-, hsigner, c, ⟨-, hconfig⟩, hpaused, ma, ⟨hma, -⟩, hborrower, ⟨-, hclear⟩, wl, ⟨-, hwl⟩, hlisted, hvault,
      -, -, -, -, -, _, -, -, _, -, -, hauthority, t, ht, rfl, rfl⟩ := h
    rw [← hvault, (hw.placed _ _ hma).vault, hauthority] at ht
    exact .market hconfig hpaused rfl (.withdrawExcess (signed_of (by simp) hsigner) ⟨ma, hma, hborrower⟩
      ⟨wl, hwl, hlisted⟩ hclear ⟨_, ht⟩)
  · cases h

theorem forceClosePosition_authorized (hw : WellFormed w) (h : forceClosePosition w accounts = .ok (w', e)) :
    Authorized w (Signed accounts) e w' := by
  unfold forceClosePosition at h
  split at h
  · rename_i market borrower lenderPosition vault escrowToken marketAuthority protocolConfig tokenProgram
      haircutState xs
    simp only [bind_eq_ok, require_eq_ok, loadMarket_eq_ok, loadProtocolConfig_eq_ok, loadEscrow_eq_ok,
      checkGracePeriod_eq_ok, validateMarketAuthority, exists_const, Except.ok.injEq, Prod.mk.injEq] at h
    obtain ⟨-, hsigner, ma, ⟨hma, -⟩, hborrower, hvault, c, ⟨-, hconfig⟩, hpaused, -, ⟨-, hgrace⟩, m, -, m', -,
      position, -, ⟨d, hd, howner, -⟩, -, _, -, amounts, -, hauthority, tr, -, _, -, t, ht, rfl, rfl⟩ := h
    rw [← hvault, (hw.placed _ _ hma).vault, hauthority] at ht
    exact .market hconfig hpaused rfl (.forceClose (signed_of (by simp) hsigner) ⟨ma, hma, hborrower.symm⟩
      ⟨ma, hma, hgrace⟩ (paysOut_of_transferIfPositive hd howner ht))
  · cases h

theorem claimHaircut_authorized (hw : WellFormed w) (h : claimHaircut w accounts = .ok (w', e)) :
    Authorized w (Signed accounts) e w' := by
  unfold claimHaircut at h
  split at h
  · rename_i market lender lenderPosition lenderToken vault marketAuthority haircutState protocolConfig tokenProgram xs
    simp only [bind_eq_ok, require_eq_ok, loadMarket_eq_ok, loadProtocolConfig_eq_ok, loadTokenAccount_eq_ok,
      validateMarketAuthority, exists_const, Except.ok.injEq, Prod.mk.injEq] at h
    obtain ⟨-, hsigner, c, ⟨-, hconfig⟩, hpaused, ma, ⟨hma, -⟩, hvault, -, position, -, -, -, _, -, _, -, _, -,
      claimed, -, d, hd, howner, -, tr, -, hauthority, t, ht, rfl, rfl⟩ := h
    rw [← hvault, (hw.placed _ _ hma).vault, hauthority] at ht
    exact .market hconfig hpaused rfl
      (.claimHaircut (signed_of (by simp) hsigner) ⟨_, d, hd, howner, .inl ht⟩)
  · cases h

theorem forceClaimHaircut_authorized (hw : WellFormed w) (h : forceClaimHaircut w accounts = .ok (w', e)) :
    Authorized w (Signed accounts) e w' := by
  unfold forceClaimHaircut at h
  split at h
  · rename_i market borrower lenderPosition escrowToken vault marketAuthority haircutState protocolConfig
      tokenProgram xs
    simp only [bind_eq_ok, require_eq_ok, loadMarket_eq_ok, loadProtocolConfig_eq_ok, loadEscrow_eq_ok,
      checkGracePeriod_eq_ok, validateMarketAuthority, exists_const, Except.ok.injEq, Prod.mk.injEq] at h
    obtain ⟨-, hsigner, c, ⟨-, hconfig⟩, hpaused, ma, ⟨hma, -⟩, hborrower, hvault, -, ⟨-, hgrace⟩, -, position, -,
      ⟨d, hd, howner, -⟩, _, -, _, -, _, -, claimed, -, tr, -, hauthority, t, ht, rfl, rfl⟩ := h
    rw [← hvault, (hw.placed _ _ hma).vault, hauthority] at ht
    exact .market hconfig hpaused rfl (.forceClaimHaircut (signed_of (by simp) hsigner) ⟨ma, hma, hborrower.symm⟩
      ⟨ma, hma, hgrace⟩ ⟨_, d, hd, howner, .inl ht⟩)
  · cases h

/-- Every instruction that succeeds was authorized. -/
theorem processInstruction_authorized (hw : WellFormed w) (h : processInstruction w accounts data = .ok (w', e)) :
    Authorized w (Signed accounts) e w' := by
  unfold processInstruction at h
  split at h
  · cases h
  · split at h
    · exact initializeProtocol_authorized h
    · exact setFeeConfig_authorized h
    · exact createMarket_authorized h
    · exact deposit_authorized hw h
    · exact borrow_authorized hw h
    · exact repay_authorized hw h
    · exact repayInterest_authorized hw h
    · exact withdraw_authorized hw h
    · exact collectFees_authorized hw h
    · exact reSettle_authorized h
    · exact closeLenderPosition_authorized h
    · exact withdrawExcess_authorized hw h
    · exact setBorrowerWhitelist_authorized h
    · exact setPause_authorized h
    · exact setBlacklistMode_authorized h
    · exact setAdmin_authorized h
    · exact setWhitelistManager_authorized h
    · exact forceClosePosition_authorized hw h
    · exact claimHaircut_authorized hw h
    · exact forceClaimHaircut_authorized hw h
    · cases h

end Guards

/-! ### The tokens that an instruction moves -/

/-- The vault of `a` paid `n` tokens to an account of `payee`.  All other amounts are as before. -/
def World.PaidFrom (w w' : World) (a payee : Address) (n : ℕ) : Prop :=
  ∃ dst d, w.tokens.lookup dst = some d ∧ d.owner = payee ∧ w.tokens.PaidOut w'.tokens (.vault a) [(dst, n)]

/-- An account of `payer` paid `n` tokens to the vault of `a`.  All other amounts are as before. -/
def World.PaidInto (w w' : World) (a payer : Address) (n : ℕ) : Prop :=
  ∃ src s, w.tokens.lookup src = some s ∧ s.owner = payer ∧ w.tokens.PaidOut w'.tokens src [(.vault a, n)]

section Payments

variable {w w' : World} {signed : Address → Prop} {a payer payee : Address} {n : ℕ} {e : Event}

theorem PaysOut.paidFrom (h : PaysOut w a payee n w'.tokens) (hw : WellFormed w) (hkey : payee.isKey) :
    w.PaidFrom w' a payee n := by
  obtain ⟨dst, d, hd, howner, htransfer⟩ := h
  refine ⟨dst, d, hd, howner, ?_⟩
  rcases htransfer with htransfer | ⟨rfl, htokens⟩
  · exact .of_transfer htransfer (hw.ne_vault hd (howner ▸ hkey))
  · rw [htokens]
    exact .zero _ _ _

theorem PaysIn.paidInto (h : PaysIn w signed a payer n w'.tokens) (hw : WellFormed w) (hkey : payer.isKey) :
    w.PaidInto w' a payer n := by
  obtain ⟨src, s, hs, howner, htransfer⟩ := h.transfer
  exact ⟨src, s, hs, howner, .of_transfer htransfer (hw.ne_vault hs (howner ▸ hkey)).symm⟩

/-- The tokens that an event says its signer moved. -/
def Event.Pays (w w' : World) : Event → Prop
  | deposit a x n _ | repay a x n _ | repayInterest a x n _ => w.PaidInto w' a x n
  | borrow a x n | withdraw a x n _ => w.PaidFrom w' a x n
  | _ => True

theorem MarketOrder.pays {c : ProtocolConfig} {t : TokenLedger} (h : MarketOrder w signed c a e t)
    (ht : t = w'.tokens) (hw : WellFormed w) (hkeys : ∀ x, signed x → x.isKey) : e.Pays w w' := by
  cases h with
  | deposit _ _ hpays | repay _ hpays | repayInterest _ hpays =>
    subst ht
    exact hpays.paidInto hw (hkeys _ hpays.signed)
  | borrow hsigned _ _ _ _ hpays | withdraw hsigned _ hpays =>
    subst ht
    exact hpays.paidFrom hw (hkeys _ hsigned)
  | _ => trivial

theorem Authorized.pays (h : Authorized w signed e w') (hw : WellFormed w) (hkeys : ∀ x, signed x → x.isKey) :
    e.Pays w w' := by
  cases h with
  | initializes | lists => trivial
  | administers _ _ h => cases h <;> trivial
  | market _ _ _ h => exact h.pays rfl hw hkeys

theorem Authorized.exit_pays (h : Authorized w signed e w') {l : Address} {payout scaled : ℕ}
    (he : e.IsExit a l payout scaled) : PaysOut w a l payout w'.tokens := by
  cases h with
  | initializes | lists => rcases he with he | he <;> cases he
  | administers _ _ h => rcases he with rfl | rfl <;> cases h
  | market _ _ _ h =>
    rcases he with rfl | rfl
    · cases h with
      | withdraw _ _ hpays => exact hpays
    · cases h with
      | forceClose _ _ _ hpays => exact hpays

theorem Authorized.collect_pays (h : Authorized w signed (.collectFees a n) w') :
    ∃ c, w.config = some c ∧ signed c.feeAuthority ∧ PaysOut w a c.feeAuthority n w'.tokens := by
  cases h with
  | administers _ _ h => cases h
  | market hconfig _ _ h =>
    cases h with
    | collectFees hsigned hpays => exact ⟨_, hconfig, hsigned, hpays⟩

end Payments

end Coalesce
