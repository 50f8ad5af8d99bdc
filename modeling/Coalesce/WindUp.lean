import Coalesce.Fees
import Coalesce.WindDown

/-!
# Emptying the vault

When all lenders of a market at par are out, the fee authority and the borrower share what is left.  `vault_emptied`
says that nothing stays behind: after any order of the pending exits and claims, the fees and then the excess take the
vault down to zero.  This is not so for a market that nobody has lent to: `unlent_locked` says that it can never be
settled after its maturity, and that its vault never pays anything out again.
-/

namespace Coalesce

/-! ### The sweeps succeed -/

def collectFeesAccounts (a feeAuthority token : Address) : List AccountMeta :=
  [account a, account .protocolConfig, signer feeAuthority, account token, account (.vault a),
    account (.marketAuthority a), account TOKEN_PROGRAM_ID]

def withdrawExcessAccounts (a borrower token blacklistProgram : Address) : List AccountMeta :=
  [account a, signer borrower, account token, account (.vault a), account (.marketAuthority a),
    account TOKEN_PROGRAM_ID, account .protocolConfig, account (.blacklist blacklistProgram borrower),
    account (.borrowerWhitelist borrower)]

section Sweeps

variable {w : World} {a token : Address} {config : ProtocolConfig} {ma : MarketAccounts}

theorem collectFees_succeeds (hw : WellFormed w) (hconfig : w.config = some config) (hpaused : ¬config.isPaused)
    (hma : w.markets.lookup a = some ma) (hscale : ma.market.scaleFactor ≠ 0)
    (hpar : ma.market.settlementFactorWad = WAD)
    (haccrue : accrueInterest ma.market config w.clock = .ok ma.market) {n : ℕ}
    (hamount : withdrawableFees ma.market (w.tokens.amount (.vault a)) = .ok n) (hn : n ≠ 0)
    (hfees : n ≤ ma.market.accruedProtocolFees) (hvault : n ≤ w.tokens.amount (.vault a))
    (htoken : w.tokens.holder token = some (USDC_MINT, config.feeAuthority)) :
    ∃ tokens, w.tokens.transfer (.vault a) token (.marketAuthority a) n = .ok tokens ∧
      collectFees w (collectFeesAccounts a config.feeAuthority token) = .ok
        ({ w with tokens }.setMarket a
          { ma with
            market := { ma.market with accruedProtocolFees := ma.market.accruedProtocolFees - n } },
          .collectFees a n) := by
  obtain ⟨tokens, htransfer⟩ := transfer_from_vault hw hma htoken hvault
  refine ⟨tokens, htransfer, ?_⟩
  have hp := hw.placed a ma hma
  obtain ⟨vt, hvt, hvm, -⟩ := TokenLedger.exists_of_holder (hw.vault a ma hma)
  obtain ⟨dt, hdt, hdm, howner⟩ := TokenLedger.exists_of_holder htoken
  rw [TokenLedger.amount_eq hvt] at hamount
  simp only [collectFees, collectFeesAccounts, account, signer, bind_eq_ok, require_eq_ok, checkedSub_eq_ok,
    loadProtocolConfig_eq_ok, loadMarket_eq_ok, loadVault_eq_ok, validateMarketState, validateMarketAuthority,
    exists_const, true_and, Except.ok.injEq]
  exact ⟨config, hconfig, hpaused, rfl, ma, ⟨hma, hp.address⟩, hscale, by omega, fun h => h.2 hpar, hp.vault, ma.market,
    haccrue, by omega, vt, ⟨hvt, hvm.trans hp.mint.symm⟩, n, hamount, hn, dt, ⟨hdt, hdm.trans hp.mint.symm⟩, howner, _,
    ⟨hfees, rfl⟩, tokens, htransfer, rfl⟩

theorem withdrawExcess_succeeds (hw : WellFormed w) (hconfig : w.config = some config) (hpaused : ¬config.isPaused)
    (hma : w.markets.lookup a = some ma) (hmatured : ma.market.maturityTimestamp ≤ w.clock)
    (hblacklist : checkBlacklist w (account (.blacklist config.blacklistProgram ma.market.borrower)) config
      ma.market.borrower = .ok ())
    {wl : BorrowerWhitelist} (hwl : w.whitelists.lookup ma.market.borrower = some wl) (hlisted : wl.isWhitelisted = 1)
    (hsupply : ma.market.scaledTotalSupply = 0) (hpar : ma.market.settlementFactorWad = WAD)
    (hfees : ma.market.accruedProtocolFees = 0)
    (hexcess : w.tokens.amount (.vault a) - ma.market.haircutAccumulator ≠ 0) {owner : Address}
    (htoken : w.tokens.holder token = some (USDC_MINT, owner)) :
    ∃ tokens, w.tokens.transfer (.vault a) token (.marketAuthority a)
        (w.tokens.amount (.vault a) - ma.market.haircutAccumulator) = .ok tokens ∧
      withdrawExcess w (withdrawExcessAccounts a ma.market.borrower token config.blacklistProgram) = .ok
        ({ w with tokens },
          .withdrawExcess a ma.market.borrower (w.tokens.amount (.vault a) - ma.market.haircutAccumulator)) := by
  obtain ⟨tokens, htransfer⟩ := transfer_from_vault hw hma htoken (Nat.sub_le _ _)
  refine ⟨tokens, htransfer, ?_⟩
  have hp := hw.placed a ma hma
  obtain ⟨vt, hvt, hvm, -⟩ := TokenLedger.exists_of_holder (hw.vault a ma hma)
  obtain ⟨dt, hdt, hdm, -⟩ := TokenLedger.exists_of_holder htoken
  rw [TokenLedger.amount_eq hvt] at hexcess htransfer ⊢
  simp only [withdrawExcess, withdrawExcessAccounts, account, signer, bind_eq_ok, require_eq_ok,
    loadProtocolConfig_eq_ok, loadMarket_eq_ok, loadBorrowerWhitelist_eq_ok, loadVault_eq_ok, loadTokenAccount_eq_ok,
    validateMarketAuthority, exists_const, true_and, Except.ok.injEq]
  exact ⟨config, hconfig, hpaused, ma, ⟨hma, hp.address⟩, rfl, (), hblacklist, wl, hwl, hlisted, hp.vault, hmatured,
    hsupply, by rw [hpar]; exact WAD_pos.ne', hpar.ge, hfees, vt, ⟨hvt, hvm.trans hp.mint.symm⟩, hexcess, dt, hdt,
    hdm.trans hp.mint.symm, tokens, htransfer, rfl⟩

/-! ### Nothing stays behind -/

/-- The accounts that the sweeps need: token accounts of the fee authority and the borrower, and a borrower that is
whitelisted and not blacklisted. -/
structure World.Sweepable (w : World) (config : ProtocolConfig) (borrower feeToken token : Address) : Prop where
  feeAuthority : config.feeAuthority.isKey
  feeToken : w.tokens.holder feeToken = some (USDC_MINT, config.feeAuthority)
  token : w.tokens.holder token = some (USDC_MINT, borrower)
  listed : ∃ wl, w.whitelists.lookup borrower = some wl ∧ wl.isWhitelisted = 1
  clear : checkBlacklist w (account (.blacklist config.blacklistProgram borrower)) config borrower = .ok ()

/-- The fee authority collects if there are fees and tokens, the borrower takes what the fees leave. -/
def sweeps (a : Address) (config : ProtocolConfig) (borrower feeToken token : Address) (fees vault : ℕ) :
    List (List AccountMeta × List UInt8) :=
  (if min fees vault ≠ 0 then [(collectFeesAccounts a config.feeAuthority feeToken, [8])] else []) ++
    if fees < vault then [(withdrawExcessAccounts a borrower token config.blacklistProgram, [11])] else []

def sweepEvents (a borrower : Address) (fees vault : ℕ) : List Event :=
  (if min fees vault ≠ 0 then [.collectFees a (min fees vault)] else []) ++
    if fees < vault then [.withdrawExcess a borrower (vault - fees)] else []

/-- The token accounts that the sweeps pay, with the amounts. -/
def sweepPayments (feeToken token : Address) (fees vault : ℕ) : List (Address × ℕ) :=
  (if min fees vault ≠ 0 then [(feeToken, min fees vault)] else []) ++
    if fees < vault then [(token, vault - fees)] else []

variable {feeToken : Address}

/-- Without fees the borrower takes out everything. -/
private theorem excess_empties (h : Reachable w) (hconfig : w.config = some config) (hpaused : ¬config.isPaused)
    (hma : w.markets.lookup a = some ma) (hpar : ma.market.settlementFactorWad = WAD)
    (hsupply : ma.market.scaledTotalSupply = 0) (howed : ma.market.haircutAccumulator = 0)
    (hfees : ma.market.accruedProtocolFees = 0) (hs : w.Sweepable config ma.market.borrower feeToken token) :
    ∃ w', w.executeAll (if 0 < w.tokens.amount (.vault a) then
        [(withdrawExcessAccounts a ma.market.borrower token config.blacklistProgram, [11])] else []) =
      .ok (w', if 0 < w.tokens.amount (.vault a) then
        [.withdrawExcess a ma.market.borrower (w.tokens.amount (.vault a))] else []) ∧
      w.tokens.PaidOut w'.tokens (.vault a)
        (if 0 < w.tokens.amount (.vault a) then [(token, w.tokens.amount (.vault a))] else []) := by
  have hw := Reachable.wellFormed h
  have hl := Reachable.ledger h (World.pool_of_lookup hma)
  by_cases hpos : 0 < w.tokens.amount (.vault a)
  · obtain ⟨wl, hwl, hlisted⟩ := hs.listed
    have hmatured : ma.market.maturityTimestamp ≤ w.clock := (hl.settled (hpar ▸ WAD_pos.ne')).matured
    obtain ⟨tokens, htransfer, hok⟩ := withdrawExcess_succeeds hw hconfig hpaused hma hmatured hs.clear hwl hlisted
      hsupply hpar hfees (by omega) hs.token
    rw [howed, Nat.sub_zero] at htransfer hok
    refine ⟨{ w with tokens }, ?_, ?_⟩
    · rw [if_pos hpos, if_pos hpos]
      exact World.executeAll_cons hok rfl
    · rw [if_pos hpos]
      exact .of_transfer htransfer (hw.token_ne_vault hs.token (hw.placed a ma hma).borrower)
  · rw [if_neg hpos, if_neg hpos, if_neg hpos]
    exact ⟨w, rfl, .nil _ _⟩

/-- Collecting takes the fees, or the whole vault if it holds less. -/
private theorem collect_leaves (h : Reachable w) (hconfig : w.config = some config) (hpaused : ¬config.isPaused)
    (hma : w.markets.lookup a = some ma) (hpar : ma.market.settlementFactorWad = WAD)
    (hsupply : ma.market.scaledTotalSupply = 0) (howed : ma.market.haircutAccumulator = 0)
    (hs : w.Sweepable config ma.market.borrower feeToken token) {n : ℕ}
    (hn : n = min ma.market.accruedProtocolFees (w.tokens.amount (.vault a))) (hpos : n ≠ 0) :
    ∃ w', processInstruction w (collectFeesAccounts a config.feeAuthority feeToken) [8] =
        .ok (w', .collectFees a n) ∧ Reachable w' ∧ w'.config = some config ∧
      w'.markets.lookup a = some
        { ma with market := { ma.market with accruedProtocolFees := ma.market.accruedProtocolFees - n } } ∧
      w.tokens.PaidOut w'.tokens (.vault a) [(feeToken, n)] ∧
      w'.Sweepable config ma.market.borrower feeToken token := by
  have hw := Reachable.wellFormed h
  have hl := Reachable.ledger h (World.pool_of_lookup hma)
  have hset := hl.settled (hpar ▸ WAD_pos.ne')
  have hamount : withdrawableFees ma.market (w.tokens.amount (.vault a)) = .ok n := by
    rw [withdrawableFees, hsupply, if_neg (lt_irrefl 0), howed, Nat.sub_zero, min_assoc, min_self, hn]
  obtain ⟨tokens, htransfer, hok⟩ := collectFees_succeeds hw hconfig hpaused hma (WAD_pos.trans_le hl.wad_le).ne'
    hpar (accrueInterest_matured config hset.accrued hset.matured) hamount hpos (by omega) (by omega) hs.feeToken
  have hholder := TokenLedger.holder_transfer htransfer
  refine ⟨_, hok, ?_, hconfig, by simp [World.setMarket],
    .of_transfer htransfer (hw.token_ne_vault hs.feeToken hs.feeAuthority),
    ⟨hs.feeAuthority, (hholder _).trans hs.feeToken, (hholder _).trans hs.token, hs.listed, hs.clear⟩⟩
  refine reachable_of_call h ?_ hok
    (show processInstruction w (collectFeesAccounts a config.feeAuthority feeToken) [8] = _ from rfl)
  simpa [collectFeesAccounts, account, signer] using hs.feeAuthority

/-- What is left when all lenders are out goes to the fee authority and the borrower. -/
theorem sweeps_empty (h : Reachable w) (hconfig : w.config = some config) (hpaused : ¬config.isPaused)
    (hma : w.markets.lookup a = some ma) (hpar : ma.market.settlementFactorWad = WAD)
    (hsupply : ma.market.scaledTotalSupply = 0) (howed : ma.market.haircutAccumulator = 0)
    (hs : w.Sweepable config ma.market.borrower feeToken token) {fees vault : ℕ}
    (hfees : fees = ma.market.accruedProtocolFees) (hvault : vault = w.tokens.amount (.vault a)) :
    ∃ w', w.executeAll (sweeps a config ma.market.borrower feeToken token fees vault) =
        .ok (w', sweepEvents a ma.market.borrower fees vault) ∧
      w.tokens.PaidOut w'.tokens (.vault a) (sweepPayments feeToken token fees vault) := by
  unfold sweeps sweepEvents sweepPayments
  by_cases hmin : min fees vault = 0
  · rw [if_neg (not_not.2 hmin), if_neg (not_not.2 hmin), if_neg (not_not.2 hmin), List.nil_append, List.nil_append,
      List.nil_append]
    have hzero : fees = 0 ∨ vault = 0 := by omega
    rcases hzero with hzero | hzero
    · rw [hzero, Nat.sub_zero, hvault]
      exact excess_empties h hconfig hpaused hma hpar hsupply howed (hfees.symm.trans hzero) hs
    · rw [hzero, if_neg (Nat.not_lt_zero _), if_neg (Nat.not_lt_zero _), if_neg (Nat.not_lt_zero _)]
      exact ⟨w, rfl, .nil _ _⟩
  · rw [if_pos hmin, if_pos hmin, if_pos hmin]
    obtain ⟨w₁, hok, hr, hconfig₁, hma₁, hpaid, hs₁⟩ :=
      collect_leaves h hconfig hpaused hma hpar hsupply howed hs (by rw [hfees, hvault]) hmin
    by_cases hlt : fees < vault
    · rw [if_pos hlt, if_pos hlt, if_pos hlt]
      have hleft : w₁.tokens.amount (.vault a) = vault - fees := by
        have hdebited := hpaid.debited.amount
        omega
      obtain ⟨w', hrest, hpaid'⟩ := excess_empties hr hconfig₁ hpaused hma₁ hpar hsupply howed
        (by dsimp only; omega) hs₁
      rw [hleft, if_pos (by omega), if_pos (by omega)] at hrest
      rw [hleft, if_pos (by omega)] at hpaid'
      exact ⟨w', World.executeAll_cons hok hrest, hpaid.cons hpaid'⟩
    · rw [if_neg hlt, if_neg hlt, if_neg hlt]
      exact ⟨w₁, World.executeAll_cons hok rfl, hpaid⟩

/-- The sweeps pay out the whole vault. -/
theorem sum_sweepPayments (feeToken token : Address) (fees vault : ℕ) :
    ((sweepPayments feeToken token fees vault).map Prod.snd).sum = vault := by
  unfold sweepPayments
  split_ifs <;> simp <;> omega

/-- At par, with the protocol unpaused, any order of the pending obligations and then the sweeps succeed, and they leave
the vault empty: the fee authority gets the fees, as far as the lenders leave them, and the borrower the rest. -/
theorem vault_emptied (h : Reachable w) (hma : w.markets.lookup a = some ma)
    (hpar : ma.market.settlementFactorWad = WAD) (hconfig : w.config = some config) (hpaused : ¬config.isPaused)
    {os : List Obligation} (hpending : ma.Pending os) (hcorrect : ∀ o ∈ os, o.Correct w config ma) :
    ∃ w' ma', w.executeAll (os.map (Obligation.call a ma.market.borrower config.blacklistProgram)) =
        .ok (w', os.map (Obligation.event a ma)) ∧
      w.PaysEach a (os.map (Obligation.call a ma.market.borrower config.blacklistProgram))
        (os.map (Obligation.payment ma)) ∧
      w'.markets.lookup a = some ma' ∧
      ∀ feeToken token, w'.Sweepable config ma.market.borrower feeToken token →
        ∃ w'', w'.executeAll (sweeps a config ma.market.borrower feeToken token ma'.market.accruedProtocolFees
            (w'.tokens.amount (.vault a))) =
          .ok (w'', sweepEvents a ma.market.borrower ma'.market.accruedProtocolFees (w'.tokens.amount (.vault a))) ∧
        w'.tokens.PaidOut w''.tokens (.vault a)
          (sweepPayments feeToken token ma'.market.accruedProtocolFees (w'.tokens.amount (.vault a))) ∧
        w''.tokens.amount (.vault a) = 0 := by
  obtain ⟨w', ma', hall, hpays, hr, hconfig', hma', hdone, hpar', hborrower⟩ :=
    executeAll_cleared h hconfig hpaused hma hpar hpending hcorrect
  obtain ⟨hsupply, howed⟩ := (Reachable.ledger hr (World.pool_of_lookup hma')).empty_of_pending hdone
  refine ⟨w', ma', hall, hpays, hma', ?_⟩
  intro feeToken token hs
  rw [← hborrower] at hs ⊢
  obtain ⟨w'', hsweeps, hpaid⟩ := sweeps_empty hr hconfig' hpaused hma' hpar' hsupply howed hs rfl rfl
  have hsource := hpaid.source
  rw [sum_sweepPayments] at hsource
  exact ⟨w'', hsweeps, hpaid, by omega⟩

end Sweeps

namespace Sample

def sharing : ProtocolConfig := { protocol with feeRateBps := 10000, feeAuthority := bob }

/-- All interest is a fee of Bob's; the borrower pays it with 5 to spare, and Alice has taken out a part. -/
def leftOver : List Action :=
  [configureWith 10000 bob, whitelist, createWith 10000 86400, deposit alice (WAD / 2), .clock 86400,
    repayInterest 2739726027397265, .clock 86700, withdraw alice 1000]

/-- Alice takes out the rest. -/
def lastExit : List Obligation := [.withdraw alice (wallet alice) (leBytes 24 0)]

end Sample

/-- Alice is paid, Bob collects his fee, and 6 are left for the borrower. -/
theorem vault_emptied_leftOver :
    ∃ w' w'', (Sample.genesis.performAll Sample.leftOver).executeAll
        (Sample.lastExit.map (Obligation.call Sample.market Sample.borrower Sample.blacklistProgram)) =
          .ok (w', [.withdraw Sample.market Sample.alice 501369863013697627 499999999999999000]) ∧
      w'.executeAll (sweeps Sample.market Sample.sharing Sample.borrower (Sample.wallet Sample.bob)
          (Sample.wallet Sample.borrower) 1369863013698630 1369863013698636) =
        .ok (w'', [.collectFees Sample.market 1369863013698630, .withdrawExcess Sample.market Sample.borrower 6]) ∧
      w''.tokens.amount (.vault Sample.market) = 0 := by
  have hconfig : (Sample.genesis.performAll Sample.leftOver).config = some Sample.sharing := by decide +kernel
  obtain ⟨ma, hma, hx⟩ := Option.map_eq_some_iff.1
    (show ((Sample.genesis.performAll Sample.leftOver).markets.lookup Sample.market).map
      (fun ma => (ma.market.borrower, ma.market.settlementFactorWad,
        Sample.lastExit.map (Obligation.event Sample.market ma),
        decide (ma.Pending Sample.lastExit ∧
          ∀ o ∈ Sample.lastExit, o.Correct (Sample.genesis.performAll Sample.leftOver) Sample.sharing ma))) =
      some (Sample.borrower, WAD, [.withdraw Sample.market Sample.alice 501369863013697627 499999999999999000], true)
      by decide +kernel)
  simp only [Prod.mk.injEq] at hx
  obtain ⟨hborrower, hpar, hevents, hready⟩ := hx
  obtain ⟨hpending, hcorrect⟩ := of_decide_eq_true hready
  obtain ⟨w', ma', hall, -, hma', hsweep⟩ := vault_emptied
    (World.performAll_reachable Sample.genesis_reachable Sample.leftOver) hma hpar hconfig (by decide) hpending hcorrect
  rw [hborrower, hevents] at hall
  have hafter : (((Sample.genesis.performAll Sample.leftOver).executeAll
      (Sample.lastExit.map (Obligation.call Sample.market Sample.borrower Sample.blacklistProgram))).toOption.map
      fun r => decide (r.1.tokens.holder (Sample.wallet Sample.bob) = some (USDC_MINT, Sample.bob) ∧
        r.1.tokens.holder (Sample.wallet Sample.borrower) = some (USDC_MINT, Sample.borrower) ∧
        (r.1.whitelists.lookup Sample.borrower).map BorrowerWhitelist.isWhitelisted = some 1 ∧
        checkBlacklist r.1 (account (.blacklist Sample.blacklistProgram Sample.borrower)) Sample.sharing
          Sample.borrower = .ok () ∧
        (r.1.markets.lookup Sample.market).map (fun ma => ma.market.accruedProtocolFees) = some 1369863013698630 ∧
        r.1.tokens.amount (.vault Sample.market) = 1369863013698636)) = some true := by decide +kernel
  rw [show (Sample.sharing.blacklistProgram = Sample.blacklistProgram) from rfl] at hall
  rw [hall] at hafter
  obtain ⟨hbob, hb, hlisted, hclear', hfees, hvault⟩ := of_decide_eq_true (Option.some.inj hafter)
  rw [hma', Option.map_some, Option.some.injEq] at hfees
  rw [hborrower, hfees, hvault] at hsweep
  obtain ⟨w'', hok, -, hempty⟩ := hsweep (Sample.wallet Sample.bob) (Sample.wallet Sample.borrower)
    ⟨rfl, hbob, hb, Option.map_eq_some_iff.1 hlisted, hclear'⟩
  exact ⟨w', w'', hall, hok, hempty⟩

/-! ### A market without lenders -/

/-- A market that is matured, not settled and empty. -/
structure Pool.Unlent (p : Pool) : Prop where
  matured : p.market.maturityTimestamp ≤ p.clock
  unsettled : p.market.settlementFactorWad = 0
  supply : p.market.scaledTotalSupply = 0

section Unlent

variable {w w' : World} {a : Address} {p p' : Pool} {e : Option Event} {hist : List Record}

/-- Nobody has units to exit with, so nobody can settle the market, and before that nobody is paid. -/
theorem Pool.Step.unlent (hs : Pool.Step a p e p') (h : p.Unlent) (hl : p.Ledger) (hf : p.Feeless) :
    p'.Unlent ∧ p.vault ≤ p'.vault := by
  have hzero := h.unsettled
  have hsupply := h.supply
  cases hs with
  | idle _ hclock hvault => exact ⟨⟨h.matured.trans hclock, hzero, hsupply⟩, hvault⟩
  | deposit _ htime | borrow htime => exact absurd h.matured (not_le.2 htime)
  | repay haccrue | repayInterest haccrue =>
    obtain ⟨_, _, rfl, -⟩ := accrueInterest_ok haccrue
    exact ⟨⟨h.matured, hzero, hsupply⟩, Nat.le_add_right _ _⟩
  | exit _ _ _ hposition hscaled hle =>
    have hbalance := hl.supply_ge hposition
    omega
  | claim hsettled | reSettle hsettled => exact absurd hzero hsettled
  | @collectFees _ m n hsolvent hwaiting haccrue hamount hfees hpayout =>
    -- an empty market that was never settled has no fees
    have hn : n = 0 := by
      by_contra hn
      have hset := ((Pool.Step.collectFees (a := a) hsolvent hwaiting haccrue hamount hfees hpayout).settled_of_collect
        hn hl hf).1
      have := WAD_pos
      omega
    obtain ⟨_, _, rfl, -⟩ := accrueInterest_ok haccrue
    refine ⟨⟨h.matured, hzero, hsupply⟩, ?_⟩
    show p.vault ≤ p.vault - n
    omega
  | withdrawExcess _ _ hsettled =>
    have := WAD_pos
    omega
  | close => exact ⟨⟨h.matured, hzero, hsupply⟩, le_rfl⟩

/-- Once a market without lenders has matured, it is never settled, and its vault never pays anything out: what was
repaid to it, or sent to it, stays there in every run. -/
theorem unlent_locked (h : Reachable w) {ma : MarketAccounts} (hma : w.markets.lookup a = some ma)
    (hmatured : ma.market.maturityTimestamp ≤ w.clock) (hunsettled : ma.market.settlementFactorWad = 0)
    (hsupply : ma.market.scaledTotalSupply = 0) (r : Run w hist w') :
    w.tokens.amount (.vault a) ≤ w'.tokens.amount (.vault a) ∧
      ∃ ma', w'.markets.lookup a = some ma' ∧ ma'.market.settlementFactorWad = 0 ∧
        ma'.market.scaledTotalSupply = 0 := by
  obtain ⟨p', hp', hunlent, hvault⟩ := Run.pool_invariant
    (I := fun _ p => p.Unlent ∧ w.tokens.amount (.vault a) ≤ p.vault) h (World.pool_of_lookup hma)
    ⟨⟨hmatured, hunsettled, hsupply⟩, le_rfl⟩ (fun _ _ q q' hr hq _ hs ⟨hunlent, hvault⟩ => by
      obtain ⟨hunlent', hle⟩ := hs.unlent hunlent (Reachable.ledger hr hq) (Reachable.feeless hr hq)
      exact ⟨hunlent', hvault.trans hle⟩) r
  obtain ⟨hma', -, hamount⟩ := World.pool_eq_some.1 hp'
  exact ⟨hamount ▸ hvault, _, hma', hunlent.unsettled, hunlent.supply⟩

end Unlent

namespace Sample

/-- Nobody deposits, and the borrower pays 5 at maturity. -/
def unlent : List Action := [configure, whitelist, create, .clock 100, repayInterest 5]

end Sample

theorem unlent_locked_unlent :
    5 ≤ ((Sample.genesis.performAll Sample.unlent).performAll
      [.clock 400, Sample.collectFees Sample.admin]).tokens.amount (.vault Sample.market) := by
  obtain ⟨ma, hma, hx⟩ := Option.map_eq_some_iff.1
    (show ((Sample.genesis.performAll Sample.unlent).markets.lookup Sample.market).map
      (fun ma => decide (ma.market.maturityTimestamp ≤ (Sample.genesis.performAll Sample.unlent).clock ∧
        ma.market.settlementFactorWad = 0 ∧ ma.market.scaledTotalSupply = 0)) = some true by decide +kernel)
  obtain ⟨hmatured, hunsettled, hsupply⟩ := of_decide_eq_true hx
  have hvault : (Sample.genesis.performAll Sample.unlent).tokens.amount (.vault Sample.market) = 5 := by decide +kernel
  rw [← hvault]
  exact (unlent_locked (World.performAll_reachable Sample.genesis_reachable Sample.unlent) hma hmatured hunsettled
    hsupply (World.performAll_run _ _)).1

end Coalesce
