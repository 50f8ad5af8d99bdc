import Coalesce.OneWay

/-!
# Winding down at par

Once the market is settled at par every pending obligation can be paid, in any order: no check of the exits and the
claims can fail, each pays its exact amount, and when all are done the books are empty.
-/

namespace Coalesce

open ProRata

/-! ### The amounts at par -/

namespace Pool.Ledger

variable {p : Pool} {l : Address} {q : LenderPosition}

private theorem face_le (h : p.Ledger) (hpar : p.market.settlementFactorWad = WAD) (hvault : p.vault ≤ u64Max) :
    p.face ≤ u64Max := by
  have := h.solvent hpar
  omega

private theorem mul_wad_le_u128 {n : ℕ} (hn : n ≤ u64Max) : n * WAD ≤ u128Max :=
  (Nat.mul_le_mul_right _ hn).trans (by decide)

/-- Face value and payout of an exit are the same. -/
theorem exitAmounts_par (h : p.Ledger) (hpar : p.market.settlementFactorWad = WAD) (hvault : p.vault ≤ u64Max)
    {scaled : ℕ} (hle : scaled ≤ p.market.scaledTotalSupply) :
    exitAmounts p.market scaled =
      .ok (scaled * p.market.scaleFactor / WAD, scaled * p.market.scaleFactor / WAD) := by
  have hs := h.settled (hpar ▸ WAD_pos.ne')
  have hmul : scaled * p.market.scaleFactor ≤ p.market.scaledTotalSupply * p.market.scaleFactor :=
    Nat.mul_le_mul_right _ hle
  have hn : scaled * p.market.scaleFactor / WAD ≤ u64Max :=
    (Nat.div_le_div_right hmul).trans (h.face_le hpar hvault)
  rw [exitAmounts_eq_ok, hpar, Nat.mul_div_cancel _ WAD_pos]
  exact ⟨hmul.trans hs.face_fits, mul_wad_le_u128 hn, hn, rfl⟩

theorem remainingObligations_par (h : p.Ledger) (hpar : p.market.settlementFactorWad = WAD)
    (hvault : p.vault ≤ u64Max) : remainingObligations p.market = .ok p.face := by
  have hs := h.settled (hpar ▸ WAD_pos.ne')
  have hn := h.face_le hpar hvault
  unfold remainingObligations
  by_cases hpos : 0 < p.market.scaledTotalSupply
  · rw [if_pos hpos]
    simp only [validateMarketState, bind_eq_ok, require_eq_ok, totalNormalized_eq_ok, checkedMul_eq_ok,
      checkedDiv_eq_ok, tryU64_eq_ok, exists_const, hpar]
    have hF : p.market.scaleFactor ≠ 0 := (WAD_pos.trans_le h.wad_le).ne'
    exact ⟨hF, _, ⟨hs.face_fits, rfl⟩, _, ⟨mul_wad_le_u128 hn, rfl⟩, _, ⟨WAD_pos.ne', Nat.mul_div_cancel _ WAD_pos⟩,
      hn, rfl⟩
  · have h0 : p.market.scaledTotalSupply = 0 := by omega
    rw [if_neg hpos]
    simp [face, h0]

/-- A claim pays the whole haircut. -/
theorem claim_par (h : p.Ledger) (hpar : p.market.settlementFactorWad = WAD) (hvault : p.vault ≤ u64Max)
    (hq : p.positions.lookup l = some q) (howed : q.haircutOwed ≠ 0) :
    claimableNow p.market q = .ok q.haircutOwed ∧
      capAtSurplus p.market p.vault q.haircutOwed = .ok q.haircutOwed ∧
      recordClaim p.market q p.haircutState q.haircutOwed = .ok
        { market := { p.market with haircutAccumulator := p.market.haircutAccumulator - q.haircutOwed }
          position := { q with haircutOwed := 0, withdrawalSf := 0 }
          haircutState := { p.haircutState with
            claimWeightSum := p.haircutState.claimWeightSum - q.weight
            claimOffsetSum := p.haircutState.claimOffsetSum - q.offset }
          payout := q.haircutOwed } := by
  have hanchored := h.anchored l q hq
  have hu := h.owed_u64 hq
  have howed_ge := h.owed_ge hq
  have hsolvent := h.solvent hpar
  refine ⟨?_, ?_, ?_⟩
  · rw [claimableNow_eq_ok, hpar]
    refine ⟨howed, hanchored.lt_wad, ?_⟩
    rw [claimableExact_eq hu hanchored.lt_wad le_rfl, claimable_full hanchored.lt_wad]
  · exact capAtSurplus_eq_ok.2 ⟨_, h.remainingObligations_par hpar hvault, by omega, howed⟩
  · rw [recordClaim_eq_ok]
    refine ⟨_, { p.haircutState with
        claimWeightSum := p.haircutState.claimWeightSum - q.weight
        claimOffsetSum := p.haircutState.claimOffsetSum - q.offset }, hanchored.contribution hu, le_rfl, howed_ge, ?_⟩
    simp only [Nat.sub_self, lt_irrefl, if_false, and_self]

end Pool.Ledger

/-! ### The handlers succeed -/

theorem TokenLedger.exists_of_holder {t : TokenLedger} {x mint owner : Address} (h : t.holder x = some (mint, owner)) :
    ∃ y, t.lookup x = some y ∧ y.mint = mint ∧ y.owner = owner := by
  unfold TokenLedger.holder at h
  obtain ⟨y, hy, he⟩ := Option.map_eq_some_iff.1 h
  exact ⟨y, hy, congrArg Prod.fst he, congrArg Prod.snd he⟩

section Handlers

variable {w : World} {a lender token : Address} {config : ProtocolConfig} {ma : MarketAccounts} {q : LenderPosition}

/-- The token account of a lender is not a vault. -/
theorem WellFormed.token_ne_vault (hw : WellFormed w) (htoken : w.tokens.holder token = some (USDC_MINT, lender))
    (hkey : lender.isKey) : token ≠ .vault a := by
  obtain ⟨x, hx, -, howner⟩ := TokenLedger.exists_of_holder htoken
  exact hw.ne_vault hx (howner ▸ hkey)

/-- A payment out of a vault that holds enough. -/
theorem transfer_from_vault (hw : WellFormed w) (hma : w.markets.lookup a = some ma) {owner : Address}
    (htoken : w.tokens.holder token = some (USDC_MINT, owner)) {n : ℕ} (hn : n ≤ w.tokens.amount (.vault a)) :
    ∃ t, w.tokens.transfer (.vault a) token (.marketAuthority a) n = .ok t := by
  obtain ⟨s, hs, hsm, hso⟩ := TokenLedger.exists_of_holder (hw.vault a ma hma)
  obtain ⟨d, hd, hdm, -⟩ := TokenLedger.exists_of_holder htoken
  exact TokenLedger.transfer_eq_ok hs hd (by rwa [← TokenLedger.amount_eq hs]) (hsm.trans hdm.symm) hso

theorem withdraw_succeeds (hw : WellFormed w) (hconfig : w.config = some config) (hpaused : ¬config.isPaused)
    (hma : w.markets.lookup a = some ma) (hmatured : ma.market.maturityTimestamp ≤ w.clock)
    (hblacklist : checkBlacklist w (account (.blacklist config.blacklistProgram lender)) config lender = .ok ())
    {m m' : Market} (haccrue : accrueInterest ma.market config w.clock = .ok m)
    (hq : ma.positions.lookup lender = some q) (hbalance : q.scaledBalance ≠ 0)
    (hsettle : settleOnWithdraw w m (account (.vault a)) = .ok m') {data : List UInt8} (hdata : 24 ≤ data.length)
    {scaled : ℕ} (hscaled : scaled = if u128At data 0 = 0 then q.scaledBalance else u128At data 0)
    (hle : scaled ≤ q.scaledBalance) (hfactor : m'.scaleFactor ≠ 0) {n pay : ℕ}
    (hamounts : exitAmounts m' scaled = .ok (n, pay)) (hpay : pay ≠ 0) (hmin : u64At data 16 ≤ pay)
    (htoken : w.tokens.holder token = some (USDC_MINT, lender)) {t : Tracked}
    (htrack : trackHaircut ma a (account (.haircutState a)) m' q n pay = .ok t)
    (htotal : scaled ≤ t.market.scaledTotalSupply) (hvault : t.payout ≤ w.tokens.amount (.vault a)) :
    ∃ tokens, w.tokens.transfer (.vault a) token (.marketAuthority a) t.payout = .ok tokens ∧
      withdraw w (withdrawAccounts a lender token config.blacklistProgram) data = .ok
        ({ w with tokens }.setMarket a
          { market := { t.market with
              scaledTotalSupply := t.market.scaledTotalSupply - scaled
              totalDeposited := t.market.totalDeposited - t.payout }
            haircutState := t.haircutState
            positions := ma.positions.insert lender
              { t.position with scaledBalance := t.position.scaledBalance - scaled } },
          .withdraw a lender t.payout scaled) := by
  obtain ⟨tokens, htransfer⟩ := transfer_from_vault hw hma htoken hvault
  refine ⟨tokens, htransfer, ?_⟩
  have hp := hw.placed a ma hma
  obtain ⟨lt, hlt, -, howner⟩ := TokenLedger.exists_of_holder htoken
  have hposition : t.position.scaledBalance = q.scaledBalance := by
    rw [(tracks_of_trackHaircut htrack).shape.position]
  subst hscaled
  simp only [withdraw, withdrawAccounts, account, signer, bind_eq_ok, require_eq_ok, checkedSub_eq_ok,
    loadProtocolConfig_eq_ok, loadMarket_eq_ok, loadTokenAccount_eq_ok, loadLenderPosition_eq_ok,
    validateMarketState, validateMarketAuthority, exists_const, true_and, Except.ok.injEq]
  exact ⟨hdata, config, hconfig, hpaused, ma, ⟨hma, hp.address⟩, hp.vault, hmatured, (), hblacklist, m,
    haccrue, q, hq, hbalance, m', hsettle, hle, hfactor, _, hamounts, hpay, fun h => absurd h.2 (by omega), lt,
    hlt, howner, t, htrack, _, ⟨by omega, rfl⟩, _, ⟨htotal, rfl⟩, tokens, htransfer, rfl⟩

theorem forceClosePosition_pays (hw : WellFormed w) (hconfig : w.config = some config) (hpaused : ¬config.isPaused)
    (hma : w.markets.lookup a = some ma) (hmatured : ma.market.maturityTimestamp ≤ w.clock)
    (hgrace : checkGracePeriod w ma.market = .ok ()) {m m' : Market}
    (haccrue : accrueInterest ma.market config w.clock = .ok m)
    (hsettle : settleOnForceClose w m (account (.vault a)) = .ok m') (hmint' : m'.mint = USDC_MINT)
    (hq : ma.positions.lookup lender = some q) (hbalance : q.scaledBalance ≠ 0) (hfactor : m'.scaleFactor ≠ 0)
    {n pay : ℕ} (hamounts : exitAmounts m' q.scaledBalance = .ok (n, pay))
    (htoken : w.tokens.holder token = some (USDC_MINT, lender)) {t : Tracked}
    (htrack : trackHaircut ma a (account (.haircutState a)) m' q n pay = .ok t)
    (htotal : q.scaledBalance ≤ t.market.scaledTotalSupply) {tokens : TokenLedger}
    (hpay : transferIfPositive w (.vault a) token (.marketAuthority a) t.payout = .ok tokens) :
    forceClosePosition w (forceClosePositionAccounts a ma.market.borrower lender token) = .ok
      ({ w with tokens }.setMarket a
        { market := { t.market with scaledTotalSupply := t.market.scaledTotalSupply - q.scaledBalance }
          haircutState := t.haircutState
          positions := ma.positions.insert lender { t.position with scaledBalance := 0 } },
        .forceClose a lender t.payout q.scaledBalance) := by
  have hp := hw.placed a ma hma
  obtain ⟨hqm, rfl, -⟩ := hp.positions lender q hq
  obtain ⟨lt, hlt, hmint, howner⟩ := TokenLedger.exists_of_holder htoken
  simp only [account] at hsettle htrack
  simp only [forceClosePosition, forceClosePositionAccounts, account, signer, bind_eq_ok, require_eq_ok,
    checkedSub_eq_ok, loadProtocolConfig_eq_ok, loadMarket_eq_ok, loadPositionOfMarket_eq_ok, loadEscrow_eq_ok,
    validateMarketState, validateMarketAuthority, exists_const, true_and, Except.ok.injEq]
  exact ⟨ma, ⟨hma, hp.address⟩, rfl, hp.vault, config, hconfig, hpaused, hmatured, (), hgrace, m, haccrue, m', hsettle,
    q, ⟨rfl, hqm, ma, hma, hq⟩, ⟨lt, hlt, howner, hmint.trans hmint'.symm⟩, hbalance, hfactor, _, hamounts, t,
    htrack, _, ⟨htotal, rfl⟩, tokens, hpay, rfl⟩

theorem forceClosePosition_succeeds (hw : WellFormed w) (hconfig : w.config = some config) (hpaused : ¬config.isPaused)
    (hma : w.markets.lookup a = some ma) (hmatured : ma.market.maturityTimestamp ≤ w.clock)
    (hgrace : checkGracePeriod w ma.market = .ok ()) {m : Market}
    (haccrue : accrueInterest ma.market config w.clock = .ok m) (hsettled : m.settlementFactorWad ≠ 0)
    (hq : ma.positions.lookup lender = some q) (hbalance : q.scaledBalance ≠ 0) (hfactor : m.scaleFactor ≠ 0)
    {n pay : ℕ} (hamounts : exitAmounts m q.scaledBalance = .ok (n, pay))
    (htoken : w.tokens.holder token = some (USDC_MINT, lender)) {t : Tracked}
    (htrack : trackHaircut ma a (account (.haircutState a)) m q n pay = .ok t)
    (htotal : q.scaledBalance ≤ t.market.scaledTotalSupply) (hpos : 0 < t.payout)
    (hvault : t.payout ≤ w.tokens.amount (.vault a)) :
    ∃ tokens, w.tokens.transfer (.vault a) token (.marketAuthority a) t.payout = .ok tokens ∧
      forceClosePosition w (forceClosePositionAccounts a ma.market.borrower lender token) = .ok
        ({ w with tokens }.setMarket a
          { market := { t.market with scaledTotalSupply := t.market.scaledTotalSupply - q.scaledBalance }
            haircutState := t.haircutState
            positions := ma.positions.insert lender { t.position with scaledBalance := 0 } },
          .forceClose a lender t.payout q.scaledBalance) := by
  obtain ⟨tokens, htransfer⟩ := transfer_from_vault hw hma htoken hvault
  obtain ⟨_, _, hm, -⟩ := accrueInterest_ok haccrue
  have hmint : m.mint = USDC_MINT := by rw [hm]; exact (hw.placed a ma hma).mint
  have hsettle : settleOnForceClose w m (account (.vault a)) = .ok m := by rw [settleOnForceClose, if_neg hsettled]
  refine ⟨tokens, htransfer, forceClosePosition_pays hw hconfig hpaused hma hmatured hgrace haccrue hsettle hmint hq
    hbalance hfactor hamounts htoken htrack htotal ?_⟩
  rw [transferIfPositive, if_pos hpos, htransfer]

theorem claimHaircut_succeeds (hw : WellFormed w) (hconfig : w.config = some config) (hpaused : ¬config.isPaused)
    (hma : w.markets.lookup a = some ma) (hsettled : ma.market.settlementFactorWad ≠ 0)
    (hq : ma.positions.lookup lender = some q) {exact claimed : ℕ} (hexact : claimableNow ma.market q = .ok exact)
    (hcap : capAtSurplus ma.market (w.tokens.amount (.vault a)) exact = .ok claimed)
    (htoken : w.tokens.holder token = some (USDC_MINT, lender)) {t : Tracked}
    (hrecord : recordClaim ma.market q ma.haircutState claimed = .ok t)
    (hvault : claimed ≤ w.tokens.amount (.vault a)) :
    ∃ tokens, w.tokens.transfer (.vault a) token (.marketAuthority a) claimed = .ok tokens ∧
      claimHaircut w (claimHaircutAccounts a lender token) = .ok
        ({ w with tokens }.setMarket a
          { market := t.market, haircutState := t.haircutState, positions := ma.positions.insert lender t.position },
          .claimHaircut a lender claimed t.position.haircutOwed) := by
  obtain ⟨tokens, htransfer⟩ := transfer_from_vault hw hma htoken hvault
  refine ⟨tokens, htransfer, ?_⟩
  have hp := hw.placed a ma hma
  obtain ⟨hqm, hql, -⟩ := hp.positions lender q hq
  obtain ⟨lt, hlt, hmint, howner⟩ := TokenLedger.exists_of_holder htoken
  obtain ⟨vt, hvt, hvm, -⟩ := TokenLedger.exists_of_holder (hw.vault a ma hma)
  rw [TokenLedger.amount_eq hvt] at hcap
  simp only [claimHaircut, claimHaircutAccounts, account, signer, bind_eq_ok, require_eq_ok,
    loadProtocolConfig_eq_ok, loadMarket_eq_ok, loadTokenAccount_eq_ok, loadVault_eq_ok, loadLenderPosition_eq_ok,
    loadHaircutState_eq_ok, validateMarketAuthority, exists_const, true_and, Except.ok.injEq]
  exact ⟨config, hconfig, hpaused, ma, ⟨hma, hp.address⟩, hp.vault, hsettled, q, hq, hqm, hql, _,
    ⟨hp.haircutState, rfl⟩, exact, hexact, vt, ⟨hvt, hvm.trans hp.mint.symm⟩, claimed, hcap, lt, hlt, howner,
    hmint.trans hp.mint.symm, t, hrecord, tokens, htransfer, rfl⟩

theorem forceClaimHaircut_succeeds (hw : WellFormed w) (hconfig : w.config = some config) (hpaused : ¬config.isPaused)
    (hma : w.markets.lookup a = some ma) (hmatured : ma.market.maturityTimestamp ≤ w.clock)
    (hgrace : checkGracePeriod w ma.market = .ok ()) (hsettled : ma.market.settlementFactorWad ≠ 0)
    (hq : ma.positions.lookup lender = some q) {exact claimed : ℕ} (hexact : claimableNow ma.market q = .ok exact)
    (hcap : capAtSurplus ma.market (w.tokens.amount (.vault a)) exact = .ok claimed)
    (htoken : w.tokens.holder token = some (USDC_MINT, lender)) {t : Tracked}
    (hrecord : recordClaim ma.market q ma.haircutState claimed = .ok t)
    (hvault : claimed ≤ w.tokens.amount (.vault a)) :
    ∃ tokens, w.tokens.transfer (.vault a) token (.marketAuthority a) claimed = .ok tokens ∧
      forceClaimHaircut w (forceClaimHaircutAccounts a ma.market.borrower lender token) = .ok
        ({ w with tokens }.setMarket a
          { market := t.market, haircutState := t.haircutState, positions := ma.positions.insert lender t.position },
          .forceClaimHaircut a lender claimed t.position.haircutOwed) := by
  obtain ⟨tokens, htransfer⟩ := transfer_from_vault hw hma htoken hvault
  refine ⟨tokens, htransfer, ?_⟩
  have hp := hw.placed a ma hma
  obtain ⟨hqm, rfl, -⟩ := hp.positions lender q hq
  obtain ⟨lt, hlt, hmint, howner⟩ := TokenLedger.exists_of_holder htoken
  obtain ⟨vt, hvt, hvm, -⟩ := TokenLedger.exists_of_holder (hw.vault a ma hma)
  rw [TokenLedger.amount_eq hvt] at hcap
  simp only [forceClaimHaircut, forceClaimHaircutAccounts, account, signer, bind_eq_ok, require_eq_ok,
    loadProtocolConfig_eq_ok, loadMarket_eq_ok, loadVault_eq_ok, loadPositionOfMarket_eq_ok, loadEscrow_eq_ok,
    loadHaircutState_eq_ok, validateMarketAuthority, exists_const, true_and, Except.ok.injEq]
  exact ⟨config, hconfig, hpaused, ma, ⟨hma, hp.address⟩, rfl, hp.vault, hmatured, (), hgrace, hsettled, q,
    ⟨rfl, hqm, ma, hma, hq⟩, ⟨lt, hlt, howner, hmint.trans hp.mint.symm⟩, _, ⟨hp.haircutState, rfl⟩, exact, hexact, vt,
    ⟨hvt, hvm.trans hp.mint.symm⟩, claimed, hcap, t, hrecord, tokens, htransfer, rfl⟩

theorem closeLenderPosition_succeeds (hw : WellFormed w) (hconfig : w.config = some config) (hpaused : ¬config.isPaused)
    (hma : w.markets.lookup a = some ma) (hq : ma.positions.lookup lender = some q) (hbalance : q.scaledBalance = 0)
    (howed : q.haircutOwed = 0) :
    closeLenderPosition w (closeLenderPositionAccounts a lender) = .ok
      (w.setMarket a { ma with positions := ma.positions.erase lender }, .closePosition a lender) := by
  have hp := hw.placed a ma hma
  obtain ⟨hqm, hql, -⟩ := hp.positions lender q hq
  simp only [closeLenderPosition, closeLenderPositionAccounts, account, signer, bind_eq_ok, require_eq_ok,
    loadProtocolConfig_eq_ok, loadMarket_eq_ok, loadLenderPosition_eq_ok, exists_const, true_and, Except.ok.injEq]
  exact ⟨config, hconfig, hpaused, ma, ⟨hma, hp.address⟩, q, hq, hql, hqm, hbalance, howed, rfl⟩

end Handlers

/-! ### Pending obligations -/

namespace MarketAccounts

def balance (ma : MarketAccounts) (l : Address) : ℕ := (ma.positions.lookup l).elim 0 LenderPosition.scaledBalance

def owed (ma : MarketAccounts) (l : Address) : ℕ := (ma.positions.lookup l).elim 0 LenderPosition.haircutOwed

/-- The face value of what a lender still has in the market. -/
def faceOf (ma : MarketAccounts) (l : Address) : ℕ := ma.balance l * ma.market.scaleFactor / WAD

end MarketAccounts

/-- An instruction that exits a whole position or claims a haircut. -/
inductive Obligation
  | withdraw (lender token : Address) (data : List UInt8)
  | forceClosePosition (lender token : Address)
  | claimHaircut (lender token : Address)
  | forceClaimHaircut (lender token : Address)

namespace Obligation

def lender : Obligation → Address
  | withdraw l .. | forceClosePosition l .. | claimHaircut l .. | forceClaimHaircut l .. => l

def token : Obligation → Address
  | withdraw _ t _ | forceClosePosition _ t | claimHaircut _ t | forceClaimHaircut _ t => t

def isExit : Obligation → Bool
  | withdraw .. | forceClosePosition .. => true
  | claimHaircut .. | forceClaimHaircut .. => false

/-- The accounts and the data of the instruction. -/
def call (a borrower blacklistProgram : Address) : Obligation → List AccountMeta × List UInt8
  | withdraw l t data => (withdrawAccounts a l t blacklistProgram, 7 :: data)
  | forceClosePosition l t => (forceClosePositionAccounts a borrower l t, [18])
  | claimHaircut l t => (claimHaircutAccounts a l t, [19])
  | forceClaimHaircut l t => (forceClaimHaircutAccounts a borrower l t, [20])

/-- What the instruction pays at par: the whole face value, or the whole haircut. -/
def event (a : Address) (ma : MarketAccounts) : Obligation → Event
  | withdraw l _ _ => .withdraw a l (ma.faceOf l) (ma.balance l)
  | forceClosePosition l _ => .forceClose a l (ma.faceOf l) (ma.balance l)
  | claimHaircut l _ => .claimHaircut a l (ma.owed l) 0
  | forceClaimHaircut l _ => .forceClaimHaircut a l (ma.owed l) 0

/-- The account that the instruction pays, and the amount at par. -/
def payment (ma : MarketAccounts) : Obligation → Address × ℕ
  | withdraw l t _ | forceClosePosition l t => (t, ma.faceOf l)
  | claimHaircut l t | forceClaimHaircut l t => (t, ma.owed l)

/-- The token account is the lender's; a withdrawal asks for everything, with a minimum it can meet, and the lender is
not blacklisted. -/
def Correct (w : World) (config : ProtocolConfig) (ma : MarketAccounts) (o : Obligation) : Prop :=
  w.tokens.holder o.token = some (USDC_MINT, o.lender) ∧
    match o with
    | withdraw l _ data => 24 ≤ data.length ∧ u128At data 0 = 0 ∧ u64At data 16 ≤ ma.faceOf l ∧
        checkBlacklist w (account (.blacklist config.blacklistProgram l)) config l = .ok ()
    | _ => True

instance (w : World) (config : ProtocolConfig) (ma : MarketAccounts) :
    (o : Obligation) → Decidable (o.Correct w config ma)
  | withdraw .. => inferInstanceAs (Decidable (_ ∧ _ ∧ _ ∧ _ ∧ _))
  | forceClosePosition .. | claimHaircut .. | forceClaimHaircut .. => inferInstanceAs (Decidable (_ ∧ True))

/-- The obligation is open: the lender has a balance to exit or a haircut to claim. -/
def Open (ma : MarketAccounts) (o : Obligation) : Prop :=
  if o.isExit then 0 < ma.balance o.lender else 0 < ma.owed o.lender

end Obligation

/-- What clearing an obligation leaves behind. -/
structure Cleared (w : World) (a : Address) (ma : MarketAccounts) (o : Obligation) (w' : World)
    (ma' : MarketAccounts) : Prop where
  reachable : Reachable w'
  config : w'.config = w.config
  blacklist : w'.blacklist = w.blacklist
  paid : w.tokens.PaidOut w'.tokens (.vault a) [o.payment ma]
  lookup : w'.markets.lookup a = some ma'
  factor : ma'.market.settlementFactorWad = ma.market.settlementFactorWad
  scaleFactor : ma'.market.scaleFactor = ma.market.scaleFactor
  borrower : ma'.market.borrower = ma.market.borrower
  balance : ∀ l, ma'.balance l = if o.isExit ∧ l = o.lender then 0 else ma.balance l
  owed : ∀ l, ma'.owed l = if ¬o.isExit ∧ l = o.lender then 0 else ma.owed l

section Clear

variable {w : World} {a : Address} {config : ProtocolConfig} {ma : MarketAccounts}

theorem reachable_of_call (h : Reachable w) {accounts : List AccountMeta} {data : List UInt8} {w' : World}
    {e : Event} {r : Result (World × Event)} (hsign : ∀ x ∈ accounts, x.isSigner → x.address.isKey)
    (hok : r = .ok (w', e)) (hr : processInstruction w accounts data = r) : Reachable w' :=
  h.step (.instruction hsign (hr.trans hok))

/-- Writing back one position, with a payment out of the vault. -/
private theorem cleared {o : Obligation} {m : Market} {hs : HaircutState} {l : Address} {q q' : LenderPosition}
    {t : TokenLedger} (hl : o.lender = l) (hq : ma.positions.lookup l = some q)
    (hbalance : q'.scaledBalance = if o.isExit then 0 else q.scaledBalance)
    (howed : q'.haircutOwed = if o.isExit then q.haircutOwed else 0)
    (hr : Reachable ({ w with tokens := t }.setMarket a
      { market := m, haircutState := hs, positions := ma.positions.insert l q' }))
    (hpaid : w.tokens.PaidOut t (.vault a) [o.payment ma])
    (hfactor : m.settlementFactorWad = ma.market.settlementFactorWad)
    (hscale : m.scaleFactor = ma.market.scaleFactor) (hborrower : m.borrower = ma.market.borrower) :
    Cleared w a ma o
      ({ w with tokens := t }.setMarket a
        { market := m, haircutState := hs, positions := ma.positions.insert l q' })
      { market := m, haircutState := hs, positions := ma.positions.insert l q' } := by
  refine ⟨hr, rfl, rfl, hpaid, by simp [World.setMarket], hfactor, hscale, hborrower, ?_, ?_⟩
  · intro x
    by_cases hx : x = l
    · subst hx
      simp [MarketAccounts.balance, hq, hbalance, hl]
    · simp [MarketAccounts.balance, Finmap.lookup_insert_of_ne _ hx, hl, hx]
  · intro x
    by_cases hx : x = l
    · subst hx
      simp only [MarketAccounts.owed, Finmap.lookup_insert, hq, Option.elim_some, howed, hl, and_true]
      cases o.isExit <;> simp
    · simp [MarketAccounts.owed, Finmap.lookup_insert_of_ne _ hx, hl, hx]

theorem balance_eq {l : Address} {q : LenderPosition} (hq : ma.positions.lookup l = some q) :
    ma.balance l = q.scaledBalance ∧ ma.owed l = q.haircutOwed := by
  simp [MarketAccounts.balance, MarketAccounts.owed, hq]

private theorem exists_position {l : Address} {f : LenderPosition → ℕ} (h : 0 < (ma.positions.lookup l).elim 0 f) :
    ∃ q, ma.positions.lookup l = some q ∧ f q ≠ 0 := by
  cases hq : ma.positions.lookup l with
  | none => rw [hq] at h; exact absurd h (lt_irrefl 0)
  | some q => rw [hq] at h; exact ⟨q, rfl, h.ne'⟩

/-- The checks of both exits at par. -/
private theorem exit_par {p : Pool} (hl : p.Ledger) (hpar : p.market.settlementFactorWad = WAD)
    (hvault : p.vault ≤ u64Max) {l : Address} {q : LenderPosition} (hq : p.positions.lookup l = some q)
    (hbalance : q.scaledBalance ≠ 0) (x : AccountMeta) :
    exitAmounts p.market q.scaledBalance = .ok (p.faceOf l, p.faceOf l) ∧ p.faceOf l ≠ 0 ∧
      p.faceOf l ≤ p.vault ∧ q.scaledBalance ≤ p.market.scaledTotalSupply ∧
      trackHaircut p.toMarketAccounts a x p.market q (p.faceOf l) (p.faceOf l) =
        .ok { market := p.market, position := q, haircutState := p.haircutState, payout := p.faceOf l } := by
  have hle := hl.supply_ge hq
  have hface : p.faceOf l = q.scaledBalance * p.market.scaleFactor / WAD := by
    rw [MarketAccounts.faceOf, (balance_eq hq).1]
  have hpos : q.scaledBalance ≤ p.faceOf l := by
    rw [hface, Nat.le_div_iff_mul_le WAD_pos]
    exact Nat.mul_le_mul_left _ hl.wad_le
  have hpaid : p.faceOf l ≤ p.face := by
    rw [hface]
    exact Nat.div_le_div_right (Nat.mul_le_mul_right _ hle)
  have hsolvent := hl.solvent hpar
  refine ⟨?_, by omega, by omega, hle, ?_⟩
  · rw [hface]
    exact hl.exitAmounts_par hpar hvault hle
  · rw [trackHaircut, if_neg (by omega)]

private theorem withdraw_clear (h : Reachable w) (hconfig : w.config = some config) (hpaused : ¬config.isPaused)
    (hma : w.markets.lookup a = some ma) (hpar : ma.market.settlementFactorWad = WAD) {l token : Address}
    {data : List UInt8} (ho : (Obligation.withdraw l token data).Correct w config ma)
    (hopen : (Obligation.withdraw l token data).Open ma) :
    ∃ w' ma', withdraw w (withdrawAccounts a l token config.blacklistProgram) data =
        .ok (w', .withdraw a l (ma.faceOf l) (ma.balance l)) ∧
      Cleared w a ma (.withdraw l token data) w' ma' := by
  have hw := Reachable.wellFormed h
  have hp := hw.placed a ma hma
  have hl := Reachable.ledger h (World.pool_of_lookup hma)
  have hs := hl.settled (hpar ▸ WAD_pos.ne')
  obtain ⟨htoken, hdata, hall, hmin, hblacklist⟩ := ho
  obtain ⟨q, hq, hbalance⟩ : ∃ q, ma.positions.lookup l = some q ∧ q.scaledBalance ≠ 0 := exists_position hopen
  obtain ⟨hamounts, hpay, hvault, htotal, htrack⟩ :=
    exit_par (a := a) hl hpar (TokenLedger.amount_le_u64 _ _) hq hbalance (account (.haircutState a))
  have hmatured : ma.market.maturityTimestamp ≤ w.clock := hs.matured
  have hsettle : settleOnWithdraw w ma.market (account (.vault a)) = .ok ma.market := by
    rw [settleOnWithdraw, if_neg (hpar ▸ WAD_pos.ne')]
  obtain ⟨tokens, htransfer, hok⟩ := withdraw_succeeds hw hconfig hpaused hma hmatured hblacklist
    (accrueInterest_matured config hs.accrued hmatured) hq hbalance hsettle hdata (by rw [if_pos hall]) le_rfl
    (WAD_pos.trans_le hl.wad_le).ne' hamounts hpay hmin htoken htrack htotal hvault
  have hkey := (hp.positions l q hq).2.2
  rw [(balance_eq hq).1]
  refine ⟨_, _, hok, cleared rfl hq (Nat.sub_self _) rfl ?_ (.of_transfer htransfer (hw.token_ne_vault htoken hkey)) rfl
    rfl rfl⟩
  refine reachable_of_call h ?_ hok
    (show processInstruction w (withdrawAccounts a l token config.blacklistProgram) (7 :: data) = _ from rfl)
  simpa [withdrawAccounts, account, signer] using hkey

private theorem forceClosePosition_clear (h : Reachable w) (hconfig : w.config = some config)
    (hpaused : ¬config.isPaused) (hma : w.markets.lookup a = some ma) (hpar : ma.market.settlementFactorWad = WAD)
    {l token : Address} (ho : (Obligation.forceClosePosition l token).Correct w config ma)
    (hopen : (Obligation.forceClosePosition l token).Open ma) :
    ∃ w' ma', forceClosePosition w (forceClosePositionAccounts a ma.market.borrower l token) =
        .ok (w', .forceClose a l (ma.faceOf l) (ma.balance l)) ∧
      Cleared w a ma (.forceClosePosition l token) w' ma' := by
  have hw := Reachable.wellFormed h
  have hp := hw.placed a ma hma
  have hl := Reachable.ledger h (World.pool_of_lookup hma)
  have hs := hl.settled (hpar ▸ WAD_pos.ne')
  obtain ⟨q, hq, hbalance⟩ : ∃ q, ma.positions.lookup l = some q ∧ q.scaledBalance ≠ 0 := exists_position hopen
  obtain ⟨hamounts, hpay, hvault, htotal, htrack⟩ :=
    exit_par (a := a) hl hpar (TokenLedger.amount_le_u64 _ _) hq hbalance (account (.haircutState a))
  have hmatured : ma.market.maturityTimestamp ≤ w.clock := hs.matured
  have hgrace : checkGracePeriod w ma.market = .ok () :=
    checkGracePeriod_eq_ok.2 ⟨hs.grace.trans (Reachable.clock_le h), hs.grace⟩
  obtain ⟨tokens, htransfer, hok⟩ := forceClosePosition_succeeds hw hconfig hpaused hma hmatured hgrace
    (accrueInterest_matured config hs.accrued hmatured) (hpar ▸ WAD_pos.ne') hq hbalance
    (WAD_pos.trans_le hl.wad_le).ne' hamounts ho.1 htrack htotal (Nat.pos_of_ne_zero hpay) hvault
  have hkey := (hp.positions l q hq).2.2
  rw [(balance_eq hq).1]
  refine ⟨_, _, hok, cleared rfl hq rfl rfl ?_ (.of_transfer htransfer (hw.token_ne_vault ho.1 hkey)) rfl rfl rfl⟩
  refine reachable_of_call h ?_ hok
    (show processInstruction w (forceClosePositionAccounts a ma.market.borrower l token) ([18]) = _ from rfl)
  simpa [forceClosePositionAccounts, account, signer] using hp.borrower

private theorem claimHaircut_clear (h : Reachable w) (hconfig : w.config = some config)
    (hpaused : ¬config.isPaused) (hma : w.markets.lookup a = some ma) (hpar : ma.market.settlementFactorWad = WAD)
    {l token : Address} (ho : (Obligation.claimHaircut l token).Correct w config ma)
    (hopen : (Obligation.claimHaircut l token).Open ma) :
    ∃ w' ma', claimHaircut w (claimHaircutAccounts a l token) = .ok (w', .claimHaircut a l (ma.owed l) 0) ∧
      Cleared w a ma (.claimHaircut l token) w' ma' := by
  have hw := Reachable.wellFormed h
  have hp := hw.placed a ma hma
  have hl := Reachable.ledger h (World.pool_of_lookup hma)
  obtain ⟨q, hq, howed⟩ : ∃ q, ma.positions.lookup l = some q ∧ q.haircutOwed ≠ 0 := exists_position hopen
  obtain ⟨hexact, hcap, hrecord⟩ := hl.claim_par hpar (TokenLedger.amount_le_u64 _ _) hq howed
  have hsolvent := hl.solvent hpar
  have howed_ge := hl.owed_ge hq
  obtain ⟨tokens, htransfer, hok⟩ := claimHaircut_succeeds hw hconfig hpaused hma (hpar ▸ WAD_pos.ne') hq hexact hcap
    ho.1 hrecord (by dsimp only at hsolvent howed_ge; omega)
  have hkey := (hp.positions l q hq).2.2
  have hpaid : w.tokens.PaidOut tokens (.vault a) [(token, ma.owed l)] := by
    rw [(balance_eq hq).2]
    exact .of_transfer htransfer (hw.token_ne_vault ho.1 hkey)
  rw [(balance_eq hq).2]
  refine ⟨_, _, hok, cleared rfl hq rfl rfl ?_ hpaid rfl rfl rfl⟩
  refine reachable_of_call h ?_ hok
    (show processInstruction w (claimHaircutAccounts a l token) ([19]) = _ from rfl)
  simpa [claimHaircutAccounts, account, signer] using hkey

private theorem forceClaimHaircut_clear (h : Reachable w) (hconfig : w.config = some config)
    (hpaused : ¬config.isPaused) (hma : w.markets.lookup a = some ma) (hpar : ma.market.settlementFactorWad = WAD)
    {l token : Address} (ho : (Obligation.forceClaimHaircut l token).Correct w config ma)
    (hopen : (Obligation.forceClaimHaircut l token).Open ma) :
    ∃ w' ma', forceClaimHaircut w (forceClaimHaircutAccounts a ma.market.borrower l token) =
        .ok (w', .forceClaimHaircut a l (ma.owed l) 0) ∧
      Cleared w a ma (.forceClaimHaircut l token) w' ma' := by
  have hw := Reachable.wellFormed h
  have hp := hw.placed a ma hma
  have hl := Reachable.ledger h (World.pool_of_lookup hma)
  have hs := hl.settled (hpar ▸ WAD_pos.ne')
  obtain ⟨q, hq, howed⟩ : ∃ q, ma.positions.lookup l = some q ∧ q.haircutOwed ≠ 0 := exists_position hopen
  obtain ⟨hexact, hcap, hrecord⟩ := hl.claim_par hpar (TokenLedger.amount_le_u64 _ _) hq howed
  have hmatured : ma.market.maturityTimestamp ≤ w.clock := hs.matured
  have hgrace : checkGracePeriod w ma.market = .ok () :=
    checkGracePeriod_eq_ok.2 ⟨hs.grace.trans (Reachable.clock_le h), hs.grace⟩
  have hsolvent := hl.solvent hpar
  have howed_ge := hl.owed_ge hq
  obtain ⟨tokens, htransfer, hok⟩ := forceClaimHaircut_succeeds hw hconfig hpaused hma hmatured hgrace
    (hpar ▸ WAD_pos.ne') hq hexact hcap ho.1 hrecord (by dsimp only at hsolvent howed_ge; omega)
  have hpaid : w.tokens.PaidOut tokens (.vault a) [(token, ma.owed l)] := by
    rw [(balance_eq hq).2]
    exact .of_transfer htransfer (hw.token_ne_vault ho.1 (hp.positions l q hq).2.2)
  rw [(balance_eq hq).2]
  refine ⟨_, _, hok, cleared rfl hq rfl rfl ?_ hpaid rfl rfl rfl⟩
  refine reachable_of_call h ?_ hok
    (show processInstruction w (forceClaimHaircutAccounts a ma.market.borrower l token) ([20]) = _ from rfl)
  simpa [forceClaimHaircutAccounts, account, signer] using hp.borrower

/-- At par, with the protocol unpaused, an open obligation is cleared by its instruction. -/
theorem Obligation.clear (h : Reachable w) (hconfig : w.config = some config) (hpaused : ¬config.isPaused)
    (hma : w.markets.lookup a = some ma) (hpar : ma.market.settlementFactorWad = WAD) {o : Obligation}
    (ho : o.Correct w config ma) (hopen : o.Open ma) :
    ∃ w' ma', processInstruction w (o.call a ma.market.borrower config.blacklistProgram).1
        (o.call a ma.market.borrower config.blacklistProgram).2 = .ok (w', o.event a ma) ∧ Cleared w a ma o w' ma' := by
  cases o with
  | withdraw l token data => exact withdraw_clear h hconfig hpaused hma hpar ho hopen
  | forceClosePosition l token => exact forceClosePosition_clear h hconfig hpaused hma hpar ho hopen
  | claimHaircut l token => exact claimHaircut_clear h hconfig hpaused hma hpar ho hopen
  | forceClaimHaircut l token => exact forceClaimHaircut_clear h hconfig hpaused hma hpar ho hopen

end Clear

/-! ### Every order of the obligations -/

/-- A list of instructions, with the events they log; the first failure ends it. -/
def World.executeAll (w : World) : List (List AccountMeta × List UInt8) → Result (World × List Event)
  | [] => .ok (w, [])
  | c :: cs => do
    let r ← processInstruction w c.1 c.2
    let s ← r.1.executeAll cs
    .ok (s.1, r.2 :: s.2)

theorem World.executeAll_cons {w w₁ w' : World} {c : List AccountMeta × List UInt8} {e : Event} {es : List Event}
    {cs : List (List AccountMeta × List UInt8)} (hok : processInstruction w c.1 c.2 = .ok (w₁, e))
    (hrest : w₁.executeAll cs = .ok (w', es)) : w.executeAll (c :: cs) = .ok (w', e :: es) := by
  simp only [executeAll, bind_eq_ok, Except.ok.injEq]
  exact ⟨_, hok, _, hrest, rfl⟩

/-- The calls succeed one after the other, and after each of them the vault of `a` has made the payments so far. -/
def World.PaysEach (w : World) (a : Address) (calls : List (List AccountMeta × List UInt8))
    (payments : List (Address × ℕ)) : Prop :=
  ∀ n, ∃ w' es, w.executeAll (calls.take n) = .ok (w', es) ∧
    w.tokens.PaidOut w'.tokens (.vault a) (payments.take n)

theorem World.PaysEach.nil {w : World} {a : Address} : w.PaysEach a [] [] := by
  intro n
  rw [List.take_nil, List.take_nil]
  exact ⟨w, [], rfl, .nil _ _⟩

theorem World.PaysEach.cons {w w₁ : World} {a : Address} {c : List AccountMeta × List UInt8} {e : Event}
    {cs : List (List AccountMeta × List UInt8)} {payment : Address × ℕ} {payments : List (Address × ℕ)}
    (hok : processInstruction w c.1 c.2 = .ok (w₁, e)) (hpaid : w.tokens.PaidOut w₁.tokens (.vault a) [payment])
    (hrest : w₁.PaysEach a cs payments) : w.PaysEach a (c :: cs) (payment :: payments) := by
  intro n
  cases n with
  | zero => exact ⟨w, [], rfl, .nil _ _⟩
  | succ n =>
    obtain ⟨w', es, hall, hothers⟩ := hrest n
    exact ⟨w', e :: es, World.executeAll_cons hok hall, hpaid.cons hothers⟩

/-- The lenders whose exits, or whose claims, a list of obligations contains. -/
def Obligation.lenders (exits : Bool) (os : List Obligation) : List Address :=
  (os.filter fun o => o.isExit = exits).map lender

theorem Obligation.lenders_cons (b : Bool) (o : Obligation) (os : List Obligation) :
    lenders b (o :: os) = if o.isExit = b then o.lender :: lenders b os else lenders b os := by
  simp only [lenders, List.filter_cons, decide_eq_true_eq]
  split <;> rfl

/-- Clearing the first obligation leaves the lenders of the others. -/
theorem Obligation.pos_iff_mem_lenders {b : Bool} {o : Obligation} {os : List Obligation} {l : Address} {n n' : ℕ}
    (h : 0 < n ↔ l ∈ lenders b (o :: os)) (hnodup : (lenders b (o :: os)).Nodup)
    (hn : n' = if o.isExit = b ∧ l = o.lender then 0 else n) : 0 < n' ↔ l ∈ lenders b os := by
  rw [lenders_cons] at h hnodup
  by_cases hb : o.isExit = b
  · rw [if_pos hb] at h hnodup
    obtain ⟨hnot, -⟩ := List.nodup_cons.1 hnodup
    by_cases hl : l = o.lender
    · rw [hn, if_pos ⟨hb, hl⟩, hl]
      exact iff_of_false (lt_irrefl 0) hnot
    · rw [hn, if_neg (fun hx => hl hx.2), h, List.mem_cons]
      exact or_iff_right hl
  · rw [if_neg hb] at h
    rw [hn, if_neg (fun hx => hb hx.1), h]

/-- The list holds one exit for every lender with a balance and one claim for every lender with a haircut. -/
structure MarketAccounts.Pending (ma : MarketAccounts) (os : List Obligation) : Prop where
  nodup : ∀ exits, (Obligation.lenders exits os).Nodup
  exits : ∀ l, 0 < ma.balance l ↔ l ∈ Obligation.lenders true os
  claims : ∀ l, 0 < ma.owed l ↔ l ∈ Obligation.lenders false os

/-- Only the lenders with a position matter. -/
theorem MarketAccounts.pending_iff {ma : MarketAccounts} {os : List Obligation} : ma.Pending os ↔
    (∀ exits, (Obligation.lenders exits os).Nodup) ∧
      (∀ l ∈ ma.positions.keys, (0 < ma.balance l ↔ l ∈ Obligation.lenders true os) ∧
        (0 < ma.owed l ↔ l ∈ Obligation.lenders false os)) ∧
      ∀ exits, ∀ l ∈ Obligation.lenders exits os, l ∈ ma.positions.keys := by
  have hnone {l : Address} (hl : l ∉ ma.positions.keys) : ma.balance l = 0 ∧ ma.owed l = 0 := by
    rw [Finmap.mem_keys, ← Finmap.lookup_eq_none] at hl
    simp [balance, owed, hl]
  constructor
  · intro h
    refine ⟨h.nodup, fun l _ => ⟨h.exits l, h.claims l⟩, ?_⟩
    intro exits l hl
    by_contra hkey
    obtain ⟨hbalance, howed⟩ := hnone hkey
    cases exits with
    | true => exact absurd ((h.exits l).2 hl) (by omega)
    | false => exact absurd ((h.claims l).2 hl) (by omega)
  · rintro ⟨hnodup, hlenders, hkeys⟩
    refine ⟨hnodup, ?_, ?_⟩
    · intro l
      by_cases hl : l ∈ ma.positions.keys
      · exact (hlenders l hl).1
      · rw [(hnone hl).1]
        exact iff_of_false (lt_irrefl 0) (mt (hkeys true l) hl)
    · intro l
      by_cases hl : l ∈ ma.positions.keys
      · exact (hlenders l hl).2
      · rw [(hnone hl).2]
        exact iff_of_false (lt_irrefl 0) (mt (hkeys false l) hl)

instance (ma : MarketAccounts) (os : List Obligation) : Decidable (ma.Pending os) :=
  decidable_of_iff _ MarketAccounts.pending_iff.symm

/-- Without a pending obligation the books are empty. -/
theorem Pool.Ledger.empty_of_pending {p : Pool} (h : p.Ledger) (hp : p.Pending []) :
    p.market.scaledTotalSupply = 0 ∧ p.market.haircutAccumulator = 0 := by
  have hempty (l q) (hq : p.positions.lookup l = some q) : q.scaledBalance = 0 ∧ q.haircutOwed = 0 := by
    have hbalance := (hp.exits l).not.2 List.not_mem_nil
    have howed := (hp.claims l).not.2 List.not_mem_nil
    simp only [MarketAccounts.balance, MarketAccounts.owed, hq, Option.elim_some] at hbalance howed
    omega
  constructor
  · rw [h.supply]
    exact Finmap.total_eq_zero fun l q hq => (hempty l q hq).1
  · rw [h.owed]
    exact Finmap.total_eq_zero fun l q hq => (hempty l q hq).2

namespace Cleared

variable {w w' : World} {a : Address} {config : ProtocolConfig} {ma ma' : MarketAccounts} {o o' : Obligation}

/-- Another obligation keeps its amounts. -/
theorem event_eq (h : Cleared w a ma o w' ma') (hne : o'.isExit = o.isExit → o'.lender ≠ o.lender) :
    o'.event a ma' = o'.event a ma ∧ o'.payment ma' = o'.payment ma := by
  have hbalance := h.balance o'.lender
  have howed := h.owed o'.lender
  cases o' with
  | withdraw l | forceClosePosition l =>
    have hkeep : ¬(o.isExit ∧ l = o.lender) := fun hx => hne hx.1.symm hx.2
    have hb : ma'.balance l = ma.balance l := hbalance.trans (if_neg hkeep)
    simp only [Obligation.event, Obligation.payment, MarketAccounts.faceOf, hb, h.scaleFactor, and_self]
  | claimHaircut l | forceClaimHaircut l =>
    have hkeep : ¬(¬o.isExit ∧ l = o.lender) := fun hx => hne (Bool.eq_false_iff.2 hx.1).symm hx.2
    have hb : ma'.owed l = ma.owed l := howed.trans (if_neg hkeep)
    simp only [Obligation.event, Obligation.payment, hb, and_self]

theorem correct (h : Cleared w a ma o w' ma') (hne : o'.isExit = o.isExit → o'.lender ≠ o.lender)
    (ho : o'.Correct w config ma) : o'.Correct w' config ma' := by
  obtain ⟨htoken, hcall⟩ := ho
  refine ⟨(h.paid.holder _).trans htoken, ?_⟩
  cases o' with
  | withdraw l token data =>
    obtain ⟨hdata, hall, hmin, hblacklist⟩ := hcall
    have hkeep : ¬(o.isExit ∧ l = o.lender) := fun hx => hne hx.1.symm hx.2
    have hb : ma'.balance l = ma.balance l := (h.balance l).trans (if_neg hkeep)
    refine ⟨hdata, hall, ?_, ?_⟩
    · rwa [MarketAccounts.faceOf, hb, h.scaleFactor]
    · rw [← hblacklist, checkBlacklist, checkBlacklist, h.blacklist]
  | _ => trivial

/-- The remaining list holds the remaining obligations. -/
theorem pending {os : List Obligation} (h : Cleared w a ma o w' ma') (hp : ma.Pending (o :: os)) : ma'.Pending os := by
  constructor
  · intro b
    have hnodup := hp.nodup b
    rw [Obligation.lenders_cons] at hnodup
    by_cases hb : o.isExit = b
    · rw [if_pos hb] at hnodup
      exact hnodup.of_cons
    · rwa [if_neg hb] at hnodup
  · intro l
    exact Obligation.pos_iff_mem_lenders (hp.exits l) (hp.nodup true) (h.balance l)
  · intro l
    apply Obligation.pos_iff_mem_lenders (hp.claims l) (hp.nodup false)
    rw [h.owed l]
    simp only [Bool.not_eq_true]

end Cleared

section Orders

variable {w : World} {a : Address} {config : ProtocolConfig} {ma : MarketAccounts}

/-- The obligations are cleared one after the other. -/
theorem executeAll_cleared {os : List Obligation} (h : Reachable w) (hconfig : w.config = some config)
    (hpaused : ¬config.isPaused) (hma : w.markets.lookup a = some ma) (hpar : ma.market.settlementFactorWad = WAD)
    (hpending : ma.Pending os) (hcorrect : ∀ o ∈ os, o.Correct w config ma) :
    ∃ w' ma', w.executeAll (os.map (Obligation.call a ma.market.borrower config.blacklistProgram)) =
        .ok (w', os.map (Obligation.event a ma)) ∧
      w.PaysEach a (os.map (Obligation.call a ma.market.borrower config.blacklistProgram))
        (os.map (Obligation.payment ma)) ∧
      Reachable w' ∧ w'.config = some config ∧ w'.markets.lookup a = some ma' ∧ ma'.Pending [] ∧
      ma'.market.settlementFactorWad = WAD ∧ ma'.market.borrower = ma.market.borrower := by
  induction os generalizing w ma with
  | nil => exact ⟨w, ma, rfl, .nil, h, hconfig, hma, hpending, hpar, rfl⟩
  | cons o os ih =>
    have hopen : o.Open ma := by
      unfold Obligation.Open
      split
      · exact (hpending.exits _).2 (by simp [Obligation.lenders, *])
      · exact (hpending.claims _).2 (by simp [Obligation.lenders, *])
    have hne (o') (ho' : o' ∈ os) (hexit : o'.isExit = o.isExit) : o'.lender ≠ o.lender := by
      have hnodup := hpending.nodup o.isExit
      rw [Obligation.lenders_cons, if_pos rfl, List.nodup_cons] at hnodup
      intro he
      exact hnodup.1 (he ▸ List.mem_map_of_mem (List.mem_filter.2 ⟨ho', by simpa using hexit⟩))
    obtain ⟨w₁, ma₁, hok, hcleared⟩ :=
      o.clear h hconfig hpaused hma hpar (hcorrect o List.mem_cons_self) hopen
    obtain ⟨w', ma', hall, hpays, hfinal⟩ := ih hcleared.reachable (hcleared.config.trans hconfig) hcleared.lookup
      (hcleared.factor.trans hpar) (hcleared.pending hpending)
      fun o' ho' => hcleared.correct (hne o' ho') (hcorrect o' (List.mem_cons_of_mem _ ho'))
    rw [hcleared.borrower] at hfinal
    have hevents : os.map (Obligation.event a ma₁) = os.map (Obligation.event a ma) := by
      apply List.map_congr_left
      intro o' ho'
      exact (hcleared.event_eq (hne o' ho')).1
    have hpayments : os.map (Obligation.payment ma₁) = os.map (Obligation.payment ma) := by
      apply List.map_congr_left
      intro o' ho'
      exact (hcleared.event_eq (hne o' ho')).2
    rw [hcleared.borrower, hevents] at hall
    rw [hcleared.borrower, hpayments] at hpays
    exact ⟨w', ma', World.executeAll_cons hok hall, .cons hok hcleared.paid hpays, hfinal⟩

/-- Empty positions are closed one after the other. -/
private theorem executeAll_close {ls : List Address} (h : Reachable w) (hconfig : w.config = some config)
    (hpaused : ¬config.isPaused) (hma : w.markets.lookup a = some ma)
    (hempty : ∀ l q, ma.positions.lookup l = some q → q.scaledBalance = 0 ∧ q.haircutOwed = 0) (hnodup : ls.Nodup)
    (hls : ∀ l ∈ ls, ∃ q, ma.positions.lookup l = some q) :
    ∃ w' ma', w.executeAll (ls.map fun l => (closeLenderPositionAccounts a l, [10])) =
        .ok (w', ls.map (Event.closePosition a)) ∧
      w'.markets.lookup a = some ma' ∧
      ∀ l, ma'.positions.lookup l = if l ∈ ls then none else ma.positions.lookup l := by
  induction ls generalizing w ma with
  | nil => exact ⟨w, ma, rfl, hma, fun _ => rfl⟩
  | cons l ls ih =>
    obtain ⟨q, hq⟩ := hls l List.mem_cons_self
    obtain ⟨hbalance, howed⟩ := hempty l q hq
    obtain ⟨hl, hnodup⟩ := List.nodup_cons.1 hnodup
    have hw := Reachable.wellFormed h
    have hclose := closeLenderPosition_succeeds hw hconfig hpaused hma hq hbalance howed
    have hkey := ((hw.placed a ma hma).positions l q hq).2.2
    have hr := reachable_of_call h (by simpa [closeLenderPositionAccounts, account, signer] using hkey) hclose
      (show processInstruction w (closeLenderPositionAccounts a l) [10] = _ from rfl)
    have hma' : (w.setMarket a { ma with positions := ma.positions.erase l }).markets.lookup a =
        some { ma with positions := ma.positions.erase l } := by simp [World.setMarket]
    have hne (l' : Address) (hl' : l' ∈ ls) : l' ≠ l := fun hx => hl (hx ▸ hl')
    have hempty' (l' : Address) (q' : LenderPosition) (hq' : (ma.positions.erase l).lookup l' = some q') :
        q'.scaledBalance = 0 ∧ q'.haircutOwed = 0 :=
      hempty l' q' (Finmap.lookup_of_erase hq')
    have hls' (l' : Address) (hl' : l' ∈ ls) : ∃ q', (ma.positions.erase l).lookup l' = some q' := by
      rw [Finmap.lookup_erase_ne (hne l' hl')]
      exact hls l' (List.mem_cons_of_mem _ hl')
    obtain ⟨w', ma', hall, hlookup, hclosed⟩ := ih hr hconfig hma' hempty' hnodup hls'
    refine ⟨w', ma', World.executeAll_cons hclose hall, hlookup, ?_⟩
    intro l'
    rw [hclosed l']
    by_cases hl' : l' = l
    · rw [hl', if_neg hl, if_pos List.mem_cons_self]
      exact Finmap.lookup_erase _ _
    · simp only [List.mem_cons, hl', false_or]
      rw [Finmap.lookup_erase_ne hl']

/-- At par, with the protocol unpaused, every order of the pending obligations succeeds: each exit pays its face value
to the account of the lender, each claim the whole haircut.  Afterwards the aggregates are zero and all positions can
be closed, in any order, and are gone then. -/
theorem wind_down_at_par (h : Reachable w) (hma : w.markets.lookup a = some ma)
    (hpar : ma.market.settlementFactorWad = WAD) (hconfig : w.config = some config) (hpaused : ¬config.isPaused)
    {os : List Obligation} (hpending : ma.Pending os) (hcorrect : ∀ o ∈ os, o.Correct w config ma) :
    ∃ w' ma', w.executeAll (os.map (Obligation.call a ma.market.borrower config.blacklistProgram)) =
        .ok (w', os.map (Obligation.event a ma)) ∧
      w.PaysEach a (os.map (Obligation.call a ma.market.borrower config.blacklistProgram))
        (os.map (Obligation.payment ma)) ∧
      w'.markets.lookup a = some ma' ∧
      (∀ l q, ma'.positions.lookup l = some q → q.scaledBalance = 0 ∧ q.haircutOwed = 0) ∧
      ma'.market.scaledTotalSupply = 0 ∧ ma'.market.haircutAccumulator = 0 ∧
      ma'.haircutState.claimWeightSum = 0 ∧ ma'.haircutState.claimOffsetSum = 0 ∧
      ∀ ls : List Address, ls.Nodup → (∀ l ∈ ls, ∃ q, ma'.positions.lookup l = some q) →
        ∃ w'' ma'', w'.executeAll (ls.map fun l => (closeLenderPositionAccounts a l, [10])) =
            .ok (w'', ls.map (Event.closePosition a)) ∧
          w''.markets.lookup a = some ma'' ∧
          ∀ l, ma''.positions.lookup l = if l ∈ ls then none else ma'.positions.lookup l := by
  obtain ⟨w', ma', hall, hpays, hr, hconfig', hma', hdone, -, -⟩ :=
    executeAll_cleared h hconfig hpaused hma hpar hpending hcorrect
  have hempty (l q) (hq : ma'.positions.lookup l = some q) : q.scaledBalance = 0 ∧ q.haircutOwed = 0 := by
    have hb := hdone.exits l
    have ho := hdone.claims l
    rw [(balance_eq hq).1] at hb
    rw [(balance_eq hq).2] at ho
    simp [Obligation.lenders] at hb ho
    exact ⟨hb, ho⟩
  have hl := Reachable.ledger hr (World.pool_of_lookup hma')
  have hsupply : ma'.market.scaledTotalSupply = 0 := by
    apply hl.supply.trans
    apply Finmap.total_eq_zero
    intro l q hq
    exact (hempty l q hq).1
  have howed : ma'.market.haircutAccumulator = 0 := by
    apply hl.owed.trans
    apply Finmap.total_eq_zero
    intro l q hq
    exact (hempty l q hq).2
  obtain ⟨hweight, hoffset⟩ := hl.lines_zero howed
  refine ⟨w', ma', hall, hpays, hma', hempty, hsupply, howed, hweight, hoffset, ?_⟩
  intro ls hnodup hls
  exact executeAll_close hr hconfig' hpaused hma' hempty hnodup hls

end Orders

namespace Sample

/-- One exit and one claim for each lender. -/
def closing : List Obligation :=
  [.withdraw alice (wallet alice) (leBytes 24 0), .forceClaimHaircut bob (wallet bob),
    .forceClosePosition bob (wallet bob), .claimHaircut alice (wallet alice)]

end Sample

/-- Both lenders are paid: 4 and 1 to Alice, 8 and 1 to Bob. -/
theorem wind_down_at_par_restored :
    ∃ w', (Sample.genesis.performAll Sample.restored).executeAll
        (Sample.closing.map (Obligation.call Sample.market Sample.borrower Sample.blacklistProgram)) =
      .ok (w', [.withdraw Sample.market Sample.alice 4 4, .forceClaimHaircut Sample.market Sample.bob 1 0,
        .forceClose Sample.market Sample.bob 8 8, .claimHaircut Sample.market Sample.alice 1 0]) ∧
      (Sample.genesis.performAll Sample.restored).PaysEach Sample.market
        (Sample.closing.map (Obligation.call Sample.market Sample.borrower Sample.blacklistProgram))
        [(Sample.wallet Sample.alice, 4), (Sample.wallet Sample.bob, 1), (Sample.wallet Sample.bob, 8),
          (Sample.wallet Sample.alice, 1)] := by
  obtain ⟨config, hconfig, hx⟩ := Option.bind_eq_some_iff.1
    (show ((Sample.genesis.performAll Sample.restored).config.bind fun c =>
      ((Sample.genesis.performAll Sample.restored).markets.lookup Sample.market).map fun ma =>
        decide ((¬c.isPaused ∧ c.blacklistProgram = Sample.blacklistProgram ∧ ma.market.borrower = Sample.borrower ∧
            ma.market.settlementFactorWad = WAD) ∧
          (ma.Pending Sample.closing ∧
            ∀ o ∈ Sample.closing, o.Correct (Sample.genesis.performAll Sample.restored) c ma) ∧
          Sample.closing.map (Obligation.event Sample.market ma) = [.withdraw Sample.market Sample.alice 4 4,
            .forceClaimHaircut Sample.market Sample.bob 1 0, .forceClose Sample.market Sample.bob 8 8,
            .claimHaircut Sample.market Sample.alice 1 0] ∧
          Sample.closing.map (Obligation.payment ma) = [(Sample.wallet Sample.alice, 4), (Sample.wallet Sample.bob, 1),
            (Sample.wallet Sample.bob, 8), (Sample.wallet Sample.alice, 1)])) = some true by decide +kernel)
  obtain ⟨ma, hma, hx⟩ := Option.map_eq_some_iff.1 hx
  obtain ⟨⟨hpaused, hprogram, hborrower, hpar⟩, ⟨hpending, hcorrect⟩, hevents, hpayments⟩ := of_decide_eq_true hx
  obtain ⟨w', ma', hok, hpays, -⟩ := wind_down_at_par (World.performAll_reachable Sample.genesis_reachable _) hma hpar
    hconfig hpaused hpending hcorrect
  rw [hborrower, hprogram, hevents] at hok
  rw [hborrower, hprogram, hpayments] at hpays
  exact ⟨w', hok, hpays⟩

end Coalesce
