import Coalesce.Distress
import Coalesce.Overflow
import Coalesce.Solvency

/-!
# The exits of a market in default

The first exit after the grace period fixes the settlement factor.  If the vault holds too little, then every lender
gets the same part of the face value: `default_shared` says that any order of the full exits of all lenders succeeds,
with amounts that do not depend on the order.  A market that was settled so and has since been covered can leave the
default again: after one `reSettle` everybody is paid in full (`made_whole`).
-/

namespace Coalesce

open ProRata

/-- What a lender is paid for the whole balance. -/
def MarketAccounts.paidOf (ma : MarketAccounts) (l : Address) : ℕ :=
  ma.faceOf l * ma.market.settlementFactorWad / WAD

/-! ### The books of a default -/

namespace Pool

/-- A pool settled below par whose vault covers all claims, and whose books have room for what the remaining units
leave owed. -/
structure Defaulted (p : Pool) : Prop where
  ne_zero : p.market.settlementFactorWad ≠ 0
  lt_wad : p.market.settlementFactorWad < WAD
  slack : 0 ≤ p.slack
  owed_fits : p.market.haircutAccumulator + p.face ≤ u64Max
  weight_fits : p.haircutState.claimWeightSum + p.face + p.market.scaledTotalSupply * WAD ≤ u128Max

/-- What a full exit of a lender without a haircut writes: the gap is owed, and anchored at the factor. -/
def gapTracked (p : Pool) (l : Address) (q : LenderPosition) : Tracked :=
  let gap := p.faceOf l - p.paidOf l
  let sf := p.market.settlementFactorWad
  { market := { p.market with haircutAccumulator := p.market.haircutAccumulator + gap }
    position := { q with haircutOwed := gap, withdrawalSf := sf }
    haircutState := { p.haircutState with
      claimWeightSum := p.haircutState.claimWeightSum + weight WAD gap sf
      claimOffsetSum := p.haircutState.claimOffsetSum + offset WAD gap sf }
    payout := p.paidOf l }

/-- The pool after that exit. -/
def shared (p : Pool) (l : Address) (q : LenderPosition) (deposited : ℕ) : Pool :=
  let t := p.gapTracked l q
  { p with
    market := { t.market with
      scaledTotalSupply := t.market.scaledTotalSupply - q.scaledBalance, totalDeposited := deposited }
    haircutState := t.haircutState
    positions := p.positions.insert l { t.position with scaledBalance := 0 }
    vault := p.vault - t.payout }

variable {a l : Address} {p : Pool} {q : LenderPosition}

theorem faceOf_eq (hq : p.positions.lookup l = some q) :
    p.faceOf l = q.scaledBalance * p.market.scaleFactor / WAD := by
  simp [MarketAccounts.faceOf, MarketAccounts.balance, hq]

/-- The face value of a lender, and what is left without it. -/
theorem Ledger.face_split (h : p.Ledger) (hq : p.positions.lookup l = some q) :
    (p.market.scaledTotalSupply - q.scaledBalance) * p.market.scaleFactor / WAD + p.faceOf l ≤ p.face := by
  have hsum := floor_add_floor_le ((p.market.scaledTotalSupply - q.scaledBalance) * p.market.scaleFactor)
    (q.scaledBalance * p.market.scaleFactor)
  rwa [← add_mul, Nat.sub_add_cancel (h.supply_ge hq), ← faceOf_eq hq] at hsum

theorem Ledger.faceOf_le (h : p.Ledger) (hq : p.positions.lookup l = some q) : p.faceOf l ≤ p.face :=
  (Nat.le_add_left _ _).trans (h.face_split hq)

namespace Defaulted

theorem faceOf_pos (h : p.Ledger) (hq : p.positions.lookup l = some q) (hbalance : q.scaledBalance ≠ 0) :
    0 < p.faceOf l := by
  rw [faceOf_eq hq, Nat.div_pos_iff]
  refine ⟨WAD_pos, h.wad_le.trans ?_⟩
  exact Nat.le_mul_of_pos_left _ (Nat.pos_of_ne_zero hbalance)

theorem paidOf_le (hd : p.Defaulted) (h : p.Ledger) (hq : p.positions.lookup l = some q) :
    p.paidOf l ≤ p.vault := by
  have hcovered := h.covered_of_slack hd.slack
  have hpaid : p.paidOf l ≤ p.face * p.market.settlementFactorWad / WAD :=
    Nat.div_le_div_right (Nat.mul_le_mul_right _ (h.faceOf_le hq))
  omega

/-- The gap of a full exit, its line, and the room for both. -/
private theorem gap_fits (hd : p.Defaulted) (h : p.Ledger) (hq : p.positions.lookup l = some q)
    (hbalance : q.scaledBalance ≠ 0) :
    p.market.haircutAccumulator + (p.faceOf l - p.paidOf l) ≤ u64Max ∧
      weight WAD (p.faceOf l - p.paidOf l) p.market.settlementFactorWad ≤ p.faceOf l + WAD ∧
      p.haircutState.claimWeightSum + weight WAD (p.faceOf l - p.paidOf l) p.market.settlementFactorWad +
          (p.market.scaledTotalSupply - q.scaledBalance) * p.market.scaleFactor / WAD +
        (p.market.scaledTotalSupply - q.scaledBalance) * WAD ≤ u128Max := by
  have hsplit := h.face_split hq
  have hle := h.supply_ge hq
  have howed := hd.owed_fits
  have hline : weight WAD (p.faceOf l - p.paidOf l) p.market.settlementFactorWad ≤ p.faceOf l + WAD :=
    weight_gap_le hd.lt_wad _
  have hunits : (p.market.scaledTotalSupply - q.scaledBalance) * WAD + WAD ≤ p.market.scaledTotalSupply * WAD := by
    rw [← Nat.succ_mul]
    exact Nat.mul_le_mul_right _ (by omega)
  have hweight := hd.weight_fits
  have hgap : p.faceOf l - p.paidOf l ≤ p.face := (Nat.sub_le _ _).trans (h.faceOf_le hq)
  exact ⟨by omega, hline, by omega⟩

/-- The checks of a full exit: the amounts, what is in the vault, and the room for the gap. -/
theorem exit (hd : p.Defaulted) (h : p.Ledger) (hvault : p.vault ≤ u64Max) (hq : p.positions.lookup l = some q)
    (howed : q.haircutOwed = 0) (hbalance : q.scaledBalance ≠ 0) :
    exitAmounts p.market q.scaledBalance = .ok (p.faceOf l, p.paidOf l) ∧
      p.paidOf l < p.faceOf l ∧ p.faceOf l ≤ u64Max ∧
      recordGap p.market q p.haircutState (p.faceOf l - p.paidOf l) (p.paidOf l) = .ok (p.gapTracked l q) := by
  have hset := h.settled hd.ne_zero
  have hlt := hd.lt_wad
  have hle := h.supply_ge hq
  have hpaid : p.paidOf l < p.faceOf l := gap_pos hlt (faceOf_pos h hq hbalance)
  have hcovered := hd.paidOf_le h hq
  obtain ⟨hacc, hline, hsum⟩ := hd.gap_fits h hq hbalance
  have hface : p.faceOf l ≤ u64Max := by
    have hfits := hd.owed_fits
    exact (h.faceOf_le hq).trans (by omega)
  set gap := p.faceOf l - p.paidOf l
  set sf := p.market.settlementFactorWad
  refine ⟨?_, hpaid, hface, ?_⟩
  · rw [exitAmounts_eq_ok, ← faceOf_eq hq]
    refine ⟨(Nat.mul_le_mul_right _ hle).trans hset.face_fits, ?_, hcovered.trans hvault, rfl⟩
    exact (Nat.mul_le_mul hface hlt.le).trans (by decide)
  · have hcontribution : positionContribution gap sf = .ok (weight WAD gap sf, offset WAD gap sf) := by
      refine (positionContribution_eq_ok (by omega) hlt).2 ⟨?_, rfl⟩
      exact (Nat.mul_le_mul (hline.trans (Nat.add_le_add_right hface _)) hlt.le).trans (by decide)
    have hreserve := h.reserve.1
    have hoffset := (reserve_bounds (u := WAD) (h := gap) (a := sf) hlt).1
    have hroom : p.haircutState.claimWeightSum + weight WAD gap sf ≤ u128Max :=
      ((Nat.le_add_right _ _).trans (Nat.le_add_right _ _)).trans hsum
    have hnone : removeContribution p.haircutState q.haircutOwed q.withdrawalSf = .ok p.haircutState := by
      rw [removeContribution, if_neg (by omega)]
    rw [recordGap_eq_ok]
    refine ⟨p.haircutState, 0, _, hnone, ?_, by omega, by omega, by omega, addContribution_eq_ok.2
      ⟨_, by rw [Nat.zero_add]; exact hcontribution, ?_, ?_, rfl⟩, ?_⟩
    · rw [rebasedOwed, if_neg (by omega), howed]
    · dsimp only
      omega
    · dsimp only
      omega
    · simp only [howed, Nat.sub_zero, Nat.zero_add, Nat.add_zero]
      rfl

/-- A full exit leaves the pool in default. -/
theorem shared (hd : p.Defaulted) (h : p.Ledger) (hq : p.positions.lookup l = some q) (howed : q.haircutOwed = 0)
    (hbalance : q.scaledBalance ≠ 0) (deposited : ℕ) :
    (p.shared l q deposited).Defaulted := by
  have hsplit := h.face_split hq
  have hfits := hd.owed_fits
  obtain ⟨-, -, hsum⟩ := hd.gap_fits h hq hbalance
  have hpaid : (p.paidOf l : ℚ) ≤ p.faceOf l * p.market.settlementFactorWad / WAD := by
    rw [le_div_iff₀ (by exact_mod_cast WAD_pos)]
    exact_mod_cast Nat.div_mul_le_self _ WAD
  have hslack : p.slack ≤ (p.shared l q deposited).slack := by
    have hnew : LenderPosition.due { (p.gapTracked l q).position with scaledBalance := 0 }
        p.market.settlementFactorWad = 0 := LenderPosition.due_of_anchor rfl hd.lt_wad
    refine slack_insert hq (Nat.sub_add_cancel (hd.paidOf_le h hq)) hsplit rfl rfl ?_
    rwa [LenderPosition.due_of_owed howed, hnew, add_zero, sub_zero]
  refine ⟨hd.ne_zero, hd.lt_wad, hd.slack.trans hslack, ?_, hsum⟩
  · have hpaid : p.paidOf l ≤ p.faceOf l := (gap_pos hd.lt_wad (faceOf_pos h hq hbalance)).le
    show p.market.haircutAccumulator + (p.faceOf l - p.paidOf l) +
      (p.market.scaledTotalSupply - q.scaledBalance) * p.market.scaleFactor / WAD ≤ u64Max
    omega

end Defaulted

/-- At its clock the exits of `p` are paid from `s`: accrued, and settled if it was not. -/
structure SettlesTo (config : ProtocolConfig) (p s : Pool) : Prop where
  matured : p.market.maturityTimestamp ≤ p.clock
  settles : ∃ m, accrueInterest p.market config p.clock = .ok m ∧ Settles p.clock p.vault m s.market
  haircutState : s.haircutState = p.haircutState
  positions : s.positions = p.positions
  clock : s.clock = p.clock
  vault : s.vault = p.vault

namespace SettlesTo

variable {config : ProtocolConfig} {s : Pool}

theorem refl (h : p.Ledger) (h0 : p.market.settlementFactorWad ≠ 0) : p.SettlesTo config p := by
  have hset := h.settled h0
  exact ⟨hset.matured, ⟨_, accrueInterest_matured config hset.accrued hset.matured, .inl ⟨h0, rfl⟩⟩, rfl, rfl, rfl, rfl⟩

theorem ledger (hs : p.SettlesTo config s) (h : p.Ledger) : s.Ledger := by
  obtain ⟨hmatured, ⟨_, haccrue, hsettles⟩, hhaircut, hpositions, hclock, hvault⟩ := hs
  have hl := h.settleExit hmatured haccrue hsettles
  rwa [← hhaircut, ← hpositions, ← hclock, ← hvault] at hl

theorem terms (hs : p.SettlesTo config s) : s.market.terms = p.market.terms := by
  obtain ⟨-, ⟨_, haccrue, hsettles⟩, -⟩ := hs
  exact hsettles.terms.trans (accrueInterest_terms haccrue)

end SettlesTo

end Pool

/-! ### One exit -/

namespace Obligation

/-- What a full exit logs that is paid at the factor of the settled accounts `ma`. -/
def shared (a : Address) (ma : MarketAccounts) : Obligation → Event
  | withdraw l _ _ => .withdraw a l (ma.paidOf l) (ma.balance l)
  | forceClosePosition l _ => .forceClose a l (ma.paidOf l) (ma.balance l)
  | o => o.event a ma

/-- The account that the exit pays, and the amount. -/
def sharedPayment (ma : MarketAccounts) : Obligation → Address × ℕ
  | withdraw l t _ | forceClosePosition l t => (t, ma.paidOf l)
  | o => o.payment ma

/-- The accounts are the right ones; a withdrawal asks for everything, gets something, and not less than its minimum. -/
def Payable (w : World) (config : ProtocolConfig) (ma : MarketAccounts) (o : Obligation) : Prop :=
  w.tokens.holder o.token = some (USDC_MINT, o.lender) ∧
    match o with
    | withdraw l _ data => 24 ≤ data.length ∧ u128At data 0 = 0 ∧ 0 < ma.paidOf l ∧ u64At data 16 ≤ ma.paidOf l ∧
        checkBlacklist w (account (.blacklist config.blacklistProgram l)) config l = .ok ()
    | _ => True

instance (w : World) (config : ProtocolConfig) (ma : MarketAccounts) :
    (o : Obligation) → Decidable (o.Payable w config ma)
  | withdraw .. => inferInstanceAs (Decidable (_ ∧ _ ∧ _ ∧ _ ∧ _ ∧ _))
  | forceClosePosition .. | claimHaircut .. | forceClaimHaircut .. => inferInstanceAs (Decidable (_ ∧ True))

end Obligation

section Shared

variable {w : World} {a : Address} {config : ProtocolConfig} {ma : MarketAccounts} {p s : Pool}

/-- Both exits settle the market if it can be settled. -/
theorem settle_succeeds (hw : WellFormed w) (hma : w.markets.lookup a = some ma) {m m' : Market}
    (hmint : m.mint = USDC_MINT) (hfactor : m.scaleFactor ≠ 0)
    (hgrace : m.maturityTimestamp + SETTLEMENT_GRACE_PERIOD ≤ i64Max)
    (hsettles : Pool.Settles w.clock (w.tokens.amount (.vault a)) m m') :
    settleOnWithdraw w m (account (.vault a)) = .ok m' ∧ settleOnForceClose w m (account (.vault a)) = .ok m' := by
  rcases hsettles with ⟨h0, rfl⟩ | ⟨h0, htime, total, factor, htotal, hset, rfl⟩
  · exact ⟨if_neg h0, if_neg h0⟩
  · obtain ⟨vt, hvt, hvm, -⟩ := TokenLedger.exists_of_holder (hw.vault a ma hma)
    have hmint' : vt.mint = m.mint := hvm.trans hmint.symm
    have hok : settle w m (account (.vault a)) = .ok { m with settlementFactorWad := factor } := by
      rw [TokenLedger.amount_eq hvt] at hset
      simp only [settle, bind_eq_ok, loadVault_eq_ok, account, Except.ok.injEq]
      exact ⟨vt, ⟨hvt, hmint'⟩, total, htotal, factor, hset, rfl⟩
    constructor
    · rw [settleOnWithdraw, if_pos h0, checkGracePeriod_eq_ok (u := ()) |>.2 ⟨hgrace, htime⟩]
      exact hok
    · rw [settleOnForceClose, if_pos h0]
      simp only [requireTokenOwned, validateMarketState, bind_eq_ok, require_eq_ok, loadTokenAccount_eq_ok, account]
      exact ⟨(), by simp [hvt], vt, hvt, (), hmint', (), hfactor, hok⟩

/-- A payment that may be empty. -/
private theorem paidOut_of_transferIfPositive (hw : WellFormed w) {token l authority : Address} (hkey : l.isKey)
    (htoken : w.tokens.holder token = some (USDC_MINT, l)) {n : ℕ} {t : TokenLedger}
    (h : transferIfPositive w (.vault a) token authority n = .ok t) : w.tokens.PaidOut t (.vault a) [(token, n)] := by
  unfold transferIfPositive at h
  split at h
  · exact .of_transfer h (hw.token_ne_vault htoken hkey)
  · obtain rfl : n = 0 := by omega
    exact Except.ok.inj h ▸ .zero _ _ _

/-- The checks that both exits of the lender `l` pass. -/
structure Checked (w : World) (a : Address) (config : ProtocolConfig) (p s : Pool) (l : Address) (q : LenderPosition) :
    Prop where
  matured : p.market.maturityTimestamp ≤ w.clock
  grace : checkGracePeriod w p.market = .ok ()
  settle : ∃ m, accrueInterest p.market config w.clock = .ok m ∧
    settleOnWithdraw w m (account (.vault a)) = .ok s.market ∧
    settleOnForceClose w m (account (.vault a)) = .ok s.market
  mint : s.market.mint = USDC_MINT
  scaleFactor : s.market.scaleFactor ≠ 0
  amounts : exitAmounts s.market q.scaledBalance = .ok (s.faceOf l, s.paidOf l)
  tracked : trackHaircut p.toMarketAccounts a (account (.haircutState a)) s.market q (s.faceOf l) (s.paidOf l) =
    .ok (s.gapTracked l q)
  supply : q.scaledBalance ≤ s.market.scaledTotalSupply
  covered : s.paidOf l ≤ w.tokens.amount (.vault a)

/-- After a payment the pool of the market is `s`, and the accounts that the next payments need are still there. -/
structure Paid (w : World) (a : Address) (s : Pool) (payment : Address × ℕ) (w' : World) : Prop where
  reachable : Reachable w'
  config : w'.config = w.config
  blacklist : w'.blacklist = w.blacklist
  tokens : w.tokens.PaidOut w'.tokens (.vault a) [payment]
  pool : w'.pool a = some s

variable {l token : Address} {q : LenderPosition}

theorem Pool.Defaulted.checked (hd : s.Defaulted) (h : Reachable w) (hp : w.pool a = some p)
    (hs : p.SettlesTo config s) (hq : p.positions.lookup l = some q) (howed : q.haircutOwed = 0)
    (hbalance : q.scaledBalance ≠ 0) : Checked w a config p s l q := by
  have hw := Reachable.wellFormed h
  have hl := hs.ledger (Reachable.ledger h hp)
  obtain ⟨hma, hclock, hvault⟩ := World.pool_eq_some.1 hp
  have hplaced := hw.placed a _ hma
  have hset := hl.settled hd.ne_zero
  have hterms := hs.terms
  simp only [Market.terms, Prod.mk.injEq] at hterms
  obtain ⟨-, hmint, -, -, hmaturity, -⟩ := hterms
  have hgrace : p.market.maturityTimestamp + SETTLEMENT_GRACE_PERIOD ≤ w.clock :=
    hmaturity ▸ hclock ▸ hs.clock ▸ hset.grace
  have hi64 := hgrace.trans (Reachable.clock_le h)
  have hq' : s.positions.lookup l = some q := hs.positions ▸ hq
  have hu : s.vault ≤ u64Max := hs.vault ▸ hvault ▸ TokenLedger.amount_le_u64 _ _
  obtain ⟨hamounts, hpaid, hface, hrecord⟩ := hd.exit hl hu hq' howed hbalance
  refine ⟨hclock ▸ hs.matured, checkGracePeriod_eq_ok.2 ⟨hi64, hgrace⟩, ?_, hmint.trans hplaced.mint,
    (WAD_pos.trans_le hl.wad_le).ne', hamounts, ?_, hl.supply_ge hq', hvault ▸ hs.vault ▸ hd.paidOf_le hl hq'⟩
  · obtain ⟨m, haccrue, hsettles⟩ := hs.settles
    refine ⟨m, hclock ▸ haccrue, ?_⟩
    obtain ⟨_, _, rfl, hle, -⟩ := accrueInterest_ok haccrue
    refine settle_succeeds hw hma hplaced.mint ?_ hi64 (hclock ▸ hvault ▸ hsettles)
    exact (WAD_pos.trans_le ((Reachable.ledger h hp).wad_le.trans hle)).ne'
  · rw [hs.haircutState] at hrecord
    rw [trackHaircut, if_pos hd.lt_wad, tryU64_eq_ok.2 ⟨hface, rfl⟩]
    show (if 0 < _ - _ then _ else _) = _
    rw [if_pos (Nat.sub_pos_of_lt hpaid), loadHaircutState_eq_ok.2 ⟨rfl, hplaced.haircutState, rfl⟩]
    exact hrecord

/-- The pool after an exit has written its accounts back. -/
private theorem pool_shared (hp : w.pool a = some p) (hs : p.SettlesTo config s) {t : TokenLedger}
    (hpaid : w.tokens.PaidOut t (.vault a) [(token, s.paidOf l)]) (deposited : ℕ) :
    World.pool ({ w with tokens := t }.setMarket a (s.shared l q deposited).toMarketAccounts) a =
      some (s.shared l q deposited) := by
  obtain ⟨-, hclock, hvault⟩ := World.pool_eq_some.1 hp
  refine World.pool_eq_some.2 ⟨by simp [World.setMarket], hs.clock.trans hclock, ?_⟩
  show s.vault - s.paidOf l = t.amount (.vault a)
  rw [hpaid.debited.amount, hs.vault, hvault]

private theorem withdraw_share (h : Reachable w) (hconfig : w.config = some config) (hpaused : ¬config.isPaused)
    (hp : w.pool a = some p) (hs : p.SettlesTo config s) (hc : Checked w a config p s l q)
    (hq : p.positions.lookup l = some q) (hbalance : q.scaledBalance ≠ 0) {data : List UInt8}
    (ho : (Obligation.withdraw l token data).Payable w config s.toMarketAccounts) :
    ∃ w', withdraw w (withdrawAccounts a l token config.blacklistProgram) data =
        .ok (w', .withdraw a l (s.paidOf l) q.scaledBalance) ∧
      Paid w a (s.shared l q (s.market.totalDeposited - s.paidOf l)) (token, s.paidOf l) w' := by
  have hw := Reachable.wellFormed h
  obtain ⟨hma, -, -⟩ := World.pool_eq_some.1 hp
  obtain ⟨htoken, hdata, hall, hpos, hmin, hblacklist⟩ := ho
  obtain ⟨m, haccrue, hsettle, -⟩ := hc.settle
  obtain ⟨tokens, htransfer, hok⟩ := withdraw_succeeds hw hconfig hpaused hma hc.matured hblacklist haccrue hq hbalance
    hsettle hdata (by rw [if_pos hall]) le_rfl hc.scaleFactor hc.amounts hpos.ne' hmin htoken hc.tracked hc.supply
    hc.covered
  have hkey := ((hw.placed a _ hma).positions l q hq).2.2
  have hpaid : w.tokens.PaidOut tokens (.vault a) [(token, s.paidOf l)] :=
    .of_transfer htransfer (hw.token_ne_vault htoken hkey)
  rw [show (s.gapTracked l q).position.scaledBalance - q.scaledBalance = 0 from Nat.sub_self _, ← hs.positions] at hok
  refine ⟨_, hok, ?_, rfl, rfl, hpaid, pool_shared hp hs hpaid _⟩
  refine reachable_of_call h ?_ hok
    (show processInstruction w (withdrawAccounts a l token config.blacklistProgram) (7 :: data) = _ from rfl)
  simpa [withdrawAccounts, account, signer] using hkey

private theorem forceClosePosition_share (h : Reachable w) (hconfig : w.config = some config)
    (hpaused : ¬config.isPaused) (hp : w.pool a = some p) (hs : p.SettlesTo config s)
    (hc : Checked w a config p s l q) (hq : p.positions.lookup l = some q) (hbalance : q.scaledBalance ≠ 0)
    (htoken : w.tokens.holder token = some (USDC_MINT, l)) :
    ∃ w', forceClosePosition w (forceClosePositionAccounts a p.market.borrower l token) =
        .ok (w', .forceClose a l (s.paidOf l) q.scaledBalance) ∧
      Paid w a (s.shared l q s.market.totalDeposited) (token, s.paidOf l) w' := by
  have hw := Reachable.wellFormed h
  obtain ⟨hma, -, -⟩ := World.pool_eq_some.1 hp
  have hplaced := hw.placed a _ hma
  obtain ⟨m, haccrue, -, hsettle⟩ := hc.settle
  obtain ⟨tokens, hpay⟩ : ∃ t, transferIfPositive w (.vault a) token (.marketAuthority a) (s.paidOf l) = .ok t := by
    obtain ⟨t, htransfer⟩ := transfer_from_vault hw hma htoken hc.covered
    unfold transferIfPositive
    split
    · exact ⟨t, htransfer⟩
    · exact ⟨w.tokens, rfl⟩
  have hok := forceClosePosition_pays hw hconfig hpaused hma hc.matured hc.grace haccrue hsettle hc.mint hq hbalance
    hc.scaleFactor hc.amounts htoken hc.tracked hc.supply hpay
  have hpaid := paidOut_of_transferIfPositive hw (hplaced.positions l q hq).2.2 htoken hpay
  rw [← hs.positions] at hok
  refine ⟨_, hok, ?_, rfl, rfl, hpaid, pool_shared hp hs hpaid _⟩
  refine reachable_of_call h ?_ hok
    (show processInstruction w (forceClosePositionAccounts a p.market.borrower l token) [18] = _ from rfl)
  simpa [forceClosePositionAccounts, account, signer] using hplaced.borrower

/-- A full exit of a lender without a haircut succeeds, and pays the lender's part. -/
theorem Obligation.share (h : Reachable w) (hconfig : w.config = some config) (hpaused : ¬config.isPaused)
    (hp : w.pool a = some p) (hs : p.SettlesTo config s) (hd : s.Defaulted) {o : Obligation}
    (ho : o.Payable w config s.toMarketAccounts) (hexit : o.isExit) (hq : p.positions.lookup o.lender = some q)
    (howed : q.haircutOwed = 0) (hbalance : q.scaledBalance ≠ 0) :
    ∃ w' deposited, processInstruction w (o.call a p.market.borrower config.blacklistProgram).1
        (o.call a p.market.borrower config.blacklistProgram).2 = .ok (w', o.shared a s.toMarketAccounts) ∧
      Paid w a (s.shared o.lender q deposited) (o.sharedPayment s.toMarketAccounts) w' := by
  have hc := hd.checked h hp hs hq howed hbalance
  have hunits : s.balance o.lender = q.scaledBalance := by simp [MarketAccounts.balance, hs.positions, hq]
  cases o with
  | withdraw l token data =>
    obtain ⟨w', hok, hpaid⟩ := withdraw_share h hconfig hpaused hp hs hc hq hbalance ho
    rw [← hunits] at hok
    exact ⟨w', _, hok, hpaid⟩
  | forceClosePosition l token =>
    obtain ⟨w', hok, hpaid⟩ := forceClosePosition_share h hconfig hpaused hp hs hc hq hbalance ho.1
    rw [← hunits] at hok
    exact ⟨w', _, hok, hpaid⟩
  | claimHaircut | forceClaimHaircut => cases hexit

end Shared

/-! ### Every order of the exits -/

namespace Pool

variable {p : Pool} {l k : Address} {q : LenderPosition} {deposited : ℕ}

theorem shared_balance : (p.shared l q deposited).balance k = if k = l then 0 else p.balance k := by
  by_cases hk : k = l
  · subst hk
    simp [MarketAccounts.balance, shared]
  · simp [MarketAccounts.balance, shared, Finmap.lookup_insert_of_ne _ hk, hk]

theorem shared_owed :
    (p.shared l q deposited).owed k = if k = l then p.faceOf l - p.paidOf l else p.owed k := by
  by_cases hk : k = l
  · subst hk
    simp [MarketAccounts.owed, shared, gapTracked]
  · simp [MarketAccounts.owed, shared, Finmap.lookup_insert_of_ne _ hk, hk]

theorem shared_faceOf (hk : k ≠ l) : (p.shared l q deposited).faceOf k = p.faceOf k := by
  rw [MarketAccounts.faceOf, MarketAccounts.faceOf, shared_balance, if_neg hk]
  rfl

theorem shared_paidOf (hk : k ≠ l) : (p.shared l q deposited).paidOf k = p.paidOf k := by
  rw [MarketAccounts.paidOf, MarketAccounts.paidOf, shared_faceOf hk]
  rfl

/-- What full exits of some lenders leave behind. -/
structure Emptied (p : Pool) (ls : List Address) (p' : Pool) : Prop where
  factor : p'.market.settlementFactorWad = p.market.settlementFactorWad
  balance : ∀ l, p'.balance l = if l ∈ ls then 0 else p.balance l
  owed : ∀ l, p'.owed l = if l ∈ ls then p.faceOf l - p.paidOf l else p.owed l

theorem Emptied.nil (p : Pool) : p.Emptied [] p := ⟨rfl, fun _ => rfl, fun _ => rfl⟩

theorem Emptied.cons {p' : Pool} {ls : List Address} (h : (p.shared l q deposited).Emptied ls p') (hl : l ∉ ls) :
    p.Emptied (l :: ls) p' := by
  refine ⟨h.factor, ?_, ?_⟩
  · intro k
    rw [h.balance, shared_balance]
    by_cases hk : k = l <;> simp [hk]
  · intro k
    rw [h.owed, shared_owed]
    by_cases hk : k = l
    · simp [hk, hl]
    · simp [hk, shared_faceOf hk, shared_paidOf hk]

/-- Before the first settlement nobody is owed a haircut. -/
theorem Ledger.owed_unsettled (h : p.Ledger) (h0 : p.market.settlementFactorWad = 0) : p.owed l = 0 := by
  rw [MarketAccounts.owed]
  cases hq : p.positions.lookup l with
  | none => rfl
  | some q => exact Nat.eq_zero_of_le_zero (h.unsettled h0 ▸ h.owed_ge hq)

end Pool

/-- One full exit for each of some lenders without haircuts, with what it needs. -/
structure Due (w : World) (config : ProtocolConfig) (s : Pool) (os : List Obligation) : Prop where
  exits : ∀ o ∈ os, o.isExit
  nodup : (os.map Obligation.lender).Nodup
  positive : ∀ o ∈ os, 0 < s.balance o.lender
  fresh : ∀ o ∈ os, s.owed o.lender = 0
  payable : ∀ o ∈ os, o.Payable w config s.toMarketAccounts

section Orders

variable {w w' : World} {a : Address} {config : ProtocolConfig} {p s : Pool} {o : Obligation} {os : List Obligation}
  {q : LenderPosition} {deposited : ℕ}

theorem Due.ne (h : Due w config s (o :: os)) {o' : Obligation} (ho' : o' ∈ os) : o'.lender ≠ o.lender := by
  intro he
  exact (List.nodup_cons.1 h.nodup).1 (he ▸ List.mem_map_of_mem ho')

/-- The other lenders are paid what they were to be paid before. -/
theorem Due.shared_eq (h : Due w config s (o :: os)) :
    os.map (Obligation.shared a (s.shared o.lender q deposited).toMarketAccounts) =
        os.map (Obligation.shared a s.toMarketAccounts) ∧
      os.map (Obligation.sharedPayment (s.shared o.lender q deposited).toMarketAccounts) =
        os.map (Obligation.sharedPayment s.toMarketAccounts) := by
  rw [List.map_inj_left, List.map_inj_left, ← forall₂_and]
  intro o' ho'
  have hne := h.ne ho'
  have hexit := h.exits o' (List.mem_cons_of_mem _ ho')
  cases o' with
  | withdraw l | forceClosePosition l =>
    have hpaid : (s.shared o.lender q deposited).paidOf l = s.paidOf l := Pool.shared_paidOf hne
    have hbalance : (s.shared o.lender q deposited).balance l = s.balance l := Pool.shared_balance.trans (if_neg hne)
    simp only [Obligation.shared, Obligation.sharedPayment, hpaid, hbalance, and_self]
  | claimHaircut | forceClaimHaircut => cases hexit

theorem Due.tail (h : Due w config s (o :: os)) {payment : Address × ℕ}
    (hpaid : Paid w a (s.shared o.lender q deposited) payment w') :
    Due w' config (s.shared o.lender q deposited) os where
  exits o' ho' := h.exits o' (List.mem_cons_of_mem _ ho')
  nodup := (List.nodup_cons.1 h.nodup).2
  positive o' ho' := by
    rw [Pool.shared_balance, if_neg (h.ne ho')]
    exact h.positive o' (List.mem_cons_of_mem _ ho')
  fresh o' ho' := by
    rw [Pool.shared_owed, if_neg (h.ne ho')]
    exact h.fresh o' (List.mem_cons_of_mem _ ho')
  payable o' ho' := by
    have hne := h.ne ho'
    obtain ⟨htoken, hcall⟩ := h.payable o' (List.mem_cons_of_mem _ ho')
    refine ⟨(hpaid.tokens.holder _).trans htoken, ?_⟩
    cases o' with
    | withdraw l token data =>
      have heq : (s.shared o.lender q deposited).paidOf l = s.paidOf l := Pool.shared_paidOf hne
      simpa only [heq, checkBlacklist, hpaid.blacklist] using hcall
    | _ => trivial

/-- The first exit of the list succeeds. -/
theorem Due.head (h : Reachable w) (hconfig : w.config = some config) (hpaused : ¬config.isPaused)
    (hp : w.pool a = some p) (hs : p.SettlesTo config s) (hd : s.Defaulted) (hdue : Due w config s (o :: os)) :
    ∃ w' q deposited, processInstruction w (o.call a p.market.borrower config.blacklistProgram).1
        (o.call a p.market.borrower config.blacklistProgram).2 = .ok (w', o.shared a s.toMarketAccounts) ∧
      Paid w a (s.shared o.lender q deposited) (o.sharedPayment s.toMarketAccounts) w' ∧
      (s.shared o.lender q deposited).Defaulted := by
  have hbalance := hdue.positive o List.mem_cons_self
  have howed := hdue.fresh o List.mem_cons_self
  rw [MarketAccounts.owed, hs.positions] at howed
  rw [MarketAccounts.balance, hs.positions] at hbalance
  obtain ⟨q, hq⟩ : ∃ q, p.positions.lookup o.lender = some q := by
    cases hq : p.positions.lookup o.lender with
    | none => simp [hq] at hbalance
    | some q => exact ⟨q, rfl⟩
  simp only [hq, Option.elim_some] at hbalance howed
  obtain ⟨w', deposited, hok, hpaid⟩ := o.share h hconfig hpaused hp hs hd (hdue.payable o List.mem_cons_self)
    (hdue.exits o List.mem_cons_self) hq howed hbalance.ne'
  exact ⟨w', q, deposited, hok, hpaid, hd.shared (hs.ledger (Reachable.ledger h hp)) (hs.positions ▸ hq) howed
    hbalance.ne' _⟩

/-- The exits are paid one after the other. -/
theorem executeAll_shared (h : Reachable w) (hconfig : w.config = some config) (hpaused : ¬config.isPaused)
    (hp : w.pool a = some p) (hd : p.Defaulted) (hdue : Due w config p os) :
    ∃ w' p', w.executeAll (os.map (Obligation.call a p.market.borrower config.blacklistProgram)) =
        .ok (w', os.map (Obligation.shared a p.toMarketAccounts)) ∧
      w.PaysEach a (os.map (Obligation.call a p.market.borrower config.blacklistProgram))
        (os.map (Obligation.sharedPayment p.toMarketAccounts)) ∧
      w'.pool a = some p' ∧ p.Emptied (os.map Obligation.lender) p' := by
  induction os generalizing w p with
  | nil => exact ⟨w, p, rfl, .nil, hp, .nil p⟩
  | cons o os ih =>
    obtain ⟨w₁, q, deposited, hok, hpaid, hd₁⟩ :=
      hdue.head h hconfig hpaused hp (.refl (Reachable.ledger h hp) hd.ne_zero) hd
    obtain ⟨w', p', hall, hpays, hp', hrest⟩ := ih hpaid.reachable (hpaid.config.trans hconfig) hpaid.pool hd₁
      (hdue.tail hpaid)
    rw [hdue.shared_eq.1] at hall
    rw [(hdue.shared_eq (a := a)).2] at hpays
    exact ⟨w', p', World.executeAll_cons hok hall, .cons hok hpaid.tokens hpays, hp',
      hrest.cons (List.nodup_cons.1 hdue.nodup).1⟩

/-- The books of a market that is settled for the first time, with too little in its vault. -/
private theorem defaulted_first (h : Reachable w) (hp : w.pool a = some p)
    (hunsettled : p.market.settlementFactorWad = 0)
    (hgrace : p.market.maturityTimestamp + SETTLEMENT_GRACE_PERIOD ≤ p.clock) {m : Market}
    (haccrue : accrueInterest p.market config p.clock = .ok m) {face : ℕ}
    (hface : face = m.scaledTotalSupply * m.scaleFactor / WAD) (hshort : p.vault < face) (hmin : face ≤ p.vault * WAD)
    (hfits : face ≤ u64Max)
    (hs : s = { p with market := { m with settlementFactorWad := p.vault * WAD / face } }) :
    p.SettlesTo config s ∧ s.Defaulted := by
  have hl := Reachable.ledger h hp
  have hpos : 0 < face := by omega
  have hfactor : 1 ≤ p.vault * WAD / face ∧ p.vault * WAD / face < WAD := by
    refine ⟨(Nat.one_le_div_iff hpos).2 hmin, (Nat.div_lt_iff_lt_mul hpos).2 ?_⟩
    rw [mul_comm WAD]
    exact Nat.mul_lt_mul_of_pos_right hshort WAD_pos
  have hmul : m.scaledTotalSupply * m.scaleFactor ≤ u128Max := by
    have hlt := Nat.lt_mul_div_succ (m.scaledTotalSupply * m.scaleFactor) WAD_pos
    rw [← hface] at hlt
    exact hlt.le.trans ((Nat.mul_le_mul_left _ (Nat.add_le_add_right hfits 1)).trans (by decide))
  have hsettle : computeSettlementFactor p.vault face = .ok (p.vault * WAD / face) := by
    refine computeSettlementFactor_eq_ok.2 (.inr ⟨hpos.ne', ?_, ?_⟩)
    · exact (Nat.mul_le_mul_right _ (hshort.le.trans hfits)).trans (by decide)
    · rw [clampFactor_eq, min_eq_right hfactor.2.le, max_eq_right hfactor.1]
  have htotal : totalNormalized m = .ok face := totalNormalized_eq_ok.2 ⟨hmul, hface⟩
  obtain ⟨_, _, hm, hwad, -⟩ := accrueInterest_ok haccrue
  have hto : p.SettlesTo config s := by
    have hmatured : p.market.maturityTimestamp ≤ p.clock :=
      (le_add_of_nonneg_right (by decide : 0 ≤ SETTLEMENT_GRACE_PERIOD)).trans hgrace
    have hsettles : Pool.Settles p.clock p.vault m s.market :=
      .inr ⟨by rw [hm]; exact hunsettled, by rw [hm]; exact hgrace, face, _, htotal, hsettle, by rw [hs]⟩
    subst hs
    exact ⟨hmatured, ⟨m, haccrue, hsettles⟩, rfl, rfl, rfl, rfl⟩
  have howed := hl.unsettled hunsettled
  have hlines := (hl.lines_zero howed).1
  have hsupply : m.scaledTotalSupply ≤ face := by
    rw [hface, Nat.le_div_iff_mul_le WAD_pos, hm]
    exact Nat.mul_le_mul_left _ (hl.wad_le.trans hwad)
  have hslack : 0 ≤ s.slack := by
    have hfixes : Pool.Fixes p s := hs ▸ .first hunsettled haccrue htotal hsettle
    refine hfixes.slack_nonneg hl (hs ▸ hfactor.2) fun _ => ?_
    rw [hs]
    exact hface ▸ hmin
  refine ⟨hto, ?_⟩
  subst hs
  refine ⟨by dsimp only; omega, hfactor.2, hslack, ?_, ?_⟩
  · show m.haircutAccumulator + m.scaledTotalSupply * m.scaleFactor / WAD ≤ u64Max
    rw [← hface, hm]
    dsimp only
    omega
  · show p.haircutState.claimWeightSum + m.scaledTotalSupply * m.scaleFactor / WAD + m.scaledTotalSupply * WAD ≤ u128Max
    rw [hlines, ← hface, Nat.zero_add]
    calc face + m.scaledTotalSupply * WAD ≤ u64Max + u64Max * WAD :=
        Nat.add_le_add hfits (Nat.mul_le_mul_right _ (hsupply.trans hfits))
      _ ≤ u128Max := by decide

/-- The pending obligations of an unsettled market are exits. -/
private theorem due_of_pending (h : p.Ledger) (hunsettled : p.market.settlementFactorWad = 0)
    (hs : p.SettlesTo config s) (hpending : p.toMarketAccounts.Pending os)
    (hpayable : ∀ o ∈ os, o.Payable w config s.toMarketAccounts) : Due w config s os := by
  have howed (l : Address) : p.owed l = 0 := h.owed_unsettled hunsettled
  have hexit (o) (ho : o ∈ os) : o.isExit := by
    by_contra hclaim
    have hmem : o.lender ∈ Obligation.lenders false os :=
      List.mem_map_of_mem (List.mem_filter.2 ⟨ho, by simpa using hclaim⟩)
    have := (hpending.claims _).2 hmem
    rw [howed] at this
    exact absurd this (lt_irrefl 0)
  have hlenders : Obligation.lenders true os = os.map Obligation.lender := by
    rw [Obligation.lenders, List.filter_eq_self.2]
    intro o ho
    simpa using hexit o ho
  refine ⟨hexit, hlenders ▸ hpending.nodup true, ?_, ?_, hpayable⟩
  · intro o ho
    rw [MarketAccounts.balance, hs.positions]
    exact (hpending.exits _).2 (hlenders ▸ List.mem_map_of_mem ho)
  · intro o _
    rw [MarketAccounts.owed, hs.positions]
    exact howed _

/-- When a market is settled for the first time, with less in the vault than it owes, then every order of the full
exits of all lenders succeeds.  Each pays the same part of the face value to an account of the lender, whatever the
order, and leaves the rest owed. -/
theorem default_shared (h : Reachable w) {ma : MarketAccounts} (hma : w.markets.lookup a = some ma)
    (hconfig : w.config = some config) (hpaused : ¬config.isPaused) (hunsettled : ma.market.settlementFactorWad = 0)
    (hgrace : ma.market.maturityTimestamp + SETTLEMENT_GRACE_PERIOD ≤ w.clock) {m : Market}
    (haccrue : accrueInterest ma.market config w.clock = .ok m) {face vault : ℕ}
    (hface : face = m.scaledTotalSupply * m.scaleFactor / WAD) (hvault : vault = w.tokens.amount (.vault a))
    (hshort : vault < face) (hmin : face ≤ vault * WAD) (hfits : face ≤ u64Max) {settled : MarketAccounts}
    (hsettled : settled = { ma with market := { m with settlementFactorWad := vault * WAD / face } })
    (hpending : ma.Pending os) (hpayable : ∀ o ∈ os, o.Payable w config settled) :
    ∃ w' ma', w.executeAll (os.map (Obligation.call a ma.market.borrower config.blacklistProgram)) =
        .ok (w', os.map (Obligation.shared a settled)) ∧
      w.PaysEach a (os.map (Obligation.call a ma.market.borrower config.blacklistProgram))
        (os.map (Obligation.sharedPayment settled)) ∧
      w'.markets.lookup a = some ma' ∧ ma'.market.settlementFactorWad = vault * WAD / face ∧
      ∀ l, ma'.balance l = 0 ∧ ma'.owed l = settled.faceOf l - settled.paidOf l := by
  subst hvault
  have hp := World.pool_of_lookup hma
  have hl := Reachable.ledger h hp
  set p : Pool := { ma with clock := w.clock, vault := w.tokens.amount (.vault a) }
  set s : Pool := { settled with clock := w.clock, vault := w.tokens.amount (.vault a) }
  obtain ⟨hs, hd⟩ : p.SettlesTo config s ∧ s.Defaulted :=
    defaulted_first h hp hunsettled hgrace haccrue hface hshort hmin hfits (by subst hsettled; rfl)
  have hdue : Due w config s os := due_of_pending hl hunsettled hs hpending hpayable
  cases os with
  | nil =>
    -- a market without lenders owes nothing
    obtain ⟨_, _, hm, -⟩ := accrueInterest_ok haccrue
    have hzero : m.scaledTotalSupply = 0 := by
      rw [hm]
      exact (hl.empty_of_pending hpending).1
    rw [hzero, Nat.zero_mul, Nat.zero_div] at hface
    omega
  | cons o os =>
    obtain ⟨w₁, q, deposited, hok, hpaid, hd₁⟩ := hdue.head h hconfig hpaused hp hs hd
    obtain ⟨w', p', hall, hpays, hp', hrest⟩ := executeAll_shared hpaid.reachable (hpaid.config.trans hconfig) hpaused
      hpaid.pool hd₁ (hdue.tail hpaid)
    rw [hdue.shared_eq.1] at hall
    rw [(hdue.shared_eq (a := a)).2] at hpays
    have hfinal := hrest.cons (List.nodup_cons.1 hdue.nodup).1
    have hborrower : s.market.borrower = ma.market.borrower := congrArg Prod.fst hs.terms
    refine ⟨w', p'.toMarketAccounts, World.executeAll_cons hok ?_, .cons hok hpaid.tokens ?_,
      (World.pool_eq_some.1 hp').1, ?_, ?_⟩
    · rw [← hborrower]
      exact hall
    · rw [← hborrower]
      exact hpays
    · rw [hfinal.factor]
      subst hsettled
      rfl
    · intro l
      rw [hfinal.balance, hfinal.owed]
      by_cases hmem : l ∈ o.lender :: os.map Obligation.lender
      · rw [if_pos hmem, if_pos hmem]
        exact ⟨rfl, rfl⟩
      · -- a lender that is not in the list has no balance
        have hnone : s.balance l = 0 := by
          rw [MarketAccounts.balance, hs.positions]
          refine Nat.eq_zero_of_not_pos fun hpos => hmem ?_
          obtain ⟨o', ho', rfl⟩ := List.mem_map.1 ((hpending.exits l).1 hpos)
          exact List.mem_map_of_mem (List.mem_of_mem_filter ho')
        have howed : s.owed l = 0 := by
          rw [MarketAccounts.owed, hs.positions]
          exact hl.owed_unsettled hunsettled
        have hface' : s.faceOf l = 0 := by rw [MarketAccounts.faceOf, hnone, Nat.zero_mul, Nat.zero_div]
        rw [if_neg hmem, if_neg hmem, hnone, howed, hface', Nat.zero_sub]
        exact ⟨rfl, rfl⟩

end Orders

namespace Sample

/-- The borrower closes Bob's position, then Alice takes out everything. -/
def lastOut : List Obligation :=
  [.forceClosePosition bob (wallet bob), .withdraw alice (wallet alice) (leBytes 24 0)]

end Sample

/-- Of the 16 that are owed 8 are left: Bob gets 5 of his 10, and Alice 3 of her 6. -/
theorem default_shared_lastOut :
    ∃ w' ma', (Sample.genesis.performAll Sample.defaulted).executeAll
        (Sample.lastOut.map (Obligation.call Sample.market Sample.borrower Sample.blacklistProgram)) =
          .ok (w', [.forceClose Sample.market Sample.bob 5 10, .withdraw Sample.market Sample.alice 3 6]) ∧
      (Sample.genesis.performAll Sample.defaulted).PaysEach Sample.market
        (Sample.lastOut.map (Obligation.call Sample.market Sample.borrower Sample.blacklistProgram))
        [(Sample.wallet Sample.bob, 5), (Sample.wallet Sample.alice, 3)] ∧
      w'.markets.lookup Sample.market = some ma' ∧ ma'.market.settlementFactorWad = 8 * WAD / 16 := by
  obtain ⟨config, hconfig, hx⟩ := Option.bind_eq_some_iff.1
    (show ((Sample.genesis.performAll Sample.defaulted).config.bind fun c =>
      ((Sample.genesis.performAll Sample.defaulted).markets.lookup Sample.market).map fun ma =>
        (decide (¬c.isPaused ∧ c.blacklistProgram = Sample.blacklistProgram ∧ ma.market.borrower = Sample.borrower ∧
            ma.market.settlementFactorWad = 0 ∧ ma.market.maturityTimestamp + SETTLEMENT_GRACE_PERIOD ≤
              (Sample.genesis.performAll Sample.defaulted).clock ∧ ma.Pending Sample.lastOut),
          (accrueInterest ma.market c (Sample.genesis.performAll Sample.defaulted).clock).toOption.map fun m =>
            decide (m.scaledTotalSupply * m.scaleFactor / WAD = 16 ∧
              Sample.lastOut.map (Obligation.shared Sample.market
                  { ma with market := { m with settlementFactorWad := 8 * WAD / 16 } }) =
                [.forceClose Sample.market Sample.bob 5 10, .withdraw Sample.market Sample.alice 3 6] ∧
              Sample.lastOut.map (Obligation.sharedPayment
                  { ma with market := { m with settlementFactorWad := 8 * WAD / 16 } }) =
                [(Sample.wallet Sample.bob, 5), (Sample.wallet Sample.alice, 3)] ∧
              ∀ o ∈ Sample.lastOut, o.Payable (Sample.genesis.performAll Sample.defaulted) c
                { ma with market := { m with settlementFactorWad := 8 * WAD / 16 } }))) =
      some (true, some true) by decide +kernel)
  obtain ⟨ma, hma, hx⟩ := Option.map_eq_some_iff.1 hx
  obtain ⟨hstate, haccrued⟩ := Prod.mk.inj hx
  obtain ⟨hpaused, hprogram, hborrower, hunsettled, hgrace, hpending⟩ := of_decide_eq_true hstate
  obtain ⟨m, haccrue, hm⟩ := exists_ok_of_toOption haccrued
  obtain ⟨hface, hevents, hpayments, hpayable⟩ := of_decide_eq_true hm
  have hvault : (Sample.genesis.performAll Sample.defaulted).tokens.amount (.vault Sample.market) = 8 := by
    decide +kernel
  obtain ⟨w', ma', hok, hpays, hma', hfactor, -⟩ := default_shared
    (World.performAll_reachable Sample.genesis_reachable Sample.defaulted) hma hconfig hpaused hunsettled hgrace haccrue
    hface.symm hvault.symm (by decide) (by decide) (by decide) rfl hpending hpayable
  rw [hborrower, hprogram, hevents] at hok
  rw [hborrower, hprogram, hpayments] at hpays
  exact ⟨w', ma', hok, hpays, hma', hfactor⟩

/-! ### Making the lenders whole -/

section Whole

variable {w : World} {a : Address} {config : ProtocolConfig} {ma : MarketAccounts}

/-- As soon as the vault holds the face value, the haircuts and one unit for each haircut, one `reSettle` leads back to
par without moving a token, every order of the pending obligations pays everybody in full, and the books are empty
then. -/
theorem made_whole (h : Reachable w) (hma : w.markets.lookup a = some ma) (hconfig : w.config = some config)
    (hpaused : ¬config.isPaused) (hsettled : ma.market.settlementFactorWad ≠ 0)
    (hdistress : ma.market.settlementFactorWad < WAD)
    (hvault : ma.market.scaledTotalSupply * ma.market.scaleFactor / WAD + ma.market.haircutAccumulator +
      ma.openHaircuts ≤ w.tokens.amount (.vault a))
    (hfits : (w.tokens.amount (.vault a) + ma.haircutState.claimOffsetSum) * WAD ≤ u128Max)
    {os : List Obligation} (hpending : ma.Pending os) (hcorrect : ∀ o ∈ os, o.Correct w config ma) :
    ∃ w₁ w' ma', processInstruction w (reSettleAccounts a) [9] = .ok (w₁, .reSettle a WAD) ∧ w₁.tokens = w.tokens ∧
      w₁.executeAll (os.map (Obligation.call a ma.market.borrower config.blacklistProgram)) =
        .ok (w', os.map (Obligation.event a ma)) ∧
      w₁.PaysEach a (os.map (Obligation.call a ma.market.borrower config.blacklistProgram))
        (os.map (Obligation.payment ma)) ∧
      w'.markets.lookup a = some ma' ∧ ma'.market.settlementFactorWad = WAD ∧
      ma'.market.scaledTotalSupply = 0 ∧ ma'.market.haircutAccumulator = 0 ∧
      ma'.haircutState.claimWeightSum = 0 ∧ ma'.haircutState.claimOffsetSum = 0 := by
  have hw := Reachable.wellFormed h
  have hl := Reachable.ledger h (World.pool_of_lookup hma)
  have hset := hl.settled hsettled
  have hplaced := hw.placed a ma hma
  have hfactor : computeResettleFactor (w.tokens.amount ma.market.vault)
      (ma.market.scaledTotalSupply * ma.market.scaleFactor / WAD) ma.haircutState.claimWeightSum
      ma.haircutState.claimOffsetSum = .ok WAD := by
    rw [hplaced.vault]
    have hreserve := hl.reserve_le_openHaircuts
    dsimp only at hreserve
    exact computeResettleFactor_par (by omega)
      ((computeResettleFactor_overflow_iff hl hsettled).2 (.inr hfits))
  have hok := reSettle_succeeds hw hconfig hpaused hma hsettled
    (accrueInterest_matured config hset.accrued hset.matured) (WAD_pos.trans_le hl.wad_le).ne'
    (totalNormalized_eq_ok.2 ⟨hset.face_fits, rfl⟩) hfactor hdistress
  have hr := reachable_of_call h (by simp [reSettleAccounts, account]) hok
    (show processInstruction w (reSettleAccounts a) [9] = _ from rfl)
  set restored : MarketAccounts := { ma with market := { ma.market with settlementFactorWad := WAD } }
  have hrestored : (w.setMarket a restored).markets.lookup a = some restored := by simp [World.setMarket]
  have hpending' : restored.Pending os := ⟨hpending.nodup, hpending.exits, hpending.claims⟩
  obtain ⟨w', ma', hall, hpays, hr', -, hma', hdone, hpar, -⟩ :=
    executeAll_cleared hr hconfig hpaused hrestored rfl hpending' hcorrect
  have hl' := Reachable.ledger hr' (World.pool_of_lookup hma')
  obtain ⟨hsupply, howed⟩ := hl'.empty_of_pending hdone
  obtain ⟨hweight, hoffset⟩ := hl'.lines_zero howed
  exact ⟨_, w', ma', hok, rfl, hall, hpays, hma', hpar, hsupply, howed, hweight, hoffset⟩

end Whole

/-- From one half back to par: both are paid their haircuts of 1, and what they still have in the market. -/
theorem made_whole_covered :
    ∃ w₁ w', processInstruction (Sample.genesis.performAll Sample.covered) (reSettleAccounts Sample.market) [9] =
        .ok (w₁, .reSettle Sample.market WAD) ∧
      w₁.executeAll (Sample.closing.map (Obligation.call Sample.market Sample.borrower Sample.blacklistProgram)) =
        .ok (w', [.withdraw Sample.market Sample.alice 4 4, .forceClaimHaircut Sample.market Sample.bob 1 0,
          .forceClose Sample.market Sample.bob 8 8, .claimHaircut Sample.market Sample.alice 1 0]) ∧
      w₁.PaysEach Sample.market
        (Sample.closing.map (Obligation.call Sample.market Sample.borrower Sample.blacklistProgram))
        [(Sample.wallet Sample.alice, 4), (Sample.wallet Sample.bob, 1), (Sample.wallet Sample.bob, 8),
          (Sample.wallet Sample.alice, 1)] := by
  obtain ⟨config, hconfig, hx⟩ := Option.bind_eq_some_iff.1
    (show ((Sample.genesis.performAll Sample.covered).config.bind fun c =>
      ((Sample.genesis.performAll Sample.covered).markets.lookup Sample.market).map fun ma =>
        decide ((¬c.isPaused ∧ c.blacklistProgram = Sample.blacklistProgram ∧ ma.market.borrower = Sample.borrower ∧
            ma.market.settlementFactorWad ≠ 0 ∧ ma.market.settlementFactorWad < WAD) ∧
          ma.market.scaledTotalSupply * ma.market.scaleFactor / WAD + ma.market.haircutAccumulator +
            ma.openHaircuts ≤ (Sample.genesis.performAll Sample.covered).tokens.amount (.vault Sample.market) ∧
          ((Sample.genesis.performAll Sample.covered).tokens.amount (.vault Sample.market) +
            ma.haircutState.claimOffsetSum) * WAD ≤ u128Max ∧
          (ma.Pending Sample.closing ∧
            ∀ o ∈ Sample.closing, o.Correct (Sample.genesis.performAll Sample.covered) c ma) ∧
          Sample.closing.map (Obligation.event Sample.market ma) = [.withdraw Sample.market Sample.alice 4 4,
            .forceClaimHaircut Sample.market Sample.bob 1 0, .forceClose Sample.market Sample.bob 8 8,
            .claimHaircut Sample.market Sample.alice 1 0] ∧
          Sample.closing.map (Obligation.payment ma) = [(Sample.wallet Sample.alice, 4), (Sample.wallet Sample.bob, 1),
            (Sample.wallet Sample.bob, 8), (Sample.wallet Sample.alice, 1)])) = some true by decide +kernel)
  obtain ⟨ma, hma, hx⟩ := Option.map_eq_some_iff.1 hx
  obtain ⟨⟨hpaused, hprogram, hborrower, hsettled, hdistress⟩, hvault, hfits, ⟨hpending, hcorrect⟩, hevents,
    hpayments⟩ := of_decide_eq_true hx
  obtain ⟨w₁, w', ma', hok, -, hall, hpays, -⟩ :=
    made_whole (World.performAll_reachable Sample.genesis_reachable Sample.covered) hma
    hconfig hpaused hsettled hdistress hvault hfits hpending hcorrect
  rw [hborrower, hprogram, hevents] at hall
  rw [hborrower, hprogram, hpayments] at hpays
  exact ⟨w₁, w', hok, hall, hpays⟩

end Coalesce
