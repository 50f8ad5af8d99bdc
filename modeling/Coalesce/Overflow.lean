import Coalesce.WindDown

/-!
# When the haircut arithmetic overflows

The weight of a haircut grows without bound as its anchor approaches `WAD`, and every exit, however small, adds a
whole unit of gap.  So the checked products of `positionContribution` and `computeResettleFactor` can overflow:
`haircut_overflow_iff` says exactly when, `withdraw_overflows`, `forceClosePosition_overflows` and `reSettle_overflows`
that the handlers then fail, and a few hundred dust withdrawals just below par lead there (`dust_overflows`).
-/

namespace Coalesce

open LendingError ProRata

variable {w : World} {a : Address} {ma : MarketAccounts}

/-- What an exit of `scaled` units leaves owed: what is still open of the haircut, and the uncovered face value. -/
def newOwed (m : Market) (q : LenderPosition) (scaled : ℕ) : ℕ :=
  q.remaining m.settlementFactorWad +
    (scaled * m.scaleFactor / WAD - scaled * m.scaleFactor / WAD * m.settlementFactorWad / WAD)

/-- An exit of `scaled` units that passes all checks up to the new contribution of the position `q`; `m` is the market
accrued and settled. -/
structure ReachesContribution (w : World) (ma : MarketAccounts) (q : LenderPosition) (scaled : ℕ) (m : Market) :
    Prop where
  matured : ma.market.maturityTimestamp ≤ w.clock
  settled : ∃ config m₀, accrueInterest ma.market config w.clock = .ok m₀ ∧
    Pool.Settles w.clock (w.tokens.amount ma.market.vault) m₀ m
  position : ∃ l, ma.positions.lookup l = some q
  pos : 0 < scaled
  le : scaled ≤ q.scaledBalance
  amounts : ∃ n pay, exitAmounts m scaled = .ok (n, pay) ∧ pay < n
  distress : m.settlementFactorWad < WAD
  fits : newOwed m q scaled ≤ u64Max

theorem positionContribution_overflow_iff {h s : ℕ} (hh : h ≤ u64Max) (hs : 0 < s) (hs' : s < WAD) :
    positionContribution h s ≠ .error mathOverflow ↔ h * WAD ≤ u128Max / s * (WAD - s) := by
  rw [← weight_le hs', Nat.le_div_iff_mul_le hs]
  constructor
  · intro hne
    cases hr : positionContribution h s with
    | error e => exact absurd (positionContribution_error hr ▸ hr) hne
    | ok r => exact ((positionContribution_eq_ok hh hs').1 hr).1
  · intro hle he
    rw [(positionContribution_eq_ok hh hs').2 ⟨hle, rfl⟩] at he
    cases he

/-- Inside the bound on its numerator, the denominator of the new factor cannot overflow either. -/
theorem computeResettleFactor_overflow_iff {p : Pool} (h : p.Ledger) (h0 : p.market.settlementFactorWad ≠ 0) :
    computeResettleFactor p.vault p.face p.haircutState.claimWeightSum p.haircutState.claimOffsetSum ≠
        .error mathOverflow ↔
      p.face + p.haircutState.claimWeightSum = 0 ∨ (p.vault + p.haircutState.claimOffsetSum) * WAD ≤ u128Max := by
  constructor
  · intro hne
    cases hr : computeResettleFactor p.vault p.face p.haircutState.claimWeightSum p.haircutState.claimOffsetSum with
    | error e => exact absurd (computeResettleFactor_error hr ▸ hr) hne
    | ok f =>
      rcases computeResettleFactor_eq_ok.1 hr with ⟨-, ⟨hz, -⟩ | ⟨-, hle, -⟩⟩
      · exact .inl hz
      · exact .inr hle
  · intro hcond he
    have hdenominator : p.face + p.haircutState.claimWeightSum ≤ u128Max := by
      rcases hcond with hz | hle
      · rw [hz]
        exact Nat.zero_le _
      · have hface : p.face ≤ u128Max / WAD := Nat.div_le_div_right (h.settled h0).face_fits
        have hnumerator : p.vault + p.haircutState.claimOffsetSum ≤ u128Max / WAD :=
          (Nat.le_div_iff_mul_le WAD_pos).2 hle
        have hweight := h.reserve.2
        have howed := h.owed_le
        have hsum : u128Max / WAD + (u128Max / WAD + (u64Max + u64Max)) ≤ u128Max := by decide
        omega
    rcases hcond with hz | hle
    · rw [computeResettleFactor_eq_ok.2 ⟨hdenominator, .inl ⟨hz, rfl⟩⟩] at he
      cases he
    · by_cases hz : p.face + p.haircutState.claimWeightSum = 0
      · rw [computeResettleFactor_eq_ok.2 ⟨hdenominator, .inl ⟨hz, rfl⟩⟩] at he
        cases he
      · rw [computeResettleFactor_eq_ok.2 ⟨hdenominator, .inr ⟨hz, hle, rfl⟩⟩] at he
        cases he

/-! ### The handlers at an overflow -/

section Handlers

variable {α β : Type} {lender token : Address} {config : ProtocolConfig} {q : LenderPosition} {m m' : Market}
  {scaled n pay : ℕ} {e : ProgramError}

private theorem error_of_ok {x : Result α} {f : α → Result β} {b : α} (hx : x = .ok b) (hf : f b = .error e) :
    (x >>= f) = .error e :=
  bind_eq_error.2 (.inr ⟨b, hx, hf⟩)

private theorem error_of_require {c : Prop} [Decidable c] {e' : ProgramError} {f : Unit → Result β} (hc : c)
    (hf : f () = .error e) : (require c e' >>= f) = .error e :=
  error_of_ok (require_eq_ok.2 hc) hf

theorem recordGap_error {hs : HaircutState} {gap r : ℕ} (hrebased : rebasedOwed q m.settlementFactorWad = .ok r)
    (he : recordGap m q hs gap pay = .error e) : e = mathOverflow := by
  simp only [recordGap, removeContribution, addContribution, hrebased, bind_eq_error, checkedAdd, inRange_eq_error,
    reduceCtorEq, Except.ok.injEq, exists_eq_left', and_false, exists_false, or_false, false_or] at he
  -- the old contribution, the payout, the owed amount, the accumulator, the new contribution, the two sums
  rcases he with he | ⟨_, -, ⟨-, he⟩ | ⟨_, -, ⟨-, he⟩ | ⟨_, -, ⟨-, he⟩ | ⟨_, -, he | ⟨_, -, ⟨-, he⟩ | ⟨_, -, -, he⟩⟩⟩⟩⟩⟩
  · split at he
    · rcases bind_eq_error.1 he with he | ⟨_, -, he⟩
      · exact positionContribution_error he
      · cases he
    · cases he
  · exact he
  · exact he
  · exact he
  · exact positionContribution_error he
  · exact he
  · exact he

namespace ReachesContribution

variable (h : Reachable w) (hma : w.markets.lookup a = some ma) (hr : ReachesContribution w ma q scaled m)

include h hma hr

/-- What is open of the older haircut is what the program rebases it to. -/
theorem rebasedOwed_eq : rebasedOwed q m.settlementFactorWad = .ok (q.remaining m.settlementFactorWad) := by
  obtain ⟨config, m₀, haccrue, hsettles⟩ := hr.settled
  obtain ⟨l, hq⟩ := hr.position
  have hl := Reachable.books h hma
  exact ((hl.settleExit hr.matured haccrue hsettles).anchored l q hq).rebasedOwed (hl.owed_u64 hq) hr.distress.le

theorem scaleFactor_ne_zero : m.scaleFactor ≠ 0 := by
  obtain ⟨config, m₀, haccrue, hsettles⟩ := hr.settled
  exact (WAD_pos.trans_le ((Reachable.books h hma).settleExit hr.matured haccrue hsettles).wad_le).ne'

/-- An overflow of the new contribution fails the bookkeeping of the exit. -/
theorem trackHaircut_overflows (hamounts : exitAmounts m scaled = .ok (n, pay))
    (hoverflow : positionContribution (newOwed m q scaled) m.settlementFactorWad = .error mathOverflow) :
    trackHaircut ma a (account (.haircutState a)) m q n pay = .error mathOverflow := by
  have hrebased := hr.rebasedOwed_eq h hma
  have hn := (exitAmounts_eq_ok.1 hamounts).2.2.2
  obtain ⟨n', pay', hamounts', hlt⟩ := hr.amounts
  obtain ⟨rfl, rfl⟩ := Prod.mk.inj (Except.ok.inj (hamounts.symm.trans hamounts'))
  obtain ⟨rfl, rfl⟩ := Prod.mk.inj hn
  cases htrack : trackHaircut ma a (account (.haircutState a)) m q _ _ with
  | ok t =>
    -- it would have computed the new contribution
    rcases tracks_of_trackHaircut htrack with ⟨-, -, -, hrecord⟩ | ⟨hpar | hle, -⟩
    · obtain ⟨_, r, _, -, hr', -, -, -, hadd, -⟩ := recordGap_eq_ok.1 hrecord
      obtain rfl := Except.ok.inj (hrebased.symm.trans hr')
      obtain ⟨_, hnew, -⟩ := addContribution_eq_ok.1 hadd
      exact absurd (hoverflow.symm.trans hnew) (by simp)
    · exact absurd hr.distress (by omega)
    · exact absurd hlt (by omega)
  | error e =>
    rw [trackHaircut, if_pos hr.distress] at htrack
    rcases bind_eq_error.1 htrack with hn | ⟨_, hn, hgap⟩
    · rw [(inRange_eq_error.1 hn).2]
    · split at hgap
      · rcases bind_eq_error.1 hgap with hload | ⟨hs, -, hrecord⟩
        · rw [loadHaircutState_eq_ok.2 ⟨rfl, (Reachable.placed h hma).haircutState, rfl⟩] at hload
          cases hload
        · rw [recordGap_error hrebased hrecord]
      · cases hgap

end ReachesContribution

/-- A withdrawal that passes all checks before it fails where its new contribution overflows. -/
theorem withdraw_overflows (h : Reachable w) (hconfig : w.config = some config) (hpaused : ¬config.isPaused)
    (hma : w.markets.lookup a = some ma)
    (hblacklist : checkBlacklist w (account (.blacklist config.blacklistProgram lender)) config lender = .ok ())
    (haccrue : accrueInterest ma.market config w.clock = .ok m) (hq : ma.positions.lookup lender = some q)
    (hsettle : settleOnWithdraw w m (account (.vault a)) = .ok m') {data : List UInt8} (hdata : 24 ≤ data.length)
    (hscaled : scaled = if u128At data 0 = 0 then q.scaledBalance else u128At data 0)
    (hr : ReachesContribution w ma q scaled m') (hamounts : exitAmounts m' scaled = .ok (n, pay)) (hpay : pay ≠ 0)
    (hmin : u64At data 16 ≤ pay) (htoken : w.tokens.holder token = some (USDC_MINT, lender))
    (hoverflow : positionContribution (newOwed m' q scaled) m'.settlementFactorWad = .error mathOverflow) :
    withdraw w (withdrawAccounts a lender token config.blacklistProgram) data = .error mathOverflow := by
  have hp := Reachable.placed h hma
  have hbalance : q.scaledBalance ≠ 0 := (hr.pos.trans_le hr.le).ne'
  have htrack := hr.trackHaircut_overflows h hma hamounts hoverflow
  obtain ⟨lt, hlt, -, howner⟩ := TokenLedger.exists_of_holder htoken
  have hle := hr.le
  have hscale := hr.scaleFactor_ne_zero h hma
  subst hscaled
  -- every check before the bookkeeping passes
  refine error_of_require rfl (error_of_require hdata (error_of_require rfl ?_))
  refine error_of_ok (loadProtocolConfig_eq_ok.2 ⟨rfl, hconfig⟩) (error_of_require hpaused ?_)
  refine error_of_ok (loadMarket_eq_ok.2 ⟨hma, hp.address⟩) (error_of_require hp.vault ?_)
  refine error_of_require hr.matured (error_of_ok hblacklist (error_of_ok haccrue ?_))
  refine error_of_ok (loadLenderPosition_eq_ok.2 ⟨rfl, hq⟩) (error_of_require hbalance ?_)
  refine error_of_ok hsettle (error_of_require hle (error_of_require hscale ?_))
  refine error_of_ok hamounts (error_of_require hpay (error_of_require (fun h => absurd h.2 (by omega)) ?_))
  refine error_of_require rfl (error_of_ok (loadTokenAccount_eq_ok.2 hlt) (error_of_require howner ?_))
  exact bind_eq_error.2 (.inl htrack)

/-- So does a forced exit, of the whole position. -/
theorem forceClosePosition_overflows (h : Reachable w) (hconfig : w.config = some config) (hpaused : ¬config.isPaused)
    (hma : w.markets.lookup a = some ma) (hgrace : checkGracePeriod w ma.market = .ok ())
    (haccrue : accrueInterest ma.market config w.clock = .ok m) (hq : ma.positions.lookup lender = some q)
    (hsettle : settleOnForceClose w m (account (.vault a)) = .ok m')
    (hr : ReachesContribution w ma q q.scaledBalance m')
    (hamounts : exitAmounts m' q.scaledBalance = .ok (n, pay))
    (htoken : w.tokens.holder token = some (m'.mint, lender))
    (hoverflow : positionContribution (newOwed m' q q.scaledBalance) m'.settlementFactorWad = .error mathOverflow) :
    forceClosePosition w (forceClosePositionAccounts a ma.market.borrower lender token) = .error mathOverflow := by
  have hp := Reachable.placed h hma
  have htrack := hr.trackHaircut_overflows h hma hamounts hoverflow
  have hscale := hr.scaleFactor_ne_zero h hma
  obtain ⟨hqm, rfl, -⟩ := hp.positions lender q hq
  obtain ⟨lt, hlt, hmint, howner⟩ := TokenLedger.exists_of_holder htoken
  refine error_of_require rfl (error_of_require rfl ?_)
  refine error_of_ok (loadMarket_eq_ok.2 ⟨hma, hp.address⟩) (error_of_require rfl (error_of_require hp.vault ?_))
  refine error_of_ok (loadProtocolConfig_eq_ok.2 ⟨rfl, hconfig⟩) (error_of_require hpaused ?_)
  refine error_of_require hr.matured (error_of_ok hgrace (error_of_ok haccrue (error_of_ok hsettle ?_)))
  refine error_of_ok (loadPositionOfMarket_eq_ok.2 ⟨rfl, hqm, ma, hma, hq⟩) ?_
  refine error_of_ok (b := ()) (loadEscrow_eq_ok.2 ⟨lt, hlt, howner, hmint⟩) ?_
  refine error_of_require hr.pos.ne' (error_of_require hscale (error_of_ok hamounts (error_of_require rfl ?_)))
  exact bind_eq_error.2 (.inl htrack)

/-- `reSettle` fails as the computation of the new factor does. -/
theorem reSettle_overflows (h : Reachable w) (hconfig : w.config = some config) (hpaused : ¬config.isPaused)
    (hma : w.markets.lookup a = some ma) (h0 : ma.market.settlementFactorWad ≠ 0)
    (hfactor : computeResettleFactor (w.tokens.amount ma.market.vault)
      (ma.market.scaledTotalSupply * ma.market.scaleFactor / WAD) ma.haircutState.claimWeightSum
      ma.haircutState.claimOffsetSum = .error e) :
    reSettle w (reSettleAccounts a) = .error e := by
  have hw := Reachable.wellFormed h
  have hl := Reachable.ledger h (World.pool_of_lookup hma)
  have hp := hw.placed a ma hma
  have hs := hl.settled h0
  have hmatured : ma.market.maturityTimestamp ≤ w.clock := hs.matured
  obtain ⟨vt, hvt, -, -⟩ := TokenLedger.exists_of_holder (hw.vault a ma hma)
  rw [hp.vault, TokenLedger.amount_eq hvt] at hfactor
  have hscale : ma.market.scaleFactor ≠ 0 := (WAD_pos.trans_le hl.wad_le).ne'
  refine error_of_ok (loadMarket_eq_ok.2 ⟨hma, hp.address⟩) (error_of_require hp.vault (error_of_require h0 ?_))
  refine error_of_ok (loadProtocolConfig_eq_ok.2 ⟨rfl, hconfig⟩) (error_of_require hpaused ?_)
  refine error_of_ok (accrueInterest_matured config hs.accrued hmatured) ?_
  refine error_of_require (by simp [account, hvt]) (error_of_ok (loadTokenAccount_eq_ok.2 hvt) ?_)
  refine error_of_require hscale (error_of_ok (totalNormalized_eq_ok.2 ⟨hs.face_fits, rfl⟩) ?_)
  refine error_of_ok (loadHaircutState_eq_ok.2 ⟨rfl, hp.haircutState, rfl⟩) ?_
  exact bind_eq_error.2 (.inl hfactor)

/-- An exit that succeeds writes `newOwed` at the settled factor if it leaves a gap, and then its contribution has not
overflowed. -/
theorem exit_writes_newOwed (h : Reachable w) (hma : w.markets.lookup a = some ma) {accounts : List AccountMeta}
    (hsign : ∀ x ∈ accounts, x.isSigner → x.address.isKey) {data : List UInt8} {w' : World} {event : Event}
    {payout : ℕ} (hok : withdraw w accounts data = .ok (w', event) ∨ forceClosePosition w accounts = .ok (w', event))
    (hexit : event.IsExit a lender payout scaled) :
    ∃ q m ma' q', ma.positions.lookup lender = some q ∧ w'.markets.lookup a = some ma' ∧
      ma'.positions.lookup lender = some q' ∧ ma'.market.settlementFactorWad = m.settlementFactorWad ∧
      (q'.haircutOwed = q.haircutOwed ∨
        ReachesContribution w ma q scaled m ∧ q'.haircutOwed = newOwed m q scaled ∧
          q'.withdrawalSf = m.settlementFactorWad ∧
          ∃ r, positionContribution (newOwed m q scaled) m.settlementFactorWad = .ok r) := by
  have hw := Reachable.wellFormed h
  obtain ⟨x, hx⟩ : ∃ x, w.Exits a lender x scaled payout w' := by
    rcases hok with hok | hok
    · obtain ⟨a', l', scaled', payout', rfl, hx, -⟩ := withdraw_exits hw hsign hok
      rcases hexit with he | he
      · cases he
        exact ⟨_, hx⟩
      · cases he
    · obtain ⟨a', l', scaled', payout', rfl, hx, -⟩ := forceClosePosition_exits hw hok
      rcases hexit with he | he
      · cases he
      · cases he
        exact ⟨_, hx⟩
  obtain ⟨config, p, p', -, hmoves, hexits⟩ := hx
  obtain rfl := Option.some.inj ((World.pool_of_lookup hma).symm.trans hmoves.pre)
  have hma' := (World.pool_eq_some.1 hmoves.post).1
  cases hexits with
  | @mk m₀ m hmatured haccrue hsettles hpays =>
    cases hpays with
    | @mk q n pay t hq hbalance hle hamounts _ htracks =>
      have hfactor := congrArg Market.settlementFactorWad htracks.shape.market
      refine ⟨q, m, _, _, hq, hma', Finmap.lookup_insert _, hfactor, ?_⟩
      rcases htracks with ⟨hdistress, hlt, -, hrecord⟩ | ⟨-, rfl⟩
      · have hl := Reachable.ledger h (World.pool_of_lookup hma)
        have hanchored := (hl.settleExit hmatured haccrue hsettles).anchored lender q hq
        have hrebased := hanchored.rebasedOwed (hl.owed_u64 hq) hdistress.le
        obtain ⟨_, r, _, -, hr, -, hfits, -, hadd, rfl⟩ := recordGap_eq_ok.1 hrecord
        obtain rfl := Except.ok.inj (hrebased.symm.trans hr)
        obtain ⟨c, hc, -⟩ := addContribution_eq_ok.1 hadd
        obtain ⟨-, -, -, hnp⟩ := exitAmounts_eq_ok.1 hamounts
        obtain ⟨rfl, rfl⟩ := Prod.mk.inj hnp
        rw [← (hw.placed a ma hma).vault] at hsettles
        exact .inr ⟨⟨hmatured, ⟨config, m₀, haccrue, hsettles⟩, ⟨lender, hq⟩, Exit.units_pos hbalance, hle,
          ⟨_, _, hamounts, hlt⟩, hdistress, hfits⟩, rfl, rfl, c, hc⟩
      · exact .inl rfl

end Handlers

/-! ### Dust withdrawals just below par -/

namespace Sample

/-- Alice deposits one `WAD` and one unit of it is missing at the settlement; she withdraws two units. -/
def shortfall : List Action :=
  [configure, whitelist, create, deposit alice WAD, borrow 1, .clock 400, withdraw alice 2]

end Sample

/-- After `k` withdrawals of two units each Alice is owed `k`, anchored one below par. -/
structure Dusty (k : ℕ) (w : World) (config : ProtocolConfig) (ma : MarketAccounts) (q : LenderPosition) : Prop where
  reachable : Reachable w
  configured : w.config = some config
  paused : config.isPaused = false
  failOpen : config.isBlacklistFailClosed = false
  program : config.blacklistProgram = Sample.blacklistProgram
  blacklist : w.blacklist (.blacklist Sample.blacklistProgram Sample.alice) = none
  wallet : w.tokens.holder (Sample.wallet Sample.alice) = some (USDC_MINT, Sample.alice)
  vault : w.tokens.amount (.vault Sample.market) = WAD - 1 - k
  lookup : w.markets.lookup Sample.market = some ma
  position : ma.positions.lookup Sample.alice = some q
  scaleFactor : ma.market.scaleFactor = WAD
  factor : ma.market.settlementFactorWad = WAD - 1
  supply : ma.market.scaledTotalSupply = WAD - 2 * k
  owed : ma.market.haircutAccumulator = k
  weight : ma.haircutState.claimWeightSum = k * WAD
  offset : ma.haircutState.claimOffsetSum = k * (WAD - 1)
  balance : q.scaledBalance = WAD - 2 * k
  haircutOwed : q.haircutOwed = k
  anchor : q.withdrawalSf = WAD - 1

private theorem dusty_one : ∃ config ma q, Dusty 1 (Sample.genesis.performAll Sample.shortfall) config ma q := by
  let w := Sample.genesis.performAll Sample.shortfall
  have hr : Reachable w := World.performAll_reachable Sample.genesis_reachable _
  obtain ⟨config, hconfig, hc⟩ := Option.map_eq_some_iff.1
    (show w.config.map (fun c => (c.isPaused, c.isBlacklistFailClosed, c.blacklistProgram)) =
      some (false, false, Sample.blacklistProgram) by decide +kernel)
  obtain ⟨ma, hma, hm⟩ := Option.map_eq_some_iff.1
    (show (w.markets.lookup Sample.market).map (fun ma => (ma.positions.lookup Sample.alice,
        [ma.market.scaleFactor, ma.market.settlementFactorWad, ma.market.scaledTotalSupply,
          ma.market.haircutAccumulator, ma.haircutState.claimWeightSum, ma.haircutState.claimOffsetSum])) =
      some (some ⟨Sample.market, Sample.alice, WAD - 2, 1, WAD - 1⟩, [WAD, WAD - 1, WAD - 2, 1, WAD, WAD - 1])
      by decide +kernel)
  simp only [Prod.mk.injEq, List.cons.injEq, and_true] at hc hm
  obtain ⟨hpaused, hopen, hprogram⟩ := hc
  obtain ⟨hq, hscale, hfactor, hsupply, howed, hweight, hoffset⟩ := hm
  exact ⟨config, ma, _, hr, hconfig, hpaused, hopen, hprogram, by decide +kernel, by decide +kernel,
    by decide +kernel, hma, hq, hscale, hfactor, hsupply, howed, by rw [hweight, Nat.one_mul],
    by rw [hoffset, Nat.one_mul], rfl, rfl, rfl⟩

private theorem asks_two (balance : ℕ) :
    2 = if u128At (leBytes 16 2 ++ leBytes 8 0) 0 = 0 then balance else u128At (leBytes 16 2 ++ leBytes 8 0) 0 := by
  rw [show u128At (leBytes 16 2 ++ leBytes 8 0) 0 = 2 by decide, if_neg (by decide)]

private theorem contribution_pred {k : ℕ} (hk : k ≤ 340) :
    positionContribution k (WAD - 1) = .ok (k * WAD, k * (WAD - 1)) := by
  have hfits : k * WAD * (WAD - 1) ≤ u128Max :=
    (Nat.mul_le_mul_right _ (Nat.mul_le_mul_right _ hk)).trans (by decide)
  rw [positionContribution_eq_ok (hk.trans (by decide)) (by decide), weight_pred WAD_pos]
  refine ⟨hfits, ?_⟩
  rw [ProRata.offset, weight_pred WAD_pos, mul_right_comm, Nat.mul_div_cancel _ WAD_pos]

namespace Dusty

variable {k scaled : ℕ} {config : ProtocolConfig} {q : LenderPosition}

/-- All of the face value is paid but one unit. -/
theorem exitAmounts (h : Dusty k w config ma q) (hpos : 0 < scaled) (hle : scaled ≤ WAD) :
    exitAmounts ma.market scaled = .ok (scaled, scaled - 1) := by
  have hwad : WAD = 1000000000000000000 := rfl
  have hu64 : u64Max = 18446744073709551615 := rfl
  have hu128 : WAD * WAD ≤ u128Max := by decide
  have hface : scaled * WAD / WAD = scaled := Nat.mul_div_cancel scaled WAD_pos
  have hpaid : scaled * (WAD - 1) / WAD = scaled - 1 := by
    rw [hwad] at hle ⊢
    omega
  rw [exitAmounts_eq_ok, h.scaleFactor, h.factor, hface, hpaid]
  refine ⟨(Nat.mul_le_mul_right WAD hle).trans hu128, ?_, by omega, rfl⟩
  exact (Nat.mul_le_mul hle (Nat.sub_le WAD 1)).trans hu128

theorem settled (h : Dusty k w config ma q) : ma.market.settlementFactorWad ≠ 0 := by
  rw [h.factor]
  decide

theorem settledPool (h : Dusty k w config ma q) :
    ({ ma with clock := w.clock, vault := w.tokens.amount (.vault Sample.market) } : Pool).Settled :=
  (Reachable.ledger h.reachable (World.pool_of_lookup h.lookup)).settled h.settled

theorem accrued (h : Dusty k w config ma q) :
    ma.market.maturityTimestamp ≤ w.clock ∧ accrueInterest ma.market config w.clock = .ok ma.market :=
  ⟨h.settledPool.matured, accrueInterest_matured config h.settledPool.accrued h.settledPool.matured⟩

theorem grace (h : Dusty k w config ma q) : checkGracePeriod w ma.market = .ok () :=
  checkGracePeriod_eq_ok.2 ⟨h.settledPool.grace.trans (Reachable.clock_le h.reachable), h.settledPool.grace⟩

theorem settles (h : Dusty k w config ma q) :
    settleOnWithdraw w ma.market (account (.vault Sample.market)) = .ok ma.market := by
  rw [settleOnWithdraw, if_neg h.settled]

theorem clear (h : Dusty k w config ma q) :
    checkBlacklist w (account (.blacklist config.blacklistProgram Sample.alice)) config Sample.alice = .ok () := by
  simp [checkBlacklist, account, h.program, h.blacklist, h.failOpen]

theorem scaled_le (h : Dusty k w config ma q) (hle : scaled ≤ q.scaledBalance) : scaled ≤ WAD :=
  hle.trans (h.balance.le.trans (Nat.sub_le WAD _))

/-- The next exit adds a unit to what is owed. -/
theorem newOwed_eq (h : Dusty k w config ma q) (hpos : 0 < scaled) (hle : scaled ≤ q.scaledBalance) :
    newOwed ma.market q scaled = k + 1 := by
  have hremaining : q.remaining ma.market.settlementFactorWad = k := by
    rw [h.factor, LenderPosition.remaining, h.haircutOwed, h.anchor]
    exact remaining_anchor (by decide)
  obtain ⟨-, -, -, hamounts⟩ := exitAmounts_eq_ok.1 (h.exitAmounts hpos (h.scaled_le hle))
  obtain ⟨hface, hpaid⟩ := Prod.mk.inj hamounts
  rw [newOwed, hremaining, ← hpaid, ← hface]
  omega

/-- And gets as far as its contribution. -/
theorem reaches (h : Dusty k w config ma q) (hk : k ≤ 340) (hpos : 0 < scaled) (hle : scaled ≤ q.scaledBalance) :
    ReachesContribution w ma q scaled ma.market where
  matured := h.accrued.1
  settled := ⟨config, _, h.accrued.2, .inl ⟨h.settled, rfl⟩⟩
  position := ⟨_, h.position⟩
  pos := hpos
  le := hle
  amounts := ⟨scaled, scaled - 1, h.exitAmounts hpos (h.scaled_le hle), Nat.sub_one_lt hpos.ne'⟩
  distress := by
    rw [h.factor]
    decide
  fits := by
    have hu64 : 341 ≤ u64Max := by decide
    rw [h.newOwed_eq hpos hle]
    omega

/-- The 341st unit is too much. -/
theorem overflows (h : Dusty 340 w config ma q) (hpos : 0 < scaled) (hle : scaled ≤ q.scaledBalance) :
    positionContribution (newOwed ma.market q scaled) ma.market.settlementFactorWad = .error mathOverflow := by
  rw [h.newOwed_eq hpos hle, h.factor]
  decide

/-- One more withdrawal. -/
private theorem step (h : Dusty k w config ma q) (hk : 1 ≤ k) (hk' : k < 340) :
    ∃ w' ma' q', Dusty (k + 1) w' config ma' q' := by
  have hw := Reachable.wellFormed h.reachable
  obtain ⟨hmatured, haccrue⟩ := h.accrued
  have hwad : WAD = 1000000000000000000 := rfl
  have hu64 : u64Max = 18446744073709551615 := rfl
  let t : Tracked :=
    { market := { ma.market with haircutAccumulator := k + 1 }
      position := { q with haircutOwed := k + 1, withdrawalSf := WAD - 1 }
      haircutState := { ma.haircutState with claimWeightSum := (k + 1) * WAD, claimOffsetSum := (k + 1) * (WAD - 1) }
      payout := 1 }
  have hremove : removeContribution ma.haircutState q.haircutOwed q.withdrawalSf =
      .ok { ma.haircutState with claimWeightSum := 0, claimOffsetSum := 0 } := by
    rw [removeContribution_eq_ok]
    exact ⟨_, by rw [h.haircutOwed, h.anchor]; exact contribution_pred hk'.le, by simp [h.weight, h.offset]⟩
  have hrebased : rebasedOwed q ma.market.settlementFactorWad = .ok k := by
    rw [rebasedOwed, if_neg (fun hx => hx.2 (h.anchor.trans h.factor.symm)), h.haircutOwed]
  have hadd : addContribution { ma.haircutState with claimWeightSum := 0, claimOffsetSum := 0 } (k + 1)
      ma.market.settlementFactorWad = .ok t.haircutState := by
    have hsucc : k + 1 ≤ 340 := hk'
    have hfits : (k + 1) * WAD ≤ 340 * WAD := Nat.mul_le_mul_right WAD hsucc
    have hfits' : (k + 1) * (WAD - 1) ≤ 340 * (WAD - 1) := Nat.mul_le_mul_right (WAD - 1) hsucc
    have hu128 : 340 * WAD ≤ u128Max := by decide
    have hu128' : 340 * (WAD - 1) ≤ u128Max := by decide
    rw [addContribution_eq_ok, h.factor]
    refine ⟨_, contribution_pred hsucc, ?_, ?_, by simp [t]⟩
    · rw [Nat.zero_add]
      exact hfits.trans hu128
    · rw [Nat.zero_add]
      exact hfits'.trans hu128'
  have hrecord : recordGap ma.market q ma.haircutState (2 - 1) 1 = .ok t := by
    rw [recordGap_eq_ok]
    refine ⟨_, k, _, hremove, hrebased, ?_, by omega, ?_, hadd, ?_⟩
    · rw [h.haircutOwed]
      omega
    · rw [h.haircutOwed, h.owed]
      omega
    · simp [t, h.haircutOwed, h.owed, h.factor]
  have htrack : trackHaircut ma Sample.market (account (.haircutState Sample.market)) ma.market q 2 1 = .ok t := by
    rw [trackHaircut, if_pos (by rw [h.factor]; decide)]
    simp only [bind_eq_ok, tryU64_eq_ok]
    refine ⟨2, ⟨by decide, rfl⟩, ?_⟩
    rw [if_pos (by decide)]
    simp only [bind_eq_ok, loadHaircutState_eq_ok]
    exact ⟨_, ⟨rfl, (hw.placed _ _ h.lookup).haircutState, rfl⟩, hrecord⟩
  obtain ⟨tokens, htransfer, hok⟩ := withdraw_succeeds hw h.configured (by simp [h.paused]) h.lookup hmatured h.clear
    haccrue h.position (by rw [h.balance]; omega)
    h.settles (by decide : 24 ≤ (leBytes 16 2 ++ leBytes 8 0).length) (asks_two _)
    (by rw [h.balance]; omega) (by rw [h.scaleFactor]; decide) (h.exitAmounts (by decide) (by decide)) (by decide)
    (by decide) h.wallet htrack
    (by show 2 ≤ ma.market.scaledTotalSupply; rw [h.supply]; omega) (by show 1 ≤ _; rw [h.vault]; omega)
  have hr := reachable_of_call h.reachable
    (by simp [withdrawAccounts, account, signer, Sample.alice, Address.isKey]) hok
    (show processInstruction w (withdrawAccounts Sample.market Sample.alice (Sample.wallet Sample.alice)
      config.blacklistProgram) (7 :: (leBytes 16 2 ++ leBytes 8 0)) = _ from rfl)
  have hdebit := TokenLedger.debited_of_transfer htransfer (by decide : Sample.wallet Sample.alice ≠ .vault _)
  let q' : LenderPosition := { t.position with scaledBalance := t.position.scaledBalance - 2 }
  let ma' : MarketAccounts :=
    { market := { t.market with
        scaledTotalSupply := t.market.scaledTotalSupply - 2
        totalDeposited := t.market.totalDeposited - t.payout }
      haircutState := t.haircutState
      positions := ma.positions.insert Sample.alice q' }
  refine ⟨{ w with tokens }.setMarket Sample.market ma', ma', q', hr, h.configured, h.paused, h.failOpen, h.program,
    h.blacklist, (hdebit.holder _).trans h.wallet, ?_, Finmap.lookup_insert _, Finmap.lookup_insert _, h.scaleFactor,
    h.factor, ?_, rfl, rfl, rfl, ?_, rfl, rfl⟩
  · exact hdebit.amount.trans (by rw [h.vault]; show WAD - 1 - k - 1 = _; omega)
  · show ma.market.scaledTotalSupply - 2 = WAD - 2 * (k + 1)
    rw [h.supply]
    omega
  · show q.scaledBalance - 2 = WAD - 2 * (k + 1)
    rw [h.balance]
    omega

end Dusty

private theorem exists_dusty (n : ℕ) (hn : n < 340) : ∃ w config ma q, Dusty (n + 1) w config ma q := by
  induction n with
  | zero => exact ⟨_, dusty_one⟩
  | succ n ih =>
    obtain ⟨w, config, ma, q, h⟩ := ih (by omega)
    obtain ⟨w', ma', q', h'⟩ := h.step (by omega) (by omega)
    exact ⟨w', config, ma', q', h'⟩

/-! ### When the arithmetic overflows -/

/-- An exit overflows exactly when what it leaves owed is too large for the distance of its anchor from par, and
`reSettle` exactly when the vault and the offsets together exceed `u128Max / WAD`. -/
theorem haircut_overflow_iff (h : Reachable w) (hma : w.markets.lookup a = some ma) :
    (∀ q scaled m, ReachesContribution w ma q scaled m →
      rebasedOwed q m.settlementFactorWad = .ok (q.remaining m.settlementFactorWad) ∧
      (positionContribution (newOwed m q scaled) m.settlementFactorWad ≠ .error mathOverflow ↔
        newOwed m q scaled * WAD ≤ u128Max / m.settlementFactorWad * (WAD - m.settlementFactorWad))) ∧
    (ma.market.settlementFactorWad ≠ 0 →
      (computeResettleFactor (w.tokens.amount ma.market.vault)
          (ma.market.scaledTotalSupply * ma.market.scaleFactor / WAD) ma.haircutState.claimWeightSum
          ma.haircutState.claimOffsetSum ≠ .error mathOverflow ↔
        ma.market.scaledTotalSupply * ma.market.scaleFactor / WAD + ma.haircutState.claimWeightSum = 0 ∨
          (w.tokens.amount ma.market.vault + ma.haircutState.claimOffsetSum) * WAD ≤ u128Max)) := by
  have hl := Reachable.books h hma
  constructor
  · intro q scaled m hr
    obtain ⟨config, m₀, -, hsettles⟩ := hr.settled
    constructor
    · exact hr.rebasedOwed_eq h hma
    · exact positionContribution_overflow_iff hr.fits (Nat.pos_of_ne_zero hsettles.ne_zero) hr.distress
  · intro h0
    exact computeResettleFactor_overflow_iff hl h0

/-- After the first withdrawal neither a second one nor `reSettle` overflows. -/
theorem haircut_overflow_iff_shortfall :
    ∃ ma q, (Sample.genesis.performAll Sample.shortfall).markets.lookup Sample.market = some ma ∧
      ReachesContribution (Sample.genesis.performAll Sample.shortfall) ma q 2 ma.market ∧
      ma.market.settlementFactorWad = WAD - 1 ∧ newOwed ma.market q 2 = 2 ∧
      positionContribution (newOwed ma.market q 2) ma.market.settlementFactorWad ≠ .error mathOverflow ∧
      computeResettleFactor ((Sample.genesis.performAll Sample.shortfall).tokens.amount ma.market.vault)
        (ma.market.scaledTotalSupply * ma.market.scaleFactor / WAD) ma.haircutState.claimWeightSum
        ma.haircutState.claimOffsetSum ≠ .error mathOverflow := by
  obtain ⟨config, ma, q, h⟩ := dusty_one
  have htwo : 2 ≤ q.scaledBalance := by rw [h.balance]; decide
  have hreaches := h.reaches (by decide) (by decide) htwo
  have howed := h.newOwed_eq (by decide) htwo
  have hvault := (Reachable.placed h.reachable h.lookup).vault
  obtain ⟨hexit, hresettle⟩ := haircut_overflow_iff h.reachable h.lookup
  refine ⟨ma, q, h.lookup, hreaches, h.factor, howed, ?_, ?_⟩
  · rw [(hexit q 2 ma.market hreaches).2, howed, h.factor]
    decide
  · rw [hresettle h.settled, hvault, h.vault, h.offset]
    exact .inr (by decide)

/-- After 340 withdrawals of two units the next one overflows, and so do a forced exit and `reSettle`. -/
theorem dust_overflows :
    ∃ w ma q, Reachable w ∧ w.markets.lookup Sample.market = some ma ∧ ma.market.settlementFactorWad = WAD - 1 ∧
      ma.positions.lookup Sample.alice = some q ∧ q.haircutOwed = 340 ∧ 2 ≤ q.scaledBalance ∧
      ReachesContribution w ma q 2 ma.market ∧ newOwed ma.market q 2 = 341 ∧
      positionContribution (newOwed ma.market q 2) ma.market.settlementFactorWad = .error mathOverflow ∧
      processInstruction w
          (withdrawAccounts Sample.market Sample.alice (Sample.wallet Sample.alice) Sample.blacklistProgram)
          (7 :: (leBytes 16 2 ++ leBytes 8 0)) = .error mathOverflow ∧
      processInstruction w
          (forceClosePositionAccounts Sample.market ma.market.borrower Sample.alice (Sample.wallet Sample.alice))
          [18] = .error mathOverflow ∧
      computeResettleFactor (w.tokens.amount ma.market.vault)
        (ma.market.scaledTotalSupply * ma.market.scaleFactor / WAD) ma.haircutState.claimWeightSum
        ma.haircutState.claimOffsetSum = .error mathOverflow ∧
      processInstruction w (reSettleAccounts Sample.market) [9] = .error mathOverflow := by
  obtain ⟨w, config, ma, q, h⟩ := exists_dusty 339 (by decide)
  have hp := Reachable.placed h.reachable h.lookup
  have hunpaused : ¬config.isPaused := by simp [h.paused]
  have htwo : 2 ≤ q.scaledBalance := by rw [h.balance]; decide
  have hall : 0 < q.scaledBalance := by omega
  have hreaches := h.reaches le_rfl (by decide) htwo
  have hwithdraw := withdraw_overflows h.reachable h.configured hunpaused h.lookup h.clear h.accrued.2 h.position
    h.settles (by decide : 24 ≤ (leBytes 16 2 ++ leBytes 8 0).length) (asks_two _) hreaches
    (h.exitAmounts (by decide) (by decide)) (by decide) (by decide) h.wallet (h.overflows (by decide) htwo)
  rw [h.program] at hwithdraw
  have hforce := forceClosePosition_overflows h.reachable h.configured hunpaused h.lookup h.grace h.accrued.2 h.position
    (by rw [settleOnForceClose, if_neg h.settled]) (h.reaches le_rfl hall le_rfl)
    (h.exitAmounts hall (h.scaled_le le_rfl)) (by rw [hp.mint]; exact h.wallet) (h.overflows hall le_rfl)
  have hfactor : computeResettleFactor (w.tokens.amount ma.market.vault)
      (ma.market.scaledTotalSupply * ma.market.scaleFactor / WAD) ma.haircutState.claimWeightSum
      ma.haircutState.claimOffsetSum = .error mathOverflow := by
    rw [hp.vault, h.vault, h.supply, h.scaleFactor, h.weight, h.offset]
    decide
  exact ⟨w, ma, q, h.reachable, h.lookup, h.factor, h.position, h.haircutOwed, htwo, hreaches,
    h.newOwed_eq (by decide) htwo, h.overflows (by decide) htwo, hwithdraw, hforce, hfactor,
    reSettle_overflows h.reachable h.configured hunpaused h.lookup h.settled hfactor⟩

end Coalesce
