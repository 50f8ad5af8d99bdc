import Coalesce.Ledger
import Mathlib.Order.Bounds.Basic

/-!
# Solvency

What the ledger gives in a single reachable state: the aggregates are the sums over the positions, the vault covers
every lender once the market is settled at par, and `reSettle` picks the largest factor that its books justify.
-/

namespace Coalesce

open ProRata

variable {w w' : World} {a : Address} {ma : MarketAccounts}

namespace Reachable

theorem placed (h : Reachable w) (hma : w.markets.lookup a = some ma) : ma.Placed a :=
  (Reachable.wellFormed h).placed a ma hma

/-- The ledger of a market, by its accounts. -/
theorem books (h : Reachable w) (hma : w.markets.lookup a = some ma) :
    Pool.Ledger { ma with clock := w.clock, vault := w.tokens.amount ma.market.vault } := by
  rw [(Reachable.placed h hma).vault]
  exact Reachable.ledger h (World.pool_of_lookup hma)

end Reachable

/-! ### The aggregates -/

/-- The aggregates of a market are the sums over its positions, so subtracting what a single position contributes
never saturates, and a position that is closed carries no obligation. -/
theorem aggregates_eq_sums (h : Reachable w) (hma : w.markets.lookup a = some ma) :
    ma.market.scaledTotalSupply = ma.positions.total LenderPosition.scaledBalance ∧
    ma.market.haircutAccumulator = ma.positions.total LenderPosition.haircutOwed ∧
    (∀ l q, ma.positions.lookup l = some q →
      positionContribution q.haircutOwed q.withdrawalSf = .ok (q.weight, q.offset)) ∧
    ma.haircutState.claimWeightSum = ma.positions.total LenderPosition.weight ∧
    ma.haircutState.claimOffsetSum = ma.positions.total LenderPosition.offset ∧
    (∀ l q, ma.positions.lookup l = some q →
      (0 < q.haircutOwed →
        1 ≤ q.withdrawalSf ∧ q.withdrawalSf ≤ ma.market.settlementFactorWad ∧ q.withdrawalSf < WAD) ∧
      (q.haircutOwed = 0 → q.withdrawalSf = 0)) ∧
    (∀ l q, ma.positions.lookup l = some q →
      q.weight ≤ ma.haircutState.claimWeightSum ∧ q.offset ≤ ma.haircutState.claimOffsetSum ∧
      q.haircutOwed ≤ ma.market.haircutAccumulator) ∧
    (∀ l w', Step w (some (.closePosition a l)) w' →
      ∃ q, ma.positions.lookup l = some q ∧ q.scaledBalance = 0 ∧ q.haircutOwed = 0) := by
  have hl := Reachable.books h hma
  refine ⟨hl.supply, hl.owed, ?_, hl.weight, hl.offset, ?_, ?_, ?_⟩
  · intro l q hq
    exact (hl.anchored l q hq).contribution (hl.owed_u64 hq)
  · intro l q hq
    obtain ⟨hlt, hle, hzero, -⟩ := hl.anchored l q hq
    refine ⟨?_, hzero.1⟩
    intro hpos
    have : q.withdrawalSf ≠ 0 := fun h0 => hpos.ne' (hzero.2 h0)
    exact ⟨by omega, hle, hlt⟩
  · intro l q hq
    exact ⟨hl.weight_ge hq, hl.offset_ge hq, hl.owed_ge hq⟩
  · intro l w' hs
    obtain ⟨p', -, hstep⟩ := hs.pool (Reachable.wellFormed h) (World.pool_of_lookup hma)
    cases hstep with
    | idle he => exact absurd rfl he
    | exit _ _ _ _ _ _ _ _ _ _ he => rcases he with he | he <;> cases he
    | claim _ _ _ _ _ _ he => rcases he with he | he <;> cases he
    | close hposition hbalance howed => exact ⟨_, hposition, hbalance, howed⟩

theorem aggregates_eq_sums_haircut : ∃ ma, (Sample.genesis.performAll Sample.haircut).markets.lookup Sample.market =
      some ma ∧ ma.market.haircutAccumulator = 2 ∧ ma.positions.total LenderPosition.haircutOwed = 2 ∧
      ma.haircutState.claimWeightSum = 4 ∧ ma.positions.total LenderPosition.weight = 4 := by
  obtain ⟨ma, hma, hx⟩ := Option.map_eq_some_iff.1
    (show ((Sample.genesis.performAll Sample.haircut).markets.lookup Sample.market).map
      (fun ma => (ma.market.haircutAccumulator, ma.haircutState.claimWeightSum)) = some (2, 4) by decide +kernel)
  obtain ⟨hacc, hw⟩ := Prod.mk.inj hx
  obtain ⟨-, h2, -, h4, -⟩ := aggregates_eq_sums (World.performAll_reachable Sample.genesis_reachable _) hma
  exact ⟨ma, hma, hacc, h2.symm.trans hacc, hw, h4.symm.trans hw⟩

/-! ### Par -/

/-- At full settlement the vault holds the face value of all remaining units and every open haircut. -/
theorem vault_covers_at_par (h : Reachable w) (hma : w.markets.lookup a = some ma)
    (hpar : ma.market.settlementFactorWad = WAD) :
    ma.market.scaledTotalSupply * ma.market.scaleFactor / WAD + ma.market.haircutAccumulator ≤
      w.tokens.amount ma.market.vault :=
  (Reachable.books h hma).solvent hpar

namespace Sample

/-- The borrower pays back everything, and the market is settled again at par. -/
def restored : List Action := haircut ++ [repay 8, reSettle]

end Sample

theorem vault_covers_at_par_restored :
    ∃ ma, (Sample.genesis.performAll Sample.restored).markets.lookup Sample.market = some ma ∧
      ma.market.scaledTotalSupply = 12 ∧ ma.market.haircutAccumulator = 2 ∧
      12 + 2 ≤ (Sample.genesis.performAll Sample.restored).tokens.amount ma.market.vault := by
  obtain ⟨ma, hma, hx⟩ := Option.map_eq_some_iff.1
    (show ((Sample.genesis.performAll Sample.restored).markets.lookup Sample.market).map
      (fun ma => (ma.market.settlementFactorWad, ma.market.scaledTotalSupply, ma.market.scaleFactor,
        ma.market.haircutAccumulator)) = some (WAD, 12, WAD, 2) by decide +kernel)
  simp only [Prod.mk.injEq] at hx
  obtain ⟨hpar, hsupply, hfactor, hacc⟩ := hx
  have hcover := vault_covers_at_par (World.performAll_reachable Sample.genesis_reachable _) hma hpar
  rw [hsupply, hfactor, hacc, Nat.mul_div_cancel _ WAD_pos] at hcover
  exact ⟨ma, hma, hsupply, hacc, hcover⟩

/-! ### The factor of `reSettle` -/

namespace Pool

/-- What all open haircuts can claim at the factor `s`. -/
def claimable (p : Pool) (s : ℕ) : ℕ := p.positions.total fun q => q.claimable s

namespace Ledger

variable {p : Pool}

/-- The line of the aggregate lies above the claims. -/
theorem claimable_le_line (h : p.Ledger) {s : ℕ} (hs : p.market.settlementFactorWad ≤ s) :
    p.haircutState.claimOffsetSum * WAD + p.claimable s * WAD ≤ p.haircutState.claimWeightSum * s := by
  rw [h.offset, h.weight, claimable, ← Finmap.total_mul, ← Finmap.total_mul, ← Finmap.total_mul, ← Finmap.total_add]
  apply Finmap.total_le_total
  intro l q hq
  obtain ⟨hlt, hle, -, -⟩ := h.anchored l q hq
  exact le_line hlt (hle.trans hs) (claimable_bounds hlt).1

/-- A factor that the books justify promises no more than the vault holds. -/
theorem covered_of_factor (h : p.Ledger) {s : ℕ} (hs : p.market.settlementFactorWad ≤ s)
    (hbound : s * (p.face + p.haircutState.claimWeightSum) ≤ WAD * (p.vault + p.haircutState.claimOffsetSum)) :
    p.face * s / WAD + p.claimable s ≤ p.vault := by
  have hline := h.claimable_le_line hs
  have hfloor := Nat.div_mul_le_self (p.face * s) WAD
  refine Nat.le_of_mul_le_mul_right ?_ WAD_pos
  calc (p.face * s / WAD + p.claimable s) * WAD
      = p.face * s / WAD * WAD + p.claimable s * WAD := add_mul _ _ _
    _ ≤ p.face * s + p.claimable s * WAD := Nat.add_le_add_right hfloor _
    _ ≤ p.vault * WAD := by
      rw [mul_add, mul_add, mul_comm s, mul_comm s, mul_comm WAD, mul_comm WAD] at hbound
      omega

end Ledger

end Pool

/-- The factor of `computeResettleFactor`, when it exceeds 1, is the largest one that the books justify. -/
theorem computeResettleFactor_largest {v r wSum oSum f : ℕ} (h : computeResettleFactor v r wSum oSum = .ok f)
    (hf : 1 < f) :
    f ≤ WAD ∧ f * (r + wSum) ≤ WAD * (v + oSum) ∧
      ∀ g, g ≤ WAD → g * (r + wSum) ≤ WAD * (v + oSum) → g ≤ f := by
  refine ⟨computeResettleFactor_le h, ?_⟩
  rcases computeResettleFactor_eq_ok.1 h with ⟨-, ⟨h0, rfl⟩ | ⟨h0, -, rfl⟩⟩
  · rw [h0]
    exact ⟨Nat.zero_le _, fun g hg _ => hg⟩
  · constructor
    · refine (Nat.mul_le_mul_right _ (clampFactor_le (.inl hf))).trans ?_
      rw [mul_comm WAD]
      exact Nat.div_mul_le_self _ _
    · intro g hg hbound
      apply le_clampFactor _ hg
      rw [Nat.le_div_iff_mul_le (Nat.pos_of_ne_zero h0), mul_comm _ WAD]
      exact hbound

theorem reSettle_event {accounts : List AccountMeta} {e : Event} (h : reSettle w accounts = .ok (w', e)) :
    ∃ a f, e = .reSettle a f := by
  unfold reSettle at h
  split at h
  · simp only [bind_eq_ok, Except.ok.injEq, Prod.mk.injEq] at h
    obtain ⟨_, -, _, -, _, -, _, -, _, -, _, -, _, -, _, -, _, -, _, -, _, -, _, -, _, -, -, rfl⟩ := h
    exact ⟨_, _, rfl⟩
  · cases h

/-- `reSettle` sets the largest factor that the aggregates justify.  It is above the old one, and the vault covers
all remaining units and all claims at the new factor. -/
theorem reSettle_largest_factor (h : Reachable w) {accounts : List AccountMeta} {e : Event}
    (hok : reSettle w accounts = .ok (w', e)) :
    ∃ a ma f, e = .reSettle a f ∧ w.markets.lookup a = some ma ∧
      w'.markets.lookup a = some { ma with market := { ma.market with settlementFactorWad := f } } ∧
      w'.tokens.amount ma.market.vault = w.tokens.amount ma.market.vault ∧
      (∀ l q, ma.positions.lookup l = some q →
        positionContribution q.haircutOwed q.withdrawalSf = .ok (q.weight, q.offset) ∧
        claimableExact q.haircutOwed q.withdrawalSf f = .ok (q.claimable f)) ∧
      IsGreatest
        {g | 1 ≤ g ∧ g ≤ WAD ∧
          g * (ma.market.scaledTotalSupply * ma.market.scaleFactor / WAD + ma.positions.total LenderPosition.weight) ≤
            WAD * (w.tokens.amount ma.market.vault + ma.positions.total LenderPosition.offset)} f ∧
      ma.market.settlementFactorWad < f ∧
      ma.market.scaledTotalSupply * ma.market.scaleFactor / WAD * f / WAD +
        ma.positions.total (LenderPosition.claimable · f) ≤ w.tokens.amount ma.market.vault := by
  have hw := Reachable.wellFormed h
  obtain ⟨a, f, rfl⟩ := reSettle_event hok
  obtain ⟨b, hacts, -⟩ := reSettle_accrues hw hok
  obtain rfl := Option.some.inj hacts.event
  obtain ⟨p, p', hp, hp', hstep⟩ := hacts.pool
  have hl := Reachable.ledger h hp
  obtain ⟨hma, -, hvault⟩ := World.pool_eq_some.1 hp
  obtain ⟨hma', -, hvault'⟩ := World.pool_eq_some.1 hp'
  rw [← (hw.placed _ _ hma).vault] at hvault hvault'
  cases hstep with
  | idle he => exact absurd rfl he
  | exit _ _ _ _ _ _ _ _ _ _ he => rcases he with he | he <;> cases he
  | claim _ _ _ _ _ _ he => rcases he with he | he <;> cases he
  | reSettle hsettled haccrue htotal hfactor himproved =>
    obtain rfl := hl.accrue_settled haccrue hsettled
    obtain ⟨-, rfl⟩ := totalNormalized_eq_ok.1 htotal
    obtain ⟨hle, hbound, hgreatest⟩ := computeResettleFactor_largest hfactor (by omega)
    have hcovered := hl.covered_of_factor himproved.le hbound
    rw [hl.weight, hl.offset] at hbound hgreatest
    rw [hvault] at hbound hgreatest hcovered
    refine ⟨_, _, _, rfl, hma, hma', hvault'.symm.trans hvault, ?_, ⟨⟨by omega, hle, hbound⟩, ?_⟩, himproved,
      hcovered⟩
    · intro l q hq
      have hq' := hl.anchored l q hq
      exact ⟨hq'.contribution (hl.owed_u64 hq), claimableExact_eq (hl.owed_u64 hq) hq'.lt_wad hle⟩
    · rintro g ⟨-, hg, hg'⟩
      exact hgreatest g hg hg'

namespace Sample

/-- Half of the borrowed tokens come back. -/
def halfRepaid : List Action := haircut ++ [repay 4]

end Sample

/-- The new factor is three quarters: 12 remaining units with 2 open haircuts of weight 4 and offset 2 share 10. -/
theorem reSettle_largest_factor_halfRepaid :
    ∃ w', reSettle (Sample.genesis.performAll Sample.halfRepaid) (reSettleAccounts Sample.market) =
        .ok (w', .reSettle Sample.market 750000000000000000) ∧
      ∃ ma, (Sample.genesis.performAll Sample.halfRepaid).markets.lookup Sample.market = some ma ∧
        ma.market.scaledTotalSupply * ma.market.scaleFactor / WAD * 750000000000000000 / WAD +
          ma.positions.total (LenderPosition.claimable · 750000000000000000) ≤
            (Sample.genesis.performAll Sample.halfRepaid).tokens.amount ma.market.vault := by
  obtain ⟨⟨w', e⟩, hok, he⟩ := exists_ok_of_toOption
    (show (reSettle (Sample.genesis.performAll Sample.halfRepaid)
      (reSettleAccounts Sample.market)).toOption.map Prod.snd =
      some (.reSettle Sample.market 750000000000000000) by decide +kernel)
  obtain rfl : e = _ := he
  obtain ⟨a, ma, f, hf, hma, -, -, -, -, -, hcovered⟩ := reSettle_largest_factor
    (World.performAll_reachable Sample.genesis_reachable _) hok
  obtain ⟨rfl, rfl⟩ := Event.reSettle.inj hf
  exact ⟨w', hok, ma, hma, hcovered⟩

/-! ### Leaving distress -/

/-- The number of positions with an open haircut. -/
def MarketAccounts.openHaircuts (ma : MarketAccounts) : ℕ :=
  ma.positions.total fun q => if 0 < q.haircutOwed then 1 else 0

/-- The line of a position reserves its haircut, and at most one unit more. -/
theorem LenderPosition.Anchored.reserve_le {q : LenderPosition} {factor : ℕ} (h : q.Anchored factor) :
    q.weight ≤ q.offset + q.haircutOwed + if 0 < q.haircutOwed then 1 else 0 := by
  by_cases howed : 0 < q.haircutOwed
  · rw [if_pos howed]
    exact (reserve_bounds h.lt_wad).2
  · rw [(h.line_zero (by omega)).1]
    exact Nat.zero_le _

/-- The aggregate reserves the open haircuts, and at most one unit more for each of them. -/
theorem Pool.Ledger.reserve_le_openHaircuts {p : Pool} (h : p.Ledger) :
    p.haircutState.claimWeightSum ≤
      p.haircutState.claimOffsetSum + p.market.haircutAccumulator + p.openHaircuts := by
  rw [h.weight, h.offset, h.owed, MarketAccounts.openHaircuts, ← Finmap.total_add, ← Finmap.total_add]
  apply Finmap.total_le_total
  intro l q hq
  exact (h.anchored l q hq).reserve_le

/-- A vault that covers the face value and the reserve restores the factor. -/
theorem computeResettleFactor_par {v r wSum oSum : ℕ} (hcover : r + wSum ≤ v + oSum)
    (hfits : computeResettleFactor v r wSum oSum ≠ .error LendingError.mathOverflow) :
    computeResettleFactor v r wSum oSum = .ok WAD := by
  cases hf : computeResettleFactor v r wSum oSum with
  | error e => exact absurd (hf.trans (by rw [computeResettleFactor_error hf])) hfits
  | ok f =>
    obtain ⟨-, ⟨-, rfl⟩ | ⟨h0, -, rfl⟩⟩ := computeResettleFactor_eq_ok.1 hf
    · rfl
    · have hraw : WAD ≤ (v + oSum) * WAD / (r + wSum) := by
        rw [Nat.le_div_iff_mul_le (Nat.pos_of_ne_zero h0), mul_comm]
        exact Nat.mul_le_mul_right _ hcover
      rw [le_antisymm (clampFactor_bounds _).2 (le_clampFactor hraw le_rfl)]

theorem reSettle_succeeds (hw : WellFormed w) {config : ProtocolConfig} (hconfig : w.config = some config)
    (hpaused : ¬config.isPaused) (hma : w.markets.lookup a = some ma) (hsettled : ma.market.settlementFactorWad ≠ 0)
    {m : Market} (haccrue : accrueInterest ma.market config w.clock = .ok m) (hscale : m.scaleFactor ≠ 0) {total f : ℕ}
    (htotal : totalNormalized m = .ok total)
    (hf : computeResettleFactor (w.tokens.amount ma.market.vault) total ma.haircutState.claimWeightSum
      ma.haircutState.claimOffsetSum = .ok f)
    (himproved : ma.market.settlementFactorWad < f) :
    reSettle w (reSettleAccounts a) =
      .ok (w.setMarket a { ma with market := { m with settlementFactorWad := f } }, .reSettle a f) := by
  have hp := hw.placed a ma hma
  have hholder := hw.vault a ma hma
  unfold TokenLedger.holder at hholder
  obtain ⟨vt, hvt, -⟩ := Option.map_eq_some_iff.1 hholder
  rw [hp.vault, TokenLedger.amount_eq hvt] at hf
  simp only [reSettle, reSettleAccounts, account, bind_eq_ok, require_eq_ok, requireTokenOwned, validateMarketState,
    loadMarket_eq_ok, loadProtocolConfig_eq_ok, loadTokenAccount_eq_ok, loadHaircutState_eq_ok, exists_const, true_and,
    Except.ok.injEq]
  exact ⟨ma, ⟨hma, hp.address⟩, hp.vault, hsettled, config, hconfig, hpaused, m, haccrue, by simp [hvt], vt, hvt,
    hscale, total, htotal, _, ⟨hp.haircutState, rfl⟩, f, hf, himproved, rfl⟩

/-- Each open haircut is reserved with at most one unit too much.  So a vault with one unit more for each of them than
it needs at par lets the market leave distress. -/
theorem reSettle_restores (h : Reachable w) (hma : w.markets.lookup a = some ma) :
    (∀ l q, ma.positions.lookup l = some q →
      positionContribution q.haircutOwed q.withdrawalSf = .ok (q.weight, q.offset) ∧
        q.offset + q.haircutOwed ≤ q.weight ∧ q.weight ≤ q.offset + q.haircutOwed + 1) ∧
    (1 ≤ ma.market.settlementFactorWad → ma.market.settlementFactorWad < WAD →
      ma.market.scaledTotalSupply * ma.market.scaleFactor / WAD + ma.market.haircutAccumulator + ma.openHaircuts ≤
        w.tokens.amount ma.market.vault →
      computeResettleFactor (w.tokens.amount ma.market.vault)
          (ma.market.scaledTotalSupply * ma.market.scaleFactor / WAD) ma.haircutState.claimWeightSum
          ma.haircutState.claimOffsetSum ≠ .error LendingError.mathOverflow →
      computeResettleFactor (w.tokens.amount ma.market.vault)
          (ma.market.scaledTotalSupply * ma.market.scaleFactor / WAD) ma.haircutState.claimWeightSum
          ma.haircutState.claimOffsetSum = .ok WAD ∧
        ∀ config, w.config = some config → ¬config.isPaused →
          reSettle w (reSettleAccounts a) =
            .ok (w.setMarket a { ma with market := { ma.market with settlementFactorWad := WAD } },
              .reSettle a WAD)) := by
  have hl := Reachable.books h hma
  constructor
  · intro l q hq
    have hq' := hl.anchored l q hq
    exact ⟨hq'.contribution (hl.owed_u64 hq), reserve_bounds hq'.lt_wad⟩
  · intro hpos hlt hvault hfits
    have hsettled : ma.market.settlementFactorWad ≠ 0 := by omega
    have hs := hl.settled hsettled
    have hreserve : ma.haircutState.claimWeightSum ≤
        ma.haircutState.claimOffsetSum + ma.market.haircutAccumulator + ma.openHaircuts := hl.reserve_le_openHaircuts
    have hfactor := computeResettleFactor_par (by omega) hfits
    refine ⟨hfactor, ?_⟩
    intro config hconfig hpaused
    exact reSettle_succeeds (Reachable.wellFormed h) hconfig hpaused hma hsettled
      (accrueInterest_matured config hs.accrued hs.matured) (WAD_pos.trans_le hl.wad_le).ne'
      (totalNormalized_eq_ok.2 ⟨hs.face_fits, rfl⟩) hfactor hlt

namespace Sample

def repayInterest (amount : ℕ) : Action :=
  .instruction [account market, signer borrower, account (wallet borrower), vault, config, account TOKEN_PROGRAM_ID]
    (6 :: leBytes 8 amount)

/-- Two tokens more than the vault needs at par, one for each of the two open haircuts. -/
def covered : List Action := haircut ++ [repay 8, repayInterest 2]

end Sample

theorem reSettle_restores_covered :
    ∃ ma w', (Sample.genesis.performAll Sample.covered).markets.lookup Sample.market = some ma ∧
      ma.market.settlementFactorWad = 500000000000000000 ∧ ma.openHaircuts = 2 ∧
      reSettle (Sample.genesis.performAll Sample.covered) (reSettleAccounts Sample.market) =
        .ok (w', .reSettle Sample.market WAD) := by
  obtain ⟨ma, hma, hx⟩ := Option.map_eq_some_iff.1
    (show ((Sample.genesis.performAll Sample.covered).markets.lookup Sample.market).map (fun ma =>
      [ma.market.settlementFactorWad, ma.openHaircuts, ma.market.scaledTotalSupply * ma.market.scaleFactor / WAD,
        ma.market.haircutAccumulator, ma.haircutState.claimWeightSum, ma.haircutState.claimOffsetSum,
        (Sample.genesis.performAll Sample.covered).tokens.amount ma.market.vault]) =
      some [500000000000000000, 2, 12, 2, 4, 2, 16] by decide +kernel)
  obtain ⟨config, hconfig, hpaused⟩ := Option.map_eq_some_iff.1
    (show (Sample.genesis.performAll Sample.covered).config.map ProtocolConfig.isPaused = some false by decide +kernel)
  simp only [List.cons.injEq, and_true] at hx
  obtain ⟨hfactor, hopen, hface, howed, hweight, hoffset, hvault⟩ := hx
  have hreachable := World.performAll_reachable Sample.genesis_reachable Sample.covered
  obtain ⟨-, hrestores⟩ := reSettle_restores hreachable hma
  rw [hfactor, hface, howed, hopen, hweight, hoffset, hvault] at hrestores
  obtain ⟨-, hok⟩ := hrestores (by decide) (by decide) (by decide) (by decide)
  exact ⟨ma, _, hma, hfactor, hopen, hok config hconfig (by rw [hpaused]; decide)⟩

end Coalesce
