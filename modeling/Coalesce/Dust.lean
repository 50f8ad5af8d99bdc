import Coalesce.Recycling
import Coalesce.Solvency

/-!
# What distress leaves in the vault

The factor of a distressed market hands out the whole vault, as far as whole units allow: whatever the lenders do
after it is fixed, the vault holds no more than their units and open haircuts can take out at this factor, but for a
few units for each exit and claim.  So nothing lies idle that a lender with a haircut could have had.
-/

namespace Coalesce

variable {w w₁ w' : World} {a : Address} {ma ma₁ ma' : MarketAccounts} {p : Pool} {e : Option Event}

/-- The line of a position lies above its claim by less than two units, and by none without a haircut. -/
theorem LenderPosition.Anchored.line_lt_claimable {q : LenderPosition} {s : ℕ} (h : q.Anchored s) (hs : s < WAD) :
    q.weight * s ≤ (q.offset + q.claimable s) * WAD + (if 0 < q.haircutOwed then 1 else 0) * (2 * WAD) := by
  by_cases howed : 0 < q.haircutOwed
  · obtain ⟨-, hle⟩ := ProRata.line_bounds (h := q.haircutOwed) h.lt_wad h.le_factor hs.le
    have hlt := Nat.lt_mul_div_succ (q.weight * s) WAD_pos
    have hbound : WAD * (q.weight * s / WAD + 1) ≤ WAD * (q.claimable s + q.offset + 1 + 1) :=
      Nat.mul_le_mul_left _ (Nat.succ_le_succ hle)
    rw [if_pos howed]
    calc q.weight * s ≤ WAD * (q.claimable s + q.offset + 1 + 1) := (hlt.trans_le hbound).le
      _ = (q.offset + q.claimable s) * WAD + 1 * (2 * WAD) := by ring
  · rw [(h.line_zero (by omega)).1, Nat.zero_mul]
    exact Nat.zero_le _

/-- The lines of the books lie above the claims by less than two units for each open haircut. -/
theorem Pool.Ledger.line_le_claimable (h : p.Ledger) (hlt : p.market.settlementFactorWad < WAD) :
    p.haircutState.claimWeightSum * p.market.settlementFactorWad ≤
      (p.haircutState.claimOffsetSum + p.claimable p.market.settlementFactorWad) * WAD +
        p.openHaircuts * (2 * WAD) := by
  rw [h.weight, h.offset, Pool.claimable, MarketAccounts.openHaircuts, ← Finmap.total_add, ← Finmap.total_mul,
    ← Finmap.total_mul, ← Finmap.total_mul, ← Finmap.total_add]
  apply Finmap.total_le_total
  intro l q hq
  exact (h.anchored l q hq).line_lt_claimable hlt

/-- Let a step fix the factor of a market below `WAD`.  As long as no token comes in, and until the factor is fixed
again, the vault holds no more than the remaining units and the open haircuts can take out at the factor, but for the
rounding of the factor itself, four units for each exit and claim, and two for each open haircut. -/
theorem distress_pays_out (h : Reachable w) (hs : Step w e w₁) (hma : w.markets.lookup a = some ma)
    (hma₁ : w₁.markets.lookup a = some ma₁)
    (hfixed : ma₁.market.settlementFactorWad ≠ ma.market.settlementFactorWad)
    (hlt : ma₁.market.settlementFactorWad < WAD) {hist : List Record} (r : Run w₁ hist w')
    (hquiet : ∀ x ∈ hist, Quiet a x) (hma' : w'.markets.lookup a = some ma') :
    ma'.market.settlementFactorWad = ma₁.market.settlementFactorWad ∧
      w'.tokens.amount (.vault a) * WAD <
        ma'.market.scaledTotalSupply * ma'.market.scaleFactor / WAD * ma'.market.settlementFactorWad +
          ma'.positions.total (LenderPosition.claimable · ma'.market.settlementFactorWad) * WAD +
        (ma.market.scaledTotalSupply * ma₁.market.scaleFactor / WAD + ma.haircutState.claimWeightSum) +
        (4 * operations a (hist ++ [⟨w, e, w₁⟩]) + 2 * ma'.openHaircuts) * WAD := by
  have hp := World.pool_of_lookup hma
  obtain ⟨p₁, hp₁, hstep⟩ := hs.pool (Reachable.wellFormed h) hp
  obtain rfl := Option.some.inj (hma₁.symm.trans (World.pool_eq_some.1 hp₁).1)
  obtain ⟨hne, hstart⟩ := surplus_start hstep (Reachable.ledger h hp) hfixed hlt
  have hr₁ : Reachable w₁ := .step h hs
  obtain ⟨p', hp', hfactor, hend⟩ := surplus_run hr₁ hp₁ hne hlt hstart r hquiet
  obtain ⟨hma'', -, hvault⟩ := World.pool_eq_some.1 hp'
  obtain rfl := Option.some.inj (hma'.symm.trans hma'')
  refine ⟨hfactor, ?_⟩
  have hops : operations a (hist ++ [⟨w, e, w₁⟩]) =
      operations a hist + if (e.bind (Event.served a)).isSome then 1 else 0 := by
    simp [operations, served, List.countP_cons]
  have hline := (Reachable.ledger (r.reachable hr₁) hp').line_le_claimable (hfactor.trans_lt hlt)
  have hsurplus := (le_max_right _ _).trans_lt hend
  rw [← hfactor] at hsurplus
  unfold Pool.surplus Pool.face at hsurplus
  unfold Pool.claimable at hline
  dsimp only at hsurplus hline
  rw [← hvault, hops]
  generalize p'.market.scaledTotalSupply * p'.market.scaleFactor / WAD = face at hsurplus ⊢
  generalize ma.market.scaledTotalSupply * p₁.market.scaleFactor / WAD = face₀ at hsurplus ⊢
  zify at hline ⊢
  linarith

/-- Alice's exit settles the market at one half and Bob exits after her: 6 are left for 12 units. -/
theorem distress_pays_out_two_exits :
    ∃ w' ma', w' = ((Sample.genesis.performAll Sample.defaulted).performAll
        [Sample.withdraw Sample.alice 2]).performAll [Sample.withdraw Sample.bob 2] ∧
      w'.markets.lookup Sample.market = some ma' ∧ w'.tokens.amount (.vault Sample.market) = 6 ∧
      6 * WAD < 12 * 500000000000000000 + 0 * WAD + (16 + 0) + (4 * 2 + 2 * ma'.openHaircuts) * WAD := by
  let w := Sample.genesis.performAll Sample.defaulted
  let w₁ := w.performAll [Sample.withdraw Sample.alice 2]
  let w' := w₁.performAll [Sample.withdraw Sample.bob 2]
  have hr : Reachable w := World.performAll_reachable Sample.genesis_reachable _
  obtain ⟨hs, -⟩ := World.performAll_single (show (w.perform (Sample.withdraw Sample.alice 2)).map Prod.snd =
    some (some (.withdraw Sample.market Sample.alice 1 2)) by decide +kernel)
  obtain ⟨-, hhist⟩ := World.performAll_single (show (w₁.perform (Sample.withdraw Sample.bob 2)).map Prod.snd =
    some (some (.withdraw Sample.market Sample.bob 1 2)) by decide +kernel)
  have hquiet : ∀ x ∈ w₁.history [Sample.withdraw Sample.bob 2], Quiet Sample.market x := by
    rw [hhist, List.forall_mem_singleton]
    exact ⟨by simp, by decide +kernel⟩
  obtain ⟨ma, hma, hx⟩ := Option.map_eq_some_iff.1
    (show (w.markets.lookup Sample.market).map (fun ma => (ma.market.settlementFactorWad,
      ma.market.scaledTotalSupply, ma.haircutState.claimWeightSum)) = some (0, 16, 0) by decide +kernel)
  obtain ⟨ma₁, hma₁, hx₁⟩ := Option.map_eq_some_iff.1
    (show (w₁.markets.lookup Sample.market).map (fun ma => (ma.market.settlementFactorWad, ma.market.scaleFactor)) =
      some (500000000000000000, WAD) by decide +kernel)
  obtain ⟨ma', hma', hx'⟩ := Option.map_eq_some_iff.1
    (show (w'.markets.lookup Sample.market).map (fun ma => (w'.tokens.amount (.vault Sample.market),
      ma.market.scaledTotalSupply * ma.market.scaleFactor / WAD,
      ma.positions.total (LenderPosition.claimable · 500000000000000000))) = some (6, 12, 0) by decide +kernel)
  simp only [Prod.mk.injEq] at hx hx₁ hx'
  obtain ⟨hfactor, hsupply, hweight⟩ := hx
  obtain ⟨hfactor₁, hscale⟩ := hx₁
  obtain ⟨hvault, hface, hclaims⟩ := hx'
  obtain ⟨hfactor', hbound⟩ := distress_pays_out hr hs hma hma₁ (by rw [hfactor, hfactor₁]; decide)
    (by rw [hfactor₁]; decide) (World.performAll_run w₁ _) hquiet hma'
  have hops : operations Sample.market (w₁.history [Sample.withdraw Sample.bob 2] ++
      [⟨w, some (.withdraw Sample.market Sample.alice 1 2), w₁⟩]) = 2 := by
    rw [hhist]
    decide +kernel
  rw [hfactor', hfactor₁, hvault, hface, hclaims, hsupply, hscale, hweight, hops, Nat.mul_div_cancel _ WAD_pos]
    at hbound
  exact ⟨w', ma', rfl, hma', hvault, hbound⟩

end Coalesce
