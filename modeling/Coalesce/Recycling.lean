import Coalesce.History

/-!
# Exits cannot recycle tokens into a better factor

Without new tokens the factor that `reSettle` would choose moves only by rounding.  The potential is the `surplus`
of the books at the current factor `s`: the vault and the offsets, less the part `s / WAD` of the face value and the
weights.  An exit or a claim raises it by less than four units, and a claim that is capped at the vault surplus leaves
none.
-/

namespace Coalesce

open ProRata

variable {w w₁ w' : World} {a : Address} {ma ma₁ ma' : MarketAccounts} {p p' : Pool} {e : Option Event}

/-! ### The lines of the books -/

section Lines

variable {m : Market} {q : LenderPosition} {hs : HaircutState} {t : Tracked}

/-- Replacing the line of a position by one anchored at or below the current factor frees what the old line has
recovered, and less than two units more. -/
theorem Tracked.Balanced.line_le (hb : t.Balanced m q hs) (hq : q.Anchored m.settlementFactorWad) {r : ℕ}
    (hr : q.haircutOwed * (m.settlementFactorWad - q.withdrawalSf) ≤ r * (WAD - q.withdrawalSf))
    (hlt : m.settlementFactorWad < WAD) :
    WAD * t.haircutState.claimOffsetSum + m.settlementFactorWad * hs.claimWeightSum ≤
      WAD * hs.claimOffsetSum + m.settlementFactorWad * t.haircutState.claimWeightSum + WAD * r + 2 * WAD := by
  have hold := line_lt hq.lt_wad hq.le_factor hr
  have hnew : t.position.offset * WAD ≤ t.position.weight * m.settlementFactorWad :=
    (offset_bounds WAD_pos).1.trans (Nat.mul_le_mul_left _ hb.anchored.le_factor)
  have hweight := congrArg (m.settlementFactorWad * ·) hb.weight
  have hoffset := congrArg (WAD * ·) hb.offset
  have hshort : m.settlementFactorWad - q.withdrawalSf ≤ WAD := (Nat.sub_le _ _).trans hlt.le
  simp only [LenderPosition.weight, LenderPosition.offset] at hold hnew hweight hoffset
  nlinarith

/-- What an exit pays on top of the covered part of its face value is what the old haircut has recovered. -/
theorem Pool.Tracks.line_le {n pay : ℕ} (h : Pool.Tracks m hs q n pay t) (hq : q.Anchored m.settlementFactorWad)
    (hf0 : m.settlementFactorWad ≠ 0) (hlt : m.settlementFactorWad < WAD) (hu : m.haircutAccumulator ≤ u64Max)
    (howed : q.haircutOwed ≤ m.haircutAccumulator) (hw : q.weight ≤ hs.claimWeightSum)
    (ho : q.offset ≤ hs.claimOffsetSum) :
    pay ≤ t.payout ∧ WAD * t.haircutState.claimOffsetSum + m.settlementFactorWad * hs.claimWeightSum ≤
      WAD * hs.claimOffsetSum + m.settlementFactorWad * t.haircutState.claimWeightSum + WAD * (t.payout - pay) +
        2 * WAD := by
  rcases h with ⟨-, hgap, -, h⟩ | ⟨-, rfl⟩
  · obtain ⟨hb, -, -, hpayout⟩ := recordGap_balanced h hq hlt hf0 (by omega) hu howed hw ho
    have hrecovered : t.payout - pay = q.haircutOwed - q.remaining m.settlementFactorWad := by omega
    rw [hrecovered]
    refine ⟨by omega, hb.line_le hq ?_ hlt⟩
    -- the recovered part is rounded up
    have hremaining := (remaining_bounds (h := q.haircutOwed) (s := m.settlementFactorWad) hq.lt_wad).1
    have hsplit := mul_sub_add_mul_sub (h := q.haircutOwed) hq.le_factor hlt.le
    rw [Nat.sub_mul]
    exact Nat.le_sub_of_add_le (by rw [← hsplit]; exact Nat.add_le_add_left hremaining _)
  · refine ⟨le_rfl, ?_⟩
    dsimp only
    omega

end Lines

namespace Pool

/-- What the books hold beyond the promises at the factor `s`, times `WAD`. -/
def surplus (p : Pool) (s : ℕ) : ℤ :=
  WAD * (p.vault + p.haircutState.claimOffsetSum) - s * (p.face + p.haircutState.claimWeightSum)

namespace Ledger

/-- Where the vault only covers the remaining units the books have no surplus. -/
theorem surplus_nonpos (h : p.Ledger) (hvault : p.vault ≤ p.face * p.market.settlementFactorWad / WAD) :
    p.surplus p.market.settlementFactorWad ≤ 0 := by
  have hline := h.claimable_le_line le_rfl
  have hfloor := Nat.div_mul_le_self (p.face * p.market.settlementFactorWad) WAD
  have hbound := (Nat.mul_le_mul_right WAD hvault).trans hfloor
  have hclaims := Nat.zero_le (p.claimable p.market.settlementFactorWad * WAD)
  unfold surplus
  zify at hline hbound hclaims
  linarith

/-- An exit rounds four times: the two face values, the payout and the removed line. -/
theorem surplus_exit (h : p.Ledger) (h0 : p.market.settlementFactorWad ≠ 0) (hlt : p.market.settlementFactorWad < WAD)
    {l : Address} {q : LenderPosition} (hq : p.positions.lookup l = some q) {scaled n pay : ℕ} {t : Tracked}
    (hscaled : scaled ≤ q.scaledBalance) (hamounts : exitAmounts p.market scaled = .ok (n, pay))
    (htracks : Tracks p.market p.haircutState q n pay t) (hpayout : t.payout ≤ p.vault) {p' : Pool}
    (hvault : p'.vault = p.vault - t.payout) (hstate : p'.haircutState = t.haircutState)
    (hsupply : p'.market.scaledTotalSupply = p.market.scaledTotalSupply - scaled)
    (hscale : p'.market.scaleFactor = p.market.scaleFactor) :
    p'.surplus p.market.settlementFactorWad ≤ p.surplus p.market.settlementFactorWad + 4 * WAD := by
  obtain ⟨-, -, -, hr⟩ := exitAmounts_eq_ok.1 hamounts
  obtain ⟨hn, hp⟩ := Prod.mk.inj hr
  obtain ⟨hcovered, hline⟩ := htracks.line_le (h.anchored l q hq) h0 hlt h.owed_le (h.owed_ge hq) (h.weight_ge hq)
    (h.offset_ge hq)
  have hface : p.face ≤ p'.face + n + 1 := by
    have hle : scaled ≤ p.market.scaledTotalSupply := hscaled.trans (h.supply_ge hq)
    have hsum := floor_le_floor_add ((p.market.scaledTotalSupply - scaled) * p.market.scaleFactor)
      (scaled * p.market.scaleFactor)
    rw [← add_mul, Nat.sub_add_cancel hle, ← hn] at hsum
    rwa [face, face, hsupply, hscale]
  have hpay : n * p.market.settlementFactorWad < (pay + 1) * WAD := by
    have hbound := (div_mul_bounds (n * p.market.settlementFactorWad) WAD_pos).2
    rwa [hn, ← hp, ← hn] at hbound
  have hscaled := Nat.mul_le_mul_left p.market.settlementFactorWad hface
  have hvault' : (p'.vault : ℤ) = p.vault - t.payout := by rw [hvault, Nat.cast_sub hpayout]
  unfold surplus
  rw [hvault', hstate]
  zify [hcovered] at hline hpay hscaled hlt
  linarith

/-- A claim rounds twice, unless it takes all that the vault can spare. -/
theorem surplus_claim (h : p.Ledger) (h0 : p.market.settlementFactorWad ≠ 0) (hlt : p.market.settlementFactorWad < WAD)
    {l : Address} {q : LenderPosition} (hq : p.positions.lookup l = some q) {exact claimed : ℕ} {t : Tracked}
    (hexact : claimableNow p.market q = .ok exact) (hcap : capAtSurplus p.market p.vault exact = .ok claimed)
    (hrecord : recordClaim p.market q p.haircutState claimed = .ok t) (hpayout : claimed ≤ p.vault) {p' : Pool}
    (hp' : p'.Ledger) (hvault : p'.vault = p.vault - claimed) (hstate : p'.haircutState = t.haircutState)
    (hmarket : p'.market = t.market) :
    p'.surplus p.market.settlementFactorWad ≤ max 0 (p.surplus p.market.settlementFactorWad) + 4 * WAD := by
  have hanchored := h.anchored l q hq
  have hshape := (recordClaim_shape hrecord).market
  have hfactor : p'.market.settlementFactorWad = p.market.settlementFactorWad := by rw [hmarket, hshape]
  have hface : p'.face = p.face := by rw [face, face, hmarket, hshape]
  have hwad : (0 : ℤ) ≤ 4 * WAD := by omega
  obtain ⟨obligations, hobligations, hclaimed, hpos⟩ := capAtSurplus_eq_ok.1 hcap
  have hobligations' : obligations = p.face * p.market.settlementFactorWad / WAD := remainingObligations_ok hobligations
  have hbalanced := h.claimBalanced h0 hq hexact hcap hrecord
  have hexact := h.exact_eq hlt.le hq hexact
  by_cases hcapped : p.vault - obligations < exact
  · -- the vault is left with what covers the remaining units
    have hnonpos := hp'.surplus_nonpos (by rw [hvault, hface, hfactor]; omega)
    rw [hfactor] at hnonpos
    have := le_max_left 0 (p.surplus p.market.settlementFactorWad)
    linarith
  · have hle : claimed = exact := by omega
    have hbound := (claimable_bounds (h := q.haircutOwed) (s := p.market.settlementFactorWad) hanchored.lt_wad).2
    rw [← LenderPosition.claimable, ← hexact, ← hle] at hbound
    have hline := hbalanced.line_le hanchored hbound.le hlt
    have hvault' : (p'.vault : ℤ) = p.vault - claimed := by rw [hvault, Nat.cast_sub hpayout]
    have := le_max_right 0 (p.surplus p.market.settlementFactorWad)
    unfold surplus at *
    rw [hvault', hstate, hface]
    zify at hline hlt
    linarith

end Ledger

/-- Without new tokens and without `reSettle`, a step keeps the factor of a market in distress, and only an exit or a
claim can raise the surplus. -/
theorem Step.surplus_le (hs : Step a p e p') (h : p.Ledger) (h0 : p.market.settlementFactorWad ≠ 0)
    (hlt : p.market.settlementFactorWad < WAD) (hquiet : ∀ f, e ≠ some (.reSettle a f)) (hvault : p'.vault ≤ p.vault) :
    p'.market.settlementFactorWad = p.market.settlementFactorWad ∧
      p'.surplus p.market.settlementFactorWad ≤ max 0 (p.surplus p.market.settlementFactorWad) +
        4 * (if (e.bind (Event.served a)).isSome then 1 else 0) * WAD := by
  have hp' := hs.ledger h
  have hkept {p' : Pool} (hstate : p'.haircutState = p.haircutState) (hface : p'.face = p.face)
      (hvault : p'.vault ≤ p.vault) :
      p'.surplus p.market.settlementFactorWad ≤ max 0 (p.surplus p.market.settlementFactorWad) +
        4 * (if (e.bind (Event.served a)).isSome then 1 else 0) * WAD := by
    have hmax := le_max_right 0 (p.surplus p.market.settlementFactorWad)
    have hpos : (0 : ℤ) ≤ 4 * (if (e.bind (Event.served a)).isSome then 1 else 0) * WAD := by split <;> omega
    have hv := Nat.mul_le_mul_left WAD hvault
    unfold surplus at *
    rw [hstate, hface]
    zify at hv
    linarith
  cases hs with
  | idle => exact ⟨rfl, hkept rfl rfl hvault⟩
  | deposit _ htime => exact absurd (h.unsettled_of_lt htime) h0
  | borrow htime => exact absurd (h.unsettled_of_lt htime) h0
  | repay haccrue | repayInterest haccrue =>
    obtain rfl := h.accrue_settled haccrue h0
    exact ⟨rfl, hkept rfl rfl hvault⟩
  | exit _ haccrue hsettles hq _ hle hamounts htracks _ hpayout he =>
    obtain rfl := h.accrue_settled haccrue h0
    obtain rfl := hsettles.eq_of_ne_zero h0
    have hmarket := htracks.shape.market
    refine ⟨by rw [hmarket], ?_⟩
    rw [Option.bind_some, he.served, Option.isSome_some, if_pos rfl, mul_one]
    refine (h.surplus_exit h0 hlt hq hle hamounts htracks hpayout rfl rfl ?_ ?_).trans
      (Int.add_le_add_right (le_max_right _ _) _)
    · rw [hmarket]
    · rw [hmarket]
  | claim _ hq hexact hcap hrecord hpayout he =>
    refine ⟨by rw [(recordClaim_shape hrecord).market], ?_⟩
    rw [Option.bind_some, he.served, Option.isSome_some, if_pos rfl, mul_one]
    exact h.surplus_claim h0 hlt hq hexact hcap hrecord hpayout hp' rfl rfl rfl
  | reSettle => exact absurd rfl (hquiet _)
  | collectFees hsolvent =>
    rcases hsolvent with hsolvent | hsolvent
    · exact absurd hsolvent h0
    · omega
  | withdrawExcess _ _ hsettled => omega
  | close => exact ⟨rfl, hkept rfl rfl hvault⟩

/-- A factor that was just fixed leaves less surplus than one unit of it is worth. -/
theorem Fixes.surplus_lt (hf : Fixes p p') (h : p.Ledger) (hlt : p'.market.settlementFactorWad < WAD) :
    max 0 (p'.surplus p'.market.settlementFactorWad) < p'.face + p'.haircutState.claimWeightSum := by
  have key {n d f : ℕ} (hd : d ≠ 0) (hn : f = clampFactor (n / d)) (hfw : f < WAD) : (n : ℤ) - f * d < d := by
    subst hn
    have hbound := lt_clampFactor_succ_mul hd hfw
    zify at hbound
    linarith
  cases hf with
  | @first config m total factor h0 haccrue htotal hfactor =>
    obtain ⟨hweight, hoffset⟩ := h.lines_zero (h.unsettled h0)
    obtain ⟨-, rfl⟩ := totalNormalized_eq_ok.1 htotal
    rcases computeSettlementFactor_eq_ok.1 hfactor with ⟨-, rfl⟩ | ⟨hd, -, hfactor⟩
    · exact absurd hlt (lt_irrefl _)
    · have hsurplus := key hd hfactor hlt
      simp only [surplus, face, hweight, hoffset, Nat.cast_zero, add_zero]
      apply max_lt
      · exact_mod_cast Nat.pos_of_ne_zero hd
      · push_cast at hsurplus ⊢
        linarith
  | @again factor h0 hfactor himproved =>
    rcases computeResettleFactor_eq_ok.1 hfactor with ⟨-, ⟨-, rfl⟩ | ⟨hd, -, hfactor⟩⟩
    · exact absurd hlt (lt_irrefl _)
    · have hsurplus := key hd hfactor hlt
      apply max_lt
      · exact_mod_cast Nat.pos_of_ne_zero hd
      · simp only [surplus, face] at hsurplus ⊢
        push_cast at hsurplus ⊢
        linarith

end Pool

/-- Neither `reSettle` nor new tokens. -/
def Quiet (a : Address) (x : Record) : Prop :=
  (∀ f, x.event ≠ some (.reSettle a f)) ∧ x.post.tokens.amount (.vault a) ≤ x.pre.tokens.amount (.vault a)

/-- The surplus after the step that fixed the factor. -/
theorem surplus_start {p₁ : Pool} (hs : Pool.Step a p e p₁) (h : p.Ledger)
    (hfixed : p₁.market.settlementFactorWad ≠ p.market.settlementFactorWad)
    (hlt : p₁.market.settlementFactorWad < WAD) :
    p₁.market.settlementFactorWad ≠ 0 ∧ max 0 (p₁.surplus p₁.market.settlementFactorWad) <
      (p.market.scaledTotalSupply * p₁.market.scaleFactor / WAD : ℕ) + p.haircutState.claimWeightSum +
        4 * (if (e.bind (Event.served a)).isSome then 1 else 0) * WAD := by
  obtain ⟨p₀, hfixes, h₀, hfactor, hstep⟩ := hs.fixes h hfixed
  obtain ⟨hsupply, hstate, -, hne⟩ := hfixes.keeps
  have hlt₀ : p₀.market.settlementFactorWad < WAD := hfactor ▸ hlt
  have hstart := hfixes.surplus_lt h hlt₀
  rcases hstep with ⟨rfl, f, rfl⟩ | ⟨-, hstep, hvault, e', l, payout, scaled, rfl, he⟩
  · rw [← hsupply, ← hstate]
    exact ⟨hne, hstart.trans_le (le_add_of_nonneg_right (by split <;> omega))⟩
  · obtain ⟨hlater, -⟩ := hstep.later h₀ hne
    have hquiet (f : ℕ) : some e' ≠ some (Event.reSettle a f) := by
      rcases he with rfl | rfl <;> simp
    obtain ⟨-, hle⟩ := hstep.surplus_le h₀ hne hlt₀ hquiet hvault
    refine ⟨hfactor ▸ hne, ?_⟩
    rw [← hfactor, ← hsupply, ← hstate, hlater.scaleFactor]
    have hpos : (0 : ℤ) ≤ 4 * (if ((some e').bind (Event.served a)).isSome then 1 else 0) * WAD := by
      split <;> omega
    unfold Pool.face at hstart
    omega

/-- The bound grows with every exit and claim. -/
theorem surplus_run {p₁ : Pool} {b : ℤ} (h : Reachable w₁) (hp : w₁.pool a = some p₁)
    (h0 : p₁.market.settlementFactorWad ≠ 0) (hlt : p₁.market.settlementFactorWad < WAD)
    (hstart : max 0 (p₁.surplus p₁.market.settlementFactorWad) < b) {hist : List Record} (r : Run w₁ hist w')
    (hquiet : ∀ x ∈ hist, Quiet a x) :
    ∃ p', w'.pool a = some p' ∧ p'.market.settlementFactorWad = p₁.market.settlementFactorWad ∧
      max 0 (p'.surplus p₁.market.settlementFactorWad) < b + 4 * operations a hist * WAD := by
  let I (hist : List Record) (q : Pool) : Prop := (∀ x ∈ hist, Quiet a x) →
    q.market.settlementFactorWad = p₁.market.settlementFactorWad ∧
      max 0 (q.surplus p₁.market.settlementFactorWad) < b + 4 * operations a hist * WAD
  have hrun : ∃ p', w'.pool a = some p' ∧ I hist p' := by
    refine Run.pool_invariant h hp (fun _ => ⟨rfl, by simpa [operations] using hstart⟩) ?_ r
    intro hist x q q' hr hq hq' hstep ih hquiet
    obtain ⟨hx, hquiet⟩ := List.forall_mem_cons.1 hquiet
    obtain ⟨hfactor, hle⟩ := ih hquiet
    have hvault : q'.vault ≤ q.vault := by
      rw [(World.pool_eq_some.1 hq).2.2, (World.pool_eq_some.1 hq').2.2]
      exact hx.2
    obtain ⟨hkept, hnext⟩ := hstep.surplus_le (Reachable.ledger hr hq) (hfactor ▸ h0) (hfactor ▸ hlt) hx.1 hvault
    refine ⟨hkept.trans hfactor, ?_⟩
    rw [hfactor] at hnext
    have hpos : (0 : ℤ) ≤ 4 * (if (x.event.bind (Event.served a)).isSome then 1 else 0) * WAD := by
      split <;> omega
    have hmax := max_le (add_nonneg (le_max_left 0 (q.surplus p₁.market.settlementFactorWad)) hpos) hnext
    rw [operations_cons, served]
    push_cast
    linarith
  obtain ⟨p', hp', hI⟩ := hrun
  exact ⟨p', hp', hI hquiet⟩

/-- Let a step fix the factor of a market below `WAD`.  The face value and the weights that it is fixed for are those
before the step, since `reSettle` changes neither and an exit that settles is paid out afterwards.  From then on, as
long as no token comes in, the exits and claims cannot raise the factor of `reSettle` by more than rounding. -/
theorem recycled_lt (h : Reachable w) (hs : Step w e w₁) (hma : w.markets.lookup a = some ma)
    (hma₁ : w₁.markets.lookup a = some ma₁)
    (hfixed : ma₁.market.settlementFactorWad ≠ ma.market.settlementFactorWad)
    (hlt : ma₁.market.settlementFactorWad < WAD) {hist : List Record} (r : Run w₁ hist w')
    (hquiet : ∀ x ∈ hist, Quiet a x) (hma' : w'.markets.lookup a = some ma') {f : ℕ}
    (hf : computeResettleFactor (w'.tokens.amount ma'.market.vault)
      (ma'.market.scaledTotalSupply * ma'.market.scaleFactor / WAD) ma'.haircutState.claimWeightSum
      ma'.haircutState.claimOffsetSum = .ok f) :
    ((f : ℤ) - ma₁.market.settlementFactorWad) *
        ((ma'.market.scaledTotalSupply * ma'.market.scaleFactor / WAD : ℕ) + ma'.haircutState.claimWeightSum) <
      (ma.market.scaledTotalSupply * ma₁.market.scaleFactor / WAD : ℕ) + ma.haircutState.claimWeightSum +
        4 * operations a (hist ++ [⟨w, e, w₁⟩]) * WAD := by
  have hp := World.pool_of_lookup hma
  obtain ⟨p₁, hp₁, hstep⟩ := hs.pool (Reachable.wellFormed h) hp
  obtain rfl := Option.some.inj (hma₁.symm.trans (World.pool_eq_some.1 hp₁).1)
  obtain ⟨hne, hstart⟩ := surplus_start hstep (Reachable.ledger h hp) hfixed hlt
  have hr₁ : Reachable w₁ := .step h hs
  obtain ⟨p', hp', hfactor, hend⟩ := surplus_run hr₁ hp₁ hne hlt hstart r hquiet
  obtain ⟨hma'', -, hvault⟩ := World.pool_eq_some.1 hp'
  obtain rfl := Option.some.inj (hma'.symm.trans hma'')
  rw [(Reachable.placed (r.reachable hr₁) hma').vault, ← hvault] at hf
  have hops : operations a (hist ++ [⟨w, e, w₁⟩]) =
      operations a hist + if (e.bind (Event.served a)).isSome then 1 else 0 := by
    simp [operations, served, List.countP_cons]
  refine lt_of_le_of_lt ?_ (hend.trans_eq (by rw [hops]; push_cast; ring))
  rcases le_or_gt f p₁.market.settlementFactorWad with hle | hgt
  · -- the factor would not even rise
    refine le_max_of_le_left (mul_nonpos_of_nonpos_of_nonneg ?_ (by positivity))
    omega
  · obtain ⟨-, hbound, -⟩ := computeResettleFactor_largest hf (by omega)
    refine le_max_of_le_right ?_
    change f * (p'.face + _) ≤ _ at hbound
    show ((f : ℤ) - _) * (p'.face + _) ≤ _
    unfold Pool.surplus
    zify at hbound
    linarith

/-- The exit of Alice settles the market at one half, and Bob exits after her: the vault holds 6 for the 12 remaining
units, and the gaps have the weight 4 and the offset 2. -/
theorem recycled_lt_two_exits :
    ∃ w' ma', w' = ((Sample.genesis.performAll Sample.defaulted).performAll
        [Sample.withdraw Sample.alice 2]).performAll [Sample.withdraw Sample.bob 2] ∧
      w'.markets.lookup Sample.market = some ma' ∧
      computeResettleFactor (w'.tokens.amount ma'.market.vault)
        (ma'.market.scaledTotalSupply * ma'.market.scaleFactor / WAD) ma'.haircutState.claimWeightSum
        ma'.haircutState.claimOffsetSum = .ok 500000000000000000 ∧
      ((500000000000000000 : ℕ) - (500000000000000000 : ℕ) : ℤ) * ((12 : ℕ) + (4 : ℕ)) <
        (16 : ℕ) + (0 : ℕ) + 4 * (2 : ℕ) * WAD := by
  let w := Sample.genesis.performAll Sample.defaulted
  let w₁ := w.performAll [Sample.withdraw Sample.alice 2]
  let w' := w₁.performAll [Sample.withdraw Sample.bob 2]
  have hr : Reachable w := World.performAll_reachable Sample.genesis_reachable _
  obtain ⟨hs, -⟩ := World.performAll_single (show (w.perform (Sample.withdraw Sample.alice 2)).map Prod.snd =
    some (some (.withdraw Sample.market Sample.alice 1 2)) by decide +kernel)
  obtain ⟨-, hhist⟩ := World.performAll_single (show (w₁.perform (Sample.withdraw Sample.bob 2)).map Prod.snd =
    some (some (.withdraw Sample.market Sample.bob 1 2)) by decide +kernel)
  have hquiet : ∀ x ∈ w₁.history [Sample.withdraw Sample.bob 2], Quiet Sample.market x := by
    rw [hhist, List.forall_mem_singleton]
    exact ⟨by simp, by decide +kernel⟩
  obtain ⟨ma, hma, hx⟩ := Option.map_eq_some_iff.1
    (show (w.markets.lookup Sample.market).map (fun ma => (ma.market.settlementFactorWad,
      ma.market.scaledTotalSupply, ma.haircutState.claimWeightSum)) = some (0, 16, 0) by decide +kernel)
  obtain ⟨ma₁, hma₁, hx₁⟩ := Option.map_eq_some_iff.1
    (show (w₁.markets.lookup Sample.market).map (fun ma => (ma.market.settlementFactorWad, ma.market.scaleFactor)) =
      some (500000000000000000, WAD) by decide +kernel)
  obtain ⟨ma', hma', hx'⟩ := Option.map_eq_some_iff.1
    (show (w'.markets.lookup Sample.market).map (fun ma => (w'.tokens.amount ma.market.vault,
      ma.market.scaledTotalSupply * ma.market.scaleFactor / WAD, ma.haircutState.claimWeightSum,
      ma.haircutState.claimOffsetSum)) = some (6, 12, 4, 2) by decide +kernel)
  simp only [Prod.mk.injEq] at hx hx₁ hx'
  obtain ⟨hfactor, hsupply, hweight⟩ := hx
  obtain ⟨hfactor₁, hscale⟩ := hx₁
  obtain ⟨hvault, hface, hweight', hoffset⟩ := hx'
  have hf : computeResettleFactor (w'.tokens.amount ma'.market.vault)
      (ma'.market.scaledTotalSupply * ma'.market.scaleFactor / WAD) ma'.haircutState.claimWeightSum
      ma'.haircutState.claimOffsetSum = .ok 500000000000000000 := by
    rw [hvault, hface, hweight', hoffset]
    decide
  have hbound := recycled_lt hr hs hma hma₁ (by rw [hfactor, hfactor₁]; decide) (by rw [hfactor₁]; decide)
    (World.performAll_run w₁ _) hquiet hma' hf
  have hops : operations Sample.market (w₁.history [Sample.withdraw Sample.bob 2] ++
      [⟨w, some (.withdraw Sample.market Sample.alice 1 2), w₁⟩]) = 2 := by
    rw [hhist]
    decide +kernel
  rw [hfactor₁, hface, hweight', hsupply, hscale, hweight, hops, Nat.mul_div_cancel _ WAD_pos] at hbound
  exact ⟨w', ma', rfl, hma', hf, hbound⟩

end Coalesce
