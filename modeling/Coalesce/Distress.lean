import Coalesce.History

/-!
# Coverage in distress

Below par the vault should hold what all remaining units and all open haircuts can take out at the current factor.
The `slack` of a pool is what it holds beyond that, exactly.  Every step keeps it nonnegative except one: an exit that
carries an older haircut to the current factor rounds what is still open down, and so pays a fraction of a unit too
much.
-/

namespace Coalesce

open ProRata

variable {w₀ w : World} {a : Address} {ma : MarketAccounts} {hist : List Record} {p p' : Pool} {e : Option Event}

/-- What the haircut can claim at the factor `s`, not rounded. -/
def LenderPosition.due (q : LenderPosition) (s : ℕ) : ℚ := q.haircutOwed * (1 - share (WAD : ℚ) q.withdrawalSf s)

namespace LenderPosition

variable {q : LenderPosition} {s : ℕ}

theorem due_of_owed (h : q.haircutOwed = 0) : q.due s = 0 := by simp [due, h]

theorem due_of_anchor (h : q.withdrawalSf = s) (hs : s < WAD) : q.due s = 0 := by
  rw [due, h, share_self (by exact_mod_cast hs), sub_self, mul_zero]

theorem claimable_le_due (h : q.Anchored s) : (q.claimable s : ℚ) ≤ q.due s := (cast_claimable h.lt_wad h.le_factor).1

end LenderPosition

namespace Pool

/-- What the vault holds beyond the remaining units and the open haircuts at the current factor. -/
def slack (p : Pool) : ℚ :=
  p.vault - p.face * p.market.settlementFactorWad / WAD -
    p.positions.total fun q => q.due p.market.settlementFactorWad

/-- In an exit that carries an older haircut to the current factor nothing is rounded. -/
def CarriesExactly (a : Address) (p : Pool) (e : Option Event) : Prop :=
  ∀ l scaled q, e.bind (Event.exited a) = some (l, scaled) → p.positions.lookup l = some q →
    0 < scaled * p.market.scaleFactor / WAD →
    WAD - q.withdrawalSf ∣ q.haircutOwed * (WAD - p.market.settlementFactorWad)

/-- Writing a position: the slack absorbs the payout if the face value and the haircut make room for it. -/
theorem slack_insert {l : Address} {q q' : LenderPosition} (hq : p.positions.lookup l = some q)
    {n payout : ℕ} (hvault : p'.vault + payout = p.vault) (hface : p'.face + n ≤ p.face)
    (hfactor : p'.market.settlementFactorWad = p.market.settlementFactorWad)
    (hpositions : p'.positions = p.positions.insert l q')
    (hpaid : (payout : ℚ) ≤ n * p.market.settlementFactorWad / WAD + q.due p.market.settlementFactorWad -
      q'.due p.market.settlementFactorWad) :
    p.slack ≤ p'.slack := by
  have htotal := Finmap.total_insert (v := q') hq fun q => q.due p.market.settlementFactorWad
  have hwad : (0 : ℚ) < WAD := by exact_mod_cast WAD_pos
  have hvault' : (p.vault : ℚ) = p'.vault + payout := by exact_mod_cast hvault.symm
  have hface' : ((p'.face + n : ℕ) : ℚ) * p.market.settlementFactorWad / WAD ≤
      p.face * p.market.settlementFactorWad / WAD := by
    gcongr
  push_cast at hface'
  rw [add_mul, add_div] at hface'
  unfold slack
  rw [hfactor, hpositions]
  linarith

/-- What an exit pays is covered: the payout is rounded down, and the recovered part of the old haircut is exact. -/
private theorem Tracks.payout_le {m : Market} {hs : HaircutState} {q : LenderPosition} {n pay : ℕ} {t : Tracked}
    (h : Tracks m hs q n pay t) (hpay : pay = n * m.settlementFactorWad / WAD)
    (hq : q.Anchored m.settlementFactorWad) (hf0 : m.settlementFactorWad ≠ 0) (hlt : m.settlementFactorWad < WAD)
    (hu : m.haircutAccumulator ≤ u64Max) (howed : q.haircutOwed ≤ m.haircutAccumulator)
    (hw : q.weight ≤ hs.claimWeightSum) (ho : q.offset ≤ hs.claimOffsetSum)
    (hexact : 0 < n → WAD - q.withdrawalSf ∣ q.haircutOwed * (WAD - m.settlementFactorWad)) :
    (t.payout : ℚ) ≤ n * m.settlementFactorWad / WAD + q.due m.settlementFactorWad -
      t.position.due m.settlementFactorWad := by
  have hwad : (0 : ℚ) < WAD := by exact_mod_cast WAD_pos
  have hcovered : (pay : ℚ) ≤ n * m.settlementFactorWad / WAD := by
    rw [le_div_iff₀ hwad, hpay]
    exact_mod_cast Nat.div_mul_le_self _ WAD
  rcases h with ⟨-, hgap, -, hrecord⟩ | ⟨-, rfl⟩
  · obtain ⟨-, -, hsf, hpayout⟩ := recordGap_balanced hrecord hq hlt hf0 (by omega) hu howed hw ho
    have hremaining := cast_remaining_of_dvd (K := ℚ) hq.lt_wad hlt.le (hexact (by omega))
    rw [LenderPosition.due_of_anchor hsf hlt, hpayout]
    push_cast [Nat.cast_sub hq.remaining_le]
    rw [LenderPosition.remaining, hremaining, LenderPosition.due]
    linarith
  · linarith

/-- In distress, with the factor unchanged, a step keeps the slack. -/
theorem Step.slack_le (hs : Step a p e p') (h : p.Ledger) (h0 : p.market.settlementFactorWad ≠ 0)
    (hlt : p.market.settlementFactorWad < WAD) (hfactor : p'.market.settlementFactorWad = p.market.settlementFactorWad)
    (hexact : CarriesExactly a p e) : p.slack ≤ p'.slack := by
  have hfund {p' : Pool} (hmarket : p'.face = p.face) (hvault : p.vault ≤ p'.vault)
      (hfactor : p'.market.settlementFactorWad = p.market.settlementFactorWad)
      (hpositions : p'.positions = p.positions) :
      p.slack ≤ p'.slack := by
    have hcast : (p.vault : ℚ) ≤ p'.vault := by exact_mod_cast hvault
    unfold slack
    rw [hmarket, hfactor, hpositions]
    linarith
  cases hs with
  | idle _ _ hvault => exact hfund rfl hvault rfl rfl
  | deposit _ htime => exact absurd (h.unsettled_of_lt htime) h0
  | borrow htime => exact absurd (h.unsettled_of_lt htime) h0
  | repay haccrue | repayInterest haccrue =>
    obtain rfl := h.accrue_settled haccrue h0
    exact hfund rfl (Nat.le_add_right _ _) rfl rfl
  | @exit _ _ _ l q scaled n pay t e' _ haccrue hsettles hq _ hle hamounts htracks _ hpayout he =>
    obtain rfl := h.accrue_settled haccrue h0
    obtain rfl := hsettles.eq_of_ne_zero h0
    obtain ⟨-, -, -, hr⟩ := exitAmounts_eq_ok.1 hamounts
    obtain ⟨hn, hpay⟩ := Prod.mk.inj hr
    have hmarket := htracks.shape.market
    have hpaid := htracks.payout_le (hn ▸ hpay) (h.anchored l q hq) h0 hlt h.owed_le (h.owed_ge hq) (h.weight_ge hq)
      (h.offset_ge hq) (by
        intro hpos
        exact hexact l scaled q he.exited hq (hn ▸ hpos))
    refine slack_insert hq (Nat.sub_add_cancel hpayout) ?_ (by rw [hmarket]) rfl (hpaid.trans_eq rfl)
    unfold face
    dsimp only
    rw [hmarket, hn]
    have hsum := floor_add_floor_le ((p.market.scaledTotalSupply - scaled) * p.market.scaleFactor)
      (scaled * p.market.scaleFactor)
    rwa [← add_mul, Nat.sub_add_cancel (hle.trans (h.supply_ge hq))] at hsum
  | @claim l q exact claimed t _ _ hq hclaim hcap hrecord hpayout =>
    have hmarket := (recordClaim_shape hrecord).market
    have hface : face { p with
        market := t.market
        haircutState := t.haircutState
        positions := p.positions.insert l t.position
        vault := p.vault - claimed } = p.face := by
      unfold face
      rw [hmarket]
    refine slack_insert hq (n := 0) (Nat.sub_add_cancel hpayout) (by rw [hface, Nat.add_zero]) (by rw [hmarket]) rfl ?_
    obtain ⟨_, -, hmin, -⟩ := capAtSurplus_eq_ok.1 hcap
    have hle : claimed ≤ q.claimable p.market.settlementFactorWad := by
      rw [← h.exact_eq hlt.le hq hclaim, hmin]
      exact min_le_right _ _
    have hdue := LenderPosition.claimable_le_due (h.anchored l q hq)
    have hcast : (claimed : ℚ) ≤ q.claimable p.market.settlementFactorWad := by exact_mod_cast hle
    have hrest : t.position.due p.market.settlementFactorWad = 0 := by
      obtain ⟨_, _, -, -, -, -, rfl⟩ := recordClaim_eq_ok.1 hrecord
      by_cases hpos : 0 < q.haircutOwed - claimed
      · exact LenderPosition.due_of_anchor (if_pos hpos) hlt
      · exact LenderPosition.due_of_owed (by dsimp only; omega)
    rw [hrest]
    simp only [Nat.cast_zero, zero_mul, zero_div, zero_add, sub_zero]
    exact hcast.trans hdue
  | reSettle _ _ _ _ himproved => exact absurd hfactor himproved.ne'
  | collectFees hsolvent =>
    rcases hsolvent with hsolvent | hsolvent
    · exact absurd hsolvent h0
    · omega
  | withdrawExcess _ _ hsettled => omega
  | close hq _ howed =>
    have htotal := Finmap.total_erase hq fun q => q.due p.market.settlementFactorWad
    rw [LenderPosition.due_of_owed howed, add_zero] at htotal
    unfold slack
    rw [← htotal]
    exact le_rfl

/-- The lines of the books lie above what is due. -/
theorem Ledger.due_le_line (h : p.Ledger) {s : ℕ} (hs : p.market.settlementFactorWad ≤ s) :
    (p.haircutState.claimOffsetSum * WAD + (p.positions.total fun q => q.due s) * WAD : ℚ) ≤
      p.haircutState.claimWeightSum * s := by
  have hcast (f : LenderPosition → ℕ) : ((p.positions.total f : ℕ) : ℚ) = p.positions.total fun q => (f q : ℚ) :=
    Finmap.map_total (Nat.castAddMonoidHom ℚ) p.positions f
  rw [h.offset, h.weight, hcast, hcast, ← Finmap.total_mul, ← Finmap.total_mul, ← Finmap.total_mul, ← Finmap.total_add]
  apply Finmap.total_le_total
  intro l q hq
  obtain ⟨hlt, hle, -, -⟩ := h.anchored l q hq
  exact cast_le_line hlt (hle.trans hs)

/-- A factor that was just fixed, and not clamped from below, promises no more than the vault holds. -/
theorem Fixes.slack_nonneg (hf : Fixes p p') (h : p.Ledger) (hlt : p'.market.settlementFactorWad < WAD)
    (hfirst : p.market.settlementFactorWad = 0 → p'.face ≤ p.vault * WAD) : 0 ≤ p'.slack := by
  have hwad : (0 : ℚ) < WAD := by exact_mod_cast WAD_pos
  cases hf with
  | @first config m total factor h0 haccrue htotal hfactor =>
    obtain ⟨-, rfl⟩ := totalNormalized_eq_ok.1 htotal
    have hface := hfirst h0
    have hzero : (p.positions.total fun q => q.due factor) = 0 := by
      apply Finmap.total_eq_zero
      intro l q hq
      exact LenderPosition.due_of_owed (Nat.eq_zero_of_le_zero (h.unsettled h0 ▸ h.owed_ge hq))
    rcases computeSettlementFactor_eq_ok.1 hfactor with ⟨-, rfl⟩ | ⟨hd, -, hclamp⟩
    · exact absurd hlt (lt_irrefl _)
    · have hpos := Nat.pos_of_ne_zero hd
      have hle : factor ≤ p.vault * WAD / (m.scaledTotalSupply * m.scaleFactor / WAD) := by
        rw [hclamp]
        exact clampFactor_le (.inr (Nat.div_pos hface hpos))
      rw [Nat.le_div_iff_mul_le hpos] at hle
      show (0 : ℚ) ≤ p.vault - (m.scaledTotalSupply * m.scaleFactor / WAD : ℕ) * factor / WAD - _
      rw [hzero, sub_zero, sub_nonneg, div_le_iff₀ hwad, mul_comm]
      exact_mod_cast hle
  | @again factor h0 hfactor himproved =>
    obtain ⟨-, hbound, -⟩ := computeResettleFactor_largest hfactor (by omega)
    have hline := h.due_le_line himproved.le
    have hcast : (factor * (p.face + p.haircutState.claimWeightSum) : ℚ) ≤
        WAD * (p.vault + p.haircutState.claimOffsetSum) := by
      exact_mod_cast hbound
    show (0 : ℚ) ≤ p.vault - p.face * factor / WAD - p.positions.total fun q => q.due factor
    rw [sub_right_comm, sub_nonneg, div_le_iff₀ hwad]
    linarith

/-- A step keeps the slack nonnegative, whether it fixes the factor or not. -/
theorem Step.slack_nonneg (hs : Step a p e p') (h : p.Ledger)
    (ih : p.market.settlementFactorWad ≠ 0 → p.market.settlementFactorWad < WAD → 0 ≤ p.slack)
    (hfirst : p.market.settlementFactorWad = 0 →
      p.market.scaledTotalSupply * p'.market.scaleFactor / WAD ≤ p.vault * WAD)
    (hexact : CarriesExactly a p e) (h0 : p'.market.settlementFactorWad ≠ 0)
    (hlt : p'.market.settlementFactorWad < WAD) : 0 ≤ p'.slack := by
  by_cases hfactor : p'.market.settlementFactorWad = p.market.settlementFactorWad
  · exact (ih (hfactor ▸ h0) (hfactor ▸ hlt)).trans
      (hs.slack_le h (hfactor ▸ h0) (hfactor ▸ hlt) hfactor hexact)
  · obtain ⟨p₀, hfixes, h₀, hfactor₀, hstep⟩ := hs.fixes h hfactor
    obtain ⟨hsupply, -, hpositions, hne⟩ := hfixes.keeps
    have hlt₀ : p₀.market.settlementFactorWad < WAD := hfactor₀ ▸ hlt
    have hscale : p₀.market.scaleFactor = p'.market.scaleFactor := by
      rcases hstep with ⟨rfl, -⟩ | ⟨-, hstep, -⟩
      · rfl
      · exact (hstep.later h₀ hne).1.scaleFactor.symm
    have hstart : 0 ≤ p₀.slack := by
      apply hfixes.slack_nonneg h hlt₀
      intro hz
      rw [face, hsupply, hscale]
      exact hfirst hz
    rcases hstep with ⟨rfl, -⟩ | ⟨hz, hstep, -⟩
    · exact hstart
    · refine hstart.trans (hstep.slack_le h₀ hne hlt₀ hfactor₀.symm ?_)
      -- before the first settlement there are no older haircuts
      intro l scaled q _ hq _
      rw [hpositions] at hq
      have howed : q.haircutOwed = 0 := Nat.eq_zero_of_le_zero (h.unsettled hz ▸ h.owed_ge hq)
      rw [howed, Nat.zero_mul]
      exact dvd_zero _

/-- With slack, the vault covers the rounded amounts as well. -/
theorem Ledger.covered_of_slack (h : p.Ledger) (hslack : 0 ≤ p.slack) :
    p.face * p.market.settlementFactorWad / WAD + p.claimable p.market.settlementFactorWad ≤ p.vault := by
  have hwad : (0 : ℚ) < WAD := by exact_mod_cast WAD_pos
  have hfloor : ((p.face * p.market.settlementFactorWad / WAD : ℕ) : ℚ) ≤
      p.face * p.market.settlementFactorWad / WAD := by
    rw [le_div_iff₀ hwad]
    exact_mod_cast Nat.div_mul_le_self _ WAD
  have hclaims : (p.claimable p.market.settlementFactorWad : ℚ) ≤
      p.positions.total fun q => q.due p.market.settlementFactorWad := by
    rw [claimable, show ((p.positions.total _ : ℕ) : ℚ) = _ from
      Finmap.map_total (Nat.castAddMonoidHom ℚ) p.positions _]
    apply Finmap.total_le_total
    intro l q hq
    exact LenderPosition.claimable_le_due (h.anchored l q hq)
  unfold slack at hslack
  have hsum : ((p.face * p.market.settlementFactorWad / WAD + p.claimable p.market.settlementFactorWad : ℕ) : ℚ) ≤
      p.vault := by
    push_cast
    linarith
  exact_mod_cast hsum

end Pool

/-! ### Runs -/

/-- If the step settles the market, then the factor is not clamped up to the minimum. -/
def Unclamped (a : Address) (x : Record) : Prop :=
  ∀ ma ma', x.pre.markets.lookup a = some ma → x.post.markets.lookup a = some ma' →
    ma.market.settlementFactorWad = 0 → ma'.market.settlementFactorWad ≠ 0 →
    ma.market.scaledTotalSupply * ma'.market.scaleFactor / WAD ≤ x.pre.tokens.amount (.vault a) * WAD

/-- If the step is an exit from a position with an older haircut, then the haircut is carried to the current factor
without rounding. -/
def CarriesExactly (a : Address) (x : Record) : Prop :=
  ∀ l scaled ma q, x.event.bind (Event.exited a) = some (l, scaled) → x.pre.markets.lookup a = some ma →
    ma.positions.lookup l = some q → 0 < scaled * ma.market.scaleFactor / WAD →
    WAD - q.withdrawalSf ∣ q.haircutOwed * (WAD - ma.market.settlementFactorWad)

instance (a : Address) (x : Record) : Decidable (Unclamped a x) :=
  decidable_of_iff (∀ ma ∈ x.pre.markets.lookup a, ∀ ma' ∈ x.post.markets.lookup a,
      ma.market.settlementFactorWad = 0 → ma'.market.settlementFactorWad ≠ 0 →
      ma.market.scaledTotalSupply * ma'.market.scaleFactor / WAD ≤ x.pre.tokens.amount (.vault a) * WAD)
    ⟨fun h ma ma' hma hma' => h ma hma ma' hma', fun h ma hma ma' hma' => h ma ma' hma hma'⟩

instance (a : Address) (x : Record) : Decidable (CarriesExactly a x) :=
  decidable_of_iff (∀ y ∈ x.event.bind (Event.exited a), ∀ ma ∈ x.pre.markets.lookup a,
      ∀ q ∈ ma.positions.lookup y.1, 0 < y.2 * ma.market.scaleFactor / WAD →
      WAD - q.withdrawalSf ∣ q.haircutOwed * (WAD - ma.market.settlementFactorWad))
    ⟨fun h l scaled ma q hx hma hq => h (l, scaled) hx ma hma q hq,
      fun h y hy ma hma q hq => h y.1 y.2 ma q hy hma hq⟩

theorem Run.slack_nonneg (hg : Genesis w₀) (r : Run w₀ hist w) (hp : w.pool a = some p)
    (hfirst : ∀ x ∈ hist, Unclamped a x) (hexact : ∀ x ∈ hist, CarriesExactly a x)
    (h0 : p.market.settlementFactorWad ≠ 0) (hlt : p.market.settlementFactorWad < WAD) : 0 ≤ p.slack := by
  refine Run.history_invariant (I := fun hist p => (∀ x ∈ hist, Unclamped a x) → (∀ x ∈ hist, CarriesExactly a x) →
    p.market.settlementFactorWad ≠ 0 → p.market.settlementFactorWad < WAD → 0 ≤ p.slack) hg ?_ ?_
    r hp hfirst hexact h0 hlt
  · intro hist x q _ _ hfresh _ _ h0
    cases hfresh
    exact absurd rfl h0
  · intro hist x q q' hr hq hq' hstep ih hfirst hexact h0 hlt
    obtain ⟨hx, hfirst⟩ := List.forall_mem_cons.1 hfirst
    obtain ⟨hx', hexact⟩ := List.forall_mem_cons.1 hexact
    obtain ⟨hpre, -, hvault⟩ := World.pool_eq_some.1 hq
    obtain ⟨hpost, -⟩ := World.pool_eq_some.1 hq'
    refine hstep.slack_nonneg (Reachable.ledger hr hq) (ih hfirst hexact) ?_ ?_ h0 hlt
    · intro hz
      rw [hvault]
      exact hx _ _ hpre hpost hz h0
    · intro l scaled position hexit hposition hpos
      exact hx' l scaled _ position hexit hpre hposition hpos

/-- In a run in which no exit rounds an older haircut, and whose first settlement was not clamped, the vault covers
the remaining units and all claims at every factor below par, and no claim is reduced by the vault surplus. -/
theorem distress_covered (hg : Genesis w₀) (r : Run w₀ hist w) (hma : w.markets.lookup a = some ma)
    (h0 : 0 < ma.market.settlementFactorWad) (hlt : ma.market.settlementFactorWad < WAD)
    (hfirst : ∀ x ∈ hist, Unclamped a x) (hexact : ∀ x ∈ hist, CarriesExactly a x) :
    (∀ l q, ma.positions.lookup l = some q →
      claimableExact q.haircutOwed q.withdrawalSf ma.market.settlementFactorWad =
        .ok (q.claimable ma.market.settlementFactorWad)) ∧
    ma.market.scaledTotalSupply * ma.market.scaleFactor / WAD * ma.market.settlementFactorWad / WAD +
        ma.positions.total (LenderPosition.claimable · ma.market.settlementFactorWad) ≤
      w.tokens.amount ma.market.vault ∧
    ∀ l q exact claimed, ma.positions.lookup l = some q → claimableNow ma.market q = .ok exact →
      capAtSurplus ma.market (w.tokens.amount ma.market.vault) exact = .ok claimed → claimed = exact := by
  have hr : Reachable w := r.reachable (.init hg)
  have hl := Reachable.books hr hma
  have hp := World.pool_of_lookup hma
  rw [← (Reachable.placed hr hma).vault] at hp
  have hcovered := hl.covered_of_slack (Run.slack_nonneg hg r hp hfirst hexact h0.ne' hlt)
  refine ⟨?_, hcovered, ?_⟩
  · intro l q hq
    exact claimableExact_eq (hl.owed_u64 hq) (hl.anchored l q hq).lt_wad hlt.le
  · intro l q exact claimed hq hclaim hcap
    obtain ⟨obligations, hobligations, hmin, -⟩ := capAtSurplus_eq_ok.1 hcap
    have hclaim := hl.exact_eq hlt.le hq hclaim
    have hface := remainingObligations_ok hobligations
    have hshare := Finmap.le_total_nat hq (LenderPosition.claimable · ma.market.settlementFactorWad)
    simp only [Pool.face, Pool.claimable] at hcovered
    dsimp only at hclaim
    omega

namespace Sample

/-- Alice exits at one half, and again at three quarters, where exactly 1 of the missing 2 has been recovered. -/
def carried : List Action := defaulted ++ [withdraw alice 4, repay 4, reSettle, withdraw alice 2]

end Sample

theorem distress_covered_carried :
    ∃ ma, (Sample.genesis.performAll Sample.carried).markets.lookup Sample.market = some ma ∧
      ma.market.settlementFactorWad = 750000000000000000 ∧ ma.market.haircutAccumulator = 2 ∧
      10 * 750000000000000000 / WAD + ma.positions.total (LenderPosition.claimable · 750000000000000000) ≤
        (Sample.genesis.performAll Sample.carried).tokens.amount ma.market.vault := by
  obtain ⟨ma, hma, hx⟩ := Option.map_eq_some_iff.1
    (show ((Sample.genesis.performAll Sample.carried).markets.lookup Sample.market).map
      (fun ma => (ma.market.settlementFactorWad, ma.market.scaledTotalSupply * ma.market.scaleFactor / WAD,
        ma.market.haircutAccumulator)) = some (750000000000000000, 10, 2) by decide +kernel)
  simp only [Prod.mk.injEq] at hx
  obtain ⟨hfactor, hface, howed⟩ := hx
  have hfirst : ∀ x ∈ Sample.genesis.history Sample.carried, Unclamped Sample.market x := by decide +kernel
  have hexact : ∀ x ∈ Sample.genesis.history Sample.carried, CarriesExactly Sample.market x := by decide +kernel
  obtain ⟨-, hcovered, -⟩ := distress_covered Sample.genesis_initial (World.performAll_run _ Sample.carried) hma
    (by rw [hfactor]; decide) (by rw [hfactor]; decide) hfirst hexact
  rw [hfactor, hface] at hcovered
  exact ⟨ma, hma, hfactor, howed, hcovered⟩

namespace Sample

/-- Both lenders exit again at three quarters: of the missing unit of each a half has been recovered, but a whole one
is paid. -/
def overpaid : List Action := haircut ++ [repay 4, reSettle, withdraw alice 4, withdraw bob 4]

end Sample

/-- The rounded recoveries take what the remaining units need: at three quarters 4 units are left, and 2 tokens. -/
theorem overpaid_uncovered :
    (∀ x ∈ Sample.genesis.history Sample.overpaid, Unclamped Sample.market x) ∧
    ∃ ma, (Sample.genesis.performAll Sample.overpaid).markets.lookup Sample.market = some ma ∧
      0 < ma.market.settlementFactorWad ∧ ma.market.settlementFactorWad < WAD ∧
      (Sample.genesis.performAll Sample.overpaid).tokens.amount ma.market.vault <
        ma.market.scaledTotalSupply * ma.market.scaleFactor / WAD * ma.market.settlementFactorWad / WAD +
          ma.positions.total (LenderPosition.claimable · ma.market.settlementFactorWad) := by
  refine ⟨by decide +kernel, ?_⟩
  obtain ⟨ma, hma, hx⟩ := Option.map_eq_some_iff.1
    (show ((Sample.genesis.performAll Sample.overpaid).markets.lookup Sample.market).map
      (fun ma => (ma.market.settlementFactorWad, ma.market.scaledTotalSupply * ma.market.scaleFactor / WAD,
        (Sample.genesis.performAll Sample.overpaid).tokens.amount ma.market.vault)) =
      some (750000000000000000, 4, 2) by decide +kernel)
  simp only [Prod.mk.injEq] at hx
  obtain ⟨hfactor, hface, hvault⟩ := hx
  refine ⟨ma, hma, by rw [hfactor]; decide, by rw [hfactor]; decide, ?_⟩
  rw [hvault, hface, hfactor]
  exact Nat.lt_add_right _ (by decide)

end Coalesce
