import Coalesce.Refinement

/-!
# The ledger of a market

`Pool.Ledger` is the invariant behind every property of the haircut bookkeeping: the aggregates of a market are the
sums over its positions, every open haircut is anchored at or below the settlement factor, a settled market is past
its grace period and accrued to its maturity, and at full settlement the vault covers the remaining face value
together with every open haircut.  The parts depend on each other: that no haircut is ever anchored at `WAD` needs
the vault to cover the claims made at `WAD`.
-/

namespace Coalesce

open ProRata

/-! ### The line of a position -/

def LenderPosition.weight (q : LenderPosition) : ℕ := ProRata.weight WAD q.haircutOwed q.withdrawalSf

def LenderPosition.offset (q : LenderPosition) : ℕ := ProRata.offset WAD q.haircutOwed q.withdrawalSf

/-- The haircut of a position is anchored at or below the settlement factor, and its line fits the checked
arithmetic. -/
structure LenderPosition.Anchored (factor : ℕ) (q : LenderPosition) : Prop where
  lt_wad : q.withdrawalSf < WAD
  le_factor : q.withdrawalSf ≤ factor
  zero_iff : q.haircutOwed = 0 ↔ q.withdrawalSf = 0
  line_fits : q.weight * q.withdrawalSf ≤ u128Max

namespace LenderPosition

variable {q : LenderPosition} {factor : ℕ}

theorem Anchored.mono (h : q.Anchored factor) {factor' : ℕ} (hle : factor ≤ factor') : q.Anchored factor' :=
  { h with le_factor := h.le_factor.trans hle }

theorem anchored_zero (ho : q.haircutOwed = 0) (ha : q.withdrawalSf = 0) (factor : ℕ) : q.Anchored factor where
  lt_wad := ha ▸ WAD_pos
  le_factor := ha ▸ Nat.zero_le _
  zero_iff := iff_of_true ho ha
  line_fits := by rw [ha]; exact Nat.zero_le _

theorem Anchored.contribution (h : q.Anchored factor) (hu : q.haircutOwed ≤ u64Max) :
    positionContribution q.haircutOwed q.withdrawalSf = .ok (q.weight, q.offset) :=
  (positionContribution_eq_ok hu h.lt_wad).2 ⟨h.line_fits, rfl⟩

theorem Anchored.line_zero (h : q.Anchored factor) (ho : q.haircutOwed = 0) : q.weight = 0 ∧ q.offset = 0 := by
  rw [weight, offset, ho]
  exact ⟨weight_zero h.lt_wad, offset_zero h.lt_wad⟩

theorem Anchored.reserve (h : q.Anchored factor) :
    q.offset + q.haircutOwed ≤ q.weight ∧ q.weight ≤ q.offset + (q.haircutOwed + q.haircutOwed) := by
  obtain ⟨h1, h2⟩ := reserve_bounds (h := q.haircutOwed) h.lt_wad
  refine ⟨h1, ?_⟩
  rcases Nat.eq_zero_or_pos q.haircutOwed with h0 | h0
  · rw [(h.line_zero h0).1]
    exact Nat.zero_le _
  · exact h2.trans (by rw [offset]; omega)

end LenderPosition

/-! ### The invariant -/

namespace Pool

/-- The face value of all remaining scaled units. -/
def face (p : Pool) : ℕ := p.market.scaledTotalSupply * p.market.scaleFactor / WAD

structure Settled (p : Pool) : Prop where
  grace : p.market.maturityTimestamp + SETTLEMENT_GRACE_PERIOD ≤ p.clock
  accrued : p.market.lastAccrualTimestamp = p.market.maturityTimestamp
  le_wad : p.market.settlementFactorWad ≤ WAD
  face_fits : p.market.scaledTotalSupply * p.market.scaleFactor ≤ u128Max

theorem Settled.matured {p : Pool} (h : p.Settled) : p.market.maturityTimestamp ≤ p.clock :=
  (le_add_of_nonneg_right (by decide : 0 ≤ SETTLEMENT_GRACE_PERIOD)).trans h.grace

structure Ledger (p : Pool) : Prop where
  supply : p.market.scaledTotalSupply = p.positions.total LenderPosition.scaledBalance
  owed : p.market.haircutAccumulator = p.positions.total LenderPosition.haircutOwed
  owed_le : p.market.haircutAccumulator ≤ u64Max
  weight : p.haircutState.claimWeightSum = p.positions.total LenderPosition.weight
  offset : p.haircutState.claimOffsetSum = p.positions.total LenderPosition.offset
  anchored : ∀ l q, p.positions.lookup l = some q → q.Anchored p.market.settlementFactorWad
  settled : p.market.settlementFactorWad ≠ 0 → p.Settled
  wad_le : WAD ≤ p.market.scaleFactor
  solvent : p.market.settlementFactorWad = WAD → p.face + p.market.haircutAccumulator ≤ p.vault

variable {a : Address} {p p' : Pool} {e : Option Event}

theorem Fresh.ledger (h : p.Fresh a) : p.Ledger := by
  cases h with
  | mk =>
    refine ⟨rfl, rfl, Nat.zero_le _, rfl, rfl, ?_, ?_, le_rfl, ?_⟩
    · intro l q hq
      simp [freshMarket] at hq
    · intro h0
      exact absurd rfl h0
    · intro hw
      exact absurd hw WAD_pos.ne

namespace Ledger

theorem supply_ge (h : p.Ledger) {l : Address} {q : LenderPosition} (hq : p.positions.lookup l = some q) :
    q.scaledBalance ≤ p.market.scaledTotalSupply :=
  h.supply ▸ Finmap.le_total_nat hq LenderPosition.scaledBalance

theorem owed_ge (h : p.Ledger) {l : Address} {q : LenderPosition} (hq : p.positions.lookup l = some q) :
    q.haircutOwed ≤ p.market.haircutAccumulator :=
  h.owed ▸ Finmap.le_total_nat hq LenderPosition.haircutOwed

theorem owed_u64 (h : p.Ledger) {l : Address} {q : LenderPosition} (hq : p.positions.lookup l = some q) :
    q.haircutOwed ≤ u64Max :=
  (h.owed_ge hq).trans h.owed_le

theorem weight_ge (h : p.Ledger) {l : Address} {q : LenderPosition} (hq : p.positions.lookup l = some q) :
    q.weight ≤ p.haircutState.claimWeightSum :=
  h.weight ▸ Finmap.le_total_nat hq LenderPosition.weight

theorem offset_ge (h : p.Ledger) {l : Address} {q : LenderPosition} (hq : p.positions.lookup l = some q) :
    q.offset ≤ p.haircutState.claimOffsetSum :=
  h.offset ▸ Finmap.le_total_nat hq LenderPosition.offset

/-- The sum of the weights reserves every open haircut, and at most twice as much. -/
theorem reserve (h : p.Ledger) :
    p.haircutState.claimOffsetSum + p.market.haircutAccumulator ≤ p.haircutState.claimWeightSum ∧
      p.haircutState.claimWeightSum ≤
        p.haircutState.claimOffsetSum + (p.market.haircutAccumulator + p.market.haircutAccumulator) := by
  rw [h.weight, h.offset, h.owed, ← Finmap.total_add, ← Finmap.total_add, ← Finmap.total_add]
  constructor
  · apply Finmap.total_le_total
    intro l q hq
    exact (h.anchored l q hq).reserve.1
  · apply Finmap.total_le_total
    intro l q hq
    exact (h.anchored l q hq).reserve.2

/-- Before the first settlement there are no haircuts. -/
theorem unsettled (h : p.Ledger) (h0 : p.market.settlementFactorWad = 0) : p.market.haircutAccumulator = 0 := by
  rw [h.owed]
  apply Finmap.total_eq_zero
  intro l q hq
  have hanchored := h.anchored l q hq
  exact hanchored.zero_iff.2 (Nat.eq_zero_of_le_zero (h0 ▸ hanchored.le_factor))

theorem lines_zero (h : p.Ledger) (ho : p.market.haircutAccumulator = 0) :
    p.haircutState.claimWeightSum = 0 ∧ p.haircutState.claimOffsetSum = 0 := by
  have hline (l q) (hq : p.positions.lookup l = some q) : q.weight = 0 ∧ q.offset = 0 :=
    (h.anchored l q hq).line_zero (Nat.eq_zero_of_le_zero (ho ▸ h.owed_ge hq))
  rw [h.weight, h.offset]
  constructor
  · apply Finmap.total_eq_zero
    intro l q hq
    exact (hline l q hq).1
  · apply Finmap.total_eq_zero
    intro l q hq
    exact (hline l q hq).2

/-! ### Accrual and deposits -/

/-- A settled market is not changed by an accrual. -/
theorem accrue_settled (h : p.Ledger) {m : Market} {c : ProtocolConfig}
    (haccrue : accrueInterest p.market c p.clock = .ok m) (h0 : p.market.settlementFactorWad ≠ 0) : m = p.market := by
  have hs := h.settled h0
  rw [accrueInterest_matured c hs.accrued hs.matured] at haccrue
  exact (Except.ok.inj haccrue).symm

theorem accrue (h : p.Ledger) {m : Market} {c : ProtocolConfig} (haccrue : accrueInterest p.market c p.clock = .ok m) :
    ({ p with market := m } : Pool).Ledger := by
  by_cases h0 : p.market.settlementFactorWad = 0
  · obtain ⟨sf, fees, rfl, hsf, -⟩ := accrueInterest_ok haccrue
    exact { h with
      settled := fun hne => absurd h0 hne
      wad_le := h.wad_le.trans hsf
      solvent := fun hw => absurd (h0.symm.trans hw) WAD_pos.ne }
  · rw [h.accrue_settled haccrue h0]
    exact h

/-- Until the grace period ends a market is not settled. -/
theorem unsettled_of_grace (h : p.Ledger) (htime : p.clock < p.market.maturityTimestamp + SETTLEMENT_GRACE_PERIOD) :
    p.market.settlementFactorWad = 0 := by
  by_contra h0
  have hgrace := (h.settled h0).grace
  omega

/-- Before maturity a market is not settled. -/
theorem unsettled_of_lt (h : p.Ledger) (htime : p.clock < p.market.maturityTimestamp) :
    p.market.settlementFactorWad = 0 :=
  h.unsettled_of_grace (htime.trans_le (le_add_of_nonneg_right (by decide)))

/-- More time and more tokens. -/
theorem idle (h : p.Ledger) {clock : ℤ} {vault : ℕ} (hclock : p.clock ≤ clock) (hvault : p.vault ≤ vault) :
    ({ p with clock, vault } : Pool).Ledger :=
  { h with
    settled := fun h0 => { h.settled h0 with grace := (h.settled h0).grace.trans hclock }
    solvent := fun hw => (h.solvent hw).trans hvault }

/-- The first settlement. -/
theorem settle (h : p.Ledger) {m : Market} (hsettles : Settles p.clock p.vault p.market m)
    (hlast : p.market.lastAccrualTimestamp = p.market.maturityTimestamp) : ({ p with market := m } : Pool).Ledger := by
  rcases hsettles with ⟨-, rfl⟩ | ⟨h0, hgrace, total, factor, htotal, hfactor, rfl⟩
  · exact h
  · obtain ⟨hfits, rfl⟩ := totalNormalized_eq_ok.1 htotal
    refine { h with
      anchored := fun l q hq => (h.anchored l q hq).mono (by rw [h0]; exact Nat.zero_le _)
      settled := fun _ => ⟨hgrace, hlast, (computeSettlementFactor_bounds hfactor).2, hfits⟩
      solvent := ?_ }
    intro (hw : factor = WAD)
    show p.face + p.market.haircutAccumulator ≤ p.vault
    rw [h.unsettled h0, Nat.add_zero]
    rcases computeSettlementFactor_eq_ok.1 hfactor with ⟨hz, -⟩ | ⟨hz, -, hclamp⟩
    · exact hz.trans_le (Nat.zero_le _)
    · exact le_of_clampFactor_eq_wad hz (hclamp.symm.trans hw)

end Ledger

theorem Settles.ne_zero {clock : ℤ} {vault : ℕ} {m m' : Market} (h : Settles clock vault m m') :
    m'.settlementFactorWad ≠ 0 := by
  rcases h with ⟨h0, rfl⟩ | ⟨-, -, _, _, -, hfactor, rfl⟩
  · exact h0
  · exact Nat.one_le_iff_ne_zero.1 (computeSettlementFactor_bounds hfactor).1

end Pool

/-! ### Recording a haircut -/

namespace LenderPosition

/-- What of the haircut is still open at the factor `s`. -/
def remaining (q : LenderPosition) (s : ℕ) : ℕ := ProRata.remaining WAD q.haircutOwed q.withdrawalSf s

/-- What of the haircut can be claimed at the factor `s`. -/
def claimable (q : LenderPosition) (s : ℕ) : ℕ := ProRata.claimable WAD q.haircutOwed q.withdrawalSf s

variable {q : LenderPosition} {s : ℕ}

theorem Anchored.remaining_le (h : q.Anchored s) : q.remaining s ≤ q.haircutOwed := ProRata.remaining_le h.le_factor

theorem Anchored.rebasedOwed (h : q.Anchored s) (hu : q.haircutOwed ≤ u64Max) (hs : s ≤ WAD) :
    rebasedOwed q s = .ok (q.remaining s) := by
  unfold Coalesce.rebasedOwed
  by_cases h0 : 0 < q.haircutOwed ∧ q.withdrawalSf ≠ s
  · rw [if_pos h0]
    exact rebaseRemainingOwed_eq hu h.lt_wad h.le_factor hs
  · rw [if_neg h0]
    rcases Nat.eq_zero_or_pos q.haircutOwed with h1 | h1
    · simp [remaining, ProRata.remaining, h1]
    · have : q.withdrawalSf = s := by
        by_contra hne
        exact h0 ⟨h1, hne⟩
      rw [remaining, this, remaining_anchor (this ▸ h.lt_wad)]

end LenderPosition

namespace Tracked

/-- The aggregates moved by the difference between the old and the new position. -/
structure Balanced (t : Tracked) (m : Market) (q : LenderPosition) (hs : HaircutState) : Prop extends
    t.Shape m q hs where
  owed : t.market.haircutAccumulator + q.haircutOwed = m.haircutAccumulator + t.position.haircutOwed
  owed_le : t.market.haircutAccumulator ≤ u64Max
  weight : t.haircutState.claimWeightSum + q.weight = hs.claimWeightSum + t.position.weight
  offset : t.haircutState.claimOffsetSum + q.offset = hs.claimOffsetSum + t.position.offset
  anchored : t.position.Anchored m.settlementFactorWad

end Tracked

section Record

variable {m : Market} {q : LenderPosition} {hs : HaircutState} {t : Tracked} {gap pay claimed : ℕ}

/-- A new gap is recorded on top of the rebased haircut, and what the haircut has recovered is paid out. -/
theorem recordGap_balanced (h : recordGap m q hs gap pay = .ok t) (hq : q.Anchored m.settlementFactorWad)
    (hf : m.settlementFactorWad < WAD) (hf0 : m.settlementFactorWad ≠ 0) (hgap : 0 < gap)
    (hu : m.haircutAccumulator ≤ u64Max) (howed : q.haircutOwed ≤ m.haircutAccumulator)
    (hw : q.weight ≤ hs.claimWeightSum) (ho : q.offset ≤ hs.claimOffsetSum) :
    t.Balanced m q hs ∧ t.position.haircutOwed = q.remaining m.settlementFactorWad + gap ∧
      t.position.withdrawalSf = m.settlementFactorWad ∧
      t.payout = pay + (q.haircutOwed - q.remaining m.settlementFactorWad) := by
  have hshape := recordGap_shape h
  have hqu := howed.trans hu
  obtain ⟨hs₁, rebased, hs₂, hremove, hrebased, -, hnew, hacc, hadd, rfl⟩ := recordGap_eq_ok.1 h
  rw [hq.rebasedOwed hqu hf.le, Except.ok.injEq] at hrebased
  subst hrebased
  obtain ⟨_, hold, rfl⟩ := removeContribution_eq_ok.1 hremove
  rw [hq.contribution hqu, Except.ok.injEq] at hold
  subst hold
  obtain ⟨_, hline, -, -, rfl⟩ := addContribution_eq_ok.1 hadd
  obtain ⟨hfits, rfl⟩ := (positionContribution_eq_ok hnew hf).1 hline
  have hle := hq.remaining_le
  refine ⟨⟨hshape, ?_, hacc, ?_, ?_, hf, le_rfl, ?_, hfits⟩, rfl, rfl, rfl⟩
  · show m.haircutAccumulator - (q.haircutOwed - q.remaining m.settlementFactorWad) + gap + q.haircutOwed =
      m.haircutAccumulator + (q.remaining m.settlementFactorWad + gap)
    omega
  · show hs.claimWeightSum - q.weight + _ + q.weight = hs.claimWeightSum + _
    rw [add_right_comm, Nat.sub_add_cancel hw]
    rfl
  · show hs.claimOffsetSum - q.offset + _ + q.offset = hs.claimOffsetSum + _
    rw [add_right_comm, Nat.sub_add_cancel ho]
    rfl
  · exact iff_of_false (by show q.remaining m.settlementFactorWad + gap ≠ 0; omega) hf0

/-- What an exit does to the books, whether it leaves a gap or not. -/
theorem Pool.Tracks.balanced {n : ℕ} (h : Pool.Tracks m hs q n pay t) (hq : q.Anchored m.settlementFactorWad)
    (hf0 : m.settlementFactorWad ≠ 0) (hu : m.haircutAccumulator ≤ u64Max)
    (howed : q.haircutOwed ≤ m.haircutAccumulator) (hw : q.weight ≤ hs.claimWeightSum)
    (ho : q.offset ≤ hs.claimOffsetSum) : t.Balanced m q hs := by
  rcases h with ⟨hf, hgap, -, h⟩ | ⟨-, rfl⟩
  · exact (recordGap_balanced h hq hf hf0 (by omega) hu howed hw ho).1
  · exact ⟨⟨rfl, rfl, rfl⟩, rfl, hu, rfl, rfl, hq⟩

/-- A claim takes what it pays off the haircut and anchors the rest at the current factor. -/
theorem recordClaim_balanced (h : recordClaim m q hs claimed = .ok t) (hq : q.Anchored m.settlementFactorWad)
    (hf : m.settlementFactorWad ≤ WAD) (hf0 : m.settlementFactorWad ≠ 0)
    (hfull : m.settlementFactorWad = WAD → claimed = q.haircutOwed)
    (hu : m.haircutAccumulator ≤ u64Max) (howed : q.haircutOwed ≤ m.haircutAccumulator)
    (hw : q.weight ≤ hs.claimWeightSum) (ho : q.offset ≤ hs.claimOffsetSum) : t.Balanced m q hs := by
  have hshape := recordClaim_shape h
  have hqu := howed.trans hu
  obtain ⟨old, hs₂, hold, hle, hacc, hadd, rfl⟩ := recordClaim_eq_ok.1 h
  rw [hq.contribution hqu, Except.ok.injEq] at hold
  subst hold
  have hbooks : m.haircutAccumulator - claimed + q.haircutOwed = m.haircutAccumulator + (q.haircutOwed - claimed) := by
    omega
  by_cases hrest : 0 < q.haircutOwed - claimed
  · have hlt : m.settlementFactorWad < WAD := lt_of_le_of_ne hf fun hw => by rw [hfull hw] at hrest; omega
    rw [if_pos hrest] at hadd
    obtain ⟨_, hline, -, -, rfl⟩ := addContribution_eq_ok.1 hadd
    obtain ⟨hfits, rfl⟩ := (positionContribution_eq_ok ((Nat.sub_le _ _).trans hqu) hlt).1 hline
    refine ⟨hshape, hbooks, (Nat.sub_le _ _).trans hu, ?_, ?_, ?_⟩
    · simp only [LenderPosition.weight, if_pos hrest] at hw ⊢
      omega
    · simp only [LenderPosition.offset, if_pos hrest] at ho ⊢
      omega
    · simp only [if_pos hrest]
      exact ⟨hlt, le_rfl, iff_of_false hrest.ne' hf0, hfits⟩
  · rw [if_neg hrest] at hadd
    obtain rfl := Except.ok.inj hadd
    have hzero : q.haircutOwed - claimed = 0 := by omega
    have hanchored := LenderPosition.anchored_zero (q := { q with
      haircutOwed := q.haircutOwed - claimed
      withdrawalSf := if 0 < q.haircutOwed - claimed then m.settlementFactorWad else 0 }) hzero (if_neg hrest)
      m.settlementFactorWad
    obtain ⟨hweight, hoffset⟩ := hanchored.line_zero hzero
    refine ⟨hshape, hbooks, (Nat.sub_le _ _).trans hu, ?_, ?_, hanchored⟩
    · show hs.claimWeightSum - q.weight + q.weight = hs.claimWeightSum + _
      rw [hweight, Nat.sub_add_cancel hw, Nat.add_zero]
    · show hs.claimOffsetSum - q.offset + q.offset = hs.claimOffsetSum + _
      rw [hoffset, Nat.sub_add_cancel ho, Nat.add_zero]

end Record

/-! ### Every step keeps the ledger -/

namespace Pool

variable {a : Address} {p p' : Pool} {e : Option Event}

theorem floor_add_floor_le (x y : ℕ) : x / WAD + y / WAD ≤ (x + y) / WAD := by
  rw [Nat.le_div_iff_mul_le WAD_pos, add_mul]
  exact Nat.add_le_add (Nat.div_mul_le_self x WAD) (Nat.div_mul_le_self y WAD)

theorem floor_le_floor_add (x y : ℕ) : (x + y) / WAD ≤ x / WAD + y / WAD + 1 := by
  rw [← Nat.lt_succ_iff, Nat.div_lt_iff_lt_mul WAD_pos]
  have hx := (div_mul_bounds x WAD_pos).2
  have hy := (div_mul_bounds y WAD_pos).2
  rw [add_mul] at hx hy
  rw [Nat.succ_eq_add_one, add_mul, add_mul, add_mul]
  omega

namespace Ledger

/-- Writing back the books of an exit of `scaled` units, or of a claim (`scaled = 0`). -/
theorem record (h : p.Ledger) (h0 : p.market.settlementFactorWad ≠ 0) {l : Address} {q : LenderPosition} {t : Tracked}
    (hq : p.positions.lookup l = some q) (hb : t.Balanced p.market q p.haircutState) {scaled : ℕ} (deposited : ℕ)
    {vault : ℕ}
    (hscaled : scaled ≤ q.scaledBalance)
    (hsolvent : p.market.settlementFactorWad = WAD →
      (p.market.scaledTotalSupply - scaled) * p.market.scaleFactor / WAD + t.market.haircutAccumulator ≤ vault) :
    Ledger { p with
      market := { t.market with
        scaledTotalSupply := t.market.scaledTotalSupply - scaled, totalDeposited := deposited }
      haircutState := t.haircutState
      positions := p.positions.insert l { t.position with scaledBalance := t.position.scaledBalance - scaled }
      vault } := by
  obtain ⟨⟨hm, hpos, -⟩, howed, howed_le, hweight, hoffset, hanchored⟩ := hb
  have hbalance : t.position.scaledBalance = q.scaledBalance := by rw [hpos]
  have hsupply : t.market.scaledTotalSupply = p.market.scaledTotalSupply := by rw [hm]
  have hfactor : t.market.settlementFactorWad = p.market.settlementFactorWad := by rw [hm]
  have hsf : t.market.scaleFactor = p.market.scaleFactor := by rw [hm]
  have hs := h.settled h0
  have total (f : LenderPosition → ℕ) := Finmap.total_insert
    (v := { t.position with scaledBalance := t.position.scaledBalance - scaled }) hq f
  constructor
  · have := total LenderPosition.scaledBalance
    have := h.supply
    have := h.supply_ge hq
    dsimp only at *
    omega
  · have := total LenderPosition.haircutOwed
    have := h.owed
    dsimp only at *
    omega
  · exact howed_le
  · have := total LenderPosition.weight
    have := h.weight
    simp only [LenderPosition.weight] at *
    omega
  · have := total LenderPosition.offset
    have := h.offset
    simp only [LenderPosition.offset] at *
    omega
  · intro l' q' hq'
    rw [hfactor]
    rcases Finmap.lookup_of_insert hq' with ⟨-, rfl⟩ | hq'
    · exact ⟨hanchored.lt_wad, hanchored.le_factor, hanchored.zero_iff, hanchored.line_fits⟩
    · exact h.anchored l' q' hq'
  · intro _
    constructor
    · rw [hm]; exact hs.grace
    · rw [hm]; exact hs.accrued
    · rw [hm]; exact hs.le_wad
    · rw [hm]; exact (Nat.mul_le_mul_right _ (Nat.sub_le _ _)).trans hs.face_fits
  · rw [hsf]; exact h.wad_le
  · intro hw
    have := hsolvent (hfactor.symm.trans hw)
    unfold face
    dsimp only
    rwa [hsupply, hsf]

/-- What a claim computes before it is capped. -/
theorem exact_eq (h : p.Ledger) (hle : p.market.settlementFactorWad ≤ WAD) {l : Address} {q : LenderPosition}
    (hq : p.positions.lookup l = some q) {exact : ℕ} (hexact : claimableNow p.market q = .ok exact) :
    exact = q.claimable p.market.settlementFactorWad := by
  obtain ⟨-, -, hexact⟩ := claimableNow_eq_ok.1 hexact
  rw [claimableExact_eq (h.owed_u64 hq) (h.anchored l q hq).lt_wad hle] at hexact
  exact (Except.ok.inj hexact).symm

/-- A claim at full settlement is never capped. -/
theorem claim_full (h : p.Ledger) (hw : p.market.settlementFactorWad = WAD) {l : Address} {q : LenderPosition}
    (hq : p.positions.lookup l = some q) {exact claimed : ℕ} (hexact : claimableNow p.market q = .ok exact)
    (hcap : capAtSurplus p.market p.vault exact = .ok claimed) : claimed = q.haircutOwed := by
  have hexact := h.exact_eq hw.le hq hexact
  rw [hw, LenderPosition.claimable, claimable_full (h.anchored l q hq).lt_wad] at hexact
  obtain ⟨obligations, hob, rfl, -⟩ := capAtSurplus_eq_ok.1 hcap
  have hface : obligations = p.face := by
    rw [remainingObligations_ok hob, hw, Nat.mul_div_cancel _ WAD_pos]
    rfl
  have := h.solvent hw
  have := h.owed_ge hq
  omega

theorem deposit (h : p.Ledger) (h0 : p.market.settlementFactorWad = 0) {lender : Address} {scaled vault deposited : ℕ}
    {position : LenderPosition}
    (hposition : depositPosition (p.positions.lookup lender) a lender scaled = .ok position) :
    Ledger { p with
      market := { p.market with
        scaledTotalSupply := p.market.scaledTotalSupply + scaled, totalDeposited := deposited }
      positions := p.positions.insert lender position
      vault } := by
  obtain ⟨-, -, hbalance, howed, hsf⟩ := depositPosition_ok hposition
  let d : LenderPosition := { market := a, lender, scaledBalance := 0, haircutOwed := 0, withdrawalSf := 0 }
  have hd : d.Anchored 0 := LenderPosition.anchored_zero rfl rfl 0
  have hold : ∀ f : LenderPosition → ℕ,
      (p.positions.lookup lender).elim (f d) f = f ((p.positions.lookup lender).getD d) :=
    fun f => by cases p.positions.lookup lender <;> rfl
  have hanchored : ((p.positions.lookup lender).getD d).Anchored p.market.settlementFactorWad := by
    cases hq : p.positions.lookup lender with
    | none => exact hd.mono (Nat.zero_le _)
    | some q => exact h.anchored lender q hq
  rw [← show d.scaledBalance = 0 from rfl, hold] at hbalance
  rw [← show d.haircutOwed = 0 from rfl, hold] at howed
  rw [← show d.withdrawalSf = 0 from rfl, hold] at hsf
  have total (f : LenderPosition → ℕ) (hf : f d = 0) := Finmap.total_insert_getD (k := lender) (v := position)
    (s := p.positions) f hf
  refine { h with supply := ?_, owed := ?_, weight := ?_, offset := ?_, anchored := ?_, settled := ?_, solvent := ?_ }
  · have := total LenderPosition.scaledBalance rfl
    have := h.supply
    dsimp only
    omega
  · have := total LenderPosition.haircutOwed rfl
    have := h.owed
    dsimp only
    omega
  · have := total LenderPosition.weight (hd.line_zero rfl).1
    have := h.weight
    simp only [LenderPosition.weight, howed, hsf] at *
    omega
  · have := total LenderPosition.offset (hd.line_zero rfl).2
    have := h.offset
    simp only [LenderPosition.offset, howed, hsf] at *
    omega
  · intro l q hq
    rcases Finmap.lookup_of_insert hq with ⟨-, rfl⟩ | hq
    · refine ⟨hsf ▸ hanchored.lt_wad, hsf ▸ hanchored.le_factor, ?_, ?_⟩
      · rw [hsf, howed]; exact hanchored.zero_iff
      · rw [LenderPosition.weight, hsf, howed]; exact hanchored.line_fits
    · exact h.anchored l q hq
  · intro hne
    exact absurd h0 hne
  · intro hw
    exact absurd (h0.symm.trans hw) WAD_pos.ne

theorem reSettle (h : p.Ledger) (h0 : p.market.settlementFactorWad ≠ 0) {factor : ℕ}
    (hfactor : computeResettleFactor p.vault p.face p.haircutState.claimWeightSum p.haircutState.claimOffsetSum =
      .ok factor)
    (himproved : p.market.settlementFactorWad < factor) :
    Ledger { p with market := { p.market with settlementFactorWad := factor } } := by
  obtain ⟨-, hf⟩ := computeResettleFactor_eq_ok.1 hfactor
  have hs := h.settled h0
  refine { h with
    anchored := fun l q hq => (h.anchored l q hq).mono himproved.le
    settled := fun _ => { hs with le_wad := computeResettleFactor_le hfactor }
    solvent := ?_ }
  intro (hw : factor = WAD)
  show p.face + p.market.haircutAccumulator ≤ p.vault
  have hreserve := h.reserve.1
  rcases hf with ⟨hz, -⟩ | ⟨hz, -, hclamp⟩
  · omega
  · have hraw := le_of_clampFactor_eq_wad hz (hclamp.symm.trans hw)
    omega

theorem collect (h : p.Ledger) {amount : ℕ} (hamount : withdrawableFees p.market p.vault = .ok amount) :
    Ledger { p with
      market := { p.market with accruedProtocolFees := p.market.accruedProtocolFees - amount }
      vault := p.vault - amount } := by
  have hle := withdrawableFees_le hamount
  refine { h with
    settled := fun h0 => { h.settled h0 with }
    solvent := ?_ }
  intro hw
  have := h.solvent hw
  show p.face + p.market.haircutAccumulator ≤ p.vault - amount
  unfold face at *
  omega

theorem close (h : p.Ledger) {lender : Address} {q : LenderPosition} (hq : p.positions.lookup lender = some q)
    (hbalance : q.scaledBalance = 0) (howed : q.haircutOwed = 0) :
    Ledger { p with positions := p.positions.erase lender } := by
  have hline := (h.anchored lender q hq).line_zero howed
  have total (f : LenderPosition → ℕ) (hf : f q = 0) : (p.positions.erase lender).total f = p.positions.total f := by
    rw [← Finmap.total_erase hq f, hf, Nat.add_zero]
  refine { h with
    supply := h.supply.trans (total _ hbalance).symm
    owed := h.owed.trans (total _ howed).symm
    weight := h.weight.trans (total _ hline.1).symm
    offset := h.offset.trans (total _ hline.2).symm
    anchored := ?_
    settled := fun h0 => { h.settled h0 with } }
  intro l q' hq'
  exact h.anchored l q' (Finmap.lookup_of_erase hq')

/-- A payment by the borrower. -/
theorem fund (h : p.Ledger) (amount repaid interest : ℕ) :
    Ledger { p with
      market := { p.market with totalRepaid := repaid, totalInterestRepaid := interest }
      vault := p.vault + amount } :=
  { h with
    settled := fun h0 => { h.settled h0 with }
    solvent := fun hw => (h.solvent hw).trans (Nat.le_add_right _ _) }

/-- The pool in which an exit is paid out: accrued to maturity and settled. -/
theorem settleExit (h : p.Ledger) {config : ProtocolConfig} {m m' : Market}
    (hmatured : p.market.maturityTimestamp ≤ p.clock) (haccrue : accrueInterest p.market config p.clock = .ok m)
    (hsettles : Settles p.clock p.vault m m') : ({ p with market := m' } : Pool).Ledger := by
  refine (h.accrue haccrue).settle hsettles ?_
  obtain ⟨_, _, rfl, -⟩ := accrueInterest_ok haccrue
  exact min_eq_right hmatured

/-- The books of an exit. -/
theorem exitBalanced (h : p.Ledger) (h0 : p.market.settlementFactorWad ≠ 0) {l : Address} {q : LenderPosition}
    {n pay : ℕ} {t : Tracked} (hq : p.positions.lookup l = some q)
    (htracks : Tracks p.market p.haircutState q n pay t) : t.Balanced p.market q p.haircutState :=
  htracks.balanced (h.anchored l q hq) h0 h.owed_le (h.owed_ge hq) (h.weight_ge hq) (h.offset_ge hq)

theorem claimBalanced (h : p.Ledger) (h0 : p.market.settlementFactorWad ≠ 0) {l : Address} {q : LenderPosition}
    {exact claimed : ℕ} {t : Tracked} (hq : p.positions.lookup l = some q)
    (hexact : claimableNow p.market q = .ok exact) (hcap : capAtSurplus p.market p.vault exact = .ok claimed)
    (hrecord : recordClaim p.market q p.haircutState claimed = .ok t) : t.Balanced p.market q p.haircutState :=
  recordClaim_balanced hrecord (h.anchored l q hq) (h.settled h0).le_wad h0 (fun hw => h.claim_full hw hq hexact hcap)
    h.owed_le (h.owed_ge hq) (h.weight_ge hq) (h.offset_ge hq)

end Ledger

theorem Step.ledger (hstep : Step a p e p') (h : p.Ledger) : p'.Ledger := by
  cases hstep with
  | idle _ hclock hvault => exact h.idle hclock hvault
  | deposit _ htime haccrue _ _ _ hposition =>
    have h0 : _ = 0 := h.unsettled_of_lt htime
    obtain ⟨_, _, rfl, -⟩ := accrueInterest_ok haccrue
    exact (h.accrue haccrue).deposit h0 hposition
  | borrow htime haccrue =>
    have h0 := h.unsettled_of_lt htime
    obtain ⟨_, _, rfl, -⟩ := accrueInterest_ok haccrue
    exact { h.accrue haccrue with
      settled := fun hne => absurd h0 hne
      solvent := fun hw => absurd (h0.symm.trans hw) WAD_pos.ne }
  | repay haccrue => exact (h.accrue haccrue).fund _ _ _
  | repayInterest haccrue => exact (h.accrue haccrue).fund _ _ _
  | @exit _ _ m' lender q scaled n pay t _ hmatured haccrue hsettles hposition _ hle hamounts htracks =>
    have h' := h.settleExit hmatured haccrue hsettles
    apply h'.record hsettles.ne_zero hposition (h'.exitBalanced hsettles.ne_zero hposition htracks) _ hle
    intro hw
    rcases htracks with ⟨hf, -⟩ | ⟨-, rfl⟩
    · exact absurd hw hf.ne
    · obtain ⟨-, -, -, hr⟩ := exitAmounts_eq_ok.1 hamounts
      obtain ⟨-, rfl⟩ := Prod.mk.inj hr
      have hle' : scaled ≤ m'.scaledTotalSupply := hle.trans (h'.supply_ge hposition)
      have hfloor := floor_add_floor_le (scaled * m'.scaleFactor) ((m'.scaledTotalSupply - scaled) * m'.scaleFactor)
      rw [← add_mul, Nat.add_sub_cancel' hle'] at hfloor
      have hsolvent : m'.scaledTotalSupply * m'.scaleFactor / WAD + m'.haircutAccumulator ≤ p.vault := h'.solvent hw
      have hw' : m'.settlementFactorWad = WAD := hw
      dsimp only
      rw [hw', Nat.mul_div_cancel _ WAD_pos]
      omega
  | @claim lender q exact claimed t _ hsettled hposition hexact hcap hrecord hpayout =>
    apply h.record hsettled hposition (h.claimBalanced hsettled hposition hexact hcap hrecord) t.market.totalDeposited
      (Nat.zero_le _)
    intro hw
    obtain ⟨_, _, -, -, hacc, -, rfl⟩ := recordClaim_eq_ok.1 hrecord
    have hsolvent := h.solvent hw
    unfold face at hsolvent
    dsimp only
    rw [Nat.sub_zero]
    omega
  | reSettle hsettled haccrue htotal hfactor himproved =>
    obtain rfl := h.accrue_settled haccrue hsettled
    obtain ⟨-, rfl⟩ := totalNormalized_eq_ok.1 htotal
    exact h.reSettle hsettled hfactor himproved
  | collectFees _ _ haccrue hamount => exact (h.accrue haccrue).collect hamount
  | @withdrawExcess _ vault _ hempty _ _ hvault =>
    refine { h with settled := fun h0 => { h.settled h0 with }, solvent := ?_ }
    intro hw
    have hsolvent := h.solvent hw
    have hface : p.face = 0 := by simp [face, hempty]
    show p.face + p.market.haircutAccumulator ≤ vault
    omega
  | close hposition hbalance howed => exact h.close hposition hbalance howed

end Pool

/-- Every market of every reachable state keeps its ledger. -/
theorem Reachable.ledger {w : World} (h : Reachable w) {a : Address} {p : Pool} (hp : w.pool a = some p) : p.Ledger :=
  Reachable.pool_invariant (fun _ hf => hf.ledger) (fun _ _ _ hl hs => hs.ledger hl) h hp

end Coalesce
