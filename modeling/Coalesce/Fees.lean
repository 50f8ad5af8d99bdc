import Coalesce.Authority
import Coalesce.Growth
import Coalesce.Solvency

/-!
# Protocol fees

The fee of an accrual is the part of it that can fail: `matured_accrual_iff` says exactly when.  Fees are junior to
the lenders (`fees_junior`): they are collected from fully settled markets only, out of what lies above the claims of
the lenders, and never more than was accrued.
-/

namespace Coalesce

open LendingError

/-! ### The fee of an accrual -/

/-- The fee on the interest `delta`, valued at the scale factor before the accrual. -/
def Market.fee (m : Market) (feeRateBps delta : ℕ) : ℕ :=
  m.scaledTotalSupply * m.scaleFactor / WAD * (delta * feeRateBps / BPS) / WAD

section Accruals

variable {m m' : Market} {c : ProtocolConfig} {now : ℤ} {d fees : ℕ}

/-- The product with the normalized supply needs no test of its own: if it does not fit, then neither does the fee. -/
theorem feeNormalized_eq_ok {bps f : ℕ} (hd : d * bps ≤ u128Max) :
    feeNormalized m.scaledTotalSupply m.scaleFactor d bps = .ok f ↔
      m.scaledTotalSupply * m.scaleFactor ≤ u128Max ∧ m.fee bps d ≤ u64Max ∧ m.fee bps d = f := by
  have hbps : BPS ≠ 0 := by decide
  simp only [feeNormalized, bind_eq_ok, checkedMul_eq_ok, checkedDiv_eq_ok, tryU64_eq_ok]
  constructor
  · rintro ⟨_, ⟨-, rfl⟩, _, ⟨-, rfl⟩, _, ⟨hsupply, rfl⟩, _, ⟨-, rfl⟩, _, ⟨-, rfl⟩, _, ⟨-, rfl⟩, hfee, rfl⟩
    exact ⟨hsupply, hfee, rfl⟩
  · rintro ⟨hsupply, hfee, rfl⟩
    have hproduct : m.scaledTotalSupply * m.scaleFactor / WAD * (d * bps / BPS) ≤ u128Max := by
      have hlt := Nat.lt_mul_of_div_lt (Nat.lt_succ_of_le hfee) WAD_pos
      exact hlt.le.trans (by decide)
    exact ⟨_, ⟨hd, rfl⟩, _, ⟨hbps, rfl⟩, _, ⟨hsupply, rfl⟩, _, ⟨WAD_pos.ne', rfl⟩, _, ⟨hproduct, rfl⟩, _,
      ⟨WAD_pos.ne', rfl⟩, hfee, rfl⟩

theorem accruedFees_fits_iff (hd : d * c.feeRateBps ≤ u128Max) :
    (∃ fees, accruedFees m c d = .ok fees) ↔ c.feeRateBps = 0 ∨
      (m.scaledTotalSupply * m.scaleFactor ≤ u128Max ∧ m.accruedProtocolFees + m.fee c.feeRateBps d ≤ u64Max) := by
  unfold accruedFees
  by_cases hrate : 0 < c.feeRateBps
  · simp only [if_pos hrate, bind_eq_ok, feeNormalized_eq_ok hd, checkedAdd_eq_ok, hrate.ne', false_or]
    constructor
    · rintro ⟨_, _, ⟨hsupply, -, rfl⟩, hfees, -⟩
      exact ⟨hsupply, hfees⟩
    · rintro ⟨hsupply, hfees⟩
      exact ⟨_, _, ⟨hsupply, (Nat.le_add_left _ _).trans hfees, rfl⟩, hfees, rfl⟩
  · rw [if_neg hrate]
    exact iff_of_true ⟨_, rfl⟩ (.inl (by omega))

theorem accruedFees_eq (h : accruedFees m c d = .ok fees) : fees = m.accruedProtocolFees + m.fee c.feeRateBps d := by
  unfold accruedFees at h
  split at h
  · simp only [feeNormalized, bind_eq_ok, checkedMul_eq_ok, checkedDiv_eq_ok, tryU64_eq_ok, checkedAdd_eq_ok] at h
    obtain ⟨_, ⟨_, ⟨-, rfl⟩, _, ⟨-, rfl⟩, _, ⟨-, rfl⟩, _, ⟨-, rfl⟩, _, ⟨-, rfl⟩, _, ⟨-, rfl⟩, -, rfl⟩, -, rfl⟩ := h
    rfl
  · have hzero : c.feeRateBps = 0 := by omega
    simp [← Except.ok.inj h, Market.fee, hzero]

/-- An empty market accrues no fees. -/
theorem accruedFees_empty (h : accruedFees m c d = .ok fees) (hsupply : m.scaledTotalSupply = 0) :
    fees = m.accruedProtocolFees := by
  simp [accruedFees_eq h, Market.fee, hsupply]

theorem accrueInterest_empty (h : accrueInterest m c now = .ok m') (hsupply : m.scaledTotalSupply = 0) :
    m'.accruedProtocolFees = m.accruedProtocolFees := by
  rcases accrueInterest_grows h with ⟨-, rfl⟩ | ⟨g, -, -, hfees⟩
  · rfl
  · exact accruedFees_empty hfees hsupply

end Accruals

/-! ### Accruals at maturity -/

section Matured

variable {a : Address} {p p' : Pool} {e : Option Event}

theorem Pool.Fresh.headroom (h : p.Fresh a) : p.market.Headroom := by
  cases h with
  | mk _ _ hrate hmin hmax =>
    have hdelta : (0 : ℤ) ≤ MIN_MATURITY_DELTA := by decide
    exact .start hrate rfl (by dsimp only [freshMarket]; omega) hmax

theorem Pool.Step.headroom (h : Pool.Step a p e p') (hp : p.market.Headroom) : p'.market.Headroom := by
  cases h with
  | idle | withdrawExcess | close => exact hp
  | deposit _ _ haccrue | borrow _ haccrue | repay haccrue | repayInterest haccrue
  | reSettle _ haccrue | collectFees _ _ haccrue =>
    have hm := hp.accrue haccrue
    exact ⟨hm.rate, hm.wad_le, hm.last_le, hm.compound⟩
  | exit _ haccrue hsettles _ _ _ _ htracks =>
    have hm := hp.accrue haccrue
    dsimp only
    rw [htracks.shape.market, hsettles.shape]
    exact ⟨hm.rate, hm.wad_le, hm.last_le, hm.compound⟩
  | claim _ _ _ _ hrecord =>
    dsimp only
    rw [(recordClaim_shape hrecord).market]
    exact ⟨hp.rate, hp.wad_le, hp.last_le, hp.compound⟩

theorem Reachable.headroom {w : World} (h : Reachable w) {ma : MarketAccounts} (hma : w.markets.lookup a = some ma) :
    ma.market.Headroom :=
  Reachable.pool_invariant (I := fun p => p.market.Headroom) (fun _ => Pool.Fresh.headroom)
    (fun _ _ _ hp hs => hs.headroom hp) h (World.pool_of_lookup hma)

/-- An instruction that accrues interest first accrues it on the market that it is about. -/
theorem Step.accrues {w w' : World} {e : Event} (hw : WellFormed w) (h : Step w (some e) w') (haccrues : e.accrues)
    (he : e.market = some a) : Accrues w a e w' := by
  have hsame {b : Address} (ha : Accrues w b e w') : Accrues w a e w' :=
    Option.some.inj (ha.event.symm.trans he) ▸ ha
  cases h with
  | instruction hsign hok =>
    cases processInstruction_effect hw hsign hok with
    | leaves hl => exact absurd (hl.event.symm.trans he) (Option.some_ne_none a).symm
    | borrows ha | repays ha | collects ha | accrues ha => exact hsame ha
    | acts _ _ hnot => exact absurd haccrues hnot
    | lists | creates => exact absurd haccrues Bool.false_ne_true

/-- So it succeeds only if the accrual does. -/
theorem Step.accrued {w w' : World} {e : Event} (hw : WellFormed w) (h : Step w (some e) w') (haccrues : e.accrues)
    (he : e.market = some a) {ma : MarketAccounts} (hma : w.markets.lookup a = some ma) {c : ProtocolConfig}
    (hc : w.config = some c) : ∃ m, accrueInterest ma.market c w.clock = .ok m := by
  obtain ⟨config, p, -, m, hconfig, hp, -, haccrue, -⟩ := (h.accrues hw haccrues he).accrual
  obtain rfl := Option.some.inj (hconfig.symm.trans hc)
  obtain rfl := Option.some.inj (hp.symm.trans (World.pool_of_lookup hma))
  exact ⟨m, haccrue⟩

end Matured

/-- At or after maturity the interest of an accrual always fits.  The accrual succeeds unless there is a fee to charge
that does not fit, and then it fails with `mathOverflow`, and so do the instructions that begin with it. -/
theorem matured_accrual_iff {w : World} {a : Address} {ma : MarketAccounts} (h : Reachable w)
    (hma : w.markets.lookup a = some ma) {c : ProtocolConfig} (hfee : c.feeRateBps ≤ MAX_FEE_RATE_BPS) {now : ℤ}
    (hnow : ma.market.maturityTimestamp ≤ now) :
    ∃ g, totalGrowthWad ma.market.annualInterestBps
        (ma.market.maturityTimestamp - ma.market.lastAccrualTimestamp).toNat = .ok g ∧
      ((∃ m, accrueInterest ma.market c now = .ok m) ↔
        ma.market.lastAccrualTimestamp = ma.market.maturityTimestamp ∨ c.feeRateBps = 0 ∨
          (ma.market.scaledTotalSupply * ma.market.scaleFactor ≤ u128Max ∧
            ma.market.accruedProtocolFees + ma.market.fee c.feeRateBps (g - WAD) ≤ u64Max)) ∧
      (∀ e, accrueInterest ma.market c now = .error e → e = mathOverflow) ∧
      ∀ e w', e.accrues → e.market = some a → w.config = some c → w.clock = now → Step w (some e) w' →
        ∃ m, accrueInterest ma.market c now = .ok m := by
  have hroom := h.headroom hma
  have hlast := hroom.last_le
  obtain ⟨g, sf, hg, hsf, heq⟩ := hroom.accrueInterest_eq c (hlast.trans hnow)
  have helapsed : ma.market.elapsed now = (ma.market.maturityTimestamp - ma.market.lastAccrualTimestamp).toNat := by
    rw [Market.elapsed, min_eq_right hnow]
  rw [helapsed] at hg heq
  refine ⟨g, hg, ?_, ?_, ?_⟩
  · have hdelta : (g - WAD) * c.feeRateBps ≤ u128Max := by
      have hmax : MAX_FEE_RATE_BPS ≤ WAD := by decide
      have hrate : c.feeRateBps ≤ ma.market.scaleFactor := hfee.trans (hmax.trans hroom.wad_le)
      calc (g - WAD) * c.feeRateBps ≤ g * ma.market.scaleFactor := Nat.mul_le_mul (Nat.sub_le _ _) hrate
        _ = ma.market.scaleFactor * g := Nat.mul_comm _ _
        _ ≤ u128Max := (mulWad_eq_ok.1 hsf).1
    rw [← accruedFees_fits_iff hdelta, heq]
    by_cases hzero : (ma.market.maturityTimestamp - ma.market.lastAccrualTimestamp).toNat = 0
    · rw [if_pos hzero]
      exact iff_of_true ⟨_, rfl⟩ (.inl (by omega))
    · rw [if_neg hzero]
      simp only [bind_eq_ok, Except.ok.injEq]
      constructor
      · rintro ⟨_, fees, hfees, -⟩
        exact .inr ⟨fees, hfees⟩
      · rintro (hsame | ⟨fees, hfees⟩)
        · omega
        · exact ⟨_, fees, hfees, rfl⟩
  · intro e he
    rcases accrueInterest_error he with hoverflow | ⟨-, hlt⟩
    · exact hoverflow
    · rw [min_eq_right hnow] at hlt
      omega
  · rintro e w' haccrues he hc rfl hs
    exact hs.accrued h.wellFormed haccrues he hma hc

namespace Sample

def configureWith (feeRateBps : ℕ) (feeAuthority : Address) : Action :=
  .instruction [config, signer admin, account feeAuthority, account admin, account blacklistProgram, other,
    account .programData] (0 :: leBytes 2 feeRateBps)

/-- All interest goes to the protocol, at the largest rate over the longest term, and the market was not accrued
before it matured. -/
def frozen : List Action :=
  [configureWith 10000 admin, whitelist, createWith 10000 157680000, deposit alice WAD, .clock 157680000]

end Sample

/-- At a fee of one percent the same market can be accrued. -/
theorem matured_accrual_iff_frozen :
    ∃ ma m, (Sample.genesis.performAll Sample.frozen).markets.lookup Sample.market = some ma ∧
      accrueInterest ma.market { Sample.protocol with feeRateBps := 100 } 157680000 = .ok m := by
  obtain ⟨ma, hma, hx⟩ := Option.map_eq_some_iff.1
    (show ((Sample.genesis.performAll Sample.frozen).markets.lookup Sample.market).map (fun ma =>
      (ma.market.scaledTotalSupply, ma.market.scaleFactor, ma.market.accruedProtocolFees, ma.market.annualInterestBps,
        ma.market.maturityTimestamp, ma.market.lastAccrualTimestamp)) = some (WAD, WAD, 0, 10000, 157680000, 0) by
      decide +kernel)
  simp only [Prod.mk.injEq] at hx
  obtain ⟨hsupply, hsf, hfees, hrate, hmaturity, hlast⟩ := hx
  obtain ⟨g, hg, hiff, -⟩ := matured_accrual_iff (World.performAll_reachable Sample.genesis_reachable Sample.frozen) hma
    (c := { Sample.protocol with feeRateBps := 100 }) (by decide) hmaturity.le
  have hgrowth : totalGrowthWad 10000 157680000 = .ok 147401944173300465762 := by decide +kernel
  rw [hrate, hmaturity, hlast] at hg
  obtain rfl := Except.ok.inj (hg.symm.trans hgrowth)
  obtain ⟨m, hm⟩ := hiff.2 (.inr (.inr (by rw [Market.fee, hsupply, hsf, hfees]; decide)))
  exact ⟨ma, m, hma, hm⟩

/-- The fee on the interest of the whole term is more than 64 bits hold. -/
theorem matured_accrual_fails_frozen :
    ∃ ma c, Reachable (Sample.genesis.performAll Sample.frozen) ∧
      (Sample.genesis.performAll Sample.frozen).markets.lookup Sample.market = some ma ∧
      (Sample.genesis.performAll Sample.frozen).config = some c ∧ c.feeRateBps ≤ MAX_FEE_RATE_BPS ∧
      ma.market.maturityTimestamp ≤ 157680000 ∧ ma.market.lastAccrualTimestamp ≤ 157680000 ∧
      accrueInterest ma.market c 157680000 = .error mathOverflow := by
  obtain ⟨ma, hma, hx⟩ := Option.map_eq_some_iff.1
    (show ((Sample.genesis.performAll Sample.frozen).markets.lookup Sample.market).map (fun ma =>
      (ma.market.maturityTimestamp, ma.market.lastAccrualTimestamp,
        (accrueInterest ma.market { Sample.protocol with feeRateBps := 10000 } 157680000).toOption.isNone)) =
      some (157680000, 0, true) by decide +kernel)
  simp only [Prod.mk.injEq] at hx
  obtain ⟨hmaturity, hlast, hnone⟩ := hx
  have hconfig : (Sample.genesis.performAll Sample.frozen).config =
      some { Sample.protocol with feeRateBps := 10000 } := by
    decide +kernel
  refine ⟨ma, _, World.performAll_reachable Sample.genesis_reachable _, hma, hconfig, by decide, hmaturity.le,
    by rw [hlast]; decide, ?_⟩
  cases hresult : accrueInterest ma.market { Sample.protocol with feeRateBps := 10000 } 157680000 with
  | ok m =>
    rw [hresult] at hnone
    cases hnone
  | error e =>
    rcases accrueInterest_error hresult with rfl | ⟨-, hlt⟩
    · rfl
    · rw [hmaturity, hlast] at hlt
      exact absurd hlt (by decide)

/-! ### Where fees come from -/

/-- The fees that the market `a` keeps for the protocol. -/
def World.fees (w : World) (a : Address) : ℕ := (w.markets.lookup a).elim 0 fun ma => ma.market.accruedProtocolFees

/-- The fee that an accrual of the market `a` would add. -/
def World.pendingFee (w : World) (a : Address) : ℕ :=
  match w.config, w.markets.lookup a with
  | some config, some ma => match accrueInterest ma.market config w.clock with
    | .ok m => m.accruedProtocolFees - ma.market.accruedProtocolFees
    | .error _ => 0
  | _, _ => 0

/-- The fee that a step accrues on the market `a`. -/
def feeAccrued (a : Address) (x : Record) : ℕ :=
  if x.event.any (fun e => e.accrues && e.market = some a) then x.pre.pendingFee a else 0

/-- The fees that a step takes out of the market `a`. -/
def feeCollected (a : Address) (x : Record) : ℕ :=
  x.event.elim 0 fun e => if e.market = some a then e.collected else 0

section Steps

variable {w w' : World} {a : Address} {p p' : Pool} {e : Event}

theorem Event.collected_eq_zero (h : ¬e.accrues) : e.collected = 0 := by
  cases e with
  | collectFees => exact absurd rfl h
  | _ => rfl

theorem Pool.Step.fees_of_not (h : Pool.Step a p (some e) p') (he : e.market = some a) (haccrues : ¬e.accrues) :
    p'.market.accruedProtocolFees = p.market.accruedProtocolFees := by
  cases h with
  | idle hidle => exact absurd he hidle
  | withdrawExcess | close => rfl
  | exit _ _ _ _ _ _ _ _ _ _ hexit => rcases hexit with rfl | rfl <;> exact absurd rfl haccrues
  | claim _ _ _ _ hrecord =>
    dsimp only
    rw [(recordClaim_shape hrecord).market]
  | _ => exact absurd rfl haccrues

theorem World.fees_of_pool (h : w.pool a = some p) : w.fees a = p.market.accruedProtocolFees := by
  rw [World.fees, (World.pool_eq_some.1 h).1]
  rfl

/-- An accrual adds the pending fee, less what is collected at once. -/
theorem Accrues.fees (h : Accrues w a e w') : w'.fees a + e.collected = w.fees a + w.pendingFee a := by
  obtain ⟨config, p, p', m, hconfig, hp, hp', haccrue, hfees⟩ := h.accrual
  obtain ⟨hma, hclock, -⟩ := World.pool_eq_some.1 hp
  have hle : p.market.accruedProtocolFees ≤ m.accruedProtocolFees := by
    obtain ⟨_, _, rfl, -, hle, -⟩ := accrueInterest_ok haccrue
    exact hle
  have hpending : w.pendingFee a = m.accruedProtocolFees - p.market.accruedProtocolFees := by
    rw [hclock] at haccrue
    simp only [World.pendingFee, hconfig, hma, haccrue]
  rw [World.fees_of_pool hp, World.fees_of_pool hp', hpending, hfees, Nat.add_sub_cancel' hle]

/-- A step that is not about the market. -/
private theorem fees_other {e : Option Event} (he : e.bind Event.market ≠ some a)
    (hmarket : w'.markets.lookup a = w.markets.lookup a) :
    feeCollected a ⟨w, e, w'⟩ + w'.fees a = w.fees a + feeAccrued a ⟨w, e, w'⟩ := by
  rw [World.fees, World.fees, hmarket]
  cases e with
  | none => exact Nat.add_comm _ _
  | some e =>
    have he' : e.market ≠ some a := he
    simp [feeCollected, feeAccrued, he']

private theorem fees_accrue {b : Address} (h : Accrues w b e w') (haccrues : e.accrues) (a : Address) :
    feeCollected a ⟨w, some e, w'⟩ + w'.fees a = w.fees a + feeAccrued a ⟨w, some e, w'⟩ := by
  by_cases hab : b = a
  · subst hab
    have hcollected : feeCollected b ⟨w, some e, w'⟩ = e.collected := if_pos h.event
    have haccrued : feeAccrued b ⟨w, some e, w'⟩ = w.pendingFee b := by simp [feeAccrued, haccrues, h.event]
    rw [hcollected, haccrued, Nat.add_comm, h.fees]
  · refine fees_other ?_ (h.markets a (Ne.symm hab))
    rw [Option.bind_some, h.event]
    exact fun heq => hab (Option.some.inj heq)

/-- What a step collects from a market comes off its fees, to which the step may have added. -/
theorem Step.fees (hw : WellFormed w) {e : Option Event} (h : Step w e w') (a : Address) :
    feeCollected a ⟨w, e, w'⟩ + w'.fees a = w.fees a + feeAccrued a ⟨w, e, w'⟩ := by
  cases h with
  | instruction hsign hok =>
    cases processInstruction_effect hw hsign hok with
    | leaves hl | lists hl => exact fees_other (by simp [hl.event]) (by rw [hl.markets])
    | borrows ha | repays ha | collects ha => exact fees_accrue ha rfl a
    | accrues ha _ haccrues => exact fees_accrue ha haccrues a
    | @acts b e _ ha _ haccrues =>
      by_cases hab : b = a
      · subst hab
        obtain ⟨p, p', hp, hp', hstep⟩ := ha.pool
        have hfees := hstep.fees_of_not ha.event haccrues
        rw [World.fees_of_pool hp, World.fees_of_pool hp', hfees]
        simp [feeCollected, feeAccrued, haccrues, Event.collected_eq_zero haccrues]
      · exact fees_other (by simp [ha.event, hab]) (ha.markets a (Ne.symm hab))
    | @creates b _ _ _ _ hc =>
      by_cases hab : b = a
      · subst hab
        obtain ⟨p, hp, hfresh⟩ := hc.pool
        rw [World.fees_of_pool hp, World.fees, hc.none]
        cases hfresh with
        | mk => simp [feeCollected, feeAccrued, Event.collected, Event.accrues, freshMarket]
      · exact fees_other (by simp [Event.market, hab]) (hc.markets a (Ne.symm hab))
  | clock | tokens | external => exact fees_other (by simp) rfl

/-- The total collected from a market and the fees it still keeps are the total of the fees it accrued. -/
theorem Run.fees {hist : List Record} {w₀ : World} (hg : Genesis w₀) (r : Run w₀ hist w) (a : Address) :
    (hist.map (feeCollected a)).sum + w.fees a = (hist.map (feeAccrued a)).sum := by
  induction r with
  | nil =>
    rw [World.fees, hg.markets]
    rfl
  | cons r hs ih =>
    have hstep := hs.fees (Reachable.wellFormed (r.reachable (.init hg))) a
    rw [List.map_cons, List.sum_cons, List.map_cons, List.sum_cons]
    omega

end Steps

/-! ### Fees are junior -/

/-- A market that is not settled and has no supply has no fees. -/
def Pool.Feeless (p : Pool) : Prop :=
  p.market.settlementFactorWad = 0 → p.market.scaledTotalSupply = 0 → p.market.accruedProtocolFees = 0

section Junior

variable {w w' : World} {a : Address} {p p' : Pool} {e : Option Event} {n : ℕ}

private theorem Pool.Feeless.accrue (h : p.Feeless) {m : Market} {c : ProtocolConfig}
    (haccrue : accrueInterest p.market c p.clock = .ok m) (hsettled : m.settlementFactorWad = 0)
    (hsupply : m.scaledTotalSupply = 0) : m.accruedProtocolFees = 0 := by
  obtain ⟨_, _, hm, -⟩ := accrueInterest_ok haccrue
  rw [hm] at hsettled hsupply
  rw [accrueInterest_empty haccrue hsupply]
  exact h hsettled hsupply

/-- The last units leave a market by an exit, which settles it, and an empty market accrues nothing. -/
theorem Pool.Step.feeless (h : Pool.Step a p e p') (hp : p.Feeless) : p'.Feeless := by
  cases h with
  | idle | withdrawExcess | close => exact hp
  | deposit _ _ haccrue =>
    intro hsettled hsupply
    dsimp only at hsettled hsupply
    exact (hp.accrue haccrue hsettled (by omega) :)
  | borrow _ haccrue | repay haccrue | repayInterest haccrue => exact (hp.accrue haccrue :)
  | exit _ _ hsettles _ _ _ _ htracks =>
    intro hsettled
    dsimp only at hsettled
    rw [htracks.shape.market] at hsettled
    exact absurd hsettled hsettles.ne_zero
  | claim hsettled _ _ _ hrecord =>
    intro h0
    dsimp only at h0
    rw [(recordClaim_shape hrecord).market] at h0
    exact absurd h0 hsettled
  | reSettle hsettled _ _ _ himproved =>
    intro h0
    exact absurd h0 (Nat.ne_zero_of_lt himproved)
  | collectFees _ _ haccrue =>
    intro hsettled hsupply
    show _ - _ = 0
    rw [hp.accrue haccrue hsettled hsupply, Nat.zero_sub]

theorem Reachable.feeless (h : Reachable w) (hp : w.pool a = some p) : p.Feeless :=
  Reachable.pool_invariant (I := Pool.Feeless) (fun _ hfresh _ _ => by cases hfresh; rfl)
    (fun _ _ _ hp hs => hs.feeless hp) h hp

/-- Only a fully settled market has fees to collect. -/
theorem Pool.Step.settled_of_collect (h : Pool.Step a p (some (.collectFees a n)) p') (hn : n ≠ 0) (hl : p.Ledger)
    (hp : p.Feeless) : p.market.settlementFactorWad = WAD ∧ p'.market.settlementFactorWad = WAD := by
  cases h with
  | idle hidle => exact absurd rfl hidle
  | exit _ _ _ _ _ _ _ _ _ _ hexit => rcases hexit with hexit | hexit <;> cases hexit
  | claim _ _ _ _ _ _ hclaim => rcases hclaim with hclaim | hclaim <;> cases hclaim
  | collectFees hsolvent hwaiting haccrue _ hfees =>
    obtain ⟨_, _, hm, -⟩ := accrueInterest_ok haccrue
    have hfactor : p.market.settlementFactorWad = WAD := by
      rcases hsolvent with h0 | hle
      · rcases hwaiting with hsupply | hfactor
        · have hzero := hp.accrue haccrue (by rw [hm]; exact h0) (by rw [hm]; exact hsupply)
          omega
        · exact hfactor
      · exact le_antisymm (hl.settled (by have := WAD_pos; omega)).le_wad hle
    exact ⟨hfactor, by rw [hm]; exact hfactor⟩

theorem Pool.Step.settled_of_excess {borrower : Address} (h : Pool.Step a p (some (.withdrawExcess a borrower n)) p')
    (hl : p.Ledger) : p'.market.settlementFactorWad = WAD := by
  cases h with
  | idle hidle => exact absurd rfl hidle
  | exit _ _ _ _ _ _ _ _ _ _ hexit => rcases hexit with hexit | hexit <;> cases hexit
  | claim _ _ _ _ _ _ hclaim => rcases hclaim with hclaim | hclaim <;> cases hclaim
  | withdrawExcess _ _ hsettled => exact le_antisymm (hl.settled (by have := WAD_pos; omega)).le_wad hsettled

theorem Step.collects (hw : WellFormed w) (h : Step w (some (.collectFees a n)) w') :
    n ≠ 0 ∧ Acts w a (.collectFees a n) w' := by
  cases h with
  | instruction hsign hok =>
    cases processInstruction_effect hw hsign hok with
    | leaves hl => cases hl.event
    | collects ha _ hn => exact ⟨hn, ha.toActs⟩
    | accrues _ _ _ hcollects => exact absurd rfl hcollects
    | acts _ _ haccrues => exact absurd rfl haccrues

theorem Step.collect_paid (hw : WellFormed w) (h : Step w (some (.collectFees a n)) w') :
    ∃ c, w.config = some c ∧ w.PaidFrom w' a c.feeAuthority n := by
  cases h with
  | instruction hsign hok =>
    obtain ⟨c, hconfig, ⟨y, hy, hsigner, haddress⟩, hpays⟩ := (processInstruction_authorized hw hok).collect_pays
    exact ⟨c, hconfig, hpays.paidFrom hw (haddress ▸ hsign y hy hsigner)⟩

theorem Step.withdraws_excess (hw : WellFormed w) {b : Address} (h : Step w (some (.withdrawExcess a b n)) w') :
    Acts w a (.withdrawExcess a b n) w' := by
  cases h with
  | instruction hsign hok =>
    cases processInstruction_effect hw hsign hok with
    | leaves hl => cases hl.event
    | accrues _ _ haccrues => cases haccrues
    | acts ha =>
      obtain rfl := Option.some.inj ha.event
      exact ha

end Junior

/-- Fees are collected only from a market at full settlement, whose vault covers what it owes to the lenders, and they
go to an account of the fee authority.  The vault covers the lenders too after fees are collected or the borrower takes
the excess.  All that is collected was accrued before. -/
theorem fees_junior {w₀ w : World} {hist : List Record} (hg : Genesis w₀) (r : Run w₀ hist w) (a : Address) :
    (∀ x ∈ hist, ∀ n, x.event = some (.collectFees a n) →
      ∃ ma, x.pre.markets.lookup a = some ma ∧ ma.market.settlementFactorWad = WAD ∧
        ma.market.scaledTotalSupply * ma.market.scaleFactor / WAD + ma.market.haircutAccumulator ≤
          x.pre.tokens.amount (.vault a) ∧
        ∃ c, x.pre.config = some c ∧ x.pre.PaidFrom x.post a c.feeAuthority n) ∧
      (∀ x ∈ hist, ((∃ n, x.event = some (.collectFees a n)) ∨ ∃ b n, x.event = some (.withdrawExcess a b n)) →
        ∃ ma, x.post.markets.lookup a = some ma ∧
          ma.market.scaledTotalSupply * ma.market.scaleFactor / WAD + ma.market.haircutAccumulator ≤
            x.post.tokens.amount (.vault a)) ∧
      (hist.map (feeCollected a)).sum + w.fees a = (hist.map (feeAccrued a)).sum ∧
      (hist.map (feeCollected a)).sum ≤ (hist.map (feeAccrued a)).sum := by
  have hfees := r.fees hg a
  refine ⟨?_, ?_, hfees, by omega⟩
  · intro x hx n he
    obtain ⟨hr, hs⟩ := r.step_of_mem (.init hg) hx
    rw [he] at hs
    obtain ⟨hn, hacts⟩ := hs.collects (Reachable.wellFormed hr)
    obtain ⟨p, p', hp, -, hstep⟩ := hacts.pool
    have hl := Reachable.ledger hr hp
    obtain ⟨hma, -, hvault⟩ := World.pool_eq_some.1 hp
    obtain ⟨hfactor, -⟩ := hstep.settled_of_collect hn hl (Reachable.feeless hr hp)
    exact ⟨_, hma, hfactor, hvault ▸ hl.solvent hfactor, hs.collect_paid (Reachable.wellFormed hr)⟩
  · intro x hx he
    obtain ⟨hr, hs⟩ := r.step_of_mem (.init hg) hx
    have hw := Reachable.wellFormed hr
    obtain ⟨p', hp', hl, hfactor⟩ : ∃ p', x.post.pool a = some p' ∧ p'.Ledger ∧
        p'.market.settlementFactorWad = WAD := by
      rcases he with ⟨n, he⟩ | ⟨b, n, he⟩
      · rw [he] at hs
        obtain ⟨hn, hacts⟩ := hs.collects hw
        obtain ⟨p, p', hp, hp', hstep⟩ := hacts.pool
        have hl := Reachable.ledger hr hp
        exact ⟨p', hp', hstep.ledger hl, (hstep.settled_of_collect hn hl (Reachable.feeless hr hp)).2⟩
      · rw [he] at hs
        obtain ⟨p, p', hp, hp', hstep⟩ := (hs.withdraws_excess hw).pool
        have hl := Reachable.ledger hr hp
        exact ⟨p', hp', hstep.ledger hl, hstep.settled_of_excess hl⟩
    obtain ⟨hma, -, hvault⟩ := World.pool_eq_some.1 hp'
    exact ⟨_, hma, hvault ▸ hl.solvent hfactor⟩

namespace Sample

def collectFees (feeAuthority : Address) : Action :=
  .instruction [account market, config, signer feeAuthority, account (wallet feeAuthority), vault, authority,
    account TOKEN_PROGRAM_ID] [8]

/-- The borrower pays the interest of one day, all of which is a fee, once for Alice and once for the protocol; Alice
takes out a part, and Bob collects the fee. -/
def collected : List Action :=
  [configureWith 10000 bob, whitelist, createWith 10000 86400, deposit alice (WAD / 2), .clock 86400,
    repayInterest 2739726027397260, .clock 86700, withdraw alice 1000, collectFees bob]

end Sample

theorem fees_junior_collected :
    ((Sample.genesis.history Sample.collected).map (feeCollected Sample.market)).sum = 1369863013698630 ∧
      ((Sample.genesis.history Sample.collected).map (feeCollected Sample.market)).sum ≤
        ((Sample.genesis.history Sample.collected).map (feeAccrued Sample.market)).sum := by
  obtain ⟨-, -, -, hle⟩ := fees_junior Sample.genesis_initial
    (World.performAll_run Sample.genesis Sample.collected) Sample.market
  exact ⟨by decide +kernel, hle⟩

end Coalesce
