import Coalesce.Authority
import Coalesce.Fees

/-!
# The life of a market

A market has no status field.  Its phase follows from the clock, the maturity and the settlement factor, and each
handler checks the part of it that it needs.  `Phase.Step` is the automaton that these checks add up to: which
instruction succeeds in which phase, and where it leads.  Every run of the program is a run of the automaton.
-/

namespace Coalesce

inductive Phase
  /-- There is no market yet. -/
  | absent
  /-- Before maturity. -/
  | active
  /-- Matured, and lenders have to wait. -/
  | grace
  /-- The grace period is over and nobody has settled the market. -/
  | overdue
  /-- Settled below par. -/
  | distress
  | par
  deriving DecidableEq, Repr

namespace Phase

/-- The order in which a market passes through its phases. -/
def rank : Phase → ℕ
  | absent => 0
  | active => 1
  | grace => 2
  | overdue => 3
  | distress => 4
  | par => 5

def IsSettled (f : Phase) : Prop := f = distress ∨ f = par

/-- The life of the market at the address `a`. -/
inductive Step (a : Address) : Phase → Option Event → Phase → Prop
  /-- Time passes, or something else happens. -/
  | wait {e : Option Event} (he : e.bind Event.market ≠ some a) (f : Phase) : Step a f e f
  | mature {e : Option Event} (he : e.bind Event.market ≠ some a) {f : Phase} (hf : f = grace ∨ f = overdue) :
      Step a active e f
  | expire {e : Option Event} (he : e.bind Event.market ≠ some a) : Step a grace e overdue
  | createMarket (b : Address) (nonce : ℕ) : Step a absent (some (.createMarket a b nonce)) active
  | deposit (l : Address) (amount scaled : ℕ) : Step a active (some (.deposit a l amount scaled)) active
  | borrow (b : Address) (amount : ℕ) : Step a active (some (.borrow a b amount)) active
  | repay {f : Phase} (hf : f ≠ absent) (payer : Address) (amount debt : ℕ) :
      Step a f (some (.repay a payer amount debt)) f
  | repayInterest {f : Phase} (hf : f ≠ absent) (payer : Address) (amount total : ℕ) :
      Step a f (some (.repayInterest a payer amount total)) f
  | settle {e : Event} {l : Address} {payout scaled : ℕ} (he : e.IsExit a l payout scaled) {f : Phase}
      (hf : f.IsSettled) : Step a overdue (some e) f
  | exit {e : Event} {l : Address} {payout scaled : ℕ} (he : e.IsExit a l payout scaled) {f : Phase}
      (hf : f.IsSettled) : Step a f (some e) f
  | claim {e : Event} {l : Address} {claimed remaining : ℕ} (he : e.IsClaim a l claimed remaining) {f : Phase}
      (hf : f.IsSettled) : Step a f (some e) f
  | closePosition (l : Address) {f : Phase} (hf : f.IsSettled) : Step a f (some (.closePosition a l)) f
  | reSettle (factor : ℕ) {f : Phase} (hf : f.IsSettled) : Step a distress (some (.reSettle a factor)) f
  | collectFees (amount : ℕ) : Step a par (some (.collectFees a amount)) par
  | withdrawExcess (b : Address) (amount : ℕ) : Step a par (some (.withdrawExcess a b amount)) par

/-- A market never goes back to an earlier phase. -/
theorem Step.rank_le {a : Address} {f g : Phase} {e : Option Event} (h : Step a f e g) : f.rank ≤ g.rank := by
  cases h with
  | mature _ hf => rcases hf with rfl | rfl <;> decide
  | settle _ hf | reSettle _ hf => rcases hf with rfl | rfl <;> decide
  | expire | createMarket => decide
  | _ => exact le_rfl

end Phase

/-! ### The phase of a pool -/

namespace Pool

def phase (p : Pool) : Phase :=
  if p.clock < p.market.maturityTimestamp then .active
  else if p.clock < p.market.maturityTimestamp + SETTLEMENT_GRACE_PERIOD then .grace
  else if p.market.settlementFactorWad = 0 then .overdue
  else if p.market.settlementFactorWad < WAD then .distress
  else .par

variable {a : Address} {p p' : Pool} {e : Option Event}

theorem phase_ne_absent (p : Pool) : p.phase ≠ .absent := by
  unfold phase
  split_ifs <;> simp

theorem phase_active (h : p.clock < p.market.maturityTimestamp) : p.phase = .active := if_pos h

theorem phase_distress (h : p.market.settlementFactorWad < WAD) (h0 : p.market.settlementFactorWad ≠ 0)
    (hgrace : p.market.maturityTimestamp + SETTLEMENT_GRACE_PERIOD ≤ p.clock) : p.phase = .distress := by
  have hmatured := (le_add_of_nonneg_right (a := p.market.maturityTimestamp) (by decide)).trans hgrace
  rw [phase, if_neg hmatured.not_gt, if_neg hgrace.not_gt, if_neg h0, if_pos h]

theorem phase_par (h : WAD ≤ p.market.settlementFactorWad)
    (hgrace : p.market.maturityTimestamp + SETTLEMENT_GRACE_PERIOD ≤ p.clock) : p.phase = .par := by
  have hmatured := (le_add_of_nonneg_right (a := p.market.maturityTimestamp) (by decide)).trans hgrace
  rw [phase, if_neg hmatured.not_gt, if_neg hgrace.not_gt, if_neg (WAD_pos.trans_le h).ne', if_neg h.not_gt]

theorem phase_overdue (h0 : p.market.settlementFactorWad = 0)
    (hgrace : p.market.maturityTimestamp + SETTLEMENT_GRACE_PERIOD ≤ p.clock) : p.phase = .overdue := by
  have hmatured := (le_add_of_nonneg_right (a := p.market.maturityTimestamp) (by decide)).trans hgrace
  rw [phase, if_neg hmatured.not_gt, if_neg hgrace.not_gt, if_pos h0]

theorem Ledger.phase_settled (h : p.Ledger) (h0 : p.market.settlementFactorWad ≠ 0) : p.phase.IsSettled := by
  have hs := h.settled h0
  rcases Nat.lt_or_ge p.market.settlementFactorWad WAD with hlt | hge
  · exact .inl (phase_distress hlt h0 hs.grace)
  · exact .inr (phase_par hge hs.grace)

/-- The phase is read off the maturity, the factor and the clock. -/
theorem phase_congr (hmaturity : p'.market.maturityTimestamp = p.market.maturityTimestamp)
    (hfactor : p'.market.settlementFactorWad = p.market.settlementFactorWad) (hclock : p'.clock = p.clock) :
    p'.phase = p.phase := by
  simp only [phase, hmaturity, hfactor, hclock]

theorem Fresh.phase (h : p.Fresh a) : p.phase = .active := by
  cases h with
  | mk _ _ _ hmin =>
    refine phase_active (lt_trans ?_ hmin)
    exact lt_add_of_pos_right _ (by decide)

/-- Time passes: an unsettled market moves on to grace and from there to overdue. -/
theorem Ledger.phase_idle (h : p.Ledger) (he : e.bind Event.market ≠ some a) {clock : ℤ} {vault : ℕ}
    (hclock : p.clock ≤ clock) : Phase.Step a p.phase e ({ p with clock, vault } : Pool).phase := by
  by_cases h0 : p.market.settlementFactorWad = 0
  · unfold phase
    simp only [h0, if_true]
    split_ifs
    · exact .wait he _
    · exact .mature he (.inl rfl)
    · exact .mature he (.inr rfl)
    · omega
    · exact .wait he _
    · exact .expire he
    · omega
    · omega
    · exact .wait he _
  · have hs := h.settled h0
    have hgrace := hs.grace.trans hclock
    rcases Nat.lt_or_ge p.market.settlementFactorWad WAD with hlt | hge
    · rw [phase_distress hlt h0 hs.grace, phase_distress (p := { p with clock, vault }) hlt h0 hgrace]
      exact .wait he _
    · rw [phase_par hge hs.grace, phase_par (p := { p with clock, vault }) hge hgrace]
      exact .wait he _

/-- The positions of an unsettled market have a balance. -/
def Holding (p : Pool) : Prop :=
  p.market.settlementFactorWad = 0 → ∀ l q, p.positions.lookup l = some q → q.scaledBalance ≠ 0

/-- Fees are only collected at par, and a position is only closed after the settlement. -/
theorem Step.phase (hs : Step a p e p') (h : p.Ledger) (hfeeless : p.Feeless) (hholding : p.Holding)
    (hcollect : ∀ n, e = some (.collectFees a n) → n ≠ 0) : Phase.Step a p.phase e p'.phase := by
  have hmaturity : p'.market.maturityTimestamp = p.market.maturityTimestamp :=
    congrArg (fun t => t.2.2.2.2.1) hs.terms
  have hledger := hs.ledger h
  have hkept (hfactor : p'.market.settlementFactorWad = p.market.settlementFactorWad) (hclock : p'.clock = p.clock) :
      p'.phase = p.phase := phase_congr hmaturity hfactor hclock
  have haccrued {m : Market} {c : ProtocolConfig} (haccrue : accrueInterest p.market c p.clock = .ok m) :
      m.settlementFactorWad = p.market.settlementFactorWad := by
    obtain ⟨_, _, rfl, -⟩ := accrueInterest_ok haccrue
    rfl
  have hpresent := p.phase_ne_absent
  cases hs with
  | idle he hclock => exact h.phase_idle he hclock
  | deposit _ htime haccrue =>
    rw [hkept (haccrued haccrue :) rfl, phase_active htime]
    exact .deposit _ _ _
  | borrow htime haccrue =>
    rw [hkept (haccrued haccrue :) rfl, phase_active htime]
    exact .borrow _ _
  | repay haccrue =>
    rw [hkept (haccrued haccrue :) rfl]
    exact .repay hpresent _ _ _
  | repayInterest haccrue =>
    rw [hkept (haccrued haccrue :) rfl]
    exact .repayInterest hpresent _ _ _
  | @exit _ _ m' _ _ _ _ _ t _ _ haccrue hsettles _ _ _ _ htracks _ _ he =>
    have hfactor : t.market.settlementFactorWad = m'.settlementFactorWad := by rw [htracks.shape.market]
    have hsettled := hledger.phase_settled (hfactor.trans_ne hsettles.ne_zero)
    rcases hsettles with ⟨h0, rfl⟩ | ⟨h0, hgrace, -⟩
    · have hsame := hkept (hfactor.trans (haccrued haccrue)) rfl
      rw [hsame] at hsettled ⊢
      exact .exit he hsettled
    · have hgrace' : p.market.maturityTimestamp + SETTLEMENT_GRACE_PERIOD ≤ p.clock := by
        obtain ⟨_, _, rfl, -⟩ := accrueInterest_ok haccrue
        exact hgrace
      rw [phase_overdue ((haccrued haccrue).symm.trans h0) hgrace']
      exact .settle he hsettled
  | claim hsettled _ _ _ hrecord _ he =>
    rw [hkept (by dsimp only; rw [(recordClaim_shape hrecord).market]) rfl]
    exact .claim he (h.phase_settled hsettled)
  | reSettle hsettled _ _ hfactor himproved =>
    have hle := (hledger.settled (Nat.ne_zero_of_lt himproved)).le_wad
    rw [phase_distress (himproved.trans_le hle) hsettled (h.settled hsettled).grace]
    exact .reSettle _ (hledger.phase_settled (Nat.ne_zero_of_lt himproved))
  | collectFees hsolvent hwaiting haccrue hamount hfees hpayout =>
    have hpar := (Step.settled_of_collect (a := a) (.collectFees hsolvent hwaiting haccrue hamount hfees hpayout)
      (hcollect _ rfl) h hfeeless).1
    rw [hkept (haccrued haccrue :) rfl, phase_par hpar.ge (h.settled (hpar ▸ WAD_pos.ne')).grace]
    exact .collectFees _
  | withdrawExcess _ _ hsettled =>
    rw [hkept rfl rfl, phase_par hsettled (h.settled (WAD_pos.trans_le hsettled).ne').grace]
    exact .withdrawExcess _ _
  | close hposition hbalance =>
    rw [hkept rfl rfl]
    exact .closePosition _ (h.phase_settled fun h0 => hholding h0 _ _ hposition hbalance)

/-- A deposit credits at least one unit, and no exit leaves a market unsettled. -/
theorem Step.holding (hs : Step a p e p') (h : p.Holding)
    (hdeposit : ∀ l n scaled, e = some (.deposit a l n scaled) → scaled ≠ 0) : p'.Holding := by
  have haccrued {m : Market} {c : ProtocolConfig} (haccrue : accrueInterest p.market c p.clock = .ok m) :
      m.settlementFactorWad = p.market.settlementFactorWad := by
    obtain ⟨_, _, rfl, -⟩ := accrueInterest_ok haccrue
    rfl
  intro h0 l q hq
  cases hs with
  | idle | withdrawExcess => exact h h0 l q hq
  | deposit _ _ haccrue _ _ _ hposition =>
    rcases Finmap.lookup_of_insert hq with ⟨-, rfl⟩ | hq
    · have := hdeposit _ _ _ rfl
      have := (depositPosition_ok hposition).2.2.1
      omega
    · exact h ((haccrued haccrue).symm.trans h0) l q hq
  | borrow _ haccrue | repay haccrue | repayInterest haccrue | collectFees _ _ haccrue =>
    exact h ((haccrued haccrue).symm.trans h0) l q hq
  | exit _ _ hsettles _ _ _ _ htracks =>
    refine absurd ?_ hsettles.ne_zero
    rw [htracks.shape.market] at h0
    exact h0
  | claim hsettled _ _ _ hrecord =>
    rw [(recordClaim_shape hrecord).market] at h0
    exact absurd h0 hsettled
  | reSettle _ _ _ _ himproved => exact absurd h0 (Nat.ne_zero_of_lt himproved)
  | close => exact h h0 l q (Finmap.lookup_of_erase hq)

end Pool

/-! ### The phases of a run -/

variable {w w' : World} {a : Address} {e : Option Event} {p : Pool}

def World.phase (w : World) (a : Address) : Phase := (w.pool a).elim .absent Pool.phase

theorem Step.scaled_ne_zero (hw : WellFormed w) {l : Address} {n scaled : ℕ}
    (h : Step w (some (.deposit a l n scaled)) w') : scaled ≠ 0 := by
  cases h with
  | instruction hsign hok =>
    cases processInstruction_authorized hw hok with
    | administers _ _ h => cases h
    | market _ _ _ h =>
      cases h with
      | deposit _ hscaled => exact hscaled

theorem Reachable.holding (h : Reachable w) (hp : w.pool a = some p) : p.Holding := by
  suffices H : ∀ p, w.pool a = some p → p.Holding from H p hp
  refine h.invariant (I := fun w => ∀ p, w.pool a = some p → p.Holding) ?_ ?_
  · intro w hg p hp
    rw [World.pool_eq_some, hg.markets] at hp
    simp at hp
  · intro w e w' hr ih hs p' hp'
    have hw := Reachable.wellFormed hr
    cases hp : w.pool a with
    | none =>
      cases (hs.pool_new hw hp hp').1 with
      | mk =>
        intro _ l q hq
        simp [freshMarket] at hq
    | some p =>
      refine (hs.pool_step hw hp hp').holding (ih p hp) ?_
      rintro l n scaled rfl
      exact hs.scaled_ne_zero hw

theorem Step.phase (hr : Reachable w) (h : Step w e w') : Phase.Step a (w.phase a) e (w'.phase a) := by
  have hw := Reachable.wellFormed hr
  unfold World.phase
  cases hp : w.pool a with
  | none =>
    cases hp' : w'.pool a with
    | none => exact .wait (h.pool_none hw hp hp') _
    | some p' =>
      obtain ⟨hfresh, b, nonce, rfl⟩ := h.pool_new hw hp hp'
      rw [Option.elim_none, Option.elim_some, hfresh.phase]
      exact .createMarket b nonce
  | some p =>
    obtain ⟨p', hp', hstep⟩ := h.pool hw hp
    rw [hp', Option.elim_some, Option.elim_some]
    refine hstep.phase (Reachable.ledger hr hp) (Reachable.feeless hr hp) (Reachable.holding hr hp) ?_
    rintro n rfl
    exact (h.collects hw).1

/-- Every run of the program is a run of the automaton, for every market: an instruction succeeds only in a phase that
has it, and no phase comes back. -/
theorem lifecycle (h : Reachable w) {hist : List Record} (r : Run w hist w') (a : Address) :
    Transition.Run (Phase.Step a) (w.phase a) (hist.map (Transition.Record.map (World.phase · a))) (w'.phase a) ∧
      (w.phase a).rank ≤ (w'.phase a).rank := by
  have hrun : Transition.Run (Phase.Step a) (w.phase a) (hist.map (Transition.Record.map (World.phase · a)))
      (w'.phase a) := r.map (f := (World.phase · a)) (fun _ _ _ hr hs => hs.phase hr) h
  exact ⟨hrun, hrun.monotone fun _ _ _ hs => hs.rank_le⟩

/-- The market of the two exits at one half: created, traded, left alone through its grace period, and settled. -/
theorem lifecycle_haircut :
    Transition.Run (Phase.Step Sample.market) .absent
      ((Sample.genesis.history Sample.haircut).map (Transition.Record.map (World.phase · Sample.market)))
      .distress := by
  have hrun := (lifecycle Sample.genesis_reachable (Sample.genesis.performAll_run Sample.haircut) Sample.market).1
  have habsent : Sample.genesis.phase Sample.market = .absent := by decide +kernel
  have hdistress : (Sample.genesis.performAll Sample.haircut).phase Sample.market = .distress := by decide +kernel
  rwa [habsent, hdistress] at hrun

end Coalesce
