import Coalesce.Custody
import Coalesce.Fees
import Coalesce.WindDown
import Coalesce.Wire

/-!
# A market that its fee has frozen

When the fee on the last stretch of interest does not fit, every instruction that accrues interest fails: the lenders
cannot exit, and not even a repayment is accepted.  `frozen_stays` says that nobody but the admin can change this, and
`freeze_lifted` that the admin can, for good: three calls, after which the fee is as before and no accrual of the
market fails again.
-/

namespace Coalesce

/-! ### Frozen markets -/

section Frozen

variable {w w' : World} {a : Address} {hist : List Record} {c : ProtocolConfig} {e : Option Event}

/-- After maturity an accrual depends on the configuration only through the fee rate, and not on the time. -/
theorem accrueInterest_after {m : Market} {c' : ProtocolConfig} {now now' : ℤ} (hrate : c'.feeRateBps = c.feeRateBps)
    (hnow : m.maturityTimestamp ≤ now) (hnow' : m.maturityTimestamp ≤ now') :
    accrueInterest m c' now' = accrueInterest m c now := by
  simp only [accrueInterest, effectiveNow_eq_min, min_eq_right hnow, min_eq_right hnow', accrueElapsed, accruedFees,
    hrate]

/-- The fee rate changes by `setFeeConfig` only. -/
theorem Step.feeRate (hw : WellFormed w) (h : Step w e w') (hconfig : w.config = some c)
    (hkept : ∀ bps, e ≠ some (.setFeeConfig bps)) : ∃ c', w'.config = some c' ∧ c'.feeRateBps = c.feeRateBps := by
  cases h with
  | instruction _ hok =>
    cases processInstruction_authorized hw hok with
    | initializes hnew => cases hnew.symm.trans hconfig
    | administers hc _ h =>
      obtain rfl := Option.some.inj (hconfig.symm.trans hc)
      refine ⟨_, rfl, ?_⟩
      cases h with
      | setFeeConfig => exact absurd rfl (hkept _)
      | _ => rfl
    | lists => exact ⟨c, hconfig, rfl⟩
    | market _ _ hkeeps => exact ⟨c, hkeeps.trans hconfig, rfl⟩
  | clock | tokens | external => exact ⟨c, hconfig, rfl⟩

theorem Account.Step.eq_of_other {f s : ℕ} {b b' : Account} (h : b.Step f s .other b') : b' = b := by
  cases h
  rfl

/-- The market `a` has matured, and its last accrual cannot be made. -/
structure World.Frozen (w : World) (a : Address) (p : Pool) (bps : ℕ) : Prop where
  pool : w.pool a = some p
  matured : p.market.maturityTimestamp ≤ p.clock
  rate : ∃ c, w.config = some c ∧ c.feeRateBps = bps
  fails : ∀ c m, c.feeRateBps = bps → accrueInterest p.market c p.clock ≠ .ok m

/-- What a frozen market keeps. -/
structure Pool.Stays (p p' : Pool) : Prop where
  market : p'.market = p.market
  account : ∀ l, accountOf p'.positions l = accountOf p.positions l
  vault : p.vault ≤ p'.vault

theorem Step.frozen {p : Pool} {bps : ℕ} (hr : Reachable w) (h : Step w e w') (hf : w.Frozen a p bps)
    (hkept : ∀ bps, e ≠ some (.setFeeConfig bps)) : ∃ p', w'.Frozen a p' bps ∧ p.Stays p' := by
  have hw := Reachable.wellFormed hr
  have hl := Reachable.ledger hr hf.pool
  obtain ⟨c, hconfig, hrate⟩ := hf.rate
  obtain ⟨c', hconfig', hrate'⟩ := h.feeRate hw hconfig hkept
  obtain ⟨p', hp', hstep⟩ := h.pool hw hf.pool
  suffices H : p.Stays p' by
    have hmatured : p'.market.maturityTimestamp ≤ p'.clock := by
      rw [H.market]
      exact hf.matured.trans hstep.clock_le
    refine ⟨p', ⟨hp', hmatured, ⟨c', hconfig', hrate'.trans hrate⟩, ?_⟩, H⟩
    intro c'' m hc''
    rw [H.market] at hmatured ⊢
    rw [accrueInterest_after (hc''.trans hrate.symm) hf.matured hmatured]
    exact hf.fails c m hrate
  have hunsettled : p.market.settlementFactorWad = 0 := by
    by_contra h0
    exact hf.fails c _ hrate (accrueInterest_matured c (hl.settled h0).accrued hf.matured)
  have hclock : p.clock = w.clock := (World.pool_eq_some.1 hf.pool).2.1
  -- an instruction that accrues first would have failed
  have hfails {f : Event} (he : e = some f) (hmarket : f.market = some a) (haccrues : f.accrues) : p.Stays p' := by
    subst he
    obtain ⟨m, hm⟩ := h.accrued hw haccrues hmarket (World.pool_eq_some.1 hf.pool).1 hconfig
    exact absurd (hclock ▸ hm) (hf.fails c m hrate)
  have haccount (hother : ∀ l, Coalesce.entry a l ⟨w, e, w'⟩ = .other) (l : Address) :
      accountOf p'.positions l = accountOf p.positions l :=
    (hother l ▸ hstep.account (x := ⟨w, e, w'⟩) hl hf.pool hp' l).eq_of_other
  cases hstep with
  | idle _ _ hvault => exact ⟨rfl, fun _ => rfl, hvault⟩
  | deposit | borrow | repay | repayInterest | reSettle | collectFees => exact hfails rfl rfl rfl
  | exit _ _ _ _ _ _ _ _ _ _ he =>
    rcases he with rfl | rfl
    · exact hfails rfl rfl rfl
    · exact hfails rfl rfl rfl
  | claim hsettled => exact absurd hunsettled hsettled
  | withdrawExcess _ _ hsettled => exact absurd hunsettled (WAD_pos.trans_le hsettled).ne'
  | close => exact ⟨rfl, haccount fun _ => rfl, le_rfl⟩

/-- A frozen market stays as it is, with every token in its vault, until the fee rate is changed. -/
theorem frozen_stays (h : Reachable w) {ma : MarketAccounts} (hma : w.markets.lookup a = some ma)
    (hconfig : w.config = some c) (hmatured : ma.market.maturityTimestamp ≤ w.clock)
    (hfrozen : ∀ m, accrueInterest ma.market c w.clock ≠ .ok m) (r : Run w hist w')
    (hkept : ∀ x ∈ hist, ∀ bps, x.event ≠ some (.setFeeConfig bps)) :
    ∃ ma' c', w'.markets.lookup a = some ma' ∧ w'.config = some c' ∧ ma'.market = ma.market ∧
      (∀ l, accountOf ma'.positions l = accountOf ma.positions l) ∧
      w.tokens.amount (.vault a) ≤ w'.tokens.amount (.vault a) ∧
      ∀ m, accrueInterest ma'.market c' w'.clock ≠ .ok m := by
  have hp := World.pool_of_lookup hma
  obtain ⟨p', hf, hstays⟩ : ∃ p', w'.Frozen a p' c.feeRateBps ∧ Pool.Stays _ p' := by
    induction r with
    | nil =>
      refine ⟨_, ⟨hp, hmatured, ⟨c, hconfig, rfl⟩, ?_⟩, rfl, fun _ => rfl, le_rfl⟩
      intro c' m hrate
      rw [accrueInterest_after hrate hmatured hmatured]
      exact hfrozen m
    | cons r hs ih =>
      rw [List.forall_mem_cons] at hkept
      obtain ⟨p₁, hf₁, hstays₁⟩ := ih hkept.2
      obtain ⟨p₂, hf₂, hstays₂⟩ := hs.frozen (r.reachable h) hf₁ hkept.1
      exact ⟨p₂, hf₂, hstays₂.market.trans hstays₁.market,
        fun l => (hstays₂.account l).trans (hstays₁.account l), hstays₁.vault.trans hstays₂.vault⟩
  obtain ⟨hlookup, hclock, hvault⟩ := World.pool_eq_some.1 hf.pool
  obtain ⟨c', hconfig', hrate⟩ := hf.rate
  refine ⟨_, c', hlookup, hconfig', hstays.market, hstays.account, hvault ▸ hstays.vault, ?_⟩
  rw [← hclock]
  exact fun m => hf.fails c' m hrate

end Frozen

/-- The longest market at the highest rates, over a pause and another year. -/
theorem frozen_stays_frozen :
    ∃ ma', ((Sample.genesis.performAll Sample.frozen).performAll
      [Sample.setPause 1, Sample.setPause 0, .clock 189216000]).markets.lookup Sample.market = some ma' ∧
      ma'.market.scaledTotalSupply = WAD ∧ ma'.market.scaleFactor = WAD := by
  have hconfig : (Sample.genesis.performAll Sample.frozen).config =
      some { Sample.protocol with feeRateBps := 10000 } := by decide +kernel
  obtain ⟨ma, hma, hx⟩ := Option.map_eq_some_iff.1
    (show ((Sample.genesis.performAll Sample.frozen).markets.lookup Sample.market).map (fun ma =>
      (ma.market.scaledTotalSupply, ma.market.scaleFactor, ma.market.maturityTimestamp,
        (accrueInterest ma.market { Sample.protocol with feeRateBps := 10000 }
          (Sample.genesis.performAll Sample.frozen).clock).toOption.isNone)) =
      some (WAD, WAD, 157680000, true) by decide +kernel)
  simp only [Prod.mk.injEq] at hx
  obtain ⟨hsupply, hsf, hmaturity, hfails⟩ := hx
  have hclock : (Sample.genesis.performAll Sample.frozen).clock = 157680000 := by decide +kernel
  have hkept : ((Sample.genesis.performAll Sample.frozen).history
      [Sample.setPause 1, Sample.setPause 0, .clock 189216000]).map (fun x => x.event) =
      [none, some (.setPause false), some (.setPause true)] := by decide +kernel
  obtain ⟨ma', c', hma', -, hmarket, -⟩ := frozen_stays
    (World.performAll_reachable Sample.genesis_reachable Sample.frozen) hma hconfig (hmaturity.trans hclock.symm).le
    (by
      intro m hm
      rw [hm] at hfails
      cases hfails)
    (World.performAll_run _ [Sample.setPause 1, Sample.setPause 0, .clock 189216000])
    (by
      intro x hx bps he
      have hmem := List.mem_map_of_mem (f := fun x : Record => x.event) hx
      rw [hkept, he] at hmem
      simp at hmem)
  exact ⟨ma', hma', by rw [hmarket, hsupply], by rw [hmarket, hsf]⟩

/-! ### Lifting the freeze -/

section Lift

variable {w : World} {a : Address} {c : ProtocolConfig} {ma : MarketAccounts}

/-- Without a fee an accrual succeeds. -/
theorem Market.Headroom.accrue_free {m : Market} {now : ℤ} (h : m.Headroom) (hfee : c.feeRateBps = 0)
    (hnow : m.lastAccrualTimestamp ≤ now) : ∃ m', accrueInterest m c now = .ok m' := by
  obtain ⟨g, sf, -, -, heq⟩ := h.accrueInterest_eq c hnow
  rw [heq]
  split
  · exact ⟨m, rfl⟩
  · rw [accruedFees, if_neg (by omega)]
    exact ⟨_, rfl⟩

/-- A market that is accrued to its maturity stays so. -/
theorem Pool.Step.stays_accrued {p p' : Pool} {e : Option Event} (h : Pool.Step a p e p')
    (hmatured : p.market.maturityTimestamp ≤ p.clock)
    (hlast : p.market.lastAccrualTimestamp = p.market.maturityTimestamp) :
    p'.market.lastAccrualTimestamp = p'.market.maturityTimestamp := by
  cases h with
  | idle | withdrawExcess | close => exact hlast
  | deposit _ _ haccrue | borrow _ haccrue | repay haccrue | repayInterest haccrue | reSettle _ haccrue
  | collectFees _ _ haccrue =>
    rw [accrueInterest_matured _ hlast hmatured] at haccrue
    obtain rfl := Except.ok.inj haccrue
    exact hlast
  | exit _ haccrue hsettles _ _ _ _ htracks =>
    rw [accrueInterest_matured _ hlast hmatured] at haccrue
    obtain rfl := Except.ok.inj haccrue
    dsimp only
    rw [htracks.shape.market, hsettles.shape]
    exact hlast
  | claim _ _ _ _ hrecord =>
    dsimp only
    rw [(recordClaim_shape hrecord).market]
    exact hlast

theorem accrued_for_good (h : Reachable w) (hma : w.markets.lookup a = some ma)
    (hlast : ma.market.lastAccrualTimestamp = ma.market.maturityTimestamp)
    (hmatured : ma.market.maturityTimestamp ≤ w.clock) {hist : List Record} {w' : World} (r : Run w hist w') :
    ∃ ma', w'.markets.lookup a = some ma' ∧ ∀ c', accrueInterest ma'.market c' w'.clock = .ok ma'.market := by
  obtain ⟨p', hp', hmatured', hlast'⟩ := Run.pool_invariant (I := fun _ p =>
      p.market.maturityTimestamp ≤ p.clock ∧ p.market.lastAccrualTimestamp = p.market.maturityTimestamp)
    h (World.pool_of_lookup hma) ⟨hmatured, hlast⟩ (by
      intro _ x q q' _ _ _ hstep hq
      refine ⟨?_, hstep.stays_accrued hq.1 hq.2⟩
      have hterms : q'.market.maturityTimestamp = q.market.maturityTimestamp :=
        congrArg (fun t => t.2.2.2.2.1) hstep.terms
      rw [hterms]
      exact hq.1.trans hstep.clock_le) r
  obtain ⟨hlookup, hclock, -⟩ := World.pool_eq_some.1 hp'
  exact ⟨_, hlookup, fun c' => accrueInterest_matured c' hlast' (hclock ▸ hmatured')⟩

def setFeeConfigAccounts (admin feeAuthority : Address) : List AccountMeta :=
  [account .protocolConfig, signer admin, account feeAuthority]

def repayInterestAccounts (a payer token : Address) : List AccountMeta :=
  [account a, signer payer, account token, account (.vault a), account .protocolConfig, account TOKEN_PROGRAM_ID]

theorem setFeeConfig_succeeds (hconfig : w.config = some c) {bps : ℕ} (hbps : bps ≤ MAX_FEE_RATE_BPS)
    {feeAuthority : Address} (haddress : feeAuthority ≠ ZERO_ADDRESS) :
    processInstruction w (setFeeConfigAccounts c.admin feeAuthority)
        (Instruction.toBytes ⟨.setFeeConfig, .ofNat 2 bps⟩) =
      .ok ({ w with config := some { c with feeRateBps := bps, feeAuthority } }, .setFeeConfig bps) := by
  have hdata : u16At (Word.ofNat 2 bps).toList 0 = bps := by
    rw [u16At, List.drop_zero, leNat_word, Word.toNat_ofNat]
    exact hbps.trans_lt (by decide)
  have hcall : processInstruction w (setFeeConfigAccounts c.admin feeAuthority)
      (Instruction.toBytes ⟨.setFeeConfig, .ofNat 2 bps⟩) =
    setFeeConfig w (setFeeConfigAccounts c.admin feeAuthority) (Word.ofNat 2 bps).toList := processInstruction_toBytes _
  rw [hcall]
  simp only [setFeeConfig, setFeeConfigAccounts, loadConfigAsAdmin, account, signer, bind_eq_ok, require_eq_ok,
    loadProtocolConfig_eq_ok, exists_const, true_and, Except.ok.injEq, hdata, Vector.length_toList]
  exact ⟨le_rfl, c, ⟨c, hconfig, rfl, rfl⟩, hbps, haddress, rfl⟩

theorem repayInterest_succeeds (hw : WellFormed w) (hma : w.markets.lookup a = some ma) (hconfig : w.config = some c)
    (hpaused : ¬c.isPaused) (hfactor : ma.market.scaleFactor ≠ 0) {m : Market}
    (haccrue : accrueInterest ma.market c w.clock = .ok m) {payer token : Address}
    (htoken : w.tokens.holder token = some (USDC_MINT, payer)) {n : ℕ} (hn : n ≠ 0) (hfunds : n ≤ w.tokens.amount token)
    (hrepaid : m.totalRepaid + n ≤ u64Max) (hinterest : m.totalInterestRepaid + n ≤ u64Max) :
    ∃ tokens, processInstruction w (repayInterestAccounts a payer token)
        (Instruction.toBytes ⟨.repayInterest, .ofNat 8 n⟩) =
      .ok ({ w with tokens }.setMarket a { ma with market := { m with
          totalRepaid := m.totalRepaid + n, totalInterestRepaid := m.totalInterestRepaid + n } },
        .repayInterest a payer n (m.totalInterestRepaid + n)) := by
  have hp := hw.placed a ma hma
  obtain ⟨s, hs, hsm, hso⟩ := TokenLedger.exists_of_holder htoken
  obtain ⟨v, hv, hvm, -⟩ := TokenLedger.exists_of_holder (hw.vault a ma hma)
  have hle : n ≤ s.amount := TokenLedger.amount_eq hs ▸ hfunds
  obtain ⟨tokens, htransfer⟩ := TokenLedger.transfer_eq_ok hs hv hle (hsm.trans hvm.symm) hso
  have hdata : u64At (Word.ofNat 8 n).toList 0 = n := by
    rw [u64At, List.drop_zero, leNat_word, Word.toNat_ofNat]
    exact (hfunds.trans (TokenLedger.amount_le_u64 _ _)).trans_lt (by decide)
  refine ⟨tokens, ?_⟩
  have hcall : processInstruction w (repayInterestAccounts a payer token)
      (Instruction.toBytes ⟨.repayInterest, .ofNat 8 n⟩) =
    repayInterest w (repayInterestAccounts a payer token) (Word.ofNat 8 n).toList := processInstruction_toBytes _
  rw [hcall]
  simp only [repayInterest, repayInterestAccounts, account, signer, bind_eq_ok, require_eq_ok, checkedAdd_eq_ok,
    loadProtocolConfig_eq_ok, loadMarket_eq_ok, loadTokenAccount_eq_ok, validateMarketState, requireTokenOwned,
    exists_const, true_and, Except.ok.injEq, hdata, Vector.length_toList]
  exact ⟨le_rfl, hn, s, hs, hso, ma, ⟨hma, hp.address⟩, hfactor, hp.vault, hsm.trans hp.mint.symm, c, hconfig, hpaused,
    m, haccrue, by simp [hv], _, ⟨hrepaid, rfl⟩, _, ⟨hinterest, rfl⟩, tokens, htransfer, rfl⟩

/-- The admin sets the fee to nothing for the time of one repayment of a single token.  This accrues the market to its
maturity, without a fee but with all the interest of the lenders, and from then on no accrual of it fails. -/
theorem freeze_lifted (h : Reachable w) (hma : w.markets.lookup a = some ma) (hconfig : w.config = some c)
    (hpaused : ¬c.isPaused) (hadmin : c.admin.isKey) (hmatured : ma.market.maturityTimestamp ≤ w.clock) {bps : ℕ}
    (hbps : bps ≤ MAX_FEE_RATE_BPS) {feeAuthority : Address} (haddress : feeAuthority ≠ ZERO_ADDRESS)
    {payer token : Address} (hpayer : payer.isKey) (htoken : w.tokens.holder token = some (USDC_MINT, payer))
    (hfunds : 1 ≤ w.tokens.amount token) (hroom : ma.market.totalRepaid + 1 ≤ u64Max) :
    ∃ w₁ m, accrueInterest ma.market { c with feeRateBps := 0 } w.clock = .ok m ∧
      w.executeAll
        [(setFeeConfigAccounts c.admin feeAuthority, Instruction.toBytes ⟨.setFeeConfig, .ofNat 2 0⟩),
          (repayInterestAccounts a payer token, Instruction.toBytes ⟨.repayInterest, .ofNat 8 1⟩),
          (setFeeConfigAccounts c.admin feeAuthority, Instruction.toBytes ⟨.setFeeConfig, .ofNat 2 bps⟩)] =
        .ok (w₁, [.setFeeConfig 0, .repayInterest a payer 1 (m.totalInterestRepaid + 1), .setFeeConfig bps]) ∧
      w₁.config = some { c with feeRateBps := bps, feeAuthority } ∧
      w₁.markets.lookup a = some { ma with market := { m with
        totalRepaid := m.totalRepaid + 1, totalInterestRepaid := m.totalInterestRepaid + 1 } } ∧
      ∀ hist w', Run w₁ hist w' → ∃ ma', w'.markets.lookup a = some ma' ∧
        ∀ c', accrueInterest ma'.market c' w'.clock = .ok ma'.market := by
  have hw := Reachable.wellFormed h
  have hheadroom := h.headroom hma
  have howing := (Reachable.debts h).owing a ma hma
  obtain ⟨m, haccrue⟩ := hheadroom.accrue_free (c := { c with feeRateBps := 0 }) rfl
    (hheadroom.last_le.trans hmatured)
  obtain ⟨_, _, hm, -⟩ := accrueInterest_ok haccrue
  have hsame : m.totalRepaid = ma.market.totalRepaid ∧ m.totalInterestRepaid = ma.market.totalInterestRepaid ∧
      m.lastAccrualTimestamp = m.maturityTimestamp ∧ m.maturityTimestamp = ma.market.maturityTimestamp := by
    rw [hm]
    exact ⟨rfl, rfl, min_eq_right hmatured, rfl⟩
  obtain ⟨hrepaid, hinterest, hlast, hmaturity⟩ := hsame
  have hfree := setFeeConfig_succeeds hconfig (Nat.zero_le _) haddress
  set w₁ : World := { w with config := some { c with feeRateBps := 0, feeAuthority } }
  have hr₁ : Reachable w₁ := reachable_of_call h (by simp [setFeeConfigAccounts, account, signer, hadmin]) hfree rfl
  obtain ⟨tokens, hrepay⟩ := repayInterest_succeeds (Reachable.wellFormed hr₁) (w := w₁) hma rfl hpaused
    (WAD_pos.trans_le hheadroom.wad_le).ne'
    (accrueInterest_after (c := { c with feeRateBps := 0 }) rfl hmatured hmatured |>.trans haccrue) htoken one_ne_zero
    hfunds (by rwa [hrepaid])
    (by rw [hinterest]; exact (Nat.succ_le_succ howing.interest).trans hroom)
  have hr₂ := reachable_of_call hr₁ (by simp [repayInterestAccounts, account, signer, hpayer]) hrepay rfl
  set paid : MarketAccounts := { ma with market := { m with
    totalRepaid := m.totalRepaid + 1, totalInterestRepaid := m.totalInterestRepaid + 1 } }
  set w₂ : World := ({ w₁ with tokens } : World).setMarket a paid
  have hconfig₂ : w₂.config = some { c with feeRateBps := 0, feeAuthority } := rfl
  have hback := setFeeConfig_succeeds hconfig₂ hbps haddress
  have hr₃ := reachable_of_call hr₂ (by simp [setFeeConfigAccounts, account, signer, hadmin]) hback rfl
  have hpaid : w₂.markets.lookup a = some paid := Finmap.lookup_insert _
  refine ⟨_, m, haccrue, World.executeAll_cons hfree (World.executeAll_cons hrepay (World.executeAll_cons hback rfl)),
    rfl, hpaid, ?_⟩
  intro hist w' r
  exact accrued_for_good hr₃ hpaid hlast (hmaturity.trans_le hmatured) r

end Lift

/-- The borrower repays one token at no fee; then all interest goes to the protocol again. -/
theorem freeze_lifted_frozen :
    ∃ w₁ n, (Sample.genesis.performAll Sample.frozen).executeAll
        [(setFeeConfigAccounts Sample.admin Sample.admin, Instruction.toBytes ⟨.setFeeConfig, .ofNat 2 0⟩),
          (repayInterestAccounts Sample.market Sample.borrower (Sample.wallet Sample.borrower),
            Instruction.toBytes ⟨.repayInterest, .ofNat 8 1⟩),
          (setFeeConfigAccounts Sample.admin Sample.admin, Instruction.toBytes ⟨.setFeeConfig, .ofNat 2 10000⟩)] =
        .ok (w₁, [.setFeeConfig 0, .repayInterest Sample.market Sample.borrower 1 n, .setFeeConfig 10000]) := by
  have hconfig : (Sample.genesis.performAll Sample.frozen).config =
      some { Sample.protocol with feeRateBps := 10000 } := by decide +kernel
  obtain ⟨ma, hma, hx⟩ := Option.map_eq_some_iff.1
    (show ((Sample.genesis.performAll Sample.frozen).markets.lookup Sample.market).map (fun ma =>
      decide (ma.market.maturityTimestamp ≤ (Sample.genesis.performAll Sample.frozen).clock ∧
        ma.market.totalRepaid + 1 ≤ u64Max)) = some true by decide +kernel)
  obtain ⟨hmatured, hroom⟩ := of_decide_eq_true hx
  obtain ⟨w₁, m, -, hok, -⟩ := freeze_lifted
    (World.performAll_reachable Sample.genesis_reachable Sample.frozen) hma hconfig (by decide) (by decide) hmatured
    (show 10000 ≤ MAX_FEE_RATE_BPS by decide) (show Sample.admin ≠ ZERO_ADDRESS by decide)
    (show Sample.borrower.isKey by decide)
    (show (Sample.genesis.performAll Sample.frozen).tokens.holder (Sample.wallet Sample.borrower) =
      some (USDC_MINT, Sample.borrower) by decide +kernel) (by decide +kernel) hroom
  exact ⟨w₁, _, hok⟩

end Coalesce
