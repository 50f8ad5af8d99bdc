import Coalesce.Pool

/-!
# The program moves its pools by pool steps

`WellFormed` says that every record is at the address its contents name and that every market has its vault.  In a
well-formed state an instruction moves the pool of the market it is about by a step of `Pool.Step` and leaves the
other pools alone, except that their vaults may receive tokens (`Step.pool`).
-/

namespace Coalesce

/-! ### Well-formed states -/

/-- The accounts of the market at the address `a` name each other. -/
structure MarketAccounts.Placed (a : Address) (ma : MarketAccounts) : Prop where
  address : a = .market ma.market.borrower ma.market.marketNonce
  borrower : ma.market.borrower.isKey
  mint : ma.market.mint = USDC_MINT
  vault : ma.market.vault = .vault a
  haircutState : ma.haircutState.market = a
  positions : ∀ l position, ma.positions.lookup l = some position →
    position.market = a ∧ position.lender = l ∧ l.isKey

structure WellFormed (w : World) : Prop where
  placed : ∀ a ma, w.markets.lookup a = some ma → ma.Placed a
  vault : ∀ a ma, w.markets.lookup a = some ma → w.tokens.holder (.vault a) = some (USDC_MINT, .marketAuthority a)
  noVault : ∀ a, w.markets.lookup a = none → w.tokens.lookup (.vault a) = none

namespace WellFormed

variable {w : World}

/-- A token account that somebody can sign for is not a vault. -/
theorem ne_vault (hw : WellFormed w) {x a : Address} {t : TokenAccount} (ht : w.tokens.lookup x = some t)
    (hkey : t.owner.isKey) : x ≠ .vault a := by
  rintro rfl
  cases hm : w.markets.lookup a with
  | none => rw [hw.noVault a hm] at ht; cases ht
  | some ma =>
    have h := hw.vault a ma hm
    rw [TokenLedger.holder, ht, Option.map_some, Option.some.injEq, Prod.mk.injEq] at h
    rw [h.2] at hkey
    cases hkey

end WellFormed

/-! ### The effect of an instruction on the pools -/

/-- The pool of the market `a` moves from `p` to `p'`, the other pools at most receive tokens. -/
structure Moves (w : World) (a : Address) (p p' : Pool) (w' : World) : Prop where
  pre : w.pool a = some p
  post : w'.pool a = some p'
  config : w'.config = w.config
  clock : w'.clock = w.clock
  markets : ∀ b, b ≠ a → w'.markets.lookup b = w.markets.lookup b
  holder : ∀ b, w'.tokens.holder (.vault b) = w.tokens.holder (.vault b)
  amount : ∀ b, b ≠ a → w.tokens.amount (.vault b) ≤ w'.tokens.amount (.vault b)

/-- The event `e` is about the market `a`: its pool takes a step, the other pools at most receive tokens. -/
structure Acts (w : World) (a : Address) (e : Event) (w' : World) : Prop where
  event : e.market = some a
  pool : ∃ p p', w.pool a = some p ∧ w'.pool a = some p' ∧ Pool.Step a p (some e) p'
  clock : w'.clock = w.clock
  markets : ∀ b, b ≠ a → w'.markets.lookup b = w.markets.lookup b
  holder : ∀ b, w'.tokens.holder (.vault b) = w.tokens.holder (.vault b)
  amount : ∀ b, b ≠ a → w.tokens.amount (.vault b) ≤ w'.tokens.amount (.vault b)

/-- The fees that leave the vault. -/
def Event.collected : Event → ℕ
  | collectFees _ amount => amount
  | _ => 0

/-- The market accrues interest and fees at the configuration of the protocol first. -/
structure Accrues (w : World) (a : Address) (e : Event) (w' : World) : Prop extends Acts w a e w' where
  accrual : ∃ config p p' m, w.config = some config ∧ w.pool a = some p ∧ w'.pool a = some p' ∧
    accrueInterest p.market config p.clock = .ok m ∧
    p'.market.accruedProtocolFees + e.collected = m.accruedProtocolFees

/-- An exit `x` of `lender` from the market `a`. -/
def World.Exits (w : World) (a lender : Address) (x : Exit) (scaled payout : ℕ) (w' : World) : Prop :=
  ∃ config p p', w.config = some config ∧ Moves w a p p' w' ∧ p.Exits config lender x scaled payout p'

/-- The whitelist entry of the borrower `b` counts the principal `n` taken from the market `a`. -/
structure Borrows (w : World) (a b : Address) (n : ℕ) (w' : World) : Prop where
  borrower : ∃ ma, w.markets.lookup a = some ma ∧ ma.market.borrower = b
  whitelist : ∃ wl, w.whitelists.lookup b = some wl ∧ wl.isWhitelisted = 1 ∧
    w'.whitelists = w.whitelists.insert b { wl with currentBorrowed := wl.currentBorrowed + n }

/-- The principal `n` goes back to the market `a`, and off the whitelist entry of its borrower. -/
structure Repays (w : World) (a : Address) (n : ℕ) (w' : World) : Prop where
  whitelist : ∃ ma outstanding wl, w.markets.lookup a = some ma ∧ marketOutstanding ma.market = .ok outstanding ∧
    n ≤ outstanding ∧ w.whitelists.lookup ma.market.borrower = some wl ∧ n ≤ wl.currentBorrowed ∧
    w'.whitelists = w.whitelists.insert ma.market.borrower { wl with currentBorrowed := wl.currentBorrowed - n }

/-- An update of the whitelist entry of the borrower `b` with the flag `f`. -/
structure Lists (w : World) (b : Address) (f : ℕ) (w' : World) : Prop where
  whitelist : ∃ capacity wl, updatedWhitelist (w.whitelists.lookup b) b f capacity = .ok wl ∧
    w'.whitelists = w.whitelists.insert b wl

section Moves

variable {w w' : World} {a : Address} {p p' : Pool} {e : Event} {ma ma' : MarketAccounts} {t : TokenLedger}
  (wls : Finmap fun _ : Address => BorrowerWhitelist)

theorem World.pool_of_lookup (h : w.markets.lookup a = some ma) :
    w.pool a = some { ma with clock := w.clock, vault := w.tokens.amount (.vault a) } := by
  simp [World.pool, h]

private theorem vault_ne {a b : Address} (h : b ≠ a) : Address.vault b ≠ .vault a := fun e => h (Address.vault.inj e)

theorem Moves.acts (h : Moves w a p p' w') (hevent : e.market = some a) (hstep : Pool.Step a p (some e) p') :
    Acts w a e w' :=
  ⟨hevent, ⟨p, p', h.pre, h.post, hstep⟩, h.clock, h.markets, h.holder, h.amount⟩

theorem Moves.accrues (h : Moves w a p p' w') (hevent : e.market = some a) (hstep : Pool.Step a p (some e) p')
    {config : ProtocolConfig} {m : Market} (hconfig : w.config = some config)
    (haccrue : accrueInterest p.market config p.clock = .ok m)
    (hfees : p'.market.accruedProtocolFees + e.collected = m.accruedProtocolFees) : Accrues w a e w' :=
  ⟨h.acts hevent hstep, config, p, p', m, hconfig, h.pre, h.post, haccrue, hfees⟩

/-- An instruction that pays into the vault of `a`. -/
private theorem Moves.of_pay (hma : w.markets.lookup a = some ma) {src authority : Address} {n : ℕ}
    (htransfer : w.tokens.transfer src (.vault a) authority n = .ok t) (hsrc : ∀ b, src ≠ .vault b) :
    Moves w a { ma with clock := w.clock, vault := w.tokens.amount (.vault a) }
      { ma' with clock := w.clock, vault := w.tokens.amount (.vault a) + n }
      ({ w with tokens := t, whitelists := wls }.setMarket a ma') where
  pre := World.pool_of_lookup hma
  post := by
    have hv : t.amount (.vault a) = w.tokens.amount (.vault a) + n := by
      rcases TokenLedger.amount_transfer htransfer (.vault a) with ⟨-, ⟨h, -⟩ | ⟨-, h⟩⟩
      · exact absurd h (hsrc a)
      · rw [h, if_pos rfl]
    rw [World.pool_of_lookup (show _ = some ma' by simp [World.setMarket])]
    simp [World.setMarket, hv]
  config := rfl
  clock := rfl
  markets b hb := by simp [World.setMarket, Finmap.lookup_insert_of_ne _ hb]
  holder b := TokenLedger.holder_transfer htransfer _
  amount b _ := TokenLedger.amount_le_transfer htransfer (hsrc b).symm

/-- An instruction that pays out of the vault of `a`. -/
private theorem Moves.of_payout (hma : w.markets.lookup a = some ma) {n : ℕ}
    (hdebit : w.tokens.Debited t (.vault a) n) :
    Moves w a { ma with clock := w.clock, vault := w.tokens.amount (.vault a) }
      { ma' with clock := w.clock, vault := w.tokens.amount (.vault a) - n }
      ({ w with tokens := t, whitelists := wls }.setMarket a ma') where
  pre := World.pool_of_lookup hma
  post := by
    rw [World.pool_of_lookup (show _ = some ma' by simp [World.setMarket])]
    simp [World.setMarket, hdebit.amount]
  config := rfl
  clock := rfl
  markets b hb := by simp [World.setMarket, Finmap.lookup_insert_of_ne _ hb]
  holder b := hdebit.holder _
  amount b hb := hdebit.others _ (vault_ne hb)

theorem World.Exits.accrues {lender : Address} {x : Exit} {scaled payout : ℕ}
    (h : w.Exits a lender x scaled payout w') : Accrues w a (x.event a lender payout scaled) w' := by
  obtain ⟨config, p, p', hconfig, hmoves, hexits⟩ := h
  have hstep := hexits.step (a := a)
  cases hexits with
  | mk _ haccrue hsettles hpays =>
    refine hmoves.accrues ?_ hstep hconfig haccrue ?_
    · cases x <;> rfl
    · cases hpays with
      | mk _ _ _ _ _ htracks =>
        dsimp only
        rw [htracks.shape.market, hsettles.shape]
        cases x <;> rfl

end Moves

section Handlers

variable {w w' : World} {accounts : List AccountMeta} {data : List UInt8} {e : Event}

theorem deposit_accrues (hw : WellFormed w) (hsign : ∀ x ∈ accounts, x.isSigner → x.address.isKey)
    (h : deposit w accounts data = .ok (w', e)) :
    ∃ a, Accrues w a e w' ∧ w'.whitelists = w.whitelists ∧ ∃ l n scaled, e = .deposit a l n scaled := by
  unfold deposit at h
  split at h
  · rename_i market lender lenderToken vault lenderPosition blacklistCheck protocolConfig mint tokenProgram x xs
    simp only [bind_eq_ok, require_eq_ok, checkedMul_eq_ok, checkedDiv_eq_ok, checkedAdd_eq_ok, loadMarket_eq_ok,
      loadProtocolConfig_eq_ok, loadTokenAccount_eq_ok, exists_const, Except.ok.injEq, Prod.mk.injEq] at h
    obtain ⟨-, -, -, hsigner, config, ⟨-, hconfig⟩, -, ma, ⟨hma, -⟩, hvault, -, htime, _, -, m, haccrue, hsf, _,
      ⟨-, rfl⟩, scaled, ⟨-, hscaled⟩, -, _, ⟨-, rfl⟩, hcap, _, ⟨-, rfl⟩, lt, hlt, howner, -, position, hposition, t,
      ht, rfl, rfl⟩ := h
    have hp := hw.placed _ _ hma
    have hkey : lender.address.isKey := hsign lender (by simp) hsigner
    rw [← hvault, hp.vault] at ht
    exact ⟨_, (Moves.of_pay w.whitelists hma ht fun b => hw.ne_vault hlt (howner ▸ hkey)).accrues rfl
      (.deposit hkey htime haccrue hsf hscaled.symm hcap hposition) hconfig haccrue rfl, rfl, _, _, _, rfl⟩
  · cases h

theorem borrow_accrues (hw : WellFormed w) (hsign : ∀ x ∈ accounts, x.isSigner → x.address.isKey)
    (h : borrow w accounts data = .ok (w', e)) :
    ∃ a b n, e = .borrow a b n ∧ Accrues w a e w' ∧ Borrows w a b n w' := by
  unfold borrow at h
  split at h
  · rename_i market borrower borrowerToken vault marketAuthority borrowerWhitelist blacklistCheck protocolConfig
      tokenProgram xs
    simp only [bind_eq_ok, require_eq_ok, checkedAdd_eq_ok, loadMarket_eq_ok, loadProtocolConfig_eq_ok,
      loadTokenAccount_eq_ok, loadVault_eq_ok, loadBorrowerWhitelist_eq_ok, exists_const, Except.ok.injEq,
      Prod.mk.injEq] at h
    obtain ⟨-, -, -, config, ⟨-, hconfig⟩, -, ma, ⟨hma, -⟩, _, -, hborrower, hsigner, hvault, htime, _, -, m, haccrue,
      vt, ⟨hvt, -⟩, hamount, wl, ⟨-, hwl⟩, hlisted, _, ⟨-, rfl⟩, -, _, -, _, -, bt, hbt, howner, _, ⟨-, rfl⟩, t, ht,
      rfl, rfl⟩ := h
    have hp := hw.placed _ _ hma
    have hkey : borrower.address.isKey := hsign borrower (by simp) hsigner
    rw [← hvault, hp.vault] at ht
    have hdebit := TokenLedger.debited_of_transfer ht (hw.ne_vault hbt (howner ▸ hkey))
    exact ⟨_, _, _, rfl,
      (Moves.of_payout _ hma hdebit).accrues rfl (.borrow htime haccrue hdebit.le) hconfig haccrue rfl,
      ⟨ma, hma, hborrower⟩, wl, hwl, hlisted, rfl⟩
  · cases h

theorem marketOutstanding_accrued {m m' : Market} {c : ProtocolConfig} {now : ℤ}
    (h : accrueInterest m c now = .ok m') : marketOutstanding m' = marketOutstanding m := by
  obtain ⟨_, _, rfl, -⟩ := accrueInterest_ok h
  rfl

theorem repay_accrues (hw : WellFormed w) (hsign : ∀ x ∈ accounts, x.isSigner → x.address.isKey)
    (h : repay w accounts data = .ok (w', e)) :
    ∃ a payer n debt, e = .repay a payer n debt ∧ Accrues w a e w' ∧ Repays w a n w' := by
  unfold repay at h
  split at h
  · rename_i market payer payerToken vault protocolConfig mint borrowerWhitelist tokenProgram xs
    simp only [bind_eq_ok, require_eq_ok, checkedAdd_eq_ok, checkedSub_eq_ok, loadMarket_eq_ok,
      loadProtocolConfig_eq_ok, loadTokenAccount_eq_ok, loadBorrowerWhitelist_eq_ok, exists_const, Except.ok.injEq,
      Prod.mk.injEq] at h
    obtain ⟨-, -, -, hsigner, pt, hpt, howner, ma, ⟨hma, -⟩, _, -, hvault, -, config, ⟨-, hconfig⟩, -, m, haccrue,
      outstanding, houtstanding, hle, _, -, wl, ⟨-, hwl⟩, hdebt, _, ⟨-, rfl⟩, _, ⟨-, rfl⟩, t, ht, rfl, rfl⟩ := h
    have hp := hw.placed _ _ hma
    have hkey : payer.address.isKey := hsign payer (by simp) hsigner
    rw [← hvault, hp.vault] at ht
    rw [marketOutstanding_accrued haccrue] at houtstanding
    have hborrower : m.borrower = ma.market.borrower := by
      obtain ⟨_, _, rfl, -⟩ := accrueInterest_ok haccrue
      rfl
    rw [hborrower] at hwl
    exact ⟨_, _, _, _, rfl,
      (Moves.of_pay _ hma ht fun b => hw.ne_vault hpt (howner ▸ hkey)).accrues rfl (.repay haccrue) hconfig haccrue rfl,
      ma, outstanding, wl, hma, houtstanding, hle, hwl, hdebt, by rw [← hborrower]; rfl⟩
  · cases h

theorem repayInterest_accrues (hw : WellFormed w) (hsign : ∀ x ∈ accounts, x.isSigner → x.address.isKey)
    (h : repayInterest w accounts data = .ok (w', e)) :
    ∃ a, Accrues w a e w' ∧ w'.whitelists = w.whitelists ∧ ∃ payer n total, e = .repayInterest a payer n total := by
  unfold repayInterest at h
  split at h
  · rename_i market payer payerToken vault protocolConfig tokenProgram xs
    simp only [bind_eq_ok, require_eq_ok, checkedAdd_eq_ok, loadMarket_eq_ok, loadProtocolConfig_eq_ok,
      loadTokenAccount_eq_ok, exists_const, Except.ok.injEq, Prod.mk.injEq] at h
    obtain ⟨-, -, -, hsigner, pt, hpt, howner, ma, ⟨hma, -⟩, _, -, hvault, -, config, ⟨-, hconfig⟩, -, m, haccrue, _, -,
      _, ⟨-, rfl⟩, _, ⟨-, rfl⟩, t, ht, rfl, rfl⟩ := h
    have hp := hw.placed _ _ hma
    have hkey : payer.address.isKey := hsign payer (by simp) hsigner
    rw [← hvault, hp.vault] at ht
    exact ⟨_, (Moves.of_pay w.whitelists hma ht fun b => hw.ne_vault hpt (howner ▸ hkey)).accrues rfl
      (.repayInterest haccrue) hconfig haccrue rfl, rfl, _, _, _, rfl⟩
  · cases h

/-! ### Exits -/

theorem checkGracePeriod_eq_ok {m : Market} {u : Unit} :
    checkGracePeriod w m = .ok u ↔ m.maturityTimestamp + SETTLEMENT_GRACE_PERIOD ≤ i64Max ∧
      m.maturityTimestamp + SETTLEMENT_GRACE_PERIOD ≤ w.clock := by
  simp only [checkGracePeriod, bind_eq_ok, checkedAddI64_eq_ok, require_eq_ok]
  constructor
  · rintro ⟨_, ⟨h, rfl⟩, h'⟩
    exact ⟨h, h'⟩
  · rintro ⟨h, h'⟩
    exact ⟨_, ⟨h, rfl⟩, h'⟩

private theorem settle_eq_ok {m m' : Market} {vault : AccountMeta} (h : settle w m vault = .ok m') :
    ∃ total factor, totalNormalized m = .ok total ∧
      computeSettlementFactor (w.tokens.amount vault.address) total = .ok factor ∧
      m' = { m with settlementFactorWad := factor } := by
  simp only [settle, bind_eq_ok, loadVault_eq_ok, Except.ok.injEq] at h
  obtain ⟨vt, ⟨hvt, -⟩, total, htotal, factor, hfactor, rfl⟩ := h
  exact ⟨total, factor, htotal, by rwa [TokenLedger.amount_eq hvt], rfl⟩

private theorem settles_of_withdraw {m m' : Market} {vault : AccountMeta} (h : settleOnWithdraw w m vault = .ok m') :
    Pool.Settles w.clock (w.tokens.amount vault.address) m m' := by
  unfold settleOnWithdraw at h
  by_cases h0 : m.settlementFactorWad = 0
  · rw [if_pos h0] at h
    simp only [bind_eq_ok, checkGracePeriod_eq_ok] at h
    obtain ⟨_, ⟨-, hgrace⟩, h⟩ := h
    exact .inr ⟨h0, hgrace, settle_eq_ok h⟩
  · rw [if_neg h0] at h
    exact .inl ⟨h0, (Except.ok.inj h).symm⟩

private theorem settles_of_forceClose {m m' : Market} {vault : AccountMeta}
    (hgrace : m.maturityTimestamp + SETTLEMENT_GRACE_PERIOD ≤ w.clock)
    (h : settleOnForceClose w m vault = .ok m') :
    Pool.Settles w.clock (w.tokens.amount vault.address) m m' := by
  unfold settleOnForceClose at h
  by_cases h0 : m.settlementFactorWad = 0
  · rw [if_pos h0] at h
    simp only [bind_eq_ok] at h
    obtain ⟨_, -, _, -, _, -, _, -, h⟩ := h
    exact .inr ⟨h0, hgrace, settle_eq_ok h⟩
  · rw [if_neg h0] at h
    exact .inl ⟨h0, (Except.ok.inj h).symm⟩

theorem tracks_of_trackHaircut {ma : MarketAccounts} {market : Address} {account : AccountMeta} {m : Market}
    {position : LenderPosition} {n pay : ℕ} {t : Tracked}
    (h : trackHaircut ma market account m position n pay = .ok t) :
    Pool.Tracks m ma.haircutState position n pay t := by
  unfold trackHaircut at h
  split at h
  · rename_i hf
    simp only [bind_eq_ok, tryU64_eq_ok] at h
    obtain ⟨_, ⟨hn, rfl⟩, h⟩ := h
    split at h
    · simp only [bind_eq_ok, loadHaircutState_eq_ok] at h
      obtain ⟨hs, ⟨-, -, rfl⟩, h⟩ := h
      exact .inl ⟨hf, by omega, hn, h⟩
    · exact .inr ⟨.inr (by omega), (Except.ok.inj h).symm⟩
  · exact .inr ⟨.inl (by omega), (Except.ok.inj h).symm⟩

theorem withdraw_exits (hw : WellFormed w) (hsign : ∀ x ∈ accounts, x.isSigner → x.address.isKey)
    (h : withdraw w accounts data = .ok (w', e)) :
    ∃ a lender scaled payout, e = .withdraw a lender payout scaled ∧
      w.Exits a lender (.withdraw (u128At data 0)) scaled payout w' ∧ w'.whitelists = w.whitelists := by
  unfold withdraw at h
  split at h
  · rename_i market lender lenderToken vault lenderPosition marketAuthority blacklistCheck protocolConfig tokenProgram
      haircutState xs
    simp only [bind_eq_ok, require_eq_ok, checkedSub_eq_ok, loadMarket_eq_ok, loadProtocolConfig_eq_ok,
      loadTokenAccount_eq_ok, loadLenderPosition_eq_ok, exists_const, Except.ok.injEq, Prod.mk.injEq] at h
    obtain ⟨-, -, hsigner, config, ⟨-, hconfig⟩, -, ma, ⟨hma, -⟩, hvault, hmatured, _, -, m, haccrue, position,
      ⟨-, hposition⟩, hbalance, m', hsettle, hle, _, -, amounts, hamounts, hpay, -, _, -, lt, hlt, howner, tr, htrack,
      _, ⟨-, rfl⟩, _, ⟨htotal, rfl⟩, t, ht, rfl, rfl⟩ := h
    have hp := hw.placed _ _ hma
    have hkey : lender.address.isKey := hsign lender (by simp) hsigner
    have hv : vault.address = .vault market.address := hvault.symm.trans hp.vault
    have hsettles := settles_of_withdraw hsettle
    rw [hv] at hsettles ht
    have hdebit := TokenLedger.debited_of_transfer ht (hw.ne_vault hlt (howner ▸ hkey))
    have hpays := Pool.Pays.mk (x := .withdraw (u128At data 0))
      (p := { ma with market := m', clock := w.clock, vault := w.tokens.amount (.vault market.address) })
      hposition hbalance hle hamounts (Nat.one_le_iff_ne_zero.2 hpay) (tracks_of_trackHaircut htrack) htotal hdebit.le
    exact ⟨_, _, _, _, rfl, ⟨config, _, _, hconfig, .of_payout w.whitelists hma hdebit,
      .mk hmatured haccrue hsettles hpays⟩, rfl⟩
  · cases h

theorem loadEscrow_eq_ok {mint lender : Address} {account : AccountMeta} {u : Unit} :
    loadEscrow w mint lender account = .ok u ↔
      ∃ t, w.tokens.lookup account.address = some t ∧ t.owner = lender ∧ t.mint = mint := by
  simp only [loadEscrow, requireTokenOwned, bind_eq_ok, require_eq_ok, loadTokenAccount_eq_ok, exists_const]
  constructor
  · rintro ⟨-, t, h, ho, hm⟩
    exact ⟨t, h, ho, hm⟩
  · rintro ⟨t, h, ho, hm⟩
    exact ⟨by simp [h], t, h, ho, hm⟩

private theorem debited_of_transferIfPositive {t : TokenLedger} {src dst authority : Address} {n : ℕ}
    (h : transferIfPositive w src dst authority n = .ok t) (hne : dst ≠ src) : w.tokens.Debited t src n := by
  unfold transferIfPositive at h
  split at h
  · exact TokenLedger.debited_of_transfer h hne
  · obtain rfl : n = 0 := by omega
    rw [← Except.ok.inj h]
    exact .zero _ _

theorem forceClosePosition_exits (hw : WellFormed w) (h : forceClosePosition w accounts = .ok (w', e)) :
    ∃ a lender scaled payout, e = .forceClose a lender payout scaled ∧
      w.Exits a lender .forceClose scaled payout w' ∧ w'.whitelists = w.whitelists := by
  unfold forceClosePosition at h
  split at h
  · rename_i market borrower lenderPosition vault escrowToken marketAuthority protocolConfig tokenProgram
      haircutState xs
    simp only [bind_eq_ok, require_eq_ok, checkedSub_eq_ok, loadMarket_eq_ok, loadProtocolConfig_eq_ok,
      loadPositionOfMarket_eq_ok, loadEscrow_eq_ok, checkGracePeriod_eq_ok, exists_const, Except.ok.injEq,
      Prod.mk.injEq] at h
    obtain ⟨-, -, ma, ⟨hma, -⟩, -, hvault, config, ⟨-, hconfig⟩, -, hmatured, ⟨-, hgrace⟩, m, haccrue, m', hsettle,
      position, ⟨-, -, ma', hma', hposition⟩, ⟨et, het, howner, -⟩, hbalance, _, -, amounts, hamounts, _, -, tr,
      htrack, _, ⟨htotal, rfl⟩, t, ht, rfl, rfl⟩ := h
    obtain rfl : ma = ma' := Option.some.inj (hma.symm.trans hma')
    have hp := hw.placed _ _ hma
    have hkey : position.lender.isKey := (hp.positions _ _ hposition).2.2
    have hv : vault.address = .vault market.address := hvault.symm.trans hp.vault
    obtain ⟨_, _, hm, -⟩ := accrueInterest_ok haccrue
    have hsettles := settles_of_forceClose (by rw [hm]; exact hgrace) hsettle
    have hdebit := debited_of_transferIfPositive ht (hv ▸ hw.ne_vault het (howner ▸ hkey))
    rw [hv] at hsettles hdebit
    have htracks := tracks_of_trackHaircut htrack
    have hpays := Pool.Pays.mk (x := .forceClose)
      (p := { ma with market := m', clock := w.clock, vault := w.tokens.amount (.vault market.address) })
      hposition hbalance le_rfl hamounts (Nat.zero_le _) htracks htotal hdebit.le
    have hempty : tr.position.scaledBalance - Exit.forceClose.units position.scaledBalance = 0 := by
      rw [htracks.shape.position]
      exact Nat.sub_self _
    rw [hempty] at hpays
    exact ⟨_, _, _, _, rfl, ⟨config, _, _, hconfig, .of_payout w.whitelists hma hdebit,
      .mk hmatured haccrue hsettles hpays⟩, rfl⟩
  · cases h

/-! ### Claims -/

theorem claimHaircut_acts (hw : WellFormed w) (hsign : ∀ x ∈ accounts, x.isSigner → x.address.isKey)
    (h : claimHaircut w accounts = .ok (w', e)) :
    ∃ a, Acts w a e w' ∧ w'.whitelists = w.whitelists ∧
      ∃ l claimed remaining, e = .claimHaircut a l claimed remaining := by
  unfold claimHaircut at h
  split at h
  · rename_i market lender lenderPosition lenderToken vault marketAuthority haircutState protocolConfig tokenProgram xs
    simp only [bind_eq_ok, require_eq_ok, loadMarket_eq_ok, loadTokenAccount_eq_ok, loadVault_eq_ok,
      loadLenderPosition_eq_ok, loadHaircutState_eq_ok, exists_const, Except.ok.injEq, Prod.mk.injEq] at h
    obtain ⟨-, hsigner, config, -, -, ma, ⟨hma, -⟩, hvault, hsettled, position, ⟨-, hposition⟩, -, -, _, ⟨-, -, rfl⟩,
      exact, hexact, vt, ⟨hvt, -⟩, claimed, hcap, lt, hlt, howner, -, tr, hrecord, _, -, t, ht, rfl, rfl⟩ := h
    have hp := hw.placed _ _ hma
    have hkey : lender.address.isKey := hsign lender (by simp) hsigner
    rw [← hvault, hp.vault] at ht hvt
    rw [← TokenLedger.amount_eq hvt] at hcap
    have hdebit := TokenLedger.debited_of_transfer ht (hw.ne_vault hlt (howner ▸ hkey))
    exact ⟨_, (Moves.of_payout w.whitelists hma hdebit).acts rfl
      (.claim hsettled hposition hexact hcap hrecord hdebit.le (.inl rfl)), rfl, _, _, _, rfl⟩
  · cases h

theorem forceClaimHaircut_acts (hw : WellFormed w) (h : forceClaimHaircut w accounts = .ok (w', e)) :
    ∃ a, Acts w a e w' ∧ w'.whitelists = w.whitelists ∧
      ∃ l claimed remaining, e = .forceClaimHaircut a l claimed remaining := by
  unfold forceClaimHaircut at h
  split at h
  · rename_i market borrower lenderPosition escrowToken vault marketAuthority haircutState protocolConfig
      tokenProgram xs
    simp only [bind_eq_ok, require_eq_ok, loadMarket_eq_ok, loadVault_eq_ok, loadPositionOfMarket_eq_ok,
      loadHaircutState_eq_ok, loadEscrow_eq_ok, exists_const, Except.ok.injEq, Prod.mk.injEq] at h
    obtain ⟨-, -, config, -, -, ma, ⟨hma, -⟩, -, hvault, -, _, -, hsettled, position, ⟨-, -, ma', hma', hposition⟩,
      ⟨et, het, howner, -⟩, _, ⟨-, -, rfl⟩, exact, hexact, vt, ⟨hvt, -⟩, claimed, hcap, tr, hrecord, _, -, t, ht, rfl,
      rfl⟩ := h
    obtain rfl : ma = ma' := Option.some.inj (hma.symm.trans hma')
    have hp := hw.placed _ _ hma
    have hkey : position.lender.isKey := (hp.positions _ _ hposition).2.2
    rw [← hvault, hp.vault] at ht hvt
    rw [← TokenLedger.amount_eq hvt] at hcap
    have hdebit := TokenLedger.debited_of_transfer ht (hw.ne_vault het (howner ▸ hkey))
    exact ⟨_, (Moves.of_payout w.whitelists hma hdebit).acts rfl
      (.claim hsettled hposition hexact hcap hrecord hdebit.le (.inr rfl)), rfl, _, _, _, rfl⟩
  · cases h

/-! ### After settlement -/

theorem reSettle_accrues (hw : WellFormed w) (h : reSettle w accounts = .ok (w', e)) :
    ∃ a, Accrues w a e w' ∧ w'.whitelists = w.whitelists ∧ ∃ f, e = .reSettle a f := by
  unfold reSettle at h
  split at h
  · rename_i market vault protocolConfig haircutState xs
    simp only [bind_eq_ok, require_eq_ok, loadMarket_eq_ok, loadProtocolConfig_eq_ok, loadTokenAccount_eq_ok,
      loadHaircutState_eq_ok, exists_const, Except.ok.injEq, Prod.mk.injEq] at h
    obtain ⟨ma, ⟨hma, -⟩, hvault, hsettled, config, ⟨-, hconfig⟩, -, m, haccrue, _, -, vt, hvt, _, -, total, htotal, _,
      ⟨-, -, rfl⟩, factor, hfactor, himproved, rfl, rfl⟩ := h
    have hp := hw.placed _ _ hma
    rw [← hvault, hp.vault] at hvt
    rw [← TokenLedger.amount_eq hvt] at hfactor
    exact ⟨_, (Moves.of_payout w.whitelists hma (.zero _ _)).accrues rfl
      (.reSettle hsettled haccrue htotal hfactor himproved) hconfig haccrue rfl, rfl, _, rfl⟩
  · cases h

theorem collectFees_accrues (hw : WellFormed w) (hsign : ∀ x ∈ accounts, x.isSigner → x.address.isKey)
    (h : collectFees w accounts = .ok (w', e)) :
    ∃ a n, e = .collectFees a n ∧ n ≠ 0 ∧ Accrues w a e w' ∧ w'.whitelists = w.whitelists := by
  unfold collectFees at h
  split at h
  · rename_i market protocolConfig feeAuthority feeDestination vault marketAuthority tokenProgram xs
    simp only [bind_eq_ok, require_eq_ok, checkedSub_eq_ok, loadMarket_eq_ok, loadProtocolConfig_eq_ok, loadVault_eq_ok,
      exists_const, Except.ok.injEq, Prod.mk.injEq] at h
    obtain ⟨-, config, ⟨-, hconfig⟩, -, -, hsigner, ma, ⟨hma, -⟩, _, -, hdistress, hwaiting, hvault, m, haccrue, -, vt,
      ⟨hvt, -⟩, amount, hamount, hpositive, _, -, dt, ⟨hdt, -⟩, howner, _, ⟨hfees, rfl⟩, t, ht, rfl, rfl⟩ := h
    have hp := hw.placed _ _ hma
    have hkey : feeAuthority.address.isKey := hsign feeAuthority (by simp) hsigner
    rw [← hvault, hp.vault] at ht hvt
    rw [← TokenLedger.amount_eq hvt] at hamount
    have hdebit := TokenLedger.debited_of_transfer ht (hw.ne_vault hdt (howner ▸ hkey))
    refine ⟨_, _, rfl, hpositive, (Moves.of_payout w.whitelists hma hdebit).accrues rfl
      (.collectFees ?_ ?_ haccrue hamount hfees hdebit.le) hconfig haccrue (Nat.sub_add_cancel hfees), rfl⟩
    · show ma.market.settlementFactorWad = 0 ∨ WAD ≤ ma.market.settlementFactorWad
      omega
    · show ma.market.scaledTotalSupply = 0 ∨ ma.market.settlementFactorWad = WAD
      omega
  · cases h

theorem withdrawExcess_acts (hw : WellFormed w) (h : withdrawExcess w accounts = .ok (w', e)) :
    ∃ a, Acts w a e w' ∧ w'.whitelists = w.whitelists ∧ ∃ b n, e = .withdrawExcess a b n := by
  unfold withdrawExcess at h
  split at h
  · rename_i market borrower borrowerToken vault marketAuthority tokenProgram protocolConfig blacklistCheck
      borrowerWhitelist xs
    simp only [bind_eq_ok, require_eq_ok, loadMarket_eq_ok, loadVault_eq_ok, loadTokenAccount_eq_ok,
      exists_const, Except.ok.injEq, Prod.mk.injEq] at h
    obtain ⟨-, -, config, -, -, ma, ⟨hma, -⟩, -, _, -, wl, -, -, hvault, hmatured, hempty, -, hsettled, hfees, vt,
      ⟨hvt, -⟩, -, bt, hbt, -, _, -, t, ht, rfl, rfl⟩ := h
    have hp := hw.placed _ _ hma
    rw [← hvault, hp.vault] at ht hvt
    rw [← TokenLedger.amount_eq hvt] at ht ⊢
    refine ⟨market.address, ⟨rfl, ⟨_, _, World.pool_of_lookup hma,
      World.pool_of_lookup (w := { w with tokens := t }) hma, ?_⟩, rfl, fun _ _ => rfl,
      fun b => TokenLedger.holder_transfer ht _, fun b hb => TokenLedger.amount_le_transfer ht (vault_ne hb)⟩, rfl,
      _, _, rfl⟩
    apply Pool.Step.withdrawExcess hmatured hempty hsettled hfees
    rcases TokenLedger.amount_transfer ht (.vault market.address) with ⟨-, ⟨-, hv⟩ | ⟨hne, hv⟩⟩
    · exact .inr hv
    · rw [if_neg hne, if_pos rfl] at hv
      exact .inl hv
  · cases h

theorem closeLenderPosition_acts (h : closeLenderPosition w accounts = .ok (w', e)) :
    ∃ a, Acts w a e w' ∧ w'.whitelists = w.whitelists ∧ ∃ l, e = .closePosition a l := by
  unfold closeLenderPosition at h
  split at h
  · rename_i market lender lenderPosition x protocolConfig xs
    simp only [bind_eq_ok, require_eq_ok, loadMarket_eq_ok, loadLenderPosition_eq_ok, exists_const, Except.ok.injEq,
      Prod.mk.injEq] at h
    obtain ⟨-, config, -, -, ma, ⟨hma, -⟩, position, ⟨-, hposition⟩, -, -, hbalance, howed, rfl, rfl⟩ := h
    exact ⟨_, (Moves.of_payout w.whitelists hma (.zero _ _)).acts rfl (.close hposition hbalance howed), rfl, _, rfl⟩
  · cases h

end Handlers

/-! ### Administration and creation -/

/-- The instruction that writes whitelist entries. -/
def Event.lists : Event → Bool
  | setWhitelist .. => true
  | _ => false

/-- An instruction that touches no market. -/
structure Leaves (w : World) (e : Event) (w' : World) : Prop where
  event : e.market = none
  markets : w'.markets = w.markets
  tokens : w'.tokens = w.tokens
  clock : w'.clock = w.clock

section Admin

variable {w w' : World} {accounts : List AccountMeta} {data : List UInt8} {e : Event}

theorem initializeProtocol_leaves (h : initializeProtocol w accounts data = .ok (w', e)) :
    Leaves w e w' ∧ w'.whitelists = w.whitelists ∧ ¬e.lists := by
  unfold initializeProtocol at h
  split at h
  · simp only [bind_eq_ok, require_eq_ok, exists_const, Except.ok.injEq, Prod.mk.injEq] at h
    obtain ⟨-, -, -, -, -, -, -, -, -, -, rfl, rfl⟩ := h
    exact ⟨⟨rfl, rfl, rfl, rfl⟩, rfl, Bool.false_ne_true⟩
  · cases h

theorem setFeeConfig_leaves (h : setFeeConfig w accounts data = .ok (w', e)) :
    Leaves w e w' ∧ w'.whitelists = w.whitelists ∧ ¬e.lists := by
  unfold setFeeConfig at h
  split at h
  · simp only [bind_eq_ok, require_eq_ok, exists_const, Except.ok.injEq, Prod.mk.injEq] at h
    obtain ⟨-, _, -, -, -, rfl, rfl⟩ := h
    exact ⟨⟨rfl, rfl, rfl, rfl⟩, rfl, Bool.false_ne_true⟩
  · cases h

theorem setPause_leaves (h : setPause w accounts data = .ok (w', e)) :
    Leaves w e w' ∧ w'.whitelists = w.whitelists ∧ ¬e.lists := by
  unfold setPause at h
  split at h
  · simp only [bind_eq_ok, Except.ok.injEq, Prod.mk.injEq] at h
    obtain ⟨_, -, _, -, rfl, rfl⟩ := h
    exact ⟨⟨rfl, rfl, rfl, rfl⟩, rfl, Bool.false_ne_true⟩
  · cases h

theorem setBlacklistMode_leaves (h : setBlacklistMode w accounts data = .ok (w', e)) :
    Leaves w e w' ∧ w'.whitelists = w.whitelists ∧ ¬e.lists := by
  unfold setBlacklistMode at h
  split at h
  · simp only [bind_eq_ok, Except.ok.injEq, Prod.mk.injEq] at h
    obtain ⟨_, -, _, -, rfl, rfl⟩ := h
    exact ⟨⟨rfl, rfl, rfl, rfl⟩, rfl, Bool.false_ne_true⟩
  · cases h

theorem setAdmin_leaves (h : setAdmin w accounts = .ok (w', e)) :
    Leaves w e w' ∧ w'.whitelists = w.whitelists ∧ ¬e.lists := by
  unfold setAdmin at h
  split at h
  · simp only [bind_eq_ok, Except.ok.injEq, Prod.mk.injEq] at h
    obtain ⟨_, -, _, -, rfl, rfl⟩ := h
    exact ⟨⟨rfl, rfl, rfl, rfl⟩, rfl, Bool.false_ne_true⟩
  · cases h

theorem setWhitelistManager_leaves (h : setWhitelistManager w accounts = .ok (w', e)) :
    Leaves w e w' ∧ w'.whitelists = w.whitelists ∧ ¬e.lists := by
  unfold setWhitelistManager at h
  split at h
  · simp only [bind_eq_ok, Except.ok.injEq, Prod.mk.injEq] at h
    obtain ⟨_, -, _, -, rfl, rfl⟩ := h
    exact ⟨⟨rfl, rfl, rfl, rfl⟩, rfl, Bool.false_ne_true⟩
  · cases h

theorem setBorrowerWhitelist_leaves (h : setBorrowerWhitelist w accounts data = .ok (w', e)) :
    Leaves w e w' ∧ ∃ b f, e = .setWhitelist b f ∧ Lists w b f w' := by
  unfold setBorrowerWhitelist at h
  split at h
  · simp only [bind_eq_ok, Except.ok.injEq, Prod.mk.injEq] at h
    obtain ⟨_, -, _, -, _, -, _, -, _, -, _, -, wl, hwl, rfl, rfl⟩ := h
    exact ⟨⟨rfl, rfl, rfl, rfl⟩, _, _, rfl, _, wl, hwl, rfl⟩
  · cases h

end Admin

/-- The event `e` creates the market at the address `a`. -/
structure Creates (w : World) (a : Address) (e : Event) (w' : World) : Prop where
  event : ∃ borrower nonce, e = .createMarket a borrower nonce
  none : w.markets.lookup a = none
  pool : ∃ p, w'.pool a = some p ∧ p.Fresh a
  clock : w'.clock = w.clock
  markets : ∀ b, b ≠ a → w'.markets.lookup b = w.markets.lookup b
  tokens : w'.tokens.accounts =
    w.tokens.accounts.insert (.vault a) { mint := USDC_MINT, owner := .marketAuthority a, amount := 0 }

private theorem checkMarketTerms_ok {now maturityTimestamp : ℤ} {annualInterestBps maxTotalSupply : ℕ} {u : Unit}
    (h : checkMarketTerms now annualInterestBps maturityTimestamp maxTotalSupply = .ok u) :
    annualInterestBps ≤ MAX_ANNUAL_INTEREST_BPS ∧ now + MIN_MATURITY_DELTA < maturityTimestamp ∧
      maturityTimestamp ≤ now + MAX_MATURITY_DELTA ∧ maturityTimestamp + SETTLEMENT_GRACE_PERIOD ≤ i64Max ∧
      maxTotalSupply ≠ 0 := by
  simp only [checkMarketTerms, bind_eq_ok, require_eq_ok, checkedAddI64_eq_ok, exists_const] at h
  obtain ⟨hrate, _, ⟨-, rfl⟩, hmin, _, ⟨-, rfl⟩, hmax, _, ⟨hgrace, -⟩, hcap⟩ := h
  exact ⟨hrate, hmin, hmax, hgrace, hcap⟩

theorem createMarket_creates {w w' : World} {accounts : List AccountMeta} {data : List UInt8} {e : Event}
    (hsign : ∀ x ∈ accounts, x.isSigner → x.address.isKey)
    (h : createMarket w accounts data = .ok (w', e)) :
    ∃ a, Creates w a e w' ∧ w'.whitelists = w.whitelists ∧
      ∃ b wl, w.whitelists.lookup b = some wl ∧ wl.isWhitelisted = 1 ∧
        ∃ nonce, e = .createMarket a b nonce ∧ a = .market b nonce := by
  unfold createMarket at h
  split at h
  · rename_i market borrower mint vault marketAuthority protocolConfig borrowerWhitelist blacklistCheck x₁ x₂
      haircutState xs
    simp only [bind_eq_ok, require_eq_ok, loadBorrowerWhitelist_eq_ok, exists_const, Except.ok.injEq,
      Prod.mk.injEq] at h
    obtain ⟨-, hsigner, config, -, -, -, _, hterms, _, -, -, hmint, wl, ⟨-, hwl⟩, hlisted, _, -, haddress, hvault, -,
      hnone, t, ht, -, rfl, rfl⟩ := h
    obtain ⟨hrate, hmin, hmax, hgrace, hcap⟩ := checkMarketTerms_ok hterms
    rw [hvault, hmint] at ht
    obtain ⟨-, haccounts⟩ := TokenLedger.openAccount_ok ht
    refine ⟨market.address, ⟨⟨_, _, rfl⟩, by simpa using hnone, ?_, rfl,
      fun b hb => by simp [World.setMarket, Finmap.lookup_insert_of_ne _ hb], haccounts⟩, rfl, _, wl, hwl, hlisted, _,
      rfl, haddress⟩
    refine ⟨_, World.pool_of_lookup (by simp [World.setMarket]; rfl), ?_⟩
    have hzero : t.amount (.vault market.address) = 0 := by
      simp [TokenLedger.amount, TokenLedger.lookup, haccounts]
    simp only [World.setMarket, hvault, hzero]
    exact .mk (hsign borrower (by simp) hsigner) haddress hrate hmin hmax hgrace hcap
  · cases h

/-- The instructions that accrue interest first. -/
def Event.accrues : Event → Bool
  | deposit .. | borrow .. | repay .. | repayInterest .. => true
  | withdraw .. | collectFees .. | reSettle .. | forceClose .. => true
  | _ => false

/-- The instruction that takes fees out of a vault. -/
def Event.collects : Event → Bool
  | collectFees .. => true
  | _ => false

/-- The instructions that move principal. -/
def Event.movesPrincipal : Event → Bool
  | borrow .. | repay .. => true
  | _ => false

/-- What an instruction does, with what the lemmas above leave of it: every instruction is of one of these kinds. -/
inductive Effect (w : World) : Event → World → Prop
  | leaves {e : Event} {w' : World} (h : Leaves w e w') (hwls : w'.whitelists = w.whitelists) (hlists : ¬e.lists) :
      Effect w e w'
  | lists {b : Address} {f : ℕ} {w' : World} (h : Leaves w (.setWhitelist b f) w') (hlists : Lists w b f w') :
      Effect w (.setWhitelist b f) w'
  | creates {a b : Address} {nonce : ℕ} {wl : BorrowerWhitelist} {w' : World}
      (h : Creates w a (.createMarket a b nonce) w')
      (haddress : a = .market b nonce) (hwls : w'.whitelists = w.whitelists) (hwl : w.whitelists.lookup b = some wl)
      (hlisted : wl.isWhitelisted = 1) : Effect w (.createMarket a b nonce) w'
  | borrows {a b : Address} {n : ℕ} {w' : World} (h : Accrues w a (.borrow a b n) w') (hborrows : Borrows w a b n w') :
      Effect w (.borrow a b n) w'
  | repays {a payer : Address} {n debt : ℕ} {w' : World} (h : Accrues w a (.repay a payer n debt) w')
      (hrepays : Repays w a n w') : Effect w (.repay a payer n debt) w'
  | collects {a : Address} {n : ℕ} {w' : World} (h : Accrues w a (.collectFees a n) w')
      (hwls : w'.whitelists = w.whitelists) (hn : n ≠ 0) : Effect w (.collectFees a n) w'
  | accrues {a : Address} {e : Event} {w' : World} (h : Accrues w a e w') (hwls : w'.whitelists = w.whitelists)
      (haccrues : e.accrues) (hcollects : ¬e.collects) (hprincipal : ¬e.movesPrincipal) : Effect w e w'
  | acts {a : Address} {e : Event} {w' : World} (h : Acts w a e w') (hwls : w'.whitelists = w.whitelists)
      (haccrues : ¬e.accrues) : Effect w e w'

theorem World.Exits.effect {w w' : World} {a lender : Address} {x : Exit} {scaled payout : ℕ}
    (h : w.Exits a lender x scaled payout w') (hwls : w'.whitelists = w.whitelists) :
    Effect w (x.event a lender payout scaled) w' := by
  cases x with
  | withdraw => exact .accrues h.accrues hwls rfl Bool.false_ne_true Bool.false_ne_true
  | forceClose => exact .accrues h.accrues hwls rfl Bool.false_ne_true Bool.false_ne_true

theorem processInstruction_effect {w w' : World} {accounts : List AccountMeta} {data : List UInt8} {e : Event}
    (hw : WellFormed w) (hsign : ∀ x ∈ accounts, x.isSigner → x.address.isKey)
    (h : processInstruction w accounts data = .ok (w', e)) : Effect w e w' := by
  unfold processInstruction at h
  split at h
  · cases h
  · split at h
    · obtain ⟨hl, hwls, hlists⟩ := initializeProtocol_leaves h
      exact .leaves hl hwls hlists
    · obtain ⟨hl, hwls, hlists⟩ := setFeeConfig_leaves h
      exact .leaves hl hwls hlists
    · obtain ⟨a, ha, hwls, b, wl, hwl, hlisted, nonce, rfl, haddress⟩ := createMarket_creates hsign h
      exact .creates ha haddress hwls hwl hlisted
    · obtain ⟨a, ha, hwls, _, _, _, rfl⟩ := deposit_accrues hw hsign h
      exact .accrues ha hwls rfl Bool.false_ne_true Bool.false_ne_true
    · obtain ⟨a, b, n, rfl, ha, hborrows⟩ := borrow_accrues hw hsign h
      exact .borrows ha hborrows
    · obtain ⟨a, payer, n, debt, rfl, ha, hrepays⟩ := repay_accrues hw hsign h
      exact .repays ha hrepays
    · obtain ⟨a, ha, hwls, _, _, _, rfl⟩ := repayInterest_accrues hw hsign h
      exact .accrues ha hwls rfl Bool.false_ne_true Bool.false_ne_true
    · obtain ⟨a, _, _, _, rfl, hexits, hwls⟩ := withdraw_exits hw hsign h
      exact hexits.effect hwls
    · obtain ⟨a, n, rfl, hn, ha, hwls⟩ := collectFees_accrues hw hsign h
      exact .collects ha hwls hn
    · obtain ⟨a, ha, hwls, _, rfl⟩ := reSettle_accrues hw h
      exact .accrues ha hwls rfl Bool.false_ne_true Bool.false_ne_true
    · obtain ⟨a, ha, hwls, _, rfl⟩ := closeLenderPosition_acts h
      exact .acts ha hwls Bool.false_ne_true
    · obtain ⟨a, ha, hwls, _, _, rfl⟩ := withdrawExcess_acts hw h
      exact .acts ha hwls Bool.false_ne_true
    · obtain ⟨hl, b, f, rfl, hlists⟩ := setBorrowerWhitelist_leaves h
      exact .lists hl hlists
    · obtain ⟨hl, hwls, hlists⟩ := setPause_leaves h
      exact .leaves hl hwls hlists
    · obtain ⟨hl, hwls, hlists⟩ := setBlacklistMode_leaves h
      exact .leaves hl hwls hlists
    · obtain ⟨hl, hwls, hlists⟩ := setAdmin_leaves h
      exact .leaves hl hwls hlists
    · obtain ⟨hl, hwls, hlists⟩ := setWhitelistManager_leaves h
      exact .leaves hl hwls hlists
    · obtain ⟨a, _, _, _, rfl, hexits, hwls⟩ := forceClosePosition_exits hw h
      exact hexits.effect hwls
    · obtain ⟨a, ha, hwls, _, _, _, rfl⟩ := claimHaircut_acts hw hsign h
      exact .acts ha hwls Bool.false_ne_true
    · obtain ⟨a, ha, hwls, _, _, _, rfl⟩ := forceClaimHaircut_acts hw h
      exact .acts ha hwls Bool.false_ne_true
    · cases h

/-- An instruction touches no market, acts on one, or creates one. -/
theorem Effect.market {w w' : World} {e : Event} (h : Effect w e w') :
    Leaves w e w' ∨ (∃ a, Acts w a e w') ∨ ∃ a, Creates w a e w' := by
  cases h with
  | leaves h | lists h => exact .inl h
  | creates h => exact .inr (.inr ⟨_, h⟩)
  | acts h => exact .inr (.inl ⟨_, h⟩)
  | borrows h | repays h | collects h | accrues h => exact .inr (.inl ⟨_, h.toActs⟩)

/-! ### Pools along the steps of the chain -/

section Pools

variable {w w' : World} {a : Address} {e : Option Event} {p p' : Pool}

theorem World.pool_eq_some : w.pool a = some p ↔
    w.markets.lookup a = some p.toMarketAccounts ∧ p.clock = w.clock ∧ p.vault = w.tokens.amount (.vault a) := by
  unfold World.pool
  rw [Option.map_eq_some_iff]
  constructor
  · rintro ⟨ma, h, rfl⟩
    exact ⟨h, rfl, rfl⟩
  · rintro ⟨h, hclock, hvault⟩
    exact ⟨_, h, by rw [← hclock, ← hvault]⟩

theorem World.pool_eq_none : w.pool a = none ↔ w.markets.lookup a = none := by
  simp [World.pool]

/-- A pool that no instruction acts on. -/
private theorem idle (hp : w.pool a = some p) (hmarket : w'.markets.lookup a = w.markets.lookup a)
    (hclock : w.clock ≤ w'.clock) (hvault : w.tokens.amount (.vault a) ≤ w'.tokens.amount (.vault a))
    (he : e.bind Event.market ≠ some a) : ∃ p', w'.pool a = some p' ∧ Pool.Step a p e p' := by
  obtain ⟨hma, hc, hv⟩ := World.pool_eq_some.1 hp
  refine ⟨{ p with clock := w'.clock, vault := w'.tokens.amount (.vault a) }, ?_, ?_⟩
  · exact World.pool_eq_some.2 ⟨hmarket.trans hma, rfl, rfl⟩
  · exact .idle he (hc ▸ hclock) (hv ▸ hvault)

/-- Every step of the chain is a step of every pool. -/
theorem Step.pool (hw : WellFormed w) (h : Step w e w') (hp : w.pool a = some p) :
    ∃ p', w'.pool a = some p' ∧ Pool.Step a p e p' := by
  cases h with
  | instruction hsign h =>
    rcases (processInstruction_effect hw hsign h).market with hl | ⟨b, hb⟩ | ⟨b, hb⟩
    · exact idle hp (by rw [hl.markets]) hl.clock.ge (by rw [hl.tokens]) (by simp [hl.event])
    · by_cases hab : a = b
      · subst hab
        obtain ⟨q, q', hq, hq', hstep⟩ := hb.pool
        obtain rfl : p = q := Option.some.inj (hp.symm.trans hq)
        exact ⟨q', hq', hstep⟩
      · exact idle hp (hb.markets a hab) hb.clock.ge (hb.amount a hab) (by simp [hb.event, Ne.symm hab])
    · have hab : a ≠ b := by
        rintro rfl
        rw [World.pool_eq_none.2 hb.none] at hp
        cases hp
      obtain ⟨_, _, rfl⟩ := hb.event
      refine idle hp (hb.markets a hab) hb.clock.ge ?_ (by simp [Event.market, Ne.symm hab])
      rw [TokenLedger.amount, TokenLedger.amount, TokenLedger.lookup, TokenLedger.lookup, hb.tokens,
        Finmap.lookup_insert_of_ne _ (vault_ne hab)]
  | clock h => exact idle hp rfl h le_rfl (by simp)
  | tokens h => exact idle hp rfl le_rfl (h a).2 (by simp)
  | external => exact idle hp rfl le_rfl le_rfl (by simp)

/-- The step of a pool that is known before and after. -/
theorem Step.pool_step (hw : WellFormed w) (h : Step w e w') (hp : w.pool a = some p) (hp' : w'.pool a = some p') :
    Pool.Step a p e p' := by
  obtain ⟨q, hq, hstep⟩ := h.pool hw hp
  obtain rfl := Option.some.inj (hp'.symm.trans hq)
  exact hstep

/-- A pool that was not there before is a fresh one. -/
theorem Step.pool_new (hw : WellFormed w) (h : Step w e w') (hp : w.pool a = none) (hp' : w'.pool a = some p') :
    p'.Fresh a ∧ ∃ borrower nonce, e = some (.createMarket a borrower nonce) := by
  have hnone := World.pool_eq_none.1 hp
  have hsome := (World.pool_eq_some.1 hp').1
  cases h with
  | instruction hsign h =>
    rcases (processInstruction_effect hw hsign h).market with hl | ⟨b, hb⟩ | ⟨b, hb⟩
    · rw [hl.markets, hnone] at hsome
      cases hsome
    · by_cases hab : a = b
      · subst hab
        obtain ⟨_, _, hq, -⟩ := hb.pool
        rw [hp] at hq
        cases hq
      · rw [hb.markets a hab, hnone] at hsome
        cases hsome
    · by_cases hab : a = b
      · subst hab
        obtain ⟨q, hq, hfresh⟩ := hb.pool
        obtain rfl : p' = q := Option.some.inj (hp'.symm.trans hq)
        obtain ⟨borrower, nonce, rfl⟩ := hb.event
        exact ⟨hfresh, borrower, nonce, rfl⟩
      · rw [hb.markets a hab, hnone] at hsome
        cases hsome
  | clock | tokens | external => rw [hnone] at hsome; cases hsome

/-- Before a market is created nothing happens to it. -/
theorem Step.pool_none (hw : WellFormed w) (h : Step w e w') (hp : w.pool a = none) (hp' : w'.pool a = none) :
    e.bind Event.market ≠ some a := by
  cases h with
  | instruction hsign h =>
    rcases (processInstruction_effect hw hsign h).market with hl | ⟨b, hb⟩ | ⟨b, hb⟩
    · simp [hl.event]
    · obtain ⟨_, _, hq, -⟩ := hb.pool
      simp only [Option.bind_some, hb.event, ne_eq, Option.some.injEq]
      rintro rfl
      rw [hp] at hq
      cases hq
    · obtain ⟨_, _, rfl⟩ := hb.event
      obtain ⟨_, hq, -⟩ := hb.pool
      simp only [Option.bind_some, Event.market, ne_eq, Option.some.injEq]
      rintro rfl
      rw [hp'] at hq
      cases hq
  | clock | tokens | external => simp

end Pools

/-! ### Reachable states are well formed -/

section Invariants

variable {w w' : World} {a : Address} {e : Option Event} {p p' : Pool}

theorem Pool.Fresh.placed (h : p.Fresh a) : p.Placed a := by
  cases h with
  | mk hborrower haddress =>
    refine ⟨haddress, hborrower, rfl, rfl, rfl, ?_⟩
    intro l position h
    simp [freshMarket] at h

private theorem placed_insert (hp : p.Placed a) {lender : Address} {position : LenderPosition}
    (h : position.market = a ∧ position.lender = lender ∧ lender.isKey) (l : Address) (q : LenderPosition)
    (hq : (p.positions.insert lender position).lookup l = some q) : q.market = a ∧ q.lender = l ∧ l.isKey := by
  rcases Finmap.lookup_of_insert hq with ⟨rfl, rfl⟩ | hq
  · exact h
  · exact hp.positions l q hq

theorem depositPosition_ok {existing : Option LenderPosition} {market lender : Address} {scaled : ℕ}
    {position : LenderPosition} (h : depositPosition existing market lender scaled = .ok position) :
    position.market = market ∧ position.lender = lender ∧
      position.scaledBalance = (existing.elim 0 LenderPosition.scaledBalance) + scaled ∧
      position.haircutOwed = existing.elim 0 LenderPosition.haircutOwed ∧
      position.withdrawalSf = existing.elim 0 LenderPosition.withdrawalSf := by
  cases existing with
  | none =>
    obtain rfl := Except.ok.inj h
    simp
  | some q =>
    simp only [depositPosition, bind_eq_ok, require_eq_ok, checkedAdd_eq_ok, exists_const, Except.ok.injEq] at h
    obtain ⟨hm, hl, _, ⟨-, rfl⟩, rfl⟩ := h
    exact ⟨hm, hl, rfl, rfl, rfl⟩

theorem Pool.Step.placed (h : Pool.Step a p e p') (hp : p.Placed a) : p'.Placed a := by
  have hterms := h.terms
  simp only [Market.terms, Prod.mk.injEq] at hterms
  obtain ⟨hborrower, hmint, hvault, -, -, -, hnonce⟩ := hterms
  refine ⟨?_, hborrower ▸ hp.borrower, hmint.trans hp.mint, hvault.trans hp.vault, ?_, ?_⟩
  · rw [hborrower, hnonce]
    exact hp.address
  · cases h with
    | exit _ _ _ _ _ _ _ htracks => exact htracks.shape.haircutState.trans hp.haircutState
    | claim _ _ _ _ hrecord => exact (recordClaim_shape hrecord).haircutState.trans hp.haircutState
    | _ => exact hp.haircutState
  · cases h with
    | deposit hkey _ _ _ _ _ hposition =>
      obtain ⟨hm, hl, -⟩ := depositPosition_ok hposition
      exact placed_insert hp ⟨hm, hl, hkey⟩
    | exit _ _ _ hposition _ _ _ htracks =>
      apply placed_insert hp
      rw [htracks.shape.position]
      exact (hp.positions _ _ hposition :)
    | claim _ hposition _ _ hrecord =>
      apply placed_insert hp
      rw [(recordClaim_shape hrecord).position]
      exact (hp.positions _ _ hposition :)
    | @close lender =>
      intro l q hq
      exact hp.positions l q (Finmap.lookup_of_erase hq)
    | _ => exact hp.positions

/-- The vault of a market keeps its mint and owner, and a market that is not there has no vault. -/
private theorem Step.vaults (hw : WellFormed w) (h : Step w e w') :
    (∀ b, w'.markets.lookup b ≠ none → w'.tokens.holder (.vault b) = some (USDC_MINT, .marketAuthority b)) ∧
      ∀ b, w'.markets.lookup b = none → w'.tokens.lookup (.vault b) = none := by
  have hkeep {w' : World} (hm : ∀ b, w'.markets.lookup b = none ↔ w.markets.lookup b = none)
      (hh : ∀ b, w'.tokens.holder (.vault b) = w.tokens.holder (.vault b)) :
      (∀ b, w'.markets.lookup b ≠ none → w'.tokens.holder (.vault b) = some (USDC_MINT, .marketAuthority b)) ∧
        ∀ b, w'.markets.lookup b = none → w'.tokens.lookup (.vault b) = none := by
    constructor
    · intro b hb
      obtain ⟨ma, hma⟩ := Option.ne_none_iff_exists'.1 (mt (hm b).2 hb)
      rw [hh, hw.vault b ma hma]
    · intro b hb
      have := hh b
      rw [TokenLedger.holder, TokenLedger.holder, hw.noVault b ((hm b).1 hb), Option.map_none,
        Option.map_eq_none_iff] at this
      exact this
  cases h with
  | instruction hsign h =>
    rcases (processInstruction_effect hw hsign h).market with hl | ⟨c, hc⟩ | ⟨c, hc⟩
    · exact hkeep (fun b => by rw [hl.markets]) fun b => by rw [hl.tokens]
    · apply hkeep _ hc.holder
      intro b
      by_cases hb : b = c
      · subst hb
        obtain ⟨q, q', hq, hq', -⟩ := hc.pool
        rw [(World.pool_eq_some.1 hq).1, (World.pool_eq_some.1 hq').1]
        simp
      · rw [hc.markets b hb]
    · have hlookup (b) (hb : b ≠ c) : w'.tokens.lookup (.vault b) = w.tokens.lookup (.vault b) := by
        rw [TokenLedger.lookup, TokenLedger.lookup, hc.tokens, Finmap.lookup_insert_of_ne _ (vault_ne hb)]
      constructor
      · intro b hb
        by_cases hbc : b = c
        · subst hbc
          simp [TokenLedger.holder, TokenLedger.lookup, hc.tokens]
        · rw [hc.markets b hbc] at hb
          obtain ⟨ma, hma⟩ := Option.ne_none_iff_exists'.1 hb
          rw [TokenLedger.holder, hlookup b hbc]
          exact hw.vault b ma hma
      · intro b hb
        by_cases hbc : b = c
        · subst hbc
          obtain ⟨q, hq, -⟩ := hc.pool
          rw [(World.pool_eq_some.1 hq).1] at hb
          cases hb
        · rw [hc.markets b hbc] at hb
          rw [hlookup b hbc]
          exact hw.noVault b hb
  | tokens h => exact hkeep (fun _ => Iff.rfl) fun b => (h b).1
  | clock | external => exact hkeep (fun _ => Iff.rfl) fun _ => rfl

theorem WellFormed.step (hw : WellFormed w) (h : Step w e w') : WellFormed w' := by
  obtain ⟨hvault, hnone⟩ := h.vaults hw
  refine ⟨?_, ?_, hnone⟩
  · intro b ma hma
    have hq' := World.pool_of_lookup hma
    cases hq : w.pool b with
    | none => exact (h.pool_new hw hq hq').1.placed
    | some q => exact (h.pool_step hw hq hq').placed (hw.placed b _ (World.pool_eq_some.1 hq).1)
  · intro b ma hma
    exact hvault b (by simp [hma])

theorem Reachable.wellFormed (h : Reachable w) : WellFormed w := by
  apply h.invariant
  · intro w hg
    have hnone (b) : w.markets.lookup b = none := by simp [hg.markets]
    constructor
    · intro b ma hma
      rw [hnone b] at hma
      cases hma
    · intro b ma hma
      rw [hnone b] at hma
      cases hma
    · intro b _
      exact hg.vaults b
  · intro _ _ _ _ hw hs
    exact hw.step hs

/-- Instructions take no time. -/
theorem processInstruction_clock {accounts : List AccountMeta} {data : List UInt8} {f : Event} (hw : WellFormed w)
    (hsign : ∀ x ∈ accounts, x.isSigner → x.address.isKey) (h : processInstruction w accounts data = .ok (w', f)) :
    w'.clock = w.clock := by
  rcases (processInstruction_effect hw hsign h).market with hl | ⟨b, hb⟩ | ⟨b, hb⟩
  · exact hl.clock
  · exact hb.clock
  · exact hb.clock

theorem Step.clock_le (hw : WellFormed w) (h : Step w e w') : w.clock ≤ w'.clock := by
  cases h with
  | instruction hsign hok => exact (processInstruction_clock hw hsign hok).ge
  | clock h => exact h
  | tokens | external => exact le_rfl

theorem Reachable.clock_le (h : Reachable w) : w.clock ≤ i64Max := by
  apply h.invariant
  · intro w hg
    exact hg.clock
  · intro w e w' hr ih hs
    cases hs with
    | instruction hsign hok => exact (processInstruction_clock (Reachable.wellFormed hr) hsign hok).symm ▸ ih
    | clock _ hmax => exact hmax
    | tokens | external => exact ih

/-- An invariant of a market: it holds when the market is created, and every step of the pool keeps it. -/
theorem Reachable.pool_invariant {I : Pool → Prop} (hfresh : ∀ p, p.Fresh a → I p)
    (hstep : ∀ p e p', I p → Pool.Step a p e p' → I p') (h : Reachable w) (hp : w.pool a = some p) : I p := by
  suffices H : ∀ p, w.pool a = some p → I p from H p hp
  refine h.invariant (I := fun w => ∀ p, w.pool a = some p → I p) ?_ ?_
  · intro w hg p hp
    rw [World.pool_eq_some, hg.markets] at hp
    simp at hp
  · intro w e w' hr ih hs p' hp'
    cases hq : w.pool a with
    | none => exact hfresh p' (hs.pool_new (Reachable.wellFormed hr) hq hp').1
    | some q => exact hstep q e p' (ih q hq) (hs.pool_step (Reachable.wellFormed hr) hq hp')

/-- Along a run a market stays, and a property of the history and the pool is kept if every pool step keeps it. -/
theorem Run.pool_invariant {I : List Record → Pool → Prop} (h : Reachable w) (hp : w.pool a = some p) (hnil : I [] p)
    (hcons : ∀ hist x q q', Reachable x.pre → x.pre.pool a = some q → x.post.pool a = some q' →
      Pool.Step a q x.event q' → I hist q → I (x :: hist) q')
    {hist : List Record} (r : Run w hist w') : ∃ p', w'.pool a = some p' ∧ I hist p' := by
  induction r with
  | nil => exact ⟨p, hp, hnil⟩
  | cons r hs ih =>
    obtain ⟨q, hq, hI⟩ := ih
    obtain ⟨q', hq', hstep⟩ := hs.pool (Reachable.wellFormed (r.reachable h)) hq
    exact ⟨q', hq', hcons _ _ q q' (r.reachable h) hq hq' hstep hI⟩

/-- An invariant of the whole history of a market: it holds when the market is created, before which nothing happens
to it, and every step of the pool keeps it. -/
theorem Run.history_invariant {w₀ : World} {I : List Record → Pool → Prop} (hg : Genesis w₀)
    (hnew : ∀ hist x q, (∀ y ∈ hist, y.event.bind Event.market ≠ some a) →
      (∃ borrower nonce, x.event = some (.createMarket a borrower nonce)) → q.Fresh a → I (x :: hist) q)
    (hcons : ∀ hist x q q', Reachable x.pre → x.pre.pool a = some q → x.post.pool a = some q' →
      Pool.Step a q x.event q' → I hist q → I (x :: hist) q')
    {hist : List Record} (r : Run w₀ hist w) (hp : w.pool a = some p) : I hist p := by
  suffices H : (∀ q, w.pool a = some q → I hist q) ∧
      (w.pool a = none → ∀ y ∈ hist, y.event.bind Event.market ≠ some a) from H.1 p hp
  clear hp
  induction r with
  | nil =>
    have hnone : w₀.pool a = none := World.pool_eq_none.2 (by simp [hg.markets])
    simp [hnone]
  | @cons hist w₁ w₂ e r hs ih =>
    have hr : Reachable w₁ := r.reachable (.init hg)
    have hw := Reachable.wellFormed hr
    cases hq : w₁.pool a with
    | none =>
      constructor
      · intro q' hq'
        obtain ⟨hfresh, hevent⟩ := hs.pool_new hw hq hq'
        exact hnew _ _ _ (ih.2 hq) hevent hfresh
      · intro hq'
        exact List.forall_mem_cons.2 ⟨hs.pool_none hw hq hq', ih.2 hq⟩
    | some q =>
      obtain ⟨q', hq', hstep⟩ := hs.pool hw hq
      constructor
      · intro q'' hq''
        obtain rfl := Option.some.inj (hq'.symm.trans hq'')
        exact hcons _ _ q q' hr hq hq' hstep (ih.1 q hq)
      · intro hnone
        rw [hq'] at hnone
        cases hnone

end Invariants

end Coalesce
