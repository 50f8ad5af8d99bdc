import Coalesce.Account
import Coalesce.Authority

/-!
# Exits side by side

An exit is settled by the factors of the market and the position of its lender alone: the rest of the pool only adds
up.  So exits of different lenders commute, and the forced handlers can be compared with the voluntary ones, and a
claim followed by an exit with the exit alone.
-/

namespace Coalesce

open ProRata

/-! ### The outcome of an exit -/

/-- The factors decide what an exit pays and leaves. -/
theorem Account.Step.exit_unique {f s scaled payout payout' : ℕ} {c c₁ c₂ : Account}
    (h₁ : c.Step f s (.exit scaled payout) c₁) (h₂ : c.Step f s (.exit scaled payout') c₂) :
    payout = payout' ∧ c₁ = c₂ := by
  cases h₁ with
  | exit _ hpar =>
    cases h₂ with
    | exit => exact ⟨rfl, rfl⟩
    | gap hn hpay _ hgap hlt => omega
  | gap hn hpay _ hgap hlt =>
    cases h₂ with
    | exit _ hpar => omega
    | gap hn' hpay' =>
      obtain rfl := hn.trans hn'.symm
      obtain rfl := hpay.trans hpay'.symm
      exact ⟨rfl, rfl⟩

theorem LenderPosition.eq_of_account {q q' : LenderPosition} (h : q.account = q'.account)
    (hmarket : q.market = q'.market) (hlender : q.lender = q'.lender) : q = q' := by
  cases q
  cases q'
  simp only [LenderPosition.account, Account.mk.injEq] at h
  simp_all

theorem HaircutState.eq_of_parts {hs hs' : HaircutState} (hmarket : hs.market = hs'.market)
    (hweight : hs.claimWeightSum = hs'.claimWeightSum) (hoffset : hs.claimOffsetSum = hs'.claimOffsetSum) :
    hs = hs' := by
  cases hs
  cases hs'
  simp_all

namespace Pool

theorem eq_of_parts {p p' : Pool} (hmarket : p.market = p'.market) (hhaircut : p.haircutState = p'.haircutState)
    (hpositions : p.positions = p'.positions) (hclock : p.clock = p'.clock) (hvault : p.vault = p'.vault) : p = p' := by
  obtain ⟨⟨_, _, _⟩, _, _⟩ := p
  obtain ⟨⟨_, _, _⟩, _, _⟩ := p'
  simp_all

/-- The position `q` of the lender `l` becomes `q'`, and the books of the pool move with it. -/
structure Outcome (l : Address) (x : Exit) (p : Pool) (q q' : LenderPosition) (scaled payout : ℕ) (p' : Pool) :
    Prop where
  position : p.positions.lookup l = some q
  units : scaled = x.units q.scaledBalance
  minimum : x.minimum ≤ payout
  account : q.account.Step p.market.scaleFactor p.market.settlementFactorWad (.exit scaled payout) q'.account
  address : q'.market = q.market ∧ q'.lender = q.lender
  market : p'.market = { p.market with
    scaledTotalSupply := p.market.scaledTotalSupply - scaled
    totalDeposited := x.deposited p.market.totalDeposited payout
    haircutAccumulator := p'.market.haircutAccumulator }
  haircutState : p'.haircutState.market = p.haircutState.market
  owed : p'.market.haircutAccumulator + q.haircutOwed = p.market.haircutAccumulator + q'.haircutOwed
  weight : p'.haircutState.claimWeightSum + q.weight = p.haircutState.claimWeightSum + q'.weight
  offset : p'.haircutState.claimOffsetSum + q.offset = p.haircutState.claimOffsetSum + q'.offset
  positions : p'.positions = p.positions.insert l q'
  clock : p'.clock = p.clock
  vault : p'.vault = p.vault - payout
  payout_le : payout ≤ p.vault

variable {p p' p₁ p₂ p₁' p₂' : Pool} {l k : Address} {x y : Exit} {q q' q₁ q₁' : LenderPosition}
  {scaled payout scaled' payout' : ℕ}

/-- An older haircut only adds to what is paid. -/
theorem Tracks.le_payout {m : Market} {hs : HaircutState} {n pay : ℕ} {t : Tracked} (h : Tracks m hs q n pay t) :
    pay ≤ t.payout := by
  rcases h with ⟨-, -, -, h⟩ | ⟨-, rfl⟩
  · obtain ⟨_, _, _, -, -, -, -, -, -, rfl⟩ := recordGap_eq_ok.1 h
    exact Nat.le_add_right _ _
  · exact le_rfl

theorem Pays.outcome (hl : p.Ledger) (h0 : p.market.settlementFactorWad ≠ 0) (h : p.Pays l x scaled payout p') :
    ∃ q q', Outcome l x p q q' scaled payout p' := by
  cases h with
  | @mk q n pay t hposition hbalance hle hamounts hpay htracks htotal hpayout =>
    have hb := hl.exitBalanced h0 hposition htracks
    refine ⟨q, { t.position with scaledBalance := t.position.scaledBalance - x.units q.scaledBalance }, ?_⟩
    constructor
    case position => exact hposition
    case units => rfl
    case minimum => exact hpay.trans htracks.le_payout
    case account => exact hl.exit_account h0 hposition hle hamounts htracks
    case address => rw [hb.position]; exact ⟨rfl, rfl⟩
    case market => dsimp only; rw [hb.market]
    case haircutState => exact hb.haircutState
    case owed => exact hb.owed
    case weight => exact hb.weight
    case offset => exact hb.offset
    case positions => rfl
    case clock => rfl
    case vault => rfl
    case payout_le => exact hpayout

namespace Outcome

/-- An exit of as many units in a pool with the same factors and the same position. -/
theorem position_eq (h : Outcome l x p q q' scaled payout p') (h₁ : Outcome l y p₁ q₁ q₁' scaled' payout' p₂)
    (hunits : ∀ balance, y.units balance = x.units balance) (hq : p₁.positions.lookup l = p.positions.lookup l)
    (hscale : p₁.market.scaleFactor = p.market.scaleFactor)
    (hfactor : p₁.market.settlementFactorWad = p.market.settlementFactorWad) :
    q₁ = q ∧ scaled' = scaled ∧ payout' = payout ∧ q₁' = q' := by
  obtain rfl : q₁ = q := Option.some.inj (h₁.position.symm.trans (hq.trans h.position))
  obtain rfl : scaled' = scaled := h₁.units.trans ((hunits _).trans h.units.symm)
  have haccount := h₁.account
  rw [hscale, hfactor] at haccount
  obtain ⟨hpayout, hc⟩ := haccount.exit_unique h.account
  exact ⟨rfl, rfl, hpayout, LenderPosition.eq_of_account hc (h₁.address.1.trans h.address.1.symm)
    (h₁.address.2.trans h.address.2.symm)⟩

theorem scaleFactor (h : Outcome l x p q q' scaled payout p') : p'.market.scaleFactor = p.market.scaleFactor := by
  rw [h.market]

theorem factor (h : Outcome l x p q q' scaled payout p') :
    p'.market.settlementFactorWad = p.market.settlementFactorWad := by rw [h.market]

theorem lookup_ne (h : Outcome l x p q q' scaled payout p') (hne : k ≠ l) :
    p'.positions.lookup k = p.positions.lookup k := by rw [h.positions, Finmap.lookup_insert_of_ne _ hne]

end Outcome

private theorem deposited_comm (x y : Exit) (d payout payout' : ℕ) :
    y.deposited (x.deposited d payout) payout' = x.deposited (y.deposited d payout') payout := by
  cases x <;> cases y <;> simp only [Exit.deposited]
  exact Nat.sub_right_comm _ _ _

/-- The books add up in either order. -/
theorem Outcome.comm {r r' : LenderPosition} (hne : l ≠ k) (hA : Outcome l x p q q' scaled payout p₁)
    (hB : Outcome k y p₁ r r' scaled' payout' p₂) (hB' : Outcome k y p r r' scaled' payout' p₁')
    (hA' : Outcome l x p₁' q q' scaled payout p₂') : p₂ = p₂' := by
  have howed := hA.owed
  have howed' := hB.owed
  have howed₁ := hB'.owed
  have howed₁' := hA'.owed
  apply eq_of_parts
  · rw [hB.market, hA.market, hA'.market, hB'.market]
    simp only [Market.mk.injEq, true_and]
    exact ⟨Nat.sub_right_comm _ _ _, deposited_comm x y _ _ _, by omega⟩
  · have hweight := hA.weight
    have hweight' := hB.weight
    have hweight₁ := hB'.weight
    have hweight₁' := hA'.weight
    have hoffset := hA.offset
    have hoffset' := hB.offset
    have hoffset₁ := hB'.offset
    have hoffset₁' := hA'.offset
    refine HaircutState.eq_of_parts ?_ (by omega) (by omega)
    rw [hB.haircutState, hA.haircutState, hA'.haircutState, hB'.haircutState]
  · rw [hB.positions, hA.positions, hA'.positions, hB'.positions, Finmap.insert_insert_of_ne _ hne]
  · rw [hB.clock, hA.clock, hA'.clock, hB'.clock]
  · rw [hB.vault, hA.vault, hA'.vault, hB'.vault]
    exact Nat.sub_right_comm _ _ _

/-! ### Settlement -/

theorem Settles.unique {clock : ℤ} {vault : ℕ} {m m₁ m₂ : Market} (h₁ : Settles clock vault m m₁)
    (h₂ : Settles clock vault m m₂) : m₁ = m₂ := by
  rcases h₁ with ⟨hne, rfl⟩ | ⟨h0, -, total, factor, htotal, hfactor, rfl⟩ <;>
    rcases h₂ with ⟨hne', rfl⟩ | ⟨h0', -, total', factor', htotal', hfactor', rfl⟩
  · rfl
  · exact absurd h0' hne
  · exact absurd h0 hne'
  · obtain rfl := Except.ok.inj (htotal.symm.trans htotal')
    obtain rfl := Except.ok.inj (hfactor.symm.trans hfactor')
    rfl

section Exits

variable {config config' : ProtocolConfig}

theorem Exits.position (h : p.Exits config l x scaled payout p') : ∃ q, p.positions.lookup l = some q := by
  obtain ⟨_, _, _, hpays⟩ := h
  cases hpays with
  | mk hposition => exact ⟨_, hposition⟩

/-- A settled pool only pays. -/
theorem Exits.pays (hl : p.Ledger) (h0 : p.market.settlementFactorWad ≠ 0)
    (h : p.Exits config l x scaled payout p') : p.Pays l x scaled payout p' := by
  cases h with
  | mk hmatured haccrue hsettles hpays =>
    obtain rfl := hl.accrue_settled haccrue h0
    rcases hsettles with ⟨-, rfl⟩ | ⟨h0', -⟩
    · exact hpays
    · exact absurd h0' h0

/-- The market that two exits from one pool have settled is the same. -/
theorem Exits.settled (hl : p.Ledger) (h : p.Exits config l x scaled payout p')
    (h₁ : p.Exits config k y scaled' payout' p₁) :
    ∃ m, ({ p with market := m } : Pool).Ledger ∧ m.settlementFactorWad ≠ 0 ∧
      m.totalDeposited = p.market.totalDeposited ∧
      ({ p with market := m } : Pool).Pays l x scaled payout p' ∧
      ({ p with market := m } : Pool).Pays k y scaled' payout' p₁ := by
  cases h with
  | mk hmatured haccrue hsettles hpays =>
    cases h₁ with
    | mk _ haccrue' hsettles' hpays' =>
      obtain rfl := Except.ok.inj (haccrue.symm.trans haccrue')
      obtain rfl := hsettles.unique hsettles'
      refine ⟨_, hl.settleExit hmatured haccrue hsettles, hsettles.ne_zero, ?_, hpays, hpays'⟩
      obtain ⟨_, _, rfl, -⟩ := accrueInterest_ok haccrue
      rw [hsettles.shape]

/-- After an exit the pool is settled, at the factor at which the exit was paid. -/
theorem Exits.comm {config₁ config₁' : ProtocolConfig} {s₁ s₁' : ℕ} {pay₁ pay₁' : ℕ} (hl : p.Ledger) (hne : l ≠ k)
    (hA : p.Exits config l x scaled payout p₁) (hB : p₁.Exits config₁ k y s₁ pay₁ p₂)
    (hB' : p.Exits config k y scaled' payout' p₁') (hA' : p₁'.Exits config₁' l x s₁' pay₁' p₂') :
    payout = pay₁' ∧ pay₁ = payout' ∧ p₂ = p₂' := by
  have hl₁ := (hA.step (a := .key 0)).ledger hl
  have hl₁' := (hB'.step (a := .key 0)).ledger hl
  obtain ⟨m, hm, h0, -, hA, hB'⟩ := hA.settled hl hB'
  obtain ⟨q, q', oA⟩ := hA.outcome hm h0
  obtain ⟨r, r', oB'⟩ := hB'.outcome hm h0
  have h₁ : p₁.market.settlementFactorWad ≠ 0 := oA.factor ▸ h0
  have h₁' : p₁'.market.settlementFactorWad ≠ 0 := oB'.factor ▸ h0
  obtain ⟨r₁, r₁', oB⟩ := (hB.pays hl₁ h₁).outcome hl₁ h₁
  obtain ⟨q₁, q₁', oA'⟩ := (hA'.pays hl₁' h₁').outcome hl₁' h₁'
  obtain ⟨rfl, rfl, rfl, rfl⟩ := oB'.position_eq oB (fun _ => rfl) (oA.lookup_ne hne.symm) oA.scaleFactor oA.factor
  obtain ⟨rfl, rfl, rfl, rfl⟩ := oA.position_eq oA' (fun _ => rfl) (oB'.lookup_ne hne) oB'.scaleFactor oB'.factor
  exact ⟨rfl, rfl, oA.comm hne oB oB' oA'⟩

end Exits

end Pool

/-! ### Exits as instructions -/

/-- The instruction data that asks for an exit; the smallest payout that a withdrawal accepts is left open. -/
def Exit.Asked : Exit → (data : List UInt8) → Prop
  | withdraw scaled, data => ∃ rest, data = 7 :: rest ∧ u128At rest 0 = scaled
  | forceClose, data => ∃ rest, data = 18 :: rest

/-- An instruction that exits the position of `l` in the market `a` and pays `payout`. -/
def ExitStep (w : World) (a l : Address) (x : Exit) (payout : ℕ) (w' : World) : Prop :=
  ∃ accounts data scaled, (∀ y ∈ accounts, y.isSigner → y.address.isKey) ∧ x.Asked data ∧
    processInstruction w accounts data = .ok (w', x.event a l payout scaled)

variable {w w₁ w₂ w₁' w₂' : World} {a l k : Address} {x y : Exit} {payout payout' pay pay' : ℕ}

theorem ExitStep.exits (hw : WellFormed w) (h : ExitStep w a l x payout w₁) :
    ∃ scaled, w.Exits a l x scaled payout w₁ := by
  obtain ⟨accounts, data, scaled, hsign, hasked, hok⟩ := h
  cases x with
  | withdraw n =>
    obtain ⟨rest, rfl, rfl⟩ := hasked
    obtain ⟨b, k, scaled', payout', he, hexits, -⟩ := withdraw_exits hw hsign
      (show withdraw w accounts rest = .ok (w₁, .withdraw a l payout scaled) from hok)
    obtain ⟨rfl, rfl, rfl, rfl⟩ := Event.withdraw.inj he
    exact ⟨_, hexits⟩
  | forceClose =>
    obtain ⟨rest, rfl⟩ := hasked
    obtain ⟨b, k, scaled', payout', he, hexits, -⟩ := forceClosePosition_exits hw
      (show forceClosePosition w accounts = .ok (w₁, .forceClose a l payout scaled) from hok)
    obtain ⟨rfl, rfl, rfl, rfl⟩ := Event.forceClose.inj he
    exact ⟨_, hexits⟩

theorem ExitStep.step (h : ExitStep w a l x payout w₁) : ∃ scaled, Step w (some (x.event a l payout scaled)) w₁ := by
  obtain ⟨accounts, data, scaled, hsign, -, hok⟩ := h
  exact ⟨scaled, .instruction hsign hok⟩

/-- The units that an exit takes out of the position. -/
theorem World.Exits.units {scaled : ℕ} (h : w.Exits a l x scaled payout w₁) :
    scaled = x.units (w.units a l) ∧ w₁.units a l + scaled = w.units a l := by
  obtain ⟨config, p, p', -, hmoves, _, _, hsettles, hpays⟩ := h
  rw [World.units_of_pool hmoves.pre, World.units_of_pool hmoves.post]
  cases hpays with
  | @mk q n pay t hposition _ hle _ _ htracks =>
    have hbalance : t.position.scaledBalance = q.scaledBalance := by rw [htracks.shape.position]
    rw [accountOf_lookup hposition, accountOf_insert, if_pos rfl]
    refine ⟨rfl, ?_⟩
    show t.position.scaledBalance - x.units q.scaledBalance + x.units q.scaledBalance = q.scaledBalance
    rw [hbalance, Nat.sub_add_cancel hle]

/-- An exit pays tokens of the vault to an account of the lender. -/
theorem ExitStep.paid (hw : WellFormed w) (h : ExitStep w a l x payout w₁) : w.PaidFrom w₁ a l payout := by
  obtain ⟨scaled, config, p, p', -, hmoves, hexits⟩ := h.exits hw
  obtain ⟨accounts, data, _, -, -, hok⟩ := h
  obtain ⟨hma, -, -⟩ := World.pool_eq_some.1 hmoves.pre
  obtain ⟨q, hq⟩ := hexits.position
  exact ((processInstruction_authorized hw hok).exit_pays Exit.event_isExit).paidFrom hw
    ((hw.placed a _ hma).positions l q hq).2.2

/-- Exits of different lenders commute: in both orders both lenders are paid the same, and the accounts of the market
and the vault end the same. -/
theorem exits_commute (h : Reachable w) (hne : l ≠ k) (hA : ExitStep w a l x payout w₁)
    (hB : ExitStep w₁ a k y pay w₂) (hB' : ExitStep w a k y pay' w₁') (hA' : ExitStep w₁' a l x payout' w₂') :
    payout = payout' ∧ pay = pay' ∧ (w.PaidFrom w₁ a l payout ∧ w₁.PaidFrom w₂ a k pay) ∧
      (w.PaidFrom w₁' a k pay' ∧ w₁'.PaidFrom w₂' a l payout') ∧ w₂.markets.lookup a = w₂'.markets.lookup a ∧
      w₂.tokens.amount (.vault a) = w₂'.tokens.amount (.vault a) := by
  have hw := Reachable.wellFormed h
  obtain ⟨s, hsA⟩ := hA.step
  obtain ⟨s', hsB'⟩ := hB'.step
  have hpaid := And.intro (hA.paid hw) (hB.paid (hw.step hsA))
  have hpaid' := And.intro (hB'.paid hw) (hA'.paid (hw.step hsB'))
  obtain ⟨_, config, p, p₁, hconfig, mA, eA⟩ := hA.exits hw
  obtain ⟨_, _, q₁, p₂, -, mB, eB⟩ := hB.exits (hw.step hsA)
  obtain ⟨_, config', p', p₁', hconfig', mB', eB'⟩ := hB'.exits hw
  obtain ⟨_, _, q₁', p₂', -, mA', eA'⟩ := hA'.exits (hw.step hsB')
  obtain rfl := Option.some.inj (hconfig.symm.trans hconfig')
  obtain rfl := Option.some.inj (mA.pre.symm.trans mB'.pre)
  obtain rfl := Option.some.inj (mA.post.symm.trans mB.pre)
  obtain rfl := Option.some.inj (mB'.post.symm.trans mA'.pre)
  obtain ⟨rfl, rfl, rfl⟩ := eA.comm (Reachable.ledger h mA.pre) hne eB eB' eA'
  obtain ⟨hma, -, hvault⟩ := World.pool_eq_some.1 mB.post
  obtain ⟨hma', -, hvault'⟩ := World.pool_eq_some.1 mA'.post
  exact ⟨rfl, rfl, hpaid, hpaid', hma.trans hma'.symm, hvault.symm.trans hvault'⟩

theorem ExitStep.of_perform {accounts : List AccountMeta} {data : List UInt8} (scaled : ℕ) (hasked : x.Asked data)
    (h : (w.perform (.instruction accounts data)).map Prod.snd = some (some (x.event a l payout scaled))) :
    ExitStep w a l x payout (w.performAll [.instruction accounts data]) := by
  obtain ⟨⟨w', e⟩, hr, rfl⟩ := Option.map_eq_some_iff.1 h
  have hpost : w.performAll [.instruction accounts data] = w' := by simp [World.performAll, hr]
  simp only [World.perform] at hr
  split at hr
  · rename_i hsign
    split at hr
    · rename_i w'' event hok
      obtain ⟨rfl, hevent⟩ := Prod.mk.inj (Option.some.inj hr)
      rw [hpost]
      exact ⟨accounts, data, scaled, hsign, hasked, by rw [hok, Option.some.inj hevent]⟩
    · cases hr
  · cases hr

namespace Sample

def forceClose (lender : Address) : Action :=
  .instruction (forceClosePositionAccounts market borrower lender (wallet lender)) [18]

theorem withdraw_exit (scaled : ℕ) {n : ℕ} (hn : u128At (leBytes 16 n ++ leBytes 8 0) 0 = n)
    (h : (w.perform (withdraw l n)).map Prod.snd = some (some (.withdraw market l payout scaled))) :
    ExitStep w market l (.withdraw n) payout (w.performAll [withdraw l n]) := .of_perform scaled ⟨_, rfl, hn⟩ h

theorem forceClose_exit (scaled : ℕ)
    (h : (w.perform (forceClose l)).map Prod.snd = some (some (.forceClose market l payout scaled))) :
    ExitStep w market l .forceClose payout (w.performAll [forceClose l]) := .of_perform scaled ⟨[], rfl⟩ h

/-- Alice takes 2 of her units out, then the borrower closes the position of Bob. -/
def aliceFirst : World :=
  ((genesis.performAll defaulted).performAll [withdraw alice 2]).performAll [forceClose bob]

def bobFirst : World :=
  ((genesis.performAll defaulted).performAll [forceClose bob]).performAll [withdraw alice 2]

end Sample

/-- Whoever is first settles the market at one half. -/
theorem exits_commute_defaulted :
    ((Sample.genesis.performAll Sample.defaulted).performAll [Sample.withdraw Sample.alice 2]).PaidFrom
        Sample.aliceFirst Sample.market Sample.bob 5 ∧
      Sample.aliceFirst.markets.lookup Sample.market = Sample.bobFirst.markets.lookup Sample.market ∧
      Sample.aliceFirst.tokens.amount (.vault Sample.market) =
        Sample.bobFirst.tokens.amount (.vault Sample.market) := by
  have hA : ExitStep (Sample.genesis.performAll Sample.defaulted) Sample.market Sample.alice (.withdraw 2) 1 _ :=
    Sample.withdraw_exit 2 (by decide) (by decide +kernel)
  have hB : ExitStep _ Sample.market Sample.bob .forceClose 5 Sample.aliceFirst :=
    Sample.forceClose_exit 10 (by decide +kernel)
  have hB' : ExitStep (Sample.genesis.performAll Sample.defaulted) Sample.market Sample.bob .forceClose 5 _ :=
    Sample.forceClose_exit 10 (by decide +kernel)
  have hA' : ExitStep _ Sample.market Sample.alice (.withdraw 2) 1 Sample.bobFirst :=
    Sample.withdraw_exit 2 (by decide) (by decide +kernel)
  obtain ⟨-, -, ⟨-, hpaid⟩, -, hmarket, hvault⟩ := exits_commute
    (World.performAll_reachable Sample.genesis_reachable _) (by decide) hA hB hB' hA'
  exact ⟨hpaid, hmarket, hvault⟩

/-! ### Forced and voluntary handlers -/

/-- The accounts of a market apart from the record of the deposits. -/
def MarketAccounts.exceptDeposits (ma : MarketAccounts) : MarketAccounts :=
  { ma with market := { ma.market with totalDeposited := 0 } }

theorem MarketAccounts.eq_of_exceptDeposits {ma ma' : MarketAccounts} (h : ma.exceptDeposits = ma'.exceptDeposits)
    (hdeposited : ma.market.totalDeposited = ma'.market.totalDeposited) : ma = ma' := by
  obtain ⟨⟨_⟩, _, _⟩ := ma
  obtain ⟨⟨_⟩, _, _⟩ := ma'
  simp_all [MarketAccounts.exceptDeposits]

namespace Pool

variable {p p₁ p₂ : Pool} {l : Address} {scaled scaled' : ℕ} {config : ProtocolConfig}

theorem exceptDeposits_eq (hmarket : { p₁.market with totalDeposited := 0 } = { p₂.market with totalDeposited := 0 })
    (hhaircut : p₁.haircutState = p₂.haircutState) (hpositions : p₁.positions = p₂.positions) :
    p₁.exceptDeposits = p₂.exceptDeposits := by
  unfold MarketAccounts.exceptDeposits
  rw [hmarket, hhaircut, hpositions]

namespace Outcome

variable {q q' : LenderPosition}

/-- Two outcomes for one position differ at most in the record of the deposits. -/
theorem exceptDeposits_eq (h₁ : Outcome l x p q q' scaled payout p₁) (h₂ : Outcome l y p q q' scaled payout p₂) :
    p₁.exceptDeposits = p₂.exceptDeposits := by
  have howed := h₁.owed
  have hweight := h₁.weight
  have hoffset := h₁.offset
  have howed' := h₂.owed
  have hweight' := h₂.weight
  have hoffset' := h₂.offset
  apply Pool.exceptDeposits_eq
  · rw [h₁.market, h₂.market]
    simp only [Market.mk.injEq, true_and]
    omega
  · exact HaircutState.eq_of_parts (h₁.haircutState.trans h₂.haircutState.symm) (by omega) (by omega)
  · rw [h₁.positions, h₂.positions]

end Outcome

/-- Closing a position by force differs from withdrawing all of it in the record of the deposits. -/
theorem Exits.forced (hl : p.Ledger) (hv : p.Exits config l (.withdraw 0) scaled payout p₁)
    (hf : p.Exits config l .forceClose scaled' payout' p₂) :
    payout = payout' ∧ p₁.vault = p₂.vault ∧ p₁.exceptDeposits = p₂.exceptDeposits ∧
      (p₁.toMarketAccounts = p₂.toMarketAccounts ↔ p.market.totalDeposited = 0) := by
  obtain ⟨m, hm, h0, hdeposited, hv, hf⟩ := hv.settled hl hf
  obtain ⟨q, q', ov⟩ := hv.outcome hm h0
  obtain ⟨_, _, of⟩ := hf.outcome hm h0
  obtain ⟨rfl, rfl, rfl, rfl⟩ := ov.position_eq of (fun _ => rfl) rfl rfl rfl
  have hexcept := ov.exceptDeposits_eq of
  refine ⟨rfl, by rw [ov.vault, of.vault], hexcept, ?_⟩
  have hpaid : 0 < payout' := ov.minimum
  have hv : p₁.market.totalDeposited = p.market.totalDeposited - payout' := by
    rw [ov.market, ← hdeposited]
    rfl
  have hf : p₂.market.totalDeposited = p.market.totalDeposited := by
    rw [of.market, ← hdeposited]
    rfl
  constructor
  · intro heq
    have : p₁.market.totalDeposited = p₂.market.totalDeposited := congrArg (·.market.totalDeposited) heq
    omega
  · intro hzero
    exact MarketAccounts.eq_of_exceptDeposits hexcept (by omega)

end Pool

namespace Pool

variable {p p₁ p₂ : Pool} {e e' : Event} {claimed claimed' remaining remaining' : ℕ}

/-- The claim that a step is. -/
theorem Step.of_isClaim (h : Step a p (some e) p₁) (he : e.IsClaim a l claimed remaining) :
    ∃ q exact t, p.market.settlementFactorWad ≠ 0 ∧ p.positions.lookup l = some q ∧
      claimableNow p.market q = .ok exact ∧ capAtSurplus p.market p.vault exact = .ok claimed ∧
      recordClaim p.market q p.haircutState claimed = .ok t ∧ claimed ≤ p.vault ∧ remaining = t.position.haircutOwed ∧
      p₁ = { p with
        market := t.market
        haircutState := t.haircutState
        positions := p.positions.insert l t.position
        vault := p.vault - claimed } := by
  cases h with
  | idle hidle => rcases he with rfl | rfl <;> exact absurd rfl hidle
  | exit _ _ _ _ _ _ _ _ _ _ hexit => rcases he with rfl | rfl <;> rcases hexit with hexit | hexit <;> cases hexit
  | claim hsettled hposition hexact hcap hrecord hpayout hclaim =>
    rcases he with rfl | rfl <;> rcases hclaim with hclaim | hclaim <;> cases hclaim <;>
      exact ⟨_, _, _, hsettled, hposition, hexact, hcap, hrecord, hpayout, rfl, rfl⟩
  | _ => rcases he with he | he <;> cases he

/-- A claim is determined by the pool, whoever makes it. -/
theorem Step.claim_unique (h₁ : Step a p (some e) p₁) (he : e.IsClaim a l claimed remaining)
    (h₂ : Step a p (some e') p₂) (he' : e'.IsClaim a l claimed' remaining') :
    claimed = claimed' ∧ remaining = remaining' ∧ p₁ = p₂ := by
  obtain ⟨q, exact, t, -, hq, hexact, hcap, hrecord, -, rfl, rfl⟩ := h₁.of_isClaim he
  obtain ⟨q', exact', t', -, hq', hexact', hcap', hrecord', -, rfl, rfl⟩ := h₂.of_isClaim he'
  obtain rfl := Option.some.inj (hq.symm.trans hq')
  obtain rfl := Except.ok.inj (hexact.symm.trans hexact')
  obtain rfl := Except.ok.inj (hcap.symm.trans hcap')
  obtain rfl := Except.ok.inj (hrecord.symm.trans hrecord')
  exact ⟨rfl, rfl, rfl⟩

end Pool

/-- The forced exit pays what the voluntary one pays and leaves the same accounts but for `totalDeposited`, which only
`withdraw` reduces; the two claims agree in everything. -/
theorem forced_agrees_iff {ma : MarketAccounts} (h : Reachable w) (hma : w.markets.lookup a = some ma) :
    (∀ l payout payout' w₁ w₂, ExitStep w a l (.withdraw 0) payout w₁ → ExitStep w a l .forceClose payout' w₂ →
      payout = payout' ∧ w₁.tokens.amount (.vault a) = w₂.tokens.amount (.vault a) ∧
        (w₁.markets.lookup a).map MarketAccounts.exceptDeposits =
          (w₂.markets.lookup a).map MarketAccounts.exceptDeposits ∧
        (w₁.markets.lookup a = w₂.markets.lookup a ↔ ma.market.totalDeposited = 0)) ∧
    ∀ l claimed claimed' remaining remaining' w₁ w₂, Step w (some (.claimHaircut a l claimed remaining)) w₁ →
      Step w (some (.forceClaimHaircut a l claimed' remaining')) w₂ →
      claimed = claimed' ∧ remaining = remaining' ∧ w₁.markets.lookup a = w₂.markets.lookup a ∧
        w₁.tokens.amount (.vault a) = w₂.tokens.amount (.vault a) := by
  have hw := Reachable.wellFormed h
  constructor
  · intro l payout payout' w₁ w₂ hv hf
    obtain ⟨_, config, p, p₁, hconfig, mv, ev⟩ := hv.exits hw
    obtain ⟨_, config', p', p₂, hconfig', mf, ef⟩ := hf.exits hw
    obtain rfl := Option.some.inj (hconfig.symm.trans hconfig')
    obtain rfl := Option.some.inj (mv.pre.symm.trans mf.pre)
    obtain ⟨hpaid, hvault, hexcept, hiff⟩ := ev.forced (Reachable.ledger h mv.pre) ef
    obtain ⟨hma₁, -, hvault₁⟩ := World.pool_eq_some.1 mv.post
    obtain ⟨hma₂, -, hvault₂⟩ := World.pool_eq_some.1 mf.post
    obtain rfl : p.toMarketAccounts = ma := Option.some.inj ((World.pool_eq_some.1 mv.pre).1.symm.trans hma)
    rw [hma₁, hma₂, ← hvault₁, ← hvault₂]
    exact ⟨hpaid, hvault, congrArg some hexcept, by rw [Option.some.injEq, hiff]⟩
  · intro l claimed claimed' remaining remaining' w₁ w₂ hv hf
    obtain ⟨p₁, hp₁, sv⟩ := hv.pool hw (World.pool_of_lookup hma)
    obtain ⟨p₂, hp₂, sf⟩ := hf.pool hw (World.pool_of_lookup hma)
    obtain ⟨rfl, rfl, rfl⟩ := sv.claim_unique (.inl rfl) sf (.inr rfl)
    obtain ⟨hma₁, -, hvault₁⟩ := World.pool_eq_some.1 hp₁
    obtain ⟨hma₂, -, hvault₂⟩ := World.pool_eq_some.1 hp₂
    exact ⟨rfl, rfl, hma₁.trans hma₂.symm, hvault₁.symm.trans hvault₂⟩

namespace Sample

/-- The deposits double in a year, so that Bob takes out more than both lenders have deposited. -/
def drained : List Action :=
  [configure, whitelist, createWith 10000 31536000, deposit alice 6, deposit bob 10, repayInterest 100,
    .clock 31536300, withdraw bob 0]

end Sample

theorem forced_agrees_iff_drained :
    ((Sample.genesis.performAll Sample.drained).performAll [Sample.withdraw Sample.alice 0]).markets.lookup
        Sample.market =
      ((Sample.genesis.performAll Sample.drained).performAll [Sample.forceClose Sample.alice]).markets.lookup
        Sample.market := by
  obtain ⟨ma, hma, hx⟩ := Option.map_eq_some_iff.1
    (show ((Sample.genesis.performAll Sample.drained).markets.lookup Sample.market).map
      (fun ma => ma.market.totalDeposited) = some 0 by decide +kernel)
  have hv : ExitStep (Sample.genesis.performAll Sample.drained) Sample.market Sample.alice (.withdraw 0) 16 _ :=
    Sample.withdraw_exit 6 (by decide) (by decide +kernel)
  have hf : ExitStep (Sample.genesis.performAll Sample.drained) Sample.market Sample.alice .forceClose 16 _ :=
    Sample.forceClose_exit 6 (by decide +kernel)
  obtain ⟨-, -, -, hiff⟩ :=
    (forced_agrees_iff (World.performAll_reachable Sample.genesis_reachable _) hma).1 _ _ _ _ _ hv hf
  exact hiff.2 hx

/-- Alice gets 3 either way, but only `withdraw` takes them off the deposits. -/
theorem forced_differs_defaulted :
    ∃ w₁ w₂, ExitStep (Sample.genesis.performAll Sample.defaulted) Sample.market Sample.alice (.withdraw 0) 3 w₁ ∧
      ExitStep (Sample.genesis.performAll Sample.defaulted) Sample.market Sample.alice .forceClose 3 w₂ ∧
      (w₁.markets.lookup Sample.market).map (·.market.totalDeposited) = some 13 ∧
      (w₂.markets.lookup Sample.market).map (·.market.totalDeposited) = some 16 ∧
      w₁.markets.lookup Sample.market ≠ w₂.markets.lookup Sample.market := by
  have h₁ : (((Sample.genesis.performAll Sample.defaulted).performAll
      [Sample.withdraw Sample.alice 0]).markets.lookup Sample.market).map (·.market.totalDeposited) = some 13 := by
    decide +kernel
  have h₂ : (((Sample.genesis.performAll Sample.defaulted).performAll
      [Sample.forceClose Sample.alice]).markets.lookup Sample.market).map (·.market.totalDeposited) = some 16 := by
    decide +kernel
  refine ⟨_, _, Sample.withdraw_exit 6 (by decide) (by decide +kernel),
    Sample.forceClose_exit 6 (by decide +kernel), h₁, h₂, ?_⟩
  intro heq
  have := h₁.symm.trans ((congrArg (Option.map (·.market.totalDeposited)) heq).trans h₂)
  exact absurd this (by decide)

end Coalesce
