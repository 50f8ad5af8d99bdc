import Coalesce.Refinement

/-!
# The debt of a borrower

The principal that a borrower owes is kept twice: every market keeps what was borrowed, repaid, and repaid as
interest, and the whitelist entry of the borrower counts it over all of its markets.  `Debts` says that the two
agree (`Reachable.debts`).
-/

namespace Coalesce

open LendingError

/-! ### The principal of a market -/

/-- The principal that is still out. -/
def Market.debt (m : Market) : ℕ := m.totalBorrowed - (m.totalRepaid - m.totalInterestRepaid)

/-- No more interest was paid than was paid at all, and no more principal than was borrowed. -/
structure Market.Owing (m : Market) : Prop where
  interest : m.totalInterestRepaid ≤ m.totalRepaid
  principal : m.totalRepaid - m.totalInterestRepaid ≤ m.totalBorrowed

theorem marketOutstanding_eq_ok {m : Market} {n : ℕ} : marketOutstanding m = .ok n ↔ m.Owing ∧ m.debt = n := by
  simp only [marketOutstanding, bind_eq_ok, checkedSub_eq_ok]
  constructor
  · rintro ⟨_, ⟨hinterest, rfl⟩, hprincipal, hn⟩
    exact ⟨⟨hinterest, hprincipal⟩, hn⟩
  · rintro ⟨⟨hinterest, hprincipal⟩, hn⟩
    exact ⟨_, ⟨hinterest, rfl⟩, hprincipal, hn⟩

/-- The principal that an event takes out of its market. -/
def Event.borrowed : Event → ℕ
  | borrow _ _ amount => amount
  | _ => 0

/-- The principal that an event brings back. -/
def Event.repaid : Event → ℕ
  | repay _ _ amount _ => amount
  | _ => 0

theorem Event.no_principal {e : Event} (h : ¬e.movesPrincipal) : e.borrowed = 0 ∧ e.repaid = 0 := by
  cases e with
  | borrow | repay => exact absurd rfl h
  | _ => exact ⟨rfl, rfl⟩

theorem Event.accrues_of_movesPrincipal {e : Event} (h : e.movesPrincipal) : e.accrues := by
  cases e with
  | borrow | repay => rfl
  | _ => cases h

section Pools

variable {a : Address} {p p' : Pool} {e : Event}

/-- An interest payment `n` counts as repaid and as interest, so it leaves the principal alone. -/
theorem Pool.Step.principal (h : Pool.Step a p (some e) p') (he : e.market = some a) :
    p'.market.totalBorrowed = p.market.totalBorrowed + e.borrowed ∧
      ∃ n, p'.market.totalRepaid = p.market.totalRepaid + e.repaid + n ∧
        p'.market.totalInterestRepaid = p.market.totalInterestRepaid + n := by
  cases h with
  | idle hidle => exact absurd he hidle
  | deposit _ _ haccrue | borrow _ haccrue | repay haccrue | reSettle _ haccrue | collectFees _ _ haccrue =>
    obtain ⟨_, _, rfl, -⟩ := accrueInterest_ok haccrue
    exact ⟨rfl, 0, rfl, rfl⟩
  | repayInterest haccrue =>
    obtain ⟨_, _, rfl, -⟩ := accrueInterest_ok haccrue
    exact ⟨rfl, _, rfl, rfl⟩
  | exit _ haccrue hsettles _ _ _ _ htracks _ _ hexit =>
    obtain ⟨_, _, rfl, -⟩ := accrueInterest_ok haccrue
    dsimp only
    rw [htracks.shape.market, hsettles.shape]
    rcases hexit with rfl | rfl <;> exact ⟨rfl, 0, rfl, rfl⟩
  | claim _ _ _ _ hrecord _ hclaim =>
    dsimp only
    rw [(recordClaim_shape hrecord).market]
    rcases hclaim with rfl | rfl <;> exact ⟨rfl, 0, rfl, rfl⟩
  | withdrawExcess | close => exact ⟨rfl, 0, rfl, rfl⟩

theorem Pool.Step.debt (h : Pool.Step a p (some e) p') (he : e.market = some a) (howing : p.market.Owing)
    (hrepaid : e.repaid ≤ p.market.debt) :
    p'.market.Owing ∧ p'.market.debt + e.repaid = p.market.debt + e.borrowed := by
  obtain ⟨hborrowed, n, hpaid, hinterest⟩ := h.principal he
  have h₁ := howing.interest
  have h₂ := howing.principal
  rw [Market.debt] at hrepaid
  refine ⟨⟨?_, ?_⟩, ?_⟩
  · omega
  · omega
  · rw [Market.debt, Market.debt]
    omega

theorem Pool.Fresh.owing (h : p.Fresh a) : p.market.Owing ∧ p.market.debt = 0 := by
  cases h with
  | mk => exact ⟨⟨le_rfl, Nat.zero_le _⟩, rfl⟩

end Pools

/-! ### The counter of a borrower -/

/-- What the borrower `b` owes to all of its markets. -/
def World.debt (w : World) (b : Address) : ℕ :=
  w.markets.total fun accounts => if accounts.market.borrower = b then accounts.market.debt else 0

/-- The whitelist entries count the principal of the markets. -/
structure Debts (w : World) : Prop where
  owing : ∀ a ma, w.markets.lookup a = some ma → ma.market.Owing
  listed : ∀ a ma, w.markets.lookup a = some ma → ∃ wl, w.whitelists.lookup ma.market.borrower = some wl
  counter : ∀ b wl, w.whitelists.lookup b = some wl → wl.currentBorrowed = w.debt b

theorem updatedWhitelist_none {b : Address} {f capacity : ℕ} {wl : BorrowerWhitelist}
    (h : updatedWhitelist none b f capacity = .ok wl) : wl.isWhitelisted = 1 ∧ wl.currentBorrowed = 0 := by
  simp only [updatedWhitelist] at h
  split at h
  · obtain rfl := Except.ok.inj h
    exact ⟨rfl, rfl⟩
  · cases h

theorem updatedWhitelist_some {old wl : BorrowerWhitelist} {b : Address} {f capacity : ℕ}
    (h : updatedWhitelist (some old) b f capacity = .ok wl) :
    ¬(f = 0 ∧ 0 < old.currentBorrowed) ∧ wl.isWhitelisted = f ∧ wl.currentBorrowed = old.currentBorrowed := by
  simp only [updatedWhitelist, bind_eq_ok, require_eq_ok, exists_const, Except.ok.injEq] at h
  obtain ⟨hguard, rfl⟩ := h
  exact ⟨hguard, rfl, rfl⟩

section Steps

variable {w w' : World} {a b : Address} {e : Event}

theorem Acts.insert (h : Acts w a e w') : ∃ p p', w.pool a = some p ∧ Pool.Step a p (some e) p' ∧
    w'.markets = w.markets.insert a p'.toMarketAccounts := by
  obtain ⟨p, p', hp, hp', hstep⟩ := h.pool
  exact ⟨p, p', hp, hstep, Finmap.eq_insert (World.pool_eq_some.1 hp').1 h.markets⟩

theorem Creates.insert (h : Creates w a e w') :
    ∃ p : Pool, p.Fresh a ∧ w'.markets = w.markets.insert a p.toMarketAccounts := by
  obtain ⟨p, hp, hfresh⟩ := h.pool
  exact ⟨p, hfresh, Finmap.eq_insert (World.pool_eq_some.1 hp).1 h.markets⟩

/-- The debt of the borrower of the market moves with the principal, the other debts stay. -/
theorem Acts.debt (h : Acts w a e w') {ma : MarketAccounts} (hma : w.markets.lookup a = some ma)
    (howing : ma.market.Owing) (hrepaid : e.repaid ≤ ma.market.debt) :
    ∃ ma', w'.markets = w.markets.insert a ma' ∧ ma'.market.Owing ∧ ma'.market.borrower = ma.market.borrower ∧
      w'.debt ma.market.borrower + e.repaid = w.debt ma.market.borrower + e.borrowed ∧
        ∀ b, b ≠ ma.market.borrower → w'.debt b = w.debt b := by
  obtain ⟨p, p', hp, hstep, hmarkets⟩ := h.insert
  obtain rfl : p.toMarketAccounts = ma := Option.some.inj ((World.pool_eq_some.1 hp).1.symm.trans hma)
  obtain ⟨howing', hdebt⟩ := hstep.debt h.event howing hrepaid
  have hborrower : p'.market.borrower = p.market.borrower := congrArg Prod.fst hstep.terms
  have htotal (b) := Finmap.total_insert (v := p'.toMarketAccounts) hma fun accounts : MarketAccounts =>
    if accounts.market.borrower = b then accounts.market.debt else 0
  refine ⟨_, hmarkets, howing', hborrower, ?_, ?_⟩
  · have := htotal p.market.borrower
    rw [if_pos rfl, if_pos hborrower] at this
    simp only [World.debt, hmarkets]
    omega
  · intro b hb
    have := htotal b
    rw [if_neg (Ne.symm hb), if_neg (hborrower ▸ Ne.symm hb)] at this
    simp only [World.debt, hmarkets]
    omega

theorem World.debt_eq_zero (h : ∀ a ma, w.markets.lookup a = some ma → ma.market.borrower ≠ b) : w.debt b = 0 := by
  apply Finmap.total_eq_zero
  intro a ma hma
  exact if_neg (h a ma hma)

namespace Debts

theorem frame (h : Debts w) (hmarkets : w'.markets = w.markets) (hwls : w'.whitelists = w.whitelists) : Debts w' := by
  refine ⟨?_, ?_, ?_⟩
  · rw [hmarkets]
    exact h.owing
  · rw [hmarkets, hwls]
    exact h.listed
  · intro b wl hwl
    rw [World.debt, hmarkets]
    exact h.counter b wl (hwls ▸ hwl)

/-- A market and the whitelist entry of its borrower move together. -/
theorem act (h : Debts w) (hacts : Acts w a e w') {ma : MarketAccounts} {wl wl' : BorrowerWhitelist}
    (hma : w.markets.lookup a = some ma) (hwl : w.whitelists.lookup ma.market.borrower = some wl)
    (hwls : w'.whitelists = w.whitelists.insert ma.market.borrower wl') (hrepaid : e.repaid ≤ ma.market.debt)
    (hcount : wl'.currentBorrowed + e.repaid = wl.currentBorrowed + e.borrowed) : Debts w' := by
  obtain ⟨ma', hmarkets, howing, hborrower, hdebt, hothers⟩ := hacts.debt hma (h.owing a ma hma) hrepaid
  refine ⟨?_, ?_, ?_⟩
  · intro c mc hc
    rw [hmarkets] at hc
    rcases Finmap.lookup_of_insert hc with ⟨-, rfl⟩ | hc
    · exact howing
    · exact h.owing c mc hc
  · intro c mc hc
    rw [hmarkets] at hc
    have hlisted : ∃ wc, w.whitelists.lookup mc.market.borrower = some wc := by
      rcases Finmap.lookup_of_insert hc with ⟨-, rfl⟩ | hc
      · exact ⟨wl, hborrower ▸ hwl⟩
      · exact h.listed c mc hc
    rw [hwls]
    exact Finmap.exists_lookup_insert hlisted
  · intro b wb hb
    rw [hwls] at hb
    by_cases hne : b = ma.market.borrower
    · subst hne
      rw [Finmap.lookup_insert, Option.some.injEq] at hb
      subst hb
      have := h.counter _ wl hwl
      omega
    · rw [Finmap.lookup_insert_of_ne _ hne] at hb
      rw [hothers b hne]
      exact h.counter b wb hb

/-- An instruction that moves no principal. -/
theorem act_of_not (h : Debts w) (hacts : Acts w a e w') (he : ¬e.movesPrincipal)
    (hwls : w'.whitelists = w.whitelists) : Debts w' := by
  obtain ⟨hborrowed, hrepaid⟩ := Event.no_principal he
  obtain ⟨p, -, hp, -⟩ := hacts.pool
  have hma := (World.pool_eq_some.1 hp).1
  obtain ⟨wl, hwl⟩ := h.listed a _ hma
  apply h.act hacts hma hwl
  · rw [hwls, Finmap.insert_lookup hwl]
  · rw [hrepaid]
    exact Nat.zero_le _
  · rw [hborrowed, hrepaid]

theorem borrow (h : Debts w) {n : ℕ} (hacts : Acts w a (.borrow a b n) w') (hborrows : Borrows w a b n w') :
    Debts w' := by
  obtain ⟨ma, hma, rfl⟩ := hborrows.borrower
  obtain ⟨wl, hwl, -, hwls⟩ := hborrows.whitelist
  exact h.act hacts hma hwl hwls (Nat.zero_le _) rfl

theorem repay (h : Debts w) {payer : Address} {n debt : ℕ} (hacts : Acts w a (.repay a payer n debt) w')
    (hrepays : Repays w a n w') : Debts w' := by
  obtain ⟨ma, outstanding, wl, hma, houtstanding, hle, hwl, hcount, hwls⟩ := hrepays.whitelist
  obtain ⟨-, rfl⟩ := marketOutstanding_eq_ok.1 houtstanding
  exact h.act hacts hma hwl hwls hle (Nat.sub_add_cancel hcount)

/-- A new market owes nothing. -/
theorem create (h : Debts w) (hcreates : Creates w a e w') {nonce : ℕ} (haddress : a = .market b nonce)
    {wl : BorrowerWhitelist} (hwls : w'.whitelists = w.whitelists) (hwl : w.whitelists.lookup b = some wl) :
    Debts w' := by
  obtain ⟨p, hfresh, hmarkets⟩ := hcreates.insert
  obtain ⟨howing, hdebt⟩ := hfresh.owing
  have hborrower : p.market.borrower = b := by
    cases hfresh with
    | mk _ haddress' => exact (Address.market.inj (haddress'.symm.trans haddress)).1
  refine ⟨?_, ?_, ?_⟩
  · intro c mc hc
    rw [hmarkets] at hc
    rcases Finmap.lookup_of_insert hc with ⟨-, rfl⟩ | hc
    · exact howing
    · exact h.owing c mc hc
  · intro c mc hc
    rw [hmarkets] at hc
    rw [hwls]
    rcases Finmap.lookup_of_insert hc with ⟨-, rfl⟩ | hc
    · exact ⟨wl, by rw [hborrower, hwl]⟩
    · exact h.listed c mc hc
  · intro b' wb hb
    rw [hwls] at hb
    rw [World.debt, hmarkets, Finmap.total_insert_new hcreates.none, hdebt, ite_self, Nat.add_zero]
    exact h.counter b' wb hb

/-- An update of a whitelist entry keeps its counter, and a new entry belongs to a borrower without markets. -/
theorem list (h : Debts w) {f : ℕ} (hmarkets : w'.markets = w.markets) (hlists : Lists w b f w') : Debts w' := by
  obtain ⟨capacity, wl, hwl, hwls⟩ := hlists.whitelist
  have hcount : wl.currentBorrowed = w.debt b := by
    cases hb : w.whitelists.lookup b with
    | none =>
      rw [(updatedWhitelist_none (hb ▸ hwl)).2]
      symm
      apply World.debt_eq_zero
      rintro a ma hma rfl
      obtain ⟨_, hlisted⟩ := h.listed a ma hma
      rw [hb] at hlisted
      cases hlisted
    | some old =>
      rw [(updatedWhitelist_some (hb ▸ hwl)).2.2]
      exact h.counter b old hb
  refine ⟨?_, ?_, ?_⟩
  · rw [hmarkets]
    exact h.owing
  · intro a ma hma
    rw [hmarkets] at hma
    rw [hwls]
    exact Finmap.exists_lookup_insert (h.listed a ma hma)
  · intro b' wb hb
    rw [World.debt, hmarkets]
    rw [hwls] at hb
    rcases Finmap.lookup_of_insert hb with ⟨rfl, rfl⟩ | hb
    · exact hcount
    · exact h.counter b' wb hb

theorem step (h : Debts w) (hw : WellFormed w) {e : Option Event} (hs : Step w e w') : Debts w' := by
  cases hs with
  | instruction hsign hok =>
    cases processInstruction_effect hw hsign hok with
    | leaves hl hwls => exact h.frame hl.markets hwls
    | lists hl hlists => exact h.list hl.markets hlists
    | creates hc haddress hwls hwl => exact h.create hc haddress hwls hwl
    | borrows ha hborrows => exact h.borrow ha.toActs hborrows
    | repays ha hrepays => exact h.repay ha.toActs hrepays
    | collects ha hwls => exact h.act_of_not ha.toActs Bool.false_ne_true hwls
    | accrues ha hwls _ _ hprincipal => exact h.act_of_not ha.toActs hprincipal hwls
    | acts ha hwls haccrues => exact h.act_of_not ha (fun hp => haccrues (Event.accrues_of_movesPrincipal hp)) hwls
  | clock | tokens | external => exact h.frame rfl rfl

end Debts

end Steps

theorem Reachable.debts {w : World} (h : Reachable w) : Debts w := by
  apply h.invariant
  · intro w hg
    refine ⟨?_, ?_, ?_⟩
    · simp [hg.markets]
    · simp [hg.markets]
    · simp [hg.whitelists]
  · intro _ _ _ hr hdebts hs
    exact hdebts.step (Reachable.wellFormed hr) hs

/-! ### Repayments -/

theorem marketOutstanding_error {m : Market} {e : ProgramError} (h : marketOutstanding m = .error e) :
    e = mathOverflow := by
  simp only [marketOutstanding, bind_eq_error, checkedSub_eq_error] at h
  rcases h with ⟨-, rfl⟩ | ⟨_, -, -, rfl⟩ <;> rfl

/-- A repayment that exceeds the debt fails one of two tests. -/
theorem repay_exceeds {w : World} {accounts : List AccountMeta} {data : List UInt8}
    (h : repay w accounts data = .error repaymentExceedsDebt) :
    ∃ market ma config m outstanding, accounts.head? = some market ∧ w.markets.lookup market.address = some ma ∧
      w.config = some config ∧ accrueInterest ma.market config w.clock = .ok m ∧
      marketOutstanding m = .ok outstanding ∧
      (outstanding < u64At data 0 ∨
        ∃ wl, w.whitelists.lookup m.borrower = some wl ∧ wl.currentBorrowed < u64At data 0) := by
  unfold repay at h
  split at h
  · simp only [bind_eq_error, require_eq_error, okOr_eq_error, loadTokenAccount, loadMarket, loadProtocolConfig,
      validateMarketState, requireTokenOwned, loadBorrowerWhitelist, checkedAdd, inRange_eq_error, checkedSub_eq_error,
      bind_eq_ok, require_eq_ok, okOr_eq_ok, Except.ok.injEq, ProgramError.custom.injEq, reduceCtorEq, and_false,
      and_true, false_or, or_false, exists_const, exists_false, not_le] at h
    obtain ⟨-, -, -, -, _, -, -, ma, ⟨-, _, hma, -, rfl⟩, -, -, -, config, ⟨-, hconfig⟩, -, h⟩ := h
    rcases h with h | ⟨m, haccrue, h | ⟨outstanding, houtstanding, h⟩⟩
    · rcases accrueInterest_error h with h | ⟨h, -⟩ <;> cases h
    · cases marketOutstanding_error h
    · refine ⟨_, _, config, m, outstanding, rfl, hma, hconfig, haccrue, houtstanding, ?_⟩
      rcases h with h | ⟨-, -, wl, ⟨-, hwl⟩, h | ⟨-, _, -, _, -, h⟩⟩
      · exact .inl h
      · exact .inr ⟨wl, hwl, h⟩
      · exact absurd h TokenLedger.transfer_error
  · cases h

section Repay

variable {w : World} {a : Address} {ma : MarketAccounts} {wl : BorrowerWhitelist}

/-- What a market is owed is part of what its borrower owes. -/
theorem Debts.debt_le (h : Debts w) (hma : w.markets.lookup a = some ma)
    (hwl : w.whitelists.lookup ma.market.borrower = some wl) : ma.market.debt ≤ wl.currentBorrowed := by
  rw [h.counter _ wl hwl]
  have hle := Finmap.le_total_nat hma fun accounts : MarketAccounts =>
    if accounts.market.borrower = ma.market.borrower then accounts.market.debt else 0
  rwa [if_pos rfl] at hle

/-- The outstanding principal of an accrued market is the debt before the accrual. -/
theorem Debts.outstanding (h : Debts w) (hma : w.markets.lookup a = some ma) {config : ProtocolConfig} {m : Market}
    (haccrue : accrueInterest ma.market config w.clock = .ok m) : marketOutstanding m = .ok ma.market.debt := by
  rw [marketOutstanding_accrued haccrue]
  exact marketOutstanding_eq_ok.2 ⟨h.owing a ma hma, rfl⟩

end Repay

/-- The counter of a borrower is the principal that its markets are owed.  So the subtractions of `repay` never fail,
and an amount that passes the test against the debt of the market passes the test against the counter. -/
theorem debts_agree {w : World} (h : Reachable w) :
    (∀ b wl, w.whitelists.lookup b = some wl → wl.currentBorrowed = w.debt b) ∧
      (∀ a ma, w.markets.lookup a = some ma → ma.market.Owing ∧
        ∃ wl, w.whitelists.lookup ma.market.borrower = some wl ∧
          ∀ config m, accrueInterest ma.market config w.clock = .ok m →
            ∃ outstanding, marketOutstanding m = .ok outstanding ∧
              ∀ amount, amount ≤ outstanding →
                amount ≤ wl.currentBorrowed ∧ ∃ rest, checkedSub wl.currentBorrowed amount = .ok rest) ∧
      ∀ accounts data, repay w accounts data = .error repaymentExceedsDebt →
        ∃ market ma config m outstanding, accounts.head? = some market ∧ w.markets.lookup market.address = some ma ∧
          w.config = some config ∧ accrueInterest ma.market config w.clock = .ok m ∧
          marketOutstanding m = .ok outstanding ∧ outstanding < u64At data 0 := by
  have hdebts := h.debts
  refine ⟨hdebts.counter, ?_, ?_⟩
  · intro a ma hma
    obtain ⟨wl, hwl⟩ := hdebts.listed a ma hma
    refine ⟨hdebts.owing a ma hma, wl, hwl, ?_⟩
    intro config m haccrue
    refine ⟨_, hdebts.outstanding hma haccrue, ?_⟩
    intro amount hamount
    have hle := hamount.trans (hdebts.debt_le hma hwl)
    exact ⟨hle, _, checkedSub_eq_ok.2 ⟨hle, rfl⟩⟩
  · intro accounts data hrepay
    obtain ⟨market, ma, config, m, outstanding, hhead, hma, hconfig, haccrue, houtstanding, htest⟩ :=
      repay_exceeds hrepay
    refine ⟨market, ma, config, m, outstanding, hhead, hma, hconfig, haccrue, houtstanding, ?_⟩
    rcases htest with hlt | ⟨wl, hwl, hlt⟩
    · exact hlt
    · have hborrower : m.borrower = ma.market.borrower := congrArg Prod.fst (accrueInterest_terms haccrue)
      rw [hborrower] at hwl
      obtain rfl := Except.ok.inj ((hdebts.outstanding hma haccrue).symm.trans houtstanding)
      exact (hdebts.debt_le hma hwl).trans_lt hlt

namespace Sample

/-- A second market of the borrower. -/
def market₂ : Address := .market borrower 1

def vault₂ : AccountMeta := account (.vault market₂)

def create₂ : Action :=
  .instruction [account market₂, signer borrower, account USDC_MINT, vault₂, account (.marketAuthority market₂), config,
    account (.borrowerWhitelist borrower), blacklist borrower, other, other, account (.haircutState market₂)]
    (2 :: leBytes 8 1 ++ leBytes 2 0 ++ leBytes 8 100 ++ leBytes 8 (2 * WAD))

def deposit₂ (lender : Address) (amount : ℕ) : Action :=
  .instruction [account market₂, signer lender, account (wallet lender), vault₂, account (.lender market₂ lender),
    blacklist lender, config, account USDC_MINT, account TOKEN_PROGRAM_ID, other] (3 :: leBytes 8 amount)

def borrow₂ (amount : ℕ) : Action :=
  .instruction [account market₂, signer borrower, account (wallet borrower), vault₂, account (.marketAuthority market₂),
    account (.borrowerWhitelist borrower), blacklist borrower, config, account TOKEN_PROGRAM_ID] (4 :: leBytes 8 amount)

/-- 8 and 3 are borrowed from two markets, and 2 of the 8 are repaid. -/
def lent : List Action :=
  [configure, whitelist, create, create₂, deposit alice 6, deposit bob 10, borrow 8, deposit₂ alice 5, borrow₂ 3,
    repay 2]

end Sample

theorem debts_agree_lent :
    (Sample.genesis.performAll Sample.lent).debt Sample.borrower = 9 ∧
      ∃ ma, (Sample.genesis.performAll Sample.lent).markets.lookup Sample.market₂ = some ma ∧ ma.market.debt = 3 ∧
        ma.market.Owing := by
  obtain ⟨wl, hwl, hcount⟩ := Option.map_eq_some_iff.1
    (show ((Sample.genesis.performAll Sample.lent).whitelists.lookup Sample.borrower).map
      BorrowerWhitelist.currentBorrowed = some 9 by decide +kernel)
  obtain ⟨ma, hma, hdebt⟩ := Option.map_eq_some_iff.1
    (show ((Sample.genesis.performAll Sample.lent).markets.lookup Sample.market₂).map (·.market.debt) = some 3 by
      decide +kernel)
  obtain ⟨hcounter, hmarkets, -⟩ := debts_agree (World.performAll_reachable Sample.genesis_reachable Sample.lent)
  exact ⟨(hcounter _ wl hwl).symm.trans hcount, ma, hma, hdebt, (hmarkets _ ma hma).1⟩

end Coalesce
