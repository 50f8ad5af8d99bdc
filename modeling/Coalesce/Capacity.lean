import Coalesce.Custody
import Coalesce.Ledger

/-!
# Caps

Two numbers bound what can go through a market: `maxTotalSupply` the deposits of its whole life, and the capacity on
the whitelist what the borrower owes at a time.
-/

namespace Coalesce

/-- The deposit that a step makes into the market `a`. -/
def depositAmount (a : Address) (x : Record) : ℕ :=
  match x.event with
  | some (.deposit b _ amount _) => if b = a then amount else 0
  | _ => 0

/-- All deposits of a run into the market `a`. -/
def deposited (a : Address) (hist : List Record) : ℕ := (hist.map (depositAmount a)).sum

section Deposits

variable {a : Address} {x : Record} {hist : List Record} {p p' : Pool}

theorem deposited_cons : deposited a (x :: hist) = depositAmount a x + deposited a hist := List.sum_cons

theorem depositAmount_of_ne (h : x.event.bind Event.market ≠ some a) : depositAmount a x = 0 := by
  unfold depositAmount
  split
  · rename_i h'
    rw [h'] at h
    exact if_neg fun e => h (congrArg some e)
  · rfl

theorem deposited_of_ne (h : ∀ x ∈ hist, x.event.bind Event.market ≠ some a) : deposited a hist = 0 := by
  induction hist with
  | nil => rfl
  | cons x hist ih =>
    rw [List.forall_mem_cons] at h
    rw [deposited_cons, depositAmount_of_ne h.1, ih h.2]

/-- The books of the deposits `n` into a market.  An exit can take its payout off `totalDeposited`. -/
structure Pool.Capped (p : Pool) (n : ℕ) : Prop where
  deposits : n ≤ p.market.maxTotalSupply
  supply : p.market.scaledTotalSupply ≤ n
  unsettled : p.market.settlementFactorWad = 0 → p.market.totalDeposited = n

theorem Pool.Fresh.capped (h : p.Fresh a) : p.Capped 0 := by
  cases h with
  | mk => exact ⟨Nat.zero_le _, le_rfl, fun _ => rfl⟩

/-- A unit is worth at least one token, so a deposit credits at most its amount. -/
theorem Pool.Capped.step {n : ℕ} (h : p.Capped n) (hl : p.Ledger) (hs : Pool.Step a p x.event p') :
    p'.Capped (depositAmount a x + n) := by
  obtain ⟨pre, e, post⟩ := x
  have hterms : p'.market.maxTotalSupply = p.market.maxTotalSupply := congrArg (fun t => t.2.2.2.2.2.1) hs.terms
  have hkeep (hzero : depositAmount a ⟨pre, e, post⟩ = 0)
      (hsupply : p'.market.scaledTotalSupply ≤ p.market.scaledTotalSupply)
      (hdeposited : p'.market.settlementFactorWad = 0 →
        p.market.settlementFactorWad = 0 ∧ p'.market.totalDeposited = p.market.totalDeposited) :
      p'.Capped (depositAmount a ⟨pre, e, post⟩ + n) := by
    rw [hzero, Nat.zero_add]
    refine ⟨hterms ▸ h.deposits, hsupply.trans h.supply, ?_⟩
    intro h0
    obtain ⟨h0', htotal⟩ := hdeposited h0
    exact htotal.trans (h.unsettled h0')
  cases hs with
  | idle he => exact hkeep (depositAmount_of_ne he) le_rfl fun h0 => ⟨h0, rfl⟩
  | @deposit _ m lender amount scaled _ _ htime haccrue hfactor hscaled hcap =>
    have h0 := hl.unsettled_of_lt htime
    obtain ⟨sf, _, rfl, hsf, -⟩ := accrueInterest_ok haccrue
    have hunits : scaled ≤ amount := by
      rw [hscaled]
      exact Nat.div_le_of_le_mul (by rw [Nat.mul_comm]; exact Nat.mul_le_mul_right _ (hl.wad_le.trans hsf))
    have hamount : depositAmount a ⟨pre, some (.deposit a lender amount scaled), post⟩ = amount := if_pos rfl
    have htotal := h.unsettled h0
    have hsupply := h.supply
    rw [hamount]
    refine ⟨?_, ?_, ?_⟩
    · show amount + n ≤ p.market.maxTotalSupply
      have : p.market.totalDeposited + amount ≤ p.market.maxTotalSupply := hcap
      omega
    · show p.market.scaledTotalSupply + scaled ≤ amount + n
      omega
    · intro _
      show p.market.totalDeposited + amount = amount + n
      omega
  | borrow _ haccrue | repay haccrue | repayInterest haccrue | collectFees _ _ haccrue =>
    obtain ⟨_, _, rfl, -⟩ := accrueInterest_ok haccrue
    exact hkeep rfl le_rfl fun h0 => ⟨h0, rfl⟩
  | exit _ haccrue hsettles _ _ _ _ htracks _ _ hexit =>
    obtain ⟨_, _, rfl, -⟩ := accrueInterest_ok haccrue
    have hne := hsettles.ne_zero
    refine hkeep (by rcases hexit with rfl | rfl <;> rfl) ?_ fun h0 => absurd ?_ hne
    · dsimp only
      rw [htracks.shape.market, hsettles.shape]
      exact Nat.sub_le _ _
    · rw [htracks.shape.market] at h0
      exact h0
  | claim _ _ _ _ hrecord _ hclaim =>
    refine hkeep (by rcases hclaim with rfl | rfl <;> rfl) ?_ ?_
    · rw [(recordClaim_shape hrecord).market]
    · rw [(recordClaim_shape hrecord).market]
      exact fun h0 => ⟨h0, rfl⟩
  | reSettle _ haccrue _ _ himproved =>
    obtain ⟨_, _, rfl, -⟩ := accrueInterest_ok haccrue
    exact hkeep rfl le_rfl fun h0 => absurd h0 (Nat.ne_zero_of_lt himproved)
  | withdrawExcess | close => exact hkeep rfl le_rfl fun h0 => ⟨h0, rfl⟩

theorem Run.capped {w₀ w : World} (hg : Genesis w₀) (r : Run w₀ hist w) (hp : w.pool a = some p) :
    p.Capped (deposited a hist) := by
  refine Run.history_invariant (I := fun hist p => p.Capped (deposited a hist)) hg ?_ ?_ r hp
  · rintro hist ⟨pre, e, post⟩ q hnone ⟨b, nonce, rfl⟩ hfresh
    rw [deposited_cons, deposited_of_ne hnone]
    exact hfresh.capped
  · intro hist x q q' hr hq _ hs h
    rw [deposited_cons]
    exact h.step (Reachable.ledger hr hq) hs

end Deposits

/-- All deposits that a market ever takes stay within its cap together, whatever is withdrawn in between, and so do its
units.  Until the settlement `totalDeposited` is their sum. -/
theorem deposits_capped {w₀ w : World} {hist : List Record} (hg : Genesis w₀) (r : Run w₀ hist w) {a : Address}
    {ma : MarketAccounts} (hma : w.markets.lookup a = some ma) :
    deposited a hist ≤ ma.market.maxTotalSupply ∧ ma.market.scaledTotalSupply ≤ deposited a hist ∧
      (ma.market.settlementFactorWad = 0 → ma.market.totalDeposited = deposited a hist) := by
  have h := Run.capped hg r (World.pool_of_lookup hma)
  exact ⟨h.deposits, h.supply, h.unsettled⟩

namespace Sample

/-- Alice deposits at par, and both lenders take everything out in the end. -/
def refunded : List Action :=
  [configure, whitelist, create, deposit alice 6, deposit bob 10, .clock 400, withdraw alice 0, withdraw bob 0]

end Sample

/-- What was withdrawn still counts. -/
theorem deposits_capped_refunded :
    ∃ ma, (Sample.genesis.performAll Sample.refunded).markets.lookup Sample.market = some ma ∧
      ma.market.scaledTotalSupply = 0 ∧ deposited Sample.market (Sample.genesis.history Sample.refunded) = 16 ∧
      deposited Sample.market (Sample.genesis.history Sample.refunded) ≤ ma.market.maxTotalSupply := by
  obtain ⟨ma, hma, hsupply⟩ := Option.map_eq_some_iff.1
    (show ((Sample.genesis.performAll Sample.refunded).markets.lookup Sample.market).map
      (fun ma => ma.market.scaledTotalSupply) = some 0 by decide +kernel)
  exact ⟨ma, hma, hsupply, by decide +kernel,
    (deposits_capped Sample.genesis_initial (Sample.genesis.performAll_run Sample.refunded) hma).1⟩

/-! ### Credit -/

section Credit

variable {w₀ w w' : World} {b : Address} {e : Option Event} {hist : List Record}

/-- The borrower `b` is listed, and its debt is within its capacity. -/
def World.WithinCapacity (w : World) (b : Address) : Prop :=
  ∃ wl, w.whitelists.lookup b = some wl ∧ wl.isWhitelisted = 1 ∧ w.debt b ≤ wl.maxBorrowCapacity

theorem Authorized.credit {signed : Address → Prop} {a : Address} {n : ℕ} (h : Authorized w signed (.borrow a b n) w') :
    ∃ wl, w.whitelists.lookup b = some wl ∧ wl.isWhitelisted = 1 ∧ wl.currentBorrowed + n ≤ wl.maxBorrowCapacity := by
  cases h with
  | administers _ _ h => cases h
  | market _ _ _ h =>
    cases h with
    | borrow _ _ _ hlisted =>
      obtain ⟨wl, hwl, hflag, -, hcapacity⟩ := hlisted
      exact ⟨wl, hwl, hflag, hcapacity⟩

/-- The debt of a borrower grows only by a loan of its own, and that stays within the capacity. -/
theorem Step.credit (h : Reachable w) (hs : Step w e w') :
    w'.debt b ≤ w.debt b ∧ (∀ a n, e ≠ some (.borrow a b n)) ∨ w'.WithinCapacity b := by
  have hw := Reachable.wellFormed h
  have hdebt' := (Reachable.debts (h.step hs)).debt_eq b
  rw [(Reachable.debts h).debt_eq b, World.WithinCapacity, hdebt']
  cases e with
  | none =>
    obtain ⟨-, hwls, -⟩ := hs.none_frame
    rw [hwls]
    exact .inl ⟨le_rfl, by simp⟩
  | some e =>
    have hentry := hs.entry hw b
    by_cases hborrow : ∃ a n, e = .borrow a b n
    · obtain ⟨a, n, rfl⟩ := hborrow
      right
      cases hs with
      | instruction hsign hok =>
        obtain ⟨wl, hwl, hlisted, hcapacity⟩ := (processInstruction_authorized hw hok).credit
        generalize w'.whitelists.lookup b = entry at hentry ⊢
        cases hentry with
        | keeps he => exact absurd rfl he
        | borrows hwl' =>
          obtain rfl := Option.some.inj (hwl.symm.trans hwl')
          exact ⟨_, rfl, hlisted, hcapacity⟩
    · have hnot : ∀ a n, e ≠ .borrow a b n := fun a n he => hborrow ⟨a, n, he⟩
      exact .inl ⟨hentry.counter_le hnot, fun a n he => hnot a n (Option.some.inj he)⟩

/-- Right after a loan the debt of the borrower is within the capacity it has then, and at no time is it above the
largest capacity it had so far. -/
theorem credit_limited (hg : Genesis w₀) (r : Run w₀ hist w) (b : Address) :
    (∀ x ∈ hist, ∀ a n, x.event = some (.borrow a b n) → x.post.WithinCapacity b) ∧
      ∀ n, (∀ x ∈ hist, ∀ wl, x.post.whitelists.lookup b = some wl → wl.maxBorrowCapacity ≤ n) → w.debt b ≤ n := by
  constructor
  · intro x hx a n he
    obtain ⟨hr, hs⟩ := r.step_of_mem (.init hg) hx
    rcases Step.credit (b := b) hr hs with ⟨-, hnot⟩ | hwithin
    · exact absurd he (hnot a n)
    · exact hwithin
  · intro n
    induction r with
    | nil =>
      intro _
      rw [World.debt, hg.markets]
      exact Nat.zero_le _
    | cons r hs ih =>
      intro hcap
      rw [List.forall_mem_cons] at hcap
      rcases Step.credit (b := b) (r.reachable (.init hg)) hs with ⟨hle, -⟩ | ⟨wl, hwl, -, hle⟩
      · exact hle.trans (ih hcap.2)
      · exact hle.trans (hcap.1 wl hwl)

end Credit

/-- The loan of 8 is within the capacity. -/
theorem credit_limited_defaulted : (Sample.genesis.performAll Sample.defaulted).debt Sample.borrower ≤ WAD := by
  apply (credit_limited Sample.genesis_initial (Sample.genesis.performAll_run Sample.defaulted) Sample.borrower).2
  have hcap : ((Sample.genesis.history Sample.defaulted).all fun x =>
      (x.post.whitelists.lookup Sample.borrower).elim true fun wl => wl.maxBorrowCapacity ≤ WAD) = true := by
    decide +kernel
  intro x hx wl hwl
  have h := List.all_eq_true.1 hcap x hx
  rw [hwl] at h
  exact of_decide_eq_true h

end Coalesce
