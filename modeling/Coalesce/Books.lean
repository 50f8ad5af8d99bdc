import Coalesce.Custody
import Coalesce.WindDown

/-!
# Books kept from the log

Every instruction that succeeds logs one line.  `Books` is what an indexer can keep from these lines without reading an
account: the admin and the switches of the protocol, the whitelist, and of every market its units, its totals and the
tokens that it should have.  The fee authority is never logged, the whitelist manager only when it changes.

A line names accounts by whatever stands for their addresses (`κ`).  Here books kept under the addresses themselves
are compared with the accounts; `Coalesce.EventLog` passes to the names that the program prints.
-/

namespace Coalesce

/-! ### The lines of the log -/

/-- The fields of a line, the accounts named by `κ`. -/
inductive LogLine (κ : Type)
  | initializeProtocol (admin : κ) (feeBps : ℕ)
  | setFeeConfig (feeBps : ℕ)
  | createMarket (market borrower : κ) (nonce : ℕ)
  | deposit (market lender : κ) (amount scaled : ℕ)
  | borrow (market borrower : κ) (amount : ℕ)
  | repay (market payer : κ) (amount borrowerDebt : ℕ)
  | repayInterest (market payer : κ) (amount totalInterestRepaid : ℕ)
  | withdraw (market lender : κ) (payout scaled : ℕ)
  | collectFees (market : κ) (amount : ℕ)
  | reSettle (market : κ) (newFactor : ℕ)
  | closePosition (market lender : κ)
  | withdrawExcess (market borrower : κ) (amount : ℕ)
  | setWhitelist (borrower : κ) (whitelisted : ℕ)
  | setPause (paused : Bool)
  | setBlacklistMode (failClosed : Bool)
  | setAdmin (newAdmin : κ)
  | setWhitelistManager (newManager : κ)
  | forceClose (market lender : κ) (payout scaled : ℕ)
  | claimHaircut (market lender : κ) (claimed remaining : ℕ)
  | forceClaimHaircut (market lender : κ) (claimed remaining : ℕ)

variable {κ : Type}

/-- The line that an instruction logs. -/
def Event.line (name : Address → κ) : Event → LogLine κ
  | initializeProtocol admin feeBps => .initializeProtocol (name admin) feeBps
  | setFeeConfig feeBps => .setFeeConfig feeBps
  | createMarket a b nonce => .createMarket (name a) (name b) nonce
  | deposit a l amount scaled => .deposit (name a) (name l) amount scaled
  | borrow a b amount => .borrow (name a) (name b) amount
  | repay a payer amount borrowerDebt => .repay (name a) (name payer) amount borrowerDebt
  | repayInterest a payer amount totalInterestRepaid => .repayInterest (name a) (name payer) amount totalInterestRepaid
  | withdraw a l payout scaled => .withdraw (name a) (name l) payout scaled
  | collectFees a amount => .collectFees (name a) amount
  | reSettle a newFactor => .reSettle (name a) newFactor
  | closePosition a l => .closePosition (name a) (name l)
  | withdrawExcess a b amount => .withdrawExcess (name a) (name b) amount
  | setWhitelist b whitelisted => .setWhitelist (name b) whitelisted
  | setPause paused => .setPause paused
  | setBlacklistMode failClosed => .setBlacklistMode failClosed
  | setAdmin newAdmin => .setAdmin (name newAdmin)
  | setWhitelistManager newManager => .setWhitelistManager (name newManager)
  | forceClose a l payout scaled => .forceClose (name a) (name l) payout scaled
  | claimHaircut a l claimed remaining => .claimHaircut (name a) (name l) claimed remaining
  | forceClaimHaircut a l claimed remaining => .forceClaimHaircut (name a) (name l) claimed remaining

/-- The market that a line is about. -/
def LogLine.market : LogLine κ → Option κ
  | createMarket a .. | deposit a .. | borrow a .. | repay a .. | repayInterest a .. | withdraw a .. => some a
  | collectFees a .. | reSettle a .. | closePosition a .. | withdrawExcess a .. | forceClose a .. => some a
  | claimHaircut a .. | forceClaimHaircut a .. => some a
  | _ => none

theorem Event.line_market (name : Address → κ) (e : Event) : (e.line name).market = e.market.map name := by
  cases e <;> rfl

/-! ### The books of a market -/

/-- The balances after the position of `l` was written. -/
private theorem MarketAccounts.balance_insert {m : Market} {hs : HaircutState}
    {positions : Finmap fun _ : Address => LenderPosition} {l : Address} {q : LenderPosition} (x : Address) :
    (⟨m, hs, positions.insert l q⟩ : MarketAccounts).balance x =
      Function.update (⟨m, hs, positions⟩ : MarketAccounts).balance l q.scaledBalance x := by
  unfold balance
  by_cases hx : x = l
  · rw [hx, Finmap.lookup_insert, Function.update_self]
    rfl
  · rw [Finmap.lookup_insert_of_ne _ hx, Function.update_of_ne hx]

structure MarketBook (κ : Type) where
  /-- The scaled units of each lender. -/
  units : κ → ℕ
  supply : ℕ
  borrowed : ℕ
  repaid : ℕ
  interestRepaid : ℕ
  /-- What came in less what went out.  Nobody logs tokens that are sent to a vault directly. -/
  vault : ℤ

namespace MarketBook

def empty : MarketBook κ where
  units _ := 0
  supply := 0
  borrowed := 0
  repaid := 0
  interestRepaid := 0
  vault := 0

variable [DecidableEq κ]

def credit (b : MarketBook κ) (l : κ) (scaled : ℕ) : MarketBook κ :=
  { b with units := Function.update b.units l (b.units l + scaled), supply := b.supply + scaled }

def debit (b : MarketBook κ) (l : κ) (scaled : ℕ) : MarketBook κ :=
  { b with units := Function.update b.units l (b.units l - scaled), supply := b.supply - scaled }

/-- A line about the market. -/
def apply (b : MarketBook κ) : LogLine κ → MarketBook κ
  | .deposit _ l amount scaled => { b.credit l scaled with vault := b.vault + amount }
  | .borrow _ _ amount => { b with borrowed := b.borrowed + amount, vault := b.vault - amount }
  | .repay _ _ amount _ => { b with repaid := b.repaid + amount, vault := b.vault + amount }
  | .repayInterest _ _ amount _ =>
    { b with
      repaid := b.repaid + amount, interestRepaid := b.interestRepaid + amount, vault := b.vault + amount }
  | .withdraw _ l payout scaled | .forceClose _ l payout scaled =>
    { b.debit l scaled with vault := b.vault - payout }
  | .claimHaircut _ _ claimed _ | .forceClaimHaircut _ _ claimed _ => { b with vault := b.vault - claimed }
  | .collectFees _ amount | .withdrawExcess _ _ amount => { b with vault := b.vault - amount }
  | _ => b

/-- The book is that of the pool, address by address. -/
structure Matches (b : MarketBook Address) (p : Pool) : Prop where
  units : ∀ l, b.units l = p.balance l
  supply : b.supply = p.market.scaledTotalSupply
  borrowed : b.borrowed = p.market.totalBorrowed
  repaid : b.repaid = p.market.totalRepaid
  interestRepaid : b.interestRepaid = p.market.totalInterestRepaid
  vault : b.vault ≤ p.vault

variable {b : MarketBook Address} {a : Address} {p p' : Pool} {e : Event}

theorem matches_fresh (h : p.Fresh a) : empty.Matches p := by
  cases h with
  | mk => exact ⟨fun _ => by simp [empty, freshMarket, MarketAccounts.balance], rfl, rfl, rfl, rfl, le_rfl⟩

theorem apply_exit {l : Address} {payout scaled : ℕ} (h : e.IsExit a l payout scaled) :
    b.apply (e.line id) = { b.debit l scaled with vault := b.vault - payout } := by
  rcases h with rfl | rfl <;> rfl

theorem apply_claim {l : Address} {claimed remaining : ℕ} (h : e.IsClaim a l claimed remaining) :
    b.apply (e.line id) = { b with vault := b.vault - claimed } := by
  rcases h with rfl | rfl <;> rfl

theorem Matches.debit_le (h : b.Matches p) {n : ℕ} (hn : n ≤ p.vault) : b.vault - n ≤ (p.vault - n : ℕ) := by
  rw [Nat.cast_sub hn]
  exact sub_le_sub_right h.vault _

theorem Matches.step (h : b.Matches p) (hs : Pool.Step a p (some e) p') (he : e.market = some a) :
    (b.apply (e.line id)).Matches p' := by
  have hunits : b.units = p.balance := funext h.units
  cases hs with
  | idle hidle => exact absurd he hidle
  | deposit _ _ haccrue _ _ _ hposition =>
    obtain ⟨_, _, rfl, -⟩ := accrueInterest_ok haccrue
    refine ⟨?_, congrArg (· + _) h.supply, h.borrowed, h.repaid, h.interestRepaid, ?_⟩
    · intro x
      rw [MarketAccounts.balance_insert, (depositPosition_ok hposition).2.2.1]
      exact congrFun (congrArg (fun u => Function.update u _ (u _ + _)) hunits) x
    · exact add_le_add_left h.vault _
  | borrow _ haccrue hamount =>
    obtain ⟨_, _, rfl, -⟩ := accrueInterest_ok haccrue
    exact ⟨h.units, h.supply, congrArg (· + _) h.borrowed, h.repaid, h.interestRepaid, h.debit_le hamount⟩
  | repay haccrue =>
    obtain ⟨_, _, rfl, -⟩ := accrueInterest_ok haccrue
    exact ⟨h.units, h.supply, h.borrowed, congrArg (· + _) h.repaid, h.interestRepaid, add_le_add_left h.vault _⟩
  | repayInterest haccrue =>
    obtain ⟨_, _, rfl, -⟩ := accrueInterest_ok haccrue
    exact ⟨h.units, h.supply, h.borrowed, congrArg (· + _) h.repaid, congrArg (· + _) h.interestRepaid,
      add_le_add_left h.vault _⟩
  | @exit _ _ _ l q scaled _ _ t _ _ haccrue hsettles hposition _ _ _ htracks _ hpayout hexit =>
    obtain ⟨_, _, rfl, -⟩ := accrueInterest_ok haccrue
    rw [apply_exit hexit, htracks.shape.market, hsettles.shape, htracks.shape.position]
    refine ⟨?_, congrArg (· - _) h.supply, h.borrowed, h.repaid, h.interestRepaid, h.debit_le hpayout⟩
    intro x
    rw [MarketAccounts.balance_insert]
    have hbalance : p.balance l = q.scaledBalance := by rw [MarketAccounts.balance, hposition, Option.elim_some]
    show Function.update b.units l (b.units l - scaled) x = _
    rw [hunits, hbalance]
    rfl
  | @claim l q _ _ t _ _ hposition _ _ hrecord hpayout hclaim =>
    have hshape := recordClaim_shape hrecord
    rw [apply_claim hclaim, hshape.market, hshape.position]
    refine ⟨?_, h.supply, h.borrowed, h.repaid, h.interestRepaid, h.debit_le hpayout⟩
    intro x
    rw [MarketAccounts.balance_insert]
    have hbalance : p.balance l = q.scaledBalance := by rw [MarketAccounts.balance, hposition, Option.elim_some]
    show b.units x = Function.update p.balance l q.scaledBalance x
    rw [hunits, ← hbalance, Function.update_eq_self]
  | reSettle _ haccrue =>
    obtain ⟨_, _, rfl, -⟩ := accrueInterest_ok haccrue
    exact ⟨h.units, h.supply, h.borrowed, h.repaid, h.interestRepaid, h.vault⟩
  | collectFees _ _ haccrue _ _ hpayout =>
    obtain ⟨_, _, rfl, -⟩ := accrueInterest_ok haccrue
    exact ⟨h.units, h.supply, h.borrowed, h.repaid, h.interestRepaid, h.debit_le hpayout⟩
  | withdrawExcess _ _ _ _ hvault =>
    refine ⟨h.units, h.supply, h.borrowed, h.repaid, h.interestRepaid, ?_⟩
    have hdebit := h.debit_le (Nat.sub_le p.vault p.market.haircutAccumulator)
    rcases hvault with rfl | rfl
    · exact hdebit
    · exact hdebit.trans (Nat.cast_le.2 (Nat.sub_le _ _))
  | @close l _ hposition hbalance =>
    refine ⟨?_, h.supply, h.borrowed, h.repaid, h.interestRepaid, h.vault⟩
    intro x
    show b.units x = _
    rw [hunits]
    unfold MarketAccounts.balance
    by_cases hx : x = l
    · rw [hx, hposition, Finmap.lookup_erase]
      exact hbalance
    · rw [Finmap.lookup_erase_ne hx]

theorem Matches.idle (h : b.Matches p) (haccounts : p'.toMarketAccounts = p.toMarketAccounts)
    (hvault : p.vault ≤ p'.vault) : b.Matches p' := by
  obtain ⟨_, _, _⟩ := p'
  obtain rfl := haccounts
  exact { h with vault := h.vault.trans (Nat.cast_le.2 hvault) }

end MarketBook

/-! ### The books of the protocol -/

structure ConfigBook (κ : Type) where
  admin : κ
  feeRateBps : ℕ
  paused : Bool
  failClosed : Bool
  deriving DecidableEq

def ProtocolConfig.book (name : Address → κ) (c : ProtocolConfig) : ConfigBook κ where
  admin := name c.admin
  feeRateBps := c.feeRateBps
  paused := c.isPaused
  failClosed := c.isBlacklistFailClosed

structure Books (κ : Type) where
  config : Option (ConfigBook κ)
  /-- The whitelist manager, once it has changed. -/
  whitelistManager : Option κ
  listed : κ → Option ℕ
  /-- The principal that a borrower owes. -/
  debt : κ → ℕ
  /-- The borrowers of the markets. -/
  borrower : κ → Option κ
  market : κ → MarketBook κ

namespace Books

def empty : Books κ where
  config := none
  whitelistManager := none
  listed _ := none
  debt _ := 0
  borrower _ := none
  market _ := .empty

def nextConfig (c : Option (ConfigBook κ)) : LogLine κ → Option (ConfigBook κ)
  | .initializeProtocol admin bps => some { admin, feeRateBps := bps, paused := false, failClosed := false }
  | .setFeeConfig bps => c.map fun c => { c with feeRateBps := bps }
  | .setPause paused => c.map fun c => { c with paused }
  | .setBlacklistMode failClosed => c.map fun c => { c with failClosed }
  | .setAdmin admin => c.map fun c => { c with admin }
  | _ => c

def nextManager (m : Option κ) : LogLine κ → Option κ
  | .setWhitelistManager newManager => some newManager
  | _ => m

variable [DecidableEq κ]

def nextListed (listed : κ → Option ℕ) : LogLine κ → κ → Option ℕ
  | .setWhitelist x flag => Function.update listed x (some flag)
  | _ => listed

/-- A repayment logs its payer and what the borrower still owes. -/
def nextDebt (b : Books κ) : LogLine κ → κ → ℕ
  | .borrow _ x amount => Function.update b.debt x (b.debt x + amount)
  | .repay a _ _ debt => (b.borrower a).elim b.debt fun x => Function.update b.debt x debt
  | _ => b.debt

def nextBorrower (borrower : κ → Option κ) : LogLine κ → κ → Option κ
  | .createMarket a x _ => Function.update borrower a (some x)
  | _ => borrower

def apply (b : Books κ) (l : LogLine κ) : Books κ where
  config := nextConfig b.config l
  whitelistManager := nextManager b.whitelistManager l
  listed := nextListed b.listed l
  debt := b.nextDebt l
  borrower := nextBorrower b.borrower l
  market := l.market.elim b.market fun a => Function.update b.market a ((b.market a).apply l)

/-- The books are those of the accounts, address by address. -/
structure Matches (b : Books Address) (w : World) : Prop where
  config : b.config = w.config.map (ProtocolConfig.book id)
  whitelistManager : ∀ x, b.whitelistManager = some x → w.config.map ProtocolConfig.whitelistManager = some x
  listed : ∀ x, b.listed x = (w.whitelists.lookup x).map BorrowerWhitelist.isWhitelisted
  debt : ∀ x, b.debt x = (w.whitelists.lookup x).elim 0 BorrowerWhitelist.currentBorrowed
  borrower : ∀ a, b.borrower a = (w.markets.lookup a).map fun ma => ma.market.borrower
  market : ∀ a p, w.pool a = some p → (b.market a).Matches p
  unopened : ∀ a, w.markets.lookup a = none → b.market a = .empty

end Books

/-- The books after a run, whose newest step comes first. -/
def replay [DecidableEq κ] (name : Address → κ) : List Record → Books κ
  | [] => .empty
  | x :: hist => x.event.elim (replay name hist) fun e => (replay name hist).apply (e.line name)

/-! ### The books match the accounts -/

section Steps

variable {b : Books Address} {w w' : World} {e : Event}

theorem Books.matches_genesis (h : Genesis w) : Books.empty.Matches w where
  config := by rw [h.config]; rfl
  whitelistManager _ h := by cases h
  listed _ := by rw [h.whitelists]; rfl
  debt _ := by rw [h.whitelists]; rfl
  borrower _ := by rw [h.markets]; rfl
  market a p hp := by
    rw [World.pool_eq_some, h.markets] at hp
    simp at hp
  unopened _ _ := rfl

theorem Administers.book {c c' : ProtocolConfig} (h : Administers c e c') :
    Books.nextConfig (some (c.book id)) (e.line id) = some (c'.book id) := by
  cases h with
  | setFeeConfig | setAdmin | setWhitelistManager => rfl
  | setPause flag | setBlacklistMode flag => cases flag <;> rfl

/-- The manager changes with the line that says so. -/
theorem Administers.manager {c c' : ProtocolConfig} (h : Administers c e c') {m : Option Address}
    (hm : ∀ x, m = some x → c.whitelistManager = x) :
    ∀ x, Books.nextManager m (e.line id) = some x → c'.whitelistManager = x := by
  cases h with
  | setWhitelistManager => exact fun x hx => Option.some.inj hx
  | setFeeConfig | setPause | setBlacklistMode | setAdmin => exact hm

theorem MarketOrder.config {a : Address} {signed : Address → Prop} {c : ProtocolConfig} {t : TokenLedger}
    (h : MarketOrder w signed c a e t) (cb : Option (ConfigBook Address)) (m : Option Address) :
    Books.nextConfig cb (e.line id) = cb ∧ Books.nextManager m (e.line id) = m := by
  cases h <;> exact ⟨rfl, rfl⟩

theorem Authorized.config {signed : Address → Prop} (h : Authorized w signed e w') :
    w'.config.map (ProtocolConfig.book id) =
      Books.nextConfig (w.config.map (ProtocolConfig.book id)) (e.line id) := by
  cases h with
  | initializes hnew _ _ _ hactive =>
    simp [Event.line, Books.nextConfig, ProtocolConfig.book, ProtocolConfig.isPaused,
      ProtocolConfig.isBlacklistFailClosed, hactive]
  | administers hc _ h =>
    rw [hc]
    exact h.book.symm
  | lists => rfl
  | market _ _ hkeeps h => rw [hkeeps, (h.config _ none).1]

theorem Authorized.manager {signed : Address → Prop} (h : Authorized w signed e w') {m : Option Address}
    (hm : ∀ x, m = some x → w.config.map ProtocolConfig.whitelistManager = some x) :
    ∀ x, Books.nextManager m (e.line id) = some x → w'.config.map ProtocolConfig.whitelistManager = some x := by
  cases h with
  | initializes hnew =>
    intro x hx
    have hold := hm x hx
    rw [hnew] at hold
    cases hold
  | administers hc _ h =>
    rw [hc] at hm
    intro x hx
    exact congrArg some (h.manager (fun x hx => Option.some.inj (hm x hx)) x hx)
  | lists => exact hm
  | market _ _ hkeeps h =>
    rw [hkeeps, (h.config none m).2]
    exact hm

theorem updatedWhitelist_flag {old : Option BorrowerWhitelist} {x : Address} {f capacity : ℕ} {wl : BorrowerWhitelist}
    (h : updatedWhitelist old x f capacity = .ok wl) :
    wl.isWhitelisted = f ∧ wl.currentBorrowed = old.elim 0 BorrowerWhitelist.currentBorrowed := by
  cases old with
  | none =>
    simp only [updatedWhitelist] at h
    split at h
    · rename_i hf
      obtain rfl := Except.ok.inj h
      exact ⟨hf.symm, rfl⟩
    · cases h
  | some _ => exact (updatedWhitelist_some h).2

/-- A repayment logs what is left of the debt. -/
theorem Authorized.repay {signed : Address → Prop} {a payer : Address} {n debt : ℕ}
    (h : Authorized w signed (.repay a payer n debt) w') {x : Address} (hx : w.IsBorrower a x)
    {wl : BorrowerWhitelist} (hwl : w.whitelists.lookup x = some wl) : debt = wl.currentBorrowed - n := by
  cases h with
  | administers _ _ h => cases h
  | market _ _ _ h =>
    cases h with
    | repay hfits =>
      obtain ⟨ma, hma, -, wl', hwl', -, rfl⟩ := hfits
      obtain ⟨_, hma', rfl⟩ := hx
      obtain rfl := Option.some.inj (hma.symm.trans hma')
      obtain rfl := Option.some.inj (hwl.symm.trans hwl')
      rfl

theorem World.borrower_eq (w : World) (a : Address) :
    ((w.markets.lookup a).map fun ma => ma.market.borrower) = (w.pool a).map fun p => p.market.borrower := by
  unfold World.pool
  rw [Option.map_map]
  rfl

theorem Books.apply_borrower_of_ne {a : Address} (he : (some e).bind Event.market ≠ some a) :
    (b.apply (e.line id)).borrower a = b.borrower a := by
  cases e with
  | createMarket a' => exact Function.update_of_ne (fun h => he (congrArg some h.symm)) _ _
  | _ => rfl

/-- A market that is there is not created. -/
theorem Books.apply_borrower {a : Address} {p p' : Pool} (h : Pool.Step a p (some e) p') :
    (b.apply (e.line id)).borrower a = b.borrower a := by
  cases h with
  | idle he => exact apply_borrower_of_ne he
  | exit _ _ _ _ _ _ _ _ _ _ hexit => rcases hexit with rfl | rfl <;> rfl
  | claim _ _ _ _ _ _ hclaim => rcases hclaim with rfl | rfl <;> rfl
  | _ => rfl

theorem Books.apply_market {a : Address} (he : e.market = some a) :
    (b.apply (e.line id)).market a = (b.market a).apply (e.line id) := by
  show (e.line id).market.elim b.market _ a = _
  rw [Event.line_market, he]
  exact Function.update_self ..

theorem Books.apply_market_of_ne {a : Address} (he : e.market ≠ some a) :
    (b.apply (e.line id)).market a = b.market a := by
  show (e.line id).market.elim b.market _ a = _
  rw [Event.line_market]
  cases hm : e.market with
  | none => rfl
  | some x => exact Function.update_of_ne (fun h => he (by rw [hm, h]; rfl)) ..

namespace Books.Matches

/-- The entry of `x` after an instruction. -/
private theorem entry (hb : b.Matches w) {signed : Address → Prop} (hauth : Authorized w signed e w') {x : Address}
    {entry : Option BorrowerWhitelist} (h : EntryMove w x e entry) :
    (b.apply (e.line id)).listed x = entry.map BorrowerWhitelist.isWhitelisted ∧
      (b.apply (e.line id)).debt x = entry.elim 0 BorrowerWhitelist.currentBorrowed := by
  cases h with
  | keeps he =>
    -- the line is about another borrower
    rw [← hb.listed, ← hb.debt]
    cases e with
    | setWhitelist y | borrow _ y =>
      have hne : x ≠ y := fun h => he (congrArg some h.symm)
      simp [apply, Event.line, nextListed, nextDebt, hne]
    | repay a =>
      have hne : b.borrower a ≠ some x := (hb.borrower a).trans_ne he
      refine ⟨rfl, ?_⟩
      show (b.borrower a).elim b.debt _ x = _
      cases hy : b.borrower a with
      | none => rfl
      | some y => exact Function.update_of_ne (fun h => hne (by rw [hy, h])) ..
    | _ => exact ⟨rfl, rfl⟩
  | lists h =>
    obtain ⟨hflag, hdebt⟩ := updatedWhitelist_flag h
    simp [apply, Event.line, nextListed, nextDebt, hb.debt, hflag, hdebt]
  | borrows hwl => simp [apply, Event.line, nextListed, nextDebt, hb.listed, hb.debt, hwl]
  | @repays a _ _ _ _ hborrower hwl =>
    have hx : b.borrower a = some x := by
      obtain ⟨ma, hma, rfl⟩ := hborrower
      simp [hb.borrower, hma]
    simp [apply, Event.line, nextListed, nextDebt, hb.listed, hwl, hx, hauth.repay hborrower hwl]

/-- An instruction keeps the books in step with the accounts. -/
theorem instruction (hb : b.Matches w) (hw : WellFormed w) (hs : Step w (some e) w') :
    (b.apply (e.line id)).Matches w' := by
  obtain ⟨signed, hauth⟩ : ∃ signed, Authorized w signed e w' := by
    cases hs with
    | instruction hsign hok => exact ⟨_, processInstruction_authorized hw hok⟩
  have hentry := fun x => hb.entry hauth (hs.entry hw x)
  refine ⟨?_, hauth.manager hb.whitelistManager, fun x => (hentry x).1, fun x => (hentry x).2, ?_, ?_, ?_⟩
  · exact (congrArg (nextConfig · _) hb.config).trans hauth.config.symm
  · intro a
    rw [World.borrower_eq]
    cases hp : w.pool a with
    | none =>
      cases hp' : w'.pool a with
      | none =>
        rw [apply_borrower_of_ne (hs.pool_none hw hp hp'), hb.borrower, World.borrower_eq, hp]
      | some p' =>
        obtain ⟨nonce, he⟩ := hs.creator hw hp hp'
        obtain rfl := Option.some.inj he
        exact Function.update_self ..
    | some p =>
      obtain ⟨p', hp', hstep⟩ := hs.pool hw hp
      rw [apply_borrower hstep, hb.borrower, World.borrower_eq, hp, hp']
      exact congrArg (fun t => some t.1) hstep.terms.symm
  · intro a p' hp'
    cases hp : w.pool a with
    | none =>
      obtain ⟨hfresh, y, nonce, he⟩ := hs.pool_new hw hp hp'
      obtain rfl := Option.some.inj he
      rw [apply_market rfl, hb.unopened a (World.pool_eq_none.1 hp)]
      exact MarketBook.matches_fresh hfresh
    | some p =>
      have hstep := hs.pool_step hw hp hp'
      by_cases he : e.market = some a
      · rw [apply_market he]
        exact (hb.market a p hp).step hstep he
      · obtain ⟨haccounts, hvault⟩ := hstep.idle_of_ne he
        rw [apply_market_of_ne he]
        exact (hb.market a p hp).idle haccounts hvault
  · intro a hnone
    have hp' := World.pool_eq_none.2 hnone
    cases hp : w.pool a with
    | none =>
      rw [apply_market_of_ne (hs.pool_none hw hp hp')]
      exact hb.unopened a (World.pool_eq_none.1 hp)
    | some p =>
      obtain ⟨_, hsome, -⟩ := hs.pool hw hp
      rw [hp'] at hsome
      cases hsome

/-- The books of a step without an event. -/
theorem silent (hb : b.Matches w) (hw : WellFormed w) (hs : Step w none w') : b.Matches w' := by
  obtain ⟨hconfig, hwls, hmarkets⟩ := hs.none_frame
  refine ⟨?_, ?_, ?_, ?_, ?_, ?_, ?_⟩
  · rw [hconfig, hb.config]
  · rw [hconfig]
    exact hb.whitelistManager
  · intro x
    rw [hwls, hb.listed]
  · intro x
    rw [hwls, hb.debt]
  · intro a
    rw [hmarkets, hb.borrower]
  · intro a p' hp'
    cases hp : w.pool a with
    | none => cases (hs.pool_new hw hp hp').2.choose_spec.choose_spec
    | some p =>
      obtain ⟨haccounts, hvault⟩ := (hs.pool_step hw hp hp').idle_of_ne (by simp)
      exact (hb.market a p hp).idle haccounts hvault
  · intro a hnone
    rw [hmarkets] at hnone
    exact hb.unopened a hnone

end Books.Matches

end Steps

/-- After every run, the books kept under the addresses match the accounts. -/
theorem replay_matches {w₀ w : World} {hist : List Record} (hg : Genesis w₀) (r : Run w₀ hist w) :
    (replay id hist).Matches w := by
  induction r with
  | nil => exact Books.matches_genesis hg
  | @cons hist w₁ w₂ e r hs ih =>
    have hw := Reachable.wellFormed (r.reachable (.init hg))
    cases e with
    | none => exact ih.silent hw hs
    | some e => exact ih.instruction hw hs

end Coalesce
