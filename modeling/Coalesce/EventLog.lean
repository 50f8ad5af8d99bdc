import Coalesce.Books
import Coalesce.Lib.Pod
import Coalesce.Lib.Relabel

/-!
# The event log

The program does not print an address but `short_hex` of it, its first eight bytes in hexadecimal.  Books kept under
these names are the books of `Coalesce.Books` relabelled, as long as no two of the addresses that the log names agree in
their first eight bytes; and every account with something in it is named.  So the log describes the accounts
(`log_describes_state`).

`key` gives the 32 bytes of an address.
-/

namespace Coalesce

/-! ### The printed name of an address -/

def HEX : List UInt8 := "0123456789abcdef".toList.map fun c => .ofNat c.toNat

/-- The two digits of a byte. -/
def hexByte (b : UInt8) : List UInt8 := [HEX.getD (b >>> 4).toNat 0, HEX.getD (b &&& 0x0f).toNat 0]

/-- The buffer that `short_hex` fills: 16 digits, of the first eight bytes. -/
def shortHex (addr : List UInt8) : List UInt8 :=
  let digits := (addr.take 8).flatMap hexByte
  digits ++ List.replicate (16 - digits.length) 0

theorem hexByte_injective : Function.Injective hexByte := by
  have hdigit : ∀ n : Fin 16, HEX.idxOf (HEX.getD n 0) = n := by decide
  -- reading the digits back
  have hvalue (b : UInt8) : (hexByte b).map HEX.idxOf = [b.toNat / 16, b.toNat % 16] := by
    have hhigh : (b >>> 4).toNat = b.toNat / 16 := by
      rw [UInt8.toNat_shiftRight]
      exact Nat.shiftRight_eq_div_pow b.toNat 4
    have hlow : (b &&& 0x0f).toNat = b.toNat % 16 := by
      rw [UInt8.toNat_and]
      exact Nat.and_two_pow_sub_one_eq_mod b.toNat 4
    have hlt := b.toNat_lt
    have h₁ := hdigit ⟨b.toNat / 16, by omega⟩
    have h₂ := hdigit ⟨b.toNat % 16, by omega⟩
    simp only [hexByte, hhigh, hlow, List.map_cons, List.map_nil]
    exact congrArg₂ (fun x y => [x, y]) h₁ h₂
  intro b b' h
  have he := congrArg (List.map HEX.idxOf) h
  rw [hvalue, hvalue] at he
  obtain ⟨hhigh, hlow⟩ := List.cons_eq_cons.1 he
  rw [List.cons_eq_cons] at hlow
  exact UInt8.toNat_inj.1 (by omega)

theorem flatMap_hexByte_injective : Function.Injective fun bs : List UInt8 => bs.flatMap hexByte := by
  intro bs
  induction bs with
  | nil =>
    rintro (- | ⟨b, bs'⟩) h
    · rfl
    · simp [hexByte] at h
  | cons b bs ih =>
    rintro (- | ⟨b', bs'⟩) h
    · simp [hexByte] at h
    · have h' : hexByte b ++ bs.flatMap hexByte = hexByte b' ++ bs'.flatMap hexByte := h
      obtain ⟨hb, hbs⟩ := List.append_inj h' rfl
      rw [hexByte_injective hb, ih hbs]

/-- The names of two addresses are different unless their first eight bytes are the same. -/
theorem shortHex_eq_iff {x y : Word 32} :
    shortHex x.toList = shortHex y.toList ↔ x.toList.take 8 = y.toList.take 8 := by
  have hlength (x : Word 32) : ((x.toList.take 8).flatMap hexByte).length = 16 := by
    simp [List.length_flatMap, hexByte]
  have hname (x : Word 32) : shortHex x.toList = (x.toList.take 8).flatMap hexByte := by
    simp [shortHex, hlength]
  rw [hname, hname]
  exact flatMap_hexByte_injective.eq_iff

/-! ### The books under other names -/

variable {κ : Type}

/-- The addresses that an instruction logs. -/
def Event.names : Event → List Address
  | initializeProtocol x _ | setAdmin x | setWhitelistManager x | setWhitelist x _ => [x]
  | createMarket a x _ | deposit a x .. | borrow a x _ | repay a x .. | repayInterest a x .. => [a, x]
  | withdraw a x .. | closePosition a x | withdrawExcess a x _ | forceClose a x .. => [a, x]
  | claimHaircut a x .. | forceClaimHaircut a x .. => [a, x]
  | collectFees a _ | reSettle a _ => [a]
  | setFeeConfig _ | setPause _ | setBlacklistMode _ => []

/-- The addresses that a run logs. -/
def names (hist : List Record) : List Address := hist.flatMap fun x => x.event.elim [] Event.names

/-- The market book `b'` is `b` under the names `f` of the addresses `s`. -/
structure MarketBook.Renames (f : Address → κ) (s : Set Address) (b : MarketBook Address) (b' : MarketBook κ) :
    Prop where
  units : Relabels f s Eq 0 0 b.units b'.units
  supply : b.supply = b'.supply
  borrowed : b.borrowed = b'.borrowed
  repaid : b.repaid = b'.repaid
  interestRepaid : b.interestRepaid = b'.interestRepaid
  vault : b.vault = b'.vault

def ConfigBook.rename (f : Address → κ) (c : ConfigBook Address) : ConfigBook κ :=
  { c with admin := f c.admin }

/-- The books `b'` are `b` under the names `f` of the addresses `s`. -/
structure Books.Renames (f : Address → κ) (s : Set Address) (b : Books Address) (b' : Books κ) : Prop where
  config : b.config.map (ConfigBook.rename f) = b'.config
  whitelistManager : b.whitelistManager.map f = b'.whitelistManager
  listed : Relabels f s Eq none none b.listed b'.listed
  debt : Relabels f s Eq 0 0 b.debt b'.debt
  borrower : Relabels f s (fun x k => x.map f = k ∧ ∀ y ∈ x, y ∈ s) none none b.borrower b'.borrower
  market : Relabels f s (MarketBook.Renames f s) .empty .empty b.market b'.market

section Renames

variable {f : Address → κ} {s : Set Address} {e : Event}

theorem MarketBook.renames_empty : MarketBook.Renames f s .empty (.empty : MarketBook κ) :=
  ⟨.const rfl, rfl, rfl, rfl, rfl, rfl⟩

theorem Books.renames_empty : Books.Renames f s .empty (.empty : Books κ) :=
  ⟨rfl, rfl, .const rfl, .const rfl, .const ⟨rfl, by simp⟩, .const MarketBook.renames_empty⟩

theorem MarketBook.Renames.eq_empty {b : MarketBook κ} (h : MarketBook.Renames f s .empty b) : b = .empty := by
  obtain ⟨units, supply, borrowed, repaid, interestRepaid, vault⟩ := b
  obtain ⟨hunits, rfl, rfl, rfl, rfl, rfl⟩ := h
  obtain rfl := hunits.eq_const
  rfl

variable [DecidableEq κ]

namespace MarketBook.Renames

variable {b : MarketBook Address} {b' : MarketBook κ} {l : Address}

theorem credit (h : b.Renames f s b') (hf : s.InjOn f) (hl : l ∈ s) (n : ℕ) :
    (b.credit l n).Renames f s (b'.credit (f l) n) :=
  { h with
    units := h.units.update hf hl (congrArg (· + n) (h.units.named l hl))
    supply := congrArg (· + n) h.supply }

theorem debit (h : b.Renames f s b') (hf : s.InjOn f) (hl : l ∈ s) (n : ℕ) :
    (b.debit l n).Renames f s (b'.debit (f l) n) :=
  { h with
    units := h.units.update hf hl (congrArg (· - n) (h.units.named l hl))
    supply := congrArg (· - n) h.supply }

theorem apply (h : b.Renames f s b') (hf : s.InjOn f) (he : ∀ x ∈ e.names, x ∈ s) :
    (b.apply (e.line id)).Renames f s (b'.apply (e.line f)) := by
  cases e with
  | deposit a l amount scaled =>
    have hl := he l (by simp [Event.names])
    exact { h.credit hf hl scaled with vault := congrArg (· + (amount : ℤ)) h.vault }
  | withdraw a l payout scaled | forceClose a l payout scaled =>
    have hl := he l (by simp [Event.names])
    exact { h.debit hf hl scaled with vault := congrArg (· - (payout : ℤ)) h.vault }
  | borrow _ _ amount =>
    exact { h with
      borrowed := congrArg (· + amount) h.borrowed
      vault := congrArg (· - (amount : ℤ)) h.vault }
  | repay _ _ amount =>
    exact { h with
      repaid := congrArg (· + amount) h.repaid
      vault := congrArg (· + (amount : ℤ)) h.vault }
  | repayInterest _ _ amount =>
    exact { h with
      repaid := congrArg (· + amount) h.repaid
      interestRepaid := congrArg (· + amount) h.interestRepaid
      vault := congrArg (· + (amount : ℤ)) h.vault }
  | claimHaircut _ _ amount | forceClaimHaircut _ _ amount | collectFees _ amount | withdrawExcess _ _ amount =>
    exact { h with vault := congrArg (· - (amount : ℤ)) h.vault }
  | _ => exact h

end MarketBook.Renames

/-- A line keeps two books in step that it reaches under different names. -/
theorem Books.Renames.apply {b : Books Address} {b' : Books κ} (h : b.Renames f s b') (hf : s.InjOn f)
    (he : ∀ x ∈ e.names, x ∈ s) : (b.apply (e.line id)).Renames f s (b'.apply (e.line f)) where
  config := by
    show (nextConfig b.config (e.line id)).map _ = nextConfig b'.config (e.line f)
    rw [← h.config]
    cases e <;> cases b.config <;> rfl
  whitelistManager := by
    show (nextManager b.whitelistManager (e.line id)).map f = nextManager b'.whitelistManager (e.line f)
    rw [← h.whitelistManager]
    cases e <;> rfl
  listed := by
    cases e with
    | setWhitelist x flag => exact h.listed.update hf (he x (by simp [Event.names])) rfl
    | _ => exact h.listed
  debt := by
    cases e with
    | borrow a x amount =>
      have hx := he x (by simp [Event.names])
      exact h.debt.update hf hx (congrArg (· + amount) (h.debt.named x hx))
    | repay a payer amount debt =>
      -- both look the borrower up in their own books
      obtain ⟨hborrower, hs⟩ := h.borrower.named a (he a (by simp [Event.names]))
      show Relabels f s Eq 0 0 ((b.borrower a).elim b.debt _) ((b'.borrower (f a)).elim b'.debt _)
      rw [← hborrower]
      cases hx : b.borrower a with
      | none => exact h.debt
      | some x => exact h.debt.update hf (hs x hx) rfl
    | _ => exact h.debt
  borrower := by
    cases e with
    | createMarket a x =>
      have hx := he x (by simp [Event.names])
      exact h.borrower.update hf (he a (by simp [Event.names])) ⟨rfl, by simpa using hx⟩
    | _ => exact h.borrower
  market := by
    show Relabels f s _ _ _ ((e.line id).market.elim b.market _) ((e.line f).market.elim b'.market _)
    rw [Event.line_market, Event.line_market]
    cases ha : e.market with
    | none => exact h.market
    | some a =>
      -- the line names its market
      have hs : a ∈ s := by
        apply he
        cases e <;> cases ha <;> simp [Event.names]
      exact h.market.update hf hs ((h.market.named a hs).apply hf he)

/-- The books kept under other names, over a whole run. -/
theorem replay_renames (hf : s.InjOn f) {hist : List Record} (hs : ∀ x ∈ names hist, x ∈ s) :
    (replay id hist).Renames f s (replay f hist) := by
  induction hist with
  | nil => exact Books.renames_empty
  | cons x hist ih =>
    obtain ⟨w, e, w'⟩ := x
    have hih := ih fun y hy => hs y (List.mem_append_right _ hy)
    cases e with
    | none => exact hih
    | some e => exact hih.apply hf fun y hy => hs y (List.mem_append_left _ hy)

end Renames

/-! ### What the log says of the accounts -/

/-- What a market book kept under the names `name` says of the pool. -/
structure MarketBook.Describes (name : Address → κ) (b : MarketBook κ) (p : Pool) : Prop where
  units : ∀ k n, n ≠ 0 →
    (b.units k = n ↔ ∃ l q, name l = k ∧ p.positions.lookup l = some q ∧ q.scaledBalance = n)
  supply : b.supply = p.market.scaledTotalSupply
  borrowed : b.borrowed = p.market.totalBorrowed
  repaid : b.repaid = p.market.totalRepaid
  interestRepaid : b.interestRepaid = p.market.totalInterestRepaid
  vault : b.vault ≤ p.vault

/-- What books kept under the names `name` say of the accounts. -/
structure Books.Describes (name : Address → κ) (b : Books κ) (w : World) : Prop where
  config : b.config = w.config.map (ProtocolConfig.book name)
  whitelistManager : ∀ k, b.whitelistManager = some k → w.config.map (fun c => name c.whitelistManager) = some k
  listed : ∀ k flag,
    b.listed k = some flag ↔ ∃ x wl, name x = k ∧ w.whitelists.lookup x = some wl ∧ wl.isWhitelisted = flag
  debt : ∀ k n, n ≠ 0 →
    (b.debt k = n ↔ ∃ x wl, name x = k ∧ w.whitelists.lookup x = some wl ∧ wl.currentBorrowed = n)
  borrower : ∀ k y,
    b.borrower k = some y ↔ ∃ a ma, name a = k ∧ w.markets.lookup a = some ma ∧ name ma.market.borrower = y
  market : ∀ a p, w.pool a = some p → (b.market (name a)).Describes name p
  unopened : ∀ k, (∀ a, name a = k → w.markets.lookup a = none) → b.market k = .empty

section Describes

variable {f : Address → κ} {s : Set Address}

theorem MarketBook.Matches.describes {b : MarketBook Address} {b' : MarketBook κ} {p : Pool} (h : b.Matches p)
    (hr : b.Renames f s b') : b'.Describes f p where
  units k n hn := by
    rw [hr.units.eq_iff hn]
    constructor
    · rintro ⟨l, hl, hunits⟩
      rw [h.units, MarketAccounts.balance] at hunits
      cases hq : p.positions.lookup l with
      | none =>
        rw [hq] at hunits
        exact absurd hunits.symm hn
      | some q =>
        rw [hq] at hunits
        exact ⟨l, q, hl, hq, hunits⟩
    · rintro ⟨l, q, hl, hq, rfl⟩
      exact ⟨l, hl, by rw [h.units, MarketAccounts.balance, hq]; rfl⟩
  supply := hr.supply.symm.trans h.supply
  borrowed := hr.borrowed.symm.trans h.borrowed
  repaid := hr.repaid.symm.trans h.repaid
  interestRepaid := hr.interestRepaid.symm.trans h.interestRepaid
  vault := hr.vault ▸ h.vault

theorem Books.Matches.describes {b : Books Address} {b' : Books κ} {w : World} (h : b.Matches w)
    (hr : b.Renames f s b') : b'.Describes f w where
  config := by
    rw [← hr.config, h.config, Option.map_map]
    rfl
  whitelistManager k hk := by
    rw [← hr.whitelistManager] at hk
    obtain ⟨x, hx, rfl⟩ := Option.map_eq_some_iff.1 hk
    obtain ⟨c, hc, rfl⟩ := Option.map_eq_some_iff.1 (h.whitelistManager x hx)
    rw [hc]
    rfl
  listed k flag := by
    rw [hr.listed.eq_iff (by simp)]
    simp only [h.listed, Option.map_eq_some_iff, exists_and_left]
  debt k n hn := by
    rw [hr.debt.eq_iff hn]
    constructor
    · rintro ⟨x, hx, hdebt⟩
      rw [h.debt] at hdebt
      cases hwl : w.whitelists.lookup x with
      | none =>
        rw [hwl] at hdebt
        exact absurd hdebt.symm hn
      | some wl =>
        rw [hwl] at hdebt
        exact ⟨x, wl, hx, hwl, hdebt⟩
    · rintro ⟨x, wl, hx, hwl, rfl⟩
      exact ⟨x, hx, by rw [h.debt, hwl]; rfl⟩
  borrower k y := by
    constructor
    · intro hk
      obtain ⟨a, -, rfl, hy, -⟩ := hr.borrower.exists_of_ne (by rw [hk]; simp)
      rw [hk, h.borrower, Option.map_map] at hy
      obtain ⟨ma, hma, hy⟩ := Option.map_eq_some_iff.1 hy
      exact ⟨a, ma, rfl, hma, hy⟩
    · rintro ⟨a, ma, rfl, hma, rfl⟩
      have hb : b.borrower a = some ma.market.borrower := by rw [h.borrower, hma]; rfl
      obtain ⟨hy, -⟩ := hr.borrower.named a (hr.borrower.mem_of_ne (by rw [hb]; simp))
      rw [← hy, hb]
      rfl
  market a p hp := by
    have hma := (World.pool_eq_some.1 hp).1
    have hb : b.borrower a ≠ none := by simp [h.borrower, hma]
    exact (h.market a p hp).describes (hr.market.named a (hr.borrower.mem_of_ne hb))
  unopened k hk := by
    by_contra hne
    obtain ⟨a, -, rfl, hbook⟩ := hr.market.exists_of_ne hne
    rw [h.unopened a (hk a rfl)] at hbook
    exact hne hbook.eq_empty

end Describes

/-- Let no two of the addresses that a run logs agree in their first eight bytes.  Then books kept from the log say what
the accounts have: the admin and the switches, the whitelist with the debts, the markets with their borrowers, the units
of each lender and the totals, and a vault that holds at least what the log says. -/
theorem log_describes_state {w₀ w : World} {hist : List Record} (hg : Genesis w₀) (r : Run w₀ hist w)
    (key : Address → Word 32)
    (hkey : ∀ x ∈ names hist, ∀ y ∈ names hist, (key x).toList.take 8 = (key y).toList.take 8 → x = y) :
    (replay (fun x => shortHex (key x).toList) hist).Describes (fun x => shortHex (key x).toList) w := by
  have hinj : Set.InjOn (fun x => shortHex (key x).toList) {x | x ∈ names hist} :=
    fun x hx y hy h => hkey x hx y hy (shortHex_eq_iff.1 h)
  exact (replay_matches hg r).describes (replay_renames hinj fun _ hx => hx)

namespace Sample

/-- Addresses that differ in their first byte. -/
def key : Address → Word 32
  | .key n => .ofNat 32 n
  | .market _ n => .ofNat 32 (100 + n)
  | _ => .zero

end Sample

/-- The log of two exits at one half: Alice has four units left. -/
theorem log_describes_state_haircut :
    (replay (fun x => shortHex (Sample.key x).toList) (Sample.genesis.history Sample.haircut)).Describes
        (fun x => shortHex (Sample.key x).toList) (Sample.genesis.performAll Sample.haircut) ∧
      ((replay (fun x => shortHex (Sample.key x).toList) (Sample.genesis.history Sample.haircut)).market
        (shortHex (Sample.key Sample.market).toList)).units (shortHex (Sample.key Sample.alice).toList) = 4 :=
  ⟨log_describes_state Sample.genesis_initial (Sample.genesis.performAll_run Sample.haircut) Sample.key
    (by decide +kernel), by decide +kernel⟩

end Coalesce
