import Coalesce.History

/-!
# The account of a lender

A market as one of its lenders sees it: scaled units and an open haircut with its anchor.  `Account.Step` lists what
can happen to such an account at the current scale factor and settlement factor, and every step of the pool is one of
these for every lender.
-/

namespace Coalesce

open ProRata

structure Account where
  balance : ℕ
  owed : ℕ
  anchor : ℕ

/-- What a step is for a lender. -/
inductive Entry
  | other
  | deposit (amount : ℕ)
  | exit (scaled payout : ℕ)
  | claim (claimed : ℕ)

namespace Entry

/-- What the lender receives. -/
def paid : Entry → ℕ
  | exit _ payout => payout
  | claim claimed => claimed
  | _ => 0

/-- The units that the lender takes out. -/
def scaled : Entry → ℕ
  | exit scaled _ => scaled
  | _ => 0

/-- An exit or a claim. -/
def served : Entry → Bool
  | exit .. | claim _ => true
  | _ => false

/-- What the lender deposits. -/
def amount : Entry → ℕ
  | deposit amount => amount
  | _ => 0

end Entry

/-- The steps of an account at the scale factor `f` and the settlement factor `s`. -/
inductive Account.Step (f s : ℕ) (c : Account) : Entry → Account → Prop
  | other : Step f s c .other c
  | deposit (amount : ℕ) : Step f s c (.deposit amount) { c with balance := c.balance + amount * WAD / f }
  | exit {scaled : ℕ} (hle : scaled ≤ c.balance) (hpar : s = WAD ∨ scaled * f / WAD = 0) :
      Step f s c (.exit scaled (scaled * f / WAD)) { c with balance := c.balance - scaled }
  | gap {scaled n pay : ℕ} (hn : n = scaled * f / WAD) (hpay : pay = n * s / WAD) (hle : scaled ≤ c.balance)
      (hgap : pay < n) (hlt : s < WAD) (hanchor : c.anchor ≤ s) :
      Step f s c (.exit scaled (pay + (c.owed - remaining WAD c.owed c.anchor s)))
        ⟨c.balance - scaled, remaining WAD c.owed c.anchor s + (n - pay), s⟩
  | claim {claimed : ℕ} (hle : claimed ≤ claimable WAD c.owed c.anchor s) (hwad : s ≤ WAD) (hanchor : c.anchor < s)
      (hfull : s = WAD → claimed = c.owed) :
      Step f s c (.claim claimed) ⟨c.balance, c.owed - claimed, if 0 < c.owed - claimed then s else 0⟩

/-- What left the vault of a market in a step. -/
def outflow (a : Address) (x : Record) : ℕ := x.pre.tokens.amount (.vault a) - x.post.tokens.amount (.vault a)

/-- What a step is for the lender `l` of the market `a`. -/
def entry (a l : Address) (x : Record) : Entry :=
  match x.event with
  | some (.deposit b k amount _) => if b = a ∧ k = l then .deposit amount else .other
  | some (.withdraw b k _ scaled) | some (.forceClose b k _ scaled) =>
    if b = a ∧ k = l then .exit scaled (outflow a x) else .other
  | some (.claimHaircut b k _ _) | some (.forceClaimHaircut b k _ _) =>
    if b = a ∧ k = l then .claim (outflow a x) else .other
  | _ => .other

/-- The scale factor of a market. -/
def World.scaleFactor (w : World) (a : Address) : ℕ := (w.markets.lookup a).elim 0 fun ma => ma.market.scaleFactor

/-- The settlement factor of a market. -/
def World.settlementFactor (w : World) (a : Address) : ℕ :=
  (w.markets.lookup a).elim 0 fun ma => ma.market.settlementFactorWad

def LenderPosition.account (q : LenderPosition) : Account := ⟨q.scaledBalance, q.haircutOwed, q.withdrawalSf⟩

/-- A lender without a position has nothing. -/
def accountOf (positions : Finmap fun _ : Address => LenderPosition) (l : Address) : Account :=
  (positions.lookup l).elim ⟨0, 0, 0⟩ LenderPosition.account

/-- The scaled units of `l` in the market `a`. -/
def World.units (w : World) (a l : Address) : ℕ :=
  (w.markets.lookup a).elim 0 fun ma => (accountOf ma.positions l).balance

section Entry

variable {a l k : Address} {x : Record} {hist : List Record} {e : Event} {payout scaled claimed remaining : ℕ}

theorem entry_of_market_ne (h : x.event.bind Event.market ≠ some a) : entry a l x = .other := by
  unfold entry
  cases he : x.event with
  | none => rfl
  | some e => cases e <;> simp_all [Event.market]

theorem entry_of_isExit (hx : x.event = some e) (he : e.IsExit a k payout scaled) :
    entry a l x = if k = l then .exit scaled (outflow a x) else .other := by
  unfold entry
  rcases he with rfl | rfl <;> simp [hx]

theorem entry_of_isClaim (hx : x.event = some e) (he : e.IsClaim a k claimed remaining) :
    entry a l x = if k = l then .claim (outflow a x) else .other := by
  unfold entry
  rcases he with rfl | rfl <;> simp [hx]

/-- Up to the creation of the market nothing happens to a lender. -/
theorem entry_of_created (hbefore : ∀ y ∈ hist, y.event.bind Event.market ≠ some a)
    (hx : ∃ borrower nonce, x.event = some (.createMarket a borrower nonce)) :
    ∀ y ∈ x :: hist, entry a l y = .other := by
  intro y hy
  rcases List.mem_cons.1 hy with rfl | hy
  · obtain ⟨_, _, hevent⟩ := hx
    simp [entry, hevent]
  · exact entry_of_market_ne (hbefore y hy)

theorem sum_entry_other {M : Type*} [AddMonoid M] {g : Entry → Record → M} (hg : ∀ x, g .other x = 0)
    (h : ∀ x ∈ hist, entry a l x = .other) : (hist.map fun x => g (entry a l x) x).sum = 0 := by
  apply List.sum_eq_zero
  intro n hn
  obtain ⟨x, hx, rfl⟩ := List.mem_map.1 hn
  rw [h x hx]
  exact hg x

end Entry

section AccountOf

variable {positions : Finmap fun _ : Address => LenderPosition} {l k : Address} {q : LenderPosition}

theorem accountOf_lookup (h : positions.lookup l = some q) : accountOf positions l = q.account := by
  rw [accountOf, h]
  rfl

theorem accountOf_insert : accountOf (positions.insert k q) l = if k = l then q.account else accountOf positions l := by
  unfold accountOf
  by_cases hl : k = l
  · subst hl
    simp [Finmap.lookup_insert]
  · rw [Finmap.lookup_insert_of_ne _ (Ne.symm hl), if_neg hl]

theorem World.units_of_pool {w : World} {a : Address} {p : Pool} (hp : w.pool a = some p) :
    w.units a l = (accountOf p.positions l).balance := by
  rw [units, (World.pool_eq_some.1 hp).1]
  rfl

end AccountOf

/-! ### The steps of a pool, account by account -/

namespace Pool

variable {a : Address} {x : Record} {p p' : Pool}

theorem Fresh.account (h : p.Fresh a) (l : Address) : accountOf p.positions l = ⟨0, 0, 0⟩ := by
  cases h
  simp [accountOf, freshMarket]

namespace Ledger

variable {q : LenderPosition} {l : Address} {t : Tracked}

theorem exit_account (h : p.Ledger) (h0 : p.market.settlementFactorWad ≠ 0) (hq : p.positions.lookup l = some q)
    {scaled n pay : ℕ} (hle : scaled ≤ q.scaledBalance) (hamounts : exitAmounts p.market scaled = .ok (n, pay))
    (htracks : Tracks p.market p.haircutState q n pay t) :
    q.account.Step p.market.scaleFactor p.market.settlementFactorWad (.exit scaled t.payout)
      ⟨t.position.scaledBalance - scaled, t.position.haircutOwed, t.position.withdrawalSf⟩ := by
  have hanchored := h.anchored l q hq
  have hbalance : t.position.scaledBalance = q.scaledBalance := by rw [htracks.shape.position]
  obtain ⟨-, -, -, hr⟩ := exitAmounts_eq_ok.1 hamounts
  obtain ⟨hn, hpay⟩ := Prod.mk.inj hr
  rw [← hn] at hpay
  rcases htracks with ⟨hlt, hgap, -, hrecord⟩ | ⟨hcovered, rfl⟩
  · obtain ⟨-, howed, hsf, hpayout⟩ := recordGap_balanced hrecord hanchored hlt h0 (by omega) h.owed_le (h.owed_ge hq)
      (h.weight_ge hq) (h.offset_ge hq)
    rw [howed, hsf, hpayout, hbalance]
    exact .gap hn hpay hle hgap hlt hanchored.le_factor
  · have hpar : p.market.settlementFactorWad = WAD ∨ n = 0 := by
      by_contra hne
      obtain ⟨hne, hn0⟩ := not_or.1 hne
      have hlt : p.market.settlementFactorWad < WAD := lt_of_le_of_ne (h.settled h0).le_wad hne
      have := gap_pos hlt (Nat.pos_of_ne_zero hn0)
      omega
    have hall : pay = n := by
      rcases hpar with hpar | hpar
      · rw [hpay, hpar, Nat.mul_div_cancel _ WAD_pos]
      · rw [hpay, hpar, Nat.zero_mul, Nat.zero_div]
    show q.account.Step _ _ (.exit scaled pay) _
    rw [hall, hn]
    exact .exit hle (hn ▸ hpar)

theorem claim_account (h : p.Ledger) (h0 : p.market.settlementFactorWad ≠ 0) (hq : p.positions.lookup l = some q)
    {exact claimed : ℕ} (hexact : claimableNow p.market q = .ok exact)
    (hcap : capAtSurplus p.market p.vault exact = .ok claimed)
    (hrecord : recordClaim p.market q p.haircutState claimed = .ok t) :
    q.account.Step p.market.scaleFactor p.market.settlementFactorWad (.claim claimed) t.position.account := by
  obtain ⟨obligations, -, hmin, -⟩ := capAtSurplus_eq_ok.1 hcap
  obtain ⟨-, hanchor, -⟩ := claimableNow_eq_ok.1 hexact
  have hle : claimed ≤ q.claimable p.market.settlementFactorWad := by
    rw [← h.exact_eq (h.settled h0).le_wad hq hexact, hmin]
    exact min_le_right _ _
  obtain ⟨_, _, -, -, -, -, rfl⟩ := recordClaim_eq_ok.1 hrecord
  exact .claim hle (h.settled h0).le_wad hanchor fun hpar => h.claim_full hpar hq hexact hcap

end Ledger

/-- A step of the pool is a step of every account. -/
theorem Step.account (hs : Step a p x.event p') (h : p.Ledger) (hpre : x.pre.pool a = some p)
    (hpost : x.post.pool a = some p') (l : Address) :
    (accountOf p.positions l).Step p'.market.scaleFactor p'.market.settlementFactorWad (entry a l x)
      (accountOf p'.positions l) := by
  have houtflow : outflow a x = p.vault - p'.vault := by
    rw [outflow, (World.pool_eq_some.1 hpre).2.2, (World.pool_eq_some.1 hpost).2.2]
  clear hpre hpost
  have hother (he : entry a l x = .other) (hp' : accountOf p'.positions l = accountOf p.positions l) :
      (accountOf p.positions l).Step p'.market.scaleFactor p'.market.settlementFactorWad (entry a l x)
        (accountOf p'.positions l) := by
    rw [he, hp']
    exact .other
  generalize hx : x.event = e at hs
  cases hs with
  | idle he => exact hother (entry_of_market_ne (by rw [hx]; exact he)) rfl
  | borrow | repay | repayInterest | reSettle | collectFees | withdrawExcess =>
    exact hother (by simp [entry, hx]) rfl
  | @deposit _ m k amount scaled position _ _ haccrue _ hscaled _ hposition =>
    by_cases hk : k = l
    · subst hk
      obtain ⟨-, -, hbalance, howed, hsf⟩ := depositPosition_ok hposition
      have hentry : entry a k x = .deposit amount := by simp [entry, hx]
      rw [hentry, accountOf_insert, if_pos rfl]
      have hnew : position.account = { accountOf p.positions k with
          balance := (accountOf p.positions k).balance + amount * WAD / m.scaleFactor } := by
        rw [← hscaled]
        unfold LenderPosition.account accountOf
        rw [hbalance, howed, hsf]
        cases p.positions.lookup k <;> rfl
      rw [hnew]
      exact .deposit amount
    · apply hother
      · simp [entry, hx, hk]
      · rw [accountOf_insert, if_neg hk]
  | @exit _ m m' k q scaled n pay t _ hmatured haccrue hsettles hq _ hle hamounts htracks _ hpayout he =>
    have h' := h.settleExit hmatured haccrue hsettles
    have hmarket := htracks.shape.market
    have hvault : outflow a x = t.payout := by rw [houtflow]; exact Nat.sub_sub_self hpayout
    rw [entry_of_isExit hx he, accountOf_insert, hvault]
    by_cases hk : k = l
    · subst hk
      rw [if_pos rfl, if_pos rfl, accountOf_lookup hq]
      have hstep := h'.exit_account hsettles.ne_zero hq hle hamounts htracks
      dsimp only
      rw [hmarket]
      exact hstep
    · rw [if_neg hk, if_neg hk]
      exact .other
  | @claim k q exact claimed t _ hsettled hq hexact hcap hrecord hpayout he =>
    have hmarket := (recordClaim_shape hrecord).market
    have hvault : outflow a x = claimed := by rw [houtflow]; exact Nat.sub_sub_self hpayout
    rw [entry_of_isClaim hx he, accountOf_insert, hvault]
    by_cases hk : k = l
    · subst hk
      rw [if_pos rfl, if_pos rfl, accountOf_lookup hq]
      dsimp only
      rw [hmarket]
      exact h.claim_account hsettled hq hexact hcap hrecord
    · rw [if_neg hk, if_neg hk]
      exact .other
  | @close k q hposition hbalance howed =>
    have hq := h.anchored k q hposition
    apply hother
    · simp [entry, hx]
    · by_cases hk : k = l
      · subst hk
        rw [accountOf_lookup hposition, LenderPosition.account, hbalance, howed, hq.zero_iff.1 howed]
        simp [accountOf]
      · unfold accountOf
        rw [Finmap.lookup_erase_ne (Ne.symm hk)]

/-- A claim does not change the factor. -/
theorem Step.factor_of_claim (hs : Step a p x.event p') (h : p.Ledger) {l : Address} {claimed : ℕ}
    (hclaim : entry a l x = .claim claimed) : p'.market.settlementFactorWad = p.market.settlementFactorWad := by
  by_contra hne
  rcases hs.fixes h hne with ⟨_, -, -, -, ⟨-, f, he⟩ | ⟨-, -, -, e, k, payout, scaled, he, hexit⟩⟩
  · simp [entry, he] at hclaim
  · rw [entry_of_isExit he hexit] at hclaim
    split at hclaim <;> cases hclaim

end Pool

end Coalesce
