import Coalesce.Conservation
import Coalesce.Exits

/-!
# What a lender gets back

`value_conserved` bounds what a lender can get by the deposits with their interest.  Here is the other side: rounding
takes less than one unit off every deposit and less than one token off every exit, and nothing else is lost.
-/

namespace Coalesce

namespace Entry

def isDeposit : Entry → Bool
  | deposit _ => true
  | _ => false

def isExit : Entry → Bool
  | exit .. => true
  | _ => false

end Entry

/-- The number of deposits of a lender. -/
def depositsOf (a l : Address) (hist : List Record) : ℕ := hist.countP fun x => (entry a l x).isDeposit

/-- The number of exits of a lender. -/
def exitsOf (a l : Address) (hist : List Record) : ℕ := hist.countP fun x => (entry a l x).isExit

namespace Account.Step

variable {f s : ℕ} {c c' : Account} {e : Entry}

/-- A deposit credits its units but for less than one. -/
theorem units_lt (h : c.Step f s e c') (hf : 0 < f) :
    (WAD * (e.amount / f) : ℚ) ≤ c'.balance + e.scaled - c.balance + if e.isDeposit then 1 else 0 := by
  have hunits : (c'.balance + e.scaled : ℚ) = c.balance + (e.amount * WAD / f : ℕ) := by exact_mod_cast h.units
  have hpos : (0 : ℚ) < f := by exact_mod_cast hf
  cases h with
  | deposit amount =>
    have hlt : (amount * WAD : ℚ) < f * ((amount * WAD / f : ℕ) + 1) := by
      exact_mod_cast Nat.lt_mul_div_succ (amount * WAD) hf
    have hle : (WAD * (amount / f) : ℚ) ≤ (amount * WAD / f : ℕ) + 1 := by
      rw [← mul_div_assoc, div_le_iff₀ hpos]
      linarith
    simp only [Entry.amount, Entry.isDeposit, if_true] at hunits ⊢
    linarith
  | other | exit | gap | claim =>
    simp only [Entry.amount, Entry.isDeposit, Nat.zero_mul, Nat.zero_div, Nat.cast_zero, zero_div, mul_zero,
      Bool.false_eq_true, if_false] at hunits ⊢
    linarith

end Account.Step

/-- Only an exit takes units out. -/
theorem Entry.scaled_le (e : Entry) (f : ℕ) :
    e.scaled * f ≤ (e.scaled * f / WAD + if e.isExit then 1 else 0) * WAD := by
  cases e with
  | exit scaled =>
    rw [mul_comm _ WAD]
    exact (Nat.lt_mul_div_succ (scaled * f) WAD_pos).le
  | other | deposit | claim => simp [scaled]

variable {w₀ w : World} {a l : Address} {p p' : Pool} {hist : List Record} {x : Record}

/-- An exit settles the market. -/
theorem Pool.Step.unsettled_scaled (hs : Pool.Step a p x.event p') (h0 : p'.market.settlementFactorWad = 0) :
    (entry a l x).scaled = 0 := by
  obtain ⟨pre, e, post⟩ := x
  cases hs with
  | idle he => rw [entry_of_market_ne he]; rfl
  | exit _ _ hsettles _ _ _ _ htracks _ _ he =>
    dsimp only at h0
    rw [htracks.shape.market] at h0
    exact absurd h0 hsettles.ne_zero
  | claim _ _ _ _ _ _ he =>
    rw [entry_of_isClaim rfl he]
    split <;> rfl
  | deposit =>
    unfold entry
    dsimp only
    split <;> rfl
  | _ => rfl

/-- What a history says about the roundings of a lender: less than a unit for each deposit, and less than a token for
each exit. -/
structure Rounded (a l : Address) (hist : List Record) (p : Pool) : Prop where
  units : WAD * invested a l hist ≤ exitedUnits a l hist + (accountOf p.positions l).balance + depositsOf a l hist
  face : exitedUnits a l hist * p.market.scaleFactor ≤ (exitedFace a l hist + exitsOf a l hist) * WAD
  unsettled : p.market.settlementFactorWad = 0 → exitedUnits a l hist = 0

theorem Run.rounded (hg : Genesis w₀) (r : Run w₀ hist w) (hp : w.pool a = some p) (l : Address) :
    Rounded a l hist p := by
  refine Run.history_invariant (I := fun hist p => Rounded a l hist p) hg ?_ ?_ r hp
  · intro hist x q hbefore hevent hfresh
    have hother := entry_of_created (l := l) hbefore hevent
    have hunits : exitedUnits a l (x :: hist) = 0 := sum_entry_other (g := fun e _ => e.scaled) (fun _ => rfl) hother
    have hinvested : invested a l (x :: hist) = 0 :=
      sum_entry_other (g := fun e x => (e.amount : ℚ) / x.post.scaleFactor a) (by simp [Entry.amount]) hother
    refine ⟨?_, by rw [hunits, Nat.zero_mul]; exact Nat.zero_le _, fun _ => hunits⟩
    rw [hinvested, mul_zero]
    positivity
  · intro hist x q q' hr hq hq' hstep ih
    have hl := Reachable.ledger hr hq
    have hl' := hstep.ledger hl
    have hf : x.post.scaleFactor a = q'.market.scaleFactor := by
      rw [World.scaleFactor, (World.pool_eq_some.1 hq').1]
      rfl
    have haccount := hstep.account hl hq hq' l
    refine ⟨?_, ?_, ?_⟩
    · have hunits := ih.units
      have hlt := haccount.units_lt (WAD_pos.trans_le hl'.wad_le)
      simp only [invested, exitedUnits, depositsOf, List.map_cons, List.sum_cons, List.countP_cons, hf] at hunits ⊢
      push_cast at hunits hlt ⊢
      linarith
    · have hscaled := (entry a l x).scaled_le q'.market.scaleFactor
      have hface : exitedUnits a l hist * q'.market.scaleFactor ≤ (exitedFace a l hist + exitsOf a l hist) * WAD := by
        by_cases h0 : q.market.settlementFactorWad = 0
        · rw [ih.unsettled h0, Nat.zero_mul]
          exact Nat.zero_le _
        · rw [(hstep.later hl h0).1.scaleFactor]
          exact ih.face
      simp only [exitedUnits, exitedFace, exitsOf, List.map_cons, List.sum_cons, List.countP_cons, hf] at hface ⊢
      linarith
    · intro h0
      have hzero := ih.unsettled (Nat.eq_zero_of_le_zero (h0 ▸ hstep.factor_le hl))
      simp only [exitedUnits, List.map_cons, List.sum_cons] at hzero ⊢
      rw [hstep.unsettled_scaled h0, hzero]

/-- What a lender has received and is owed, with the value of the remaining units, is at least what the deposits have
grown to, but for one token for each exit and one unit for each deposit. -/
theorem lender_return (hg : Genesis w₀) (r : Run w₀ hist w) {ma : MarketAccounts}
    (hma : w.markets.lookup a = some ma) (l : Address) :
    (hist.map fun x => ((entry a l x).amount * ma.market.scaleFactor / x.post.scaleFactor a : ℚ)).sum ≤
      received a l hist + (accountOf ma.positions l).owed +
        (accountOf ma.positions l).balance * ma.market.scaleFactor / WAD + exitsOf a l hist +
        depositsOf a l hist * ma.market.scaleFactor / WAD := by
  have h := Run.rounded hg r (World.pool_of_lookup hma) l
  have hconserved := (Run.conserved hg r (World.pool_of_lookup hma) l).received_add_owed
  have hwad : (0 : ℚ) < WAD := by exact_mod_cast WAD_pos
  have hsum : (hist.map fun x => ((entry a l x).amount * ma.market.scaleFactor / x.post.scaleFactor a : ℚ)).sum =
      invested a l hist * ma.market.scaleFactor := by
    rw [invested, ← List.sum_map_mul_right]
    simp only [div_mul_eq_mul_div]
  have hunits := mul_le_mul_of_nonneg_right h.units (Nat.cast_nonneg ma.market.scaleFactor : (0 : ℚ) ≤ _)
  have hface : (exitedUnits a l hist * ma.market.scaleFactor : ℚ) ≤ (exitedFace a l hist + exitsOf a l hist) * WAD := by
    exact_mod_cast h.face
  have hreceived : (received a l hist + (accountOf ma.positions l).owed : ℚ) = exitedFace a l hist := by
    exact_mod_cast hconserved
  rw [hsum, hreceived]
  refine le_of_mul_le_mul_right ?_ hwad
  field_simp
  dsimp only at hunits
  linarith

/-- Over a year 10 have grown to 27.1; Bob got 27. -/
theorem lender_return_drained :
    ∃ ma, (Sample.genesis.performAll Sample.drained).markets.lookup Sample.market = some ma ∧
      ((Sample.genesis.history Sample.drained).map fun x => ((entry Sample.market Sample.bob x).amount *
        ma.market.scaleFactor / x.post.scaleFactor Sample.market : ℚ)).sum ≤
          27 + 1 + ma.market.scaleFactor / WAD := by
  obtain ⟨ma, hma, hx⟩ := Option.map_eq_some_iff.1
    (show ((Sample.genesis.performAll Sample.drained).markets.lookup Sample.market).map
      (fun ma => ((accountOf ma.positions Sample.bob).owed, (accountOf ma.positions Sample.bob).balance)) = some (0, 0)
      by decide +kernel)
  obtain ⟨howed, hbalance⟩ := Prod.mk.inj hx
  have hreceived : received Sample.market Sample.bob (Sample.genesis.history Sample.drained) = 27 := by decide +kernel
  have hexits : exitsOf Sample.market Sample.bob (Sample.genesis.history Sample.drained) = 1 := by decide +kernel
  have hdeposits : depositsOf Sample.market Sample.bob (Sample.genesis.history Sample.drained) = 1 := by decide +kernel
  have hreturn := lender_return Sample.genesis_initial (World.performAll_run _ Sample.drained) hma Sample.bob
  rw [howed, hbalance, hreceived, hexits, hdeposits] at hreturn
  refine ⟨ma, hma, hreturn.trans (le_of_eq ?_)⟩
  push_cast
  ring

end Coalesce
