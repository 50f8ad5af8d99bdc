import Coalesce.Account
import Mathlib.Algebra.BigOperators.Ring.List

/-!
# Every lender gets what the exits are worth

An exit splits its face value into a payout and a gap, and a claim moves a part of the gap to what the lender has
received.  Both are exact: the roundings decide how the face value is split, never what it adds up to.
-/

namespace Coalesce

open ProRata

namespace Account.Step

variable {f s : ℕ} {c c' : Account} {e : Entry}

theorem paid_add_owed (h : c.Step f s e c') : e.paid + c'.owed = c.owed + e.scaled * f / WAD := by
  cases h with
  | other | deposit => simp [Entry.paid, Entry.scaled]
  | exit => exact Nat.add_comm _ _
  | @gap scaled n pay hn hpay hle hgap hlt hanchor =>
    have hrem := remaining_le (u := WAD) (h := c.owed) hanchor
    simp only [Entry.paid, Entry.scaled, ← hn]
    omega
  | @claim claimed hle hwad =>
    have hclaim := claimable_le (h := c.owed) (a := c.anchor) hwad
    simp only [Entry.paid, Entry.scaled, Nat.zero_mul, Nat.zero_div]
    omega

theorem units (h : c.Step f s e c') : c'.balance + e.scaled = c.balance + e.amount * WAD / f := by
  cases h with
  | other | claim => simp [Entry.scaled, Entry.amount]
  | deposit => exact Nat.add_zero _
  | exit hle | gap _ _ hle =>
    simp only [Entry.scaled, Entry.amount, Nat.zero_mul, Nat.zero_div]
    omega

end Account.Step

/-- What a lender has received by exits and claims. -/
def received (a l : Address) (hist : List Record) : ℕ := (hist.map fun x => (entry a l x).paid).sum

/-- The face value that a lender has taken out. -/
def exitedFace (a l : Address) (hist : List Record) : ℕ :=
  (hist.map fun x => (entry a l x).scaled * x.post.scaleFactor a / WAD).sum

/-- The units that a lender has taken out. -/
def exitedUnits (a l : Address) (hist : List Record) : ℕ := (hist.map fun x => (entry a l x).scaled).sum

/-- The deposits of a lender, each at its scale factor. -/
def invested (a l : Address) (hist : List Record) : ℚ :=
  (hist.map fun x => ((entry a l x).amount : ℚ) / x.post.scaleFactor a).sum

/-- What a history says about the account of a lender at the scale factor `f`. -/
structure Conserved (a l : Address) (hist : List Record) (f : ℕ) (c : Account) : Prop where
  received_add_owed : received a l hist + c.owed = exitedFace a l hist
  face_le : exitedFace a l hist * WAD ≤ exitedUnits a l hist * f
  units_le : (exitedUnits a l hist + c.balance : ℚ) ≤ WAD * invested a l hist

variable {w₀ w : World} {a l : Address} {ma : MarketAccounts} {hist : List Record} {x : Record} {f f' s : ℕ}
  {c c' : Account}

theorem Conserved.cons (h : Conserved a l hist f c) (hle : f ≤ f') (hf : x.post.scaleFactor a = f')
    (hs : c.Step f' s (entry a l x) c') : Conserved a l (x :: hist) f' c' := by
  constructor
  · have hpaid := hs.paid_add_owed
    have hsum := h.received_add_owed
    simp only [received, exitedFace, List.map_cons, List.sum_cons, hf] at *
    omega
  · have hface := h.face_le
    have hfloor := Nat.div_mul_le_self ((entry a l x).scaled * f') WAD
    have hgrow := Nat.mul_le_mul_left (exitedUnits a l hist) hle
    simp only [exitedFace, exitedUnits, List.map_cons, List.sum_cons, hf, add_mul] at *
    omega
  · have hunits := hs.units
    have hsum := h.units_le
    have hdiv : ((entry a l x).amount * WAD / f' : ℕ) ≤ (WAD * ((entry a l x).amount / f') : ℚ) := by
      refine Nat.cast_div_le.trans (le_of_eq ?_)
      push_cast
      ring
    have hunits' : (c'.balance + (entry a l x).scaled : ℚ) = c.balance + ((entry a l x).amount * WAD / f' : ℕ) := by
      exact_mod_cast hunits
    simp only [invested, exitedUnits, List.map_cons, List.sum_cons, hf] at *
    push_cast at *
    linarith

private theorem Conserved.start (h : ∀ x ∈ hist, entry a l x = .other) (f : ℕ) : Conserved a l hist f ⟨0, 0, 0⟩ := by
  have hreceived : received a l hist = 0 := sum_entry_other (g := fun e _ => e.paid) (fun _ => rfl) h
  have hface : exitedFace a l hist = 0 :=
    sum_entry_other (g := fun e x => e.scaled * x.post.scaleFactor a / WAD) (by simp [Entry.scaled]) h
  have hunits : exitedUnits a l hist = 0 := sum_entry_other (g := fun e _ => e.scaled) (fun _ => rfl) h
  have hinvested : invested a l hist = 0 :=
    sum_entry_other (g := fun e x => (e.amount : ℚ) / x.post.scaleFactor a) (by simp [Entry.amount]) h
  constructor
  · rw [hreceived, hface, Nat.zero_add]
  · rw [hface, Nat.zero_mul]
    exact Nat.zero_le _
  · rw [hunits, hinvested]
    simp

/-- The history of a market conserves the value of every account. -/
theorem Run.conserved (hg : Genesis w₀) (r : Run w₀ hist w) {p : Pool} (hp : w.pool a = some p) (l : Address) :
    Conserved a l hist p.market.scaleFactor (accountOf p.positions l) := by
  refine Run.history_invariant (I := fun hist p => Conserved a l hist p.market.scaleFactor (accountOf p.positions l)) hg
    ?_ ?_ r hp
  · intro hist x q hbefore hevent hfresh
    rw [hfresh.account l]
    exact Conserved.start (entry_of_created hbefore hevent) _
  · intro hist x q q' hr hq hq' hstep ih
    have hl := Reachable.ledger hr hq
    have hf : x.post.scaleFactor a = q'.market.scaleFactor := by
      rw [World.scaleFactor, (World.pool_eq_some.1 hq').1]
      rfl
    exact ih.cons hstep.scaleFactor_le hf (hstep.account hl hq hq' l)

/-- What a lender has received by exits and claims, together with the open haircut, is the face value of the exits.
With the face value of the remaining units it never exceeds the deposits with their interest. -/
theorem value_conserved (hg : Genesis w₀) (r : Run w₀ hist w) (hma : w.markets.lookup a = some ma) (l : Address) :
    received a l hist + (accountOf ma.positions l).owed = exitedFace a l hist ∧
    (received a l hist + (accountOf ma.positions l).owed +
        (accountOf ma.positions l).balance * ma.market.scaleFactor / WAD : ℕ) ≤
      (hist.map fun x => ((entry a l x).amount * ma.market.scaleFactor / x.post.scaleFactor a : ℚ)).sum := by
  have h := Run.conserved hg r (World.pool_of_lookup hma) l
  refine ⟨h.received_add_owed, ?_⟩
  rw [h.received_add_owed]
  -- both parts of the face value are rounded down, and so are the units of every deposit
  have hface := h.face_le
  have hfloor := Nat.div_mul_le_self ((accountOf ma.positions l).balance * ma.market.scaleFactor) WAD
  have hunits := mul_le_mul_of_nonneg_right h.units_le (Nat.cast_nonneg ma.market.scaleFactor : (0 : ℚ) ≤ _)
  have hwad : (0 : ℚ) < WAD := by exact_mod_cast WAD_pos
  have hsum : (hist.map fun x => ((entry a l x).amount * ma.market.scaleFactor / x.post.scaleFactor a : ℚ)).sum =
      invested a l hist * ma.market.scaleFactor := by
    rw [invested, ← List.sum_map_mul_right]
    simp only [div_mul_eq_mul_div]
  rw [hsum]
  refine le_of_mul_le_mul_right ?_ hwad
  have hnat : (exitedFace a l hist + (accountOf ma.positions l).balance * ma.market.scaleFactor / WAD) * WAD ≤
      exitedUnits a l hist * ma.market.scaleFactor + (accountOf ma.positions l).balance * ma.market.scaleFactor := by
    rw [add_mul]
    exact Nat.add_le_add hface hfloor
  have hcast :
      ((exitedFace a l hist + (accountOf ma.positions l).balance * ma.market.scaleFactor / WAD : ℕ) * WAD : ℚ) ≤
      exitedUnits a l hist * ma.market.scaleFactor + (accountOf ma.positions l).balance * ma.market.scaleFactor := by
    exact_mod_cast hnat
  linarith

/-- Alice has exited 2 of her 6 units for 1, and 1 is owed. -/
theorem value_conserved_restored :
    ∃ ma, (Sample.genesis.performAll Sample.restored).markets.lookup Sample.market = some ma ∧
      received Sample.market Sample.alice (Sample.genesis.history Sample.restored) = 1 ∧
      1 + 1 = exitedFace Sample.market Sample.alice (Sample.genesis.history Sample.restored) ∧
      ((1 + 1 + 4 : ℕ) : ℚ) ≤ ((Sample.genesis.history Sample.restored).map fun x =>
        ((entry Sample.market Sample.alice x).amount * ma.market.scaleFactor /
          x.post.scaleFactor Sample.market : ℚ)).sum := by
  obtain ⟨ma, hma, hx⟩ := Option.map_eq_some_iff.1
    (show ((Sample.genesis.performAll Sample.restored).markets.lookup Sample.market).map
      (fun ma => ((accountOf ma.positions Sample.alice).owed,
        (accountOf ma.positions Sample.alice).balance * ma.market.scaleFactor / WAD)) = some (1, 4) by decide +kernel)
  obtain ⟨howed, hface⟩ := Prod.mk.inj hx
  have hreceived : received Sample.market Sample.alice (Sample.genesis.history Sample.restored) = 1 := by decide +kernel
  obtain ⟨hconserved, hle⟩ := value_conserved Sample.genesis_initial (World.performAll_run _ Sample.restored) hma
    Sample.alice
  rw [howed, hreceived] at hconserved
  rw [howed, hreceived, hface] at hle
  exact ⟨ma, hma, hreceived, hconserved, hle⟩

end Coalesce
