import Coalesce.Account

/-!
# No first-mover advantage

The open haircut of a lender depends on the face value exited in distress and on the anchor, and on the history only
by rounding: up to one unit for every exit and claim.
-/

namespace Coalesce

open ProRata

/-- An account that has exited the face value `n` in distress, in `m` exits and claims; `exact` if no claim was
capped. -/
structure Account.Shared (n m s : ℕ) (exact : Prop) (c : Account) : Prop where
  clean : s < WAD → c.owed = 0 → n = 0
  lower : 0 < c.owed → n * (WAD - c.anchor) ≤ (c.owed + m) * WAD
  upper : exact → 0 < c.owed → c.owed * WAD ≤ n * (WAD - c.anchor) + m * WAD

namespace Account.Shared

variable {n m m' f s s₀ : ℕ} {exact exact' : Prop} {c c' : Account} {e : Entry}

theorem mono (h : c.Shared n m s₀ exact) (hm : m ≤ m') (hs : s₀ ≤ s) (he : exact' → exact) :
    c.Shared n m' s exact' where
  clean hlt := h.clean (hs.trans_lt hlt)
  lower hpos := (h.lower hpos).trans (Nat.mul_le_mul_right _ (Nat.add_le_add_left hm _))
  upper hexact hpos := (h.upper (he hexact) hpos).trans (Nat.add_le_add_left (Nat.mul_le_mul_right _ hm) _)

/-- In distress the bounds also hold where nothing is owed. -/
theorem lower_distress (h : c.Shared n m s exact) (hlt : s < WAD) : n * (WAD - c.anchor) ≤ (c.owed + m) * WAD := by
  rcases Nat.eq_zero_or_pos c.owed with h0 | h0
  · rw [h.clean hlt h0, Nat.zero_mul]
    exact Nat.zero_le _
  · exact h.lower h0

theorem upper_distress (h : c.Shared n m s exact) (hexact : exact) :
    c.owed * WAD ≤ n * (WAD - c.anchor) + m * WAD := by
  rcases Nat.eq_zero_or_pos c.owed with h0 | h0
  · rw [h0, Nat.zero_mul]
    exact Nat.zero_le _
  · exact h.upper hexact h0

theorem step (h : c.Shared n m s₀ exact) (hle : s₀ ≤ s) (hs : c.Step f s e c') (he : exact' → exact)
    (hclaim : exact' → ∀ claimed, e = .claim claimed → claimed = claimable WAD c.owed c.anchor s) :
    c'.Shared (n + if s < WAD then e.scaled * f / WAD else 0) (m + if e.served then 1 else 0) s exact' := by
  have hwad := WAD_pos
  cases hs with
  | other => simpa [Entry.scaled, Entry.served] using h.mono le_rfl hle he
  | deposit =>
    have h' := h.mono le_rfl hle he
    simp only [Entry.scaled, Entry.served, Nat.zero_mul, Nat.zero_div, ite_self, Nat.add_zero]
    exact ⟨h'.clean, h'.lower, h'.upper⟩
  | @exit scaled _ hpar =>
    have h' := h.mono (Nat.le_succ m) hle he
    have hface : (if s < WAD then (Entry.exit scaled (scaled * f / WAD)).scaled * f / WAD else 0) = 0 := by
      by_cases hlt : s < WAD
      · rw [if_pos hlt]
        exact hpar.resolve_left hlt.ne
      · rw [if_neg hlt]
    rw [hface, Nat.add_zero]
    exact ⟨h'.clean, h'.lower, h'.upper⟩
  | @gap scaled face pay hface hpay _ hgap hlt hanchor =>
    have h' := h.mono le_rfl hle he
    have ha : c.anchor < WAD := hanchor.trans_lt hlt
    obtain ⟨hrem, hrem'⟩ := remaining_bounds (h := c.owed) (s := s) ha
    obtain ⟨hgap, hgap'⟩ := gap_bounds hwad hlt.le face
    rw [← hpay] at hgap hgap'
    rw [if_pos hlt, show (Entry.exit scaled _).scaled * f / WAD = face from hface.symm]
    constructor
    · intro _ h0
      dsimp only at h0
      omega
    · intro _
      have hcarried := le_of_carried ha hanchor hrem'.le (h'.lower_distress hlt)
      calc (n + face) * (WAD - s) = n * (WAD - s) + face * (WAD - s) := add_mul _ _ _
        _ ≤ (remaining WAD c.owed c.anchor s + 1 + m) * WAD + (face - pay) * WAD := Nat.add_le_add hcarried hgap
        _ = (remaining WAD c.owed c.anchor s + (face - pay) + (m + 1)) * WAD := by ring
    · intro hexact _
      have hopen : remaining WAD c.owed c.anchor s * (WAD - c.anchor) ≤
          c.owed * (WAD - s) + 0 * (WAD - c.anchor) := by
        rwa [Nat.zero_mul, Nat.add_zero]
      have hcarried := carried_le ha hanchor hopen (h'.upper_distress hexact)
      calc (remaining WAD c.owed c.anchor s + (face - pay)) * WAD
          = remaining WAD c.owed c.anchor s * WAD + (face - pay) * WAD := add_mul _ _ _
        _ ≤ n * (WAD - s) + (m + 0) * WAD + (face * (WAD - s) + WAD) := Nat.add_le_add hcarried hgap'.le
        _ = (n + face) * (WAD - s) + (m + 1) * WAD := by ring
  | @claim claimed hclaimed hwad hanchor hfull =>
    have h' := h.mono le_rfl hle he
    have ha : c.anchor < WAD := hanchor.trans_le hwad
    obtain ⟨hc, hc'⟩ := claimable_bounds (h := c.owed) (s := s) ha
    have hsplit := mul_sub_add_mul_sub (h := c.owed) hanchor.le hwad
    have hpaid := Nat.mul_le_mul_right (WAD - c.anchor) hclaimed
    simp only [Entry.scaled, Entry.served, if_true, Nat.zero_mul, Nat.zero_div, ite_self, Nat.add_zero]
    constructor
    · -- a claim below par leaves something
      intro hlt h0
      dsimp only at h0
      rcases Nat.eq_zero_or_pos c.owed with hc0 | hc0
      · exact h'.clean hlt hc0
      · have hless := claimable_lt ha hc0 hlt
        omega
    · intro hpos
      have hlt : s < WAD := by
        apply lt_of_le_of_ne hwad
        intro hs
        simp [hfull hs] at hpos
      have hopen : c.owed * (WAD - s) ≤ (c.owed - claimed + 0) * (WAD - c.anchor) := by
        rw [Nat.add_zero, Nat.sub_mul]
        exact Nat.le_sub_of_add_le (by omega)
      have hcarried := le_of_carried ha hanchor.le hopen (h'.lower_distress hlt)
      rw [if_pos hpos]
      refine hcarried.trans (Nat.mul_le_mul_right _ ?_)
      dsimp only
      omega
    · intro hexact hpos
      have hopen : (c.owed - claimed) * (WAD - c.anchor) ≤ c.owed * (WAD - s) + 1 * (WAD - c.anchor) := by
        rw [hclaim hexact claimed rfl, Nat.sub_mul]
        rw [add_mul] at hc'
        omega
      have hcarried := carried_le ha hanchor.le hopen (h'.upper_distress hexact)
      rwa [if_pos hpos]

end Account.Shared

/-- The face value that a lender has taken out at factors below `WAD`. -/
def distressedFace (a l : Address) (hist : List Record) : ℕ :=
  (hist.map fun x => if x.post.settlementFactor a < WAD then
    (entry a l x).scaled * x.post.scaleFactor a / WAD else 0).sum

/-- The number of exits and claims of a lender. -/
def operationsOf (a l : Address) (hist : List Record) : ℕ := hist.countP fun x => (entry a l x).served

/-- If the step is a claim of the lender, then it pays all that can be claimed. -/
def Uncapped (a l : Address) (x : Record) : Prop :=
  ∀ claimed ma q, entry a l x = .claim claimed → x.pre.markets.lookup a = some ma → ma.positions.lookup l = some q →
    claimableNow ma.market q = .ok claimed

instance (a l : Address) (x : Record) : Decidable (Uncapped a l x) :=
  match h : entry a l x with
  | .claim claimed => decidable_of_iff (∀ ma ∈ x.pre.markets.lookup a, ∀ q ∈ ma.positions.lookup l,
      claimableNow ma.market q = .ok claimed) ⟨fun H c ma q hc hma hq => by
        obtain rfl := Entry.claim.inj (h.symm.trans hc)
        exact H ma hma q hq, fun H ma hma q hq => H claimed ma q h hma hq⟩
  | .other | .deposit _ | .exit _ _ => isTrue (by simp [Uncapped, h])

variable {w₀ w : World} {a l : Address} {ma : MarketAccounts} {q : LenderPosition} {hist : List Record}

private theorem shared_start (h : ∀ x ∈ hist, entry a l x = .other) (s : ℕ) (exact : Prop) :
    Account.Shared (distressedFace a l hist) (operationsOf a l hist) s exact ⟨0, 0, 0⟩ := by
  have hface : distressedFace a l hist = 0 := sum_entry_other
    (g := fun e x => if x.post.settlementFactor a < WAD then e.scaled * x.post.scaleFactor a / WAD else 0)
    (by simp [Entry.scaled]) h
  constructor
  · intro _ _
    exact hface
  · intro hpos
    exact absurd hpos (lt_irrefl 0)
  · intro _ hpos
    exact absurd hpos (lt_irrefl 0)

/-- The claim of a step that is not capped pays what the account can claim. -/
private theorem Uncapped.claimed_eq {x : Record} {p p' : Pool} (hx : Uncapped a l x) (hl : p.Ledger)
    (hp : x.pre.pool a = some p) (hs : Pool.Step a p x.event p')
    (hstep : (accountOf p.positions l).Step p'.market.scaleFactor p'.market.settlementFactorWad (entry a l x)
      (accountOf p'.positions l)) {claimed : ℕ} (hclaim : entry a l x = .claim claimed) :
    claimed = claimable WAD (accountOf p.positions l).owed (accountOf p.positions l).anchor
      p'.market.settlementFactorWad := by
  have hfactor := hs.factor_of_claim hl hclaim
  rw [hclaim] at hstep
  generalize hc' : accountOf p'.positions l = c' at hstep
  cases hstep with
  | claim hle hwad =>
    cases hq : p.positions.lookup l with
    | none =>
      have howed : (accountOf p.positions l).owed = 0 := by
        rw [accountOf, hq]
        rfl
      rw [claimable, howed, Nat.zero_mul, Nat.zero_div] at hle ⊢
      exact Nat.eq_zero_of_le_zero hle
    | some q =>
      have hexact := hl.exact_eq (hfactor ▸ hwad) hq (hx claimed _ q hclaim (World.pool_eq_some.1 hp).1 hq)
      rw [hexact, accountOf_lookup hq, hfactor]
      rfl

theorem Run.shared (hg : Genesis w₀) (r : Run w₀ hist w) {p : Pool} (hp : w.pool a = some p) (l : Address) :
    (accountOf p.positions l).Shared (distressedFace a l hist) (operationsOf a l hist) p.market.settlementFactorWad
      (∀ x ∈ hist, Uncapped a l x) := by
  refine Run.history_invariant (I := fun hist p => (accountOf p.positions l).Shared (distressedFace a l hist)
    (operationsOf a l hist) p.market.settlementFactorWad (∀ x ∈ hist, Uncapped a l x)) hg ?_ ?_ r hp
  · intro hist x q hbefore hevent hfresh
    rw [hfresh.account l]
    exact shared_start (entry_of_created hbefore hevent) _ _
  · intro hist x q q' hr hq hq' hstep ih
    have hl := Reachable.ledger hr hq
    obtain ⟨hpost, -⟩ := World.pool_eq_some.1 hq'
    have hscale : x.post.scaleFactor a = q'.market.scaleFactor := by rw [World.scaleFactor, hpost]; rfl
    have hfactor : x.post.settlementFactor a = q'.market.settlementFactorWad := by
      rw [World.settlementFactor, hpost]
      rfl
    have haccount := hstep.account hl hq hq' l
    have hnext := ih.step (hstep.factor_le hl) haccount
      (show (∀ y ∈ x :: hist, Uncapped a l y) → ∀ y ∈ hist, Uncapped a l y from fun h => (List.forall_mem_cons.1 h).2)
      fun h claimed hclaim => (List.forall_mem_cons.1 h).1.claimed_eq hl hq hstep haccount hclaim
    rw [distressedFace, operationsOf, List.map_cons, List.sum_cons, List.countP_cons, hscale, hfactor, add_comm]
    exact hnext

/-- An open haircut is the uncovered part of the face value that the lender has exited in distress, as if all of it
had been exited at the anchor, up to one unit for every exit and claim. -/
theorem haircut_history_free (hg : Genesis w₀) (r : Run w₀ hist w) (hma : w.markets.lookup a = some ma)
    (hq : ma.positions.lookup l = some q) (hpos : 0 < q.haircutOwed) :
    (distressedFace a l hist * (WAD - q.withdrawalSf) - operationsOf a l hist * WAD : ℤ) ≤ q.haircutOwed * WAD ∧
    ((∀ x ∈ hist, Uncapped a l x) →
      (q.haircutOwed * WAD : ℤ) ≤ distressedFace a l hist * (WAD - q.withdrawalSf) + operationsOf a l hist * WAD) := by
  have h := Run.shared hg r (World.pool_of_lookup hma) l
  have hlt := ((Reachable.books (r.reachable (.init hg)) hma).anchored l q hq).lt_wad
  dsimp only at h
  rw [accountOf_lookup hq] at h
  constructor
  · have hlower : distressedFace a l hist * (WAD - q.withdrawalSf) ≤ (q.haircutOwed + operationsOf a l hist) * WAD :=
      h.lower hpos
    zify [hlt.le] at hlower
    linarith
  · intro hexact
    have hupper : q.haircutOwed * WAD ≤
        distressedFace a l hist * (WAD - q.withdrawalSf) + operationsOf a l hist * WAD :=
      h.upper hexact hpos
    zify [hlt.le] at hupper
    exact hupper

namespace Sample

/-- Alice exits 4 units at one half, and claims 1 of the missing 2 at three quarters. -/
def halfClaimed : List Action := defaulted ++ [withdraw alice 4, repay 4, reSettle, claim alice]

end Sample

theorem haircut_history_free_halfClaimed :
    ∃ ma q, (Sample.genesis.performAll Sample.halfClaimed).markets.lookup Sample.market = some ma ∧
      ma.positions.lookup Sample.alice = some q ∧ q.haircutOwed = 1 ∧ q.withdrawalSf = 750000000000000000 ∧
      (∀ x ∈ Sample.genesis.history Sample.halfClaimed, Uncapped Sample.market Sample.alice x) ∧
      (4 * (WAD - 750000000000000000) - 2 * WAD : ℤ) ≤ 1 * WAD ∧
      (1 * WAD : ℤ) ≤ 4 * (WAD - 750000000000000000) + 2 * WAD := by
  obtain ⟨ma, hma, hx⟩ := Option.map_eq_some_iff.1
    (show ((Sample.genesis.performAll Sample.halfClaimed).markets.lookup Sample.market).map
      (fun ma => (ma.positions.lookup Sample.alice).map fun q => (q.haircutOwed, q.withdrawalSf)) =
      some (some (1, 750000000000000000)) by decide +kernel)
  obtain ⟨q, hq, hx⟩ := Option.map_eq_some_iff.1 hx
  obtain ⟨howed, hanchor⟩ := Prod.mk.inj hx
  have hface : distressedFace Sample.market Sample.alice (Sample.genesis.history Sample.halfClaimed) = 4 := by
    decide +kernel
  have hops : operationsOf Sample.market Sample.alice (Sample.genesis.history Sample.halfClaimed) = 2 := by
    decide +kernel
  have huncapped : ∀ x ∈ Sample.genesis.history Sample.halfClaimed, Uncapped Sample.market Sample.alice x := by
    decide +kernel
  obtain ⟨hlower, hupper⟩ := haircut_history_free Sample.genesis_initial (World.performAll_run _ Sample.halfClaimed)
    hma hq (by rw [howed]; decide)
  rw [hface, hops, howed, hanchor] at hlower hupper
  exact ⟨ma, q, hma, hq, howed, hanchor, huncapped, by exact_mod_cast hlower, by exact_mod_cast hupper huncapped⟩

end Coalesce
