import Coalesce.Exits

/-!
# Two ways to a recovery

What a haircut has recovered is paid by a claim, or with the next exit.  The claim rounds the recovered part down.
The exit rounds down what is still open, and pays the difference.  The two ways agree exactly if nothing is rounded.
-/

namespace Coalesce

open ProRata

variable {f s n claimed remaining pay₁ pay₂ : ℕ} {c c₁ c₂ c₂' : Account}

/-- A claim of all that has been recovered does not close the haircut below par, and an exit after it has nothing to
carry. -/
private theorem Account.Step.claim_then_exit (howed : 0 < c.owed) (hanchor : c.anchor < s) (hs : s < WAD)
    (hclaimed : claimed = claimable WAD c.owed c.anchor s) (hclaim : c.Step f s (.claim claimed) c₁)
    (hthen : c₁.Step f s (.exit n pay₁) c₂) (halone : c.Step f s (.exit n pay₂) c₂') (hpay : 0 < pay₁) :
    pay₂ = pay₁ + (c.owed - ProRata.remaining WAD c.owed c.anchor s) ∧ c₂.balance = c₂'.balance ∧
      c₂.anchor = c₂'.anchor ∧
      c₂.owed + ProRata.remaining WAD c.owed c.anchor s = c₂'.owed + (c.owed - claimed) := by
  have hlt : claimed < c.owed := hclaimed ▸ claimable_lt (hanchor.trans hs) howed hs
  have hrest : 0 < c.owed - claimed := by omega
  cases hclaim with
  | claim =>
    rw [if_pos hrest] at hthen
    cases hthen with
    | exit _ hpar => omega
    | @gap _ m pay hm hpay' _ hgap =>
      have hsame : ProRata.remaining WAD (c.owed - claimed) s s = c.owed - claimed := remaining_anchor hs
      dsimp only
      rw [hsame]
      cases halone with
      | exit _ hpar => omega
      | @gap _ m' pay' hm' hpay'' =>
        obtain rfl := hm.trans hm'.symm
        obtain rfl := hpay'.trans hpay''.symm
        dsimp only
        exact ⟨by omega, rfl, rfl, by omega⟩

namespace Pool

variable {p p₁ p₂ p₂' : Pool} {a l : Address} {e : Event} {x : Exit} {q : LenderPosition} {scaled scaled' : ℕ}
  {config config' : ProtocolConfig}

/-- A claim and then an exit, against the exit alone. -/
theorem Exits.after_claim (hl : p.Ledger) (hlt : p.market.settlementFactorWad < WAD)
    (hq : p.positions.lookup l = some q) (hclaim : Step a p (some e) p₁) (he : e.IsClaim a l claimed remaining)
    (huncapped : claimableExact q.haircutOwed q.withdrawalSf p.market.settlementFactorWad = .ok claimed)
    (hthen : p₁.Exits config l x scaled pay₁ p₂) (halone : p.Exits config' l x scaled' pay₂ p₂')
    (hmin : 0 < x.minimum) :
    (claimed + pay₁ = pay₂ ∧ p₂.exceptDeposits = p₂'.exceptDeposits ∧ p₂.vault = p₂'.vault) ↔
      WAD - q.withdrawalSf ∣ q.haircutOwed * (WAD - p.market.settlementFactorWad) := by
  have hl₁ := hclaim.ledger hl
  obtain ⟨q', exact, t, h0, hq', hexact, hcap, hrecord, hvault, -, rfl⟩ := hclaim.of_isClaim he
  obtain rfl := Option.some.inj (hq.symm.trans hq')
  obtain ⟨howed, hanchor, -⟩ := claimableNow_eq_ok.1 hexact
  have hb := hl.claimBalanced h0 hq hexact hcap hrecord
  have hfactor : t.market.settlementFactorWad = p.market.settlementFactorWad := by rw [hb.market]
  have hscale : t.market.scaleFactor = p.market.scaleFactor := by rw [hb.market]
  have hbalance : t.position.scaledBalance = q.scaledBalance := by rw [hb.position]
  have ha := (hl.anchored l q hq).lt_wad
  have hclaimed : claimed = ProRata.claimable WAD q.haircutOwed q.withdrawalSf p.market.settlementFactorWad := by
    rw [claimableExact_eq (hl.owed_u64 hq) ha hlt.le] at huncapped
    exact (Except.ok.inj huncapped).symm
  obtain ⟨_, q₂', o'⟩ := (halone.pays hl h0).outcome hl h0
  obtain rfl := Option.some.inj (hq.symm.trans o'.position)
  obtain ⟨q₁, q₂, o⟩ := (hthen.pays hl₁ (hfactor ▸ h0)).outcome hl₁ (hfactor ▸ h0)
  obtain rfl : t.position = q₁ := Option.some.inj ((Finmap.lookup_insert _).symm.trans o.position)
  obtain rfl : scaled = scaled' := by rw [o.units, o'.units, hbalance]
  have hstep := o.account
  dsimp only at hstep
  rw [hscale, hfactor] at hstep
  obtain ⟨hpaid, hbal, hsf, hopen⟩ := (hl.claim_account h0 hq hexact hcap hrecord).claim_then_exit
    (Nat.pos_of_ne_zero howed) hanchor hlt hclaimed hstep o'.account (hmin.trans_le o.minimum)
  have hrem := remaining_le (u := WAD) (h := q.haircutOwed) hanchor.le
  have hcle := claimable_le (u := WAD) (h := q.haircutOwed) (a := q.withdrawalSf) hlt.le
  have hexactly := claimable_add_remaining_eq_iff (h := q.haircutOwed) ha hanchor.le hlt.le
  rw [← hclaimed] at hexactly hcle
  rw [← hexactly]
  dsimp only [LenderPosition.account] at hpaid hbal hsf hopen
  constructor
  · rintro ⟨htotal, -, -⟩
    omega
  · intro hsum
    have hq₂ : q₂ = q₂' := by
      refine LenderPosition.eq_of_account ?_ ?_ ?_
      · simp only [LenderPosition.account, Account.mk.injEq]
        exact ⟨hbal, by omega, hsf⟩
      · rw [o.address.1, o'.address.1, hb.position]
      · rw [o.address.2, o'.address.2, hb.position]
    subst hq₂
    have htotal : claimed + pay₁ = pay₂ := by omega
    refine ⟨htotal, Pool.exceptDeposits_eq ?_ ?_ ?_, ?_⟩
    · have howed₁ := hb.owed
      have howed₂ := o.owed
      have howed₂' := o'.owed
      rw [o.market, o'.market]
      dsimp only at howed₂ ⊢
      rw [hb.market]
      simp only [Market.mk.injEq, true_and]
      omega
    · have hweight₁ := hb.weight
      have hweight₂ := o.weight
      have hweight₂' := o'.weight
      have hoffset₁ := hb.offset
      have hoffset₂ := o.offset
      have hoffset₂' := o'.offset
      dsimp only at hweight₂ hoffset₂
      refine HaircutState.eq_of_parts ?_ (by omega) (by omega)
      rw [o.haircutState, o'.haircutState]
      exact hb.haircutState
    · rw [o.positions, o'.positions]
      exact Finmap.insert_insert _
    · rw [o.vault, o'.vault, ← htotal]
      exact Nat.sub_sub _ _ _

end Pool

variable {w wc w₁ w₂ : World} {a l : Address} {ma : MarketAccounts} {q : LenderPosition} {scaled : ℕ}

/-- A claim that the vault surplus does not limit, and then a withdrawal, against the withdrawal alone: they pay and
leave the same if and only if the recovered part of the haircut is a whole number. -/
theorem recovery_paths_agree_iff (h : Reachable w) (hma : w.markets.lookup a = some ma)
    (hq : ma.positions.lookup l = some q) (hlt : ma.market.settlementFactorWad < WAD)
    (huncapped : claimableExact q.haircutOwed q.withdrawalSf ma.market.settlementFactorWad = .ok claimed)
    (hclaim : Step w (some (.claimHaircut a l claimed remaining)) wc)
    (hthen : ExitStep wc a l (.withdraw scaled) pay₁ w₁) (halone : ExitStep w a l (.withdraw scaled) pay₂ w₂) :
    ((claimed + pay₁ = pay₂ ∧
        (w₁.markets.lookup a).map MarketAccounts.exceptDeposits =
          (w₂.markets.lookup a).map MarketAccounts.exceptDeposits ∧
        w₁.tokens.amount (.vault a) = w₂.tokens.amount (.vault a)) ↔
      WAD - q.withdrawalSf ∣ q.haircutOwed * (WAD - ma.market.settlementFactorWad)) ∧
    ∃ rebased, rebaseRemainingOwed q.haircutOwed q.withdrawalSf ma.market.settlementFactorWad = .ok rebased ∧
      (q.haircutOwed - rebased = claimed ↔
        WAD - q.withdrawalSf ∣ q.haircutOwed * (WAD - ma.market.settlementFactorWad)) := by
  have hw := Reachable.wellFormed h
  have hl := Reachable.ledger h (World.pool_of_lookup hma)
  obtain ⟨ha, hanchor, -, -⟩ : q.Anchored ma.market.settlementFactorWad := hl.anchored l q hq
  constructor
  · obtain ⟨_, config, p₁, p₂, -, m₁, e₁⟩ := hthen.exits (hw.step hclaim)
    obtain ⟨_, config', p, p₂', -, m₂, e₂⟩ := halone.exits hw
    have sclaim := hclaim.pool_step hw m₂.pre m₁.pre
    obtain rfl : p.toMarketAccounts = ma := Option.some.inj ((World.pool_eq_some.1 m₂.pre).1.symm.trans hma)
    obtain ⟨hma₁, -, hvault₁⟩ := World.pool_eq_some.1 m₁.post
    obtain ⟨hma₂, -, hvault₂⟩ := World.pool_eq_some.1 m₂.post
    have hiff := e₁.after_claim (Reachable.ledger h m₂.pre) hlt hq sclaim (.inl rfl) huncapped e₂ Nat.one_pos
    rw [hma₁, hma₂, ← hvault₁, ← hvault₂, Option.map_some, Option.map_some, Option.some.injEq]
    exact hiff
  · have hexactly := claimable_add_remaining_eq_iff (h := q.haircutOwed) ha hanchor hlt.le
    have hrem := remaining_le (u := WAD) (h := q.haircutOwed) hanchor
    rw [claimableExact_eq (hl.owed_u64 hq) ha hlt.le, Except.ok.injEq] at huncapped
    rw [huncapped] at hexactly
    refine ⟨_, rebaseRemainingOwed_eq (hl.owed_u64 hq) ha hanchor hlt.le, ?_⟩
    rw [← hexactly]
    omega

namespace Sample

/-- Of the 2 that Alice is owed at one half exactly 1 has been recovered at three quarters. -/
def recovered : List Action := defaulted ++ [withdraw alice 4, repay 4, reSettle]

/-- Of the 3 that Bob is owed at one half one and a half have been recovered at three quarters. -/
def halfRecovered : List Action := defaulted ++ [withdraw bob 6, repay 4, reSettle]

end Sample

theorem recovery_paths_agree_iff_recovered :
    ((((Sample.genesis.performAll Sample.recovered).performAll [Sample.claim Sample.alice]).performAll
        [Sample.withdraw Sample.alice 2]).markets.lookup Sample.market).map MarketAccounts.exceptDeposits =
      (((Sample.genesis.performAll Sample.recovered).performAll [Sample.withdraw Sample.alice 2]).markets.lookup
        Sample.market).map MarketAccounts.exceptDeposits := by
  obtain ⟨ma, hma, hx⟩ := Option.map_eq_some_iff.1
    (show ((Sample.genesis.performAll Sample.recovered).markets.lookup Sample.market).map (fun ma =>
      (ma.market.settlementFactorWad,
        (ma.positions.lookup Sample.alice).map fun q => (q.haircutOwed, q.withdrawalSf))) =
      some (750000000000000000, some (2, 500000000000000000)) by decide +kernel)
  obtain ⟨hfactor, hq⟩ := Prod.mk.inj hx
  obtain ⟨q, hq, hhaircut⟩ := Option.map_eq_some_iff.1 hq
  obtain ⟨howed, hanchor⟩ := Prod.mk.inj hhaircut
  obtain ⟨hclaim, -⟩ := World.performAll_single
    (show ((Sample.genesis.performAll Sample.recovered).perform (Sample.claim Sample.alice)).map Prod.snd =
      some (some (.claimHaircut Sample.market Sample.alice 1 1)) by decide +kernel)
  have hthen : ExitStep _ Sample.market Sample.alice (.withdraw 2) 1
      (((Sample.genesis.performAll Sample.recovered).performAll [Sample.claim Sample.alice]).performAll
        [Sample.withdraw Sample.alice 2]) := Sample.withdraw_exit 2 (by decide) (by decide +kernel)
  have halone : ExitStep (Sample.genesis.performAll Sample.recovered) Sample.market Sample.alice (.withdraw 2) 2 _ :=
    Sample.withdraw_exit 2 (by decide) (by decide +kernel)
  obtain ⟨hiff, -⟩ := recovery_paths_agree_iff (World.performAll_reachable Sample.genesis_reachable _) hma hq
    (by rw [hfactor]; decide) (by rw [hfactor, howed, hanchor]; decide) hclaim hthen halone
  rw [hfactor, howed, hanchor] at hiff
  exact (hiff.2 (by decide)).2.1

/-- Bob claims 1 and then takes 2 units out for 1, or takes them out at once for 3. -/
theorem recovery_paths_differ_halfRecovered :
    ∃ wc w₁ w₂, Step (Sample.genesis.performAll Sample.halfRecovered)
        (some (.claimHaircut Sample.market Sample.bob 1 2)) wc ∧
      claimableExact 3 500000000000000000 750000000000000000 = .ok 1 ∧
      ((Sample.genesis.performAll Sample.halfRecovered).markets.lookup Sample.market).map (fun ma =>
        (ma.market.settlementFactorWad,
          (ma.positions.lookup Sample.bob).map fun q => (q.haircutOwed, q.withdrawalSf))) =
          some (750000000000000000, some (3, 500000000000000000)) ∧
      ExitStep wc Sample.market Sample.bob (.withdraw 2) 1 w₁ ∧
      ExitStep (Sample.genesis.performAll Sample.halfRecovered) Sample.market Sample.bob (.withdraw 2) 3 w₂ ∧
      1 + 1 ≠ 3 := by
  obtain ⟨hclaim, -⟩ := World.performAll_single
    (show ((Sample.genesis.performAll Sample.halfRecovered).perform (Sample.claim Sample.bob)).map Prod.snd =
      some (some (.claimHaircut Sample.market Sample.bob 1 2)) by decide +kernel)
  exact ⟨_, _, _, hclaim, by decide, by decide +kernel, Sample.withdraw_exit 2 (by decide) (by decide +kernel),
    Sample.withdraw_exit 2 (by decide) (by decide +kernel), by decide⟩

end Coalesce
