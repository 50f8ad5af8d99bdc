import Coalesce.Custody
import Coalesce.Exits

/-!
# The blacklist

Whoever the blacklist stops can neither create a market, deposit, borrow, withdraw nor take out the excess.  Claims and
repayments are not checked, and a borrower may still close the position of a lender that is stopped.
`blacklisted_excluded` says what this comes to over a run: the debt of the address does not grow, and its units leave
only by the forced exits.
-/

namespace Coalesce

/-- The blacklist stops the address. -/
def World.Blacklists (w : World) (x : Address) : Prop := ∀ c, w.config = some c → ¬w.NotBlacklisted c x

/-- The address for which an instruction checks the blacklist. -/
def Event.screened : Event → Option Address
  | createMarket _ b _ | borrow _ b _ | withdrawExcess _ b _ => some b
  | deposit _ l _ _ | withdraw _ l _ _ => some l
  | _ => none

/-- The units that the borrower of `a` forces out for the lender `l`. -/
def Event.forced (a l : Address) : Event → ℕ
  | forceClose b k _ scaled => if b = a ∧ k = l then scaled else 0
  | _ => 0

def forcedUnits (a l : Address) (hist : List Record) : ℕ :=
  (hist.map fun x => x.event.elim 0 (Event.forced a l)).sum

variable {w w' : World} {a l : Address} {hist : List Record}

/-- Without a deposit the units of an account go down by what is taken out. -/
theorem Account.Step.balance {f s : ℕ} {c c' : Account} {e : Entry} (h : c.Step f s e c') (hd : ∀ n, e ≠ .deposit n) :
    c'.balance + e.scaled = c.balance := by
  cases h with
  | other | claim => rfl
  | deposit n => exact absurd rfl (hd n)
  | exit hle => exact Nat.sub_add_cancel hle
  | gap _ _ hle => exact Nat.sub_add_cancel hle

theorem MarketOrder.screened {signed : Address → Prop} {c : ProtocolConfig} {e : Event} {t : TokenLedger}
    (h : MarketOrder w signed c a e t) (hl : e.screened = some l) : w.NotBlacklisted c l := by
  cases h with
  | createMarket _ _ hclear | deposit hclear | borrow _ _ _ _ hclear | withdraw _ hclear
    | withdrawExcess _ _ _ hclear => exact Option.some.inj hl ▸ hclear
  | _ => cases hl

theorem Authorized.screened {signed : Address → Prop} {e : Event} (h : Authorized w signed e w')
    (hl : e.screened = some l) : ∃ c, w.config = some c ∧ w.NotBlacklisted c l := by
  cases h with
  | initializes | lists => cases hl
  | administers _ _ h => cases h <;> cases hl
  | market hconfig _ _ h => exact ⟨_, hconfig, h.screened hl⟩

/-- No instruction that succeeds checked an address that the blacklist stops. -/
theorem Step.not_screened {e : Option Event} (hw : WellFormed w) (h : Step w e w') (hb : w.Blacklists l) :
    e.bind Event.screened ≠ some l := by
  intro hl
  obtain ⟨f, rfl, hf⟩ := Option.bind_eq_some_iff.1 hl
  cases h with
  | instruction _ hok =>
    obtain ⟨c, hconfig, hclear⟩ := (processInstruction_authorized hw hok).screened hf
    exact hb c hconfig hclear

/-- Of the steps that were not checked for `l`, only a forced exit moves its units. -/
theorem entry_of_not_screened {x : Record} (h : x.event.bind Event.screened ≠ some l) :
    (∀ n, entry a l x ≠ .deposit n) ∧ (entry a l x).scaled = x.event.elim 0 (Event.forced a l) := by
  unfold entry
  cases he : x.event with
  | none => exact ⟨fun _ => Entry.noConfusion, rfl⟩
  | some e =>
    rw [he, Option.bind_some] at h
    have hne {b k : Address} (hk : some k ≠ some l) : ¬(b = a ∧ k = l) := fun hbk => hk (congrArg some hbk.2)
    cases e with
    | deposit b k n scaled =>
      simp only [if_neg (hne (b := b) h)]
      exact ⟨fun _ => Entry.noConfusion, rfl⟩
    | withdraw b k payout scaled =>
      simp only [if_neg (hne (b := b) h)]
      exact ⟨fun _ => Entry.noConfusion, rfl⟩
    | forceClose b k payout scaled | claimHaircut b k claimed remaining | forceClaimHaircut b k claimed remaining =>
      by_cases hbk : b = a ∧ k = l
      · simp [Event.forced, hbk, Entry.scaled]
      · simp [Event.forced, hbk, Entry.scaled]
    | _ => exact ⟨fun _ => Entry.noConfusion, rfl⟩

theorem Step.units {e : Option Event} (h : Reachable w) (hs : Step w e w') (hb : w.Blacklists l) :
    w'.units a l + e.elim 0 (Event.forced a l) = w.units a l := by
  have hw := Reachable.wellFormed h
  obtain ⟨hdeposit, hscaled⟩ := entry_of_not_screened (a := a) (x := ⟨w, e, w'⟩) (hs.not_screened hw hb)
  dsimp only at hscaled
  rw [← hscaled]
  unfold World.units
  cases hp : w.pool a with
  | none =>
    rw [World.pool_eq_none.1 hp]
    cases hp' : w'.pool a with
    | none =>
      rw [World.pool_eq_none.1 hp', entry_of_market_ne (hs.pool_none hw hp hp')]
      rfl
    | some p' =>
      obtain ⟨hfresh, hcreated⟩ := hs.pool_new hw hp hp'
      have hother := entry_of_created (x := ⟨w, e, w'⟩) (l := l) (fun _ h => absurd h List.not_mem_nil) hcreated
      rw [hother _ List.mem_cons_self, (World.pool_eq_some.1 hp').1]
      exact congrArg Account.balance (hfresh.account l)
  | some p =>
    obtain ⟨p', hp', hstep⟩ := hs.pool hw hp
    rw [(World.pool_eq_some.1 hp).1, (World.pool_eq_some.1 hp').1]
    exact (hstep.account (x := ⟨w, e, w'⟩) (Reachable.ledger h hp) hp hp' l).balance hdeposit

/-- While the blacklist stops an address, none of the instructions that it checks succeeds for the address.  As a
borrower it takes out nothing more, and as a lender it loses units only to the forced exits. -/
theorem blacklisted_excluded (h : Reachable w) (r : Run w hist w') (hb : ∀ x ∈ hist, x.pre.Blacklists l) :
    (∀ x ∈ hist, x.event.bind Event.screened ≠ some l) ∧ KeepsDebt l w w' ∧
      ∀ a, w'.units a l + forcedUnits a l hist = w.units a l := by
  induction r with
  | nil => exact ⟨by simp, .refl l w, fun _ => rfl⟩
  | @cons hist w₁ w₂ e r hs ih =>
    rw [List.forall_mem_cons] at hb
    obtain ⟨hscreened, hdebt, hunits⟩ := ih hb.2
    have hr := r.reachable h
    have hnot := hs.not_screened (Reachable.wellFormed hr) hb.1
    refine ⟨List.forall_mem_cons.2 ⟨hnot, hscreened⟩, hdebt.trans (hs.keepsDebt hr ?_ ?_), ?_⟩
    · rintro a n rfl
      exact hnot rfl
    · rintro a nonce rfl
      exact hnot rfl
    · intro a
      rw [← hunits a, ← hs.units hr hb.1, forcedUnits, List.map_cons, List.sum_cons, ← Nat.add_assoc]
      rfl

instance (c : ProtocolConfig) (x : Address) : Decidable (w.NotBlacklisted c x) := by
  unfold World.NotBlacklisted
  cases w.blacklist (.blacklist c.blacklistProgram x) <;> infer_instance

instance (x : Address) : Decidable (w.Blacklists x) :=
  match h : w.config with
  | none => isTrue fun _ hc => by cases h.symm.trans hc
  | some c => decidable_of_iff (¬w.NotBlacklisted c x)
    ⟨fun hnot _ hc => Option.some.inj (h.symm.trans hc) ▸ hnot, fun hall => hall c h⟩

namespace Sample

/-- After the default the admin stops everybody who is not on the list. -/
def failClosed : List Action := defaulted ++ [.instruction [config, signer admin] [14, 1]]

end Sample

/-- The borrower closes the position of Alice; her 6 units are all that she had. -/
theorem blacklisted_excluded_failClosed :
    ((Sample.genesis.performAll Sample.failClosed).performAll [Sample.forceClose Sample.alice, .clock 500]).units
      Sample.market Sample.alice + 6 =
      (Sample.genesis.performAll Sample.failClosed).units Sample.market Sample.alice := by
  have hb : ∀ x ∈ (Sample.genesis.performAll Sample.failClosed).history [Sample.forceClose Sample.alice, .clock 500],
      x.pre.Blacklists Sample.alice := by decide +kernel
  have hforced : forcedUnits Sample.market Sample.alice ((Sample.genesis.performAll Sample.failClosed).history
      [Sample.forceClose Sample.alice, .clock 500]) = 6 := by decide +kernel
  obtain ⟨-, -, hunits⟩ := blacklisted_excluded
    (World.performAll_reachable Sample.genesis_reachable Sample.failClosed) (World.performAll_run _ _) hb
  rw [← hforced]
  exact hunits Sample.market

end Coalesce
