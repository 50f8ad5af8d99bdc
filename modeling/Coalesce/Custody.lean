import Coalesce.Authority
import Coalesce.Debt

/-!
# Custody

What nobody can do without the right signature.  An instruction takes tokens only from accounts whose owner signed and
from the vault of the market it names, and what leaves a vault goes to the one it is owed to
(`tokens_follow_authority`).  In a run which a lender and the borrower do not sign, the position of the lender stays as
it is (`position_untouched`); the same holds of the configuration, the whitelist and the debt of a borrower
(`administration_untouched`, `debt_untouched`); and a paused protocol is frozen (`paused_frozen`).
-/

namespace Coalesce

/-! ### The flow of tokens -/

/-- The owner of the account that the payment of an instruction goes to. -/
def Event.payee (c : ProtocolConfig) : Event → Option Address
  | borrow _ b _ => some b
  | withdraw _ l _ _ | forceClose _ l _ _ | claimHaircut _ l _ _ | forceClaimHaircut _ l _ _ => some l
  | collectFees .. => some c.feeAuthority
  | _ => none

/-- Tokens are neither made nor lost, and move by order of their owner or out of the vault that the event names. -/
structure TokenFlow (w : World) (signed : Address → Prop) (e : Event) (t : TokenLedger) : Prop where
  conserved : ∀ mint,
    t.accounts.total (TokenAccount.amountOf mint) = w.tokens.accounts.total (TokenAccount.amountOf mint)
  kept : ∀ x h, w.tokens.holder x = some h → t.holder x = some h
  debited : ∀ x s, w.tokens.lookup x = some s → t.amount x < s.amount →
    signed s.owner ∨ ∃ a, x = .vault a ∧ e.market = some a
  credited : ∀ x s, w.tokens.lookup x = some s → s.amount < t.amount x →
    (∃ c, w.config = some c ∧ e.payee c = some s.owner) ∨ (∃ a, x = .vault a ∧ e.market = some a) ∨
      ∃ a b n, e = .withdrawExcess a b n ∧ signed b

section Flow

variable {w w' : World} {signed : Address → Prop} {e : Event} {t : TokenLedger} {a : Address}

private theorem flow_refl (w : World) (signed : Address → Prop) (e : Event) : TokenFlow w signed e w.tokens where
  conserved _ := rfl
  kept _ _ h := h
  debited x s hs h := absurd h (by rw [TokenLedger.amount_eq hs]; omega)
  credited x s hs h := absurd h (by rw [TokenLedger.amount_eq hs]; omega)

/-- The flow of one transfer. -/
private theorem flow_of_transfer {src dst authority : Address} {n : ℕ}
    (h : w.tokens.transfer src dst authority n = .ok t)
    (hsrc : ∀ s, w.tokens.lookup src = some s → signed s.owner ∨ ∃ a, src = .vault a ∧ e.market = some a)
    (hdst : ∀ d, w.tokens.lookup dst = some d →
      (∃ c, w.config = some c ∧ e.payee c = some d.owner) ∨ (∃ a, dst = .vault a ∧ e.market = some a) ∨
        ∃ a b n, e = .withdrawExcess a b n ∧ signed b) : TokenFlow w signed e t where
  conserved := TokenLedger.total_transfer h
  kept x y hx := (TokenLedger.holder_transfer h x).trans hx
  debited x s hs hlt := by
    rw [← TokenLedger.amount_eq hs] at hlt
    obtain rfl := TokenLedger.eq_src_of_lt h hlt
    exact hsrc s hs
  credited x d hd hlt := by
    rw [← TokenLedger.amount_eq hd] at hlt
    obtain rfl := TokenLedger.eq_dst_of_lt h hlt
    exact hdst d hd

private theorem PaysIn.flow {payer : Address} {n : ℕ} (h : PaysIn w signed a payer n t) (he : e.market = some a) :
    TokenFlow w signed e t := by
  obtain ⟨src, s, hs, howner, ht⟩ := h.transfer
  refine flow_of_transfer ht ?_ ?_
  · intro s' hs'
    obtain rfl := Option.some.inj (hs.symm.trans hs')
    exact .inl (howner ▸ h.signed)
  · intro _ _
    exact .inr (.inl ⟨a, rfl, he⟩)

private theorem PaysOut.flow {payee : Address} {n : ℕ} {c : ProtocolConfig} (h : PaysOut w a payee n t)
    (hconfig : w.config = some c) (he : e.market = some a) (hpayee : e.payee c = some payee) :
    TokenFlow w signed e t := by
  obtain ⟨dst, d, hd, howner, ht | ⟨-, rfl⟩⟩ := h
  · refine flow_of_transfer ht (fun _ _ => .inr ⟨a, rfl, he⟩) ?_
    intro d' hd'
    obtain rfl := Option.some.inj (hd.symm.trans hd')
    exact .inl ⟨c, hconfig, howner.symm ▸ hpayee⟩
  · exact flow_refl w signed e

theorem MarketOrder.market {c : ProtocolConfig} (h : MarketOrder w signed c a e t) : e.market = some a := by
  cases h <;> rfl

theorem MarketOrder.flow {c : ProtocolConfig} (h : MarketOrder w signed c a e t) (hconfig : w.config = some c) :
    TokenFlow w signed e t := by
  have he := h.market
  cases h with
  | createMarket _ _ _ htokens =>
    obtain ⟨hfree, haccounts⟩ := TokenLedger.openAccount_ok htokens
    have hsame : ∀ x, w.tokens.lookup x ≠ none → t.lookup x = w.tokens.lookup x := by
      intro x hx
      have hne : x ≠ .vault a := by
        rintro rfl
        exact hx hfree
      rw [TokenLedger.lookup, haccounts, Finmap.lookup_insert_of_ne _ hne]
      rfl
    have hamount : ∀ x s, w.tokens.lookup x = some s → t.amount x = s.amount := by
      intro x s hs
      exact TokenLedger.amount_eq ((hsame x (by simp [hs])).trans hs)
    refine ⟨TokenLedger.total_openAccount htokens, ?_, ?_, ?_⟩
    · intro x y hx
      rw [TokenLedger.holder, hsame x (by rintro h; simp [TokenLedger.holder, h] at hx)]
      exact hx
    · intro x s hs hlt
      rw [hamount x s hs] at hlt
      exact absurd hlt (lt_irrefl _)
    · intro x s hs hlt
      rw [hamount x s hs] at hlt
      exact absurd hlt (lt_irrefl _)
  | deposit _ _ hpays | repay _ hpays | repayInterest _ hpays => exact hpays.flow he
  | borrow _ _ _ _ _ hpays | withdraw _ _ hpays | collectFees _ hpays | forceClose _ _ _ hpays | claimHaircut _ hpays
  | forceClaimHaircut _ _ _ hpays => exact hpays.flow hconfig he rfl
  | reSettle | closePosition => exact flow_refl w signed _
  | withdrawExcess hsigned _ _ _ htransfer =>
    obtain ⟨dst, ht⟩ := htransfer
    exact flow_of_transfer ht (fun _ _ => .inr ⟨a, rfl, he⟩) fun _ _ => .inr (.inr ⟨a, _, _, rfl, hsigned⟩)

theorem Authorized.flow (h : Authorized w signed e w') : TokenFlow w signed e w'.tokens := by
  cases h with
  | initializes | administers | lists => exact flow_refl w signed _
  | market hconfig _ _ h => exact h.flow hconfig

end Flow

/-- A step that none of the keys in `X` signs. -/
inductive StepWithout (X : Address → Prop) (w : World) : Option Event → World → Prop
  | instruction {accounts : List AccountMeta} {data : List UInt8} {w' : World} {e : Event}
      (hsigners : ∀ a ∈ accounts, a.isSigner → a.address.isKey) (hout : ∀ x, X x → ¬Signed accounts x)
      (h : processInstruction w accounts data = .ok (w', e)) : StepWithout X w (some e) w'
  | other {w' : World} (h : Step w none w') : StepWithout X w none w'

abbrev RunWithout (X : Address → Prop) : World → List Record → World → Prop := Transition.Run (StepWithout X)

instance (accounts : List AccountMeta) (x : Address) : Decidable (Signed accounts x) := by
  unfold Signed
  infer_instance

def Action.SignedBy : Action → Address → Prop
  | instruction accounts _, x => Signed accounts x
  | clock _, _ => False

instance (act : Action) (x : Address) : Decidable (act.SignedBy x) := by
  cases act <;> (unfold Action.SignedBy; infer_instance)

theorem World.performAll_runWithout {X : Address → Prop} (w : World) (acts : List Action)
    (h : ∀ x, X x → ∀ act ∈ acts, ¬act.SignedBy x) : RunWithout X w (w.history acts) (w.performAll acts) := by
  induction acts generalizing w with
  | nil => exact .nil
  | cons act acts ih =>
    rw [performAll, history]
    split
    · rename_i r hr
      have hstep : StepWithout X w r.2 r.1 := by
        have hs := perform_step hr
        cases act with
        | instruction accounts data =>
          simp only [World.perform] at hr
          split at hr
          · rename_i hsign
            split at hr
            · rename_i w' event hok
              obtain rfl := Option.some.inj hr
              exact .instruction hsign (fun x hx => h x hx _ List.mem_cons_self) hok
            · cases hr
          · cases hr
        | clock now =>
          simp only [World.perform] at hr
          split at hr
          · obtain rfl := Option.some.inj hr
            exact .other hs
          · cases hr
      exact (Transition.Run.cons .nil hstep).trans
        (ih _ fun x hx act hact => h x hx act (List.mem_cons_of_mem _ hact))
    · exact .nil

section Without

variable {X : Address → Prop} {w w' : World} {e : Option Event} {hist : List Record} {a b l : Address}

theorem StepWithout.step (h : StepWithout X w e w') : Step w e w' := by
  cases h with
  | instruction hsigners _ h => exact .instruction hsigners h
  | other h => exact h

theorem run_of_runWithout (r : RunWithout X w hist w') : Run w hist w' := by
  induction r with
  | nil => exact .nil
  | cons _ hs ih => exact .cons ih hs.step

/-- What the signers of an instruction outside of `X` were allowed to do. -/
theorem StepWithout.authorized {e : Event} (hw : WellFormed w) (h : StepWithout X w (some e) w') :
    ∃ signed : Address → Prop, (∀ x, X x → ¬signed x) ∧ Authorized w signed e w' := by
  cases h with
  | instruction _ hout h => exact ⟨_, hout, processInstruction_authorized hw h⟩

/-- Outside of instructions the program keeps its accounts. -/
theorem Step.none_frame (h : Step w none w') :
    w'.config = w.config ∧ w'.whitelists = w.whitelists ∧ w'.markets = w.markets := by
  cases h <;> exact ⟨rfl, rfl, rfl⟩

/-- The lender whose position an event writes. -/
def Event.lender : Event → Option Address
  | deposit _ l _ _ | withdraw _ l _ _ | forceClose _ l _ _ | closePosition _ l => some l
  | claimHaircut _ l _ _ | forceClaimHaircut _ l _ _ => some l
  | _ => none

/-- A pool step writes only the position of the lender that it names. -/
theorem Pool.Step.position_of_ne {p p' : Pool} (h : Pool.Step a p e p')
    (hl : ∀ f, e = some f → f.market = some a → f.lender ≠ some l) : p'.positions.lookup l = p.positions.lookup l := by
  have hne {k : Address} {q : LenderPosition} (hk : k ≠ l) :
      (p.positions.insert k q).lookup l = p.positions.lookup l := Finmap.lookup_insert_of_ne _ hk.symm
  cases h with
  | deposit => exact hne fun hk => hl _ rfl rfl (congrArg some hk)
  | exit _ _ _ _ _ _ _ _ _ _ he =>
    rcases he with rfl | rfl <;> exact hne fun hk => hl _ rfl rfl (congrArg some hk)
  | claim _ _ _ _ _ _ he => rcases he with rfl | rfl <;> exact hne fun hk => hl _ rfl rfl (congrArg some hk)
  | close => exact Finmap.lookup_erase_ne fun hk => hl _ rfl rfl (congrArg some hk.symm)
  | _ => rfl

theorem MarketOrder.lender {signed : Address → Prop} {c : ProtocolConfig} {e : Event} {t : TokenLedger}
    (h : MarketOrder w signed c a e t) (hl : e.lender = some l) :
    signed l ∨ ∃ b, signed b ∧ w.IsBorrower a b ∧ w.GraceOver a := by
  cases h with
  | deposit _ _ hpays => exact .inl (Option.some.inj hl ▸ hpays.signed)
  | withdraw hsigned | closePosition hsigned | claimHaircut hsigned => exact .inl (Option.some.inj hl ▸ hsigned)
  | forceClose hsigned hborrower hgrace | forceClaimHaircut hsigned hborrower hgrace =>
    exact .inr ⟨_, hsigned, hborrower, hgrace⟩
  | _ => cases hl

/-- Who signs an instruction that names a lender of the market `a`. -/
theorem Authorized.lender {signed : Address → Prop} {e : Event} (h : Authorized w signed e w')
    (ha : e.market = some a) (hl : e.lender = some l) :
    signed l ∨ ∃ b, signed b ∧ w.IsBorrower a b ∧ w.GraceOver a := by
  cases h with
  | initializes | lists => cases hl
  | administers _ _ h => cases h <;> cases hl
  | market _ _ _ h =>
    obtain rfl := Option.some.inj (h.market.symm.trans ha)
    exact h.lender hl

/-- Without the lender, and without the borrower or before the grace period is over, nothing happens to the position
of the lender. -/
theorem position_untouched (h : Reachable w) {ma : MarketAccounts} (hma : w.markets.lookup a = some ma)
    (hl : X l) (hb : X ma.market.borrower ∨ w'.clock < ma.market.maturityTimestamp + SETTLEMENT_GRACE_PERIOD)
    (r : RunWithout X w hist w') :
    ∃ ma', w'.markets.lookup a = some ma' ∧ ma'.positions.lookup l = ma.positions.lookup l := by
  suffices H : ∃ p', w'.pool a = some p' ∧ p'.market.terms = ma.market.terms ∧
      p'.positions.lookup l = ma.positions.lookup l by
    obtain ⟨p', hp', -, hpos⟩ := H
    exact ⟨_, (World.pool_eq_some.1 hp').1, hpos⟩
  induction r with
  | nil => exact ⟨_, World.pool_of_lookup hma, rfl, rfl⟩
  | @cons hist w₁ w₂ e r hs ih =>
    have hw := Reachable.wellFormed ((run_of_runWithout r).reachable h)
    have hclock := hs.step.clock_le hw
    obtain ⟨p, hp, hterms, hpos⟩ := ih (hb.imp_right hclock.trans_lt)
    obtain ⟨p', hp', hstep⟩ := hs.step.pool hw hp
    refine ⟨p', hp', hstep.terms.trans hterms, (hstep.position_of_ne ?_).trans hpos⟩
    rintro f rfl hf hlender
    obtain ⟨signed, hout, hauth⟩ := hs.authorized hw
    simp only [Market.terms, Prod.mk.injEq] at hterms
    obtain ⟨hborrower, -, -, -, hmaturity, -⟩ := hterms
    have hlookup := (World.pool_eq_some.1 hp).1
    rcases hauth.lender hf hlender with hsigned | ⟨b, hsigned, ⟨ma₁, hma₁, rfl⟩, ma₂, hma₂, hgrace⟩
    · exact hout l hl hsigned
    · obtain rfl := Option.some.inj (hlookup.symm.trans hma₁)
      obtain rfl := Option.some.inj (hlookup.symm.trans hma₂)
      rcases hb with hb | hb
      · exact hout _ (hborrower ▸ hb) hsigned
      · omega

namespace Sample

/-- A market in which alice has deposited 6. -/
def opened : List Action := [configure, whitelist, create, deposit alice 6]

end Sample

/-- Bob deposits after alice. -/
theorem position_untouched_opened :
    ∃ ma ma', (Sample.genesis.performAll Sample.opened).markets.lookup Sample.market = some ma ∧
      ((Sample.genesis.performAll Sample.opened).performAll [Sample.deposit Sample.bob 10]).markets.lookup
        Sample.market = some ma' ∧
      ma.market.totalDeposited = 6 ∧ ma'.positions.lookup Sample.alice = ma.positions.lookup Sample.alice := by
  obtain ⟨ma, hma, hdeposited⟩ := Option.map_eq_some_iff.1
    (show ((Sample.genesis.performAll Sample.opened).markets.lookup Sample.market).map
      (fun ma => ma.market.totalDeposited) = some 6 by decide +kernel)
  have r := World.performAll_runWithout (X := fun x => x = Sample.alice ∨ x = ma.market.borrower)
    (Sample.genesis.performAll Sample.opened) [Sample.deposit Sample.bob 10] (by
      have hborrower : ma.market.borrower = Sample.borrower := by
        have h : ((Sample.genesis.performAll Sample.opened).markets.lookup Sample.market).map
            (fun ma => ma.market.borrower) = some Sample.borrower := by decide +kernel
        rw [hma] at h
        exact Option.some.inj h
      rw [hborrower]
      rintro x (rfl | rfl) <;> decide)
  obtain ⟨ma', hma', hpos⟩ := position_untouched
    (World.performAll_reachable Sample.genesis_reachable Sample.opened) hma (.inl rfl) (.inl (.inr rfl)) r
  exact ⟨ma, ma', hma, hma', hdeposited, hpos⟩

/-- The borrower whose whitelist entry an event writes. -/
def Event.entry (w : World) : Event → Option Address
  | setWhitelist b _ | borrow _ b _ => some b
  | repay a _ _ _ => (w.markets.lookup a).map fun ma => ma.market.borrower
  | _ => none

theorem Event.entry_of_not {e : Event} (hlists : ¬e.lists) (hprincipal : ¬e.movesPrincipal) : e.entry w = none := by
  cases e with
  | setWhitelist => exact absurd rfl hlists
  | borrow | repay => exact absurd rfl hprincipal
  | _ => rfl

/-- How the whitelist entry of `b` moves in an instruction. -/
inductive EntryMove (w : World) (b : Address) : Event → Option BorrowerWhitelist → Prop
  | keeps {e : Event} (he : e.entry w ≠ some b) : EntryMove w b e (w.whitelists.lookup b)
  | lists {f capacity : ℕ} {wl : BorrowerWhitelist}
      (h : updatedWhitelist (w.whitelists.lookup b) b f capacity = .ok wl) :
      EntryMove w b (.setWhitelist b f) (some wl)
  | borrows {a : Address} {n : ℕ} {wl : BorrowerWhitelist} (hwl : w.whitelists.lookup b = some wl) :
      EntryMove w b (.borrow a b n) (some { wl with currentBorrowed := wl.currentBorrowed + n })
  | repays {a payer : Address} {n debt : ℕ} {wl : BorrowerWhitelist} (hborrower : w.IsBorrower a b)
      (hwl : w.whitelists.lookup b = some wl) (hn : n ≤ wl.currentBorrowed) :
      EntryMove w b (.repay a payer n debt) (some { wl with currentBorrowed := wl.currentBorrowed - n })

private theorem not_lists_of_market {e : Event} (h : e.market = some a) : ¬e.lists := by
  cases e with
  | setWhitelist => cases h
  | _ => exact Bool.false_ne_true

private theorem not_movesPrincipal_of_market {e : Event} (h : e.market = none) : ¬e.movesPrincipal := by
  cases e with
  | borrow | repay => cases h
  | _ => exact Bool.false_ne_true

/-- An instruction that writes the entry of `k`. -/
private theorem entry_of_insert {e : Event} {k : Address} {wl : BorrowerWhitelist}
    (hwls : w'.whitelists = w.whitelists.insert k wl) (he : e.entry w = some k)
    (hk : b = k → EntryMove w b e (some wl)) : EntryMove w b e (w'.whitelists.lookup b) := by
  rw [hwls]
  by_cases hb : b = k
  · rw [hb, Finmap.lookup_insert]
    exact hb ▸ hk hb
  · rw [Finmap.lookup_insert_of_ne _ hb]
    refine .keeps ?_
    rw [he]
    exact fun h => hb (Option.some.inj h).symm

theorem Effect.entry {e : Event} (h : Effect w e w') (b : Address) : EntryMove w b e (w'.whitelists.lookup b) := by
  have hkeeps (hwls : w'.whitelists = w.whitelists) (he : e.entry w = none) :
      EntryMove w b e (w'.whitelists.lookup b) := by
    rw [hwls]
    exact .keeps (by simp [he])
  cases h with
  | leaves hl hwls hlists => exact hkeeps hwls (Event.entry_of_not hlists (not_movesPrincipal_of_market hl.event))
  | creates _ _ hwls | collects _ hwls => exact hkeeps hwls rfl
  | accrues ha hwls _ _ hprincipal => exact hkeeps hwls (Event.entry_of_not (not_lists_of_market ha.event) hprincipal)
  | acts ha hwls haccrues =>
    exact hkeeps hwls (Event.entry_of_not (not_lists_of_market ha.event) (mt Event.accrues_of_movesPrincipal haccrues))
  | lists _ hlists =>
    obtain ⟨_, _, hwl, hwls⟩ := hlists.whitelist
    refine entry_of_insert hwls rfl ?_
    rintro rfl
    exact .lists hwl
  | borrows _ hborrows =>
    obtain ⟨_, hwl, -, hwls⟩ := hborrows.whitelist
    refine entry_of_insert hwls rfl ?_
    rintro rfl
    exact .borrows hwl
  | repays _ hrepays =>
    obtain ⟨ma, _, _, hma, -, -, hwl, hn, hwls⟩ := hrepays.whitelist
    refine entry_of_insert hwls (by simp [Event.entry, hma]) ?_
    rintro rfl
    exact .repays ⟨ma, hma, rfl⟩ hwl hn

theorem Step.entry {e : Event} (hw : WellFormed w) (h : Step w (some e) w') (b : Address) :
    EntryMove w b e (w'.whitelists.lookup b) := by
  cases h with
  | instruction hsign hok => exact (processInstruction_effect hw hsign hok).entry b

/-- What the whitelist manager decides about a borrower. -/
def BorrowerWhitelist.listing (wl : BorrowerWhitelist) : ℕ × ℕ := (wl.isWhitelisted, wl.maxBorrowCapacity)

/-- Only the admin changes the configuration, and only the whitelist manager lists a borrower. -/
theorem administration_untouched (h : Reachable w) {c : ProtocolConfig} (hconfig : w.config = some c)
    (hadmin : X c.admin) (r : RunWithout X w hist w') :
    w'.config = some c ∧ (X c.whitelistManager → ∀ b,
      (w'.whitelists.lookup b).map BorrowerWhitelist.listing =
        (w.whitelists.lookup b).map BorrowerWhitelist.listing) := by
  induction r with
  | nil => exact ⟨hconfig, fun _ _ => rfl⟩
  | @cons hist w₁ w₂ e r hs ih =>
    obtain ⟨hc, hlisting⟩ := ih
    have hw := Reachable.wellFormed ((run_of_runWithout r).reachable h)
    cases e with
    | none =>
      obtain ⟨hc', hwls, -⟩ := Step.none_frame hs.step
      rw [hc', hwls]
      exact ⟨hc, hlisting⟩
    | some e =>
      obtain ⟨signed, hout, hauth⟩ := hs.authorized hw
      constructor
      · cases hauth with
        | initializes hnew =>
          rw [hc] at hnew
          cases hnew
        | administers hc' hsigned =>
          obtain rfl := Option.some.inj (hc.symm.trans hc')
          exact absurd hsigned (hout _ hadmin)
        | lists => exact hc
        | market _ _ hkeeps => exact hkeeps.trans hc
      · intro hmanager b
        rw [← hlisting hmanager b]
        have hentry := hs.step.entry hw b
        generalize w₂.whitelists.lookup b = entry at hentry
        cases hentry with
        | keeps => rfl
        | borrows hwl | repays _ hwl => rw [hwl]; rfl
        | lists =>
          cases hauth with
          | administers _ _ h => cases h
          | lists hc' hsigned =>
            obtain rfl := Option.some.inj (hc.symm.trans hc')
            exact absurd hsigned (hout _ hmanager)
          | market _ _ _ h => cases h

/-- The market is created and funded without the admin, who also manages the whitelist. -/
theorem administration_untouched_opened :
    ∃ c, (Sample.genesis.performAll [Sample.configure, Sample.whitelist]).config = some c ∧
      c.admin = Sample.admin ∧ c.whitelistManager = Sample.admin ∧
      ((Sample.genesis.performAll [Sample.configure, Sample.whitelist]).performAll
        [Sample.create, Sample.deposit Sample.alice 6]).config = some c := by
  obtain ⟨c, hconfig, hroles⟩ := Option.map_eq_some_iff.1
    (show (Sample.genesis.performAll [Sample.configure, Sample.whitelist]).config.map
      (fun c => (c.admin, c.whitelistManager)) = some (Sample.admin, Sample.admin) by decide +kernel)
  obtain ⟨hadmin, hmanager⟩ := Prod.mk.inj hroles
  have r := World.performAll_runWithout (X := fun x => x = Sample.admin)
    (Sample.genesis.performAll [Sample.configure, Sample.whitelist]) [Sample.create, Sample.deposit Sample.alice 6] (by
      rintro x rfl
      decide)
  obtain ⟨hconfig', -⟩ := administration_untouched
    (World.performAll_reachable Sample.genesis_reachable [Sample.configure, Sample.whitelist]) hconfig hadmin r
  exact ⟨c, hconfig, hadmin, hmanager, hconfig'⟩

theorem Debts.debt_eq (h : Debts w) (b : Address) :
    w.debt b = (w.whitelists.lookup b).elim 0 BorrowerWhitelist.currentBorrowed := by
  cases hb : w.whitelists.lookup b with
  | some wl => exact (h.counter b wl hb).symm
  | none =>
    apply World.debt_eq_zero
    rintro a ma hma rfl
    obtain ⟨_, hlisted⟩ := h.listed a ma hma
    rw [hb] at hlisted
    cases hlisted

/-- The debt of a borrower grows only with the principal that it takes out. -/
theorem EntryMove.counter_le {e : Event} {entry : Option BorrowerWhitelist} (h : EntryMove w b e entry)
    (hb : ∀ a n, e ≠ .borrow a b n) :
    entry.elim 0 BorrowerWhitelist.currentBorrowed ≤
      (w.whitelists.lookup b).elim 0 BorrowerWhitelist.currentBorrowed := by
  cases h with
  | keeps => exact le_rfl
  | borrows => exact absurd rfl (hb _ _)
  | repays _ hwl =>
    rw [hwl]
    exact Nat.sub_le _ _
  | lists h =>
    generalize w.whitelists.lookup b = old at h ⊢
    cases old with
    | none => exact (updatedWhitelist_none h).2.le
    | some _ => exact (updatedWhitelist_some h).2.2.le

theorem Authorized.borrow {signed : Address → Prop} {n : ℕ} (h : Authorized w signed (.borrow a b n) w') :
    signed b ∧ w.IsBorrower a b := by
  cases h with
  | administers _ _ h => cases h
  | market _ _ _ h =>
    cases h with
    | borrow hsigned hborrower => exact ⟨hsigned, hborrower⟩

theorem Authorized.createMarket {signed : Address → Prop} {nonce : ℕ}
    (h : Authorized w signed (.createMarket a b nonce) w') : signed b ∧ w.Whitelisted b := by
  cases h with
  | administers _ _ h => cases h
  | market _ _ _ h =>
    cases h with
    | createMarket hsigned hlisted => exact ⟨hsigned, hlisted⟩

/-- Principal goes to the borrower of the market. -/
theorem Step.borrower (hw : WellFormed w) {n : ℕ} (h : Step w (some (.borrow a b n)) w') : w.IsBorrower a b := by
  cases h with
  | instruction _ hok => exact (processInstruction_authorized hw hok).borrow.2

/-- The borrower of a market that a step creates. -/
theorem Step.creator (hw : WellFormed w) (h : Step w e w') {p : Pool} (hp : w.pool a = none)
    (hp' : w'.pool a = some p) : ∃ nonce, e = some (.createMarket a p.market.borrower nonce) := by
  obtain ⟨hfresh, b, nonce, rfl⟩ := h.pool_new hw hp hp'
  refine ⟨nonce, ?_⟩
  cases h with
  | instruction hsign hok =>
    cases processInstruction_effect hw hsign hok with
    | creates _ haddress =>
      have hborrower := hfresh.placed.address
      rw [haddress] at hborrower
      rw [(Address.market.inj hborrower).1]
    | accrues ha _ haccrues => cases haccrues
    | leaves hl => cases hl.event
    | acts ha =>
      obtain ⟨_, _, hq, -⟩ := ha.pool
      obtain rfl := Option.some.inj ha.event
      rw [hp] at hq
      cases hq

/-- The borrower `b` owes no more than before, and has the same markets with the same terms and the same principal. -/
structure KeepsDebt (b : Address) (w w' : World) : Prop where
  debt_le : w'.debt b ≤ w.debt b
  markets : ∀ a ma', w'.markets.lookup a = some ma' → ma'.market.borrower = b →
    ∃ ma, w.markets.lookup a = some ma ∧ ma'.market.terms = ma.market.terms ∧
      ma'.market.totalBorrowed = ma.market.totalBorrowed

theorem KeepsDebt.refl (b : Address) (w : World) : KeepsDebt b w w := ⟨le_rfl, fun _ ma hma _ => ⟨ma, hma, rfl, rfl⟩⟩

theorem KeepsDebt.trans {w'' : World} (h : KeepsDebt b w w') (h' : KeepsDebt b w' w'') : KeepsDebt b w w'' where
  debt_le := h'.debt_le.trans h.debt_le
  markets a ma'' hma'' hborrower := by
    obtain ⟨ma', hma', hterms', htotal'⟩ := h'.markets a ma'' hma'' hborrower
    obtain ⟨ma, hma, hterms, htotal⟩ := h.markets a ma' hma' ((congrArg Prod.fst hterms').symm.trans hborrower)
    exact ⟨ma, hma, hterms'.trans hterms, htotal'.trans htotal⟩

/-- Debt comes from borrowing and from new markets only. -/
theorem Step.keepsDebt (h : Reachable w) (hs : Step w e w') (hborrow : ∀ a n, e ≠ some (.borrow a b n))
    (hcreate : ∀ a nonce, e ≠ some (.createMarket a b nonce)) : KeepsDebt b w w' where
  debt_le := by
    rw [(Reachable.debts (.step h hs)).debt_eq, (Reachable.debts h).debt_eq]
    cases e with
    | none => rw [hs.none_frame.2.1]
    | some e =>
      apply (hs.entry (Reachable.wellFormed h) b).counter_le
      rintro a n rfl
      exact hborrow a n rfl
  markets a ma' hma' hborrower := by
    have hw := Reachable.wellFormed h
    have hp' := World.pool_of_lookup hma'
    cases hp : w.pool a with
    | none =>
      obtain ⟨nonce, he⟩ := hs.creator hw hp hp'
      exact absurd (hborrower ▸ he) (hcreate a nonce)
    | some p =>
      have hstep := hs.pool_step hw hp hp'
      have hlookup := (World.pool_eq_some.1 hp).1
      refine ⟨_, hlookup, hstep.terms, ?_⟩
      by_cases he : e.bind Event.market = some a
      · obtain ⟨f, rfl, hf⟩ := Option.bind_eq_some_iff.1 he
        have hzero : f.borrowed = 0 := by
          cases f with
          | borrow a' b' n =>
            obtain rfl := Option.some.inj hf
            obtain ⟨ma, hma, rfl⟩ := hs.borrower hw
            obtain rfl := Option.some.inj (hlookup.symm.trans hma)
            have hsame : p.market.borrower = b := (congrArg Prod.fst hstep.terms).symm.trans hborrower
            exact absurd (hsame ▸ rfl) (hborrow a' n)
          | _ => rfl
        have hprincipal := (hstep.principal hf).1
        rwa [hzero] at hprincipal
      · exact congrArg (fun ma : MarketAccounts => ma.market.totalBorrowed) (hstep.idle_of_ne he).1

/-- Without the signature of a borrower its debt does not grow, it takes out no principal, and it has no new market. -/
theorem debt_untouched (h : Reachable w) (hb : X b) (r : RunWithout X w hist w') :
    w'.debt b ≤ w.debt b ∧ ∀ a ma', w'.markets.lookup a = some ma' → ma'.market.borrower = b →
      ∃ ma, w.markets.lookup a = some ma ∧ ma'.market.terms = ma.market.terms ∧
        ma'.market.totalBorrowed = ma.market.totalBorrowed := by
  suffices H : KeepsDebt b w w' from ⟨H.debt_le, H.markets⟩
  induction r with
  | nil => exact .refl b w
  | cons r hs ih =>
    have hr := (run_of_runWithout r).reachable h
    refine ih.trans (hs.step.keepsDebt hr ?_ ?_)
    · rintro a n rfl
      obtain ⟨signed, hout, hauth⟩ := hs.authorized (Reachable.wellFormed hr)
      exact hout b hb hauth.borrow.1
    · rintro a nonce rfl
      obtain ⟨signed, hout, hauth⟩ := hs.authorized (Reachable.wellFormed hr)
      exact hout b hb hauth.createMarket.1

/-- Bob deposits, the borrower keeps its debt. -/
theorem debt_untouched_opened :
    ((Sample.genesis.performAll Sample.opened).performAll [Sample.deposit Sample.bob 10]).debt Sample.borrower ≤
      (Sample.genesis.performAll Sample.opened).debt Sample.borrower := by
  have r := World.performAll_runWithout (X := fun x => x = Sample.borrower)
    (Sample.genesis.performAll Sample.opened) [Sample.deposit Sample.bob 10] (by
      rintro x rfl
      decide)
  exact (debt_untouched (b := Sample.borrower) (X := fun x => x = Sample.borrower)
    (World.performAll_reachable Sample.genesis_reachable Sample.opened) rfl r).1

end Without

/-! ### The emergency stop -/

section Pause

variable {w w' : World} {hist : List Record}

/-- A step of a paused protocol writes no market and takes nothing out of a vault; only the admin ends the pause. -/
private theorem Step.paused {e : Option Event} (hw : WellFormed w) (h : Step w e w') {c : ProtocolConfig}
    (hconfig : w.config = some c) (hpaused : c.isPaused) (he : e ≠ some (.setPause false)) :
    w'.markets = w.markets ∧ (∀ a, w.tokens.amount (.vault a) ≤ w'.tokens.amount (.vault a)) ∧
      ∃ c', w'.config = some c' ∧ c'.isPaused := by
  cases h with
  | instruction hsign hok =>
    cases processInstruction_authorized hw hok with
    | initializes hnew =>
      rw [hconfig] at hnew
      cases hnew
    | administers hc _ h =>
      obtain rfl := Option.some.inj (hconfig.symm.trans hc)
      refine ⟨rfl, fun _ => le_rfl, _, rfl, ?_⟩
      cases h with
      | setPause paused =>
        cases paused with
        | false => exact absurd rfl he
        | true => rfl
      | _ => exact hpaused
    | lists => exact ⟨rfl, fun _ => le_rfl, c, hconfig, hpaused⟩
    | market hc hrunning =>
      obtain rfl := Option.some.inj (hconfig.symm.trans hc)
      exact absurd hpaused hrunning
  | clock | external => exact ⟨rfl, fun _ => le_rfl, c, hconfig, hpaused⟩
  | tokens h => exact ⟨rfl, fun a => (h a).2, c, hconfig, hpaused⟩

/-- From a pause until the admin ends it no market changes and no vault is debited. -/
theorem paused_frozen (h : Reachable w) {c : ProtocolConfig} (hconfig : w.config = some c) (hpaused : c.isPaused)
    (r : Run w hist w') (hkept : ∀ x ∈ hist, x.event ≠ some (.setPause false)) :
    w'.markets = w.markets ∧ (∀ a, w.tokens.amount (.vault a) ≤ w'.tokens.amount (.vault a)) ∧
      ∃ c', w'.config = some c' ∧ c'.isPaused := by
  induction r with
  | nil => exact ⟨rfl, fun _ => le_rfl, c, hconfig, hpaused⟩
  | cons r hs ih =>
    rw [List.forall_mem_cons] at hkept
    obtain ⟨hmarkets, hvaults, c₁, hc₁, hpaused₁⟩ := ih hkept.2
    obtain ⟨hmarkets', hvaults', hpause⟩ := hs.paused (Reachable.wellFormed (r.reachable h)) hc₁ hpaused₁ hkept.1
    exact ⟨hmarkets'.trans hmarkets, fun a => (hvaults a).trans (hvaults' a), hpause⟩

namespace Sample

def setPause (paused : UInt8) : Action := .instruction [config, signer admin] [13, paused]

end Sample

/-- The clock runs on while the protocol is paused. -/
theorem paused_frozen_opened :
    ∃ c, (Sample.genesis.performAll (Sample.opened ++ [Sample.setPause 1])).config = some c ∧ c.isPaused ∧
      ((Sample.genesis.performAll (Sample.opened ++ [Sample.setPause 1])).performAll
        [.clock 1000, Sample.setPause 2]).markets =
        (Sample.genesis.performAll (Sample.opened ++ [Sample.setPause 1])).markets := by
  obtain ⟨c, hconfig, hpaused⟩ := Option.map_eq_some_iff.1
    (show (Sample.genesis.performAll (Sample.opened ++ [Sample.setPause 1])).config.map ProtocolConfig.isPaused =
      some true by decide +kernel)
  have hevents : (((Sample.genesis.performAll (Sample.opened ++ [Sample.setPause 1])).history
      [.clock 1000, Sample.setPause 2]).map fun x => x.event) = [some (.setPause true), none] := by decide +kernel
  have hkept : ∀ x ∈ (Sample.genesis.performAll (Sample.opened ++ [Sample.setPause 1])).history
      [.clock 1000, Sample.setPause 2], x.event ≠ some (.setPause false) := by
    intro x hx
    have hmem := List.mem_map_of_mem (f := fun x : Record => x.event) hx
    rw [hevents] at hmem
    rintro h
    rw [h] at hmem
    simp at hmem
  obtain ⟨hmarkets, -⟩ := paused_frozen
    (World.performAll_reachable Sample.genesis_reachable (Sample.opened ++ [Sample.setPause 1])) hconfig hpaused
    (World.performAll_run _ [.clock 1000, Sample.setPause 2]) hkept
  exact ⟨c, hconfig, hpaused, hmarkets⟩

end Pause

end Coalesce
