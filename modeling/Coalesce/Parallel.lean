import Coalesce.Authority
import Coalesce.Debt
import Coalesce.WindDown
import Coalesce.Wire
import Coalesce.Lib.Footprint

/-!
# Instructions that run in parallel

The runtime may run instructions at the same time that do not write each other's accounts.  An instruction of the
program reads and writes only the accounts that are passed to it, so the order of such instructions makes no
difference: neither to what any of them does and logs, nor to the state that they lead to (`batch_any_order`).
-/

namespace Coalesce

open Footprint

/-! ### What an instruction can see -/

/-- The pieces of the chain that an instruction can read or write.  All accounts of a market are one piece. -/
inductive Cell
  | clock
  | upgradeAuthority
  | config
  | whitelist (borrower : Address)
  | market (market : Address)
  | token (a : Address)
  | mint (a : Address)
  | blacklist (a : Address)

def Cell.Content : Cell → Type
  | clock => ℤ
  | upgradeAuthority => Option Address
  | config => Option ProtocolConfig
  | whitelist _ => Option BorrowerWhitelist
  | market _ => Option MarketAccounts
  | token _ => Option TokenAccount
  | mint _ => Option ℕ
  | blacklist _ => Option (List UInt8)

def World.cell (w : World) : (k : Cell) → k.Content
  | .clock => w.clock
  | .upgradeAuthority => w.upgradeAuthority
  | .config => w.config
  | .whitelist b => w.whitelists.lookup b
  | .market a => w.markets.lookup a
  | .token a => w.tokens.lookup a
  | .mint a => w.mints a
  | .blacklist a => w.blacklist a

/-- The account at `x` holds, or is a part of, the piece. -/
def Cell.At (x : Address) : Cell → Prop
  | clock => True
  | upgradeAuthority => x = .programData
  | config => x = .protocolConfig
  | whitelist b => x = .borrowerWhitelist b
  | market a => x = a ∨ x = .haircutState a ∨ ∃ l, x = .lender a l
  | token a | mint a | blacklist a => x = a

/-- The pieces that the accounts passed to an instruction hold; the clock is there for all. -/
def Passed (accounts : List AccountMeta) (k : Cell) : Prop := k = .clock ∨ ∃ x ∈ accounts, k.At x.address

/-- All of these pieces. -/
def Address.cells (x : Address) : List Cell :=
  [.clock, .market x, .token x, .mint x, .blacklist x] ++
    match x with
    | .programData => [.upgradeAuthority]
    | .protocolConfig => [.config]
    | .borrowerWhitelist b => [.whitelist b]
    | .haircutState a | .lender a _ => [.market a]
    | _ => []

theorem Cell.At.mem_cells {x : Address} {k : Cell} (h : k.At x) : k ∈ x.cells := by
  cases k with
  | clock => simp [Address.cells]
  | upgradeAuthority | config | whitelist =>
    obtain rfl : x = _ := h
    simp [Address.cells]
  | market a => rcases h with rfl | rfl | ⟨l, rfl⟩ <;> simp [Address.cells]
  | token | mint | blacklist =>
    obtain rfl : x = _ := h
    simp [Address.cells]

theorem World.ext_cell {w w' : World} (h : ∀ k, w.cell k = w'.cell k) : w = w' := by
  have hwhitelists : w.whitelists = w'.whitelists := Finmap.ext_lookup fun b => h (.whitelist b)
  have hmarkets : w.markets = w'.markets := Finmap.ext_lookup fun a => h (.market a)
  have htokens : w.tokens.accounts = w'.tokens.accounts := Finmap.ext_lookup fun a => h (.token a)
  have hmints : w.mints = w'.mints := funext fun a => h (.mint a)
  have hblacklist : w.blacklist = w'.blacklist := funext fun a => h (.blacklist a)
  have hclock := h .clock
  have hupgrade := h .upgradeAuthority
  have hconfig := h .config
  obtain ⟨_, _, _, _, _, ⟨_, _⟩, _, _⟩ := w
  obtain ⟨_, _, _, _, _, ⟨_, _⟩, _, _⟩ := w'
  simp only [World.cell] at *
  subst_vars
  rfl

/-! ### Loading -/

/-- `g` looks like `w` to an instruction that gets `accounts`. -/
def Sees (accounts : List AccountMeta) (w g : World) : Prop := ∀ k, Passed accounts k → g.cell k = w.cell k

section Load

variable {w g : World} {accounts : List AccountMeta} {x : AccountMeta}

namespace Sees

theorem clock (h : Sees accounts w g) : g.clock = w.clock := h .clock (.inl rfl)

theorem accrueInterest (h : Sees accounts w g) (m : Market) (config : ProtocolConfig) :
    Coalesce.accrueInterest m config g.clock = Coalesce.accrueInterest m config w.clock := by rw [h.clock]

theorem before (h : Sees accounts w g) (t : ℤ) (e : ProgramError) :
    require (g.clock < t) e = require (w.clock < t) e := by simp only [h.clock]

theorem since (h : Sees accounts w g) (t : ℤ) (e : ProgramError) :
    require (t ≤ g.clock) e = require (t ≤ w.clock) e := by simp only [h.clock]

theorem terms (h : Sees accounts w g) (annualInterestBps : ℕ) (maturity : ℤ) (maxTotalSupply : ℕ) :
    checkMarketTerms g.clock annualInterestBps maturity maxTotalSupply =
      checkMarketTerms w.clock annualInterestBps maturity maxTotalSupply := by rw [h.clock]

theorem fresh (h : Sees accounts w g) (borrower vault market : Address) (annualInterestBps : ℕ) (maturity : ℤ)
    (maxTotalSupply nonce : ℕ) :
    freshMarket borrower vault market annualInterestBps maturity maxTotalSupply nonce g.clock =
      freshMarket borrower vault market annualInterestBps maturity maxTotalSupply nonce w.clock := by rw [h.clock]

theorem cell (h : Sees accounts w g) (hx : x ∈ accounts) {k : Cell} (hk : k.At x.address) : g.cell k = w.cell k :=
  h k (.inr ⟨x, hx, hk⟩)

theorem token (h : Sees accounts w g) (hx : x ∈ accounts) :
    g.tokens.lookup x.address = w.tokens.lookup x.address := h.cell (k := .token x.address) hx rfl

theorem market (h : Sees accounts w g) (hx : x ∈ accounts) :
    g.markets.lookup x.address = w.markets.lookup x.address := h.cell (k := .market x.address) hx (.inl rfl)

theorem config (h : Sees accounts w g) (hx : x ∈ accounts) (ha : x.address = .protocolConfig) :
    g.config = w.config := h.cell (k := .config) hx ha

theorem unconfigured (h : Sees accounts w g) (hx : x ∈ accounts) (ha : x.address = .protocolConfig)
    (e : ProgramError) : require (g.config = none) e = require (w.config = none) e := by simp only [h.config hx ha]

theorem authorityIs (h : Sees accounts w g) (hx : x ∈ accounts) (ha : x.address = .programData) (a : Address)
    (e : ProgramError) : require (g.upgradeAuthority = some a) e = require (w.upgradeAuthority = some a) e := by
  have hauthority : g.upgradeAuthority = w.upgradeAuthority := h.cell (k := .upgradeAuthority) hx ha
  simp only [hauthority]

theorem mint (h : Sees accounts w g) (hx : x ∈ accounts) : g.mints x.address = w.mints x.address :=
  h.cell (k := .mint x.address) hx rfl

theorem whitelist (h : Sees accounts w g) (hx : x ∈ accounts) {b : Address} (ha : x.address = .borrowerWhitelist b) :
    g.whitelists.lookup b = w.whitelists.lookup b := h.cell (k := .whitelist b) hx ha

theorem owned (h : Sees accounts w g) (hx : x ∈ accounts) : g.owned x.address = w.owned x.address := by
  have hhome : ∀ {a}, Cell.At x.address (.market a) → g.markets.lookup a = w.markets.lookup a := fun hk => h.cell hx hk
  cases ha : x.address with
  | protocolConfig => exact congrArg Option.isSome (h.config hx ha)
  | market b n => exact congrArg Option.isSome (hhome (.inl ha))
  | haircutState a => exact congrArg Option.isSome (hhome (.inr (.inl ha)))
  | lender a l => simp only [World.owned, hhome (.inr (.inr ⟨l, ha⟩))]
  | borrowerWhitelist b => exact congrArg Option.isSome (h.whitelist hx ha)
  | _ => rfl

theorem lookupPosition (h : Sees accounts w g) (hx : x ∈ accounts) :
    g.lookupPosition x.address = w.lookupPosition x.address := by
  cases ha : x.address with
  | lender a l =>
    have hmarket : g.markets.lookup a = w.markets.lookup a := h.cell (k := .market a) hx (.inr (.inr ⟨l, ha⟩))
    simp only [World.lookupPosition, hmarket]
  | _ => rfl

theorem loadProtocolConfig (h : Sees accounts w g) (hx : x ∈ accounts) :
    Coalesce.loadProtocolConfig g x = Coalesce.loadProtocolConfig w x := by
  unfold Coalesce.loadProtocolConfig
  by_cases ha : x.address = .protocolConfig
  · rw [h.config hx ha]
  · rw [require, if_neg ha]
    rfl

theorem loadConfigAsAdmin (h : Sees accounts w g) (hx : x ∈ accounts) (admin : AccountMeta) :
    Coalesce.loadConfigAsAdmin g x admin = Coalesce.loadConfigAsAdmin w x admin := by
  rw [Coalesce.loadConfigAsAdmin, Coalesce.loadConfigAsAdmin, h.loadProtocolConfig hx]

theorem loadMarket (h : Sees accounts w g) (hx : x ∈ accounts) : Coalesce.loadMarket g x = Coalesce.loadMarket w x := by
  rw [Coalesce.loadMarket, Coalesce.loadMarket, h.owned hx, h.market hx]

theorem loadPositionOfMarket (h : Sees accounts w g) (hx : x ∈ accounts) (market : Address) :
    Coalesce.loadPositionOfMarket g market x = Coalesce.loadPositionOfMarket w market x := by
  rw [Coalesce.loadPositionOfMarket, Coalesce.loadPositionOfMarket, h.owned hx, h.lookupPosition hx]

theorem loadBorrowerWhitelist (h : Sees accounts w g) (hx : x ∈ accounts) (borrower : Address) :
    Coalesce.loadBorrowerWhitelist g borrower x = Coalesce.loadBorrowerWhitelist w borrower x := by
  unfold Coalesce.loadBorrowerWhitelist
  by_cases ha : x.address = .borrowerWhitelist borrower
  · rw [h.whitelist hx ha]
  · rw [require, if_neg ha]
    rfl

theorem loadTokenAccount (h : Sees accounts w g) (hx : x ∈ accounts) :
    Coalesce.loadTokenAccount g x = Coalesce.loadTokenAccount w x := by
  rw [Coalesce.loadTokenAccount, Coalesce.loadTokenAccount, h.token hx]

theorem requireTokenOwned (h : Sees accounts w g) (hx : x ∈ accounts) :
    Coalesce.requireTokenOwned g x = Coalesce.requireTokenOwned w x := by
  rw [Coalesce.requireTokenOwned, Coalesce.requireTokenOwned]
  simp only [h.token hx]

theorem loadVault (h : Sees accounts w g) (hx : x ∈ accounts) (mint : Address) :
    Coalesce.loadVault g mint x = Coalesce.loadVault w mint x := by
  rw [Coalesce.loadVault, Coalesce.loadVault, h.requireTokenOwned hx, h.loadTokenAccount hx]

theorem loadEscrow (h : Sees accounts w g) (hx : x ∈ accounts) (mint lender : Address) :
    Coalesce.loadEscrow g mint lender x = Coalesce.loadEscrow w mint lender x := by
  rw [Coalesce.loadEscrow, Coalesce.loadEscrow, h.requireTokenOwned hx, h.loadTokenAccount hx]

theorem checkBlacklist (h : Sees accounts w g) (hx : x ∈ accounts) (config : ProtocolConfig) (address : Address) :
    Coalesce.checkBlacklist g x config address = Coalesce.checkBlacklist w x config address := by
  have hentry : g.blacklist x.address = w.blacklist x.address := h.cell (k := .blacklist x.address) hx rfl
  rw [Coalesce.checkBlacklist, Coalesce.checkBlacklist, hentry]

theorem checkGracePeriod (h : Sees accounts w g) (m : Market) :
    Coalesce.checkGracePeriod g m = Coalesce.checkGracePeriod w m := by
  rw [Coalesce.checkGracePeriod, Coalesce.checkGracePeriod, h.clock]

theorem settle (h : Sees accounts w g) (hx : x ∈ accounts) (m : Market) :
    Coalesce.settle g m x = Coalesce.settle w m x := by
  rw [Coalesce.settle, Coalesce.settle, h.loadVault hx]

theorem settleOnWithdraw (h : Sees accounts w g) (hx : x ∈ accounts) (m : Market) :
    Coalesce.settleOnWithdraw g m x = Coalesce.settleOnWithdraw w m x := by
  rw [Coalesce.settleOnWithdraw, Coalesce.settleOnWithdraw, h.checkGracePeriod, h.settle hx]

theorem settleOnForceClose (h : Sees accounts w g) (hx : x ∈ accounts) (m : Market) :
    Coalesce.settleOnForceClose g m x = Coalesce.settleOnForceClose w m x := by
  rw [Coalesce.settleOnForceClose, Coalesce.settleOnForceClose, h.requireTokenOwned hx, h.loadTokenAccount hx,
    h.settle hx]

end Sees

end Load

/-! ### Writing back -/

section Write

variable {w w' g g' : World} {accounts : List AccountMeta} {x y : AccountMeta}

/-- Both computations fail with the same error, or they log the same and change what `accounts` hold in the same way;
the second changes nothing else. -/
abbrev SameOutcome (accounts : List AccountMeta) (g : World) : Result (World × Event) → Result (World × Event) → Prop :=
  Both fun r r' => r'.2 = r.2 ∧ Follows World.cell (Passed accounts) r.1 g r'.1

/-- The token accounts that were passed become those of `t`, and the others stay those of `g`. -/
abbrev TokensFollow (accounts : List AccountMeta) (g : World) (t t' : TokenLedger) : Prop :=
  Follows TokenLedger.lookup (fun a => Passed accounts (.token a)) t g.tokens t'

theorem Sees.start (h : Sees accounts w g) : Follows World.cell (Passed accounts) w g g := ⟨h, fun _ _ => rfl⟩

theorem Sees.tokens (h : Sees accounts w g) : TokensFollow accounts g w.tokens g.tokens :=
  ⟨fun a ha => h (.token a) ha, fun _ _ => rfl⟩

theorem passed_of_mem (hx : x ∈ accounts) {k : Cell} (hk : k.At x.address) : Passed accounts k := .inr ⟨x, hx, hk⟩

theorem cell_config {c : Option ProtocolConfig} {k : Cell} (hk : k ≠ .config) :
    World.cell { w with config := c } k = w.cell k := by
  cases k with
  | config => exact absurd rfl hk
  | _ => rfl

theorem cell_whitelist {b : Address} {wl : BorrowerWhitelist} {k : Cell} (hk : k ≠ .whitelist b) :
    World.cell { w with whitelists := w.whitelists.insert b wl } k = w.cell k := by
  cases k with
  | whitelist c => exact Finmap.lookup_insert_of_ne _ fun hcb => hk (hcb ▸ rfl)
  | _ => rfl

theorem cell_setMarket {a : Address} {ma : MarketAccounts} {k : Cell} (hk : k ≠ .market a) :
    (w.setMarket a ma).cell k = w.cell k := by
  cases k with
  | market b => exact Finmap.lookup_insert_of_ne _ fun hba => hk (hba ▸ rfl)
  | _ => rfl

section

variable (h : Follows World.cell (Passed accounts) w' g g')
include h

theorem follows_config {c : Option ProtocolConfig} (hc : Passed accounts .config) :
    Follows World.cell (Passed accounts) { w' with config := c } g { g' with config := c } :=
  h.write hc (fun _ => cell_config) (fun _ => cell_config) rfl

theorem follows_whitelist {b : Address} {wl : BorrowerWhitelist} (hb : Passed accounts (.whitelist b)) :
    Follows World.cell (Passed accounts) { w' with whitelists := w'.whitelists.insert b wl } g
      { g' with whitelists := g'.whitelists.insert b wl } := by
  refine h.write hb (fun _ => cell_whitelist) (fun _ => cell_whitelist) ?_
  show (g'.whitelists.insert b wl).lookup b = (w'.whitelists.insert b wl).lookup b
  rw [Finmap.lookup_insert, Finmap.lookup_insert]

theorem follows_setMarket {a : Address} {ma : MarketAccounts} (ha : Passed accounts (.market a)) :
    Follows World.cell (Passed accounts) (w'.setMarket a ma) g (g'.setMarket a ma) := by
  refine h.write ha (fun _ => cell_setMarket) (fun _ => cell_setMarket) ?_
  show (g'.markets.insert a ma).lookup a = (w'.markets.insert a ma).lookup a
  rw [Finmap.lookup_insert, Finmap.lookup_insert]

theorem follows_tokens {t t' : TokenLedger} (ht : TokensFollow accounts g t t') :
    Follows World.cell (Passed accounts) { w' with tokens := t } g { g' with tokens := t' } where
  inside k hk := by
    cases k with
    | token a => exact ht.inside a hk
    | _ => exact h.inside _ hk
  outside k hk := by
    cases k with
    | token a => exact ht.outside a hk
    | _ => exact h.outside _ hk

end

/-! ### Tokens -/

theorem Sees.transfer (h : Sees accounts w g) (hx : x ∈ accounts) (hy : y ∈ accounts) (authority : Address) (n : ℕ) :
    Both (TokensFollow accounts g) (w.tokens.transfer x.address y.address authority n)
      (g.tokens.transfer x.address y.address authority n) := by
  have hsrc := h.token hx
  have hdst := h.token hy
  cases hs : w.tokens.lookup x.address with
  | none =>
    rw [TokenLedger.transfer_of_none (.inl hs), TokenLedger.transfer_of_none (.inl (hsrc.trans hs))]
    exact .error _
  | some s =>
    cases hd : w.tokens.lookup y.address with
    | none =>
      rw [TokenLedger.transfer_of_none (.inr hd), TokenLedger.transfer_of_none (.inr (hdst.trans hd))]
      exact .error _
    | some d =>
      rw [TokenLedger.transfer_of_lookup hs hd, TokenLedger.transfer_of_lookup (hsrc.trans hs) (hdst.trans hd)]
      split_ifs
      · exact .ok h.tokens
      · refine .ok ⟨fun a ha => ?_, fun a ha => ?_⟩
        · exact (TokenLedger.lookup_moved a).trans (Eq.trans (by rw [h.tokens.inside a ha])
            (TokenLedger.lookup_moved a).symm)
        · refine (TokenLedger.lookup_moved a).trans ?_
          rw [if_neg, if_neg]
          · rintro rfl
            exact ha (passed_of_mem hx rfl)
          · rintro rfl
            exact ha (passed_of_mem hy rfl)
      all_goals exact .error _

theorem Sees.transferIfPositive (h : Sees accounts w g) (hx : x ∈ accounts) (hy : y ∈ accounts) (authority : Address)
    (n : ℕ) :
    Both (TokensFollow accounts g) (Coalesce.transferIfPositive w x.address y.address authority n)
      (Coalesce.transferIfPositive g x.address y.address authority n) := by
  unfold Coalesce.transferIfPositive
  split
  · exact h.transfer hx hy authority n
  · exact .ok h.tokens

theorem Sees.openAccount (h : Sees accounts w g) (hx : x ∈ accounts) (mint owner : Address) :
    Both (TokensFollow accounts g) (w.tokens.openAccount x.address mint owner)
      (g.tokens.openAccount x.address mint owner) := by
  have hfree := h.token hx
  unfold TokenLedger.openAccount
  simp only [hfree]
  split
  · refine .ok (h.tokens.write (k := x.address) (passed_of_mem hx rfl) ?_ ?_ ?_)
    · exact fun a ha => Finmap.lookup_insert_of_ne _ ha
    · exact fun a ha => Finmap.lookup_insert_of_ne _ ha
    · show (g.tokens.accounts.insert _ _).lookup _ = (w.tokens.accounts.insert _ _).lookup _
      rw [Finmap.lookup_insert, Finmap.lookup_insert]
  · exact .error _

end Write

/-! ### The handlers -/

section Handlers

variable {w g : World} {accounts : List AccountMeta} {data : List UInt8}

theorem SameOutcome.ok {w' g' : World} {e : Event} (h : Follows World.cell (Passed accounts) w' g g') :
    SameOutcome accounts g (.ok (w', e)) (.ok (g', e)) := Both.ok ⟨rfl, h⟩

section

variable {x : AccountMeta} {xs : List AccountMeta} {e : Event}

/-- A handler that ends by writing the configuration, in the account that comes first. -/
theorem Sees.writesConfig (h : Sees (x :: xs) w g) (hx : x.address = .protocolConfig) (c : Option ProtocolConfig) :
    SameOutcome (x :: xs) g (.ok ({ w with config := c }, e)) (.ok ({ g with config := c }, e)) :=
  SameOutcome.ok (follows_config h.start (passed_of_mem List.mem_cons_self hx))

/-- A handler that ends by writing tokens, and a market in the account that comes first. -/
theorem Sees.writesMarket (h : Sees (x :: xs) w g) {t t' : TokenLedger} (ht : TokensFollow (x :: xs) g t t')
    (ma : MarketAccounts) :
    SameOutcome (x :: xs) g (.ok ({ w with tokens := t }.setMarket x.address ma, e))
      (.ok ({ g with tokens := t' }.setMarket x.address ma, e)) :=
  SameOutcome.ok (follows_setMarket (follows_tokens h.start ht) (passed_of_mem List.mem_cons_self (.inl rfl)))

end

namespace Sees

variable (h : Sees accounts w g)
include h

theorem initializeProtocol :
    SameOutcome accounts g (Coalesce.initializeProtocol w accounts data)
      (Coalesce.initializeProtocol g accounts data) := by
  unfold Coalesce.initializeProtocol
  split
  · rename_i protocolConfig admin _ _ _ _ programData _
    refine Both.same fun _ _ => Both.same fun _ _ => Both.same fun _ hprogram => ?_
    rw [h.authorityIs (x := programData) (by simp) (require_eq_ok.1 hprogram)]
    refine Both.same fun _ _ => Both.same fun _ _ => Both.same fun _ _ => Both.same fun _ _ => Both.same fun _ _ => ?_
    refine Both.same fun _ hpda => ?_
    have haddress := require_eq_ok.1 hpda
    rw [h.unconfigured List.mem_cons_self haddress]
    refine Both.same fun _ _ => ?_
    exact h.writesConfig haddress _
  · exact .error _

theorem setFeeConfig :
    SameOutcome accounts g (Coalesce.setFeeConfig w accounts data) (Coalesce.setFeeConfig g accounts data) := by
  unfold Coalesce.setFeeConfig
  split
  · simp (disch := simp) only [h.loadConfigAsAdmin]
    refine Both.same fun _ _ => Both.same fun _ hconfig => Both.same fun _ _ => Both.same fun _ _ => ?_
    have haddress := (loadConfigAsAdmin_eq_ok.1 hconfig).1
    exact h.writesConfig haddress _
  · exact .error _

theorem setPause :
    SameOutcome accounts g (Coalesce.setPause w accounts data) (Coalesce.setPause g accounts data) := by
  unfold Coalesce.setPause
  split
  · simp (disch := simp) only [h.loadConfigAsAdmin]
    refine Both.same fun _ _ => Both.same fun _ hconfig => ?_
    have haddress := (loadConfigAsAdmin_eq_ok.1 hconfig).1
    exact h.writesConfig haddress _
  · exact .error _

theorem setBlacklistMode :
    SameOutcome accounts g (Coalesce.setBlacklistMode w accounts data) (Coalesce.setBlacklistMode g accounts data) := by
  unfold Coalesce.setBlacklistMode
  split
  · simp (disch := simp) only [h.loadConfigAsAdmin]
    refine Both.same fun _ _ => Both.same fun _ hconfig => ?_
    have haddress := (loadConfigAsAdmin_eq_ok.1 hconfig).1
    exact h.writesConfig haddress _
  · exact .error _

theorem setAdmin : SameOutcome accounts g (Coalesce.setAdmin w accounts) (Coalesce.setAdmin g accounts) := by
  unfold Coalesce.setAdmin
  split
  · simp (disch := simp) only [h.loadConfigAsAdmin]
    refine Both.same fun _ hconfig => Both.same fun _ _ => ?_
    have haddress := (loadConfigAsAdmin_eq_ok.1 hconfig).1
    exact h.writesConfig haddress _
  · exact .error _

theorem setWhitelistManager :
    SameOutcome accounts g (Coalesce.setWhitelistManager w accounts) (Coalesce.setWhitelistManager g accounts) := by
  unfold Coalesce.setWhitelistManager
  split
  · simp (disch := simp) only [h.loadConfigAsAdmin]
    refine Both.same fun _ hconfig => Both.same fun _ _ => ?_
    have haddress := (loadConfigAsAdmin_eq_ok.1 hconfig).1
    exact h.writesConfig haddress _
  · exact .error _

theorem setBorrowerWhitelist :
    SameOutcome accounts g (Coalesce.setBorrowerWhitelist w accounts data)
      (Coalesce.setBorrowerWhitelist g accounts data) := by
  unfold Coalesce.setBorrowerWhitelist
  split
  · simp (disch := simp) only [h.loadProtocolConfig]
    refine Both.same fun _ _ => Both.same fun _ _ => Both.same fun _ _ => Both.same fun _ _ => Both.same fun _ _ => ?_
    refine Both.same fun _ hpda => ?_
    have haddress := require_eq_ok.1 hpda
    rw [h.whitelist List.mem_cons_self haddress]
    refine Both.same fun _ _ => ?_
    exact SameOutcome.ok (follows_whitelist h.start (passed_of_mem List.mem_cons_self haddress))
  · exact .error _

theorem createMarket :
    SameOutcome accounts g (Coalesce.createMarket w accounts data) (Coalesce.createMarket g accounts data) := by
  unfold Coalesce.createMarket
  split
  · simp (disch := simp) only [h.loadProtocolConfig, h.terms, h.mint, h.loadBorrowerWhitelist, h.checkBlacklist,
      h.market, h.fresh]
    repeat refine Both.same fun _ _ => ?_
    refine (h.openAccount (by simp) _ _).bind fun t t' _ ht => Both.same fun _ _ => ?_
    exact h.writesMarket ht _
  · exact .error _

theorem deposit : SameOutcome accounts g (Coalesce.deposit w accounts data) (Coalesce.deposit g accounts data) := by
  unfold Coalesce.deposit
  split
  · simp (disch := simp) only [h.loadProtocolConfig, h.loadMarket, h.loadTokenAccount, h.checkBlacklist, h.before,
      h.accrueInterest]
    repeat refine Both.same fun _ _ => ?_
    refine (h.transfer (by simp) (by simp) _ _).bind fun t t' _ ht => ?_
    exact h.writesMarket ht _
  · exact .error _

theorem borrow : SameOutcome accounts g (Coalesce.borrow w accounts data) (Coalesce.borrow g accounts data) := by
  unfold Coalesce.borrow
  split
  · simp (disch := simp) only [h.loadProtocolConfig, h.loadMarket, h.loadBorrowerWhitelist, h.loadTokenAccount,
      h.requireTokenOwned, h.loadVault, h.checkBlacklist, h.before, h.accrueInterest]
    repeat refine Both.same fun _ _ => ?_
    rename Coalesce.loadBorrowerWhitelist _ _ _ = _ => hwl
    refine (h.transfer (by simp) (by simp) _ _).bind fun t t' _ ht => ?_
    refine SameOutcome.ok (follows_setMarket (follows_whitelist (follows_tokens h.start ht) ?_)
      (passed_of_mem List.mem_cons_self (.inl rfl)))
    exact passed_of_mem (by simp) (loadBorrowerWhitelist_eq_ok.1 hwl).1
  · exact .error _

theorem repay : SameOutcome accounts g (Coalesce.repay w accounts data) (Coalesce.repay g accounts data) := by
  unfold Coalesce.repay
  split
  · simp (disch := simp) only [h.loadProtocolConfig, h.loadMarket, h.loadBorrowerWhitelist, h.loadTokenAccount,
      h.requireTokenOwned, h.accrueInterest]
    repeat refine Both.same fun _ _ => ?_
    rename Coalesce.loadBorrowerWhitelist _ _ _ = _ => hwl
    refine (h.transfer (by simp) (by simp) _ _).bind fun t t' _ ht => ?_
    refine SameOutcome.ok (follows_setMarket (follows_whitelist (follows_tokens h.start ht) ?_)
      (passed_of_mem List.mem_cons_self (.inl rfl)))
    exact passed_of_mem (by simp) (loadBorrowerWhitelist_eq_ok.1 hwl).1
  · exact .error _

theorem repayInterest :
    SameOutcome accounts g (Coalesce.repayInterest w accounts data) (Coalesce.repayInterest g accounts data) := by
  unfold Coalesce.repayInterest
  split
  · simp (disch := simp) only [h.loadProtocolConfig, h.loadMarket, h.loadTokenAccount, h.requireTokenOwned,
      h.accrueInterest]
    repeat refine Both.same fun _ _ => ?_
    refine (h.transfer (by simp) (by simp) _ _).bind fun t t' _ ht => ?_
    exact h.writesMarket ht _
  · exact .error _

theorem withdraw : SameOutcome accounts g (Coalesce.withdraw w accounts data) (Coalesce.withdraw g accounts data) := by
  unfold Coalesce.withdraw
  split
  · simp (disch := simp) only [h.loadProtocolConfig, h.loadMarket, h.loadTokenAccount, h.checkBlacklist,
      h.settleOnWithdraw, h.since, h.accrueInterest]
    repeat refine Both.same fun _ _ => ?_
    refine (h.transfer (by simp) (by simp) _ _).bind fun t t' _ ht => ?_
    exact h.writesMarket ht _
  · exact .error _

theorem collectFees : SameOutcome accounts g (Coalesce.collectFees w accounts) (Coalesce.collectFees g accounts) := by
  unfold Coalesce.collectFees
  split
  · simp (disch := simp) only [h.loadProtocolConfig, h.loadMarket, h.loadVault, h.accrueInterest]
    repeat refine Both.same fun _ _ => ?_
    refine (h.transfer (by simp) (by simp) _ _).bind fun t t' _ ht => ?_
    exact h.writesMarket ht _
  · exact .error _

theorem reSettle : SameOutcome accounts g (Coalesce.reSettle w accounts) (Coalesce.reSettle g accounts) := by
  unfold Coalesce.reSettle
  split
  · simp (disch := simp) only [h.loadProtocolConfig, h.loadMarket, h.loadTokenAccount, h.requireTokenOwned,
      h.accrueInterest]
    repeat refine Both.same fun _ _ => ?_
    exact SameOutcome.ok (follows_setMarket h.start (passed_of_mem List.mem_cons_self (.inl rfl)))
  · exact .error _

theorem closeLenderPosition :
    SameOutcome accounts g (Coalesce.closeLenderPosition w accounts) (Coalesce.closeLenderPosition g accounts) := by
  unfold Coalesce.closeLenderPosition
  split
  · simp (disch := simp) only [h.loadProtocolConfig, h.loadMarket]
    repeat refine Both.same fun _ _ => ?_
    exact SameOutcome.ok (follows_setMarket h.start (passed_of_mem List.mem_cons_self (.inl rfl)))
  · exact .error _

theorem withdrawExcess :
    SameOutcome accounts g (Coalesce.withdrawExcess w accounts) (Coalesce.withdrawExcess g accounts) := by
  unfold Coalesce.withdrawExcess
  split
  · simp (disch := simp) only [h.loadProtocolConfig, h.loadMarket, h.loadBorrowerWhitelist, h.loadTokenAccount,
      h.loadVault, h.checkBlacklist, h.since]
    repeat refine Both.same fun _ _ => ?_
    refine (h.transfer (by simp) (by simp) _ _).bind fun t t' _ ht => ?_
    exact SameOutcome.ok (follows_tokens h.start ht)
  · exact .error _

theorem forceClosePosition :
    SameOutcome accounts g (Coalesce.forceClosePosition w accounts) (Coalesce.forceClosePosition g accounts) := by
  unfold Coalesce.forceClosePosition
  split
  · simp (disch := simp) only [h.loadProtocolConfig, h.loadMarket, h.loadPositionOfMarket, h.loadEscrow,
      h.checkGracePeriod, h.settleOnForceClose, h.since, h.accrueInterest]
    repeat refine Both.same fun _ _ => ?_
    refine (h.transferIfPositive (by simp) (by simp) _ _).bind fun t t' _ ht => ?_
    exact h.writesMarket ht _
  · exact .error _

theorem claimHaircut :
    SameOutcome accounts g (Coalesce.claimHaircut w accounts) (Coalesce.claimHaircut g accounts) := by
  unfold Coalesce.claimHaircut
  split
  · simp (disch := simp) only [h.loadProtocolConfig, h.loadMarket, h.loadTokenAccount, h.loadVault]
    repeat refine Both.same fun _ _ => ?_
    refine (h.transfer (by simp) (by simp) _ _).bind fun t t' _ ht => ?_
    exact h.writesMarket ht _
  · exact .error _

theorem forceClaimHaircut :
    SameOutcome accounts g (Coalesce.forceClaimHaircut w accounts) (Coalesce.forceClaimHaircut g accounts) := by
  unfold Coalesce.forceClaimHaircut
  split
  · simp (disch := simp) only [h.loadProtocolConfig, h.loadMarket, h.loadPositionOfMarket, h.loadVault, h.loadEscrow,
      h.checkGracePeriod, h.since]
    repeat refine Both.same fun _ _ => ?_
    refine (h.transfer (by simp) (by simp) _ _).bind fun t t' _ ht => ?_
    exact h.writesMarket ht _
  · exact .error _

end Sees

theorem Sees.processInstruction (h : Sees accounts w g) :
    SameOutcome accounts g (Coalesce.processInstruction w accounts data)
      (Coalesce.processInstruction g accounts data) := by
  cases data with
  | nil => exact .error _
  | cons b data =>
    rw [processInstruction_cons, processInstruction_cons]
    cases Kind.ofNumber b with
    | none => exact .error _
    | some k =>
      cases k with
      | initializeProtocol => exact h.initializeProtocol
      | setFeeConfig => exact h.setFeeConfig
      | createMarket => exact h.createMarket
      | deposit => exact h.deposit
      | borrow => exact h.borrow
      | repay => exact h.repay
      | repayInterest => exact h.repayInterest
      | withdraw => exact h.withdraw
      | collectFees => exact h.collectFees
      | reSettle => exact h.reSettle
      | closeLenderPosition => exact h.closeLenderPosition
      | withdrawExcess => exact h.withdrawExcess
      | setBorrowerWhitelist => exact h.setBorrowerWhitelist
      | setPause => exact h.setPause
      | setBlacklistMode => exact h.setBlacklistMode
      | setAdmin => exact h.setAdmin
      | setWhitelistManager => exact h.setWhitelistManager
      | forceClosePosition => exact h.forceClosePosition
      | claimHaircut => exact h.claimHaircut
      | forceClaimHaircut => exact h.forceClaimHaircut

end Handlers

/-! ### Batches -/

/-- The program is local to the accounts that are passed to it. -/
theorem processInstruction_local :
    Local (fun (c : List AccountMeta × List UInt8) w => processInstruction w c.1 c.2) World.cell
      (fun c => Passed c.1) where
  ext := World.ext_cell
  follows h := Sees.processInstruction h

theorem World.executeAll_eq_steps (w : World) (cs : List (List AccountMeta × List UInt8)) :
    w.executeAll cs = steps (fun (c : List AccountMeta × List UInt8) w => processInstruction w c.1 c.2) cs w := by
  induction cs generalizing w with
  | nil => rfl
  | cons c cs ih =>
    unfold executeAll steps
    simp only [ih]

/-! ### A check of independence -/

instance : (k : Cell) → DecidableEq k.Content
  | .clock => inferInstanceAs (DecidableEq ℤ)
  | .upgradeAuthority => inferInstanceAs (DecidableEq (Option Address))
  | .config => inferInstanceAs (DecidableEq (Option ProtocolConfig))
  | .whitelist _ => inferInstanceAs (DecidableEq (Option BorrowerWhitelist))
  | .market _ => inferInstanceAs (DecidableEq (Option MarketAccounts))
  | .token _ => inferInstanceAs (DecidableEq (Option TokenAccount))
  | .mint _ => inferInstanceAs (DecidableEq (Option ℕ))
  | .blacklist _ => inferInstanceAs (DecidableEq (Option (List UInt8)))

/-- The clock and what the accounts hold are the same in both states. -/
def World.sameAt (w w' : World) (accounts : List AccountMeta) : Bool :=
  decide (w'.clock = w.clock) && accounts.all fun x => x.address.cells.all fun k => decide (w'.cell k = w.cell k)

theorem World.cell_eq_of_sameAt {w w' : World} {accounts : List AccountMeta} (h : w.sameAt w' accounts = true)
    {k : Cell} (hk : Passed accounts k) : w'.cell k = w.cell k := by
  simp only [sameAt, Bool.and_eq_true, List.all_eq_true, decide_eq_true_eq] at h
  rcases hk with rfl | ⟨x, hx, hk⟩
  · exact h.1
  · exact h.2 x hx k hk.mem_cells

theorem independent_of_sameAt {w : World} {res : List AccountMeta × List UInt8 → World × Event}
    {c d : List AccountMeta × List UInt8} (hc : w.sameAt (res c).1 d.1 = true) (hd : w.sameAt (res d).1 c.1 = true) :
    Independent World.cell (fun c : List AccountMeta × List UInt8 => Passed c.1) w res c d :=
  ⟨fun _ => World.cell_eq_of_sameAt hc, fun _ => World.cell_eq_of_sameAt hd⟩

namespace Sample

/-- Two open markets. -/
def twoMarkets : World := genesis.performAll [configure, whitelist, create, create₂]

def call : Action → List AccountMeta × List UInt8
  | .instruction accounts data => (accounts, data)
  | .clock _ => ([], [])

def depositCall : List AccountMeta × List UInt8 := call (deposit alice 6)

def depositCall₂ : List AccountMeta × List UInt8 := call (deposit₂ bob 5)

/-- What an instruction does to the two open markets. -/
def outcome (c : List AccountMeta × List UInt8) : World × Event :=
  (processInstruction twoMarkets c.1 c.2).toOption.getD (twoMarkets, .setPause false)

theorem outcome_eq {c : List AccountMeta × List UInt8} (h : (processInstruction twoMarkets c.1 c.2).toOption.isSome) :
    processInstruction twoMarkets c.1 c.2 = .ok (outcome c) := by
  unfold outcome
  cases hr : processInstruction twoMarkets c.1 c.2 with
  | error e =>
    rw [hr] at h
    cases h
  | ok r => rfl

end Sample

/-- Let the instructions of a batch succeed each on its own, and none change a piece that another can see.  Then every
order of the batch succeeds, logs what they log on their own, and leads to the same state, which has of every piece
what the instruction left that changed it. -/
theorem batch_any_order {w : World} {batch : List (List AccountMeta × List UInt8)}
    {res : List AccountMeta × List UInt8 → World × Event}
    (hok : ∀ c ∈ batch, processInstruction w c.1 c.2 = .ok (res c))
    (hind : batch.Pairwise (Independent World.cell (fun c => Passed c.1) w res)) :
    ∃ w', Combines World.cell w res batch w' ∧
      ∀ order, order.Perm batch → w.executeAll order = .ok (w', order.map fun c => (res c).2) := by
  obtain ⟨w', hcombines, horder⟩ := processInstruction_local.any_order hok hind
  refine ⟨w', hcombines, fun order hperm => ?_⟩
  rw [World.executeAll_eq_steps]
  exact horder order hperm

/-- Deposits of two lenders to two markets. -/
theorem batch_any_order_deposits :
    ∃ w', Sample.twoMarkets.executeAll [Sample.depositCall, Sample.depositCall₂] =
        .ok (w', [.deposit Sample.market Sample.alice 6 6, .deposit Sample.market₂ Sample.bob 5 5]) ∧
      Sample.twoMarkets.executeAll [Sample.depositCall₂, Sample.depositCall] =
        .ok (w', [.deposit Sample.market₂ Sample.bob 5 5, .deposit Sample.market Sample.alice 6 6]) := by
  have hfirst : (Sample.outcome Sample.depositCall).2 = .deposit Sample.market Sample.alice 6 6 := by decide +kernel
  have hsecond : (Sample.outcome Sample.depositCall₂).2 = .deposit Sample.market₂ Sample.bob 5 5 := by decide +kernel
  have hok : ∀ c ∈ [Sample.depositCall, Sample.depositCall₂],
      processInstruction Sample.twoMarkets c.1 c.2 = .ok (Sample.outcome c) := by
    intro c hc
    rcases List.mem_pair.1 hc with rfl | rfl <;> exact Sample.outcome_eq (by decide +kernel)
  have hind : Independent World.cell (fun c : List AccountMeta × List UInt8 => Passed c.1) Sample.twoMarkets
      Sample.outcome Sample.depositCall Sample.depositCall₂ :=
    independent_of_sameAt (by decide +kernel) (by decide +kernel)
  obtain ⟨w', -, h⟩ := batch_any_order hok (List.pairwise_pair.2 hind)
  have hinOrder := h [Sample.depositCall, Sample.depositCall₂] (List.Perm.refl _)
  have hswapped := h [Sample.depositCall₂, Sample.depositCall] (List.Perm.swap _ _ _)
  simp only [List.map_cons, List.map_nil, hfirst, hsecond] at hinOrder hswapped
  exact ⟨w', hinOrder, hswapped⟩

end Coalesce
