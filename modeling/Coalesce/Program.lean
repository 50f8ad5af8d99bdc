import Coalesce.Processor.Admin
import Coalesce.Processor.Settlement
import Coalesce.Lib.Runs

/-!
# The program

The dispatch on the first byte of the instruction data, and the steps of the chain as the program sees it: an
instruction that succeeds (one that fails changes nothing), the clock moving on, and everything else that happens to
token accounts and to accounts of other programs.
-/

namespace Coalesce

/-- `process_instruction`. -/
def processInstruction (w : World) (accounts : List AccountMeta) (data : List UInt8) : Result (World × Event) :=
  match data with
  | [] => .error .invalidInstructionData
  | disc :: data =>
    match disc.toNat with
    | 0 => initializeProtocol w accounts data
    | 1 => setFeeConfig w accounts data
    | 2 => createMarket w accounts data
    | 3 => deposit w accounts data
    | 4 => borrow w accounts data
    | 5 => repay w accounts data
    | 6 => repayInterest w accounts data
    | 7 => withdraw w accounts data
    | 8 => collectFees w accounts
    | 9 => reSettle w accounts
    | 10 => closeLenderPosition w accounts
    | 11 => withdrawExcess w accounts
    | 12 => setBorrowerWhitelist w accounts data
    | 13 => setPause w accounts data
    | 14 => setBlacklistMode w accounts data
    | 15 => setAdmin w accounts
    | 16 => setWhitelistManager w accounts
    | 18 => forceClosePosition w accounts
    | 19 => claimHaircut w accounts
    | 20 => forceClaimHaircut w accounts
    | _ => .error .invalidInstructionData

/-- Token accounts change outside of the program, but the account at a vault address can only be opened by this
program, is never closed, and is debited only by it. -/
def VaultKept (t t' : TokenLedger) (a : Address) : Prop :=
  t'.holder a = t.holder a ∧ t.amount a ≤ t'.amount a

inductive Step (w : World) : Option Event → World → Prop
  | instruction {accounts : List AccountMeta} {data : List UInt8} {w' : World} {event : Event}
      (hsigners : ∀ a ∈ accounts, a.isSigner → a.address.isKey)
      (h : processInstruction w accounts data = .ok (w', event)) : Step w (some event) w'
  | clock {now : ℤ} (h : w.clock ≤ now) (hmax : now ≤ i64Max) : Step w none { w with clock := now }
  | tokens {t : TokenLedger} (h : ∀ m, VaultKept w.tokens t (.vault m)) : Step w none { w with tokens := t }
  | external {blacklist : Address → Option (List UInt8)} {mints : Address → Option ℕ}
      {upgradeAuthority : Option Address} : Step w none { w with blacklist, mints, upgradeAuthority }

/-- The chain before the first instruction of the program: none of its accounts exist. -/
structure Genesis (w : World) : Prop where
  config : w.config = none
  whitelists : w.whitelists = ∅
  markets : w.markets = ∅
  vaults : ∀ m, w.tokens.lookup (.vault m) = none
  clock : w.clock ≤ i64Max

abbrev Reachable : World → Prop := Transition.Reachable Genesis Step

abbrev Record := Transition.Record World (Option Event)

abbrev Run : World → List Record → World → Prop := Transition.Run Step

/-! ### Executing instructions -/

inductive Action
  | instruction (accounts : List AccountMeta) (data : List UInt8)
  | clock (now : ℤ)

/-- The steps that can be computed; `none` if the instruction fails. -/
def World.perform (w : World) : Action → Option (World × Option Event)
  | .instruction accounts data =>
    if ∀ x ∈ accounts, x.isSigner → x.address.isKey then
      match processInstruction w accounts data with
      | .ok (w', event) => some (w', some event)
      | .error _ => none
    else none
  | .clock now => if w.clock ≤ now ∧ now ≤ i64Max then some ({ w with clock := now }, none) else none

theorem World.perform_step {w : World} {act : Action} {r : World × Option Event} (h : w.perform act = some r) :
    Step w r.2 r.1 := by
  cases act with
  | instruction accounts data =>
    simp only [World.perform] at h
    split at h
    · rename_i hsign
      split at h
      · rename_i w' event hok
        obtain rfl := Option.some.inj h
        exact .instruction hsign hok
      · cases h
    · cases h
  | clock now =>
    simp only [World.perform] at h
    split at h
    · rename_i hnow
      obtain rfl := Option.some.inj h
      exact .clock hnow.1 hnow.2
    · cases h

/-- The state after a list of actions, as long as they succeed. -/
def World.performAll (w : World) : List Action → World
  | [] => w
  | act :: acts => match w.perform act with
    | some r => r.1.performAll acts
    | none => w

/-- The steps of `performAll`, the newest first. -/
def World.history (w : World) : List Action → List Record
  | [] => []
  | act :: acts => match w.perform act with
    | some r => r.1.history acts ++ [⟨w, r.2, r.1⟩]
    | none => []

theorem World.performAll_run (w : World) (acts : List Action) : Run w (w.history acts) (w.performAll acts) := by
  induction acts generalizing w with
  | nil => exact .nil
  | cons act acts ih =>
    rw [performAll, history]
    split
    · exact (Transition.Run.cons .nil (World.perform_step ‹_›)).trans (ih _)
    · exact .nil

/-- A single action. -/
theorem World.performAll_single {w : World} {act : Action} {e : Option Event}
    (h : (w.perform act).map Prod.snd = some e) :
    Step w e (w.performAll [act]) ∧ w.history [act] = [⟨w, e, w.performAll [act]⟩] := by
  obtain ⟨r, hr, rfl⟩ := Option.map_eq_some_iff.1 h
  have hpost : w.performAll [act] = r.1 := by simp [performAll, hr]
  rw [hpost]
  exact ⟨perform_step hr, by simp [history, hr]⟩

theorem World.performAll_reachable {w : World} (h : Reachable w) (acts : List Action) :
    Reachable (w.performAll acts) :=
  (w.performAll_run acts).reachable h

/-! ### The accounts of a client

The account lists that a client passes for the market at the address `a`. -/

def account (a : Address) : AccountMeta := ⟨a, false⟩

def signer (a : Address) : AccountMeta := ⟨a, true⟩

def withdrawAccounts (a lender token blacklistProgram : Address) : List AccountMeta :=
  [account a, signer lender, account token, account (.vault a), account (.lender a lender),
    account (.marketAuthority a), account (.blacklist blacklistProgram lender), account .protocolConfig,
    account TOKEN_PROGRAM_ID, account (.haircutState a)]

def forceClosePositionAccounts (a borrower lender token : Address) : List AccountMeta :=
  [account a, signer borrower, account (.lender a lender), account (.vault a), account token,
    account (.marketAuthority a), account .protocolConfig, account TOKEN_PROGRAM_ID, account (.haircutState a)]

def claimHaircutAccounts (a lender token : Address) : List AccountMeta :=
  [account a, signer lender, account (.lender a lender), account token, account (.vault a),
    account (.marketAuthority a), account (.haircutState a), account .protocolConfig, account TOKEN_PROGRAM_ID]

def forceClaimHaircutAccounts (a borrower lender token : Address) : List AccountMeta :=
  [account a, signer borrower, account (.lender a lender), account token, account (.vault a),
    account (.marketAuthority a), account (.haircutState a), account .protocolConfig, account TOKEN_PROGRAM_ID]

def reSettleAccounts (a : Address) : List AccountMeta :=
  [account a, account (.vault a), account .protocolConfig, account (.haircutState a)]

def closeLenderPositionAccounts (a lender : Address) : List AccountMeta :=
  [account a, signer lender, account (.lender a lender), account ZERO_ADDRESS, account .protocolConfig]

/-- `n` little-endian bytes. -/
def leBytes (n x : ℕ) : List UInt8 := (List.range n).map fun i => UInt8.ofNat (x / 256 ^ i)

/-! ### A small market

One borrower and two lenders in a market without interest, to run the program on. -/

namespace Sample

def admin : Address := .key 1

def borrower : Address := .key 2

def alice : Address := .key 3

def bob : Address := .key 4

def blacklistProgram : Address := .key 5

/-- Rent and system accounts, which the handlers pass on. -/
def other : AccountMeta := account (.key 6)

/-- The token account of a key. -/
def wallet : Address → Address
  | .key n => .key (100 + n)
  | a => a

def market : Address := .market borrower 0

def vault : AccountMeta := account (.vault market)

def authority : AccountMeta := account (.marketAuthority market)

def config : AccountMeta := account .protocolConfig

def blacklist (a : Address) : AccountMeta := account (.blacklist blacklistProgram a)

def wallets : Finmap fun _ : Address => TokenAccount :=
  (((∅ : Finmap fun _ : Address => TokenAccount).insert (wallet borrower)
    { mint := USDC_MINT, owner := borrower, amount := WAD }).insert (wallet alice)
    { mint := USDC_MINT, owner := alice, amount := WAD }).insert (wallet bob)
    { mint := USDC_MINT, owner := bob, amount := WAD }

theorem wallets_le (mint : Address) : wallets.total (TokenAccount.amountOf mint) ≤ u64Max := by
  have hle : wallets.total TokenAccount.amount ≤ u64Max := by decide +kernel
  refine le_trans (Finmap.total_le_total ?_) hle
  intro _ x _
  unfold TokenAccount.amountOf
  split
  · exact le_rfl
  · exact Nat.zero_le _

def genesis : World where
  clock := 0
  upgradeAuthority := some admin
  config := none
  whitelists := ∅
  markets := ∅
  tokens := ⟨wallets, wallets_le⟩
  mints a := if a = USDC_MINT then some USDC_DECIMALS else none
  blacklist _ := none

theorem genesis_initial : Genesis genesis := by
  refine ⟨rfl, rfl, rfl, ?_, by decide⟩
  intro m
  have hne (n : ℕ) : Address.vault m ≠ .key n := Address.noConfusion
  show wallets.lookup _ = none
  simp only [wallets, wallet, bob, alice, borrower, Finmap.lookup_insert_of_ne _ (hne _), Finmap.lookup_empty]

theorem genesis_reachable : Reachable genesis := .init genesis_initial

def configure : Action :=
  .instruction [config, signer admin, account admin, account admin, account blacklistProgram, other,
    account .programData] (0 :: leBytes 2 0)

def whitelist : Action :=
  .instruction [account (.borrowerWhitelist borrower), config, signer admin, account borrower, other]
    (12 :: 1 :: leBytes 8 WAD)

/-- The market matures at 100. -/
def create : Action :=
  .instruction [account market, signer borrower, account USDC_MINT, vault, authority, config,
    account (.borrowerWhitelist borrower), blacklist borrower, other, other, account (.haircutState market)]
    (2 :: leBytes 8 0 ++ leBytes 2 0 ++ leBytes 8 100 ++ leBytes 8 (2 * WAD))

/-- The same market at another rate and maturity. -/
def createWith (annualBps maturity : ℕ) : Action :=
  .instruction [account market, signer borrower, account USDC_MINT, vault, authority, config,
    account (.borrowerWhitelist borrower), blacklist borrower, other, other, account (.haircutState market)]
    (2 :: leBytes 8 0 ++ leBytes 2 annualBps ++ leBytes 8 maturity ++ leBytes 8 (2 * WAD))

def deposit (lender : Address) (amount : ℕ) : Action :=
  .instruction [account market, signer lender, account (wallet lender), vault, account (.lender market lender),
    blacklist lender, config, account USDC_MINT, account TOKEN_PROGRAM_ID, other] (3 :: leBytes 8 amount)

def borrow (amount : ℕ) : Action :=
  .instruction [account market, signer borrower, account (wallet borrower), vault, authority,
    account (.borrowerWhitelist borrower), blacklist borrower, config, account TOKEN_PROGRAM_ID] (4 :: leBytes 8 amount)

def repay (amount : ℕ) : Action :=
  .instruction [account market, signer borrower, account (wallet borrower), vault, config, account USDC_MINT,
    account (.borrowerWhitelist borrower), account TOKEN_PROGRAM_ID] (5 :: leBytes 8 amount)

def withdraw (lender : Address) (scaled : ℕ) : Action :=
  .instruction (withdrawAccounts market lender (wallet lender) blacklistProgram)
    (7 :: leBytes 16 scaled ++ leBytes 8 0)

def reSettle : Action := .instruction (reSettleAccounts market) [9]

def claim (lender : Address) : Action :=
  .instruction (claimHaircutAccounts market lender (wallet lender)) [19]

/-- Alice deposits 6, Bob 10, and 8 of them are borrowed; then the grace period passes. -/
def defaulted : List Action :=
  [configure, whitelist, create, deposit alice 6, deposit bob 10, borrow 8, .clock 400]

/-- Both lenders take out 2 at the factor one half. -/
def haircut : List Action := defaulted ++ [withdraw alice 2, withdraw bob 2]

end Sample

end Coalesce
