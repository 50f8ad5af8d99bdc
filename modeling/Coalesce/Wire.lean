import Coalesce.Exits
import Coalesce.Lib.Pod

/-!
# Instruction data

The data of an instruction is its number and then its arguments, one after the other.  `Instruction.ofBytes` reads it
as a client would write it with `Instruction.toBytes`; `instruction_data` says that the program does the same: it
accepts only such data, ignores what stands behind it, and does what the arguments say.
-/

namespace Coalesce

/-- The instructions of the program. -/
inductive Kind
  | initializeProtocol | setFeeConfig | createMarket | deposit | borrow | repay | repayInterest | withdraw
  | collectFees | reSettle | closeLenderPosition | withdrawExcess | setBorrowerWhitelist | setPause | setBlacklistMode
  | setAdmin | setWhitelistManager | forceClosePosition | claimHaircut | forceClaimHaircut
  deriving DecidableEq

namespace Kind

def number : Kind → UInt8
  | initializeProtocol => 0
  | setFeeConfig => 1
  | createMarket => 2
  | deposit => 3
  | borrow => 4
  | repay => 5
  | repayInterest => 6
  | withdraw => 7
  | collectFees => 8
  | reSettle => 9
  | closeLenderPosition => 10
  | withdrawExcess => 11
  | setBorrowerWhitelist => 12
  | setPause => 13
  | setBlacklistMode => 14
  | setAdmin => 15
  | setWhitelistManager => 16
  | forceClosePosition => 18
  | claimHaircut => 19
  | forceClaimHaircut => 20

def ofNumber (b : UInt8) : Option Kind :=
  match b.toNat with
  | 0 => some initializeProtocol
  | 1 => some setFeeConfig
  | 2 => some createMarket
  | 3 => some deposit
  | 4 => some borrow
  | 5 => some repay
  | 6 => some repayInterest
  | 7 => some withdraw
  | 8 => some collectFees
  | 9 => some reSettle
  | 10 => some closeLenderPosition
  | 11 => some withdrawExcess
  | 12 => some setBorrowerWhitelist
  | 13 => some setPause
  | 14 => some setBlacklistMode
  | 15 => some setAdmin
  | 16 => some setWhitelistManager
  | 18 => some forceClosePosition
  | 19 => some claimHaircut
  | 20 => some forceClaimHaircut
  | _ => none

/-- The arguments, in the order of the data. -/
abbrev Args : Kind → Type
  | initializeProtocol | setFeeConfig => Word 2
  | createMarket => Word 8 × Word 2 × Word 8 × Word 8
  | deposit | borrow | repay | repayInterest => Word 8
  | withdraw => Word 16 × Word 8
  | setBorrowerWhitelist => UInt8 × Word 8
  | setPause | setBlacklistMode => UInt8
  | _ => Unit

def pod : (k : Kind) → Pod k.Args
  | initializeProtocol | setFeeConfig => .bytes 2
  | createMarket => .prod (.bytes 8) (.prod (.bytes 2) (.prod (.bytes 8) (.bytes 8)))
  | deposit | borrow | repay | repayInterest => .bytes 8
  | withdraw => .prod (.bytes 16) (.bytes 8)
  | setBorrowerWhitelist => .prod .byte (.bytes 8)
  | setPause | setBlacklistMode => .byte
  | collectFees | reSettle | closeLenderPosition | withdrawExcess | setAdmin | setWhitelistManager | forceClosePosition
    | claimHaircut | forceClaimHaircut => .unit

def handler : Kind → World → List AccountMeta → List UInt8 → Result (World × Event)
  | initializeProtocol => Coalesce.initializeProtocol
  | setFeeConfig => Coalesce.setFeeConfig
  | createMarket => Coalesce.createMarket
  | deposit => Coalesce.deposit
  | borrow => Coalesce.borrow
  | repay => Coalesce.repay
  | repayInterest => Coalesce.repayInterest
  | withdraw => Coalesce.withdraw
  | collectFees => fun w accounts _ => Coalesce.collectFees w accounts
  | reSettle => fun w accounts _ => Coalesce.reSettle w accounts
  | closeLenderPosition => fun w accounts _ => Coalesce.closeLenderPosition w accounts
  | withdrawExcess => fun w accounts _ => Coalesce.withdrawExcess w accounts
  | setBorrowerWhitelist => Coalesce.setBorrowerWhitelist
  | setPause => Coalesce.setPause
  | setBlacklistMode => Coalesce.setBlacklistMode
  | setAdmin => fun w accounts _ => Coalesce.setAdmin w accounts
  | setWhitelistManager => fun w accounts _ => Coalesce.setWhitelistManager w accounts
  | forceClosePosition => fun w accounts _ => Coalesce.forceClosePosition w accounts
  | claimHaircut => fun w accounts _ => Coalesce.claimHaircut w accounts
  | forceClaimHaircut => fun w accounts _ => Coalesce.forceClaimHaircut w accounts

theorem ofNumber_eq_some {b : UInt8} {k : Kind} : ofNumber b = some k ↔ k.number = b := by
  constructor
  · intro h
    unfold ofNumber at h
    split at h
    case h_21 => cases h
    all_goals
      rename_i hb
      obtain rfl := Option.some.inj h
      exact UInt8.toNat_inj.1 hb.symm
  · rintro rfl
    cases k <;> rfl

end Kind

variable {w w' : World} {accounts : List AccountMeta} {data rest : List UInt8} {e : Event}

/-- The dispatch of the program, by the kind of the instruction. -/
theorem processInstruction_cons {b : UInt8} :
    processInstruction w accounts (b :: data) =
      (Kind.ofNumber b).elim (.error .invalidInstructionData) fun k => k.handler w accounts data := by
  cases hk : Kind.ofNumber b with
  | some k =>
    obtain rfl := Kind.ofNumber_eq_some.1 hk
    cases k <;> rfl
  | none =>
    unfold processInstruction
    dsimp only
    split
    case h_21 => rfl
    all_goals
      rename_i hb
      rw [Kind.ofNumber, hb] at hk
      cases hk

/-! ### Reading the arguments -/

/-- A handler that reads only the first `n` bytes of its data. -/
structure ReadsFront (n : ℕ) (f : List UInt8 → Result (World × Event)) : Prop where
  length_le : ∀ {data r}, f data = .ok r → n ≤ data.length
  append : ∀ {data} rest, n ≤ data.length → f (data ++ rest) = f data

/-- A field of the data that ends before `rest`. -/
theorem slice_append {i n : ℕ} (h : i + n ≤ data.length) :
    ((data ++ rest).drop i).take n = (data.drop i).take n := by
  rw [List.drop_append_of_le_length (by omega), List.take_append_of_le_length (by rw [List.length_drop]; omega)]

theorem u16At_append {i : ℕ} (h : i + 2 ≤ data.length) : u16At (data ++ rest) i = u16At data i :=
  congrArg leNat (slice_append h)

theorem u64At_append {i : ℕ} (h : i + 8 ≤ data.length) : u64At (data ++ rest) i = u64At data i :=
  congrArg leNat (slice_append h)

theorem u128At_append {i : ℕ} (h : i + 16 ≤ data.length) : u128At (data ++ rest) i = u128At data i :=
  congrArg leNat (slice_append h)

theorem i64At_append {i : ℕ} (h : i + 8 ≤ data.length) : i64At (data ++ rest) i = i64At data i := by
  rw [i64At, i64At, u64At_append h]

theorem require_of {c : Prop} [Decidable c] {err : ProgramError} (h : c) : require c err = .ok () :=
  require_eq_ok.2 h

/-- Every handler refuses data that is too short for its arguments, and does not look at what stands behind them. -/
theorem Kind.readsFront (k : Kind) : ReadsFront k.pod.size (k.handler w accounts) where
  length_le {data r} h := by
    by_contra hshort
    cases k
    case collectFees | reSettle | closeLenderPosition | withdrawExcess | setAdmin | setWhitelistManager
      | forceClosePosition | claimHaircut | forceClaimHaircut => exact hshort (Nat.zero_le _)
    case setPause | setBlacklistMode =>
      obtain rfl := List.length_eq_zero_iff.1 (Nat.lt_one_iff.1 (Nat.lt_of_not_le hshort))
      delta handler Coalesce.setPause Coalesce.setBlacklistMode at h
      dsimp only at h
      split at h <;> cases h
    all_goals
      simp only [pod, Pod.prod, Pod.bytes, Pod.byte] at hshort
      delta handler Coalesce.initializeProtocol Coalesce.setFeeConfig Coalesce.createMarket Coalesce.deposit
        Coalesce.borrow Coalesce.repay Coalesce.repayInterest Coalesce.withdraw Coalesce.setBorrowerWhitelist at h
      dsimp only at h
      split at h
      · simp [hshort] at h
      · cases h
  append {data} rest h := by
    have h' : k.pod.size ≤ (data ++ rest).length := by rw [List.length_append]; omega
    cases k
    case collectFees | reSettle | closeLenderPosition | withdrawExcess | setAdmin | setWhitelistManager
      | forceClosePosition | claimHaircut | forceClaimHaircut => rfl
    case setPause | setBlacklistMode =>
      cases data with
      | nil => cases h
      | cons => rfl
    all_goals
      simp only [pod, Pod.prod, Pod.bytes, Pod.byte] at h h'
      simp (disch := omega) only [handler, Coalesce.initializeProtocol, Coalesce.setFeeConfig, Coalesce.createMarket,
        Coalesce.deposit, Coalesce.borrow, Coalesce.repay, Coalesce.repayInterest, Coalesce.withdraw,
        Coalesce.setBorrowerWhitelist, require_of, u16At_append, u64At_append, u128At_append, i64At_append,
        List.take_append_of_le_length]

/-! ### Instructions as bytes -/

structure Instruction where
  kind : Kind
  args : kind.Args

namespace Instruction

def toBytes (i : Instruction) : List UInt8 := i.kind.number :: i.kind.pod.toBytes i.args

def ofBytes : List UInt8 → Option Instruction
  | [] => none
  | b :: data => (Kind.ofNumber b).bind fun k => (k.pod.read data).map fun args => ⟨k, args⟩

/-- What is read is what stands in front. -/
theorem ofBytes_eq_some {i : Instruction} : ofBytes data = some i ↔ i.toBytes <+: data := by
  cases data with
  | nil =>
    constructor
    · intro h
      cases h
    · intro h
      cases List.prefix_nil.1 h
  | cons b data =>
    obtain ⟨k, args⟩ := i
    simp only [ofBytes, toBytes, Option.bind_eq_some_iff, Option.map_eq_some_iff, Pod.read_eq_some,
      Kind.ofNumber_eq_some, Instruction.mk.injEq]
    constructor
    · rintro ⟨k', rfl, args', hargs, rfl, h⟩
      obtain rfl := eq_of_heq h
      exact List.cons_prefix_cons.2 ⟨rfl, hargs⟩
    · intro h
      obtain ⟨hb, hargs⟩ := List.cons_prefix_cons.1 h
      exact ⟨k, hb, args, hargs, rfl, HEq.rfl⟩

end Instruction

/-- An instruction as a client writes it. -/
theorem processInstruction_toBytes (i : Instruction) :
    processInstruction w accounts i.toBytes = i.kind.handler w accounts (i.kind.pod.toBytes i.args) := by
  rw [Instruction.toBytes, processInstruction_cons, Kind.ofNumber_eq_some.2 rfl]
  rfl

/-- What an instruction that succeeded did with its arguments, and with the tokens and units that they ask for. -/
def Kind.Reports (w w' : World) : (k : Kind) → k.Args → Event → Prop
  | .initializeProtocol, feeRateBps, .initializeProtocol _ n | .setFeeConfig, feeRateBps, .setFeeConfig n =>
    n = Word.toNat feeRateBps ∧ ∃ c, w'.config = some c ∧ c.feeRateBps = n
  | .createMarket, (nonce, annualInterestBps, maturityTimestamp, maxTotalSupply), .createMarket a _ n =>
    n = Word.toNat nonce ∧ ∃ ma, w'.markets.lookup a = some ma ∧
      ma.market.annualInterestBps = Word.toNat annualInterestBps ∧
      ma.market.maturityTimestamp = Word.toInt maturityTimestamp ∧
      ma.market.maxTotalSupply = Word.toNat maxTotalSupply
  | .deposit, amount, .deposit a l n scaled =>
    n = Word.toNat amount ∧ w.PaidInto w' a l n ∧ w'.units a l = w.units a l + scaled
  | .borrow, amount, .borrow a b n => n = Word.toNat amount ∧ w.PaidFrom w' a b n
  | .repay, amount, .repay a payer n _ | .repayInterest, amount, .repayInterest a payer n _ =>
    n = Word.toNat amount ∧ w.PaidInto w' a payer n
  | .withdraw, (scaledAmount, minPayout), .withdraw a l payout scaled =>
    -- 0 asks for everything
    scaled = (if Word.toNat scaledAmount = 0 then w.units a l else Word.toNat scaledAmount) ∧
      w'.units a l + scaled = w.units a l ∧ Word.toNat minPayout ≤ payout ∧ w.PaidFrom w' a l payout
  | .setBorrowerWhitelist, (isWhitelisted, maxBorrowCapacity), .setWhitelist b f =>
    f = UInt8.toNat isWhitelisted ∧ ∃ wl, w'.whitelists.lookup b = some wl ∧ wl.isWhitelisted = f ∧
      wl.maxBorrowCapacity = Word.toNat maxBorrowCapacity
  | .setPause, byte, .setPause paused =>
    paused = decide ((byte : UInt8) ≠ 0) ∧ ∃ c, w'.config = some c ∧ c.isPaused = paused
  | .setBlacklistMode, byte, .setBlacklistMode failClosed =>
    failClosed = decide ((byte : UInt8) ≠ 0) ∧ ∃ c, w'.config = some c ∧ c.isBlacklistFailClosed = failClosed
  | .collectFees, _, .collectFees .. | .reSettle, _, .reSettle .. | .closeLenderPosition, _, .closePosition ..
  | .withdrawExcess, _, .withdrawExcess .. | .setAdmin, _, .setAdmin ..
  | .setWhitelistManager, _, .setWhitelistManager .. | .forceClosePosition, _, .forceClose ..
  | .claimHaircut, _, .claimHaircut .. | .forceClaimHaircut, _, .forceClaimHaircut .. => True
  | _, _, _ => False

/-- A word in front of other arguments. -/
theorem take_word {n : ℕ} (v : Word n) (bs : List UInt8) : (v.toList ++ bs).take n = v.toList :=
  List.take_left' v.length_toList

theorem drop_word {n : ℕ} (v : Word n) (bs : List UInt8) : (v.toList ++ bs).drop n = bs :=
  List.drop_left' v.length_toList

theorem leNat_word {n : ℕ} (v : Word n) : leNat (v.toList.take n) = v.toNat := by
  rw [List.take_of_length_le v.length_toList.le]
  rfl

theorem i64At_word {i : ℕ} {v : Word 8} (h : u64At data i = v.toNat) : i64At data i = v.toInt := by
  unfold i64At Word.toInt
  rw [h]
  have hlt : v.toNat < 2 ^ 63 ↔ 2 * v.toNat < 256 ^ 8 := by omega
  simp only [hlt]
  rfl

section Asked

variable (hw : WellFormed w) (hsign : ∀ x ∈ accounts, x.isSigner → x.address.isKey)
include hw hsign

theorem deposit_asked (h : deposit w accounts data = .ok (w', e)) :
    ∃ a l scaled, e = .deposit a l (u64At data 0) scaled ∧ w'.units a l = w.units a l + scaled := by
  obtain ⟨a, haccrues, -, l, n, scaled, rfl⟩ := deposit_accrues hw hsign h
  obtain rfl : n = u64At data 0 := by
    unfold deposit at h
    split at h
    · simp only [bind_eq_ok, Except.ok.injEq, Prod.mk.injEq, Event.deposit.injEq] at h
      grind
    · cases h
  obtain ⟨p, p', hp, hp', hstep⟩ := haccrues.pool
  refine ⟨_, l, scaled, rfl, ?_⟩
  rw [World.units_of_pool hp, World.units_of_pool hp']
  cases hstep with
  | idle he => exact absurd rfl he
  | deposit _ _ _ _ _ _ hposition =>
    rw [accountOf_insert, if_pos rfl]
    refine (depositPosition_ok hposition).2.2.1.trans (congrArg (· + scaled) ?_)
    unfold accountOf
    cases p.positions.lookup l <;> rfl
  | exit _ _ _ _ _ _ _ _ _ _ hexit => rcases hexit with hexit | hexit <;> cases hexit
  | claim _ _ _ _ _ _ hclaim => rcases hclaim with hclaim | hclaim <;> cases hclaim

/-- A withdrawal takes out the units that were asked for, and pays no less than the minimum. -/
theorem withdraw_asked (h : withdraw w accounts data = .ok (w', e)) :
    ∃ a l payout scaled, e = .withdraw a l payout scaled ∧
      scaled = (if u128At data 0 = 0 then w.units a l else u128At data 0) ∧ w'.units a l + scaled = w.units a l ∧
      u64At data 16 ≤ payout := by
  obtain ⟨a, l, scaled, payout, rfl, hexits, -⟩ := withdraw_exits hw hsign h
  obtain ⟨hscaled, hunits⟩ := hexits.units
  refine ⟨a, l, payout, scaled, rfl, hscaled, hunits, ?_⟩
  unfold withdraw at h
  split at h
  · simp only [bind_eq_ok, require_eq_ok, exists_const, Except.ok.injEq, Prod.mk.injEq, Event.withdraw.injEq] at h
    obtain ⟨-, -, -, _, -, -, _, -, -, -, _, -, _, -, _, -, -, _, -, -, _, -, amounts, -, -, hminimum, _, -, _, -, -,
      tr, htrack, _, -, _, -, _, -, -, -, -, rfl, -⟩ := h
    have hpaid := (tracks_of_trackHaircut htrack).le_payout
    omega
  · cases h

end Asked

theorem createMarket_asked (h : createMarket w accounts data = .ok (w', e)) :
    ∃ a b ma, e = .createMarket a b (u64At data 0) ∧ w'.markets.lookup a = some ma ∧
      ma.market.annualInterestBps = u16At data 8 ∧ ma.market.maturityTimestamp = i64At data 10 ∧
      ma.market.maxTotalSupply = u64At data 18 := by
  unfold createMarket at h
  split at h
  · simp only [bind_eq_ok, require_eq_ok, exists_const, Except.ok.injEq, Prod.mk.injEq] at h
    obtain ⟨-, -, _, -, -, -, _, -, _, -, -, -, _, -, -, _, -, -, -, -, -, _, -, -, rfl, rfl⟩ := h
    exact ⟨_, _, _, rfl, Finmap.lookup_insert _, rfl, rfl, rfl⟩
  · cases h

theorem setBorrowerWhitelist_asked (h : setBorrowerWhitelist w accounts data = .ok (w', e)) :
    ∃ b wl, e = .setWhitelist b (leNat (data.take 1)) ∧ w'.whitelists.lookup b = some wl ∧
      wl.isWhitelisted = leNat (data.take 1) ∧ wl.maxBorrowCapacity = u64At data 1 := by
  unfold setBorrowerWhitelist at h
  split at h
  · simp only [bind_eq_ok, require_eq_ok, exists_const, Except.ok.injEq, Prod.mk.injEq] at h
    obtain ⟨-, _, -, -, -, -, -, wl, hwl, rfl, rfl⟩ := h
    refine ⟨_, wl, rfl, Finmap.lookup_insert _, ?_⟩
    generalize w.whitelists.lookup _ = old at hwl
    cases old with
    | none =>
      simp only [updatedWhitelist] at hwl
      split at hwl
      · rename_i hflag
        obtain rfl := Except.ok.inj hwl
        exact ⟨hflag.symm, rfl⟩
      · cases hwl
    | some old =>
      simp only [updatedWhitelist, bind_eq_ok, require_eq_ok, exists_const, Except.ok.injEq] at hwl
      obtain ⟨-, rfl⟩ := hwl
      exact ⟨rfl, rfl⟩
  · cases h

/-- The arguments of an instruction are what its handler works with. -/
theorem Kind.reports (hw : WellFormed w) (hsign : ∀ x ∈ accounts, x.isSigner → x.address.isKey) (k : Kind)
    (args : k.Args) : ∀ r, k.handler w accounts (k.pod.toBytes args) = .ok r →
      Authorized w (Signed accounts) r.2 r.1 → k.Reports w r.1 args r.2 := by
  have hkeys : ∀ x, Signed accounts x → x.isKey := by
    rintro _ ⟨y, hy, hsigner, rfl⟩
    exact hsign y hy hsigner
  cases k
  case deposit =>
    rintro ⟨w', e⟩ h hauth
    obtain ⟨a, l, scaled, rfl, hunits⟩ := deposit_asked hw hsign h
    exact ⟨leNat_word args, hauth.pays hw hkeys, hunits⟩
  case withdraw =>
    obtain ⟨scaledAmount, minPayout⟩ := args
    rintro ⟨w', e⟩ h hauth
    obtain ⟨a, l, payout, scaled, rfl, hscaled, hunits, hmin⟩ := withdraw_asked hw hsign h
    have hfirst : u128At (scaledAmount.toList ++ minPayout.toList) 0 = scaledAmount.toNat :=
      congrArg leNat (take_word scaledAmount _)
    have hsecond : u64At (scaledAmount.toList ++ minPayout.toList) 16 = minPayout.toNat := by
      rw [u64At, drop_word, leNat_word]
    exact ⟨hfirst ▸ hscaled, hunits, hsecond ▸ hmin, hauth.pays hw hkeys⟩
  case createMarket =>
    obtain ⟨nonce, annualInterestBps, maturityTimestamp, maxTotalSupply⟩ := args
    rintro ⟨w', e⟩ h -
    change Coalesce.createMarket w accounts (nonce.toList ++ (annualInterestBps.toList ++
      (maturityTimestamp.toList ++ maxTotalSupply.toList))) = .ok (w', e) at h
    obtain ⟨a, b, ma, rfl, hma, hbps, hmaturity, hmax⟩ := createMarket_asked h
    generalize hdata : nonce.toList ++ _ = data at hbps hmaturity hmax
    have h₁ : data.drop 8 = annualInterestBps.toList ++ (maturityTimestamp.toList ++ maxTotalSupply.toList) := by
      rw [← hdata, drop_word]
    have h₂ : data.drop 10 = maturityTimestamp.toList ++ maxTotalSupply.toList := by
      rw [← drop_word annualInterestBps (maturityTimestamp.toList ++ _), ← h₁, List.drop_drop]
    have h₃ : data.drop 18 = maxTotalSupply.toList := by
      rw [← drop_word maturityTimestamp maxTotalSupply.toList, ← h₂, List.drop_drop]
    refine ⟨congrArg leNat (hdata ▸ take_word nonce _), ma, hma, hbps.trans ?_, hmaturity.trans ?_, hmax.trans ?_⟩
    · exact congrArg leNat (h₁ ▸ take_word annualInterestBps _)
    · exact i64At_word (by rw [u64At, h₂, take_word]; rfl)
    · rw [u64At, h₃, leNat_word]
  case setBorrowerWhitelist =>
    obtain ⟨isWhitelisted, maxBorrowCapacity⟩ := args
    rintro ⟨w', e⟩ h -
    obtain ⟨b, wl, rfl, hwl, hflag, hcapacity⟩ := setBorrowerWhitelist_asked h
    have hbyte : leNat ((isWhitelisted :: maxBorrowCapacity.toList).take 1) = isWhitelisted.toNat := by
      simp [leNat]
    have hrest : u64At (isWhitelisted :: maxBorrowCapacity.toList) 1 = maxBorrowCapacity.toNat := leNat_word _
    exact ⟨hbyte, wl, hwl, hflag, hcapacity.trans hrest⟩
  case setPause | setBlacklistMode =>
    delta handler Coalesce.setPause Coalesce.setBlacklistMode
    dsimp only
    split
    · refine bind_cases fun byte hbyte => bind_cases fun _ _ => ?_
      obtain rfl : args = byte := Option.some.inj (okOr_eq_ok.1 hbyte)
      rintro _ ⟨⟩ -
      refine ⟨rfl, _, rfl, ?_⟩
      by_cases h0 : args = 0 <;> simp [ProtocolConfig.isPaused, ProtocolConfig.isBlacklistFailClosed, h0]
    · rintro _ ⟨⟩
  case initializeProtocol | setFeeConfig =>
    delta handler Coalesce.initializeProtocol Coalesce.setFeeConfig
    dsimp only
    split
    · repeat refine bind_cases fun _ _ => ?_
      rintro _ ⟨⟩ -
      exact ⟨leNat_word args, _, rfl, rfl⟩
    · rintro _ ⟨⟩
  case borrow | repay | repayInterest =>
    delta handler Coalesce.borrow Coalesce.repay Coalesce.repayInterest
    dsimp only
    split
    · repeat refine bind_cases fun _ _ => ?_
      rintro _ ⟨⟩ hauth
      exact ⟨leNat_word args, hauth.pays hw hkeys⟩
    · rintro _ ⟨⟩
  all_goals
    delta handler Coalesce.collectFees Coalesce.reSettle Coalesce.closeLenderPosition Coalesce.withdrawExcess
      Coalesce.setAdmin Coalesce.setWhitelistManager Coalesce.forceClosePosition Coalesce.claimHaircut
      Coalesce.forceClaimHaircut
    dsimp only
    split
    · repeat refine bind_cases fun _ _ => ?_
      rintro _ ⟨⟩ -
      trivial
    · rintro _ ⟨⟩

/-- The program reads an instruction as it is written and ignores what stands behind it.  On the chain it does what the
arguments say, with the tokens, the units and the records that they are about. -/
theorem instruction_data (w : World) (accounts : List AccountMeta) :
    (∀ i rest, Instruction.ofBytes (i.toBytes ++ rest) = some i) ∧
      (∀ data w' e, processInstruction w accounts data = .ok (w', e) ↔
        ∃ i, Instruction.ofBytes data = some i ∧ processInstruction w accounts i.toBytes = .ok (w', e)) ∧
      (Reachable w → (∀ x ∈ accounts, x.isSigner → x.address.isKey) → ∀ (i : Instruction) w' e,
        processInstruction w accounts i.toBytes = .ok (w', e) → i.kind.Reports w w' i.args e) := by
  have happend (i : Instruction) (rest : List UInt8) :
      processInstruction w accounts (i.toBytes ++ rest) = processInstruction w accounts i.toBytes := by
    rw [processInstruction_toBytes, Instruction.toBytes, List.cons_append, processInstruction_cons,
      Kind.ofNumber_eq_some.2 rfl]
    exact i.kind.readsFront.append rest (i.kind.pod.length_toBytes i.args).ge
  refine ⟨fun i rest => Instruction.ofBytes_eq_some.2 (List.prefix_append _ _), ?_, ?_⟩
  · intro data w' e
    constructor
    · intro h
      cases data with
      | nil => cases h
      | cons b data =>
        cases hk : Kind.ofNumber b with
        | none =>
          rw [processInstruction_cons, hk] at h
          cases h
        | some k =>
          have hhandler := h
          rw [processInstruction_cons, hk] at hhandler
          have hlength := k.readsFront.length_le hhandler
          obtain ⟨args, hargs⟩ := Option.isSome_iff_exists.1
            (k.pod.isSome_ofBytes (show (data.take k.pod.size).length = _ by rw [List.length_take]; omega))
          have hread : Instruction.ofBytes (b :: data) = some ⟨k, args⟩ := by
            rw [Instruction.ofBytes, hk, Option.bind_some, Pod.read, hargs]
            rfl
          obtain ⟨rest, hrest⟩ := Instruction.ofBytes_eq_some.1 hread
          rw [← hrest, happend] at h
          exact ⟨_, hread, h⟩
    · rintro ⟨i, hread, h⟩
      obtain ⟨rest, rfl⟩ := Instruction.ofBytes_eq_some.1 hread
      rwa [happend]
  · intro hr hsign i w' e h
    have hauth := processInstruction_authorized hr.wellFormed h
    rw [processInstruction_toBytes] at h
    exact i.kind.reports hr.wellFormed hsign i.args _ h hauth

namespace Sample

/-- A withdrawal of everything, for at least one token. -/
def withdrawAll : Instruction := ⟨.withdraw, Word.ofNat 16 0, Word.ofNat 8 1⟩

end Sample

/-- Alice takes out all her 6 units in the default, and gets 3. -/
theorem instruction_data_withdrawAll :
    ∃ w' payout, processInstruction (Sample.genesis.performAll Sample.defaulted)
        (withdrawAccounts Sample.market Sample.alice (Sample.wallet Sample.alice) Sample.blacklistProgram)
        Sample.withdrawAll.toBytes = .ok (w', .withdraw Sample.market Sample.alice payout 6) ∧
      1 ≤ payout ∧
      (Sample.genesis.performAll Sample.defaulted).PaidFrom w' Sample.market Sample.alice payout := by
  obtain ⟨⟨w', e⟩, hok, he⟩ := exists_ok_of_toOption
    (show (processInstruction (Sample.genesis.performAll Sample.defaulted)
        (withdrawAccounts Sample.market Sample.alice (Sample.wallet Sample.alice) Sample.blacklistProgram)
        Sample.withdrawAll.toBytes).toOption.map Prod.snd = some (.withdraw Sample.market Sample.alice 3 6) by
      decide +kernel)
  obtain rfl : e = _ := he
  obtain ⟨-, -, hmin, hpaid⟩ := (instruction_data _ _).2.2
    (World.performAll_reachable Sample.genesis_reachable Sample.defaulted) (by decide) _ _ _ hok
  exact ⟨w', 3, hok, hmin, hpaid⟩

end Coalesce
