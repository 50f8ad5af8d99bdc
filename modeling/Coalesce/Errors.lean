import Mathlib.Order.Defs.LinearOrder
import Mathlib.Data.Nat.Notation
import Mathlib.Data.Int.Notation
import Mathlib.Tactic.Common

/-!
# Errors and checked arithmetic

The error codes of the program, the result type of its handlers, and the integer operations the source writes as
`checked_*(..).ok_or(MathOverflow)?` and `try_from(..)`.  Machine integers are natural numbers (integers for `i64`)
below an explicit bound; every operation that can leave the range fails with `mathOverflow`.
-/

namespace Coalesce

inductive LendingError
  -- initialization
  | alreadyInitialized | invalidFeeRate | invalidCapacity | invalidMaturity | marketAlreadyExists
  -- authorization
  | unauthorized | notWhitelisted | blacklisted | protocolPaused | borrowerHasActiveDebt
  -- account validation
  | invalidAddress | invalidMint | invalidVault | invalidPDA | invalidAccountOwner | invalidTokenProgram
  | invalidTokenAccountOwner
  -- input validation
  | zeroAmount | zeroScaledAmount | invalidScaleFactor | invalidTimestamp
  -- balance and capacity
  | insufficientBalance | insufficientScaledBalance | noBalance | zeroPayout | capExceeded | borrowAmountTooHigh
  | globalCapacityExceeded
  -- market state
  | marketMatured | notMatured | notSettled | settlementNotImproved | settlementGracePeriod
  | settlementNotComplete | positionNotEmpty | repaymentExceedsDebt
  -- fees and excess
  | noFeesToCollect | feeCollectionDuringDistress | lendersPendingWithdrawals | feesNotCollected
  | noExcessToWithdraw
  -- operational
  | mathOverflow | payoutBelowMinimum | noHaircutToClaim
  deriving DecidableEq, Repr

/-- The errors of the SPL Token program that a transfer can return. -/
inductive TokenError
  | insufficientFunds | mintMismatch | ownerMismatch
  deriving DecidableEq, Repr

inductive ProgramError
  | custom (e : LendingError)
  | token (e : TokenError)
  | notEnoughAccountKeys
  | invalidInstructionData
  | invalidAccountData
  | missingRequiredSignature
  | accountAlreadyInUse
  deriving DecidableEq, Repr

instance : Coe LendingError ProgramError := ⟨ProgramError.custom⟩

instance : Coe TokenError ProgramError := ⟨ProgramError.token⟩

abbrev Result := Except ProgramError

/-- `if !cond { return Err(e) }`. -/
def require (c : Prop) [Decidable c] (e : ProgramError) : Result Unit :=
  if c then .ok () else .error e

def okOr {α : Type} (o : Option α) (e : ProgramError) : Result α :=
  match o with
  | some a => .ok a
  | none => .error e

def u64Max : ℕ := 18446744073709551615

def u128Max : ℕ := 340282366920938463463374607431768211455

def i64Max : ℤ := 9223372036854775807

def u32Max : ℕ := 4294967295

/-- A result of an unsigned operation, checked against the largest value of its type. -/
def inRange (max n : ℕ) : Result ℕ :=
  if n ≤ max then .ok n else .error LendingError.mathOverflow

def checkedAdd (max a b : ℕ) : Result ℕ := inRange max (a + b)

def checkedMul (max a b : ℕ) : Result ℕ := inRange max (a * b)

def checkedSub (a b : ℕ) : Result ℕ :=
  if b ≤ a then .ok (a - b) else .error LendingError.mathOverflow

def checkedDiv (a b : ℕ) : Result ℕ :=
  if b = 0 then .error LendingError.mathOverflow else .ok (a / b)

/-- `checked_add` on `i64`; both operands of every use are such that only the upper end can be left. -/
def checkedAddI64 (a b : ℤ) : Result ℤ :=
  if a + b ≤ i64Max then .ok (a + b) else .error LendingError.mathOverflow

/-- `checked_sub` on `i64`; its only use has a result that is not negative. -/
def checkedSubI64 (a b : ℤ) : Result ℤ :=
  if a - b ≤ i64Max then .ok (a - b) else .error LendingError.mathOverflow

/-- `u64::try_from` of a `u128`. -/
def tryU64 (n : ℕ) : Result ℕ := inRange u64Max n

/-! ### When a computation succeeds -/

section Inversion

variable {α β : Type}

@[simp] theorem bind_eq_ok {x : Result α} {f : α → Result β} {b : β} :
    (x >>= f) = .ok b ↔ ∃ a, x = .ok a ∧ f a = .ok b := by
  cases x with
  | error e => simp [bind, Except.bind]
  | ok a => simp [bind, Except.bind]

/-- A property of every result of a computation is a property of every result of its last part. -/
theorem bind_cases {x : Result α} {f : α → Result β} {P : β → Prop}
    (h : ∀ a, x = .ok a → ∀ b, f a = .ok b → P b) : ∀ b, (x >>= f) = .ok b → P b := by
  intro b hb
  obtain ⟨a, ha, hb⟩ := bind_eq_ok.1 hb
  exact h a ha b hb

@[simp] theorem require_eq_ok {c : Prop} [Decidable c] {e : ProgramError} {u : Unit} :
    require c e = .ok u ↔ c := by
  unfold require; split <;> simp_all

@[simp] theorem okOr_eq_ok {o : Option α} {e : ProgramError} {a : α} : okOr o e = .ok a ↔ o = some a := by
  cases o <;> simp [okOr]

@[simp] theorem inRange_eq_ok {max n r : ℕ} : inRange max n = .ok r ↔ n ≤ max ∧ n = r := by
  unfold inRange; split
  · simp_all
  · simp; omega

@[simp] theorem checkedAdd_eq_ok {max a b r : ℕ} : checkedAdd max a b = .ok r ↔ a + b ≤ max ∧ a + b = r :=
  inRange_eq_ok

@[simp] theorem checkedMul_eq_ok {max a b r : ℕ} : checkedMul max a b = .ok r ↔ a * b ≤ max ∧ a * b = r :=
  inRange_eq_ok

@[simp] theorem checkedSub_eq_ok {a b r : ℕ} : checkedSub a b = .ok r ↔ b ≤ a ∧ a - b = r := by
  unfold checkedSub; split
  · simp_all
  · simp; omega

@[simp] theorem checkedDiv_eq_ok {a b r : ℕ} : checkedDiv a b = .ok r ↔ b ≠ 0 ∧ a / b = r := by
  unfold checkedDiv; split <;> simp_all

@[simp] theorem checkedAddI64_eq_ok {a b r : ℤ} : checkedAddI64 a b = .ok r ↔ a + b ≤ i64Max ∧ a + b = r := by
  unfold checkedAddI64; split
  · simp_all
  · simp; omega

@[simp] theorem checkedSubI64_eq_ok {a b r : ℤ} : checkedSubI64 a b = .ok r ↔ a - b ≤ i64Max ∧ a - b = r := by
  unfold checkedSubI64; split
  · simp_all
  · simp; omega

@[simp] theorem tryU64_eq_ok {n r : ℕ} : tryU64 n = .ok r ↔ n ≤ u64Max ∧ n = r :=
  inRange_eq_ok

/-! ### When a computation fails -/

theorem bind_eq_error {x : Result α} {f : α → Result β} {e : ProgramError} :
    (x >>= f) = .error e ↔ x = .error e ∨ ∃ a, x = .ok a ∧ f a = .error e := by
  cases x with
  | error e' => simp [bind, Except.bind]
  | ok a => simp [bind, Except.bind]

theorem require_eq_error {c : Prop} [Decidable c] {e e' : ProgramError} : require c e = .error e' ↔ ¬c ∧ e' = e := by
  unfold require; split <;> simp_all [eq_comm]

theorem okOr_eq_error {o : Option α} {e e' : ProgramError} : okOr o e = .error e' ↔ o = none ∧ e' = e := by
  cases o <;> simp [okOr, eq_comm]

theorem inRange_eq_error {max n : ℕ} {e : ProgramError} :
    inRange max n = .error e ↔ max < n ∧ e = LendingError.mathOverflow := by
  unfold inRange; split
  · simp; omega
  · simp_all [eq_comm]

theorem checkedSubI64_eq_error {a b : ℤ} {e : ProgramError} :
    checkedSubI64 a b = .error e ↔ i64Max < a - b ∧ e = LendingError.mathOverflow := by
  unfold checkedSubI64; split
  · simp; omega
  · rw [Except.error.injEq, eq_comm, and_iff_right (by omega)]

theorem checkedSub_eq_error {a b : ℕ} {e : ProgramError} :
    checkedSub a b = .error e ↔ a < b ∧ e = LendingError.mathOverflow := by
  unfold checkedSub; split
  · simp; omega
  · simp_all [eq_comm]

theorem checkedDiv_eq_error {a b : ℕ} {e : ProgramError} :
    checkedDiv a b = .error e ↔ b = 0 ∧ e = LendingError.mathOverflow := by
  unfold checkedDiv; split <;> simp_all [eq_comm]

/-- A computed result, by what is read off it. -/
theorem exists_ok_of_toOption {x : Result α} {f : α → β} {b : β} (h : x.toOption.map f = some b) :
    ∃ a, x = .ok a ∧ f a = b := by
  cases x with
  | error e => cases h
  | ok a => exact ⟨a, rfl, Option.some.inj h⟩

end Inversion

end Coalesce
