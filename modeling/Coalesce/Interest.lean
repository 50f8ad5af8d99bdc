import Coalesce.State

/-!
# Interest accrual

`accrueInterest` moves a market's scale factor to the current time, capped at maturity: whole days compound through
`powWad`, the remaining seconds are linear.  Facts used by every handler that accrues first: the scale factor never
decreases, and a market accrued to its maturity is never changed again.
-/

namespace Coalesce

open LendingError

def mulWad (a b : ℕ) : Result ℕ := do
  let ab ← checkedMul u128Max a b
  checkedDiv ab WAD

/-- The loop of `powWad`; `bits` bounds its length, since the exponent loses a bit in every round. -/
def powWadLoop : (bits result b e : ℕ) → Result ℕ
  | 0, result, _, _ => .ok result
  | bits + 1, result, b, e =>
    if e = 0 then .ok result
    else do
      let result ← (if e % 2 = 1 then mulWad result b else .ok result)
      let e := e / 2
      let b ← (if 0 < e then mulWad b b else .ok b)
      powWadLoop bits result b e

/-- `base^exp` by repeated squaring; the exponent is a `u32`. -/
def powWad (base exp : ℕ) : Result ℕ := powWadLoop 32 WAD base exp

/-- The growth factor of a time span: `powWad` over the whole days times the linear rest. -/
def totalGrowthWad (annualBps timeElapsed : ℕ) : Result ℕ := do
  let daysElapsed := timeElapsed / SECONDS_PER_DAY
  let remainingSeconds := timeElapsed % SECONDS_PER_DAY
  let daysElapsedU32 ← inRange u32Max daysElapsed
  let annualWad ← checkedMul u128Max annualBps WAD
  let dailyRateWad ← checkedDiv annualWad (DAYS_PER_YEAR * BPS)
  let dailyBaseWad ← checkedAdd u128Max WAD dailyRateWad
  let daysGrowthWad ← powWad dailyBaseWad daysElapsedU32
  let annualSeconds ← checkedMul u128Max annualBps remainingSeconds
  let annualSecondsWad ← checkedMul u128Max annualSeconds WAD
  let remainingDeltaWad ← checkedDiv annualSecondsWad (SECONDS_PER_YEAR * BPS)
  let remainingGrowthWad ← checkedAdd u128Max WAD remainingDeltaWad
  mulWad daysGrowthWad remainingGrowthWad

/-- The protocol fee on an interest delta, valued at the scale factor before the accrual. -/
def feeNormalized (scaledTotalSupply scaleFactor interestDeltaWad feeRateBps : ℕ) : Result ℕ := do
  let feeDelta ← checkedMul u128Max interestDeltaWad feeRateBps
  let feeDeltaWad ← checkedDiv feeDelta BPS
  let supply ← checkedMul u128Max scaledTotalSupply scaleFactor
  let normalized ← checkedDiv supply WAD
  let fee ← checkedMul u128Max normalized feeDeltaWad
  let feeNormalized ← checkedDiv fee WAD
  tryU64 feeNormalized

/-- The fees of the market after the fee on `interestDeltaWad` is added. -/
def accruedFees (market : Market) (config : ProtocolConfig) (interestDeltaWad : ℕ) : Result ℕ :=
  if 0 < config.feeRateBps then do
    let fee ← feeNormalized market.scaledTotalSupply market.scaleFactor interestDeltaWad config.feeRateBps
    checkedAdd u64Max market.accruedProtocolFees fee
  else .ok market.accruedProtocolFees

/-- The body of `accrueInterest` for `timeElapsed > 0`. -/
def accrueElapsed (market : Market) (config : ProtocolConfig) (effectiveNow : ℤ) (timeElapsed : ℕ) :
    Result Market := do
  let totalGrowthWad ← totalGrowthWad market.annualInterestBps timeElapsed
  let newScaleFactor ← mulWad market.scaleFactor totalGrowthWad
  let interestDeltaWad ← checkedSub totalGrowthWad WAD
  let newFees ← accruedFees market config interestDeltaWad
  .ok { market with
    accruedProtocolFees := newFees
    scaleFactor := newScaleFactor
    lastAccrualTimestamp := effectiveNow }

/-- Accrue interest up to `now`; interest stops at maturity. -/
def accrueInterest (market : Market) (config : ProtocolConfig) (now : ℤ) : Result Market :=
  let effectiveNow := if market.maturityTimestamp < now then market.maturityTimestamp else now
  if effectiveNow < market.lastAccrualTimestamp then .error invalidTimestamp
  else do
    let timeElapsed ← checkedSubI64 effectiveNow market.lastAccrualTimestamp
    if timeElapsed ≤ 0 then .ok market else accrueElapsed market config effectiveNow timeElapsed.toNat

/-! ### Growth is at least one -/

theorem mulWad_eq_ok {a b r : ℕ} : mulWad a b = .ok r ↔ a * b ≤ u128Max ∧ a * b / WAD = r := by
  simp [mulWad, WAD_pos.ne', and_assoc]

theorem le_mulWad {a b r : ℕ} (h : mulWad a b = .ok r) (hb : WAD ≤ b) : a ≤ r := by
  obtain ⟨-, rfl⟩ := mulWad_eq_ok.1 h
  exact (Nat.le_div_iff_mul_le WAD_pos).2 (Nat.mul_le_mul_left a hb)

private theorem powWadLoop_ge {bits result b e r : ℕ} (h : powWadLoop bits result b e = .ok r) (hb : WAD ≤ b) :
    result ≤ r := by
  induction bits generalizing result b e with
  | zero => simp [powWadLoop] at h; omega
  | succ bits ih =>
    rw [powWadLoop] at h
    split at h
    · simp at h; omega
    · simp only [bind_eq_ok] at h
      obtain ⟨result', hr, b', hb', h⟩ := h
      have h1 : result ≤ result' := by
        split at hr
        · exact le_mulWad hr hb
        · simp at hr; omega
      have h2 : WAD ≤ b' := by
        split at hb'
        · exact hb.trans (le_mulWad hb' hb)
        · simp at hb'; omega
      exact h1.trans (ih h h2)

theorem powWad_ge {base exp r : ℕ} (h : powWad base exp = .ok r) (hb : WAD ≤ base) : WAD ≤ r :=
  powWadLoop_ge h hb

theorem totalGrowthWad_ge {bps t r : ℕ} (h : totalGrowthWad bps t = .ok r) : WAD ≤ r := by
  simp only [totalGrowthWad, bind_eq_ok, checkedAdd_eq_ok] at h
  obtain ⟨_, _, _, _, _, _, _, ⟨_, rfl⟩, _, hp, _, _, _, _, _, _, _, ⟨_, rfl⟩, h⟩ := h
  exact (powWad_ge hp (Nat.le_add_right _ _)).trans (le_mulWad h (Nat.le_add_right _ _))

/-! ### What an accrual does -/

/-- Time stops at maturity. -/
theorem effectiveNow_eq_min {maturityTimestamp now : ℤ} :
    (if maturityTimestamp < now then maturityTimestamp else now) = min now maturityTimestamp := by
  split <;> omega

theorem accruedFees_ge {m : Market} {c : ProtocolConfig} {d fees : ℕ} (h : accruedFees m c d = .ok fees) :
    m.accruedProtocolFees ≤ fees := by
  unfold accruedFees at h
  split at h
  · simp only [bind_eq_ok, checkedAdd_eq_ok] at h
    obtain ⟨_, _, _, rfl⟩ := h
    exact Nat.le_add_right _ _
  · exact (Except.ok.inj h).le

/-- An accrual changes three fields; the scale factor and the fees do not decrease, and the last accrual moves to
the current time or to maturity, whichever is earlier. -/
theorem accrueInterest_ok {m m' : Market} {c : ProtocolConfig} {now : ℤ} (h : accrueInterest m c now = .ok m') :
    ∃ sf fees, m' =
        { m with scaleFactor := sf, accruedProtocolFees := fees, lastAccrualTimestamp := min now m.maturityTimestamp } ∧
      m.scaleFactor ≤ sf ∧ m.accruedProtocolFees ≤ fees ∧ m.lastAccrualTimestamp ≤ min now m.maturityTimestamp := by
  simp only [accrueInterest, effectiveNow_eq_min] at h
  generalize min now m.maturityTimestamp = t at h ⊢
  split at h
  · cases h
  · simp only [bind_eq_ok, checkedSubI64_eq_ok] at h
    obtain ⟨_, ⟨-, rfl⟩, h⟩ := h
    split at h
    · obtain rfl : m.lastAccrualTimestamp = t := by omega
      refine ⟨m.scaleFactor, m.accruedProtocolFees, ?_, le_rfl, le_rfl, le_rfl⟩
      simpa using h.symm
    · simp only [accrueElapsed, bind_eq_ok, Except.ok.injEq] at h
      obtain ⟨g, hg, sf, hsf, _, _, fees, hfees, rfl⟩ := h
      exact ⟨sf, fees, rfl, le_mulWad hsf (totalGrowthWad_ge hg), accruedFees_ge hfees, by omega⟩

/-- An accrual over no time changes nothing. -/
theorem accrueInterest_now {m : Market} (c : ProtocolConfig) {now : ℤ}
    (h : min now m.maturityTimestamp = m.lastAccrualTimestamp) : accrueInterest m c now = .ok m := by
  have hzero : (0 : ℤ) ≤ i64Max := by decide
  simp [accrueInterest, effectiveNow_eq_min, h, hzero]

/-- A market accrued to its maturity is left alone. -/
theorem accrueInterest_matured {m : Market} (c : ProtocolConfig) {now : ℤ}
    (hlast : m.lastAccrualTimestamp = m.maturityTimestamp) (hnow : m.maturityTimestamp ≤ now) :
    accrueInterest m c now = .ok m :=
  accrueInterest_now c (by rw [min_eq_right hnow, hlast])

/-- An accrual that does not move the time of the last one changes nothing. -/
theorem accrueInterest_idle {m m' : Market} {c : ProtocolConfig} {now : ℤ} (h : accrueInterest m c now = .ok m')
    (hlast : m'.lastAccrualTimestamp = m.lastAccrualTimestamp) : m' = m := by
  obtain ⟨_, _, hm', -⟩ := accrueInterest_ok h
  have hnow : min now m.maturityTimestamp = m.lastAccrualTimestamp := by
    rw [← hlast, hm']
  rw [accrueInterest_now c hnow] at h
  exact (Except.ok.inj h).symm

/-! ### Accruals that fail -/

section Failure

variable {e : ProgramError}

private theorem mulWad_error {a b : ℕ} (h : mulWad a b = .error e) : e = mathOverflow := by
  simp only [mulWad, checkedMul, bind_eq_error, inRange_eq_error, checkedDiv_eq_error] at h
  rcases h with ⟨-, rfl⟩ | ⟨_, -, -, rfl⟩ <;> rfl

private theorem powWadLoop_error {bits result b k : ℕ} (h : powWadLoop bits result b k = .error e) :
    e = mathOverflow := by
  induction bits generalizing result b k with
  | zero => cases h
  | succ bits ih =>
    rw [powWadLoop] at h
    split at h
    · cases h
    · simp only [bind_eq_error] at h
      rcases h with h | ⟨_, -, h | ⟨_, -, h⟩⟩
      · split at h
        · exact mulWad_error h
        · cases h
      · split at h
        · exact mulWad_error h
        · cases h
      · exact ih h

theorem totalGrowthWad_error {bps t : ℕ} (h : totalGrowthWad bps t = .error e) : e = mathOverflow := by
  simp only [totalGrowthWad, checkedMul, checkedAdd, bind_eq_error, inRange_eq_error, checkedDiv_eq_error] at h
  rcases h with ⟨-, rfl⟩ | ⟨_, -, ⟨-, rfl⟩ | ⟨_, -, ⟨-, rfl⟩ | ⟨_, -, ⟨-, rfl⟩ | ⟨_, -, h | ⟨_, -, ⟨-, rfl⟩ |
    ⟨_, -, ⟨-, rfl⟩ | ⟨_, -, ⟨-, rfl⟩ | ⟨_, -, ⟨-, rfl⟩ | ⟨_, -, h⟩⟩⟩⟩⟩⟩⟩⟩⟩
  · rfl
  · rfl
  · rfl
  · rfl
  · exact powWadLoop_error h
  · rfl
  · rfl
  · rfl
  · rfl
  · exact mulWad_error h

theorem accruedFees_error {m : Market} {c : ProtocolConfig} {d : ℕ} (h : accruedFees m c d = .error e) :
    e = mathOverflow := by
  unfold accruedFees at h
  split at h
  · simp only [feeNormalized, tryU64, checkedMul, checkedAdd, bind_eq_error, inRange_eq_error, checkedDiv_eq_error] at h
    grind
  · cases h

/-- An accrual fails on arithmetic, or on a clock before the last accrual. -/
theorem accrueInterest_error {m : Market} {c : ProtocolConfig} {now : ℤ} (h : accrueInterest m c now = .error e) :
    e = mathOverflow ∨ (e = invalidTimestamp ∧ min now m.maturityTimestamp < m.lastAccrualTimestamp) := by
  simp only [accrueInterest, effectiveNow_eq_min] at h
  split at h
  · exact .inr ⟨(Except.error.inj h).symm, ‹_›⟩
  · left
    simp only [bind_eq_error, checkedSubI64_eq_error] at h
    rcases h with ⟨-, rfl⟩ | ⟨_, -, h⟩
    · rfl
    · split at h
      · cases h
      · simp only [accrueElapsed, bind_eq_error, checkedSub_eq_error] at h
        rcases h with h | ⟨_, -, h | ⟨_, -, ⟨-, rfl⟩ | ⟨_, -, h | ⟨_, -, h⟩⟩⟩⟩
        · exact totalGrowthWad_error h
        · exact mulWad_error h
        · rfl
        · exact accruedFees_error h
        · cases h

end Failure

end Coalesce
