import Coalesce.State
import Coalesce.Lib.ProRata

/-!
# Haircut arithmetic

The four helpers that every handler touching a haircut uses, with their checked arithmetic, and when they succeed:
inside the range of their arguments only `positionContribution` and `computeResettleFactor` can overflow.
-/

namespace Coalesce

open LendingError ProRata

/-- The part of an owed amount that is still outstanding when its anchor moves from `oldSf` to `newSf`. -/
def rebaseRemainingOwed (oldOwed oldSf newSf : ℕ) : Result ℕ :=
  if oldOwed = 0 ∨ oldSf = newSf then .ok oldOwed
  else do
    let wadMinusNew ← checkedSub WAD newSf
    let wadMinusOld ← checkedSub WAD oldSf
    if wadMinusOld = 0 then .ok 0
    else do
      let product ← checkedMul u128Max oldOwed wadMinusNew
      let remaining ← checkedDiv product wadMinusOld
      tryU64 remaining

/-- What a position anchored at `anchorSf` can claim at `currentSf`. -/
def claimableExact (owed anchorSf currentSf : ℕ) : Result ℕ :=
  if owed = 0 ∨ currentSf ≤ anchorSf then .ok 0
  else do
    let sfDelta ← checkedSub currentSf anchorSf
    let sfRemaining ← checkedSub WAD anchorSf
    if sfRemaining = 0 then .ok 0
    else do
      let product ← checkedMul u128Max owed sfDelta
      let result ← checkedDiv product sfRemaining
      tryU64 result

/-- The weight and the offset of the line of one position. -/
def positionContribution (owed anchorSf : ℕ) : Result (ℕ × ℕ) :=
  if owed = 0 then .ok (0, 0)
  else do
    let wadMinusAnchor ← checkedSub WAD anchorSf
    if wadMinusAnchor = 0 then .ok (0, 0)
    else do
      let numerator ← checkedMul u128Max owed WAD
      let numerator ← checkedAdd u128Max numerator wadMinusAnchor
      let numerator ← checkedSub numerator 1
      let weight ← checkedDiv numerator wadMinusAnchor
      let product ← checkedMul u128Max weight anchorSf
      let offset ← checkedDiv product WAD
      .ok (weight, offset)

/-- `max(1, min(WAD, raw))`. -/
def clampFactor (raw : ℕ) : ℕ :=
  let capped := if WAD < raw then WAD else raw
  if capped < 1 then 1 else capped

/-- The settlement factor of `reSettle`: `WAD * (vault + offsets) / (normalized + weights)`, clamped. -/
def computeResettleFactor (vaultBalance totalNormalized weightSum offsetSum : ℕ) : Result ℕ := do
  let denominator ← checkedAdd u128Max totalNormalized weightSum
  if denominator = 0 then .ok WAD
  else do
    let numerator ← checkedAdd u128Max vaultBalance offsetSum
    let product ← checkedMul u128Max numerator WAD
    let raw ← checkedDiv product denominator
    .ok (clampFactor raw)

/-! ### When the helpers succeed -/

private theorem mul_wad_le {h n : ℕ} (hh : h ≤ u64Max) (hn : n ≤ WAD) : h * n ≤ u128Max :=
  (Nat.mul_le_mul hh hn).trans (by decide)

theorem rebaseRemainingOwed_eq {h a s : ℕ} (hh : h ≤ u64Max) (ha : a < WAD) (has : a ≤ s) (hs : s ≤ WAD) :
    rebaseRemainingOwed h a s = .ok (remaining WAD h a s) := by
  unfold rebaseRemainingOwed
  by_cases h0 : h = 0 ∨ a = s
  · rw [if_pos h0]
    rcases h0 with rfl | rfl
    · simp [remaining]
    · rw [remaining_anchor ha]
  · rw [if_neg h0]
    have hne : WAD - a ≠ 0 := by omega
    have hle := (remaining_le (u := WAD) (h := h) has).trans hh
    simp only [bind_eq_ok, checkedSub_eq_ok]
    refine ⟨WAD - s, ⟨hs, rfl⟩, WAD - a, ⟨ha.le, rfl⟩, ?_⟩
    rw [if_neg hne]
    simp only [bind_eq_ok, checkedMul_eq_ok, checkedDiv_eq_ok, tryU64_eq_ok]
    exact ⟨_, ⟨mul_wad_le hh (Nat.sub_le _ _), rfl⟩, _, ⟨hne, rfl⟩, hle, rfl⟩

theorem claimableExact_eq {h a s : ℕ} (hh : h ≤ u64Max) (ha : a < WAD) (hs : s ≤ WAD) :
    claimableExact h a s = .ok (claimable WAD h a s) := by
  unfold claimableExact
  by_cases h0 : h = 0 ∨ s ≤ a
  · rw [if_pos h0]
    rcases h0 with rfl | h0
    · simp [claimable]
    · rw [claimable_of_le h0]
  · rw [if_neg h0]
    have hne : WAD - a ≠ 0 := by omega
    have hle := (claimable_le (u := WAD) (h := h) (a := a) hs).trans hh
    simp only [bind_eq_ok, checkedSub_eq_ok]
    refine ⟨s - a, ⟨by omega, rfl⟩, WAD - a, ⟨ha.le, rfl⟩, ?_⟩
    rw [if_neg hne]
    simp only [bind_eq_ok, checkedMul_eq_ok, checkedDiv_eq_ok, tryU64_eq_ok]
    exact ⟨_, ⟨mul_wad_le hh (by omega), rfl⟩, _, ⟨hne, rfl⟩, hle, rfl⟩

/-- The only step of `positionContribution` that can overflow is the product of the weight and the anchor. -/
theorem positionContribution_eq_ok {h a : ℕ} {r : ℕ × ℕ} (hh : h ≤ u64Max) (ha : a < WAD) :
    positionContribution h a = .ok r ↔
      weight WAD h a * a ≤ u128Max ∧ r = (weight WAD h a, offset WAD h a) := by
  unfold positionContribution
  by_cases h0 : h = 0
  · rw [if_pos h0, h0, weight_zero ha, offset_zero ha]
    simp [eq_comm]
  · rw [if_neg h0]
    have hne : WAD - a ≠ 0 := by omega
    have h1 : h * WAD ≤ u128Max := mul_wad_le hh le_rfl
    have h2 : h * WAD + (WAD - a) ≤ u128Max :=
      (Nat.add_le_add (Nat.mul_le_mul_right _ hh) (Nat.sub_le _ _)).trans (by decide)
    have h3 : 1 ≤ h * WAD + (WAD - a) := by omega
    simp only [bind_eq_ok, checkedSub_eq_ok]
    constructor
    · rintro ⟨_, ⟨-, rfl⟩, hr⟩
      rw [if_neg hne] at hr
      simp only [bind_eq_ok, checkedMul_eq_ok, checkedAdd_eq_ok, checkedSub_eq_ok, checkedDiv_eq_ok,
        Except.ok.injEq] at hr
      obtain ⟨_, ⟨-, rfl⟩, _, ⟨-, rfl⟩, _, ⟨-, rfl⟩, _, ⟨-, rfl⟩, _, ⟨hw, rfl⟩, _, ⟨-, rfl⟩, rfl⟩ := hr
      exact ⟨hw, rfl⟩
    · rintro ⟨hw, rfl⟩
      refine ⟨_, ⟨ha.le, rfl⟩, ?_⟩
      rw [if_neg hne]
      simp only [bind_eq_ok, checkedMul_eq_ok, checkedAdd_eq_ok, checkedSub_eq_ok, checkedDiv_eq_ok,
        Except.ok.injEq]
      exact ⟨_, ⟨h1, rfl⟩, _, ⟨h2, rfl⟩, _, ⟨h3, rfl⟩, _, ⟨hne, rfl⟩, _, ⟨hw, rfl⟩, _, ⟨WAD_pos.ne', rfl⟩, rfl⟩

theorem clampFactor_eq (raw : ℕ) : clampFactor raw = max 1 (min WAD raw) := by
  have hwad := WAD_pos
  unfold clampFactor
  by_cases hcap : WAD < raw
  · rw [if_pos hcap, if_neg (by omega)]
    omega
  · rw [if_neg hcap]
    by_cases hmin : raw < 1
    · rw [if_pos hmin]
      omega
    · rw [if_neg hmin]
      omega

theorem clampFactor_bounds (raw : ℕ) : 1 ≤ clampFactor raw ∧ clampFactor raw ≤ WAD := by
  have hwad := WAD_pos
  rw [clampFactor_eq]
  omega

/-- A clamped factor above the minimum is at most the raw one. -/
theorem clampFactor_le {raw : ℕ} (h : 1 < clampFactor raw ∨ 1 ≤ raw) : clampFactor raw ≤ raw := by
  rw [clampFactor_eq] at h ⊢
  omega

/-- A ratio that is clamped from above is at least one. -/
theorem le_of_clampFactor_eq_wad {n d : ℕ} (hd : d ≠ 0) (h : clampFactor (n * WAD / d) = WAD) : d ≤ n := by
  have hraw : clampFactor (n * WAD / d) ≤ n * WAD / d := clampFactor_le (.inl (by rw [h]; decide))
  rw [h, Nat.le_div_iff_mul_le (Nat.pos_of_ne_zero hd), mul_comm] at hraw
  exact Nat.le_of_mul_le_mul_right hraw WAD_pos

/-- A factor that is not clamped from above is off its ratio by less than one. -/
theorem lt_clampFactor_succ_mul {n d : ℕ} (hd : d ≠ 0) (h : clampFactor (n / d) < WAD) :
    n < (clampFactor (n / d) + 1) * d := by
  have hraw : n / d ≤ clampFactor (n / d) := by
    rw [clampFactor_eq] at h ⊢
    omega
  rw [← Nat.div_lt_iff_lt_mul (Nat.pos_of_ne_zero hd)]
  omega

theorem le_clampFactor {raw f : ℕ} (h : f ≤ raw) (hf : f ≤ WAD) : f ≤ clampFactor raw := by
  rw [clampFactor_eq]
  omega

theorem computeResettleFactor_eq_ok {v r w o f : ℕ} :
    computeResettleFactor v r w o = .ok f ↔
      r + w ≤ u128Max ∧ ((r + w = 0 ∧ f = WAD) ∨
        (r + w ≠ 0 ∧ (v + o) * WAD ≤ u128Max ∧ f = clampFactor ((v + o) * WAD / (r + w)))) := by
  unfold computeResettleFactor
  simp only [bind_eq_ok, checkedAdd_eq_ok]
  constructor
  · rintro ⟨_, ⟨hd, rfl⟩, h⟩
    refine ⟨hd, ?_⟩
    by_cases h0 : r + w = 0
    · rw [if_pos h0] at h
      exact .inl ⟨h0, (Except.ok.inj h).symm⟩
    · rw [if_neg h0] at h
      simp only [bind_eq_ok, checkedAdd_eq_ok, checkedMul_eq_ok, checkedDiv_eq_ok, Except.ok.injEq] at h
      obtain ⟨_, ⟨-, rfl⟩, _, ⟨hm, rfl⟩, _, ⟨-, rfl⟩, rfl⟩ := h
      exact .inr ⟨h0, hm, rfl⟩
  · rintro ⟨hd, ⟨h0, rfl⟩ | ⟨h0, hm, rfl⟩⟩
    · exact ⟨_, ⟨hd, rfl⟩, by rw [if_pos h0]⟩
    · refine ⟨_, ⟨hd, rfl⟩, ?_⟩
      have hvo : v + o ≤ u128Max := (Nat.le_mul_of_pos_right _ WAD_pos).trans hm
      rw [if_neg h0]
      simp only [bind_eq_ok, checkedAdd_eq_ok, checkedMul_eq_ok, checkedDiv_eq_ok, Except.ok.injEq]
      exact ⟨_, ⟨hvo, rfl⟩, _, ⟨hm, rfl⟩, _, ⟨h0, rfl⟩, rfl⟩

theorem computeResettleFactor_le {v r w o f : ℕ} (h : computeResettleFactor v r w o = .ok f) : f ≤ WAD := by
  rcases computeResettleFactor_eq_ok.1 h with ⟨-, ⟨-, rfl⟩ | ⟨-, -, rfl⟩⟩
  · exact le_rfl
  · exact (clampFactor_bounds _).2

/-- The line of a position never understates what the position can claim at a later factor, and overstates it by one
unit at most. -/
theorem positionContribution_line {owed anchorSf sf w o : ℕ} (howed : owed ≤ u64Max) (hanchor : anchorSf < sf)
    (hsf : sf ≤ WAD) (h : positionContribution owed anchorSf = .ok (w, o)) :
    o ≤ w * sf / WAD ∧ ∃ c, claimableExact owed anchorSf sf = .ok c ∧ c ≤ w * sf / WAD - o ∧
      w * sf / WAD - o ≤ c + 1 := by
  have hlt : anchorSf < WAD := hanchor.trans_le hsf
  obtain ⟨-, hline⟩ := (positionContribution_eq_ok howed hlt).1 h
  obtain ⟨rfl, rfl⟩ := Prod.mk.inj hline
  obtain ⟨hle, hge⟩ := line_bounds (h := owed) hlt hanchor.le hsf
  refine ⟨by omega, _, claimableExact_eq howed hlt hsf, by omega, by omega⟩

/-- Of a gap of 5 anchored at four tenths, 2.5 units can be claimed at seven tenths; the line is 9 * 0.7 - 3. -/
theorem positionContribution_line_rounded :
    positionContribution 5 400000000000000000 = .ok (9, 3) ∧
      claimableExact 5 400000000000000000 700000000000000000 = .ok 2 ∧
      9 * 700000000000000000 / WAD - 3 = 3 ∧ 9 * 700000000000000000 / WAD - 3 ≤ 2 + 1 := by
  have hline : positionContribution 5 400000000000000000 = .ok (9, 3) := rfl
  have hsf : 700000000000000000 ≤ WAD := by decide
  obtain ⟨-, c, hc, -, hle⟩ := positionContribution_line (by decide) (by decide) hsf hline
  have hexact : claimableExact 5 400000000000000000 700000000000000000 = .ok 2 := rfl
  obtain rfl := Except.ok.inj (hc.symm.trans hexact)
  exact ⟨hline, hexact, by decide, hle⟩

/-! ### How the helpers fail -/

theorem positionContribution_error {h a : ℕ} {e : ProgramError} (he : positionContribution h a = .error e) :
    e = mathOverflow := by
  unfold positionContribution at he
  split at he
  · cases he
  · simp only [bind_eq_error, checkedSub_eq_error, checkedSub_eq_ok] at he
    rcases he with ⟨-, he⟩ | ⟨_, -, he⟩
    · exact he
    · split at he
      · cases he
      · simp only [bind_eq_error, checkedMul, checkedAdd, inRange_eq_error, checkedSub_eq_error,
          checkedDiv_eq_error, reduceCtorEq, and_false, exists_false, or_false] at he
        obtain ⟨-, he⟩ | ⟨_, -, ⟨-, he⟩ | ⟨_, -, ⟨-, he⟩ | ⟨_, -, ⟨-, he⟩ | ⟨_, -, ⟨-, he⟩ | ⟨_, -, -, he⟩⟩⟩⟩⟩ := he <;>
          exact he

theorem computeResettleFactor_error {v r w o : ℕ} {e : ProgramError}
    (he : computeResettleFactor v r w o = .error e) : e = mathOverflow := by
  simp only [computeResettleFactor, bind_eq_error, checkedAdd, inRange_eq_error] at he
  rcases he with ⟨-, he⟩ | ⟨_, -, he⟩
  · exact he
  · split at he
    · cases he
    · simp only [bind_eq_error, checkedMul, inRange_eq_error, checkedDiv_eq_error, reduceCtorEq, and_false,
        exists_false, or_false] at he
      rcases he with ⟨-, he⟩ | ⟨_, -, ⟨-, he⟩ | ⟨_, -, -, he⟩⟩ <;> exact he

end Coalesce
