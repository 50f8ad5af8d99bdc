import Mathlib.Algebra.Order.Field.Basic
import Mathlib.Data.Nat.Cast.Order.Field
import Mathlib.Tactic.Linarith
import Mathlib.Tactic.Ring
import Mathlib.Tactic.FieldSimp
import Mathlib.Tactic.Positivity

/-!
# Pro-rata payment of a debt at a rising factor

A debtor pays the part `s / u` of every debt, where the factor `s ≤ u` rises over time.  A creditor who was served
at the factor `a` is owed a gap `h`; at a later factor `s` the part `share u a s = (u - s) / (u - a)` of the gap is
still open and the rest has become payable.

The second half is about the same quantities in natural numbers, rounded: `remaining` and `claimable` round down,
and the line `weight * s / u - offset` is a rounded upper bound of what a gap can claim at the factor `s`.
-/

namespace ProRata

/-! ### Exact shares -/

section Exact

variable {K : Type*} [Field K] [LinearOrder K] [IsStrictOrderedRing K] {u a : K}

/-- The part of a gap anchored at `a` that is still open at `s`. -/
def share (u a s : K) : K := (u - s) / (u - a)

theorem share_self (h : a < u) : share u a a = 1 := div_self (sub_pos.2 h).ne'

end Exact

/-! ### Rounded amounts -/

section Rounded

/-- The open part of a gap, rounded down. -/
def remaining (u h a s : ℕ) : ℕ := h * (u - s) / (u - a)

/-- The payable part of a gap, rounded down. -/
def claimable (u h a s : ℕ) : ℕ := h * (s - a) / (u - a)

/-- The slope of the line of a gap, rounded up. -/
def weight (u h a : ℕ) : ℕ := (h * u + (u - a) - 1) / (u - a)

/-- The intercept of the line of a gap, rounded down. -/
def offset (u h a : ℕ) : ℕ := weight u h a * a / u

variable {u h a s : ℕ}

theorem div_mul_bounds (n : ℕ) {d : ℕ} (hd : 0 < d) : n / d * d ≤ n ∧ n < (n / d + 1) * d :=
  ⟨Nat.div_mul_le_self n d, by rw [mul_comm]; exact Nat.lt_mul_div_succ n hd⟩

theorem remaining_bounds (ha : a < u) :
    remaining u h a s * (u - a) ≤ h * (u - s) ∧ h * (u - s) < (remaining u h a s + 1) * (u - a) :=
  div_mul_bounds _ (by omega)

theorem claimable_bounds (ha : a < u) :
    claimable u h a s * (u - a) ≤ h * (s - a) ∧ h * (s - a) < (claimable u h a s + 1) * (u - a) :=
  div_mul_bounds _ (by omega)

theorem remaining_le (has : a ≤ s) : remaining u h a s ≤ h :=
  Nat.div_le_of_le_mul (by rw [mul_comm]; exact Nat.mul_le_mul_right h (by omega))

theorem claimable_le (hs : s ≤ u) : claimable u h a s ≤ h :=
  Nat.div_le_of_le_mul (by rw [mul_comm]; exact Nat.mul_le_mul_right h (by omega))

theorem remaining_anchor (ha : a < u) : remaining u h a a = h := Nat.mul_div_cancel h (by omega)

theorem claimable_full (ha : a < u) : claimable u h a u = h := Nat.mul_div_cancel h (by omega)

theorem claimable_of_le (hs : s ≤ a) : claimable u h a s = 0 := by simp [claimable, Nat.sub_eq_zero_of_le hs]

theorem mul_sub_add_mul_sub (has : a ≤ s) (hs : s ≤ u) : h * (s - a) + h * (u - s) = h * (u - a) := by
  rw [← mul_add]
  congr 1
  omega

/-- The payable and the open part lose no unit exactly if nothing is rounded. -/
theorem claimable_add_remaining_eq_iff (ha : a < u) (has : a ≤ s) (hs : s ≤ u) :
    claimable u h a s + remaining u h a s = h ↔ u - a ∣ h * (u - s) := by
  have hd : 0 < u - a := by omega
  have hsum := mul_sub_add_mul_sub (h := h) has hs
  obtain ⟨hclaim, -⟩ := claimable_bounds (h := h) (s := s) ha
  obtain ⟨hrem, -⟩ := remaining_bounds (h := h) (s := s) ha
  constructor
  · intro heq
    have hprod : claimable u h a s * (u - a) + remaining u h a s * (u - a) = h * (u - a) := by rw [← add_mul, heq]
    exact ⟨remaining u h a s, by rw [mul_comm (u - a)]; omega⟩
  · intro hdvd
    have hdvd' : u - a ∣ h * (s - a) := (Nat.dvd_add_iff_left hdvd).2 (hsum ▸ Nat.dvd_mul_left _ _)
    have hclaim' : claimable u h a s * (u - a) = h * (s - a) := Nat.div_mul_cancel hdvd'
    have hrem' : remaining u h a s * (u - a) = h * (u - s) := Nat.div_mul_cancel hdvd
    refine Nat.eq_of_mul_eq_mul_right hd ?_
    rw [add_mul, hclaim', hrem', hsum]

/-- Below full payment a gap never closes. -/
theorem claimable_lt (ha : a < u) (hh : 0 < h) (hs : s < u) : claimable u h a s < h := by
  refine (Nat.div_lt_iff_lt_mul (by omega)).2 ?_
  exact Nat.mul_lt_mul_of_pos_left (by omega) hh

/-! ### The line of a gap -/

theorem weight_bounds (ha : a < u) :
    h * u ≤ weight u h a * (u - a) ∧ weight u h a * (u - a) < h * u + (u - a) := by
  obtain ⟨h1, h2⟩ := div_mul_bounds (h * u + (u - a) - 1) (d := u - a) (by omega)
  unfold weight
  rw [add_mul] at h2
  omega

theorem weight_le (ha : a < u) {k : ℕ} : weight u h a ≤ k ↔ h * u ≤ k * (u - a) := by
  unfold weight
  rw [← Nat.lt_succ_iff, Nat.div_lt_iff_lt_mul (by omega), Nat.succ_mul]
  omega

/-- A gap anchored one below the full factor has the steepest line. -/
theorem weight_pred (hu : 0 < u) : weight u h (u - 1) = h * u := by
  unfold weight
  rw [Nat.sub_sub_self hu, Nat.div_one, Nat.add_sub_cancel]

theorem offset_bounds (hu : 0 < u) :
    offset u h a * u ≤ weight u h a * a ∧ weight u h a * a < offset u h a * u + u := by
  obtain ⟨h1, h2⟩ := div_mul_bounds (weight u h a * a) hu
  unfold offset
  rw [add_mul] at h2
  omega

theorem weight_zero (ha : a < u) : weight u 0 a = 0 := by
  unfold weight
  rw [zero_mul, zero_add]
  exact Nat.div_eq_of_lt (by omega)

theorem offset_zero (ha : a < u) : offset u 0 a = 0 := by simp [offset, weight_zero ha]

/-- The line at `s` lies above every `r` that the gap can claim there. -/
theorem le_line (ha : a < u) (has : a ≤ s) {r : ℕ} (hr : r * (u - a) ≤ h * (s - a)) :
    offset u h a * u + r * u ≤ weight u h a * s := by
  obtain ⟨w1, -⟩ := weight_bounds (h := h) ha
  obtain ⟨o1, -⟩ := offset_bounds (h := h) (a := a) (u := u) (by omega)
  have key : r * u * (u - a) ≤ weight u h a * (s - a) * (u - a) := by
    calc r * u * (u - a) = r * (u - a) * u := by ring
      _ ≤ h * (s - a) * u := Nat.mul_le_mul_right _ hr
      _ = h * u * (s - a) := by ring
      _ ≤ weight u h a * (u - a) * (s - a) := Nat.mul_le_mul_right _ w1
      _ = weight u h a * (s - a) * (u - a) := by ring
  have := Nat.le_of_mul_le_mul_right key (by omega)
  have e : weight u h a * s = weight u h a * a + weight u h a * (s - a) := by rw [← mul_add]; congr 1; omega
  omega

/-- The line at `s` exceeds a bound `r` of the claim by less than two units. -/
theorem line_lt (ha : a < u) (has : a ≤ s) {r : ℕ} (hr : h * (s - a) ≤ r * (u - a)) :
    weight u h a * s < offset u h a * u + r * u + (s - a) + u := by
  obtain ⟨-, w2⟩ := weight_bounds (h := h) ha
  obtain ⟨-, o2⟩ := offset_bounds (h := h) (a := a) (u := u) (by omega)
  have key : weight u h a * (s - a) * (u - a) ≤ (r * u + (s - a)) * (u - a) := by
    calc weight u h a * (s - a) * (u - a) = weight u h a * (u - a) * (s - a) := by ring
      _ ≤ (h * u + (u - a)) * (s - a) := Nat.mul_le_mul_right _ w2.le
      _ = h * (s - a) * u + (s - a) * (u - a) := by ring
      _ ≤ r * (u - a) * u + (s - a) * (u - a) := Nat.add_le_add_right (Nat.mul_le_mul_right _ hr) _
      _ = (r * u + (s - a)) * (u - a) := by ring
  have := Nat.le_of_mul_le_mul_right key (by omega)
  have e : weight u h a * s = weight u h a * a + weight u h a * (s - a) := by rw [← mul_add]; congr 1; omega
  omega

/-- What the line reserves for full payment: the gap, or one unit more. -/
theorem reserve_bounds (ha : a < u) :
    offset u h a + h ≤ weight u h a ∧ weight u h a ≤ offset u h a + h + 1 := by
  have hu : 0 < u := by omega
  have h1 := le_line (h := h) (r := h) ha ha.le le_rfl
  have h2 := line_lt (h := h) (r := h) ha ha.le le_rfl
  constructor
  · refine Nat.le_of_mul_le_mul_right ?_ hu
    rw [add_mul]; exact h1
  · refine Nat.le_of_lt_add_one (Nat.lt_of_mul_lt_mul_right (a := u) ?_)
    have : (offset u h a + h + 1 + 1) * u = offset u h a * u + h * u + u + u := by ring
    omega

/-- In whole units the line at `s` lies above the claim, by one unit at most. -/
theorem line_bounds (ha : a < u) (has : a ≤ s) (hs : s ≤ u) :
    claimable u h a s + offset u h a ≤ weight u h a * s / u ∧
      weight u h a * s / u ≤ claimable u h a s + offset u h a + 1 := by
  have hu : 0 < u := by omega
  obtain ⟨c1, c2⟩ := claimable_bounds (h := h) (s := s) ha
  constructor
  · have hline := le_line ha has c1
    rw [Nat.le_div_iff_mul_le hu, add_mul]
    omega
  · obtain ⟨-, hreserve⟩ := reserve_bounds (h := h) ha
    obtain ⟨w1, -⟩ := weight_bounds (h := h) ha
    -- the open part of the gap, rounded up
    have hopen : h * (u - a) < h * (u - s) + (claimable u h a s + 1) * (u - a) := by
      have hsum := mul_sub_add_mul_sub (h := h) has hs
      omega
    have key : h * u < weight u h a * (u - s) + (claimable u h a s + 1) * u := by
      refine Nat.lt_of_mul_lt_mul_right (a := u - a) ?_
      calc h * u * (u - a) = h * (u - a) * u := by ring
        _ < (h * (u - s) + (claimable u h a s + 1) * (u - a)) * u := Nat.mul_lt_mul_of_pos_right hopen hu
        _ = h * u * (u - s) + (claimable u h a s + 1) * u * (u - a) := by ring
        _ ≤ weight u h a * (u - a) * (u - s) + (claimable u h a s + 1) * u * (u - a) :=
          Nat.add_le_add_right (Nat.mul_le_mul_right _ w1) _
        _ = (weight u h a * (u - s) + (claimable u h a s + 1) * u) * (u - a) := by ring
    have htotal : weight u h a * s + weight u h a * (u - s) = weight u h a * u := by
      rw [← mul_add]
      congr 1
      omega
    have hbooked := Nat.mul_le_mul_right u hreserve
    rw [← Nat.lt_succ_iff, Nat.div_lt_iff_lt_mul hu]
    have hsplit : (offset u h a + h + 1) * u + (claimable u h a s + 1) * u =
        (claimable u h a s + offset u h a + 1).succ * u + h * u := by
      rw [Nat.succ_eq_add_one]
      ring
    omega

/-! ### The gap of one payment -/

/-- A debt of `n` served at the factor `s` leaves the gap `n - n * s / u`, the part `(u - s) / u` of it rounded up. -/
theorem gap_bounds (hu : 0 < u) (hs : s ≤ u) (n : ℕ) :
    n * (u - s) ≤ (n - n * s / u) * u ∧ (n - n * s / u) * u < n * (u - s) + u := by
  obtain ⟨p1, p2⟩ := div_mul_bounds (n * s) hu
  have e : n * (u - s) + n * s = n * u := by rw [← mul_add]; congr 1; omega
  have hp : n * s / u ≤ n := Nat.div_le_of_le_mul (by rw [mul_comm]; exact Nat.mul_le_mul_right _ hs)
  rw [Nat.sub_mul]
  rw [add_mul] at p2
  have := Nat.mul_le_mul_right u hp
  omega

theorem gap_pos (hs : s < u) {n : ℕ} (hn : 0 < n) : n * s / u < n :=
  (Nat.div_lt_iff_lt_mul (by omega)).2 (Nat.mul_lt_mul_of_pos_left hs hn)

/-- The slope of a gap that was just opened is at most the debt itself and `u` more. -/
theorem weight_gap_le (hs : s < u) (n : ℕ) : weight u (n - n * s / u) s ≤ n + u := by
  have hpos : 1 ≤ u - s := by omega
  rw [weight_le hs]
  calc (n - n * s / u) * u ≤ n * (u - s) + u := (gap_bounds (by omega) hs.le n).2.le
    _ ≤ n * (u - s) + u * (u - s) := Nat.add_le_add_left (Nat.le_mul_of_pos_right u hpos) _
    _ = (n + u) * (u - s) := (add_mul ..).symm

/-! ### Carrying a gap to a later factor

A gap `h` anchored at `a` for a debt `n` should be `n * (u - a) / u`.  When it is carried to the factor `s` the error
is scaled down together with it, so that only the rounding `j` of the step is added to the error `m`. -/

theorem le_of_carried (ha : a < u) (has : a ≤ s) {h' n m j : ℕ} (hcarried : h * (u - s) ≤ (h' + j) * (u - a))
    (hn : n * (u - a) ≤ (h + m) * u) : n * (u - s) ≤ (h' + j + m) * u := by
  have hle : u - s ≤ u - a := by omega
  refine Nat.le_of_mul_le_mul_right ?_ (show 0 < u - a by omega)
  calc n * (u - s) * (u - a) = n * (u - a) * (u - s) := by ring
    _ ≤ (h + m) * u * (u - s) := Nat.mul_le_mul_right _ hn
    _ = h * (u - s) * u + m * u * (u - s) := by ring
    _ ≤ (h' + j) * (u - a) * u + m * u * (u - a) :=
      Nat.add_le_add (Nat.mul_le_mul_right _ hcarried) (Nat.mul_le_mul_left _ hle)
    _ = (h' + j + m) * u * (u - a) := by ring

theorem carried_le (ha : a < u) (has : a ≤ s) {h' n m j : ℕ} (hcarried : h' * (u - a) ≤ h * (u - s) + j * (u - a))
    (hn : h * u ≤ n * (u - a) + m * u) : h' * u ≤ n * (u - s) + (m + j) * u := by
  have hle : u - s ≤ u - a := by omega
  refine Nat.le_of_mul_le_mul_right ?_ (show 0 < u - a by omega)
  calc h' * u * (u - a) = h' * (u - a) * u := by ring
    _ ≤ (h * (u - s) + j * (u - a)) * u := Nat.mul_le_mul_right _ hcarried
    _ = h * u * (u - s) + j * u * (u - a) := by ring
    _ ≤ (n * (u - a) + m * u) * (u - s) + j * u * (u - a) := Nat.add_le_add_right (Nat.mul_le_mul_right _ hn) _
    _ = n * (u - s) * (u - a) + m * u * (u - s) + j * u * (u - a) := by ring
    _ ≤ n * (u - s) * (u - a) + m * u * (u - a) + j * u * (u - a) :=
      Nat.add_le_add_right (Nat.add_le_add_left (Nat.mul_le_mul_left _ hle) _) _
    _ = (n * (u - s) + (m + j) * u) * (u - a) := by ring

/-! ### Rounded against exact -/

variable {K : Type*} [Field K] [LinearOrder K] [IsStrictOrderedRing K]

theorem cast_claimable (ha : a < u) (has : a ≤ s) :
    (claimable u h a s : K) ≤ h * (1 - share (u : K) a s) ∧
      (h * (1 - share (u : K) a s) : K) < claimable u h a s + 1 := by
  obtain ⟨r1, r2⟩ := claimable_bounds (h := h) (s := s) ha
  have hpos : (0 : K) < u - a := sub_pos.2 (by exact_mod_cast ha)
  have c1 : (claimable u h a s : K) * (u - a) ≤ h * (s - a) := by
    have := (Nat.cast_le (α := K)).2 r1
    push_cast [Nat.cast_sub ha.le, Nat.cast_sub has] at this
    exact this
  have c2 : (h : K) * (s - a) < (claimable u h a s + 1) * (u - a) := by
    have := (Nat.cast_lt (α := K)).2 r2
    push_cast [Nat.cast_sub ha.le, Nat.cast_sub has] at this
    exact this
  have e : 1 - share (u : K) a s = (s - a) / (u - a) := by
    unfold share
    rw [eq_div_iff hpos.ne', sub_mul, div_mul_cancel₀ _ hpos.ne']
    ring
  rw [e, ← mul_div_assoc]
  exact ⟨(le_div_iff₀ hpos).2 c1, (div_lt_iff₀ hpos).2 c2⟩

/-- Where the division is exact, nothing is rounded. -/
theorem cast_remaining_of_dvd (ha : a < u) (hs : s ≤ u) (hd : u - a ∣ h * (u - s)) :
    (remaining u h a s : K) = h * share (u : K) a s := by
  have hpos : (0 : K) < u - a := sub_pos.2 (by exact_mod_cast ha)
  have hexact : remaining u h a s * (u - a) = h * (u - s) := Nat.div_mul_cancel hd
  have hcast := congrArg (Nat.cast : ℕ → K) hexact
  push_cast [Nat.cast_sub ha.le, Nat.cast_sub hs] at hcast
  rw [share, ← mul_div_assoc, eq_div_iff hpos.ne', hcast]

/-- The line at `s` lies above the exact claim. -/
theorem cast_le_line (ha : a < u) (has : a ≤ s) :
    (offset u h a * u + h * (1 - share (u : K) a s) * u : K) ≤ weight u h a * s := by
  obtain ⟨w1, -⟩ := weight_bounds (h := h) ha
  obtain ⟨o1, -⟩ := offset_bounds (h := h) (a := a) (u := u) (by omega)
  have hpos : (0 : K) < u - a := sub_pos.2 (by exact_mod_cast ha)
  have hsub : (0 : K) ≤ s - a := sub_nonneg.2 (by exact_mod_cast has)
  have hweight : (h * u : K) ≤ weight u h a * (u - a) := by
    have hcast := (Nat.cast_le (α := K)).2 w1
    push_cast [Nat.cast_sub ha.le] at hcast
    exact hcast
  have hoffset : (offset u h a * u : K) ≤ weight u h a * a := by exact_mod_cast o1
  have hclaim : h * (1 - share (u : K) a s) * u ≤ weight u h a * (s - a) := by
    have e : h * (1 - share (u : K) a s) * u = h * u * (s - a) / (u - a) := by
      unfold share
      field_simp
      ring
    rw [e, div_le_iff₀ hpos]
    calc (h * u * (s - a) : K) ≤ weight u h a * (u - a) * (s - a) := mul_le_mul_of_nonneg_right hweight hsub
      _ = weight u h a * (s - a) * (u - a) := by ring
  linarith

end Rounded

end ProRata
