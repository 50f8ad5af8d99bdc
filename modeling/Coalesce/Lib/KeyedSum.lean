import Mathlib.Data.Finmap
import Mathlib.Algebra.BigOperators.Group.Multiset.Basic
import Mathlib.Algebra.Order.BigOperators.Group.Multiset
import Mathlib.Algebra.Order.Group.Nat
import Mathlib.Algebra.Ring.Basic

/-!
# Sums over finite maps

`s.total f` adds `f v` over the values `v` of a finite map `s`.  A ledger keeps such sums next to the map itself, so
the lemmas here say how a sum moves when one entry is written (`total_insert`), created (`total_insert_new`) or
removed (`total_erase`), and bound an entry by the sum.
-/

namespace Finmap

variable {κ ν M : Type*} [DecidableEq κ]

/-- The sum of `f v` over the values `v` of a finite map. -/
def total [AddCommMonoid M] (s : Finmap fun _ : κ => ν) (f : ν → M) : M :=
  (s.entries.map fun e => f e.2).sum

theorem insert_erase {k : κ} {v : ν} (s : Finmap fun _ : κ => ν) : (s.erase k).insert k v = s.insert k v := by
  apply ext_lookup
  intro x
  by_cases hx : x = k
  · subst hx; simp [lookup_insert]
  · rw [lookup_insert_of_ne _ hx, lookup_insert_of_ne _ hx, lookup_erase_ne hx]

theorem insert_lookup {k : κ} {v : ν} {s : Finmap fun _ : κ => ν} (h : s.lookup k = some v) : s.insert k v = s := by
  apply ext_lookup
  intro x
  by_cases hx : x = k
  · subst hx; rw [lookup_insert, h]
  · rw [lookup_insert_of_ne _ hx]

theorem lookup_of_erase {k x : κ} {v : ν} {s : Finmap fun _ : κ => ν} (h : (s.erase k).lookup x = some v) :
    s.lookup x = some v := by
  by_cases hx : x = k
  · subst hx
    rw [lookup_erase] at h
    cases h
  · rwa [lookup_erase_ne hx] at h

theorem lookup_of_insert {k x : κ} {u v : ν} {s : Finmap fun _ : κ => ν} (h : (s.insert k v).lookup x = some u) :
    (x = k ∧ u = v) ∨ s.lookup x = some u := by
  by_cases hx : x = k
  · subst hx
    rw [lookup_insert] at h
    exact .inl ⟨rfl, (Option.some.inj h).symm⟩
  · rw [lookup_insert_of_ne _ hx] at h
    exact .inr h

/-- Writing an entry removes none. -/
theorem exists_lookup_insert {k x : κ} {v : ν} {s : Finmap fun _ : κ => ν} (h : ∃ u, s.lookup x = some u) :
    ∃ u, (s.insert k v).lookup x = some u := by
  by_cases hx : x = k
  · exact ⟨v, by rw [hx, lookup_insert]⟩
  · rwa [lookup_insert_of_ne _ hx]

/-- Two maps that agree away from one key. -/
theorem eq_insert {k : κ} {v : ν} {s t : Finmap fun _ : κ => ν} (hk : t.lookup k = some v)
    (h : ∀ x, x ≠ k → t.lookup x = s.lookup x) : t = s.insert k v := by
  apply ext_lookup
  intro x
  by_cases hx : x = k
  · subst hx; rw [hk, lookup_insert]
  · rw [h x hx, lookup_insert_of_ne _ hx]

section Monoid

variable [AddCommMonoid M]

theorem total_insert_new {k : κ} {v : ν} {s : Finmap fun _ : κ => ν} (h : s.lookup k = none) (f : ν → M) :
    (s.insert k v).total f = s.total f + f v := by
  unfold total
  rw [entries_insert_of_notMem (lookup_eq_none.1 h), Multiset.map_cons, Multiset.sum_cons, add_comm]

/-- Removing an entry. -/
theorem total_erase {k : κ} {v : ν} {s : Finmap fun _ : κ => ν} (h : s.lookup k = some v) (f : ν → M) :
    (s.erase k).total f + f v = s.total f := by
  rw [← total_insert_new (k := k) (lookup_erase k s), insert_erase, insert_lookup h]

/-- Writing an existing entry moves the sum by the difference of the two values. -/
theorem total_insert {k : κ} {v v₀ : ν} {s : Finmap fun _ : κ => ν} (h : s.lookup k = some v₀) (f : ν → M) :
    (s.insert k v).total f + f v₀ = s.total f + f v := by
  rw [← insert_erase, total_insert_new (lookup_erase k s), add_right_comm, total_erase h]

/-- Writing an entry, present or not: a missing entry counts as the default value `d`. -/
theorem total_insert_getD {k : κ} {v d : ν} {s : Finmap fun _ : κ => ν} (f : ν → M) (hd : f d = 0) :
    (s.insert k v).total f + f ((s.lookup k).getD d) = s.total f + f v := by
  cases h : s.lookup k with
  | none => rw [Option.getD_none, hd, add_zero, total_insert_new h]
  | some v₀ => rw [Option.getD_some, total_insert h]

theorem total_congr {s : Finmap fun _ : κ => ν} {f g : ν → M} (h : ∀ k v, s.lookup k = some v → f v = g v) :
    s.total f = s.total g := by
  unfold total
  congr 1
  apply Multiset.map_congr rfl
  rintro ⟨k, v⟩ hkv
  exact h k v (lookup_eq_some_iff.2 hkv)

theorem total_eq_zero {s : Finmap fun _ : κ => ν} {f : ν → M} (h : ∀ k v, s.lookup k = some v → f v = 0) :
    s.total f = 0 := by
  rw [total_congr (g := fun _ => 0) h]
  simp [total]

omit [DecidableEq κ] in
theorem total_add (s : Finmap fun _ : κ => ν) (f g : ν → M) : s.total (fun v => f v + g v) = s.total f + s.total g := by
  simp [total, Multiset.sum_map_add]

omit [DecidableEq κ] in
theorem map_total {N : Type*} [AddCommMonoid N] (φ : M →+ N) (s : Finmap fun _ : κ => ν) (f : ν → M) :
    φ (s.total f) = s.total fun v => φ (f v) := by
  simp [total, map_multiset_sum]

omit [DecidableEq κ] in
theorem total_mul {R : Type*} [NonUnitalNonAssocSemiring R] (s : Finmap fun _ : κ => ν) (f : ν → R) (c : R) :
    s.total (fun v => f v * c) = s.total f * c :=
  (map_total (AddMonoidHom.mulRight c) s f).symm

end Monoid

section Ordered

variable [AddCommMonoid M] [PartialOrder M] [IsOrderedAddMonoid M]

theorem total_le_total {s : Finmap fun _ : κ => ν} {f g : ν → M} (h : ∀ k v, s.lookup k = some v → f v ≤ g v) :
    s.total f ≤ s.total g := by
  apply Multiset.sum_map_le_sum_map
  rintro ⟨k, v⟩ hkv
  exact h k v (lookup_eq_some_iff.2 hkv)

theorem total_nonneg {s : Finmap fun _ : κ => ν} {f : ν → M} (h : ∀ k v, s.lookup k = some v → 0 ≤ f v) :
    0 ≤ s.total f := by
  have := total_le_total (f := fun _ => (0 : M)) h
  rwa [total_eq_zero (f := fun _ => (0 : M)) (fun _ _ _ => rfl)] at this

/-- One entry of a sum of nonnegative terms. -/
theorem le_total {k : κ} {v : ν} {s : Finmap fun _ : κ => ν} {f : ν → M} (h : s.lookup k = some v)
    (hf : ∀ k v, s.lookup k = some v → 0 ≤ f v) : f v ≤ s.total f := by
  rw [← total_erase h]
  apply le_add_of_nonneg_left
  apply total_nonneg
  intro x u hu
  exact hf x u (lookup_of_erase hu)

end Ordered

section Nat

theorem le_total_nat {k : κ} {v : ν} {s : Finmap fun _ : κ => ν} (h : s.lookup k = some v) (f : ν → ℕ) :
    f v ≤ s.total f :=
  le_total h fun _ _ _ => Nat.zero_le _

end Nat

end Finmap
