import Mathlib.Data.Set.Function
import Mathlib.Logic.Function.Basic

/-!
# Tables under other names

A table gives every key an entry, and all but a few entries are blank.  `Relabels f s` says that one table is another
with the keys of `s` renamed by `f`: entries correspond under the new names, and whatever else the two tables have is
blank.  Two parties that write the same entries, each under its own names, stay related as long as `f` tells the keys
of `s` apart.
-/

variable {α κ V V' : Type*}

/-- `t'` is `t` with the keys of `s` renamed by `f`; the entries correspond by `R`, the blank ones are `d` and `d'`. -/
structure Relabels (f : α → κ) (s : Set α) (R : V → V' → Prop) (d : V) (d' : V') (t : α → V) (t' : κ → V') : Prop where
  named : ∀ x ∈ s, R (t x) (t' (f x))
  blank : ∀ x ∉ s, t x = d
  unnamed : ∀ k ∉ f '' s, t' k = d'

namespace Relabels

variable {f : α → κ} {s : Set α} {R : V → V' → Prop} {d : V} {d' : V'} {t : α → V} {t' : κ → V'}

/-- Blank tables. -/
theorem const (h : R d d') : Relabels f s R d d' (fun _ => d) (fun _ => d') :=
  ⟨fun _ _ => h, fun _ _ => rfl, fun _ _ => rfl⟩

/-- Both write one entry. -/
theorem update [DecidableEq α] [DecidableEq κ] (h : Relabels f s R d d' t t') (hf : s.InjOn f) {x : α} (hx : x ∈ s)
    {v : V} {v' : V'} (hv : R v v') :
    Relabels f s R d d' (Function.update t x v) (Function.update t' (f x) v') where
  named y hy := by
    by_cases hyx : y = x
    · rw [hyx, Function.update_self, Function.update_self]
      exact hv
    · have hne : f y ≠ f x := fun he => hyx (hf hy hx he)
      rw [Function.update_of_ne hyx, Function.update_of_ne hne]
      exact h.named y hy
  blank y hy := by
    have hne : y ≠ x := fun he => hy (he ▸ hx)
    rw [Function.update_of_ne hne]
    exact h.blank y hy
  unnamed k hk := by
    have hne : k ≠ f x := fun he => hk ⟨x, hx, he.symm⟩
    rw [Function.update_of_ne hne]
    exact h.unnamed k hk

/-- An entry that is not blank has its key in `s`. -/
theorem mem_of_ne (h : Relabels f s R d d' t t') {x : α} (hx : t x ≠ d) : x ∈ s :=
  by_contra fun hs => hx (h.blank x hs)

theorem exists_of_ne (h : Relabels f s R d d' t t') {k : κ} (hk : t' k ≠ d') : ∃ x ∈ s, f x = k ∧ R (t x) (t' k) := by
  obtain ⟨x, hx, rfl⟩ : k ∈ f '' s := by_contra fun hs => hk (h.unnamed k hs)
  exact ⟨x, hx, rfl, h.named x hx⟩

/-- Where the entries are the same, the second table says of a name what the first says of its owner. -/
theorem eq_iff {d v : V} {t' : κ → V} (h : Relabels f s Eq d d t t') (hv : v ≠ d) {k : κ} :
    t' k = v ↔ ∃ x, f x = k ∧ t x = v := by
  constructor
  · rintro rfl
    obtain ⟨x, -, hx, he⟩ := h.exists_of_ne hv
    exact ⟨x, hx, he⟩
  · rintro ⟨x, rfl, rfl⟩
    exact (h.named x (h.mem_of_ne hv)).symm

/-- Only a blank table is a blank one relabelled. -/
theorem eq_const {d : V} {t' : κ → V} (h : Relabels f s Eq d d (fun _ => d) t') : t' = fun _ => d := by
  funext k
  by_contra hk
  obtain ⟨x, -, -, he⟩ := h.exists_of_ne hk
  exact hk he.symm

end Relabels
