import Mathlib.Tactic.Choose
import Mathlib.Tactic.ByContra

/-!
# Local steps and the order of a batch

A step may fail, and otherwise gives a new state and an output.  A state is seen cell by cell.  A step is local to its
footprint if it changes no cell outside of it, and does the same in every state that looks the same inside.

Steps that are possible in one state and leave each other's footprints as they are can be taken in any order, with the
same outputs and the same final state (`Local.any_order`).
-/

namespace Footprint

/-! ### Two computations at once -/

section Both

universe u

variable {α : Type*} {β γ δ ρ : Type u} {R : β → γ → Prop}

/-- Both computations fail with the same error, or both succeed with related results. -/
inductive Both (R : β → γ → Prop) : Except α β → Except α γ → Prop
  | error (e : α) : Both R (.error e) (.error e)
  | ok {b : β} {c : γ} (h : R b c) : Both R (.ok b) (.ok c)

theorem Both.refl (x : Except α β) : Both Eq x x := by
  cases x with
  | error e => exact .error e
  | ok b => exact .ok rfl

theorem Both.bind {S : δ → ρ → Prop} {x : Except α β} {y : Except α γ} {f : β → Except α δ} {g : γ → Except α ρ}
    (h : Both R x y) (hf : ∀ b c, x = .ok b → R b c → Both S (f b) (g c)) : Both S (x >>= f) (y >>= g) := by
  cases h with
  | error e => exact .error e
  | ok h => exact hf _ _ rfl h

/-- A computation that both share. -/
theorem Both.same {S : δ → ρ → Prop} {x : Except α β} {f : β → Except α δ} {g : β → Except α ρ}
    (hf : ∀ b, x = .ok b → Both S (f b) (g b)) : Both S (x >>= f) (x >>= g) := by
  refine (Both.refl x).bind ?_
  rintro b _ hb rfl
  exact hf b hb

theorem Both.exists_ok {x : Except α β} {y : Except α γ} (h : Both R x y) {b : β} (hx : x = .ok b) :
    ∃ c, y = .ok c ∧ R b c := by
  subst hx
  cases h with
  | ok h => exact ⟨_, rfl, h⟩

end Both

/-! ### Local steps -/

variable {ι σ ε κ α : Type*} {ν : κ → Type*}

/-- Inside of `P` the state `t'` looks like `s'`, and outside like `t`. -/
structure Follows (cell : σ → (k : κ) → ν k) (P : κ → Prop) (s' t t' : σ) : Prop where
  inside : ∀ k, P k → cell t' k = cell s' k
  outside : ∀ k, ¬P k → cell t' k = cell t k

/-- Writing one cell of `P` in the same way. -/
theorem Follows.write {cell : σ → (k : κ) → ν k} {P : κ → Prop} {s' s'' t t' t'' : σ}
    (h : Follows cell P s' t t') {k : κ} (hk : P k) (hs : ∀ l, l ≠ k → cell s'' l = cell s' l)
    (ht : ∀ l, l ≠ k → cell t'' l = cell t' l) (heq : cell t'' k = cell s'' k) : Follows cell P s'' t t'' where
  inside l hl := by
    by_cases hlk : l = k
    · rw [hlk, heq]
    · rw [ht l hlk, hs l hlk, h.inside l hl]
  outside l hl := by
    have hlk : l ≠ k := by
      rintro rfl
      exact hl hk
    rw [ht l hlk, h.outside l hl]

/-- Every step reads and writes only the cells of its footprint. -/
structure Local (step : ι → σ → Except α (σ × ε)) (cell : σ → (k : κ) → ν k) (foot : ι → κ → Prop) : Prop where
  ext : ∀ {s t}, (∀ k, cell s k = cell t k) → s = t
  follows : ∀ {i s t}, (∀ k, foot i k → cell t k = cell s k) →
    Both (fun r r' => r'.2 = r.2 ∧ Follows cell (foot i) r.1 t r'.1) (step i s) (step i t)

/-- The steps of a list one after the other, with their outputs; the first failure ends it. -/
def steps (step : ι → σ → Except α (σ × ε)) : List ι → σ → Except α (σ × List ε)
  | [], s => .ok (s, [])
  | i :: is, s => do
    let r ← step i s
    let rest ← steps step is r.1
    .ok (rest.1, r.2 :: rest.2)

section Batch

variable (cell : σ → (k : κ) → ν k) (foot : ι → κ → Prop) (s : σ) (res : ι → σ × ε)

/-- Neither of two steps from `s`, with the results `res`, changes a cell in the footprint of the other. -/
def Independent (i j : ι) : Prop :=
  (∀ k, foot j k → cell (res i).1 k = cell s k) ∧ ∀ k, foot i k → cell (res j).1 k = cell s k

/-- Every cell of `t` is as the step of the batch left it that changes it, and as in `s` if none does. -/
structure Combines (is : List ι) (t : σ) : Prop where
  kept : ∀ k, (∀ i ∈ is, cell (res i).1 k = cell s k) → cell t k = cell s k
  changed : ∀ k, ∀ i ∈ is, cell (res i).1 k ≠ cell s k → cell t k = cell (res i).1 k

end Batch

variable {step : ι → σ → Except α (σ × ε)} {cell : σ → (k : κ) → ν k} {foot : ι → κ → Prop} {s t t' : σ}
  {res : ι → σ × ε} {i j : ι} {is is' : List ι}

theorem Independent.symm (h : Independent cell foot s res i j) : Independent cell foot s res j i := ⟨h.2, h.1⟩

theorem steps_cons {r : σ × ε} {os : List ε} (h : step i s = .ok r) (hrest : steps step is r.1 = .ok (t, os)) :
    steps step (i :: is) s = .ok (t, r.2 :: os) := by
  rw [steps, h]
  show (steps step is r.1 >>= _) = _
  rw [hrest]
  rfl

namespace Local

theorem frame (h : Local step cell foot) {r : σ × ε} (hi : step i s = .ok r) {k : κ} (hk : ¬foot i k) :
    cell r.1 k = cell s k := by
  obtain ⟨r', hr', -, hr⟩ := (h.follows fun _ _ => rfl).exists_ok hi
  obtain rfl := Except.ok.inj (hi.symm.trans hr')
  exact hr.outside k hk

/-- The order of a batch does not matter for what it combines to. -/
theorem combines_eq (h : Local step cell foot) (ht : Combines cell s res is t) (ht' : Combines cell s res is' t')
    (hmem : ∀ i, i ∈ is ↔ i ∈ is') : t = t' := by
  apply h.ext
  intro k
  by_cases hk : ∀ i ∈ is, cell (res i).1 k = cell s k
  · rw [ht.kept k hk, ht'.kept k fun i hi => hk i ((hmem i).2 hi)]
  · push Not at hk
    obtain ⟨i, hi, hne⟩ := hk
    rw [ht.changed k i hi hne, ht'.changed k i ((hmem i).1 hi) hne]

/-- The steps of an independent batch, in the order in which they stand. -/
theorem execute (h : Local step cell foot) (hstep : ∀ i ∈ is, step i s = .ok (res i))
    (hind : is.Pairwise (Independent cell foot s res)) :
    ∃ t, steps step is s = .ok (t, is.map fun i => (res i).2) ∧ Combines cell s res is t := by
  induction is generalizing s res with
  | nil => exact ⟨s, rfl, fun _ _ => rfl, nofun⟩
  | cons i is ih =>
    obtain ⟨hi, hrest⟩ := List.forall_mem_cons.1 hstep
    obtain ⟨hij, hind⟩ := List.pairwise_cons.1 hind
    -- the other steps are still possible after `i`
    have hafter := fun j hj => (h.follows (hij j hj).1).exists_ok (hrest j hj)
    have : Nonempty (σ × ε) := ⟨res i⟩
    choose! res' hres' hout hfollows using hafter
    -- and change no cell that they did not change before
    have hsame : ∀ j ∈ is, ∀ k, cell (res j).1 k = cell s k → cell (res' j).1 k = cell (res i).1 k := by
      intro j hj k hk
      by_cases hfoot : foot j k
      · rw [(hfollows j hj).inside k hfoot, hk, (hij j hj).1 k hfoot]
      · exact (hfollows j hj).outside k hfoot
    have hind' : is.Pairwise (Independent cell foot (res i).1 res') := by
      refine hind.imp_of_mem fun {j l} hj hl hjl => ⟨?_, ?_⟩
      · exact fun k hk => hsame j hj k (hjl.1 k hk)
      · exact fun k hk => hsame l hl k (hjl.2 k hk)
    obtain ⟨t, hsteps, ht⟩ := ih hres' hind'
    refine ⟨t, ?_, ?_, ?_⟩
    · rw [List.map_cons, ← List.map_congr_left hout]
      exact steps_cons hi hsteps
    · intro k hk
      obtain ⟨hki, hk⟩ := List.forall_mem_cons.1 hk
      rw [ht.kept k fun j hj => hsame j hj k (hk j hj), hki]
    · intro k j hj hne
      rcases List.mem_cons.1 hj with rfl | hj
      · exact ht.kept k fun l hl => (hfollows l hl).outside k fun hfoot => hne ((hij l hl).1 k hfoot)
      · -- a cell that `j` changes is in its footprint
        have hfoot : foot j k := by
          by_contra hno
          exact hne (h.frame (hrest j hj) hno)
        rw [← (hfollows j hj).inside k hfoot]
        refine ht.changed k j hj ?_
        rwa [(hfollows j hj).inside k hfoot, (hij j hj).1 k hfoot]

/-- Every order of an independent batch succeeds, with the outputs of the single steps, and leads to the same state,
the one that combines what the single steps change. -/
theorem any_order (h : Local step cell foot) (hstep : ∀ i ∈ is, step i s = .ok (res i))
    (hind : is.Pairwise (Independent cell foot s res)) :
    ∃ t, Combines cell s res is t ∧
      ∀ order : List ι, order.Perm is → steps step order s = .ok (t, order.map fun i => (res i).2) := by
  obtain ⟨t, -, ht⟩ := h.execute hstep hind
  refine ⟨t, ht, fun order hperm => ?_⟩
  obtain ⟨t', hsteps, ht'⟩ := h.execute (fun i hi => hstep i (hperm.mem_iff.1 hi))
    ((hperm.pairwise_iff fun hij => hij.symm).2 hind)
  rw [hsteps, h.combines_eq ht ht' fun i => hperm.mem_iff.symm]

end Local

end Footprint
