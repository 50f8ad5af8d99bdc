import Mathlib.Data.List.Basic
import Mathlib.Order.Basic

/-!
# Runs of a labelled transition system

States reachable from an initial state, and runs with their history.  A history lists the steps of a run, the newest
first, so that a quantity accumulated along a run is a recursion over its history.
-/

namespace Transition

variable {σ ε : Type*}

/-- One step of a run. -/
structure Record (σ ε : Type*) where
  pre : σ
  event : ε
  post : σ

inductive Reachable (init : σ → Prop) (step : σ → ε → σ → Prop) : σ → Prop
  | init {s : σ} (h : init s) : Reachable init step s
  | step {s s' : σ} {e : ε} (h : Reachable init step s) (hs : step s e s') : Reachable init step s'

/-- `Run step s hist s'`: the steps of `hist` lead from `s` to `s'`. -/
inductive Run (step : σ → ε → σ → Prop) (s : σ) : List (Record σ ε) → σ → Prop
  | nil : Run step s [] s
  | cons {hist : List (Record σ ε)} {s₁ s₂ : σ} {e : ε} (h : Run step s hist s₁) (hs : step s₁ e s₂) :
      Run step s (⟨s₁, e, s₂⟩ :: hist) s₂

variable {init : σ → Prop} {step : σ → ε → σ → Prop}

theorem Run.trans {s s₁ s₂ : σ} {h₁ h₂ : List (Record σ ε)} (r₁ : Run step s h₁ s₁) (r₂ : Run step s₁ h₂ s₂) :
    Run step s (h₂ ++ h₁) s₂ := by
  induction r₂ with
  | nil => exact r₁
  | cons _ hs ih => exact .cons ih hs

theorem Run.reachable {s s' : σ} {hist : List (Record σ ε)} (r : Run step s hist s')
    (h : Reachable init step s) : Reachable init step s' := by
  induction r with
  | nil => exact h
  | cons _ hs ih => exact .step ih hs

/-- Every entry of a history is a step from a reachable state. -/
theorem Run.step_of_mem {s s' : σ} {hist : List (Record σ ε)} (r : Run step s hist s') (h : Reachable init step s)
    {x : Record σ ε} (hx : x ∈ hist) : Reachable init step x.pre ∧ step x.pre x.event x.post := by
  induction r with
  | nil => cases hx
  | cons r hs ih =>
    rcases List.mem_cons.1 hx with rfl | hx
    · exact ⟨r.reachable h, hs⟩
    · exact ih hx

/-- An invariant of the reachable states; a step may use that its first state is reachable. -/
theorem Reachable.invariant {I : σ → Prop} (hinit : ∀ s, init s → I s)
    (hstep : ∀ s e s', Reachable init step s → I s → step s e s' → I s') {s : σ}
    (h : Reachable init step s) : I s := by
  induction h with
  | init h => exact hinit _ h
  | step h hs ih => exact hstep _ _ _ h ih hs

/-! ### Abstraction -/

variable {τ : Type*} {step' : τ → ε → τ → Prop}

/-- The step seen through an abstraction of the states. -/
def Record.map (f : σ → τ) (x : Record σ ε) : Record τ ε := ⟨f x.pre, x.event, f x.post⟩

/-- An abstraction that maps the steps of the reachable states to steps maps runs to runs. -/
theorem Run.map {f : σ → τ} (hstep : ∀ s e s', Reachable init step s → step s e s' → step' (f s) e (f s'))
    {s s' : σ} {hist : List (Record σ ε)} (h : Reachable init step s) (r : Run step s hist s') :
    Run step' (f s) (hist.map (Record.map f)) (f s') := by
  induction r with
  | nil => exact .nil
  | cons r hs ih => exact .cons ih (hstep _ _ _ (r.reachable h) hs)

/-- A measure that no step decreases. -/
theorem Run.monotone {α : Type*} [Preorder α] {f : σ → α} (hstep : ∀ s e s', step s e s' → f s ≤ f s') {s s' : σ}
    {hist : List (Record σ ε)} (r : Run step s hist s') : f s ≤ f s' := by
  induction r with
  | nil => exact le_rfl
  | cons _ hs ih => exact ih.trans (hstep _ _ _ hs)

end Transition
