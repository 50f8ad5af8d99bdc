import Coalesce.OneWay

/-!
# What a history says about a market

Counts and sums over the steps of a run: the exits and claims of a market, and those that serve one lender.
-/

namespace Coalesce

/-- The lender that an exit or a claim of the market `a` serves. -/
def Event.served (a : Address) : Event → Option Address
  | withdraw b l _ _ | forceClose b l _ _ | claimHaircut b l _ _ | forceClaimHaircut b l _ _ =>
    if b = a then some l else none
  | _ => none

/-- The lender and the units of an exit from the market `a`. -/
def Event.exited (a : Address) : Event → Option (Address × ℕ)
  | withdraw b l _ scaled | forceClose b l _ scaled => if b = a then some (l, scaled) else none
  | _ => none

/-- The lender whose exit or claim a step is. -/
def served (a : Address) (x : Record) : Option Address := x.event.bind (Event.served a)

/-- The number of exits and claims of a market. -/
def operations (a : Address) (hist : List Record) : ℕ := hist.countP fun x => (served a x).isSome

variable {a l : Address} {e : Event} {x : Record} {hist : List Record} {payout scaled claimed remaining : ℕ}

theorem Event.IsExit.served (h : e.IsExit a l payout scaled) : e.served a = some l := by
  rcases h with rfl | rfl <;> simp [Event.served]

theorem Event.IsExit.exited (h : e.IsExit a l payout scaled) : e.exited a = some (l, scaled) := by
  rcases h with rfl | rfl <;> simp [Event.exited]

theorem Event.IsClaim.served (h : e.IsClaim a l claimed remaining) : e.served a = some l := by
  rcases h with rfl | rfl <;> simp [Event.served]

theorem operations_cons : operations a (x :: hist) = operations a hist + if (served a x).isSome then 1 else 0 :=
  List.countP_cons

end Coalesce
