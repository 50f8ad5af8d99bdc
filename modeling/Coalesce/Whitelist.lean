import Coalesce.Debt

/-!
# The whitelist flag of a borrower in debt

The flag is a byte.  Its consumers require it to be 1, but the guard on its updates only rejects 0: a borrower in
debt stays whitelisted as long as every update of its entry writes 0 or 1 (`debtors_whitelisted_iff`).
-/

namespace Coalesce

/-- A borrower in debt is whitelisted. -/
def World.DebtorsWhitelisted (w : World) : Prop :=
  ∀ b wl, w.whitelists.lookup b = some wl → 0 < wl.currentBorrowed → wl.isWhitelisted = 1

/-- If the step updates the entry of a borrower in debt, then to one of the two flags. -/
def WritesFlag (x : Record) : Prop :=
  ∀ b f wl, x.event = some (.setWhitelist b f) → x.pre.whitelists.lookup b = some wl → 0 < wl.currentBorrowed → f ≤ 1

section Steps

variable {w w' : World} {b : Address} {f : ℕ}

theorem Step.lists (hw : WellFormed w) (h : Step w (some (.setWhitelist b f)) w') : Lists w b f w' := by
  cases h with
  | instruction hsign hok =>
    cases processInstruction_effect hw hsign hok with
    | leaves _ _ hlists => exact absurd rfl hlists
    | lists _ hlists => exact hlists
    | accrues ha => cases ha.event
    | acts ha => cases ha.event

/-- An update of an entry with debt writes its flag and is not a removal. -/
theorem Lists.entry (h : Lists w b f w') {wl : BorrowerWhitelist} (hwl : w.whitelists.lookup b = some wl)
    (hdebt : 0 < wl.currentBorrowed) :
    f ≠ 0 ∧ ∃ wl', w'.whitelists.lookup b = some wl' ∧ wl'.isWhitelisted = f ∧ 0 < wl'.currentBorrowed := by
  obtain ⟨_, wl', hwl', hwls⟩ := h.whitelist
  rw [hwl] at hwl'
  obtain ⟨hguard, hflag, hcount⟩ := updatedWhitelist_some hwl'
  refine ⟨fun hf => hguard ⟨hf, hdebt⟩, wl', ?_, hflag, by rwa [hcount]⟩
  rw [hwls, Finmap.lookup_insert]

namespace World.DebtorsWhitelisted

/-- Writing one entry that is whitelisted if it is in debt. -/
private theorem insert (h : w.DebtorsWhitelisted) {wl : BorrowerWhitelist}
    (hwls : w'.whitelists = w.whitelists.insert b wl) (hwl : 0 < wl.currentBorrowed → wl.isWhitelisted = 1) :
    w'.DebtorsWhitelisted := by
  intro c wc hc
  rw [hwls] at hc
  rcases Finmap.lookup_of_insert hc with ⟨-, rfl⟩ | hc
  · exact hwl
  · exact h c wc hc

private theorem frame (h : w.DebtorsWhitelisted) (hwls : w'.whitelists = w.whitelists) : w'.DebtorsWhitelisted := by
  unfold World.DebtorsWhitelisted
  rw [hwls]
  exact h

theorem list (h : w.DebtorsWhitelisted) (hlists : Lists w b f w')
    (hflag : ∀ wl, w.whitelists.lookup b = some wl → 0 < wl.currentBorrowed → f ≤ 1) : w'.DebtorsWhitelisted := by
  obtain ⟨_, wl', hwl', hwls⟩ := hlists.whitelist
  apply h.insert hwls
  intro hdebt
  cases hb : w.whitelists.lookup b with
  | none => exact (updatedWhitelist_none (hb ▸ hwl')).1
  | some wl =>
    obtain ⟨hguard, hwritten, hcount⟩ := updatedWhitelist_some (hb ▸ hwl')
    have hle := hflag wl hb (hcount ▸ hdebt)
    omega

/-- Only an update of the whitelist can break the law: `borrow` requires the flag, the other instructions do not
write it. -/
theorem step (h : w.DebtorsWhitelisted) (hw : WellFormed w) {e : Option Event} (hs : Step w e w')
    (hflag : WritesFlag ⟨w, e, w'⟩) : w'.DebtorsWhitelisted := by
  cases hs with
  | instruction hsign hok =>
    cases processInstruction_effect hw hsign hok with
    | lists _ hlists => exact h.list hlists fun wl => hflag _ _ wl rfl
    | borrows _ hborrows =>
      obtain ⟨wl, hwl, hlisted, hwls⟩ := hborrows.whitelist
      exact h.insert hwls fun _ => hlisted
    | repays _ hrepays =>
      obtain ⟨_, _, wl, -, -, -, hwl, -, hwls⟩ := hrepays.whitelist
      exact h.insert hwls fun hdebt => h _ wl hwl (Nat.lt_of_lt_of_le hdebt (Nat.sub_le _ _))
    | leaves _ hwls | creates _ _ hwls | collects _ hwls | accrues _ hwls | acts _ hwls => exact h.frame hwls
  | clock | tokens | external => exact h

end World.DebtorsWhitelisted

end Steps

/-- Along a run every borrower in debt is whitelisted in every state, if and only if no step writes another byte than
0 or 1 into the entry of a borrower in debt. -/
theorem debtors_whitelisted_iff {w₀ w : World} {hist : List Record} (hg : Genesis w₀) (r : Run w₀ hist w) :
    (w₀.DebtorsWhitelisted ∧ ∀ x ∈ hist, x.post.DebtorsWhitelisted) ↔ ∀ x ∈ hist, WritesFlag x := by
  have hstart : w₀.DebtorsWhitelisted := by
    intro b wl hwl
    simp [hg.whitelists] at hwl
  rw [and_iff_right hstart]
  suffices H : ((∀ x ∈ hist, x.post.DebtorsWhitelisted) ↔ ∀ x ∈ hist, WritesFlag x) ∧
      ((∀ x ∈ hist, x.post.DebtorsWhitelisted) → w.DebtorsWhitelisted) from H.1
  induction r with
  | nil => exact ⟨by simp, fun _ => hstart⟩
  | cons r hs ih =>
    obtain ⟨hiff, hlast⟩ := ih
    have hw := Reachable.wellFormed (r.reachable (.init hg))
    rw [List.forall_mem_cons, List.forall_mem_cons]
    refine ⟨⟨?_, ?_⟩, fun h => h.1⟩
    · rintro ⟨hpost, hhist⟩
      refine ⟨?_, hiff.1 hhist⟩
      rintro b f wl rfl hwl hdebt
      obtain ⟨-, wl', hwl', rfl, hdebt'⟩ := (hs.lists hw).entry hwl hdebt
      exact (hpost b wl' hwl' hdebt').le
    · rintro ⟨hflag, hflags⟩
      have hhist := hiff.2 hflags
      exact ⟨(hlast hhist).step hw hs hflag, hhist⟩

/-- The flag that an update of the whitelist writes. -/
def Event.flag : Event → ℕ
  | setWhitelist _ flag => flag
  | _ => 0

namespace Sample

/-- An update of the borrower's entry with any byte. -/
def relist (flag : UInt8) : Action :=
  .instruction [account (.borrowerWhitelist borrower), config, signer admin, account borrower, other]
    (12 :: flag :: leBytes 8 WAD)

end Sample

/-- The borrower owes 9 when its entry is written with the flag 1 again. -/
theorem debtors_whitelisted_iff_relisted :
    ((Sample.genesis.performAll Sample.lent).performAll [Sample.relist 1]).DebtorsWhitelisted := by
  obtain ⟨hs, -⟩ := World.performAll_single
    (show ((Sample.genesis.performAll Sample.lent).perform (Sample.relist 1)).map Prod.snd =
      some (some (.setWhitelist Sample.borrower 1)) by decide +kernel)
  have hbytes : ∀ x ∈ Sample.genesis.history Sample.lent, ∀ b f, x.event = some (.setWhitelist b f) → f ≤ 1 := by
    have hall : (Sample.genesis.history Sample.lent).all (fun x => x.event.all fun e => decide (e.flag ≤ 1)) = true := by
      decide +kernel
    intro x hx b f he
    have hx' := List.all_eq_true.1 hall x hx
    rw [he] at hx'
    exact of_decide_eq_true hx'
  have hflags : ∀ x ∈ Sample.genesis.history Sample.lent, WritesFlag x := fun x hx b f _ he _ _ => hbytes x hx b f he
  have hflag : WritesFlag ⟨Sample.genesis.performAll Sample.lent, some (.setWhitelist Sample.borrower 1),
      (Sample.genesis.performAll Sample.lent).performAll [Sample.relist 1]⟩ := by
    rintro b f wl he - -
    cases he
    exact le_rfl
  have hrun := Transition.Run.cons (World.performAll_run Sample.genesis Sample.lent) hs
  obtain ⟨-, hposts⟩ := (debtors_whitelisted_iff Sample.genesis_initial hrun).2
    (List.forall_mem_cons.2 ⟨hflag, hflags⟩)
  exact hposts _ List.mem_cons_self

/-- The borrower owes 9 when its entry is written with the flag 2. -/
theorem debtors_whitelisted_fails_relisted :
    Reachable (Sample.genesis.performAll (Sample.lent ++ [Sample.relist 2])) ∧
      ∃ wl, (Sample.genesis.performAll (Sample.lent ++ [Sample.relist 2])).whitelists.lookup Sample.borrower = some wl ∧
        wl.currentBorrowed = 9 ∧ wl.isWhitelisted = 2 ∧
        ¬(Sample.genesis.performAll (Sample.lent ++ [Sample.relist 2])).DebtorsWhitelisted := by
  obtain ⟨wl, hwl, hx⟩ := Option.map_eq_some_iff.1
    (show ((Sample.genesis.performAll (Sample.lent ++ [Sample.relist 2])).whitelists.lookup Sample.borrower).map
      (fun wl => (wl.currentBorrowed, wl.isWhitelisted)) = some (9, 2) by decide +kernel)
  obtain ⟨hdebt, hflag⟩ := Prod.mk.inj hx
  refine ⟨World.performAll_reachable Sample.genesis_reachable _, wl, hwl, hdebt, hflag, ?_⟩
  intro h
  have hlisted := h _ wl hwl (by rw [hdebt]; decide)
  rw [hflag] at hlisted
  cases hlisted

end Coalesce
