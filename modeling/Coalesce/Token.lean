import Coalesce.State

/-!
# The token ledger

The transfer of the SPL Token program on the accounts of a `TokenLedger`.  A transfer moves exactly its amount and
keeps every mint and owner; it fails on insufficient balance.  The overflow check that the token program makes on the
destination cannot fire, since both accounts are part of one supply, and it is left out.
-/

namespace Coalesce

namespace TokenLedger

open TokenError

/-- The accounts after `amount` moved from `src` to `dst`. -/
def moved (t : TokenLedger) (src dst : Address) (s d : TokenAccount) (amount : ℕ) :
    Finmap fun _ : Address => TokenAccount :=
  (t.accounts.insert src { s with amount := s.amount - amount }).insert dst { d with amount := d.amount + amount }

private theorem total_moved {t : TokenLedger} {src dst : Address} {s d : TokenAccount} {amount : ℕ}
    (hs : t.lookup src = some s) (hd : t.lookup dst = some d) (hne : src ≠ dst) (hmint : s.mint = d.mint)
    (hle : amount ≤ s.amount) (mint : Address) :
    (t.moved src dst s d amount).total (TokenAccount.amountOf mint) =
      t.accounts.total (TokenAccount.amountOf mint) := by
  have h1 := Finmap.total_insert (v := { s with amount := s.amount - amount }) hs (TokenAccount.amountOf mint)
  have hd' : (t.accounts.insert src { s with amount := s.amount - amount }).lookup dst = some d := by
    rw [Finmap.lookup_insert_of_ne _ hne.symm]; exact hd
  have h2 := Finmap.total_insert (v := { d with amount := d.amount + amount }) hd' (TokenAccount.amountOf mint)
  unfold moved
  simp only [TokenAccount.amountOf, hmint] at h1 h2 ⊢
  by_cases hm : d.mint = mint
  · simp only [hm, if_true] at h1 h2 ⊢; omega
  · simp only [hm, if_false] at h1 h2 ⊢; omega

/-- `Transfer { from: src, to: dst, authority, amount }`. -/
def transfer (t : TokenLedger) (src dst authority : Address) (amount : ℕ) : Result TokenLedger :=
  match hs : t.lookup src, hd : t.lookup dst with
  | some s, some d =>
    if hle : amount ≤ s.amount then
      if hmint : s.mint = d.mint then
        if s.owner = authority then
          if hne : src = dst then .ok t
          else .ok ⟨t.moved src dst s d amount, fun mint => by
            rw [total_moved hs hd hne hmint hle]; exact t.supply_le mint⟩
        else .error ownerMismatch
      else .error mintMismatch
    else .error insufficientFunds
  | _, _ => .error .invalidAccountData

/-- A new account without tokens. -/
def openAccount (t : TokenLedger) (a mint owner : Address) : Result TokenLedger :=
  if h : t.lookup a = none then
    .ok ⟨t.accounts.insert a { mint, owner, amount := 0 }, fun x => by
      rw [Finmap.total_insert_new h]
      simpa [TokenAccount.amountOf] using t.supply_le x⟩
  else .error .accountAlreadyInUse

theorem transfer_of_lookup {t : TokenLedger} {src dst authority : Address} {amount : ℕ} {s d : TokenAccount}
    (hs : t.lookup src = some s) (hd : t.lookup dst = some d) :
    t.transfer src dst authority amount =
      if hle : amount ≤ s.amount then
        if hmint : s.mint = d.mint then
          if s.owner = authority then
            if hne : src = dst then .ok t
            else .ok ⟨t.moved src dst s d amount, fun mint => by
              rw [total_moved hs hd hne hmint hle]; exact t.supply_le mint⟩
          else .error ownerMismatch
        else .error mintMismatch
      else .error insufficientFunds := by
  unfold transfer
  split
  · rename_i s' d' hs' hd'
    obtain rfl : s = s' := Option.some.inj (hs.symm.trans hs')
    obtain rfl : d = d' := Option.some.inj (hd.symm.trans hd')
    rfl
  · rename_i hno
    exact absurd hd (hno s d hs)

theorem transfer_of_none {t : TokenLedger} {src dst authority : Address} {amount : ℕ}
    (h : t.lookup src = none ∨ t.lookup dst = none) :
    t.transfer src dst authority amount = .error .invalidAccountData := by
  unfold transfer
  split
  · rename_i s d hs hd
    rcases h with h | h
    · cases h.symm.trans hs
    · cases h.symm.trans hd
  · rfl

/-! ### The effect of a transfer -/

theorem transfer_ok {t t' : TokenLedger} {src dst authority : Address} {amount : ℕ}
    (h : t.transfer src dst authority amount = .ok t') :
    ∃ s d, t.lookup src = some s ∧ t.lookup dst = some d ∧ amount ≤ s.amount ∧ s.mint = d.mint ∧
      s.owner = authority ∧ ((src = dst ∧ t' = t) ∨ (src ≠ dst ∧ t'.accounts = t.moved src dst s d amount)) := by
  unfold transfer at h
  split at h
  · rename_i s d hs hd
    by_cases hle : amount ≤ s.amount
    · by_cases hmint : s.mint = d.mint
      · by_cases howner : s.owner = authority
        · by_cases hsd : src = dst
          · simp only [hle, hmint, howner, hsd, dite_true, if_true, Except.ok.injEq] at h
            exact ⟨s, d, hs, hd, hle, hmint, howner, .inl ⟨hsd, h.symm⟩⟩
          · simp only [hle, hmint, howner, hsd, dite_true, dite_false, if_true, Except.ok.injEq] at h
            exact ⟨s, d, hs, hd, hle, hmint, howner, .inr ⟨hsd, by rw [← h]⟩⟩
        · simp [hle, hmint, howner] at h
      · simp [hle, hmint] at h
    · simp [hle] at h
  · cases h

theorem transfer_eq_ok {t : TokenLedger} {src dst authority : Address} {amount : ℕ} {s d : TokenAccount}
    (hs : t.lookup src = some s) (hd : t.lookup dst = some d) (hle : amount ≤ s.amount) (hmint : s.mint = d.mint)
    (howner : s.owner = authority) : ∃ t', t.transfer src dst authority amount = .ok t' := by
  unfold transfer
  split
  · rename_i s' d' hs' hd'
    obtain rfl : s = s' := Option.some.inj (hs.symm.trans hs')
    obtain rfl : d = d' := Option.some.inj (hd.symm.trans hd')
    rw [dif_pos hle, dif_pos hmint, if_pos howner]
    split <;> exact ⟨_, rfl⟩
  · rename_i hno
    exact absurd hd (hno s d hs)

/-- The token program has errors of its own. -/
theorem transfer_error {t : TokenLedger} {src dst authority : Address} {amount : ℕ} {e : LendingError} :
    t.transfer src dst authority amount ≠ .error (.custom e) := by
  unfold transfer
  split
  · split_ifs <;> nofun
  · nofun

theorem lookup_moved {t : TokenLedger} {src dst : Address} {s d : TokenAccount} {amount : ℕ} (a : Address) :
    (t.moved src dst s d amount).lookup a =
      if a = dst then some { d with amount := d.amount + amount }
      else if a = src then some { s with amount := s.amount - amount } else t.lookup a := by
  unfold moved
  by_cases hdst : a = dst
  · rw [if_pos hdst, hdst, Finmap.lookup_insert]
  · rw [if_neg hdst, Finmap.lookup_insert_of_ne _ hdst]
    by_cases hsrc : a = src
    · rw [if_pos hsrc, hsrc, Finmap.lookup_insert]
    · rw [if_neg hsrc, Finmap.lookup_insert_of_ne _ hsrc]
      rfl

/-- A transfer keeps the sum over all accounts of a mint. -/
theorem total_transfer {t t' : TokenLedger} {src dst authority : Address} {amount : ℕ}
    (h : t.transfer src dst authority amount = .ok t') (mint : Address) :
    t'.accounts.total (TokenAccount.amountOf mint) = t.accounts.total (TokenAccount.amountOf mint) := by
  obtain ⟨s, d, hs, hd, hle, hmint, -, ⟨-, rfl⟩ | ⟨hne, he⟩⟩ := transfer_ok h
  · rfl
  · rw [he]
    exact total_moved hs hd hne hmint hle mint

/-- The mint and the owner of an account. -/
def holder (t : TokenLedger) (a : Address) : Option (Address × Address) :=
  (t.lookup a).map fun x => (x.mint, x.owner)

theorem holder_transfer {t t' : TokenLedger} {src dst authority : Address} {amount : ℕ}
    (h : t.transfer src dst authority amount = .ok t') (a : Address) : t'.holder a = t.holder a := by
  rcases transfer_ok h with ⟨s, d, hs, hd, -, -, -, ⟨-, rfl⟩ | ⟨-, he⟩⟩
  · rfl
  · have hl : t'.lookup a = _ := (congrArg (·.lookup a) he).trans (lookup_moved a)
    unfold holder
    rw [hl]
    by_cases hdst : a = dst
    · rw [if_pos hdst, hdst, hd]
      rfl
    · by_cases hsrc : a = src
      · rw [if_neg hdst, if_pos hsrc, hsrc, hs]
        rfl
      · rw [if_neg hdst, if_neg hsrc]

theorem amount_transfer {t t' : TokenLedger} {src dst authority : Address} {n : ℕ}
    (h : t.transfer src dst authority n = .ok t') (a : Address) :
    n ≤ t.amount src ∧
      ((src = dst ∧ t'.amount a = t.amount a) ∨
        (src ≠ dst ∧ t'.amount a =
          if a = dst then t.amount a + n else if a = src then t.amount a - n else t.amount a)) := by
  rcases transfer_ok h with ⟨s, d, hs, hd, hle, -, -, ⟨hsd, rfl⟩ | ⟨hsd, he⟩⟩
  · exact ⟨by simpa [amount, hs] using hle, .inl ⟨hsd, rfl⟩⟩
  · refine ⟨by simpa [amount, hs] using hle, .inr ⟨hsd, ?_⟩⟩
    have hl : t'.lookup a = _ := (congrArg (·.lookup a) he).trans (lookup_moved a)
    unfold amount
    rw [hl]
    by_cases hdst : a = dst
    · simp [hdst, hd]
    · by_cases hsrc : a = src
      · simp [hsrc, hsd, hs]
      · simp [hdst, hsrc]

/-- An account that is not the source of a transfer does not lose tokens. -/
theorem amount_le_transfer {t t' : TokenLedger} {src dst authority : Address} {n : ℕ}
    (h : t.transfer src dst authority n = .ok t') {a : Address} (ha : a ≠ src) : t.amount a ≤ t'.amount a := by
  rcases amount_transfer h a with ⟨-, ⟨-, e⟩ | ⟨-, e⟩⟩
  · exact e.ge
  · rw [e, if_neg ha]
    by_cases hdst : a = dst
    · rw [if_pos hdst]
      omega
    · rw [if_neg hdst]

/-- Only the source of a transfer loses tokens. -/
theorem eq_src_of_lt {t t' : TokenLedger} {src dst authority : Address} {n : ℕ}
    (h : t.transfer src dst authority n = .ok t') {a : Address} (ha : t'.amount a < t.amount a) : a = src := by
  by_contra hne
  exact absurd ha (Nat.not_lt.2 (amount_le_transfer h hne))

/-- Only the destination of a transfer gains tokens. -/
theorem eq_dst_of_lt {t t' : TokenLedger} {src dst authority : Address} {n : ℕ}
    (h : t.transfer src dst authority n = .ok t') {a : Address} (ha : t.amount a < t'.amount a) : a = dst := by
  by_contra hne
  rcases amount_transfer h a with ⟨-, ⟨-, e⟩ | ⟨-, e⟩⟩
  · omega
  · rw [e, if_neg hne] at ha
    split at ha <;> omega

/-- `n` tokens left `src`, and no other account lost any. -/
structure Debited (t t' : TokenLedger) (src : Address) (n : ℕ) : Prop where
  le : n ≤ t.amount src
  amount : t'.amount src = t.amount src - n
  others : ∀ x, x ≠ src → t.amount x ≤ t'.amount x
  holder : ∀ x, t'.holder x = t.holder x

theorem Debited.zero (t : TokenLedger) (src : Address) : Debited t t src 0 :=
  ⟨Nat.zero_le _, rfl, fun _ _ => le_rfl, fun _ => rfl⟩

theorem debited_of_transfer {t t' : TokenLedger} {src dst authority : Address} {n : ℕ}
    (h : t.transfer src dst authority n = .ok t') (hne : dst ≠ src) : Debited t t' src n where
  le := (amount_transfer h src).1
  amount := by
    rcases amount_transfer h src with ⟨-, ⟨e, -⟩ | ⟨-, e⟩⟩
    · exact absurd e.symm hne
    · rw [e, if_neg hne.symm, if_pos rfl]
  others _ hx := amount_le_transfer h hx
  holder := holder_transfer h

/-- What the account `x` gets of a list of payments. -/
def received (payments : List (Address × ℕ)) (x : Address) : ℕ :=
  (payments.map fun p => if p.1 = x then p.2 else 0).sum

/-- `src` paid each account of the list the amount beside it.  All other amounts are as before. -/
structure PaidOut (t t' : TokenLedger) (src : Address) (payments : List (Address × ℕ)) : Prop where
  source : t'.amount src + (payments.map Prod.snd).sum = t.amount src
  credit : ∀ x, x ≠ src → t'.amount x = t.amount x + received payments x
  holder : ∀ x, t'.holder x = t.holder x

namespace PaidOut

variable {t t₁ t' : TokenLedger} {src dst authority : Address} {n : ℕ} {payment : Address × ℕ}
  {payments : List (Address × ℕ)}

theorem nil (t : TokenLedger) (src : Address) : t.PaidOut t src [] := ⟨rfl, fun _ _ => rfl, fun _ => rfl⟩

theorem cons (h : t.PaidOut t₁ src [payment]) (hrest : t₁.PaidOut t' src payments) :
    t.PaidOut t' src (payment :: payments) where
  source := by
    have hfirst := h.source
    have hothers := hrest.source
    simp only [List.map_cons, List.map_nil, List.sum_cons, List.sum_nil] at hfirst ⊢
    omega
  credit x hx := by
    rw [hrest.credit x hx, h.credit x hx]
    simp only [received, List.map_cons, List.map_nil, List.sum_cons, List.sum_nil]
    omega
  holder x := (hrest.holder x).trans (h.holder x)

/-- Nothing is paid. -/
theorem zero (t : TokenLedger) (src dst : Address) : t.PaidOut t src [(dst, 0)] where
  source := rfl
  credit x _ := by simp [received]
  holder _ := rfl

theorem of_transfer (h : t.transfer src dst authority n = .ok t') (hne : dst ≠ src) :
    t.PaidOut t' src [(dst, n)] where
  source := by
    rcases amount_transfer h src with ⟨hle, ⟨e, -⟩ | ⟨-, e⟩⟩
    · exact absurd e.symm hne
    · rw [e, if_neg hne.symm, if_pos rfl]
      simp only [List.map_cons, List.map_nil, List.sum_cons, List.sum_nil]
      omega
  credit x hx := by
    rcases amount_transfer h x with ⟨-, ⟨e, -⟩ | ⟨-, e⟩⟩
    · exact absurd e.symm hne
    · rw [e]
      by_cases hdst : x = dst
      · simp [received, hdst]
      · simp [received, hdst, hx, Ne.symm hdst]
  holder := holder_transfer h

theorem debited (h : t.PaidOut t' src [(dst, n)]) : t.Debited t' src n := by
  have hsource := h.source
  simp only [List.map_cons, List.map_nil, List.sum_cons, List.sum_nil] at hsource
  refine ⟨by omega, by omega, ?_, h.holder⟩
  intro x hx
  rw [h.credit x hx]
  exact Nat.le_add_right _ _

end PaidOut

theorem amount_eq {t : TokenLedger} {a : Address} {x : TokenAccount} (h : t.lookup a = some x) :
    t.amount a = x.amount := by
  simp [amount, h]

theorem amount_le_u64 (t : TokenLedger) (a : Address) : t.amount a ≤ u64Max := by
  unfold amount
  cases h : t.lookup a with
  | none => simp
  | some x =>
    have h1 := Finmap.le_total_nat (f := TokenAccount.amountOf x.mint) h
    have h2 := t.supply_le x.mint
    simp only [TokenAccount.amountOf, if_true] at h1
    simpa using h1.trans h2

theorem openAccount_ok {t t' : TokenLedger} {a mint owner : Address} (h : t.openAccount a mint owner = .ok t') :
    t.lookup a = none ∧ t'.accounts = t.accounts.insert a { mint, owner, amount := 0 } := by
  unfold openAccount at h
  by_cases hfree : t.lookup a = none
  · simp only [hfree, dite_true, Except.ok.injEq] at h
    exact ⟨hfree, by rw [← h]⟩
  · simp [hfree] at h

theorem total_openAccount {t t' : TokenLedger} {a mint owner : Address} (h : t.openAccount a mint owner = .ok t')
    (x : Address) : t'.accounts.total (TokenAccount.amountOf x) = t.accounts.total (TokenAccount.amountOf x) := by
  obtain ⟨hfree, he⟩ := openAccount_ok h
  rw [he, Finmap.total_insert_new hfree]
  simp [TokenAccount.amountOf]

end TokenLedger

end Coalesce
