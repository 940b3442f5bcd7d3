import Mathlib.Data.Nat.Notation
import Mathlib.Logic.Function.Basic

/-!
# A reservable currency

The balances of the accounts as a pallet sees them through
`ReservableCurrency`: each account holds a free and a reserved balance, whose
sum is a value of the balance type. `reserve` moves an amount from free to
reserved or fails without change; `unreserve` moves back as much of an amount
as is reserved, and returns the rest.

Free balances also move for reasons a pallet knows nothing about (transfers,
fees, rewards), and locks, freezes and reference counts may refuse a reserve
that the free balance would allow. The first are `deposit` and `withdraw`, the
second the predicate `grants`, which the environment may change at any time.
-/

namespace Xode

/-- The balances of an account, in a balance type with largest value `max`. -/
@[ext]
structure Account (max : ℕ) where
  /-- The free balance. -/
  free : ℕ
  /-- The reserved balance. -/
  reserved : ℕ
  total_le : free + reserved ≤ max
  deriving DecidableEq

/-- The balances of all accounts. -/
structure Ledger (AccountId : Type) (max : ℕ) where
  /-- The balances of an account. -/
  account : AccountId → Account max
  /-- Whether nothing but the free balance stands against reserving an amount. -/
  grants : AccountId → ℕ → Bool

namespace Ledger

variable {AccountId : Type} [DecidableEq AccountId] {max : ℕ} (l : Ledger AccountId max)
  (who : AccountId) (value : ℕ)

/-- The free balance of `who`. -/
def freeBalance : ℕ := (l.account who).free

/-- The reserved balance of `who`. -/
def reservedBalance : ℕ := (l.account who).reserved

/-- Replacing the balances of `who`. -/
def setAccount (a : Account max) : Ledger AccountId max :=
  { l with account := Function.update l.account who a }

/-- Moving `value` from the free to the reserved balance of `who`; reserving
    nothing always succeeds. -/
def reserve : Option (Ledger AccountId max) :=
  if value = 0 then some l
  else if h : value ≤ l.freeBalance who ∧ l.grants who value then
    some <| l.setAccount who
      { free := l.freeBalance who - value
        reserved := l.reservedBalance who + value
        total_le := by
          have := (l.account who).total_le
          simp only [freeBalance, reservedBalance] at *
          omega }
  else none

/-- Moving `value`, or all there is if less, from the reserved to the free
    balance of `who`; returns what could not be moved. -/
def unreserve : Ledger AccountId max × ℕ :=
  let actual := min (l.reservedBalance who) value
  (l.setAccount who
    { free := l.freeBalance who + actual
      reserved := l.reservedBalance who - actual
      total_le := by
        have := (l.account who).total_le
        simp only [freeBalance, reservedBalance, actual] at *
        omega },
    value - actual)

/-- Paying `value` into the free balance of `who`, if the balance type holds it. -/
def deposit : Ledger AccountId max :=
  if h : (l.account who).free + (l.account who).reserved + value ≤ max then
    l.setAccount who ⟨l.freeBalance who + value, l.reservedBalance who, by
      simp only [freeBalance, reservedBalance]; omega⟩
  else l

/-- Paying `value`, or all there is if less, out of the free balance of `who`. -/
def withdraw : Ledger AccountId max :=
  l.setAccount who ⟨l.freeBalance who - value, l.reservedBalance who, by
    have := (l.account who).total_le; simp only [freeBalance, reservedBalance]; omega⟩

variable {l who value} {a : AccountId}

theorem freeBalance_setAccount {b : Account max} :
    (l.setAccount who b).freeBalance a = if a = who then b.free else l.freeBalance a := by
  by_cases h : a = who <;> simp [freeBalance, setAccount, h]

theorem reservedBalance_setAccount {b : Account max} :
    (l.setAccount who b).reservedBalance a =
      if a = who then b.reserved else l.reservedBalance a := by
  by_cases h : a = who <;> simp [reservedBalance, setAccount, h]

/-- Reserving and unreserving touch the balances of one account only. -/
theorem account_setAccount_of_ne {b : Account max} (h : a ≠ who) :
    (l.setAccount who b).account a = l.account a := Function.update_of_ne h _ _

omit [DecidableEq AccountId] in
theorem eq_of_account {l' : Ledger AccountId max} (h : ∀ a, l.account a = l'.account a)
    (hg : l.grants = l'.grants) : l = l' := by
  obtain ⟨_, _⟩ := l
  obtain ⟨_, _⟩ := l'
  obtain rfl := funext h
  obtain rfl := hg
  rfl

theorem grants_reserve {l' : Ledger AccountId max} (h : l.reserve who value = some l') :
    l'.grants = l.grants := by
  rw [reserve] at h
  split at h
  · rw [Option.some.inj h]
  · split at h
    · rw [← Option.some.inj h]
      rfl
    · cases h

theorem account_reserve_of_ne {l' : Ledger AccountId max} (h : l.reserve who value = some l')
    (ha : a ≠ who) : l'.account a = l.account a := by
  rw [reserve] at h
  split at h
  · cases h; rfl
  · split at h <;> cases h
    exact account_setAccount_of_ne ha

theorem account_unreserve_of_ne (ha : a ≠ who) :
    (l.unreserve who value).1.account a = l.account a := account_setAccount_of_ne ha

omit [DecidableEq AccountId] in
/-- Free and reserved balance together fit the balance type. -/
theorem total_le (l : Ledger AccountId max) (a : AccountId) :
    l.freeBalance a + l.reservedBalance a ≤ max := (l.account a).total_le

/-- What a successful `reserve` did. -/
theorem reserve_eq_some {l' : Ledger AccountId max} (h : l.reserve who value = some l') :
    value ≤ l.freeBalance who ∧
      (∀ a, l'.reservedBalance a = l.reservedBalance a + if a = who then value else 0) ∧
      (∀ a, l'.freeBalance a = l.freeBalance a - if a = who then value else 0) := by
  rw [reserve] at h
  split at h
  · next h0 => cases h; simp [h0]
  split at h
  · next hv =>
    cases h
    refine ⟨hv.1, fun a => ?_, fun a => ?_⟩
    · rw [reservedBalance_setAccount]; split <;> simp_all
    · rw [freeBalance_setAccount]; split <;> simp_all
  · simp at h

theorem unreserve_zero : l.unreserve who 0 = (l, 0) := by
  have h : Function.update l.account who (l.account who) = l.account := Function.update_eq_self _ _
  simp only [unreserve, setAccount, Nat.min_zero, Nat.add_zero, Nat.sub_zero]
  exact congrArg (fun x => ({ l with account := x }, 0)) h

/-- What `unreserve` leaves reserved. -/
theorem reservedBalance_unreserve :
    (l.unreserve who value).1.reservedBalance a =
      l.reservedBalance a - if a = who then value else 0 := by
  rw [unreserve, reservedBalance_setAccount]
  split
  · next h => subst h; simp only; omega
  · simp

/-- What `unreserve` frees. -/
theorem freeBalance_unreserve :
    (l.unreserve who value).1.freeBalance a =
      l.freeBalance a + if a = who then min (l.reservedBalance who) value else 0 := by
  rw [unreserve, freeBalance_setAccount]
  split
  · next h => rw [h]
  · rfl

/-- Reserving and unreserving move nothing between accounts, and nothing in or out. -/
theorem total_reserve {l' : Ledger AccountId max} (h : l.reserve who value = some l') :
    l'.freeBalance a + l'.reservedBalance a = l.freeBalance a + l.reservedBalance a := by
  obtain ⟨hle, hreserved, hfree⟩ := reserve_eq_some h
  rw [hreserved, hfree]
  split
  · next ha => subst ha; omega
  · rfl

theorem total_unreserve :
    (l.unreserve who value).1.freeBalance a + (l.unreserve who value).1.reservedBalance a =
      l.freeBalance a + l.reservedBalance a := by
  rw [freeBalance_unreserve, reservedBalance_unreserve]
  split
  · next ha => subst ha; omega
  · rfl

/-- What reserving and unreserving make of an account depends on its balances only. -/
theorem account_reserve_congr {l' m m' : Ledger AccountId max} (hl : l.reserve who value = some l')
    (hm : m.reserve who value = some m') (h : l.account who = m.account who) :
    l'.account who = m'.account who := by
  obtain ⟨-, hlr, hlf⟩ := reserve_eq_some hl
  obtain ⟨-, hmr, hmf⟩ := reserve_eq_some hm
  have hfree : l.freeBalance who = m.freeBalance who := congrArg Account.free h
  have hreserved : l.reservedBalance who = m.reservedBalance who := congrArg Account.reserved h
  refine Account.ext ?_ ?_
  · exact (hlf who).trans (hfree ▸ (hmf who).symm)
  · exact (hlr who).trans (hreserved ▸ (hmr who).symm)

theorem account_unreserve_congr {m : Ledger AccountId max} (h : l.account who = m.account who) :
    (l.unreserve who value).1.account who = (m.unreserve who value).1.account who := by
  have hfree : l.freeBalance who = m.freeBalance who := congrArg Account.free h
  have hreserved : l.reservedBalance who = m.reservedBalance who := congrArg Account.reserved h
  refine Account.ext ?_ ?_
  · exact freeBalance_unreserve.trans (by rw [hfree, hreserved]; exact freeBalance_unreserve.symm)
  · exact reservedBalance_unreserve.trans
      (by rw [hreserved]; exact reservedBalance_unreserve.symm)

/-- `unreserve` returns nothing exactly when it moves the whole amount. -/
theorem unreserve_eq_zero : (l.unreserve who value).2 = 0 ↔ value ≤ l.reservedBalance who := by
  simp only [unreserve]; omega

theorem reservedBalance_deposit :
    (l.deposit who value).reservedBalance a = l.reservedBalance a := by
  rw [deposit]
  split
  · rw [reservedBalance_setAccount]; split <;> simp_all
  · rfl

theorem freeBalance_deposit :
    (l.deposit who value).freeBalance a = l.freeBalance a +
      if a = who ∧ l.freeBalance a + l.reservedBalance a + value ≤ max then value else 0 := by
  rw [deposit]
  by_cases ha : a = who
  · subst ha
    split
    · next h => rw [freeBalance_setAccount, if_pos rfl, if_pos ⟨rfl, h⟩]
    · next h => rw [if_neg fun h' => h h'.2, Nat.add_zero]
  · rw [if_neg fun h => ha h.1, Nat.add_zero]
    split
    · rw [freeBalance_setAccount, if_neg ha]
    · rfl

theorem freeBalance_withdraw :
    (l.withdraw who value).freeBalance a = l.freeBalance a - if a = who then value else 0 := by
  rw [withdraw, freeBalance_setAccount]
  split
  · next ha => rw [ha]
  · rfl

theorem reservedBalance_withdraw :
    (l.withdraw who value).reservedBalance a = l.reservedBalance a := by
  rw [withdraw, reservedBalance_setAccount]; split <;> simp_all

/-- What comes in and goes out depends on the balances of the account only, too. -/
theorem account_deposit_congr {m : Ledger AccountId max} (h : l.account a = m.account a) :
    (l.deposit who value).account a = (m.deposit who value).account a := by
  have hfree : l.freeBalance a = m.freeBalance a := congrArg Account.free h
  have hreserved : l.reservedBalance a = m.reservedBalance a := congrArg Account.reserved h
  refine Account.ext ?_ ?_
  · exact freeBalance_deposit.trans (by rw [hfree, hreserved]; exact freeBalance_deposit.symm)
  · exact reservedBalance_deposit.trans (hreserved.trans reservedBalance_deposit.symm)

theorem account_withdraw_congr {m : Ledger AccountId max} (h : l.account a = m.account a) :
    (l.withdraw who value).account a = (m.withdraw who value).account a := by
  have hfree : l.freeBalance a = m.freeBalance a := congrArg Account.free h
  have hreserved : l.reservedBalance a = m.reservedBalance a := congrArg Account.reserved h
  refine Account.ext ?_ ?_
  · exact freeBalance_withdraw.trans (by rw [hfree]; exact freeBalance_withdraw.symm)
  · exact reservedBalance_withdraw.trans (hreserved.trans reservedBalance_withdraw.symm)

end Ledger

end Xode
