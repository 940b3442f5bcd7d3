import Mathlib.Data.Nat.Notation
import Mathlib.Logic.Function.Basic

/-!
# A freezable currency

The freezes of the accounts for one reason, as a pallet sees them through
`MutateFreeze`: `setFreeze` records an amount for an account, in place of the one
recorded before, and `thaw` removes it; recording nothing removes it as well. Either
may fail, without change, for reasons of the currency's own (the predicate `accepts`,
which the environment may change at any time).
-/

namespace Xode

/-- The freezes of all accounts, for one reason. -/
structure Freezes (AccountId : Type) where
  /-- The amount recorded for an account, `0` if there is none. -/
  frozen : AccountId → ℕ
  /-- Whether recording an amount for an account succeeds. -/
  accepts : AccountId → ℕ → Bool

namespace Freezes

variable {AccountId : Type} [DecidableEq AccountId] (l : Freezes AccountId) (who : AccountId)
  (amount : ℕ)

/-- The frozen balance of `who`. -/
def balanceFrozen : ℕ := l.frozen who

/-- Recording `amount` for `who`. -/
def setFreeze : Option (Freezes AccountId) :=
  if l.accepts who amount then some { l with frozen := Function.update l.frozen who amount }
  else none

/-- Removing what is recorded for `who`. -/
def thaw : Option (Freezes AccountId) := l.setFreeze who 0

variable {l who amount} {l' : Freezes AccountId} {a : AccountId}

theorem setFreeze_eq_some (h : l.setFreeze who amount = some l') :
    l.accepts who amount ∧ l' = { l with frozen := Function.update l.frozen who amount } := by
  rw [setFreeze] at h
  split at h
  · next ha => exact ⟨ha, (Option.some.inj h).symm⟩
  · cases h

/-- Recording an amount changes the frozen balance of one account only. -/
theorem balanceFrozen_setFreeze (h : l.setFreeze who amount = some l') :
    l'.balanceFrozen a = if a = who then amount else l.balanceFrozen a := by
  obtain ⟨-, rfl⟩ := setFreeze_eq_some h
  by_cases ha : a = who <;> simp [balanceFrozen, ha]

theorem balanceFrozen_thaw (h : l.thaw who = some l') :
    l'.balanceFrozen a = if a = who then 0 else l.balanceFrozen a := balanceFrozen_setFreeze h

end Freezes

end Xode
