import Xode.Frame.Dispatch
import Xode.Frame.Freezes
import Xode.Frame.StorageMap
import Xode.Frame.System

/-!
# The account freezer

The storage and the dispatchables of `pallet-xode-account-freezer`, which freezes the
native balance of accounts on the order of `FreezeOrigin`. It keeps a map of the
accounts it has frozen (`Frozen`) beside the freezes that the currency records for it.

Origins and account identifiers are left generic, as in the source, and so is what the
currency accepts. As in the chain, the writes of a failed call are undone.
-/

namespace Xode.Freezer

/-- The configuration of the pallet (`Config`), and the largest value of the balance
    type. -/
structure Config (Origin : Type) where
  /-- The origins allowed to freeze and thaw (`FreezeOrigin`). -/
  freezeOrigin : Origin → Bool
  /-- `Balance::max_value()`. -/
  maxBalance : ℕ
  maxBalance_pos : 0 < maxBalance

/-- The errors of the pallet. -/
inductive Error
  | alreadyFrozen
  | notFrozen
  | amountExceedsFrozen
  deriving DecidableEq

/-- The events of the pallet. -/
inductive Event (AccountId : Type)
  | accountFrozen (who : AccountId)
  | amountFrozen (who : AccountId) (amount : ℕ)
  | accountThawed (who : AccountId)
  | amountThawed (who : AccountId) (amount : ℕ)
  deriving DecidableEq

/-- The storage of the pallet, and the freezes of the currency for its reason. -/
structure State (AccountId : Type) where
  /-- The accounts frozen by this pallet. -/
  frozen : StorageMap AccountId Unit
  /-- The freezes recorded for the reason of this pallet. -/
  currency : Freezes AccountId
  /-- The events deposited. -/
  events : List (Event AccountId)

variable {Origin AccountId : Type} [DecidableEq AccountId]

/-- Code of the pallet. -/
abbrev CallM (AccountId : Type) := PalletM Error (State AccountId)

/-- Depositing an event. -/
def State.depositEvent (s : State AccountId) (e : Event AccountId) : State AccountId :=
  { s with events := s.events ++ [e] }

/-! ### The dispatchables -/

/-- The origin must be allowed to freeze. -/
def ensureOrigin (T : Config Origin) (origin : Origin) : CallM AccountId Unit :=
  if T.freezeOrigin origin then pure () else throw .badOrigin

/-- Recording a freeze. -/
def setFreeze (who : AccountId) (amount : ℕ) : CallM AccountId Unit := do
  let s ← get
  let currency ← okOr (s.currency.setFreeze who amount) .other
  modify fun s => { s with currency }

/-- Removing a freeze. -/
def thaw (who : AccountId) : CallM AccountId Unit := do
  let s ← get
  let currency ← okOr (s.currency.thaw who) .other
  modify fun s => { s with currency }

/-- What the two calls that freeze have in common: freezing `amount` of an account
    that is not frozen. -/
def freeze (T : Config Origin) (origin : Origin) (who : AccountId) (amount : ℕ)
    (event : Event AccountId) : CallM AccountId Unit := do
  ensureOrigin T origin
  let s ← get
  ensure (who ∉ s.frozen) .alreadyFrozen
  setFreeze who amount
  modify fun s => { s with frozen := s.frozen.insert who () }
  modify fun s => s.depositEvent event

/-- Freezing the whole balance of an account. -/
def freezeAccount (T : Config Origin) (origin : Origin) (who : AccountId) : CallM AccountId Unit :=
  freeze T origin who T.maxBalance (.accountFrozen who)

/-- Freezing an amount of the balance of an account. -/
def freezeAmount (T : Config Origin) (origin : Origin) (who : AccountId) (amount : ℕ) :
    CallM AccountId Unit :=
  freeze T origin who amount (.amountFrozen who amount)

/-- Lifting the freeze of an account. -/
def thawAccount (T : Config Origin) (origin : Origin) (who : AccountId) : CallM AccountId Unit := do
  ensureOrigin T origin
  let s ← get
  ensure (who ∈ s.frozen) .notFrozen
  thaw who
  modify fun s => { s with frozen := s.frozen.erase who }
  modify fun s => s.depositEvent (.accountThawed who)

/-- Releasing an amount from the freeze of an account, and lifting the freeze when
    nothing remains. -/
def thawAmount (T : Config Origin) (origin : Origin) (who : AccountId) (amount : ℕ) :
    CallM AccountId Unit := do
  ensureOrigin T origin
  let s ← get
  ensure (who ∈ s.frozen) .notFrozen
  let frozen := s.currency.balanceFrozen who
  ensure (amount ≤ frozen) .amountExceedsFrozen
  let remaining := frozen - amount
  if remaining = 0 then
    thaw who
    modify fun s => { s with frozen := s.frozen.erase who }
  else
    setFreeze who remaining
  modify fun s => s.depositEvent (.amountThawed who amount)

/-- The calls of the pallet. -/
inductive Call (AccountId : Type)
  | freezeAccount (who : AccountId)
  | freezeAmount (who : AccountId) (amount : ℕ)
  | thawAccount (who : AccountId)
  | thawAmount (who : AccountId) (amount : ℕ)
  deriving DecidableEq

/-- The code of a call. -/
def Call.code (T : Config Origin) (origin : Origin) : Call AccountId → CallM AccountId Unit
  | .freezeAccount who => Freezer.freezeAccount T origin who
  | .freezeAmount who amount => Freezer.freezeAmount T origin who amount
  | .thawAccount who => Freezer.thawAccount T origin who
  | .thawAmount who amount => Freezer.thawAmount T origin who amount

/-! ### The pallet in its chain -/

/-- The steps of the chain: a call of the pallet, and a change in what the currency
    accepts. -/
inductive Step (Origin AccountId : Type)
  | call (origin : Origin) (call : Call AccountId)
  | accepts (accepts : AccountId → ℕ → Bool)

/-- The state after a step. -/
def State.step (T : Config Origin) (s : State AccountId) :
    Step Origin AccountId → State AccountId
  | .call origin call => dispatch (call.code T origin) s
  | .accepts accepts => { s with currency := { s.currency with accepts } }

/-- The genesis state: nothing is frozen. -/
def State.genesis (accepts : AccountId → ℕ → Bool) : State AccountId where
  frozen := ∅
  currency := { frozen := fun _ => 0, accepts }
  events := []

/-- The chain, from genesis, under any calls in any order. -/
def chain (T : Config Origin) (AccountId : Type) [DecidableEq AccountId] :
    System (State AccountId) (Step Origin AccountId) where
  init := {s | ∃ accepts, s = State.genesis accepts}
  step := State.step T

/-- Freezing by root, as in the tests of the pallet. -/
def Config.rootOnly : Config (RawOrigin ℕ) where
  freezeOrigin origin := origin = .root
  maxBalance := 2 ^ 64 - 1
  maxBalance_pos := by decide

end Xode.Freezer
