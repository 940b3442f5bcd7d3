import Xode.Frame.System
import Xode.Staking.Hooks

/-!
# The chain

The staking pallet in its runtime. `pallet_session` drives the pallet at the
session boundaries (`rotateSession`), and gives it the author of a block as an
index into the current validators (`findAuthor`); signed calls are dispatched
with their writes undone when they fail.

The chain steps on calls, on the start of blocks, on session rotations, and on
what other pallets do to the balances and the session keys, in any order
(`chain`). In the runtime, the rotation of a block, if there is one, comes after
the author of the block has been recorded and before its calls (`Block`).
-/

namespace Xode.Staking

variable {T : Config} {AccountId : Type} [DecidableEq AccountId]

/-! ### Session rotation -/

/-- The session ends, the queued validators become the current ones, and the
    pallet is asked for the validators of the session after the next. -/
def State.planSession (s : State T AccountId) : Option (List AccountId) × State T AccountId :=
  let s := s.endSession
  let s : State T AccountId :=
    { s with session := { s.session with validators := s.session.queued } }
  s.startSession.newSession

/-- `pallet_session`'s rotation: of the validators the pallet returns, those that
    have session keys are queued. -/
def State.rotateSession (s : State T AccountId) : State T AccountId :=
  let (next, s) := s.planSession
  -- Without session keys an account keeps its place in the pallet, and gets none here.
  let next := next.getD s.session.validators
  { s with session := { s.session with queued := next.filter s.session.hasKeys } }

/-- The account of the author index of a block (`FindAccountFromAuthorIndex`). -/
def State.findAuthor (s : State T AccountId) (index : Option ℕ) : Option AccountId :=
  index.bind fun i => s.session.validators[i]?

/-! ### Genesis -/

/-- The genesis configuration of the pallet. -/
structure GenesisConfig (AccountId : Type) where
  /-- Accounts that are validators from genesis onward. -/
  desiredCandidates : List AccountId

/-- The genesis build of the pallet, which fails on too many desired candidates. -/
def GenesisConfig.build (g : GenesisConfig AccountId) (s : State T AccountId) :
    Option (State T AccountId) :=
  (BoundedVec.tryFrom g.desiredCandidates).map fun bounded =>
    { s with
      desiredCandidates := bounded
      invulnerables := bounded
      waitingCandidates := bounded }

/-- The genesis of the chain: that of the pallet, the free balances, and the
    accounts with session keys. Nothing is reserved. -/
structure Genesis (T : Config) (AccountId : Type) where
  /-- The genesis of the pallet. -/
  staking : GenesisConfig AccountId
  /-- The free balances. -/
  balances : AccountId → ℕ
  balances_le : ∀ a, balances a ≤ T.maxBalance
  /-- What the currency grants reserves of. -/
  grants : AccountId → ℕ → Bool
  /-- The accounts with session keys. -/
  hasKeys : AccountId → Bool

/-- The storage before the genesis of the pallet. -/
def Genesis.storage (g : Genesis T AccountId) : State T AccountId where
  invulnerables := .empty
  desiredCandidates := .empty
  proposedCandidates := .empty
  waitingCandidates := .empty
  delegations := ∅
  actualAuthors := .empty
  events := []
  blockNumber := 0
  currency :=
    { account := fun a => { free := g.balances a, reserved := 0, total_le := g.balances_le a }
      grants := g.grants }
  session := { validators := [], queued := [], hasKeys := g.hasKeys }

/-- The genesis of `pallet_session`: the pallet is asked for the first
    validators, and again for the queued ones, of which those with keys are kept. -/
def State.sessionGenesis (s : State T AccountId) : State T AccountId :=
  let (initial₀, s) := s.newSession
  let (initial₁, s) := s.newSession
  { s with
    session :=
      { s.session with
        validators := initial₀.getD []
        queued := (initial₁.getD []).filter s.session.hasKeys } }

/-- The genesis state. The pallet is built before the session. -/
def Genesis.state (g : Genesis T AccountId) : Option (State T AccountId) :=
  (g.staking.build g.storage).map State.sessionGenesis

/-! ### Steps -/

/-- What the body of a block does: the calls of the pallet, and what other
    pallets do to the balances and to the session keys. -/
inductive Tx (AccountId : Type)
  | call (origin : RawOrigin AccountId) (call : Call AccountId)
  | deposit (who : AccountId) (value : ℕ)
  | withdraw (who : AccountId) (value : ℕ)
  | grants (grants : AccountId → ℕ → Bool)
  | sessionKeys (hasKeys : AccountId → Bool)

/-- The effect of a transaction. -/
def State.exec (s : State T AccountId) : Tx AccountId → State T AccountId
  | .call origin call => dispatch (call.code origin) s
  | .deposit who value => { s with currency := s.currency.deposit who value }
  | .withdraw who value => { s with currency := s.currency.withdraw who value }
  | .grants grants => { s with currency := { s.currency with grants } }
  | .sessionKeys hasKeys => { s with session := { s.session with hasKeys } }

/-- The steps of the chain: a transaction, the start of the next block, with the
    author index in its digest, and a session rotation. -/
inductive Step (AccountId : Type)
  | tx (tx : Tx AccountId)
  | block (index : Option ℕ)
  | rotate

/-- A signed call. -/
abbrev Step.signed (who : AccountId) (call : Call AccountId) : Step AccountId :=
  .tx (.call (.signed who) call)

/-- The start of the next block. -/
def State.startBlock (s : State T AccountId) (index : Option ℕ) : State T AccountId :=
  let s : State T AccountId := { s with blockNumber := s.blockNumber + 1, events := [] }
  s.onInitialize (s.findAuthor index)

/-- The state after a step. -/
def State.step (s : State T AccountId) : Step AccountId → State T AccountId
  | .tx tx => s.exec tx
  | .block index => s.startBlock index
  | .rotate => s.rotateSession

/-- The chain, from any genesis, under any steps in any order. -/
def chain (T : Config) (AccountId : Type) [DecidableEq AccountId] :
    System (State T AccountId) (Step AccountId) where
  init := {s | ∃ g : Genesis T AccountId, g.state = some s}
  step := State.step

section

variable {s : State T AccountId}

theorem chain_step_tx (tx : Tx AccountId) : (chain T AccountId).step s (.tx tx) = s.exec tx := rfl

theorem chain_step_block (index : Option ℕ) :
    (chain T AccountId).step s (.block index) = s.startBlock index := rfl

theorem chain_step_rotate : (chain T AccountId).step s .rotate = s.rotateSession := rfl

end

/-! ### Blocks -/

/-- A block: its author index, whether the session rotates in it, and its body. -/
structure Block (AccountId : Type) where
  /-- The author index in its digest. -/
  index : Option ℕ
  /-- Whether the session rotates in it. -/
  rotates : Bool
  /-- Its transactions. -/
  body : List (Tx AccountId)

/-- The steps of a block. -/
def Block.steps (b : Block AccountId) : List (Step AccountId) :=
  .block b.index :: (if b.rotates then [.rotate] else []) ++ b.body.map .tx

/-- The state after the first `n` of the blocks `b 1`, `b 2`, .... -/
def stateAt (s₀ : State T AccountId) (b : ℕ → Block AccountId) : ℕ → State T AccountId
  | 0 => s₀
  | n + 1 => (chain T AccountId).run (stateAt s₀ b n) (b (n + 1)).steps

/-- The author of block `n + 1`. -/
def authorAt (s₀ : State T AccountId) (b : ℕ → Block AccountId) : ℕ → Option AccountId
  | 0 => none
  | n + 1 => (stateAt s₀ b n).findAuthor (b (n + 1)).index

/-- `PeriodicSessions`: whether the session ends in the block `now`. -/
def shouldEndSession (period offset now : ℕ) : Bool :=
  decide (offset ≤ now ∧ (now - offset) % period = 0)

/-! ### The development chain -/

/-- The constants of this runtime. -/
def Config.runtime : Config where
  maxCandidates := 50
  maxDelegationsPerCandidate := 100
  minCandidateBond := 100 * 10 ^ 12
  maxStalingPeriod := 14 * (24 * 60 * 30)
  maxBalance := 2 ^ 128 - 1

/-- The accounts the development genesis endows. -/
inductive Keyring
  | alice
  | bob
  | aliceStash
  | bobStash
  deriving DecidableEq

/-- The development genesis: one desired candidate, with session keys. -/
def developmentConfigGenesis (T : Config) (hT : 2 ^ 60 ≤ T.maxBalance) : Genesis T Keyring where
  staking := { desiredCandidates := [.alice] }
  balances := fun _ => 2 ^ 60
  balances_le := fun _ => hT
  grants := fun _ _ => true
  hasKeys := fun a => a = .alice

theorem developmentConfigGenesis_isSome {T : Config} (hT : 2 ^ 60 ≤ T.maxBalance)
    (hc : 1 ≤ T.maxCandidates) : (developmentConfigGenesis T hT).state.isSome := by
  simp [Genesis.state, GenesisConfig.build, BoundedVec.tryFrom, developmentConfigGenesis, hc]

/-- The genesis state of a development chain. -/
def development (T : Config) (hT : 2 ^ 60 ≤ T.maxBalance) (hc : 1 ≤ T.maxCandidates) :
    State T Keyring :=
  (developmentConfigGenesis T hT).state.get (developmentConfigGenesis_isSome hT hc)

theorem endowment_le_runtime : 2 ^ 60 ≤ Config.runtime.maxBalance := by decide

/-- The genesis state of the development chain of this runtime. -/
def developmentState : State Config.runtime Keyring :=
  development Config.runtime (by decide) (by decide)

theorem development_eq {T : Config} {hT : 2 ^ 60 ≤ T.maxBalance} {hc : 1 ≤ T.maxCandidates} :
    (developmentConfigGenesis T hT).state = some (development T hT hc) := (Option.some_get _).symm

theorem development_mem {T : Config} {hT : 2 ^ 60 ≤ T.maxBalance} {hc : 1 ≤ T.maxCandidates} :
    development T hT hc ∈ (chain T Keyring).init := ⟨_, development_eq⟩

theorem developmentState_mem : developmentState ∈ (chain Config.runtime Keyring).init :=
  development_mem

end Xode.Staking
