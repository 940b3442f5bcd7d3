import Xode.Frame.BoundedVec
import Xode.Frame.Currency
import Xode.Frame.Dispatch
import Xode.Frame.StorageMap

/-!
# The staking pallet: types and storage

The data model of `pallet-xode-staking`: candidates and their place in the
validator-selection pipeline (`Status`), the delegations behind them, the
pallet's constants (`Config`), errors and events, and its storage, together
with what it reads and writes of other pallets (`State`): the block number of
`frame_system`, the reserves of the staking currency, and the validators of
`pallet_session`.

Account identifiers are left generic, as in the source. Balances and block
numbers are natural numbers; where the balance type saturates, so does the
model, at `Config.maxBalance`.
-/

namespace Xode.Staking

/-- The constants of the pallet (`Config`), and the largest value of the
    balance type. -/
structure Config where
  /-- The maximum number of candidates (and thus validators). -/
  maxCandidates : ℕ
  /-- The maximum number of delegations a single candidate can have. -/
  maxDelegationsPerCandidate : ℕ
  /-- The minimum non-zero bond. -/
  minCandidateBond : ℕ
  /-- How many blocks a validator may go without authoring. -/
  maxStalingPeriod : ℕ
  /-- `Balance::max_value()`. -/
  maxBalance : ℕ

/-- A candidate's place in the validator-selection pipeline. -/
inductive Status
  | offline
  | online
  | waiting
  | queuing
  | authoring
  deriving DecidableEq, Inhabited

/-- A registered validator candidate. -/
@[ext]
structure CandidateInfo (AccountId : Type) where
  who : AccountId
  bond : ℕ
  totalStake : ℕ
  lastUpdated : ℕ
  lastAuthored : ℕ
  leaving : Bool
  offline : Bool
  commission : UInt8
  status : Status
  deriving DecidableEq

/-- A delegator's stake behind one candidate. -/
@[ext]
structure Delegation (AccountId : Type) where
  delegator : AccountId
  stake : ℕ
  deriving DecidableEq

/-- The errors of the pallet. -/
inductive Error
  | candidateAlreadyExists
  | candidateMaxExceeded
  | candidateNotFound
  | invalidCommission
  | insufficientBalance
  | insufficientBond
  | stillOnline
  | stillWaiting
  | stillQueuing
  | stillAuthoring
  | delegationToSelfNotAllowed
  | delegationInsufficientBalance
  | candidateDoesNotExist
  | delegationNotFound
  | noDelegationsForCandidate
  | delegationsMaxExceeded
  | waitingCandidatesEmpty
  deriving DecidableEq

/-- The events of the pallet. -/
inductive Event (AccountId : Type)
  | candidateRegistered (who : AccountId)
  | candidateBonded (who : AccountId) (bond : ℕ)
  | candidateBondCorrected (who : AccountId)
  | candidateCommissionSet (who : AccountId) (commission : UInt8)
  | candidateWentOffline (who : AccountId)
  | candidateWentOnline (who : AccountId)
  | candidateLeft (who : AccountId)
  | delegationAdded (delegator candidate : AccountId) (stake : ℕ)
  | delegationRevoked (delegator candidate : AccountId)
  deriving DecidableEq

/-- The part of `pallet_session` the validator set lives in. -/
structure Session (AccountId : Type) where
  /-- The validators of the current session (`Validators`). -/
  validators : List AccountId
  /-- The validators of the next session (the accounts of `QueuedKeys`). -/
  queued : List AccountId
  /-- Whether an account has session keys (`NextKeys`). -/
  hasKeys : AccountId → Bool

variable {T : Config} {AccountId : Type}

/-- The delegations of one candidate. -/
abbrev DelegationList (T : Config) (AccountId : Type) :=
  BoundedVec (Delegation AccountId) T.maxDelegationsPerCandidate

/-- The storage of the pallet, and what it uses of other pallets. -/
structure State (T : Config) (AccountId : Type) where
  /-- The validator set, returned to `pallet_session` at each session boundary. -/
  invulnerables : BoundedVec AccountId T.maxCandidates
  /-- Accounts that are always kept in the waiting list and exempt from
      staleness slashing. -/
  desiredCandidates : BoundedVec AccountId T.maxCandidates
  /-- All registered candidates. -/
  proposedCandidates : BoundedVec (CandidateInfo AccountId) T.maxCandidates
  /-- Candidates lined up to become validators at the next session. -/
  waitingCandidates : BoundedVec AccountId T.maxCandidates
  /-- Delegated stakes per candidate. -/
  delegations : StorageMap AccountId (DelegationList T AccountId)
  /-- Validators that have authored in the current session. -/
  actualAuthors : BoundedVec AccountId T.maxCandidates
  /-- The events deposited in the current block. -/
  events : List (Event AccountId)
  /-- `frame_system`'s block number. -/
  blockNumber : ℕ
  /-- The staking currency. -/
  currency : Ledger AccountId T.maxBalance
  /-- `pallet_session`. -/
  session : Session AccountId

/-- Addition of balances, saturating at the largest one. -/
def satAdd (T : Config) (a b : ℕ) : ℕ := min (a + b) T.maxBalance

/-- What a candidate is ranked by. -/
def CandidateInfo.combined (T : Config) (c : CandidateInfo AccountId) : ℕ :=
  satAdd T c.bond c.totalStake

/-- A candidate that may take a slot: bonded, not leaving, and not offline. -/
def CandidateInfo.Eligible (c : CandidateInfo AccountId) : Prop :=
  c.bond ≠ 0 ∧ c.leaving = false ∧ c.offline = false

instance (c : CandidateInfo AccountId) : Decidable c.Eligible :=
  inferInstanceAs (Decidable (_ ∧ _ ∧ _))

/-- The saturating sum of the stakes of some delegations. -/
def sumStakes (T : Config) (ds : List (Delegation AccountId)) : ℕ :=
  ds.foldl (fun acc d => satAdd T acc d.stake) 0

/-- The account of a validator of `pallet_session`. The source round-trips it
    through its encoding; in this runtime the two types of identifiers are one. -/
def validatorToAccount (validator : AccountId) : AccountId := validator

namespace State

variable (s : State T AccountId)

/-- The accounts of `pallet_session`'s validators. -/
def currentValidators : List AccountId := s.session.validators.map validatorToAccount

@[simp] theorem currentValidators_eq : s.currentValidators = s.session.validators :=
  List.map_id _

variable [DecidableEq AccountId] (who candidate delegator : AccountId)

/-- The record of a registered candidate. -/
def candidate? : Option (CandidateInfo AccountId) :=
  findKey CandidateInfo.who who s.proposedCandidates.toList

/-- The delegations behind a candidate. -/
def delegationsOf : List (Delegation AccountId) :=
  ((s.delegations.lookup candidate).map (·.toList)).getD []

/-- Whether an account is a validator of the current session. -/
def isCurrentValidator : Bool := decide (who ∈ s.currentValidators)

/-- Rewriting the record of `who`, if there is one. -/
def updateCandidate (f : CandidateInfo AccountId → CandidateInfo AccountId) : State T AccountId :=
  { s with proposedCandidates := s.proposedCandidates.updateKey CandidateInfo.who who f }

/-- Taking an account off the waiting list. -/
def removeFromWaiting : State T AccountId :=
  { s with waitingCandidates := s.waitingCandidates.retain (· ≠ who) }

/-- Setting the status of a candidate. -/
def setStatus (status : Status) : State T AccountId :=
  s.updateCandidate who fun c => { c with status }

/-- Depositing an event. -/
def depositEvent (e : Event AccountId) : State T AccountId := { s with events := s.events ++ [e] }

end State

/-- The ranking order: non-offline candidates first, then the highest
    `bond + total_stake`, then whoever was updated longest ago. -/
def rankCmp (T : Config) (a b : CandidateInfo AccountId) : Ordering :=
  (compare a.offline b.offline).then <|
    (compare (b.combined T) (a.combined T)).then (compare a.lastUpdated b.lastUpdated)

/-- Sorting the candidates by rank. -/
def State.sortProposedCandidates (s : State T AccountId) : State T AccountId :=
  { s with proposedCandidates := s.proposedCandidates.sortBy (rankCmp T) }

end Xode.Staking
