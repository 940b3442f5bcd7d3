import Xode.Staking.Basic

/-!
# The dispatchables of the staking pallet

The nine calls of the pallet, as the source writes them: the checks and the
writes in their order, each write in storage as soon as it is made. A failed
call may thus leave writes behind, which its dispatcher undoes.
-/

namespace Xode.Staking

variable {T : Config} {AccountId : Type} [DecidableEq AccountId]

/-- Code of the pallet. -/
abbrev CallM (T : Config) (AccountId : Type) := PalletM Error (State T AccountId)

/-- Reserving `value` of the free balance of `who`. -/
def reserve (who : AccountId) (value : ℕ) : CallM T AccountId Unit := do
  let s ← get
  let currency ← okOr (s.currency.reserve who value) .other
  modify fun s => { s with currency }

/-- Unreserving `value`; what could not be unreserved is ignored. -/
def unreserve (who : AccountId) (value : ℕ) : CallM T AccountId Unit :=
  modify fun s => { s with currency := (s.currency.unreserve who value).1 }

/-- The record of a candidate, which must be registered. -/
def findCandidate (who : AccountId) : CallM T AccountId (CandidateInfo AccountId) := do
  let s ← get
  okOr (s.candidate? who) (.module .candidateNotFound)

/-- The account must be neither waiting, nor queued, nor a current validator. -/
def ensureOutOfPipeline (who : AccountId) : CallM T AccountId Unit := do
  let s ← get
  ensure (who ∉ s.waitingCandidates) .stillWaiting
  ensure (who ∉ s.invulnerables) .stillQueuing
  ensure (¬s.isCurrentValidator who) .stillAuthoring

/-- Recomputing the recorded stake of a candidate from its delegations. -/
def recomputeTotalStake (candidate : AccountId) : CallM T AccountId Unit := do
  let s ← get
  let totalStake := ((s.delegations.lookup candidate).map fun ds => sumStakes T ds.toList).getD 0
  let _ ← findCandidate candidate
  modify fun s => s.updateCandidate candidate fun c =>
    { c with totalStake, lastUpdated := s.blockNumber }
  modify fun s => s.sortProposedCandidates

/-! ### Candidates -/

/-- Registering the caller as a candidate, unbonded and un-staked. -/
def registerCandidate (origin : RawOrigin AccountId) : CallM T AccountId Unit := do
  let who ← ensureSigned origin
  let s ← get
  ensure (¬∃ c ∈ s.proposedCandidates.toList, c.who = who) .candidateAlreadyExists
  let now := s.blockNumber
  let info : CandidateInfo AccountId :=
    { who, bond := 0, totalStake := 0, lastUpdated := now, lastAuthored := now, leaving := false,
      offline := false, commission := 0, status := .online }
  -- The record goes to the end of the list, which is not sorted.
  let candidates ← okOr (s.proposedCandidates.tryPush info) (.module .candidateMaxExceeded)
  modify fun s => { s with proposedCandidates := candidates }
  modify fun s => s.depositEvent (.candidateRegistered who)

/-- What `bond_candidate` requires of the new bond: a zero bond, that the caller
    is out of the pipeline; any other, that it reaches the minimum. -/
def ensureBondAllowed (who : AccountId) (newBond : ℕ) : CallM T AccountId Unit :=
  if newBond = 0 then ensureOutOfPipeline who
  else ensure (T.minCandidateBond ≤ newBond) .insufficientBond

/-- Reserving or unreserving the difference between the bond and the new bond. -/
def moveBond (who : AccountId) (bond newBond : ℕ) : CallM T AccountId Unit :=
  if bond < newBond then do
    let s ← get
    let diff := newBond - bond
    ensure (diff ≤ s.currency.freeBalance who) .insufficientBalance
    reserve who diff
  else if newBond < bond then unreserve who (bond - newBond)
  else pure ()

/-- Setting the bond of the caller. -/
def bondCandidate (origin : RawOrigin AccountId) (newBond : ℕ) : CallM T AccountId Unit := do
  let who ← ensureSigned origin
  ensureBondAllowed who newBond
  let candidate ← findCandidate who
  moveBond who candidate.bond newBond
  modify fun s => s.updateCandidate who fun c =>
    { c with bond := newBond, lastUpdated := s.blockNumber }
  modify fun s => s.sortProposedCandidates
  modify fun s => s.depositEvent (.candidateBonded who newBond)

/-- Setting the commission (1-100) of the caller. -/
def setCommissionOfCandidate (origin : RawOrigin AccountId) (commission : UInt8) :
    CallM T AccountId Unit := do
  let who ← ensureSigned origin
  ensure (1 ≤ commission ∧ commission ≤ 100) .invalidCommission
  let _ ← findCandidate who
  modify fun s => s.updateCandidate who fun c =>
    { c with commission, lastUpdated := s.blockNumber }
  modify fun s => s.depositEvent (.candidateCommissionSet who commission)

/-! ### Delegations -/

/-- Adding `amount` to the delegation of `who`, making one if there is none. -/
def addDelegation (who : AccountId) (amount : ℕ) (ds : DelegationList T AccountId) :
    Option (DelegationList T AccountId) :=
  if ∃ d ∈ ds.toList, d.delegator = who then
    some <| ds.updateKey Delegation.delegator who fun d =>
      { d with stake := satAdd T d.stake amount }
  else ds.tryPush { delegator := who, stake := amount }

/-- Delegating `amount` behind `candidate`. -/
def stakeCandidate (origin : RawOrigin AccountId) (candidate : AccountId) (amount : ℕ) :
    CallM T AccountId Unit := do
  let who ← ensureSigned origin
  ensure (who ≠ candidate) .delegationToSelfNotAllowed
  let s ← get
  ensure (∃ c ∈ s.proposedCandidates.toList, c.who = candidate) .candidateDoesNotExist
  ensure (amount ≤ s.currency.freeBalance who) .delegationInsufficientBalance
  reserve who amount
  let s ← get
  -- A candidate nobody has delegated behind has no list yet.
  let delegations ← okOr (addDelegation who amount ((s.delegations.lookup candidate).getD .empty))
    (.module .delegationsMaxExceeded)
  modify fun s => { s with delegations := s.delegations.insert candidate delegations }
  recomputeTotalStake candidate
  modify fun s => s.depositEvent (.delegationAdded who candidate amount)

/-- Withdrawing the delegation of the caller behind `candidate`. -/
def unstakeCandidate (origin : RawOrigin AccountId) (candidate : AccountId) :
    CallM T AccountId Unit := do
  let who ← ensureSigned origin
  let s ← get
  let delegations ← okOr (s.delegations.lookup candidate) (.module .noDelegationsForCandidate)
  let position ← okOr (delegations.toList.findFinIdx? fun d => d.delegator = who)
    (.module .delegationNotFound)
  let stakeAmount := (delegations.toList.get position).stake
  let delegations := delegations.remove position
  -- An emptied list is removed.
  modify fun s =>
    { s with
      delegations :=
        if delegations.toList.isEmpty then s.delegations.erase candidate
        else s.delegations.insert candidate delegations }
  unreserve who stakeAmount
  -- This fails when the candidate has lost its record since.
  recomputeTotalStake candidate
  modify fun s => s.depositEvent (.delegationRevoked who candidate)

/-! ### Stepping down, and out -/

/-- Setting the offline flag of a candidate. -/
def setOffline (who : AccountId) (offline : Bool) : CallM T AccountId Unit := do
  let _ ← findCandidate who
  modify fun s => s.updateCandidate who fun c =>
    { c with offline, lastUpdated := s.blockNumber }

/-- Stepping down, without un-bonding or un-staking. -/
def offlineCandidate (origin : RawOrigin AccountId) : CallM T AccountId Unit := do
  let who ← ensureSigned origin
  setOffline who true
  modify fun s => s.sortProposedCandidates
  modify fun s => s.depositEvent (.candidateWentOffline who)

/-- Coming back online. -/
def onlineCandidate (origin : RawOrigin AccountId) : CallM T AccountId Unit := do
  let who ← ensureSigned origin
  setOffline who false
  modify fun s => s.sortProposedCandidates
  modify fun s => s.depositEvent (.candidateWentOnline who)

/-- Leaving candidacy for good, when offline and out of the pipeline. -/
def leaveCandidate (origin : RawOrigin AccountId) : CallM T AccountId Unit := do
  let who ← ensureSigned origin
  let candidate ← findCandidate who
  ensure candidate.offline .stillOnline
  ensureOutOfPipeline who
  modify fun s => s.updateCandidate who fun c =>
    { c with leaving := true, lastUpdated := s.blockNumber }
  modify fun s => s.removeFromWaiting who
  modify fun s => s.depositEvent (.candidateLeft who)

/-- Unreserving `frozenBalance` of an offline candidate out of the pipeline, and
    zeroing its bond. -/
def bondCorrection (origin : RawOrigin AccountId) (frozenBalance : ℕ) : CallM T AccountId Unit := do
  let who ← ensureSigned origin
  let candidate ← findCandidate who
  ensure candidate.offline .stillOnline
  ensureOutOfPipeline who
  -- The amount is the caller's, and is not compared with the bond.
  unreserve who frozenBalance
  modify fun s => s.updateCandidate who fun c =>
    { c with bond := 0, lastUpdated := s.blockNumber }
  modify fun s => s.depositEvent (.candidateBondCorrected who)

/-- The calls of the pallet. -/
inductive Call (AccountId : Type)
  | registerCandidate
  | bondCandidate (newBond : ℕ)
  | setCommissionOfCandidate (commission : UInt8)
  | stakeCandidate (candidate : AccountId) (amount : ℕ)
  | unstakeCandidate (candidate : AccountId)
  | offlineCandidate
  | onlineCandidate
  | leaveCandidate
  | bondCorrection (frozenBalance : ℕ)
  deriving DecidableEq

/-- The code of a call. -/
def Call.code (origin : RawOrigin AccountId) : Call AccountId → CallM T AccountId Unit
  | .registerCandidate => Staking.registerCandidate origin
  | .bondCandidate newBond => Staking.bondCandidate origin newBond
  | .setCommissionOfCandidate commission => Staking.setCommissionOfCandidate origin commission
  | .stakeCandidate candidate amount => Staking.stakeCandidate origin candidate amount
  | .unstakeCandidate candidate => Staking.unstakeCandidate origin candidate
  | .offlineCandidate => Staking.offlineCandidate origin
  | .onlineCandidate => Staking.onlineCandidate origin
  | .leaveCandidate => Staking.leaveCandidate origin
  | .bondCorrection frozenBalance => Staking.bondCorrection origin frozenBalance

end Xode.Staking
