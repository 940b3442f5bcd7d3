import Xode.Staking.Calls

/-!
# The hooks of the staking pallet

What the pallet does without being called: at the start of every block it
records its author (`onInitialize`), and at the end of every session it moves
the waiting list into the validator set, marks stale validators offline, drops
the candidates out of the running, and rebuilds the waiting list
(`endSession`); the validator set is then handed to `pallet_session`
(`newSession`).
-/

namespace Xode.Staking

variable {T : Config} {AccountId : Type} [DecidableEq AccountId]

namespace State

variable (s : State T AccountId)

/-! ### Authorship -/

/-- Recording, for a candidate, that it authored the current block. -/
def recordAuthoredBlock (who : AccountId) : State T AccountId :=
  s.updateCandidate who fun c => { c with lastAuthored := s.blockNumber }

/-- Recording that an account authored in the current session. When the list is
    full, it is not recorded. -/
def addActualAuthor (who : AccountId) : State T AccountId :=
  if who ∈ s.actualAuthors then s
  else match s.actualAuthors.tryPush who with
    | some actualAuthors => { s with actualAuthors }
    | none => s

/-- The start of a block, with its author if there is one. -/
def onInitialize (author : Option AccountId) : State T AccountId :=
  match author with
  | some author => (s.recordAuthoredBlock author).addActualAuthor author
  | none => s

/-! ### The end of a session -/

/-- Marking a validator offline: it is stale, and has authored nothing for more
    than the staling period. -/
def Stale (stale : List AccountId) (c : CandidateInfo AccountId) : Prop :=
  c.who ∈ stale ∧ T.maxStalingPeriod < s.blockNumber - c.lastAuthored

instance (stale : List AccountId) (c : CandidateInfo AccountId) : Decidable (s.Stale stale c) :=
  inferInstanceAs (Decidable (_ ∧ _))

/-- The validators, other than the desired ones, that have not authored in the
    session. -/
def staleValidators : List AccountId :=
  s.currentValidators.filter fun v => v ∉ s.actualAuthors ∧ v ∉ s.desiredCandidates

/-- Marking the validators that did not author within the staling period offline. -/
def slashStaleAuthors : State T AccountId :=
  let stale := s.staleValidators
  let now := s.blockNumber
  let marked : State T AccountId :=
    { s with
      proposedCandidates := s.proposedCandidates.map fun c =>
        if s.Stale stale c then { c with offline := true, lastUpdated := now } else c }
  -- The records are sorted only when one of them is marked.
  let slashed :=
    if stale.isEmpty then s
    else if ∃ c ∈ s.proposedCandidates.toList, s.Stale stale c then marked.sortProposedCandidates
    else marked
  { slashed with actualAuthors := .empty }

/-- Removing the record of a candidate. -/
def removeCandidate (who : AccountId) : State T AccountId :=
  { s with proposedCandidates := s.proposedCandidates.retain fun c => c.who ≠ who }

/-- One iteration of `prepare_next_waiting_list`: a candidate out of the running
    loses its record, or moves one step back in the pipeline. -/
def prepareCandidate (candidate : CandidateInfo AccountId) : State T AccountId :=
  if candidate.offline ∨ candidate.leaving ∨ candidate.bond = 0 then
    -- With the record goes the bond it records, but neither the reserve nor the delegations.
    match candidate.status with
    | .online | .offline => s.removeCandidate candidate.who
    | .waiting => (s.removeFromWaiting candidate.who).removeCandidate candidate.who
    | .queuing => s.setStatus candidate.who .waiting
    | .authoring => s.setStatus candidate.who .queuing
  else s

/-- Moving the candidates out of the running one step back. The loop goes over
    the candidates as they are before it. -/
def prepareNextWaitingList : State T AccountId :=
  s.proposedCandidates.toList.foldl prepareCandidate s

end State

/-- Moving the waiting list into the validator set. -/
def queueAuthors : CallM T AccountId Unit := do
  let s ← get
  let waiting := s.waitingCandidates
  -- With nobody waiting, the validator set stays as it is.
  ensure (waiting.toList ≠ []) .waitingCandidatesEmpty
  modify fun s =>
    { s with
      proposedCandidates := s.proposedCandidates.map fun c =>
        if c.status = .waiting ∧ c.who ∈ waiting then { c with status := .queuing } else c }
  modify fun s => { s with invulnerables := waiting }

/-- The first loop of `refresh_waiting_list`: pushing the desired candidates. -/
def pushDesired : List AccountId → BoundedVec AccountId T.maxCandidates →
    BoundedVec AccountId T.maxCandidates
  | [], waiting => waiting
  | candidate :: desired, waiting =>
    match waiting.tryPush candidate with
    | some waiting => pushDesired desired waiting
    | none => waiting

/-- The second loop of `refresh_waiting_list`: pushing the proposed candidates,
    each moving from `online` to `waiting`, until the list is full. -/
def pushProposed : List (CandidateInfo AccountId) → BoundedVec AccountId T.maxCandidates →
    State T AccountId → BoundedVec AccountId T.maxCandidates × State T AccountId
  | [], waiting, s => (waiting, s)
  | candidate :: proposed, waiting, s =>
    if T.maxCandidates ≤ waiting.toList.length then (waiting, s)
    else if candidate.who ∉ waiting ∧ candidate.bond ≠ 0 ∧ ¬candidate.leaving ∧
        ¬candidate.offline then
      -- The loop goes over a copy of the records; the status is set in storage.
      match waiting.tryPush candidate.who with
      | some waiting => pushProposed proposed waiting
          (if candidate.status = .online then s.setStatus candidate.who .waiting else s)
      | none => (waiting, s)
    else pushProposed proposed waiting s

/-- Rebuilding the waiting list: the desired candidates first, then the bonded,
    online, non-leaving candidates in their order, as long as there is room. -/
def State.refreshWaitingList (s : State T AccountId) : State T AccountId :=
  let waiting := pushDesired s.desiredCandidates.toList .empty
  let (waiting, s) := pushProposed s.proposedCandidates.toList waiting s
  { s with waitingCandidates := waiting }

/-! ### The session manager -/

/-- The end of a session. The result of `queueAuthors` is discarded. -/
def State.endSession (s : State T AccountId) : State T AccountId :=
  let s := finalState queueAuthors s
  s.slashStaleAuthors.prepareNextWaitingList.refreshWaitingList

/-- The validators of a new session. -/
def State.newSession (s : State T AccountId) : Option (List AccountId) × State T AccountId :=
  let authors := s.invulnerables.toList
  -- Desired accounts without a record are passed over.
  (some authors, authors.foldl (fun s author => s.setStatus author .authoring) s)

/-- The start of a session. -/
def State.startSession (s : State T AccountId) : State T AccountId := s

end Xode.Staking
