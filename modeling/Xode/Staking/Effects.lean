import Xode.Staking.Chain

/-!
# What the calls do

The effect of each call, as a relation between the storage before and after it:
what it requires, and the storage it leaves (`Effect`). A call succeeds exactly
when it has an effect (`code_eq_ok`), and everything else about the calls is
proved from their effects, without going back to their code.

No call touches the waiting list, the validator set, the desired candidates,
the authors of the session, the block number, or the session (`Effect.frame`).
-/

namespace Xode.Staking

variable {T : Config} {AccountId : Type} [DecidableEq AccountId]

/-! ### Lookups -/

namespace State

variable {s : State T AccountId} {a who candidate : AccountId}
  {f : CandidateInfo AccountId → CandidateInfo AccountId}

/-- No two records of the same account. -/
def UniqueKeys (s : State T AccountId) : Prop :=
  (s.proposedCandidates.toList.map CandidateInfo.who).Nodup

instance (s : State T AccountId) : Decidable s.UniqueKeys :=
  inferInstanceAs (Decidable (List.Nodup _))

theorem uniqueKeys_updateCandidate (hf : ∀ c, (f c).who = c.who) :
    (s.updateCandidate who f).UniqueKeys ↔ s.UniqueKeys := by
  simp only [UniqueKeys, updateCandidate, BoundedVec.toList_updateKey, map_key_updateKey hf]

omit [DecidableEq AccountId] in
theorem uniqueKeys_sortProposedCandidates : s.sortProposedCandidates.UniqueKeys ↔ s.UniqueKeys :=
  ((BoundedVec.perm_sortBy s.proposedCandidates (rankCmp T)).map _).nodup_iff

theorem mem_candidate? {c : CandidateInfo AccountId} (h : s.candidate? a = some c) :
    c ∈ s.proposedCandidates.toList := mem_of_findKey h

theorem who_candidate? {c : CandidateInfo AccountId} (h : s.candidate? a = some c) : c.who = a :=
  key_of_findKey h

theorem candidate?_eq_some (hk : s.UniqueKeys) {c : CandidateInfo AccountId} :
    s.candidate? a = some c ↔ c ∈ s.proposedCandidates.toList ∧ c.who = a :=
  findKey_eq_some hk

theorem candidate?_isSome :
    (s.candidate? a).isSome ↔ ∃ c ∈ s.proposedCandidates.toList, c.who = a := by
  rw [candidate?, findKey_isSome, List.mem_map]

theorem candidate?_updateCandidate (hf : ∀ c, (f c).who = c.who) :
    (s.updateCandidate who f).candidate? a =
      if a = who then (s.candidate? who).map f else s.candidate? a :=
  findKey_updateKey hf

theorem candidate?_sortProposedCandidates (hk : s.UniqueKeys) :
    s.sortProposedCandidates.candidate? a = s.candidate? a :=
  findKey_perm hk (BoundedVec.perm_sortBy _ _).symm

/-- Rewriting a record and sorting changes that record only. -/
theorem candidate?_sort_updateCandidate (hk : s.UniqueKeys) (hf : ∀ c, (f c).who = c.who) :
    (s.updateCandidate who f).sortProposedCandidates.candidate? a =
      if a = who then (s.candidate? who).map f else s.candidate? a := by
  rw [candidate?_sortProposedCandidates ((uniqueKeys_updateCandidate hf).2 hk),
    candidate?_updateCandidate hf]

/-- The stake recorded for a candidate when it is recomputed. -/
def totalDelegated (s : State T AccountId) (candidate : AccountId) : ℕ :=
  sumStakes T (s.delegationsOf candidate)

/-- The storage after recomputing the stake of a candidate. -/
def restake (s : State T AccountId) (candidate : AccountId) : State T AccountId :=
  State.sortProposedCandidates <| s.updateCandidate candidate fun c =>
    { c with totalStake := s.totalDelegated candidate, lastUpdated := s.blockNumber }

/-- Nothing but the records, the delegations, the balances and the events changed. -/
structure Frame (s s' : State T AccountId) : Prop where
  waitingCandidates : s'.waitingCandidates = s.waitingCandidates
  invulnerables : s'.invulnerables = s.invulnerables
  desiredCandidates : s'.desiredCandidates = s.desiredCandidates
  actualAuthors : s'.actualAuthors = s.actualAuthors
  blockNumber : s'.blockNumber = s.blockNumber
  session : s'.session = s.session

/-- An account neither waiting, nor queued, nor a current validator. -/
def OutOfPipeline (s : State T AccountId) (who : AccountId) : Prop :=
  who ∉ s.waitingCandidates ∧ who ∉ s.invulnerables ∧ who ∉ s.session.validators

end State

/-! ### Effects of the calls -/

variable {s s' : State T AccountId} {a who candidate : AccountId} {origin : RawOrigin AccountId}
  {u : Unit} {amount bond newBond value : ℕ}

/-- The record of a newly registered candidate. -/
def CandidateInfo.fresh (who : AccountId) (now : ℕ) : CandidateInfo AccountId :=
  { who, bond := 0, totalStake := 0, lastUpdated := now, lastAuthored := now, leaving := false,
    offline := false, commission := 0, status := .online }

/-- The balances after moving a bond. -/
def bondMoved (l : Ledger AccountId T.maxBalance) (who : AccountId) (bond newBond : ℕ) :
    Option (Ledger AccountId T.maxBalance) :=
  if bond < newBond then l.reserve who (newBond - bond)
  else some (l.unreserve who (bond - newBond)).1

/-- The effect of a successful call signed by `who` on the storage `s`. -/
inductive Effect (s : State T AccountId) (who : AccountId) :
    Call AccountId → State T AccountId → Prop
  | registerCandidate {candidates : BoundedVec (CandidateInfo AccountId) T.maxCandidates} :
      s.candidate? who = none →
      s.proposedCandidates.tryPush (.fresh who s.blockNumber) = some candidates →
      Effect s who .registerCandidate
        (State.depositEvent { s with proposedCandidates := candidates } (.candidateRegistered who))
  | bondCandidate {newBond : ℕ} {c : CandidateInfo AccountId}
      {currency : Ledger AccountId T.maxBalance} :
      s.candidate? who = some c →
      (if newBond = 0 then s.OutOfPipeline who else T.minCandidateBond ≤ newBond) →
      bondMoved s.currency who c.bond newBond = some currency →
      Effect s who (.bondCandidate newBond)
        ((({ s with currency } : State T AccountId).updateCandidate who fun c =>
          { c with bond := newBond
                   lastUpdated := s.blockNumber }).sortProposedCandidates.depositEvent
            (.candidateBonded who newBond))
  | setCommissionOfCandidate {commission : UInt8} {c : CandidateInfo AccountId} :
      s.candidate? who = some c → 1 ≤ commission ∧ commission ≤ 100 →
      Effect s who (.setCommissionOfCandidate commission)
        ((s.updateCandidate who fun c =>
          { c with commission, lastUpdated := s.blockNumber }).depositEvent
            (.candidateCommissionSet who commission))
  | stakeCandidate {candidate : AccountId} {amount : ℕ} {c : CandidateInfo AccountId}
      {currency : Ledger AccountId T.maxBalance} {ds : DelegationList T AccountId} :
      who ≠ candidate → s.candidate? candidate = some c → amount ≤ s.currency.freeBalance who →
      s.currency.reserve who amount = some currency →
      addDelegation who amount ((s.delegations.lookup candidate).getD .empty) = some ds →
      Effect s who (.stakeCandidate candidate amount)
        ((({ s with currency, delegations := s.delegations.insert candidate ds } :
          State T AccountId).restake candidate).depositEvent
            (.delegationAdded who candidate amount))
  | unstakeCandidate {candidate : AccountId} {c : CandidateInfo AccountId}
      {ds : DelegationList T AccountId} {i : Fin ds.toList.length} :
      s.candidate? candidate = some c → s.delegations.lookup candidate = some ds →
      ds.toList.findFinIdx? (fun d => d.delegator = who) = some i →
      Effect s who (.unstakeCandidate candidate)
        ((({ s with
          currency := (s.currency.unreserve who (ds.toList.get i).stake).1
          delegations :=
            if (ds.remove i).toList.isEmpty then s.delegations.erase candidate
            else s.delegations.insert candidate (ds.remove i) } :
          State T AccountId).restake candidate).depositEvent
            (.delegationRevoked who candidate))
  | offlineCandidate {c : CandidateInfo AccountId} : s.candidate? who = some c →
      Effect s who .offlineCandidate
        ((s.updateCandidate who fun c =>
          { c with offline := true
                   lastUpdated := s.blockNumber }).sortProposedCandidates.depositEvent
            (.candidateWentOffline who))
  | onlineCandidate {c : CandidateInfo AccountId} : s.candidate? who = some c →
      Effect s who .onlineCandidate
        ((s.updateCandidate who fun c =>
          { c with offline := false
                   lastUpdated := s.blockNumber }).sortProposedCandidates.depositEvent
            (.candidateWentOnline who))
  | leaveCandidate {c : CandidateInfo AccountId} : s.candidate? who = some c → c.offline →
      s.OutOfPipeline who →
      Effect s who .leaveCandidate
        (((s.updateCandidate who fun c =>
          { c with leaving := true
                   lastUpdated := s.blockNumber }).removeFromWaiting who).depositEvent
            (.candidateLeft who))
  | bondCorrection {frozenBalance : ℕ} {c : CandidateInfo AccountId} : s.candidate? who = some c →
      c.offline → s.OutOfPipeline who →
      Effect s who (.bondCorrection frozenBalance)
        ((({ s with currency := (s.currency.unreserve who frozenBalance).1 } :
          State T AccountId).updateCandidate who fun c =>
            { c with bond := 0, lastUpdated := s.blockNumber }).depositEvent
              (.candidateBondCorrected who))

theorem reserve_eq_ok :
    reserve who value s = .ok u s' ↔
      ∃ currency, s.currency.reserve who value = some currency ∧ { s with currency } = s' := by
  simp only [reserve, bind_eq_ok, get_eq_ok, okOr_eq_ok, modify_eq_ok, and_assoc, ↓existsAndEq,
    true_and]

theorem unreserve_eq_ok :
    unreserve who value s = .ok u s' ↔
      { s with currency := (s.currency.unreserve who value).1 } = s' := modify_eq_ok

theorem findCandidate_eq_ok {c : CandidateInfo AccountId} :
    findCandidate who s = .ok c s' ↔ s.candidate? who = some c ∧ s = s' := by
  simp only [findCandidate, bind_eq_ok, get_eq_ok, okOr_eq_ok, and_assoc, ↓existsAndEq, true_and]

theorem ensureOutOfPipeline_eq_ok :
    ensureOutOfPipeline who s = .ok u s' ↔ s.OutOfPipeline who ∧ s = s' := by
  simp only [ensureOutOfPipeline, bind_eq_ok, get_eq_ok, ensure_eq_ok, and_assoc, ↓existsAndEq,
    true_and, exists_const, State.OutOfPipeline, State.isCurrentValidator, decide_eq_true_eq,
    State.currentValidators_eq]

theorem ensureBondAllowed_eq_ok :
    ensureBondAllowed (T := T) who newBond s = .ok u s' ↔
      (if newBond = 0 then s.OutOfPipeline who else T.minCandidateBond ≤ newBond) ∧ s = s' := by
  rw [ensureBondAllowed]
  split
  · exact ensureOutOfPipeline_eq_ok
  · exact ensure_eq_ok

theorem moveBond_eq_ok :
    moveBond who bond newBond s = .ok u s' ↔
      ∃ currency, bondMoved s.currency who bond newBond = some currency ∧
        { s with currency } = s' := by
  rw [moveBond, bondMoved]
  split
  · simp only [bind_eq_ok, get_eq_ok, ensure_eq_ok, reserve_eq_ok, and_assoc, ↓existsAndEq,
      true_and, exists_const]
    exact ⟨fun h => h.2, fun ⟨_, h, hs⟩ => ⟨(Ledger.reserve_eq_some h).1, _, h, hs⟩⟩
  · split
    · rw [unreserve_eq_ok]; simp
    · next h h' =>
      have hb : bond - newBond = 0 := by omega
      rw [pure_eq_ok, hb]
      simp [Ledger.unreserve_zero]

theorem recomputeTotalStake_eq_ok :
    recomputeTotalStake candidate s = .ok u s' ↔
      (s.candidate? candidate).isSome ∧ s.restake candidate = s' := by
  have hs : ((s.delegations.lookup candidate).map fun ds => sumStakes T ds.toList).getD 0 =
      s.totalDelegated candidate := by
    rw [State.totalDelegated, State.delegationsOf]
    cases s.delegations.lookup candidate <;> rfl
  simp only [recomputeTotalStake, bind_eq_ok, get_eq_ok, findCandidate_eq_ok, modify_eq_ok,
    and_assoc, ↓existsAndEq, true_and, exists_const, hs, Option.isSome_iff_exists, exists_and_right]
  rfl

/-! #### One call at a time -/

theorem registerCandidate_eq_ok :
    registerCandidate origin s = .ok u s' ↔
      ∃ who, origin = .signed who ∧ Effect s who .registerCandidate s' := by
  simp only [registerCandidate, bind_eq_ok, ensureSigned_eq_ok, get_eq_ok, ensure_eq_ok, okOr_eq_ok,
    modify_eq_ok, and_assoc, ↓existsAndEq, true_and, exists_const, exists_and_left,
    ← State.candidate?_isSome, Option.not_isSome_iff_eq_none]
  constructor
  · rintro ⟨who, rfl, hnew, candidates, hpush, rfl⟩
    exact ⟨who, rfl, .registerCandidate hnew hpush⟩
  · rintro ⟨who, rfl, h⟩
    cases h with
    | registerCandidate hnew hpush => exact ⟨who, rfl, hnew, _, hpush, rfl⟩

theorem bondCandidate_eq_ok :
    bondCandidate origin newBond s = .ok u s' ↔
      ∃ who, origin = .signed who ∧ Effect s who (.bondCandidate newBond) s' := by
  simp only [bondCandidate, bind_eq_ok, ensureSigned_eq_ok, ensureBondAllowed_eq_ok,
    findCandidate_eq_ok, moveBond_eq_ok, modify_eq_ok, and_assoc, ↓existsAndEq, true_and,
    exists_const, exists_and_left]
  constructor
  · rintro ⟨who, rfl, hbond, c, hc, currency, hmove, rfl⟩
    exact ⟨who, rfl, .bondCandidate hc hbond hmove⟩
  · rintro ⟨who, rfl, h⟩
    cases h with
    | bondCandidate hc hbond hmove => exact ⟨who, rfl, hbond, _, hc, _, hmove, rfl⟩

theorem setCommissionOfCandidate_eq_ok {commission : UInt8} :
    setCommissionOfCandidate origin commission s = .ok u s' ↔
      ∃ who, origin = .signed who ∧ Effect s who (.setCommissionOfCandidate commission) s' := by
  simp only [setCommissionOfCandidate, bind_eq_ok, ensureSigned_eq_ok, ensure_eq_ok,
    findCandidate_eq_ok, modify_eq_ok, and_assoc, ↓existsAndEq, true_and, exists_const,
    exists_and_left, exists_and_right]
  constructor
  · rintro ⟨who, rfl, h₁, h₂, ⟨c, hc⟩, rfl⟩
    exact ⟨who, rfl, .setCommissionOfCandidate hc ⟨h₁, h₂⟩⟩
  · rintro ⟨who, rfl, h⟩
    cases h with
    | setCommissionOfCandidate hc h => exact ⟨who, rfl, h.1, h.2, ⟨_, hc⟩, rfl⟩

theorem stakeCandidate_eq_ok :
    stakeCandidate origin candidate amount s = .ok u s' ↔
      ∃ who, origin = .signed who ∧ Effect s who (.stakeCandidate candidate amount) s' := by
  simp only [stakeCandidate, bind_eq_ok, ensureSigned_eq_ok, get_eq_ok, ensure_eq_ok, okOr_eq_ok,
    reserve_eq_ok, recomputeTotalStake_eq_ok, modify_eq_ok, and_assoc, ↓existsAndEq, true_and,
    exists_const, exists_and_left, ← State.candidate?_isSome]
  constructor
  · rintro ⟨who, rfl, hne, hc, hfree, currency, hreserve, ds, hds, -, rfl⟩
    obtain ⟨c, hc⟩ := Option.isSome_iff_exists.1 hc
    exact ⟨who, rfl, .stakeCandidate hne hc hfree hreserve hds⟩
  · rintro ⟨who, rfl, h⟩
    cases h with
    | stakeCandidate hne hc hfree hreserve hds =>
      have hc := Option.isSome_of_eq_some hc
      exact ⟨who, rfl, hne, hc, hfree, _, hreserve, _, hds, hc, rfl⟩

theorem unstakeCandidate_eq_ok :
    unstakeCandidate origin candidate s = .ok u s' ↔
      ∃ who, origin = .signed who ∧ Effect s who (.unstakeCandidate candidate) s' := by
  simp only [unstakeCandidate, bind_eq_ok, ensureSigned_eq_ok, get_eq_ok, okOr_eq_ok,
    unreserve_eq_ok, recomputeTotalStake_eq_ok, modify_eq_ok, and_assoc, ↓existsAndEq, true_and,
    exists_const, exists_and_left]
  constructor
  · rintro ⟨who, rfl, ds, hds, i, hi, hc, rfl⟩
    obtain ⟨c, hc⟩ := Option.isSome_iff_exists.1 hc
    exact ⟨who, rfl, .unstakeCandidate hc hds hi⟩
  · rintro ⟨who, rfl, h⟩
    cases h with
    | unstakeCandidate hc hds hi =>
      exact ⟨who, rfl, _, hds, _, hi, Option.isSome_of_eq_some hc, rfl⟩

theorem setOffline_eq_ok {offline : Bool} :
    setOffline who offline s = .ok u s' ↔
      (s.candidate? who).isSome ∧
        (s.updateCandidate who fun c => { c with offline, lastUpdated := s.blockNumber }) = s' := by
  simp only [setOffline, bind_eq_ok, findCandidate_eq_ok, modify_eq_ok, and_assoc, ↓existsAndEq,
    true_and, Option.isSome_iff_exists, exists_and_right]

theorem offlineCandidate_eq_ok :
    offlineCandidate origin s = .ok u s' ↔
      ∃ who, origin = .signed who ∧ Effect s who .offlineCandidate s' := by
  simp only [offlineCandidate, bind_eq_ok, ensureSigned_eq_ok, setOffline_eq_ok, modify_eq_ok,
    and_assoc, ↓existsAndEq, true_and, exists_const, exists_and_left]
  constructor
  · rintro ⟨who, rfl, hc, rfl⟩
    obtain ⟨c, hc⟩ := Option.isSome_iff_exists.1 hc
    exact ⟨who, rfl, .offlineCandidate hc⟩
  · rintro ⟨who, rfl, h⟩
    cases h with
    | offlineCandidate hc => exact ⟨who, rfl, Option.isSome_of_eq_some hc, rfl⟩

theorem onlineCandidate_eq_ok :
    onlineCandidate origin s = .ok u s' ↔
      ∃ who, origin = .signed who ∧ Effect s who .onlineCandidate s' := by
  simp only [onlineCandidate, bind_eq_ok, ensureSigned_eq_ok, setOffline_eq_ok, modify_eq_ok,
    and_assoc, ↓existsAndEq, true_and, exists_const, exists_and_left]
  constructor
  · rintro ⟨who, rfl, hc, rfl⟩
    obtain ⟨c, hc⟩ := Option.isSome_iff_exists.1 hc
    exact ⟨who, rfl, .onlineCandidate hc⟩
  · rintro ⟨who, rfl, h⟩
    cases h with
    | onlineCandidate hc => exact ⟨who, rfl, Option.isSome_of_eq_some hc, rfl⟩

theorem leaveCandidate_eq_ok :
    leaveCandidate origin s = .ok u s' ↔
      ∃ who, origin = .signed who ∧ Effect s who .leaveCandidate s' := by
  simp only [leaveCandidate, bind_eq_ok, ensureSigned_eq_ok, findCandidate_eq_ok, ensure_eq_ok,
    ensureOutOfPipeline_eq_ok, modify_eq_ok, and_assoc, ↓existsAndEq, true_and, exists_const,
    exists_and_left]
  constructor
  · rintro ⟨who, rfl, c, hc, hoff, hout, rfl⟩
    exact ⟨who, rfl, .leaveCandidate hc hoff hout⟩
  · rintro ⟨who, rfl, h⟩
    cases h with
    | leaveCandidate hc hoff hout => exact ⟨who, rfl, _, hc, hoff, hout, rfl⟩

theorem bondCorrection_eq_ok :
    bondCorrection origin value s = .ok u s' ↔
      ∃ who, origin = .signed who ∧ Effect s who (.bondCorrection value) s' := by
  simp only [bondCorrection, bind_eq_ok, ensureSigned_eq_ok, findCandidate_eq_ok, ensure_eq_ok,
    ensureOutOfPipeline_eq_ok, unreserve_eq_ok, modify_eq_ok, and_assoc, ↓existsAndEq, true_and,
    exists_const, exists_and_left]
  constructor
  · rintro ⟨who, rfl, c, hc, hoff, hout, rfl⟩
    exact ⟨who, rfl, .bondCorrection hc hoff hout⟩
  · rintro ⟨who, rfl, h⟩
    cases h with
    | bondCorrection hc hoff hout => exact ⟨who, rfl, _, hc, hoff, hout, rfl⟩

/-! #### All calls -/

/-- A call succeeds exactly when it is signed and has an effect. -/
theorem code_eq_ok {call : Call AccountId} :
    call.code origin s = .ok () s' ↔ ∃ who, origin = .signed who ∧ Effect s who call s' := by
  cases call with
  | registerCandidate => exact registerCandidate_eq_ok
  | bondCandidate newBond => exact bondCandidate_eq_ok
  | setCommissionOfCandidate commission => exact setCommissionOfCandidate_eq_ok
  | stakeCandidate candidate amount => exact stakeCandidate_eq_ok
  | unstakeCandidate candidate => exact unstakeCandidate_eq_ok
  | offlineCandidate => exact offlineCandidate_eq_ok
  | onlineCandidate => exact onlineCandidate_eq_ok
  | leaveCandidate => exact leaveCandidate_eq_ok
  | bondCorrection frozenBalance => exact bondCorrection_eq_ok

/-- Whoever has no record may register, as long as there is room. -/
theorem exists_register_iff : (∃ s', Effect s who .registerCandidate s') ↔
    s.candidate? who = none ∧ s.proposedCandidates.toList.length < T.maxCandidates := by
  constructor
  · rintro ⟨s', h⟩
    cases h with
    | registerCandidate hnew hpush =>
      rename_i candidates
      have hlen := candidates.length_le
      rw [BoundedVec.tryPush_eq_some.1 hpush, List.length_append] at hlen
      exact ⟨hnew, hlen⟩
  · rintro ⟨hnew, hroom⟩
    obtain ⟨candidates, hpush⟩ : ∃ candidates, s.proposedCandidates.tryPush
        (CandidateInfo.fresh who s.blockNumber) = some candidates := by
      rw [← Option.isSome_iff_exists, Option.isSome_iff_ne_none, Ne, BoundedVec.tryPush_eq_none]
      exact hroom.ne
    exact ⟨_, .registerCandidate hnew hpush⟩

/-- What no call touches. -/
theorem Effect.frame {call : Call AccountId} (h : Effect s who call s') : s.Frame s' := by
  cases h with
  | leaveCandidate _ _ hout =>
    -- The account it takes off the waiting list is not on it.
    refine ⟨BoundedVec.ext ?_, rfl, rfl, rfl, rfl, rfl⟩
    exact List.filter_eq_self.2 fun a ha => by
      simpa using fun h : a = who => hout.1 (h ▸ ha)
  | _ => exact ⟨rfl, rfl, rfl, rfl, rfl, rfl⟩

/-- The calls keep the records unique. -/
theorem Effect.uniqueKeys {call : Call AccountId} (h : Effect s who call s') (hk : s.UniqueKeys) :
    s'.UniqueKeys := by
  cases h with
  | registerCandidate hnew hpush =>
    have hw : who ∉ s.proposedCandidates.toList.map CandidateInfo.who := findKey_eq_none.1 hnew
    simp only [State.UniqueKeys, State.depositEvent, BoundedVec.tryPush_eq_some.1 hpush,
      List.map_append]
    exact List.nodup_append.2 ⟨hk, List.nodup_singleton _, by simpa [CandidateInfo.fresh] using hw⟩
  | setCommissionOfCandidate | leaveCandidate | bondCorrection =>
    exact (State.uniqueKeys_updateCandidate (by exact fun _ => rfl)).2 hk
  | bondCandidate | stakeCandidate | unstakeCandidate | offlineCandidate | onlineCandidate =>
    exact State.uniqueKeys_sortProposedCandidates.2
      ((State.uniqueKeys_updateCandidate (by exact fun _ => rfl)).2 hk)

/-- The account whose record a call writes. -/
def Call.target (who : AccountId) : Call AccountId → AccountId
  | .stakeCandidate candidate _ | .unstakeCandidate candidate => candidate
  | _ => who

/-- The record a call writes, in the storage `s'` it leaves, from the one before it. -/
def Call.record (s' : State T AccountId) (who : AccountId) (c : Option (CandidateInfo AccountId)) :
    Call AccountId → Option (CandidateInfo AccountId)
  | .registerCandidate => some (.fresh who s'.blockNumber)
  | .bondCandidate newBond =>
    c.map fun c => { c with bond := newBond, lastUpdated := s'.blockNumber }
  | .setCommissionOfCandidate commission =>
    c.map fun c => { c with commission, lastUpdated := s'.blockNumber }
  | .stakeCandidate candidate _ | .unstakeCandidate candidate =>
    c.map fun c =>
      { c with totalStake := s'.totalDelegated candidate, lastUpdated := s'.blockNumber }
  | .offlineCandidate => c.map fun c => { c with offline := true, lastUpdated := s'.blockNumber }
  | .onlineCandidate => c.map fun c => { c with offline := false, lastUpdated := s'.blockNumber }
  | .leaveCandidate => c.map fun c => { c with leaving := true, lastUpdated := s'.blockNumber }
  | .bondCorrection _ => c.map fun c => { c with bond := 0, lastUpdated := s'.blockNumber }

/-- A call writes the record of its target, and no other. -/
theorem Effect.candidate? {call : Call AccountId} (h : Effect s who call s') (hk : s.UniqueKeys)
    (a : AccountId) :
    s'.candidate? a =
      if a = call.target who then call.record s' who (s.candidate? a) else s.candidate? a := by
  cases h with
  | registerCandidate hnew hpush =>
    simp only [State.candidate?, State.depositEvent, BoundedVec.tryPush_eq_some.1 hpush,
      findKey_append_singleton, Call.target, Call.record]
    by_cases ha : a = who
    · have : findKey CandidateInfo.who who s.proposedCandidates.toList = none := hnew
      simp [ha, this, CandidateInfo.fresh]
    · simp [ha, CandidateInfo.fresh, Ne.symm ha]
  | setCommissionOfCandidate | leaveCandidate | bondCorrection =>
    refine (State.candidate?_updateCandidate (by exact fun _ => rfl)).trans ?_
    exact ite_congr rfl (fun h => h ▸ rfl) fun _ => rfl
  | bondCandidate | stakeCandidate | unstakeCandidate | offlineCandidate | onlineCandidate =>
    refine (State.candidate?_sort_updateCandidate (by exact hk) (by exact fun _ => rfl)).trans ?_
    exact ite_congr rfl (fun h => h ▸ rfl) fun _ => rfl

/-- A registration adds a record; no other call adds one, and none is removed. -/
theorem Effect.candidate?_isSome_iff {call : Call AccountId} (h : Effect s who call s')
    (hk : s.UniqueKeys) :
    (s'.candidate? a).isSome ↔
      (s.candidate? a).isSome ∨ call = .registerCandidate ∧ a = who := by
  rw [h.candidate? hk]
  by_cases ha : a = call.target who
  · rw [if_pos ha]
    cases call with
    | registerCandidate => exact iff_of_true rfl (.inr ⟨rfl, ha⟩)
    | _ => simp [Call.record]
  · rw [if_neg ha]
    cases call with
    | registerCandidate => exact (or_iff_left fun h => ha h.2).symm
    | _ => simp

/-- A call keeps records. -/
theorem Effect.candidate?_isSome {call : Call AccountId} (h : Effect s who call s')
    (hk : s.UniqueKeys) (hc : (s.candidate? a).isSome) : (s'.candidate? a).isSome :=
  (h.candidate?_isSome_iff hk).2 (.inl hc)

end Xode.Staking
