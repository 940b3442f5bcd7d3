import Xode.Staking.Bonds
import Xode.Staking.Crowding

/-!
# Failures

What a call that fails says, and what it leaves.

* An error is true: what it says is the case in the storage that the call finds
  (`State.Errs`). A call fails exactly when one of its errors is (`fails_iff_errs`).
* The writes of a failed call are undone by its dispatcher. Two failures rely on it: a
  delegation that the candidate has no room for has already reserved its amount, and a
  withdrawal from a candidate that has lost its record has already removed the delegation
  and unreserved its stake. Any other leaves the storage as it was (`failsWith_of_code`).
-/

namespace Xode.Staking

variable {T : Config} {AccountId : Type} [DecidableEq AccountId]
  {s s' : State T AccountId} {who candidate : AccountId} {origin : RawOrigin AccountId}
  {d : DispatchError Error} {bond newBond value amount : ℕ}

/-! ### Where the helpers fail -/

theorem reserve_eq_error : reserve who value s = .error d s' ↔
    s.currency.reserve who value = none ∧ .other = d ∧ s = s' := by
  simp only [reserve, bind_eq_error, get_ne_error, get_eq_ok, okOr_eq_error, okOr_eq_ok,
    modify_ne_error, and_false, exists_false, or_false, false_or, and_assoc, ↓existsAndEq, true_and]

theorem unreserve_ne_error : unreserve who value s ≠ .error d s' := modify_ne_error

theorem findCandidate_eq_error : findCandidate who s = .error d s' ↔
    s.candidate? who = none ∧ .module .candidateNotFound = d ∧ s = s' := by
  simp only [findCandidate, bind_eq_error, get_ne_error, get_eq_ok, okOr_eq_error, false_or,
    and_assoc, ↓existsAndEq, true_and]

theorem recomputeTotalStake_eq_error : recomputeTotalStake candidate s = .error d s' ↔
    s.candidate? candidate = none ∧ .module .candidateNotFound = d ∧ s = s' := by
  simp only [recomputeTotalStake, bind_eq_error, get_ne_error, get_eq_ok, findCandidate_eq_error,
    modify_ne_error, and_false, exists_false, or_false, false_or, and_assoc, ↓existsAndEq, true_and]

theorem setOffline_eq_error {offline : Bool} : setOffline who offline s = .error d s' ↔
    s.candidate? who = none ∧ .module .candidateNotFound = d ∧ s = s' := by
  simp only [setOffline, bind_eq_error, findCandidate_eq_error, modify_ne_error, and_false,
    exists_false, or_false]

theorem ensureOutOfPipeline_eq_error : ensureOutOfPipeline who s = .error d s' ↔
    (who ∈ s.waitingCandidates ∧ .module .stillWaiting = d ∨
      who ∉ s.waitingCandidates ∧ who ∈ s.invulnerables ∧ .module .stillQueuing = d ∨
      who ∉ s.waitingCandidates ∧ who ∉ s.invulnerables ∧ who ∈ s.session.validators ∧
        .module .stillAuthoring = d) ∧ s = s' := by
  simp only [ensureOutOfPipeline, bind_eq_error, get_ne_error, get_eq_ok, ensure_eq_error,
    ensure_eq_ok, false_or, and_assoc, ↓existsAndEq, true_and, exists_const, not_not,
    State.isCurrentValidator, decide_eq_true_eq, State.currentValidators_eq]
  tauto

theorem moveBond_eq_error : moveBond who bond newBond s = .error d s' ↔
    bond < newBond ∧ (s.currency.freeBalance who < newBond - bond ∧
        .module .insufficientBalance = d ∨
      newBond - bond ≤ s.currency.freeBalance who ∧
        s.currency.reserve who (newBond - bond) = none ∧ .other = d) ∧ s = s' := by
  rw [moveBond]
  split
  · next h =>
    simp only [bind_eq_error, get_ne_error, get_eq_ok, ensure_eq_error, ensure_eq_ok,
      reserve_eq_error, false_or, and_assoc, ↓existsAndEq, true_and, exists_const, not_le, h]
    tauto
  · next h =>
    refine iff_of_false ?_ fun h' => h h'.1
    split
    · exact modify_ne_error
    · exact pure_ne_error

/-! ### What an error says -/

/-- A call that its signer must be out of the pipeline for. -/
def Call.NeedsOut : Call AccountId → Prop
  | .bondCandidate newBond => newBond = 0
  | .leaveCandidate | .bondCorrection _ => True
  | _ => False

/-- A call that its signer must be offline for. -/
def Call.NeedsOffline : Call AccountId → Prop
  | .leaveCandidate | .bondCorrection _ => True
  | _ => False

/-- A call that must find the record of its target, and says `CandidateNotFound` if not. -/
def Call.NeedsRecord : Call AccountId → Prop
  | .registerCandidate | .stakeCandidate _ _ => False
  | _ => True

/-- What an error that a call signed by `who` may return says of the storage: that this is
    the case. -/
inductive State.Errs (s : State T AccountId) (who : AccountId) :
    Call AccountId → DispatchError Error → Prop
  | candidateAlreadyExists : (s.candidate? who).isSome →
      Errs s who .registerCandidate (.module .candidateAlreadyExists)
  | candidateMaxExceeded : s.proposedCandidates.toList.length = T.maxCandidates →
      Errs s who .registerCandidate (.module .candidateMaxExceeded)
  | candidateNotFound {call : Call AccountId} : call.NeedsRecord →
      s.candidate? (call.target who) = none → Errs s who call (.module .candidateNotFound)
  | stillOnline {call : Call AccountId} {c : CandidateInfo AccountId} : call.NeedsOffline →
      s.candidate? who = some c → c.offline = false → Errs s who call (.module .stillOnline)
  | stillWaiting {call : Call AccountId} : call.NeedsOut → who ∈ s.waitingCandidates →
      Errs s who call (.module .stillWaiting)
  | stillQueuing {call : Call AccountId} : call.NeedsOut → who ∈ s.invulnerables →
      Errs s who call (.module .stillQueuing)
  | stillAuthoring {call : Call AccountId} : call.NeedsOut → who ∈ s.session.validators →
      Errs s who call (.module .stillAuthoring)
  | insufficientBond {newBond : ℕ} : newBond ≠ 0 → newBond < T.minCandidateBond →
      Errs s who (.bondCandidate newBond) (.module .insufficientBond)
  | insufficientBalance {newBond : ℕ} {c : CandidateInfo AccountId} : s.candidate? who = some c →
      s.currency.freeBalance who < newBond - c.bond →
      Errs s who (.bondCandidate newBond) (.module .insufficientBalance)
  | bondNotReserved {newBond : ℕ} {c : CandidateInfo AccountId} : s.candidate? who = some c →
      c.bond < newBond → s.currency.reserve who (newBond - c.bond) = none →
      Errs s who (.bondCandidate newBond) .other
  | invalidCommission {commission : UInt8} : ¬(1 ≤ commission ∧ commission ≤ 100) →
      Errs s who (.setCommissionOfCandidate commission) (.module .invalidCommission)
  | delegationToSelfNotAllowed {amount : ℕ} :
      Errs s who (.stakeCandidate who amount) (.module .delegationToSelfNotAllowed)
  | candidateDoesNotExist {candidate : AccountId} {amount : ℕ} : s.candidate? candidate = none →
      Errs s who (.stakeCandidate candidate amount) (.module .candidateDoesNotExist)
  | delegationInsufficientBalance {candidate : AccountId} {amount : ℕ} :
      s.currency.freeBalance who < amount →
      Errs s who (.stakeCandidate candidate amount) (.module .delegationInsufficientBalance)
  | stakeNotReserved {candidate : AccountId} {amount : ℕ} :
      s.currency.reserve who amount = none → Errs s who (.stakeCandidate candidate amount) .other
  | delegationsMaxExceeded {candidate : AccountId} {amount : ℕ} :
      who ∉ (s.delegationsOf candidate).map Delegation.delegator →
      (s.delegationsOf candidate).length = T.maxDelegationsPerCandidate →
      Errs s who (.stakeCandidate candidate amount) (.module .delegationsMaxExceeded)
  | noDelegationsForCandidate {candidate : AccountId} :
      s.delegations.lookup candidate = none →
      Errs s who (.unstakeCandidate candidate) (.module .noDelegationsForCandidate)
  | delegationNotFound {candidate : AccountId} :
      who ∉ (s.delegationsOf candidate).map Delegation.delegator →
      Errs s who (.unstakeCandidate candidate) (.module .delegationNotFound)

theorem Effect.isSome_target {call : Call AccountId} (he : Effect s who call s')
    (hcall : call.NeedsRecord) : (s.candidate? (call.target who)).isSome := by
  cases he with
  | registerCandidate | stakeCandidate => exact hcall.elim
  | bondCandidate hc | setCommissionOfCandidate hc | unstakeCandidate hc | offlineCandidate hc
  | onlineCandidate hc | leaveCandidate hc | bondCorrection hc => exact Option.isSome_of_eq_some hc

theorem Effect.outOfPipeline {call : Call AccountId} (he : Effect s who call s')
    (hcall : call.NeedsOut) : s.OutOfPipeline who := by
  cases he with
  | bondCandidate _ hbond => rwa [if_pos (by exact hcall)] at hbond
  | leaveCandidate _ _ hout | bondCorrection _ _ hout => exact hout
  | _ => exact hcall.elim

/-- A call with an effect finds none of its errors to be the case. -/
theorem Effect.not_errs {call : Call AccountId} (he : Effect s who call s') :
    ¬s.Errs who call d := by
  intro h
  cases h with
  | candidateAlreadyExists h =>
    rw [(exists_register_iff.1 ⟨_, he⟩).1] at h
    cases h
  | candidateMaxExceeded h => exact (exists_register_iff.1 ⟨_, he⟩).2.ne h
  | candidateNotFound hcall h =>
    have hsome := he.isSome_target hcall
    rw [h] at hsome
    cases hsome
  | stillOnline hcall hc h =>
    cases he with
    | leaveCandidate hc' hoff | bondCorrection hc' hoff =>
      cases hc.symm.trans hc'
      exact Bool.false_ne_true (h.symm.trans hoff)
    | _ => exact hcall
  | stillWaiting hcall h => exact (he.outOfPipeline hcall).1 h
  | stillQueuing hcall h => exact (he.outOfPipeline hcall).2.1 h
  | stillAuthoring hcall h => exact (he.outOfPipeline hcall).2.2 h
  | insufficientBond hne h =>
    cases he with
    | bondCandidate _ hbond =>
      rw [if_neg hne] at hbond
      omega
  | insufficientBalance hc h =>
    cases he with
    | bondCandidate hc' _ hmove =>
      cases hc.symm.trans hc'
      rw [bondMoved, if_pos (by omega)] at hmove
      have := (Ledger.reserve_eq_some hmove).1
      omega
  | bondNotReserved hc hlt h =>
    cases he with
    | bondCandidate hc' _ hmove =>
      cases hc.symm.trans hc'
      rw [bondMoved, if_pos hlt, h] at hmove
      cases hmove
  | invalidCommission h =>
    cases he with
    | setCommissionOfCandidate _ hcommission => exact h hcommission
  | delegationToSelfNotAllowed => exact (exists_stake_iff.1 ⟨_, he⟩).1 rfl
  | candidateDoesNotExist h =>
    have hsome := (exists_stake_iff.1 ⟨_, he⟩).2.1
    rw [h] at hsome
    cases hsome
  | delegationInsufficientBalance h =>
    cases he with
    | stakeCandidate _ _ hfree => omega
  | stakeNotReserved h =>
    have hsome := (exists_stake_iff.1 ⟨_, he⟩).2.2.1
    rw [h] at hsome
    cases hsome
  | delegationsMaxExceeded hnew h =>
    exact (exists_stake_iff.1 ⟨_, he⟩).2.2.2.elim hnew fun hlt => hlt.ne h
  | noDelegationsForCandidate h =>
    cases he with
    | unstakeCandidate _ hds => cases h.symm.trans hds
  | delegationNotFound h =>
    obtain ⟨d, hd, -⟩ := he.redelegates_unstake
    exact h (findKey_isSome.1 (Option.isSome_of_eq_some hd))

/-! ### What a failure leaves -/

/-- The storage `s'` that a failed call with the error `d` leaves, if nobody undoes its
    writes. -/
inductive State.Residue (s : State T AccountId) (who : AccountId) :
    Call AccountId → DispatchError Error → State T AccountId → Prop
  /-- Nothing was written. -/
  | nothing {call : Call AccountId} {d : DispatchError Error} : Residue s who call d s
  /-- The amount was reserved, and there was no room for the delegation. -/
  | reserved {candidate : AccountId} {amount : ℕ} {currency : Ledger AccountId T.maxBalance} :
      s.currency.reserve who amount = some currency →
      Residue s who (.stakeCandidate candidate amount) (.module .delegationsMaxExceeded)
        { s with currency }
  /-- The delegation was removed and its stake unreserved, and there was no record to
      recompute the stake of. -/
  | withdrawn {candidate : AccountId} {ds : DelegationList T AccountId}
      {i : Fin ds.toList.length} :
      s.candidate? candidate = none → s.delegations.lookup candidate = some ds →
      ds.toList.findFinIdx? (fun d => d.delegator = who) = some i →
      Residue s who (.unstakeCandidate candidate) (.module .candidateNotFound)
        { s with
          currency := (s.currency.unreserve who (ds.toList.get i).stake).1
          delegations :=
            if (ds.remove i).toList.isEmpty then s.delegations.erase candidate
            else s.delegations.insert candidate (ds.remove i) }

/-- What a call that fails says, and what it leaves. -/
def State.FailsWith (s : State T AccountId) (who : AccountId) (call : Call AccountId)
    (d : DispatchError Error) (s' : State T AccountId) : Prop :=
  s.Errs who call d ∧ s.Residue who call d s'

omit [DecidableEq AccountId] in
theorem ensureSigned_signed_ne_error {σ : Type} {s s' : σ} :
    (ensureSigned (.signed who) : PalletM Error σ AccountId) s ≠ .error d s' := fun h =>
  (ensureSigned_eq_error.1 h).1 who rfl

theorem registerCandidate_eq_error (h : registerCandidate (.signed who) s = .error d s') :
    s.FailsWith who .registerCandidate d s' := by
  simp only [registerCandidate, bind_eq_error, ensureSigned_signed_ne_error, ensureSigned_eq_ok,
    ensure_eq_error, ensure_eq_ok, okOr_eq_error, okOr_eq_ok, get_ne_error, get_eq_ok,
    modify_eq_ok, modify_ne_error, false_or, or_false, RawOrigin.signed.injEq, and_assoc,
    ↓existsAndEq, true_and, and_false, exists_false, exists_const, not_not,
    ← State.candidate?_isSome] at h
  obtain ⟨hc, rfl, rfl⟩ | ⟨-, hfull, rfl, rfl⟩ := h
  · exact ⟨.candidateAlreadyExists hc, .nothing⟩
  · exact ⟨.candidateMaxExceeded (BoundedVec.tryPush_eq_none.1 hfull), .nothing⟩

theorem errs_of_ensureOutOfPipeline {call : Call AccountId} (hcall : call.NeedsOut)
    (h : ensureOutOfPipeline who s = .error d s') : s.Errs who call d := by
  obtain ⟨⟨hw, rfl⟩ | ⟨-, hi, rfl⟩ | ⟨-, -, hv, rfl⟩, -⟩ := ensureOutOfPipeline_eq_error.1 h
  · exact .stillWaiting hcall hw
  · exact .stillQueuing hcall hi
  · exact .stillAuthoring hcall hv

theorem errs_of_ensureBondAllowed (h : ensureBondAllowed (T := T) who newBond s = .error d s') :
    s.Errs who (.bondCandidate newBond) d := by
  rw [ensureBondAllowed] at h
  split at h
  · next hzero => exact errs_of_ensureOutOfPipeline hzero h
  · next hne =>
    obtain ⟨hlt, rfl, -⟩ := ensure_eq_error.1 h
    exact .insufficientBond hne (not_le.1 hlt)

theorem bondCandidate_eq_error (h : bondCandidate (.signed who) newBond s = .error d s') :
    s.FailsWith who (.bondCandidate newBond) d s' := by
  refine ⟨?_, atomic_bondCandidate _ _ _ h ▸ .nothing⟩
  simp only [bondCandidate, bind_eq_error, ensureSigned_signed_ne_error, ensureSigned_eq_ok,
    ensureBondAllowed_eq_ok, findCandidate_eq_error, findCandidate_eq_ok, moveBond_eq_error,
    modify_eq_ok, modify_ne_error, false_or, or_false, RawOrigin.signed.injEq, and_assoc,
    ↓existsAndEq, true_and, and_false, exists_false, exists_const] at h
  obtain h | ⟨-, ⟨hc, rfl, -⟩ | ⟨c, hc, hlt, ⟨hfree, rfl⟩ | ⟨-, hnone, rfl⟩, -⟩⟩ := h
  · exact errs_of_ensureBondAllowed h
  · exact .candidateNotFound trivial hc
  · exact .insufficientBalance hc hfree
  · exact .bondNotReserved hc hlt hnone

theorem setCommissionOfCandidate_eq_error {commission : UInt8}
    (h : setCommissionOfCandidate (.signed who) commission s = .error d s') :
    s.FailsWith who (.setCommissionOfCandidate commission) d s' := by
  simp only [setCommissionOfCandidate, bind_eq_error, ensureSigned_signed_ne_error,
    ensureSigned_eq_ok, ensure_eq_error, ensure_eq_ok, findCandidate_eq_error, modify_eq_ok,
    modify_ne_error, false_or, or_false, RawOrigin.signed.injEq, and_assoc, ↓existsAndEq,
    true_and, and_false, exists_false, exists_const] at h
  obtain ⟨hcommission, rfl, rfl⟩ | ⟨-, -, hc, rfl, rfl⟩ := h
  · exact ⟨.invalidCommission hcommission, .nothing⟩
  · exact ⟨.candidateNotFound trivial hc, .nothing⟩

theorem stakeCandidate_eq_error
    (h : stakeCandidate (.signed who) candidate amount s = .error d s') :
    s.FailsWith who (.stakeCandidate candidate amount) d s' := by
  simp only [stakeCandidate, bind_eq_error, ensureSigned_signed_ne_error, ensureSigned_eq_ok,
    ensure_eq_error, ensure_eq_ok, okOr_eq_error, okOr_eq_ok, get_ne_error, get_eq_ok,
    reserve_eq_error, reserve_eq_ok, recomputeTotalStake_eq_error, modify_eq_ok, modify_ne_error,
    false_or, or_false, RawOrigin.signed.injEq, and_assoc, ↓existsAndEq, true_and, and_false,
    exists_false, exists_const, not_not, ← State.candidate?_isSome] at h
  obtain ⟨rfl, rfl, rfl⟩ | ⟨-, ⟨hc, rfl, rfl⟩ | ⟨hc, ⟨hfree, rfl, rfl⟩ | ⟨-, h⟩⟩⟩ := h
  · exact ⟨.delegationToSelfNotAllowed, .nothing⟩
  · exact ⟨.candidateDoesNotExist (Option.not_isSome_iff_eq_none.1 hc), .nothing⟩
  · exact ⟨.delegationInsufficientBalance (not_le.1 hfree), .nothing⟩
  obtain ⟨hnone, rfl, rfl⟩ | ⟨currency, hcur, ⟨hfull, rfl, rfl⟩ | ⟨ds, -, hnone, -⟩⟩ := h
  · exact ⟨.stakeNotReserved hnone, .nothing⟩
  · obtain ⟨hnew, hlen⟩ := addDelegation_eq_none.1 hfull
    rw [← State.delegationsOf_eq] at hnew hlen
    exact ⟨.delegationsMaxExceeded hnew hlen, .reserved hcur⟩
  · -- The record of the candidate was there.
    have hsome : (s.candidate? candidate) = none := hnone
    rw [hsome] at hc
    cases hc

theorem unstakeCandidate_eq_error (h : unstakeCandidate (.signed who) candidate s = .error d s') :
    s.FailsWith who (.unstakeCandidate candidate) d s' := by
  simp only [unstakeCandidate, bind_eq_error, ensureSigned_signed_ne_error, ensureSigned_eq_ok,
    okOr_eq_error, okOr_eq_ok, get_ne_error, get_eq_ok, unreserve_ne_error, unreserve_eq_ok,
    recomputeTotalStake_eq_error, modify_eq_ok, modify_ne_error, false_or, or_false,
    RawOrigin.signed.injEq, and_assoc, ↓existsAndEq, true_and, and_false, exists_false,
    exists_const] at h
  obtain ⟨hnone, rfl, rfl⟩ | ⟨ds, hds, ⟨hnone, rfl, rfl⟩ | ⟨i, hi, hnone, rfl, rfl⟩⟩ := h
  · exact ⟨.noDelegationsForCandidate hnone, .nothing⟩
  · refine ⟨.delegationNotFound ?_, .nothing⟩
    rw [State.delegationsOf_of_lookup hds, ← findFinIdx?_isSome, hnone]
    exact Bool.false_ne_true
  · exact ⟨.candidateNotFound trivial hnone, .withdrawn hnone hds hi⟩

theorem offlineCandidate_eq_error (h : offlineCandidate (.signed who) s = .error d s') :
    s.FailsWith who .offlineCandidate d s' := by
  simp only [offlineCandidate, bind_eq_error, ensureSigned_signed_ne_error, ensureSigned_eq_ok,
    setOffline_eq_error, modify_ne_error, false_or, or_false, RawOrigin.signed.injEq, and_assoc,
    ↓existsAndEq, true_and, and_false, exists_false] at h
  obtain ⟨hc, rfl, rfl⟩ := h
  exact ⟨.candidateNotFound trivial hc, .nothing⟩

theorem onlineCandidate_eq_error (h : onlineCandidate (.signed who) s = .error d s') :
    s.FailsWith who .onlineCandidate d s' := by
  simp only [onlineCandidate, bind_eq_error, ensureSigned_signed_ne_error, ensureSigned_eq_ok,
    setOffline_eq_error, modify_ne_error, false_or, or_false, RawOrigin.signed.injEq, and_assoc,
    ↓existsAndEq, true_and, and_false, exists_false] at h
  obtain ⟨hc, rfl, rfl⟩ := h
  exact ⟨.candidateNotFound trivial hc, .nothing⟩

/-- What `leave_candidate` and `bond_correction` check first, of their record and of the
    pipeline. -/
theorem failsWith_of_steppedOut {call : Call AccountId} (hout : call.NeedsOut)
    (hoff : call.NeedsOffline) (hrec : call.NeedsRecord) (ht : call.target who = who)
    (h : s.candidate? who = none ∧ .module .candidateNotFound = d ∧ s = s' ∨
      ∃ c, s.candidate? who = some c ∧ (¬c.offline = true ∧ .module .stillOnline = d ∧ s = s' ∨
        c.offline = true ∧ ensureOutOfPipeline who s = .error d s')) :
    s.FailsWith who call d s' := by
  obtain ⟨hc, rfl, rfl⟩ | ⟨c, hc, ⟨hon, rfl, rfl⟩ | ⟨-, hpipe⟩⟩ := h
  · exact ⟨.candidateNotFound hrec (ht.symm ▸ hc), .nothing⟩
  · exact ⟨.stillOnline hoff hc (Bool.eq_false_iff.2 hon), .nothing⟩
  · exact ⟨errs_of_ensureOutOfPipeline hout hpipe,
      atomic_ensureOutOfPipeline _ _ _ hpipe ▸ .nothing⟩

theorem leaveCandidate_eq_error (h : leaveCandidate (.signed who) s = .error d s') :
    s.FailsWith who .leaveCandidate d s' := by
  refine failsWith_of_steppedOut trivial trivial trivial rfl ?_
  simpa only [leaveCandidate, bind_eq_error, ensureSigned_signed_ne_error, ensureSigned_eq_ok,
    ensure_eq_error, ensure_eq_ok, findCandidate_eq_error, findCandidate_eq_ok, modify_ne_error,
    false_or, or_false, RawOrigin.signed.injEq, and_assoc, ↓existsAndEq, true_and, and_false,
    exists_false, exists_const] using h

theorem bondCorrection_eq_error (h : bondCorrection (.signed who) value s = .error d s') :
    s.FailsWith who (.bondCorrection value) d s' := by
  refine failsWith_of_steppedOut trivial trivial trivial rfl ?_
  simpa only [bondCorrection, bind_eq_error, ensureSigned_signed_ne_error, ensureSigned_eq_ok,
    ensure_eq_error, ensure_eq_ok, findCandidate_eq_error, findCandidate_eq_ok,
    unreserve_ne_error, modify_ne_error, false_or, or_false, RawOrigin.signed.injEq, and_assoc,
    ↓existsAndEq, true_and, and_false, exists_false, exists_const] using h

/-- A signed call that fails says what is the case, and leaves no writes behind but those of
    a delegation without room, or of a withdrawal from a candidate without a record. -/
theorem failsWith_of_code {call : Call AccountId} (h : call.code (.signed who) s = .error d s') :
    s.FailsWith who call d s' := by
  cases call with
  | registerCandidate => exact registerCandidate_eq_error h
  | bondCandidate newBond => exact bondCandidate_eq_error h
  | setCommissionOfCandidate commission => exact setCommissionOfCandidate_eq_error h
  | stakeCandidate candidate amount => exact stakeCandidate_eq_error h
  | unstakeCandidate candidate => exact unstakeCandidate_eq_error h
  | offlineCandidate => exact offlineCandidate_eq_error h
  | onlineCandidate => exact onlineCandidate_eq_error h
  | leaveCandidate => exact leaveCandidate_eq_error h
  | bondCorrection frozenBalance => exact bondCorrection_eq_error h

/-- The one place behind Bob is taken, and the next delegation behind him fails. -/
theorem failsWith_development :
    let s := (chain { Config.runtime with maxDelegationsPerCandidate := 1 } Keyring).run
      (development _ (by decide) (by decide))
      [.signed .bob .registerCandidate, .signed .bobStash (.stakeCandidate .bob 7)]
    ∃ s', s.FailsWith .aliceStash (.stakeCandidate .bob 5) (.module .delegationsMaxExceeded)
      s' := by
  intro s
  have hfails : ∃ s', stakeCandidate (.signed Keyring.aliceStash) .bob 5 s =
      .error (.module .delegationsMaxExceeded) s' :=
    (stakeCandidate_eq_maxExceeded (by decide) (by decide) (by decide) (by decide)).2 (by decide)
  obtain ⟨s', h⟩ := hfails
  have hcode : (Call.stakeCandidate Keyring.bob 5).code (.signed .aliceStash) s = .error _ s' := h
  exact ⟨s', failsWith_of_code hcode⟩

/-- A signed call fails exactly when one of the errors it may return is the case. -/
theorem fails_iff_errs {call : Call AccountId} :
    (∃ d s', call.code (.signed who) s = .error d s') ↔ ∃ d, s.Errs who call d := by
  constructor
  · rintro ⟨d, s', h⟩
    exact ⟨d, (failsWith_of_code h).1⟩
  · rintro ⟨d, h⟩
    cases hcode : call.code (.signed who) s with
    | ok u s' =>
      obtain ⟨_, ho, he⟩ := code_eq_ok.1 hcode
      cases ho
      exact absurd h he.not_errs
    | error d' s' => exact ⟨d', s', rfl⟩

end Xode.Staking
