import Xode.Staking.Delegations

/-!
# Interference

The calls write lists that all accounts share: they rewrite a record in place, sort the
records, and rewrite, append or remove a delegation. All the same, a signed call
touches nobody's position but that of its signer (`touchesOnly_of_reachable`): their
balances, their delegations and their records stay as they are, up to the order of the
records, and the stake recorded for the candidate that a delegation is for.
-/

namespace Xode.Staking

variable {T : Config} {AccountId : Type} [DecidableEq AccountId]
  {s s' : State T AccountId} {a who candidate : AccountId} {call : Call AccountId}

namespace State

/-- The delegations behind a candidate of everyone but `a`. -/
def delegationsOfOthers (s : State T AccountId) (a candidate : AccountId) :
    List (Delegation AccountId) :=
  (s.delegationsOf candidate).filter fun d => d.delegator ≠ a

/-- Of the storage `s`, a call signed by `a` that leads to `s'` touches the position of
    `a` only. -/
structure TouchesOnly (s : State T AccountId) (a : AccountId) (call : Call AccountId)
    (s' : State T AccountId) : Prop where
  free : ∀ b, b ≠ a → s'.currency.freeBalance b = s.currency.freeBalance b
  reserved : ∀ b, b ≠ a → s'.currency.reservedBalance b = s.currency.reservedBalance b
  delegations : ∀ candidate, s'.delegationsOfOthers a candidate = s.delegationsOfOthers a candidate
  /-- A record of another account, or of any account if the call is about delegations,
      only changes its recorded stake and the time of its update; and these only if it is
      the one the delegation is behind. -/
  records : ∀ b c, s.candidate? b = some c → b ≠ a ∨ (∃ x, call.restakes x) →
    ∃ totalStake lastUpdated, s'.candidate? b = some { c with totalStake, lastUpdated } ∧
      (¬call.restakes b → totalStake = c.totalStake ∧ lastUpdated = c.lastUpdated)
  /-- No record is removed, and none is added but that of a registration. -/
  accounts : (s'.proposedCandidates.toList.map CandidateInfo.who).Perm
      (s.proposedCandidates.toList.map CandidateInfo.who) ∨
    call = .registerCandidate ∧ (s'.proposedCandidates.toList.map CandidateInfo.who).Perm
      (a :: s.proposedCandidates.toList.map CandidateInfo.who)
  unique : s'.UniqueKeys
  waiting : s'.waitingCandidates = s.waitingCandidates
  invulnerables : s'.invulnerables = s.invulnerables
  desired : s'.desiredCandidates = s.desiredCandidates
  actualAuthors : s'.actualAuthors = s.actualAuthors

/-- A failed call touches nothing. -/
theorem TouchesOnly.refl (hk : s.UniqueKeys) : s.TouchesOnly a call s where
  free _ _ := rfl
  reserved _ _ := rfl
  delegations _ := rfl
  records _ c hc _ := ⟨c.totalStake, c.lastUpdated, hc, fun _ => ⟨rfl, rfl⟩⟩
  accounts := .inl (.refl _)
  unique := hk
  waiting := rfl
  invulnerables := rfl
  desired := rfl
  actualAuthors := rfl

end State

/-! ### Successful calls -/

/-- A call touches the balances of its signer only. -/
theorem Effect.account_of_ne (h : Effect s who call s') (ha : a ≠ who) :
    s'.currency.account a = s.currency.account a := by
  cases h with
  | bondCandidate _ _ hmove =>
    rw [bondMoved] at hmove
    split at hmove
    · exact Ledger.account_reserve_of_ne hmove ha
    · cases hmove
      exact Ledger.account_unreserve_of_ne ha
  | stakeCandidate _ _ _ hreserve => exact Ledger.account_reserve_of_ne hreserve ha
  | unstakeCandidate | bondCorrection => exact Ledger.account_unreserve_of_ne ha
  | _ => rfl

/-- A call touches the delegations of its signer only. -/
theorem Effect.delegationsOfOthers (h : Effect s who call s') (candidate : AccountId) :
    s'.delegationsOfOthers who candidate = s.delegationsOfOthers who candidate := by
  rw [State.delegationsOfOthers, State.delegationsOfOthers, h.delegationsOf]
  cases call with
  | stakeCandidate c amount =>
    rw [Call.redelegate, withStake]
    split_ifs
    · exact filter_updateKey fun _ => rfl
    · simp
    · rfl
  | unstakeCandidate c =>
    rw [Call.redelegate]
    split
    · exact filter_eraseKey
    · rfl
  | _ => rfl

/-- A call touches the record of its signer only, but for the stake recorded for the
    candidate a delegation is behind. -/
theorem Effect.record_of_ne (h : Effect s who call s') (hk : s.UniqueKeys)
    {c : CandidateInfo AccountId} (hc : s.candidate? a = some c)
    (ha : a ≠ who ∨ ∃ x, call.restakes x) :
    ∃ totalStake lastUpdated, s'.candidate? a = some { c with totalStake, lastUpdated } ∧
      (¬call.restakes a → totalStake = c.totalStake ∧ lastUpdated = c.lastUpdated) := by
  have hc' := h.candidate? hk a
  by_cases ht : a = call.target who
  · rw [if_pos ht, hc] at hc'
    cases call with
    | stakeCandidate | unstakeCandidate =>
      exact ⟨_, _, hc', fun hr => absurd (decide_eq_true ht.symm) hr⟩
    | _ => exact absurd ht (ha.resolve_right (by simp [Call.restakes]))
  · rw [if_neg ht, hc] at hc'
    exact ⟨c.totalStake, c.lastUpdated, hc', fun _ => ⟨rfl, rfl⟩⟩

/-- A call keeps the accounts of the records, up to their order; a registration adds
    that of its signer. -/
theorem Effect.perm_accounts (h : Effect s who call s') :
    (s'.proposedCandidates.toList.map CandidateInfo.who).Perm
        (s.proposedCandidates.toList.map CandidateInfo.who) ∨
      call = .registerCandidate ∧ (s'.proposedCandidates.toList.map CandidateInfo.who).Perm
        (who :: s.proposedCandidates.toList.map CandidateInfo.who) := by
  have hupdate {f : CandidateInfo AccountId → CandidateInfo AccountId}
      (hf : ∀ c, (f c).who = c.who) (b : AccountId) :
      (s.updateCandidate b f).proposedCandidates.toList.map CandidateInfo.who =
        s.proposedCandidates.toList.map CandidateInfo.who := map_key_updateKey hf
  cases h with
  | registerCandidate _ hpush =>
    refine .inr ⟨rfl, ?_⟩
    rw [State.depositEvent, BoundedVec.tryPush_eq_some.1 hpush, List.map_append]
    exact List.perm_append_singleton _ _
  | setCommissionOfCandidate | leaveCandidate | bondCorrection =>
    exact .inl (.of_eq (hupdate (by exact fun _ => rfl) who))
  | bondCandidate | offlineCandidate | onlineCandidate =>
    exact .inl (((BoundedVec.perm_sortBy _ _).map _).trans
      (.of_eq (hupdate (by exact fun _ => rfl) who)))
  | @stakeCandidate candidate | @unstakeCandidate candidate =>
    exact .inl (((BoundedVec.perm_sortBy _ _).map _).trans
      (.of_eq (hupdate (by exact fun _ => rfl) candidate)))

theorem Effect.touchesOnly (h : Effect s who call s') (hk : s.UniqueKeys) :
    s.TouchesOnly who call s' where
  free _ hb := congrArg Account.free (h.account_of_ne hb)
  reserved _ hb := congrArg Account.reserved (h.account_of_ne hb)
  delegations := h.delegationsOfOthers
  records _ _ := h.record_of_ne hk
  accounts := h.perm_accounts
  unique := h.uniqueKeys hk
  waiting := h.frame.waitingCandidates
  invulnerables := h.frame.invulnerables
  desired := h.frame.desiredCandidates
  actualAuthors := h.frame.actualAuthors

/-- In every reachable state, a call signed by `a`, successful or not, touches the
    position of `a` only. -/
theorem touchesOnly_of_reachable (hs : (chain T AccountId).Reachable s) (a : AccountId)
    (call : Call AccountId) : s.TouchesOnly a call (s.exec (.call (.signed a) call)) := by
  have hk := uniqueKeys_of_reachable hs
  have hn := s.next_step (.signed a call)
  generalize ht : s.step (.signed a call) = t at hn
  have ht : s.exec (.call (.signed a) call) = t := ht
  rw [ht]
  cases hn with
  | call h => exact h.touchesOnly hk
  | failed => exact .refl hk
  | other hcall => exact absurd rfl (hcall _ _)

/-- The withdrawal of a delegation between others. -/
theorem touchesOnly_development :
    ((chain Config.runtime Keyring).run developmentState
      [.signed .bob .registerCandidate, .signed .aliceStash (.stakeCandidate .bob 5),
        .signed .bobStash (.stakeCandidate .bob 7)]).TouchesOnly .aliceStash
      (.unstakeCandidate .bob) ((chain Config.runtime Keyring).run developmentState
        [.signed .bob .registerCandidate, .signed .aliceStash (.stakeCandidate .bob 5),
          .signed .bobStash (.stakeCandidate .bob 7),
          .signed .aliceStash (.unstakeCandidate .bob)]) :=
  touchesOnly_of_reachable ((System.Reachable.init developmentState_mem).run _) _ _

end Xode.Staking
