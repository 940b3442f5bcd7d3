import Xode.Frame.Lockstep
import Xode.Staking.Delegations
import Xode.Staking.Elections

/-!
# Orders that do not matter

The pallet keeps the records of the candidates in a list, and the delegations behind each
in another. Nobody can tell the order of either by calling the pallet: in two states that
differ in these orders only (`State.Alike`), every call does the same, down to its error
(`Call.lockstep`).

The election is the one place where the order of the records can show, and only between
candidates with the same stake behind them. Where it does not decide a seat, the two states
stay alike for good, and whatever is called, the callers are told the same
(`indistinguishable_run`).
-/

namespace Xode.Staking

variable {T : Config} {AccountId : Type} [DecidableEq AccountId]
  {s t : State T AccountId} {a who candidate : AccountId} {amount value : ℕ}

/-! ### Likeness -/

/-- The same delegations, each of an account of its own, in orders of their own. -/
def SameDelegations (ds ds' : DelegationList T AccountId) : Prop :=
  (ds.toList.map Delegation.delegator).Nodup ∧ ds.toList.Perm ds'.toList

namespace SameDelegations

variable {ds ds' : DelegationList T AccountId}

omit [DecidableEq AccountId] in
theorem sumStakes_eq (h : SameDelegations ds ds') :
    sumStakes T ds'.toList = sumStakes T ds.toList := by
  rw [Staking.sumStakes_eq, Staking.sumStakes_eq, (h.2.map Delegation.stake).sum_eq]

theorem findKey_eq (h : SameDelegations ds ds') (who : AccountId) :
    findKey Delegation.delegator who ds'.toList = findKey Delegation.delegator who ds.toList :=
  findKey_perm h.1 h.2

/-- A delegation is added on both sides, or there is no room on either. -/
theorem addDelegation (h : SameDelegations ds ds') :
    Option.Rel SameDelegations (Staking.addDelegation who amount ds)
      (Staking.addDelegation who amount ds') := by
  have hmem : (∃ d ∈ ds'.toList, d.delegator = who) ↔ ∃ d ∈ ds.toList, d.delegator = who :=
    exists_congr fun d => and_congr_left fun _ => h.2.mem_iff.symm
  by_cases hd : ∃ d ∈ ds.toList, d.delegator = who
  · rw [Staking.addDelegation, if_pos hd, Staking.addDelegation, if_pos (hmem.2 hd)]
    refine .some ⟨?_, perm_updateKey h.1 h.2⟩
    rw [BoundedVec.toList_updateKey, map_key_updateKey (by exact fun _ => rfl)]
    exact h.1
  · rw [Staking.addDelegation, if_neg hd, Staking.addDelegation, if_neg (mt hmem.1 hd)]
    refine rel_imp (BoundedVec.rel_tryPush h.2.length_eq) fun v w hvw => ⟨?_, ?_⟩
    · rw [hvw.1]
      exact nodup_append_singleton h.1 fun d hmem heq => hd ⟨d, hmem, heq⟩
    · rw [hvw.1, hvw.2]
      exact h.2.append_right _

/-- A delegation is found, and removed, on both sides or on neither. -/
theorem findFinIdx? (h : SameDelegations ds ds') :
    Option.Rel (fun i j => (ds.toList.get i).stake = (ds'.toList.get j).stake ∧
        SameDelegations (ds.remove i) (ds'.remove j))
      (ds.toList.findFinIdx? fun d => d.delegator = who)
      (ds'.toList.findFinIdx? fun d => d.delegator = who) := by
  have hfound : (ds.toList.findFinIdx? fun d => d.delegator = who).isSome ↔
      (ds'.toList.findFinIdx? fun d => d.delegator = who).isSome := by
    rw [findFinIdx?_isSome, findFinIdx?_isSome, (h.2.map Delegation.delegator).mem_iff]
  cases hi : ds.toList.findFinIdx? fun d => d.delegator = who with
  | none =>
    rw [hi] at hfound
    rw [Option.not_isSome_iff_eq_none.1 (mt hfound.2 Bool.false_ne_true)]
    exact .none
  | some i =>
    obtain ⟨j, hj⟩ := Option.isSome_iff_exists.1 (hfound.1 (Option.isSome_of_eq_some hi))
    have hget : some (ds'.toList.get j) = some (ds.toList.get i) := by
      rw [← findKey_of_findFinIdx? hi, ← findKey_of_findFinIdx? hj, h.findKey_eq]
    rw [hj]
    refine .some ⟨congrArg Delegation.stake (Option.some.inj hget).symm, ?_⟩
    rw [SameDelegations, BoundedVec.toList_remove, BoundedVec.toList_remove,
      eraseIdx_of_findFinIdx? hi, eraseIdx_of_findFinIdx? hj]
    exact ⟨h.1.sublist (List.eraseP_sublist.map _), perm_eraseKey h.1 h.2⟩

end SameDelegations

namespace State

/-- Two states that differ in the order of the records, of the delegations behind each
    candidate, and of the events of the block only. -/
structure Alike (s t : State T AccountId) : Prop where
  keys : s.UniqueKeys
  records : s.proposedCandidates.toList.Perm t.proposedCandidates.toList
  delegations : ∀ k, Option.Rel SameDelegations (s.delegations.lookup k) (t.delegations.lookup k)
  frame : s.Frame t
  currency : t.currency = s.currency
  events : s.events.Perm t.events

namespace Alike

theorem keys_right (h : s.Alike t) : t.UniqueKeys := (h.records.map _).nodup_iff.1 h.keys

theorem candidate?_eq (h : s.Alike t) (a : AccountId) : t.candidate? a = s.candidate? a :=
  findKey_perm h.keys h.records

/-! ### Writes -/

theorem withRecords {p q : BoundedVec (CandidateInfo AccountId) T.maxCandidates} (h : s.Alike t)
    (hp : (p.toList.map CandidateInfo.who).Nodup) (hpq : p.toList.Perm q.toList) :
    ({ s with proposedCandidates := p } : State T AccountId).Alike
      { t with proposedCandidates := q } :=
  { h with keys := hp, records := hpq, frame := { h.frame with } }

theorem withCurrency (h : s.Alike t) (currency : Ledger AccountId T.maxBalance) :
    ({ s with currency } : State T AccountId).Alike { t with currency } :=
  { h with frame := { h.frame with }, currency := rfl }

theorem withDelegations {m m' : StorageMap AccountId (DelegationList T AccountId)}
    (h : s.Alike t) (hm : ∀ k, Option.Rel SameDelegations (m.lookup k) (m'.lookup k)) :
    ({ s with delegations := m } : State T AccountId).Alike { t with delegations := m' } :=
  { h with frame := { h.frame with }, delegations := hm }

theorem depositEvent (h : s.Alike t) (e : Event AccountId) :
    (s.depositEvent e).Alike (t.depositEvent e) :=
  { h with frame := { h.frame with }, events := h.events.append_right _ }

theorem updateCandidate {f : CandidateInfo AccountId → CandidateInfo AccountId} (h : s.Alike t)
    (hf : ∀ c, (f c).who = c.who) : (s.updateCandidate a f).Alike (t.updateCandidate a f) :=
  h.withRecords ((uniqueKeys_updateCandidate hf).2 h.keys) (perm_updateKey h.keys h.records)

theorem sortProposedCandidates (h : s.Alike t) :
    s.sortProposedCandidates.Alike t.sortProposedCandidates :=
  h.withRecords (uniqueKeys_sortProposedCandidates.2 h.keys)
    ((s.proposedCandidates.perm_sortBy _).trans
      (h.records.trans (t.proposedCandidates.perm_sortBy _).symm))

theorem removeFromWaiting (h : s.Alike t) :
    (s.removeFromWaiting a).Alike (t.removeFromWaiting a) :=
  { h with
    frame := { h.frame with
      waitingCandidates := congrArg (BoundedVec.retain · _) h.frame.waitingCandidates } }

end Alike

end State

/-! ### The calls -/

section

variable {newBond bond : ℕ} {offline : Bool}

theorem lockstep_reserve : Lockstep State.Alike (fun _ _ => True)
    (reserve who value : CallM T AccountId Unit) (reserve who value) :=
  lockstep_get.bind fun s t h => by
    rw [h.currency]
    exact (lockstep_okOr_eq rfl).bind fun currency _ hc =>
      lockstep_modify fun _ _ h => hc ▸ h.withCurrency currency

theorem lockstep_unreserve : Lockstep State.Alike (fun _ _ => True)
    (unreserve who value : CallM T AccountId Unit) (unreserve who value) :=
  lockstep_modify fun s t h => by
    rw [h.currency]
    exact h.withCurrency _

theorem lockstep_depositEvent (e : Event AccountId) : Lockstep State.Alike (fun _ _ => True)
    (modify (State.depositEvent · e) : CallM T AccountId PUnit) (modify (State.depositEvent · e)) :=
  lockstep_modify fun _ _ h => h.depositEvent e

theorem lockstep_sort : Lockstep State.Alike (fun _ _ => True)
    (modify State.sortProposedCandidates : CallM T AccountId PUnit)
    (modify State.sortProposedCandidates) :=
  lockstep_modify fun _ _ h => h.sortProposedCandidates

/-- Writing a record now. -/
theorem lockstep_write {f : ℕ → CandidateInfo AccountId → CandidateInfo AccountId}
    (hf : ∀ now c, (f now c).who = c.who) : Lockstep State.Alike (fun _ _ => True)
      (modify fun s => s.updateCandidate who (f s.blockNumber) : CallM T AccountId PUnit)
      (modify fun s => s.updateCandidate who (f s.blockNumber)) :=
  lockstep_modify fun s t h => by
    rw [h.frame.blockNumber]
    exact h.updateCandidate (hf _)

theorem lockstep_findCandidate : Lockstep State.Alike Eq
    (findCandidate who : CallM T AccountId _) (findCandidate who) :=
  lockstep_get.bind fun _ _ h => lockstep_okOr_eq (h.candidate?_eq who).symm

theorem lockstep_ensureOutOfPipeline : Lockstep State.Alike (fun _ _ => True)
    (ensureOutOfPipeline who : CallM T AccountId Unit) (ensureOutOfPipeline who) :=
  lockstep_get.bind fun s t h => by
    have hcurrent : t.isCurrentValidator who = s.isCurrentValidator who := by
      rw [State.isCurrentValidator, State.isCurrentValidator, State.currentValidators,
        h.frame.session, State.currentValidators]
    rw [h.frame.waitingCandidates, h.frame.invulnerables, hcurrent]
    exact (lockstep_ensure Iff.rfl).bind fun _ _ _ => (lockstep_ensure Iff.rfl).bind fun _ _ _ =>
      (lockstep_ensure Iff.rfl).mono fun _ _ _ => trivial

theorem lockstep_ensureBondAllowed : Lockstep State.Alike (fun _ _ => True)
    (ensureBondAllowed who newBond : CallM T AccountId Unit) (ensureBondAllowed who newBond) :=
  lockstep_ite Iff.rfl (fun _ => lockstep_ensureOutOfPipeline) fun _ =>
    (lockstep_ensure Iff.rfl).mono fun _ _ _ => trivial

theorem lockstep_moveBond : Lockstep State.Alike (fun _ _ => True)
    (moveBond who bond newBond : CallM T AccountId Unit) (moveBond who bond newBond) := by
  refine lockstep_ite Iff.rfl (fun _ => ?_) fun _ =>
    lockstep_ite Iff.rfl (fun _ => lockstep_unreserve) fun _ => lockstep_pure trivial
  refine lockstep_get.bind fun s t h => ?_
  rw [h.currency]
  exact (lockstep_ensure Iff.rfl).bind fun _ _ _ => lockstep_reserve

theorem lockstep_recomputeTotalStake : Lockstep State.Alike (fun _ _ => True)
    (recomputeTotalStake candidate : CallM T AccountId Unit) (recomputeTotalStake candidate) := by
  refine lockstep_get.bind fun s t h => ?_
  have htotal : (s.delegations.lookup candidate).map (fun ds => sumStakes T ds.toList) =
      (t.delegations.lookup candidate).map fun ds => sumStakes T ds.toList :=
    map_eq_of_rel (h.delegations candidate) fun _ _ hds => hds.sumStakes_eq.symm
  rw [htotal]
  refine lockstep_findCandidate.bind fun _ _ _ => ?_
  exact (lockstep_write (f := fun now c => { c with totalStake := _, lastUpdated := now })
    fun _ _ => rfl).bind fun _ _ _ => lockstep_sort

theorem lockstep_registerCandidate (origin : RawOrigin AccountId) :
    Lockstep State.Alike (fun _ _ => True)
      (registerCandidate origin : CallM T AccountId Unit) (registerCandidate origin) := by
  refine (lockstep_ensureSigned origin).bind fun who _ hwho => ?_
  subst hwho
  refine lockstep_get.bind fun s t h => ?_
  have hmem : (∃ c ∈ s.proposedCandidates.toList, c.who = who) ↔
      ∃ c ∈ t.proposedCandidates.toList, c.who = who :=
    exists_congr fun c => and_congr_left fun _ => h.records.mem_iff
  refine (lockstep_ensure (not_congr hmem)).bind fun _ _ hnew => ?_
  rw [h.frame.blockNumber]
  refine (lockstep_okOr (BoundedVec.rel_tryPush h.records.length_eq)).bind fun p q hpq => ?_
  refine (lockstep_modify fun _ _ h' => h'.withRecords ?_ ?_).bind fun _ _ _ =>
    lockstep_depositEvent _
  · rw [hpq.1]
    exact nodup_append_singleton h.keys fun c hc heq => hnew ⟨c, hc, heq⟩
  · rw [hpq.1, hpq.2]
    exact h.records.append_right _

theorem lockstep_bondCandidate (origin : RawOrigin AccountId) :
    Lockstep State.Alike (fun _ _ => True)
      (bondCandidate origin newBond : CallM T AccountId Unit) (bondCandidate origin newBond) := by
  refine (lockstep_ensureSigned origin).bind fun who _ hwho => ?_
  subst hwho
  refine lockstep_ensureBondAllowed.bind fun _ _ _ => lockstep_findCandidate.bind fun c _ hc => ?_
  subst hc
  exact lockstep_moveBond.bind fun _ _ _ =>
    (lockstep_write (f := fun now c => { c with bond := newBond, lastUpdated := now })
      fun _ _ => rfl).bind fun _ _ _ => lockstep_sort.bind fun _ _ _ => lockstep_depositEvent _

theorem lockstep_setCommissionOfCandidate (origin : RawOrigin AccountId) (commission : UInt8) :
    Lockstep State.Alike (fun _ _ => True)
      (setCommissionOfCandidate origin commission : CallM T AccountId Unit)
      (setCommissionOfCandidate origin commission) := by
  refine (lockstep_ensureSigned origin).bind fun who _ hwho => ?_
  subst hwho
  refine (lockstep_ensure Iff.rfl).bind fun _ _ _ => lockstep_findCandidate.bind fun _ _ _ => ?_
  exact (lockstep_write (f := fun now c => { c with commission, lastUpdated := now })
    fun _ _ => rfl).bind fun _ _ _ => lockstep_depositEvent _

theorem lockstep_stakeCandidate (origin : RawOrigin AccountId) :
    Lockstep State.Alike (fun _ _ => True)
      (stakeCandidate origin candidate amount : CallM T AccountId Unit)
      (stakeCandidate origin candidate amount) := by
  refine (lockstep_ensureSigned origin).bind fun who _ hwho => ?_
  subst hwho
  refine (lockstep_ensure Iff.rfl).bind fun _ _ _ => lockstep_get.bind fun s t h => ?_
  have hmem : (∃ c ∈ s.proposedCandidates.toList, c.who = candidate) ↔
      ∃ c ∈ t.proposedCandidates.toList, c.who = candidate :=
    exists_congr fun c => and_congr_left fun _ => h.records.mem_iff
  refine (lockstep_ensure hmem).bind fun _ _ _ => ?_
  rw [h.currency]
  refine (lockstep_ensure Iff.rfl).bind fun _ _ _ => lockstep_reserve.bind fun _ _ _ => ?_
  refine lockstep_get.bind fun s t h => ?_
  have hold : SameDelegations ((s.delegations.lookup candidate).getD .empty)
      ((t.delegations.lookup candidate).getD .empty) :=
    getD_of_rel (h.delegations candidate) ⟨List.nodup_nil, .nil⟩
  refine (lockstep_okOr hold.addDelegation).bind fun ds ds' hds => ?_
  refine (lockstep_modify fun _ _ h' => h'.withDelegations fun k => ?_).bind fun _ _ _ =>
    lockstep_recomputeTotalStake.bind fun _ _ _ => lockstep_depositEvent _
  rw [StorageMap.lookup_insert_eq, StorageMap.lookup_insert_eq]
  split
  · exact .some hds
  · exact h'.delegations k

theorem lockstep_unstakeCandidate (origin : RawOrigin AccountId) :
    Lockstep State.Alike (fun _ _ => True)
      (unstakeCandidate origin candidate : CallM T AccountId Unit)
      (unstakeCandidate origin candidate) := by
  refine (lockstep_ensureSigned origin).bind fun who _ hwho => ?_
  subst hwho
  refine lockstep_get.bind fun s t h => ?_
  refine (lockstep_okOr (h.delegations candidate)).bind fun ds ds' hds => ?_
  refine (lockstep_okOr hds.findFinIdx?).bind fun i j hij => ?_
  rw [hij.1]
  refine (lockstep_modify fun _ _ h' => h'.withDelegations fun k => ?_).bind fun _ _ _ =>
    lockstep_unreserve.bind fun _ _ _ =>
      lockstep_recomputeTotalStake.bind fun _ _ _ => lockstep_depositEvent _
  -- The lists are emptied, and removed, together.
  rw [hij.2.2.isEmpty_eq]
  split
  · rw [StorageMap.lookup_erase_eq, StorageMap.lookup_erase_eq]
    split
    · exact .none
    · exact h'.delegations k
  · rw [StorageMap.lookup_insert_eq, StorageMap.lookup_insert_eq]
    split
    · exact .some hij.2
    · exact h'.delegations k

theorem lockstep_setOffline (offline : Bool) : Lockstep State.Alike (fun _ _ => True)
    (setOffline who offline : CallM T AccountId Unit) (setOffline who offline) :=
  lockstep_findCandidate.bind fun _ _ _ =>
    lockstep_write (f := fun now c => { c with offline, lastUpdated := now }) fun _ _ => rfl

theorem lockstep_offlineCandidate (origin : RawOrigin AccountId) :
    Lockstep State.Alike (fun _ _ => True)
      (offlineCandidate origin : CallM T AccountId Unit) (offlineCandidate origin) := by
  refine (lockstep_ensureSigned origin).bind fun who _ hwho => ?_
  subst hwho
  exact (lockstep_setOffline true).bind fun _ _ _ => lockstep_sort.bind fun _ _ _ =>
    lockstep_depositEvent _

theorem lockstep_onlineCandidate (origin : RawOrigin AccountId) :
    Lockstep State.Alike (fun _ _ => True)
      (onlineCandidate origin : CallM T AccountId Unit) (onlineCandidate origin) := by
  refine (lockstep_ensureSigned origin).bind fun who _ hwho => ?_
  subst hwho
  exact (lockstep_setOffline false).bind fun _ _ _ => lockstep_sort.bind fun _ _ _ =>
    lockstep_depositEvent _

theorem lockstep_leaveCandidate (origin : RawOrigin AccountId) :
    Lockstep State.Alike (fun _ _ => True)
      (leaveCandidate origin : CallM T AccountId Unit) (leaveCandidate origin) := by
  refine (lockstep_ensureSigned origin).bind fun who _ hwho => ?_
  subst hwho
  refine lockstep_findCandidate.bind fun c _ hc => ?_
  subst hc
  exact (lockstep_ensure Iff.rfl).bind fun _ _ _ => lockstep_ensureOutOfPipeline.bind fun _ _ _ =>
    (lockstep_write (f := fun now c => { c with leaving := true, lastUpdated := now })
      fun _ _ => rfl).bind fun _ _ _ =>
        (lockstep_modify fun _ _ h => h.removeFromWaiting).bind fun _ _ _ =>
          lockstep_depositEvent _

theorem lockstep_bondCorrection (origin : RawOrigin AccountId) :
    Lockstep State.Alike (fun _ _ => True)
      (bondCorrection origin value : CallM T AccountId Unit) (bondCorrection origin value) := by
  refine (lockstep_ensureSigned origin).bind fun who _ hwho => ?_
  subst hwho
  refine lockstep_findCandidate.bind fun c _ hc => ?_
  subst hc
  exact (lockstep_ensure Iff.rfl).bind fun _ _ _ => lockstep_ensureOutOfPipeline.bind fun _ _ _ =>
    lockstep_unreserve.bind fun _ _ _ =>
      (lockstep_write (f := fun now c => { c with bond := 0, lastUpdated := now })
        fun _ _ => rfl).bind fun _ _ _ => lockstep_depositEvent _

/-- In two states that are alike, a call does the same. -/
theorem Call.lockstep (origin : RawOrigin AccountId) (call : Call AccountId) :
    Lockstep State.Alike (fun _ _ => True)
      (call.code origin : CallM T AccountId Unit) (call.code origin) := by
  cases call with
  | registerCandidate => exact lockstep_registerCandidate origin
  | bondCandidate newBond => exact lockstep_bondCandidate origin
  | setCommissionOfCandidate commission => exact lockstep_setCommissionOfCandidate origin commission
  | stakeCandidate candidate amount => exact lockstep_stakeCandidate origin
  | unstakeCandidate candidate => exact lockstep_unstakeCandidate origin
  | offlineCandidate => exact lockstep_offlineCandidate origin
  | onlineCandidate => exact lockstep_onlineCandidate origin
  | leaveCandidate => exact lockstep_leaveCandidate origin
  | bondCorrection frozenBalance => exact lockstep_bondCorrection origin

end

namespace State.Alike

/-- What other pallets do comes to the same. -/
theorem exec (h : s.Alike t) (tx : Tx AccountId) : (s.exec tx).Alike (t.exec tx) := by
  cases tx with
  | call origin call => exact ((call.lockstep origin).dispatch h).1
  | deposit | withdraw | grants =>
    rw [State.exec, State.exec, h.currency]
    exact h.withCurrency _
  | sessionKeys hasKeys =>
    have hsession : { t.session with hasKeys } = { s.session with hasKeys } :=
      congrArg (fun session : Session AccountId => { session with hasKeys }) h.frame.session
    exact { h with frame := { h.frame with session := hsession } }

/-! ### Blocks -/

theorem addActualAuthor (h : s.Alike t) (who : AccountId) :
    (s.addActualAuthor who).Alike (t.addActualAuthor who) := by
  rw [State.addActualAuthor, State.addActualAuthor, h.frame.actualAuthors]
  split
  · exact h
  · split
    · exact { h with frame := { h.frame with actualAuthors := rfl } }
    · exact h

theorem onInitialize (h : s.Alike t) (author : Option AccountId) :
    (s.onInitialize author).Alike (t.onInitialize author) := by
  cases author with
  | none => exact h
  | some who =>
    refine addActualAuthor ?_ who
    rw [recordAuthoredBlock, recordAuthoredBlock, h.frame.blockNumber]
    exact h.updateCandidate fun _ => rfl

theorem findAuthor_eq (h : s.Alike t) (index : Option ℕ) :
    t.findAuthor index = s.findAuthor index := by
  rw [findAuthor, h.frame.session, findAuthor]

theorem startBlock (h : s.Alike t) (index : Option ℕ) :
    (s.startBlock index).Alike (t.startBlock index) := by
  have hstart : ({ s with blockNumber := s.blockNumber + 1, events := [] } :
      State T AccountId).Alike { t with blockNumber := t.blockNumber + 1, events := [] } :=
    { h with
      frame := { h.frame with blockNumber := congrArg (· + 1) h.frame.blockNumber }
      events := .nil }
  rw [State.startBlock, State.startBlock, hstart.findAuthor_eq]
  exact hstart.onInitialize _

/-! ### Elections -/

theorem stakeBehind_eq (h : s.Alike t) (a : AccountId) : t.stakeBehind a = s.stakeBehind a := by
  rw [stakeBehind, h.candidate?_eq, stakeBehind]

theorem mayJoin_iff (h : s.Alike t) (a : AccountId) : t.MayJoin a ↔ s.MayJoin a := by
  simp only [MayJoin, h.candidate?_eq, h.frame.stale_iff, h.frame.desiredCandidates]

end State.Alike

namespace State

/-- No two accounts that may join the desired ones have the same stake behind them. -/
def Untied (s : State T AccountId) : Prop :=
  ∀ a b, s.MayJoin a → s.MayJoin b → s.stakeBehind a = s.stakeBehind b → a = b

/-- Without ties, the ranking depends on who may join, and on the stakes. -/
theorem Alike.ranking_eq (hs : (chain T AccountId).Reachable s)
    (ht : (chain T AccountId).Reachable t) (h : s.Alike t) (hu : s.Untied) :
    t.ranking = s.ranking := by
  have hks := h.keys
  have hkt := h.keys_right
  have hperm : t.ranking.Perm s.ranking :=
    (List.perm_ext_iff_of_nodup (nodup_ranking hkt) (nodup_ranking hks)).2 fun a => by
      rw [mem_ranking hkt, mem_ranking hks, h.mayJoin_iff]
  have hpair : t.ranking.Pairwise fun a b => s.stakeBehind b ≤ s.stakeBehind a := by
    have hpair := pairwise_ranking hkt (ranked_of_reachable ht)
    simpa only [h.stakeBehind_eq] using hpair
  refine hperm.eq_of_pairwise (fun a b ha hb hab hba => ?_) hpair
    (pairwise_ranking hks (ranked_of_reachable hs))
  exact hu a b ((mem_ranking hks).1 (hperm.mem_iff.1 ha)) ((mem_ranking hks).1 hb)
    (hba.antisymm hab)

/-- Without ties, a rotation does the same to both. -/
theorem Alike.rotateSession (hs : (chain T AccountId).Reachable s)
    (ht : (chain T AccountId).Reachable t) (h : s.Alike t) (hu : s.Untied) :
    s.rotateSession.Alike t.rotateSession := by
  have hselected : t.selected = s.selected := by
    rw [selected_eq, h.ranking_eq hs ht hu, room, h.frame.desiredCandidates, selected_eq, room]
  have hnext : t.nextInvulnerables = s.nextInvulnerables := by
    rw [nextInvulnerables, h.frame.waitingCandidates, h.frame.invulnerables, nextInvulnerables]
  have hrotate : t.rotateCandidate = s.rotateCandidate := by
    funext c
    rw [rotateCandidate, h.frame.mark, h.frame.waitingCandidates, hselected, hnext, rotateCandidate]
  have hkeys := uniqueKeys_rotateSession h.keys
  have hrecords : s.rotateSession.proposedCandidates.toList.Perm
      t.rotateSession.proposedCandidates.toList :=
    perm_of_findKey hkeys (uniqueKeys_rotateSession h.keys_right) fun a => by
      have hrow := candidate?_rotateSession (a := a) h.keys_right
      rw [h.candidate?_eq, hrotate, ← candidate?_rotateSession h.keys] at hrow
      exact hrow.symm
  obtain ⟨p, w, hps, hw, -⟩ := rotateSession_eq h.keys
  obtain ⟨q, v, hqt, hv, -⟩ := rotateSession_eq h.keys_right
  rw [hps] at hkeys hrecords ⊢
  rw [hqt] at hrecords ⊢
  have hwv : v = w := BoundedVec.ext (by rw [hv, hw, h.frame.desiredCandidates, hselected])
  exact { h with
    keys := hkeys
    records := hrecords
    frame := { h.frame with
      waitingCandidates := hwv
      invulnerables := hnext
      actualAuthors := rfl
      session := by rw [h.frame.session, hnext] } }

/-- In reachable states, where no empty list of delegations is kept, lists with the same
    delegations are. -/
theorem rel_lookup {k : AccountId} (hs : (chain T AccountId).Reachable s)
    (ht : (chain T AccountId).Reachable t) (h : (s.delegationsOf k).Perm (t.delegationsOf k)) :
    Option.Rel SameDelegations (s.delegations.lookup k) (t.delegations.lookup k) := by
  cases hds : s.delegations.lookup k with
  | none =>
    cases hds' : t.delegations.lookup k with
    | none => exact .none
    | some ds' =>
      rw [delegationsOf, hds, delegationsOf_of_lookup hds'] at h
      exact absurd h.nil_eq.symm (delegations_ne_nil_of_reachable ht hds')
  | some ds =>
    have hn := nodup_delegators_of_reachable hs k
    rw [delegationsOf_of_lookup hds] at h hn
    cases hds' : t.delegations.lookup k with
    | none =>
      rw [delegationsOf, hds'] at h
      exact absurd h.eq_nil (delegations_ne_nil_of_reachable hs hds)
    | some ds' =>
      rw [delegationsOf_of_lookup hds'] at h
      exact .some ⟨hn, h⟩

/-- What the signer of a call is told. -/
def tells (s : State T AccountId) : Step AccountId → List (Except (DispatchError Error) Unit)
  | .tx (.call origin call) => [report (call.code origin) s]
  | _ => []

/-- In two states that are alike, a step does the same, unless it is an election with
    ties. -/
theorem Alike.step (hs : (chain T AccountId).Reachable s) (ht : (chain T AccountId).Reachable t)
    (h : s.Alike t) (e : Step AccountId) (hu : e = .rotate → s.Untied) :
    (s.step e).Alike (t.step e) ∧ s.tells e = t.tells e := by
  cases e with
  | tx tx =>
    refine ⟨h.exec tx, ?_⟩
    cases tx with
    | call origin call => exact congrArg ([·]) ((call.lockstep origin).dispatch h).2
    | _ => rfl
  | block index => exact ⟨h.startBlock index, rfl⟩
  | rotate => exact ⟨h.rotateSession hs ht (hu rfl), rfl⟩

end State

/-- Two reachable states that differ in the orders of their lists only cannot be told apart:
    whatever happens, they stay so, and tell the callers the same, as long as no election has
    ties. -/
theorem indistinguishable_run (hs : (chain T AccountId).Reachable s)
    (ht : (chain T AccountId).Reachable t) (h : s.Alike t) {es : List (Step AccountId)}
    (hes : (chain T AccountId).Along (fun s e => e = .rotate → s.Untied) s es) :
    ((chain T AccountId).run s es).Alike ((chain T AccountId).run t es) ∧
      (chain T AccountId).log State.tells s es = (chain T AccountId).log State.tells t es :=
  System.lockstep_run hs ht h hes fun _ _ e hs ht hu h => h.step hs ht e hu

/-- Two candidates that registered in two orders, one of which is elected next. -/
theorem indistinguishable_development :
    let s := (chain Config.runtime Keyring).run developmentState
      [.signed .bob .registerCandidate, .signed .bobStash .registerCandidate]
    let t := (chain Config.runtime Keyring).run developmentState
      [.signed .bobStash .registerCandidate, .signed .bob .registerCandidate]
    let es := [.signed .bob (.bondCandidate (10 ^ 14)), .rotate,
      .signed .bobStash (.stakeCandidate .bob 5), .signed .bobStash .leaveCandidate]
    ((chain Config.runtime Keyring).run s es).Alike ((chain Config.runtime Keyring).run t es) ∧
      (chain Config.runtime Keyring).log State.tells s es =
        (chain Config.runtime Keyring).log State.tells t es := by
  intro s t es
  have halike : s.Alike t := {
    keys := by decide
    records := by decide
    delegations := fun k => .none
    frame := ⟨rfl, rfl, rfl, rfl, rfl, rfl⟩
    currency := rfl
    events := by decide }
  refine indistinguishable_run ((System.Reachable.init developmentState_mem).run _)
    ((System.Reachable.init developmentState_mem).run _) halike
    ⟨nofun, fun _ a b => ?_, nofun, nofun, trivial⟩
  cases a <;> cases b <;> decide

end Xode.Staking
