import Xode.Staking.Ranking
import Xode.Staking.Traces

/-!
# Permutations

The delegations and withdrawals of one block, each of another account, in two orders. Each
of them depends on the position of its signer only (`State.SamePosition`), which no
other touches, and so does the same in both orders. What the records of the candidates say
in the end depends on the delegations behind them then, and not on how these came about
(`candidate?_afterCalls`); the last call sorts them. The two orders thus lead to the
same storage up to candidates that rank the same (`agreesUpToTies_of_perm`), as long as
all calls succeed in both.
-/

namespace Xode.Staking

variable {T : Config} {AccountId : Type} [DecidableEq AccountId]
  {s s' t t' u u' : State T AccountId} {a k who : AccountId} {call : Call AccountId}
  {es es' : List (AccountId × Call AccountId)}

/-! ### Positions -/

/-- What a call of `a` takes its effect on `a` from: the balances of `a`, its bond and its
    delegations. -/
structure State.SamePosition (t : State T AccountId) (a : AccountId) (u : State T AccountId) :
    Prop where
  account : t.currency.account a = u.currency.account a
  bondOf : t.bondOf a = u.bondOf a
  findKey_eq : ∀ k, findKey Delegation.delegator a (t.delegationsOf k) =
    findKey Delegation.delegator a (u.delegationsOf k)

namespace State.SamePosition

theorem refl : s.SamePosition a s := ⟨rfl, rfl, fun _ => rfl⟩

theorem symm (h : t.SamePosition a u) : u.SamePosition a t :=
  ⟨h.account.symm, h.bondOf.symm, fun k => (h.findKey_eq k).symm⟩

theorem trans (h : s.SamePosition a t) (h' : t.SamePosition a u) : s.SamePosition a u :=
  ⟨h.account.trans h'.account, h.bondOf.trans h'.bondOf,
    fun k => (h.findKey_eq k).trans (h'.findKey_eq k)⟩

end State.SamePosition

theorem findKey_withStake_self {l : List (Delegation AccountId)} {amount : ℕ} :
    findKey Delegation.delegator a (withStake T a amount l) =
      some ((findKey Delegation.delegator a l).elim ⟨a, amount⟩ fun d =>
        { d with stake := satAdd T d.stake amount }) := by
  rw [withStake]
  split
  · next ha =>
    obtain ⟨d, hd⟩ := Option.isSome_iff_exists.1 (findKey_isSome.2 ha)
    rw [findKey_updateKey (by exact fun _ => rfl), if_pos rfl, hd]
    rfl
  · next ha =>
    rw [findKey_append_singleton, findKey_eq_none.2 ha]
    simp

/-- What a call makes of the delegation of its signer depends on that delegation only. -/
theorem Call.findKey_redelegate_congr {l l' : List (Delegation AccountId)}
    (hl : (l.map Delegation.delegator).Nodup) (hl' : (l'.map Delegation.delegator).Nodup)
    (h : findKey Delegation.delegator a l = findKey Delegation.delegator a l') :
    findKey Delegation.delegator a (call.redelegate T a k l) =
      findKey Delegation.delegator a (call.redelegate T a k l') := by
  cases call with
  | stakeCandidate candidate amount =>
    simp only [Call.redelegate]
    split
    · rw [findKey_withStake_self, findKey_withStake_self, h]
    · exact h
  | unstakeCandidate candidate =>
    simp only [Call.redelegate]
    split
    · rw [eraseKey_eq_filter hl, eraseKey_eq_filter hl', findKey_eq_none.2 (by simp),
        findKey_eq_none.2 (by simp)]
    · exact h
  | _ => exact h

/-- A call in two states with the same position of its signer leads to the same. -/
theorem Effect.samePosition (ht : Effect t a call t') (hu : Effect u a call u')
    (hrt : (chain T AccountId).Reachable t) (hru : (chain T AccountId).Reachable u)
    (h : t.SamePosition a u) : t'.SamePosition a u' where
  account := ht.account_congr hu h.account h.bondOf h.findKey_eq
  bondOf := by
    rw [ht.bondOf (uniqueKeys_of_reachable hrt), hu.bondOf (uniqueKeys_of_reachable hru), h.bondOf]
    cases call <;> rfl
  findKey_eq k := by
    rw [ht.delegationsOf, hu.delegationsOf]
    exact Call.findKey_redelegate_congr (nodup_delegators_of_reachable hrt k)
      (nodup_delegators_of_reachable hru k) (h.findKey_eq k)

/-- The calls of others leave the position of `a` alone. -/
theorem Effect.samePosition_of_ne (h : Effect s who call s') (hk : s.UniqueKeys) (ha : a ≠ who) :
    s'.SamePosition a s where
  account := h.account_of_ne ha
  bondOf := by
    rw [h.bondOf hk]
    cases call <;> simp [ha]
  findKey_eq k := by rw [h.delegationsOf, Call.findKey_redelegate_of_ne ha.symm]

/-! ### Runs of calls -/

/-- The steps of some calls, each with its signer. -/
def signedSteps (es : List (AccountId × Call AccountId)) : List (Step AccountId) :=
  es.map fun p => .signed p.1 p.2

/-- All of the calls succeed, one after the other. -/
def State.Succeed (s : State T AccountId) (es : List (AccountId × Call AccountId)) : Prop :=
  (chain T AccountId).Along (fun s e => s.succeeds e) s (signedSteps es)

/-- The state after some calls. -/
def State.afterCalls (s : State T AccountId) (es : List (AccountId × Call AccountId)) :
    State T AccountId := (chain T AccountId).run s (signedSteps es)

theorem reachable_afterCalls (hs : (chain T AccountId).Reachable s)
    (es : List (AccountId × Call AccountId)) : (chain T AccountId).Reachable (s.afterCalls es) :=
  hs.run _

theorem State.afterCalls_append :
    s.afterCalls (es ++ es') = (s.afterCalls es).afterCalls es' := by
  simp [afterCalls, signedSteps]

theorem State.succeed_append :
    s.Succeed (es ++ es') ↔ s.Succeed es ∧ (s.afterCalls es).Succeed es' := by
  rw [Succeed, signedSteps, List.map_append, System.along_append]
  rfl

/-- The first of some calls that succeed. -/
theorem State.Succeed.cons (h : s.Succeed ((a, call) :: es))
    (hs : (chain T AccountId).Reachable s) :
    ∃ s₁, (chain T AccountId).Reachable s₁ ∧ Effect s a call s₁ ∧ s₁.Succeed es ∧
      s.afterCalls ((a, call) :: es) = s₁.afterCalls es :=
  ⟨s.step (.signed a call), hs.step (Step.signed a call), State.effect_of_succeeds h.1, h.2, rfl⟩

/-! ### Positions after a run -/

theorem samePosition_afterCalls_of_notMem (hs : (chain T AccountId).Reachable s)
    (hall : s.Succeed es) (ha : a ∉ es.map Prod.fst) : (s.afterCalls es).SamePosition a s := by
  induction es generalizing s with
  | nil => exact .refl
  | cons p es ih =>
    rw [List.map_cons, List.mem_cons, not_or] at ha
    obtain ⟨s₁, hs₁, he, hall₁, hafter⟩ := hall.cons hs
    rw [hafter]
    exact (ih hs₁ hall₁ ha.2).trans (he.samePosition_of_ne (uniqueKeys_of_reachable hs) ha.1)

/-- If each account signs once, the call of `a` finds its position as it was, and leaves
    it as it is in the end. -/
theorem exists_effect_of_mem (hs : (chain T AccountId).Reachable s) (hall : s.Succeed es)
    (hes : (es.map Prod.fst).Nodup) (hmem : (a, call) ∈ es) :
    ∃ t t', (chain T AccountId).Reachable t ∧ Effect t a call t' ∧ t.SamePosition a s ∧
      (s.afterCalls es).SamePosition a t' := by
  obtain ⟨es₁, es₂, rfl⟩ := List.append_of_mem hmem
  obtain ⟨hall₁, hall₂⟩ := State.succeed_append.1 hall
  rw [List.map_append, List.map_cons, List.nodup_middle, List.nodup_cons, List.mem_append,
    not_or] at hes
  have ht := reachable_afterCalls hs es₁
  obtain ⟨t', ht', he, hall₂, hafter⟩ := hall₂.cons ht
  refine ⟨_, t', ht, he, samePosition_afterCalls_of_notMem hs hall₁ hes.1.1, ?_⟩
  rw [State.afterCalls_append, hafter]
  exact samePosition_afterCalls_of_notMem ht' hall₂ hes.1.2

/-- In two orders of the same calls, each of another account, every account ends up in the
    same position. -/
theorem samePosition_of_perm (hs : (chain T AccountId).Reachable s) (hes : es.Perm es')
    (hsigners : (es.map Prod.fst).Nodup) (hall : s.Succeed es) (hall' : s.Succeed es')
    (a : AccountId) : (s.afterCalls es).SamePosition a (s.afterCalls es') := by
  have hsigners' : (es'.map Prod.fst).Nodup := (hes.map _).nodup_iff.1 hsigners
  by_cases ha : a ∈ es.map Prod.fst
  · obtain ⟨⟨a, call⟩, hmem, rfl⟩ := List.mem_map.1 ha
    obtain ⟨t, t', hrt, ht, hst, ht'⟩ := exists_effect_of_mem hs hall hsigners hmem
    obtain ⟨u, u', hru, hu, hsu, hu'⟩ :=
      exists_effect_of_mem hs hall' hsigners' (hes.mem_iff.1 hmem)
    exact (ht'.trans (ht.samePosition hu hrt hru (hst.trans hsu.symm))).trans hu'.symm
  · have ha' : a ∉ es'.map Prod.fst := fun h => ha ((hes.map Prod.fst).mem_iff.2 h)
    exact (samePosition_afterCalls_of_notMem hs hall ha).trans
      (samePosition_afterCalls_of_notMem hs hall' ha').symm

/-! ### Delegations and records after a run -/

/-- Whether one of the calls writes the delegations behind `k`. -/
def Restaked (k : AccountId) (es : List (AccountId × Call AccountId)) : Prop :=
  ∃ p ∈ es, p.2.restakes k

/-- Calls that write no delegations behind `k` leave those as they are. -/
theorem delegationsOf_afterCalls (hs : (chain T AccountId).Reachable s) (hall : s.Succeed es)
    (hk : ¬Restaked k es) : (s.afterCalls es).delegationsOf k = s.delegationsOf k := by
  induction es generalizing s with
  | nil => rfl
  | cons p es ih =>
    rw [Restaked, List.exists_mem_cons_iff, not_or] at hk
    obtain ⟨s₁, hs₁, he, hall₁, hafter⟩ := hall.cons hs
    rw [hafter]
    exact (ih hs₁ hall₁ hk.2).trans (he.delegationsOf_eq hk.1)

/-- A delegation or a withdrawal writes the record of its candidate. -/
theorem Effect.candidate?_of_restakes (h : Effect s who call s') (hk : s.UniqueKeys)
    (hcall : ∃ x, call.restakes x) (k : AccountId) :
    s'.candidate? k =
      if call.restakes k then
        (s.candidate? k).map fun c =>
          { c with totalStake := s'.totalDelegated k, lastUpdated := s.blockNumber }
      else s.candidate? k := by
  have hc := h.candidate? hk k
  rw [← h.frame.blockNumber]
  cases call with
  | stakeCandidate candidate | unstakeCandidate candidate =>
    by_cases hk' : k = candidate
    · subst hk'
      exact (hc.trans (if_pos rfl)).trans (if_pos (decide_eq_true rfl)).symm
    · have hne : ¬decide (candidate = k) = true := by simpa using Ne.symm hk'
      exact (hc.trans (if_neg hk')).trans (if_neg hne).symm
  | _ => obtain ⟨x, hx⟩ := hcall; cases hx

/-- What delegations and withdrawals leave in the record of `k` depends on the delegations
    behind `k` in the end only, if any of them writes these at all. -/
theorem candidate?_afterCalls (hs : (chain T AccountId).Reachable s) (hall : s.Succeed es)
    (hes : ∀ p ∈ es, ∃ x, p.2.restakes x) :
    (Restaked k es → (s.afterCalls es).candidate? k = (s.candidate? k).map fun c =>
      { c with totalStake := (s.afterCalls es).totalDelegated k, lastUpdated := s.blockNumber }) ∧
    (¬Restaked k es → (s.afterCalls es).candidate? k = s.candidate? k) := by
  induction es generalizing s with
  | nil => exact ⟨fun ⟨_, hp, _⟩ => absurd hp List.not_mem_nil, fun _ => rfl⟩
  | cons p es ih =>
    obtain ⟨who, call⟩ := p
    rw [List.forall_mem_cons] at hes
    obtain ⟨s₁, hs₁, he, hall₁, hafter⟩ := hall.cons hs
    have hc := he.candidate?_of_restakes (uniqueKeys_of_reachable hs) hes.1 k
    obtain ⟨hlater, hnever⟩ := ih hs₁ hall₁ hes.2
    rw [Restaked, List.exists_mem_cons_iff, hafter]
    by_cases hrest : Restaked k es
    · -- A later call overwrites what the first one wrote.
      refine ⟨fun _ => ?_, fun h => absurd (.inr hrest) h⟩
      rw [hlater hrest, hc, he.frame.blockNumber]
      split
      · rw [Option.map_map]
        rfl
      · rfl
    · rw [hnever hrest, hc]
      refine ⟨fun h => ?_, fun h => if_neg fun hk => h (.inl hk)⟩
      rw [if_pos (h.resolve_right hrest),
        State.totalDelegated_congr (delegationsOf_afterCalls hs₁ hall₁ hrest)]

/-! ### Two orders -/

/-- Two states with the same balances, the same stakes, the same records, and the same order
    of any two records that do not rank the same. -/
structure State.AgreesUpToTies (t u : State T AccountId) : Prop where
  free : ∀ a, t.currency.freeBalance a = u.currency.freeBalance a
  reserved : ∀ a, t.currency.reservedBalance a = u.currency.reservedBalance a
  stakes : ∀ candidate delegator,
    findKey Delegation.delegator delegator (t.delegationsOf candidate) =
      findKey Delegation.delegator delegator (u.delegationsOf candidate)
  candidate : ∀ who, t.candidate? who = u.candidate? who
  records : t.proposedCandidates.toList.Perm u.proposedCandidates.toList
  order : ∀ x y, rankCmp T x y ≠ .eq →
    (Precedes t.proposedCandidates.toList x y ↔ Precedes u.proposedCandidates.toList x y)

/-- The last of some delegations and withdrawals sorts the records. -/
theorem pairwise_afterCalls (hs : (chain T AccountId).Reachable s) (hne : es ≠ [])
    (hall : s.Succeed es) (hes : ∀ p ∈ es, ∃ x, p.2.restakes x) :
    (s.afterCalls es).proposedCandidates.toList.Pairwise fun x y => (rankCmp T x y).isLE := by
  obtain ⟨es, ⟨who, call⟩, rfl⟩ := (List.eq_nil_or_concat' es).resolve_left hne
  obtain ⟨hall₁, hall₂⟩ := State.succeed_append.1 hall
  obtain ⟨x, hx⟩ := hes _ (List.mem_append_right _ (List.mem_singleton_self _))
  obtain ⟨t, -, he, -, hafter⟩ := hall₂.cons (reachable_afterCalls hs es)
  have hlast : t.afterCalls [] = t := rfl
  rw [State.afterCalls_append, hafter, hlast]
  cases he with
  | stakeCandidate | unstakeCandidate => exact BoundedVec.pairwise_sortBy _ _
  | _ => cases hx

/-- From a reachable state, delegations and withdrawals of one block, each of another
    account, lead to the same in any two orders in which all of them succeed, up to the
    order of candidates that rank the same. -/
theorem agreesUpToTies_of_perm (hs : (chain T AccountId).Reachable s) (hes : es.Perm es')
    (hsigners : (es.map Prod.fst).Nodup) (hcalls : ∀ p ∈ es, ∃ k, p.2.restakes k)
    (hall : s.Succeed es) (hall' : s.Succeed es') :
    (s.afterCalls es).AgreesUpToTies (s.afterCalls es') := by
  have ht := reachable_afterCalls hs es
  have hu := reachable_afterCalls hs es'
  have hcalls' : ∀ p ∈ es', ∃ k, p.2.restakes k := fun p hp => hcalls p (hes.mem_iff.2 hp)
  have hposition := samePosition_of_perm hs hes hsigners hall hall'
  -- The same delegations are behind every candidate, maybe in another order.
  have hdel (k : AccountId) : (s.afterCalls es).totalDelegated k =
      (s.afterCalls es').totalDelegated k := by
    have hperm := perm_of_findKey (nodup_delegators_of_reachable ht k)
      (nodup_delegators_of_reachable hu k) fun a => (hposition a).findKey_eq k
    rw [State.totalDelegated, State.totalDelegated, sumStakes_eq, sumStakes_eq,
      (hperm.map Delegation.stake).sum_eq]
  have hrestaked (k : AccountId) : Restaked k es ↔ Restaked k es' :=
    exists_congr fun p => and_congr_left fun _ => hes.mem_iff
  have hcandidate (k : AccountId) :
      (s.afterCalls es).candidate? k = (s.afterCalls es').candidate? k := by
    obtain ⟨h₁, h₂⟩ := candidate?_afterCalls (k := k) hs hall hcalls
    obtain ⟨h₁', h₂'⟩ := candidate?_afterCalls (k := k) hs hall' hcalls'
    by_cases hk : Restaked k es
    · rw [h₁ hk, h₁' ((hrestaked k).1 hk), hdel]
    · rw [h₂ hk, h₂' (mt (hrestaked k).2 hk)]
  have hrecords := perm_of_findKey (uniqueKeys_of_reachable ht) (uniqueKeys_of_reachable hu)
    hcandidate
  refine ⟨fun a => congrArg Account.free (hposition a).account,
    fun a => congrArg Account.reserved (hposition a).account, fun k a => (hposition a).findKey_eq k,
    hcandidate, hrecords, fun x y hxy => ?_⟩
  by_cases hnil : es = []
  · subst hnil
    rw [hes.nil_eq]
  · have hnil' : es' ≠ [] := fun h => hnil (h ▸ hes).eq_nil
    rw [precedes_iff_of_pairwise (pairwise_afterCalls hs hnil hall hcalls) hxy,
      precedes_iff_of_pairwise (pairwise_afterCalls hs hnil' hall' hcalls') hxy, hrecords.mem_iff,
      hrecords.mem_iff]

open Keyring in
/-- Two delegations and a withdrawal, and the same backwards. -/
theorem agreesUpToTies_development :
    let s := (chain Config.runtime Keyring).run developmentState
      [.signed bob .registerCandidate, .signed alice .registerCandidate,
        .signed bobStash (.stakeCandidate bob 7), .block none]
    (s.afterCalls [(aliceStash, Call.stakeCandidate bob 5), (bobStash, Call.unstakeCandidate bob),
      (bob, Call.stakeCandidate alice 3)]).AgreesUpToTies
        (s.afterCalls [(bob, Call.stakeCandidate alice 3), (bobStash, Call.unstakeCandidate bob),
          (aliceStash, Call.stakeCandidate bob 5)]) :=
  agreesUpToTies_of_perm ((System.Reachable.init developmentState_mem).run _) (by decide)
    (by decide) (by
      simp only [List.forall_mem_cons, List.not_mem_nil, false_imp_iff, implies_true, and_true]
      exact ⟨⟨bob, rfl⟩, ⟨bob, rfl⟩, ⟨alice, rfl⟩⟩)
    ⟨by decide, by decide, by decide, trivial⟩ ⟨by decide, by decide, by decide, trivial⟩

end Xode.Staking
