import Xode.Staking.Alike
import Xode.Staking.Events
import Xode.Staking.Order
import Xode.Staking.Permutations

/-!
# Interleavings

The calls of one block come from accounts that do not wait for each other. In any two orders
in which all of them succeed, and that keep the order of the calls of each account, they lead
to the same balances, the same delegations, the same records, and the same events, each in
some order (`agrees_of_interleaving`).

What a call makes of what its signer has depends on that alone (`State.SameOwn`), and the
calls of the others leave it alone. Two things in a record are not its owner's: the stake
recorded, which comes from the delegations as they are in the end
(`recordedStake_afterCalls`), and the time of the last update, which all calls of a block set
to the same (`updatedAt_afterCalls`).
-/

namespace Xode.Staking

variable {T : Config} {AccountId : Type} [DecidableEq AccountId]
  {s s' t t' u u' : State T AccountId} {a k who : AccountId} {call : Call AccountId}
  {e : Step AccountId} {es es' : List (AccountId × Call AccountId)}

/-! ### What is an account's own -/

/-- A record apart from what the delegations of others write in it. -/
def CandidateInfo.own (c : CandidateInfo AccountId) : CandidateInfo AccountId :=
  { c with totalStake := 0, lastUpdated := 0 }

/-- What an account has of its own is the same in two states of one block: its position, and
    its record. -/
structure State.SameOwn (t : State T AccountId) (a : AccountId) (u : State T AccountId) : Prop where
  position : t.SamePosition a u
  record : (t.candidate? a).map CandidateInfo.own = (u.candidate? a).map CandidateInfo.own
  blockNumber : t.blockNumber = u.blockNumber

namespace State.SameOwn

theorem refl : s.SameOwn a s := ⟨.refl, rfl, rfl⟩

theorem symm (h : t.SameOwn a u) : u.SameOwn a t :=
  ⟨h.position.symm, h.record.symm, h.blockNumber.symm⟩

end State.SameOwn

/-- What a call writes in the record of its signer depends on what of it is its own. -/
theorem Call.own_record_congr {r r' : Option (CandidateInfo AccountId)}
    (h : r.map CandidateInfo.own = r'.map CandidateInfo.own)
    (hb : t.blockNumber = u.blockNumber) :
    (call.record t a r).map CandidateInfo.own = (call.record u a r').map CandidateInfo.own := by
  have hmap {f f' g : CandidateInfo AccountId → CandidateInfo AccountId}
      (hf : ∀ c, (f c).own = g c.own) (hf' : ∀ c, (f' c).own = g c.own) :
      (r.map f).map CandidateInfo.own = (r'.map f').map CandidateInfo.own := by
    have hr : (r.map f).map CandidateInfo.own = (r.map CandidateInfo.own).map g := by
      simp only [Option.map_map, Function.comp_def, hf]
    have hr' : (r'.map f').map CandidateInfo.own = (r'.map CandidateInfo.own).map g := by
      simp only [Option.map_map, Function.comp_def, hf']
    rw [hr, hr', h]
  cases call with
  | registerCandidate => rw [Call.record, Call.record, hb]
  | bondCandidate newBond =>
    exact hmap (g := fun c => { c with bond := newBond }) (fun _ => rfl) fun _ => rfl
  | setCommissionOfCandidate commission =>
    exact hmap (g := fun c => { c with commission }) (fun _ => rfl) fun _ => rfl
  | stakeCandidate | unstakeCandidate => exact hmap (g := id) (fun _ => rfl) fun _ => rfl
  | offlineCandidate =>
    exact hmap (g := fun c => { c with offline := true }) (fun _ => rfl) fun _ => rfl
  | onlineCandidate =>
    exact hmap (g := fun c => { c with offline := false }) (fun _ => rfl) fun _ => rfl
  | leaveCandidate =>
    exact hmap (g := fun c => { c with leaving := true }) (fun _ => rfl) fun _ => rfl
  | bondCorrection =>
    exact hmap (g := fun c => { c with bond := 0 }) (fun _ => rfl) fun _ => rfl

/-- A call in two states in which its signer has the same of its own leads to the same. -/
theorem Effect.sameOwn (ht : Effect t a call t') (hu : Effect u a call u')
    (hrt : (chain T AccountId).Reachable t) (hru : (chain T AccountId).Reachable u)
    (h : t.SameOwn a u) : t'.SameOwn a u' where
  position := ht.samePosition hu hrt hru h.position
  record := by
    rw [ht.candidate? (uniqueKeys_of_reachable hrt), hu.candidate? (uniqueKeys_of_reachable hru)]
    have hb : t'.blockNumber = u'.blockNumber := by
      rw [ht.frame.blockNumber, hu.frame.blockNumber, h.blockNumber]
    split
    · exact Call.own_record_congr h.record hb
    · exact h.record
  blockNumber := by rw [ht.frame.blockNumber, hu.frame.blockNumber, h.blockNumber]

/-- Of the record of `a`, the calls of others write nothing that is its own. -/
theorem Effect.own_of_ne (h : Effect s who call s') (hk : s.UniqueKeys) (ha : a ≠ who) :
    (s'.candidate? a).map CandidateInfo.own = (s.candidate? a).map CandidateInfo.own := by
  rw [h.candidate? hk]
  split
  · next htarget =>
    cases call with
    | stakeCandidate | unstakeCandidate => exact Option.map_map _ _ _
    | _ => exact absurd htarget ha
  · rfl

theorem Effect.sameOwn_of_ne (h : Effect s who call s') (hk : s.UniqueKeys) (ha : a ≠ who)
    (hsame : s.SameOwn a u) : s'.SameOwn a u where
  position := (h.samePosition_of_ne hk ha).trans hsame.position
  record := (h.own_of_ne hk ha).trans hsame.record
  blockNumber := h.frame.blockNumber.trans hsame.blockNumber

/-! ### Projections -/

/-- The calls of `a`. -/
def callsOf (a : AccountId) (es : List (AccountId × Call AccountId)) :
    List (AccountId × Call AccountId) := es.filter fun p => p.1 = a

/-- Each account signs the same calls in the same order. -/
def Interleaves (es es' : List (AccountId × Call AccountId)) : Prop :=
  ∀ a, callsOf a es = callsOf a es'

/-- The step is a call of `a`. -/
def Step.isOf (a : AccountId) : Step AccountId → Bool
  | .tx (.call (.signed who) _) => who = a
  | _ => false

theorem filter_isOf_signedSteps :
    (signedSteps es).filter (Step.isOf a) = signedSteps (callsOf a es) := by
  rw [signedSteps, List.filter_map]
  rfl

theorem Interleaves.perm (h : Interleaves es es') : es.Perm es' :=
  perm_of_filter_key Prod.fst h

theorem State.exists_effect_of_succeeds (h : s.succeeds e) :
    ∃ who call, e = .signed who call ∧ Effect s who call (s.step e) := by
  unfold succeeds at h
  split at h
  · exact ⟨_, _, rfl, effect_of_succeeds h⟩
  · cases h

/-- In two interleavings, every account ends up with the same of its own. -/
theorem sameOwn_of_interleaves (hs : (chain T AccountId).Reachable s) (hes : Interleaves es es')
    (hall : s.Succeed es) (hall' : s.Succeed es') (a : AccountId) :
    (s.afterCalls es).SameOwn a (s.afterCalls es') := by
  refine System.related_run (R := fun t u => t.SameOwn a u) hs hs .refl hall hall'
    (fun _ _ h => h.symm) (fun t u e ht _ hskip hok h => ?_) (fun t u e ht hu he hokt hoku h => ?_)
    (by rw [filter_isOf_signedSteps, filter_isOf_signedSteps, hes a])
  · obtain ⟨who, call, rfl, heff⟩ := State.exists_effect_of_succeeds hok
    exact heff.sameOwn_of_ne (uniqueKeys_of_reachable ht) (fun hw => hskip (decide_eq_true hw.symm))
      h
  · obtain ⟨who, call, rfl, heff⟩ := State.exists_effect_of_succeeds hokt
    obtain rfl : who = a := of_decide_eq_true he
    exact heff.sameOwn (State.effect_of_succeeds hoku) ht hu h

/-! ### What is not an account's own -/

namespace State

/-- The stake recorded for an account, `0` if it has no record. -/
def recordedStake (s : State T AccountId) (k : AccountId) : ℕ :=
  (s.candidate? k).elim 0 CandidateInfo.totalStake

/-- When the record of an account was last updated, `0` if there is none. -/
def updatedAt (s : State T AccountId) (k : AccountId) : ℕ :=
  (s.candidate? k).elim 0 CandidateInfo.lastUpdated

end State

/-- A call finds the record that it writes, unless it registers. -/
theorem Effect.register_or_some (h : Effect s who call s') :
    call = .registerCandidate ∧ s.candidate? who = none ∨
      ∃ c, s.candidate? (call.target who) = some c := by
  cases h with
  | registerCandidate hnew => exact .inl ⟨rfl, hnew⟩
  | bondCandidate hc | setCommissionOfCandidate hc | stakeCandidate _ hc | unstakeCandidate hc
  | offlineCandidate hc | onlineCandidate hc | leaveCandidate hc | bondCorrection hc =>
    exact .inr ⟨_, hc⟩

theorem Effect.recordedStake (h : Effect s who call s') (hk : s.UniqueKeys) (k : AccountId) :
    s'.recordedStake k = if call.restakes k then s'.totalDelegated k else s.recordedStake k := by
  rw [State.recordedStake, h.candidate? hk, State.recordedStake]
  by_cases hka : k = call.target who
  · subst hka
    rw [if_pos rfl]
    obtain ⟨rfl, hc⟩ | ⟨c, hc⟩ := h.register_or_some
    · exact (congrArg (Option.elim · 0 CandidateInfo.totalStake) hc).symm
    · rw [hc]
      cases call with
      | stakeCandidate | unstakeCandidate => exact (if_pos (decide_eq_true rfl)).symm
      | registerCandidate => cases h with | registerCandidate hnew => cases hnew.symm.trans hc
      | _ => rfl
  · rw [if_neg hka, if_neg fun hr => hka (Call.target_of_restakes hr).symm]

theorem Effect.updatedAt (h : Effect s who call s') (hk : s.UniqueKeys) (k : AccountId) :
    s'.updatedAt k = if k = call.target who then s.blockNumber else s.updatedAt k := by
  rw [State.updatedAt, h.candidate? hk, ← h.frame.blockNumber, State.updatedAt]
  split
  · next hka =>
    subst hka
    obtain ⟨rfl, -⟩ | ⟨c, hc⟩ := h.register_or_some
    · rfl
    · rw [hc]
      cases call <;> rfl
  · rfl

/-- The stake recorded in the end is that of the delegations in the end, if any of the calls
    writes these at all. -/
theorem recordedStake_afterCalls (hs : (chain T AccountId).Reachable s) (hall : s.Succeed es) :
    (Restaked k es → (s.afterCalls es).recordedStake k = (s.afterCalls es).totalDelegated k) ∧
      (¬Restaked k es → (s.afterCalls es).recordedStake k = s.recordedStake k) := by
  induction es generalizing s with
  | nil => exact ⟨fun ⟨_, hp, _⟩ => absurd hp List.not_mem_nil, fun _ => rfl⟩
  | cons p es ih =>
    obtain ⟨s₁, hs₁, he, hall₁, hafter⟩ := hall.cons hs
    obtain ⟨hlater, hnever⟩ := ih hs₁ hall₁
    have hfirst := he.recordedStake (uniqueKeys_of_reachable hs) k
    rw [Restaked, List.exists_mem_cons_iff, hafter]
    by_cases hrest : Restaked k es
    · exact ⟨fun _ => hlater hrest, fun h => absurd (.inr hrest) h⟩
    · rw [hnever hrest, hfirst]
      refine ⟨fun h => ?_, fun h => if_neg fun hk => h (.inl hk)⟩
      rw [if_pos (h.resolve_right hrest),
        State.totalDelegated_congr (delegationsOf_afterCalls hs₁ hall₁ hrest)]

/-- The record of an account was updated in this block if any of the calls writes it. -/
theorem updatedAt_afterCalls (hs : (chain T AccountId).Reachable s) (hall : s.Succeed es) :
    ((∃ p ∈ es, k = p.2.target p.1) → (s.afterCalls es).updatedAt k = s.blockNumber) ∧
      ((¬∃ p ∈ es, k = p.2.target p.1) → (s.afterCalls es).updatedAt k = s.updatedAt k) := by
  induction es generalizing s with
  | nil => exact ⟨fun ⟨_, hp, _⟩ => absurd hp List.not_mem_nil, fun _ => rfl⟩
  | cons p es ih =>
    obtain ⟨s₁, hs₁, he, hall₁, hafter⟩ := hall.cons hs
    obtain ⟨hlater, hnever⟩ := ih hs₁ hall₁
    have hfirst := he.updatedAt (uniqueKeys_of_reachable hs) k
    rw [List.exists_mem_cons_iff, hafter]
    by_cases hrest : ∃ p ∈ es, k = p.2.target p.1
    · exact ⟨fun _ => (hlater hrest).trans he.frame.blockNumber, fun h => absurd (.inr hrest) h⟩
    · rw [hnever hrest, hfirst]
      exact ⟨fun h => if_pos (h.resolve_right hrest), fun h => if_neg fun hk => h (.inl hk)⟩

/-! ### Two interleavings -/

/-- No call changes what the currency grants reserves of. -/
theorem Effect.grants (h : Effect s who call s') : s'.currency.grants = s.currency.grants := by
  cases h with
  | bondCandidate _ _ hcur =>
    rw [bondMoved] at hcur
    split at hcur
    · exact Ledger.grants_reserve hcur
    · cases hcur
      rfl
  | stakeCandidate _ _ _ hcur => exact Ledger.grants_reserve hcur
  | _ => rfl

/-- What some calls of a block leave alone. -/
theorem frame_afterCalls (hs : (chain T AccountId).Reachable s) (hall : s.Succeed es) :
    s.Frame (s.afterCalls es) := by
  induction es generalizing s with
  | nil => exact ⟨rfl, rfl, rfl, rfl, rfl, rfl⟩
  | cons p es ih =>
    obtain ⟨s₁, hs₁, he, hall₁, hafter⟩ := hall.cons hs
    have hfirst := he.frame
    have hrest := ih hs₁ hall₁
    rw [hafter]
    exact {
      waitingCandidates := hrest.waitingCandidates.trans hfirst.waitingCandidates
      invulnerables := hrest.invulnerables.trans hfirst.invulnerables
      desiredCandidates := hrest.desiredCandidates.trans hfirst.desiredCandidates
      actualAuthors := hrest.actualAuthors.trans hfirst.actualAuthors
      blockNumber := hrest.blockNumber.trans hfirst.blockNumber
      session := hrest.session.trans hfirst.session }

theorem events_afterCalls (hs : (chain T AccountId).Reachable s) (hall : s.Succeed es) :
    (s.afterCalls es).events = s.events ++ es.map fun p => p.2.event p.1 := by
  induction es generalizing s with
  | nil => exact (List.append_nil _).symm
  | cons p es ih =>
    obtain ⟨s₁, hs₁, he, hall₁, hafter⟩ := hall.cons hs
    rw [hafter, ih hs₁ hall₁, he.events, List.append_assoc]
    rfl

/-- A record is what is its owner's own, the stake recorded and the time of the last update. -/
theorem State.candidate?_eq_of_own
    (hown : (t.candidate? k).map CandidateInfo.own = (u.candidate? k).map CandidateInfo.own)
    (hstake : t.recordedStake k = u.recordedStake k) (hupdated : t.updatedAt k = u.updatedAt k) :
    t.candidate? k = u.candidate? k := by
  rw [recordedStake, recordedStake] at hstake
  rw [updatedAt, updatedAt] at hupdated
  revert hown hstake hupdated
  cases t.candidate? k with
  | none =>
    cases u.candidate? k with
    | none => exact fun _ _ _ => rfl
    | some d => exact fun h => by cases h
  | some c =>
    cases u.candidate? k with
    | none => exact fun h => by cases h
    | some d =>
      intro hown hstake hupdated
      obtain ⟨_, _, _, _, _, _, _, _, _⟩ := c
      obtain ⟨_, _, _, _, _, _, _, _, _⟩ := d
      cases hstake
      cases hupdated
      cases hown
      rfl

theorem grants_afterCalls (hs : (chain T AccountId).Reachable s) (hall : s.Succeed es) :
    (s.afterCalls es).currency.grants = s.currency.grants := by
  induction es generalizing s with
  | nil => rfl
  | cons p es ih =>
    obtain ⟨s₁, hs₁, he, hall₁, hafter⟩ := hall.cons hs
    rw [hafter, ih hs₁ hall₁, he.grants]

/-- Two interleavings of the calls of a block lead to states that are alike. -/
theorem alike_of_interleaves (hs : (chain T AccountId).Reachable s) (hes : Interleaves es es')
    (hall : s.Succeed es) (hall' : s.Succeed es') : (s.afterCalls es).Alike (s.afterCalls es') := by
  have ht := reachable_afterCalls hs es
  have hu := reachable_afterCalls hs es'
  have hsame := sameOwn_of_interleaves hs hes hall hall'
  have hperm := hes.perm
  have hdel (k : AccountId) :
      ((s.afterCalls es).delegationsOf k).Perm ((s.afterCalls es').delegationsOf k) :=
    perm_of_findKey (nodup_delegators_of_reachable ht k) (nodup_delegators_of_reachable hu k)
      fun a => (hsame a).position.findKey_eq k
  have hstake (k : AccountId) :
      (s.afterCalls es).recordedStake k = (s.afterCalls es').recordedStake k := by
    have hrestaked : Restaked k es ↔ Restaked k es' :=
      exists_congr fun p => and_congr_left fun _ => hperm.mem_iff
    obtain ⟨h₁, h₂⟩ := recordedStake_afterCalls (k := k) hs hall
    obtain ⟨h₁', h₂'⟩ := recordedStake_afterCalls (k := k) hs hall'
    by_cases hk : Restaked k es
    · rw [h₁ hk, h₁' (hrestaked.1 hk), State.totalDelegated, State.totalDelegated, sumStakes_eq,
        sumStakes_eq, ((hdel k).map Delegation.stake).sum_eq]
    · rw [h₂ hk, h₂' (mt hrestaked.2 hk)]
  have hupdated (k : AccountId) :
      (s.afterCalls es).updatedAt k = (s.afterCalls es').updatedAt k := by
    have hwritten : (∃ p ∈ es, k = p.2.target p.1) ↔ ∃ p ∈ es', k = p.2.target p.1 :=
      exists_congr fun p => and_congr_left fun _ => hperm.mem_iff
    obtain ⟨h₁, h₂⟩ := updatedAt_afterCalls (k := k) hs hall
    obtain ⟨h₁', h₂'⟩ := updatedAt_afterCalls (k := k) hs hall'
    by_cases hk : ∃ p ∈ es, k = p.2.target p.1
    · rw [h₁ hk, h₁' (hwritten.1 hk)]
    · rw [h₂ hk, h₂' (mt hwritten.2 hk)]
  have hft := frame_afterCalls hs hall
  have hfu := frame_afterCalls hs hall'
  exact {
    keys := uniqueKeys_of_reachable ht
    records := perm_of_findKey (uniqueKeys_of_reachable ht) (uniqueKeys_of_reachable hu) fun k =>
      State.candidate?_eq_of_own (hsame k).record (hstake k) (hupdated k)
    delegations := fun k => State.rel_lookup ht hu (hdel k)
    frame := {
      waitingCandidates := hfu.waitingCandidates.trans hft.waitingCandidates.symm
      invulnerables := hfu.invulnerables.trans hft.invulnerables.symm
      desiredCandidates := hfu.desiredCandidates.trans hft.desiredCandidates.symm
      actualAuthors := hfu.actualAuthors.trans hft.actualAuthors.symm
      blockNumber := hfu.blockNumber.trans hft.blockNumber.symm
      session := hfu.session.trans hft.session.symm }
    currency := Ledger.eq_of_account (fun a => (hsame a).position.account.symm)
      ((grants_afterCalls hs hall').trans (grants_afterCalls hs hall).symm)
    events := by
      rw [events_afterCalls hs hall, events_afterCalls hs hall']
      exact (hperm.map _).append_left _ }

/-- Two states that are alike, and where the records are sorted in both, have those that do
    not rank the same in the same order. -/
structure State.Agrees (t u : State T AccountId) : Prop extends t.Alike u where
  order : t.Sorted → u.Sorted → ∀ x y, rankCmp T x y ≠ .eq →
    (Precedes t.proposedCandidates.toList x y ↔ Precedes u.proposedCandidates.toList x y)

/-- From a reachable state, two interleavings of the calls of a block lead to the same, if
    all of the calls succeed in both. -/
theorem agrees_of_interleaving (hs : (chain T AccountId).Reachable s) (hes : Interleaves es es')
    (hall : s.Succeed es) (hall' : s.Succeed es') :
    (s.afterCalls es).Agrees (s.afterCalls es') where
  toAlike := alike_of_interleaves hs hes hall hall'
  order hst hsu x y hxy := by
    have hrecords := (alike_of_interleaves hs hes hall hall').records
    rw [precedes_iff_of_pairwise hst hxy, precedes_iff_of_pairwise hsu hxy, hrecords.mem_iff,
      hrecords.mem_iff]

open Keyring in
/-- Bob registers and bonds, and aliceStash delegates behind him, while bobStash registers,
    steps down and comes back. -/
theorem agrees_of_interleaving_development :
    (developmentState.afterCalls
      [(bob, .registerCandidate), (bob, .bondCandidate (10 ^ 14)),
        (aliceStash, .stakeCandidate bob 5), (bobStash, .registerCandidate),
        (bobStash, .offlineCandidate), (bobStash, .onlineCandidate)]).Agrees
      (developmentState.afterCalls
        [(bobStash, .registerCandidate), (bob, .registerCandidate), (bobStash, .offlineCandidate),
          (aliceStash, .stakeCandidate bob 5), (bob, .bondCandidate (10 ^ 14)),
          (bobStash, .onlineCandidate)]) :=
  agrees_of_interleaving (.init developmentState_mem) (fun a => by cases a <;> rfl)
    ⟨by decide, by decide, by decide, by decide, by decide, by decide, trivial⟩
    ⟨by decide, by decide, by decide, by decide, by decide, by decide, trivial⟩

end Xode.Staking
