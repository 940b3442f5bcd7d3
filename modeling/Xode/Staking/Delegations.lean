import Mathlib.Algebra.Order.BigOperators.Group.List
import Mathlib.Algebra.Order.Group.Nat
import Xode.Staking.Runs

/-!
# Delegations

Who delegated what behind whom. A call writes the delegations of one candidate
at a time, either those of `stake_candidate` or those of `unstake_candidate`;
the sum of what an account has staked changes by what the write adds and takes
away (`Redelegates`). No account has two delegations behind the same candidate
(`nodup_delegators_of_reachable`), and none behind itself; all lists of the
storage are keyed, within their bounds (`wellKeyed_of_reachable`).

Withdrawing a delegation recomputes the stake recorded for the candidate, and so
fails when the candidate has no record. Records are dropped at session
rotations, delegations are not: delegations are always withdrawable exactly when
no rotation drops the record of a candidate with delegations
(`always_withdrawable_iff`). They are also still there when such an account
registers again, with no stake recorded (`always_stakeRecorded_iff`).
-/

namespace Xode.Staking

variable {T : Config} {AccountId : Type} [DecidableEq AccountId]
  {s s' : State T AccountId} {a who candidate : AccountId} {amount : ℕ}
  {ds ds' : DelegationList T AccountId}

/-! ### Stakes -/

/-- What `a` has staked, among some delegations. -/
def stakeIn (a : AccountId) (l : List (Delegation AccountId)) : ℕ :=
  (l.map fun d => if d.delegator = a then d.stake else 0).sum

/-- What `a` has staked behind all candidates. -/
def State.stakedBy (s : State T AccountId) (a : AccountId) : ℕ :=
  StorageMap.sumBy (fun ds => stakeIn a ds.toList) s.delegations

theorem stake_le_stakeIn {l : List (Delegation AccountId)} {d : Delegation AccountId} (h : d ∈ l) :
    d.stake ≤ stakeIn d.delegator l := by
  exact List.single_le_sum (fun _ _ => Nat.zero_le _) _ (List.mem_map.2 ⟨d, h, if_pos rfl⟩)

/-- Removing the delegation of `who` takes its stake from `who`, and nothing from
    anyone else. -/
theorem stakeIn_eraseKey {l : List (Delegation AccountId)} {d : Delegation AccountId}
    (h : findKey Delegation.delegator who l = some d) :
    stakeIn a (eraseKey Delegation.delegator who l) + (if a = who then d.stake else 0) =
      stakeIn a l := by
  have := sum_eraseKey Delegation.delegator who l fun d => if d.delegator = a then d.stake else 0
  rw [h, Option.elim_some, key_of_findKey h] at this
  simpa only [eq_comm (a := a), stakeIn] using this

/-- Rewriting the delegation of `who` replaces its stake. -/
theorem stakeIn_updateKey {l : List (Delegation AccountId)} {d : Delegation AccountId}
    {f : Delegation AccountId → Delegation AccountId} (hf : ∀ d, (f d).delegator = d.delegator)
    (h : findKey Delegation.delegator who l = some d) :
    stakeIn a (updateKey Delegation.delegator who f l) + (if a = who then d.stake else 0) =
      stakeIn a l + if a = who then (f d).stake else 0 := by
  have := sum_updateKey Delegation.delegator who f l fun d =>
    if d.delegator = a then d.stake else 0
  simp only [h, Option.elim_some, Function.comp_apply, hf, key_of_findKey h] at this
  simpa only [eq_comm (a := a), stakeIn] using this

/-- The delegations `l`, after `who` has delegated `amount` more. -/
def withStake (T : Config) (who : AccountId) (amount : ℕ) (l : List (Delegation AccountId)) :
    List (Delegation AccountId) :=
  if who ∈ l.map Delegation.delegator then
    updateKey Delegation.delegator who (fun d => { d with stake := satAdd T d.stake amount }) l
  else l ++ [{ delegator := who, stake := amount }]

theorem toList_addDelegation (h : addDelegation who amount ds = some ds') :
    ds'.toList = withStake T who amount ds.toList := by
  rw [addDelegation] at h
  rw [withStake]
  by_cases hw : ∃ d ∈ ds.toList, d.delegator = who
  · rw [if_pos hw, Option.some.injEq] at h
    rw [if_pos (List.mem_map.2 hw), ← h]
    rfl
  · rw [if_neg hw] at h
    rw [if_neg (mt List.mem_map.1 hw), BoundedVec.tryPush_eq_some.1 h]

/-- What adding to the delegation of `who` adds to the stakes: nothing to those of
    anyone else; to that of `who`, at most the amount; and all of it, unless the
    stake reaches the largest balance. -/
theorem stakeIn_withStake (T : Config) (who : AccountId) (amount : ℕ)
    (l : List (Delegation AccountId)) :
    (∀ a, a ≠ who → stakeIn a (withStake T who amount l) = stakeIn a l) ∧
      stakeIn who (withStake T who amount l) ≤ stakeIn who l + amount ∧
      (stakeIn who (withStake T who amount l) = stakeIn who l + amount ∨
        T.maxBalance ≤ stakeIn who (withStake T who amount l)) := by
  rw [withStake]
  split
  · next hw =>
    -- An old delegation grows by the amount, as far as the balance type goes.
    obtain ⟨d, hd⟩ := Option.isSome_iff_exists.1 (findKey_isSome.2 hw)
    have hst : d.stake ≤ stakeIn who l :=
      key_of_findKey hd ▸ stake_le_stakeIn (mem_of_findKey hd)
    generalize hl' : updateKey Delegation.delegator who
      (fun d => { d with stake := satAdd T d.stake amount }) l = l'
    have hup (a : AccountId) : stakeIn a l' + (if a = who then d.stake else 0) =
        stakeIn a l + if a = who then satAdd T d.stake amount else 0 :=
      hl' ▸ stakeIn_updateKey (by exact fun _ => rfl) hd
    have hwho := hup who
    rw [if_pos rfl, if_pos rfl, satAdd] at hwho
    refine ⟨fun a ha => ?_, by omega, by omega⟩
    simpa [ha] using hup a
  · refine ⟨fun a ha => ?_, ?_, .inl ?_⟩ <;> simp [stakeIn, Ne.symm, *]

omit [DecidableEq AccountId] in
/-- The saturating sum of some stakes is their sum, or the largest balance. -/
theorem sumStakes_eq (l : List (Delegation AccountId)) :
    sumStakes T l = min (l.map Delegation.stake).sum T.maxBalance := by
  have hfold (l : List (Delegation AccountId)) (acc : ℕ) (hacc : acc ≤ T.maxBalance) :
      l.foldl (fun acc d => satAdd T acc d.stake) acc =
        min (acc + (l.map Delegation.stake).sum) T.maxBalance := by
    induction l generalizing acc with
    | nil => simpa using hacc
    | cons d l ih =>
      rw [List.foldl_cons, ih (satAdd T acc d.stake) (min_le_right _ _), List.map_cons,
        List.sum_cons, satAdd]
      omega
  rw [sumStakes, hfold l 0 (Nat.zero_le _), Nat.zero_add]

/-- Adding to a delegation adds to their sum, as far as the balance type goes. -/
theorem sumStakes_withStake (l : List (Delegation AccountId)) :
    sumStakes T (withStake T who amount l) = satAdd T (sumStakes T l) amount := by
  rw [sumStakes_eq, sumStakes_eq, satAdd, withStake]
  split
  · next hw =>
    obtain ⟨d, hd⟩ := Option.isSome_iff_exists.1 (findKey_isSome.2 hw)
    have hsum := sum_updateKey Delegation.delegator who
      (fun d => { d with stake := satAdd T d.stake amount }) l Delegation.stake
    have hle : d.stake ≤ (l.map Delegation.stake).sum :=
      List.single_le_sum (fun _ _ => Nat.zero_le _) _ (List.mem_map_of_mem (mem_of_findKey hd))
    simp only [hd, Option.elim_some, Function.comp_apply, satAdd] at hsum ⊢
    omega
  · simp only [List.map_append, List.sum_append, List.map_singleton, List.sum_singleton]
    omega

theorem mem_withStake {l : List (Delegation AccountId)} :
    a ∈ (withStake T who amount l).map Delegation.delegator ↔
      a = who ∨ a ∈ l.map Delegation.delegator := by
  rw [withStake]
  split
  · next hw =>
    rw [map_key_updateKey (by exact fun _ => rfl), or_iff_right_of_imp]
    rintro rfl
    exact hw
  · rw [List.map_append, List.mem_append, List.map_singleton, List.mem_singleton, or_comm]

theorem nodup_withStake {l : List (Delegation AccountId)}
    (hd : (l.map Delegation.delegator).Nodup) :
    ((withStake T who amount l).map Delegation.delegator).Nodup := by
  rw [withStake]
  split
  · rwa [map_key_updateKey (by exact fun _ => rfl)]
  · next hw =>
    rw [List.map_append]
    exact List.nodup_append.2 ⟨hd, List.nodup_singleton _, by simpa using hw⟩

/-! ### Writes -/

namespace State

theorem delegationsOf_eq :
    s.delegationsOf candidate = ((s.delegations.lookup candidate).getD .empty).toList := by
  rw [delegationsOf]
  cases s.delegations.lookup candidate <;> rfl

theorem delegationsOf_of_lookup (h : s.delegations.lookup candidate = some ds) :
    s.delegationsOf candidate = ds.toList := by
  rw [delegationsOf, h]
  rfl

theorem measureAt_stakeIn :
    StorageMap.measureAt (fun ds => stakeIn a ds.toList) s.delegations candidate =
      stakeIn a (s.delegationsOf candidate) := by
  rw [StorageMap.measureAt, delegationsOf]
  cases s.delegations.lookup candidate <;> rfl

/-- What an account has staked behind one candidate is part of what it has staked. -/
theorem stakeIn_delegationsOf_le : stakeIn a (s.delegationsOf candidate) ≤ s.stakedBy a := by
  rw [← measureAt_stakeIn]
  exact StorageMap.measureAt_le_sumBy _ _

/-- The delegations behind `candidate` are rewritten to `l`, and no others. -/
structure Redelegates (s : State T AccountId) (candidate : AccountId)
    (l : List (Delegation AccountId)) (s' : State T AccountId) : Prop where
  delegationsOf_eq : ∀ c, s'.delegationsOf c = if c = candidate then l else s.delegationsOf c
  stakedBy_add : ∀ a, s'.stakedBy a + stakeIn a (s.delegationsOf candidate) =
    stakeIn a l + s.stakedBy a

theorem redelegates_insert (h : s'.delegations = s.delegations.insert candidate ds) :
    s.Redelegates candidate ds.toList s' where
  delegationsOf_eq c := by
    rw [delegationsOf, h, StorageMap.lookup_insert_eq]
    split <;> rfl
  stakedBy_add a := by
    rw [← measureAt_stakeIn, stakedBy, h]
    exact StorageMap.sumBy_insert _ _

theorem redelegates_erase (h : s'.delegations = s.delegations.erase candidate) :
    s.Redelegates candidate [] s' where
  delegationsOf_eq c := by
    rw [delegationsOf, h, StorageMap.lookup_erase_eq]
    split <;> rfl
  stakedBy_add a := by
    rw [← measureAt_stakeIn, stakedBy, h, StorageMap.sumBy_erase]
    exact (Nat.zero_add _).symm

end State

/-- What delegating writes. -/
theorem Effect.redelegates_stake (h : Effect s who (.stakeCandidate candidate amount) s') :
    ∃ ds ds' : DelegationList T AccountId, ds.toList = s.delegationsOf candidate ∧
      addDelegation who amount ds = some ds' ∧ s.Redelegates candidate ds'.toList s' ∧
      amount ≤ s.currency.freeBalance who ∧
      s.currency.reserve who amount = some s'.currency ∧ (s.candidate? candidate).isSome := by
  cases h with
  | stakeCandidate _ hc hfree hreserve hds =>
    exact ⟨_, _, State.delegationsOf_eq.symm, hds, State.redelegates_insert rfl, hfree, hreserve,
      Option.isSome_of_eq_some hc⟩

/-- What withdrawing a delegation writes. -/
theorem Effect.redelegates_unstake (h : Effect s who (.unstakeCandidate candidate) s') :
    ∃ d, findKey Delegation.delegator who (s.delegationsOf candidate) = some d ∧
      s.Redelegates candidate (eraseKey Delegation.delegator who (s.delegationsOf candidate)) s' ∧
      s'.currency = (s.currency.unreserve who d.stake).1 ∧ (s.candidate? candidate).isSome := by
  cases h with
  | unstakeCandidate hc hds hi =>
    rename_i c ds i
    have hl := State.delegationsOf_of_lookup hds
    have herase : (ds.remove i).toList =
        eraseKey Delegation.delegator who (s.delegationsOf candidate) := by
      rw [hl, BoundedVec.toList_remove, eraseIdx_of_findFinIdx? hi]
    refine ⟨ds.toList.get i, by rw [hl]; exact findKey_of_findFinIdx? hi, ?_, rfl,
      Option.isSome_of_eq_some hc⟩
    -- An emptied list of delegations is removed.
    by_cases he : (ds.remove i).toList.isEmpty
    · have hnil : eraseKey Delegation.delegator who (s.delegationsOf candidate) = [] := by
        rw [← herase, List.isEmpty_iff.1 he]
      rw [hnil]
      exact State.redelegates_erase (if_pos he)
    · rw [← herase]
      exact State.redelegates_insert (if_neg he)

theorem State.delegationsOf_congr (h : s'.delegations = s.delegations) (candidate : AccountId) :
    s'.delegationsOf candidate = s.delegationsOf candidate := by
  rw [delegationsOf, h, delegationsOf]

/-- No other call writes delegations. -/
theorem Effect.delegations_eq {call : Call AccountId} (h : Effect s who call s')
    (hs : ∀ c amount, call ≠ .stakeCandidate c amount) (hu : ∀ c, call ≠ .unstakeCandidate c) :
    s'.delegations = s.delegations := by
  cases h with
  | stakeCandidate => exact absurd rfl (hs _ _)
  | unstakeCandidate => exact absurd rfl (hu _)
  | _ => rfl

/-- The call writes the delegations behind `a`. -/
def Call.restakes (a : AccountId) : Call AccountId → Bool
  | .stakeCandidate candidate _ | .unstakeCandidate candidate => candidate = a
  | _ => false

/-- What a call signed by `who` makes of the delegations `l` behind `k`. -/
def Call.redelegate (T : Config) (who k : AccountId) (l : List (Delegation AccountId)) :
    Call AccountId → List (Delegation AccountId)
  | .stakeCandidate candidate amount => if k = candidate then withStake T who amount l else l
  | .unstakeCandidate candidate =>
    if k = candidate then eraseKey Delegation.delegator who l else l
  | _ => l

theorem Effect.delegationsOf {call : Call AccountId} (h : Effect s who call s') (k : AccountId) :
    s'.delegationsOf k = call.redelegate T who k (s.delegationsOf k) := by
  cases call with
  | stakeCandidate candidate amount =>
    obtain ⟨ds, ds', hl, hadd, hw, -⟩ := h.redelegates_stake
    rw [hw.delegationsOf_eq, toList_addDelegation hadd, hl]
    exact ite_congr rfl (fun hk => hk ▸ rfl) fun _ => rfl
  | unstakeCandidate candidate =>
    obtain ⟨d, -, hw, -⟩ := h.redelegates_unstake
    rw [hw.delegationsOf_eq]
    exact ite_congr rfl (fun hk => hk ▸ rfl) fun _ => rfl
  | _ => exact State.delegationsOf_congr (h.delegations_eq (by simp) (by simp)) k

/-- A call keeps the delegations behind every other account. -/
theorem Effect.delegationsOf_eq {call : Call AccountId} (h : Effect s who call s')
    (ha : ¬call.restakes a) : s'.delegationsOf a = s.delegationsOf a := by
  rw [h.delegationsOf]
  cases call with
  | stakeCandidate | unstakeCandidate =>
    exact if_neg (by simpa [Call.restakes, eq_comm] using ha)
  | _ => rfl

theorem State.delegations_startBlock (index : Option ℕ) :
    (s.startBlock index).delegations = s.delegations := by
  obtain ⟨p, actualAuthors, h⟩ := s.startBlock_eq index
  rw [h]

theorem State.delegations_rotateSession (hk : s.UniqueKeys) :
    s.rotateSession.delegations = s.delegations := by
  obtain ⟨p, w, h, -⟩ := State.rotateSession_eq hk
  rw [h]

/-- Only calls write delegations. -/
theorem State.Next.delegations_eq {e : Step AccountId} (h : s.Next e s') (hk : s.UniqueKeys) :
    (∃ who call, e = .tx (.call (.signed who) call) ∧ Effect s who call s') ∨
      s'.delegations = s.delegations := by
  cases h with
  | call h => exact .inl ⟨_, _, rfl, h⟩
  | failed | other => exact .inr rfl
  | block index => exact .inr (s.delegations_startBlock index)
  | rotate => exact .inr (State.delegations_rotateSession hk)

/-- No account has two delegations behind the same candidate. -/
theorem nodup_delegators_of_reachable (hs : (chain T AccountId).Reachable s)
    (candidate : AccountId) : ((s.delegationsOf candidate).map Delegation.delegator).Nodup := by
  refine reachable_induction (Q := fun s =>
    ∀ candidate, ((s.delegationsOf candidate).map Delegation.delegator).Nodup) hs
    (fun g d candidate => List.nodup_nil) (fun s e s' hk hn ih candidate => ?_) candidate
  obtain ⟨who, call, -, h⟩ | h := hn.delegations_eq hk
  · rw [h.delegationsOf]
    cases call with
    | stakeCandidate c amount =>
      rw [Call.redelegate]
      split
      exacts [nodup_withStake (ih candidate), ih candidate]
    | unstakeCandidate c =>
      rw [Call.redelegate]
      split
      exacts [(ih candidate).sublist (List.eraseP_sublist.map _), ih candidate]
    | _ => exact ih candidate
  · rw [State.delegationsOf_congr h]
    exact ih candidate

/-- Nobody has a delegation behind itself. -/
theorem self_notMem_delegators_of_reachable (hs : (chain T AccountId).Reachable s)
    (candidate : AccountId) :
    candidate ∉ (s.delegationsOf candidate).map Delegation.delegator := by
  refine reachable_induction (Q := fun s =>
    ∀ candidate, candidate ∉ (s.delegationsOf candidate).map Delegation.delegator) hs
    (fun g d candidate => List.not_mem_nil) (fun s e s' hk hn ih candidate => ?_) candidate
  obtain ⟨who, call, -, h⟩ | h := hn.delegations_eq hk
  · rw [h.delegationsOf]
    cases h with
    | @stakeCandidate c amount _ _ _ hne =>
      rw [Call.redelegate]
      split
      · next hc =>
        rw [mem_withStake, not_or]
        exact ⟨fun hw => hne (hw.symm.trans hc), ih candidate⟩
      · exact ih candidate
    | @unstakeCandidate c =>
      rw [Call.redelegate]
      split
      · exact fun hmem => ih candidate ((List.eraseP_sublist.map _).subset hmem)
      · exact ih candidate
    | _ => exact ih candidate
  · rw [State.delegationsOf_congr h]
    exact ih candidate

/-- An entry of the map of delegations is not empty: an emptied one is removed. -/
theorem delegations_ne_nil_of_reachable (hs : (chain T AccountId).Reachable s)
    (h : s.delegations.lookup candidate = some ds) : ds.toList ≠ [] := by
  refine reachable_induction (Q := fun s => ∀ k (ds : DelegationList T AccountId),
    s.delegations.lookup k = some ds → ds.toList ≠ []) hs (fun g d k ds h => by cases h)
    (fun s e s' hk hn ih k ds h => ?_) candidate ds h
  obtain ⟨who, call, -, he⟩ | hd := hn.delegations_eq hk
  · cases he with
    | @stakeCandidate candidate amount _ _ ds' _ _ _ _ hadd =>
      have h : (s.delegations.insert candidate ds').lookup k = some ds := h
      rw [StorageMap.lookup_insert_eq] at h
      split at h
      · cases h
        rw [toList_addDelegation hadd, withStake]
        split
        · next hw =>
          rw [Ne, ← List.length_eq_zero_iff, length_updateKey, List.length_eq_zero_iff]
          rintro hnil
          rw [hnil] at hw
          cases hw
        · simp
      · exact ih k ds h
    | @unstakeCandidate candidate _ ds' i =>
      by_cases hempty : (ds'.remove i).toList.isEmpty
      · have h : (s.delegations.erase candidate).lookup k = some ds :=
          (congrArg (AList.lookup k) (if_pos hempty)).symm.trans h
        rw [StorageMap.lookup_erase_eq] at h
        split at h
        · cases h
        · exact ih k ds h
      · have h : (s.delegations.insert candidate (ds'.remove i)).lookup k = some ds :=
          (congrArg (AList.lookup k) (if_neg hempty)).symm.trans h
        rw [StorageMap.lookup_insert_eq] at h
        split at h
        · cases h
          exact fun hnil => hempty (List.isEmpty_iff.2 hnil)
        · exact ih k ds h
    | _ => exact ih k ds h
  · exact ih k ds (hd ▸ h)

/-- The lists of the storage are keyed: a record for each account, and at most one
    delegation of each account but the candidate behind each candidate; no list is longer
    than its bound, and none in the map of delegations is empty. -/
structure State.WellKeyed (s : State T AccountId) : Prop where
  unique : s.UniqueKeys
  length_proposed : s.proposedCandidates.toList.length ≤ T.maxCandidates
  ne_nil : ∀ candidate ds, s.delegations.lookup candidate = some ds → ds.toList ≠ []
  length_delegations : ∀ candidate ds, s.delegations.lookup candidate = some ds →
    ds.toList.length ≤ T.maxDelegationsPerCandidate
  nodup : ∀ candidate ds, s.delegations.lookup candidate = some ds →
    (ds.toList.map Delegation.delegator).Nodup
  self_notMem : ∀ candidate ds, s.delegations.lookup candidate = some ds →
    candidate ∉ ds.toList.map Delegation.delegator

/-- In every reachable state, the lists of the storage are keyed. -/
theorem wellKeyed_of_reachable (hs : (chain T AccountId).Reachable s) : s.WellKeyed where
  unique := uniqueKeys_of_reachable hs
  length_proposed := s.proposedCandidates.length_le
  ne_nil _ _ h := delegations_ne_nil_of_reachable hs h
  length_delegations _ ds _ := ds.length_le
  nodup candidate _ h :=
    State.delegationsOf_of_lookup h ▸ nodup_delegators_of_reachable hs candidate
  self_notMem candidate _ h :=
    State.delegationsOf_of_lookup h ▸ self_notMem_delegators_of_reachable hs candidate

/-- A candidate that was dropped registers again, with its delegations still there. -/
theorem wellKeyed_development :
    ((chain Config.runtime Keyring).run developmentState
      [.signed .bob .registerCandidate, .signed .aliceStash (.stakeCandidate .bob (10 ^ 13)),
        .rotate, .signed .bob .registerCandidate,
        .signed .bobStash (.stakeCandidate .bob 1)]).WellKeyed :=
  wellKeyed_of_reachable ((System.Reachable.init developmentState_mem).run _)

/-- In reachable states, the map of delegations is known by the delegations behind each
    candidate. -/
theorem lookup_delegations_congr (hs : (chain T AccountId).Reachable s)
    (hs' : (chain T AccountId).Reachable s')
    (h : s.delegationsOf candidate = s'.delegationsOf candidate) :
    s.delegations.lookup candidate = s'.delegations.lookup candidate := by
  rw [State.delegationsOf, State.delegationsOf] at h
  cases hl : s.delegations.lookup candidate with
  | none =>
    cases hl' : s'.delegations.lookup candidate with
    | none => rfl
    | some ds' =>
      rw [hl, hl'] at h
      exact absurd h.symm (delegations_ne_nil_of_reachable hs' hl')
  | some ds =>
    cases hl' : s'.delegations.lookup candidate with
    | none =>
      rw [hl, hl'] at h
      exact absurd h (delegations_ne_nil_of_reachable hs hl)
    | some ds' =>
      rw [hl, hl'] at h
      exact congrArg some (BoundedVec.ext h)

/-! ### Withdrawing -/

namespace State

/-- Withdrawing the delegation `d` behind `candidate` succeeds, removes this
    delegation only, and releases its stake. -/
def Withdraws (s : State T AccountId) (candidate : AccountId) (d : Delegation AccountId) : Prop :=
  ∃ s', unstakeCandidate (.signed d.delegator) candidate s = .ok () s' ∧
    (∀ c, s'.delegationsOf c =
      if c = candidate then (s.delegationsOf c).erase d else s.delegationsOf c) ∧
    s'.currency = (s.currency.unreserve d.delegator d.stake).1

/-- Every delegation can be withdrawn. -/
def Withdrawable (s : State T AccountId) : Prop :=
  ∀ candidate, ∀ d ∈ s.delegationsOf candidate, s.Withdraws candidate d

/-- No rotation drops the record of a candidate with delegations. -/
def KeepsDelegated (s : State T AccountId) (e : Step AccountId) : Prop :=
  e = .rotate → ∀ c ∈ s.proposedCandidates.toList, s.Drops c → s.delegationsOf c.who = []

end State

/-- A delegation can be withdrawn exactly when the candidate has a record. -/
theorem withdraws_iff (hs : (chain T AccountId).Reachable s) {d : Delegation AccountId}
    (hd : d ∈ s.delegationsOf candidate) :
    s.Withdraws candidate d ↔ (s.candidate? candidate).isSome := by
  have hn := nodup_delegators_of_reachable hs candidate
  constructor
  · rintro ⟨s', h, -⟩
    obtain ⟨who, -, h⟩ := unstakeCandidate_eq_ok.1 h
    exact h.redelegates_unstake.choose_spec.2.2.2
  · intro hc
    obtain ⟨c, hc⟩ := Option.isSome_iff_exists.1 hc
    -- The delegation is found at its position, and everything after that succeeds.
    obtain ⟨ds, hds⟩ : ∃ ds, s.delegations.lookup candidate = some ds := by
      rw [State.delegationsOf] at hd
      cases h : s.delegations.lookup candidate with
      | none => simp [h] at hd
      | some ds => exact ⟨ds, rfl⟩
    have hl := State.delegationsOf_of_lookup hds
    obtain ⟨i, hi⟩ : ∃ i, ds.toList.findFinIdx? (fun x => x.delegator = d.delegator) = some i :=
      Option.isSome_iff_exists.1
        (findFinIdx?_isSome.2 (hl ▸ List.mem_map_of_mem (f := Delegation.delegator) hd))
    have h : Effect s d.delegator (.unstakeCandidate candidate) _ := .unstakeCandidate hc hds hi
    refine ⟨_, unstakeCandidate_eq_ok.2 ⟨_, rfl, h⟩, ?_⟩
    obtain ⟨d', hd', hw, hcur, -⟩ := h.redelegates_unstake
    obtain rfl : d = d' := Option.some.inj ((findKey_of_mem hn hd).symm.trans hd')
    refine ⟨fun a => ?_, hcur⟩
    rw [hw.delegationsOf_eq, eraseKey_eq_erase hn hd]
    exact ite_congr rfl (fun h => h ▸ rfl) fun _ => rfl

/-- Every candidate with delegations has a record. -/
def State.DelegatedRegistered (s : State T AccountId) : Prop :=
  ∀ candidate, s.delegationsOf candidate ≠ [] → (s.candidate? candidate).isSome

theorem withdrawable_iff (hs : (chain T AccountId).Reachable s) :
    s.Withdrawable ↔ s.DelegatedRegistered := by
  refine ⟨fun h c hc => ?_, fun h c d hd => (withdraws_iff hs hd).2 (h c (List.ne_nil_of_mem hd))⟩
  obtain ⟨d, hd⟩ := List.exists_mem_of_ne_nil _ hc
  exact (withdraws_iff hs hd).1 (h c d hd)

/-- After a call, every candidate with delegations still has a record. -/
theorem Effect.delegatedRegistered {call : Call AccountId} (he : Effect s who call s')
    (hk : s.UniqueKeys) (h : s.DelegatedRegistered) : s'.DelegatedRegistered := by
  intro c hc
  by_cases hold : s.delegationsOf c = []
  · -- Only delegating makes the first delegation behind a candidate.
    rw [he.delegationsOf, hold] at hc
    cases call with
    | stakeCandidate candidate amount =>
      obtain ⟨ds, ds', -, -, -, -, -, hreg⟩ := he.redelegates_stake
      rw [Call.redelegate] at hc
      split at hc
      · next heq => exact heq ▸ he.candidate?_isSome hk hreg
      · exact absurd rfl hc
    | unstakeCandidate candidate => exact absurd (ite_self _) hc
    | _ => exact absurd rfl hc
  · exact he.candidate?_isSome hk (h c hold)

/-- Whether every candidate with delegations still has a record after a rotation. -/
theorem delegatedRegistered_rotateSession_iff (hk : s.UniqueKeys) (h : s.DelegatedRegistered) :
    s.rotateSession.DelegatedRegistered ↔ s.KeepsDelegated .rotate := by
  have hd (c : AccountId) : s.rotateSession.delegationsOf c = s.delegationsOf c :=
    State.delegationsOf_congr (State.delegations_rotateSession hk) c
  constructor
  · intro h' _ c hc hdrop
    by_contra hne
    have := h' c.who (by rwa [hd c.who])
    rw [State.candidate?_rotateSession hk, (State.candidate?_eq_some hk).2 ⟨hc, rfl⟩,
      Option.bind_some, State.rotateCandidate_eq_none.2 hdrop] at this
    cases this
  · intro hkeep c hc
    rw [hd c] at hc
    obtain ⟨r, hr⟩ := Option.isSome_iff_exists.1 (h c hc)
    rw [State.candidate?_rotateSession hk, hr, Option.bind_some, Option.isSome_iff_ne_none, Ne,
      State.rotateCandidate_eq_none]
    exact fun hdrop => hc (State.who_candidate? hr ▸ hkeep rfl r (State.mem_candidate? hr) hdrop)

/-- Whether every candidate with delegations still has a record after a step. -/
theorem State.Next.delegatedRegistered_iff {e : Step AccountId} (hn : s.Next e s')
    (hk : s.UniqueKeys) (h : s.DelegatedRegistered) :
    s'.DelegatedRegistered ↔ s.KeepsDelegated e := by
  cases hn with
  | call he => exact iff_of_true (he.delegatedRegistered hk h) (fun h => by cases h)
  | failed | other => exact iff_of_true h (fun h => by cases h)
  | block index =>
    refine iff_of_true (fun c hc => ?_) (fun h => by cases h)
    rw [State.delegationsOf_congr (s.delegations_startBlock index)] at hc
    have := h c hc
    rw [State.candidate?_startBlock]
    split <;> simpa using this
  | rotate => exact delegatedRegistered_rotateSession_iff hk h

/-- Throughout a run, every delegation can be withdrawn exactly when no rotation
    drops the record of a candidate with delegations. -/
theorem always_withdrawable_iff {es : List (Step AccountId)} (h₀ : s ∈ (chain T AccountId).init) :
    (chain T AccountId).Always State.Withdrawable s es ↔
      (chain T AccountId).Along State.KeepsDelegated s es := by
  have hs : (chain T AccountId).Reachable s := .init h₀
  have hstart : s.DelegatedRegistered := by
    obtain ⟨g, d, rfl⟩ := genesis_cases h₀
    exact fun c hc => absurd rfl hc
  rw [← System.always_iff_along hs hstart fun s e hs h =>
    (s.next_step e).delegatedRegistered_iff (uniqueKeys_of_reachable hs) h]
  exact ⟨fun h => h.mono hs fun s hs => (withdrawable_iff hs).1,
    fun h => h.mono hs fun s hs => (withdrawable_iff hs).2⟩

theorem always_withdrawable_bonded :
    (chain Config.runtime Keyring).Always State.Withdrawable developmentState
      [.signed .bob .registerCandidate, .signed .bob (.bondCandidate (10 ^ 14)),
        .signed .aliceStash (.stakeCandidate .bob (10 ^ 13)), .rotate] :=
  (always_withdrawable_iff developmentState_mem).2
    ⟨nofun, nofun, nofun, fun _ => by decide, trivial⟩

/-- A candidate without a bond is dropped at the next rotation, and what was
    delegated behind it stays. -/
theorem not_always_withdrawable :
    ¬(chain Config.runtime Keyring).Always State.Withdrawable developmentState
      [.signed .bob .registerCandidate, .signed .aliceStash (.stakeCandidate .bob (10 ^ 13)),
        .rotate] := by
  rintro ⟨-, -, -, h⟩
  obtain ⟨s', hs', -⟩ := h .bob ⟨.aliceStash, 10 ^ 13⟩ (by decide)
  obtain ⟨who, -, he⟩ := unstakeCandidate_eq_ok.1 hs'
  exact absurd he.redelegates_unstake.choose_spec.2.2.2 (by decide)

/-! ### Recorded stakes -/

namespace State

/-- The stake recorded for each candidate is the sum of the delegations behind it. -/
def StakeRecorded (s : State T AccountId) : Prop :=
  ∀ c ∈ s.proposedCandidates.toList, c.totalStake = s.totalDelegated c.who

instance (s : State T AccountId) : Decidable s.StakeRecorded :=
  inferInstanceAs (Decidable (∀ c ∈ s.proposedCandidates.toList, _))

/-- No account registers that has delegations of a non-zero sum behind it. -/
def RegistersUndelegated (s : State T AccountId) (e : Step AccountId) : Prop :=
  ∀ who, e = .signed who .registerCandidate → s.candidate? who = none →
    s.proposedCandidates.toList.length < T.maxCandidates → s.totalDelegated who = 0

/-- The stake recorded for `a`, if it has a record, is the sum of the delegations
    behind it. -/
def RecordsStake (s : State T AccountId) (a : AccountId) : Prop :=
  ∀ c, s.candidate? a = some c → c.totalStake = s.totalDelegated a

theorem stakeRecorded_iff (hk : s.UniqueKeys) : s.StakeRecorded ↔ ∀ a, s.RecordsStake a := by
  refine ⟨fun h a c hc => ?_, fun h c hc => h _ c ((candidate?_eq_some hk).2 ⟨hc, rfl⟩)⟩
  exact who_candidate? hc ▸ h c (mem_candidate? hc)

theorem totalDelegated_congr (h : s'.delegationsOf a = s.delegationsOf a) :
    s'.totalDelegated a = s.totalDelegated a := congrArg (sumStakes T) h

theorem RecordsStake.congr (hd : s'.delegationsOf a = s.delegationsOf a)
    (hc : (s'.candidate? a).map CandidateInfo.totalStake =
      (s.candidate? a).map CandidateInfo.totalStake) : s'.RecordsStake a ↔ s.RecordsStake a := by
  have hiff (s : State T AccountId) : s.RecordsStake a ↔
      ∀ x ∈ (s.candidate? a).map CandidateInfo.totalStake, x = s.totalDelegated a := by
    simp [RecordsStake]
  rw [hiff, hiff, hc, totalDelegated_congr hd]

end State

/-- A call that writes the delegations behind a candidate records their sum; no other
    call but a registration touches the stake recorded. -/
theorem Effect.recordsStake_iff {call : Call AccountId} (h : Effect s who call s')
    (hk : s.UniqueKeys) (hcall : call = .registerCandidate → a ≠ who) :
    s'.RecordsStake a ↔ call.restakes a ∨ s.RecordsStake a := by
  have hc := h.candidate? hk a
  by_cases hr : call.restakes a
  · refine iff_of_true (fun c hc' => ?_) (.inl hr)
    cases call with
    | stakeCandidate candidate | unstakeCandidate candidate =>
      have ha : candidate = a := of_decide_eq_true hr
      obtain ⟨c₀, -, rfl⟩ := Option.map_eq_some_iff.1
        ((hc.trans (if_pos ha.symm)).symm.trans hc')
      rw [ha]
    | _ => cases hr
  · rw [or_iff_right hr, State.RecordsStake.congr (h.delegationsOf_eq hr)]
    rw [hc]
    split
    · next ha =>
      cases call with
      | registerCandidate => exact absurd ha (hcall rfl)
      | stakeCandidate | unstakeCandidate => exact absurd (decide_eq_true ha.symm) hr
      | _ => exact Option.map_map _ _ _
    · rfl

/-- A call other than a registration keeps recorded stakes right. -/
theorem Effect.stakeRecorded {call : Call AccountId} (h : Effect s who call s')
    (hk : s.UniqueKeys) (hs : s.StakeRecorded) (hcall : call ≠ .registerCandidate) :
    s'.StakeRecorded := by
  rw [State.stakeRecorded_iff (h.uniqueKeys hk)]
  rw [State.stakeRecorded_iff hk] at hs
  exact fun a => (h.recordsStake_iff hk fun hr => absurd hr hcall).2 (.inr (hs a))

/-- A registration records no stake. -/
theorem Effect.stakeRecorded_register (h : Effect s who .registerCandidate s') (hk : s.UniqueKeys)
    (hs : s.StakeRecorded) : s'.StakeRecorded ↔ s.totalDelegated who = 0 := by
  rw [State.stakeRecorded_iff (h.uniqueKeys hk)]
  rw [State.stakeRecorded_iff hk] at hs
  have hd (a : AccountId) : s'.totalDelegated a = s.totalDelegated a :=
    State.totalDelegated_congr (State.delegationsOf_congr (h.delegations_eq (by simp) (by simp)) a)
  have hc (a : AccountId) : s'.candidate? a =
      if a = who then some (.fresh who s'.blockNumber) else s.candidate? a := h.candidate? hk a
  constructor
  · intro hs'
    exact (hd who).symm.trans (hs' who _ ((hc who).trans (if_pos rfl))).symm
  · intro h0 a c hac
    rw [hc] at hac
    rw [hd]
    split at hac
    · next ha => cases hac; exact (ha ▸ h0).symm
    · exact hs a c hac

/-- Whether the recorded stakes are still right after a step. -/
theorem State.Next.stakeRecorded_iff {e : Step AccountId} (hn : s.Next e s')
    (hk : s.UniqueKeys) (h : s.StakeRecorded) : s'.StakeRecorded ↔ s.RegistersUndelegated e := by
  have hk' := hn.uniqueKeys hk
  -- A step that keeps both sides keeps them equal.
  have hrecords (hdel : s'.delegations = s.delegations)
      (hc : ∀ a c, s'.candidate? a = some c → ∃ c₀, s.candidate? a = some c₀ ∧
        c.totalStake = c₀.totalStake) : s'.StakeRecorded := by
    rw [State.stakeRecorded_iff hk']
    rw [State.stakeRecorded_iff hk] at h
    intro a c hac
    obtain ⟨c₀, hc₀, he⟩ := hc a c hac
    rw [he, h a c₀ hc₀, State.totalDelegated_congr (State.delegationsOf_congr hdel a)]
  cases hn with
  | call he =>
    rename_i who call
    by_cases hcall : call = .registerCandidate
    · subst hcall
      obtain ⟨hnew, hroom⟩ := exists_register_iff.1 ⟨_, he⟩
      rw [he.stakeRecorded_register hk h]
      exact ⟨fun h0 who' hw _ _ => by cases hw; exact h0, fun h0 => h0 who rfl hnew hroom⟩
    · refine iff_of_true (he.stakeRecorded hk h hcall) fun who' hw => ?_
      cases hw
      exact absurd rfl hcall
  | failed hfail =>
    refine iff_of_true h fun who hw hnew hroom => ?_
    cases hw
    obtain ⟨s', he⟩ := exists_register_iff.2 ⟨hnew, hroom⟩
    exact absurd he (hfail who s' rfl)
  | other hcall => exact iff_of_true h fun who hw => absurd (Step.tx.inj hw) (hcall _ _)
  | block index =>
    refine iff_of_true (hrecords (s.delegations_startBlock index) fun a c hac => ?_)
      fun who hw => by cases hw
    obtain ⟨c₀, _, hc₀, rfl⟩ := State.exists_of_candidate?_startBlock hac
    exact ⟨c₀, hc₀, rfl⟩
  | rotate =>
    refine iff_of_true (hrecords (State.delegations_rotateSession hk) fun a c hac => ?_)
      fun who hw => by cases hw
    obtain ⟨c₀, _, _, _, hc₀, rfl⟩ := State.exists_of_candidate?_rotateSession hk hac
    exact ⟨c₀, hc₀, rfl⟩

/-- The stake recorded for a candidate is never more than was delegated behind it: a
    registration records none, and every delegation or withdrawal records the sum. -/
theorem totalStake_le_of_reachable (hs : (chain T AccountId).Reachable s)
    {c : CandidateInfo AccountId} (hc : s.candidate? a = some c) :
    c.totalStake ≤ s.totalDelegated a := by
  refine reachable_induction (Q := fun s => ∀ c, s.candidate? a = some c →
    c.totalStake ≤ s.totalDelegated a) hs (fun g d c hc => by cases hc)
    (fun s e s' hk hn ih c hc => ?_) c hc
  cases hn with
  | call he =>
    rename_i who call
    rw [he.candidate? hk] at hc
    by_cases hr : call.restakes a
    · -- The sum is recorded.
      have hrec : s'.RecordsStake a :=
        (he.recordsStake_iff hk fun h => by rw [h] at hr; cases hr).2 (.inl hr)
      exact (hrec c (by rw [he.candidate? hk, hc])).le
    · rw [State.totalDelegated_congr (he.delegationsOf_eq hr)]
      split at hc
      · cases call with
        | registerCandidate => cases hc; exact Nat.zero_le _
        | stakeCandidate | unstakeCandidate =>
          next ha => exact absurd (decide_eq_true ha.symm) hr
        | _ => obtain ⟨c₀, hc₀, rfl⟩ := Option.map_eq_some_iff.1 hc; exact ih c₀ hc₀
      · exact ih c hc
  | failed | other => exact ih c hc
  | block index =>
    rw [State.totalDelegated_congr (State.delegationsOf_congr (s.delegations_startBlock index) a)]
    obtain ⟨c₀, _, hc₀, rfl⟩ := State.exists_of_candidate?_startBlock hc
    exact ih c₀ hc₀
  | rotate =>
    rw [State.totalDelegated_congr
      (State.delegationsOf_congr (State.delegations_rotateSession hk) a)]
    obtain ⟨c₀, _, _, _, hc₀, rfl⟩ := State.exists_of_candidate?_rotateSession hk hc
    exact ih c₀ hc₀

/-- Throughout a run, the recorded stakes are right exactly when no account
    registers with delegations of a non-zero sum behind it. -/
theorem always_stakeRecorded_iff {es : List (Step AccountId)} (h₀ : s ∈ (chain T AccountId).init) :
    (chain T AccountId).Always State.StakeRecorded s es ↔
      (chain T AccountId).Along State.RegistersUndelegated s es := by
  refine System.always_iff_along (.init h₀) ?_ fun s e hs h =>
    (s.next_step e).stakeRecorded_iff (uniqueKeys_of_reachable hs) h
  obtain ⟨g, d, rfl⟩ := genesis_cases h₀
  exact fun c hc => absurd hc List.not_mem_nil

theorem always_stakeRecorded_bonded :
    (chain Config.runtime Keyring).Always State.StakeRecorded developmentState
      [.signed .bob .registerCandidate, .signed .bob (.bondCandidate (10 ^ 14)),
        .signed .aliceStash (.stakeCandidate .bob (10 ^ 13)), .rotate] :=
  (always_stakeRecorded_iff developmentState_mem).2
    ⟨fun who hw _ _ => by cases hw; decide, nofun, nofun, nofun, trivial⟩

/-- A candidate that was dropped registers again with no stake recorded, while
    what was delegated behind it is still there. -/
theorem not_always_stakeRecorded :
    ¬(chain Config.runtime Keyring).Always State.StakeRecorded developmentState
      [.signed .bob .registerCandidate, .signed .aliceStash (.stakeCandidate .bob (10 ^ 13)),
        .rotate, .signed .bob .registerCandidate] := by
  rintro ⟨-, -, -, -, h⟩
  exact absurd h.start (by decide)

end Xode.Staking
