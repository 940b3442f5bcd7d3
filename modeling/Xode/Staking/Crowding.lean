import Xode.Staking.Delegations

/-!
# Crowding

There are places for `MaxDelegationsPerCandidate` delegations behind a candidate, and
whoever finds them all taken cannot delegate. A place is taken by a delegation of any
amount, which may be zero, and so for nothing. A candidate is crowded when all places
behind it are taken, one of them for nothing, with someone left without a place. At a
registered candidate that is not crowded, whoever is turned away is so by the stakes of
others (`earnsPlaces_iff`).

Which steps crowd a candidate is seen before they are made (`State.KeepsUncrowded`): a
delegation that takes the last place, if it or one of the others is of zero, and the
registration of an account behind which all places are still taken from before. Places are
taken by stakes only, throughout a run, exactly when no step does either
(`always_earnsPlaces_iff`).
-/

namespace Xode.Staking

variable {T : Config} {AccountId : Type} [DecidableEq AccountId]
  {s s' : State T AccountId} {c d who : AccountId} {amount : ℕ}

/-! ### Being turned away -/

theorem addDelegation_eq_none {ds : DelegationList T AccountId} :
    addDelegation who amount ds = none ↔ who ∉ ds.toList.map Delegation.delegator ∧
      ds.toList.length = T.maxDelegationsPerCandidate := by
  rw [addDelegation]
  split
  · next hw => exact iff_of_false (by simp) fun h => h.1 (List.mem_map.2 hw)
  · next hw =>
    rw [BoundedVec.tryPush_eq_none, and_iff_right]
    exact mt List.mem_map.1 hw

theorem State.length_delegationsOf_le (s : State T AccountId) (c : AccountId) :
    (s.delegationsOf c).length ≤ T.maxDelegationsPerCandidate := by
  rw [delegationsOf_eq]
  exact BoundedVec.length_le _

/-- Whoever can have the amount reserved may delegate, as long as there is a place. -/
theorem exists_stake_iff : (∃ s', Effect s who (.stakeCandidate c amount) s') ↔
    who ≠ c ∧ (s.candidate? c).isSome ∧ (s.currency.reserve who amount).isSome ∧
      (who ∈ (s.delegationsOf c).map Delegation.delegator ∨
        (s.delegationsOf c).length < T.maxDelegationsPerCandidate) := by
  have hplace : (addDelegation who amount ((s.delegations.lookup c).getD .empty)).isSome ↔
      (who ∈ (s.delegationsOf c).map Delegation.delegator ∨
        (s.delegationsOf c).length < T.maxDelegationsPerCandidate) := by
    have hle := ((s.delegations.lookup c).getD .empty).length_le
    rw [Option.isSome_iff_ne_none, Ne, addDelegation_eq_none, State.delegationsOf_eq,
      Classical.not_and_iff_not_or_not, not_not, hle.lt_iff_ne]
  rw [← hplace]
  constructor
  · rintro ⟨s', h⟩
    cases h with
    | stakeCandidate hne hc _ hreserve hds =>
      exact ⟨hne, Option.isSome_of_eq_some hc, Option.isSome_of_eq_some hreserve,
        Option.isSome_of_eq_some hds⟩
  · rintro ⟨hne, hc, hreserve, hds⟩
    obtain ⟨r, hr⟩ := Option.isSome_iff_exists.1 hc
    obtain ⟨currency, hcur⟩ := Option.isSome_iff_exists.1 hreserve
    obtain ⟨ds, hds⟩ := Option.isSome_iff_exists.1 hds
    exact ⟨_, .stakeCandidate hne hr (Ledger.reserve_eq_some hcur).1 hcur hds⟩

/-- A delegation of an account without one that could be reserved is turned away exactly
    when all places are taken. -/
theorem stakeCandidate_eq_maxExceeded (hc : (s.candidate? c).isSome) (hd : d ≠ c)
    (hnew : d ∉ (s.delegationsOf c).map Delegation.delegator)
    (hreserve : (s.currency.reserve d amount).isSome) :
    (∃ s', stakeCandidate (.signed d) c amount s = .error (.module .delegationsMaxExceeded) s') ↔
      (s.delegationsOf c).length = T.maxDelegationsPerCandidate := by
  constructor
  · rintro ⟨s', h⟩
    by_contra hroom
    -- With a place left, the call succeeds.
    have hlt := (State.length_delegationsOf_le s c).lt_of_ne hroom
    obtain ⟨s'', he⟩ := exists_stake_iff.2 ⟨hd, hc, hreserve, .inr hlt⟩
    rw [stakeCandidate_eq_ok (u := ()).2 ⟨d, rfl, he⟩] at h
    cases h
  · intro hfull
    obtain ⟨currency, hcur⟩ := Option.isSome_iff_exists.1 hreserve
    have hfree := (Ledger.reserve_eq_some hcur).1
    rw [State.delegationsOf_eq] at hnew hfull
    refine ⟨{ s with currency }, ?_⟩
    refine bind_eq_error.2 (.inr ⟨d, s, ensureSigned_eq_ok.2 ⟨rfl, rfl⟩, ?_⟩)
    refine bind_eq_error.2 (.inr ⟨(), s, ensure_eq_ok.2 ⟨hd, rfl⟩, ?_⟩)
    refine bind_eq_error.2 (.inr ⟨s, s, get_eq_ok.2 ⟨rfl, rfl⟩, ?_⟩)
    refine bind_eq_error.2 (.inr ⟨(), s,
      ensure_eq_ok.2 ⟨State.candidate?_isSome.1 hc, rfl⟩, ?_⟩)
    refine bind_eq_error.2 (.inr ⟨(), s, ensure_eq_ok.2 ⟨hfree, rfl⟩, ?_⟩)
    refine bind_eq_error.2 (.inr ⟨(), _, reserve_eq_ok.2 ⟨currency, hcur, rfl⟩, ?_⟩)
    refine bind_eq_error.2 (.inr ⟨_, _, get_eq_ok.2 ⟨rfl, rfl⟩, ?_⟩)
    exact bind_eq_error.2 (.inl (okOr_eq_error.2
      ⟨addDelegation_eq_none.2 ⟨hnew, hfull⟩, rfl, rfl⟩))

namespace State

/-- An account without a delegation that is turned away at a registered candidate, although
    its amount could be reserved, is so by the stakes of as many others as there are
    places. -/
def EarnsPlaces (s : State T AccountId) : Prop :=
  ∀ c d amount s', (s.candidate? c).isSome → d ≠ c →
    d ∉ (s.delegationsOf c).map Delegation.delegator → (s.currency.reserve d amount).isSome →
    stakeCandidate (.signed d) c amount s = .error (.module .delegationsMaxExceeded) s' →
    ∃ others : List AccountId, others.Nodup ∧ others.length = T.maxDelegationsPerCandidate ∧
      ∀ a ∈ others, a ≠ d ∧ ∃ e ∈ s.delegationsOf c, e.delegator = a ∧ 0 < e.stake

/-- All places behind `c` are taken, one of them for nothing, and someone is left without. -/
def Crowded (s : State T AccountId) (c : AccountId) : Prop :=
  (s.delegationsOf c).length = T.maxDelegationsPerCandidate ∧
    (∃ d, d ≠ c ∧ d ∉ (s.delegationsOf c).map Delegation.delegator) ∧
    ∃ e ∈ s.delegationsOf c, e.stake = 0

/-- No registered candidate is crowded. -/
def Uncrowded (s : State T AccountId) : Prop := ∀ c, (s.candidate? c).isSome → ¬s.Crowded c

/-- The step crowds no candidate. It is no delegation that takes the last place behind a
    candidate, with someone left without, while it or another one there is of zero; and no
    registration of an account that is crowded already. -/
def KeepsUncrowded (s : State T AccountId) (e : Step AccountId) : Prop :=
  (∀ who c amount, e = .signed who (.stakeCandidate c amount) → who ≠ c →
    (s.candidate? c).isSome → (s.currency.reserve who amount).isSome →
    who ∉ (s.delegationsOf c).map Delegation.delegator →
    (s.delegationsOf c).length + 1 = T.maxDelegationsPerCandidate →
    (∃ d, d ≠ c ∧ d ≠ who ∧ d ∉ (s.delegationsOf c).map Delegation.delegator) →
    amount ≠ 0 ∧ ∀ x ∈ s.delegationsOf c, x.stake ≠ 0) ∧
  ∀ c, e = .signed c .registerCandidate → s.candidate? c = none →
    s.proposedCandidates.toList.length < T.maxCandidates → ¬s.Crowded c

end State

omit [DecidableEq AccountId] in
/-- Accounts with stakes take all places exactly when no place is taken for nothing. -/
theorem exists_others_iff {l : List (Delegation AccountId)}
    (hl : (l.map Delegation.delegator).Nodup) (hd : d ∉ l.map Delegation.delegator) :
    (∃ others : List AccountId, others.Nodup ∧ others.length = l.length ∧
      ∀ a ∈ others, a ≠ d ∧ ∃ e ∈ l, e.delegator = a ∧ 0 < e.stake) ↔
    ∀ e ∈ l, e.stake ≠ 0 := by
  constructor
  · rintro ⟨others, hnodup, hlen, hothers⟩ e he
    -- As many of the delegators as there are, are all of them.
    have hsub : others ⊆ l.map Delegation.delegator := fun a ha => by
      obtain ⟨-, e, he, rfl, -⟩ := hothers a ha
      exact List.mem_map_of_mem he
    have hperm := (List.subperm_of_subset hnodup hsub).perm_of_length_le
      (by rw [List.length_map, hlen])
    obtain ⟨-, e', he', hde, hpos⟩ := hothers e.delegator (hperm.mem_iff.2 (List.mem_map_of_mem he))
    rw [← List.inj_on_of_nodup_map hl he' he hde]
    exact hpos.ne'
  · intro h
    refine ⟨l.map Delegation.delegator, hl, List.length_map _, fun a ha => ?_⟩
    obtain ⟨e, he, rfl⟩ := List.mem_map.1 ha
    exact ⟨fun hed => hd (hed ▸ ha), e, he, rfl, Nat.pos_of_ne_zero (h e he)⟩

/-- Places are taken by stakes only exactly when no registered candidate is crowded. -/
theorem earnsPlaces_iff (hs : (chain T AccountId).Reachable s) : s.EarnsPlaces ↔ s.Uncrowded := by
  constructor
  · rintro h c hc ⟨hfull, ⟨d, hdc, hd⟩, e, he, hzero⟩
    -- Nothing can always be reserved.
    have hreserve : (s.currency.reserve d 0).isSome := rfl
    obtain ⟨s', hs'⟩ := (stakeCandidate_eq_maxExceeded hc hdc hd hreserve).2 hfull
    have := h c d 0 s' hc hdc hd hreserve hs'
    rw [← hfull] at this
    exact (exists_others_iff (nodup_delegators_of_reachable hs c) hd).1 this e he hzero
  · intro h c d amount s' hc hdc hd hreserve hs'
    have hfull := (stakeCandidate_eq_maxExceeded hc hdc hd hreserve).1 ⟨s', hs'⟩
    rw [← hfull]
    refine (exists_others_iff (nodup_delegators_of_reachable hs c) hd).2 fun e he hzero => ?_
    exact h c hc ⟨hfull, ⟨d, hdc, hd⟩, e, he, hzero⟩

/-! ### Steps -/

/-- No stake is larger than a balance. -/
theorem stake_le_of_reachable (hs : (chain T AccountId).Reachable s) :
    ∀ c, ∀ x ∈ s.delegationsOf c, x.stake ≤ T.maxBalance := by
  refine reachable_induction hs (fun g d c x hx => absurd hx List.not_mem_nil)
    fun s e s' hk hn ih c x hx => ?_
  obtain ⟨who, call, -, he⟩ | hd := hn.delegations_eq hk
  · rw [he.delegationsOf] at hx
    cases call with
    | stakeCandidate candidate amount =>
      obtain ⟨-, -, -, -, -, hfree, -⟩ := he.redelegates_stake
      rw [Call.redelegate, withStake] at hx
      split_ifs at hx
      · rcases mem_updateKey hx with hx | ⟨y, -, -, rfl⟩
        · exact ih c x hx
        · exact min_le_right _ _
      · rcases List.mem_append.1 hx with hx | hx
        · exact ih c x hx
        · rw [List.mem_singleton.1 hx]
          exact hfree.trans ((Nat.le_add_right _ _).trans (s.currency.total_le who))
      · exact ih c x hx
    | unstakeCandidate candidate =>
      rw [Call.redelegate] at hx
      split at hx
      · exact ih c x (List.mem_of_mem_eraseP hx)
      · exact ih c x hx
    | _ => exact ih c x hx
  · rw [State.delegationsOf_congr hd] at hx
    exact ih c x hx

theorem State.Crowded.congr (h : s'.delegationsOf c = s.delegationsOf c) :
    s'.Crowded c ↔ s.Crowded c := by
  rw [Crowded, h, Crowded]

/-- A delegation with a place of its own crowds its candidate only by taking the last one. -/
theorem Effect.crowded_stake (h : Effect s who (.stakeCandidate c amount) s')
    (hnew : who ∉ (s.delegationsOf c).map Delegation.delegator) :
    s'.Crowded c ↔ (s.delegationsOf c).length + 1 = T.maxDelegationsPerCandidate ∧
      (∃ d, d ≠ c ∧ d ≠ who ∧ d ∉ (s.delegationsOf c).map Delegation.delegator) ∧
      ¬(amount ≠ 0 ∧ ∀ x ∈ s.delegationsOf c, x.stake ≠ 0) := by
  have hdel : s'.delegationsOf c = s.delegationsOf c ++ [⟨who, amount⟩] :=
    (h.delegationsOf c).trans ((if_pos rfl).trans (if_neg hnew))
  have hout (d : AccountId) :
      d ∉ (s.delegationsOf c ++ [Delegation.mk who amount]).map Delegation.delegator ↔
        d ≠ who ∧ d ∉ (s.delegationsOf c).map Delegation.delegator := by
    rw [List.map_append, List.mem_append, not_or, List.map_singleton, List.mem_singleton, and_comm]
  have hzero : (∃ x ∈ s.delegationsOf c ++ [Delegation.mk who amount], x.stake = 0) ↔
      ¬(amount ≠ 0 ∧ ∀ x ∈ s.delegationsOf c, x.stake ≠ 0) := by
    rw [← not_iff_not, not_not]
    constructor
    · refine fun h => ⟨fun h0 => h ⟨_, List.mem_append_right _ (List.mem_singleton_self _), h0⟩,
        fun x hx h0 => h ⟨x, List.mem_append_left _ hx, h0⟩⟩
    · rintro ⟨hamount, hall⟩ ⟨x, hx, h0⟩
      rcases List.mem_append.1 hx with hx | hx
      · exact hall x hx h0
      · rw [List.mem_singleton.1 hx] at h0
        exact hamount h0
  simp only [State.Crowded, hdel, List.length_append, List.length_singleton, hout, hzero]

/-- Adding to a delegation crowds no candidate: no place is taken, and no stake is gone. -/
theorem Effect.crowded_topUp (h : Effect s who (.stakeCandidate c amount) s')
    (hs : (chain T AccountId).Reachable s)
    (hold : who ∈ (s.delegationsOf c).map Delegation.delegator) (hc : ¬s.Crowded c) :
    ¬s'.Crowded c := by
  have hdel : s'.delegationsOf c = updateKey Delegation.delegator who
      (fun d => { d with stake := satAdd T d.stake amount }) (s.delegationsOf c) :=
    (h.delegationsOf c).trans ((if_pos rfl).trans (if_pos hold))
  rw [State.Crowded, hdel, length_updateKey, map_key_updateKey (by exact fun _ => rfl)]
  rintro ⟨hfull, hout, x, hx, hzero⟩
  refine hc ⟨hfull, hout, ?_⟩
  rcases mem_updateKey hx with hx | ⟨y, hy, -, rfl⟩
  · exact ⟨x, hx, hzero⟩
  · have := stake_le_of_reachable hs c y hy
    refine ⟨y, hy, ?_⟩
    simp only [satAdd] at hzero
    omega

/-- A withdrawal crowds no candidate: there is a place again. -/
theorem Effect.crowded_unstake (h : Effect s who (.unstakeCandidate c) s') : ¬s'.Crowded c := by
  obtain ⟨x, hx, -⟩ := h.redelegates_unstake
  have hdel : s'.delegationsOf c = eraseKey Delegation.delegator who (s.delegationsOf c) :=
    (h.delegationsOf c).trans (if_pos rfl)
  have hmem := mem_of_findKey hx
  have hlen : (eraseKey Delegation.delegator who (s.delegationsOf c)).length + 1 =
      (s.delegationsOf c).length := by
    rw [eraseKey, List.length_eraseP_of_mem hmem (by simpa using key_of_findKey hx)]
    exact Nat.sub_add_cancel (List.length_pos_of_mem hmem)
  have := State.length_delegationsOf_le s c
  rintro ⟨hfull, -⟩
  rw [hdel] at hfull
  omega

/-- Only delegations and registrations may crowd a candidate. -/
theorem State.keepsUncrowded_of_ne {e : Step AccountId}
    (hstake : ∀ who c amount, e ≠ .signed who (.stakeCandidate c amount))
    (hregister : ∀ c, e ≠ .signed c .registerCandidate) : s.KeepsUncrowded e :=
  ⟨fun who c amount he => absurd he (hstake who c amount), fun c he => absurd he (hregister c)⟩

/-- Whether any candidate is crowded after a call. -/
theorem Effect.uncrowded_iff {call : Call AccountId} (he : Effect s who call s')
    (hs : (chain T AccountId).Reachable s) (h : s.Uncrowded) :
    s'.Uncrowded ↔ s.KeepsUncrowded (.signed who call) := by
  have hk := uniqueKeys_of_reachable hs
  -- Other candidates than the one the call is about are crowded if they were.
  have hone (k : AccountId) (hk' : (s'.candidate? k).isSome)
      (hother : ∀ c, c ≠ k → (s'.candidate? c).isSome → (s.candidate? c).isSome ∧
        s'.delegationsOf c = s.delegationsOf c) : s'.Uncrowded ↔ ¬s'.Crowded k := by
    refine ⟨fun h' => h' k hk', fun hnot c hc => ?_⟩
    by_cases hck : c = k
    · exact hck ▸ hnot
    · obtain ⟨hc, hdel⟩ := hother c hck hc
      exact (State.Crowded.congr hdel).not.2 (h c hc)
  have hreg (hcall : call ≠ .registerCandidate) (c : AccountId) (hc : (s'.candidate? c).isSome) :
      (s.candidate? c).isSome :=
    ((he.candidate?_isSome_iff hk).1 hc).resolve_right fun h => hcall h.1
  have hdel {c : AccountId} (hc : ¬call.restakes c) := he.delegationsOf_eq hc
  cases call with
  | stakeCandidate k amount =>
    obtain ⟨hne, hreg', hreserve, hplace⟩ := exists_stake_iff.1 ⟨_, he⟩
    have hiff := hone k (he.candidate?_isSome hk hreg') fun c hck hc =>
      ⟨hreg (by simp) c hc, hdel (by simpa [Call.restakes] using Ne.symm hck)⟩
    rw [hiff]
    by_cases hold : who ∈ (s.delegationsOf k).map Delegation.delegator
    · refine iff_of_true (he.crowded_topUp hs hold (h k hreg')) ⟨?_, fun _ he => by cases he⟩
      rintro _ _ _ ⟨⟩ - - - hnew
      exact absurd hold hnew
    · rw [he.crowded_stake hold]
      constructor
      · refine fun hnot => ⟨?_, fun _ he => by cases he⟩
        rintro _ _ _ ⟨⟩ - - - - hlast hout
        exact not_not.1 fun hzero => hnot ⟨hlast, hout, hzero⟩
      · rintro ⟨hstake, -⟩ ⟨hlast, hout, hzero⟩
        exact hzero (hstake _ _ _ rfl hne hreg' hreserve hold hlast hout)
  | unstakeCandidate k =>
    have hreg' : (s.candidate? k).isSome := he.redelegates_unstake.choose_spec.2.2.2
    refine iff_of_true ((hone k (he.candidate?_isSome hk hreg') fun c hck hc =>
      ⟨hreg (by simp) c hc, hdel (by simpa [Call.restakes] using Ne.symm hck)⟩).2
        he.crowded_unstake) (State.keepsUncrowded_of_ne (by simp) (by simp))
  | registerCandidate =>
    obtain ⟨hnew, hroom⟩ := exists_register_iff.1 ⟨_, he⟩
    have hiff := hone who ((he.candidate?_isSome_iff hk).2 (.inr ⟨rfl, rfl⟩)) fun c hc hc' =>
      ⟨((he.candidate?_isSome_iff hk).1 hc').resolve_right fun h => hc h.2,
        hdel (by simp [Call.restakes])⟩
    rw [hiff, State.Crowded.congr (hdel (by simp [Call.restakes]))]
    refine ⟨fun hnot => ⟨fun _ _ _ he => (by cases he), ?_⟩, fun h => h.2 who rfl hnew hroom⟩
    rintro _ ⟨⟩ - -
    exact hnot
  | _ =>
    refine iff_of_true (fun c hc => ?_) (State.keepsUncrowded_of_ne (by simp) (by simp))
    rw [State.Crowded.congr (hdel (by simp [Call.restakes]))]
    exact h c (hreg (by simp) c hc)

/-- Whether any candidate is crowded after a step. -/
theorem State.Next.uncrowded_iff {e : Step AccountId} (hn : s.Next e s')
    (hs : (chain T AccountId).Reachable s) (h : s.Uncrowded) :
    s'.Uncrowded ↔ s.KeepsUncrowded e := by
  have hk := uniqueKeys_of_reachable hs
  cases hn with
  | call he => exact he.uncrowded_iff hs h
  | failed hfail =>
    -- The call would have had an effect, had it crowded a candidate.
    refine iff_of_true h ⟨?_, ?_⟩
    · rintro who c amount ⟨⟩ hne hc hreserve - hlast -
      obtain ⟨s', he⟩ := exists_stake_iff.2 ⟨hne, hc, hreserve, .inr (by omega)⟩
      exact absurd he (hfail who s' rfl)
    · rintro c ⟨⟩ hnew hroom
      obtain ⟨s', he⟩ := exists_register_iff.2 ⟨hnew, hroom⟩
      exact absurd he (hfail c s' rfl)
  | other hcall =>
    exact iff_of_true h (State.keepsUncrowded_of_ne
      (fun _ _ _ he => hcall _ _ (Step.tx.inj he)) fun _ he => hcall _ _ (Step.tx.inj he))
  | block index =>
    refine iff_of_true (fun c hc => ?_) (State.keepsUncrowded_of_ne (by simp) (by simp))
    rw [State.Crowded.congr (State.delegationsOf_congr (s.delegations_startBlock index) c)]
    obtain ⟨r, hr⟩ := Option.isSome_iff_exists.1 hc
    obtain ⟨r₀, _, hr₀, -⟩ := State.exists_of_candidate?_startBlock hr
    exact h c (Option.isSome_of_eq_some hr₀)
  | rotate =>
    refine iff_of_true (fun c hc => ?_) (State.keepsUncrowded_of_ne (by simp) (by simp))
    rw [State.Crowded.congr (State.delegationsOf_congr (State.delegations_rotateSession hk) c)]
    obtain ⟨r, hr⟩ := Option.isSome_iff_exists.1 hc
    obtain ⟨r₀, _, _, _, hr₀, -⟩ := State.exists_of_candidate?_rotateSession hk hr
    exact h c (Option.isSome_of_eq_some hr₀)

/-- Throughout a run, whoever is turned away at a registered candidate is so by stakes,
    exactly when no step crowds a candidate. -/
theorem always_earnsPlaces_iff {es : List (Step AccountId)} (h₀ : s ∈ (chain T AccountId).init) :
    (chain T AccountId).Always State.EarnsPlaces s es ↔
      (chain T AccountId).Along State.KeepsUncrowded s es := by
  have hs : (chain T AccountId).Reachable s := .init h₀
  have hstart : s.Uncrowded := by
    obtain ⟨g, d, rfl⟩ := genesis_cases h₀
    exact fun c hc => by cases hc
  rw [← System.always_iff_along hs hstart fun s e hs h => (s.next_step e).uncrowded_iff hs h]
  exact ⟨fun h => h.mono hs fun s hs => (earnsPlaces_iff hs).1,
    fun h => h.mono hs fun s hs => (earnsPlaces_iff hs).2⟩

/-- With one place behind a candidate, a stake takes it. -/
theorem always_earnsPlaces_staked :
    (chain { Config.runtime with maxDelegationsPerCandidate := 1 } Keyring).Always
      State.EarnsPlaces (development _ (by decide) (by decide))
      [.signed .bob .registerCandidate, .signed .aliceStash (.stakeCandidate .bob 1)] :=
  (always_earnsPlaces_iff development_mem).2
    ⟨⟨nofun, by rintro _ ⟨⟩ - - ⟨-, -, x, hx, -⟩; cases hx⟩,
      ⟨by rintro _ _ _ ⟨⟩ - - - - - -; exact ⟨by decide, fun x hx => by cases hx⟩, nofun⟩, trivial⟩

/-- A genesis with any number of endowed accounts. -/
def numberedGenesis : Genesis Config.runtime ℕ where
  staking := { desiredCandidates := [0] }
  balances := fun _ => 2 ^ 60
  balances_le := fun _ => by decide
  grants := fun _ _ => true
  hasKeys := fun a => a = 0

/-- The genesis state of this chain. -/
def numberedState : State Config.runtime ℕ := numberedGenesis.state.get (by decide)

/-- All places behind a candidate are taken by delegations of zero. -/
theorem not_earnsPlaces_zero :
    let s := (chain Config.runtime ℕ).run numberedState
      (.signed 1 .registerCandidate ::
        (List.range 100).map fun i => .signed (i + 2) (.stakeCandidate 1 0))
    (chain Config.runtime ℕ).Reachable s ∧ ¬s.EarnsPlaces := by
  intro s
  have hinit : numberedState ∈ (chain Config.runtime ℕ).init :=
    ⟨numberedGenesis, (Option.some_get _).symm⟩
  have hs : (chain Config.runtime ℕ).Reachable s := (System.Reachable.init hinit).run _
  obtain ⟨hreg, hdel⟩ : (s.candidate? 1).isSome ∧
      s.delegationsOf 1 = (List.range 100).map fun i => ⟨i + 2, 0⟩ := by decide +kernel
  refine ⟨hs, fun h => (earnsPlaces_iff hs).1 h 1 hreg ?_⟩
  rw [State.Crowded, hdel]
  exact ⟨by decide, ⟨0, by decide, by decide⟩, ⟨2, 0⟩, by decide, rfl⟩

end Xode.Staking
