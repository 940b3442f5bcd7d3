import Xode.Staking.Runs

/-!
# The slots

The three lists of a candidate's way into the validator set: `WaitingCandidates`,
`Invulnerables`, and the validators of `pallet_session`, queued and current.
Between rotations nothing moves on them (`Next.sameSlots`); a rotation moves each list
one step on (`advances_rotateSession`).

* The lists stay well formed: the desired candidates, fixed at genesis, lead them,
  and no account is on them twice (`run_wellFormed`). Once there are validators to
  hand to the session, there always are.
* What is on the waiting list is handed to the session at the next rotation, and
  validates from the one after that, as it is (`handsOver_of_reachable`).
-/

namespace Xode.Staking

variable {T : Config} {AccountId : Type} [DecidableEq AccountId]
  {s s' s₀ : State T AccountId} {a : AccountId}

namespace State

/-- The lists are the same in both states. -/
structure SameSlots (s s' : State T AccountId) : Prop where
  waiting : s'.waitingCandidates = s.waitingCandidates
  invulnerables : s'.invulnerables = s.invulnerables
  desired : s'.desiredCandidates = s.desiredCandidates
  validators : s'.session.validators = s.session.validators
  queued : s'.session.queued = s.session.queued

/-- The lists move one step on: the waiting list to the validator set, what has been
    queued to the current validators, and those of the validator set with keys are
    queued. -/
structure Advances (s s' : State T AccountId) : Prop where
  waiting : s'.waitingCandidates.toList = s.desiredCandidates.toList ++ s.selected
  invulnerables : s'.invulnerables = s.nextInvulnerables
  desired : s'.desiredCandidates = s.desiredCandidates
  validators : s'.session.validators = s.session.queued
  queued : s'.session.queued = s.nextInvulnerables.toList.filter s.session.hasKeys

omit [DecidableEq AccountId] in
theorem SameSlots.refl (s : State T AccountId) : s.SameSlots s := ⟨rfl, rfl, rfl, rfl, rfl⟩

omit [DecidableEq AccountId] in
theorem SameSlots.trans {s'' : State T AccountId} (h : s.SameSlots s') (h' : s'.SameSlots s'') :
    s.SameSlots s'' :=
  ⟨h'.waiting.trans h.waiting, h'.invulnerables.trans h.invulnerables, h'.desired.trans h.desired,
    h'.validators.trans h.validators, h'.queued.trans h.queued⟩

theorem Advances.trans {s'' : State T AccountId} (h : s.Advances s') (h' : s'.SameSlots s'') :
    s.Advances s'' :=
  ⟨h'.waiting ▸ h.waiting, h'.invulnerables.trans h.invulnerables, h'.desired.trans h.desired,
    h'.validators.trans h.validators, h'.queued.trans h.queued⟩

/-- Between rotations, no step changes the lists. -/
theorem Next.sameSlots {e : Step AccountId} (h : s.Next e s') (he : e ≠ .rotate) :
    s.SameSlots s' := by
  cases h with
  | call h =>
    have hf := h.frame
    exact ⟨hf.waitingCandidates, hf.invulnerables, hf.desiredCandidates, by rw [hf.session],
      by rw [hf.session]⟩
  | failed => exact .refl s
  | other => exact ⟨rfl, rfl, rfl, rfl, rfl⟩
  | block index =>
    obtain ⟨p, actualAuthors, h⟩ := s.startBlock_eq index
    rw [h]
    exact ⟨rfl, rfl, rfl, rfl, rfl⟩
  | rotate => exact absurd rfl he

theorem sameSlots_run {es : List (Step AccountId)} (hes : ∀ e ∈ es, e ≠ .rotate) :
    s.SameSlots ((chain T AccountId).run s es) :=
  System.run_induction (SameSlots.refl s) fun s' e he h =>
    h.trans ((s'.next_step e).sameSlots (hes e he))

theorem advances_rotateSession (hk : s.UniqueKeys) : s.Advances s.rotateSession := by
  obtain ⟨p, w, h, hw, -⟩ := rotateSession_eq hk
  rw [h]
  exact ⟨hw, rfl, rfl, rfl, rfl⟩

/-- The accounts a rotation puts on the waiting list are desired or eligible, and
    none of them twice. -/
theorem nodup_selected (hk : s.UniqueKeys) (hd : s.desiredCandidates.toList.Nodup) :
    (s.desiredCandidates.toList ++ s.selected).Nodup := by
  have hsub : s.selected.Sublist (newcomers s.slashed.proposedCandidates.toList
      s.desiredCandidates.toList) := List.take_sublist _ _
  refine List.nodup_append.2 ⟨hd, ?_, fun a ha b hb hab => ?_⟩
  · exact (uniqueKeys_slashed hk).sublist (hsub.trans (List.filter_sublist.map _))
  · obtain ⟨c, hc, rfl⟩ := List.mem_map.1 (hsub.subset hb)
    simp only [List.mem_filter, decide_eq_true_eq] at hc
    exact hc.2.2 (hab ▸ ha)

omit [DecidableEq AccountId] in
theorem nextInvulnerables_ne_nil (h : s.invulnerables.toList ≠ []) :
    s.nextInvulnerables.toList ≠ [] := by
  rw [nextInvulnerables]
  split
  · exact h
  · next hw => exact hw

/-! ### Well-formed lists -/

/-- The desired candidates are `desired`, and lead the waiting list and the
    validator set, which have no account twice and fit the maximum. -/
structure WellFormed (desired : List AccountId) (s : State T AccountId) : Prop where
  desired_eq : s.desiredCandidates.toList = desired
  leads_waiting : desired <+: s.waitingCandidates.toList
  leads_invulnerables : desired <+: s.invulnerables.toList
  nodup_waiting : s.waitingCandidates.toList.Nodup
  nodup_invulnerables : s.invulnerables.toList.Nodup
  length_waiting : s.waitingCandidates.toList.length ≤ T.maxCandidates
  length_invulnerables : s.invulnerables.toList.length ≤ T.maxCandidates

theorem WellFormed.next {desired : List AccountId} {e : Step AccountId} (hn : s.Next e s')
    (hk : s.UniqueKeys) (h : s.WellFormed desired) : s'.WellFormed desired := by
  by_cases he : e = .rotate
  · subst he
    cases hn
    have hr := advances_rotateSession hk
    -- The new validator set is one of two lists that are well formed already.
    have hinv : s.nextInvulnerables = s.invulnerables ∨
        s.nextInvulnerables = s.waitingCandidates := ite_eq_or_eq _ _ _
    exact {
      desired_eq := by rw [hr.desired, h.desired_eq]
      leads_waiting := by rw [hr.waiting, h.desired_eq]; exact List.prefix_append _ _
      leads_invulnerables := by
        rw [hr.invulnerables]
        obtain hinv | hinv := hinv <;> rw [hinv]
        exacts [h.leads_invulnerables, h.leads_waiting]
      nodup_waiting := by
        rw [hr.waiting]
        refine nodup_selected hk ?_
        rw [h.desired_eq]
        exact h.nodup_waiting.sublist h.leads_waiting.sublist
      nodup_invulnerables := by
        rw [hr.invulnerables]
        obtain hinv | hinv := hinv <;> rw [hinv]
        exacts [h.nodup_invulnerables, h.nodup_waiting]
      length_waiting := s.rotateSession.waitingCandidates.length_le
      length_invulnerables := s.rotateSession.invulnerables.length_le }
  · have hs := hn.sameSlots he
    exact {
      desired_eq := hs.desired ▸ h.desired_eq
      leads_waiting := hs.waiting ▸ h.leads_waiting
      leads_invulnerables := hs.invulnerables ▸ h.leads_invulnerables
      nodup_waiting := hs.waiting ▸ h.nodup_waiting
      nodup_invulnerables := hs.invulnerables ▸ h.nodup_invulnerables
      length_waiting := s'.waitingCandidates.length_le
      length_invulnerables := s'.invulnerables.length_le }

/-- The desired candidates lead the waiting list. -/
theorem desired_of_reachable (hs : (chain T AccountId).Reachable s) :
    s.desiredCandidates.toList <+: s.waitingCandidates.toList := by
  refine reachable_induction hs (fun g d => List.prefix_rfl) fun s e s' hk hn h => ?_
  by_cases he : e = .rotate
  · subst he
    cases hn
    have hr := advances_rotateSession hk
    rw [hr.waiting, hr.desired]
    exact List.prefix_append _ _
  · have hsame := hn.sameSlots he
    rwa [hsame.waiting, hsame.desired]

/-- Once there are validators to hand to the session, there always are. -/
theorem Next.invulnerables_ne_nil {e : Step AccountId} (hn : s.Next e s') (hk : s.UniqueKeys)
    (h : s.invulnerables.toList ≠ []) : s'.invulnerables.toList ≠ [] := by
  by_cases he : e = .rotate
  · subst he
    cases hn
    rw [(advances_rotateSession hk).invulnerables]
    exact nextInvulnerables_ne_nil h
  · rwa [(hn.sameSlots he).invulnerables]

end State

/-- Whatever follows, there are validators, and the session is handed them. -/
def State.HandsValidators (s : State T AccountId) : Prop :=
  ∀ es, ((chain T AccountId).run s es).invulnerables.toList ≠ [] ∧
    ∃ next, ((chain T AccountId).run s es).planSession.1 = some next ∧ next ≠ []

theorem handsValidators_of_reachable (hs : (chain T AccountId).Reachable s)
    (h : s.invulnerables.toList ≠ []) : s.HandsValidators := by
  intro es
  have h' : ((chain T AccountId).run s es).invulnerables.toList ≠ [] :=
    run_induction_of_reachable hs h fun s e _ s' hk hn h => hn.invulnerables_ne_nil hk h
  refine ⟨h', _, ?_, State.nextInvulnerables_ne_nil h'⟩
  obtain ⟨p, w, hp, -⟩ := State.planSession_eq (uniqueKeys_of_reachable (hs.run es))
  rw [hp]

/-- From any genesis without duplicates, the lists stay well formed; and once there
    are validators to hand to the session, there always are. -/
theorem run_wellFormed {g : Genesis T AccountId} (h₀ : g.state = some s₀)
    (hd : g.staking.desiredCandidates.Nodup) (es : List (Step AccountId)) :
    ((chain T AccountId).run s₀ es).WellFormed g.staking.desiredCandidates ∧
      (((chain T AccountId).run s₀ es).invulnerables.toList ≠ [] →
        ((chain T AccountId).run s₀ es).HandsValidators) := by
  have hs₀ : (chain T AccountId).Reachable s₀ := .init ⟨g, h₀⟩
  refine ⟨?_, handsValidators_of_reachable (hs₀.run es)⟩
  refine run_induction_of_reachable hs₀ ?_ fun s e _ s' hk hn h => h.next hn hk
  obtain ⟨d, hdg, rfl⟩ := genesis_eq h₀
  have hlead : g.staking.desiredCandidates <+: d.toList := hdg ▸ List.prefix_rfl
  have hnodup : d.toList.Nodup := hdg ▸ hd
  exact ⟨hdg, hlead, hlead, hnodup, hnodup, d.length_le, d.length_le⟩

/-- A genesis with two desired candidates. -/
def pairGenesis : Genesis Config.runtime Keyring :=
  { developmentConfigGenesis Config.runtime endowment_le_runtime with
    staking := { desiredCandidates := [.alice, .aliceStash] } }

/-- Bob gets on the lists behind the two desired candidates, one of which registers, too. -/
theorem run_wellFormed_pair :
    let es : List (Step Keyring) := [.signed .bob .registerCandidate,
      .signed .bob (.bondCandidate (10 ^ 14)), .signed .aliceStash .registerCandidate,
      .signed .aliceStash (.bondCandidate (2 * 10 ^ 14)), .rotate, .rotate]
    let s := (chain Config.runtime Keyring).run (pairGenesis.state.get (by decide)) es
    s.waitingCandidates.toList = [.alice, .aliceStash, .bob] ∧
      s.invulnerables.toList = [.alice, .aliceStash, .bob] ∧
      s.WellFormed [.alice, .aliceStash] ∧ s.HandsValidators := by
  intro es s
  obtain ⟨hlists, hhands⟩ :=
    run_wellFormed (g := pairGenesis) (Option.some_get _).symm (by decide) es
  exact ⟨by decide, by decide, hlists, hhands (by decide)⟩

/-! ### From the waiting list to the validators -/

/-- The waiting list of `s` stays what it is on the way `es₁` to the next rotation,
    where it is handed to the session; those on it with session keys at that time
    are the validators after the rotation that follows on `es₂`, in its order. -/
structure State.HandsOver (s : State T AccountId) (es₁ es₂ : List (Step AccountId)) : Prop where
  waiting_eq : ((chain T AccountId).run s es₁).waitingCandidates = s.waitingCandidates
  next_eq : ((chain T AccountId).run s es₁).planSession.1 = some s.waitingCandidates.toList
  invulnerables_eq :
    ((chain T AccountId).run s es₁).rotateSession.invulnerables = s.waitingCandidates
  validators_eq : ((chain T AccountId).run ((chain T AccountId).run s es₁).rotateSession
      es₂).rotateSession.session.validators =
    s.waitingCandidates.toList.filter ((chain T AccountId).run s es₁).session.hasKeys

/-- With desired candidates, the waiting list is handed over from rotation to
    rotation, whatever happens between them. -/
theorem handsOver_of_reachable (hs : (chain T AccountId).Reachable s)
    (hd : s.desiredCandidates.toList ≠ []) {es₁ es₂ : List (Step AccountId)}
    (h₁ : ∀ e ∈ es₁, e ≠ .rotate) (h₂ : ∀ e ∈ es₂, e ≠ .rotate) : s.HandsOver es₁ es₂ := by
  have hs₁ := hs.run es₁
  have hk₁ := uniqueKeys_of_reachable hs₁
  have hs₂ := (reachable_rotateSession hs₁).run es₂
  have hw₁ := (State.sameSlots_run (s := s) h₁).waiting
  -- The waiting list is led by the desired candidates, and so not empty.
  have hnext : ((chain T AccountId).run s es₁).nextInvulnerables = s.waitingCandidates := by
    rw [State.nextInvulnerables, hw₁, if_neg]
    exact fun h => hd (List.prefix_nil.1 (h ▸ State.desired_of_reachable hs))
  have hr := State.advances_rotateSession hk₁
  have hq₂ := (State.sameSlots_run (s := ((chain T AccountId).run s es₁).rotateSession) h₂).queued
  obtain ⟨p, w, hp, -⟩ := State.planSession_eq hk₁
  exact {
    waiting_eq := hw₁
    next_eq := by rw [hp, hnext]
    invulnerables_eq := by rw [hr.invulnerables, hnext]
    validators_eq := by
      rw [(State.advances_rotateSession (uniqueKeys_of_reachable hs₂)).validators, hq₂, hr.queued,
        hnext] }

theorem handsOver_development :
    ((chain Config.runtime Keyring).run developmentState
      [.signed .bob .registerCandidate, .signed .bob (.bondCandidate (10 ^ 14)), .rotate]).HandsOver
        [.signed .bob .offlineCandidate] [.signed .bob .leaveCandidate] :=
  handsOver_of_reachable ((System.Reachable.init developmentState_mem).run _) (by decide) (by simp)
    (by simp)

end Xode.Staking
