import Xode.Staking.Departures

/-!
# Truthful statuses

A status of authoring tells that the account is in the validator set or among the
current validators. A rotation sets it for all of the validator set, but takes it back
only from records out of the running: a candidate that loses its slot to others, or
leaves the lists and comes back while it is still authoring, keeps it.

The status is truthful throughout a run exactly when no rotation takes a candidate in
the running out of both sets (`always_authoringTruthful_iff`).
-/

namespace Xode.Staking

variable {T : Config} {AccountId : Type} [DecidableEq AccountId]
  {s s' : State T AccountId} {c c' : CandidateInfo AccountId} {e : Step AccountId}

namespace State

/-- Every authoring candidate is in the validator set, or a current validator. -/
def AuthoringTruthful (s : State T AccountId) : Prop :=
  ∀ c ∈ s.proposedCandidates.toList, c.status = .authoring →
    c.who ∈ s.invulnerables ∨ c.who ∈ s.session.validators

instance (s : State T AccountId) : Decidable s.AuthoringTruthful :=
  inferInstanceAs (Decidable (∀ c ∈ s.proposedCandidates.toList, _))

/-- A rotation takes no authoring candidate out of both sets, unless it is out of the
    running, or stale. -/
def SeatsAuthoring (s : State T AccountId) (e : Step AccountId) : Prop :=
  e = .rotate → ∀ c ∈ s.proposedCandidates.toList, c.status = .authoring →
    c.who ∈ s.nextInvulnerables ∨ c.who ∈ s.session.queued ∨ c.OutOfRunning ∨
      s.Stale s.staleValidators c

/-! ### Rotations -/

omit [DecidableEq AccountId] in
theorem authoring_of_demote (h : c.demote = some c') :
    c'.status = .authoring ↔ c.status = .authoring ∧ ¬c.OutOfRunning := by
  rw [CandidateInfo.demote] at h
  split at h
  · next hr => split at h <;> cases h <;> simp [hr]
  · next hr => cases h; simp [hr]

/-- A rotation leaves a record authoring when its account is in the validator set, or
    when it was before, and is neither out of the running nor stale. -/
theorem authoring_of_rotateCandidate (h : s.rotateCandidate c = some c') :
    c'.status = .authoring ↔ c.who ∈ s.nextInvulnerables ∨
      c.status = .authoring ∧ ¬(c.OutOfRunning ∨ s.Stale s.staleValidators c) := by
  obtain ⟨c₁, h₁, -, hst⟩ := status_of_rotateCandidate h
  have hq : (c.queue s.waitingCandidates).OutOfRunning ↔ c.OutOfRunning := by
    obtain ⟨_, hq⟩ := CandidateInfo.queue_eq s.waitingCandidates c
    rw [hq]
    rfl
  have hs : s.Stale s.staleValidators (c.queue s.waitingCandidates) ↔
      s.Stale s.staleValidators c := by
    obtain ⟨_, hq⟩ := CandidateInfo.queue_eq s.waitingCandidates c
    rw [hq]
    rfl
  have hc₁ : c₁.status = .authoring ↔
      c.status = .authoring ∧ ¬(c.OutOfRunning ∨ s.Stale s.staleValidators c) := by
    rw [authoring_of_demote h₁, outOfRunning_mark, hq, hs, status_queue]
    refine and_congr_left fun _ => ?_
    split_ifs with hw
    · simp [hw.1]
    · rfl
  rw [hst, ← hc₁]
  split_ifs with hn hp
  · simp [hn]
  · simp [hn, hp.2]
  · simp [hn]

/-- Whether statuses of authoring are truthful after a rotation. -/
theorem authoringTruthful_rotateSession_iff (hk : s.UniqueKeys) :
    s.rotateSession.AuthoringTruthful ↔ s.SeatsAuthoring .rotate := by
  have hr := advances_rotateSession hk
  have hk' := uniqueKeys_rotateSession hk
  constructor
  · intro h _ c hc hst
    by_contra hout
    simp only [not_or] at hout
    -- The rotation keeps the record, and its status.
    obtain ⟨c', hc', -⟩ := rotateCandidate_of_status (s := s) (c := c) (.inr (.inl hst))
    have hst' := (authoring_of_rotateCandidate hc').2 (.inr ⟨hst, not_or.2 hout.2.2⟩)
    have hrec : s.rotateSession.candidate? c.who = some c' := by
      rw [candidate?_rotateSession hk, (candidate?_eq_some hk).2 ⟨hc, rfl⟩, Option.bind_some, hc']
    have := h c' (mem_candidate? hrec) hst'
    rw [who_candidate? hrec, hr.invulnerables, hr.validators] at this
    exact this.elim hout.1 hout.2.1
  · intro h c' hc' hst'
    have hrec := (candidate?_eq_some hk').2 ⟨hc', rfl⟩
    rw [candidate?_rotateSession hk] at hrec
    obtain ⟨c, hc, hcc'⟩ := Option.bind_eq_some_iff.1 hrec
    rw [hr.invulnerables, hr.validators, ← who_candidate? hc]
    rcases (authoring_of_rotateCandidate hcc').1 hst' with hn | ⟨hst, hin⟩
    · exact .inl hn
    · rcases h rfl c (mem_candidate? hc) hst with hn | hv | ho
      exacts [.inl hn, .inr hv, absurd ho hin]

/-- Whether statuses of authoring are still truthful after a step. -/
theorem Next.authoringTruthful_iff (hn : s.Next e s') (hk : s.UniqueKeys)
    (h : s.AuthoringTruthful) : s'.AuthoringTruthful ↔ s.SeatsAuthoring e := by
  by_cases he : e = .rotate
  · subst he
    cases hn
    exact authoringTruthful_rotateSession_iff hk
  · refine iff_of_true (fun c' hc' hst' => ?_) fun h => absurd h he
    have hsame := hn.sameSlots he
    have hrec := (candidate?_eq_some (hn.uniqueKeys hk)).2 ⟨hc', rfl⟩
    obtain ⟨c, hc, hst, -⟩ | ⟨-, hst⟩ := hn.status hk he hrec
    · rw [hsame.invulnerables, hsame.validators, ← who_candidate? hc]
      exact h c (mem_candidate? hc) (hst ▸ hst')
    · rw [hst] at hst'
      cases hst'

end State

/-- Throughout a run, the status of authoring is truthful exactly when no rotation takes
    an authoring candidate out of both the validator set and the current validators,
    unless it is out of the running or stale. -/
theorem always_authoringTruthful_iff {es : List (Step AccountId)}
    (h₀ : s ∈ (chain T AccountId).init) :
    (chain T AccountId).Always State.AuthoringTruthful s es ↔
      (chain T AccountId).Along State.SeatsAuthoring s es := by
  refine System.always_iff_along (.init h₀) ?_ fun s e hs h =>
    (s.next_step e).authoringTruthful_iff (uniqueKeys_of_reachable hs) h
  obtain ⟨g, d, rfl⟩ := genesis_cases h₀
  exact fun c hc => absurd hc List.not_mem_nil

/-- A candidate with session keys comes into the validator set, becomes a validator of the
    session, and is offline at the fifth rotation. -/
theorem always_authoringTruthful_bonded :
    (chain Config.runtime Keyring).Always State.AuthoringTruthful developmentState
      [.tx (.sessionKeys fun _ => true), .signed .bob .registerCandidate,
        .signed .bob (.bondCandidate (10 ^ 14)), .rotate, .rotate, .rotate, .rotate,
        .signed .bob .offlineCandidate, .rotate, .rotate] :=
  (always_authoringTruthful_iff developmentState_mem).2
    ⟨nofun, nofun, nofun, fun _ => by decide, fun _ => by decide, fun _ => by decide,
      fun _ => by decide, nofun, fun _ => by decide, fun _ => by decide, trivial⟩

/-- A candidate in the validator set steps down for a session and comes back: it is off
    the waiting list that the next session takes over, and still authoring. -/
theorem not_always_authoringTruthful :
    ¬(chain Config.runtime Keyring).Always State.AuthoringTruthful developmentState
      [.signed .bob .registerCandidate, .signed .bob (.bondCandidate (10 ^ 14)), .rotate,
        .signed .bob .offlineCandidate, .rotate, .signed .bob .onlineCandidate, .rotate] := by
  rintro ⟨-, -, -, -, -, -, -, h⟩
  exact absurd h.start (by decide)

end Xode.Staking
