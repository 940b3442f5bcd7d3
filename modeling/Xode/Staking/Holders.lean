import Xode.Staking.Slots

/-!
# Slot holders

Whoever holds a slot without being desired is a bonded candidate
(`holders_bonded`). A record may only be dropped, or its bond be taken back, when
its account holds no slot, and the rotations see to the first by the status of the
record: it tells on which of the lists its account is (`Pipeline`).

A candidate on the waiting list is waiting, queuing or authoring; one in the
validator set is authoring; one validating is authoring, or queuing when it has
been taken out of the running since. A rotation takes one step back at most, and
only below waiting a record is dropped.
-/

namespace Xode.Staking

variable {T : Config} {AccountId : Type} [DecidableEq AccountId]
  {s s' : State T AccountId} {a who : AccountId} {c c' : CandidateInfo AccountId}
  {l : List Status}

namespace State

/-- The account has a bonded record, with a status from `l`. -/
def Holds (s : State T AccountId) (a : AccountId) (l : List Status) : Prop :=
  ∃ c, s.candidate? a = some c ∧ c.bond ≠ 0 ∧ c.status ∈ l

/-- The status of a record tells which slots its account holds. -/
structure Pipeline (s : State T AccountId) : Prop where
  waiting : ∀ a ∈ s.waitingCandidates, a ∉ s.desiredCandidates →
    s.Holds a [.waiting, .queuing, .authoring]
  invulnerables : ∀ a ∈ s.invulnerables, a ∉ s.desiredCandidates → s.Holds a [.authoring]
  validators : ∀ a ∈ s.session.validators, a ∉ s.desiredCandidates →
    s.Holds a [.queuing, .authoring]
  queued : ∀ a ∈ s.session.queued, a ∈ s.invulnerables
  not_offline : ∀ a c, s.candidate? a = some c → c.status ≠ .offline

theorem Holds.mono {l' : List Status} (h : s.Holds a l) (hl : ∀ x ∈ l, x ∈ l') : s.Holds a l' := by
  obtain ⟨c, hc, hb, hs⟩ := h
  exact ⟨c, hc, hb, hl _ hs⟩

end State

/-! ### Calls -/

/-- A call keeps the record and the bond of an account in the pipeline. -/
theorem Effect.holds {call : Call AccountId} (h : Effect s who call s') (hk : s.UniqueKeys)
    (hp : ¬s.OutOfPipeline a) (ha : s.Holds a l) : s'.Holds a l := by
  obtain ⟨c, hc, hb, hs⟩ := ha
  have hc' := h.candidate? hk a
  by_cases ht : a = call.target who
  · rw [if_pos ht, hc] at hc'
    cases h with
    | registerCandidate hnew => rw [ht] at hc; exact absurd (hnew.symm.trans hc) nofun
    | bondCandidate _ hbond =>
      refine ⟨_, hc', ?_, hs⟩
      rintro h0
      rw [if_pos h0] at hbond
      exact hp (ht ▸ hbond)
    | bondCorrection _ _ hout => exact absurd (ht ▸ hout) hp
    | _ => exact ⟨_, hc', hb, hs⟩
  · rw [if_neg ht] at hc'
    exact ⟨c, hc'.trans hc, hb, hs⟩

/-- No call gives a record the status offline. -/
theorem Effect.not_offline {call : Call AccountId} (h : Effect s who call s') (hk : s.UniqueKeys)
    (hs : ∀ a c, s.candidate? a = some c → c.status ≠ .offline) (hc : s'.candidate? a = some c) :
    c.status ≠ .offline := by
  rw [h.candidate? hk] at hc
  split at hc
  · cases call with
    | registerCandidate => cases hc; nofun
    | _ =>
      obtain ⟨c₀, hc₀, rfl⟩ := Option.map_eq_some_iff.1 hc
      exact hs a c₀ hc₀
  · exact hs a c hc

namespace State

/-! ### Rotations -/

/-- The status a rotation leaves a record: authoring in the validator set, and
    otherwise what the removal and the waiting list left it. -/
theorem status_of_rotateCandidate (h : s.rotateCandidate c = some c') :
    ∃ c₁, (s.mark (c.queue s.waitingCandidates)).demote = some c₁ ∧ c₁.who = c.who ∧
      c'.status = if c.who ∈ s.nextInvulnerables then .authoring
        else if c.who ∈ s.selected ∧ c₁.status = .online then .waiting else c₁.status := by
  obtain ⟨c₁, h₁, rfl⟩ := Option.map_eq_some_iff.1 h
  have hw : c₁.who = c.who := by
    rw [CandidateInfo.who_of_demote h₁, who_mark, CandidateInfo.who_queue]
  refine ⟨c₁, h₁, hw, ?_⟩
  simp only [CandidateInfo.author, CandidateInfo.who_promote, hw, BoundedVec.mem_toList]
  by_cases hn : c.who ∈ s.nextInvulnerables
  · rw [if_pos hn, if_pos hn]
  · rw [if_neg hn, if_neg hn, CandidateInfo.promote, hw]
    split_ifs
    exacts [rfl, rfl]

theorem status_queue : (s.mark (c.queue s.waitingCandidates)).status =
    if c.status = .waiting ∧ c.who ∈ s.waitingCandidates then .queuing else c.status := by
  rw [status_mark, CandidateInfo.queue]
  split_ifs <;> rfl

omit [DecidableEq AccountId] in
/-- The removal takes a status one step back, at most. -/
theorem status_of_demote (h : c.demote = some c') :
    c'.status = c.status ∨ c.status = .queuing ∧ c'.status = .waiting ∨
      c.status = .authoring ∧ c'.status = .queuing := by
  rw [CandidateInfo.demote] at h
  split at h
  · split at h <;> cases h
    · next hs => exact .inr (.inl ⟨hs, rfl⟩)
    · next hs => exact .inr (.inr ⟨hs, rfl⟩)
  · cases h
    exact .inl rfl

/-- A rotation keeps the records of the waiting list and of the validator set, and
    their bonds. -/
theorem rotateCandidate_of_status (h : c.status = .queuing ∨ c.status = .authoring ∨
      c.status = .waiting ∧ c.who ∈ s.waitingCandidates) :
    ∃ c', s.rotateCandidate c = some c' ∧ c'.bond = c.bond := by
  obtain ⟨c', hc'⟩ : ∃ c', s.rotateCandidate c = some c' := by
    rw [← Option.isSome_iff_exists, Option.isSome_iff_ne_none, Ne, rotateCandidate_eq_none]
    rintro ⟨-, hd⟩
    rcases h with h | h | h <;> simp [h] at hd
  obtain ⟨_, _, _, rfl⟩ := rotateCandidate_eq_some hc'
  exact ⟨_, hc', rfl⟩

/-- Accounts of the validator set hold their records, on their way out or not. -/
theorem holds_rotateSession_of_authoring (hk : s.UniqueKeys) (h : s.Holds a [.authoring]) :
    s.rotateSession.Holds a [.queuing, .authoring] := by
  obtain ⟨c, hc, hb, hs⟩ := h
  have hst : c.status = .authoring := List.mem_singleton.1 hs
  obtain ⟨c', hc', hb'⟩ := rotateCandidate_of_status (s := s) (.inr (.inl hst))
  refine ⟨c', by rw [candidate?_rotateSession hk, hc]; exact hc', hb' ▸ hb, ?_⟩
  obtain ⟨c₁, h₁, -, hst'⟩ := status_of_rotateCandidate hc'
  -- One step back from authoring is queuing, which no later stage takes away.
  have := status_of_demote h₁
  rw [status_queue, hst] at this
  rw [hst']
  rcases this with h | h | h <;> split_ifs <;> simp_all

/-- Accounts that enter the validator set hold their records, and are authoring. -/
theorem holds_rotateSession_of_next (hk : s.UniqueKeys) (ha : a ∈ s.nextInvulnerables)
    (h : s.Holds a [.authoring] ∨
      a ∈ s.waitingCandidates ∧ s.Holds a [.waiting, .queuing, .authoring]) :
    s.rotateSession.Holds a [.authoring] := by
  obtain ⟨c, hc, hb, hst⟩ : ∃ c, s.candidate? a = some c ∧ c.bond ≠ 0 ∧
      (c.status = .queuing ∨ c.status = .authoring ∨
        c.status = .waiting ∧ c.who ∈ s.waitingCandidates) := by
    rcases h with ⟨c, hc, hb, hs⟩ | ⟨hw, c, hc, hb, hs⟩
    · exact ⟨c, hc, hb, .inr (.inl (List.mem_singleton.1 hs))⟩
    · refine ⟨c, hc, hb, ?_⟩
      rw [who_candidate? hc]
      simp only [List.mem_cons, List.not_mem_nil, or_false] at hs
      tauto
  -- The record is kept, and the last stage sets its status.
  obtain ⟨c', hc', hb'⟩ := rotateCandidate_of_status hst
  obtain ⟨c₁, -, -, hst'⟩ := status_of_rotateCandidate hc'
  refine ⟨c', by rw [candidate?_rotateSession hk, hc]; exact hc', hb' ▸ hb, ?_⟩
  rw [hst', if_pos (by rwa [who_candidate? hc])]
  exact List.mem_singleton_self _

/-- A record whose account is selected was eligible after slashing. -/
theorem candidate?_of_selected (hk : s.UniqueKeys) (ha : a ∈ s.selected) :
    ∃ c, s.candidate? a = some c ∧ (s.mark (c.queue s.waitingCandidates)).Eligible := by
  obtain ⟨c₁, hc₁, hw⟩ := List.mem_map.1 (List.mem_of_mem_take ha)
  simp only [List.mem_filter, decide_eq_true_eq] at hc₁
  obtain ⟨p, hp, hperm, -⟩ := slashed_eq s
  rw [hp] at hc₁
  obtain ⟨c₂, hc₂, rfl⟩ := List.mem_map.1 (hperm.subset hc₁.1)
  obtain ⟨c, hc, rfl⟩ := List.mem_map.1 hc₂
  refine ⟨c, (candidate?_eq_some hk).2 ⟨hc, ?_⟩, hc₁.2.1⟩
  rwa [who_mark, CandidateInfo.who_queue] at hw

/-- Accounts that enter the waiting list hold their records. -/
theorem holds_rotateSession_of_selected (hk : s.UniqueKeys)
    (ho : ∀ a c, s.candidate? a = some c → c.status ≠ .offline) (ha : a ∈ s.selected) :
    s.rotateSession.Holds a [.waiting, .queuing, .authoring] := by
  obtain ⟨c, hc, he⟩ := candidate?_of_selected hk ha
  -- The removal passes over eligible candidates.
  have hd : (s.mark (c.queue s.waitingCandidates)).demote = some _ :=
    if_neg (CandidateInfo.not_outOfRunning.2 he)
  have hc' : s.rotateCandidate c = some _ := congrArg (Option.map _) hd
  have hb : ∀ c', s.rotateCandidate c = some c' → c'.bond = c.bond := fun c' h => by
    obtain ⟨_, _, _, rfl⟩ := rotateCandidate_eq_some h
    rfl
  have hb₀ : c.bond ≠ 0 := by
    have := he.1
    rwa [mark, CandidateInfo.queue, apply_ite CandidateInfo.bond, apply_ite CandidateInfo.bond,
      ite_self, ite_self] at this
  refine ⟨_, by rw [candidate?_rotateSession hk, hc]; exact hc', hb _ hc' ▸ hb₀, ?_⟩
  obtain ⟨c₁, h₁, -, hst⟩ := status_of_rotateCandidate hc'
  obtain rfl := Option.some.inj (hd.symm.trans h₁)
  have := ho a c hc
  rw [hst, status_queue, who_candidate? hc]
  cases hs : c.status <;> split_ifs <;> simp_all

/-- No rotation gives a record the status offline. -/
theorem not_offline_rotateSession (hk : s.UniqueKeys)
    (ho : ∀ a c, s.candidate? a = some c → c.status ≠ .offline)
    (hc : s.rotateSession.candidate? a = some c) : c.status ≠ .offline := by
  rw [candidate?_rotateSession hk] at hc
  obtain ⟨c₀, hc₀, hr⟩ := Option.bind_eq_some_iff.1 hc
  obtain ⟨c₁, h₁, -, hst⟩ := status_of_rotateCandidate hr
  have hq : (s.mark (c₀.queue s.waitingCandidates)).status ≠ .offline := by
    rw [status_queue]
    split_ifs
    exacts [nofun, ho a c₀ hc₀]
  have h₁' : c₁.status ≠ .offline := by
    rcases status_of_demote h₁ with h | h | h
    · rwa [h]
    · rw [h.2]; nofun
    · rw [h.2]; nofun
  rw [hst]
  split_ifs
  exacts [nofun, nofun, h₁']

/-! ### Every state -/

theorem Pipeline.rotateSession (hk : s.UniqueKeys) (h : s.Pipeline) : s.rotateSession.Pipeline := by
  have hr := advances_rotateSession hk
  have hnext : s.nextInvulnerables = s.invulnerables ∨ s.nextInvulnerables = s.waitingCandidates :=
    ite_eq_or_eq _ _ _
  refine ⟨fun a ha hna => ?_, fun a ha hna => ?_, fun a ha hna => ?_, fun a ha => ?_,
    fun a c => not_offline_rotateSession hk h.not_offline⟩
  · rw [← BoundedVec.mem_toList, hr.waiting, List.mem_append] at ha
    rw [hr.desired] at hna
    exact holds_rotateSession_of_selected hk h.not_offline (ha.resolve_left hna)
  · rw [hr.invulnerables] at ha
    rw [hr.desired] at hna
    refine holds_rotateSession_of_next hk ha ?_
    obtain hnext | hnext := hnext <;> rw [hnext] at ha
    · exact .inl (h.invulnerables a ha hna)
    · exact .inr ⟨ha, h.waiting a ha hna⟩
  · rw [hr.validators] at ha
    rw [hr.desired] at hna
    exact holds_rotateSession_of_authoring hk (h.invulnerables a (h.queued a ha) hna)
  · rw [hr.queued] at ha
    rw [hr.invulnerables]
    exact List.mem_of_mem_filter ha

theorem Pipeline.call {call : Call AccountId} (he : Effect s who call s') (hk : s.UniqueKeys)
    (h : s.Pipeline) : s'.Pipeline := by
  have hf := he.frame
  refine ⟨fun a ha hna => ?_, fun a ha hna => ?_, fun a ha hna => ?_, fun a ha => ?_,
    fun a c => he.not_offline hk h.not_offline⟩
  · rw [hf.waitingCandidates] at ha
    exact he.holds hk (fun ho => ho.1 ha) (h.waiting a ha (hf.desiredCandidates ▸ hna))
  · rw [hf.invulnerables] at ha
    exact he.holds hk (fun ho => ho.2.1 ha) (h.invulnerables a ha (hf.desiredCandidates ▸ hna))
  · rw [hf.session] at ha
    exact he.holds hk (fun ho => ho.2.2 ha) (h.validators a ha (hf.desiredCandidates ▸ hna))
  · rw [hf.session] at ha
    rw [hf.invulnerables]
    exact h.queued a ha

theorem Pipeline.startBlock (h : s.Pipeline) (index : Option ℕ) :
    (s.startBlock index).Pipeline := by
  have hh {a : AccountId} {l : List Status} (ha : s.Holds a l) :
      (s.startBlock index).Holds a l := by
    obtain ⟨c, hc, hb, hs⟩ := ha
    rw [Holds, candidate?_startBlock, hc]
    split
    · exact ⟨_, rfl, hb, hs⟩
    · exact ⟨c, rfl, hb, hs⟩
  have hsame := (Next.block (s := s) index).sameSlots (by simp)
  refine ⟨fun a ha hna => ?_, fun a ha hna => ?_, fun a ha hna => ?_, fun a ha => ?_,
    fun a c hc => ?_⟩
  · exact hh (h.waiting a (hsame.waiting ▸ ha) (hsame.desired ▸ hna))
  · exact hh (h.invulnerables a (hsame.invulnerables ▸ ha) (hsame.desired ▸ hna))
  · exact hh (h.validators a (hsame.validators ▸ ha) (hsame.desired ▸ hna))
  · exact hsame.invulnerables ▸ h.queued a (hsame.queued ▸ ha)
  · obtain ⟨c₀, _, hc₀, rfl⟩ := exists_of_candidate?_startBlock hc
    exact h.not_offline a c₀ hc₀

end State

/-- In every reachable state, the status of a record tells which slots its account
    holds. -/
theorem pipeline_of_reachable (hs : (chain T AccountId).Reachable s) : s.Pipeline := by
  refine reachable_induction hs (fun g d => ?_) fun s e s' hk hn h => ?_
  · exact ⟨fun a ha hna => absurd ha hna, fun a ha hna => absurd ha hna,
      fun a ha hna => absurd ha hna, fun a ha => List.mem_of_mem_filter ha, nofun⟩
  · cases hn with
    | call he => exact h.call he hk
    | failed => exact h
    | other => exact ⟨h.waiting, h.invulnerables, h.validators, h.queued, h.not_offline⟩
    | block index => exact h.startBlock index
    | rotate => exact h.rotateSession hk

/-- In every reachable state, every account on the waiting list, in the validator
    set or among the current validators that is not desired is a candidate with at
    least the minimal bond. -/
theorem holders_bonded (hs : (chain T AccountId).Reachable s)
    (ha : a ∈ s.waitingCandidates ∨ a ∈ s.invulnerables ∨ a ∈ s.session.validators)
    (hd : a ∉ s.desiredCandidates) :
    ∃ c ∈ s.proposedCandidates.toList, c.who = a ∧ c.bond ≠ 0 ∧ T.minCandidateBond ≤ c.bond := by
  have hp := pipeline_of_reachable hs
  obtain ⟨l, c, hc, hb, -⟩ : ∃ l, s.Holds a l := by
    rcases ha with ha | ha | ha
    · exact ⟨_, hp.waiting a ha hd⟩
    · exact ⟨_, hp.invulnerables a ha hd⟩
    · exact ⟨_, hp.validators a ha hd⟩
  have hmin := minCandidateBond_le_bondOf hs a
  rw [State.bondOf_eq hc] at hmin
  exact ⟨c, State.mem_candidate? hc, State.who_candidate? hc, hb, hmin.resolve_left hb⟩

theorem holders_bonded_development :
    let s := (chain Config.runtime Keyring).run developmentState
      [.signed .bob .registerCandidate, .signed .bob (.bondCandidate (10 ^ 14)), .rotate]
    ∃ c ∈ s.proposedCandidates.toList,
      c.who = .bob ∧ c.bond ≠ 0 ∧ Config.runtime.minCandidateBond ≤ c.bond :=
  holders_bonded ((System.Reachable.init developmentState_mem).run _) (.inl (by decide)) (by decide)

end Xode.Staking
