import Xode.Staking.Departures
import Xode.Staking.Order

/-!
# Sound records

What every record of a reachable state is like (`soundRecord_of_reachable`). The calls check
what they write, each for itself: the bond, the commission, that a candidate is out of the
pipeline when it leaves. Nothing that others do, and no rotation, undoes any of it later. In
particular a candidate that is leaving never gets back on a list, and a desired candidate is
the only one that is on a list without a bond.
-/

namespace Xode.Staking

variable {T : Config} {AccountId : Type} [DecidableEq AccountId]
  {s s' : State T AccountId} {a who : AccountId} {c : CandidateInfo AccountId}
  {e : Step AccountId}

namespace State

/-- What is right of a record of the storage. -/
structure SoundRecord (s : State T AccountId) (c : CandidateInfo AccountId) : Prop where
  bond : c.bond = 0 ∨ T.minCandidateBond ≤ c.bond
  totalStake : c.totalStake ≤ s.totalDelegated c.who
  commission : c.commission ≤ 100
  lastUpdated : c.lastUpdated ≤ s.blockNumber
  lastAuthored : c.lastAuthored ≤ s.blockNumber
  status : c.status ≠ .offline
  leaving : c.leaving → s.OutOfPipeline c.who
  unbonded : c.bond = 0 → c.who ∉ s.desiredCandidates → s.OutOfPipeline c.who

end State

/-! ### Commissions -/

theorem Effect.commission_le {call : Call AccountId} (he : Effect s who call s')
    (hk : s.UniqueKeys) (h : ∀ a c, s.candidate? a = some c → c.commission ≤ 100)
    (hc : s'.candidate? a = some c) : c.commission ≤ 100 := by
  rw [he.candidate? hk] at hc
  split at hc
  · cases he with
    | registerCandidate =>
      cases hc
      have hzero : (0 : UInt8) ≤ 100 := by decide
      exact hzero
    | setCommissionOfCandidate _ hcommission =>
      obtain ⟨c₀, -, rfl⟩ := Option.map_eq_some_iff.1 hc
      exact hcommission.2
    | _ =>
      obtain ⟨c₀, hc₀, rfl⟩ := Option.map_eq_some_iff.1 hc
      exact h a c₀ hc₀
  · exact h a c hc

theorem commission_le_of_reachable (hs : (chain T AccountId).Reachable s)
    (hc : s.candidate? a = some c) : c.commission ≤ 100 := by
  refine reachable_induction (Q := fun s => ∀ a c, s.candidate? a = some c → c.commission ≤ 100)
    hs (fun g d a c hc => by cases hc) (fun s e s' hk hn ih a c hc => ?_) a c hc
  cases hn with
  | call he => exact he.commission_le hk ih hc
  | failed | other => exact ih a c hc
  | block index =>
    obtain ⟨c₀, _, hc₀, rfl⟩ := State.exists_of_candidate?_startBlock hc
    exact ih a c₀ hc₀
  | rotate =>
    rw [State.candidate?_rotateSession hk] at hc
    obtain ⟨c₀, hc₀, hr⟩ := Option.bind_eq_some_iff.1 hc
    obtain ⟨_, _, _, rfl⟩ := State.rotateCandidate_eq_some hr
    exact ih a c₀ hc₀

/-! ### Leaving -/

namespace State

/-- Off the lists, an account out of the running stays off them. -/
theorem OutOfPipeline.rotateSession (hs : (chain T AccountId).Reachable s)
    (h : s.OutOfPipeline a) (hout : ∀ c, s.candidate? a = some c → c.OutOfRunning) :
    s.rotateSession.OutOfPipeline a := by
  obtain ⟨hw, hi, -⟩ := h
  have hk := uniqueKeys_of_reachable hs
  have hr := advances_rotateSession hk
  have hd : a ∉ s.desiredCandidates := fun hd => hw ((desired_of_reachable hs).subset hd)
  refine ⟨notMem_waiting_rotateSession hk hd hout, ?_, ?_⟩
  · rw [hr.invulnerables]
    exact notMem_nextInvulnerables hw hi
  · rw [hr.validators]
    exact fun hq => hi ((pipeline_of_reachable hs).queued a hq)

omit [DecidableEq AccountId] in
theorem SameSlots.outOfPipeline (h : s.SameSlots s') (ha : s.OutOfPipeline a) :
    s'.OutOfPipeline a := by
  rw [OutOfPipeline, h.waiting, h.invulnerables, h.validators]
  exact ha

/-- Between rotations, who is leaving was leaving before, or was found out of the pipeline. -/
theorem Next.leaving (hn : s.Next e s') (hk : s.UniqueKeys) (he : e ≠ .rotate)
    (hc : s'.candidate? a = some c) (hl : c.leaving) :
    (∃ c₀, s.candidate? a = some c₀ ∧ c₀.leaving) ∨ s.OutOfPipeline a := by
  cases hn with
  | @call who call _ heff =>
    rw [heff.candidate? hk] at hc
    split at hc
    · next ha =>
      subst ha
      cases heff with
      | registerCandidate =>
        cases hc
        cases hl
      | leaveCandidate _ _ hout => exact .inr hout
      | _ =>
        obtain ⟨c₀, hc₀, rfl⟩ := Option.map_eq_some_iff.1 hc
        exact .inl ⟨c₀, hc₀, hl⟩
    · exact .inl ⟨c, hc, hl⟩
  | failed | other => exact .inl ⟨c, hc, hl⟩
  | block index =>
    obtain ⟨c₀, _, hc₀, rfl⟩ := exists_of_candidate?_startBlock hc
    exact .inl ⟨c₀, hc₀, hl⟩
  | rotate => exact absurd rfl he

end State

theorem outOfPipeline_of_leaving (hs : (chain T AccountId).Reachable s)
    (hc : s.candidate? a = some c) (hl : c.leaving) : s.OutOfPipeline a := by
  refine hs.induction (Q := fun s => ∀ a c, s.candidate? a = some c → c.leaving →
    s.OutOfPipeline a) (fun s hs a c hc => ?_) (fun s e hs ih a c hc hl => ?_) a c hc hl
  · obtain ⟨g, d, rfl⟩ := genesis_cases hs
    cases hc
  have hk := uniqueKeys_of_reachable hs
  by_cases he : e = .rotate
  · subst he
    rw [chain_step_rotate] at hc ⊢
    rw [State.candidate?_rotateSession hk] at hc
    obtain ⟨c₀, hc₀, hr⟩ := Option.bind_eq_some_iff.1 hc
    have hl₀ : c₀.leaving := (State.flags_of_rotateCandidate hr).1 ▸ hl
    refine (ih a c₀ hc₀ hl₀).rotateSession hs fun c₁ hc₁ => .inr (.inl ?_)
    rwa [Option.some.inj (hc₁.symm.trans hc₀)]
  · have hn : s.Next e ((chain T AccountId).step s e) := s.next_step e
    refine (hn.sameSlots he).outOfPipeline ?_
    obtain ⟨c₀, hc₀, hl₀⟩ | hout := hn.leaving hk he hc hl
    · exact ih a c₀ hc₀ hl₀
    · exact hout

/-- In every reachable state, every record is sound. -/
theorem soundRecord_of_reachable (hs : (chain T AccountId).Reachable s)
    (hc : c ∈ s.proposedCandidates.toList) : s.SoundRecord c := by
  have hk := uniqueKeys_of_reachable hs
  have hc : s.candidate? c.who = some c := (State.candidate?_eq_some hk).2 ⟨hc, rfl⟩
  have hp := pipeline_of_reachable hs
  have hbond (hb : c.bond = 0) (l : List Status) : ¬s.Holds c.who l := by
    rintro ⟨c', hc', hb', -⟩
    rw [Option.some.inj (hc'.symm.trans hc)] at hb'
    exact hb' hb
  exact {
    bond := State.bondOf_eq hc ▸ minCandidateBond_le_bondOf hs c.who
    totalStake := totalStake_le_of_reachable hs hc
    commission := commission_le_of_reachable hs hc
    lastUpdated := lastUpdated_le_of_reachable hs hc
    lastAuthored := State.clock_eq hc ▸ clock_le_blockNumber hs c.who
    status := hp.not_offline c.who c hc
    leaving := outOfPipeline_of_leaving hs hc
    unbonded := fun hb hd => ⟨fun h => hbond hb _ (hp.waiting _ h hd),
      fun h => hbond hb _ (hp.invulnerables _ h hd), fun h => hbond hb _ (hp.validators _ h hd)⟩ }

/-- Bob has stepped down, drained and left; a rotation has not dropped his record yet. -/
theorem soundRecord_development :
    let s := (chain Config.runtime Keyring).run developmentState
      [.signed .bob .registerCandidate, .signed .bob (.bondCandidate (10 ^ 14)),
        .signed .bob (.setCommissionOfCandidate 100), .rotate, .signed .bob .offlineCandidate,
        .rotate, .rotate, .rotate, .signed .bob .leaveCandidate]
    (s.candidate? .bob).any CandidateInfo.leaving ∧
      ∀ c ∈ s.proposedCandidates.toList, s.SoundRecord c :=
  ⟨by decide, fun _ hc =>
    soundRecord_of_reachable ((System.Reachable.init developmentState_mem).run _) hc⟩

end Xode.Staking
