import Xode.Staking.Delegations
import Xode.Staking.Order

/-!
# Boosts

Delegating is documented as boosting the ranking of the candidate. It raises the
recorded stake of the candidate, but also updates its record, which then loses to
all those it ties with. Whether any candidate gets ahead of it depends on which of
the two counts (`boosts_iff`): a delegation of nothing, or one that no longer
shows in a saturated sum, may put the candidate behind its rivals.
-/

namespace Xode.Staking

variable {T : Config} {AccountId : Type} [DecidableEq AccountId] {s s' : State T AccountId}
  {a b who candidate : AccountId} {amount : ℕ} {c d : CandidateInfo AccountId}

namespace State

/-- The record of `a` comes before that of `b`. -/
def Ahead (s : State T AccountId) (a b : AccountId) : Prop :=
  Precedes (s.proposedCandidates.toList.map CandidateInfo.who) a b

instance (s : State T AccountId) (a b : AccountId) : Decidable (s.Ahead a b) :=
  inferInstanceAs (Decidable (Precedes _ a b))

/-- The order of two accounts is that of their records. -/
theorem ahead_iff (hk : s.UniqueKeys) (hc : s.candidate? a = some c)
    (hd : s.candidate? b = some d) : s.Ahead a b ↔ Precedes s.proposedCandidates.toList c d := by
  rw [Ahead, ← who_candidate? hc, ← who_candidate? hd,
    precedes_map_key hk (mem_candidate? hc) (mem_candidate? hd)]

/-- After a record is rewritten and the list is sorted, a record behind it has got
    ahead of it exactly when it ranks higher. -/
theorem ahead_sort_updateCandidate_iff (hk : s.UniqueKeys) (hc : s.candidate? a = some c)
    (hd : s.candidate? b = some d) (hne : a ≠ b) (h : s.Ahead a b)
    {f : CandidateInfo AccountId → CandidateInfo AccountId} (hf : ∀ c, (f c).who = c.who) :
    (s.updateCandidate a f).sortProposedCandidates.Ahead b a ↔ ¬(rankCmp T (f c) d).isLE := by
  have hk₁ : (s.updateCandidate a f).UniqueKeys := (uniqueKeys_updateCandidate hf).2 hk
  have hk₂ := uniqueKeys_sortProposedCandidates.2 hk₁
  have hc₁ : (s.updateCandidate a f).candidate? a = some (f c) := by
    rw [candidate?_updateCandidate hf, if_pos rfl, hc, Option.map_some]
  have hd₁ : (s.updateCandidate a f).candidate? b = some d := by
    rw [candidate?_updateCandidate hf, if_neg hne.symm, hd]
  have hc₂ := (candidate?_sortProposedCandidates hk₁).trans hc₁
  have hd₂ := (candidate?_sortProposedCandidates hk₁).trans hd₁
  -- Rewriting does not move records; sorting then goes by rank.
  have hpre : Precedes (s.updateCandidate a f).proposedCandidates.toList (f c) d := by
    rw [← ahead_iff hk₁ hc₁ hd₁, Ahead, updateCandidate, BoundedVec.toList_updateKey,
      map_key_updateKey hf]
    exact h
  have hcd : f c ≠ d := fun he => hne (by rw [← who_candidate? hc₁, ← who_candidate? hd₁, he])
  rw [ahead_iff hk₂ hd₂ hc₂,
    ← not_precedes hk₂.of_map (mem_candidate? hc₂) (mem_candidate? hd₂) hcd]
  exact not_congr (BoundedVec.precedes_sortBy_iff _ (rankCmp T) hpre)

/-- No eligible candidate behind `a` gets ahead of it. -/
def HoldsOff (s s' : State T AccountId) (a : AccountId) : Prop :=
  ∀ d ∈ s.proposedCandidates.toList, d.Eligible → s.Ahead a d.who → ¬s'.Ahead d.who a

instance (s s' : State T AccountId) (a : AccountId) : Decidable (s.HoldsOff s' a) :=
  inferInstanceAs (Decidable (∀ d ∈ s.proposedCandidates.toList, _))

/-- Delegating `amount` behind `c` raises its stake: there is room for more, and the
    delegations behind it will come to more than is recorded. -/
def Raises (s : State T AccountId) (c : CandidateInfo AccountId) (amount : ℕ) : Prop :=
  c.bond + c.totalStake < T.maxBalance ∧ c.totalStake < s.totalDelegated c.who + amount

instance (s : State T AccountId) (c : CandidateInfo AccountId) (amount : ℕ) :
    Decidable (s.Raises c amount) := inferInstanceAs (Decidable (_ ∧ _))

/-- The eligible candidates behind `c` with the same stake were all updated in the
    current block. -/
def TiesFresh (s : State T AccountId) (c : CandidateInfo AccountId) : Prop :=
  ∀ d ∈ s.proposedCandidates.toList, d.Eligible → s.Ahead c.who d.who →
    d.combined T = c.combined T → s.blockNumber ≤ d.lastUpdated

end State

/-- What delegating does to the records. -/
theorem Effect.proposedCandidates_stake (h : Effect s who (.stakeCandidate candidate amount) s') :
    s'.proposedCandidates = ((s.updateCandidate candidate fun c =>
      { c with
        totalStake := satAdd T (s.totalDelegated candidate) amount
        lastUpdated := s.blockNumber }).sortProposedCandidates).proposedCandidates := by
  have hsum : s'.totalDelegated candidate = satAdd T (s.totalDelegated candidate) amount := by
    rw [State.totalDelegated, h.delegationsOf, Call.redelegate, if_pos rfl, sumStakes_withStake,
      State.totalDelegated]
  cases h with
  | stakeCandidate => rw [← hsum]; rfl

/-- In every reachable state, after a delegation behind an eligible candidate, no
    eligible candidate that was behind it is ahead of it, exactly when its stake
    rose, or all those it tied with were updated in the current block. -/
theorem holdsOff_iff (hs : (chain T AccountId).Reachable s) (hc : s.candidate? candidate = some c)
    (he : c.Eligible) (h : stakeCandidate (.signed who) candidate amount s = .ok () s') :
    s.HoldsOff s' candidate ↔ s.Raises c amount ∨ s.TiesFresh c := by
  have hk := uniqueKeys_of_reachable hs
  have hw := State.who_candidate? hc
  obtain ⟨_, -, heff⟩ := stakeCandidate_eq_ok.1 h
  have hle := totalStake_le_of_reachable hs hc
  -- The stake of the candidate does not fall, and rises as told.
  have hstake : c.combined T ≤ satAdd T c.bond (satAdd T (s.totalDelegated candidate) amount) ∧
      (s.Raises c amount ↔
        c.combined T < satAdd T c.bond (satAdd T (s.totalDelegated candidate) amount)) := by
    rw [State.Raises, hw]
    simp only [CandidateInfo.combined, satAdd]
    omega
  -- Whoever was behind it has at most its stake.
  have hbehind : ∀ d ∈ s.proposedCandidates.toList, d.Eligible → s.Ahead candidate d.who →
      d.combined T ≤ c.combined T ∧ (s'.Ahead d.who candidate ↔
        satAdd T c.bond (satAdd T (s.totalDelegated candidate) amount) = d.combined T ∧
          d.lastUpdated < s.blockNumber) := by
    intro d hd hde hahead
    have hd' : s.candidate? d.who = some d := (State.candidate?_eq_some hk).2 ⟨hd, rfl⟩
    have hout := ((State.ahead_iff hk hc hd').1 hahead).rel (ranked_of_reachable hs) he hde
    have hne : candidate ≠ d.who := fun heq =>
      List.nodup_iff_sublist.1 hk d.who (by rwa [State.Ahead, heq] at hahead)
    refine ⟨hout, ?_⟩
    rw [State.Ahead, heff.proposedCandidates_stake]
    refine (State.ahead_sort_updateCandidate_iff hk hc hd' hne hahead (by exact fun _ => rfl)).trans
      ?_
    have hnew (now : ℕ) : CandidateInfo.combined T { c with
        totalStake := satAdd T (s.totalDelegated candidate) amount, lastUpdated := now } =
      satAdd T c.bond (satAdd T (s.totalDelegated candidate) amount) := rfl
    rw [rankCmp_isLE, hnew]
    simp only [he.2.2, hde.2.2, lt_self_iff_false, true_and, false_or]
    have := hout.trans hstake.1
    omega
  by_cases hraise : s.Raises c amount
  · refine iff_of_true (fun d hd hde ha hah => ?_) (.inl hraise)
    obtain ⟨hout, hiff⟩ := hbehind d hd hde ha
    have := hstake.2.1 hraise
    have := hiff.1 hah
    omega
  · have hsame : satAdd T c.bond (satAdd T (s.totalDelegated candidate) amount) = c.combined T :=
      le_antisymm (not_lt.1 (mt hstake.2.2 hraise)) hstake.1
    rw [or_iff_right hraise, State.HoldsOff, State.TiesFresh, hw]
    refine forall₄_congr fun d hd hde ha => ?_
    rw [(hbehind d hd hde ha).2, hsame, not_and, not_lt, eq_comm]

/-- A delegation of something keeps a candidate ahead of the one it tied with. -/
theorem holdsOff_development :
    let s := (chain Config.runtime Keyring).run developmentState
      [.signed .bob .registerCandidate, .signed .bob (.bondCandidate (10 ^ 14)),
        .signed .aliceStash .registerCandidate, .signed .aliceStash (.bondCandidate (10 ^ 14)),
        .block none]
    s.HoldsOff (s.step (.signed .bobStash (.stakeCandidate .bob 1))) .bob := by
  intro s
  have hc : s.candidate? .bob = some ⟨.bob, 10 ^ 14, 0, 0, 0, false, false, 0, .online⟩ := by decide
  have hok : (Call.stakeCandidate Keyring.bob 1).code (.signed .bobStash) s = .ok () _ :=
    State.code_of_succeeds _ (by decide)
  exact (holdsOff_iff ((System.Reachable.init developmentState_mem).run _) hc (by decide)
    hok).2 (.inl (by decide))

/-- A delegation of nothing puts a candidate behind the one it tied with. -/
theorem not_holdsOff_zero :
    let s := (chain Config.runtime Keyring).run developmentState
      [.signed .bob .registerCandidate, .signed .bob (.bondCandidate (10 ^ 14)),
        .signed .aliceStash .registerCandidate, .signed .aliceStash (.bondCandidate (10 ^ 14)),
        .block none]
    (chain Config.runtime Keyring).Reachable s ∧ (∃ c ∈ s.candidate? .bob, c.Eligible) ∧
      ∃ s', stakeCandidate (.signed .bobStash) .bob 0 s = .ok () s' ∧ ¬s.HoldsOff s' .bob := by
  intro s
  have hok : (Call.stakeCandidate Keyring.bob 0).code (.signed .bobStash) s = .ok () _ :=
    State.code_of_succeeds _ (by decide)
  have hc : s.candidate? .bob = some ⟨.bob, 10 ^ 14, 0, 0, 0, false, false, 0, .online⟩ := by decide
  exact ⟨(System.Reachable.init developmentState_mem).run _, ⟨_, hc, by decide⟩, _, hok, by decide⟩

end Xode.Staking
