import Xode.Staking.Runs

/-!
# Ranking and selection

`ProposedCandidates` is not always sorted: a registration appends to it, a bond
correction or a departure rewrites a record in place, and so do commissions and
authorship. What always holds is that the eligible candidates among them are in
the order of their stake (`Ranked`): a call that raises the stake of a record,
or makes it eligible, sorts afterwards, and what does not sort leaves a record
where it stands in this order, or makes it ineligible (`RanksBelow`).

A rotation gives the slots the desired candidates leave to the first eligible
ones, and so to those with the highest stakes (`selectsTop_of_reachable`).
-/

namespace Xode.Staking

variable {T : Config} {AccountId : Type} {c c' d d' : CandidateInfo AccountId}

/-! ### The order of the eligible candidates -/

namespace CandidateInfo

/-- A candidate that does not have less stake than another, if both are eligible. -/
def Outranks (T : Config) (c d : CandidateInfo AccountId) : Prop :=
  c.Eligible → d.Eligible → d.combined T ≤ c.combined T

/-- A record that stands where another stood, if it is eligible at all. -/
def RanksBelow (T : Config) (c' c : CandidateInfo AccountId) : Prop :=
  c'.Eligible → c.Eligible ∧ c'.combined T = c.combined T

theorem RanksBelow.refl (c : CandidateInfo AccountId) : c.RanksBelow T c := fun h => ⟨h, rfl⟩

theorem Outranks.below (h : c.Outranks T d) (hc : c'.RanksBelow T c) (hd : d'.RanksBelow T d) :
    c'.Outranks T d' := fun hc' hd' => by
  rw [(hc hc').2, (hd hd').2]
  exact h (hc hc').1 (hd hd').1

/-- A change of status, or of the times of a record, leaves it where it stands. -/
theorem ranksBelow_of_eq (hb : c'.bond = c.bond) (hs : c'.totalStake = c.totalStake)
    (hl : c'.leaving = c.leaving) (ho : c'.offline = c.offline) : c'.RanksBelow T c := by
  rintro ⟨h₁, h₂, h₃⟩
  refine ⟨⟨hb ▸ h₁, hl ▸ h₂, ho ▸ h₃⟩, ?_⟩
  rw [combined, hb, hs, combined]

theorem RanksBelow.of_not_eligible (h : ¬c'.Eligible) : c'.RanksBelow T c := fun he => absurd he h

instance : Std.TransCmp (rankCmp T : CandidateInfo AccountId → _ → _) :=
  have : Std.TransCmp fun a b : CandidateInfo AccountId => compare (b.combined T) (a.combined T) :=
    @Std.TransCmp.opposite _ (compareOn (CandidateInfo.combined T)) _
  inferInstanceAs (Std.TransCmp (compareLex (compareOn offline)
    (compareLex (fun a b => compare (b.combined T) (a.combined T)) (compareOn lastUpdated))))

/-- Candidates compared by rank are in the order of their stake. -/
theorem outranks_of_rankCmp (h : (rankCmp T c d).isLE) : c.Outranks T d := by
  rintro ⟨-, -, hc⟩ ⟨-, -, hd⟩
  rw [rankCmp, hc, hd] at h
  by_contra hlt
  have : compare (d.combined T) (c.combined T) = .gt := Nat.compare_eq_gt.2 (not_le.1 hlt)
  rw [this] at h
  simp at h

end CandidateInfo

variable [DecidableEq AccountId] {s s' : State T AccountId} {who : AccountId}

namespace State

/-- The eligible candidates are in the order of their stake. -/
def Ranked (s : State T AccountId) : Prop :=
  s.proposedCandidates.toList.Pairwise (CandidateInfo.Outranks T)

omit [DecidableEq AccountId] in
theorem ranked_sortProposedCandidates (s : State T AccountId) : s.sortProposedCandidates.Ranked :=
  (s.proposedCandidates.pairwise_sortBy (rankCmp T)).imp CandidateInfo.outranks_of_rankCmp

/-- Rewriting a record so that it stands where it stood keeps the order of all. -/
theorem ranked_updateCandidate {f : CandidateInfo AccountId → CandidateInfo AccountId}
    (h : s.Ranked) (hf : ∀ c, (f c).RanksBelow T c) : (s.updateCandidate who f).Ranked :=
  pairwise_updateKey h (fun _ _ _ h => h.below (hf _) (.refl _))
    fun _ _ _ h => h.below (.refl _) (hf _)

end State

open CandidateInfo in
/-- The calls keep the eligible candidates in the order of their stake: they sort,
    or leave the records they write where they stand, or make them ineligible. -/
theorem Effect.ranked {call : Call AccountId} (h : Effect s who call s') (hr : s.Ranked) :
    s'.Ranked := by
  cases h with
  | registerCandidate hnew hpush =>
    have hl := BoundedVec.tryPush_eq_some.1 hpush
    rw [State.Ranked, State.depositEvent, hl]
    refine List.pairwise_append.2 ⟨hr, List.pairwise_singleton _ _, fun c _ d hd _ he => ?_⟩
    -- The new record, which goes to the end, has no bond.
    rw [List.mem_singleton.1 hd] at he
    exact absurd rfl he.1
  | setCommissionOfCandidate =>
    exact State.ranked_updateCandidate hr fun c => ranksBelow_of_eq rfl rfl rfl rfl
  | leaveCandidate =>
    exact State.ranked_updateCandidate hr fun c =>
      .of_not_eligible fun h => absurd h.2.1 (by simp)
  | bondCorrection =>
    exact State.ranked_updateCandidate hr fun c => .of_not_eligible fun h => h.1 rfl
  | bondCandidate | stakeCandidate | unstakeCandidate | offlineCandidate | onlineCandidate =>
    exact State.ranked_sortProposedCandidates _

namespace State

variable {R : CandidateInfo AccountId → CandidateInfo AccountId → Prop}

/-- Slashing keeps an order that does not depend on the status, and that sorting
    establishes: it sorts when it marks anyone. -/
theorem pairwise_slashed (hsort : ∀ c d, (rankCmp T c d).isLE → R c d)
    (hstatus : ∀ c d status status', R c d → R { c with status } { d with status := status' })
    (h : s.proposedCandidates.toList.Pairwise R) :
    s.slashed.proposedCandidates.toList.Pairwise R := by
  obtain ⟨p, hp, -, rfl | rfl⟩ := slashed_eq s
  · rw [hp, BoundedVec.toList_map, List.pairwise_map]
    refine h.imp fun {c d} hcd => ?_
    obtain ⟨_, hc⟩ := CandidateInfo.queue_eq s.waitingCandidates c
    obtain ⟨_, hd⟩ := CandidateInfo.queue_eq s.waitingCandidates d
    exact hc ▸ hd ▸ hstatus _ _ _ _ hcd
  · rw [hp]
    exact (BoundedVec.pairwise_sortBy _ (rankCmp T)).imp fun {c d} => hsort c d

/-- A rotation keeps such an order. -/
theorem pairwise_rotateSession (hk : s.UniqueKeys) (hsort : ∀ c d, (rankCmp T c d).isLE → R c d)
    (hstatus : ∀ c d status status', R c d → R { c with status } { d with status := status' })
    (h : s.proposedCandidates.toList.Pairwise R) :
    s.rotateSession.proposedCandidates.toList.Pairwise R := by
  obtain ⟨p, w, hr, -, hp⟩ := rotateSession_eq hk
  rw [hr, hp, List.map_map, List.pairwise_map, List.pairwise_filterMap]
  refine (pairwise_slashed hsort hstatus h).imp fun {c d} hcd c' hc d' hd => ?_
  -- What is left of a record differs from it in its status only.
  have hlast (c : CandidateInfo AccountId) :
      ∃ status, (c.promote s.selected).author s.nextInvulnerables.toList = { c with status } := by
    obtain ⟨_, h₁⟩ := CandidateInfo.promote_eq s.selected c
    obtain ⟨_, h₂⟩ := CandidateInfo.author_eq s.nextInvulnerables.toList (c.promote s.selected)
    exact ⟨_, by rw [h₂, h₁]⟩
  obtain ⟨_, rfl⟩ := CandidateInfo.demote_eq_some hc
  obtain ⟨_, rfl⟩ := CandidateInfo.demote_eq_some hd
  obtain ⟨_, hc'⟩ := hlast { c with status := _ }
  obtain ⟨_, hd'⟩ := hlast { d with status := _ }
  rw [Function.comp_apply, Function.comp_apply, hc', hd']
  exact hstatus c d _ _ hcd

theorem ranked_slashed (hr : s.Ranked) : s.slashed.Ranked :=
  pairwise_slashed (fun _ _ => CandidateInfo.outranks_of_rankCmp) (fun _ _ _ _ h => h) hr

theorem ranked_rotateSession (hk : s.UniqueKeys) (hr : s.Ranked) : s.rotateSession.Ranked :=
  pairwise_rotateSession hk (fun _ _ => CandidateInfo.outranks_of_rankCmp) (fun _ _ _ _ h => h) hr

theorem ranked_onInitialize (hr : s.Ranked) (author : Option AccountId) :
    (s.onInitialize author).Ranked := by
  obtain ⟨actualAuthors, h⟩ := onInitialize_eq s author
  rw [h]
  cases author with
  | none => exact hr
  | some author =>
    exact ranked_updateCandidate hr fun c => CandidateInfo.ranksBelow_of_eq rfl rfl rfl rfl

end State

/-- In every reachable state, the eligible candidates are in the order of their stake. -/
theorem ranked_of_reachable (hs : (chain T AccountId).Reachable s) : s.Ranked := by
  refine reachable_induction hs (fun g d => List.Pairwise.nil) fun s e s' hk hn hr => ?_
  cases hn with
  | call h => exact h.ranked hr
  | failed | other => exact hr
  | block index => exact State.ranked_onInitialize (by exact hr) _
  | rotate => exact State.ranked_rotateSession hk hr

/-! ### Selection -/

/-- The first `k` of a list are related to all that is left out, and if anything
    is left out, there are `k` of them. -/
theorem pairwise_take {α : Type} {R : α → α → Prop} {l : List α} (h : l.Pairwise R) {k : ℕ} {a : α}
    (ha : a ∈ l) (hk : a ∉ l.take k) : (l.take k).length = k ∧ ∀ b ∈ l.take k, R b a := by
  rw [← List.take_append_drop k l] at h ha
  have hd : a ∈ l.drop k := (List.mem_append.1 ha).resolve_left hk
  refine ⟨?_, fun b hb => (List.pairwise_append.1 h).2.2 b hb a hd⟩
  have := List.length_pos_of_mem hd
  rw [List.length_drop] at this
  exact List.length_take_of_le (by omega)

/-- The candidates that may join the desired ones on the waiting list: those
    eligible after slashing, in the order of their records. -/
def State.contenders (s : State T AccountId) : List (CandidateInfo AccountId) :=
  s.slashed.proposedCandidates.toList.filter fun c => c.Eligible ∧ c.who ∉ s.desiredCandidates

theorem State.mem_contenders {c : CandidateInfo AccountId} :
    c ∈ s.contenders ↔
      c ∈ s.slashed.proposedCandidates.toList ∧ c.Eligible ∧ c.who ∉ s.desiredCandidates := by
  rw [contenders, List.mem_filter, decide_eq_true_eq]

/-- The end of the session selects the top stakes: the waiting list is the desired
    candidates, followed by as many of the contenders as there is room for; and if
    one of them is left out, the list is full, and none on it has less stake. -/
structure State.SelectsTop (s : State T AccountId) : Prop where
  waiting_eq : s.endSession.waitingCandidates.toList = s.desiredCandidates.toList ++
    (s.contenders.take (T.maxCandidates - s.desiredCandidates.toList.length)).map CandidateInfo.who
  optimal : ∀ x ∈ s.contenders, x.who ∉ s.endSession.waitingCandidates →
    s.endSession.waitingCandidates.toList.length = T.maxCandidates ∧
      ∀ y ∈ s.contenders, y.who ∈ s.endSession.waitingCandidates → x.combined T ≤ y.combined T

/-- In every reachable state, the end of the session selects the top stakes. -/
theorem selectsTop_of_reachable (hs : (chain T AccountId).Reachable s) : s.SelectsTop := by
  have hk := uniqueKeys_of_reachable hs
  obtain ⟨p, w, h, hw, -⟩ := State.endSession_eq hk
  have hsel : s.selected = (s.contenders.take
      (T.maxCandidates - s.desiredCandidates.toList.length)).map CandidateInfo.who :=
    (List.map_take).symm
  have hwl : s.endSession.waitingCandidates.toList = s.desiredCandidates.toList ++
      (s.contenders.take (T.maxCandidates - s.desiredCandidates.toList.length)).map
        CandidateInfo.who := by rw [h, hw, hsel]
  refine ⟨hwl, fun x hx hout => ?_⟩
  have hranked : s.contenders.Pairwise (CandidateInfo.Outranks T) :=
    (State.ranked_slashed (ranked_of_reachable hs)).filter _
  rw [← BoundedVec.mem_toList, hwl, List.mem_append, not_or] at hout
  -- As `x` is off the list, it is not among the first contenders.
  have hxt : x ∉ s.contenders.take (T.maxCandidates - s.desiredCandidates.toList.length) :=
    fun hx => hout.2 (List.mem_map_of_mem hx)
  obtain ⟨hlen, hle⟩ := pairwise_take hranked hx hxt
  refine ⟨?_, fun y hy hyw => ?_⟩
  · rw [hwl, List.length_append, List.length_map, hlen]
    have := s.desiredCandidates.length_le
    omega
  · rw [← BoundedVec.mem_toList, hwl, List.mem_append] at hyw
    obtain ⟨y', hy', he⟩ := List.mem_map.1 (hyw.resolve_left (State.mem_contenders.1 hy).2.2)
    -- Its account has one record only.
    obtain rfl : y' = y := List.inj_on_of_nodup_map (State.uniqueKeys_slashed hk)
      (State.mem_contenders.1 (List.mem_of_mem_take hy')).1 (State.mem_contenders.1 hy).1 he
    exact hle y' hy' (State.mem_contenders.1 hy).2.1 (State.mem_contenders.1 hx).2.1

/-- With two slots, one of them desired, the higher of two bonds gets the other. -/
theorem selectsTop_development :
    ((chain { Config.runtime with maxCandidates := 2 } Keyring).run
      (development _ (by decide) (by decide))
      [.signed .bob .registerCandidate, .signed .bob (.bondCandidate (10 ^ 14)),
        .signed .aliceStash .registerCandidate,
        .signed .aliceStash (.bondCandidate (2 * 10 ^ 14))]).SelectsTop :=
  selectsTop_of_reachable ((System.Reachable.init development_mem).run _)

end Xode.Staking
