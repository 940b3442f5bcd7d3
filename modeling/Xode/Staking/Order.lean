import Xode.Staking.Blocks
import Xode.Staking.Ranking

/-!
# The order of the records

`ProposedCandidates` is documented as kept sorted. Five of the calls sort it after
their write, and so does slashing; the others write the list as it is. A record
written in place is updated now, and so belongs behind those it ties with; a bond
correction also takes its bond away; and a new record is not offline, and so
belongs before those that are.

The list stays sorted exactly as long as such writes happen to leave each record
where it belongs (`always_sorted_iff`).
-/

namespace Xode.Staking

variable {T : Config} {AccountId : Type} {c d : CandidateInfo AccountId}

/-- One record ranks as high as another: not offline first, then the highest stake,
    then whoever was updated longest ago. -/
theorem rankCmp_isLE : (rankCmp T c d).isLE ↔ c.offline < d.offline ∨ c.offline = d.offline ∧
    (d.combined T < c.combined T ∨
      d.combined T = c.combined T ∧ c.lastUpdated ≤ d.lastUpdated) := by
  rw [rankCmp, Ordering.isLE_then_iff_or, Ordering.isLE_then_iff_or, Nat.isLE_compare,
    Nat.compare_eq_lt, Nat.compare_eq_eq]
  refine or_congr ?_ (and_congr_left fun _ => ?_) <;>
    cases c.offline <;> cases d.offline <;> decide

variable [DecidableEq AccountId] {s s' : State T AccountId} {a who : AccountId}

namespace State

/-- The records are sorted by rank. -/
def Sorted (s : State T AccountId) : Prop :=
  s.proposedCandidates.toList.Pairwise fun c d => (rankCmp T c d).isLE

instance (s : State T AccountId) : Decidable s.Sorted :=
  inferInstanceAs (Decidable (List.Pairwise _ _))

/-- With this stake, and updated now, the record `c` still belongs where it stands:
    of the records behind it with the same offline flag, none has more stake, and
    those with as much were updated in the current block. -/
def KeepsPlace (s : State T AccountId) (c : CandidateInfo AccountId) (stake : ℕ) : Prop :=
  ∀ d, Precedes s.proposedCandidates.toList c d → d.offline = c.offline →
    d.combined T ≤ stake ∧ (d.combined T = stake → s.blockNumber ≤ d.lastUpdated)

instance (s : State T AccountId) (c : CandidateInfo AccountId) (stake : ℕ) :
    Decidable (s.KeepsPlace c stake) :=
  decidable_of_iff (∀ d ∈ s.proposedCandidates.toList,
    Precedes s.proposedCandidates.toList c d → d.offline = c.offline →
      d.combined T ≤ stake ∧ (d.combined T = stake → s.blockNumber ≤ d.lastUpdated))
    ⟨fun h d hd => h d hd.right_mem hd, fun h d _ => h d⟩

/-- The step leaves the records where they belong: nobody registers behind an
    offline record, and a record whose commission, departure or bond correction is
    written in place keeps its place. -/
def LeavesSorted (s : State T AccountId) : Step AccountId → Prop
  | .tx (.call (.signed who) .registerCandidate) =>
    s.candidate? who = none → s.proposedCandidates.toList.length < T.maxCandidates →
      ∀ c ∈ s.proposedCandidates.toList, c.offline = false
  | .tx (.call (.signed who) (.setCommissionOfCandidate commission)) =>
    1 ≤ commission ∧ commission ≤ 100 →
      ∀ c ∈ s.candidate? who, s.KeepsPlace c (c.combined T)
  | .tx (.call (.signed who) .leaveCandidate) =>
    s.OutOfPipeline who → ∀ c ∈ s.candidate? who, c.offline → s.KeepsPlace c (c.combined T)
  | .tx (.call (.signed who) (.bondCorrection _)) =>
    s.OutOfPipeline who → ∀ c ∈ s.candidate? who, c.offline →
      s.KeepsPlace c (satAdd T 0 c.totalStake)
  | _ => True

end State

/-! ### Invariants -/

/-- No record was updated after the current block. -/
theorem lastUpdated_le_of_reachable (hs : (chain T AccountId).Reachable s)
    (hc : s.candidate? a = some c) : c.lastUpdated ≤ s.blockNumber := by
  refine reachable_induction (Q := fun s => ∀ c, s.candidate? a = some c →
    c.lastUpdated ≤ s.blockNumber) hs (fun g d c hc => by cases hc) (fun s e s' hk hn ih c hc => ?_)
    c hc
  cases hn with
  | call he =>
    rename_i who call
    rw [he.frame.blockNumber]
    rw [he.candidate? hk] at hc
    split at hc
    · -- What a call writes, it writes now.
      have hnow : c.lastUpdated = s'.blockNumber := by
        cases call with
        | registerCandidate => cases hc; rfl
        | _ => obtain ⟨c₀, -, rfl⟩ := Option.map_eq_some_iff.1 hc; rfl
      exact (hnow.trans he.frame.blockNumber).le
    · exact ih c hc
  | failed | other => exact ih c hc
  | block index =>
    rw [blockNumber_startBlock]
    obtain ⟨c₀, _, hc₀, rfl⟩ := State.exists_of_candidate?_startBlock hc
    exact (ih c₀ hc₀).trans (Nat.le_succ _)
  | rotate =>
    rw [State.Next.rotate.blockNumber hk (by simp)]
    rw [State.candidate?_rotateSession hk] at hc
    obtain ⟨c₀, hc₀, hr⟩ := Option.bind_eq_some_iff.1 hc
    obtain ⟨_, rfl⟩ := State.rotateCandidate_eq_mark hr
    rw [State.mark]
    split
    exacts [le_rfl, ih c₀ hc₀]

/-! ### Steps -/

namespace State

/-- Writing a record in place, with no more stake than before and updated now, keeps
    the records sorted exactly when it keeps its place. -/
theorem sorted_updateCandidate_iff (hk : s.UniqueKeys) (h : s.Sorted)
    (hc : s.candidate? who = some c) (hle : c.lastUpdated ≤ s.blockNumber)
    {f : CandidateInfo AccountId → CandidateInfo AccountId} (hoff : (f c).offline = c.offline)
    (hstake : (f c).combined T ≤ c.combined T) (hnow : (f c).lastUpdated = s.blockNumber) :
    (s.updateCandidate who f).Sorted ↔ s.KeepsPlace c ((f c).combined T) := by
  have hdown : (rankCmp T c (f c)).isLE := by
    rw [rankCmp_isLE, hoff, hnow]
    exact .inr ⟨rfl, hstake.lt_or_eq.imp_right fun he => ⟨he, hle⟩⟩
  refine (pairwise_updateKey_iff hk h hc).trans ⟨fun h' d hd ho => ?_, fun h' d => ⟨fun hd => ?_,
    fun hd => Std.TransCmp.isLE_trans (hd.rel h) hdown⟩⟩
  · have := rankCmp_isLE.1 ((h' d).1 hd)
    rw [hoff, hnow, ho] at this
    simp only [lt_self_iff_false, true_and, false_or] at this
    omega
  · have hcd := rankCmp_isLE.1 (hd.rel h)
    rw [rankCmp_isLE, hoff, hnow]
    refine hcd.imp_right fun ⟨ho, _⟩ => ⟨ho, ?_⟩
    have := h' d hd ho.symm
    omega

omit [DecidableEq AccountId] in
theorem sorted_sortProposedCandidates (s : State T AccountId) : s.sortProposedCandidates.Sorted :=
  s.proposedCandidates.pairwise_sortBy (rankCmp T)

theorem sorted_rotateSession (hk : s.UniqueKeys) (h : s.Sorted) : s.rotateSession.Sorted :=
  pairwise_rotateSession hk (fun _ _ h => h) (fun _ _ _ _ h => h) h

theorem sorted_onInitialize (h : s.Sorted) (author : Option AccountId) :
    (s.onInitialize author).Sorted := by
  obtain ⟨actualAuthors, hs⟩ := onInitialize_eq s author
  rw [hs]
  cases author with
  | none => exact h
  -- Authoring a block is no part of the rank.
  | some author => exact pairwise_updateKey h (fun _ _ _ h => h) fun _ _ _ h => h

end State

/-- A registration keeps the records sorted exactly when none is offline. -/
theorem Effect.sorted_register_iff (he : Effect s who .registerCandidate s')
    (hs : (chain T AccountId).Reachable s) (h : s.Sorted) :
    s'.Sorted ↔ ∀ c ∈ s.proposedCandidates.toList, c.offline = false := by
  have hk := uniqueKeys_of_reachable hs
  cases he with
  | registerCandidate hnew hpush =>
    rw [State.Sorted, State.depositEvent, BoundedVec.tryPush_eq_some.1 hpush,
      List.pairwise_append]
    simp only [List.pairwise_singleton, List.mem_singleton, forall_eq, true_and]
    refine (and_iff_right (by exact h)).trans (forall₂_congr fun c hc => ?_)
    have hnow : c.lastUpdated ≤ s.blockNumber :=
      lastUpdated_le_of_reachable hs ((State.candidate?_eq_some hk).2 ⟨hc, rfl⟩)
    have hzero : (CandidateInfo.fresh who s.blockNumber).combined T = 0 := by
      simp [CandidateInfo.combined, CandidateInfo.fresh, satAdd]
    rw [rankCmp_isLE, hzero]
    cases hoff : c.offline with
    | true => simp [CandidateInfo.fresh]
    | false =>
      simp only [CandidateInfo.fresh, lt_self_iff_false, true_and, false_or, iff_true]
      omega

/-- A call keeps the records sorted exactly when it leaves each where it belongs. -/
theorem Effect.sorted_iff {call : Call AccountId} (he : Effect s who call s')
    (hs : (chain T AccountId).Reachable s) (h : s.Sorted) :
    s'.Sorted ↔ s.LeavesSorted (.signed who call) := by
  have hk := uniqueKeys_of_reachable hs
  cases call with
  | registerCandidate =>
    obtain ⟨hnew, hroom⟩ := exists_register_iff.1 ⟨s', he⟩
    refine (he.sorted_register_iff hs h).trans ⟨fun h _ _ => h, fun h => h hnew hroom⟩
  | setCommissionOfCandidate commission =>
    cases he with
    | setCommissionOfCandidate hc hcomm =>
      refine (State.sorted_updateCandidate_iff hk h hc (lastUpdated_le_of_reachable hs hc) rfl
        le_rfl rfl).trans ?_
      simp only [State.LeavesSorted, hcomm, hc, Option.mem_def, Option.some.injEq, forall_eq',
        true_imp_iff, and_self]
      rfl
  | leaveCandidate =>
    cases he with
    | leaveCandidate hc hoff hout =>
      refine (State.sorted_updateCandidate_iff hk h hc (lastUpdated_le_of_reachable hs hc) rfl
        le_rfl rfl).trans ?_
      simp only [State.LeavesSorted, hout, hoff, hc, Option.mem_def, Option.some.injEq, forall_eq',
        true_imp_iff]
      rfl
  | bondCorrection frozenBalance =>
    cases he with
    | bondCorrection hc hoff hout =>
      refine (State.sorted_updateCandidate_iff (s := { s with currency := _ }) hk h hc
        (lastUpdated_le_of_reachable hs hc) rfl ?_ rfl).trans ?_
      · simp only [CandidateInfo.combined, satAdd]
        omega
      · simp only [State.LeavesSorted, hout, hoff, hc, Option.mem_def, Option.some.injEq,
          forall_eq', true_imp_iff]
        rfl
  | bondCandidate | stakeCandidate | unstakeCandidate | offlineCandidate | onlineCandidate =>
    refine iff_of_true ?_ trivial
    cases he
    exact State.sorted_sortProposedCandidates _

/-- A signed call that fails would have left the records where they belong, if its
    checks had passed: they did not. -/
theorem leavesSorted_of_fails {call : Call AccountId} (hfail : ∀ s', ¬Effect s who call s') :
    s.LeavesSorted (.signed who call) := by
  cases call with
  | registerCandidate =>
    exact fun hnew hroom => absurd (exists_register_iff.2 ⟨hnew, hroom⟩) (not_exists.2 hfail)
  | setCommissionOfCandidate commission =>
    exact fun hcomm c hc => absurd (.setCommissionOfCandidate hc hcomm) (hfail _)
  | leaveCandidate => exact fun hout c hc hoff => absurd (.leaveCandidate hc hoff hout) (hfail _)
  | bondCorrection frozenBalance =>
    exact fun hout c hc hoff => absurd (.bondCorrection hc hoff hout) (hfail _)
  | bondCandidate | stakeCandidate | unstakeCandidate | offlineCandidate | onlineCandidate =>
    trivial

/-- Whether the records are still sorted after a step. -/
theorem State.Next.sorted_iff {e : Step AccountId} (hn : s.Next e s')
    (hs : (chain T AccountId).Reachable s) (h : s.Sorted) : s'.Sorted ↔ s.LeavesSorted e := by
  cases hn with
  | call he => exact he.sorted_iff hs h
  | @failed origin call hfail =>
    refine iff_of_true h ?_
    cases origin with
    | signed who => exact leavesSorted_of_fails fun s' => hfail who s' rfl
    | root | none => trivial
  | @other tx _ _ hcall =>
    refine iff_of_true h ?_
    cases tx with
    | call origin call => exact absurd rfl (hcall origin call)
    | deposit | withdraw | grants | sessionKeys => trivial
  | block index => exact iff_of_true (State.sorted_onInitialize (by exact h) _) trivial
  | rotate => exact iff_of_true (State.sorted_rotateSession (uniqueKeys_of_reachable hs) h) trivial

/-- Throughout a run, the records are sorted by rank exactly when no account
    registers behind an offline record, and every record whose commission, departure
    or bond correction is written in place keeps its place. -/
theorem always_sorted_iff {es : List (Step AccountId)} (h₀ : s ∈ (chain T AccountId).init) :
    (chain T AccountId).Always State.Sorted s es ↔
      (chain T AccountId).Along State.LeavesSorted s es := by
  refine System.always_iff_along (.init h₀) ?_ fun s e hs h => (s.next_step e).sorted_iff hs h
  obtain ⟨g, d, rfl⟩ := genesis_cases h₀
  exact List.Pairwise.nil

/-- Two candidates rewrite their records in place. Offline, the lower one of them takes its
    bond back by a bond correction, and then the other one leaves. -/
theorem always_sorted_bonded :
    (chain Config.runtime Keyring).Always State.Sorted developmentState
      [.signed .bob .registerCandidate, .signed .bob (.bondCandidate (2 * 10 ^ 14)),
        .signed .aliceStash .registerCandidate, .signed .aliceStash (.bondCandidate (10 ^ 14)),
        .signed .aliceStash (.setCommissionOfCandidate 10),
        .signed .bob (.setCommissionOfCandidate 20), .signed .bob .offlineCandidate,
        .signed .aliceStash .offlineCandidate,
        .signed .aliceStash (.bondCorrection (10 ^ 14)), .signed .bob .leaveCandidate,
        .rotate] :=
  (always_sorted_iff developmentState_mem).2
    ⟨fun _ _ => by decide, trivial, fun _ _ => by decide, trivial, fun _ => by decide,
      fun _ => by decide, trivial, trivial, fun _ => by decide, fun _ => by decide, trivial,
      trivial⟩

/-- Two candidates are offline, and the first of them takes its bond back by a bond
    correction: it stays before the second, which has a bond. -/
theorem not_always_sorted :
    ¬(chain Config.runtime Keyring).Always State.Sorted developmentState
      [.signed .bob .registerCandidate, .signed .bob (.bondCandidate (2 * 10 ^ 14)),
        .signed .aliceStash .registerCandidate, .signed .aliceStash (.bondCandidate (10 ^ 14)),
        .signed .bob .offlineCandidate, .signed .aliceStash .offlineCandidate,
        .signed .bob (.bondCorrection (2 * 10 ^ 14))] := by
  rintro ⟨-, -, -, -, -, -, -, h⟩
  exact absurd h.start (by decide)

end Xode.Staking
