import Xode.Frame.Selection
import Xode.Staking.Order

/-!
# Elections

At every rotation, the slots that the desired candidates leave are given to the accounts
that may join them (`MayJoin`), in the order of the ranking that the records make at that
time (`ranking`).

* The selection has the most stake behind it of all that the slots allow
  (`elects_heaviest`).
* Whoever holds a place anywhere in the pipeline has won one of these elections, unless it
  is desired (`sometime_wins`). A desired candidate has its seat as long as it has session
  keys (`always_seats_iff`).
* With the records sorted, a call moves one candidate in the ranking at most, that of its
  target, and so at most one seat changes hands with another (`exchangesSeat_of_code`).
  Whoever has more stake put behind it does not lose its own (`keepsSeat_of_code`).
-/

namespace Xode.Staking

variable {T : Config} {AccountId : Type} [DecidableEq AccountId]
  {s s' s₀ : State T AccountId} {a b who : AccountId} {c : CandidateInfo AccountId}

namespace State

/-- The stake behind an account, `0` if it has no record. -/
def stakeBehind (s : State T AccountId) (a : AccountId) : ℕ :=
  (s.candidate? a).elim 0 (CandidateInfo.combined T)

/-- The account may be given one of the slots that the desired candidates leave, if the
    session ends now: it is an eligible candidate, and is not found stale. -/
def MayJoin (s : State T AccountId) (a : AccountId) : Prop :=
  ∃ c ∈ s.candidate? a, c.Eligible ∧ ¬s.Stale s.staleValidators c ∧ a ∉ s.desiredCandidates

instance (s : State T AccountId) (a : AccountId) : Decidable (s.MayJoin a) :=
  inferInstanceAs (Decidable (∃ c ∈ s.candidate? a, _))

/-- The accounts that may be given a slot, in the order in which they are. -/
def ranking (s : State T AccountId) : List AccountId :=
  newcomers s.slashed.proposedCandidates.toList s.desiredCandidates.toList

/-- The slots the desired candidates leave. -/
def room (s : State T AccountId) : ℕ := T.maxCandidates - s.desiredCandidates.toList.length

theorem selected_eq : s.selected = s.ranking.take s.room := rfl

/-! ### The ranking -/

/-- Queuing and slashing do not change the stake of a record. -/
theorem combined_mark_queue :
    (s.mark (c.queue s.waitingCandidates)).combined T = c.combined T := by
  obtain ⟨_, hq⟩ := CandidateInfo.queue_eq s.waitingCandidates c
  rw [hq, mark]
  split <;> rfl

/-- A record is eligible after them if it was before, and is not found stale. -/
theorem eligible_mark_queue : (s.mark (c.queue s.waitingCandidates)).Eligible ↔
    c.Eligible ∧ ¬s.Stale s.staleValidators c := by
  obtain ⟨_, hq⟩ := CandidateInfo.queue_eq s.waitingCandidates c
  rw [← CandidateInfo.not_outOfRunning, outOfRunning_mark, not_or, CandidateInfo.not_outOfRunning,
    hq]
  rfl

theorem stakeBehind_slashed (hk : s.UniqueKeys) : s.slashed.stakeBehind a = s.stakeBehind a := by
  rw [stakeBehind, stakeBehind, candidate?_slashed hk]
  cases s.candidate? a with
  | none => rfl
  | some c => exact combined_mark_queue

theorem mem_ranking (hk : s.UniqueKeys) : a ∈ s.ranking ↔ s.MayJoin a := by
  have hslashed : a ∈ s.ranking ↔
      ∃ c, s.slashed.candidate? a = some c ∧ c.Eligible ∧ a ∉ s.desiredCandidates := by
    simp only [ranking, newcomers, List.mem_map, List.mem_filter, decide_eq_true_eq,
      candidate?_eq_some (uniqueKeys_slashed hk)]
    constructor
    · rintro ⟨c, ⟨hc, he, hd⟩, rfl⟩
      exact ⟨c, ⟨hc, rfl⟩, he, hd⟩
    · rintro ⟨c, ⟨hc, rfl⟩, he, hd⟩
      exact ⟨c, ⟨hc, he, hd⟩, rfl⟩
  rw [hslashed, MayJoin, candidate?_slashed hk]
  cases s.candidate? a with
  | none => simp
  | some c => simp [eligible_mark_queue, and_assoc]

theorem nodup_ranking (hk : s.UniqueKeys) : s.ranking.Nodup :=
  (uniqueKeys_slashed hk).sublist (List.filter_sublist.map _)

/-- The ranking is in the order of the stakes. -/
theorem pairwise_ranking (hk : s.UniqueKeys) (hr : s.Ranked) :
    s.ranking.Pairwise fun a b => s.stakeBehind b ≤ s.stakeBehind a := by
  rw [ranking, newcomers, List.pairwise_map]
  refine ((ranked_slashed hr).filter _).imp_of_mem fun {c d} hc hd h => ?_
  simp only [List.mem_filter, decide_eq_true_eq] at hc hd
  have hstake {c : CandidateInfo AccountId} (hc : c ∈ s.slashed.proposedCandidates.toList) :
      s.stakeBehind c.who = c.combined T := by
    rw [← stakeBehind_slashed hk, stakeBehind,
      (candidate?_eq_some (uniqueKeys_slashed hk)).2 ⟨hc, rfl⟩]
    rfl
  rw [hstake hc.1, hstake hd.1]
  exact h hc.2.1 hd.2.1

/-- The waiting list of the next session. -/
theorem waiting_rotateSession (hk : s.UniqueKeys) :
    s.rotateSession.waitingCandidates.toList =
      s.desiredCandidates.toList ++ s.ranking.take s.room := (advances_rotateSession hk).waiting

/-- An account that is not desired is on it if it is among the first of the ranking. -/
theorem mem_waiting_rotateSession (hk : s.UniqueKeys) (hd : a ∉ s.desiredCandidates) :
    a ∈ s.rotateSession.waitingCandidates ↔ a ∈ s.ranking.take s.room := by
  rw [← BoundedVec.mem_toList, waiting_rotateSession hk, List.mem_append]
  exact or_iff_right hd

/-! ### The best selection -/

/-- A selection that the slots allow: accounts that may join the desired candidates, none of
    them twice, and no more than there is room for. -/
structure Admissible (s : State T AccountId) (l : List AccountId) : Prop where
  mayJoin : ∀ a ∈ l, s.MayJoin a
  nodup : l.Nodup
  length_le : l.length ≤ s.room

/-- What the first of the ranking leave out has no more stake behind it, and there is no room
    for it. -/
theorem stakeBehind_le_of_mayJoin (hs : (chain T AccountId).Reachable s) (ha : s.MayJoin a)
    (hout : a ∉ s.selected) :
    s.selected.length = s.room ∧ ∀ b ∈ s.selected, s.stakeBehind a ≤ s.stakeBehind b := by
  have hk := uniqueKeys_of_reachable hs
  exact pairwise_take (pairwise_ranking hk (ranked_of_reachable hs)) ((mem_ranking hk).2 ha) hout

theorem admissible_selected (hk : s.UniqueKeys) : s.Admissible s.selected where
  mayJoin _ ha := (mem_ranking hk).1 (List.mem_of_mem_take ha)
  nodup := (nodup_ranking hk).sublist (List.take_sublist _ _)
  length_le := List.length_take_le _ _

end State

/-- In every reachable state, the end of the session fills the slots that the desired
    candidates leave with the most accounts, and with those that have the most stake behind
    them in all, of all selections that the slots allow. -/
theorem elects_heaviest (hs : (chain T AccountId).Reachable s) :
    ∃ l, s.endSession.waitingCandidates.toList = s.desiredCandidates.toList ++ l ∧
      s.Admissible l ∧ ∀ l', s.Admissible l' →
        l'.length ≤ l.length ∧ (l'.map s.stakeBehind).sum ≤ (l.map s.stakeBehind).sum := by
  have hk := uniqueKeys_of_reachable hs
  obtain ⟨p, w, h, hw, -⟩ := State.endSession_eq hk
  have hsel := State.admissible_selected hk
  refine ⟨s.selected, by rw [h, hw], hsel, fun l' hl' => ⟨?_, ?_⟩⟩
  · -- Either all that may join are selected, or there is no room left.
    by_cases hsub : l' ⊆ s.selected
    · exact (hl'.nodup.subperm hsub).length_le
    · obtain ⟨a, ha, hout⟩ : ∃ a ∈ l', a ∉ s.selected := by simpa [List.subset_def] using hsub
      exact hl'.length_le.trans (State.stakeBehind_le_of_mayJoin hs (hl'.mayJoin a ha) hout).1.ge
  · rw [← List.sum_toFinset _ hl'.nodup, ← List.sum_toFinset _ hsel.nodup]
    refine sum_le_of_heaviest (k := s.room) (fun a ha hout => ?_) ?_
    · rw [List.mem_toFinset] at ha hout
      obtain ⟨hlen, hle⟩ := State.stakeBehind_le_of_mayJoin hs (hl'.mayJoin a ha) hout
      rw [List.toFinset_card_of_nodup hsel.nodup]
      exact ⟨hlen.ge, fun b hb => hle b (List.mem_toFinset.1 hb)⟩
    · rw [List.toFinset_card_of_nodup hl'.nodup]
      exact hl'.length_le

/-- With two slots, one of them desired, the best selection is the candidate with the higher
    of two bonds. -/
theorem elects_heaviest_development :
    let s := (chain { Config.runtime with maxCandidates := 2 } Keyring).run
      (development _ (by decide) (by decide))
      [.signed .bob .registerCandidate, .signed .bob (.bondCandidate (10 ^ 14)),
        .signed .aliceStash .registerCandidate,
        .signed .aliceStash (.bondCandidate (2 * 10 ^ 14))]
    ∃ l, s.endSession.waitingCandidates.toList = s.desiredCandidates.toList ++ l ∧
      s.Admissible l ∧ ∀ l', s.Admissible l' →
        l'.length ≤ l.length ∧ (l'.map s.stakeBehind).sum ≤ (l.map s.stakeBehind).sum :=
  elects_heaviest ((System.Reachable.init development_mem).run _)

/-! ### Seats are won -/

namespace State

/-- The account holds a place in the pipeline. -/
def Placed (s : State T AccountId) (a : AccountId) : Prop :=
  a ∈ s.waitingCandidates ∨ a ∈ s.invulnerables ∨ a ∈ s.session.queued ∨ a ∈ s.session.validators

/-- At a rotation, the account wins one of the slots that the desired candidates leave: it may
    join, it gets on the waiting list, and none that may join and is left out has more stake
    behind it. -/
def Wins (s : State T AccountId) (a : AccountId) : Prop :=
  s.MayJoin a ∧ a ∈ s.rotateSession.waitingCandidates ∧
    ∀ b, s.MayJoin b → b ∉ s.rotateSession.waitingCandidates → s.stakeBehind b ≤ s.stakeBehind a

theorem wins_of_mem_selected (hs : (chain T AccountId).Reachable s) (ha : a ∈ s.selected) :
    s.Wins a := by
  have hk := uniqueKeys_of_reachable hs
  have hd {b : AccountId} (hb : s.MayJoin b) : b ∉ s.desiredCandidates := by
    obtain ⟨c, -, -, -, hd⟩ := hb
    exact hd
  have hmay := (admissible_selected hk).mayJoin a ha
  refine ⟨hmay, (mem_waiting_rotateSession hk (hd hmay)).2 ha, fun b hb hout => ?_⟩
  rw [mem_waiting_rotateSession hk (hd hb)] at hout
  exact (stakeBehind_le_of_mayJoin hs hb hout).2 a ha

/-- A rotation places those that win, and moves those placed before on. -/
theorem placed_rotateSession (hs : (chain T AccountId).Reachable s)
    (hd : a ∉ s.desiredCandidates) (h : s.rotateSession.Placed a) : s.Placed a ∨ s.Wins a := by
  have hk := uniqueKeys_of_reachable hs
  have hr := advances_rotateSession hk
  have hnext (h : a ∈ s.nextInvulnerables) : s.Placed a := by
    rw [nextInvulnerables] at h
    split at h
    exacts [.inr (.inl h), .inl h]
  rcases h with h | h | h | h
  · exact .inr (wins_of_mem_selected hs ((mem_waiting_rotateSession hk hd).1 h))
  · exact .inl (hnext (hr.invulnerables ▸ h))
  · rw [hr.queued] at h
    exact .inl (hnext (List.mem_of_mem_filter h))
  · exact .inl (.inr (.inr (.inl (hr.validators ▸ h))))

/-- No step changes who is desired. -/
theorem Next.desired {e : Step AccountId} (hn : s.Next e s') (hk : s.UniqueKeys) :
    s'.desiredCandidates = s.desiredCandidates := by
  by_cases he : e = .rotate
  · subst he
    cases hn
    exact (advances_rotateSession hk).desired
  · exact (hn.sameSlots he).desired

end State

/-- Whoever holds a place in the pipeline and is not desired has won an election of the
    run. -/
theorem sometime_wins {es : List (Step AccountId)} (h₀ : s₀ ∈ (chain T AccountId).init)
    (hd : a ∉ s₀.desiredCandidates) (h : ((chain T AccountId).run s₀ es).Placed a) :
    (chain T AccountId).Sometime (fun s e => e = .rotate ∧ s.Wins a) s₀ es := by
  have hstart : ¬s₀.Placed a := by
    obtain ⟨g, d, rfl⟩ := genesis_cases h₀
    rintro (h | h | h | h)
    · exact hd h
    · exact hd h
    · exact hd (List.mem_of_mem_filter h)
    · exact hd h
  refine System.sometime_of_run (Q := fun s => s.Placed a ∧ a ∉ s.desiredCandidates) (.init h₀)
    (fun h => hstart h.1) ⟨h, ?_⟩ fun s e hs hQ hQ' => ?_
  · have hdes : ((chain T AccountId).run s₀ es).desiredCandidates = s₀.desiredCandidates :=
      run_induction_of_reachable (Q := fun s => s.desiredCandidates = s₀.desiredCandidates)
        (.init h₀) rfl fun s e _ s' hk hn h => (hn.desired hk).trans h
    rwa [hdes]
  · -- The account got its place in this step, which can only be a rotation it won.
    obtain ⟨hplaced, hout⟩ := hQ'
    have hdes : ((chain T AccountId).step s e).desiredCandidates = s.desiredCandidates :=
      (s.next_step e).desired (uniqueKeys_of_reachable hs)
    rw [hdes] at hout
    have hnot : ¬s.Placed a := fun h => hQ ⟨h, hout⟩
    by_cases he : e = .rotate
    · subst he
      exact ⟨rfl, (State.placed_rotateSession hs hout hplaced).resolve_left hnot⟩
    · have hsame : s.SameSlots ((chain T AccountId).step s e) := (s.next_step e).sameSlots he
      refine absurd ?_ hnot
      rwa [State.Placed, hsame.waiting, hsame.invulnerables, hsame.queued, hsame.validators]
        at hplaced

/-- Bob was elected before he got into the validator set. -/
theorem sometime_wins_development :
    (chain Config.runtime Keyring).Sometime (fun s e => e = .rotate ∧ s.Wins .bob) developmentState
      [.signed .bob .registerCandidate, .signed .bob (.bondCandidate (10 ^ 14)), .rotate,
        .rotate] :=
  sometime_wins developmentState_mem (by decide) (.inr (.inl (by decide)))

/-! ### Seats that nobody wins -/

namespace State

/-- A desired candidate is a validator of the session, and queued for the next one. -/
structure Seats (s : State T AccountId) (a : AccountId) : Prop where
  desired : a ∈ s.desiredCandidates
  inOffice : a ∈ s.session.validators
  queued : a ∈ s.session.queued

/-- A desired candidate is handed to the session at every rotation. -/
theorem mem_nextInvulnerables (hs : (chain T AccountId).Reachable s)
    (ha : a ∈ s.desiredCandidates) : a ∈ s.nextInvulnerables := by
  have hw : a ∈ s.waitingCandidates := (desired_of_reachable hs).subset ha
  rw [nextInvulnerables, if_neg (List.ne_nil_of_mem hw)]
  exact hw

/-- A desired candidate loses its seat at a rotation that finds it without session keys, and
    in no other step. -/
theorem Next.seats_iff {e : Step AccountId} (hn : s.Next e s')
    (hs : (chain T AccountId).Reachable s) (h : s.Seats a) :
    s'.Seats a ↔ (e = .rotate → s.session.hasKeys a) := by
  have hk := uniqueKeys_of_reachable hs
  by_cases he : e = .rotate
  · subst he
    cases hn
    have hr := advances_rotateSession hk
    have hqueued : a ∈ s.rotateSession.session.queued ↔ s.session.hasKeys a := by
      rw [hr.queued, List.mem_filter]
      exact and_iff_right (mem_nextInvulnerables hs h.desired)
    constructor
    · exact fun h' _ => hqueued.1 h'.queued
    · intro hkeys
      refine ⟨?_, ?_, hqueued.2 (hkeys rfl)⟩
      · rw [hr.desired]
        exact h.desired
      · rw [hr.validators]
        exact h.queued
  · have hsame := hn.sameSlots he
    refine iff_of_true ⟨?_, ?_, ?_⟩ fun hrotate => absurd hrotate he
    · exact hsame.desired ▸ h.desired
    · exact hsame.validators ▸ h.inOffice
    · exact hsame.queued ▸ h.queued

end State

/-- Whatever happens, a desired candidate has its seat throughout a run, exactly if it has
    session keys at genesis and whenever the session ends. -/
theorem always_seats_iff {es : List (Step AccountId)} (h₀ : s₀ ∈ (chain T AccountId).init)
    (ha : a ∈ s₀.desiredCandidates) :
    (chain T AccountId).Always (State.Seats · a) s₀ es ↔ s₀.session.hasKeys a ∧
      (chain T AccountId).Along (fun s e => e = .rotate → s.session.hasKeys a) s₀ es := by
  have hstart : s₀.Seats a ↔ s₀.session.hasKeys a := by
    obtain ⟨g, d, rfl⟩ := genesis_cases h₀
    exact ⟨fun h => (List.mem_filter.1 h.queued).2, fun hkeys =>
      ⟨ha, ha, List.mem_filter.2 ⟨ha, hkeys⟩⟩⟩
  have hrun (h : s₀.Seats a) : (chain T AccountId).Always (State.Seats · a) s₀ es ↔
      (chain T AccountId).Along (fun s e => e = .rotate → s.session.hasKeys a) s₀ es :=
    System.always_iff_along (.init h₀) h fun s e hs h => (s.next_step e).seats_iff hs h
  constructor
  · intro h
    exact ⟨hstart.1 h.start, (hrun h.start).1 h⟩
  · rintro ⟨hkeys, hes⟩
    exact (hrun (hstart.2 hkeys)).2 hes

/-- Alice registers and goes offline. She keeps her seat over three rotations. -/
theorem always_seats_development :
    (chain Config.runtime Keyring).Always (State.Seats · .alice) developmentState
      [.signed .alice .registerCandidate, .signed .alice .offlineCandidate, .rotate,
        .signed .bob .registerCandidate, .signed .bob (.bondCandidate (10 ^ 14)), .rotate,
        .rotate] :=
  (always_seats_iff developmentState_mem (by decide)).2
    ⟨rfl, nofun, nofun, fun _ => rfl, nofun, nofun, fun _ => rfl, fun _ => rfl, trivial⟩

/-! ### One call, one seat -/

namespace State

/-- The records of the other accounts. -/
def others (s : State T AccountId) (a : AccountId) : List (CandidateInfo AccountId) :=
  s.proposedCandidates.toList.filter fun c => c.who ≠ a

/-- With the records sorted, those of the others are. -/
theorem Sorted.others (h : s.Sorted) (a : AccountId) :
    (s.others a).Pairwise fun c d => (rankCmp T c d).isLE := h.sublist List.filter_sublist

theorem others_updateCandidate {f : CandidateInfo AccountId → CandidateInfo AccountId}
    (hf : ∀ c, (f c).who = c.who) : (s.updateCandidate a f).others a = s.others a :=
  filter_updateKey hf

theorem others_sortProposedCandidates (h : s.Sorted) {t : State T AccountId}
    (ht : t.others a = s.others a) : t.sortProposedCandidates.others a = s.others a := by
  have hsort : t.sortProposedCandidates.others a =
      (t.others a).insertionSort fun c d => (rankCmp T c d).isLE := filter_insertionSort _
  rw [hsort, ht, (h.others a).insertionSort_eq]

end State

/-- With the records sorted, a call leaves those of the others in their order. -/
theorem Effect.others {call : Call AccountId} (he : Effect s who call s') (h : s.Sorted) :
    s'.others (call.target who) = s.others (call.target who) := by
  cases he with
  | registerCandidate hnew hpush =>
    -- The new record is at the end, and is that of the target.
    rw [State.others, State.depositEvent, BoundedVec.tryPush_eq_some.1 hpush, List.filter_append,
      List.filter_cons_of_neg (by simp [Call.target, CandidateInfo.fresh]), List.filter_nil,
      List.append_nil]
    rfl
  | setCommissionOfCandidate | leaveCandidate | bondCorrection =>
    exact State.others_updateCandidate (by exact fun _ => rfl)
  | bondCandidate | stakeCandidate | unstakeCandidate | offlineCandidate | onlineCandidate =>
    exact State.others_sortProposedCandidates h
      (State.others_updateCandidate (by exact fun _ => rfl))

namespace State

/-- A call does not change who is found stale. -/
theorem Frame.stale_iff (h : s.Frame s') :
    s'.Stale s'.staleValidators c ↔ s.Stale s.staleValidators c := by
  have hstale : s'.staleValidators = s.staleValidators := by
    simp only [staleValidators, currentValidators_eq, h.session, h.actualAuthors,
      h.desiredCandidates]
  rw [Stale, Stale, hstale, h.blockNumber]

theorem Frame.mark (h : s.Frame s') : s'.mark = s.mark := by
  funext c
  by_cases hc : s.Stale s.staleValidators c
  · rw [State.mark, State.mark, if_pos hc, if_pos (h.stale_iff.2 hc), h.blockNumber]
  · rw [State.mark, State.mark, if_neg hc, if_neg (mt h.stale_iff.1 hc)]

/-- Where nobody is marked, marking changes no record. -/
theorem map_mark_eq {l : List (CandidateInfo AccountId)}
    (hl : (l.map CandidateInfo.who).Nodup) (h : l.Perm (l.map s.mark)) : l.map s.mark = l := by
  refine (List.map_congr_left fun c hc => ?_).trans (List.map_id l)
  have hfind : findKey CandidateInfo.who c.who (l.map s.mark) =
      (findKey CandidateInfo.who c.who l).map s.mark := findKey_map fun _ => who_mark
  rw [findKey_perm hl h, findKey_of_mem hl hc] at hfind
  exact (Option.some_injective _ hfind).symm

/-- Slashing sorts the records of the others, if they were sorted. -/
theorem others_slashed (hk : s.UniqueKeys)
    (h : (s.others a).Pairwise fun c d => (rankCmp T c d).isLE) :
    s.slashed.others a = (((s.others a).map (CandidateInfo.queue s.waitingCandidates)).map
      s.mark).insertionSort fun c d => (rankCmp T c d).isLE := by
  obtain ⟨p, hp, hperm, hcase⟩ := slashed_eq s
  have hqueue : (s.proposedCandidates.toList.map (CandidateInfo.queue s.waitingCandidates)).filter
      (fun c => c.who ≠ a) = (s.others a).map (CandidateInfo.queue s.waitingCandidates) := by
    rw [List.filter_map]
    exact congrArg _ (List.filter_congr fun c _ => by simp)
  have hmark (l : List (CandidateInfo AccountId)) :
      (l.map s.mark).filter (fun c => c.who ≠ a) = (l.filter fun c => c.who ≠ a).map s.mark := by
    rw [List.filter_map]
    exact congrArg _ (List.filter_congr fun c _ => by simp)
  rw [← hqueue, ← hmark, others, hp]
  obtain rfl | rfl := hcase
  · -- Nobody was marked, and the list was left as it was.
    have hkeys : ((s.proposedCandidates.toList.map (CandidateInfo.queue s.waitingCandidates)).map
        CandidateInfo.who).Nodup := by simpa [UniqueKeys, Function.comp_def] using hk
    rw [map_mark_eq hkeys hperm, hqueue, BoundedVec.toList_map, hqueue,
      List.Pairwise.insertionSort_eq]
    rw [List.pairwise_map]
    refine h.imp fun {c d} hcd => ?_
    obtain ⟨_, hc⟩ := CandidateInfo.queue_eq s.waitingCandidates c
    obtain ⟨_, hd⟩ := CandidateInfo.queue_eq s.waitingCandidates d
    rw [hc, hd]
    exact hcd
  · exact filter_insertionSort _

/-- Without an account, the ranking is that of the records of the others. -/
theorem filter_ranking : s.ranking.filter (· ≠ a) =
    ((s.slashed.others a).filter fun c => c.Eligible ∧ c.who ∉ s.desiredCandidates.toList).map
      CandidateInfo.who := by
  rw [ranking, newcomers, List.filter_map, List.filter_filter, others, List.filter_filter]
  exact congrArg _ (List.filter_congr fun c _ => Bool.and_comm _ _)

end State

/-- With the records sorted, a call moves no account but its target in the ranking. -/
theorem Effect.filter_ranking {call : Call AccountId} (he : Effect s who call s')
    (hk : s.UniqueKeys) (h : s.Sorted) :
    s'.ranking.filter (· ≠ call.target who) = s.ranking.filter (· ≠ call.target who) := by
  have hothers := he.others h
  have hf := he.frame
  have hsorted := h.others (call.target who)
  rw [State.filter_ranking, State.filter_ranking, State.others_slashed hk hsorted,
    State.others_slashed (he.uniqueKeys hk) (hothers ▸ hsorted), hothers, hf.mark,
    hf.waitingCandidates, hf.desiredCandidates]

/-- From `s` to `s'`, at most one seat of the next session changes hands between `a` and
    another account, and none between others: whoever gains one takes it from `a`, and
    whoever loses one, loses it to `a`. -/
structure State.ExchangesSeat (s s' : State T AccountId) (a : AccountId) : Prop where
  gained : ∀ b, b ≠ a → b ∈ s'.rotateSession.waitingCandidates →
    b ∉ s.rotateSession.waitingCandidates →
      a ∈ s.rotateSession.waitingCandidates ∧ a ∉ s'.rotateSession.waitingCandidates
  lost : ∀ b, b ≠ a → b ∈ s.rotateSession.waitingCandidates →
    b ∉ s'.rotateSession.waitingCandidates →
      a ∈ s'.rotateSession.waitingCandidates ∧ a ∉ s.rotateSession.waitingCandidates
  gained_once : ∀ b c, b ≠ a → c ≠ a →
    b ∈ s'.rotateSession.waitingCandidates → b ∉ s.rotateSession.waitingCandidates →
    c ∈ s'.rotateSession.waitingCandidates → c ∉ s.rotateSession.waitingCandidates → b = c
  lost_once : ∀ b c, b ≠ a → c ≠ a →
    b ∈ s.rotateSession.waitingCandidates → b ∉ s'.rotateSession.waitingCandidates →
    c ∈ s.rotateSession.waitingCandidates → c ∉ s'.rotateSession.waitingCandidates → b = c

namespace State

/-- Two rankings for the same slots that differ in the place of one account. -/
structure Reranks (s s' : State T AccountId) (a : AccountId) : Prop where
  left : s.UniqueKeys
  right : s'.UniqueKeys
  desired : s'.desiredCandidates = s.desiredCandidates
  ranking : s'.ranking.filter (· ≠ a) = s.ranking.filter (· ≠ a)

theorem Reranks.symm (h : s.Reranks s' a) : s'.Reranks s a :=
  ⟨h.right, h.left, h.desired.symm, h.ranking.symm⟩

theorem Reranks.room (h : s.Reranks s' a) : s'.room = s.room := by
  rw [State.room, State.room, h.desired]

/-- Who gains a seat is selected from the second ranking only. -/
theorem Reranks.gains (h : s.Reranks s' a) (hb : b ∈ s'.rotateSession.waitingCandidates)
    (hout : b ∉ s.rotateSession.waitingCandidates) :
    b ∈ s'.ranking.take s.room ∧ b ∉ s.ranking.take s.room := by
  have hd : b ∉ s.desiredCandidates := fun hd => hout (by
    rw [← BoundedVec.mem_toList, waiting_rotateSession h.left]
    exact List.mem_append_left _ hd)
  rw [mem_waiting_rotateSession h.right (h.desired ▸ hd), h.room] at hb
  rw [mem_waiting_rotateSession h.left hd] at hout
  exact ⟨hb, hout⟩

theorem Reranks.gained (h : s.Reranks s' a) (hba : b ≠ a)
    (hb : b ∈ s'.rotateSession.waitingCandidates) (hout : b ∉ s.rotateSession.waitingCandidates) :
    a ∈ s.rotateSession.waitingCandidates ∧ a ∉ s'.rotateSession.waitingCandidates := by
  obtain ⟨hin, hnot⟩ := h.gains hb hout
  obtain ⟨ha, ha'⟩ := exchange_of_filter (nodup_ranking h.left) (nodup_ranking h.right)
    h.ranking.symm hba hin hnot
  obtain ⟨_, -, -, -, hd⟩ := (mem_ranking h.left).1 (List.mem_of_mem_take ha)
  rw [mem_waiting_rotateSession h.left hd, mem_waiting_rotateSession h.right (h.desired ▸ hd),
    h.room]
  exact ⟨ha, ha'⟩

theorem Reranks.gained_once {d : AccountId} (h : s.Reranks s' a) (hba : b ≠ a) (hda : d ≠ a)
    (hb : b ∈ s'.rotateSession.waitingCandidates) (hbout : b ∉ s.rotateSession.waitingCandidates)
    (hd : d ∈ s'.rotateSession.waitingCandidates) (hdout : d ∉ s.rotateSession.waitingCandidates) :
    b = d := by
  obtain ⟨hb, hbout⟩ := h.gains hb hbout
  obtain ⟨hd, hdout⟩ := h.gains hd hdout
  exact eq_of_exchange (nodup_ranking h.left) (nodup_ranking h.right) h.ranking.symm hba hda
    hb hbout hd hdout

end State

theorem Effect.reranks {call : Call AccountId} (he : Effect s who call s') (hk : s.UniqueKeys)
    (h : s.Sorted) : s.Reranks s' (call.target who) :=
  ⟨hk, he.uniqueKeys hk, he.frame.desiredCandidates, he.filter_ranking hk h⟩

/-- With the records sorted, a successful call lets at most one seat of the next session
    change hands, between the candidate whose record it writes and another account. -/
theorem exchangesSeat_of_code (hs : (chain T AccountId).Reachable s) (h : s.Sorted)
    {call : Call AccountId} (hok : call.code (.signed who) s = .ok () s') :
    s.ExchangesSeat s' (call.target who) := by
  obtain ⟨_, ho, he⟩ := code_eq_ok.1 hok
  cases ho
  have hre := he.reranks (uniqueKeys_of_reachable hs) h
  exact ⟨fun b => hre.gained, fun b => hre.symm.gained, fun b c => hre.gained_once,
    fun b c => hre.symm.gained_once⟩

/-- Bob outbids the other candidate for the one slot that is left. -/
theorem exchangesSeat_development :
    let s := (chain { Config.runtime with maxCandidates := 2 } Keyring).run
      (development _ (by decide) (by decide))
      [.signed .bob .registerCandidate, .signed .bob (.bondCandidate (10 ^ 14)),
        .signed .aliceStash .registerCandidate,
        .signed .aliceStash (.bondCandidate (2 * 10 ^ 14))]
    s.ExchangesSeat (s.step (.signed .bob (.bondCandidate (3 * 10 ^ 14)))) .bob := by
  intro s
  have hs : (chain _ Keyring).Reachable s := (System.Reachable.init development_mem).run _
  have hok : (Call.bondCandidate (3 * 10 ^ 14)).code (.signed Keyring.bob) s = .ok () _ :=
    State.code_of_succeeds _ (by decide)
  exact exchangesSeat_of_code hs (by decide) hok

/-! ### More stake -/

section

variable {call : Call AccountId}

/-- A call changes neither the stake behind the others nor whether they may join. -/
theorem Effect.stakeBehind_of_ne (he : Effect s who call s') (hk : s.UniqueKeys)
    (ha : a ≠ call.target who) : s'.stakeBehind a = s.stakeBehind a := by
  rw [State.stakeBehind, he.candidate? hk, if_neg ha, State.stakeBehind]

theorem Effect.mayJoin_of_ne (he : Effect s who call s') (hk : s.UniqueKeys)
    (ha : a ≠ call.target who) : s'.MayJoin a ↔ s.MayJoin a := by
  simp only [State.MayJoin, he.candidate? hk, if_neg ha, he.frame.stale_iff,
    he.frame.desiredCandidates]

/-- A call that puts more stake behind a candidate that may join leaves it so. -/
theorem Effect.mayJoin_of_raise (he : Effect s who call s') (hk : s.UniqueKeys)
    (ha : s.MayJoin (call.target who))
    (hraise : s.stakeBehind (call.target who) < s'.stakeBehind (call.target who)) :
    s'.MayJoin (call.target who) := by
  obtain ⟨c, hc, helig, hstale, hd⟩ := ha
  have hc' := he.candidate? hk (call.target who)
  rw [if_pos rfl, hc] at hc'
  rw [State.stakeBehind, State.stakeBehind, hc', hc] at hraise
  have hframe := he.frame
  cases he with
  | registerCandidate hnew => exact absurd (hnew.symm.trans hc) (by simp)
  | @bondCandidate newBond =>
    simp only [Call.record, Option.map_some, Option.elim, CandidateInfo.combined, satAdd] at hraise
    -- A bond that adds to the stake is not zero.
    have hbond : newBond ≠ 0 := by omega
    exact ⟨_, hc', ⟨hbond, helig.2⟩, mt hframe.stale_iff.1 hstale, hd⟩
  | stakeCandidate | unstakeCandidate =>
    exact ⟨_, hc', helig, mt hframe.stale_iff.1 hstale, hd⟩
  | bondCorrection =>
    simp only [Call.record, Option.map_some, Option.elim, CandidateInfo.combined, satAdd] at hraise
    omega
  | setCommissionOfCandidate | offlineCandidate | onlineCandidate | leaveCandidate =>
    exact absurd hraise (lt_irrefl _)

/-- In every reachable state, a successful call that puts more stake behind the candidate
    whose record it writes does not cost it a seat of the next session; and if the records
    are sorted, nobody else gains one by it. -/
theorem keepsSeat_of_code (hs : (chain T AccountId).Reachable s)
    (hok : call.code (.signed who) s = .ok () s')
    (hraise : s.stakeBehind (call.target who) < s'.stakeBehind (call.target who)) :
    (call.target who ∈ s.rotateSession.waitingCandidates →
      call.target who ∈ s'.rotateSession.waitingCandidates) ∧
    (s.Sorted → ∀ b, b ≠ call.target who → b ∈ s'.rotateSession.waitingCandidates →
      b ∈ s.rotateSession.waitingCandidates) := by
  obtain ⟨_, ho, he⟩ := code_eq_ok.1 hok
  cases ho
  have hk := uniqueKeys_of_reachable hs
  have hs' := reachable_of_code hs call hok
  have hk' := uniqueKeys_of_reachable hs'
  have hdes := he.frame.desiredCandidates
  have hkeeps : call.target who ∈ s.rotateSession.waitingCandidates →
      call.target who ∈ s'.rotateSession.waitingCandidates := fun h => by
    by_cases hd : call.target who ∈ s.desiredCandidates
    · rw [← BoundedVec.mem_toList, State.waiting_rotateSession hk', hdes]
      exact List.mem_append_left _ hd
    · rw [State.mem_waiting_rotateSession hk hd] at h
      have hroom : s'.room = s.room := by rw [State.room, State.room, hdes]
      rw [State.mem_waiting_rotateSession hk' (hdes ▸ hd), hroom]
      have hmay := (State.mem_ranking hk).1 (List.mem_of_mem_take h)
      refine mem_take_of_precedes (State.nodup_ranking hk) (State.nodup_ranking hk')
        ((State.mem_ranking hk').2 (he.mayJoin_of_raise hk hmay hraise)) (fun b hb => ?_) h
      -- Whoever comes before it has more stake than it had before.
      have hba : b ≠ call.target who := fun h => by
        rw [h] at hb
        exact hb.asymm (State.nodup_ranking hk') hb
      have hle := hb.rel (State.pairwise_ranking hk' (ranked_of_reachable hs'))
      have hbmay := (he.mayJoin_of_ne hk hba).1 ((State.mem_ranking hk').1 hb.left_mem)
      rw [he.stakeBehind_of_ne hk hba] at hle
      rw [← not_precedes (State.nodup_ranking hk) (List.mem_of_mem_take h)
        ((State.mem_ranking hk).2 hbmay) hba.symm]
      intro hab
      have := hab.rel (State.pairwise_ranking hk (ranked_of_reachable hs))
      omega
  refine ⟨hkeeps, fun h b hb hmem => by_contra fun hout => ?_⟩
  obtain ⟨ha, ha'⟩ := (he.reranks hk h).gained hb hmem hout
  exact ha' (hkeeps ha)

end

/-- Bob, who has the slot, keeps it with a delegation behind him. -/
theorem keepsSeat_development :
    let s := (chain { Config.runtime with maxCandidates := 2 } Keyring).run
      (development _ (by decide) (by decide))
      [.signed .bob .registerCandidate, .signed .bob (.bondCandidate (2 * 10 ^ 14)),
        .signed .aliceStash .registerCandidate, .signed .aliceStash (.bondCandidate (10 ^ 14))]
    let s' := s.step (.signed .bobStash (.stakeCandidate .bob 1))
    (.bob ∈ s.rotateSession.waitingCandidates → .bob ∈ s'.rotateSession.waitingCandidates) ∧
      (s.Sorted → ∀ b, b ≠ .bob → b ∈ s'.rotateSession.waitingCandidates →
        b ∈ s.rotateSession.waitingCandidates) := by
  intro s s'
  have hs : (chain _ Keyring).Reachable s := (System.Reachable.init development_mem).run _
  have hok : (Call.stakeCandidate Keyring.bob 1).code (.signed .bobStash) s = .ok () s' :=
    State.code_of_succeeds _ (by decide)
  exact keepsSeat_of_code hs hok (by decide)

end Xode.Staking
