import Xode.Staking.Effects

/-!
# What the hooks do

The effect of each hook on the storage: which items it writes, and what becomes
of every record. Each stage of a session rotation rewrites the records one by
one: queued (`queue`), marked when stale (`mark`), dropped or moved one step
back when out of the running (`demote`), moved to the waiting list (`promote`),
and set to authoring (`author`). As no two records are of the same account, the
stages compose record by record (`candidate?_rotateSession`), although the
source loops over snapshots and looks records up by account. The stage that
drops and moves back, as it leaves the list, is `movesBack_prepareNextWaitingList`.
-/

namespace Xode.Staking

variable {T : Config} {AccountId : Type} [DecidableEq AccountId]

/-! ### The stages, on one record -/

namespace CandidateInfo

/-- A waiting candidate on the waiting list is queued. -/
def queue (waiting : BoundedVec AccountId T.maxCandidates) (c : CandidateInfo AccountId) :
    CandidateInfo AccountId :=
  if c.status = .waiting ∧ c.who ∈ waiting then { c with status := .queuing } else c

/-- A candidate out of the running. -/
def OutOfRunning (c : CandidateInfo AccountId) : Prop :=
  c.offline ∨ c.leaving ∨ c.bond = 0

instance (c : CandidateInfo AccountId) : Decidable c.OutOfRunning :=
  inferInstanceAs (Decidable (_ ∨ _ ∨ _))

/-- A candidate out of the running is dropped, or moves one step back. -/
def demote (c : CandidateInfo AccountId) : Option (CandidateInfo AccountId) :=
  if c.OutOfRunning then
    match c.status with
    | .online | .offline | .waiting => none
    | .queuing => some { c with status := .waiting }
    | .authoring => some { c with status := .queuing }
  else some c

/-- An online candidate put on the waiting list is waiting. -/
def promote (pushed : List AccountId) (c : CandidateInfo AccountId) : CandidateInfo AccountId :=
  if c.who ∈ pushed ∧ c.status = .online then { c with status := .waiting } else c

/-- A candidate in the validator set is authoring. -/
def author (authors : List AccountId) (c : CandidateInfo AccountId) : CandidateInfo AccountId :=
  if c.who ∈ authors then { c with status := .authoring } else c

omit [DecidableEq AccountId] in
theorem not_outOfRunning {c : CandidateInfo AccountId} : ¬c.OutOfRunning ↔ c.Eligible := by
  simp only [OutOfRunning, Eligible, not_or, Bool.not_eq_true]
  exact ⟨fun ⟨hoff, hleaving, hbond⟩ => ⟨hbond, hleaving, hoff⟩,
    fun ⟨hbond, hleaving, hoff⟩ => ⟨hoff, hleaving, hbond⟩⟩

theorem queue_eq (waiting : BoundedVec AccountId T.maxCandidates) (c : CandidateInfo AccountId) :
    ∃ status, c.queue waiting = { c with status } := by
  rw [queue]; split <;> exact ⟨_, rfl⟩

omit [DecidableEq AccountId] in
/-- What the removal keeps, it keeps up to its status. -/
theorem demote_eq_some {c c' : CandidateInfo AccountId} (h : c.demote = some c') :
    ∃ status, c' = { c with status } := by
  rw [demote] at h
  split at h
  · split at h <;> cases h <;> exact ⟨_, rfl⟩
  · cases h; exact ⟨_, rfl⟩

theorem promote_eq (pushed : List AccountId) (c : CandidateInfo AccountId) :
    ∃ status, c.promote pushed = { c with status } := by
  rw [promote]; split <;> exact ⟨_, rfl⟩

theorem author_eq (authors : List AccountId) (c : CandidateInfo AccountId) :
    ∃ status, c.author authors = { c with status } := by
  rw [author]; split <;> exact ⟨_, rfl⟩

@[simp] theorem who_queue {waiting : BoundedVec AccountId T.maxCandidates}
    {c : CandidateInfo AccountId} : (c.queue waiting).who = c.who := by
  obtain ⟨_, h⟩ := queue_eq waiting c
  rw [h]

omit [DecidableEq AccountId] in
theorem who_of_demote {c c' : CandidateInfo AccountId} (h : c.demote = some c') :
    c'.who = c.who := by
  obtain ⟨_, rfl⟩ := demote_eq_some h
  rfl

omit [DecidableEq AccountId] in
/-- Moving a candidate back does not change its eligibility. -/
theorem eligible_of_demote {c c' : CandidateInfo AccountId} (h : c.demote = some c') :
    c'.Eligible ↔ c.Eligible := by
  obtain ⟨_, rfl⟩ := demote_eq_some h
  rfl

omit [DecidableEq AccountId] in
theorem demote_eq_none {c : CandidateInfo AccountId} :
    c.demote = none ↔
      c.OutOfRunning ∧ (c.status = .online ∨ c.status = .offline ∨ c.status = .waiting) := by
  rw [demote]
  split
  · next h => cases hs : c.status <;> simp [h]
  · next h => simp [h]

@[simp] theorem who_promote {pushed : List AccountId} {c : CandidateInfo AccountId} :
    (c.promote pushed).who = c.who := by
  obtain ⟨_, h⟩ := promote_eq pushed c
  rw [h]

@[simp] theorem who_author {authors : List AccountId} {c : CandidateInfo AccountId} :
    (c.author authors).who = c.who := by
  obtain ⟨_, h⟩ := author_eq authors c
  rw [h]

theorem promote_nil {c : CandidateInfo AccountId} : c.promote [] = c :=
  if_neg fun h => List.not_mem_nil h.1

theorem promote_promote {l l' : List AccountId} {c : CandidateInfo AccountId} :
    (c.promote l).promote l' = c.promote (l ++ l') := by
  simp only [promote, List.mem_append]
  by_cases h : c.who ∈ l <;> by_cases h' : c.status = .online <;> simp [h, h']

theorem author_nil {c : CandidateInfo AccountId} : c.author [] = c := if_neg List.not_mem_nil

theorem author_author {l l' : List AccountId} {c : CandidateInfo AccountId} :
    (c.author l).author l' = c.author (l ++ l') := by
  simp only [author, List.mem_append]
  by_cases h : c.who ∈ l <;> by_cases h' : c.who ∈ l' <;> simp [h, h']

end CandidateInfo

namespace State

variable {s : State T AccountId} {a : AccountId}

/-- A stale candidate is marked offline. -/
def mark (s : State T AccountId) (c : CandidateInfo AccountId) : CandidateInfo AccountId :=
  if s.Stale s.staleValidators c then { c with offline := true, lastUpdated := s.blockNumber }
  else c

@[simp] theorem who_mark {c : CandidateInfo AccountId} : (s.mark c).who = c.who := by
  rw [mark]; split <;> rfl

/-- Whether a record is stale does not depend on its status. -/
theorem mark_status {c : CandidateInfo AccountId} {status : Status} :
    s.mark { c with status } = { s.mark c with status } := by
  by_cases h : s.Stale s.staleValidators c
  · rw [mark, mark, if_pos h, if_pos (by exact h)]
  · rw [mark, mark, if_neg h, if_neg (by exact h)]

theorem toList_setStatus {status : Status} :
    (s.setStatus a status).proposedCandidates.toList =
      updateKey CandidateInfo.who a (fun c => { c with status }) s.proposedCandidates.toList := rfl

/-! ### The start of a block -/

theorem addActualAuthor_eq (s : State T AccountId) (author : AccountId) :
    ∃ actualAuthors, s.addActualAuthor author = { s with actualAuthors } := by
  rw [addActualAuthor]
  split
  · exact ⟨s.actualAuthors, rfl⟩
  · split
    · exact ⟨_, rfl⟩
    · exact ⟨s.actualAuthors, rfl⟩

/-- The start of a block touches the record of its author and the authors of the
    session only. -/
theorem onInitialize_eq (s : State T AccountId) (author : Option AccountId) :
    ∃ actualAuthors, s.onInitialize author =
      { s with
        proposedCandidates := match author with
          | some author => s.proposedCandidates.updateKey CandidateInfo.who author fun c =>
              { c with lastAuthored := s.blockNumber }
          | none => s.proposedCandidates
        actualAuthors } := by
  cases author with
  | none => exact ⟨s.actualAuthors, rfl⟩
  | some author => exact addActualAuthor_eq (s.recordAuthoredBlock author) author

theorem candidate?_onInitialize {author : Option AccountId} :
    (s.onInitialize author).candidate? a =
      if author = some a then (s.candidate? a).map fun c => { c with lastAuthored := s.blockNumber }
      else s.candidate? a := by
  obtain ⟨actualAuthors, h⟩ := onInitialize_eq s author
  rw [h]
  cases author with
  | none => rfl
  | some author =>
    refine (findKey_updateKey (by exact fun _ => rfl)).trans ?_
    simp only [Option.some.injEq, eq_comm (a := author)]
    exact ite_congr rfl (fun h => h ▸ rfl) fun _ => rfl

theorem uniqueKeys_onInitialize {author : Option AccountId} (hk : s.UniqueKeys) :
    (s.onInitialize author).UniqueKeys := by
  obtain ⟨actualAuthors, h⟩ := onInitialize_eq s author
  rw [h]
  cases author with
  | none => exact hk
  | some author => exact (uniqueKeys_updateCandidate (by exact fun _ => rfl)).2 hk

/-! ### The end of a session -/

/-- Queuing touches the records and the validator set; it fails, and touches
    nothing, when nobody is waiting. -/
theorem finalState_queueAuthors (s : State T AccountId) :
    finalState queueAuthors s =
      { s with
        proposedCandidates := s.proposedCandidates.map (CandidateInfo.queue s.waitingCandidates)
        invulnerables :=
          if s.waitingCandidates.toList = [] then s.invulnerables else s.waitingCandidates } := by
  by_cases h : s.waitingCandidates.toList = []
  · have hq : s.proposedCandidates.map (CandidateInfo.queue s.waitingCandidates) =
        s.proposedCandidates := by
      refine BoundedVec.ext (List.map_id'' (fun c => if_neg fun hc => ?_) _)
      exact absurd hc.2 (by rw [← BoundedVec.mem_toList, h]; exact List.not_mem_nil)
    rw [hq, if_pos h, queueAuthors, finalState_get_bind, finalState_ensure_bind,
      if_neg (not_not.2 h)]
  · rw [if_neg h, queueAuthors, finalState_get_bind, finalState_ensure_bind, if_pos h]
    rfl

/-- Slashing touches the records, up to their order, and resets the authors of
    the session. -/
theorem slashStaleAuthors_eq (s : State T AccountId) :
    ∃ p, s.slashStaleAuthors = { s with proposedCandidates := p, actualAuthors := .empty } ∧
      p.toList.Perm (s.proposedCandidates.toList.map s.mark) ∧
      (p = s.proposedCandidates ∨ p = (s.proposedCandidates.map s.mark).sortBy (rankCmp T)) := by
  -- With no stale record, marking changes nothing, and the two branches agree.
  have hmark (h : ¬∃ c ∈ s.proposedCandidates.toList, s.Stale s.staleValidators c) :
      s.proposedCandidates.toList.map s.mark = s.proposedCandidates.toList := by
    refine (List.map_congr_left fun c hc => ?_).trans (List.map_id _)
    exact if_neg fun hs => h ⟨c, hc, hs⟩
  by_cases h : ∃ c ∈ s.proposedCandidates.toList, s.Stale s.staleValidators c
  · have hne : s.staleValidators.isEmpty = false := by
      obtain ⟨c, _, hc⟩ := h
      exact List.isEmpty_eq_false_iff.2 (List.ne_nil_of_mem hc.1)
    refine ⟨_, ?_, BoundedVec.perm_sortBy _ _, .inr rfl⟩
    rw [slashStaleAuthors]
    simp only [hne, h, if_true, Bool.false_eq_true, if_false]
    rfl
  · refine ⟨s.proposedCandidates, ?_, by rw [hmark h], .inl rfl⟩
    rw [slashStaleAuthors]
    simp only [h, if_false]
    split
    · rfl
    · congr 1
      exact BoundedVec.ext (hmark h)

/-- What one iteration of the removal loop does to the candidate it is at, when
    the candidates before it are done and those after it are as they were. -/
theorem prepareCandidate_eq {done post : List (CandidateInfo AccountId)}
    {c : CandidateInfo AccountId} (h : s.proposedCandidates.toList = done ++ c :: post)
    (hk : s.UniqueKeys) :
    ∃ p w, s.prepareCandidate c = { s with proposedCandidates := p, waitingCandidates := w } ∧
      p.toList = done ++ c.demote.toList ++ post ∧
      w.toList = s.waitingCandidates.toList.filter fun a =>
        ¬(c.OutOfRunning ∧ c.status = .waiting ∧ c.who = a) := by
  have hn : c.who ∉ done.map CandidateInfo.who ∧ c.who ∉ post.map CandidateInfo.who := by
    rw [UniqueKeys, h, List.map_append, List.map_cons, List.nodup_middle, List.nodup_cons,
      List.mem_append, not_or] at hk
    exact hk.1
  -- Dropping the record of `c` drops no other, as they are of other accounts.
  have hremove : (s.proposedCandidates.toList.filter fun x => x.who ≠ c.who) = done ++ post := by
    have hl {l : List (CandidateInfo AccountId)} (hl : c.who ∉ l.map CandidateInfo.who) :
        (l.filter fun x => x.who ≠ c.who) = l :=
      List.filter_eq_self.2 fun x hx => by
        simpa using fun he : x.who = c.who => hl (he ▸ List.mem_map_of_mem hx)
    rw [h, List.filter_append, List.filter_cons_of_neg (by simp), hl hn.1, hl hn.2]
  have hstatus (status : Status) : (s.setStatus c.who status).proposedCandidates.toList =
      done ++ [{ c with status }] ++ post := by
    rw [toList_setStatus, h, updateKey_append hn.1, updateKey_cons, if_pos rfl, List.append_assoc,
      List.singleton_append]
  by_cases hr : c.OutOfRunning
  · cases hs : c.status with
    | online | offline =>
      refine ⟨s.proposedCandidates.retain fun x => x.who ≠ c.who, s.waitingCandidates, ?_, ?_, ?_⟩
      · exact (if_pos hr).trans (by rw [hs]; rfl)
      · simpa [CandidateInfo.demote, hr, hs] using hremove
      · simp
    | waiting =>
      refine ⟨s.proposedCandidates.retain fun x => x.who ≠ c.who,
        s.waitingCandidates.retain (· ≠ c.who), ?_, ?_, ?_⟩
      · exact (if_pos hr).trans (by rw [hs]; rfl)
      · simpa [CandidateInfo.demote, hr, hs] using hremove
      · simp [hr, eq_comm]
    | queuing =>
      refine ⟨(s.setStatus c.who .waiting).proposedCandidates, s.waitingCandidates, ?_, ?_, ?_⟩
      · exact (if_pos hr).trans (by rw [hs]; rfl)
      · simpa [CandidateInfo.demote, hr, hs] using hstatus .waiting
      · simp
    | authoring =>
      refine ⟨(s.setStatus c.who .queuing).proposedCandidates, s.waitingCandidates, ?_, ?_, ?_⟩
      · exact (if_pos hr).trans (by rw [hs]; rfl)
      · simpa [CandidateInfo.demote, hr, hs] using hstatus .queuing
      · simp
  · refine ⟨s.proposedCandidates, s.waitingCandidates, ?_, ?_, ?_⟩
    · exact if_neg hr
    · simp [CandidateInfo.demote, hr, h]
    · simp [hr]

/-- The removal loop, when the candidates `done` are done: by induction on those
    left to do. -/
theorem foldl_prepareCandidate (done : List (CandidateInfo AccountId))
    {post : List (CandidateInfo AccountId)} (h : s.proposedCandidates.toList = done ++ post)
    (hk : s.UniqueKeys) :
    ∃ p w, post.foldl prepareCandidate s =
        { s with proposedCandidates := p, waitingCandidates := w } ∧
      p.toList = done ++ post.filterMap CandidateInfo.demote ∧
      w.toList = s.waitingCandidates.toList.filter fun a =>
        ¬∃ c ∈ post, c.OutOfRunning ∧ c.status = .waiting ∧ c.who = a := by
  induction post generalizing s done with
  | nil => exact ⟨s.proposedCandidates, s.waitingCandidates, rfl, by simpa using h, by simp⟩
  | cons c post ih =>
    obtain ⟨p₁, w₁, h₁, hp₁, hw₁⟩ := prepareCandidate_eq h hk
    -- The record done is of the same account as before, if it is there at all.
    have hk₁ : (s.prepareCandidate c).UniqueKeys := by
      have hsub : (c.demote.toList.map CandidateInfo.who).Sublist [c.who] := by
        cases hd : c.demote with
        | none => exact List.nil_sublist _
        | some c' => simp [CandidateInfo.who_of_demote hd]
      rw [UniqueKeys, h, List.map_append, List.map_cons] at hk
      rw [UniqueKeys, h₁, hp₁, List.map_append, List.map_append, List.append_assoc]
      exact hk.sublist ((hsub.append_right _).append_left _)
    obtain ⟨p, w, h₂, hp, hw⟩ := ih _ (by rw [h₁, hp₁]) hk₁
    refine ⟨p, w, by rw [List.foldl_cons, h₂, h₁], ?_, ?_⟩
    · rw [hp, List.filterMap_cons]
      cases c.demote <;> simp
    · rw [hw, h₁, hw₁, List.filter_filter]
      refine List.filter_congr fun a _ => ?_
      simp [Bool.and_comm]

/-- The removal loop is one pass over the records: each is kept, moved one step
    back or dropped on its own account. -/
theorem prepareNextWaitingList_eq (hk : s.UniqueKeys) :
    ∃ p w, s.prepareNextWaitingList =
        { s with proposedCandidates := p, waitingCandidates := w } ∧
      p.toList = s.proposedCandidates.toList.filterMap CandidateInfo.demote ∧
      w.toList = s.waitingCandidates.toList.filter fun a =>
        ¬∃ c ∈ s.proposedCandidates.toList, c.OutOfRunning ∧ c.status = .waiting ∧ c.who = a :=
  foldl_prepareCandidate [] rfl hk

/-- From `s` to `s'`, the candidates out of the running are dropped or move one step back,
    all at once: each record on its own account, and the others stay. -/
structure MovesBack (s s' : State T AccountId) : Prop where
  records : s'.proposedCandidates.toList =
    s.proposedCandidates.toList.filterMap CandidateInfo.demote
  /-- Exactly the accounts dropped while waiting leave the waiting list. -/
  waiting : s'.waitingCandidates.toList = s.waitingCandidates.toList.filter fun a =>
    ¬∃ c ∈ s.proposedCandidates.toList, c.OutOfRunning ∧ c.status = .waiting ∧ c.who = a
  /-- A record moves one step at most. -/
  candidate? : ∀ c ∈ s.proposedCandidates.toList, s'.candidate? c.who = c.demote
  eligible : ∀ c ∈ s.proposedCandidates.toList, c.Eligible → c ∈ s'.proposedCandidates.toList
  rest : s' = { s with
    proposedCandidates := s'.proposedCandidates, waitingCandidates := s'.waitingCandidates }

/-- The removal loop, which goes over a copy of the records while it rewrites the list of
    them, is one simultaneous pass. -/
theorem movesBack_prepareNextWaitingList (hk : s.UniqueKeys) :
    s.MovesBack s.prepareNextWaitingList := by
  obtain ⟨p, w, h, hp, hw⟩ := prepareNextWaitingList_eq hk
  rw [h]
  refine ⟨hp, hw, fun c hc => ?_, fun c hc he => ?_, rfl⟩
  · have hfind := (findKey_filterMap hk fun _ _ => CandidateInfo.who_of_demote).trans
      (congrArg (Option.bind · CandidateInfo.demote) (findKey_of_mem hk hc))
    rw [State.candidate?, hp]
    exact hfind
  · rw [hp, List.mem_filterMap]
    exact ⟨c, hc, if_neg (CandidateInfo.not_outOfRunning.2 he)⟩

/-- Bob is authoring and offline, and moves one step back. The record of Alice, which is not
    bonded, and that of the waiting `bobStash`, which is offline, are dropped, and only the
    latter leaves the waiting list. `aliceStash` stays as it is. -/
theorem movesBack_development :
    let s := (chain Config.runtime Keyring).run developmentState
      [.signed .bob .registerCandidate, .signed .bob (.bondCandidate (10 ^ 14)), .rotate, .rotate,
        .signed .aliceStash .registerCandidate, .signed .aliceStash (.bondCandidate (10 ^ 14)),
        .signed .bobStash .registerCandidate, .signed .bobStash (.bondCandidate (10 ^ 14)), .rotate,
        .signed .alice .registerCandidate, .signed .bob .offlineCandidate,
        .signed .bobStash .offlineCandidate]
    s.MovesBack s.prepareNextWaitingList ∧
      s.proposedCandidates.toList.map (fun c => (c.who, c.status)) =
        [(.aliceStash, .waiting), (.alice, .online), (.bobStash, .waiting), (.bob, .authoring)] ∧
      s.prepareNextWaitingList.proposedCandidates.toList.map (fun c => (c.who, c.status)) =
        [(.aliceStash, .waiting), (.bob, .queuing)] ∧
      s.waitingCandidates.toList = [.alice, .bob, .aliceStash, .bobStash] ∧
      s.prepareNextWaitingList.waitingCandidates.toList = [.alice, .bob, .aliceStash] :=
  ⟨movesBack_prepareNextWaitingList (by decide +kernel), by decide +kernel, by decide +kernel,
    by decide +kernel, by decide +kernel⟩

/-! ### The waiting list -/

omit [DecidableEq AccountId] in
theorem toList_pushDesired {desired : List AccountId}
    {waiting : BoundedVec AccountId T.maxCandidates}
    (h : waiting.toList.length + desired.length ≤ T.maxCandidates) :
    (pushDesired desired waiting).toList = waiting.toList ++ desired := by
  induction desired generalizing waiting with
  | nil => simp [pushDesired]
  | cons a desired ih =>
    rw [List.length_cons] at h
    obtain ⟨w, hw⟩ : ∃ w, waiting.tryPush a = some w := by
      rw [← Option.isSome_iff_exists, Option.isSome_iff_ne_none, Ne, BoundedVec.tryPush_eq_none]
      omega
    have hl := BoundedVec.tryPush_eq_some.1 hw
    rw [pushDesired, hw]
    simp only
    rw [ih (by rw [hl, List.length_append, List.length_singleton]; omega), hl, List.append_assoc,
      List.singleton_append]

/-- The accounts of the eligible candidates among `l` that `waiting` does not have. -/
def newcomers (l : List (CandidateInfo AccountId)) (waiting : List AccountId) : List AccountId :=
  (l.filter fun c => c.Eligible ∧ c.who ∉ waiting).map CandidateInfo.who

theorem newcomers_cons {c : CandidateInfo AccountId} {l : List (CandidateInfo AccountId)}
    {waiting : List AccountId} :
    newcomers (c :: l) waiting =
      if c.Eligible ∧ c.who ∉ waiting then c.who :: newcomers l waiting
      else newcomers l waiting := by
  by_cases h : c.Eligible ∧ c.who ∉ waiting <;> simp [newcomers, h]

/-- Once on the list, an account is only in the way of candidates of its own. -/
theorem newcomers_append_singleton {l : List (CandidateInfo AccountId)} {waiting : List AccountId}
    (h : a ∉ l.map CandidateInfo.who) : newcomers l (waiting ++ [a]) = newcomers l waiting := by
  refine congrArg (List.map _) (List.filter_congr fun c hc => ?_)
  have : c.who ≠ a := fun e => h (e ▸ List.mem_map_of_mem hc)
  simp [this]

/-- Putting an online candidate on the waiting list promotes its record. -/
theorem setStatus_waiting_eq {c : CandidateInfo AccountId} (hk : s.UniqueKeys)
    (hc : c ∈ s.proposedCandidates.toList) :
    ∃ p, (if c.status = .online then s.setStatus c.who .waiting else s) =
        { s with proposedCandidates := p } ∧
      p.toList = s.proposedCandidates.toList.map (CandidateInfo.promote [c.who]) := by
  have huniq : ∀ x ∈ s.proposedCandidates.toList, x.who = c.who → x = c := fun x hx he =>
    List.inj_on_of_nodup_map hk hx hc he
  by_cases hs : c.status = .online
  · refine ⟨(s.setStatus c.who .waiting).proposedCandidates, if_pos hs, ?_⟩
    rw [toList_setStatus, updateKey_eq_map hk]
    refine List.map_congr_left fun x hx => ?_
    by_cases he : x.who = c.who
    · simp [CandidateInfo.promote, huniq x hx he, hs]
    · simp [CandidateInfo.promote, he]
  · refine ⟨s.proposedCandidates, if_neg hs, ?_⟩
    refine (List.map_id _).symm.trans (List.map_congr_left fun x hx => (if_neg ?_).symm)
    rintro ⟨he, ho⟩
    exact hs (huniq x hx (List.mem_singleton.1 he) ▸ ho)

/-- Pushing onto the waiting list: it takes, in order, as many of the eligible
    candidates it does not have yet as there is room for, and they are promoted. -/
theorem pushProposed_eq {l : List (CandidateInfo AccountId)}
    (waiting : BoundedVec AccountId T.maxCandidates) (hk : s.UniqueKeys)
    (hl : (l.map CandidateInfo.who).Nodup) (hs : ∀ c ∈ l, c ∈ s.proposedCandidates.toList) :
    ∃ p, (pushProposed l waiting s).2 = { s with proposedCandidates := p } ∧
      (pushProposed l waiting s).1.toList = waiting.toList ++
        (newcomers l waiting.toList).take (T.maxCandidates - waiting.toList.length) ∧
      p.toList = s.proposedCandidates.toList.map (CandidateInfo.promote
        ((newcomers l waiting.toList).take (T.maxCandidates - waiting.toList.length))) := by
  have hnil (s : State T AccountId) : s.proposedCandidates.toList =
      s.proposedCandidates.toList.map (CandidateInfo.promote []) :=
    (List.map_id'' (fun _ => CandidateInfo.promote_nil) _).symm
  induction l generalizing waiting s with
  | nil =>
    exact ⟨s.proposedCandidates, rfl, by simp [pushProposed, newcomers],
      by simpa [newcomers] using hnil s⟩
  | cons c l ih =>
    rw [List.map_cons, List.nodup_cons] at hl
    rw [pushProposed]
    by_cases hfull : T.maxCandidates ≤ waiting.toList.length
    · rw [if_pos hfull, Nat.sub_eq_zero_of_le hfull]
      exact ⟨s.proposedCandidates, rfl, by simp, by simpa using hnil s⟩
    · have hcond : (c.who ∉ waiting ∧ c.bond ≠ 0 ∧ ¬c.leaving ∧ ¬c.offline) ↔
          c.Eligible ∧ c.who ∉ waiting.toList := by
        simp only [CandidateInfo.Eligible, BoundedVec.mem_toList, Bool.not_eq_true]
        exact and_comm
      rw [if_neg hfull, newcomers_cons]
      by_cases hc : c.Eligible ∧ c.who ∉ waiting.toList
      · -- The candidate is pushed and promoted; the rest goes by induction.
        obtain ⟨w, hw⟩ : ∃ w, waiting.tryPush c.who = some w := by
          rw [← Option.isSome_iff_exists, Option.isSome_iff_ne_none, Ne, BoundedVec.tryPush_eq_none]
          omega
        have hwl := BoundedVec.tryPush_eq_some.1 hw
        obtain ⟨p₁, hp₁, hpl₁⟩ := setStatus_waiting_eq hk (hs c List.mem_cons_self)
        rw [if_pos (hcond.2 hc), if_pos hc, hw]
        simp only
        rw [hp₁]
        obtain ⟨p, hp, hpw, hpl⟩ := ih w (s := { s with proposedCandidates := p₁ })
          (by simpa [UniqueKeys, hpl₁, Function.comp_def] using hk) hl.2
          (fun x hx => by
            have hx' := hs x (List.mem_cons_of_mem _ hx)
            have hne : x.who ≠ c.who := fun e => hl.1 (e ▸ List.mem_map_of_mem hx)
            rw [hpl₁]
            exact List.mem_map.2 ⟨x, hx', by simp [CandidateInfo.promote, hne]⟩)
        have hroom : T.maxCandidates - waiting.toList.length =
            (T.maxCandidates - w.toList.length) + 1 := by
          rw [hwl, List.length_append, List.length_singleton]; omega
        have hnew : newcomers l w.toList = newcomers l waiting.toList := by
          rw [hwl, newcomers_append_singleton hl.1]
        rw [hnew] at hpw hpl
        refine ⟨p, hp, ?_, ?_⟩
        · rw [hpw, hwl, hroom, List.take_succ_cons, List.append_assoc, List.singleton_append]
          rw [hwl]
        · rw [hpl, hpl₁, hroom, List.take_succ_cons, List.map_map]
          exact List.map_congr_left fun x _ => CandidateInfo.promote_promote
      · -- The candidate is passed over.
        rw [if_neg (fun h => hc (hcond.1 h)), if_neg hc]
        exact ih waiting hk hl.2 fun x hx => hs x (List.mem_cons_of_mem _ hx)

/-- The removal loop keeps the eligible candidates as they are, and makes no
    other eligible. -/
theorem newcomers_filterMap_demote {l : List (CandidateInfo AccountId)} {waiting : List AccountId} :
    newcomers (l.filterMap CandidateInfo.demote) waiting = newcomers l waiting := by
  induction l with
  | nil => rfl
  | cons c l ih =>
    rw [List.filterMap_cons, newcomers_cons]
    by_cases hr : c.OutOfRunning
    · have hc : ¬c.Eligible := fun he => CandidateInfo.not_outOfRunning.2 he hr
      rw [if_neg fun h => hc h.1]
      cases hd : c.demote with
      | none => exact ih
      | some c' =>
        rw [newcomers_cons, if_neg fun h => hc ((CandidateInfo.eligible_of_demote hd).1 h.1), ih]
    · rw [CandidateInfo.demote, if_neg hr, newcomers_cons, ih]

/-! ### A new session -/

theorem toList_foldl_setStatus (authors : List AccountId) (hk : s.UniqueKeys) :
    ∃ p, authors.foldl (fun s author => s.setStatus author .authoring) s =
        { s with proposedCandidates := p } ∧
      p.toList = s.proposedCandidates.toList.map (CandidateInfo.author authors) := by
  induction authors generalizing s with
  | nil =>
    exact ⟨s.proposedCandidates, rfl, (List.map_id'' (fun _ => CandidateInfo.author_nil) _).symm⟩
  | cons a authors ih =>
    obtain ⟨p, hp, hpl⟩ := ih (s := s.setStatus a .authoring)
      ((uniqueKeys_updateCandidate (by exact fun _ => rfl)).2 hk)
    refine ⟨p, hp, ?_⟩
    rw [hpl, toList_setStatus, updateKey_eq_map hk, List.map_map]
    refine List.map_congr_left fun c _ => ?_
    rw [Function.comp_apply, ← List.singleton_append, ← CandidateInfo.author_author]
    simp [CandidateInfo.author]

/-- A new session sets the validator set to authoring. -/
theorem newSession_eq (hk : s.UniqueKeys) :
    ∃ p, s.newSession = (some s.invulnerables.toList, { s with proposedCandidates := p }) ∧
      p.toList = s.proposedCandidates.toList.map (CandidateInfo.author s.invulnerables.toList) := by
  obtain ⟨p, hp, hpl⟩ := toList_foldl_setStatus s.invulnerables.toList hk
  exact ⟨p, by rw [newSession, hp], hpl⟩

/-! ### A rotation -/

/-- The validator set after a rotation: the waiting list, unless it is empty. -/
def nextInvulnerables (s : State T AccountId) : BoundedVec AccountId T.maxCandidates :=
  if s.waitingCandidates.toList = [] then s.invulnerables else s.waitingCandidates

/-- The storage of a session that ends, after slashing. -/
def slashed (s : State T AccountId) : State T AccountId :=
  (finalState queueAuthors s).slashStaleAuthors

/-- The accounts that join the desired ones on the waiting list. -/
def selected (s : State T AccountId) : List AccountId :=
  (newcomers s.slashed.proposedCandidates.toList s.desiredCandidates.toList).take
    (T.maxCandidates - s.desiredCandidates.toList.length)

/-- What becomes of a record in a rotation. -/
def rotateCandidate (s : State T AccountId) (c : CandidateInfo AccountId) :
    Option (CandidateInfo AccountId) :=
  (s.mark (c.queue s.waitingCandidates)).demote.map fun c =>
    (c.promote s.selected).author s.nextInvulnerables.toList

theorem slashed_eq (s : State T AccountId) :
    ∃ p, s.slashed =
        { s with
          proposedCandidates := p, invulnerables := s.nextInvulnerables, actualAuthors := .empty } ∧
      p.toList.Perm ((s.proposedCandidates.toList.map
        (CandidateInfo.queue s.waitingCandidates)).map s.mark) ∧
      (p = s.proposedCandidates.map (CandidateInfo.queue s.waitingCandidates) ∨
        p = ((s.proposedCandidates.map (CandidateInfo.queue s.waitingCandidates)).map s.mark).sortBy
          (rankCmp T)) := by
  obtain ⟨p, h, hp⟩ := slashStaleAuthors_eq (finalState queueAuthors s)
  rw [finalState_queueAuthors] at h hp
  exact ⟨p, by rw [slashed, finalState_queueAuthors, h]; rfl, hp⟩

theorem uniqueKeys_slashed (hk : s.UniqueKeys) : s.slashed.UniqueKeys := by
  obtain ⟨p, h, hp, -⟩ := slashed_eq s
  rw [UniqueKeys, h, (hp.map _).nodup_iff]
  simpa [UniqueKeys, Function.comp_def] using hk

/-- The removal leaves the records unique. -/
theorem nodup_who_demote (hk : s.UniqueKeys) :
    ((s.slashed.proposedCandidates.toList.filterMap CandidateInfo.demote).map
      CandidateInfo.who).Nodup :=
  (uniqueKeys_slashed hk).sublist (map_key_filterMap fun _ _ => CandidateInfo.who_of_demote)

/-- The end of a session. -/
theorem endSession_eq (hk : s.UniqueKeys) :
    ∃ p w, s.endSession =
        { s with
          proposedCandidates := p, invulnerables := s.nextInvulnerables, waitingCandidates := w
          actualAuthors := .empty } ∧
      w.toList = s.desiredCandidates.toList ++ s.selected ∧
      p.toList = (s.slashed.proposedCandidates.toList.filterMap CandidateInfo.demote).map
        (CandidateInfo.promote s.selected) := by
  obtain ⟨p₀, h₀, -⟩ := slashed_eq s
  obtain ⟨p₁, w₁, h₁, hp₁, -⟩ := prepareNextWaitingList_eq (uniqueKeys_slashed hk)
  have hk₁ : (p₁.toList.map CandidateInfo.who).Nodup := hp₁ ▸ nodup_who_demote hk
  have hd : (pushDesired (T := T) s.desiredCandidates.toList .empty).toList =
      s.desiredCandidates.toList :=
    toList_pushDesired (by simpa using s.desiredCandidates.length_le)
  obtain ⟨p, h₂, hw, hp⟩ := pushProposed_eq (s := s.slashed.prepareNextWaitingList)
    (l := p₁.toList) (pushDesired s.desiredCandidates.toList .empty)
    (by rw [UniqueKeys, h₁]; exact hk₁) hk₁ (by rw [h₁]; exact fun c hc => hc)
  -- Who is eligible was settled by the slashing.
  have hnew : newcomers p₁.toList s.desiredCandidates.toList =
      newcomers s.slashed.proposedCandidates.toList s.desiredCandidates.toList := by
    rw [hp₁, newcomers_filterMap_demote]
  rw [hd, hnew] at hw hp
  refine ⟨p, (pushProposed p₁.toList (pushDesired s.desiredCandidates.toList .empty)
    s.slashed.prepareNextWaitingList).1, ?_, hw, ?_⟩
  · have hend : s.endSession = s.slashed.prepareNextWaitingList.refreshWaitingList := rfl
    have hdes : s.slashed.prepareNextWaitingList.desiredCandidates = s.desiredCandidates := by
      rw [h₁, h₀]
    have hpro : s.slashed.prepareNextWaitingList.proposedCandidates = p₁ := by rw [h₁]
    rw [hend, refreshWaitingList, hdes, hpro]
    simp only
    rw [h₂, h₁, h₀]
  · rw [hp, h₁, hp₁]
    rfl

/-- What the pallet returns at a rotation, and the storage it leaves. -/
theorem planSession_eq (hk : s.UniqueKeys) :
    ∃ p w, s.planSession = (some s.nextInvulnerables.toList,
        { s with
          proposedCandidates := p, invulnerables := s.nextInvulnerables, waitingCandidates := w
          actualAuthors := .empty, session := { s.session with validators := s.session.queued } }) ∧
      w.toList = s.desiredCandidates.toList ++ s.selected ∧
      p.toList = ((s.slashed.proposedCandidates.toList.filterMap CandidateInfo.demote).map
        (CandidateInfo.promote s.selected)).map
          (CandidateInfo.author s.nextInvulnerables.toList) := by
  obtain ⟨p₁, w, h₁, hw, hp₁⟩ := endSession_eq hk
  have hk₁ : (p₁.toList.map CandidateInfo.who).Nodup := by
    rw [hp₁, List.map_map]
    have : CandidateInfo.who ∘ CandidateInfo.promote s.selected = CandidateInfo.who :=
      funext fun c => CandidateInfo.who_promote
    rw [this]
    exact nodup_who_demote hk
  obtain ⟨p, h₂, hp⟩ := newSession_eq (s :=
    { s with
      proposedCandidates := p₁, invulnerables := s.nextInvulnerables, waitingCandidates := w
      actualAuthors := .empty, session := { s.session with validators := s.session.queued } }) hk₁
  refine ⟨p, w, ?_, hw, by rw [hp, hp₁]⟩
  rw [planSession, h₁]
  exact h₂

/-- A rotation. -/
theorem rotateSession_eq (hk : s.UniqueKeys) :
    ∃ p w, s.rotateSession =
        { s with
          proposedCandidates := p, invulnerables := s.nextInvulnerables, waitingCandidates := w
          actualAuthors := .empty
          session :=
            { s.session with
              validators := s.session.queued
              queued := s.nextInvulnerables.toList.filter s.session.hasKeys } } ∧
      w.toList = s.desiredCandidates.toList ++ s.selected ∧
      p.toList = ((s.slashed.proposedCandidates.toList.filterMap CandidateInfo.demote).map
        (CandidateInfo.promote s.selected)).map
          (CandidateInfo.author s.nextInvulnerables.toList) := by
  obtain ⟨p, w, h, hw, hp⟩ := planSession_eq hk
  exact ⟨p, w, by rw [rotateSession, h]; rfl, hw, hp⟩

/-- Slashing takes each record on its own. -/
theorem candidate?_slashed (hk : s.UniqueKeys) :
    s.slashed.candidate? a =
      (s.candidate? a).map fun c => s.mark (c.queue s.waitingCandidates) := by
  obtain ⟨p, h, hperm, -⟩ := slashed_eq s
  have hk₀ : (((s.proposedCandidates.toList.map (CandidateInfo.queue s.waitingCandidates)).map
      s.mark).map CandidateInfo.who).Nodup := by simpa [UniqueKeys, Function.comp_def] using hk
  rw [h, candidate?, findKey_perm hk₀ hperm.symm, findKey_map fun _ => who_mark,
    findKey_map fun _ => CandidateInfo.who_queue, Option.map_map, candidate?]
  rfl

/-- A rotation takes each record on its own. -/
theorem candidate?_rotateSession (hk : s.UniqueKeys) :
    s.rotateSession.candidate? a = (s.candidate? a).bind s.rotateCandidate := by
  obtain ⟨p, w, h, -, hp⟩ := rotateSession_eq hk
  -- The last two stages are maps, the removal filters; each goes through the lookup.
  have hslashed : findKey CandidateInfo.who a s.slashed.proposedCandidates.toList = _ :=
    candidate?_slashed hk
  rw [h, candidate?, hp, findKey_map fun _ => CandidateInfo.who_author,
    findKey_map fun _ => CandidateInfo.who_promote,
    findKey_filterMap (uniqueKeys_slashed hk) fun _ _ => CandidateInfo.who_of_demote, hslashed]
  cases s.candidate? a with
  | none => rfl
  | some c => simp [rotateCandidate, Function.comp_def]

theorem uniqueKeys_rotateSession (hk : s.UniqueKeys) : s.rotateSession.UniqueKeys := by
  obtain ⟨p, w, h, -, hp⟩ := rotateSession_eq hk
  rw [UniqueKeys, h, hp]
  simp only [List.map_map, Function.comp_def, CandidateInfo.who_author, CandidateInfo.who_promote]
  exact nodup_who_demote hk

/-- A record the next rotation drops: it is out of the running, or stale, and has
    no step back left in the pipeline. -/
def Drops (s : State T AccountId) (c : CandidateInfo AccountId) : Prop :=
  (c.OutOfRunning ∨ s.Stale s.staleValidators c) ∧
    (c.status = .online ∨ c.status = .offline ∨ c.status = .waiting ∧ c.who ∉ s.waitingCandidates)

instance (s : State T AccountId) (c : CandidateInfo AccountId) : Decidable (s.Drops c) :=
  inferInstanceAs (Decidable (_ ∧ _))

theorem outOfRunning_mark {c : CandidateInfo AccountId} :
    (s.mark c).OutOfRunning ↔ c.OutOfRunning ∨ s.Stale s.staleValidators c := by
  by_cases h : s.Stale s.staleValidators c <;> simp [mark, h, CandidateInfo.OutOfRunning]

theorem status_mark {c : CandidateInfo AccountId} : (s.mark c).status = c.status := by
  rw [mark]; split <;> rfl

theorem rotateCandidate_eq_none {c : CandidateInfo AccountId} :
    s.rotateCandidate c = none ↔ s.Drops c := by
  rw [rotateCandidate, Option.map_eq_none_iff, CandidateInfo.demote_eq_none, outOfRunning_mark,
    status_mark, Drops]
  rw [CandidateInfo.queue]
  split
  · next h => simp [h.1, h.2]
  · next h =>
    refine and_congr_right fun _ => or_congr_right (or_congr_right ?_)
    exact ⟨fun hw => ⟨hw, fun hm => h ⟨hw, hm⟩⟩, And.left⟩

/-- A rotation may only change the status of a record it keeps, and mark it when it
    is stale. -/
theorem rotateCandidate_eq_mark {c c' : CandidateInfo AccountId}
    (h : s.rotateCandidate c = some c') : ∃ status, c' = { s.mark c with status } := by
  obtain ⟨c₁, h₁, rfl⟩ := Option.map_eq_some_iff.1 h
  obtain ⟨_, hq⟩ := CandidateInfo.queue_eq s.waitingCandidates c
  obtain ⟨_, rfl⟩ := CandidateInfo.demote_eq_some h₁
  obtain ⟨_, hp⟩ := CandidateInfo.promote_eq s.selected _
  obtain ⟨status, ha⟩ := CandidateInfo.author_eq s.nextInvulnerables.toList _
  refine ⟨status, ?_⟩
  rw [ha, hp, hq, mark_status]

theorem rotateCandidate_eq_some {c c' : CandidateInfo AccountId}
    (h : s.rotateCandidate c = some c') :
    ∃ status offline lastUpdated, c' = { c with status, offline, lastUpdated } := by
  obtain ⟨_, rfl⟩ := rotateCandidate_eq_mark h
  rw [mark]
  split <;> exact ⟨_, _, _, rfl⟩

/-- A record after a rotation was there before, but for its status, its offline flag and
    the time it was updated. -/
theorem exists_of_candidate?_rotateSession (hk : s.UniqueKeys) {c : CandidateInfo AccountId}
    (hc : s.rotateSession.candidate? a = some c) :
    ∃ c₀ status offline lastUpdated, s.candidate? a = some c₀ ∧
      c = { c₀ with status, offline, lastUpdated } := by
  rw [candidate?_rotateSession hk] at hc
  obtain ⟨c₀, hc₀, hr⟩ := Option.bind_eq_some_iff.1 hc
  obtain ⟨status, offline, lastUpdated, h⟩ := rotateCandidate_eq_some hr
  exact ⟨c₀, status, offline, lastUpdated, hc₀, h⟩

end State

end Xode.Staking
