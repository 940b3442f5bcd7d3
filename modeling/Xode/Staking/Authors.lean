import Xode.Staking.Histories

/-!
# Authors

The list of the authors of a session is bounded, and an author it has no room for would
be passed over in silence. None ever is: the authors of a session are among its
validators, and these were queued from a list with the same bound. So the list is known
exactly by the history of the chain (`recordsAuthors_of_run`): it holds the accounts
reported as authors since the last rotation (`authorsReported`), each once, in the order
of their first blocks.
-/

namespace Xode.Staking

variable {T : Config} {AccountId : Type} [DecidableEq AccountId]
  {s s₀ : State T AccountId} {a : AccountId} {l : List AccountId}

/-- The accounts reported as authors since the last rotation of the run from `s`, block
    by block, where `l` are those reported before. -/
def authorsReported : State T AccountId → List AccountId → List (Step AccountId) → List AccountId
  | _, l, [] => l
  | s, l, .tx tx :: es => authorsReported (s.exec tx) l es
  | s, l, .block index :: es =>
    authorsReported (s.startBlock index) (l ++ (s.findAuthor index).toList) es
  | s, _, .rotate :: es => authorsReported s.rotateSession [] es

namespace State

/-- Where `l` are the accounts reported as authors since the last rotation: the authors
    of the session are these, each once and in the order of their first blocks. They are
    validators, an author yet to be recorded finds room, and slashing passes over all of
    them. -/
structure RecordsAuthors (s : State T AccountId) (l : List AccountId) : Prop where
  authors : s.actualAuthors.toList = l.eraseDups
  nodup : s.actualAuthors.toList.Nodup
  subset : s.actualAuthors.toList ⊆ s.session.validators
  pushes : ∀ index a, s.findAuthor index = some a → a ∉ s.actualAuthors →
    (s.actualAuthors.tryPush a).isSome
  exempt : ∀ a ∈ l, s.slashed.candidate? a = (finalState queueAuthors s).candidate? a

/-- The start of a block appends its author to those reported. -/
theorem AuthorsFit.eraseDups_startBlock (h : s.AuthorsFit)
    (hl : s.actualAuthors.toList = l.eraseDups) (index : Option ℕ) :
    (s.startBlock index).actualAuthors.toList = (l ++ (s.findAuthor index).toList).eraseDups := by
  have hmem (a : AccountId) : a ∈ s.actualAuthors ↔ a ∈ l := by
    rw [← BoundedVec.mem_toList, hl, List.mem_eraseDups]
  rw [h.toList_startBlock, List.eraseDups_append, hl]
  cases s.findAuthor index with
  | none => rfl
  | some author => by_cases ha : author ∈ l <;> simp [hmem, ha, List.removeAll, List.eraseDups_cons]

/-- Slashing passes over the authors of the session. -/
theorem candidate?_slashed_of_mem_authors (hk : s.UniqueKeys) (ha : a ∈ s.actualAuthors) :
    s.slashed.candidate? a = (finalState queueAuthors s).candidate? a := by
  rw [candidate?_slashed hk, finalState_queueAuthors]
  refine Eq.trans ?_ (findKey_map fun _ => CandidateInfo.who_queue).symm
  cases hc : s.candidate? a with
  | none => rw [← candidate?, hc]; rfl
  | some c =>
    rw [← candidate?, hc, Option.map_some, Option.map_some, mark,
      if_neg fun hstale => ((stale_queue_iff hc).1 hstale).2.1 ha]

end State

/-- Along a run, the authors of the session are those reported: by induction on the run,
    as only the start of a block appends to either, and a rotation resets both. -/
theorem toList_actualAuthors_run (hs : (chain T AccountId).Reachable s)
    (hl : s.actualAuthors.toList = l.eraseDups) (es : List (Step AccountId)) :
    ((chain T AccountId).run s es).actualAuthors.toList = (authorsReported s l es).eraseDups := by
  induction es generalizing s l with
  | nil => exact hl
  | cons e es ih =>
    cases e with
    | tx tx =>
      have hs' : (chain T AccountId).Reachable (s.exec tx) := hs.step (Step.tx tx)
      have hn : s.Next (.tx tx) (s.exec tx) := s.next_step (.tx tx)
      rw [System.run_cons, chain_step_tx, authorsReported, ih hs' (hn.actualAuthors ▸ hl)]
    | block index =>
      have hs' : (chain T AccountId).Reachable (s.startBlock index) := hs.step (Step.block index)
      have hl' := (authorsFit_of_reachable hs).eraseDups_startBlock hl index
      rw [System.run_cons, chain_step_block, authorsReported, ih hs' hl']
    | rotate =>
      have hl' : s.rotateSession.actualAuthors.toList = ([] : List AccountId).eraseDups := by
        rw [State.actualAuthors_rotateSession (uniqueKeys_of_reachable hs)]
        rfl
      rw [System.run_cons, chain_step_rotate, authorsReported, ih (reachable_rotateSession hs) hl']

/-- Over every run of the chain, the authors of the session are exactly the accounts
    reported since the last rotation, and none is passed over for want of room. -/
theorem recordsAuthors_of_run (h₀ : s₀ ∈ (chain T AccountId).init) (es : List (Step AccountId)) :
    ((chain T AccountId).run s₀ es).RecordsAuthors (authorsReported s₀ [] es) := by
  have hs : (chain T AccountId).Reachable ((chain T AccountId).run s₀ es) :=
    (System.Reachable.init h₀).run es
  have hfit := authorsFit_of_reachable hs
  have hl : ((chain T AccountId).run s₀ es).actualAuthors.toList =
      (authorsReported s₀ [] es).eraseDups := by
    refine toList_actualAuthors_run (.init h₀) ?_ es
    obtain ⟨g, d, rfl⟩ := genesis_cases h₀
    rfl
  refine ⟨hl, hfit.nodup, hfit.subset, fun index a ha hmem => ?_, fun a ha => ?_⟩
  · exact hfit.tryPush_isSome (State.mem_validators_of_findAuthor ha) hmem
  · refine State.candidate?_slashed_of_mem_authors (uniqueKeys_of_reachable hs) ?_
    rwa [← BoundedVec.mem_toList, hl, List.mem_eraseDups]

/-- Alice authors two blocks of the second session. -/
theorem recordsAuthors_development :
    ((chain Config.runtime Keyring).run developmentState
      [.block (some 0), .rotate, .block (some 0), .block none, .block (some 0)]).RecordsAuthors
        (authorsReported developmentState []
          [.block (some 0), .rotate, .block (some 0), .block none, .block (some 0)]) :=
  recordsAuthors_of_run developmentState_mem _

end Xode.Staking
