import Xode.Staking.Holders

/-!
# Block by block

A chain runs block by block: the author of a block is recorded, the session
rotates if the block ends it, and its transactions are executed (`stateAt_succ`).
The state a session of block `n` ends in is `sessionEnd s₀ b n`.

Over a whole run of blocks, this gives what holds at each block of

* the lists: they move at the rotations only (`sameSlots_of_not_rotates`);
* the clock of an account, the block its record was last authored in: it is set to
  the block its account authors, and stands still otherwise (`clock_eq`);
* the authors of the session: they are those of the blocks since the last rotation
  (`notMem_actualAuthors`).
-/

namespace Xode.Staking

variable {T : Config} {AccountId : Type} [DecidableEq AccountId]
  {s s' s₀ : State T AccountId} {b : ℕ → Block AccountId} {a who : AccountId} {n m e : ℕ}

/-- The state in which the session of block `n` ends, if it does: its author is
    recorded, and nothing of its body is executed. -/
def sessionEnd (s₀ : State T AccountId) (b : ℕ → Block AccountId) : ℕ → State T AccountId
  | 0 => s₀
  | n + 1 => (stateAt s₀ b n).startBlock (b (n + 1)).index

/-- The state in which the body of block `n` is executed. -/
def rotated (s₀ : State T AccountId) (b : ℕ → Block AccountId) (n : ℕ) : State T AccountId :=
  if (b n).rotates then (sessionEnd s₀ b n).rotateSession else sessionEnd s₀ b n

theorem stateAt_succ : stateAt s₀ b (n + 1) =
    (chain T AccountId).run (rotated s₀ b (n + 1)) ((b (n + 1)).body.map .tx) := by
  have hrotated : (chain T AccountId).run (sessionEnd s₀ b (n + 1))
      (if (b (n + 1)).rotates then [.rotate] else []) = rotated s₀ b (n + 1) := by
    rw [rotated]
    split <;> rfl
  rw [stateAt, Block.steps, System.run_append, System.run_cons, ← hrotated]
  rfl

theorem reachable_stateAt (h₀ : s₀ ∈ (chain T AccountId).init) (b : ℕ → Block AccountId) (n : ℕ) :
    (chain T AccountId).Reachable (stateAt s₀ b n) := by
  induction n with
  | zero => exact .init h₀
  | succ n ih => exact ih.run _

theorem reachable_sessionEnd (h₀ : s₀ ∈ (chain T AccountId).init) (b : ℕ → Block AccountId)
    (n : ℕ) : (chain T AccountId).Reachable (sessionEnd s₀ b n) := by
  cases n with
  | zero => exact .init h₀
  | succ n => exact (reachable_stateAt h₀ b n).step (Step.block _)

theorem reachable_rotated (h₀ : s₀ ∈ (chain T AccountId).init) (b : ℕ → Block AccountId)
    (n : ℕ) : (chain T AccountId).Reachable (rotated s₀ b n) := by
  rw [rotated]
  split
  · exact reachable_rotateSession (reachable_sessionEnd h₀ b n)
  · exact reachable_sessionEnd h₀ b n

/-- What transactions keep, the body of a block keeps. -/
theorem body_induction {Q : State T AccountId → Prop} (h₀ : s₀ ∈ (chain T AccountId).init)
    (h : Q (rotated s₀ b (n + 1)))
    (hstep : ∀ s tx s', (chain T AccountId).Reachable s → Q s → s.Next (.tx tx) s' → Q s') :
    Q (stateAt s₀ b (n + 1)) := by
  rw [stateAt_succ]
  refine (System.run_induction (Q := fun s => (chain T AccountId).Reachable s ∧ Q s)
    ⟨reachable_rotated h₀ b _, h⟩ fun s e he ⟨hs, h⟩ => ?_).2
  obtain ⟨tx, -, rfl⟩ := List.mem_map.1 he
  exact ⟨hs.step _, hstep s tx _ hs h (s.next_step (.tx tx))⟩

/-! ### Lists -/

omit [DecidableEq AccountId] in
theorem ne_rotate_of_mem_body {body : List (Tx AccountId)} {e : Step AccountId}
    (h : e ∈ body.map Step.tx) : e ≠ .rotate := by
  obtain ⟨tx, -, rfl⟩ := List.mem_map.1 h
  nofun

/-- The lists of a block are those its session ended with, or rotated to. -/
theorem sameSlots_stateAt_succ (s₀ : State T AccountId) (b : ℕ → Block AccountId) (n : ℕ) :
    (rotated s₀ b (n + 1)).SameSlots (stateAt s₀ b (n + 1)) := by
  rw [stateAt_succ]
  exact State.sameSlots_run fun e => ne_rotate_of_mem_body

/-- The lists a session ends with are those of the block before. -/
theorem sameSlots_sessionEnd_succ (s₀ : State T AccountId) (b : ℕ → Block AccountId) (n : ℕ) :
    (stateAt s₀ b n).SameSlots (sessionEnd s₀ b (n + 1)) :=
  (State.Next.block (s := stateAt s₀ b n) (b (n + 1)).index).sameSlots (by simp)

theorem desired_stateAt (h₀ : s₀ ∈ (chain T AccountId).init) :
    (stateAt s₀ b n).desiredCandidates = s₀.desiredCandidates := by
  induction n with
  | zero => rfl
  | succ n ih =>
    rw [(sameSlots_stateAt_succ s₀ b n).desired, rotated]
    split
    · have hk := uniqueKeys_of_reachable (reachable_sessionEnd h₀ b (n + 1))
      rw [(State.advances_rotateSession hk).desired, (sameSlots_sessionEnd_succ s₀ b n).desired, ih]
    · rw [(sameSlots_sessionEnd_succ s₀ b n).desired, ih]

/-- Between rotations the lists do not move. -/
theorem sameSlots_of_not_rotates (s₀ : State T AccountId) (hm : m ≤ n)
    (h : ∀ k, m < k → k ≤ n → (b k).rotates = false) :
    (stateAt s₀ b m).SameSlots (stateAt s₀ b n) := by
  induction n, hm using Nat.le_induction with
  | base => exact .refl _
  | succ n hmn ih =>
    have hr : rotated s₀ b (n + 1) = sessionEnd s₀ b (n + 1) := by
      rw [rotated, h (n + 1) (by omega) le_rfl]
      rfl
    refine (ih fun k hk hkn => h k hk (by omega)).trans ?_
    exact (sameSlots_sessionEnd_succ s₀ b n).trans (hr ▸ sameSlots_stateAt_succ s₀ b n)

/-- A block that ends a session moves the lists one step on. -/
theorem advances_of_rotates (h₀ : s₀ ∈ (chain T AccountId).init) (h : (b (n + 1)).rotates) :
    (sessionEnd s₀ b (n + 1)).Advances (stateAt s₀ b (n + 1)) := by
  have hr : rotated s₀ b (n + 1) = (sessionEnd s₀ b (n + 1)).rotateSession := if_pos h
  have hk := uniqueKeys_of_reachable (reachable_sessionEnd h₀ b (n + 1))
  exact (State.advances_rotateSession hk).trans (hr ▸ sameSlots_stateAt_succ s₀ b n)

/-! ### Block numbers -/

theorem State.Next.blockNumber {e : Step AccountId} (h : s.Next e s') (hk : s.UniqueKeys)
    (he : ∀ index, e ≠ .block index) : s'.blockNumber = s.blockNumber := by
  cases h with
  | call h => exact h.frame.blockNumber
  | failed | other => rfl
  | block index => exact absurd rfl (he index)
  | rotate =>
    obtain ⟨p, w, h, -⟩ := State.rotateSession_eq hk
    rw [h]

theorem blockNumber_startBlock (index : Option ℕ) :
    (s.startBlock index).blockNumber = s.blockNumber + 1 := by
  obtain ⟨p, actualAuthors, h⟩ := s.startBlock_eq index
  rw [h]

theorem blockNumber_stateAt (h₀ : s₀ ∈ (chain T AccountId).init) :
    (stateAt s₀ b n).blockNumber = n := by
  induction n with
  | zero =>
    obtain ⟨g, d, rfl⟩ := genesis_cases h₀
    rfl
  | succ n ih =>
    have hrot : (rotated s₀ b (n + 1)).blockNumber = n + 1 := by
      have hse : (sessionEnd s₀ b (n + 1)).blockNumber = n + 1 := by
        rw [sessionEnd, blockNumber_startBlock, ih]
      have hk := uniqueKeys_of_reachable (reachable_sessionEnd h₀ b (n + 1))
      rw [rotated]
      split
      · exact (State.Next.rotate.blockNumber hk nofun).trans hse
      · exact hse
    exact body_induction (Q := fun s => s.blockNumber = n + 1) h₀ hrot fun s tx s' hs h hn =>
      (hn.blockNumber (uniqueKeys_of_reachable hs) fun _ => nofun).trans h

theorem blockNumber_sessionEnd (h₀ : s₀ ∈ (chain T AccountId).init) :
    (sessionEnd s₀ b n).blockNumber = n := by
  cases n with
  | zero => exact blockNumber_stateAt (b := b) (n := 0) h₀
  | succ n => rw [sessionEnd, blockNumber_startBlock, blockNumber_stateAt h₀]

theorem blockNumber_rotated (h₀ : s₀ ∈ (chain T AccountId).init) :
    (rotated s₀ b n).blockNumber = n := by
  have hk := uniqueKeys_of_reachable (reachable_sessionEnd h₀ b n)
  rw [rotated]
  split
  · exact (State.Next.rotate.blockNumber hk nofun).trans (blockNumber_sessionEnd h₀)
  · exact blockNumber_sessionEnd h₀

/-! ### Clocks -/

/-- The clock of an account: the block its record was last authored in. -/
def State.clock (s : State T AccountId) (a : AccountId) : ℕ :=
  (s.candidate? a).elim 0 CandidateInfo.lastAuthored

theorem State.clock_eq {c : CandidateInfo AccountId} (h : s.candidate? a = some c) :
    s.clock a = c.lastAuthored := by rw [clock, h]; rfl

/-- A call does not touch the clock of an account that has one. -/
theorem Effect.clock {call : Call AccountId} (h : Effect s who call s') (hk : s.UniqueKeys)
    (ha : (s.candidate? a).isSome) : s'.clock a = s.clock a := by
  obtain ⟨c, hc⟩ := Option.isSome_iff_exists.1 ha
  rw [State.clock, h.candidate? hk, hc, State.clock_eq hc]
  by_cases ht : a = call.target who
  · rw [if_pos ht]
    cases h with
    | registerCandidate hnew =>
      have hw : a = who := ht
      rw [hw, hnew] at hc
      cases hc
    | _ => rfl
  · rw [if_neg ht]
    rfl

/-- No clock is ahead of the block number. -/
theorem clock_le_blockNumber (hs : (chain T AccountId).Reachable s) (a : AccountId) :
    s.clock a ≤ s.blockNumber := by
  refine reachable_induction hs (fun g d => Nat.zero_le _) fun s e s' hk hn ih => ?_
  cases hn with
  | call he =>
    rename_i who call
    rw [he.frame.blockNumber]
    cases hc : s.candidate? a with
    | some c => rwa [he.clock hk (by rw [hc]; rfl)]
    | none =>
      -- Only a registration starts a clock, at the current block.
      rw [State.clock, he.candidate? hk, hc]
      split
      · cases call with
        | registerCandidate => exact he.frame.blockNumber.le
        | _ => exact Nat.zero_le _
      · exact Nat.zero_le _
  | failed | other => exact ih
  | block index =>
    rw [blockNumber_startBlock, State.clock, State.candidate?_startBlock]
    rw [State.clock] at ih
    split
    · cases s.candidate? a with
      | none => exact Nat.zero_le _
      | some c => exact le_rfl
    · omega
  | rotate =>
    rw [State.Next.rotate.blockNumber hk (by simp), State.clock]
    cases hc : s.rotateSession.candidate? a with
    | none => exact Nat.zero_le _
    | some c =>
      obtain ⟨c₀, _, _, _, hc₀, rfl⟩ := State.exists_of_candidate?_rotateSession hk hc
      rw [State.clock, hc₀] at ih
      exact ih

/-- An account in the validator set or among the current validators, and not
    desired. -/
def State.Seated (s : State T AccountId) (a : AccountId) : Prop :=
  (a ∈ s.invulnerables ∨ a ∈ s.session.validators) ∧ a ∉ s.desiredCandidates

theorem holds_of_seated (hs : (chain T AccountId).Reachable s) (h : s.Seated a) :
    s.Holds a [.queuing, .authoring] := by
  have hp := pipeline_of_reachable hs
  rcases h with ⟨hi | hv, hd⟩
  · exact (hp.invulnerables a hi hd).mono fun x hx => List.mem_cons_of_mem _ hx
  · exact hp.validators a hv hd

/-- At the start of a block, the clock of its author is set, and no other. -/
theorem clock_sessionEnd_succ (h₀ : s₀ ∈ (chain T AccountId).init)
    (h : (stateAt s₀ b n).Seated a) :
    (sessionEnd s₀ b (n + 1)).clock a =
      if authorAt s₀ b (n + 1) = some a then n + 1 else (stateAt s₀ b n).clock a := by
  obtain ⟨c, hc, -⟩ := holds_of_seated (reachable_stateAt h₀ b n) h
  rw [sessionEnd, State.clock, State.candidate?_startBlock, State.clock, hc, authorAt,
    blockNumber_stateAt h₀]
  split <;> rfl

/-- The rest of a block keeps the record of a seated account, and its clock. -/
theorem clock_stateAt_succ (h₀ : s₀ ∈ (chain T AccountId).init)
    (h : (stateAt s₀ b n).Seated a) :
    (stateAt s₀ b (n + 1)).clock a = (sessionEnd s₀ b (n + 1)).clock a := by
  have hs := reachable_sessionEnd h₀ b (n + 1)
  have hsame := sameSlots_sessionEnd_succ s₀ b n
  have hseat : (sessionEnd s₀ b (n + 1)).Seated a := by
    rwa [State.Seated, hsame.invulnerables, hsame.desired, hsame.validators]
  obtain ⟨c, hc, -, hst⟩ := holds_of_seated hs hseat
  -- Its record survives the rotation, and then all calls.
  have hrot : ((rotated s₀ b (n + 1)).candidate? a).isSome ∧
      (rotated s₀ b (n + 1)).clock a = (sessionEnd s₀ b (n + 1)).clock a := by
    rw [rotated]
    split
    · have hst' : c.status = .queuing ∨ c.status = .authoring := by simpa using hst
      obtain ⟨c', hc', -⟩ := State.rotateCandidate_of_status (s := sessionEnd s₀ b (n + 1)) (c := c)
        (hst'.imp id .inl)
      have hrec : (sessionEnd s₀ b (n + 1)).rotateSession.candidate? a = some c' := by
        rw [State.candidate?_rotateSession (uniqueKeys_of_reachable hs), hc]
        exact hc'
      refine ⟨by rw [hrec]; rfl, ?_⟩
      rw [State.clock_eq hrec, State.clock_eq hc]
      obtain ⟨_, _, _, rfl⟩ := State.rotateCandidate_eq_some hc'
      rfl
    · exact ⟨by rw [hc]; rfl, rfl⟩
  refine (body_induction (Q := fun s => (s.candidate? a).isSome ∧
    s.clock a = (sessionEnd s₀ b (n + 1)).clock a) h₀ hrot fun s tx s' hs h hn => ?_).2
  have hk := uniqueKeys_of_reachable hs
  cases hn with
  | call he => exact ⟨he.candidate?_isSome hk h.1, (he.clock hk h.1).trans h.2⟩
  | failed | other => exact h

/-- While a seated account authors nothing, its clock stands still. -/
theorem clock_eq (h₀ : s₀ ∈ (chain T AccountId).init) (hm : m ≤ n)
    (hs : ∀ k, m ≤ k → k < n → (stateAt s₀ b k).Seated a)
    (ha : ∀ k, m < k → k ≤ n → authorAt s₀ b k ≠ some a) :
    (stateAt s₀ b n).clock a = (stateAt s₀ b m).clock a := by
  induction n, hm using Nat.le_induction with
  | base => rfl
  | succ n hmn ih =>
    have hseat := hs n hmn (by omega)
    rw [clock_stateAt_succ h₀ hseat, clock_sessionEnd_succ h₀ hseat,
      if_neg (ha (n + 1) (by omega) le_rfl)]
    exact ih (fun k hk hkn => hs k hk (by omega)) fun k hk hkn => ha k hk (by omega)

/-- While an account is seated, its clock does not fall behind a block it authored. -/
theorem le_clock (h₀ : s₀ ∈ (chain T AccountId).init) (hm : m + 1 ≤ n)
    (hs : ∀ k, m ≤ k → k < n → (stateAt s₀ b k).Seated a)
    (ha : authorAt s₀ b (m + 1) = some a) : m + 1 ≤ (stateAt s₀ b n).clock a := by
  induction n, hm using Nat.le_induction with
  | base =>
    have hseat := hs m le_rfl (by omega)
    rw [clock_stateAt_succ h₀ hseat, clock_sessionEnd_succ h₀ hseat, if_pos ha]
  | succ n hmn ih =>
    have hseat := hs n (by omega) (by omega)
    rw [clock_stateAt_succ h₀ hseat, clock_sessionEnd_succ h₀ hseat]
    have := ih fun k hk hkn => hs k hk (by omega)
    split <;> omega

/-! ### Authors of the session -/

theorem mem_actualAuthors_startBlock {index : Option ℕ}
    (h : a ∈ (s.startBlock index).actualAuthors) :
    a ∈ s.actualAuthors ∨ s.findAuthor index = some a := by
  have hf : State.findAuthor { s with blockNumber := s.blockNumber + 1, events := [] } index =
      s.findAuthor index := rfl
  rw [State.startBlock] at h
  cases ha : s.findAuthor index with
  | none =>
    rw [hf, ha] at h
    exact .inl h
  | some author =>
    rw [hf, ha, State.onInitialize, State.addActualAuthor] at h
    split at h
    · exact .inl h
    · split at h
      · next hp =>
        rw [← BoundedVec.mem_toList, BoundedVec.tryPush_eq_some.1 hp, List.mem_append,
          List.mem_singleton] at h
        exact h.imp id fun h => by rw [h]
      · exact .inl h

/-- The authors a session has at the end of a block are those it had before, and the
    author of the block. -/
theorem mem_actualAuthors_sessionEnd_succ (h : a ∈ (sessionEnd s₀ b (n + 1)).actualAuthors) :
    a ∈ (stateAt s₀ b n).actualAuthors ∨ authorAt s₀ b (n + 1) = some a :=
  mem_actualAuthors_startBlock h

/-- Transactions keep the authors of the session. -/
theorem State.Next.actualAuthors {tx : Tx AccountId} (hn : s.Next (.tx tx) s') :
    s'.actualAuthors = s.actualAuthors := by
  cases hn with
  | call he => exact he.frame.actualAuthors
  | failed | other => rfl

/-- A rotation resets them. -/
theorem State.actualAuthors_rotateSession (hk : s.UniqueKeys) :
    s.rotateSession.actualAuthors = .empty := by
  obtain ⟨p, w, hr, -⟩ := State.rotateSession_eq hk
  rw [hr]

theorem actualAuthors_stateAt_succ (h₀ : s₀ ∈ (chain T AccountId).init) :
    (stateAt s₀ b (n + 1)).actualAuthors = (rotated s₀ b (n + 1)).actualAuthors :=
  body_induction (Q := fun s => s.actualAuthors = (rotated s₀ b (n + 1)).actualAuthors)
    h₀ rfl fun _ _ _ _ h hn => hn.actualAuthors.trans h

/-- Every rotation resets the authors of the session. -/
theorem actualAuthors_of_rotates (h₀ : s₀ ∈ (chain T AccountId).init) (h : (b (n + 1)).rotates) :
    (stateAt s₀ b (n + 1)).actualAuthors = .empty := by
  rw [actualAuthors_stateAt_succ h₀, rotated, if_pos h]
  exact State.actualAuthors_rotateSession
    (uniqueKeys_of_reachable (reachable_sessionEnd h₀ b (n + 1)))

/-- Any other block keeps those it started with. -/
theorem actualAuthors_of_not_rotates (h₀ : s₀ ∈ (chain T AccountId).init)
    (h : ¬(b (n + 1)).rotates) :
    (stateAt s₀ b (n + 1)).actualAuthors = (sessionEnd s₀ b (n + 1)).actualAuthors := by
  rw [actualAuthors_stateAt_succ h₀, rotated, if_neg h]

/-- An account that has authored nothing since a rotation is not among the authors
    of the session. -/
theorem notMem_actualAuthors (h₀ : s₀ ∈ (chain T AccountId).init) (hr : (b (m + 1)).rotates)
    (hm : m + 1 ≤ n) (ha : ∀ k, m + 1 < k → k ≤ n → authorAt s₀ b k ≠ some a) :
    a ∉ (stateAt s₀ b n).actualAuthors := by
  induction n, hm using Nat.le_induction with
  | base =>
    rw [actualAuthors_of_rotates h₀ hr]
    exact List.not_mem_nil
  | succ n hmn ih =>
    have hn := ih fun k hk hkn => ha k hk (by omega)
    by_cases hrn : (b (n + 1)).rotates
    · rw [actualAuthors_of_rotates h₀ hrn]
      exact List.not_mem_nil
    · rw [actualAuthors_of_not_rotates h₀ hrn]
      intro h
      exact (mem_actualAuthors_sessionEnd_succ h).elim hn (ha (n + 1) (by omega) le_rfl)

theorem notMem_actualAuthors_sessionEnd (h₀ : s₀ ∈ (chain T AccountId).init)
    (hr : (b (m + 1)).rotates) (hm : m + 1 ≤ n)
    (ha : ∀ k, m + 1 < k → k ≤ n + 1 → authorAt s₀ b k ≠ some a) :
    a ∉ (sessionEnd s₀ b (n + 1)).actualAuthors := fun h =>
  (mem_actualAuthors_sessionEnd_succ h).elim
    (notMem_actualAuthors h₀ hr hm fun k hk hkn => ha k hk (by omega))
    (ha (n + 1) (by omega) le_rfl)

end Xode.Staking
