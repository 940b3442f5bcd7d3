import Mathlib.Data.List.Perm.Basic
import Mathlib.Data.Nat.Find
import Xode.Staking.Staleness

/-!
# Histories

What slashing decides, it decides on the storage: the validators, the authors of the
session, and the clock of each record. Told by the history of the chain instead, block
by block:

* the authors of the session are those of the blocks since the last rotation, as the
  list of them never overflows (`mem_actualAuthors_iff`);
* the clock of a record is the block its account last registered in, or the last one it
  authored, whichever is later (`lastAuthored_stateAt`).

So a session ends with exactly those accounts marked offline that validated without
being desired, authored no block of the session, and neither registered nor authored a
block within the staling period (`slashes_exactly`).
-/

namespace Xode.Staking

variable {T : Config} {AccountId : Type} [DecidableEq AccountId]
  {s s' s₀ : State T AccountId} {b : ℕ → Block AccountId} {a : AccountId} {m n : ℕ}

/-! ### The history of an account -/

/-- The account registers in block `n`. -/
def RegistersIn (s₀ : State T AccountId) (b : ℕ → Block AccountId) (a : AccountId) : ℕ → Prop
  | 0 => False
  | n + 1 => (chain T AccountId).Sometime (fun s e => s.registers a e) (stateAt s₀ b n)
      (b (n + 1)).steps

instance : DecidablePred (RegistersIn s₀ b a)
  | 0 => inferInstanceAs (Decidable False)
  | _ + 1 => inferInstanceAs (Decidable (System.Sometime _ _ _ _))

/-- The last block up to `n` the account registered in, `0` if there is none. -/
def lastRegistered (s₀ : State T AccountId) (b : ℕ → Block AccountId) (a : AccountId) (n : ℕ) : ℕ :=
  Nat.findGreatest (RegistersIn s₀ b a) n

/-- The last block up to `n` the account authored, `0` if there is none. -/
def lastAuthored (s₀ : State T AccountId) (b : ℕ → Block AccountId) (a : AccountId) (n : ℕ) : ℕ :=
  Nat.findGreatest (fun m => authorAt s₀ b m = some a) n

/-- The account authored a block of the session that block `n` belongs to: up to `n`,
    and with no rotation in it or after it, before block `n`. -/
def AuthoredInSession (s₀ : State T AccountId) (b : ℕ → Block AccountId) (a : AccountId)
    (n : ℕ) : Prop :=
  ∃ m ≤ n, (∀ k, m ≤ k → k < n → (b k).rotates = false) ∧ authorAt s₀ b m = some a

instance : Decidable (AuthoredInSession s₀ b a n) :=
  inferInstanceAs (Decidable (∃ m ≤ n, _ ∧ _))

/-- The account is stale at the end of the session of block `n`: a validator that is not
    desired, and has authored no block of the session; and since it registered, or last
    authored a block after that, more than the staling period has passed. -/
def FallsStale (s₀ : State T AccountId) (b : ℕ → Block AccountId) (n : ℕ) (a : AccountId) : Prop :=
  a ∈ (sessionEnd s₀ b n).session.validators ∧ a ∉ (sessionEnd s₀ b n).desiredCandidates ∧
    ¬AuthoredInSession s₀ b a n ∧
    T.maxStalingPeriod < n - max (lastRegistered s₀ b a (n - 1)) (lastAuthored s₀ b a n)

instance : Decidable (FallsStale s₀ b n a) := inferInstanceAs (Decidable (_ ∧ _ ∧ _ ∧ _))

theorem lastRegistered_succ : lastRegistered s₀ b a (n + 1) =
    if RegistersIn s₀ b a (n + 1) then n + 1 else lastRegistered s₀ b a n :=
  Nat.findGreatest_succ _

theorem lastAuthored_succ : lastAuthored s₀ b a (n + 1) =
    if authorAt s₀ b (n + 1) = some a then n + 1 else lastAuthored s₀ b a n :=
  Nat.findGreatest_succ _

/-! ### The authors of the session -/

namespace State

/-- The authors of the session are validators, and none of them is there twice; so they
    fit where the validators fit, and those queued to follow them. -/
structure AuthorsFit (s : State T AccountId) : Prop where
  nodup : s.actualAuthors.toList.Nodup
  subset : s.actualAuthors.toList ⊆ s.session.validators
  length_validators : s.session.validators.length ≤ T.maxCandidates
  length_queued : s.session.queued.length ≤ T.maxCandidates

omit [DecidableEq AccountId] in
/-- A validator that is not among the authors of the session finds room there. -/
theorem AuthorsFit.tryPush_isSome (h : s.AuthorsFit) (ha : a ∈ s.session.validators)
    (hmem : a ∉ s.actualAuthors) : (s.actualAuthors.tryPush a).isSome := by
  have hnodup : (s.actualAuthors.toList ++ [a]).Nodup :=
    List.nodup_append.2 ⟨h.nodup, List.nodup_singleton a, fun x hx y hy hxy =>
      hmem (List.mem_singleton.1 hy ▸ hxy ▸ hx)⟩
  have hsub : s.actualAuthors.toList ++ [a] ⊆ s.session.validators :=
    List.append_subset.2 ⟨h.subset, by simpa using ha⟩
  have hlen := (List.subperm_of_subset hnodup hsub).length_le.trans h.length_validators
  rw [List.length_append, List.length_singleton] at hlen
  rw [Option.isSome_iff_ne_none, Ne, BoundedVec.tryPush_eq_none]
  omega

theorem AuthorsFit.addActualAuthor (h : s.AuthorsFit) (ha : a ∈ s.session.validators) :
    (s.addActualAuthor a).actualAuthors.toList =
      if a ∈ s.actualAuthors then s.actualAuthors.toList else s.actualAuthors.toList ++ [a] := by
  by_cases hmem : a ∈ s.actualAuthors
  · rw [Staking.State.addActualAuthor, if_pos hmem, if_pos hmem]
  · obtain ⟨authors, hpush⟩ := Option.isSome_iff_exists.1 (h.tryPush_isSome ha hmem)
    rw [Staking.State.addActualAuthor, if_neg hmem, if_neg hmem, hpush]
    exact BoundedVec.tryPush_eq_some.1 hpush

omit [DecidableEq AccountId] in
theorem mem_validators_of_findAuthor {index : Option ℕ} (h : s.findAuthor index = some a) :
    a ∈ s.session.validators := by
  obtain ⟨i, -, hi⟩ := Option.bind_eq_some_iff.1 h
  exact List.mem_of_getElem? hi

/-- The start of a block appends its author to the authors of the session, unless it is
    there already. -/
theorem AuthorsFit.toList_startBlock (h : s.AuthorsFit) (index : Option ℕ) :
    (s.startBlock index).actualAuthors.toList =
      s.actualAuthors.toList ++ (s.findAuthor index).toList.filter (· ∉ s.actualAuthors) := by
  have hf : State.findAuthor { s with blockNumber := s.blockNumber + 1, events := [] } index =
      s.findAuthor index := rfl
  rw [Staking.State.startBlock]
  simp only [hf]
  cases ha : s.findAuthor index with
  | none => exact (List.append_nil _).symm
  | some author =>
    have hfit : (State.recordAuthoredBlock
        { s with blockNumber := s.blockNumber + 1, events := [] } author).AuthorsFit :=
      ⟨h.nodup, h.subset, h.length_validators, h.length_queued⟩
    refine (hfit.addActualAuthor (mem_validators_of_findAuthor ha)).trans ?_
    by_cases hmem : author ∈ s.actualAuthors
    · rw [Option.toList_some, List.filter_cons_of_neg (by simpa using hmem), List.filter_nil,
        List.append_nil]
      exact if_pos hmem
    · rw [Option.toList_some, List.filter_cons_of_pos (by simpa using hmem), List.filter_nil]
      exact if_neg hmem

theorem AuthorsFit.mem_startBlock (h : s.AuthorsFit) (index : Option ℕ) :
    a ∈ (s.startBlock index).actualAuthors ↔
      a ∈ s.actualAuthors ∨ s.findAuthor index = some a := by
  rw [← BoundedVec.mem_toList, h.toList_startBlock, List.mem_append, List.mem_filter,
    Option.mem_toList]
  by_cases hmem : a ∈ s.actualAuthors <;> simp [hmem]

theorem AuthorsFit.startBlock (h : s.AuthorsFit) (index : Option ℕ) :
    (s.startBlock index).AuthorsFit := by
  have hsame := (Next.block (s := s) index).sameSlots (by simp)
  refine ⟨?_, fun a ha => ?_, by rw [hsame.validators]; exact h.length_validators,
    by rw [hsame.queued]; exact h.length_queued⟩
  · rw [h.toList_startBlock]
    refine List.nodup_append.2 ⟨h.nodup, ?_, fun x hx y hy hxy => ?_⟩
    · cases s.findAuthor index with
      | none => exact List.nodup_nil
      | some author => exact (List.nodup_singleton author).filter _
    · have := List.of_mem_filter hy
      simp only [decide_eq_true_eq] at this
      exact this (hxy ▸ hx)
  · rw [hsame.validators]
    rcases (h.mem_startBlock index).1 ha with ha | ha
    · exact h.subset ha
    · exact mem_validators_of_findAuthor ha

end State

theorem authorsFit_of_reachable (hs : (chain T AccountId).Reachable s) : s.AuthorsFit := by
  refine reachable_induction hs (fun g d => ?_) fun s e s' hk hn h => ?_
  · exact ⟨List.nodup_nil, List.nil_subset _, d.length_le,
      (List.length_filter_le _ _).trans d.length_le⟩
  · cases hn with
    | call he =>
      have hf := he.frame
      exact ⟨hf.actualAuthors ▸ h.nodup, by rw [hf.actualAuthors, hf.session]; exact h.subset,
        hf.session ▸ h.length_validators, hf.session ▸ h.length_queued⟩
    | failed => exact h
    | other => exact ⟨h.nodup, h.subset, h.length_validators, h.length_queued⟩
    | block index => exact h.startBlock index
    | rotate =>
      obtain ⟨p, w, hr, -⟩ := State.rotateSession_eq hk
      rw [hr]
      exact ⟨List.nodup_nil, List.nil_subset _, h.length_queued,
        (List.length_filter_le _ _).trans s.nextInvulnerables.length_le⟩

theorem authoredInSession_succ : AuthoredInSession s₀ b a (n + 1) ↔
    (b n).rotates = false ∧ AuthoredInSession s₀ b a n ∨ authorAt s₀ b (n + 1) = some a := by
  constructor
  · rintro ⟨m, hm, hr, ha⟩
    rcases Nat.lt_succ_iff_lt_or_eq.1 (Nat.lt_succ_of_le hm) with hmn | rfl
    · exact .inl ⟨hr n (by omega) (by omega), m, by omega, fun k hk hkn => hr k hk (by omega), ha⟩
    · exact .inr ha
  · rintro (⟨hrn, m, hm, hr, ha⟩ | ha)
    · refine ⟨m, by omega, fun k hk hkn => ?_, ha⟩
      rcases Nat.lt_succ_iff_lt_or_eq.1 hkn with hkn | rfl
      exacts [hr k hk hkn, hrn]
    · exact ⟨n + 1, le_rfl, fun k hk hkn => absurd hkn (by omega), ha⟩

/-- The authors of the session are those of its blocks. -/
theorem mem_actualAuthors_iff (h₀ : s₀ ∈ (chain T AccountId).init) :
    a ∈ (sessionEnd s₀ b n).actualAuthors ↔ AuthoredInSession s₀ b a n := by
  induction n with
  | zero =>
    obtain ⟨g, d, rfl⟩ := genesis_cases h₀
    refine iff_of_false List.not_mem_nil ?_
    rintro ⟨m, hm, -, ha⟩
    obtain rfl := Nat.le_zero.1 hm
    cases ha
  | succ n ih =>
    -- Between two blocks, the authors are kept, or reset by a rotation.
    have hn : a ∈ (stateAt s₀ b n).actualAuthors ↔
        (b n).rotates = false ∧ AuthoredInSession s₀ b a n := by
      cases n with
      | zero =>
        rw [← ih]
        obtain ⟨g, d, rfl⟩ := genesis_cases h₀
        exact iff_of_false List.not_mem_nil fun h => List.not_mem_nil h.2
      | succ n =>
        by_cases hr : (b (n + 1)).rotates
        · rw [actualAuthors_of_rotates h₀ hr]
          exact iff_of_false List.not_mem_nil fun h => by simp [hr] at h
        · rw [actualAuthors_of_not_rotates h₀ hr, ih]
          exact (and_iff_right (by simpa using hr)).symm
    rw [sessionEnd, (authorsFit_of_reachable (reachable_stateAt h₀ b n)).mem_startBlock, hn,
      authoredInSession_succ, authorAt]

/-! ### Clocks -/

/-- The clocks of the records stand at `v`. -/
def State.ClocksAt (s : State T AccountId) (v : AccountId → ℕ) : Prop :=
  ∀ a c, s.candidate? a = some c → c.lastAuthored = v a

/-- A transaction touches no clock, but a registration starts one at the current block. -/
theorem State.Next.clocksAt {tx : Tx AccountId} {v : AccountId → ℕ} (hn : s.Next (.tx tx) s')
    (hk : s.UniqueKeys) (h : s.ClocksAt v) :
    s'.ClocksAt fun a => if s.registers a (.tx tx) then s.blockNumber else v a := by
  intro a c hc
  by_cases hreg : s.registers a (.tx tx)
  · refine Eq.trans ?_ (if_pos hreg).symm
    obtain ⟨htx, s'', he⟩ := registers_iff.1 hreg
    cases htx
    cases hn with
    | call he =>
      rw [he.candidate? hk] at hc
      have hc : some (CandidateInfo.fresh a s'.blockNumber) = some c := (if_pos rfl).symm.trans hc
      cases hc
      exact he.frame.blockNumber
    | failed hfail => exact absurd he (hfail a s'' rfl)
    | other hcall => exact absurd rfl (hcall _ _)
  · refine Eq.trans ?_ (if_neg hreg).symm
    cases hn with
    | call he =>
      rename_i who call
      cases hs : s.candidate? a with
      | some c₀ =>
        have := he.clock hk (a := a) (by rw [hs]; rfl)
        rw [clock_eq hc, clock_eq hs] at this
        rw [this, h a c₀ hs]
      | none =>
        -- Only its registration makes the record of an account.
        rw [he.candidate? hk, hs] at hc
        split at hc
        · next ht =>
          cases call with
          | registerCandidate =>
            have hw : a = who := ht
            subst hw
            exact absurd (registers_iff.2 ⟨rfl, _, he⟩) hreg
          | _ => cases hc
        · cases hc
    | failed | other => exact h a c hc

/-- After the body of a block, the clocks of those that registered in it stand at its
    number, and the others where they stood. -/
theorem clocksAt_body (txs : List (Tx AccountId)) {v : AccountId → ℕ}
    (hs : (chain T AccountId).Reachable s) (h : s.ClocksAt v) :
    ((chain T AccountId).run s (txs.map .tx)).ClocksAt fun a =>
      if (chain T AccountId).Sometime (fun s e => s.registers a e) s (txs.map .tx) then
        s.blockNumber
      else v a := by
  induction txs generalizing s v with
  | nil => exact h
  | cons tx txs ih =>
    have hk := uniqueKeys_of_reachable hs
    have hn := s.next_step (.tx tx)
    have hstep := ih (hs.step (Step.tx tx)) (hn.clocksAt hk h)
    have hnow : ((chain T AccountId).step s (.tx tx)).blockNumber = s.blockNumber :=
      hn.blockNumber hk fun _ => nofun
    intro a c hc
    refine (hstep a c hc).trans ?_
    rw [hnow]
    by_cases hreg : s.registers a (.tx tx) <;> simp [hreg]

theorem registersIn_succ : RegistersIn s₀ b a (n + 1) ↔
    (chain T AccountId).Sometime (fun s e => s.registers a e) (rotated s₀ b (n + 1))
      ((b (n + 1)).body.map .tx) := by
  have hblock (s : State T AccountId) (index : Option ℕ) : s.registers a (.block index) = false :=
    rfl
  have hrotate (s : State T AccountId) : s.registers a .rotate = false := rfl
  have hstart : (chain T AccountId).step (stateAt s₀ b n) (.block (b (n + 1)).index) =
      sessionEnd s₀ b (n + 1) := rfl
  have hrotated : (chain T AccountId).step (sessionEnd s₀ b (n + 1)) .rotate =
      (sessionEnd s₀ b (n + 1)).rotateSession := rfl
  rw [RegistersIn, Block.steps, List.cons_append, System.sometime_cons, hblock, hstart, rotated]
  by_cases hr : (b (n + 1)).rotates
  · rw [if_pos hr, if_pos hr, List.singleton_append, System.sometime_cons, hrotate, hrotated]
    simp
  · rw [if_neg hr, if_neg hr, List.nil_append]
    simp

/-- The clock of an account at the end of the session of a block is the block it last
    registered in before, or the last one it authored, whichever is later. -/
theorem clocksAt_sessionEnd_succ (h₀ : s₀ ∈ (chain T AccountId).init)
    (h : (stateAt s₀ b n).ClocksAt fun a =>
      max (lastRegistered s₀ b a n) (lastAuthored s₀ b a n)) :
    (sessionEnd s₀ b (n + 1)).ClocksAt fun a =>
      max (lastRegistered s₀ b a n) (lastAuthored s₀ b a (n + 1)) := by
  intro a c hc
  have hle : lastRegistered s₀ b a n ≤ n := Nat.findGreatest_le n
  rw [sessionEnd, State.candidate?_startBlock, blockNumber_stateAt h₀] at hc
  split at hc
  · next ha =>
    obtain ⟨c₀, -, rfl⟩ := Option.map_eq_some_iff.1 hc
    have hau : lastAuthored s₀ b a (n + 1) = n + 1 := lastAuthored_succ.trans (if_pos ha)
    have hmax : max (lastRegistered s₀ b a n) (n + 1) = n + 1 := max_eq_right (by omega)
    exact (congrArg _ hau).trans hmax |>.symm
  · next ha =>
    have hau : lastAuthored s₀ b a (n + 1) = lastAuthored s₀ b a n :=
      lastAuthored_succ.trans (if_neg ha)
    exact (h a c hc).trans (congrArg _ hau.symm)

theorem clocksAt_stateAt (h₀ : s₀ ∈ (chain T AccountId).init) (n : ℕ) :
    (stateAt s₀ b n).ClocksAt fun a => max (lastRegistered s₀ b a n) (lastAuthored s₀ b a n) := by
  induction n with
  | zero =>
    obtain ⟨g, d, rfl⟩ := genesis_cases h₀
    exact fun a c hc => by cases hc
  | succ n ih =>
    have hend := clocksAt_sessionEnd_succ h₀ ih
    have hk := uniqueKeys_of_reachable (reachable_sessionEnd h₀ b (n + 1))
    have hrot : (rotated s₀ b (n + 1)).ClocksAt fun a =>
        max (lastRegistered s₀ b a n) (lastAuthored s₀ b a (n + 1)) := by
      rw [rotated]
      split
      · intro a c hc
        obtain ⟨c₀, _, _, _, hc₀, rfl⟩ := State.exists_of_candidate?_rotateSession hk hc
        exact hend a c₀ hc₀
      · exact hend
    have hbody := clocksAt_body (b (n + 1)).body (reachable_rotated h₀ b _) hrot
    intro a c hc
    rw [stateAt_succ] at hc
    simp only [hbody a c hc, blockNumber_rotated h₀, lastRegistered_succ]
    have hle : lastAuthored s₀ b a (n + 1) ≤ n + 1 := Nat.findGreatest_le _
    by_cases hreg : RegistersIn s₀ b a (n + 1)
    · rw [if_pos hreg, if_pos (registersIn_succ.1 hreg)]
      exact (max_eq_left hle).symm
    · rw [if_neg hreg, if_neg (mt registersIn_succ.2 hreg)]

/-! ### Slashing -/

/-- What slashing finds on the storage is what the history of the chain tells. -/
theorem foundStale_iff (h₀ : s₀ ∈ (chain T AccountId).init) :
    (sessionEnd s₀ b n).FoundStale a ↔ FallsStale s₀ b n a := by
  rw [State.FoundStale, FallsStale, mem_actualAuthors_iff h₀, blockNumber_sessionEnd h₀]
  cases n with
  | zero => simp
  | succ n =>
    -- A validator that is not desired has a record.
    have hclock (hv : a ∈ (sessionEnd s₀ b (n + 1)).session.validators)
        (hd : a ∉ (sessionEnd s₀ b (n + 1)).desiredCandidates) :
        (sessionEnd s₀ b (n + 1)).clock a =
          max (lastRegistered s₀ b a n) (lastAuthored s₀ b a (n + 1)) := by
      obtain ⟨c, hc, -⟩ := holds_of_seated (reachable_sessionEnd h₀ b (n + 1)) ⟨.inr hv, hd⟩
      rw [State.clock_eq hc]
      exact clocksAt_sessionEnd_succ h₀ (clocksAt_stateAt h₀ n) a c hc
    rw [Nat.add_sub_cancel]
    constructor
    · rintro ⟨hv, hidle, hd, hst⟩
      exact ⟨hv, hd, hidle, hclock hv hd ▸ hst⟩
    · rintro ⟨hv, hd, hidle, hst⟩
      exact ⟨hv, hidle, hd, (hclock hv hd).symm ▸ hst⟩

/-- At the end of the session of block `n`, slashing marks exactly the accounts that
    fall stale offline, all of which have a record, and leaves all others as they are;
    and none of those marked is on the waiting list the session ends with. -/
structure SlashesExactly (s₀ : State T AccountId) (b : ℕ → Block AccountId) (n : ℕ) : Prop where
  candidate? : ∀ a, (finalState queueAuthors (sessionEnd s₀ b n)).slashStaleAuthors.candidate? a =
    ((finalState queueAuthors (sessionEnd s₀ b n)).candidate? a).map fun c =>
      if FallsStale s₀ b n a then { c with offline := true, lastUpdated := n } else c
  registered : ∀ a, FallsStale s₀ b n a →
    ((finalState queueAuthors (sessionEnd s₀ b n)).candidate? a).isSome
  notMem_waiting : ∀ a, FallsStale s₀ b n a → a ∉ (sessionEnd s₀ b n).endSession.waitingCandidates

/-- In every run, the accounts slashing marks at the end of a session are exactly those
    that fall stale by the history of the chain. -/
theorem slashes_exactly (h₀ : s₀ ∈ (chain T AccountId).init) (b : ℕ → Block AccountId) (n : ℕ) :
    SlashesExactly s₀ b n := by
  have hs := reachable_sessionEnd h₀ b n
  have hk := uniqueKeys_of_reachable hs
  have hqueued (a : AccountId) : (finalState queueAuthors (sessionEnd s₀ b n)).candidate? a =
      ((sessionEnd s₀ b n).candidate? a).map
        (CandidateInfo.queue (sessionEnd s₀ b n).waitingCandidates) := by
    rw [State.finalState_queueAuthors]
    exact findKey_map fun _ => CandidateInfo.who_queue
  refine ⟨fun a => ?_, fun a ha => ?_, fun a ha => ?_⟩
  · refine (State.candidate?_slashed hk).trans ?_
    rw [hqueued]
    cases hc : (sessionEnd s₀ b n).candidate? a with
    | none => rfl
    | some c =>
      simp only [Option.map_some, State.mark, State.stale_queue_iff hc, foundStale_iff h₀,
        blockNumber_sessionEnd h₀]
  · obtain ⟨c, hc, -⟩ := holds_of_seated hs ⟨.inr ha.1, ha.2.1⟩
    rw [hqueued, hc]
    rfl
  · obtain ⟨p, w, hend, hw, -⟩ := State.endSession_eq hk
    rw [hend, ← BoundedVec.mem_toList, hw, List.mem_append, not_or]
    refine ⟨ha.2.1, State.notMem_selected_of_offline hk fun c' hc' => ?_⟩
    obtain ⟨c, hc, -⟩ := holds_of_seated hs ⟨.inr ha.1, ha.2.1⟩
    exact (State.offline_slashed_iff hk hc hc').2 (.inr ((foundStale_iff h₀).2 ha))

/-- Bob registers in block 1, authors nothing, and is marked in block 6. -/
theorem slashes_exactly_lateBlocks :
    FallsStale (development Config.shortStaling (by decide) (by decide))
        (lateBlocks (fun _ => true) none) 6 .bob ∧
      SlashesExactly (development Config.shortStaling (by decide) (by decide))
        (lateBlocks (fun _ => true) none) 6 :=
  ⟨⟨by decide, by decide, by decide +kernel, by decide +kernel⟩,
    slashes_exactly development_mem _ _⟩

end Xode.Staking
