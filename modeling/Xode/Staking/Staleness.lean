import Xode.Staking.Blocks

/-!
# Staleness

A validator is marked offline when its clock is more than `MaxStalingPeriod` blocks
behind at the end of a session. The clock is that of its record, which starts at
registration, and the validators are those of `pallet_session`, which leaves out
accounts without session keys.

* The clock may have run out before the candidate takes its seat: validators are
  only marked for what they did not author in their seat exactly when the clocks
  of those newly seated hold out (`marks_idle_iff`).
* A candidate whose session keys are there at a rotation in time does not keep its
  slot without authoring (`authored_of_hasKeys`); without session keys it does.
-/

namespace Xode.Staking

variable {T : Config} {AccountId : Type} [DecidableEq AccountId]
  {s s₀ : State T AccountId} {b : ℕ → Block AccountId} {a : AccountId} {e i k m n r : ℕ}

/-! ### Slashing -/

namespace State

/-- The account is registered, and not offline. -/
def Online (s : State T AccountId) (a : AccountId) : Prop :=
  (s.candidate? a).any fun c => !c.offline

instance : Decidable (s.Online a) := inferInstanceAs (Decidable (_ = true))

/-- Slashing sets the account offline. -/
def SetsOffline (s : State T AccountId) (a : AccountId) : Prop :=
  s.Online a ∧ (s.slashed.candidate? a).any CandidateInfo.offline

instance : Decidable (s.SetsOffline a) := inferInstanceAs (Decidable (_ ∧ _))

/-- A current validator slashing finds stale: not desired, without a block in the
    session, and with its clock too far behind. -/
def FoundStale (s : State T AccountId) (a : AccountId) : Prop :=
  a ∈ s.session.validators ∧ a ∉ s.actualAuthors ∧ a ∉ s.desiredCandidates ∧
    T.maxStalingPeriod < s.blockNumber - s.clock a

/-- Slashing writes the record of an account exactly when it finds the account stale. -/
theorem stale_queue_iff {c : CandidateInfo AccountId} (hc : s.candidate? a = some c) :
    s.Stale s.staleValidators (c.queue s.waitingCandidates) ↔ s.FoundStale a := by
  have hq : (c.queue s.waitingCandidates).lastAuthored = c.lastAuthored := by
    rw [CandidateInfo.queue]
    split <;> rfl
  simp only [Stale, FoundStale, staleValidators, currentValidators_eq, CandidateInfo.who_queue,
    who_candidate? hc, List.mem_filter, decide_eq_true_eq, hq, clock_eq hc]
  tauto

/-- After slashing, a record is offline if it was, or its account was found stale. -/
theorem offline_slashed_iff (hk : s.UniqueKeys) {c c' : CandidateInfo AccountId}
    (hc : s.candidate? a = some c) (hc' : s.slashed.candidate? a = some c') :
    c'.offline ↔ c.offline ∨ s.FoundStale a := by
  rw [candidate?_slashed hk, hc, Option.map_some, Option.some.injEq] at hc'
  have hq : (c.queue s.waitingCandidates).offline = c.offline := by
    rw [CandidateInfo.queue]
    split <;> rfl
  rw [← hc', mark]
  split_ifs with h
  · exact iff_of_true rfl (.inr ((stale_queue_iff hc).1 h))
  · rw [hq]
    exact (or_iff_left fun hf => h ((stale_queue_iff hc).2 hf)).symm

/-- Slashing sets those offline that were not, and that it finds stale. -/
theorem setsOffline_iff (hk : s.UniqueKeys) :
    s.SetsOffline a ↔ s.Online a ∧ s.FoundStale a := by
  refine and_congr_right fun ho => ?_
  obtain ⟨c, hc, hoff⟩ := (Option.any_eq_true _ _).1 ho
  have hc' := (candidate?_slashed hk).trans (congrArg (Option.map _) hc)
  rw [hc', Option.map_some, Option.any_some, offline_slashed_iff hk hc hc']
  exact or_iff_right (by simpa using hoff)

/-- A candidate that is offline after slashing is not put on the waiting list,
    unless it is desired. -/
theorem notMem_selected_of_offline (hk : s.UniqueKeys)
    (h : ∀ c, s.slashed.candidate? a = some c → c.offline) : a ∉ s.selected := by
  intro ha
  obtain ⟨c, hc, he⟩ := candidate?_of_selected hk ha
  have := h _ ((candidate?_slashed hk).trans (by rw [hc]; rfl))
  rw [he.2.2] at this
  cases this

end State

/-! ### Marks come too early -/

/-- At every one of the last `MaxStalingPeriod` blocks before block `n`, the account
    was a validator, and did not author the block. -/
def IdleBefore (s₀ : State T AccountId) (b : ℕ → Block AccountId) (n : ℕ) (a : AccountId) : Prop :=
  ∀ m, n - T.maxStalingPeriod ≤ m → m < n →
    a ∈ (stateAt s₀ b m).session.validators ∧ authorAt s₀ b m ≠ some a

/-- Slashing sets accounts offline only that were idle validators before. -/
def MarksIdle (s₀ : State T AccountId) (b : ℕ → Block AccountId) : Prop :=
  ∀ n a, (b n).rotates → (sessionEnd s₀ b n).SetsOffline a → IdleBefore s₀ b n a

/-- The account has been a validator from block `e` to the end of the session of
    block `n`, and was not before. -/
structure SeatedSince (s₀ : State T AccountId) (b : ℕ → Block AccountId) (a : AccountId)
    (e n : ℕ) : Prop where
  pos : 0 < e
  lt : e < n
  notMem : a ∉ (stateAt s₀ b (e - 1)).session.validators
  mem : ∀ m, e ≤ m → m < n → a ∈ (stateAt s₀ b m).session.validators

/-- The clock an account takes its seat with holds out: it does not run out at the
    end of a session before the account has sat for `MaxStalingPeriod` blocks, if
    it has authored nothing since. -/
def ClocksHoldOut (s₀ : State T AccountId) (b : ℕ → Block AccountId) : Prop :=
  ∀ n e a, (b n).rotates → SeatedSince s₀ b a e n → n < e + T.maxStalingPeriod →
    (sessionEnd s₀ b n).Online a → a ∉ s₀.desiredCandidates →
    (∀ m, e < m → m ≤ n → authorAt s₀ b m ≠ some a) →
    n ≤ (stateAt s₀ b e).clock a + T.maxStalingPeriod

/-- A validator that was not one at genesis has taken its seat in some block. -/
theorem exists_seatedSince (h₀ : a ∉ s₀.session.validators)
    (h : a ∈ (stateAt s₀ b n).session.validators) : ∃ e, SeatedSince s₀ b a e (n + 1) := by
  induction n with
  | zero => exact absurd h h₀
  | succ n ih =>
    by_cases hn : a ∈ (stateAt s₀ b n).session.validators
    · obtain ⟨e, he⟩ := ih hn
      refine ⟨e, he.pos, he.lt.trans (Nat.lt_succ_self _), he.notMem, fun m hm hmn => ?_⟩
      rcases Nat.lt_succ_iff_lt_or_eq.1 hmn with hmn | rfl
      exacts [he.mem m hm hmn, h]
    · exact ⟨n + 1, Nat.succ_pos _, Nat.lt_succ_self _, hn, fun m hm hmn =>
        le_antisymm (Nat.lt_succ_iff.1 hmn) hm ▸ h⟩

/-- Seats are taken at rotations. -/
theorem SeatedSince.rotates (h : SeatedSince s₀ b a e n) : (b e).rotates := by
  by_contra hr
  have hp := h.pos
  have hsame : (stateAt s₀ b (e - 1)).SameSlots (stateAt s₀ b e) :=
    sameSlots_of_not_rotates s₀ (by omega) fun k hk hke => by
      obtain rfl : k = e := by omega
      simpa using hr
  exact h.notMem (hsame.validators ▸ h.mem e le_rfl h.lt)

theorem SeatedSince.seated (h₀ : s₀ ∈ (chain T AccountId).init) (h : SeatedSince s₀ b a e n)
    (ha : a ∉ s₀.desiredCandidates) (m : ℕ) (hm : e ≤ m) (hmn : m < n) :
    (stateAt s₀ b m).Seated a :=
  ⟨.inr (h.mem m hm hmn), by rwa [desired_stateAt h₀]⟩

/-- The block in which an account takes its seat is authored by a validator that had
    one before. -/
theorem SeatedSince.authorAt_ne (h : SeatedSince s₀ b a e n) : authorAt s₀ b e ≠ some a := by
  have hp := h.pos
  obtain ⟨e, rfl⟩ : ∃ k, e = k + 1 := ⟨e - 1, by omega⟩
  intro ha
  obtain ⟨i, -, hi⟩ := Option.bind_eq_some_iff.1 ha
  exact h.notMem (List.mem_of_getElem? hi)

/-- The clock of an account that has authored nothing in its seat stands where it stood
    when it took it. -/
theorem SeatedSince.clock_eq (h₀ : s₀ ∈ (chain T AccountId).init)
    (h : SeatedSince s₀ b a e (n + 1)) (hd : a ∉ s₀.desiredCandidates)
    (ha : ∀ m, e < m → m ≤ n + 1 → authorAt s₀ b m ≠ some a) :
    (sessionEnd s₀ b (n + 1)).clock a = (stateAt s₀ b e).clock a := by
  have hlt := h.lt
  rw [clock_sessionEnd_succ h₀ (h.seated h₀ hd n (by omega) (by omega)),
    if_neg (ha (n + 1) hlt le_rfl)]
  exact Staking.clock_eq h₀ (by omega) (fun k hk hkn => h.seated h₀ hd k hk (by omega))
    fun k hk hkn => ha k hk (by omega)

/-- A clock remembers the blocks authored in the seat: when it is too far behind, the
    account has authored none of the last `MaxStalingPeriod` of them. -/
theorem SeatedSince.authorAt_ne_of_clock (h₀ : s₀ ∈ (chain T AccountId).init)
    (h : SeatedSince s₀ b a e (n + 1)) (hd : a ∉ s₀.desiredCandidates)
    (hst : T.maxStalingPeriod < n + 1 - (sessionEnd s₀ b (n + 1)).clock a) (hm : e < m)
    (hmn : m ≤ n + 1) (hmax : n + 1 ≤ m + T.maxStalingPeriod) : authorAt s₀ b m ≠ some a := by
  intro ha
  have hlt := h.lt
  obtain ⟨m, rfl⟩ : ∃ k, m = k + 1 := ⟨m - 1, by omega⟩
  have hclock := clock_sessionEnd_succ h₀ (h.seated h₀ hd n (by omega) (by omega))
  by_cases hnm : n = m
  · subst hnm
    rw [if_pos ha] at hclock
    omega
  · have := le_clock h₀ (n := n) (by omega)
      (fun k hk hkn => h.seated h₀ hd k (by omega) (by omega)) ha
    split at hclock <;> omega

/-- Whether the end of a session finds a validator stale. -/
theorem foundStale_sessionEnd_iff (h₀ : s₀ ∈ (chain T AccountId).init) :
    (sessionEnd s₀ b (n + 1)).FoundStale a ↔
      a ∈ (stateAt s₀ b n).session.validators ∧ a ∉ (sessionEnd s₀ b (n + 1)).actualAuthors ∧
      a ∉ s₀.desiredCandidates ∧
      T.maxStalingPeriod < n + 1 - (sessionEnd s₀ b (n + 1)).clock a := by
  have hsame := sameSlots_sessionEnd_succ s₀ b n
  rw [State.FoundStale, hsame.validators, hsame.desired, desired_stateAt h₀,
    blockNumber_sessionEnd h₀]

/-- Idle validators have clocks that hold out: otherwise one would be marked that did
    not sit yet in the block before its seat. -/
theorem MarksIdle.clocksHoldOut (h₀ : s₀ ∈ (chain T AccountId).init) (h : MarksIdle s₀ b) :
    ClocksHoldOut s₀ b := by
  intro n e a hr hseat hn ho hd ha
  by_contra hlt
  have hpos := hseat.pos
  have hen := hseat.lt
  obtain ⟨n, rfl⟩ : ∃ k, n = k + 1 := ⟨n - 1, by omega⟩
  obtain ⟨e, rfl⟩ : ∃ k, e = k + 1 := ⟨e - 1, by omega⟩
  have hclock := hseat.clock_eq h₀ hd ha
  have hauth := notMem_actualAuthors_sessionEnd h₀ hseat.rotates (by omega) ha
  have hset : (sessionEnd s₀ b (n + 1)).SetsOffline a :=
    (State.setsOffline_iff (uniqueKeys_of_reachable (reachable_sessionEnd h₀ b _))).2
      ⟨ho, (foundStale_sessionEnd_iff h₀).2
        ⟨hseat.mem n (by omega) (by omega), hauth, hd, by rw [hclock]; omega⟩⟩
  exact hseat.notMem (h (n + 1) a hr hset e (by omega) (by omega)).1

/-- Where the clocks hold out, an account that is marked has sat for the whole period,
    and its clock would remember a block it authored in it. -/
theorem ClocksHoldOut.marksIdle (h₀ : s₀ ∈ (chain T AccountId).init) (h : ClocksHoldOut s₀ b) :
    MarksIdle s₀ b := by
  intro n a hr hset
  cases n with
  | zero => exact fun m _ hm => absurd hm (Nat.not_lt_zero m)
  | succ n =>
    obtain ⟨ho, hfound⟩ :=
      (State.setsOffline_iff (uniqueKeys_of_reachable (reachable_sessionEnd h₀ b _))).1 hset
    obtain ⟨hv, -, hd, hst⟩ := (foundStale_sessionEnd_iff h₀).1 hfound
    -- At genesis the validators are desired, so it has taken its seat since.
    have hv₀ : a ∉ s₀.session.validators := by
      obtain ⟨g, d, rfl⟩ := genesis_cases h₀
      exact hd
    obtain ⟨e, hseat⟩ := exists_seatedSince hv₀ hv
    have hen := hseat.lt
    have hold : e + T.maxStalingPeriod ≤ n + 1 := by
      by_contra hlt
      have hidle (m : ℕ) (hm : e < m) (hmn : m ≤ n + 1) : authorAt s₀ b m ≠ some a :=
        hseat.authorAt_ne_of_clock h₀ hd hst hm hmn (by omega)
      have hle := h (n + 1) e a hr hseat (by omega) ho hd hidle
      have hclock := hseat.clock_eq h₀ hd hidle
      omega
    intro m hm hmn
    refine ⟨hseat.mem m (by omega) hmn, ?_⟩
    rcases Nat.lt_or_ge e m with hem | hem
    · exact hseat.authorAt_ne_of_clock h₀ hd hst hem (by omega) (by omega)
    · obtain rfl : m = e := by omega
      exact hseat.authorAt_ne

/-- In every run, slashing sets accounts offline only that were idle validators
    for the last `MaxStalingPeriod` blocks, exactly when the clocks of those that
    take a seat hold out. -/
theorem marks_idle_iff (h₀ : s₀ ∈ (chain T AccountId).init) (b : ℕ → Block AccountId) :
    MarksIdle s₀ b ↔ ClocksHoldOut s₀ b :=
  ⟨fun h => h.clocksHoldOut h₀, fun h => h.marksIdle h₀⟩

/-! ### Idle slot holders -/

/-- After a session has ended, sessions end every `period` blocks. -/
theorem shouldEndSession_add {period offset : ℕ} (h : shouldEndSession period offset r) (k : ℕ) :
    shouldEndSession period offset (r + k) = decide (k % period = 0) := by
  simp only [shouldEndSession, decide_eq_true_eq] at h
  have hsub : r + k - offset = (r - offset) + k := by omega
  rw [shouldEndSession, hsub, Nat.add_mod, h.2, Nat.zero_add, Nat.mod_mod]
  exact decide_eq_decide.2 (and_iff_right (by omega))

section Periodic

variable {period offset : ℕ} (hb : ∀ n, (b n).rotates = shouldEndSession period offset n)

include hb

omit [DecidableEq AccountId] in
theorem rotates_add_period (h : (b r).rotates) : (b (r + period)).rotates := by
  rw [hb] at h
  rw [hb, shouldEndSession_add h, Nat.mod_self]
  rfl

/-- From one rotation to the next, the lists do not move. -/
theorem sameSlots_of_lt_period (h : (b r).rotates) (hm : r ≤ m) (hmn : m ≤ n)
    (hn : n < r + period) : (stateAt s₀ b m).SameSlots (stateAt s₀ b n) := by
  refine sameSlots_of_not_rotates s₀ hmn fun k hk hkn => ?_
  rw [hb] at h
  obtain ⟨j, rfl⟩ : ∃ j, k = r + j := ⟨k - r, by omega⟩
  rw [hb, shouldEndSession_add h, Nat.mod_eq_of_lt (by omega)]
  exact decide_eq_false (by omega)

/-- An account queued at a rotation is a validator from the next rotation to the
    one after that. -/
theorem mem_validators_of_queued (h₀ : s₀ ∈ (chain T AccountId).init) (hp : 0 < period)
    (h : (b r).rotates) (hq : a ∈ (stateAt s₀ b r).session.queued) (hm : r + period ≤ m)
    (hmn : m < r + 2 * period) : a ∈ (stateAt s₀ b m).session.validators := by
  have hr := rotates_add_period hb h
  obtain ⟨j, hj⟩ : ∃ j, r + period = j + 1 := ⟨r + period - 1, by omega⟩
  rw [(sameSlots_of_lt_period hb hr le_rfl hm (by omega)).validators, hj,
    (advances_of_rotates h₀ (hj ▸ hr)).validators, (sameSlots_sessionEnd_succ s₀ b j).queued,
    (sameSlots_of_lt_period hb h le_rfl (n := j) (by omega) (by omega)).queued]
  exact hq

/-- A candidate found stale at a rotation is out of the validator set from the next. -/
theorem notMem_invulnerables_of_foundStale (h₀ : s₀ ∈ (chain T AccountId).init) (hp : 0 < period)
    (hD : s₀.desiredCandidates.toList ≠ []) (hr₀ : 0 < r) (h : (b r).rotates)
    (hfound : (sessionEnd s₀ b r).FoundStale a) :
    a ∉ (stateAt s₀ b (r + period)).invulnerables := by
  have hk := uniqueKeys_of_reachable (reachable_sessionEnd h₀ b r)
  have hoff : ∀ c, (sessionEnd s₀ b r).slashed.candidate? a = some c → c.offline := by
    intro c' hc'
    obtain ⟨c, hc, -⟩ := Option.map_eq_some_iff.1 ((State.candidate?_slashed hk).symm.trans hc')
    exact (State.offline_slashed_iff hk hc hc').2 (.inr hfound)
  have hw : a ∉ (stateAt s₀ b r).waitingCandidates := by
    obtain ⟨j, rfl⟩ : ∃ j, r = j + 1 := ⟨r - 1, by omega⟩
    rw [← BoundedVec.mem_toList, (advances_of_rotates h₀ h).waiting, List.mem_append]
    exact not_or.2 ⟨hfound.2.2.1, State.notMem_selected_of_offline hk hoff⟩
  obtain ⟨j, hj⟩ : ∃ j, r + period = j + 1 := ⟨r + period - 1, by omega⟩
  have hwj : (sessionEnd s₀ b (j + 1)).waitingCandidates = (stateAt s₀ b r).waitingCandidates := by
    rw [(sameSlots_sessionEnd_succ s₀ b j).waiting,
      (sameSlots_of_lt_period hb h le_rfl (n := j) (by omega) (by omega)).waiting]
  -- The waiting list is not empty, so the next rotation takes it over.
  have hne : (stateAt s₀ b r).waitingCandidates.toList ≠ [] := by
    intro hnil
    have hlead := State.desired_of_reachable (reachable_stateAt h₀ b r)
    rw [desired_stateAt h₀, hnil] at hlead
    exact hD (List.prefix_nil.1 hlead)
  rw [hj, (advances_of_rotates h₀ (hj ▸ rotates_add_period hb h)).invulnerables,
    State.nextInvulnerables, if_neg (by rwa [hwj]), hwj]
  exact hw

/-- An account with session keys at the rotation `r` is a validator for the session that
    follows on the next. If it has authored nothing in it, and its clock, which stands
    at block `i` at the most, is too far behind at its end, then it is out of the
    validator set from the rotation after that. -/
theorem notMem_invulnerables_of_idle (h₀ : s₀ ∈ (chain T AccountId).init) (hp : 0 < period)
    (hD : s₀.desiredCandidates.toList ≠ []) (ha : a ∉ s₀.desiredCandidates)
    (hinv : ∀ m, i ≤ m → m < r + 3 * period → a ∈ (stateAt s₀ b m).invulnerables)
    (hidle : ∀ m, i < m → m < r + 3 * period → authorAt s₀ b m ≠ some a)
    (hr₀ : 0 < r) (hr : (b r).rotates) (hkey : (sessionEnd s₀ b r).session.hasKeys a)
    (h₁ : i < r + period) (h₂ : i + T.maxStalingPeriod < r + 2 * period) :
    a ∉ (stateAt s₀ b (r + 3 * period)).invulnerables := by
  have hr₁ := rotates_add_period hb hr
  have hr₂ := rotates_add_period hb hr₁
  have hseat (m : ℕ) (hm : i ≤ m) (hmr : m < r + 3 * period) : (stateAt s₀ b m).Seated a :=
    ⟨.inl (hinv m hm hmr), by rwa [desired_stateAt h₀]⟩
  -- It is queued at the rotation, and a validator from the next.
  have hq : a ∈ (stateAt s₀ b r).session.queued := by
    obtain ⟨j, rfl⟩ : ∃ j, r = j + 1 := ⟨r - 1, by omega⟩
    have hadv := advances_of_rotates h₀ hr
    rw [hadv.queued, List.mem_filter, ← hadv.invulnerables]
    refine ⟨?_, hkey⟩
    by_cases hij : i ≤ j + 1
    · exact hinv _ hij (by omega)
    · rw [← (sameSlots_of_lt_period hb hr le_rfl (n := i) (by omega) (by omega)).invulnerables]
      exact hinv i le_rfl (by omega)
  obtain ⟨j, hj⟩ : ∃ j, r + period + period = j + 1 := ⟨r + period + period - 1, by omega⟩
  have hv := mem_validators_of_queued hb h₀ hp hr hq (m := j) (by omega) (by omega)
  -- At the rotation after that, its clock stands where it stood at block `i`.
  have hclock : (sessionEnd s₀ b (j + 1)).clock a ≤ i := by
    rw [clock_sessionEnd_succ h₀ (hseat j (by omega) (by omega)),
      if_neg (hidle (j + 1) (by omega) (by omega)),
      clock_eq (m := i) h₀ (by omega) (fun k hk hkn => hseat k hk (by omega))
        fun k hk hkn => hidle k hk (by omega)]
    exact (clock_le_blockNumber (reachable_stateAt h₀ b i) a).trans (blockNumber_stateAt h₀).le
  have hauth : a ∉ (sessionEnd s₀ b (j + 1)).actualAuthors := by
    obtain ⟨l, hl⟩ : ∃ l, r + period = l + 1 := ⟨r + period - 1, by omega⟩
    exact notMem_actualAuthors_sessionEnd h₀ (hl ▸ hr₁) (by omega) fun k hk hkn =>
      hidle k (by omega) (by omega)
  -- So it is found stale, and out of the validator set at the next.
  have hfound := (foundStale_sessionEnd_iff h₀).2 ⟨hv, hauth, ha, by omega⟩
  have hout := notMem_invulnerables_of_foundStale hb h₀ hp hD (by omega) (hj ▸ hr₂) hfound
  rwa [← hj, show r + period + period + period = r + 3 * period by omega] at hout

/-- Where sessions end every `period` blocks and there are desired candidates, an
    account that is not desired and has been in the validator set from block `i` to
    block `n` has authored a block since, if it had session keys at one of the
    rotations that put it among the validators in time: for a whole session after
    block `i`, at whose end its clock is too far behind. -/
theorem authored_of_hasKeys (h₀ : s₀ ∈ (chain T AccountId).init) (hp : 0 < period)
    (hD : s₀.desiredCandidates.toList ≠ []) (ha : a ∉ s₀.desiredCandidates)
    (hinv : ∀ m, i ≤ m → m ≤ n → a ∈ (stateAt s₀ b m).invulnerables)
    (hkeys : ∃ r, 0 < r ∧ (b r).rotates ∧ (sessionEnd s₀ b r).session.hasKeys a ∧
      i < r + period ∧ i + T.maxStalingPeriod < r + 2 * period ∧ r + 3 * period ≤ n) :
    ∃ m, i < m ∧ m ≤ n ∧ authorAt s₀ b m = some a := by
  obtain ⟨r, hr₀, hr, hkey, h₁, h₂, h₃⟩ := hkeys
  by_contra hidle
  push Not at hidle
  exact notMem_invulnerables_of_idle hb h₀ hp hD ha (fun m hm hmr => hinv m hm (by omega))
    (fun m hm hmr => hidle m hm (by omega)) hr₀ hr hkey h₁ h₂ (hinv _ (by omega) h₃)

/-- With session keys throughout, an account does not keep its slot for more than the
    staling period and three sessions without authoring. -/
theorem authored_of_hasKeys_throughout (h₀ : s₀ ∈ (chain T AccountId).init) (hp : 0 < period)
    (hD : s₀.desiredCandidates.toList ≠ []) (ha : a ∉ s₀.desiredCandidates)
    (hn : i + T.maxStalingPeriod + 3 * period < n)
    (hinv : ∀ m, i ≤ m → m ≤ n → a ∈ (stateAt s₀ b m).invulnerables)
    (hkeys : ∀ m, (sessionEnd s₀ b m).session.hasKeys a) :
    ∃ m, i < m ∧ m ≤ n ∧ authorAt s₀ b m = some a := by
  -- It came into the validator set at a rotation; the last one in time is a number of
  -- sessions later.
  obtain ⟨r, hr₀, hri, hr⟩ : ∃ r, 0 < r ∧ r ≤ i ∧ (b r).rotates := by
    by_contra hno
    have hgen : s₀.invulnerables = s₀.desiredCandidates := by
      obtain ⟨g, d, rfl⟩ := genesis_cases h₀
      rfl
    have hsame := (sameSlots_of_not_rotates s₀ (b := b) (Nat.zero_le i) fun k hk hki => by
      by_contra hrk
      exact hno ⟨k, hk, hki, by simpa using hrk⟩).invulnerables
    have := hinv i le_rfl (by omega)
    rw [hsame, stateAt, hgen] at this
    exact ha this
  have hdiv := Nat.div_add_mod (n - 3 * period - r) period
  have hmod := Nat.mod_lt (n - 3 * period - r) hp
  have hmul : period * ((n - 3 * period - r) / period) % period = 0 := Nat.mul_mod_right _ _
  have hr' : (b (r + period * ((n - 3 * period - r) / period))).rotates := by
    rw [hb, shouldEndSession_add (hb r ▸ hr), hmul]
    rfl
  by_contra hidle
  push Not at hidle
  exact notMem_invulnerables_of_idle hb h₀ hp hD ha (fun m hm hmr => hinv m hm (by omega))
    (fun m hm hmr => hidle m hm (by omega)) (by omega) hr' (hkeys _) (by omega) (by omega)
    (hinv _ (by omega) (by omega))

end Periodic

/-! ### Runs of the development chain -/

/-- The constants of this runtime, with a shorter staling period. -/
def Config.shortStaling : Config := { Config.runtime with maxStalingPeriod := 4 }

/-- Blocks that each end a session, with the same author index; in the first of them,
    Bob registers and bonds. -/
def lateBlocks (hasKeys : Keyring → Bool) (index : Option ℕ) (n : ℕ) : Block Keyring where
  index := index
  rotates := true
  body :=
    if n = 1 then
      [.sessionKeys hasKeys, .call (.signed .bob) .registerCandidate,
        .call (.signed .bob) (.bondCandidate (10 ^ 14))]
    else []

theorem rotates_lateBlocks (hasKeys : Keyring → Bool) (index : Option ℕ) (n : ℕ) :
    (lateBlocks hasKeys index n).rotates = shouldEndSession 1 0 n := by
  simp [lateBlocks, shouldEndSession, Nat.mod_one]

/-- Bob authors the fifth of these blocks, and no session ends after the twelfth. -/
def idleBlocks (n : ℕ) : Block Keyring :=
  { lateBlocks (fun _ => true) none n with
    index := if n = 5 then some 1 else none
    rotates := n ≤ 12 }

/-- Bob takes a seat once, in block 4, and authors the block that follows. -/
theorem clocksHoldOut_idleBlocks :
    ClocksHoldOut (development Config.shortStaling (by decide) (by decide)) idleBlocks := by
  intro n e a hr hseat _ _ _ hidle
  have hn : n ≤ 12 := of_decide_eq_true hr
  have hpos := hseat.pos
  have hlt := hseat.lt
  have hseats : ∀ e < 12, ∀ a ∈ (stateAt (development Config.shortStaling (by decide) (by decide))
      idleBlocks (e + 1)).session.validators,
      a ∉ (stateAt (development Config.shortStaling (by decide) (by decide))
        idleBlocks e).session.validators → a = .bob ∧ e = 3 := by
    decide +kernel
  obtain ⟨e, rfl⟩ : ∃ k, e = k + 1 := ⟨e - 1, by omega⟩
  obtain ⟨rfl, rfl⟩ := hseats e (by omega) a (hseat.mem _ le_rfl hlt) hseat.notMem
  exact absurd (by decide) (hidle 5 (by decide) hlt)

/-- Bob is set offline in block 10, for the blocks from 6 on. -/
theorem marksIdle_idleBlocks :
    let s₀ := development Config.shortStaling (by decide) (by decide)
    MarksIdle s₀ idleBlocks ∧ (sessionEnd s₀ idleBlocks 10).SetsOffline .bob ∧
      IdleBefore s₀ idleBlocks 10 .bob := by
  intro s₀
  have hmarks := (marks_idle_iff development_mem idleBlocks).2 clocksHoldOut_idleBlocks
  have hset : (sessionEnd s₀ idleBlocks 10).SetsOffline .bob := by decide +kernel
  exact ⟨hmarks, hset, hmarks 10 .bob (by decide) hset⟩

/-- Bob takes its seat in block 4, with the clock of block 1, and is set offline in
    block 6; it was no validator in block 2. -/
theorem not_marksIdle_lateBlocks :
    ¬MarksIdle (development Config.shortStaling (by decide) (by decide))
      (lateBlocks (fun _ => true) none) := by
  intro h
  have := (h 6 .bob rfl (by decide) 2 (by decide) (by decide)).1
  exact absurd this (by decide)

theorem authored_lateBlocks :
    ∃ m, 3 < m ∧ m ≤ 11 ∧
      authorAt (development Config.shortStaling (by decide) (by decide))
        (lateBlocks (fun _ => true) (some 1)) m = some .bob :=
  authored_of_hasKeys (rotates_lateBlocks _ _) development_mem (by decide) (by decide) (by decide)
    (by decide) ⟨6, by decide, by decide, by decide, by decide, by decide, by decide⟩

/-- Bob, without session keys, is in the validator set from block 3 on, and authors
    nothing for longer than the staling period and three sessions. -/
theorem not_authored_lateBlocks :
    let s₀ := development Config.shortStaling (by decide) (by decide)
    let b := lateBlocks (fun a => a = .alice) none
    (∀ n, (b n).rotates = shouldEndSession 1 0 n) ∧ s₀.desiredCandidates.toList ≠ [] ∧
      .bob ∉ s₀.desiredCandidates ∧ 3 + Config.shortStaling.maxStalingPeriod + 3 * 1 < 11 ∧
      (∀ m, 3 ≤ m → m ≤ 11 → .bob ∈ (stateAt s₀ b m).invulnerables) ∧
      ¬∃ m, 3 < m ∧ m ≤ 11 ∧ authorAt s₀ b m = some .bob := by
  refine ⟨rotates_lateBlocks _ _, by decide, by decide, by decide, by decide, ?_⟩
  rintro ⟨m, -, -, hm⟩
  cases m with
  | zero => cases hm
  | succ m => cases hm

end Xode.Staking
