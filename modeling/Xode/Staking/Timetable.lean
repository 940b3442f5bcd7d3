import Xode.Staking.Departures
import Xode.Staking.Histories

/-!
# Timetable

Sessions end every `period` blocks, and so the pipeline has a timetable in blocks. Where a
session ends with the block `r`:

* The accounts on the waiting list from then on are those that can author the blocks of the
  third session after it, if they have session keys when the next one ends
  (`authors_of_period`). Nothing in the blocks of three sessions changes that.
* A candidate on the waiting list that steps down in the session that follows, and is silent
  from then on, can take its bond back in the third session after that one, and in no later
  one: at its end the record is dropped (`exits_of_period`).
-/

namespace Xode.Staking

variable {T : Config} {AccountId : Type} [DecidableEq AccountId]
  {s s₀ : State T AccountId} {b : ℕ → Block AccountId} {a : AccountId} {k m n r : ℕ}

/-! ### Blocks in between -/

/-- The steps of the `k` blocks after the block `n`. -/
def stepsAfter (b : ℕ → Block AccountId) (n : ℕ) : ℕ → List (Step AccountId)
  | 0 => []
  | k + 1 => stepsAfter b n k ++ (b (n + k + 1)).steps

theorem run_stepsAfter (s₀ : State T AccountId) (b : ℕ → Block AccountId) (n k : ℕ) :
    (chain T AccountId).run (stateAt s₀ b n) (stepsAfter b n k) = stateAt s₀ b (n + k) := by
  induction k with
  | zero => rfl
  | succ k ih => rw [stepsAfter, System.run_append, ih, ← Nat.add_assoc, stateAt]

omit [DecidableEq AccountId] in
theorem rotations_steps (b : Block AccountId) :
    rotations b.steps = if b.rotates then 1 else 0 := by
  have hbody : (b.body.map Step.tx).countP Step.isRotate = 0 :=
    List.countP_eq_zero.2 fun e he => mt isRotate_iff.1 (ne_rotate_of_mem_body he)
  rw [rotations, Block.steps, List.cons_append, List.countP_cons_of_neg (by simp [Step.isRotate]),
    List.countP_append, hbody]
  split <;> rfl

omit [DecidableEq AccountId] in
theorem silent_stepsAfter
    (h : ∀ i, n < i → i ≤ n + k → ∀ call, Tx.call (.signed a) call ∉ (b i).body) :
    Silent a (stepsAfter b n k) := by
  induction k with
  | zero => exact fun e he => absurd he List.not_mem_nil
  | succ k ih =>
    intro e he call hcall
    subst hcall
    rcases List.mem_append.1 he with he | he
    · exact ih (fun i hi hik => h i hi (by omega)) _ he call rfl
    · simp only [Block.steps, List.cons_append, List.mem_cons, List.mem_append, List.mem_map,
        reduceCtorEq, false_or] at he
      rcases he with he | ⟨tx, htx, heq⟩
      · split at he <;> simp at he
      · cases heq
        exact h (n + k + 1) (by omega) le_rfl call htx

section Periodic

variable {period offset : ℕ} (hb : ∀ n, (b n).rotates = shouldEndSession period offset n)

include hb

omit [DecidableEq AccountId] in
/-- In the session that follows on the block `r`, the rotations to come are counted by the
    blocks since. -/
theorem rotations_stepsAfter (h : (b r).rotates) (hn : r ≤ n) (hnr : n < r + period)
    : rotations (stepsAfter b n k) = (n + k - r) / period := by
  induction k with
  | zero => exact (Nat.div_eq_of_lt (by omega)).symm
  | succ k ih =>
    have happend : rotations (stepsAfter b n (k + 1)) =
        rotations (stepsAfter b n k) + rotations (b (n + k + 1)).steps := List.countP_append
    have hsucc : n + (k + 1) - r = n + k - r + 1 := by omega
    have hblock : n + k + 1 = r + (n + k - r + 1) := by omega
    rw [hb] at h
    rw [happend, ih, rotations_steps, hb, hblock, shouldEndSession_add h, hsucc, Nat.succ_div]
    simp only [decide_eq_true_eq, Nat.dvd_iff_mod_eq_zero]

/-! ### Authors -/

/-- The validators of a session were queued at the start of the session before. -/
theorem validators_of_period (h₀ : s₀ ∈ (chain T AccountId).init) (hp : 0 < period)
    (h : (b r).rotates) (hm : r + period ≤ m) (hmr : m < r + 2 * period) :
    (stateAt s₀ b m).session.validators = (stateAt s₀ b r).session.queued := by
  have hr := rotates_add_period hb h
  obtain ⟨j, hj⟩ : ∃ j, r + period = j + 1 := ⟨r + period - 1, by omega⟩
  rw [(sameSlots_of_lt_period hb hr le_rfl hm (by omega)).validators, hj,
    (advances_of_rotates h₀ (hj ▸ hr)).validators, (sameSlots_sessionEnd_succ s₀ b j).queued,
    (sameSlots_of_lt_period hb h le_rfl (n := j) (by omega) (by omega)).queued]

/-- The queued accounts of a session are those of the waiting list of the session before that
    have session keys when it ends. -/
theorem queued_of_period (h₀ : s₀ ∈ (chain T AccountId).init) (hp : 0 < period)
    (hD : s₀.desiredCandidates.toList ≠ []) (h : (b r).rotates) :
    (stateAt s₀ b (r + period)).session.queued =
      (stateAt s₀ b r).waitingCandidates.toList.filter
        (sessionEnd s₀ b (r + period)).session.hasKeys := by
  have hr := rotates_add_period hb h
  obtain ⟨j, hj⟩ : ∃ j, r + period = j + 1 := ⟨r + period - 1, by omega⟩
  have hwaiting :
      (sessionEnd s₀ b (j + 1)).waitingCandidates = (stateAt s₀ b r).waitingCandidates := by
    rw [(sameSlots_sessionEnd_succ s₀ b j).waiting,
      (sameSlots_of_lt_period hb h le_rfl (n := j) (by omega) (by omega)).waiting]
  have hdes : (sessionEnd s₀ b (j + 1)).desiredCandidates.toList ≠ [] := by
    rwa [(sameSlots_sessionEnd_succ s₀ b j).desired, desired_stateAt h₀]
  rw [hj, (advances_of_rotates h₀ (hj ▸ hr)).queued,
    State.nextInvulnerables_eq (reachable_sessionEnd h₀ b (j + 1)) hdes, hwaiting]

/-- Where sessions end every `period` blocks and there are desired candidates, the accounts
    that can author a block of the third session after the block `r` are those on the waiting
    list after it that have session keys when the next session ends. -/
theorem authors_of_period (h₀ : s₀ ∈ (chain T AccountId).init) (hp : 0 < period)
    (hD : s₀.desiredCandidates.toList ≠ []) (h : (b r).rotates) (hm : r + 2 * period ≤ m)
    (hmr : m < r + 3 * period) :
    (∃ i, (stateAt s₀ b m).findAuthor (some i) = some a) ↔
      a ∈ (stateAt s₀ b r).waitingCandidates ∧
        (sessionEnd s₀ b (r + period)).session.hasKeys a := by
  have hauthor : (∃ i, (stateAt s₀ b m).findAuthor (some i) = some a) ↔
      a ∈ (stateAt s₀ b m).session.validators := List.mem_iff_getElem?.symm
  rw [hauthor, validators_of_period hb h₀ hp (rotates_add_period hb h) (by omega) (by omega),
    queued_of_period hb h₀ hp hD h, List.mem_filter]
  exact Iff.rfl

/-! ### Exits -/

/-- Where sessions end every `period` blocks and there are desired candidates, a candidate on
    the waiting list that is offline in a block of the session after `r`, and silent from then
    on, keeps its record and its bond to the end of the fourth session. It can take the bond
    back in the last of them, and after that its record is gone. -/
theorem exits_of_period (h₀ : s₀ ∈ (chain T AccountId).init)
    (hD : s₀.desiredCandidates.toList ≠ []) (ha : a ∉ s₀.desiredCandidates) (h : (b r).rotates)
    (hn : r ≤ n) (hnr : n < r + period) (hw : a ∈ (stateAt s₀ b n).waitingCandidates)
    (hoff : ((stateAt s₀ b n).candidate? a).any CandidateInfo.offline) (hm : n ≤ m)
    (hsilent : ∀ i, n < i → i ≤ m → ∀ call, Tx.call (.signed a) call ∉ (b i).body) :
    (m < r + 4 * period → ∃ c, (stateAt s₀ b m).candidate? a = some c ∧
      c.bond = (stateAt s₀ b n).bondOf a) ∧
    (r + 3 * period ≤ m → m < r + 4 * period →
      ∃ s', bondCandidate (.signed a) 0 (stateAt s₀ b m) = .ok () s') ∧
    (r + 4 * period ≤ m → (stateAt s₀ b m).candidate? a = none) := by
  obtain ⟨k, rfl⟩ := Nat.exists_eq_add_of_le hm
  have hs := reachable_stateAt h₀ b n
  have hdes : (stateAt s₀ b n).desiredCandidates = s₀.desiredCandidates := desired_stateAt h₀
  have hdrains := State.drains_of_offline hs (by rwa [hdes]) (by rwa [hdes]) hoff hw
    (silent_stepsAfter hsilent)
  have hcount := rotations_stepsAfter hb (k := k) h hn hnr
  have hp : 0 < period := by omega
  have hlt (j : ℕ) : (n + k - r) / period < j ↔ n + k < r + j * period := by
    rw [Nat.div_lt_iff_lt_mul hp]
    omega
  have hge (j : ℕ) : j ≤ (n + k - r) / period ↔ r + j * period ≤ n + k := by
    rw [Nat.le_div_iff_mul_le hp]
    omega
  rw [← run_stepsAfter s₀ b n k]
  refine ⟨fun h₄ => hdrains.bond_eq ?_, fun h₃ h₄ => hdrains.unbonds ?_, fun h₄ =>
    hdrains.removed ?_⟩
  · rw [hcount]
    exact Nat.le_of_lt_succ ((hlt 4).2 h₄)
  · rw [hcount]
    exact le_antisymm (Nat.le_of_lt_succ ((hlt 4).2 h₄)) ((hge 3).2 h₃)
  · rw [hcount]
    exact (hge 4).2 h₄

end Periodic

/-! ### A timetable of the development chain -/

/-- Blocks of which every second ends a session. In the first Bob registers and bonds, and
    all accounts get session keys; in the third he steps down. -/
def shortSessions (n : ℕ) : Block Keyring where
  index := none
  rotates := shouldEndSession 2 0 n
  body :=
    if n = 1 then
      [.call (.signed .bob) .registerCandidate, .call (.signed .bob) (.bondCandidate (10 ^ 14)),
        .sessionKeys fun _ => true]
    else if n = 3 then [.call (.signed .bob) .offlineCandidate]
    else []

/-- Bob was elected at the end of the first session. -/
theorem authors_of_period_development :
    ∃ i, (stateAt developmentState shortSessions 6).findAuthor (some i) = some .bob :=
  (authors_of_period (r := 2) (fun _ => rfl) developmentState_mem (by decide) (by decide)
    (by decide) (by decide) (by decide)).2 (by decide)

/-- Bob can take his bond back after block 8, and his record is gone after block 10. -/
theorem exits_of_period_development :
    (∃ s', bondCandidate (.signed Keyring.bob) 0 (stateAt developmentState shortSessions 8) =
      .ok () s') ∧ (stateAt developmentState shortSessions 10).candidate? .bob = none := by
  have hexits (m : ℕ) (hm : 3 ≤ m) := exits_of_period (r := 2) (m := m) (fun _ => rfl)
    developmentState_mem (by decide) (by decide) (by decide) (by decide) (by decide)
    (by decide : Keyring.bob ∈ (stateAt developmentState shortSessions 3).waitingCandidates)
    (by decide) hm fun i hi _ call => by
      have h₁ : i ≠ 1 := by omega
      have h₃ : i ≠ 3 := by omega
      simp [shortSessions, h₁, h₃]
  exact ⟨(hexits 8 (by decide)).2.1 (by decide) (by decide),
    (hexits 10 (by decide)).2.2 (by decide)⟩

end Xode.Staking
