import Xode.Staking.Delegations
import Xode.Staking.Holders

/-!
# Departures

A record out of the running is not dropped at once: each rotation takes its status one
step back, and drops it from waiting (`Status.countdown`). While its account is on the
waiting list or in the validator set, the rotations set the status to authoring again;
so the countdown only runs once the account is off both lists
(`countdown_rotateSession`), which one rotation each sees to.

* An offline candidate drains: it leaves the waiting list, the validator set and the
  current validators at one rotation each, and at the fourth its record is dropped
  (`drains_of_reachable`).
* A candidate that has left stays off all three lists, and its record is dropped at the
  third rotation at the latest (`leaves_for_good`).
-/

namespace Xode.Staking

variable {T : Config} {AccountId : Type} [DecidableEq AccountId]
  {s s' : State T AccountId} {a who : AccountId} {c c' : CandidateInfo AccountId}
  {e : Step AccountId} {es : List (Step AccountId)} {k : ℕ}

/-! ### Rotations along a run -/

/-- The step is a session rotation. -/
def Step.isRotate : Step AccountId → Bool
  | .rotate => true
  | _ => false

/-- The number of rotations among some steps. -/
def rotations (es : List (Step AccountId)) : ℕ := es.countP Step.isRotate

/-- None of the steps is a call signed by `a`. -/
def Silent (a : AccountId) (es : List (Step AccountId)) : Prop :=
  ∀ e ∈ es, ∀ call, e ≠ .signed a call

omit [DecidableEq AccountId] in
theorem isRotate_iff : e.isRotate ↔ e = .rotate := by
  cases e <;> simp [Step.isRotate]

omit [DecidableEq AccountId] in
theorem rotations_cons : rotations (e :: es) = rotations es + if e.isRotate then 1 else 0 :=
  List.countP_cons

/-- What holds after `k` rotations: it is kept by every other step, and each rotation
    takes it from `k` to `k + 1`. -/
theorem rotations_induction_step {Q : ℕ → State T AccountId → Prop}
    {P : State T AccountId → Step AccountId → Prop} (hs : (chain T AccountId).Reachable s)
    (hes : (chain T AccountId).Along P s es) (h : Q k s)
    (hstep : ∀ k s e, (chain T AccountId).Reachable s → P s e → e ≠ .rotate → Q k s →
      Q k ((chain T AccountId).step s e))
    (hrotate : ∀ k s, (chain T AccountId).Reachable s → P s .rotate → Q k s →
      Q (k + 1) s.rotateSession) :
    Q (k + rotations es) ((chain T AccountId).run s es) := by
  induction es generalizing s k with
  | nil => exact h
  | cons e es ih =>
    rw [rotations_cons]
    by_cases he : e = .rotate
    · subst he
      have hk : k + (rotations es + 1) = k + 1 + rotations es := by omega
      rw [if_pos (isRotate_iff.2 rfl), hk, System.run_cons]
      exact ih (hs.step Step.rotate) hes.2 (hrotate k s hs hes.1 h)
    · rw [if_neg (mt isRotate_iff.1 he), Nat.add_zero]
      exact ih (hs.step e) hes.2 (hstep k s e hs hes.1 he h)

/-- As `rotations_induction_step`, by what a step can do. -/
theorem rotations_induction {Q : ℕ → State T AccountId → Prop}
    {P : State T AccountId → Step AccountId → Prop} (hs : (chain T AccountId).Reachable s)
    (hes : (chain T AccountId).Along P s es) (h : Q k s)
    (hstep : ∀ k s e s', s.UniqueKeys → P s e → e ≠ .rotate → s.Next e s' → Q k s → Q k s')
    (hrotate : ∀ k s, (chain T AccountId).Reachable s → P s .rotate → Q k s →
      Q (k + 1) s.rotateSession) :
    Q (k + rotations es) ((chain T AccountId).run s es) :=
  rotations_induction_step hs hes h
    (fun k s e hs hP he => hstep k s e _ (uniqueKeys_of_reachable hs) hP he (s.next_step e)) hrotate

/-- The steps of a silent account are calls of others, if they are calls. -/
theorem along_of_silent (h : Silent a es) :
    (chain T AccountId).Along (fun _ e => ∀ call, e ≠ .signed a call) s es := by
  induction es generalizing s with
  | nil => trivial
  | cons e es ih =>
    exact ⟨h e List.mem_cons_self, ih fun x hx => h x (List.mem_cons_of_mem _ hx)⟩

/-! ### The countdown of a status -/

/-- How many rotations it takes to drop a record that is out of the running, with its
    account off the lists. -/
def Status.countdown : Status → ℕ
  | .authoring => 3
  | .queuing => 2
  | _ => 1

namespace State

/-- A record that a rotation keeps is offline afterwards if it was before, and leaving
    exactly if it was. -/
theorem flags_of_rotateCandidate (h : s.rotateCandidate c = some c') :
    c'.leaving = c.leaving ∧ (c.offline → c'.offline) := by
  obtain ⟨_, rfl⟩ := rotateCandidate_eq_mark h
  rw [mark]
  split_ifs <;> simp

/-- Off the lists, a record out of the running moves one step back. -/
theorem status_of_rotateCandidate_off (h : s.rotateCandidate c = some c') (ho : c.OutOfRunning)
    (hw : c.who ∉ s.waitingCandidates) (hi : c.who ∉ s.nextInvulnerables) :
    c.status = .authoring ∧ c'.status = .queuing ∨ c.status = .queuing ∧ c'.status = .waiting := by
  obtain ⟨c₁, h₁, -, hst⟩ := status_of_rotateCandidate h
  have hq : (s.mark (c.queue s.waitingCandidates)).status = c.status := by
    rw [status_queue, if_neg fun h => hw h.2]
  have hout : (s.mark (c.queue s.waitingCandidates)).OutOfRunning := by
    rw [outOfRunning_mark, CandidateInfo.queue, if_neg fun h => hw h.2]
    exact .inl ho
  rw [CandidateInfo.demote, if_pos hout, hq] at h₁
  rw [hst, if_neg hi]
  cases hs : c.status with
  | online | offline | waiting => rw [hs] at h₁; cases h₁
  | queuing => rw [hs] at h₁; cases h₁; simp
  | authoring => rw [hs] at h₁; cases h₁; simp

/-- Off the lists, a rotation counts a record out of the running down. -/
theorem countdown_rotateSession (hk : s.UniqueKeys) (hw : a ∉ s.waitingCandidates)
    (hi : a ∉ s.nextInvulnerables) (hc : s.rotateSession.candidate? a = some c')
    (ho : ∀ c, s.candidate? a = some c → c.OutOfRunning) :
    ∃ c, s.candidate? a = some c ∧ c'.status.countdown + 1 = c.status.countdown := by
  rw [candidate?_rotateSession hk] at hc
  obtain ⟨c, hc, hr⟩ := Option.bind_eq_some_iff.1 hc
  rw [← who_candidate? hc] at hw hi
  refine ⟨c, hc, ?_⟩
  obtain ⟨h, h'⟩ | ⟨h, h'⟩ := status_of_rotateCandidate_off hr (ho c hc) hw hi
  all_goals rw [h, h']; rfl

/-! ### Between rotations -/

/-- Between rotations, a record keeps its status, and does not stop leaving; unless
    there is none, and its account registers. -/
theorem Next.status (hn : s.Next e s') (hk : s.UniqueKeys) (he : e ≠ .rotate)
    (hc : s'.candidate? a = some c') :
    (∃ c, s.candidate? a = some c ∧ c'.status = c.status ∧ (c.leaving → c'.leaving)) ∨
      s.registers a e ∧ c'.status = .online := by
  cases hn with
  | call h =>
    rename_i who call
    rw [h.candidate? hk] at hc
    by_cases ht : a = call.target who
    · rw [if_pos ht] at hc
      cases call with
      | registerCandidate =>
        have hw : a = who := ht
        subst hw
        cases hc
        exact .inr ⟨registers_iff.2 ⟨rfl, _, h⟩, rfl⟩
      | leaveCandidate =>
        obtain ⟨c₀, hc₀, rfl⟩ := Option.map_eq_some_iff.1 hc
        exact .inl ⟨c₀, hc₀, rfl, fun _ => rfl⟩
      | _ =>
        obtain ⟨c₀, hc₀, rfl⟩ := Option.map_eq_some_iff.1 hc
        exact .inl ⟨c₀, hc₀, rfl, id⟩
    · rw [if_neg ht] at hc
      exact .inl ⟨c', hc, rfl, id⟩
  | failed | other => exact .inl ⟨c', hc, rfl, id⟩
  | block index =>
    obtain ⟨c₀, _, hc₀, rfl⟩ := exists_of_candidate?_startBlock hc
    exact .inl ⟨c₀, hc₀, rfl, id⟩
  | rotate => exact absurd rfl he

/-- Between rotations, others only write the stake and the times of a record; the stake
    only by writing the delegations behind it. -/
theorem Next.candidate?_of_silent (hn : s.Next e s') (hk : s.UniqueKeys) (he : e ≠ .rotate)
    (ha : ∀ call, e ≠ .signed a call) (hc : s.candidate? a = some c) :
    ∃ totalStake lastUpdated lastAuthored,
      s'.candidate? a = some { c with totalStake, lastUpdated, lastAuthored } ∧
        (totalStake = c.totalStake ∨
          ∃ who call, e = .signed who call ∧ call.restakes a ∧ Effect s who call s') := by
  cases hn with
  | call h =>
    rename_i who call
    have hw : a ≠ who := fun hw => ha call (hw ▸ rfl)
    have hc' := h.candidate? hk a
    by_cases ht : a = call.target who
    · rw [if_pos ht, hc] at hc'
      cases call with
      | stakeCandidate | unstakeCandidate =>
        exact ⟨_, _, _, hc', .inr ⟨_, _, rfl, decide_eq_true ht.symm, h⟩⟩
      | _ => exact absurd ht hw
    · exact ⟨_, _, _, (hc'.trans (if_neg ht)).trans hc, .inl rfl⟩
  | failed | other => exact ⟨_, _, _, hc, .inl rfl⟩
  | block index =>
    rw [candidate?_startBlock, hc]
    split
    · exact ⟨_, _, _, rfl, .inl rfl⟩
    · exact ⟨_, _, _, rfl, .inl rfl⟩
  | rotate => exact absurd rfl he

/-- Others make no record of an account. -/
theorem Next.candidate?_eq_none (hn : s.Next e s') (hk : s.UniqueKeys)
    (ha : ∀ call, e ≠ .signed a call) (hc : s.candidate? a = none) : s'.candidate? a = none := by
  cases hn with
  | call h =>
    rename_i who call
    rw [h.candidate? hk, hc]
    split
    · next ht =>
      cases call with
      | registerCandidate => exact absurd (congrArg (Step.signed · _) ht.symm) (ha _)
      | _ => rfl
    · rfl
  | failed | other => exact hc
  | block index => rw [candidate?_startBlock, hc]; simp
  | rotate => rw [candidate?_rotateSession hk, hc]; rfl

/-! ### Off the lists -/

/-- An account that has no record eligible after slashing is put on the waiting list by
    no rotation, unless it is desired. -/
theorem notMem_waiting_rotateSession (hk : s.UniqueKeys) (hd : a ∉ s.desiredCandidates)
    (h : ∀ c, s.candidate? a = some c → c.OutOfRunning) :
    a ∉ s.rotateSession.waitingCandidates := by
  rw [← BoundedVec.mem_toList, (advances_rotateSession hk).waiting, List.mem_append, not_or]
  refine ⟨hd, fun hsel => ?_⟩
  obtain ⟨c, hc, he⟩ := candidate?_of_selected hk hsel
  refine CandidateInfo.not_outOfRunning.2 he (outOfRunning_mark.2 (.inl ?_))
  have := h c hc
  rw [CandidateInfo.queue]
  split <;> exact this

omit [DecidableEq AccountId] in
/-- An account on neither list does not come into the validator set. -/
theorem notMem_nextInvulnerables (hw : a ∉ s.waitingCandidates) (hi : a ∉ s.invulnerables) :
    a ∉ s.nextInvulnerables := by
  rw [nextInvulnerables]
  split
  exacts [hi, hw]

/-- With desired candidates, the waiting list is taken over at every rotation. -/
theorem nextInvulnerables_eq (hs : (chain T AccountId).Reachable s)
    (hd : s.desiredCandidates.toList ≠ []) : s.nextInvulnerables = s.waitingCandidates := by
  rw [nextInvulnerables, if_neg]
  exact fun h => hd (List.prefix_nil.1 (h ▸ desired_of_reachable hs))

/-! ### Draining -/

/-- How far an offline candidate has got after `k` rotations: off one list after the
    other, with its record and its bond still there up to the third. -/
structure Drained (a : AccountId) (bond k : ℕ) (s : State T AccountId) : Prop where
  desired : s.desiredCandidates.toList ≠ []
  notDesired : a ∉ s.desiredCandidates
  starts : k = 0 → a ∈ s.waitingCandidates
  waiting : 1 ≤ k → a ∉ s.waitingCandidates
  invulnerables : 2 ≤ k → a ∉ s.invulnerables
  validators : 3 ≤ k → a ∉ s.session.validators
  record : k ≤ 3 → ∃ c, s.candidate? a = some c ∧ c.offline ∧ c.bond = bond ∧
    (1 ≤ k → c.status.countdown + k = 4)
  removed : 4 ≤ k → s.candidate? a = none

variable {bond : ℕ}

theorem Drained.next (hn : s.Next e s') (hk : s.UniqueKeys) (ha : ∀ call, e ≠ .signed a call)
    (he : e ≠ .rotate) (h : Drained a bond k s) : Drained a bond k s' := by
  have hsame := hn.sameSlots he
  exact {
    desired := hsame.desired ▸ h.desired
    notDesired := hsame.desired ▸ h.notDesired
    starts := fun hk => hsame.waiting ▸ h.starts hk
    waiting := fun hk => hsame.waiting ▸ h.waiting hk
    invulnerables := fun hk => hsame.invulnerables ▸ h.invulnerables hk
    validators := fun hk => hsame.validators ▸ h.validators hk
    record := fun hk₃ => by
      obtain ⟨c, hc, hrec⟩ := h.record hk₃
      obtain ⟨_, _, _, hc', -⟩ := hn.candidate?_of_silent hk he ha hc
      exact ⟨_, hc', hrec⟩
    removed := fun hk₄ => hn.candidate?_eq_none hk ha (h.removed hk₄) }

/-- What a rotation leaves of the record of a draining candidate. -/
theorem Drained.record_rotateSession (hs : (chain T AccountId).Reachable s)
    (h : Drained a bond k s) (hk₃ : k + 1 ≤ 3) :
    ∃ c, s.rotateSession.candidate? a = some c ∧ c.offline ∧ c.bond = bond ∧
      (1 ≤ k + 1 → c.status.countdown + (k + 1) = 4) := by
  have hk := uniqueKeys_of_reachable hs
  have hnext := nextInvulnerables_eq hs h.desired
  obtain ⟨c, hc, hoff, hb, hst⟩ := h.record (by omega)
  -- On the list it has a place in the pipeline, and off it the countdown has not run out.
  obtain ⟨c', hc', hb'⟩ : ∃ c', s.rotateCandidate c = some c' ∧ c'.bond = c.bond := by
    refine rotateCandidate_of_status ?_
    rcases Nat.eq_zero_or_pos k with h0 | hpos
    · obtain ⟨c₀, hc₀, -, hst₀⟩ := (pipeline_of_reachable hs).waiting a (h.starts h0) h.notDesired
      obtain rfl := Option.some.inj (hc.symm.trans hc₀)
      rw [who_candidate? hc]
      simp only [List.mem_cons, List.not_mem_nil, or_false] at hst₀
      have := h.starts h0
      tauto
    · have := hst hpos
      cases hcs : c.status <;> rw [hcs] at this <;> simp only [Status.countdown] at this <;>
        first | omega | simp
  have hrec : s.rotateSession.candidate? a = some c' := by
    rw [candidate?_rotateSession hk, hc]
    exact hc'
  refine ⟨c', hrec, (flags_of_rotateCandidate hc').2 hoff, hb'.trans hb, fun _ => ?_⟩
  rcases Nat.eq_zero_or_pos k with h0 | hpos
  · obtain ⟨c₁, -, -, hst'⟩ := status_of_rotateCandidate hc'
    rw [hst', if_pos (by rw [who_candidate? hc, hnext]; exact h.starts h0), h0]
    rfl
  · have hw := h.waiting hpos
    obtain ⟨c₀, hc₀, hcount⟩ := countdown_rotateSession hk hw (hnext ▸ hw) hrec
      fun c₁ hc₁ => .inl (Option.some.inj (hc.symm.trans hc₁) ▸ hoff)
    obtain rfl := Option.some.inj (hc.symm.trans hc₀)
    have := hst hpos
    omega

theorem Drained.rotateSession (hs : (chain T AccountId).Reachable s) (h : Drained a bond k s) :
    Drained a bond (k + 1) s.rotateSession := by
  have hk := uniqueKeys_of_reachable hs
  have hr := advances_rotateSession hk
  have hnext := nextInvulnerables_eq hs h.desired
  have hout : ∀ c, s.candidate? a = some c → c.OutOfRunning := fun c hc => by
    by_cases hk₃ : k ≤ 3
    · obtain ⟨c₀, hc₀, hoff, -⟩ := h.record hk₃
      exact .inl (Option.some.inj (hc₀.symm.trans hc) ▸ hoff)
    · rw [h.removed (by omega)] at hc
      cases hc
  exact {
    desired := by rw [hr.desired]; exact h.desired
    notDesired := by rw [hr.desired]; exact h.notDesired
    starts := fun h0 => absurd h0 (Nat.succ_ne_zero k)
    waiting := fun _ => notMem_waiting_rotateSession hk h.notDesired hout
    invulnerables := fun hk₂ => by
      rw [hr.invulnerables, hnext]
      exact h.waiting (by omega)
    validators := fun hk₃ => by
      rw [hr.validators]
      exact fun hq => h.invulnerables (by omega) ((pipeline_of_reachable hs).queued a hq)
    record := h.record_rotateSession hs
    removed := fun hk₄ => by
      by_contra hne
      obtain ⟨c', hc'⟩ := Option.ne_none_iff_exists'.1 hne
      have hw := h.waiting (by omega)
      obtain ⟨c, hc, hcount⟩ := countdown_rotateSession hk hw (hnext ▸ hw) hc' hout
      -- Only a record with one rotation to go can be there, and it is dropped.
      by_cases hk₃ : k ≤ 3
      · obtain ⟨c₀, hc₀, -, -, hst⟩ := h.record hk₃
        obtain rfl := Option.some.inj (hc.symm.trans hc₀)
        have := hst (by omega)
        have hpos : 1 ≤ c'.status.countdown := by cases c'.status <;> decide
        omega
      · rw [h.removed (by omega)] at hc
        cases hc }

/-- What follows for an offline candidate of the waiting list that makes no call, after
    `es`: off the waiting list after one rotation, out of the validator set after two, no
    validator after three, with its record and its bond until then; after exactly three, it
    may take its bond back, and after four its record is gone. -/
structure Drains (s : State T AccountId) (a : AccountId) (es : List (Step AccountId)) : Prop where
  waiting : 1 ≤ rotations es → a ∉ ((chain T AccountId).run s es).waitingCandidates
  invulnerables : 2 ≤ rotations es → a ∉ ((chain T AccountId).run s es).invulnerables
  validators : 3 ≤ rotations es → a ∉ ((chain T AccountId).run s es).session.validators
  bond_eq : rotations es ≤ 3 → ∃ c, ((chain T AccountId).run s es).candidate? a = some c ∧
    c.bond = s.bondOf a
  unbonds : rotations es = 3 → ∃ s',
    bondCandidate (.signed a) 0 ((chain T AccountId).run s es) = .ok () s'
  removed : 4 ≤ rotations es → ((chain T AccountId).run s es).candidate? a = none

theorem drains_of_offline (hs : (chain T AccountId).Reachable s)
    (hD : s.desiredCandidates.toList ≠ []) (ha : a ∉ s.desiredCandidates)
    (hoff : (s.candidate? a).any CandidateInfo.offline) (hw : a ∈ s.waitingCandidates)
    (hes : Silent a es) : s.Drains a es := by
  obtain ⟨c, hc, hoff⟩ := (Option.any_eq_true _ _).1 hoff
  have hstart : Drained a c.bond 0 s := {
    desired := hD, notDesired := ha, starts := fun _ => hw
    waiting := by omega, invulnerables := by omega, validators := by omega
    record := fun _ => ⟨c, hc, hoff, rfl, by omega⟩, removed := by omega }
  have h := rotations_induction (P := fun _ e => ∀ call, e ≠ .signed a call)
    (Q := fun k s => Drained a c.bond k s) hs (along_of_silent hes) hstart
    (fun k s e s' hk ha he hn h => h.next hn hk ha he) fun k s hs _ h => h.rotateSession hs
  rw [Nat.zero_add] at h
  refine ⟨h.waiting, h.invulnerables, h.validators, fun hk => ?_, fun hk => ?_, h.removed⟩
  · obtain ⟨c', hc', -, hb, -⟩ := h.record hk
    exact ⟨c', hc', hb.trans (bondOf_eq hc).symm⟩
  · obtain ⟨c', hc', -⟩ := h.record hk.le
    refine ⟨_, bondCandidate_eq_ok.2 ⟨a, rfl, .bondCandidate hc' ?_ (if_neg (Nat.not_lt_zero _))⟩⟩
    rw [if_pos rfl]
    exact ⟨h.waiting (by omega), h.invulnerables (by omega), h.validators hk.ge⟩

/-! ### Offline at four rotations -/

/-- At a rotation, the account is offline, if it is registered. -/
def OfflineAtRotation (a : AccountId) (s : State T AccountId) (e : Step AccountId) : Prop :=
  e = .rotate → ∀ c, s.candidate? a = some c → c.offline

/-- Where `k` rotations have left an account that was offline at each of them. -/
structure WornDown (a : AccountId) (k : ℕ) (s : State T AccountId) : Prop where
  desired : s.desiredCandidates.toList ≠ []
  notDesired : a ∉ s.desiredCandidates
  waiting : 1 ≤ k → a ∉ s.waitingCandidates
  invulnerables : 2 ≤ k → a ∉ s.invulnerables
  countdown : k ≤ 3 → ∀ c, s.candidate? a = some c → c.status.countdown + k ≤ 4

theorem WornDown.next (hn : s.Next e s') (hk : s.UniqueKeys) (he : e ≠ .rotate)
    (h : WornDown a k s) : WornDown a k s' := by
  have hsame := hn.sameSlots he
  refine ⟨hsame.desired ▸ h.desired, hsame.desired ▸ h.notDesired, fun hk => ?_, fun hk => ?_,
    fun hk₃ c hc => ?_⟩
  · exact hsame.waiting ▸ h.waiting hk
  · exact hsame.invulnerables ▸ h.invulnerables hk
  · obtain ⟨c₀, hc₀, hst, -⟩ | ⟨-, hst⟩ := hn.status hk he hc
    · rw [hst]
      exact h.countdown hk₃ c₀ hc₀
    · -- A registration starts with one rotation to go.
      have : Status.online.countdown = 1 := rfl
      rw [hst, this]
      omega

theorem WornDown.countdown_rotateSession (hs : (chain T AccountId).Reachable s)
    (h : WornDown a k s) (hoff : ∀ c, s.candidate? a = some c → c.offline) (hk₃ : k ≤ 3)
    (hc : s.rotateSession.candidate? a = some c) : c.status.countdown + (k + 1) ≤ 4 := by
  rcases Nat.eq_zero_or_pos k with rfl | hpos
  · cases c.status <;> decide
  · have hw := h.waiting hpos
    obtain ⟨c₀, hc₀, hcount⟩ := State.countdown_rotateSession (uniqueKeys_of_reachable hs) hw
      (nextInvulnerables_eq hs h.desired ▸ hw) hc fun c hc => .inl (hoff c hc)
    have := h.countdown hk₃ c₀ hc₀
    omega

theorem WornDown.rotateSession (hs : (chain T AccountId).Reachable s) (h : WornDown a k s)
    (hoff : ∀ c, s.candidate? a = some c → c.offline) : WornDown a (k + 1) s.rotateSession := by
  have hk := uniqueKeys_of_reachable hs
  have hr := advances_rotateSession hk
  refine ⟨by rw [hr.desired]; exact h.desired, by rw [hr.desired]; exact h.notDesired,
    fun _ => ?_, fun hk₂ => ?_, fun hk₃ c hc => h.countdown_rotateSession hs hoff (by omega) hc⟩
  · exact notMem_waiting_rotateSession hk h.notDesired fun c hc => .inl (hoff c hc)
  · rw [hr.invulnerables, nextInvulnerables_eq hs h.desired]
    exact h.waiting (by omega)

theorem candidate?_eq_none_of_offline (hs : (chain T AccountId).Reachable s)
    (hD : s.desiredCandidates.toList ≠ []) (ha : a ∉ s.desiredCandidates) (h₃ : rotations es = 3)
    (hes : (chain T AccountId).Along (OfflineAtRotation a) s (es ++ [.rotate])) :
    ((chain T AccountId).run s (es ++ [.rotate])).candidate? a = none := by
  obtain ⟨hes, hlast, -⟩ := System.along_append.1 hes
  have hstart : WornDown a 0 s :=
    ⟨hD, ha, by omega, by omega, fun _ c _ => by cases c.status <;> decide⟩
  have h := rotations_induction (P := OfflineAtRotation a) (Q := fun k s => WornDown a k s)
    hs hes hstart (fun k s e s' hk _ he hn h => h.next hn hk he)
    fun k s hs hoff h => h.rotateSession hs (hoff rfl)
  rw [Nat.zero_add, h₃] at h
  -- A record left by the fourth rotation would have no rotation to go.
  by_contra hne
  obtain ⟨c, hc⟩ := Option.ne_none_iff_exists'.1 hne
  rw [System.run_append] at hc
  have := h.countdown_rotateSession (hs.run es) (hlast rfl) le_rfl hc
  have hpos : 1 ≤ c.status.countdown := by cases c.status <;> decide
  omega

/-- An account drains when it is offline: from the waiting list in four rotations, if it
    makes no call; and from wherever it is, when it is offline at four rotations. -/
structure DrainsOffline (s : State T AccountId) (a : AccountId) : Prop where
  drains : ∀ es, (s.candidate? a).any CandidateInfo.offline → a ∈ s.waitingCandidates →
    Silent a es → s.Drains a es
  removed : ∀ es, rotations es = 3 →
    (chain T AccountId).Along (OfflineAtRotation a) s (es ++ [.rotate]) →
    ((chain T AccountId).run s (es ++ [.rotate])).candidate? a = none

end State

/-- In every reachable state with desired candidates, every account that is not one of
    them drains when it is offline. -/
theorem drains_of_reachable (hs : (chain T AccountId).Reachable s)
    (hD : s.desiredCandidates.toList ≠ []) (ha : a ∉ s.desiredCandidates) : s.DrainsOffline a :=
  ⟨fun _ hoff hw hes => State.drains_of_offline hs hD ha hoff hw hes,
    fun _ h₃ hes => State.candidate?_eq_none_of_offline hs hD ha h₃ hes⟩

theorem drains_development :
    ((chain Config.runtime Keyring).run developmentState
      [.signed .bob .registerCandidate, .signed .bob (.bondCandidate (10 ^ 14)), .rotate,
        .signed .bob .offlineCandidate]).Drains .bob
        [.rotate, .signed .aliceStash (.stakeCandidate .bob (10 ^ 13)), .rotate, .rotate] :=
  (drains_of_reachable ((System.Reachable.init developmentState_mem).run _) (by decide)
    (by decide)).drains _ (by decide) (by decide) (by simp [Silent])

/-! ### Leaving -/

namespace State

/-- Where `k` rotations have left an account that has left. -/
structure Left (a : AccountId) (k : ℕ) (s : State T AccountId) : Prop where
  out : s.OutOfPipeline a
  record : ∀ c, s.candidate? a = some c → c.leaving ∧ c.status.countdown + k ≤ 3

theorem Left.next (hn : s.Next e s') (hk : s.UniqueKeys) (hr : ¬s.registers a e)
    (he : e ≠ .rotate) (h : Left a k s) : Left a k s' := by
  have hsame := hn.sameSlots he
  refine ⟨?_, fun c hc => ?_⟩
  · rw [OutOfPipeline, hsame.waiting, hsame.invulnerables, hsame.validators]
    exact h.out
  · obtain ⟨c₀, hc₀, hst, hl⟩ | ⟨hreg, -⟩ := hn.status hk he hc
    · obtain ⟨hl₀, hcount⟩ := h.record c₀ hc₀
      exact ⟨hl hl₀, hst ▸ hcount⟩
    · exact absurd hreg hr

theorem Left.rotateSession (hs : (chain T AccountId).Reachable s) (h : Left a k s) :
    Left a (k + 1) s.rotateSession := by
  have hk := uniqueKeys_of_reachable hs
  have hr := advances_rotateSession hk
  obtain ⟨hw, hi, hv⟩ := h.out
  have hnext := notMem_nextInvulnerables hw hi
  have hout : ∀ c, s.candidate? a = some c → c.OutOfRunning := fun c hc =>
    .inr (.inl (h.record c hc).1)
  refine ⟨⟨?_, ?_, ?_⟩, fun c hc => ?_⟩
  · exact notMem_waiting_rotateSession hk (fun hd => hw ((desired_of_reachable hs).subset hd)) hout
  · rwa [hr.invulnerables]
  · rw [hr.validators]
    exact fun hq => hi ((pipeline_of_reachable hs).queued a hq)
  · obtain ⟨c₀, hc₀, hcount⟩ := countdown_rotateSession hk hw hnext hc hout
    rw [candidate?_rotateSession hk, hc₀] at hc
    obtain ⟨hl, hle⟩ := h.record c₀ hc₀
    exact ⟨(flags_of_rotateCandidate hc).1 ▸ hl, by omega⟩

end State

/-- Once a candidate has left, it is on none of the lists until it has registered again,
    whatever happens; and its record is dropped at the third rotation at the latest. -/
theorem leaves_for_good (hs : (chain T AccountId).Reachable s)
    (h : leaveCandidate (.signed a) s = .ok () s')
    (hes : (chain T AccountId).Along (fun s e => ¬s.registers a e) s' es) :
    ((chain T AccountId).run s' es).OutOfPipeline a ∧
      (3 ≤ rotations es → ((chain T AccountId).run s' es).candidate? a = none) := by
  obtain ⟨who, ho, he⟩ := leaveCandidate_eq_ok.1 h
  cases ho
  have hk := uniqueKeys_of_reachable hs
  have hs' : (chain T AccountId).Reachable s' := reachable_of_code hs .leaveCandidate h
  have hstart : State.Left a 0 s' := by
    have hf := he.frame
    refine ⟨?_, fun c hc => ?_⟩
    · rw [State.OutOfPipeline, hf.waitingCandidates, hf.invulnerables, hf.session]
      cases he with
      | leaveCandidate _ _ hout => exact hout
    · rw [he.candidate? hk] at hc
      obtain ⟨c₀, -, rfl⟩ := Option.map_eq_some_iff.1 ((if_pos rfl).symm.trans hc)
      exact ⟨rfl, by cases c₀.status <;> decide⟩
  have hleft := rotations_induction (P := fun s e => ¬s.registers a e)
    (Q := fun k s => State.Left a k s) hs' hes hstart
    (fun k s e s' hk hr he hn h => h.next hn hk hr he) fun k s hs _ h => h.rotateSession hs
  refine ⟨hleft.out, fun h₃ => ?_⟩
  by_contra hne
  obtain ⟨c, hc⟩ := Option.ne_none_iff_exists'.1 hne
  have := (hleft.record c hc).2
  have hpos : 1 ≤ c.status.countdown := by cases c.status <;> decide
  omega

/-- A validator has drained and leaves: coming back online and bonding does not help it. -/
theorem leaves_for_good_development :
    let s := (chain Config.runtime Keyring).run developmentState
      [.tx (.sessionKeys fun _ => true), .signed .bob .registerCandidate,
        .signed .bob (.bondCandidate (10 ^ 14)), .rotate, .rotate, .rotate,
        .signed .bob .offlineCandidate, .rotate, .rotate, .rotate]
    let s' := s.step (.signed .bob .leaveCandidate)
    let es := [.signed .bob .onlineCandidate, .signed .bob (.bondCandidate (2 * 10 ^ 14)), .rotate,
      .rotate, .rotate]
    (s'.candidate? .bob).any CandidateInfo.leaving ∧
      ((chain Config.runtime Keyring).run s' es).OutOfPipeline .bob ∧
      ((chain Config.runtime Keyring).run s' es).candidate? .bob = none := by
  intro s s' es
  have hs : (chain Config.runtime Keyring).Reachable s :=
    (System.Reachable.init developmentState_mem).run _
  have hleave : leaveCandidate (.signed .bob) s = .ok () s' :=
    State.code_of_succeeds .leaveCandidate (by decide +kernel)
  have hes : (chain Config.runtime Keyring).Along (fun s e => ¬s.registers .bob e) s' es := by
    simp [es, System.Along, State.registers]
  obtain ⟨hout, hgone⟩ := leaves_for_good hs hleave hes
  exact ⟨by decide +kernel, hout, hgone (by decide)⟩

end Xode.Staking
