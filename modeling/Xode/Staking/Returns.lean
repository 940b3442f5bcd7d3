import Xode.Staking.Departures

/-!
# Stepping down, and coming back

An offline candidate is out of the running, so the rotations take its record back step
by step, and drop it at the end of the pipeline; from there it cannot come back online.
Until then its bond stays, and so does the stake recorded for it, but for what others
stake and withdraw behind it.

So stepping down is temporary, and nothing is lost by it, exactly when no rotation on
the way finds the candidate at the end of the pipeline, and the stake recorded for it was
right before, or has been recomputed since (`comesBack_iff`).
-/

namespace Xode.Staking

variable {T : Config} {AccountId : Type} [DecidableEq AccountId]
  {s s' : State T AccountId} {a : AccountId} {c : CandidateInfo AccountId} {bond : ℕ}
  {e : Step AccountId} {es : List (Step AccountId)}

namespace State

/-- The account comes back online, with the given bond, and its recorded stake is the sum
    of the delegations behind it. -/
def ComesBack (s : State T AccountId) (a : AccountId) (bond : ℕ) : Prop :=
  ∃ s' c, onlineCandidate (.signed a) s = .ok () s' ∧ s'.candidate? a = some c ∧ c.bond = bond ∧
    c.totalStake = s'.totalDelegated a

/-- The step is a successful call that writes the delegations behind `a`. -/
def restakes (s : State T AccountId) (a : AccountId) : Step AccountId → Bool
  | .tx (.call (.signed who) call) => call.restakes a && s.succeeds (.signed who call)
  | _ => false

/-- A rotation finds the candidate authoring, queuing, or waiting on the waiting list. -/
def OnTheWay (a : AccountId) (s : State T AccountId) (e : Step AccountId) : Prop :=
  e = .rotate → ∀ c ∈ s.candidate? a,
    c.status = .queuing ∨ c.status = .authoring ∨ c.status = .waiting ∧ a ∈ s.waitingCandidates

/-- Coming back takes a record, with the bond, and with the right stake recorded. -/
theorem comesBack_iff_record (hk : s.UniqueKeys) :
    s.ComesBack a bond ↔
      (∃ c, s.candidate? a = some c ∧ c.bond = bond) ∧ s.RecordsStake a := by
  have hrec {s' : State T AccountId} (he : Effect s a .onlineCandidate s') :
      s'.candidate? a = (s.candidate? a).map fun c =>
        { c with offline := false, lastUpdated := s'.blockNumber } :=
    (he.candidate? hk a).trans (if_pos rfl)
  have hstake {s' : State T AccountId} (he : Effect s a .onlineCandidate s') :
      s'.RecordsStake a ↔ s.RecordsStake a := by
    rw [he.recordsStake_iff hk (by simp)]
    simp [Call.restakes]
  constructor
  · rintro ⟨s', c, h, hc, hb, hst⟩
    obtain ⟨who, ho, he⟩ := onlineCandidate_eq_ok.1 h
    cases ho
    have hst' : s'.RecordsStake a := fun c' hc' => Option.some.inj (hc.symm.trans hc') ▸ hst
    obtain ⟨c₀, hc₀, rfl⟩ := Option.map_eq_some_iff.1 ((hrec he).symm.trans hc)
    exact ⟨⟨c₀, hc₀, hb⟩, (hstake he).1 hst'⟩
  · rintro ⟨⟨c, hc, hb⟩, hst⟩
    have he : Effect s a .onlineCandidate _ := .onlineCandidate hc
    have hc' := (hrec he).trans (by rw [hc, Option.map_some])
    exact ⟨_, _, onlineCandidate_eq_ok.2 ⟨a, rfl, he⟩, hc', hb, (hstake he).2 hst _ hc'⟩

theorem restakes_iff : s.restakes a e ↔
    ∃ who call, e = .signed who call ∧ call.restakes a ∧ ∃ s', Effect s who call s' := by
  refine ⟨fun h => ?_, ?_⟩
  · unfold restakes at h
    split at h
    · rw [Bool.and_eq_true, succeeds_signed] at h
      exact ⟨_, _, rfl, h⟩
    · cases h
  · rintro ⟨who, call, rfl, h⟩
    rw [restakes, Bool.and_eq_true, succeeds_signed]
    exact h

/-- A step of others that keeps the stake recorded for `a` leaves it right, or not, unless
    it recomputes it. -/
theorem Next.recordsStake_iff (hn : s.Next e s') (hk : s.UniqueKeys)
    (ha : ∀ call, e ≠ .signed a call)
    (hc : s.restakes a e = false → (s'.candidate? a).map CandidateInfo.totalStake =
      (s.candidate? a).map CandidateInfo.totalStake) :
    s'.RecordsStake a ↔ s.restakes a e ∨ s.RecordsStake a := by
  by_cases hr : s.restakes a e
  · obtain ⟨who, call, rfl, hcall, s'', h''⟩ := restakes_iff.1 hr
    cases hn with
    | call h =>
      rw [h.recordsStake_iff hk fun hreg hw => ha call (hw ▸ rfl)]
      simp [hr, hcall]
    | failed hfail => exact absurd h'' (hfail who s'' rfl)
    | other hcall => exact absurd rfl (hcall _ _)
  · rw [or_iff_right hr]
    obtain ⟨who, call, rfl, h⟩ | hd := hn.delegations_eq hk
    · rw [h.recordsStake_iff hk fun hreg hw => ha call (hw ▸ rfl), or_iff_right]
      exact fun hcall => hr (restakes_iff.2 ⟨who, call, rfl, hcall, s', h⟩)
    · exact RecordsStake.congr (delegationsOf_congr hd a) (hc (by simpa using hr))

/-- A step of others keeps the record of a candidate on its way, and its bond, and leaves
    the stake recorded alone, unless it recomputes it. -/
theorem Next.keeps (hn : s.Next e s') (hk : s.UniqueKeys) (ha : ∀ call, e ≠ .signed a call)
    (hway : OnTheWay a s e) (hc : s.candidate? a = some c) :
    (∃ c', s'.candidate? a = some c' ∧ c'.bond = c.bond ∧ (c.offline → c'.offline)) ∧
      (s'.RecordsStake a ↔ s.restakes a e ∨ s.RecordsStake a) := by
  by_cases he : e = .rotate
  · subst he
    cases hn
    obtain ⟨c', hc', hb⟩ := rotateCandidate_of_status (s := s) (c := c) (by
      rw [who_candidate? hc]; exact hway rfl c hc)
    have hrec : s.rotateSession.candidate? a = some c' := by
      rw [candidate?_rotateSession hk, hc]
      exact hc'
    refine ⟨⟨c', hrec, hb, (flags_of_rotateCandidate hc').2⟩, ?_⟩
    refine Next.rotate.recordsStake_iff hk ha fun _ => ?_
    obtain ⟨_, _, _, rfl⟩ := rotateCandidate_eq_some hc'
    rw [hrec, hc]
    rfl
  · obtain ⟨totalStake, _, _, hc', hst⟩ := hn.candidate?_of_silent hk he ha hc
    refine ⟨⟨_, hc', rfl, id⟩, hn.recordsStake_iff hk ha fun hr => ?_⟩
    rw [hc', hc]
    refine congrArg some (hst.resolve_right ?_)
    rintro ⟨who, call, rfl, hcall, h⟩
    simp [restakes_iff.2 ⟨who, call, rfl, hcall, s', h⟩] at hr

/-- On its way, the record of an offline candidate keeps its bond and stays offline, and
    the stake recorded is right in the end if it was, or has been recomputed; and if it
    gets to the end of the pipeline, it is gone. -/
theorem run_keeps_iff (hs : (chain T AccountId).Reachable s) (hes : Silent a es)
    (hc : s.candidate? a = some c) (hoff : c.offline) :
    ((∃ c', ((chain T AccountId).run s es).candidate? a = some c' ∧ c'.bond = c.bond) ∧
        ((chain T AccountId).run s es).RecordsStake a) ↔
      (chain T AccountId).Along (OnTheWay a) s es ∧
        (s.RecordsStake a ∨ (chain T AccountId).Sometime (fun s e => s.restakes a e) s es) := by
  induction es generalizing s c with
  | nil =>
    exact ⟨fun h => ⟨trivial, .inl h.2⟩, fun h => ⟨⟨c, hc, rfl⟩, h.2.resolve_right id⟩⟩
  | cons e es ih =>
    have hk := uniqueKeys_of_reachable hs
    have ha := hes e List.mem_cons_self
    have hes' : Silent a es := fun x hx => hes x (List.mem_cons_of_mem _ hx)
    have hn := s.next_step e
    by_cases hway : OnTheWay a s e
    · obtain ⟨⟨c', hc', hb, hoff'⟩, hst⟩ := hn.keeps hk ha hway hc
      have hst' : ((chain T AccountId).step s e).RecordsStake a ↔
          s.restakes a e ∨ s.RecordsStake a := hst
      rw [System.run_cons, ← hb, ih (hs.step e) hes' hc' (hoff' hoff), System.sometime_cons, hst',
        or_assoc, or_left_comm]
      exact and_congr_left' (and_iff_right hway).symm
    · -- At the end of the pipeline, the record is dropped, and nobody else makes a new one.
      refine iff_of_false ?_ fun h => hway h.1.1
      rintro ⟨⟨c', hc', -⟩, -⟩
      obtain ⟨rfl, hst⟩ := Classical.not_imp.1 hway
      have hdrop : s.Drops c := by
        refine ⟨.inl (.inl hoff), ?_⟩
        by_contra hd
        refine hst fun c₀ hc₀ => ?_
        obtain rfl := Option.some.inj (hc.symm.trans hc₀)
        rw [who_candidate? hc] at hd
        cases hcs : c.status <;> simp [hcs] at hd ⊢
        exact hd
      have hnone : s.rotateSession.candidate? a = none := by
        rw [candidate?_rotateSession hk, hc, Option.bind_some, rotateCandidate_eq_none.2 hdrop]
      have hrun := run_induction_of_reachable (Q := fun s => s.candidate? a = none)
        (reachable_rotateSession hs) hnone fun s e he s' hk hn h =>
          hn.candidate?_eq_none hk (hes' e he) h
      have hstep : (chain T AccountId).step s .rotate = s.rotateSession := rfl
      rw [System.run_cons, hstep, hrun] at hc'
      cases hc'

end State

/-- A candidate that steps down can come back online after any steps of others, with its
    bond and with the stake recorded that is delegated behind it, exactly when every
    rotation on the way finds it on its way through the pipeline, and the stake recorded
    was right before, or has been recomputed since. -/
theorem comesBack_iff (hs : (chain T AccountId).Reachable s)
    (h : offlineCandidate (.signed a) s = .ok () s') (hes : Silent a es) :
    ((chain T AccountId).run s' es).ComesBack a (s.bondOf a) ↔
      (chain T AccountId).Along (State.OnTheWay a) s' es ∧
        (s.RecordsStake a ∨
          (chain T AccountId).Sometime (fun s e => s.restakes a e) s' es) := by
  obtain ⟨who, ho, he⟩ := offlineCandidate_eq_ok.1 h
  cases ho
  have hk := uniqueKeys_of_reachable hs
  have hs' : (chain T AccountId).Reachable s' := reachable_of_code hs .offlineCandidate h
  have hst : s'.RecordsStake a ↔ s.RecordsStake a := by
    rw [he.recordsStake_iff hk (by simp)]
    simp [Call.restakes]
  obtain ⟨c', hc', hoff, hb⟩ : ∃ c', s'.candidate? a = some c' ∧ c'.offline ∧
      c'.bond = s.bondOf a := by
    have hc' := (he.candidate? hk a).trans (if_pos rfl)
    cases he with
    | offlineCandidate hc =>
      rw [hc] at hc'
      exact ⟨_, hc', rfl, (State.bondOf_eq hc).symm⟩
  rw [State.comesBack_iff_record (uniqueKeys_of_reachable (hs'.run es)), ← hst, ← hb]
  exact State.run_keeps_iff hs' hes hc' hoff

/-- From the waiting list, a candidate can come back after a rotation. -/
theorem comesBack_waiting :
    let s := (chain Config.runtime Keyring).run developmentState
      [.signed .bob .registerCandidate, .signed .bob (.bondCandidate (10 ^ 14)), .rotate]
    let s' := s.step (.signed .bob .offlineCandidate)
    ((chain Config.runtime Keyring).run s'
      [.rotate, .signed .aliceStash (.stakeCandidate .bob (10 ^ 13))]).ComesBack .bob
        (s.bondOf .bob) :=
  (comesBack_iff (a := .bob) (s := (chain Config.runtime Keyring).run developmentState
    [.signed .bob .registerCandidate, .signed .bob (.bondCandidate (10 ^ 14)), .rotate])
    ((System.Reachable.init developmentState_mem).run _)
    (State.code_of_succeeds .offlineCandidate (by decide)) (by simp [Silent])).2
    ⟨⟨fun _ => by decide, by simp [State.OnTheWay], trivial⟩, .inr (by decide)⟩

/-- A candidate that has not been put on the waiting list yet is dropped at the next
    rotation after it steps down. -/
theorem not_comesBack_online :
    let s := (chain Config.runtime Keyring).run developmentState
      [.signed .bob .registerCandidate, .signed .bob (.bondCandidate (10 ^ 14))]
    let s' := s.step (.signed .bob .offlineCandidate)
    (chain Config.runtime Keyring).Reachable s ∧
      offlineCandidate (.signed .bob) s = .ok () s' ∧ Silent Keyring.bob [.rotate] ∧
      ¬((chain Config.runtime Keyring).run s' [.rotate]).ComesBack .bob (s.bondOf .bob) := by
  refine ⟨(System.Reachable.init developmentState_mem).run _,
    State.code_of_succeeds .offlineCandidate (by decide), by simp [Silent], ?_⟩
  rintro ⟨s'', c, h, -⟩
  obtain ⟨who, ho, he⟩ := onlineCandidate_eq_ok.1 h
  cases ho
  cases he with
  | onlineCandidate hc => exact absurd (Option.isSome_of_eq_some hc) (by decide)

end Xode.Staking
