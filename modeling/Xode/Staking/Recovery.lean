import Xode.Staking.Balances
import Xode.Staking.Departures

/-!
# Recovering a reserve

A rotation that drops a record leaves its bond in the reserve of the account, with nothing
recorded for it. No such reserve is out of reach for good. By calls of its own and as many
rotations as it takes, an account that is not desired gets any part of its reserve back, from
any reachable state in which it has a record or there is room for one
(`recovers_of_reachable`).

A candidate steps down and waits for four rotations to drop its record, which makes room for
a new one. A fresh record is off all lists: offline, it may be corrected by any amount.
-/

namespace Xode.Staking

variable {T : Config} {AccountId : Type} [DecidableEq AccountId]
  {s s' s₀ : State T AccountId} {a who : AccountId} {es : List (Step AccountId)} {v : ℕ}

/-- The steps are rotations, and calls of the account. -/
def OwnSteps (a : AccountId) (es : List (Step AccountId)) : Prop :=
  ∀ e ∈ es, e = .rotate ∨ ∃ call, e = .signed a call

namespace State

/-- By its own calls and rotations, the account gets `v` of its reserve back. -/
def Recovers (s : State T AccountId) (a : AccountId) (v : ℕ) : Prop :=
  ∃ es, OwnSteps a es ∧
    ((chain T AccountId).run s es).reservedOf a + v = s.reservedOf a ∧
    ((chain T AccountId).run s es).freeOf a = s.freeOf a + v

/-! ### Off the lists -/

/-- An account without a record is on none of the lists, unless it is desired. -/
theorem outOfPipeline_of_none (hs : (chain T AccountId).Reachable s) (hd : a ∉ s.desiredCandidates)
    (hc : s.candidate? a = none) : s.OutOfPipeline a := by
  have hp := pipeline_of_reachable hs
  have hnone (l : List Status) : ¬s.Holds a l := by
    rintro ⟨c, hc', -⟩
    rw [hc] at hc'
    cases hc'
  exact ⟨fun h => hnone _ (hp.waiting a h hd), fun h => hnone _ (hp.invulnerables a h hd),
    fun h => hnone _ (hp.validators a h hd)⟩

omit [DecidableEq AccountId] in
theorem Frame.outOfPipeline (h : s.Frame s') (ha : s.OutOfPipeline a) : s'.OutOfPipeline a :=
  ⟨h.waitingCandidates ▸ ha.1, h.invulnerables ▸ ha.2.1, h.session ▸ ha.2.2⟩

/-- Registering, stepping down and correcting the bond takes any amount out of the reserve. -/
theorem recovers_of_none (hs : (chain T AccountId).Reachable s) (hd : a ∉ s.desiredCandidates)
    (hc : s.candidate? a = none) (hroom : s.proposedCandidates.toList.length < T.maxCandidates)
    (hv : v ≤ s.reservedOf a) : s.Recovers a v := by
  obtain ⟨s₁, h₁⟩ := exists_register_iff.2 ⟨hc, hroom⟩
  have hk := uniqueKeys_of_reachable hs
  have hk₁ := h₁.uniqueKeys hk
  have hc₁ : s₁.candidate? a = some (.fresh a s₁.blockNumber) :=
    (h₁.candidate? hk a).trans (if_pos rfl)
  obtain ⟨s₂, h₂⟩ : ∃ s₂, Effect s₁ a .offlineCandidate s₂ := ⟨_, .offlineCandidate hc₁⟩
  have hc₂ : s₂.candidate? a = some { CandidateInfo.fresh a s₁.blockNumber with
      offline := true, lastUpdated := s₂.blockNumber } := by
    rw [h₂.candidate? hk₁ a, hc₁]
    exact if_pos rfl
  have hout : s₂.OutOfPipeline a :=
    h₂.frame.outOfPipeline (h₁.frame.outOfPipeline (outOfPipeline_of_none hs hd hc))
  obtain ⟨s₃, h₃⟩ : ∃ s₃, Effect s₂ a (.bondCorrection v) s₃ := ⟨_, .bondCorrection hc₂ rfl hout⟩
  refine ⟨[.signed a .registerCandidate, .signed a .offlineCandidate,
    .signed a (.bondCorrection v)], ?_, ?_⟩
  · intro e he
    simp only [List.mem_cons, List.not_mem_nil, or_false] at he
    rcases he with rfl | rfl | rfl <;> exact .inr ⟨_, rfl⟩
  -- Only the correction touches the reserve.
  · have hr₁ : s₁.reservedOf a = s.reservedOf a := (h₁.books hk).2.2.2
    have hr₂ : s₂.reservedOf a = s₁.reservedOf a := (h₂.books hk₁).2.2.2
    have hr₃ : s₃.reservedOf a = s₂.reservedOf a - v := (h₃.books (h₂.uniqueKeys hk₁)).2.2.2
    have ht₁ := h₁.total (a := a)
    have ht₂ := h₂.total (a := a)
    have ht₃ := h₃.total (a := a)
    have hrun : (chain T AccountId).run s [.signed a .registerCandidate,
        .signed a .offlineCandidate, .signed a (.bondCorrection v)] = s₃ := by
      rw [System.run_cons, System.run_cons, System.run_cons, System.run_nil]
      rw [h₁.step_eq, h₂.step_eq, h₃.step_eq]
    rw [hrun]
    exact ⟨by omega, by omega⟩

/-! ### Waiting for the record to go -/

/-- What rotations leave of the storage `s₀`, in which the account is offline. -/
structure Waits (s₀ : State T AccountId) (a : AccountId) (s : State T AccountId) : Prop where
  reserved : s.reservedOf a = s₀.reservedOf a
  free : s.freeOf a = s₀.freeOf a
  registered : ∀ b, (s.candidate? b).isSome → (s₀.candidate? b).isSome
  offline : ∀ c, s.candidate? a = some c → c.offline
  desired : s.desiredCandidates = s₀.desiredCandidates

theorem Waits.rotateSession (hk : s.UniqueKeys) (h : s₀.Waits a s) :
    s₀.Waits a s.rotateSession where
  reserved := (reservedOf_rotateSession hk).trans h.reserved
  free := by
    obtain ⟨p, w, hr, -⟩ := rotateSession_eq hk
    rw [hr]
    exact h.free
  registered b hb := by
    rw [candidate?_rotateSession hk] at hb
    refine h.registered b ?_
    cases hc : s.candidate? b with
    | none => rw [hc] at hb; cases hb
    | some c => rfl
  offline c hc := by
    rw [candidate?_rotateSession hk] at hc
    obtain ⟨c₀, hc₀, hr⟩ := Option.bind_eq_some_iff.1 hc
    exact (flags_of_rotateCandidate hr).2 (h.offline c₀ hc₀)
  desired := (advances_rotateSession hk).desired.trans h.desired

/-- An account that is offline stays so over rotations. -/
theorem Waits.rotations (n : ℕ) (hs : (chain T AccountId).Reachable s) (h : s₀.Waits a s) :
    s₀.Waits a ((chain T AccountId).run s (List.replicate n .rotate)) ∧
      (chain T AccountId).Along (OfflineAtRotation a) s (List.replicate n .rotate) := by
  induction n generalizing s with
  | zero => exact ⟨h, trivial⟩
  | succ n ih =>
    have hk := uniqueKeys_of_reachable hs
    obtain ⟨hend, hoff⟩ := ih (reachable_rotateSession hs) (h.rotateSession hk)
    rw [List.replicate_succ, System.run_cons]
    exact ⟨hend, fun _ => h.offline, hoff⟩

/-- A record that is gone leaves room for another one. -/
theorem length_lt_of_gone (hk : s.UniqueKeys)
    (hsub : ∀ b, (s.candidate? b).isSome → (s₀.candidate? b).isSome)
    (ha : (s₀.candidate? a).isSome) (ha' : s.candidate? a = none) :
    s.proposedCandidates.toList.length < s₀.proposedCandidates.toList.length := by
  have hmem (s : State T AccountId) (b : AccountId) :
      (s.candidate? b).isSome ↔ b ∈ s.proposedCandidates.toList.map CandidateInfo.who :=
    findKey_isSome
  have hnodup : (a :: s.proposedCandidates.toList.map CandidateInfo.who).Nodup :=
    List.nodup_cons.2 ⟨findKey_eq_none.1 ha', hk⟩
  have hsubset : a :: s.proposedCandidates.toList.map CandidateInfo.who ⊆
      s₀.proposedCandidates.toList.map CandidateInfo.who := by
    intro b hb
    rcases List.mem_cons.1 hb with rfl | hb
    · exact (hmem s₀ b).1 ha
    · exact (hmem s₀ b).1 (hsub b ((hmem s b).2 hb))
  have hle := (List.subperm_of_subset hnodup hsubset).length_le
  rw [List.length_cons, List.length_map, List.length_map] at hle
  exact hle

theorem recovers_of_isSome (hs : (chain T AccountId).Reachable s)
    (hD : s.desiredCandidates.toList ≠ []) (hd : a ∉ s.desiredCandidates)
    (hc : (s.candidate? a).isSome) (hv : v ≤ s.reservedOf a) : s.Recovers a v := by
  obtain ⟨c, hc⟩ := Option.isSome_iff_exists.1 hc
  have hk := uniqueKeys_of_reachable hs
  obtain ⟨s₁, h₁⟩ : ∃ s₁, Effect s a .offlineCandidate s₁ := ⟨_, .offlineCandidate hc⟩
  have hs₁ : (chain T AccountId).Reachable s₁ := h₁.step_eq ▸ hs.step _
  have hc₁ : s₁.candidate? a =
      some { c with offline := true, lastUpdated := s₁.blockNumber } := by
    rw [h₁.candidate? hk a, hc]
    exact if_pos rfl
  have hwaits : s₁.Waits a s₁ :=
    ⟨rfl, rfl, fun _ h => h, fun c' hc' => by rw [hc₁] at hc'; cases hc'; rfl, rfl⟩
  -- Four rotations drop the record.
  obtain ⟨hend, halong⟩ := hwaits.rotations 4 hs₁
  have hd₁ : s₁.desiredCandidates = s.desiredCandidates := h₁.frame.desiredCandidates
  rw [List.replicate_succ'] at halong
  have hgone := candidate?_eq_none_of_offline hs₁ (by rw [hd₁]; exact hD)
    (by rw [hd₁]; exact hd) rfl halong
  have hs₂ := hs₁.run (List.replicate 4 Step.rotate)
  have hroom := length_lt_of_gone (uniqueKeys_of_reachable hs₂) hend.registered
    (by rw [hc₁]; rfl) hgone
  have hr₁ : s₁.reservedOf a = s.reservedOf a := (h₁.books hk).2.2.2
  have ht₁ := h₁.total (a := a)
  have hf₁ : s₁.freeOf a = s.freeOf a := by omega
  obtain ⟨es, hown, hres, hfree⟩ := recovers_of_none (v := v) hs₂
    (by rw [hend.desired, hd₁]; exact hd) hgone
    (hroom.trans_le s₁.proposedCandidates.length_le) (by rw [hend.reserved, hr₁]; exact hv)
  refine ⟨Step.signed a .offlineCandidate :: List.replicate 4 Step.rotate ++ es,
    fun e he => ?_, ?_⟩
  · rw [List.cons_append, List.mem_cons, List.mem_append] at he
    rcases he with rfl | he | he
    · exact .inr ⟨_, rfl⟩
    · exact .inl (List.eq_of_mem_replicate he)
    · exact hown e he
  · rw [List.cons_append, System.run_cons, System.run_append, h₁.step_eq]
    exact ⟨hres.trans (hend.reserved.trans hr₁), by rw [hfree, hend.free, hf₁]⟩

end State

/-- In every reachable state with desired candidates, an account that is not one of them
    can get any part of its reserve back by its own calls and rotations, if it has a record
    or there is room for one. -/
theorem recovers_of_reachable (hs : (chain T AccountId).Reachable s)
    (hD : s.desiredCandidates.toList ≠ []) (hd : a ∉ s.desiredCandidates)
    (hroom : (s.candidate? a).isSome ∨ s.proposedCandidates.toList.length < T.maxCandidates)
    (hv : v ≤ s.reservedOf a) : s.Recovers a v := by
  by_cases hc : (s.candidate? a).isSome
  · exact State.recovers_of_isSome hs hD hd hc hv
  · exact State.recovers_of_none hs hd (Option.not_isSome_iff_eq_none.1 hc)
      (hroom.resolve_left hc) hv

/-- Bob went offline, and a rotation dropped his record. He still gets his bond back. -/
theorem recovers_development :
    let s := (chain Config.runtime Keyring).run developmentState
      [.signed .bob .registerCandidate, .signed .bob (.bondCandidate (10 ^ 14)),
        .signed .bob .offlineCandidate, .rotate]
    s.candidate? .bob = none ∧ s.Recovers .bob (10 ^ 14) :=
  ⟨by decide, recovers_of_reachable ((System.Reachable.init developmentState_mem).run _)
    (by decide) (by decide) (.inr (by decide)) (by decide)⟩

end Xode.Staking
