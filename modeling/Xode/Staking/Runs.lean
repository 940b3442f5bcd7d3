import Xode.Staking.Rotation

/-!
# Runs of the chain

What a step of the chain can do, whatever it is (`State.Next`): a call with its
effect, a transaction that leaves the pallet's storage alone, the start of a
block, or a rotation. Invariants are proved by cases on it, from the genesis
state (`genesis_eq`) on.

The first of them: in every reachable state, the records are of distinct
accounts (`uniqueKeys_of_reachable`).
-/

namespace Xode.Staking

variable {T : Config} {AccountId : Type} [DecidableEq AccountId]
  {s s' : State T AccountId} {a who : AccountId}

/-! ### Genesis -/

/-- The genesis state for the desired candidates `d`: they hold every slot, and there
    are no records, no delegations and no reserves. -/
def Genesis.stateOf (g : Genesis T AccountId) (d : BoundedVec AccountId T.maxCandidates) :
    State T AccountId :=
  { g.storage with
    desiredCandidates := d, invulnerables := d, waitingCandidates := d
    session :=
      { validators := d.toList, queued := d.toList.filter g.hasKeys, hasKeys := g.hasKeys } }

theorem genesis_eq {g : Genesis T AccountId} (h : g.state = some s) :
    ∃ d : BoundedVec AccountId T.maxCandidates,
      d.toList = g.staking.desiredCandidates ∧ s = g.stateOf d := by
  rw [Genesis.state, GenesisConfig.build, Option.map_map, Option.map_eq_some_iff] at h
  obtain ⟨d, hd, rfl⟩ := h
  refine ⟨d, BoundedVec.tryFrom_eq_some.1 hd, ?_⟩
  -- Asking for the first validators sets statuses of records, of which there are none.
  have hsession (s : State T AccountId) (hs : s.proposedCandidates.toList = []) :
      s.newSession = (some s.invulnerables.toList, s) := by
    obtain ⟨p, hp, hpl⟩ := State.newSession_eq (s := s) (by simp [State.UniqueKeys, hs])
    have : p = s.proposedCandidates := BoundedVec.ext (by rw [hpl, hs]; rfl)
    rw [hp, this]
  rw [Function.comp_apply, State.sessionGenesis]
  rw [hsession _ (by rfl)]
  simp only
  rw [hsession _ (by rfl)]
  rfl

theorem genesis_cases (h : s ∈ (chain T AccountId).init) :
    ∃ (g : Genesis T AccountId) (d : BoundedVec AccountId T.maxCandidates), s = g.stateOf d := by
  obtain ⟨g, hg⟩ := h
  obtain ⟨d, -, h⟩ := genesis_eq hg
  exact ⟨g, d, h⟩

/-! ### Steps -/

namespace State

/-- What the start of a block touches. -/
theorem startBlock_eq (s : State T AccountId) (index : Option ℕ) :
    ∃ p actualAuthors, s.startBlock index =
      { s with
        blockNumber := s.blockNumber + 1, events := []
        proposedCandidates := p, actualAuthors } := by
  obtain ⟨actualAuthors, h⟩ :=
    onInitialize_eq { s with blockNumber := s.blockNumber + 1, events := [] } (s.findAuthor index)
  exact ⟨_, actualAuthors, h⟩

theorem candidate?_startBlock {index : Option ℕ} :
    (s.startBlock index).candidate? a =
      if s.findAuthor index = some a then
        (s.candidate? a).map fun c => { c with lastAuthored := s.blockNumber + 1 }
      else s.candidate? a := candidate?_onInitialize

/-- A record after the start of a block was there before, but for the block it last
    authored. -/
theorem exists_of_candidate?_startBlock {index : Option ℕ} {c : CandidateInfo AccountId}
    (hc : (s.startBlock index).candidate? a = some c) :
    ∃ c₀ lastAuthored, s.candidate? a = some c₀ ∧ c = { c₀ with lastAuthored } := by
  rw [candidate?_startBlock] at hc
  split at hc
  · obtain ⟨c₀, hc₀, rfl⟩ := Option.map_eq_some_iff.1 hc
    exact ⟨c₀, _, hc₀, rfl⟩
  · exact ⟨c, c.lastAuthored, hc, rfl⟩

/-- What a step of the chain does to the storage. -/
inductive Next (s : State T AccountId) : Step AccountId → State T AccountId → Prop
  /-- A successful call. -/
  | call {who : AccountId} {call : Call AccountId} {s' : State T AccountId} :
      Effect s who call s' → Next s (.tx (.call (.signed who) call)) s'
  /-- A failed call. -/
  | failed {origin : RawOrigin AccountId} {call : Call AccountId} :
      (∀ who s', origin = .signed who → ¬Effect s who call s') →
      Next s (.tx (.call origin call)) s
  /-- A transaction of another pallet, which reserves nothing. -/
  | other {tx : Tx AccountId} {currency : Ledger AccountId T.maxBalance}
      {hasKeys : AccountId → Bool} :
      (∀ origin call, tx ≠ .call origin call) →
      (∀ a, currency.reservedBalance a = s.currency.reservedBalance a) →
      Next s (.tx tx) { s with currency, session := { s.session with hasKeys } }
  | block (index : Option ℕ) : Next s (.block index) (s.startBlock index)
  | rotate : Next s .rotate s.rotateSession

theorem next_step (s : State T AccountId) (e : Step AccountId) : s.Next e (s.step e) := by
  cases e with
  | tx tx =>
    cases tx with
    | call origin call =>
      rcases h : call.code origin s with ⟨u, s'⟩ | ⟨d, s'⟩
      · obtain ⟨who, rfl, he⟩ := code_eq_ok.1 h
        have : s.step (.tx (.call (.signed who) call)) = s' := dispatch_of_ok h
        exact this ▸ .call he
      · have : s.step (.tx (.call origin call)) = s := by
          simp only [step, exec, dispatch, h]
        rw [this]
        -- A call with an effect would have succeeded.
        refine .failed fun who s'' ho he => ?_
        rw [code_eq_ok.2 ⟨who, ho, he⟩] at h
        cases h
    | deposit who value => exact .other (by simp) fun a => Ledger.reservedBalance_deposit
    | withdraw who value => exact .other (by simp) fun a => Ledger.reservedBalance_withdraw
    | grants grants => exact .other (by simp) fun a => rfl
    | sessionKeys hasKeys => exact .other (by simp) fun a => rfl
  | block index => exact .block index
  | rotate => exact .rotate

theorem Next.uniqueKeys {e : Step AccountId} (h : s.Next e s') (hk : s.UniqueKeys) :
    s'.UniqueKeys := by
  cases h with
  | call h => exact h.uniqueKeys hk
  | failed | other => exact hk
  | block index => exact uniqueKeys_onInitialize (by exact hk)
  | rotate => exact uniqueKeys_rotateSession hk

end State

theorem uniqueKeys_of_reachable (hs : (chain T AccountId).Reachable s) : s.UniqueKeys := by
  refine hs.induction (fun s hs => ?_) fun s e _ hk => (s.next_step e).uniqueKeys hk
  obtain ⟨g, d, rfl⟩ := genesis_cases hs
  exact List.nodup_nil

/-- An invariant of the chain: it holds at genesis, and whatever a step does to a
    storage with unique records keeps it. -/
@[elab_as_elim]
theorem reachable_induction {Q : State T AccountId → Prop} (hs : (chain T AccountId).Reachable s)
    (hgenesis : ∀ (g : Genesis T AccountId) (d : BoundedVec AccountId T.maxCandidates),
      Q (g.stateOf d))
    (hnext : ∀ s e s', s.UniqueKeys → s.Next e s' → Q s → Q s') : Q s := by
  refine hs.induction (fun s hs => ?_) fun s e hs hQ =>
    hnext s e _ (uniqueKeys_of_reachable hs) (s.next_step e) hQ
  obtain ⟨g, d, rfl⟩ := genesis_cases hs
  exact hgenesis g d

/-- What the steps keep from a reachable state on. -/
theorem run_induction_of_reachable {Q : State T AccountId → Prop}
    (hs : (chain T AccountId).Reachable s) (h : Q s) {es : List (Step AccountId)}
    (hnext : ∀ s, ∀ e ∈ es, ∀ s', s.UniqueKeys → s.Next e s' → Q s → Q s') :
    Q ((chain T AccountId).run s es) :=
  (System.run_induction (Q := fun s => (chain T AccountId).Reachable s ∧ Q s) ⟨hs, h⟩
    fun s e he ⟨hs, hQ⟩ =>
      ⟨hs.step e, hnext s e he _ (uniqueKeys_of_reachable hs) (s.next_step e) hQ⟩).2

/-! ### Successful calls along a run -/

/-- The step is a call of the pallet that is signed and succeeds. -/
def State.succeeds (s : State T AccountId) : Step AccountId → Bool
  | .tx (.call (.signed who) call) => Xode.succeeds (call.code (.signed who)) s
  | _ => false

/-- The step is a registration of `a` that succeeds. -/
def State.registers (s : State T AccountId) (a : AccountId) : Step AccountId → Bool
  | .tx (.call (.signed who) .registerCandidate) =>
    who = a && s.succeeds (.signed who .registerCandidate)
  | _ => false

theorem State.succeeds_signed {call : Call AccountId} :
    s.succeeds (.signed who call) ↔ ∃ s', Effect s who call s' := by
  refine succeeds_iff.trans ⟨?_, fun ⟨s', h⟩ => ⟨(), s', code_eq_ok.2 ⟨who, rfl, h⟩⟩⟩
  rintro ⟨u, s', h⟩
  obtain ⟨who', ho, he⟩ := code_eq_ok.1 h
  cases ho
  exact ⟨s', he⟩

/-- A signed call that succeeds leads to the state of its step. -/
theorem State.code_of_succeeds (call : Call AccountId) (h : s.succeeds (.signed who call)) :
    call.code (.signed who) s = .ok () (s.step (.signed who call)) := eq_ok_of_succeeds h

theorem State.effect_of_succeeds {call : Call AccountId} (h : s.succeeds (.signed who call)) :
    Effect s who call (s.step (.signed who call)) := by
  obtain ⟨who', ho, he⟩ := code_eq_ok.1 (code_of_succeeds call h)
  cases ho
  exact he

/-- A call with an effect leads to it. -/
theorem Effect.step_eq {call : Call AccountId} (h : Effect s who call s') :
    (chain T AccountId).step s (.signed who call) = s' :=
  dispatch_of_ok (code_eq_ok.2 ⟨who, rfl, h⟩)

theorem reachable_of_code (hs : (chain T AccountId).Reachable s) {origin : RawOrigin AccountId}
    (call : Call AccountId) (h : call.code origin s = .ok () s') :
    (chain T AccountId).Reachable s' := by
  have hstep : s.step (.tx (.call origin call)) = s' := dispatch_of_ok h
  exact hstep ▸ hs.step (Step.tx (.call origin call))

theorem State.registers_iff {e : Step AccountId} : s.registers a e ↔
    e = .signed a .registerCandidate ∧ ∃ s', Effect s a .registerCandidate s' := by
  refine ⟨fun h => ?_, ?_⟩
  · unfold registers at h
    split at h
    · rw [Bool.and_eq_true, decide_eq_true_eq, succeeds_signed] at h
      obtain ⟨rfl, h⟩ := h
      exact ⟨rfl, h⟩
    · cases h
  · rintro ⟨rfl, h⟩
    rw [registers, Bool.and_eq_true, succeeds_signed]
    exact ⟨decide_eq_true rfl, h⟩

theorem reachable_rotateSession (hs : (chain T AccountId).Reachable s) :
    (chain T AccountId).Reachable s.rotateSession := hs.step Step.rotate

/-! ### Bonds -/

namespace State

/-- The recorded bond of an account, `0` if it has no record. -/
def bondOf (s : State T AccountId) (a : AccountId) : ℕ := (s.candidate? a).elim 0 CandidateInfo.bond

theorem bondOf_eq {c : CandidateInfo AccountId} (h : s.candidate? a = some c) :
    s.bondOf a = c.bond := by rw [bondOf, h]; rfl

omit [DecidableEq AccountId] in
theorem bondOf_map {c : Option (CandidateInfo AccountId)}
    {f : CandidateInfo AccountId → CandidateInfo AccountId} (hf : ∀ c, (f c).bond = c.bond) :
    (c.map f).elim 0 CandidateInfo.bond = c.elim 0 CandidateInfo.bond := by
  cases c with
  | none => rfl
  | some c => exact hf c

end State

/-- What a call does to the bonds. -/
theorem Effect.bondOf {call : Call AccountId} (h : Effect s who call s') (hk : s.UniqueKeys)
    (a : AccountId) :
    s'.bondOf a =
      match call with
      | .bondCandidate newBond => if a = who then newBond else s.bondOf a
      | .bondCorrection _ => if a = who then 0 else s.bondOf a
      | _ => s.bondOf a := by
  rw [State.bondOf, h.candidate? hk a]
  by_cases ha : a = call.target who
  · subst ha
    rw [if_pos rfl]
    cases h with
    | registerCandidate hnew =>
      simp [State.bondOf, Call.target, Call.record, hnew, CandidateInfo.fresh]
    | bondCandidate hc | bondCorrection hc => simp [Call.target, Call.record, hc]
    | _ => exact State.bondOf_map (by exact fun _ => rfl)
  · rw [if_neg ha]
    cases call with
    | bondCandidate | bondCorrection => exact (if_neg ha).symm
    | _ => rfl

namespace State

theorem bondOf_startBlock (index : Option ℕ) : (s.startBlock index).bondOf a = s.bondOf a := by
  rw [bondOf, candidate?_startBlock, bondOf]
  split
  · exact bondOf_map (by exact fun _ => rfl)
  · rfl

/-- A rotation keeps the bonds of the records it keeps. -/
theorem bondOf_rotateSession (hk : s.UniqueKeys) :
    s.rotateSession.bondOf a = s.bondOf a ∨
      ∃ c, s.candidate? a = some c ∧ s.Drops c ∧ s.rotateSession.bondOf a = 0 := by
  rw [bondOf, candidate?_rotateSession hk, bondOf]
  cases hc : s.candidate? a with
  | none => exact .inl rfl
  | some c =>
    rw [Option.bind_some]
    cases hr : s.rotateCandidate c with
    | none => exact .inr ⟨c, rfl, rotateCandidate_eq_none.1 hr, rfl⟩
    | some c' =>
      obtain ⟨status, offline, lastUpdated, rfl⟩ := rotateCandidate_eq_some hr
      exact .inl rfl

theorem bondOf_rotateSession_of_drops (hk : s.UniqueKeys) {c : CandidateInfo AccountId}
    (hc : s.candidate? a = some c) (hd : s.Drops c) : s.rotateSession.bondOf a = 0 := by
  rw [bondOf, candidate?_rotateSession hk, hc, Option.bind_some, rotateCandidate_eq_none.2 hd]
  rfl

end State

/-- A non-zero bond is at least the minimum. -/
theorem minCandidateBond_le_bondOf (hs : (chain T AccountId).Reachable s) (a : AccountId) :
    s.bondOf a = 0 ∨ T.minCandidateBond ≤ s.bondOf a := by
  refine reachable_induction hs (fun g d => .inl rfl) fun s e s' hk hn ih => ?_
  cases hn with
  | call he =>
    rw [he.bondOf hk]
    cases he with
    | bondCandidate _ hbond =>
      simp only
      split_ifs at hbond ⊢
      exacts [.inl ‹_›, .inr hbond, ih, ih]
    | bondCorrection =>
      simp only
      split_ifs
      exacts [.inl rfl, ih]
    | _ => exact ih
  | failed | other => exact ih
  | block index => rwa [State.bondOf_startBlock]
  | rotate =>
    obtain hb | ⟨c, -, -, hb⟩ := State.bondOf_rotateSession (a := a) hk
    · rwa [hb]
    · exact .inl hb

end Xode.Staking
