import Xode.Frame.Logs
import Xode.Staking.Blocks
import Xode.Staking.Delegations

/-!
# What the events tell

Clients of the chain follow the pallet by its events. A call that succeeds deposits exactly
one (`Call.event`), and nothing else deposits any: the events of a block are those of its
successful calls, in order (`events_stateAt_succ`).

From the events alone a client can keep a chronicle of the candidates and of the delegations
behind them (`Chronicle.hear`). Over any run the chronicle has every delegation, and for
every record its bond, its stake, its commission and whether it is leaving
(`chronicle_tells`). Two things happen without an event: a rotation drops records, and it
marks validators offline. So the chronicle does not know who still has a record, and a
candidate it has as offline is, while one that it has as online need not be.
-/

namespace Xode.Staking

variable {T : Config} {AccountId : Type} [DecidableEq AccountId]
  {s s' s₀ : State T AccountId} {a who : AccountId} {e : Step AccountId}
  {es : List (Step AccountId)}

/-! ### The events of a run -/

/-- The event of a successful call. -/
def Call.event (who : AccountId) : Call AccountId → Event AccountId
  | .registerCandidate => .candidateRegistered who
  | .bondCandidate newBond => .candidateBonded who newBond
  | .setCommissionOfCandidate commission => .candidateCommissionSet who commission
  | .stakeCandidate candidate amount => .delegationAdded who candidate amount
  | .unstakeCandidate candidate => .delegationRevoked who candidate
  | .offlineCandidate => .candidateWentOffline who
  | .onlineCandidate => .candidateWentOnline who
  | .leaveCandidate => .candidateLeft who
  | .bondCorrection _ => .candidateBondCorrected who

namespace State

/-- The events a step deposits. -/
def emits (s : State T AccountId) : Step AccountId → List (Event AccountId)
  | .tx (.call (.signed who) call) =>
    if s.succeeds (.signed who call) then [call.event who] else []
  | _ => []

/-- The events that a step leaves of those of the block so far. -/
def keepsEvents (s : State T AccountId) : Step AccountId → List (Event AccountId)
  | .block _ => []
  | _ => s.events

end State

theorem Effect.events {call : Call AccountId} (h : Effect s who call s') :
    s'.events = s.events ++ [call.event who] := by
  cases h <;> rfl

theorem Effect.emits {call : Call AccountId} (h : Effect s who call s') :
    s.emits (.signed who call) = [call.event who] :=
  if_pos (State.succeeds_signed.2 ⟨s', h⟩)

namespace State

theorem emits_of_fails {origin : RawOrigin AccountId} {call : Call AccountId}
    (h : ∀ who s', origin = .signed who → ¬Effect s who call s') :
    s.emits (.tx (.call origin call)) = [] := by
  cases origin with
  | signed who =>
    refine if_neg fun hs => ?_
    obtain ⟨s', he⟩ := succeeds_signed.1 hs
    exact h who s' rfl he
  | root | none => rfl

theorem emits_other {tx : Tx AccountId} (h : ∀ origin call, tx ≠ .call origin call) :
    s.emits (.tx tx) = [] := by
  cases tx with
  | call origin call => exact absurd rfl (h origin call)
  | _ => rfl

/-- The events after a step: it adds its own, and the start of a block resets them. -/
theorem Next.events (hn : s.Next e s') (hk : s.UniqueKeys) :
    s'.events = s.keepsEvents e ++ s.emits e := by
  cases hn with
  | call he => rw [he.events, he.emits]; rfl
  | failed hfail => rw [emits_of_fails hfail]; exact (List.append_nil _).symm
  | other hcall => rw [emits_other hcall]; exact (List.append_nil _).symm
  | block index =>
    obtain ⟨p, actualAuthors, h⟩ := s.startBlock_eq index
    rw [h]
    rfl
  | rotate =>
    obtain ⟨p, w, h, -⟩ := rotateSession_eq hk
    rw [h]
    exact (List.append_nil _).symm

end State

/-- Within a block, the events are those before, and then those of the calls that succeed. -/
theorem events_run (hs : (chain T AccountId).Reachable s) (hes : ∀ e ∈ es, ∀ i, e ≠ .block i) :
    ((chain T AccountId).run s es).events =
      s.events ++ (chain T AccountId).log State.emits s es := by
  induction es generalizing s with
  | nil => exact (List.append_nil _).symm
  | cons e es ih =>
    have hevents := (s.next_step e).events (uniqueKeys_of_reachable hs)
    have hkeeps : s.keepsEvents e = s.events := by
      cases e with
      | block i => exact absurd rfl (hes _ List.mem_cons_self i)
      | tx | rotate => rfl
    rw [hkeeps] at hevents
    refine (ih (hs.step e) fun e he => hes e (List.mem_cons_of_mem _ he)).trans ?_
    rw [System.log_cons, ← List.append_assoc]
    exact congrArg (· ++ _) hevents

/-- The events of a block are those of its successful calls, in order. -/
theorem events_stateAt_succ (h₀ : s₀ ∈ (chain T AccountId).init) (b : ℕ → Block AccountId)
    (n : ℕ) :
    (stateAt s₀ b (n + 1)).events =
      (chain T AccountId).log State.emits (stateAt s₀ b n) (b (n + 1)).steps := by
  have hs := reachable_stateAt h₀ b n
  have hstart := ((stateAt s₀ b n).next_step (.block (b (n + 1)).index)).events
    (uniqueKeys_of_reachable hs)
  have hbody : ∀ e ∈ (if (b (n + 1)).rotates then [Step.rotate] else []) ++
      (b (n + 1)).body.map Step.tx, ∀ i, e ≠ .block i := by
    intro e he i
    rintro rfl
    split at he <;> simp at he
  rw [stateAt, Block.steps, List.cons_append, System.run_cons, System.log_cons]
  exact (events_run (hs.step _) hbody).trans (congrArg (· ++ _) hstart)

/-- Where bob registers twice, one event tells of it. -/
theorem events_stateAt_succ_development :
    let b : ℕ → Block Keyring := fun _ =>
      { index := some 0, rotates := true
        body := [.call (.signed .bob) .registerCandidate, .call (.signed .bob) .registerCandidate] }
    (stateAt developmentState b 1).events =
        (chain Config.runtime Keyring).log State.emits developmentState (b 1).steps ∧
      (chain Config.runtime Keyring).log State.emits developmentState (b 1).steps =
        [.candidateRegistered .bob] :=
  ⟨events_stateAt_succ developmentState_mem _ 0, by decide⟩

/-! ### The chronicle -/

/-- What the events tell of a candidate. -/
structure Standing where
  bond : ℕ
  totalStake : ℕ
  commission : UInt8
  leaving : Bool
  offline : Bool

/-- The standing of a newly registered candidate. -/
def Standing.fresh : Standing :=
  { bond := 0, totalStake := 0, commission := 0, leaving := false, offline := false }

/-- What a client knows that keeps track of the events. -/
structure Chronicle (AccountId : Type) where
  /-- The last known standing of an account. -/
  standing : AccountId → Standing
  /-- The delegations behind an account. -/
  delegations : AccountId → List (Delegation AccountId)

namespace Chronicle

/-- Rewriting the standing of `who`. -/
def restate (k : Chronicle AccountId) (who : AccountId) (f : Standing → Standing) :
    Chronicle AccountId :=
  { k with standing := Function.update k.standing who (f (k.standing who)) }

/-- Rewriting the delegations behind `candidate`, and with them its stake. -/
def redelegate (T : Config) (k : Chronicle AccountId) (candidate : AccountId)
    (l : List (Delegation AccountId)) : Chronicle AccountId :=
  { k.restate candidate fun r => { r with totalStake := sumStakes T l } with
    delegations := Function.update k.delegations candidate l }

/-- What an event changes. -/
def hear (T : Config) (k : Chronicle AccountId) : Event AccountId → Chronicle AccountId
  | .candidateRegistered who => k.restate who fun _ => .fresh
  | .candidateBonded who bond => k.restate who fun r => { r with bond }
  | .candidateBondCorrected who => k.restate who fun r => { r with bond := 0 }
  | .candidateCommissionSet who commission => k.restate who fun r => { r with commission }
  | .candidateWentOffline who => k.restate who fun r => { r with offline := true }
  | .candidateWentOnline who => k.restate who fun r => { r with offline := false }
  | .candidateLeft who => k.restate who fun r => { r with leaving := true }
  | .delegationAdded delegator candidate stake =>
    k.redelegate T candidate (withStake T delegator stake (k.delegations candidate))
  | .delegationRevoked delegator candidate =>
    k.redelegate T candidate (eraseKey Delegation.delegator delegator (k.delegations candidate))

end Chronicle

/-- A standing is true of a record; of the offline flag, it knows what calls made of it. -/
structure Standing.TrueOf (r : Standing) (c : CandidateInfo AccountId) : Prop where
  bond : c.bond = r.bond
  totalStake : c.totalStake = r.totalStake
  commission : c.commission = r.commission
  leaving : c.leaving = r.leaving
  offline : r.offline → c.offline

/-- A chronicle has every delegation, and the standing of every candidate. -/
structure Chronicle.Tells (k : Chronicle AccountId) (s : State T AccountId) : Prop where
  delegations : ∀ candidate, k.delegations candidate = s.delegationsOf candidate
  standing : ∀ a c, s.candidate? a = some c → (k.standing a).TrueOf c

namespace Chronicle

variable {k : Chronicle AccountId} {call : Call AccountId}

/-- The delegations are rewritten as in the storage. -/
theorem delegations_hear (candidate : AccountId) :
    (k.hear T (call.event who)).delegations candidate =
      call.redelegate T who candidate (k.delegations candidate) := by
  cases call with
  | stakeCandidate c | unstakeCandidate c =>
    by_cases hc : candidate = c
    · subst hc
      exact (Function.update_self _ _ _).trans (if_pos rfl).symm
    · exact (Function.update_of_ne hc _ _).trans (if_neg hc).symm
  | _ => rfl

/-- The event of a call is about the account whose record the call writes. -/
theorem standing_hear_of_ne (ha : a ≠ call.target who) :
    (k.hear T (call.event who)).standing a = k.standing a := by
  cases call <;> exact Function.update_of_ne ha _ _

/-- A standing rewritten in step with a record stays true of it. -/
theorem Tells.restate {g : CandidateInfo AccountId → CandidateInfo AccountId}
    {c : CandidateInfo AccountId} (h : k.Tells s) (hc : (s.candidate? a).map g = some c)
    (f : Standing → Standing) (hfg : ∀ r c, Standing.TrueOf r c → (f r).TrueOf (g c)) :
    ((k.restate a f).standing a).TrueOf c := by
  obtain ⟨c₀, hc₀, rfl⟩ := Option.map_eq_some_iff.1 hc
  have hself : (k.restate a f).standing a = f (k.standing a) := Function.update_self _ _ _
  rw [hself]
  exact hfg _ _ (h.standing a c₀ hc₀)

/-- What a call does to the record it writes, its event does to the standing. -/
theorem Tells.standing_hear {c : CandidateInfo AccountId} (h : k.Tells s)
    (he : Effect s who call s')
    (hc : call.record s' who (s.candidate? (call.target who)) = some c) :
    ((k.hear T (call.event who)).standing (call.target who)).TrueOf c := by
  -- The stake recorded is recomputed from the delegations, as they are after the call.
  have hsum (candidate : AccountId) : s'.totalDelegated candidate =
      sumStakes T (call.redelegate T who candidate (k.delegations candidate)) := by
    rw [State.totalDelegated, he.delegationsOf, h.delegations]
  cases call with
  | registerCandidate =>
    cases hc
    have hself : (k.hear T (.candidateRegistered who)).standing who = .fresh :=
      Function.update_self _ _ _
    exact hself ▸ ⟨rfl, rfl, rfl, rfl, id⟩
  | bondCandidate newBond =>
    exact h.restate hc (fun r => { r with bond := newBond }) fun r c hr => { hr with bond := rfl }
  | bondCorrection =>
    exact h.restate hc (fun r => { r with bond := 0 }) fun r c hr => { hr with bond := rfl }
  | setCommissionOfCandidate commission =>
    exact h.restate hc (fun r => { r with commission }) fun r c hr => { hr with commission := rfl }
  | offlineCandidate =>
    exact h.restate hc (fun r => { r with offline := true }) fun r c hr => { hr with offline := id }
  | onlineCandidate =>
    exact h.restate hc (fun r => { r with offline := false }) fun r c hr =>
      { hr with offline := id }
  | leaveCandidate =>
    exact h.restate hc (fun r => { r with leaving := true }) fun r c hr =>
      { hr with leaving := rfl }
  | stakeCandidate candidate amount =>
    exact h.restate hc (fun r => { r with totalStake := _ }) fun r c hr =>
      { hr with totalStake := (hsum candidate).trans (congrArg _ (if_pos rfl)) }
  | unstakeCandidate candidate =>
    exact h.restate hc (fun r => { r with totalStake := _ }) fun r c hr =>
      { hr with totalStake := (hsum candidate).trans (congrArg _ (if_pos rfl)) }

theorem Tells.effect (h : k.Tells s) (he : Effect s who call s') (hk : s.UniqueKeys) :
    (k.hear T (call.event who)).Tells s' where
  delegations candidate := by rw [delegations_hear, he.delegationsOf, h.delegations]
  standing a c hc := by
    rw [he.candidate? hk] at hc
    split at hc
    · next ha =>
      subst ha
      exact h.standing_hear he hc
    · next ha =>
      rw [standing_hear_of_ne ha]
      exact h.standing a c hc

/-- What no event is deposited for, a chronicle survives: the records may be others, and may
    be marked offline. -/
theorem Tells.silent (h : k.Tells s) (hd : s'.delegations = s.delegations)
    (hc : ∀ a c, s'.candidate? a = some c → ∃ c₀, s.candidate? a = some c₀ ∧
      c.bond = c₀.bond ∧ c.totalStake = c₀.totalStake ∧ c.commission = c₀.commission ∧
      c.leaving = c₀.leaving ∧ (c₀.offline → c.offline)) : k.Tells s' where
  delegations candidate := (h.delegations candidate).trans
    (State.delegationsOf_congr hd candidate).symm
  standing a c hac := by
    obtain ⟨c₀, hc₀, hbond, hstake, hcommission, hleaving, hoffline⟩ := hc a c hac
    have := h.standing a c₀ hc₀
    exact ⟨hbond.trans this.bond, hstake.trans this.totalStake,
      hcommission.trans this.commission, hleaving.trans this.leaving,
      fun ho => hoffline (this.offline ho)⟩

theorem Tells.next (h : k.Tells s) (hn : s.Next e s') (hk : s.UniqueKeys) :
    ((s.emits e).foldl (hear T) k).Tells s' := by
  cases hn with
  | call he =>
    rw [he.emits]
    exact h.effect he hk
  | failed hfail =>
    rw [State.emits_of_fails hfail]
    exact h
  | other hcall =>
    rw [State.emits_other hcall]
    exact ⟨h.delegations, h.standing⟩
  | block index =>
    refine h.silent (s.delegations_startBlock index) fun a c hc => ?_
    obtain ⟨c₀, _, hc₀, rfl⟩ := State.exists_of_candidate?_startBlock hc
    exact ⟨c₀, hc₀, rfl, rfl, rfl, rfl, id⟩
  | rotate =>
    refine h.silent (State.delegations_rotateSession hk) fun a c hc => ?_
    rw [State.candidate?_rotateSession hk] at hc
    obtain ⟨c₀, hc₀, hr⟩ := Option.bind_eq_some_iff.1 hc
    obtain ⟨status, rfl⟩ := State.rotateCandidate_eq_mark hr
    refine ⟨c₀, hc₀, ?_⟩
    rw [State.mark]
    split
    exacts [⟨rfl, rfl, rfl, rfl, fun _ => rfl⟩, ⟨rfl, rfl, rfl, rfl, id⟩]

end Chronicle

end Xode.Staking
