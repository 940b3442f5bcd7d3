import Xode.Staking.Balances

/-!
# Locked delegations

A rotation drops the record of a candidate with the delegations behind it still there. From
then on they are locked: nobody can withdraw one, for want of the record that the withdrawal
would write. No call of the delegator changes that, and none of anybody else, but for one: they
stay locked until the candidate registers again (`locked_until_registered`). How much of the
stake a withdrawal then releases depends on the reserve of the delegator, which its own bond
corrections may have taken.
-/

namespace Xode.Staking

variable {T : Config} {AccountId : Type} [DecidableEq AccountId]
  {s s' : State T AccountId} {a : AccountId} {d : Delegation AccountId} {e : Step AccountId}
  {es : List (Step AccountId)}

namespace State

/-- The delegation is behind the account, and its delegator cannot withdraw it. -/
def Locked (a : AccountId) (d : Delegation AccountId) (s : State T AccountId) : Prop :=
  d ∈ s.delegationsOf a ∧ ¬s.Withdraws a d

theorem locked_iff (hs : (chain T AccountId).Reachable s) :
    s.Locked a d ↔ d ∈ s.delegationsOf a ∧ s.candidate? a = none := by
  refine and_congr_right fun hd => ?_
  rw [withdraws_iff hs hd, Option.not_isSome_iff_eq_none]

/-- Withdrawing the delegation moves all of its stake from the reserve of the delegator to its
    free balance. -/
def Refunds (s : State T AccountId) (a : AccountId) (d : Delegation AccountId) : Prop :=
  ∃ s', unstakeCandidate (.signed d.delegator) a s = .ok () s' ∧
    s'.freeOf d.delegator = s.freeOf d.delegator + d.stake ∧
    s'.reservedOf d.delegator + d.stake = s.reservedOf d.delegator

/-- A withdrawal that succeeds refunds a delegator that is backed. -/
theorem Withdraws.refunds (h : s.Withdraws a d) (hd : d ∈ s.delegationsOf a)
    (hb : s.Backed d.delegator) : s.Refunds a d := by
  obtain ⟨s', hok, -, hcurrency⟩ := h
  have hstake : d.stake ≤ s.stakedBy d.delegator :=
    (stake_le_stakeIn hd).trans stakeIn_delegationsOf_le
  have hreserved : d.stake ≤ s.reservedOf d.delegator := by
    rw [Backed] at hb
    omega
  refine ⟨s', hok, ?_, ?_⟩
  · rw [freeOf, hcurrency, Ledger.freeBalance_unreserve, if_pos rfl]
    exact congrArg (s.freeOf d.delegator + ·) (min_eq_right hreserved)
  · rw [reservedOf, hcurrency, Ledger.reservedBalance_unreserve, if_pos rfl]
    exact Nat.sub_add_cancel hreserved

/-- An account without a record gets one by registering. -/
theorem Next.candidate?_eq_none_iff (hn : s.Next e s') (hk : s.UniqueKeys)
    (hc : s.candidate? a = none) : s'.candidate? a = none ↔ ¬s.registers a e := by
  rw [← Option.not_isSome_iff_eq_none, not_iff_not, registers_iff]
  have hnone : ¬(s.candidate? a).isSome := by rw [hc]; exact Bool.false_ne_true
  cases hn with
  | @call who call _ he =>
    rw [he.candidate?_isSome_iff hk, hc]
    constructor
    · rintro (h | ⟨rfl, rfl⟩)
      · cases h
      · exact ⟨rfl, _, he⟩
    · rintro ⟨h, -⟩
      cases h
      exact .inr ⟨rfl, rfl⟩
  | failed hfail =>
    refine iff_of_false hnone ?_
    rintro ⟨h, s', he⟩
    cases h
    exact hfail a s' rfl he
  | other hcall =>
    refine iff_of_false hnone ?_
    rintro ⟨h, -⟩
    exact hcall _ _ (Step.tx.inj h)
  | block index =>
    refine iff_of_false ?_ fun h => by cases h.1
    rw [candidate?_startBlock, hc]
    simp
  | rotate =>
    refine iff_of_false ?_ fun h => by cases h.1
    rw [candidate?_rotateSession hk, hc]
    simp

/-- Without a record there is nothing to delegate behind, and nothing to withdraw. -/
theorem Next.delegationsOf_of_none (hn : s.Next e s') (hk : s.UniqueKeys)
    (hc : s.candidate? a = none) : s'.delegationsOf a = s.delegationsOf a := by
  cases hn with
  | @call who call _ he =>
    refine he.delegationsOf_eq fun hrestakes => ?_
    obtain ⟨c, hc'⟩ : ∃ c, s.candidate? a = some c := by
      cases he with
      | stakeCandidate _ hc' | unstakeCandidate hc' =>
        obtain rfl := of_decide_eq_true hrestakes
        exact ⟨_, hc'⟩
      | _ => cases hrestakes
    rw [hc] at hc'
    cases hc'
  | failed | other => rfl
  | block index => exact delegationsOf_congr (s.delegations_startBlock index) a
  | rotate => exact delegationsOf_congr (delegations_rotateSession hk) a

/-- A delegation stays locked throughout a run exactly when the account that it is behind does
    not register in it. -/
theorem always_locked_iff (hs : (chain T AccountId).Reachable s) (h : s.Locked a d) :
    (chain T AccountId).Always (Locked a d) s es ↔
      (chain T AccountId).Along (fun s e => ¬s.registers a e) s es := by
  refine System.always_iff_along hs h fun s e hs h => ?_
  have hn := s.next_step e
  have hk := uniqueKeys_of_reachable hs
  obtain ⟨hd, hc⟩ := (locked_iff hs).1 h
  rw [← hn.candidate?_eq_none_iff hk hc]
  refine (locked_iff (hs.step e)).trans (and_iff_right ?_)
  have hsame : ((chain T AccountId).step s e).delegationsOf a = s.delegationsOf a :=
    hn.delegationsOf_of_none hk hc
  rwa [hsame]

end State

/-- In every reachable state, a delegation that is locked stays so throughout a run exactly
    when the account that it is behind does not register in it; once it registers, the
    delegation can be withdrawn, which refunds a delegator that is backed. -/
theorem locked_until_registered (hs : (chain T AccountId).Reachable s) (h : s.Locked a d) :
    (∀ es, (chain T AccountId).Always (State.Locked a d) s es ↔
      (chain T AccountId).Along (fun s e => ¬s.registers a e) s es) ∧
      ∀ s', registerCandidate (.signed a) s = .ok () s' →
        s'.Withdraws a d ∧ (s.Backed d.delegator → s'.Refunds a d) := by
  refine ⟨fun es => State.always_locked_iff hs h, fun s' hok => ?_⟩
  obtain ⟨_, ho, he⟩ := registerCandidate_eq_ok.1 hok
  cases ho
  have hd : d ∈ s'.delegationsOf a := by
    rw [he.delegationsOf_eq (by simp [Call.restakes])]
    exact h.1
  have hk := uniqueKeys_of_reachable hs
  have hwithdraws : s'.Withdraws a d := by
    rw [withdraws_iff (reachable_of_code hs .registerCandidate hok) hd]
    exact (he.candidate?_isSome_iff hk).2 (.inr ⟨rfl, rfl⟩)
  exact ⟨hwithdraws, fun hb => hwithdraws.refunds hd ((he.backed_iff hk hb).2 (.of_ne (by simp)))⟩

/-- Bob is not bonded, and a rotation drops his record: the delegation behind him is locked
    while its delegator and others try to get it out. Once he is registered again, its
    delegator, who has more stakes, gets all of it back. -/
theorem locked_until_registered_development :
    let s := (chain Config.runtime Keyring).run developmentState
      [.signed .bob .registerCandidate, .signed .aliceStash .registerCandidate,
        .signed .bobStash (.stakeCandidate .bob 7),
        .signed .bobStash (.stakeCandidate .aliceStash 9), .rotate]
    s.Locked .bob ⟨.bobStash, 7⟩ ∧
      (chain Config.runtime Keyring).Always (State.Locked .bob ⟨.bobStash, 7⟩) s
        [.signed .bobStash (.unstakeCandidate .bob), .rotate,
          .signed .aliceStash (.stakeCandidate .bob 5),
          .signed .bob (.bondCandidate (10 ^ 14))] ∧
      (s.step (.signed .bob .registerCandidate)).Withdraws .bob ⟨.bobStash, 7⟩ ∧
      (s.step (.signed .bob .registerCandidate)).Refunds .bob ⟨.bobStash, 7⟩ := by
  intro s
  have hs : (chain Config.runtime Keyring).Reachable s :=
    (System.Reachable.init developmentState_mem).run _
  have hlocked : s.Locked .bob ⟨.bobStash, 7⟩ := (State.locked_iff hs).2 (by decide)
  have hbacked : s.Backed .bobStash := by
    rw [State.Backed]
    decide
  obtain ⟨halways, hafter⟩ := locked_until_registered hs hlocked
  obtain ⟨hwithdraws, hrefunds⟩ :=
    hafter _ (State.code_of_succeeds .registerCandidate (by decide))
  exact ⟨hlocked, (halways _).2 (by simp [System.Along, State.registers]), hwithdraws,
    hrefunds hbacked⟩

end Xode.Staking
