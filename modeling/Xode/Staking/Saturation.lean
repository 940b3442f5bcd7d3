import Xode.Staking.Costs

/-!
# Saturating sums

The pallet adds balances up with saturating additions: the amounts of a delegation, the
stakes behind a candidate, and its bond and its stake to rank it. Nothing of this saturates,
as long as the whole issuance is a balance and no bond correction takes what stakes need: all
that is recorded behind a candidate is then reserved somewhere, and no part of it twice
(`exact_of_run`). What a record says of the stake may be less than that, but not more.
-/

namespace Xode.Staking

variable {T : Config} {AccountId : Type} [DecidableEq AccountId]
  {s s₀ : State T AccountId} {a : AccountId} {es : List (Step AccountId)}

namespace State

/-- The issuance is a balance: no accounts have more than that between them. -/
def IssuanceFits (s : State T AccountId) : Prop :=
  ∀ accounts : Finset AccountId, ∑ a ∈ accounts, (s.freeOf a + s.reservedOf a) ≤ T.maxBalance

/-- All that is recorded behind an account is a balance, if it is reserved. -/
theorem recordedBehind_le_maxBalance (hbacked : ∀ a, s.Backed a) (hfits : s.IssuanceFits) :
    s.recordedBehind a ≤ T.maxBalance := by
  have hreserved := sum_recorded_le_reserved hbacked {a}
  rw [Finset.sum_singleton] at hreserved
  exact hreserved.trans
    ((Finset.sum_le_sum fun d _ => Nat.le_add_left _ (s.freeOf d)).trans (hfits _))

/-- No sum saturates that would be recorded for a candidate, or that the records are compared
    by; and none does in the next delegation. -/
structure Exact (s : State T AccountId) : Prop where
  totalDelegated : ∀ a, s.totalDelegated a = ((s.delegationsOf a).map Delegation.stake).sum
  combined : ∀ c ∈ s.proposedCandidates.toList, c.combined T = c.bond + c.totalStake
  combined_recomputed : ∀ a, satAdd T (s.bondOf a) (s.totalDelegated a) =
    s.bondOf a + ((s.delegationsOf a).map Delegation.stake).sum
  delegates : ∀ who candidate amount s',
    stakeCandidate (.signed who) candidate amount s = .ok () s' →
      ∀ d ∈ s.delegationsOf candidate, d.delegator = who →
        satAdd T d.stake amount = d.stake + amount

theorem exact_of_backed (hs : (chain T AccountId).Reachable s) (hbacked : ∀ a, s.Backed a)
    (hfits : s.IssuanceFits) : s.Exact where
  totalDelegated a := by
    have hle := recordedBehind_le_maxBalance (a := a) hbacked hfits
    rw [recordedBehind] at hle
    rw [totalDelegated, sumStakes_eq]
    omega
  combined c hc := by
    have hc' := (candidate?_eq_some (uniqueKeys_of_reachable hs)).2 ⟨hc, rfl⟩
    have hle := recordedBehind_le_maxBalance (a := c.who) hbacked hfits
    have hstake := totalStake_le_of_reachable hs hc'
    rw [recordedBehind, bondOf_eq hc'] at hle
    rw [totalDelegated, sumStakes_eq] at hstake
    rw [CandidateInfo.combined, satAdd]
    omega
  combined_recomputed a := by
    have hle := recordedBehind_le_maxBalance (a := a) hbacked hfits
    rw [recordedBehind] at hle
    rw [totalDelegated, sumStakes_eq, satAdd]
    omega
  delegates who candidate amount s' hok d hd hwho := by
    obtain ⟨_, ho, he⟩ := stakeCandidate_eq_ok.1 hok
    cases ho
    obtain ⟨_, _, -, -, -, hfree, -⟩ := he.redelegates_stake
    -- Both amounts are in the balance of the signer, one reserved and one free.
    have hstake : d.stake ≤ s.stakedBy who :=
      hwho ▸ (stake_le_stakeIn hd).trans stakeIn_delegationsOf_le
    have hreserved := hbacked who
    have htotal := (s.currency.account who).total_le
    rw [Backed, reservedOf, Ledger.reservedBalance] at hreserved
    rw [Ledger.freeBalance] at hfree
    exact min_eq_left (by omega)

end State

/-- After every run in which no bond correction takes what stakes need, if the issuance is a
    balance, nothing saturates: a candidate is ranked by the sum of its bond and its recorded
    stake, and the stake recorded anew is the sum of the delegations behind it. -/
theorem exact_of_run (h₀ : s₀ ∈ (chain T AccountId).init)
    (hes : ∀ a, (chain T AccountId).Along (State.CorrectsOwn a) s₀ es)
    (hfits : ((chain T AccountId).run s₀ es).IssuanceFits) :
    ((chain T AccountId).run s₀ es).Exact :=
  State.exact_of_backed ((System.Reachable.init h₀).run es) (fun a => backed_of_run h₀ (hes a))
    hfits

/-- A delegation is added to, behind a candidate with a bond. -/
theorem exact_development :
    ((chain Config.runtime Keyring).run developmentState
      [.signed .bob .registerCandidate, .signed .bob (.bondCandidate (10 ^ 14)),
        .signed .bobStash (.stakeCandidate .bob 7),
        .signed .bobStash (.stakeCandidate .bob 5)]).Exact := by
  refine exact_of_run developmentState_mem (fun a => by simp [System.Along, State.CorrectsOwn])
    fun accounts => ?_
  have hall : accounts ⊆ {.alice, .bob, .aliceStash, .bobStash} := fun a _ => by
    cases a <;> decide
  exact (Finset.sum_le_sum_of_subset hall).trans (by decide)

end Xode.Staking
