import Mathlib.Algebra.Order.BigOperators.Group.Finset
import Mathlib.Data.Nat.Cast.Basic
import Xode.Staking.Balances
import Xode.Staking.Elections

/-!
# What a seat costs

The stake behind a candidate is money: as long as no bond correction takes what stakes need,
the bonds and the delegations behind any candidates are all reserved at once, by these
candidates and those who delegate behind them, and no unit of it counts for two
(`sum_recorded_le`).

So it is not cheap to keep a candidate out. Whoever fills the slots with others has at least
as much reserved behind each of them (`reserved_of_excluded`).
-/

namespace Xode.Staking

variable {T : Config} {AccountId : Type} [DecidableEq AccountId]
  {s s₀ : State T AccountId} {a : AccountId} {es : List (Step AccountId)}

/-- The stakes of some delegations, account by account. -/
theorem sum_stakeIn {l : List (Delegation AccountId)} {accounts : Finset AccountId}
    (h : ∀ d ∈ l, d.delegator ∈ accounts) :
    ∑ a ∈ accounts, stakeIn a l = (l.map Delegation.stake).sum := by
  induction l with
  | nil => exact Finset.sum_const_zero
  | cons d l ih =>
    rw [List.forall_mem_cons] at h
    have hcons (a : AccountId) :
        stakeIn a (d :: l) = (if d.delegator = a then d.stake else 0) + stakeIn a l :=
      List.sum_cons
    rw [Finset.sum_congr rfl fun a _ => hcons a, Finset.sum_add_distrib, ih h.2,
      Finset.sum_ite_eq, if_pos h.1, List.map_cons, List.sum_cons]

namespace State

/-- All that is recorded behind an account: its bond, and the delegations. -/
def recordedBehind (s : State T AccountId) (a : AccountId) : ℕ :=
  s.bondOf a + ((s.delegationsOf a).map Delegation.stake).sum

/-- Some candidates, and those who delegate behind them. -/
def supporters (s : State T AccountId) (candidates : Finset AccountId) : Finset AccountId :=
  candidates ∪
    candidates.biUnion fun a => ((s.delegationsOf a).map Delegation.delegator).toFinset

/-- What an account has staked behind several candidates is part of what it has staked. -/
theorem sum_stakeIn_le_stakedBy (candidates : Finset AccountId) :
    ∑ b ∈ candidates, stakeIn a (s.delegationsOf b) ≤ s.stakedBy a := by
  simp only [← measureAt_stakeIn]
  exact StorageMap.sum_measureAt_le_sumBy _ _ _

/-- What is recorded behind some candidates is in the bonds and the stakes of their
    supporters, each unit of it once. -/
theorem sum_recorded_le (candidates : Finset AccountId) :
    ∑ b ∈ candidates, s.recordedBehind b ≤
      ∑ d ∈ s.supporters candidates, (s.bondOf d + s.stakedBy d) := by
  have hmem {b : AccountId} (hb : b ∈ candidates) :
      ∀ d ∈ s.delegationsOf b, d.delegator ∈ s.supporters candidates := fun d hd =>
    Finset.mem_union_right _ (Finset.mem_biUnion.2
      ⟨b, hb, List.mem_toFinset.2 (List.mem_map_of_mem hd)⟩)
  calc ∑ b ∈ candidates, s.recordedBehind b
    _ = ∑ b ∈ candidates, s.bondOf b +
        ∑ b ∈ candidates, ∑ d ∈ s.supporters candidates, stakeIn d (s.delegationsOf b) := by
      rw [← Finset.sum_add_distrib]
      exact Finset.sum_congr rfl fun b hb => by rw [recordedBehind, sum_stakeIn (hmem hb)]
    _ = ∑ b ∈ candidates, s.bondOf b +
        ∑ d ∈ s.supporters candidates, ∑ b ∈ candidates, stakeIn d (s.delegationsOf b) := by
      rw [Finset.sum_comm]
    _ ≤ ∑ d ∈ s.supporters candidates, s.bondOf d +
        ∑ d ∈ s.supporters candidates, s.stakedBy d :=
      Nat.add_le_add (Finset.sum_le_sum_of_subset Finset.subset_union_left)
        (Finset.sum_le_sum fun d _ => sum_stakeIn_le_stakedBy candidates)
    _ = ∑ d ∈ s.supporters candidates, (s.bondOf d + s.stakedBy d) :=
      Finset.sum_add_distrib.symm

/-- A candidate is not ranked by more than is recorded behind it. -/
theorem stakeBehind_le_recordedBehind (hs : (chain T AccountId).Reachable s) :
    s.stakeBehind a ≤ s.recordedBehind a := by
  rw [stakeBehind, recordedBehind, bondOf]
  cases hc : s.candidate? a with
  | none => exact Nat.zero_le _
  | some c =>
    have hstake := totalStake_le_of_reachable hs hc
    rw [totalDelegated, sumStakes_eq] at hstake
    have hcombined : c.combined T ≤ c.bond + c.totalStake := min_le_left _ _
    exact hcombined.trans (Nat.add_le_add_left (hstake.trans (min_le_left _ _)) _)

/-- Where every reserve covers what it should, all that is recorded behind some candidates is
    reserved. -/
theorem sum_recorded_le_reserved (hbacked : ∀ a, s.Backed a) (candidates : Finset AccountId) :
    ∑ b ∈ candidates, s.recordedBehind b ≤
      ∑ d ∈ s.supporters candidates, s.reservedOf d :=
  (sum_recorded_le candidates).trans (Finset.sum_le_sum fun d _ => hbacked d)

end State

/-- As long as no bond correction takes what stakes need, all reserves cover what they
    should. -/
theorem backed_of_run (h₀ : s₀ ∈ (chain T AccountId).init)
    (hes : (chain T AccountId).Along (State.CorrectsOwn a) s₀ es) :
    ((chain T AccountId).run s₀ es).Backed a :=
  hes.run_induction (.init h₀) (State.backed_of_init h₀) fun s e hs h hc =>
    ((s.next_step e).backed_iff (uniqueKeys_of_reachable hs) h).2 hc

/-- A candidate that may join and is left out has rivals in all of the slots, each with at
    least as much behind it as it has; all of this is reserved, besides what it has itself. -/
theorem reserved_of_excluded (h₀ : s₀ ∈ (chain T AccountId).init)
    (hes : ∀ a, (chain T AccountId).Along (State.CorrectsOwn a) s₀ es)
    (hrun : (chain T AccountId).run s₀ es = s) (ha : s.MayJoin a)
    (hout : a ∉ s.rotateSession.waitingCandidates) :
    (s.room + 1) * s.stakeBehind a ≤
      ∑ b ∈ s.supporters (insert a s.selected.toFinset), s.reservedOf b := by
  have hs : (chain T AccountId).Reachable s := hrun ▸ (System.Reachable.init h₀).run es
  have hbacked (a : AccountId) : s.Backed a := hrun ▸ backed_of_run h₀ (hes a)
  have hk := uniqueKeys_of_reachable hs
  obtain ⟨_, -, -, -, hd⟩ := id ha
  replace hout : a ∉ s.selected := mt (State.mem_waiting_rotateSession hk hd).2 hout
  have hsel := State.admissible_selected hk
  obtain ⟨hlen, hle⟩ := State.stakeBehind_le_of_mayJoin hs ha hout
  have hcard : (insert a s.selected.toFinset).card = s.room + 1 := by
    rw [Finset.card_insert_of_notMem (mt List.mem_toFinset.1 hout),
      List.toFinset_card_of_nodup hsel.nodup, hlen]
  calc (s.room + 1) * s.stakeBehind a
    _ = (insert a s.selected.toFinset).card • s.stakeBehind a := by
      rw [hcard, nsmul_eq_mul, Nat.cast_id]
    _ ≤ ∑ b ∈ insert a s.selected.toFinset, s.stakeBehind b :=
      Finset.card_nsmul_le_sum _ _ _ fun b hb => by
        rw [Finset.mem_insert, List.mem_toFinset] at hb
        rcases hb with rfl | hb
        exacts [le_rfl, hle b hb]
    _ ≤ ∑ b ∈ insert a s.selected.toFinset, s.recordedBehind b :=
      Finset.sum_le_sum fun b _ => State.stakeBehind_le_recordedBehind hs
    _ ≤ _ := State.sum_recorded_le_reserved hbacked _

/-- With two slots, one of them desired, twice the bond that is left out is no more than what
    the two candidates have reserved. -/
theorem reserved_of_excluded_development :
    let s := (chain { Config.runtime with maxCandidates := 2 } Keyring).run
      (development _ (by decide) (by decide))
      [.signed .bob .registerCandidate, .signed .bob (.bondCandidate (10 ^ 14)),
        .signed .aliceStash .registerCandidate,
        .signed .aliceStash (.bondCandidate (2 * 10 ^ 14))]
    (s.room + 1) * s.stakeBehind .bob ≤
      ∑ b ∈ s.supporters (insert .bob s.selected.toFinset), s.reservedOf b :=
  reserved_of_excluded development_mem (fun a => by simp [System.Along, State.CorrectsOwn]) rfl
    (by decide) (by decide)

end Xode.Staking
