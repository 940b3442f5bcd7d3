import Xode.Frame.Logs
import Xode.Staking.Interference

/-!
# Traces

Two runs side by side, one of which has, between the steps of others, delegations of
`d` behind the candidate `c` and then their withdrawal. As long as the delegation is
there, it is all that the two differ by (`State.DiffersBy`): `d` has its stake reserved,
and the delegations behind `c` are those of the other run, with one more among them. The
steps of others keep this relation (`DiffersBy.step`): their calls, also when they write the
same lists, and the start of a block, whose author is the same in both. The delegations of
`d` keep it, too; the withdrawal leaves nothing of the difference but the time of the last
update of `c` (`leavesNoTrace_of_reachable`). Only the end of a session could tell the two
apart.
-/

namespace Xode.Staking

variable {T : Config} {AccountId : Type} [DecidableEq AccountId]
  {s s' t t' u u' : State T AccountId} {a c d k who : AccountId} {amount : ℕ}
  {call : Call AccountId} {l : List (Delegation AccountId)} {e : Step AccountId}
  {es es' : List (Step AccountId)}

/-! ### The delegations behind a candidate -/

/-- Removing the delegation of `d` commutes with what the calls of others make of the
    delegations. -/
theorem Call.eraseKey_redelegate (ha : a ≠ d) :
    eraseKey Delegation.delegator d (call.redelegate T a k l) =
      call.redelegate T a k (eraseKey Delegation.delegator d l) := by
  cases call with
  | stakeCandidate candidate amount =>
    have hmem : a ∈ (eraseKey Delegation.delegator d l).map Delegation.delegator ↔
        a ∈ l.map Delegation.delegator := by
      rw [← findKey_isSome, ← findKey_isSome, findKey_eraseKey ha]
    simp only [Call.redelegate, withStake, hmem]
    split_ifs
    · exact (eraseKey_updateKey (by exact fun _ => rfl)).trans (if_neg ha.symm)
    · exact eraseKey_append_singleton ha
    · rfl
  | unstakeCandidate candidate =>
    simp only [Call.redelegate]
    split_ifs
    · exact eraseKey_comm ha.symm
    · rfl
  | _ => rfl

theorem eraseKey_withStake_self :
    eraseKey Delegation.delegator d (withStake T d amount l) =
      eraseKey Delegation.delegator d l := by
  rw [withStake]
  split
  · exact (eraseKey_updateKey (by exact fun _ => rfl)).trans (if_pos rfl)
  · next hd => exact (eraseKey_append_singleton_self hd rfl).trans (eraseKey_of_notMem hd).symm

theorem stakeIn_eq_zero (hd : d ∉ l.map Delegation.delegator) : stakeIn d l = 0 := by
  refine List.sum_eq_zero fun x hx => ?_
  obtain ⟨e, he, rfl⟩ := List.mem_map.1 hx
  exact if_neg fun h : e.delegator = d => hd (h ▸ List.mem_map_of_mem he)

/-- The calls of others leave the stake of `d` alone. -/
theorem Call.stakeIn_redelegate (ha : a ≠ d) :
    stakeIn d (call.redelegate T a k l) = stakeIn d l := by
  cases call with
  | stakeCandidate candidate amount =>
    rw [Call.redelegate]
    split
    · exact (stakeIn_withStake T a amount l).1 d ha.symm
    · rfl
  | unstakeCandidate candidate =>
    rw [Call.redelegate]
    split
    · cases hf : findKey Delegation.delegator a l with
      | none => rw [eraseKey_of_notMem (findKey_eq_none.1 hf)]
      | some e => simpa [ha.symm] using stakeIn_eraseKey (a := d) hf
    · rfl
  | _ => rfl

/-- The calls of others leave the delegation of `d` alone. -/
theorem Call.findKey_redelegate_of_ne (ha : a ≠ d) :
    findKey Delegation.delegator d (call.redelegate T a k l) =
      findKey Delegation.delegator d l := by
  cases call with
  | stakeCandidate candidate amount =>
    simp only [Call.redelegate, withStake]
    split_ifs
    · exact (findKey_updateKey (by exact fun _ => rfl)).trans (if_neg ha.symm)
    · rw [findKey_append_singleton, if_neg (by exact ha), Option.or_none]
    · rfl
  | unstakeCandidate candidate =>
    simp only [Call.redelegate]
    split
    · exact findKey_eraseKey ha.symm
    · rfl
  | _ => rfl

theorem Call.mem_redelegate (ha : a ≠ d) :
    d ∈ (call.redelegate T a k l).map Delegation.delegator ↔ d ∈ l.map Delegation.delegator := by
  rw [← findKey_isSome, Call.findKey_redelegate_of_ne ha, findKey_isSome]

/-! ### Balances and records -/

/-- What a call makes of the balances of its signer depends on them, on its bond, and on
    its delegations only. -/
theorem Effect.account_congr (ht : Effect t a call t') (hu : Effect u a call u')
    (hacc : t.currency.account a = u.currency.account a) (hbond : t.bondOf a = u.bondOf a)
    (hfind : ∀ k, findKey Delegation.delegator a (t.delegationsOf k) =
      findKey Delegation.delegator a (u.delegationsOf k)) :
    t'.currency.account a = u'.currency.account a := by
  cases call with
  | bondCandidate newBond =>
    cases ht with
    | bondCandidate hct _ hmt =>
      cases hu with
      | bondCandidate hcu _ hmu =>
        rw [State.bondOf_eq hct, State.bondOf_eq hcu] at hbond
        rw [hbond] at hmt
        rw [bondMoved] at hmt hmu
        split at hmt
        · next hlt =>
          rw [if_pos hlt] at hmu
          exact Ledger.account_reserve_congr hmt hmu hacc
        · next hlt =>
          rw [if_neg hlt] at hmu
          cases hmt
          cases hmu
          exact Ledger.account_unreserve_congr hacc
  | stakeCandidate candidate amount =>
    obtain ⟨_, _, -, -, -, -, hrt, -⟩ := ht.redelegates_stake
    obtain ⟨_, _, -, -, -, -, hru, -⟩ := hu.redelegates_stake
    exact Ledger.account_reserve_congr hrt hru hacc
  | unstakeCandidate candidate =>
    obtain ⟨x, hx, -, hct, -⟩ := ht.redelegates_unstake
    obtain ⟨y, hy, -, hcu, -⟩ := hu.redelegates_unstake
    obtain rfl : x = y := Option.some.inj (hx.symm.trans ((hfind candidate).trans hy))
    rw [hct, hcu]
    exact Ledger.account_unreserve_congr hacc
  | bondCorrection frozenBalance =>
    cases ht with
    | bondCorrection =>
      cases hu with
      | bondCorrection => exact Ledger.account_unreserve_congr hacc
  | _ => cases ht; cases hu; exact hacc

/-- The record of a candidate is written with the delegations behind it. -/
theorem Call.target_of_restakes (h : call.restakes k) : call.target a = k := by
  cases call with
  | stakeCandidate | unstakeCandidate => exact of_decide_eq_true h
  | _ => cases h

/-- What a call writes in a record depends on the block number, and on the delegations
    it writes. -/
theorem Call.record_congr {r : Option (CandidateInfo AccountId)}
    (hb : t.blockNumber = u.blockNumber)
    (hd : ∀ k, call.restakes k → t.totalDelegated k = u.totalDelegated k) :
    call.record t a r = call.record u a r := by
  cases call with
  | stakeCandidate candidate | unstakeCandidate candidate =>
    rw [Call.record, Call.record, hb, hd candidate (decide_eq_true rfl)]
  | _ => rw [Call.record, Call.record, hb]

/-! ### Two states -/

/-- The state `t` differs from `u` only by a delegation of `d` behind the candidate `c`,
    if there is one, and by the stake recorded for `c` and its time. -/
structure State.DiffersBy (t : State T AccountId) (d c : AccountId) (u : State T AccountId) :
    Prop where
  blockNumber : t.blockNumber = u.blockNumber
  session : t.session = u.session
  account : ∀ a, a ≠ d → t.currency.account a = u.currency.account a
  free : t.currency.freeBalance d + stakeIn d (t.delegationsOf c) = u.currency.freeBalance d
  reserved : t.currency.reservedBalance d =
    u.currency.reservedBalance d + stakeIn d (t.delegationsOf c)
  delegationsOf : ∀ k, u.delegationsOf k =
    if k = c then eraseKey Delegation.delegator d (t.delegationsOf k) else t.delegationsOf k
  candidate : ∀ a, a ≠ c → t.candidate? a = u.candidate? a
  named : ∃ r totalStake lastUpdated, t.candidate? c = some r ∧
    u.candidate? c = some { r with totalStake, lastUpdated }
  recorded : t.RecordsStake c ∧ u.RecordsStake c

namespace State.DiffersBy

theorem refl (hd : d ∉ (s.delegationsOf c).map Delegation.delegator)
    (hc : (s.candidate? c).isSome) (hr : s.RecordsStake c) : s.DiffersBy d c s := by
  obtain ⟨r, hr'⟩ := Option.isSome_iff_exists.1 hc
  refine ⟨rfl, rfl, fun _ _ => rfl, ?_, ?_, fun k => ?_, fun _ _ => rfl,
    ⟨r, r.totalStake, r.lastUpdated, hr', hr'⟩, hr, hr⟩
  · rw [stakeIn_eq_zero hd, Nat.add_zero]
  · rw [stakeIn_eq_zero hd, Nat.add_zero]
  · split
    · next h => rw [h, eraseKey_of_notMem hd]
    · rfl

theorem bondOf (h : t.DiffersBy d c u) (a : AccountId) : t.bondOf a = u.bondOf a := by
  by_cases ha : a = c
  · obtain ⟨r, _, _, ht, hu⟩ := h.named
    rw [ha, bondOf_eq ht, bondOf_eq hu]
  · rw [State.bondOf, h.candidate a ha, State.bondOf]

/-- Everyone but `d` has the same delegations in both. -/
theorem findKey_eq (h : t.DiffersBy d c u) (ha : a ≠ d) (k : AccountId) :
    findKey Delegation.delegator a (t.delegationsOf k) =
      findKey Delegation.delegator a (u.delegationsOf k) := by
  rw [h.delegationsOf]
  split
  · rw [findKey_eraseKey ha]
  · rfl

/-- A call of somebody else in both runs. -/
theorem other (h : t.DiffersBy d c u) (hkt : t.UniqueKeys) (hku : u.UniqueKeys)
    (ht : Effect t a call t') (hu : Effect u a call u') (ha : a ≠ d) : t'.DiffersBy d c u' := by
  have hblock : t'.blockNumber = u'.blockNumber := by
    rw [ht.frame.blockNumber, hu.frame.blockNumber, h.blockNumber]
  have hsession : t'.session = u'.session := by
    rw [ht.frame.session, hu.frame.session, h.session]
  have hdel (k : AccountId) : u'.delegationsOf k =
      if k = c then eraseKey Delegation.delegator d (t'.delegationsOf k)
      else t'.delegationsOf k := by
    rw [hu.delegationsOf, ht.delegationsOf, h.delegationsOf]
    split
    · exact (Call.eraseKey_redelegate ha).symm
    · rfl
  have hstake : stakeIn d (t'.delegationsOf c) = stakeIn d (t.delegationsOf c) := by
    rw [ht.delegationsOf, Call.stakeIn_redelegate ha]
  have hdt := ht.account_of_ne ha.symm
  have hdu := hu.account_of_ne ha.symm
  obtain ⟨r, totalStake, lastUpdated, hrt, hru⟩ := h.named
  -- The candidate is registered, and so does not register.
  have hreg : call = .registerCandidate → c ≠ a := by
    rintro rfl rfl
    have := (exists_register_iff.1 ⟨_, ht⟩).1
    rw [hrt] at this
    cases this
  refine ⟨hblock, hsession, fun b hb => ?_, ?_, ?_, hdel, fun b hb => ?_, ?_, ?_, ?_⟩
  · by_cases hba : b = a
    · exact hba ▸ ht.account_congr hu (h.account a ha) (h.bondOf a) (h.findKey_eq ha)
    · rw [ht.account_of_ne hba, hu.account_of_ne hba, h.account b hb]
  · rw [hstake, Ledger.freeBalance, Ledger.freeBalance, hdt, hdu]
    exact h.free
  · rw [hstake, Ledger.reservedBalance, Ledger.reservedBalance, hdt, hdu]
    exact h.reserved
  · rw [ht.candidate? hkt, hu.candidate? hku, h.candidate b hb]
    split
    · next hbt =>
      refine Call.record_congr hblock fun k hk => ?_
      have hkb : k = b := (Call.target_of_restakes hk).symm.trans hbt.symm
      rw [State.totalDelegated, State.totalDelegated, hdel, if_neg (hkb ▸ hb)]
    · rfl
  · have hrt' := ht.candidate? hkt c
    have hru' := hu.candidate? hku c
    by_cases hct : c = call.target a
    · rw [if_pos hct, hrt] at hrt'
      rw [if_pos hct, hru] at hru'
      cases call with
      | registerCandidate => exact absurd hct (hreg rfl)
      | _ => exact ⟨_, _, _, hrt', hru'⟩
    · rw [if_neg hct] at hrt' hru'
      exact ⟨r, totalStake, lastUpdated, hrt'.trans hrt, hru'.trans hru⟩
  · exact (ht.recordsStake_iff hkt hreg).2 (.inr h.recorded.1)
  · exact (hu.recordsStake_iff hku hreg).2 (.inr h.recorded.2)

/-- A call of `d` about its delegation behind `c`, in the first run only: it comes down
    to the balances of `d` and its stake. -/
theorem own (h : t.DiffersBy d c u) (hkt : t.UniqueKeys) (ht : Effect t d call t')
    (hcall : call.restakes c)
    (hdel : eraseKey Delegation.delegator d (t'.delegationsOf c) =
      eraseKey Delegation.delegator d (t.delegationsOf c))
    (hfree : t'.currency.freeBalance d + stakeIn d (t'.delegationsOf c) =
      t.currency.freeBalance d + stakeIn d (t.delegationsOf c))
    (hreserved : t'.currency.reservedBalance d + stakeIn d (t.delegationsOf c) =
      t.currency.reservedBalance d + stakeIn d (t'.delegationsOf c)) : t'.DiffersBy d c u := by
  have htarget : call.target d = c := Call.target_of_restakes hcall
  obtain ⟨r, totalStake, lastUpdated, hrt, hru⟩ := h.named
  have := h.reserved
  refine ⟨ht.frame.blockNumber.trans h.blockNumber, ht.frame.session.trans h.session,
    fun a ha => ?_, hfree.trans h.free, by omega, fun k => ?_, fun a ha => ?_, ?_, ?_,
    h.recorded.2⟩
  · rw [ht.account_of_ne ha, h.account a ha]
  · rw [h.delegationsOf]
    split
    · next hk => rw [hk, hdel]
    · next hk =>
      refine (ht.delegationsOf_eq fun hk' => hk ?_).symm
      exact (Call.target_of_restakes hk').symm.trans htarget
  · rw [ht.candidate? hkt, htarget, if_neg ha, h.candidate a ha]
  · have hrt' := ht.candidate? hkt c
    rw [htarget, if_pos rfl, hrt] at hrt'
    cases call with
    | stakeCandidate | unstakeCandidate => exact ⟨_, _, _, hrt', hru⟩
    | _ => cases hcall
  · exact (ht.recordsStake_iff hkt (by rintro rfl; cases hcall)).2 (.inl hcall)

/-- A delegation of `d` in the first run. -/
theorem stake (h : t.DiffersBy d c u) (hkt : t.UniqueKeys)
    (ht : Effect t d (.stakeCandidate c amount) t') : t'.DiffersBy d c u := by
  obtain ⟨_, _, -, -, -, hle, hreserve, -⟩ := ht.redelegates_stake
  obtain ⟨-, hr, hf⟩ := Ledger.reserve_eq_some hreserve
  have hr := hr d
  have hf := hf d
  have hdel : t'.delegationsOf c = withStake T d amount (t.delegationsOf c) :=
    (ht.delegationsOf c).trans (if_pos rfl)
  rw [if_pos rfl] at hr hf
  -- The stake does not saturate, as the balance it is reserved from does not.
  have hstake : stakeIn d (t'.delegationsOf c) = stakeIn d (t.delegationsOf c) + amount := by
    obtain ⟨-, hle, hor⟩ := stakeIn_withStake T d amount (t.delegationsOf c)
    rw [← hdel] at hle hor
    have := t'.currency.total_le d
    have := h.reserved
    omega
  refine h.own hkt ht (decide_eq_true rfl) ?_ (by omega) (by omega)
  rw [hdel, eraseKey_withStake_self]

/-- The withdrawal of the delegation of `d` in the first run. -/
theorem unstake (h : t.DiffersBy d c u) (hkt : t.UniqueKeys)
    (hgone : d ∉ (t'.delegationsOf c).map Delegation.delegator)
    (ht : Effect t d (.unstakeCandidate c) t') : t'.DiffersBy d c u := by
  obtain ⟨e, he, -, hcur, -⟩ := ht.redelegates_unstake
  have hdel : t'.delegationsOf c = eraseKey Delegation.delegator d (t.delegationsOf c) :=
    (ht.delegationsOf c).trans (if_pos rfl)
  have hstake : stakeIn d (t'.delegationsOf c) + e.stake = stakeIn d (t.delegationsOf c) := by
    rw [hdel]
    simpa using stakeIn_eraseKey (a := d) he
  -- All of the stake is reserved, and so released.
  have := h.reserved
  refine h.own hkt ht (decide_eq_true rfl) ?_ ?_ ?_
  · rw [← hdel, eraseKey_of_notMem hgone]
  · rw [hcur, Ledger.freeBalance_unreserve, if_pos rfl]
    omega
  · rw [hcur, Ledger.reservedBalance_unreserve, if_pos rfl]
    omega

/-- The start of a block in both runs. Its author is the same account. -/
theorem startBlock (h : t.DiffersBy d c u) (index : Option ℕ) :
    (t.startBlock index).DiffersBy d c (u.startBlock index) := by
  have hauthor : t.findAuthor index = u.findAuthor index := by
    rw [findAuthor, h.session, findAuthor]
  have hframe (s : State T AccountId) : (s.startBlock index).blockNumber = s.blockNumber + 1 ∧
      (s.startBlock index).session = s.session ∧
      (s.startBlock index).currency = s.currency := by
    obtain ⟨p, _, hs⟩ := s.startBlock_eq index
    rw [hs]
    exact ⟨rfl, rfl, rfl⟩
  have hdel (s : State T AccountId) (k : AccountId) :
      (s.startBlock index).delegationsOf k = s.delegationsOf k :=
    delegationsOf_congr (s.delegations_startBlock index) k
  have hrecords {s : State T AccountId} (hs : s.RecordsStake c) :
      (s.startBlock index).RecordsStake c := by
    refine (RecordsStake.congr (hdel s c) ?_).2 hs
    rw [candidate?_startBlock]
    split
    · exact Option.map_map _ _ _
    · rfl
  obtain ⟨hbt, hst, hct⟩ := hframe t
  obtain ⟨hbu, hsu, hcu⟩ := hframe u
  obtain ⟨r, totalStake, lastUpdated, hrt, hru⟩ := h.named
  refine ⟨?_, ?_, fun a ha => ?_, ?_, ?_, fun k => ?_, fun a ha => ?_, ?_, hrecords h.recorded.1,
    hrecords h.recorded.2⟩
  · rw [hbt, hbu, h.blockNumber]
  · rw [hst, hsu, h.session]
  · rw [hct, hcu, h.account a ha]
  · rw [hct, hcu, hdel, h.free]
  · rw [hct, hcu, hdel, h.reserved]
  · rw [hdel, hdel, h.delegationsOf]
  · rw [candidate?_startBlock, candidate?_startBlock, hauthor, h.blockNumber, h.candidate a ha]
  · rw [candidate?_startBlock, candidate?_startBlock, hauthor, h.blockNumber, hrt, hru]
    split
    · exact ⟨_, totalStake, lastUpdated, rfl, rfl⟩
    · exact ⟨r, totalStake, lastUpdated, rfl, rfl⟩

/-- What comes in and goes out of the balances in both runs. -/
theorem withCurrency (h : t.DiffersBy d c u) {l m : Ledger AccountId T.maxBalance}
    (haccount : ∀ a, a ≠ d → l.account a = m.account a)
    (hfree : l.freeBalance d + stakeIn d (t.delegationsOf c) = m.freeBalance d)
    (hreserved : l.reservedBalance d = m.reservedBalance d + stakeIn d (t.delegationsOf c)) :
    ({ t with currency := l } : State T AccountId).DiffersBy d c { u with currency := m } :=
  { h with account := haccount, free := hfree, reserved := hreserved }

end State.DiffersBy

/-! ### Steps -/

/-- The step is one of others than `d`: a call of another account, what other pallets do but
    for what they take from `d`, or the start of a block. It is not the end of a session. -/
def Step.isOthers (d : AccountId) : Step AccountId → Bool
  | .tx (.call (.signed who) _) | .tx (.withdraw who _) => who ≠ d
  | .rotate => false
  | _ => true

/-- The step is not a call that fails. -/
def State.accepts (s : State T AccountId) : Step AccountId → Bool
  | .tx (.call origin call) => s.succeeds (.tx (.call origin call))
  | _ => true

/-- A step of others in both runs. -/
theorem State.DiffersBy.step (h : t.DiffersBy d c u) (ht : (chain T AccountId).Reachable t)
    (hu : (chain T AccountId).Reachable u) (he : e.isOthers d) (hat : t.accepts e)
    (hau : u.accepts e) : (t.step e).DiffersBy d c (u.step e) := by
  cases e with
  | tx tx =>
    cases tx with
    | call origin call =>
      cases origin with
      | signed a =>
        exact h.other (uniqueKeys_of_reachable ht) (uniqueKeys_of_reachable hu)
          (State.effect_of_succeeds hat) (State.effect_of_succeeds hau) (of_decide_eq_true he)
      | root | none => cases hat
    | deposit who value =>
      -- Free and reserved balance together are the same in both.
      have hfree := h.free
      have hreserved := h.reserved
      have htotal : t.currency.freeBalance d + t.currency.reservedBalance d =
          u.currency.freeBalance d + u.currency.reservedBalance d := by omega
      refine h.withCurrency (fun a ha => Ledger.account_deposit_congr (h.account a ha)) ?_ ?_
      · rw [Ledger.freeBalance_deposit, Ledger.freeBalance_deposit, htotal]
        omega
      · rw [Ledger.reservedBalance_deposit, Ledger.reservedBalance_deposit, hreserved]
    | withdraw who value =>
      have hne : d ≠ who := fun hd => of_decide_eq_true he hd.symm
      refine h.withCurrency (fun a ha => Ledger.account_withdraw_congr (h.account a ha)) ?_ ?_
      · rw [Ledger.freeBalance_withdraw, Ledger.freeBalance_withdraw, if_neg hne, Nat.sub_zero,
          Nat.sub_zero, h.free]
      · rw [Ledger.reservedBalance_withdraw, Ledger.reservedBalance_withdraw, h.reserved]
    | grants grants => exact h.withCurrency h.account h.free h.reserved
    | sessionKeys hasKeys =>
      have hsession : { t.session with hasKeys } = { u.session with hasKeys } :=
        congrArg (fun session : Session AccountId => { session with hasKeys }) h.session
      exact { h with session := hsession }
  | block index => exact h.startBlock index
  | rotate => cases he

/-- A step of others makes no delegation of `d`. -/
theorem notMem_delegators_step (he : e.isOthers d)
    (h : d ∉ (s.delegationsOf c).map Delegation.delegator) :
    d ∉ ((s.step e).delegationsOf c).map Delegation.delegator := by
  have hn := s.next_step e
  generalize s.step e = s' at hn
  cases hn with
  | call hcall => rwa [hcall.delegationsOf, Call.mem_redelegate (of_decide_eq_true he)]
  | failed => exact h
  | other => exact h
  | block index => rwa [State.delegationsOf_congr (s.delegations_startBlock index)]
  | rotate => cases he

/-! ### Two runs -/

/-- The steps of others. -/
def stepsOfOthers (d : AccountId) (es : List (Step AccountId)) : List (Step AccountId) :=
  es.filter (Step.isOthers d)

/-- Along a run of steps of others, and of delegations of `d` behind `c`, which are in the
    first run only, the two runs differ by the delegation of `d` only. -/
theorem differsBy_run (ht : (chain T AccountId).Reachable t)
    (hu : (chain T AccountId).Reachable u) (h : t.DiffersBy d c u)
    (hes : ∀ e ∈ es, e.isOthers d ∨ ∃ amount, e = .signed d (.stakeCandidate c amount))
    (hat : (chain T AccountId).Along (fun s e => s.accepts e) t es)
    (hau : (chain T AccountId).Along (fun s e => s.accepts e) u (stepsOfOthers d es)) :
    ((chain T AccountId).run t es).DiffersBy d c
      ((chain T AccountId).run u (stepsOfOthers d es)) := by
  refine System.related_run_filter (R := fun t u : State T AccountId => t.DiffersBy d c u) ht hu h
    hat hau (fun t u e he ht _ hown hat h => ?_)
    fun t u e _ ht hu he hat hau h => h.step ht hu he hat hau
  obtain ⟨amount, rfl⟩ := (hes e he).resolve_left hown
  exact h.stake (uniqueKeys_of_reachable ht) (State.effect_of_succeeds hat)

/-! ### No trace -/

/-- The record, without the time of its last update if it is that of `c`. -/
def CandidateInfo.forgetUpdate (c : AccountId) (r : CandidateInfo AccountId) :
    CandidateInfo AccountId := if r.who = c then { r with lastUpdated := 0 } else r

/-- Two states with the same balances, the same delegations, and the same set of records
    but for the time of the last update of `c`. -/
structure State.AgreesUpToUpdate (t : State T AccountId) (c : AccountId) (u : State T AccountId) :
    Prop where
  free : ∀ a, t.currency.freeBalance a = u.currency.freeBalance a
  reserved : ∀ a, t.currency.reservedBalance a = u.currency.reservedBalance a
  delegations : ∀ k, t.delegations.lookup k = u.delegations.lookup k
  records : (t.proposedCandidates.toList.map (CandidateInfo.forgetUpdate c)).Perm
    (u.proposedCandidates.toList.map (CandidateInfo.forgetUpdate c))

theorem CandidateInfo.who_forgetUpdate (r : CandidateInfo AccountId) :
    (r.forgetUpdate c).who = r.who := by
  rw [forgetUpdate]
  split <;> rfl

/-- Records that are the same for each account, but for one field of one of them, are the
    same set. -/
theorem perm_forgetUpdate (hkt : t.UniqueKeys) (hku : u.UniqueKeys)
    (h : ∀ a, (t.candidate? a).map (CandidateInfo.forgetUpdate c) =
      (u.candidate? a).map (CandidateInfo.forgetUpdate c)) :
    (t.proposedCandidates.toList.map (CandidateInfo.forgetUpdate c)).Perm
      (u.proposedCandidates.toList.map (CandidateInfo.forgetUpdate c)) := by
  have hnodup {s : State T AccountId} (hk : s.UniqueKeys) :
      ((s.proposedCandidates.toList.map (CandidateInfo.forgetUpdate c)).map
        CandidateInfo.who).Nodup := by
    have : CandidateInfo.who ∘ CandidateInfo.forgetUpdate c = CandidateInfo.who :=
      funext CandidateInfo.who_forgetUpdate
    rwa [List.map_map, this]
  refine perm_of_findKey (hnodup hkt) (hnodup hku) fun a => ?_
  rw [findKey_map CandidateInfo.who_forgetUpdate, findKey_map CandidateInfo.who_forgetUpdate]
  exact h a

/-- Without the delegation, there is no difference left. -/
theorem State.DiffersBy.agreesUpToUpdate (h : t.DiffersBy d c u)
    (ht : (chain T AccountId).Reachable t) (hu : (chain T AccountId).Reachable u)
    (hd : d ∉ (t.delegationsOf c).map Delegation.delegator) : t.AgreesUpToUpdate c u := by
  have hfree := h.free
  have hreserved := h.reserved
  rw [stakeIn_eq_zero hd, Nat.add_zero] at hfree hreserved
  have hdel (k : AccountId) : t.delegationsOf k = u.delegationsOf k := by
    rw [h.delegationsOf]
    split
    · next hk => rw [hk, eraseKey_of_notMem hd]
    · rfl
  refine ⟨fun a => ?_, fun a => ?_, fun k => lookup_delegations_congr ht hu (hdel k),
    perm_forgetUpdate (uniqueKeys_of_reachable ht) (uniqueKeys_of_reachable hu) fun a => ?_⟩
  · by_cases ha : a = d
    · rw [ha, hfree]
    · exact congrArg Account.free (h.account a ha)
  · by_cases ha : a = d
    · rw [ha, hreserved]
    · exact congrArg Account.reserved (h.account a ha)
  · by_cases ha : a = c
    · obtain ⟨r, totalStake, lastUpdated, hrt, hru⟩ := h.named
      -- Both record the sum of the same delegations.
      have hsum : r.totalStake = totalStake := by
        have h₁ := h.recorded.1 r hrt
        have h₂ := h.recorded.2 _ hru
        rw [h₁, State.totalDelegated_congr (hdel c), ← h₂]
      have hwho : r.who = c := State.who_candidate? hrt
      rw [ha, hrt, hru, Option.map_some, Option.map_some, CandidateInfo.forgetUpdate,
        CandidateInfo.forgetUpdate, if_pos hwho, if_pos hwho, hsum]
    · rw [h.candidate a ha]

/-- From a reachable state in which `d` has no delegation behind the registered candidate
    `c`, whose recorded stake is right: after delegations of `d` behind `c`, interleaved
    with steps of others, and their withdrawal, everything is as after the steps of the
    others alone, but for the time of the last update of `c`, as long as all calls succeed
    in both runs, and no session ends. -/
theorem leavesNoTrace_of_reachable (hs : (chain T AccountId).Reachable s)
    (hd : d ∉ (s.delegationsOf c).map Delegation.delegator) (hc : (s.candidate? c).isSome)
    (hr : s.RecordsStake c)
    (hes : ∀ e ∈ es, e.isOthers d ∨ ∃ amount, e = .signed d (.stakeCandidate c amount))
    (hes' : ∀ e ∈ es', e.isOthers d)
    (hall : (chain T AccountId).Along (fun s e => s.accepts e) s
      (es ++ Step.signed d (.unstakeCandidate c) :: es'))
    (hothers : (chain T AccountId).Along (fun s e => s.accepts e) s
      (stepsOfOthers d es ++ es')) :
    ((chain T AccountId).run s
      (es ++ Step.signed d (.unstakeCandidate c) :: es')).AgreesUpToUpdate c
        ((chain T AccountId).run s (stepsOfOthers d es ++ es')) := by
  obtain ⟨hst, hunstake, hst'⟩ := System.along_append.1 hall
  obtain ⟨hsu, hsu'⟩ := System.along_append.1 hothers
  have ht := hs.run es
  have hu := hs.run (stepsOfOthers d es)
  have hbefore := differsBy_run hs hs (.refl hd hc hr) hes hst hsu
  rw [System.run_append, System.run_append, System.run_cons]
  -- The withdrawal.
  have ht' := ht.step (.signed d (.unstakeCandidate c))
  have he : Effect ((chain T AccountId).run s es) d (.unstakeCandidate c)
      ((chain T AccountId).step ((chain T AccountId).run s es)
        (.signed d (.unstakeCandidate c))) := State.effect_of_succeeds hunstake
  generalize (chain T AccountId).step ((chain T AccountId).run s es)
    (.signed d (.unstakeCandidate c)) = t at ht' he hst' ⊢
  have hgone : d ∉ (t.delegationsOf c).map Delegation.delegator := by
    rw [he.delegationsOf, Call.redelegate, if_pos rfl,
      eraseKey_eq_filter (nodup_delegators_of_reachable ht c)]
    simp
  have hafter := hbefore.unstake (uniqueKeys_of_reachable ht) hgone he
  -- The rest of the steps are of others.
  have hrest : stepsOfOthers d es' = es' := List.filter_eq_self.2 hes'
  have hend := differsBy_run ht' hu hafter (fun e he => .inl (hes' e he)) hst' (by rwa [hrest])
  rw [hrest] at hend
  refine hend.agreesUpToUpdate (ht'.run es') (hu.run es') ?_
  exact System.run_induction (Q := fun s : State T AccountId =>
    d ∉ (s.delegationsOf c).map Delegation.delegator) hgone fun s e he h =>
      notMem_delegators_step (hes' e he) h

/-- Two delegations in two blocks and a withdrawal, between the delegation and the withdrawal
    of another. -/
theorem leavesNoTrace_development :
    let s := (chain Config.runtime Keyring).run developmentState
      [.signed .bob .registerCandidate, .signed .bob (.bondCandidate (10 ^ 14)), .block none]
    let es : List (Step Keyring) := [.signed .aliceStash (.stakeCandidate .bob 5),
      .signed .bobStash (.stakeCandidate .bob 7), .block (some 0),
      .signed .aliceStash (.stakeCandidate .bob 9)]
    let es' : List (Step Keyring) := [.block none, .signed .bobStash (.unstakeCandidate .bob)]
    ((chain Config.runtime Keyring).run s
      (es ++ Step.signed .aliceStash (.unstakeCandidate .bob) :: es')).AgreesUpToUpdate .bob
        ((chain Config.runtime Keyring).run s (stepsOfOthers .aliceStash es ++ es')) := by
  intro s es es'
  refine leavesNoTrace_of_reachable ((System.Reachable.init developmentState_mem).run _)
    (by decide) (by decide) ?_ (by simp [es, Step.isOthers]) (by simp [es', Step.isOthers]) ?_ ?_
  · intro c hc
    have : s.candidate? .bob = some ⟨.bob, 10 ^ 14, 0, 0, 0, false, false, 0, .online⟩ := by decide
    cases this.symm.trans hc
    rfl
  · exact ⟨by decide, by decide, by decide, by decide, by decide, by decide, by decide, trivial⟩
  · exact ⟨by decide, by decide, by decide, by decide, trivial⟩

end Xode.Staking
