import Xode.Staking.Reserves

/-!
# Bonds

A candidate raises and lowers its bond in any number of calls, some of which fail. The
bond moves between its free and its reserved balance by differences, each computed from
the bond recorded then; what counts in the end is the amount of the last call that
succeeded (`bondsByTheLast`). A call that fails leaves nothing behind, also when nobody
undoes its writes, since the bond moves only after every check, and the record is
written only after the bond has moved (`atomic_bondCandidate`).
-/

namespace Xode.Staking

variable {T : Config} {AccountId : Type} [DecidableEq AccountId]
  {s s' : State T AccountId} {c who : AccountId} {bond newBond b₀ : ℕ}

/-! ### Failures -/

theorem atomic_ensureOutOfPipeline : Atomic (ensureOutOfPipeline (T := T) who) :=
  infallible_get.atomic.bind readOnly_get fun _ =>
    atomic_ensure.bind readOnly_ensure fun _ => atomic_ensure.bind readOnly_ensure fun _ =>
      atomic_ensure

theorem readOnly_ensureBondAllowed : ReadOnly (ensureBondAllowed (T := T) who newBond) :=
  fun _ _ _ h => (ensureBondAllowed_eq_ok.1 h).2.symm

theorem atomic_ensureBondAllowed : Atomic (ensureBondAllowed (T := T) who newBond) := by
  rw [ensureBondAllowed]
  split
  · exact atomic_ensureOutOfPipeline
  · exact atomic_ensure

theorem readOnly_findCandidate : ReadOnly (findCandidate (T := T) who) :=
  fun _ _ _ h => (findCandidate_eq_ok.1 h).2.symm

theorem atomic_findCandidate : Atomic (findCandidate (T := T) who) :=
  infallible_get.atomic.bind readOnly_get fun _ => atomic_okOr

theorem atomic_reserve : Atomic (reserve (T := T) who bond) :=
  infallible_get.atomic.bind readOnly_get fun _ =>
    atomic_okOr.bind readOnly_okOr fun _ => infallible_modify.atomic

theorem atomic_moveBond : Atomic (moveBond (T := T) who bond newBond) := by
  rw [moveBond]
  split
  · exact infallible_get.atomic.bind readOnly_get fun _ =>
      atomic_ensure.bind readOnly_ensure fun _ => atomic_reserve
  split
  · exact infallible_modify.atomic
  · exact infallible_pure.atomic

/-- A failed `bond_candidate` has written nothing. -/
theorem atomic_bondCandidate {origin : RawOrigin AccountId} :
    Atomic (bondCandidate (T := T) origin newBond) :=
  atomic_ensureSigned.bind readOnly_ensureSigned fun _ =>
    atomic_ensureBondAllowed.bind readOnly_ensureBondAllowed fun _ =>
      atomic_findCandidate.bind readOnly_findCandidate fun _ =>
        -- The bond has moved, and nothing can fail any more.
        atomic_moveBond.bind_infallible fun _ =>
          infallible_modify.bind fun _ => infallible_modify.bind fun _ => infallible_modify

/-! ### Successes -/

namespace State

/-- The only record of `c` has the bond `bond`. -/
def Bonded (s : State T AccountId) (c : AccountId) (bond : ℕ) : Prop :=
  (s.proposedCandidates.toList.filter fun r => r.who = c).map CandidateInfo.bond = [bond]

instance : Decidable (s.Bonded c bond) := inferInstanceAs (Decidable (_ = _))

theorem Bonded.filter_eq (h : s.Bonded c bond) :
    ∃ r, (s.proposedCandidates.toList.filter fun r => r.who = c) = [r] ∧ r.bond = bond :=
  List.map_eq_singleton_iff.1 h

theorem Bonded.candidate? (h : s.Bonded c bond) : ∃ r, s.candidate? c = some r ∧ r.bond = bond := by
  obtain ⟨r, hr, hbond⟩ := h.filter_eq
  exact ⟨r, by rw [State.candidate?, ← head?_filter_key, hr]; rfl, hbond⟩

/-- What setting the bond of `c` to `bond`, from `b₀`, makes of the record and the
    balances of `c`. -/
structure Rebonds (s : State T AccountId) (c : AccountId) (b₀ bond : ℕ) (s' : State T AccountId) :
    Prop where
  bonded : s'.Bonded c bond
  reserved : s'.currency.reservedBalance c = s.currency.reservedBalance c - b₀ + bond
  free : s'.currency.freeBalance c + bond = s.currency.freeBalance c + b₀

theorem Rebonds.trans {s'' : State T AccountId} (h : s.Rebonds c b₀ bond s')
    (h' : s'.Rebonds c bond newBond s'') : s.Rebonds c b₀ newBond s'' where
  bonded := h'.bonded
  reserved := by have := h.reserved; have := h'.reserved; omega
  free := by have := h.free; have := h'.free; omega

end State

/-- Of the two differences between the bonds, one is zero; the bond being reserved, the
    other moves in full. -/
theorem freeBalance_bondMoved {l currency : Ledger AccountId T.maxBalance}
    (h : bondMoved l who bond newBond = some currency) (hb : bond ≤ l.reservedBalance who) :
    currency.freeBalance who + newBond = l.freeBalance who + bond := by
  rw [bondMoved] at h
  split at h
  · obtain ⟨hfree, -, hl⟩ := Ledger.reserve_eq_some h
    rw [hl, if_pos rfl]
    omega
  · cases h
    rw [Ledger.freeBalance_unreserve, if_pos rfl]
    omega

/-- Setting the bond rewrites the only record of the candidate, wherever it then goes. -/
theorem Effect.bonded (h : Effect s c (.bondCandidate newBond) s') (hb : s.Bonded c bond) :
    s'.Bonded c newBond := by
  obtain ⟨r, hr, -⟩ := hb.filter_eq
  have hmem : r ∈ s.proposedCandidates.toList.filter fun r => r.who = c :=
    hr ▸ List.mem_singleton_self r
  have hwho : r.who = c := of_decide_eq_true (List.mem_filter.1 hmem).2
  cases h with
  | bondCandidate =>
    set f : CandidateInfo AccountId → CandidateInfo AccountId :=
      fun c => { c with bond := newBond, lastUpdated := s.blockNumber }
    -- Sorting permutes the records of the candidate, of which there is one.
    have hperm := ((BoundedVec.perm_sortBy (s.proposedCandidates.updateKey CandidateInfo.who c f)
      (rankCmp T)).filter fun r => r.who = c).map CandidateInfo.bond
    refine List.perm_singleton.1 (hperm.trans (.of_eq ?_))
    rw [BoundedVec.toList_updateKey, filter_updateKey_self (by exact fun _ => rfl), hr,
      updateKey_cons, if_pos hwho]
    rfl

theorem Effect.rebonds (h : Effect s c (.bondCandidate newBond) s') (hb : s.Bonded c b₀)
    (hr : b₀ ≤ s.currency.reservedBalance c) : s.Rebonds c b₀ newBond s' := by
  have hbonded := h.bonded hb
  obtain ⟨r, hc, rfl⟩ := hb.candidate?
  cases h with
  | bondCandidate hc' _ hmove =>
    obtain rfl := Option.some.inj (hc.symm.trans hc')
    refine ⟨hbonded, (reservedBalance_bondMoved hmove c).trans ?_, freeBalance_bondMoved hmove hr⟩
    rw [if_pos rfl, if_pos rfl]
    omega

/-! ### Any number of calls -/

/-- A call that sets a bond, and what the currency grants reserves of by then. -/
structure BondCall (AccountId : Type) where
  grants : AccountId → ℕ → Bool
  newBond : ℕ

namespace State

/-- The storage with other reserves granted. -/
def granting (s : State T AccountId) (grants : AccountId → ℕ → Bool) : State T AccountId :=
  { s with currency := { s.currency with grants } }

/-- The storage after calls of `c` that set its bond. Nobody undoes the writes of those
    that fail. -/
def bondCalls (s : State T AccountId) (c : AccountId) : List (BondCall AccountId) →
    State T AccountId
  | [] => s
  | x :: xs =>
    (finalState (bondCandidate (.signed c) x.newBond) (s.granting x.grants)).bondCalls c xs

/-- The amount of the last of the calls that succeeds, `bond` if none does. -/
def lastBond (s : State T AccountId) (c : AccountId) (bond : ℕ) : List (BondCall AccountId) → ℕ
  | [] => bond
  | x :: xs =>
    (finalState (bondCandidate (.signed c) x.newBond) (s.granting x.grants)).lastBond c
      (if Xode.succeeds (bondCandidate (.signed c) x.newBond) (s.granting x.grants) then x.newBond
        else bond) xs

/-- A call of `c` sets the bond if it succeeds, and leaves everything if it fails. -/
theorem rebonds_bondCandidate (hb : s.Bonded c b₀) (hr : b₀ ≤ s.currency.reservedBalance c) :
    s.Rebonds c b₀
      (if Xode.succeeds (bondCandidate (.signed c) newBond) s then newBond else b₀)
      (finalState (bondCandidate (.signed c) newBond) s) := by
  rw [finalState, Xode.succeeds]
  cases h : bondCandidate (.signed c) newBond s with
  | ok u s' =>
    obtain ⟨who, hwho, he⟩ := bondCandidate_eq_ok.1 h
    cases hwho
    exact he.rebonds hb hr
  | error d s' =>
    obtain rfl := atomic_bondCandidate _ _ _ h
    exact ⟨hb, by simpa using (Nat.sub_add_cancel hr).symm, rfl⟩

theorem rebonds_bondCalls {xs : List (BondCall AccountId)} (hb : s.Bonded c b₀)
    (hr : b₀ ≤ s.currency.reservedBalance c) :
    s.Rebonds c b₀ (s.lastBond c b₀ xs) (s.bondCalls c xs) := by
  induction xs generalizing s b₀ with
  | nil => exact ⟨hb, (Nat.sub_add_cancel hr).symm, rfl⟩
  | cons x xs ih =>
    have hcall : (s.granting x.grants).Rebonds c b₀ _
        (finalState (bondCandidate (.signed c) x.newBond) (s.granting x.grants)) :=
      rebonds_bondCandidate hb hr
    have hx : s.Rebonds c b₀ _ _ := ⟨hcall.bonded, hcall.reserved, hcall.free⟩
    exact hx.trans (ih hx.bonded (by rw [hx.reserved]; exact Nat.le_add_left _ _))

end State

/-- A candidate whose bond is reserved may set it in any calls, of which any may fail, with
    nobody undoing their writes: in the end its record and its balances are as if it had
    only set the amount of the last call that succeeded. Each failed call leaves the
    storage as it was. -/
theorem bondsByTheLast (s : State T AccountId) (c : AccountId) (b₀ : ℕ)
    (xs : List (BondCall AccountId)) (hb : s.Bonded c b₀)
    (hr : b₀ ≤ s.currency.reservedBalance c) :
    s.Rebonds c b₀ (s.lastBond c b₀ xs) (s.bondCalls c xs) ∧
      ∀ newBond (s₁ s₂ : State T AccountId) d,
        bondCandidate (.signed c) newBond s₁ = .error d s₂ → s₂ = s₁ :=
  ⟨State.rebonds_bondCalls hb hr, fun _ s₁ s₂ d h => atomic_bondCandidate s₁ d s₂ h⟩

/-- A bond is raised, then set too low, then not raised any further since the currency
    grants nothing, and lowered again. -/
theorem bondsByTheLast_development :
    let s := (chain Config.runtime Keyring).run developmentState
      [.signed .bob .registerCandidate, .signed .bob (.bondCandidate (10 ^ 14))]
    let xs : List (BondCall Keyring) :=
      [⟨fun _ _ => true, 3 * 10 ^ 14⟩, ⟨fun _ _ => true, 1⟩, ⟨fun _ _ => false, 4 * 10 ^ 14⟩,
        ⟨fun _ _ => false, 2 * 10 ^ 14⟩]
    s.Rebonds .bob (10 ^ 14) (s.lastBond .bob (10 ^ 14) xs) (s.bondCalls .bob xs) ∧
      ∀ newBond (s₁ s₂ : State Config.runtime Keyring) d,
        bondCandidate (.signed Keyring.bob) newBond s₁ = .error d s₂ → s₂ = s₁ :=
  bondsByTheLast _ _ _ _ (by decide +kernel) (by decide +kernel)

end Xode.Staking
