import Xode.Freezer.Basic

/-!
# Flags and freezes

The pallet answers `AlreadyFrozen` and `NotFrozen` by its own map, and what an account
can spend goes by the freeze the currency records. Every call writes both together: it
fails, or has one of five effects (`Effect`). They agree throughout a run exactly when
no account is frozen by an amount of zero (`always_flagged_iff`), which the currency
takes for no freeze at all.
-/

namespace Xode.Freezer

variable {Origin AccountId : Type} [DecidableEq AccountId] {T : Config Origin}
  {s s' : State AccountId} {origin : Origin} {who a : AccountId} {amount : ℕ} {u : Unit}
  {call : Call AccountId}

/-! ### What the calls do -/

/-- The effect of a successful call. -/
inductive Effect (T : Config Origin) (s : State AccountId) : Call AccountId → State AccountId → Prop
  | freezeAccount {who : AccountId} {currency : Freezes AccountId} : who ∉ s.frozen →
      s.currency.setFreeze who T.maxBalance = some currency →
      Effect T s (.freezeAccount who)
        (State.depositEvent { s with currency, frozen := s.frozen.insert who () }
          (.accountFrozen who))
  | freezeAmount {who : AccountId} {amount : ℕ} {currency : Freezes AccountId} : who ∉ s.frozen →
      s.currency.setFreeze who amount = some currency →
      Effect T s (.freezeAmount who amount)
        (State.depositEvent { s with currency, frozen := s.frozen.insert who () }
          (.amountFrozen who amount))
  | thawAccount {who : AccountId} {currency : Freezes AccountId} : who ∈ s.frozen →
      s.currency.thaw who = some currency →
      Effect T s (.thawAccount who)
        (State.depositEvent { s with currency, frozen := s.frozen.erase who } (.accountThawed who))
  /-- A thaw of all that is frozen. -/
  | thawAll {who : AccountId} {amount : ℕ} {currency : Freezes AccountId} : who ∈ s.frozen →
      amount = s.currency.balanceFrozen who → s.currency.thaw who = some currency →
      Effect T s (.thawAmount who amount)
        (State.depositEvent { s with currency, frozen := s.frozen.erase who }
          (.amountThawed who amount))
  /-- A thaw that leaves something frozen. -/
  | thawPart {who : AccountId} {amount : ℕ} {currency : Freezes AccountId} : who ∈ s.frozen →
      amount < s.currency.balanceFrozen who →
      s.currency.setFreeze who (s.currency.balanceFrozen who - amount) = some currency →
      Effect T s (.thawAmount who amount)
        (State.depositEvent { s with currency } (.amountThawed who amount))

omit [DecidableEq AccountId] in
theorem ensureOrigin_eq_ok :
    ensureOrigin T origin s = .ok u s' ↔ T.freezeOrigin origin ∧ s = s' := by
  rw [ensureOrigin]
  split
  · next h => simp [h, pure_eq_ok]
  · next h => simp [h, throw_ne_ok]

theorem setFreeze_eq_ok :
    setFreeze who amount s = .ok u s' ↔
      ∃ currency, s.currency.setFreeze who amount = some currency ∧ { s with currency } = s' := by
  simp only [setFreeze, bind_eq_ok, get_eq_ok, okOr_eq_ok, modify_eq_ok, and_assoc, ↓existsAndEq,
    true_and]

theorem thaw_eq_ok :
    thaw who s = .ok u s' ↔
      ∃ currency, s.currency.thaw who = some currency ∧ { s with currency } = s' := by
  simp only [thaw, bind_eq_ok, get_eq_ok, okOr_eq_ok, modify_eq_ok, and_assoc, ↓existsAndEq,
    true_and]

theorem freeze_eq_ok {event : Event AccountId} :
    freeze T origin who amount event s = .ok u s' ↔ T.freezeOrigin origin ∧ who ∉ s.frozen ∧
      ∃ currency, s.currency.setFreeze who amount = some currency ∧
        State.depositEvent { s with currency, frozen := s.frozen.insert who () } event = s' := by
  simp only [freeze, bind_eq_ok, ensureOrigin_eq_ok, get_eq_ok, ensure_eq_ok, setFreeze_eq_ok,
    modify_eq_ok, and_assoc, ↓existsAndEq, true_and, exists_const, exists_and_left]

theorem thawAccount_eq_ok :
    thawAccount T origin who s = .ok u s' ↔ T.freezeOrigin origin ∧ who ∈ s.frozen ∧
      ∃ currency, s.currency.thaw who = some currency ∧
        State.depositEvent { s with currency, frozen := s.frozen.erase who } (.accountThawed who) =
          s' := by
  simp only [thawAccount, bind_eq_ok, ensureOrigin_eq_ok, get_eq_ok, ensure_eq_ok, thaw_eq_ok,
    modify_eq_ok, and_assoc, ↓existsAndEq, true_and, exists_const, exists_and_left]

theorem thawAmount_eq_ok :
    thawAmount T origin who amount s = .ok u s' ↔
      T.freezeOrigin origin ∧ Effect T s (.thawAmount who amount) s' := by
  simp only [thawAmount, bind_eq_ok, ensureOrigin_eq_ok, get_eq_ok, ensure_eq_ok, and_assoc,
    ↓existsAndEq, true_and, exists_const, exists_and_left]
  refine and_congr_right fun _ => ?_
  by_cases h : s.currency.balanceFrozen who - amount = 0
  · simp only [h, if_true, bind_eq_ok, thaw_eq_ok, modify_eq_ok, and_assoc, ↓existsAndEq, true_and,
      exists_const]
    constructor
    · rintro ⟨hw, hle, currency, hthaw, rfl⟩
      exact .thawAll hw (by omega) hthaw
    · intro he
      cases he with
      | thawAll hw heq hthaw => exact ⟨hw, heq.le, _, hthaw, rfl⟩
      | thawPart hw hlt => omega
  · simp only [h, if_false, bind_eq_ok, setFreeze_eq_ok, modify_eq_ok, and_assoc, ↓existsAndEq,
      true_and, exists_const]
    constructor
    · rintro ⟨hw, hle, currency, hset, rfl⟩
      exact .thawPart hw (by omega) hset
    · intro he
      cases he with
      | thawAll hw heq => omega
      | thawPart hw hlt hset => exact ⟨hw, hlt.le, _, hset, rfl⟩

/-- A call succeeds exactly when its origin is allowed to freeze and it has an effect. -/
theorem code_eq_ok :
    call.code T origin s = .ok () s' ↔ T.freezeOrigin origin ∧ Effect T s call s' := by
  cases call with
  | freezeAccount who =>
    refine freeze_eq_ok.trans (and_congr_right fun _ => ⟨?_, fun h => ?_⟩)
    · rintro ⟨hw, currency, hset, rfl⟩
      exact .freezeAccount hw hset
    · cases h with
      | freezeAccount hw hset => exact ⟨hw, _, hset, rfl⟩
  | freezeAmount who amount =>
    refine freeze_eq_ok.trans (and_congr_right fun _ => ⟨?_, fun h => ?_⟩)
    · rintro ⟨hw, currency, hset, rfl⟩
      exact .freezeAmount hw hset
    · cases h with
      | freezeAmount hw hset => exact ⟨hw, _, hset, rfl⟩
  | thawAccount who =>
    refine thawAccount_eq_ok.trans (and_congr_right fun _ => ⟨?_, fun h => ?_⟩)
    · rintro ⟨hw, currency, hthaw, rfl⟩
      exact .thawAccount hw hthaw
    · cases h with
      | thawAccount hw hthaw => exact ⟨hw, _, hthaw, rfl⟩
  | thawAmount who amount => exact thawAmount_eq_ok

/-- What a step does: a call with its effect, or nothing to flags and freezes. -/
theorem State.step_cases (T : Config Origin) (s : State AccountId) (e : Step Origin AccountId) :
    (∃ origin call, e = .call origin call ∧ T.freezeOrigin origin ∧ Effect T s call (s.step T e)) ∨
      ((∀ origin call, e = .call origin call → T.freezeOrigin origin → ∀ s', ¬Effect T s call s') ∧
        (s.step T e).frozen = s.frozen ∧
        (s.step T e).currency.balanceFrozen = s.currency.balanceFrozen) := by
  cases e with
  | accepts accepts => exact .inr ⟨nofun, rfl, rfl⟩
  | call origin call =>
    rcases h : call.code T origin s with ⟨u, s'⟩ | ⟨d, s'⟩
    · have hstep : s.step T (.call origin call) = s' := dispatch_of_ok h
      rw [hstep]
      exact .inl ⟨origin, call, rfl, code_eq_ok.1 h⟩
    · have hstep : s.step T (.call origin call) = s := by simp only [step, dispatch, h]
      rw [hstep]
      refine .inr ⟨fun origin' call' he ho s'' heff => ?_, rfl, rfl⟩
      cases he
      rw [code_eq_ok.2 ⟨ho, heff⟩] at h
      cases h

/-! ### Flags and freezes -/

namespace State

/-- The accounts flagged as frozen are those with a freeze recorded. -/
def Flagged (s : State AccountId) : Prop :=
  ∀ a, a ∈ s.frozen ↔ 0 < s.currency.balanceFrozen a

/-- No account is frozen by an amount of zero: such a call is not allowed, or finds the
    account frozen, or is refused by the currency. -/
def FreezesSomething (T : Config Origin) (s : State AccountId) (e : Step Origin AccountId) : Prop :=
  ∀ origin who, e = .call origin (.freezeAmount who 0) → T.freezeOrigin origin →
    who ∉ s.frozen → ¬s.currency.accepts who 0

end State

/-- Writing the flag and the freeze of one account keeps flags and freezes in agreement
    exactly when the two written agree. -/
theorem State.Flagged.write_iff (h : s.Flagged) (flag : Prop) {amount : ℕ}
    (hflag : ∀ a, a ∈ s'.frozen ↔ if a = who then flag else a ∈ s.frozen)
    (hfreeze : ∀ a, s'.currency.balanceFrozen a =
      if a = who then amount else s.currency.balanceFrozen a) :
    s'.Flagged ↔ (flag ↔ 0 < amount) := by
  constructor
  · intro h'
    have := h' who
    rwa [hflag, hfreeze, if_pos rfl, if_pos rfl] at this
  · intro h' a
    rw [hflag, hfreeze]
    split
    exacts [h', h a]

/-- A call keeps flags and freezes in agreement, unless it freezes an amount of zero. -/
theorem Effect.flagged_iff (he : Effect T s call s') (h : s.Flagged) :
    s'.Flagged ↔ ∀ who, call ≠ .freezeAmount who 0 := by
  have hinsert (who a : AccountId) : a ∈ s.frozen.insert who () ↔
      if a = who then True else a ∈ s.frozen := by
    rw [AList.mem_insert]
    split <;> simp [*]
  have herase (who a : AccountId) : a ∈ s.frozen.erase who ↔
      if a = who then False else a ∈ s.frozen := by
    rw [AList.mem_erase]
    split <;> simp [*]
  cases he with
  | freezeAccount hw hset =>
    refine iff_of_true ((h.write_iff True (hinsert _)
      fun _ => Freezes.balanceFrozen_setFreeze hset).2 ?_) (by simp)
    exact iff_of_true trivial T.maxBalance_pos
  | freezeAmount hw hset =>
    rw [h.write_iff True (hinsert _) fun _ => Freezes.balanceFrozen_setFreeze hset, true_iff,
      Nat.pos_iff_ne_zero]
    simp
  | thawAccount hw hthaw =>
    refine iff_of_true ((h.write_iff False (herase _)
      fun _ => Freezes.balanceFrozen_thaw hthaw).2 ?_) (by simp)
    exact iff_of_false id (lt_irrefl 0)
  | thawAll hw _ hthaw =>
    refine iff_of_true ((h.write_iff False (herase _)
      fun _ => Freezes.balanceFrozen_thaw hthaw).2 ?_) (by simp)
    exact iff_of_false id (lt_irrefl 0)
  | thawPart hw hlt hset =>
    -- The flag stays, and so does some of the freeze.
    refine iff_of_true ((h.write_iff True (fun a => ?_)
      fun _ => Freezes.balanceFrozen_setFreeze hset).2 ?_) (by simp)
    · split
      · next ha => exact iff_of_true (ha ▸ hw) trivial
      · rfl
    · exact iff_of_true trivial (Nat.sub_pos_of_lt hlt)

/-- Whether flags and freezes still agree after a step. -/
theorem State.flagged_step_iff (T : Config Origin) (h : s.Flagged) (e : Step Origin AccountId) :
    (s.step T e).Flagged ↔ s.FreezesSomething T e := by
  obtain ⟨origin, call, rfl, ho, he⟩ | ⟨hfail, hflag, hfreeze⟩ := s.step_cases T e
  · generalize s.step T (.call origin call) = s' at he ⊢
    rw [he.flagged_iff h]
    constructor
    · intro hne origin' who hcall
      cases hcall
      exact absurd rfl (hne who)
    · rintro hsome who rfl
      cases he with
      | freezeAmount hw hset => exact hsome origin who rfl ho hw (Freezes.setFreeze_eq_some hset).1
  · refine iff_of_true (fun a => by rw [hflag, hfreeze, h a]) fun origin who hcall ho hw hacc => ?_
    exact hfail origin _ hcall ho _ (.freezeAmount hw (if_pos hacc))

/-- Throughout a run, exactly the accounts in the map have a freeze recorded, exactly
    when no account is frozen by an amount of zero. -/
theorem always_flagged_iff {es : List (Step Origin AccountId)} (h₀ : s ∈ (chain T AccountId).init) :
    (chain T AccountId).Always State.Flagged s es ↔
      (chain T AccountId).Along (State.FreezesSomething T) s es := by
  refine System.always_iff_along (.init h₀) ?_ fun s e _ h => s.flagged_step_iff T h e
  obtain ⟨accepts, rfl⟩ := h₀
  exact fun a => iff_of_false (AList.notMem_empty a) (lt_irrefl 0)

/-- An account is frozen, thawed in part, and then thawed. -/
theorem always_flagged_thawed :
    (chain Config.rootOnly ℕ).Always State.Flagged (State.genesis fun _ _ => true)
      [.call .root (.freezeAmount 1 900000), .call .root (.thawAmount 1 400000),
        .call .root (.thawAccount 1)] :=
  (always_flagged_iff ⟨_, rfl⟩).2
    ⟨fun _ _ h => by simp at h, fun _ _ h => by simp at h, fun _ _ h => by simp at h, trivial⟩

/-- An account is frozen by nothing, and flagged all the same. -/
theorem not_always_flagged :
    ¬(chain Config.rootOnly ℕ).Always State.Flagged (State.genesis fun _ _ => true)
      [.call .root (.freezeAmount 1 0)] := by
  rintro ⟨-, h⟩
  exact absurd ((h 1).1 (by decide)) (by decide)

end Xode.Freezer
