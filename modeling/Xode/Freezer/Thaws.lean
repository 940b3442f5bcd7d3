import Xode.Freezer.Flags

/-!
# Partial thaws

A partial thaw takes its amount from the freeze that the currency records, and the
account is thawed when nothing of it remains.

* Partial thaws compose (`thawsCompose`): in any number of them, an amount that fits in
  what remains is taken from it, and any other is refused without effect; amounts that
  fit together come to the same as one thaw of their sum.
* What an account can spend goes by its balance as well. A freeze above the balance, as
  that of a whole account is, releases the amount of a thaw only if it is thawed in
  full (`releases_iff`).
-/

namespace Xode.Freezer

variable {Origin AccountId : Type} [DecidableEq AccountId] {T : Config Origin}
  {s s₀ s' : State AccountId} {origin : Origin} {who : AccountId} {x r : ℕ} {xs : List ℕ} {u : Unit}

/-! ### What remains frozen -/

namespace State

/-- Of the storage `s₀`, the freeze of `who` has changed to `r`, and its flag is gone if
    nothing remains. -/
structure Remains (s₀ : State AccountId) (who : AccountId) (r : ℕ) (s : State AccountId) :
    Prop where
  frozen : s.frozen = if r = 0 then s₀.frozen.erase who else s₀.frozen
  currency : s.currency = { s₀.currency with frozen := Function.update s₀.currency.frozen who r }

theorem Remains.refl (hpos : 0 < s.currency.balanceFrozen who) :
    s.Remains who (s.currency.balanceFrozen who) s where
  frozen := (if_neg hpos.ne').symm
  currency := by rw [Freezes.balanceFrozen, Function.update_eq_self]

theorem Remains.balanceFrozen (h : s₀.Remains who r s) : s.currency.balanceFrozen who = r := by
  rw [Freezes.balanceFrozen, h.currency]
  exact Function.update_self _ _ _

theorem Remains.mem_frozen (h : s₀.Remains who r s) (hw : who ∈ s₀.frozen) :
    who ∈ s.frozen ↔ r ≠ 0 := by
  rw [h.frozen]
  split
  · next hr => simp [hr]
  · next hr => simp [hw, hr]

theorem Remains.accepts (h : s₀.Remains who r s) : s.currency.accepts = s₀.currency.accepts := by
  rw [h.currency]

end State

/-- A thaw that fits in what remains succeeds. -/
theorem thawAmount_of_le (ho : T.freezeOrigin origin) (hw : who ∈ s₀.frozen)
    (hacc : ∀ v ≤ r, s₀.currency.accepts who v) (h : s₀.Remains who r s) (hr : 0 < r)
    (hx : x ≤ r) :
    ∃ s', thawAmount T origin who x s = .ok () s' ∧ s₀.Remains who (r - x) s' := by
  have hws : who ∈ s.frozen := (h.mem_frozen hw).2 hr.ne'
  have hset (v : ℕ) (hv : v ≤ r) : s.currency.setFreeze who v =
      some { s₀.currency with frozen := Function.update s₀.currency.frozen who v } := by
    rw [Freezes.setFreeze, if_pos (by rw [h.accepts]; exact hacc v hv), h.currency,
      Function.update_idem]
  have hfrozen : s.frozen = s₀.frozen := by rw [h.frozen, if_neg hr.ne']
  rcases hx.eq_or_lt with rfl | hlt
  · refine ⟨_, thawAmount_eq_ok.2
      ⟨ho, .thawAll hws h.balanceFrozen.symm (hset 0 (Nat.zero_le _))⟩, ?_, ?_⟩
    · rw [Nat.sub_self, if_pos rfl, ← hfrozen]
      rfl
    · rw [Nat.sub_self]
      rfl
  · have hpart := hset (r - x) (Nat.sub_le r x)
    refine ⟨_, thawAmount_eq_ok.2
      ⟨ho, .thawPart hws (by rwa [h.balanceFrozen]) (by rw [h.balanceFrozen]; exact hpart)⟩,
      ?_, rfl⟩
    rw [if_neg (Nat.sub_pos_of_lt hlt).ne', ← hfrozen]
    rfl

/-- A thaw of more than remains is refused. -/
theorem thawAmount_of_lt (ho : T.freezeOrigin origin) (hw : who ∈ s₀.frozen)
    (h : s₀.Remains who r s) (hx : r < x) :
    thawAmount T origin who x s =
      .error (.module (if r = 0 then .notFrozen else .amountExceedsFrozen)) s := by
  refine bind_eq_error.2 (.inr ⟨(), s, ensureOrigin_eq_ok.2 ⟨ho, rfl⟩, ?_⟩)
  refine bind_eq_error.2 (.inr ⟨s, s, get_eq_ok.2 ⟨rfl, rfl⟩, ?_⟩)
  by_cases hr : r = 0
  · rw [if_pos hr]
    have hws : who ∉ s.frozen := fun hws => (h.mem_frozen hw).1 hws hr
    exact bind_eq_error.2 (.inl (ensure_eq_error.2 ⟨hws, rfl, rfl⟩))
  · rw [if_neg hr]
    refine bind_eq_error.2 (.inr ⟨(), s, ensure_eq_ok.2 ⟨(h.mem_frozen hw).2 hr, rfl⟩, ?_⟩)
    have hnot : ¬x ≤ s.currency.balanceFrozen who := by rw [h.balanceFrozen]; omega
    exact bind_eq_error.2 (.inl (ensure_eq_error.2 ⟨hnot, rfl, rfl⟩))

/-! ### Any number of thaws -/

/-- What remains of the freeze `r` after thaws of the amounts `xs`: those that fit are
    taken from it. -/
def remainder (r : ℕ) : List ℕ → ℕ
  | [] => r
  | x :: xs => remainder (if x ≤ r then r - x else r) xs

theorem remainder_of_sum_le (h : xs.sum ≤ r) : remainder r xs = r - xs.sum := by
  induction xs generalizing r with
  | nil => rfl
  | cons x xs ih =>
    rw [List.sum_cons] at h
    rw [remainder, if_pos (by omega), ih (by omega), List.sum_cons]
    omega

theorem remainder_le : remainder r xs ≤ r := by
  induction xs generalizing r with
  | nil => exact le_rfl
  | cons x xs ih =>
    refine ih.trans ?_
    split <;> omega

namespace State

variable (T origin who)

/-- The storage after thaws of the amounts `xs`, one after the other. Nobody undoes the
    writes of those that fail. -/
def thawAmounts (s : State AccountId) : List ℕ → State AccountId
  | [] => s
  | x :: xs => (finalState (thawAmount T origin who x) s).thawAmounts xs

/-- All of the thaws of the amounts `xs` succeed. -/
def ThawsAll (s : State AccountId) : List ℕ → Prop
  | [] => True
  | x :: xs => succeeds (thawAmount T origin who x) s ∧
      (finalState (thawAmount T origin who x) s).ThawsAll xs

/-- The thaws of the amounts `xs` of an account compose. -/
structure ThawsCompose (s : State AccountId) (xs : List ℕ) : Prop where
  /-- All of them succeed exactly when together they fit in the freeze. -/
  succeed : s.ThawsAll T origin who xs ↔ xs.sum ≤ s.currency.balanceFrozen who
  /-- They then come to one thaw of their sum. -/
  once : xs.sum ≤ s.currency.balanceFrozen who →
    ∃ s', thawAmount T origin who xs.sum s = .ok () s' ∧
      (s.thawAmounts T origin who xs).frozen = s'.frozen ∧
      (s.thawAmounts T origin who xs).currency = s'.currency
  /-- The account is then no longer flagged, and may be frozen again, exactly when
      nothing remains. -/
  unflagged : xs.sum ≤ s.currency.balanceFrozen who →
    (who ∉ (s.thawAmounts T origin who xs).frozen ↔ xs.sum = s.currency.balanceFrozen who)
  freezable : xs.sum ≤ s.currency.balanceFrozen who →
    (∀ amount, s.currency.accepts who amount →
      (succeeds (freezeAmount T origin who amount) (s.thawAmounts T origin who xs) ↔
        xs.sum = s.currency.balanceFrozen who)) ∧
    (s.currency.accepts who T.maxBalance →
      (succeeds (freezeAccount T origin who) (s.thawAmounts T origin who xs) ↔
        xs.sum = s.currency.balanceFrozen who))
  /-- Whether they succeed or not, what remains is the freeze without the amounts that
      fitted. -/
  remains : (s.thawAmounts T origin who xs).currency.balanceFrozen who =
    remainder (s.currency.balanceFrozen who) xs
  /-- The next thaw releases its amount, if no more than that remains. -/
  released : ∀ x, 0 < x → x ≤ remainder (s.currency.balanceFrozen who) xs →
    ∃ s', thawAmount T origin who x (s.thawAmounts T origin who xs) = .ok () s' ∧
      s'.currency.balanceFrozen who + x = remainder (s.currency.balanceFrozen who) xs
  /-- Otherwise it is refused, and changes nothing. -/
  refused : ∀ x, remainder (s.currency.balanceFrozen who) xs < x →
    thawAmount T origin who x (s.thawAmounts T origin who xs) =
      .error (.module (if remainder (s.currency.balanceFrozen who) xs = 0 then .notFrozen
        else .amountExceedsFrozen)) (s.thawAmounts T origin who xs)

end State

section

variable (ho : T.freezeOrigin origin) (hw : who ∈ s₀.frozen)
  (hacc : ∀ v ≤ r, s₀.currency.accepts who v)

include ho hw hacc

/-- One thaw, whether it succeeds or not. -/
theorem remains_thawAmount (h : s₀.Remains who r s) (hx : 0 < x) :
    (succeeds (thawAmount T origin who x) s ↔ x ≤ r) ∧
      s₀.Remains who (if x ≤ r then r - x else r) (finalState (thawAmount T origin who x) s) := by
  rw [succeeds, finalState]
  by_cases hle : x ≤ r
  · obtain ⟨s', hok, hs'⟩ := thawAmount_of_le ho hw hacc h (hx.trans_le hle) hle
    rw [hok, if_pos hle]
    exact ⟨iff_of_true rfl hle, hs'⟩
  · rw [thawAmount_of_lt ho hw h (not_le.1 hle), if_neg hle]
    exact ⟨iff_of_false Bool.false_ne_true hle, h⟩

theorem remains_thawAmounts (h : s₀.Remains who r s) (hxs : ∀ x ∈ xs, 0 < x) :
    s₀.Remains who (remainder r xs) (s.thawAmounts T origin who xs) := by
  induction xs generalizing s r with
  | nil => exact h
  | cons x xs ih =>
    rw [List.forall_mem_cons] at hxs
    refine ih (fun v hv => hacc v (hv.trans ?_)) (remains_thawAmount ho hw hacc h hxs.1).2 hxs.2
    split <;> omega

theorem thawsAll_iff (h : s₀.Remains who r s) (hxs : ∀ x ∈ xs, 0 < x) :
    s.ThawsAll T origin who xs ↔ xs.sum ≤ r := by
  induction xs generalizing s r with
  | nil => exact iff_of_true trivial (Nat.zero_le r)
  | cons x xs ih =>
    rw [List.forall_mem_cons] at hxs
    obtain ⟨hsucceeds, hs'⟩ := remains_thawAmount ho hw hacc h hxs.1
    rw [State.ThawsAll, hsucceeds, List.sum_cons]
    by_cases hle : x ≤ r
    · rw [if_pos hle] at hs'
      rw [ih (fun v hv => hacc v (hv.trans (Nat.sub_le r x))) hs' hxs.2]
      omega
    · exact iff_of_false (fun h => hle h.1) (by omega)

end

/-- An account that may be frozen is, exactly when it is not flagged. -/
theorem succeeds_freeze_iff {amount : ℕ} {event : Event AccountId} (ho : T.freezeOrigin origin)
    (hacc : s.currency.accepts who amount) :
    succeeds (freeze T origin who amount event) s ↔ who ∉ s.frozen := by
  rw [succeeds_iff]
  constructor
  · rintro ⟨_, _, h⟩
    exact (freeze_eq_ok.1 h).2.1
  · exact fun hw => ⟨(), _, freeze_eq_ok.2 ⟨ho, hw, _, if_pos hacc, rfl⟩⟩

/-- Partial thaws compose, as long as the currency records what remains. -/
theorem thawsCompose (T : Config Origin) (origin : Origin) (who : AccountId) (s : State AccountId)
    (xs : List ℕ) (ho : T.freezeOrigin origin) (hw : who ∈ s.frozen)
    (hpos : 0 < s.currency.balanceFrozen who)
    (hacc : ∀ v ≤ s.currency.balanceFrozen who, s.currency.accepts who v)
    (hxs : ∀ x ∈ xs, 0 < x) : s.ThawsCompose T origin who xs := by
  have h₀ := State.Remains.refl hpos
  have ht := remains_thawAmounts ho hw hacc h₀ hxs
  have hflag := (ht.mem_frozen hw).not
  have hall (hsum : xs.sum ≤ s.currency.balanceFrozen who) :
      who ∉ (s.thawAmounts T origin who xs).frozen ↔ xs.sum = s.currency.balanceFrozen who := by
    rw [hflag, not_not, remainder_of_sum_le hsum]
    omega
  refine ⟨thawsAll_iff ho hw hacc h₀ hxs, fun hsum => ?_, hall, fun hsum => ⟨fun amount ha => ?_,
    fun ha => ?_⟩, ht.balanceFrozen, fun x hx hle => ?_, fun x hx => thawAmount_of_lt ho hw ht hx⟩
  · obtain ⟨s', hok, hs'⟩ := thawAmount_of_le ho hw hacc h₀ hpos hsum
    rw [remainder_of_sum_le hsum] at ht
    exact ⟨s', hok, ht.frozen.trans hs'.frozen.symm, ht.currency.trans hs'.currency.symm⟩
  · exact (succeeds_freeze_iff ho (by rwa [ht.accepts])).trans (hall hsum)
  · exact (succeeds_freeze_iff ho (by rwa [ht.accepts])).trans (hall hsum)
  · obtain ⟨s', hok, hs'⟩ := thawAmount_of_le ho hw (fun v hv => hacc v (hv.trans remainder_le)) ht
      (hx.trans_le hle) hle
    exact ⟨s', hok, by rw [hs'.balanceFrozen]; omega⟩

/-- A freeze thawed in two parts, with a thaw of too much in between. -/
theorem thawsCompose_root :
    ((chain Config.rootOnly ℕ).run (State.genesis fun _ _ => true)
      [.call .root (.freezeAmount 1 900000)]).ThawsCompose Config.rootOnly .root 1
        [400000, 600000, 500000] :=
  thawsCompose _ _ _ _ _ (by decide) (by decide) (by decide) (fun _ _ => rfl) (by decide)

/-! ### What an account can spend -/

namespace State

/-- What an account with the given balance can spend, nothing else being reserved,
    locked or frozen. -/
def transferable (s : State AccountId) (balance : ℕ) (who : AccountId) : ℕ :=
  balance - s.currency.balanceFrozen who

/-- A thaw of `amount` that leads to `s'` releases that much of what is frozen of the
    balance of `who`, and all of it if it covers it. -/
structure Releases (s : State AccountId) (who : AccountId) (balance amount : ℕ)
    (s' : State AccountId) : Prop where
  released : s'.transferable balance who =
    s.transferable balance who + min amount (min (s.currency.balanceFrozen who) balance)
  covered : min (s.currency.balanceFrozen who) balance ≤ amount →
    s'.transferable balance who = balance

end State

/-- A thaw takes its amount from the freeze recorded. -/
theorem balanceFrozen_thawAmount (h : thawAmount T origin who x s = .ok u s') :
    x ≤ s.currency.balanceFrozen who ∧
      s'.currency.balanceFrozen who = s.currency.balanceFrozen who - x := by
  obtain ⟨-, he⟩ := thawAmount_eq_ok.1 h
  cases he with
  | thawAll _ heq hthaw =>
    refine ⟨heq.le, ?_⟩
    rw [heq, Nat.sub_self]
    exact (Freezes.balanceFrozen_thaw hthaw).trans (if_pos rfl)
  | thawPart _ hlt hset =>
    exact ⟨hlt.le, (Freezes.balanceFrozen_setFreeze hset).trans (if_pos rfl)⟩

/-- A thaw releases its amount exactly when the freeze does not exceed the balance, or is
    thawed in full, or there is no balance to release. -/
theorem releases_iff (T : Config Origin) (origin : Origin) (who : AccountId) (balance x : ℕ)
    (s s' : State AccountId) (hx : 0 < x) (h : thawAmount T origin who x s = .ok () s') :
    s.Releases who balance x s' ↔
      s.currency.balanceFrozen who ≤ balance ∨ x = s.currency.balanceFrozen who ∨ balance = 0 := by
  obtain ⟨hle, hfrozen⟩ := balanceFrozen_thawAmount h
  have hr : s.Releases who balance x s' ↔
      balance - (s.currency.balanceFrozen who - x) = balance - s.currency.balanceFrozen who +
        min x (min (s.currency.balanceFrozen who) balance) ∧
      (min (s.currency.balanceFrozen who) balance ≤ x →
        balance - (s.currency.balanceFrozen who - x) = balance) := by
    rw [← hfrozen]
    exact ⟨fun h => ⟨h.released, h.covered⟩, fun h => ⟨h.1, h.2⟩⟩
  rw [hr]
  omega

/-- Of an amount frozen, some is thawed. -/
theorem releases_part :
    let s := (chain Config.rootOnly ℕ).run (State.genesis fun _ _ => true)
      [.call .root (.freezeAmount 1 900000)]
    s.Releases 1 1000000 400000 (s.step Config.rootOnly (.call .root (.thawAmount 1 400000))) :=
  (releases_iff Config.rootOnly .root 1 1000000 400000 _ _ (by decide)
    (eq_ok_of_succeeds (by decide +kernel))).2 (.inl (by decide +kernel))

/-- An account is frozen, and all of its balance is thawed: nothing of it can be spent. -/
theorem not_releases_freezeAccount :
    let s := (chain Config.rootOnly ℕ).run (State.genesis fun _ _ => true)
      [.call .root (.freezeAccount 1)]
    let s' := s.step Config.rootOnly (.call .root (.thawAmount 1 1000))
    thawAmount Config.rootOnly .root 1 1000 s = .ok () s' ∧ s'.transferable 1000 1 = 0 ∧
      ¬s.Releases 1 1000 1000 s' :=
  ⟨eq_ok_of_succeeds (by decide +kernel), by decide +kernel,
    fun h => absurd h.released (by decide +kernel)⟩

end Xode.Freezer
