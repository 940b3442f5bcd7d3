import Xode.Freezer.Flags
import Xode.Frame.Keyed
import Xode.Frame.Logs

/-!
# Account by account

The pallet keeps all accounts in one map, and the currency all freezes in one ledger. Yet
what becomes of an account is a matter of the calls that name it, each of which sees
nothing but the account (`Account.exec`).

* The chain is made of one such machine for each account, side by side (`account_run`).
  Calls on different accounts may come in any order (`accounts_congr`).
* The events deposited tell all there is to know of every account (`ledger_of_reachable`).
* A call that fails has written nothing, whether or not anybody undoes its writes
  (`atomic_code`).
-/

namespace Xode.Freezer

variable {Origin AccountId : Type} [DecidableEq AccountId] {T : Config Origin}
  {s s' : State AccountId} {origin : Origin} {who a : AccountId} {amount : ℕ}
  {call : Call AccountId} {es es' : List (Step Origin AccountId)}

/-! ### One account -/

/-- What the pallet and the currency hold of one account. -/
@[ext]
structure Account (AccountId : Type) where
  /-- Whether the pallet has flagged it. -/
  flagged : Bool
  /-- The freeze recorded. -/
  recorded : ℕ
  /-- Which freezes the currency records for it. -/
  accepts : ℕ → Bool
  /-- The events that name it. -/
  events : List (Event AccountId)

/-- The account that a call names. -/
def Call.target : Call AccountId → AccountId
  | .freezeAccount who | .freezeAmount who _ | .thawAccount who | .thawAmount who _ => who

/-- The account that an event names. -/
def Event.target : Event AccountId → AccountId
  | .accountFrozen who | .amountFrozen who _ | .accountThawed who | .amountThawed who _ => who

/-- The event of a successful call. -/
def Call.event : Call AccountId → Event AccountId
  | .freezeAccount who => .accountFrozen who
  | .freezeAmount who amount => .amountFrozen who amount
  | .thawAccount who => .accountThawed who
  | .thawAmount who amount => .amountThawed who amount

namespace Account

/-- Writing the flag and the freeze, if the currency records it. -/
def write (v : Account AccountId) (flagged : Bool) (recorded : ℕ) (event : Event AccountId) :
    Account AccountId :=
  if v.accepts recorded then { v with flagged, recorded, events := v.events ++ [event] } else v

/-- An allowed call that names the account. -/
def exec (T : Config Origin) (v : Account AccountId) (call : Call AccountId) :
    Account AccountId :=
  match call with
  | .freezeAccount _ => if v.flagged then v else v.write true T.maxBalance call.event
  | .freezeAmount _ amount => if v.flagged then v else v.write true amount call.event
  | .thawAccount _ => if v.flagged then v.write false 0 call.event else v
  | .thawAmount _ amount =>
    if v.flagged ∧ amount ≤ v.recorded then
      v.write (v.recorded - amount ≠ 0) (v.recorded - amount) call.event
    else v

/-- What a step does to the account `a`. -/
def step (T : Config Origin) (a : AccountId) (v : Account AccountId) :
    Step Origin AccountId → Account AccountId
  | .call origin call => if T.freezeOrigin origin ∧ call.target = a then v.exec T call else v
  | .accepts accepts => { v with accepts := accepts a }

end Account

/-- Whether a step concerns the account `a`: a call that names it, or a change in what the
    currency accepts. -/
def Step.concerns (a : AccountId) : Step Origin AccountId → Bool
  | .call _ call => call.target = a
  | .accepts _ => true

/-- What the storage holds of an account. -/
def State.account (s : State AccountId) (a : AccountId) : Account AccountId where
  flagged := a ∈ s.frozen
  recorded := s.currency.balanceFrozen a
  accepts := s.currency.accepts a
  events := s.events.filter fun e => e.target = a

/-! ### The accounts of the chain -/

section

variable {v : Account AccountId} {flagged : Bool} {event : Event AccountId}

omit [DecidableEq AccountId]

theorem Account.write_of_not_accepts (h : ¬v.accepts amount) :
    v.write flagged amount event = v := if_neg h

theorem Account.exec_thawAmount_all (hv : v.flagged) (h : amount = v.recorded) :
    v.exec T (.thawAmount who amount) = v.write false 0 (.amountThawed who amount) := by
  have hzero : v.recorded - amount = 0 := Nat.sub_eq_zero_of_le h.ge
  rw [exec, if_pos ⟨hv, h.le⟩, hzero]
  rfl

theorem Account.exec_thawAmount_part (hv : v.flagged) (h : amount < v.recorded) :
    v.exec T (.thawAmount who amount) =
      v.write true (v.recorded - amount) (.amountThawed who amount) := by
  have hne : v.recorded - amount ≠ 0 := Nat.sub_ne_zero_of_lt h
  rw [exec, if_pos ⟨hv, h.le⟩, decide_eq_true hne]
  rfl

end

omit [DecidableEq AccountId] in
theorem Call.target_event : call.event.target = call.target := by
  cases call <;> rfl

/-- A successful call deposits its event. -/
theorem Effect.events (he : Effect T s call s') : s'.events = s.events ++ [call.event] := by
  cases he <;> rfl

namespace State

/-- Writing the flag and the freeze of one account touches no other. -/
theorem account_write {flagged : Bool} {event : Event AccountId}
    (hset : s.currency.setFreeze event.target amount = some s'.currency)
    (hflag : ∀ a, a ∈ s'.frozen ↔ if a = event.target then flagged = true else a ∈ s.frozen)
    (hevents : s'.events = s.events ++ [event]) (a : AccountId) :
    s'.account a =
      if a = event.target then (s.account a).write flagged amount event else s.account a := by
  obtain ⟨hacc, hcur⟩ := Freezes.setFreeze_eq_some hset
  have hfrozen := Freezes.balanceFrozen_setFreeze (a := a) hset
  have haccepts : s'.currency.accepts = s.currency.accepts := by rw [hcur]
  by_cases ha : a = event.target
  · rw [if_pos ha, Account.write, if_pos (by rw [ha]; exact hacc)]
    ext1
    · simp [State.account, hflag, ha]
    · exact hfrozen.trans (if_pos ha)
    · exact congrFun haccepts a
    · simp [State.account, hevents, ha]
  · rw [if_neg ha]
    ext1
    · simp [State.account, hflag, ha]
    · exact hfrozen.trans (if_neg ha)
    · exact congrFun haccepts a
    · simp [State.account, hevents, Ne.symm ha]

theorem mem_insert_frozen (s : State AccountId) (who a : AccountId) :
    a ∈ s.frozen.insert who () ↔ if a = who then true = true else a ∈ s.frozen := by
  rw [AList.mem_insert]
  split <;> simp [*]

theorem mem_erase_frozen (s : State AccountId) (who a : AccountId) :
    a ∈ s.frozen.erase who ↔ if a = who then false = true else a ∈ s.frozen := by
  rw [AList.mem_erase]
  split <;> simp [*]

theorem flagged_account : (s.account a).flagged ↔ a ∈ s.frozen := decide_eq_true_iff

end State

/-- A call does to the account it names what that account alone makes of it, and nothing to
    the others. -/
theorem Effect.account (he : Effect T s call s') (a : AccountId) :
    s'.account a = if call.target = a then (s.account a).exec T call else s.account a := by
  have hwrite {flagged : Bool} {amount : ℕ}
    (hset : s.currency.setFreeze call.target amount = some s'.currency)
    (hflag : ∀ a, a ∈ s'.frozen ↔ if a = call.target then flagged = true else a ∈ s.frozen)
    (hexec : (s.account call.target).exec T call =
      (s.account call.target).write flagged amount call.event) :
      s'.account a = if call.target = a then (s.account a).exec T call else s.account a := by
    rw [← call.target_event] at hset hflag hexec ⊢
    rw [State.account_write hset hflag he.events]
    by_cases ha : a = call.event.target
    · rw [if_pos ha, if_pos ha.symm, ha, hexec]
    · rw [if_neg ha, if_neg (Ne.symm ha)]
  cases he with
  | freezeAccount hw hset | freezeAmount hw hset =>
    exact hwrite hset (s.mem_insert_frozen _) (if_neg (mt State.flagged_account.1 hw))
  | thawAccount hw hthaw =>
    exact hwrite hthaw (s.mem_erase_frozen _) (if_pos (State.flagged_account.2 hw))
  | thawAll hw heq hthaw =>
    exact hwrite hthaw (s.mem_erase_frozen _)
      (Account.exec_thawAmount_all (State.flagged_account.2 hw) heq)
  | thawPart hw hlt hset =>
    refine hwrite hset (fun a => ?_)
      (Account.exec_thawAmount_part (State.flagged_account.2 hw) hlt)
    split
    · next ha => exact iff_of_true (ha ▸ hw) rfl
    · rfl

/-- A call that has no effect would have none on the account it names. -/
theorem exec_of_fails (h : ∀ s', ¬Effect T s call s') :
    (s.account call.target).exec T call = s.account call.target := by
  have hset {who : AccountId} {amount : ℕ} (hacc : s.currency.accepts who amount) :
      ∃ currency, s.currency.setFreeze who amount = some currency := ⟨_, if_pos hacc⟩
  cases call with
  | freezeAccount who =>
    refine ite_eq_left_iff.2 fun hw => Account.write_of_not_accepts fun hacc => ?_
    obtain ⟨_, hcur⟩ := hset hacc
    exact h _ (.freezeAccount (mt State.flagged_account.2 hw) hcur)
  | freezeAmount who amount =>
    refine ite_eq_left_iff.2 fun hw => Account.write_of_not_accepts fun hacc => ?_
    obtain ⟨_, hcur⟩ := hset hacc
    exact h _ (.freezeAmount (mt State.flagged_account.2 hw) hcur)
  | thawAccount who =>
    refine ite_eq_right_iff.2 fun hw => Account.write_of_not_accepts fun hacc => ?_
    obtain ⟨_, hcur⟩ := hset hacc
    exact h _ (.thawAccount (State.flagged_account.1 hw) hcur)
  | thawAmount who amount =>
    refine ite_eq_right_iff.2 fun hw => Account.write_of_not_accepts fun hacc => ?_
    obtain ⟨_, hcur⟩ := hset hacc
    have hflag := State.flagged_account.1 hw.1
    rcases hw.2.eq_or_lt with heq | hlt
    · have hall : amount = s.currency.balanceFrozen who := heq
      have hzero : (s.account who).recorded - amount = 0 := Nat.sub_eq_zero_of_le hall.ge
      rw [Call.target, hzero] at hcur
      exact h _ (.thawAll hflag heq hcur)
    · exact h _ (.thawPart hflag hlt hcur)

/-- A call has its effect, or none at all. -/
theorem State.step_call (T : Config Origin) (s : State AccountId) (origin : Origin)
    (call : Call AccountId) :
    T.freezeOrigin origin ∧ Effect T s call (s.step T (.call origin call)) ∨
      (T.freezeOrigin origin → ∀ s', ¬Effect T s call s') ∧ s.step T (.call origin call) = s := by
  rcases h : call.code T origin s with ⟨u, s'⟩ | ⟨d, s'⟩
  · have hstep : s.step T (.call origin call) = s' := dispatch_of_ok h
    rw [hstep]
    exact .inl (code_eq_ok.1 h)
  · have hstep : s.step T (.call origin call) = s := by simp only [step, dispatch, h]
    refine .inr ⟨fun ho s'' he => ?_, hstep⟩
    rw [code_eq_ok.2 ⟨ho, he⟩] at h
    cases h

/-- What a step does to an account depends on that account alone. -/
theorem State.account_step (T : Config Origin) (s : State AccountId) (e : Step Origin AccountId)
    (a : AccountId) : (s.step T e).account a = (s.account a).step T a e := by
  cases e with
  | accepts accepts => rfl
  | call origin call =>
    rw [Account.step]
    obtain ⟨ho, he⟩ | ⟨hfail, hstep⟩ := s.step_call T origin call
    · rw [he.account]
      simp only [ho, true_and]
    · rw [hstep]
      split
      · next ha =>
        obtain ⟨ho, rfl⟩ := ha
        exact (exec_of_fails (hfail ho)).symm
      · rfl

/-- A step that does not concern an account leaves it alone. -/
theorem Account.step_of_not_concerns (a : AccountId) (v : Account AccountId)
    (e : Step Origin AccountId) (he : Step.concerns a e = false) : v.step T a e = v := by
  cases e with
  | call origin call => exact if_neg fun h => by simp [Step.concerns, h.2] at he
  | accepts accepts => cases he

/-- What becomes of an account over a run, and what the events say of it, is what the steps
    that concern it make of it alone. -/
theorem account_run (s : State AccountId) (es : List (Step Origin AccountId)) (a : AccountId) :
    ((chain T AccountId).run s es).account a =
      (es.filter (Step.concerns a)).foldl (Account.step T a) (s.account a) :=
  System.component_run (fun s e a => s.account_step T e a) Account.step_of_not_concerns a

/-- Runs that come to the same for each account, step by step, lead to the same flags, the
    same freezes, and the same events in some order: calls on different accounts may come in
    any order. -/
theorem accounts_congr (s : State AccountId)
    (h : ∀ a, es.filter (Step.concerns a) = es'.filter (Step.concerns a)) :
    ((chain T AccountId).run s es).account = ((chain T AccountId).run s es').account ∧
      ((chain T AccountId).run s es).events.Perm ((chain T AccountId).run s es').events := by
  have haccount : ((chain T AccountId).run s es).account =
      ((chain T AccountId).run s es').account :=
    System.component_congr (fun s e a => s.account_step T e a) Account.step_of_not_concerns h
  exact ⟨haccount, perm_of_filter_key Event.target fun a =>
    congrArg Account.events (congrFun haccount a)⟩

/-- Two accounts are frozen, and one of them thawed in part, in two orders. -/
theorem accounts_congr_root :
    let s := (chain Config.rootOnly ℕ).run (State.genesis fun _ _ => true)
      [.call .root (.freezeAmount 1 5), .call .root (.thawAmount 1 2),
        .call .root (.freezeAccount 2)]
    let s' := (chain Config.rootOnly ℕ).run (State.genesis fun _ _ => true)
      [.call .root (.freezeAmount 1 5), .call .root (.freezeAccount 2),
        .call .root (.thawAmount 1 2)]
    s.account = s'.account ∧ s.events.Perm s'.events :=
  accounts_congr _ fun a => by
    by_cases h₁ : 1 = a
    · subst h₁
      rfl
    · by_cases h₂ : 2 = a <;> simp [Step.concerns, Call.target, h₁, h₂]

/-! ### Events -/

/-- What an event tells of the accounts, where `some r` stands for one flagged with a freeze
    of `r`. -/
def Event.hear (T : Config Origin) (k : AccountId → Option ℕ) :
    Event AccountId → AccountId → Option ℕ
  | .accountFrozen who => Function.update k who (some T.maxBalance)
  | .amountFrozen who amount => Function.update k who (some amount)
  | .accountThawed who => Function.update k who none
  | .amountThawed who amount =>
    Function.update k who ((k who).bind fun r => if r = amount then none else some (r - amount))

/-- The ledger of the accounts is what the storage holds of them: nobody has a freeze who is
    not flagged. -/
structure State.Holds (s : State AccountId) (k : AccountId → Option ℕ) : Prop where
  flagged : ∀ a, a ∈ s.frozen ↔ (k a).isSome
  recorded : ∀ a, s.currency.balanceFrozen a = (k a).getD 0

theorem State.Holds.update {k : AccountId → Option ℕ} (h : s.Holds k) {o : Option ℕ}
    (hflag : ∀ a, a ∈ s'.frozen ↔ if a = who then o.isSome = true else a ∈ s.frozen)
    (hset : s.currency.setFreeze who (o.getD 0) = some s'.currency) :
    s'.Holds (Function.update k who o) := by
  constructor
  · intro a
    rw [hflag]
    split
    · next ha => rw [ha, Function.update_self]
    · next ha => rw [Function.update_of_ne ha, h.flagged]
  · intro a
    rw [Freezes.balanceFrozen_setFreeze hset]
    split
    · next ha => rw [ha, Function.update_self]
    · next ha => rw [Function.update_of_ne ha, h.recorded]

omit [DecidableEq AccountId] in
/-- Of a flagged account, the ledger has the freeze recorded. -/
theorem State.Holds.some_of_mem {k : AccountId → Option ℕ} (h : s.Holds k) (hw : who ∈ s.frozen) :
    k who = some (s.currency.balanceFrozen who) := by
  obtain ⟨r, hr⟩ := Option.isSome_iff_exists.1 ((h.flagged who).1 hw)
  rw [h.recorded, hr]
  rfl

/-- The event of a call tells what it does. -/
theorem Effect.holds {k : AccountId → Option ℕ} (he : Effect T s call s') (h : s.Holds k) :
    s'.Holds (call.event.hear T k) := by
  cases he with
  | freezeAccount hw hset | freezeAmount hw hset =>
    exact h.update (o := some _) (s.mem_insert_frozen _) hset
  | thawAccount hw hthaw => exact h.update (o := none) (s.mem_erase_frozen _) hthaw
  | thawAll hw heq hthaw =>
    rw [Call.event, Event.hear, h.some_of_mem hw, Option.bind_some, if_pos heq.symm]
    exact h.update (o := none) (s.mem_erase_frozen _) hthaw
  | thawPart hw hlt hset =>
    rw [Call.event, Event.hear, h.some_of_mem hw, Option.bind_some, if_neg hlt.ne']
    refine h.update (o := some _) (fun a => ?_) hset
    split
    · next ha => exact iff_of_true (ha ▸ hw) rfl
    · rfl

/-- In every reachable state, the events deposited so far tell which accounts are flagged,
    and the freeze recorded for each. -/
theorem ledger_of_reachable (hs : (chain T AccountId).Reachable s) :
    s.Holds (s.events.foldl (Event.hear T) fun _ => none) := by
  refine hs.induction (Q := fun s => s.Holds (s.events.foldl (Event.hear T) fun _ => none))
    (fun s hs => ?_) fun s e _ h => ?_
  · obtain ⟨accepts, rfl⟩ := hs
    exact ⟨fun a => iff_of_false (AList.notMem_empty a) Bool.false_ne_true, fun a => rfl⟩
  · cases e with
    | accepts accepts => exact ⟨h.flagged, h.recorded⟩
    | call origin call =>
      obtain ⟨-, he⟩ | ⟨-, hstep⟩ := s.step_call T origin call
      · have hheard : ((s.step T (.call origin call)).events.foldl (Event.hear T) fun _ => none) =
            call.event.hear T (s.events.foldl (Event.hear T) fun _ => none) := by
          rw [he.events, List.foldl_append]
          rfl
        exact hheard ▸ he.holds h
      · have hsame : (chain T AccountId).step s (.call origin call) = s := hstep
        rw [hsame]
        exact h

/-- An account is frozen, and another frozen and thawed in part. -/
theorem ledger_root :
    let s := (chain Config.rootOnly ℕ).run (State.genesis fun _ _ => true)
      [.call .root (.freezeAccount 1), .call .root (.freezeAmount 2 5),
        .call .root (.thawAmount 2 2)]
    s.Holds (s.events.foldl (Event.hear Config.rootOnly) fun _ => none) :=
  ledger_of_reachable ((System.Reachable.init (M := chain Config.rootOnly ℕ) ⟨_, rfl⟩).run _)

/-! ### Failures -/

theorem atomic_setFreeze : Atomic (setFreeze who amount) :=
  infallible_get.atomic.bind readOnly_get fun _ =>
    atomic_okOr.bind readOnly_okOr fun _ => infallible_modify.atomic

theorem atomic_thaw : Atomic (thaw who) :=
  infallible_get.atomic.bind readOnly_get fun _ =>
    atomic_okOr.bind readOnly_okOr fun _ => infallible_modify.atomic

omit [DecidableEq AccountId] in
theorem atomic_ensureOrigin : Atomic (ensureOrigin T origin : CallM AccountId Unit) := by
  rw [ensureOrigin]
  split
  · exact infallible_pure.atomic
  · exact fun s d s' h => (throw_eq_error.1 h).2.symm

omit [DecidableEq AccountId] in
theorem readOnly_ensureOrigin : ReadOnly (ensureOrigin T origin : CallM AccountId Unit) :=
  fun _ _ _ h => (ensureOrigin_eq_ok.1 h).2.symm

theorem atomic_freeze {event : Event AccountId} : Atomic (freeze T origin who amount event) :=
  atomic_ensureOrigin.bind readOnly_ensureOrigin fun _ =>
    infallible_get.atomic.bind readOnly_get fun _ => atomic_ensure.bind readOnly_ensure fun _ =>
      atomic_setFreeze.bind_infallible fun _ => infallible_modify.bind fun _ => infallible_modify

theorem atomic_thawAccount : Atomic (thawAccount T origin who) :=
  atomic_ensureOrigin.bind readOnly_ensureOrigin fun _ =>
    infallible_get.atomic.bind readOnly_get fun _ => atomic_ensure.bind readOnly_ensure fun _ =>
      atomic_thaw.bind_infallible fun _ => infallible_modify.bind fun _ => infallible_modify

theorem atomic_thawAmount : Atomic (thawAmount T origin who amount) := by
  refine atomic_ensureOrigin.bind readOnly_ensureOrigin fun _ =>
    infallible_get.atomic.bind readOnly_get fun s => atomic_ensure.bind readOnly_ensure fun _ =>
      atomic_ensure.bind readOnly_ensure fun _ => ?_
  dsimp only
  split
  · exact atomic_thaw.bind_infallible fun _ => infallible_modify.bind fun _ => infallible_modify
  · exact atomic_setFreeze.bind_infallible fun _ => infallible_modify

/-- A call that is not allowed, or fails for any other reason, has written nothing. -/
theorem atomic_code : Atomic (call.code T origin) := by
  cases call with
  | freezeAccount who => exact atomic_freeze
  | freezeAmount who amount => exact atomic_freeze
  | thawAccount who => exact atomic_thawAccount
  | thawAmount who amount => exact atomic_thawAmount

end Xode.Freezer
