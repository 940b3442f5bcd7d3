import Xode.Frame.Logs
import Xode.Staking.Reserves

/-!
# Balance sheets

The reserve of one account, over any run from genesis.

* It covers the bond and the stakes of the account throughout the run exactly when the bond
  corrections of that account take nothing its stakes need (`always_backed_iff`). Whatever
  the other accounts correct, they cannot unback it.
* Then it can be accounted for to the last unit (`balanceSheet_of_run`). Of what was ever
  reserved, the part that backs nothing any more is the bonds that rotations and corrections
  erased, less what the corrections took out. And what came in from other pallets is free,
  reserved, or went out again: the pallet moves nothing between accounts.
-/

namespace Xode.Staking

variable {T : Config} {AccountId : Type} [DecidableEq AccountId]
  {s s' s₀ : State T AccountId} {a who : AccountId} {e : Step AccountId}
  {es : List (Step AccountId)}

namespace State

/-- The free balance of an account. -/
def freeOf (s : State T AccountId) (a : AccountId) : ℕ := s.currency.freeBalance a

/-- The account has its bond and its stakes reserved. -/
def Backed (a : AccountId) (s : State T AccountId) : Prop :=
  s.bondOf a + s.stakedBy a ≤ s.reservedOf a

/-- No bond correction of the account takes from its reserve what its stakes need. -/
def CorrectsOwn (a : AccountId) (s : State T AccountId) (e : Step AccountId) : Prop :=
  ∀ frozenBalance c, e = .signed a (.bondCorrection frozenBalance) →
    s.candidate? a = some c → c.offline → s.OutOfPipeline a →
    s.stakedBy a = 0 ∨ frozenBalance + s.stakedBy a ≤ s.reservedOf a

theorem CorrectsOwn.of_ne (h : ∀ x, e ≠ .signed a (.bondCorrection x)) : s.CorrectsOwn a e :=
  fun x _ hx => absurd hx (h x)

end State

/-! ### Backing -/

/-- Whether the reserve of an account still covers it after a call. -/
theorem Effect.backed_iff {call : Call AccountId} (he : Effect s who call s') (hk : s.UniqueKeys)
    (h : s.Backed a) : s'.Backed a ↔ s.CorrectsOwn a (.signed who call) := by
  obtain ⟨hother, hwho⟩ := he.books hk
  by_cases ha : a = who
  · subst ha
    rw [State.Backed] at h ⊢
    cases call with
    | bondCorrection x =>
      obtain ⟨hb, hd, hr⟩ := hwho
      rw [hb, hd, hr]
      refine ⟨fun hle y c hy _ _ _ => ?_, fun hx => ?_⟩
      · cases hy
        omega
      · cases he with
        | bondCorrection hc hoff hout =>
          have := hx x _ rfl hc hoff hout
          omega
    | unstakeCandidate candidate =>
      obtain ⟨hb, stake, hr, hd⟩ := hwho
      refine iff_of_true ?_ (.of_ne fun x hx => by cases hx)
      omega
    | _ =>
      refine iff_of_true ?_ (.of_ne fun x hx => by cases hx)
      omega
  · -- The calls of the other accounts leave its books alone.
    obtain ⟨hb, hd, hr⟩ := hother a ha
    refine iff_of_true ?_ (.of_ne fun x hx => by cases hx; exact ha rfl)
    rw [State.Backed, hb, hd, hr]
    exact h

/-- Whether the reserve of an account still covers it after a step. -/
theorem State.Next.backed_iff (hn : s.Next e s') (hk : s.UniqueKeys) (h : s.Backed a) :
    s'.Backed a ↔ s.CorrectsOwn a e := by
  cases hn with
  | call he => exact he.backed_iff hk h
  | failed hfail =>
    refine iff_of_true h fun x c hx hc hoff hout => ?_
    cases hx
    exact absurd (.bondCorrection hc hoff hout) (hfail a _ rfl)
  | other hcall hr =>
    refine iff_of_true ?_ (.of_ne fun x hx => hcall _ _ (Step.tx.inj hx))
    rw [Backed, reservedOf] at h ⊢
    rw [hr]
    exact h
  | block index =>
    refine iff_of_true ?_ (.of_ne fun x hx => by cases hx)
    obtain ⟨hb, hd, hr⟩ := State.books_startBlock (s := s) (a := a) index
    rw [Backed, hb, hd, hr]
    exact h
  | rotate =>
    refine iff_of_true ?_ (.of_ne fun x hx => by cases hx)
    rw [Backed] at h ⊢
    rw [State.stakedBy_rotateSession hk, State.reservedOf_rotateSession hk]
    obtain hb | ⟨c, -, -, hb⟩ := State.bondOf_rotateSession (a := a) hk <;> rw [hb] <;> omega

theorem State.backed_of_init (h₀ : s ∈ (chain T AccountId).init) : s.Backed a := by
  obtain ⟨g, d, rfl⟩ := genesis_cases h₀
  exact le_rfl

/-- Throughout a run, an account has its bond and its stakes reserved exactly when none of
    its own bond corrections takes what its stakes need. -/
theorem always_backed_iff (h₀ : s ∈ (chain T AccountId).init) (a : AccountId)
    (es : List (Step AccountId)) :
    (chain T AccountId).Always (State.Backed a) s es ↔
      (chain T AccountId).Along (State.CorrectsOwn a) s es :=
  System.always_iff_along (.init h₀) (State.backed_of_init h₀) fun s e hs h =>
    (s.next_step e).backed_iff (uniqueKeys_of_reachable hs) h

/-- A correction by which bob loses the reserve of his stake unbacks nobody else. -/
theorem always_backed_development :
    let es : List (Step Keyring) :=
      [.signed .aliceStash .registerCandidate, .signed .aliceStash (.bondCandidate (10 ^ 14)),
        .signed .bob .registerCandidate, .signed .bob (.stakeCandidate .aliceStash 5),
        .signed .bob .offlineCandidate, .signed .bob (.bondCorrection 5)]
    (chain Config.runtime Keyring).Always (State.Backed .aliceStash) developmentState es :=
  (always_backed_iff developmentState_mem .aliceStash _).2
    (by simp [System.Along, State.CorrectsOwn])

/-! ### Balance sheets -/

namespace State

/-- The amount of a bond correction of the account that succeeds. -/
def corrects (a : AccountId) (s : State T AccountId) : Step AccountId → Option ℕ
  | .tx (.call (.signed who) (.bondCorrection frozenBalance)) =>
    if who = a ∧ s.succeeds (.signed who (.bondCorrection frozenBalance)) then some frozenBalance
    else none
  | _ => none

/-- What a bond correction of the account takes out of its reserve. -/
def corrected (a : AccountId) (s : State T AccountId) (e : Step AccountId) : ℕ :=
  (s.corrects a e).elim 0 (min (s.reservedOf a))

/-- The bond of the account that is erased, but not released: by a rotation that drops its
    record, or by a bond correction. -/
def erased (a : AccountId) (s : State T AccountId) : Step AccountId → ℕ
  | .rotate => s.bondOf a - s.rotateSession.bondOf a
  | e => if (s.corrects a e).isSome then s.bondOf a else 0

/-- What other pallets pay into the free balance of the account. -/
def deposited (a : AccountId) (s : State T AccountId) : Step AccountId → ℕ
  | .tx (.deposit who value) =>
    if a = who ∧ s.freeOf a + s.reservedOf a + value ≤ T.maxBalance then value else 0
  | _ => 0

/-- What other pallets pay out of the free balance of the account. -/
def withdrawn (a : AccountId) (s : State T AccountId) : Step AccountId → ℕ
  | .tx (.withdraw who value) => if a = who then min (s.freeOf a) value else 0
  | _ => 0

/-- What is reserved besides the bond and the stakes. -/
def surplusOf (a : AccountId) (s : State T AccountId) : ℕ :=
  s.reservedOf a - (s.bondOf a + s.stakedBy a)

theorem corrects_of_ne (h : ∀ x, e ≠ .signed a (.bondCorrection x)) : s.corrects a e = none := by
  unfold corrects
  split
  · exact if_neg fun hw => h _ (by rw [hw.1])
  · rfl

theorem corrected_of_ne (h : ∀ x, e ≠ .signed a (.bondCorrection x)) : s.corrected a e = 0 := by
  rw [corrected, corrects_of_ne h, Option.elim_none]

theorem erased_of_ne (h : ∀ x, e ≠ .signed a (.bondCorrection x)) (hr : e ≠ .rotate) :
    s.erased a e = 0 := by
  unfold erased
  split
  · exact absurd rfl hr
  · rw [corrects_of_ne h]
    rfl

end State

/-- A call leaves over what it erases of the bond, less what it takes out. -/
theorem Effect.surplus {call : Call AccountId} (he : Effect s who call s') (hk : s.UniqueKeys)
    (h : s.Backed a) (h' : s'.Backed a) :
    s'.surplusOf a + s.corrected a (.signed who call) =
      s.surplusOf a + s.erased a (.signed who call) := by
  obtain ⟨hother, hwho⟩ := he.books hk
  rw [State.Backed] at h h'
  by_cases ha : a = who
  · subst ha
    by_cases hx : ∃ x, call = .bondCorrection x
    · obtain ⟨x, rfl⟩ := hx
      have hc : s.corrects a (.signed a (.bondCorrection x)) = some x :=
        if_pos ⟨rfl, State.succeeds_signed.2 ⟨s', he⟩⟩
      have herased : s.erased a (.signed a (.bondCorrection x)) = s.bondOf a :=
        if_pos (by rw [hc]; rfl)
      obtain ⟨hb, hd, hr⟩ := hwho
      rw [herased, State.corrected, hc, Option.elim_some, State.surplusOf, State.surplusOf, hb, hd,
        hr]
      rw [hb, hd, hr] at h'
      omega
    · have hne : ∀ x, Step.signed a call ≠ .signed a (.bondCorrection x) :=
        fun x hcall => hx ⟨x, by cases hcall; rfl⟩
      rw [State.corrected_of_ne hne, State.erased_of_ne hne (fun hr => by cases hr),
        State.surplusOf, State.surplusOf]
      cases call with
      | bondCorrection x => exact absurd ⟨x, rfl⟩ hx
      | unstakeCandidate candidate =>
        obtain ⟨hb, stake, hr, hd⟩ := hwho
        omega
      | _ => omega
  · have hne : ∀ x, Step.signed who call ≠ .signed a (.bondCorrection x) :=
      fun x hx => ha (by cases hx; rfl)
    obtain ⟨hb, hd, hr⟩ := hother a ha
    rw [State.corrected_of_ne hne, State.erased_of_ne hne (fun hr => by cases hr),
      State.surplusOf, State.surplusOf, hb, hd, hr]

/-- A step leaves over what it erases of the bond, less what it takes out. -/
theorem State.Next.surplus (hn : s.Next e s') (hk : s.UniqueKeys) (h : s.Backed a)
    (h' : s'.Backed a) :
    s'.surplusOf a + s.corrected a e = s.surplusOf a + s.erased a e := by
  cases hn with
  | call he => exact he.surplus hk h h'
  | @failed origin call hfail =>
    have hc : s.corrects a (.tx (.call origin call)) = none := by
      unfold corrects
      split
      · next heq =>
        cases heq
        refine if_neg fun hw => ?_
        obtain ⟨s', he⟩ := succeeds_signed.1 hw.2
        exact hfail _ s' rfl he
      · rfl
    have herased : s.erased a (.tx (.call origin call)) = 0 := if_neg (by rw [hc]; simp)
    rw [corrected, hc, Option.elim_none, herased]
  | @other tx _ _ hcall hr =>
    have hne : ∀ x, Step.tx tx ≠ .signed a (.bondCorrection x) :=
      fun x hx => hcall _ _ (Step.tx.inj hx)
    rw [corrected_of_ne hne, erased_of_ne hne (fun hr => by cases hr), surplusOf, reservedOf, hr]
    rfl
  | block index =>
    obtain ⟨hb, hd, hr⟩ := State.books_startBlock (s := s) (a := a) index
    rw [corrected_of_ne (fun x hx => by cases hx),
      erased_of_ne (fun x hx => by cases hx) (fun hr => by cases hr), surplusOf, hb, hd, hr,
      surplusOf]
  | rotate =>
    have herased : s.erased a .rotate = s.bondOf a - s.rotateSession.bondOf a := rfl
    rw [corrected_of_ne (fun x hx => by cases hx), herased, surplusOf, surplusOf,
      State.stakedBy_rotateSession hk, State.reservedOf_rotateSession hk]
    rw [Backed] at h
    obtain hb | ⟨c, -, -, hb⟩ := State.bondOf_rotateSession (a := a) hk <;> rw [hb] <;> omega

/-- The pallet moves the balance of an account between free and reserved only. -/
theorem Effect.total {call : Call AccountId} (he : Effect s who call s') :
    s'.freeOf a + s'.reservedOf a = s.freeOf a + s.reservedOf a := by
  cases he with
  | @bondCandidate newBond c currency _ _ hmove =>
    have hmove : bondMoved s.currency who c.bond newBond = some currency := hmove
    rw [bondMoved] at hmove
    split at hmove
    · exact Ledger.total_reserve hmove
    · cases hmove
      exact Ledger.total_unreserve
  | stakeCandidate _ _ _ hreserve => exact Ledger.total_reserve hreserve
  | unstakeCandidate | bondCorrection => exact Ledger.total_unreserve
  | _ => rfl

/-- What an account has, free and reserved, changes by what other pallets pay in and out. -/
theorem State.total_step (s : State T AccountId) (e : Step AccountId) (hk : s.UniqueKeys) :
    (s.step e).freeOf a + (s.step e).reservedOf a + s.withdrawn a e =
      s.freeOf a + s.reservedOf a + s.deposited a e := by
  cases e with
  | tx tx =>
    cases tx with
    | call origin call =>
      have hn := s.next_step (.tx (.call origin call))
      generalize s.step (.tx (.call origin call)) = s' at hn
      cases hn with
      | call he => exact he.total
      | failed => rfl
      | other hcall => exact absurd rfl (hcall origin call)
    | deposit who value =>
      have hfree : (s.step (.tx (.deposit who value))).freeOf a =
          s.freeOf a + s.deposited a (.tx (.deposit who value)) := Ledger.freeBalance_deposit
      have hreserved : (s.step (.tx (.deposit who value))).reservedOf a = s.reservedOf a :=
        Ledger.reservedBalance_deposit
      have hout : s.withdrawn a (.tx (.deposit who value)) = 0 := rfl
      omega
    | withdraw who value =>
      have hfree : (s.step (.tx (.withdraw who value))).freeOf a =
          s.freeOf a - if a = who then value else 0 := Ledger.freeBalance_withdraw
      have hreserved : (s.step (.tx (.withdraw who value))).reservedOf a = s.reservedOf a :=
        Ledger.reservedBalance_withdraw
      have hin : s.deposited a (.tx (.withdraw who value)) = 0 := rfl
      have hout : s.withdrawn a (.tx (.withdraw who value)) =
          if a = who then min (s.freeOf a) value else 0 := rfl
      by_cases ha : a = who
      · rw [if_pos ha] at hfree hout
        omega
      · rw [if_neg ha] at hfree hout
        omega
    | grants | sessionKeys => rfl
  | block index =>
    obtain ⟨p, actualAuthors, h⟩ := s.startBlock_eq index
    have hstep : s.step (.block index) = s.startBlock index := rfl
    rw [hstep, h]
    rfl
  | rotate =>
    obtain ⟨p, w, h, -⟩ := rotateSession_eq hk
    have hstep : s.step .rotate = s.rotateSession := rfl
    rw [hstep, h]
    rfl

/-- The balance sheet of an account after the run from `s₀` on `es`. -/
structure State.BalanceSheet (s₀ : State T AccountId) (es : List (Step AccountId))
    (a : AccountId) : Prop where
  /-- What was reserved backs the bond, the stakes, or bonds that were erased; unless a
      correction took it out. -/
  reserve : ((chain T AccountId).run s₀ es).reservedOf a +
      (chain T AccountId).total (State.corrected a) s₀ es =
    ((chain T AccountId).run s₀ es).bondOf a + ((chain T AccountId).run s₀ es).stakedBy a +
      (chain T AccountId).total (State.erased a) s₀ es
  /-- What came in is free or reserved, or went out. -/
  total : ((chain T AccountId).run s₀ es).freeOf a + ((chain T AccountId).run s₀ es).reservedOf a +
      (chain T AccountId).total (State.withdrawn a) s₀ es =
    s₀.freeOf a + (chain T AccountId).total (State.deposited a) s₀ es

/-- After every run in which no bond correction of an account takes what its stakes need,
    its balance sheet adds up. -/
theorem balanceSheet_of_run (h₀ : s₀ ∈ (chain T AccountId).init)
    (hes : (chain T AccountId).Along (State.CorrectsOwn a) s₀ es) : s₀.BalanceSheet es a := by
  have hs : (chain T AccountId).Reachable s₀ := .init h₀
  have hbacked : s₀.Backed a := State.backed_of_init h₀
  have hreserved : s₀.reservedOf a = 0 := by
    obtain ⟨g, d, rfl⟩ := genesis_cases h₀
    rfl
  obtain ⟨hend, hsurplus⟩ := System.total_balance (f := State.surplusOf a) hs hbacked hes
    fun s e hs h hc => by
      have hn := s.next_step e
      have hk := uniqueKeys_of_reachable hs
      have h' := (hn.backed_iff hk h).2 hc
      exact ⟨h', hn.surplus hk h h'⟩
  have halong : (chain T AccountId).Along (fun _ _ => True) s₀ es := .of_forall fun _ _ => trivial
  obtain ⟨-, htotal⟩ := System.total_balance (f := fun s => s.freeOf a + s.reservedOf a)
    (Q := fun _ => True) hs trivial halong
    fun s e hs _ _ => ⟨trivial, s.total_step e (uniqueKeys_of_reachable hs)⟩
  rw [State.Backed] at hbacked hend
  rw [State.surplusOf, State.surplusOf] at hsurplus
  exact ⟨by omega, by omega⟩

/-- Bob's bond stays in his reserve when a rotation drops his record, together with his stake
    behind another candidate. -/
theorem balanceSheet_development :
    let es : List (Step Keyring) :=
      [.signed .aliceStash .registerCandidate, .signed .bob .registerCandidate,
        .signed .bob (.bondCandidate (10 ^ 14)), .signed .bob (.stakeCandidate .aliceStash 5),
        .tx (.deposit .bob 7), .tx (.withdraw .bob 3), .signed .bob .offlineCandidate, .rotate]
    developmentState.BalanceSheet es .bob ∧
      (chain Config.runtime Keyring).total (State.erased .bob) developmentState es = 10 ^ 14 ∧
      ((chain Config.runtime Keyring).run developmentState es).reservedOf .bob = 10 ^ 14 + 5 :=
  ⟨balanceSheet_of_run developmentState_mem (by simp [System.Along, State.CorrectsOwn]), by decide,
    by decide⟩

end Xode.Staking
