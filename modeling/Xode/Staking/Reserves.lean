import Xode.Staking.Delegations

/-!
# Reserves

One reserve per account backs its bond and everything it has staked. What a call
does to these three is its `books` (`Effect.books`); the start of a block touches
none of them, and a rotation drops bonds without touching the reserve.

* The reserve covers bond and stakes throughout a run exactly when no bond
  correction takes what the stakes need (`always_solvent_iff`).
* It exceeds them nowhere, and bonds are released when they go, exactly when the
  rotations drop no bond, and the bond corrections release at least the bond
  (`always_noStranded_iff`).
-/

namespace Xode.Staking

variable {T : Config} {AccountId : Type} [DecidableEq AccountId]
  {s s' : State T AccountId} {a who candidate : AccountId}

namespace State

/-- The reserved balance of an account. -/
def reservedOf (s : State T AccountId) (a : AccountId) : ℕ := s.currency.reservedBalance a

theorem stakedBy_congr (h : s'.delegations = s.delegations) : s'.stakedBy a = s.stakedBy a := by
  rw [stakedBy, h, stakedBy]

end State

/-! ### The books of a step -/

/-- A bond that moves takes the reserve along: one of the two differences is zero,
    whichever way it moves. -/
theorem reservedBalance_bondMoved {l currency : Ledger AccountId T.maxBalance} {bond newBond : ℕ}
    (h : bondMoved l who bond newBond = some currency) (a : AccountId) :
    currency.reservedBalance a = l.reservedBalance a + (if a = who then newBond - bond else 0) -
      if a = who then bond - newBond else 0 := by
  rw [bondMoved] at h
  split at h
  · rw [(Ledger.reserve_eq_some h).2.1 a]
    split <;> omega
  · cases h
    rw [Ledger.reservedBalance_unreserve]
    split <;> omega

/-- What delegating does to the stakes. A stake that saturates is at least any
    reserve. -/
theorem Effect.stakedBy_stake {amount : ℕ}
    (h : Effect s who (.stakeCandidate candidate amount) s') :
    (∀ a, a ≠ who → s'.stakedBy a = s.stakedBy a) ∧ s'.stakedBy who ≤ s.stakedBy who + amount ∧
      (s'.stakedBy who = s.stakedBy who + amount ∨ s'.reservedOf who ≤ s'.stakedBy who) := by
  obtain ⟨ds, ds', hl, hadd, hw, -⟩ := h.redelegates_stake
  obtain ⟨hother, hle, hor⟩ := stakeIn_withStake T who amount ds.toList
  rw [← toList_addDelegation hadd] at hother hle hor
  rw [hl] at hle hor
  have hwho := hw.stakedBy_add who
  refine ⟨fun a ha => ?_, by omega, hor.imp (fun h => by omega) fun h => ?_⟩
  · have := hw.stakedBy_add a
    rw [hother a ha, hl] at this
    omega
  · have hmem : stakeIn who (s'.delegationsOf candidate) ≤ s'.stakedBy who :=
      State.stakeIn_delegationsOf_le
    rw [hw.delegationsOf_eq, if_pos rfl] at hmem
    have hmax := s'.currency.total_le who
    have : s'.reservedOf who ≤ T.maxBalance := by simp only [State.reservedOf]; omega
    omega

/-- What withdrawing a delegation does to the stakes. -/
theorem Effect.stakedBy_unstake (h : Effect s who (.unstakeCandidate candidate) s') :
    ∃ stake, (∀ a, a ≠ who → s'.stakedBy a = s.stakedBy a) ∧
      s'.stakedBy who + stake = s.stakedBy who ∧
      s'.currency = (s.currency.unreserve who stake).1 := by
  obtain ⟨d, hd, hw, hcur, -⟩ := h.redelegates_unstake
  refine ⟨d.stake, fun a ha => ?_, ?_, hcur⟩
  · have h₁ := hw.stakedBy_add a
    have h₂ := stakeIn_eraseKey (a := a) hd
    rw [if_neg ha] at h₂
    omega
  · have h₁ := hw.stakedBy_add who
    have h₂ := stakeIn_eraseKey (a := who) hd
    rw [if_pos rfl] at h₂
    omega

/-- What a call does to the bond, the stakes and the reserve of its signer; those
    of the other accounts stay as they are. -/
theorem Effect.books {call : Call AccountId} (h : Effect s who call s') (hk : s.UniqueKeys) :
    (∀ a, a ≠ who → s'.bondOf a = s.bondOf a ∧ s'.stakedBy a = s.stakedBy a ∧
      s'.reservedOf a = s.reservedOf a) ∧
    match call with
    | .bondCandidate newBond => s'.bondOf who = newBond ∧ s'.stakedBy who = s.stakedBy who ∧
        s'.reservedOf who = s.reservedOf who + (newBond - s.bondOf who) - (s.bondOf who - newBond)
    | .stakeCandidate _ amount => s'.bondOf who = s.bondOf who ∧
        s'.reservedOf who = s.reservedOf who + amount ∧ s'.stakedBy who ≤ s.stakedBy who + amount ∧
        (s'.stakedBy who = s.stakedBy who + amount ∨ s'.reservedOf who ≤ s'.stakedBy who)
    | .unstakeCandidate _ => s'.bondOf who = s.bondOf who ∧
        ∃ stake, s'.reservedOf who = s.reservedOf who - stake ∧
          s'.stakedBy who + stake = s.stakedBy who
    | .bondCorrection frozenBalance => s'.bondOf who = 0 ∧ s'.stakedBy who = s.stakedBy who ∧
        s'.reservedOf who = s.reservedOf who - frozenBalance
    | _ => s'.bondOf who = s.bondOf who ∧ s'.stakedBy who = s.stakedBy who ∧
        s'.reservedOf who = s.reservedOf who := by
  have hb := h.bondOf hk
  cases call with
  | bondCandidate newBond =>
    have hd (a : AccountId) := State.stakedBy_congr (a := a) (h.delegations_eq (by simp) (by simp))
    have hr (a : AccountId) : s'.reservedOf a =
        s.reservedOf a + (if a = who then newBond - s.bondOf who else 0) -
          if a = who then s.bondOf who - newBond else 0 := by
      cases h with
      | bondCandidate hc _ hmove =>
        rw [State.bondOf_eq hc]
        exact reservedBalance_bondMoved hmove a
    exact ⟨fun a ha => ⟨(hb a).trans (if_neg ha), hd a, (hr a).trans (by simp [ha])⟩,
      (hb who).trans (if_pos rfl), hd who, (hr who).trans (by simp)⟩
  | stakeCandidate candidate amount =>
    obtain ⟨-, -, -, -, -, -, hreserve, -⟩ := h.redelegates_stake
    have hr : ∀ a, s'.reservedOf a = s.reservedOf a + if a = who then amount else 0 :=
      (Ledger.reserve_eq_some hreserve).2.1
    obtain ⟨hother, hle, hor⟩ := h.stakedBy_stake
    exact ⟨fun a ha => ⟨hb a, hother a ha, (hr a).trans (by simp [ha])⟩, hb who,
      (hr who).trans (by simp), hle, hor⟩
  | unstakeCandidate candidate =>
    obtain ⟨stake, hother, hwho, hcur⟩ := h.stakedBy_unstake
    have hr (a : AccountId) : s'.reservedOf a = s.reservedOf a - if a = who then stake else 0 := by
      rw [State.reservedOf, hcur, Ledger.reservedBalance_unreserve, State.reservedOf]
    exact ⟨fun a ha => ⟨hb a, hother a ha, (hr a).trans (by simp [ha])⟩, hb who, stake,
      (hr who).trans (by simp), hwho⟩
  | bondCorrection frozenBalance =>
    have hd (a : AccountId) := State.stakedBy_congr (a := a) (h.delegations_eq (by simp) (by simp))
    have hr (a : AccountId) :
        s'.reservedOf a = s.reservedOf a - if a = who then frozenBalance else 0 := by
      cases h with
      | bondCorrection => exact Ledger.reservedBalance_unreserve
    exact ⟨fun a ha => ⟨(hb a).trans (if_neg ha), hd a, (hr a).trans (by simp [ha])⟩,
      (hb who).trans (if_pos rfl), hd who, (hr who).trans (by simp)⟩
  | _ =>
    have hd (a : AccountId) := State.stakedBy_congr (a := a) (h.delegations_eq (by simp) (by simp))
    have hr (a : AccountId) : s'.reservedOf a = s.reservedOf a := by cases h; rfl
    exact ⟨fun a _ => ⟨hb a, hd a, hr a⟩, hb who, hd who, hr who⟩

namespace State

theorem reservedOf_rotateSession (hk : s.UniqueKeys) :
    s.rotateSession.reservedOf a = s.reservedOf a := by
  obtain ⟨p, w, h, -⟩ := rotateSession_eq hk
  rw [reservedOf, h, reservedOf]

theorem stakedBy_rotateSession (hk : s.UniqueKeys) : s.rotateSession.stakedBy a = s.stakedBy a :=
  stakedBy_congr (delegations_rotateSession hk)

/-- The start of a block leaves the books alone. -/
theorem books_startBlock (index : Option ℕ) :
    (s.startBlock index).bondOf a = s.bondOf a ∧ (s.startBlock index).stakedBy a = s.stakedBy a ∧
      (s.startBlock index).reservedOf a = s.reservedOf a := by
  obtain ⟨p, actualAuthors, h⟩ := s.startBlock_eq index
  exact ⟨bondOf_startBlock index, stakedBy_congr (s.delegations_startBlock index),
    by rw [reservedOf, h, reservedOf]⟩

/-! ### Solvency -/

/-- Every account has its bond and its stakes reserved. -/
def Solvent (s : State T AccountId) : Prop := ∀ a, s.bondOf a + s.stakedBy a ≤ s.reservedOf a

/-- Unreserving a recorded bond or stake leaves nothing over. -/
def ReleasesInFull (s : State T AccountId) : Prop :=
  (∀ c ∈ s.proposedCandidates.toList, (s.currency.unreserve c.who c.bond).2 = 0) ∧
    ∀ candidate, ∀ d ∈ s.delegationsOf candidate, (s.currency.unreserve d.delegator d.stake).2 = 0

/-- No bond correction takes from the reserve what the stakes of its signer need. -/
def CorrectsWithin (s : State T AccountId) (e : Step AccountId) : Prop :=
  ∀ who frozenBalance c, e = .signed who (.bondCorrection frozenBalance) →
    s.candidate? who = some c → c.offline → s.OutOfPipeline who →
    s.stakedBy who = 0 ∨ frozenBalance + s.stakedBy who ≤ s.reservedOf who

theorem CorrectsWithin.of_ne {e : Step AccountId}
    (h : ∀ who x, e ≠ .signed who (.bondCorrection x)) : s.CorrectsWithin e :=
  fun who x _ hx => absurd hx (h who x)

theorem Solvent.releasesInFull (hk : s.UniqueKeys) (h : s.Solvent) : s.ReleasesInFull := by
  refine ⟨fun c hc => Ledger.unreserve_eq_zero.2 ?_,
    fun candidate d hd => Ledger.unreserve_eq_zero.2 ?_⟩
  · have hb := bondOf_eq ((candidate?_eq_some hk).2 ⟨hc, rfl⟩)
    have := h c.who
    rw [hb, reservedOf] at this
    omega
  · have h₁ := stake_le_stakeIn hd
    have h₂ : stakeIn d.delegator (s.delegationsOf candidate) ≤ s.stakedBy d.delegator :=
      stakeIn_delegationsOf_le
    have := h d.delegator
    rw [reservedOf] at this
    omega

end State

/-- Whether the reserves still cover bonds and stakes after a call. -/
theorem Effect.solvent_iff {call : Call AccountId} (he : Effect s who call s') (hk : s.UniqueKeys)
    (h : s.Solvent) : s'.Solvent ↔ s.CorrectsWithin (.signed who call) := by
  obtain ⟨hother, hwho⟩ := he.books hk
  -- Only the books of the signer change.
  have hs' : s'.Solvent ↔ s'.bondOf who + s'.stakedBy who ≤ s'.reservedOf who := by
    refine ⟨fun h => h who, fun hw a => ?_⟩
    by_cases ha : a = who
    · exact ha ▸ hw
    · obtain ⟨hb, hd, hr⟩ := hother a ha
      rw [hb, hd, hr]
      exact h a
  have hsw := h who
  rw [hs']
  cases call with
  | bondCorrection x =>
    obtain ⟨hb, hd, hr⟩ := hwho
    rw [hb, hd, hr]
    refine ⟨fun hle who' y c hy _ _ _ => ?_, fun hx => ?_⟩
    · cases hy
      omega
    · cases he with
      | bondCorrection hc hoff hout =>
        have := hx who x _ rfl hc hoff hout
        omega
  | unstakeCandidate candidate =>
    obtain ⟨hb, stake, hr, hd⟩ := hwho
    refine iff_of_true ?_ (.of_ne nofun)
    omega
  | _ =>
    refine iff_of_true ?_ (.of_ne nofun)
    omega

/-- Whether the reserves still cover bonds and stakes after a step. -/
theorem State.Next.solvent_iff {e : Step AccountId} (hn : s.Next e s') (hk : s.UniqueKeys)
    (h : s.Solvent) : s'.Solvent ↔ s.CorrectsWithin e := by
  cases hn with
  | call he => exact he.solvent_iff hk h
  | failed hfail =>
    refine iff_of_true h fun who x c hx hc hoff hout => ?_
    cases hx
    exact absurd (.bondCorrection hc hoff hout) (hfail who _ rfl)
  | other hcall hr =>
    refine iff_of_true (fun a => ?_) (.of_ne fun who x hx => hcall _ _ (Step.tx.inj hx))
    have := h a
    rw [State.reservedOf] at this ⊢
    rw [hr]
    exact this
  | block index =>
    refine iff_of_true (fun a => ?_) (.of_ne nofun)
    obtain ⟨hb, hd, hr⟩ := State.books_startBlock (s := s) (a := a) index
    rw [hb, hd, hr]
    exact h a
  | rotate =>
    refine iff_of_true (fun a => ?_) (.of_ne nofun)
    have := h a
    rw [State.stakedBy_rotateSession hk, State.reservedOf_rotateSession hk]
    obtain hb | ⟨c, -, -, hb⟩ := State.bondOf_rotateSession (a := a) hk <;> rw [hb] <;> omega

/-- Throughout a run, every account has its bond and its stakes reserved, and they
    are released in full, exactly when no bond correction takes from the reserve
    what the stakes of its signer need. -/
theorem always_solvent_iff {es : List (Step AccountId)} (h₀ : s ∈ (chain T AccountId).init) :
    (chain T AccountId).Always (fun s => s.Solvent ∧ s.ReleasesInFull) s es ↔
      (chain T AccountId).Along State.CorrectsWithin s es := by
  have hs : (chain T AccountId).Reachable s := .init h₀
  have hstart : s.Solvent := by
    obtain ⟨g, d, rfl⟩ := genesis_cases h₀
    exact fun a => le_rfl
  rw [← System.always_iff_along hs hstart fun s e hs h =>
    (s.next_step e).solvent_iff (uniqueKeys_of_reachable hs) h]
  exact ⟨fun h => h.mono hs fun s _ h => h.1,
    fun h => h.mono hs fun s hs h => ⟨h, h.releasesInFull (uniqueKeys_of_reachable hs)⟩⟩

/-- A correction may take as much as the bond, or as is reserved besides the stakes. -/
theorem always_solvent_corrected :
    (chain Config.runtime Keyring).Always (fun s => s.Solvent ∧ s.ReleasesInFull) developmentState
      [.signed .aliceStash .registerCandidate,
        .signed .bob (.stakeCandidate .aliceStash (10 ^ 13)),
        .signed .bob .registerCandidate, .signed .bob (.bondCandidate (10 ^ 14)),
        .signed .bob .offlineCandidate, .signed .bob (.bondCorrection (10 ^ 14))] :=
  (always_solvent_iff developmentState_mem).2
    ⟨.of_ne nofun, .of_ne nofun, .of_ne nofun, .of_ne nofun, .of_ne nofun,
      fun who x c hx _ _ _ => by cases hx; exact .inr (by decide), trivial⟩

/-- A correction of more than the bond takes from the reserve of the stakes. -/
theorem not_always_solvent :
    ¬(chain Config.runtime Keyring).Always (fun s => s.Solvent ∧ s.ReleasesInFull) developmentState
      [.signed .aliceStash .registerCandidate,
        .signed .bob (.stakeCandidate .aliceStash (10 ^ 13)),
        .signed .bob .registerCandidate, .signed .bob .offlineCandidate,
        .signed .bob (.bondCorrection (10 ^ 13))] := by
  rintro ⟨-, -, -, -, -, h⟩
  exact absurd (h.start.1 .bob) (by decide)

/-! ### Stranded reserves -/

namespace State

/-- No account has more reserved than its bond and its stakes. -/
def NoStranded (s : State T AccountId) : Prop := ∀ a, s.reservedOf a ≤ s.bondOf a + s.stakedBy a

/-- A bond that goes in a step, with its record or without, is released in it. -/
def ReleasesBonds (s : State T AccountId) (e : Step AccountId) : Prop :=
  ∀ a, s.bondOf a ≠ 0 → ((chain T AccountId).step s e).bondOf a = 0 →
    ((chain T AccountId).step s e).reservedOf a ≤ s.reservedOf a - s.bondOf a

/-- The bonds that went between two states were released. -/
def Releases (s s' : State T AccountId) : Prop :=
  ∀ a, s.bondOf a ≠ 0 → s'.bondOf a = 0 → s'.reservedOf a ≤ s.reservedOf a - s.bondOf a

/-- A rotation drops no bond, and a bond correction takes at least the bond,
    unless nothing is reserved for it. -/
def TakesBonds (s : State T AccountId) (e : Step AccountId) : Prop :=
  (e = .rotate → ∀ c ∈ s.proposedCandidates.toList, s.Drops c →
    c.bond = 0 ∨ s.reservedOf c.who = 0) ∧
  ∀ who frozenBalance c, e = .signed who (.bondCorrection frozenBalance) →
    s.candidate? who = some c → c.offline → s.OutOfPipeline who →
    c.bond ≤ frozenBalance ∨ s.reservedOf who ≤ frozenBalance

theorem TakesBonds.of_ne {e : Step AccountId} (hr : e ≠ .rotate)
    (h : ∀ who x, e ≠ .signed who (.bondCorrection x)) : s.TakesBonds e :=
  ⟨fun he => absurd he hr, fun who x _ hx => absurd hx (h who x)⟩

end State

/-- Whether a call strands nothing and releases the bonds that go. -/
theorem Effect.noStranded_iff {call : Call AccountId} (he : Effect s who call s')
    (hk : s.UniqueKeys) (h : s.NoStranded) :
    s'.NoStranded ∧ s.Releases s' ↔ s.TakesBonds (.signed who call) := by
  obtain ⟨hother, hwho⟩ := he.books hk
  -- Only the books of the signer change.
  have hs' : s'.NoStranded ∧ s.Releases s' ↔
      s'.reservedOf who ≤ s'.bondOf who + s'.stakedBy who ∧
        (s.bondOf who ≠ 0 → s'.bondOf who = 0 →
          s'.reservedOf who ≤ s.reservedOf who - s.bondOf who) := by
    refine ⟨fun h => ⟨h.1 who, h.2 who⟩, fun hw => ⟨fun a => ?_, fun a h₀ h₁ => ?_⟩⟩
    · by_cases ha : a = who
      · exact ha ▸ hw.1
      · obtain ⟨hb, hd, hr⟩ := hother a ha
        rw [hb, hd, hr]
        exact h a
    · by_cases ha : a = who
      · subst ha
        exact hw.2 h₀ h₁
      · exact absurd ((hother a ha).1.symm.trans h₁) h₀
  have hsw := h who
  rw [hs']
  cases call with
  | bondCorrection x =>
    obtain ⟨hb, hd, hr⟩ := hwho
    rw [hb, hd, hr]
    cases he with
    | bondCorrection hc hoff hout =>
      have hbond := State.bondOf_eq hc
      refine ⟨fun hle => ⟨nofun, fun who' y c' hy hc' _ _ => ?_⟩, fun hx => ?_⟩
      · cases hy
        rw [hc, Option.some.injEq] at hc'
        subst hc'
        by_contra hlt
        have := hle.2 (by omega) rfl
        omega
      · have := hx.2 who x _ rfl hc hoff hout
        exact ⟨by omega, fun _ _ => by omega⟩
  | unstakeCandidate candidate =>
    obtain ⟨hb, stake, hr, hd⟩ := hwho
    exact iff_of_true ⟨by omega, fun _ _ => by omega⟩ (.of_ne nofun nofun)
  | _ =>
    exact iff_of_true ⟨by omega, fun _ _ => by omega⟩ (.of_ne nofun nofun)

/-- Whether a rotation strands nothing and releases the bonds that go: it releases
    none. -/
theorem noStranded_rotateSession_iff (hk : s.UniqueKeys) (h : s.NoStranded) :
    s.rotateSession.NoStranded ∧ s.Releases s.rotateSession ↔ s.TakesBonds .rotate := by
  constructor
  · rintro ⟨-, hrel⟩
    refine ⟨fun _ c hc hd => ?_, nofun⟩
    have hc' := (State.candidate?_eq_some hk).2 ⟨hc, rfl⟩
    have := hrel c.who
    rw [State.bondOf_eq hc', State.bondOf_rotateSession_of_drops hk hc' hd,
      State.reservedOf_rotateSession hk] at this
    by_contra hne
    have := this (by omega) rfl
    omega
  · rintro ⟨hrot, -⟩
    -- A bond that goes was of an account with nothing reserved.
    have hgone (a : AccountId) : s.rotateSession.bondOf a = s.bondOf a ∨
        s.rotateSession.bondOf a = 0 ∧ (s.bondOf a = 0 ∨ s.reservedOf a = 0) := by
      refine (State.bondOf_rotateSession hk).imp id ?_
      rintro ⟨c, hc, hd, hb⟩
      rw [State.bondOf_eq hc]
      exact ⟨hb, State.who_candidate? hc ▸ hrot rfl c (State.mem_candidate? hc) hd⟩
    refine ⟨fun a => ?_, fun a h₀ h₁ => ?_⟩
    · rw [State.stakedBy_rotateSession hk, State.reservedOf_rotateSession hk]
      have := h a
      have := hgone a
      omega
    · rw [State.reservedOf_rotateSession hk]
      have := hgone a
      omega

/-- Whether a step strands nothing and releases the bonds that go. -/
theorem State.Next.noStranded_iff {e : Step AccountId} (hn : s.Next e s') (hk : s.UniqueKeys)
    (h : s.NoStranded) : s'.NoStranded ∧ s.Releases s' ↔ s.TakesBonds e := by
  cases hn with
  | call he => exact he.noStranded_iff hk h
  | failed hfail =>
    refine iff_of_true ⟨h, fun a h₀ h₁ => absurd h₁ h₀⟩
      ⟨nofun, fun who x c hx hc hoff hout => ?_⟩
    cases hx
    exact absurd (.bondCorrection hc hoff hout) (hfail who _ rfl)
  | other hcall hr =>
    refine iff_of_true ⟨fun a => ?_, fun a h₀ h₁ => absurd h₁ h₀⟩
      (.of_ne nofun fun who x hx => hcall _ _ (Step.tx.inj hx))
    have := h a
    rw [State.reservedOf] at this ⊢
    rw [hr]
    exact this
  | block index =>
    have hbooks (a : AccountId) := State.books_startBlock (s := s) (a := a) index
    refine iff_of_true ⟨fun a => ?_, fun a h₀ h₁ => absurd ((hbooks a).1.symm.trans h₁) h₀⟩
      (.of_ne nofun nofun)
    obtain ⟨hb, hd, hr⟩ := hbooks a
    rw [hb, hd, hr]
    exact h a
  | rotate => exact noStranded_rotateSession_iff hk h

/-- Throughout a run, no account has more reserved than its bond and its stakes,
    and bonds are released when they go, exactly when the rotations drop no bond
    and the bond corrections take at least the bond, unless nothing is reserved. -/
theorem always_noStranded_iff {es : List (Step AccountId)} (h₀ : s ∈ (chain T AccountId).init) :
    (chain T AccountId).Always State.NoStranded s es ∧
        (chain T AccountId).Along State.ReleasesBonds s es ↔
      (chain T AccountId).Along State.TakesBonds s es := by
  refine System.always_and_along_iff (.init h₀) ?_ fun s e hs h =>
    (s.next_step e).noStranded_iff (uniqueKeys_of_reachable hs) h
  obtain ⟨g, d, rfl⟩ := genesis_cases h₀
  exact fun a => le_rfl

/-- Bob, who has a stake behind another candidate, takes his bond back by a bond correction,
    and the rotation that follows drops his record. -/
theorem always_noStranded_bonded :
    let es : List (Step Keyring) := [.signed .aliceStash .registerCandidate,
      .signed .aliceStash (.bondCandidate (10 ^ 14)), .signed .bob .registerCandidate,
      .signed .bob (.bondCandidate (10 ^ 14)), .signed .bob (.stakeCandidate .aliceStash (10 ^ 13)),
      .signed .bob .offlineCandidate, .signed .bob (.bondCorrection (10 ^ 14)), .rotate]
    ((chain Config.runtime Keyring).Always State.NoStranded developmentState es ∧
      (chain Config.runtime Keyring).Along State.ReleasesBonds developmentState es) ∧
      ((chain Config.runtime Keyring).run developmentState (es.take 6)).bondOf .bob = 10 ^ 14 ∧
      ((chain Config.runtime Keyring).run developmentState es).candidate? .bob = none := by
  refine ⟨(always_noStranded_iff developmentState_mem).2 ⟨.of_ne nofun nofun, .of_ne nofun nofun,
    .of_ne nofun nofun, .of_ne nofun nofun, .of_ne nofun nofun, .of_ne nofun nofun,
    ⟨nofun, fun who x c hx hc _ _ => ?_⟩, ⟨fun _ => by decide, nofun⟩, trivial⟩,
    by decide, by decide⟩
  cases hx
  exact .inl ((State.bondOf_eq hc).ge.trans (by decide))

/-- A candidate that goes offline is dropped with its bond, which stays reserved. -/
theorem not_always_noStranded :
    ¬(chain Config.runtime Keyring).Always State.NoStranded developmentState
      [.signed .bob .registerCandidate, .signed .bob (.bondCandidate (10 ^ 14)),
        .signed .bob .offlineCandidate, .rotate] := by
  rintro ⟨-, -, -, -, h⟩
  exact absurd (h.start .bob) (by decide)

end Xode.Staking
