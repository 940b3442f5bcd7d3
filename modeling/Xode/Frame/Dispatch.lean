import Mathlib.Tactic.Common

/-!
# Dispatch

A pallet's code reads and writes storage and may fail. Its writes are there as
soon as they are made, also when it fails later (`PalletM`); undoing the writes
of a failed call is up to who dispatches it (`dispatch`).

What a computation did is read off its text by rules, one for each way to build
it: `*_eq_ok` says what it did if it succeeded, `*_eq_error` where it stopped if it
failed, `finalState_*` what it leaves in storage in any case. Code that makes all of
its checks before its first write leaves nothing behind when it fails (`Atomic`).
-/

namespace Xode

/-- The origin of a call. -/
inductive RawOrigin (AccountId : Type)
  | root
  | signed (who : AccountId)
  | none
  deriving DecidableEq

/-- The errors of a call: a bad origin, one of the pallet's own, or one of
    another pallet it called. -/
inductive DispatchError (E : Type)
  | badOrigin
  | module (e : E)
  | other
  deriving DecidableEq

/-- Code of a pallet with errors `E`, over the storage `σ`. -/
abbrev PalletM (E σ : Type) := EStateM (DispatchError E) σ

variable {E σ α β AccountId : Type}

/-- Failing with `e` unless `p`. -/
def ensure (p : Prop) [Decidable p] (e : E) : PalletM E σ Unit :=
  if p then pure () else throw (.module e)

/-- The value of an option, or the failure `e` (`ok_or`). -/
def okOr (o : Option α) (e : DispatchError E) : PalletM E σ α :=
  match o with
  | some a => pure a
  | none => throw e

/-- The signer of a call. -/
def ensureSigned (origin : RawOrigin AccountId) : PalletM E σ AccountId :=
  match origin with
  | .signed who => pure who
  | _ => throw .badOrigin

/-- The storage after a computation, whether it failed or not. -/
def finalState (x : PalletM E σ α) (s : σ) : σ :=
  match x s with
  | .ok _ s' => s'
  | .error _ s' => s'

/-- The storage after a dispatched call: that of the call, unless it failed. -/
def dispatch (call : PalletM E σ Unit) (s : σ) : σ :=
  match call s with
  | .ok _ s' => s'
  | .error _ _ => s

/-- Whether a computation succeeds. -/
def succeeds (x : PalletM E σ α) (s : σ) : Bool :=
  match x s with
  | .ok _ _ => true
  | .error _ _ => false

/-! ### What a successful computation did -/

variable {s s' : σ} {a : α} {b : β} {u : Unit} {e : E} {x : PalletM E σ α} {f : α → PalletM E σ β}

theorem bind_eq_ok :
    (x >>= f) s = .ok b s' ↔ ∃ a s₁, x s = .ok a s₁ ∧ f a s₁ = .ok b s' := by
  simp only [bind, EStateM.bind]
  cases x s <;> simp

theorem pure_eq_ok {a' : α} : (pure a : PalletM E σ α) s = .ok a' s' ↔ a = a' ∧ s = s' := by
  change EStateM.Result.ok a s = .ok a' s' ↔ _
  simp

theorem throw_ne_ok {d : DispatchError E} : (throw d : PalletM E σ α) s ≠ .ok a s' := by
  intro h
  cases h

theorem get_eq_ok {s₁ : σ} : (get : PalletM E σ σ) s = .ok s₁ s' ↔ s = s₁ ∧ s = s' := by
  change EStateM.Result.ok s s = .ok s₁ s' ↔ _
  simp

theorem modify_eq_ok {g : σ → σ} : (modify g : PalletM E σ PUnit) s = .ok u s' ↔ g s = s' := by
  change EStateM.Result.ok () (g s) = .ok u s' ↔ _
  simp

theorem ensure_eq_ok {p : Prop} [Decidable p] :
    (ensure p e : PalletM E σ Unit) s = .ok u s' ↔ p ∧ s = s' := by
  by_cases h : p <;> simp [ensure, h, pure_eq_ok, throw_ne_ok]

theorem okOr_eq_ok {o : Option α} {d : DispatchError E} :
    (okOr o d : PalletM E σ α) s = .ok a s' ↔ o = some a ∧ s = s' := by
  cases o <;> simp [okOr, pure_eq_ok, throw_ne_ok]

theorem ensureSigned_eq_ok {origin : RawOrigin AccountId} {who : AccountId} :
    (ensureSigned origin : PalletM E σ AccountId) s = .ok who s' ↔
      origin = .signed who ∧ s = s' := by
  cases origin <;> simp [ensureSigned, pure_eq_ok, throw_ne_ok]

theorem succeeds_iff : succeeds x s ↔ ∃ a s', x s = .ok a s' := by
  rw [succeeds]
  cases x s <;> simp

/-! ### Where a failed computation stopped -/

variable {d d' : DispatchError E}

theorem bind_eq_error :
    (x >>= f) s = .error d s' ↔
      x s = .error d s' ∨ ∃ a s₁, x s = .ok a s₁ ∧ f a s₁ = .error d s' := by
  simp only [bind, EStateM.bind]
  cases x s <;> simp

theorem pure_ne_error : (pure a : PalletM E σ α) s ≠ .error d s' := by
  intro h
  cases h

theorem throw_eq_error : (throw d' : PalletM E σ α) s = .error d s' ↔ d' = d ∧ s = s' := by
  change EStateM.Result.error d' s = .error d s' ↔ _
  simp

theorem get_ne_error : (get : PalletM E σ σ) s ≠ .error d s' := by
  intro h
  cases h

theorem modify_ne_error {g : σ → σ} : (modify g : PalletM E σ PUnit) s ≠ .error d s' := by
  intro h
  cases h

theorem ensure_eq_error {p : Prop} [Decidable p] :
    (ensure p e : PalletM E σ Unit) s = .error d s' ↔ ¬p ∧ .module e = d ∧ s = s' := by
  by_cases h : p <;> simp [ensure, h, pure_ne_error, throw_eq_error]

theorem ensureSigned_eq_error {origin : RawOrigin AccountId} :
    (ensureSigned origin : PalletM E σ AccountId) s = .error d s' ↔
      (∀ who, origin ≠ .signed who) ∧ .badOrigin = d ∧ s = s' := by
  cases origin <;> simp [ensureSigned, pure_ne_error, throw_eq_error]

theorem okOr_eq_error {o : Option α} :
    (okOr o d' : PalletM E σ α) s = .error d s' ↔ o = none ∧ d' = d ∧ s = s' := by
  cases o <;> simp [okOr, pure_ne_error, throw_eq_error]

/-! ### Computations that leave no writes behind when they fail -/

/-- A computation that fails only before it has written anything. -/
def Atomic (x : PalletM E σ α) : Prop := ∀ s d s', x s = .error d s' → s' = s

/-- A computation that writes nothing when it succeeds. -/
def ReadOnly (x : PalletM E σ α) : Prop := ∀ s a s', x s = .ok a s' → s' = s

/-- A computation that never fails. -/
def Infallible (x : PalletM E σ α) : Prop := ∀ s d s', x s ≠ .error d s'

theorem Infallible.atomic (hx : Infallible x) : Atomic x := fun s d s' h => absurd h (hx s d s')

theorem Infallible.bind (hx : Infallible x) (hf : ∀ a, Infallible (f a)) :
    Infallible (x >>= f) := by
  intro s d s' h
  rcases bind_eq_error.1 h with h | ⟨a, s₁, -, h⟩
  · exact hx _ _ _ h
  · exact hf a _ _ _ h

/-- After checks only, a failure has still written nothing. -/
theorem Atomic.bind (hx : Atomic x) (hr : ReadOnly x) (hf : ∀ a, Atomic (f a)) :
    Atomic (x >>= f) := by
  intro s d s' h
  rcases bind_eq_error.1 h with h | ⟨a, s₁, hok, h⟩
  · exact hx _ _ _ h
  · exact (hf a _ _ _ h).trans (hr _ _ _ hok)

/-- A computation may write once nothing can fail any more. -/
theorem Atomic.bind_infallible (hx : Atomic x) (hf : ∀ a, Infallible (f a)) :
    Atomic (x >>= f) := by
  intro s d s' h
  rcases bind_eq_error.1 h with h | ⟨a, s₁, -, h⟩
  · exact hx _ _ _ h
  · exact absurd h (hf a _ _ _)

theorem infallible_get : Infallible (get : PalletM E σ σ) := fun _ _ _ => get_ne_error

theorem readOnly_get : ReadOnly (get : PalletM E σ σ) := fun _ _ _ h => (get_eq_ok.1 h).2.symm

theorem infallible_modify {g : σ → σ} : Infallible (modify g : PalletM E σ PUnit) :=
  fun _ _ _ => modify_ne_error

theorem infallible_pure : Infallible (pure a : PalletM E σ α) := fun _ _ _ => pure_ne_error

theorem atomic_ensure {p : Prop} [Decidable p] : Atomic (ensure p e : PalletM E σ Unit) :=
  fun _ _ _ h => (ensure_eq_error.1 h).2.2.symm

theorem readOnly_ensure {p : Prop} [Decidable p] : ReadOnly (ensure p e : PalletM E σ Unit) :=
  fun _ _ _ h => (ensure_eq_ok.1 h).2.symm

theorem atomic_okOr {o : Option α} : Atomic (okOr o d : PalletM E σ α) :=
  fun _ _ _ h => (okOr_eq_error.1 h).2.2.symm

theorem readOnly_okOr {o : Option α} : ReadOnly (okOr o d : PalletM E σ α) :=
  fun _ _ _ h => (okOr_eq_ok.1 h).2.symm

theorem atomic_ensureSigned {origin : RawOrigin AccountId} :
    Atomic (ensureSigned origin : PalletM E σ AccountId) :=
  fun _ _ _ h => by cases origin <;> cases h <;> rfl

theorem readOnly_ensureSigned {origin : RawOrigin AccountId} :
    ReadOnly (ensureSigned origin : PalletM E σ AccountId) :=
  fun _ _ _ h => (ensureSigned_eq_ok.1 h).2.symm

/-! ### The storage a computation leaves -/

theorem finalState_get_bind {f : σ → PalletM E σ β} :
    finalState (get >>= f) s = finalState (f s) s := rfl

/-- A failed check ends a computation, and leaves the storage as it was then. -/
theorem finalState_ensure_bind {p : Prop} [Decidable p] {f : Unit → PalletM E σ β} :
    finalState (ensure p e >>= f) s = if p then finalState (f ()) s else s := by
  by_cases h : p
  · simp only [ensure, h, if_true]; rfl
  · simp only [ensure, h, if_false]; rfl

/-! ### Dispatched calls -/

theorem dispatch_of_ok {call : PalletM E σ Unit} (h : call s = .ok () s') :
    dispatch call s = s' := by
  rw [dispatch, h]

/-- A call that succeeds leads to the storage its dispatch leaves. -/
theorem eq_ok_of_succeeds {call : PalletM E σ Unit} (h : succeeds call s) :
    call s = .ok () (dispatch call s) := by
  obtain ⟨u, s', hok⟩ := succeeds_iff.1 h
  rw [dispatch_of_ok hok, hok]

end Xode
