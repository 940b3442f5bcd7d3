import Xode.Frame.Dispatch
import Xode.Frame.Logs

/-!
# Lockstep

Code may run on two storages that differ in something that should not matter. It does not
if, on storages that are alike, it goes the same way: it succeeds with results that are
alike, or fails with the same error, and leaves storages that are alike again (`Lockstep`).
Storages may be alike in any sense, a relation `R` of theirs.

Whether two computations are in lockstep is read off their texts by rules, one for each way
to build a computation. A check passes on both sides or on neither, and what it says is
there for the rest (`lockstep_ensure`).

If each step of a system is in lockstep, so are its runs (`lockstep_run`): what is alike at
the start is alike at the end, and nothing that was put out on the way tells a difference.
-/

namespace Xode

variable {E σ τ α β α' β' : Type} {R : σ → τ → Prop} {A : α → β → Prop} {B : α' → β' → Prop}

/-- Two outcomes that are alike. -/
inductive SameOutcome (R : σ → τ → Prop) (A : α → β → Prop) :
    EStateM.Result (DispatchError E) σ α → EStateM.Result (DispatchError E) τ β → Prop
  | ok {a : α} {b : β} {s : σ} {t : τ} : A a b → R s t → SameOutcome R A (.ok a s) (.ok b t)
  | error {d : DispatchError E} {s : σ} {t : τ} : R s t →
      SameOutcome R A (.error d s) (.error d t)

theorem SameOutcome.mono {A' : α → β → Prop} {r : EStateM.Result (DispatchError E) σ α}
    {q : EStateM.Result (DispatchError E) τ β} (hr : SameOutcome R A r q)
    (h : ∀ a b, A a b → A' a b) : SameOutcome R A' r q := by
  cases hr with
  | ok ha hR => exact .ok (h _ _ ha) hR
  | error hR => exact .error hR

/-- On storages that are alike, two computations have outcomes that are. -/
def Lockstep (R : σ → τ → Prop) (A : α → β → Prop) (x : PalletM E σ α) (y : PalletM E τ β) :
    Prop :=
  ∀ s t, R s t → SameOutcome R A (x s) (y t)

/-! ### Options -/

section

variable {γ : Type} {o : Option α} {o' : Option β}

theorem map_eq_of_rel {f : α → γ} {g : β → γ} (h : Option.Rel A o o')
    (hfg : ∀ a b, A a b → f a = g b) : o.map f = o'.map g := by
  cases h with
  | some h => exact congrArg some (hfg _ _ h)
  | none => rfl

theorem getD_of_rel {a : α} {b : β} (h : Option.Rel A o o') (hab : A a b) :
    A (o.getD a) (o'.getD b) := by
  cases h with
  | some h => exact h
  | none => exact hab

theorem rel_imp {A' : α → β → Prop} (h : Option.Rel A o o') (hA : ∀ a b, A a b → A' a b) :
    Option.Rel A' o o' := by
  cases h with
  | some h => exact .some (hA _ _ h)
  | none => exact .none

end

/-! ### Rules -/

variable {x : PalletM E σ α} {y : PalletM E τ β} {f : α → PalletM E σ α'} {g : β → PalletM E τ β'}

theorem Lockstep.bind (hx : Lockstep R A x y) (hf : ∀ a b, A a b → Lockstep R B (f a) (g b)) :
    Lockstep R B (x >>= f) (y >>= g) := by
  intro s t h
  have hxy := hx s t h
  simp only [Bind.bind, EStateM.bind]
  revert hxy
  generalize x s = r
  generalize y t = q
  rintro (⟨ha, h'⟩ | h')
  · exact hf _ _ ha _ _ h'
  · exact .error h'

theorem Lockstep.mono {A' : α → β → Prop} (hx : Lockstep R A x y) (h : ∀ a b, A a b → A' a b) :
    Lockstep R A' x y := fun s t hR => (hx s t hR).mono h

theorem lockstep_pure {a : α} {b : β} (h : A a b) :
    Lockstep R A (pure a : PalletM E σ α) (pure b : PalletM E τ β) := fun _ _ hR => .ok h hR

theorem lockstep_throw {d : DispatchError E} :
    Lockstep R A (throw d : PalletM E σ α) (throw d : PalletM E τ β) := fun _ _ hR => .error hR

/-- What is read is alike. -/
theorem lockstep_get : Lockstep R R (get : PalletM E σ σ) (get : PalletM E τ τ) :=
  fun _ _ hR => .ok hR hR

theorem lockstep_modify {f : σ → σ} {g : τ → τ} (h : ∀ s t, R s t → R (f s) (g t)) :
    Lockstep R (fun _ _ => True) (modify f : PalletM E σ PUnit) (modify g : PalletM E τ PUnit) :=
  fun s t hR => .ok trivial (h s t hR)

theorem lockstep_ite {p q : Prop} [Decidable p] [Decidable q] {x' : PalletM E σ α}
    {y' : PalletM E τ β} (h : p ↔ q) (hthen : p → Lockstep R A x y)
    (helse : ¬p → Lockstep R A x' y') :
    Lockstep R A (if p then x else x') (if q then y else y') := by
  by_cases hp : p
  · rw [if_pos hp, if_pos (h.1 hp)]
    exact hthen hp
  · rw [if_neg hp, if_neg (mt h.2 hp)]
    exact helse hp

/-- A check that passes tells what it has checked. -/
theorem lockstep_ensure {p q : Prop} [Decidable p] [Decidable q] {e : E} (h : p ↔ q) :
    Lockstep R (fun _ _ => p) (ensure p e : PalletM E σ Unit) (ensure q e : PalletM E τ Unit) :=
  lockstep_ite h (fun hp => lockstep_pure hp) fun _ => lockstep_throw

theorem lockstep_okOr {o : Option α} {o' : Option β} {d : DispatchError E}
    (h : Option.Rel A o o') :
    Lockstep R A (okOr o d : PalletM E σ α) (okOr o' d : PalletM E τ β) := by
  cases h with
  | some h => exact lockstep_pure h
  | none => exact lockstep_throw

theorem lockstep_okOr_eq {o o' : Option α} {d : DispatchError E} (h : o = o') :
    Lockstep R Eq (okOr o d : PalletM E σ α) (okOr o' d : PalletM E τ α) := by
  subst h
  cases o with
  | some a => exact lockstep_pure rfl
  | none => exact lockstep_throw

theorem lockstep_ensureSigned {AccountId : Type} (origin : RawOrigin AccountId) :
    Lockstep R Eq (ensureSigned origin : PalletM E σ AccountId)
      (ensureSigned origin : PalletM E τ AccountId) := by
  cases origin with
  | signed who => exact lockstep_pure rfl
  | root | none => exact lockstep_throw

/-! ### Dispatched calls -/

/-- What the caller is told. -/
def report (x : PalletM E σ Unit) (s : σ) : Except (DispatchError E) Unit :=
  match x s with
  | .ok _ _ => .ok ()
  | .error d _ => .error d

/-- Calls in lockstep, dispatched on storages that are alike, tell the same and leave
    storages that are alike. -/
theorem Lockstep.dispatch {A : Unit → Unit → Prop} {x : PalletM E σ Unit} {y : PalletM E τ Unit}
    (hx : Lockstep R A x y) {s : σ} {t : τ} (h : R s t) :
    R (Xode.dispatch x s) (Xode.dispatch y t) ∧ report x s = report y t := by
  have hxy := hx s t h
  rw [Xode.dispatch, Xode.dispatch, report, report]
  revert hxy
  generalize x s = r
  generalize y t = q
  rintro (⟨-, h'⟩ | -)
  exacts [⟨h', rfl⟩, ⟨h, rfl⟩]

/-! ### Runs -/

/-- Two runs on the same events, from states that are alike, stay alike and put out the
    same. -/
theorem System.lockstep_run {σ ε ω : Type*} {M : System σ ε} {R : σ → σ → Prop}
    {P : σ → ε → Prop} {out : σ → ε → List ω} {s t : σ} {es : List ε} (hs : M.Reachable s)
    (ht : M.Reachable t) (h : R s t) (hes : M.Along P s es)
    (hstep : ∀ s t e, M.Reachable s → M.Reachable t → P s e → R s t →
      R (M.step s e) (M.step t e) ∧ out s e = out t e) :
    R (M.run s es) (M.run t es) ∧ M.log out s es = M.log out t es := by
  induction es generalizing s t with
  | nil => exact ⟨h, rfl⟩
  | cons e es ih =>
    obtain ⟨h', hout⟩ := hstep s t e hs ht hes.1 h
    obtain ⟨hend, hlog⟩ := ih (hs.step e) (ht.step e) h' hes.2
    exact ⟨hend, by rw [log_cons, log_cons, hout, hlog]⟩

end Xode
