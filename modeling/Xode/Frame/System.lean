import Mathlib.Data.List.Infix
import Mathlib.Data.Set.Defs

/-!
# Runs of a system

A system takes steps on events: it starts in an initial state, and its run on a
list of events goes through the states after each of them. What holds
initially and is kept by every step holds in every reachable state
(`Reachable.induction`).

For a property that some steps break, `always_iff_along` turns what decides it
step by step into what decides it over whole runs: if a step keeps the property
exactly when its event is admissible in the state before, the property holds
throughout a run exactly when all the events of the run are admissible.
-/

namespace Xode

/-- A system with states `σ`, stepping on events `ε`. -/
structure System (σ ε : Type*) where
  /-- The initial states. -/
  init : Set σ
  /-- The state after an event. -/
  step : σ → ε → σ

namespace System

variable {σ ε : Type*} (M : System σ ε)

/-- The state at the end of the run from `s` on the events `es`. -/
def run (s : σ) (es : List ε) : σ := es.foldl M.step s

/-- The states of the runs from the initial states. -/
inductive Reachable : σ → Prop
  | init {s : σ} : s ∈ M.init → Reachable s
  | step {s : σ} (e : ε) : Reachable s → Reachable (M.step s e)

/-- `Q` holds in every state of the run from `s` on `es`. -/
def Always (Q : σ → Prop) : σ → List ε → Prop
  | s, [] => Q s
  | s, e :: es => Q s ∧ Always Q (M.step s e) es

/-- Every event of the run from `s` on `es` satisfies `P` in the state before it. -/
def Along (P : σ → ε → Prop) : σ → List ε → Prop
  | _, [] => True
  | s, e :: es => P s e ∧ Along P (M.step s e) es

/-- Some event of the run from `s` on `es` satisfies `P` in the state before it. -/
def Sometime (P : σ → ε → Prop) : σ → List ε → Prop
  | _, [] => False
  | s, e :: es => P s e ∨ Sometime P (M.step s e) es

instance Sometime.decidable (P : σ → ε → Prop) [∀ s e, Decidable (P s e)] :
    ∀ s es, Decidable (M.Sometime P s es)
  | _, [] => inferInstanceAs (Decidable False)
  | s, e :: es =>
    have := Sometime.decidable P (M.step s e) es
    inferInstanceAs (Decidable (_ ∨ _))

variable {M} {s : σ} {e : ε} {es es' : List ε} {Q Q' : σ → Prop} {P : σ → ε → Prop}

@[simp] theorem run_nil : M.run s [] = s := rfl

@[simp] theorem run_cons : M.run s (e :: es) = M.run (M.step s e) es := rfl

@[simp] theorem run_append : M.run s (es ++ es') = M.run (M.run s es) es' := List.foldl_append

@[simp] theorem sometime_cons :
    M.Sometime P s (e :: es) ↔ P s e ∨ M.Sometime P (M.step s e) es := Iff.rfl

theorem along_append :
    M.Along P s (es ++ es') ↔ M.Along P s es ∧ M.Along P (M.run s es) es' := by
  induction es generalizing s with
  | nil => exact (and_iff_right trivial).symm
  | cons e es ih => exact (and_congr_right fun _ => ih).trans and_assoc.symm

theorem Along.of_forall (h : ∀ s e, P s e) : M.Along P s es := by
  induction es generalizing s with
  | nil => trivial
  | cons e es ih => exact ⟨h s e, ih⟩

theorem Reachable.run (h : M.Reachable s) (es : List ε) : M.Reachable (M.run s es) := by
  induction es generalizing s with
  | nil => exact h
  | cons e es ih => exact ih (h.step e)

/-- An invariant: it holds initially, and a step from a reachable state keeps it. -/
theorem Reachable.induction (h : M.Reachable s) (hinit : ∀ s ∈ M.init, Q s)
    (hstep : ∀ s e, M.Reachable s → Q s → Q (M.step s e)) : Q s := by
  induction h with
  | init hs => exact hinit _ hs
  | step e hs ih => exact hstep _ e hs ih

/-- What every event of a list keeps, the run on it keeps. -/
theorem run_induction (hs : Q s) (hstep : ∀ s, ∀ e ∈ es, Q s → Q (M.step s e)) :
    Q (M.run s es) := by
  induction es generalizing s with
  | nil => exact hs
  | cons e es ih =>
    exact ih (hstep s e List.mem_cons_self hs) fun s e he => hstep s e (List.mem_cons_of_mem _ he)

/-- What the admissible events keep, a run whose events all are keeps. -/
theorem Along.run_induction (hs : M.Reachable s) (h : Q s) (hP : M.Along P s es)
    (hstep : ∀ s e, M.Reachable s → Q s → P s e → Q (M.step s e)) : Q (M.run s es) := by
  induction es generalizing s with
  | nil => exact h
  | cons e es ih => exact ih (hs.step e) (hstep s e hs h hP.1) hP.2

/-- What a run brings about, one of its events does: one of those that satisfy `P`, if only
    they do. -/
theorem sometime_of_run (hs : M.Reachable s) (h₀ : ¬Q s) (h : Q (M.run s es))
    (hstep : ∀ s e, M.Reachable s → ¬Q s → Q (M.step s e) → P s e) : M.Sometime P s es := by
  induction es generalizing s with
  | nil => exact absurd h h₀
  | cons e es ih =>
    by_cases hQ : Q (M.step s e)
    · exact .inl (hstep s e hs h₀ hQ)
    · exact .inr (ih (hs.step e) hQ h)

theorem Always.start (h : M.Always Q s es) : Q s := by
  cases es with
  | nil => exact h
  | cons e es => exact h.1

theorem Always.mono (h : M.Always Q s es) (hs : M.Reachable s)
    (hQ : ∀ s, M.Reachable s → Q s → Q' s) : M.Always Q' s es := by
  induction es generalizing s with
  | nil => exact hQ s hs h
  | cons e es ih => exact ⟨hQ s hs h.1, ih h.2 (hs.step e)⟩

/-- If exactly the admissible events keep a property and satisfy `R`, it holds
    throughout a run, and `R` along it, exactly when all of its events are admissible. -/
theorem always_and_along_iff {R : σ → ε → Prop} (hs : M.Reachable s) (h₀ : Q s)
    (hstep : ∀ s e, M.Reachable s → Q s → (Q (M.step s e) ∧ R s e ↔ P s e)) :
    M.Always Q s es ∧ M.Along R s es ↔ M.Along P s es := by
  induction es generalizing s with
  | nil => exact iff_of_true ⟨h₀, trivial⟩ trivial
  | cons e es ih =>
    have hP := hstep s e hs h₀
    constructor
    · rintro ⟨⟨-, hQ⟩, hR, hes⟩
      exact ⟨hP.1 ⟨hQ.start, hR⟩, (ih (hs.step e) hQ.start).1 ⟨hQ, hes⟩⟩
    · rintro ⟨hp, hes⟩
      obtain ⟨hQ, hR⟩ := hP.2 hp
      obtain ⟨hQ', hR'⟩ := (ih (hs.step e) hQ).2 hes
      exact ⟨⟨h₀, hQ'⟩, hR, hR'⟩

/-- If exactly the admissible events keep a property, it holds throughout a run
    exactly when all of its events are admissible. -/
theorem always_iff_along (hs : M.Reachable s) (h₀ : Q s)
    (hstep : ∀ s e, M.Reachable s → Q s → (Q (M.step s e) ↔ P s e)) :
    M.Always Q s es ↔ M.Along P s es := by
  rw [← always_and_along_iff (R := fun _ _ => True) hs h₀ fun s e hs hQ =>
    (and_iff_left trivial).trans (hstep s e hs hQ)]
  exact (and_iff_left (.of_forall fun _ _ => trivial)).symm

end System

end Xode
