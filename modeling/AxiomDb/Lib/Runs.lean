import Mathlib

/-!
# Runs of a step function

A system is a step function on its states: an event is taken, or it is not
enabled. `Reached` are the states of the runs whose steps all meet a condition.
-/

namespace AxiomDb.Lib

open Option

variable {σ ε : Type} {step : σ → ε → Option σ} {ok : σ → ε → Prop} {init : σ}

/-- A state that a run from `init` reaches, with every step taken where `ok` holds. -/
inductive Reached (step : σ → ε → Option σ) (ok : σ → ε → Prop) (init : σ) : σ → Prop where
  | init : Reached step ok init init
  | step {s s' : σ} {e : ε} : Reached step ok init s → ok s e → step s e = some s' →
    Reached step ok init s'

/-- No condition on the steps. -/
def free (_ : σ) (_ : ε) : Prop := True

instance (s : σ) (e : ε) : Decidable (free s e) := inferInstanceAs (Decidable True)

/-- The run that takes the events of a list, each where `ok` holds. -/
def run (step : σ → ε → Option σ) (ok : σ → ε → Prop) [∀ s e, Decidable (ok s e)] :
    σ → List ε → Option σ
  | s, [] => some s
  | s, e :: es => if ok s e then (step s e).bind fun s' => run step ok s' es else none

namespace Reached

/-- What holds at first and is kept by each step holds in every state reached. -/
theorem invariant {I : σ → Prop} (hinit : I init)
    (hstep : ∀ {s s' e}, I s → ok s e → step s e = some s' → I s') {s : σ}
    (h : Reached step ok init s) : I s := by
  induction h with
  | init => exact hinit
  | step _ hok hs ih => exact hstep ih hok hs

variable [∀ s e, Decidable (ok s e)] {l : List ε}

theorem of_run {s s' : σ} (hs : Reached step ok init s)
    (h : run step ok s l = some s') : Reached step ok init s' := by
  induction l generalizing s with
  | nil => exact some.inj h ▸ hs
  | cons e l ih =>
    rw [run] at h
    split at h
    next hok =>
      obtain ⟨t, ht, hrun⟩ := bind_eq_some_iff.mp h
      exact ih (.step hs hok ht) hrun
    next => cases h

/-- A run of given events ends in a state of which `p` holds. -/
theorem exists_of_run {p : σ → Bool} (h : (run step ok init l).map p = some true) :
    ∃ s, Reached step ok init s ∧ p s := by
  obtain ⟨s, hrun, hp⟩ := map_eq_some_iff.mp h
  exact ⟨s, .of_run .init hrun, hp⟩

end Reached

end AxiomDb.Lib
