import Mathlib.Logic.Relation

/-! Transition systems given by an initial-state predicate and a step relation: the states
reachable from an initial one, the rule that turns a property kept by every step into a
property of every reachable state, and simulations between two systems. -/

namespace Transition

variable {σ τ : Type}

/-- The states reachable from an initial state by steps. -/
inductive Reachable (init : σ → Prop) (step : σ → σ → Prop) : σ → Prop
  | init {s : σ} : init s → Reachable init step s
  | step {s s' : σ} : Reachable init step s → step s s' → Reachable init step s'

variable {init : σ → Prop} {step : σ → σ → Prop}

theorem Reachable.invariant {P : σ → Prop} (h₀ : ∀ s, init s → P s)
    (hstep : ∀ s s', Reachable init step s → P s → step s s' → P s') {s : σ}
    (h : Reachable init step s) : P s := by
  induction h with
  | init hs => exact h₀ _ hs
  | step hr hs ih => exact hstep _ _ hr ih hs

theorem Reachable.of_reflTransGen {s s' : σ} (h : Reachable init step s)
    (hs : Relation.ReflTransGen step s s') : Reachable init step s' := by
  induction hs with
  | refl => exact h
  | tail _ hstep ih => exact ih.step hstep

theorem Reachable.rebase {init' : σ → Prop} (h : ∀ s, init s → Reachable init' step s) {s : σ}
    (hs : Reachable init step s) : Reachable init' step s := by
  induction hs with
  | init hs => exact h _ hs
  | step _ hst ih => exact ih.step hst

variable {init' : τ → Prop} {step' : τ → τ → Prop}

theorem Reachable.map (f : σ → τ) (h₀ : ∀ s, init s → init' (f s))
    (hstep : ∀ s s', Reachable init step s → step s s' → step' (f s) (f s') ∨ f s' = f s)
    {s : σ} (h : Reachable init step s) : Reachable init' step' (f s) := by
  induction h with
  | init hs => exact .init (h₀ _ hs)
  | step hr hs ih =>
      rcases hstep _ _ hr hs with hs' | heq
      · exact ih.step hs'
      · exact heq ▸ ih

end Transition
