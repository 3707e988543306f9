import Mathlib.Data.List.Basic

/-! # Labelled transition systems: reachability and invariants

A system is a set of initial states and a labelled step relation. `Reach` is the set of states some
finite run leads to, and `Reach.induct` the invariant rule: a property of the initial states that
every step from a reachable state keeps holds of every reachable state. `Steps` is a run between two
given states, labels included. -/

namespace Klibc.Lib.Transition

variable {σ ε : Type*}

/-- The states that runs from an initial state lead to. -/
inductive Reach (init : σ → Prop) (step : σ → ε → σ → Prop) : σ → Prop
  | init {s : σ} : init s → Reach init step s
  | step {s s' : σ} {e : ε} : Reach init step s → step s e s' → Reach init step s'

inductive Steps (step : σ → ε → σ → Prop) : σ → List ε → σ → Prop
  | nil (s : σ) : Steps step s [] s
  | cons {s s' s'' : σ} {e : ε} {es : List ε} :
      step s e s' → Steps step s' es s'' → Steps step s (e :: es) s''

variable {init : σ → Prop} {step : σ → ε → σ → Prop}

/-- **The invariant rule.** -/
theorem Reach.induct {I : σ → Prop} (h0 : ∀ s, init s → I s)
    (hs : ∀ s e s', I s → step s e s' → I s') {s : σ} (h : Reach init step s) : I s := by
  induction h with
  | init hi => exact h0 _ hi
  | step _ he ih => exact hs _ _ _ ih he

/-- **What every step keeps, every run keeps.** -/
theorem Steps.induct {I : σ → Prop} (hs : ∀ s e s', I s → step s e s' → I s') {s s' : σ}
    {es : List ε} (h : Steps step s es s') (h0 : I s) : I s' := by
  induction h with
  | nil s => exact h0
  | cons he _ ih => exact ih (hs _ _ _ h0 he)

lemma Reach.steps {s s' : σ} {es : List ε} (h : Reach init step s) (hs : Steps step s es s') :
    Reach init step s' := by
  induction hs with
  | nil s => exact h
  | cons he _ ih => exact ih (Reach.step h he)

end Klibc.Lib.Transition
