import Mathlib.Data.Option.Basic

/-!
# Runs of a transition function

A component that several callers drive at once is a function `step` from a
state and an event to the next state, which answers `none` when the event
cannot happen there.  A run is a list of events, so every interleaving of
the callers is one list.  `EachStep P` says that every step of a run meets
`P` in the state before it, and `invariant` is the rule by which a fact
that each such step keeps holds at the end of the run.
-/

namespace RustFits.Trace

variable {σ ε : Type} {step : σ → ε → Option σ} {P : σ → ε → Prop}

/-- The state that the events lead to, when each of them can happen. -/
def run (step : σ → ε → Option σ) : σ → List ε → Option σ
  | s, [] => some s
  | s, e :: es =>
    match step s e with
    | none => none
    | some s' => run step s' es

/-- Every step that the events take from `s` meets `P` in the state before
it. -/
def EachStep (step : σ → ε → Option σ) (P : σ → ε → Prop) : σ → List ε → Prop
  | _, [] => True
  | s, e :: es =>
    P s e ∧
      match step s e with
      | none => True
      | some s' => EachStep step P s' es

/-- What each step keeps, in a state that meets `P`, the whole run keeps. -/
theorem invariant {I : σ → Prop}
    (hstep : ∀ s e s', I s → P s e → step s e = some s' → I s') {s s' : σ} {es : List ε}
    (hI : I s) (hP : EachStep step P s es) (hrun : run step s es = some s') : I s' := by
  induction es generalizing s with
  | nil =>
    cases hrun
    exact hI
  | cons e es ih =>
    rw [run] at hrun
    rw [EachStep] at hP
    cases he : step s e with
    | none => simp [he] at hrun
    | some t =>
      simp only [he] at hrun hP
      exact ih (hstep s e t hI hP.1 he) hP.2 hrun

end RustFits.Trace
