import Mathlib

/-!
# Runs of a labelled transition system

A system is a step relation `step s e s'`: in state `s` the event `e` can lead
to `s'`.  `Run step s es s'` is a finite run with the events `es` in the order
they happened.  Steps are added at the end, so an induction over a run sees its
last step, and an invariant is what every step keeps.

A run whose steps meet a condition on the state before the step and its event is
a run of the restricted relation `given ok step`.
-/

namespace Trace

variable {σ ε : Type}

/-- A finite run, the last step last. -/
inductive Run (step : σ → ε → σ → Prop) (s : σ) : List ε → σ → Prop where
  | nil : Run step s [] s
  | snoc {es : List ε} {e : ε} {s' s'' : σ} :
      Run step s es s' → step s' e s'' → Run step s (es ++ [e]) s''

/-- The steps of `step` whose event is allowed in the state before. -/
def given (ok : σ → ε → Prop) (step : σ → ε → σ → Prop) : σ → ε → σ → Prop :=
  fun s e s' => ok s e ∧ step s e s'

/-- What holds at the start and is kept by every step holds at the end. -/
theorem Run.invariant {step : σ → ε → σ → Prop} {I : σ → Prop} {s s' : σ} {es : List ε}
    (h : Run step s es s') (h0 : I s) (hstep : ∀ s e s', I s → step s e s' → I s') : I s' := by
  induction h with
  | nil => exact h0
  | snoc _ hs ih => exact hstep _ _ _ ih hs

/-- A run under a stronger condition is a run under a weaker one. -/
theorem Run.mono {step step' : σ → ε → σ → Prop} {s s' : σ} {es : List ε}
    (h : Run step s es s') (himp : ∀ s e s', step s e s' → step' s e s') : Run step' s es s' := by
  induction h with
  | nil => exact .nil
  | snoc _ hs ih => exact .snoc ih (himp _ _ _ hs)

/-- A run whose events are allowed in every state is a run of the restricted relation. -/
theorem Run.restrict {ok : σ → ε → Prop} {step : σ → ε → σ → Prop} {s s' : σ} {es : List ε}
    (h : Run step s es s') (hok : ∀ e ∈ es, ∀ s, ok s e) : Run (given ok step) s es s' := by
  induction h with
  | nil => exact .nil
  | snoc _ hs ih =>
    refine .snoc (ih fun e he => hok e (List.mem_append_left _ he)) ⟨hok _ ?_ _, hs⟩
    simp

theorem Run.append {step : σ → ε → σ → Prop} {s s' s'' : σ} {es es' : List ε}
    (h : Run step s es s') (h' : Run step s' es' s'') : Run step s (es ++ es') s'' := by
  induction h' with
  | nil => rw [List.append_nil]; exact h
  | snoc _ hs ih => rw [← List.append_assoc]; exact .snoc ih hs

theorem Run.single {step : σ → ε → σ → Prop} {s s' : σ} {e : ε} (h : step s e s') :
    Run step s [e] s' :=
  show Run step s ([] ++ [e]) s' from .snoc .nil h

/-! ## Computing a run -/

/-- Take the events in turn, as long as `next` has a next state. -/
def exec (next : σ → ε → Option σ) : List ε → σ → Option σ
  | [], s => some s
  | e :: es, s => (next s e).bind (exec next es)

/-- A computed run is a run. -/
theorem exec_run {next : σ → ε → Option σ} {step : σ → ε → σ → Prop}
    (hnext : ∀ s e s', next s e = some s' → step s e s') {es : List ε} {s s' : σ}
    (h : exec next es s = some s') : Run step s es s' := by
  induction es generalizing s with
  | nil =>
    obtain rfl : s = s' := by simpa [exec] using h
    exact .nil
  | cons e es ih =>
    obtain ⟨s1, h1, h2⟩ := Option.bind_eq_some_iff.mp h
    exact (Run.single (hnext _ _ _ h1)).append (ih h2)

end Trace
