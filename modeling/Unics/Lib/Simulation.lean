import Unics.Lib.Run

/-!
# Machines that answer

A specification of a component is a relation `does t a b u`: in state `t` a call `a` may be
answered with `b` and leave state `u`. A run of it is `Serves does t log u`, where the log lists
the calls with their answers, so two components with the same logs cannot be told apart by their
callers. `transcript` is the log of a machine given by functions.

`EveryStep.serves` is the rule for an abstraction function: where every step of the machine, under
its invariant and within its domain, is a step of the specification between the abstractions, every
run of the machine in the domain is a run of the specification with the same answers.
`EveryStep.simulates` is the rule for a relation between two machines.
-/

namespace Unics.Lib

variable {σ τ α β : Type*}

/-- The runs of a specification, with the answers it gives. -/
inductive Serves (does : τ → α → β → τ → Prop) : τ → List (α × β) → τ → Prop
  | nil (t : τ) : Serves does t [] t
  | cons {t u v : τ} {a : α} {b : β} {log : List (α × β)} : does t a b u → Serves does u log v →
      Serves does t ((a, b) :: log) v

/-- The calls of a run with their answers. -/
def transcript (step : σ → α → σ) (answer : σ → α → β) : σ → List α → List (α × β)
  | _, [] => []
  | s, a :: as => (a, answer s a) :: transcript step answer (step s a) as

/-- The rule of simulation, for an abstraction function. -/
theorem EveryStep.serves {step : σ → α → σ} {answer : σ → α → β} {abs : σ → τ}
    {does : τ → α → β → τ → Prop} {I : σ → Prop} {C : σ → α → Prop}
    (hkeep : ∀ s a, I s → C s a → I (step s a))
    (hstep : ∀ s a, I s → C s a → does (abs s) a (answer s a) (abs (step s a))) {s : σ}
    {calls : List α} (h : I s) (hc : EveryStep step C s calls) :
    Serves does (abs s) (transcript step answer s calls) (abs (runFrom step s calls)) := by
  induction calls generalizing s with
  | nil => exact .nil (abs s)
  | cons a as ih => exact .cons (hstep s a h hc.1) (ih (hkeep s a h hc.1) hc.2)

/-- The rule of simulation, for a relation: two machines that get the same calls, each in its own
form, stay related. -/
theorem EveryStep.simulates {step : σ → α → σ} {step' : τ → β → τ} {form : α → β}
    {R : σ → τ → Prop} {C : σ → α → Prop}
    (hstep : ∀ s t a, R s t → C s a → R (step s a) (step' t (form a))) {s : σ} {t : τ}
    {calls : List α} (h : R s t) (hc : EveryStep step C s calls) :
    R (runFrom step s calls) (runFrom step' t (calls.map form)) := by
  induction calls generalizing s t with
  | nil => exact h
  | cons a as ih => exact ih (hstep s t a h hc.1) hc.2

end Unics.Lib
