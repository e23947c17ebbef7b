import Mathlib.Logic.Basic
import Mathlib.Data.List.Basic

/-!
# Runs of a machine

A machine is a step function `step : σ → α → σ`: a state, a call, the state after the call. A run
is a list of calls, and every statement about runs in this development is one of three kinds:

- `EveryStep step P s calls`: at each step of the run from `s`, `P` holds of the state the call
  meets and of the call;
- `EveryState step Q s calls`: `Q` holds of each state of the run, the first and the last included;
- `Reachable step Allowed init s`: some run of allowed calls from an initial state ends in `s`.

Two rules carry all the inductions over runs. `EveryStep.invariant` takes what one step preserves
to what the run preserves. `everyStep_iff` is for a property that holds at a step exactly when a
condition does: the property holds along a whole run exactly when the condition does.
-/

namespace Unics.Lib

variable {σ α : Type*}

/-- The state in which a run of calls ends. -/
def runFrom (step : σ → α → σ) (s : σ) (calls : List α) : σ := calls.foldl step s

@[simp] theorem runFrom_nil (step : σ → α → σ) (s : σ) : runFrom step s [] = s := rfl

@[simp] theorem runFrom_cons (step : σ → α → σ) (s : σ) (a : α) (as : List α) :
    runFrom step s (a :: as) = runFrom step (step s a) as := rfl

theorem runFrom_append (step : σ → α → σ) (s : σ) (as bs : List α) :
    runFrom step s (as ++ bs) = runFrom step (runFrom step s as) bs :=
  List.foldl_append

/-- At every step of the run, `P` holds of the state the call meets and of the call. -/
def EveryStep (step : σ → α → σ) (P : σ → α → Prop) : σ → List α → Prop
  | _, [] => True
  | s, a :: as => P s a ∧ EveryStep step P (step s a) as

@[simp] theorem everyStep_nil (step : σ → α → σ) (P : σ → α → Prop) (s : σ) :
    EveryStep step P s [] := trivial

@[simp] theorem everyStep_cons (step : σ → α → σ) (P : σ → α → Prop) (s : σ) (a : α)
    (as : List α) :
    EveryStep step P s (a :: as) ↔ P s a ∧ EveryStep step P (step s a) as := Iff.rfl

/-- Two properties along a run are each one along it. -/
theorem everyStep_and {step : σ → α → σ} {P Q : σ → α → Prop} {s : σ} {calls : List α} :
    EveryStep step (fun s a => P s a ∧ Q s a) s calls ↔
      EveryStep step P s calls ∧ EveryStep step Q s calls := by
  induction calls generalizing s with
  | nil => exact (and_self_iff).symm
  | cons a as ih => rw [everyStep_cons, everyStep_cons, everyStep_cons, ih, and_and_and_comm]

/-- The recursive definition, read by prefixes: the call after any prefix of the run meets `P` in
the state that the prefix ends in. -/
theorem everyStep_iff_prefix {step : σ → α → σ} {P : σ → α → Prop} {s : σ} {calls : List α} :
    EveryStep step P s calls ↔
      ∀ before a after, calls = before ++ a :: after → P (runFrom step s before) a := by
  induction calls generalizing s with
  | nil => simp only [everyStep_nil, List.nil_eq, List.append_eq_nil_iff, reduceCtorEq, and_false,
      false_implies, implies_true]
  | cons b bs ih =>
    rw [everyStep_cons, ih]
    constructor
    · rintro ⟨hb, hbs⟩ before a after heq
      cases before with
      | nil =>
        obtain ⟨rfl, rfl⟩ := List.cons.inj heq
        exact hb
      | cons c before =>
        obtain ⟨rfl, rfl⟩ := List.cons.inj heq
        exact hbs before a after rfl
    · intro h
      refine ⟨h [] b bs rfl, fun before a after heq => ?_⟩
      exact h (b :: before) a after (by rw [heq, List.cons_append])

/-- `Q` holds of every state of the run. -/
def EveryState (step : σ → α → σ) (Q : σ → Prop) : σ → List α → Prop
  | s, [] => Q s
  | s, a :: as => Q s ∧ EveryState step Q (step s a) as

/-- The recursive definition, read by prefixes. -/
theorem everyState_iff_prefix {step : σ → α → σ} {Q : σ → Prop} {s : σ} {calls : List α} :
    EveryState step Q s calls ↔
      ∀ before after, calls = before ++ after → Q (runFrom step s before) := by
  induction calls generalizing s with
  | nil =>
    constructor
    · intro h before after heq
      obtain ⟨rfl, rfl⟩ := List.append_eq_nil_iff.mp heq.symm
      exact h
    · intro h
      exact h [] [] rfl
  | cons a as ih =>
    constructor
    · intro h before after heq
      cases before with
      | nil => exact h.1
      | cons b before =>
        obtain ⟨rfl, rfl⟩ := List.cons.inj heq
        exact ih.mp h.2 before after rfl
    · intro h
      refine ⟨h [] (a :: as) rfl, ih.mpr fun before after heq => ?_⟩
      exact h (a :: before) after (by rw [heq, List.cons_append])

theorem EveryState.first {step : σ → α → σ} {Q : σ → Prop} {s : σ} {calls : List α}
    (h : EveryState step Q s calls) : Q s := by
  cases calls with
  | nil => exact h
  | cons => exact h.1

theorem EveryState.imp {step : σ → α → σ} {Q Q' : σ → Prop} (himp : ∀ s, Q s → Q' s) {s : σ}
    {calls : List α} (h : EveryState step Q s calls) : EveryState step Q' s calls := by
  induction calls generalizing s with
  | nil => exact himp s h
  | cons a as ih => exact ⟨himp s h.1, ih h.2⟩

theorem EveryState.last {step : σ → α → σ} {Q : σ → Prop} {s : σ} {calls : List α}
    (h : EveryState step Q s calls) : Q (runFrom step s calls) :=
  everyState_iff_prefix.mp h calls [] (List.append_nil calls).symm

section Rules

variable {step : σ → α → σ} {I : σ → Prop} {C D P : σ → α → Prop}

/-- What each step preserves under the condition `C`, a run whose steps all meet `C` preserves. -/
theorem EveryStep.invariant (hstep : ∀ s a, I s → C s a → I (step s a)) {s : σ} {calls : List α}
    (h : I s) (hc : EveryStep step C s calls) : I (runFrom step s calls) := by
  induction calls generalizing s with
  | nil => exact h
  | cons a as ih => exact ih (hstep s a h hc.1) hc.2

/-- Under an invariant, a condition that gives the property at each step gives it along the run. -/
theorem EveryStep.mono (hstep : ∀ s a, I s → C s a → I (step s a))
    (himp : ∀ s a, I s → C s a → P s a) {s : σ} {calls : List α}
    (h : I s) (hc : EveryStep step C s calls) : EveryStep step P s calls := by
  induction calls generalizing s with
  | nil => exact trivial
  | cons a as ih => exact ⟨himp s a h hc.1, ih (hstep s a h hc.1) hc.2⟩

/-- The exact condition of a run within a domain. Where, under the invariant, a step of the domain
has the property exactly when it meets the condition, and the condition keeps the invariant, a run
within the domain has the property at every step exactly when it meets the condition at every step.
The invariant is needed only up to the first step that goes wrong, so the condition may be what
keeps it. -/
theorem everyStep_iff_within (hstep : ∀ s a, I s → D s a → C s a → I (step s a))
    (hexact : ∀ s a, I s → D s a → (P s a ↔ C s a)) {s : σ} {calls : List α} (h : I s)
    (hdom : EveryStep step D s calls) :
    EveryStep step P s calls ↔ EveryStep step C s calls := by
  induction calls generalizing s with
  | nil => exact Iff.rfl
  | cons a as ih =>
    constructor
    · rintro ⟨ha, has⟩
      have hc : C s a := (hexact s a h hdom.1).mp ha
      exact ⟨hc, (ih (hstep s a h hdom.1 hc) hdom.2).mp has⟩
    · rintro ⟨hc, has⟩
      exact ⟨(hexact s a h hdom.1).mpr hc, (ih (hstep s a h hdom.1 hc) hdom.2).mpr has⟩

theorem everyStep_true (step : σ → α → σ) (s : σ) (calls : List α) :
    EveryStep step (fun _ _ => True) s calls := by
  induction calls generalizing s with
  | nil => exact trivial
  | cons a as ih => exact ⟨trivial, ih (step s a)⟩

/-- Calls that are all allowed are allowed at every step. -/
theorem everyStep_of_forall {Allowed : α → Prop} {s : σ} {calls : List α}
    (h : ∀ a ∈ calls, Allowed a) : EveryStep step (fun _ a => Allowed a) s calls := by
  induction calls generalizing s with
  | nil => exact trivial
  | cons a as ih =>
    exact ⟨h a List.mem_cons_self, ih fun b hb => h b (List.mem_cons_of_mem a hb)⟩

/-- The exact condition of a run, over all calls. -/
theorem everyStep_iff (hstep : ∀ s a, I s → C s a → I (step s a))
    (hexact : ∀ s a, I s → (P s a ↔ C s a)) {s : σ} {calls : List α} (h : I s) :
    EveryStep step P s calls ↔ EveryStep step C s calls :=
  everyStep_iff_within (fun s a hi _ => hstep s a hi) (fun s a hi _ => hexact s a hi) h
    (everyStep_true step s calls)

/-- What an invariant says of a state holds in every state of a run that keeps the invariant. -/
theorem EveryStep.everyState {Q : σ → Prop} (hstep : ∀ s a, I s → C s a → I (step s a))
    (hgood : ∀ s, I s → Q s) {s : σ} {calls : List α} (h : I s)
    (hc : EveryStep step C s calls) : EveryState step Q s calls := by
  induction calls generalizing s with
  | nil => exact hgood s h
  | cons a as ih => exact ⟨hgood s h, ih (hstep s a h hc.1) hc.2⟩

/-- The exact condition for a property of states, within a domain. Where the condition keeps an
invariant that gives the property, and a step that misses the condition ends in a state without the
property, the property holds in every state of a run exactly when every step meets the condition.
-/
theorem everyState_iff_within {Q : σ → Prop} (hstep : ∀ s a, I s → D s a → C s a → I (step s a))
    (hgood : ∀ s, I s → Q s) (hbad : ∀ s a, I s → D s a → ¬ C s a → ¬ Q (step s a)) {s : σ}
    {calls : List α} (h : I s) (hdom : EveryStep step D s calls) :
    EveryState step Q s calls ↔ EveryStep step C s calls := by
  constructor
  · intro hq
    induction calls generalizing s with
    | nil => exact trivial
    | cons a as ih =>
      have hc : C s a := by
        by_contra hc
        exact hbad s a h hdom.1 hc hq.2.first
      exact ⟨hc, ih (hstep s a h hdom.1 hc) hdom.2 hq.2⟩
  · intro hc
    have both : EveryStep step (fun s a => D s a ∧ C s a) s calls := everyStep_and.mpr ⟨hdom, hc⟩
    exact both.everyState (fun s a hi hdc => hstep s a hi hdc.1 hdc.2) hgood h

/-- The exact condition for a property of states, over all calls. -/
theorem everyState_iff {Q : σ → Prop} (hstep : ∀ s a, I s → C s a → I (step s a))
    (hgood : ∀ s, I s → Q s) (hbad : ∀ s a, I s → ¬ C s a → ¬ Q (step s a)) {s : σ}
    {calls : List α} (h : I s) : EveryState step Q s calls ↔ EveryStep step C s calls :=
  everyState_iff_within (fun s a hi _ => hstep s a hi) hgood (fun s a hi _ => hbad s a hi) h
    (everyStep_true step s calls)

end Rules

/-- `s` is reached from an initial state by a run of allowed calls. -/
inductive Reachable (step : σ → α → σ) (Allowed : α → Prop) (init : σ → Prop) : σ → Prop
  | init {s : σ} : init s → Reachable step Allowed init s
  | call {s : σ} (a : α) : Reachable step Allowed init s → Allowed a →
      Reachable step Allowed init (step s a)

/-- The induction over reachable states, packaged: an invariant that holds at the start and that
every allowed call preserves holds in every reachable state. -/
theorem Reachable.invariant {step : σ → α → σ} {Allowed : α → Prop} {init I : σ → Prop}
    (hinit : ∀ s, init s → I s) (hstep : ∀ s a, I s → Allowed a → I (step s a)) {s : σ}
    (h : Reachable step Allowed init s) : I s := by
  induction h with
  | init h => exact hinit _ h
  | call a _ ha ih => exact hstep _ a ih ha

/-- Reachability is what runs of allowed calls reach. -/
theorem reachable_iff_run {step : σ → α → σ} {Allowed : α → Prop} {init : σ → Prop} {s : σ} :
    Reachable step Allowed init s ↔
      ∃ s₀ calls, init s₀ ∧ (∀ a ∈ calls, Allowed a) ∧ runFrom step s₀ calls = s := by
  constructor
  · intro h
    induction h with
    | @init s h => exact ⟨s, [], h, by simp, rfl⟩
    | call a _ ha ih =>
      obtain ⟨s₀, calls, hinit, hall, rfl⟩ := ih
      refine ⟨s₀, calls ++ [a], hinit, ?_, by rw [runFrom_append]; rfl⟩
      intro b hb
      rcases List.mem_append.mp hb with hb | hb
      · exact hall b hb
      · exact List.mem_singleton.mp hb ▸ ha
  · rintro ⟨s₀, calls, hinit, hall, rfl⟩
    have start : Reachable step Allowed init s₀ := .init hinit
    clear hinit
    induction calls generalizing s₀ with
    | nil => exact start
    | cons a as ih =>
      exact ih (step s₀ a) (fun b hb => hall b (List.mem_cons_of_mem a hb))
        (.call a start (hall a List.mem_cons_self))

end Unics.Lib
