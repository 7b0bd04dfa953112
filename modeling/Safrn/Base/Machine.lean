import Mathlib.Logic.Basic

/-!
# Labelled transition systems and their runs

A machine has initial states and a labelled step relation; a run is a finite sequence of steps.
The rules here are the ones every protocol development needs: what holds initially and is kept
by each step holds after every run, and a restricted machine takes only the steps that meet a
condition on the state before the step.
-/

namespace Safrn.Base

universe u v

/-- A labelled transition system over states `σ` and actions `α`. -/
structure Machine (σ : Type u) (α : Type v) where
  init : σ → Prop
  step : σ → α → σ → Prop

namespace Machine

variable {σ : Type u} {α : Type v} (M : Machine σ α)

/-- The actions of the list lead from the first state to the second. -/
inductive Run : σ → List α → σ → Prop
  | nil (s : σ) : Run s [] s
  | cons {s t r : σ} {a : α} {as : List α} : M.step s a t → Run t as r → Run s (a :: as) r

/-- Some run from an initial state ends in the state. -/
def Reachable (t : σ) : Prop := ∃ s as, M.init s ∧ M.Run s as t

/-- No action can be taken any more. -/
def Stuck (s : σ) : Prop := ∀ a t, ¬ M.step s a t

/-- The machine that takes only the steps whose state before the step meets the condition. -/
def restrict (C : σ → α → Prop) : Machine σ α where
  init := M.init
  step s a t := M.step s a t ∧ C s a

variable {M}

/-- What each step keeps, each run keeps. -/
theorem Run.preserves {P : σ → Prop} (hP : ∀ s a t, P s → M.step s a t → P t)
    {s t : σ} {as : List α} (hr : M.Run s as t) (hs : P s) : P t := by
  induction hr with
  | nil => exact hs
  | cons hstep _ ih => exact ih (hP _ _ _ hs hstep)

/-- An invariant holds in every reachable state. -/
theorem Reachable.invariant {P : σ → Prop} (h0 : ∀ s, M.init s → P s)
    (hP : ∀ s a t, P s → M.step s a t → P t) {t : σ} (ht : M.Reachable t) : P t := by
  obtain ⟨s, as, hi, hr⟩ := ht
  exact hr.preserves hP (h0 s hi)

/-- Runs compose. -/
theorem Run.append {s t r : σ} {as bs : List α} (h₁ : M.Run s as t) (h₂ : M.Run t bs r) :
    M.Run s (as ++ bs) r := by
  induction h₁ with
  | nil => exact h₂
  | cons hstep _ ih => exact .cons hstep (ih h₂)

/-- Reachability is closed under steps. -/
theorem Reachable.step {s t : σ} {a : α} (hs : M.Reachable s) (h : M.step s a t) :
    M.Reachable t := by
  obtain ⟨s₀, as, hi, hr⟩ := hs
  exact ⟨s₀, as ++ [a], hi, hr.append (.cons h (.nil _))⟩

/-- A run of the restricted machine is a run. -/
theorem Run.of_restrict {C : σ → α → Prop} {s t : σ} {as : List α}
    (h : (M.restrict C).Run s as t) : M.Run s as t := by
  induction h with
  | nil s => exact .nil s
  | cons hstep _ ih => exact .cons hstep.1 ih

/-- When each step from a state of the invariant lowers a measure, runs are no longer than the
measure of their first state. -/
theorem Run.length_le {P : σ → Prop} {μ : σ → Nat}
    (hP : ∀ s a t, P s → M.step s a t → P t)
    (hμ : ∀ s a t, P s → M.step s a t → μ t < μ s)
    {s t : σ} {as : List α} (hr : M.Run s as t) (hs : P s) : as.length ≤ μ s := by
  induction hr with
  | nil => exact Nat.zero_le _
  | cons hstep _ ih =>
    exact Nat.lt_of_le_of_lt (ih (hP _ _ _ hs hstep)) (hμ _ _ _ hs hstep)

/-- The machine of a partial step function. -/
def ofStep (init : σ → Prop) (step : σ → α → Option σ) : Machine σ α where
  init := init
  step s a t := step s a = some t

/-- Take the actions one after the other. -/
def execute (step : σ → α → Option σ) : σ → List α → Option σ
  | s, [] => some s
  | s, a :: as => (step s a).bind fun t ↦ execute step t as

/-- An execution of the step function is a run. -/
theorem run_of_execute {init : σ → Prop} {step : σ → α → Option σ} {as : List α} {s t : σ}
    (h : execute step s as = some t) : (ofStep init step).Run s as t := by
  induction as generalizing s with
  | nil => exact Option.some.inj h ▸ .nil s
  | cons a as ih =>
    obtain ⟨r, hr, ht⟩ := Option.bind_eq_some_iff.mp h
    exact .cons hr (ih ht)

/-- An execution that checks the condition before each step is a run of the restricted
machine. -/
theorem run_restrict_of_execute {init : σ → Prop} {step : σ → α → Option σ}
    {C : σ → α → Prop} [∀ s a, Decidable (C s a)] {as : List α} {s t : σ}
    (h : execute (fun s a ↦ if C s a then step s a else none) s as = some t) :
    ((ofStep init step).restrict C).Run s as t := by
  induction as generalizing s with
  | nil => exact Option.some.inj h ▸ .nil s
  | cons a as ih =>
    obtain ⟨r, hr, ht⟩ := Option.bind_eq_some_iff.mp h
    obtain ⟨hc, hs⟩ := Option.ite_none_right_eq_some.mp hr
    exact .cons ⟨hs, hc⟩ (ih ht)

/-- A state of a step function is stuck when no action is defined. -/
theorem stuck_ofStep {init : σ → Prop} {step : σ → α → Option σ} {s : σ} :
    (ofStep init step).Stuck s ↔ ∀ a, step s a = none := by
  constructor
  · intro h a
    cases ha : step s a with
    | none => rfl
    | some t => exact absurd ha (h a t)
  · intro h a t ht
    have hs : step s a = some t := ht
    rw [h a] at hs
    cases hs

end Machine
end Safrn.Base
