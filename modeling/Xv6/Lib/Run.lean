import Mathlib.Tactic

/-!
# Runs of a partial step function

A system is a step function `step : σ → α → Option σ`: from state `s`, action `a` is enabled
when `step s a = some s'`, and `none` means the action cannot be taken there (a process that
would sleep, a caller that would not issue it).  This file gives

* `run step s as`: the state after the actions `as`, or `none` if one of them is not enabled;
* `Reachable step init`: the states some run from `init` ends in;
* the invariant rule `Reachable.inv` (holds initially, preserved by every enabled step), and
  the same rule where a step may use that its source state is reachable (`Reachable.inv'`);
* `Reachable.mono`: a system whose steps another can match (an environment that issues fewer
  or more constrained actions) reaches no state the other does not.

Counterexamples are runs: `reachable_of_run` turns a computed run into a reachable state, and
`exists_of_any` reads a property off the state a run ends in.
-/

namespace Steps

variable {σ α : Type*}

/-- Run the actions in order; `none` as soon as one of them is not enabled. -/
def run (step : σ → α → Option σ) : σ → List α → Option σ
  | s, [] => some s
  | s, a :: as => (step s a).bind (run step · as)

section Run

variable (step : σ → α → Option σ)

@[simp] theorem run_nil (s : σ) : run step s [] = some s := rfl

@[simp] theorem run_cons (s : σ) (a : α) (as : List α) :
    run step s (a :: as) = (step s a).bind (run step · as) := rfl

theorem run_append (s : σ) (as bs : List α) :
    run step s (as ++ bs) = (run step s as).bind (run step · bs) := by
  induction as generalizing s with
  | nil => rfl
  | cons a as ih =>
    simp only [List.cons_append, run_cons, ih]
    cases step s a <;> rfl

theorem run_singleton (s : σ) (a : α) : run step s [a] = step s a := by
  simp only [run_cons, run_nil]
  cases step s a <;> rfl

end Run

/-- The states reachable from `init` through enabled steps. -/
inductive Reachable (step : σ → α → Option σ) (init : σ) : σ → Prop
  | init : Reachable step init init
  | step {s s' : σ} (a : α) : Reachable step init s → step s a = some s' → Reachable step init s'

namespace Reachable

variable {step : σ → α → Option σ} {init : σ}

/-- The invariant rule: what holds initially and is kept by every enabled step holds in
every reachable state. -/
theorem inv {I : σ → Prop} (h0 : I init)
    (hstep : ∀ s a s', I s → step s a = some s' → I s') {s : σ}
    (hs : Reachable step init s) : I s := by
  induction hs with
  | init => exact h0
  | step a _ ha ih => exact hstep _ a _ ih ha

/-- The invariant rule where each step may use that its source state is reachable. -/
theorem inv' {I : σ → Prop} (h0 : I init)
    (hstep : ∀ s a s', Reachable step init s → I s → step s a = some s' → I s') {s : σ}
    (hs : Reachable step init s) : I s := by
  induction hs with
  | init => exact h0
  | step a hr ha ih => exact hstep _ a _ hr ih ha

theorem trans {s s' : σ} (hs : Reachable step init s) (hs' : Reachable step s s') :
    Reachable step init s' := by
  induction hs' with
  | init => exact hs
  | step a _ ha ih => exact Reachable.step a ih ha

/-- A system each of whose enabled steps another system can match reaches only states the other
reaches. -/
theorem mono {β : Type*} {step' : σ → β → Option σ}
    (h : ∀ s a s', step s a = some s' → ∃ b, step' s b = some s') {s : σ}
    (hs : Reachable step init s) : Reachable step' init s := by
  induction hs with
  | init => exact Reachable.init
  | step a _ ha ih =>
    obtain ⟨b, hb⟩ := h _ a _ ha
    exact Reachable.step b ih hb

end Reachable

/-- A run that ends in `s` makes `s` reachable. -/
theorem reachable_of_run {step : σ → α → Option σ} {init : σ} :
    ∀ {as : List α} {s : σ}, run step init as = some s → Reachable step init s
  | [], s, h => by
    simp only [run_nil, Option.some.injEq] at h
    exact h ▸ Reachable.init
  | a :: as, s, h => by
    simp only [run_cons] at h
    cases ha : step init a with
    | none => simp [ha] at h
    | some s1 =>
      rw [ha, Option.bind_some] at h
      exact Reachable.trans (Reachable.step a Reachable.init ha) (reachable_of_run h)

/-- A decidable property of the state a run ends in, read off by evaluating the run. -/
theorem exists_of_any {step : σ → α → Option σ} {s : σ} {as : List α} {P : σ → Prop}
    [DecidablePred P] (h : (run step s as).any (fun s' => decide (P s')) = true) :
    ∃ s', run step s as = some s' ∧ P s' := by
  obtain ⟨s', hrun, hp⟩ := (Option.any_eq_true _ _).1 h
  exact ⟨s', hrun, of_decide_eq_true hp⟩

/-- Every reachable state is the end of a run. -/
theorem exists_run_of_reachable {step : σ → α → Option σ} {init s : σ}
    (hs : Reachable step init s) : ∃ as, run step init as = some s := by
  induction hs with
  | init => exact ⟨[], rfl⟩
  | step a _ ha ih =>
    obtain ⟨as, has⟩ := ih
    refine ⟨as ++ [a], ?_⟩
    rw [run_append, has, Option.bind_some, run_singleton, ha]

end Steps
