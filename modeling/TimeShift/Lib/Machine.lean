import Mathlib.Data.List.Basic

/-!
# Runs of a deterministic machine

A machine is a partial step function: `step s l` is the state after the step
labelled `l`, or `none` when that step cannot be taken. `Reach step ok s₀ s`
says that `s` is reached from `s₀` by steps whose pre-state and label all meet
`ok`; a condition on the steps of a run is a choice of `ok`.

* `Reach.invariant` is the induction rule: what holds at the start and is kept
  by every allowed step holds in every state reached;
* `Reach.trans` joins two runs;
* `reach_of_run` turns the execution of a list of labels into a run.
-/

namespace Machine

variable {σ ι : Type*}

/-- States reached from `s₀` by steps whose pre-state and label meet `ok`. -/
inductive Reach (step : σ → ι → Option σ) (ok : σ → ι → Prop) (s₀ : σ) : σ → Prop
  | refl : Reach step ok s₀ s₀
  | tail {s s' : σ} {l : ι} :
      Reach step ok s₀ s → ok s l → step s l = some s' → Reach step ok s₀ s'

variable {step : σ → ι → Option σ} {ok : σ → ι → Prop} {s₀ s s' : σ}

/-- A run goes on with the step labelled `l`. -/
theorem Reach.extend (h : Reach step ok s₀ s) (l : ι) (hok : ok s l) (hs : step s l = some s') :
    Reach step ok s₀ s' :=
  .tail h hok hs

/-- A state that a run has come to is one that other runs begin with. -/
theorem Reach.here (_ : Reach step ok s₀ s) : Reach step ok s s := .refl

/-- Invariant induction over the steps of a run. -/
theorem Reach.invariant {P : σ → Prop} (h : Reach step ok s₀ s) (hinit : P s₀)
    (hstep : ∀ s l s', P s → ok s l → step s l = some s' → P s') : P s := by
  induction h with
  | refl => exact hinit
  | tail _ hok hs ih => exact hstep _ _ _ ih hok hs

/-- Runs compose. -/
theorem Reach.trans (h : Reach step ok s₀ s) (h' : Reach step ok s s') :
    Reach step ok s₀ s' := by
  induction h' with
  | refl => exact h
  | tail _ hok hs ih => exact .tail ih hok hs

/-- A run whose steps meet a condition is one whose steps meet a weaker one. -/
theorem Reach.imp {ok' : σ → ι → Prop} (h : Reach step ok s₀ s)
    (himp : ∀ s l, ok s l → ok' s l) : Reach step ok' s₀ s := by
  induction h with
  | refl => exact .refl
  | tail _ hok hs ih => exact .tail ih (himp _ _ hok) hs

/-- Execute a list of labels, stopping at a step that cannot be taken. -/
def run (step : σ → ι → Option σ) : σ → List ι → Option σ
  | s, [] => some s
  | s, l :: ls => (step s l).bind fun s' => run step s' ls

/-- An execution whose labels all meet `ok`, whatever the state, is a run. -/
theorem reach_of_run {ls : List ι} (hok : ∀ l ∈ ls, ∀ s, ok s l)
    (hrun : run step s₀ ls = some s) : Reach step ok s₀ s := by
  induction ls generalizing s₀ with
  | nil =>
      simp only [run, Option.some.injEq] at hrun
      exact hrun ▸ .refl
  | cons l ls ih =>
      simp only [run, Option.bind_eq_some_iff] at hrun
      obtain ⟨s₁, hs₁, hrest⟩ := hrun
      have hfirst : Reach step ok s₀ s₁ := .tail .refl (hok l (by simp) s₀) hs₁
      exact hfirst.trans (ih (fun l' hl' => hok l' (by simp [hl'])) hrest)

end Machine
