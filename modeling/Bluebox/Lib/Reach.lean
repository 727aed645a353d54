/-
  Bluebox.Lib.Reach

  Reachability for a deterministic machine with partial steps: a state type,
  an action type and `step : σ → α → Option σ`.  A step may be guarded by a
  side condition `ok`, which restricts the runs to those whose steps all meet
  it; `Reach` with the trivial guard is plain reachability.

  The one rule every safety proof of this development goes through is
  `Reach.invariant`: what holds initially and is preserved by each guarded
  step holds in every state reached.
-/
import Mathlib.Data.List.Basic

namespace Bluebox.Lib

variable {σ α : Type _}

/-- `Reach step ok s₀ s`: some run of guarded steps leads from `s₀` to `s`. -/
inductive Reach (step : σ → α → Option σ) (ok : σ → α → Prop) (s₀ : σ) : σ → Prop
  | init : Reach step ok s₀ s₀
  | next {s s' : σ} {a : α} :
      Reach step ok s₀ s → ok s a → step s a = some s' → Reach step ok s₀ s'

/-- The guard that lets every action through. -/
def anyStep (_ : σ) (_ : α) : Prop := True

namespace Reach

variable {step : σ → α → Option σ} {ok : σ → α → Prop} {s₀ : σ}

/-- An invariant of the initial state that each guarded step keeps holds in
    every state reached. -/
theorem invariant {P : σ → Prop} (hinit : P s₀)
    (hstep : ∀ s a s', P s → ok s a → step s a = some s' → P s')
    {s : σ} (h : Reach step ok s₀ s) : P s := by
  induction h with
  | init => exact hinit
  | next _ hok hs ih => exact hstep _ _ _ ih hok hs

/-- Take an action, or stay when it can not be taken. -/
def perform (step : σ → α → Option σ) (s : σ) (a : α) : σ := (step s a).getD s

theorem performed {s : σ} {a : α} (h : Reach step ok s₀ s) (hok : ok s a) :
    Reach step ok s₀ (perform step s a) := by
  unfold perform
  cases hs : step s a with
  | none => exact h
  | some s' => exact h.next hok hs

/-- Actions one after the other. -/
theorem performed_all (l : List α) : ∀ {s : σ}, Reach step anyStep s₀ s →
    Reach step anyStep s₀ (l.foldl (perform step) s) := by
  induction l with
  | nil => exact fun h => h
  | cons a l ih => exact fun h => ih (h.performed trivial)

end Reach

end Bluebox.Lib
