import Mathlib

/-!
# While loops

`run` gives a loop a number of turns, `Ends` is the meaning of the loop without one. A variant
that drops on every turn bounds the turns, and an invariant is carried to the exit.
-/

namespace Aok.Lib.Loop

variable {σ : Type} (cond : σ → Bool) (body : σ → σ)

/-- At most `fuel` turns of the loop. -/
def run : ℕ → σ → σ
  | 0, s => s
  | fuel + 1, s => if cond s then run fuel (body s) else s

inductive Ends : σ → σ → Prop where
  | exit {s : σ} : cond s = false → Ends s s
  | turn {s s' : σ} : cond s = true → Ends (body s) s' → Ends s s'

variable {cond body} {s s' : σ}

theorem ends_run (variant : σ → ℕ) (hdrop : ∀ s, cond s = true → variant (body s) < variant s)
    {fuel : ℕ} (hfuel : variant s ≤ fuel) : Ends cond body s (run cond body fuel s) := by
  induction fuel generalizing s with
  | zero =>
    refine .exit (Bool.eq_false_iff.mpr fun hc => ?_)
    have := hdrop s hc
    omega
  | succ fuel ih =>
    rw [run]
    split
    next hc =>
      have := hdrop s hc
      exact .turn hc (ih (by omega))
    next hc => exact .exit (Bool.eq_false_iff.mpr hc)

theorem Ends.exit_cond (h : Ends cond body s s') : cond s' = false := by
  induction h with
  | exit hc => exact hc
  | turn _ _ ih => exact ih

theorem run_rule (P : σ → Prop) (hturn : ∀ s, P s → cond s = true → P (body s)) (fuel : ℕ)
    (h : P s) : P (run cond body fuel s) := by
  induction fuel generalizing s with
  | zero => exact h
  | succ fuel ih =>
    rw [run]
    split
    next hc => exact ih (hturn s h hc)
    next => exact h

end Aok.Lib.Loop
