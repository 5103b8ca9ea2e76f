import Mathlib

/-!
# Runs of a transition function

A run folds the operations over a state. A property that every allowed step keeps holds after every
run of allowed steps. Where each step records the new value of an observation, or records nothing
and leaves the value alone, the record tells the values in the order they were taken.
-/

namespace Aok.Lib.Trace

variable {σ ω : Type} (step : σ → ω → σ)

def run (s : σ) (ops : List ω) : σ := ops.foldl step s

def Along (P : σ → ω → Prop) : σ → List ω → Prop
  | _, [] => True
  | s, o :: ops => P s o ∧ Along P (step s o) ops

instance decidableAlong (P : σ → ω → Prop) [∀ s o, Decidable (P s o)] :
    (s : σ) → (ops : List ω) → Decidable (Along step P s ops)
  | _, [] => .isTrue trivial
  | s, o :: ops =>
    have := decidableAlong P (step s o) ops
    inferInstanceAs (Decidable (_ ∧ _))

def states : σ → List ω → List σ
  | _, [] => []
  | s, o :: ops => step s o :: states (step s o) ops

variable {step} {P : σ → ω → Prop} {s : σ} {ops : List ω}

theorem along_true (s : σ) (ops : List ω) : Along step (fun _ _ => True) s ops := by
  induction ops generalizing s with
  | nil => trivial
  | cons o ops ih => exact ⟨trivial, ih (step s o)⟩

theorem Along.keeps {I : σ → Prop} (h : Along step P s ops)
    (hstep : ∀ s o, I s → P s o → I (step s o)) (hs : I s) : I (run step s ops) := by
  induction ops generalizing s with
  | nil => exact hs
  | cons o ops ih => exact ih h.2 (hstep s o hs h.1)

theorem run_keeps {I : σ → Prop} (hstep : ∀ s o, I s → I (step s o)) (hs : I s)
    (ops : List ω) : I (run step s ops) := by
  induction ops generalizing s with
  | nil => exact hs
  | cons o ops ih => exact ih (hstep s o hs)

theorem along_of_end {J I : σ → Prop} (hstep : ∀ s o, I s → I (step s o))
    (hlost : ∀ s o, I s → ¬ J s → ¬ J (step s o)) (hs : I s) (h : J (run step s ops)) :
    Along step (fun s o => I s ∧ J s ∧ J (step s o)) s ops := by
  have hback : ∀ (ops : List ω) (s : σ), I s → J (run step s ops) → J s := by
    intro ops
    induction ops with
    | nil => exact fun s _ h => h
    | cons o ops ih =>
      intro s hs h
      by_contra hn
      exact hlost s o hs hn (ih (step s o) (hstep s o hs) h)
  induction ops generalizing s with
  | nil => trivial
  | cons o ops ih =>
    have hnext := hstep s o hs
    exact ⟨⟨hs, hback (o :: ops) s hs h, hback ops _ hnext h⟩, ih hnext h⟩

section Told

variable {α β : Type} [DecidableEq α] {view : σ → Option α} {log : σ → List β}
  {carry : β → Option α}

/-- A step appends to the log either nothing about the view, which stays, or its new value. -/
def Tells (view : σ → Option α) (log : σ → List β) (carry : β → Option α) (s s' : σ) : Prop :=
  ∃ new v, log s' = log s ++ new ∧ view s' = some v ∧
    (new.filterMap carry = [v] ∨ new.filterMap carry = [] ∧ view s = some v)

theorem Along.told (h : Along step P s ops)
    (hstep : ∀ s o, P s o → Tells view log carry s (step s o)) {v : α} (hv : view s = some v) :
    ∃ new, log (run step s ops) = log s ++ new ∧
      (v :: (states step s ops).filterMap view).destutter (· ≠ ·) =
        (v :: new.filterMap carry).destutter (· ≠ ·) := by
  induction ops generalizing s v with
  | nil => exact ⟨[], by simp [run], by simp [states]⟩
  | cons o ops ih =>
    obtain ⟨new, w, hnew, hw, hcase⟩ := hstep s o h.1
    obtain ⟨rest, hrest, hsame⟩ := ih h.2 hw
    refine ⟨new ++ rest, ?_, ?_⟩
    · rw [← List.append_assoc, ← hnew]
      exact hrest
    · simp only [List.destutter_cons'] at hsame ⊢
      simp only [states, List.filterMap_cons, hw, List.filterMap_append, List.destutter'_cons]
      rcases hcase with hc | ⟨hc, hold⟩
      · simp only [hc, List.cons_append, List.nil_append, List.destutter'_cons, hsame]
        split_ifs with hne
        · rfl
        · obtain rfl : v = w := not_not.mp hne
          exact hsame
      · obtain rfl : v = w := Option.some.inj (hv.symm.trans hold)
        simpa [hc] using hsame

end Told

end Aok.Lib.Trace
