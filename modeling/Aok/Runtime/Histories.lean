import Aok.Runtime.Commits

/-!
# Runs with their past

Some conditions and some properties of a run are about what happened before. A story is a run
from an initial state together with its steps, the latest first; its condition may look back
at them.
-/

namespace Aok.Runtime
open Lib Lib.Utf8 Lib.JsonText Lib.JsonValue Lib.Command Lib.Journal
open Relation

variable {K : Type}

/-- The steps of a run, each with the state it started from, the latest first. -/
abbrev History (K : Type) := List (System K × Event K)

inductive Story (env : Env K) (C : History K → System K → Event K → Prop) :
    History K → System K → Prop where
  | start (k : K) : Story env C [] (System.initial k)
  | next {h : History K} {s s' : System K} {e : Event K} :
    Story env C h s → C h s e → step env s e = some s' → Story env C ((s, e) :: h) s'

variable {U P : Prop} {S : Terms} {env : Env K} {C : History K → System K → Event K → Prop}
  {h : History K} {s : System K}

theorem Story.reachable {C' : System K → Event K → Prop} (hC : ∀ h s e, C h s e → C' s e)
    (hs : Story env C h s) : Reachable env C' s := by
  induction hs with
  | start k => exact ⟨k, .refl⟩
  | next _ hc hstep ih => exact ih.trans (.single ⟨_, hC _ _ _ hc, hstep⟩)

theorem Story.mono {C' : History K → System K → Event K → Prop} (hC : ∀ h s e, C h s e → C' h s e)
    (hs : Story env C h s) : Story env C' h s := by
  induction hs with
  | start k => exact .start k
  | next _ hc hstep ih => exact .next ih (hC _ _ _ hc) hstep

theorem Story.safe (hC : ∀ h s e, C h s e → Allowed U S P env s e) (hs : Story env C h s) :
    s.Safe U := by
  have hr : Reachable env (fun s e => Allowed U S P env s e) s := hs.reachable hC
  exact hr.safe fun _ _ h => h

theorem Story.invariant {I : History K → System K → Prop}
    (hC : ∀ h s e, C h s e → Allowed U S P env s e) (hs : Story env C h s)
    (h₀ : ∀ k, I [] (System.initial k))
    (hstep : ∀ h s e s', Story env C h s → s.Safe U → C h s e → step env s e = some s' → I h s →
      I ((s, e) :: h) s') : I h s := by
  induction hs with
  | start k => exact h₀ k
  | next hs hc hnext ih => exact hstep _ _ _ _ hs (hs.safe hC) hc hnext ih

/-! ## Given stories -/

/-- The story a list of events tells, if each of them can happen and meets the condition. -/
def tellAll (env : Env K) (C : History K → System K → Event K → Prop)
    [∀ h s e, Decidable (C h s e)] (h : History K) (s : System K) :
    List (Event K) → Option (History K × System K)
  | [] => some (h, s)
  | e :: es => if C h s e then (step env s e).bind fun s' => tellAll env C ((s, e) :: h) s' es
    else none

theorem story_of_tellAll [∀ h s e, Decidable (C h s e)] {es : List (Event K)}
    {r : History K × System K} (hs : Story env C h s) (hr : tellAll env C h s es = some r) :
    Story env C r.1 r.2 := by
  induction es generalizing h s with
  | nil =>
    cases hr
    exact hs
  | cons e es ih =>
    unfold tellAll at hr
    split at hr
    next he =>
      obtain ⟨t, ht, hr⟩ := Option.bind_eq_some_iff.mp hr
      exact ih (hs.next he ht) hr
    · cases hr

theorem exists_story [∀ h s e, Decidable (C h s e)] (k : K) (es : List (Event K))
    {Q : History K → System K → Prop}
    (h : ∃ r ∈ tellAll env C [] (System.initial k) es, Q r.1 r.2) :
    ∃ h s, Story env C h s ∧ Q h s := by
  obtain ⟨r, hr, hq⟩ := h
  exact ⟨r.1, r.2, story_of_tellAll (.start k) hr, hq⟩

namespace Sample

def masked : Env Unit := { calm with policy := ⟨false, [], [], [], taintExternal⟩ }

def line : GoString := lit "c"

def peer : GoString := lit "e"

end Sample

end Aok.Runtime
