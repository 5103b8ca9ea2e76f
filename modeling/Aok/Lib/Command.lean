import Mathlib

/-!
# Commands that can fail or be cut off

A command runs on a world and ends with a value, with an error, or with the process
stopped; whatever it did to the world until then stays. `Ends` is the weakest
precondition of a command for one postcondition per ending. `Settles` is the use of
it that a proof about a long command needs: the command moves along a relation on
worlds, each paired with a ghost value, and unless it is cut off it arrives at a
ghost value that its result allows. Its rules take a command apart
from the front, one line at a time.
-/

namespace Aok.Lib.Command

inductive Outcome (ε α : Type) where
  | ok (a : α)
  | error (e : ε)
  | stop
deriving DecidableEq

def Outcome.value? {ε α : Type} : Outcome ε α → Option α
  | .ok a => some a
  | _ => none

def Outcome.error? {ε α : Type} : Outcome ε α → Option ε
  | .error e => some e
  | _ => none

theorem Outcome.value?_eq_some {ε α : Type} {o : Outcome ε α} {a : α} :
    o.value? = some a ↔ o = .ok a := by
  cases o <;> simp [Outcome.value?]

def Cmd (W ε α : Type) : Type := W → Outcome ε α × W

variable {W ε α β : Type}

namespace Cmd

def pure (a : α) : Cmd W ε α := fun w => (.ok a, w)

def bind (c : Cmd W ε α) (f : α → Cmd W ε β) : Cmd W ε β := fun w =>
  match c w with
  | (.ok a, w) => f a w
  | (.error e, w) => (.error e, w)
  | (.stop, w) => (.stop, w)

end Cmd

instance : Monad (Cmd W ε) where
  pure := Cmd.pure
  bind := Cmd.bind

def fail (e : ε) : Cmd W ε α := fun w => (.error e, w)

def halt : Cmd W ε α := fun w => (.stop, w)

def ask (f : W → α) : Cmd W ε α := fun w => (.ok (f w), w)

def modify (f : W → W) : Cmd W ε Unit := fun w => (.ok (), f w)

def require (p : Prop) [Decidable p] (e : ε) : Cmd W ε Unit :=
  if p then Cmd.pure () else fail e

def attempt (c : Cmd W ε α) : Cmd W ε (Except ε α) := fun w =>
  match c w with
  | (.ok a, w) => (.ok (.ok a), w)
  | (.error e, w) => (.ok (.error e), w)
  | (.stop, w) => (.stop, w)

/-! ## Weakest preconditions -/

def Ends (c : Cmd W ε α) (w : W) (Q : α → W → Prop) (E : ε → W → Prop) (S : W → Prop) : Prop :=
  match c w with
  | (.ok a, w) => Q a w
  | (.error e, w) => E e w
  | (.stop, w) => S w

section Rules
variable {Q : α → W → Prop} {E : ε → W → Prop} {S : W → Prop} {w : W}

@[simp] theorem ends_pure {a : α} : Ends (pure a : Cmd W ε α) w Q E S ↔ Q a w := Iff.rfl

@[simp] theorem ends_fail {e : ε} : Ends (fail e : Cmd W ε α) w Q E S ↔ E e w := Iff.rfl

@[simp] theorem ends_ask {f : W → α} : Ends (ask f) w Q E S ↔ Q (f w) w := Iff.rfl

@[simp] theorem ends_modify {Q : Unit → W → Prop} {f : W → W} :
    Ends (modify f) w Q E S ↔ Q () (f w) := Iff.rfl

@[simp] theorem ends_require {Q : Unit → W → Prop} {p : Prop} [Decidable p] {e : ε} :
    Ends (require p e) w Q E S ↔ (p → Q () w) ∧ (¬ p → E e w) := by
  by_cases h : p <;> simp [require, h, Ends, Cmd.pure, fail]

@[simp] theorem ends_bind {c : Cmd W ε β} {f : β → Cmd W ε α} :
    Ends (c >>= f) w Q E S ↔ Ends c w (fun b w => Ends (f b) w Q E S) E S := by
  simp only [Ends, Bind.bind, Cmd.bind]
  generalize c w = r
  rcases r with ⟨_ | _ | _, w⟩ <;> rfl

@[simp] theorem ends_attempt {Q : Except ε α → W → Prop} {c : Cmd W ε α} :
    Ends (attempt c) w Q E S ↔
      Ends c w (fun a => Q (.ok a)) (fun e => Q (.error e)) S := by
  simp only [Ends, attempt]
  generalize c w = r
  rcases r with ⟨_ | _ | _, w⟩ <;> rfl

theorem Ends.mono {c : Cmd W ε α} {Q' : α → W → Prop} {E' : ε → W → Prop} {S' : W → Prop}
    (h : Ends c w Q E S) (hQ : ∀ a w, Q a w → Q' a w) (hE : ∀ e w, E e w → E' e w)
    (hS : ∀ w, S w → S' w) : Ends c w Q' E' S' := by
  simp only [Ends] at h ⊢
  generalize c w = r at h ⊢
  rcases r with ⟨a | e | _, w⟩
  · exact hQ a w h
  · exact hE e w h
  · exact hS w h

theorem Ends.and_result {c : Cmd W ε α} (h : Ends c w Q E S) :
    Ends c w (fun a w' => Q a w' ∧ (c w).1 = .ok a) (fun e w' => E e w' ∧ (c w).1 = .error e) S := by
  simp only [Ends] at h ⊢
  generalize c w = r at h ⊢
  rcases r with ⟨a | e | _, w⟩
  · exact ⟨h, rfl⟩
  · exact ⟨h, rfl⟩
  · exact h

theorem Ends.of_const {c : Cmd W ε α} {p : Prop} (h : p) :
    Ends c w (fun _ _ => p) (fun _ _ => True) fun _ => True := by
  simp only [Ends]
  generalize c w = r
  rcases r with ⟨_ | _ | _, w⟩
  exacts [h, trivial, trivial]

theorem Ends.world {c : Cmd W ε α} {P : W → Prop} (h : Ends c w (fun _ => P) (fun _ => P) P) :
    P (c w).2 := by
  simp only [Ends] at h
  generalize c w = r at h ⊢
  rcases r with ⟨_ | _ | _, w⟩ <;> exact h

theorem Ends.value {c : Cmd W ε α} (h : Ends c w Q E S) {a : α} (ha : (c w).1 = .ok a) :
    Q a (c w).2 := by
  simp only [Ends] at h
  generalize c w = r at h ha ⊢
  rcases r with ⟨_ | _ | _, w⟩ <;> cases ha
  exact h

theorem Ends.error {c : Cmd W ε α} (h : Ends c w Q E S) {e : ε} (he : (c w).1 = .error e) :
    E e (c w).2 := by
  simp only [Ends] at h
  generalize c w = r at h he ⊢
  rcases r with ⟨_ | _ | _, w⟩ <;> cases he
  exact h

theorem Ends.error_iff {c : Cmd W ε α} {e : ε} {p : Prop}
    (h : Ends c w (fun _ _ => ¬ p) (fun x _ => x = e ↔ p) fun _ => ¬ p) :
    (c w).1 = .error e ↔ p := by
  simp only [Ends] at h
  generalize c w = r at h ⊢
  rcases r with ⟨_ | _ | _, w⟩ <;> simpa using h

theorem Ends.eq_ok {c : Cmd W ε α} {a : α} {v : W}
    (h : Ends c w (fun x w' => x = a ∧ w' = v) (fun _ _ => False) fun _ => False) :
    c w = (.ok a, v) := by
  simp only [Ends] at h
  generalize c w = r at h ⊢
  rcases r with ⟨_ | _ | _, w⟩
  · obtain ⟨rfl, rfl⟩ := h
    rfl
  · exact h.elim
  · exact h.elim

end Rules

/-! ## Following a relation to its end -/

section Settles
variable {G : Type} (T : G × W → G × W → Prop) (D : α → G → Prop) (F : G → Prop)

def Settles (c : Cmd W ε α) (g : G) (w : W) : Prop :=
  Ends c w (fun a w' => ∃ g', D a g' ∧ T (g, w) (g', w')) (fun _ w' => ∃ g', F g' ∧ T (g, w) (g', w'))
    (fun w' => ∃ g', T (g, w) (g', w'))

variable {T D F} {g : G} {w : W}

theorem Settles.pure [Std.Refl T] {a : α} (h : D a g) : Settles T D F (Pure.pure a : Cmd W ε α) g w :=
  ⟨g, h, Std.Refl.refl (g, w)⟩

theorem Settles.fail [Std.Refl T] {e : ε} (h : F g) : Settles T D F (fail e : Cmd W ε α) g w :=
  ⟨g, h, Std.Refl.refl (g, w)⟩

theorem Settles.halt [Std.Refl T] : Settles T D F (halt : Cmd W ε α) g w :=
  ⟨g, Std.Refl.refl (g, w)⟩

theorem Settles.of_ends [IsTrans _ T] {c : Cmd W ε β} {k : β → Cmd W ε α}
    (h : Ends c w (fun b w' => ∃ g', T (g, w) (g', w') ∧ Settles T D F (k b) g' w')
      (fun _ w' => ∃ g', F g' ∧ T (g, w) (g', w')) (fun w' => ∃ g', T (g, w) (g', w'))) :
    Settles T D F (c >>= k) g w := by
  refine ends_bind.mpr (h.mono ?_ (fun _ _ h => h) (fun _ h => h))
  rintro b w' ⟨g', ht, hk⟩
  have hstep : ∀ {p : G → Prop} w'', (∃ g'', p g'' ∧ T (g', w') (g'', w'')) →
      ∃ g'', p g'' ∧ T (g, w) (g'', w'') := by
    rintro p w'' ⟨g'', hd, h⟩
    exact ⟨g'', hd, IsTrans.trans _ _ _ ht h⟩
  refine hk.mono (fun _ w'' => hstep w'') (fun _ w'' => hstep w'') ?_
  rintro w'' ⟨g'', h⟩
  exact ⟨g'', IsTrans.trans _ _ _ ht h⟩

end Settles

theorem ok_of_toOption {ε α : Type} {x : Except ε α} {a : α} (h : a ∈ x.toOption) : x = .ok a := by
  cases x with
  | error => cases h
  | ok => exact congrArg Except.ok (Option.some.inj h)

theorem bind_eq_ok {ε α β : Type} {x : Except ε α} {f : α → Except ε β} {b : β} :
    (x >>= f) = .ok b ↔ ∃ a, x = .ok a ∧ f a = .ok b := by
  cases x with
  | error e => exact ⟨fun h => (nomatch h), fun ⟨_, h, _⟩ => (nomatch h)⟩
  | ok a => exact ⟨fun h => ⟨a, rfl, h⟩, fun ⟨_, h, hb⟩ => by cases h; exact hb⟩

end Aok.Lib.Command
