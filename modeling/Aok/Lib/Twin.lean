import Aok.Lib.Command

/-!
# Two commands side by side

Two commands are twins, for a relation on worlds and one on values, when from related worlds they
end alike: both with related values, both with the same error or both cut off, and in related
worlds. The rules take two commands apart from the front at the same time.
-/

namespace Aok.Lib.Command

variable {W ε α β : Type} {R : W → W → Prop} {V : α → α → Prop} {U : β → β → Prop}

inductive Alike (R : W → W → Prop) (V : α → α → Prop) :
    Outcome ε α × W → Outcome ε α × W → Prop
  | ok {a b : α} {w v : W} (value : V a b) (world : R w v) : Alike R V (.ok a, w) (.ok b, v)
  | error {e : ε} {w v : W} (world : R w v) : Alike R V (.error e, w) (.error e, v)
  | stop {w v : W} (world : R w v) : Alike R V (.stop, w) (.stop, v)

def Twin (R : W → W → Prop) (V : α → α → Prop) (c d : Cmd W ε α) : Prop :=
  ∀ ⦃w v⦄, R w v → Alike R V (c w) (d v)

namespace Twin

theorem pure {a b : α} (h : V a b) : Twin R V (Pure.pure a : Cmd W ε α) (Pure.pure b) :=
  fun _ _ hr => .ok h hr

theorem fail {e : ε} : Twin R V (Command.fail e : Cmd W ε α) (Command.fail e) :=
  fun _ _ hr => .error hr

theorem halt : Twin R V (Command.halt : Cmd W ε α) Command.halt :=
  fun _ _ hr => .stop hr

theorem ask {f g : W → α} (h : ∀ w v, R w v → V (f w) (g v)) :
    Twin R V (Command.ask f : Cmd W ε α) (Command.ask g) :=
  fun w v hr => .ok (h w v hr) hr

theorem modify {f g : W → W} (h : ∀ w v, R w v → R (f w) (g v)) :
    Twin R Eq (Command.modify f : Cmd W ε Unit) (Command.modify g) :=
  fun w v hr => .ok rfl (h w v hr)

theorem bind {c d : Cmd W ε α} {f g : α → Cmd W ε β} (h : Twin R V c d)
    (hnext : ∀ a b, V a b → Twin R U (f a) (g b)) : Twin R U (c >>= f) (d >>= g) := by
  intro w v hr
  have hcd := h hr
  change Alike R U (Cmd.bind c f w) (Cmd.bind d g v)
  unfold Cmd.bind
  generalize c w = x at hcd ⊢
  generalize d v = y at hcd ⊢
  cases hcd with
  | ok hv hr => exact hnext _ _ hv hr
  | error hr => exact .error hr
  | stop hr => exact .stop hr

theorem bind_eq {c d : Cmd W ε α} {f g : α → Cmd W ε β} (h : Twin R Eq c d)
    (hnext : ∀ a, Twin R U (f a) (g a)) : Twin R U (c >>= f) (d >>= g) :=
  h.bind fun a _ hab => hab ▸ hnext a

end Twin
end Aok.Lib.Command
