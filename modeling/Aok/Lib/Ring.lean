import Mathlib

/-!
# Rings that keep the end of a log

A ring of `n` slots written round after round holds the last `n` records of everything written.
-/

namespace Aok.Lib.Ring

variable {α : Type} {n : ℕ} {log : List α} {ring : Vector α n}

def Keeps (log : List α) (ring : Vector α n) : Prop :=
  ∀ i < log.length, log.length ≤ i + n → ring[i % n]? = log[i]?

theorem keeps_nil (ring : Vector α n) : Keeps [] ring := fun _ h => absurd h (Nat.not_lt_zero _)

theorem mod_ne_mod {i j : ℕ} (hij : i < j) (hn : j < i + n) : i % n ≠ j % n := by
  intro he
  have hd : n ∣ j - i := (Nat.modEq_iff_dvd' hij.le).mp he
  have hle := Nat.le_of_dvd (by omega) hd
  omega

theorem Keeps.push (h : Keeps log ring) (x : α) (hb : log.length % n < n) :
    Keeps (log ++ [x]) (ring.set (log.length % n) x hb) := by
  intro i hi hlast
  simp only [List.length_append, List.length_singleton] at hi hlast
  rcases Nat.lt_succ_iff_lt_or_eq.mp hi with hlt | rfl
  · have hne : log.length % n ≠ i % n := (mod_ne_mod hlt (by omega)).symm
    rw [Vector.getElem?_set_ne hb hne, List.getElem?_append_left hlt]
    exact h i hlt (by omega)
  · simp [Vector.getElem?_set_self]

end Aok.Lib.Ring
