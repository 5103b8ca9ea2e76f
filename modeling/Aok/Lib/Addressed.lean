import Aok.Lib.Table

/-!
# Tables of values under their addresses

Values are stored under addresses computed from them, and a value whose address is taken
is not stored again. As long as the addresses of the stored values do not collide, such a
table only grows and gives back what was put into it.
-/

namespace Aok.Lib.Table
open Std

variable {κ α : Type} [Ord κ] [TransOrd κ] [LawfulEqOrd κ] [DecidableEq κ]

def Extends (t t' : Table κ α) : Prop := ∀ (k : κ) (v : α), t[k]? = some v → t'[k]? = some v

/-- The entries lie under their addresses and belong to a set of values. -/
structure Addressed (address : α → κ) (D : Set α) (t : Table κ α) : Prop where
  address_eq : ∀ (k : κ) (v : α), t[k]? = some v → address v = k
  mem : ∀ (k : κ) (v : α), t[k]? = some v → v ∈ D

def insertNew (k : κ) (v : α) (t : Table κ α) : Table κ α := if t.contains k then t else t.insert k v

variable {address : α → κ} {D : Set α} {t t' t'' : Table κ α} {k : κ} {v : α}

omit [LawfulEqOrd κ] [DecidableEq κ] in
theorem Extends.refl (t : Table κ α) : Extends t t := fun _ _ h => h

omit [LawfulEqOrd κ] [DecidableEq κ] in
theorem Extends.trans (h : Extends t t') (h' : Extends t' t'') : Extends t t'' :=
  fun k v hv => h' k v (h k v hv)

theorem get_insertNew (t : Table κ α) (k a : κ) (v : α) :
    (t.insertNew k v)[a]? = if k = a ∧ t[k]? = none then some v else t[a]? := by
  have hnew : t.contains k = true ↔ t[k]? ≠ none := by simp
  unfold insertNew
  by_cases hk : t[k]? = none
  · rw [if_neg (by simp only [hnew, hk]; simp), get_insert]
    simp [hk]
  · rw [if_pos (hnew.mpr hk)]
    simp [hk]

theorem extends_insertNew (t : Table κ α) (k : κ) (v : α) : Extends t (t.insertNew k v) := by
  intro a u hu
  rw [get_insertNew, if_neg, hu]
  rintro ⟨rfl, hnone⟩
  simp [hnone] at hu

theorem Addressed.insertNew (h : Addressed address D t) (hv : v ∈ D) :
    Addressed address D (t.insertNew (address v) v) := by
  have hsplit : ∀ k u, (t.insertNew (address v) v)[k]? = some u →
      (address v = k ∧ u = v) ∨ t[k]? = some u := by
    intro k u hu
    rw [get_insertNew] at hu
    split_ifs at hu with hk
    · exact .inl ⟨hk.1, (Option.some.inj hu).symm⟩
    · exact .inr hu
  refine ⟨fun k u hu => ?_, fun k u hu => ?_⟩
  · rcases hsplit k u hu with ⟨hk, rfl⟩ | hu
    exacts [hk, h.address_eq k u hu]
  · rcases hsplit k u hu with ⟨-, rfl⟩ | hu
    exacts [hv, h.mem k u hu]

theorem Addressed.get_insertNew (h : Addressed address D t) (hinj : Set.InjOn address D)
    (hv : v ∈ D) : (t.insertNew (address v) v)[address v]? = some v := by
  rw [Table.get_insertNew]
  split_ifs with hk
  · rfl
  · cases hu : t[address v]? with
    | none => exact absurd ⟨rfl, hu⟩ hk
    | some u => rw [hinj (h.mem _ u hu) hv (h.address_eq _ u hu)]

end Aok.Lib.Table
