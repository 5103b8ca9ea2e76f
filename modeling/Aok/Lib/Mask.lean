import Mathlib

/-!
# Words as sets of bits
-/

namespace Aok.Lib.Mask

variable {x y z : UInt64}

def Within (x y : UInt64) : Prop := x &&& ~~~ y = 0

instance (x y : UInt64) : Decidable (Within x y) := inferInstanceAs (Decidable (_ = _))

theorem within_iff : Within x y ↔
    ∀ i : ℕ, x.toBitVec.getLsbD i = true → y.toBitVec.getLsbD i = true := by
  have heq : Within x y ↔ x.toBitVec &&& ~~~ y.toBitVec = 0#64 := UInt64.toBitVec_inj.symm
  rw [heq, BitVec.eq_of_getLsbD_eq_iff]
  simp only [BitVec.getLsbD_and, BitVec.getLsbD_not, BitVec.getLsbD_zero]
  constructor
  · intro h i hx
    have hi : i < 64 := BitVec.lt_of_getLsbD hx
    simpa [hx, hi] using h i hi
  · intro h i hi
    cases hx : x.toBitVec.getLsbD i with
    | false => rfl
    | true => simp [h i hx, hi]

theorem Within.refl (x : UInt64) : Within x x := within_iff.mpr fun _ h => h

theorem Within.trans (h : Within x y) (h' : Within y z) : Within x z :=
  within_iff.mpr fun i hi => within_iff.mp h' i (within_iff.mp h i hi)

theorem Within.or_right (h : Within x z) : Within x (y ||| z) :=
  within_iff.mpr fun i hi => by simp [within_iff.mp h i hi]

theorem Within.or_left (h : Within x y) : Within x (y ||| z) :=
  within_iff.mpr fun i hi => by simp [within_iff.mp h i hi]

theorem and_eq_right_iff : x &&& y = y ↔ Within y x := by
  rw [within_iff, ← UInt64.toBitVec_inj, BitVec.eq_of_getLsbD_eq_iff]
  simp only [UInt64.toBitVec_and, BitVec.getLsbD_and]
  constructor
  · intro h i hy
    have hi := h i (BitVec.lt_of_getLsbD hy)
    simpa [hy] using hi
  · intro h i hi
    cases hy : y.toBitVec.getLsbD i with
    | false => simp
    | true => simp [h i hy]

end Aok.Lib.Mask
