import Mathlib

/-!
# Sliding windows

A limiter keeps the times of what it let through, drops those that its window has passed before it
looks at the next, and lets that through if fewer than the limit are left. The list is filtered in
place, over the array it is read from.
-/

namespace Aok.Lib.Window

/-! ## Filtering in place -/

section

variable {α : Type} {keep : α → Bool} {array : List α} {i j n : ℕ}

/-- The next element to read is `i`, the next to write is `j`, and `n` are still to be read. -/
def filterFrom (keep : α → Bool) (array : List α) (i j : ℕ) : ℕ → List α
  | 0 => array.take j
  | n + 1 =>
    match array[i]? with
    | some x =>
      if keep x then filterFrom keep (array.set j x) (i + 1) (j + 1) n
      else filterFrom keep array (i + 1) j n
    | none => array.take j

def filterInPlace (keep : α → Bool) (array : List α) : List α :=
  filterFrom keep array 0 0 array.length

/-- What is still to be read lies behind what is written. -/
theorem filterFrom_eq (hj : j ≤ i) (hn : i + n = array.length) :
    filterFrom keep array i j n = array.take j ++ (array.drop i).filter keep := by
  induction n generalizing array i j with
  | zero =>
    have hnil : array.drop i = [] := List.drop_eq_nil_of_le hn.ge
    simp [filterFrom, hnil]
  | succ n ih =>
    have hi : i < array.length := by omega
    rw [filterFrom, List.getElem?_eq_getElem hi, List.drop_eq_getElem_cons hi, List.filter_cons]
    dsimp only
    split_ifs
    · have hset : (array.set j array[i]).take (j + 1) = array.take j ++ [array[i]] := by
        rw [List.take_add_one, List.getElem?_set_self (by omega), List.take_set_of_le le_rfl]
        rfl
      rw [ih (by omega) (by rw [List.length_set]; omega), hset, List.drop_set_of_lt (by omega),
        List.append_assoc]
      rfl
    · exact ih (by omega) (by omega)

theorem filterInPlace_eq : filterInPlace keep array = array.filter keep :=
  filterFrom_eq le_rfl (Nat.zero_add _)

end

/-! ## The limit -/

variable {limit : ℕ} {window now next : ℤ} {kept made : List ℤ}

/-- A limiter after its check at `now`. -/
structure Limits (limit : ℕ) (window now : ℤ) (kept made : List ℤ) : Prop where
  past : ∀ t ∈ made, t ≤ now
  kept : kept = made.filter (now - · < window)
  bound : ∀ x, (made.filter fun t => x ≤ t ∧ t < x + window).length ≤ limit

theorem Limits.later (h : Limits limit window now kept made) (hle : now ≤ next) :
    Limits limit window next (kept.filter (next - · < window)) made := by
  refine ⟨fun t ht => (h.past t ht).trans hle, ?_, h.bound⟩
  rw [h.kept, List.filter_filter]
  refine List.filter_congr fun t _ => Bool.eq_iff_iff.mpr ?_
  simp only [Bool.and_eq_true, decide_eq_true_eq]
  omega

/-- A window that holds `now` holds nothing before it that the check has dropped. -/
theorem Limits.add (h : Limits limit window now kept made) (hw : 0 < window)
    (hroom : kept.length < limit) : Limits limit window now (kept ++ [now]) (made ++ [now]) := by
  refine ⟨?_, ?_, fun x => ?_⟩
  · intro t ht
    obtain ht | rfl := by simpa using ht
    · exact h.past t ht
    · exact le_rfl
  · simp [h.kept, hw]
  · rw [List.filter_append, List.length_append]
    by_cases hx : x ≤ now ∧ now < x + window
    · have hsub : (made.filter fun t => x ≤ t ∧ t < x + window).length ≤ kept.length := by
        rw [h.kept]
        refine (List.monotone_filter_right made fun t ht => ?_).length_le
        simp only [decide_eq_true_eq] at ht ⊢
        omega
      simpa [hx] using hsub.trans_lt hroom
    · simpa [hx] using h.bound x

theorem Limits.length_kept (h : Limits limit window now kept made) :
    kept.length = (made.filter fun t => now - window < t ∧ t ≤ now).length := by
  rw [h.kept]
  congr 1
  refine List.filter_congr fun t ht => decide_eq_decide.mpr ?_
  have := h.past t ht
  omega

end Aok.Lib.Window
