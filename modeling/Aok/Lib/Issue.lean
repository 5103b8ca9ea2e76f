import Mathlib

/-!
# Numbers that are given out once

A counter only grows, and what is added to a list gets its id from the numbers the counter passes.
Entries may be dropped from the list at any time. Then the ids in the list differ, and an id that
was once in the list is never given to another entry.
-/

namespace Aok.Lib.Issue
open scoped List

variable {α ι : Type*} (id : α → ι) (tag : α → ℕ → ι)

/-- The ids stem from numbers up to `n` and differ. -/
structure Kept (n : ℕ) (l : List α) : Prop where
  numbered : ∀ x ∈ l, ∃ i ≤ n, id x = tag x i
  distinct : (l.map id).Nodup

/-- While the counter goes from `n` to `n'`, entries are dropped and entries with the numbers
passed are added. -/
structure Issues (n n' : ℕ) (l l' : List α) : Prop where
  le : n ≤ n'
  items : ∃ new, (new.map id).Nodup ∧ (∀ x ∈ new, ∃ i, n < i ∧ i ≤ n' ∧ id x = tag x i) ∧
    l' <+~ l ++ new

variable {id tag} {n n' n'' i : ℕ} {l l' l'' : List α} {x y : α}

theorem Issues.drop (hn : n ≤ n') (h : l' <+~ l) : Issues id tag n n' l l' :=
  ⟨hn, [], by simp, by simp, by simpa using h⟩

theorem Issues.add (hn : n < n') (hx : id x = tag x (n + 1)) (h : l' <+~ l ++ [x]) :
    Issues id tag n n' l l' :=
  ⟨hn.le, [x], by simp, by simpa using ⟨n + 1, Nat.lt_succ_self n, hn, hx⟩, h⟩

theorem nodup_of_subperm (h : (l.map id).Nodup) (hs : l' <+~ l) : (l'.map id).Nodup := by
  obtain ⟨m, hm, hsub⟩ := hs
  exact ((hm.map id).nodup_iff).mp (h.sublist (hsub.map id))

variable (htag : ∀ x y i j, tag x i = tag y j → i = j)
include htag

theorem Issues.trans (h : Issues id tag n n' l l') (h' : Issues id tag n' n'' l' l'') :
    Issues id tag n n'' l l'' := by
  obtain ⟨new, hnew, hnum, hsub⟩ := h.items
  obtain ⟨new', hnew', hnum', hsub'⟩ := h'.items
  refine ⟨h.le.trans h'.le, new ++ new', ?_, fun x hx => ?_, ?_⟩
  · rw [List.map_append]
    refine hnew.append hnew' fun k hk hk' => ?_
    obtain ⟨x, hx, rfl⟩ := List.mem_map.mp hk
    obtain ⟨y, hy, he⟩ := List.mem_map.mp hk'
    obtain ⟨i, -, hi, hxi⟩ := hnum x hx
    obtain ⟨j, hj, -, hyj⟩ := hnum' y hy
    have hij := htag y x j i (hyj.symm.trans (he.trans hxi))
    omega
  · rcases List.mem_append.mp hx with hx | hx
    · obtain ⟨i, hi, hle, hid⟩ := hnum x hx
      exact ⟨i, hi, hle.trans h'.le, hid⟩
    · obtain ⟨i, hi, hle, hid⟩ := hnum' x hx
      exact ⟨i, h.le.trans_lt hi, hle, hid⟩
  · rw [← List.append_assoc]
    exact hsub'.trans (hsub.append (.refl new'))

theorem Issues.mem_of_numbered (h : Issues id tag n n' l l') (hy : y ∈ l') (hi : i ≤ n)
    (hid : id y = tag y i) : y ∈ l := by
  obtain ⟨new, -, hnum, hsub⟩ := h.items
  rcases List.mem_append.mp (hsub.subset hy) with hmem | hmem
  · exact hmem
  · obtain ⟨j, hj, -, hyj⟩ := hnum y hmem
    have hij := htag y y i j (hid.symm.trans hyj)
    omega

theorem Kept.issues (hk : Kept id tag n l) (h : Issues id tag n n' l l') : Kept id tag n' l' := by
  obtain ⟨new, hnew, hnum, hsub⟩ := h.items
  constructor
  · intro x hx
    rcases List.mem_append.mp (hsub.subset hx) with hx | hx
    · obtain ⟨i, hi, hid⟩ := hk.numbered x hx
      exact ⟨i, hi.trans h.le, hid⟩
    · obtain ⟨i, -, hi, hid⟩ := hnum x hx
      exact ⟨i, hi, hid⟩
  · refine nodup_of_subperm ?_ hsub
    rw [List.map_append]
    refine hk.distinct.append hnew fun k hk' hnew' => ?_
    obtain ⟨x, hx, rfl⟩ := List.mem_map.mp hk'
    obtain ⟨y, hy, he⟩ := List.mem_map.mp hnew'
    obtain ⟨i, hi, hxi⟩ := hk.numbered x hx
    obtain ⟨j, hj, -, hyj⟩ := hnum y hy
    have hij := htag y x j i (hyj.symm.trans (he.trans hxi))
    omega

theorem Kept.eq_of_id_eq (hk : Kept id tag n l) (h : Issues id tag n n' l l') (hx : x ∈ l)
    (hy : y ∈ l') (hid : id y = id x) : y = x := by
  obtain ⟨i, hi, hxi⟩ := hk.numbered x hx
  have hkept := hk.issues htag h
  obtain ⟨j, hj, hyj⟩ := hkept.numbered y hy
  have hij : j = i := htag y x j i (hyj.symm.trans (hid.trans hxi))
  have hmem := h.mem_of_numbered htag hy (hij ▸ hi) hyj
  exact List.inj_on_of_nodup_map hk.distinct hmem hx hid

end Aok.Lib.Issue
