import Mathlib

/-!
# Paths and their segments

A rooted path is spelled from its segments with a separator before each of them. As segments
have no separator in them the spelling can be read back, and to extend a path by whole
segments is to extend its spelling behind a separator.
-/

namespace Aok.Lib.Segments
open List

variable {α : Type} {sep : α}
variable {xs ys : List (List α)}

def spell (sep : α) (xs : List (List α)) : List α := xs.flatMap fun x => sep :: x

@[simp] theorem spell_nil : spell sep [] = [] := rfl

@[simp] theorem spell_cons (x : List α) (xs : List (List α)) :
    spell sep (x :: xs) = sep :: (x ++ spell sep xs) := by
  simp [spell]

theorem spell_append (xs ys : List (List α)) :
    spell sep (xs ++ ys) = spell sep xs ++ spell sep ys :=
  flatMap_append

theorem cons_intercalate (h : xs ≠ []) :
    sep :: [sep].intercalate xs = spell sep xs := by
  induction xs with
  | nil => exact absurd rfl h
  | cons x xs ih =>
    cases xs with
    | nil => simp [intercalate]
    | cons y ys =>
      have h' := ih (by simp)
      rw [spell_cons, ← h']
      simp [intercalate]

theorem head?_spell (xs : List (List α)) : spell sep xs = [] ∨ (spell sep xs).head? = some sep := by
  cases xs with
  | nil => exact .inl rfl
  | cons x xs => exact .inr (by simp)

def Split (sep : α) (xs : List (List α)) : Prop := ∀ x ∈ xs, sep ∉ x

theorem split_nil : Split sep [] := by simp [Split]

theorem Split.of_cons {x : List α} (h : Split sep (x :: xs)) :
    sep ∉ x ∧ Split sep xs :=
  forall_mem_cons.mp h

section Reading
variable [DecidableEq α]

theorem splitOn_spell (h : Split sep xs) :
    (spell sep xs).splitOn sep = [] :: xs := by
  have hspell : spell sep xs = [sep].intercalate ([] :: xs) := by
    cases xs with
    | nil => rfl
    | cons x xs =>
      rw [← cons_intercalate (by simp)]
      simp [intercalate]
  rw [hspell]
  exact splitOn_intercalate _ (by simpa [Split] using h) (by simp)

theorem split_splitOn (p : List α) : Split sep (p.splitOn sep) := by
  induction p with
  | nil => simp [Split]
  | cons a p ih =>
    simp only [splitOn, splitOnP_cons_eq_if_modifyHead] at ih ⊢
    split_ifs with ha
    · exact forall_mem_cons.mpr ⟨by simp, ih⟩
    · cases hp : p.splitOnP (· == sep) with
      | nil => exact absurd hp (splitOnP_ne_nil _ _)
      | cons x xs =>
        rw [hp] at ih
        obtain ⟨hx, hxs⟩ := ih.of_cons
        have hne : sep ≠ a := fun h => ha (by simp [h])
        exact forall_mem_cons.mpr ⟨by simp [hne, hx], hxs⟩

theorem exists_spell {p : List α} (h : p.head? = some sep) :
    ∃ xs, xs ≠ [] ∧ Split sep xs ∧ p = spell sep xs := by
  obtain ⟨p, rfl⟩ : ∃ q, p = sep :: q := by
    cases p with
    | nil => simp at h
    | cons a p => exact ⟨p, by simpa using h⟩
  have hne : p.splitOn sep ≠ [] := splitOnP_ne_nil _ _
  refine ⟨p.splitOn sep, hne, split_splitOn p, ?_⟩
  rw [← cons_intercalate hne, intercalate_splitOn]

theorem eq_and_prefix {x y r t : List α} (hx : sep ∉ x) (hy : sep ∉ y)
    (ht : t = [] ∨ t.head? = some sep) : x ++ sep :: r <+: y ++ t ↔ x = y ∧ sep :: r <+: t := by
  constructor
  · rintro ⟨q, hq⟩
    have hbefore : ∀ {z : List α} (u : List α), sep ∉ z →
        (z ++ u).takeWhile (· ≠ sep) = z ++ u.takeWhile (· ≠ sep) := by
      intro z u hz
      refine takeWhile_append_of_pos fun a ha => ?_
      have : a ≠ sep := fun h => hz (h ▸ ha)
      simpa using this
    have htake : t.takeWhile (· ≠ sep) = [] := by
      rcases ht with rfl | ht
      · rfl
      · cases t with
        | nil => rfl
        | cons a t =>
          obtain rfl : a = sep := by simpa using ht
          simp
    have heq : x = y := by
      have h := congrArg (takeWhile (· ≠ sep)) hq
      rw [append_assoc, hbefore _ hx, hbefore _ hy, htake] at h
      simpa using h
    subst heq
    rw [append_assoc] at hq
    exact ⟨rfl, q, append_cancel_left hq⟩
  · rintro ⟨rfl, h⟩
    exact (prefix_append_right_inj x).mpr h

theorem spell_prefix_iff (hx : Split sep xs) (hy : Split sep ys) :
    spell sep xs ++ [sep] <+: spell sep ys ↔ xs <+: ys ∧ xs ≠ ys := by
  induction xs generalizing ys with
  | nil =>
    cases ys with
    | nil => simp
    | cons y ys => simp
  | cons x xs ih =>
    cases ys with
    | nil => simp
    | cons y ys =>
      obtain ⟨hx, hxs⟩ := hx.of_cons
      obtain ⟨hy, hys⟩ := hy.of_cons
      -- the rest of the shorter spelling starts with a separator
      obtain ⟨r, hr⟩ : ∃ r, spell sep xs ++ [sep] = sep :: r := by
        cases xs with
        | nil => exact ⟨[], rfl⟩
        | cons z zs => exact ⟨z ++ (spell sep zs ++ [sep]), by simp⟩
      rw [spell_cons, spell_cons, cons_append, append_assoc, hr,
        cons_prefix_cons, eq_and_prefix hx hy (head?_spell ys), ← hr, ih hxs hys,
        cons_prefix_cons]
      simp only [true_and, ne_eq, List.cons.injEq, not_and]
      tauto

theorem spell_injective (hx : Split sep xs) (hy : Split sep ys)
    (h : spell sep xs = spell sep ys) : xs = ys := by
  have hsplit := congrArg (splitOn sep) h
  rw [splitOn_spell hx, splitOn_spell hy] at hsplit
  exact (List.cons.inj hsplit).2

theorem spell_below_iff (hx : Split sep xs) (hy : Split sep ys) :
    spell sep ys = spell sep xs ∨ spell sep xs ++ [sep] <+: spell sep ys ↔ xs <+: ys := by
  rw [spell_prefix_iff hx hy]
  constructor
  · rintro (h | h)
    · exact spell_injective hy hx h ▸ prefix_rfl
    · exact h.1
  · intro h
    by_cases heq : xs = ys
    · exact .inl (heq ▸ rfl)
    · exact .inr ⟨h, heq⟩

end Reading

end Aok.Lib.Segments
