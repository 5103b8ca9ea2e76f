import Mathlib

/-!
# Queues over preallocated slots

A fixed number of cells, each with a mark that it is in use, and a list that links the cells in
use in the order of their arrival. What such a queue holds is a plain list, its `view`.
-/

namespace Aok.Lib
open List

structure SlotQueue (α : Type) (depth : ℕ) where
  used : Fin depth → Bool
  cell : Fin depth → α
  pending : List (Fin depth)
  live : ℕ

namespace SlotQueue

variable {α : Type} {depth : ℕ} {q q' : SlotQueue α depth} {x y : α} {i : Fin depth}

def empty (x : α) : SlotQueue α depth := ⟨fun _ => false, fun _ => x, [], 0⟩

def view (q : SlotQueue α depth) : List α := q.pending.map q.cell

def free (q : SlotQueue α depth) : Option (Fin depth) :=
  (finRange depth).find? fun i => !q.used i

def put (q : SlotQueue α depth) (i : Fin depth) (x : α) : SlotQueue α depth :=
  { q with
    used := Function.update q.used i true
    cell := Function.update q.cell i x
    pending := q.pending ++ [i] }

def push (q : SlotQueue α depth) (x : α) : Option (SlotQueue α depth) :=
  q.free.map fun i => { q.put i x with live := q.live + 1 }

def remove (q : SlotQueue α depth) (p : α → Bool) : Option (α × SlotQueue α depth) :=
  (q.pending.find? fun i => p (q.cell i)).map fun i =>
    (q.cell i, { q with
      used := Function.update q.used i false
      pending := q.pending.erase i
      live := q.live - 1 })

def fillFrom (q : SlotQueue α depth) (n : ℕ) : List α → SlotQueue α depth
  | [] => q
  | x :: xs => if h : n < depth then (q.put ⟨n, h⟩ x).fillFrom (n + 1) xs else q

def fill (q : SlotQueue α depth) (xs : List α) : SlotQueue α depth :=
  { q.fillFrom 0 xs with live := xs.length }

structure Ok (q : SlotQueue α depth) : Prop where
  nodup : q.pending.Nodup
  used : ∀ i, q.used i = true ↔ i ∈ q.pending
  live : q.live = q.pending.length

theorem ok_empty (x : α) : (empty x : SlotQueue α depth).Ok :=
  ⟨nodup_nil, by simp [empty], rfl⟩

theorem length_view (q : SlotQueue α depth) : q.view.length = q.pending.length := by
  simp [view]

theorem Ok.live_eq (h : q.Ok) : q.live = q.view.length := h.live.trans q.length_view.symm

theorem Ok.live_le (h : q.Ok) : q.live ≤ depth := by
  rw [h.live]
  simpa using h.nodup.length_le_card

theorem Ok.card_used (h : q.Ok) : (Finset.univ.filter fun i => q.used i = true).card = q.live := by
  have heq : (Finset.univ.filter fun i => q.used i = true) = q.pending.toFinset := by
    ext i
    simp [h.used i]
  rw [heq, toFinset_card_of_nodup h.nodup, h.live]

theorem Ok.exists_free (h : q.Ok) (hlt : q.live < depth) : ∃ i, q.free = some i := by
  cases hf : q.free with
  | some i => exact ⟨i, rfl⟩
  | none =>
    have hall : ∀ i, i ∈ q.pending := by
      intro i
      have hi := find?_eq_none.mp hf i (mem_finRange i)
      exact (h.used i).mp (by simpa using hi)
    have hcard : depth ≤ q.pending.length := by
      have hsub := Finset.card_le_card (fun i _ => mem_toFinset.mpr (hall i) :
        (Finset.univ : Finset (Fin depth)) ⊆ q.pending.toFinset)
      rw [toFinset_card_of_nodup h.nodup] at hsub
      simpa using hsub
    have hlive := h.live
    omega

theorem not_used_of_free (h : q.free = some i) : q.used i = false := by
  simpa using find?_some h

theorem put_view (hi : i ∉ q.pending) : (q.put i x).view = q.view ++ [x] := by
  have hcell : ∀ j ∈ q.pending, Function.update q.cell i x j = q.cell j := by
    intro j hj
    have hne : j ≠ i := fun heq => hi (heq ▸ hj)
    exact Function.update_of_ne hne _ _
  simp only [view, put, map_append, map_cons, map_nil, Function.update_self]
  rw [map_congr_left hcell]

theorem put_used (hu : ∀ j, q.used j = true ↔ j ∈ q.pending) (i : Fin depth) (x : α)
    (j : Fin depth) : (q.put i x).used j = true ↔ j ∈ (q.put i x).pending := by
  by_cases hj : j = i
  · simp [put, hj]
  · simp [put, hj, hu j]

theorem put_nodup (hq : q.pending.Nodup) (hi : i ∉ q.pending) (x : α) :
    (q.put i x).pending.Nodup := by
  refine nodup_append.mpr ⟨hq, nodup_singleton i, ?_⟩
  intro a ha b hb heq
  rw [mem_singleton.mp hb] at heq
  exact hi (heq ▸ ha)

theorem Ok.push (h : q.Ok) (hp : q.push x = some q') :
    q'.Ok ∧ q'.view = q.view ++ [x] ∧ q'.live = q.live + 1 := by
  obtain ⟨i, hi, rfl⟩ := Option.map_eq_some_iff.mp hp
  have hnot : i ∉ q.pending := by
    rw [← h.used i, not_used_of_free hi]
    simp
  refine ⟨⟨put_nodup h.nodup hnot x, put_used h.used i x, ?_⟩, put_view hnot, rfl⟩
  simp [put, h.live]

theorem remove_eq_none (q : SlotQueue α depth) (p : α → Bool) :
    q.remove p = none ↔ ∀ x ∈ q.view, p x = false := by
  simp [remove, view]

theorem map_erase_find {p : α → Bool} {l : List (Fin depth)} (f : Fin depth → α) (hl : l.Nodup)
    (h : (l.find? fun j => p (f j)) = some i) : (l.erase i).map f = (l.map f).eraseP p := by
  induction l with
  | nil => cases h
  | cons j l ih =>
    rw [find?_cons] at h
    by_cases hj : p (f j) = true
    · rw [hj] at h
      cases h
      simp [hj]
    · rw [Bool.eq_false_of_not_eq_true hj] at h
      dsimp only at h
      have hpi : p (f i) = true := by simpa using find?_some h
      have hne : j ≠ i := fun heq => hj (heq ▸ hpi)
      rw [erase_cons_tail (by simpa using hne), map_cons, map_cons,
        eraseP_cons_of_neg hj, ih hl.of_cons h]

theorem eraseP_eq_erase [DecidableEq α] {p : α → Bool} {l : List α} (h : l.find? p = some x) :
    l.eraseP p = l.erase x := by
  induction l with
  | nil => cases h
  | cons y l ih =>
    rw [find?_cons] at h
    by_cases hy : p y = true
    · rw [hy] at h
      cases h
      rw [eraseP_cons_of_pos hy, erase_cons_head]
    · rw [Bool.eq_false_of_not_eq_true hy] at h
      dsimp only at h
      have hne : y ≠ x := fun heq => hy (heq ▸ find?_some h)
      rw [eraseP_cons_of_neg hy, erase_cons_tail (by simpa using hne), ih h]

theorem Ok.remove {p : α → Bool} (h : q.Ok) (hr : q.remove p = some (y, q')) :
    q'.Ok ∧ q.view.find? p = some y ∧ q'.view = q.view.eraseP p ∧ q'.live + 1 = q.live := by
  obtain ⟨i, hi, heq⟩ := Option.map_eq_some_iff.mp hr
  cases heq
  have hmem := mem_of_find?_eq_some hi
  have hpos := length_pos_of_mem hmem
  have hfind : q.view.find? p = some (q.cell i) := by
    rw [view, find?_map]
    exact Option.map_eq_some_iff.mpr ⟨i, hi, rfl⟩
  refine ⟨⟨h.nodup.erase i, ?_, ?_⟩, hfind, map_erase_find q.cell h.nodup hi, ?_⟩
  · intro j
    by_cases hj : j = i
    · simp [hj, h.nodup.not_mem_erase]
    · simp [hj, h.used j, mem_erase_of_ne hj]
  · simp only [length_erase_of_mem hmem, h.live]
  · have hlive := h.live
    simp only
    omega

theorem fillFrom_spec (xs : List α) (n : ℕ) (q : SlotQueue α depth) (hn : n + xs.length ≤ depth)
    (hnodup : q.pending.Nodup) (hused : ∀ j, q.used j = true ↔ j ∈ q.pending)
    (hlt : ∀ j ∈ q.pending, j.val < n) :
    (q.fillFrom n xs).pending.Nodup ∧
      (∀ j, (q.fillFrom n xs).used j = true ↔ j ∈ (q.fillFrom n xs).pending) ∧
      (q.fillFrom n xs).view = q.view ++ xs := by
  induction xs generalizing n q with
  | nil => exact ⟨hnodup, hused, by simp [fillFrom]⟩
  | cons x xs ih =>
    have hn' : n < depth := by
      rw [length_cons] at hn
      omega
    have hnot : (⟨n, hn'⟩ : Fin depth) ∉ q.pending := fun hmem => lt_irrefl _ (hlt _ hmem)
    rw [fillFrom, dif_pos hn']
    have hlt' : ∀ j ∈ (q.put ⟨n, hn'⟩ x).pending, j.val < n + 1 := by
      intro j hj
      rcases mem_append.mp hj with hj | hj
      · exact Nat.lt_succ_of_lt (hlt j hj)
      · rw [mem_singleton.mp hj]
        exact Nat.lt_succ_self n
    have hlen : n + 1 + xs.length ≤ depth := by
      rw [length_cons] at hn
      omega
    obtain ⟨h₁, h₂, h₃⟩ := ih (n + 1) (q.put ⟨n, hn'⟩ x) hlen (put_nodup hnodup hnot x)
      (put_used hused _ x) hlt'
    refine ⟨h₁, h₂, ?_⟩
    rw [h₃, put_view hnot, append_assoc]
    rfl

theorem Ok.fill (h : q.Ok) (hempty : q.live = 0) {xs : List α} (hxs : xs.length ≤ depth) :
    (q.fill xs).Ok ∧ (q.fill xs).view = xs := by
  have hnil : q.pending = [] := eq_nil_of_length_eq_zero (h.live.symm.trans hempty)
  obtain ⟨h₁, h₂, h₃⟩ := fillFrom_spec xs 0 q (by omega) h.nodup h.used (by simp [hnil])
  have hview : (q.fill xs).view = xs := by
    refine h₃.trans ?_
    simp [view, hnil]
  refine ⟨⟨h₁, h₂, ?_⟩, hview⟩
  exact (congrArg length hview).symm.trans (length_view _)

end SlotQueue
end Aok.Lib
