import Mathlib

/-!
# Forests of parent pointers

Nodes are numbers, and a parent is older than its children. The path of a node leads from it
to its root; weights that are placed on nodes add up along the paths.
-/

namespace Aok.Lib.Forest
open List

variable {parent parent' : ℕ → Option ℕ} {a b c p : ℕ}
variable {items : List (ℕ × ℕ)}

def climb (parent : ℕ → Option ℕ) : ℕ → ℕ → List ℕ
  | 0, c => [c]
  | n + 1, c =>
    match parent c with
    | some p => c :: climb parent n p
    | none => [c]

def path (parent : ℕ → Option ℕ) (c : ℕ) : List ℕ := climb parent c c

def Ordered (parent : ℕ → Option ℕ) : Prop := ∀ c p, parent c = some p → p < c

theorem climb_eq (h : Ordered parent) {n m : ℕ} (hn : c ≤ n) (hm : c ≤ m) :
    climb parent n c = climb parent m c := by
  induction n generalizing c m with
  | zero =>
    obtain rfl : c = 0 := by omega
    cases m with
    | zero => rfl
    | succ m =>
      cases hp : parent 0 with
      | none => simp [climb, hp]
      | some p => exact absurd (h 0 p hp) (by omega)
  | succ n ih =>
    cases m with
    | zero =>
      obtain rfl : c = 0 := by omega
      cases hp : parent 0 with
      | none => simp [climb, hp]
      | some p => exact absurd (h 0 p hp) (by omega)
    | succ m =>
      cases hp : parent c with
      | none => simp [climb, hp]
      | some p =>
        have hlt := h c p hp
        simp only [climb, hp]
        rw [ih (show p ≤ n by omega) (show p ≤ m by omega)]

theorem path_of_none (h : parent c = none) : path parent c = [c] := by
  unfold path
  cases c with
  | zero => rfl
  | succ c => simp [climb, h]

theorem path_of_some (ho : Ordered parent) (h : parent c = some p) :
    path parent c = c :: path parent p := by
  have hlt := ho c p h
  unfold path
  cases c with
  | zero => omega
  | succ c =>
    simp only [climb, h]
    rw [climb_eq ho (show p ≤ c by omega) le_rfl]

theorem self_mem_path (c : ℕ) : c ∈ path parent c := by
  unfold path
  cases c with
  | zero => simp [climb]
  | succ c =>
    unfold climb
    split <;> simp

theorem path_induction (ho : Ordered parent) {motive : ℕ → Prop}
    (root : ∀ c, parent c = none → motive c)
    (child : ∀ c p, parent c = some p → motive p → motive c) (c : ℕ) : motive c := by
  induction c using Nat.strong_induction_on with
  | _ c ih =>
    cases hp : parent c with
    | none => exact root c hp
    | some p => exact child c p hp (ih p (ho c p hp))

theorem mem_path_iff (ho : Ordered parent) :
    a ∈ path parent c ↔ a = c ∨ ∃ p, parent c = some p ∧ a ∈ path parent p := by
  cases hp : parent c with
  | none => simp [path_of_none hp]
  | some p => simp [path_of_some ho hp]

theorem le_of_mem_path (ho : Ordered parent) (h : a ∈ path parent c) : a ≤ c := by
  induction c using path_induction ho with
  | root c hp =>
    rw [path_of_none hp, mem_singleton] at h
    exact h.le
  | child c p hp ih =>
    rcases (mem_path_iff ho).mp h with rfl | ⟨q, hq, hmem⟩
    · exact le_rfl
    · cases hp.symm.trans hq
      exact (ih hmem).trans (ho c p hp).le

theorem rel_of_mem_path (ho : Ordered parent) {R : ℕ → ℕ → Prop} (hrefl : ∀ a, R a a)
    (htrans : ∀ a b d, R a b → R b d → R a d) (hstep : ∀ b p, parent b = some p → R b p)
    (h : a ∈ path parent c) : R c a := by
  induction c using path_induction ho with
  | root c hp =>
    rw [path_of_none hp, mem_singleton] at h
    exact h ▸ hrefl a
  | child c p hp ih =>
    rcases (mem_path_iff ho).mp h with rfl | ⟨q, hq, hmem⟩
    · exact hrefl a
    · cases hp.symm.trans hq
      exact htrans c p a (hstep c p hp) (ih hmem)

theorem path_congr (ho : Ordered parent) (ho' : Ordered parent')
    (h : ∀ d ≤ c, parent' d = parent d) : path parent' c = path parent c := by
  induction c using path_induction ho with
  | root c hp => rw [path_of_none hp, path_of_none ((h c le_rfl).trans hp)]
  | child c p hp ih =>
    rw [path_of_some ho hp, path_of_some ho' ((h c le_rfl).trans hp),
      ih fun d hd => h d (hd.trans (ho c p hp).le)]

/-! ## Weights -/

/-- What an item weighs at a node: all of it if it was placed there or below. -/
def share (parent : ℕ → Option ℕ) (a : ℕ) (x : ℕ × ℕ) : ℕ :=
  if a ∈ path parent x.1 then x.2 else 0

theorem share_of_mem {n : ℕ} (h : a ∈ path parent c) : share parent a (c, n) = n := if_pos h

theorem share_of_not_mem {n : ℕ} (h : a ∉ path parent c) : share parent a (c, n) = 0 := if_neg h

def weight (parent : ℕ → Option ℕ) (items : List (ℕ × ℕ)) (a : ℕ) : ℕ :=
  (items.map (share parent a)).sum

theorem weight_append (items : List (ℕ × ℕ)) (x : ℕ × ℕ) (a : ℕ) :
    weight parent (items ++ [x]) a = weight parent items a + share parent a x := by
  simp [weight]

theorem sum_map_set {α M : Type*} [AddCommMonoid M] (f : α → M) {l : List α} {i : ℕ} {x : α}
    (h : l[i]? = some x) (y : α) : ((l.set i y).map f).sum + f x = (l.map f).sum + f y := by
  induction l generalizing i with
  | nil => simp at h
  | cons z l ih =>
    cases i with
    | zero =>
      cases h
      simp only [set_cons_zero, map_cons, sum_cons]
      abel
    | succ i =>
      have hi := ih (i := i) (by simpa using h)
      simp only [set_cons_succ, map_cons, sum_cons]
      rw [add_assoc, hi, add_assoc]

theorem weight_set {i : ℕ} {x : ℕ × ℕ} (h : items[i]? = some x) (y : ℕ × ℕ)
    (a : ℕ) : weight parent (items.set i y) a + share parent a x =
      weight parent items a + share parent a y :=
  sum_map_set (share parent a) h y

theorem share_le_weight {x : ℕ × ℕ} (h : x ∈ items) (a : ℕ) :
    share parent a x ≤ weight parent items a :=
  single_le_sum (fun _ _ => Nat.zero_le _) _ (mem_map_of_mem h)

theorem weight_congr (h : ∀ x ∈ items, path parent' x.1 = path parent x.1) (a : ℕ) :
    weight parent' items a = weight parent items a := by
  unfold weight
  refine congrArg sum (map_congr_left fun x hx => ?_)
  rw [share, share, h x hx]

theorem weight_eq_zero (h : ∀ x ∈ items, a ∉ path parent x.1) :
    weight parent items a = 0 := by
  unfold weight
  refine sum_eq_zero fun n hn => ?_
  obtain ⟨x, hx, rfl⟩ := mem_map.mp hn
  exact if_neg (h x hx)

theorem sum_map_filter {α : Type*} (p : α → Prop) [DecidablePred p] (f : α → ℕ) (l : List α) :
    ((l.filter p).map f).sum = (l.map fun x => if p x then f x else 0).sum := by
  have hite := sum_map_ite p f (fun _ => 0) l
  simp only [map_const', sum_replicate, smul_zero, add_zero] at hite
  exact hite.symm

end Aok.Lib.Forest
