import Mathlib

/-!
# Lists linked by hashes

Every record names the hash of the record before it. If records with equal hashes are
equal, two linked lists that carry the same hash at one place agree up to that place.
-/

namespace Aok.Lib.HashChain

variable {R H : Type} (previous hash : R → H)

def Linked : H → List R → Prop
  | _, [] => True
  | h, r :: l => previous r = h ∧ Linked (hash r) l

variable {previous hash} {h : H} {l l' : List R}

theorem Linked.previous_succ (hl : Linked previous hash h l) {n : ℕ} {r : R}
    (hr : l[n + 1]? = some r) : ∃ q, l[n]? = some q ∧ previous r = hash q := by
  induction l generalizing h n with
  | nil => simp at hr
  | cons x l ih =>
    cases n with
    | zero =>
      refine ⟨x, rfl, ?_⟩
      cases l with
      | nil => simp at hr
      | cons y l =>
        cases hr
        exact hl.2.1
    | succ n => exact ih hl.2 hr

theorem Linked.take_eq (hl : Linked previous hash h l) (hl' : Linked previous hash h l')
    (hinj : ∀ r ∈ l, ∀ s ∈ l', hash r = hash s → r = s) {n : ℕ} {r s : R} (hr : l[n]? = some r)
    (hs : l'[n]? = some s) (he : hash r = hash s) : l.take (n + 1) = l'.take (n + 1) := by
  induction n generalizing r s with
  | zero =>
    obtain rfl := hinj r (List.mem_of_getElem? hr) s (List.mem_of_getElem? hs) he
    simp [List.take_add_one, hr, hs]
  | succ n ih =>
    -- the records are equal, and so are the hashes of the records before them
    obtain rfl := hinj r (List.mem_of_getElem? hr) s (List.mem_of_getElem? hs) he
    obtain ⟨q, hq, hrq⟩ := hl.previous_succ hr
    obtain ⟨q', hq', hrq'⟩ := hl'.previous_succ hs
    rw [List.take_add_one, List.take_add_one (i := n + 1), ih hq hq' (hrq.symm.trans hrq'), hr, hs]

end Aok.Lib.HashChain
