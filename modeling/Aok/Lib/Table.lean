import Mathlib

/-!
# Finite tables with sums and rekeying

A table is an extensional tree map over a lawful order, so two tables with the
same lookups are equal and the entries are listed in key order. The lemmas give
lookups as equalities of keys, split off one entry of a sum over the table, and
describe `rekey`, which pushes every key through a function and lets the entry
listed last win where two keys meet.
-/

namespace Aok.Lib
open List

abbrev Table (κ α : Type) [Ord κ] := Std.ExtTreeMap κ α compare

namespace Table
open Std

variable {κ α β : Type} [Ord κ] [TransOrd κ] [LawfulEqOrd κ] [DecidableEq κ]

theorem get_insert (t : Table κ α) (k a : κ) (v : α) :
    (t.insert k v)[a]? = if k = a then some v else t[a]? := by
  simp [ExtTreeMap.getElem?_insert]

theorem get_erase (t : Table κ α) (k a : κ) :
    (t.erase k)[a]? = if k = a then none else t[a]? := by
  simp [ExtTreeMap.getElem?_erase]

omit [DecidableEq κ] in
@[simp] theorem get_insert_self (t : Table κ α) (k : κ) (v : α) : (t.insert k v)[k]? = some v := by
  simp

theorem get_insert_ne (t : Table κ α) {k a : κ} (v : α) (h : k ≠ a) :
    (t.insert k v)[a]? = t[a]? := by
  simp [get_insert, h]

omit [DecidableEq κ] in
@[simp] theorem get_erase_self (t : Table κ α) (k : κ) : (t.erase k)[k]? = none := by
  simp

theorem get_erase_ne (t : Table κ α) {k a : κ} (h : k ≠ a) : (t.erase k)[a]? = t[a]? := by
  simp [get_erase, h]

theorem erase_eq_self (t : Table κ α) {k : κ} (h : t[k]? = none) : t.erase k = t := by
  apply ExtTreeMap.ext_getElem?
  intro a
  by_cases ha : k = a
  · subst ha
    rw [get_erase_self, h]
  · exact get_erase_ne t ha

theorem insert_eq_self (t : Table κ α) {k : κ} {v : α} (h : t[k]? = some v) : t.insert k v = t := by
  apply ExtTreeMap.ext_getElem?
  intro a
  by_cases ha : k = a
  · subst ha
    rw [get_insert_self, h]
  · exact get_insert_ne t v ha

theorem erase_insert_self (t : Table κ α) (k : κ) (v : α) :
    (t.insert k v).erase k = t.erase k := by
  apply ExtTreeMap.ext_getElem?
  intro a
  by_cases ha : k = a
  · subst ha; simp
  · rw [get_erase_ne _ ha, get_insert_ne _ _ ha, get_erase_ne _ ha]

omit [DecidableEq κ] in
theorem toList_nodup (t : Table κ α) : t.toList.Nodup :=
  ExtTreeMap.distinct_keys_toList.imp fun {a b} h he => h (by subst he; exact ReflCmp.compare_self)

theorem perm_of_get {t : Table κ α} {k : κ} {v : α} (h : t[k]? = some v) :
    t.toList.Perm ((k, v) :: (t.erase k).toList) := by
  have hk : (k, v) ∉ (t.erase k).toList := by simp
  refine (perm_ext_iff_of_nodup (toList_nodup t)
    (nodup_cons.mpr ⟨hk, toList_nodup _⟩)).mpr ?_
  rintro ⟨a, b⟩
  simp only [ExtTreeMap.mem_toList_iff_getElem?_eq_some, mem_cons, Prod.mk.injEq]
  by_cases ha : k = a
  · subst ha
    simp [h, eq_comm]
  · simp [get_erase_ne t ha, Ne.symm ha]

def total (f : κ → α → ℕ) (t : Table κ α) : ℕ := (t.toList.map fun p => f p.1 p.2).sum

theorem total_of_get (f : κ → α → ℕ) {t : Table κ α} {k : κ} {v : α} (h : t[k]? = some v) :
    total f t = f k v + total f (t.erase k) := by
  have hp := (perm_of_get h).map fun p : κ × α => f p.1 p.2
  simpa [total] using hp.sum_eq

theorem total_insert (f : κ → α → ℕ) (t : Table κ α) (k : κ) (v : α) :
    total f (t.insert k v) = f k v + total f (t.erase k) := by
  rw [total_of_get f (get_insert_self t k v), erase_insert_self]

theorem total_insert_of_get (f : κ → α → ℕ) {t : Table κ α} {k : κ} {v : α} (w : α)
    (h : t[k]? = some v) : total f (t.insert k w) + f k v = total f t + f k w := by
  rw [total_insert, total_of_get f h]
  omega

theorem total_insert_of_none (f : κ → α → ℕ) {t : Table κ α} {k : κ} (w : α)
    (h : t[k]? = none) : total f (t.insert k w) = total f t + f k w := by
  rw [total_insert, erase_eq_self t h, Nat.add_comm]

theorem total_erase_of_get (f : κ → α → ℕ) {t : Table κ α} {k : κ} {v : α}
    (h : t[k]? = some v) : total f (t.erase k) + f k v = total f t := by
  rw [total_of_get f h, Nat.add_comm]

theorem le_total (f : κ → α → ℕ) {t : Table κ α} {k : κ} {v : α} (h : t[k]? = some v) :
    f k v ≤ total f t := by
  rw [total_of_get f h]
  exact Nat.le_add_right _ _

omit [LawfulEqOrd κ] [DecidableEq κ] in
theorem total_map (f : κ → β → ℕ) (g : κ → α → β) (t : Table κ α) :
    total f (t.map g) = total (fun k v => f k (g k v)) t := by
  simp [total, ExtTreeMap.toList_map, Function.comp_def]

omit [DecidableEq κ] in
theorem total_congr {f g : κ → α → ℕ} {t : Table κ α}
    (h : ∀ k v, t[k]? = some v → f k v = g k v) : total f t = total g t := by
  unfold total
  refine congrArg sum (map_congr_left ?_)
  rintro ⟨k, v⟩ hm
  exact h k v (ExtTreeMap.mem_toList_iff_getElem?_eq_some.mp hm)

omit [LawfulEqOrd κ] [DecidableEq κ] in
@[simp] theorem total_empty (f : κ → α → ℕ) : total f (∅ : Table κ α) = 0 := by
  have he : (∅ : Table κ α).toList = [] := ExtTreeMap.toList_eq_nil_iff.mpr rfl
  simp [total, he]

/-- Every key is replaced by its image; of entries that meet, the last one listed stays. -/
def rekey (g : κ → κ) (t : Table κ α) : Table κ α :=
  t.toList.foldl (fun acc p => acc.insert (g p.1) p.2) ∅

theorem foldl_insert_get (g : κ → κ) (l : List (κ × α)) (acc : Table κ α) (k : κ) (v : α)
    (h : (l.foldl (fun acc p => acc.insert (g p.1) p.2) acc)[k]? = some v) :
    acc[k]? = some v ∨ ∃ a, g a = k ∧ (a, v) ∈ l := by
  induction l generalizing acc with
  | nil => exact Or.inl h
  | cons p l ih =>
    rcases ih _ h with hacc | ⟨a, ha, hm⟩
    · rw [get_insert] at hacc
      split_ifs at hacc with hp
      · obtain rfl := Option.some.inj hacc
        exact Or.inr ⟨p.1, hp, mem_cons_self⟩
      · exact Or.inl hacc
    · exact Or.inr ⟨a, ha, mem_cons_of_mem _ hm⟩

theorem get_rekey {g : κ → κ} {t : Table κ α} {k : κ} {v : α} (h : (rekey g t)[k]? = some v) :
    ∃ a, g a = k ∧ t[a]? = some v := by
  rcases foldl_insert_get g t.toList ∅ k v h with he | ⟨a, ha, hm⟩
  · simp at he
  · exact ⟨a, ha, ExtTreeMap.mem_toList_iff_getElem?_eq_some.mp hm⟩

theorem foldl_insert_fixed (g : κ → κ) (l : List (κ × α)) (acc : Table κ α) (k : κ)
    (hg : ∀ p ∈ l, g p.1 = p.1) (hd : (l.map Prod.fst).Nodup) :
    (l.foldl (fun acc p => acc.insert (g p.1) p.2) acc)[k]? =
      ((l.find? fun p => p.1 = k).map Prod.snd).or acc[k]? := by
  induction l generalizing acc with
  | nil => simp
  | cons p l ih =>
    simp only [map_cons, nodup_cons] at hd
    have hp : g p.1 = p.1 := hg p mem_cons_self
    rw [foldl_cons, ih _ (fun q hq => hg q (mem_cons_of_mem _ hq)) hd.2, hp, get_insert]
    by_cases hk : p.1 = k
    · have hn : l.find? (fun q => q.1 = k) = none := by
        rw [find?_eq_none]
        intro q hq he
        exact hd.1 (mem_map.mpr ⟨q, hq, by simpa [hk] using he⟩)
      simp [hk, hn]
    · simp [hk]

theorem rekey_eq_self {g : κ → κ} {t : Table κ α} (h : ∀ k v, t[k]? = some v → g k = k) :
    rekey g t = t := by
  apply ExtTreeMap.ext_getElem?
  intro k
  have hg : ∀ p ∈ t.toList, g p.1 = p.1 := fun p hp =>
    h p.1 p.2 (ExtTreeMap.mem_toList_iff_getElem?_eq_some.mp hp)
  have hd : (t.toList.map Prod.fst).Nodup := by simpa using ExtTreeMap.nodup_keys (t := t)
  rw [rekey, foldl_insert_fixed g t.toList ∅ k hg hd]
  cases hv : t[k]? with
  | none =>
    have hn : t.toList.find? (fun p => p.1 = k) = none := by
      rw [find?_eq_none]
      rintro ⟨a, v⟩ hp he
      have ha : a = k := by simpa using he
      rw [ExtTreeMap.mem_toList_iff_getElem?_eq_some, ha, hv] at hp
      cases hp
    simp [hn]
  | some v =>
    cases hf : t.toList.find? (fun p => p.1 = k) with
    | none =>
      rw [find?_eq_none] at hf
      exact absurd (by simp) (hf (k, v) (ExtTreeMap.mem_toList_iff_getElem?_eq_some.mpr hv))
    | some p =>
      have hp := mem_of_find?_eq_some hf
      have hk : p.1 = k := by simpa using find?_some hf
      obtain ⟨a, b⟩ := p
      subst hk
      rw [ExtTreeMap.mem_toList_iff_getElem?_eq_some, hv] at hp
      simpa using hp.symm

/-! ## Listing what the entries hold -/

def contents (f : κ → α → List β) (t : Table κ α) : List β := t.toList.flatMap fun p => f p.1 p.2

omit [DecidableEq κ] in
theorem mem_contents {f : κ → α → List β} {t : Table κ α} {x : β} :
    x ∈ contents f t ↔ ∃ k v, t[k]? = some v ∧ x ∈ f k v := by
  simp [contents, ExtTreeMap.mem_toList_iff_getElem?_eq_some]

omit [LawfulEqOrd κ] [DecidableEq κ] in
@[simp] theorem contents_empty (f : κ → α → List β) : contents f (∅ : Table κ α) = [] := by
  rw [contents, ExtTreeMap.toList_eq_nil_iff.mpr rfl, flatMap_nil]

theorem contents_of_get (f : κ → α → List β) {t : Table κ α} {k : κ} {v : α} (h : t[k]? = some v) :
    (contents f t).Perm (f k v ++ contents f (t.erase k)) := by
  have hp := (perm_of_get h).flatMap_right fun p : κ × α => f p.1 p.2
  rwa [flatMap_cons] at hp

theorem contents_insert (f : κ → α → List β) (t : Table κ α) (k : κ) (v : α) :
    (contents f (t.insert k v)).Perm (f k v ++ contents f (t.erase k)) := by
  have h := contents_of_get f (get_insert_self t k v)
  rwa [erase_insert_self] at h

theorem contents_erase_subperm (f : κ → α → List β) (t : Table κ α) (k : κ) :
    (contents f (t.erase k)).Subperm (contents f t) := by
  cases h : t[k]? with
  | none => rw [erase_eq_self t h]
  | some v =>
    exact (sublist_append_right _ _).subperm.trans (contents_of_get f h).symm.subperm

theorem contents_insert_of_get (f : κ → α → List β) {t : Table κ α} {k : κ} {v w : α}
    (h : t[k]? = some v) (hw : f k w = f k v) :
    (contents f (t.insert k w)).Perm (contents f t) := by
  have hp := contents_insert f t k w
  rw [hw] at hp
  exact hp.trans (contents_of_get f h).symm

omit [LawfulEqOrd κ] [DecidableEq κ] in
theorem contents_map {γ : Type} (f : κ → β → List γ) (g : κ → α → β) (t : Table κ α) :
    contents f (t.map g) = contents (fun k v => f k (g k v)) t := by
  simp [contents, ExtTreeMap.toList_map, flatMap_map]

omit [DecidableEq κ] in
theorem contents_congr {f g : κ → α → List β} {t : Table κ α}
    (h : ∀ k v, t[k]? = some v → f k v = g k v) : contents f t = contents g t := by
  refine flatMap_congr ?_
  rintro ⟨k, v⟩ hm
  exact h k v (ExtTreeMap.mem_toList_iff_getElem?_eq_some.mp hm)

theorem contents_rekey_subperm {f : κ → α → List β} {g : κ → κ} (hf : ∀ k v, f (g k) v = f k v)
    (t : Table κ α) : (contents f (rekey g t)).Subperm (contents f t) := by
  have hfold : ∀ (l : List (κ × α)) (acc : Table κ α),
      (contents f (l.foldl (fun acc p => acc.insert (g p.1) p.2) acc)).Subperm
        (contents f acc ++ l.flatMap fun p => f p.1 p.2) := by
    intro l
    induction l with
    | nil =>
      intro acc
      rw [flatMap_nil, append_nil]
      exact .refl _
    | cons p l ih =>
      intro acc
      refine (ih _).trans ?_
      rw [flatMap_cons, ← append_assoc]
      refine List.Subperm.append ?_ (.refl _)
      refine (contents_insert f acc (g p.1) p.2).subperm.trans ?_
      rw [hf]
      exact perm_append_comm.subperm.trans
        ((contents_erase_subperm f acc (g p.1)).append (.refl _))
  have h := hfold t.toList ∅
  rwa [contents_empty, nil_append] at h

/-! ## Mapping the entries -/

theorem map_insert (f : κ → α → β) (t : Table κ α) (k : κ) (v : α) :
    (t.insert k v).map f = (t.map f).insert k (f k v) := by
  apply ExtTreeMap.ext_getElem?
  intro a
  by_cases ha : k = a
  · subst ha
    simp
  · rw [get_insert_ne _ _ ha, ExtTreeMap.getElem?_map, ExtTreeMap.getElem?_map,
      get_insert_ne _ _ ha]

theorem map_erase (f : κ → α → β) (t : Table κ α) (k : κ) :
    (t.erase k).map f = (t.map f).erase k := by
  apply ExtTreeMap.ext_getElem?
  intro a
  by_cases ha : k = a
  · subst ha
    simp
  · rw [get_erase_ne _ ha, ExtTreeMap.getElem?_map, ExtTreeMap.getElem?_map, get_erase_ne _ ha]

theorem foldl_insert_map (g : κ → κ) (f : α → β) (l : List (κ × α)) (acc : Table κ α) :
    (l.foldl (fun acc p => acc.insert (g p.1) p.2) acc).map (fun _ v => f v) =
      (l.map fun p => (p.1, f p.2)).foldl (fun acc p => acc.insert (g p.1) p.2)
        (acc.map fun _ v => f v) := by
  induction l generalizing acc with
  | nil => rfl
  | cons p l ih => rw [foldl_cons, ih, map_insert, map_cons, foldl_cons]

theorem rekey_map (g : κ → κ) (f : α → β) (t : Table κ α) :
    rekey g (t.map fun _ v => f v) = (rekey g t).map fun _ v => f v := by
  rw [rekey, rekey, foldl_insert_map, ExtTreeMap.toList_map]
  congr 1

end Table
end Aok.Lib
