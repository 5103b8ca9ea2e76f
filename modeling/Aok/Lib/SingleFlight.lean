import Mathlib

/-!
# Single flight with marks

A key is marked when a job for it is claimed, and only unmarked keys are claimed. The
job waits, is handed to a worker, is finished or requeued, and the worker clears the mark
before it leaves. A finish clears the mark too, so the same job clears it twice. Jobs
whose requeue fails are lost. `Exclusive` and `Covered` are what the marks are for: no key
has two jobs, and no mark is left behind.
-/

namespace Aok.Lib
open Multiset

inductive Stage where
  | busy
  | failed
  | settled
  | gone
deriving DecidableEq

@[ext] structure Flight (κ : Type) where
  marks : Finset κ
  waiting : Multiset κ
  workers : Multiset (κ × Stage)
  lost : Multiset κ

namespace Flight

inductive Act (κ : Type) where
  | claim (k : κ)
  | hand (k : κ)
  | drop (k : κ) (lost : Bool)
  | finish (k : κ) (ok : Bool)
  | requeue (k : κ) (lost : Bool)
  | clear (k : κ)
  | leave (k : κ)
  | reset

variable {κ : Type} [DecidableEq κ]

def empty : Flight κ := ⟨∅, 0, 0, 0⟩

def loseIf (lost : Bool) (k : κ) (m : Multiset κ) : Multiset κ := if lost then k ::ₘ m else m

inductive Move : Act κ → Flight κ → Flight κ → Prop where
  | claim {f k} : k ∉ f.marks →
    Move (.claim k) f { f with marks := insert k f.marks, waiting := k ::ₘ f.waiting }
  | hand {f k r} : f.waiting = k ::ₘ r →
    Move (.hand k) f { f with waiting := r, workers := (k, .busy) ::ₘ f.workers }
  | drop {f k r lost} : f.waiting = k ::ₘ r →
    Move (.drop k lost) f { f with waiting := r, lost := loseIf lost k f.lost }
  | finish {f k r ok} : f.workers = (k, .busy) ::ₘ r →
    Move (.finish k ok) f { f with
      marks := f.marks.erase k, workers := (k, if ok then .settled else .failed) ::ₘ r }
  | requeue {f k r st lost} : st = .busy ∨ st = .failed → f.workers = (k, st) ::ₘ r →
    Move (.requeue k lost) f { f with
      workers := (k, .settled) ::ₘ r, lost := loseIf lost k f.lost }
  | clear {f k r} : f.workers = (k, .settled) ::ₘ r →
    Move (.clear k) f { f with marks := f.marks.erase k, workers := (k, .gone) ::ₘ r }
  | leave {f k r} : f.workers = (k, .gone) ::ₘ r → Move (.leave k) f { f with workers := r }
  | reset {f} : Move .reset f empty

def active (f : Flight κ) : Multiset κ := (f.workers.filter fun x => x.2 ≠ .gone).map Prod.fst

/-- The keys of jobs that were claimed and are neither finished nor requeued. -/
def outstanding (f : Flight κ) : Multiset κ :=
  f.waiting + (f.workers.filter fun x => x.2 = .busy ∨ x.2 = .failed).map Prod.fst + f.lost

/-! ## No key has two jobs -/

/-- No claim of a key whose last worker has released it and not yet cleared it, and no requeue
that fails. -/
def Act.IsOrderly (f : Flight κ) : Act κ → Prop
  | .claim k => (k, .failed) ∉ f.workers ∧ (k, .settled) ∉ f.workers
  | .drop _ lost | .requeue _ lost => lost = false
  | _ => True

structure Exclusive (f : Flight κ) : Prop where
  nodup : (f.waiting + f.active).Nodup
  waiting : ∀ k ∈ f.waiting, k ∈ f.marks
  busy : ∀ k, (k, .busy) ∈ f.workers → k ∈ f.marks
  lost : f.lost = 0

variable {f f' : Flight κ} {a : Act κ} {k : κ}

omit [DecidableEq κ] in
theorem mem_active : k ∈ f.active ↔ ∃ st, st ≠ .gone ∧ (k, st) ∈ f.workers := by
  simp [active, and_comm]

omit [DecidableEq κ] in
theorem active_of_cons {st : Stage} {r : Multiset (κ × Stage)} (h : f.workers = (k, st) ::ₘ r)
    (hst : st ≠ .gone) :
    f.active = k ::ₘ (r.filter fun x => x.2 ≠ .gone).map Prod.fst := by
  simp [active, h, hst]

omit [DecidableEq κ] in
theorem Exclusive.not_mem (h : Exclusive f) (hk : k ∉ f.marks) (hfailed : (k, .failed) ∉ f.workers)
    (hsettled : (k, .settled) ∉ f.workers) : k ∉ f.waiting + f.active := by
  intro hmem
  rcases mem_add.mp hmem with hw | ha
  · exact hk (h.waiting k hw)
  · obtain ⟨st, hst, hx⟩ := mem_active.mp ha
    cases st with
    | busy => exact hk (h.busy k hx)
    | failed => exact hfailed hx
    | settled => exact hsettled hx
    | gone => exact hst rfl

theorem Exclusive.erase (h : Exclusive f) {st : Stage} {r : Multiset (κ × Stage)}
    (hx : f.workers = (k, st) ::ₘ r) (hst : st ≠ .gone) :
    (∀ i ∈ f.waiting, i ∈ f.marks.erase k) ∧ ∀ i, (i, .busy) ∈ r → i ∈ f.marks.erase k := by
  have hnodup := h.nodup
  rw [active_of_cons hx hst, add_cons, nodup_cons, mem_add] at hnodup
  obtain ⟨hk, -⟩ := hnodup
  refine ⟨fun i hi => Finset.mem_erase.mpr ⟨?_, h.waiting i hi⟩, fun i hi => ?_⟩
  · rintro rfl
    exact hk (.inl hi)
  · have hi' : (i, .busy) ∈ f.workers := hx ▸ mem_cons_of_mem hi
    refine Finset.mem_erase.mpr ⟨?_, h.busy i hi'⟩
    rintro rfl
    exact hk (.inr (mem_map_of_mem Prod.fst (mem_filter.mpr ⟨hi, by simp⟩)))

omit [DecidableEq κ] in
theorem exclusive_empty : Exclusive (empty : Flight κ) :=
  ⟨by simp [empty, active], by simp [empty], by simp [empty], rfl⟩

theorem Exclusive.move (h : Exclusive f) (hm : Move a f f') (ha : a.IsOrderly f) : Exclusive f' := by
  cases hm with
  | claim hk =>
    refine ⟨?_, fun i hi => ?_, fun i hi => Finset.mem_insert_of_mem (h.busy i hi), h.lost⟩
    · rw [cons_add, nodup_cons]
      exact ⟨h.not_mem hk ha.1 ha.2, h.nodup⟩
    · rcases mem_cons.mp hi with rfl | hi
      · exact Finset.mem_insert_self _ _
      · exact Finset.mem_insert_of_mem (h.waiting i hi)
  | hand hw =>
    refine ⟨?_, fun i hi => h.waiting i (hw ▸ mem_cons_of_mem hi), fun i hi => ?_, h.lost⟩
    · have hn := h.nodup
      rw [hw, cons_add, ← add_cons] at hn
      simpa [active] using hn
    · rcases mem_cons.mp hi with he | hi
      · cases he
        exact h.waiting _ (hw ▸ mem_cons_self _ _)
      · exact h.busy i hi
  | drop hw =>
    refine ⟨?_, fun i hi => h.waiting i (hw ▸ mem_cons_of_mem hi), h.busy, ?_⟩
    · have hn := h.nodup
      rw [hw, cons_add, nodup_cons] at hn
      exact hn.2
    · obtain rfl : _ = false := ha
      exact h.lost
  | @finish _ k r ok hx =>
    obtain ⟨hwait, hbusy⟩ := h.erase hx (by simp)
    have hactive := active_of_cons hx (by simp)
    refine ⟨?_, hwait, fun i hi => ?_, h.lost⟩
    · have hn := h.nodup
      rw [hactive] at hn
      cases ok <;> simpa [active] using hn
    · rcases mem_cons.mp hi with he | hi
      · cases ok <;> cases he
      · exact hbusy i hi
  | @requeue _ k r st lost hst hx =>
    have hactive := active_of_cons hx (by rcases hst with rfl | rfl <;> simp)
    refine ⟨?_, h.waiting, fun i hi => ?_, ?_⟩
    · have hn := h.nodup
      rw [hactive] at hn
      simpa [active] using hn
    · rcases mem_cons.mp hi with he | hi
      · cases he
      · exact h.busy i (hx ▸ mem_cons_of_mem hi)
    · obtain rfl : _ = false := ha
      exact h.lost
  | clear hx =>
    obtain ⟨hwait, hbusy⟩ := h.erase hx (by simp)
    have hactive := active_of_cons hx (by simp)
    refine ⟨?_, hwait, fun i hi => ?_, h.lost⟩
    · have hn := h.nodup
      rw [hactive, add_cons, nodup_cons] at hn
      simpa [active] using hn.2
    · rcases mem_cons.mp hi with he | hi
      · cases he
      · exact hbusy i hi
  | leave hx =>
    refine ⟨?_, h.waiting, fun i hi => h.busy i (hx ▸ mem_cons_of_mem hi), h.lost⟩
    have hn := h.nodup
    simpa [active, hx] using hn
  | reset => exact exclusive_empty

omit [DecidableEq κ] in
theorem Exclusive.nodup_outstanding (h : Exclusive f) : f.outstanding.Nodup := by
  refine nodup_of_le ?_ h.nodup
  unfold outstanding active
  rw [h.lost, add_zero]
  refine add_le_add_right (map_le_map (monotone_filter_right _ ?_)) _
  rintro ⟨k, st⟩ hst
  rcases hst with hst | hst <;> simp_all

/-! ## No mark is left behind -/

/-- Every mark belongs to a job that waits or whose worker has not cleared it. -/
def Covered (f : Flight κ) : Prop := ∀ k ∈ f.marks, k ∈ f.waiting ∨ k ∈ f.active

def Act.KeepsWaiting : Act κ → Prop
  | .drop _ _ => False
  | _ => True

theorem Covered.move (h : Covered f) (hm : Move a f f') (ha : a.KeepsWaiting) : Covered f' := by
  intro i hi
  cases hm with
  | claim =>
    rcases Finset.mem_insert.mp hi with rfl | hi
    · exact .inl (mem_cons_self _ _)
    · exact (h i hi).imp_left mem_cons_of_mem
  | hand hw =>
    have := h i hi
    simp only [hw, active, mem_cons] at this ⊢
    simp only [ne_eq, reduceCtorEq, not_false_eq_true, filter_cons_of_pos, map_cons,
      mem_cons]
    tauto
  | drop => exact ha.elim
  | @finish _ k r ok hx =>
    obtain ⟨hne, hi⟩ := Finset.mem_erase.mp hi
    refine (h i hi).imp_right fun hact => ?_
    rw [active_of_cons hx (by simp), mem_cons] at hact
    cases ok <;> simpa [active, hne] using hact.resolve_left hne
  | @requeue _ k r st lost hst hx =>
    refine (h i hi).imp_right fun hact => ?_
    rw [active_of_cons hx (by rcases hst with rfl | rfl <;> simp)] at hact
    simpa [active] using hact
  | clear hx =>
    obtain ⟨hne, hi⟩ := Finset.mem_erase.mp hi
    refine (h i hi).imp_right fun hact => ?_
    rw [active_of_cons hx (by simp), mem_cons] at hact
    simpa [active] using hact.resolve_left hne
  | leave hx =>
    refine (h i hi).imp_right fun hact => ?_
    simpa [active, hx] using hact
  | reset => simp [empty] at hi

omit [DecidableEq κ] in
theorem covered_empty : Covered (empty : Flight κ) := by simp [Covered, empty]

end Flight
end Aok.Lib
