import Mathlib

/-!
# A live value and its durable copies

A store keeps a live value, the copy of it that was saved last and what lies on the
disk. Live values are edited in place; a commit saves the live value, a rollback
reopens the saved copy. Saving need not be faithful: what is reopened is the image of
what was saved. Every edit has a level. Moves carry the highest level of the edits since
the live value was last saved or reopened, and the edits at the lowest level are those
that saving does not see.
-/

namespace Aok.Lib.Journal
open Relation

structure Codec (L D : Type) where
  save : L → D
  reopen : D → L

@[ext] structure Store (L D : Type) where
  live : L
  saved : D
  disk : D

variable {L D Λ : Type} [LinearOrder Λ] [OrderBot Λ] (J : Codec L D) (edit : Λ → L → L → Prop)

inductive Move : Λ × Store L D → Λ × Store L D → Prop where
  | edit {b k s l} : edit k s.live l → Move (b, s) (b ⊔ k, { s with live := l })
  | commit {b s} : Move (b, s) (⊥, ⟨s.live, J.save s.live, J.save s.live⟩)
  | rollback {b s} : Move (b, s) (⊥, { s with live := J.reopen s.saved })

def Trail : Λ × Store L D → Λ × Store L D → Prop := ReflTransGen (Move J edit)

/-- The condition holds of the live value and of both copies once reopened. -/
structure Everywhere (P : L → Prop) (s : Store L D) : Prop where
  live : P s.live
  saved : P (J.reopen s.saved)
  disk : P (J.reopen s.disk)

/-- What the disk shows also holds of the saved copy and of the live value. -/
def Durable (P : L → Prop) (s : Store L D) : Prop :=
  P (J.reopen s.disk) → P (J.reopen s.saved) ∧ P s.live

/-- The saved copy is what lies on the disk, and it was saved from some live value. -/
structure Synced (s : Store L D) : Prop where
  saved_eq : s.saved = s.disk
  exists_save : ∃ l, J.save l = s.saved

def Codec.commit (l : L) : Store L D := ⟨l, J.save l, J.save l⟩

def Undone (s s' : Store L D) : Prop := s' = s ∨ s' = { s with live := J.reopen s.saved }

variable {J edit} {P Q : L → Prop} {p q : Λ × Store L D}

omit [LinearOrder Λ] [OrderBot Λ] in
theorem Everywhere.commit {l : L} (hl : P l) (hs : P (J.reopen (J.save l))) :
    Everywhere J P (J.commit l) :=
  ⟨hl, hs, hs⟩

omit [LinearOrder Λ] [OrderBot Λ] in
theorem Everywhere.undone {s s' : Store L D} (h : Everywhere J P s) (hu : Undone J s s') :
    Everywhere J P s' := by
  rcases hu with rfl | rfl
  · exact h
  · exact ⟨h.saved, h.saved, h.disk⟩

omit [LinearOrder Λ] [OrderBot Λ] in
theorem Durable.everywhere {s : Store L D} (h : Durable J P s) (hd : P (J.reopen s.disk)) :
    Everywhere J P s :=
  ⟨(h hd).2, (h hd).1, hd⟩

/-- What every edit keeps and reopening a saved value keeps holds everywhere along a trail. -/
theorem Trail.everywhere (hedit : ∀ k l l', edit k l l' → P l → P l')
    (himage : ∀ l, P l → P (J.reopen (J.save l))) (ht : Trail J edit p q)
    (hp : Everywhere J P p.2) : Everywhere J P q.2 := by
  induction ht with
  | refl => exact hp
  | tail _ hm ih =>
    cases hm with
    | edit h => exact ⟨hedit _ _ _ h ih.live, ih.saved, ih.disk⟩
    | commit => exact ⟨ih.live, himage _ ih.live, himage _ ih.live⟩
    | rollback => exact ⟨ih.saved, ih.saved, ih.disk⟩

/-- A condition that no edit ends and that a saved value shows exactly when the live one
does is durable along a trail. -/
theorem Trail.durable (hedit : ∀ k l l', Q l → edit k l l' → P l → P l')
    (himage : ∀ l, Q l → P (J.reopen (J.save l)) → P l)
    (hQedit : ∀ k l l', edit k l l' → Q l → Q l') (hQimage : ∀ l, Q l → Q (J.reopen (J.save l)))
    (ht : Trail J edit p q) (hQ : Everywhere J Q p.2) (hp : Durable J P p.2) :
    Durable J P q.2 := by
  induction ht with
  | refl => exact hp
  | tail ht hm ih =>
    have hl := Trail.everywhere hQedit hQimage ht hQ
    cases hm with
    | edit h => exact fun hd => ⟨(ih hd).1, hedit _ _ _ hl.live h (ih hd).2⟩
    | commit => exact fun hd => ⟨hd, himage _ hl.live hd⟩
    | rollback => exact fun hd => ⟨(ih hd).1, (ih hd).1⟩

theorem Trail.synced (ht : Trail J edit p q) (hp : Synced J p.2) : Synced J q.2 := by
  induction ht with
  | refl => exact hp
  | tail _ hm ih =>
    cases hm with
    | edit => exact ⟨ih.saved_eq, ih.exists_save⟩
    | commit => exact ⟨rfl, _, rfl⟩
    | rollback => exact ⟨ih.saved_eq, ih.exists_save⟩

theorem Trail.disk (ht : Trail J edit p q) : q.2.disk = p.2.disk ∨ ∃ l, J.save l = q.2.disk := by
  induction ht with
  | refl => exact .inl rfl
  | tail _ hm ih =>
    cases hm with
    | edit | rollback => exact ih
    | commit => exact .inr ⟨_, rfl⟩

/-- Where no edit above `k` is unsaved, the live value and the disk agree on what the edits up to
`k` leave alone. -/
theorem Trail.agree {agree : L → D → Prop} {k : Λ} (hsave : ∀ l, agree l (J.save l))
    (hreopen : ∀ l, agree (J.reopen (J.save l)) (J.save l))
    (hedit : ∀ j ≤ k, ∀ l l' d, edit j l l' → agree l d → agree l' d)
    (ht : Trail J edit p q) (hs : Synced J p.2) (hp : p.1 ≤ k → agree p.2.live p.2.disk) :
    q.1 ≤ k → agree q.2.live q.2.disk := by
  induction ht with
  | refl => exact hp
  | tail ht hm ih =>
    have hsync := Trail.synced ht hs
    cases hm with
    | edit h =>
      intro hb
      obtain ⟨hb, hj⟩ := sup_le_iff.mp hb
      exact hedit _ hj _ _ _ h (ih hb)
    | commit => exact fun _ => hsave _
    | rollback =>
      intro _
      obtain ⟨l, hl⟩ := hsync.exists_save
      change agree (J.reopen _) _
      rw [← hsync.saved_eq, ← hl]
      exact hreopen l

instance : Std.Refl (Trail J edit) := ⟨fun _ => .refl⟩
instance : IsTrans _ (Trail J edit) := ⟨fun _ _ _ => .trans⟩

end Aok.Lib.Journal
