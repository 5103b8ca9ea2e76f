import Aok.Kernel.Aproc

/-!
# What a step does to the agent processes

A step leaves the aprocs alone, adds one that is new, changes one under its lock, or frees one with
its last reference. The changes under the lock are listed once, and everything about a single aproc
is read off that list.
-/

namespace Aok.Kernel.Aprocs
open Lib

variable {p : Aproc} {a : ℕ} {op : Op}

inductive Change (k : Machine) (op : Op) (a : ℕ) (p : Aproc) : Aproc → Prop where
  | refs (n : ℕ) : Change k op a p { p with refs := n }
  | lock (b : Bool) : Change k op a p { p with transitionLock := b }
  | enlist (koid : ℕ) (h : p.isAlive = true) : Change k op a p (p.enlist koid)
  | exit (koid : ℕ) (h : op = .exit a koid) (hm : p.tasks.any (fun x => x.koid == koid) = true) :
      Change k op a p (p.exit koid)
  | transition (t f : ℕ) (c : Cause) (h : op = .run t true)
      (ht : k.threads[t]? = some (.moving f c .locked)) (hf : k.target f = some (a, p)) :
      Change k op a p (p.transition c.state c.automatic c.resource).2
  | reap : Change k op a p p.reap.2
  | setBudget (b : Budget) (h : ∃ fd, op = .setBudget fd b) : Change k op a p (p.setBudget b).2
  | report (u : TokenUsage) (h : ∃ fd, op = .tokenUsage fd u) : Change k op a p (p.report u).2

namespace Machine

variable {k : Machine}

def drops (k : Machine) : Op → Option ℕ
  | .release f =>
    match k.handles[f]? with
    | none => none
    | some h => if k.isHeld f h = true then none else some h.aid
  | .run t _ =>
    match k.threads[t]? with
    | some (.exited a) => some a
    | _ => none
  | _ => none

/-- What a step does to the table of the aprocs and to the number issued last. -/
inductive Effect (k : Machine) (op : Op) : ℕ → Table ℕ Aproc → Prop where
  | same : Effect k op k.nextAid k.aprocs
  | create (ceiling : UInt64) : Effect k op (k.nextAid + 1)
      (k.aprocs.insert (k.nextAid + 1) (.fresh (k.nextAid + 1) ceiling))
  | change {a : ℕ} {p p' : Aproc} (hp : k.aprocs[a]? = some p) (hc : Change k op a p p') :
      Effect k op k.nextAid (k.aprocs.insert a p')
  | free {a : ℕ} {p : Aproc} (hp : k.aprocs[a]? = some p) (hr : p.refs = 1)
      (hd : k.drops op = some a) : Effect k op k.nextAid (k.aprocs.erase a)

/-! ## Descriptors -/

theorem lookup_eq_ok {f : ℕ} {right : UInt64} {h : Handle} (hl : k.lookup f right = .ok (h, p)) :
    k.handles[f]? = some h ∧ h.fds ≠ 0 ∧ h.rights &&& right ≠ 0 ∧
      k.aprocs[h.aid]? = some p := by
  unfold lookup at hl
  split at hl
  · cases hl
  · next g hg =>
    split_ifs at hl with hfds hright
    split at hl
    · cases hl
    · next q hq =>
      cases hl
      exact ⟨hg, hfds, hright, hq⟩

theorem target_eq_some {f : ℕ} (ht : k.target f = some (a, p)) :
    ∃ h, k.handles[f]? = some h ∧ h.aid = a ∧ k.aprocs[a]? = some p := by
  unfold target at ht
  split at ht
  · cases ht
  · next h hh =>
    obtain ⟨q, hq, he⟩ := Option.map_eq_some_iff.mp ht
    cases he
    exact ⟨h, hh, rfl, hq⟩

theorem join_eq_ok {k' : Machine} (hj : k.join a p = .ok k') :
    p.isAlive = true ∧
      k' = { k.setAproc a (p.enlist (k.nextKoid + 1)) with nextKoid := k.nextKoid + 1 } := by
  unfold join at hj
  split_ifs at hj with hfull halive
  split at hj
  · cases hj
  · next koid hk =>
    unfold allocId at hk
    split_ifs at hk
    cases hk
    cases hj
    exact ⟨by simpa using halive, rfl⟩

/-! ## The step -/

theorem put_effect (hd : k.drops op = some a) :
    Effect k op k.nextAid (k.put a).aprocs := by
  unfold put
  split
  · exact .same
  · next p hp =>
    split_ifs with hr
    · exact .free hp hr hd
    · exact .change hp (.refs _)

theorem join_effect {k' : Machine} (hp : k.aprocs[a]? = some p)
    (hj : k.join a p = .ok k') : Effect k op k'.nextAid k'.aprocs := by
  obtain ⟨halive, rfl⟩ := join_eq_ok hj
  exact .change hp (.enlist _ halive)

theorem put_nextAid (k : Machine) (a : ℕ) : (k.put a).nextAid = k.nextAid := by
  unfold put
  split
  · rfl
  · split_ifs <;> rfl

theorem move_effect {t f : ℕ} {c : Cause} {ok : Bool} {stage : Stage}
    (ht : k.threads[t]? = some (.moving f c stage)) (hf : k.target f = some (a, p)) :
    Effect k (.run t ok) (k.move t f a p c ok stage).2.nextAid
      (k.move t f a p c ok stage).2.aprocs := by
  obtain ⟨h, hh, ha, hp⟩ := target_eq_some hf
  cases stage with
  | waiting =>
    simp only [move]
    split_ifs
    · exact .same
    · exact .change hp (.lock true)
  | locked =>
    by_cases hok : ok = false
    · simp only [move, if_pos hok]
      exact .same
    · simp only [move, if_neg hok]
      obtain rfl : ok = true := by simpa using hok
      have hc := Change.transition t f c rfl ht hf
      split
      all_goals
        next htr =>
        rw [htr] at hc
        exact .change hp hc
  | entering wasFrozen => exact .same
  | signalling wasFrozen => exact .same
  | leaving => exact .same
  | unlocking ret => exact .change hp (.lock false)

theorem advance_effect (k : Machine) (t : ℕ) (ok : Bool) :
    Effect k (.run t ok) (k.advance t ok).2.nextAid (k.advance t ok).2.aprocs := by
  unfold advance
  split
  · exact .same
  · next f ht =>
    unfold cloneFirst
    split_ifs
    · exact .same
    · split
      · exact .same
      · next a p hf =>
        obtain ⟨h, -, -, hp⟩ := target_eq_some hf
        split
        · exact .same
        · next hj =>
          have he : Effect k (.run t ok) _ _ := join_effect hp hj
          exact he
  · next f ht =>
    unfold publish
    split
    · exact .same
    · split_ifs <;> exact .same
  · next f ht =>
    unfold cloneMore
    split_ifs
    · exact .same
    · split
      · exact .same
      · next a p hf =>
        obtain ⟨h, -, -, hp⟩ := target_eq_some hf
        split
        · exact .same
        · next hj =>
          have he : Effect k (.run t ok) _ _ := join_effect hp hj
          exact he
  · next a ht =>
    have hd : k.drops (.run t ok) = some a := by simp [drops, ht]
    have he := put_effect hd
    rw [← put_nextAid k a] at he
    exact he
  · next f c stage ht =>
    split
    · exact .same
    · next a p hf => exact move_effect ht hf

theorem create_effect (k : Machine) (parent : Option ℕ) :
    Effect k (.create parent) (k.create parent).2.nextAid (k.create parent).2.aprocs := by
  unfold create
  split
  · exact .same
  · next ceiling _ =>
    split
    · exact .same
    · next aid ha =>
      unfold allocId at ha
      split_ifs at ha
      cases ha
      exact .create ceiling

theorem release_effect (k : Machine) (f : ℕ) :
    Effect k (.release f) (k.release f).2.nextAid (k.release f).2.aprocs := by
  unfold release
  split
  · exact .same
  · next h hh =>
    split_ifs with hheld
    · exact .same
    · have hd : k.drops (.release f) = some h.aid := by simp [drops, hh, hheld]
      have he := put_effect hd
      rw [← put_nextAid k h.aid] at he
      exact he

/-- Everything a step does to the aprocs. -/
theorem next_effect (k : Machine) (op : Op) :
    Effect k op (k.next op).nextAid (k.next op).aprocs := by
  cases op with
  | create parent => exact create_effect k parent
  | release f => exact release_effect k f
  | run t ok => exact advance_effect k t ok
  | spawn fd =>
    simp only [next, step, spawn]
    split
    · exact .same
    · split_ifs <;> exact .same
  | attach fd refused =>
    simp only [next, step, attach]
    split
    · exact .same
    · next h p hl =>
      split
      · exact .same
      · split
        · exact .same
        · next hj => exact join_effect (lookup_eq_ok hl).2.2.2 hj
  | fork a koid =>
    simp only [next, step, fork]
    split
    · exact .same
    · next p hp =>
      split_ifs
      · exact .same
      · split
        · exact .same
        · next hj => exact join_effect hp hj
  | exit a koid =>
    simp only [next, step, exit]
    split
    · exact .same
    · next p hp =>
      split_ifs with hm
      · exact .same
      · exact .change hp (.exit koid rfl (by simpa using hm))
  | duplicate fd rights =>
    simp only [next, step, duplicate]
    split
    · exact .same
    · next h p hl =>
      split_ifs
      · exact .same
      · exact .change (lookup_eq_ok hl).2.2.2 (.refs _)
  | dup fd | close fd =>
    simp only [next, step, setFds]
    split
    · exact .same
    · split_ifs <;> exact .same
  | freeze fd | resume fd | abort fd =>
    simp only [next, step, transitionFd]
    split <;> exact .same
  | reap fd =>
    simp only [next, step, reap]
    split
    · exact .same
    · next h p hl =>
      have hc : Change k (.reap fd) h.aid p _ := .reap
      split
      all_goals
        next hr =>
        rw [hr] at hc
        exact .change (lookup_eq_ok hl).2.2.2 hc
  | setBudget fd b =>
    simp only [next, step, setBudget]
    split_ifs
    · exact .same
    · split
      · exact .same
      · next h p hl =>
        have hc : Change k (.setBudget fd b) h.aid p _ := .setBudget b ⟨fd, rfl⟩
        split
        all_goals
          next hr =>
          rw [hr] at hc
          exact .change (lookup_eq_ok hl).2.2.2 hc
  | getBudget fd cpuUsec bytes =>
    simp only [next, step, getBudget]
    split
    · exact .same
    · split_ifs <;> exact .same
  | tokenUsage fd u =>
    simp only [next, step, tokenUsage]
    split_ifs
    · exact .same
    · split
      · exact .same
      · next h p hl =>
        have hc : Change k (.tokenUsage fd u) h.aid p _ := .report u ⟨fd, rfl⟩
        split
        all_goals
          next hr =>
          rw [hr] at hc
          exact .change (lookup_eq_ok hl).2.2.2 hc
  | bind source target policy refused =>
    simp only [next, step, bind]
    split_ifs
    · exact .same
    · split <;> exact .same
  | drop source => exact .same
  | wake source pending =>
    simp only [next, step, wake]
    split
    · exact .same
    · split_ifs
      · exact .same
      · split <;> exact .same

def commits (k : Machine) (a : ℕ) : Op → Option Cause
  | .run t true =>
    match k.threads[t]? with
    | some (.moving f c .locked) =>
      match k.target f with
      | some (b, _) => if b = a then some c else none
      | none => none
    | _ => none
  | _ => none

theorem move_locked (k : Machine) (t f a : ℕ) (p : Aproc) (c : Cause) :
    (k.move t f a p c true .locked).2.aprocs =
      k.aprocs.insert a (p.transition c.state c.automatic c.resource).2 := by
  have htrue : ¬ true = false := by decide
  simp only [move, if_neg htrue]
  split
  all_goals
    next htr =>
    rw [htr]
    rfl

theorem next_commits {c : Cause} (h : k.commits a op = some c) :
    ∃ p, k.aprocs[a]? = some p ∧
      (k.next op).aprocs[a]? = some (p.transition c.state c.automatic c.resource).2 := by
  unfold commits at h
  split at h
  · next t =>
    split at h
    · next f c' ht =>
      split at h
      · next b p hf =>
        split_ifs at h with hb
        cases h
        subst hb
        obtain ⟨-, -, -, hp⟩ := target_eq_some hf
        have hrun : (k.next (.run t true)).aprocs =
            k.aprocs.insert b (p.transition c.state c.automatic c.resource).2 := by
          simp only [next, step, advance, ht, hf]
          exact move_locked k t f b p c
        exact ⟨p, hp, by rw [hrun, Table.get_insert_self]⟩
      · cases h
    · cases h
  · cases h

/-! ## One aproc over a step -/

def Issued (k : Machine) : Prop := ∀ a p, k.aprocs[a]? = some p → a ≤ k.nextAid

theorem next_get {p' : Aproc} (h : (k.next op).aprocs[a]? = some p') :
    k.aprocs[a]? = some p' ∨ (∃ p, k.aprocs[a]? = some p ∧ Change k op a p p') ∨
      ∃ ceiling, a = k.nextAid + 1 ∧ p' = .fresh a ceiling := by
  have he := next_effect k op
  generalize (k.next op).nextAid = n at he
  generalize (k.next op).aprocs = t at he h
  cases he with
  | same => exact .inl h
  | create ceiling =>
    rw [Table.get_insert] at h
    split_ifs at h with ha
    · subst ha
      exact .inr (.inr ⟨ceiling, rfl, (Option.some.inj h).symm⟩)
    · exact .inl h
  | @change b p q hp hc =>
    rw [Table.get_insert] at h
    split_ifs at h with ha
    · subst ha
      obtain rfl := Option.some.inj h
      exact .inr (.inl ⟨p, hp, hc⟩)
    · exact .inl h
  | @free b p hp =>
    rw [Table.get_erase] at h
    split_ifs at h
    exact .inl h

theorem next_nextAid (k : Machine) (op : Op) : k.nextAid ≤ (k.next op).nextAid := by
  have he := next_effect k op
  generalize (k.next op).nextAid = n at he ⊢
  generalize (k.next op).aprocs = t at he
  cases he with
  | create => exact Nat.le_succ _
  | same | change | free => exact le_rfl

theorem Issued.next (h : k.Issued) (op : Op) : (k.next op).Issued := by
  have he := next_effect k op
  intro a p hp
  generalize (k.next op).nextAid = n at he ⊢
  generalize (k.next op).aprocs = t at he hp
  cases he with
  | same => exact h a p hp
  | create ceiling =>
    rw [Table.get_insert] at hp
    split_ifs at hp with ha
    · exact ha.symm.le
    · exact (h a p hp).trans (Nat.le_succ _)
  | change hold hc =>
    rw [Table.get_insert] at hp
    split_ifs at hp with ha
    · subst ha
      exact h _ _ hold
    · exact h a p hp
  | free =>
    rw [Table.get_erase] at hp
    split_ifs at hp
    exact h a p hp

theorem next_absent (ha : a ≤ k.nextAid) (h : k.aprocs[a]? = none) :
    (k.next op).aprocs[a]? = none := by
  cases hn : (k.next op).aprocs[a]? with
  | none => rfl
  | some p' =>
    rcases next_get hn with hp | ⟨p, hp, -⟩ | ⟨ceiling, he, -⟩
    · rw [h] at hp
      cases hp
    · rw [h] at hp
      cases hp
    · omega

theorem after_issued (ops : List Op) : (after ops).Issued :=
  Trace.run_keeps (fun _ op h => h.next op) (fun a p hp => by simp [boot] at hp) ops

theorem next_aprocs {Q : Aproc → Prop} (hfresh : ∀ aid ceiling, Q (.fresh aid ceiling))
    (hchange : ∀ (a : ℕ) p p', k.aprocs[a]? = some p → Change k op a p p' → Q p → Q p')
    (hk : ∀ (a : ℕ) p, k.aprocs[a]? = some p → Q p) (a : ℕ) (p' : Aproc)
    (hp' : (k.next op).aprocs[a]? = some p') : Q p' := by
  rcases next_get hp' with hp | ⟨p, hp, hc⟩ | ⟨ceiling, -, rfl⟩
  · exact hk a p' hp
  · exact hchange a p p' hp hc (hk a p hp)
  · exact hfresh a ceiling

/-- A property every change keeps holds of every aproc of a run. -/
theorem along_aprocs {P : Machine → Op → Prop} {Q : Aproc → Prop}
    (hfresh : ∀ aid ceiling, Q (.fresh aid ceiling))
    (hchange : ∀ k op a p p', P k op → k.aprocs[a]? = some p → Change k op a p p' → Q p → Q p')
    {ops : List Op} (h : Trace.Along next P boot ops) :
    ∀ (a : ℕ) p, (after ops).aprocs[a]? = some p → Q p := by
  refine h.keeps (I := fun k : Machine => ∀ (a : ℕ) p, k.aprocs[a]? = some p → Q p) ?_ ?_
  · exact fun k op hk hP => next_aprocs hfresh (fun a p p' => hchange k op a p p' hP) hk
  · intro a p hp
    simp [boot] at hp

end Machine

end Aok.Kernel.Aprocs
