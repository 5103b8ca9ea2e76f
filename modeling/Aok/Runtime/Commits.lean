import Aok.Runtime.Runs

/-!
# Transactions

Most operations are one transaction: either a state is committed that is also the live one,
or nothing of what they did stays. A step that is a transaction of this kind keeps everything
that holds of its copies or commits a known state.
-/

namespace Aok.Runtime
open Lib Lib.Utf8 Lib.JsonText Lib.JsonValue Lib.Command Lib.Journal

variable {K α β : Type} {U P : Prop} {S : Terms} {env : Env K} {w w' : World K}
  {s s' : System K} {e : Event K}
variable {c : Op K α} {k : Unit → Op K α} {next : Except Err α → System K → System K}

def Commits (Q : Core → Prop) (st : Store Core State) : Prop := ∃ c, st = codec.commit c ∧ Q c

/-- The operation is a transaction on a store: it ends with a value, with an error and in general
nothing left of what it did, or with the process and nothing written. -/
def Transacts (st : Store Core State) (Q : α → Store Core State → Prop)
    (E : Err → Store Core State → Prop) (c : Op K α) (w : World K) : Prop :=
  Ends c w (fun a w => Q a w.store) (fun e w => Undone codec st w.store ∨ E e w.store)
    fun w => w.db = st.disk

variable {st : Store Core State} {Q : α → Store Core State → Prop}
  {E : Err → Store Core State → Prop}

theorem restore_undone (hs : w.sup.committed = st.saved) (hd : w.db = st.disk) (n : ℕ) :
    Undone codec st ({ w with tick := n }.restore).store := by
  refine .inr ?_
  change (⟨codec.reopen w.sup.committed, w.sup.committed, w.db⟩ : Store Core State) = _
  rw [hs, hd]

namespace Transacts

theorem mono {Q' : α → Store Core State → Prop} {E' : Err → Store Core State → Prop}
    (h : Transacts st Q E c w) (hQ : ∀ a l, Q a l → Q' a l) (hE : ∀ x l, E x l → E' x l) :
    Transacts st Q' E' c w :=
  Ends.mono h (fun _ _ => hQ _ _) (fun _ _ h => h.imp_right (hE _ _)) fun _ h => h

theorem pure {a : α} (h : Q a w.store) : Transacts st Q E (Pure.pure a : Op K α) w := h

theorem fail {x : Err} (h : w.store = st) : Transacts st Q E (Command.fail x : Op K α) w :=
  .inl (.inl h)

theorem fail_of {x : Err} (h : E x w.store) : Transacts st Q E (Command.fail x : Op K α) w := .inr h

theorem call {c : Op K β} {k : β → Op K α}
    (h : Ends c w (fun b w' => Transacts st Q E (k b) w') (fun _ w' => Undone codec st w'.store)
      fun w' => w'.db = st.disk) : Transacts st Q E (c >>= k) w :=
  ends_bind.mpr (h.mono (fun _ _ h => h) (fun _ _ h => .inl h) fun _ h => h)

theorem ask {f : World K → β} {k : β → Op K α} (h : Transacts st Q E (k (f w)) w) :
    Transacts st Q E (Command.ask f >>= k) w := h

theorem getState {k : State → Op K α} (h : Transacts st Q E (k w.sup.core.state) w) :
    Transacts st Q E (Runtime.getState >>= k) w := h

theorem require {p : Prop} [Decidable p] {x : Err} (hst : w.store = st)
    (h : p → Transacts st Q E (k ()) w) : Transacts st Q E (Command.require p x >>= k) w :=
  ends_bind.mpr (ends_require.mpr ⟨h, fun _ => .inl (.inl hst)⟩)

theorem findApplication {id : GoString} {k : Application → Op K α} (hst : w.store = st)
    (h : ∀ a, w.sup.core.state.applications[id]? = some a → Transacts st Q E (k a) w) :
    Transacts st Q E (Runtime.findApplication id >>= k) w :=
  ends_bind.mpr (findApplication_ends h fun _ => .inl (.inl hst))

theorem now {k : ℤ → Op K α} (h : ∀ n, Transacts st Q E (k (env.now w.tick)) { w with tick := n }) :
    Transacts st Q E (Runtime.now env >>= k) w :=
  ends_bind.mpr (h _)

theorem edit {f : Core → Core} (h : Transacts st Q E (k ()) (w.setCore (f w.sup.core))) :
    Transacts st Q E (editCore f >>= k) w :=
  ends_bind.mpr h

theorem editState {f : State → State}
    (h : Transacts st Q E (k ()) (w.setCore (w.sup.core.withState f))) :
    Transacts st Q E (Runtime.editState f >>= k) w :=
  ends_bind.mpr h

theorem audit {principal applicationID action object decision reason : GoString}
    (h : ∀ t n, Transacts st Q E (k ()) ({ w with tick := n }.setCore (w.sup.core.audit
      env.sha256 t principal applicationID action object decision reason))) :
    Transacts st Q E (auditLocked env principal applicationID action object decision reason >>= k)
      w := by
  refine ends_bind.mpr ?_
  unfold auditLocked Runtime.now
  rw [ends_bind]
  exact h _ _

theorem persist (hs : w.sup.committed = st.saved) (hd : w.db = st.disk)
    (h : ∀ n, Transacts st Q E (k ()) { w with tick := n }.commit) :
    Transacts st Q E (persistLocked env >>= k) w :=
  ends_bind.mpr (persistLocked_ends (h _) (fun _ => .inl (restore_undone hs hd _)) hd)

theorem ignorePersist (hs : w.sup.committed = st.saved) (hd : w.db = st.disk)
    (hok : ∀ n, Transacts st Q E (k ()) { w with tick := n }.commit)
    (hundo : ∀ w' : World K, Undone codec st w'.store → Transacts st Q E (k ()) w') :
    Transacts st Q E (ignoreError (persistLocked env) >>= k) w := by
  refine ends_bind.mpr ?_
  unfold ignoreError
  rw [ends_bind, ends_attempt]
  exact persistLocked_ends (hok _) (fun _ => hundo _ (restore_undone hs hd _)) hd

theorem persist_last {Q : Unit → Store Core State → Prop} (hs : w.sup.committed = st.saved)
    (hd : w.db = st.disk) (h : Q () (codec.commit w.sup.core)) : Transacts st Q E (persistLocked env) w :=
  persistLocked_ends h (fun _ => .inl (restore_undone hs hd _)) hd

end Transacts

theorem discard_transacts (h : Transacts st Q E c w) :
    Transacts st (fun _ l => ∃ a, Q a l) E (discard c) w :=
  ends_bind.mpr (Ends.mono h (fun a _ h => ⟨a, h⟩) (fun _ _ h => h) fun _ h => h)

/-! ## Steps -/

def System.Keeps (s s' : System K) : Prop := ∀ Q, s.Holds Q → s'.Holds Q

theorem System.Keeps.of_undone (hup : s.up = true) (h : Undone codec s.world.store s'.world.store) :
    s.Keeps s' := by
  intro Q hQ
  have hall := (hQ.store hup).undone h
  exact ⟨hall.disk, fun _ => hall⟩

theorem System.Keeps.of_down (h : s'.world.db = s.world.db) (hdown : s'.up = false) :
    s.Keeps s' := by
  intro Q hQ
  exact ⟨h ▸ hQ.disk, by simp [hdown]⟩

theorem System.Holds.of_commit {Q : Core → Prop} {c : Core} (hc : s.world.store = codec.commit c)
    (hlive : Q c) (hsaved : Q (codec.reopen (codec.save c))) : s.Holds Q := by
  have hall : Everywhere codec Q s.world.store := hc ▸ .commit hlive hsaved
  exact ⟨hall.disk, fun _ => hall⟩

theorem perform_transacts (hup : s.up = true) (hc : Transacts s.world.store Q E c s.world)
    (hnext : ∀ r t, (next r t).world = t.world) :
    (∃ a, (c s.world).1 = .ok a ∧ Q a (s.perform c next).world.store) ∨
    (∀ a, (c s.world).1 ≠ .ok a) ∧ (s.Keeps (s.perform c next) ∨
      ∃ x, (c s.world).1 = .error x ∧ E x (s.perform c next).world.store) := by
  unfold Transacts Ends at hc
  unfold System.perform
  generalize c s.world = r at hc ⊢
  rcases r with ⟨a | x | _, w⟩
  · exact .inl ⟨a, rfl, by rw [hnext]; exact hc⟩
  · refine .inr ⟨by simp, hc.imp (fun hu => .of_undone hup ?_) fun hx => ⟨x, rfl, ?_⟩⟩
    · rw [hnext]
      exact hu
    · rw [hnext]
      exact hx
  · exact .inr ⟨by simp, .inl (.of_down hc rfl)⟩

theorem perform_discard (s : System K) (c : Op K α) :
    s.perform (discard c) (fun _ t => t) = s.perform c fun _ t => t := by
  unfold System.perform discard
  simp only [Bind.bind, Cmd.bind]
  generalize c s.world = r
  rcases r with ⟨_ | _ | _, v⟩ <;> rfl

theorem perform_up {a : α} (hok : (c s.world).1 = .ok a) (hnext : ∀ x t, (next x t).up = t.up) :
    (s.perform c next).up = s.up := by
  unfold System.perform
  generalize c s.world = r at hok ⊢
  rcases r with ⟨_ | _ | _, v⟩ <;> cases hok
  exact hnext _ _

theorem perform_undoes {R : Store Core State → Prop} (hup : s.up = true)
    (hc : Transacts s.world.store (fun _ st => Undone codec s.world.store st ∨ R st) (fun _ => R) c
      s.world)
    (hnext : ∀ r t, (next r t).world = t.world) :
    s.Keeps (s.perform c next) ∨ R (s.perform c next).world.store := by
  rcases perform_transacts hup hc hnext with ⟨a, -, h⟩ | ⟨-, h | ⟨x, -, h⟩⟩
  · exact h.imp_left fun hu => .of_undone hup hu
  · exact .inl h
  · exact .inr h

theorem System.Holds.manifest {Q : Core → Prop} (hQ : Manifest U S env Q) (hs : s.Safe U)
    (ha : Allowed U S P env s e) (hstep : Runtime.step env s e = some s') (h : s.Holds Q) :
    s'.Holds Q := by
  have hstart : s.Holds fun c => WellFormed U c ∧ Q c := by
    refine ⟨⟨hs.disk, h.disk⟩, fun hup => ?_⟩
    have hall := h.store hup
    have hwf := hs.sound hup
    exact ⟨⟨hwf.live, hall.live⟩, ⟨hwf.saved, hall.saved⟩, ⟨hwf.disk, hall.disk⟩⟩
  exact (hstart.step hQ.lasting hs ha hstep).mono fun _ hc => hc.2

theorem step_of_down (hup : s.up = false) (h : step env s e = some s') :
    e = .start ∨ ∃ k, e = .kernel k := by
  simp only [step, hup, Bool.false_eq_true, if_false] at h
  cases e with
  | start => exact .inl rfl
  | kernel k => exact .inr ⟨k, rfl⟩
  | _ => cases h

theorem up_of_writes {d : Desk} (hw : e.Writes s d) (h : step env s e = some s') : s.up = true := by
  by_contra hup
  rcases step_of_down (Bool.eq_false_iff.mpr hup) h with rfl | ⟨k, rfl⟩ <;> exact hw

end Aok.Runtime
