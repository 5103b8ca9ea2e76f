import Aok.Lib.JsonCompact
import Aok.Runtime.Follows

/-!
# Admissions

What `enqueueLocked` does, exactly: it returns the message that is there, adds a new one
with its audit record, or refuses for a reason that can be read off the state.
-/

namespace Aok.Runtime
open Lib Lib.Utf8 Lib.JsonText Lib.JsonValue Lib.Command Lib.Journal

variable {K : Type} {U P : Prop} {S : Terms} {env : Env K} {b : Level} {w : World K}
variable {principal id key : GoString} {payload : Bytes}

def State.newMessage (s : State) (key : GoString) (payload : Bytes) (time : ℤ) : MailboxMessage :=
  ⟨messageID (s.nextSequence + 1), key, compact payload, .pending, s.nextSequence + 1, time, 0⟩

def State.accept (id : GoString) (m : MailboxMessage) (s : State) : State :=
  { s with nextSequence := m.sequence, mailbox := s.mailbox.insert id (s.messages id ++ [m]) }

/-- The message `enqueueLocked` adds in this world. -/
def World.newMessage (env : Env K) (key : GoString) (payload : Bytes) (w : World K) :
    MailboxMessage :=
  w.sup.core.state.newMessage key payload (env.now w.tick)

/-- The world after an admission: the message, its audit record, and two looks at the clock. -/
def World.accept (env : Env K) (principal id key : GoString) (payload : Bytes) (w : World K) :
    World K :=
  { w with tick := w.tick + 2 }.setCore
    ((w.sup.core.withState (State.accept id (w.newMessage env key payload))).audit env.sha256
      (env.now (w.tick + 1)) principal id (lit "mailbox.enqueue") key (lit "allow") [])

/-- What `enqueueLocked` asks of its arguments. -/
structure Sendable (s : State) (id key : GoString) (payload : Bytes) : Prop where
  application : ∃ a, s.applications[id]? = some a ∧ a.isRetired = false
  key : key ≠ [] ∧ key.length ≤ 256
  payload : validJson payload ∧ payload.length ≤ 6 * maxTextBytes

def State.messageWith (s : State) (id key : GoString) : Option MailboxMessage :=
  (s.messages id).find? fun m => m.idempotencyKey = key

def State.HasRoom (s : State) (id : GoString) (n : ℕ) : Prop :=
  (s.mailboxCapacity id).application.accepts n ∧ (s.mailboxCapacity id).supervisor.accepts n

/-- Why `enqueueLocked` refuses. -/
inductive Refusal (s : State) (id key : GoString) (payload : Bytes) : Err → Prop where
  | unsendable {e : Err} : ¬ Sendable s id key payload → e ≠ .mailboxFull →
    (e = .new "invalid mailbox payload" →
      ¬ (validJson payload ∧ payload.length ≤ 6 * maxTextBytes)) → Refusal s id key payload e
  | duplicate {m : MailboxMessage} : Sendable s id key payload → s.messageWith id key = some m →
    m.payload ≠ compact payload → Refusal s id key payload .duplicateMessage
  | full : Sendable s id key payload → s.messageWith id key = none →
    ¬ s.HasRoom id (compact payload).length → Refusal s id key payload .mailboxFull

/-- The endings of an admission. -/
theorem enqueueLocked_exact {Q : MailboxMessage → World K → Prop} {E : Err → World K → Prop}
    {C : World K → Prop}
    (hold : ∀ m, Sendable w.sup.core.state id key payload →
      w.sup.core.state.messageWith id key = some m → m.payload = compact payload → Q m w)
    (hnew : Sendable w.sup.core.state id key payload →
      w.sup.core.state.messageWith id key = none →
      w.sup.core.state.HasRoom id (compact payload).length →
      Q (w.newMessage env key payload) (w.accept env principal id key payload))
    (hE : ∀ e, Refusal w.sup.core.state id key payload e → E e w) :
    Ends (enqueueLocked env principal id key payload) w Q E C := by
  unfold enqueueLocked
  rw [ends_bind]
  refine findApplication_ends (fun a ha => ?_) fun hnone => hE _ (.unsendable ?_ (by simp) (by simp))
  · simp only [ends_bind, ends_require, ends_getState]
    refine ⟨fun hlive => ⟨fun hkey => ⟨fun hjson => ?_, fun h => ?_⟩, fun h => ?_⟩, fun h => ?_⟩
    · have hs : Sendable w.sup.core.state id key payload := ⟨⟨a, ha, hlive⟩, hkey, hjson⟩
      cases hf : (w.sup.core.state.messages id).find? fun m => m.idempotencyKey = key with
      | some m =>
        simp only [ends_bind, ends_require, ends_pure]
        exact ⟨fun hp => hold m hs hf hp, fun hp => hE _ (.duplicate hs hf hp)⟩
      | none =>
        simp only [ends_bind, ends_require]
        exact ⟨fun hroom => hnew hs hf hroom, fun hroom => hE _ (.full hs hf hroom)⟩
    · exact hE _ (.unsendable (fun hs => h hs.payload) (by simp) fun _ => h)
    · exact hE _ (.unsendable (fun hs => h hs.key) (by simp) (by simp))
    · refine hE _ (.unsendable (fun hs => ?_) (by simp) (by simp))
      obtain ⟨a', ha', hlive⟩ := hs.application
      cases ha.symm.trans ha'
      exact h hlive
  · rintro ⟨⟨a, ha, -⟩, -, -⟩
    cases hnone.symm.trans ha

theorem enqueueLocked_found {m : MailboxMessage} (hs : Sendable w.sup.core.state id key payload)
    (hm : w.sup.core.state.messageWith id key = some m) (hsame : compact payload = m.payload) :
    enqueueLocked env principal id key payload w = (.ok m, w) := by
  refine Ends.eq_ok (enqueueLocked_exact (fun x _ hx _ => ?_) (fun _ hnone _ => ?_) fun e he => ?_)
  · exact ⟨Option.some.inj (hx.symm.trans hm), rfl⟩
  · cases hnone.symm.trans hm
  · cases he with
    | unsendable hno => exact hno hs
    | duplicate _ hx hne =>
      obtain rfl := Option.some.inj (hx.symm.trans hm)
      exact hne hsame.symm
    | full _ hnone => cases hnone.symm.trans hm

structure Steady (w w' : World K) : Prop where
  contexts : w'.contexts = w.contexts
  attached : w'.sup.kernel = w.sup.kernel
  applications : w'.sup.core.state.applications = w.sup.core.state.applications
  bindings : w'.sup.core.state.bindings = w.sup.core.state.bindings
  timers : w'.sup.core.state.timers = w.sup.core.state.timers

theorem Steady.refl (w : World K) : Steady w w := ⟨rfl, rfl, rfl, rfl, rfl⟩

theorem Steady.trans {w₁ w₂ w₃ : World K} (h : Steady w₁ w₂) (k : Steady w₂ w₃) : Steady w₁ w₃ :=
  ⟨k.contexts.trans h.contexts, k.attached.trans h.attached, k.applications.trans h.applications,
    k.bindings.trans h.bindings, k.timers.trans h.timers⟩

theorem Sound.clear_id (h : Sound U w) {a : Application}
    (ha : w.sup.core.state.applications[id]? = some a) : Clear U id :=
  .of_valid (h.live.named.applications id a ha).1

theorem World.accept_path (hs : Sound U w) (hp : Clear U principal) (hk : Clear U key)
    (hsend : Sendable w.sup.core.state id key payload)
    (hnone : w.sup.core.state.messageWith id key = none)
    (hroom : w.sup.core.state.HasRoom id (compact payload).length) :
    Path U S env (b, w) (b ⊔ .main ⊔ .side, w.accept env principal id key payload) := by
  obtain ⟨a, ha, -⟩ := hsend.application
  have hadm : Admission U w.sup.core.state id (w.newMessage env key payload) := by
    refine ⟨by simp [State.Knows, ha], rfl, rfl, hk, hsend.key, compact_compact payload, ?_,
      hroom.1, hroom.2⟩
    intro x hx
    exact of_decide_eq_false (Bool.eq_false_iff.mpr (List.find?_eq_none.mp hnone x hx))
  have hrec : ClearRecord U principal id (lit "mailbox.enqueue") key (lit "allow") [] :=
    ⟨hp, hs.clear_id ha, clear_lit _, hk, clear_lit _, clear_nil⟩
  have h₁ : Path U S env (b, w) (b, { w with tick := w.tick + 2 }) := .tick
  exact (h₁.trans (Path.edit (.enqueue id _ hadm))).trans (Path.edit (.audit _ hrec))

theorem World.accept_steady : Steady w (w.accept env principal id key payload) :=
  ⟨rfl, rfl, rfl, rfl, rfl⟩

/-- The endings of an admission as a trail. -/
theorem enqueueLocked_ends {Q : MailboxMessage → World K → Prop}
    {E : Err → World K → Prop} {C : World K → Prop} (hs : Sound U w) (hp : Clear U principal)
    (hk : Clear U key)
    (hold : ∀ m, Q m w)
    (hnew : ∀ m w', Path U S env (b, w) (b ⊔ .main ⊔ .side, w') → Steady w w' →
      w.sup.core.state.nextSequence < w'.sup.core.state.nextSequence → Q m w')
    (hE : ∀ e, E e w) : Ends (enqueueLocked env principal id key payload) w Q E C := by
  refine enqueueLocked_exact (fun m _ _ _ => hold m) (fun hsend hnone hroom => ?_) fun e _ => hE e
  refine hnew _ _ (World.accept_path hs hp hk hsend hnone hroom) World.accept_steady ?_
  simp [World.accept, World.setCore, Core.audit, State.accept, World.newMessage, State.newMessage]

end Aok.Runtime
