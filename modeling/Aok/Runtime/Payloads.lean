import Aok.Lib.JsonCompact
import Aok.Runtime.Capacity

/-!
# Payloads

A payload is normalised when it is admitted and whenever the state is written. The normal form
reads as the same value, is at most six times as long, and is its own normal form: a timer's
payload passes the check of a later admission, and a message that is sent again is compared with
the same bytes before and after a restart.
-/

namespace Aok.Runtime
open Lib Lib.Utf8 Lib.JsonText Lib.JsonValue Lib.Command Lib.Journal Sample

variable {K : Type} {U : Prop} {S : Terms} {env : Env K} {payload : Bytes} {c c' : Core} {k : Level}

theorem validJson_iff : validJson payload = true ↔ ∃ v, parse payload = some v :=
  Option.isSome_iff_exists

theorem parse_normal (h : validJson payload) : parse (compact payload) = parse payload := by
  obtain ⟨v, hv⟩ := validJson_iff.mp h
  rw [parse_compact hv, hv]

theorem Mailable.normal (h : Mailable payload) : Mailable (compact payload) := by
  obtain ⟨hvalid, -, hlen⟩ := h
  refine ⟨?_, hlen, by rwa [compact_compact]⟩
  rwa [validJson, parse_normal hvalid]

/-! ## Timers -/

theorem Change.timers (h : Change U S env c k c')
    (ht : Each (fun _ t => Mailable t.payload) c.state.timers) :
    Each (fun _ t => Mailable t.payload) c'.state.timers := by
  cases h with
  | side hframe => exact hframe.timers ht
  | shelf hframe => exact hframe.timers ht
  | cosign => simpa only [Core.withState_state] using ht
  | _ => exact ht

theorem timers_lasting : Lasting U S env fun c =>
    WellFormed U c ∧ Each (fun _ t => Mailable t.payload) c.state.timers where
  change := fun _ _ _ h hc => ⟨h.wellFormed hc.1, h.timers hc.2⟩
  reopen := fun _ hc => ⟨hc.1.reopen, hc.2.image fun _ _ ht => ht.normal⟩

/-! ## Admissions -/

def MailboxUsage.IsEmpty (u : MailboxUsage) : Prop := u.messages = 0 ∧ u.payloadBytes = 0

/-- Empty mailboxes have room for any payload that is taken. -/
theorem hasRoom_of_isEmpty {s : State} {id : GoString} (hp : Mailable payload)
    (ha : (s.mailboxCapacity id).application.IsEmpty)
    (hs : (s.mailboxCapacity id).supervisor.IsEmpty) : s.HasRoom id (compact payload).length := by
  have hlen : (compact payload).length ≤ 1572864 := hp.2.2
  obtain ⟨ham, hab⟩ := ha
  obtain ⟨hsm, hsb⟩ := hs
  refine ⟨MailboxUsage.accepts_iff.mpr ?_, MailboxUsage.accepts_iff.mpr ?_⟩
  · rw [ham, hab]
    change 0 < 256 ∧ 0 + _ ≤ 2097152
    omega
  · rw [hsm, hsb]
    change 0 < 1024 ∧ 0 + _ ≤ 16777216
    omega

theorem enqueueLocked_takes {w : World K} {principal id key : GoString} {e : Err}
    (hp : Mailable payload) (he : (enqueueLocked env principal id key payload w).1 = .error e) :
    e ≠ .new "invalid mailbox payload" ∧
      (e = .mailboxFull → ¬ ((w.sup.core.state.mailboxCapacity id).application.IsEmpty ∧
        (w.sup.core.state.mailboxCapacity id).supervisor.IsEmpty)) := by
  have hrefused : Refusal w.sup.core.state id key payload e :=
    Ends.error (E := fun e _ => Refusal w.sup.core.state id key payload e) (Q := fun _ _ => True)
      (S := fun _ => True)
      (enqueueLocked_exact (fun _ _ _ _ => trivial) (fun _ _ _ => trivial) fun _ h => h) he
  cases hrefused with
  | unsendable _ hfull hinvalid =>
    exact ⟨fun h => hinvalid h ⟨hp.1, hp.2.1⟩, fun h => absurd h hfull⟩
  | duplicate => exact ⟨by simp, by simp⟩
  | full _ _ hroom => exact ⟨by simp, fun _ h => hroom (hasRoom_of_isEmpty hp h.1 h.2)⟩

end Aok.Runtime
