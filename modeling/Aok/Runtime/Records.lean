import Aok.Lib.Issue
import Aok.Runtime.Gateway
import Aok.Runtime.Hostfs

/-!
# Records under a number of the supervisor

Messages, outbox entries, mounts and transfers get their ids from one sequence. A `Record` is
what stays of one of them as long as it is kept, in the form in which it is stored.
-/

namespace Aok.Runtime
open Lib Lib.Utf8 Lib.JsonText Lib.JsonValue

inductive RecordKind where
  | message
  | entry
  | mount
  | transfer
deriving DecidableEq

def RecordKind.id : RecordKind → ℕ → GoString
  | .message => messageID
  | .entry => outboxEntryID
  | .mount => mountID
  | .transfer => transferID

/-- The owner is the application or, for an outbox entry, the conversation. -/
structure Record where
  kind : RecordKind
  id : GoString
  owner : GoString
  key : GoString
  payload : Bytes
deriving DecidableEq

def Record.tag (r : Record) (n : ℕ) : GoString := r.kind.id n

def MailboxMessage.record (id : GoString) (m : MailboxMessage) : Record :=
  ⟨.message, sanitize m.messageID, sanitize id, sanitize m.idempotencyKey, compact m.payload⟩

def OutboxEntry.record (e : OutboxEntry) : Record :=
  ⟨.entry, sanitize e.entryID, sanitize e.conversationID, sanitize e.idempotencyKey,
    compact e.payload⟩

def HostfsMount.record (m : HostfsMount) : Record :=
  ⟨.mount, sanitize m.mountID, sanitize m.applicationID, sanitize m.guestPath, lit m.mode.text⟩

def ArtifactTransfer.record (t : ArtifactTransfer) : Record :=
  ⟨.transfer, sanitize t.transferID, sanitize t.applicationID, sanitize t.idempotencyKey,
    compact t.payload⟩

namespace State

def messageRecords (s : State) : List Record :=
  s.mailbox.contents fun id ms => ms.map (MailboxMessage.record id)

def entryRecords (s : State) : List Record := s.outbox.map OutboxEntry.record

def mountRecords (s : State) : List Record := s.hostfsMounts.contents fun _ m => [m.record]

def transferRecords (s : State) : List Record := s.transfers.map ArtifactTransfer.record

def records (s : State) : List Record :=
  s.messageRecords ++ s.entryRecords ++ s.mountRecords ++ s.transferRecords

end State

def RecordKind.mark : RecordKind → GoString
  | .message => lit "msg-"
  | .entry => lit "out-"
  | .mount => lit "mnt-"
  | .transfer => lit "xfer-"

theorem RecordKind.id_eq (k : RecordKind) (n : ℕ) : k.id n = k.mark ++ dec n := by
  cases k <;> rfl

theorem RecordKind.id_injective {k k' : RecordKind} {n n' : ℕ} (h : k.id n = k'.id n') :
    k = k' ∧ n = n' := by
  rw [RecordKind.id_eq, RecordKind.id_eq] at h
  have hlength : ∀ k : RecordKind, 2 ≤ k.mark.length := by
    intro k
    cases k <;> decide
  have hmarks : ∀ k k' : RecordKind, k.mark.take 2 = k'.mark.take 2 → k = k' := by
    intro k k'
    cases k <;> cases k' <;> decide
  have htake := congrArg (List.take 2) h
  rw [List.take_append_of_le_length (hlength k), List.take_append_of_le_length (hlength k')] at htake
  obtain rfl := hmarks k k' htake
  exact ⟨rfl, dec_injective (List.append_cancel_left h)⟩

theorem Record.tag_injective (r r' : Record) (n n' : ℕ) (h : r.tag n = r'.tag n') : n = n' :=
  (RecordKind.id_injective h).2

end Aok.Runtime
