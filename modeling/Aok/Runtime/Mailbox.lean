import Aok.Runtime.Supervisor

/-!
# Mailboxes

Admission against the application's and the supervisor's limits, and the control-plane
side of delivery. The limits are recomputed from the message statuses at each
admission; nothing else counts messages.
-/

namespace Aok.Runtime
open Lib Lib.Utf8 Lib.JsonText Lib.JsonValue Lib.Command

def maxTextBytes : ℕ := 262144
def maxApplicationMailboxMessages : ℕ := 256
def maxApplicationMailboxBytes : ℕ := 2097152
def maxSupervisorMailboxMessages : ℕ := 1024
def maxSupervisorMailboxBytes : ℕ := 16777216

structure MailboxUsage where
  messages : ℕ
  payloadBytes : ℕ
  maxMessages : ℕ
  maxPayloadBytes : ℕ
deriving DecidableEq

structure MailboxCapacity where
  application : MailboxUsage
  supervisor : MailboxUsage
deriving DecidableEq

/-- `accepts`; the source subtracts in `int64`, where the difference may be negative. -/
def MailboxUsage.accepts (u : MailboxUsage) (bytes : ℕ) : Bool :=
  u.messages < u.maxMessages && u.payloadBytes + bytes ≤ u.maxPayloadBytes

def MsgStatus.isCharged : MsgStatus → Bool
  | .pending | .claimed => true
  | .acked | .expired => false

def chargedCount (ms : List MailboxMessage) : ℕ := ms.countP fun m => m.status.isCharged

def chargedBytes (ms : List MailboxMessage) : ℕ :=
  ((ms.filter fun m => m.status.isCharged).map fun m => m.payload.length).sum

/-- `mailboxCapacityLocked`. -/
def State.mailboxCapacity (s : State) (id : GoString) : MailboxCapacity where
  application := ⟨chargedCount (s.messages id), chargedBytes (s.messages id),
    maxApplicationMailboxMessages, maxApplicationMailboxBytes⟩
  supervisor := ⟨Table.total (fun _ => chargedCount) s.mailbox,
    Table.total (fun _ => chargedBytes) s.mailbox,
    maxSupervisorMailboxMessages, maxSupervisorMailboxBytes⟩

def messageID (sequence : ℕ) : GoString := lit "msg-" ++ dec sequence

def Application.isRetired (a : Application) : Bool :=
  a.state == .tombstoned || a.state == .retiring

def setFirst {α : Type} (p : α → Bool) (f : α → α) : List α → List α
  | [] => []
  | x :: xs => if p x then f x :: xs else x :: setFirst p f xs

def MailboxMessage.withStatus (status : MsgStatus) (m : MailboxMessage) : MailboxMessage :=
  { m with status }

def MailboxMessage.expire (m : MailboxMessage) : MailboxMessage :=
  if m.status.isCharged then m.withStatus .expired else m

def taintedPayload (payload : Bytes) : UInt64 := (readField (lit "taint") asUInt64 0 payload).1

def Application.addTaint (taint : UInt64) (a : Application) : Application :=
  { a with taintBits := a.taintBits ||| taint }

variable {K : Type} (env : Env K)

def expireMailboxLocked (id : GoString) : Op K Unit :=
  updateMailbox id (List.map MailboxMessage.expire)

def accumulateTaint (id : GoString) (taint : UInt64) : Op K Unit :=
  updateApplication id (Application.addTaint taint)

/-- `enqueueLocked` stages a record; callers commit it with any source progress. -/
def enqueueLocked (principal id key : GoString) (payload : Bytes) : Op K MailboxMessage := do
  let a ← findApplication id
  require (a.isRetired = false) .applicationRetired
  require (key ≠ [] ∧ key.length ≤ 256) (.new "invalid idempotency key")
  require (validJson payload ∧ payload.length ≤ 6 * maxTextBytes) (.new "invalid mailbox payload")
  let s ← getState
  match (s.messages id).find? fun m => m.idempotencyKey = key with
  | some m => do
    require (m.payload = compact payload) .duplicateMessage
    pure m
  | none => do
    let capacity := s.mailboxCapacity id
    require (capacity.application.accepts (compact payload).length ∧
      capacity.supervisor.accepts (compact payload).length) .mailboxFull
    let t ← now env
    let n := s.nextSequence + 1
    let m : MailboxMessage := ⟨messageID n, key, compact payload, .pending, n, t, 0⟩
    editState fun s => { s with
      nextSequence := n
      mailbox := s.mailbox.insert id (s.messages id ++ [m]) }
    auditLocked env principal id (lit "mailbox.enqueue") key (lit "allow") []
    pure m

def isReservedKey (key : GoString) : Bool :=
  (lit "lsfs:").isPrefixOf key || (lit "timer:").isPrefixOf key || (lit "kernel:").isPrefixOf key

def enqueue (principal id key : GoString) (payload : Bytes) : Op K MailboxMessage := do
  require (isReservedKey key = false) (.new "reserved event idempotency key")
  require (payload.length ≤ maxTextBytes) (.new "invalid mailbox payload")
  let before ← getState
  let m ← enqueueLocked env principal id key payload
  let after ← getState
  if after.nextSequence ≠ before.nextSequence then do
    persistLocked env
    pure m
  else pure m

def claimMailbox (principal id : GoString) : Op K (List MailboxMessage) := do
  let a ← findApplication id
  require (a.state ≠ .tombstoned) .applicationRetired
  let s ← getState
  let out := ((s.messages id).filter fun m => m.status = .pending).map (·.withStatus .claimed)
  if out = [] then pure []
  else do
    updateMailbox id (List.map fun m =>
      if m.status = .pending then m.withStatus .claimed else m)
    accumulateTaint id (out.foldl (fun taint m => taint ||| taintedPayload m.payload) 0)
    auditLocked env principal id (lit "mailbox.claim") id (lit "allow") []
    persistLocked env
    pure out

def ackMailbox (principal id messageID : GoString) : Op K Unit := do
  let s ← getState
  match (s.messages id).find? fun m => m.messageID = messageID with
  | none => fail (.new "mailbox message not found")
  | some m =>
    if m.status = .acked then pure ()
    else do
      require (m.status = .claimed) (.new "message is not claimed")
      updateMailbox id (setFirst (fun m => m.messageID = messageID) (·.withStatus .acked))
      auditLocked env principal id (lit "mailbox.ack") messageID (lit "allow") []
      persistLocked env

end Aok.Runtime
