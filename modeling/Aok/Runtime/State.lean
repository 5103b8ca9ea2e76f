import Aok.Lib.Table
import Aok.Lib.JsonValue

/-!
# The supervisor's durable state

The records of `supervisorState` under the source's names. Strings are Go byte
strings; the fields that only ever hold a few fixed words are enumerations. Counters
that grow by one per operation (`NextSequence`, `NextKernelID`) are natural numbers,
the other unsigned fields are machine words, times are integers.
-/

namespace Aok.Runtime
open Lib Lib.Utf8 Lib.JsonText Lib.JsonValue

abbrev GoString := Bytes

inductive AppState where
  | serving
  | frozen
  | retiring
  | tombstoned
deriving DecidableEq

inductive WakePolicy where
  | onEvent
  | manual
  | onQuiescent
deriving DecidableEq

inductive MsgStatus where
  | pending
  | claimed
  | acked
  | expired
deriving DecidableEq

inductive TurnStatus where
  | completed
  | failed
  | budgetExhausted
  | retired
deriving DecidableEq

/-- `FailureReason`; `none` is the empty string. -/
inductive FailureReason where
  | none
  | providerFailed
  | routeDenied
  | textOverflow
deriving DecidableEq

inductive CacheHit where
  | kvExact
  | prefixReplay
  | textReplay
deriving DecidableEq

inductive ConfirmationStatus where
  | pending
  | approved
  | denied
  | consumed
  | expired
deriving DecidableEq

inductive ChannelState where
  | active
  | paused
  | revoked
deriving DecidableEq

inductive OutboxStatus where
  | pending
  | sent
deriving DecidableEq

inductive HostfsMode where
  | ro
  | rw
  | appendOnly
  | dropboxIn
  | dropboxOut
deriving DecidableEq

inductive Direction where
  | inbound
  | outbound
deriving DecidableEq

def AppState.text : AppState → String
  | .serving => "serving"
  | .frozen => "frozen"
  | .retiring => "retiring"
  | .tombstoned => "tombstoned"

def TurnStatus.text : TurnStatus → String
  | .completed => "completed"
  | .failed => "failed"
  | .budgetExhausted => "budget_exhausted"
  | .retired => "retired"

def FailureReason.text : FailureReason → String
  | .none => ""
  | .providerFailed => "provider_failed"
  | .routeDenied => "route_denied"
  | .textOverflow => "text_overflow"

def CacheHit.text : CacheHit → String
  | .kvExact => "kv_exact"
  | .prefixReplay => "prefix_replay"
  | .textReplay => "text_replay"

def HostfsMode.text : HostfsMode → String
  | .ro => "ro"
  | .rw => "rw"
  | .appendOnly => "append-only"
  | .dropboxIn => "dropbox-in"
  | .dropboxOut => "dropbox-out"

structure RoutePolicy where
  version : UInt64
  backends : List GoString
deriving DecidableEq

structure RouteRecord where
  sequence : ℕ
  time : ℤ
  applicationID : GoString
  messageID : GoString
  policyVersion : UInt64
  provider : GoString
  compatKey : GoString
  fallbacks : UInt32
  cacheHitKind : CacheHit
  promptTokens : UInt64
  cachedTokens : UInt64
  outputTokens : UInt64
  status : TurnStatus
  reason : FailureReason
deriving DecidableEq

structure Application where
  applicationID : GoString
  ownerAgent : GoString
  forkParent : GoString
  contractVersion : UInt64
  state : AppState
  wakePolicy : WakePolicy
  checkpoint : GoString
  generation : UInt64
  createdAt : ℤ
  retiredAt : ℤ
  tokensUsed : UInt64
  tokensCached : UInt64
  tokenLimit : UInt64
  failures : UInt32
  contextID : GoString
  kernelID : ℕ
  lastProvider : GoString
  lastCompat : GoString
  routePolicy : RoutePolicy
  taintBits : UInt64
deriving DecidableEq

structure MailboxMessage where
  messageID : GoString
  idempotencyKey : GoString
  payload : Bytes
  status : MsgStatus
  sequence : ℕ
  createdAt : ℤ
  attempts : UInt32
deriving DecidableEq

structure AuditRecord where
  sequence : ℕ
  time : ℤ
  principal : GoString
  applicationID : GoString
  action : GoString
  object : GoString
  decision : GoString
  reason : GoString
  previousHash : GoString
  hash : GoString
deriving DecidableEq

structure Usage where
  inputTokens : UInt64
  outputTokens : UInt64
  cachedTokens : UInt64
deriving DecidableEq

structure TurnResult where
  applicationID : GoString
  messageID : GoString
  text : GoString
  usage : Usage
  status : TurnStatus
  checkpoint : GoString
  provider : GoString
  fallbacks : UInt32
  cacheHitKind : CacheHit
  failureReason : FailureReason
deriving DecidableEq

structure ApplicationTimer where
  applicationID : GoString
  timerID : GoString
  due : ℤ
  interval : ℤ
  payload : Bytes
deriving DecidableEq

/-- `Kind` is always `lsfs` and is left out. -/
structure WakeBinding where
  bindingID : GoString
  applicationID : GoString
  ref : GoString
  cursor : ℤ
  enabled : Bool
deriving DecidableEq

structure KernelEvent where
  bootID : GoString
  queueBootID : GoString
  recoveryPending : Bool
  applicationID : UInt64
  eventID : UInt64
  eventSeq : UInt64
  kind : UInt32
  coalesced : UInt32
  data : UInt64
deriving DecidableEq

structure RevokedToken where
  digest : GoString
  publicKey : Bytes
  subject : GoString
  caveats : List GoString
  time : ℤ
  reason : GoString
deriving DecidableEq

/-- `Reason` is a fixed text that nothing reads and is left out. -/
structure ConfirmationRequest where
  requestID : GoString
  applicationID : GoString
  kind : GoString
  object : GoString
  createdAt : ℤ
  expiresAt : ℤ
  status : ConfirmationStatus
  settledBy : GoString
deriving DecidableEq

structure WitnessCheckpoint where
  headHash : GoString
  count : ℕ
  time : ℤ
  publicKey : Bytes
  signature : Bytes
  signer : GoString
deriving DecidableEq

structure MessageChannel where
  channelID : GoString
  kind : GoString
  state : ChannelState
  createdAt : ℤ
deriving DecidableEq

/-- `Principal` is never written and is left out. -/
structure MessageConversation where
  channelID : GoString
  externalID : GoString
  applicationID : GoString
  lastSequence : ℤ
  createdAt : ℤ
deriving DecidableEq

structure OutboxEntry where
  entryID : GoString
  conversationID : GoString
  idempotencyKey : GoString
  payload : Bytes
  status : OutboxStatus
  attempts : UInt32
  createdAt : ℤ
  sentAt : ℤ
  receipt : GoString
deriving DecidableEq

structure HostfsMount where
  mountID : GoString
  applicationID : GoString
  hostPath : GoString
  guestPath : GoString
  mode : HostfsMode
  limitsBytes : ℤ
  version : UInt64
  enabled : Bool
  createdAt : ℤ
  expiresAt : ℤ
deriving DecidableEq

/-- `ArtifactSHA256` is never written and `Status` is always `committed`: both are left out. -/
structure ArtifactTransfer where
  transferID : GoString
  applicationID : GoString
  direction : Direction
  idempotencyKey : GoString
  payload : Bytes
  createdAt : ℤ
deriving DecidableEq

@[ext] structure State where
  applications : Table GoString Application
  mailbox : Table GoString (List MailboxMessage)
  audit : List AuditRecord
  nextSequence : ℕ
  results : Table GoString TurnResult
  prepared : Table GoString TurnResult
  timers : Table GoString ApplicationTimer
  bindings : Table GoString WakeBinding
  nextKernelID : ℕ
  kernelPending : Table GoString (List KernelEvent)
  routeRecords : List RouteRecord
  revokedTokens : List RevokedToken
  confirmations : Table GoString ConfirmationRequest
  witnessCheckpoints : List WitnessCheckpoint
  channels : Table GoString MessageChannel
  conversations : Table GoString MessageConversation
  outbox : List OutboxEntry
  hostfsMounts : Table GoString HostfsMount
  transfers : List ArtifactTransfer

def State.empty : State :=
  ⟨∅, ∅, [], 0, ∅, ∅, ∅, ∅, 0, ∅, [], [], ∅, [], ∅, ∅, [], ∅, []⟩

/-! ## The image of a state

What `json.Unmarshal` makes of the text `json.Marshal` wrote: strings and map keys come
back sanitized, raw messages compacted, and the fields tagged `json:"-"` reset. -/

def RoutePolicy.image (p : RoutePolicy) : RoutePolicy :=
  { p with backends := p.backends.map sanitize }

def RouteRecord.image (r : RouteRecord) : RouteRecord :=
  { r with
    applicationID := sanitize r.applicationID, messageID := sanitize r.messageID
    provider := sanitize r.provider, compatKey := sanitize r.compatKey }

def Application.image (a : Application) : Application :=
  { a with
    applicationID := sanitize a.applicationID, ownerAgent := sanitize a.ownerAgent
    forkParent := sanitize a.forkParent, checkpoint := sanitize a.checkpoint
    contextID := sanitize a.contextID, lastProvider := sanitize a.lastProvider
    lastCompat := sanitize a.lastCompat, routePolicy := a.routePolicy.image }

def MailboxMessage.image (m : MailboxMessage) : MailboxMessage :=
  { m with
    messageID := sanitize m.messageID, idempotencyKey := sanitize m.idempotencyKey
    payload := compact m.payload }

def AuditRecord.image (r : AuditRecord) : AuditRecord :=
  { r with
    principal := sanitize r.principal, applicationID := sanitize r.applicationID
    action := sanitize r.action, object := sanitize r.object
    decision := sanitize r.decision, reason := sanitize r.reason
    previousHash := sanitize r.previousHash, hash := sanitize r.hash }

def TurnResult.image (r : TurnResult) : TurnResult :=
  { r with
    applicationID := sanitize r.applicationID, messageID := sanitize r.messageID
    text := sanitize r.text, checkpoint := sanitize r.checkpoint
    provider := sanitize r.provider }

def ApplicationTimer.image (t : ApplicationTimer) : ApplicationTimer :=
  { t with
    applicationID := sanitize t.applicationID, timerID := sanitize t.timerID
    payload := compact t.payload }

def WakeBinding.image (b : WakeBinding) : WakeBinding :=
  { b with
    bindingID := sanitize b.bindingID, applicationID := sanitize b.applicationID
    ref := sanitize b.ref }

def KernelEvent.image (e : KernelEvent) : KernelEvent :=
  { e with
    bootID := sanitize e.bootID, queueBootID := sanitize e.queueBootID
    recoveryPending := false }

def RevokedToken.image (t : RevokedToken) : RevokedToken :=
  { t with
    digest := sanitize t.digest, subject := sanitize t.subject
    caveats := t.caveats.map sanitize, reason := sanitize t.reason }

def ConfirmationRequest.image (r : ConfirmationRequest) : ConfirmationRequest :=
  { r with
    requestID := sanitize r.requestID, applicationID := sanitize r.applicationID
    kind := sanitize r.kind, object := sanitize r.object, settledBy := sanitize r.settledBy }

def WitnessCheckpoint.image (c : WitnessCheckpoint) : WitnessCheckpoint :=
  { c with headHash := sanitize c.headHash, signer := sanitize c.signer }

def MessageChannel.image (c : MessageChannel) : MessageChannel :=
  { c with channelID := sanitize c.channelID, kind := sanitize c.kind }

def MessageConversation.image (c : MessageConversation) : MessageConversation :=
  { c with
    channelID := sanitize c.channelID, externalID := sanitize c.externalID
    applicationID := sanitize c.applicationID }

def OutboxEntry.image (e : OutboxEntry) : OutboxEntry :=
  { e with
    entryID := sanitize e.entryID, conversationID := sanitize e.conversationID
    idempotencyKey := sanitize e.idempotencyKey, payload := compact e.payload
    receipt := sanitize e.receipt }

def HostfsMount.image (m : HostfsMount) : HostfsMount :=
  { m with
    mountID := sanitize m.mountID, applicationID := sanitize m.applicationID
    hostPath := sanitize m.hostPath, guestPath := sanitize m.guestPath }

def ArtifactTransfer.image (t : ArtifactTransfer) : ArtifactTransfer :=
  { t with
    transferID := sanitize t.transferID, applicationID := sanitize t.applicationID
    idempotencyKey := sanitize t.idempotencyKey, payload := compact t.payload }

/-- A map comes back with sanitized keys; Go writes the keys in order, and of keys that
become equal the last one written is kept. -/
def imageTable {α : Type} (f : α → α) (t : Table GoString α) : Table GoString α :=
  (Table.rekey sanitize t).map fun _ v => f v

def State.image (s : State) : State where
  applications := imageTable Application.image s.applications
  mailbox := imageTable (List.map MailboxMessage.image) s.mailbox
  audit := s.audit.map AuditRecord.image
  nextSequence := s.nextSequence
  results := imageTable TurnResult.image s.results
  prepared := imageTable TurnResult.image s.prepared
  timers := imageTable ApplicationTimer.image s.timers
  bindings := imageTable WakeBinding.image s.bindings
  nextKernelID := s.nextKernelID
  kernelPending := imageTable (List.map KernelEvent.image) s.kernelPending
  routeRecords := s.routeRecords.map RouteRecord.image
  revokedTokens := s.revokedTokens.map RevokedToken.image
  confirmations := imageTable ConfirmationRequest.image s.confirmations
  witnessCheckpoints := s.witnessCheckpoints.map WitnessCheckpoint.image
  channels := imageTable MessageChannel.image s.channels
  conversations := imageTable MessageConversation.image s.conversations
  outbox := s.outbox.map OutboxEntry.image
  hostfsMounts := imageTable HostfsMount.image s.hostfsMounts
  transfers := s.transfers.map ArtifactTransfer.image

end Aok.Runtime
