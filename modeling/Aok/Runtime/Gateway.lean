import Aok.Runtime.Taint

/-!
# The message gateway

Channels and conversations bind outside identities to applications; inbound messages
enter the mailbox with their source, replies leave through the outbox.
-/

namespace Aok.Runtime
open Lib Lib.Utf8 Lib.JsonText Lib.JsonValue Lib.Command

def maxOutboxEntries : ℕ := 256

def MessageConversation.key (c : MessageConversation) : GoString :=
  conversationKey c.channelID c.externalID

/-- `conversationLocked`: the binding under the joined key, if it is for this pair. -/
def State.conversation (s : State) (channelID externalID : GoString) :
    Option MessageConversation :=
  match s.conversations[conversationKey channelID externalID]? with
  | some c => if c.channelID = channelID ∧ c.externalID = externalID then some c else none
  | none => none

def State.isActiveChannel (s : State) (channelID : GoString) : Bool :=
  (s.channels[channelID]?).any fun c => c.state == .active

def gatewayKey (channelID externalID : GoString) (sequence : ℤ) : GoString :=
  lit "gw:" ++ channelID ++ lit ":" ++ externalID ++ lit ":" ++ decInt sequence

def envelopeText (channelID externalID : GoString) (sequence : ℤ) (payload : Bytes) : Bytes :=
  object [member "text" (quote (readField (lit "text") asString [] payload).1),
    member "taint" (dec taintExternal.toNat), member "source" (quote (lit "gateway")),
    member "channel" (quote channelID), member "external_id" (quote externalID),
    member "sequence" (decInt sequence), member "payload" (compact payload)]

def resultJson (r : TurnResult) : Bytes :=
  object ([member "application_id" (quote r.applicationID),
      member "message_id" (quote r.messageID), member "text" (quote r.text),
      member "usage" (object [member "input_tokens" (dec r.usage.inputTokens.toNat),
        member "output_tokens" (dec r.usage.outputTokens.toNat),
        member "cached_tokens" (dec r.usage.cachedTokens.toNat)]),
      member "status" (quote (lit r.status.text)), member "checkpoint" (quote r.checkpoint)] ++
    memberUnlessEmpty "provider" r.provider ++
    (if r.fallbacks = 0 then [] else [member "fallbacks" (dec r.fallbacks.toNat)]) ++
    memberUnlessEmpty "cache_hit_kind" (lit r.cacheHitKind.text) ++
    memberUnlessEmpty "failure_reason" (lit r.failureReason.text))

def replyText (r : TurnResult) : Bytes :=
  object [member "kind" (quote (lit "reply")), member "result" (resultJson r)]

variable {K : Type} (env : Env K)

def createChannel (principal channelID kind : GoString) : Op K MessageChannel := do
  require (channelID ≠ [] ∧ channelID.length ≤ 128 ∧ kind ≠ [] ∧ kind.length ≤ 64)
    (.new "invalid message channel")
  let s ← getState
  require (s.channels.contains channelID = false) (.new "channel already exists")
  let t ← now env
  let channel : MessageChannel := ⟨channelID, kind, .active, t⟩
  editState fun s => { s with channels := s.channels.insert channelID channel }
  auditLocked env principal [] (lit "channel.create") channelID (lit "allow") kind
  persistLocked env
  pure channel

def revokeChannel (principal channelID : GoString) : Op K Unit := do
  let s ← getState
  match s.channels[channelID]? with
  | none => fail .channelNotFound
  | some channel => do
    editState fun s => { s with
      channels := s.channels.insert channelID { channel with state := .revoked } }
    auditLocked env principal [] (lit "channel.revoke") channelID (lit "allow") []
    persistLocked env

def bindConversation (principal channelID externalID applicationID : GoString) :
    Op K MessageConversation := do
  let s ← getState
  require (s.isActiveChannel channelID) .channelNotFound
  let _ ← findApplication applicationID
  require (externalID ≠ [] ∧ externalID.length ≤ 256) (.new "invalid external identity")
  let key := conversationKey channelID externalID
  match s.conversations[key]? with
  | some c => do
    require (c.channelID = channelID ∧ c.externalID = externalID ∧ c.applicationID = applicationID)
      .conversationBound
    persistLocked env
    pure c
  | none => do
    let t ← now env
    let c : MessageConversation := ⟨channelID, externalID, applicationID, 0, t⟩
    editState fun s => { s with conversations := s.conversations.insert key c }
    auditLocked env principal applicationID (lit "conversation.bind") key (lit "allow") []
    persistLocked env
    pure c

def deliverInbound (channelID externalID : GoString) (sequence : ℤ) (payload : Bytes) :
    Op K MailboxMessage := do
  let s ← getState
  require (s.isActiveChannel channelID) .channelNotFound
  match s.conversation channelID externalID with
  | none => fail .conversationNotFound
  | some c => do
    require (0 < sequence ∧ payload.length ≤ maxTextBytes ∧ validJson payload)
      (.new "invalid gateway message")
    if sequence ≤ c.lastSequence then
      match (s.messages c.applicationID).find? fun m =>
          m.idempotencyKey = gatewayKey channelID externalID sequence with
      | some m => pure m
      | none => fail (.new "sequence already routed but record missing")
    else do
      let m ← enqueueLocked env (lit "gateway") c.applicationID
        (gatewayKey channelID externalID sequence)
        (envelopeText channelID externalID sequence payload)
      let key := conversationKey channelID externalID
      editCore fun core => { core with
        sourced := core.sourced.insert m.messageID key
        state := { core.state with
          conversations := core.state.conversations.insert key
            { c with lastSequence := sequence } } }
      persistLocked env
      pure m

def dropSent : ℕ → List OutboxEntry → List OutboxEntry
  | 0, l => l
  | _, [] => []
  | n + 1, e :: l => if e.status = .pending then e :: dropSent (n + 1) l else dropSent n l

def outboxEntryID (sequence : ℕ) : GoString := lit "out-" ++ dec sequence

def enqueueOutboxLocked (conversationKey idempotency : GoString) (payload : Bytes) :
    Op K OutboxEntry := do
  let s ← getState
  require (s.conversations.contains conversationKey) .conversationNotFound
  match s.outbox.find? fun e => e.idempotencyKey = idempotency with
  | some e => pure e
  | none => do
    let t ← now env
    let n := s.nextSequence + 1
    let e : OutboxEntry :=
      ⟨outboxEntryID n, conversationKey, idempotency, payload, .pending, 0, t, 0, []⟩
    editState fun s => { s with
      nextSequence := n
      outbox := dropSent ((s.outbox ++ [e]).length - maxOutboxEntries) (s.outbox ++ [e]) }
    pure e

/-- The refusals of `Reply`, which are audited and committed. -/
def denyReply (principal applicationID messageID : GoString) (e : Err) (reason : String) :
    Op K OutboxEntry := do
  auditLocked env principal applicationID (lit "gateway.reply") messageID (lit "deny") (lit reason)
  persistLocked env
  fail e

def reply (principal applicationID messageID : GoString) : Op K OutboxEntry := do
  let core ← getCore
  let s := core.state
  match s.results[messageID]? with
  | none => fail (.new "result not found")
  | some result => do
    require (result.applicationID = applicationID) (.new "result not found")
    match s.applications[applicationID]? with
    | none =>
      denyReply env principal applicationID messageID .applicationNotFound "application not found"
    | some a =>
      if a.state ≠ .serving then
        denyReply env principal applicationID messageID .applicationRetired
          "application is not active"
      else
        let key := (core.sourced[messageID]?).getD []
        if key = [] then
          denyReply env principal applicationID messageID .conversationNotFound
            "source conversation not found"
        else
          match s.conversations[key]? with
          | none =>
            denyReply env principal applicationID messageID .conversationNotFound
              "source binding mismatch"
          | some c =>
            if key ≠ c.key ∨ c.applicationID ≠ applicationID then
              denyReply env principal applicationID messageID .conversationNotFound
                "source binding mismatch"
            else if s.isActiveChannel c.channelID = false then
              denyReply env principal applicationID messageID .channelNotFound
                "source channel is not active"
            else if blockedBits env a ≠ 0 then
              denyReply env principal applicationID messageID .taintBlocked "unmasked taint"
            else do
              let e ← enqueueOutboxLocked env key (lit "reply:" ++ messageID) (replyText result)
              auditLocked env principal applicationID (lit "gateway.reply") e.entryID (lit "allow")
                key
              persistLocked env
              pure e

def OutboxEntry.attempt (key : GoString) (e : OutboxEntry) : OutboxEntry :=
  if e.conversationID = key ∧ e.status = .pending then { e with attempts := e.attempts + 1 } else e

def claimOutbox (channelID externalID : GoString) : Op K (List OutboxEntry) := do
  let s ← getState
  require (s.isActiveChannel channelID) .channelNotFound
  require ((s.conversation channelID externalID).isSome) .conversationNotFound
  let key := conversationKey channelID externalID
  let out := (s.outbox.filter fun e => e.conversationID = key ∧ e.status = .pending).map
    (OutboxEntry.attempt key)
  if out = [] then pure []
  else do
    editState fun s => { s with outbox := s.outbox.map (OutboxEntry.attempt key) }
    ignoreError (persistLocked env)
    pure out

def ackOutbox (principal entryID receipt : GoString) : Op K Unit := do
  let s ← getState
  match s.outbox.find? fun e => e.entryID = entryID with
  | none => fail (.new "outbox entry not found")
  | some e =>
    if e.status = .sent then pure ()
    else do
      let t ← now env
      editState fun s => { s with
        outbox := setFirst (fun e => e.entryID = entryID) (fun e => { e with
          status := .sent
          sentAt := t
          receipt := if receipt.length ≤ 256 then receipt else e.receipt }) s.outbox }
      auditLocked env principal [] (lit "gateway.ack") entryID (lit "allow") receipt
      persistLocked env

end Aok.Runtime
