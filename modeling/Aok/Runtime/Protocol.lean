import Aok.Lib.JsonRoundTrip
import Aok.Lib.Loop
import Aok.Runtime.Image

/-!
# The engine

`protocol.go`, `limits.go` and `ledger.go`: sessions, the events of their turns, the history
that is kept for `session/resume`, and the remembered results of prompts. A prompt holds the
lock up to the provider call and takes it again when the provider is back, so it is two steps
here, `handle` and `settle`; everything else is one step under the lock. A session is named by
its id and not by a pointer: a session with a call in flight stays in the table.
-/

namespace Aok.Protocol
open Lib Lib.Utf8 Lib.JsonText Lib.JsonValue Aok.Runtime

def maxSessions : ℕ := 64
def maxReplayRequests : ℕ := 128
def maxRequestIDBytes : ℕ := 256
def maxTextBytes : ℕ := 262144
def maxHistoryEvents : ℕ := 256
def maxHistoryBytes : ℤ := 2097152
def maxEngineHistoryBytes : ℤ := 16777216

structure RPCError where
  code : ℤ
  message : Bytes
deriving DecidableEq

/-- `Message`; an empty text is a member that is left out. -/
structure Message where
  id : Bytes
  method : Bytes
  params : Bytes
  result : Bytes
  error : Option RPCError
deriving DecidableEq

def Message.answer (m : Message) (result : Bytes) : Message := ⟨m.id, [], [], result, none⟩

def Message.refuse (m : Message) (code : ℤ) (text : String) : Message :=
  ⟨m.id, [], [], [], some ⟨code, lit text⟩⟩

/-! ## The ledger of a session -/

structure Ledger where
  hardLimit : UInt64
  used : UInt64
  lastID : UInt64
  lastSeq : UInt64

inductive LedgerError where
  | usageSequence
  | quota

def Ledger.apply (l : Ledger) (id seq amount : UInt64) : Ledger × Option LedgerError :=
  if id = l.lastID ∧ id ≠ 0 then (l, none)
  else if seq ≤ l.lastSeq then (l, some .usageSequence)
  else if l.hardLimit ≠ 0 ∧ (l.used > l.hardLimit ∨ amount > l.hardLimit - l.used) then
    (l, some .quota)
  else
    ({ l with
      used := if maxUint64 - l.used < amount then maxUint64 else l.used + amount
      lastID := id
      lastSeq := seq }, none)

/-! ## Events -/

inductive StopReason where
  | completed
  | failed
  | cancelled
  | budgetExhausted
deriving DecidableEq

def StopReason.text : StopReason → Bytes
  | .completed => lit "completed"
  | .failed => lit "failed"
  | .cancelled => lit "cancelled"
  | .budgetExhausted => lit "budget_exhausted"

inductive Event where
  | started
  | chunk (text : Bytes)
  | usage (usage : Usage)
  | ended (reason : StopReason)

def Event.method : Event → Bytes
  | .started => lit "session/started"
  | .chunk _ => lit "session/chunk"
  | .usage _ => lit "session/usage"
  | .ended .failed => lit "session/failed"
  | .ended _ => lit "session/done"

def usageText (u : Usage) : Bytes :=
  object [member "input_tokens" (dec u.inputTokens.toNat),
    member "output_tokens" (dec u.outputTokens.toNat),
    member "cached_tokens" (dec u.cachedTokens.toNat)]

/-- The members of an event in the order of their names, which is how a map is written. -/
def Event.params (id : Bytes) (turn seq : UInt64) : Event → Bytes
  | .started => object [member "event_seq" (dec seq.toNat), member "session_id" (quote id),
      member "turn_id" (dec turn.toNat)]
  | .chunk text => object [member "event_seq" (dec seq.toNat), member "session_id" (quote id),
      member "text" (quote text), member "turn_id" (dec turn.toNat)]
  | .usage u => object [member "event_seq" (dec seq.toNat), member "session_id" (quote id),
      member "turn_id" (dec turn.toNat), member "usage" (usageText u)]
  | .ended reason => object [member "event_seq" (dec seq.toNat), member "session_id" (quote id),
      member "stop_reason" (quote reason.text), member "turn_id" (dec turn.toNat)]

def Event.message (event : Event) (id : Bytes) (turn seq : UInt64) : Message :=
  ⟨[], event.method, event.params id turn seq, [], none⟩

def eventSequence (event : Message) : UInt64 :=
  (readField (lit "event_seq") asUInt64 0 event.params).1

/-! ## Sessions and the engine -/

/-- `engineSession` without what it retains. `cancelled` is the context of the running turn,
which is what `cancel` acts on. -/
structure SessionCore where
  cancelled : Bool
  running : Bool
  closed : Bool
  suspended : Bool
  turn : UInt64
  eventSeq : UInt64
  deliveredSeq : UInt64
  requests : Table Bytes Message
  ledger : Ledger

structure EngineSession extends SessionCore where
  historyBytes : ℤ
  historyFloor : UInt64

def SessionCore.fresh : SessionCore :=
  ⟨false, false, false, false, 0, 0, 0, ∅, ⟨0, 0, 0, 0⟩⟩

structure Call where
  id : Bytes
  sessionID : Bytes
  text : Bytes
  requestID : Bytes

inductive Note where
  | emitted (id : Bytes) (event : Message)
  | handed (id : Bytes) (event : Message) (accepted : Bool)
  | called (id requestID : Bytes)
  | settled (id requestID : Bytes) (response : Message)
deriving DecidableEq

/-- What is retained for a session and for the engine right after an event. -/
structure Retention where
  events : ℕ
  bytes : ℤ
  total : ℤ

/-- `Engine`; `onEvent` says whether there is a transport, `name` is the provider's. The calls
are those in flight; `log` and `retentions` only record. -/
structure Engine where
  name : Bytes
  onEvent : Bool
  sessions : Table Bytes EngineSession
  events : Table Bytes (List Message)
  historyBytes : ℤ
  nextSession : UInt64
  closed : Bool
  calls : List Call
  log : List Note
  retentions : List Retention

/-- The answers of the transport during one step, and the orders in which the session map is
walked. -/
structure World where
  accepts : Message → Bool
  order : Engine → List Bytes

namespace Engine

def new (name : Bytes) (onEvent : Bool) : Engine := 
  ⟨name, onEvent, ∅, ∅, 0, 0, false, [], [], []⟩

def history (e : Engine) (id : Bytes) : List Message := (e.events[id]?).getD []

def updateSession (id : Bytes) (f : EngineSession → EngineSession) (e : Engine) : Engine :=
  { e with sessions := updateTable f id e.sessions }

def note (n : Note) (e : Engine) : Engine := { e with log := e.log ++ [n] }

/-! ## History -/

def evictOldest (id : Bytes) (e : Engine) : Engine :=
  match e.history id with
  | oldest :: rest =>
    { e.updateSession id fun s => { s with
        historyBytes := s.historyBytes - oldest.params.length
        historyFloor := s.historyFloor + 1 } with
      historyBytes := e.historyBytes - oldest.params.length
      events := e.events.insert id rest }
  | [] => e

/-- All the keys, first those that `order` names. -/
def visit (order keys : List Bytes) : List Bytes :=
  (order.filter (· ∈ keys)).dedup ++ keys.filter (· ∉ order)

def sessionBytes (e : Engine) (id : Bytes) : ℤ :=
  match e.sessions[id]? with
  | some s => s.historyBytes
  | none => 0

def larger (e : Engine) (chosen : Option Bytes) (id : Bytes) : Option Bytes :=
  if e.history id = [] then chosen
  else match chosen with
    | none => some id
    | some c => if e.sessionBytes c < e.sessionBytes id then some id else chosen

def victim (w : World) (e : Engine) : Option Bytes :=
  (visit (w.order e) e.sessions.keys).foldl e.larger none

def evictLargest (w : World) (e : Engine) : Engine :=
  match e.victim w with
  | some id => e.evictOldest id
  | none => e

def sessionFull (id : Bytes) (e : Engine) : Bool :=
  0 < (e.history id).length &&
    (maxHistoryEvents < (e.history id).length || maxHistoryBytes < e.sessionBytes id)

def engineFull (w : World) (e : Engine) : Bool :=
  maxEngineHistoryBytes < e.historyBytes && (e.victim w).isSome

def retained (e : Engine) : ℕ := Table.total (fun _ l => l.length) e.events

def trimSession (id : Bytes) (e : Engine) : Engine :=
  Loop.run (sessionFull id) (evictOldest id) (e.history id).length e

def trimEngine (w : World) (e : Engine) : Engine :=
  Loop.run (engineFull w) (evictLargest w) e.retained e

/-- The first part of `emit`: the next event of the session is appended to its history. -/
def append (id : Bytes) (s : EngineSession) (event : Message) (e : Engine) : Engine :=
  { e with
    sessions := e.sessions.insert id { s with
      eventSeq := s.eventSeq + 1
      historyBytes := s.historyBytes + event.params.length }
    historyBytes := e.historyBytes + event.params.length
    events := e.events.insert id (e.history id ++ [event]) }.note (.emitted id event)

def weigh (id : Bytes) (e : Engine) : Engine :=
  { e with retentions :=
      e.retentions ++ [⟨(e.history id).length, e.sessionBytes id, e.historyBytes⟩] }

/-- The last part of `emit`: a refusal of the transport suspends the session. -/
def offer (w : World) (id : Bytes) (event : Message) (e : Engine) : Engine :=
  match e.sessions[id]? with
  | some s =>
    if e.onEvent && !s.suspended then
      if w.accepts event then
        (e.updateSession id fun s => { s with deliveredSeq := s.eventSeq }).note
          (.handed id event true)
      else
        (e.updateSession id fun s => { s with suspended := true }).note (.handed id event false)
    else e
  | none => e

def emit (w : World) (id : Bytes) (event : Event) (e : Engine) : Engine :=
  match e.sessions[id]? with
  | some s =>
    let message := event.message id s.turn (s.eventSeq + 1)
    ((((e.append id s message).trimSession id).trimEngine w).weigh id).offer w id message
  | none => e

/-- The loop of `flushSession` over the retained events: what was handed over, how far the peer
got, and whether the transport took all. -/
def replay (w : World) (id : Bytes) : List Message → UInt64 → List Note × UInt64 × Bool
  | [], delivered => ([], delivered, true)
  | event :: rest, delivered =>
    if eventSequence event ≤ delivered then replay w id rest delivered
    else if w.accepts event then
      let r := replay w id rest (eventSequence event)
      (.handed id event true :: r.1, r.2)
    else ([.handed id event false], delivered, false)

inductive FlushError where
  | historyExpired
  | deliveryRefused
deriving DecidableEq

def FlushError.text : FlushError → String
  | .historyExpired => "event history expired"
  | .deliveryRefused => "event delivery refused; resume again after draining"

def flushSession (w : World) (id : Bytes) (s : EngineSession) (e : Engine) :
    Engine × Option FlushError :=
  if !e.onEvent || s.deliveredSeq = s.eventSeq then (e, none)
  else if s.deliveredSeq < s.historyFloor then (e, some .historyExpired)
  else
    let r := replay w id (e.history id) s.deliveredSeq
    ({ e.updateSession id fun s => { s with deliveredSeq := r.2.1 } with log := e.log ++ r.1 },
      if r.2.2 then none else some .deliveryRefused)

def releaseSession (id : Bytes) (e : Engine) : Engine :=
  { e with
    historyBytes := e.historyBytes - e.sessionBytes id
    sessions := e.sessions.erase id
    events := e.events.erase id }

/-! ## Requests -/

def sessionID (n : UInt64) : Bytes := lit "session-" ++ dec n.toNat

/-- `issuedSession`: the digits after the name, without a leading zero. -/
def issuedSession (e : Engine) (id : Bytes) : Bool :=
  let digits := id.drop (lit "session-").length
  (lit "session-").isPrefixOf id && digits ≠ [] && digits.all isDigit && readDec digits < 2 ^ 64 &&
    0 < readDec digits && readDec digits ≤ e.nextSession.toNat && dec (readDec digits) = digits

inductive SessionMethod where
  | prompt
  | abort
  | close
  | suspend
  | resume
deriving DecidableEq

inductive Method where
  | init
  | health
  | newSession
  | session (method : SessionMethod)
deriving DecidableEq

def Method.read (text : Bytes) : Option Method :=
  if text = lit "initialize" then some .init
  else if text = lit "health" then some .health
  else if text = lit "session/new" then some .newSession
  else if text = lit "session/prompt" then some (.session .prompt)
  else if text = lit "session/abort" then some (.session .abort)
  else if text = lit "session/close" then some (.session .close)
  else if text = lit "session/suspend" then some (.session .suspend)
  else if text = lit "session/resume" then some (.session .resume)
  else none

structure Params where
  sessionID : Bytes
  text : Bytes
  requestID : Bytes
deriving DecidableEq

def Params.read (s : Bytes) : Option Params :=
  let sessionID := readField (lit "session_id") asString [] s
  let text := readField (lit "text") asString [] s
  let requestID := readField (lit "request_id") asString [] s
  if sessionID.2 && text.2 && requestID.2 && sessionID.1 ≠ [] then
    some ⟨sessionID.1, text.1, requestID.1⟩
  else none

def capabilities (name : Bytes) : Bytes :=
  object [member "aok_version" (dec 1),
    member "capabilities" (array (["cancel", "usage", "suspend", "resume"].map (quote ∘ lit))),
    member "engine" (quote name),
    member "limits" (object [member "replay_requests_per_session" (dec maxReplayRequests),
      member "request_id_bytes" (dec maxRequestIDBytes), member "sessions" (dec maxSessions),
      member "text_bytes" (dec maxTextBytes)])]

def newSession (m : Message) (e : Engine) : Engine × Message :=
  if e.closed then (e, m.refuse (-32000) "engine closed")
  else if maxSessions ≤ e.sessions.size ∨ e.nextSession = maxUint64 then
    (e, m.refuse (-32003) "session capacity reached")
  else
    let id := sessionID (e.nextSession + 1)
    ({ e with
      nextSession := e.nextSession + 1
      sessions := e.sessions.insert id ⟨.fresh, 0, 0⟩ },
      m.answer (object [member "session_id" (quote id)]))

def stopped : Bytes := lit "\x7b\"stop_reason\":\"cancelled\"\x7d"

def absent (m : Message) (method : SessionMethod) (id : Bytes) (e : Engine) : Message :=
  if e.issuedSession id then
    if method = .close ∨ method = .abort then m.answer stopped
    else m.refuse (-32602) "session closed"
  else m.refuse (-32602) "unknown session"

def requestKey (requestID : Bytes) : Bytes := lit "session/prompt:" ++ requestID

def resume (w : World) (m : Message) (id : Bytes) (s : EngineSession) (e : Engine) :
    Engine × Message :=
  let resumed := e.updateSession id fun s => { s with suspended := false }
  match resumed.flushSession w id { s with suspended := false } with
  | (e, some err) => (e.updateSession id fun s => { s with suspended := true },
      m.refuse (-32004) err.text)
  | (e, none) => (e, m.answer (lit "\x7b\"status\":\"resumed\"\x7d"))

/-- `session/abort`, and `session/close` when `close` is set. -/
def abort (m : Message) (close : Bool) (id : Bytes) (s : EngineSession) (e : Engine) :
    Engine × Message :=
  let e := e.updateSession id fun s =>
    { s with cancelled := s.running || s.cancelled, closed := close || s.closed }
  (if (close || s.closed) && !s.running then e.releaseSession id else e, m.answer stopped)

/-- The part of a prompt up to the provider call; the answer is there when it is refused. -/
def prompt (w : World) (m : Message) (p : Params) (s : EngineSession) (e : Engine) :
    Engine × Option Message :=
  if s.closed then (e, some (m.refuse (-32602) "session closed"))
  else if s.suspended then (e, some (m.refuse (-32004) "session suspended"))
  else if s.running then (e, some (m.refuse (-32001) "turn already running"))
  else if p.requestID ≠ [] ∧ maxReplayRequests ≤ s.requests.size then
    (e, some (m.refuse (-32003)
      "replay capacity reached; close session before starting a new one"))
  else if s.turn = maxUint64 ∨ maxUint64 - 4 < s.eventSeq then
    (e, some (m.refuse (-32003) "session sequence exhausted"))
  else
    let e := (e.updateSession p.sessionID fun s => { s with
      cancelled := false, running := true, turn := s.turn + 1 }).emit w p.sessionID .started
    let call : Call := ⟨m.id, p.sessionID, p.text, p.requestID⟩
    ({ e with calls := e.calls ++ [call] }.note (.called p.sessionID p.requestID), none)

def handleSession (w : World) (m : Message) (method : SessionMethod) (p : Params)
    (s : EngineSession) (e : Engine) : Engine × Option Message :=
  match method with
  | .suspend => (e.updateSession p.sessionID fun s => { s with suspended := true },
      some (m.answer (lit "\x7b\"status\":\"suspended\"\x7d")))
  | .resume => (e.resume w m p.sessionID s).map id some
  | .abort => (e.abort m false p.sessionID s).map id some
  | .close => (e.abort m true p.sessionID s).map id some
  | .prompt =>
    match if p.requestID ≠ [] then s.requests[requestKey p.requestID]? else none with
    | some prior => (e, some { prior with id := m.id })
    | none => e.prompt w m p s

def handle (w : World) (m : Message) (e : Engine) : Engine × Option Message :=
  match Method.read m.method with
  | none => (e, some (m.refuse (-32601) "method not found"))
  | some .init => (e, some (m.answer (capabilities e.name)))
  | some .health => (e, some (m.answer (lit "\x7b\"status\":\"ok\"\x7d")))
  | some .newSession => (e.newSession m).map id some
  | some (.session method) =>
    match Params.read m.params with
    | none => (e, some (m.refuse (-32602) "invalid params"))
    | some p =>
      if maxRequestIDBytes < p.requestID.length ∨ maxTextBytes < p.text.length then
        (e, some (m.refuse (-32602) "request exceeds engine limits"))
      else
        match e.sessions[p.sessionID]? with
        | none => (e, some (e.absent m method p.sessionID))
        | some s => e.handleSession w m method p s

/-! ## The end of a turn -/

inductive ProviderError where
  | canceled
  | other
deriving DecidableEq

structure Outcome where
  text : Bytes
  usage : Usage
  err : Option ProviderError

def Outcome.reason (r : Outcome) (cancelled : Bool) : StopReason :=
  if cancelled ∨ r.err = some .canceled then .cancelled
  else if r.err ≠ none ∨ maxTextBytes < r.text.length then .failed
  else .completed

def Outcome.billed (r : Outcome) : Bool := r.usage ≠ ⟨0, 0, 0⟩

def Outcome.account (r : Outcome) (s : SessionCore) : Ledger × StopReason :=
  if r.billed then
    let booked := s.ledger.apply s.turn s.turn
      (saturatingAdd r.usage.inputTokens r.usage.outputTokens)
    (booked.1, if booked.2.isSome then .budgetExhausted else r.reason s.cancelled)
  else (s.ledger, r.reason s.cancelled)

def Outcome.events (r : Outcome) (reason : StopReason) : List Event :=
  (if reason = .completed then [.chunk r.text] else []) ++
    (if r.billed then [.usage r.usage] else []) ++ [.ended reason]

def remember (requestID : Bytes) (response : Message) (s : SessionCore) : SessionCore :=
  if requestID ≠ [] then
    { s with requests := s.requests.insert (requestKey requestID) { response with id := [] } }
  else s

def settle (w : World) (c : Call) (r : Outcome) (e : Engine) : Engine × Option Message :=
  match e.sessions[c.sessionID]? with
  | none => (e, none)
  | some s =>
    let (ledger, reason) := r.account s.toSessionCore
    let e := e.updateSession c.sessionID fun s => { s with ledger := ledger }
    let e := (r.events reason).foldl (fun e event => e.emit w c.sessionID event) e
    let response : Message :=
      ⟨c.id, [], [], object [member "stop_reason" (quote reason.text)], none⟩
    let e := (e.updateSession c.sessionID fun s => { s with
        toSessionCore := { remember c.requestID response s.toSessionCore with
          running := false, cancelled := false } }).note
      (.settled c.sessionID c.requestID response)
    (if s.closed then e.releaseSession c.sessionID else e, some response)

/-! ## Shutdown and runs -/

def closeSession (e : Engine) (id : Bytes) : Engine :=
  match e.sessions[id]? with
  | some s =>
    let e := e.updateSession id fun s =>
      { s with closed := true, cancelled := s.running || s.cancelled }
    if s.running then e else e.releaseSession id
  | none => e

def close (e : Engine) : Engine := e.sessions.keys.foldl closeSession { e with closed := true }

/-- One step of the engine: a request, the return of the provider from one of the calls in
flight, or the shutdown. -/
inductive Op where
  | handle (m : Message)
  | settle (call : ℕ) (outcome : Outcome)
  | close

def step (w : World) (e : Engine) : Op → Engine × Option Message
  | .handle m => e.handle w m
  | .settle n r =>
    match e.calls[n]? with
    | some c => { e with calls := e.calls.eraseIdx n }.settle w c r
    | none => (e, none)
  | .close => (e.close, none)

def run (e : Engine) : List (World × Op) → Engine
  | [] => e
  | (w, op) :: rest => run (e.step w op).1 rest

end Engine
end Aok.Protocol
