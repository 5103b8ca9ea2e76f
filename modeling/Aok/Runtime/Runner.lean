import Aok.Runtime.Applications

/-!
# Turns

The critical sections of the runner: timer delivery, the choice of the next turn, the
two durable phases in which a turn is finished, and the return of a claim. How the
workers of `Run` interleave them is the system's business.
-/

namespace Aok.Runtime
open Lib Lib.Utf8 Lib.JsonText Lib.JsonValue Lib.Command

structure RouteInfo where
  provider : GoString
  fallbacks : UInt32
  compatKey : GoString
deriving DecidableEq

def maxRouteRecords : ℕ := 512
def throttleClaimInterval : ℤ := 1000000000

variable {K : Type} (env : Env K)

/-! ## Timers -/

def timerMessageKey (timer : ApplicationTimer) : GoString :=
  lit "timer:" ++ timer.timerID ++ lit ":" ++ decInt timer.due

def timerOrder (s : State) (a b : GoString) : Bool :=
  match s.timers[a]?, s.timers[b]? with
  | some x, some y => x.due < y.due || (x.due == y.due && (compare a b).isLE)
  | _, _ => true

/-- One timer of a `deliverTimers` pass; the flag says whether anything changed so far. -/
def deliverTimer (start : ℤ) (changed : Bool) (key : GoString) : Op K Bool := do
  let s ← getState
  match s.timers[key]? with
  | none => pure changed
  | some timer =>
    match s.applications[timer.applicationID]? with
    | none => do
      editState fun s => { s with timers := s.timers.erase key }
      pure true
    | some a =>
      if a.state = .tombstoned then do
        editState fun s => { s with timers := s.timers.erase key }
        pure true
      else if start < timer.due then pure changed
      else do
        let r ← attempt (enqueueLocked env (lit "supervisor") timer.applicationID
          (timerMessageKey timer) timer.payload)
        match r with
        | .error .mailboxFull => pure changed
        | .error e => do
          restoreLocked
          fail e
        | .ok _ => do
          editState fun s => { s with
            timers := if timer.interval = 0 then s.timers.erase key
              else s.timers.insert key { timer with due := start + timer.interval } }
          auditLocked env (lit "supervisor") timer.applicationID (lit "timer.deliver")
            (timerMessageKey timer) (lit "allow") []
          pure true

def deliverEach (start : ℤ) : Bool → List GoString → Op K Bool
  | changed, [] => pure changed
  | changed, key :: keys => do
    let changed ← deliverTimer env start changed key
    deliverEach start changed keys

def deliverTimers : Op K Unit := do
  let start ← now env
  let s ← getState
  let keys ← mapKeys env s.timers
  let changed ← deliverEach env start false (keys.insertionSort fun a b => timerOrder s a b)
  if changed then persistLocked env else pure ()

/-! ## Claims -/

def promptPrefix (payload : Bytes) : GoString :=
  (readField (lit "text") asString [] payload).1.take 64

def maxThrottleBand (minTokens : UInt64) : UInt64 :=
  if minTokens / 4 < 64 then 64 else minTokens / 4

/-- In the pressure band an application is admitted at most once per interval. -/
def Supervisor.isThrottled (s : Supervisor) (time : ℤ) (id : GoString) (a : Application) : Bool :=
  0 < a.tokenLimit && a.tokensUsed < a.tokenLimit &&
    a.tokenLimit - a.tokenLimit / 5 ≤ a.tokensUsed &&
    match s.lastClaim[id]? with
    | some last => time - last < throttleClaimInterval
    | none => false

/-- The applications `claimTurn` considers. -/
def Supervisor.isEligible (s : Supervisor) (time : ℤ) (id : GoString) (a : Application) : Bool :=
  a.state == .serving && a.wakePolicy != .manual && decide (id ∉ s.inflight) &&
    !s.isThrottled time id a

structure Candidate where
  id : GoString
  message : MailboxMessage
  tokensUsed : UInt64
  affine : Bool
deriving DecidableEq

def chargeOrder (x y : GoString × Application) : Bool :=
  x.2.tokensUsed < y.2.tokensUsed ||
    (x.2.tokensUsed == y.2.tokensUsed && x.2.createdAt ≤ y.2.createdAt)

def Supervisor.eligible (s : Supervisor) (time : ℤ) (ids : List GoString) :
    List (GoString × Application) :=
  ((ids.filterMap fun id => (s.core.state.applications[id]?).map fun a => (id, a)).insertionSort
    fun x y => chargeOrder x y).filter fun p => s.isEligible time p.1 p.2

def Supervisor.candidates (s : Supervisor) (time : ℤ) (ids : List GoString) : List Candidate :=
  (s.eligible time ids).filterMap fun p =>
    ((s.core.state.messages p.1).find? fun m => m.status = .pending).map fun m =>
      ⟨p.1, m, p.2.tokensUsed, s.lastPrefix ≠ [] ∧ promptPrefix m.payload = s.lastPrefix⟩

def Supervisor.minTokens (s : Supervisor) (time : ℤ) (ids : List GoString) : UInt64 :=
  (s.eligible time ids).foldl (fun n p => if p.2.tokensUsed < n then p.2.tokensUsed else n)
    maxUint64

/-- The first candidate that shares the last prefix within the fairness band, else the first. -/
def chooseTurn (minTokens : UInt64) (candidates : List Candidate) : Option Candidate :=
  match candidates.find? fun c => c.affine ∧
      c.tokensUsed ≤ saturatingAdd minTokens (maxThrottleBand minTokens) with
  | some c => some c
  | none => candidates.head?

def MailboxMessage.claimForTurn (m : MailboxMessage) : MailboxMessage :=
  { m with status := .claimed, attempts := m.attempts + 1 }

def recordClaim (id : GoString) (m : MailboxMessage) : Op K Unit := do
  accumulateTaint id (taintedPayload m.payload)
  updateMailbox id (setFirst (fun m => m.status = .pending) MailboxMessage.claimForTurn)
  auditLocked env (lit "supervisor") id (lit "turn.claim") m.messageID (lit "allow") []
  persistLocked env

def claimTurn : Op K (Option (GoString × MailboxMessage)) := do
  let time ← now env
  let s ← getState
  let ids ← mapKeys env s.applications
  let sup ← ask World.sup
  match chooseTurn (sup.minTokens time ids) (sup.candidates time ids) with
  | none => pure none
  | some c => do
    recordClaim env c.id c.message
    editSupervisor fun s => { s with
      lastClaim := s.lastClaim.insert c.id time
      inflight := insert c.id s.inflight }
    pure (some (c.id, c.message.claimForTurn))

def clearInflight (id : GoString) : Op K Unit :=
  editSupervisor fun s => { s with inflight := s.inflight.erase id }

def requeueClaim (applicationID messageID : GoString) : Op K Unit := do
  let s ← getState
  match (s.messages applicationID).find? fun m => m.messageID = messageID with
  | none => fail (.new "claimed message not found")
  | some m =>
    if m.status = .claimed then do
      updateMailbox applicationID
        (setFirst (fun m => m.messageID = messageID) (·.withStatus .pending))
      auditLocked env (lit "supervisor") applicationID (lit "turn.requeue") messageID (lit "allow")
        (lit "runner stopped before commit")
      persistLocked env
    else pure ()

def foldTaint (id : GoString) (taint : UInt64) : Op K Unit :=
  if taint = 0 then pure ()
  else do
    accumulateTaint id taint
    ignoreError (persistLocked env)

/-! ## The end of a turn -/

def cacheHitKind (usage : Usage) (lastCompat currentCompat : GoString) : CacheHit :=
  if 0 < usage.cachedTokens then .kvExact
  else if lastCompat ≠ [] ∧ lastCompat = currentCompat then .prefixReplay
  else .textReplay

/-- The record `finishTurn` stages before it touches the context store. -/
def stagedResult (id messageID text : GoString) (usage : Usage) (route : RouteInfo)
    (cacheHit : CacheHit) (providerErr : Option Err) : TurnResult :=
  match providerErr with
  | some e =>
    ⟨id, messageID, [], usage, .failed, [], route.provider, route.fallbacks, cacheHit,
      if e = .routeDenied then .routeDenied else .providerFailed⟩
  | none =>
    if maxTextBytes < text.length then
      ⟨id, messageID, [], usage, .failed, [], route.provider, route.fallbacks, cacheHit,
        .textOverflow⟩
    else
      ⟨id, messageID, text, usage, .completed, [], route.provider, route.fallbacks, cacheHit,
        .none⟩

structure TurnCommit where
  application : Application
  result : TurnResult
  record : RouteRecord
deriving DecidableEq

def Application.bill (a : Application) (usage : Usage) (failed : Bool) : Application :=
  { a with
    tokensUsed := saturatingAdd a.tokensUsed (saturatingAdd usage.inputTokens usage.outputTokens)
    tokensCached := saturatingAdd a.tokensCached usage.cachedTokens
    failures := if failed then a.failures + 1 else 0 }

def Application.charge (a : Application) (usage : Usage) (failed : Bool) :
    Application × TurnStatus :=
  let a := a.bill usage failed
  if a.isExhausted then ({ a with state := .frozen }, .budgetExhausted)
  else if a.state = .tombstoned then (a, .retired)
  else (a, if failed then .failed else .completed)

/-- The second phase of `finishTurn`, from the staged record on. A provider name in the
staged record wins over the caller's route, its failure reason over the caller's error. -/
def turnCommit (id messageID : GoString) (a : Application) (staged : TurnResult)
    (checkpoint : GoString) (caller : RouteInfo) (cacheHit : CacheHit) (routeDenied overflowed : Bool)
    (sequence : ℕ) (time : ℤ) : TurnCommit :=
  let failed := staged.status = .failed
  let provider := if staged.provider = [] then caller.provider else staged.provider
  let fallbacks := if staged.provider = [] then caller.fallbacks else staged.fallbacks
  let overflowed := overflowed || staged.failureReason == .textOverflow
  let charged := a.charge staged.usage failed
  let text := if failed ∨ charged.2 = .retired then [] else staged.text
  let tooLong := decide (maxTextBytes < text.length)
  let status := if tooLong then .failed else charged.2
  let text := if tooLong then [] else text
  let overflowed := overflowed || tooLong
  let reason := if failed ∧ staged.failureReason = .none then .providerFailed
    else staged.failureReason
  let reason := if routeDenied then .routeDenied else reason
  let reason := if overflowed then .textOverflow else reason
  let a := { charged.1 with checkpoint }
  { application := if status = .failed then a
      else { a with lastProvider := provider, lastCompat := caller.compatKey }
    result := ⟨id, messageID, text, staged.usage, status, checkpoint, provider, fallbacks, cacheHit,
      .none⟩
    record := ⟨sequence, time, id, messageID, a.routePolicy.version, provider, caller.compatKey,
      fallbacks, cacheHit, staged.usage.inputTokens, staged.usage.cachedTokens,
      staged.usage.outputTokens, status, reason⟩ }

def State.commitTurn (id : GoString) (c : TurnCommit) (s : State) : State :=
  { s with
    applications := s.applications.insert id c.application
    results := s.results.insert c.result.messageID c.result
    prepared := s.prepared.erase c.result.messageID
    mailbox := updateTable (List.map fun m =>
      if m.messageID = c.result.messageID then m.withStatus .acked else m) id s.mailbox
    nextSequence := s.nextSequence + 1
    routeRecords := keepNewest maxRouteRecords (s.routeRecords ++ [c.record]) }

def resultText (request : Bytes) (text : GoString) : Bytes :=
  object [member "request" (compact request), member "text" (quote text)]

def settleTurn (id : GoString) (m : MailboxMessage) (a : Application) (staged : TurnResult)
    (route : RouteInfo) (cacheHit : CacheHit) (routeDenied overflowed : Bool) : Op K Unit := do
  let _ ← contextTx env (ContextStore.append env.sha256 a.ownerAgent a.contextID
    (m.messageID ++ lit ":result") (resultText m.payload staged.text))
  let checkpoint ← contextTx env (ContextStore.checkpoint env.sha256 a.ownerAgent a.contextID
    (m.messageID ++ lit ":checkpoint"))
  let t ← now env
  let s ← getState
  let c := turnCommit id m.messageID a staged checkpoint.text route cacheHit routeDenied overflowed
    (s.nextSequence + 1) t
  editState (State.commitTurn id c)
  editSupervisor fun s => { s with
    lastPrefix := if c.result.status = .failed then s.lastPrefix else promptPrefix m.payload }
  auditLocked env (lit "supervisor") id (lit "turn." ++ lit c.result.status.text) m.messageID
    (lit "allow") []
  persistLocked env

/-- `finishTurn` after it has released the slot: the first phase stages the result unless an
earlier attempt did. -/
def finishReleased (id : GoString) (m : MailboxMessage) (text : GoString) (usage : Usage)
    (route : RouteInfo) (providerErr : Option Err) : Op K Unit := do
  let a ← findApplication id
  let s ← getState
  if s.results.contains m.messageID then pure ()
  else do
    let cacheHit := cacheHitKind usage a.lastCompat route.compatKey
    let routeDenied := decide (providerErr = some .routeDenied)
    let overflowed := providerErr.isNone && decide (maxTextBytes < text.length)
    match s.prepared[m.messageID]? with
    | some staged => settleTurn env id m a staged route cacheHit routeDenied overflowed
    | none => do
      let staged := stagedResult id m.messageID text usage route cacheHit providerErr
      editState fun s => { s with prepared := s.prepared.insert m.messageID staged }
      persistLocked env
      settleTurn env id m a staged route cacheHit routeDenied overflowed

/-- `finishTurn`. Any finish releases the slot first, the repeat of a committed one too. -/
def finishTurn (id : GoString) (m : MailboxMessage) (text : GoString) (usage : Usage)
    (route : RouteInfo) (providerErr : Option Err) : Op K Unit := do
  clearInflight id
  finishReleased env id m text usage route providerErr

end Aok.Runtime
