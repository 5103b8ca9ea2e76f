import Aok.Runtime.Hostfs
import Aok.Runtime.Load
import Aok.Runtime.Wake
import Aok.Runtime.Witness

/-!
# The system

One process after another on the same files. In a process the calls of the control plane,
the loop of `Run` and its workers interleave at the points where the supervisor's lock is
free; the process can end at any of these points and at every durable write. A step takes
one party from one such point to the next.
-/

namespace Aok.Runtime
open Lib Lib.Utf8 Lib.JsonText Lib.JsonValue Lib.Command

/-! ## Calls -/

inductive Call where
  | createApplication (principal owner wake : GoString)
  | forkApplication (principal parentID owner wake : GoString)
  | auditContextPages (principal id : GoString)
  | retireApplication (principal id : GoString)
  | setRoutePolicy (principal id : GoString) (backends : List GoString)
  | setApplicationState (principal id state : GoString)
  | setTokenLimit (principal id : GoString) (limit : UInt64)
  | setTurnConcurrency (n : ℤ)
  | addTimer (principal id timerID : GoString) (delay interval : ℤ) (payload : Bytes)
  | enqueue (principal id key : GoString) (payload : Bytes)
  | claimMailbox (principal id : GoString)
  | ackMailbox (principal id messageID : GoString)
  | checkToken (principal id object action : GoString) (token : Option CapabilityToken)
  | revokeCapabilityToken (principal : GoString) (token : CapabilityToken) (reason : GoString)
  | exportApplication (principal id text : GoString) (confirm escalate : Bool)
      (requestID : GoString)
  | settleConfirmation (principal requestID : GoString) (approve : Bool)
  | recordCosignature (principal : GoString) (cp : WitnessCheckpoint)
  | createChannel (principal channelID kind : GoString)
  | revokeChannel (principal channelID : GoString)
  | bindConversation (principal channelID externalID id : GoString)
  | deliverInbound (channelID externalID : GoString) (sequence : ℤ) (payload : Bytes)
  | reply (principal id messageID : GoString)
  | claimOutbox (channelID externalID : GoString)
  | ackOutbox (principal entryID receipt : GoString)
  | mountHostfs (principal id guestPath mode : GoString) (limits ttl : ℤ)
  | unmountHostfs (principal mountID : GoString)
  | commitImport (principal id key : GoString) (payload : Bytes)
  | webRecord (principal id kind url : GoString) (status : ℤ)
  | addLSFSBinding (principal id bindingID ref : GoString) (after : ℤ)
  | setLSFSBindingEnabled (principal id bindingID : GoString) (enabled : Bool)
  | importArtifact (principal id key : GoString) (payload : Bytes)
  | setKernelBridge

variable {K : Type} (env : Env K)

def discard {α : Type} (c : Op K α) : Op K Unit := do
  let _ ← c
  pure ()

def Call.exec : Call → Op K Unit
  | createApplication p o k => discard (Runtime.createApplication env p o k)
  | forkApplication p i o k => discard (Runtime.forkApplication env p i o k)
  | auditContextPages p i => Runtime.auditContextPages env p i
  | retireApplication p i => Runtime.retireApplication env p i
  | setRoutePolicy p i l => discard (Runtime.setRoutePolicy env p i l)
  | setApplicationState p i t => Runtime.setApplicationState env p i t
  | setTokenLimit p i n => Runtime.setTokenLimit env p i n
  | setTurnConcurrency n => Runtime.setTurnConcurrency n
  | addTimer p i t d n x => Runtime.addTimer env p i t d n x
  | enqueue p i k x => discard (Runtime.enqueue env p i k x)
  | claimMailbox p i => discard (Runtime.claimMailbox env p i)
  | ackMailbox p i m => Runtime.ackMailbox env p i m
  | checkToken p i o a t => Runtime.checkToken env p i o a t
  | revokeCapabilityToken p t r => Runtime.revokeCapabilityToken env p t r
  | exportApplication p i t c e r => discard (Runtime.exportApplication env p i t c e r)
  | settleConfirmation p r a => discard (Runtime.settleConfirmation env p r a)
  | recordCosignature p cp => Runtime.recordCosignature env p cp
  | createChannel p c k => discard (Runtime.createChannel env p c k)
  | revokeChannel p c => Runtime.revokeChannel env p c
  | bindConversation p c x i => discard (Runtime.bindConversation env p c x i)
  | deliverInbound c x n p => discard (Runtime.deliverInbound env c x n p)
  | reply p i m => discard (Runtime.reply env p i m)
  | claimOutbox c x => discard (Runtime.claimOutbox env c x)
  | ackOutbox p e r => Runtime.ackOutbox env p e r
  | mountHostfs p i g m l t => discard (Runtime.mountHostfs env p i g m l t)
  | unmountHostfs p m => Runtime.unmountHostfs env p m
  | commitImport p i k x => discard (Runtime.commitImport env p i k x)
  | webRecord p i k u n => Runtime.webRecord env p i k u n
  | addLSFSBinding p i b r n => Runtime.addLSFSBinding env p i b r n
  | setLSFSBindingEnabled p i b e => Runtime.setLSFSBindingEnabled env p i b e
  | importArtifact p i k x => discard (Runtime.importArtifact env p i k x)
  | setKernelBridge => Runtime.setKernelBridge env

/-! ## Turns in flight -/

structure Provider where
  name : GoString
  compatKey : GoString
  tracked : Bool
  selfEnforcing : Bool
deriving DecidableEq

structure Turn where
  id : GoString
  message : MailboxMessage
deriving DecidableEq

structure Completion where
  text : GoString
  usage : Usage
  route : RouteInfo
  taint : UInt64
  err : Option Err
deriving DecidableEq

structure TurnOutcome where
  text : GoString
  usage : Usage
  route : RouteInfo
  err : Option Err
deriving DecidableEq

/-- Where `executeTurn` stands. A requeue with a cause follows a failed `finishTurn`. -/
inductive Phase where
  | start
  | routing
  | calling
  | folding (taint : UInt64) (o : TurnOutcome)
  | deciding (o : TurnOutcome)
  | finishing (o : TurnOutcome)
  | requeueing (cause : Option Err)
  | clearing (result : Option Err)
  | ending (result : Option Err)
deriving DecidableEq

structure Worker where
  turn : Turn
  phase : Phase
deriving DecidableEq

/-- Where the loop of `Run` stands. -/
inductive Loop where
  | idle
  | attaching
  | sizing
  | waiting
  | timers
  | lsfs
  | kernel
  | claiming
  | dispatching (t : Turn)
  | returning (t : Turn)
  | draining
deriving DecidableEq

structure System (K : Type) where
  world : World K
  up : Bool
  provider : Provider
  loop : Loop
  cancelled : Bool
  concurrency : ℕ
  failures : List Err
  workers : List Worker
  -- exports that have passed the gate and are not yet staged
  exports : List (GoString × GoString × GoString × Bytes)
  -- turns that could not be requeued; the program does not keep these
  lost : List Turn

namespace System

def down (s : System K) : System K :=
  { s with up := false, loop := .idle, cancelled := false, failures := [], workers := [],
           exports := [], lost := [] }

def perform {α : Type} (s : System K) (c : Op K α) (next : Except Err α → System K → System K) :
    System K :=
  match c s.world with
  | (.ok a, w) => next (.ok a) { s with world := w }
  | (.error e, w) => next (.error e) { s with world := w }
  | (.stop, w) => { s with world := w }.down

def setLoop (s : System K) (l : Loop) : System K := { s with loop := l }

def setWorker (s : System K) (i : ℕ) (x : Worker) (p : Phase) : System K :=
  { s with workers := s.workers.set i { x with phase := p } }

def continueWith {α : Type} (l : Loop) (r : Except Err α) (s : System K) : System K :=
  match r with
  | .ok _ => s.setLoop l
  | .error _ => s.setLoop .draining

end System

/-! ## The loop of `Run` -/

def loopStep (s : System K) : Option (System K) :=
  match s.loop with
  | .idle => none
  | .attaching => some (s.perform (attachKernel env) fun
    | .ok _, s => s.setLoop .sizing
    | .error _, s => s.setLoop .idle)
  | .sizing => some { s with loop := .waiting, concurrency := max 1 s.world.sup.turnConcurrency }
  | .waiting => some (s.setLoop .timers)
  | .timers => some (s.perform (deliverTimers env) (System.continueWith .lsfs))
  | .lsfs => some (s.perform (deliverLSFS env) (System.continueWith .kernel))
  | .kernel => some (s.perform (deliverKernel env) (System.continueWith .claiming))
  | .claiming => some (s.perform (claimTurn env) fun
    | .ok (some (id, m)), s => s.setLoop (.dispatching ⟨id, m⟩)
    | .ok none, s => s.setLoop .waiting
    | .error _, s => s.setLoop .draining)
  | .dispatching t =>
    if s.workers.length < s.concurrency then
      some { s with loop := .waiting, workers := s.workers ++ [⟨t, .start⟩] }
    else none
  | .returning t => some (s.perform (requeueClaim env t.id t.message.messageID) fun
    | .ok _, s => s.setLoop .draining
    | .error _, s => { s with loop := .draining, lost := t :: s.lost })
  | .draining => if s.workers = [] then some (s.setLoop .idle) else none

/-- The branches on `ctx.Done()`. -/
def loopDone (s : System K) : Option (System K) :=
  if s.cancelled then
    match s.loop with
    | .waiting => some (s.setLoop .draining)
    | .dispatching t => some (s.setLoop (.returning t))
    | _ => none
  else none

def loopFailure (s : System K) : Option (System K) :=
  if s.loop = .waiting ∧ s.failures ≠ [] then
    some { s with loop := .draining, failures := s.failures.tail }
  else none

/-! ## `executeTurn` -/

def Provider.route (p : Provider) : RouteInfo := ⟨p.name, 0, p.compatKey⟩

def Provider.uncalled (p : Provider) (err : Option Err) : TurnOutcome := ⟨[], ⟨0, 0, 0⟩, p.route, err⟩

def Provider.isDenied (p : Provider) (policy : RoutePolicy) : Bool :=
  policy.backends ≠ [] && !p.selfEnforcing && decide (p.name ∉ policy.backends)

def routePhase (p : Provider) (s : State) (t : Turn) : Phase :=
  let policy := ((s.applications[t.id]?).map (·.routePolicy)).getD ⟨0, []⟩
  if p.isDenied policy then .deciding (p.uncalled (some .routeDenied))
  else if (readField (lit "text") asString [] t.message.payload).2 then .calling
  else .deciding (p.uncalled (some .unmarshal))

def completePhase (p : Provider) (c : Completion) : Phase :=
  let o : TurnOutcome := ⟨c.text, c.usage, if p.tracked then c.route else p.route, c.err⟩
  if c.err = none ∧ c.taint ≠ 0 then .folding c.taint o else .deciding o

def workerStep (s : System K) (i : ℕ) (x : Worker) : Option (System K) :=
  let id := x.turn.id
  let m := x.turn.message
  match x.phase with
  | .start =>
    if s.world.sup.core.state.prepared.contains m.messageID then
      some (s.setWorker i x (.deciding (s.provider.uncalled none)))
    else some (s.setWorker i x .routing)
  | .routing => some (s.setWorker i x (routePhase s.provider s.world.sup.core.state x.turn))
  | .calling => none
  | .folding taint o =>
    some (s.perform (foldTaint env id taint) fun _ s => s.setWorker i x (.deciding o))
  | .deciding o =>
    if o.err = some .turnBusy ∨ s.cancelled then some (s.setWorker i x (.requeueing none))
    else some (s.setWorker i x (.finishing o))
  | .finishing o => some (s.perform (finishTurn env id m o.text o.usage o.route o.err) fun
    | .ok _, s => s.setWorker i x (.clearing none)
    | .error e, s => s.setWorker i x (.requeueing (some e)))
  | .requeueing cause => some (s.perform (requeueClaim env id m.messageID) fun
    | .ok _, s => s.setWorker i x (.clearing cause)
    | .error e, s =>
      { s with lost := x.turn :: s.lost }.setWorker i x (.clearing (match cause with
        | some c => some (.requeueFailed c e)
        | none => some e)))
  | .clearing result =>
    some (s.perform (clearInflight id) fun _ s => s.setWorker i x (.ending result))
  | .ending result => some { s with
      workers := s.workers.eraseIdx i
      failures := match result with
        | some e => if s.failures.length < s.concurrency then s.failures ++ [e] else s.failures
        | none => s.failures }

/-! ## Steps -/

inductive Event (K : Type) where
  | start
  | crash
  | close
  | kernel (k : K)
  | call (c : Call)
  | exportArtifact (principal id key : GoString) (payload : Bytes)
  | exportStage (i : ℕ)
  | run (p : Provider)
  | cancel
  | loopStep
  | loopDone
  | loopFailure
  | work (i : ℕ)
  | complete (i : ℕ) (c : Completion)

def stepUp (s : System K) : Event K → Option (System K)
  | .start => none
  | .crash => some s.down
  | .close =>
    if s.loop = .idle ∧ s.exports = [] then some (s.perform (snapshotKernel env) fun _ s => s.down)
    else none
  | .kernel k => some { s with world := { s.world with kernel := k } }
  | .call c => some (s.perform (c.exec env) fun _ s => s)
  | .exportArtifact p i k x => some (s.perform (exportGate env p i x) fun
    | .ok _, s => { s with exports := s.exports ++ [(p, i, k, x)] }
    | .error _, s => s)
  | .exportStage j =>
    match s.exports[j]? with
    | some (p, i, k, x) => some (s.perform (exportStage env p i k x) fun _ s =>
        { s with exports := s.exports.eraseIdx j })
    | none => none
  | .run p =>
    if s.loop = .idle then
      some { s with provider := p, loop := .attaching, cancelled := false, failures := [] }
    else none
  | .cancel => some { s with cancelled := true }
  | .loopStep => Runtime.loopStep env s
  | .loopDone => Runtime.loopDone s
  | .loopFailure => Runtime.loopFailure s
  | .work i =>
    match s.workers[i]? with
    | some x => workerStep env s i x
    | none => none
  | .complete i c =>
    match s.workers[i]? with
    | some x => if x.phase = .calling then some (s.setWorker i x (completePhase s.provider c)) else none
    | none => none

def step (s : System K) (e : Event K) : Option (System K) :=
  if s.up then stepUp env s e
  else match e with
    | .start => some (s.perform (load env) fun
      | .ok _, s => { s with up := true }
      | .error _, s => s)
    | .kernel k => some { s with world := { s.world with kernel := k } }
    | _ => none

def System.initial (k : K) : System K where
  world := World.reopened ⟨State.empty, ContextStore.empty, k, ⟨⟨State.empty, [], ∅⟩, State.empty, ∅,
    ∅, [], false, ∅, ∅, 0⟩, 0⟩
  up := false
  provider := ⟨[], [], false, false⟩
  loop := .idle
  cancelled := false
  concurrency := 1
  failures := []
  workers := []
  exports := []
  lost := []

end Aok.Runtime
