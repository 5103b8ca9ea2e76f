import Aok.Runtime.Mailbox

/-!
# Applications

Creation, forking, retirement and the settings of an application. An application that
is being created takes a kernel id before its context exists, so an error of the context
store leaves the counter advanced.
-/

namespace Aok.Runtime
open Lib Lib.Utf8 Lib.JsonText Lib.JsonValue Lib.Command

def uuidBytes (b : Bytes) : Bytes :=
  b.mapIdx fun i x => if i = 6 then x &&& 0x0F ||| 0x40 else if i = 8 then x &&& 0x3F ||| 0x80 else x

def joinHyphen (parts : List HexText) : GoString :=
  (lit "-").intercalate (parts.map HexText.text)

/-- The id `CreateApplication` prints from its random bytes. -/
def newApplicationID (raw : Bytes) : GoString :=
  let b := uuidBytes raw
  joinHyphen [hexEncode (b.take 4), hexEncode ((b.drop 4).take 2), hexEncode ((b.drop 6).take 2),
    hexEncode ((b.drop 8).take 2), hexEncode (b.drop 10)]

def wakePolicyOf (wake : GoString) : Option WakePolicy :=
  if wake = [] ∨ wake = lit "on_event" then some .onEvent
  else if wake = lit "manual" then some .manual
  else if wake = lit "on_quiescent" then some .onQuiescent
  else none

variable {K : Type} (env : Env K)

def nextKernelID : Op K ℕ := do
  editState fun s => { s with nextKernelID := s.nextKernelID + 1 }
  let s ← getState
  pure s.nextKernelID

/-- A new context under a random id, made by `f`. -/
def makeContext (owner : GoString)
    (f : HexText → ContextStore → Except Err (HexText × ContextStore)) : Op K HexText := do
  require (ContextStore.isBlank owner = false) .contextAccess
  let raw ← randomBytes env 16
  contextTx env (f (hexEncode raw))

/-- `contexts.Create(owner, nil)`. -/
def createContext (owner : GoString) : Op K HexText :=
  makeContext env owner fun id => ContextStore.create env.sha256 id owner []

/-- `contexts.ForkTo`. -/
def forkContext (parentOwner parentID childOwner key : GoString) : Op K HexText :=
  makeContext env childOwner fun id =>
    ContextStore.forkTo env.sha256 id parentOwner parentID childOwner key

def registerApplication (a : Application) : Op K Unit :=
  editState fun s => { s with
    applications := s.applications.insert a.applicationID a
    mailbox := s.mailbox.insert a.applicationID [] }

def newApplication (id owner forkParent : GoString) (contractVersion : UInt64)
    (wake : WakePolicy) (createdAt : ℤ) (taintBits : UInt64) : Application :=
  ⟨id, owner, forkParent, contractVersion, .serving, wake, [], 1, createdAt, 0, 0, 0, 0, 0, [], 0,
    [], [], ⟨0, []⟩, taintBits⟩

/-- The end common to `CreateApplication` and `ForkApplication`: the application gets a kernel
id and then its context. An error of the context store leaves the counter as it is. -/
def spawnApplication (principal action object : GoString) (a : Application)
    (context : Op K HexText) : Op K Application := do
  let kernelID ← nextKernelID
  let contextID ← context
  let a := { a with kernelID, contextID := contextID.text }
  registerApplication a
  auditLocked env principal a.applicationID action object (lit "allow") []
  persistLocked env
  pure a

def createApplication (principal owner wake : GoString) : Op K Application := do
  require (owner ≠ [] ∧ owner.length ≤ 256) (.new "invalid owner")
  match wakePolicyOf wake with
  | none => fail (.new "invalid wake policy")
  | some policy => do
    let raw ← randomBytes env 16
    let t ← now env
    let id := newApplicationID raw
    spawnApplication env principal (lit "application.create") id
      (newApplication id owner [] 1 policy t 0) (createContext env owner)

/-- `ForkApplication`. The child has no contract version. -/
def forkApplication (principal parentID owner wake : GoString) : Op K Application := do
  let parent ← findApplication parentID
  require (parent.state ≠ .tombstoned) .applicationRetired
  require (owner ≠ [] ∧ owner.length ≤ 256) (.new "invalid owner")
  match wakePolicyOf wake with
  | none => fail (.new "invalid wake policy")
  | some policy => do
    let raw ← randomBytes env 16
    let t ← now env
    let id := newApplicationID raw
    spawnApplication env principal (lit "application.fork") parentID
      (newApplication id owner parentID 0 policy t parent.taintBits)
      (forkContext env parent.ownerAgent parent.contextID owner (lit "fork:" ++ id))

def auditContextPages (principal id : GoString) : Op K Unit := do
  let _ ← findApplication id
  auditLocked env principal id (lit "context.pages") id (lit "allow") []
  persistLocked env

def WakeBinding.disableFor (id : GoString) (b : WakeBinding) : WakeBinding :=
  if b.applicationID = id then { b with enabled := false } else b

def closeKernelApp (id : GoString) : Op K Unit := modify fun w =>
  match w.sup.kernelApps[id]? with
  | some h => { w with
      kernel := env.bridge.closeApp h w.kernel
      sup := { w.sup with kernelApps := w.sup.kernelApps.erase id } }
  | none => w

def closeKernelSrc (id : GoString) : Op K Unit := modify fun w =>
  match w.sup.kernelSrcs[id]? with
  | some h => { w with
      kernel := env.bridge.closeSource h w.kernel
      sup := { w.sup with kernelSrcs := w.sup.kernelSrcs.erase id } }
  | none => w

def retireApplication (principal id : GoString) : Op K Unit := do
  let a ← findApplication id
  if a.state = .tombstoned then pure ()
  else do
    let t ← now env
    updateApplication id fun a => { a with state := .retiring, retiredAt := t }
    auditLocked env principal id (lit "application.retire") id (lit "allow") []
    updateApplication id fun a => { a with state := .tombstoned }
    expireMailboxLocked id
    closeKernelApp env id
    editSupervisor fun s => { s with lastClaim := s.lastClaim.erase id }
    closeKernelSrc env id
    editState fun s => { s with
      kernelPending := s.kernelPending.erase id
      bindings := s.bindings.map fun _ b => b.disableFor id }
    persistLocked env

def setRoutePolicy (principal id : GoString) (backends : List GoString) : Op K RoutePolicy := do
  let a ← findApplication id
  require (a.isRetired = false) .applicationRetired
  require ((∀ b ∈ backends, b ≠ [] ∧ b.length ≤ 128) ∧ backends.Nodup)
    (.new "invalid route policy backends")
  let policy : RoutePolicy := ⟨a.routePolicy.version + 1, backends⟩
  updateApplication id fun a => { a with routePolicy := policy }
  auditLocked env principal id (lit "route.policy.set") (dec policy.version.toNat) (lit "allow")
    ((lit ",").intercalate backends)
  persistLocked env
  pure policy

def Application.isExhausted (a : Application) : Bool :=
  0 < a.tokenLimit && a.tokenLimit ≤ a.tokensUsed

def requestedState (state : GoString) : Option AppState :=
  if state = lit "frozen" then some .frozen
  else if state = lit "serving" then some .serving
  else none

def setApplicationState (principal id state : GoString) : Op K Unit := do
  let a ← findApplication id
  require (a.state ≠ .tombstoned) .applicationRetired
  match requestedState state with
  | none => fail (.new "invalid application state")
  | some target => do
    require (¬ (target = .serving ∧ a.isExhausted)) (.new "token budget exhausted")
    updateApplication id fun a => { a with state := target }
    auditLocked env principal id (lit "application." ++ state) id (lit "allow") []
    persistLocked env

def Application.narrowTo (limit : UInt64) (a : Application) : Application :=
  let a := { a with tokenLimit := limit }
  if a.isExhausted then { a with state := .frozen } else a

def setTokenLimit (principal id : GoString) (limit : UInt64) : Op K Unit := do
  let a ← findApplication id
  require (a.state ≠ .tombstoned) .applicationRetired
  require (¬ (a.tokenLimit ≠ 0 ∧ (limit = 0 ∨ a.tokenLimit < limit))) (.new "budget may only narrow")
  updateApplication id (Application.narrowTo limit)
  auditLocked env principal id (lit "budget.set") id (lit "allow") []
  persistLocked env

def setTurnConcurrency (n : ℤ) : Op K Unit := do
  require (1 ≤ n ∧ n ≤ 64) (.new "turn concurrency must be between 1 and 64")
  editSupervisor fun s => { s with turnConcurrency := n.toNat }

def timerKey (id timerID : GoString) : GoString := id ++ lit ":" ++ timerID

def addTimer (principal id timerID : GoString) (delay interval : ℤ) (payload : Bytes) :
    Op K Unit := do
  let a ← findApplication id
  require (a.state ≠ .tombstoned) .applicationRetired
  require (timerID ≠ [] ∧ timerID.length ≤ 128 ∧ 0 < delay ∧ 0 ≤ interval ∧ validJson payload ∧
    payload.length ≤ maxTextBytes) (.new "invalid timer")
  let s ← getState
  require (s.timers.contains (timerKey id timerID) = false) (.new "timer already exists")
  let t ← now env
  editState fun s => { s with
    timers := s.timers.insert (timerKey id timerID) ⟨id, timerID, t + delay, interval, payload⟩ }
  auditLocked env principal id (lit "timer.create") timerID (lit "allow") []
  persistLocked env

end Aok.Runtime
