import Aok.Runtime.ContextStore
import Aok.Lib.Command
import Aok.Lib.Journal

/-!
# The supervisor and its world

What an operation can touch: the one row of the state database, the context store,
the kernel's event registry and the supervisor in memory. Everything the outside
decides (clocks, random bytes, map iteration order, failures and crashes at each
commit, hashing and signatures, the kernel) is an `Env`, read through a counter that
advances with each question, so an operation is a function and a statement about every
environment is a statement about every behaviour of the outside.
-/

namespace Aok.Runtime
open Lib Lib.Utf8 Lib.JsonText Lib.JsonValue Lib.Command Lib.Journal

/-! ## Audit records -/

def auditText (r : AuditRecord) : Bytes :=
  object ([member "sequence" (dec r.sequence), member "time" (decInt r.time),
      member "principal" (quote r.principal)] ++
    memberUnlessEmpty "application_id" r.applicationID ++
    [member "action" (quote r.action), member "object" (quote r.object),
      member "decision" (quote r.decision)] ++
    memberUnlessEmpty "reason" r.reason ++
    [member "previous_hash" (quote r.previousHash), member "hash" (quote r.hash)])

/-- `auditHash`: the sum over the record with its own hash blanked. -/
def auditHash (sha256 : Bytes → Digest) (r : AuditRecord) : GoString :=
  (sha256 (auditText { r with hash := [] })).text

def verifyFrom (sha256 : Bytes → Digest) : GoString → ℕ → List AuditRecord → Bool
  | _, _, [] => true
  | previous, seq, r :: records =>
    seq < r.sequence && r.previousHash == previous && r.hash == auditHash sha256 r &&
      verifyFrom sha256 r.hash r.sequence records

/-- `VerifyAudit` returns no error. -/
def verifyAudit (sha256 : Bytes → Digest) (records : List AuditRecord) : Bool :=
  verifyFrom sha256 [] 0 records

def lastHash (records : List AuditRecord) : GoString := (records.getLast?.map (·.hash)).getD []

/-! ## The value in memory -/

def conversationKey (channelID externalID : GoString) : GoString :=
  channelID ++ lit ":" ++ externalID

/-- The conversation a message came from according to its envelope, if that conversation is
still bound to the application. -/
def sourceKey (s : State) (applicationID : GoString) (payload : Bytes) : Option GoString :=
  let source := readField (lit "source") asString [] payload
  let channel := readField (lit "channel") asString [] payload
  let external := readField (lit "external_id") asString [] payload
  if source.2 ∧ channel.2 ∧ external.2 ∧ source.1 = lit "gateway" then
    let key := conversationKey channel.1 external.1
    match s.conversations[key]? with
    | some c =>
      if c.channelID = channel.1 ∧ c.externalID = external.1 ∧ c.applicationID = applicationID then
        some key
      else none
    | none => none
  else none

def noteSource (s : State) (applicationID : GoString) (acc : Table GoString GoString)
    (m : MailboxMessage) : Table GoString GoString :=
  match sourceKey s applicationID m.payload with
  | some key => acc.insert m.messageID key
  | none => acc

/-- `rescanSourcedLocked`. -/
def rescanSourced (s : State) : Table GoString GoString :=
  s.mailbox.toList.foldl (fun acc p => p.2.foldl (noteSource s p.1) acc) ∅

@[ext] structure Core where
  state : State
  previousHash : GoString
  sourced : Table GoString GoString

/-- A core is saved as the image of its state and reopened by rebuilding the derived fields. -/
def codec : Codec Core State where
  save c := c.state.image
  reopen d := ⟨d, lastHash d.audit, rescanSourced d⟩

/-- `auditLocked` at a given time. -/
def Core.audit (sha256 : Bytes → Digest) (time : ℤ)
    (principal applicationID action object decision reason : GoString) (c : Core) : Core :=
  let r : AuditRecord :=
    ⟨c.state.nextSequence + 1, time, principal, applicationID, action, object, decision, reason,
      c.previousHash, []⟩
  let r := { r with hash := auditHash sha256 r }
  { c with
    state := { c.state with
      nextSequence := c.state.nextSequence + 1
      audit := c.state.audit ++ [r] }
    previousHash := r.hash }

structure Supervisor where
  core : Core
  committed : State
  inflight : Finset GoString
  lastClaim : Table GoString ℤ
  lastPrefix : GoString
  kernel : Bool
  kernelApps : Table GoString ℕ
  kernelSrcs : Table GoString ℕ
  turnConcurrency : ℕ

/-- What a durable write does: it succeeds, it fails, or the process dies before it. -/
inductive Fault where
  | ok
  | fail
  | crash
deriving DecidableEq

structure CapabilitySet where
  net : Bool
  tools : List GoString
  fsRead : List GoString
  fsWrite : List GoString
  exportMask : UInt64

/-- `KernelEventBridge` and the handles it gives out, over some state of the kernel. Handles
are numbers. -/
structure Bridge (K : Type) where
  bootID : K → Except Err GoString
  openApp : ℕ → K → Except Err ℕ × K
  read : ℕ → K → Except Err (Option KernelEvent) × K
  ack : ℕ → UInt64 → K → Except Err Unit × K
  snapshot : ℕ → K → Except Err (List KernelEvent) × K
  restore : ℕ → List KernelEvent → K → Except Err Unit × K
  closeApp : ℕ → K → K
  openSource : K → Except Err ℕ × K
  attach : ℕ → ℕ → ℕ → K → Except Err Unit × K
  post : ℕ → UInt64 → K → Except Err Unit × K
  closeSource : ℕ → K → K

structure Env (K : Type) where
  now : ℕ → ℤ
  random : ℕ → Option (ℕ → UInt8)
  fault : ℕ → Fault
  order : ℕ → List GoString → List GoString
  order_perm : ∀ n l, (order n l).Perm l
  sha256 : Bytes → Digest
  ed25519 : Bytes → Bytes → Bytes → Bool
  policy : CapabilitySet
  bridge : Bridge K
  fuel : ℕ

structure World (K : Type) where
  db : State
  contexts : ContextStore
  kernel : K
  sup : Supervisor
  tick : ℕ

abbrev Op (K α : Type) := Cmd (World K) Err α

variable {K : Type}

namespace World

def store (w : World K) : Store Core State := ⟨w.sup.core, w.sup.committed, w.db⟩

def setCore (c : Core) (w : World K) : World K := { w with sup := { w.sup with core := c } }

/-- The successful half of `persistLocked`. -/
def commit (w : World K) : World K :=
  { w with db := codec.save w.sup.core, sup := { w.sup with committed := codec.save w.sup.core } }

/-- `restoreLocked`. -/
def restore (w : World K) : World K := w.setCore (codec.reopen w.sup.committed)

end World

variable (env : Env K)

/-! ## Primitive commands -/

def getCore : Op K Core := ask fun w => w.sup.core

def getState : Op K State := ask fun w => w.sup.core.state

def editCore (f : Core → Core) : Op K Unit := modify fun w => w.setCore (f w.sup.core)

def editState (f : State → State) : Op K Unit := editCore fun c => { c with state := f c.state }

def editSupervisor (f : Supervisor → Supervisor) : Op K Unit :=
  modify fun w => { w with sup := f w.sup }

def question {α : Type} (f : ℕ → α) : Op K α := fun w =>
  (.ok (f w.tick), { w with tick := w.tick + 1 })

/-- `time.Now().UnixNano()`. -/
def now : Op K ℤ := question env.now

/-- `rand.Read` into `n` bytes. -/
def randomBytes (n : ℕ) : Op K Bytes := do
  match ← question env.random with
  | some f => pure ((List.range n).map f)
  | none => fail .system

/-- The order in which `range` visits a map. -/
def mapKeys {α : Type} (t : Table GoString α) : Op K (List GoString) :=
  question fun n => env.order n t.keys

def restoreLocked : Op K Unit := modify World.restore

/-- `persistLocked`: a failed write rolls the state back to the last one written. -/
def persistLocked : Op K Unit := do
  match ← question env.fault with
  | .ok => modify World.commit
  | .fail => do restoreLocked; fail .system
  | .crash => halt

def contextTx {α : Type} (f : ContextStore → Except Err (α × ContextStore)) : Op K α := do
  match ← question env.fault with
  | .ok =>
    match f (← ask World.contexts) with
    | .ok (a, s) => do modify (fun w => { w with contexts := s }); pure a
    | .error e => fail e
  | .fail => fail .system
  | .crash => halt

def kernelCall {α : Type} (f : K → Except Err α × K) : Op K α := do
  match ← question env.fault with
  | .crash => halt
  | _ => do
    let (r, k) ← ask fun w => f w.kernel
    modify fun w => { w with kernel := k }
    match r with
    | .ok a => pure a
    | .error e => fail e

def auditLocked (principal applicationID action object decision reason : GoString) :
    Op K Unit := do
  let t ← now env
  editCore (Core.audit env.sha256 t principal applicationID action object decision reason)

/-- `_ = c`: an error is dropped. -/
def ignoreError (c : Op K Unit) : Op K Unit := do
  let _ ← attempt c
  pure ()

def findApplication (id : GoString) : Op K Application := do
  match (← getState).applications[id]? with
  | some a => pure a
  | none => fail .applicationNotFound

def updateTable {α : Type} (f : α → α) (k : GoString) (t : Table GoString α) : Table GoString α :=
  match t[k]? with
  | some v => t.insert k (f v)
  | none => t

def updateApplication (id : GoString) (f : Application → Application) : Op K Unit :=
  editState fun s => { s with applications := updateTable f id s.applications }

def updateMailbox (id : GoString) (f : List MailboxMessage → List MailboxMessage) : Op K Unit :=
  editState fun s => { s with mailbox := updateTable f id s.mailbox }

def State.messages (s : State) (id : GoString) : List MailboxMessage := (s.mailbox[id]?).getD []

/-- The newest `n` entries of a list that grows at its end. -/
def keepNewest {α : Type} (n : ℕ) (l : List α) : List α := l.drop (l.length - n)

def maxUint64 : UInt64 := 18446744073709551615

def saturatingAdd (a b : UInt64) : UInt64 :=
  if maxUint64.toNat - a.toNat < b.toNat then maxUint64 else a + b

end Aok.Runtime
