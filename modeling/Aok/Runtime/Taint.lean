import Aok.Runtime.Mailbox

/-!
# The export gate

Exports with their three ways out (clean, confirmed by the caller, released by an
approved request) and the queue of confirmation requests.
-/

namespace Aok.Runtime
open Lib Lib.Utf8 Lib.JsonText Lib.Command

def taintExternal : UInt64 := 1

def confirmationTTL : ℤ := 300000000000
def maxPendingConfirmations : ℕ := 64

variable {K : Type} (env : Env K)

def ConfirmationRequest.expireAt (time : ℤ) (r : ConfirmationRequest) : ConfirmationRequest :=
  if r.status = .pending ∧ r.expiresAt < time then { r with status := .expired } else r

/-- The settled requests, oldest first, in the order the map happened to be visited. -/
def terminalRequests (t : Table GoString ConfirmationRequest) (ids : List GoString) :
    List GoString :=
  ((ids.filterMap fun id => (t[id]?).map fun r => (id, r)).filter
    (fun p => p.2.status ≠ .pending)).insertionSort (fun p q => p.2.createdAt ≤ q.2.createdAt)
    |>.map Prod.fst

def sweepConfirmationsLocked (time : ℤ) : Op K Unit := do
  editState fun s => { s with confirmations := s.confirmations.map fun _ r => r.expireAt time }
  let s ← getState
  let ids ← mapKeys env s.confirmations
  let excess := s.confirmations.size - maxPendingConfirmations
  editState fun s => { s with
    confirmations := ((terminalRequests s.confirmations ids).take excess).foldl
      (fun t id => t.erase id) s.confirmations }

def pendingCount (t : Table GoString ConfirmationRequest) : ℕ :=
  t.toList.countP fun p => p.2.status = .pending

/-- `escalateExportLocked`. When the queue is full the sweep and the audit record stay in
memory without a commit. -/
def escalateExportLocked (principal : GoString) (a : Application) (text : GoString) :
    Op K GoString := do
  let raw ← randomBytes env 8
  let t ← now env
  let requestID := lit "cfm-" ++ (hexEncode raw).text
  sweepConfirmationsLocked env t
  let s ← getState
  if maxPendingConfirmations ≤ pendingCount s.confirmations then do
    auditLocked env principal a.applicationID (lit "confirmation.create") (lit "rejected")
      (lit "deny") (lit "slow-path queue full")
    fail (.new "confirmation queue full; retry after settling pending requests")
  else do
    editState fun s => { s with
      confirmations := s.confirmations.insert requestID
        ⟨requestID, a.applicationID, lit "taint.export", text, t, t + confirmationTTL, .pending,
          []⟩ }
    auditLocked env principal a.applicationID (lit "confirmation.create") requestID (lit "allow")
      (lit "taint.export")
    persistLocked env
    fail (.confirmationPending requestID)

def setConfirmation (requestID : GoString) (r : ConfirmationRequest) : Op K Unit :=
  editState fun s => { s with confirmations := s.confirmations.insert requestID r }

def exportViaRequestLocked (principal : GoString) (a : Application) (text requestID : GoString) :
    Op K GoString := do
  let s ← getState
  match s.confirmations[requestID]? with
  | none => fail (.new "confirmation request not found")
  | some r => do
    require (r.applicationID = a.applicationID ∧ r.kind = lit "taint.export")
      (.new "confirmation request not found")
    require (r.status ≠ .consumed) (.new "confirmation request already used")
    require (r.status = .approved) (.new "confirmation request not approved")
    let t ← now env
    if r.expiresAt < t then do
      setConfirmation requestID { r with status := .expired }
      ignoreError (persistLocked env)
      fail (.new "confirmation request expired")
    else do
      require (text = r.object) (.new "export payload does not match the approved request")
      setConfirmation requestID { r with status := .consumed }
      auditLocked env principal a.applicationID (lit "taint.export.confirm") text (lit "allow")
        (lit "one-shot via " ++ requestID)
      persistLocked env
      pure text

/-- The taint bits of an application that the manifest's mask does not cover. -/
def blockedBits (a : Application) : UInt64 := a.taintBits &&& ~~~ env.policy.exportMask

def exportApplication (principal id text : GoString) (confirm escalate : Bool)
    (requestID : GoString) : Op K GoString := do
  let a ← findApplication id
  require (a.isRetired = false) .applicationRetired
  require (text ≠ [] ∧ text.length ≤ maxTextBytes) (.new "invalid export payload")
  if requestID ≠ [] then exportViaRequestLocked env principal a text requestID
  else if blockedBits env a = 0 then do
    auditLocked env principal id (lit "taint.export") text (lit "allow") (lit "clean")
    persistLocked env
    pure text
  else if escalate ∧ ¬ confirm then escalateExportLocked env principal a text
  else if ¬ confirm then do
    auditLocked env principal id (lit "taint.export") text (lit "deny") (lit "unmasked taint")
    persistLocked env
    fail .taintBlocked
  else do
    auditLocked env principal id (lit "taint.export.confirm") text (lit "allow")
      (lit "human-confirmed unmasked taint")
    persistLocked env
    pure text

def settleConfirmation (principal requestID : GoString) (approve : Bool) :
    Op K ConfirmationRequest := do
  let s ← getState
  match s.confirmations[requestID]? with
  | none => fail (.new "confirmation request not found")
  | some r => do
    require (r.status = .pending) (.new "confirmation request already settled")
    let t ← now env
    if r.expiresAt < t then do
      setConfirmation requestID { r with status := .expired }
      ignoreError (persistLocked env)
      fail (.new "confirmation request expired")
    else do
      let r := { r with
        status := if approve then .approved else .denied
        settledBy := principal }
      setConfirmation requestID r
      auditLocked env principal r.applicationID
        (if approve then lit "confirmation.approve" else lit "confirmation.deny") requestID
        (lit "allow") r.kind
      persistLocked env
      pure r

end Aok.Runtime
