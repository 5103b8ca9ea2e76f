import Aok.Runtime.KernelWake

/-!
# Start-up

`load` reads the row back, checks its audit chain, gives the messages of the last
incarnation back to their mailboxes and starts a new incarnation of each application.
Only the last step writes.
-/

namespace Aok.Runtime
open Lib Lib.Utf8 Lib.JsonText Lib.Command

/-- The supervisor before `load` has changed anything. -/
def World.reopened {K : Type} (w : World K) : World K :=
  { w with sup := ⟨codec.reopen w.db, w.db, ∅, ∅, [], false, ∅, ∅, 0⟩ }

def World.resaved {K : Type} (w : World K) : World K :=
  { w with sup := { w.sup with committed := codec.save w.sup.core } }

variable {K : Type} (env : Env K)

def fillKernelID (id : GoString) : Op K Unit := do
  let s ← getState
  match s.applications[id]? with
  | none => pure ()
  | some a =>
    if a.kernelID = 0 then do
      let kernelID ← nextKernelID
      updateApplication id fun a => { a with kernelID }
    else pure ()

def MailboxMessage.reclaim (m : MailboxMessage) : MailboxMessage :=
  if m.status = .claimed then m.withStatus .pending else m

def recoverMailbox (id : GoString) : Op K Unit := do
  let s ← getState
  if (s.applications[id]?).any fun a => a.state == .tombstoned then expireMailboxLocked id
  else updateMailbox id (List.map MailboxMessage.reclaim)

def Application.restart (a : Application) : Application :=
  { a with generation := if a.generation = 0 then 1 else a.generation + 1 }

def recoverApplication (id : GoString) : Op K Unit := do
  let s ← getState
  match s.applications[id]? with
  | none => pure ()
  | some a =>
    if a.state = .tombstoned then pure ()
    else do
      require (a.generation ≠ maxUint64) (.new "application generation exhausted")
      updateApplication id Application.restart
      auditLocked env (lit "supervisor") id (lit "application.recover") id (lit "allow")
        (lit "new worker incarnation")

def fillKernelIDs : Op K Unit := do
  let s ← getState
  let ids ← mapKeys env s.applications
  forEach fillKernelID ids

def recoverMailboxes : Op K Unit := do
  let s ← getState
  let ids ← mapKeys env s.mailbox
  forEach recoverMailbox ids

def recoverApplications : Op K Unit := do
  let s ← getState
  let ids ← mapKeys env s.applications
  forEach (recoverApplication env) ids

def load : Op K Unit := do
  modify World.reopened
  fillKernelIDs env
  let s ← getState
  require (verifyAudit env.sha256 s.audit) (.new "invalid audit chain")
  modify World.resaved
  recoverMailboxes env
  recoverApplications env
  persistLocked env

end Aok.Runtime
