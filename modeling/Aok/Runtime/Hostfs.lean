import Aok.Runtime.Gateway
import Aok.Runtime.Policy

/-!
# Host file system mounts, artifact transfers and web requests
-/

namespace Aok.Runtime
open Lib Lib.Utf8 Lib.JsonText Lib.JsonValue Lib.Command

def maxTransfers : ℕ := 256

def hostfsModeOf (mode : GoString) : Option HostfsMode :=
  [HostfsMode.ro, .rw, .appendOnly, .dropboxIn, .dropboxOut].find? fun m => lit m.text = mode

def mountID (sequence : ℕ) : GoString := lit "mnt-" ++ dec sequence

def transferID (sequence : ℕ) : GoString := lit "xfer-" ++ dec sequence

variable {K : Type} (env : Env K)

def mountHostfs (principal applicationID guestPath mode : GoString) (limits ttl : ℤ) :
    Op K HostfsMount := do
  let _ ← findApplication applicationID
  match hostfsModeOf mode with
  | none => fail (.new "invalid hostfs mount")
  | some m => do
    require (guestPath ≠ [] ∧ 0 ≤ limits) (.new "invalid hostfs mount")
    require (cleanPath guestPath = guestPath ∧ isAbs guestPath) (.new "invalid hostfs mount path")
    let t ← now env
    let t' ← now env
    let s ← getState
    let n := s.nextSequence + 1
    let mount : HostfsMount := ⟨mountID n, applicationID, lit "supervisor://hostfs/" ++ mode,
      guestPath, m, limits, 1, true, t, if ttl = 0 then 0 else t' + ttl⟩
    editState fun s => { s with
      nextSequence := n
      hostfsMounts := s.hostfsMounts.insert mount.mountID mount }
    auditLocked env principal applicationID (lit "hostfs.mount") mount.mountID (lit "allow") mode
    persistLocked env
    pure mount

def unmountHostfs (principal mountID : GoString) : Op K Unit := do
  let s ← getState
  match s.hostfsMounts[mountID]? with
  | none => fail .mountNotFound
  | some mount => do
    editState fun s => { s with
      hostfsMounts := s.hostfsMounts.insert mountID
        { mount with enabled := false, version := mount.version + 1 } }
    auditLocked env principal mount.applicationID (lit "hostfs.unmount") mountID (lit "allow") []
    persistLocked env

/-- The staging common to `ExportArtifact` and `CommitImport`: a known key returns the earlier
transfer, a new one is recorded, with the taint an import adds. -/
def stageTransfer (direction : Direction) (taint : UInt64) (action : String)
    (principal applicationID key : GoString) (payload : Bytes) : Op K ArtifactTransfer := do
  let _ ← findApplication applicationID
  require (key ≠ [] ∧ key.length ≤ 256 ∧ validJson payload ∧ payload.length ≤ maxTextBytes)
    (.new "invalid artifact transfer")
  let s ← getState
  match s.transfers.find? fun x => x.idempotencyKey = key ∧ x.applicationID = applicationID with
  | some x => pure x
  | none => do
    let t ← now env
    let n := s.nextSequence + 1
    let x : ArtifactTransfer := ⟨transferID n, applicationID, direction, key, payload, t⟩
    accumulateTaint applicationID taint
    editState fun s => { s with
      nextSequence := n
      transfers := keepNewest maxTransfers (s.transfers ++ [x]) }
    auditLocked env principal applicationID (lit action) x.transferID (lit "allow") key
    persistLocked env
    pure x

/-- `CommitImport`: what comes from the host is externally tainted. -/
def commitImport : GoString → GoString → GoString → Bytes → Op K ArtifactTransfer :=
  stageTransfer env .inbound taintExternal "artifact.transfer.import"

/-- The first critical section of `ExportArtifact`. -/
def exportGate (principal applicationID : GoString) (payload : Bytes) : Op K GoString :=
  exportApplication env principal applicationID payload false false []

/-- The second critical section of `ExportArtifact`. -/
def exportStage : GoString → GoString → GoString → Bytes → Op K ArtifactTransfer :=
  stageTransfer env .outbound 0 "artifact.transfer.export"

/-- The second critical section of `WebExecute`, after the request was made. -/
def webRecord (principal applicationID kind url : GoString) (status : ℤ) : Op K Unit := do
  let s ← getState
  require ((s.applications[applicationID]?).any fun a => !a.isRetired) .applicationNotFound
  accumulateTaint applicationID taintExternal
  auditLocked env principal applicationID (lit "web." ++ kind)
    (url ++ lit " -> " ++ decInt status) (lit "allow") []
  persistLocked env

end Aok.Runtime
