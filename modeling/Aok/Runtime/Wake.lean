import Aok.Runtime.KernelWake

/-!
# Wake bindings

Artifact commits of the context store wake applications, directly through the mailbox
or, with a kernel bridge, through the application's kernel queue.
-/

namespace Aok.Runtime
open Lib Lib.Utf8 Lib.JsonText Lib.JsonValue Lib.Command

def maxWakeBindings : ℕ := 64
def wakeScanBatch : ℕ := 64

def bindingKey (id bindingID : GoString) : GoString := id ++ lit ":" ++ bindingID

def commitText (c : LSFSCommit) : Bytes :=
  object [member "cursor" (decInt c.cursor), member "context_id" (quote c.contextID),
    member "kind" (quote (lit c.kind.text)), member "handle" (quote c.handle.text),
    member "idempotency_key" (quote c.idempotencyKey)]

/-- The JSON text of an `LSFSWakeEvent`. -/
def lsfsWakePayload (b : WakeBinding) (c : LSFSCommit) : Bytes :=
  object [member "source_kind" (quote (lit "lsfs")), member "binding_id" (quote b.bindingID),
    member "commit" (commitText c),
    member "text" (quote (lit "LSFS artifact committed: context=" ++ c.contextID ++
      lit " cursor=" ++ decInt c.cursor ++ lit " handle=" ++ c.handle.text))]

def lsfsMessageKey (b : WakeBinding) (c : LSFSCommit) : GoString :=
  lit "lsfs:" ++ b.bindingID ++ lit ":" ++ decInt c.cursor

variable {K : Type} (env : Env K)

def contextRead {α : Type} (f : ContextStore → Except Err α) : Op K α :=
  contextTx env fun s => (f s).map fun a => (a, s)

def addLSFSBinding (principal id bindingID ref : GoString) (after : ℤ) : Op K Unit := do
  let a ← findApplication id
  require (a.isRetired = false) .applicationRetired
  require (bindingID ≠ [] ∧ bindingID.length ≤ 128 ∧ 0 ≤ after) (.new "invalid LSFS binding")
  let ref := if ref = [] then a.contextID else ref
  let s ← getState
  require (s.bindings.contains (bindingKey id bindingID) = false) (.new "binding already exists")
  require ((s.bindings.toList.countP fun p => p.2.applicationID = id) < maxWakeBindings)
    (.new "wake binding limit reached")
  let _ ← contextRead env (ContextStore.commitsAfter a.ownerAgent ref after 1)
  editState fun s => { s with
    bindings := s.bindings.insert (bindingKey id bindingID) ⟨bindingID, id, ref, after, true⟩ }
  auditLocked env principal id (lit "event_source.create") bindingID (lit "allow")
    (lit "lsfs artifact commits")
  persistLocked env

def setLSFSBindingEnabled (principal id bindingID : GoString) (enabled : Bool) : Op K Unit := do
  let a ← findApplication id
  require (a.isRetired = false) .applicationRetired
  let s ← getState
  match s.bindings[bindingKey id bindingID]? with
  | none => fail (.new "binding not found")
  | some b =>
    if b.enabled = enabled then pure ()
    else do
      editState fun s => { s with
        bindings := s.bindings.insert (bindingKey id bindingID) { b with enabled } }
      auditLocked env principal id
        (if enabled then lit "event_source.bind" else lit "event_source.disable") bindingID
        (lit "allow") []
      persistLocked env

def importArtifact (principal id key : GoString) (payload : Bytes) : Op K HexText := do
  let a ← findApplication id
  require (a.isRetired = false) .applicationRetired
  require (key ≠ [] ∧ key.length ≤ 256 ∧ validJson payload ∧ payload.length ≤ maxTextBytes)
    (.new "invalid artifact import")
  let handle ← contextTx env (ContextStore.commitArtifact env.sha256 a.ownerAgent a.contextID
    (lit "artifact.import:" ++ key) payload)
  auditLocked env principal id (lit "artifact.import") handle.text (lit "allow") []
  persistLocked env
  pure handle

/-- The commits found for one binding, with the binding as it advances and whether anything
in the state changed. With a kernel bridge each cursor is committed before it is stored in
the binding, and the change is not noted. -/
def scanCommits (b : WakeBinding) (changed : Bool) : List LSFSCommit → Op K (WakeBinding × Bool)
  | [] => pure (b, changed)
  | c :: rest => do
    let sup ← ask World.sup
    if c.kind ≠ .artifact then scanCommits { b with cursor := c.cursor } true rest
    else if sup.kernel then do
      let src ← attempt (ensureKernelSourceLocked env b.applicationID)
      match src with
      | .error e => do
        restoreLocked
        fail e
      | .ok src => do
        let r ← attempt (kernelCall env (env.bridge.post src (UInt64.ofNat c.cursor.toNat)))
        match r with
        | .error .eagain => pure (b, changed)
        | .error e => do
          restoreLocked
          fail e
        | .ok _ => do
          let r ← attempt (persistLocked env)
          match r with
          | .error e => do
            restoreLocked
            fail e
          | .ok _ => scanCommits { b with cursor := c.cursor } changed rest
    else do
      let r ← attempt (enqueueLocked env (lit "supervisor") b.applicationID (lsfsMessageKey b c)
        (lsfsWakePayload b c))
      match r with
      | .error .mailboxFull => pure (b, changed)
      | .error e => do
        restoreLocked
        fail e
      | .ok _ => scanCommits { b with cursor := c.cursor } true rest

/-- One binding of a `deliverLSFS` pass. -/
def deliverBinding (changed : Bool) (key : GoString) : Op K Bool := do
  let s ← getState
  match s.bindings[key]? with
  | none => pure changed
  | some b =>
    if b.enabled = false then pure changed
    else match (s.applications[b.applicationID]?).filter fun a => a.isRetired = false with
      | none => do
        editState fun s => { s with
          bindings := s.bindings.insert key { b with enabled := false } }
        pure true
      | some a => do
        let r ← attempt (contextRead env
          (ContextStore.commitsAfter a.ownerAgent b.ref b.cursor wakeScanBatch))
        match r with
        | .error e => do
          restoreLocked
          fail e
        | .ok commits => do
          let (b, changed) ← scanCommits env b changed commits
          editState fun s => { s with bindings := s.bindings.insert key b }
          pure changed

def deliverBindings : Bool → List GoString → Op K Bool
  | changed, [] => pure changed
  | changed, key :: keys => do
    let changed ← deliverBinding env changed key
    deliverBindings changed keys

def deliverLSFS : Op K Unit := do
  let s ← getState
  let changed ← deliverBindings env false s.bindings.keys
  if changed then persistLocked env else pure ()

end Aok.Runtime
