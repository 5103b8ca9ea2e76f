import Aok.Runtime.Runner

/-!
# Kernel events

Events of the kernel's application queues are moved into the mailbox before they are
acknowledged. What was pending at the last shutdown is kept with the state and delivered
first.
-/

namespace Aok.Runtime
open Lib Lib.Utf8 Lib.JsonText Lib.Command

def kernelKindName (kind : UInt32) : String :=
  if kind = 1 then "timer" else if kind = 2 then "port" else if kind = 3 then "lsfs" else "unknown"

def kernelWakePayload (id : GoString) (e : KernelEvent) : Bytes :=
  object [member "source_kind" (quote (lit "kernel")), member "application_id" (quote id),
    member "event_id" (dec e.eventID.toNat), member "event_seq" (dec e.eventSeq.toNat),
    member "kernel_kind" (quote (lit (kernelKindName e.kind))),
    member "coalesced" (dec e.coalesced.toNat), member "data" (dec e.data.toNat),
    member "text" (quote (lit "kernel " ++ lit (kernelKindName e.kind) ++ lit " event: event_id=" ++
      dec e.eventID.toNat ++ lit " seq=" ++ dec e.eventSeq.toNat ++ lit " data=" ++
      dec e.data.toNat))]

def kernelMessageKey (id : GoString) (e : KernelEvent) : GoString :=
  if e.bootID = [] then lit "kernel:" ++ id ++ lit ":" ++ dec e.eventID.toNat
  else lit "kernel:" ++ id ++ lit ":" ++ e.bootID ++ lit ":" ++ dec e.eventID.toNat

def sameKernelEvent (a b : KernelEvent) : Bool :=
  a.applicationID == b.applicationID && a.eventID == b.eventID && a.eventSeq == b.eventSeq &&
    a.kind == b.kind && a.coalesced == b.coalesced && a.data == b.data

def State.pending (s : State) (id : GoString) : List KernelEvent := (s.kernelPending[id]?).getD []

/-- `identifyKernelEventLocked`. -/
def State.identify (s : State) (id : GoString) (e : KernelEvent) (boot : GoString) : KernelEvent :=
  let e := { e with bootID := boot, queueBootID := boot }
  match (s.pending id).find? fun saved => saved.queueBootID == boot && sameKernelEvent saved e with
  | some saved => { e with bootID := saved.bootID }
  | none => e

def State.setPending (s : State) (id : GoString) (l : List KernelEvent) : State :=
  { s with kernelPending := s.kernelPending.insert id l }

def State.shrinkPending (s : State) (id : GoString) (l : List KernelEvent) : State :=
  { s with kernelPending :=
      if l = [] then s.kernelPending.erase id else s.kernelPending.insert id l }

variable {K : Type} (env : Env K)

def markKernelRecoveryPendingLocked (id : GoString) : Op K Unit :=
  editState fun s => s.setPending id ((s.pending id).map fun e => { e with recoveryPending := true })

def ensureKernelHandleLocked (id : GoString) : Op K ℕ := do
  let sup ← ask World.sup
  match sup.kernelApps[id]? with
  | some h => pure h
  | none => do
    require (sup.kernel = true) (.new "kernel event bridge is not attached")
    let a ← findApplication id
    let h ← kernelCall env (env.bridge.openApp a.kernelID)
    editSupervisor fun s => { s with kernelApps := s.kernelApps.insert id h }
    pure h

def ensureKernelSourceLocked (id : GoString) : Op K ℕ := do
  let sup ← ask World.sup
  match sup.kernelSrcs[id]? with
  | some src => pure src
  | none => do
    let app ← ensureKernelHandleLocked env id
    let src ← kernelCall env env.bridge.openSource
    let a ← findApplication id
    let r ← attempt (kernelCall env (env.bridge.attach src app a.kernelID))
    match r with
    | .error e => do
      modify fun w => { w with kernel := env.bridge.closeSource src w.kernel }
      fail e
    | .ok _ => do
      editSupervisor fun s => { s with kernelSrcs := s.kernelSrcs.insert id src }
      pure src

def bootIdentity : Op K GoString := do
  let r ← attempt (kernelCall env fun k => (env.bridge.bootID k, k))
  match r with
  | .ok boot =>
    if boot = [] then fail (.new "kernel boot identity unavailable") else pure boot
  | .error _ => fail (.new "kernel boot identity unavailable")

/-- `deliverPersistedKernelLocked`, bounded by the number of records there are. -/
def deliverPersisted (id : GoString) : ℕ → Op K Bool
  | 0 => pure true
  | n + 1 => do
    let s ← getState
    match s.pending id with
    | [] => pure true
    | event :: rest => do
      let r ← attempt (enqueueLocked env (lit "supervisor") id (kernelMessageKey id event)
        (kernelWakePayload id event))
      match r with
      | .error .mailboxFull => pure false
      | .error e => do
        restoreLocked
        fail e
      | .ok _ => do
        editState fun s => s.shrinkPending id rest
        persistLocked env
        deliverPersisted id n

def deliverPersistedKernelLocked (id : GoString) : Op K Bool := do
  let s ← getState
  deliverPersisted env id (s.pending id).length

/-- Delivery of the persisted records with the mark that keeps a shutdown from replacing
them; a failure rolled the state back, so the mark is set again. -/
def recoverPersisted (id : GoString) : Op K Bool := do
  markKernelRecoveryPendingLocked id
  let r ← attempt (deliverPersistedKernelLocked env id)
  match r with
  | .ok recovered => pure recovered
  | .error e => do
    markKernelRecoveryPendingLocked id
    fail e

/-- One application of `attachKernel`. -/
def attachApplication (boot id : GoString) : Op K Unit := do
  let s ← getState
  match s.applications[id]? with
  | none => pure ()
  | some a =>
    if a.state = .tombstoned ∨ s.pending id = [] then pure ()
    else do
      let recovered ← recoverPersisted env id
      if recovered = false ∨ (s.pending id).any (fun e => e.queueBootID = [] ∨ e.queueBootID ≠ boot)
      then pure ()
      else do
        let h ← ensureKernelHandleLocked env id
        let r ← attempt (kernelCall env (env.bridge.restore h (s.pending id)))
        match r with
        | .ok _ => pure ()
        | .error .ebusy => pure ()
        | .error e => do
          closeKernelApp env id
          fail e

def forEach {α : Type} (f : α → Op K Unit) : List α → Op K Unit
  | [] => pure ()
  | x :: xs => do
    f x
    forEach f xs

def attachKernel : Op K Unit := do
  let sup ← ask World.sup
  if sup.kernel then do
    let boot ← bootIdentity env
    let s ← getState
    forEach (attachApplication env boot) s.applications.keys
  else pure ()

/-- A delivered event is committed as pending together with its message, acknowledged, and then
dropped again. -/
def acknowledge (id : GoString) (h : ℕ) (event identified : KernelEvent) (kept : List KernelEvent) :
    Op K Unit := do
  editState fun s => s.setPending id (kept ++ [identified])
  let r ← attempt (persistLocked env)
  match r with
  | .error e => do
    restoreLocked
    closeKernelApp env id
    fail e
  | .ok _ => do
    let r ← attempt (kernelCall env (env.bridge.ack h event.eventID))
    match r with
    | .error e => do
      closeKernelApp env id
      fail e
    | .ok _ => do
      editState fun s => s.shrinkPending id kept
      persistLocked env

/-- The queue of one application is read until it is empty. A full mailbox ends the whole
pass. The bound stands for the time the process has; `false` ends the pass. -/
def drainQueue (boot id : GoString) (h : ℕ) : ℕ → Op K Bool
  | 0 => halt
  | n + 1 => do
    let next ← kernelCall env (env.bridge.read h)
    match next with
    | none => pure true
    | some event => do
      let s ← getState
      let identified := s.identify id event boot
      let r ← attempt (enqueueLocked env (lit "supervisor") id (kernelMessageKey id identified)
        (kernelWakePayload id event))
      match r with
      | .error .mailboxFull => do
        closeKernelApp env id
        pure false
      | .error e => do
        restoreLocked
        closeKernelApp env id
        fail e
      | .ok _ => do
        let kept := (s.pending id).filter fun saved =>
          saved.bootID ≠ identified.bootID ∨ saved.eventID ≠ identified.eventID
        acknowledge env id h event identified kept
        drainQueue boot id h n

/-- One application of `deliverKernel`; `false` ends the pass. -/
def deliverKernelApplication (boot id : GoString) : Op K Bool := do
  let s ← getState
  match s.applications[id]? with
  | none => pure true
  | some a =>
    if a.isRetired ∨ a.kernelID = 0 then pure true
    else do
      let recovered ← recoverPersisted env id
      if recovered then do
        let h ← ensureKernelHandleLocked env id
        drainQueue env boot id h env.fuel
      else pure true

def deliverKernelEach (boot : GoString) : List GoString → Op K Unit
  | [] => pure ()
  | id :: ids => do
    let goOn ← deliverKernelApplication env boot id
    if goOn then deliverKernelEach boot ids else pure ()

def deliverKernel : Op K Unit := do
  let sup ← ask World.sup
  if sup.kernel then do
    let boot ← bootIdentity env
    let s ← getState
    deliverKernelEach env boot s.applications.keys
  else pure ()

def closeKernelHandlesLocked : Op K Unit := modify fun w => { w with
  kernel := w.sup.kernelSrcs.toList.foldl (fun k p => env.bridge.closeSource p.2 k)
    (w.sup.kernelApps.toList.foldl (fun k p => env.bridge.closeApp p.2 k) w.kernel)
  sup := { w.sup with kernelApps := ∅, kernelSrcs := ∅ } }

def setKernelBridge : Op K Unit := do
  closeKernelHandlesLocked env
  editSupervisor fun s => { s with kernel := true }

/-- The queue of one application as `snapshotKernel` keeps it; an error skips it. -/
def snapshotApplication (boot : GoString) (changed : Bool) (id : GoString) : Op K Bool := do
  let s ← getState
  match s.applications[id]? with
  | none => pure changed
  | some a =>
    if a.isRetired ∨ a.kernelID = 0 ∨ (s.pending id).any (fun e => e.recoveryPending ∨
        (e.queueBootID ≠ [] ∧ e.queueBootID ≠ boot)) then pure changed
    else do
      let h ← attempt (ensureKernelHandleLocked env id)
      match h with
      | .error _ => pure changed
      | .ok h => do
        let r ← attempt (kernelCall env (env.bridge.snapshot h))
        match r with
        | .error _ => pure changed
        | .ok [] =>
          if s.kernelPending.contains id then do
            editState fun s => { s with kernelPending := s.kernelPending.erase id }
            pure true
          else pure changed
        | .ok events => do
          editState fun t => t.setPending id (events.map fun e => s.identify id e boot)
          pure true

def snapshotEach (boot : GoString) : Bool → List GoString → Op K Bool
  | changed, [] => pure changed
  | changed, id :: ids => do
    let changed ← snapshotApplication env boot changed id
    snapshotEach boot changed ids

def snapshotKernel : Op K Unit := do
  let sup ← ask World.sup
  if sup.kernel then do
    let r ← attempt (bootIdentity env)
    match r with
    | .error _ => pure ()
    | .ok boot => do
      let s ← getState
      let changed ← snapshotEach env boot false s.applications.keys
      closeKernelHandlesLocked env
      if changed then ignoreError (persistLocked env) else pure ()
  else pure ()

end Aok.Runtime
