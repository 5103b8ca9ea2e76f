import Aok.Lib.SlotQueue
import Aok.Kernel.Infer

/-!
# Event sources and application queues of the kernel

An application has a queue of events that are not acknowledged yet; the sources attached to it
fire into it, and a source that is not attached has a small queue of its own. A timer that expires
on a full queue is only counted, and the count becomes one record when a slot is freed. Every
operation runs under the lock of the queue.
-/

namespace Aok.Kernel
open Lib

def rightInspect : UInt64 := 1
def rightDuplicate : UInt64 := 2
def rightRead : UInt64 := 256
def rightWrite : UInt64 := 512

def appQueueDepth : ℕ := 128
def eventSourceDepth : ℕ := 64

inductive EventKind where
  | timer
  | port
  | lsfs
deriving DecidableEq

def EventKind.code : EventKind → UInt32
  | .timer => 1
  | .port => 2
  | .lsfs => 3

/-- `struct aok_app_node` without its links. -/
structure EventNode where
  eventId : UInt64
  eventSeq : UInt64
  sourceKoid : UInt64
  kind : UInt32
  coalesced : UInt32
  data : UInt64
  -- tells the record from all others of its queue
  ticket : ℕ
deriving DecidableEq

/-! ## Records -/

/-- `struct aok_event_record`. -/
structure EventRecord where
  size : UInt64
  sourceKoid : UInt64
  applicationId : UInt64
  eventId : UInt64
  eventSeq : UInt64
  kind : UInt32
  coalesced : UInt32
  data : UInt64
  reserved0 : UInt64
  reserved1 : UInt64
deriving DecidableEq

def recordSize : UInt64 := 72

def EventNode.record (n : EventNode) (applicationId : UInt64) : EventRecord :=
  ⟨recordSize, n.sourceKoid, applicationId, n.eventId, n.eventSeq, n.kind, n.coalesced, n.data,
    0, 0⟩

def EventRecord.node (r : EventRecord) (ticket : ℕ) : EventNode :=
  ⟨r.eventId, r.eventSeq, r.sourceKoid, r.kind, r.coalesced, r.data, ticket⟩

def EventRecord.fits (r : EventRecord) (applicationId : UInt64) : Bool :=
  r.size == recordSize && r.applicationId == applicationId &&
    r.kind != 0 && r.kind ≤ EventKind.lsfs.code && r.eventId != 0 && r.eventId != maxWord &&
    r.eventSeq != 0 && r.eventSeq != maxWord && r.reserved0 == 0 && r.reserved1 == 0

def EventRecord.before (r r' : EventRecord) : Bool :=
  r.eventId < r'.eventId && r.eventSeq < r'.eventSeq

def checkRecords (applicationId : UInt64) : Option EventRecord → List EventRecord → Bool
  | _, [] => true
  | last, r :: rest => r.fits applicationId && last.all (·.before r) &&
      checkRecords applicationId (some r) rest

/-! ## Queues -/

inductive QueueEvent where
  | posted (n : EventNode)
  | expired (n : EventNode)
  | merged
  | flushed (n : EventNode)
  | restored (n : EventNode)
  | acked (n : EventNode)
deriving DecidableEq

structure EventQueue (depth : ℕ) where
  eventSeq : UInt64
  eventId : UInt64
  coalesced : UInt64
  slots : SlotQueue EventNode depth
  -- what happened to the queue so far
  log : List QueueEvent

namespace EventQueue

variable {depth : ℕ}

def initial : EventQueue depth := ⟨0, 0, 0, .empty ⟨0, 0, 0, 0, 0, 0, 0⟩, []⟩

def view (q : EventQueue depth) : List EventNode := q.slots.view

def issue (q : EventQueue depth) (sourceKoid : UInt64) (kind coalesced : UInt32) (data : UInt64)
    (event : EventNode → QueueEvent) : Option (EventQueue depth) :=
  let node := ⟨q.eventId + 1, q.eventSeq + 1, sourceKoid, kind, coalesced, data, q.log.length⟩
  (q.slots.push node).map fun slots =>
    ⟨q.eventSeq + 1, q.eventId + 1, q.coalesced, slots, q.log ++ [event node]⟩

/-- `aok_app_fire_locked` and `aok_source_fire_locked`. -/
def fire (q : EventQueue depth) (kind : EventKind) (data sourceKoid : UInt64) : EventQueue depth :=
  if depth ≤ q.slots.live then
    { q with coalesced := q.coalesced + 1, log := q.log ++ [.merged] }
  else
    (q.issue sourceKoid kind.code 1 data (if kind = .timer then .expired else .posted)).getD q

/-- `aok_app_flush_locked` and `aok_source_flush_locked`. -/
def flush (q : EventQueue depth) : EventQueue depth :=
  if q.coalesced = 0 ∨ depth ≤ q.slots.live then q
  else
    match q.issue 0 EventKind.timer.code q.coalesced.toUInt32 0 .flushed with
    | none => q
    | some q => { q with coalesced := 0 }

/-- The loop of the acknowledgements: the first record with the id leaves the queue. -/
def unlink (q : EventQueue depth) (eventId : UInt64) : Option (EventQueue depth) :=
  (q.slots.remove fun n => n.eventId == eventId).map fun r =>
    { q with slots := r.2, log := q.log ++ [.acked r.1] }

/-- The part of `aok_event_ack` under the lock. -/
def ackLocked (q : EventQueue depth) (eventId : UInt64) : Except Errno Unit × EventQueue depth :=
  if q.eventId < eventId then (.error .einval, q)
  else
    match q.unlink eventId with
    | none => (.ok (), q)
    | some q => (.ok (), q.flush)

/-- `aok_app_ack_locked`: that merged expiries wait is reported. -/
def appAckLocked (q : EventQueue depth) (eventId : UInt64) :
    Except Errno Unit × EventQueue depth :=
  if q.eventId < eventId then (.error .einval, q)
  else
    match q.unlink eventId with
    | none => (.ok (), q)
    | some q => (if q.coalesced = 0 then .ok () else .error .eagain, q)

/-- The part of `aok_app_ioctl` under the lock. -/
def appAck (q : EventQueue depth) (eventId : UInt64) : Except Errno Unit × EventQueue depth :=
  match q.appAckLocked eventId with
  | (.error .eagain, q) => (.ok (), q.flush)
  | r => r

def next (q : EventQueue depth) (readSeq : UInt64) : Option EventNode :=
  q.view.find? fun n => readSeq < n.eventSeq

def raise (old last : UInt64) : UInt64 := if old < last then last else old

/-- The part of `aok_application_restore` that refills the queue under the lock. -/
def refill (q : EventQueue depth) (records : List EventRecord) : EventQueue depth :=
  let nodes := records.mapIdx fun j r => r.node (q.log.length + j)
  { q with
    slots := q.slots.fill nodes
    eventId := raise q.eventId ((records.getLast?).elim 0 EventRecord.eventId)
    eventSeq := raise q.eventSeq ((records.getLast?).elim 0 EventRecord.eventSeq)
    log := q.log ++ nodes.map .restored }

end EventQueue

/-! ## Objects -/

/-- `struct aok_application`. -/
structure Application where
  koid : UInt64
  applicationId : UInt64
  queue : EventQueue appQueueDepth

/-- `struct aok_event_source`. -/
structure Source where
  koid : UInt64
  kind : EventKind
  applicationId : UInt64
  app : Option ℕ
  queue : EventQueue eventSourceDepth

inductive EventFile where
  | app (a : ℕ) (rights readSeq : UInt64)
  | source (s : ℕ) (rights readSeq : UInt64) (cursorApp : Option ℕ)
deriving DecidableEq

def EventFile.rights : EventFile → UInt64
  | .app _ rights _ | .source _ rights _ _ => rights

def EventFile.again (rights : UInt64) : EventFile → EventFile
  | .app a _ _ => .app a rights 0
  | .source s _ _ _ => .source s rights 0 none

structure Registry where
  apps : List Application
  sources : List Source
  files : List (Option EventFile)

inductive EventOutput where
  | done
  | fd (n : ℕ)
  | nothing
  | record (r : EventRecord)
  | records (filled : ℕ) (copied : List EventRecord)
deriving DecidableEq

abbrev EventReply := Except Errno EventOutput

namespace Registry

def initial : Registry := ⟨[], [], []⟩

def file (k : Registry) (fd : ℕ) : Option EventFile := (k.files[fd]?).join

def setQueue (k : Registry) (a : ℕ) (q : EventQueue appQueueDepth) : Registry :=
  { k with apps := k.apps.modify a fun x => { x with queue := q } }

def setVolatile (k : Registry) (s : ℕ) (q : EventQueue eventSourceDepth) : Registry :=
  { k with sources := k.sources.modify s fun x => { x with queue := q } }

def install (k : Registry) (f : EventFile) : Registry := { k with files := k.files ++ [some f] }

/-! ## Sources -/

/-- `aok_source_deliver_locked`. -/
def deliver (k : Registry) (s : ℕ) (x : Source) (data : UInt64) : Registry :=
  match x.app with
  | some a =>
    match k.apps[a]? with
    | some y => k.setQueue a (y.queue.fire x.kind data x.koid)
    | none => k
  | none => k.setVolatile s (x.queue.fire x.kind data x.koid)

def isFull (k : Registry) (x : Source) : Bool :=
  match x.app with
  | some a => (k.apps[a]?).any fun y => y.queue.slots.live == appQueueDepth
  | none => x.queue.slots.live == eventSourceDepth

/-- `AOK_EVENT_POST`. -/
def post (k : Registry) (s : ℕ) (x : Source) (arg : UInt64) : EventReply × Registry :=
  if x.kind = .timer ∨ x.kind = .port ∧ arg ≠ 0 then (.error .einval, k)
  else if k.isFull x then (.error .eagain, k)
  else (.ok .done, k.deliver s x arg)

/-- `aok_source_attach`; without an application it detaches. -/
def attachSource (k : Registry) (s : ℕ) (x : Source) (app : Option ℕ) (applicationId : UInt64) :
    EventReply × Registry :=
  if app = none ∧ applicationId ≠ 0 then (.error .einval, k)
  else if x.queue.slots.live ≠ 0 ∨ x.queue.coalesced ≠ 0 then (.error .ebusy, k)
  else (.ok .done, { k with sources := k.sources.modify s fun x => { x with
    app := app, applicationId := if app = none then 0 else applicationId } })

/-- The argument of `AOK_EVENT_ATTACH_APP`. -/
structure AttachArg where
  applicationId : UInt64
  appFd : Option ℕ
  reserved : UInt32
deriving DecidableEq

/-- `AOK_EVENT_ATTACH_APP`. -/
def attach (k : Registry) (s : ℕ) (x : Source) : Option AttachArg → EventReply × Registry
  | none => (.error .efault, k)
  | some arg =>
    if arg.reserved ≠ 0 then (.error .einval, k)
    else
      match arg.appFd with
      | none =>
        if arg.applicationId ≠ 0 then (.error .einval, k) else k.attachSource s x none 0
      | some fd =>
        match k.file fd with
        | none => (.error .ebadf, k)
        | some (.source _ _ _ _) => (.error .einval, k)
        | some (.app a rights _) =>
          if rights &&& (rightRead ||| rightWrite) ≠ rightRead ||| rightWrite then
            (.error .eacces, k)
          else if (k.apps[a]?).any (fun y => y.applicationId != arg.applicationId) then
            (.error .einval, k)
          else k.attachSource s x (some a) arg.applicationId

def isBusy (k : Registry) (x : Source) : Bool :=
  match x.app with
  | some a => (k.apps[a]?).any fun y => y.queue.slots.live != 0 || y.queue.coalesced != 0
  | none => x.queue.slots.live != 0 || x.queue.coalesced != 0

def wakeManual : UInt64 := 0
def wakeOnQuiescent : UInt64 := 2

/-- `aok_source_bind`: the label of the source. The wake target and the policy are not kept. -/
def bindSource (k : Registry) (s : ℕ) (x : Source) (applicationId policy : UInt64)
    (target : Bool) : EventReply × Registry :=
  if x.app.any (fun a => (k.apps[a]?).any fun y => y.applicationId != applicationId) then
    (.error .einval, k)
  else if k.isBusy x = true ∧
      (target = true ∨ applicationId ≠ x.applicationId ∨ policy ≠ wakeManual) then
    (.error .ebusy, k)
  else (.ok .done, { k with
    sources := k.sources.modify s fun x => { x with applicationId := applicationId } })

/-- The argument of `AOK_EVENT_SET_TARGET`. The process is absent for the descriptor -1, or an
error where its descriptor is refused. -/
structure TargetArg where
  applicationId : UInt64
  aproc : Option (Option Errno)
  policy : UInt64
deriving DecidableEq

/-- `AOK_EVENT_SET_TARGET`. -/
def setTarget (k : Registry) (s : ℕ) (x : Source) : Option TargetArg → EventReply × Registry
  | none => (.error .efault, k)
  | some arg =>
    if wakeOnQuiescent < arg.policy then (.error .einval, k)
    else
      match arg.aproc with
      | none =>
        if arg.policy ≠ wakeManual then (.error .einval, k)
        else k.bindSource s x arg.applicationId arg.policy false
      | some (some e) => (.error e, k)
      | some none => k.bindSource s x arg.applicationId arg.policy true

/-- `aok_event_ack`: an attached source acknowledges in the queue of its application. -/
def ackSource (k : Registry) (s : ℕ) (x : Source) (eventId : UInt64) : EventReply × Registry :=
  match x.app with
  | some a =>
    match k.apps[a]? with
    | some y => ((y.queue.ackLocked eventId).1.map fun _ => .done,
        k.setQueue a (y.queue.ackLocked eventId).2)
    | none => (.error .ebadf, k)
  | none => ((x.queue.ackLocked eventId).1.map fun _ => .done,
      k.setVolatile s (x.queue.ackLocked eventId).2)

def nextRecord (k : Registry) (x : Source) (readSeq : UInt64) : Option EventRecord :=
  match x.app with
  | some a => (k.apps[a]?).bind fun y =>
      (y.queue.next readSeq).map fun n => n.record y.applicationId
  | none => (x.queue.next readSeq).map fun n =>
      { n.record x.applicationId with sourceKoid := x.koid, kind := x.kind.code }

/-- `aok_event_read`: the cursor starts again when the source was attached elsewhere. -/
def readSource (k : Registry) (fd s : ℕ) (x : Source) (rights readSeq : UInt64)
    (cursorApp : Option ℕ) (room copied : Bool) : EventReply × Registry :=
  if rights &&& rightRead = 0 then (.error .eacces, k)
  else if room = false then (.error .einval, k)
  else
    let readSeq := if cursorApp = x.app then readSeq else 0
    match k.nextRecord x readSeq with
    | none => (.ok .nothing,
        { k with files := k.files.set fd (some (.source s rights readSeq x.app)) })
    | some r => (if copied then .ok (.record r) else .error .efault,
        { k with files := k.files.set fd (some (.source s rights r.eventSeq x.app)) })

/-! ## Applications -/

/-- `aok_app_read`: the cursor moves before the record is copied. -/
def readApp (k : Registry) (fd a : ℕ) (y : Application) (rights readSeq : UInt64)
    (room copied : Bool) : EventReply × Registry :=
  if rights &&& rightRead = 0 then (.error .eacces, k)
  else if room = false then (.error .einval, k)
  else
    match y.queue.next readSeq with
    | none => (.ok .nothing, k)
    | some n => (if copied then .ok (.record (n.record y.applicationId)) else .error .efault,
        { k with files := k.files.set fd (some (.app a rights n.eventSeq)) })

/-- `aok_application_snapshot`. -/
def snapshot (k : Registry) (y : Application) (rights : UInt64) (count : ℕ)
    (memory buffer copied : Bool) : EventReply × Registry :=
  if rights &&& rightInspect = 0 then (.error .eacces, k)
  else if memory = false then (.error .enomem, k)
  else
    let records := y.queue.view.map fun n => n.record y.applicationId
    if buffer = true ∧ records ≠ [] then
      if copied then (.ok (.records records.length (records.take count)), k)
      else (.error .efault, k)
    else (.ok (.records records.length []), k)

/-- `aok_application_restore`, after the file was found. -/
def restore (k : Registry) (a : ℕ) (y : Application) (rights : UInt64)
    (records : List EventRecord) (memory readable : Bool) : EventReply × Registry :=
  if rights &&& rightWrite = 0 then (.error .eacces, k)
  else if records = [] then (.ok .done, k)
  else if memory = false then (.error .enomem, k)
  else if readable = false then (.error .efault, k)
  else if checkRecords y.applicationId none records = false then (.error .einval, k)
  else if y.queue.slots.live ≠ 0 ∨ y.queue.coalesced ≠ 0 then (.error .ebusy, k)
  else (.ok .done, k.setQueue a (y.queue.refill records))

def rightsNew : UInt64 := rightInspect ||| rightDuplicate ||| rightRead ||| rightWrite

/-- `aok_application_create`: the registry keeps an entry even if its file fails. -/
def createApp (k : Registry) (applicationId koid : UInt64) (early late : Option Errno) :
    EventReply × Registry :=
  if applicationId = 0 then (.error .einval, k)
  else
    match early with
    | some e => (.error e, k)
    | none =>
      let found := k.apps.findIdx? fun y => y.applicationId == applicationId
      let a := found.getD k.apps.length
      let k := if found.isSome then k
        else { k with apps := k.apps ++ [⟨koid, applicationId, .initial⟩] }
      match late with
      | some e => (.error e, k)
      | none => (.ok (.fd k.files.length), k.install (.app a rightsNew 0))

/-- `aok_event_source_create`. -/
def createSource (k : Registry) (kind : EventKind) (koid : UInt64) (fault : Option Errno) :
    EventReply × Registry :=
  match fault with
  | some e => (.error e, k)
  | none => (.ok (.fd k.files.length),
      install { k with sources := k.sources ++ [(⟨koid, kind, 0, none, .initial⟩ : Source)] }
        (.source k.sources.length rightsNew 0 none))

/-- `aok_handle_duplicate` of these files. -/
def duplicate (k : Registry) (rights : UInt64) (fault : Option Errno) (f : EventFile) :
    EventReply × Registry :=
  if f.rights &&& rightDuplicate = 0 ∨ rights &&& ~~~ f.rights ≠ 0 then (.error .eacces, k)
  else
    match fault with
    | some e => (.error e, k)
    | none => (.ok (.fd k.files.length), k.install (f.again rights))

def sourceOpen (k : Registry) (s : ℕ) : Bool :=
  k.files.any fun
    | some (.source s' _ _ _) => s' == s
    | _ => false

end Registry

/-! ## Operations -/

inductive EventOp where
  | createApp (applicationId koid : UInt64) (early late : Option Errno)
  | createSource (kind : EventKind) (koid : UInt64) (fault : Option Errno)
  | duplicate (fd : ℕ) (rights : UInt64) (fault : Option Errno)
  | close (fd : ℕ)
  | expire (s : ℕ)
  | post (fd : ℕ) (arg : UInt64)
  | attach (fd : ℕ) (arg : Option Registry.AttachArg)
  | bind (fd : ℕ) (applicationId policy : UInt64)
  | setTarget (fd : ℕ) (arg : Option Registry.TargetArg)
  | ack (fd : ℕ) (eventId : UInt64)
  | appAck (fd : ℕ) (eventId : UInt64)
  | read (fd : ℕ) (room copied : Bool)
  | snapshot (fd : ℕ) (count : ℕ) (memory buffer copied : Bool)
  | restore (fd : ℕ) (records : List EventRecord) (memory readable : Bool)
deriving DecidableEq

def Registry.onSource (k : Registry) (fd : ℕ) (other : Errno)
    (act : ℕ → Source → EventReply × Registry) : EventReply × Registry :=
  match k.file fd with
  | none => (.error .ebadf, k)
  | some (.app _ _ _) => (.error other, k)
  | some (.source s rights _ _) =>
    if rights &&& rightWrite = 0 then (.error .eacces, k)
    else
      match k.sources[s]? with
      | none => (.error .ebadf, k)
      | some x => act s x

def Registry.onApp (k : Registry) (fd : ℕ) (other : Errno)
    (act : ℕ → Application → UInt64 → UInt64 → EventReply × Registry) :
    EventReply × Registry :=
  match k.file fd with
  | none => (.error .ebadf, k)
  | some (.source _ _ _ _) => (.error other, k)
  | some (.app a rights readSeq) =>
    match k.apps[a]? with
    | none => (.error .ebadf, k)
    | some y => act a y rights readSeq

def eventStep (k : Registry) : EventOp → EventReply × Registry
  | .createApp applicationId koid early late => k.createApp applicationId koid early late
  | .createSource kind koid fault => k.createSource kind koid fault
  | .duplicate fd rights fault =>
    match k.file fd with
    | none => (.error .ebadf, k)
    | some f => k.duplicate rights fault f
  | .close fd =>
    match k.file fd with
    | none => (.error .ebadf, k)
    | some _ => (.ok .done, { k with files := k.files.set fd none })
  | .expire s =>
    match k.sources[s]? with
    | none => (.error .ebadf, k)
    | some x =>
      if k.sourceOpen s = true ∧ x.kind = .timer then (.ok .done, k.deliver s x 0)
      else (.error .ebadf, k)
  | .post fd arg => k.onSource fd .enotty fun s x => k.post s x arg
  | .attach fd arg => k.onSource fd .enotty fun s x => k.attach s x arg
  | .bind fd applicationId policy =>
    if Registry.wakeOnQuiescent < policy then (.error .einval, k)
    else k.onSource fd .einval fun s x => k.bindSource s x applicationId policy false
  | .setTarget fd arg => k.onSource fd .enotty fun s x => k.setTarget s x arg
  | .ack fd eventId => k.onSource fd .einval fun s x => k.ackSource s x eventId
  | .appAck fd eventId => k.onApp fd .enotty fun a y rights _ =>
    if rights &&& rightWrite = 0 then (.error .eacces, k)
    else ((y.queue.appAck eventId).1.map fun _ => .done, k.setQueue a (y.queue.appAck eventId).2)
  | .read fd room copied =>
    match k.file fd with
    | some (.source s rights readSeq cursorApp) =>
      match k.sources[s]? with
      | none => (.error .ebadf, k)
      | some x => k.readSource fd s x rights readSeq cursorApp room copied
    | _ => k.onApp fd .ebadf fun a y rights readSeq =>
      k.readApp fd a y rights readSeq room copied
  | .snapshot fd count memory buffer copied => k.onApp fd .einval fun _ y rights _ =>
    k.snapshot y rights count memory buffer copied
  | .restore fd records memory readable =>
    if appQueueDepth < records.length then (.error .einval, k)
    else k.onApp fd .einval fun a y rights _ => k.restore a y rights records memory readable

def eventRun (k : Registry) (ops : List EventOp) : Registry :=
  ops.foldl (fun k op => (eventStep k op).2) k

end Aok.Kernel
