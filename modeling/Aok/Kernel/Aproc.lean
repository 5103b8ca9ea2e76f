import Aok.Lib.Table
import Aok.Lib.Trace
import Aok.Kernel.Events

/-!
# Agent processes of the kernel

An aproc is a group of tasks with a life cycle, a resource ledger and a ring of events. Its handles
and its member tasks keep it alive; the last of them frees it. A transition changes the state under
the spinlock and moves the freezer counter afterwards, holding a mutex of the aproc throughout, so
a call is a thread with the part it runs next, and the threads interleave.
-/

namespace Aok.Kernel.Aprocs
open Lib
open Registry (wakeManual wakeOnQuiescent)

def rightSignal : UInt64 := 8
def rightAttach : UInt64 := 16
def rightDestroy : UInt64 := 32
def rightSetPolicy : UInt64 := 64
def rightAccount : UInt64 := 128

def rightsAprocInitial : UInt64 :=
  rightInspect ||| rightDuplicate ||| rightManageChild ||| rightSignal ||| rightAttach |||
    rightDestroy ||| rightSetPolicy ||| rightAccount

def maxTasks : ℕ := 4096
def eventQueueLen : ℕ := 128

inductive AprocState where
  | created
  | running
  | frozen
  | exited
  | failed
  | reaped
deriving DecidableEq

def AprocState.code : AprocState → UInt32
  | .created => 0
  | .running => 1
  | .frozen => 2
  | .exited => 3
  | .failed => 4
  | .reaped => 5

inductive ResState where
  | ok
  | pressure
  | over
deriving DecidableEq

def ResState.code : ResState → UInt32
  | .ok => 0
  | .pressure => 1
  | .over => 2

inductive AprocEvent where
  | taskJoined
  | taskExited
  | state
  | budget
deriving DecidableEq

/-- `struct aok_event_slot`. -/
structure EventSlot where
  aid : ℕ
  taskKoid : ℕ
  eventSeq : UInt64
  kind : AprocEvent
  state : UInt32
deriving DecidableEq

structure Task where
  koid : ℕ
  freeze : Bool
deriving DecidableEq

/-- `struct aok_budget`. -/
structure Budget where
  cpuUsecLimit : UInt64
  memoryBytesLimit : UInt64
  tokenReserve : UInt64
  tokenHardLimit : UInt64
deriving DecidableEq

/-- `struct aok_token_usage`. -/
structure TokenUsage where
  usageId : UInt64
  usageSeq : UInt64
  inputTokens : UInt64
  outputTokens : UInt64
  cachedTokens : UInt64
deriving DecidableEq

/-- `struct aok_aproc`. -/
structure Aproc where
  refs : ℕ
  aid : ℕ
  state : AprocState
  transitionLock : Bool
  resourceFrozen : Bool
  tasks : List Task
  taskTotal : ℕ
  freezeReq : Bool
  rightsCeiling : UInt64
  limits : Budget
  tokensUsed : UInt64
  tokensCached : UInt64
  lastUsageId : UInt64
  lastUsageSeq : UInt64
  resState : ResState
  eventSeq : UInt64
  eventsDropped : UInt64
  events : Vector EventSlot eventQueueLen
  -- every event so far; the ring keeps the last of them
  log : List EventSlot
deriving DecidableEq

def satAdd (a b : UInt64) : UInt64 :=
  let sum := a + b
  if sum < a then maxWord else sum

namespace Aproc

def fresh (aid : ℕ) (ceiling : UInt64) : Aproc where
  refs := 1
  aid := aid
  state := .running
  transitionLock := false
  resourceFrozen := false
  tasks := []
  taskTotal := 0
  freezeReq := false
  rightsCeiling := ceiling
  limits := ⟨maxWord, maxWord, maxWord, maxWord⟩
  tokensUsed := 0
  tokensCached := 0
  lastUsageId := 0
  lastUsageSeq := 0
  resState := .ok
  eventSeq := 0
  eventsDropped := 0
  events := Vector.replicate _ ⟨0, 0, 0, .taskJoined, 0⟩
  log := []

/-! ## Under the spinlock -/

/-- `aok_emit_locked`. -/
def emit (p : Aproc) (kind : AprocEvent) (taskKoid : ℕ) (state : UInt32) : Aproc :=
  let seq := p.eventSeq + 1
  let slot := ⟨p.aid, taskKoid, seq, kind, state⟩
  { p with
    eventSeq := seq
    eventsDropped := if 128 < seq then p.eventsDropped + 1 else p.eventsDropped
    events := p.events.set ((seq - 1).toNat % eventQueueLen) slot (Nat.mod_lt _ (by decide))
    log := p.log ++ [slot] }

/-- `aok_res_eval_locked`. -/
def resEval (p : Aproc) : Aproc :=
  let limit := p.limits.tokenHardLimit
  let state : ResState :=
    if limit = maxWord then .ok
    else if limit ≤ p.tokensUsed then .over
    else if limit - limit / 5 ≤ p.tokensUsed then .pressure
    else .ok
  if state = p.resState then p else emit { p with resState := state } .budget 0 state.code

def isAlive (p : Aproc) : Bool := p.state = .running || p.state = .frozen

/-- The part of `aok_join_locked` after its checks. A late member inherits the freeze. -/
def enlist (p : Aproc) (koid : ℕ) : Aproc :=
  emit { p with
    tasks := p.tasks ++ [⟨koid, p.freezeReq⟩]
    taskTotal := p.taskTotal + 1
    refs := p.refs + 1 } .taskJoined koid p.state.code

/-- The part of `aok_task_exit` under the lock. -/
def exit (p : Aproc) (koid : ℕ) : Aproc :=
  let tasks := p.tasks.eraseP fun x => x.koid == koid
  let state := if tasks = [] ∧ p.state = .running then .exited else p.state
  emit { p with tasks := tasks, state := state } .taskExited koid state.code

/-- The part of `aok_transition_aproc` under the lock. A transition that takes place answers
whether the aproc was frozen. -/
def transition (p : Aproc) (state : AprocState) (automatic resource : Bool) :
    Except Errno (Option Bool) × Aproc :=
  let wasFrozen := p.state = .frozen
  if state = .frozen ∧ wasFrozen then
    (.ok none, { p with resourceFrozen := p.resourceFrozen || resource })
  else if state = .failed ∧ p.state = .failed then (.ok none, p)
  else if (state = .frozen ∧ p.state ≠ .running) ∨ (state = .running ∧ ¬ wasFrozen) ∨
      p.state = .reaped then
    (.error .einval, p)
  else if automatic = true ∧ p.resourceFrozen = true then (.error .eagain, p)
  else
    (.ok (some wasFrozen), emit { p with
      state := state
      freezeReq := state = .frozen
      resourceFrozen := resource
      tasks := p.tasks.map fun x => { x with freeze := state = .frozen } } .state 0 state.code)

/-- The part of `aok_aproc_reap` under the lock. -/
def reap (p : Aproc) : Except Errno Unit × Aproc :=
  match p.state with
  | .exited | .failed =>
    (.ok (), emit { p with state := .reaped } .state 0 AprocState.reaped.code)
  | .reaped => (.ok (), p)
  | _ => (.error .ebusy, p)

/-- The part of `aok_budget_set` under the lock: a limit can only get narrower. -/
def setBudget (p : Aproc) (b : Budget) : Except Errno Unit × Aproc :=
  if p.isAlive = false then (.error .einval, p)
  else if p.limits.cpuUsecLimit < b.cpuUsecLimit ∨
      p.limits.memoryBytesLimit < b.memoryBytesLimit ∨
      p.limits.tokenReserve < b.tokenReserve ∨ p.limits.tokenHardLimit < b.tokenHardLimit then
    (.error .eperm, p)
  else (.ok (), resEval { p with limits := b })

/-- The part of `aok_token_usage` under the lock. It answers whether the settled total is over the
hard limit. -/
def report (p : Aproc) (u : TokenUsage) : Except Errno Bool × Aproc :=
  if p.isAlive = false then (.error .einval, p)
  else if u.usageId = p.lastUsageId then (.ok false, p)
  else if u.usageSeq ≤ p.lastUsageSeq then (.error .einval, p)
  else
    let settled := satAdd p.tokensUsed (satAdd u.inputTokens u.outputTokens)
    (.ok (p.limits.tokenHardLimit ≠ maxWord ∧ p.limits.tokenHardLimit < settled), resEval { p with
      tokensUsed := settled
      tokensCached := satAdd p.tokensCached u.cachedTokens
      lastUsageId := u.usageId
      lastUsageSeq := u.usageSeq })

/-- `aok_budget_get` finds the observed values at a limit. -/
def isOver (p : Aproc) (cpuUsec bytes : UInt64) : Bool :=
  (p.limits.cpuUsecLimit ≠ maxWord && p.limits.cpuUsecLimit ≤ cpuUsec) ||
    (p.limits.memoryBytesLimit ≠ maxWord && p.limits.memoryBytesLimit ≤ bytes)

end Aproc

/-! ## Threads -/

/-- What calls `aok_transition_aproc`: the three calls on a handle, `aok_force_freeze` after a usage
report and after a snapshot of the budget, and the work of an event source. -/
inductive Cause where
  | freeze
  | resume
  | abort
  | usage
  | observed
  | wake
deriving DecidableEq

namespace Cause

def state : Cause → AprocState
  | .freeze | .usage | .observed => .frozen
  | .resume | .wake => .running
  | .abort => .failed

def automatic : Cause → Bool
  | .wake => true
  | _ => false

def resource : Cause → Bool
  | .usage | .observed => true
  | _ => false

def answer : Cause → Except Errno Unit → Except Errno ℕ
  | .usage, _ => .error .edquot
  | .observed, _ | .wake, _ => .ok 0
  | _, .ok () => .ok 0
  | _, .error e => .error e

end Cause

/-- The parts of `aok_transition_aproc`: before the mutex, before the spinlock, and then each of the
side effects up to the release of the mutex. -/
inductive Stage where
  | waiting
  | locked
  | entering (wasFrozen : Bool)
  | signalling (wasFrozen : Bool)
  | leaving
  | unlocking (ret : Except Errno Unit)

/-- A call under way. It keeps its file open; a task that left its aproc still has a reference. -/
inductive Thread where
  | creating (file : ℕ)
  | publishing (file : ℕ)
  | spawning (file : ℕ)
  | moving (file : ℕ) (cause : Cause) (stage : Stage)
  | exited (aid : ℕ)

def Thread.file : Thread → Option ℕ
  | .creating f | .publishing f | .spawning f | .moving f _ _ => some f
  | .exited _ => none

def Thread.inTransition : Thread → Bool
  | .moving _ _ .waiting => false
  | .moving _ _ _ => true
  | _ => false

/-- An open file of an aproc, with the number of its descriptors. -/
structure Handle where
  aid : ℕ
  rights : UInt64
  fds : ℕ
deriving DecidableEq

structure Binding where
  wakeTarget : Option ℕ
  wakePolicy : UInt64
deriving DecidableEq

structure Machine where
  nextAid : ℕ
  nextKoid : ℕ
  nextFile : ℕ
  nextThread : ℕ
  aprocs : Table ℕ Aproc
  handles : Table ℕ Handle
  bindings : Table ℕ Binding
  threads : Table ℕ Thread
  frozenAprocs : ℤ
  -- how often the counter holds the static key of the freezer
  freezerActive : ℤ

inductive Op where
  | create (parent : Option ℕ)
  | spawn (fd : ℕ)
  | attach (fd : ℕ) (refused : Option Errno)
  | fork (aid koid : ℕ)
  | exit (aid koid : ℕ)
  | duplicate (fd : ℕ) (rights : UInt64)
  | dup (fd : ℕ)
  | close (fd : ℕ)
  | release (file : ℕ)
  | freeze (fd : ℕ)
  | resume (fd : ℕ)
  | abort (fd : ℕ)
  | reap (fd : ℕ)
  | setBudget (fd : ℕ) (b : Budget)
  | getBudget (fd : ℕ) (cpuUsec bytes : UInt64)
  | tokenUsage (fd : ℕ) (u : TokenUsage)
  | bind (source : ℕ) (target : Option ℕ) (policy : UInt64) (refused : Option Errno)
  | drop (source : ℕ)
  | wake (source : ℕ) (pending : Bool)
  | run (thread : ℕ) (ok : Bool)
deriving DecidableEq

abbrev Reply := Option (Except Errno ℕ)

namespace Machine

def boot : Machine := ⟨0, 0, 0, 0, ∅, ∅, ∅, ∅, 0, 0⟩

def setAproc (k : Machine) (a : ℕ) (p : Aproc) : Machine := { k with aprocs := k.aprocs.insert a p }

def setThread (k : Machine) (t : ℕ) (x : Thread) : Machine :=
  { k with threads := k.threads.insert t x }

def endThread (k : Machine) (t : ℕ) : Machine := { k with threads := k.threads.erase t }

def start (k : Machine) (x : Thread) : Machine :=
  { k.setThread k.nextThread x with nextThread := k.nextThread + 1 }

def setHandle (k : Machine) (f : ℕ) (h : Handle) : Machine :=
  { k with handles := k.handles.insert f h }

def openHandle (k : Machine) (h : Handle) : Machine :=
  { k.setHandle k.nextFile h with nextFile := k.nextFile + 1 }

def target (k : Machine) (f : ℕ) : Option (ℕ × Aproc) :=
  match k.handles[f]? with
  | none => none
  | some h => (k.aprocs[h.aid]?).map fun p => (h.aid, p)

def lookup (k : Machine) (f : ℕ) (right : UInt64) : Except Errno (Handle × Aproc) :=
  match k.handles[f]? with
  | none => .error .ebadf
  | some h =>
    if h.fds = 0 then .error .ebadf
    else if h.rights &&& right = 0 then .error .eacces
    else
      match k.aprocs[h.aid]? with
      | none => .error .ebadf
      | some p => .ok (h, p)

/-- `aok_alloc_id`. -/
def allocId (next : ℕ) : Option ℕ := if next = 2 ^ 63 - 1 then none else some (next + 1)

/-- `aok_freezer_enter`. -/
def freezerEnter (k : Machine) : Machine :=
  { k with
    frozenAprocs := k.frozenAprocs + 1
    freezerActive := if k.frozenAprocs + 1 = 1 then k.freezerActive + 1 else k.freezerActive }

/-- `aok_freezer_leave`. -/
def freezerLeave (k : Machine) : Machine :=
  { k with
    frozenAprocs := k.frozenAprocs - 1
    freezerActive := if k.frozenAprocs - 1 = 0 then k.freezerActive - 1 else k.freezerActive }

/-! ## References -/

def put (k : Machine) (a : ℕ) : Machine :=
  match k.aprocs[a]? with
  | none => k
  | some p =>
    if p.refs = 1 then { k with aprocs := k.aprocs.erase a }
    else k.setAproc a { p with refs := p.refs - 1 }

def isHeld (k : Machine) (f : ℕ) (h : Handle) : Bool :=
  h.fds ≠ 0 || k.threads.toList.any (fun x => x.2.file = some f) ||
    k.bindings.toList.any (fun x => x.2.wakeTarget = some f)

/-- `aok_aproc_release`. -/
def release (k : Machine) (f : ℕ) : Reply × Machine :=
  match k.handles[f]? with
  | none => (none, k)
  | some h =>
    if k.isHeld f h = true then (none, k)
    else (none, { k.put h.aid with handles := k.handles.erase f })

/-- `aok_handle_duplicate`. -/
def duplicate (k : Machine) (fd : ℕ) (rights : UInt64) : Reply × Machine :=
  match k.lookup fd rightDuplicate with
  | .error e => (some (.error e), k)
  | .ok (h, p) =>
    if rights &&& ~~~ h.rights ≠ 0 then (some (.error .eacces), k)
    else (some (.ok k.nextFile),
      (k.setAproc h.aid { p with refs := p.refs + 1 }).openHandle ⟨h.aid, rights, 1⟩)

def setFds (k : Machine) (fd : ℕ) (f : ℕ → ℕ) : Reply × Machine :=
  match k.handles[fd]? with
  | none => (some (.error .ebadf), k)
  | some h =>
    if h.fds = 0 then (some (.error .ebadf), k)
    else (some (.ok 0), k.setHandle fd { h with fds := f h.fds })

/-! ## Members -/

/-- `aok_join_locked`. -/
def join (k : Machine) (a : ℕ) (p : Aproc) : Except Errno Machine :=
  if maxTasks ≤ p.tasks.length then .error .ebusy
  else if p.isAlive = false then .error .einval
  else
    match allocId k.nextKoid with
    | none => .error .eoverflow
    | some koid => .ok { k.setAproc a (p.enlist koid) with nextKoid := koid }

/-- `aok_parent_ceiling`; without a parent it is the root capability. -/
def parentCeiling (k : Machine) : Option ℕ → Except Errno UInt64
  | none => .ok rightsAprocInitial
  | some fd =>
    match k.lookup fd rightManageChild with
    | .error e => .error e
    | .ok (h, p) =>
      if p.state ≠ .running then .error .einval else .ok (rightsAprocInitial &&& h.rights)

/-- `aok_aproc_create` up to the first task. The file has no descriptor yet. -/
def create (k : Machine) (parent : Option ℕ) : Reply × Machine :=
  match k.parentCeiling parent with
  | .error e => (some (.error e), k)
  | .ok ceiling =>
    match allocId k.nextAid with
    | none => (some (.error .eoverflow), k)
    | some aid =>
      let k' := { k.setAproc aid (.fresh aid ceiling) with nextAid := aid }
      (none, (k'.openHandle ⟨aid, ceiling, 0⟩).start (.creating k.nextFile))

/-- The clone of `aok_aproc_create`: the first task joins. -/
def cloneFirst (k : Machine) (t f : ℕ) (ok : Bool) : Reply × Machine :=
  if ok = false then (some (.error .eagain), k.endThread t)
  else
    match k.target f with
    | none => (none, k)
    | some (a, p) =>
      match k.join a p with
      | .error e => (some (.error e), k.endThread t)
      | .ok k => (none, k.setThread t (.publishing f))

/-- The rest of `aok_aproc_create`: the descriptor is installed, or a failed copyout kills the first
task and gives the file back. -/
def publish (k : Machine) (t f : ℕ) (ok : Bool) : Reply × Machine :=
  match k.handles[f]? with
  | none => (none, k)
  | some h =>
    if ok = false then (some (.error .efault), k.endThread t)
    else (some (.ok f), (k.setHandle f { h with fds := 1 }).endThread t)

/-- `aok_aproc_spawn` up to the clone. -/
def spawn (k : Machine) (fd : ℕ) : Reply × Machine :=
  match k.lookup fd rightManageChild with
  | .error e => (some (.error e), k)
  | .ok (_, p) =>
    if p.state ≠ .running then (some (.error .einval), k) else (none, k.start (.spawning fd))

/-- The clone of `aok_aproc_spawn`. -/
def cloneMore (k : Machine) (t f : ℕ) (ok : Bool) : Reply × Machine :=
  if ok = false then (some (.error .eagain), k.endThread t)
  else
    match k.target f with
    | none => (none, k)
    | some (a, p) =>
      match k.join a p with
      | .error e => (some (.error e), k.endThread t)
      | .ok k => (some (.ok 0), k.endThread t)

/-- `aok_aproc_attach` of a task outside. What the checks of the task answer is given. -/
def attach (k : Machine) (fd : ℕ) (refused : Option Errno) : Reply × Machine :=
  match k.lookup fd rightAttach with
  | .error e => (some (.error e), k)
  | .ok (h, p) =>
    match refused with
    | some e => (some (.error e), k)
    | none =>
      match k.join h.aid p with
      | .error e => (some (.error e), k)
      | .ok k => (some (.ok 0), k)

/-- `aok_fork_child` of a member: the child inherits the membership. -/
def fork (k : Machine) (a koid : ℕ) : Reply × Machine :=
  match k.aprocs[a]? with
  | none => (none, k)
  | some p =>
    if p.tasks.any (fun x => x.koid == koid) = false then (none, k)
    else
      match k.join a p with
      | .error e => (some (.error e), k)
      | .ok k => (some (.ok 0), k)

/-- `aok_task_exit` up to its reference. -/
def exit (k : Machine) (a koid : ℕ) : Reply × Machine :=
  match k.aprocs[a]? with
  | none => (none, k)
  | some p =>
    if p.tasks.any (fun x => x.koid == koid) = false then (none, k)
    else (none, (k.setAproc a (p.exit koid)).start (.exited a))

/-! ## Calls on a handle -/

/-- `aok_transition_fd`. -/
def transitionFd (k : Machine) (fd : ℕ) (cause : Cause) : Reply × Machine :=
  match k.lookup fd rightSignal with
  | .error e => (some (.error e), k)
  | .ok _ => (none, k.start (.moving fd cause .waiting))

/-- `aok_aproc_reap`. -/
def reap (k : Machine) (fd : ℕ) : Reply × Machine :=
  match k.lookup fd rightDestroy with
  | .error e => (some (.error e), k)
  | .ok (h, p) =>
    match p.reap with
    | (.error e, p) => (some (.error e), k.setAproc h.aid p)
    | (.ok (), p) => (some (.ok 0), k.setAproc h.aid p)

/-- `aok_budget_set`. -/
def setBudget (k : Machine) (fd : ℕ) (b : Budget) : Reply × Machine :=
  if b.tokenHardLimit < b.tokenReserve then (some (.error .einval), k)
  else
    match k.lookup fd rightSetPolicy with
    | .error e => (some (.error e), k)
    | .ok (h, p) =>
      match p.setBudget b with
      | (.error e, p) => (some (.error e), k.setAproc h.aid p)
      | (.ok (), p) => (some (.ok 0), k.setAproc h.aid p)

/-- `aok_budget_get` with the values it observes. At a limit it freezes before it answers. -/
def getBudget (k : Machine) (fd : ℕ) (cpuUsec bytes : UInt64) : Reply × Machine :=
  match k.lookup fd rightInspect with
  | .error e => (some (.error e), k)
  | .ok (_, p) =>
    if p.isOver cpuUsec bytes = true then (none, k.start (.moving fd .observed .waiting))
    else (some (.ok 0), k)

/-- `aok_token_usage`. Over the hard limit it freezes before it answers. -/
def tokenUsage (k : Machine) (fd : ℕ) (u : TokenUsage) : Reply × Machine :=
  if u.usageId = 0 ∨ u.usageSeq = 0 then (some (.error .einval), k)
  else
    match k.lookup fd rightAccount with
    | .error e => (some (.error e), k)
    | .ok (h, p) =>
      match p.report u with
      | (.error e, p) => (some (.error e), k.setAproc h.aid p)
      | (.ok false, p) => (some (.ok 0), k.setAproc h.aid p)
      | (.ok true, p) => (none, (k.setAproc h.aid p).start (.moving fd .usage .waiting))

/-! ## Event sources -/

/-- `aok_source_bind`. What the queues of the source refuse is given, see `Registry.bindSource`. -/
def bind (k : Machine) (source : ℕ) (target : Option ℕ) (policy : UInt64)
    (refused : Option Errno) : Reply × Machine :=
  if wakeOnQuiescent < policy then (some (.error .einval), k)
  else
    match target.map (k.lookup · rightSignal), refused with
    | some (.error e), _ => (some (.error e), k)
    | _, some e => (some (.error e), k)
    | _, none => (some (.ok 0), { k with bindings := k.bindings.insert source ⟨target, policy⟩ })

/-- `aok_source_wake_work`. The binding keeps the target open while the work runs. -/
def wake (k : Machine) (source : ℕ) (pending : Bool) : Reply × Machine :=
  match k.bindings[source]? with
  | none => (none, k)
  | some b =>
    if b.wakePolicy = wakeManual ∨ pending = false then (none, k)
    else
      match b.wakeTarget with
      | none => (none, k)
      | some f => (none, k.start (.moving f .wake .waiting))

/-! ## Steps of a thread -/

/-- The next part of `aok_transition_aproc`. -/
def move (k : Machine) (t f a : ℕ) (p : Aproc) (cause : Cause) (ok : Bool) :
    Stage → Reply × Machine
  | .waiting =>
    if p.transitionLock = true then (none, k)
    else (none, (k.setAproc a { p with transitionLock := true }).setThread t
      (.moving f cause .locked))
  | .locked =>
    if ok = false then (none, k.setThread t (.moving f cause (.unlocking (.error .enomem))))
    else
      match p.transition cause.state cause.automatic cause.resource with
      | (.error e, p) =>
        (none, (k.setAproc a p).setThread t (.moving f cause (.unlocking (.error e))))
      | (.ok none, p) =>
        (none, (k.setAproc a p).setThread t (.moving f cause (.unlocking (.ok ()))))
      | (.ok (some wasFrozen), p) =>
        (none, (k.setAproc a p).setThread t (.moving f cause
          (if cause.state = .frozen then .entering wasFrozen else .signalling wasFrozen)))
  | .entering wasFrozen =>
    (none, k.freezerEnter.setThread t (.moving f cause (.signalling wasFrozen)))
  | .signalling wasFrozen =>
    (none, k.setThread t (.moving f cause
      (if wasFrozen = true then .leaving else .unlocking (.ok ()))))
  | .leaving => (none, k.freezerLeave.setThread t (.moving f cause (.unlocking (.ok ()))))
  | .unlocking ret =>
    (some (cause.answer ret), (k.setAproc a { p with transitionLock := false }).endThread t)

/-- The thread runs its next part; `ok` is what an allocation or a clone answers. -/
def advance (k : Machine) (t : ℕ) (ok : Bool) : Reply × Machine :=
  match k.threads[t]? with
  | none => (none, k)
  | some (.creating f) => k.cloneFirst t f ok
  | some (.publishing f) => k.publish t f ok
  | some (.spawning f) => k.cloneMore t f ok
  | some (.exited a) => (none, (k.put a).endThread t)
  | some (.moving f cause stage) =>
    match k.target f with
    | none => (none, k)
    | some (a, p) => k.move t f a p cause ok stage

def step (k : Machine) : Op → Reply × Machine
  | .create parent => k.create parent
  | .spawn fd => k.spawn fd
  | .attach fd refused => k.attach fd refused
  | .fork a koid => k.fork a koid
  | .exit a koid => k.exit a koid
  | .duplicate fd rights => k.duplicate fd rights
  | .dup fd => k.setFds fd (· + 1)
  | .close fd => k.setFds fd (· - 1)
  | .release file => k.release file
  | .freeze fd => k.transitionFd fd .freeze
  | .resume fd => k.transitionFd fd .resume
  | .abort fd => k.transitionFd fd .abort
  | .reap fd => k.reap fd
  | .setBudget fd b => k.setBudget fd b
  | .getBudget fd cpuUsec bytes => k.getBudget fd cpuUsec bytes
  | .tokenUsage fd u => k.tokenUsage fd u
  | .bind source target policy refused => k.bind source target policy refused
  | .drop source => (none, { k with bindings := k.bindings.erase source })
  | .wake source pending => k.wake source pending
  | .run t ok => k.advance t ok

def isSettled (k : Machine) : Bool := k.threads.toList.all fun x => !x.2.inTransition

def next (k : Machine) (op : Op) : Machine := (k.step op).2

def after (ops : List Op) : Machine := Trace.run next boot ops

end Machine

end Aok.Kernel.Aprocs
