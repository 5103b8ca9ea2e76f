import Aok.Lib.Forest
import Aok.Lib.Mask

/-!
# The inference device of the kernel

Capabilities form a forest; a session draws on a capability and on all its ancestors. Submitting
a request reserves its tokens along the path, and what ends the request turns the reservation
into a charge. Calls run under one lock; references are dropped outside it, one at a time.
Objects are numbered as they are allocated and stay in their lists when they are freed, with a
mark that they are.
-/

namespace Aok.Kernel
open Lib Lib.Mask

inductive Errno where
  | eacces
  | eagain
  | ebadf
  | ebusy
  | edquot
  | efault
  | einval
  | eloop
  | emfile
  | enomem
  | enotty
  | eoverflow
  | eperm
  | estale
deriving DecidableEq

def maxWord : UInt64 := 0xFFFFFFFFFFFFFFFF

/-! ## Records -/

def rightManageChild : UInt64 := 4

def capInfer : UInt64 := 1
def capExport : UInt64 := 2
def capDelegate : UInt64 := 4
def capRevoke : UInt64 := 8
def capServe : UInt64 := 16
def capAll : UInt64 := 31

def dataMax : ℕ := 512

/-- `struct aok_core_cap`. -/
structure CapPolicy where
  rights : UInt64
  taint : UInt64
  exportMask : UInt64
  tokenLimit : UInt64
deriving DecidableEq

inductive InferState where
  | idle
  | pending
  | running
  | done
  | cancelled
deriving DecidableEq

def InferState.isOpen (state : InferState) : Bool := state == .pending || state == .running

/-- `struct aok_core_io` as the kernel keeps it. -/
structure Io where
  sequence : UInt64
  inputTokens : UInt64
  outputTokens : UInt64
  tokensUsed : UInt64
  taint : UInt64
  state : InferState
  length : UInt32
  data : Vector UInt8 dataMax
deriving DecidableEq

/-- `struct aok_core_io` as a caller passes it. -/
structure Request where
  sequence : UInt64
  inputTokens : UInt64
  outputTokens : UInt64
  tokensUsed : UInt64
  taint : UInt64
  state : UInt32
  length : UInt32
  data : Vector UInt8 dataMax
deriving DecidableEq

def clearTail (length : UInt32) (data : Vector UInt8 dataMax) : Vector UInt8 dataMax :=
  Vector.ofFn fun i => if i.val < length.toNat then data[i] else 0

def Request.toIo (r : Request) (state : InferState) (tokensUsed taint : UInt64) : Io :=
  ⟨r.sequence, r.inputTokens, r.outputTokens, tokensUsed, r.taint ||| taint, state, r.length,
    clearTail r.length r.data⟩

/-! ## Objects -/

/-- `struct aok_core_capability`. -/
structure Capability where
  refs : ℕ
  parent : Option ℕ
  policy : CapPolicy
  used : UInt64
  reserved : UInt64
  depth : ℕ
  revoked : Bool
  freed : Bool
deriving DecidableEq

/-- `struct aok_core_inference`. -/
structure Inference where
  refs : ℕ
  cap : ℕ
  io : Io
  reservation : UInt64
  freed : Bool
deriving DecidableEq

inductive File where
  | cap (c : ℕ)
  | client (i : ℕ)
  | backend (i : ℕ)
deriving DecidableEq

inductive Ref where
  | cap (c : ℕ)
  | session (i : ℕ)
deriving DecidableEq

structure Device where
  caps : List Capability
  sessions : List Inference
  files : List (Option File)
  -- the references that are about to be dropped, outside the lock
  puts : List Ref
  -- the charges that were settled, each with the capability of its session
  settled : List (ℕ × ℕ)
deriving DecidableEq

namespace Device

def initial : Device := ⟨[], [], [], [], []⟩

def parent (k : Device) (c : ℕ) : Option ℕ := (k.caps[c]?).bind Capability.parent

/-- The capabilities a loop over `cap->parent` visits. -/
def path (k : Device) (c : ℕ) : List ℕ := Forest.path k.parent c

def modifyCap (k : Device) (c : ℕ) (f : Capability → Capability) : Device :=
  { k with caps := k.caps.modify c f }

def modifyPath (k : Device) (c : ℕ) (f : Capability → Capability) : Device :=
  { k with caps := k.caps.mapIdx fun i x => if i ∈ k.path c then f x else x }

def modifySession (k : Device) (i : ℕ) (f : Inference → Inference) : Device :=
  { k with sessions := k.sessions.modify i f }

/-! ## Capabilities -/

/-- `aok_core_valid`. -/
def valid (k : Device) (c : ℕ) (rights : UInt64) : Bool :=
  (k.caps[c]?).any (fun x => x.policy.rights &&& rights == rights) &&
    (k.path c).all fun a => (k.caps[a]?).all fun x => !x.revoked

/-- One turn of the loop of `aok_core_cap_put`: with the last reference the capability is freed,
and its reference to the parent goes next. -/
def capPut (k : Device) (c : ℕ) : Device :=
  match k.caps[c]? with
  | none => k
  | some x =>
    if x.refs = 1 then
      { k.modifyCap c fun x => { x with refs := 0, freed := true } with
        puts := k.puts ++ x.parent.toList.map .cap }
    else k.modifyCap c fun x => { x with refs := x.refs - 1 }

def mayDerive (k : Device) (p : ℕ) (policy : CapPolicy) : Except Errno Unit :=
  match k.caps[p]? with
  | none => .error .ebadf
  | some x =>
    if k.valid p capDelegate = false ∨ ¬ Within policy.rights x.policy.rights ∨
        ¬ Within x.policy.taint policy.taint ∨ ¬ Within policy.exportMask x.policy.exportMask ∨
        x.policy.tokenLimit < policy.tokenLimit then .error .eacces
    else if 32 ≤ x.depth then .error .eloop
    else .ok ()

/-- The checks of `aok_core_cap_new` before it allocates. -/
def mayCreate (k : Device) (parent : Option ℕ) : Option CapPolicy → Except Errno CapPolicy
  | none => .error .efault
  | some policy =>
    if ¬ Within policy.rights capAll then .error .einval
    else
      match parent with
      | none => .ok policy
      | some p => (k.mayDerive p policy).map fun _ => policy

/-- What can go wrong when a capability gets its memory and its file. -/
inductive CapFault where
  | memory
  | file (e : Errno)
deriving DecidableEq

def capGet (k : Device) (c : ℕ) : Device := k.modifyCap c fun x => { x with refs := x.refs + 1 }

/-- The new capability with its one reference, and with its reference to the parent. -/
def addCap (k : Device) (parent : Option ℕ) (policy : CapPolicy) : Device :=
  match parent with
  | none => { k with caps := k.caps ++ [⟨1, none, policy, 0, 0, 0, false, false⟩] }
  | some p =>
    let depth := ((k.caps[p]?).map fun x => x.depth + 1).getD 0
    { k.capGet p with
      caps := (k.capGet p).caps ++ [⟨1, some p, policy, 0, 0, depth, false, false⟩] }

def install (k : Device) (f : File) : Device := { k with files := k.files ++ [some f] }

end Device

inductive Output where
  | done
  | fd (n : ℕ)
  | pair (client backend : ℕ)
  | record (io : Io)
deriving DecidableEq

abbrev Reply := Except Errno Output

namespace Device

/-- `aok_core_cap_new`. -/
def capNew (k : Device) (parent : Option ℕ) (arg : Option CapPolicy) (fault : Option CapFault) :
    Reply × Device :=
  match k.mayCreate parent arg with
  | .error e => (.error e, k)
  | .ok policy =>
    match fault with
    | some .memory => (.error .enomem, k)
    | some (.file e) =>
      (.error e, { k.addCap parent policy with puts := k.puts ++ [.cap k.caps.length] })
    | none => (.ok (.fd k.files.length), (k.addCap parent policy).install (.cap k.caps.length))

/-! ## Sessions -/

/-- `aok_core_unreserve`. -/
def unreserve (k : Device) (i : ℕ) (used : UInt64) : Device :=
  match k.sessions[i]? with
  | none => k
  | some s =>
    let k' := k.modifyPath s.cap fun x =>
      { x with reserved := x.reserved - s.reservation, used := x.used + used }
    { k'.modifySession i fun s => { s with reservation := 0 } with
      settled := k.settled ++ [(s.cap, used.toNat)] }

def abandon (k : Device) (i : ℕ) : Device :=
  match k.sessions[i]? with
  | none => k
  | some s =>
    if s.io.state.isOpen then
      (k.unreserve i (if s.io.state = .running then s.reservation else 0)).modifySession i
        fun s => { s with io := { s.io with state := .cancelled } }
    else k

/-- The second half of `aok_core_session_release`. -/
def sessionPut (k : Device) (i : ℕ) : Device :=
  match k.sessions[i]? with
  | none => k
  | some s =>
    if s.refs = 1 then
      { k.modifySession i fun s => { s with refs := 0, freed := true } with
        puts := k.puts ++ [.cap s.cap] }
    else k.modifySession i fun s => { s with refs := s.refs - 1 }

def newSession (c : ℕ) (taint : UInt64) : Inference :=
  ⟨2, c, ⟨0, 0, 0, 0, taint, .idle, 0, Vector.replicate dataMax 0⟩, 0, false⟩

/-- `aok_core_session_new`. What fails after the check leaves nothing behind. -/
def sessionNew (k : Device) (c : ℕ) (fault : Option Errno) : Reply × Device :=
  match k.caps[c]? with
  | none => (.error .ebadf, k)
  | some x =>
    if k.valid c (capInfer ||| capServe) = false then (.error .eacces, k)
    else
      match fault with
      | some e => (.error e, k)
      | none =>
        (.ok (.pair k.files.length (k.files.length + 1)),
          ({ k.capGet c with sessions := k.sessions ++ [newSession c x.policy.taint] }.install
            (.client k.sessions.length)).install (.backend k.sessions.length))

/-- The tokens do not fit at a capability of the path: the subtractions are those of words. -/
def exceeds (k : Device) (c : ℕ) (total : UInt64) : Bool :=
  (k.path c).any fun a => (k.caps[a]?).any fun x =>
    x.policy.tokenLimit - x.used - x.reserved < total

/-- `AOK_CORE_SUBMIT`. -/
def submit (k : Device) (i : ℕ) (s : Inference) (r : Request) : Reply × Device :=
  if s.io.state.isOpen then (.error .ebusy, k)
  else if s.io.sequence = maxWord ∨ r.sequence ≠ s.io.sequence + 1 then (.error .estale, k)
  else if maxWord - r.outputTokens < r.inputTokens then (.error .eoverflow, k)
  else if k.exceeds s.cap (r.inputTokens + r.outputTokens) then (.error .edquot, k)
  else
    let total := r.inputTokens + r.outputTokens
    let k := k.modifyPath s.cap fun x => { x with reserved := x.reserved + total }
    (.ok .done, k.modifySession i fun s => { s with
      reservation := total
      io := r.toIo .pending 0 s.io.taint })

/-- `AOK_CORE_TAKE`; without a copy to the caller the request stays pending. -/
def take (k : Device) (i : ℕ) (s : Inference) (copied : Bool) : Reply × Device :=
  if s.io.state ≠ .pending then (.error .eagain, k)
  else if copied = false then (.error .efault, k)
  else (.ok (.record { s.io with state := .running }),
    k.modifySession i fun s => { s with io := { s.io with state := .running } })

/-- `AOK_CORE_COMPLETE`. -/
def complete (k : Device) (i : ℕ) (s : Inference) (r : Request) : Reply × Device :=
  if r.sequence ≠ s.io.sequence ∨ s.io.state ≠ .running then (.error .estale, k)
  else if s.io.inputTokens < r.inputTokens ∨ s.io.outputTokens < r.outputTokens then
    (.error .edquot, k)
  else
    let k := k.unreserve i (r.inputTokens + r.outputTokens)
    let used := ((k.caps[s.cap]?).map Capability.used).getD 0
    (.ok .done, k.modifySession i fun s => { s with
      io := r.toIo .done used s.io.taint })

/-- `AOK_CORE_RESULT`. -/
def result (k : Device) (s : Inference) (copied : Bool) : Reply × Device :=
  if s.io.state ≠ .done then (.error .eagain, k)
  else if copied = false then (.error .efault, k)
  else (.ok (.record s.io), k)

/-- `AOK_CORE_EXPORT`. -/
def exportRecord (k : Device) (s : Inference) (copied : Bool) : Reply × Device :=
  if k.valid s.cap capExport = false ∨
      (k.caps[s.cap]?).any (fun x => ¬ Within s.io.taint x.policy.exportMask) then (.error .eacces, k)
  else k.result s copied

end Device

/-! ## Operations -/

inductive CapCmd where
  | derive (arg : Option CapPolicy) (fault : Option Device.CapFault)
  | revoke
  | check
  | sessionCreate (fault : Option Errno)
  | unknown
deriving DecidableEq

/-- The commands of a session file; an argument that cannot be read is missing. -/
inductive SessionCmd where
  | submit (arg : Option Request)
  | take (copied : Bool)
  | complete (arg : Option Request)
  | result (copied : Bool)
  | cancel
  | exportRecord (copied : Bool)
  | unknown
deriving DecidableEq

def SessionCmd.isFor (backend : Bool) : SessionCmd → Bool
  | .take _ | .complete _ => backend
  | .submit _ | .result _ | .cancel | .exportRecord _ => !backend
  | .unknown => false

def checkRequest : Option Request → Except Errno Unit
  | none => .error .efault
  | some r =>
    if dataMax < r.length.toNat ∨ r.tokensUsed ≠ 0 ∨ r.state ≠ 0 then .error .einval else .ok ()

def SessionCmd.checkArg : SessionCmd → Except Errno Unit
  | .submit arg | .complete arg => checkRequest arg
  | _ => .ok ()

namespace Device

/-- `aok_core_cap_ioctl`. -/
def capIoctl (k : Device) (c : ℕ) (cmd : CapCmd) : Reply × Device :=
  if k.valid c 0 = false then (.error .eacces, k)
  else
    match cmd with
    | .derive arg fault => k.capNew (some c) arg fault
    | .revoke =>
      if k.valid c capRevoke then (.ok .done, k.modifyCap c fun x => { x with revoked := true })
      else (.error .eacces, k)
    | .check => (.ok .done, k)
    | .sessionCreate fault => k.sessionNew c fault
    | .unknown => (.error .enotty, k)

/-- The part of `aok_core_session_ioctl` under the lock. -/
def sessionLocked (k : Device) (i : ℕ) (s : Inference) : SessionCmd → Reply × Device
  | .submit (some r) => k.submit i s r
  | .complete (some r) => k.complete i s r
  | .submit none | .complete none => (.error .efault, k)
  | .take copied => k.take i s copied
  | .result copied => k.result s copied
  | .cancel => (.ok .done, k.abandon i)
  | .exportRecord copied => k.exportRecord s copied
  | .unknown => (.error .enotty, k)

/-- `aok_core_session_ioctl`. -/
def sessionIoctl (k : Device) (i : ℕ) (backend : Bool) (cmd : SessionCmd) : Reply × Device :=
  match k.sessions[i]? with
  | none => (.error .ebadf, k)
  | some s =>
    if cmd.isFor backend = false then (.error .eacces, k)
    else
      match cmd.checkArg with
      | .error e => (.error e, k)
      | .ok () =>
        if k.valid s.cap capInfer = false then (.error .eacces, k)
        else k.sessionLocked i s cmd

/-- The release of an open file: what is under the lock is done at once, the reference is dropped
later. -/
def release (k : Device) : File → Device
  | .cap c => { k with puts := k.puts ++ [.cap c] }
  | .client i | .backend i => { k.abandon i with puts := k.puts ++ [.session i] }

def put (k : Device) : Ref → Device
  | .cap c => k.capPut c
  | .session i => k.sessionPut i

end Device

/-- The operations on the device: one call of a file, its closing, or the drop of a reference
that is due. A root handle is given by its rights. -/
inductive Op where
  | create (rights : UInt64) (arg : Option CapPolicy) (fault : Option Device.CapFault)
  | cap (fd : ℕ) (cmd : CapCmd)
  | session (fd : ℕ) (cmd : SessionCmd)
  | close (fd : ℕ)
  | put (n : ℕ)
deriving DecidableEq

def Device.file (k : Device) (fd : ℕ) : Option File := (k.files[fd]?).join

def step (k : Device) : Op → Reply × Device
  | .create rights arg fault =>
    if rights &&& rightManageChild = 0 then (.error .eacces, k) else k.capNew none arg fault
  | .cap fd cmd =>
    match k.file fd with
    | some (.cap c) => k.capIoctl c cmd
    | some _ => (.error .enotty, k)
    | none => (.error .ebadf, k)
  | .session fd cmd =>
    match k.file fd with
    | some (.client i) => k.sessionIoctl i false cmd
    | some (.backend i) => k.sessionIoctl i true cmd
    | some (.cap _) => (.error .enotty, k)
    | none => (.error .ebadf, k)
  | .close fd =>
    match k.file fd with
    | some f => (.ok .done, { k with files := k.files.set fd none }.release f)
    | none => (.error .ebadf, k)
  | .put n =>
    match k.puts[n]? with
    | some r => (.ok .done, { k with puts := k.puts.eraseIdx n }.put r)
    | none => (.ok .done, k)

def run (k : Device) (ops : List Op) : Device := ops.foldl (fun k op => (step k op).2) k

end Aok.Kernel
