import Aok.Kernel.InferOwner

/-!
# The provider over the inference device

`KernelInferProvider` runs each turn in a kernel session of its own capability and keeps a mirror
of what the kernel charges. Before each call other processes may use the device through files of
their own, and a call may fail before it reaches the kernel.
-/

namespace Aok.Kernel
open Lib

/-! ## The bridge -/

def InferState.code : InferState → UInt32
  | .idle => 0
  | .pending => 1
  | .running => 2
  | .done => 3
  | .cancelled => 4

structure Record where
  sequence : UInt64
  inputTokens : UInt64
  outputTokens : UInt64
  tokensUsed : UInt64
  taint : UInt64
  state : UInt32
  data : List UInt8
deriving DecidableEq

inductive BridgeError where
  | errno (e : Errno)
  | unreached
  | payloadExceeds
  | outputOnly
  | payloadLength
deriving DecidableEq

/-- The part of `send` before the call. -/
def Record.encode (r : Record) : Except BridgeError Request :=
  if dataMax < r.data.length then .error .payloadExceeds
  else if r.tokensUsed ≠ 0 ∨ r.state ≠ 0 then .error .outputOnly
  else .ok ⟨r.sequence, r.inputTokens, r.outputTokens, 0, r.taint, 0, UInt32.ofNat r.data.length,
    Vector.ofFn fun i => r.data.getD i.val 0⟩

/-- The part of `receive` after the call. -/
def Io.decode (io : Io) : Except BridgeError Record :=
  if dataMax < io.length.toNat then .error .payloadLength
  else .ok ⟨io.sequence, io.inputTokens, io.outputTokens, io.tokensUsed, io.taint, io.state.code,
    io.data.toList.take io.length.toNat⟩

/-- One call: what others do before it, and whether it reaches the kernel. -/
structure Call where
  others : List Op
  reached : Bool

def Call.issue (l : Call) (held : List ℕ) (k : Device) (op : Op) :
    Except BridgeError Output × Device :=
  let k := run k (l.others.filter (Op.Avoids held))
  if l.reached then ((step k op).1.mapError .errno, (step k op).2) else (.error .unreached, k)

/-- `send`; the kernel may be unable to read the record. -/
def Call.send (l : Call) (held : List ℕ) (k : Device) (op : Option Request → Op) (readable : Bool)
    (r : Record) : Except BridgeError Output × Device :=
  match r.encode with
  | .error e => (.error e, k)
  | .ok q => l.issue held k (op (if readable then some q else none))

def Call.receive (l : Call) (held : List ℕ) (k : Device) (op : Op) :
    Except BridgeError Record × Device :=
  match l.issue held k op with
  | (.ok (.record io), k) => (io.decode, k)
  | (.ok _, k) => (.error .unreached, k)
  | (.error e, k) => (.error e, k)

/-! ## The provider -/

structure Usage where
  inputTokens : UInt64
  outputTokens : UInt64
  cachedTokens : UInt64
deriving DecidableEq

structure Answer where
  text : List UInt8
  usage : Usage
  taint : UInt64
deriving DecidableEq

/-- A turn: its prompt, the inner provider and what happens around its calls. -/
structure Turn where
  prompt : List UInt8
  -- the slot is taken by another turn
  busy : Bool
  inner : List UInt8 → Option Answer
  session : Call
  sessionFault : Option Errno
  submit : Call
  submitRead : Bool
  take : Call
  takeCopied : Bool
  cancel : Call
  complete : Call
  completeRead : Bool
  result : Call
  resultCopied : Bool
  closeBackend : List Op
  closeClient : List Op

/-- The file of the capability and the output that a turn reserves. -/
structure ProviderConfig where
  fd : ℕ
  maxOutput : UInt64
deriving DecidableEq

structure Mirror where
  settled : UInt64
  lastTaint : UInt64
deriving DecidableEq

inductive TurnError where
  | tooLong
  | busy
  | session (e : BridgeError)
  | submit (e : BridgeError)
  | take (e : BridgeError)
  | inner
  | complete (e : BridgeError)
  | result (e : BridgeError)
  | mismatch (used expected : UInt64)
deriving DecidableEq

abbrev TurnResult := Except TurnError (List UInt8 × Usage × UInt64)

/-- `NewKernelInferProvider`, with a root handle that has the rights. -/
def newKernelInferProvider (k : Device) (rights tokenLimit maxOutput : UInt64)
    (fault : Option Device.CapFault) : Except BridgeError (ProviderConfig × Mirror) × Device :=
  match step k (.create rights (some ⟨capInfer ||| capServe, 0, 0, tokenLimit⟩) fault) with
  | (.ok (.fd fd), k) => (.ok (⟨fd, maxOutput⟩, ⟨0, 0⟩), k)
  | (.ok _, k) => (.error .unreached, k)
  | (.error e, k) => (.error (.errno e), k)

namespace ProviderConfig

variable (cfg : ProviderConfig)

/-- The part of `runSession` from the completion on. -/
def finish (t : Turn) (a : Answer) (client backend : ℕ) (reservation sequence : UInt64)
    (p : Mirror) (k : Device) : TurnResult × Mirror × Device :=
  let held := [client, backend, cfg.fd]
  let settled := a.usage.inputTokens + a.usage.outputTokens
  match t.complete.send held k (fun q => .session backend (.complete q)) t.completeRead
      ⟨sequence, a.usage.inputTokens, a.usage.outputTokens, 0, 0, 0, a.text⟩ with
  | (.error e, k) => (.error (.complete e), { p with settled := p.settled + reservation }, k)
  | (.ok _, k) =>
    match t.result.receive held k (.session client (.result t.resultCopied)) with
    | (.error e, k) => (.error (.result e), { p with settled := p.settled + settled }, k)
    | (.ok r, k) =>
      let p : Mirror := ⟨p.settled + settled, r.taint⟩
      if r.tokensUsed ≠ p.settled ∨ r.data ≠ a.text then
        (.error (.mismatch r.tokensUsed p.settled), p, k)
      else
        (.ok (a.text, ⟨a.usage.inputTokens, a.usage.outputTokens, 0⟩, r.taint ||| a.taint), p, k)

/-- The part of `runSession` between the opening of the session and the deferred calls. -/
def converse (t : Turn) (client backend : ℕ) (p : Mirror) (k : Device) :
    TurnResult × Mirror × Device :=
  let held := [client, backend, cfg.fd]
  let reservation := UInt64.ofNat t.prompt.length + cfg.maxOutput
  match t.submit.send held k (fun q => .session client (.submit q)) t.submitRead
      ⟨1, UInt64.ofNat t.prompt.length, cfg.maxOutput, 0, 0, 0, t.prompt⟩ with
  | (.error e, k) => (.error (.submit e), p, k)
  | (.ok _, k) =>
    match t.take.receive held k (.session backend (.take t.takeCopied)) with
    | (.error e, k) => (.error (.take e), p, k)
    | (.ok request, k) =>
      match t.inner request.data with
      | none => (.error .inner, { p with settled := p.settled + reservation },
          (t.cancel.issue held k (.session client .cancel)).2)
      | some a => cfg.finish t a client backend reservation request.sequence p k

def close (t : Turn) (client backend : ℕ) (k : Device) : Device :=
  let held := [client, backend, cfg.fd]
  let k := run k (t.closeBackend.filter (Op.Avoids held))
  let k := (step k (.close backend)).2
  let k := run k (t.closeClient.filter (Op.Avoids held))
  (step k (.close client)).2

def runSession (t : Turn) (p : Mirror) (k : Device) : TurnResult × Mirror × Device :=
  if dataMax < t.prompt.length then (.error .tooLong, p, k)
  else if t.busy then (.error .busy, p, k)
  else
    match t.session.issue [cfg.fd] k (.cap cfg.fd (.sessionCreate t.sessionFault)) with
    | (.ok (.pair client backend), k) =>
      let (out, p, k) := cfg.converse t client backend p k
      (out, p, cfg.close t client backend k)
    | (.ok _, k) => (.error (.session .unreached), p, k)
    | (.error e, k) => (.error (.session e), p, k)

def runTurns (turns : List Turn) (p : Mirror) (k : Device) : Mirror × Device :=
  turns.foldl (fun s t => (cfg.runSession t s.1 s.2).2) (p, k)

end ProviderConfig
end Aok.Kernel
