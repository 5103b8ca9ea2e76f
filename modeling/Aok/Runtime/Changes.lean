import Aok.Runtime.Records
import Aok.Runtime.Wake
import Aok.Runtime.Witness

/-!
# What an operation can do to the state

`Change` lists the ways in which the supervisor edits its state in memory, with the
conditions under which the source does so. Every invariant is proved once for each of
them. `U` stands for the assumption that callers pass valid UTF-8, and `Terms` for what is
assumed of a step; without an assumption the corresponding promise is empty.
-/

namespace Aok.Runtime
open Lib Lib.Utf8 Lib.JsonText Lib.JsonValue Lib.Command Lib.Journal

/-- Under the assumption `U` the string is valid UTF-8. -/
def Clear (U : Prop) (s : GoString) : Prop := U → valid s = true

def Each {α : Type} (P : GoString → α → Prop) (t : Table GoString α) : Prop :=
  ∀ k v, t[k]? = some v → P k v

section Each
variable {α : Type} {P : GoString → α → Prop} {t : Table GoString α}

theorem Each.insert (h : Each P t) {k : GoString} {v : α} (hv : P k v) : Each P (t.insert k v) := by
  intro a b hb
  rw [Table.get_insert] at hb
  split_ifs at hb with hk
  · cases hb
    exact hk ▸ hv
  · exact h a b hb

theorem Each.erase (h : Each P t) (k : GoString) : Each P (t.erase k) := by
  intro a b hb
  rw [Table.get_erase] at hb
  split_ifs at hb with hk
  exact h a b hb

theorem Each.map (h : Each P t) {f : α → α} (hf : ∀ k v, P k v → P k (f v)) :
    Each P (t.map fun _ v => f v) := by
  intro a b hb
  rw [Std.ExtTreeMap.getElem?_map, Option.map_eq_some_iff] at hb
  obtain ⟨v, hv, rfl⟩ := hb
  exact hf a v (h a v hv)

theorem each_empty : Each P (∅ : Table GoString α) := by
  intro k v h
  simp at h

end Each

/-- The strings kept outside the main tables that can later reach an audit record; what is
pending is kept under ids of applications, and mounts under their own ids. -/
structure Side (U : Prop) (c : Core) : Prop where
  timers : Each (fun _ t => Clear U t.timerID) c.state.timers
  bindings : Each (fun _ b => Clear U b.bindingID) c.state.bindings
  pending : Each (fun k l => valid k = true ∧ ∀ e ∈ l, Clear U e.bootID) c.state.kernelPending
  conversations : Each (fun k _ => Clear U k) c.state.conversations
  sourced : Each (fun _ k => Clear U k) c.sourced
  outbox : ∀ e ∈ c.state.outbox, Clear U e.entryID
  confirmations : Each (fun _ r => Clear U r.applicationID ∧ Clear U r.kind) c.state.confirmations
  mounts : Each (fun k m => valid k = true ∧ Clear U m.applicationID) c.state.hostfsMounts

/-- What only a few operations write: `identities` are applications with their contexts and kernel
ids, `sources` are payloads that name the gateway as their source, `taint` and `lifecycle` are
fields of one application. -/
inductive Desk where
  | outbox
  | confirmations
  | transfers
  | conversations
  | sources
  | registry
  | mounts
  | identities
  | taint (id : GoString)
  | lifecycle (id : GoString)
deriving DecidableEq

/-- What is assumed of a step: whether its turns spare retired applications, which moves
between statuses it makes and what it writes. -/
structure Terms where
  spares : Prop
  moves : MsgStatus → MsgStatus → Prop
  writes : Desk → Prop

def NamesGateway (payload : Bytes) : Prop :=
  (readField (lit "source") asString [] (compact payload)).1 = lit "gateway"

instance (payload : Bytes) : Decidable (NamesGateway payload) :=
  inferInstanceAs (Decidable (_ = _))

/-- A payload that `enqueueLocked` takes as it is and as the state is written. -/
def Mailable (payload : Bytes) : Prop :=
  validJson payload ∧ payload.length ≤ 6 * maxTextBytes ∧
    (compact payload).length ≤ 6 * maxTextBytes

theorem Mailable.of_valid {payload : Bytes} (hv : validJson payload)
    (hlen : payload.length ≤ maxTextBytes) : Mailable payload := by
  have hcompact := length_compact payload
  exact ⟨hv, by omega, by omega⟩

/-- How much of the state is uncommitted: nothing that is saved, only tables that no invariant
spans, or the main tables. -/
inductive Level where
  | clean
  | side
  | main
deriving DecidableEq

namespace Level

def rank : Level → ℕ
  | .clean => 0
  | .side => 1
  | .main => 2

theorem rank_injective : Function.Injective rank := by
  intro a b h
  cases a <;> cases b <;> first | rfl | cases h

instance : LinearOrder Level := LinearOrder.lift' rank rank_injective

instance : OrderBot Level where
  bot := .clean
  bot_le a := Nat.zero_le (rank a)

end Level

/-- The records that `f` lists are dropped and added as the sequence goes on. -/
def Reissues (f : State → List Record) (s s' : State) : Prop :=
  Issue.Issues Record.id Record.tag s.nextSequence s'.nextSequence (f s) (f s')

/-- The main tables are untouched. Outbox, transfers and mounts are never left uncommitted. -/
structure Frame (S : Terms) (k : Level) (c c' : Core) : Prop where
  applications : c'.state.applications = c.state.applications
  mailbox : c'.state.mailbox = c.state.mailbox
  audit : c'.state.audit = c.state.audit
  results : c'.state.results = c.state.results
  prepared : c'.state.prepared = c.state.prepared
  checkpoints : c'.state.witnessCheckpoints = c.state.witnessCheckpoints
  previousHash : c'.previousHash = c.previousHash
  nextSequence : c.state.nextSequence ≤ c'.state.nextSequence
  nextKernelID : c.state.nextKernelID ≤ c'.state.nextKernelID
  timers : Each (fun _ t => Mailable t.payload) c.state.timers →
    Each (fun _ t => Mailable t.payload) c'.state.timers
  outbox : (S.writes .outbox ∧ k = .main ∧ Reissues State.entryRecords c.state c'.state) ∨
    c'.state.outbox = c.state.outbox
  transfers : (S.writes .transfers ∧ k = .main ∧
    Reissues State.transferRecords c.state c'.state) ∨
    c'.state.transfers = c.state.transfers
  registry : S.writes .registry ∨ c'.state.revokedTokens = c.state.revokedTokens
  mounts : (S.writes .mounts ∧ k = .main ∧ Reissues State.mountRecords c.state c'.state) ∨
    c'.state.hostfsMounts = c.state.hostfsMounts

/-- What a frame is about. -/
def Core.framed (c : Core) :=
  (c.state.applications, c.state.mailbox, c.state.audit, c.state.results, c.state.prepared,
    c.state.witnessCheckpoints, c.previousHash, c.state.nextSequence, c.state.nextKernelID,
    c.state.timers, c.state.outbox, c.state.transfers, c.state.revokedTokens, c.state.hostfsMounts)

theorem Frame.of_eq {S : Terms} {k : Level} {c c' : Core} (h : c'.framed = c.framed) :
    Frame S k c c' := by
  simp only [Core.framed, Prod.mk.injEq] at h
  obtain ⟨ha, hm, hu, hr, hp, hc, hh, hn, hk, ht, ho, hx, hg, hs⟩ := h
  exact ⟨ha, hm, hu, hr, hp, hc, hh, hn.ge, hk.ge, fun h => ht ▸ h, .inr ho, .inr hx, .inr hg,
    .inr hs⟩

def Application.IsWithin (a : Application) : Prop :=
  a.tokenLimit = 0 ∨ a.tokensUsed < a.tokenLimit

/-- The owner and the context stay, and so does a kernel id that was given. -/
structure SameIdentity (a a' : Application) : Prop where
  ownerAgent : a'.ownerAgent = a.ownerAgent
  contextID : a'.contextID = a.contextID
  kernelID : a'.kernelID = a.kernelID ∨ a.kernelID = 0

structure AppStep (S : Terms) (id : GoString) (a a' : Application) : Prop where
  applicationID : a'.applicationID = a.applicationID
  tokensUsed : a'.tokensUsed = a.tokensUsed
  tombstoned : a.state = .tombstoned → a'.state = .tombstoned
  narrows : a.tokenLimit ≠ 0 → a'.tokenLimit ≠ 0 ∧ a'.tokenLimit ≤ a.tokenLimit
  serving : (a.state = .serving → a.IsWithin) → a'.state = .serving → a'.IsWithin
  taint : a.taintBits ||| a'.taintBits = a'.taintBits
  untainted : S.writes (.taint id) ∨ a'.taintBits = a.taintBits
  lifecycle : S.writes (.lifecycle id) ∨ (a'.isRetired → a.isRetired)
  identity : SameIdentity a a'

/-- An update of a message: its identity stays and it is not charged anew. -/
structure MsgStep (S : Terms) (m m' : MailboxMessage) : Prop where
  messageID : m'.messageID = m.messageID
  idempotencyKey : m'.idempotencyKey = m.idempotencyKey
  payload : m'.payload = m.payload
  sequence : m'.sequence = m.sequence
  charged : m'.status.isCharged → m.status.isCharged
  status : m'.status = m.status ∨ S.moves m.status m'.status

def State.Knows (s : State) (id : GoString) : Prop := (s.applications[id]?).isSome

structure Admission (U : Prop) (s : State) (id : GoString) (m : MailboxMessage) : Prop where
  application : s.Knows id
  messageID : m.messageID = Runtime.messageID m.sequence
  sequence : m.sequence = s.nextSequence + 1
  key : Clear U m.idempotencyKey
  keySize : m.idempotencyKey ≠ [] ∧ m.idempotencyKey.length ≤ 256
  compacted : compact m.payload = m.payload
  fresh : ∀ x ∈ s.messages id, x.idempotencyKey ≠ m.idempotencyKey
  room : (s.mailboxCapacity id).application.accepts m.payload.length
  roomTotal : (s.mailboxCapacity id).supervisor.accepts m.payload.length

/-- The settlement of a turn of an application that was `a` before. -/
structure Settlement (S : Terms) (s : State) (id : GoString) (a : Application) (c : TurnCommit) :
    Prop where
  application : s.applications[id]? = some a
  unsettled : s.results[c.result.messageID]? = none
  messageID : valid c.result.messageID = true
  owner : c.result.applicationID = id
  applicationID : c.application.applicationID = a.applicationID
  tokensUsed : c.application.tokensUsed = saturatingAdd a.tokensUsed
    (saturatingAdd c.result.usage.inputTokens c.result.usage.outputTokens)
  tombstoned : S.spares → a.state = .tombstoned → c.application.state = .tombstoned
  tokenLimit : c.application.tokenLimit = a.tokenLimit
  serving : c.application.state = .serving → c.application.IsWithin
  taintBits : c.application.taintBits = a.taintBits
  lifecycle : c.application.isRetired → a.isRetired
  identity : SameIdentity a c.application
  moves : ∀ m ∈ s.messages id, m.messageID = c.result.messageID →
    m.status = .acked ∨ S.moves m.status .acked

/-- A checkpoint that `RecordCosignature` accepts. -/
structure Cosigned (U : Prop) {K : Type} (env : Env K) (s : State) (cp : WitnessCheckpoint) :
    Prop where
  chain : cp.matchesChain s.audit
  signed : cp.isSigned env
  advances : ∀ last ∈ s.witnessCheckpoints.getLast?, last.count < cp.count
  signer : Clear U cp.signer

structure ClearRecord (U : Prop) (principal applicationID action object decision reason : GoString) :
    Prop where
  principal : Clear U principal
  applicationID : Clear U applicationID
  action : Clear U action
  object : Clear U object
  decision : Clear U decision
  reason : Clear U reason

def Core.withState (c : Core) (f : State → State) : Core := { c with state := f c.state }

@[simp] theorem Core.withState_state (c : Core) (f : State → State) :
    (c.withState f).state = f c.state := rfl

@[simp] theorem Core.withState_previousHash (c : Core) (f : State → State) :
    (c.withState f).previousHash = c.previousHash := rfl

@[simp] theorem Core.withState_sourced (c : Core) (f : State → State) :
    (c.withState f).sourced = c.sourced := rfl

variable {K : Type}

inductive Change (U : Prop) (S : Terms) (env : Env K) (c : Core) : Level → Core → Prop where
  | audit {principal applicationID action object decision reason : GoString} (time : ℤ) :
    ClearRecord U principal applicationID action object decision reason →
    Change U S env c .side
      (c.audit env.sha256 time principal applicationID action object decision reason)
  | application (id : GoString) (f : Application → Application) :
    (∀ a, c.state.applications[id]? = some a → AppStep S id a (f a)) →
    Change U S env c .main
      (c.withState fun s => { s with applications := updateTable f id s.applications })
  | messages (id : GoString) (f : List MailboxMessage → List MailboxMessage) :
    (∀ ms, c.state.mailbox[id]? = some ms → List.Forall₂ (MsgStep S) ms (f ms)) →
    Change U S env c .main (c.withState fun s => { s with mailbox := updateTable f id s.mailbox })
  | register (a : Application) :
    c.state.applications[a.applicationID]? = none → valid a.applicationID = true →
    a.tokensUsed = 0 → a.tokenLimit = 0 → S.writes .identities →
    Change U S env c .main (c.withState fun s => { s with
      applications := s.applications.insert a.applicationID a
      mailbox := s.mailbox.insert a.applicationID [] })
  | enqueue (id : GoString) (m : MailboxMessage) :
    Admission U c.state id m →
    Change U S env c .main (c.withState fun s => { s with
      nextSequence := s.nextSequence + 1
      mailbox := s.mailbox.insert id (s.messages id ++ [m]) })
  | stage (messageID : GoString) (staged : TurnResult) :
    valid messageID = true → c.state.results[messageID]? = none →
    Change U S env c .main
      (c.withState fun s => { s with prepared := s.prepared.insert messageID staged })
  | settle (id : GoString) (a : Application) (t : TurnCommit) :
    Settlement S c.state id a t → Change U S env c .main (c.withState (State.commitTurn id t))
  | cosign (cp : WitnessCheckpoint) :
    Cosigned U env c.state cp →
    Change U S env c .main (c.withState fun s => { s with
      witnessCheckpoints := keepNewest maxWitnessCheckpoints (s.witnessCheckpoints ++ [cp]) })
  | side {c' : Core} : Frame S .side c c' → (Side U c → Side U c') → Change U S env c .side c'
  | shelf {c' : Core} : Frame S .main c c' → (Side U c → Side U c') → Change U S env c .main c'

end Aok.Runtime
