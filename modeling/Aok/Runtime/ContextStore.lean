import Aok.Runtime.State

/-!
# The context store

`ContextStore` as far as the supervisor uses it: contexts with sealed pages and a
tail, content-addressed blobs, and an operation table that binds each idempotency key
to its input and result. Each function is one SQLite transaction, a change of the whole
store that happens or does not. Hashes and fresh ids are hexadecimal texts, and the
type of a handle says so.
-/

namespace Aok.Runtime
open Lib Lib.Utf8 Lib.JsonText Lib.JsonValue

/-- The errors of the supervisor and its stores: the exported sentinels, the errors made
in place with their text, and what the system underneath reports. -/
inductive Err where
  | applicationNotFound
  | applicationRetired
  | duplicateMessage
  | capabilityDenied
  | mailboxFull
  | taintBlocked
  | confirmationPending (requestID : GoString)
  | witnessMismatch (record : Option ℕ)
  | revocationCapacity
  | channelNotFound
  | conversationNotFound
  | conversationBound
  | mountNotFound
  | mountDenied
  | routeDenied
  | turnBusy
  | webDenied
  | webLayerMismatch
  | contextAccess
  | contextCorrupt
  | contextIdempotency
  | eagain
  | ebusy
  | unmarshal
  | new (text : String)
  | described (text : GoString)
  | system
  | requeueFailed (cause requeue : Err)
deriving DecidableEq

def isHexDigit (b : UInt8) : Bool := isDigit b || (0x61 ≤ b.toNat && b.toNat ≤ 0x66)

structure HexText where
  text : GoString
  isHex : text.all isHexDigit = true
deriving DecidableEq

theorem isHexDigit_hexDigit {n : ℕ} (h : n < 16) : isHexDigit (hexDigit n) := by
  interval_cases n <;> decide

/-- `hex.EncodeToString`. -/
def hexEncode (b : Bytes) : HexText where
  text := b.flatMap fun x => [hexDigit (x.toNat / 16), hexDigit (x.toNat % 16)]
  isHex := by
    rw [List.all_eq_true]
    intro x hx
    obtain ⟨y, -, hy⟩ := List.mem_flatMap.mp hx
    have hl := y.toNat_lt
    rcases List.mem_pair.mp hy with rfl | rfl
    · exact isHexDigit_hexDigit (by omega)
    · exact isHexDigit_hexDigit (by omega)

structure Digest extends HexText where
  length_eq : text.length = 64

theorem HexText.valid (h : HexText) : Utf8.valid h.text := by
  refine valid_ascii fun b hb => ?_
  have hx := List.all_eq_true.mp h.isHex b hb
  simp only [isHexDigit, isDigit, Bool.or_eq_true, Bool.and_eq_true, decide_eq_true_eq] at hx
  omega

inductive OperationKind where
  | append
  | fork
  | checkpoint
  | restore
  | artifact
deriving DecidableEq

def OperationKind.text : OperationKind → String
  | .append => "append"
  | .fork => "fork"
  | .checkpoint => "checkpoint"
  | .restore => "restore"
  | .artifact => "artifact"

structure ContextRow where
  owner : GoString
  tail : Option HexText
deriving DecidableEq

structure OperationRow where
  contextID : GoString
  key : GoString
  digest : HexText
  result : HexText
deriving DecidableEq

structure LSFSCommit where
  cursor : ℤ
  contextID : GoString
  kind : OperationKind
  handle : HexText
  idempotencyKey : GoString
deriving DecidableEq

structure ContextStore where
  blobs : Table GoString Bytes
  contexts : Table GoString ContextRow
  pages : Table GoString (List HexText)
  grants : List (GoString × HexText × OperationKind)
  operations : List OperationRow
  commits : List LSFSCommit

namespace ContextStore

def empty : ContextStore := ⟨∅, ∅, ∅, [], [], []⟩

/-- The white space of `strings.TrimSpace`, as encoded characters. -/
def spaces : List Bytes :=
  [[0x09], [0x0A], [0x0B], [0x0C], [0x0D], [0x20], [0xC2, 0x85], [0xC2, 0xA0], [0xE1, 0x9A, 0x80],
    [0xE2, 0x80, 0x80], [0xE2, 0x80, 0x81], [0xE2, 0x80, 0x82], [0xE2, 0x80, 0x83],
    [0xE2, 0x80, 0x84], [0xE2, 0x80, 0x85], [0xE2, 0x80, 0x86], [0xE2, 0x80, 0x87],
    [0xE2, 0x80, 0x88], [0xE2, 0x80, 0x89], [0xE2, 0x80, 0x8A], [0xE2, 0x80, 0xA8],
    [0xE2, 0x80, 0xA9], [0xE2, 0x80, 0xAF], [0xE2, 0x81, 0x9F], [0xE3, 0x80, 0x80]]

/-- `strings.TrimSpace(s) == ""`. -/
def isBlank (s : GoString) : Bool :=
  (runes s).all fun
    | some c => spaces.contains c
    | none => false

variable (sha256 : Bytes → Digest)

/-- `contextBlob`. -/
def blob (s : ContextStore) (hash : HexText) : Except Err Bytes :=
  match s.blobs[hash.text]? with
  | none => .error .contextCorrupt
  | some data => if (sha256 data).toHexText = hash then .ok data else .error .contextCorrupt

/-- `putContextBlob`. -/
def putBlob (data : Bytes) (s : ContextStore) : Except Err (HexText × ContextStore) :=
  let hash := (sha256 data).toHexText
  let s := if s.blobs.contains hash.text then s
    else { s with blobs := s.blobs.insert hash.text data }
  match s.blob sha256 hash with
  | .ok _ => .ok (hash, s)
  | .error e => .error e

/-- `authorizeContext`. -/
def authorize (s : ContextStore) (owner id : GoString) : Except Err Unit :=
  match s.contexts[id]? with
  | some row => if owner ≠ [] ∧ row.owner = owner then .ok () else .error .contextAccess
  | none => .error .contextAccess

/-- `INSERT INTO contexts(id,owner)`, which a used id refuses. -/
def insertContext (id : HexText) (owner : GoString) (s : ContextStore) :
    Except Err ContextStore :=
  if s.contexts.contains id.text then .error .system
  else .ok { s with contexts := s.contexts.insert id.text ⟨owner, none⟩ }

def pagesOf (s : ContextStore) (id : GoString) : List HexText := (s.pages[id]?).getD []

/-- `Create`, with the id `newContextID` drew. -/
def create (id : HexText) (owner : GoString) (sealed : Bytes) (s : ContextStore) :
    Except Err (HexText × ContextStore) :=
  if isBlank owner then .error .contextAccess
  else do
    let s ← insertContext id owner s
    if sealed = [] then pure (id, s)
    else do
      let (hash, s) ← putBlob sha256 sealed s
      pure (id, { s with pages := s.pages.insert id.text [hash] })

/-- `mutate` binds an idempotency key to both its input and its result. -/
def mutate (owner id key : GoString) (kind : OperationKind) (input : Bytes)
    (fn : ContextStore → Except Err (HexText × ContextStore)) (s : ContextStore) :
    Except Err (HexText × ContextStore) :=
  if key = [] ∨ 1024 < key.length then .error (.new "bounded idempotency key required")
  else do
    authorize s owner id
    let digest := (sha256 (lit kind.text ++ 0x00 :: input)).toHexText
    match s.operations.find? fun o => o.contextID = id ∧ o.key = key with
    | some o => if o.digest = digest then pure (o.result, s) else .error .contextIdempotency
    | none =>
      let (result, s) ← fn s
      pure (result, { s with
        operations := s.operations ++ [⟨id, key, digest, result⟩]
        commits := s.commits ++ [⟨s.commits.length + 1, id, kind, result, key⟩] })

def tailOf (s : ContextStore) (id : GoString) : Option HexText :=
  (s.contexts[id]?).bind ContextRow.tail

def setTail (id : GoString) (tail : Option HexText) (s : ContextStore) : ContextStore :=
  match s.contexts[id]? with
  | some row => { s with contexts := s.contexts.insert id { row with tail } }
  | none => s

def append (owner id key : GoString) (data : Bytes) : ContextStore →
    Except Err (HexText × ContextStore) :=
  mutate sha256 owner id key .append data fun s => do
    let previous ← match s.tailOf id with
      | some tail => s.blob sha256 tail
      | none => pure []
    let (hash, s) ← putBlob sha256 (previous ++ data) s
    pure (hash, s.setTail id (some hash))

/-- `ForkTo`, with the id the child gets if the fork is not a repetition. -/
def forkTo (child : HexText) (parentOwner parentID childOwner key : GoString)
    (s : ContextStore) : Except Err (HexText × ContextStore) :=
  if isBlank childOwner then .error .contextAccess
  else mutate sha256 parentOwner parentID key .fork [] (fun s => do
    let s ← insertContext child childOwner s
    let pages := s.pagesOf parentID ++ (s.tailOf parentID).toList
    let s := s.setTail parentID none
    pure (child, { s with pages := (s.pages.insert parentID pages).insert child.text pages })) s

def pageText (hash : HexText) (data : Bytes) : Bytes :=
  object [member "hash" (quote hash.text), member "bytes" (dec data.length)]

/-- The JSON text of `snapshotContext`. -/
def snapshotText (s : ContextStore) (id : GoString) : Except Err Bytes := do
  let sealed ← (s.pagesOf id).mapM fun hash => do
    let data ← s.blob sha256 hash
    pure (pageText hash data)
  let tail ← match s.tailOf id with
    | some hash => do
      let data ← s.blob sha256 hash
      pure [member "tail" (pageText hash data)]
    | none => pure []
  pure (object ([member "context_id" (quote id), member "prefix" (array sealed)] ++ tail))

/-- `INSERT OR IGNORE INTO grants`. -/
def grant (id : GoString) (hash : HexText) (kind : OperationKind) (s : ContextStore) :
    ContextStore :=
  if s.grants.contains (id, hash, kind) then s
  else { s with grants := s.grants ++ [(id, hash, kind)] }

def checkpoint (owner id key : GoString) : ContextStore → Except Err (HexText × ContextStore) :=
  mutate sha256 owner id key .checkpoint [] fun s => do
    let data ← s.snapshotText sha256 id
    let (hash, s) ← putBlob sha256 data s
    pure (hash, s.grant id hash .checkpoint)

structure ContextPage where
  hash : GoString
  bytes : ℤ
deriving DecidableEq

structure ContextSnapshot where
  contextID : GoString
  sealed : List ContextPage
  tail : Option ContextPage
deriving DecidableEq

/-- A page from its JSON value; an item that is `null` stays empty. -/
def asPage : Value → Option ContextPage
  | .null => some ⟨[], 0⟩
  | .obj fields =>
    let hash := fields.foldl (readMember (lit "hash") asString) ([], true)
    let bytes := fields.foldl (readMember (lit "bytes") asInt64) (0, true)
    if hash.2 && bytes.2 then some ⟨hash.1, bytes.1⟩ else none
  | _ => none

def asPages : Value → Option (List ContextPage)
  | .arr items => items.mapM asPage
  | _ => none

/-- `json.Unmarshal` into a `ContextSnapshot`, for texts that name each field at most once. -/
def readSnapshot (data : Bytes) : Option ContextSnapshot :=
  let contextID := readField (lit "context_id") asString [] data
  let sealed := readField (lit "prefix") asPages [] data
  let tail := readField (lit "tail") (fun v => (asPage v).map some) none data
  if contextID.2 && sealed.2 && tail.2 then some ⟨contextID.1, sealed.1, tail.1⟩ else none

/-- A page of a snapshot as `Restore` checks it against the blobs. -/
def checkPage (s : ContextStore) (p : ContextPage) : Except Err HexText :=
  match s.blobs[p.hash]? with
  | none => .error .contextCorrupt
  | some data =>
    if (sha256 data).text = p.hash ∧ (data.length : ℤ) = p.bytes then .ok (sha256 data).toHexText
    else .error .contextCorrupt

def restore (owner id key checkpoint : GoString) : ContextStore →
    Except Err (HexText × ContextStore) :=
  mutate sha256 owner id key .restore checkpoint fun s =>
    match s.grants.find? fun g => g.1 = id ∧ g.2.1.text = checkpoint ∧ g.2.2 = .checkpoint with
    | none => .error .contextAccess
    | some g => do
      let data ← s.blob sha256 g.2.1
      match readSnapshot data with
      | none => .error .contextCorrupt
      | some snap =>
        if snap.contextID ≠ id then .error .contextCorrupt
        else do
          let pages ← snap.sealed.mapM (s.checkPage sha256)
          let tail ← match snap.tail with
            | some p => some <$> s.checkPage sha256 p
            | none => pure none
          pure (g.2.1, { s with pages := s.pages.insert id pages }.setTail id tail)

def commitArtifact (owner id key : GoString) (data : Bytes) : ContextStore →
    Except Err (HexText × ContextStore) :=
  mutate sha256 owner id key .artifact data fun s => do
    let (hash, s) ← putBlob sha256 data s
    pure (hash, s.grant id hash .artifact)

def snapshotContext (s : ContextStore) (id : GoString) : Except Err ContextSnapshot := do
  let sealed ← (s.pagesOf id).mapM fun hash => do
    let data ← s.blob sha256 hash
    pure ⟨hash.text, data.length⟩
  let tail ← match s.tailOf id with
    | some hash => do
      let data ← s.blob sha256 hash
      pure (some ⟨hash.text, data.length⟩)
    | none => pure none
  pure ⟨id, sealed, tail⟩

def snapshot (owner id : GoString) (s : ContextStore) : Except Err ContextSnapshot := do
  authorize s owner id
  s.snapshotContext sha256 id

/-- `Pages`, where no tail is the empty text. -/
def pageHashes (owner id : GoString) (s : ContextStore) : Except Err (List GoString × GoString) := do
  authorize s owner id
  pure ((s.pagesOf id).map HexText.text, ((s.tailOf id).map HexText.text).getD [])

def readArtifact (owner id handle : GoString) (s : ContextStore) : Except Err Bytes := do
  authorize s owner id
  match s.grants.find? fun g => g.1 = id ∧ g.2.1.text = handle ∧ g.2.2 = .artifact with
  | none => .error .contextAccess
  | some g => s.blob sha256 g.2.1

def readPage (owner id hash : GoString) (s : ContextStore) : Except Err Bytes := do
  authorize s owner id
  match (s.pagesOf id ++ (s.tailOf id).toList).find? fun h => h.text = hash with
  | none => .error .contextAccess
  | some h => s.blob sha256 h

/-- `Commits`. -/
def commitsAfter (owner id : GoString) (after : ℤ) (limit : ℕ) (s : ContextStore) :
    Except Err (List LSFSCommit) :=
  if after < 0 ∨ limit < 1 ∨ 1000 < limit then .error (.new "invalid commit cursor or limit")
  else do
    authorize s owner id
    pure ((s.commits.filter fun c => c.contextID = id ∧ after < c.cursor).take limit)

end ContextStore
end Aok.Runtime
