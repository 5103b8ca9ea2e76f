import Aok.Runtime.Supervisor

/-!
# Witness checkpoints

Signatures of an outside witness over the audit chain's head. A checkpoint is recorded
only if it matches the chain at its position and moves forward; the newest ones are kept.
-/

namespace Aok.Runtime
open Lib Lib.Utf8 Lib.JsonText Lib.Command

def maxWitnessCheckpoints : ℕ := 256

/-- `checkpointMessage`: the bytes a witness signs. -/
def checkpointMessage (cp : WitnessCheckpoint) : Bytes :=
  lit "aok-audit-checkpoint:v1|" ++ cp.headHash ++ lit "|" ++ dec cp.count ++ lit "|" ++
    decInt cp.time

def WitnessCheckpoint.matchesChain (cp : WitnessCheckpoint) (audit : List AuditRecord) : Bool :=
  0 < cp.count && cp.count ≤ audit.length &&
    (audit[cp.count - 1]?).any fun r => r.hash == cp.headHash

variable {K : Type} (env : Env K)

def WitnessCheckpoint.isSigned (cp : WitnessCheckpoint) : Bool :=
  env.ed25519 cp.publicKey (checkpointMessage cp) cp.signature

/-- `s[:n]`, which panics when the string is shorter. -/
def sliceTo (n : ℕ) (s : GoString) : Op K GoString :=
  if n ≤ s.length then pure (s.take n) else halt

def recordCosignature (principal : GoString) (cp : WitnessCheckpoint) : Op K Unit := do
  require (cp.publicKey.length = 32 ∧ cp.signature.length = 64 ∧ cp.count ≠ 0 ∧ cp.headHash ≠ [] ∧
    cp.time ≠ 0) (.new "invalid witness checkpoint")
  require (cp.isSigned env) (.new "witness signature mismatch")
  let s ← getState
  require (cp.matchesChain s.audit) (.witnessMismatch none)
  require ((s.witnessCheckpoints.getLast?).all fun last => last.count < cp.count)
    (.new "checkpoint does not advance the witnessed history")
  editState fun s => { s with
    witnessCheckpoints := keepNewest maxWitnessCheckpoints (s.witnessCheckpoints ++ [cp]) }
  let head ← sliceTo 12 cp.headHash
  auditLocked env principal [] (lit "witness.cosign") (head ++ lit "@" ++ dec cp.count)
    (lit "allow") cp.signer
  persistLocked env

/-- `VerifyWitness` returns no error. -/
def verifyWitness (s : State) : Bool :=
  verifyAudit env.sha256 s.audit &&
    s.witnessCheckpoints.all fun cp => cp.matchesChain s.audit && cp.isSigned env

end Aok.Runtime
