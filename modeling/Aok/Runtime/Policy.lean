import Aok.Runtime.Supervisor

/-!
# Capabilities

Paths, tokens and the policy a capability check consults, with the revocation registry.
-/

namespace Aok.Runtime
open Lib Lib.Utf8 Lib.JsonText Lib.Command

/-! ## Paths -/

def slash : UInt8 := 0x2F

def splitPath (p : GoString) : List GoString := p.splitOn slash

/-- The stack of components `filepath.Clean` keeps, innermost first. -/
def cleanStep (rooted : Bool) (stack : List GoString) (part : GoString) : List GoString :=
  if part = [] ∨ part = lit "." then stack
  else if part = lit ".." then
    match stack with
    | [] => if rooted then [] else [part]
    | top :: rest => if top = lit ".." then part :: stack else rest
  else part :: stack

def isAbs (p : GoString) : Bool := p.head? == some slash

/-- `filepath.Clean`. -/
def cleanPath (p : GoString) : GoString :=
  let kept := ((splitPath p).foldl (cleanStep (isAbs p)) []).reverse
  let joined := [slash].intercalate kept
  if isAbs p then slash :: joined
  else if joined = [] then lit "." else joined

example : cleanPath (lit "/a/./b//../c/") = lit "/a/c" := by decide
example : cleanPath (lit "../x/..") = lit ".." := by decide

def trimSuffix (suffix s : GoString) : GoString :=
  if suffix.isSuffixOf s then s.take (s.length - suffix.length) else s

/-! ## Tokens -/

structure CapabilityGrant where
  object : GoString
  action : GoString
deriving DecidableEq

structure CapabilityToken where
  issuer : GoString
  subject : GoString
  expiresAt : ℤ
  publicKey : Bytes
  grants : List CapabilityGrant
  caveats : List GoString
  signature : Bytes
deriving DecidableEq

def grantContains (parent child : CapabilityGrant) : Bool :=
  if parent.object ≠ child.object then false
  else if parent.action = child.action ∨ parent.action = lit "*" then true
  else if (lit "/**").isSuffixOf parent.action then
    let base := trimSuffix (lit "/**") parent.action
    isAbs child.action && cleanPath child.action == child.action &&
      (child.action == base || (base ++ [slash]).isPrefixOf child.action)
  else false

def base64Digit (n : ℕ) : UInt8 :=
  if n < 26 then UInt8.ofNat (0x41 + n)
  else if n < 52 then UInt8.ofNat (0x61 + (n - 26))
  else if n < 62 then UInt8.ofNat (0x30 + (n - 52))
  else if n = 62 then 0x2B else 0x2F

def base64 : Bytes → Bytes
  | [] => []
  | [a] => [base64Digit (a.toNat / 4), base64Digit (a.toNat % 4 * 16), 0x3D, 0x3D]
  | [a, b] => [base64Digit (a.toNat / 4), base64Digit (a.toNat % 4 * 16 + b.toNat / 16),
      base64Digit (b.toNat % 16 * 4), 0x3D]
  | a :: b :: c :: rest =>
    base64Digit (a.toNat / 4) :: base64Digit (a.toNat % 4 * 16 + b.toNat / 16) ::
      base64Digit (b.toNat % 16 * 4 + c.toNat / 64) :: base64Digit (c.toNat % 64) :: base64 rest

def grantText (g : CapabilityGrant) : Bytes :=
  object [member "object" (quote g.object), member "action" (quote g.action)]

/-- `tokenBytes`: the JSON text of the token without its signature. -/
def tokenBytes (t : CapabilityToken) : Bytes :=
  object ([member "issuer" (quote t.issuer), member "subject" (quote t.subject),
      member "expires_at" (decInt t.expiresAt), member "public_key" (quote (base64 t.publicKey)),
      member "grants" (if t.grants = [] then lit "null" else array (t.grants.map grantText))] ++
    (if t.caveats = [] then [] else [member "caveats" (array (t.caveats.map quote))]) ++
    [member "signature" (lit "null")])

variable {K : Type} (env : Env K)

/-- `Verify` at a time in nanoseconds. -/
def CapabilityToken.verifies (t : CapabilityToken) (time : ℤ) : Bool :=
  t.publicKey.length == 32 && t.signature.length == 64 && t.issuer != [] && t.subject != [] &&
    time / 1000000000 ≤ t.expiresAt && env.ed25519 t.publicKey (tokenBytes t) t.signature

def CapabilityToken.allows (t : CapabilityToken) (object action : GoString) : Bool :=
  t.grants.any fun g => g.object == object && grantContains g ⟨object, action⟩

def tokenDigest (t : CapabilityToken) : GoString :=
  (env.sha256 (tokenBytes t ++ t.signature)).text

/-- `bytesEqual` compares sums. -/
def bytesEqual (a b : Bytes) : Bool := (env.sha256 a).text == (env.sha256 b).text

/-- `revokedBy`: the revoked token itself or one with strictly more caveats. -/
def RevokedToken.revokedBy (r : RevokedToken) (t : CapabilityToken) : Bool :=
  r.subject == t.subject && bytesEqual env r.publicKey t.publicKey &&
    (tokenDigest env t == r.digest ||
      (r.caveats.length < t.caveats.length && r.caveats.isPrefixOf t.caveats))

/-! ## The policy -/

structure CedarRule where
  allow : Bool
  principal : GoString
  object : GoString
  action : GoString
deriving DecidableEq

def matchName (rule value : GoString) : Bool := rule == lit "*" || rule == value

def matchAction (rule value : GoString) : Bool :=
  rule == lit "*" || rule == value || grantContains ⟨[], rule⟩ ⟨[], value⟩

/-- `CedarPolicy.Evaluate`: a matching deny rule wins. -/
def evaluate (rules : List CedarRule) (principal object action : GoString) : Bool :=
  let matching := rules.filter fun r =>
    matchName r.principal principal && matchName r.object object && matchAction r.action action
  matching.all (fun r => r.allow) && matching.any fun r => r.allow

/-- `cedarPolicyFromCapabilitySet`. -/
def CapabilitySet.rules (p : CapabilitySet) : List CedarRule :=
  (if p.net then [⟨true, lit "*", lit "net", lit "*"⟩] else []) ++
    p.tools.map (fun t => ⟨true, lit "*", lit "tool", t⟩) ++
    p.fsRead.map (fun f => ⟨true, lit "*", lit "fs.read", f⟩) ++
    p.fsWrite.map (fun f => ⟨true, lit "*", lit "fs.write", f⟩)

/-- `checkToken`, with no token for `Check` and one for `CheckWithToken`. -/
def checkToken (principal applicationID object action : GoString)
    (token : Option CapabilityToken) : Op K Unit := do
  let t ← now env
  let s ← getState
  let authorized := evaluate env.policy.rules principal object action &&
    token.all fun k => k.verifies env t && k.subject == principal && k.allows object action
  let revoked := token.any fun k => s.revokedTokens.any fun r => r.revokedBy env k
  let available := (s.applications[applicationID]?).any fun a => a.state != .tombstoned
  let allowed := authorized && !revoked && available
  let reason :=
    if allowed then []
    else if !available then lit "application unavailable"
    else if object ∉ [lit "net", lit "tool", lit "fs.read", lit "fs.write"] then
      lit "unknown object"
    else if revoked then lit "capability revoked"
    else lit "policy"
  auditLocked env principal applicationID action object
    (if allowed then lit "allow" else lit "deny") reason
  persistLocked env
  require (allowed = true) .capabilityDenied

def maxRevokedTokens : ℕ := 1024

def revokeCapabilityToken (principal : GoString) (token : CapabilityToken) (reason : GoString) :
    Op K Unit := do
  let t ← now env
  require (token.verifies env t) (.new "revocation requires a verifiable token")
  require (reason.length ≤ 256) (.new "invalid revocation reason")
  let digest := tokenDigest env token
  let s ← getState
  if s.revokedTokens.any fun r => r.digest == digest then pure ()
  else if maxRevokedTokens ≤ s.revokedTokens.length then do
    auditLocked env principal [] (lit "capability.revoke") digest (lit "deny") (lit "registry full")
    persistLocked env
    fail .revocationCapacity
  else do
    let t ← now env
    editState fun s => { s with
      revokedTokens := s.revokedTokens ++
        [⟨digest, token.publicKey, token.subject, token.caveats, t, reason⟩] }
    auditLocked env principal [] (lit "capability.revoke") digest (lit "allow")
      ((lit "|").intercalate token.caveats)
    persistLocked env

end Aok.Runtime
