import Aok.Runtime.Runs

/-!
# Issuing and attenuating capability tokens

A grant's action is a name, `*`, or a directory with everything below it, written `base/**`.
Attenuation admits a requested grant that one of the token's grants contains, and containment
is checked as if the requested action were a path. An action `base/**/**` contains the action
`base/**` in this sense, which then allows every path below `base`. Where no token that is
attenuated carries such an action, containment is transitive and attenuation never widens.
-/

namespace Aok.Runtime
open Lib Lib.Utf8 Lib.JsonText Lib.Command List
open Relation

variable {K : Type}

/-! ## Minting and attenuating -/

/-- `ed25519.Sign`, by the private key and the message. -/
structure Signing where
  sign : Bytes → Bytes → Bytes
  length_sign : ∀ key message, (sign key message).length = 64

/-- `private.Public()`: the second half of the private key. -/
def publicOf (key : Bytes) : Bytes := key.drop 32

/-- The zero `time.Time` in nanoseconds since 1970. -/
def zeroTime : ℤ := -62135596800 * 1000000000

def signToken (sig : Signing) (t : CapabilityToken) (key : Bytes) : CapabilityToken :=
  { t with signature := sig.sign key (tokenBytes t) }

def mintCapabilityToken (sig : Signing) (key : Bytes) (issuer subject : GoString) (expiresAt : ℤ)
    (grants : List CapabilityGrant) : Except Err CapabilityToken :=
  if key.length ≠ 64 ∨ issuer = [] ∨ subject = [] ∨ expiresAt = zeroTime ∨ grants = [] then
    .error (.new "invalid capability token claims")
  else
    .ok (signToken sig
      ⟨issuer, subject, expiresAt / 1000000000, publicOf key, grants, [], []⟩ key)

/-- The error of `Verify`: the fields are checked before the signature. -/
def CapabilityToken.verifyError (t : CapabilityToken) (time : ℤ) : Err :=
  if t.publicKey.length ≠ 32 ∨ t.signature.length ≠ 64 ∨ t.issuer = [] ∨ t.subject = [] ∨
      t.expiresAt < time / 1000000000 then
    .new "invalid or expired capability token"
  else .new "capability token signature mismatch"

def CapabilityToken.narrow (t : CapabilityToken) (grants : List CapabilityGrant) :
    List CapabilityGrant :=
  grants.filter fun candidate => t.grants.any fun parent => grantContains parent candidate

/-- `Attenuate` at a time in nanoseconds. -/
def CapabilityToken.attenuate (env : Env K) (sig : Signing) (time : ℤ) (t : CapabilityToken)
    (key : Bytes) (caveat : GoString) (grants : List CapabilityGrant) :
    Except Err CapabilityToken :=
  if t.verifies env time = false then .error (t.verifyError time)
  else if key.length ≠ 64 ∨ caveat = [] ∨ grants = [] ∨
      bytesEqual env (publicOf key) t.publicKey = false then
    .error (.new "invalid attenuation")
  else if t.narrow grants = [] then .error (.new "attenuation removes all grants")
  else .ok (signToken sig
    { t with grants := t.narrow grants, caveats := t.caveats ++ [caveat] } key)

/-- Some call of `MintCapabilityToken` returns the token. -/
def IsMinted (sig : Signing) (t : CapabilityToken) : Prop :=
  ∃ key issuer subject expiresAt grants,
    mintCapabilityToken sig key issuer subject expiresAt grants = .ok t

/-- Some call of `Attenuate` on the first token returns the second. -/
def Attenuates (env : Env K) (sig : Signing) (t u : CapabilityToken) : Prop :=
  ∃ time key caveat grants, t.attenuate env sig time key caveat grants = .ok u

variable {env : Env K} {sig : Signing} {t u : CapabilityToken}

theorem Attenuates.spec (h : Attenuates env sig t u) : ∃ time key caveat grants,
    t.verifies env time = true ∧ u = signToken sig
      { t with grants := t.narrow grants, caveats := t.caveats ++ [caveat] } key := by
  obtain ⟨time, key, caveat, grants, h⟩ := h
  unfold CapabilityToken.attenuate at h
  split_ifs at h with hverify
  exact ⟨time, key, caveat, grants, by simpa using hverify, (Except.ok.inj h).symm⟩

/-! ## Containment of grants -/

def Below (base path : GoString) : Prop := path = base ∨ base ++ [slash] <+: path

theorem Below.trans {a b c : GoString} (h : Below a b) (h' : Below b c) : Below a c := by
  rcases h with rfl | h
  · exact h'
  · rcases h' with rfl | h'
    · exact .inr h
    · exact .inr (h.trans ((prefix_append b [slash]).trans h'))

theorem grantContains_iff {p c : CapabilityGrant} : grantContains p c = true ↔
    p.object = c.object ∧ (p.action = c.action ∨ p.action = lit "*" ∨
      ∃ base, p.action = base ++ lit "/**" ∧ isAbs c.action = true ∧
        cleanPath c.action = c.action ∧ Below base c.action) := by
  unfold grantContains
  by_cases hobj : p.object = c.object
  · by_cases hact : p.action = c.action ∨ p.action = lit "*"
    · simp only [hobj, ne_eq, not_true_eq_false, if_false, hact, if_true, true_and, true_iff]
      exact hact.imp_right .inl
    · obtain ⟨hne, hstar⟩ := not_or.mp hact
      simp only [hobj, ne_eq, not_true_eq_false, if_false, hne, hstar, true_and, false_or]
      by_cases hsuffix : (lit "/**").isSuffixOf p.action = true
      · obtain ⟨base, hbase⟩ := isSuffixOf_iff_suffix.mp hsuffix
        have htrim : trimSuffix (lit "/**") p.action = base := by
          unfold trimSuffix
          rw [if_pos hsuffix, ← hbase]
          simp
        have huniq : ∀ b, p.action = b ++ lit "/**" ↔ b = base := by
          intro b
          rw [← hbase]
          constructor
          · exact fun h => (append_cancel_right h).symm
          · rintro rfl
            rfl
        simp [hsuffix, htrim, huniq, Below, and_assoc, isPrefixOf_iff_prefix]
      · have hno : ¬ ∃ base, p.action = base ++ lit "/**" ∧ isAbs c.action = true ∧
            cleanPath c.action = c.action ∧ Below base c.action := by
          rintro ⟨base, hbase, -⟩
          exact hsuffix (isSuffixOf_iff_suffix.mpr ⟨base, hbase.symm⟩)
        simp [hsuffix, hno]
  · simp [hobj]

theorem below_of_pattern {base base' : GoString} (h : base ++ [slash] <+: base' ++ lit "/**") :
    Below base base' := by
  rcases Nat.lt_or_ge base.length base'.length with hlt | hge
  · exact .inr (prefix_of_prefix_length_le h (prefix_append _ _) (by simpa using hlt))
  · have hb : base' <+: base := prefix_of_prefix_length_le (prefix_append _ _)
      ((prefix_append base [slash]).trans h) hge
    obtain ⟨x, rfl⟩ := hb
    obtain ⟨r, hr⟩ := h
    -- what is left of the pattern starts with the rest of the directory and a slash
    have hrest : x ++ slash :: r = [0x2F, 0x2A, 0x2A] := by
      have : base' ++ (x ++ slash :: r) = base' ++ lit "/**" := by simpa using hr
      exact append_cancel_left this
    match x, hrest with
    | [], _ => exact .inl (by simp)
    | [a], hrest => exact absurd hrest (by simp [slash])
    | [a, b], hrest => exact absurd hrest (by simp [slash])
    | a :: b :: c :: x, hrest => exact absurd (congrArg length hrest) (by simp)

def IsPlain (grants : List CapabilityGrant) : Prop :=
  ∀ g ∈ grants, ¬ lit "/**/**" <:+ g.action

theorem grantContains_trans {p c g : CapabilityGrant} (hp : ¬ lit "/**/**" <:+ p.action)
    (h : grantContains p c = true) (h' : grantContains c g = true) :
    grantContains p g = true := by
  rw [grantContains_iff] at h h' ⊢
  refine ⟨h.1.trans h'.1, ?_⟩
  rcases h.2 with heq | hstar | ⟨base, hbase, habs, hclean, hbelow⟩
  · rw [heq]
    exact h'.2
  · exact .inr (.inl hstar)
  · rcases h'.2 with heq | hstar | ⟨base', hbase', habs', hclean', hbelow'⟩
    · rw [← heq]
      exact .inr (.inr ⟨base, hbase, habs, hclean, hbelow⟩)
    · rw [hstar] at habs
      exact absurd habs (by decide)
    · refine .inr (.inr ⟨base, hbase, habs', hclean', ?_⟩)
      rcases hbelow with hc | hc
      · -- the requested pattern is the directory of the granted one
        exact absurd ⟨base', by rw [hbase, ← hc, hbase', append_assoc]; rfl⟩ hp
      · rw [hbase'] at hc
        exact (below_of_pattern hc).trans hbelow'

/-! ## Chains of attenuations -/

theorem Attenuates.allows (hp : IsPlain t.grants) (h : Attenuates env sig t u)
    {object action : GoString} (ha : u.allows object action = true) :
    t.allows object action = true := by
  obtain ⟨time, key, caveat, grants, -, rfl⟩ := h.spec
  simp only [CapabilityToken.allows, signToken, CapabilityToken.narrow, any_eq_true,
    mem_filter, Bool.and_eq_true, beq_iff_eq] at ha ⊢
  obtain ⟨g, ⟨-, parent, hparent, hcontains⟩, -, hg⟩ := ha
  have hall : grantContains parent ⟨object, action⟩ = true :=
    grantContains_trans (hp parent hparent) hcontains hg
  exact ⟨parent, hparent, (grantContains_iff.mp hall).1, hall⟩

/-- Along a chain of attenuations in which no attenuated token carries an action that ends in a
doubled pattern, what the last token allows every earlier token of the chain allows. -/
theorem allows_of_attenuated
    (h : ReflTransGen (fun t u => IsPlain t.grants ∧ Attenuates env sig t u) t u)
    (object action : GoString) (ha : u.allows object action = true) :
    t.allows object action = true := by
  induction h with
  | refl => exact ha
  | tail _ hstep ih => exact ih (hstep.2.allows hstep.1 ha)

namespace Sample

/-- Every message has the same signature, which the calm environment accepts. -/
def signing : Signing := ⟨fun _ _ => replicate 64 0, fun _ _ => by simp⟩

def key : Bytes := replicate 64 0

def subject : GoString := lit "s"

def reads (action : String) : List CapabilityGrant := [⟨lit "fs.read", lit action⟩]

def mint (action : String) : Except Err CapabilityToken :=
  mintCapabilityToken signing key (lit "i") subject 1000000000 (reads action)

example : (mint "/a/**").toOption.isSome := by decide +kernel

def narrowed (env : Env Unit) (caveat action : String) (t : CapabilityToken) :
    Except Err CapabilityToken :=
  t.attenuate env signing 0 key (lit caveat) (reads action)

theorem isMinted {action : String} {t : CapabilityToken} (h : (mint action).toOption = some t) :
    IsMinted signing t :=
  ⟨_, _, _, _, _, ok_of_toOption h⟩

theorem attenuates {env : Env Unit} {caveat action : String} {t u : CapabilityToken}
    (h : (narrowed env caveat action t).toOption = some u) : Attenuates env signing t u :=
  ⟨_, _, _, _, ok_of_toOption h⟩

end Sample

open Sample

instance (grants : List CapabilityGrant) : Decidable (IsPlain grants) :=
  inferInstanceAs (Decidable (∀ g ∈ grants, ¬ lit "/**/**" <:+ g.action))

/-- From `/a/**` over `/a/b/**` to `/a/b/c`. -/
theorem allows_of_attenuated_twice : ∃ t u v : CapabilityToken,
    IsMinted signing t ∧ Attenuates calm signing t u ∧
    Attenuates calm signing u v ∧
    v.allows (lit "fs.read") (lit "/a/b/c") = true ∧
    t.allows (lit "fs.read") (lit "/a/b/c") = true := by
  have h : ∃ t, (mint "/a/**").toOption = some t ∧ IsPlain t.grants ∧
      ∃ u, (narrowed calm "c" "/a/b/**" t).toOption = some u ∧ IsPlain u.grants ∧
      ∃ v, (narrowed calm "d" "/a/b/c" u).toOption = some v ∧
      v.allows (lit "fs.read") (lit "/a/b/c") = true := by
    decide +kernel
  obtain ⟨t, ht, htp, u, hu, hup, v, hv, ha⟩ := h
  have hchain : ReflTransGen
      (fun t u => IsPlain t.grants ∧ Attenuates calm signing t u) t v :=
    .tail (.single ⟨htp, attenuates hu⟩) ⟨hup, attenuates hv⟩
  exact ⟨t, u, v, isMinted ht, attenuates hu, attenuates hv, ha,
    allows_of_attenuated hchain _ _ ha⟩

/-- A token for `/a/**/**` does not allow `/a/x`; attenuated to `/a/**` it does. -/
theorem exists_attenuation_widens : ∃ t u : CapabilityToken,
    IsMinted signing t ∧ Attenuates calm signing t u ∧
    u.allows (lit "fs.read") (lit "/a/x") = true ∧
    t.allows (lit "fs.read") (lit "/a/x") = false := by
  have h : ∃ t, (mint "/a/**/**").toOption = some t ∧
      ∃ u, (narrowed calm "c" "/a/**" t).toOption = some u ∧
      u.allows (lit "fs.read") (lit "/a/x") = true ∧
      t.allows (lit "fs.read") (lit "/a/x") = false := by
    decide +kernel
  obtain ⟨t, ht, u, hu, ha⟩ := h
  exact ⟨t, u, isMinted ht, attenuates hu, ha⟩

end Aok.Runtime
