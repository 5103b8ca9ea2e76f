import Aok.Runtime.Commits
import Aok.Runtime.Contents
import Aok.Runtime.TokenTexts

/-!
# Revoked tokens

The registry keeps of a revoked token its digest, key, subject and caveats. A token is taken
for revoked if its digest is there, or if an entry with its key and subject has fewer caveats
and they start its own. Every attenuation adds a caveat, so what is derived from a revoked token
is revoked; but two tokens of one key and subject can have the same caveats, and what is
derived from one of them is then revoked with the other.
-/

namespace Aok.Runtime
open Lib Lib.Utf8 Lib.JsonText Lib.JsonValue Lib.Command Lib.Journal List CapabilityToken
open Relation

variable {K : Type} {U P : Prop} {S : Terms} {env : Env K} {sig : Signing} {t u : CapabilityToken}
  {c c' : Core} {s s' : System K} {e : Event K} {w : World K}
variable {T : Set CapabilityToken} {l : List RevokedToken} {principal : GoString}

/-! ## Entries -/

def RevokedToken.mark (r : RevokedToken) : RevokedToken := { r with time := 0, reason := [] }

def CapabilityToken.mark (env : Env K) (t : CapabilityToken) : RevokedToken :=
  ⟨tokenDigest env t, t.publicKey, t.subject, t.caveats, 0, []⟩

/-- `tokenRevokedLocked`. -/
def tokenRevoked (env : Env K) (registry : List RevokedToken) (t : CapabilityToken) : Bool :=
  registry.any fun r => r.revokedBy env t

theorem tokenRevoked_map_mark (l : List RevokedToken) (t : CapabilityToken) :
    tokenRevoked env (l.map RevokedToken.mark) t = tokenRevoked env l t := by
  simp only [tokenRevoked, any_map]
  rfl

structure Descends (t u : CapabilityToken) : Prop where
  subject : u.subject = t.subject
  publicKey : u.publicKey = t.publicKey
  issuer : u.issuer = t.issuer
  caveats : u = t ∨ t.caveats.length < u.caveats.length ∧ t.caveats <+: u.caveats

theorem descends_of_attenuated (h : ReflTransGen (Attenuates env sig) t u) : Descends t u := by
  induction h with
  | refl => exact ⟨rfl, rfl, rfl, .inl rfl⟩
  | tail _ hstep ih =>
    obtain ⟨time, key, caveat, grants, -, rfl⟩ := hstep.spec
    refine ⟨ih.subject, ih.publicKey, ih.issuer, .inr ?_⟩
    rcases ih.caveats with rfl | ⟨hlt, hpre⟩
    · simp [signToken]
    · exact ⟨by simp [signToken]; omega, hpre.trans (prefix_append _ _)⟩

theorem mark_revokes (h : ReflTransGen (Attenuates env sig) t u) :
    (t.mark env).revokedBy env u = true := by
  have hd := descends_of_attenuated h
  simp only [RevokedToken.revokedBy, mark, hd.subject, hd.publicKey, bytesEqual,
    beq_self_eq_true, Bool.true_and, Bool.or_eq_true, Bool.and_eq_true]
  rcases hd.caveats with rfl | ⟨hlt, hpre⟩
  · exact .inl (by simp)
  · exact .inr ⟨decide_eq_true hlt, isPrefixOf_iff_prefix.mpr hpre⟩

/-! ## The texts that are hashed -/

/-- What `tokenDigest` hashes. -/
def CapabilityToken.hashed (t : CapabilityToken) : Bytes := tokenBytes t ++ t.signature

theorem sha256_text_inj {D : Set Bytes} (hinj : Set.InjOn env.sha256 D) {x y : Bytes} (hx : x ∈ D)
    (hy : y ∈ D) (h : (env.sha256 x).text = (env.sha256 y).text) : x = y := by
  refine hinj hx hy ?_
  generalize env.sha256 x = a at h ⊢
  generalize env.sha256 y = b at h ⊢
  obtain ⟨⟨a, _⟩, _⟩ := a
  obtain ⟨⟨b, _⟩, _⟩ := b
  cases h
  rfl

theorem token_eq_of_hashed (ht : t.IsValid) (hu : u.IsValid) (hlt : t.signature.length = 64)
    (hlu : u.signature.length = 64) (h : t.hashed = u.hashed) : t = u := by
  obtain ⟨hbytes, hsig⟩ := append_inj' h (hlt.trans hlu.symm)
  rw [tokenBytes_inj ht hu hbytes, hsig]

theorem token_eq_of_digest {D : Set Bytes} (hinj : Set.InjOn env.sha256 D) (htD : t.hashed ∈ D)
    (huD : u.hashed ∈ D) (ht : t.IsValid) (hu : u.IsValid) (hlt : t.signature.length = 64)
    (hlu : u.signature.length = 64) (h : tokenDigest env t = tokenDigest env u) : t = u :=
  token_eq_of_hashed ht hu hlt hlu (sha256_text_inj hinj htD huD h)

/-! ## The registry -/

def Marked (l : List RevokedToken) (c : Core) : Prop :=
  c.state.revokedTokens.map RevokedToken.mark = l

def MarksOf (env : Env K) (T : Set CapabilityToken) (l : List RevokedToken) : Prop :=
  ∀ r ∈ l, ∃ t ∈ T, t.IsValid ∧ t.signature.length = 64 ∧ r = t.mark env

theorem mark_image_eq {r : RevokedToken} (ht : t.IsValid) (h : r.mark = t.mark env) :
    r.image.mark = t.mark env := by
  have hmarks : r.digest = tokenDigest env t ∧ r.publicKey = t.publicKey ∧ r.subject = t.subject ∧
      r.caveats = t.caveats := by
    simpa [RevokedToken.mark, mark] using h
  obtain ⟨hdigest, hkey, hsubject, hcaveats⟩ := hmarks
  have hcaveats' : t.caveats.map sanitize = t.caveats := by
    rw [map_congr_left fun x hx => sanitize_of_valid (ht.caveats hx), map_id']
  simp only [RevokedToken.image, RevokedToken.mark, mark, hdigest, hkey, hsubject,
    hcaveats, hcaveats', sanitize_of_valid ht.subject]
  rw [tokenDigest, sanitize_of_valid (HexText.valid _)]

theorem Marked.reopen (hl : MarksOf env T l)
    (h : Marked l c) : Marked l (codec.reopen (codec.save c)) := by
  subst h
  refine (List.map_map ..).trans (map_congr_left fun r hr => ?_)
  obtain ⟨t, -, hvalid, -, ht⟩ := hl r.mark (mem_map_of_mem hr)
  exact (mark_image_eq hvalid ht).trans ht.symm

theorem marked_lasting (hl : MarksOf env T l)
    (hS : ¬ S.writes .registry) : Lasting U S env (Marked l) where
  change := by
    intro k c c' h hc
    cases h with
    | side hf | shelf hf => rw [Marked, hf.registry.resolve_left hS]; exact hc
    | audit | application | messages | register | enqueue | stage | settle => exact hc
    | cosign => simpa [Marked] using hc
  reopen := fun _ hc => hc.reopen hl

def Enters (env : Env K) (t : CapabilityToken) (c : Core) : Store Core State → Prop :=
  Commits fun c' => t.signature.length = 64 ∧ c'.state.revokedTokens.map RevokedToken.mark =
    c.state.revokedTokens.map RevokedToken.mark ++ [t.mark env]

theorem verifies_length {time : ℤ} (h : t.verifies env time = true) : t.signature.length = 64 := by
  simp only [verifies, Bool.and_eq_true, beq_iff_eq] at h
  exact h.1.1.1.1.2

theorem revokeCapabilityToken_transacts {reason : GoString} :
    Transacts w.store (fun _ st => (st = w.store ∧ t.signature.length = 64 ∧
        ∃ r ∈ w.sup.core.state.revokedTokens, r.digest = tokenDigest env t) ∨
        Enters env t w.sup.core st)
      (fun _ => Commits fun c' => c'.state.revokedTokens = w.sup.core.state.revokedTokens)
      (revokeCapabilityToken env principal t reason) w := by
  unfold revokeCapabilityToken
  refine .now fun n => ?_
  refine .require rfl fun hverify => ?_
  refine .require rfl fun _ => ?_
  refine .getState ?_
  have hlength := verifies_length hverify
  split_ifs with hfound hfull
  · obtain ⟨r, hr, hdigest⟩ := any_eq_true.mp hfound
    exact .pure (.inl ⟨rfl, hlength, r, hr, by simpa using hdigest⟩)
  · refine .audit fun t n => ?_
    refine .persist rfl rfl fun n => ?_
    exact .fail_of ⟨_, rfl, rfl⟩
  · refine .now fun n => ?_
    refine .editState ?_
    refine .audit fun t n => ?_
    refine .persist_last rfl rfl (.inr ⟨_, rfl, hlength, ?_⟩)
    simp only [World.setCore, Core.audit, Core.withState, map_append, map_cons,
      map_nil]
    rfl

/-! ## Runs -/

def Event.RevokesIn (T : Set CapabilityToken) : Event K → Prop
  | .call (.revokeCapabilityToken _ t _) => t ∈ T
  | _ => True

theorem revoke_step {reason : GoString}
    (hvalid : ∀ t ∈ T, t.IsValid) (ht : t ∈ T) (hl : MarksOf env T l) (hup : s.up = true)
    (hstep : step env s (.call (.revokeCapabilityToken principal t reason)) = some s')
    (h : s.Holds (Marked l)) :
    ((revokeCapabilityToken env principal t reason s.world).1 = .ok () ∧ t.signature.length = 64 ∧
      ((∃ r ∈ l, r.digest = tokenDigest env t) ∧ s'.Holds (Marked l) ∨
        s'.Holds (Marked (l ++ [t.mark env])) ∧ MarksOf env T (l ++ [t.mark env]))) ∨
    ((revokeCapabilityToken env principal t reason s.world).1 ≠ .ok () ∧ s'.Holds (Marked l)) := by
  simp only [step, hup, if_true, stepUp, Option.some.injEq] at hstep
  subst hstep
  have hlive : s.world.sup.core.state.revokedTokens.map RevokedToken.mark = l := (h.store hup).live
  have hcommit : ∀ {t' : System K} {l' : List RevokedToken} {c' : Core},
      t'.world.store = codec.commit c' → MarksOf env T l' → Marked l' c' →
      t'.Holds (Marked l') := fun hc hl' hm => .of_commit hc hm (hm.reopen hl')
  have hnext : ∀ (r : Except Err Unit) (s : System K), ((fun _ s => s) r s).world = s.world :=
    fun _ _ => rfl
  rcases perform_transacts (c := revokeCapabilityToken env principal t reason) hup
      revokeCapabilityToken_transacts hnext with
    ⟨a, hok, h'⟩ | ⟨hnot, hkeep | ⟨x, -, c', hc', heq⟩⟩
  · refine .inl ⟨hok, ?_⟩
    rcases h' with ⟨hsame, hlength, r, hr, hdigest⟩ | ⟨c', hc', hlength, hmarks⟩
    · refine ⟨hlength, .inl ⟨⟨r.mark, hlive ▸ mem_map_of_mem hr, hdigest⟩, ?_⟩⟩
      exact System.Keeps.of_undone hup (.inl hsame) _ h
    · have hall : MarksOf env T (l ++ [t.mark env]) := by
        intro r hr
        rcases mem_append.mp hr with hr | hr
        · exact hl r hr
        · cases mem_singleton.mp hr
          exact ⟨t, ht, hvalid t ht, hlength, rfl⟩
      exact ⟨hlength, .inr ⟨hcommit hc' hall (hmarks.trans (by rw [hlive])), hall⟩⟩
  · exact .inr ⟨hnot (), hkeep _ h⟩
  · exact .inr ⟨hnot (), hcommit hc' hl ((congrArg _ heq).trans hlive)⟩

theorem step_registry (hvalid : ∀ t ∈ T, t.IsValid) (hl : MarksOf env T l) (hs : s.Safe False)
    (he : e.IsFresh env s ∧ e.RevokesIn T) (hstep : step env s e = some s')
    (h : s.Holds (Marked l)) : ∃ l', l <+: l' ∧ MarksOf env T l' ∧ s'.Holds (Marked l') := by
  by_cases hw : e.Writes s .registry
  · have hup := up_of_writes hw hstep
    cases e with
    | call c =>
      cases c with
      | revokeCapabilityToken p t r =>
        rcases revoke_step hvalid he.2 hl hup hstep h with ⟨-, -, ⟨-, h'⟩ | ⟨h', hl'⟩⟩ | ⟨-, h'⟩
        · exact ⟨l, prefix_rfl, hl, h'⟩
        · exact ⟨_, prefix_append _ _, hl', h'⟩
        · exact ⟨l, prefix_rfl, hl, h'⟩
      | _ => simp [Event.Writes, Call.Writes] at hw
    | _ => simp [Event.Writes] at hw
  · exact ⟨l, prefix_rfl, hl, h.step (marked_lasting hl hw) hs (.ownFresh he.1) hstep⟩

theorem Reachable.registry (hvalid : ∀ t ∈ T, t.IsValid)
    (h : Reachable env (fun s e => e.IsFresh env s ∧ e.RevokesIn T) s) :
    ∃ l, MarksOf env T l ∧ s.Holds (Marked l) := by
  refine h.invariant (U := False) (S := .all False) (P := False)
    (I := fun s => ∃ l, MarksOf env T l ∧ s.Holds (Marked l))
    (fun s e he => .ofFresh he.1 (fun h => h.elim) fun h => h.elim)
    (fun k => ⟨[], by simp [MarksOf], rfl, by simp [System.initial]⟩) ?_
  rintro s e s' hs he hstep ⟨l, hl, hm⟩
  obtain ⟨l', -, hl', hm'⟩ := step_registry hvalid hl hs he hstep hm
  exact ⟨l', hl', hm'⟩

theorem Run.registry (hvalid : ∀ t ∈ T, t.IsValid) (hs : s.Safe False) (hl : MarksOf env T l)
    (h : s.Holds (Marked l)) (hr : Run env (fun s e => e.IsFresh env s ∧ e.RevokesIn T) s s') :
    ∃ l', l <+: l' ∧ MarksOf env T l' ∧ s'.Holds (Marked l') := by
  have hC : ∀ (s : System K) (e : Event K), e.IsFresh env s ∧ e.RevokesIn T →
      Allowed False (.all False) False env s e := fun s e he =>
    .ofFresh he.1 (fun h => h.elim) fun h => h.elim
  induction hr with
  | refl => exact ⟨l, prefix_rfl, hl, h⟩
  | tail hr hnext ih =>
    obtain ⟨e, he, hstep⟩ := hnext
    obtain ⟨l₁, hpre, hl₁, h₁⟩ := ih
    obtain ⟨l₂, hpre', hl₂, h₂⟩ := step_registry hvalid hl₁ (Run.safe hC hr hs) he hstep h₁
    exact ⟨l₂, hpre.trans hpre', hl₂, h₂⟩

theorem checkToken_denied {id object action : GoString}
    (h : tokenRevoked env w.sup.core.state.revokedTokens u = true) :
    (checkToken env principal id object action (some u) w).1 ≠ .ok () := by
  have hends : Ends (checkToken env principal id object action (some u)) w (fun _ _ => False)
      (fun _ _ => True) fun _ => True := by
    have hrevoked : (w.sup.core.state.revokedTokens.any fun r => r.revokedBy env u) = true := h
    simp only [checkToken, ends_bind, now, ends_question, ends_getState, auditLocked, ends_editCore,
      Option.any_some]
    refine persistLocked_ends (ends_require.mpr ⟨fun ha => ?_, fun _ => trivial⟩)
      (fun _ => trivial) trivial
    simp only [Bool.and_eq_true, Bool.not_eq_true'] at ha
    rw [ha.1.2] at hrevoked
    cases hrevoked
  exact fun hok => hends.value hok

/-- In every run in which the revoked tokens are of valid UTF-8 and SHA-256 tells them apart: once
a token was revoked, no check with it or with a token derived from it succeeds in any later
state, and a revocation that is refused for capacity leaves all entries. -/
theorem revoked_stays_denied {T : Set CapabilityToken} (hvalid : ∀ t ∈ T, t.IsValid)
    (hinj : Set.InjOn env.sha256 (hashed '' T))
    (h : Reachable env (fun s e => e.IsFresh env s ∧ e.RevokesIn T) s) (hup : s.up = true)
    (ht : t ∈ T) {principal reason : GoString}
    (hstep : step env s (.call (.revokeCapabilityToken principal t reason)) = some s') :
    ((revokeCapabilityToken env principal t reason s.world).1 = .ok () →
      ∀ s₂, Run env (fun s e => e.IsFresh env s ∧ e.RevokesIn T) s' s₂ → s₂.up = true →
      ∀ u, ReflTransGen (Attenuates env sig) t u → ∀ principal id object action,
        (checkToken env principal id object action (some u) s₂.world).1 ≠ .ok ()) ∧
    ((revokeCapabilityToken env principal t reason s.world).1 = .error .revocationCapacity →
      ∀ l, s.Holds (Marked l) → s'.Holds (Marked l)) := by
  obtain ⟨l, hl, hm⟩ := h.registry hvalid
  have hsafe := h.safe (U := False) (S := .all False) (P := False) fun s e he =>
    .ofFresh he.1 (fun h => h.elim) fun h => h.elim
  have he : (Event.call (K := K) (.revokeCapabilityToken principal t reason)).IsFresh env s ∧
      (Event.call (K := K) (.revokeCapabilityToken principal t reason)).RevokesIn T :=
    ⟨trivial, ht⟩
  refine ⟨fun hok s₂ hr hup₂ u hu p i o a => ?_, fun hfull l₀ hl₀ => ?_⟩
  · -- the mark of the token is in the registry after the call
    obtain ⟨l', hl', hm', hmem⟩ :
        ∃ l', MarksOf env T l' ∧ s'.Holds (Marked l') ∧ t.mark env ∈ l' := by
      rcases revoke_step hvalid ht hl hup hstep hm with
        ⟨-, hlength, ⟨⟨r, hr, hdigest⟩, h'⟩ | ⟨h', hl'⟩⟩ | ⟨hnot, -⟩
      · obtain ⟨u, huT, hu, hlu, rfl⟩ := hl r hr
        have heq : u = t := token_eq_of_digest hinj ⟨u, huT, rfl⟩ ⟨t, ht, rfl⟩ hu (hvalid t ht) hlu
          hlength hdigest
        exact ⟨l, hl, h', heq ▸ hr⟩
      · exact ⟨_, hl', h', by simp⟩
      · exact absurd hok hnot
    have hsafe' : s'.Safe False := hsafe.step (.ownFresh he.1) hstep
    obtain ⟨l₂, hpre, -, h₂⟩ := Run.registry hvalid hsafe' hl' hm' hr
    refine checkToken_denied ?_
    rw [← tokenRevoked_map_mark]
    have hlive : s₂.world.sup.core.state.revokedTokens.map RevokedToken.mark = l₂ :=
      (h₂.store hup₂).live
    rw [hlive]
    exact any_eq_true.mpr ⟨_, hpre.subset hmem, mark_revokes hu⟩
  · have hsame : l₀ = l := hl₀.disk.symm.trans hm.disk
    subst hsame
    rcases revoke_step hvalid ht hl hup hstep hm with ⟨hok, -⟩ | ⟨-, h'⟩
    · rw [hfull] at hok
      cases hok
    · exact h'

instance {T : Set CapabilityToken} [DecidablePred (· ∈ T)] (e : Event K) :
    Decidable (e.RevokesIn T) := by
  rcases e with _ | _ | _ | _ | ⟨⟨⟩⟩ <;> unfold Event.RevokesIn <;> infer_instance

namespace Sample

def token : CapabilityToken := signToken signing
  ⟨lit "i", subject, 1, publicOf key, reads "/a/**", [], []⟩ key

instance : DecidablePred (· ∈ ({token} : Set CapabilityToken)) := fun t =>
  decidable_of_iff (t = token) Iff.rfl

def revoke : Call := .revokeCapabilityToken admin token []

example : (narrowed calm "c" "/a/b" token).toOption.isSome := by decide +kernel

end Sample

open Sample

/-- A token is revoked, the process is restarted, and a token derived from the first is checked. -/
theorem revoked_stays_denied_restart : ∃ s s' s₂ : System Unit, ∃ u : CapabilityToken,
    step calm s (.call revoke) = some s' ∧
    Attenuates calm signing token u ∧ s₂.up = true ∧
    ∀ principal id object action,
      (checkToken calm principal id object action (some u) s₂.world).1 ≠ .ok () := by
  have hrun : ∃ s, Run calm (fun s e => e.IsFresh calm s ∧ e.RevokesIn {token})
      (System.initial ()) s ∧ s.up = true ∧
      (revokeCapabilityToken calm admin token [] s.world).1.value? = some () ∧
      ∃ s' ∈ step calm s (.call revoke),
      ∃ s₂ ∈ runAll calm (fun s e => e.IsFresh calm s ∧ e.RevokesIn {token}) s'
        [.crash, .start], s₂.up = true :=
    exists_run create (by decide +kernel)
  have hnarrow : (narrowed calm "c" "/a/b" token).toOption.isSome = true := by
    decide +kernel
  obtain ⟨s, hs, hup, hok, s', hstep, s₂, hr, hup₂⟩ := hrun
  obtain ⟨u, hu⟩ := Option.isSome_iff_exists.mp hnarrow
  have hatt := attenuates hu
  have hinj : Set.InjOn calm.sha256 (hashed '' {token}) := by
    rw [Set.image_singleton]
    exact Set.injOn_singleton _ _
  have hvalid : ∀ t ∈ ({token} : Set CapabilityToken), t.IsValid := by
    rintro _ rfl
    decide +kernel
  exact ⟨s, s', s₂, u, hstep, hatt, hup₂, (revoked_stays_denied hvalid hinj ⟨(), hs⟩ hup rfl hstep).1
    (Outcome.value?_eq_some.mp hok) s₂ (run_of_runAll hr) hup₂ u (.single hatt)⟩

/-! ## What is not revoked -/

def Issued (env : Env K) (sig : Signing) (T : Set CapabilityToken) : Prop :=
  ∀ t ∈ T, IsMinted sig t ∨ ∃ p ∈ T, Attenuates env sig p t

theorem IsMinted.caveats (h : IsMinted sig t) : t.caveats = [] := by
  obtain ⟨key, issuer, subject, expiresAt, grants, h⟩ := h
  unfold mintCapabilityToken at h
  split_ifs at h
  cases h
  rfl

theorem signature_length (hT : Issued env sig T) (ht : t ∈ T) :
    t.signature.length = 64 := by
  rcases hT t ht with ⟨key, issuer, subject, expiresAt, grants, h⟩ | ⟨p, -, h⟩
  · unfold mintCapabilityToken at h
    split_ifs at h
    cases h
    exact sig.length_sign _ _
  · obtain ⟨time, key, caveat, grants, -, rfl⟩ := h.spec
    exact sig.length_sign _ _

theorem exists_ancestor (hT : Issued env sig T) (ht : t ∈ T)
    {l : List GoString} (hl : l <+: t.caveats) (hlt : l.length < t.caveats.length) :
    ∃ p ∈ T, ∃ q ∈ T, p.caveats = l ∧ Attenuates env sig p q ∧
      ReflTransGen (Attenuates env sig) p t := by
  induction hn : t.caveats.length generalizing t with
  | zero => omega
  | succ n ih =>
    rcases hT t ht with hmint | ⟨p, hp, hstep⟩
    · simp [hmint.caveats] at hn
    · obtain ⟨time, key, caveat, grants, -, heq⟩ := hstep.spec
      have hc : t.caveats = p.caveats ++ [caveat] := by rw [heq]; rfl
      have hlen : t.caveats.length = p.caveats.length + 1 := by simp [hc]
      have hpre : l <+: p.caveats :=
        prefix_of_prefix_length_le (hc ▸ hl) (prefix_append _ _) (by omega)
      rcases Nat.lt_or_ge l.length p.caveats.length with hlt' | hge
      · obtain ⟨q, hq, q', hq', hcq, hqq', hchain⟩ := ih hp hpre hlt' (by omega)
        exact ⟨q, hq, q', hq', hcq, hqq', hchain.tail hstep⟩
      · exact ⟨p, hp, t, ht, (hpre.eq_of_length_le hge).symm, hstep, .single hstep⟩

/-- No other issued token that was attenuated has the key, the subject and the caveats of a
revoked one. -/
def KeepsApart (env : Env K) (sig : Signing) (T R : Set CapabilityToken) : Prop :=
  ∀ u ∈ R, ∀ p ∈ T, (∃ q ∈ T, Attenuates env sig p q) → p.publicKey = u.publicKey →
    p.subject = u.subject → p.caveats = u.caveats → p = u

theorem derived_of_revokedBy {R : Set CapabilityToken} (hT : Issued env sig T) (hR : R ⊆ T)
    (hvalid : ∀ t ∈ T, t.IsValid) (happart : KeepsApart env sig T R)
    (hinj : Set.InjOn env.sha256 (hashed '' T ∪ CapabilityToken.publicKey '' T))
    (ht : t ∈ T) (hu : u ∈ R) (h : (u.mark env).revokedBy env t = true) :
    ReflTransGen (Attenuates env sig) u t := by
  simp only [RevokedToken.revokedBy, mark, Bool.and_eq_true, Bool.or_eq_true,
    beq_iff_eq, bytesEqual] at h
  obtain ⟨⟨hsubject, hkey⟩, hdigest | ⟨hlt, hpre⟩⟩ := h
  · have heq : t = u := token_eq_of_digest hinj (.inl ⟨t, ht, rfl⟩) (.inl ⟨u, hR hu, rfl⟩)
      (hvalid t ht) (hvalid u (hR hu)) (signature_length hT ht) (signature_length hT (hR hu)) hdigest
    exact heq ▸ .refl
  · obtain ⟨p, hp, q, hq, hcaveats, hstep, hchain⟩ :=
      exists_ancestor hT ht ( isPrefixOf_iff_prefix.mp hpre) (of_decide_eq_true hlt)
    have hd := descends_of_attenuated hchain
    have hkey' : u.publicKey = t.publicKey :=
      sha256_text_inj hinj (.inr ⟨u, hR hu, rfl⟩) (.inr ⟨t, ht, rfl⟩) hkey
    have heq : p = u := happart u hu p hp ⟨q, hq, hstep⟩ (hd.publicKey.symm.trans hkey'.symm)
      (hd.subject.symm.trans hsubject.symm) hcaveats
    exact heq ▸ hchain

namespace Sample

def hashing : Env Unit := calmEnv digest

def rival : CapabilityToken := signToken signing
  ⟨lit "j", subject, 1, publicOf key, reads "/b/**", [], []⟩ key

def heir (action : String) (t : CapabilityToken) : CapabilityToken := signToken signing
  { t with grants := reads action, caveats := t.caveats ++ [lit "c"] } key

theorem isMinted_token : IsMinted signing token :=
  ⟨key, lit "i", subject, 1000000000, reads "/a/**", rfl⟩

theorem isMinted_rival : IsMinted signing rival :=
  ⟨key, lit "j", subject, 1000000000, reads "/b/**", rfl⟩

theorem attenuates_token : Attenuates hashing signing token (heir "/a/b" token) :=
  attenuates (show (narrowed hashing "c" "/a/b" token).toOption = _ by decide +kernel)

theorem attenuates_rival : Attenuates hashing signing rival (heir "/b/c" rival) :=
  attenuates (show (narrowed hashing "c" "/b/c" rival).toOption = _ by decide +kernel)

example : heir "/a/b" token ≠ rival := by decide +kernel

end Sample

end Aok.Runtime
