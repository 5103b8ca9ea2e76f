import Aok.Runtime.Runs

/-!
# The audit chain

Every record is appended with the hash of the one before it, so the chain in memory
verifies. The hash is taken over the text of the record in memory, in which a byte that is
not UTF-8 is written as an escape; read back it is a character and written as itself. So the
chain on disk verifies where callers pass valid strings, and may be refused where they do
not.
-/

namespace Aok.Runtime
open Lib Lib.Utf8 Lib.JsonText Lib.JsonValue Lib.Command Lib.Journal List

variable {K : Type} {U P : Prop} {S : Terms} {env : Env K} {c c' : Core} {k : Level}
variable {cp : WitnessCheckpoint}

/-! ## Growing a chain -/

theorem verifyFrom_append {sha256 : Bytes → Digest} {l : List AuditRecord} {r : AuditRecord}
    {previous : GoString} {n : ℕ} (h : verifyFrom sha256 previous n l)
    (hfirst : n < r.sequence) (hseq : ∀ x ∈ l, x.sequence < r.sequence)
    (hlink : r.previousHash = (l.getLast?.map (·.hash)).getD previous)
    (hhash : r.hash = auditHash sha256 r) : verifyFrom sha256 previous n (l ++ [r]) := by
  induction l generalizing previous n with
  | nil => simp [verifyFrom, hfirst, hlink, ← hhash]
  | cons x l ih =>
    simp only [verifyFrom, Bool.and_eq_true] at h
    simp only [cons_append, verifyFrom, Bool.and_eq_true]
    refine ⟨h.1, ih h.2 (hseq x mem_cons_self)
      (fun y hy => hseq y (mem_cons_of_mem _ hy)) ?_⟩
    rw [hlink]
    cases l with
    | nil => rfl
    | cons y l =>
      rw [getLast?_cons_cons, getLast?_eq_some_getLast (cons_ne_nil y l)]
      rfl

/-! ## The invariant -/

/-- The chain verifies and reads back as it is, and so do the checkpoints, which match it. -/
structure IsAudited (env : Env K) (c : Core) : Prop where
  chain : verifyAudit env.sha256 c.state.audit
  previousHash : c.previousHash = lastHash c.state.audit
  sequence : ∀ r ∈ c.state.audit, r.sequence ≤ c.state.nextSequence
  records : ∀ r ∈ c.state.audit, r.image = r
  checkpoints : ∀ cp ∈ c.state.witnessCheckpoints,
    cp.matchesChain c.state.audit ∧ cp.isSigned env ∧ cp.image = cp
  advances : c.state.witnessCheckpoints.Pairwise fun cp cp' => cp.count < cp'.count
  room : c.state.witnessCheckpoints.length ≤ maxWitnessCheckpoints

theorem matchesChain_append {audit : List AuditRecord} (r : AuditRecord)
    (h : cp.matchesChain audit) : cp.matchesChain (audit ++ [r]) := by
  simp only [WitnessCheckpoint.matchesChain, Bool.and_eq_true, decide_eq_true_eq] at h ⊢
  obtain ⟨⟨hpos, hle⟩, hhash⟩ := h
  have hlt : cp.count - 1 < audit.length := by omega
  rw [getElem?_append_left hlt]
  exact ⟨⟨hpos, by simp; omega⟩, hhash⟩

theorem IsAudited.of_eq (h : IsAudited env c) (haudit : c'.state.audit = c.state.audit)
    (hprevious : c'.previousHash = c.previousHash)
    (hcheckpoints : c'.state.witnessCheckpoints = c.state.witnessCheckpoints)
    (hseq : c.state.nextSequence ≤ c'.state.nextSequence) : IsAudited env c' where
  chain := haudit ▸ h.chain
  previousHash := by rw [hprevious, haudit, h.previousHash]
  sequence := fun r hr => (h.sequence r (haudit ▸ hr)).trans hseq
  records := haudit ▸ h.records
  checkpoints := by
    rw [haudit, hcheckpoints]
    exact h.checkpoints
  advances := hcheckpoints ▸ h.advances
  room := hcheckpoints ▸ h.room

theorem IsAudited.audit (hU : U) (h : IsAudited env c) (hn : Named U c) (time : ℤ)
    {principal applicationID action object decision reason : GoString}
    (hr : ClearRecord U principal applicationID action object decision reason) :
    IsAudited env (c.audit env.sha256 time principal applicationID action object decision reason) := by
  have hprevious : valid c.previousHash = true := by
    rw [h.previousHash, lastHash]
    cases hl : c.state.audit.getLast? with
    | none => rfl
    | some r =>
      obtain ⟨d, hd⟩ := hn.hashes r (mem_of_getLast? hl)
      simp only [Option.map_some, Option.getD_some, hd]
      exact d.toHexText.valid
  refine ⟨?_, ?_, ?_, ?_, ?_, h.advances, h.room⟩
  · exact verifyFrom_append h.chain (Nat.succ_pos _)
      (fun x hx => Nat.lt_succ_of_le (h.sequence x hx)) h.previousHash rfl
  · simp [Core.audit, lastHash]
  · intro r hr
    rcases mem_append.mp hr with hr | hr
    · exact (h.sequence r hr).trans (Nat.le_succ _)
    · rw [mem_singleton.mp hr]
      exact le_rfl
  · intro r hmem
    rcases mem_append.mp hmem with hmem | hmem
    · exact h.records r hmem
    · rw [mem_singleton.mp hmem]
      simp only [AuditRecord.image, hr.principal.sanitize_eq hU, hr.applicationID.sanitize_eq hU,
        hr.action.sanitize_eq hU, hr.object.sanitize_eq hU, hr.decision.sanitize_eq hU,
        hr.reason.sanitize_eq hU, sanitize_of_valid hprevious, auditHash,
        sanitize_of_valid (Digest.toHexText _).valid]
  · intro cp hcp
    obtain ⟨hchain, hrest⟩ := h.checkpoints cp hcp
    exact ⟨matchesChain_append _ hchain, hrest⟩

theorem Cosigned.image_eq (hU : U) (hn : Named U c)
    (h : Cosigned U env c.state cp) : cp.image = cp := by
  have hhead : valid cp.headHash = true := by
    have hchain := h.chain
    simp only [WitnessCheckpoint.matchesChain, Bool.and_eq_true, Option.any_eq_true,
      beq_iff_eq] at hchain
    obtain ⟨-, r, hr, hhash⟩ := hchain
    obtain ⟨d, hd⟩ := hn.hashes r (mem_of_getElem? hr)
    rw [← hhash, hd]
    exact d.toHexText.valid
  simp only [WitnessCheckpoint.image, sanitize_of_valid hhead, h.signer.sanitize_eq hU]

theorem length_keepNewest {α : Type} (n : ℕ) (l : List α) : (keepNewest n l).length ≤ n := by
  simp only [keepNewest, length_drop]
  omega

theorem lt_of_lt_last {l : List WitnessCheckpoint} {n : ℕ}
    (h : l.Pairwise fun cp cp' => cp.count < cp'.count) (hlast : ∀ cp ∈ l.getLast?, cp.count < n)
    (hcp : cp ∈ l) : cp.count < n := by
  rcases eq_nil_or_concat l with rfl | ⟨l, last, rfl⟩
  · cases hcp
  · rw [concat_eq_append] at h hlast hcp
    have hn : last.count < n := hlast last (by simp)
    rcases mem_append.mp hcp with hcp | hcp
    · exact ((pairwise_append.mp h).2.2 cp hcp last (by simp)).trans hn
    · rwa [mem_singleton.mp hcp]

theorem IsAudited.cosign (hU : U) (h : IsAudited env c) (hn : Named U c)
    (hcp : Cosigned U env c.state cp) : IsAudited env (c.withState fun s => { s with
      witnessCheckpoints := keepNewest maxWitnessCheckpoints (s.witnessCheckpoints ++ [cp]) }) := by
  have hsub : keepNewest maxWitnessCheckpoints (c.state.witnessCheckpoints ++ [cp]) <:+
      c.state.witnessCheckpoints ++ [cp] := drop_suffix _ _
  constructor <;> simp only [Core.withState_state, Core.withState_previousHash]
  case chain => exact h.chain
  case previousHash => exact h.previousHash
  case sequence => exact h.sequence
  case records => exact h.records
  case room => exact length_keepNewest _ _
  · intro x hx
    rcases mem_append.mp (hsub.mem hx) with hx | hx
    · exact h.checkpoints x hx
    · rw [mem_singleton.mp hx]
      exact ⟨hcp.chain, hcp.signed, hcp.image_eq hU hn⟩
  · refine List.Pairwise.sublist hsub.sublist (pairwise_append.mpr
      ⟨h.advances, pairwise_singleton _ _, fun x hx y hy => ?_⟩)
    rw [mem_singleton.mp hy]
    exact lt_of_lt_last h.advances hcp.advances hx

theorem Change.isAudited (hU : U) (h : Change U S env c k c') (hn : Named U c)
    (ha : IsAudited env c) : IsAudited env c' := by
  cases h with
  | audit time hr => exact ha.audit hU hn time hr
  | cosign cp hcp => exact ha.cosign hU hn hcp
  | application | messages | register | stage => exact ha.of_eq rfl rfl rfl le_rfl
  | enqueue | settle => exact ha.of_eq rfl rfl rfl (Nat.le_succ _)
  | side hf | shelf hf => exact ha.of_eq hf.audit hf.previousHash hf.checkpoints hf.nextSequence

theorem map_image_of_eq {α : Type} {f : α → α} {l : List α} (h : ∀ x ∈ l, f x = x) : l.map f = l :=
  (map_congr_left h).trans (map_id' l)

theorem IsAudited.reopen (h : IsAudited env c) : IsAudited env (codec.reopen (codec.save c)) := by
  have haudit : (codec.save c).audit = c.state.audit := map_image_of_eq h.records
  have hcheckpoints : (codec.save c).witnessCheckpoints = c.state.witnessCheckpoints :=
    map_image_of_eq fun cp hcp => (h.checkpoints cp hcp).2.2
  refine h.of_eq haudit ?_ hcheckpoints le_rfl
  change lastHash (codec.save c).audit = c.previousHash
  rw [haudit, h.previousHash]

theorem audited_lasting (hU : U) : Lasting U S env fun c => WellFormed U c ∧ IsAudited env c where
  change := fun _ _ _ h hc => ⟨h.wellFormed hc.1, h.isAudited hU hc.1.named hc.2⟩
  reopen := fun _ hc => ⟨hc.1.reopen, hc.2.reopen⟩

theorem audited_empty : IsAudited env (codec.reopen State.empty) := by
  constructor <;> simp [codec, State.empty, verifyAudit, verifyFrom, lastHash]

theorem IsAudited.verifyWitness (h : IsAudited env c) : verifyWitness env c.state := by
  simp only [Runtime.verifyWitness, Bool.and_eq_true, all_eq_true]
  exact ⟨h.chain, fun cp hcp => ⟨(h.checkpoints cp hcp).1, (h.checkpoints cp hcp).2.1⟩⟩

/-! ## Loading a verified chain -/

theorem forEach_ends {α : Type} {f : α → Op K Unit} {I : World K → Prop} {E : Err → World K → Prop}
    {C : World K → Prop} (hf : ∀ x w, I w → Ends (f x) w (fun _ => I) E C) (xs : List α)
    {w : World K} (hw : I w) : Ends (forEach f xs) w (fun _ => I) E C := by
  induction xs generalizing w with
  | nil => exact hw
  | cons x xs ih => exact ends_bind.mpr ((hf x w hw).mono (fun _ _ => ih) (fun _ _ h => h) fun _ h => h)

theorem fillKernelID_ends {audit : List AuditRecord} {E : Err → World K → Prop} {C : World K → Prop}
    (id : GoString) (w : World K) (h : w.sup.core.state.audit = audit) :
    Ends (fillKernelID id) w (fun _ w => w.sup.core.state.audit = audit) E C := by
  simp only [fillKernelID, ends_bind, ends_getState]
  split
  · exact h
  · split
    · exact h
    · exact h

def Passes {α : Type} (c : Op K α) (w : World K) : Prop :=
  Ends c w (fun _ _ => True) (fun e _ => e ≠ .new "invalid audit chain") fun _ => True

theorem recoverMailbox_passes (id : GoString) (w : World K) : Passes (recoverMailbox id) w := by
  simp only [Passes, recoverMailbox, ends_bind, ends_getState]
  split <;> trivial

theorem recoverApplication_passes (id : GoString) (w : World K) :
    Passes (recoverApplication env id) w := by
  simp only [Passes, recoverApplication, ends_bind, ends_getState]
  split
  · trivial
  · split
    · trivial
    · exact ends_bind.mpr (ends_require.mpr ⟨fun _ => trivial, fun _ => by decide⟩)

theorem persistLocked_passes (w : World K) : Passes (persistLocked env) w := by
  simp only [Passes, persistLocked, ends_bind, ends_question]
  cases env.fault w.tick with
  | ok => trivial
  | fail =>
    intro h
    cases h
  | crash => trivial

theorem load_passes {w : World K} (h : verifyAudit env.sha256 w.db.audit) : Passes (load env) w := by
  have heach : ∀ {f : GoString → Op K Unit} (_ : ∀ id v, Passes (f id) v) (ids : List GoString) v,
      Passes (forEach f ids) v := fun hf ids v =>
    forEach_ends (I := fun _ => True) (fun id v _ => hf id v) ids trivial
  unfold Passes load fillKernelIDs recoverMailboxes recoverApplications mapKeys
  simp only [ends_bind, ends_modify, ends_getState, ends_question]
  refine (forEach_ends (I := fun v => v.sup.core.state.audit = w.db.audit)
    (fun id v => fillKernelID_ends id v) _ rfl).mono (fun _ v hv => ?_) (fun _ _ h => h) fun _ h => h
  refine ends_require.mpr ⟨fun _ => ?_, fun hno => absurd (hv ▸ h) hno⟩
  refine (heach recoverMailbox_passes _ _).mono (fun _ v _ => ?_) (fun _ _ h => h) fun _ h => h
  refine (heach recoverApplication_passes _ _).mono (fun _ v _ => ?_) (fun _ _ h => h) fun _ h => h
  exact persistLocked_passes v

/-! ## Runs -/

theorem Reachable.isAudited {s : System K} (hboot : BootClear True env)
    (h : Reachable env (fun s e => e.IsFresh env s ∧ e.Clear True) s) : s.Holds (IsAudited env) := by
  have hC : ∀ (s : System K) e, e.IsFresh env s ∧ e.Clear True →
      Allowed True (.all False) False env s e :=
    fun s e he => .ofClear he.1 he.2 hboot (fun hf => hf.elim) fun hf => hf.elim
  exact (h.holds (audited_lasting trivial) hC ⟨wellFormed_empty, audited_empty⟩).mono fun _ => And.right

/-- In a run with valid strings the chain and the witnessed history verify in every state, in
memory and on disk; the counts of the checkpoints increase, and at most 256 are kept. -/
theorem audit_and_witness_verify {s : System K} (hboot : BootClear True env)
    (h : Reachable env (fun s e => e.IsFresh env s ∧ e.Clear True) s) :
    s.Holds fun c => verifyAudit env.sha256 c.state.audit ∧ verifyWitness env c.state ∧
      (c.state.witnessCheckpoints.Pairwise fun cp cp' => cp.count < cp'.count) ∧
      c.state.witnessCheckpoints.length ≤ 256 :=
  (h.isAudited hboot).mono fun _ hc => ⟨hc.chain, hc.verifyWitness, hc.advances, hc.room⟩

namespace Sample

/-- The text that is hashed for `CreateChannel("admin", id, "im")`, with the id as it is written. -/
def channelText (id : String) : Bytes :=
  lit "\x7b\"sequence\":1,\"time\":5,\"principal\":\"admin\",\"action\":\"channel.create\"," ++
    lit "\"object\":\"" ++ lit id ++ lit "\",\"decision\":\"allow\",\"reason\":\"im\"," ++
    lit "\"previous_hash\":\"\",\"hash\":\"\"\x7d"

/-- SHA-256 on the text with an escape for a byte that is not UTF-8, and on the text with the
character that is read back for it. -/
def sha256 (text : Bytes) : Digest :=
  if text = channelText "\\ufffd" then
    ⟨⟨lit "5327fbd8248e927f45d5de042ba5e59cf1e4da42f27d4055caa1435dae063a32", by decide⟩, by decide⟩
  else if text = channelText "\ufffd" then
    ⟨⟨lit "b36f0dec28200f8af2665e2dd37ad8c46ff164f04a6f098fa06532f88a642e73", by decide⟩, by decide⟩
  else zeroDigest

def channel (id : GoString) : Event Unit := .call (.createChannel admin id (lit "im"))

def checkpoint : WitnessCheckpoint :=
  ⟨zeroDigest.text, 1, 1, replicate 32 1, replicate 64 2, lit "witness"⟩

example : runs [.start, channel (lit "c")] := by decide +kernel

end Sample

open Sample

/-- A checkpoint is recorded. -/
theorem audit_and_witness_verify_checkpoint : ∃ s : System Unit,
    s.world.db.witnessCheckpoints.length = 1 ∧ s.Holds fun c =>
      verifyAudit calm.sha256 c.state.audit ∧ verifyWitness calm c.state ∧
      (c.state.witnessCheckpoints.Pairwise fun cp cp' => cp.count < cp'.count) ∧
      c.state.witnessCheckpoints.length ≤ 256 := by
  have hrun : ∃ s, Run calm (fun s e => e.IsFresh calm s ∧ e.Clear True) (System.initial ()) s ∧
      s.world.db.witnessCheckpoints.length = 1 :=
    exists_run [.start, channel (lit "c"), .call (.recordCosignature admin checkpoint)]
      (by decide +kernel)
  obtain ⟨s, hr, hlen⟩ := hrun
  exact ⟨s, hlen, audit_and_witness_verify bootClear ⟨(), hr⟩⟩

end Aok.Runtime
