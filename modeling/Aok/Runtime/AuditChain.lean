import Aok.Lib.HashChain
import Aok.Runtime.Auditing

/-!
# A hash determines the chain before it

The text that is hashed determines its record up to the hash, and the record names the hash
of the one before. So two chains that verify and carry the same hash at one place are the
same up to there, and a checkpoint that was accepted against one chain and still matches
another has seen the same records.
-/

namespace Aok.Runtime
open Lib Lib.Utf8 Lib.JsonText Lib.JsonValue Lib.Command Lib.HashChain

variable {K : Type} {env : Env K} {sha256 : Bytes → Digest}

def AuditRecord.strings (r : AuditRecord) : List GoString :=
  [r.principal, r.applicationID, r.action, r.object, r.decision, r.reason, r.previousHash, r.hash]

def AuditRecord.IsValid (r : AuditRecord) : Prop := ∀ s ∈ r.strings, valid s

def AuditRecord.hashedText (r : AuditRecord) : Bytes := auditText { r with hash := [] }

theorem auditText_injective {r s : AuditRecord} (hr : r.IsValid) (hs : s.IsValid)
    (h : auditText r = auditText s) : r = s := by
  simp only [AuditRecord.IsValid, AuditRecord.strings, List.forall_mem_cons] at hr hs
  obtain ⟨hr₁, hr₂, hr₃, hr₄, hr₅, hr₆, hr₇, hr₈, -⟩ := hr
  obtain ⟨hs₁, hs₂, hs₃, hs₄, hs₅, hs₆, hs₇, hs₈, -⟩ := hs
  unfold auditText object at h
  have hbody := List.append_cancel_right (List.cons.inj h).2
  simp only [List.cons_append, List.nil_append, List.append_assoc] at hbody
  obtain ⟨hsequence, hbody⟩ := intercalate_dec_inj (by simp) (by simp) hbody
  obtain ⟨htime, hbody⟩ := intercalate_decInt_inj (by simp) (by simp) hbody
  obtain ⟨hprincipal, hbody⟩ := intercalate_quote_inj hr₁ hs₁ (by simp) (by simp) hbody
  obtain ⟨happlication, hbody⟩ := memberUnlessEmpty_inj (by decide) hr₂ hs₂ hbody
  obtain ⟨haction, hbody⟩ := intercalate_quote_inj hr₃ hs₃ (by simp) (by simp) hbody
  obtain ⟨hobject, hbody⟩ := intercalate_quote_inj hr₄ hs₄ (by simp) (by simp) hbody
  obtain ⟨hdecision, hbody⟩ := intercalate_quote_inj hr₅ hs₅ (by simp) (by simp) hbody
  obtain ⟨hreason, hbody⟩ := memberUnlessEmpty_inj (by decide) hr₆ hs₆ hbody
  obtain ⟨hprevious, hbody⟩ := intercalate_quote_inj hr₇ hs₇ (by simp) (by simp) hbody
  have hlast : member "hash" (quote r.hash) ++ [] = member "hash" (quote s.hash) ++ [] := by
    simpa [List.intercalate] using hbody
  obtain ⟨hhash, -⟩ := member_quote_inj hr₈ hs₈ hlast
  cases r
  cases s
  simp_all

theorem Digest.text_injective {d e : Digest} (h : d.text = e.text) : d = e := by
  obtain ⟨⟨_, _⟩, _⟩ := d
  obtain ⟨⟨_, _⟩, _⟩ := e
  cases h
  rfl

theorem eq_of_hash_eq {r s : AuditRecord} (hr : r.IsValid) (hs : s.IsValid)
    (hinj : sha256 r.hashedText = sha256 s.hashedText → r.hashedText = s.hashedText)
    (hhash : r.hash = auditHash sha256 r) (hhash' : s.hash = auditHash sha256 s)
    (h : r.hash = s.hash) : r = s := by
  have htext : r.hashedText = s.hashedText :=
    hinj (Digest.text_injective (hhash.symm.trans (h.trans hhash')))
  have hblank : ∀ {x : AuditRecord}, x.IsValid → ({ x with hash := [] } : AuditRecord).IsValid := by
    intro x hx
    simp only [AuditRecord.IsValid, AuditRecord.strings, List.forall_mem_cons] at hx ⊢
    exact ⟨hx.1, hx.2.1, hx.2.2.1, hx.2.2.2.1, hx.2.2.2.2.1, hx.2.2.2.2.2.1, hx.2.2.2.2.2.2.1, rfl, by simp⟩
  have heq := auditText_injective (hblank hr) (hblank hs) htext
  calc r = { ({ r with hash := [] } : AuditRecord) with hash := r.hash } := rfl
    _ = { ({ s with hash := [] } : AuditRecord) with hash := s.hash } := by rw [heq, h]
    _ = s := rfl

theorem verifyFrom_linked {previous : GoString} {n : ℕ} {l : List AuditRecord}
    (h : verifyFrom sha256 previous n l) :
    Linked AuditRecord.previousHash AuditRecord.hash previous l ∧
      ∀ r ∈ l, r.hash = auditHash sha256 r := by
  induction l generalizing previous n with
  | nil => exact ⟨trivial, by simp⟩
  | cons r l ih =>
    simp only [verifyFrom, Bool.and_eq_true, beq_iff_eq] at h
    obtain ⟨hl, hhash⟩ := ih h.2
    exact ⟨⟨h.1.1.2, hl⟩, List.forall_mem_cons.mpr ⟨h.1.2, hhash⟩⟩

theorem recordCosignature_matchesChain {principal : GoString} {cp : WitnessCheckpoint} {w : World K}
    (h : (recordCosignature env principal cp w).1 = .ok ()) :
    cp.matchesChain w.sup.core.state.audit := by
  have hends : Ends (recordCosignature env principal cp) w
      (fun _ _ => cp.matchesChain w.sup.core.state.audit) (fun _ _ => True) fun _ => True := by
    refine ends_bind.mpr (ends_require.mpr ⟨fun _ => ?_, fun _ => trivial⟩)
    refine ends_bind.mpr (ends_require.mpr ⟨fun _ => ?_, fun _ => trivial⟩)
    refine ends_bind.mpr (ends_getState.mpr ?_)
    exact ends_bind.mpr (ends_require.mpr ⟨fun hchain => .of_const hchain, fun _ => trivial⟩)
  exact hends.value h

/-- Two chains that verify agree up to every place at which they carry the same hash; a checkpoint
that was accepted against the first and is recorded with the second, whose witnessed history
verifies, has seen the same records in both. SHA-256 is taken to be injective on the texts that
are hashed. -/
theorem chains_agree {A B : List AuditRecord} (hA : verifyAudit env.sha256 A)
    (hB : verifyAudit env.sha256 B) (hvalid : ∀ r ∈ A ++ B, r.IsValid)
    (hinj : Set.InjOn env.sha256 {t | ∃ r ∈ A ++ B, t = r.hashedText}) :
    (∀ (n : ℕ) r s, A[n]? = some r → B[n]? = some s → r.hash = s.hash →
      A.take (n + 1) = B.take (n + 1)) ∧
    ∀ (w : World K) principal cp (s : State), w.sup.core.state.audit = A →
      (recordCosignature env principal cp w).1 = .ok () →
      s.audit = B → cp ∈ s.witnessCheckpoints → verifyWitness env s →
      A.take cp.count = B.take cp.count := by
  obtain ⟨hlA, hhA⟩ := verifyFrom_linked hA
  obtain ⟨hlB, hhB⟩ := verifyFrom_linked hB
  have heq : ∀ r ∈ A, ∀ s ∈ B, r.hash = s.hash → r = s := fun r hr s hs =>
    have hr' := List.mem_append_left B hr
    have hs' := List.mem_append_right A hs
    eq_of_hash_eq (hvalid r hr') (hvalid s hs') (hinj ⟨r, hr', rfl⟩ ⟨s, hs', rfl⟩) (hhA r hr) (hhB s hs)
  have hfirst : ∀ (n : ℕ) r s, A[n]? = some r → B[n]? = some s → r.hash = s.hash →
      A.take (n + 1) = B.take (n + 1) := fun n r s hr hs he => hlA.take_eq hlB heq hr hs he
  refine ⟨hfirst, ?_⟩
  rintro w principal cp s rfl haccept rfl hcp hwitness
  have hmatches := recordCosignature_matchesChain haccept
  simp only [verifyWitness, Bool.and_eq_true, List.all_eq_true] at hwitness
  have hmatches' := (hwitness.2 cp hcp).1
  simp only [WitnessCheckpoint.matchesChain, Bool.and_eq_true, decide_eq_true_eq,
    Option.any_eq_true, beq_iff_eq] at hmatches hmatches'
  obtain ⟨⟨hpos, -⟩, r, hr, hhash⟩ := hmatches
  obtain ⟨-, r', hr', hhash'⟩ := hmatches'
  have hagree := hfirst (cp.count - 1) r r' hr hr' (hhash.trans hhash'.symm)
  rwa [Nat.sub_add_cancel hpos] at hagree

/-- The head of the chain after a channel with the replacement character as its id was created. -/
def Sample.replacedCheckpoint : WitnessCheckpoint :=
  { Sample.checkpoint with headHash := (Sample.sha256 (Sample.channelText "\ufffd")).text }

/-- A channel is created and the head of the chain witnessed, which appends a second record. -/
theorem chains_agree_checkpoint : ∃ s s' : System Unit,
    s.world.sup.core.state.audit.length = 1 ∧ s'.world.sup.core.state.audit.length = 2 ∧
    s.world.sup.core.state.audit.take 1 = s'.world.sup.core.state.audit.take 1 := by
  have hrun : ∃ s₁ ∈ step (calmEnv Sample.sha256) (System.initial ()) .start,
      ∃ s₂ ∈ step (calmEnv Sample.sha256) s₁ (Sample.channel (lit "\ufffd")),
      ∃ s₃ ∈ step (calmEnv Sample.sha256) s₂
        (.call (.recordCosignature Sample.admin Sample.replacedCheckpoint)),
      let A := s₂.world.sup.core.state.audit
      let B := s₃.world.sup.core.state.audit
      A.length = 1 ∧ B.length = 2 ∧ verifyAudit Sample.sha256 A ∧ verifyAudit Sample.sha256 B ∧
      (∀ r ∈ A ++ B, ∀ s ∈ r.strings, valid s) ∧
      (∀ r ∈ A ++ B, ∀ s ∈ A ++ B,
        (Sample.sha256 r.hashedText).text = (Sample.sha256 s.hashedText).text →
          r.hashedText = s.hashedText) ∧
      (recordCosignature (calmEnv Sample.sha256) Sample.admin Sample.replacedCheckpoint
        s₂.world).1.value? = some () ∧
      Sample.replacedCheckpoint ∈ s₃.world.sup.core.state.witnessCheckpoints ∧
      verifyWitness (calmEnv Sample.sha256) s₃.world.sup.core.state := by
    decide +kernel
  obtain ⟨s₁, -, s₂, -, s₃, -, hlenA, hlenB, hA, hB, hvalid, hinj, haccept, hcp, hwitness⟩ := hrun
  refine ⟨s₂, s₃, hlenA, hlenB, ?_⟩
  have hinjOn : Set.InjOn Sample.sha256 {t | ∃ r ∈ s₂.world.sup.core.state.audit ++
      s₃.world.sup.core.state.audit, t = r.hashedText} := by
    rintro _ ⟨r, hr, rfl⟩ _ ⟨s, hs, rfl⟩ he
    exact hinj r hr s hs (congrArg (fun d : Digest => d.text) he)
  exact (chains_agree (K := Unit) hA hB hvalid hinjOn).2 s₂.world Sample.admin
    Sample.replacedCheckpoint s₃.world.sup.core.state rfl (Outcome.value?_eq_some.mp haccept) rfl hcp
    hwitness

end Aok.Runtime
