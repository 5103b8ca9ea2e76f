import Aok.Runtime.Numbering

/-!
# Identities of applications

An application is registered with a kernel id from a counter and a context that was made in the
context store just before. The context store commits first: after a crash or a failed commit of
the state there is a context without an application, never the other way round. So in every
committed state each application has a context of its owner, and no two of them share their
context or their kernel id.
-/

namespace Aok.Runtime
open Lib Lib.Utf8 Lib.JsonText Lib.JsonValue Lib.Command Lib.Journal

variable {K : Type} {U P : Prop} {S : Terms} {env : Env K} {c c' : Core} {l : Level}
  {own own' : GoString → Option GoString}

/-- Every application has a context of its owner and a kernel id, and shares neither. -/
structure Identified (own : GoString → Option GoString) (c : Core) : Prop where
  named : Each (fun id a => valid id = true ∧ valid a.ownerAgent = true ∧ valid a.contextID = true)
    c.state.applications
  context : Each (fun _ a => own a.contextID = some a.ownerAgent) c.state.applications
  kernel : Each (fun _ a => 0 < a.kernelID ∧ a.kernelID ≤ c.state.nextKernelID) c.state.applications
  distinct : ∀ (i j : GoString) (a b : Application), c.state.applications[i]? = some a →
    c.state.applications[j]? = some b → a.contextID = b.contextID ∨ a.kernelID = b.kernelID → i = j

/-! ## Changes -/

theorem SameIdentity.refl (a : Application) : SameIdentity a a := ⟨rfl, rfl, .inl rfl⟩

theorem SameIdentity.kernelID_eq {a a' : Application} (h : SameIdentity a a') (h0 : 0 < a.kernelID) :
    a'.kernelID = a.kernelID :=
  h.kernelID.resolve_right h0.ne'

theorem Change.nextKernelID_le (h : Change U S env c l c') :
    c.state.nextKernelID ≤ c'.state.nextKernelID := by
  cases h with
  | side hf | shelf hf => exact hf.nextKernelID
  | cosign => simp
  | audit | application | messages | register | enqueue | stage | settle => exact le_rfl

theorem AppMove.identity {s : State} {id : GoString} {a a' : Application}
    (h : AppMove S s id a a') : SameIdentity a a' := by
  cases h with
  | same => exact .refl a
  | step hs => exact hs.identity
  | settle t ht => exact ht.identity

theorem Change.identity (h : Change U S env c l c') {id : GoString} {a' : Application}
    (ha' : c'.state.applications[id]? = some a') :
    (∃ a, c.state.applications[id]? = some a ∧ SameIdentity a a') ∨
      S.writes .identities ∧ c.state.applications[id]? = none := by
  rcases h.application_from ha' with ⟨a, ha, hmove⟩ | ⟨hnone, hnew⟩
  · exact .inl ⟨a, ha, hmove.identity⟩
  · exact .inr ⟨hnew.writes, hnone⟩

theorem Change.identity_of_get (h : Change U S env c l c') {id : GoString} {a : Application}
    (ha : c.state.applications[id]? = some a) :
    ∃ a', c'.state.applications[id]? = some a' ∧ SameIdentity a a' := by
  obtain ⟨a', ha', hmove⟩ := h.application_to ha
  exact ⟨a', ha', hmove.identity⟩

theorem Identified.of_same (h : Identified own c)
    (hn : c.state.nextKernelID ≤ c'.state.nextKernelID)
    (hsame : ∀ (id : GoString) a', c'.state.applications[id]? = some a' →
      ∃ a, c.state.applications[id]? = some a ∧ SameIdentity a a') : Identified own c' := by
  constructor
  · intro id a' ha'
    obtain ⟨a, ha, hs⟩ := hsame id a' ha'
    rw [hs.ownerAgent, hs.contextID]
    exact h.named id a ha
  · intro id a' ha'
    obtain ⟨a, ha, hs⟩ := hsame id a' ha'
    rw [hs.ownerAgent, hs.contextID]
    exact h.context id a ha
  · intro id a' ha'
    obtain ⟨a, ha, hs⟩ := hsame id a' ha'
    obtain ⟨hpos, hle⟩ := h.kernel id a ha
    rw [hs.kernelID_eq hpos]
    exact ⟨hpos, hle.trans hn⟩
  · intro i j a' b' ha' hb' he
    obtain ⟨a, ha, hs⟩ := hsame i a' ha'
    obtain ⟨b, hb, ht⟩ := hsame j b' hb'
    rw [hs.contextID, ht.contextID, hs.kernelID_eq (h.kernel i a ha).1,
      ht.kernelID_eq (h.kernel j b hb).1] at he
    exact h.distinct i j a b ha hb he

theorem Identified.mono (h : Identified own c)
    (ho : ∀ id, own id ≠ none → own' id = own id) : Identified own' c := by
  refine ⟨h.named, fun id a ha => ?_, h.kernel, h.distinct⟩
  have hc : own a.contextID = some a.ownerAgent := h.context id a ha
  exact (ho _ (by simp [hc])).trans hc

theorem Identified.reopen (h : Identified own c) :
    Identified own (codec.reopen (codec.save c)) := by
  refine h.of_same le_rfl fun id a' ha' => ?_
  have hget := get_imageTable_of_valid (f := Application.image)
    (fun k a hk => (h.named k a hk).1) id
  have ha'' : (imageTable Application.image c.state.applications)[id]? = some a' := ha'
  rw [hget] at ha''
  obtain ⟨a, ha, rfl⟩ := Option.map_eq_some_iff.mp ha''
  obtain ⟨-, howner, hcontext⟩ := h.named id a ha
  exact ⟨a, ha, sanitize_of_valid howner, sanitize_of_valid hcontext, .inl rfl⟩

theorem identified_lasting (own : GoString → Option GoString) (hS : ¬ S.writes .identities) :
    Lasting U S env (Identified own) where
  change := fun _ _ _ hc h => h.of_same hc.nextKernelID_le fun _ _ ha' =>
    (hc.identity ha').resolve_right fun hw => hS hw.1
  reopen := fun _ => Identified.reopen

/-- The application is registered, whatever has become of it. -/
structure Registered (a : Application) (c : Core) : Prop where
  valid : valid a.applicationID = true ∧ valid a.ownerAgent = true ∧ valid a.contextID = true
  kernel : 0 < a.kernelID
  known : ∃ a', c.state.applications[a.applicationID]? = some a' ∧ SameIdentity a a'

theorem SameIdentity.trans {a b d : Application} (h : SameIdentity a b) (k : SameIdentity b d)
    (h0 : 0 < a.kernelID) : SameIdentity a d := by
  have hb := h.kernelID_eq h0
  refine ⟨k.ownerAgent.trans h.ownerAgent, k.contextID.trans h.contextID, .inl ?_⟩
  rw [k.kernelID_eq (hb ▸ h0), hb]

theorem registered_lasting (a : Application) :
    Lasting U S env fun c => WellFormed U c ∧ Registered a c where
  change := by
    rintro l c c' hc ⟨hw, h⟩
    obtain ⟨b, hb, hs⟩ := h.known
    obtain ⟨b', hb', hs'⟩ := hc.identity_of_get hb
    exact ⟨hc.wellFormed hw, h.valid, h.kernel, b', hb', hs.trans hs' h.kernel⟩
  reopen := by
    rintro c ⟨hw, h⟩
    obtain ⟨b, hb, hs⟩ := h.known
    have hget := get_imageTable_of_valid (f := Application.image)
      (fun k a hk => (hw.named.applications k a hk).1) a.applicationID
    rw [hb] at hget
    refine ⟨hw.reopen, h.valid, h.kernel, b.image, hget, ?_, ?_, hs.kernelID⟩
    · exact (congrArg sanitize hs.ownerAgent).trans (sanitize_of_valid h.valid.2.1)
    · exact (congrArg sanitize hs.contextID).trans (sanitize_of_valid h.valid.2.2)

/-! ## Contexts -/

namespace ContextStore
variable {sha256 : Bytes → Digest} {s t : ContextStore}

structure Makes (s t : ContextStore) (owner : GoString) (id : HexText) : Prop where
  grows : Grows s t
  fresh : s.ownerOf id.text = none
  owner : t.ownerOf id.text = some owner

theorem insertContext_makes {id : HexText} {owner : GoString} (h : insertContext id owner s = .ok t) :
    Makes s t owner id := by
  have hgrows := insertContext_grows h
  obtain ⟨hnew, rfl⟩ := insertContext_eq_ok h
  exact ⟨hgrows, by simp [ownerOf, hnew], by simp [ownerOf]⟩

theorem create_makes {id r : HexText} {owner : GoString}
    (h : create sha256 id owner [] s = .ok (r, t)) : Makes s t owner r := by
  cases exec_unkeyed (c := .create id owner []) rfl h with
  | empty h => exact insertContext_makes h
  | create hne => exact absurd rfl hne

theorem forkTo_makes {child r : HexText} {parentOwner parentID childOwner key : GoString}
    (hkey : ∀ o ∈ s.operations, o.key ≠ key)
    (h : forkTo sha256 child parentOwner parentID childOwner key s = .ok (r, t)) :
    Makes s t childOwner r := by
  have hgrows := exec_grows (c := .forkTo child parentOwner parentID childOwner key) h
  obtain ⟨_, _, o, -, hro, -, -, ⟨-, ho⟩ | ⟨-, u, hu, rfl⟩⟩ :=
    exec_keyed (c := .forkTo child parentOwner parentID childOwner key) rfl h
  · obtain ⟨-, -, hos, -⟩ := ContextCall.row_eq_some hro
    cases hos
    exact absurd rfl (hkey o ho)
  · cases hu with
    | fork hv =>
      obtain ⟨-, hfresh, howner⟩ := insertContext_makes hv
      refine ⟨hgrows, hfresh, ?_⟩
      exact (setTail_grows parentID none _ _ (by simp [howner])).trans howner

end ContextStore

/-! ## Registration -/

theorem Identified.register {a : Application} (h : Identified own c)
    (hvalid : valid a.applicationID = true ∧ valid a.ownerAgent = true ∧ valid a.contextID = true)
    (hkernel : a.kernelID = c.state.nextKernelID + 1) (hfresh : own a.contextID = none)
    (howner : own' a.contextID = some a.ownerAgent) (hgrow : ∀ id, own id ≠ none → own' id = own id)
    (happs : c'.state.applications = c.state.applications.insert a.applicationID a)
    (hn : c'.state.nextKernelID = c.state.nextKernelID + 1) : Identified own' c' := by
  have hold := h.mono hgrow
  -- the new application shares nothing with one that was there
  have hapart : ∀ (i : GoString) b, c.state.applications[i]? = some b →
      ¬ (a.contextID = b.contextID ∨ a.kernelID = b.kernelID) := by
    rintro i b hb (he | he)
    · have hb' : own b.contextID = some b.ownerAgent := h.context i b hb
      rw [← he, hfresh] at hb'
      cases hb'
    · have hle := (h.kernel i b hb).2
      omega
  constructor <;> rw [happs]
  · exact hold.named.insert hvalid
  · exact hold.context.insert howner
  · refine Each.insert (fun i b hb => ?_) ⟨hkernel ▸ Nat.succ_pos _, (hkernel.trans hn.symm).le⟩
    exact ⟨(h.kernel i b hb).1, (h.kernel i b hb).2.trans (hn ▸ Nat.le_succ _)⟩
  · intro i j x y hx hy he
    rw [Table.get_insert] at hx hy
    split_ifs at hx hy with hi hj hj
    · exact hi.symm.trans hj
    · cases hx
      exact absurd he (hapart j y hy)
    · cases hy
      exact absurd (he.imp Eq.symm Eq.symm) (hapart i x hx)
    · exact h.distinct i j x y hx hy he

theorem nextKernelID_ends {w : World K} {Q : ℕ → World K → Prop} {E : Err → World K → Prop}
    {C : World K → Prop} :
    Ends nextKernelID w Q E C ↔ Q (w.sup.core.state.nextKernelID + 1)
      (w.setCore (w.sup.core.withState fun s => { s with nextKernelID := s.nextKernelID + 1 })) :=
  Iff.rfl

variable {w : World K} {principal action object owner : GoString} {a : Application}
  {f : HexText → ContextStore → Except Err (HexText × ContextStore)}

theorem spawnApplication_identifies (hid : valid a.applicationID = true)
    (howner : valid a.ownerAgent = true)
    (hf : ∀ x r s, f x w.contexts = .ok (r, s) →
      ContextStore.Makes w.contexts s a.ownerAgent r)
    (h : Everywhere codec (Identified w.contexts.ownerOf) w.store) :
    Ends (spawnApplication env principal action object a (makeContext env owner f)) w
      (fun a' w' => Everywhere codec (Identified w'.contexts.ownerOf) w'.store ∧
        Commits (Registered a') w'.store)
      (fun _ w' => Everywhere codec (Identified w'.contexts.ownerOf) w'.store)
      fun w' => Identified w'.contexts.ownerOf (codec.reopen w'.db) := by
  have hcount : Identified w.contexts.ownerOf
      (w.sup.core.withState fun s => { s with nextKernelID := s.nextKernelID + 1 }) :=
    h.live.of_same (Nat.le_succ _) fun _ a ha => ⟨a, ha, .refl a⟩
  unfold spawnApplication
  rw [ends_bind, nextKernelID_ends, ends_bind]
  refine makeContext_ends hf (fun r s n hmakes => ?_) (fun e n => ?_) fun n => ?_
  · have hgrow := hmakes.grows
    simp only [registerApplication, auditLocked, now, editState, ends_bind, ends_editCore,
      ends_question]
    set a' : Application := { a with
      kernelID := w.sup.core.state.nextKernelID + 1, contextID := r.text }
    have hvalid : valid a'.applicationID = true ∧ valid a'.ownerAgent = true ∧
      valid a'.contextID = true := ⟨hid, howner, r.valid⟩
    have hcommit : ∀ core : Core, core.state.applications =
        w.sup.core.state.applications.insert a.applicationID a' →
        core.state.nextKernelID = w.sup.core.state.nextKernelID + 1 →
        Identified s.ownerOf core := fun core happs hn =>
      h.live.register (a := a') hvalid rfl hmakes.fresh hmakes.owner hgrow happs hn
    refine persistLocked_ends ⟨.commit (hcommit _ rfl rfl) (hcommit _ rfl rfl).reopen, _, rfl, ?_⟩
      (fun e => ⟨h.saved.mono hgrow, h.saved.mono hgrow, h.disk.mono hgrow⟩) (h.disk.mono hgrow)
    exact ⟨hvalid, Nat.succ_pos _, a', Table.get_insert_self _ _ _, .refl a'⟩
  · exact ⟨hcount, h.saved, h.disk⟩
  · exact h.disk

theorem createApplication_identifies {wake : GoString} (howner : valid owner = true)
    (h : Everywhere codec (Identified w.contexts.ownerOf) w.store) :
    Ends (createApplication env principal owner wake) w
      (fun a w' => Everywhere codec (Identified w'.contexts.ownerOf) w'.store ∧
        Commits (Registered a) w'.store)
      (fun _ w' => Everywhere codec (Identified w'.contexts.ownerOf) w'.store)
      fun w' => Identified w'.contexts.ownerOf (codec.reopen w'.db) := by
  unfold createApplication
  rw [ends_bind, ends_require]
  refine ⟨fun _ => ?_, fun _ => h⟩
  split
  · exact h
  · refine ends_bind.mpr (randomBytes_ends (fun f _ => ends_bind.mpr (ends_question.mpr ?_)) h)
    have hid := valid_newApplicationID ((List.range 16).map f)
    generalize newApplicationID ((List.range 16).map f) = newID at hid ⊢
    exact spawnApplication_identifies hid howner
      (fun _ _ _ hmake => ContextStore.create_makes hmake) h

theorem forkApplication_identifies {parentID wake : GoString}
    (hanew : ∀ f, env.random w.tick = some f → ∀ o ∈ w.contexts.operations,
      o.key ≠ lit "fork:" ++ newApplicationID ((List.range 16).map f))
    (howner : valid owner = true)
    (h : Everywhere codec (Identified w.contexts.ownerOf) w.store) :
    Ends (forkApplication env principal parentID owner wake) w
      (fun a w' => Everywhere codec (Identified w'.contexts.ownerOf) w'.store ∧
        Commits (Registered a) w'.store)
      (fun _ w' => Everywhere codec (Identified w'.contexts.ownerOf) w'.store)
      fun w' => Identified w'.contexts.ownerOf (codec.reopen w'.db) := by
  unfold forkApplication
  refine ends_bind.mpr (findApplication_ends (fun parent _ => ?_) fun _ => h)
  refine ends_bind.mpr (ends_require.mpr ⟨fun _ => ?_, fun _ => h⟩)
  refine ends_bind.mpr (ends_require.mpr ⟨fun _ => ?_, fun _ => h⟩)
  split
  · exact h
  · refine ends_bind.mpr (randomBytes_ends (fun f hf => ends_bind.mpr (ends_question.mpr ?_)) h)
    have hid := valid_newApplicationID ((List.range 16).map f)
    have hkey := hanew f hf
    generalize newApplicationID ((List.range 16).map f) = newID at hid hkey ⊢
    exact spawnApplication_identifies hid howner
      (fun _ _ _ hmake => ContextStore.forkTo_makes hkey hmake) h

/-! ## Runs -/

def Event.OwnerValid : Event K → Prop
  | .call (.createApplication _ owner _) | .call (.forkApplication _ _ owner _) => valid owner = true
  | _ => True

/-- The id that a fork draws was not drawn by an earlier one, which would be repeated. -/
def Event.ForksAnew (env : Env K) (s : System K) : Event K → Prop
  | .call (.forkApplication _ _ _ _) => ∀ f ∈ env.random s.world.tick,
      ∀ o ∈ s.world.contexts.operations,
        o.key ≠ lit "fork:" ++ newApplicationID ((List.range 16).map f)
  | _ => True

/-- What is assumed of the steps of a run: the ids it draws for applications are new, and owners
are valid UTF-8. -/
def Event.Identifies (env : Env K) (s : System K) (e : Event K) : Prop :=
  e.IsFresh env s ∧ e.ForksAnew env s ∧ e.OwnerValid

theorem allowed_of_identifies (s : System K) (e : Event K) (he : e.Identifies env s) :
    Allowed False (.all False) False env s e :=
  .ofFresh he.1 (fun h => h.elim) fun h => h.elim

variable {s s' : System K} {e : Event K}

theorem step_contexts (hsafe : s.Safe False) (hf : e.IsFresh env s)
    (hstep : step env s e = some s') : ContextStore.Grows s.world.contexts s'.world.contexts := by
  cases hup : s.up with
  | true =>
    simp only [step, hup, if_true] at hstep
    exact (stepUp_stepped hup hsafe (.ownFresh hf) hstep).contexts
  | false => exact (step_started hup hsafe (.ownFresh hf) hstep).contexts

theorem perform_identified {c : Op K Application}
    (h : Ends c s.world
      (fun a w' => Everywhere codec (Identified w'.contexts.ownerOf) w'.store ∧
        Commits (Registered a) w'.store)
      (fun _ w' => Everywhere codec (Identified w'.contexts.ownerOf) w'.store)
      fun w' => Identified w'.contexts.ownerOf (codec.reopen w'.db)) :
    (s.perform (discard c) fun _ t => t).Holds
      (Identified (s.perform (discard c) fun _ t => t).world.contexts.ownerOf) := by
  rw [perform_discard]
  refine perform_of_ends (R := fun t => t.Holds (Identified t.world.contexts.ownerOf))
    (h.mono (fun a w' hw => ⟨hw.1.disk, fun _ => hw.1⟩) (fun _ w' hw => ⟨hw.disk, fun _ => hw⟩)
      fun w' hw => ⟨hw, fun hd => ?_⟩)
  cases hd

theorem identified_step (hsafe : s.Safe False) (he : e.Identifies env s)
    (hstep : step env s e = some s') (h : s.Holds (Identified s.world.contexts.ownerOf)) :
    s'.Holds (Identified s'.world.contexts.ownerOf) := by
  obtain ⟨hf, hanew, howner⟩ := he
  by_cases hw : e.Writes s .identities
  · have hup := up_of_writes hw hstep
    simp only [step, hup, if_true, stepUp] at hstep
    cases e with
    | call c =>
      cases hstep
      cases c with
      | createApplication =>
        exact perform_identified (createApplication_identifies howner (h.store hup))
      | forkApplication =>
        exact perform_identified (forkApplication_identifies hanew howner (h.store hup))
      | _ => simp [Event.Writes, Call.Writes] at hw
    | _ => simp [Event.Writes] at hw
  · have hgrow := step_contexts hsafe hf hstep
    exact (h.step (identified_lasting _ hw) hsafe (.ownFresh hf) hstep).mono
      fun _ hc => hc.mono hgrow

theorem Reachable.identified (h : Reachable env (fun s e => e.Identifies env s) s) :
    s.Holds (Identified s.world.contexts.ownerOf) := by
  refine h.invariant (I := fun s => s.Holds (Identified s.world.contexts.ownerOf))
    allowed_of_identifies (fun k => ⟨?_, by simp [System.initial]⟩)
    fun s e s' hsafe he hstep ih => identified_step hsafe he hstep ih
  refine ⟨each_empty, each_empty, each_empty, fun i j a b ha => ?_⟩
  have hnone : (∅ : Table GoString Application)[i]? = none := by simp
  cases hnone.symm.trans ha

end Aok.Runtime
