import Aok.Runtime.Commits

/-!
# Artifact exports

`ExportArtifact` asks the export gate in one critical section and records the transfer in
another, where it looks neither at the taint nor at the state of the application again. What
runs in between can taint or retire the application. Where no step does so while an export of
the application waits to be staged, every recorded export is one of a clean application.
-/

namespace Aok.Runtime
open Lib Lib.Utf8 Lib.JsonText Lib.JsonValue Lib.Command Lib.Journal

variable {K : Type} {U P : Prop} {S : Terms} {env : Env K} {c c' : Core} {id : GoString}
  {w : World K} {s s' : System K} {e : Event K}

/-- The application is not retired and its taint is within the export mask. -/
def IsClean (env : Env K) (id : GoString) (c : Core) : Prop :=
  ∃ a, c.state.applications[id]? = some a ∧ a.isRetired = false ∧ blockedBits env a = 0

theorem AppStep.clean {a a' : Application} (h : AppStep S id a a') (ht : ¬ S.writes (.taint id))
    (hl : ¬ S.writes (.lifecycle id)) (ha : a.isRetired = false ∧ blockedBits env a = 0) :
    a'.isRetired = false ∧ blockedBits env a' = 0 := by
  have hretired := h.lifecycle.resolve_left hl
  refine ⟨Bool.eq_false_iff.mpr fun hr => ?_, ?_⟩
  · exact absurd (hretired hr) (by simp [ha.1])
  · rw [blockedBits, h.untainted.resolve_left ht]
    exact ha.2

theorem Change.isClean {k : Level} (ht : ¬ S.writes (.taint id)) (hl : ¬ S.writes (.lifecycle id))
    (h : Change U S env c k c') (hc : IsClean env id c) : IsClean env id c' := by
  obtain ⟨a, ha, hclean⟩ := hc
  obtain ⟨a', ha', hmove⟩ := h.application_to ha
  cases hmove with
  | same => exact ⟨a, ha', hclean⟩
  | step hs => exact ⟨a', ha', hs.clean ht hl hclean⟩
  | settle t hs =>
    refine ⟨t.application, ha', Bool.eq_false_iff.mpr fun hr => ?_, ?_⟩
    · exact absurd (hs.lifecycle hr) (by simp [hclean.1])
    · rw [blockedBits, hs.taintBits]
      exact hclean.2

theorem isClean_reopen_iff (hw : WellFormed U c) :
    IsClean env id (codec.reopen (codec.save c)) ↔ IsClean env id c := by
  have hget : (codec.reopen (codec.save c)).state.applications[id]? =
      (c.state.applications[id]?).map Application.image := hw.get_save_application id
  simp only [IsClean, hget]
  cases c.state.applications[id]? with
  | none => simp
  | some a => simp [Application.image, Application.isRetired, blockedBits]

theorem isClean_manifest (ht : ¬ S.writes (.taint id)) (hl : ¬ S.writes (.lifecycle id)) :
    Manifest U S env (IsClean env id) :=
  ⟨fun _ _ _ _ hc => hc.isClean ht hl, fun _ => isClean_reopen_iff⟩

/-! ## The two sections -/

theorem exportGate_ends {principal : GoString} {payload : Bytes} (hs : Sound U w) :
    Ends (exportGate env principal id payload) w
      (fun _ w' => Everywhere codec (IsClean env id) w'.store) (fun _ _ => True) fun _ => True := by
  unfold exportGate exportApplication
  rw [ends_bind]
  refine findApplication_ends (fun a ha => ?_) fun _ => trivial
  simp only [ends_bind, ends_require, ne_eq, not_true_eq_false, if_false, Bool.false_eq_true,
    false_and, not_false_eq_true, if_true]
  refine ⟨fun hlive => ⟨fun _ => ?_, fun _ => trivial⟩, fun _ => trivial⟩
  split_ifs with hblocked
  · simp only [ends_bind, auditLocked, now, ends_question, ends_editCore]
    refine persistLocked_ends ?_ (fun _ => trivial) trivial
    have hclean : IsClean env id w.sup.core := ⟨a, ha, hlive, hblocked⟩
    exact .commit hclean ((isClean_reopen_iff hs.live).mpr hclean)
  · simp only [ends_bind, auditLocked, now, ends_question, ends_editCore]
    exact persistLocked_ends trivial (fun _ => trivial) trivial

def transfersOf (c : Core) : List ArtifactTransfer := c.state.transfers.map ArtifactTransfer.image

def Stages (direction : Direction) (id : GoString) (c : Core) : Store Core State → Prop :=
  Commits fun c' => ∃ x : ArtifactTransfer, x.direction = direction ∧ x.applicationID = id ∧
    c'.state.transfers = keepNewest maxTransfers (c.state.transfers ++ [x])

theorem stageTransfer_transacts {direction : Direction} {taint : UInt64} {action : String}
    {principal key : GoString} {payload : Bytes} :
    Transacts w.store (fun _ st => Undone codec w.store st ∨ Stages direction id w.sup.core st)
      (fun _ => Stages direction id w.sup.core)
      (stageTransfer env direction taint action principal id key payload) w := by
  unfold stageTransfer
  refine .findApplication rfl fun a _ => .require rfl fun _ => .getState ?_
  split
  · exact .pure (.inl (.inl rfl))
  · refine .now fun n => ?_
    dsimp only [accumulateTaint, updateApplication]
    refine .editState ?_
    refine .editState ?_
    refine .audit fun t n => ?_
    refine .persist rfl rfl fun n => ?_
    refine .pure (.inr ⟨_, rfl, ⟨transferID (w.sup.core.state.nextSequence + 1), id, direction, key,
      payload, env.now w.tick⟩, rfl, rfl, ?_⟩)
    simp only [World.commit, Core.audit, World.setCore, Core.withState]

theorem map_keepNewest {α β : Type} (f : α → β) (n : ℕ) (l : List α) :
    (keepNewest n l).map f = keepNewest n (l.map f) := by
  simp [keepNewest, List.map_drop]

/-! ## Runs -/

theorem transfersOf_reopen (c : Core) :
    transfersOf (codec.reopen (codec.save c)) = transfersOf c :=
  map_image_image ArtifactTransfer.image_image _

theorem transfersOf_lasting (hS : ¬ S.writes .transfers) (l : List ArtifactTransfer) :
    Lasting U S env fun c => transfersOf c = l where
  change := by
    intro k c c' h hc
    cases h with
    | side hf | shelf hf => rw [transfersOf, hf.transfers.resolve_left fun h => hS h.1]; exact hc
    | audit | application | messages | register | enqueue | stage | settle => exact hc
    | cosign => simpa [transfersOf] using hc
  reopen := fun c hc => (transfersOf_reopen c).trans hc

/-- While an export of an application waits to be staged, no step taints or retires the
application. -/
def Event.SparesExports (s : System K) (e : Event K) : Prop :=
  ∀ x ∈ s.exports, ¬ e.Writes s (.taint x.2.1) ∧ ¬ e.Writes s (.lifecycle x.2.1)

instance (s : System K) (e : Event K) : Decidable (e.SparesExports s) :=
  inferInstanceAs (Decidable (∀ x ∈ s.exports, _))

theorem perform_exports {α : Type} {c : Op K α} {next : Except Err α → System K → System K}
    (hnext : ∀ r t, (next r t).exports ⊆ t.exports) :
    (s.perform c next).exports ⊆ s.exports := by
  unfold System.perform
  split
  · exact hnext _ _
  · exact hnext _ _
  · simp [System.down]

theorem loopStep_exports (h : loopStep env s = some s') : s'.exports ⊆ s.exports := by
  unfold loopStep at h
  split at h
  case h_1 => cases h
  case h_2 =>
    cases h
    exact perform_exports fun r t => by cases r <;> exact .refl _
  case h_3 | h_4 => cases h; exact .refl _
  case h_5 | h_6 | h_7 =>
    cases h
    exact perform_exports fun r t => by cases r <;> exact .refl _
  case h_8 =>
    cases h
    refine perform_exports fun r t => ?_
    rcases r with _ | _ | _ <;> exact .refl _
  case h_9 =>
    split at h <;> cases h
    exact .refl _
  case h_10 =>
    cases h
    exact perform_exports fun r t => by cases r <;> exact .refl _
  case h_11 =>
    split at h <;> cases h
    exact .refl _

theorem workerStep_exports {i : ℕ} {y : Worker} (h : workerStep env s i y = some s') :
    s'.exports ⊆ s.exports := by
  unfold workerStep at h
  dsimp only at h
  split at h
  case h_1 =>
    split at h <;> cases h <;> exact .refl _
  case h_2 => cases h; exact .refl _
  case h_3 => cases h
  case h_4 =>
    cases h
    exact perform_exports fun r t => .refl _
  case h_5 =>
    split at h <;> cases h <;> exact .refl _
  case h_6 | h_7 =>
    cases h
    exact perform_exports fun r t => by cases r <;> exact .refl _
  case h_8 =>
    cases h
    exact perform_exports fun r t => .refl _
  case h_9 => cases h; exact .refl _

theorem step_exports (hs : s.Safe U) (h : step env s e = some s') :
    ∀ x ∈ s'.exports, x ∈ s.exports ∨ s'.Holds (IsClean env x.2.1) := by
  cases hup : s.up with
  | false =>
    simp only [step, hup, Bool.false_eq_true, if_false] at h
    have hsub : s'.exports ⊆ s.exports := by
      cases e with
      | start => cases h; exact perform_exports fun r t => by cases r <;> exact .refl _
      | kernel k => cases h; exact .refl _
      | _ => cases h
    exact fun x hx => .inl (hsub hx)
  | true =>
    simp only [step, hup, if_true, stepUp] at h
    cases e with
    | start => cases h
    | crash => cases h; simp [System.down]
    | close =>
      dsimp only at h
      split at h <;> cases h
      exact fun x hx => .inl (perform_exports (fun r t => by simp [System.down]) hx)
    | kernel k => cases h; exact fun _ h => .inl h
    | call c => cases h; exact fun x hx => .inl (perform_exports (fun r t => .refl _) hx)
    | exportArtifact p i k y =>
      cases h
      refine perform_of_ends (R := fun t => ∀ x ∈ t.exports,
        x ∈ s.exports ∨ t.Holds (IsClean env x.2.1))
        ((exportGate_ends (hs.sound hup)).mono ?_ ?_ ?_)
      · intro _ w hw x hx
        rcases List.mem_append.mp hx with hx | hx
        · exact .inl hx
        · cases List.mem_singleton.mp hx
          exact .inr ⟨hw.disk, fun _ => hw⟩
      · exact fun _ w _ x hx => .inl hx
      · exact fun w _ x hx => by simp [System.down] at hx
    | exportStage j =>
      dsimp only at h
      split at h <;> cases h
      exact fun x hx => .inl (perform_exports (fun r t => List.eraseIdx_subset) hx)
    | run p | loopFailure =>
      dsimp only [loopFailure] at h
      split at h <;> cases h
      exact fun _ h => .inl h
    | cancel => cases h; exact fun _ h => .inl h
    | loopDone =>
      dsimp only [loopDone] at h
      split at h
      · cases hl : s.loop <;> rw [hl] at h <;> cases h <;> exact fun _ h => .inl h
      · cases h
    | loopStep => exact fun x hx => .inl (loopStep_exports h hx)
    | work i =>
      dsimp only at h
      split at h
      · exact fun x hx => .inl (workerStep_exports h hx)
      · cases h
    | complete i c =>
      dsimp only at h
      split at h
      · split at h <;> cases h
        exact fun _ h => .inl h
      · cases h

theorem step_transfers {l : List ArtifactTransfer} (hs : s.Safe False) (hf : e.IsFresh env s)
    (hstep : step env s e = some s') (h : s.Holds fun c => transfersOf c = l) :
    (s'.Holds fun c => transfersOf c = l) ∨ ∃ x : ArtifactTransfer,
      (s'.Holds fun c => transfersOf c = keepNewest maxTransfers (l ++ [x])) ∧
      (x.direction = .outbound → ∃ y ∈ s.exports, x.applicationID = sanitize y.2.1) := by
  by_cases hw : e.Writes s .transfers
  · have hup := up_of_writes hw hstep
    have hkeeps : s.Keeps s' → s'.Holds fun c => transfersOf c = l := fun hk => hk _ h
    have hstages : ∀ {d : Direction} {id : GoString}, Stages d id s.world.sup.core s'.world.store →
        (d = .outbound → ∃ y ∈ s.exports, y.2.1 = id) → ∃ x : ArtifactTransfer,
          (s'.Holds fun c => transfersOf c = keepNewest maxTransfers (l ++ [x])) ∧
          (x.direction = .outbound → ∃ y ∈ s.exports, x.applicationID = sanitize y.2.1) := by
      rintro d id ⟨c', hc', x, hxd, hxi, hx⟩ hd
      have hview : transfersOf c' = keepNewest maxTransfers (l ++ [x.image]) := by
        rw [← (h.store hup).live, transfersOf, hx, map_keepNewest, List.map_append]
        rfl
      refine ⟨x.image, .of_commit hc' hview ((transfersOf_reopen c').trans hview), fun hout => ?_⟩
      obtain ⟨y, hy, rfl⟩ := hd (hxd ▸ hout)
      exact ⟨y, hy, congrArg sanitize hxi⟩
    simp only [step, hup, if_true, stepUp] at hstep
    cases e with
    | call c =>
      cases hstep
      cases c with
      | commitImport p i k x =>
        exact Or.imp hkeeps (fun h => hstages h (by simp))
          (perform_undoes hup (discard_transacts stageTransfer_transacts |>.mono
            (fun _ _ h => h.elim fun _ h => h) fun _ _ h => h) fun _ _ => rfl)
      | _ => simp [Event.Writes, Call.Writes] at hw
    | exportStage j =>
      dsimp only at hstep
      split at hstep <;> cases hstep
      next p i k x hj =>
        exact Or.imp hkeeps (fun h => hstages h fun _ => ⟨_, List.mem_of_getElem? hj, rfl⟩)
          (perform_undoes hup stageTransfer_transacts fun _ _ => rfl)
    | _ => simp [Event.Writes] at hw
  · exact .inl (h.step (transfersOf_lasting hw l) hs (.ownFresh hf) hstep)

/-- What holds between the steps of a run that spares waiting exports. -/
structure Exporting (env : Env K) (s : System K) : Prop where
  gates : ∀ x ∈ s.exports, s.Holds (IsClean env x.2.1)
  transfers : ∃ l, s.Holds fun c => transfersOf c = l

theorem Exporting.step (hx : Exporting env s) (hs : s.Safe False) (hf : e.IsFresh env s)
    (he : e.SparesExports s) (hstep : Runtime.step env s e = some s') : Exporting env s' where
  gates := by
    intro x hx'
    refine (step_exports hs hstep x hx').elim (fun hmem => ?_) fun h => h
    obtain ⟨ht, hl⟩ := he x hmem
    exact (hx.gates x hmem).manifest (isClean_manifest ht hl) hs (.ownFresh hf) hstep
  transfers := by
    obtain ⟨l, hl⟩ := hx.transfers
    rcases step_transfers hs hf hstep hl with h | ⟨x, h, -⟩
    · exact ⟨_, h⟩
    · exact ⟨_, h⟩

theorem allowed_of_fresh (s : System K) (e : Event K) {C : Prop} (he : e.IsFresh env s ∧ C) :
    Allowed False (.all False) False env s e :=
  .ofFresh he.1 (fun hf => hf.elim) fun hf => hf.elim

/-- In every run in which no step taints or retires an application while an export of it waits to
be staged, a step leaves the committed transfers as they are or commits one more, and an export
only together with a state in which its application is not retired and its taint is within the
mask. -/
theorem exports_committed_clean
    (h : Reachable env (fun s e => e.IsFresh env s ∧ e.SparesExports s) s)
    (he : e.IsFresh env s ∧ e.SparesExports s) (hstep : step env s e = some s') :
    s'.world.db.transfers = s.world.db.transfers ∨ ∃ x : ArtifactTransfer,
      s'.world.db.transfers = keepNewest maxTransfers (s.world.db.transfers ++ [x]) ∧
      (x.direction = .outbound → IsClean env x.applicationID (codec.reopen s'.world.db)) := by
  have hs := h.safe fun s e => allowed_of_fresh s e
  have hinv : Exporting env s := h.invariant (fun s e => allowed_of_fresh s e)
    (fun k => ⟨by simp [System.initial], [], rfl, by simp [System.initial]⟩)
    fun s e s' hs he hstep ih => ih.step hs he.1 he.2 hstep
  have hread : ∀ {s : System K} {l},
      Reachable env (fun s e => e.IsFresh env s ∧ e.SparesExports s) s →
      (s.Holds fun c => transfersOf c = l) → s.world.db.transfers = l := by
    intro s l h hl
    rw [← hl.disk]
    exact (congrArg State.transfers (h.image_db fun s e => allowed_of_fresh s e)).symm
  have hnext : Reachable env (fun s e => e.IsFresh env s ∧ e.SparesExports s) s' :=
    h.trans (.single ⟨e, he, hstep⟩)
  obtain ⟨l, hl⟩ := hinv.transfers
  rw [hread h hl]
  refine (step_transfers hs he.1 hstep hl).imp (hread hnext) ?_
  rintro ⟨x, hx, hout⟩
  refine ⟨x, hread hnext hx, fun hd => ?_⟩
  obtain ⟨y, hy, hid⟩ := hout hd
  -- the application is clean before the step, and staging does not touch it
  obtain ⟨ht, hlife⟩ := he.2 y hy
  have hclean := (hinv.gates y hy).manifest (isClean_manifest ht hlife) hs (.ownFresh he.1) hstep
  obtain ⟨a, ha, -⟩ := hclean.disk
  have hvalid := ((hs.step (.ownFresh he.1) hstep).disk.named.applications _ a ha).1
  rw [hid, sanitize_of_valid hvalid]
  exact hclean.disk

namespace Sample

def gate : Event Unit := .exportArtifact admin app (lit "k") (lit "1")

example : runs (create ++ [gate]) := by decide +kernel

end Sample

open Sample

instance {env : Env Unit} : Decidable (IsClean env id c) :=
  decidable_of_iff (∃ a ∈ c.state.applications[id]?, a.isRetired = false ∧ blockedBits env a = 0)
    Iff.rfl

/-- An export with nothing in between. -/
theorem exports_committed_clean_first : ∃ s s' : System Unit,
    step calm s (.exportStage 0) = some s' ∧ s'.world.db.transfers.length = 1 ∧
    (s'.world.db.transfers = s.world.db.transfers ∨ ∃ x : ArtifactTransfer,
      s'.world.db.transfers = keepNewest maxTransfers (s.world.db.transfers ++ [x]) ∧
      (x.direction = .outbound → IsClean calm x.applicationID (codec.reopen s'.world.db))) := by
  have hrun : ∃ s, Run calm (fun s e => e.IsFresh calm s ∧ e.SparesExports s)
      (System.initial ()) s ∧ (Event.SparesExports s (.exportStage 0) ∧
      ∃ s' ∈ step calm s (.exportStage 0), s'.world.db.transfers.length = 1) :=
    exists_run (create ++ [gate]) (by decide +kernel)
  obtain ⟨s, hs, he, s', hstep, hlen⟩ := hrun
  exact ⟨s, s', hstep, hlen, exports_committed_clean (e := .exportStage 0) ⟨(), hs⟩
    ⟨trivial, he⟩ hstep⟩

/-- An import between the gate and the staging taints the application, and a retirement there
retires it; the export is committed all the same. -/
theorem exists_export_after_taint : [Call.commitImport admin app (lit "i") (lit "1"),
      Call.retireApplication admin app].Forall fun c =>
    ∃ s ∈ runAll calm (fun s e => e.IsFresh calm s) (System.initial ())
      (create ++ [gate, .call c]), ∃ s', Reachable calm (fun s e => e.IsFresh calm s) s ∧
    step calm s (.exportStage 0) = some s' ∧ ∃ x : ArtifactTransfer,
      s'.world.db.transfers = s.world.db.transfers ++ [x] ∧ x.direction = .outbound ∧
      x.applicationID = app ∧ ¬ IsClean calm app (codec.reopen s'.world.db) := by
  have hrun : ∀ c ∈ [Call.commitImport admin app (lit "i") (lit "1"),
      Call.retireApplication admin app],
      ∃ s ∈ runAll calm (fun s e => e.IsFresh calm s) (System.initial ())
        (create ++ [gate, .call c]),
      ∃ s' ∈ step calm s (.exportStage 0), ∃ x ∈ s'.world.db.transfers.getLast?,
        s'.world.db.transfers = s.world.db.transfers ++ [x] ∧ x.direction = .outbound ∧
        x.applicationID = app ∧
        ¬ IsClean calm app (codec.reopen s'.world.db) := by decide +kernel
  refine List.forall_iff_forall_mem.mpr fun c hc => ?_
  obtain ⟨s, hs, s', hstep, x, -, hx⟩ := hrun c hc
  exact ⟨s, hs, s', ⟨(), run_of_runAll hs⟩, hstep, x, hx⟩

end Aok.Runtime
