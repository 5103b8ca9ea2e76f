import Aok.Lib.Mask
import Aok.Runtime.Exports
import Aok.Runtime.Histories

/-!
# Transfers by key

Imports and exports share one list of transfers, which keeps the newest 256 and is searched by
application and key alone. A call under a key in the list returns what it finds there, whatever
its direction and payload; a call under a key that was dropped from the list stages a second
transfer. Where a key is repeated only for the same direction and value, and only while its
transfer is kept, each key stages one transfer and every call gets what it asked for.
-/

namespace Aok.Runtime
open Lib Lib.Utf8 Lib.JsonText Lib.JsonValue Lib.Command Lib.Journal

variable {K : Type} {U P : Prop} {S : Terms} {env : Env K} {c c' : Core} {id key : GoString}
  {w : World K} {s s' : System K} {e : Event K} {h : History K}

/-! ## Taint from outside -/

def Tainted (id : GoString) (c : Core) : Prop :=
  ∃ a, c.state.applications[id]? = some a ∧ Mask.Within taintExternal a.taintBits

theorem Change.tainted {k : Level} (hc : Change U S env c k c') (h : Tainted id c) :
    Tainted id c' := by
  obtain ⟨a, ha, ht⟩ := h
  obtain ⟨a', ha', hmove⟩ := hc.application_to ha
  cases hmove with
  | same => exact ⟨a, ha', ht⟩
  | step hs =>
    refine ⟨a', ha', ?_⟩
    rw [← hs.taint]
    exact ht.or_left
  | settle t hs => exact ⟨t.application, ha', hs.taintBits ▸ ht⟩

theorem tainted_reopen_iff (hw : WellFormed U c) :
    Tainted id (codec.reopen (codec.save c)) ↔ Tainted id c := by
  have hget : (codec.reopen (codec.save c)).state.applications[id]? =
      (c.state.applications[id]?).map Application.image := hw.get_save_application id
  simp only [Tainted, hget]
  cases c.state.applications[id]? with
  | none => simp
  | some a => simp [Application.image]

theorem tainted_manifest : Manifest U S env (Tainted id) :=
  ⟨fun _ _ _ _ hc => hc.tainted, fun _ => tainted_reopen_iff⟩

/-! ## Requests -/

/-- What a call of `CommitImport`, or of `ExportArtifact` after its gate, asks for. -/
structure TransferRequest where
  direction : Direction
  principal : GoString
  applicationID : GoString
  key : GoString
  payload : Bytes

namespace TransferRequest

def run (env : Env K) (r : TransferRequest) : Op K ArtifactTransfer :=
  match r.direction with
  | .inbound => commitImport env r.principal r.applicationID r.key r.payload
  | .outbound => exportStage env r.principal r.applicationID r.key r.payload

def Finds (r : TransferRequest) (x : ArtifactTransfer) : Prop :=
  x.idempotencyKey = r.key ∧ x.applicationID = r.applicationID

instance (r : TransferRequest) (x : ArtifactTransfer) : Decidable (r.Finds x) :=
  inferInstanceAs (Decidable (_ ∧ _))

structure Answered (r : TransferRequest) (x : ArtifactTransfer) : Prop where
  direction : x.direction = r.direction
  payload : parse x.payload = parse r.payload

end TransferRequest

def Event.request (s : System K) : Event K → Option TransferRequest
  | .call (.commitImport p i k x) => some ⟨.inbound, p, i, k, x⟩
  | .exportStage j => (s.exports[j]?).map fun (p, i, k, x) => ⟨.outbound, p, i, k, x⟩
  | _ => none

def Direction.taint : Direction → UInt64
  | .inbound => taintExternal
  | .outbound => 0

def StagesNew (r : TransferRequest) (x : ArtifactTransfer) (c : Core) : Store Core State → Prop :=
  Commits fun c' => c'.state.transfers = keepNewest maxTransfers (c.state.transfers ++ [x]) ∧
    (r.direction = .inbound → Tainted r.applicationID c')

theorem stageTransfer_answers {direction : Direction} {action : String} {principal : GoString}
    {payload : Bytes} :
    Transacts w.store (fun x st => (st = w.store ∧ x ∈ w.sup.core.state.transfers ∧
        x.idempotencyKey = key ∧ x.applicationID = id ∧ w.sup.core.state.Knows id) ∨
      (∀ y ∈ w.sup.core.state.transfers, ¬ (y.idempotencyKey = key ∧ y.applicationID = id)) ∧
        x.direction = direction ∧ x.payload = payload ∧ x.applicationID = id ∧
        w.sup.core.state.Knows id ∧
        StagesNew ⟨direction, principal, id, key, payload⟩ x w.sup.core st)
      (fun _ _ => False)
      (stageTransfer env direction direction.taint action principal id key payload) w := by
  unfold stageTransfer
  refine .findApplication rfl fun a ha => .require rfl fun _ => .getState ?_
  have hknows : w.sup.core.state.Knows id := by simp [State.Knows, ha]
  cases hfind : w.sup.core.state.transfers.find? fun x =>
      x.idempotencyKey = key ∧ x.applicationID = id with
  | some x =>
    have hx := List.find?_some hfind
    simp only [decide_eq_true_eq] at hx
    exact .pure (.inl ⟨rfl, List.mem_of_find?_eq_some hfind, hx.1, hx.2, hknows⟩)
  | none =>
    refine .now fun n => ?_
    dsimp only [accumulateTaint, updateApplication]
    refine .editState (.editState (.audit fun t n => .persist rfl rfl fun n => .pure (.inr ?_)))
    refine ⟨fun y hy => by simpa using List.find?_eq_none.mp hfind y hy, rfl, rfl, rfl, hknows, _,
      rfl, ?_, fun hd => ?_⟩
    · simp only [World.commit, Core.audit, World.setCore, Core.withState]
    change direction = .inbound at hd
    subst hd
    refine ⟨a.addTaint taintExternal, ?_, (Mask.Within.refl _).or_right⟩
    change (updateTable (Application.addTaint taintExternal) id
      w.sup.core.state.applications)[id]? = _
    simp [get_updateTable, ha]

theorem TransferRequest.run_answers {r : TransferRequest} :
    Transacts w.store (fun x st => (st = w.store ∧ x ∈ w.sup.core.state.transfers ∧ r.Finds x ∧
        w.sup.core.state.Knows r.applicationID) ∨
      (∀ y ∈ w.sup.core.state.transfers, ¬ r.Finds y) ∧ r.Answered x ∧
        x.applicationID = r.applicationID ∧ w.sup.core.state.Knows r.applicationID ∧
        StagesNew r x w.sup.core st) (fun _ _ => False) (r.run env) w := by
  obtain ⟨d, p, i, k, y⟩ := r
  have hrun : ∀ action, Transacts w.store (fun x st => (st = w.store ∧
        x ∈ w.sup.core.state.transfers ∧ (TransferRequest.mk d p i k y).Finds x ∧
        w.sup.core.state.Knows i) ∨
      (∀ z ∈ w.sup.core.state.transfers, ¬ (TransferRequest.mk d p i k y).Finds z) ∧
        (TransferRequest.mk d p i k y).Answered x ∧ x.applicationID = i ∧
        w.sup.core.state.Knows i ∧ StagesNew ⟨d, p, i, k, y⟩ x w.sup.core st) (fun _ _ => False)
      (stageTransfer env d d.taint action p i k y) w := by
    intro action
    refine stageTransfer_answers.mono (fun x st hx => ?_) fun _ _ h => h
    rcases hx with ⟨hst, hmem, hk, hi, hn⟩ | ⟨hnone, hd, hy, hi, hn, hst⟩
    · exact .inl ⟨hst, hmem, ⟨hk, hi⟩, hn⟩
    · exact .inr ⟨hnone, ⟨hd, congrArg parse hy⟩, hi, hn, hst⟩
  cases d with
  | inbound => exact hrun _
  | outbound => exact hrun _

/-! ## Steps -/

theorem step_request {r : TransferRequest} (hr : e.request s = some r)
    (hstep : step env s e = some s') : s.up = true ∧
    ∃ next : Except Err ArtifactTransfer → System K → System K,
      (∀ x t, (next x t).world = t.world ∧ (next x t).up = t.up) ∧
      s' = s.perform (r.run env) next := by
  have hup : s.up = true := by
    by_contra hup
    rcases step_of_down (Bool.eq_false_iff.mpr hup) hstep with rfl | ⟨k, rfl⟩ <;> cases hr
  refine ⟨hup, ?_⟩
  simp only [step, hup, if_true, stepUp] at hstep
  cases e with
  | call c =>
    cases c with
    | commitImport p i k x =>
      cases hr
      refine ⟨fun _ t => t, fun _ _ => ⟨rfl, rfl⟩, ?_⟩
      exact (Option.some.inj hstep).symm.trans (perform_discard s _)
    | _ => cases hr
  | exportStage j =>
    dsimp only [Event.request] at hr
    cases hj : s.exports[j]? with
    | none => simp [hj] at hr
    | some y =>
      obtain ⟨p, i, k, x⟩ := y
      dsimp only at hstep
      rw [hj] at hr hstep
      cases hr
      refine ⟨_, ?_, (Option.some.inj hstep).symm⟩
      exact fun _ _ => ⟨rfl, rfl⟩
  | _ => cases hr

theorem request_of_writes (hw : e.Writes s .transfers) (hstep : step env s e = some s') :
    ∃ r, e.request s = some r := by
  have hup := up_of_writes hw hstep
  simp only [step, hup, if_true, stepUp] at hstep
  cases e with
  | call c => cases c <;> simp [Event.Writes, Call.Writes, Event.request] at hw ⊢
  | exportStage j =>
    cases hj : s.exports[j]? with
    | none => simp [hj] at hstep
    | some y => simp [Event.request, hj]
  | _ => simp [Event.Writes] at hw

def Adds (env : Env K) (id key : GoString) (q : System K × Event K) : Prop :=
  ∃ r ∈ q.2.request q.1, r.applicationID = id ∧ r.key = key ∧
    (∀ x ∈ q.1.world.sup.core.state.transfers, ¬ r.Finds x) ∧
    ∃ x, (r.run env q.1.world).1 = .ok x

def Staged (env : Env K) (h : History K) (id key : GoString) : Prop :=
  ∃ q ∈ h, ∃ r ∈ q.2.request q.1, r.applicationID = id ∧ r.key = key ∧
    ∃ x, (r.run env q.1.world).1 = .ok x

/-- A transfer that is kept under the key is of the direction and the value asked for, and a key
that was used is repeated only while its transfer is kept. -/
def Event.KeepsTransfers (env : Env K) (h : History K) (s : System K) (e : Event K) : Prop :=
  ∀ r ∈ e.request s,
    (∀ x ∈ s.world.sup.core.state.transfers, r.Finds x → r.Answered x) ∧
    (Staged env h r.applicationID r.key → ∃ x ∈ s.world.sup.core.state.transfers, r.Finds x)

/-- What holds between the steps: the transfers, and the taint of what was imported. -/
structure Staging (s : System K) (l : List ArtifactTransfer) : Prop where
  transfers : s.Holds fun c => transfersOf c = l
  imports : ∀ x ∈ l, x.direction = .inbound → s.Holds (Tainted x.applicationID)

variable {l : List ArtifactTransfer}

theorem mem_of_mem_keepNewest {α : Type} {n : ℕ} {l : List α} {x : α} (h : x ∈ keepNewest n l) :
    x ∈ l :=
  List.mem_of_mem_drop h

theorem Staging.tainted (hl : Staging s l) (hsafe : s.Safe U) (hup : s.up = true)
    {x : ArtifactTransfer} (hx : x ∈ s.world.sup.core.state.transfers)
    (hd : x.direction = .inbound) (hknows : s.world.sup.core.state.Knows x.applicationID) :
    s.Holds (Tainted x.applicationID) := by
  have hmem : x.image ∈ l := (hl.transfers.store hup).live ▸ List.mem_map_of_mem hx
  obtain ⟨a, ha⟩ := Option.isSome_iff_exists.mp hknows
  have hvalid := ((hsafe.sound hup).live.named.applications _ a ha).1
  have hheld := hl.imports x.image hmem hd
  rwa [show x.image.applicationID = x.applicationID from sanitize_of_valid hvalid] at hheld

/-- A request leaves the transfers as they are or adds one, and what it returns is what was asked
for, as long as what is kept under its key is. -/
theorem Staging.request {r : TransferRequest} (hl : Staging s l) (hsafe : s.Safe False)
    (hf : e.IsFresh env s) (hr : e.request s = some r) (hstep : step env s e = some s') :
    (∃ l', Staging s' l' ∧ (l' = l ∨ Adds env r.applicationID r.key (s, e))) ∧
    ∀ x, (r.run env s.world).1 = .ok x →
      (∀ y ∈ s.world.sup.core.state.transfers, r.Finds y → r.Answered y) →
      r.Answered x ∧ (r.direction = .inbound → s'.Holds (Tainted r.applicationID)) := by
  have hsafe' : s'.Safe False := hsafe.step (.ownFresh hf) hstep
  have hstay : ∀ x ∈ l, x.direction = .inbound → s'.Holds (Tainted x.applicationID) :=
    fun x hx hd => (hl.imports x hx hd).manifest tainted_manifest hsafe (.ownFresh hf) hstep
  obtain ⟨hup, next, hnext, rfl⟩ := step_request hr hstep
  rcases perform_transacts hup TransferRequest.run_answers fun x t => (hnext x t).1 with
    ⟨a, hok, ⟨hst, hmem, hfinds, hknows⟩ | ⟨hnone, hans, hid, hknows, c', hc', hlist, htaint⟩⟩ |
      ⟨hne, hk | ⟨_, -, hx⟩⟩
  · have hk : s.Keeps (s.perform (r.run env) next) := .of_undone hup (.inl hst)
    refine ⟨⟨l, ⟨hk _ hl.transfers, hstay⟩, .inl rfl⟩, fun x hx hkept => ?_⟩
    cases hok.symm.trans hx
    have hans := hkept a hmem hfinds
    refine ⟨hans, fun hd => hk _ ?_⟩
    have hheld := hl.tainted hsafe hup hmem (hans.direction.trans hd) (hfinds.2 ▸ hknows)
    rwa [hfinds.2] at hheld
  · have hlive : WellFormed False c' := by
      have hwf := (hsafe'.sound ((perform_up hok fun x t => (hnext x t).2).trans hup)).live
      rwa [hc'] at hwf
    have hnew : r.direction = .inbound →
        (s.perform (r.run env) next).Holds (Tainted r.applicationID) := fun hd =>
      .of_commit hc' (htaint hd) ((tainted_reopen_iff hlive).mpr (htaint hd))
    refine ⟨⟨keepNewest maxTransfers (l ++ [a.image]), ⟨?_, fun x hx hd => ?_⟩,
      .inr ⟨r, hr, rfl, rfl, hnone, a, hok⟩⟩, fun x hx _ => ?_⟩
    · have hview : transfersOf c' = keepNewest maxTransfers (l ++ [a.image]) := by
        rw [← (hl.transfers.store hup).live, transfersOf, hlist, map_keepNewest, List.map_append]
        rfl
      exact .of_commit hc' hview ((transfersOf_reopen c').trans hview)
    · rcases List.mem_append.mp (mem_of_mem_keepNewest hx) with hx | hx
      · exact hstay x hx hd
      · cases List.mem_singleton.mp hx
        obtain ⟨b, hb⟩ := Option.isSome_iff_exists.mp hknows
        have hvalid := ((hsafe.sound hup).live.named.applications _ b hb).1
        have hheld := hnew (hans.direction.symm.trans hd)
        rwa [← sanitize_of_valid hvalid, ← hid] at hheld
    · cases hok.symm.trans hx
      exact ⟨hans, hnew⟩
  · exact ⟨⟨l, ⟨hk _ hl.transfers, hstay⟩, .inl rfl⟩, fun x hx => absurd hx (hne x)⟩
  · exact hx.elim

/-- A step leaves the transfers as they are or stages one. -/
theorem Staging.step (hl : Staging s l) (hsafe : s.Safe False) (hf : e.IsFresh env s)
    (hstep : Runtime.step env s e = some s') :
    ∃ l', Staging s' l' ∧ (l' = l ∨ ∃ id key, Adds env id key (s, e)) := by
  by_cases hw : e.Writes s .transfers
  · obtain ⟨r, hr⟩ := request_of_writes hw hstep
    obtain ⟨⟨l', hl', h⟩, -⟩ := hl.request hsafe hf hr hstep
    exact ⟨l', hl', h.imp_right fun ha => ⟨_, _, ha⟩⟩
  · refine ⟨l, ⟨hl.transfers.step (transfersOf_lasting hw l) hsafe (.ownFresh hf) hstep, ?_⟩,
      .inl rfl⟩
    exact fun x hx hd => (hl.imports x hx hd).manifest tainted_manifest hsafe (.ownFresh hf) hstep

/-! ## Stories -/

theorem allowed_of_keepsTransfers (h : History K) (s : System K) (e : Event K)
    (he : e.IsFresh env s ∧ e.KeepsTransfers env h s) : Allowed False (.all False) False env s e :=
  allowed_of_fresh s e he

theorem Story.staging
    (hs : Story env (fun h s e => e.IsFresh env s ∧ e.KeepsTransfers env h s) h s) :
    ∃ l, Staging s l := by
  refine hs.invariant (I := fun _ s => ∃ l, Staging s l) allowed_of_keepsTransfers
    (fun k => ⟨[], ⟨rfl, by simp [System.initial]⟩, by simp⟩) fun h s e s' _ hsafe he hstep ih => ?_
  obtain ⟨l, hl⟩ := ih
  obtain ⟨l', hl', -⟩ := hl.step hsafe he.1 hstep
  exact ⟨l', hl'⟩

theorem Story.adds_once
    (hs : Story env (fun h s e => e.IsFresh env s ∧ e.KeepsTransfers env h s) h s)
    (id key : GoString) : h.Pairwise fun q q' => ¬ (Adds env id key q ∧ Adds env id key q') := by
  induction hs with
  | start => exact .nil
  | next hs he hstep ih =>
    refine .cons ?_ ih
    rintro q hq ⟨⟨r, hr, rfl, rfl, hnone, -⟩, ⟨r', hr', hid, hkey, -, hok⟩⟩
    obtain ⟨x, hx, hfinds⟩ := (he.2 r hr).2 ⟨q, hq, r', hr', hid, hkey, hok⟩
    exact hnone x hx hfinds

theorem Reachable.db_transfers (h : Reachable env (fun s e => e.IsFresh env s) s)
    (hl : s.Holds fun c => transfersOf c = l) : s.world.db.transfers = l := by
  have hdb := h.image_db fun s e (hf : e.IsFresh env s) => allowed_of_fresh s e ⟨hf, trivial⟩
  rw [← hl.disk]
  exact (congrArg State.transfers hdb).symm

/-- In every story in which a kept transfer is of the direction and the value asked for under its
key, and a key is repeated only while its transfer is kept: no two steps stage a transfer of one
application under one key, and the committed transfers change only where one is staged. A request
that succeeds returns a transfer of its direction and its value, and after an import the
application is tainted, in memory and on disk. -/
theorem transfers_staged_once
    (hs : Story env (fun h s e => e.IsFresh env s ∧ e.KeepsTransfers env h s) h s) :
    (∀ id key, h.Pairwise fun q q' => ¬ (Adds env id key q ∧ Adds env id key q')) ∧
    ∀ e s', e.IsFresh env s → e.KeepsTransfers env h s → step env s e = some s' →
      (s'.world.db.transfers = s.world.db.transfers ∨ ∃ id key, Adds env id key (s, e)) ∧
      ∀ r, e.request s = some r → ∀ x, (r.run env s.world).1 = .ok x →
        x.direction = r.direction ∧ parse x.payload = parse r.payload ∧
        (r.direction = .inbound → s'.Holds (Tainted r.applicationID)) := by
  refine ⟨hs.adds_once, fun e s' hf hk hstep => ⟨?_, fun r hr x hx => ?_⟩⟩
  · have hreach : Reachable env (fun s e => e.IsFresh env s) s := hs.reachable fun _ _ _ he => he.1
    obtain ⟨l, hl⟩ := hs.staging
    obtain ⟨l', hl', h⟩ := hl.step (hs.safe allowed_of_keepsTransfers) hf hstep
    rw [hreach.db_transfers hl.transfers,
      (hreach.trans (.single ⟨e, hf, hstep⟩)).db_transfers hl'.transfers]
    exact h
  · obtain ⟨l, hl⟩ := hs.staging
    obtain ⟨hans, htaint⟩ := (hl.request (hs.safe allowed_of_keepsTransfers) hf hr hstep).2 x hx
      (hk r hr).1
    exact ⟨hans.direction, hans.payload, htaint⟩

def Event.RepeatsTransfers (h : History K) (s : System K) (e : Event K) : Prop :=
  ∀ r ∈ e.request s,
    (∀ x ∈ s.world.sup.core.state.transfers, r.Finds x →
      x.direction = r.direction ∧ x.payload = r.payload) ∧
    ((∃ q ∈ h, ∃ r' ∈ q.2.request q.1, r'.applicationID = r.applicationID ∧ r'.key = r.key) →
      ∃ x ∈ s.world.sup.core.state.transfers, r.Finds x)

instance (h : History K) (s : System K) (e : Event K) : Decidable (e.RepeatsTransfers h s) :=
  inferInstanceAs (Decidable (∀ r ∈ e.request s, _ ∧ _))

theorem Event.RepeatsTransfers.keeps (he : e.RepeatsTransfers h s) :
    e.KeepsTransfers env h s := by
  intro r hr
  obtain ⟨hsame, hkept⟩ := he r hr
  refine ⟨fun x hx hfinds => ?_, ?_⟩
  · obtain ⟨hd, hp⟩ := hsame x hx hfinds
    exact ⟨hd, congrArg parse hp⟩
  · rintro ⟨q, hq, r', hr', hid, hkey, -⟩
    exact hkept ⟨q, hq, r', hr', hid, hkey⟩

namespace Sample

def importing (key payload : String) : Event Unit :=
  .call (.commitImport admin app (lit key) (lit payload))

def exporting (key payload : String) : List (Event Unit) :=
  [.exportArtifact admin app (lit key) (lit payload), .exportStage 0]

example : runs (create ++ exporting "k" "1") := by decide +kernel

end Sample

open Sample

/-- An export and an import, repeated across a restart. -/
theorem transfers_staged_once_repeated : ∃ (h : History Unit) (s s' : System Unit),
    h.length = 8 ∧ step masked s (importing "i" "1") = some s' ∧
    (∀ id key, h.Pairwise fun q q' =>
      ¬ (Adds masked id key q ∧ Adds masked id key q')) ∧
    s'.Holds (Tainted app) := by
  have hstory : ∃ h s, Story masked (fun h s e => e.IsFresh masked s ∧
      e.RepeatsTransfers h s) h s ∧
      (h.length = 8 ∧ (importing "i" "1").RepeatsTransfers h s ∧
      ((step masked s (importing "i" "1")).isSome ∧
        ∃ x ∈ (commitImport masked admin app (lit "i") (lit "1")
          s.world).1.value?, x.direction = .inbound)) :=
    exists_story () (create ++ exporting "e" "2" ++ [importing "i" "1"] ++
      [.crash, .start, importing "i" "1"]) (by decide +kernel)
  obtain ⟨h, s, hs, hlen, hrep, hsome, x, hx, -⟩ := hstory
  obtain ⟨s', hstep⟩ := Option.isSome_iff_exists.mp hsome
  have hmain := transfers_staged_once (hs.mono fun _ _ _ he => ⟨he.1, he.2.keeps⟩)
  refine ⟨h, s, s', hlen, hstep, hmain.1, ?_⟩
  have hlast := hmain.2 (importing "i" "1") s' trivial hrep.keeps hstep
  exact (hlast.2 _ rfl x (Outcome.value?_eq_some.mp hx)).2.2 rfl

/-- An import under the key of an export returns the export, with its payload, and the application
is not tainted; an import under its own key with another payload returns the first. -/
theorem exists_transfer_of_another :
    (∃ s : System Unit, Reachable calm (fun s e => e.IsFresh calm s) s ∧
      ∃ x w, commitImport calm admin app (lit "k") (lit "1") s.world =
        (.ok x, w) ∧ x.direction = .outbound ∧ x.payload = lit "2" ∧
        ∃ a, w.sup.core.state.applications[app]? = some a ∧ a.taintBits = 0) ∧
    ∃ s : System Unit, Reachable calm (fun s e => e.IsFresh calm s) s ∧
      ∃ x w, commitImport calm admin app (lit "k") (lit "1") s.world =
        (.ok x, w) ∧ x.payload = lit "2" := by
  have hfirst : ∃ s, Run calm (fun s e => e.IsFresh calm s) (System.initial ()) s ∧
      ∃ x ∈ (commitImport calm admin app (lit "k") (lit "1")
          s.world).1.value?, x.direction = .outbound ∧ x.payload = lit "2" ∧
        ∃ a ∈ (commitImport calm admin app (lit "k") (lit "1")
          s.world).2.sup.core.state.applications[app]?, a.taintBits = 0 :=
    exists_run (create ++ exporting "k" "2") (by decide +kernel)
  have hsecond : ∃ s, Run calm (fun s e => e.IsFresh calm s) (System.initial ()) s ∧
      ∃ x ∈ (commitImport calm admin app (lit "k") (lit "1")
          s.world).1.value?, x.payload = lit "2" :=
    exists_run (create ++ [importing "k" "2"]) (by decide +kernel)
  obtain ⟨s, hs, x, hx, hd, hp, a, ha, ht⟩ := hfirst
  obtain ⟨t, htr, y, hy, hyp⟩ := hsecond
  exact ⟨⟨s, ⟨(), hs⟩, x, _, Prod.ext (Outcome.value?_eq_some.mp hx) rfl, hd, hp, a, ha, ht⟩,
    t, ⟨(), htr⟩, y, _, Prod.ext (Outcome.value?_eq_some.mp hy) rfl, hyp⟩

end Aok.Runtime
