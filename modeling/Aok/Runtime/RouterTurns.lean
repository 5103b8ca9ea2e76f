import Aok.Lib.Twin
import Aok.Runtime.Routing
import Aok.Runtime.Runs

/-!
# Turns through a router with one backend

A turn is executed twice from the same supervisor, with a provider and with a router that has only
this provider. What each leaves is compared without the names of routes and providers.
-/

namespace Aok.Runtime
open Lib Lib.JsonText Lib.JsonValue Lib.Command Phase

/-! ## A state without its routes

The cache hit kind goes with them: it is read off the compatibility key of the route. -/

def TurnResult.unrouted (r : TurnResult) : TurnResult :=
  { r with provider := [], fallbacks := 0, cacheHitKind := .textReplay }

def RouteRecord.unrouted (r : RouteRecord) : RouteRecord :=
  { r with provider := [], compatKey := [], fallbacks := 0, cacheHitKind := .textReplay }

def Application.unrouted (a : Application) : Application :=
  { a with lastProvider := [], lastCompat := [] }

def State.unrouted (s : State) : State :=
  { s with
    applications := s.applications.map fun _ a => a.unrouted
    results := s.results.map fun _ r => r.unrouted
    prepared := s.prepared.map fun _ r => r.unrouted
    routeRecords := s.routeRecords.map RouteRecord.unrouted }

def World.unrouted {K : Type} (w : World K) : World K :=
  { w with
    db := w.db.unrouted
    sup := { w.sup with
      core := { w.sup.core with state := w.sup.core.state.unrouted }
      committed := w.sup.committed.unrouted } }

theorem imageTable_map {α : Type} {f g : α → α} (h : ∀ v, f (g v) = g (f v))
    (t : Table GoString α) :
    imageTable f (t.map fun _ v => g v) = (imageTable f t).map fun _ v => g v := by
  unfold imageTable
  rw [Table.rekey_map]
  apply Std.ExtTreeMap.ext_getElem?
  intro k
  simp only [Std.ExtTreeMap.getElem?_map, Option.map_map]
  congr 1
  funext v
  exact h v

theorem State.image_unrouted (s : State) : s.unrouted.image = s.image.unrouted := by
  have happ : ∀ a : Application, a.unrouted.image = a.image.unrouted := fun a => by
    simp [Application.unrouted, Application.image]
  have hres : ∀ r : TurnResult, r.unrouted.image = r.image.unrouted := fun r => by
    simp [TurnResult.unrouted, TurnResult.image]
  have hrec : ∀ r : RouteRecord, r.unrouted.image = r.image.unrouted := fun r => by
    simp [RouteRecord.unrouted, RouteRecord.image]
  simp only [State.image, State.unrouted, imageTable_map happ, imageTable_map hres, List.map_map,
    Function.comp_def, hrec]

variable {K : Type}

def World.Agrees (w v : World K) : Prop := w.unrouted = v.unrouted

def State.Agrees (s t : State) : Prop := s.unrouted = t.unrouted

def Application.Agrees (a b : Application) : Prop := a.unrouted = b.unrouted

def TurnResult.Agrees (r q : TurnResult) : Prop := r.unrouted = q.unrouted

theorem World.Agrees.state {w v : World K} (h : w.Agrees v) :
    w.sup.core.state.Agrees v.sup.core.state :=
  congrArg (fun w : World K => w.sup.core.state) h

theorem State.Agrees.read {α : Type} {f : State → α} (hf : ∀ s, f s.unrouted = f s) {s t : State}
    (h : s.Agrees t) : f s = f t :=
  (hf s).symm.trans ((congrArg f h).trans (hf t))

theorem State.Agrees.map {F : State → State} (hF : ∀ s, (F s).unrouted = F s.unrouted) {s t : State}
    (h : s.Agrees t) : (F s).Agrees (F t) :=
  (hF s).trans ((congrArg F h).trans (hF t).symm)

theorem World.Agrees.map {F : World K → World K} (hF : ∀ w, (F w).unrouted = F w.unrouted)
    {w v : World K} (h : w.Agrees v) : (F w).Agrees (F v) :=
  (hF w).trans ((congrArg F h).trans (hF v).symm)

theorem World.Agrees.commit {w v : World K} (h : w.Agrees v) : w.commit.Agrees v.commit :=
  h.map fun w => by simp [World.commit, World.unrouted, codec, State.image_unrouted]

theorem World.Agrees.restore {w v : World K} (h : w.Agrees v) : w.restore.Agrees v.restore :=
  h.map (F := World.restore) fun _ => rfl

def World.setState (s : State) (w : World K) : World K := w.setCore { w.sup.core with state := s }

theorem World.Agrees.setState {w v : World K} {s t : State} (h : w.Agrees v) (hs : s.Agrees t) :
    (w.setState s).Agrees (v.setState t) := by
  change w.unrouted.setState s.unrouted = v.unrouted.setState t.unrouted
  rw [show w.unrouted = v.unrouted from h, show s.unrouted = t.unrouted from hs]

/-! ## Commands that do not look at routes -/

section Twins
variable {env : Env K} {α : Type}

theorem twin_question (f : ℕ → α) : Twin World.Agrees Eq (question f : Op K α) (question f) := by
  intro w v h
  have htick : w.unrouted.tick = v.unrouted.tick := congrArg World.tick h
  refine .ok (congrArg f htick) ?_
  exact h.map (F := fun w => { w with tick := w.tick + 1 }) fun _ => rfl

theorem twin_getState : Twin World.Agrees State.Agrees (getState : Op K State) getState :=
  .ask fun _ _ h => h.state

theorem twin_editState {f g : State → State} (h : ∀ s t, s.Agrees t → (f s).Agrees (g t)) :
    Twin World.Agrees Eq (editState f : Op K Unit) (editState g) :=
  .modify fun _ _ hw => hw.setState (h _ _ hw.state)

theorem twin_auditLocked (principal id action object decision reason : GoString) :
    Twin World.Agrees Eq (auditLocked env principal id action object decision reason)
      (auditLocked env principal id action object decision reason) := by
  refine (twin_question _).bind_eq fun t => .modify fun w v h => ?_
  exact h.map (F := fun w => w.setCore
    (w.sup.core.audit env.sha256 t principal id action object decision reason)) fun _ => rfl

theorem twin_persistLocked : Twin World.Agrees Eq (persistLocked env) (persistLocked env) := by
  refine (twin_question _).bind_eq fun fault => ?_
  cases fault with
  | ok => exact .modify fun _ _ h => h.commit
  | fail => exact (Twin.modify fun _ _ h => h.restore).bind_eq fun _ => .fail
  | crash => exact .halt

theorem twin_contextTx (f : ContextStore → Except Err (α × ContextStore)) :
    Twin World.Agrees Eq (contextTx env f) (contextTx env f) := by
  refine (twin_question _).bind_eq fun fault => ?_
  cases fault with
  | fail => exact .fail
  | crash => exact .halt
  | ok =>
    have hask : Twin World.Agrees Eq (ask World.contexts : Op K ContextStore)
        (ask World.contexts) :=
      .ask fun w v h => (congrArg World.contexts h : w.unrouted.contexts = v.unrouted.contexts)
    refine hask.bind_eq fun contexts => ?_
    cases f contexts with
    | error e => exact .fail
    | ok r =>
      have hmodify : Twin World.Agrees Eq
          (modify fun w => { w with contexts := r.2 } : Op K Unit) (modify _) :=
        .modify fun _ _ h => h.map (F := fun w => { w with contexts := r.2 }) fun _ => rfl
      exact hmodify.bind_eq fun _ => .pure rfl

theorem twin_clearInflight (id : GoString) :
    Twin World.Agrees Eq (clearInflight id : Op K Unit) (clearInflight id) :=
  .modify fun _ _ h => h.map (F := fun w =>
    { w with sup := { w.sup with inflight := w.sup.inflight.erase id } }) fun _ => rfl

theorem twin_updateMailbox (id : GoString) (f : List MailboxMessage → List MailboxMessage) :
    Twin World.Agrees Eq (updateMailbox id f : Op K Unit) (updateMailbox id f) :=
  twin_editState fun _ _ h =>
    h.map (F := fun s => { s with mailbox := updateTable f id s.mailbox }) fun _ => rfl

theorem twin_requeueClaim (id messageID : GoString) :
    Twin World.Agrees Eq (requeueClaim env id messageID) (requeueClaim env id messageID) := by
  refine twin_getState.bind fun s t h => ?_
  have hmessages : s.messages id = t.messages id := h.read (f := (·.messages id)) fun _ => rfl
  rw [hmessages]
  cases (t.messages id).find? fun m => m.messageID = messageID with
  | none => exact .fail
  | some m =>
    dsimp only
    by_cases hclaimed : m.status = .claimed
    · rw [if_pos hclaimed]
      refine (twin_updateMailbox id _).bind_eq fun _ => ?_
      exact (twin_auditLocked ..).bind_eq fun _ => twin_persistLocked
    · rw [if_neg hclaimed]
      exact .pure rfl

/-! ### The end of a turn -/

theorem State.Agrees.application {s t : State} (h : s.Agrees t) (id : GoString) :
    (s.applications[id]?).map Application.unrouted =
      (t.applications[id]?).map Application.unrouted := by
  have hget := congrArg (fun s : State => s.applications[id]?) (show s.unrouted = t.unrouted from h)
  simpa [State.unrouted] using hget

theorem State.Agrees.staged {s t : State} (h : s.Agrees t) (messageID : GoString) :
    (s.prepared[messageID]?).map TurnResult.unrouted =
      (t.prepared[messageID]?).map TurnResult.unrouted := by
  have hget := congrArg (fun s : State => s.prepared[messageID]?)
    (show s.unrouted = t.unrouted from h)
  simpa [State.unrouted] using hget

theorem State.Agrees.finished {s t : State} (h : s.Agrees t) (messageID : GoString) :
    s.results.contains messageID = t.results.contains messageID :=
  h.read (f := fun s => s.results.contains messageID) fun s => by simp [State.unrouted]

theorem twin_findApplication (id : GoString) :
    Twin World.Agrees Application.Agrees (findApplication id : Op K Application)
      (findApplication id) := by
  refine twin_getState.bind fun s t h => ?_
  have happ := h.application id
  cases hs : s.applications[id]? with
  | none =>
    cases ht : t.applications[id]? with
    | none => exact .fail
    | some b => simp [hs, ht] at happ
  | some a =>
    cases ht : t.applications[id]? with
    | none => simp [hs, ht] at happ
    | some b =>
      rw [hs, ht] at happ
      exact .pure (Option.some.inj happ)

def TurnCommit.unrouted (c : TurnCommit) : TurnCommit :=
  ⟨c.application.unrouted, c.result.unrouted, c.record.unrouted⟩

theorem Application.charge_unrouted (a : Application) (usage : Usage) (failed : Bool) :
    a.unrouted.charge usage failed =
      ((a.charge usage failed).1.unrouted, (a.charge usage failed).2) := by
  unfold Application.charge
  dsimp only
  have hexhausted : (a.unrouted.bill usage failed).isExhausted =
      (a.bill usage failed).isExhausted := rfl
  have hstate : (a.unrouted.bill usage failed).state = (a.bill usage failed).state := rfl
  rw [hexhausted, hstate]
  split_ifs <;> rfl

theorem unrouted_served (p : Prop) [Decidable p] (a : Application) (provider compat : GoString) :
    (if p then a else { a with lastProvider := provider, lastCompat := compat }).unrouted =
      a.unrouted := by
  split_ifs <;> rfl

theorem turnCommit_unrouted (id messageID checkpoint : GoString) (a : Application)
    (staged : TurnResult) (route : RouteInfo) (cacheHit : CacheHit) (routeDenied overflowed : Bool)
    (sequence : ℕ) (time : ℤ) :
    (turnCommit id messageID a staged checkpoint route cacheHit routeDenied overflowed sequence
        time).unrouted =
      (turnCommit id messageID a.unrouted staged.unrouted checkpoint ⟨[], 0, []⟩ .textReplay
        routeDenied overflowed sequence time).unrouted := by
  have hcharge : a.unrouted.charge staged.unrouted.usage (staged.unrouted.status = .failed) =
      ((a.charge staged.usage (staged.status = .failed)).1.unrouted,
        (a.charge staged.usage (staged.status = .failed)).2) := a.charge_unrouted _ _
  unfold turnCommit TurnCommit.unrouted
  dsimp only
  rw [hcharge, TurnCommit.mk.injEq]
  generalize a.charge staged.usage (staged.status = .failed) = charged
  refine ⟨?_, rfl, rfl⟩
  refine (unrouted_served _ _ _ _).trans (Eq.trans ?_ (unrouted_served _ _ _ _).symm)
  rfl

theorem State.commitTurn_unrouted (id : GoString) (c : TurnCommit) (s : State) :
    (s.commitTurn id c).unrouted = s.unrouted.commitTurn id c.unrouted := by
  simp [State.commitTurn, State.unrouted, TurnCommit.unrouted, TurnResult.unrouted,
    Table.map_insert, Table.map_erase, keepNewest, List.map_drop]
  rfl

theorem twin_settleTurn (id : GoString) (m : MailboxMessage) {a b : Application}
    {staged other : TurnResult} (route caller : RouteInfo) (hit cacheHit : CacheHit)
    (routeDenied overflowed : Bool) (ha : a.Agrees b) (hs : staged.Agrees other) :
    Twin World.Agrees Eq (settleTurn env id m a staged route hit routeDenied overflowed)
      (settleTurn env id m b other caller cacheHit routeDenied overflowed) := by
  have howner : a.ownerAgent = b.ownerAgent :=
    (congrArg Application.ownerAgent ha : a.unrouted.ownerAgent = b.unrouted.ownerAgent)
  have hcontext : a.contextID = b.contextID :=
    (congrArg Application.contextID ha : a.unrouted.contextID = b.unrouted.contextID)
  have htext : staged.text = other.text :=
    (congrArg TurnResult.text hs : staged.unrouted.text = other.unrouted.text)
  unfold settleTurn
  rw [howner, hcontext, htext]
  refine (twin_contextTx _).bind_eq fun _ => (twin_contextTx _).bind_eq fun checkpoint => ?_
  refine (twin_question _).bind_eq fun time => twin_getState.bind fun s t h => ?_
  have hsequence : s.nextSequence = t.nextSequence := h.read (f := State.nextSequence) fun _ => rfl
  rw [hsequence]
  generalize hc : turnCommit id m.messageID a staged checkpoint.text route hit routeDenied
    overflowed (t.nextSequence + 1) time = c
  generalize hd : turnCommit id m.messageID b other checkpoint.text caller cacheHit routeDenied
    overflowed (t.nextSequence + 1) time = d
  have hcd : c.unrouted = d.unrouted := by
    rw [← hc, ← hd, turnCommit_unrouted, turnCommit_unrouted (a := b),
      show a.unrouted = b.unrouted from ha, show staged.unrouted = other.unrouted from hs]
  have hstatus : c.result.status = d.result.status :=
    (congrArg (·.result.status) hcd : c.unrouted.result.status = d.unrouted.result.status)
  refine (twin_editState fun s t h => ?_).bind_eq fun _ => ?_
  · change (s.commitTurn id c).unrouted = (t.commitTurn id d).unrouted
    rw [State.commitTurn_unrouted, State.commitTurn_unrouted, hcd, show s.unrouted = _ from h]
  rw [hstatus]
  refine Twin.bind_eq (.modify fun w v hw => ?_) fun _ =>
    (twin_auditLocked ..).bind_eq fun _ => twin_persistLocked
  exact hw.map (F := fun w => { w with sup := { w.sup with
    lastPrefix := if d.result.status = .failed then w.sup.lastPrefix
      else promptPrefix m.payload } }) fun _ => rfl

/-- Outcomes that a turn is finished with alike: both failed, refused by the policy or not, or
neither. -/
structure TurnOutcome.Agrees (o p : TurnOutcome) : Prop where
  usage : o.usage = p.usage
  failed : o.err.isSome = p.err.isSome
  text : o.err = none → o.text = p.text
  denied : o.err = some .routeDenied ↔ p.err = some .routeDenied
  busy : o.err = some .turnBusy ↔ p.err = some .turnBusy

theorem stagedResult_agrees {o p : TurnOutcome} (h : o.Agrees p) (id messageID : GoString)
    (hit cacheHit : CacheHit) :
    (stagedResult id messageID o.text o.usage o.route hit o.err).Agrees
      (stagedResult id messageID p.text p.usage p.route cacheHit p.err) := by
  obtain ⟨husage, hfailed, htext, hdenied, -⟩ := h
  unfold stagedResult
  cases ho : o.err with
  | none =>
    cases hp : p.err with
    | some e => simp [ho, hp] at hfailed
    | none =>
      rw [htext ho, husage]
      dsimp only
      split_ifs <;> rfl
  | some e =>
    cases hp : p.err with
    | none => simp [ho, hp] at hfailed
    | some e' =>
      simp only [ho, hp, Option.some.injEq] at hdenied
      simp only [hdenied, husage]
      rfl

theorem State.Agrees.prepare {s t : State} {r q : TurnResult} (h : s.Agrees t) (hr : r.Agrees q)
    (messageID : GoString) :
    State.Agrees { s with prepared := s.prepared.insert messageID r }
      { t with prepared := t.prepared.insert messageID q } := by
  have hinsert : ∀ (s : State) (r : TurnResult),
      State.unrouted { s with prepared := s.prepared.insert messageID r } =
        { s.unrouted with prepared := s.unrouted.prepared.insert messageID r.unrouted } :=
    fun s r => by simp [State.unrouted, Table.map_insert]
  unfold State.Agrees
  rw [hinsert, hinsert, show s.unrouted = t.unrouted from h, show r.unrouted = q.unrouted from hr]

theorem twin_finishTurn {o p : TurnOutcome} (h : o.Agrees p) (id : GoString) (m : MailboxMessage) :
    Twin World.Agrees Eq (finishTurn env id m o.text o.usage o.route o.err)
      (finishTurn env id m p.text p.usage p.route p.err) := by
  refine (twin_clearInflight id).bind_eq fun _ => ?_
  refine (twin_findApplication id).bind fun a b ha => twin_getState.bind fun s t hst => ?_
  have hdenied : decide (o.err = some .routeDenied) = decide (p.err = some .routeDenied) :=
    decide_eq_decide.mpr h.denied
  have hoverflow : (o.err.isNone && decide (maxTextBytes < o.text.length)) =
      (p.err.isNone && decide (maxTextBytes < p.text.length)) := by
    cases ho : o.err with
    | none =>
      have hp : p.err = none := by simpa [ho] using h.failed.symm
      simp [hp, h.text ho]
    | some e =>
      have hp : p.err.isSome := by simpa [ho] using h.failed.symm
      obtain ⟨e', hp⟩ := Option.isSome_iff_exists.mp hp
      simp [hp]
  rw [hst.finished]
  dsimp only
  split_ifs
  · exact .pure rfl
  rw [hdenied, hoverflow]
  have hstaged := hst.staged m.messageID
  cases hs : s.prepared[m.messageID]? with
  | some staged =>
    cases ht : t.prepared[m.messageID]? with
    | none => simp [hs, ht] at hstaged
    | some other =>
      rw [hs, ht] at hstaged
      exact twin_settleTurn id m _ _ _ _ _ _ ha (Option.some.inj hstaged)
  | none =>
    cases ht : t.prepared[m.messageID]? with
    | some other => simp [hs, ht] at hstaged
    | none =>
      have hagree := stagedResult_agrees h id m.messageID
        (cacheHitKind o.usage a.lastCompat o.route.compatKey)
        (cacheHitKind p.usage b.lastCompat p.route.compatKey)
      exact (twin_editState fun s t h => h.prepare hagree m.messageID).bind_eq fun _ =>
        twin_persistLocked.bind_eq fun _ => twin_settleTurn id m _ _ _ _ _ _ ha hagree

end Twins

/-! ## One turn by itself -/

section Solo
variable (env : Env K) (call : State → Turn → Completion) (i : ℕ)

/-- The next step of a worker, whose call returns what `call` says. -/
def turnStep (s : System K) : System K :=
  match s.workers[i]? with
  | none => s
  | some x =>
    match x.phase with
    | .ending _ => s
    | .calling => (stepUp env s (.complete i (call s.world.sup.core.state x.turn))).getD s
    | _ => (stepUp env s (.work i)).getD s

/-- A worker from its start to the end of `executeTurn`, with nothing in between. -/
def executeTurn (s : System K) : System K := (turnStep env call i)^[8] s

end Solo

def Phase.remaining : Phase → ℕ
  | .start => 8
  | .routing => 7
  | .calling => 6
  | .folding _ _ => 5
  | .deciding _ => 4
  | .finishing _ => 3
  | .requeueing _ => 2
  | .clearing _ => 1
  | .ending _ => 0

namespace System

def inPhase (b : System K) (i : ℕ) (t : Turn) (p : Provider) (w : World K) (q : Phase) : System K :=
  { b with world := w, provider := p, workers := b.workers.set i ⟨t, q⟩ }

def fallen (b : System K) (p : Provider) (w : World K) : System K :=
  { b.down with world := w, provider := p }

def unrouted (s : System K) : System K :=
  { s with world := s.world.unrouted, provider := ⟨[], [], false, false⟩ }

end System

section Steps
variable {env : Env K} {call : State → Turn → Completion} {i : ℕ} {b : System K} {t : Turn}
  {p : Provider} {w : World K}

theorem turnStep_at (hi : i < b.workers.length) (q : Phase) :
    turnStep env call i (b.inPhase i t p w q) =
      match q with
      | .ending r => b.inPhase i t p w (.ending r)
      | .calling => b.inPhase i t p w (completePhase p (call w.sup.core.state t))
      | q => (workerStep env (b.inPhase i t p w q) i ⟨t, q⟩).getD (b.inPhase i t p w q) := by
  have hx : (b.inPhase i t p w q).workers[i]? = some ⟨t, q⟩ := by
    simp [System.inPhase, hi]
  unfold turnStep
  cases q <;> simp only [hx, stepUp, if_true, Option.getD_some]
  case calling => simp [System.setWorker, System.inPhase]

theorem inPhase_setWorker (q q' : Phase) :
    (b.inPhase i t p w q).setWorker i ⟨t, q⟩ q' = b.inPhase i t p w q' := by
  simp [System.setWorker, System.inPhase]

end Steps

/-! ## A router with one backend -/

section Router
variable (env : Env K) (around : Surroundings)

def Router.answer (r : Router) (s : State) (t : Turn) : Completion :=
  (r.complete around (t.policy s).backends).1

/-- A call that the router passes on as it is: it folds no taint, and unless the turn is returned
anyway an answer comes before the end of the context and a failure has no usage and is not one
that the runner knows. -/
structure Backend.IsPassedOn (P : Backend) (cancelled : Bool) : Prop where
  untainted : P.answer.err = none → P.answer.taint = 0
  answered : cancelled = false → P.answer.err = none → around.ctxErr 0 = none
  failed : cancelled = false → P.answer.err ≠ none → P.answer.usage = ⟨0, 0, 0⟩ ∧
    P.answer.err ≠ some .turnBusy ∧ P.answer.err ≠ some .routeDenied

/-- The policy of the turn lets the backend through, and its call, if one is made, is passed on. -/
structure Backend.IsAdmitted (P : Backend) (cancelled : Bool) (s : State) (t : Turn) : Prop where
  admitted : (t.policy s).backends = [] ∨ P.name ∈ (t.policy s).backends
  passed : (readField (lit "text") asString [] t.message.payload).2 = true →
    P.IsPassedOn around cancelled

def Backend.IsTransparent (P : Backend) (cancelled : Bool) (s : State) (t : Turn) : Prop :=
  s.prepared.contains t.message.messageID = true ∨ P.IsAdmitted around cancelled s t

variable {env around} {P : Backend} {r : Router} {t : Turn} {cancelled : Bool}

inductive Beside (around : Surroundings) (P : Backend) (t : Turn) (cancelled : Bool)
    (w v : World K) : Phase → Phase → Prop
  | start (hw : w = v) (h : P.IsTransparent around cancelled w.sup.core.state t) :
    Beside around P t cancelled w v .start .start
  | routing (hw : w = v) (h : P.IsAdmitted around cancelled w.sup.core.state t) :
    Beside around P t cancelled w v .routing .routing
  | calling (hw : w = v) (h : P.IsAdmitted around cancelled w.sup.core.state t)
      (hp : P.IsPassedOn around cancelled) : Beside around P t cancelled w v .calling .calling
  | deciding (o q : TurnOutcome) (hw : w.Agrees v) (h : cancelled = true ∨ o.Agrees q) :
    Beside around P t cancelled w v (.deciding o) (.deciding q)
  | finishing (o q : TurnOutcome) (hw : w.Agrees v) (h : o.Agrees q) :
    Beside around P t cancelled w v (.finishing o) (.finishing q)
  | requeueing (cause : Option Err) (hw : w.Agrees v) :
    Beside around P t cancelled w v (.requeueing cause) (.requeueing cause)
  | clearing (result : Option Err) (hw : w.Agrees v) :
    Beside around P t cancelled w v (.clearing result) (.clearing result)
  | ending (result : Option Err) (hw : w.Agrees v) :
    Beside around P t cancelled w v (.ending result) (.ending result)

/-- Two systems that differ in the phase of one worker and in the names of routes, with at most
`n` steps of the turn to come. -/
inductive Abreast (around : Surroundings) (P : Backend) (i : ℕ) (t : Turn) (n : ℕ) :
    System K → System K → Prop
  | turn {b : System K} {w v : World K} {q q' : Phase} (hi : i < b.workers.length)
      (h : Beside around P t b.cancelled w v q q') (hn : q.remaining ≤ n) :
    Abreast around P i t n (b.inPhase i t P.provider w q) (b.inPhase i t Router.provider v q')
  | fallen (b : System K) {w v : World K} (h : w.Agrees v) :
    Abreast around P i t n (b.fallen P.provider w) (b.fallen Router.provider v)

theorem Router.candidates_singleton (hr : r.providers = [P]) {allowed : List GoString}
    (h : allowed = [] ∨ P.name ∈ allowed) : r.candidates allowed = [P] := by
  by_cases hallowed : allowed = []
  · rw [Router.candidates, if_pos hallowed, hr]
  · have hnames := Router.candidates_names (r := r) hallowed
    rw [hr, restrict_singleton (h.resolve_left hallowed)] at hnames
    obtain ⟨c, hc⟩ := List.length_eq_one_iff.mp
      ((List.length_map (f := Backend.name)).symm.trans (congrArg List.length hnames))
    have hcandidate : c ∈ r.candidates allowed := by simp [hc]
    have hmem := r.mem_providers hcandidate
    rw [hr, List.mem_singleton] at hmem
    rw [hc, hmem]

theorem TurnOutcome.Agrees.of_failed {o q : TurnOutcome} {e e' : Err} (ho : o.err = some e)
    (hq : q.err = some e') (husage : o.usage = q.usage) (he : e ≠ .turnBusy ∧ e ≠ .routeDenied)
    (he' : e' ≠ .turnBusy ∧ e' ≠ .routeDenied) : o.Agrees q where
  usage := husage
  failed := by simp [ho, hq]
  text h := by simp [ho] at h
  denied := by simp [ho, hq, he.2, he'.2]
  busy := by simp [ho, hq, he.1, he'.1]

variable (around) in
theorem tryCandidates_singleton_failed {e : Err} (h : P.answer.err = some e) :
    ∃ e', (tryCandidates around [] [P]).1 = failedCall e' ∧ e' ≠ .turnBusy ∧ e' ≠ .routeDenied := by
  have hctx : ∀ c : ContextErr, c.err ≠ .turnBusy ∧ c.err ≠ .routeDenied := by
    intro c
    cases c <;> decide
  simp only [tryCandidates, h]
  split
  · exact ⟨_, rfl, hctx _⟩
  · split
    · exact ⟨_, rfl, hctx _⟩
    · exact ⟨_, rfl, by simp, by simp⟩

theorem beside_of_call {w : World K} (hr : r.providers = [P])
    (h : P.IsAdmitted around cancelled w.sup.core.state t) (hp : P.IsPassedOn around cancelled) :
    Beside around P t cancelled w w (completePhase P.provider P.answer)
      (completePhase Router.provider (r.answer around w.sup.core.state t)) := by
  have hcall : r.answer around w.sup.core.state t = (tryCandidates around [] [P]).1 := by
    rw [Router.answer, Router.complete, Router.candidates_singleton hr h.admitted]
  rw [hcall]
  cases herr : P.answer.err with
  | some e =>
    obtain ⟨e', he', hknown⟩ := tryCandidates_singleton_failed around herr
    rw [he']
    simp only [completePhase, herr, failedCall, reduceCtorEq, false_and, if_false]
    refine .deciding _ _ rfl ?_
    cases cancelled with
    | true => exact .inl rfl
    | false =>
      obtain ⟨husage, hbusy, hdenied⟩ := hp.failed rfl (by simp [herr])
      rw [herr] at hbusy hdenied
      exact .inr (.of_failed rfl rfl husage ⟨by simpa using hbusy, by simpa using hdenied⟩ hknown)
  | none =>
    have hdirect : completePhase P.provider P.answer = .deciding ⟨P.answer.text, P.answer.usage,
        if P.provider.tracked then P.answer.route else P.provider.route, none⟩ := by
      simp [completePhase, herr, hp.untainted herr]
    rw [hdirect]
    cases hctx : around.ctxErr 0 with
    | none =>
      simp only [tryCandidates, List.length_nil, Nat.mul_zero, hctx, herr, completePhase]
      refine .deciding _ _ rfl (.inr ⟨rfl, rfl, fun _ => rfl, by simp, by simp⟩)
    | some e =>
      have hcancelled : cancelled = true := by
        by_contra hne
        simp [hp.answered (by simpa using hne) herr] at hctx
      simp only [tryCandidates, List.length_nil, Nat.mul_zero, hctx, completePhase, failedCall,
        reduceCtorEq, false_and, if_false]
      exact .deciding _ _ rfl (.inl hcancelled)

theorem beside_of_route {w : World K} (h : P.IsAdmitted around cancelled w.sup.core.state t) :
    Beside around P t cancelled w w (routePhase P.provider w.sup.core.state t)
      (routePhase Router.provider w.sup.core.state t) := by
  have hdirect : P.provider.isDenied (t.policy w.sup.core.state) = false := by
    rcases h.admitted with hnil | hname
    · simp [Provider.isDenied, hnil]
    · simp [Provider.isDenied, show P.provider.name ∈ _ from hname]
  have hrouter : Router.provider.isDenied (t.policy w.sup.core.state) = false := by
    simp [Provider.isDenied, Router.provider]
  have hroute : ∀ p : Provider, p.isDenied (t.policy w.sup.core.state) = false →
      routePhase p w.sup.core.state t =
        if (readField (lit "text") asString [] t.message.payload).2 then .calling
        else .deciding (p.uncalled (some .unmarshal)) := by
    intro p hp
    change (if p.isDenied (t.policy w.sup.core.state) then _ else _) = _
    rw [if_neg (by simp [hp])]
  rw [hroute _ hdirect, hroute _ hrouter]
  by_cases htext : (readField (lit "text") asString [] t.message.payload).2
  · rw [if_pos htext, if_pos htext]
    exact .calling rfl h (h.passed htext)
  · rw [if_neg htext, if_neg htext]
    exact .deciding _ _ rfl (.inr ⟨rfl, rfl, fun _ => rfl, by simp [Provider.uncalled],
      by simp [Provider.uncalled]⟩)

theorem remaining_routePhase (p : Provider) (s : State) (t : Turn) :
    (routePhase p s t).remaining ≤ 6 := by
  unfold routePhase
  dsimp only
  split_ifs <;> simp [remaining]

theorem remaining_completePhase (p : Provider) (c : Completion) :
    (completePhase p c).remaining ≤ 5 := by
  unfold completePhase
  dsimp only
  split_ifs <;> simp [remaining]

theorem Abreast.setWorker {b : System K} {i n : ℕ} {w v : World K} {q q' p p' : Phase}
    (hi : i < b.workers.length) (h : Beside around P t b.cancelled w v q q')
    (hn : q.remaining ≤ n) :
    Abreast around P i t n ((b.inPhase i t P.provider w p).setWorker i ⟨t, p⟩ q)
      ((b.inPhase i t Router.provider v p').setWorker i ⟨t, p'⟩ q') := by
  rw [inPhase_setWorker, inPhase_setWorker]
  exact .turn hi h hn

/-- A step of the turn on both sides keeps them abreast. -/
theorem Abreast.step (hr : r.providers = [P]) {i n : ℕ} {s s' : System K}
    (h : Abreast around P i t (n + 1) s s') :
    Abreast around P i t n (turnStep env (fun _ _ => P.answer) i s)
      (turnStep env (r.answer around) i s') := by
  cases h with
  | fallen b hw => exact .fallen b hw
  | @turn b w v q q' hi h hn =>
    rw [turnStep_at hi, turnStep_at hi]
    cases h with
    | start hw h =>
      subst hw
      simp only [remaining] at hn
      dsimp only [workerStep, System.inPhase]
      by_cases hprepared : w.sup.core.state.prepared.contains t.message.messageID = true
      · rw [if_pos hprepared, if_pos hprepared]
        refine .setWorker hi (.deciding _ _ rfl (.inr ?_)) (by simp [remaining]; omega)
        exact ⟨rfl, rfl, fun _ => rfl, by simp [Provider.uncalled], by simp [Provider.uncalled]⟩
      · rw [if_neg hprepared, if_neg hprepared]
        exact .setWorker hi (.routing rfl (h.resolve_left hprepared))
          (by simp [remaining]; omega)
    | routing hw h =>
      subst hw
      have hle := remaining_routePhase P.provider w.sup.core.state t
      simp only [remaining] at hn
      exact .setWorker hi (beside_of_route h) (hle.trans (by omega))
    | calling hw h hp =>
      subst hw
      have hle := remaining_completePhase P.provider P.answer
      simp only [remaining] at hn
      exact .turn hi (beside_of_call hr h hp) (by omega)
    | deciding o o' hw h =>
      simp only [remaining] at hn
      dsimp only [workerStep, System.inPhase]
      by_cases hcancelled : b.cancelled = true
      · rw [if_pos (.inr hcancelled), if_pos (.inr hcancelled)]
        exact .setWorker hi (.requeueing none hw) (by simp [remaining]; omega)
      · have hagrees := h.resolve_left hcancelled
        by_cases hbusy : o.err = some .turnBusy
        · rw [if_pos (.inl hbusy), if_pos (.inl (hagrees.busy.mp hbusy))]
          exact .setWorker hi (.requeueing none hw) (by simp [remaining]; omega)
        · have hbusy' : o'.err ≠ some .turnBusy := fun h => hbusy (hagrees.busy.mpr h)
          rw [if_neg (not_or.mpr ⟨hbusy, hcancelled⟩), if_neg (not_or.mpr ⟨hbusy', hcancelled⟩)]
          exact .setWorker hi (.finishing o o' hw hagrees) (by simp [remaining]; omega)
    | finishing o o' hw h =>
      simp only [remaining] at hn
      have htwin : Alike World.Agrees Eq (finishTurn env ..) (finishTurn env ..) :=
        twin_finishTurn h t.id t.message hw
      dsimp only [workerStep, System.inPhase, System.perform]
      generalize finishTurn env t.id t.message o.text o.usage o.route o.err w = x at htwin ⊢
      generalize finishTurn env t.id t.message o'.text o'.usage o'.route o'.err v = y at htwin ⊢
      cases htwin with
      | ok _ hw => exact .setWorker hi (.clearing none hw) (by simp [remaining]; omega)
      | error hw => exact .setWorker hi (.requeueing (some _) hw) (by simp [remaining]; omega)
      | stop hw => exact .fallen b hw
    | requeueing cause hw =>
      simp only [remaining] at hn
      have htwin : Alike World.Agrees Eq (requeueClaim env ..) (requeueClaim env ..) :=
        twin_requeueClaim t.id t.message.messageID hw
      dsimp only [workerStep, System.inPhase, System.perform]
      generalize requeueClaim env t.id t.message.messageID w = x at htwin ⊢
      generalize requeueClaim env t.id t.message.messageID v = y at htwin ⊢
      cases htwin with
      | ok _ hw => exact .setWorker hi (.clearing cause hw) (by simp [remaining]; omega)
      | error hw =>
        exact .setWorker (b := { b with lost := t :: b.lost }) hi (.clearing _ hw)
          (by simp [remaining]; omega)
      | stop hw => exact .fallen b hw
    | clearing result hw =>
      have htwin := twin_clearInflight t.id hw
      dsimp only [workerStep, System.inPhase, System.perform]
      generalize clearInflight t.id w = x at htwin ⊢
      generalize clearInflight t.id v = y at htwin ⊢
      cases htwin with
      | ok _ hw => exact .setWorker hi (.ending result hw) (Nat.zero_le n)
      | error hw => exact .setWorker hi (.ending result hw) (Nat.zero_le n)
      | stop hw => exact .fallen b hw
    | ending result hw => exact .turn hi (.ending result hw) (Nat.zero_le n)

theorem Abreast.iterate (hr : r.providers = [P]) {i : ℕ} (n : ℕ) {s s' : System K}
    (h : Abreast around P i t n s s') :
    Abreast around P i t 0 ((turnStep env (fun _ _ => P.answer) i)^[n] s)
      ((turnStep env (r.answer around) i)^[n] s') := by
  induction n generalizing s s' with
  | zero => exact h
  | succ n ih =>
    rw [Function.iterate_succ_apply, Function.iterate_succ_apply]
    exact ih (h.step hr)

theorem Abreast.unrouted_eq {i : ℕ} {s s' : System K} (h : Abreast around P i t 0 s s') :
    s.unrouted = s'.unrouted := by
  cases h with
  | fallen b hw =>
    unfold System.unrouted System.fallen
    rw [show World.unrouted _ = _ from hw]
  | turn hi h hn =>
    cases h with
    | ending result hw =>
      unfold System.unrouted System.inPhase
      rw [show World.unrouted _ = _ from hw]
    | _ => simp [remaining] at hn

end Router

namespace Sample

def tracked (c : Completion) : Backend := ⟨⟨lit "p", [], true, false⟩, c⟩

def routerOver (c : Completion) : Router :=
  ⟨[tracked c], by simp, by simp [tracked, Backend.name, show lit "p" ≠ [] by decide], by simp⟩

def claimed : List (Event Unit) := create ++ [send "k"] ++ claimFirst

example : runs claimed := by decide +kernel

def charges (s : System Unit) : Option (UInt64 × UInt32 × UInt64) :=
  (s.world.sup.core.state.applications[app]?).map fun a => (a.tokensUsed, a.failures, a.taintBits)

def both (c : Completion) (s : System Unit) :
    Option (UInt64 × UInt32 × UInt64) × Option (UInt64 × UInt32 × UInt64) :=
  (charges (executeTurn calm (fun _ _ => c) 0 { s with provider := (tracked c).provider }),
    charges (executeTurn calm ((routerOver c).answer quiet) 0
      { s with provider := Router.provider }))

end Sample

open Sample

end Aok.Runtime
