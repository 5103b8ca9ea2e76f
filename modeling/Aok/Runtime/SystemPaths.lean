import Aok.Lib.SingleFlight
import Aok.Runtime.Allowances

/-!
# Steps of the system

Each allowed step of a running process moves its stores along a trail, keeps the turns in
flight genuine, and is a move of the single-flight protocol or invisible to it.
-/

namespace Aok.Runtime
open Lib Lib.Utf8 Lib.JsonText Lib.JsonValue Lib.Command Lib.Journal Relation List

variable {K : Type} {U P : Prop} {S : Terms} {env : Env K}
variable {w : World K} {result : Option Err}

/-! ## The turns of a system as a single-flight protocol -/

def Phase.stage : Phase → Stage
  | .requeueing (some _) => .failed
  | .clearing _ => .settled
  | .ending _ => .gone
  | _ => .busy

def Worker.job (x : Worker) : GoString × Stage := (x.turn.id, x.phase.stage)

def Loop.turn : Loop → Option Turn
  | .dispatching t | .returning t => some t
  | _ => none

namespace System

def turns (s : System K) : List Turn := s.loop.turn.toList ++ s.workers.map Worker.turn

def flight (s : System K) : Flight GoString :=
  if s.up then
    { marks := s.world.sup.inflight
      waiting := (s.loop.turn.toList.map Turn.id : List GoString)
      workers := (s.workers.map Worker.job : List (GoString × Stage))
      lost := (s.lost.map Turn.id : List GoString) }
  else .empty

end System

def Phase.isRequeueing : Phase → Bool
  | .requeueing _ => true
  | _ => false

theorem Phase.isRequeueing_iff {p : Phase} : p.isRequeueing = true ↔ ∃ c, p = .requeueing c := by
  cases p <;> simp [Phase.isRequeueing]

def Loop.IsOrderly (env : Env K) (s : System K) : Loop → Prop
  | .claiming => ∀ p ∈ (claimTurn env s.world).1.value?.join, ∀ x ∈ s.workers,
      x.turn.id = p.1 → x.phase.stage = .busy ∨ x.phase.stage = .gone
  | .returning t => (requeueClaim env t.id t.message.messageID s.world).1.error? = none
  | _ => True

/-- No application is claimed while a worker has released it and not yet cleared it, and no
requeue fails. -/
def Event.IsOrderly (env : Env K) (s : System K) : Event K → Prop
  | .loopStep => s.loop.IsOrderly env s
  | .work i => ∀ x ∈ s.workers[i]?, x.phase.isRequeueing = true →
      (requeueClaim env x.turn.id x.turn.message.messageID s.world).1.error? = none
  | _ => True

instance (s : System K) : (l : Loop) → Decidable (l.IsOrderly env s)
  | .claiming => inferInstanceAs (Decidable (∀ p ∈ _, ∀ x ∈ s.workers, _ → _))
  | .returning _ => inferInstanceAs (Decidable (_ = none))
  | .idle | .attaching | .sizing | .waiting | .timers | .lsfs | .kernel | .dispatching _
  | .draining => instDecidableTrue

instance (s : System K) : (e : Event K) → Decidable (e.IsOrderly env s)
  | .loopStep => inferInstanceAs (Decidable (s.loop.IsOrderly env s))
  | .work i => inferInstanceAs (Decidable (∀ x ∈ s.workers[i]?, x.phase.isRequeueing = true →
      (requeueClaim env x.turn.id x.turn.message.messageID s.world).1.error? = none))
  | .start | .crash | .close | .kernel _ | .call _ | .exportArtifact .. | .exportStage _ | .run _
  | .cancel | .loopDone | .loopFailure | .complete .. => instDecidableTrue

/-- What a step does to the parts of a process outside its stores. -/
structure Handled (U : Prop) (env : Env K) (e : Event K) (s s' : System K) : Prop where
  turns : ∀ t ∈ s'.turns, t ∈ s.turns ∨ valid t.message.messageID = true
  exports : ∀ x ∈ s'.exports, x ∈ s.exports ∨ (Clear U x.1 ∧ Clear U x.2.2.1)
  flight : s'.flight = s.flight ∨ ∃ a, Flight.Move a s.flight s'.flight ∧
    (e.IsOrderly env s → a.IsOrderly s.flight) ∧ (a.KeepsWaiting ∨ ∃ t, s.loop = .returning t)
  idle : s'.up = false → s'.loop = .idle ∧ s'.workers = [] ∧ s'.exports = [] ∧ s'.lost = []

structure Stepped (U : Prop) (S : Terms) (P : Prop) (env : Env K) (e : Event K) (s s' : System K) :
    Prop where
  trail : ∃ b, Trail codec (Edit U S env) (.clean, s.world.store) (b, s'.world.store) ∧
    (s'.up = true → Ended P b)
  contexts : ContextStore.Grows s.world.contexts s'.world.contexts
  handled : Handled U env e s s'

variable {e : Event K} {s s' : System K}

theorem Handled.down (w : World K) : Handled U env e s { s with world := w }.down where
  turns := by simp [System.turns, System.down, Loop.turn]
  exports := by simp [System.down]
  flight := .inr ⟨.reset, by
    simp only [System.flight, System.down, Bool.false_eq_true, if_false]
    exact .reset, fun _ => trivial, .inl trivial⟩
  idle := fun _ => ⟨rfl, rfl, rfl, rfl⟩

theorem Handled.still (hup : s'.up = s.up) (hs : s.up = true)
    (hi : s'.world.sup.inflight = s.world.sup.inflight) (hloop : s'.loop.turn = s.loop.turn)
    (hworkers : s'.workers = s.workers) (hlost : s'.lost = s.lost)
    (hexports : ∀ x ∈ s'.exports, x ∈ s.exports ∨ (Clear U x.1 ∧ Clear U x.2.2.1)) :
    Handled U env e s s' where
  turns := fun t ht => .inl (by simpa only [System.turns, hloop, hworkers] using ht)
  exports := hexports
  flight := .inl (by simp only [System.flight, hup, hi, hloop, hworkers, hlost])
  idle := by simp [hup, hs]

theorem perform_of_ends {α : Type} {c : Op K α} {next : Except Err α → System K → System K}
    {R : System K → Prop}
    (h : Ends c s.world (fun a w => R (next (.ok a) { s with world := w }))
      (fun x w => R (next (.error x) { s with world := w }))
      fun w => R { s with world := w }.down) : R (s.perform c next) := by
  unfold System.perform
  simp only [Ends] at h
  generalize c s.world = r at h ⊢
  rcases r with ⟨a | x | _, w⟩ <;> exact h

theorem Stepped.of_path {w₁ w₂ : World K} {b : Level} (hw : s'.world = w)
    (hp : Path U S env (.clean, w₁) (b, w₂)) (h₁ : w₁.store = s.world.store)
    (h₂ : w₂.store = w.store) (ho : ContextStore.Grows s.world.contexts w.contexts) (hb : s'.up = true → Ended P b)
    (h : Handled U env e s s') : Stepped U S P env e s s' := by
  subst hw
  exact ⟨⟨b, by rw [← h₁, ← h₂]; exact hp.trail, hb⟩, ho, h⟩

/-- One critical section: its trail, and what the caller does with the outcome. -/
theorem Stepped.perform {α : Type} {c : Op K α} {next : Except Err α → System K → System K}
    (hc : Settled U S env P c .clean s.world)
    (hnext : ∀ r w, (∀ x, r = .error x → (c s.world).1 = .error x) →
      w.sup.inflight = s.world.sup.inflight →
      (next r { s with world := w }).world = w ∧
        Handled U env e s (next r { s with world := w })) :
    Stepped U S P env e s (s.perform c next) := by
  refine perform_of_ends ((Ends.and_result hc).mono ?_ ?_ ?_)
  · rintro a w ⟨⟨b, hb, hp⟩, -⟩
    obtain ⟨hw, hh⟩ := hnext (.ok a) w (by simp) hp.around.inflight
    exact .of_path hw hp rfl rfl hp.around.contexts (fun _ => hb) hh
  · rintro x w ⟨⟨b, hb, hp⟩, hr⟩
    obtain ⟨hw, hh⟩ := hnext (.error x) w (by rintro y ⟨⟩; exact hr) hp.around.inflight
    exact .of_path hw hp rfl rfl hp.around.contexts (fun _ => hb) hh
  · rintro w ⟨b, hp⟩
    exact .of_path rfl hp rfl rfl hp.around.contexts (by simp [System.down]) (.down w)

theorem Stepped.of_handled (hw : s'.world.store = s.world.store)
    (ho : ContextStore.Grows s.world.contexts s'.world.contexts) (h : Handled U env e s s') :
    Stepped U S P env e s s' :=
  ⟨⟨.clean, by rw [hw]; exact .refl, fun _ => ended_clean⟩, ho, h⟩

theorem Stepped.of_world (hw : s'.world = s.world) (h : Handled U env e s s') :
    Stepped U S P env e s s' :=
  .of_handled (by rw [hw]) (by rw [hw]; exact .refl _) h

/-! ## The workers -/

theorem coe_eq_cons_eraseIdx {α : Type} {l : List α} {i : ℕ} {x : α} (h : l[i]? = some x) :
    (l : Multiset α) = x ::ₘ (l.eraseIdx i : Multiset α) := by
  obtain ⟨hi, rfl⟩ := List.getElem?_eq_some_iff.mp h
  exact (Multiset.coe_eq_coe.mpr (getElem_cons_eraseIdx_perm hi)).symm

theorem coe_set_eq_cons_eraseIdx {α : Type} {l : List α} {i : ℕ} {x : α} (h : l[i]? = some x)
    (y : α) : (l.set i y : Multiset α) = y ::ₘ (l.eraseIdx i : Multiset α) := by
  obtain ⟨hi, -⟩ := List.getElem?_eq_some_iff.mp h
  exact Multiset.coe_eq_coe.mpr (set_perm_cons_eraseIdx hi y)

def System.others (s : System K) (i : ℕ) : Multiset (GoString × Stage) :=
  ((s.workers.eraseIdx i).map Worker.job : List (GoString × Stage))

variable {i : ℕ} {x : Worker}

theorem flight_workers (hs : s.up = true) (hx : s.workers[i]? = some x) :
    s.flight.workers = x.job ::ₘ s.others i := by
  simp only [System.flight, hs, if_true, System.others, ← Multiset.map_coe]
  rw [coe_eq_cons_eraseIdx hx, Multiset.map_cons]

theorem coe_map_set_job (hx : s.workers[i]? = some x) (p : Phase) :
    (((s.workers.set i { x with phase := p }).map Worker.job : List _) : Multiset _) =
      (x.turn.id, p.stage) ::ₘ s.others i := by
  rw [← Multiset.map_coe, coe_set_eq_cons_eraseIdx hx, Multiset.map_cons, Multiset.map_coe]
  rfl

theorem turns_setWorker (hx : s.workers[i]? = some x) {lost : List Turn} {p : Phase} :
    ∀ t ∈ ({ s with world := w, lost := lost }.setWorker i x p).turns, t ∈ s.turns := by
  intro t ht
  simp only [System.turns, System.setWorker, mem_append, mem_map] at ht ⊢
  refine ht.imp_right ?_
  rintro ⟨y, hy, rfl⟩
  rcases mem_or_eq_of_mem_set hy with hy | rfl
  · exact ⟨y, hy, rfl⟩
  · exact ⟨x, mem_of_getElem? hx, rfl⟩

theorem Handled.worker {l : List Turn} {p : Phase} (hs : s.up = true) (hx : s.workers[i]? = some x)
    (hf : ({ s with world := w, lost := l }.setWorker i x p).flight = s.flight ∨
      ∃ a, Flight.Move a s.flight ({ s with world := w, lost := l }.setWorker i x p).flight ∧
        (e.IsOrderly env s → a.IsOrderly s.flight) ∧ a.KeepsWaiting) :
    Handled U env e s ({ s with world := w, lost := l }.setWorker i x p) where
  turns := fun t ht => .inl (turns_setWorker hx t ht)
  exports := fun _ h => .inl h
  flight := hf.imp_right fun ⟨a, hm, ho, hk⟩ => ⟨a, hm, ho, .inl hk⟩
  idle := by simp [System.setWorker, hs]

theorem flight_setWorker (hs : s.up = true) (hx : s.workers[i]? = some x) (w : World K)
    (lost : List Turn) (p : Phase) :
    ({ s with world := w, lost := lost }.setWorker i x p).flight =
      { marks := w.sup.inflight
        waiting := s.flight.waiting
        workers := (x.turn.id, p.stage) ::ₘ s.others i
        lost := (lost.map Turn.id : List GoString) } := by
  simp only [System.flight, System.setWorker, hs, if_true, coe_map_set_job hx]

theorem Handled.samePhase {p : Phase} (hs : s.up = true)
    (hx : s.workers[i]? = some x) (hw : w.sup.inflight = s.world.sup.inflight)
    (hp : p.stage = x.phase.stage) :
    Handled U env e s ({ s with world := w }.setWorker i x p) := by
  refine Handled.worker (l := s.lost) hs hx (.inl ?_)
  rw [flight_setWorker hs hx]
  have hworkers := flight_workers hs hx
  ext1
  · simp [System.flight, hs, hw]
  · rfl
  · rw [hworkers, hp]
    rfl
  · simp [System.flight, hs]

theorem routePhase_stage (p : Provider) (st : State) (t : Turn) : (routePhase p st t).stage = .busy := by
  unfold routePhase
  dsimp only
  split_ifs <;> rfl

theorem completePhase_stage (p : Provider) (c : Completion) : (completePhase p c).stage = .busy := by
  unfold completePhase
  dsimp only
  split_ifs <;> rfl

theorem finishing_stepped {o : TurnOutcome} (hs : s.up = true) (hsound : Sound U s.world)
    (hx : s.workers[i]? = some x) (hphase : x.phase = .finishing o)
    (hm : valid x.turn.message.messageID = true) (ha : Allowed U S P env s (.work i)) :
    Stepped U S P env (.work i) s
      (s.perform (finishTurn env x.turn.id x.turn.message o.text o.usage o.route o.err) fun
        | .ok _, s => s.setWorker i x (.clearing none)
        | .error e, s => s.setWorker i x (.requeueing (some e))) := by
  have hjob : s.flight.workers = (x.turn.id, .busy) ::ₘ s.others i := by
    rw [flight_workers hs hx, Worker.job, hphase]
    rfl
  have hmarks : s.flight.marks = s.world.sup.inflight := by simp [System.flight, hs]
  have hlost : s.flight.lost = (s.lost.map Turn.id : List GoString) := by simp [System.flight, hs]
  -- both endings erase the mark; they differ in what the worker still has to do
  have hmove : ∀ (ok : Bool) (w : World K) (p : Phase),
      w.sup.inflight = s.world.sup.inflight.erase x.turn.id →
      p.stage = (if ok then .settled else .failed) →
      Handled U env (.work i) s ({ s with world := w }.setWorker i x p) := by
    intro ok w p hw hp
    refine Handled.worker (l := s.lost) hs hx
      (.inr ⟨.finish x.turn.id ok, ?_, fun _ => trivial, trivial⟩)
    rw [flight_setWorker hs hx, hw, hp, ← hmarks, ← hlost]
    exact .finish hjob
  have hfin : Finishable S s.world.sup.core.state x.turn.id x.turn.message.messageID o.usage := by
    refine ⟨fun h => ha.spares h x o hx hphase, fun m hm hmid => .inr (ha.moves _ _ ?_)⟩
    exact ⟨x, hx, .inr ⟨⟨o, hphase⟩, rfl, m, hm, hmid, rfl⟩⟩
  refine perform_of_ends ((finishTurn_ends hsound hm hfin).mono ?_ ?_ ?_)
  · intro _ w hp
    exact .of_path rfl hp rfl rfl hp.around.contexts (fun _ => ended_clean)
      (hmove true w _ hp.around.inflight rfl)
  · intro _ w hp
    exact .of_path rfl hp rfl rfl hp.around.contexts (fun _ => ended_clean)
      (hmove false w _ hp.around.inflight rfl)
  · rintro w ⟨b, hp⟩
    exact .of_path rfl hp rfl rfl hp.around.contexts (by simp [System.down]) (.down w)

theorem requeueing_handled {cause : Option Err} (lost : Bool) (hs : s.up = true)
    (hx : s.workers[i]? = some x) (hphase : x.phase = .requeueing cause)
    (hw : w.sup.inflight = s.world.sup.inflight)
    (hr : lost = true → ∃ e,
      (requeueClaim env x.turn.id x.turn.message.messageID s.world).1 = .error e) :
    Handled U env (.work i) s
      ({ s with world := w, lost := if lost then x.turn :: s.lost else s.lost }.setWorker i x
        (.clearing result)) := by
  have hstage : x.phase.stage = .busy ∨ x.phase.stage = .failed := by
    rw [hphase]
    cases cause with
    | none => exact .inl rfl
    | some _ => exact .inr rfl
  refine Handled.worker hs hx (.inr ⟨.requeue x.turn.id lost, ?_, fun ho => ?_, trivial⟩)
  · have hmarks : w.sup.inflight = s.flight.marks := by simp [System.flight, hs, hw]
    have hlost : (((if lost then x.turn :: s.lost else s.lost).map Turn.id : List _) : Multiset _) =
        Flight.loseIf lost x.turn.id s.flight.lost := by
      cases lost <;> simp [Flight.loseIf, System.flight, hs]
    rw [flight_setWorker hs hx, hmarks, hlost]
    exact .requeue hstage (flight_workers hs hx)
  · by_contra hne
    obtain ⟨y, hy⟩ := hr (by simpa [Flight.Act.IsOrderly] using hne)
    have hno := ho x hx (Phase.isRequeueing_iff.mpr ⟨cause, hphase⟩)
    rw [hy] at hno
    cases hno

theorem clearing_stepped (hs : s.up = true) (hx : s.workers[i]? = some x)
    (hphase : x.phase = .clearing result) :
    Stepped U S P env (.work i) s
      (s.perform (clearInflight x.turn.id) fun _ s => s.setWorker i x (.ending result)) := by
  have hjob : s.flight.workers = (x.turn.id, .settled) ::ₘ s.others i := by
    rw [flight_workers hs hx, Worker.job, hphase]
    rfl
  refine .of_handled rfl (.refl _) (Handled.worker
    (w := s.world.release x.turn.id) (l := s.lost) hs hx
    (.inr ⟨.clear x.turn.id, ?_, fun _ => trivial, trivial⟩))
  have hmarks : (s.world.release x.turn.id).sup.inflight = s.flight.marks.erase x.turn.id := by
    simp [System.flight, hs, World.release]
  have hlost : ((s.lost.map Turn.id : List _) : Multiset _) = s.flight.lost := by
    simp [System.flight, hs]
  rw [flight_setWorker hs hx, hmarks, hlost]
  exact .clear hjob

theorem ending_handled {failures : List Err} (hs : s.up = true)
    (hx : s.workers[i]? = some x) (hphase : x.phase = .ending result) :
    Handled U env (.work i) s { s with workers := s.workers.eraseIdx i, failures := failures } where
  turns := by
    intro t ht
    refine .inl ?_
    simp only [System.turns, mem_append, mem_map] at ht ⊢
    exact ht.imp_right fun ⟨y, hy, h⟩ => ⟨y, mem_of_mem_eraseIdx hy, h⟩
  exports := fun _ h => .inl h
  flight := by
    have hjob : s.flight.workers = (x.turn.id, .gone) ::ₘ s.others i := by
      rw [flight_workers hs hx, Worker.job, hphase]
      rfl
    refine .inr ⟨.leave x.turn.id, ?_, fun _ => trivial, .inl trivial⟩
    have heq : ({ s with workers := s.workers.eraseIdx i, failures := failures } : System K).flight =
        { s.flight with workers := s.others i } := by
      simp only [System.flight, hs, if_true, System.others]
    rw [heq]
    exact .leave hjob
  idle := by simp [hs]

theorem workerStep_stepped (hs : s.up = true) (hsound : Sound U s.world)
    (hx : s.workers[i]? = some x) (hm : valid x.turn.message.messageID = true)
    (ha : Allowed U S P env s (.work i)) (h : workerStep env s i x = some s') :
    Stepped U S P env (.work i) s s' := by
  have hquiet : ∀ p : Phase, p.stage = x.phase.stage →
      Stepped U S P env (.work i) s (s.setWorker i x p) :=
    fun p hp => .of_world rfl (Handled.samePhase (w := s.world) hs hx rfl hp)
  unfold workerStep at h
  dsimp only at h
  cases hphase : x.phase with
  | start =>
    rw [hphase] at hquiet h
    dsimp only at h
    split at h <;> cases h <;> exact hquiet _ rfl
  | routing =>
    rw [hphase] at hquiet h
    cases h
    exact hquiet _ (routePhase_stage _ _ _)
  | calling =>
    rw [hphase] at h
    cases h
  | folding taint o =>
    rw [hphase] at h
    cases h
    have htaint : S.writes (.taint x.turn.id) := ha.writes _ ⟨x, taint, o, hx, hphase, rfl⟩
    refine .perform (foldTaint_settled htaint) fun r w _ hw => ⟨rfl, .samePhase hs hx hw ?_⟩
    rw [hphase]
    rfl
  | deciding o =>
    rw [hphase] at hquiet h
    dsimp only at h
    split at h <;> cases h <;> exact hquiet _ rfl
  | finishing o =>
    rw [hphase] at h
    cases h
    exact finishing_stepped hs hsound hx hphase hm ha
  | requeueing cause =>
    rw [hphase] at h
    cases h
    have hmove : S.moves .claimed .pending :=
      ha.moves _ _ ⟨x, hx, .inl ⟨⟨cause, hphase⟩, rfl, rfl⟩⟩
    refine .perform (requeueClaim_settled hsound hmove) fun r w hr hw => ?_
    cases r with
    | ok _ => exact ⟨rfl, requeueing_handled false hs hx hphase hw (by simp)⟩
    | error e => exact ⟨rfl, requeueing_handled true hs hx hphase hw fun _ => ⟨e, hr e rfl⟩⟩
  | clearing result =>
    rw [hphase] at h
    cases h
    exact clearing_stepped hs hx hphase
  | ending result =>
    rw [hphase] at h
    cases h
    exact .of_world rfl (ending_handled hs hx hphase)

/-! ## The loop -/

theorem Handled.setLoop {l : Loop} (hs : s.up = true)
    (hw : w.sup.inflight = s.world.sup.inflight) (hl : l.turn = s.loop.turn) :
    Handled U env e s ({ s with world := w }.setLoop l) :=
  .still rfl hs hw hl rfl rfl fun _ h => .inl h

theorem flight_waiting (hs : s.up = true) {t : Turn} (hl : s.loop.turn = some t) :
    s.flight.waiting = t.id ::ₘ 0 := by
  simp [System.flight, hs, hl]

theorem claimed_handled {id : GoString} {m : MailboxMessage} {time : ℤ}
    (hs : s.up = true) (hl : s.loop = .claiming) (hw : w.sup.inflight = s.world.sup.inflight)
    (hfree : id ∉ s.world.sup.inflight) (hm : valid m.messageID = true)
    (hr : (claimTurn env s.world).1 = .ok (some (id, m))) :
    Handled U env .loopStep s
      ({ s with world := w.take id time }.setLoop (.dispatching ⟨id, m⟩)) where
  turns := by
    intro t ht
    simp only [System.turns, System.setLoop, hl, Loop.turn, Option.toList, mem_append,
      mem_singleton, not_mem_nil, false_or] at ht ⊢
    rcases ht with rfl | ht
    · exact .inr hm
    · exact .inl ht
  exports := fun _ h => .inl h
  flight := by
    refine .inr ⟨.claim id, ?_, fun ho => ?_, .inl trivial⟩
    · have heq : ({ s with world := w.take id time }.setLoop (.dispatching ⟨id, m⟩)).flight =
          { s.flight with marks := insert id s.flight.marks, waiting := id ::ₘ s.flight.waiting } := by
        simp [System.flight, System.setLoop, hs, hl, Loop.turn, World.take, hw]
      rw [heq]
      exact .claim (by simpa [System.flight, hs] using hfree)
    · simp only [Event.IsOrderly, hl, Loop.IsOrderly] at ho
      have hclaimed : (claimTurn env s.world).1.value?.join = some (id, m) := by
        rw [hr]
        rfl
      have hjob : ∀ st, (id, st) ∈ s.flight.workers → st = .busy ∨ st = .gone := by
        intro st hst
        simp only [System.flight, hs, if_true, Multiset.mem_coe, mem_map] at hst
        obtain ⟨x, hx, hjob⟩ := hst
        cases hjob
        exact ho _ hclaimed x hx rfl
      exact ⟨fun h => by simpa using hjob _ h, fun h => by simpa using hjob _ h⟩
  idle := by simp [System.setLoop, hs]

theorem claiming_stepped (hs : s.up = true) (hsound : Sound U s.world) (hl : s.loop = .claiming)
    (hmove : S.moves .pending .claimed)
    (htaint : ∀ i m, Chosen s.world i m → S.writes (.taint i)) :
    Stepped U S P env .loopStep s (s.perform (claimTurn env) fun
      | .ok (some (id, m)), s => s.setLoop (.dispatching ⟨id, m⟩)
      | .ok none, s => s.setLoop .waiting
      | .error _, s => s.setLoop .draining) := by
  have hends : Ends (claimTurn env) s.world
      (fun r w => (r = none ∧ Path U S env (.clean, s.world) (.clean, w)) ∨ ∃ id m t w',
        r = some (id, m) ∧ w = w'.take id t ∧ Path U S env (.clean, s.world) (.clean, w') ∧
          id ∉ s.world.sup.inflight ∧ valid m.messageID = true)
      (fun _ w => Path U S env (.clean, s.world) (.clean, w))
      (fun w => ∃ b, Path U S env (.clean, s.world) (b, w)) :=
    claimTurn_ends hsound hmove htaint (fun w hp => .inl ⟨rfl, hp⟩)
      (fun id m t w hp hc hm => .inr ⟨id, m, t, w, rfl, rfl, hp, hc.free, hm⟩)
      (fun _ _ hp => hp) fun b _ hp => ⟨b, hp⟩
  refine perform_of_ends (hends.and_result.mono ?_ ?_ ?_)
  · rintro r w ⟨⟨rfl, hp⟩ | ⟨id, m, t, w', rfl, rfl, hp, hfree, hm⟩, hr⟩
    · exact .of_path rfl hp rfl rfl hp.around.contexts (fun _ => ended_clean)
        (.setLoop hs hp.around.inflight (by rw [hl]; rfl))
    · exact .of_path (w := w'.take id t) rfl hp rfl rfl hp.around.contexts (fun _ => ended_clean)
        (claimed_handled hs hl hp.around.inflight hfree hm hr)
  · rintro _ w ⟨hp, -⟩
    exact .of_path rfl hp rfl rfl hp.around.contexts (fun _ => ended_clean)
      (.setLoop hs hp.around.inflight (by rw [hl]; rfl))
  · rintro w ⟨b, hp⟩
    exact .of_path rfl hp rfl rfl hp.around.contexts (by simp [System.down]) (.down w)

theorem dispatched_handled {t : Turn} (hs : s.up = true) (hl : s.loop = .dispatching t) :
    Handled U env .loopStep s
      { s with loop := .waiting, workers := s.workers ++ [⟨t, .start⟩] } where
  turns := by
    intro u hu
    simp only [System.turns, hl, Loop.turn, Option.toList, nil_append, map_append,
      map_cons, map_nil, mem_append, mem_singleton] at hu ⊢
    exact .inl hu.symm
  exports := fun _ h => .inl h
  flight := by
    refine .inr ⟨.hand t.id, ?_, fun _ => trivial, .inl trivial⟩
    have heq : ({ s with loop := .waiting, workers := s.workers ++ [⟨t, .start⟩] } :
        System K).flight =
        { s.flight with waiting := 0, workers := (t.id, .busy) ::ₘ s.flight.workers } := by
      simp only [System.flight, hs, if_true, Loop.turn, map_append, ← Multiset.coe_add]
      ext1
      · rfl
      · rfl
      · exact add_comm _ _
      · rfl
    rw [heq]
    exact .hand (flight_waiting hs (by rw [hl]; rfl))
  idle := by simp [hs]

theorem returned_handled {t : Turn} (lost : Bool) (hs : s.up = true)
    (hl : s.loop = .returning t) (hw : w.sup.inflight = s.world.sup.inflight)
    (hr : lost = true → ∃ e, (requeueClaim env t.id t.message.messageID s.world).1 = .error e) :
    Handled U env .loopStep s
      { s with world := w, loop := .draining, lost := if lost then t :: s.lost else s.lost } where
  turns := fun u hu => .inl (mem_append_right _ hu)
  exports := fun _ h => .inl h
  flight := by
    refine .inr ⟨.drop t.id lost, ?_, fun ho => ?_, .inr ⟨t, hl⟩⟩
    · have heq : ({ s with
            world := w, loop := .draining, lost := if lost then t :: s.lost else s.lost } :
          System K).flight =
          { s.flight with waiting := 0, lost := Flight.loseIf lost t.id s.flight.lost } := by
        cases lost <;> simp [System.flight, hs, Loop.turn, Flight.loseIf, hw]
      rw [heq]
      exact .drop (flight_waiting hs (by rw [hl]; rfl))
    · simp only [Event.IsOrderly, hl, Loop.IsOrderly] at ho
      by_contra hne
      obtain ⟨y, hy⟩ := hr (by simpa [Flight.Act.IsOrderly] using hne)
      rw [hy] at ho
      cases ho
  idle := by simp [hs]

theorem loopStep_stepped (hs : s.up = true) (hsound : Sound U s.world)
    (ha : Allowed U S P env s .loopStep) (h : Runtime.loopStep env s = some s') :
    Stepped U S P env .loopStep s s' := by
  have hcontinue : ∀ {c : Op K Unit} {l : Loop}, Settled U S env P c .clean s.world →
      l.turn = s.loop.turn → Loop.turn .draining = s.loop.turn →
      Stepped U S P env .loopStep s (s.perform c (System.continueWith l)) := by
    intro c l hc hl hd
    refine .perform hc fun r w _ hw => ?_
    cases r with
    | ok _ => exact ⟨rfl, .setLoop hs hw hl⟩
    | error _ => exact ⟨rfl, .setLoop hs hw hd⟩
  unfold Runtime.loopStep at h
  cases hl : s.loop with
  | idle =>
    rw [hl] at h
    cases h
  | attaching =>
    rw [hl] at h
    cases h
    refine .perform (attachKernel_settled hsound ha.boot) fun r w _ hw => ?_
    cases r with
    | ok _ => exact ⟨rfl, .setLoop hs hw (by rw [hl]; rfl)⟩
    | error _ => exact ⟨rfl, .setLoop hs hw (by rw [hl]; rfl)⟩
  | sizing =>
    rw [hl] at h
    cases h
    exact .of_world rfl (.still rfl hs rfl (by rw [hl]; rfl) rfl rfl fun _ h => .inl h)
  | waiting =>
    rw [hl] at h
    cases h
    exact .of_world rfl (.setLoop (w := s.world) hs rfl (by rw [hl]; rfl))
  | timers =>
    rw [hl] at h hcontinue
    cases h
    exact hcontinue (deliverTimers_settled hsound) rfl rfl
  | lsfs =>
    rw [hl] at h hcontinue
    cases h
    exact hcontinue (deliverLSFS_settled hsound fun hp => ha.ready hp hl) rfl rfl
  | kernel =>
    rw [hl] at h hcontinue
    cases h
    exact hcontinue (deliverKernel_settled hsound ha.boot) rfl rfl
  | claiming =>
    rw [hl] at h
    cases h
    exact claiming_stepped hs hsound hl (ha.moves _ _ (.inl ⟨hl, rfl, rfl⟩))
      fun i m h => ha.writes _ ⟨hl, i, m, h, rfl⟩
  | dispatching t =>
    rw [hl] at h
    dsimp only at h
    split at h <;> cases h
    exact .of_world rfl (dispatched_handled hs hl)
  | returning t =>
    rw [hl] at h
    cases h
    refine .perform (requeueClaim_settled hsound (ha.moves _ _ (.inr ⟨⟨t, hl⟩, rfl, rfl⟩)))
      fun r w hr hw => ?_
    cases r with
    | ok _ => exact ⟨rfl, returned_handled false hs hl hw (by simp)⟩
    | error x => exact ⟨rfl, returned_handled true hs hl hw fun _ => ⟨x, hr x rfl⟩⟩
  | draining =>
    rw [hl] at h
    dsimp only at h
    split at h <;> cases h
    exact .of_world rfl (.setLoop (w := s.world) hs rfl (by rw [hl]; rfl))

/-! ## Every step -/

structure System.Safe (U : Prop) (s : System K) : Prop where
  sound : s.up = true → Sound U s.world
  disk : WellFormed U (codec.reopen s.world.db)
  turns : ∀ t ∈ s.turns, valid t.message.messageID = true
  exports : ∀ x ∈ s.exports, Clear U x.1 ∧ Clear U x.2.2.1
  idle : s.up = false → s.loop = .idle ∧ s.workers = [] ∧ s.exports = [] ∧ s.lost = []

theorem stepUp_stepped (hup : s.up = true) (hs : s.Safe U) (ha : Allowed U S P env s e)
    (h : stepUp env s e = some s') : Stepped U S P env e s s' := by
  have hsound := hs.sound hup
  unfold stepUp at h
  cases e with
  | start => cases h
  | crash =>
    cases h
    exact .of_world rfl (.down s.world)
  | close =>
    dsimp only at h
    split at h <;> cases h
    exact .perform (snapshotKernel_settled hsound ha.boot) fun r w _ _ => ⟨rfl, .down w⟩
  | kernel k =>
    cases h
    exact .of_handled rfl (.refl _)
      (.still rfl hup rfl rfl rfl rfl fun _ h => .inl h)
  | call c =>
    cases h
    exact .perform (c.exec_settled hsound ha.clear ha.fresh ha.ready ha.moves ha.writes)
      fun r w _ hw => ⟨rfl, .still rfl hup hw rfl rfl rfl fun _ h => .inl h⟩
  | exportArtifact p id k x =>
    cases h
    obtain ⟨hp, hk, hx⟩ := ha.clear
    refine .perform (exportApplication_settled hsound hp hx (fun _ => rfl) fun _ hesc => ?_)
      fun r w _ hw => ?_
    · exact absurd hesc.asked.1 (by simp)
    · cases r with
      | ok _ =>
        refine ⟨rfl, .still rfl hup hw rfl rfl rfl fun y hy => ?_⟩
        rcases mem_append.mp hy with hy | hy
        · exact .inl hy
        · cases mem_singleton.mp hy
          exact .inr ⟨hp, hk⟩
      | error _ => exact ⟨rfl, .still rfl hup hw rfl rfl rfl fun _ h => .inl h⟩
  | exportStage j =>
    dsimp only at h
    split at h <;> cases h
    next p id k x hj =>
      obtain ⟨hp, hk⟩ := hs.exports _ (mem_of_getElem? hj)
      refine .perform (stageTransfer_settled hsound hp hk (ha.writes _ rfl) (.inr rfl)) fun r w _ hw => ?_
      exact ⟨rfl, .still rfl hup hw rfl rfl rfl fun y hy => .inl (mem_of_mem_eraseIdx hy)⟩
  | run p =>
    dsimp only at h
    split at h <;> cases h
    next hl => exact .of_world rfl (.still rfl hup rfl (by rw [hl]; rfl) rfl rfl fun _ h => .inl h)
  | cancel =>
    cases h
    exact .of_world rfl (.still rfl hup rfl rfl rfl rfl fun _ h => .inl h)
  | loopStep => exact loopStep_stepped hup hsound ha h
  | loopDone =>
    dsimp only [Runtime.loopDone] at h
    split at h
    · cases hl : s.loop <;> rw [hl] at h <;> cases h <;>
        exact .of_world rfl (.setLoop (w := s.world) hup rfl (by rw [hl]; rfl))
    · cases h
  | loopFailure =>
    dsimp only [Runtime.loopFailure] at h
    split at h <;> cases h
    next hl =>
      exact .of_world rfl (.still rfl hup rfl (by rw [hl.1]; rfl) rfl rfl fun _ h => .inl h)
  | work i =>
    dsimp only at h
    split at h
    next x hx =>
      refine workerStep_stepped hup hsound hx (hs.turns x.turn ?_) ha h
      exact mem_append_right _ (mem_map_of_mem (mem_of_getElem? hx))
    · cases h
  | complete i c =>
    dsimp only at h
    split at h
    next x hx =>
      split at h <;> cases h
      next hphase =>
        refine .of_world rfl (.samePhase (w := s.world) hup hx rfl ?_)
        rw [completePhase_stage, hphase]
        rfl
    · cases h

/-- A step of a process that is down: it starts on what lies on the disk. -/
structure Started (U : Prop) (S : Terms) (env : Env K) (e : Event K) (s s' : System K) :
    Prop where
  lasting : ∀ Q, Lasting U S env Q → Q (codec.reopen s.world.db) →
    Q (codec.reopen s'.world.db) ∧ (s'.up = true → Everywhere codec Q s'.world.store)
  committed : s'.up = true → ∃ c, s'.world.store = ⟨c, codec.save c, codec.save c⟩
  disk : (∃ c, codec.save c = s.world.db) → ∃ c, codec.save c = s'.world.db
  contexts : ContextStore.Grows s.world.contexts s'.world.contexts
  turns : s'.turns = []
  exports : s'.exports = []
  flight : s'.flight = .empty
  idle : s'.up = false → s'.loop = .idle ∧ s'.workers = [] ∧ s'.exports = [] ∧ s'.lost = []
  loop : s'.loop = .idle

theorem step_started (hup : s.up = false) (hs : s.Safe U) (ha : Allowed U S P env s e)
    (h : step env s e = some s') : Started U S env e s s' := by
  obtain ⟨hl, hw, hx, hlost⟩ := hs.idle hup
  simp only [step, hup, Bool.false_eq_true, if_false] at h
  cases e with
  | start =>
    cases h
    have hr : S.Restarts := ⟨ha.moves _ _ (.inl ⟨rfl, rfl⟩),
      ha.moves _ _ (.inr ⟨.inl rfl, rfl⟩), ha.moves _ _ (.inr ⟨.inr rfl, rfl⟩)⟩
    refine perform_of_ends ((load_ends hs.disk hr).mono ?_ ?_ ?_)
    · rintro _ w ⟨hk, hc⟩
      exact ⟨fun Q hQ hd => ⟨(hk.lasting Q hQ hd).disk, fun _ => hk.lasting Q hQ hd⟩, fun _ => hc,
        hk.disk, hk.around.contexts, by simp [System.turns, hl, hw, Loop.turn], hx,
        by simp [System.flight, hl, hw, hlost, hk.around.inflight, World.reopened, Loop.turn,
          Flight.empty],
        by simp, hl⟩
    · rintro _ w hk
      exact ⟨fun Q hQ hd => ⟨(hk.lasting Q hQ hd).disk, by simp [hup]⟩, by simp [hup], hk.disk,
        hk.around.contexts, by simp [System.turns, hl, hw, Loop.turn], hx, by simp [System.flight, hup],
        fun _ => ⟨hl, hw, hx, hlost⟩, hl⟩
    · rintro w hk
      exact ⟨fun Q hQ hd => ⟨(hk.lasting Q hQ hd).disk, by simp [System.down]⟩,
        by simp [System.down], hk.disk, hk.around.contexts, by simp [System.turns, System.down, Loop.turn],
        rfl, by simp [System.flight, System.down], fun _ => ⟨rfl, rfl, rfl, rfl⟩, rfl⟩
  | kernel k =>
    cases h
    exact ⟨fun Q _ hd => ⟨hd, by simp⟩, by simp, fun h => h, .refl _,
      by simp [System.turns, hl, hw, Loop.turn], hx, by simp [System.flight],
      fun _ => ⟨hl, hw, hx, hlost⟩, hl⟩
  | _ => cases h

theorem System.Safe.step (hs : s.Safe U) (ha : Allowed U S P env s e)
    (h : Runtime.step env s e = some s') : s'.Safe U := by
  cases hup : s.up with
  | true =>
    simp only [Runtime.step, hup, if_true] at h
    obtain ⟨⟨b, ht, -⟩, -, hh⟩ := stepUp_stepped hup hs ha h
    have hsound : Sound U s'.world := wellFormed_lasting.trail ht (hs.sound hup)
    exact ⟨fun _ => hsound, hsound.disk, fun t ht => (hh.turns t ht).elim (hs.turns t) id,
      fun x hx => (hh.exports x hx).elim (hs.exports x) id, hh.idle⟩
  | false =>
    have hst := step_started hup hs ha h
    obtain ⟨hdisk, hup'⟩ := hst.lasting _ wellFormed_lasting hs.disk
    exact ⟨hup', hdisk, by simp [hst.turns], by simp [hst.exports], hst.idle⟩

end Aok.Runtime
