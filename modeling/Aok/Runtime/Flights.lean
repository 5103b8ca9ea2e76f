import Aok.Runtime.Runs

/-!
# One turn of an application at a time

The marks of applications in flight are the marks of the single-flight protocol, with the
turns of the loop and of its workers as jobs. A finished turn gives up its mark twice, once
inside `finishTurn` and once when its worker leaves, so the second time can take the mark
of the next turn; a turn returned on cancellation keeps its mark. Both are visible below as
conditions on runs.
-/

namespace Aok.Runtime
open Lib Lib.Utf8 Lib.JsonText Lib.JsonValue Lib.Command Lib.Journal List System
open Relation

variable {K : Type} {U P : Prop} {S : Terms} {env : Env K} {C : System K → Event K → Prop}
  {s s' : System K} {e : Event K}

theorem flight_of_down (h : s.up = false) : s.flight = .empty := by simp [flight, h]

/-- A step of the system is a move of the protocol or invisible to it. -/
theorem step_flight (hs : s.Safe U) (ha : Allowed U S P env s e) (h : step env s e = some s') :
    s'.flight = s.flight ∨ ∃ a, Flight.Move a s.flight s'.flight ∧
      (e.IsOrderly env s → a.IsOrderly s.flight) ∧ (a.KeepsWaiting ∨ ∃ t, s.loop = .returning t) := by
  cases hup : s.up with
  | true =>
    simp only [step, hup, if_true] at h
    exact (stepUp_stepped hup hs ha h).handled.flight
  | false =>
    exact .inl ((step_started hup hs ha h).flight.trans (flight_of_down hup).symm)

theorem flight_initial (k : K) : (initial k).flight = .empty := flight_of_down rfl

/-! ## No two turns of one application -/

theorem Reachable.exclusive
    (h : Reachable env (fun s e => e.IsFresh env s ∧ e.IsOrderly env s) s) :
    s.flight.Exclusive := by
  refine h.invariant (U := False) (S := .all False) (P := False) (I := fun s => s.flight.Exclusive) ?_
    (fun k => ?_) ?_
  · exact fun s e he => .ofFresh he.1 (fun hf => hf.elim) fun hf => hf.elim
  · rw [flight_initial]
    exact Flight.exclusive_empty
  · intro s e s' hs he hstep ih
    have ha : Allowed False (.all False) False env s e :=
      .ofFresh he.1 (fun hf => hf.elim) fun hf => hf.elim
    rcases step_flight hs ha hstep with heq | ⟨a, hm, horder, -⟩
    · rw [heq]
      exact ih
    · exact ih.move hm (horder he.2)

def Phase.isOpen : Phase → Bool
  | .clearing _ | .ending _ => false
  | _ => true

def System.openTurns (s : System K) : List Turn :=
  s.loop.turn.toList ++ (s.workers.filter fun x => x.phase.isOpen).map Worker.turn ++ s.lost

theorem Phase.isOpen_iff (p : Phase) : p.isOpen = true ↔ p.stage = .busy ∨ p.stage = .failed := by
  cases p with
  | requeueing c => cases c <;> simp [Phase.isOpen, Phase.stage]
  | _ => simp [Phase.isOpen, Phase.stage]

theorem outstanding_eq (hup : s.up = true) :
    s.flight.outstanding = (s.openTurns.map Turn.id : List GoString) := by
  have hworkers : (((s.workers.map Worker.job).filter fun x => x.2 = .busy ∨ x.2 = .failed).map
      Prod.fst : List GoString) =
      ((s.workers.filter fun x => x.phase.isOpen).map Worker.turn).map Turn.id := by
    have hopen : ((fun x : GoString × Stage => decide (x.2 = .busy ∨ x.2 = .failed)) ∘ Worker.job) =
        fun x : Worker => x.phase.isOpen := by
      funext x
      rw [Bool.eq_iff_iff, x.phase.isOpen_iff]
      exact decide_eq_true_iff
    rw [filter_map, hopen, List.map_map, List.map_map]
    rfl
  simp only [Flight.outstanding, flight, hup, if_true, openTurns, map_append,
    ← Multiset.coe_add, ← hworkers]
  rfl

theorem openTurns_of_down (hs : s.Safe U) (hup : s.up = false) : s.openTurns = [] := by
  obtain ⟨hl, hw, -, hlost⟩ := hs.idle hup
  simp [openTurns, hl, hw, hlost, Loop.turn]

theorem openTurns_nodup (h : Reachable env (fun s e => e.IsFresh env s ∧ e.IsOrderly env s) s) :
    (s.openTurns.map Turn.id).Nodup := by
  cases hup : s.up with
  | true =>
    have hn := h.exclusive.nodup_outstanding
    rwa [outstanding_eq hup, Multiset.coe_nodup] at hn
  | false =>
    have hs : s.Safe False := h.safe (S := .all False) (P := False)
      fun _ _ he => .ofFresh he.1 (fun hf => hf.elim) fun hf => hf.elim
    rw [openTurns_of_down hs hup]
    exact nodup_nil

theorem pairwise_of_nodup_filter {α β : Type} {p : α → Bool} {f : α → β} {l : List α}
    (h : ((l.filter p).map f).Nodup) : l.Pairwise fun x y => p x = true → p y = true → f x ≠ f y := by
  rw [List.Nodup, pairwise_map, pairwise_filter] at h
  exact h

theorem eq_of_open {i j : ℕ} {x y : Worker} (hn : (s.openTurns.map Turn.id).Nodup)
    (hi : s.workers[i]? = some x) (hj : s.workers[j]? = some y) (hx : x.phase.isOpen = true)
    (hy : y.phase.isOpen = true) (hid : x.turn.id = y.turn.id) : i = j := by
  have hopen : ((s.workers.filter fun x => x.phase.isOpen).map (Turn.id ∘ Worker.turn)).Nodup := by
    simp only [openTurns, map_append, List.map_map] at hn
    exact hn.of_append_left.of_append_right
  have hpair := pairwise_iff_getElem.mp (pairwise_of_nodup_filter hopen)
  obtain ⟨hil, rfl⟩ := List.getElem?_eq_some_iff.mp hi
  obtain ⟨hjl, rfl⟩ := List.getElem?_eq_some_iff.mp hj
  rcases lt_trichotomy i j with hlt | heq | hgt
  · exact absurd hid (hpair i j hil hjl hlt hx hy)
  · exact heq
  · exact absurd hid.symm (hpair j i hjl hil hgt hy hx)

/-- In a run in which no application is claimed while a worker that has released it is yet to
clear it, and in which no requeue fails, every application has at most one claimed turn that is
neither committed nor requeued, and provider calls for it do not overlap. -/
theorem single_flight (h : Reachable env (fun s e => e.IsFresh env s ∧ e.IsOrderly env s) s) :
    (s.openTurns.map Turn.id).Nodup ∧
    ∀ (i j : ℕ) (x y : Worker), s.workers[i]? = some x → s.workers[j]? = some y → x.phase = .calling →
      y.phase = .calling → x.turn.id = y.turn.id → i = j := by
  refine ⟨openTurns_nodup h, fun i j x y hi hj hx hy hid => ?_⟩
  exact eq_of_open (openTurns_nodup h) hi hj (by rw [hx]; rfl) (by rw [hy]; rfl) hid

namespace Sample

/-- Two workers and three messages of one application; the first turn is with a worker. -/
def threeMessages : List (Event Unit) :=
  create ++ [.call (.setTurnConcurrency 2), send "a", send "b", send "c"] ++ claimFirst

def claimNext : List (Event Unit) := replicate 6 .loopStep

def isCalling (s : System Unit) (i : ℕ) : Bool :=
  (s.workers[i]?).any fun x => x.turn.id = app ∧ x.phase = .calling

example : runs (create ++ claimFirst) := by decide +kernel

end Sample

open Sample

/-- The worker leaves before the next claim. -/
theorem single_flight_two_turns : ∃ s : System Unit,
    s.openTurns.length = 1 ∧ s.world.sup.core.state.results.size = 1 ∧
    (s.openTurns.map Turn.id).Nodup ∧
    ∀ (i j : ℕ) (x y : Worker), s.workers[i]? = some x → s.workers[j]? = some y →
      x.phase = .calling → y.phase = .calling → x.turn.id = y.turn.id → i = j := by
  obtain ⟨s, hr, hopen, hsize⟩ : ∃ s, Run calm
      (fun s e => e.IsFresh calm s ∧ e.IsOrderly calm s) (initial ()) s ∧
      s.openTurns.length = 1 ∧ s.world.sup.core.state.results.size = 1 :=
    exists_run (threeMessages ++ finish 0 ++ [.work 0, .work 0] ++ claimNext)
      (by decide +kernel)
  exact ⟨s, hopen, hsize, single_flight ⟨(), hr⟩⟩

/-- The second release of the first turn takes the mark of the second, so the third is claimed
while the second is with the provider. -/
theorem exists_overlapping_calls : ∃ s : System Unit,
    Reachable calm (fun s e => e.IsFresh calm s) s ∧
    isCalling s 0 = true ∧ isCalling s 1 = true := by
  obtain ⟨s, hr, h⟩ : ∃ s, Run calm (fun s e => e.IsFresh calm s)
      (initial ()) s ∧ isCalling s 0 = true ∧ isCalling s 1 = true :=
    exists_run (threeMessages ++ finish 0 ++ claimNext ++ [.work 0, .work 0] ++
      claimNext ++ [.work 0, .work 0, .work 1, .work 1]) (by decide +kernel)
  exact ⟨s, ⟨(), hr⟩, h⟩

/-! ## No mark outlives its turn -/

def Loop.isDispatching : Loop → Bool
  | .dispatching _ => true
  | _ => false

/-- `Run` has not begun, or has returned. -/
def Loop.isResting : Loop → Bool
  | .idle | .attaching | .sizing => true
  | _ => false

def Loop.isReturning : Loop → Bool
  | .returning _ => true
  | _ => false

/-- `Run` is not cancelled while it holds a turn for which no worker is free. -/
def Event.KeepsTurn (s : System K) : Event K → Prop
  | .loopDone => s.loop.isDispatching = false
  | _ => True

instance (s : System K) : (e : Event K) → Decidable (e.KeepsTurn s)
  | .loopDone => inferInstanceAs (Decidable (_ = _))
  | .start | .crash | .close | .kernel _ | .call _ | .exportArtifact .. | .exportStage _ | .run _
  | .cancel | .loopStep | .work _ | .loopFailure | .complete .. => instDecidableTrue

/-- No worker is left while `Run` rests, and no turn is being returned. -/
structure System.Orderly (s : System K) : Prop where
  rests : s.loop.isResting = true → s.workers = []
  keeps : s.loop.isReturning = false

theorem perform_of_next {α : Type} {c : Op K α} {next : Except Err α → System K → System K}
    {R : System K → Prop} (hnext : ∀ r w, R (next r { s with world := w }))
    (hdown : ∀ w, R { s with world := w }.down) : R (s.perform c next) := by
  refine perform_of_ends (Ends.mono (Q := fun _ _ => True) (E := fun _ _ => True)
    (S := fun _ => True) ?_ (fun a w _ => hnext _ w) (fun x w _ => hnext _ w) fun w _ => hdown w)
  unfold Ends
  split <;> trivial

theorem System.Orderly.down (w : World K) : { s with world := w }.down.Orderly :=
  ⟨fun _ => rfl, rfl⟩

theorem System.Orderly.of_eq (h : s.Orderly) (hl : s'.loop = s.loop) (hw : s'.workers = s.workers) :
    s'.Orderly :=
  ⟨by rw [hl, hw]; exact h.rests, by rw [hl]; exact h.keeps⟩

theorem System.Orderly.busy (hl : s.loop.isResting = false) (hk : s.loop.isReturning = false) :
    s.Orderly :=
  ⟨fun h => absurd h (by simp [hl]), hk⟩

theorem continueWith_orderly {l : Loop} {r : Except Err Unit} (hl : l.isResting = false)
    (hk : l.isReturning = false) : (continueWith l r s).Orderly := by
  cases r with
  | ok _ => exact .busy hl hk
  | error _ => exact .busy rfl rfl

theorem loopStep_orderly (h : s.Orderly) (hstep : Runtime.loopStep env s = some s') : s'.Orderly := by
  have hcontinue : ∀ {c : Op K Unit} {l : Loop}, l.isResting = false → l.isReturning = false →
      (s.perform c (continueWith l)).Orderly := fun hl hk =>
    perform_of_next (fun _ _ => continueWith_orderly hl hk) .down
  unfold Runtime.loopStep at hstep
  cases hl : s.loop with
  | idle =>
    rw [hl] at hstep
    cases hstep
  | attaching =>
    rw [hl] at hstep
    cases hstep
    have hw : s.workers = [] := h.rests (by rw [hl]; rfl)
    refine perform_of_next (fun r w => ?_) .down
    cases r with
    | ok _ => exact ⟨fun _ => hw, rfl⟩
    | error _ => exact ⟨fun _ => hw, rfl⟩
  | sizing | waiting =>
    rw [hl] at hstep
    cases hstep
    exact .busy rfl rfl
  | timers | lsfs | kernel =>
    rw [hl] at hstep
    cases hstep
    exact hcontinue rfl rfl
  | claiming =>
    rw [hl] at hstep
    cases hstep
    refine perform_of_next (fun r w => ?_) .down
    rcases r with _ | _ | _
    · exact .busy rfl rfl
    · exact .busy rfl rfl
    · exact .busy rfl rfl
  | dispatching t =>
    rw [hl] at hstep
    dsimp only at hstep
    split at hstep <;> cases hstep
    exact .busy rfl rfl
  | returning t =>
    have hk := h.keeps
    rw [hl] at hk
    cases hk
  | draining =>
    rw [hl] at hstep
    dsimp only at hstep
    split at hstep <;> cases hstep
    next hw => exact ⟨fun _ => hw, rfl⟩

theorem workerStep_loop {i : ℕ} {x : Worker} (hstep : workerStep env s i x = some s') :
    s'.loop = s.loop ∨ s'.workers = [] ∧ s'.loop = .idle := by
  have hperform : ∀ {α : Type} {c : Op K α} {next : Except Err α → System K → System K},
      (∀ r w, (next r { s with world := w }).loop = s.loop) →
      (s.perform c next).loop = s.loop ∨
        (s.perform c next).workers = [] ∧ (s.perform c next).loop = .idle := fun hn =>
    perform_of_next (R := fun s' => s'.loop = s.loop ∨ s'.workers = [] ∧ s'.loop = .idle)
      (fun r w => .inl (hn r w)) fun w => .inr ⟨rfl, rfl⟩
  unfold workerStep at hstep
  dsimp only at hstep
  split at hstep
  · split at hstep <;> cases hstep <;> exact .inl rfl
  · cases hstep
    exact .inl rfl
  · cases hstep
  · cases hstep
    exact hperform fun _ _ => rfl
  · split at hstep <;> cases hstep <;> exact .inl rfl
  · cases hstep
    exact hperform fun r _ => by cases r <;> rfl
  · cases hstep
    exact hperform fun r _ => by cases r <;> rfl
  · cases hstep
    exact hperform fun _ _ => rfl
  · cases hstep
    exact .inl rfl

theorem System.Orderly.of_worker {i : ℕ} {x : Worker} (h : s.Orderly) (hx : s.workers[i]? = some x)
    (hl : s'.loop = s.loop ∨ s'.workers = [] ∧ s'.loop = .idle) : s'.Orderly := by
  rcases hl with hl | ⟨hw, hl⟩
  · refine ⟨fun hrest => ?_, by rw [hl]; exact h.keeps⟩
    rw [hl] at hrest
    simp [h.rests hrest] at hx
  · exact ⟨fun _ => hw, by rw [hl]; rfl⟩

theorem step_orderly (hs : s.Safe U) (ha : Allowed U S P env s e) (hk : e.KeepsTurn s)
    (hstep : step env s e = some s') (h : s.Orderly) : s'.Orderly := by
  cases hup : s.up with
  | false =>
    have hst := step_started hup hs ha hstep
    have hturns := hst.turns
    simp only [turns, append_eq_nil_iff, map_eq_nil_iff] at hturns
    exact ⟨fun _ => hturns.2, by rw [hst.loop]; rfl⟩
  | true =>
    simp only [step, hup, if_true] at hstep
    unfold stepUp at hstep
    cases e with
    | start => cases hstep
    | crash =>
      cases hstep
      exact .down s.world
    | close =>
      dsimp only at hstep
      split at hstep <;> cases hstep
      exact perform_of_next (fun _ w => .down w) .down
    | kernel k =>
      cases hstep
      exact h.of_eq rfl rfl
    | call c =>
      cases hstep
      exact perform_of_next (fun _ w => h.of_eq rfl rfl) .down
    | exportArtifact p id k x =>
      cases hstep
      refine perform_of_next (fun r w => ?_) .down
      cases r with
      | ok _ => exact h.of_eq rfl rfl
      | error _ => exact h.of_eq rfl rfl
    | exportStage j =>
      dsimp only at hstep
      split at hstep <;> cases hstep
      exact perform_of_next (fun _ w => h.of_eq rfl rfl) .down
    | run p =>
      dsimp only at hstep
      split at hstep <;> cases hstep
      next hl => exact ⟨fun _ => h.rests (by rw [hl]; rfl), rfl⟩
    | cancel =>
      cases hstep
      exact h.of_eq rfl rfl
    | loopStep => exact loopStep_orderly h hstep
    | loopDone =>
      dsimp only [Runtime.loopDone] at hstep
      split at hstep
      · cases hl : s.loop with
        | waiting =>
          rw [hl] at hstep
          cases hstep
          exact .busy rfl rfl
        | dispatching t =>
          simp [Event.KeepsTurn, hl, Loop.isDispatching] at hk
        | _ =>
          rw [hl] at hstep
          cases hstep
      · cases hstep
    | loopFailure =>
      dsimp only [Runtime.loopFailure] at hstep
      split at hstep <;> cases hstep
      exact .busy rfl rfl
    | work i =>
      dsimp only at hstep
      split at hstep
      next x hx => exact h.of_worker hx (workerStep_loop hstep)
      · cases hstep
    | complete i c =>
      dsimp only at hstep
      split at hstep
      next x hx =>
        split at hstep <;> cases hstep
        exact h.of_worker hx (.inl rfl)
      · cases hstep

theorem Reachable.covered (h : Reachable env (fun s e => e.IsFresh env s ∧ e.KeepsTurn s) s) :
    s.flight.Covered ∧ s.Orderly := by
  have hplain : ∀ (s : System K) e, e.IsFresh env s ∧ e.KeepsTurn s →
      Allowed False (.all False) False env s e :=
    fun _ _ he => .ofFresh he.1 (fun hf => hf.elim) fun hf => hf.elim
  refine h.invariant (I := fun s => s.flight.Covered ∧ s.Orderly) hplain (fun k => ?_) ?_
  · rw [flight_initial]
    exact ⟨Flight.covered_empty, fun _ => rfl, rfl⟩
  · rintro s e s' hs he hstep ⟨hcovered, horderly⟩
    refine ⟨?_, step_orderly hs (hplain s e he) he.2 hstep horderly⟩
    rcases step_flight hs (hplain s e he) hstep with heq | ⟨a, hm, -, hkeep | ⟨t, ht⟩⟩
    · rw [heq]
      exact hcovered
    · exact hcovered.move hm hkeep
    · -- only a turn that is being returned is given up
      have hk := horderly.keeps
      rw [ht] at hk
      cases hk

theorem exists_candidate {sup : Supervisor} {time : ℤ} {ids : List GoString} {id : GoString}
    {a : Application} (hid : id ∈ ids) (ha : sup.core.state.applications[id]? = some a)
    (helig : sup.isEligible time id a = true)
    (hm : ∃ m ∈ sup.core.state.messages id, m.status = .pending) :
    ∃ c ∈ sup.candidates time ids, c.id = id := by
  have hmem : (id, a) ∈ sup.eligible time ids := by
    refine mem_filter.mpr ⟨(mem_insertionSort _).mpr ?_, helig⟩
    exact mem_filterMap.mpr ⟨id, hid, by rw [ha]; rfl⟩
  obtain ⟨m, hm, hpending⟩ := hm
  obtain ⟨x, hx⟩ : ∃ x, (sup.core.state.messages id).find? (fun m => m.status = .pending) = some x :=
    Option.isSome_iff_exists.mp (find?_isSome.mpr ⟨m, hm, by simpa using hpending⟩)
  refine ⟨⟨id, x, a.tokensUsed, sup.lastPrefix ≠ [] ∧ promptPrefix x.payload = sup.lastPrefix⟩,
    mem_filterMap.mpr ⟨(id, a), hmem, ?_⟩, rfl⟩
  simp only [hx, Option.map_some]

theorem mem_flight_active (hup : s.up = true) {id : GoString} (h : id ∈ s.flight.active) :
    ∃ x ∈ s.workers, x.turn.id = id ∧ ∀ r, x.phase ≠ .ending r := by
  obtain ⟨st, hst, hmem⟩ := Flight.mem_active.mp h
  simp only [flight, hup, if_true, Multiset.mem_coe, mem_map] at hmem
  obtain ⟨x, hx, hjob⟩ := hmem
  cases hjob
  refine ⟨x, hx, rfl, fun r hr => hst ?_⟩
  rw [hr]
  rfl

/-- In a run in which `Run` is never cancelled while it holds a turn for which no worker is free,
every mark belongs to a turn that waits for a worker or is being executed. When `Run` has returned
no mark is left, and every serving application with a pending message can be claimed. -/
theorem marks_have_turns (h : Reachable env (fun s e => e.IsFresh env s ∧ e.KeepsTurn s) s)
    (hup : s.up = true) :
    (∀ id ∈ s.world.sup.inflight, (∃ t, s.loop = .dispatching t ∧ t.id = id) ∨
      ∃ x ∈ s.workers, x.turn.id = id ∧ ∀ r, x.phase ≠ .ending r) ∧
    (s.loop = .idle → s.world.sup.inflight = ∅ ∧
      ∀ time ids id a, id ∈ ids → s.world.sup.core.state.applications[id]? = some a →
        a.state = .serving → a.wakePolicy ≠ .manual → s.world.sup.isThrottled time id a = false →
        (∃ m ∈ s.world.sup.core.state.messages id, m.status = .pending) →
        ∃ c ∈ s.world.sup.candidates time ids, c.id = id) := by
  obtain ⟨hcovered, horderly⟩ := h.covered
  have hmarks : ∀ id ∈ s.world.sup.inflight, (∃ t, s.loop = .dispatching t ∧ t.id = id) ∨
      ∃ x ∈ s.workers, x.turn.id = id ∧ ∀ r, x.phase ≠ .ending r := by
    intro id hid
    rcases hcovered id (by simpa [flight, hup] using hid) with hw | hact
    · left
      simp only [flight, hup, if_true, Multiset.mem_coe, mem_map, Option.mem_toList] at hw
      obtain ⟨t, ht, rfl⟩ := hw
      have hk := horderly.keeps
      cases hl : s.loop with
      | dispatching u =>
        rw [hl] at ht
        cases ht
        exact ⟨_, rfl, rfl⟩
      | returning u =>
        rw [hl] at hk
        cases hk
      | _ =>
        rw [hl] at ht
        cases ht
    · exact .inr (mem_flight_active hup hact)
  refine ⟨hmarks, fun hl => ?_⟩
  have hempty : s.world.sup.inflight = ∅ := by
    refine Finset.eq_empty_of_forall_notMem fun id hid => ?_
    have hw : s.workers = [] := horderly.rests (by rw [hl]; rfl)
    rcases hmarks id hid with ⟨t, ht, -⟩ | ⟨x, hx, -⟩
    · rw [hl] at ht
      cases ht
    · simp [hw] at hx
  refine ⟨hempty, fun time ids id a hid ha hserving hwake hthrottle hm => ?_⟩
  exact exists_candidate hid ha
    (by simp [Supervisor.isEligible, hserving, hwake, hempty, hthrottle]) hm

example : runs [.start, .run provider, .cancel] := by decide +kernel

/-- `Run` is cancelled after the turn, with a second message pending. -/
theorem marks_have_turns_cancelled : ∃ s : System Unit, s.up = true ∧ s.loop = .idle ∧
    s.world.sup.inflight = ∅ ∧ ∃ c ∈ s.world.sup.candidates 0 [app], c.id = app := by
  obtain ⟨s, hr, hup, hl, a, ha, hserving, hwake, hthrottle, hm⟩ : ∃ s, Run calm
      (fun s e => e.IsFresh calm s ∧ e.KeepsTurn s) (initial ()) s ∧ s.up = true ∧
      s.loop = .idle ∧ ∃ a ∈ s.world.sup.core.state.applications[app]?, a.state = .serving ∧
      a.wakePolicy ≠ .manual ∧ s.world.sup.isThrottled 0 app a = false ∧
      ∃ m ∈ s.world.sup.core.state.messages app, m.status = .pending :=
    exists_run (create ++ [send "a", send "b"] ++ claimFirst ++
      finish 0 ++ [.cancel, .loopDone, .work 0, .work 0, .loopStep])
      (by decide +kernel)
  obtain ⟨hempty, hcandidate⟩ := (marks_have_turns ⟨(), hr⟩ hup).2 hl
  exact ⟨s, hup, hl, hempty,
    hcandidate 0 [app] app a (by simp) ha hserving hwake hthrottle hm⟩

def Sample.other : GoString := lit "0a0b0c0d-0e0f-4011-9213-141516171819"

/-- `Run` claims a turn of a second application, waits for the only worker and is cancelled. The
turn is requeued, and after `Run` has returned the application is still marked: its pending
message is no candidate, at any time. -/
theorem exists_mark_left_behind : ∃ s : System Unit,
    Reachable calm (fun s e => e.IsFresh calm s) s ∧ s.up = true ∧ s.loop = .idle ∧
    s.workers = [] ∧ other ∈ s.world.sup.inflight ∧
    (∃ m ∈ s.world.sup.core.state.messages other, m.status = .pending) ∧
    ∀ time ids, ∀ c ∈ s.world.sup.candidates time ids, c.id ≠ other := by
  obtain ⟨s, hr, hup, hl, hw, hmark, hm⟩ : ∃ s, Run calm
      (fun s e => e.IsFresh calm s) (initial ()) s ∧ s.up = true ∧ s.loop = .idle ∧
      s.workers = [] ∧ other ∈ s.world.sup.inflight ∧
      ∃ m ∈ s.world.sup.core.state.messages other, m.status = .pending :=
    exists_run (create ++
      [.call (.createApplication admin (lit "other") []), send "a",
        .call (.enqueue admin other (lit "b") (lit "\x7b\"text\":\"x\"\x7d"))] ++
      claimFirst ++ replicate 5 .loopStep ++ [.cancel, .loopDone, .loopStep] ++
      finish 0 ++ [.work 0, .work 0, .loopStep])
      (by decide +kernel)
  refine ⟨s, ⟨(), hr⟩, hup, hl, hw, hmark, hm, fun time ids c hc hid => ?_⟩
  have hfree := (chosen_of_candidate hc).1.free
  rw [hid] at hfree
  exact hfree hmark

end Aok.Runtime
