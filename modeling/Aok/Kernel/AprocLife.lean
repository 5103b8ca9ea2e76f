import Aok.Lib.Ring
import Aok.Kernel.AprocSteps

/-!
# The life cycle of an agent process

Every change of the state is made together with the event that carries it, so the events of an
aproc tell the states it went through. A resource limit marks the freeze it asked for, and the mark
keeps automatic wakes out until a caller resumes or aborts. An aproc reaches a reapable state with
its last task, unless that task leaves while the aproc is frozen.
-/

namespace Aok.Kernel.Aprocs
open Lib

/-! ## Events -/

namespace Aproc

variable {p : Aproc} {kind : AprocEvent} {koid : ℕ} {code : UInt32}

@[simp] theorem emit_state : (p.emit kind koid code).state = p.state := rfl
@[simp] theorem emit_tasks : (p.emit kind koid code).tasks = p.tasks := rfl
@[simp] theorem emit_taskTotal : (p.emit kind koid code).taskTotal = p.taskTotal := rfl
@[simp] theorem emit_freezeReq : (p.emit kind koid code).freezeReq = p.freezeReq := rfl
@[simp] theorem emit_resourceFrozen :
    (p.emit kind koid code).resourceFrozen = p.resourceFrozen := rfl
@[simp] theorem emit_log :
    (p.emit kind koid code).log = p.log ++ [⟨p.aid, koid, p.eventSeq + 1, kind, code⟩] := rfl

structure Recorded (p : Aproc) : Prop where
  seq : p.eventSeq = UInt64.ofNat p.log.length
  ring : Ring.Keeps p.log p.events

theorem fresh_recorded (aid : ℕ) (ceiling : UInt64) : (fresh aid ceiling).Recorded :=
  ⟨rfl, Ring.keeps_nil _⟩

theorem Recorded.emit {q : Aproc} (h : p.Recorded) (hseq : q.eventSeq = p.eventSeq)
    (hring : q.events = p.events) (hlog : q.log = p.log) : (q.emit kind koid code).Recorded := by
  have hslot : (p.eventSeq + 1 - 1).toNat % eventQueueLen = p.log.length % eventQueueLen := by
    rw [UInt64.add_sub_cancel, h.seq, UInt64.toNat_ofNat']
    exact Nat.mod_mod_of_dvd _ (by decide)
  constructor
  · simp [Aproc.emit, hseq, hlog, h.seq]
  · have hpush := h.ring.push ⟨q.aid, koid, p.eventSeq + 1, kind, code⟩
      (Nat.mod_lt _ (by decide))
    simpa only [Aproc.emit, hseq, hring, hlog, hslot] using hpush

/-- The state an event carries; the events of the budget carry another one. -/
def carried (e : EventSlot) : Option UInt32 := if e.kind = .budget then none else some e.state

/-- Exactly one event is added, at the next place of the ring, and it carries the new state. -/
structure Appends (p p' : Aproc) (e : EventSlot) : Prop where
  seq : p'.eventSeq = p.eventSeq + 1
  number : e.eventSeq = p'.eventSeq
  ring : p'.events = p.events.set (p.eventSeq.toNat % eventQueueLen) e (Nat.mod_lt _ (by decide))
  log : p'.log = p.log ++ [e]
  carries : carried e = some p'.state.code

theorem emit_appends (q : Aproc) (hseq : q.eventSeq = p.eventSeq) (hring : q.events = p.events)
    (hlog : q.log = p.log) (hkind : kind ≠ .budget) :
    p.Appends (q.emit kind koid q.state.code)
      ⟨q.aid, koid, q.eventSeq + 1, kind, q.state.code⟩ := by
  constructor
  · simp [Aproc.emit, hseq]
  · rfl
  · simp [Aproc.emit, hseq, hring]
  · simp [hlog]
  · simp [carried, hkind]

/-! ## The changes -/

/-- A change that only touches the references, the locks or the ledger. -/
structure Quiet (p p' : Aproc) : Prop where
  state : p'.state = p.state
  tasks : p'.tasks = p.tasks
  total : p'.taskTotal = p.taskTotal
  freeze : p'.freezeReq = p.freezeReq
  resource : p'.resourceFrozen = p.resourceFrozen
  log : ∃ new, p'.log = p.log ++ new ∧ new.filterMap carried = []

theorem Quiet.of_log {p' : Aproc} (hs : p'.state = p.state) (ht : p'.tasks = p.tasks)
    (hn : p'.taskTotal = p.taskTotal) (hf : p'.freezeReq = p.freezeReq)
    (hr : p'.resourceFrozen = p.resourceFrozen) (hl : p'.log = p.log) : Quiet p p' :=
  ⟨hs, ht, hn, hf, hr, [], by simp [hl], rfl⟩

theorem Quiet.trans {p' p'' : Aproc} (h : p.Quiet p') (h' : p'.Quiet p'') : p.Quiet p'' := by
  obtain ⟨new, hnew, hcarry⟩ := h.log
  obtain ⟨more, hmore, hcarry'⟩ := h'.log
  exact ⟨h'.state.trans h.state, h'.tasks.trans h.tasks, h'.total.trans h.total,
    h'.freeze.trans h.freeze, h'.resource.trans h.resource, new ++ more,
    by rw [hmore, hnew, List.append_assoc], by simp [hcarry, hcarry']⟩

theorem resEval_quiet (p : Aproc) : p.Quiet p.resEval := by
  simp only [resEval]
  split_ifs
  all_goals first
    | exact .of_log rfl rfl rfl rfl rfl rfl
    | exact ⟨rfl, rfl, rfl, rfl, rfl, _, rfl, rfl⟩

/-- One change leaves the events alone or adds one. -/
inductive Emits (p : Aproc) : Aproc → Prop where
  | still {q : Aproc} (hseq : q.eventSeq = p.eventSeq) (hring : q.events = p.events)
      (hlog : q.log = p.log) : p.Emits q
  | one {q : Aproc} {kind : AprocEvent} {koid : ℕ} {code : UInt32}
      (hseq : q.eventSeq = p.eventSeq) (hring : q.events = p.events) (hlog : q.log = p.log) :
      p.Emits (q.emit kind koid code)

theorem Emits.resEval {q : Aproc} (hseq : q.eventSeq = p.eventSeq) (hring : q.events = p.events)
    (hlog : q.log = p.log) : p.Emits q.resEval := by
  simp only [Aproc.resEval]
  split_ifs
  all_goals first
    | exact .still hseq hring hlog
    | exact .one hseq hring hlog

theorem setBudget_quiet (p : Aproc) (b : Budget) : p.Quiet (p.setBudget b).2 := by
  unfold setBudget
  split_ifs
  · exact .of_log rfl rfl rfl rfl rfl rfl
  · exact .of_log rfl rfl rfl rfl rfl rfl
  · have hq : p.Quiet { p with limits := b } := .of_log rfl rfl rfl rfl rfl rfl
    exact hq.trans (resEval_quiet _)

theorem report_quiet (p : Aproc) (u : TokenUsage) : p.Quiet (p.report u).2 := by
  unfold report
  split_ifs
  · exact .of_log rfl rfl rfl rfl rfl rfl
  · exact .of_log rfl rfl rfl rfl rfl rfl
  · exact .of_log rfl rfl rfl rfl rfl rfl
  · have hq : p.Quiet { p with
        tokensUsed := satAdd p.tokensUsed (satAdd u.inputTokens u.outputTokens)
        tokensCached := satAdd p.tokensCached u.cachedTokens
        lastUsageId := u.usageId
        lastUsageSeq := u.usageSeq } := .of_log rfl rfl rfl rfl rfl rfl
    exact hq.trans (resEval_quiet _)

/-- What the part of a transition under the lock does: it leaves the state alone, or it moves on
with one event. -/
inductive Moves (p : Aproc) (state : AprocState) (automatic resource : Bool) : Aproc → Prop where
  | stays (h : ¬ (state = .frozen ∧ p.state = .frozen)) : p.Moves state automatic resource p
  | marks (h : p.state = .frozen) (hs : state = .frozen) :
      p.Moves state automatic resource { p with resourceFrozen := p.resourceFrozen || resource }
  | moves (hr : p.state ≠ .reaped) (hsame : p.state ≠ state)
      (hfrozen : state = .frozen → p.state = .running)
      (hrunning : state = .running → p.state = .frozen)
      (hauto : ¬ (automatic = true ∧ p.resourceFrozen = true)) :
      p.Moves state automatic resource (emit { p with
        state := state
        freezeReq := state = .frozen
        resourceFrozen := resource
        tasks := p.tasks.map fun x => { x with freeze := state = .frozen } } .state 0 state.code)

theorem transition_moves (p : Aproc) (c : Cause) :
    p.Moves c.state c.automatic c.resource
      (p.transition c.state c.automatic c.resource).2 := by
  unfold transition
  simp only
  split_ifs with hstay hfail hbad hauto
  · exact .marks hstay.2 hstay.1
  · exact .stays hstay
  · exact .stays hstay
  · exact .stays hstay
  · push Not at hbad
    refine .moves hbad.2.2 ?_ hbad.1 hbad.2.1 hauto
    intro he
    cases c <;> simp_all [Cause.state]

end Aproc

namespace Change
open Aproc

variable {k : Machine} {op : Op} {a : ℕ} {p p' : Aproc}

theorem emits (h : Change k op a p p') : p.Emits p' := by
  cases h with
  | refs | lock => exact .still rfl rfl rfl
  | enlist | exit => exact .one rfl rfl rfl
  | transition t f c =>
    have hm := transition_moves p c
    generalize (p.transition c.state c.automatic c.resource).2 = q at hm ⊢
    cases hm with
    | stays | marks => exact .still rfl rfl rfl
    | moves => exact .one rfl rfl rfl
  | reap =>
    unfold Aproc.reap
    split
    all_goals first
      | exact .still rfl rfl rfl
      | exact .one rfl rfl rfl
  | setBudget b =>
    unfold Aproc.setBudget
    split_ifs
    · exact .still rfl rfl rfl
    · exact .still rfl rfl rfl
    · exact .resEval rfl rfl rfl
  | report u =>
    unfold Aproc.report
    split_ifs
    · exact .still rfl rfl rfl
    · exact .still rfl rfl rfl
    · exact .still rfl rfl rfl
    · exact .resEval rfl rfl rfl

theorem recorded (h : Change k op a p p') (hp : p.Recorded) : p'.Recorded := by
  cases h.emits with
  | still hseq hring hlog =>
    constructor
    · rw [hseq, hlog, hp.seq]
    · rw [hlog, hring]
      exact hp.ring
  | one hseq hring hlog => exact hp.emit hseq hring hlog

/-- The changes by what they do to the state and the members. -/
inductive Kind (k : Machine) (op : Op) (a : ℕ) (p : Aproc) : Aproc → Prop where
  | quiet {p' : Aproc} (h : p.Quiet p') : Kind k op a p p'
  | enlist (koid : ℕ) (h : p.isAlive = true) : Kind k op a p (p.enlist koid)
  | exit (koid : ℕ) (h : op = .exit a koid) (hm : p.tasks.any (fun x => x.koid == koid) = true) :
      Kind k op a p (p.exit koid)
  | moves {p' : Aproc} {t f : ℕ} {c : Cause} (ho : op = .run t true)
      (ht : k.threads[t]? = some (.moving f c .locked)) (hf : k.target f = some (a, p))
      (hm : p.Moves c.state c.automatic c.resource p') : Kind k op a p p'
  | reaps (h : p.state = .exited ∨ p.state = .failed) :
      Kind k op a p (emit { p with state := .reaped } .state 0 AprocState.reaped.code)

theorem kind (h : Change k op a p p') : Kind k op a p p' := by
  cases h with
  | refs | lock => exact .quiet (.of_log rfl rfl rfl rfl rfl rfl)
  | enlist koid h => exact .enlist koid h
  | exit koid h hm => exact .exit koid h hm
  | transition t f c ho ht hf => exact .moves ho ht hf (transition_moves p c)
  | reap =>
    unfold Aproc.reap
    split
    · next h => exact .reaps (.inl h)
    · next h => exact .reaps (.inr h)
    · exact .quiet (.of_log rfl rfl rfl rfl rfl rfl)
    · exact .quiet (.of_log rfl rfl rfl rfl rfl rfl)
  | setBudget b => exact .quiet (setBudget_quiet p b)
  | report u => exact .quiet (report_quiet p u)

theorem appends (h : Change k op a p p') (hne : p'.state ≠ p.state) : ∃ e, p.Appends p' e := by
  cases h.kind with
  | quiet h => exact absurd h.state hne
  | enlist koid => exact absurd rfl hne
  | exit koid => exact ⟨_, emit_appends _ rfl rfl rfl (by decide)⟩
  | moves ho ht hf hm =>
    cases hm with
    | stays => exact absurd rfl hne
    | marks => exact absurd rfl hne
    | moves => exact ⟨_, emit_appends _ rfl rfl rfl (by decide)⟩
  | reaps => exact ⟨_, emit_appends _ rfl rfl rfl (by decide)⟩

theorem tells (h : Change k op a p p') : ∃ new, p'.log = p.log ++ new ∧
    (new.filterMap carried = [p'.state.code] ∨
      new.filterMap carried = [] ∧ p'.state = p.state) := by
  by_cases hs : p'.state = p.state
  · cases h.kind with
    | quiet h =>
      obtain ⟨new, hnew, hc⟩ := h.log
      exact ⟨new, hnew, .inr ⟨hc, hs⟩⟩
    | enlist koid => exact ⟨_, rfl, .inl rfl⟩
    | exit koid => exact ⟨_, rfl, .inl rfl⟩
    | moves ho ht hf hm =>
      cases hm with
      | stays => exact ⟨[], by simp, .inr ⟨rfl, rfl⟩⟩
      | marks => exact ⟨[], by simp, .inr ⟨rfl, rfl⟩⟩
      | moves => exact ⟨_, rfl, .inl rfl⟩
    | reaps => exact ⟨_, rfl, .inl rfl⟩
  · obtain ⟨e, he⟩ := h.appends hs
    exact ⟨[e], he.log, .inl (by simp [he.carries])⟩

theorem leads (h : Change k op a p p') :
    (p.state = .failed → p'.state = .failed ∨ p'.state = .reaped) ∧
      (p.state = .exited → p'.state = .exited ∨ p'.state = .failed ∨ p'.state = .reaped) ∧
        (p.state = .reaped → p'.state = .reaped) := by
  cases h.kind with
  | quiet h => simp +contextual [h.state]
  | enlist koid => simp +contextual [Aproc.enlist]
  | exit koid => simp +contextual [Aproc.exit]
  | @moves _ _ _ c ho ht hf hm =>
    cases hm with
    | stays => simp +contextual
    | marks => simp +contextual
    | moves hr hsame hfrozen hrunning =>
      have hc : c.state = .frozen ∨ c.state = .running ∨ c.state = .failed := by
        cases c <;> simp [Cause.state]
      rcases hc with hc | hc | hc
      · simp [hfrozen hc]
      · simp [hrunning hc]
      · simp [hc, hr]
  | reaps h => simp

theorem limited (h : Change k op a p p') (hs : p.state = .frozen) (hr : p.resourceFrozen = true)
    (hresume : k.commits a op ≠ some .resume) (habort : k.commits a op ≠ some .abort) :
    p'.state = .frozen ∧ p'.resourceFrozen = true := by
  cases h.kind with
  | quiet h => exact ⟨h.state.trans hs, h.resource.trans hr⟩
  | enlist koid => exact ⟨hs, hr⟩
  | exit koid => simp [Aproc.exit, hs, hr]
  | @moves _ t f c ho ht hf hm =>
    cases hm with
    | stays => exact ⟨hs, hr⟩
    | marks => simp [hs, hr]
    | moves _ hsame _ _ hauto =>
      have hc : k.commits a op = some c := by simp [ho, Machine.commits, ht, hf]
      rw [hs] at hsame
      cases c <;> simp_all [Cause.state, Cause.automatic]
  | reaps hend => simp [hs] at hend

theorem not_created (h : Change k op a p p') (hp : p.state ≠ .created) : p'.state ≠ .created := by
  cases h.kind with
  | quiet h => rwa [h.state]
  | enlist koid => exact hp
  | exit koid =>
    simp only [Aproc.exit, emit_state]
    split_ifs
    · decide
    · exact hp
  | @moves _ _ _ c ho ht hf hm =>
    cases hm with
    | stays => exact hp
    | marks => exact hp
    | moves => cases c <;> simp [Cause.state]
  | reaps => simp

end Change

/-! ## The last task -/

def Aproc.Rests (p : Aproc) : Prop :=
  0 < p.taskTotal → p.tasks = [] → p.state = .exited ∨ p.state = .failed ∨ p.state = .reaped

def Machine.strands (k : Machine) : Op → Bool
  | .exit a koid =>
    (k.aprocs[a]?).any fun p => p.state = .frozen && p.tasks.map Task.koid = [koid]
  | _ => false

theorem map_koid_of_eraseP {l : List Task} {koid : ℕ}
    (hm : l.any (fun x => x.koid == koid) = true)
    (he : (l.eraseP fun x => x.koid == koid) = []) : l.map Task.koid = [koid] := by
  cases l with
  | nil => simp at hm
  | cons x l =>
    by_cases hx : x.koid = koid
    · have hl : l = [] := by simpa [hx] using he
      simp [hx, hl]
    · simp [hx] at he

theorem Change.rests {k : Machine} {op : Op} {a : ℕ} {p p' : Aproc} (h : Change k op a p p')
    (hget : k.aprocs[a]? = some p) (hstrand : k.strands op = false) (hlive : p.state ≠ .created)
    (hp : p.Rests) : p'.Rests := by
  cases h.kind with
  | quiet h =>
    intro htotal htasks
    rw [h.state]
    exact hp (h.total ▸ htotal) (h.tasks ▸ htasks)
  | enlist koid => simp [Aproc.Rests, Aproc.enlist]
  | exit koid ho hm =>
    intro htotal htasks
    have hnil : (p.tasks.eraseP fun x => x.koid == koid) = [] := htasks
    have hone := map_koid_of_eraseP hm hnil
    subst ho
    have hfrozen : p.state ≠ .frozen := by simpa [Machine.strands, hget, hone] using hstrand
    cases hs : p.state <;> simp_all [Aproc.exit]
  | @moves _ _ _ c ho ht hf hm =>
    cases hm with
    | stays => exact hp
    | marks => exact hp
    | moves hr hsame hfrozen hrunning =>
      intro htotal htasks
      have hold := hp htotal (by simpa using htasks)
      have hc : c.state = .frozen ∨ c.state = .running ∨ c.state = .failed := by
        cases c <;> simp [Cause.state]
      rcases hc with hc | hc | hc
      · simp [hfrozen hc] at hold
      · simp [hrunning hc] at hold
      · exact .inr (.inl hc)
  | reaps h => exact fun _ _ => .inr (.inr rfl)

namespace Machine
open Aproc

theorem along_rests {ops : List Op}
    (h : Trace.Along next (fun k op => k.strands op = false) boot ops)
    {a : ℕ} {p : Aproc} (hp : (after ops).aprocs[a]? = some p) :
    p.state ≠ .created ∧ p.Rests := by
  refine along_aprocs (Q := fun p => p.state ≠ .created ∧ p.Rests) ?_ ?_ h a p hp
  · intro aid ceiling
    exact ⟨by simp [fresh], fun htotal => absurd htotal (Nat.lt_irrefl 0)⟩
  · intro k op a p p' hstrand hget hc hq
    exact ⟨hc.not_created hq.1, hc.rests hget hstrand hq.1 hq.2⟩

theorem reap_of_ended {k : Machine} {fd : ℕ} {g : Handle} {p : Aproc}
    (hl : k.lookup fd rightDestroy = .ok (g, p))
    (hs : p.state = .exited ∨ p.state = .failed ∨ p.state = .reaped) :
    (k.step (.reap fd)).1 = some (.ok 0) := by
  rcases hs with hs | hs | hs <;> simp [step, reap, hl, Aproc.reap, hs]

/-- In a run in which no frozen aproc loses its last task, an aproc without tasks can be reaped. -/
theorem last_task_reapable (ops : List Op)
    (h : Trace.Along next (fun k op => k.strands op = false) boot ops) (a : ℕ) (p : Aproc)
    (hp : (after ops).aprocs[a]? = some p) (hhad : 0 < p.taskTotal) (hnone : p.tasks = []) :
    p.state ≠ .running ∧ ∀ fd g, (after ops).lookup fd rightDestroy = .ok (g, p) →
      ((after ops).step (.reap fd)).1 = some (.ok 0) := by
  have hends := (along_rests h hp).2 hhad hnone
  refine ⟨?_, fun fd g hl => reap_of_ended hl hends⟩
  rcases hends with hs | hs | hs <;> simp [hs]

def newborn : List Op := [.create none, .run 0 true, .run 0 true]

/-- A call of thread `t` that finds the mutex free, down to its return. -/
def through (t : ℕ) : List Op := [.run t true, .run t true, .run t true, .run t true, .run t true]

theorem last_task_reapable_exited :
    ∃ p, (after (newborn ++ [.exit 1 1, .run 1 true])).aprocs[1]? = some p ∧ p.state ≠ .running ∧
      ((after (newborn ++ [.exit 1 1, .run 1 true])).step (.reap 0)).1 = some (.ok 0) := by
  obtain ⟨p, hp, hhad, hnone, hl⟩ : ∃ p,
      (after (newborn ++ [.exit 1 1, .run 1 true])).aprocs[1]? = some p ∧ 0 < p.taskTotal ∧
        p.tasks = [] ∧ (after (newborn ++ [.exit 1 1, .run 1 true])).lookup 0 rightDestroy =
          .ok (⟨1, rightsAprocInitial, 1⟩, p) := ⟨_, rfl, by decide, rfl, rfl⟩
  obtain ⟨hs, hreap⟩ := last_task_reapable _ (by decide +kernel) 1 p hp hhad hnone
  exact ⟨p, hp, hs, hreap 0 _ hl⟩

def stranded : List Op :=
  newborn ++ [.freeze 0] ++ through 1 ++ [.exit 1 1, .run 2 true, .resume 0] ++ through 3

theorem exists_running_without_tasks :
    ∃ p, (after stranded).aprocs[1]? = some p ∧ 0 < p.taskTotal ∧ p.tasks = [] ∧
      p.state = .running ∧ (after stranded).isSettled = true ∧
        ((after stranded).step (.reap 0)).1 = some (.error .ebusy) := by
  refine ⟨_, rfl, by decide, rfl, rfl, ?_, rfl⟩
  decide +kernel

/-! ## Events and limits over a run -/

theorem run_present {k : Machine} {a : ℕ} {p p' : Aproc} {mid : List Op} (hk : k.Issued)
    (hp : k.aprocs[a]? = some p) (hp' : (Trace.run next k mid).aprocs[a]? = some p') :
    Trace.Along next (fun k op => a ≤ k.nextAid ∧ (k.aprocs[a]?).isSome ∧
      ((k.next op).aprocs[a]?).isSome) k mid := by
  have hend : ((Trace.run next k mid).aprocs[a]?).isSome := by
    rw [hp']
    rfl
  refine Trace.along_of_end (J := fun k => (k.aprocs[a]?).isSome) (I := fun k => a ≤ k.nextAid)
    (fun k op h => h.trans (next_nextAid k op)) ?_ (hk a p hp) hend
  intro k op ha hn
  simp only [Bool.not_eq_true, Option.isSome_eq_false_iff, Option.isNone_iff_eq_none] at hn ⊢
  exact next_absent ha hn

theorem next_tells {k : Machine} {op : Op} {a : ℕ} (ha : a ≤ k.nextAid)
    (hold : (k.aprocs[a]?).isSome) (hnew : ((k.next op).aprocs[a]?).isSome) :
    Trace.Tells (fun k => (k.aprocs[a]?).map fun p => p.state.code)
      (fun k => (k.aprocs[a]?).elim [] Aproc.log) carried k (k.next op) := by
  obtain ⟨p, hp⟩ := Option.isSome_iff_exists.mp hold
  obtain ⟨p', hp'⟩ := Option.isSome_iff_exists.mp hnew
  rcases next_get hp' with hsame | ⟨q, hq, hc⟩ | ⟨ceiling, he, -⟩
  · exact ⟨[], p'.state.code, by simp [hp', hsame], by simp [hp'], .inr ⟨rfl, by simp [hsame]⟩⟩
  · obtain ⟨new, hlog, hcase⟩ := hc.tells
    refine ⟨new, p'.state.code, by simp [hp', hq, hlog], by simp [hp'], ?_⟩
    rcases hcase with hcarry | ⟨hcarry, hs⟩
    · exact .inl hcarry
    · exact .inr ⟨hcarry, by simp [hq, hs]⟩
  · omega

theorem run_limited {k : Machine} {a : ℕ} {q : Aproc} {mid : List Op} (ha : a ≤ k.nextAid)
    (hs : ∀ p, k.aprocs[a]? = some p → p.state = .frozen ∧ p.resourceFrozen = true)
    (h : Trace.Along next
      (fun k op => k.commits a op ≠ some .resume ∧ k.commits a op ≠ some .abort) k mid)
    (hq : (Trace.run next k mid).aprocs[a]? = some q) : q.state = .frozen := by
  refine ((h.keeps (I := fun k : Machine => a ≤ k.nextAid ∧ ∀ p, k.aprocs[a]? = some p →
    p.state = .frozen ∧ p.resourceFrozen = true) ?_ ⟨ha, hs⟩).2 q hq).1
  intro k op hk hcall
  refine ⟨hk.1.trans (next_nextAid k op), fun p' hp' => ?_⟩
  rcases next_get hp' with hp | ⟨p, hp, hc⟩ | ⟨ceiling, he, -⟩
  · exact hk.2 p' hp
  · obtain ⟨hfrozen, hmark⟩ := hk.2 p hp
    exact hc.limited hfrozen hmark hcall.1 hcall.2
  · have hle := hk.1
    omega

theorem transition_marked {p : Aproc} {c : Cause} (hres : c.resource = true)
    (hs : (p.transition c.state c.automatic c.resource).2.state = .frozen) :
    (p.transition c.state c.automatic c.resource).2.resourceFrozen = true := by
  have hc : c.state = .frozen := by cases c <;> simp_all [Cause.resource, Cause.state]
  have hm := transition_moves p c
  generalize (p.transition c.state c.automatic c.resource).2 = q at hm hs ⊢
  cases hm with
  | stays h => exact absurd ⟨hc, hs⟩ h
  | marks => simp [hres]
  | moves => exact hres

/-- Over every run: a freeze by a limit ends only with an explicit resume or abort; the terminal
states lead nowhere else; each change of the state adds exactly one event that carries it, and the
states carried by the events are the states taken, in their order. -/
theorem lifecycle_told (ops : List Op) :
    (∀ op a c p, (after ops).commits a op = some c → c.resource = true →
      ((after ops).next op).aprocs[a]? = some p → p.state = .frozen →
        ∀ mid q, Trace.Along next (fun k o => k.commits a o ≠ some .resume ∧
          k.commits a o ≠ some .abort) ((after ops).next op) mid →
            (Trace.run next ((after ops).next op) mid).aprocs[a]? = some q → q.state = .frozen) ∧
    (∀ op (a : ℕ) p p', (after ops).aprocs[a]? = some p →
      ((after ops).next op).aprocs[a]? = some p' →
        (p.state = .failed → p'.state = .failed ∨ p'.state = .reaped) ∧
        (p.state = .exited → p'.state = .exited ∨ p'.state = .failed ∨ p'.state = .reaped) ∧
        (p.state = .reaped → p'.state = .reaped) ∧
        (p'.state ≠ p.state → ∃ e, p.Appends p' e)) ∧
    (∀ (a : ℕ) p mid p', (after ops).aprocs[a]? = some p →
      (Trace.run next (after ops) mid).aprocs[a]? = some p' →
        ∃ new, p'.log = p.log ++ new ∧
          (p.state.code :: (Trace.states next (after ops) mid).filterMap fun k =>
            (k.aprocs[a]?).map fun p => p.state.code).destutter (· ≠ ·) =
              (p.state.code :: new.filterMap carried).destutter (· ≠ ·)) ∧
    (∀ (a : ℕ) p, (after ops).aprocs[a]? = some p → p.Recorded) := by
  have hissued := after_issued ops
  refine ⟨?_, ?_, ?_, ?_⟩
  · intro op a c p hc hres hp hs mid q hmid hq
    obtain ⟨p₀, hp₀, hnext⟩ := next_commits hc
    have ha : a ≤ ((after ops).next op).nextAid := (hissued.next op) a p hp
    refine run_limited ha ?_ hmid hq
    intro p' hp'
    obtain rfl := Option.some.inj (hp.symm.trans hp')
    obtain rfl := Option.some.inj (hnext.symm.trans hp)
    exact ⟨hs, transition_marked hres hs⟩
  · intro op a p p' hp hp'
    rcases next_get hp' with hsame | ⟨q, hq, hc⟩ | ⟨ceiling, he, -⟩
    · obtain rfl := Option.some.inj (hp.symm.trans hsame)
      exact ⟨.inl, .inl, id, fun h => absurd rfl h⟩
    · obtain rfl := Option.some.inj (hp.symm.trans hq)
      obtain ⟨hfailed, hexited, hreaped⟩ := hc.leads
      exact ⟨hfailed, hexited, hreaped, hc.appends⟩
    · have hle := hissued a p hp
      omega
  · intro a p mid p' hp hp'
    have halong := run_present hissued hp hp'
    obtain ⟨new, hlog, hsame⟩ := halong.told (v := p.state.code)
      (fun k op h => next_tells h.1 h.2.1 h.2.2) (by simp [hp])
    exact ⟨new, by simpa [hp, hp'] using hlog, hsame⟩
  · exact along_aprocs (P := fun _ _ => True) fresh_recorded
      (fun k op a p p' _ _ hc hp => hc.recorded hp) (Trace.along_true _ _)

def overLimit : List Op :=
  newborn ++ [.setBudget 0 ⟨maxWord, maxWord, 0, 10⟩, .tokenUsage 0 ⟨1, 1, 20, 0, 0⟩, .run 1 true]

def woken : List Op :=
  [.run 1 true, .run 1 true, .run 1 true, .bind 7 (some 0) 1 none, .wake 7 true] ++ through 2

theorem lifecycle_told_limited :
    ∃ q, (Trace.run next ((after overLimit).next (.run 1 true)) woken).aprocs[1]? = some q ∧
      q.state = .frozen := by
  refine ⟨_, rfl, ?_⟩
  exact (lifecycle_told overLimit).1 (.run 1 true) 1 .usage _ rfl rfl rfl rfl woken _
    (by decide +kernel) rfl

end Machine

end Aok.Kernel.Aprocs
