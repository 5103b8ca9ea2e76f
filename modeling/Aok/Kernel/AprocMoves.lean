import Aok.Kernel.AprocSteps

/-!
# References and transitions under way

A step is made of a few moves. Each of them keeps the references of an aproc equal to what holds it,
and moves the freezer counter together with the work that its threads still have to do.
-/

namespace Aok.Kernel.Aprocs
open Lib

/-! ## What is counted -/

def Aproc.frozenCount (p : Aproc) : ℕ := if p.state = .frozen then 1 else 0

namespace Thread

def enters : Thread → ℕ
  | .moving _ _ (.entering _) => 1
  | _ => 0

def owes : Thread → ℕ
  | .moving _ _ (.entering true) | .moving _ _ (.signalling true) | .moving _ _ .leaving => 1
  | _ => 0

def leaves (a : ℕ) : Thread → ℕ
  | .exited b => if b = a then 1 else 0
  | _ => 0

theorem leaves_of_file {x : Thread} {f : ℕ} (h : x.file = some f) (a : ℕ) : x.leaves a = 0 := by
  cases x <;> simp_all [file, leaves]

theorem owes_of_idle {x : Thread} (h : x.inTransition = false) : x.owes = 0 := by
  cases x with
  | moving f c stage => cases stage <;> simp_all [inTransition, owes]
  | _ => rfl

theorem enters_of_idle {x : Thread} (h : x.inTransition = false) : x.enters = 0 := by
  cases x with
  | moving f c stage => cases stage <;> simp_all [inTransition, enters]
  | _ => rfl

end Thread

/-- The change touches neither the references nor the number of the members. -/
structure Aproc.Still (p p' : Aproc) : Prop where
  refs : p'.refs = p.refs
  members : p'.tasks.length = p.tasks.length

/-- The moves a step is made of. An aproc that is freed meets the condition. -/
inductive Move (free : Aproc → Prop) : Machine → Machine → Prop where
  | aproc {k : Machine} {a : ℕ} {p p' : Aproc} (hp : k.aprocs[a]? = some p) (hs : p.Still p')
      (hf : p'.frozenCount = p.frozenCount) : Move free k (k.setAproc a p')
  | join {k : Machine} {a : ℕ} {p : Aproc} (hp : k.aprocs[a]? = some p) (koid : ℕ) :
      Move free k { k.setAproc a (p.enlist koid) with nextKoid := koid }
  | leave {k : Machine} {a koid : ℕ} {p : Aproc} (hp : k.aprocs[a]? = some p)
      (hm : p.tasks.any (fun x => x.koid == koid) = true) :
      Move free k ((k.setAproc a (p.exit koid)).start (.exited a))
  | finish {k : Machine} {a t : ℕ} (ht : k.threads[t]? = some (.exited a))
      (hf : ∀ p, k.aprocs[a]? = some p → p.refs = 1 → free p) :
      Move free k ((k.put a).endThread t)
  | release {k : Machine} {f : ℕ} {h : Handle} (hh : k.handles[f]? = some h)
      (hheld : k.isHeld f h = false) (hf : ∀ p, k.aprocs[h.aid]? = some p → p.refs = 1 → free p) :
      Move free k { k.put h.aid with handles := k.handles.erase f }
  | duplicate {k : Machine} {a : ℕ} {p : Aproc} (hp : k.aprocs[a]? = some p) (rights : UInt64) :
      Move free k ((k.setAproc a { p with refs := p.refs + 1 }).openHandle ⟨a, rights, 1⟩)
  | create {k : Machine} (ceiling : UInt64) : Move free k
      ({ k.setAproc (k.nextAid + 1) (.fresh (k.nextAid + 1) ceiling) with
        nextAid := k.nextAid + 1 }.openHandle ⟨k.nextAid + 1, ceiling, 0⟩)
  | fds {k : Machine} {f : ℕ} {h : Handle} (hh : k.handles[f]? = some h) (n : ℕ) :
      Move free k (k.setHandle f { h with fds := n })
  | bind {k : Machine} {target : Option ℕ}
      (ht : ∀ f, target = some f → (k.handles[f]?).isSome) (source : ℕ) (policy : UInt64) :
      Move free k { k with bindings := k.bindings.insert source ⟨target, policy⟩ }
  | unbind {k : Machine} (source : ℕ) :
      Move free k { k with bindings := k.bindings.erase source }
  | start {k : Machine} {x : Thread} {f : ℕ} (hx : x.file = some f)
      (hf : (k.handles[f]?).isSome) (hi : x.inTransition = false) : Move free k (k.start x)
  | thread {k : Machine} {t f : ℕ} {x x' : Thread} (ht : k.threads[t]? = some x)
      (hx : x.file = some f) (hx' : x'.file = some f) (he : x'.enters = x.enters)
      (ho : x'.owes = x.owes) : Move free k (k.setThread t x')
  | stop {k : Machine} {t f : ℕ} {x : Thread} (ht : k.threads[t]? = some x)
      (hx : x.file = some f) (he : x.enters = 0) (ho : x.owes = 0) : Move free k (k.endThread t)
  | commit {k : Machine} {a t f : ℕ} {p p' : Aproc} {x x' : Thread} (hp : k.aprocs[a]? = some p)
      (hs : p.Still p') (ht : k.threads[t]? = some x) (hx : x.file = some f)
      (hx' : x'.file = some f) (he : x.enters = 0) (ho : x.owes = 0)
      (hf : p'.frozenCount + x'.owes = p.frozenCount + x'.enters) :
      Move free k ((k.setAproc a p').setThread t x')
  | enter {k : Machine} {t f : ℕ} {c : Cause} {w : Bool}
      (ht : k.threads[t]? = some (.moving f c (.entering w))) :
      Move free k (k.freezerEnter.setThread t (.moving f c (.signalling w)))
  | quit {k : Machine} {t f : ℕ} {c : Cause} (ht : k.threads[t]? = some (.moving f c .leaving)) :
      Move free k (k.freezerLeave.setThread t (.moving f c (.unlocking (.ok ()))))

abbrev Moves (free : Aproc → Prop) : Machine → Machine → Prop :=
  Relation.ReflTransGen (Move free)

/-! ## Changes that are still -/

namespace Aproc

variable {p : Aproc}

theorem resEval_still (p : Aproc) :
    p.Still p.resEval ∧ p.resEval.frozenCount = p.frozenCount := by
  simp only [resEval]
  split_ifs <;> exact ⟨⟨rfl, rfl⟩, rfl⟩

theorem setBudget_still (p : Aproc) (b : Budget) :
    p.Still (p.setBudget b).2 ∧ (p.setBudget b).2.frozenCount = p.frozenCount := by
  unfold setBudget
  split_ifs
  · exact ⟨⟨rfl, rfl⟩, rfl⟩
  · exact ⟨⟨rfl, rfl⟩, rfl⟩
  · obtain ⟨hs, hf⟩ := resEval_still { p with limits := b }
    exact ⟨⟨hs.refs, hs.members⟩, hf⟩

theorem report_still (p : Aproc) (u : TokenUsage) :
    p.Still (p.report u).2 ∧ (p.report u).2.frozenCount = p.frozenCount := by
  unfold report
  split_ifs
  · exact ⟨⟨rfl, rfl⟩, rfl⟩
  · exact ⟨⟨rfl, rfl⟩, rfl⟩
  · exact ⟨⟨rfl, rfl⟩, rfl⟩
  · obtain ⟨hs, hf⟩ := resEval_still { p with
      tokensUsed := satAdd p.tokensUsed (satAdd u.inputTokens u.outputTokens)
      tokensCached := satAdd p.tokensCached u.cachedTokens
      lastUsageId := u.usageId
      lastUsageSeq := u.usageSeq }
    exact ⟨⟨hs.refs, hs.members⟩, hf⟩

theorem reap_still (p : Aproc) :
    p.Still p.reap.2 ∧ p.reap.2.frozenCount = p.frozenCount := by
  unfold reap
  split
  · next h => exact ⟨⟨rfl, rfl⟩, by simp [frozenCount, emit, h]⟩
  · next h => exact ⟨⟨rfl, rfl⟩, by simp [frozenCount, emit, h]⟩
  · exact ⟨⟨rfl, rfl⟩, rfl⟩
  · exact ⟨⟨rfl, rfl⟩, rfl⟩

theorem transition_still (p : Aproc) (s : AprocState) (automatic resource : Bool) :
    p.Still (p.transition s automatic resource).2 := by
  unfold transition
  simp only
  split_ifs
  · exact ⟨rfl, rfl⟩
  · exact ⟨rfl, rfl⟩
  · exact ⟨rfl, rfl⟩
  · exact ⟨rfl, rfl⟩
  · exact ⟨rfl, by simp [emit]⟩

theorem transition_frozen {p p' : Aproc} {s : AprocState} {automatic resource : Bool}
    {r : Except Errno (Option Bool)} (h : p.transition s automatic resource = (r, p')) :
    match r with
    | .ok (some w) => (p.frozenCount = if w = true then 1 else 0) ∧
        p'.frozenCount = if s = .frozen then 1 else 0
    | _ => p'.frozenCount = p.frozenCount := by
  unfold transition at h
  simp only at h
  split_ifs at h <;> cases h <;> simp [frozenCount, emit]

end Aproc

/-! ## Steps as moves -/

namespace Machine

variable {k : Machine} {free : Aproc → Prop}

theorem join_moves {a : ℕ} {p : Aproc} {k' : Machine} (hp : k.aprocs[a]? = some p)
    (hj : k.join a p = .ok k') : Move free k k' := by
  obtain ⟨-, rfl⟩ := join_eq_ok hj
  exact .join hp _

theorem join_threads {a : ℕ} {p : Aproc} {k' : Machine} (hj : k.join a p = .ok k') :
    k'.threads = k.threads := by
  obtain ⟨-, rfl⟩ := join_eq_ok hj
  rfl

theorem move_moves {t f a : ℕ} {p : Aproc} {c : Cause} {ok : Bool} {stage : Stage}
    (ht : k.threads[t]? = some (.moving f c stage)) (hf : k.target f = some (a, p)) :
    Moves free k (k.move t f a p c ok stage).2 := by
  obtain ⟨h, hh, ha, hp⟩ := target_eq_some hf
  cases stage with
  | waiting =>
    simp only [move]
    split_ifs
    · exact .refl
    · exact (Relation.ReflTransGen.single (.aproc hp ⟨rfl, rfl⟩ rfl)).tail
        (.thread ht rfl rfl rfl rfl)
  | locked =>
    by_cases hok : ok = false
    · simp only [move, if_pos hok]
      exact .single (.thread ht rfl rfl rfl rfl)
    · simp only [move, if_neg hok]
      have hstill := p.transition_still c.state c.automatic c.resource
      split
      · next htr =>
        rw [htr] at hstill
        have hfrozen : _ = _ := Aproc.transition_frozen htr
        exact .single (.commit hp hstill ht rfl rfl rfl rfl (congrArg (· + 0) hfrozen))
      · next htr =>
        rw [htr] at hstill
        have hfrozen : _ = _ := Aproc.transition_frozen htr
        exact .single (.commit hp hstill ht rfl rfl rfl rfl (congrArg (· + 0) hfrozen))
      · next w p' htr =>
        rw [htr] at hstill
        obtain ⟨hw, hs⟩ : _ ∧ _ := Aproc.transition_frozen htr
        refine .single (.commit hp hstill ht rfl (by split_ifs <;> rfl) rfl rfl ?_)
        rw [hw]
        by_cases hc : c.state = .frozen
        · rw [if_pos hc] at hs
          simp only [if_pos hc, hs]
          cases w <;> rfl
        · rw [if_neg hc] at hs
          simp only [if_neg hc, hs]
          cases w <;> rfl
  | entering w => exact .single (.enter ht)
  | signalling w =>
    cases w
    · exact .single (.thread ht rfl rfl rfl rfl)
    · exact .single (.thread ht rfl rfl rfl rfl)
  | leaving => exact .single (.quit ht)
  | unlocking ret =>
    exact (Relation.ReflTransGen.single (.aproc hp ⟨rfl, rfl⟩ rfl)).tail (.stop ht rfl rfl rfl)

theorem advance_moves (t : ℕ) (ok : Bool)
    (hfree : ∀ a p, k.drops (.run t ok) = some a → k.aprocs[a]? = some p → p.refs = 1 → free p) :
    Moves free k (k.advance t ok).2 := by
  unfold advance
  split
  · exact .refl
  · next f ht =>
    unfold cloneFirst
    split_ifs
    · exact .single (.stop ht rfl rfl rfl)
    · split
      · exact .refl
      · next a p hf =>
        obtain ⟨h, -, -, hp⟩ := target_eq_some hf
        split
        · exact .single (.stop ht rfl rfl rfl)
        · next hj =>
          rw [← join_threads hj] at ht
          exact (Relation.ReflTransGen.single (join_moves hp hj)).tail
            (.thread ht rfl rfl rfl rfl)
  · next f ht =>
    unfold publish
    split
    · exact .refl
    · next h hh =>
      split_ifs
      · exact .single (.stop ht rfl rfl rfl)
      · exact (Relation.ReflTransGen.single (.fds hh 1)).tail (.stop ht rfl rfl rfl)
  · next f ht =>
    unfold cloneMore
    split_ifs
    · exact .single (.stop ht rfl rfl rfl)
    · split
      · exact .refl
      · next a p hf =>
        obtain ⟨h, -, -, hp⟩ := target_eq_some hf
        split
        · exact .single (.stop ht rfl rfl rfl)
        · next hj =>
          rw [← join_threads hj] at ht
          exact (Relation.ReflTransGen.single (join_moves hp hj)).tail (.stop ht rfl rfl rfl)
  · next a ht =>
    exact .single (.finish ht fun p => hfree a p (by simp [drops, ht]))
  · next f c stage ht =>
    split
    · exact .refl
    · next a p hf => exact move_moves ht hf

theorem lookup_start {fd : ℕ} {right : UInt64} {g : Handle × Aproc} {x : Thread}
    (hl : k.lookup fd right = .ok g) (hx : x.file = some fd) (hi : x.inTransition = false) :
    Move free k (k.start x) := by
  obtain ⟨hh, -⟩ := lookup_eq_ok hl
  exact .start hx (by rw [hh]; rfl) hi

def Bound (k : Machine) : Prop :=
  ∀ (s : ℕ) b f, k.bindings[s]? = some b → b.wakeTarget = some f → (k.handles[f]?).isSome

theorem bind_moves (source : ℕ) (target : Option ℕ) (policy : UInt64) (refused : Option Errno) :
    Moves free k (k.bind source target policy refused).2 := by
  unfold bind
  split_ifs
  · exact .refl
  · cases target with
    | none =>
      cases refused
      · exact .single (.bind (fun f hf => by cases hf) source policy)
      · exact .refl
    | some f =>
      cases hl : k.lookup f rightSignal with
      | error e => simpa [hl] using Relation.ReflTransGen.refl
      | ok g =>
        obtain ⟨hh, -⟩ := lookup_eq_ok hl
        cases refused with
        | none =>
          simp only [Option.map_some, hl]
          refine .single (.bind ?_ source policy)
          intro f' hf
          cases hf
          simp [hh]
        | some e => simpa [hl] using Relation.ReflTransGen.refl

/-- A step is made of moves, and what it frees meets the condition. -/
theorem next_moves (hbound : k.Bound) (op : Op)
    (hfree : ∀ a p, k.drops op = some a → k.aprocs[a]? = some p → p.refs = 1 → free p) :
    Moves free k (k.next op) := by
  cases op with
  | create parent =>
    simp only [next, step, create]
    split
    · exact .refl
    · next ceiling _ =>
      split
      · exact .refl
      · next aid ha =>
        unfold allocId at ha
        split_ifs at ha
        cases ha
        refine (Relation.ReflTransGen.single (.create ceiling)).tail (.start rfl ?_ rfl)
        simp [openHandle, setHandle, setAproc]
  | release f =>
    simp only [next, step, release]
    split
    · exact .refl
    · next h hh =>
      split_ifs with hheld
      · exact .refl
      · exact .single (.release hh (by simpa using hheld) fun p =>
          hfree h.aid p (by simp [drops, hh, hheld]))
  | run t ok => exact advance_moves t ok hfree
  | spawn fd =>
    simp only [next, step, spawn]
    split
    · exact .refl
    · next hl =>
      split_ifs
      · exact .refl
      · exact .single (lookup_start hl rfl rfl)
  | attach fd refused =>
    simp only [next, step, attach]
    split
    · exact .refl
    · next h p hl =>
      split
      · exact .refl
      · split
        · exact .refl
        · next hj => exact .single (join_moves (lookup_eq_ok hl).2.2.2 hj)
  | fork a koid =>
    simp only [next, step, fork]
    split
    · exact .refl
    · next p hp =>
      split_ifs
      · exact .refl
      · split
        · exact .refl
        · next hj => exact .single (join_moves hp hj)
  | exit a koid =>
    simp only [next, step, exit]
    split
    · exact .refl
    · next p hp =>
      split_ifs with hm
      · exact .refl
      · exact .single (.leave hp (by simpa using hm))
  | duplicate fd rights =>
    simp only [next, step, duplicate]
    split
    · exact .refl
    · next h p hl =>
      split_ifs
      · exact .refl
      · exact .single (.duplicate (lookup_eq_ok hl).2.2.2 rights)
  | dup fd | close fd =>
    simp only [next, step, setFds]
    split
    · exact .refl
    · next h hh =>
      split_ifs
      · exact .refl
      · exact .single (.fds hh _)
  | freeze fd | resume fd | abort fd =>
    simp only [next, step, transitionFd]
    split
    · exact .refl
    · next hl => exact .single (lookup_start hl rfl rfl)
  | reap fd =>
    simp only [next, step, reap]
    split
    · exact .refl
    · next h p hl =>
      obtain ⟨hs, hf⟩ := p.reap_still
      split
      all_goals
        next hr =>
        rw [hr] at hs hf
        exact .single (.aproc (lookup_eq_ok hl).2.2.2 hs hf)
  | setBudget fd b =>
    simp only [next, step, setBudget]
    split_ifs
    · exact .refl
    · split
      · exact .refl
      · next h p hl =>
        obtain ⟨hs, hf⟩ := p.setBudget_still b
        split
        all_goals
          next hr =>
          rw [hr] at hs hf
          exact .single (.aproc (lookup_eq_ok hl).2.2.2 hs hf)
  | getBudget fd cpuUsec bytes =>
    simp only [next, step, getBudget]
    split
    · exact .refl
    · next hl =>
      split_ifs
      · exact .single (lookup_start hl rfl rfl)
      · exact .refl
  | tokenUsage fd u =>
    simp only [next, step, tokenUsage]
    split_ifs
    · exact .refl
    · split
      · exact .refl
      · next h p hl =>
        obtain ⟨hs, hf⟩ := p.report_still u
        obtain ⟨hh, -, -, hp⟩ := lookup_eq_ok hl
        split
        · next hr =>
          rw [hr] at hs hf
          exact .single (.aproc hp hs hf)
        · next hr =>
          rw [hr] at hs hf
          exact .single (.aproc hp hs hf)
        · next hr =>
          rw [hr] at hs hf
          exact (Relation.ReflTransGen.single (.aproc hp hs hf)).tail
            (.start rfl (by simp [setAproc, hh]) rfl)
  | bind source target policy refused => exact bind_moves source target policy refused
  | drop source => exact .single (.unbind source)
  | wake source pending =>
    simp only [next, step, wake]
    split
    · exact .refl
    · next b hb =>
      split_ifs
      · exact .refl
      · split
        · exact .refl
        · next f hf => exact .single (.start rfl (hbound source b f hb hf) rfl)

end Machine

end Aok.Kernel.Aprocs
