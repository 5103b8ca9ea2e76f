import Aok.Kernel.AprocFreezer

/-!
# Over the hard limit

A report over the hard limit is answered after a transition that freezes the aproc. From that
transition on the aproc is stopped: frozen with the mark of a limit, which keeps automatic wakes
out, or past its life. Only an explicit resume takes it back, or a transition that never took place
because its list of tasks could not be allocated.
-/

namespace Aok.Kernel.Aprocs
open Lib

variable {p : Aproc} {a u : ℕ} {y : Thread}

/-! ## Stopped aprocs -/

def Aproc.IsStopped (p : Aproc) : Prop :=
  p.state = .frozen ∧ p.resourceFrozen = true ∨ p.state = .exited ∨ p.state = .failed ∨
    p.state = .reaped

theorem Aproc.IsStopped.not_running (h : p.IsStopped) : p.state ≠ .running := by
  rcases h with ⟨h, -⟩ | h | h | h <;> simp [h]

theorem Aproc.transition_stops (h : p.state ≠ .created) :
    (p.transition .frozen false true).2.IsStopped := by
  cases hs : p.state <;> simp_all [Aproc.transition, Aproc.IsStopped]

theorem Change.stopped {k : Machine} {op : Op} {p' : Aproc} (h : Change k op a p p')
    (hp : p.IsStopped) (hresume : k.commits a op ≠ some .resume) : p'.IsStopped := by
  have hrun := hp.not_running
  cases h.kind with
  | quiet h =>
    unfold Aproc.IsStopped at hp ⊢
    rwa [h.state, h.resource]
  | enlist koid => exact hp
  | exit koid =>
    have hsame : (p.exit koid).state = p.state := by simp [Aproc.exit, hrun]
    unfold Aproc.IsStopped at hp ⊢
    rwa [hsame]
  | @moves _ t f c ho ht hf hm =>
    cases hm with
    | stays => exact hp
    | marks hfrozen => exact .inl ⟨hfrozen, by rcases hp with h | h | h | h <;> simp_all⟩
    | moves hr hsame hfrozen hrunning hauto =>
      have hc : k.commits a op = some c := by simp [ho, Machine.commits, ht, hf]
      cases c with
      | freeze | usage | observed => exact absurd (hfrozen rfl) hrun
      | resume => exact absurd hc hresume
      | abort => exact .inr (.inr (.inl rfl))
      | wake =>
        have hs := hrunning rfl
        rcases hp with ⟨-, hmark⟩ | h | h | h
        · exact absurd ⟨rfl, hmark⟩ hauto
        all_goals simp [hs] at h
  | reaps => exact .inr (.inr (.inr rfl))

/-! ## The thread of a report -/

/-- The thread of a report whose transition is done. -/
def Thread.isPast : Thread → Bool
  | .moving _ .usage .waiting | .moving _ .usage .locked => false
  | .moving _ .usage _ => true
  | _ => false

namespace Machine

variable {k : Machine}

theorem get_start {x : Thread} (hx : x.isPast = false) (hy : y.isPast = true)
    (h : (k.start x).threads[u]? = some y) : k.threads[u]? = some y := by
  simp only [start, setThread, Table.get_insert] at h
  split_ifs at h
  · cases h
    rw [hx] at hy
    cases hy
  · exact h

theorem get_endThread {t : ℕ} (h : (k.endThread t).threads[u]? = some y) :
    k.threads[u]? = some y := by
  simp only [endThread, Table.get_erase] at h
  split_ifs at h
  exact h

theorem get_setThread {x : Thread} {t : ℕ} (h : (k.setThread t x).threads[u]? = some y) :
    k.threads[u]? = some y ∨ u = t ∧ y = x := by
  simp only [setThread, Table.get_insert] at h
  split_ifs at h with ht
  · exact .inr ⟨ht.symm, (Option.some.inj h).symm⟩
  · exact .inl h

/-- The step took the thread of a report there. -/
def Passes (k : Machine) (op : Op) (u : ℕ) (y : Thread) : Prop :=
  ∃ ok f, op = .run u ok ∧ y.file = some f ∧
    (k.threads[u]? = some (.moving f .usage .locked) ∨
      ∃ x : Thread, x.isPast = true ∧ x.file = some f ∧ k.threads[u]? = some x)

theorem move_past {t f : ℕ} {c : Cause} {ok : Bool} {stage : Stage}
    (ht : k.threads[t]? = some (.moving f c stage)) (hy : y.isPast = true)
    (h : (k.move t f a p c ok stage).2.threads[u]? = some y) :
    k.threads[u]? = some y ∨ k.Passes (.run t ok) u y := by
  have hset : ∀ (k' : Machine) stage', k'.threads = k.threads → stage ≠ .waiting →
      (k'.setThread t (.moving f c stage')).threads[u]? = some y →
        k.threads[u]? = some y ∨ k.Passes (.run t ok) u y := by
    intro k' stage' hk hw h
    rcases get_setThread h with h | ⟨rfl, rfl⟩
    · exact .inl (hk ▸ h)
    · refine .inr ⟨ok, f, rfl, rfl, ?_⟩
      cases c <;> simp only [Thread.isPast, Bool.false_eq_true] at hy
      cases stage with
      | waiting => exact absurd rfl hw
      | locked => exact .inl ht
      | entering | signalling | leaving | unlocking => exact .inr ⟨_, rfl, rfl, ht⟩
  cases stage with
  | waiting =>
    simp only [move] at h
    split_ifs at h
    · exact .inl h
    · rcases get_setThread h with h | ⟨rfl, rfl⟩
      · exact .inl h
      · cases c <;> cases hy
  | locked =>
    by_cases hok : ok = false
    · simp only [move, if_pos hok] at h
      exact hset k _ rfl (by simp) h
    · simp only [move, if_neg hok] at h
      split at h
      all_goals exact hset (k.setAproc a _) _ rfl (by simp) h
  | entering => exact hset k.freezerEnter _ rfl (by simp) h
  | signalling => exact hset k _ rfl (by simp) h
  | leaving => exact hset k.freezerLeave _ rfl (by simp) h
  | unlocking => exact .inl (get_endThread h)

theorem advance_past {t : ℕ} {ok : Bool} (hy : y.isPast = true)
    (h : (k.advance t ok).2.threads[u]? = some y) :
    k.threads[u]? = some y ∨ k.Passes (.run t ok) u y := by
  unfold advance at h
  split at h
  · exact .inl h
  · next f ht =>
    simp only [cloneFirst] at h
    split_ifs at h
    · exact .inl (get_endThread h)
    · split at h
      · exact .inl h
      · split at h
        · exact .inl (get_endThread h)
        · next hj =>
          rcases get_setThread h with h | ⟨-, rfl⟩
          · exact .inl (join_threads hj ▸ h)
          · cases hy
  · next f ht =>
    simp only [publish] at h
    split at h
    · exact .inl h
    · split_ifs at h <;> exact .inl (get_endThread h)
  · next f ht =>
    simp only [cloneMore] at h
    split_ifs at h
    · exact .inl (get_endThread h)
    · split at h
      · exact .inl h
      · split at h
        · exact .inl (get_endThread h)
        · next hj => exact .inl (join_threads hj ▸ get_endThread h)
  · next a ht =>
    obtain ⟨tab, htab⟩ := put_eq k a
    rw [htab] at h
    exact .inl (get_endThread h)
  · next f c stage ht =>
    split at h
    · exact .inl h
    · exact move_past ht hy h

theorem next_past {op : Op} (hy : y.isPast = true)
    (h : (k.next op).threads[u]? = some y) : k.threads[u]? = some y ∨ k.Passes op u y := by
  cases op with
  | run t ok => exact advance_past hy h
  | release f =>
    simp only [next, step, release] at h
    split at h
    · exact .inl h
    · next g hg =>
      split_ifs at h
      · exact .inl h
      · obtain ⟨tab, htab⟩ := put_eq k g.aid
        rw [htab] at h
        exact .inl h
  | attach | fork =>
    simp only [next, step, attach, fork] at h
    repeat' split at h
    all_goals first
      | exact .inl h
      | next hj => exact .inl (join_threads hj ▸ h)
  | _ =>
    simp only [next, step, create, spawn, exit, duplicate, setFds, transitionFd, reap, setBudget,
      getBudget, tokenUsage, bind, wake] at h
    repeat' split at h
    all_goals first
      | exact .inl h
      | exact .inl (get_start rfl hy h)

/-! ## Open files -/

theorem file_of_move {free : Aproc → Prop} {k' : Machine} {f : ℕ} (hm : Move free k k')
    (h : f < k.nextFile ∧ ∀ g, k.handles[f]? = some g → g.aid = a) :
    f < k'.nextFile ∧ ∀ g, k'.handles[f]? = some g → g.aid = a := by
  have hopen : ∀ (k' : Machine) x, k'.nextFile = k.nextFile → k'.handles = k.handles →
      f < (k'.openHandle x).nextFile ∧ ∀ g, (k'.openHandle x).handles[f]? = some g → g.aid = a := by
    intro k' x hn hh
    have hlt : f < k'.nextFile := hn ▸ h.1
    refine ⟨hlt.trans (Nat.lt_succ_self _), fun g hg => h.2 g ?_⟩
    simp only [openHandle, setHandle, hn, hh, Table.get_insert] at hg
    split_ifs at hg with hf
    · exact absurd h.1 (hf ▸ lt_irrefl _)
    · exact hg
  cases hm with
  | @finish b t ht =>
    obtain ⟨tab, htab⟩ := put_eq k b
    rw [htab]
    exact h
  | @release e g hg hheld =>
    obtain ⟨tab, htab⟩ := put_eq k g.aid
    rw [htab]
    refine ⟨h.1, fun x hx => h.2 x ?_⟩
    simp only [Table.get_erase] at hx
    split_ifs at hx
    exact hx
  | duplicate hp => exact hopen (k.setAproc _ _) _ rfl rfl
  | create => exact hopen { k.setAproc _ _ with nextAid := _ } _ rfl rfl
  | @fds e g hg n =>
    refine ⟨h.1, fun x hx => ?_⟩
    simp only [setHandle, Table.get_insert] at hx
    split_ifs at hx with he
    · cases hx
      exact h.2 g (he ▸ hg)
    · exact h.2 x hx
  | aproc | join | leave | bind | unbind | start | thread | stop | commit | enter | quit => exact h

/-- Files and references are in order in every run. -/
structure Linked (k : Machine) : Prop where
  wired : k.Wired
  counted : k.Counted

theorem next_moves_any (h : k.Linked) (op : Op) : Moves (fun _ => True) k (k.next op) :=
  next_moves h.wired.bound op fun _ _ _ _ _ => trivial

theorem Linked.next (h : k.Linked) (op : Op) : (k.next op).Linked := by
  have hmoves := next_moves_any h op
  generalize k.next op = k' at hmoves
  induction hmoves with
  | refl => exact h
  | tail _ hm ih => exact ⟨ih.wired.move hm, ih.counted.move ih.wired hm⟩

theorem after_linked (ops : List Op) : (after ops).Linked :=
  Trace.run_keeps (fun _ op h => h.next op) ⟨boot_sound.wired, boot_sound.counted⟩ ops

/-- The number of a file stays with its aproc. -/
theorem Linked.file (h : k.Linked) (op : Op) {f : ℕ} (hf : f < k.nextFile)
    (ha : ∀ g, k.handles[f]? = some g → g.aid = a) :
    f < (k.next op).nextFile ∧ ∀ g, (k.next op).handles[f]? = some g → g.aid = a := by
  have hmoves := next_moves_any h op
  generalize k.next op = k' at hmoves
  induction hmoves with
  | refl => exact ⟨hf, ha⟩
  | tail _ hm ih => exact file_of_move hm ih

theorem Linked.target (h : k.Linked) {op : Op} {f : ℕ} {p' : Aproc} (hf : f < k.nextFile)
    (ht : (k.next op).target f = some (a, p')) : ∃ p, k.target f = some (a, p) := by
  obtain ⟨e, he, rfl, -⟩ := target_eq_some ht
  cases hg : k.handles[f]? with
  | none =>
    have hnew := (h.file op (a := e.aid + 1) hf (by simp [hg])).2 e he
    omega
  | some g =>
    obtain ⟨p, hp⟩ := h.counted.exists_aproc hg
    have haid := (h.file op (a := g.aid) hf (by simp [hg])).2 e he
    exact ⟨p, by simp only [Machine.target, hg, haid, hp, Option.map_some]⟩

/-- The aproc of a file that a thread holds. -/
theorem Linked.held (h : k.Linked) {op : Op} {f : ℕ} {x : Thread} {p' : Aproc}
    (hx : k.threads[u]? = some x) (hf : x.file = some f)
    (ht : (k.next op).target f = some (a, p')) : ∃ p, k.target f = some (a, p) := by
  obtain ⟨g, hg⟩ := Option.isSome_iff_exists.mp (h.wired.files u x f hx hf)
  exact h.target (h.wired.file f g hg) ht

/-! ## Over a run -/

/-- The allocation in the transition of a report fails. -/
def starves (k : Machine) : Op → Bool
  | .run t false =>
    match k.threads[t]? with
    | some (.moving _ .usage .locked) => true
    | _ => false
  | _ => false

/-- A caller resumed the aproc while the thread was at work on a report. -/
def ResumedDuring (ops : List Op) (u a : ℕ) : Prop :=
  ∃ pre op post, ops = pre ++ op :: post ∧ (after pre).commits a op = some .resume ∧
    ∃ f stage, (after pre).threads[u]? = some (.moving f .usage stage)

def PastStopped (ops : List Op) : Prop :=
  ∀ u y f a p, (after ops).threads[u]? = some y → y.isPast = true → y.file = some f →
    (after ops).target f = some (a, p) → p.IsStopped ∨ ResumedDuring ops u a

theorem after_concat (ops : List Op) (op : Op) : after (ops ++ [op]) = (after ops).next op := by
  simp [after, Trace.run]

theorem ResumedDuring.concat {ops : List Op} (h : ResumedDuring ops u a) (op : Op) :
    ResumedDuring (ops ++ [op]) u a := by
  obtain ⟨pre, o, post, rfl, h⟩ := h
  exact ⟨pre, o, post ++ [op], by simp, h⟩

theorem Thread.isPast_eq (h : y.isPast = true) :
    ∃ f stage, y = .moving f .usage stage := by
  cases y with
  | moving f c stage =>
    cases c with
    | usage => exact ⟨f, stage, rfl⟩
    | _ => cases h
  | _ => cases h

theorem after_not_created (ops : List Op)
    (hp : (after ops).aprocs[a]? = some p) : p.state ≠ .created :=
  along_aprocs (P := fun _ _ => True) (Q := fun p => p.state ≠ .created)
    (fun _ _ => by simp [Aproc.fresh]) (fun _ _ _ _ _ _ _ hc hq => hc.not_created hq)
    (Trace.along_true _ _) a p hp

theorem PastStopped.concat {ops : List Op} (h : PastStopped ops) {op : Op}
    (hok : (after ops).starves op = false) : PastStopped (ops ++ [op]) := by
  intro u y f a p' hy hpast hfile ht
  rw [after_concat] at hy ht
  have hlinked := after_linked ops
  have hissued := after_issued ops
  obtain ⟨-, -, -, hp'⟩ := target_eq_some ht
  -- the transition was done before
  have hstays : ∀ x : Thread, x.isPast = true → x.file = some f →
      (after ops).threads[u]? = some x → p'.IsStopped ∨ ResumedDuring (ops ++ [op]) u a := by
    intro x hx hxf hxu
    obtain ⟨p, hp⟩ := hlinked.held hxu hxf ht
    obtain ⟨-, -, -, hget⟩ := target_eq_some hp
    rcases h u x f a p hxu hx hxf hp with hstop | hres
    · by_cases hc : (after ops).commits a op = some .resume
      · obtain ⟨g, stage, rfl⟩ := Thread.isPast_eq hx
        exact .inr ⟨ops, op, [], rfl, hc, g, stage, hxu⟩
      · left
        rcases next_get hp' with hsame | ⟨q, hq, hchange⟩ | ⟨ceiling, he, -⟩
        · obtain rfl := Option.some.inj (hget.symm.trans hsame)
          exact hstop
        · obtain rfl := Option.some.inj (hget.symm.trans hq)
          exact hchange.stopped hstop hc
        · have hle := hissued a p hget
          omega
    · exact .inr (hres.concat op)
  rcases next_past hpast hy with hsame | ⟨ok, g, rfl, hg, hlocked | ⟨x, hx, hxf, hxu⟩⟩
  · exact hstays y hpast hfile hsame
  · obtain rfl := Option.some.inj (hg.symm.trans hfile)
    obtain ⟨p, hp⟩ := hlinked.held hlocked rfl ht
    have htrue : ok = true := by
      cases ok
      · simp [starves, hlocked] at hok
      · rfl
    subst htrue
    have hc : (after ops).commits a (.run u true) = some .usage := by simp [commits, hlocked, hp]
    obtain ⟨q, hq, hnext⟩ := next_commits hc
    obtain rfl := Option.some.inj (hnext.symm.trans hp')
    exact .inl (Aproc.transition_stops (after_not_created ops hq))
  · obtain rfl := Option.some.inj (hg.symm.trans hfile)
    exact hstays x hx hxf hxu

theorem along_pastStopped {ops done : List Op} (h : PastStopped done)
    (hok : Trace.Along next (fun k op => k.starves op = false) (after done) ops) :
    PastStopped (done ++ ops) := by
  induction ops generalizing done with
  | nil => simpa using h
  | cons op ops ih =>
    have hrest := ih (h.concat hok.1) (after_concat done op ▸ hok.2)
    simpa using hrest

/-- In a run in which the transitions of reports get their memory: when a report over the hard limit
is answered, with `EDQUOT`, the aproc is not running, unless it was resumed during the call. -/
theorem edquot_fails_closed (ops : List Op)
    (h : Trace.Along next (fun k op => k.starves op = false) boot ops) (t f a : ℕ) (p : Aproc)
    (ret : Except Errno Unit) (ok : Bool)
    (ht : (after ops).threads[t]? = some (.moving f .usage (.unlocking ret)))
    (hf : (after ops).target f = some (a, p)) :
    ((after ops).step (.run t ok)).1 = some (.error .edquot) ∧
      (p.state ≠ .running ∨ ResumedDuring ops t a) := by
  have hstart : PastStopped [] := fun u y f a p hy => by simp [after, Trace.run, boot] at hy
  have hpast := along_pastStopped hstart h
  refine ⟨by simp [step, advance, ht, hf, move, Cause.answer], ?_⟩
  exact (hpast t _ f a p ht rfl rfl hf).imp_left Aproc.IsStopped.not_running

/-- A report over the hard limit up to its transition. -/
def overspent : List Op :=
  newborn ++ [.setBudget 0 ⟨maxWord, maxWord, 0, 10⟩, .tokenUsage 0 ⟨1, 1, 20, 0, 0⟩, .run 1 true]

theorem edquot_fails_closed_frozen : ∃ p,
    (after (overspent ++ [.run 1 true, .run 1 true, .run 1 true])).target 0 = some (1, p) ∧
      p.state = .frozen ∧
      (p.state ≠ .running ∨
        ResumedDuring (overspent ++ [.run 1 true, .run 1 true, .run 1 true]) 1 1) := by
  refine ⟨_, rfl, rfl, ?_⟩
  exact (edquot_fails_closed _ (by decide +kernel) 1 0 1 _ (.ok ()) true rfl rfl).2

/-- Without memory for the list of tasks the aproc runs on, over its limit. -/
theorem exists_running_over_limit : ∃ p,
    (after (overspent ++ [.run 1 false])).target 0 = some (1, p) ∧ p.state = .running ∧
      p.limits.tokenHardLimit < p.tokensUsed ∧
      ((after (overspent ++ [.run 1 false])).step (.run 1 true)).1 = some (.error .edquot) := by
  refine ⟨_, rfl, rfl, by decide, rfl⟩

end Machine

end Aok.Kernel.Aprocs
