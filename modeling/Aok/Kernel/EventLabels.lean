import Aok.Kernel.EventRestore

/-!
# What a record is read as

A record is read through the files of its application and of the sources attached to it, or, if
its source is not attached, through the files of the source under the label the source has at that
moment. The label cannot change while a record is pending.
-/

namespace Aok.Kernel
open Lib Registry EventQueue

variable {k : Registry} {s : ℕ} {x x' : Source} {r : EventRecord}

/-! ## The steps of a source -/

structure Marks (k k' : Registry) : Prop where
  here : ∀ (s : ℕ) (x : Source), k.sources[s]? = some x →
    ∃ x', k'.sources[s]? = some x' ∧ SourceStep x x'
  born : ∀ (s : ℕ) (x : Source), k'.sources[s]? = some x → k.sources[s]? = none →
    x.queue = .initial ∧ x.app = none

theorem marks_of_sources {k' : Registry} (h : k'.sources = k.sources) : Marks k k' where
  here s x hx := ⟨x, by rw [h, hx], .stay⟩
  born s x hx hnone := by
    rw [h, hnone] at hx
    cases hx

theorem marks_modify {k' : Registry} {f : Source → Source}
    (hx : k.sources[s]? = some x) (hstep : SourceStep x (f x))
    (h : k'.sources = k.sources.modify s f) : Marks k k' where
  here t z hz := by
    rw [h, List.getElem?_modify, hz]
    by_cases hst : s = t
    · subst hst
      rw [hx] at hz
      cases hz
      exact ⟨f x, by simp, hstep⟩
    · exact ⟨z, by simp [hst], .stay⟩
  born t z hz hnone := by
    rw [h, List.getElem?_modify, hnone] at hz
    cases hz

theorem marks_append {k' : Registry} {z : Source} (hz : z.queue = .initial ∧ z.app = none)
    (h : k'.sources = k.sources ++ [z]) : Marks k k' where
  here s x hx := by
    refine ⟨x, ?_, .stay⟩
    rw [h, List.getElem?_append_left (List.getElem?_eq_some_iff.mp hx).1]
    exact hx
  born s x hx hnone := by
    rw [h] at hx
    rcases getElem?_append_one hx with hx | ⟨-, rfl⟩
    · rw [hnone] at hx
      cases hx
    · exact hz

theorem Registry.Effect.marks {k' : Registry} {op : EventOp} (h : Effect k op k') : Marks k k' := by
  cases h with
  | source hz => exact marks_append hz rfl
  | mark hx hs => exact marks_modify hx hs rfl
  | _ => exact marks_of_sources rfl

/-! ## What holds of every source -/

/-- The queue of a source is in order, and empty while the source is attached. -/
structure Source.Sound (x : Source) : Prop where
  booked : x.queue.Booked
  settled : x.queue.Settled
  attached : x.app ≠ none → x.queue.slots.live = 0

theorem SourceStep.sound (h : x.Sound) (hs : SourceStep x x') : x'.Sound := by
  cases hs with
  | stay => exact h
  | queue happ hq =>
    exact ⟨h.booked.changes hq.changes, h.booked.settled_step h.settled hq,
      fun hne => absurd happ hne⟩
  | attach app id hlive => exact ⟨h.booked, h.settled, fun _ => hlive⟩
  | label id hid => exact ⟨h.booked, h.settled, h.attached⟩

theorem run_sound_source (ops : List EventOp) (s : ℕ) (x : Source)
    (hx : (eventRun .initial ops).sources[s]? = some x) : x.Sound := by
  induction ops using List.reverseRecOn generalizing x with
  | nil => cases hx
  | append_singleton ops op ih =>
    have hmarks := (step_effect (eventRun .initial ops) op).marks
    rw [eventRun_snoc] at hx
    cases hold : (eventRun .initial ops).sources[s]? with
    | none =>
      obtain ⟨hq, happ⟩ := hmarks.born s x hx hold
      refine ⟨hq ▸ booked_initial, ?_, fun hne => absurd happ hne⟩
      rw [hq]
      exact fun hne => absurd rfl hne
    | some z =>
      obtain ⟨x', hx', hs⟩ := hmarks.here s z hold
      rw [hx] at hx'
      cases hx'
      exact hs.sound (ih z hold)

theorem SourceStep.kind_koid (hs : SourceStep x x') :
    x'.kind = x.kind ∧ x'.koid = x.koid := by
  cases hs <;> exact ⟨rfl, rfl⟩

theorem SourceStep.pending {n : EventNode} (h : x.Sound) (hs : SourceStep x x')
    (hn : n ∈ x.queue.view) :
    n ∈ x'.queue.gone ∨ n ∈ x'.queue.view ∧ x'.applicationId = x.applicationId := by
  have hlive : x.queue.slots.live ≠ 0 := by
    intro hzero
    have hlen : x.queue.view.length = 0 := h.booked.ok.live_eq.symm.trans hzero
    exact List.ne_nil_of_mem hn (List.eq_nil_of_length_eq_zero hlen)
  cases hs with
  | stay => exact Or.inr ⟨hn, rfl⟩
  | queue _ hq =>
    rcases h.booked.pending_step hq hn with hview | hgone
    · exact Or.inr ⟨hview, rfl⟩
    · exact Or.inl hgone
  | attach app id hzero => exact absurd hzero hlive
  | label id hid =>
    have happ : x.app = none := by
      by_contra hne
      exact hlive (h.attached hne)
    exact Or.inr ⟨hn, hid happ hlive⟩

theorem SourceStep.queue_step (hs : SourceStep x x') :
    ∃ d, x.queue.Step false d x'.queue := by
  cases hs with
  | stay => exact ⟨0, .stay⟩
  | queue _ hq => exact ⟨_, hq⟩
  | attach app id hlive => exact ⟨0, .stay⟩
  | label id hid => exact ⟨0, .stay⟩

namespace EventQueue

variable {depth : ℕ} {q q' : EventQueue depth}

def Unrestored (q : EventQueue depth) : Prop := ∀ n, .restored n ∉ q.log

theorem Unrestored.add {e : QueueEvent} (h : q.Unrestored) (hlog : q'.log = q.log ++ [e])
    (he : ∀ n, e ≠ .restored n) : q'.Unrestored := by
  intro n hn
  rw [hlog] at hn
  rcases List.mem_append.mp hn with hn | hn
  · exact h n hn
  · exact he n (List.mem_singleton.mp hn).symm

theorem Unrestored.fire (h : q.Unrestored) (hb : q.Booked) (kind : EventKind)
    (data koid : UInt64) : (q.fire kind data koid).Unrestored := by
  by_cases hfull : depth ≤ q.slots.live
  · exact h.add (congrArg log (fire_of_full hfull kind data koid)) (by simp)
  · have hi := hb.fire_of_lt (not_le.mp hfull) kind data koid
    obtain ⟨-, -, -, hlog, -⟩ := issue_spec hb.ok hi
    refine h.add hlog ?_
    intro n
    split <;> simp

theorem Unrestored.flush (h : q.Unrestored) (hok : q.slots.Ok) : q.flush.Unrestored := by
  unfold EventQueue.flush
  split
  · exact h
  · split
    · exact h
    · next hi =>
      obtain ⟨-, -, -, hlog, -⟩ := issue_spec hok hi
      exact h.add hlog (by simp)

theorem Unrestored.step {d : ℕ} (h : q.Unrestored) (hb : q.Booked) (hs : q.Step false d q') :
    q'.Unrestored := by
  cases hs with
  | stay => exact h
  | expire data koid => exact h.fire hb .timer data koid
  | post kind data koid _ _ => exact h.fire hb kind data koid
  | ack id =>
    rcases q.ackLocked_cases id with heq | ⟨q', hu, heq⟩
    · rw [heq]
      exact h
    · obtain ⟨_, -, -, hok, -, -, hlog, -⟩ := unlink_spec hb.ok hu
      rw [heq]
      exact (h.add hlog (by simp)).flush hok

theorem Numbered.eq_of_id (hn : q.Numbered) (h : q.Unrestored) {m n : EventNode}
    (hm : m ∈ q.born) (hn' : n ∈ q.born) (hid : m.eventId = n.eventId) : m = n := by
  have hissued : ∀ e ∈ q.log, ∀ n, e.born = some n → e.issued = some n := by
    intro e he n hborn
    cases e with
    | restored x => exact absurd he (h x)
    | _ => exact hborn
  obtain ⟨e, he, hem⟩ := List.mem_filterMap.mp hm
  obtain ⟨e', he', hen⟩ := List.mem_filterMap.mp hn'
  obtain ⟨i, hi, rfl⟩ := List.mem_iff_getElem.mp he
  obtain ⟨j, hj, rfl⟩ := List.mem_iff_getElem.mp he'
  have hnovel := List.pairwise_iff_getElem.mp hn.novel
  rcases Nat.lt_trichotomy i j with hlt | rfl | hlt
  · exact absurd hid (hnovel i j hi hj hlt m n hem (hissued _ he' n hen))
  · rw [hem] at hen
    exact Option.some.inj hen
  · exact absurd hid.symm (hnovel j i hj hi hlt n m hen (hissued _ he m hem))

end EventQueue

/-! ## Runs without restores -/

def NoRestore (k : Registry) (op : EventOp) : Prop :=
  op.restores = true → (eventStep k op).1 ≠ .ok .done

def AllRoomy (k : Registry) : Prop := k.Roomy ∧ ∀ x ∈ k.sources, x.queue.Roomy

instance (k : Registry) : Decidable (AllRoomy k) := inferInstanceAs (Decidable (_ ∧ _))

theorem restore_replies (k : Registry) (fd : ℕ) (records : List EventRecord)
    (memory readable : Bool) : (eventStep k (.restore fd records memory readable)).1 = .ok .done ∨
      ∃ e, (eventStep k (.restore fd records memory readable)).1 = .error e := by
  dsimp only [eventStep]
  split
  · exact Or.inr ⟨_, rfl⟩
  · refine onApp_rule (P := fun r => r.1 = .ok .done ∨ ∃ e, r.1 = .error e)
      (fun e => Or.inr ⟨e, rfl⟩) ?_
    intro a rights readSeq y _ _
    unfold Registry.restore
    repeat' split
    all_goals first
      | exact Or.inl rfl
      | exact Or.inr ⟨_, rfl⟩

theorem step_of_noRestore {op : EventOp} (hop : NoRestore k op) {a : ℕ}
    {y : Application} (hy : k.apps[a]? = some y) : ∃ y', (eventStep k op).2.apps[a]? = some y' ∧
      y'.applicationId = y.applicationId ∧ ∃ d, y.queue.Step false d y'.queue := by
  obtain ⟨y', hy', hid, hstep⟩ := (step_effect k op).tracks.here a y hy
  by_cases hr : op.restores = true
  · cases op with
    | restore fd records memory readable =>
      rcases restore_replies k fd records memory readable with hok | ⟨e, herr⟩
      · exact absurd hok (hop hr)
      · rw [restore_refused herr]
        exact ⟨y, hy, rfl, 0, .stay⟩
    | _ => cases hr
  · rw [Bool.eq_false_of_not_eq_true hr] at hstep
    exact ⟨y', hy', hid, _, hstep⟩

theorem run_unrestored (ops : List EventOp) (hops : Along NoRestore .initial ops) (a : ℕ)
    (y : Application) (hy : (eventRun .initial ops).apps[a]? = some y) :
    y.queue.Unrestored := by
  induction ops using List.reverseRecOn generalizing y with
  | nil => cases hy
  | append_singleton ops op ih =>
    obtain ⟨hops, hop, -⟩ := (along_append _ .initial ops [op]).mp hops
    rw [eventRun_snoc] at hy
    cases hold : (eventRun .initial ops).apps[a]? with
    | none =>
      rw [(step_effect (eventRun .initial ops) op).tracks.born a y hy hold]
      exact fun n hn => by cases hn
    | some x =>
      obtain ⟨y', hy', -, d, hstep⟩ := step_of_noRestore hop hold
      rw [hy] at hy'
      cases hy'
      exact (ih hops x hold).step ((run_booked ops a).2 x hold).1 hstep

theorem run_numbered_source (ops : List EventOp)
    (hops : Along (fun k _ => AllRoomy k) .initial ops) (s : ℕ) (x : Source)
    (hx : (eventRun .initial ops).sources[s]? = some x) :
    x.queue.Numbered ∧ x.queue.Unrestored := by
  induction ops using List.reverseRecOn generalizing x with
  | nil => cases hx
  | append_singleton ops op ih =>
    obtain ⟨hops, hop, -⟩ := (along_append _ .initial ops [op]).mp hops
    have hmarks := (step_effect (eventRun .initial ops) op).marks
    rw [eventRun_snoc] at hx
    cases hold : (eventRun .initial ops).sources[s]? with
    | none =>
      rw [(hmarks.born s x hx hold).1]
      exact ⟨numbered_initial, fun n hn => by cases hn⟩
    | some z =>
      obtain ⟨x', hx', hs⟩ := hmarks.here s z hold
      rw [hx] at hx'
      cases hx'
      obtain ⟨d, hstep⟩ := hs.queue_step
      obtain ⟨hn, hu⟩ := ih hops z hold
      have hb := (run_sound_source ops s z hold).booked
      exact ⟨hn.step hb (hop.2 z (List.mem_of_getElem? hold)) hstep, hu.step hb hstep⟩

theorem app_later (pre mid : List EventOp) {a : ℕ} {y : Application}
    (hy : (eventRun .initial pre).apps[a]? = some y) :
    ∃ y', (eventRun .initial (pre ++ mid)).apps[a]? = some y' ∧
      y'.applicationId = y.applicationId ∧ y.queue.log <+: y'.queue.log := by
  induction mid using List.reverseRecOn with
  | nil => exact ⟨y, by rw [List.append_nil]; exact hy, rfl, List.prefix_refl _⟩
  | append_singleton mid op ih =>
    obtain ⟨z, hz, hid, hlog⟩ := ih
    rw [← List.append_assoc, eventRun_snoc]
    obtain ⟨z', hz', hid', hstep⟩ := (step_effect (eventRun .initial (pre ++ mid)) op).tracks.here a z hz
    have hb := ((run_booked (pre ++ mid) a).2 z hz).1
    exact ⟨z', hz', hid'.trans hid, hlog.trans (hb.log_grows hstep)⟩

theorem source_later (pre mid : List EventOp) {n : EventNode}
    (hx : (eventRun .initial pre).sources[s]? = some x) (hn : n ∈ x.queue.view) :
    ∃ x', (eventRun .initial (pre ++ mid)).sources[s]? = some x' ∧ x'.kind = x.kind ∧
      x'.koid = x.koid ∧ x.queue.log <+: x'.queue.log ∧
      (n ∈ x'.queue.gone ∨ n ∈ x'.queue.view ∧ x'.applicationId = x.applicationId) := by
  induction mid using List.reverseRecOn with
  | nil =>
    exact ⟨x, by rw [List.append_nil]; exact hx, rfl, rfl, List.prefix_refl _, Or.inr ⟨hn, rfl⟩⟩
  | append_singleton mid op ih =>
    obtain ⟨z, hz, hkind, hkoid, hlog, hrest⟩ := ih
    rw [← List.append_assoc, eventRun_snoc]
    obtain ⟨z', hz', hs⟩ := (step_effect (eventRun .initial (pre ++ mid)) op).marks.here s z hz
    have hsound := run_sound_source (pre ++ mid) s z hz
    obtain ⟨d, hstep⟩ := hs.queue_step
    obtain ⟨hkind', hkoid'⟩ := hs.kind_koid
    refine ⟨z', hz', hkind'.trans hkind, hkoid'.trans hkoid,
      hlog.trans (hsound.booked.log_grows hstep), ?_⟩
    rcases hrest with hgone | ⟨hview, hlabel⟩
    · exact Or.inl (hsound.booked.gone_step hstep hgone)
    · rcases hs.pending hsound hview with hgone | ⟨hview', hlabel'⟩
      · exact Or.inl hgone
      · exact Or.inr ⟨hview', hlabel'.trans hlabel⟩

/-! ## Reads -/

/-- The queue of an application, or the one a source has of its own. -/
inductive QueueName where
  | app (a : ℕ)
  | own (s : ℕ)
deriving DecidableEq

def Registry.queueOf (k : Registry) (fd : ℕ) : Option QueueName :=
  match k.file fd with
  | none => none
  | some (.app a _ _) => some (.app a)
  | some (.source s _ _ _) => (k.sources[s]?).map fun x =>
    match x.app with
    | some a => .app a
    | none => .own s

def ReadsAs (k : Registry) (op : EventOp) (name : QueueName) (r : EventRecord) : Prop :=
  ∃ fd room copied, op = .read fd room copied ∧ k.queueOf fd = some name ∧
    (eventStep k op).1 = .ok (.record r)

def Stands (k : Registry) (r : EventRecord) : QueueName → Prop
  | .app a => ∃ y, k.apps[a]? = some y ∧ ∃ n ∈ y.queue.view, r = n.record y.applicationId
  | .own s => ∃ x, k.sources[s]? = some x ∧ ∃ n ∈ x.queue.view,
      r = { n.record x.applicationId with sourceKoid := x.koid, kind := x.kind.code }

theorem readApp_record {fd a : ℕ} {y : Application} {rights c : UInt64} {room copied : Bool}
    (h : (k.readApp fd a y rights c room copied).1 = .ok (.record r)) :
    ∃ n, y.queue.next c = some n ∧ r = n.record y.applicationId := by
  unfold readApp at h
  split at h
  · cases h
  · split at h
    · cases h
    · split at h
      · cases h
      · next n hn =>
        dsimp only at h
        split at h
        · cases h
          exact ⟨n, hn, rfl⟩
        · cases h

theorem readSource_record {fd : ℕ} {rights c : UInt64} {cursorApp : Option ℕ} {room copied : Bool}
    (h : (k.readSource fd s x rights c cursorApp room copied).1 = .ok (.record r)) :
    ∃ c, k.nextRecord x c = some r := by
  unfold readSource at h
  split at h
  · cases h
  · split at h
    · cases h
    · dsimp only at h
      split at h
      · cases h
      · next r' hr =>
        dsimp only at h
        split at h
        · cases h
          exact ⟨_, hr⟩
        · cases h

theorem stands_of_reads {op : EventOp} {name : QueueName}
    (h : ReadsAs k op name r) : Stands k r name := by
  obtain ⟨fd, room, copied, rfl, hname, hreply⟩ := h
  unfold queueOf at hname
  cases hf : k.file fd with
  | none =>
    rw [hf] at hname
    cases hname
  | some f =>
    rw [hf] at hname
    cases f with
    | app a rights c =>
      cases hname
      simp only [eventStep, onApp, hf] at hreply
      cases hy : k.apps[a]? with
      | none =>
        rw [hy] at hreply
        cases hreply
      | some y =>
        rw [hy] at hreply
        obtain ⟨n, hn, hr⟩ := readApp_record hreply
        exact ⟨y, hy, n, List.mem_of_find?_eq_some hn, hr⟩
    | source s rights c cursorApp =>
      simp only [eventStep, hf] at hreply
      dsimp only at hname
      cases hx : k.sources[s]? with
      | none =>
        rw [hx] at hname
        cases hname
      | some x =>
        rw [hx] at hname hreply
        obtain ⟨c, hr⟩ := readSource_record hreply
        unfold nextRecord at hr
        cases happ : x.app with
        | none =>
          rw [happ] at hr
          simp only [Option.map_some, happ] at hname
          cases hname
          obtain ⟨n, hn, hr⟩ := Option.map_eq_some_iff.mp hr
          exact ⟨x, hx, n, List.mem_of_find?_eq_some hn, hr.symm⟩
        | some a =>
          rw [happ] at hr
          simp only [Option.map_some, happ] at hname
          cases hname
          obtain ⟨y, hy, hr⟩ := Option.bind_eq_some_iff.mp hr
          obtain ⟨n, hn, hr⟩ := Option.map_eq_some_iff.mp hr
          exact ⟨y, hy, n, List.mem_of_find?_eq_some hn, hr.symm⟩

theorem stands_eq (pre mid : List EventOp) (hno : Along NoRestore .initial (pre ++ mid))
    (hroom : Along (fun k _ => AllRoomy k) .initial (pre ++ mid)) {name : QueueName}
    {r' : EventRecord} (h : Stands (eventRun .initial pre) r name)
    (h' : Stands (eventRun .initial (pre ++ mid)) r' name) (hid : r.eventId = r'.eventId) :
    r = r' := by
  cases name with
  | app a =>
    obtain ⟨y, hy, n, hn, rfl⟩ := h
    obtain ⟨y', hy', n', hn', rfl⟩ := h'
    obtain ⟨z, hz, happ, hlog⟩ := app_later pre mid hy
    rw [hy'] at hz
    cases hz
    have hb := ((run_booked pre a).2 y hy).1
    have hb' := ((run_booked (pre ++ mid) a).2 y' hy').1
    have hborn : n ∈ y'.queue.born :=
      (hlog.sublist.filterMap QueueEvent.born).subset ((hb.mem n).mp hn).1
    have hnumbered := run_numbered (pre ++ mid) (hroom.mono fun _ _ h => h.1) a y' hy'
    have heq := hnumbered.eq_of_id (run_unrestored (pre ++ mid) hno a y' hy') hborn
      ((hb'.mem n').mp hn').1 hid
    rw [heq, happ]
  | own s =>
    obtain ⟨x, hx, n, hn, rfl⟩ := h
    obtain ⟨x', hx', n', hn', rfl⟩ := h'
    obtain ⟨z, hz, hkind, hkoid, hlog, hrest⟩ := source_later pre mid hx hn
    rw [hx'] at hz
    cases hz
    have hb := (run_sound_source pre s x hx).booked
    have hb' := (run_sound_source (pre ++ mid) s x' hx').booked
    have hborn : n ∈ x'.queue.born :=
      (hlog.sublist.filterMap QueueEvent.born).subset ((hb.mem n).mp hn).1
    obtain ⟨hnumbered, hunrestored⟩ := run_numbered_source (pre ++ mid) hroom s x' hx'
    have heq := hnumbered.eq_of_id hunrestored hborn ((hb'.mem n').mp hn').1 hid
    subst heq
    rcases hrest with hgone | ⟨-, hlabel⟩
    · exact absurd hgone ((hb'.mem n).mp hn').2
    · rw [hlabel, hkind, hkoid]

/-- Two reads of one event agree. -/
theorem reads_agree (ops pre₁ post₁ pre₂ post₂ : List EventOp) (op₁ op₂ : EventOp)
    (hno : Along NoRestore .initial ops) (hroom : Along (fun k _ => AllRoomy k) .initial ops)
    (hops₁ : ops = pre₁ ++ op₁ :: post₁) (hops₂ : ops = pre₂ ++ op₂ :: post₂)
    (name : QueueName) (r₁ r₂ : EventRecord)
    (hread₁ : ReadsAs (eventRun .initial pre₁) op₁ name r₁)
    (hread₂ : ReadsAs (eventRun .initial pre₂) op₂ name r₂) (hid : r₁.eventId = r₂.eventId) :
    r₁.applicationId = r₂.applicationId ∧ r₁.kind = r₂.kind ∧ r₁.eventSeq = r₂.eventSeq ∧
      r₁.coalesced = r₂.coalesced ∧ r₁.data = r₂.data := by
  have hstands₁ := stands_of_reads hread₁
  have hstands₂ := stands_of_reads hread₂
  have hpre₁ : pre₁ <+: ops := ⟨op₁ :: post₁, hops₁.symm⟩
  have hpre₂ : pre₂ <+: ops := ⟨op₂ :: post₂, hops₂.symm⟩
  -- what holds along the run holds along each of its first parts
  have halong : ∀ {P : Registry → EventOp → Prop} {pre : List EventOp}, pre <+: ops →
      Along P .initial ops → Along P .initial pre := by
    rintro P pre ⟨post, rfl⟩ h
    exact ((along_append P .initial pre post).mp h).1
  have heq : r₁ = r₂ := by
    rcases List.prefix_or_prefix_of_prefix hpre₁ hpre₂ with ⟨mid, rfl⟩ | ⟨mid, rfl⟩
    · exact stands_eq pre₁ mid (halong hpre₂ hno) (halong hpre₂ hroom) hstands₁ hstands₂ hid
    · exact (stands_eq pre₂ mid (halong hpre₁ hno) (halong hpre₁ hroom) hstands₂ hstands₁
        hid.symm).symm
  rw [heq]
  exact ⟨rfl, rfl, rfl, rfl, rfl⟩

/-! ## A counter that wraps around -/

namespace EventQueue

variable {depth : ℕ} {q : EventQueue depth}

structure Idle (q : EventQueue depth) (n : UInt64) : Prop where
  booked : q.Booked
  live : q.slots.live = 0
  coalesced : q.coalesced = 0
  id : q.eventId = n
  seq : q.eventSeq = n

theorem Idle.fire {n : UInt64} (h : q.Idle n) (hd : 0 < depth) (kind : EventKind)
    (data koid : UInt64) : (q.fire kind data koid).Booked ∧
      (q.fire kind data koid).view = [⟨n + 1, n + 1, koid, kind.code, 1, data, q.log.length⟩] ∧
      (q.fire kind data koid).slots.live = 1 ∧ (q.fire kind data koid).coalesced = 0 ∧
      (q.fire kind data koid).eventId = n + 1 ∧ (q.fire kind data koid).eventSeq = n + 1 := by
  have hi := h.booked.fire_of_lt (h.live ▸ hd) kind data koid
  obtain ⟨-, hlive, hview, -, hid, hseq, hc⟩ := issue_spec h.booked.ok hi
  have hnil : q.view = [] := List.eq_nil_of_length_eq_zero (h.booked.ok.live_eq.symm.trans h.live)
  refine ⟨h.booked.change (.fired kind data koid hi), ?_, by rw [hlive, h.live], hc.trans h.coalesced,
    by rw [hid, h.id], by rw [hseq, h.seq]⟩
  rw [hview, hnil, nextNode, h.id, h.seq]
  rfl

theorem Idle.round {n : UInt64} (h : q.Idle n) (hd : 0 < depth) (kind : EventKind)
    (data koid : UInt64) :
    ((q.fire kind data koid).ackLocked (n + 1)).2.Idle (n + 1) := by
  obtain ⟨hb, hview, hlive, hc, hid, hseq⟩ := h.fire hd kind data koid
  generalize q.fire kind data koid = q₁ at *
  have hlt : ¬ q₁.eventId < n + 1 := by
    rw [hid]
    exact UInt64.lt_irrefl _
  cases hu : q₁.unlink (n + 1) with
  | none =>
    have hnone := (SlotQueue.remove_eq_none _ _).mp (Option.map_eq_none_iff.mp hu)
    have hfirst := hnone ⟨n + 1, n + 1, koid, kind.code, 1, data, q.log.length⟩
      (by rw [← EventQueue.view, hview]; exact List.mem_singleton_self _)
    simp at hfirst
  | some q₂ =>
    obtain ⟨_, -, -, -, hlive₂, -, -, hid₂, hseq₂, hc₂⟩ := unlink_spec hb.ok hu
    have hflush : q₂.flush = q₂ := if_pos (Or.inl (hc₂.trans hc))
    have heq : (q₁.ackLocked (n + 1)).2 = q₂ := by
      rw [ackLocked, if_neg hlt, hu]
      exact hflush
    rw [heq]
    exact ⟨hb.unlink hu, by omega, hc₂.trans hc, hid₂.trans hid, hseq₂.trans hseq⟩

end EventQueue

namespace Sample

/-- A source with nothing pending, seen through a file that has not read yet. -/
structure Waiting (k : Registry) (n : UInt64) : Prop where
  source : ∃ x, k.sources = [x] ∧ x.kind = .lsfs ∧ x.koid = 1 ∧ x.applicationId = 0 ∧
    x.app = none ∧ x.queue.Idle n
  first : ∃ c, k.file 0 = some (.source 0 rightsNew c none)
  last : k.file 2 = some (.source 0 rightsNew 0 none)

def rounds : ℕ → UInt64 → List EventOp
  | 0, _ => []
  | m + 1, n => .post 0 0 :: .ack 0 (n + 1) :: rounds m (n + 1)

theorem post_waiting {n : UInt64} {c data : UInt64}
    (hx : k.sources = [x]) (hkind : x.kind = .lsfs) (happ : x.app = none) (hq : x.queue.Idle n)
    (hf : k.file 0 = some (.source 0 rightsNew c none)) :
    eventStep k (.post 0 data) =
      (.ok .done, k.setVolatile 0 (x.queue.fire .lsfs data x.koid)) := by
  have hright : ¬ rightsNew &&& rightWrite = 0 := by decide
  simp [eventStep, onSource, hf, hright, hx, Registry.post, hkind, isFull, happ, hq.live,
    eventSourceDepth, deliver]

theorem ack_waiting {c : UInt64} (hx : k.sources = [x])
    (happ : x.app = none) (hf : k.file 0 = some (.source 0 rightsNew c none)) (id : UInt64) :
    (eventStep k (.ack 0 id)).2 = k.setVolatile 0 (x.queue.ackLocked id).2 := by
  have hright : ¬ rightsNew &&& rightWrite = 0 := by decide
  simp [eventStep, onSource, hf, hright, hx, ackSource, happ]

theorem Waiting.round {n : UInt64} (h : Waiting k n) :
    Waiting (eventRun k [.post 0 0, .ack 0 (n + 1)]) (n + 1) := by
  obtain ⟨x, hx, hkind, hkoid, hlabel, happ, hq⟩ := h.source
  obtain ⟨c, hf⟩ := h.first
  have hx' : (k.setVolatile 0 (x.queue.fire .lsfs 0 x.koid)).sources =
      [{ x with queue := x.queue.fire .lsfs 0 x.koid }] := by
    simp [setVolatile, hx]
  have hrun : eventRun k [.post 0 0, .ack 0 (n + 1)] =
      (k.setVolatile 0 (x.queue.fire .lsfs 0 x.koid)).setVolatile 0
        ((x.queue.fire .lsfs 0 x.koid).ackLocked (n + 1)).2 := by
    have hf' : (k.setVolatile 0 (x.queue.fire .lsfs 0 x.koid)).file 0 =
        some (.source 0 rightsNew c none) := hf
    have hack := ack_waiting hx' happ hf' (n + 1)
    simp only [eventRun, List.foldl_cons, List.foldl_nil]
    rw [post_waiting hx hkind happ hq hf]
    exact hack
  rw [hrun]
  refine ⟨⟨{ x with queue := ((x.queue.fire .lsfs 0 x.koid).ackLocked (n + 1)).2 }, ?_, hkind,
    hkoid, hlabel, happ, hq.round (by decide) .lsfs 0 x.koid⟩, ⟨c, hf⟩, h.last⟩
  simp [setVolatile, hx]

theorem Waiting.rounds (m : ℕ) : ∀ {k : Registry} {n : UInt64}, Waiting k n →
    Waiting (eventRun k (rounds m n)) (n + UInt64.ofNat m) := by
  induction m with
  | zero =>
    intro k n h
    simpa [Sample.rounds, eventRun] using h
  | succ m ih =>
    intro k n h
    have hround := ih h.round
    have hsum : n + 1 + UInt64.ofNat m = n + UInt64.ofNat (m + 1) := by
      rw [UInt64.ofNat_add, UInt64.add_assoc, UInt64.add_comm 1]
      rfl
    rw [← hsum]
    exact hround

/-- One event is read through the first of two more files, and acknowledged. -/
def started : List EventOp :=
  [.createSource .lsfs 1 none, .post 0 5, .duplicate 0 rightsNew none,
    .duplicate 0 rightsNew none, .read 1 true true, .ack 0 1]

set_option synthInstance.maxSize 1024 in
theorem waiting_started : Waiting (eventRun .initial started) 1 := by
  have hmap : ((eventRun .initial started).sources.map fun x => (x.kind, x.koid, x.applicationId,
      x.app, x.queue.slots.live, x.queue.coalesced, x.queue.eventId, x.queue.eventSeq)) =
      [(.lsfs, 1, 0, none, 0, 0, 1, 1)] := by
    decide +kernel
  obtain ⟨x, hx, heq⟩ := List.map_eq_singleton_iff.mp hmap
  simp only [Prod.mk.injEq] at heq
  obtain ⟨hkind, hkoid, hlabel, happ, hlive, hc, hid, hseq⟩ := heq
  have hsound := run_sound_source started 0 x (by rw [hx]; rfl)
  exact ⟨⟨x, hx, hkind, hkoid, hlabel, happ, hsound.booked, hlive, hc, hid, hseq⟩,
    ⟨0, by decide +kernel⟩, by decide +kernel⟩

theorem Waiting.read (h : Waiting k 0) :
    ReadsAs (eventRun k [.post 0 6]) (.read 2 true true) (.own 0)
      ⟨recordSize, 1, 0, 1, 1, 3, 1, 6, 0, 0⟩ := by
  obtain ⟨x, hx, hkind, hkoid, hlabel, happ, hq⟩ := h.source
  obtain ⟨c, hf⟩ := h.first
  obtain ⟨-, hview, -⟩ := hq.fire (by decide) .lsfs 6 x.koid
  have hrun : eventRun k [.post 0 6] = k.setVolatile 0 (x.queue.fire .lsfs 6 x.koid) := by
    simp only [eventRun, List.foldl_cons, List.foldl_nil]
    rw [post_waiting hx hkind happ hq hf]
  have hx' : (eventRun k [.post 0 6]).sources =
      [{ x with queue := x.queue.fire .lsfs 6 x.koid }] := by
    simp [hrun, setVolatile, hx]
  have hlast : (eventRun k [.post 0 6]).file 2 = some (.source 0 rightsNew 0 none) := by
    rw [hrun]
    exact h.last
  have hright : ¬ rightsNew &&& rightRead = 0 := by decide
  refine ⟨2, true, true, rfl, ?_, ?_⟩
  · simp [queueOf, hlast, hx', happ]
  · rw [hkoid] at hview hx'
    simp [eventStep, hlast, hx', readSource, hright, happ, nextRecord, next, hview, hkind,
      hlabel, EventNode.record, EventKind.code]

end Sample

open Sample

theorem along_noRestore {ops : List EventOp} (h : ∀ op ∈ ops, op.restores = false)
    (k : Registry) : Along NoRestore k ops := by
  induction ops generalizing k with
  | nil => trivial
  | cons op ops ih =>
    refine ⟨?_, ih (fun op hop => h op (List.mem_cons_of_mem _ hop)) _⟩
    intro hr
    rw [h op List.mem_cons_self] at hr
    cases hr

theorem Sample.rounds_restores (m : ℕ) (n : UInt64) :
    ∀ op ∈ rounds m n, op.restores = false := by
  induction m generalizing n with
  | zero => simp [rounds]
  | succ m ih =>
    intro op hop
    rcases List.mem_cons.mp hop with rfl | hop
    · rfl
    · rcases List.mem_cons.mp hop with rfl | hop
      · rfl
      · exact ih (n + 1) op hop

theorem Sample.reads_differ {m : ℕ} (hm : 1 + UInt64.ofNat m = 0) :
    ∃ (pre post : List EventOp) (op : EventOp),
      started ++ rounds m 1 ++ [.post 0 6, .read 2 true true] =
        pre ++ op :: post ∧
      ReadsAs (eventRun .initial pre) op (.own 0) ⟨recordSize, 1, 0, 1, 1, 3, 1, 5, 0, 0⟩ ∧
      ReadsAs (eventRun .initial (started ++ rounds m 1 ++ [.post 0 6]))
        (.read 2 true true) (.own 0) ⟨recordSize, 1, 0, 1, 1, 3, 1, 6, 0, 0⟩ := by
  refine ⟨started.take 4, .ack 0 1 :: rounds m 1 ++ [.post 0 6, .read 2 true true],
    .read 1 true true, by simp [started], ?_, ?_⟩
  · exact ⟨1, true, true, rfl, by decide +kernel, by decide +kernel⟩
  · have hwaiting := Waiting.rounds m waiting_started
    rw [hm, ← eventRun_append] at hwaiting
    rw [eventRun_append]
    exact hwaiting.read

/-- Two reads of one number that return different data. -/
theorem exists_reads_disagree : ∃ (ops pre₁ post₁ pre₂ post₂ : List EventOp) (op₁ op₂ : EventOp)
    (name : QueueName) (r₁ r₂ : EventRecord), Along NoRestore .initial ops ∧
      ops = pre₁ ++ op₁ :: post₁ ∧ ops = pre₂ ++ op₂ :: post₂ ∧
      ReadsAs (eventRun .initial pre₁) op₁ name r₁ ∧
      ReadsAs (eventRun .initial pre₂) op₂ name r₂ ∧ r₁.eventId = r₂.eventId ∧
      r₁.data ≠ r₂.data := by
  have hm : 1 + UInt64.ofNat (2 ^ 64 - 1) = 0 := by decide
  generalize (2 ^ 64 - 1 : ℕ) = m at hm
  obtain ⟨pre, post, op, hops, hread, hread'⟩ := reads_differ hm
  refine ⟨_, pre, post, _, [], op, _, .own 0, _, _, ?_, hops, ?_, hread, hread', rfl, by decide⟩
  · refine along_noRestore ?_ _
    intro op hop
    rcases List.mem_append.mp hop with hop | hop
    · rcases List.mem_append.mp hop with hop | hop
      · exact (by decide : ∀ op ∈ started, op.restores = false) op hop
      · exact rounds_restores m 1 op hop
    · exact (by decide : ∀ op ∈ [EventOp.post 0 6, .read 2 true true], op.restores = false) op hop
  · simp

/-- One event, read through two files. -/
theorem reads_agree_twice : ∃ r₁ r₂ : EventRecord,
    ReadsAs (eventRun .initial (started.take 4)) (.read 1 true true) (.own 0) r₁ ∧
    ReadsAs (eventRun .initial (started.take 5)) (.read 2 true true) (.own 0) r₂ ∧
    r₁.data = r₂.data := by
  have hread₁ : ReadsAs (eventRun .initial (started.take 4)) (.read 1 true true) (.own 0)
      ⟨recordSize, 1, 0, 1, 1, 3, 1, 5, 0, 0⟩ :=
    ⟨1, true, true, rfl, by decide +kernel, by decide +kernel⟩
  have hread₂ : ReadsAs (eventRun .initial (started.take 5)) (.read 2 true true) (.own 0)
      ⟨recordSize, 1, 0, 1, 1, 3, 1, 5, 0, 0⟩ :=
    ⟨2, true, true, rfl, by decide +kernel, by decide +kernel⟩
  refine ⟨_, _, hread₁, hread₂, ?_⟩
  exact (reads_agree (started.take 5 ++ [.read 2 true true]) (started.take 4)
    [.read 2 true true] (started.take 5) [] (.read 1 true true) (.read 2 true true)
    (along_noRestore (by decide) _) (by decide +kernel) rfl rfl (.own 0) _ _ hread₁ hread₂
    rfl).2.2.2.2

end Aok.Kernel
