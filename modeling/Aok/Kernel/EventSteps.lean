import Aok.Kernel.EventQueues
import Aok.Kernel.InferBook

/-!
# Runs of the registry

An operation does one thing to the queue of an application, and most do nothing. What holds of a
queue along these steps holds of every queue of a run.
-/

namespace Aok.Kernel
open Lib

variable {P : EventReply × Registry → Prop} {fd : ℕ}

def EventOp.restores : EventOp → Bool
  | .restore _ _ _ _ => true
  | _ => false

def EventOp.plain : EventOp → Bool
  | .close _ | .read _ _ _ => false
  | _ => true

inductive SourceStep (x : Source) : Source → Prop where
  | stay : SourceStep x x
  | queue {d : ℕ} {q : EventQueue eventSourceDepth} : x.app = none → x.queue.Step false d q →
      SourceStep x { x with queue := q }
  | attach (app : Option ℕ) (id : UInt64) : x.queue.slots.live = 0 →
      SourceStep x { x with app := app, applicationId := id }
  | label (id : UInt64) : (x.app = none → x.queue.slots.live ≠ 0 → id = x.applicationId) →
      SourceStep x { x with applicationId := id }

namespace Registry

variable {k k' : Registry} {op : EventOp}

def delivers (k : Registry) (a : ℕ) : EventOp → ℕ
  | .expire s =>
    if (k.apps[a]?).isSome = true ∧ k.sourceOpen s = true ∧
      (k.sources[s]?).any (fun x => x.kind == .timer && x.app == some a) = true then 1 else 0
  | _ => 0

/-- What became of the applications: whether one may have been restored, and the expiries delivered
to each. -/
structure Tracks (k k' : Registry) (r : Bool) (d : ℕ → ℕ) : Prop where
  here : ∀ (a : ℕ) (y : Application), k.apps[a]? = some y → ∃ y', k'.apps[a]? = some y' ∧
    y'.applicationId = y.applicationId ∧ y.queue.Step r (d a) y'.queue
  born : ∀ (a : ℕ) (y : Application), k'.apps[a]? = some y → k.apps[a]? = none →
    y.queue = .initial

theorem tracks_of_apps {r : Bool} {d : ℕ → ℕ} (h : k'.apps = k.apps) (hd : ∀ a, d a = 0) :
    Tracks k k' r d where
  here a y hy := ⟨y, by rw [h, hy], rfl, by rw [hd a]; exact .stay⟩
  born a y hy hnone := by
    rw [h, hnone] at hy
    cases hy

theorem getElem?_setQueue (k : Registry) (a : ℕ) (q : EventQueue appQueueDepth) (b : ℕ) :
    (k.setQueue a q).apps[b]? =
      (k.apps[b]?).map fun y => if a = b then { y with queue := q } else y :=
  List.getElem?_modify _ _ _ _

theorem tracks_setQueue {r : Bool} {d : ℕ → ℕ} {a : ℕ} {y : Application} {q : EventQueue appQueueDepth}
    (hy : k.apps[a]? = some y) (hq : y.queue.Step r (d a) q) (hd : ∀ b, a ≠ b → d b = 0) :
    Tracks k (k.setQueue a q) r d where
  here b x hx := by
    rw [getElem?_setQueue, hx]
    by_cases hab : a = b
    · subst hab
      rw [hy] at hx
      cases hx
      exact ⟨_, rfl, by simp, by simpa using hq⟩
    · refine ⟨x, by simp [hab], rfl, ?_⟩
      rw [hd b hab]
      exact .stay
  born b x hx hnone := by
    rw [getElem?_setQueue, hnone] at hx
    cases hx

theorem tracks_append {r : Bool} {d : ℕ → ℕ} {z : Application} (hz : z.queue = .initial)
    (h : k'.apps = k.apps ++ [z]) (hd : ∀ a, d a = 0) : Tracks k k' r d where
  here a y hy := by
    refine ⟨y, ?_, rfl, by rw [hd a]; exact .stay⟩
    rw [h, List.getElem?_append_left (List.getElem?_eq_some_iff.mp hy).1]
    exact hy
  born a y hy hnone := by
    rw [h] at hy
    rcases getElem?_append_one hy with hy | ⟨-, rfl⟩
    · rw [hnone] at hy
      cases hy
    · exact hz

/-! ## Files -/

def AtStart : EventFile → Prop
  | .app _ _ readSeq | .source _ _ readSeq _ => readSeq = 0

def Opens (k k' : Registry) : Prop :=
  ∃ added : List EventFile, k'.files = k.files ++ added.map some ∧ ∀ f ∈ added, AtStart f

theorem opens_of_files (h : k'.files = k.files) : Opens k k' :=
  ⟨[], by simp [h], by simp⟩

theorem opens_one {f : EventFile} (h : k'.files = k.files ++ [some f]) (hf : AtStart f) :
    Opens k k' :=
  ⟨[f], h, by simpa using hf⟩

theorem again_atStart (rights : UInt64) (f : EventFile) : AtStart (f.again rights) := by
  cases f <;> rfl

theorem Opens.file (h : Opens k k') (hfd : fd < k.files.length) :
    k'.file fd = k.file fd := by
  obtain ⟨added, h, -⟩ := h
  rw [Registry.file, h, List.getElem?_append_left hfd]
  rfl

theorem Opens.atStart (h : Opens k k') {f : EventFile} (hfd : k.files.length ≤ fd)
    (hf : k'.file fd = some f) : AtStart f := by
  obtain ⟨added, h, hstart⟩ := h
  rw [Registry.file, h, List.getElem?_append_right hfd, List.getElem?_map] at hf
  cases hg : added[fd - k.files.length]? with
  | none =>
    rw [hg] at hf
    cases hf
  | some g =>
    rw [hg] at hf
    cases hf
    exact hstart f (List.mem_of_getElem? hg)

theorem lt_of_file {f : EventFile} (h : k.file fd = some f) : fd < k.files.length := by
  by_contra hge
  rw [Registry.file, List.getElem?_eq_none (not_lt.mp hge)] at h
  cases h

/-! ## Calls through a file -/

theorem onSource_rule {other : Errno}
    {act : ℕ → Source → EventReply × Registry} (herr : ∀ e, P (.error e, k))
    (hact : ∀ (s : ℕ) (rights readSeq : UInt64) (cursorApp : Option ℕ) (x : Source),
      k.file fd = some (.source s rights readSeq cursorApp) → k.sources[s]? = some x →
      P (act s x)) : P (k.onSource fd other act) := by
  unfold onSource
  split
  · exact herr _
  · exact herr _
  · next s rights readSeq cursorApp hf =>
    split
    · exact herr _
    · split
      · exact herr _
      · next x hx => exact hact s rights readSeq cursorApp x hf hx

theorem onApp_rule {other : Errno} {act : ℕ → Application → UInt64 → UInt64 → EventReply × Registry}
    (herr : ∀ e, P (.error e, k))
    (hact : ∀ (a : ℕ) (rights readSeq : UInt64) (y : Application),
      k.file fd = some (.app a rights readSeq) → k.apps[a]? = some y →
      P (act a y rights readSeq)) : P (k.onApp fd other act) := by
  unfold onApp
  split
  · exact herr _
  · exact herr _
  · next a rights readSeq hf =>
    split
    · exact herr _
    · next y hy => exact hact a rights readSeq y hf hy

theorem attach_rule {s : ℕ} {x : Source}
    (herr : ∀ e, P (.error e, k)) (hact : ∀ app id, P (k.attachSource s x app id))
    (arg : Option AttachArg) : P (k.attach s x arg) := by
  unfold attach
  repeat' split
  all_goals first
    | exact herr _
    | exact hact _ _

theorem bindSource_rule {s : ℕ} {x : Source} (herr : ∀ e, P (.error e, k))
    (hact : ∀ id : UInt64, (k.isBusy x = true → id = x.applicationId) →
      (∀ a y, x.app = some a → k.apps[a]? = some y → y.applicationId = id) →
      P (.ok .done, { k with
        sources := k.sources.modify s fun x => { x with applicationId := id } }))
    (id policy : UInt64) (target : Bool) : P (k.bindSource s x id policy target) := by
  unfold bindSource
  split
  · exact herr _
  · next happ =>
    split
    · exact herr _
    · next hbusy =>
      refine hact id ?_ ?_
      · intro hb
        by_contra hne
        exact hbusy ⟨hb, Or.inr (Or.inl hne)⟩
      · intro a y ha hy
        simpa [ha, hy] using happ

theorem setTarget_rule {s : ℕ} {x : Source} (herr : ∀ e, P (.error e, k))
    (hact : ∀ id policy target, P (k.bindSource s x id policy target))
    (arg : Option TargetArg) : P (k.setTarget s x arg) := by
  unfold setTarget
  repeat' split
  all_goals first
    | exact herr _
    | exact hact _ _ _

theorem snapshot_state (k : Registry) (y : Application) (rights : UInt64) (count : ℕ)
    (memory buffer copied : Bool) :
    (k.snapshot y rights count memory buffer copied).2 = k := by
  unfold snapshot
  split
  · rfl
  · split
    · rfl
    · dsimp only
      split
      · split <;> rfl
      · rfl

theorem read_sets (k : Registry) (fd : ℕ) (room copied : Bool) :
    (eventStep k (.read fd room copied)).2 = k ∨ k.file fd ≠ none ∧
      ∃ f, (eventStep k (.read fd room copied)).2 = { k with files := k.files.set fd f } := by
  dsimp only [eventStep]
  split
  · next hf =>
    split
    · exact Or.inl rfl
    · unfold readSource
      split
      · exact Or.inl rfl
      · split
        · exact Or.inl rfl
        · have hopen : k.file fd ≠ none := by simp [hf]
          dsimp only
          split <;> exact Or.inr ⟨hopen, _, rfl⟩
  · refine onApp_rule (P := fun r => r.2 = k ∨ k.file fd ≠ none ∧
      ∃ f, r.2 = { k with files := k.files.set fd f }) (fun _ => Or.inl rfl) ?_
    intro a rights readSeq y hf _
    unfold readApp
    split
    · exact Or.inl rfl
    · split
      · exact Or.inl rfl
      · split
        · exact Or.inl rfl
        · exact Or.inr ⟨by simp [hf], _, rfl⟩

theorem close_sets (k : Registry) (fd : ℕ) :
    (eventStep k (.close fd)).2 = k ∨ k.file fd ≠ none ∧
      (eventStep k (.close fd)).2 = { k with files := k.files.set fd none } := by
  dsimp only [eventStep]
  split
  · exact Or.inl rfl
  · next hf => exact Or.inr ⟨by simp [hf], rfl⟩

/-! ## What an operation does -/

/-- An operation opens files, makes an application or a source, moves or closes a file, or takes a
step in one queue or one source. -/
inductive Effect (k : Registry) (op : EventOp) : Registry → Prop where
  | files {fs : List (Option EventFile)} (hfs : Opens k { k with files := fs })
      (hd : ∀ a, k.delivers a op = 0) : Effect k op { k with files := fs }
  | app {z : Application} {g : List (Option EventFile)} (hz : z.queue = .initial)
      (hfs : Opens k { k with files := g }) (hd : ∀ a, k.delivers a op = 0) :
      Effect k op { k with apps := k.apps ++ [z], files := g }
  | source {z : Source} {f : EventFile} (hz : z.queue = .initial ∧ z.app = none) (hf : AtStart f)
      (hd : ∀ a, k.delivers a op = 0) :
      Effect k op { k with sources := k.sources ++ [z], files := k.files ++ [some f] }
  | set {fd : ℕ} {f : Option EventFile} (hop : op.plain = false)
      (hd : ∀ a, k.delivers a op = 0) : Effect k op { k with files := k.files.set fd f }
  | queue {a : ℕ} {y : Application} {q : EventQueue appQueueDepth} (hy : k.apps[a]? = some y)
      (hq : y.queue.Step op.restores (k.delivers a op) q)
      (hd : ∀ b, a ≠ b → k.delivers b op = 0) : Effect k op (k.setQueue a q)
  | mark {s : ℕ} {x : Source} {f : Source → Source} (hx : k.sources[s]? = some x)
      (hs : SourceStep x (f x)) (hd : ∀ a, k.delivers a op = 0) :
      Effect k op { k with sources := k.sources.modify s f }

theorem Effect.stay (hd : ∀ a, k.delivers a op = 0) : Effect k op k :=
  .files (opens_of_files rfl) hd

theorem Effect.install {f : EventFile} (hf : AtStart f) (hd : ∀ a, k.delivers a op = 0) :
    Effect k op (k.install f) :=
  .files (opens_one rfl hf) hd

theorem deliver_effect {s : ℕ} {x : Source} {data : UInt64} {d : ℕ} (hx : k.sources[s]? = some x)
    (happ : ∀ (a : ℕ) (y : Application), x.app = some a → k.apps[a]? = some y →
      y.queue.Step op.restores (k.delivers a op) (y.queue.fire x.kind data x.koid))
    (hnone : x.app = none → x.queue.Step false d (x.queue.fire x.kind data x.koid))
    (hd : ∀ a, (x.app = some a → k.apps[a]? = none) → k.delivers a op = 0) :
    Effect k op (k.deliver s x data) := by
  unfold deliver
  cases ha : x.app with
  | none => exact .mark hx (.queue ha (hnone ha)) fun a => hd a fun h => by rw [ha] at h; cases h
  | some a =>
    have hother : ∀ b, a ≠ b → k.delivers b op = 0 := by
      intro b hb
      refine hd b fun h => ?_
      rw [ha] at h
      exact absurd (Option.some.inj h) hb
    dsimp only
    cases hy : k.apps[a]? with
    | none =>
      refine .stay fun b => ?_
      by_cases hab : a = b
      · exact hab ▸ hd a fun _ => hy
      · exact hother b hab
    | some y => exact .queue hy (happ a y ha hy) hother

theorem expire_effect (k : Registry) (s : ℕ) :
    Effect k (.expire s) (eventStep k (.expire s)).2 := by
  dsimp only [eventStep]
  split
  · next hs => exact .stay fun a => by simp [delivers, hs]
  · next x hx =>
    split
    · next hopen =>
      obtain ⟨hopen, hkind⟩ := hopen
      refine deliver_effect (d := 1) hx (fun a y happ hy => ?_) (fun _ => ?_) fun a ha => ?_
      · have hd : k.delivers a (.expire s) = 1 := by simp [delivers, hy, hx, hopen, hkind, happ]
        rw [hd, hkind]
        exact .expire 0 x.koid
      · rw [hkind]
        exact .expire 0 x.koid
      · by_cases happ : x.app = some a
        · simp [delivers, ha happ]
        · simp [delivers, hx, happ]
    · next hclosed =>
      refine .stay fun a => ?_
      by_cases hopen : k.sourceOpen s = true
      · have hkind : x.kind ≠ .timer := fun h => hclosed ⟨hopen, h⟩
        simp [delivers, hx, hkind]
      · simp [delivers, hopen]

theorem step_effect (k : Registry) (op : EventOp) : Effect k op (eventStep k op).2 := by
  have hstay : (∀ a, k.delivers a op = 0) →
      ∀ e : Errno, Effect k op ((.error e, k) : EventReply × Registry).2 := fun hd _ => .stay hd
  have hlabel : (∀ a, k.delivers a op = 0) → ∀ {s x}, k.sources[s]? = some x →
      ∀ id policy target, Effect k op (k.bindSource s x id policy target).2 := fun hd s x hx =>
    bindSource_rule (P := fun r => Effect k op r.2) (hstay hd) fun id hid _ =>
      .mark hx (.label id fun happ hlive => hid (by simp [isBusy, happ, hlive])) hd
  cases op with
  | createApp id koid early late =>
    dsimp only [eventStep, createApp]
    split
    · exact .stay fun _ => rfl
    · cases early with
      | some e => exact .stay fun _ => rfl
      | none =>
        dsimp only
        cases hfind : k.apps.findIdx? fun y => y.applicationId == id with
        | some a =>
          cases late with
          | some e => exact .stay fun _ => rfl
          | none => exact .install rfl fun _ => rfl
        | none =>
          cases late with
          | some e => exact .app (g := k.files) rfl (opens_of_files rfl) fun _ => rfl
          | none => exact .app rfl (opens_one rfl rfl) fun _ => rfl
  | createSource kind koid fault =>
    cases fault with
    | some e => exact .stay fun _ => rfl
    | none => exact .source ⟨rfl, rfl⟩ rfl fun _ => rfl
  | duplicate fd rights fault =>
    dsimp only [eventStep, duplicate]
    split
    · exact .stay fun _ => rfl
    · next f hf =>
      split
      · exact .stay fun _ => rfl
      · cases fault with
        | some e => exact .stay fun _ => rfl
        | none => exact .install (again_atStart rights f) fun _ => rfl
  | close fd =>
    rcases close_sets k fd with heq | ⟨-, heq⟩
    · rw [heq]
      exact .stay fun _ => rfl
    · rw [heq]
      exact .set rfl fun _ => rfl
  | expire s => exact expire_effect k s
  | post fd arg =>
    refine onSource_rule (P := fun r => Effect k (.post fd arg) r.2) (hstay fun _ => rfl) ?_
    intro s _ _ _ x _ hx
    unfold post
    split
    · exact .stay fun _ => rfl
    · next hkind =>
      split
      · exact .stay fun _ => rfl
      · next hfull =>
        refine deliver_effect (d := 0) hx (fun a y happ hy => ?_) (fun happ => ?_) fun _ _ => rfl
        · refine .post x.kind arg x.koid (fun h => hkind (Or.inl h)) ?_
          simpa [isFull, happ, hy] using hfull
        · refine .post x.kind arg x.koid (fun h => hkind (Or.inl h)) ?_
          simpa [isFull, happ] using hfull
  | attach fd arg =>
    refine onSource_rule (P := fun r => Effect k (.attach fd arg) r.2) (hstay fun _ => rfl) ?_
    intro s _ _ _ x _ hx
    refine attach_rule (P := fun r => Effect k (.attach fd arg) r.2) (hstay fun _ => rfl) ?_ arg
    intro app id
    unfold attachSource
    split
    · exact .stay fun _ => rfl
    · split
      · exact .stay fun _ => rfl
      · next hbusy => exact .mark hx (.attach app _ (not_not.mp (not_or.mp hbusy).1)) fun _ => rfl
  | bind fd id policy =>
    dsimp only [eventStep]
    split
    · exact .stay fun _ => rfl
    · exact onSource_rule (P := fun r => Effect k (.bind fd id policy) r.2) (hstay fun _ => rfl)
        fun s _ _ _ x _ hx => hlabel (fun _ => rfl) hx id policy false
  | setTarget fd arg =>
    exact onSource_rule (P := fun r => Effect k (.setTarget fd arg) r.2) (hstay fun _ => rfl)
      fun s _ _ _ x _ hx => setTarget_rule (P := fun r => Effect k (.setTarget fd arg) r.2)
        (hstay fun _ => rfl) (hlabel (fun _ => rfl) hx) arg
  | ack fd id =>
    refine onSource_rule (P := fun r => Effect k (.ack fd id) r.2) (hstay fun _ => rfl) ?_
    intro s _ _ _ x _ hx
    unfold ackSource
    split
    · split
      · next hy => exact .queue hy (.ack id) fun _ _ => rfl
      · exact .stay fun _ => rfl
    · next happ => exact .mark hx (.queue happ (.ack id)) fun _ => rfl
  | appAck fd id =>
    refine onApp_rule (P := fun r => Effect k (.appAck fd id) r.2) (hstay fun _ => rfl) ?_
    intro a rights readSeq y hf hy
    split
    · exact .stay fun _ => rfl
    · rw [EventQueue.appAck_eq_ackLocked]
      exact .queue hy (.ack id) fun _ _ => rfl
  | read fd room copied =>
    rcases read_sets k fd room copied with heq | ⟨-, f, heq⟩
    · rw [heq]
      exact .stay fun _ => rfl
    · rw [heq]
      exact .set rfl fun _ => rfl
  | snapshot fd count memory buffer copied =>
    refine onApp_rule (P := fun r => Effect k (.snapshot fd count memory buffer copied) r.2)
      (hstay fun _ => rfl) ?_
    intro a rights readSeq y hf hy
    rw [snapshot_state]
    exact .stay fun _ => rfl
  | restore fd records memory readable =>
    dsimp only [eventStep]
    split
    · exact .stay fun _ => rfl
    · next hlen =>
      refine onApp_rule (P := fun r => Effect k (.restore fd records memory readable) r.2)
        (hstay fun _ => rfl) ?_
      intro a rights readSeq y _ hy
      unfold restore
      repeat' first | exact Effect.stay fun _ => rfl | split
      next hcheck hbusy =>
      obtain ⟨hlive, hc⟩ := not_or.mp hbusy
      exact .queue hy (.restore y.applicationId records (not_not.mp hlive) (not_not.mp hc)
        (not_lt.mp hlen) (by simpa using hcheck)) fun _ _ => rfl

theorem Effect.tracks (h : Effect k op k') :
    Tracks k k' op.restores fun a => k.delivers a op := by
  cases h with
  | files _ hd => exact tracks_of_apps rfl hd
  | app hz _ hd => exact tracks_append hz rfl hd
  | source _ _ hd => exact tracks_of_apps rfl hd
  | set _ hd => exact tracks_of_apps rfl hd
  | queue hy hq hd => exact tracks_setQueue hy hq hd
  | mark _ _ hd => exact tracks_of_apps rfl hd

theorem Effect.opens (h : Effect k op k') (hop : op.plain = true) : Opens k k' := by
  cases h with
  | files hfs => exact hfs
  | app _ hfs => exact hfs
  | source _ hf => exact opens_one rfl hf
  | set hset => exact absurd hop (by simp [hset])
  | queue => exact opens_of_files rfl
  | mark => exact opens_of_files rfl

end Registry

/-! ## Runs -/

open Registry EventQueue

def deliveries (a : ℕ) : Registry → List EventOp → ℕ
  | _, [] => 0
  | k, op :: ops => k.delivers a op + deliveries a (eventStep k op).2 ops

theorem eventRun_snoc (k : Registry) (ops : List EventOp) (op : EventOp) :
    eventRun k (ops ++ [op]) = (eventStep (eventRun k ops) op).2 := by
  simp [eventRun]

theorem deliveries_snoc (a : ℕ) (k : Registry) (ops : List EventOp) (op : EventOp) :
    deliveries a k (ops ++ [op]) = deliveries a k ops + (eventRun k ops).delivers a op := by
  induction ops generalizing k with
  | nil => simp [deliveries, eventRun]
  | cons first ops ih =>
    rw [List.cons_append, deliveries, deliveries, ih, Nat.add_assoc]
    rfl

theorem delivers_of_none {k : Registry} {a : ℕ} (h : k.apps[a]? = none) (op : EventOp) :
    k.delivers a op = 0 := by
  cases op <;> simp [delivers, h]

/-- The books of every queue are in order, and its expiries are those delivered to it. -/
theorem run_booked (ops : List EventOp) (a : ℕ) :
    ((eventRun .initial ops).apps[a]? = none → deliveries a .initial ops = 0) ∧
    ∀ y, (eventRun .initial ops).apps[a]? = some y →
      y.queue.Booked ∧ y.queue.Settled ∧ y.queue.expiries = deliveries a .initial ops := by
  induction ops using List.reverseRecOn with
  | nil => exact ⟨fun _ => rfl, fun y hy => by cases hy⟩
  | append_singleton ops op ih =>
    have htrack := (step_effect (eventRun .initial ops) op).tracks
    rw [eventRun_snoc, deliveries_snoc]
    cases hold : (eventRun .initial ops).apps[a]? with
    | none =>
      rw [ih.1 hold, delivers_of_none hold]
      refine ⟨fun _ => rfl, ?_⟩
      intro y hy
      rw [htrack.born a y hy hold]
      exact ⟨booked_initial, fun hne => absurd rfl hne, rfl⟩
    | some x =>
      obtain ⟨hbooked, hsettled, hexp⟩ := ih.2 x hold
      obtain ⟨y, hy, -, hstep⟩ := htrack.here a x hold
      rw [hy]
      refine ⟨(by intro h; cases h), ?_⟩
      rintro _ ⟨⟩
      refine ⟨hbooked.changes hstep.changes, hbooked.settled_step hsettled hstep, ?_⟩
      rw [hbooked.expiries_step hstep, hexp]

theorem post_eagain (k : Registry) (fd : ℕ) (arg : UInt64)
    (h : (eventStep k (.post fd arg)).1 = .error .eagain) :
    (eventStep k (.post fd arg)).2 = k := by
  revert h
  refine onSource_rule (P := fun r => r.1 = .error .eagain → r.2 = k) (fun _ _ => rfl) ?_
  intro s _ _ _ x _ _
  unfold post
  split
  · exact fun _ => rfl
  · split
    · exact fun _ => rfl
    · exact fun h => by cases h

theorem post_adds {k : Registry} {s a : ℕ} {rights readSeq arg : UInt64}
    {cursorApp : Option ℕ} {x : Source} {y : Application} (hb : y.queue.Booked)
    (hf : k.file fd = some (.source s rights readSeq cursorApp)) (hx : k.sources[s]? = some x)
    (happ : x.app = some a) (hy : k.apps[a]? = some y)
    (hok : (eventStep k (.post fd arg)).1 = .ok .done) :
    ∃ n y', (eventStep k (.post fd arg)).2.apps[a]? = some y' ∧
      y'.queue.posts = y.queue.posts ++ [n] ∧ y'.queue.view = y.queue.view ++ [n] ∧
      n.sourceKoid = x.koid ∧ n.kind = x.kind.code ∧ n.data = arg := by
  dsimp only [eventStep, onSource] at hok ⊢
  rw [hf] at hok ⊢
  dsimp only at hok ⊢
  split at hok
  · cases hok
  · next hrights =>
    rw [hx] at hok ⊢
    dsimp only [post] at hok ⊢
    split at hok
    · cases hok
    · next hkind =>
      split at hok
      · cases hok
      · next hfull =>
        have htimer : x.kind ≠ .timer := fun h => hkind (Or.inl h)
        have hne : y.queue.slots.live ≠ appQueueDepth := by
          simpa [isFull, happ, hy] using hfull
        have hlt := lt_of_le_of_ne hb.ok.live_le hne
        have hissue := hb.fire_of_lt hlt x.kind arg x.koid
        rw [if_neg htimer] at hissue
        obtain ⟨-, -, hview, hlog, -⟩ := issue_spec hb.ok hissue
        refine ⟨y.queue.nextNode x.koid x.kind.code 1 arg,
          { y with queue := y.queue.fire x.kind arg x.koid }, ?_, ?_, hview, rfl, rfl, rfl⟩
        · simp only [if_neg hrights, if_neg hkind, if_neg hfull, deliver, happ, hy,
            getElem?_setQueue, Option.map_some, if_true]
        · rw [posts, hlog, List.filterMap_append]
          rfl

/-- The accounts of a queue. -/
theorem queue_accounts (ops : List EventOp) (a : ℕ) (y : Application)
    (hy : (eventRun .initial ops).apps[a]? = some y) :
    y.queue.slots.live = y.queue.slots.pending.length ∧
    (Finset.univ.filter fun i => y.queue.slots.used i = true).card = y.queue.slots.live ∧
    y.queue.slots.live ≤ appQueueDepth ∧
    (y.queue.coalesced ≠ 0 → y.queue.slots.live = appQueueDepth) ∧
    -- a post that succeeds has a record of its own, in the queue until it is acknowledged
    (∀ (fd s : ℕ) (rights readSeq arg : UInt64) (cursorApp : Option ℕ) (x : Source),
      (eventRun .initial ops).file fd = some (.source s rights readSeq cursorApp) →
      (eventRun .initial ops).sources[s]? = some x → x.app = some a →
      (eventStep (eventRun .initial ops) (.post fd arg)).1 = .ok .done →
      ∃ n y', (eventStep (eventRun .initial ops) (.post fd arg)).2.apps[a]? = some y' ∧
        y'.queue.posts = y.queue.posts ++ [n] ∧ y'.queue.view = y.queue.view ++ [n] ∧
        n.sourceKoid = x.koid ∧ n.kind = x.kind.code ∧ n.data = arg) ∧
    y.queue.posts.Nodup ∧
    (∀ n ∈ y.queue.posts, y.queue.view.count n = if n ∈ y.queue.gone then 0 else 1) ∧
    (∀ (fd : ℕ) (arg : UInt64),
      (eventStep (eventRun .initial ops) (.post fd arg)).1 = .error .eagain →
      (eventStep (eventRun .initial ops) (.post fd arg)).2 = eventRun .initial ops) ∧
    deliveries a .initial ops ≡ y.queue.produced + y.queue.coalesced.toNat [MOD 2 ^ 32] := by
  obtain ⟨hb, hs, hexp⟩ := (run_booked ops a).2 y hy
  refine ⟨hb.ok.live, hb.ok.card_used, hb.ok.live_le, hs, ?_, hb.posts_nodup,
    fun n hn => hb.count_post hn, post_eagain _, hexp ▸ hb.balance⟩
  intro fd s rights readSeq arg cursorApp x hf hx happ hok
  exact post_adds hb hf hx happ hy hok

/-- An application with a port attached to it, through which one event was posted. -/
def Sample.posting : List EventOp :=
  [.createApp 7 1 none none, .createSource .port 2 none, .attach 1 (some ⟨7, some 0, 0⟩),
    .post 1 0]

theorem queue_accounts_posted : ∃ y, (eventRun .initial Sample.posting).apps[0]? = some y ∧
    y.queue.posts.length = 1 ∧ y.queue.slots.live = y.queue.slots.pending.length := by
  have hpost : (((eventRun .initial Sample.posting).apps[0]?).map fun y =>
      y.queue.posts.length) = some 1 := by
    decide +kernel
  obtain ⟨y, hy, hlen⟩ := Option.map_eq_some_iff.mp hpost
  exact ⟨y, hy, hlen, (queue_accounts Sample.posting 0 y hy).1⟩

end Aok.Kernel
