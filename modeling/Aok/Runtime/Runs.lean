import Aok.Runtime.SystemPaths

/-!
# Runs

A run is a sequence of steps that all meet a condition on the state before the step and
the event. What every change keeps and every restart keeps holds throughout a run.
-/

namespace Aok.Runtime
open Lib Lib.Utf8 Lib.JsonText Lib.JsonValue Lib.Command Lib.Journal
open Relation

variable {K : Type}

def Run (env : Env K) (C : System K → Event K → Prop) : System K → System K → Prop :=
  ReflTransGen fun s s' => ∃ e, C s e ∧ step env s e = some s'

def Reachable (env : Env K) (C : System K → Event K → Prop) (s : System K) : Prop :=
  ∃ k, Run env C (System.initial k) s

/-- The condition holds of what a restart would find and, in a running process, of the live
state and the copies of it. -/
structure System.Holds (Q : Core → Prop) (s : System K) : Prop where
  disk : Q (codec.reopen s.world.db)
  store : s.up = true → Everywhere codec Q s.world.store

variable {U P : Prop} {S : Terms} {env : Env K} {C : System K → Event K → Prop} {Q : Core → Prop}
  {s s' : System K}

theorem wellFormed_empty : WellFormed U (codec.reopen State.empty) where
  named := ⟨each_empty, each_empty, each_empty, each_empty, by simp [codec, State.empty]⟩
  side := by
    have hsourced : (codec.reopen State.empty).sourced = ∅ := rfl
    constructor
    case sourced => exact hsourced ▸ each_empty
    all_goals simp [codec, State.empty, each_empty]

theorem safe_initial (k : K) : (System.initial k).Safe U where
  sound := by simp [System.initial]
  disk := wellFormed_empty
  turns := by simp [System.turns, System.initial, Loop.turn]
  exports := by simp [System.initial]
  idle := fun _ => ⟨rfl, rfl, rfl, rfl⟩

theorem Run.safe (hC : ∀ s e, C s e → Allowed U S P env s e) (h : Run env C s s') (hs : s.Safe U) :
    s'.Safe U := by
  induction h with
  | refl => exact hs
  | tail _ hstep ih =>
    obtain ⟨e, he, hstep⟩ := hstep
    exact ih.step (hC _ e he) hstep

theorem Reachable.safe (hC : ∀ s e, C s e → Allowed U S P env s e) (h : Reachable env C s) :
    s.Safe U := by
  obtain ⟨k, hr⟩ := h
  exact hr.safe hC (safe_initial k)

/-- What holds at first and is kept by every step that meets the condition. -/
theorem Reachable.invariant {I : System K → Prop} (hC : ∀ s e, C s e → Allowed U S P env s e)
    (h : Reachable env C s) (h₀ : ∀ k, I (System.initial k))
    (hstep : ∀ s e s', s.Safe U → C s e → step env s e = some s' → I s → I s') : I s := by
  obtain ⟨k, hr⟩ := h
  induction hr with
  | refl => exact h₀ k
  | tail hr hnext ih =>
    obtain ⟨e, he, hnext⟩ := hnext
    exact hstep _ e _ (Run.safe hC hr (safe_initial k)) he hnext ih

theorem System.Holds.step {e : Event K} (hQ : Lasting U S env Q) (hs : s.Safe U)
    (ha : Allowed U S P env s e) (hstep : Runtime.step env s e = some s') (h : s.Holds Q) :
    s'.Holds Q := by
  cases hup : s.up with
  | true =>
    simp only [Runtime.step, hup, if_true] at hstep
    obtain ⟨⟨b, ht, -⟩, -⟩ := stepUp_stepped hup hs ha hstep
    have hall := hQ.trail ht (h.store hup)
    exact ⟨hall.disk, fun _ => hall⟩
  | false =>
    obtain ⟨hdisk, hstore⟩ := (step_started hup hs ha hstep).lasting Q hQ h.disk
    exact ⟨hdisk, hstore⟩

theorem Run.holds (hQ : Lasting U S env Q) (hC : ∀ s e, C s e → Allowed U S P env s e)
    (hr : Run env C s s') (hs : s.Safe U) (h : s.Holds Q) : s'.Holds Q := by
  induction hr with
  | refl => exact h
  | tail hr hstep ih =>
    obtain ⟨e, he, hstep⟩ := hstep
    exact ih.step hQ (Run.safe hC hr hs) (hC _ e he) hstep

/-- What lasts and holds of the empty state holds in every reachable state. -/
theorem Reachable.holds (hQ : Lasting U S env Q) (hC : ∀ s e, C s e → Allowed U S P env s e)
    (h : Reachable env C s) (h₀ : Q (codec.reopen State.empty)) : s.Holds Q := by
  obtain ⟨k, hr⟩ := h
  exact hr.holds hQ hC (safe_initial k) ⟨h₀, by simp [System.initial]⟩

theorem Reachable.trans (h : Reachable env C s) (hr : Run env C s s') : Reachable env C s' := by
  obtain ⟨k, hk⟩ := h
  exact ⟨k, ReflTransGen.trans hk hr⟩

theorem System.Holds.mono {Q' : Core → Prop} (hQ : ∀ c, Q c → Q' c) (h : s.Holds Q) :
    s.Holds Q' :=
  ⟨hQ _ h.disk, fun hup => ⟨hQ _ (h.store hup).live, hQ _ (h.store hup).saved, hQ _ h.disk⟩⟩

theorem Reachable.image_db (hC : ∀ s e, C s e → Allowed U S P env s e) (h : Reachable env C s) :
    s.world.db.image = s.world.db := by
  have hsaved : ∃ c, codec.save c = s.world.db := by
    refine h.invariant (I := fun s => ∃ c, codec.save c = s.world.db) hC
      (fun k => ⟨codec.reopen State.empty, rfl⟩) fun s e s' hs he hstep ih => ?_
    cases hup : s.up with
    | true =>
      simp only [step, hup, if_true] at hstep
      obtain ⟨⟨b, ht, -⟩, -⟩ := stepUp_stepped hup hs (hC _ e he) hstep
      rcases Trail.disk ht with hdisk | hdisk
      · obtain ⟨c, hc⟩ := ih
        exact ⟨c, hc.trans hdisk.symm⟩
      · exact hdisk
    | false => exact (step_started hup hs (hC _ e he) hstep).disk ih
  obtain ⟨c, hc⟩ := hsaved
  rw [← hc]
  exact State.image_image c.state

/-! ## Conditions that, once committed, stay -/

/-- A condition that no change ends and that a saved state shows exactly when the live one does. -/
structure Manifest (U : Prop) (S : Terms) (env : Env K) (Q : Core → Prop) : Prop where
  change : ∀ k c c', WellFormed U c → Change U S env c k c' → Q c → Q c'
  reopen_iff : ∀ c, WellFormed U c → (Q (codec.reopen (codec.save c)) ↔ Q c)

theorem Manifest.lasting (hQ : Manifest U S env Q) :
    Lasting U S env fun c => WellFormed U c ∧ Q c where
  change := fun k c c' hc h => ⟨hc.wellFormed h.1, hQ.change k c c' h.1 hc h.2⟩
  reopen := fun c h => ⟨h.1.reopen, (hQ.reopen_iff c h.1).mpr h.2⟩

theorem Manifest.trail_durable (hQ : Manifest U S env Q) {p q : Level × Store Core State}
    (ht : Trail codec (Edit U S env) p q) (hw : Everywhere codec (WellFormed U) p.2)
    (hp : Durable codec Q p.2) : Durable codec Q q.2 := by
  refine Trail.durable (fun k c c' hc h => ?_) (fun c hc => (hQ.reopen_iff c hc).mp)
    (fun _ _ _ => wellFormed_lasting.edit) (fun _ => WellFormed.reopen) ht hw hp
  obtain ⟨j, hj⟩ := h.exists_change
  exact hQ.change j c c' hc hj

theorem Reachable.durable (hQ : Manifest U S env Q) (hC : ∀ s e, C s e → Allowed U S P env s e)
    (h : Reachable env C s) : s.up = true → Durable codec Q s.world.store := by
  refine h.invariant (I := fun s => s.up = true → Durable codec Q s.world.store) hC
    (fun k => by simp [System.initial]) fun s e s' hs he hstep ih hup' => ?_
  cases hup : s.up with
  | true =>
    simp only [step, hup, if_true] at hstep
    obtain ⟨⟨b, ht, -⟩, -⟩ := stepUp_stepped hup hs (hC _ e he) hstep
    exact hQ.trail_durable ht (hs.sound hup) (ih hup)
  | false =>
    have hst := step_started hup hs (hC _ e he) hstep
    obtain ⟨c, hc⟩ := hst.committed hup'
    have hwf := (hst.lasting _ wellFormed_lasting hs.disk).2 hup'
    rw [hc] at hwf ⊢
    exact fun hd => ⟨hd, (hQ.reopen_iff c hwf.live).mp hd⟩

/-- Once committed, the condition holds in every later state of the run. -/
theorem Reachable.holds_of_committed (hQ : Manifest U S env Q)
    (hC : ∀ s e, C s e → Allowed U S P env s e) (h : Reachable env C s)
    (hd : Q (codec.reopen s.world.db)) (hr : Run env C s s') : s'.Holds Q := by
  have hs : s.Safe U := h.safe hC
  have hstart : s.Holds fun c => WellFormed U c ∧ Q c := by
    refine ⟨⟨hs.disk, hd⟩, fun hup => ?_⟩
    have hall := (h.durable hQ hC hup).everywhere hd
    have hwf := hs.sound hup
    exact ⟨⟨hwf.live, hall.live⟩, ⟨hwf.saved, hall.saved⟩, ⟨hwf.disk, hall.disk⟩⟩
  have hend := hr.holds hQ.lasting hC hs hstart
  exact ⟨hend.disk.2, fun hup =>
    ⟨(hend.store hup).live.2, (hend.store hup).saved.2, (hend.store hup).disk.2⟩⟩

/-! ## Given runs -/

/-- The state after a list of events, if each of them can happen and meets the condition. -/
def runAll (env : Env K) (C : System K → Event K → Prop) [∀ s e, Decidable (C s e)] (s : System K) :
    List (Event K) → Option (System K)
  | [] => some s
  | e :: es => if C s e then (step env s e).bind fun s' => runAll env C s' es else none

theorem run_of_runAll [∀ s e, Decidable (C s e)] {es : List (Event K)}
    (h : runAll env C s es = some s') : Run env C s s' := by
  induction es generalizing s with
  | nil =>
    cases h
    exact .refl
  | cons e es ih =>
    unfold runAll at h
    split at h
    next he =>
      obtain ⟨t, ht, h⟩ := Option.bind_eq_some_iff.mp h
      exact .head ⟨e, he, ht⟩ (ih h)
    · cases h

theorem exists_run [∀ s e, Decidable (C s e)] (es : List (Event K)) {Q : System K → Prop}
    (h : ∃ s' ∈ runAll env C s es, Q s') : ∃ s', Run env C s s' ∧ Q s' := by
  obtain ⟨s', hr, hs'⟩ := h
  exact ⟨s', run_of_runAll hr, hs'⟩

def silentBridge : Bridge Unit where
  bootID _ := .ok []
  openApp _ k := (.ok 1, k)
  read _ k := (.ok none, k)
  ack _ _ k := (.ok (), k)
  snapshot _ k := (.ok [], k)
  restore _ _ k := (.ok (), k)
  closeApp _ k := k
  openSource k := (.ok 1, k)
  attach _ _ _ k := (.ok (), k)
  post _ _ k := (.ok (), k)
  closeSource _ k := k

/-- An environment in which nothing fails: the clock counts the questions and so do the random
bytes. -/
def calmEnv (sha256 : Bytes → Digest) : Env Unit where
  now n := n
  random n := some fun i => UInt8.ofNat (n + i)
  fault _ := .ok
  order _ l := l
  order_perm _ _ := .refl _
  sha256 := sha256
  ed25519 _ _ _ := true
  policy := ⟨false, [], [], [], 0⟩
  bridge := silentBridge
  fuel := 100

def zeroDigest : Digest := ⟨⟨List.replicate 64 0x30, by decide⟩, by decide⟩

namespace Sample

def calm : Env Unit := calmEnv fun _ => zeroDigest

theorem bootClear : BootClear True calm := by
  intro k boot h
  cases h
  exact clear_nil

def admin : GoString := lit "admin"

def app : GoString := lit "04050607-0809-4a0b-8c0d-0e0f10111213"

def provider : Provider := ⟨lit "p", [], false, false⟩

def completion : Completion := ⟨lit "y", ⟨3, 4, 0⟩, ⟨[], 0, []⟩, 0, none⟩

def send (key : String) : Event Unit :=
  .call (.enqueue admin app (lit key) (lit "\x7b\"text\":\"x\"\x7d"))

def create : List (Event Unit) := [.start, .call (.createApplication admin (lit "owner") [])]

/-- From `Run` to the first turn with a worker. -/
def claimFirst : List (Event Unit) := .run provider :: List.replicate 8 .loopStep

/-- A worker from its start to the end of `finishTurn`. -/
def finish (i : ℕ) : List (Event Unit) :=
  [.work i, .work i, .complete i completion, .work i, .work i]

def runs (es : List (Event Unit)) : Bool :=
  (runAll calm (fun s e => e.IsFresh calm s) (System.initial ()) es).isSome

example : runs create := by decide +kernel

end Sample

end Aok.Runtime
