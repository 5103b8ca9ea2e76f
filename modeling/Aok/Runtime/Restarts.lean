import Aok.Lib.Trace
import Aok.Lib.Window
import Aok.Runtime.State

/-!
# Restart intensity

`startLocked` of `process_provider.go` and the loop of `RunInit` in `pid1.go` record the time of
every start and refuse one when too many lie within the restart window. The clock is part of the
state; what comes after the check is the outcome of the launch.
-/

namespace Aok.Runtime
open Lib Lib.Utf8 Lib.JsonText Lib.Window

/-- A positive `time.Duration`. -/
structure Span where
  ns : ℤ
  pos : 0 < ns
  fits : ns < 2 ^ 63

def minute : Span := ⟨60000000000, by decide, by decide⟩

/-- `now.Sub(t)`, which stops at the ends of an `int64`. -/
def since (now t : ℤ) : ℤ := max (-2 ^ 63) (min (2 ^ 63 - 1) (now - t))

theorem since_lt_iff (window : Span) {now t : ℤ} :
    since now t < window.ns ↔ now - t < window.ns := by
  have := window.pos
  have := window.fits
  unfold since
  omega

/-- The clock, the starts that are kept, and a record of all. -/
structure Starts where
  now : ℤ
  starts : List ℤ
  made : List ℤ

namespace Starts

variable {s : Starts} {limit : ℕ} {window : Span}

def pass (s : Starts) (elapsed : ℕ) : Starts := { s with now := s.now + elapsed }

def recent (window : Span) (s : Starts) : Starts :=
  { s with starts := filterInPlace (fun t => since s.now t < window.ns) s.starts }

def add (s : Starts) : Starts :=
  { s with starts := s.starts ++ [s.now], made := s.made ++ [s.now] }

/-- The starts were last checked at some time up to now. -/
def Checked (limit : ℕ) (window : Span) (s : Starts) : Prop :=
  ∃ t ≤ s.now, Limits limit window.ns t s.starts s.made

theorem checked_boot (now : ℤ) : Starts.Checked limit window ⟨now, [], []⟩ :=
  ⟨now, le_rfl, by simp, rfl, by simp⟩

theorem Checked.pass (h : s.Checked limit window) (elapsed : ℕ) :
    (s.pass elapsed).Checked limit window := by
  obtain ⟨t, ht, hl⟩ := h
  exact ⟨t, ht.trans (Int.le_add_of_nonneg_right (Int.natCast_nonneg _)), hl⟩

theorem Checked.recent (h : s.Checked limit window) :
    Limits limit window.ns s.now (s.recent window).starts s.made := by
  obtain ⟨t, ht, hl⟩ := h
  simpa only [Starts.recent, filterInPlace_eq, since_lt_iff] using hl.later ht

theorem Checked.add (h : s.Checked limit window) (hroom : (s.recent window).starts.length < limit) :
    Limits limit window.ns s.now (s.recent window).add.starts (s.recent window).add.made :=
  h.recent.add window.pos hroom

end Starts

/-! ## The engine process -/

structure ProcessProvider extends Starts where
  child : Bool
  closed : Bool

inductive StartError where
  -- engine process closed
  | closed
  | restartIntensity
  | launch (text : GoString)
deriving DecidableEq

namespace ProcessProvider

variable {p : ProcessProvider} {maxStarts : ℕ}

def startLocked (maxStarts : ℕ) (p : ProcessProvider) (launch : Option GoString) :
    ProcessProvider × Option StartError :=
  if p.closed then (p, some .closed)
  else if p.child then (p, none)
  else
    let s := p.recent minute
    if maxStarts ≤ s.starts.length then ({ p with toStarts := s }, some .restartIntensity)
    else ({ p with toStarts := s.add, child := launch.isNone }, launch.map .launch)

inductive Op where
  | pass (elapsed : ℕ)
  | start (launch : Option GoString)
  | reap
  | close

def next (maxStarts : ℕ) (p : ProcessProvider) : Op → ProcessProvider
  | .pass elapsed => { p with toStarts := p.pass elapsed }
  | .start launch => (p.startLocked maxStarts launch).1
  | .reap => { p with child := false }
  | .close => { p with child := false, closed := true }

def run (maxStarts : ℕ) (now : ℤ) (ops : List Op) : ProcessProvider :=
  Trace.run (next maxStarts) ⟨⟨now, [], []⟩, false, false⟩ ops

theorem startLocked_checks (maxStarts : ℕ) (p : ProcessProvider) (launch : Option GoString) :
    p.closed = false ∧ p.child = false ∨ (p.startLocked maxStarts launch).1 = p ∧
      (p.startLocked maxStarts launch).2 ≠ some .restartIntensity := by
  unfold startLocked
  cases p.closed <;> cases p.child <;> simp

/-- A start that finds neither a child nor the provider closed is checked against the window. -/
theorem startLocked_limits (h : p.Checked maxStarts minute) (hc : p.closed = false)
    (hn : p.child = false) (launch : Option GoString) :
    let q := p.startLocked maxStarts launch
    q.1.now = p.now ∧ Limits maxStarts minute.ns p.now q.1.starts q.1.made ∧
      (q.2 = some .restartIntensity → q.1.made = p.made ∧ maxStarts ≤ q.1.starts.length) := by
  simp only [startLocked, hc, hn, Bool.false_eq_true, if_false]
  split_ifs with hfull
  · exact ⟨rfl, h.recent, fun _ => ⟨rfl, hfull⟩⟩
  · exact ⟨rfl, h.add (Nat.lt_of_not_le hfull), by cases launch <;> simp⟩

theorem Checked.next (h : p.Checked maxStarts minute) (op : Op) :
    (p.next maxStarts op).Checked maxStarts minute := by
  cases op with
  | pass elapsed => exact Starts.Checked.pass h elapsed
  | start launch =>
    obtain ⟨hc, hn⟩ | ⟨hsame, -⟩ := startLocked_checks maxStarts p launch
    · obtain ⟨hnow, hl, -⟩ := startLocked_limits h hc hn launch
      exact ⟨p.now, hnow.ge, hl⟩
    · rw [ProcessProvider.next, hsame]
      exact h
  | reap => exact h
  | close => exact h

theorem run_checked (now : ℤ) (ops : List Op) :
    (run maxStarts now ops).Checked maxStarts minute :=
  Trace.run_keeps (I := fun p : ProcessProvider => p.Checked maxStarts minute)
    (fun _ op h => Checked.next h op) (Starts.checked_boot now) ops

end ProcessProvider

/-! ## The first process of a guest -/

/-- `InitConfig` after its checks. -/
structure InitConfig where
  restart : Bool
  maxRestarts : ℕ
  restartWindow : Span

inductive InitError where
  | restartIntensity
  | system (text : GoString)
deriving DecidableEq

/-- How one child of the loop ends, with what `ctx.Err()` says then. -/
inductive Incarnation where
  | unstarted (err : GoString)
  | exited (err ctx : Option GoString)
  | stopped (ctx : GoString)

/-- The loop; `ended` holds what it has returned. -/
structure Init extends Starts where
  ended : Option (Option InitError)

namespace InitConfig

variable {c : InitConfig} {s : Init}

def outcome (c : InitConfig) : Incarnation → Option (Option InitError)
  | .unstarted err => some (some (.system err))
  | .exited err ctx => if c.restart then ctx.map (some ∘ .system) else some (err.map .system)
  | .stopped ctx => some (some (.system ctx))

/-- One round of the loop, `elapsed` after the round before. -/
def round (c : InitConfig) (s : Init) (r : ℕ × Incarnation) : Init :=
  if s.ended.isSome then s
  else
    let checked := (s.pass r.1).recent c.restartWindow
    if c.maxRestarts ≤ checked.starts.length then ⟨checked, some (some .restartIntensity)⟩
    else ⟨checked.add, c.outcome r.2⟩

def run (c : InitConfig) (now : ℤ) (rounds : List (ℕ × Incarnation)) : Init :=
  Trace.run c.round ⟨⟨now, [], []⟩, none⟩ rounds

theorem outcome_ne (i : Incarnation) : c.outcome i ≠ some (some .restartIntensity) := by
  cases i with
  | unstarted | stopped => simp [outcome]
  | exited err ctx =>
    unfold outcome
    split_ifs
    · simp
    · cases err <;> simp

theorem round_limits (h : s.Checked c.maxRestarts c.restartWindow) (he : s.ended = none)
    (r : ℕ × Incarnation) :
    let s' := c.round s r
    s'.now = s.now + r.1 ∧ Limits c.maxRestarts c.restartWindow.ns s'.now s'.starts s'.made ∧
      (s'.ended = some (some .restartIntensity) →
        s'.made = s.made ∧ c.maxRestarts ≤ s'.starts.length) := by
  simp only [round, he, Option.isSome_none, Bool.false_eq_true, if_false]
  split_ifs with hfull
  · exact ⟨rfl, (h.pass r.1).recent, fun _ => ⟨rfl, hfull⟩⟩
  · exact ⟨rfl, (h.pass r.1).add (Nat.lt_of_not_le hfull), fun h => absurd h (outcome_ne r.2)⟩

theorem run_checked (now : ℤ) (rounds : List (ℕ × Incarnation)) :
    (c.run now rounds).Checked c.maxRestarts c.restartWindow := by
  refine Trace.run_keeps (I := fun s : Init => s.Checked c.maxRestarts c.restartWindow)
    (fun s r h => ?_) (Starts.checked_boot now) rounds
  cases he : s.ended with
  | some _ => simpa [round, he] using h
  | none => exact ⟨_, le_rfl, (round_limits h he r).2.1⟩

end InitConfig

/-! ## The limit on starts -/

end Aok.Runtime
