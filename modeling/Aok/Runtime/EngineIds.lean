import Aok.Lib.Trace
import Aok.Runtime.EngineSessions

/-!
# The ids of sessions

An engine keeps nothing of a session it has released but the number of sessions it has opened.
The ids it answered to `session/new` are the names of the numbers from one to that number.
-/

namespace Aok.Protocol.Engine
open Lib Lib.Utf8 Lib.JsonText Lib.JsonValue Aok.Runtime

variable {e e' : Engine} {id : Bytes} {m : Message} {w : World} {op : Op} {s : EngineSession}

/-- The id in the answer to a `session/new` that succeeds. -/
def returned (e : Engine) (w : World) : Op → Option Bytes
  | .handle m =>
    if Method.read m.method = some .newSession then
      match (e.handle w m).2 with
      | some r =>
        if r.error = none then some (readField (lit "session_id") asString [] r.result).1
        else none
      | none => none
    else none
  | _ => none

def issues (e : Engine) : List (World × Op) → List Bytes
  | [] => []
  | (w, op) :: rest => (e.returned w op).toList ++ issues (e.step w op).1 rest

/-! ## What a step opens -/

theorem emit_nextSession (e : Engine) (event : Event) :
    (e.emit w id event).nextSession = e.nextSession := by
  cases hs : e.sessions[id]? with
  | none => rw [emit, hs]
  | some s => exact (emit_changes hs event).nextSession

theorem resume_nextSession : (e.resume w m id s).1.nextSession = e.nextSession := by
  have hflush (e : Engine) (s : EngineSession) :
      (e.flushSession w id s).1.nextSession = e.nextSession := by
    unfold flushSession
    split_ifs <;> rfl
  unfold resume
  dsimp only
  split
  next heq => exact (congrArg (·.1.nextSession) heq).symm.trans (hflush _ _)
  next heq => exact (congrArg (·.1.nextSession) heq).symm.trans (hflush _ _)

theorem prompt_nextSession {p : Params} : (e.prompt w m p s).1.nextSession = e.nextSession := by
  unfold prompt
  split_ifs
  · rfl
  · rfl
  · rfl
  · rfl
  · rfl
  · exact emit_nextSession _ _

theorem abort_nextSession {close : Bool} :
    (e.abort m close id s).1.nextSession = e.nextSession := by
  unfold abort
  dsimp only
  split_ifs <;> rfl

theorem handle_nextSession (hm : Method.read m.method ≠ some .newSession) :
    (e.handle w m).1.nextSession = e.nextSession := by
  unfold handle
  split
  next => rfl
  next => rfl
  next => rfl
  next hnew => exact absurd hnew hm
  next =>
    split
    · rfl
    · split_ifs
      · rfl
      · split
        · rfl
        · unfold handleSession
          split
          · rfl
          · exact resume_nextSession
          · exact abort_nextSession (m := m)
          · exact abort_nextSession (m := m)
          · split
            · rfl
            · exact prompt_nextSession

theorem settle_nextSession {c : Call} {r : Outcome} :
    (e.settle w c r).1.nextSession = e.nextSession := by
  have hfold (events : List Event) (e : Engine) :
      (events.foldl (fun e event => e.emit w c.sessionID event) e).nextSession = e.nextSession :=
    Trace.run_keeps (I := fun e' => e'.nextSession = e.nextSession)
      (fun e' event h => (emit_nextSession e' event).trans h) rfl events
  unfold settle
  split
  · rfl
  · dsimp only
    split_ifs
    · exact hfold _ _
    · exact hfold _ _

theorem close_nextSession : e.close.nextSession = e.nextSession := by
  have hone (e : Engine) (id : Bytes) : (e.closeSession id).nextSession = e.nextSession := by
    unfold closeSession
    split
    · dsimp only
      split_ifs <;> rfl
    · rfl
  exact Trace.run_keeps (I := fun e' => e'.nextSession = e.nextSession)
    (s := { e with closed := true }) (fun e' id h => (hone e' id).trans h) rfl e.sessions.keys

theorem readField_session (n : UInt64) : readField (lit "session_id") asString []
    (JsonText.object [member "session_id" (quote (sessionID n))]) = (sessionID n, true) := by
  have hreads : ∀ part ∈ [textPart "session_id" (sessionID n)],
      Reads (maxDepth - 1) part.value part.text := by
    intro part hpart
    rw [List.mem_singleton.mp hpart]
    exact reads_textPart _ _
  have hparse := (reads_object (by simp) hreads).parse_eq
  refine readField_textPart [] ?_ hparse (by simp) (by simp)
  refine valid_ascii fun b hb => ?_
  obtain hb | hb := List.mem_append.mp hb
  · exact (by decide +kernel : ∀ b ∈ lit "session-", b.toNat < 128) b hb
  · have := isDigit_dec _ b hb
    simp only [isDigit, Bool.and_eq_true, decide_eq_true_eq] at this
    omega

/-- A step opens a session under the next id and returns that, or opens none. -/
theorem step_issues (e : Engine) (w : World) (op : Op) :
    e.returned w op = none ∧ (e.step w op).1.nextSession = e.nextSession ∨
      e.nextSession.toNat + 1 < 2 ^ 64 ∧ (e.step w op).1 = e.opened ∧
        e.returned w op = some (sessionID (e.nextSession + 1)) := by
  cases op with
  | handle m =>
    by_cases hm : Method.read m.method = some .newSession
    · have hhandle : e.handle w m = (e.newSession m).map id some := by rw [handle, hm]
      rw [returned, if_pos hm, step, hhandle]
      obtain ⟨he, herr⟩ | ⟨hroom, he⟩ := newSession_cases e m
      · exact .inl ⟨if_neg herr, congrArg nextSession he⟩
      · rw [he]
        refine .inr ⟨hroom, rfl, ?_⟩
        simp [Message.answer, readField_session]
    · exact .inl ⟨if_neg hm, handle_nextSession hm⟩
  | settle n r =>
    refine .inl ⟨rfl, ?_⟩
    unfold step
    dsimp only
    split
    · exact settle_nextSession
    · rfl
  | close => exact .inl ⟨rfl, close_nextSession⟩

/-! ## Whole runs -/

theorem run_issues (e : Engine) (ops : List (World × Op)) :
    (e.issues ops).Nodup ∧ (∀ id ∈ e.issues ops, e.issuedSession id = false) ∧
      ∀ id, (e.run ops).issuedSession id = true ↔
        e.issuedSession id = true ∨ id ∈ e.issues ops := by
  induction ops generalizing e with
  | nil => simp [issues, run]
  | cons op ops ih =>
    obtain ⟨w, op⟩ := op
    obtain ⟨hnodup, hnew, hall⟩ := ih (e.step w op).1
    rw [issues, run]
    obtain ⟨hret, hnext⟩ | ⟨hroom, hstep, hret⟩ := step_issues e w op
    · have hsame : (e.step w op).1.issuedSession = e.issuedSession := by
        funext id
        rw [issuedSession, issuedSession, hnext]
      rw [hsame] at hnew hall
      rw [hret]
      exact ⟨hnodup, hnew, hall⟩
    · rw [hstep] at hnodup hnew hall ⊢
      rw [hret]
      have hlater : ∀ id ∈ e.opened.issues ops,
          e.issuedSession id = false ∧ id ≠ sessionID (e.nextSession + 1) := by
        intro id hid
        have hnot := (opened_issued hroom).not.mp (Bool.not_eq_true _ ▸ hnew id hid)
        rwa [not_or, Bool.not_eq_true] at hnot
      refine ⟨?_, ?_, fun id => ?_⟩
      · exact List.nodup_cons.mpr ⟨fun hmem => (hlater _ hmem).2 rfl, hnodup⟩
      · intro id hid
        obtain rfl | hid := List.mem_cons.mp hid
        · exact issuedSession_next hroom
        · exact (hlater id hid).1
      · rw [hall, opened_issued hroom, or_assoc]
        exact or_congr_right List.mem_cons.symm

/-- An engine knows exactly the ids it has returned, and it returned each of them once. -/
theorem sessions_issued_once (name : Bytes) (onEvent : Bool) (ops : List (World × Op)) :
    ((new name onEvent).issues ops).Nodup ∧
      ∀ id, ((new name onEvent).run ops).issuedSession id = true ↔
        id ∈ (new name onEvent).issues ops := by
  obtain ⟨hnodup, -, hall⟩ := run_issues (new name onEvent) ops
  refine ⟨hnodup, fun id => (hall id).trans (or_iff_right ?_)⟩
  rw [issuedSession_iff]
  rintro ⟨n, hpos, hle, -⟩
  have : (new name onEvent).nextSession.toNat = 0 := rfl
  omega

end Aok.Protocol.Engine
