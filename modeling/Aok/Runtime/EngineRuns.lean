import Aok.Runtime.EngineHistory

/-!
# Runs of the engine

Every step of the engine is, for each session, a number of steps of that session's line, and it
keeps the history in order. So every run of the engine shows each client one life of a session.
-/

namespace Aok.Protocol.Engine
open Lib Lib.Utf8 Lib.JsonText Lib.JsonValue Aok.Runtime Relation List

variable {e e' e'' : Engine} {id j : Bytes} {s s' : EngineSession} {m : Message} {w : World}
variable {notes : List Note} {c : Option SessionCore} {f : EngineSession → EngineSession}

/-! ## Session ids -/

theorem sessionID_inj {a b : UInt64} (h : sessionID a = sessionID b) : a = b :=
  UInt64.toNat_inj.mp (dec_injective (append_cancel_left h))

theorem issuedSession_iff : e.issuedSession id = true ↔
    ∃ n : UInt64, 0 < n.toNat ∧ n.toNat ≤ e.nextSession.toNat ∧ id = sessionID n := by
  simp only [issuedSession, Bool.and_eq_true, decide_eq_true_eq]
  constructor
  · rintro ⟨⟨⟨⟨⟨⟨hname, -⟩, -⟩, hlt⟩, hpos⟩, hle⟩, hdec⟩
    have hn : (UInt64.ofNat (readDec (id.drop (lit "session-").length))).toNat =
        readDec (id.drop (lit "session-").length) := UInt64.toNat_ofNat_of_lt' hlt
    refine ⟨UInt64.ofNat (readDec (id.drop (lit "session-").length)), by rw [hn]; exact hpos,
      by rw [hn]; exact hle, ?_⟩
    rw [sessionID, hn, hdec]
    exact (prefix_iff_eq_append.mp ( isPrefixOf_iff_prefix.mp hname)).symm
  · rintro ⟨n, hpos, hle, rfl⟩
    have hdrop : (sessionID n).drop (lit "session-").length = dec n.toNat := drop_left
    have hread : readDec (dec n.toNat) = n.toNat := readDec_decFrom (Nat.lt_succ_self _)
    rw [hdrop, hread]
    exact ⟨⟨⟨⟨⟨⟨ isPrefixOf_iff_prefix.mpr (prefix_append _ _), dec_ne_nil _⟩,
      all_eq_true.mpr (isDigit_dec _)⟩, n.toNat_lt⟩, hpos⟩, hle⟩, rfl⟩

/-! ## The line of a session -/

def callsOf (e : Engine) (id : Bytes) : List Call := e.calls.filter fun c => c.sessionID = id

def notesOf (e : Engine) (id : Bytes) : List Note := e.log.filter fun n => n.session = id

def line (e : Engine) (id : Bytes) : Line :=
  ⟨e.core id, e.callsOf id, e.notesOf id, e.issuedSession id⟩

structure Advances (e e' : Engine) : Prop where
  lines : ∀ id, ReflTransGen (Line.Step e.onEvent id) (e.line id) (e'.line id)
  kept : Kept e'
  bounded : Bounded e'
  onEvent : e'.onEvent = e.onEvent

structure Sound (e : Engine) : Prop where
  kept : Kept e
  bounded : Bounded e
  good : ∀ id, (e.line id).Good e.onEvent id

theorem Advances.sound (h : Sound e) (ha : Advances e e') : Sound e' :=
  ⟨ha.kept, ha.bounded, fun id => by rw [ha.onEvent]; exact (h.good id).steps (ha.lines id)⟩

theorem Advances.trans (h : Advances e e') (h' : Advances e' e'') : Advances e e'' := by
  refine ⟨fun id => ?_, h'.kept, h'.bounded, h'.onEvent.trans h.onEvent⟩
  have hlater := h'.lines id
  rw [h.onEvent] at hlater
  exact (h.lines id).trans hlater

theorem Sound.refl (h : Sound e) : Advances e e := ⟨fun _ => .refl, h.kept, h.bounded, rfl⟩

theorem notesOf_append (hlog : e'.log = e.log ++ notes) :
    e'.notesOf j = e.notesOf j ++ notes.filter fun n => n.session = j := by
  rw [notesOf, hlog, filter_append]
  rfl

theorem Changes.advancesCalls {calls : List Call}
    (h : Changes id { e with calls := calls } e' c notes) (hk : Kept e') (hb : Bounded e')
    (hnotes : ∀ n ∈ notes, n.session = id)
    (hcalls : ∀ j, j ≠ id → calls.filter (fun c => c.sessionID = j) = e.callsOf j)
    (hline : ReflTransGen (Line.Step e.onEvent id) (e.line id)
      { e.line id with
        session := c
        calls := calls.filter fun c => c.sessionID = id
        notes := e.notesOf id ++ notes }) : Advances e e' := by
  refine ⟨fun j => ?_, hk, hb, h.onEvent⟩
  have hissued : e'.issuedSession j = e.issuedSession j := by
    rw [issuedSession, issuedSession, h.nextSession]
  have hlog : e'.log = e.log ++ notes := h.log
  by_cases hj : j = id
  · subst hj
    have hall : notes.filter (fun n => n.session = j) = notes :=
      filter_eq_self.mpr fun n hn => by simpa using hnotes n hn
    have heq : e'.line j = { e.line j with
        session := c
        calls := calls.filter fun c => c.sessionID = j
        notes := e.notesOf j ++ notes } := by
      rw [line, h.here, callsOf, h.calls, notesOf_append hlog, hall, hissued]
      rfl
    rw [heq]
    exact hline
  · have hnone : notes.filter (fun n => n.session = j) = [] :=
      filter_eq_nil_iff.mpr fun n hn => by simpa [hnotes n hn] using Ne.symm hj
    have hsame : e'.callsOf j = e.callsOf j := by rw [callsOf, h.calls, hcalls j hj]
    have heq : e'.line j = e.line j := by
      rw [line, h.elsewhere j hj, hsame, notesOf_append hlog, hnone, append_nil, hissued]
      rfl
    rw [heq]

theorem Changes.advances (h : Changes id e e' c notes) (hk : Kept e') (hb : Bounded e')
    (hnotes : ∀ n ∈ notes, n.session = id)
    (hline : ReflTransGen (Line.Step e.onEvent id) (e.line id)
      { e.line id with session := c, notes := e.notesOf id ++ notes }) : Advances e e' := by
  have hcalls : Changes id { e with calls := e.calls } e' c notes := h
  exact hcalls.advancesCalls hk hb hnotes (fun _ _ => rfl) hline

theorem line_session (hs : e.sessions[id]? = some s) : (e.line id).session = some s.toSessionCore :=
  core_of_get hs

theorem Changes.quiet (h : Changes id e e' c []) (hk : Kept e') (hb : Bounded e')
    (hline : ReflTransGen (Line.Step e.onEvent id) (e.line id) { e.line id with session := c }) :
    Advances e e' := by
  refine h.advances hk hb (by simp) ?_
  rw [append_nil]
  exact hline

theorem updateSession_set {c : SessionCore}
    (hs : e.sessions[id]? = some s) (hf : (f s).toSessionCore = c) :
    Changes id e (e.updateSession id f) (some c) [] := by
  refine ⟨?_, fun j hj => ?_, (append_nil _).symm, rfl, rfl, rfl, rfl⟩
  · rw [core, get_updateSession, if_pos rfl, hs, ← hf]
    rfl
  · rw [core, core, get_updateSession, if_neg (Ne.symm hj)]

/-! ## Opening -/

/-- The engine after a `session/new` that succeeds. -/
def opened (e : Engine) : Engine :=
  { e with
    nextSession := e.nextSession + 1
    sessions := e.sessions.insert (sessionID (e.nextSession + 1)) ⟨.fresh, 0, 0⟩ }

theorem newSession_cases (e : Engine) (m : Message) :
    (e.newSession m).1 = e ∧ (e.newSession m).2.error ≠ none ∨
      e.nextSession.toNat + 1 < 2 ^ 64 ∧ e.newSession m = (e.opened, m.answer
        (JsonText.object [member "session_id" (quote (sessionID (e.nextSession + 1)))])) := by
  unfold newSession
  split_ifs with hclosed hfull
  · exact .inl ⟨rfl, by simp [Message.refuse]⟩
  · exact .inl ⟨rfl, by simp [Message.refuse]⟩
  · exact .inr ⟨Line.toNat_lt_of_ne (not_or.mp hfull).2, rfl⟩

theorem issuedSession_next (hroom : e.nextSession.toNat + 1 < 2 ^ 64) :
    e.issuedSession (sessionID (e.nextSession + 1)) = false := by
  rw [← Bool.not_eq_true, issuedSession_iff]
  rintro ⟨n, -, hle, heq⟩
  rw [← sessionID_inj heq, Line.toNat_add_one hroom] at hle
  omega

theorem opened_issued (hroom : e.nextSession.toNat + 1 < 2 ^ 64) :
    e.opened.issuedSession j = true ↔
      e.issuedSession j = true ∨ j = sessionID (e.nextSession + 1) := by
  have hnext : e.opened.nextSession.toNat = e.nextSession.toNat + 1 := Line.toNat_add_one hroom
  rw [issuedSession_iff, issuedSession_iff, hnext]
  constructor
  · rintro ⟨n, hpos, hle, rfl⟩
    obtain hlast | hearlier := Nat.le_succ_iff_eq_or_le.mp hle
    · exact .inr (congrArg sessionID (UInt64.toNat_inj.mp (hlast.trans hnext.symm)))
    · exact .inl ⟨n, hpos, hearlier, rfl⟩
  · rintro (⟨n, hpos, hle, rfl⟩ | rfl)
    · exact ⟨n, hpos, by omega, rfl⟩
    · exact ⟨e.opened.nextSession, by omega, hnext.le, rfl⟩

theorem newSession_advances (h : Sound e) : Advances e (e.newSession m).1 := by
  obtain ⟨he, -⟩ | ⟨hroom, he⟩ := newSession_cases e m
  · rw [he]
    exact h.refl
  · rw [he]
    have hfresh := issuedSession_next hroom
    have hnone : e.sessions[sessionID (e.nextSession + 1)]? = none := by
      have := ((h.good _).sound.unissued hfresh).1
      simpa [line, core] using this
    refine ⟨fun j => ?_, open_kept h.kept hnone, ⟨h.bounded.session, h.bounded.engine,
      h.bounded.always⟩, rfl⟩
    have hissued := opened_issued (j := j) hroom
    by_cases hj : j = sessionID (e.nextSession + 1)
    · have heq : e.opened.line j = { e.line j with session := some .fresh, issued := true } := by
        rw [line, hissued.mpr (.inr hj), core, opened, hj, Table.get_insert_self]
        rfl
      rw [heq]
      exact .single (.opened (by rw [hj]; exact hfresh))
    · have hsame : e.opened.issuedSession j = e.issuedSession j := by
        rw [Bool.eq_iff_iff, hissued]
        exact or_iff_left hj
      have heq : e.opened.line j = e.line j := by
        rw [line, hsame, core, opened, Table.get_insert_ne _ _ (Ne.symm hj)]
        rfl
      rw [heq]

/-! ## Suspending and resuming -/

theorem suspend_advances (h : Sound e) (hs : e.sessions[id]? = some s) :
    Advances e (e.updateSession id fun s => { s with suspended := true }) := by
  refine (updateSession_set hs rfl).quiet (updateSession_kept h.kept fun _ => ⟨rfl, rfl, rfl⟩)
    ⟨h.bounded.session, h.bounded.engine, h.bounded.always⟩ (.single ?_)
  exact .suspended (line_session hs)

theorem replay_spec {l : List Message} {floor : ℕ} {delivered : UInt64}
    (hl : l.map (fun m => (eventSequence m).toNat) = range' (floor + 1) l.length)
    (hfrom : floor ≤ delivered.toNat) (hto : delivered.toNat ≤ floor + l.length) :
    ∃ taken refused : List Message, ∃ upTo : UInt64, ∃ ok : Bool,
      replay w id l delivered = (taken.map (Note.handed id · true) ++
        refused.map (Note.handed id · false), upTo, ok) ∧
      taken.map (fun m => (eventSequence m).toNat) =
        range' (delivered.toNat + 1) taken.length ∧
      upTo.toNat = delivered.toNat + taken.length ∧ upTo.toNat ≤ floor + l.length ∧
      (ok = true → upTo.toNat = floor + l.length) := by
  induction l generalizing floor delivered with
  | nil =>
    simp only [length_nil, Nat.add_zero] at hto
    exact ⟨[], [], delivered, true, rfl, rfl, rfl, hto, fun _ => le_antisymm hto hfrom⟩
  | cons m l ih =>
    rw [map_cons, length_cons, range'_succ, List.cons.injEq] at hl
    rw [length_cons] at hto
    obtain ⟨hm, hl⟩ := hl
    rw [length_cons]
    by_cases hle : eventSequence m ≤ delivered
    · have hle' := UInt64.le_iff_toNat_le.mp hle
      obtain ⟨taken, refused, upTo, ok, hr, htaken, hup, hbound, hok⟩ :=
        @ih (floor + 1) delivered hl (by omega) (by omega)
      exact ⟨taken, refused, upTo, ok, by rw [replay, if_pos hle, hr], htaken, hup, by omega,
        fun h => by have := hok h; omega⟩
    · have hlt : delivered.toNat < (eventSequence m).toNat := by
        rw [UInt64.le_iff_toNat_le] at hle
        omega
      by_cases hacc : w.accepts m = true
      · obtain ⟨taken, refused, upTo, ok, hr, htaken, hup, hbound, hok⟩ :=
          @ih (floor + 1) (eventSequence m) hl (by omega) (by omega)
        refine ⟨m :: taken, refused, upTo, ok, by rw [replay, if_neg hle, if_pos hacc, hr]; rfl,
          ?_, ?_, by omega, fun h => by have := hok h; omega⟩
        · rw [map_cons, htaken, length_cons, range'_succ]
          congr 1
          · omega
          · congr 1
            omega
        · rw [length_cons]
          omega
      · exact ⟨[], [m], delivered, false, by rw [replay, if_neg hle, if_neg hacc]; rfl, rfl, rfl,
          by omega, by simp⟩

theorem flushSession_changes (hk : Kept e) (hb : Bounded e) (hs : e.sessions[id]? = some s)
    (hdel : s.deliveredSeq.toNat ≤ s.eventSeq.toNat) :
    ∃ taken refused : List Message, ∃ upTo : UInt64,
      Changes id e (e.flushSession w id s).1
        (some { s.toSessionCore with deliveredSeq := upTo })
        (taken.map (Note.handed id · true) ++ refused.map (Note.handed id · false)) ∧
      Kept (e.flushSession w id s).1 ∧ Bounded (e.flushSession w id s).1 ∧
      taken.map (fun m => (eventSequence m).toNat) =
        range' (s.deliveredSeq.toNat + 1) taken.length ∧
      upTo.toNat = s.deliveredSeq.toNat + taken.length ∧ upTo.toNat ≤ s.eventSeq.toNat ∧
      (e.onEvent = true → (e.flushSession w id s).2 = none → upTo = s.eventSeq) := by
  unfold flushSession
  split_ifs with hdone hexpired
  · refine ⟨[], [], s.deliveredSeq, ⟨core_of_get hs, fun _ _ => rfl, (append_nil _).symm, rfl,
      rfl, rfl, rfl⟩, hk, hb, rfl, rfl, hdel, fun ho _ => ?_⟩
    simpa [ho] using hdone
  · exact ⟨[], [], s.deliveredSeq, ⟨core_of_get hs, fun _ _ => rfl, (append_nil _).symm, rfl,
      rfl, rfl, rfl⟩, hk, hb, rfl, rfl, hdel, by simp⟩
  · have hnum := hk.numbers id s hs
    have hfloor : s.historyFloor.toNat ≤ s.deliveredSeq.toNat := by
      rw [UInt64.lt_iff_toNat_lt] at hexpired
      omega
    have hto : s.deliveredSeq.toNat ≤ s.historyFloor.toNat + (e.history id).length := by
      rw [hnum.upTo]
      exact hdel
    obtain ⟨taken, refused, upTo, ok, hr, htaken, hup, hbound, hok⟩ :=
      @replay_spec id w _ _ _ hnum.each hfloor hto
    rw [hnum.upTo] at hbound hok
    have hset : Kept (e.updateSession id fun s => { s with deliveredSeq := upTo }) :=
      updateSession_kept hk fun _ => ⟨rfl, rfl, rfl⟩
    refine ⟨taken, refused, upTo, ?_, ?_, ?_, htaken, hup, hbound, fun _ hnone => ?_⟩
    · rw [hr]
      have hchange : Changes id e (e.updateSession id fun s => { s with deliveredSeq := upTo })
          (some { s.toSessionCore with deliveredSeq := upTo }) [] := updateSession_set hs rfl
      exact ⟨hchange.here, hchange.elsewhere, rfl, rfl, rfl, rfl, rfl⟩
    · rw [hr]
      exact ⟨hset.bytes, hset.numbers, hset.owned, hset.total⟩
    · exact ⟨hb.session, hb.engine, hb.always⟩
    · rw [hr] at hnone
      refine UInt64.toNat_inj.mp (hok ?_)
      by_contra hf
      simp [hf] at hnone

theorem resume_advances (h : Sound e) (hs : e.sessions[id]? = some s) :
    Advances e (e.resume w m id s).1 := by
  have hle := ((h.good id).delivered.live _ (line_session hs)).le
  have hopen : Changes id e (e.updateSession id fun s => { s with suspended := false })
      (some { s.toSessionCore with suspended := false }) [] := updateSession_set hs rfl
  have hk : Kept (e.updateSession id fun s => { s with suspended := false }) :=
    updateSession_kept h.kept fun _ => ⟨rfl, rfl, rfl⟩
  have hget : (e.updateSession id fun s => { s with suspended := false }).sessions[id]? =
      some { s with suspended := false } := by
    rw [get_updateSession, if_pos rfl, hs]
    rfl
  obtain ⟨taken, refused, upTo, hflush, hk', hb', htaken, hup, hbound, hdone⟩ :=
    @flushSession_changes _ id { s with suspended := false } w hk
      ⟨h.bounded.session, h.bounded.engine, h.bounded.always⟩ hget hle
  have hnotes : ∀ n ∈ taken.map (Note.handed id · true) ++ refused.map (Note.handed id · false),
      n.session = id := by
    intro n hn
    simp only [mem_append, mem_map] at hn
    rcases hn with ⟨m, -, rfl⟩ | ⟨m, -, rfl⟩ <;> rfl
  have hstep : ∀ suspended, (e.onEvent = true → suspended = false → upTo = s.eventSeq) →
      Line.Step e.onEvent id (e.line id) { e.line id with
        session := some { s.toSessionCore with deliveredSeq := upTo, suspended := suspended }
        notes := e.notesOf id ++
          (taken.map (Note.handed id · true) ++ refused.map (Note.handed id · false)) } :=
    fun _ hcur => .resumed (line_session hs) htaken hup hbound hcur
  have hchange := hopen.trans hflush
  rw [nil_append] at hchange
  unfold resume
  dsimp only
  split
  next e₁ err heq =>
    rw [heq] at hchange hk' hb'
    obtain ⟨t, ht, hcore⟩ := Option.map_eq_some_iff.mp hchange.here
    have hagain : Changes id e₁ (e₁.updateSession id fun s => { s with suspended := true })
        (some { s.toSessionCore with deliveredSeq := upTo, suspended := true }) [] :=
      updateSession_set ht (by
        change { t.toSessionCore with suspended := true } = _
        rw [hcore])
    have hall := hchange.trans hagain
    rw [append_nil] at hall
    exact hall.advances (updateSession_kept hk' fun _ => ⟨rfl, rfl, rfl⟩)
      ⟨hb'.session, hb'.engine, hb'.always⟩ hnotes (.single (hstep true (by simp)))
  next e₁ heq =>
    rw [heq] at hchange hk' hb' hdone
    exact hchange.advances hk' hb' hnotes (.single (hstep false fun ho _ => hdone ho rfl))

/-! ## Aborting and closing -/

theorem release_advances (h : Sound e) (hs : e.sessions[id]? = some s) (hr : s.running = false)
    (hf : ∀ s, (f s).historyBytes = s.historyBytes ∧ (f s).historyFloor = s.historyFloor ∧
      (f s).eventSeq = s.eventSeq) : Advances e ((e.updateSession id f).releaseSession id) := by
  have hk : Kept (e.updateSession id f) := updateSession_kept h.kept hf
  have hb : Bounded (e.updateSession id f) :=
    ⟨h.bounded.session, h.bounded.engine, h.bounded.always⟩
  have hget : (e.updateSession id f).sessions[id]? = some (f s) := by
    rw [get_updateSession, if_pos rfl, hs]
    rfl
  have hchange := (updateSession_set (f := f) hs rfl).trans releaseSession_changes
  exact hchange.quiet (releaseSession_kept hk hget) (releaseSession_bounded hb hk hget)
    (.single (.released (line_session hs) hr))

theorem cancel_advances (h : Sound e) (hs : e.sessions[id]? = some s) (hr : s.running = true)
    (close : Bool)
    (hf : ∀ s, (f s).historyBytes = s.historyBytes ∧ (f s).historyFloor = s.historyFloor ∧
      (f s).eventSeq = s.eventSeq)
    (hset : (f s).toSessionCore =
      { s.toSessionCore with cancelled := true, closed := close || s.closed }) :
    Advances e (e.updateSession id f) :=
  (updateSession_set hs hset).quiet (updateSession_kept h.kept hf)
    ⟨h.bounded.session, h.bounded.engine, h.bounded.always⟩
    (.single (.cancelled (line_session hs) hr))

theorem abort_advances (h : Sound e) (hs : e.sessions[id]? = some s) (close : Bool) :
    Advances e (e.abort m close id s).1 := by
  unfold abort
  dsimp only
  split_ifs with hrelease
  · simp only [Bool.and_eq_true, Bool.not_eq_true'] at hrelease
    exact release_advances h hs hrelease.2 fun _ => ⟨rfl, rfl, rfl⟩
  · cases hr : s.running with
    | true =>
      have hcancel : (s.running || s.cancelled) = true := by rw [hr, Bool.true_or]
      exact cancel_advances h hs hr close (fun _ => ⟨rfl, rfl, rfl⟩) (by rw [hcancel])
    | false =>
      have hopen : (close || s.closed) = false := by simpa [hr] using hrelease
      have hcancel : (s.running || s.cancelled) = s.cancelled := by rw [hr, Bool.false_or]
      have hclosed : (close || s.closed) = s.closed :=
        hopen.trans (Bool.or_eq_false_iff.mp hopen).2.symm
      have hsame : Changes id e (e.updateSession id fun s =>
          { s with cancelled := s.running || s.cancelled, closed := close || s.closed })
          (some s.toSessionCore) [] := updateSession_set hs (by rw [hcancel, hclosed])
      rw [← core_of_get hs] at hsame
      exact hsame.quiet (updateSession_kept h.kept fun _ => ⟨rfl, rfl, rfl⟩)
        ⟨h.bounded.session, h.bounded.engine, h.bounded.always⟩ .refl

/-! ## Turns -/

theorem prompt_advances (h : Sound e) {p : Params} (hs : e.sessions[p.sessionID]? = some s)
    (hnew : p.requestID ≠ [] → s.requests[requestKey p.requestID]? = none) :
    Advances e (e.prompt w m p s).1 := by
  unfold prompt
  split_ifs with hclosed hsus hr hfull hseq
  · exact h.refl
  · exact h.refl
  · exact h.refl
  · exact h.refl
  · exact h.refl
  · rw [not_or, UInt64.not_lt] at hseq
    have hroom := Line.toNat_le_of_roomy hseq.2
    set f : EngineSession → EngineSession := fun s =>
      { s with cancelled := false, running := true, turn := s.turn + 1 }
    have hbegin : Changes p.sessionID e (e.updateSession p.sessionID f)
        (some s.toSessionCore.begin) [] := updateSession_set hs rfl
    have hk : Kept (e.updateSession p.sessionID f) :=
      updateSession_kept h.kept fun _ => ⟨rfl, rfl, rfl⟩
    have hb : Bounded (e.updateSession p.sessionID f) :=
      ⟨h.bounded.session, h.bounded.engine, h.bounded.always⟩
    have hget : (e.updateSession p.sessionID f).sessions[p.sessionID]? = some (f s) := by
      rw [get_updateSession, if_pos rfl, hs]
      rfl
    have hemit : Changes p.sessionID e ((e.updateSession p.sessionID f).emit w p.sessionID .started)
        (some (s.toSessionCore.begin.emit e.onEvent p.sessionID w.accepts .started).1)
        (s.toSessionCore.begin.emit e.onEvent p.sessionID w.accepts .started).2 :=
      hbegin.trans (emit_changes hget .started)
    have hk' : Kept ((e.updateSession p.sessionID f).emit w p.sessionID .started) :=
      emit_kept hk hget (by change s.eventSeq.toNat + 1 < _; omega) _
    have hb' : Bounded ((e.updateSession p.sessionID f).emit w p.sessionID .started) :=
      emit_bounded hb hk hget (by change s.eventSeq.toNat + 1 < _; omega) _
    set e₁ := (e.updateSession p.sessionID f).emit w p.sessionID .started
    set call : Call := ⟨m.id, p.sessionID, p.text, p.requestID⟩
    have hall : Changes p.sessionID { e with calls := e.calls ++ [call] }
        ({ e₁ with calls := e₁.calls ++ [call] }.note (.called p.sessionID p.requestID))
        (some (s.toSessionCore.begin.emit e.onEvent p.sessionID w.accepts .started).1)
        ((s.toSessionCore.begin.emit e.onEvent p.sessionID w.accepts .started).2 ++
          [.called p.sessionID p.requestID]) := by
      refine ⟨hemit.here, hemit.elsewhere, ?_, ?_, hemit.nextSession, hemit.onEvent, hemit.closed⟩
      · rw [note, ← append_assoc, hemit.log]
      · rw [note, hemit.calls]
    refine hall.advancesCalls ⟨hk'.bytes, hk'.numbers, hk'.owned, hk'.total⟩
      ⟨hb'.session, hb'.engine, hb'.always⟩ ?_ (fun j hj => ?_) (.single ?_)
    · intro n hn
      rcases mem_append.mp hn with hn | hn
      · obtain ⟨m, rfl | ⟨ok, rfl⟩⟩ := SessionCore.emit_notes n hn <;> rfl
      · obtain rfl := mem_singleton.mp hn
        rfl
    · simp [callsOf, call, Ne.symm hj]
    · have hcalls : (e.calls ++ [call]).filter (fun c => c.sessionID = p.sessionID) =
          e.callsOf p.sessionID ++ [call] := by
        simp [callsOf, call]
      rw [hcalls]
      exact .started (line_session hs) (by simpa using hclosed) (by simpa using hr)
        (fun hne => ⟨by simpa [call, hne] using fun h => hfull ⟨hne, h⟩, hnew hne⟩) hseq.1 hseq.2

theorem filter_eraseIdx {α : Type} {l : List α} {n : ℕ} {c : α} (h : l[n]? = some c)
    (p : α → Bool) : l.filter p = (l.take n).filter p ++ (if p c then [c] else []) ++
      (l.drop (n + 1)).filter p ∧
    (l.eraseIdx n).filter p = (l.take n).filter p ++ (l.drop (n + 1)).filter p := by
  obtain ⟨hn, rfl⟩ := List.getElem?_eq_some_iff.mp h
  refine ⟨?_, by rw [eraseIdx_eq_take_drop_succ, filter_append]⟩
  have hsplit : l = l.take n ++ l[n] :: l.drop (n + 1) := by simp
  conv_lhs => rw [hsplit, filter_append, filter_cons]
  split_ifs <;> simp

theorem Sound.session_of_call (h : Sound e) {c : Call} (hc : c ∈ e.calls) :
    ∃ s, e.sessions[c.sessionID]? = some s ∧ s.running = true ∧ e.callsOf c.sessionID = [c] := by
  have hgood := (h.good c.sessionID).sound
  have hmem : c ∈ e.callsOf c.sessionID := by simpa [callsOf] using hc
  cases hs : e.sessions[c.sessionID]? with
  | none =>
    have hgone : e.callsOf c.sessionID = [] := hgood.gone (by
      rw [line, core, hs]
      rfl)
    rw [hgone] at hmem
    cases hmem
  | some s =>
    cases hr : s.running with
    | false =>
      have hidle : e.callsOf c.sessionID = [] := (hgood.idle _ (line_session hs) hr).1
      rw [hidle] at hmem
      cases hmem
    | true =>
      obtain ⟨c', hc'⟩ := hgood.busy _ (line_session hs) hr
      rw [show (e.line c.sessionID).calls = e.callsOf c.sessionID from rfl] at hc'
      rw [hc', mem_singleton] at hmem
      exact ⟨s, rfl, hr, by rw [hc', hmem]⟩

theorem settle_advances (h : Sound e) {n : ℕ} {c : Call} (hc : e.calls[n]? = some c)
    (r : Outcome) :
    Advances e ({ e with calls := e.calls.eraseIdx n }.settle w c r).1 := by
  obtain ⟨s, hs, hr, honly⟩ := h.session_of_call (mem_of_getElem? hc)
  have hroom := (h.good _).sound.room _ (line_session hs) hr
  have hnone : (e.calls.eraseIdx n).filter (fun x => x.sessionID = c.sessionID) = [] := by
    obtain ⟨hall, hrest⟩ := filter_eraseIdx hc fun x => x.sessionID = c.sessionID
    rw [hrest]
    have hlen := congrArg length hall
    rw [show e.calls.filter (fun x => x.sessionID = c.sessionID) = [c] from honly] at hlen
    refine eq_nil_of_length_eq_zero ?_
    simp only [decide_true, if_true, length_append, length_singleton] at hlen ⊢
    omega
  have hothers : ∀ j, j ≠ c.sessionID →
      (e.calls.eraseIdx n).filter (fun x => x.sessionID = j) = e.callsOf j := by
    intro j hj
    obtain ⟨hall, hrest⟩ := filter_eraseIdx hc fun x => x.sessionID = j
    rw [hrest, callsOf, hall]
    simp [Ne.symm hj]
  set e₀ : Engine := { e with calls := e.calls.eraseIdx n }
  have hs₀ : e₀.sessions[c.sessionID]? = some s := hs
  rw [settle, hs₀]
  dsimp only
  set ledger := (r.account s.toSessionCore).1
  set reason := (r.account s.toSessionCore).2
  set response : Message :=
    ⟨c.id, [], [], JsonText.object [member "stop_reason" (quote reason.text)], none⟩
  have hlen := Line.events_length r reason
  have hbook : Changes c.sessionID e₀
      (e₀.updateSession c.sessionID fun s => { s with ledger := ledger })
      (some (s.toSessionCore.book ledger)) [] := updateSession_set hs₀ rfl
  have hget : (e₀.updateSession c.sessionID fun s => { s with ledger := ledger }).sessions[
      c.sessionID]? = some { s with ledger := ledger } := by
    rw [get_updateSession, if_pos rfl, hs₀]
    rfl
  have hk₀ : Kept (e₀.updateSession c.sessionID fun s => { s with ledger := ledger }) :=
    updateSession_kept (e := e₀) ⟨h.kept.bytes, h.kept.numbers, h.kept.owned, h.kept.total⟩
      fun _ => ⟨rfl, rfl, rfl⟩
  obtain ⟨hk, hb, hemits⟩ := emits_changes (w := w) hk₀
    ⟨h.bounded.session, h.bounded.engine, h.bounded.always⟩ hget
    (show s.eventSeq.toNat + (r.events reason).length < _ by omega)
  set e₁ := (r.events reason).foldl (fun e event => e.emit w c.sessionID event)
    (e₀.updateSession c.sessionID fun s => { s with ledger := ledger })
  obtain ⟨t, ht, hcore⟩ := Option.map_eq_some_iff.mp hemits.here
  have hfinish : Changes c.sessionID e₁ (e₁.updateSession c.sessionID fun s => { s with
        toSessionCore := { remember c.requestID response s.toSessionCore with
          running := false, cancelled := false } })
      (some (t.toSessionCore.finish c.requestID response)) [] := updateSession_set ht rfl
  set e₂ := e₁.updateSession c.sessionID fun s => { s with
    toSessionCore := { remember c.requestID response s.toSessionCore with
      running := false, cancelled := false } }
  have hk₂ : Kept e₂ := updateSession_kept hk fun s =>
    ⟨rfl, rfl, s.toSessionCore.finish_eventSeq c.requestID response⟩
  have hb₂ : Bounded e₂ := ⟨hb.session, hb.engine, hb.always⟩
  have hget₂ : e₂.sessions[c.sessionID]? = some { t with
      toSessionCore := t.toSessionCore.finish c.requestID response } := by
    rw [get_updateSession, if_pos rfl, ht]
    rfl
  have hall := ((hbook.trans hemits).trans hfinish).trans
    (note_changes e₂ c.sessionID (.settled c.sessionID c.requestID response))
  rw [hfinish.here, hcore, append_nil, nil_append] at hall
  have hnotes : ∀ n ∈ ((s.toSessionCore.book ledger).emits e.onEvent c.sessionID w.accepts
      (r.events reason)).2 ++ [.settled c.sessionID c.requestID response],
      n.session = c.sessionID := by
    intro n hn
    rcases mem_append.mp hn with hn | hn
    · obtain ⟨m, rfl | ⟨ok, rfl⟩⟩ := SessionCore.emits_notes n hn <;> rfl
    · obtain rfl := mem_singleton.mp hn
      rfl
  have hstep : Line.Step e.onEvent c.sessionID (e.line c.sessionID) { e.line c.sessionID with
      session := if s.closed then none
        else some (((s.toSessionCore.book ledger).emits e.onEvent c.sessionID w.accepts
          (r.events reason)).1.finish c.requestID response)
      calls := []
      notes := e.notesOf c.sessionID ++ (((s.toSessionCore.book ledger).emits e.onEvent
        c.sessionID w.accepts (r.events reason)).2 ++
          [.settled c.sessionID c.requestID response]) } := .settled (line_session hs) honly
  split_ifs with hclosed
  · rw [if_pos hclosed] at hstep
    refine (hall.trans releaseSession_changes).advancesCalls
      (releaseSession_kept (note_kept hk₂ _) hget₂)
      (releaseSession_bounded ⟨hb₂.session, hb₂.engine, hb₂.always⟩ (note_kept hk₂ _) hget₂)
      (by rw [append_nil]; exact hnotes) hothers (.single ?_)
    rw [hnone, append_nil]
    exact hstep
  · rw [if_neg hclosed] at hstep
    refine hall.advancesCalls (note_kept hk₂ _) ⟨hb₂.session, hb₂.engine, hb₂.always⟩ hnotes
      hothers (.single ?_)
    rw [hnone]
    exact hstep

/-! ## Whole runs -/

theorem handle_advances (h : Sound e) (w : World) (m : Message) : Advances e (e.handle w m).1 := by
  unfold handle
  split
  · exact h.refl
  · exact h.refl
  · exact h.refl
  · exact newSession_advances h
  · split
    · exact h.refl
    · split_ifs
      · exact h.refl
      · split
        · exact h.refl
        next p _ s hs =>
          unfold handleSession
          split
          · exact suspend_advances h hs
          · exact resume_advances h hs
          · exact abort_advances (m := m) h hs false
          · exact abort_advances (m := m) h hs true
          · split
            · exact h.refl
            next hprior => exact prompt_advances h hs fun hne => by simpa [hne] using hprior

theorem closeSession_advances (h : Sound e) (id : Bytes) : Advances e (e.closeSession id) := by
  unfold closeSession
  split
  next s hs =>
    dsimp only
    split_ifs with hr
    · have hcancel : (s.running || s.cancelled) = true := by rw [hr, Bool.true_or]
      exact cancel_advances h hs hr true (fun _ => ⟨rfl, rfl, rfl⟩) (by rw [hcancel]; rfl)
    · exact release_advances h hs (by simpa using hr) fun _ => ⟨rfl, rfl, rfl⟩
  · exact h.refl

theorem close_advances (h : Sound e) : Advances e e.close := by
  have hmark : Advances e { e with closed := true } :=
    ⟨fun _ => .refl, ⟨h.kept.bytes, h.kept.numbers, h.kept.owned, h.kept.total⟩,
      ⟨h.bounded.session, h.bounded.engine, h.bounded.always⟩, rfl⟩
  have hfold : ∀ (ids : List Bytes) (e : Engine), Sound e →
      Advances e (ids.foldl closeSession e) := by
    intro ids
    induction ids with
    | nil => exact fun e h => h.refl
    | cons id ids ih =>
      intro e h
      have hfirst := closeSession_advances h id
      exact hfirst.trans (ih _ (hfirst.sound h))
  exact hmark.trans (hfold _ _ (hmark.sound h))

theorem step_advances (h : Sound e) (w : World) (op : Op) : Advances e (e.step w op).1 := by
  cases op with
  | handle m => exact handle_advances h w m
  | settle n r =>
    unfold step
    dsimp only
    split
    next c hc => exact settle_advances h hc r
    next => exact h.refl
  | close => exact close_advances h

theorem run_sound (h : Sound e) (ops : List (World × Op)) : Sound (e.run ops) := by
  induction ops generalizing e with
  | nil => exact h
  | cons op ops ih => exact ih ((step_advances h op.1 op.2).sound h)

theorem new_sound (name : Bytes) (onEvent : Bool) : Sound (new name onEvent) := by
  refine ⟨⟨by simp [new], by simp [new], by simp [new], by simp [new, held]⟩,
    ⟨fun id => ?_, by simp [new, maxEngineHistoryBytes], by simp [new]⟩, fun id => ?_⟩
  · exact ⟨by simp [history, new], by simp [history, new, maxHistoryBytes]⟩
  · have hline : (new name onEvent).line id = ⟨none, [], [], false⟩ := by
      have hissued : (new name onEvent).issuedSession id = false := by
        rw [← Bool.not_eq_true, issuedSession_iff]
        rintro ⟨n, hpos, hle, -⟩
        have : (new name onEvent).nextSession.toNat = 0 := rfl
        omega
      simp [line, core, callsOf, notesOf, hissued]
      simp [new]
    rw [hline]
    exact Line.good_empty

end Aok.Protocol.Engine
