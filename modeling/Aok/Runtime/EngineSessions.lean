import Aok.Runtime.EngineRuns

/-!
# What every run of the engine guarantees

The history is counted and bounded, a client is handed the events of a session in order, the
events of a session fall into turns, and a request is put to the provider once.
-/

namespace Aok.Protocol.Engine
open Lib Lib.Utf8 Lib.JsonText Lib.JsonValue Aok.Runtime

variable {e : Engine} {id : Bytes} {s : EngineSession} {m : Message} {w : World} {p : Params}

namespace Sample

def willing : World := ⟨fun _ => true, fun _ => []⟩

def unwilling : World := ⟨fun _ => false, fun _ => []⟩

def request (method params : String) : Message := ⟨lit "7", lit method, lit params, [], none⟩

def asked : Message := request "session/prompt"
  "\x7b\"session_id\":\"session-1\",\"text\":\"hello\",\"request_id\":\"r\"\x7d"

example : Params.read asked.params = some ⟨lit "session-1", lit "hello", lit "r"⟩ := by
  decide +kernel

def answered : Outcome := ⟨lit "hi", ⟨1, 2, 0⟩, none⟩

def turn : List (World × Op) :=
  [(willing, .handle (request "session/new" "")), (unwilling, .handle asked),
    (willing, .settle 0 answered)]

def closing : World × Op :=
  (willing, .handle (request "session/close" "\x7b\"session_id\":\"session-1\"\x7d"))

def resuming : Message := request "session/resume" "\x7b\"session_id\":\"session-1\"\x7d"

theorem turn_live :
    (((new (lit "echo") true).run turn).sessions[lit "session-1"]?).isSome = true := by
  decide +kernel

theorem turn_settled : Note.settled (lit "session-1") (lit "r")
    (asked.answer (lit "\x7b\"stop_reason\":\"completed\"\x7d")) ∈
      ((new (lit "echo") true).run turn).log := by
  decide +kernel

example : Params.read resuming.params = some ⟨lit "session-1", [], []⟩ := by decide +kernel

end Sample

open Sample

/-! ## History -/

theorem sum_bytes (l : List Message) :
    (l.map fun m => (m.params.length : ℤ)).sum = (bytesOf l : ℤ) := by
  induction l with
  | nil => rfl
  | cons m l ih => rw [List.map_cons, List.sum_cons, ih, bytesOf_cons, Nat.cast_add]

theorem Kept.sum_sessions (h : Kept e) :
    e.historyBytes = (e.sessions.toList.map fun p => p.2.historyBytes).sum := by
  have hmap : (e.sessions.toList.map fun p => p.2.historyBytes) =
      (e.sessions.toList.map fun p => ((bytesOf (e.history p.1) : ℕ) : ℤ)) := by
    refine List.map_congr_left fun p hp => ?_
    exact h.bytes p.1 p.2 (Std.ExtTreeMap.mem_toList_iff_getElem?_eq_some.mp hp)
  rw [h.total, hmap, held, Table.total, Nat.cast_list_sum, List.map_map]
  rfl

theorem Sound.sessions_empty (h : Sound e)
    (hclosed : ∀ (id : Bytes) s, e.sessions[id]? = some s → s.closed = true)
    (hcalls : e.calls = []) (id : Bytes) : e.sessions[id]? = none := by
  cases hs : e.sessions[id]? with
  | none => rfl
  | some s =>
    have hsound := (h.good id).sound
    have hnone : (e.line id).calls = [] := by rw [line, callsOf, hcalls]; rfl
    cases hr : s.running with
    | true =>
      obtain ⟨c, hc⟩ := hsound.busy _ (line_session hs) hr
      rw [hnone] at hc
      cases hc
    | false =>
      have hopen := (hsound.idle _ (line_session hs) hr).2
      rw [hclosed id s hs] at hopen
      cases hopen

theorem history_counted (name : Bytes) (onEvent : Bool) (ops : List (World × Op)) :
    let e := (new name onEvent).run ops
    (∀ (id : Bytes) s, e.sessions[id]? = some s →
      s.historyBytes = ((e.history id).map fun m => (m.params.length : ℤ)).sum ∧
      s.historyFloor.toNat ≤ s.eventSeq.toNat ∧
      (e.history id).map (fun m => (eventSequence m).toNat) =
        List.range' (s.historyFloor.toNat + 1) (s.eventSeq.toNat - s.historyFloor.toNat) ∧
      (e.history id).length ≤ 256 ∧ s.historyBytes ≤ 2 * 2 ^ 20) ∧
    e.historyBytes = (e.sessions.toList.map fun p => p.2.historyBytes).sum ∧
    e.historyBytes ≤ 16 * 2 ^ 20 ∧
    (∀ r ∈ e.retentions, r.events ≤ 256 ∧ r.bytes ≤ 2 * 2 ^ 20 ∧ r.total ≤ 16 * 2 ^ 20) ∧
    (∀ (id : Bytes) (w : World) (e' : Engine),
      Loop.Ends (sessionFull id) (evictOldest id) e' (e'.trimSession id) ∧
      Loop.Ends (engineFull w) (evictLargest w) e' (e'.trimEngine w)) ∧
    ((∀ (id : Bytes) s, e.sessions[id]? = some s → s.closed = true) → e.calls = [] →
      e.historyBytes = 0 ∧ ∀ id : Bytes, e.events[id]? = none) := by
  intro e
  have h : Sound e := run_sound (new_sound name onEvent) ops
  refine ⟨fun id s hs => ?_, h.kept.sum_sessions, h.bounded.engine, h.bounded.always,
    fun id w e' => ⟨ends_trimSession e' id, ends_trimEngine w e'⟩, fun hclosed hcalls => ?_⟩
  · have hup := (h.kept.numbers id s hs).upTo
    have hlen : s.eventSeq.toNat - s.historyFloor.toNat = (e.history id).length := by omega
    have hwithin := h.bounded.session id
    refine ⟨?_, by omega, ?_, hwithin.1, ?_⟩
    · rw [sum_bytes, h.kept.bytes id s hs]
    · rw [hlen]
      exact (h.kept.numbers id s hs).each
    · rw [h.kept.bytes id s hs]
      exact hwithin.2
  · have hempty := h.sessions_empty hclosed hcalls
    refine ⟨?_, fun id => h.kept.owned id (hempty id)⟩
    have hnone : ∀ (id : Bytes) s, e.sessions[id]? = some s → e.history id = [] := by
      intro id s hs
      rw [hempty id] at hs
      cases hs
    rw [h.kept.total, held_eq_zero hnone]
    rfl

theorem history_counted_closed :
    ((new (lit "echo") true).run (turn ++ [closing])).retentions.length = 4 ∧
      ((new (lit "echo") true).run (turn ++ [closing])).historyBytes = 0 := by
  have hempty : ((new (lit "echo") true).run
      (turn ++ [closing])).sessions.isEmpty = true := by decide +kernel
  refine ⟨by decide +kernel, ?_⟩
  refine ((history_counted (lit "echo") true (turn ++ [closing])).2.2.2.2.2
    (fun id s hs => ?_) (List.eq_nil_of_length_eq_zero (by decide +kernel))).1
  rw [Std.ExtTreeMap.isEmpty_iff.mp hempty] at hs
  simp at hs

/-! ## Delivery -/

theorem handle_session {method : SessionMethod}
    (hmethod : Method.read m.method = some (.session method)) (hp : Params.read m.params = some p)
    (hlimits : p.requestID.length ≤ maxRequestIDBytes ∧ p.text.length ≤ maxTextBytes)
    (hs : e.sessions[p.sessionID]? = some s) :
    e.handle w m = e.handleSession w m method p s := by
  have hwithin : ¬ (maxRequestIDBytes < p.requestID.length ∨ maxTextBytes < p.text.length) := by
    omega
  rw [handle, hmethod]
  dsimp only
  rw [hp]
  dsimp only
  rw [if_neg hwithin, hs]

theorem run_onEvent (h : Sound e) (ops : List (World × Op)) :
    (e.run ops).onEvent = e.onEvent := by
  induction ops generalizing e with
  | nil => rfl
  | cons op ops ih =>
    have hstep := step_advances h op.1 op.2
    exact (ih (hstep.sound h)).trans hstep.onEvent

theorem Sound.accepted_length (h : Sound e) (hs : e.sessions[id]? = some s) :
    (accepted (e.notesOf id)).length = s.deliveredSeq.toNat := by
  have htaken : (accepted (e.notesOf id)).map (fun m => (eventSequence m).toNat) = _ :=
    ((h.good id).delivered.live _ (line_session hs)).taken
  simpa using congrArg List.length htaken

theorem Sound.emitted_length (h : Sound e) (hs : e.sessions[id]? = some s) :
    (emitted (e.notesOf id)).length = s.eventSeq.toNat := by
  obtain ⟨turns, current, hspoken⟩ := (h.good id).spoken
  exact (hspoken.length _ (line_session hs)).symm

theorem Kept.exists_event (h : Kept e) (hs : e.sessions[id]? = some s) {n : ℕ}
    (hfloor : s.historyFloor.toNat ≤ n) (hn : n < s.eventSeq.toNat) :
    ∃ event ∈ e.history id, (eventSequence event).toNat = n + 1 := by
  have hnum := h.numbers id s hs
  have hup := hnum.upTo
  have hmem : n + 1 ∈ (e.history id).map fun m => (eventSequence m).toNat := by
    rw [hnum.each, List.mem_range'_1]
    omega
  obtain ⟨event, hevent, heq⟩ := List.mem_map.mp hmem
  exact ⟨event, hevent, heq⟩

theorem resume_expired (ho : e.onEvent = true) (hne : s.deliveredSeq ≠ s.eventSeq)
    (hfloor : s.deliveredSeq < s.historyFloor) :
    (e.resume w m id s).2 = m.refuse (-32004) "event history expired" ∧
      (e.resume w m id s).1.log = e.log := by
  have hflush : (e.updateSession id fun s => { s with suspended := false }).flushSession w id
      { s with suspended := false } =
      (e.updateSession id fun s => { s with suspended := false }, some .historyExpired) := by
    have hopen : ¬ (!e.onEvent || decide (s.deliveredSeq = s.eventSeq)) = true := by
      simpa [ho] using hne
    exact (if_neg hopen).trans (if_pos hfloor)
  rw [resume, hflush]
  exact ⟨rfl, rfl⟩

/-- A resume in an engine with a transport: the first event the client lacks is still retained, or
the client lacks none, or nothing is handed over and the answer says that history has expired. -/
theorem delivered_in_order (name : Bytes) (onEvent : Bool) (ops : List (World × Op)) :
    let e := (new name onEvent).run ops
    ∀ id : Bytes,
      (∃ n, (accepted (e.notesOf id)).map (fun m => (eventSequence m).toNat) = List.range' 1 n) ∧
      ∀ (w : World) (m : Message) (p : Params) (s : EngineSession), onEvent = true →
        Method.read m.method = some (.session .resume) → Params.read m.params = some p →
        p.requestID.length ≤ maxRequestIDBytes → p.text.length ≤ maxTextBytes →
        p.sessionID = id → e.sessions[id]? = some s →
        (∃ event ∈ e.history id,
          (eventSequence event).toNat = (accepted (e.notesOf id)).length + 1) ∨
        (accepted (e.notesOf id)).length = (emitted (e.notesOf id)).length ∨
        ((e.handle w m).2 = some (m.refuse (-32004) "event history expired") ∧
          (e.handle w m).1.log = e.log) := by
  intro e id
  have h : Sound e := run_sound (new_sound name onEvent) ops
  refine ⟨(h.good id).delivered.taken, ?_⟩
  intro w m p s ho hmethod hp hid htext hsid hs
  have htransport : e.onEvent = true := (run_onEvent (new_sound name onEvent) ops).trans ho
  have hle := ((h.good id).delivered.live _ (line_session hs)).le
  subst hsid
  rw [h.accepted_length hs, h.emitted_length hs]
  by_cases hne : s.deliveredSeq = s.eventSeq
  · exact .inr (.inl (by rw [hne]))
  · by_cases hfloor : s.deliveredSeq < s.historyFloor
    · obtain ⟨hanswer, hlog⟩ := resume_expired (w := w) (m := m) htransport hne hfloor
      rw [handle_session hmethod hp ⟨hid, htext⟩ hs]
      exact .inr (.inr ⟨congrArg some hanswer, hlog⟩)
    · rw [UInt64.lt_iff_toNat_lt] at hfloor
      have hne' : s.deliveredSeq.toNat ≠ s.eventSeq.toNat := fun heq =>
        hne (UInt64.toNat_inj.mp heq)
      exact .inl (h.kept.exists_event hs (by omega) (by omega))

example : Method.read resuming.method = some (.session .resume) := by decide +kernel

theorem delivered_in_order_resumed : ∃ s,
    ((new (lit "echo") true).run turn).sessions[lit "session-1"]? = some s ∧
      ((∃ event ∈ ((new (lit "echo") true).run turn).history (lit "session-1"),
          (eventSequence event).toNat = (accepted (((new (lit "echo") true).run
            turn).notesOf (lit "session-1"))).length + 1) ∨
        (accepted (((new (lit "echo") true).run turn).notesOf (lit "session-1"))).length =
          (emitted (((new (lit "echo") true).run turn).notesOf (lit "session-1"))).length ∨
        ((((new (lit "echo") true).run turn).handle willing resuming).2 =
            some (resuming.refuse (-32004) "event history expired") ∧
          (((new (lit "echo") true).run turn).handle willing resuming).1.log =
            ((new (lit "echo") true).run turn).log)) := by
  obtain ⟨s, hs⟩ := Option.isSome_iff_exists.mp turn_live
  exact ⟨s, hs, (delivered_in_order (lit "echo") true turn (lit "session-1")).2
    willing resuming ⟨lit "session-1", [], []⟩ s rfl (by decide +kernel)
    (by decide +kernel) (by decide) (by decide) rfl hs⟩

/-! ## Turns -/

theorem turns_in_order (name : Bytes) (onEvent : Bool) (ops : List (World × Op)) :
    let e := (new name onEvent).run ops
    ∀ id : Bytes, ∃ (turns : List (UInt64 × List Message)) (current : List Message),
      emitted (e.notesOf id) = (turns.map Prod.snd).flatten ++ current ∧
      (∀ t ∈ turns, Line.IsTurn t.1 t.2) ∧
      (turns.map Prod.fst).Pairwise (· < ·) ∧
      calledTimes (e.notesOf id) = turns.length + current.length ∧
      (e.callsOf id = [] → current = []) ∧
      (∀ c ∈ e.callsOf id, ∃ m, current = [m] ∧ m.method = lit "session/started" ∧
        ∀ t ∈ turns, t.1 < eventTurn m) ∧
      (emitted (e.notesOf id)).map (fun m => (eventSequence m).toNat) =
        List.range' 1 (emitted (e.notesOf id)).length ∧
      ∀ s, e.sessions[id]? = some s → s.eventSeq.toNat = (emitted (e.notesOf id)).length := by
  intro e id
  have h : Sound e := run_sound (new_sound name onEvent) ops
  have hsound := (h.good id).sound
  obtain ⟨turns, current, hspoken⟩ := (h.good id).spoken
  refine ⟨turns, current, hspoken.split, hspoken.complete, hspoken.ordered, hspoken.counted,
    fun hcalls => ?_, fun c hc => ?_, hspoken.numbered,
    fun s hs => hspoken.length _ (line_session hs)⟩
  · cases hs : (e.line id).session with
    | none => exact hspoken.gone hs
    | some s =>
      refine hspoken.idle s hs (Bool.eq_false_iff.mpr fun hr => ?_)
      obtain ⟨c, hc⟩ := hsound.busy s hs hr
      rw [show (e.line id).calls = e.callsOf id from rfl, hcalls] at hc
      cases hc
  · have hmem := List.mem_filter.mp hc
    have hsid : c.sessionID = id := by simpa using hmem.2
    obtain ⟨s, hs, hr, -⟩ := h.session_of_call hmem.1
    rw [hsid] at hs
    obtain ⟨hlater, m, rfl, hmethod, hturn⟩ := hspoken.busy _ (line_session hs) hr
    exact ⟨m, rfl, hmethod, fun t ht => by rw [hturn]; exact hlater t ht⟩

/-! ## Remembered results -/

theorem mem_notesOf {n : Note} (h : n ∈ e.log) (hid : n.session = id) : n ∈ e.notesOf id := by
  simpa [notesOf, hid] using h

theorem prompt_remembered (h : Sound e) (hs : e.sessions[p.sessionID]? = some s)
    (hmethod : Method.read m.method = some (.session .prompt))
    (hp : Params.read m.params = some p)
    (hlimits : p.requestID.length ≤ maxRequestIDBytes ∧ p.text.length ≤ maxTextBytes)
    (hne : p.requestID ≠ []) {response : Message}
    (hsettled : .settled p.sessionID p.requestID response ∈ e.log) :
    e.handle w m = (e, some { response with id := m.id }) := by
  have hkept := ((h.good p.sessionID).remembered.live _ (line_session hs)).kept p.requestID hne
    response (mem_notesOf hsettled rfl)
  rw [handle_session hmethod hp hlimits hs, handleSession, if_pos hne, hkept]

theorem prompt_refused (hr : s.running = true) :
    ∃ refusal, e.prompt w m p s = (e, some refusal) ∧ refusal.error ≠ none := by
  unfold prompt
  split_ifs
  · exact ⟨_, rfl, by simp [Message.refuse]⟩
  · exact ⟨_, rfl, by simp [Message.refuse]⟩
  · exact ⟨_, rfl, by simp [Message.refuse]⟩

theorem prompt_in_flight (h : Sound e) {c : Call} (hc : c ∈ e.calls)
    (hmethod : Method.read m.method = some (.session .prompt))
    (hp : Params.read m.params = some p) (hsid : c.sessionID = p.sessionID)
    (hrid : c.requestID = p.requestID) (hne : p.requestID ≠ []) :
    ∃ refusal, e.handle w m = (e, some refusal) ∧ refusal.error ≠ none := by
  obtain ⟨s, hs, hr, honly⟩ := h.session_of_call hc
  have hwaiting := ((h.good c.sessionID).remembered.live _ (line_session hs)).waiting c
    (by rw [show (e.line c.sessionID).calls = e.callsOf c.sessionID from rfl, honly]; simp)
    (by rwa [hrid])
  rw [hsid] at hs
  rw [hrid] at hwaiting
  by_cases hlimits : p.requestID.length ≤ maxRequestIDBytes ∧ p.text.length ≤ maxTextBytes
  · rw [handle_session hmethod hp hlimits hs, handleSession, if_pos hne, hwaiting.1]
    exact prompt_refused hr
  · have hover : maxRequestIDBytes < p.requestID.length ∨ maxTextBytes < p.text.length := by omega
    rw [handle, hmethod]
    dsimp only
    rw [hp]
    dsimp only
    rw [if_pos hover]
    exact ⟨_, rfl, by simp [Message.refuse]⟩

theorem prompts_called_once (name : Bytes) (onEvent : Bool) (ops : List (World × Op)) :
    let e := (new name onEvent).run ops
    (∀ id requestID : Bytes, requestID ≠ [] → e.log.count (.called id requestID) ≤ 1) ∧
    (∀ (w : World) (m : Message) (p : Params) (s : EngineSession) (response : Message),
      Method.read m.method = some (.session .prompt) → Params.read m.params = some p →
      p.requestID ≠ [] → p.requestID.length ≤ maxRequestIDBytes → p.text.length ≤ maxTextBytes →
      e.sessions[p.sessionID]? = some s →
      .settled p.sessionID p.requestID response ∈ e.log →
      e.handle w m = (e, some { response with id := m.id })) ∧
    (∀ (w : World) (m : Message) (p : Params), ∀ c ∈ e.calls,
      Method.read m.method = some (.session .prompt) → Params.read m.params = some p →
      p.requestID ≠ [] → c.sessionID = p.sessionID → c.requestID = p.requestID →
      ∃ refusal, e.handle w m = (e, some refusal) ∧ refusal.error ≠ none) ∧
    ∀ (id : Bytes) s, e.sessions[id]? = some s → s.requests.size ≤ 128 := by
  intro e
  have h : Sound e := run_sound (new_sound name onEvent) ops
  refine ⟨fun id requestID hne => ?_, ?_, ?_, fun id s hs => ?_⟩
  · have hcount : e.log.count (.called id requestID) =
        (e.notesOf id).count (.called id requestID) :=
      (List.count_filter (by simp [Note.session])).symm
    rw [hcount]
    exact (h.good id).remembered.once requestID hne
  · intro w m p s response hmethod hp hne hid htext hs hsettled
    exact prompt_remembered h hs hmethod hp ⟨hid, htext⟩ hne hsettled
  · intro w m p c hc hmethod hp hne hsid hrid
    exact prompt_in_flight h hc hmethod hp hsid hrid hne
  · exact ((h.good id).remembered.live _ (line_session hs)).size

theorem prompts_called_once_again : ∃ response : Message,
    .settled (lit "session-1") (lit "r") response ∈ ((new (lit "echo") true).run turn).log ∧
      ((new (lit "echo") true).run turn).handle willing asked =
        ((new (lit "echo") true).run turn, some { response with id := lit "7" }) := by
  obtain ⟨s, hs⟩ := Option.isSome_iff_exists.mp turn_live
  exact ⟨_, turn_settled, (prompts_called_once (lit "echo") true turn).2.1
    willing asked ⟨lit "session-1", lit "hello", lit "r"⟩ s _ (by decide +kernel)
    (by decide +kernel) (by decide) (by decide) (by decide) hs turn_settled⟩

def Params.write (p : Params) : Bytes :=
  JsonText.object [member "session_id" (quote p.sessionID), member "text" (quote p.text),
    member "request_id" (quote p.requestID)]

def Params.parts (p : Params) : List Part :=
  [textPart "session_id" p.sessionID, textPart "text" p.text, textPart "request_id" p.requestID]

theorem Params.parse_write (p : Params) :
    parse p.write = some (.obj (p.parts.map Part.field)) := by
  have hreads : ∀ part ∈ p.parts, Reads (maxDepth - 1) part.value part.text := by
    intro part hpart
    simp only [Params.parts, List.mem_cons, List.not_mem_nil, or_false] at hpart
    rcases hpart with rfl | rfl | rfl <;> exact reads_textPart _ _
  exact (reads_object (by simp [Params.parts]) hreads).parse_eq

theorem readField_textPart {name : String} {text s : Bytes} {after : List Part}
    (before : List Part) (hs : valid s)
    (hparse : parse text = some (.obj ((before ++ textPart name s :: after).map Part.field)))
    (hb : ∀ p ∈ before, foldKey (lit p.name) ≠ foldKey (lit name))
    (ha : ∀ p ∈ after, foldKey (lit p.name) ≠ foldKey (lit name)) :
    readField (lit name) asString [] text = (s, true) := by
  rw [readField, hparse]
  refine foldl_readMember (textPart name s) (by simp [textPart]) ?_ hb ha
  rw [textPart, sanitize_of_valid hs]
  rfl

theorem Params.read_write {p : Params} (hid : valid p.sessionID) (htext : valid p.text)
    (hreq : valid p.requestID) (hne : p.sessionID ≠ []) : Params.read p.write = some p := by
  have hsession : readField (lit "session_id") asString [] p.write = (p.sessionID, true) :=
    readField_textPart [] hid p.parse_write (by simp) (by simp [textPart]; decide)
  have hprompt : readField (lit "text") asString [] p.write = (p.text, true) :=
    readField_textPart [_] htext p.parse_write (by simp [textPart]; decide)
      (by simp [textPart]; decide)
  have hrequest : readField (lit "request_id") asString [] p.write = (p.requestID, true) :=
    readField_textPart [_, _] hreq p.parse_write (by simp [textPart]; decide) (by simp)
  simp [Params.read, hsession, hprompt, hrequest, hne]

theorem exists_long_text : ∃ text : Bytes, valid text = true ∧ maxTextBytes < text.length := by
  have hlong : ∀ n : ℕ, valid (List.replicate n (0x61 : UInt8)) = true := by
    intro n
    refine valid_ascii fun b hb => ?_
    rw [List.eq_of_mem_replicate hb]
    decide
  refine ⟨List.replicate (maxTextBytes + 1) 0x61, hlong _, ?_⟩
  rw [List.length_replicate]
  exact Nat.lt_succ_self _

/-- A prompt with a text over the limit is refused though its request has been answered. -/
theorem exists_answered_refused : ∃ (ops : List (World × Op)) (m : Message) (p : Params)
    (response : Message),
    Method.read m.method = some (.session .prompt) ∧ Params.read m.params = some p ∧
      p.requestID ≠ [] ∧
      (((new (lit "echo") true).run ops).sessions[p.sessionID]?).isSome = true ∧
      .settled p.sessionID p.requestID response ∈ ((new (lit "echo") true).run ops).log ∧
      ∀ w, ((new (lit "echo") true).run ops).handle w m =
        ((new (lit "echo") true).run ops,
          some (m.refuse (-32602) "request exceeds engine limits")) := by
  obtain ⟨text, htext, hlong⟩ := exists_long_text
  have hid : lit "session-1" ≠ [] := by decide
  have hread : Params.read (Params.write ⟨lit "session-1", text, lit "r"⟩) =
      some ⟨lit "session-1", text, lit "r"⟩ :=
    Params.read_write (valid_lit _) htext (valid_lit _) hid
  have hreq : lit "r" ≠ [] := by decide
  have hmethod : Method.read (lit "session/prompt") = some (.session .prompt) := by decide +kernel
  refine ⟨turn, ⟨lit "8", lit "session/prompt",
    Params.write ⟨lit "session-1", text, lit "r"⟩, [], none⟩, ⟨lit "session-1", text, lit "r"⟩,
    asked.answer (lit "\x7b\"stop_reason\":\"completed\"\x7d"), hmethod, hread, hreq,
    turn_live, turn_settled, fun w => ?_⟩
  rw [handle, hmethod]
  dsimp only
  rw [hread]
  dsimp only
  rw [if_pos (.inr hlong)]

end Aok.Protocol.Engine
