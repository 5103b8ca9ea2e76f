import Aok.Runtime.Protocol

/-!
# The life of one session

A session by itself: its state, its call in flight, what was noted about it. `Line.Step` says
all that can happen to it, whatever the other sessions and the retained history do. What a
client sees of a session is proved here for every such life: the events it is handed, the
turns they belong to, the results it can ask for again.
-/

namespace Aok.Protocol
open Lib Lib.Utf8 Lib.JsonText Lib.JsonValue Aok.Runtime Engine

def Note.session : Note → Bytes
  | .emitted id _ | .handed id _ _ | .called id _ | .settled id _ _ => id

def emitted (notes : List Note) : List Message :=
  notes.filterMap fun
    | .emitted _ event => some event
    | _ => none

def accepted (notes : List Note) : List Message :=
  notes.filterMap fun
    | .handed _ event true => some event
    | _ => none

def calledTimes (notes : List Note) : ℕ :=
  notes.countP fun
    | .called _ _ => true
    | _ => false

@[simp] theorem emitted_append (l l' : List Note) : emitted (l ++ l') = emitted l ++ emitted l' :=
  List.filterMap_append

@[simp] theorem accepted_append (l l' : List Note) :
    accepted (l ++ l') = accepted l ++ accepted l' := List.filterMap_append

@[simp] theorem calledTimes_append (l l' : List Note) :
    calledTimes (l ++ l') = calledTimes l + calledTimes l' := List.countP_append

/-! ## What an event says -/

def eventTurn (event : Message) : UInt64 := (readField (lit "turn_id") asUInt64 0 event.params).1

theorem asUInt64_dec (n : UInt64) : asUInt64 (.num (dec n.toNat)) = some n := by
  have hd : (dec n.toNat).all isDigit := List.all_eq_true.mpr (isDigit_dec _)
  have hr : readDec (dec n.toNat) = n.toNat := readDec_decFrom (Nat.lt_succ_self _)
  simp only [asUInt64, hr]
  rw [if_pos ⟨hd, n.toNat_lt⟩, UInt64.ofNat_toNat]

section Parts

def numberPart (name : String) (n : UInt64) : Part := ⟨name, .num (dec n.toNat), dec n.toNat⟩

def textPart (name : String) (s : Bytes) : Part := ⟨name, .str (sanitize s), quote s⟩

def usageParts (u : Usage) : List Part :=
  [numberPart "input_tokens" u.inputTokens, numberPart "output_tokens" u.outputTokens,
    numberPart "cached_tokens" u.cachedTokens]

def usagePart (u : Usage) : Part :=
  ⟨"usage", .obj ((usageParts u).map Part.field), usageText u⟩

def Event.parts (id : Bytes) (turn seq : UInt64) : Event → List Part
  | .started => [numberPart "event_seq" seq, textPart "session_id" id, numberPart "turn_id" turn]
  | .chunk text => [numberPart "event_seq" seq, textPart "session_id" id, textPart "text" text,
      numberPart "turn_id" turn]
  | .usage u => [numberPart "event_seq" seq, textPart "session_id" id, numberPart "turn_id" turn,
      usagePart u]
  | .ended reason => [numberPart "event_seq" seq, textPart "session_id" id,
      textPart "stop_reason" reason.text, numberPart "turn_id" turn]

variable {d : ℕ}

theorem reads_numberPart (name : String) (n : UInt64) :
    Reads d (numberPart name n).value (numberPart name n).text := reads_dec _

theorem reads_textPart (name : String) (s : Bytes) :
    Reads d (textPart name s).value (textPart name s).text := reads_quote_sanitize s

theorem reads_usagePart (u : Usage) : Reads (d + 1) (usagePart u).value (usagePart u).text := by
  have hparts : ∀ p ∈ usageParts u, Reads d p.value p.text := by
    intro p hp
    simp only [usageParts, List.mem_cons, List.not_mem_nil, or_false] at hp
    rcases hp with rfl | rfl | rfl <;> exact reads_numberPart _ _
  exact reads_object (by simp [usageParts]) hparts

theorem parse_params (event : Event) (id : Bytes) (turn seq : UInt64) :
    parse (event.params id turn seq) = some (.obj ((event.parts id turn seq).map Part.field)) := by
  have hparams : event.params id turn seq =
      object ((event.parts id turn seq).map Part.member) := by
    cases event <;> rfl
  rw [hparams]
  refine (reads_object (d := maxDepth - 1) ?_ fun p hp => ?_).parse_eq
  · cases event <;> simp [Event.parts]
  · cases event <;> simp only [Event.parts, List.mem_cons, List.not_mem_nil, or_false] at hp
    case started =>
      rcases hp with rfl | rfl | rfl
      exacts [reads_numberPart _ _, reads_textPart _ _, reads_numberPart _ _]
    case usage u =>
      rcases hp with rfl | rfl | rfl | rfl
      exacts [reads_numberPart _ _, reads_textPart _ _, reads_numberPart _ _, reads_usagePart u]
    case chunk | ended =>
      rcases hp with rfl | rfl | rfl | rfl
      exacts [reads_numberPart _ _, reads_textPart _ _, reads_textPart _ _, reads_numberPart _ _]

end Parts

theorem foldl_readMember {α : Type} {conv : Value → Option α} {init x : α} (part : Part)
    {before after : List Part} (hnull : part.value ≠ .null) (hx : conv part.value = some x)
    (hb : ∀ p ∈ before, foldKey (lit p.name) ≠ foldKey (lit part.name))
    (ha : ∀ p ∈ after, foldKey (lit p.name) ≠ foldKey (lit part.name)) :
    ((before ++ part :: after).map Part.field).foldl (readMember (lit part.name) conv)
      (init, true) = (x, true) := by
  have hskip : ∀ (l : List Part) (acc : α × Bool),
      (∀ p ∈ l, foldKey (lit p.name) ≠ foldKey (lit part.name)) →
      (l.map Part.field).foldl (readMember (lit part.name) conv) acc = acc := by
    intro l acc hl
    induction l with
    | nil => rfl
    | cons p l ih =>
      have hp : ¬ foldKey p.field.1 = foldKey (lit part.name) := hl p List.mem_cons_self
      rw [List.map_cons, List.foldl_cons, readMember, if_neg hp]
      exact ih fun q hq => hl q (List.mem_cons_of_mem _ hq)
  have hread : readMember (lit part.name) conv (init, true) part.field = (x, true) := by
    cases hv : part.value with
    | null => exact absurd hv hnull
    | _ =>
      rw [hv] at hx
      simp [readMember, Part.field, hv, hx]
  rw [List.map_append, List.foldl_append, hskip before _ hb, List.map_cons, List.foldl_cons, hread,
    hskip after _ ha]

@[simp] theorem eventSequence_message (event : Event) (id : Bytes) (turn seq : UInt64) :
    eventSequence (event.message id turn seq) = seq := by
  obtain ⟨after, hparts, hafter⟩ : ∃ after, event.parts id turn seq =
      [] ++ numberPart "event_seq" seq :: after ∧
      ∀ p ∈ after, foldKey (lit p.name) ≠ foldKey (lit "event_seq") := by
    cases event <;> refine ⟨_, rfl, ?_⟩ <;>
      simp [numberPart, textPart, usagePart] <;> decide
  simp only [eventSequence, Event.message, readField, parse_params]
  rw [hparts]
  exact congrArg Prod.fst (foldl_readMember (numberPart "event_seq" seq)
    (by simp [numberPart]) (asUInt64_dec seq) (by simp) hafter)

@[simp] theorem eventTurn_message (event : Event) (id : Bytes) (turn seq : UInt64) :
    eventTurn (event.message id turn seq) = turn := by
  obtain ⟨before, after, hparts, hbefore, hafter⟩ : ∃ before after,
      event.parts id turn seq = before ++ numberPart "turn_id" turn :: after ∧
      (∀ p ∈ before, foldKey (lit p.name) ≠ foldKey (lit "turn_id")) ∧
      ∀ p ∈ after, foldKey (lit p.name) ≠ foldKey (lit "turn_id") := by
    cases event with
    | started => exact ⟨[_, _], [], rfl, by simp [numberPart, textPart]; decide, by simp⟩
    | usage u =>
      exact ⟨[_, _], [_], rfl, by simp [numberPart, textPart]; decide,
        by simp [usagePart]; decide⟩
    | chunk | ended =>
      exact ⟨[_, _, _], [], rfl, by simp [numberPart, textPart]; decide, by simp⟩
  simp only [eventTurn, Event.message, readField, parse_params]
  rw [hparts]
  exact congrArg Prod.fst (foldl_readMember (numberPart "turn_id" turn)
    (by simp [numberPart]) (asUInt64_dec turn) hbefore hafter)

/-! ## Events of one session -/

namespace SessionCore

variable (onEvent : Bool) (id : Bytes) (accepts : Message → Bool)

/-- `emit` for the session alone: the session after it and what was noted. -/
def emit (event : Event) (s : SessionCore) : SessionCore × List Note :=
  let m := event.message id s.turn (s.eventSeq + 1)
  let s := { s with eventSeq := s.eventSeq + 1 }
  if onEvent && !s.suspended then
    if accepts m then
      ({ s with deliveredSeq := s.eventSeq }, [.emitted id m, .handed id m true])
    else ({ s with suspended := true }, [.emitted id m, .handed id m false])
  else (s, [.emitted id m])

def emits : List Event → SessionCore → SessionCore × List Note
  | [], s => (s, [])
  | event :: rest, s =>
    let r := s.emit onEvent id accepts event
    let r' := emits rest r.1
    (r'.1, r.2 ++ r'.2)

def begin (s : SessionCore) : SessionCore :=
  { s with cancelled := false, running := true, turn := s.turn + 1 }

def book (ledger : Ledger) (s : SessionCore) : SessionCore := { s with ledger := ledger }

def finish (requestID : Bytes) (response : Message) (s : SessionCore) : SessionCore :=
  { remember requestID response s with running := false, cancelled := false }

/-- What `emit` does not change. -/
structure SameTurn (s s' : SessionCore) : Prop where
  turn : s'.turn = s.turn
  running : s'.running = s.running
  closed : s'.closed = s.closed
  requests : s'.requests = s.requests

variable {onEvent id accepts} {event : Event} {events : List Event} {s s' s'' : SessionCore}

@[simp] theorem begin_eventSeq : s.begin.eventSeq = s.eventSeq := rfl

@[simp] theorem book_turn (ledger : Ledger) : (s.book ledger).turn = s.turn := rfl

@[simp] theorem book_eventSeq (ledger : Ledger) : (s.book ledger).eventSeq = s.eventSeq := rfl

section Finish

variable (requestID : Bytes) (response : Message) (s)

@[simp] theorem finish_closed : (s.finish requestID response).closed = s.closed := by
  unfold finish remember
  split_ifs <;> rfl

@[simp] theorem finish_suspended : (s.finish requestID response).suspended = s.suspended := by
  unfold finish remember
  split_ifs <;> rfl

@[simp] theorem finish_turn : (s.finish requestID response).turn = s.turn := by
  unfold finish remember
  split_ifs <;> rfl

@[simp] theorem finish_eventSeq : (s.finish requestID response).eventSeq = s.eventSeq := by
  unfold finish remember
  split_ifs <;> rfl

@[simp] theorem finish_deliveredSeq :
    (s.finish requestID response).deliveredSeq = s.deliveredSeq := by
  unfold finish remember
  split_ifs <;> rfl

end Finish

theorem SameTurn.refl (s : SessionCore) : SameTurn s s := ⟨rfl, rfl, rfl, rfl⟩

theorem SameTurn.trans (h : SameTurn s s') (h' : SameTurn s' s'') : SameTurn s s'' :=
  ⟨h'.turn.trans h.turn, h'.running.trans h.running, h'.closed.trans h.closed,
    h'.requests.trans h.requests⟩

theorem emit_sameTurn : SameTurn s (s.emit onEvent id accepts event).1 := by
  unfold emit
  dsimp only
  split_ifs <;> exact ⟨rfl, rfl, rfl, rfl⟩

theorem emits_sameTurn : SameTurn s (s.emits onEvent id accepts events).1 := by
  induction events generalizing s with
  | nil => exact .refl s
  | cons event rest ih => exact emit_sameTurn.trans ih

@[simp] theorem emit_eventSeq : (s.emit onEvent id accepts event).1.eventSeq = s.eventSeq + 1 := by
  unfold emit
  dsimp only
  split_ifs <;> rfl

theorem emits_eventSeq (h : s.eventSeq.toNat + events.length < 2 ^ 64) :
    (s.emits onEvent id accepts events).1.eventSeq.toNat = s.eventSeq.toNat + events.length := by
  induction events generalizing s with
  | nil => rfl
  | cons event rest ih =>
    rw [List.length_cons] at h ⊢
    have hseq : (s.emit onEvent id accepts event).1.eventSeq.toNat = s.eventSeq.toNat + 1 := by
      rw [emit_eventSeq, UInt64.toNat_add]
      exact Nat.mod_eq_of_lt (by simp; omega)
    rw [emits, ih (by omega), hseq]
    omega

def messages (id : Bytes) (turn : UInt64) : UInt64 → List Event → List Message
  | _, [] => []
  | seq, event :: rest => event.message id turn (seq + 1) :: messages id turn (seq + 1) rest

theorem emit_emitted : emitted (s.emit onEvent id accepts event).2 =
    [event.message id s.turn (s.eventSeq + 1)] := by
  unfold emit
  dsimp only
  split_ifs <;> rfl

theorem emits_emitted : emitted (s.emits onEvent id accepts events).2 =
    messages id s.turn s.eventSeq events := by
  induction events generalizing s with
  | nil => rfl
  | cons event rest ih =>
    rw [emits, emitted_append, emit_emitted, ih, emit_sameTurn.turn, emit_eventSeq]
    rfl

theorem emit_notes : ∀ n ∈ (s.emit onEvent id accepts event).2,
    ∃ m, n = .emitted id m ∨ ∃ ok, n = .handed id m ok := by
  unfold emit
  dsimp only
  split_ifs <;> simp

theorem emits_notes : ∀ n ∈ (s.emits onEvent id accepts events).2,
    ∃ m, n = .emitted id m ∨ ∃ ok, n = .handed id m ok := by
  induction events generalizing s with
  | nil => simp [emits]
  | cons event rest ih =>
    intro n hn
    rcases List.mem_append.mp hn with hn | hn
    · exact emit_notes n hn
    · exact ih n hn

end SessionCore

/-! ## One session -/

/-- A session with its call in flight and the notes about it; `issued` says whether its id has
been given out. -/
structure Line where
  session : Option SessionCore
  calls : List Call
  notes : List Note
  issued : Bool

namespace Line
open SessionCore

/-- All that can happen to the session `id`. -/
inductive Step (onEvent : Bool) (id : Bytes) : Line → Line → Prop where
  | opened {l : Line} : l.issued = false →
    Step onEvent id l { l with session := some .fresh, issued := true }
  | suspended {l : Line} {s : SessionCore} : l.session = some s →
    Step onEvent id l { l with session := some { s with suspended := true } }
  | cancelled {l : Line} {s : SessionCore} {close : Bool} : l.session = some s →
    s.running = true →
    Step onEvent id l { l with
      session := some { s with cancelled := true, closed := close || s.closed } }
  | released {l : Line} {s : SessionCore} : l.session = some s → s.running = false →
    Step onEvent id l { l with session := none }
  | resumed {l : Line} {s : SessionCore} {taken refused : List Message} {delivered : UInt64}
      {suspended : Bool} : l.session = some s →
    taken.map (fun m => (eventSequence m).toNat) =
      List.range' (s.deliveredSeq.toNat + 1) taken.length →
    delivered.toNat = s.deliveredSeq.toNat + taken.length →
    delivered.toNat ≤ s.eventSeq.toNat →
    (onEvent = true → suspended = false → delivered = s.eventSeq) →
    Step onEvent id l { l with
      session := some { s with deliveredSeq := delivered, suspended := suspended }
      notes := l.notes ++ (taken.map (Note.handed id · true) ++
        refused.map (Note.handed id · false)) }
  | started {l : Line} {s : SessionCore} {accepts : Message → Bool} {c : Call} :
    l.session = some s → s.closed = false → s.running = false →
    (c.requestID ≠ [] → s.requests.size < maxReplayRequests ∧
      s.requests[requestKey c.requestID]? = none) →
    s.turn ≠ maxUint64 → s.eventSeq ≤ maxUint64 - 4 →
    Step onEvent id l { l with
      session := some (s.begin.emit onEvent id accepts .started).1
      calls := l.calls ++ [c]
      notes := l.notes ++
        ((s.begin.emit onEvent id accepts .started).2 ++ [.called id c.requestID]) }
  | settled {l : Line} {s : SessionCore} {accepts : Message → Bool} {c : Call} {r : Outcome}
      {ledger : Ledger} {reason : StopReason} {response : Message} :
    l.session = some s → l.calls = [c] →
    Step onEvent id l { l with
      session :=
        if s.closed then none
        else some (((s.book ledger).emits onEvent id accepts (r.events reason)).1.finish
          c.requestID response)
      calls := []
      notes := l.notes ++ (((s.book ledger).emits onEvent id accepts
        (r.events reason)).2 ++ [.settled id c.requestID response]) }

variable {onEvent : Bool} {id : Bytes} {l l' : Line} {s : SessionCore}

/-! ## Turns and calls -/

/-- A session has a call in flight while a turn runs and at no other time, and a turn starts only
with room for its events. -/
structure Sound (l : Line) : Prop where
  unissued : l.issued = false → l.session = none ∧ l.notes = []
  gone : l.session = none → l.calls = []
  idle : ∀ s, l.session = some s → s.running = false → l.calls = [] ∧ s.closed = false
  busy : ∀ s, l.session = some s → s.running = true → ∃ c, l.calls = [c]
  room : ∀ s, l.session = some s → s.running = true → s.eventSeq.toNat + 3 < 2 ^ 64

theorem events_length (r : Outcome) (reason : StopReason) : (r.events reason).length ≤ 3 := by
  unfold Outcome.events
  split_ifs <;> simp

theorem toNat_add_one {n : UInt64} (h : n.toNat + 1 < 2 ^ 64) : (n + 1).toNat = n.toNat + 1 := by
  rw [UInt64.toNat_add]
  exact Nat.mod_eq_of_lt h

theorem toNat_le_of_roomy {n : UInt64} (h : n ≤ maxUint64 - 4) : n.toNat + 4 < 2 ^ 64 := by
  have hn : n.toNat ≤ (maxUint64 - 4).toNat := UInt64.le_iff_toNat_le.mp h
  have hmax : (maxUint64 - 4).toNat + 4 < 2 ^ 64 := by decide
  omega

theorem Sound.issued_of_session (h : Sound l) (hs : l.session = some s) : l.issued = true := by
  by_contra hi
  rw [(h.unissued (by simpa using hi)).1] at hs
  cases hs

theorem Sound.put (h : Sound l) (hs : l.session = some s) {s' : SessionCore} {notes : List Note}
    (hr : s'.running = s.running) (hclosed : s.running = false → s'.closed = s.closed)
    (hseq : s'.eventSeq = s.eventSeq) : Sound { l with session := some s', notes := notes } := by
  have hissued := h.issued_of_session hs
  refine ⟨fun hi => absurd hissued (by simpa using hi), by simp, ?_, ?_, ?_⟩
  · rintro _ ⟨⟩ hf
    rw [hr] at hf
    have hidle := h.idle s hs hf
    exact ⟨hidle.1, (hclosed hf).trans hidle.2⟩
  · rintro _ ⟨⟩ ht
    exact h.busy s hs (hr ▸ ht)
  · rintro _ ⟨⟩ ht
    rw [hseq]
    exact h.room s hs (hr ▸ ht)

theorem Sound.running_of_calls (h : Sound l) (hs : l.session = some s) {c : Call}
    (hc : l.calls = [c]) : s.running = true := by
  refine Bool.eq_true_of_not_eq_false fun hf => ?_
  rw [(h.idle s hs hf).1] at hc
  cases hc

theorem Sound.room_of_calls (h : Sound l) (hs : l.session = some s) {c : Call}
    (hc : l.calls = [c]) : s.eventSeq.toNat + 3 < 2 ^ 64 :=
  h.room s hs (h.running_of_calls hs hc)

theorem Sound.step (h : Sound l) (hs : Step onEvent id l l') : Sound l' := by
  cases hs with
  | opened hi =>
    have hcalls := h.gone (h.unissued hi).1
    refine ⟨by simp, by simp, ?_, ?_, ?_⟩ <;> simp [SessionCore.fresh, hcalls]
  | suspended hs => exact h.put hs rfl (fun _ => rfl) rfl
  | cancelled hs hr => exact h.put hs rfl (fun hf => absurd hr (by simp [hf])) rfl
  | resumed hs => exact h.put hs rfl (fun _ => rfl) rfl
  | released hs hr =>
    have hissued := h.issued_of_session hs
    exact ⟨fun hi => absurd hissued (by simpa using hi), fun _ => (h.idle _ hs hr).1, by simp,
      by simp, by simp⟩
  | @started s accepts c hs hclosed hr _ _ hseq =>
    have hissued := h.issued_of_session hs
    have hcalls := (h.idle _ hs hr).1
    have hroom := toNat_le_of_roomy hseq
    refine ⟨fun hi => absurd hissued (by simpa using hi), by simp, ?_, ?_, ?_⟩
    · rintro _ ⟨⟩ hf
      rw [emit_sameTurn.running] at hf
      cases hf
    · rintro _ ⟨⟩ _
      exact ⟨c, by rw [hcalls]; rfl⟩
    · rintro _ ⟨⟩ _
      rw [emit_eventSeq, begin_eventSeq, toNat_add_one (by omega)]
      omega
  | @settled s accepts c r ledger reason response hs hc =>
    have hissued := h.issued_of_session hs
    refine ⟨fun hi => absurd hissued (by simpa using hi), fun _ => rfl, ?_, ?_, ?_⟩
    all_goals
      intro s' hs'
      dsimp only at hs'
      split_ifs at hs' with hclosed
      obtain rfl := Option.some.inj hs'
    · refine fun _ => ⟨rfl, ?_⟩
      simp only [finish_closed, emits_sameTurn.closed]
      exact Bool.eq_false_iff.mpr hclosed
    · intro hf
      cases hf
    · intro hf
      cases hf

/-! ## What the client is handed -/

/-- The accepted events are numbered from one to the delivered number, and only a suspended
session is behind. -/
structure Delivers (onEvent : Bool) (notes : List Note) (s : SessionCore) : Prop where
  taken : (accepted notes).map (fun m => (eventSequence m).toNat) =
    List.range' 1 s.deliveredSeq.toNat
  le : s.deliveredSeq.toNat ≤ s.eventSeq.toNat
  current : onEvent = true → s.suspended = false → s.deliveredSeq = s.eventSeq

variable {notes : List Note} {accepts : Message → Bool} {event : Event} {events : List Event}

theorem Delivers.emit (h : Delivers onEvent notes s) (hroom : s.eventSeq.toNat + 1 < 2 ^ 64) :
    Delivers onEvent (notes ++ (s.emit onEvent id accepts event).2)
      (s.emit onEvent id accepts event).1 := by
  have hseq := toNat_add_one hroom
  have hle := h.le
  unfold SessionCore.emit
  dsimp only
  split_ifs with hopen hok
  · simp only [Bool.and_eq_true, Bool.not_eq_true'] at hopen
    have hcur := h.current hopen.1 hopen.2
    refine ⟨?_, le_refl _, fun _ _ => rfl⟩
    simp only [accepted_append, List.map_append, h.taken, hseq, hcur]
    rw [List.range'_1_concat]
    simp [accepted, hseq, Nat.add_comm]
  · refine ⟨?_, by simp only [hseq]; omega, by simp⟩
    simp only [accepted_append, List.map_append, h.taken]
    simp [accepted]
  · refine ⟨?_, by simp only [hseq]; omega, fun ho hs => ?_⟩
    · simp only [accepted_append, List.map_append, h.taken]
      simp [accepted]
    · simp only at hs
      simp [ho, hs] at hopen

theorem Delivers.emits (h : Delivers onEvent notes s)
    (hroom : s.eventSeq.toNat + events.length < 2 ^ 64) :
    Delivers onEvent (notes ++ (s.emits onEvent id accepts events).2)
      (s.emits onEvent id accepts events).1 := by
  induction events generalizing notes s with
  | nil => simpa [SessionCore.emits] using h
  | cons event rest ih =>
    rw [List.length_cons] at hroom
    have hseq := toNat_add_one (show s.eventSeq.toNat + 1 < 2 ^ 64 by omega)
    have hfirst : Delivers onEvent (notes ++ (s.emit onEvent id accepts event).2)
        (s.emit onEvent id accepts event).1 := h.emit (by omega)
    simp only [SessionCore.emits]
    rw [← List.append_assoc]
    exact ih hfirst (by rw [emit_eventSeq, hseq]; omega)

theorem Delivers.congr (h : Delivers onEvent notes s) {s' : SessionCore}
    (hd : s'.deliveredSeq = s.deliveredSeq) (he : s'.eventSeq = s.eventSeq)
    (hs : s'.suspended = false → s.suspended = false) : Delivers onEvent notes s' := by
  refine ⟨by rw [hd]; exact h.taken, by rw [hd, he]; exact h.le, fun ho hf => ?_⟩
  rw [hd, he]
  exact h.current ho (hs hf)

theorem Delivers.note (h : Delivers onEvent notes s) {n : Note} (hn : accepted [n] = []) :
    Delivers onEvent (notes ++ [n]) s :=
  ⟨by rw [accepted_append, hn, List.append_nil]; exact h.taken, h.le, h.current⟩

structure Delivered (onEvent : Bool) (l : Line) : Prop where
  taken : ∃ n, (accepted l.notes).map (fun m => (eventSequence m).toNat) = List.range' 1 n
  live : ∀ s, l.session = some s → Delivers onEvent l.notes s

theorem Delivered.of_delivers (hs : l.session = some s ∨ l.session = none)
    (h : Delivers onEvent l.notes s) : Delivered onEvent l := by
  refine ⟨⟨_, h.taken⟩, fun s' hs' => ?_⟩
  rcases hs with hs | hs
  · rw [hs] at hs'
    exact Option.some.inj hs' ▸ h
  · rw [hs] at hs'
    cases hs'

theorem accepted_handed (l : List Message) (ok : Bool) :
    accepted (l.map (Note.handed id · ok)) = if ok then l else [] := by
  induction l with
  | nil => cases ok <;> rfl
  | cons m l ih =>
    cases ok
    · simp [accepted]
    · simp [accepted]

theorem Delivered.step (h : Delivered onEvent l) (hsound : Sound l) (hs : Step onEvent id l l') :
    Delivered onEvent l' := by
  cases hs with
  | opened hi =>
    have hnotes := (hsound.unissued hi).2
    refine .of_delivers (.inl rfl) ⟨?_, le_refl _, fun _ _ => rfl⟩
    simp [hnotes, accepted, SessionCore.fresh]
  | suspended hs => exact .of_delivers (.inl rfl) ((h.live _ hs).congr rfl rfl (by simp))
  | cancelled hs => exact .of_delivers (.inl rfl) ((h.live _ hs).congr rfl rfl fun hf => hf)
  | released => exact ⟨h.taken, by simp⟩
  | resumed hs htaken hd hle hcur =>
    refine .of_delivers (.inl rfl) ⟨?_, hle, hcur⟩
    simp only [accepted_append, accepted_handed, List.map_append, (h.live _ hs).taken, htaken, hd,
      if_true, Bool.false_eq_true, if_false, List.append_nil]
    rw [Nat.add_comm _ 1, ← List.range'_append]
    simp
  | @started s accepts c hs _ hr _ _ hseq =>
    have hroom := toNat_le_of_roomy hseq
    have hbegin : Delivers onEvent l.notes s.begin := (h.live _ hs).congr rfl rfl fun hf => hf
    refine .of_delivers (.inl rfl) ?_
    dsimp only
    rw [← List.append_assoc]
    exact (hbegin.emit (by rw [begin_eventSeq]; omega)).note rfl
  | @settled s accepts c r ledger reason response hs hc =>
    have hroom := hsound.room_of_calls hs hc
    have hlen := events_length r reason
    have hbooked : Delivers onEvent l.notes (s.book ledger) :=
      (h.live _ hs).congr rfl rfl fun hf => hf
    have hend : Delivers onEvent (l.notes ++ (((s.book ledger).emits
        onEvent id accepts (r.events reason)).2 ++ [.settled id c.requestID response]))
        (((s.book ledger).emits onEvent id accepts (r.events reason)).1.finish
          c.requestID response) := by
      rw [← List.append_assoc]
      refine ((hbooked.emits ?_).note rfl).congr (by simp) (by simp) (by simp)
      rw [book_eventSeq]
      omega
    refine .of_delivers ?_ hend
    dsimp only
    split_ifs
    · exact .inr rfl
    · exact .inl rfl

/-! ## Turns -/

def IsTurn (turn : UInt64) (l : List Message) : Prop :=
  (∀ m ∈ l, eventTurn m = turn) ∧
    ∃ (chunk usage : Bool) (last : Bytes),
      (last = lit "session/done" ∨ last = lit "session/failed") ∧
      l.map Message.method = lit "session/started" ::
        ((if chunk then [lit "session/chunk"] else []) ++
          ((if usage then [lit "session/usage"] else []) ++ [last]))

theorem messages_method (turn seq : UInt64) (events : List Event) :
    (messages id turn seq events).map Message.method = events.map Event.method := by
  induction events generalizing seq with
  | nil => rfl
  | cons event rest ih => rw [messages, List.map_cons, ih]; rfl

theorem messages_turn (turn seq : UInt64) (events : List Event) :
    ∀ m ∈ messages id turn seq events, eventTurn m = turn := by
  induction events generalizing seq with
  | nil => simp [messages]
  | cons event rest ih =>
    intro m hm
    rcases List.mem_cons.mp hm with rfl | hm
    · exact eventTurn_message _ _ _ _
    · exact ih _ m hm

theorem messages_length (turn seq : UInt64) (events : List Event) :
    (messages id turn seq events).length = events.length := by
  have hmap : ((messages id turn seq events).map Message.method).length =
      (events.map Event.method).length := by rw [messages_method]
  simpa using hmap

theorem messages_sequence {turn seq : UInt64} (hroom : seq.toNat + events.length < 2 ^ 64) :
    (messages id turn seq events).map (fun m => (eventSequence m).toNat) =
      List.range' (seq.toNat + 1) events.length := by
  induction events generalizing seq with
  | nil => rfl
  | cons event rest ih =>
    rw [List.length_cons] at hroom
    have hseq := toNat_add_one (show seq.toNat + 1 < 2 ^ 64 by omega)
    rw [messages, List.map_cons, ih (by omega), List.length_cons, List.range'_succ,
      eventSequence_message, hseq]

theorem events_method (r : Outcome) (reason : StopReason) :
    ∃ (chunk usage : Bool) (last : Bytes),
      (last = lit "session/done" ∨ last = lit "session/failed") ∧
      (r.events reason).map Event.method =
        (if chunk then [lit "session/chunk"] else []) ++
          ((if usage then [lit "session/usage"] else []) ++ [last]) := by
  refine ⟨decide (reason = .completed), r.billed, (Event.ended reason).method, ?_, ?_⟩
  · cases reason <;> simp [Event.method]
  · unfold Outcome.events
    by_cases hc : reason = .completed <;> cases r.billed <;> simp [hc, Event.method]

/-- The turns of a session so far, and the events of the one that is running. -/
structure Spoken (l : Line) (turns : List (UInt64 × List Message)) (current : List Message) :
    Prop where
  split : emitted l.notes = (turns.map Prod.snd).flatten ++ current
  complete : ∀ t ∈ turns, IsTurn t.1 t.2
  ordered : (turns.map Prod.fst).Pairwise (· < ·)
  counted : calledTimes l.notes = turns.length + current.length
  numbered : (emitted l.notes).map (fun m => (eventSequence m).toNat) =
    List.range' 1 (emitted l.notes).length
  gone : l.session = none → current = []
  length : ∀ s, l.session = some s → s.eventSeq.toNat = (emitted l.notes).length
  behind : ∀ s, l.session = some s → ∀ t ∈ turns, t.1 ≤ s.turn
  idle : ∀ s, l.session = some s → s.running = false → current = []
  busy : ∀ s, l.session = some s → s.running = true → (∀ t ∈ turns, t.1 < s.turn) ∧
    ∃ m, current = [m] ∧ m.method = lit "session/started" ∧ eventTurn m = s.turn

variable {turns : List (UInt64 × List Message)} {current : List Message}

theorem Spoken.put (h : Spoken l turns current) (hs : l.session = some s) {s' : SessionCore}
    {notes : List Note} (hemitted : emitted notes = emitted l.notes)
    (hcalled : calledTimes notes = calledTimes l.notes) (ht : s'.turn = s.turn)
    (hr : s'.running = s.running) (he : s'.eventSeq = s.eventSeq) :
    Spoken { l with session := some s', notes := notes } turns current := by
  refine ⟨by rw [hemitted]; exact h.split, h.complete, h.ordered,
    by rw [hcalled]; exact h.counted, by rw [hemitted]; exact h.numbered, by simp, ?_, ?_, ?_, ?_⟩
  · rintro _ ⟨⟩
    rw [hemitted, he]
    exact h.length s hs
  · rintro _ ⟨⟩
    rw [ht]
    exact h.behind s hs
  · rintro _ ⟨⟩
    rw [hr]
    exact h.idle s hs
  · rintro _ ⟨⟩
    rw [hr, ht]
    exact h.busy s hs

theorem emitted_handed (l : List Message) (ok : Bool) :
    emitted (l.map (Note.handed id · ok)) = [] := by
  simp [emitted]

theorem calledTimes_eq_zero {notes : List Note}
    (h : ∀ n ∈ notes, ∃ m, n = .emitted id m ∨ ∃ ok, n = .handed id m ok) :
    calledTimes notes = 0 := by
  unfold calledTimes
  rw [List.countP_eq_zero]
  intro n hn
  obtain ⟨m, rfl | ⟨ok, rfl⟩⟩ := h n hn <;> simp

theorem toNat_lt_of_ne {n : UInt64} (h : n ≠ maxUint64) : n.toNat + 1 < 2 ^ 64 := by
  have hlt := n.toNat_lt
  have hne : n.toNat ≠ maxUint64.toNat := fun he => h (UInt64.toNat_inj.mp he)
  have hmax : maxUint64.toNat = 2 ^ 64 - 1 := by decide
  omega

theorem Spoken.start (h : Spoken l turns current) (hs : l.session = some s)
    (hr : s.running = false) (hturn : s.turn ≠ maxUint64) (hseq : s.eventSeq ≤ maxUint64 - 4)
    {c : Call} {calls : List Call} :
    Spoken { l with
      session := some (s.begin.emit onEvent id accepts .started).1
      calls := calls
      notes := l.notes ++
        ((s.begin.emit onEvent id accepts .started).2 ++ [.called id c.requestID]) }
      turns [Event.started.message id (s.turn + 1) (s.eventSeq + 1)] := by
  have hroom := toNat_le_of_roomy hseq
  have hnext := toNat_add_one (show s.eventSeq.toNat + 1 < 2 ^ 64 by omega)
  have hstep := toNat_add_one (toNat_lt_of_ne hturn)
  obtain rfl := h.idle s hs hr
  have hemitted : emitted (l.notes ++
      ((s.begin.emit onEvent id accepts .started).2 ++ [.called id c.requestID])) =
      emitted l.notes ++ [Event.started.message id (s.turn + 1) (s.eventSeq + 1)] := by
    rw [emitted_append, emitted_append, emit_emitted]
    rfl
  have hlater : ∀ t ∈ turns, t.1 < s.turn + 1 := by
    intro t ht
    have hle := UInt64.le_iff_toNat_le.mp (h.behind s hs t ht)
    exact UInt64.lt_iff_toNat_lt.mpr (by omega)
  refine ⟨?_, h.complete, h.ordered, ?_, ?_, by simp, ?_, ?_, ?_, ?_⟩
  · rw [hemitted, h.split, List.append_nil]
  · rw [calledTimes_append, calledTimes_append, calledTimes_eq_zero emit_notes, h.counted]
    simp [calledTimes]
  · rw [hemitted, List.map_append, h.numbered, List.length_append, List.length_singleton,
      List.range'_1_concat, List.map_singleton, eventSequence_message, hnext, ← h.length s hs,
      Nat.add_comm 1]
  · rintro _ ⟨⟩
    rw [hemitted, emit_eventSeq, begin_eventSeq, hnext, h.length s hs, List.length_append,
      List.length_singleton]
  · rintro _ ⟨⟩ t ht
    rw [emit_sameTurn.turn]
    exact UInt64.le_of_lt (hlater t ht)
  · rintro _ ⟨⟩ hf
    rw [emit_sameTurn.running] at hf
    cases hf
  · rintro _ ⟨⟩ _
    rw [emit_sameTurn.turn]
    exact ⟨hlater, _, rfl, rfl, eventTurn_message _ _ _ _⟩

theorem Spoken.settle (h : Spoken l turns current) (hs : l.session = some s)
    (hr : s.running = true) (hroom : s.eventSeq.toNat + 3 < 2 ^ 64) {r : Outcome}
    {ledger : Ledger} {reason : StopReason} {response : Message} {requestID : Bytes} :
    Spoken { l with
      session :=
        if s.closed then none
        else some (((s.book ledger).emits onEvent id accepts (r.events reason)).1.finish
          requestID response)
      calls := []
      notes := l.notes ++ (((s.book ledger).emits onEvent id accepts
        (r.events reason)).2 ++ [.settled id requestID response]) }
      (turns ++ [(s.turn, current ++ messages id s.turn s.eventSeq (r.events reason))]) [] := by
  obtain ⟨hbefore, m, rfl, hmethod, hturn⟩ := h.busy s hs hr
  have hlen := events_length r reason
  have hemitted : emitted (l.notes ++ (((s.book ledger).emits onEvent
      id accepts (r.events reason)).2 ++ [.settled id requestID response])) =
      emitted l.notes ++ messages id s.turn s.eventSeq (r.events reason) := by
    rw [emitted_append, emitted_append, emits_emitted, book_turn, book_eventSeq]
    simp [emitted]
  have hlive : ∀ s', (if s.closed then none
        else some (((s.book ledger).emits onEvent id accepts (r.events reason)).1.finish
          requestID response)) = some s' →
      s'.turn = s.turn ∧ s'.running = false ∧
        s'.eventSeq.toNat = s.eventSeq.toNat + (r.events reason).length := by
    intro s' hs'
    split_ifs at hs'
    obtain rfl := Option.some.inj hs'
    refine ⟨?_, rfl, ?_⟩
    · rw [finish_turn, emits_sameTurn.turn, book_turn]
    · rw [finish_eventSeq, emits_eventSeq (by rw [book_eventSeq]; omega), book_eventSeq]
  refine ⟨?_, ?_, ?_, ?_, ?_, fun _ => rfl, ?_, ?_, fun _ _ _ => rfl, ?_⟩
  · rw [hemitted, h.split]
    simp
  · intro t ht
    rcases List.mem_append.mp ht with ht | ht
    · exact h.complete t ht
    · obtain rfl := List.mem_singleton.mp ht
      obtain ⟨chunk, usage, last, hlast, hevents⟩ := events_method r reason
      refine ⟨?_, chunk, usage, last, hlast, ?_⟩
      · intro x hx
        rcases List.mem_cons.mp hx with rfl | hx
        · exact hturn
        · exact messages_turn _ _ _ x hx
      · rw [List.singleton_append, List.map_cons, hmethod, messages_method, hevents]
  · rw [List.map_append, List.pairwise_append]
    refine ⟨h.ordered, by simp, ?_⟩
    intro a ha b hb
    obtain ⟨t, ht, rfl⟩ := List.mem_map.mp ha
    obtain rfl : b = s.turn := by simpa using hb
    exact hbefore t ht
  · rw [calledTimes_append, calledTimes_append, calledTimes_eq_zero emits_notes, h.counted]
    simp [calledTimes]
  · rw [hemitted, List.map_append, h.numbered, messages_sequence (by omega), List.length_append,
      messages_length, h.length s hs, Nat.add_comm _ 1, ← List.range'_append]
    simp
  · intro s' hs'
    rw [hemitted, (hlive s' hs').2.2, List.length_append, messages_length, h.length s hs]
  · intro s' hs' t ht
    rw [(hlive s' hs').1]
    rcases List.mem_append.mp ht with ht | ht
    · exact h.behind s hs t ht
    · obtain rfl := List.mem_singleton.mp ht
      exact UInt64.le_refl _
  · intro s' hs' hrun
    rw [(hlive s' hs').2.1] at hrun
    cases hrun

theorem Spoken.step (h : Spoken l turns current) (hsound : Sound l)
    (hs : Step onEvent id l l') : ∃ turns' current', Spoken l' turns' current' := by
  cases hs with
  | opened hi =>
    have hnotes := (hsound.unissued hi).2
    refine ⟨[], [], ?_⟩
    constructor <;> simp [hnotes, emitted, calledTimes, SessionCore.fresh]
  | suspended hs => exact ⟨_, _, h.put hs rfl rfl rfl rfl rfl⟩
  | cancelled hs => exact ⟨_, _, h.put hs rfl rfl rfl rfl rfl⟩
  | released hs hr =>
    exact ⟨_, _, h.split, h.complete, h.ordered, h.counted, h.numbered,
      fun _ => h.idle _ hs hr, by simp, by simp, by simp, by simp⟩
  | resumed hs =>
    refine ⟨_, _, h.put hs ?_ ?_ rfl rfl rfl⟩
    · simp [emitted_handed]
    · simp [calledTimes]
  | started hs _ hr _ hturn hseq => exact ⟨_, _, h.start hs hr hturn hseq⟩
  | settled hs hc =>
    exact ⟨_, _, h.settle hs (hsound.running_of_calls hs hc) (hsound.room_of_calls hs hc)⟩

/-! ## Remembered results -/

/-- Every request that was made is either in flight or remembered, and what is remembered is the
first answer. -/
structure Remembers (id : Bytes) (l : Line) (s : SessionCore) : Prop where
  asked : ∀ requestID ≠ [], .called id requestID ∈ l.notes →
    (∃ c ∈ l.calls, c.requestID = requestID) ∨ s.requests[requestKey requestID]? ≠ none
  kept : ∀ requestID ≠ [], ∀ response, .settled id requestID response ∈ l.notes →
    s.requests[requestKey requestID]? = some { response with id := [] }
  waiting : ∀ c ∈ l.calls, c.requestID ≠ [] →
    s.requests[requestKey c.requestID]? = none ∧ s.requests.size < maxReplayRequests
  size : s.requests.size ≤ maxReplayRequests

structure Remembered (id : Bytes) (l : Line) : Prop where
  once : ∀ requestID ≠ [], l.notes.count (.called id requestID) ≤ 1
  live : ∀ s, l.session = some s → Remembers id l s

theorem count_called_eq_zero {notes : List Note} {requestID : Bytes}
    (h : ∀ n ∈ notes, ∃ m, n = .emitted id m ∨ ∃ ok, n = .handed id m ok) :
    notes.count (.called id requestID) = 0 := by
  rw [List.count_eq_zero]
  intro hn
  obtain ⟨m, he | ⟨ok, he⟩⟩ := h _ hn <;> cases he

theorem requestKey_inj {a b : Bytes} (h : requestKey a = requestKey b) : a = b :=
  List.append_cancel_left h

theorem Remembered.put (h : Remembered id l) (hs : l.session = some s) {s' : SessionCore}
    {notes total : List Note} (htotal : total = l.notes ++ notes)
    (hnotes : ∀ n ∈ notes, ∃ m, n = .emitted id m ∨ ∃ ok, n = .handed id m ok)
    (hr : s'.requests = s.requests) :
    Remembered id { l with session := some s', notes := total } := by
  subst htotal
  have hlive := h.live s hs
  have hold : ∀ n ∈ l.notes ++ notes, n ∈ l.notes ∨
      ∃ m, n = .emitted id m ∨ ∃ ok, n = .handed id m ok := by
    intro n hn
    rcases List.mem_append.mp hn with hn | hn
    · exact .inl hn
    · exact .inr (hnotes n hn)
  refine ⟨fun requestID hne => ?_, ?_⟩
  · rw [List.count_append, count_called_eq_zero hnotes]
    exact h.once requestID hne
  · rintro _ ⟨⟩
    refine ⟨fun requestID hne hn => ?_, fun requestID hne response hn => ?_, ?_, ?_⟩
    · rw [hr]
      rcases hold _ hn with hn | ⟨m, he | ⟨ok, he⟩⟩
      · exact hlive.asked requestID hne hn
      · cases he
      · cases he
    · rw [hr]
      rcases hold _ hn with hn | ⟨m, he | ⟨ok, he⟩⟩
      · exact hlive.kept requestID hne response hn
      · cases he
      · cases he
    · rw [hr]
      exact hlive.waiting
    · rw [hr]
      exact hlive.size

theorem Remembered.start (h : Remembered id l) (hs : l.session = some s) (hcalls : l.calls = [])
    {c : Call} (hc : c.requestID ≠ [] → s.requests.size < maxReplayRequests ∧
      s.requests[requestKey c.requestID]? = none) :
    Remembered id { l with
      calls := l.calls ++ [c]
      notes := l.notes ++ [.called id c.requestID] } := by
  have hlive := h.live s hs
  have hfresh : c.requestID ≠ [] → .called id c.requestID ∉ l.notes := by
    intro hne hn
    rcases hlive.asked _ hne hn with ⟨c', hc', -⟩ | hsome
    · rw [hcalls] at hc'
      cases hc'
    · exact hsome (hc hne).2
  refine ⟨fun requestID hne => ?_, fun s' hs' => ?_⟩
  · rw [List.count_append]
    by_cases heq : c.requestID = requestID
    · subst heq
      rw [List.count_eq_zero.mpr (hfresh hne)]
      simp
    · have hzero : List.count (Note.called id requestID) [.called id c.requestID] = 0 := by
        simp [heq]
      rw [hzero]
      exact h.once requestID hne
  · obtain rfl : s = s' := Option.some.inj (hs.symm.trans hs')
    refine ⟨fun requestID hne hn => ?_, fun requestID hne response hn => ?_, ?_, hlive.size⟩
    · rcases List.mem_append.mp hn with hn | hn
      · rcases hlive.asked requestID hne hn with ⟨c', hc', -⟩ | hsome
        · rw [hcalls] at hc'
          cases hc'
        · exact .inr hsome
      · obtain rfl : requestID = c.requestID := by simpa using hn
        exact .inl ⟨c, by simp, rfl⟩
    · exact hlive.kept requestID hne response (by simpa using hn)
    · intro c' hc' hne
      rw [hcalls, List.nil_append, List.mem_singleton] at hc'
      subst hc'
      exact ⟨(hc hne).2, (hc hne).1⟩

theorem Remembered.settle (h : Remembered id l) (hs : l.session = some s) {c : Call}
    (hc : l.calls = [c]) (response : Message) :
    Remembered id { l with
      session := some (s.finish c.requestID response)
      calls := []
      notes := l.notes ++ [.settled id c.requestID response] } := by
  have hlive := h.live s hs
  have hmem : c ∈ l.calls := by simp [hc]
  have hr : (s.finish c.requestID response).requests =
      (remember c.requestID response s).requests := rfl
  have hget : ∀ requestID ≠ [],
      (s.finish c.requestID response).requests[requestKey requestID]? =
      if c.requestID = requestID then some { response with id := [] }
      else s.requests[requestKey requestID]? := by
    intro requestID hne
    rw [hr]
    unfold remember
    by_cases heq : c.requestID = requestID
    · subst heq
      simp [hne]
    · rw [if_neg heq]
      split_ifs
      · rw [Table.get_insert_ne _ _ fun hk => heq (requestKey_inj hk)]
      · rfl
  refine ⟨fun requestID hne => ?_, ?_⟩
  · rw [List.count_append]
    simpa using h.once requestID hne
  · rintro _ ⟨⟩
    refine ⟨fun requestID hne hn => .inr ?_, fun requestID hne r hn => ?_, by simp, ?_⟩
    · rw [hget requestID hne]
      split_ifs with heq
      · simp
      · rcases hlive.asked requestID hne (by simpa using hn) with ⟨c', hc', heq'⟩ | hsome
        · rw [hc, List.mem_singleton] at hc'
          subst hc'
          exact absurd heq' heq
        · exact hsome
    · rw [hget requestID hne]
      rcases List.mem_append.mp hn with hn | hn
      · have hkept := hlive.kept requestID hne r hn
        split_ifs with heq
        · -- an earlier answer would be remembered, but the call in flight found none
          subst heq
          rw [(hlive.waiting c hmem hne).1] at hkept
          cases hkept
        · exact hkept
      · simp only [List.mem_singleton, Note.settled.injEq] at hn
        obtain ⟨-, rfl, rfl⟩ := hn
        rw [if_pos rfl]
    · rw [hr]
      unfold remember
      split_ifs with hne
      · have hsize := (hlive.waiting c hmem hne).2
        have hle : (s.requests.insert (requestKey c.requestID) { response with id := [] }).size ≤
            s.requests.size + 1 := Std.ExtTreeMap.size_insert_le
        dsimp only
        omega
      · exact hlive.size

theorem Remembered.step (h : Remembered id l) (hsound : Sound l) (hs : Step onEvent id l l') :
    Remembered id l' := by
  cases hs with
  | opened hi =>
    obtain ⟨hnone, hnotes⟩ := hsound.unissued hi
    refine ⟨h.once, ?_⟩
    rintro _ ⟨⟩
    constructor <;> simp [hnotes, hsound.gone hnone, SessionCore.fresh]
  | suspended hs => exact h.put hs (List.append_nil _).symm (by simp) rfl
  | cancelled hs => exact h.put hs (List.append_nil _).symm (by simp) rfl
  | released => exact ⟨h.once, by simp⟩
  | resumed hs =>
    refine h.put hs rfl (fun n hn => ?_) rfl
    simp only [List.mem_append, List.mem_map] at hn
    rcases hn with ⟨m, -, rfl⟩ | ⟨m, -, rfl⟩
    · exact ⟨m, .inr ⟨_, rfl⟩⟩
    · exact ⟨m, .inr ⟨_, rfl⟩⟩
  | @started s accepts c hs _ hr hc =>
    have hcalls := (hsound.idle _ hs hr).1
    have hsame : (s.begin.emit onEvent id accepts .started).1.requests = s.requests :=
      emit_sameTurn.requests
    rw [← List.append_assoc]
    exact (h.put hs rfl emit_notes hsame).start rfl hcalls (by rwa [hsame])
  | @settled s accepts c r ledger reason response hs hc =>
    have hsame : ((s.book ledger).emits onEvent id accepts (r.events reason)).1.requests =
        s.requests := emits_sameTurn.requests
    rw [← List.append_assoc]
    have hnotes : ∀ n ∈ ((s.book ledger).emits onEvent id accepts (r.events reason)).2,
        ∃ m, n = .emitted id m ∨ ∃ ok, n = .handed id m ok := emits_notes
    have hend := (h.put hs rfl hnotes hsame).settle rfl hc response
    split_ifs
    · exact ⟨hend.once, by simp⟩
    · exact hend

/-! ## All of it -/

structure Good (onEvent : Bool) (id : Bytes) (l : Line) : Prop where
  sound : Sound l
  delivered : Delivered onEvent l
  spoken : ∃ turns current, Spoken l turns current
  remembered : Remembered id l

theorem good_empty : Good onEvent id ⟨none, [], [], false⟩ := by
  refine ⟨?_, ⟨⟨0, rfl⟩, by simp⟩, ⟨[], [], ?_⟩, ⟨by simp, by simp⟩⟩
  · constructor <;> simp
  · constructor <;> simp [emitted, calledTimes]

theorem Good.step (h : Good onEvent id l) (hs : Step onEvent id l l') : Good onEvent id l' := by
  obtain ⟨turns, current, hspoken⟩ := h.spoken
  exact ⟨h.sound.step hs, h.delivered.step h.sound hs, hspoken.step h.sound hs,
    h.remembered.step h.sound hs⟩

theorem Good.steps (h : Good onEvent id l)
    (hs : Relation.ReflTransGen (Step onEvent id) l l') : Good onEvent id l' := by
  induction hs with
  | refl => exact h
  | tail _ hstep ih => exact ih.step hstep

end Line
end Aok.Protocol
