import Aok.Runtime.EngineLine

/-!
# The retained history

Events are appended at one end and evicted at the other, by the session's own limits and by the
engine's. `Kept` ties the byte counts and the numbers of the retained events to the history
itself, `Bounded` holds it within the limits, and `Trims` is all an eviction can do to anything
else.
-/

namespace Aok.Protocol.Engine
open Lib Lib.Utf8 Aok.Runtime List Option Table

variable {f : EngineSession → EngineSession}

def bytesOf (l : List Message) : ℕ := (l.map fun m => m.params.length).sum

@[simp] theorem bytesOf_nil : bytesOf [] = 0 := rfl

@[simp] theorem bytesOf_cons (m : Message) (l : List Message) :
    bytesOf (m :: l) = m.params.length + bytesOf l := by simp [bytesOf]

@[simp] theorem bytesOf_append (l l' : List Message) :
    bytesOf (l ++ l') = bytesOf l + bytesOf l' := by simp [bytesOf]

def held (e : Engine) : ℕ := Table.total (fun id _ => bytesOf (e.history id)) e.sessions

/-- The retained events of a session carry the numbers after its floor. -/
structure Numbered (s : EngineSession) (l : List Message) : Prop where
  upTo : s.historyFloor.toNat + l.length = s.eventSeq.toNat
  each : l.map (fun m => (eventSequence m).toNat) = range' (s.historyFloor.toNat + 1) l.length

structure Kept (e : Engine) : Prop where
  bytes : ∀ (id : Bytes) s, e.sessions[id]? = some s → s.historyBytes = (bytesOf (e.history id) : ℤ)
  numbers : ∀ (id : Bytes) s, e.sessions[id]? = some s → Numbered s (e.history id)
  owned : ∀ id : Bytes, e.sessions[id]? = none → e.events[id]? = none
  total : e.historyBytes = (e.held : ℤ)

def Within (l : List Message) : Prop :=
  l.length ≤ maxHistoryEvents ∧ (bytesOf l : ℤ) ≤ maxHistoryBytes

structure Bounded (e : Engine) : Prop where
  session : ∀ id, Within (e.history id)
  engine : e.historyBytes ≤ maxEngineHistoryBytes
  always : ∀ r ∈ e.retentions, r.events ≤ maxHistoryEvents ∧ r.bytes ≤ maxHistoryBytes ∧
    r.total ≤ maxEngineHistoryBytes

variable {e e' e'' : Engine} {id j : Bytes} {s s' : EngineSession} {m : Message}
  {l rest : List Message} {w : World}

/-! ## Parts of the state -/

def core (e : Engine) (id : Bytes) : Option SessionCore :=
  (e.sessions[id]?).map EngineSession.toSessionCore

theorem core_of_get (h : e.sessions[id]? = some s) : e.core id = some s.toSessionCore := by
  rw [core, h]
  rfl

theorem get_updateSession :
    (e.updateSession id f).sessions[j]? =
      if id = j then (e.sessions[j]?).map f else e.sessions[j]? :=
  get_updateTable f id j e.sessions

theorem updateSession_sessions (hs : e.sessions[id]? = some s) :
    (e.updateSession id f).sessions = e.sessions.insert id (f s) := by
  unfold updateSession updateTable
  rw [hs]

theorem history_insert {events : Table Bytes (List Message)} (h : e'.events = events.insert id l) :
    e'.history j = if id = j then l else (events[j]?).getD [] := by
  rw [history, h, get_insert]
  split_ifs <;> rfl

theorem history_eq_nil (h : Kept e) (hs : e.sessions[id]? = none) : e.history id = [] := by
  rw [history, h.owned id hs]
  rfl

theorem total_others (t : Table Bytes EngineSession)
    (hrest : ∀ j, j ≠ id → e'.history j = e.history j) :
    Table.total (fun j _ => bytesOf (e'.history j)) (t.erase id) =
      Table.total (fun j _ => bytesOf (e.history j)) (t.erase id) := by
  refine total_congr fun j v hv => ?_
  have hj : j ≠ id := by
    rintro rfl
    simp at hv
  rw [hrest j hj]

theorem held_replace (hs : e.sessions[id]? = some s) (hs' : e'.sessions = e.sessions.insert id s')
    (hrest : ∀ j, j ≠ id → e'.history j = e.history j) :
    e'.held + bytesOf (e.history id) = e.held + bytesOf (e'.history id) := by
  rw [held, held, hs', total_insert, total_of_get _ hs, total_others _ hrest]
  omega

theorem held_release (hs : e.sessions[id]? = some s) (hs' : e'.sessions = e.sessions.erase id)
    (hrest : ∀ j, j ≠ id → e'.history j = e.history j) :
    e'.held + bytesOf (e.history id) = e.held := by
  rw [held, held, hs', total_of_get _ hs, total_others _ hrest]
  omega

theorem Kept.replace (h : Kept e) (hs : e.sessions[id]? = some s)
    (hs' : e'.sessions = e.sessions.insert id s')
    (hrest : ∀ j, j ≠ id → e'.events[j]? = e.events[j]?)
    (hbytes : s'.historyBytes = (bytesOf (e'.history id) : ℤ)) (hnum : Numbered s' (e'.history id))
    (htotal : e'.historyBytes + bytesOf (e.history id) = e.historyBytes + bytesOf (e'.history id)) :
    Kept e' := by
  have hhist : ∀ j, j ≠ id → e'.history j = e.history j := fun j hj => by
    rw [history, history, hrest j hj]
  refine ⟨fun j t ht => ?_, fun j t ht => ?_, fun j hj => ?_, ?_⟩
  · rw [hs', get_insert] at ht
    split_ifs at ht with hj
    · obtain rfl := Option.some.inj ht
      exact hj ▸ hbytes
    · rw [hhist j (Ne.symm hj)]
      exact h.bytes j t ht
  · rw [hs', get_insert] at ht
    split_ifs at ht with hj
    · obtain rfl := Option.some.inj ht
      exact hj ▸ hnum
    · rw [hhist j (Ne.symm hj)]
      exact h.numbers j t ht
  · rw [hs', get_insert] at hj
    split_ifs at hj with hne
    rw [hrest j (Ne.symm hne)]
    exact h.owned j hj
  · have hheld := held_replace hs hs' hhist
    have := h.total
    omega

/-! ## Evictions -/

theorem evictOldest_eq (hl : e.history id = m :: rest) :
    e.evictOldest id = { e.updateSession id fun s => { s with
        historyBytes := s.historyBytes - m.params.length
        historyFloor := s.historyFloor + 1 } with
      historyBytes := e.historyBytes - m.params.length
      events := e.events.insert id rest } := by
  rw [evictOldest, hl]

theorem evictOldest_nil (hl : e.history id = []) : e.evictOldest id = e := by
  rw [evictOldest, hl]

/-- What an eviction leaves as it is, and that history is lost at its old end only. -/
structure Trims (e e' : Engine) : Prop where
  core : ∀ id, e'.core id = e.core id
  history : ∀ id, e'.history id <:+ e.history id
  calls : e'.calls = e.calls
  log : e'.log = e.log
  nextSession : e'.nextSession = e.nextSession
  onEvent : e'.onEvent = e.onEvent
  closed : e'.closed = e.closed
  retentions : e'.retentions = e.retentions

theorem Trims.refl (e : Engine) : Trims e e :=
  ⟨fun _ => rfl, fun _ => suffix_rfl, rfl, rfl, rfl, rfl, rfl, rfl⟩

theorem Trims.trans (h : Trims e e') (h' : Trims e' e'') : Trims e e'' :=
  ⟨fun id => (h'.core id).trans (h.core id), fun id => (h'.history id).trans (h.history id),
    h'.calls.trans h.calls, h'.log.trans h.log, h'.nextSession.trans h.nextSession,
    h'.onEvent.trans h.onEvent, h'.closed.trans h.closed, h'.retentions.trans h.retentions⟩

theorem evictOldest_trims (e : Engine) (id : Bytes) : Trims e (e.evictOldest id) := by
  cases hl : e.history id with
  | nil =>
    rw [evictOldest_nil hl]
    exact .refl e
  | cons m rest =>
    rw [evictOldest_eq hl]
    refine ⟨fun j => ?_, fun j => ?_, rfl, rfl, rfl, rfl, rfl, rfl⟩
    · rw [core, core, get_updateSession]
      split_ifs
      · rw [Option.map_map]
        rfl
      · rfl
    · rw [history_insert rfl]
      split_ifs with hj
      · rw [← hj, hl]
        exact suffix_cons m rest
      · exact suffix_rfl

theorem evictOldest_kept (h : Kept e) (id : Bytes) : Kept (e.evictOldest id) := by
  cases hl : e.history id with
  | nil =>
    rw [evictOldest_nil hl]
    exact h
  | cons m rest =>
    obtain ⟨s, hs⟩ : ∃ s, e.sessions[id]? = some s := by
      rw [← ne_none_iff_exists']
      intro hs
      rw [history_eq_nil h hs] at hl
      cases hl
    rw [evictOldest_eq hl]
    have hbytes := h.bytes id s hs
    have hup := (h.numbers id s hs).upTo
    have heach := (h.numbers id s hs).each
    rw [hl, bytesOf_cons] at hbytes
    rw [hl, length_cons] at hup
    rw [hl, map_cons, length_cons, range'_succ, List.cons.injEq] at heach
    have hfloor : (s.historyFloor + 1).toNat = s.historyFloor.toNat + 1 := by
      have hlt := s.eventSeq.toNat_lt
      exact Line.toNat_add_one (by omega)
    refine h.replace hs (updateSession_sessions hs)
      (fun j hj => get_insert_ne _ _ (Ne.symm hj)) ?_ ?_ ?_
    · rw [history_insert rfl, if_pos rfl]
      simp only [hbytes]
      omega
    · rw [history_insert rfl, if_pos rfl]
      exact ⟨by simp only [hfloor]; omega, by simp only [hfloor]; exact heach.2⟩
    · rw [hl, history_insert rfl, if_pos rfl, bytesOf_cons]
      dsimp only
      omega

/-! ## The largest holder -/

theorem mem_visit {order keys : List Bytes} : id ∈ visit order keys ↔ id ∈ keys := by
  simp only [visit, mem_append, mem_dedup, mem_filter, decide_eq_true_eq]
  by_cases h : id ∈ order <;> simp [h]

theorem foldl_larger_some {ids : List Bytes} {chosen : Option Bytes} {v : Bytes}
    (h : ids.foldl e.larger chosen = some v) :
    chosen = some v ∨ v ∈ ids ∧ e.history v ≠ [] := by
  induction ids generalizing chosen with
  | nil => exact .inl h
  | cons id ids ih =>
    rcases ih h with hl | ⟨hv, hne⟩
    · unfold larger at hl
      split_ifs at hl with hempty
      · exact .inl hl
      · cases chosen with
        | none =>
          obtain rfl := Option.some.inj hl
          exact .inr ⟨mem_cons_self, hempty⟩
        | some c =>
          dsimp only at hl
          split_ifs at hl
          · obtain rfl := Option.some.inj hl
            exact .inr ⟨mem_cons_self, hempty⟩
          · exact .inl hl
    · exact .inr ⟨mem_cons_of_mem _ hv, hne⟩

theorem foldl_larger_none {ids : List Bytes} {chosen : Option Bytes}
    (h : ids.foldl e.larger chosen = none) : chosen = none ∧ ∀ id ∈ ids, e.history id = [] := by
  induction ids generalizing chosen with
  | nil => exact ⟨h, by simp⟩
  | cons id ids ih =>
    obtain ⟨hl, hrest⟩ := ih h
    unfold larger at hl
    split_ifs at hl with hempty
    · exact ⟨hl, by simpa using ⟨hempty, hrest⟩⟩
    · cases chosen with
      | none => cases hl
      | some c =>
        dsimp only at hl
        split_ifs at hl

theorem victim_some {v : Bytes} (h : e.victim w = some v) : v ∈ e.sessions ∧ e.history v ≠ [] := by
  rcases foldl_larger_some h with h | ⟨hv, hne⟩
  · cases h
  · rw [mem_visit, Std.ExtTreeMap.mem_keys] at hv
    exact ⟨hv, hne⟩

theorem victim_none (h : e.victim w = none) (hs : e.sessions[id]? = some s) :
    e.history id = [] := by
  refine (foldl_larger_none h).2 id ?_
  rw [mem_visit, Std.ExtTreeMap.mem_keys]
  exact Std.ExtTreeMap.mem_iff_isSome_getElem?.mpr (by rw [hs]; rfl)

/-! ## The eviction loops -/

theorem trimSession_trims (e : Engine) (id : Bytes) : Trims e (e.trimSession id) :=
  Loop.run_rule (Trims e) (fun e' h _ => h.trans (evictOldest_trims e' id)) _ (.refl e)

theorem trimSession_kept (h : Kept e) (id : Bytes) : Kept (e.trimSession id) :=
  Loop.run_rule Kept (fun _ h _ => evictOldest_kept h id) _ h

theorem evictLargest_trims (w : World) (e : Engine) : Trims e (e.evictLargest w) := by
  unfold evictLargest
  split
  · exact evictOldest_trims e _
  · exact .refl e

theorem evictLargest_kept (h : Kept e) (w : World) : Kept (e.evictLargest w) := by
  unfold evictLargest
  split
  · exact evictOldest_kept h _
  · exact h

theorem trimEngine_trims (w : World) (e : Engine) : Trims e (e.trimEngine w) :=
  Loop.run_rule (Trims e) (fun e' h _ => h.trans (evictLargest_trims w e')) _ (.refl e)

theorem trimEngine_kept (h : Kept e) (w : World) : Kept (e.trimEngine w) :=
  Loop.run_rule Kept (fun _ h _ => evictLargest_kept h w) _ h

theorem ends_trimSession (e : Engine) (id : Bytes) :
    Loop.Ends (sessionFull id) (evictOldest id) e (e.trimSession id) := by
  refine Loop.ends_run (fun e => (e.history id).length) (fun e hc => ?_) le_rfl
  simp only [sessionFull, Bool.and_eq_true, decide_eq_true_eq] at hc
  obtain ⟨m, rest, hl⟩ := exists_cons_of_length_pos hc.1
  rw [evictOldest_eq hl, history_insert rfl, if_pos rfl, hl]
  exact Nat.lt_succ_self _

theorem ends_trimEngine (w : World) (e : Engine) :
    Loop.Ends (engineFull w) (evictLargest w) e (e.trimEngine w) := by
  refine Loop.ends_run retained (fun e hc => ?_) le_rfl
  simp only [engineFull, Bool.and_eq_true, isSome_iff_exists] at hc
  obtain ⟨v, hv⟩ := hc.2
  obtain ⟨-, hne⟩ := victim_some hv
  obtain ⟨m, rest, hl⟩ := exists_cons_of_ne_nil hne
  have hget : e.events[v]? = some (m :: rest) := by
    unfold history at hl
    cases hg : e.events[v]? with
    | none =>
      rw [hg] at hl
      cases hl
    | some l =>
      rw [hg] at hl
      exact congrArg some hl
  rw [evictLargest, hv]
  dsimp only
  rw [evictOldest_eq hl, retained, retained, total_insert, total_of_get _ hget]
  simp

theorem Within.suffix (h : Within l) {l' : List Message} (hs : l' <:+ l) : Within l' := by
  obtain ⟨lost, rfl⟩ := hs
  unfold Within at h ⊢
  rw [length_append, bytesOf_append] at h
  omega

theorem Trims.get (h : Trims e e') (hs : e.sessions[id]? = some s) :
    ∃ s', e'.sessions[id]? = some s' ∧ s'.toSessionCore = s.toSessionCore := by
  have hcore := h.core id
  rw [core_of_get hs] at hcore
  exact map_eq_some_iff.mp hcore

theorem trimSession_within (h : Kept e) (hs : e.sessions[id]? = some s) :
    Within ((e.trimSession id).history id) := by
  obtain ⟨s', hs', -⟩ := (trimSession_trims e id).get hs
  have hexit := (ends_trimSession e id).exit_cond
  have hbytes := (trimSession_kept h id).bytes id s' hs'
  have hsize : (e.trimSession id).sessionBytes id = s'.historyBytes := by rw [sessionBytes, hs']
  simp only [sessionFull, Bool.and_eq_false_iff, decide_eq_false_iff_not, Bool.or_eq_false_iff,
    hsize, hbytes] at hexit
  rcases hexit with hempty | ⟨hlen, hle⟩
  · have hnil : (e.trimSession id).history id = [] := eq_nil_of_length_eq_zero (by omega)
    rw [hnil]
    exact ⟨by decide, by decide⟩
  · exact ⟨by omega, by omega⟩

theorem held_eq_zero (h : ∀ (id : Bytes) s, e.sessions[id]? = some s → e.history id = []) :
    e.held = 0 := by
  have hzero : e.held = Table.total (fun _ _ => 0) e.sessions :=
    total_congr fun id s hs => by rw [h id s hs, bytesOf_nil]
  rw [hzero]
  simp [Table.total]

theorem trimEngine_bytes (h : Kept e) (w : World) :
    (e.trimEngine w).historyBytes ≤ maxEngineHistoryBytes := by
  have hexit := (ends_trimEngine w e).exit_cond
  simp only [engineFull, Bool.and_eq_false_iff, decide_eq_false_iff_not, isSome_eq_false_iff,
    isNone_iff_eq_none] at hexit
  rcases hexit with hle | hnone
  · exact not_lt.mp hle
  · -- nothing is left to evict
    rw [(trimEngine_kept h w).total, held_eq_zero fun id s hs => victim_none hnone hs]
    decide

/-! ## Events -/

theorem append_kept (h : Kept e) (hs : e.sessions[id]? = some s)
    (hseq : eventSequence m = s.eventSeq + 1) (hroom : s.eventSeq.toNat + 1 < 2 ^ 64) :
    Kept (e.append id s m) := by
  have hbytes := h.bytes id s hs
  have hnext := Line.toNat_add_one hroom
  have hhist : (e.append id s m).history id = e.history id ++ [m] := by
    rw [history_insert rfl, if_pos rfl]
  refine h.replace hs rfl (fun j hj => get_insert_ne _ _ (Ne.symm hj)) ?_ ?_ ?_
  · rw [hhist, bytesOf_append, bytesOf_cons, bytesOf_nil]
    dsimp only
    omega
  · have hup := (h.numbers id s hs).upTo
    have heach := (h.numbers id s hs).each
    rw [hhist]
    refine ⟨?_, ?_⟩
    · rw [length_append, length_singleton]
      dsimp only
      omega
    · rw [map_append, heach, length_append, length_singleton, range'_1_concat,
        map_singleton, hseq, hnext, ← hup]
      simp [Nat.add_right_comm]
  · rw [hhist, bytesOf_append, bytesOf_cons, bytesOf_nil]
    dsimp only [append, note]
    omega

theorem updateSession_kept (h : Kept e)
    (hf : ∀ s, (f s).historyBytes = s.historyBytes ∧ (f s).historyFloor = s.historyFloor ∧
      (f s).eventSeq = s.eventSeq) : Kept (e.updateSession id f) := by
  cases hs : e.sessions[id]? with
  | none =>
    have hsame : e.updateSession id f = e := by
      unfold updateSession updateTable
      rw [hs]
    rw [hsame]
    exact h
  | some s =>
    have hnum := h.numbers id s hs
    refine h.replace hs (updateSession_sessions hs) (fun _ _ => rfl) ?_ ⟨?_, ?_⟩ rfl
    · rw [(hf s).1]
      exact h.bytes id s hs
    · rw [(hf s).2.1, (hf s).2.2]
      exact hnum.upTo
    · rw [(hf s).2.1]
      exact hnum.each

theorem note_kept (h : Kept e) (n : Note) : Kept (e.note n) :=
  ⟨h.bytes, h.numbers, h.owned, h.total⟩

theorem offer_kept (h : Kept e) : Kept (e.offer w id m) := by
  unfold offer
  split
  · split_ifs
    · refine note_kept (updateSession_kept h ?_) _
      exact fun s => ⟨rfl, rfl, rfl⟩
    · refine note_kept (updateSession_kept h ?_) _
      exact fun s => ⟨rfl, rfl, rfl⟩
    · exact h
  · exact h

theorem emit_eq (hs : e.sessions[id]? = some s) (event : Event) :
    e.emit w id event = ((((e.append id s (event.message id s.turn (s.eventSeq + 1))).trimSession
      id).trimEngine w).weigh id).offer w id (event.message id s.turn (s.eventSeq + 1)) := by
  rw [emit, hs]

theorem emit_kept (h : Kept e) (hs : e.sessions[id]? = some s)
    (hroom : s.eventSeq.toNat + 1 < 2 ^ 64) (event : Event) : Kept (e.emit w id event) := by
  rw [emit_eq hs]
  have happ := append_kept h hs (eventSequence_message event id s.turn _) hroom
  have htrim := trimEngine_kept (trimSession_kept happ id) w
  exact offer_kept ⟨htrim.bytes, htrim.numbers, htrim.owned, htrim.total⟩

theorem offer_bounded (h : Bounded e) : Bounded (e.offer w id m) := by
  have hsame : (e.offer w id m).events = e.events ∧ (e.offer w id m).historyBytes = e.historyBytes ∧
      (e.offer w id m).retentions = e.retentions := by
    unfold offer
    split
    · split_ifs <;> exact ⟨rfl, rfl, rfl⟩
    · exact ⟨rfl, rfl, rfl⟩
  refine ⟨fun j => ?_, by rw [hsame.2.1]; exact h.engine, by rw [hsame.2.2]; exact h.always⟩
  rw [history, hsame.1]
  exact h.session j

theorem emit_bounded (h : Bounded e) (hk : Kept e) (hs : e.sessions[id]? = some s)
    (hroom : s.eventSeq.toNat + 1 < 2 ^ 64) (event : Event) : Bounded (e.emit w id event) := by
  rw [emit_eq hs]
  set m := event.message id s.turn (s.eventSeq + 1)
  have happ : Kept (e.append id s m) :=
    append_kept hk hs (eventSequence_message event id s.turn _) hroom
  have hget : (e.append id s m).sessions[id]? = some _ := get_insert_self _ _ _
  have hsession := trimSession_kept happ id
  have hengine := trimEngine_kept hsession w
  have htrims := trimEngine_trims w ((e.append id s m).trimSession id)
  have hwithin : ∀ j, Within ((((e.append id s m).trimSession id).trimEngine w).history j) := by
    intro j
    refine Within.suffix ?_ (htrims.history j)
    by_cases hj : id = j
    · subst hj
      exact trimSession_within happ hget
    · refine Within.suffix (h.session j) ?_
      have hsuffix := (trimSession_trims (e.append id s m) id).history j
      rwa [show (e.append id s m).history j = e.history j by
        rw [history_insert rfl, if_neg hj]; rfl] at hsuffix
  have hbytes := trimEngine_bytes hsession w
  refine offer_bounded ⟨hwithin, hbytes, fun r hr => ?_⟩
  rcases mem_append.mp hr with hr | hr
  · rw [htrims.retentions, (trimSession_trims _ id).retentions] at hr
    exact h.always r hr
  · obtain rfl := mem_singleton.mp hr
    obtain ⟨s', hs', -⟩ := ((trimSession_trims _ id).trans htrims).get hget
    refine ⟨(hwithin id).1, ?_, hbytes⟩
    have hle := (hwithin id).2
    rw [← hengine.bytes id s' hs'] at hle
    rwa [sessionBytes, hs']

/-! ## One session at a time -/

/-- Only the session `id` changes, to `c`, and `notes` are added; history is left open. -/
structure Changes (id : Bytes) (e e' : Engine) (c : Option SessionCore) (notes : List Note) :
    Prop where
  here : e'.core id = c
  elsewhere : ∀ j, j ≠ id → e'.core j = e.core j
  log : e'.log = e.log ++ notes
  calls : e'.calls = e.calls
  nextSession : e'.nextSession = e.nextSession
  onEvent : e'.onEvent = e.onEvent
  closed : e'.closed = e.closed

variable {c c' : Option SessionCore} {notes notes' : List Note}

theorem Changes.trans (h : Changes id e e' c notes) (h' : Changes id e' e'' c' notes') :
    Changes id e e'' c' (notes ++ notes') := by
  refine ⟨h'.here, fun j hj => (h'.elsewhere j hj).trans (h.elsewhere j hj), ?_,
    h'.calls.trans h.calls, h'.nextSession.trans h.nextSession, h'.onEvent.trans h.onEvent,
    h'.closed.trans h.closed⟩
  rw [h'.log, h.log, append_assoc]

theorem Trims.changes (h : Trims e e') (id : Bytes) : Changes id e e' (e.core id) [] :=
  ⟨h.core id, fun j _ => h.core j, by rw [h.log, append_nil], h.calls, h.nextSession,
    h.onEvent, h.closed⟩

theorem note_changes (e : Engine) (id : Bytes) (n : Note) :
    Changes id e (e.note n) (e.core id) [n] :=
  ⟨rfl, fun _ _ => rfl, rfl, rfl, rfl, rfl, rfl⟩

theorem updateSession_changes {g : SessionCore → SessionCore}
    (hf : ∀ s, (f s).toSessionCore = g s.toSessionCore) :
    Changes id e (e.updateSession id f) ((e.core id).map g) [] := by
  refine ⟨?_, fun j hj => ?_, by simp [updateSession], rfl, rfl, rfl, rfl⟩
  · rw [core, core, get_updateSession, if_pos rfl, Option.map_map, Option.map_map]
    exact congrArg (fun h => Option.map h e.sessions[id]?) (funext hf)
  · rw [core, core, get_updateSession, if_neg (Ne.symm hj)]

theorem Changes.updateNote {s : SessionCore} (h : Changes id e e' (some s) notes)
    {g : SessionCore → SessionCore} (hf : ∀ s, (f s).toSessionCore = g s.toSessionCore) {n : Note} :
    Changes id e ((e'.updateSession id f).note n) (some (g s)) (notes ++ [n]) := by
  have hupdate : Changes id e' (e'.updateSession id f) ((e'.core id).map g) [] :=
    updateSession_changes hf
  have hnoted := (h.trans hupdate).trans (note_changes _ id n)
  rwa [hupdate.here, h.here, append_nil] at hnoted

theorem append_changes :
    Changes id e (e.append id s m) (some { s.toSessionCore with eventSeq := s.eventSeq + 1 })
      [.emitted id m] := by
  refine ⟨?_, fun j hj => ?_, rfl, rfl, rfl, rfl, rfl⟩
  · rw [core, append, note, get_insert_self]
    rfl
  · rw [core, append, note, get_insert_ne _ _ (Ne.symm hj)]
    rfl

theorem emit_changes (hs : e.sessions[id]? = some s) (event : Event) :
    Changes id e (e.emit w id event)
      (some (s.toSessionCore.emit e.onEvent id w.accepts event).1)
      (s.toSessionCore.emit e.onEvent id w.accepts event).2 := by
  rw [emit_eq hs]
  set m := event.message id s.turn (s.eventSeq + 1) with hm
  have happ : Changes id e (e.append id s m) _ _ := append_changes
  have htrims := (trimSession_trims (e.append id s m) id).trans (trimEngine_trims w _)
  have hbefore := happ.trans (htrims.changes id)
  rw [happ.here, append_nil] at hbefore
  set e₁ := ((e.append id s m).trimSession id).trimEngine w
  have hweigh : Changes id e (e₁.weigh id)
      (some { s.toSessionCore with eventSeq := s.eventSeq + 1 }) [.emitted id m] :=
    ⟨hbefore.here, hbefore.elsewhere, hbefore.log, hbefore.calls, hbefore.nextSession,
      hbefore.onEvent, hbefore.closed⟩
  obtain ⟨t, ht, hcore⟩ := map_eq_some_iff.mp hweigh.here
  unfold offer SessionCore.emit
  rw [ht]
  have hsus := congrArg SessionCore.suspended hcore
  dsimp only at hsus ⊢
  rw [hweigh.onEvent, hsus, ← hm]
  split_ifs with hopen hok
  · exact hweigh.updateNote (g := fun s => { s with deliveredSeq := s.eventSeq }) fun _ => rfl
  · exact hweigh.updateNote (g := fun s => { s with suspended := true }) fun _ => rfl
  · exact hweigh

theorem emits_changes {events : List Event} (h : Kept e) (hb : Bounded e)
    (hs : e.sessions[id]? = some s) (hroom : s.eventSeq.toNat + events.length < 2 ^ 64) :
    Kept (events.foldl (fun e event => e.emit w id event) e) ∧
      Bounded (events.foldl (fun e event => e.emit w id event) e) ∧
      Changes id e (events.foldl (fun e event => e.emit w id event) e)
        (some (s.toSessionCore.emits e.onEvent id w.accepts events).1)
        (s.toSessionCore.emits e.onEvent id w.accepts events).2 := by
  induction events generalizing e s with
  | nil =>
    exact ⟨h, hb, core_of_get hs, fun _ _ => rfl, (append_nil _).symm, rfl, rfl, rfl, rfl⟩
  | cons event rest ih =>
    rw [length_cons] at hroom
    have hfirst := emit_changes (w := w) hs event
    obtain ⟨t, ht, hcore⟩ := map_eq_some_iff.mp hfirst.here
    have hseq : t.eventSeq.toNat = s.eventSeq.toNat + 1 := by
      have := congrArg SessionCore.eventSeq hcore
      rw [SessionCore.emit_eventSeq] at this
      rw [this]
      exact Line.toNat_add_one (by omega)
    obtain ⟨hk, hbound, hrest⟩ := ih (emit_kept h hs (by omega) event)
      (emit_bounded hb h hs (by omega) event) ht (by omega)
    refine ⟨hk, hbound, ?_⟩
    rw [hcore, hfirst.onEvent] at hrest
    exact hfirst.trans hrest

/-! ## Sessions that come and go -/

theorem releaseSession_kept (h : Kept e) (hs : e.sessions[id]? = some s) :
    Kept (e.releaseSession id) := by
  have hhist : ∀ j, j ≠ id → (e.releaseSession id).history j = e.history j := fun j hj => by
    rw [history, history, releaseSession, get_erase_ne _ (Ne.symm hj)]
  refine ⟨fun j t ht => ?_, fun j t ht => ?_, fun j hj => ?_, ?_⟩
  · rw [releaseSession, get_erase] at ht
    split_ifs at ht with hj
    rw [hhist j (Ne.symm hj)]
    exact h.bytes j t ht
  · rw [releaseSession, get_erase] at ht
    split_ifs at ht with hj
    rw [hhist j (Ne.symm hj)]
    exact h.numbers j t ht
  · rw [releaseSession, get_erase] at hj ⊢
    split_ifs at hj ⊢ with hid
    · rfl
    · exact h.owned j hj
  · have hheld := held_release hs rfl hhist
    have htotal := h.total
    have hbytes := h.bytes id s hs
    have hsize : e.sessionBytes id = s.historyBytes := by rw [sessionBytes, hs]
    change e.historyBytes - e.sessionBytes id = _
    rw [hsize]
    omega

theorem releaseSession_bounded (hb : Bounded e) (h : Kept e) (hs : e.sessions[id]? = some s) :
    Bounded (e.releaseSession id) := by
  refine ⟨fun j => ?_, ?_, hb.always⟩
  · rw [history, releaseSession, get_erase]
    split_ifs
    · exact ⟨by decide, by decide⟩
    · exact hb.session j
  · have hle := hb.engine
    have hbytes := h.bytes id s hs
    rw [releaseSession, sessionBytes, hs]
    dsimp only
    omega

theorem releaseSession_changes : Changes id e (e.releaseSession id) none [] := by
  refine ⟨?_, fun j hj => ?_, by simp [releaseSession], rfl, rfl, rfl, rfl⟩
  · rw [core, releaseSession, get_erase_self]
    rfl
  · rw [core, core, releaseSession, get_erase_ne _ (Ne.symm hj)]

theorem open_kept (h : Kept e) (hs : e.sessions[id]? = none) {n : UInt64} :
    Kept { e with nextSession := n, sessions := e.sessions.insert id ⟨.fresh, 0, 0⟩ } := by
  have hnil := history_eq_nil h hs
  refine ⟨fun j t ht => ?_, fun j t ht => ?_, fun j hj => ?_, ?_⟩
  · rw [get_insert] at ht
    split_ifs at ht with hj
    · obtain rfl := Option.some.inj ht
      subst hj
      simp only [history] at hnil ⊢
      rw [hnil]
      rfl
    · exact h.bytes j t ht
  · rw [get_insert] at ht
    split_ifs at ht with hj
    · obtain rfl := Option.some.inj ht
      subst hj
      simp only [history] at hnil ⊢
      rw [hnil]
      exact ⟨rfl, rfl⟩
    · exact h.numbers j t ht
  · rw [get_insert] at hj
    split_ifs at hj
    exact h.owned j hj
  · have htotal := h.total
    rw [held, total_insert, erase_eq_self _ hs]
    simp only [history] at hnil ⊢
    rw [hnil]
    simpa [held, history] using htotal

end Aok.Protocol.Engine
