import Aok.Kernel.Events

/-!
# What the event queues hold

The history of a queue tells which records were born and which were acknowledged. A queue holds
those born and not acknowledged, each once, and no expiry of a timer is lost between the records
and the counter of merged expiries.
-/

namespace Aok.Kernel
open Lib List

def QueueEvent.born : QueueEvent → Option EventNode
  | .posted n | .expired n | .flushed n | .restored n => some n
  | .merged | .acked _ => none

def QueueEvent.issued : QueueEvent → Option EventNode
  | .posted n | .expired n | .flushed n => some n
  | .merged | .restored _ | .acked _ => none

def QueueEvent.post : QueueEvent → Option EventNode
  | .posted n => some n
  | _ => none

def QueueEvent.gone : QueueEvent → Option EventNode
  | .acked n => some n
  | _ => none

def QueueEvent.expiries : QueueEvent → ℕ
  | .expired _ | .merged => 1
  | _ => 0

def QueueEvent.produced : QueueEvent → ℕ
  | .expired n | .flushed n => n.coalesced.toNat
  | _ => 0

namespace EventQueue

variable {depth : ℕ} {q q' : EventQueue depth}

def born (q : EventQueue depth) : List EventNode := q.log.filterMap QueueEvent.born
def posts (q : EventQueue depth) : List EventNode := q.log.filterMap QueueEvent.post
def gone (q : EventQueue depth) : List EventNode := q.log.filterMap QueueEvent.gone
def expiries (q : EventQueue depth) : ℕ := (q.log.map QueueEvent.expiries).sum
def produced (q : EventQueue depth) : ℕ := (q.log.map QueueEvent.produced).sum

def nextNode (q : EventQueue depth) (sourceKoid : UInt64) (kind coalesced : UInt32)
    (data : UInt64) : EventNode :=
  ⟨q.eventId + 1, q.eventSeq + 1, sourceKoid, kind, coalesced, data, q.log.length⟩

def restoredNodes (q : EventQueue depth) (records : List EventRecord) : List EventNode :=
  records.mapIdx fun j r => r.node (q.log.length + j)

/-! ## The changes of a queue -/

inductive Change (q : EventQueue depth) : EventQueue depth → Prop where
  | merged : depth ≤ q.slots.live →
      Change q { q with coalesced := q.coalesced + 1, log := q.log ++ [.merged] }
  | fired {q' : EventQueue depth} (kind : EventKind) (data sourceKoid : UInt64) :
      q.issue sourceKoid kind.code 1 data (if kind = .timer then .expired else .posted) = some q' →
      Change q q'
  | flushed {q' : EventQueue depth} :
      q.issue 0 EventKind.timer.code q.coalesced.toUInt32 0 .flushed = some q' →
      Change q { q' with coalesced := 0 }
  | acked {q' : EventQueue depth} (eventId : UInt64) : q.unlink eventId = some q' → Change q q'
  | restored (applicationId : UInt64) (records : List EventRecord) :
      q.slots.live = 0 → q.coalesced = 0 → records.length ≤ depth →
      checkRecords applicationId none records = true → Change q (q.refill records)

theorem exists_issue (h : q.slots.Ok) (hlt : q.slots.live < depth) (koid : UInt64)
    (kind coalesced : UInt32) (data : UInt64) (event : EventNode → QueueEvent) :
    ∃ q', q.issue koid kind coalesced data event = some q' := by
  obtain ⟨i, hi⟩ := h.exists_free hlt
  simp [issue, SlotQueue.push, hi]

theorem issue_spec {koid : UInt64} {kind coalesced : UInt32} {data : UInt64}
    {event : EventNode → QueueEvent} (h : q.slots.Ok)
    (hi : q.issue koid kind coalesced data event = some q') :
    q'.slots.Ok ∧ q'.slots.live = q.slots.live + 1 ∧
      q'.view = q.view ++ [q.nextNode koid kind coalesced data] ∧
      q'.log = q.log ++ [event (q.nextNode koid kind coalesced data)] ∧
      q'.eventId = q.eventId + 1 ∧ q'.eventSeq = q.eventSeq + 1 ∧ q'.coalesced = q.coalesced := by
  obtain ⟨slots, hs, rfl⟩ := Option.map_eq_some_iff.mp hi
  obtain ⟨hok, hview, hlive⟩ := h.push hs
  exact ⟨hok, hlive, hview, rfl, rfl, rfl, rfl⟩

theorem unlink_spec {eventId : UInt64} (h : q.slots.Ok) (hu : q.unlink eventId = some q') :
    ∃ n ∈ q.view, n.eventId = eventId ∧ q'.slots.Ok ∧ q'.slots.live + 1 = q.slots.live ∧
      q'.view = q.view.erase n ∧ q'.log = q.log ++ [.acked n] ∧
      q'.eventId = q.eventId ∧ q'.eventSeq = q.eventSeq ∧ q'.coalesced = q.coalesced := by
  obtain ⟨⟨n, slots⟩, hr, rfl⟩ := Option.map_eq_some_iff.mp hu
  obtain ⟨hok, hfind, hview, hlive⟩ := h.remove hr
  rw [SlotQueue.eraseP_eq_erase hfind] at hview
  have hid : n.eventId = eventId := by simpa using find?_some hfind
  exact ⟨n, mem_of_find?_eq_some hfind, hid, hok, hlive, hview, rfl, rfl, rfl, rfl⟩

theorem refill_spec {records : List EventRecord} (h : q.slots.Ok) (hempty : q.slots.live = 0)
    (hlen : records.length ≤ depth) :
    (q.refill records).slots.Ok ∧ (q.refill records).view = q.restoredNodes records := by
  have hn : (q.restoredNodes records).length ≤ depth := by
    simpa [restoredNodes] using hlen
  exact h.fill hempty hn

/-! ## What a queue holds -/

/-- The queue holds what was born and not acknowledged, and accounts for every expiry. -/
structure Booked (q : EventQueue depth) : Prop where
  ok : q.slots.Ok
  nodup : q.view.Nodup
  mem : ∀ n, n ∈ q.view ↔ n ∈ q.born ∧ n ∉ q.gone
  gone : ∀ n ∈ q.gone, n ∈ q.born
  order : (q.born.map EventNode.ticket).Pairwise (· < ·)
  fresh : ∀ n ∈ q.born, n.ticket < q.log.length
  balance : q.expiries ≡ q.produced + q.coalesced.toNat [MOD 2 ^ 32]

theorem booked_initial : (initial : EventQueue depth).Booked where
  ok := SlotQueue.ok_empty _
  nodup := nodup_nil
  mem := by simp [initial, view, born, SlotQueue.view, SlotQueue.empty]
  gone := by simp [initial, gone]
  order := by simp [initial, born]
  fresh := by simp [initial, born]
  balance := by simp [initial, expiries, produced]; rfl

theorem Booked.add (h : q.Booked) (nodes : List EventNode) (events : List QueueEvent)
    (hok : q'.slots.Ok) (hview : q'.view = q.view ++ nodes) (hlog : q'.log = q.log ++ events)
    (hborn : events.filterMap QueueEvent.born = nodes)
    (hgone : events.filterMap QueueEvent.gone = [])
    (horder : (nodes.map EventNode.ticket).Pairwise (· < ·))
    (hge : ∀ n ∈ nodes, q.log.length ≤ n.ticket) (hlt : ∀ n ∈ nodes, n.ticket < q'.log.length)
    (hbalance : q'.expiries ≡ q'.produced + q'.coalesced.toNat [MOD 2 ^ 32]) : q'.Booked := by
  have hborn' : q'.born = q.born ++ nodes := by
    rw [born, hlog, filterMap_append, hborn]
    rfl
  have hgone' : q'.gone = q.gone := by
    rw [EventQueue.gone, hlog, filterMap_append, hgone, append_nil]
    rfl
  -- a ticket past the history is on no record born before
  have hnew : ∀ n ∈ nodes, n ∉ q.born := by
    intro n hn hb
    have hlow := h.fresh n hb
    have hhigh := hge n hn
    omega
  have hnodes : nodes.Nodup := List.Nodup.of_map EventNode.ticket (horder.imp ne_of_lt)
  refine ⟨hok, ?_, ?_, ?_, ?_, ?_, hbalance⟩
  · rw [hview]
    refine nodup_append.mpr ⟨h.nodup, hnodes, ?_⟩
    intro m hm n hn heq
    exact hnew n hn (heq ▸ ((h.mem m).mp hm).1)
  · intro n
    rw [hview, hborn', hgone', mem_append, mem_append, h.mem n]
    constructor
    · rintro (⟨hb, hg⟩ | hn)
      · exact ⟨Or.inl hb, hg⟩
      · exact ⟨Or.inr hn, fun hg => hnew n hn (h.gone n hg)⟩
    · rintro ⟨hb | hn, hg⟩
      · exact Or.inl ⟨hb, hg⟩
      · exact Or.inr hn
  · intro n hn
    rw [hborn']
    exact mem_append_left _ (h.gone n (hgone' ▸ hn))
  · rw [hborn', map_append]
    refine pairwise_append.mpr ⟨h.order, horder, ?_⟩
    intro s hs t ht
    obtain ⟨m, hm, rfl⟩ := mem_map.mp hs
    obtain ⟨n, hn, rfl⟩ := mem_map.mp ht
    exact lt_of_lt_of_le (h.fresh m hm) (hge n hn)
  · intro n hn
    rw [hborn'] at hn
    rcases mem_append.mp hn with hn | hn
    · refine lt_of_lt_of_le (h.fresh n hn) ?_
      rw [hlog, length_append]
      exact Nat.le_add_right _ _
    · exact hlt n hn

theorem expiries_append {events : List QueueEvent} (hlog : q'.log = q.log ++ events) :
    q'.expiries = q.expiries + (events.map QueueEvent.expiries).sum := by
  rw [expiries, hlog, map_append, sum_append]
  rfl

theorem produced_append {events : List QueueEvent} (hlog : q'.log = q.log ++ events) :
    q'.produced = q.produced + (events.map QueueEvent.produced).sum := by
  rw [produced, hlog, map_append, sum_append]
  rfl

theorem Booked.issue {koid : UInt64} {kind coalesced : UInt32} {data c : UInt64}
    {event : EventNode → QueueEvent} (h : q.Booked)
    (hi : q.issue koid kind coalesced data event = some q')
    (hborn : ∀ n, (event n).born = some n) (hgone : ∀ n, (event n).gone = none)
    (hbalance : q.expiries + (event (q.nextNode koid kind coalesced data)).expiries ≡
      q.produced + (event (q.nextNode koid kind coalesced data)).produced + c.toNat
        [MOD 2 ^ 32]) : ({ q' with coalesced := c } : EventQueue depth).Booked := by
  obtain ⟨hok, -, hview, hlog, -⟩ := issue_spec h.ok hi
  refine h.add [q.nextNode koid kind coalesced data]
    [event (q.nextNode koid kind coalesced data)] hok hview hlog ?_ ?_ ?_ ?_ ?_ ?_
  · simp [hborn]
  · simp [hgone]
  · exact pairwise_singleton _ _
  · intro n hn
    rw [mem_singleton.mp hn]
    exact le_refl _
  · intro n hn
    rw [mem_singleton.mp hn, hlog, length_append]
    exact Nat.lt_succ_self _
  · have hlog' : ({ q' with coalesced := c } : EventQueue depth).log =
      q.log ++ [event (q.nextNode koid kind coalesced data)] := hlog
    rw [expiries_append hlog', produced_append hlog']
    simpa using hbalance

theorem Booked.merge (h : q.Booked) : ({ q with
    coalesced := q.coalesced + 1, log := q.log ++ [.merged] } : EventQueue depth).Booked := by
  refine h.add [] [.merged] h.ok (append_nil _).symm rfl rfl rfl List.Pairwise.nil
    (by simp) (by simp) ?_
  have hb := h.balance
  rw [expiries_append (q := q) rfl, produced_append (q := q) rfl]
  simp only [Nat.ModEq, map_cons, map_nil, sum_singleton, QueueEvent.expiries,
    QueueEvent.produced, UInt64.toNat_add, UInt64.reduceToNat] at hb ⊢
  omega

theorem Booked.unlink {eventId : UInt64} (h : q.Booked) (hu : q.unlink eventId = some q') :
    q'.Booked := by
  obtain ⟨n, hn, -, hok, -, hview, hlog, -, -, hc⟩ := unlink_spec h.ok hu
  have hborn : q'.born = q.born := by
    rw [born, hlog, filterMap_append]
    exact append_nil _
  have hgone : q'.gone = q.gone ++ [n] := by
    rw [EventQueue.gone, hlog, filterMap_append]
    rfl
  refine ⟨hok, hview ▸ h.nodup.erase n, ?_, ?_, hborn ▸ h.order, ?_, ?_⟩
  · intro m
    rw [hview, h.nodup.mem_erase_iff, h.mem m, hborn, hgone, mem_append,
      mem_singleton, not_or]
    tauto
  · intro m hm
    rw [hgone] at hm
    rw [hborn]
    rcases mem_append.mp hm with hm | hm
    · exact h.gone m hm
    · rw [mem_singleton.mp hm]
      exact ((h.mem n).mp hn).1
  · intro m hm
    rw [hlog, length_append]
    exact Nat.lt_succ_of_lt (h.fresh m (hborn ▸ hm))
  · rw [expiries_append hlog, produced_append hlog, hc]
    exact h.balance

theorem restoredNodes_ticket (q : EventQueue depth) (records : List EventRecord) :
    (q.restoredNodes records).map EventNode.ticket =
      range' q.log.length records.length := by
  refine ext_getElem (by simp [restoredNodes]) ?_
  intro i h₁ h₂
  simp [restoredNodes, EventRecord.node]

theorem Booked.refill {records : List EventRecord} (h : q.Booked) (hempty : q.slots.live = 0)
    (hlen : records.length ≤ depth) : (q.refill records).Booked := by
  obtain ⟨hok, hview⟩ := refill_spec h.ok hempty hlen
  have hnil : q.view = [] := eq_nil_of_length_eq_zero (h.ok.live_eq.symm.trans hempty)
  have hticket : ∀ n ∈ q.restoredNodes records,
      q.log.length ≤ n.ticket ∧ n.ticket < q.log.length + records.length := by
    intro n hn
    have hmem : n.ticket ∈ (q.restoredNodes records).map EventNode.ticket :=
      mem_map_of_mem hn
    rw [restoredNodes_ticket] at hmem
    exact mem_range'_1.mp hmem
  have hlog : (q.refill records).log =
    q.log ++ (q.restoredNodes records).map .restored := rfl
  refine h.add (q.restoredNodes records) ((q.restoredNodes records).map .restored) hok ?_ hlog
    ?_ ?_ ?_ ?_ ?_ ?_
  · rw [hview, hnil, nil_append]
  · simp [filterMap_map, Function.comp_def, QueueEvent.born]
  · simp [filterMap_map, Function.comp_def, QueueEvent.gone]
  · rw [restoredNodes_ticket]
    exact pairwise_lt_range'
  · exact fun n hn => (hticket n hn).1
  · intro n hn
    rw [hlog, length_append, length_map, restoredNodes, length_mapIdx]
    exact (hticket n hn).2
  · rw [expiries_append hlog, produced_append hlog]
    simpa [Function.comp_def, QueueEvent.expiries, QueueEvent.produced, EventQueue.refill]
      using h.balance

/-- No change of a queue upsets its books. -/
theorem Booked.change (h : q.Booked) (hc : q.Change q') : q'.Booked := by
  have hb := h.balance
  cases hc with
  | merged hfull => exact h.merge
  | fired kind data koid hi =>
    have hc := (issue_spec h.ok hi).2.2.2.2.2.2
    have hq : q' = { q' with coalesced := q.coalesced } := by rw [← hc]
    rw [hq]
    by_cases hk : kind = .timer
    · rw [if_pos hk] at hi
      refine h.issue hi (fun _ => rfl) (fun _ => rfl) ?_
      simp only [Nat.ModEq, QueueEvent.expiries, QueueEvent.produced, nextNode,
        UInt32.reduceToNat] at hb ⊢
      omega
    · rw [if_neg hk] at hi
      exact h.issue hi (fun _ => rfl) (fun _ => rfl) hb
  | flushed hi =>
    refine h.issue hi (fun _ => rfl) (fun _ => rfl) ?_
    simp only [Nat.ModEq, QueueEvent.expiries, QueueEvent.produced, nextNode,
      UInt64.toNat_toUInt32, UInt64.reduceToNat] at hb ⊢
    omega
  | acked id hu => exact h.unlink hu
  | restored _ records hempty _ hlen _ => exact h.refill hempty hlen

theorem posts_sublist (q : EventQueue depth) : q.posts.Sublist q.born := by
  unfold posts born
  induction q.log with
  | nil => exact List.Sublist.refl _
  | cons e log ih =>
    cases e with
    | posted n => exact ih.cons_cons n
    | expired n => exact ih.cons n
    | merged => exact ih
    | flushed n => exact ih.cons n
    | restored n => exact ih.cons n
    | acked n => exact ih

theorem Booked.posts_nodup (h : q.Booked) : q.posts.Nodup := by
  have hborn : q.born.Nodup := List.Nodup.of_map EventNode.ticket (h.order.imp ne_of_lt)
  exact q.posts_sublist.nodup hborn

theorem Booked.count_post (h : q.Booked) {n : EventNode} (hn : n ∈ q.posts) :
    q.view.count n = if n ∈ q.gone then 0 else 1 := by
  have hborn := q.posts_sublist.subset hn
  by_cases hg : n ∈ q.gone
  · rw [if_pos hg]
    exact count_eq_zero_of_not_mem fun hv => ((h.mem n).mp hv).2 hg
  · rw [if_neg hg]
    exact count_eq_one_of_mem h.nodup ((h.mem n).mpr ⟨hborn, hg⟩)

/-! ## The operations on a queue -/

/-- What an operation of the registry does to a queue: whether it may restore, and the expiries
it delivers. -/
inductive Step (q : EventQueue depth) : Bool → ℕ → EventQueue depth → Prop where
  | stay {r : Bool} : Step q r 0 q
  | expire (data sourceKoid : UInt64) : Step q false 1 (q.fire .timer data sourceKoid)
  | post (kind : EventKind) (data sourceKoid : UInt64) : kind ≠ .timer → q.slots.live ≠ depth →
      Step q false 0 (q.fire kind data sourceKoid)
  | ack (eventId : UInt64) : Step q false 0 (q.ackLocked eventId).2
  | restore (applicationId : UInt64) (records : List EventRecord) :
      q.slots.live = 0 → q.coalesced = 0 → records.length ≤ depth →
      checkRecords applicationId none records = true → Step q true 0 (q.refill records)

theorem fire_cases (q : EventQueue depth) (kind : EventKind) (data koid : UInt64) :
    q.fire kind data koid = q ∨ q.Change (q.fire kind data koid) := by
  unfold fire
  split
  · next hfull => exact Or.inr (.merged hfull)
  · cases hi : q.issue koid kind.code 1 data (if kind = .timer then .expired else .posted) with
    | none => exact Or.inl rfl
    | some q' => exact Or.inr (.fired kind data koid hi)

theorem flush_cases (q : EventQueue depth) : q.flush = q ∨ q.Change q.flush := by
  unfold flush
  split
  · exact Or.inl rfl
  · split
    · exact Or.inl rfl
    · next hi => exact Or.inr (.flushed hi)

theorem appAck_eq_ackLocked (q : EventQueue depth) (eventId : UInt64) :
    q.appAck eventId = q.ackLocked eventId := by
  unfold appAck appAckLocked ackLocked
  by_cases hid : q.eventId < eventId
  · simp [hid]
  · cases hu : q.unlink eventId with
    | none => simp [hid]
    | some q' =>
      by_cases hc : q'.coalesced = 0
      · simp [hid, hc, flush]
      · simp [hid, hc]

theorem ackLocked_cases (q : EventQueue depth) (eventId : UInt64) :
    (q.ackLocked eventId).2 = q ∨
      ∃ q', q.unlink eventId = some q' ∧ (q.ackLocked eventId).2 = q'.flush := by
  unfold ackLocked
  split
  · exact Or.inl rfl
  · split
    · exact Or.inl rfl
    · next q' hu => exact Or.inr ⟨q', hu, rfl⟩

/-- An operation is a sequence of changes. -/
theorem Step.changes {r : Bool} {d : ℕ} (h : q.Step r d q') : Relation.ReflTransGen Change q q' := by
  have hone : ∀ {r r' : EventQueue depth}, (r' = r ∨ r.Change r') →
      Relation.ReflTransGen Change r r' := by
    rintro r r' (rfl | hc)
    · exact .refl
    · exact .single hc
  cases h with
  | stay => exact .refl
  | expire data koid => exact hone (q.fire_cases .timer data koid)
  | post kind data koid _ _ => exact hone (q.fire_cases kind data koid)
  | ack id =>
    rcases q.ackLocked_cases id with heq | ⟨q', hu, heq⟩
    · exact hone (Or.inl heq)
    · rw [heq]
      exact .head (.acked id hu) (hone q'.flush_cases)
  | restore id records h₁ h₂ h₃ h₄ => exact .single (.restored id records h₁ h₂ h₃ h₄)

theorem Booked.changes (h : q.Booked) (hc : Relation.ReflTransGen Change q q') : q'.Booked := by
  induction hc with
  | refl => exact h
  | tail _ hc ih => exact ih.change hc

theorem Booked.fire_of_lt (h : q.Booked) (hlt : q.slots.live < depth) (kind : EventKind)
    (data koid : UInt64) :
    q.issue koid kind.code 1 data (if kind = .timer then .expired else .posted) =
      some (q.fire kind data koid) := by
  obtain ⟨q', hq'⟩ := exists_issue h.ok hlt koid kind.code 1 data
    (if kind = .timer then .expired else .posted)
  rw [fire, if_neg (not_le.mpr hlt), hq']
  rfl

theorem fire_of_full (hfull : depth ≤ q.slots.live) (kind : EventKind) (data koid : UInt64) :
    q.fire kind data koid =
      { q with coalesced := q.coalesced + 1, log := q.log ++ [.merged] } :=
  if_pos hfull

def Settled (q : EventQueue depth) : Prop := q.coalesced ≠ 0 → q.slots.live = depth

theorem Booked.settled_fire (h : q.Booked) (hs : q.Settled) (kind : EventKind)
    (data koid : UInt64) : (q.fire kind data koid).Settled := by
  by_cases hfull : depth ≤ q.slots.live
  · rw [fire_of_full hfull]
    exact fun _ => le_antisymm h.ok.live_le hfull
  · have hlt := not_le.mp hfull
    obtain ⟨-, -, -, -, -, -, hc⟩ := issue_spec h.ok (h.fire_of_lt hlt kind data koid)
    intro hne
    rw [hc] at hne
    exact absurd (hs hne) (ne_of_lt hlt)

theorem Booked.settled_flush (h : q.Booked) (hlt : q.slots.live < depth) : q.flush.Settled := by
  unfold flush
  split
  · next hq =>
    rcases hq with hc | hfull
    · exact fun hne => absurd hc hne
    · exact absurd hfull (not_le.mpr hlt)
  · obtain ⟨q', hq'⟩ := exists_issue h.ok hlt 0 EventKind.timer.code q.coalesced.toUInt32 0
      .flushed
    rw [hq']
    exact fun hne => absurd rfl hne

theorem Booked.settled_step {r : Bool} {d : ℕ} (h : q.Booked) (hs : q.Settled)
    (hq : q.Step r d q') :
    q'.Settled := by
  cases hq with
  | stay => exact hs
  | expire data koid => exact h.settled_fire hs .timer data koid
  | post kind data koid _ _ => exact h.settled_fire hs kind data koid
  | ack id =>
    rcases q.ackLocked_cases id with heq | ⟨q', hu, heq⟩
    · rw [heq]
      exact hs
    · rw [heq]
      obtain ⟨_, -, -, -, hlive, -⟩ := unlink_spec h.ok hu
      have hle := h.ok.live_le
      exact (h.unlink hu).settled_flush (by omega)
  | restore id records _ hc _ _ => exact fun hne => absurd hc hne

theorem flush_expiries (h : q.slots.Ok) : q.flush.expiries = q.expiries := by
  unfold flush
  split
  · rfl
  · split
    · rfl
    · next hi =>
      obtain ⟨-, -, -, hlog, -⟩ := issue_spec h hi
      exact expiries_append hlog

theorem Booked.expiries_step {r : Bool} {d : ℕ} (h : q.Booked) (hq : q.Step r d q') :
    q'.expiries = q.expiries + d := by
  cases hq with
  | stay => rfl
  | expire data koid =>
    by_cases hfull : depth ≤ q.slots.live
    · have hlog : (q.fire .timer data koid).log = q.log ++ [.merged] :=
        congrArg log (fire_of_full hfull .timer data koid)
      exact expiries_append hlog
    · obtain ⟨-, -, -, hlog, -⟩ := issue_spec h.ok (h.fire_of_lt (not_le.mp hfull) .timer data koid)
      exact expiries_append hlog
  | post kind data koid hk hne =>
    have hlt : q.slots.live < depth := lt_of_le_of_ne h.ok.live_le hne
    obtain ⟨-, -, -, hlog, -⟩ := issue_spec h.ok (h.fire_of_lt hlt kind data koid)
    rw [if_neg hk] at hlog
    exact expiries_append hlog
  | ack id =>
    rcases q.ackLocked_cases id with heq | ⟨q', hu, heq⟩
    · rw [heq]
      rfl
    · obtain ⟨_, -, -, hok, -, -, hlog, -⟩ := unlink_spec h.ok hu
      rw [heq, flush_expiries hok]
      exact expiries_append hlog
  | restore id records _ _ _ _ =>
    have hlog : (q.refill records).log =
      q.log ++ (q.restoredNodes records).map .restored := rfl
    rw [expiries_append hlog]
    simp [Function.comp_def, QueueEvent.expiries]

end EventQueue
end Aok.Kernel
