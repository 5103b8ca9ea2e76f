import Aok.Kernel.EventSteps

/-!
# The order of events

While the counters of a queue do not wrap around, its records have increasing numbers, no number
is issued twice, and a reader that keeps a cursor misses nothing. A restore may set the counters
close to their limit.
-/

namespace Aok.Kernel
open Lib List EventRecord

variable {r : EventRecord} {id : UInt64} {records : List EventRecord}

/-! ## Records of a restore -/

theorem EventRecord.before_iff {r' : EventRecord} :
    r.before r' = true ↔ r.eventId < r'.eventId ∧ r.eventSeq < r'.eventSeq := by
  simp [before]

theorem checkRecords_iff (id : UInt64) (last : Option EventRecord) (records : List EventRecord) :
    checkRecords id last records = true ↔ (∀ r ∈ records, r.fits id = true) ∧
      (last.toList ++ records).IsChain fun r r' => r.before r' = true := by
  induction records generalizing last with
  | nil => cases last <;> simp [checkRecords]
  | cons r records ih =>
    rw [checkRecords, Bool.and_eq_true, Bool.and_eq_true, ih]
    cases last <;> simp [isChain_cons_cons] <;> tauto

instance : Trans (fun r r' : EventRecord => r.before r' = true)
    (fun r r' => r.before r' = true) (fun r r' => r.before r' = true) where
  trans h₁ h₂ := by
    rw [before_iff] at h₁ h₂ ⊢
    exact ⟨UInt64.lt_trans h₁.1 h₂.1, UInt64.lt_trans h₁.2 h₂.2⟩

theorem checkRecords_pairwise (h : checkRecords id none records = true) :
    records.Pairwise fun r r' => r.before r' = true :=
  isChain_iff_pairwise.mp ((checkRecords_iff id none records).mp h).2

structure EventNode.Valid (n : EventNode) : Prop where
  id : n.eventId ≠ 0
  seq : n.eventSeq ≠ 0
  kind : n.kind ≠ 0 ∧ n.kind ≤ EventKind.lsfs.code

theorem EventRecord.fits_iff : r.fits id = true ↔
    r.size = recordSize ∧ r.applicationId = id ∧ (r.kind ≠ 0 ∧ r.kind ≤ EventKind.lsfs.code) ∧
    (r.eventId ≠ 0 ∧ r.eventId ≠ maxWord) ∧ (r.eventSeq ≠ 0 ∧ r.eventSeq ≠ maxWord) ∧
    r.reserved0 = 0 ∧ r.reserved1 = 0 := by
  simp [fits, and_assoc]

theorem checkRecords_valid (h : checkRecords id none records = true) (hr : r ∈ records)
    (ticket : ℕ) : (r.node ticket).Valid := by
  have hfits := ((checkRecords_iff id none records).mp h).1 r hr
  obtain ⟨-, -, hkind, hid, hseq, -⟩ := fits_iff.mp hfits
  exact ⟨hid.1, hseq.1, hkind⟩

theorem checkRecords_le_last (h : checkRecords id none records = true) (hr : r ∈ records) :
    r.eventId ≤ (records.getLast?).elim 0 EventRecord.eventId ∧
      r.eventSeq ≤ (records.getLast?).elim 0 EventRecord.eventSeq := by
  have hpair := checkRecords_pairwise h
  obtain ⟨front, last, rfl⟩ : ∃ front last, records = front ++ [last] := by
    rcases eq_nil_or_concat records with rfl | hconcat
    · cases hr
    · simpa using hconcat
  rw [getLast?_append, getLast?_singleton]
  rcases mem_append.mp hr with hr | hr
  · have hbefore := (pairwise_append.mp hpair).2.2 r hr last (mem_singleton_self _)
    obtain ⟨hid, hseq⟩ := before_iff.mp hbefore
    exact ⟨UInt64.le_of_lt hid, UInt64.le_of_lt hseq⟩
  · rw [mem_singleton.mp hr]
    exact ⟨UInt64.le_refl _, UInt64.le_refl _⟩

namespace EventQueue

variable {depth : ℕ} {q q' : EventQueue depth}

def Roomy (q : EventQueue depth) : Prop := q.eventId ≠ maxWord ∧ q.eventSeq ≠ maxWord

instance : Decidable q.Roomy := inferInstanceAs (Decidable (_ ∧ _))

def Novel (e e' : QueueEvent) : Prop :=
  ∀ m n, e.born = some m → e'.issued = some n → m.eventId ≠ n.eventId

structure Numbered (q : EventQueue depth) : Prop where
  increasing : q.view.Pairwise fun m n => m.eventId < n.eventId ∧ m.eventSeq < n.eventSeq
  behind : ∀ n ∈ q.born, n.eventId ≤ q.eventId ∧ n.eventSeq ≤ q.eventSeq
  valid : ∀ n ∈ q.born, n.Valid
  novel : q.log.Pairwise Novel

theorem numbered_initial : (initial : EventQueue depth).Numbered where
  increasing := List.Pairwise.nil
  behind := by simp [initial, born]
  valid := by simp [initial, born]
  novel := List.Pairwise.nil

theorem mem_born_append {n : EventNode} {events : List QueueEvent}
    (hlog : q'.log = q.log ++ events) :
    n ∈ q'.born ↔ n ∈ q.born ∨ ∃ e ∈ events, e.born = some n := by
  simp [born, hlog, filterMap_append, mem_filterMap]

theorem lt_succ_of_ne_max {n : UInt64} (h : n ≠ maxWord) : n < n + 1 := by
  have hne : n.toNat ≠ maxWord.toNat := fun heq => h (UInt64.toNat_inj.mp heq)
  have hlt := n.toNat_lt
  rw [UInt64.lt_iff_toNat_lt, UInt64.toNat_add]
  simp only [maxWord, UInt64.reduceToNat] at hne ⊢
  omega

theorem Numbered.issue {koid : UInt64} {kind coalesced : UInt32} {data c : UInt64}
    {event : EventNode → QueueEvent} (h : q.Numbered) (hb : q.Booked) (hroom : q.Roomy)
    (hi : q.issue koid kind coalesced data event = some q')
    (hkind : kind ≠ 0 ∧ kind ≤ EventKind.lsfs.code)
    (hborn : ∀ n, (event n).born = some n) (hissued : ∀ n, (event n).issued = some n) :
    ({ q' with coalesced := c } : EventQueue depth).Numbered := by
  obtain ⟨-, -, hview, hlog, hid, hseq, -⟩ := issue_spec hb.ok hi
  have hid' := lt_succ_of_ne_max hroom.1
  have hseq' := lt_succ_of_ne_max hroom.2
  have hlog' : ({ q' with coalesced := c } : EventQueue depth).log =
    q.log ++ [event (q.nextNode koid kind coalesced data)] := hlog
  have hpast : ∀ n ∈ q.born, n.eventId < q.eventId + 1 ∧ n.eventSeq < q.eventSeq + 1 :=
    fun n hn => ⟨UInt64.lt_of_le_of_lt (h.behind n hn).1 hid',
      UInt64.lt_of_le_of_lt (h.behind n hn).2 hseq'⟩
  refine ⟨?_, ?_, ?_, ?_⟩
  · have hview' : ({ q' with coalesced := c } : EventQueue depth).view =
      q.view ++ [q.nextNode koid kind coalesced data] := hview
    rw [hview']
    refine pairwise_append.mpr ⟨h.increasing, pairwise_singleton _ _, ?_⟩
    intro m hm n hn
    rw [mem_singleton.mp hn]
    exact hpast m ((hb.mem m).mp hm).1
  · intro n hn
    change n.eventId ≤ q'.eventId ∧ n.eventSeq ≤ q'.eventSeq
    rw [hid, hseq]
    rcases (mem_born_append hlog').mp hn with hn | ⟨e, he, hn⟩
    · exact ⟨UInt64.le_of_lt (hpast n hn).1, UInt64.le_of_lt (hpast n hn).2⟩
    · rw [mem_singleton.mp he, hborn] at hn
      cases hn
      exact ⟨UInt64.le_refl _, UInt64.le_refl _⟩
  · intro n hn
    rcases (mem_born_append hlog').mp hn with hn | ⟨e, he, hn⟩
    · exact h.valid n hn
    · rw [mem_singleton.mp he, hborn] at hn
      cases hn
      exact ⟨UInt64.pos_iff_ne_zero.mp (UInt64.lt_of_le_of_lt UInt64.zero_le hid'),
        UInt64.pos_iff_ne_zero.mp (UInt64.lt_of_le_of_lt UInt64.zero_le hseq'), hkind⟩
  · rw [hlog']
    refine pairwise_append.mpr ⟨h.novel, pairwise_singleton _ _, ?_⟩
    intro e he e' he' m n hm hn
    rw [mem_singleton.mp he', hissued] at hn
    cases hn
    exact UInt64.ne_of_lt (hpast m (mem_filterMap.mpr ⟨e, he, hm⟩)).1

theorem le_raise_left (old last : UInt64) : old ≤ raise old last := by
  unfold raise
  split
  · next h => exact UInt64.le_of_lt h
  · exact UInt64.le_refl _

theorem le_raise_right (old last : UInt64) : last ≤ raise old last := by
  unfold raise
  split
  · exact UInt64.le_refl _
  · next h => exact UInt64.not_lt.mp h

theorem Numbered.shrink {e : QueueEvent} (h : q.Numbered) (hview : q'.view.Sublist q.view)
    (hlog : q'.log = q.log ++ [e]) (hborn : e.born = none) (hissued : e.issued = none)
    (hid : q'.eventId = q.eventId) (hseq : q'.eventSeq = q.eventSeq) : q'.Numbered := by
  have hsame : ∀ n ∈ q'.born, n ∈ q.born := by
    intro n hn
    rcases (mem_born_append hlog).mp hn with hn | ⟨e', he', hn⟩
    · exact hn
    · rw [mem_singleton.mp he', hborn] at hn
      cases hn
  refine ⟨h.increasing.sublist hview, ?_, fun n hn => h.valid n (hsame n hn), ?_⟩
  · intro n hn
    rw [hid, hseq]
    exact h.behind n (hsame n hn)
  · rw [hlog]
    refine pairwise_append.mpr ⟨h.novel, pairwise_singleton _ _, ?_⟩
    intro e₁ _ e₂ he₂ m n _ hn
    rw [mem_singleton.mp he₂, hissued] at hn
    cases hn

theorem mem_restoredNodes {n : EventNode} (hn : n ∈ q.restoredNodes records) :
    ∃ r ∈ records, ∃ ticket, n = r.node ticket := by
  obtain ⟨i, hi, rfl⟩ := mem_mapIdx.mp hn
  exact ⟨records[i], getElem_mem hi, _, rfl⟩

theorem restoredNodes_increasing
    (h : checkRecords id none records = true) : (q.restoredNodes records).Pairwise
      fun m n => m.eventId < n.eventId ∧ m.eventSeq < n.eventSeq := by
  rw [pairwise_iff_getElem]
  intro i j hi hj hij
  have hlen : (q.restoredNodes records).length = records.length := length_mapIdx
  have hpair := pairwise_iff_getElem.mp (checkRecords_pairwise h) i j (hlen ▸ hi)
    (hlen ▸ hj) hij
  simpa [restoredNodes, node] using before_iff.mp hpair

theorem Numbered.refill (h : q.Numbered)
    (hb : q.Booked) (hempty : q.slots.live = 0) (hlen : records.length ≤ depth)
    (hcheck : checkRecords id none records = true) : (q.refill records).Numbered := by
  have hlog : (q.refill records).log =
    q.log ++ (q.restoredNodes records).map .restored := rfl
  have hnew : ∀ n ∈ (q.refill records).born, n ∈ q.born ∨
      ∃ r ∈ records, ∃ ticket, n = r.node ticket := by
    intro n hn
    rcases (mem_born_append hlog).mp hn with hn | ⟨e, he, hn⟩
    · exact Or.inl hn
    · obtain ⟨m, hm, rfl⟩ := mem_map.mp he
      cases hn
      exact Or.inr (mem_restoredNodes hm)
  refine ⟨?_, ?_, ?_, ?_⟩
  · rw [(refill_spec hb.ok hempty hlen).2]
    exact restoredNodes_increasing hcheck
  · intro n hn
    rcases hnew n hn with hn | ⟨r, hr, ticket, rfl⟩
    · obtain ⟨hid, hseq⟩ := h.behind n hn
      exact ⟨UInt64.le_trans hid (le_raise_left _ _), UInt64.le_trans hseq (le_raise_left _ _)⟩
    · obtain ⟨hid, hseq⟩ := checkRecords_le_last hcheck hr
      exact ⟨UInt64.le_trans hid (le_raise_right _ _), UInt64.le_trans hseq (le_raise_right _ _)⟩
  · intro n hn
    rcases hnew n hn with hn | ⟨r, hr, ticket, rfl⟩
    · exact h.valid n hn
    · exact checkRecords_valid hcheck hr ticket
  · rw [hlog]
    refine pairwise_append.mpr ⟨h.novel, ?_, ?_⟩
    · rw [pairwise_map]
      exact pairwise_of_forall fun _ _ _ _ _ hn => by cases hn
    · intro e _ e' he' m n _ hn
      obtain ⟨x, -, rfl⟩ := mem_map.mp he'
      cases hn

theorem code_valid (kind : EventKind) : kind.code ≠ 0 ∧ kind.code ≤ EventKind.lsfs.code := by
  cases kind <;> decide

theorem Numbered.change (h : q.Numbered) (hb : q.Booked) (hroom : q.Roomy) (hc : q.Change q') :
    q'.Numbered := by
  cases hc with
  | merged hfull => exact h.shrink (List.Sublist.refl _) rfl rfl rfl rfl rfl
  | fired kind data koid hi =>
    have hc := (issue_spec hb.ok hi).2.2.2.2.2.2
    have hq : q' = { q' with coalesced := q.coalesced } := by rw [← hc]
    rw [hq]
    by_cases hk : kind = .timer
    · rw [if_pos hk] at hi
      exact h.issue hb hroom hi (code_valid _) (fun _ => rfl) (fun _ => rfl)
    · rw [if_neg hk] at hi
      exact h.issue hb hroom hi (code_valid _) (fun _ => rfl) (fun _ => rfl)
  | flushed hi => exact h.issue hb hroom hi (code_valid _) (fun _ => rfl) (fun _ => rfl)
  | acked id hu =>
    obtain ⟨n, -, -, -, -, hview, hlog, hid, hseq, -⟩ := unlink_spec hb.ok hu
    exact h.shrink (hview ▸ erase_sublist) hlog rfl rfl hid hseq
  | restored id records hempty _ hlen hcheck => exact h.refill hb hempty hlen hcheck

theorem Numbered.step {r : Bool} {d : ℕ} (h : q.Numbered) (hb : q.Booked) (hroom : q.Roomy)
    (hq : q.Step r d q') : q'.Numbered := by
  have hone : ∀ {r r' : EventQueue depth}, r.Numbered → r.Booked → r.Roomy →
      (r' = r ∨ r.Change r') → r'.Numbered := by
    rintro r r' hn hbr hr (rfl | hc)
    · exact hn
    · exact hn.change hbr hr hc
  cases hq with
  | stay => exact h
  | expire data koid => exact hone h hb hroom (q.fire_cases .timer data koid)
  | post kind data koid _ _ => exact hone h hb hroom (q.fire_cases kind data koid)
  | ack id =>
    rcases q.ackLocked_cases id with heq | ⟨q', hu, heq⟩
    · rw [heq]
      exact h
    · obtain ⟨_, -, -, -, -, -, -, hid, hseq, -⟩ := unlink_spec hb.ok hu
      have hroom' : q'.Roomy := by
        rw [Roomy, hid, hseq]
        exact hroom
      rw [heq]
      exact hone (h.change hb hroom (.acked id hu)) (hb.unlink hu) hroom' q'.flush_cases
  | restore id records hempty _ hlen hcheck => exact h.refill hb hempty hlen hcheck

end EventQueue

/-! ## Runs -/

open Registry EventQueue

def EventOp.faults : EventOp → Bool
  | .read _ _ copied => !copied
  | _ => false

def Registry.Roomy (k : Registry) : Prop := ∀ y ∈ k.apps, y.queue.Roomy

instance (k : Registry) : Decidable k.Roomy := inferInstanceAs (Decidable (∀ y ∈ k.apps, _))

/-- No counter is at its limit, and the operation is not a read that loses its record. -/
def Calm (k : Registry) (op : EventOp) : Prop := k.Roomy ∧ op.faults = false

instance (k : Registry) (op : EventOp) : Decidable (Calm k op) :=
  inferInstanceAs (Decidable (_ ∧ _))

def Along (P : Registry → EventOp → Prop) : Registry → List EventOp → Prop
  | _, [] => True
  | k, op :: ops => P k op ∧ Along P (eventStep k op).2 ops

instance decidableAlong (P : Registry → EventOp → Prop) [∀ k op, Decidable (P k op)] :
    (k : Registry) → (ops : List EventOp) → Decidable (Along P k ops)
  | _, [] => .isTrue trivial
  | k, op :: ops =>
    have := decidableAlong P (eventStep k op).2 ops
    inferInstanceAs (Decidable (_ ∧ _))

theorem along_append (P : Registry → EventOp → Prop) (k : Registry) (ops ops' : List EventOp) :
    Along P k (ops ++ ops') ↔ Along P k ops ∧ Along P (eventRun k ops) ops' := by
  induction ops generalizing k with
  | nil => simp [Along, eventRun]
  | cons op ops ih =>
    rw [cons_append, Along, Along, ih, and_assoc]
    rfl

theorem Along.mono {P Q : Registry → EventOp → Prop} (hPQ : ∀ k op, P k op → Q k op)
    {k : Registry} {ops : List EventOp} (h : Along P k ops) : Along Q k ops := by
  induction ops generalizing k with
  | nil => trivial
  | cons op ops ih => exact ⟨hPQ k op h.1, ih h.2⟩

theorem run_numbered (ops : List EventOp) (hroom : Along (fun k _ => k.Roomy) .initial ops)
    (a : ℕ) (y : Application) (hy : (eventRun .initial ops).apps[a]? = some y) : y.queue.Numbered := by
  induction ops using reverseRecOn generalizing y with
  | nil => cases hy
  | append_singleton ops op ih =>
    obtain ⟨hroom, hstep, -⟩ := (along_append _ .initial ops [op]).mp hroom
    have htrack := (step_effect (eventRun .initial ops) op).tracks
    rw [eventRun_snoc] at hy
    cases hold : (eventRun .initial ops).apps[a]? with
    | none =>
      rw [htrack.born a y hy hold]
      exact numbered_initial
    | some x =>
      obtain ⟨y', hy', -, hq⟩ := htrack.here a x hold
      rw [hy] at hy'
      cases hy'
      exact (ih hroom x hold).step ((run_booked ops a).2 x hold).1
        (hstep x (mem_of_getElem? hold)) hq

end Aok.Kernel
