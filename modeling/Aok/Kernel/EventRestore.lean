import Aok.Kernel.EventReaders

/-!
# Snapshots and restores

The records of a snapshot pass the checks of a restore, and fill an empty queue with the events
the snapshot was taken from.
-/

namespace Aok.Kernel
open Lib Registry EventQueue Sample List

variable {records : List EventRecord} {c rights : UInt64} {fd a : ℕ} {y : Application}
  {k : Registry}

/-! ## A snapshot is accepted -/

theorem EventNode.record_fits {n : EventNode} (h : n.Valid) (hid : n.eventId ≠ maxWord)
    (hseq : n.eventSeq ≠ maxWord) (id : UInt64) : (n.record id).fits id = true :=
  EventRecord.fits_iff.mpr ⟨rfl, rfl, h.kind, ⟨h.id, hid⟩, ⟨h.seq, hseq⟩, rfl, rfl⟩

theorem ne_max_of_le {m n : UInt64} (hle : m ≤ n) (hn : n ≠ maxWord) : m ≠ maxWord := by
  intro heq
  have hle' : n ≤ maxWord := UInt64.le_iff_toNat_le.mpr (by
    have hnlt := n.toNat_lt
    simp only [maxWord, UInt64.reduceToNat]
    omega)
  rw [heq] at hle
  exact hn (UInt64.le_antisymm hle' hle)

theorem EventQueue.Numbered.checkRecords {depth : ℕ} {q : EventQueue depth} (h : q.Numbered)
    (hb : q.Booked) (hroom : q.Roomy) (id : UInt64) :
    checkRecords id none (q.view.map fun n => n.record id) = true := by
  refine (checkRecords_iff id none _).mpr ⟨?_, ?_⟩
  · intro r hr
    obtain ⟨n, hn, rfl⟩ := mem_map.mp hr
    have hborn := ((hb.mem n).mp hn).1
    obtain ⟨hid, hseq⟩ := h.behind n hborn
    exact n.record_fits (h.valid n hborn) (ne_max_of_le hid hroom.1) (ne_max_of_le hseq hroom.2) id
  · refine isChain_iff_pairwise.mpr ?_
    rw [Option.toList_none, nil_append, pairwise_map]
    exact h.increasing.imp fun hlt => EventRecord.before_iff.mpr hlt

theorem EventRecord.record_node {r : EventRecord} {id : UInt64} (h : r.fits id = true)
    (ticket : ℕ) : (r.node ticket).record id = r := by
  obtain ⟨hsize, hid, -, -, -, h0, h1⟩ := EventRecord.fits_iff.mp h
  cases r
  simp_all [EventRecord.node, EventNode.record]

theorem restoredNodes_record {depth : ℕ} (q : EventQueue depth) {id : UInt64}
    (h : checkRecords id none records = true) :
    ((q.restoredNodes records).map fun n => n.record id) = records := by
  refine ext_getElem (by simp [restoredNodes]) ?_
  intro i h₁ h₂
  have hfits := ((checkRecords_iff id none records).mp h).1 records[i] (getElem_mem h₂)
  simpa [restoredNodes] using EventRecord.record_node hfits _

/-! ## A reader that starts anew -/

def ahead (l : List EventNode) (c : UInt64) : List EventNode :=
  l.filter fun n => c < n.eventSeq

theorem ahead_of_next {l : List EventNode} {m : EventNode}
    (hl : l.Pairwise fun m n => m.eventSeq < n.eventSeq)
    (hnext : (l.find? fun n => c < n.eventSeq) = some m) :
    ahead l c = m :: ahead l m.eventSeq := by
  obtain ⟨hm, before, after, rfl, hbefore⟩ := find?_eq_some_iff_append.mp hnext
  have hc : c < m.eventSeq := by simpa using hm
  have hafter := (pairwise_cons.mp (pairwise_append.mp hl).2.1).1
  have hbelow : ∀ n ∈ before, n.eventSeq ≤ c := by
    intro n hn
    simpa using hbefore n hn
  have h₁ : ahead before c = [] := by
    refine filter_eq_nil_iff.mpr ?_
    intro n hn
    simpa using hbelow n hn
  have h₂ : ahead before m.eventSeq = [] := by
    refine filter_eq_nil_iff.mpr ?_
    intro n hn
    simpa using UInt64.le_trans (hbelow n hn) (UInt64.le_of_lt hc)
  have h₃ : ∀ d, d ≤ m.eventSeq → ahead after d = after := by
    intro d hd
    refine filter_eq_self.mpr ?_
    intro n hn
    simpa using UInt64.lt_of_le_of_lt hd (hafter n hn)
  have hsplit : ∀ d, ahead (before ++ m :: after) d =
      ahead before d ++ (ahead [m] d ++ ahead after d) := by
    intro d
    simp [ahead, ← filter_append]
  rw [hsplit, hsplit, h₁, h₂, h₃ c (UInt64.le_of_lt hc), h₃ m.eventSeq (UInt64.le_refl _)]
  simp [ahead, hc]

theorem received_reads (hright : rights &&& rightRead ≠ 0)
    (hview : y.queue.view.Pairwise fun m n => m.eventSeq < n.eventSeq) (n : ℕ) :
    ∀ (k : Registry) (c : UInt64), k.file fd = some (.app a rights c) → k.apps[a]? = some y →
      received fd k (replicate n (.read fd true true)) =
        ((ahead y.queue.view c).take n).map fun m => m.record y.applicationId := by
  induction n with
  | zero =>
    intro k c _ _
    simp [received]
  | succ n ih =>
    intro k c hf hy
    have hstep : eventStep k (.read fd true true) =
        k.readApp fd a y rights c true true := by
      simp only [eventStep, onApp, hf, hy]
    rw [replicate_succ, received, hstep]
    unfold readApp
    rw [if_neg hright, if_neg (by simp)]
    cases hnext : y.queue.next c with
    | none =>
      have hnil : ahead y.queue.view c = [] :=
        filter_eq_nil_iff.mpr (find?_eq_none.mp hnext)
      dsimp only
      rw [ih k c hf hy, hnil]
      simp [taken]
    | some m =>
      dsimp only
      rw [ih _ m.eventSeq (file_set_self (lt_of_file hf) _) hy, ahead_of_next hview hnext]
      simp [taken]

theorem ahead_zero {l : List EventNode} (h : ∀ n ∈ l, n.Valid) : ahead l 0 = l := by
  refine filter_eq_self.mpr ?_
  intro n hn
  simpa using UInt64.pos_iff_ne_zero.mpr (h n hn).seq

/-! ## The calls -/

theorem snapshot_reply (hf : k.file fd = some (.app a rights c)) (hy : k.apps[a]? = some y)
    (hright : rights &&& rightInspect ≠ 0) (count : ℕ) :
    (eventStep k (.snapshot fd count true true true)).1 = .ok (.records y.queue.view.length
      ((y.queue.view.map fun n => n.record y.applicationId).take count)) := by
  simp only [eventStep, onApp, hf, hy, Registry.snapshot]
  rw [if_neg hright, if_neg (by simp)]
  cases hview : y.queue.view with
  | nil => simp
  | cons n l => simp

theorem snapshot_right {count : ℕ}
    {out : EventOutput} (hf : k.file fd = some (.app a rights c)) (hy : k.apps[a]? = some y)
    (h : (eventStep k (.snapshot fd count true true true)).1 = .ok out) :
    rights &&& rightInspect ≠ 0 := by
  intro hright
  simp [eventStep, onApp, hf, hy, Registry.snapshot, hright] at h

theorem restore_refused {memory readable : Bool} {e : Errno}
    (h : (eventStep k (.restore fd records memory readable)).1 = .error e) :
    (eventStep k (.restore fd records memory readable)).2 = k := by
  revert h
  dsimp only [eventStep]
  split
  · exact fun _ => rfl
  · refine onApp_rule (P := fun r => r.1 = .error e → r.2 = k) (fun _ _ => rfl) ?_
    intro a rights c y _ _
    unfold Registry.restore
    repeat' split
    all_goals first
      | exact fun _ => rfl
      | exact fun h => nomatch h

theorem restore_accepted (hf : k.file fd = some (.app a rights c))
    (hy : k.apps[a]? = some y) (hright : rights &&& rightWrite ≠ 0)
    (hlen : records.length ≤ appQueueDepth)
    (hcheck : checkRecords y.applicationId none records = true)
    (hlive : y.queue.slots.live = 0) (hc : y.queue.coalesced = 0) :
    eventStep k (.restore fd records true true) =
      (.ok .done, if records = [] then k else k.setQueue a (y.queue.refill records)) := by
  simp only [eventStep, onApp, hf, hy, Registry.restore]
  rw [if_neg (not_lt.mpr hlen), if_neg hright]
  by_cases hnil : records = []
  · rw [if_pos hnil, if_pos hnil]
  · rw [if_neg hnil, if_neg hnil, if_neg (by simp), if_neg (by simp), if_neg (by simp [hcheck]),
      if_neg (by simp [hlive, hc])]

structure Shows (y : Application) (records : List EventRecord) : Prop where
  view : (y.queue.view.map fun n => n.record y.applicationId) = records
  increasing : y.queue.view.Pairwise fun m n => m.eventSeq < n.eventSeq
  valid : ∀ n ∈ y.queue.view, n.Valid

theorem Shows.snapshot (h : Shows y records) {count : ℕ} (hy : k.apps[a]? = some y)
    (hf : k.file fd = some (.app a rights c)) (hright : rights &&& rightInspect ≠ 0)
    (hcount : records.length ≤ count) :
    (eventStep k (.snapshot fd count true true true)).1 =
      .ok (.records records.length records) := by
  have hlen : y.queue.view.length = records.length := by
    rw [← h.view, length_map]
  rw [snapshot_reply hf hy hright, h.view, hlen, take_of_length_le hcount]

theorem Shows.reads (h : Shows y records) (hy : k.apps[a]? = some y)
    (hf : k.file fd = some (.app a rights 0)) (hright : rights &&& rightRead ≠ 0) (n : ℕ) :
    received fd k (replicate n (.read fd true true)) = records.take n := by
  rw [received_reads hright h.increasing n k 0 hf hy, ahead_zero h.valid, map_take, h.view]

theorem shows_refill (hb : y.queue.Booked)
    (hlive : y.queue.slots.live = 0) (hlen : records.length ≤ appQueueDepth)
    (hcheck : checkRecords y.applicationId none records = true) :
    Shows { y with queue := y.queue.refill records } records := by
  have hview := (refill_spec hb.ok hlive hlen).2
  constructor
  · rw [hview]
    exact restoredNodes_record y.queue hcheck
  · rw [hview]
    exact (restoredNodes_increasing hcheck).imp And.right
  · rw [hview]
    intro n hn
    obtain ⟨r, hr, ticket, rfl⟩ := mem_restoredNodes hn
    exact checkRecords_valid hcheck hr ticket

theorem restore_shows (hf : k.file fd = some (.app a rights c))
    (hy : k.apps[a]? = some y) (hright : rights &&& rightWrite ≠ 0) (hb : y.queue.Booked)
    (hlen : records.length ≤ appQueueDepth)
    (hcheck : checkRecords y.applicationId none records = true)
    (hlive : y.queue.slots.live = 0) (hc : y.queue.coalesced = 0) :
    ∃ y₂, (eventStep k (.restore fd records true true)).2.apps[a]? = some y₂ ∧
      Shows y₂ records ∧
      (y.queue.eventId ≤ y₂.queue.eventId ∧ y.queue.eventSeq ≤ y₂.queue.eventSeq) ∧
      ∀ r ∈ records, r.eventId ≤ y₂.queue.eventId ∧ r.eventSeq ≤ y₂.queue.eventSeq := by
  rw [restore_accepted hf hy hright hlen hcheck hlive hc]
  by_cases hnil : records = []
  · have hview : y.queue.view = [] :=
      eq_nil_of_length_eq_zero (hb.ok.live_eq.symm.trans hlive)
    rw [if_pos hnil, hnil]
    refine ⟨y, hy, ⟨by rw [hview]; rfl, by rw [hview]; exact .nil, by simp [hview]⟩,
      ⟨UInt64.le_refl _, UInt64.le_refl _⟩, by simp⟩
  · rw [if_neg hnil]
    refine ⟨{ y with queue := y.queue.refill records }, ?_, shows_refill hb hlive hlen hcheck,
      ⟨le_raise_left _ _, le_raise_left _ _⟩, ?_⟩
    · rw [getElem?_setQueue, hy]
      simp
    · intro r hr
      obtain ⟨hid, hseq⟩ := checkRecords_le_last hcheck hr
      exact ⟨UInt64.le_trans hid (le_raise_right _ _), UInt64.le_trans hseq (le_raise_right _ _)⟩

/-- A snapshot can be restored. -/
theorem snapshot_restores (ops ops' : List EventOp)
    (hroom : Along (fun k _ => k.Roomy) .initial ops) (hlast : (eventRun .initial ops).Roomy)
    (fd fd' a a' count filled : ℕ) (rights rights' c c' : UInt64) (y y' : Application)
    (records : List EventRecord)
    (hf : (eventRun .initial ops).file fd = some (.app a rights c))
    (hy : (eventRun .initial ops).apps[a]? = some y)
    (hsnap : (eventStep (eventRun .initial ops) (.snapshot fd count true true true)).1 =
      .ok (.records filled records)) (hcount : filled ≤ count)
    -- an empty queue of the same application, possibly of a later boot
    (hf' : (eventRun .initial ops').file fd' = some (.app a' rights' c'))
    (hy' : (eventRun .initial ops').apps[a']? = some y')
    (hid : y'.applicationId = y.applicationId) (hempty : y'.queue.slots.live = 0)
    (hwrite : rights' &&& rightWrite ≠ 0) :
    (eventStep (eventRun .initial ops') (.restore fd' records true true)).1 = .ok .done ∧
    (∃ y₂, (eventStep (eventRun .initial ops') (.restore fd' records true true)).2.apps[a']? =
        some y₂ ∧
      (y'.queue.eventId ≤ y₂.queue.eventId ∧ y'.queue.eventSeq ≤ y₂.queue.eventSeq) ∧
      (∀ r ∈ records, r.eventId ≤ y₂.queue.eventId ∧ r.eventSeq ≤ y₂.queue.eventSeq) ∧
      -- through any file of the application, those opened later included
      (∀ (k : Registry) (fd₂ n : ℕ) (rights₂ c₂ : UInt64), k.apps[a']? = some y₂ →
        k.file fd₂ = some (.app a' rights₂ c₂) → rights₂ &&& rightInspect ≠ 0 → filled ≤ n →
        (eventStep k (.snapshot fd₂ n true true true)).1 = .ok (.records filled records)) ∧
      (∀ (k : Registry) (fd₂ n : ℕ) (rights₂ : UInt64), k.apps[a']? = some y₂ →
        k.file fd₂ = some (.app a' rights₂ 0) → rights₂ &&& rightRead ≠ 0 →
        received fd₂ k (replicate n (.read fd₂ true true)) = records.take n)) ∧
    (∀ (k : Registry) (fd₂ n : ℕ) (rights₂ : UInt64), k.apps[a]? = some y →
      k.file fd₂ = some (.app a rights₂ 0) → rights₂ &&& rightRead ≠ 0 →
      received fd₂ k (replicate n (.read fd₂ true true)) = records.take n) ∧
    ∀ (k : Registry) (fd₂ : ℕ) (records₂ : List EventRecord) (memory readable : Bool) (e : Errno),
      (eventStep k (.restore fd₂ records₂ memory readable)).1 = .error e →
      (eventStep k (.restore fd₂ records₂ memory readable)).2 = k := by
  have hb := ((run_booked ops a).2 y hy).1
  obtain ⟨hb', hsettled, -⟩ := (run_booked ops' a').2 y' hy'
  have hn := run_numbered ops hroom a y hy
  have hroomy := hlast y (mem_of_getElem? hy)
  -- the snapshot holds the whole queue
  have hreply := snapshot_reply hf hy (snapshot_right hf hy hsnap) count
  rw [hsnap] at hreply
  cases hreply
  rw [take_of_length_le (by simpa using hcount)] at hsnap ⊢
  have hshows : Shows y (y.queue.view.map fun n => n.record y.applicationId) :=
    ⟨rfl, hn.increasing.imp And.right, fun n hmem => hn.valid n ((hb.mem n).mp hmem).1⟩
  have hcheck := hn.checkRecords hb hroomy y.applicationId
  generalize hrec : (y.queue.view.map fun n => n.record y.applicationId) = records
    at hshows hcheck ⊢
  have hlen : records.length = y.queue.view.length := by
    rw [← hrec, length_map]
  have hdepth : records.length ≤ appQueueDepth := by
    rw [hlen]
    exact hb.ok.live_eq ▸ hb.ok.live_le
  rw [← hid] at hcheck
  have hc : y'.queue.coalesced = 0 := by
    by_contra hne
    have hfull := hsettled hne
    rw [hempty] at hfull
    cases hfull
  rw [← hlen]
  refine ⟨?_, ?_, ?_, fun k fd₂ records₂ memory readable e => restore_refused⟩
  · rw [restore_accepted hf' hy' hwrite hdepth hcheck hempty hc]
  · obtain ⟨y₂, hy₂, hshows₂, hcounters, hpast⟩ :=
      restore_shows hf' hy' hwrite hb' hdepth hcheck hempty hc
    exact ⟨y₂, hy₂, hcounters, hpast,
      fun k fd₂ n rights₂ c₂ hk hf₂ hright hn => hshows₂.snapshot hk hf₂ hright hn,
      fun k fd₂ n rights₂ hk hf₂ hright => hshows₂.reads hk hf₂ hright n⟩
  · exact fun k fd₂ n rights₂ hk hf₂ hright => hshows.reads hk hf₂ hright n

def Sample.booted : List EventOp := [.createApp 7 1 none none]

theorem snapshot_restores_posted : ∃ filled records,
    (eventStep (eventRun .initial posting) (.snapshot 0 128 true true true)).1 =
      .ok (.records filled records) ∧ filled = 1 ∧
    (eventStep (eventRun .initial booted) (.restore 0 records true true)).1 =
      .ok .done := by
  obtain ⟨y, hy⟩ := Option.isSome_iff_exists.mp
    (by decide +kernel : ((eventRun .initial posting).apps[0]?).isSome = true)
  obtain ⟨y', hy'⟩ := Option.isSome_iff_exists.mp
    (by decide +kernel : ((eventRun .initial booted).apps[0]?).isSome = true)
  have hf : (eventRun .initial posting).file 0 = some (.app 0 rightsNew 0) := by
    decide +kernel
  have hf' : (eventRun .initial booted).file 0 = some (.app 0 rightsNew 0) := by
    decide +kernel
  have hsnap : (eventStep (eventRun .initial posting) (.snapshot 0 128 true true true)).1 =
      .ok (.records 1 [⟨recordSize, 2, 7, 1, 1, 2, 1, 0, 0, 0⟩]) := by
    decide +kernel
  have hid : y'.applicationId = y.applicationId := by
    have h : ((eventRun .initial booted).apps[0]?).map Application.applicationId =
        ((eventRun .initial posting).apps[0]?).map Application.applicationId := by
      decide +kernel
    rw [hy, hy'] at h
    exact Option.some.inj h
  have hempty : y'.queue.slots.live = 0 := by
    have h : ((eventRun .initial booted).apps[0]?).map (fun y => y.queue.slots.live) =
        some 0 := by
      decide +kernel
    rw [hy'] at h
    exact Option.some.inj h
  refine ⟨_, _, hsnap, rfl, ?_⟩
  exact (snapshot_restores posting booted (by decide +kernel) (by decide +kernel)
    0 0 0 0 128 1 rightsNew rightsNew 0 0 y y' _ hf hy hsnap (by decide) hf' hy' hid hempty
    (by decide)).1

end Aok.Kernel
