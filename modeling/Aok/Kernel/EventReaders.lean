import Aok.Kernel.EventOrder

/-!
# Readers of an application

A file of an application keeps a cursor. It reads what was pending when it was opened, each record
once and in order, unless a record is acknowledged before its turn.
-/

namespace Aok.Kernel
open Lib Registry EventQueue Sample

variable {k : Registry} {fd : ℕ} {op : EventOp} {rights c : UInt64} {y : Application}
  {pending : List EventNode} {got : List EventRecord}

def taken (fd : ℕ) : EventOp → EventReply → Option EventRecord
  | .read fd' _ _, .ok (.record r) => if fd' = fd then some r else none
  | _, _ => none

def received (fd : ℕ) : Registry → List EventOp → List EventRecord
  | _, [] => []
  | k, op :: ops =>
    (taken fd op (eventStep k op).1).toList ++ received fd (eventStep k op).2 ops

theorem received_snoc (fd : ℕ) (k : Registry) (ops : List EventOp) (op : EventOp) :
    received fd k (ops ++ [op]) =
      received fd k ops ++ (taken fd op (eventStep (eventRun k ops) op).1).toList := by
  induction ops generalizing k with
  | nil => simp [received, eventRun]
  | cons first ops ih =>
    rw [List.cons_append, received, received, ih, List.append_assoc]
    rfl

/-! ## What a step does to a file -/

theorem file_set_self (hfd : fd < k.files.length)
    (f : Option EventFile) : ({ k with files := k.files.set fd f } : Registry).file fd = f := by
  simp [file, hfd]

theorem file_set_ne {fd' : ℕ} (hne : fd' ≠ fd) (f : Option EventFile) :
    ({ k with files := k.files.set fd' f } : Registry).file fd = k.file fd := by
  simp [file, List.getElem?_set_ne hne]

theorem step_file_of_ne (hfd : fd < k.files.length)
    (hclose : op ≠ .close fd) (hread : ∀ room copied, op ≠ .read fd room copied) :
    (eventStep k op).2.file fd = k.file fd := by
  by_cases hop : op.plain = true
  · exact ((step_effect k op).opens hop).file hfd
  · cases op with
    | close fd' =>
      have hne : fd' ≠ fd := fun h => hclose (h ▸ rfl)
      rcases close_sets k fd' with heq | ⟨-, heq⟩
      · rw [heq]
      · rw [heq, file_set_ne hne]
    | read fd' room copied =>
      have hne : fd' ≠ fd := fun h => hread room copied (h ▸ rfl)
      rcases read_sets k fd' room copied with heq | ⟨-, f, heq⟩
      · rw [heq]
      · rw [heq, file_set_ne hne]
    | _ => exact absurd rfl hop

theorem step_files_length (k : Registry) (op : EventOp) :
    k.files.length ≤ (eventStep k op).2.files.length := by
  by_cases hop : op.plain = true
  · obtain ⟨added, h, -⟩ := (step_effect k op).opens hop
    rw [h, List.length_append]
    exact Nat.le_add_right _ _
  · cases op with
    | close fd =>
      rcases close_sets k fd with heq | ⟨-, heq⟩
      · rw [heq]
      · rw [heq, List.length_set]
    | read fd room copied =>
      rcases read_sets k fd room copied with heq | ⟨-, f, heq⟩
      · rw [heq]
      · rw [heq, List.length_set]
    | _ => exact absurd rfl hop

theorem step_closed (hfd : fd < k.files.length)
    (hf : k.file fd = none) (op : EventOp) : (eventStep k op).2.file fd = none := by
  by_cases hclose : op = .close fd
  · subst hclose
    rcases close_sets k fd with heq | ⟨hopen, -⟩
    · rw [heq, hf]
    · exact absurd hf hopen
  · by_cases hread : ∃ room copied, op = .read fd room copied
    · obtain ⟨room, copied, rfl⟩ := hread
      rcases read_sets k fd room copied with heq | ⟨hopen, -⟩
      · rw [heq, hf]
      · exact absurd hf hopen
    · rw [step_file_of_ne hfd hclose fun room copied h => hread ⟨room, copied, h⟩, hf]

inductive Turned (k : Registry) (op : EventOp) (fd a : ℕ) (rights readSeq : UInt64) : Prop where
  | closed : (eventStep k op).2.file fd = none → taken fd op (eventStep k op).1 = none →
      Turned k op fd a rights readSeq
  | stayed : (eventStep k op).2.file fd = some (.app a rights readSeq) →
      taken fd op (eventStep k op).1 = none → Turned k op fd a rights readSeq
  | moved (y : Application) (n : EventNode) (room copied : Bool) :
      op = .read fd room copied → k.apps[a]? = some y → y.queue.next readSeq = some n →
      (eventStep k op).2.file fd = some (.app a rights n.eventSeq) →
      (eventStep k op).2.apps = k.apps →
      (copied = true → taken fd op (eventStep k op).1 = some (n.record y.applicationId)) →
      Turned k op fd a rights readSeq

theorem taken_of_ne (hread : ∀ room copied, op ≠ .read fd room copied)
    (r : EventReply) : taken fd op r = none := by
  unfold taken
  split
  · next fd' room copied r =>
    have hne : fd' ≠ fd := fun h => hread room copied (h ▸ rfl)
    exact if_neg hne
  · rfl

theorem taken_closed (hf : k.file fd = none) (op : EventOp) :
    taken fd op (eventStep k op).1 = none := by
  by_cases hread : ∃ room copied, op = .read fd room copied
  · obtain ⟨room, copied, rfl⟩ := hread
    simp only [eventStep, onApp, hf]
    rfl
  · exact taken_of_ne (fun room copied h => hread ⟨room, copied, h⟩) _

theorem read_turned {a : ℕ} {readSeq : UInt64}
    (hf : k.file fd = some (.app a rights readSeq)) (room copied : Bool) :
    Turned k (.read fd room copied) fd a rights readSeq := by
  have hfd := lt_of_file hf
  -- whatever is refused leaves the file as it is
  have hrefused : ∀ e : EventReply, taken fd (.read fd room copied) e = none →
      eventStep k (.read fd room copied) = (e, k) →
      Turned k (.read fd room copied) fd a rights readSeq := by
    intro e he heq
    exact .stayed (by rw [heq, hf]) (by rw [heq]; exact he)
  cases hy : k.apps[a]? with
  | none => exact hrefused (.error .ebadf) rfl (by simp only [eventStep, onApp, hf, hy])
  | some y =>
    have hstep : eventStep k (.read fd room copied) =
        k.readApp fd a y rights readSeq room copied := by simp only [eventStep, onApp, hf, hy]
    dsimp only [readApp] at hstep
    split at hstep
    · exact hrefused _ rfl hstep
    · split at hstep
      · exact hrefused _ rfl hstep
      · cases hn : y.queue.next readSeq with
        | none =>
          rw [hn] at hstep
          exact hrefused _ rfl hstep
        | some n =>
          rw [hn] at hstep
          dsimp only at hstep
          refine .moved y n room copied rfl hy hn ?_ ?_ ?_
          · rw [hstep]
            exact file_set_self hfd _
          · rw [hstep]
          · intro hcopied
            rw [hstep, if_pos hcopied]
            exact if_pos rfl

theorem step_turned {a : ℕ} {readSeq : UInt64}
    (hf : k.file fd = some (.app a rights readSeq)) (op : EventOp) :
    Turned k op fd a rights readSeq := by
  have hfd := lt_of_file hf
  by_cases hread : ∃ room copied, op = .read fd room copied
  · obtain ⟨room, copied, rfl⟩ := hread
    exact read_turned hf room copied
  · have hne : ∀ room copied, op ≠ .read fd room copied :=
      fun room copied h => hread ⟨room, copied, h⟩
    by_cases hclose : op = .close fd
    · subst hclose
      rcases close_sets k fd with heq | ⟨-, heq⟩
      · exact .stayed (by rw [heq, hf]) rfl
      · exact .closed (by rw [heq, file_set_self hfd]) rfl
    · exact .stayed (by rw [step_file_of_ne hfd hclose hne, hf]) (taken_of_ne hne _)

/-! ## Readers -/

namespace EventQueue

variable {depth : ℕ} {q q' : EventQueue depth}

theorem Change.log_grows (hb : q.Booked) (h : q.Change q') : q.log <+: q'.log := by
  cases h with
  | merged _ => exact List.prefix_append _ _
  | fired kind data koid hi =>
    rw [(issue_spec hb.ok hi).2.2.2.1]
    exact List.prefix_append _ _
  | flushed hi =>
    rw [(issue_spec hb.ok hi).2.2.2.1]
    exact List.prefix_append _ _
  | acked id hu =>
    obtain ⟨_, -, -, -, -, -, hlog, -⟩ := unlink_spec hb.ok hu
    rw [hlog]
    exact List.prefix_append _ _
  | restored id records _ _ _ _ => exact List.prefix_append _ _

theorem Booked.log_grows {r : Bool} {d : ℕ} (hb : q.Booked)
    (h : q.Step r d q') : q.log <+: q'.log := by
  have hpath := h.changes
  clear h
  induction hpath with
  | refl => exact List.prefix_refl _
  | tail hpath hc ih => exact ih.trans (hc.log_grows (hb.changes hpath))

theorem Booked.gone_step {r : Bool} {d : ℕ} (hb : q.Booked)
    (h : q.Step r d q') {n : EventNode}
    (hn : n ∈ q.gone) : n ∈ q'.gone :=
  ((hb.log_grows h).sublist.filterMap QueueEvent.gone).subset hn

theorem Booked.pending_step {r : Bool} {d : ℕ} (hb : q.Booked)
    (h : q.Step r d q') {n : EventNode}
    (hn : n ∈ q.view) : n ∈ q'.view ∨ n ∈ q'.gone := by
  have hborn : n ∈ q'.born :=
    ((hb.log_grows h).sublist.filterMap QueueEvent.born).subset ((hb.mem n).mp hn).1
  by_cases hg : n ∈ q'.gone
  · exact Or.inr hg
  · exact Or.inl (((hb.changes h.changes).mem n).mpr ⟨hborn, hg⟩)

theorem Numbered.next_le (h : q.Numbered) {m n : EventNode}
    (hnext : q.next c = some m) (hn : n ∈ q.view) (hc : c < n.eventSeq) :
    n = m ∨ m.eventSeq < n.eventSeq := by
  obtain ⟨-, before, after, hview, hbefore⟩ := List.find?_eq_some_iff_append.mp hnext
  have hpair := h.increasing
  rw [hview] at hn hpair
  rcases List.mem_append.mp hn with hn | hn
  · exact absurd hc (by simpa using hbefore n hn)
  · rcases List.mem_cons.mp hn with rfl | hn
    · exact Or.inl rfl
    · have hafter := (List.pairwise_cons.mp (List.pairwise_append.mp hpair).2.1).1 n hn
      exact Or.inr hafter.2

end EventQueue

/-- What a reader has to do with the records that were pending when it was opened. -/
structure Reader (pending : List EventNode) (y : Application) (c : UInt64)
    (got : List EventRecord) : Prop where
  behind : ∀ r ∈ got, r.eventSeq ≤ c
  rest : ∀ n ∈ pending, n.record y.applicationId ∈ got ∨ n ∈ y.queue.gone ∨
    n ∈ y.queue.view ∧ c < n.eventSeq

theorem reader_open (hb : y.queue.Booked) (hn : y.queue.Numbered) :
    Reader y.queue.view y 0 [] where
  behind := by simp
  rest n hm := Or.inr (Or.inr ⟨hm, UInt64.pos_iff_ne_zero.mpr (hn.valid n ((hb.mem n).mp hm).1).seq⟩)

theorem Reader.step {y' : Application}
    {r : Bool} {d : ℕ} (h : Reader pending y c got) (hb : y.queue.Booked)
    (hq : y.queue.Step r d y'.queue) (hid : y'.applicationId = y.applicationId) :
    Reader pending y' c got where
  behind := h.behind
  rest n hn := by
    rw [hid]
    rcases h.rest n hn with hgot | hgone | ⟨hview, hc⟩
    · exact Or.inl hgot
    · exact Or.inr (Or.inl (hb.gone_step hq hgone))
    · rcases hb.pending_step hq hview with hview | hgone
      · exact Or.inr (Or.inr ⟨hview, hc⟩)
      · exact Or.inr (Or.inl hgone)

theorem Reader.read {m : EventNode} (h : Reader pending y c got)
    (hn : y.queue.Numbered) (hnext : y.queue.next c = some m) :
    Reader pending y m.eventSeq (got ++ [m.record y.applicationId]) where
  behind r hr := by
    have hc : c < m.eventSeq := by simpa using List.find?_some hnext
    rcases List.mem_append.mp hr with hr | hr
    · exact UInt64.le_of_lt (UInt64.lt_of_le_of_lt (h.behind r hr) hc)
    · rw [List.mem_singleton.mp hr]
      exact UInt64.le_refl _
  rest n hp := by
    rcases h.rest n hp with hgot | hgone | ⟨hview, hc⟩
    · exact Or.inl (List.mem_append_left _ hgot)
    · exact Or.inr (Or.inl hgone)
    · rcases hn.next_le hnext hview hc with rfl | hlt
      · exact Or.inl (List.mem_append_right _ (List.mem_singleton_self _))
      · exact Or.inr (Or.inr ⟨hview, hlt⟩)

theorem eventRun_append (k : Registry) (ops ops' : List EventOp) :
    eventRun k (ops ++ ops') = eventRun (eventRun k ops) ops' := by
  simp [eventRun]

structure Followed (k : Registry) (fd a : ℕ) (rights : UInt64) (pending : List EventNode)
    (got : List EventRecord) : Prop where
  known : fd < k.files.length
  increasing : (got.map EventRecord.eventSeq).Pairwise (· < ·)
  exists_reader : ∃ y, k.apps[a]? = some y ∧ (k.file fd = none ∨
    ∃ c, k.file fd = some (.app a rights c) ∧ Reader pending y c got)

theorem Followed.step {a : ℕ} (h : Followed k fd a rights pending got)
    (hbooked : ∀ y, k.apps[a]? = some y → y.queue.Booked)
    (hnumbered : ∀ y, k.apps[a]? = some y → y.queue.Numbered) (hcalm : op.faults = false) :
    Followed (eventStep k op).2 fd a rights pending
      (got ++ (taken fd op (eventStep k op).1).toList) := by
  obtain ⟨y, hy, hreader⟩ := h.exists_reader
  obtain ⟨y', hy', hid, hq⟩ := (step_effect k op).tracks.here a y hy
  have hknown := lt_of_lt_of_le h.known (step_files_length k op)
  rcases hreader with hclosed | ⟨c, hf, hreader⟩
  · rw [taken_closed hclosed op, Option.toList_none, List.append_nil]
    exact ⟨hknown, h.increasing, y', hy', Or.inl (step_closed h.known hclosed op)⟩
  · have hkept := hreader.step (hbooked y hy) hq hid
    rcases step_turned hf op with ⟨hnone, htaken⟩ | ⟨hf', htaken⟩ |
      ⟨z, n, room, copied, rfl, hz, hnext, hf', happs, htaken⟩
    · rw [htaken, Option.toList_none, List.append_nil]
      exact ⟨hknown, h.increasing, y', hy', Or.inl hnone⟩
    · rw [htaken, Option.toList_none, List.append_nil]
      exact ⟨hknown, h.increasing, y', hy', Or.inr ⟨c, hf', hkept⟩⟩
    · rw [hy] at hz
      cases hz
      rw [htaken (by simpa [EventOp.faults] using hcalm)]
      have hc : c < n.eventSeq := by simpa using List.find?_some hnext
      refine ⟨hknown, ?_, y, by rw [happs, hy], Or.inr ⟨_, hf', ?_⟩⟩
      · rw [List.map_append]
        refine List.pairwise_append.mpr ⟨h.increasing, List.pairwise_singleton _ _, ?_⟩
        intro s hs t ht
        obtain ⟨r, hr, rfl⟩ := List.mem_map.mp hs
        cases List.mem_singleton.mp ht
        exact UInt64.lt_of_le_of_lt (hreader.behind r hr) hc
      · exact hreader.read (hnumbered y hy) hnext

theorem run_followed {pre : List EventOp} {a : ℕ} {y₀ : Application}
    (hf : (eventRun .initial pre).file fd = some (.app a rights 0))
    (hy : (eventRun .initial pre).apps[a]? = some y₀) (ops : List EventOp)
    (hcalm : Along Calm .initial (pre ++ ops)) :
    Followed (eventRun .initial (pre ++ ops)) fd a rights y₀.queue.view
      (received fd (eventRun .initial pre) ops) := by
  induction ops using List.reverseRecOn with
  | nil =>
    rw [List.append_nil] at hcalm ⊢
    exact ⟨lt_of_file hf, List.Pairwise.nil, y₀, hy, Or.inr ⟨0, hf, reader_open
      ((run_booked pre a).2 y₀ hy).1
      (run_numbered pre (hcalm.mono fun _ _ h => h.1) a y₀ hy)⟩⟩
  | append_singleton ops op ih =>
    rw [← List.append_assoc] at hcalm ⊢
    obtain ⟨hcalm, hstep, -⟩ := (along_append _ .initial (pre ++ ops) [op]).mp hcalm
    rw [eventRun_snoc, received_snoc, ← eventRun_append]
    exact (ih hcalm).step (fun y hy => ((run_booked (pre ++ ops) a).2 y hy).1)
      (fun y hy => run_numbered (pre ++ ops) (hcalm.mono fun _ _ h => h.1) a y hy) hstep.2

theorem step_atStart {f : EventFile}
    (hfd : k.files.length ≤ fd) (hf : (eventStep k op).2.file fd = some f) : AtStart f := by
  have hlen : k.files.length < (eventStep k op).2.files.length :=
    lt_of_le_of_lt hfd (lt_of_file hf)
  by_cases hop : op.plain = true
  · exact ((step_effect k op).opens hop).atStart hfd hf
  · cases op with
    | close fd' =>
      rcases close_sets k fd' with heq | ⟨-, heq⟩
      · rw [heq] at hlen
        exact absurd hlen (lt_irrefl _)
      · rw [heq, List.length_set] at hlen
        exact absurd hlen (lt_irrefl _)
    | read fd' room copied =>
      rcases read_sets k fd' room copied with heq | ⟨-, g, heq⟩
      · rw [heq] at hlen
        exact absurd hlen (lt_irrefl _)
      · rw [heq, List.length_set] at hlen
        exact absurd hlen (lt_irrefl _)
    | _ => exact absurd rfl hop

theorem Reader.done (h : Reader pending y c got) (hnext : y.queue.next c = none) :
    ∀ n ∈ pending, n.record y.applicationId ∈ got ∨ n ∈ y.queue.gone := by
  intro n hn
  rcases h.rest n hn with hgot | hgone | ⟨hview, hc⟩
  · exact Or.inl hgot
  · exact Or.inr hgone
  · exact absurd hc (by simpa using List.find?_eq_none.mp hnext n hview)

theorem next_of_nothing {a : ℕ}
    {room copied : Bool} (hf : k.file fd = some (.app a rights c)) (hy : k.apps[a]? = some y)
    (hread : (eventStep k (.read fd room copied)).1 = .ok .nothing) : y.queue.next c = none := by
  simp only [eventStep, onApp, hf, hy, readApp] at hread
  split at hread
  · cases hread
  · split at hread
    · cases hread
    · cases hnext : y.queue.next c with
      | none => rfl
      | some n =>
        rw [hnext] at hread
        dsimp only at hread
        split at hread <;> cases hread

/-- Events are numbered and read in order, as long as every step is calm. -/
theorem events_in_order (ops : List EventOp) (hcalm : Along Calm .initial ops) (a : ℕ)
    (y : Application) (hy : (eventRun .initial ops).apps[a]? = some y) :
    (y.queue.view.Pairwise fun m n => m.eventId < n.eventId ∧ m.eventSeq < n.eventSeq) ∧
    -- no number of a new event was on a record that was issued or restored before
    (y.queue.log.Pairwise fun e e' => ∀ m n, e.born = some m → e'.issued = some n →
      m.eventId ≠ n.eventId) ∧
    -- a file opened in the middle of the run
    ∀ (pre : List EventOp) (op : EventOp) (post : List EventOp) (fd : ℕ) (rights c₀ c : UInt64)
      (y₀ : Application), ops = pre ++ op :: post →
      (eventRun .initial pre).files.length ≤ fd →
      (eventRun .initial (pre ++ [op])).file fd = some (.app a rights c₀) →
      (eventRun .initial (pre ++ [op])).apps[a]? = some y₀ →
      (eventRun .initial ops).file fd = some (.app a rights c) →
      ((received fd (eventRun .initial (pre ++ [op])) post).map
        EventRecord.eventSeq).Pairwise (· < ·) ∧
      (∀ n ∈ y₀.queue.view,
        n.record y.applicationId ∈ received fd (eventRun .initial (pre ++ [op])) post ∨
        n ∈ y.queue.gone ∨ n ∈ y.queue.view ∧ c < n.eventSeq) ∧
      ∀ room copied, (eventStep (eventRun .initial ops) (.read fd room copied)).1 =
        .ok .nothing → ∀ n ∈ y₀.queue.view,
        n.record y.applicationId ∈ received fd (eventRun .initial (pre ++ [op])) post ∨
        n ∈ y.queue.gone := by
  have hnumbered := run_numbered ops (hcalm.mono fun _ _ h => h.1) a y hy
  refine ⟨hnumbered.increasing, hnumbered.novel, ?_⟩
  rintro pre op post fd rights c₀ c y₀ rfl hnew hf₀ hy₀ hf
  have hsplit : pre ++ op :: post = pre ++ [op] ++ post := by simp
  have hstart : AtStart (.app a rights c₀) := by
    rw [eventRun_snoc] at hf₀
    exact step_atStart hnew hf₀
  have hzero : c₀ = 0 := hstart
  rw [hzero] at hf₀
  rw [hsplit] at hcalm hy hf ⊢
  have hfollowed := run_followed hf₀ hy₀ post hcalm
  obtain ⟨y', hy', hreader⟩ := hfollowed.exists_reader
  rw [hy] at hy'
  cases hy'
  rcases hreader with hclosed | ⟨c', hf', hreader⟩
  · rw [hf] at hclosed
    cases hclosed
  · rw [hf] at hf'
    cases hf'
    exact ⟨hfollowed.increasing, hreader.rest,
      fun room copied hread => hreader.done (next_of_nothing hf hy hread)⟩

def Sample.wrapping : List EventOp :=
  [.createApp 7 1 none none, .createSource .port 2 none, .attach 1 (some ⟨7, some 0, 0⟩),
    .restore 0 [⟨recordSize, 0, 7, 18446744073709551614, 18446744073709551614, 2, 1, 0, 0, 0⟩]
      true true, .post 1 0, .post 1 0]

/-- An accepted restore lets the next numbers start again at zero. -/
theorem events_out_of_order : ((eventRun .initial wrapping).apps[0]?).map
    (fun y => y.queue.view.map EventNode.eventId) =
      some [18446744073709551614, 18446744073709551615, 0] := by
  decide +kernel

def Sample.reading : List EventOp :=
  posting ++ [.post 1 0, .createApp 7 3 none none, .read 2 true true]

theorem events_in_order_reading : ∃ y, (eventRun .initial reading).apps[0]? = some y ∧
    y.queue.view.length = 2 ∧
    y.queue.view.Pairwise fun m n => m.eventId < n.eventId ∧ m.eventSeq < n.eventSeq := by
  have hcalm : Along Calm .initial reading := by decide +kernel
  have hlen : ((eventRun .initial reading).apps[0]?).map (fun y => y.queue.view.length) =
      some 2 := by
    decide +kernel
  obtain ⟨y, hy, hlen⟩ := Option.map_eq_some_iff.mp hlen
  exact ⟨y, hy, hlen, (events_in_order reading hcalm 0 y hy).1⟩

end Aok.Kernel
