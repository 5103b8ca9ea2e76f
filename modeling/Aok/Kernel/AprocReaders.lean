import Aok.Kernel.AprocClosed

/-!
# Readers of the events of an agent process

Every open handle has a cursor into the events of its aproc. The cursor of a created handle is
zero; the one of a duplicate is what the memory held that it was allocated in. From zero a reader
gets the events one after the other, as they were emitted, until the ring has passed it.
-/

namespace Aok.Kernel.Aprocs
open Lib UInt64 Machine

/-! ## Numbers and positions -/

namespace Aproc

variable {p p' : Aproc}

/-- The events carry the numbers one, two and so on. -/
def Numbered (p : Aproc) : Prop := ∀ i e, p.log[i]? = some e → e.eventSeq = ofNat (i + 1)

theorem Emits.numbered (h : p.Emits p') (hp : p.Recorded) (hn : p.Numbered) : p'.Numbered := by
  cases h with
  | still hseq hring hlog =>
    unfold Numbered
    rwa [hlog]
  | one hseq hring hlog =>
    intro i e he
    rw [emit_log, hlog, List.getElem?_append] at he
    split_ifs at he with hi
    · exact hn i e he
    · rw [List.getElem?_singleton] at he
      split_ifs at he
      cases he
      have hlast : i = p.log.length := by omega
      rw [hseq, hp.seq, hlast, ofNat_add]
      rfl

theorem Emits.log (h : p.Emits p') : p.log <+: p'.log := by
  cases h with
  | still hseq hring hlog => rw [hlog]
  | one hseq hring hlog =>
    rw [emit_log, hlog]
    exact List.prefix_append _ _

end Aproc

/-- The number of the oldest event that the ring still has. -/
def oldest (seq : UInt64) : UInt64 := if 128 < seq then seq - 128 + 1 else 1

theorem lt_oldest_iff {n m : ℕ} (hn : n ≤ m) (hm : m + 1 < 2 ^ 64) :
    ofNat n + 1 < oldest (ofNat m) ↔ n + eventQueueLen < m := by
  have hlt : m < 2 ^ 64 := Nat.lt_of_succ_lt hm
  have hn' : (ofNat n).toNat = n := toNat_ofNat_of_lt (hn.trans_lt hlt)
  have hm' : (ofNat m).toNat = m := toNat_ofNat_of_lt hlt
  unfold oldest
  split_ifs with h
  · rw [lt_iff_toNat_lt, hm'] at h
    rw [lt_iff_toNat_lt, UInt64.toNat_add, UInt64.toNat_add, UInt64.toNat_sub,
      hn', hm']
    simp only [reduceToNat, eventQueueLen] at h ⊢
    omega
  · rw [lt_iff_toNat_lt, hm'] at h
    rw [lt_iff_toNat_lt, UInt64.toNat_add, hn']
    simp only [reduceToNat, eventQueueLen] at h ⊢
    omega

/-- The machine with the field `read_seq` of every handle. -/
structure Readers where
  machine : Machine
  cursors : ℕ → UInt64
  -- the records that reads returned through the handle so far
  received : ℕ → List EventSlot

/-- A step of the machine with the contents of the memory that `kmalloc` returns, or a read with
the answers of the check of its buffer and of the copyout. -/
inductive Call where
  | act (op : Op) (memory : UInt64)
  | read (fd : ℕ) (room copied : Bool)

namespace Readers

variable {s : Readers} {fd : ℕ}

def boot : Readers := ⟨.boot, fun _ => 0, fun _ => []⟩

/-- `aok_aproc_read`. -/
def read (s : Readers) (fd : ℕ) (room copied : Bool) : Except Errno (Option EventSlot) × Readers :=
  match s.machine.lookup fd rightInspect with
  | .error e => (.error e, s)
  | .ok (_, p) =>
    let seq := s.cursors fd
    if room = false then (.error .einval, s)
    else if seq + 1 < oldest p.eventSeq then (.error .eoverflow, s)
    else if p.eventSeq ≤ seq then (.ok none, s)
    else
      let slot := p.events.get ⟨seq.toNat % eventQueueLen, Nat.mod_lt _ (by decide)⟩
      let s := { s with cursors := Function.update s.cursors fd (seq + 1) }
      if copied = false then (.error .efault, s)
      else (.ok (some slot),
        { s with received := Function.update s.received fd (s.received fd ++ [slot]) })

/-- A new handle is zeroed by `aok_aproc_create` and not by `aok_handle_duplicate`. -/
def next (s : Readers) : Call → Readers
  | .act op memory =>
    { s with
      machine := s.machine.next op
      cursors := fun f =>
        if f < s.machine.nextFile then s.cursors f
        else
          match op with
          | .duplicate _ _ => memory
          | _ => 0 }
  | .read fd room copied => (s.read fd room copied).2

/-- A duplicate that opens the file finds zeros in its memory; a read through the file copies its
record out, and the numbers of the events have not run out. -/
def isPlain (s : Readers) (fd : ℕ) : Call → Bool
  | .act op@(.duplicate _ _) memory =>
    s.machine.nextFile ≤ fd → fd < (s.machine.next op).nextFile → memory = 0
  | .act _ _ => true
  | .read f _ copied =>
    f = fd → copied ∧ (s.machine.target fd).all fun x => x.2.log.length + 1 < 2 ^ 64

/-! ## The cursor -/

/-- The records returned through a file are the first of its aproc, and the cursor counts them. -/
structure Reads (s : Readers) (fd : ℕ) : Prop where
  linked : s.machine.Linked
  recorded : ∀ (a : ℕ) p, s.machine.aprocs[a]? = some p → p.Recorded ∧ p.Numbered
  opened : s.received fd ≠ [] → fd < s.machine.nextFile
  got : ∀ a p, s.machine.target fd = some (a, p) →
    s.received fd <+: p.log ∧ s.cursors fd = ofNat (s.received fd).length

theorem Reads.read_eq (h : s.Reads fd) {g : Handle} {p : Aproc}
    (hl : s.machine.lookup fd rightInspect = .ok (g, p)) (hb : p.log.length + 1 < 2 ^ 64) :
    s.read fd true true =
      if (s.received fd).length + eventQueueLen < p.log.length then (.error .eoverflow, s)
      else
        match p.log[(s.received fd).length]? with
        | none => (.ok none, s)
        | some e =>
          (.ok (some e), { s with
            cursors := Function.update s.cursors fd (s.cursors fd + 1)
            received := Function.update s.received fd (s.received fd ++ [e]) }) := by
  obtain ⟨hg, -, -, hp⟩ := lookup_eq_ok hl
  obtain ⟨hpre, hc⟩ := h.got g.aid p (by simp [target, hg, hp])
  obtain ⟨hseq, hring⟩ := (h.recorded g.aid p hp).1
  have hle := hpre.length_le
  simp only [read, hl, hc, hseq, lt_oldest_iff hle hb, Bool.true_eq_false, if_false]
  by_cases hover : (s.received fd).length + eventQueueLen < p.log.length
  · simp only [if_pos hover]
  · have hlt : p.log.length < 2 ^ 64 := Nat.lt_of_succ_lt hb
    have hn : (ofNat (s.received fd).length).toNat = (s.received fd).length :=
      toNat_ofNat_of_lt (hle.trans_lt hlt)
    have hm : (ofNat p.log.length).toNat = p.log.length := toNat_ofNat_of_lt hlt
    simp only [if_neg hover, le_iff_toNat_le, hn, hm]
    by_cases hend : p.log.length ≤ (s.received fd).length
    · simp only [if_pos hend, List.getElem?_eq_none hend]
    · have hlast := hring (s.received fd).length (by omega) (by omega)
      rw [← hlast, Vector.getElem?_eq_getElem (Nat.mod_lt _ (by decide))]
      simp only [if_neg hend, Vector.get_eq_getElem]

theorem read_error {e : Errno} (hl : s.machine.lookup fd rightInspect = .error e)
    (room copied : Bool) : s.read fd room copied = (.error e, s) := by
  simp only [read, hl]

theorem read_narrow {g : Handle} {p : Aproc} (hl : s.machine.lookup fd rightInspect = .ok (g, p))
    (copied : Bool) : s.read fd false copied = (.error .einval, s) := by
  simp only [read, hl, if_true]

/-- A read leaves the machine and the other files alone. -/
theorem read_frame (s : Readers) (f : ℕ) (room copied : Bool) :
    (s.read f room copied).2.machine = s.machine ∧ ∀ fd, f ≠ fd →
      (s.read f room copied).2.received fd = s.received fd ∧
      (s.read f room copied).2.cursors fd = s.cursors fd := by
  cases hl : s.machine.lookup f rightInspect with
  | error e => simp [read_error hl]
  | ok x =>
    have hother : ∀ (α : Type) (v : ℕ → α) x fd, f ≠ fd → Function.update v f x fd = v fd :=
      fun α v x fd h => Function.update_of_ne h.symm x v
    simp only [read, hl]
    split_ifs
    · exact ⟨rfl, fun fd _ => ⟨rfl, rfl⟩⟩
    · exact ⟨rfl, fun fd _ => ⟨rfl, rfl⟩⟩
    · exact ⟨rfl, fun fd _ => ⟨rfl, rfl⟩⟩
    · exact ⟨rfl, fun fd h => ⟨rfl, hother _ _ _ fd h⟩⟩
    · exact ⟨rfl, fun fd h => ⟨hother _ _ _ fd h, hother _ _ _ fd h⟩⟩

theorem Reads.act (h : s.Reads fd) {op : Op} {memory : UInt64}
    (hp : s.isPlain fd (.act op memory) = true) : (s.next (.act op memory)).Reads fd where
  linked := h.linked.next op
  recorded := by
    refine next_aprocs (fun aid ceiling => ?_) ?_ h.recorded
    · exact ⟨Aproc.fresh_recorded aid ceiling, by simp [Aproc.Numbered, Aproc.fresh]⟩
    · intro a p p' _ hc hp
      exact ⟨hc.recorded hp.1, hc.emits.numbered hp.1 hp.2⟩
  opened := fun hr =>
    (h.linked.file op (a := (s.machine.handles[fd]?).elim 0 Handle.aid) (h.opened hr)
      (fun g hg => by simp [hg])).1
  got := by
    intro a p' ht
    have hopen : fd < (s.machine.next op).nextFile := by
      obtain ⟨g, hg, -⟩ := target_eq_some ht
      exact (h.linked.next op).wired.file fd g hg
    by_cases hfd : fd < s.machine.nextFile
    · obtain ⟨p, hold⟩ := h.linked.target hfd ht
      obtain ⟨hpre, hcount⟩ := h.got a p hold
      obtain ⟨-, -, -, hp⟩ := target_eq_some hold
      obtain ⟨-, -, -, hp'⟩ := target_eq_some ht
      refine ⟨hpre.trans ?_, by simpa only [next, if_pos hfd] using hcount⟩
      rcases next_get hp' with hsame | ⟨q, hq, hc⟩ | ⟨ceiling, he, -⟩
      · rw [Option.some.inj (hp.symm.trans hsame)]
      · rw [Option.some.inj (hp.symm.trans hq)]
        exact hc.emits.log
      · have hle := h.linked.wired.issued a p hp
        omega
    · have hnil : s.received fd = [] := not_imp_comm.mp h.opened hfd
      have hzero : (s.next (.act op memory)).cursors fd = 0 := by
        simp only [next, if_neg hfd]
        split
        · simp only [isPlain, decide_eq_true_eq] at hp
          exact hp (by omega) hopen
        · rfl
      exact ⟨by simp [next, hnil], by rw [hzero]; simp [next, hnil]⟩

theorem Reads.read (h : s.Reads fd) {f : ℕ} {room copied : Bool}
    (hp : s.isPlain fd (.read f room copied) = true) : (s.read f room copied).2.Reads fd := by
  obtain ⟨hm, hother⟩ := read_frame s f room copied
  by_cases hf : f = fd
  · subst hf
    cases hl : s.machine.lookup f rightInspect with
    | error e => rwa [read_error hl]
    | ok x =>
      obtain ⟨g, p⟩ := x
      obtain ⟨hg, -, -, hget⟩ := lookup_eq_ok hl
      have ht : s.machine.target f = some (g.aid, p) := by simp [target, hg, hget]
      obtain ⟨rfl, hb⟩ : copied = true ∧ p.log.length + 1 < 2 ^ 64 := by
        simpa [isPlain, ht] using hp
      cases room with
      | false => rwa [read_narrow hl]
      | true =>
        rw [h.read_eq hl hb]
        split_ifs
        · exact h
        · cases he : p.log[(s.received f).length]? with
          | none => exact h
          | some e =>
            refine ⟨h.linked, h.recorded, fun _ => h.linked.wired.file f g hg, ?_⟩
            intro a q hq
            obtain ⟨hpre, hc⟩ := h.got a q hq
            obtain ⟨rfl, rfl⟩ : g.aid = a ∧ p = q := by simpa [ht] using hq
            refine ⟨?_, by simp [hc]⟩
            obtain ⟨rest, hrest⟩ := hpre
            rw [← hrest, List.getElem?_append_right le_rfl, Nat.sub_self] at he
            cases rest with
            | nil => cases he
            | cons x rest =>
              cases he
              exact ⟨rest, by simpa using hrest⟩
  · obtain ⟨hr, hc⟩ := hother fd hf
    refine ⟨hm ▸ h.linked, hm ▸ h.recorded, ?_, ?_⟩
    · rw [hr, hm]
      exact h.opened
    · rw [hr, hc, hm]
      exact h.got

theorem Reads.next (h : s.Reads fd) {c : Call} (hp : s.isPlain fd c = true) :
    (s.next c).Reads fd := by
  cases c with
  | act op memory => exact h.act hp
  | read f room copied => exact h.read hp

/-! ## Over a run -/

theorem boot_reads (fd : ℕ) : boot.Reads fd where
  linked := after_linked []
  recorded := fun a p hp => by simp [boot, Machine.boot] at hp
  opened := fun h => absurd rfl h
  got := fun a p ht => by simp [boot, Machine.boot, target] at ht

/-- In every run in which the duplicate that opens a file finds zeros in its memory, every read
through the file copies its record out and the numbers do not run out: the reads return the events
from the first on, as they were emitted, `EOVERFLOW` once the next one is overwritten, and nothing
only after the last one. -/
theorem events_read_in_order (calls : List Call) (fd : ℕ) (room : Bool)
    (h : Trace.Along next (fun s c => s.isPlain fd c = true) boot calls)
    (hread : (Trace.run next boot calls).isPlain fd (.read fd room true) = true) :
    let s := Trace.run next boot calls
    match s.machine.lookup fd rightInspect with
    | .error e => (s.read fd room true).1 = .error e
    | .ok (_, p) =>
      s.received fd <+: p.log ∧ p.Numbered ∧
      (s.read fd room true).1 =
        if room = false then .error .einval
        else if (s.received fd).length + eventQueueLen < p.log.length then .error .eoverflow
        else .ok p.log[(s.received fd).length]? := by
  have hs := h.keeps (I := (Reads · fd)) (fun s c hs hc => hs.next hc) (boot_reads fd)
  intro s
  change s.Reads fd at hs
  change s.isPlain fd _ = true at hread
  cases hl : s.machine.lookup fd rightInspect with
  | error e => exact congrArg Prod.fst (read_error hl room true)
  | ok x =>
    obtain ⟨g, p⟩ := x
    obtain ⟨hg, -, -, hp⟩ := lookup_eq_ok hl
    have ht : s.machine.target fd = some (g.aid, p) := by simp [target, hg, hp]
    refine ⟨(hs.got _ _ ht).1, (hs.recorded _ _ hp).2, ?_⟩
    cases room with
    | false => rw [read_narrow hl, if_pos rfl]
    | true =>
      have hb : p.log.length + 1 < 2 ^ 64 := by simpa [isPlain, ht] using hread
      rw [hs.read_eq hl hb]
      by_cases hover : (s.received fd).length + eventQueueLen < p.log.length
      · simp only [if_pos hover, Bool.true_eq_false, if_false]
      · simp only [if_neg hover, Bool.true_eq_false, if_false]
        cases p.log[(s.received fd).length]? <;> rfl

/-- A created aproc, whose first task is an event, and a duplicate of its handle. -/
def duplicated (memory : UInt64) : List Call :=
  (newborn ++ [Op.duplicate 0 rightInspect]).map (.act · memory)

theorem events_read_in_order_first : ∃ p,
    (Trace.run next boot (duplicated 0)).machine.target 1 = some (1, p) ∧
      ((Trace.run next boot (duplicated 0)).read 1 true true).1 = .ok p.log[0]? ∧
      p.log.length = 1 := by
  refine ⟨_, rfl, ?_, rfl⟩
  exact (events_read_in_order (duplicated 0) 1 true (by decide +kernel) (by decide +kernel)).2.2

/-- With anything else in its memory a duplicate starts past events that nobody read through it. -/
theorem exists_unread_events : ∃ p,
    (Trace.run next boot (duplicated 7)).machine.target 1 = some (1, p) ∧
      (Trace.run next boot (duplicated 7)).received 1 = [] ∧ p.log.length = 1 ∧
      ((Trace.run next boot (duplicated 7)).read 1 true true).1 = .ok none := by
  refine ⟨_, rfl, rfl, rfl, ?_⟩
  decide +kernel

end Readers

end Aok.Kernel.Aprocs
