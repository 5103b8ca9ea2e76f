import Aok.Runtime.Commits
import Aok.Runtime.Statuses

/-!
# The numbers of records

Every change drops records or adds one under the next number of the sequence, and writing and
reading back drops some at most. So in every state of a run the ids of the records differ, and an
id of a committed record never comes to stand for another one.
-/

namespace Aok.Runtime
open Lib Lib.Utf8 Lib.JsonText Lib.JsonValue Lib.Command Lib.Journal List Table State

variable {K : Type} {U P : Prop} {S : Terms} {env : Env K} {C : System K → Event K → Prop}
  {c c' : Core} {l : Level} {s s' s'' : State} {f : State → List Record} {r : Record}

def State.recordsOf (s : State) : RecordKind → List Record
  | .message => s.messageRecords
  | .entry => s.entryRecords
  | .mount => s.mountRecords
  | .transfer => s.transferRecords

theorem mem_messageRecords :
    r ∈ s.messageRecords ↔ ∃ id, ∃ m ∈ s.messages id, m.record id = r := by
  simp only [messageRecords, mem_contents, mem_map]
  constructor
  · rintro ⟨id, ms, hms, m, hm, rfl⟩
    exact ⟨id, m, messages_of_get hms ▸ hm, rfl⟩
  · rintro ⟨id, m, hm, rfl⟩
    unfold State.messages at hm
    cases hms : s.mailbox[id]? with
    | none => simp [hms] at hm
    | some ms => exact ⟨id, ms, hms, m, by simpa [hms] using hm, rfl⟩

theorem mem_mountRecords : r ∈ s.mountRecords ↔
    ∃ (id : GoString) (m : HostfsMount), s.hostfsMounts[id]? = some m ∧ r = m.record := by
  simp only [mountRecords, mem_contents, mem_singleton]

theorem kind_of_mem {k : RecordKind} (h : r ∈ s.recordsOf k) : r.kind = k := by
  cases k with
  | message =>
    obtain ⟨id, m, -, rfl⟩ := mem_messageRecords.mp h
    rfl
  | mount =>
    obtain ⟨id, m, -, rfl⟩ := mem_mountRecords.mp h
    rfl
  | entry | transfer =>
    obtain ⟨x, -, rfl⟩ := mem_map.mp h
    rfl

theorem mem_records : r ∈ s.records ↔ r ∈ s.recordsOf r.kind := by
  simp only [records, mem_append]
  constructor
  · rintro (((h | h) | h) | h)
    · rwa [kind_of_mem (k := .message) h]
    · rwa [kind_of_mem (k := .entry) h]
    · rwa [kind_of_mem (k := .mount) h]
    · rwa [kind_of_mem (k := .transfer) h]
  · intro h
    generalize r.kind = k at h
    cases k with
    | message => exact .inl (.inl (.inl h))
    | entry => exact .inl (.inl (.inr h))
    | mount => exact .inl (.inr h)
    | transfer => exact .inr h

/-! ## Changes -/

theorem Reissues.same (hn : s.nextSequence ≤ s'.nextSequence) (h : f s' = f s) :
    Reissues f s s' :=
  .drop hn (List.Perm.of_eq h).subperm

theorem Reissues.trans (h : Reissues f s s') (h' : Reissues f s' s'') : Reissues f s s'' :=
  Issue.Issues.trans Record.tag_injective h h'

theorem map_record_of_steps {ms ms' : List MailboxMessage} (h : List.Forall₂ (MsgStep S) ms ms')
    (id : GoString) :
    ms'.map (MailboxMessage.record id) = ms.map (MailboxMessage.record id) := by
  induction h with
  | nil => rfl
  | cons hm _ ih =>
    rw [map_cons, map_cons, ih, MailboxMessage.record, MailboxMessage.record,
      hm.messageID, hm.idempotencyKey, hm.payload]

theorem reissues_steps {id : GoString} {g : List MailboxMessage → List MailboxMessage}
    (hn : s.nextSequence ≤ s'.nextSequence) (hm : s'.mailbox = updateTable g id s.mailbox)
    (hg : ∀ ms, s.mailbox[id]? = some ms → List.Forall₂ (MsgStep S) ms (g ms)) :
    Reissues messageRecords s s' := by
  rw [updateTable] at hm
  split at hm
  next ms hms =>
    refine .drop hn ?_
    rw [messageRecords, hm]
    exact (contents_insert_of_get _ hms (map_record_of_steps (hg ms hms) id)).subperm
  · exact .same hn (by rw [messageRecords, hm]; rfl)

theorem reissues_enqueue {id : GoString} {m : MailboxMessage} (ha : Admission U s id m)
    (hn : s'.nextSequence = s.nextSequence + 1)
    (hm : s'.mailbox = s.mailbox.insert id (s.messages id ++ [m])) :
    Reissues messageRecords s s' := by
  refine .add (r := m.record id) hn ?_ ?_
  · rw [MailboxMessage.record, ha.messageID, ha.sequence]
    rfl
  · rw [messageRecords, hm]
    refine (contents_insert _ _ _ _).subperm.trans ?_
    rw [map_append, append_assoc]
    refine (perm_append_comm.append_left _).subperm.trans ?_
    rw [← append_assoc]
    refine .append ?_ (.refl _)
    cases hms : s.mailbox[id]? with
    | none =>
      rw [State.messages, hms, erase_eq_self _ hms]
      exact .refl _
    | some ms =>
      rw [messages_of_get hms]
      have hp := contents_of_get (fun id ms => ms.map (MailboxMessage.record id)) hms
      exact hp.symm.subperm

theorem Change.reissues_messages (h : Change U S env c l c') :
    Reissues messageRecords c.state c'.state := by
  have hn := h.nextSequence_le
  cases h with
  | messages id g hg => exact reissues_steps hn rfl hg
  | settle id a t ht => exact reissues_steps hn rfl fun ms hms => ht.steps hms
  | enqueue id m ha => exact reissues_enqueue ha rfl rfl
  | register a =>
    have hp := contents_insert (fun id ms => ms.map (MailboxMessage.record id))
      c.state.mailbox a.applicationID []
    rw [map_nil, nil_append] at hp
    refine .drop hn (hp.subperm.trans ?_)
    rw [messageRecords]
    exact contents_erase_subperm _ _ _
  | side hf | shelf hf => exact .same hn (by rw [messageRecords, hf.mailbox]; rfl)
  | cosign => exact .same hn (by simp only [Core.withState_state, messageRecords])
  | audit | application | stage => exact .same hn rfl

theorem Change.reissues_shelves (h : Change U S env c l c') :
    Reissues entryRecords c.state c'.state ∧ Reissues mountRecords c.state c'.state ∧
      Reissues transferRecords c.state c'.state := by
  have hn := h.nextSequence_le
  cases h with
  | side hf | shelf hf =>
    refine ⟨hf.outbox.elim (fun h => h.2.2) fun h => .same hn ?_,
      hf.mounts.elim (fun h => h.2.2) fun h => .same hn ?_,
      hf.transfers.elim (fun h => h.2.2) fun h => .same hn ?_⟩
    · rw [entryRecords, h]
      rfl
    · rw [mountRecords, h]
      rfl
    · rw [transferRecords, h]
      rfl
  | cosign =>
    simp only [Core.withState_state] at hn ⊢
    refine ⟨.same hn ?_, .same hn ?_, .same hn ?_⟩ <;>
      simp only [entryRecords, mountRecords, transferRecords]
  | audit | application | messages | register | enqueue | stage | settle =>
    exact ⟨.same hn rfl, .same hn rfl, .same hn rfl⟩

theorem Change.reissues (h : Change U S env c l c') (k : RecordKind) :
    Reissues (fun s => s.recordsOf k) c.state c'.state := by
  obtain ⟨hentry, hmount, htransfer⟩ := h.reissues_shelves
  cases k with
  | message => exact h.reissues_messages
  | entry => exact hentry
  | mount => exact hmount
  | transfer => exact htransfer

/-! ## Images -/

theorem MailboxMessage.record_image (id : GoString) (m : MailboxMessage) :
    m.image.record id = m.record id := by
  simp [MailboxMessage.record, MailboxMessage.image]

theorem MailboxMessage.record_sanitize (id : GoString) (m : MailboxMessage) :
    m.record (sanitize id) = m.record id := by
  simp [MailboxMessage.record]

theorem OutboxEntry.record_image (e : OutboxEntry) : e.image.record = e.record := by
  simp [OutboxEntry.record, OutboxEntry.image]

theorem HostfsMount.record_image (m : HostfsMount) : m.image.record = m.record := by
  simp [HostfsMount.record, HostfsMount.image]

theorem ArtifactTransfer.record_image (t : ArtifactTransfer) : t.image.record = t.record := by
  simp [ArtifactTransfer.record, ArtifactTransfer.image]

theorem entryRecords_image (s : State) : s.image.entryRecords = s.entryRecords := by
  simp only [entryRecords, image, map_map]
  exact map_congr_left fun e _ => e.record_image

theorem transferRecords_image (s : State) : s.image.transferRecords = s.transferRecords := by
  simp only [transferRecords, image, map_map]
  exact map_congr_left fun t _ => t.record_image

theorem contents_imageTable {α : Type} {g : α → α} {f : GoString → α → List Record}
    (hkey : ∀ k v, f (sanitize k) v = f k v) (hval : ∀ k v, f k (g v) = f k v)
    (t : Table GoString α) :
    (contents f (imageTable g t)).Subperm (contents f t) := by
  rw [imageTable, contents_map, contents_congr fun k v _ => hval k v]
  exact contents_rekey_subperm hkey t

theorem reissues_image (s : State) (k : RecordKind) :
    Reissues (fun s => s.recordsOf k) s s.image := by
  cases k with
  | message =>
    have h := contents_imageTable (f := fun id ms => ms.map (MailboxMessage.record id))
      (g := map MailboxMessage.image)
      (fun k ms => map_congr_left fun m _ => m.record_sanitize k) (fun k ms => by
        rw [map_map]
        exact map_congr_left fun m _ => m.record_image k) s.mailbox
    exact .drop le_rfl h
  | mount =>
    have h := contents_imageTable (f := fun _ m => [m.record]) (g := HostfsMount.image)
      (fun _ _ => rfl) (fun _ m => by rw [m.record_image]) s.hostfsMounts
    exact .drop le_rfl h
  | entry => exact .same le_rfl (entryRecords_image s)
  | transfer => exact .same le_rfl (transferRecords_image s)

/-! ## Runs -/

/-- The ids of the records differ and stem from numbers that have been given out. -/
def Numbers (k : RecordKind) (c : Core) : Prop :=
  Issue.Kept Record.id Record.tag c.state.nextSequence (c.state.recordsOf k)

theorem numbers_lasting (k : RecordKind) : Lasting U S env (Numbers k) where
  change := fun _ _ _ hc h => h.issues Record.tag_injective (hc.reissues k)
  reopen := fun c h => h.issues Record.tag_injective (reissues_image c.state k)

theorem reissues_lasting (d : State) (k : RecordKind) :
    Lasting U S env fun c => Reissues (fun s => s.recordsOf k) d c.state where
  change := fun _ _ _ hc h => h.trans (hc.reissues k)
  reopen := fun c h => h.trans (reissues_image c.state k)

variable {t t' : System K}

theorem recordsOf_empty (k : RecordKind) : empty.recordsOf k = [] := by
  cases k with
  | message => simp [recordsOf, messageRecords, empty]
  | mount => simp [recordsOf, mountRecords, empty]
  | entry | transfer => rfl

theorem Reachable.numbers (hC : ∀ s e, C s e → Allowed U S P env s e) (h : Reachable env C t)
    (k : RecordKind) : t.Holds (Numbers k) := by
  refine h.holds (numbers_lasting k) hC ?_
  change Issue.Kept Record.id Record.tag 0 (empty.recordsOf k)
  rw [recordsOf_empty]
  exact ⟨by simp, by simp⟩

theorem Reachable.nodup_records (hC : ∀ s e, C s e → Allowed U S P env s e)
    (h : Reachable env C t) : (t.world.db.records.map Record.id).Nodup := by
  have hkept := fun k => (h.numbers hC k).disk
  have hcross : ∀ j k, j ≠ k → ∀ i ∈ (t.world.db.recordsOf j).map Record.id,
      ∀ i' ∈ (t.world.db.recordsOf k).map Record.id, i ≠ i' := by
    rintro j k hjk i hi i' hi' rfl
    obtain ⟨x, hx, rfl⟩ := mem_map.mp hi
    obtain ⟨y, hy, he⟩ := mem_map.mp hi'
    obtain ⟨n, -, hn⟩ := (hkept j).numbered x hx
    obtain ⟨m, -, hm⟩ := (hkept k).numbered y hy
    have hkind := (RecordKind.id_injective (hn.symm.trans (he.symm.trans hm))).1
    rw [kind_of_mem hx, kind_of_mem hy] at hkind
    exact hjk hkind
  have hme := hcross .message .entry (by decide)
  have hmm := hcross .message .mount (by decide)
  have hmt := hcross .message .transfer (by decide)
  have hem := hcross .entry .mount (by decide)
  have het := hcross .entry .transfer (by decide)
  have hmot := hcross .mount .transfer (by decide)
  simp only [records, map_append, nodup_append, mem_append]
  refine ⟨⟨⟨(hkept .message).distinct, (hkept .entry).distinct, hme⟩, (hkept .mount).distinct, ?_⟩,
    (hkept .transfer).distinct, ?_⟩
  · rintro i (hi | hi)
    · exact hmm i hi
    · exact hem i hi
  · rintro i ((hi | hi) | hi)
    · exact hmt i hi
    · exact het i hi
    · exact hmot i hi

theorem Reachable.mem_db (hC : ∀ s e, C s e → Allowed U S P env s e) (h : Reachable env C t)
    (hup : t.up = true) {k : RecordKind} (hr : r ∈ t.world.sup.core.state.recordsOf k) :
    r ∈ t.world.db.recordsOf k := by
  have hagree := h.mainAgree hC hup
  cases k with
  | message =>
    obtain ⟨id, m, hm, rfl⟩ := mem_messageRecords.mp hr
    refine mem_messageRecords.mpr ⟨id, m.image, ?_, m.record_image id⟩
    rw [h.messages_db hC hup]
    exact mem_map_of_mem hm
  | entry =>
    have he : t.world.sup.core.state.image.entryRecords = t.world.db.entryRecords :=
      congrArg (map OutboxEntry.record) hagree.outbox
    rw [entryRecords_image] at he
    exact (congrArg (r ∈ ·) he).mp hr
  | mount =>
    obtain ⟨id, m, hm, rfl⟩ := mem_mountRecords.mp hr
    have hvalid : Each (fun k _ => valid k = true) t.world.sup.core.state.hostfsMounts :=
      fun k m hk => (((h.safe hC).sound hup).live.side.mounts k m hk).1
    have hget := get_imageTable_of_valid (f := HostfsMount.image) hvalid id
    rw [hm] at hget
    have he : (codec.save t.world.sup.core).hostfsMounts[id]? = some m.image := hget
    rw [hagree.hostfsMounts] at he
    exact mem_mountRecords.mpr ⟨id, m.image, he, m.record_image.symm⟩
  | transfer =>
    have he : t.world.sup.core.state.image.transferRecords = t.world.db.transferRecords :=
      congrArg (map ArtifactTransfer.record) hagree.transfers
    rw [transferRecords_image] at he
    exact (congrArg (r ∈ ·) he).mp hr

theorem Reachable.db_nextSequence_le (hC : ∀ s e, C s e → Allowed U S P env s e)
    (h : Reachable env C t) (hup : t.up = true) :
    t.world.db.nextSequence ≤ t.world.sup.core.state.nextSequence := by
  refine (h.agree (A := fun c d => d.nextSequence ≤ c.state.nextSequence) (k := .main)
    (fun c => le_rfl) (fun c => le_rfl) (fun j _ c c' d he hd => ?_)
    (fun b hb => hb.le_side.trans (by decide)) hC hup).2
  obtain ⟨k, hk⟩ := he.exists_change
  exact hd.trans hk.nextSequence_le

theorem Reachable.reissues (hC : ∀ s e, C s e → Allowed U S P env s e) (h : Reachable env C t)
    (k : RecordKind) :
    t.Holds fun c => Reissues (fun s => s.recordsOf k) t.world.db c.state := by
  have hrefl : Reissues (fun s => s.recordsOf k) t.world.db t.world.db := .same le_rfl rfl
  refine ⟨hrefl, fun hup => ⟨?_, ?_, hrefl⟩⟩
  · refine .drop (h.db_nextSequence_le hC hup) (subperm_of_subset ?_ fun r hr =>
      h.mem_db hC hup hr)
    exact ((h.numbers hC k).store hup).live.distinct.of_map _
  · have hsaved := (h.synced hC hup).saved_eq
    change Reissues _ _ (codec.reopen t.world.store.saved).state
    rw [hsaved]
    exact hrefl

theorem Reachable.eq_of_id_eq (hC : ∀ s e, C s e → Allowed U S P env s e) (h : Reachable env C t)
    (hr : Run env C t t') {r r' : Record} (hmem : r ∈ t.world.db.records)
    (hmem' : r' ∈ t'.world.db.records) (hid : r'.id = r.id) : r' = r := by
  have hkept := (h.numbers hC r.kind).disk
  have hkept' := ((h.trans hr).numbers hC r'.kind).disk
  rw [mem_records] at hmem hmem'
  obtain ⟨n, -, hn⟩ := hkept.numbered r hmem
  obtain ⟨n', -, hn'⟩ := hkept'.numbered r' hmem'
  have hkind := (RecordKind.id_injective (hn'.symm.trans (hid.trans hn))).1
  rw [hkind] at hmem'
  have hissues := (hr.holds (reissues_lasting t.world.db r.kind) hC (h.safe hC)
    (h.reissues hC r.kind)).disk
  exact hkept.eq_of_id_eq Record.tag_injective hissues hmem hmem' hid

end Aok.Runtime
