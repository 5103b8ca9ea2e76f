import Aok.Runtime.Image

/-!
# Well-formed states

Application ids and message ids are generated and therefore valid UTF-8 whatever
callers pass; they name what they should. This and the strings of `Side` survive every
change and reading back from disk.
-/

namespace Aok.Runtime
open Lib Lib.Utf8 Lib.JsonText Lib.JsonValue Lib.Journal List Core

variable {s : State} {m : MailboxMessage} {id : GoString} {ms : List MailboxMessage}

structure Proper (U : Prop) (n : ℕ) (m : MailboxMessage) : Prop where
  messageID : m.messageID = messageID m.sequence
  sequence : m.sequence ≤ n
  key : Clear U m.idempotencyKey
  compacted : compact m.payload = m.payload

structure Named (U : Prop) (c : Core) : Prop where
  applications : Each (fun id a => valid id = true ∧ a.applicationID = id) c.state.applications
  mailbox : Each (fun id ms => c.state.Knows id ∧ ∀ m ∈ ms, Proper U c.state.nextSequence m)
    c.state.mailbox
  results : Each (fun id r => valid id = true ∧ c.state.Knows r.applicationID) c.state.results
  prepared : Each (fun id _ => valid id = true) c.state.prepared
  hashes : ∀ r ∈ c.state.audit, ∃ d : Digest, r.hash = d.text

structure WellFormed (U : Prop) (c : Core) : Prop where
  named : Named U c
  side : Side U c

/-! ## Strings -/

variable {U : Prop} {S : Terms}

theorem Clear.of_valid {s : GoString} (h : valid s = true) : Clear U s := fun _ => h

theorem clear_nil : Clear U [] := Clear.of_valid rfl

theorem Clear.append {s t : GoString} (hs : Clear U s) (ht : Clear U t) : Clear U (s ++ t) :=
  fun h => valid_append (hs h) (ht h)

theorem clear_sanitize (s : GoString) : Clear U (sanitize s) := Clear.of_valid (valid_sanitize s)

theorem Clear.sanitize_eq {s : GoString} (h : Clear U s) (hU : U) : sanitize s = s :=
  sanitize_of_valid (h hU)

theorem Clear.intercalate {sep : GoString} {l : List GoString} (hsep : Clear U sep)
    (hl : ∀ s ∈ l, Clear U s) : Clear U (sep.intercalate l) := by
  induction l with
  | nil => exact clear_nil
  | cons x l ih =>
    have hx := hl x mem_cons_self
    have ht := ih fun s hs => hl s (mem_cons_of_mem _ hs)
    cases l with
    | nil => simpa [intercalate] using hx
    | cons y l =>
      have he : sep.intercalate (x :: y :: l) = x ++ (sep ++ sep.intercalate (y :: l)) := by
        simp [intercalate]
      rw [he]
      exact hx.append (hsep.append ht)

theorem clear_lit (s : String) : Clear U (lit s) := Clear.of_valid (valid_lit s)

theorem valid_dec (n : ℕ) : valid (dec n) = true := by
  refine valid_ascii fun b hb => ?_
  have hd := isDigit_dec n b hb
  simp only [isDigit, Bool.and_eq_true, decide_eq_true_eq] at hd
  omega

theorem valid_decInt (n : ℤ) : valid (decInt n) = true := by
  cases n with
  | ofNat n => exact valid_dec n
  | negSucc n => exact valid_append (s := [0x2D]) rfl (valid_dec (n + 1))

theorem valid_messageID (n : ℕ) : valid (messageID n) = true :=
  valid_append (valid_lit _) (valid_dec n)

theorem Proper.valid_messageID {n : ℕ} (h : Proper U n m) :
    valid m.messageID = true :=
  h.messageID ▸ Runtime.valid_messageID m.sequence

theorem Proper.mono {n k : ℕ} (h : Proper U n m) (hk : n ≤ k) :
    Proper U k m :=
  ⟨h.messageID, h.sequence.trans hk, h.key, h.compacted⟩

theorem Proper.step {n : ℕ} {m' : MailboxMessage} (h : Proper U n m) (hs : MsgStep S m m') :
    Proper U n m' :=
  ⟨by rw [hs.messageID, hs.sequence, h.messageID], by rw [hs.sequence]; exact h.sequence,
    by rw [hs.idempotencyKey]; exact h.key, by rw [hs.payload]; exact h.compacted⟩

theorem Proper.image_eq {n : ℕ} (h : Proper U n m) :
    m.image = { m with idempotencyKey := sanitize m.idempotencyKey } := by
  simp [MailboxMessage.image, sanitize_of_valid h.valid_messageID, h.compacted]

theorem Proper.image {n : ℕ} (h : Proper U n m) : Proper U n m.image := by
  rw [h.image_eq]
  exact ⟨h.messageID, h.sequence, clear_sanitize _, h.compacted⟩

/-! ## Changes -/

variable {K : Type} {env : Env K} {c c' : Core} {k : Level}

theorem Change.nextSequence_le (h : Change U S env c k c') :
    c.state.nextSequence ≤ c'.state.nextSequence := by
  cases h with
  | audit | enqueue | settle => exact Nat.le_succ _
  | application | messages | register | stage | cosign => simp
  | side hf | shelf hf => exact hf.nextSequence

theorem Change.knows (h : Change U S env c k c') (hk : c.state.Knows id) :
    c'.state.Knows id := by
  unfold State.Knows at hk ⊢
  cases h with
  | audit => exact hk
  | messages | enqueue | stage | cosign => simpa using hk
  | application i f =>
    simp only [withState_state, get_updateTable]
    split_ifs <;> simpa using hk
  | register a =>
    simp only [withState_state, Table.get_insert]
    split_ifs <;> simp [hk]
  | settle i a t =>
    simp only [withState_state, State.commitTurn, Table.get_insert]
    split_ifs <;> simp [hk]
  | side hf | shelf hf => rw [hf.applications]; exact hk

/-- How one application can change: its record is updated, or a turn of it is settled. -/
inductive AppMove (S : Terms) (s : State) (id : GoString) (a : Application) : Application → Prop
  | same : AppMove S s id a a
  | step {a' : Application} : AppStep S id a a' → AppMove S s id a a'
  | settle (t : TurnCommit) : Settlement S s id a t → AppMove S s id a t.application

structure Newborn (S : Terms) (id : GoString) (a : Application) : Prop where
  valid_id : valid id = true
  applicationID : a.applicationID = id
  tokensUsed : a.tokensUsed = 0
  tokenLimit : a.tokenLimit = 0
  writes : S.writes .identities

theorem Change.application_from (h : Change U S env c k c') {a' : Application}
    (ha' : c'.state.applications[id]? = some a') :
    (∃ a, c.state.applications[id]? = some a ∧ AppMove S c.state id a a') ∨
      c.state.applications[id]? = none ∧ Newborn S id a' := by
  cases h with
  | audit | messages | enqueue | stage => exact .inl ⟨a', ha', .same⟩
  | cosign =>
    simp only [withState_state] at ha'
    exact .inl ⟨a', ha', .same⟩
  | side hf | shelf hf =>
    rw [hf.applications] at ha'
    exact .inl ⟨a', ha', .same⟩
  | application i f hf =>
    simp only [withState_state, get_updateTable] at ha'
    split_ifs at ha' with hi
    · obtain ⟨a, ha, rfl⟩ := Option.map_eq_some_iff.mp ha'
      subst hi
      exact .inl ⟨a, ha, .step (hf a ha)⟩
    · exact .inl ⟨a', ha', .same⟩
  | register a hfree hv hused hlimit hwrites =>
    simp only [withState_state, Table.get_insert] at ha'
    split_ifs at ha' with hi
    · cases ha'
      subst hi
      exact .inr ⟨hfree, hv, rfl, hused, hlimit, hwrites⟩
    · exact .inl ⟨a', ha', .same⟩
  | settle i a t ht =>
    simp only [withState_state, State.commitTurn, Table.get_insert] at ha'
    split_ifs at ha' with hi
    · cases ha'
      subst hi
      exact .inl ⟨a, ht.application, .settle t ht⟩
    · exact .inl ⟨a', ha', .same⟩

theorem Change.application_to (h : Change U S env c k c') {a : Application}
    (ha : c.state.applications[id]? = some a) :
    ∃ a', c'.state.applications[id]? = some a' ∧ AppMove S c.state id a a' := by
  have hknown : c'.state.Knows id := h.knows (by rw [State.Knows, ha]; rfl)
  obtain ⟨a', ha'⟩ := Option.isSome_iff_exists.mp hknown
  rcases h.application_from ha' with ⟨b, hb, hmove⟩ | ⟨hnone, -⟩
  · cases ha.symm.trans hb
    exact ⟨a', ha', hmove⟩
  · simp [ha] at hnone

theorem Change.applications (h : Change U S env c k c')
    (hn : Each (fun id a => valid id = true ∧ a.applicationID = id) c.state.applications) :
    Each (fun id a => valid id = true ∧ a.applicationID = id) c'.state.applications := by
  intro id a' ha'
  rcases h.application_from ha' with ⟨a, ha, hmove⟩ | ⟨-, hnew⟩
  · obtain ⟨hv, hid⟩ := hn id a ha
    cases hmove with
    | same => exact ⟨hv, hid⟩
    | step hs => exact ⟨hv, hs.applicationID.trans hid⟩
    | settle t ht => exact ⟨hv, ht.applicationID.trans hid⟩
  · exact ⟨hnew.valid_id, hnew.applicationID⟩

theorem mem_of_forall₂ {α : Type} {R : α → α → Prop} {l l' : List α} (h : List.Forall₂ R l l')
    {x : α} (hx : x ∈ l') : ∃ y ∈ l, R y x := by
  induction h with
  | nil => cases hx
  | cons hr _ ih =>
    rcases mem_cons.mp hx with rfl | hx
    · exact ⟨_, mem_cons_self, hr⟩
    · obtain ⟨y, hy, hyx⟩ := ih hx
      exact ⟨y, mem_cons_of_mem _ hy, hyx⟩

theorem State.mem_messages (h : m ∈ s.messages id) : ∃ ms, s.mailbox[id]? = some ms ∧ m ∈ ms := by
  unfold State.messages at h
  cases hs : s.mailbox[id]? with
  | none => simp [hs] at h
  | some ms => exact ⟨ms, rfl, by simpa [hs] using h⟩

theorem State.messages_of_get (h : s.mailbox[id]? = some ms) : s.messages id = ms := by
  simp [State.messages, h]

theorem MsgStep.refl (m : MailboxMessage) : MsgStep S m m :=
  ⟨rfl, rfl, rfl, rfl, fun h => h, .inl rfl⟩

theorem MsgStep.withStatus {status : MsgStatus} (h : status.isCharged → m.status.isCharged)
    (hm : status = m.status ∨ S.moves m.status status) : MsgStep S m (m.withStatus status) :=
  ⟨rfl, rfl, rfl, rfl, h, hm⟩

theorem Settlement.steps {a : Application} {t : TurnCommit}
    (h : Settlement S s id a t) (hms : s.mailbox[id]? = some ms) :
    List.Forall₂ (MsgStep S) ms (ms.map fun m =>
      if m.messageID = t.result.messageID then m.withStatus .acked else m) := by
  refine forall₂_map_right_iff.mpr (forall₂_same.mpr fun m hmem => ?_)
  split_ifs with hid
  · have hmoves := h.moves m (State.messages_of_get hms ▸ hmem) hid
    exact .withStatus (by simp [MsgStatus.isCharged]) (hmoves.imp_left Eq.symm)
  · exact .refl m

theorem Change.mailbox (h : Change U S env c k c') (hm : c'.state.mailbox[id]? = some ms) :
    (∃ old, c.state.mailbox[id]? = some old ∧ List.Forall₂ (MsgStep S) old ms) ∨
      (∃ m, Admission U c.state id m ∧ ms = c.state.messages id ++ [m] ∧
        c'.state.nextSequence = c.state.nextSequence + 1) ∨
      (ms = [] ∧ c'.state.Knows id) := by
  have hrefl : ∀ l : List MailboxMessage, List.Forall₂ (MsgStep S) l l := fun l =>
    forall₂_same.mpr fun m _ => .refl m
  cases h with
  | audit => exact .inl ⟨ms, hm, hrefl ms⟩
  | application | stage | cosign => exact .inl ⟨ms, by simpa using hm, hrefl ms⟩
  | messages i f hf =>
    simp only [withState_state, get_updateTable] at hm
    split_ifs at hm with hi
    · obtain ⟨old, ho, rfl⟩ := Option.map_eq_some_iff.mp hm
      exact .inl ⟨old, ho, hf old (hi ▸ ho)⟩
    · exact .inl ⟨ms, hm, hrefl ms⟩
  | register a =>
    simp only [withState_state, Table.get_insert] at hm
    split_ifs at hm with hi
    · cases hm
      exact .inr (.inr ⟨rfl, by simp [State.Knows, hi]⟩)
    · exact .inl ⟨ms, hm, hrefl ms⟩
  | enqueue i m ha =>
    simp only [withState_state, Table.get_insert] at hm
    split_ifs at hm with hi
    · cases hm
      subst hi
      exact .inr (.inl ⟨m, ha, rfl, rfl⟩)
    · exact .inl ⟨ms, hm, hrefl ms⟩
  | settle i a t ht =>
    simp only [withState_state, State.commitTurn, get_updateTable] at hm
    split_ifs at hm with hi
    · obtain ⟨old, ho, rfl⟩ := Option.map_eq_some_iff.mp hm
      subst hi
      exact .inl ⟨old, ho, ht.steps ho⟩
    · exact .inl ⟨ms, hm, hrefl ms⟩
  | side hf | shelf hf => exact .inl ⟨ms, hf.mailbox ▸ hm, hrefl ms⟩

theorem Named.messages_of_new (hn : Named U c)
    (h : c.state.applications[id]? = none) : c.state.messages id = [] := by
  cases hm : c.state.mailbox[id]? with
  | none => simp [State.messages, hm]
  | some ms =>
    have hk := (hn.mailbox id ms hm).1
    simp [State.Knows, h] at hk

theorem Change.mailStep (h : Change U S env c k c') (hn : Named U c) (id : GoString) :
    List.Forall₂ (MsgStep S) (c.state.messages id) (c'.state.messages id) ∨
      ∃ m, Admission U c.state id m ∧ c'.state.messages id = c.state.messages id ++ [m] := by
  have hsame : c'.state.mailbox[id]? = c.state.mailbox[id]? →
      List.Forall₂ (MsgStep S) (c.state.messages id) (c'.state.messages id) := by
    intro he
    unfold State.messages
    rw [he]
    exact forall₂_same.mpr fun m _ => .refl m
  have hstep : ∀ (i : GoString) (f : List MailboxMessage → List MailboxMessage),
      (∀ ms, c.state.mailbox[i]? = some ms → List.Forall₂ (MsgStep S) ms (f ms)) →
      c'.state.mailbox = updateTable f i c.state.mailbox →
      List.Forall₂ (MsgStep S) (c.state.messages id) (c'.state.messages id) := by
    intro i f hf he
    by_cases hi : i = id
    · subst hi
      unfold State.messages
      rw [he, get_updateTable, if_pos rfl]
      cases hm : c.state.mailbox[i]? with
      | none => exact .nil
      | some ms => exact hf ms hm
    · exact hsame (by rw [he, get_updateTable, if_neg hi])
  cases h with
  | audit => exact .inl (hsame rfl)
  | application | stage | cosign => exact .inl (hsame (by simp))
  | messages i f hf => exact .inl (hstep i f hf rfl)
  | register a hnew =>
    left
    by_cases hi : a.applicationID = id
    · subst hi
      rw [hn.messages_of_new hnew]
      simp [State.messages]
    · exact hsame (by simp [Table.get_insert, hi])
  | enqueue i m ha =>
    by_cases hi : i = id
    · subst hi
      exact .inr ⟨m, ha, by simp [State.messages]⟩
    · exact .inl (hsame (by simp [Table.get_insert, hi]))
  | settle i a t ht => exact .inl (hstep i _ (fun ms hms => ht.steps hms) rfl)
  | side hf | shelf hf => exact .inl (hsame (by rw [hf.mailbox]))

theorem Admission.proper (h : Admission U c.state id m) :
    Proper U (c.state.nextSequence + 1) m :=
  ⟨h.messageID, h.sequence.le, h.key, h.compacted⟩

theorem Change.named (h : Change U S env c k c') (hn : Named U c) : Named U c' where
  applications := h.applications hn.applications
  mailbox := by
    intro id ms hm
    rcases h.mailbox hm with ⟨old, ho, hs⟩ | ⟨m, ha, rfl, hnext⟩ | ⟨rfl, hk⟩
    · obtain ⟨hk, hp⟩ := hn.mailbox id old ho
      refine ⟨h.knows hk, fun m hmem => ?_⟩
      obtain ⟨y, hy, hstep⟩ := mem_of_forall₂ hs hmem
      exact ((hp y hy).mono h.nextSequence_le).step hstep
    · refine ⟨h.knows ha.application, fun x hx => ?_⟩
      rcases mem_append.mp hx with hx | hx
      · obtain ⟨old, ho, hxo⟩ := State.mem_messages hx
        exact ((hn.mailbox id old ho).2 x hxo).mono h.nextSequence_le
      · rw [mem_singleton.mp hx, hnext]
        exact ha.proper
    · exact ⟨hk, by simp⟩
  results := by
    have hmono : Each (fun id r => valid id = true ∧ c'.state.Knows r.applicationID)
        c.state.results := fun id r hr => ⟨(hn.results id r hr).1, h.knows (hn.results id r hr).2⟩
    cases h with
    | audit => exact hmono
    | application | messages | register | enqueue | stage | cosign => simpa using hmono
    | settle i a t ht =>
      refine Each.insert hmono ⟨ht.messageID, ?_⟩
      simp [State.Knows, State.commitTurn, ht.owner]
    | side hf | shelf hf => rw [hf.results]; exact hmono
  prepared := by
    cases h with
    | audit => exact hn.prepared
    | application | messages | register | enqueue | cosign => simpa using hn.prepared
    | stage id staged hv => exact Each.insert hn.prepared hv
    | settle i a t => exact Each.erase hn.prepared _
    | side hf | shelf hf => rw [hf.prepared]; exact hn.prepared
  hashes := by
    cases h with
    | audit =>
      intro r hr
      rcases mem_append.mp hr with hr | hr
      · exact hn.hashes r hr
      · rw [mem_singleton.mp hr]
        exact ⟨_, rfl⟩
    | application | messages | register | enqueue | stage | cosign => simpa using hn.hashes
    | settle => exact hn.hashes
    | side hf | shelf hf => rw [hf.audit]; exact hn.hashes

theorem Change.side_of (h : Change U S env c k c') (hs : Side U c) : Side U c' := by
  cases h with
  | side _ hf | shelf _ hf => exact hf hs
  | cosign =>
    constructor <;> simp only [withState_state, withState_sourced]
    exacts [hs.timers, hs.bindings, hs.pending, hs.conversations, hs.sourced, hs.outbox,
      hs.confirmations, hs.mounts]
  | _ => exact ⟨hs.timers, hs.bindings, hs.pending, hs.conversations, hs.sourced, hs.outbox,
      hs.confirmations, hs.mounts⟩

theorem Change.wellFormed (h : Change U S env c k c') (hw : WellFormed U c) : WellFormed U c' :=
  ⟨h.named hw.named, h.side_of hw.side⟩

/-! ## Images -/

theorem Named.knows_image (h : Named U c) (hk : c.state.Knows id) :
    c.state.image.Knows id := by
  have hv : Each (fun k _ => valid k = true) c.state.applications :=
    fun k a ha => (h.applications k a ha).1
  unfold State.Knows State.image at *
  simpa [get_imageTable_of_valid hv] using hk

theorem Named.reopen (h : Named U c) : Named U (codec.reopen (codec.save c)) where
  applications := h.applications.image fun id a ⟨hv, ha⟩ => by
    rw [sanitize_of_valid hv]
    exact ⟨hv, by simp [Application.image, ha, sanitize_of_valid hv]⟩
  mailbox := h.mailbox.image fun id ms ⟨hk, hp⟩ => by
    have hid : valid id = true := by
      obtain ⟨a, ha⟩ := Option.isSome_iff_exists.mp hk
      exact (h.applications id a ha).1
    rw [sanitize_of_valid hid]
    refine ⟨h.knows_image hk, fun m hm => ?_⟩
    obtain ⟨y, hy, rfl⟩ := mem_map.mp hm
    exact (hp y hy).image
  results := h.results.image fun id r ⟨hv, hk⟩ => by
    refine ⟨valid_sanitize id, ?_⟩
    obtain ⟨a, ha⟩ := Option.isSome_iff_exists.mp hk
    have hr := (h.applications r.applicationID a ha).1
    rw [TurnResult.image, sanitize_of_valid hr]
    exact h.knows_image hk
  prepared := h.prepared.image fun id _ _ => valid_sanitize id
  hashes := by
    intro r hr
    obtain ⟨x, hx, rfl⟩ := mem_map.mp hr
    obtain ⟨d, hd⟩ := h.hashes x hx
    exact ⟨d, by rw [AuditRecord.image, hd, sanitize_of_valid d.toHexText.valid]⟩

theorem WellFormed.get_save_application (hw : WellFormed U c) (id : GoString) :
    (codec.save c).applications[id]? = (c.state.applications[id]?).map Application.image :=
  get_imageTable_of_valid (fun k a ha => (hw.named.applications k a ha).1) id

theorem WellFormed.messages_save (hw : WellFormed U c) (id : GoString) :
    (codec.save c).messages id = (c.state.messages id).map MailboxMessage.image := by
  have hget : (codec.save c).mailbox[id]? =
      (c.state.mailbox[id]?).map (map MailboxMessage.image) := by
    refine get_imageTable_of_valid (fun k ms hms => ?_) id
    obtain ⟨a, ha⟩ := Option.isSome_iff_exists.mp (hw.named.mailbox k ms hms).1
    exact (hw.named.applications k a ha).1
  unfold State.messages
  rw [hget]
  cases c.state.mailbox[id]? <;> rfl

theorem WellFormed.proper (hw : WellFormed U c)
    (hm : m ∈ c.state.messages id) : Proper U c.state.nextSequence m := by
  obtain ⟨ms, hms, hmem⟩ := State.mem_messages hm
  exact (hw.named.mailbox id ms hms).2 m hmem

theorem sourceKey_mem {key : GoString} {payload : Bytes}
    (h : sourceKey s id payload = some key) : (s.conversations[key]?).isSome := by
  unfold sourceKey at h
  simp only at h
  split_ifs at h
  split at h
  · next hc =>
    split_ifs at h
    cases h
    simp [hc]
  · cases h

theorem each_rescanSourced {P : GoString → Prop}
    (h : Each (fun k _ => P k) s.conversations) : Each (fun _ k => P k) (rescanSourced s) := by
  refine foldlRecOn s.mailbox.toList _ each_empty fun acc hacc p _ => ?_
  refine foldlRecOn p.2 _ hacc fun acc hacc m _ => ?_
  unfold noteSource
  split
  · next hk =>
    obtain ⟨v, hv⟩ := Option.isSome_iff_exists.mp (sourceKey_mem hk)
    exact hacc.insert (h _ v hv)
  · exact hacc

theorem Side.reopen (h : Side U c) : Side U (codec.reopen (codec.save c)) where
  timers := h.timers.image fun _ _ _ => clear_sanitize _
  bindings := h.bindings.image fun _ _ _ => clear_sanitize _
  pending := h.pending.image fun k l _ => by
    refine ⟨valid_sanitize k, fun e he => ?_⟩
    obtain ⟨x, -, rfl⟩ := mem_map.mp he
    exact clear_sanitize _
  conversations := h.conversations.image fun _ _ _ => clear_sanitize _
  sourced := each_rescanSourced (h.conversations.image fun _ _ _ => clear_sanitize _)
  outbox := fun e he => by
    obtain ⟨x, -, rfl⟩ := mem_map.mp he
    exact clear_sanitize _
  confirmations := h.confirmations.image fun _ _ _ => ⟨clear_sanitize _, clear_sanitize _⟩
  mounts := h.mounts.image fun _ _ _ => ⟨valid_sanitize _, clear_sanitize _⟩

theorem WellFormed.reopen (h : WellFormed U c) : WellFormed U (codec.reopen (codec.save c)) :=
  ⟨h.named.reopen, h.side.reopen⟩

end Aok.Runtime
