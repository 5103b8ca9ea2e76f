import Aok.Runtime.Runs

/-!
# Mailboxes stay within their limits

The limits are checked when a message is admitted and never again. No other change adds to
what is charged: a message that is requeued or taken back after a crash was charged before.
Keys are unique because an admission looks for its key first; saving replaces invalid UTF-8
in keys, so this needs callers that pass valid strings.
-/

namespace Aok.Runtime
open Lib Lib.Utf8 Lib.JsonText Lib.JsonValue Lib.Command Lib.Journal Sample List Table

variable {K : Type} {U P : Prop} {S : Terms} {env : Env K} {c c' : Core} {k : Level}
  {id : GoString}

/-! ## Sums over charged messages -/

def chargedSum (g : MailboxMessage → ℕ) (ms : List MailboxMessage) : ℕ :=
  ((ms.filter fun m => m.status.isCharged).map g).sum

theorem chargedCount_eq (ms : List MailboxMessage) : chargedCount ms = chargedSum (fun _ => 1) ms := by
  simp [chargedCount, chargedSum, countP_eq_length_filter]

section
variable {g : MailboxMessage → ℕ}

@[simp] theorem chargedSum_append (ms ms' : List MailboxMessage) :
    chargedSum g (ms ++ ms') = chargedSum g ms + chargedSum g ms' := by
  simp [chargedSum]

def Stable (g : MailboxMessage → ℕ) : Prop :=
  ∀ S m m', MsgStep S m m' → g m' = g m

theorem chargedSum_le (hg : Stable g) {ms ms' : List MailboxMessage}
    (h : List.Forall₂ (MsgStep S) ms ms') : chargedSum g ms' ≤ chargedSum g ms := by
  induction h with
  | nil => exact le_rfl
  | @cons m m' ms ms' hstep _ ih =>
    have hhead : chargedSum g [m'] ≤ chargedSum g [m] := by
      cases hm' : m'.status.isCharged with
      | false => simp [chargedSum, hm']
      | true => simp [chargedSum, hm', hstep.charged hm', hg S m m' hstep]
    calc chargedSum g (m' :: ms') = chargedSum g [m'] + chargedSum g ms' := chargedSum_append [m'] ms'
      _ ≤ chargedSum g [m] + chargedSum g ms := Nat.add_le_add hhead ih
      _ = chargedSum g (m :: ms) := (chargedSum_append [m] ms).symm

def State.chargedTotal (g : MailboxMessage → ℕ) (s : State) : ℕ :=
  s.mailbox.total fun _ => chargedSum g

theorem total_insert_messages (s : State) (id : GoString) (ms : List MailboxMessage) :
    total (fun _ => chargedSum g) (s.mailbox.insert id ms) + chargedSum g (s.messages id) =
      s.chargedTotal g + chargedSum g ms := by
  unfold State.chargedTotal State.messages
  rw [total_insert]
  cases hm : s.mailbox[id]? with
  | none =>
    rw [erase_eq_self _ hm]
    simp [chargedSum, Nat.add_comm]
  | some old =>
    rw [total_of_get _ hm, Option.getD_some]
    omega

theorem total_updateTable_le (hg : Stable g) (s : State) (id : GoString)
    {f : List MailboxMessage → List MailboxMessage}
    (hf : ∀ ms, s.mailbox[id]? = some ms → List.Forall₂ (MsgStep S) ms (f ms)) :
    total (fun _ => chargedSum g) (updateTable f id s.mailbox) ≤ s.chargedTotal g := by
  unfold updateTable
  cases hm : s.mailbox[id]? with
  | none => exact le_rfl
  | some ms =>
    have htotal := total_insert_messages (g := g) s id (f ms)
    rw [State.messages_of_get hm] at htotal
    have hle := chargedSum_le hg (hf ms hm)
    simp only
    omega

theorem Change.chargedTotal (hg : Stable g) (h : Change U S env c k c') :
    c'.state.chargedTotal g ≤ c.state.chargedTotal g ∨
      ∃ id m, Admission U c.state id m ∧
        c'.state.chargedTotal g = c.state.chargedTotal g + chargedSum g [m] := by
  cases h with
  | audit => exact .inl le_rfl
  | application | stage | cosign => exact .inl (by simp [State.chargedTotal])
  | messages i f hf => exact .inl (total_updateTable_le hg _ i hf)
  | register a =>
    have htotal := total_insert_messages (g := g) c.state a.applicationID []
    have hnil : chargedSum g [] = 0 := rfl
    refine .inl ?_
    change total (fun _ => chargedSum g) (c.state.mailbox.insert a.applicationID []) ≤ _
    omega
  | enqueue i m ha =>
    have htotal := total_insert_messages (g := g) c.state i (c.state.messages i ++ [m])
    rw [chargedSum_append] at htotal
    refine .inr ⟨i, m, ha, ?_⟩
    change total (fun _ => chargedSum g)
      (c.state.mailbox.insert i (c.state.messages i ++ [m])) = _
    omega
  | settle i a t ht => exact .inl (total_updateTable_le hg _ i fun ms hms => ht.steps hms)
  | side hf | shelf hf => exact .inl (by rw [State.chargedTotal, hf.mailbox]; exact le_rfl)

end

theorem stable_one : Stable fun _ => 1 := fun _ _ _ _ => rfl

theorem stable_bytes : Stable fun m => m.payload.length := fun _ _ _ h => congrArg length h.payload

/-! ## The limits -/

def MailboxUsage.IsWithin (u : MailboxUsage) : Prop :=
  u.messages ≤ u.maxMessages ∧ u.payloadBytes ≤ u.maxPayloadBytes

def IsBounded (c : Core) : Prop :=
  ∀ id, (c.state.mailboxCapacity id).application.IsWithin ∧
    (c.state.mailboxCapacity id).supervisor.IsWithin

theorem chargedSum_singleton_le (g : MailboxMessage → ℕ) (m : MailboxMessage) :
    chargedSum g [m] ≤ g m := by
  cases hm : m.status.isCharged <;> simp [chargedSum, hm]

theorem MailboxUsage.accepts_iff {u : MailboxUsage} {n : ℕ} :
    u.accepts n ↔ u.messages < u.maxMessages ∧ u.payloadBytes + n ≤ u.maxPayloadBytes := by
  simp [MailboxUsage.accepts]

theorem mailboxCapacity_eq (s : State) (id : GoString) : s.mailboxCapacity id =
    ⟨⟨chargedSum (fun _ => 1) (s.messages id),
      chargedSum (fun m => m.payload.length) (s.messages id),
      maxApplicationMailboxMessages, maxApplicationMailboxBytes⟩,
    ⟨s.chargedTotal fun _ => 1, s.chargedTotal fun m => m.payload.length,
      maxSupervisorMailboxMessages, maxSupervisorMailboxBytes⟩⟩ := by
  have htotal : (s.mailbox.total fun _ => chargedCount) = s.chargedTotal fun _ => 1 :=
    total_congr fun _ ms _ => chargedCount_eq ms
  simp only [State.mailboxCapacity, chargedCount_eq, htotal]
  rfl

theorem Change.application_isWithin (h : Change U S env c k c') (hn : Named U c) (hb : IsBounded c)
    (id : GoString) : (c'.state.mailboxCapacity id).application.IsWithin := by
  obtain ⟨hcount, hbytes⟩ := (hb id).1
  simp only [mailboxCapacity_eq, MailboxUsage.IsWithin] at hcount hbytes ⊢
  rcases h.mailStep hn id with hsteps | ⟨m, ha, he⟩
  · exact ⟨(chargedSum_le stable_one hsteps).trans hcount,
      (chargedSum_le stable_bytes hsteps).trans hbytes⟩
  · obtain ⟨hroom, hroom'⟩ := MailboxUsage.accepts_iff.mp ha.room
    simp only [mailboxCapacity_eq] at hroom hroom'
    have hone := chargedSum_singleton_le (fun _ => 1) m
    have hlength := chargedSum_singleton_le (fun m => m.payload.length) m
    rw [he, chargedSum_append, chargedSum_append]
    omega

theorem Change.supervisor_isWithin (h : Change U S env c k c') (hb : IsBounded c) (id : GoString) :
    (c'.state.mailboxCapacity id).supervisor.IsWithin := by
  obtain ⟨hcount, hbytes⟩ := (hb id).2
  simp only [mailboxCapacity_eq, MailboxUsage.IsWithin] at hcount hbytes ⊢
  constructor
  · rcases h.chargedTotal stable_one with hle | ⟨i, m, ha, he⟩
    · exact hle.trans hcount
    · have hroom := (MailboxUsage.accepts_iff.mp ha.roomTotal).1
      simp only [mailboxCapacity_eq] at hroom
      have hone := chargedSum_singleton_le (fun _ => 1) m
      omega
  · rcases h.chargedTotal stable_bytes with hle | ⟨i, m, ha, he⟩
    · exact hle.trans hbytes
    · have hroom := (MailboxUsage.accepts_iff.mp ha.roomTotal).2
      simp only [mailboxCapacity_eq] at hroom
      have hlength := chargedSum_singleton_le (fun m => m.payload.length) m
      omega

theorem chargedSum_image {g : MailboxMessage → ℕ} {ms : List MailboxMessage}
    (hg : ∀ m ∈ ms, g m.image = g m) : chargedSum g (ms.map MailboxMessage.image) = chargedSum g ms := by
  unfold chargedSum
  rw [filter_map, map_map]
  refine congrArg sum (map_congr_left fun m hm => hg m (mem_of_mem_filter hm))

theorem WellFormed.chargedTotal_save (hw : WellFormed U c) {g : MailboxMessage → ℕ}
    (hg : ∀ m : MailboxMessage, Proper U c.state.nextSequence m → g m.image = g m) :
    (codec.save c).chargedTotal g = c.state.chargedTotal g := by
  have hvalid : Each (fun k _ => valid k = true) c.state.mailbox := fun k ms hms => by
    obtain ⟨a, ha⟩ := Option.isSome_iff_exists.mp (hw.named.mailbox k ms hms).1
    exact (hw.named.applications k a ha).1
  unfold State.chargedTotal
  change total _ (imageTable (map MailboxMessage.image) c.state.mailbox) = _
  rw [imageTable_of_valid hvalid, total_map]
  exact total_congr fun id ms hms =>
    chargedSum_image fun m hm => hg m ((hw.named.mailbox id ms hms).2 m hm)

theorem Proper.length_image {n : ℕ} {m : MailboxMessage} (h : Proper U n m) :
    m.image.payload.length = m.payload.length := by
  rw [h.image_eq]

theorem IsBounded.reopen (hw : WellFormed U c) (hb : IsBounded c) :
    IsBounded (codec.reopen (codec.save c)) := by
  intro id
  have hcapacity : (codec.save c).mailboxCapacity id = c.state.mailboxCapacity id := by
    have hbytes : chargedSum (fun m => m.payload.length) ((codec.save c).messages id) =
        chargedSum (fun m => m.payload.length) (c.state.messages id) := by
      rw [hw.messages_save]
      exact chargedSum_image fun m hm => (hw.proper hm).length_image
    have hcount : chargedSum (fun _ => 1) ((codec.save c).messages id) =
        chargedSum (fun _ => 1) (c.state.messages id) := by
      rw [hw.messages_save]
      exact chargedSum_image fun _ _ => rfl
    rw [mailboxCapacity_eq, mailboxCapacity_eq, hbytes, hcount,
      hw.chargedTotal_save (g := fun _ => 1) fun _ _ => rfl,
      hw.chargedTotal_save fun _ => Proper.length_image]
  change ((codec.save c).mailboxCapacity id).application.IsWithin ∧
    ((codec.save c).mailboxCapacity id).supervisor.IsWithin
  rw [hcapacity]
  exact hb id

/-! ## The keys -/

/-- The keys of a mailbox are different and of the size that admissions ask for. -/
structure IsKeyed (c : Core) : Prop where
  nodup : ∀ id, ((c.state.messages id).map (·.idempotencyKey)).Nodup
  size : ∀ id, ∀ m ∈ c.state.messages id, m.idempotencyKey ≠ [] ∧ m.idempotencyKey.length ≤ 256

theorem map_key_of_forall₂ {ms ms' : List MailboxMessage} (h : List.Forall₂ (MsgStep S) ms ms') :
    ms'.map (·.idempotencyKey) = ms.map (·.idempotencyKey) := by
  induction h with
  | nil => rfl
  | cons hstep _ ih => simp [ih, hstep.idempotencyKey]

theorem Change.isKeyed (h : Change U S env c k c') (hn : Named U c) (hk : IsKeyed c) : IsKeyed c' where
  nodup := by
    intro id
    rcases h.mailStep hn id with hsteps | ⟨m, ha, he⟩
    · rw [map_key_of_forall₂ hsteps]
      exact hk.nodup id
    · rw [he, map_append, nodup_append]
      refine ⟨hk.nodup id, by simp, ?_⟩
      simp only [mem_map, map_cons, map_nil, mem_singleton]
      rintro _ ⟨x, hx, rfl⟩ _ rfl
      exact ha.fresh x hx
  size := by
    intro id m hm
    rcases h.mailStep hn id with hsteps | ⟨x, ha, he⟩
    · obtain ⟨y, hy, hstep⟩ := mem_of_forall₂ hsteps hm
      rw [hstep.idempotencyKey]
      exact hk.size id y hy
    · rw [he] at hm
      rcases mem_append.mp hm with hm | hm
      · exact hk.size id m hm
      · rw [mem_singleton.mp hm]
        exact ha.keySize

theorem WellFormed.map_key_save (hU : U) (hw : WellFormed U c) (id : GoString) :
    ((codec.save c).messages id).map (·.idempotencyKey) =
      (c.state.messages id).map (·.idempotencyKey) := by
  rw [hw.messages_save, map_map]
  exact map_congr_left fun m hm => (hw.proper hm).key.sanitize_eq hU

theorem IsKeyed.reopen (hU : U) (hw : WellFormed U c) (hk : IsKeyed c) :
    IsKeyed (codec.reopen (codec.save c)) where
  nodup := fun id => (hw.map_key_save hU id).symm ▸ hk.nodup id
  size := by
    intro id m hm
    have hmem : m.idempotencyKey ∈ ((codec.save c).messages id).map (·.idempotencyKey) :=
      mem_map_of_mem hm
    rw [hw.map_key_save hU] at hmem
    obtain ⟨x, hx, he⟩ := mem_map.mp hmem
    exact he ▸ hk.size id x hx

theorem bounded_keyed_lasting (hU : U) : Lasting U S env fun c =>
    WellFormed U c ∧ IsBounded c ∧ IsKeyed c where
  change := fun _ _ _ h hc => ⟨h.wellFormed hc.1,
    fun id => ⟨h.application_isWithin hc.1.named hc.2.1 id, h.supervisor_isWithin hc.2.1 id⟩,
    h.isKeyed hc.1.named hc.2.2⟩
  reopen := fun _ hc => ⟨hc.1.reopen, hc.2.1.reopen hc.1, hc.2.2.reopen hU hc.1⟩

theorem bounded_keyed_empty : IsBounded (codec.reopen State.empty) ∧ IsKeyed (codec.reopen State.empty) := by
  have hmessages : ∀ id, (codec.reopen State.empty).state.messages id = [] := fun id => by
    simp [State.messages, codec, State.empty]
  have htotal : ∀ g, (codec.reopen State.empty).state.chargedTotal g = 0 := fun g =>
    total_empty _
  refine ⟨fun id => ?_, ⟨fun id => by simp [hmessages], fun id => by simp [hmessages]⟩⟩
  simp [mailboxCapacity_eq, hmessages, htotal, MailboxUsage.IsWithin, chargedSum]

theorem enqueueLocked_again {w : World K} (hk : IsKeyed w.sup.core) {principal : GoString}
    {payload : Bytes} {a : Application} {m : MailboxMessage}
    (ha : w.sup.core.state.applications[id]? = some a) (hlive : a.isRetired = false)
    (hm : m ∈ w.sup.core.state.messages id)
    (hpayload : validJson payload ∧ payload.length ≤ 6 * maxTextBytes)
    (hsame : compact payload = m.payload) :
    enqueueLocked env principal id m.idempotencyKey payload w = (.ok m, w) := by
  have hsend : Sendable w.sup.core.state id m.idempotencyKey payload :=
    ⟨⟨a, ha, hlive⟩, hk.size id m hm, hpayload⟩
  have hfind : w.sup.core.state.messageWith id m.idempotencyKey = some m := by
    cases hx : w.sup.core.state.messageWith id m.idempotencyKey with
    | none => exact absurd (decide_eq_true rfl) (find?_eq_none.mp hx m hm)
    | some x =>
      have hkey : x.idempotencyKey = m.idempotencyKey := by
        simpa using find?_some hx
      have hmem := mem_of_find?_eq_some hx
      rw [inj_on_of_nodup_map (hk.nodup id) hmem hm hkey]
  exact enqueueLocked_found hsend hfind hsame

example : runs (create ++ [send "k"]) := by decide +kernel

end Aok.Runtime
