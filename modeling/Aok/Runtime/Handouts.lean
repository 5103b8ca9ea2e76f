import Aok.Runtime.Histories
import Aok.Runtime.Identities
import Aok.Runtime.Transfers

/-!
# What callers have been told

An operation that succeeds hands out records and applications with their ids. What it hands out is
committed by then, so that no later operation, restart or rollback gives one of these ids to
anything else.
-/

namespace Aok.Runtime
open Lib Lib.Utf8 Lib.JsonText Lib.JsonValue Lib.Command Lib.Journal Relation Sample List

variable {K : Type} {env : Env K} {w : World K} {principal id key : GoString} {payload : Bytes}

def Call.handed (env : Env K) (w : World K) : Call → List Record
  | .enqueue p i k x => (Runtime.enqueue env p i k x w).1.value?.elim [] fun m => [m.record i]
  | .claimMailbox p i => (Runtime.claimMailbox env p i w).1.value?.elim [] fun out =>
    out.map (MailboxMessage.record i)
  | .deliverInbound c x n p => (w.sup.core.state.conversation c x).elim [] fun v =>
    (Runtime.deliverInbound env c x n p w).1.value?.elim [] fun m => [m.record v.applicationID]
  | .reply p i m => (Runtime.reply env p i m w).1.value?.elim [] fun e => [e.record]
  | .claimOutbox c x => (Runtime.claimOutbox env c x w).1.value?.elim [] fun out =>
    out.map OutboxEntry.record
  | .mountHostfs p i g m n t =>
    (Runtime.mountHostfs env p i g m n t w).1.value?.elim [] fun m => [m.record]
  | .commitImport p i k x =>
    (Runtime.commitImport env p i k x w).1.value?.elim [] fun x => [x.record]
  | _ => []

def Event.handed (env : Env K) (s : System K) : Event K → List Record
  | .call c => c.handed env s.world
  | .exportStage j => (s.exports[j]?).elim [] fun (p, i, k, x) =>
    (Runtime.exportStage env p i k x s.world).1.value?.elim [] fun x => [x.record]
  | _ => []

def Event.spawned (env : Env K) (s : System K) : Event K → Option Application
  | .call (.createApplication p o k) => (createApplication env p o k s.world).1.value?
  | .call (.forkApplication p i o k) => (forkApplication env p i o k s.world).1.value?
  | _ => none

/-! ## The operations -/

def Yields {α : Type} (f : α → List Record) (c : Op K α) (w : World K) : Prop :=
  Transacts w.store (fun a st => ∀ r ∈ f a, r ∈ st.live.state.records) (fun _ _ => True) c w

theorem mem_records_of_message {s : State} {m : MailboxMessage} (h : m ∈ s.messages id) :
    m.record id ∈ s.records :=
  mem_records.mpr (mem_messageRecords.mpr ⟨id, m, h, rfl⟩)

theorem mem_records_of_entry {s : State} {e : OutboxEntry} (h : e ∈ s.outbox) :
    e.record ∈ s.records :=
  mem_records.mpr (mem_map_of_mem h)

theorem mem_records_of_transfer {s : State} {x : ArtifactTransfer} (h : x ∈ s.transfers) :
    x.record ∈ s.records :=
  mem_records.mpr (mem_map_of_mem h)

theorem accept_mem : w.newMessage env key payload ∈
    (w.accept env principal id key payload).sup.core.state.messages id := by
  change _ ∈ ((w.sup.core.state.mailbox.insert id
    (w.sup.core.state.messages id ++ [w.newMessage env key payload]))[id]?).getD []
  simp

theorem enqueue_yields :
    Yields (fun m => [m.record id]) (enqueue env principal id key payload) w := by
  refine .require rfl fun _ => .require rfl fun _ => .getState (.call ?_)
  refine enqueueLocked_exact (fun m _ hm _ => ?_) (fun _ _ _ => ?_) fun _ _ => .inl rfl
  · have hmem := mem_records_of_message (mem_of_find?_eq_some hm)
    refine .getState ?_
    rw [if_neg (by simp)]
    exact .pure fun r hr => mem_singleton.mp hr ▸ hmem
  · have hmem : ∀ r ∈ [(w.newMessage env key payload).record id],
        r ∈ (w.accept env principal id key payload).sup.core.state.records := by
      intro r hr
      rw [mem_singleton.mp hr]
      exact mem_records_of_message accept_mem
    refine .getState ?_
    split_ifs
    · exact .persist rfl rfl fun n => .pure hmem
    · exact .pure hmem

theorem claimMailbox_yields :
    Yields (fun out => out.map (MailboxMessage.record id)) (claimMailbox env principal id) w := by
  refine .findApplication rfl fun a _ => .require rfl fun _ => .getState ?_
  dsimp only
  split_ifs
  · exact .pure fun r hr => by simp at hr
  · refine .editState ?_
    dsimp only [accumulateTaint, updateApplication]
    refine .editState (.audit fun t n => .persist rfl rfl fun n => .pure ?_)
    intro r hr
    obtain ⟨m', hm', rfl⟩ := mem_map.mp hr
    obtain ⟨m, hm, rfl⟩ := mem_map.mp hm'
    obtain ⟨hm, hp⟩ := mem_filter.mp hm
    have hp : m.status = .pending := by simpa using hp
    refine mem_records.mpr (mem_messageRecords.mpr ⟨id, _, ?_, rfl⟩)
    change _ ∈ ((updateTable _ id w.sup.core.state.mailbox)[id]?).getD []
    unfold State.messages at hm
    cases hms : w.sup.core.state.mailbox[id]? with
    | none => simp [hms] at hm
    | some ms =>
      rw [get_updateTable, if_pos rfl, hms]
      refine mem_map.mpr ⟨m, by simpa [hms] using hm, if_pos hp⟩

theorem deliverInbound_yields {channelID externalID : GoString} {sequence : ℤ}
    {c : MessageConversation} (hc : w.sup.core.state.conversation channelID externalID = some c) :
    Yields (fun m => [m.record c.applicationID])
      (deliverInbound env channelID externalID sequence payload) w := by
  unfold Yields deliverInbound
  refine .getState (.require rfl fun _ => ?_)
  rw [hc]
  refine .require rfl fun _ => ?_
  split_ifs
  · split
    next m hm =>
      have hmem := mem_records_of_message (mem_of_find?_eq_some hm)
      exact .pure fun r hr => mem_singleton.mp hr ▸ hmem
    · exact .fail rfl
  · refine .call (enqueueLocked_exact (fun m _ hm _ => ?_) (fun _ _ _ => ?_) fun _ _ => .inl rfl)
    · have hmem := mem_records_of_message (mem_of_find?_eq_some hm)
      exact .edit (.persist rfl rfl fun n => .pure fun r hr => mem_singleton.mp hr ▸ hmem)
    · refine .edit (.persist rfl rfl fun n => .pure fun r hr => ?_)
      rw [mem_singleton.mp hr]
      exact mem_records_of_message (@accept_mem K env w (lit "gateway") _ _ _)

theorem pending_mem_dropSent {n : ℕ} {l : List OutboxEntry} {x : OutboxEntry} (hx : x ∈ l)
    (hp : x.status = .pending) : x ∈ dropSent n l := by
  fun_induction dropSent with
  | case1 => exact hx
  | case2 => exact hx
  | case3 n e l _ ih =>
    rcases mem_cons.mp hx with rfl | hx
    · exact mem_cons_self
    · exact mem_cons_of_mem _ (ih hx)
  | case4 n e l hsent ih =>
    rcases mem_cons.mp hx with rfl | hx
    · exact absurd hp hsent
    · exact ih hx

/-- The entry that `enqueueOutboxLocked` makes. -/
def newEntry (c : Core) (key idempotency : GoString) (payload : Bytes) (t : ℤ) : OutboxEntry :=
  ⟨outboxEntryID (c.state.nextSequence + 1), key, idempotency, payload, .pending, 0, t, 0, []⟩

def Core.pushEntry (c : Core) (x : OutboxEntry) : Core :=
  c.withState fun s => { s with
    nextSequence := s.nextSequence + 1
    outbox := dropSent ((s.outbox ++ [x]).length - maxOutboxEntries) (s.outbox ++ [x]) }

theorem enqueueOutboxLocked_exact {key idempotency : GoString} {payload : Bytes}
    {Q : OutboxEntry → World K → Prop} {E : Err → World K → Prop} {C : World K → Prop}
    (hold : ∀ x ∈ w.sup.core.state.outbox, x.idempotencyKey = idempotency → Q x w)
    (hnew : (∀ x ∈ w.sup.core.state.outbox, x.idempotencyKey ≠ idempotency) → ∀ t n,
      Q (newEntry w.sup.core key idempotency payload t) ({ w with tick := n }.setCore
        (w.sup.core.pushEntry (newEntry w.sup.core key idempotency payload t))))
    (hE : E .conversationNotFound w) :
    Ends (enqueueOutboxLocked env key idempotency payload) w Q E C := by
  unfold enqueueOutboxLocked
  rw [ends_bind, ends_getState, ends_bind, ends_require]
  refine ⟨fun _ => ?_, fun _ => hE⟩
  cases hfind : w.sup.core.state.outbox.find? fun x => x.idempotencyKey = idempotency with
  | some x =>
    refine hold x (mem_of_find?_eq_some hfind) ?_
    simpa using find?_some hfind
  | none =>
    refine hnew (fun x hx => ?_) _ _
    simpa using find?_eq_none.mp hfind x hx

theorem denyReply_yields {messageID : GoString} {x : Err} {reason : String}
    {f : OutboxEntry → List Record} : Yields f (denyReply env principal id messageID x reason) w :=
  .audit fun _ _ => .persist rfl rfl fun _ => .fail_of trivial

theorem newEntry_mem (c : Core) (k i : GoString) (x : Bytes) (t : ℤ) :
    newEntry c k i x t ∈ (c.pushEntry (newEntry c k i x t)).state.outbox := by
  simp only [Core.pushEntry, Core.withState_state]
  exact pending_mem_dropSent (by simp) rfl

theorem reply_yields {messageID : GoString} :
    Yields (fun e => [e.record]) (reply env principal id messageID) w := by
  unfold Yields reply
  refine .ask ?_
  dsimp only
  split
  · exact .fail rfl
  refine .require rfl fun _ => ?_
  split
  · exact denyReply_yields
  split
  · exact denyReply_yields
  split
  · exact denyReply_yields
  split
  · exact denyReply_yields
  split
  · exact denyReply_yields
  split
  · exact denyReply_yields
  split
  · exact denyReply_yields
  refine .call (enqueueOutboxLocked_exact (fun x hx _ => ?_) (fun _ t n => ?_) (.inl rfl))
  · refine .audit fun t n => .persist rfl rfl fun n => .pure fun r hr => ?_
    rw [mem_singleton.mp hr]
    exact mem_records_of_entry hx
  · refine .audit fun t' n => .persist rfl rfl fun n => .pure fun r hr => ?_
    rw [mem_singleton.mp hr]
    refine mem_records_of_entry ?_
    simp only [World.commit, World.setCore, World.store, Core.audit]
    exact newEntry_mem _ _ _ _ _

theorem claimOutbox_yields {channelID externalID : GoString}
    (hs : ∀ r ∈ w.sup.core.state.records, r ∈ w.sup.committed.records) :
    Yields (fun out => out.map OutboxEntry.record) (claimOutbox env channelID externalID) w := by
  have hrecord : ∀ (k : GoString) (e : OutboxEntry), (e.attempt k).record = e.record := by
    intro k e
    unfold OutboxEntry.attempt
    split_ifs <;> rfl
  refine .getState (.require rfl fun _ => .require rfl fun _ => ?_)
  dsimp only
  split
  · exact .pure fun r hr => by simp at hr
  · have hout : ∀ r ∈ ((w.sup.core.state.outbox.filter fun e =>
        e.conversationID = conversationKey channelID externalID ∧ e.status = .pending).map
          (OutboxEntry.attempt (conversationKey channelID externalID))).map OutboxEntry.record,
        ∃ e ∈ w.sup.core.state.outbox, e.record = r := by
      intro r hr
      obtain ⟨x, hx, rfl⟩ := mem_map.mp hr
      obtain ⟨e, he, rfl⟩ := mem_map.mp hx
      exact ⟨e, (mem_filter.mp he).1, (hrecord _ e).symm⟩
    refine .editState (.ignorePersist rfl rfl (fun n => .pure fun r hr => ?_) fun w' hu => .pure ?_)
    · obtain ⟨e, he, rfl⟩ := hout r hr
      rw [← hrecord (conversationKey channelID externalID)]
      exact mem_records_of_entry (mem_map_of_mem he)
    · intro r hr
      obtain ⟨e, he, rfl⟩ := hout r hr
      rcases hu with hu | hu
      · rw [hu]
        exact mem_records_of_entry he
      · rw [hu]
        exact hs _ (mem_records_of_entry he)

theorem mountHostfs_yields {guestPath mode : GoString} {limits ttl : ℤ} :
    Yields (fun m => [m.record]) (mountHostfs env principal id guestPath mode limits ttl) w := by
  unfold Yields mountHostfs
  refine .findApplication rfl fun a _ => ?_
  split
  · exact .fail rfl
  refine .require rfl fun _ => .require rfl fun _ => .now fun _ => .now fun _ => .getState ?_
  refine .editState (.audit fun t n => .persist rfl rfl fun n => .pure fun r hr => ?_)
  rw [mem_singleton.mp hr]
  exact mem_records.mpr (mem_mountRecords.mpr ⟨_, _, Table.get_insert_self _ _ _, rfl⟩)

theorem mem_keepNewest_concat {α : Type} {n : ℕ} (hn : 0 < n) (l : List α) (x : α) :
    x ∈ keepNewest n (l ++ [x]) := by
  have hle : (l ++ [x]).length - n ≤ l.length := by
    simp only [length_append, length_singleton]
    omega
  rw [keepNewest, drop_append_of_le_length hle]
  simp

theorem stageTransfer_yields {direction : Direction} {action : String} :
    Yields (fun x => [x.record])
      (stageTransfer env direction direction.taint action principal id key payload) w := by
  refine stageTransfer_answers.mono (fun x st hx r hr => ?_) fun _ _ _ => trivial
  rw [mem_singleton.mp hr]
  rcases hx with ⟨rfl, hmem, -⟩ | ⟨-, -, -, -, -, c, rfl, hc, -⟩
  · exact mem_records_of_transfer hmem
  · refine mem_records_of_transfer ?_
    change x ∈ c.state.transfers
    rw [hc]
    exact mem_keepNewest_concat (by decide) _ x

/-! ## Steps -/

variable {s s' t : System K} {e : Event K}

theorem perform_yields {α : Type} {f : α → List Record} {c : Op K α}
    {next : Except Err α → System K → System K} (hup : s.up = true) (hc : Yields f c s.world)
    (hnext : ∀ r t, (next r t).world = t.world ∧ (next r t).up = t.up) {r : Record}
    (hr : r ∈ (c s.world).1.value?.elim [] f) :
    (s.perform c next).up = true ∧ r ∈ (s.perform c next).world.sup.core.state.records := by
  cases hv : (c s.world).1.value? with
  | none => simp [hv] at hr
  | some a =>
    have ha := Outcome.value?_eq_some.mp hv
    refine ⟨(perform_up ha fun x t => (hnext x t).2).trans hup, ?_⟩
    rcases perform_transacts hup hc (fun r t => (hnext r t).1) with ⟨b, hb, hq⟩ | ⟨hne, -⟩
    · cases ha.symm.trans hb
      exact hq r (by simpa [hv] using hr)
    · exact absurd ha (hne a)

theorem handed_yields (h : Reachable env (fun s e => e.Identifies env s) s)
    (hstep : step env s e = some s') {r : Record} (hr : r ∈ e.handed env s) :
    s'.up = true ∧ r ∈ s'.world.sup.core.state.records := by
  have hup : s.up = true := by
    by_contra hup
    rcases step_of_down (Bool.eq_false_iff.mpr hup) hstep with rfl | ⟨k, rfl⟩ <;>
      simp [Event.handed] at hr
  simp only [step, hup, if_true, stepUp] at hstep
  have hcall : ∀ {α : Type} {f : α → List Record} {op : Op K α}, Yields f op s.world →
      r ∈ (op s.world).1.value?.elim [] f →
      (s.perform (discard op) fun _ t => t).up = true ∧
        r ∈ (s.perform (discard op) fun _ t => t).world.sup.core.state.records := by
    intro α f op hop hmem
    rw [perform_discard]
    exact perform_yields hup hop (fun _ _ => ⟨rfl, rfl⟩) hmem
  cases e with
  | call c =>
    cases hstep
    cases c with
    | enqueue => exact hcall enqueue_yields hr
    | claimMailbox => exact hcall claimMailbox_yields hr
    | reply => exact hcall reply_yields hr
    | mountHostfs => exact hcall mountHostfs_yields hr
    | commitImport => exact hcall stageTransfer_yields hr
    | deliverInbound c x n p =>
      simp only [Event.handed, Call.handed] at hr
      cases hv : s.world.sup.core.state.conversation c x with
      | none => simp [hv] at hr
      | some v =>
        rw [hv] at hr
        exact hcall (deliverInbound_yields hv) hr
    | claimOutbox c x =>
      refine hcall (claimOutbox_yields fun r hr => ?_) hr
      have hsaved : s.world.sup.committed = s.world.db :=
        (h.synced allowed_of_identifies hup).saved_eq
      rw [hsaved]
      exact mem_records.mpr (h.mem_db allowed_of_identifies hup (mem_records.mp hr))
    | _ => cases hr
  | exportStage j =>
    simp only [Event.handed] at hr
    dsimp only at hstep
    cases hj : s.exports[j]? with
    | none => simp [hj] at hr
    | some x =>
      obtain ⟨p, i, k, x⟩ := x
      rw [hj] at hr hstep
      cases hstep
      refine perform_yields hup stageTransfer_yields (fun _ _ => ?_) hr
      exact ⟨rfl, rfl⟩
  | _ => cases hr

theorem handed_mem_db (h : Reachable env (fun s e => e.Identifies env s) s)
    (he : e.Identifies env s) (hstep : step env s e = some s') {r : Record}
    (hr : r ∈ e.handed env s) : r ∈ s'.world.db.records := by
  obtain ⟨hup, hmem⟩ := handed_yields h hstep hr
  have h' := h.trans (ReflTransGen.single ⟨e, he, hstep⟩)
  exact mem_records.mpr (h'.mem_db allowed_of_identifies hup (mem_records.mp hmem))

theorem perform_spawned {c : Op K Application} {I : World K → Prop} {E : Err → World K → Prop}
    {D : World K → Prop} (hup : s.up = true)
    (h : Ends c s.world (fun a w' => I w' ∧ Commits (Registered a) w'.store) E D) {a : Application}
    (ha : a ∈ (c s.world).1.value?) :
    (s.perform (discard c) fun _ t => t).up = true ∧
      Commits (Registered a) (s.perform (discard c) fun _ t => t).world.store := by
  have hok := Outcome.value?_eq_some.mp ha
  have hcommit := (h.value hok).2
  rw [perform_discard]
  unfold System.perform
  generalize c s.world = r at hok hcommit ⊢
  rcases r with ⟨_ | _ | _, w⟩ <;> cases hok
  exact ⟨hup, hcommit⟩

theorem spawned_commits (h : Reachable env (fun s e => e.Identifies env s) s)
    (he : e.Identifies env s) (hstep : step env s e = some s') {a : Application}
    (ha : a ∈ e.spawned env s) : s'.up = true ∧ Commits (Registered a) s'.world.store := by
  obtain ⟨-, hanew, howner⟩ := he
  have hup : s.up = true := by
    by_contra hup
    rcases step_of_down (Bool.eq_false_iff.mpr hup) hstep with rfl | ⟨k, rfl⟩ <;>
      simp [Event.spawned] at ha
  have hall := h.identified.store hup
  simp only [step, hup, if_true, stepUp] at hstep
  cases e with
  | call c =>
    cases hstep
    cases c with
    | createApplication => exact perform_spawned hup (createApplication_identifies howner hall) ha
    | forkApplication => exact perform_spawned hup (forkApplication_identifies hanew howner hall) ha
    | _ => cases ha
  | _ => cases ha

theorem spawned_lasts (h : Reachable env (fun s e => e.Identifies env s) s)
    (he : e.Identifies env s) (hstep : step env s e = some s')
    (hr : Run env (fun s e => e.Identifies env s) s' t) {a : Application}
    (ha : a ∈ e.spawned env s) : Registered a (codec.reopen t.world.db) := by
  have hsafe := (h.trans (ReflTransGen.single ⟨e, he, hstep⟩)).safe allowed_of_identifies
  obtain ⟨hup, c, hc, hreg⟩ := spawned_commits h he hstep ha
  have hwf : WellFormed False c := by
    have hlive := (hsafe.sound hup).live
    rwa [hc] at hlive
  have hlasting : Lasting False (.all False) env _ := registered_lasting a
  have hs' : s'.Holds fun c => WellFormed False c ∧ Registered a c :=
    .of_commit hc ⟨hwf, hreg⟩ (hlasting.reopen c ⟨hwf, hreg⟩)
  exact (hr.holds hlasting allowed_of_identifies hsafe hs').disk.2

/-- In every committed state the applications and records have ids of their own, and an id that a
caller was told never stands for anything else. -/
theorem identities_unique (h : Reachable env (fun s e => e.Identifies env s) s) :
    (∀ (id : GoString) (a : Application), s.world.db.applications[id]? = some a →
      s.world.contexts.ownerOf a.contextID = some a.ownerAgent) ∧
    (∀ (i j : GoString) (a b : Application), s.world.db.applications[i]? = some a →
      s.world.db.applications[j]? = some b →
      a.contextID = b.contextID ∨ a.kernelID = b.kernelID → i = j) ∧
    (s.world.db.records.map Record.id).Nodup ∧
    ∀ e s' t, e.Identifies env s → step env s e = some s' →
      Run env (fun s e => e.Identifies env s) s' t →
      (∀ r ∈ e.handed env s, r ∈ s'.world.db.records ∧
        ∀ r' ∈ t.world.db.records, r'.id = r.id → r' = r) ∧
      ∀ a ∈ e.spawned env s,
        (∃ a', t.world.db.applications[a.applicationID]? = some a' ∧
          a'.ownerAgent = a.ownerAgent ∧ a'.contextID = a.contextID ∧ a'.kernelID = a.kernelID) ∧
        ∀ (j : GoString) (b : Application), t.world.db.applications[j]? = some b →
          b.contextID = a.contextID ∨ b.kernelID = a.kernelID → j = a.applicationID := by
  have hid := h.identified.disk
  refine ⟨fun id a ha => hid.context id a ha, hid.distinct, h.nodup_records allowed_of_identifies,
    fun e s' t he hstep hr => ⟨fun r hmem => ?_, fun a ha => ?_⟩⟩
  · have hdb := handed_mem_db h he hstep hmem
    have h' := h.trans (ReflTransGen.single ⟨e, he, hstep⟩)
    exact ⟨hdb, fun r' hr' => h'.eq_of_id_eq allowed_of_identifies hr hdb hr'⟩
  · have hreg := spawned_lasts h he hstep hr ha
    obtain ⟨a', ha', hsame⟩ := hreg.known
    have hkernel := hsame.kernelID_eq hreg.kernel
    have h' := (h.trans (ReflTransGen.single ⟨e, he, hstep⟩)).trans hr
    refine ⟨⟨a', ha', hsame.ownerAgent, hsame.contextID, hkernel⟩, fun j b hb hshare => ?_⟩
    refine h'.identified.disk.distinct j a.applicationID b a' hb ha' ?_
    rwa [hsame.contextID, hkernel]

instance (e : Event K) : Decidable e.OwnerValid := by
  rcases e with _ | _ | _ | _ | ⟨⟨⟩⟩ <;> unfold Event.OwnerValid <;> infer_instance

instance (s : System K) (e : Event K) : Decidable (e.ForksAnew env s) := by
  rcases e with _ | _ | _ | _ | ⟨⟨⟩⟩ <;> unfold Event.ForksAnew <;> infer_instance

instance (s : System K) (e : Event K) : Decidable (e.Identifies env s) :=
  inferInstanceAs (Decidable (_ ∧ _ ∧ _))

/-- A message, and one more after a restart. -/
theorem identities_unique_restarted : ∃ (s s' t : System Unit) (r : Record),
    step calm s (send "a") = some s' ∧
    r ∈ (send "a").handed calm s ∧ t.world.db.records.length = 2 ∧
    r ∈ s'.world.db.records ∧ ∀ r' ∈ t.world.db.records, r'.id = r.id → r' = r := by
  have hrun : ∃ s, Run calm (fun s e => e.Identifies calm s) (System.initial ()) s ∧
      (Event.Identifies calm s (send "a") ∧
      ∃ r ∈ (send "a").handed calm s,
      ∃ s' ∈ step calm s (send "a"),
      ∃ t ∈ runAll calm (fun s e => e.Identifies calm s) s'
        [.crash, .start, send "b"], t.world.db.records.length = 2) :=
    exists_run create (by decide +kernel)
  obtain ⟨s, hs, he, r, hr, s', hstep, t, ht, hlen⟩ := hrun
  have hall := (identities_unique ⟨(), hs⟩).2.2.2 (send "a") s' t he hstep (run_of_runAll ht)
  exact ⟨s, s', t, r, hstep, hr, hlen, hall.1 r hr⟩

end Aok.Runtime
