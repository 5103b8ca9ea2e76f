import Aok.Runtime.Agreement

/-!
# The life of a message

A message keeps its place in its mailbox. Its status moves as the claims, returns,
acknowledgements and retirements of the source move it, with one exception: `finishTurn`
acknowledges the message of its turn without a look at its status, so a turn that outlives
its application turns an expired message into an acknowledged one.
-/

namespace Aok.Runtime
open Lib Lib.Utf8 Lib.JsonText Lib.JsonValue Lib.Command Lib.Journal Relation Sample

variable {K : Type} {U P : Prop} {S : Terms} {env : Env K} {c c' : Core} {k : Level}
variable {m : MailboxMessage} {a b : MsgStatus}

/-- The steps between the statuses of a message; no step leaves `acked` or `expired`. -/
inductive StatusStep : MsgStatus → MsgStatus → Prop where
  | claim : StatusStep .pending .claimed
  | requeue : StatusStep .claimed .pending
  | ack : StatusStep .claimed .acked
  | drop : StatusStep .pending .expired
  | cancel : StatusStep .claimed .expired

/-- The same message with a status that `R` allows after the old one. -/
structure Succeeds (R : MsgStatus → MsgStatus → Prop) (m m' : MailboxMessage) : Prop where
  messageID : m'.messageID = m.messageID
  sequence : m'.sequence = m.sequence
  payload : m'.payload = m.payload
  status : R m.status m'.status

theorem Succeeds.mono {R R' : MsgStatus → MsgStatus → Prop} {m' : MailboxMessage}
    (h : Succeeds R m m') (hR : ∀ a b, R a b → R' a b) : Succeeds R' m m' :=
  ⟨h.messageID, h.sequence, h.payload, hR _ _ h.status⟩

def Continues (R : MsgStatus → MsgStatus → Prop) (id : GoString) (i : ℕ) (m : MailboxMessage)
    (c : Core) : Prop :=
  ∃ m', (c.state.messages id)[i]? = some m' ∧ Succeeds R m m'

theorem getElem?_of_forall₂ {α : Type} {R : α → α → Prop} {l l' : List α} (h : List.Forall₂ R l l')
    {i : ℕ} {x : α} (hx : l[i]? = some x) : ∃ y, l'[i]? = some y ∧ R x y := by
  induction h generalizing i with
  | nil => simp at hx
  | cons hr _ ih =>
    cases i with
    | zero =>
      cases hx
      exact ⟨_, rfl, hr⟩
    | succ i => exact ih hx

theorem Change.continues {id : GoString} {i : ℕ} (h : Change U S env c k c')
    (hn : Named U c) (hc : Continues (ReflTransGen S.moves) id i m c) :
    Continues (ReflTransGen S.moves) id i m c' := by
  obtain ⟨x, hx, hs⟩ := hc
  rcases h.mailStep hn id with hsteps | ⟨n, -, he⟩
  · obtain ⟨y, hy, hstep⟩ := getElem?_of_forall₂ hsteps hx
    refine ⟨y, hy, by rw [hstep.messageID, hs.messageID], by rw [hstep.sequence, hs.sequence],
      by rw [hstep.payload, hs.payload], ?_⟩
    rcases hstep.status with heq | hmove
    · exact heq ▸ hs.status
    · exact hs.status.tail hmove
  · refine ⟨x, ?_, hs⟩
    rw [he, List.getElem?_append_left (List.getElem?_eq_some_iff.mp hx).1]
    exact hx

theorem Continues.reopen {R : MsgStatus → MsgStatus → Prop} {id : GoString} {i : ℕ}
    (hw : WellFormed U c) (hc : Continues R id i m c) :
    Continues R id i m (codec.reopen (codec.save c)) := by
  obtain ⟨x, hx, hs⟩ := hc
  have hp := hw.proper (List.mem_of_getElem? hx)
  refine ⟨x.image, ?_, ?_⟩
  · change ((codec.save c).messages id)[i]? = _
    rw [hw.messages_save, List.getElem?_map, hx]
    rfl
  · rw [hp.image_eq]
    exact ⟨hs.messageID, hs.sequence, hs.payload, hs.status⟩

theorem continues_lasting {id : GoString} {i : ℕ} : Lasting U S env fun c =>
    WellFormed U c ∧ Continues (ReflTransGen S.moves) id i m c where
  change := fun _ _ _ h hc => ⟨h.wellFormed hc.1, h.continues hc.1.named hc.2⟩
  reopen := fun _ hc => ⟨hc.1.reopen, hc.2.reopen hc.1⟩

def Event.AcksClaimed (s : System K) : Event K → Prop
  | .work i => ∀ x o, s.workers[i]? = some x → x.phase = .finishing o →
      ∀ m ∈ s.world.sup.core.state.messages x.turn.id,
        m.messageID = x.turn.message.messageID → m.status = .claimed ∨ m.status = .acked
  | _ => True

theorem Call.moves_trans {x : Call} {d : MsgStatus} (h : x.Moves a b) (h' : x.Moves b d) :
    x.Moves a d := by
  unfold Call.Moves at *
  cases x <;> simp_all

theorem Event.moves_trans {s : System K} {e : Event K} {d : MsgStatus} (h : e.Moves s a b)
    (h' : e.Moves s b d) : e.Moves s a d := by
  cases e with
  | start =>
    rcases h with ⟨rfl, rfl⟩ | ⟨-, rfl⟩
    · rcases h' with ⟨h', -⟩ | ⟨-, rfl⟩
      · cases h'
      · exact .inr ⟨.inr rfl, rfl⟩
    · rcases h' with ⟨h', -⟩ | ⟨h' | h', -⟩ <;> cases h'
  | call x => exact Call.moves_trans h h'
  | loopStep =>
    rcases h with ⟨hl, -, rfl⟩ | ⟨⟨t, ht⟩, -, rfl⟩
    · rcases h' with ⟨-, h', -⟩ | ⟨⟨t, ht⟩, -, -⟩
      · cases h'
      · cases hl.symm.trans ht
    · rcases h' with ⟨hl, -, -⟩ | ⟨-, h', -⟩
      · cases hl.symm.trans ht
      · cases h'
  | work i =>
    obtain ⟨x, hx, h⟩ := h
    obtain ⟨y, hy, h'⟩ := h'
    cases hx.symm.trans hy
    rcases h with ⟨⟨cause, hphase⟩, -, rfl⟩ | ⟨hphase, rfl, hm⟩
    · rcases h' with ⟨-, h', -⟩ | ⟨⟨o, ho⟩, -, -⟩
      · cases h'
      · cases hphase.symm.trans ho
    · rcases h' with ⟨-, h', -⟩ | ⟨-, rfl, -⟩
      · cases h'
      · exact ⟨x, hx, .inr ⟨hphase, rfl, hm⟩⟩
  | _ => exact h.elim

theorem Call.statusStep {x : Call} (h : x.Moves a b) : StatusStep a b := by
  cases x with
  | claimMailbox =>
    obtain ⟨rfl, rfl⟩ := h
    exact .claim
  | ackMailbox =>
    obtain ⟨rfl, rfl⟩ := h
    exact .ack
  | retireApplication =>
    obtain ⟨rfl | rfl, rfl⟩ := h
    · exact .drop
    · exact .cancel
  | _ => exact h.elim

theorem Event.AcksClaimed.statusStep {s : System K} {e : Event K} (he : e.AcksClaimed s)
    (h : e.Moves s a b) : ReflGen StatusStep a b := by
  cases e with
  | start =>
    rcases h with ⟨rfl, rfl⟩ | ⟨rfl | rfl, rfl⟩
    · exact .single .requeue
    · exact .single .drop
    · exact .single .cancel
  | call x => exact .single (Call.statusStep h)
  | loopStep =>
    rcases h with ⟨-, rfl, rfl⟩ | ⟨-, rfl, rfl⟩
    · exact .single .claim
    · exact .single .requeue
  | work i =>
    obtain ⟨x, hx, ⟨-, rfl, rfl⟩ | ⟨⟨o, ho⟩, rfl, m, hm, hid, rfl⟩⟩ := h
    · exact .single .requeue
    · rcases he x o hx ho m hm hid with hs | hs
      · exact hs ▸ .single .ack
      · exact hs ▸ .refl
  | _ => exact h.elim

theorem State.messages_canon (d : State) (id : GoString) : d.canon.messages id = d.messages id := by
  unfold State.messages State.canon
  cases hm : d.mailbox[id]? with
  | none => simp [Std.ExtTreeMap.getElem?_filter, hm]
  | some ms =>
    by_cases hms : ms = [] <;> simp [Std.ExtTreeMap.getElem?_filter, Option.filter, hm, hms]

theorem Reachable.messages_db {C : System K → Event K → Prop} {s : System K}
    (hC : ∀ s e, C s e → Allowed U S P env s e) (h : Reachable env C s) (hup : s.up = true)
    (id : GoString) :
    s.world.db.messages id = (s.world.sup.core.state.messages id).map MailboxMessage.image := by
  have hsave : (codec.save s.world.sup.core).messages id =
      (s.world.sup.core.state.messages id).map MailboxMessage.image :=
    ((h.safe hC).sound hup).live.messages_save id
  rw [← hsave, ← State.messages_canon, ← State.messages_canon (codec.save s.world.sup.core)]
  unfold State.messages
  rw [(h.mainAgree hC hup).mailbox]

instance (s : System K) (e : Event K) : Decidable (e.AcksClaimed s) := by
  rcases e
  all_goals try exact instDecidableTrue
  rename_i i
  refine decidable_of_iff (∀ x ∈ s.workers[i]?, ∀ o ∈ x.phase.outcome,
    ∀ m ∈ s.world.sup.core.state.messages x.turn.id,
      m.messageID = x.turn.message.messageID → m.status = .claimed ∨ m.status = .acked) ?_
  simp only [Option.mem_def, Phase.outcome_eq_some]
  exact ⟨fun h x o hx ho => h x hx o ho, fun h x hx o ho => h x o hx ho⟩

def firstStatus (s : System K) (id : GoString) : Option MsgStatus :=
  ((s.world.db.messages id)[0]?).map (·.status)

example : Event.AcksClaimed (System.initial ()) .start := by decide +kernel

end Aok.Runtime
