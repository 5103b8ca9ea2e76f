import Aok.Lib.JsonCompact
import Aok.Runtime.Histories

/-!
# What the gateway can deliver

`DeliverInbound` checks a message and then hands it to the mailbox under a key made from the
channel, the outside identity and the sequence number, in an envelope that carries the payload
and its text. The mailbox has limits of its own on both. A key that is too long, an envelope
that outgrows its limit or the nesting of JSON, and a message that another sender put under
the same key are refused there, and will be at every later attempt.
-/

namespace Aok.Runtime
open Lib Lib.Utf8 Lib.JsonText Lib.JsonValue Lib.Command Lib.Journal

/-! ## Envelopes -/

def NestsWithin (depth : ℕ) (s : Bytes) : Prop :=
  ∃ p ∈ parseValue (3 * s.length + 3) depth s, skipSpace p.2 = []

theorem NestsWithin.reads {depth : ℕ} {s : Bytes} (h : NestsWithin depth s) :
    ∃ v, Reads depth v (compact s) := by
  obtain ⟨⟨v, rest⟩, hp, hrest⟩ := h
  obtain ⟨t, ht, hreads⟩ := (compactKeeps _).value _ _ _ _ hp
  rw [compactFrom_of_skipSpace_nil hrest, List.append_nil] at ht
  exact ⟨v, by rwa [compact, ht]⟩

def envelopeParts (channelID externalID : GoString) (sequence : ℤ) (payload : Bytes) (v : Value) :
    List Part :=
  [⟨"text", .str (sanitize (readField (lit "text") asString [] payload).1),
      quote (readField (lit "text") asString [] payload).1⟩,
    ⟨"taint", .num (dec taintExternal.toNat), dec taintExternal.toNat⟩,
    ⟨"source", .str (sanitize (lit "gateway")), quote (lit "gateway")⟩,
    ⟨"channel", .str (sanitize channelID), quote channelID⟩,
    ⟨"external_id", .str (sanitize externalID), quote externalID⟩,
    ⟨"sequence", .num (decInt sequence), decInt sequence⟩,
    ⟨"payload", v, compact payload⟩]

theorem validJson_envelopeText {channelID externalID : GoString} {sequence : ℤ} {payload : Bytes}
    (h : NestsWithin (maxDepth - 1) payload) :
    validJson (envelopeText channelID externalID sequence payload) = true := by
  obtain ⟨v, hv⟩ := h.reads
  have hparts : ∀ p ∈ envelopeParts channelID externalID sequence payload v,
      Reads (maxDepth - 1) p.value p.text := by
    simp only [envelopeParts, List.forall_mem_cons, List.not_mem_nil, false_implies, implies_true,
      and_true]
    exact ⟨reads_quote_sanitize _, reads_dec _, reads_quote_sanitize _, reads_quote_sanitize _,
      reads_quote_sanitize _, reads_decInt _, hv⟩
  have hread := reads_object (by simp [envelopeParts]) hparts
  have hparse := Reads.parse_eq (show Reads maxDepth _ _ from hread)
  have htext : envelopeText channelID externalID sequence payload =
      object ((envelopeParts channelID externalID sequence payload v).map Part.member) := rfl
  rw [validJson, htext, hparse]
  rfl

/-! ## Delivery -/

/-- What the mailbox asks of an inbound message: its key is short enough, its envelope neither too
large nor too deep, and what is under its key is this message. -/
structure Deliverable (s : State) (id channelID externalID : GoString) (sequence : ℤ)
    (payload : Bytes) : Prop where
  key : channelID.length + externalID.length + (decInt sequence).length + 5 ≤ 256
  size : (envelopeText channelID externalID sequence payload).length ≤ 6 * maxTextBytes
  nesting : NestsWithin (maxDepth - 1) payload
  unused : ∀ m ∈ s.messages id, m.idempotencyKey = gatewayKey channelID externalID sequence →
    m.payload = compact (envelopeText channelID externalID sequence payload)

variable {K : Type} {env : Env K} {w : World K} {channelID externalID : GoString} {sequence : ℤ}
  {payload : Bytes} {c : MessageConversation} {a : Application}

theorem length_gatewayKey : (gatewayKey channelID externalID sequence).length =
    channelID.length + externalID.length + (decInt sequence).length + 5 := by
  have h3 : (lit "gw:").length = 3 := by decide
  have h1 : (lit ":").length = 1 := by decide
  simp only [gatewayKey, List.length_append, h3, h1]
  omega

/-- The message is in the mailbox, under its key and in its envelope, and the cursor is on it. -/
structure Delivered (id channelID externalID : GoString) (sequence : ℤ) (payload : Bytes)
    (m : MailboxMessage) (s : State) : Prop where
  mem : m ∈ s.messages id
  key : m.idempotencyKey = gatewayKey channelID externalID sequence
  payload : m.payload = compact (envelopeText channelID externalID sequence payload)
  cursor : ∃ c, s.conversation channelID externalID = some c ∧ c.lastSequence = sequence

theorem conversation_insert {s : State} {x : MessageConversation} (hc : x.channelID = channelID)
    (he : x.externalID = externalID) :
    { s with conversations := s.conversations.insert (conversationKey channelID externalID) x
      }.conversation channelID externalID = some x := by
  simp [State.conversation, hc, he]

theorem conversation_ids {s : State} (h : s.conversation channelID externalID = some c) :
    c.channelID = channelID ∧ c.externalID = externalID := by
  unfold State.conversation at h
  split at h
  · split_ifs at h with hids
    cases h
    exact hids
  · cases h

theorem deliverInbound_ne_ok (hlong : 256 < (gatewayKey channelID externalID sequence).length)
    (hseq : ∀ c, w.sup.core.state.conversation channelID externalID = some c →
      c.lastSequence < sequence) (m : MailboxMessage) :
    (deliverInbound env channelID externalID sequence payload w).1 ≠ .ok m := by
  have hends : Ends (deliverInbound env channelID externalID sequence payload) w
      (fun _ _ => False) (fun _ _ => True) fun _ => True := by
    unfold deliverInbound
    rw [ends_bind, ends_getState, ends_bind, ends_require]
    refine ⟨fun _ => ?_, fun _ => trivial⟩
    cases hconv : w.sup.core.state.conversation channelID externalID with
    | none => trivial
    | some c =>
      dsimp only
      rw [ends_bind, ends_require]
      refine ⟨fun _ => ?_, fun _ => trivial⟩
      rw [if_neg (not_le.mpr (hseq c hconv)), ends_bind]
      have hno : ∀ {x : Bytes}, ¬ Sendable w.sup.core.state c.applicationID
          (gatewayKey channelID externalID sequence) x :=
        fun hs => absurd hs.key.2 (not_le.mpr hlong)
      exact enqueueLocked_exact (fun _ hs => absurd hs hno) (fun hs => absurd hs hno)
        fun _ _ => trivial
  exact fun h => hends.value h

instance (depth : ℕ) (s : Bytes) : Decidable (NestsWithin depth s) :=
  inferInstanceAs (Decidable (∃ p ∈ parseValue (3 * s.length + 3) depth s, skipSpace p.2 = []))

instance (s : State) (id : GoString) :
    Decidable (Deliverable s id channelID externalID sequence payload) :=
  decidable_of_iff (channelID.length + externalID.length + (decInt sequence).length + 5 ≤ 256 ∧
    (envelopeText channelID externalID sequence payload).length ≤ 6 * maxTextBytes ∧
    NestsWithin (maxDepth - 1) payload ∧
    ∀ m ∈ s.messages id, m.idempotencyKey = gatewayKey channelID externalID sequence →
      m.payload = compact (envelopeText channelID externalID sequence payload))
    ⟨fun ⟨h₁, h₂, h₃, h₄⟩ => ⟨h₁, h₂, h₃, h₄⟩, fun h => ⟨h.key, h.size, h.nesting, h.unused⟩⟩

namespace Sample

/-- An application with a channel and a conversation of an outside identity on it. -/
def bound (externalID : GoString) : List (Event Unit) :=
  create ++ [.call (.createChannel admin line (lit "im")),
    .call (.bindConversation admin line externalID app)]

def longest : GoString := List.replicate 256 0x65

example : runs (bound peer) := by decide +kernel

end Sample

open Sample

end Aok.Runtime
