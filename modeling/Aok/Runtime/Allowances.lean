import Aok.Runtime.LoadPaths
import Aok.Runtime.System

/-!
# What is assumed of a step

Results about runs hold under assumptions on the arguments of calls and on the state in which
a step is taken: callers pass valid UTF-8 (`U`), fresh application ids are new, the step keeps
to its terms (`S`), and no operation fails between an edit and its commit (`P`).
-/

namespace Aok.Runtime
open Lib Lib.Utf8 Lib.JsonText Lib.JsonValue Lib.Command Lib.Journal

variable {K : Type}

def Call.Clear (U : Prop) : Call → Prop
  | createApplication p _ _ | forkApplication p _ _ _ | auditContextPages p _
  | retireApplication p _ | setApplicationState p _ _ | setTokenLimit p _ _ | claimMailbox p _
  | ackMailbox p _ _ | mountHostfs p _ _ _ _ _ | importArtifact p _ _ _ => Runtime.Clear U p
  | setRoutePolicy p _ l => Runtime.Clear U p ∧ ∀ x ∈ l, Runtime.Clear U x
  | addTimer p _ t _ _ _ => Runtime.Clear U p ∧ Runtime.Clear U t
  | enqueue p _ k _ => Runtime.Clear U p ∧ Runtime.Clear U k
  | checkToken p i o a _ =>
    Runtime.Clear U p ∧ Runtime.Clear U i ∧ Runtime.Clear U o ∧ Runtime.Clear U a
  | revokeCapabilityToken p t _ => Runtime.Clear U p ∧ ∀ x ∈ t.caveats, Runtime.Clear U x
  | exportApplication p _ t _ _ r => Runtime.Clear U p ∧ Runtime.Clear U t ∧ Runtime.Clear U r
  | settleConfirmation p r _ => Runtime.Clear U p ∧ Runtime.Clear U r
  | recordCosignature p cp => Runtime.Clear U p ∧ Runtime.Clear U cp.signer
  | createChannel p c k => Runtime.Clear U p ∧ Runtime.Clear U c ∧ Runtime.Clear U k
  | revokeChannel p c => Runtime.Clear U p ∧ Runtime.Clear U c
  | bindConversation p c x _ => Runtime.Clear U p ∧ Runtime.Clear U c ∧ Runtime.Clear U x
  | deliverInbound c x _ _ => Runtime.Clear U c ∧ Runtime.Clear U x
  | reply p i m => Runtime.Clear U p ∧ Runtime.Clear U i ∧ Runtime.Clear U m
  | ackOutbox p e r => Runtime.Clear U p ∧ Runtime.Clear U e ∧ Runtime.Clear U r
  | unmountHostfs p m => Runtime.Clear U p ∧ Runtime.Clear U m
  | commitImport p _ k _ => Runtime.Clear U p ∧ Runtime.Clear U k
  | webRecord p i k u _ =>
    Runtime.Clear U p ∧ Runtime.Clear U i ∧ Runtime.Clear U k ∧ Runtime.Clear U u
  | addLSFSBinding p _ b _ _ | setLSFSBindingEnabled p _ b _ =>
    Runtime.Clear U p ∧ Runtime.Clear U b
  | setTurnConcurrency _ | claimOutbox _ _ | setKernelBridge => True

def Call.IsFresh (env : Env K) (w : World K) : Call → Prop
  | createApplication _ _ _ | forkApplication _ _ _ _ => Fresh env w
  | _ => True

def Call.IsReady (env : Env K) (w : World K) : Call → Prop
  | createApplication _ o k => Accepted o k → ContextReady w (createContext env o)
  | forkApplication _ i o k => Accepted o k → ∀ parent f,
      w.sup.core.state.applications[i]? = some parent → env.random w.tick = some f →
      ContextReady w (forkContext env parent.ownerAgent parent.contextID o
        (lit "fork:" ++ newApplicationID ((List.range 16).map f)))
  | exportApplication _ i _ c e r => Escalates env w i c e r → QueueOpen env w
  | _ => True

def Call.Moves (a b : MsgStatus) : Call → Prop
  | claimMailbox _ _ => a = .pending ∧ b = .claimed
  | ackMailbox _ _ _ => a = .claimed ∧ b = .acked
  | retireApplication _ _ => (a = .pending ∨ a = .claimed) ∧ b = .expired
  | _ => False

def Call.Writes (d : Desk) : Call → Prop
  | reply _ _ _ | claimOutbox _ _ | ackOutbox _ _ _ => d = .outbox
  | exportApplication _ _ _ _ e r => d = .confirmations ∧ (e = true ∨ r ≠ [])
  | settleConfirmation _ _ _ => d = .confirmations
  | commitImport _ i _ _ => d = .transfers ∨ d = .taint i
  | claimMailbox _ i | webRecord _ i _ _ _ => d = .taint i
  | retireApplication _ i => d = .lifecycle i
  | bindConversation _ _ _ _ => d = .conversations
  | revokeCapabilityToken _ _ _ => d = .registry
  | mountHostfs _ _ _ _ _ _ | unmountHostfs _ _ => d = .mounts
  | createApplication _ _ _ | forkApplication _ _ _ _ => d = .identities
  | deliverInbound _ _ _ _ => d = .conversations ∨ d = .sources
  | enqueue _ _ _ x | addTimer _ _ _ _ _ x => d = .sources ∧ NamesGateway x
  | _ => False

variable {U P : Prop} {S : Terms} {env : Env K}

theorem discard_settled {α : Type} {c : Op K α} {b : Level} {w : World K}
    (h : Settled U S env P c b w) : Settled U S env P (discard c) b w :=
  Leaves.seq h fun _ _ _ hb _ => Leaves.note hb

theorem Call.exec_settled {c : Call} {w : World K} (hs : Sound U w) (hc : c.Clear U)
    (hf : c.IsFresh env w) (hr : P → c.IsReady env w) (hm : ∀ a b, c.Moves a b → S.moves a b)
    (hw : ∀ d, c.Writes d → S.writes d) :
    Settled U S env P (c.exec env) .clean w := by
  cases c with
  | createApplication => exact discard_settled (createApplication_settled hc hf (hw _ rfl) hr)
  | forkApplication => exact discard_settled (forkApplication_settled hs hc hf (hw _ rfl) hr)
  | auditContextPages => exact auditContextPages_settled hs hc
  | retireApplication =>
    exact retireApplication_settled hs hc ⟨hm _ _ ⟨.inl rfl, rfl⟩, hm _ _ ⟨.inr rfl, rfl⟩⟩ (hw _ rfl)
  | setRoutePolicy => exact discard_settled (setRoutePolicy_settled hs hc.1 hc.2)
  | setApplicationState => exact setApplicationState_settled hs hc
  | setTokenLimit => exact setTokenLimit_settled hs hc
  | setTurnConcurrency => exact setTurnConcurrency_settled
  | addTimer => exact addTimer_settled hs hc.1 hc.2
  | enqueue => exact discard_settled (enqueue_settled hs hc.1 hc.2)
  | claimMailbox =>
    exact discard_settled (claimMailbox_settled hs hc (hm _ _ ⟨rfl, rfl⟩) (hw _ rfl))
  | ackMailbox => exact ackMailbox_settled hs hc (hm _ _ ⟨rfl, rfl⟩)
  | checkToken => exact checkToken_settled hc.1 hc.2.1 hc.2.2.1 hc.2.2.2
  | revokeCapabilityToken => exact revokeCapabilityToken_settled hc.1 hc.2 (hw _ rfl)
  | exportApplication =>
    exact discard_settled (exportApplication_settled hs hc.1 hc.2.1 hc.2.2 hr)
  | settleConfirmation => exact discard_settled (settleConfirmation_settled hs hc.1 hc.2)
  | recordCosignature => exact recordCosignature_settled hs hc.1 hc.2
  | createChannel => exact discard_settled (createChannel_settled hc.1 hc.2.1 hc.2.2)
  | revokeChannel => exact revokeChannel_settled hc.1 hc.2
  | bindConversation => exact discard_settled (bindConversation_settled hs hc.1 hc.2.1 hc.2.2)
  | deliverInbound => exact discard_settled (deliverInbound_settled hs hc.1 hc.2)
  | reply => exact discard_settled (reply_settled hs hc.1 hc.2.1 hc.2.2 (hw _ rfl))
  | claimOutbox => exact discard_settled (claimOutbox_settled (hw _ rfl))
  | ackOutbox => exact ackOutbox_settled hc.1 hc.2.1 hc.2.2 (hw _ rfl)
  | mountHostfs => exact discard_settled (mountHostfs_settled hs hc (hw _ rfl))
  | unmountHostfs => exact unmountHostfs_settled hs hc.1 hc.2 (hw _ rfl)
  | commitImport =>
    exact discard_settled (stageTransfer_settled hs hc.1 hc.2 (hw _ (.inl rfl))
      (.inl (hw _ (.inr rfl))))
  | webRecord => exact webRecord_settled hc.1 hc.2.1 hc.2.2.1 hc.2.2.2 (hw _ rfl)
  | addLSFSBinding => exact addLSFSBinding_settled hs hc.1 hc.2
  | setLSFSBindingEnabled => exact setLSFSBindingEnabled_settled hs hc.1 hc.2
  | importArtifact => exact discard_settled (importArtifact_settled hs hc)
  | setKernelBridge => exact setKernelBridge_settled

def Event.Clear (U : Prop) : Event K → Prop
  | .call c => c.Clear U
  | .exportArtifact p _ k x => Runtime.Clear U p ∧ Runtime.Clear U k ∧ Runtime.Clear U x
  | _ => True

def Event.IsFresh (env : Env K) (s : System K) : Event K → Prop
  | .call c => c.IsFresh env s.world
  | _ => True

def Event.Spares (s : System K) : Event K → Prop
  | .work i => ∀ x o, s.workers[i]? = some x → x.phase = .finishing o →
      Runtime.Spares s.world.sup.core.state x.turn.id x.turn.message.messageID o.usage
  | _ => True

def Event.IsReady (env : Env K) (s : System K) : Event K → Prop
  | .call c => c.IsReady env s.world
  | .loopStep => s.loop = .lsfs → s.world.sup.kernel = false ∨ ∀ k, ¬ Posts s.world k
  | _ => True

def Event.Moves (s : System K) (a b : MsgStatus) : Event K → Prop
  | .start => (a = .claimed ∧ b = .pending) ∨ ((a = .pending ∨ a = .claimed) ∧ b = .expired)
  | .call c => c.Moves a b
  | .loopStep => (s.loop = .claiming ∧ a = .pending ∧ b = .claimed) ∨
      (∃ t, s.loop = .returning t) ∧ a = .claimed ∧ b = .pending
  | .work i => ∃ x, s.workers[i]? = some x ∧
      ((∃ cause, x.phase = .requeueing cause) ∧ a = .claimed ∧ b = .pending ∨
        (∃ o, x.phase = .finishing o) ∧ b = .acked ∧
          ∃ m ∈ s.world.sup.core.state.messages x.turn.id,
            m.messageID = x.turn.message.messageID ∧ m.status = a)
  | _ => False

def Event.Writes (s : System K) (d : Desk) : Event K → Prop
  | .call c => c.Writes d
  | .exportStage _ => d = .transfers
  | .loopStep => s.loop = .claiming ∧ ∃ i m, Chosen s.world i m ∧ d = .taint i
  | .work i => ∃ x t o, s.workers[i]? = some x ∧ x.phase = .folding t o ∧ d = .taint x.turn.id
  | _ => False

structure Allowed (U : Prop) (S : Terms) (P : Prop) (env : Env K) (s : System K) (e : Event K) :
    Prop where
  clear : e.Clear U
  boot : BootClear U env
  fresh : e.IsFresh env s
  spares : S.spares → e.Spares s
  moves : ∀ a b, e.Moves s a b → S.moves a b
  writes : ∀ d, e.Writes s d → S.writes d
  ready : P → e.IsReady env s

theorem Event.clear_false (e : Event K) : e.Clear False := by
  cases e with
  | call c => cases c <;> simp [Event.Clear, Call.Clear, Runtime.Clear]
  | _ => simp [Event.Clear, Runtime.Clear]

def Terms.all (spares : Prop) : Terms := ⟨spares, fun _ _ => True, fun _ => True⟩

theorem Allowed.ofClear {q : Prop} {s : System K} {e : Event K} (hf : e.IsFresh env s)
    (hc : e.Clear U) (hb : BootClear U env) (hs : q → e.Spares s) (hr : P → e.IsReady env s) :
    Allowed U (.all q) P env s e :=
  ⟨hc, hb, hf, hs, fun _ _ _ => trivial, fun _ _ => trivial, hr⟩

theorem Allowed.ofFresh {q : Prop} {s : System K} {e : Event K} (hf : e.IsFresh env s)
    (hs : q → e.Spares s) (hr : P → e.IsReady env s) : Allowed False (.all q) P env s e :=
  .ofClear hf e.clear_false (fun _ _ _ h => h.elim) hs hr

def Event.terms (s : System K) (e : Event K) : Terms :=
  ⟨False, fun a b => e.Moves s a b, fun d => e.Writes s d⟩

theorem Allowed.own {s : System K} {e : Event K} (hc : e.Clear U) (hb : BootClear U env)
    (hf : e.IsFresh env s) : Allowed U (e.terms s) False env s e :=
  ⟨hc, hb, hf, fun h => h.elim, fun _ _ h => h, fun _ h => h, fun h => h.elim⟩

theorem Allowed.ownFresh {s : System K} {e : Event K} (hf : e.IsFresh env s) :
    Allowed False (e.terms s) False env s e :=
  .own e.clear_false (fun _ _ _ h => h.elim) hf

instance (w : World K) : Decidable (Fresh env w) :=
  decidable_of_iff (∀ f ∈ env.random w.tick,
    w.sup.core.state.applications[newApplicationID ((List.range 16).map f)]? = none) Iff.rfl

instance (s : System K) (e : Event K) : Decidable (e.IsFresh env s) := by
  cases e with
  | call c => cases c <;> unfold Event.IsFresh Call.IsFresh <;> infer_instance
  | _ => exact instDecidableTrue

instance {U : Prop} [Decidable U] (s : GoString) : Decidable (Clear U s) :=
  inferInstanceAs (Decidable (U → valid s = true))

instance {U : Prop} [Decidable U] (e : Event K) : Decidable (e.Clear U) := by
  cases e with
  | call c => cases c <;> unfold Event.Clear Call.Clear <;> infer_instance
  | exportArtifact => exact inferInstanceAs (Decidable (_ ∧ _ ∧ _))
  | _ => exact instDecidableTrue

instance (c : Call) (d : Desk) : Decidable (c.Writes d) := by
  cases c <;> unfold Call.Writes <;> infer_instance

def World.isChoosable (w : World K) (id : GoString) : Bool :=
  decide (id ∉ w.sup.inflight) &&
    (w.sup.core.state.applications[id]?).any (fun a => a.state == .serving) &&
    (w.sup.core.state.messages id).any fun m => m.status == .pending

theorem isChoosable_iff {w : World K} {id : GoString} :
    w.isChoosable id = true ↔ ∃ m, Chosen w id m := by
  simp only [World.isChoosable, Bool.and_eq_true, decide_eq_true_eq, Option.any_eq_true, beq_iff_eq,
    List.any_eq_true]
  constructor
  · rintro ⟨⟨hfree, ha⟩, m, hm, hp⟩
    exact ⟨_, hfree, ha, m, hm, hp, rfl⟩
  · rintro ⟨_, hfree, ha, m, hm, hp, -⟩
    exact ⟨⟨hfree, ha⟩, m, hm, hp⟩

def Desk.taint? : Desk → Option GoString
  | .taint id => some id
  | _ => none

theorem Desk.taint?_eq_some {d : Desk} {id : GoString} : d.taint? = some id ↔ d = .taint id := by
  cases d <;> simp [Desk.taint?]

def Phase.isFolding : Phase → Bool
  | .folding _ _ => true
  | _ => false

theorem Phase.isFolding_iff {p : Phase} : p.isFolding = true ↔ ∃ t o, p = .folding t o := by
  cases p <;> simp [Phase.isFolding]

instance (s : System K) (e : Event K) (d : Desk) : Decidable (e.Writes s d) := by
  cases e with
  | call c => exact inferInstanceAs (Decidable (c.Writes d))
  | exportStage j => exact inferInstanceAs (Decidable (d = .transfers))
  | loopStep =>
    refine decidable_of_iff (s.loop = .claiming ∧ ∃ i ∈ d.taint?, s.world.isChoosable i = true) ?_
    simp only [Event.Writes, isChoosable_iff, Option.mem_def, Desk.taint?_eq_some]
    exact ⟨fun ⟨hl, i, hd, m, hm⟩ => ⟨hl, i, m, hm, hd⟩, fun ⟨hl, i, m, hm, hd⟩ => ⟨hl, i, hd, m, hm⟩⟩
  | work i =>
    refine decidable_of_iff (∃ x ∈ s.workers[i]?, x.phase.isFolding = true ∧ d = .taint x.turn.id) ?_
    simp only [Event.Writes, Phase.isFolding_iff, Option.mem_def]
    exact ⟨fun ⟨x, hx, ⟨t, o, ho⟩, hd⟩ => ⟨x, t, o, hx, ho, hd⟩,
      fun ⟨x, t, o, hx, ho, hd⟩ => ⟨x, hx, ⟨t, o, ho⟩, hd⟩⟩
  | _ => exact instDecidableFalse

instance (s : State) (id messageID : GoString) (usage : Usage) :
    Decidable (Runtime.Spares s id messageID usage) :=
  decidable_of_iff (∀ a ∈ s.applications[id]?, a.state = .tombstoned → a.tokenLimit ≠ 0 →
    s.results[messageID]? = none →
    saturatingAdd a.tokensUsed (saturatingAdd (chargedUsage s messageID usage).inputTokens
      (chargedUsage s messageID usage).outputTokens) < a.tokenLimit) Iff.rfl

def Phase.outcome : Phase → Option TurnOutcome
  | .finishing o => some o
  | _ => none

theorem Phase.outcome_eq_some {p : Phase} {o : TurnOutcome} :
    p.outcome = some o ↔ p = .finishing o := by
  cases p <;> simp [Phase.outcome]

instance (s : System K) (e : Event K) : Decidable (e.Spares s) := by
  cases e with
  | work i =>
    refine decidable_of_iff (∀ x ∈ s.workers[i]?, ∀ o ∈ x.phase.outcome,
      Runtime.Spares s.world.sup.core.state x.turn.id x.turn.message.messageID o.usage) ?_
    simp only [Option.mem_def, Phase.outcome_eq_some]
    exact ⟨fun h x o hx ho => h x hx o ho, fun h x hx o ho => h x o hx ho⟩
  | _ => exact instDecidableTrue

end Aok.Runtime
