import Aok.Runtime.ControlPaths

/-!
# Turns follow their trails

Claims, the two durable phases of a turn, and the return of a claim.
-/

namespace Aok.Runtime
open Lib Lib.Utf8 Lib.JsonText Lib.JsonValue Lib.Command Lib.Journal Relation Application

variable {K : Type} {U P : Prop} {S : Terms} {env : Env K} {b : Level} {w : World K}
variable {id key : GoString}
variable {messageID : GoString} {m : MailboxMessage} {a : Application} {usage : Usage}
  {staged : TurnResult} {route : RouteInfo}

theorem requeueClaim_settled (hs : Sound U w) (hmove : S.moves .claimed .pending) :
    Settled U S env P (requeueClaim env id messageID) .clean w := by
  refine .ask ?_
  split
  · exact .fail
  next m hm =>
    split
    next hclaimed =>
      have hmid : m.messageID = messageID := by simpa using List.find?_some hm
      obtain ⟨ms, hms, hmem⟩ := State.mem_messages (List.mem_of_find?_eq_some hm)
      obtain ⟨hknown, hproper⟩ := hs.live.named.mailbox id ms hms
      obtain ⟨a, ha⟩ := Option.isSome_iff_exists.mp hknown
      refine .editState (.messages id _ fun l hl => forall₂_setFirst .refl fun x hx => ?_) ?_
      · -- the first message with this id is the one that was looked at
        have hx' : (w.sup.core.state.messages id).find? (fun m => m.messageID = messageID) = some x := by
          rwa [State.messages, hl]
        obtain rfl := Option.some.inj (hm.symm.trans hx')
        exact .withStatus (fun _ => by simp [hclaimed, MsgStatus.isCharged]) (.inr (hclaimed ▸ hmove))
      · exact .audit ⟨clear_lit _, hs.clear_id ha, clear_lit _,
          .of_valid (hmid ▸ (hproper m hmem).valid_messageID), clear_lit _, clear_lit _⟩
          fun _ _ => .persist_last
    · exact .pure

theorem foldTaint_settled {taint : UInt64} (htaint : S.writes (.taint id)) :
    Settled U S env P (foldTaint env id taint) .clean w := by
  unfold foldTaint
  split
  · exact .pure
  · exact .accumulateTaint (.inl htaint) .ignorePersist_last

def World.release (id : GoString) (w : World K) : World K :=
  { w with sup := { w.sup with inflight := w.sup.inflight.erase id } }

def World.take (id : GoString) (time : ℤ) (w : World K) : World K :=
  { w with sup := { w.sup with
      lastClaim := w.sup.lastClaim.insert id time, inflight := insert id w.sup.inflight } }

structure Chosen (w : World K) (id : GoString) (m : MailboxMessage) : Prop where
  free : id ∉ w.sup.inflight
  serving : ∃ a, w.sup.core.state.applications[id]? = some a ∧ a.state = .serving
  message : ∃ x ∈ w.sup.core.state.messages id, x.status = .pending ∧ m = x.claimForTurn

theorem mem_eligible {s : Supervisor} {time : ℤ} {ids : List GoString} {p : GoString × Application}
    (h : p ∈ s.eligible time ids) :
    s.core.state.applications[p.1]? = some p.2 ∧ s.isEligible time p.1 p.2 = true := by
  obtain ⟨hmem, helig⟩ := List.mem_filter.mp h
  rw [List.mem_insertionSort] at hmem
  obtain ⟨i, -, hi⟩ := List.mem_filterMap.mp hmem
  obtain ⟨a, ha, rfl⟩ := Option.map_eq_some_iff.mp hi
  exact ⟨ha, helig⟩

theorem chooseTurn_mem {n : UInt64} {l : List Candidate} {c : Candidate}
    (h : chooseTurn n l = some c) : c ∈ l := by
  unfold chooseTurn at h
  split at h
  · next hf =>
    cases h
    exact List.mem_of_find?_eq_some hf
  · exact List.mem_of_head? h

theorem chosen_of_candidate {time : ℤ} {ids : List GoString} {c : Candidate}
    (h : c ∈ w.sup.candidates time ids) :
    Chosen w c.id c.message.claimForTurn ∧
      ∃ x ∈ w.sup.core.state.messages c.id, x.status = .pending ∧ c.message = x := by
  obtain ⟨p, hp, hc⟩ := List.mem_filterMap.mp h
  obtain ⟨m, hm, rfl⟩ := Option.map_eq_some_iff.mp hc
  obtain ⟨ha, helig⟩ := mem_eligible hp
  have hmem := List.mem_of_find?_eq_some hm
  have hpending : m.status = .pending := by simpa using List.find?_some hm
  simp only [Supervisor.isEligible, Bool.and_eq_true, beq_iff_eq, decide_eq_true_eq] at helig
  exact ⟨⟨helig.1.2, ⟨p.2, ha, helig.1.1.1⟩, m, hmem, hpending, rfl⟩, m, hmem, hpending, rfl⟩

theorem MsgStep.claimForTurn (hp : m.status = .pending)
    (hmove : S.moves .pending .claimed) : MsgStep S m m.claimForTurn :=
  ⟨rfl, rfl, rfl, rfl, fun _ => by simp [hp, MsgStatus.isCharged], .inr (hp ▸ hmove)⟩

theorem recordClaim_settled (hs : Sound U w)
    (ha : w.sup.core.state.applications[id]? = some a) (hm : valid m.messageID = true)
    (hmove : S.moves .pending .claimed) (htaint : S.writes (.taint id)) :
    Settled U S env P (recordClaim env id m) .clean w := by
  refine .accumulateTaint (.inl htaint) (.editState (.messages id _ fun l _ =>
    forall₂_setFirst .refl fun x hx => .claimForTurn (by simpa using List.find?_some hx) hmove) ?_)
  · exact .audit ⟨clear_lit _, hs.clear_id ha, clear_lit _, .of_valid hm, clear_lit _, clear_nil⟩
      fun _ _ => .persist_last

theorem claimTurn_ends {Q : Option (GoString × MailboxMessage) → World K → Prop}
    {E : Err → World K → Prop} {C : World K → Prop} (hs : Sound U w)
    (hmove : S.moves .pending .claimed)
    (htaint : ∀ i m, Chosen w i m → S.writes (.taint i))
    (hnone : ∀ w', Path U S env (.clean, w) (.clean, w') → Q none w')
    (hsome : ∀ i m t w', Path U S env (.clean, w) (.clean, w') → Chosen w i m → valid m.messageID = true →
      Q (some (i, m)) (w'.take i t))
    (hE : ∀ e w', Path U S env (.clean, w) (.clean, w') → E e w')
    (hC : ∀ b' w', Path U S env (.clean, w) (b', w') → C w') : Ends (claimTurn env) w Q E C := by
  simp only [claimTurn, now, mapKeys, ends_bind, ends_question, ends_getState, ends_ask]
  split
  · exact hnone _ .tick
  next c hc =>
    obtain ⟨hchosen, x, hx, hpending, rfl⟩ := chosen_of_candidate (chooseTurn_mem hc)
    obtain ⟨a, ha, -⟩ := hchosen.serving
    obtain ⟨ms, hms, hmem⟩ := State.mem_messages hx
    have hvalid := ((hs.live.named.mailbox c.id ms hms).2 c.message hmem).valid_messageID
    have hstart : Path U S env (.clean, w) (.clean, { w with tick := w.tick + 1 + 1 }) :=
      .tick
    rw [ends_bind]
    refine (recordClaim_settled (S := S) (P := True) (hs.path hstart) ha hvalid hmove
      (htaint _ _ hchosen)).mono ?_ ?_ ?_
    · rintro _ w' ⟨b', hb', hp⟩
      cases hb'.eq_clean
      simp only [editSupervisor, ends_bind, ends_modify, ends_pure]
      refine hsome c.id _ _ w' (hstart.trans hp) ?_ hvalid
      exact ⟨hchosen.free, hchosen.serving, hchosen.message⟩
    · rintro e w' ⟨b', hb', hp⟩
      cases hb'.eq_clean
      exact hE e w' (hstart.trans hp)
    · rintro w' ⟨b', hp⟩
      exact hC b' w' (hstart.trans hp)

/-- What a turn is charged with: the usage of the staged record if there is one. -/
def chargedUsage (s : State) (messageID : GoString) (usage : Usage) : Usage :=
  ((s.prepared[messageID]?).map (·.usage)).getD usage

/-- The turn, if it is committed now, is not one of a retired application that reaches its token
limit with it. -/
def Spares (s : State) (id messageID : GoString) (usage : Usage) : Prop :=
  ∀ a, s.applications[id]? = some a → a.state = .tombstoned → a.tokenLimit ≠ 0 →
    s.results[messageID]? = none →
    saturatingAdd a.tokensUsed (saturatingAdd (chargedUsage s messageID usage).inputTokens
      (chargedUsage s messageID usage).outputTokens) < a.tokenLimit

theorem bill_tokensUsed (a : Application) (usage : Usage) (failed : Bool) :
    (a.bill usage failed).tokensUsed =
      saturatingAdd a.tokensUsed (saturatingAdd usage.inputTokens usage.outputTokens) := by
  simp only [bill]

theorem charge_tombstoned {failed : Bool}
    (ha : a.state = .tombstoned) (hlimit : a.tokenLimit ≠ 0 →
      (a.bill usage failed).tokensUsed < a.tokenLimit) :
    (a.charge usage failed).1.state = .tombstoned := by
  have hx : (a.bill usage failed).isExhausted = false := by
    by_contra hx
    simp only [isExhausted, Bool.not_eq_false, Bool.and_eq_true] at hx
    have hlt := hlimit (UInt64.ne_of_lt (of_decide_eq_true hx.1)).symm
    exact absurd (of_decide_eq_true hx.2) (UInt64.not_le.mpr hlt)
  have hstate : (a.bill usage failed).state = .tombstoned := ha
  simp only [charge, hx, hstate, if_true, Bool.false_eq_true, if_false]

theorem charge_fields (a : Application) (usage : Usage) (failed : Bool) :
    (a.charge usage failed).1.applicationID = a.applicationID ∧
      (a.charge usage failed).1.tokensUsed = (a.bill usage failed).tokensUsed ∧
      (a.charge usage failed).1.tokenLimit = a.tokenLimit ∧
      (a.charge usage failed).1.taintBits = a.taintBits ∧
      SameIdentity a (a.charge usage failed).1 := by
  unfold charge
  dsimp only
  split
  · exact ⟨rfl, rfl, rfl, rfl, rfl, rfl, .inl rfl⟩
  · split <;> exact ⟨rfl, rfl, rfl, rfl, rfl, rfl, .inl rfl⟩

theorem charge_state (a : Application) (usage : Usage) (failed : Bool) :
    (a.charge usage failed).1.state = .frozen ∨ (a.charge usage failed).1.state = a.state := by
  unfold charge
  dsimp only
  split
  · exact .inl rfl
  · split <;> exact .inr rfl

theorem charge_serving {failed : Bool}
    (h : (a.charge usage failed).1.state = .serving) : (a.charge usage failed).1.IsWithin := by
  revert h
  unfold charge
  dsimp only
  split
  · exact fun h => nomatch h
  next hx =>
    have hwithin : (a.bill usage failed).IsWithin :=
      isWithin_iff.mpr (Bool.eq_false_iff.mpr hx)
    split
    · exact fun _ => hwithin
    · exact fun _ => hwithin

/-- What is assumed of the state in which a turn is finished. -/
structure Finishable (S : Terms) (s : State) (id messageID : GoString) (usage : Usage) : Prop where
  spares : S.spares → Spares s id messageID usage
  moves : ∀ m ∈ s.messages id, m.messageID = messageID → m.status = .acked ∨ S.moves m.status .acked

theorem turnCommit_settlement {s : State} {checkpoint : GoString} {hit : CacheHit}
    {denied overflowed : Bool} {n : ℕ} {t : ℤ} (ha : s.applications[id]? = some a)
    (hnew : s.results[messageID]? = none) (hm : valid messageID = true)
    (hspare : S.spares → a.state = .tombstoned → a.tokenLimit ≠ 0 → saturatingAdd a.tokensUsed
      (saturatingAdd staged.usage.inputTokens staged.usage.outputTokens) < a.tokenLimit)
    (hmoves : ∀ m ∈ s.messages id, m.messageID = messageID →
      m.status = .acked ∨ S.moves m.status .acked) :
    Settlement S s id a
      (turnCommit id messageID a staged checkpoint route hit denied overflowed n t) := by
  obtain ⟨hid, hused, hlimit, htaint, hidentity⟩ :=
    charge_fields a staged.usage (staged.status = .failed)
  refine ⟨ha, hnew, hm, rfl, ?_, ?_, fun hS htomb => ?_, ?_, ?_, ?_, ?_, ⟨?_, ?_, ?_⟩, hmoves⟩
  · simpa only [turnCommit, apply_ite applicationID, ite_self] using hid
  · rw [bill_tokensUsed] at hused
    simpa only [turnCommit, apply_ite tokensUsed, ite_self] using hused
  · have hstate : (a.charge staged.usage (staged.status = .failed)).1.state = .tombstoned :=
      charge_tombstoned htomb (hspare hS htomb)
    simpa only [turnCommit, apply_ite state, ite_self] using hstate
  · simpa only [turnCommit, apply_ite tokenLimit, ite_self] using hlimit
  · have hserving := @charge_serving a staged.usage (staged.status = .failed)
    simpa only [turnCommit, Application.IsWithin, apply_ite state,
      apply_ite tokenLimit, apply_ite tokensUsed, ite_self] using hserving
  · simpa only [turnCommit, apply_ite taintBits, ite_self] using htaint
  · simp only [turnCommit, isRetired, apply_ite state, ite_self]
    rcases charge_state a staged.usage (staged.status = .failed) with hstate | hstate <;>
      simp [hstate]
  · simpa only [turnCommit, apply_ite ownerAgent, ite_self] using hidentity.ownerAgent
  · simpa only [turnCommit, apply_ite contextID, ite_self] using hidentity.contextID
  · simpa only [turnCommit, apply_ite kernelID, ite_self] using hidentity.kernelID

theorem clear_turnStatus (status : TurnStatus) : Clear U (lit "turn." ++ lit status.text) :=
  (clear_lit _).append (clear_lit _)

theorem settleTurn_settled {hit : CacheHit} {denied overflowed : Bool} (hs : Sound U w)
    (ha : w.sup.core.state.applications[id]? = some a)
    (hnew : w.sup.core.state.results[m.messageID]? = none) (hm : valid m.messageID = true)
    (hspare : S.spares → a.state = .tombstoned → a.tokenLimit ≠ 0 → saturatingAdd a.tokensUsed
      (saturatingAdd staged.usage.inputTokens staged.usage.outputTokens) < a.tokenLimit)
    (hmoves : ∀ x ∈ w.sup.core.state.messages id, x.messageID = m.messageID →
      x.status = .acked ∨ S.moves x.status .acked) :
    Settled U S env P (settleTurn env id m a staged route hit denied overflowed) .clean w := by
  refine .contextTx (fun _ _ => ContextStore.exec_grows (c := .append _ _ _ _)) fun _ s n => ?_
  refine .contextTx (fun _ _ => ContextStore.exec_grows (c := .checkpoint _ _ _)) fun checkpoint s' n' => ?_
  refine .now fun t _ => .ask ?_
  refine .editState (.settle id a _ (turnCommit_settlement ha hnew hm hspare hmoves)) ?_
  refine .memory rfl rfl rfl (.audit ?_ fun _ _ => .persist_last)
  exact ⟨clear_lit _, hs.clear_id ha, clear_turnStatus _, .of_valid hm, clear_lit _, clear_nil⟩

theorem stagedResult_usage {text : GoString} {hit : CacheHit} {e : Option Err} :
    (stagedResult id messageID text usage route hit e).usage = usage := by
  cases e with
  | some e => rfl
  | none =>
    unfold stagedResult
    dsimp only
    split <;> rfl

theorem Leaves.stage {α : Type} {D : α → Level → Prop}
    {k : Unit → Op K α} (hm : valid messageID = true)
    (hnew : w.sup.core.state.results[messageID]? = none)
    (h : ∀ w', Path U S env (b, w) (b ⊔ .main, w') →
      w'.sup.core.state.applications = w.sup.core.state.applications ∧
        w'.sup.core.state.results = w.sup.core.state.results ∧
        w'.sup.core.state.mailbox = w.sup.core.state.mailbox →
      Leaves U S env D P (k ()) (b ⊔ .main) w') :
    Leaves U S env D P ((Runtime.editState fun s =>
      { s with prepared := s.prepared.insert messageID staged }) >>= k) b w :=
  .editState (.stage messageID staged hm hnew)
    (h _ (.edit (.stage messageID staged hm hnew)) ⟨rfl, rfl, rfl⟩)

theorem finishReleased_settled {text : GoString}
    {e : Option Err} (hs : Sound U w) (hm : valid m.messageID = true)
    (hf : Finishable S w.sup.core.state id m.messageID usage) :
    Settled U S env P (finishReleased env id m text usage route e) .clean w := by
  refine .findApplication fun a ha => .ask ?_
  split
  · exact .pure
  next hnew =>
    have hnone : w.sup.core.state.results[m.messageID]? = none := by simpa using hnew
    dsimp only
    split
    next staged hstaged =>
      refine settleTurn_settled hs ha hnone hm (fun hS htomb hlimit => ?_) hf.moves
      simpa [chargedUsage, hstaged] using hf.spares hS a ha htomb hlimit hnone
    next hstaged =>
      refine .stage hm hnone fun w₁ hp₁ ⟨happs, hresults, hmail⟩ => .call (persistLocked_ends
        ⟨.clean, .tickCommit, ?_⟩ (fun _ => .tickRestore) ⟨_, .tick⟩)
      have hp₂ := hp₁.trans .tickCommit
      refine settleTurn_settled (hs.path hp₂) ?_ ?_ hm (fun hS htomb hlimit => ?_) ?_
      · exact happs ▸ ha
      · exact hresults ▸ hnone
      · rw [stagedResult_usage]
        simpa [chargedUsage, hstaged] using hf.spares hS a ha htomb hlimit hnone
      · change ∀ x ∈ w₁.sup.core.state.messages id, _
        unfold State.messages
        rw [hmail]
        exact hf.moves

theorem finishTurn_ends {text : GoString}
    {e : Option Err} (hs : Sound U w) (hm : valid m.messageID = true)
    (hf : Finishable S w.sup.core.state id m.messageID usage) :
    Ends (finishTurn env id m text usage route e) w
      (fun _ w' => Path U S env (.clean, w.release id) (.clean, w'))
      (fun _ w' => Path U S env (.clean, w.release id) (.clean, w'))
      (fun w' => ∃ b', Path U S env (.clean, w.release id) (b', w')) := by
  have hset : Settled U S env True (finishReleased env id m text usage route e) .clean
      (w.release id) := finishReleased_settled hs hm hf
  refine Ends.mono hset ?_ ?_ fun _ h => h
  · rintro _ w' ⟨b', hb', hp⟩
    cases hb'.eq_clean
    exact hp
  · rintro _ w' ⟨b', hb', hp⟩
    cases hb'.eq_clean
    exact hp

end Aok.Runtime
