import Aok.Runtime.Admissions

/-!
# The control plane follows its trails

Each operation of the control plane, from any sound world and with clear arguments,
makes only the listed changes and leaves nothing uncommitted. The exceptions are the
creation of an application whose context cannot be made, and the escalation of an export
into a full queue: they end with an edit that is neither committed nor rolled back.
-/

namespace Aok.Runtime
open Lib Lib.Utf8 Lib.JsonText Lib.JsonValue Lib.Command Lib.Journal List

variable {K : Type} {U P : Prop} {S : Terms} {env : Env K} {b : Level} {w : World K}
variable {principal id key : GoString}
variable {a : Application} {α : Type} {D : α → Level → Prop} {k : Unit → Op K α} {payload : Bytes}
  {messageID owner state requestID channelID externalID : GoString} {E : Err → World K → Prop}

theorem Sound.applicationID_eq (h : Sound U w)
    (ha : w.sup.core.state.applications[id]? = some a) : a.applicationID = id :=
  (h.live.named.applications id a ha).2

/-! ## Mailboxes -/

def Terms.Expires (S : Terms) : Prop := S.moves .pending .expired ∧ S.moves .claimed .expired

theorem MsgStep.expire (he : S.Expires) (m : MailboxMessage) : MsgStep S m m.expire := by
  unfold MailboxMessage.expire
  split_ifs with h
  · refine .withStatus (fun _ => h) (.inr ?_)
    cases hm : m.status with
    | pending => exact he.1
    | claimed => exact he.2
    | acked | expired => simp [hm, MsgStatus.isCharged] at h
  · exact .refl m

theorem forall₂_map {R : α → α → Prop} {f : α → α} (h : ∀ x, R x (f x)) (l : List α) :
    List.Forall₂ R l (l.map f) :=
  forall₂_map_right_iff.mpr (forall₂_same.mpr fun x _ => h x)

theorem forall₂_setFirst {R : α → α → Prop} {p : α → Bool} {f : α → α}
    (hrefl : ∀ x, R x x) {l : List α} (h : ∀ x, l.find? p = some x → R x (f x)) :
    List.Forall₂ R l (setFirst p f l) := by
  induction l with
  | nil => exact .nil
  | cons x xs ih =>
    by_cases hx : p x
    · rw [setFirst, if_pos hx]
      exact .cons (h x (find?_cons_of_pos hx)) (forall₂_same.mpr fun y _ => hrefl y)
    · rw [setFirst, if_neg hx]
      exact .cons (hrefl x) (ih fun y hy => h y (by rwa [find?_cons_of_neg hx]))

theorem Application.isWithin_iff : a.IsWithin ↔ a.isExhausted = false := by
  unfold Application.IsWithin Application.isExhausted
  rw [Bool.and_eq_false_iff]
  simp only [decide_eq_false_iff_not, UInt64.not_lt, UInt64.not_le]
  refine or_congr_left ⟨fun h => h ▸ UInt64.le_refl _, fun h => ?_⟩
  exact UInt64.le_antisymm h (UInt64.le_iff_toNat_le.mpr (Nat.zero_le _))

theorem isRetired_eq {a' : Application} (h : a'.state = a.state) : a'.isRetired = a.isRetired := by
  unfold Application.isRetired
  rw [h]

theorem AppStep.of_eq {a' : Application} (hid : a'.applicationID = a.applicationID)
    (hstate : a'.state = a.state) (hused : a'.tokensUsed = a.tokensUsed)
    (hlimit : a'.tokenLimit = a.tokenLimit) (htaint : a.taintBits ||| a'.taintBits = a'.taintBits)
    (hwrites : S.writes (.taint id) ∨ a'.taintBits = a.taintBits) (hi : SameIdentity a a') :
    AppStep S id a a' := by
  refine ⟨hid, hused, fun h => hstate.trans h, fun h => ?_, fun h hs => ?_, htaint, hwrites,
    .inr fun h => isRetired_eq hstate ▸ h, hi⟩
  · rw [hlimit]
    exact ⟨h, UInt64.le_refl _⟩
  · have hw := h (hstate ▸ hs)
    unfold Application.IsWithin at hw ⊢
    rwa [hlimit, hused]

theorem AppStep.leave {a' : Application} (hid : a'.applicationID = a.applicationID)
    (hused : a'.tokensUsed = a.tokensUsed) (hlimit : a'.tokenLimit = a.tokenLimit)
    (htaint : a'.taintBits = a.taintBits) (htomb : a.state = .tombstoned → a'.state = .tombstoned)
    (hs : a'.state ≠ .serving) (hwrites : S.writes (.lifecycle id)) (hi : SameIdentity a a') :
    AppStep S id a a' := by
  refine ⟨hid, hused, htomb, fun h => ?_, fun _ h => absurd h hs, ?_, .inr htaint, .inl hwrites, hi⟩
  · rw [hlimit]
    exact ⟨h, UInt64.le_refl _⟩
  · rw [htaint, UInt64.or_self]

theorem AppStep.addTaint (a : Application) {taint : UInt64} (h : S.writes (.taint id) ∨ taint = 0) :
    AppStep S id a (a.addTaint taint) := by
  refine .of_eq rfl rfl rfl rfl ?_ (h.imp_right fun h0 => ?_) ⟨rfl, rfl, .inl rfl⟩
  · rw [Application.addTaint, ← UInt64.or_assoc, UInt64.or_self]
  · rw [Application.addTaint, h0, UInt64.or_zero]

theorem Leaves.accumulateTaint {taint : UInt64} (hwrites : S.writes (.taint id) ∨ taint = 0)
    (h : Leaves U S env D P (k ()) (b ⊔ .main) (w.setCore (w.sup.core.withState fun s =>
      { s with applications := updateTable (Application.addTaint taint) id s.applications }))) :
    Leaves U S env D P (Runtime.accumulateTaint id taint >>= k) b w :=
  .editState (.application id _ fun a _ => .addTaint a hwrites) h

theorem enqueue_settled (hs : Sound U w) (hp : Clear U principal) (hk : Clear U key) :
    Settled U S env P (enqueue env principal id key payload) .clean w := by
  refine .require fun _ => .require fun _ => .ask (.call ?_)
  refine enqueueLocked_ends (S := S) (b := .clean) hs hp hk (fun m => ?_)
    (fun m w' hpath _ hlt => ?_) fun e => .refl
  · exact ⟨.clean, .refl, .ask (by simpa using .pure)⟩
  · refine ⟨.main, hpath, .ask ?_⟩
    rw [if_pos hlt.ne']
    exact .persist fun _ => .pure

theorem claimMailbox_settled (hs : Sound U w) (hp : Clear U principal)
    (hmove : S.moves .pending .claimed) (htaint : S.writes (.taint id)) :
    Settled U S env P (claimMailbox env principal id) .clean w := by
  refine .findApplication fun a ha => .require fun _ => .ask ?_
  dsimp only
  split_ifs
  · exact .pure
  refine .editState (.messages id _ fun ms _ => forall₂_map (fun m => ?_) ms)
    (.accumulateTaint (.inl htaint) ?_)
  · split_ifs with hm
    · exact .withStatus (fun _ => by simp [hm, MsgStatus.isCharged]) (.inr (hm ▸ hmove))
    · exact .refl m
  · have hid := hs.clear_id ha
    exact .audit ⟨hp, hid, clear_lit _, hid, clear_lit _, clear_nil⟩ fun _ _ =>
      .persist fun _ => .pure

theorem ackMailbox_settled (hs : Sound U w) (hp : Clear U principal)
    (hmove : S.moves .claimed .acked) :
    Settled U S env P (ackMailbox env principal id messageID) .clean w := by
  refine .ask ?_
  split
  · exact .fail
  next m hm =>
    split_ifs
    · exact .pure
    refine .require fun hclaimed => .editState (.messages id _ fun ms hms => ?_) ?_
    · rw [State.messages_of_get hms] at hm
      refine forall₂_setFirst .refl fun x hx => .withStatus (by simp [MsgStatus.isCharged]) (.inr ?_)
      cases hm.symm.trans hx
      exact hclaimed ▸ hmove
    · obtain ⟨ms, hms, hmem⟩ := State.mem_messages (mem_of_find?_eq_some hm)
      obtain ⟨hknown, hproper⟩ := hs.live.named.mailbox id ms hms
      obtain ⟨a, ha⟩ := Option.isSome_iff_exists.mp hknown
      have hmid : m.messageID = messageID := by simpa using find?_some hm
      refine .audit ⟨hp, hs.clear_id ha, clear_lit _, ?_, clear_lit _, clear_nil⟩ fun _ _ =>
        .persist_last
      exact hmid ▸ .of_valid (hproper m hmem).valid_messageID

/-! ## Applications -/

theorem valid_joinHyphen (parts : List HexText) : valid (joinHyphen parts) = true := by
  refine Clear.intercalate (U := True) (clear_lit _) (fun s hs => ?_) trivial
  obtain ⟨h, -, rfl⟩ := mem_map.mp hs
  exact .of_valid h.valid

theorem valid_newApplicationID (raw : Bytes) : valid (newApplicationID raw) = true :=
  valid_joinHyphen _

def Fresh (env : Env K) (w : World K) : Prop :=
  ∀ f, env.random w.tick = some f →
    w.sup.core.state.applications[newApplicationID ((range 16).map f)]? = none

/-- When it is asked, two questions from now, the context store returns no error. -/
def ContextReady (w : World K) (context : Op K HexText) : Prop :=
  ∀ w', w'.contexts = w.contexts → w'.tick = w.tick + 2 → ∀ e, (context w').1 ≠ .error e

theorem makeContext_ends {f : HexText → ContextStore → Except Err (HexText × ContextStore)}
    {R : HexText → ContextStore → Prop} {Q : HexText → World K → Prop} {C : World K → Prop}
    (hf : ∀ c a s, f c w.contexts = .ok (a, s) → R a s)
    (hQ : ∀ a s n, R a s → Q a { w with contexts := s, tick := n })
    (hE : ∀ e n, E e { w with tick := n })
    (hC : ∀ n, C { w with tick := n }) : Ends (makeContext env owner f) w Q E C := by
  simp only [makeContext, ends_bind, ends_require]
  refine ⟨fun _ => randomBytes_ends (fun g _ => ?_) (hE _ _), fun _ => hE _ w.tick⟩
  exact contextTx_ends (fun a s hs => hQ a s _ (hf _ a s hs)) (fun e => hE e _) (hC _)

theorem spawnApplication_settled {action object : GoString}
    {f : HexText → ContextStore → Except Err (HexText × ContextStore)}
    (hfree : w.sup.core.state.applications[a.applicationID]? = none)
    (hid : valid a.applicationID = true) (htokens : a.tokensUsed = 0) (hlimit : a.tokenLimit = 0)
    (hwrites : S.writes .identities)
    (hrecord : ClearRecord U principal a.applicationID action object (lit "allow") [])
    (hf : ∀ c a s, f c w.contexts = .ok (a, s) → ContextStore.Grows w.contexts s)
    (hready : P → ∀ w', w'.contexts = w.contexts → w'.tick = w.tick →
      ∀ e, (makeContext env owner f w').1 ≠ .error e) :
    Settled U S env P
      (spawnApplication env principal action object a (makeContext env owner f)) .clean w := by
  have hcount : Change U S env w.sup.core .side
      (w.sup.core.withState fun s => { s with nextKernelID := s.nextKernelID + 1 }) :=
    .side ⟨rfl, rfl, rfl, rfl, rfl, rfl, rfl, le_rfl, Nat.le_succ _,
      fun h => h, .inr rfl, .inr rfl, .inr rfl, .inr rfl⟩ fun h => { h with }
  refine .call ⟨.side, .edit hcount, ?_⟩
  refine .fallible (fun hP => hready hP _ rfl rfl) (makeContext_ends hf (fun context s n hs => ?_)
    (fun _ _ => ⟨.side, le_rfl, .tick⟩) fun _ => ⟨.side, .tick⟩)
  refine ⟨.side, .of_contexts hs, .editState (.register _ hfree hid htokens hlimit hwrites) ?_⟩
  exact .audit hrecord fun _ _ => .persist fun _ => .pure

def Accepted (owner wake : GoString) : Prop :=
  owner ≠ [] ∧ owner.length ≤ 256 ∧ wakePolicyOf wake ≠ none

theorem createApplication_settled {wake : GoString} (hp : Clear U principal)
    (hfresh : Fresh env w) (hwrites : S.writes .identities)
    (hready : P → Accepted owner wake → ContextReady w (createContext env owner)) :
    Settled U S env P (createApplication env principal owner wake) .clean w := by
  refine .require fun howner => ?_
  split
  · exact .fail
  next policy hpolicy =>
  have hok : Accepted owner wake := ⟨howner.1, howner.2, by simp [hpolicy]⟩
  refine .call (randomBytes_ends (fun f hf => ⟨.clean, .tick, .question ?_⟩) .tick)
  have hid := valid_newApplicationID ((range 16).map f)
  have hfree := hfresh f hf
  generalize newApplicationID ((range 16).map f) = newID at hid hfree ⊢
  refine spawnApplication_settled hfree hid rfl rfl hwrites ?_
    (fun _ _ _ => ContextStore.exec_grows (c := .create _ _ _)) fun hP => hready hP hok
  exact ⟨hp, .of_valid hid, clear_lit _, .of_valid hid, clear_lit _, clear_nil⟩

theorem forkApplication_settled {parentID wake : GoString} (hs : Sound U w)
    (hp : Clear U principal) (hfresh : Fresh env w) (hwrites : S.writes .identities)
    (hready : P → Accepted owner wake → ∀ parent f,
      w.sup.core.state.applications[parentID]? = some parent → env.random w.tick = some f →
      ContextReady w (forkContext env parent.ownerAgent parent.contextID owner
        (lit "fork:" ++ newApplicationID ((range 16).map f)))) :
    Settled U S env P (forkApplication env principal parentID owner wake) .clean w := by
  refine .findApplication fun parent hparent => .require fun _ => .require fun howner => ?_
  split
  · exact .fail
  next policy hpolicy =>
  have hok : Accepted owner wake := ⟨howner.1, howner.2, by simp [hpolicy]⟩
  refine .call (randomBytes_ends (fun f hf => ⟨.clean, .tick, .question ?_⟩) .tick)
  have hid := valid_newApplicationID ((range 16).map f)
  have hfree := hfresh f hf
  have hready := fun hP => hready hP hok parent f hparent hf
  generalize newApplicationID ((range 16).map f) = newID at hid hfree hready ⊢
  refine spawnApplication_settled hfree hid rfl rfl hwrites ?_
    (fun _ _ _ => ContextStore.exec_grows (c := .forkTo _ _ _ _ _)) hready
  exact ⟨hp, .of_valid hid, clear_lit _, hs.clear_id hparent, clear_lit _, clear_nil⟩

theorem auditContextPages_settled (hs : Sound U w) (hp : Clear U principal) :
    Settled U S env P (auditContextPages env principal id) .clean w := by
  refine .findApplication fun a ha => ?_
  have hid := hs.clear_id ha
  exact .audit ⟨hp, hid, clear_lit _, hid, clear_lit _, clear_nil⟩ fun _ _ => .persist_last

theorem closeKernelApp_around : Around w (match w.sup.kernelApps[id]? with
    | some h => { w with
        kernel := env.bridge.closeApp h w.kernel
        sup := { w.sup with kernelApps := w.sup.kernelApps.erase id } }
    | none => w) := by
  split
  · exact .of_eq rfl rfl
  · exact .refl w

theorem closeKernelSrc_around : Around w (match w.sup.kernelSrcs[id]? with
    | some h => { w with
        kernel := env.bridge.closeSource h w.kernel
        sup := { w.sup with kernelSrcs := w.sup.kernelSrcs.erase id } }
    | none => w) := by
  split
  · exact .of_eq rfl rfl
  · exact .refl w

theorem Leaves.closeKernelApp (h : ∀ w', w'.store = w.store → Leaves U S env D P (k ()) b w') :
    Leaves U S env D P (Runtime.closeKernelApp env id >>= k) b w :=
  .quiet closeKernelApp_around (by dsimp only; split <;> rfl)
    (h _ (by dsimp only; split <;> rfl))

theorem Leaves.closeKernelSrc (h : ∀ w', w'.store = w.store → Leaves U S env D P (k ()) b w') :
    Leaves U S env D P (Runtime.closeKernelSrc env id >>= k) b w :=
  .quiet closeKernelSrc_around (by dsimp only; split <;> rfl)
    (h _ (by dsimp only; split <;> rfl))

theorem retireApplication_settled (hs : Sound U w) (hp : Clear U principal) (hmove : S.Expires)
    (hlife : S.writes (.lifecycle id)) :
    Settled U S env P (retireApplication env principal id) .clean w := by
  refine .findApplication fun a ha => ?_
  have hid := hs.clear_id ha
  split_ifs with htomb
  · exact .pure
  refine .now fun t _ => .editState (.application id _ fun x hx => .leave rfl rfl rfl rfl
    (fun h => ?_) (by simp) hlife ⟨rfl, rfl, .inl rfl⟩) ?_
  · exact absurd h (Option.some.inj (ha.symm.trans hx) ▸ htomb)
  refine .audit ⟨hp, hid, clear_lit _, hid, clear_lit _, clear_nil⟩ fun _ _ => ?_
  refine .editState (.application id _ fun x _ => .leave rfl rfl rfl rfl (fun _ => rfl)
    (by simp) hlife ⟨rfl, rfl, .inl rfl⟩) ?_
  refine .editState (.messages id _ fun ms _ => forall₂_map (MsgStep.expire hmove) ms) ?_
  refine .closeKernelApp fun w' _ => .memory rfl rfl rfl (.closeKernelSrc fun w'' _ => ?_)
  refine .editState (.side (.of_eq rfl) fun h => ?_) .persist_last
  refine { h with bindings := h.bindings.map fun k x hx => ?_, pending := h.pending.erase id }
  unfold WakeBinding.disableFor
  split_ifs <;> exact hx

theorem setRoutePolicy_settled {backends : List GoString} (hs : Sound U w) (hp : Clear U principal)
    (hb : ∀ x ∈ backends, Clear U x) :
    Settled U S env P (setRoutePolicy env principal id backends) .clean w := by
  refine .findApplication fun a ha => .require fun _ => .require fun _ => ?_
  refine .editState (.application id _ fun x _ => .of_eq rfl rfl rfl rfl (UInt64.or_self)
    (.inr rfl) ⟨rfl, rfl, .inl rfl⟩) ?_
  exact .audit ⟨hp, hs.clear_id ha, clear_lit _, .of_valid (valid_dec _), clear_lit _,
    .intercalate (clear_lit _) hb⟩ fun _ _ => .persist fun _ => .pure

theorem clear_requestedState {target : AppState}
    (h : requestedState state = some target) : Clear U state := by
  unfold requestedState at h
  split_ifs at h with hf hv
  · exact hf ▸ clear_lit _
  · exact hv ▸ clear_lit _

theorem requestedState_ne {target : AppState}
    (h : requestedState state = some target) : target ≠ .tombstoned ∧ target ≠ .retiring := by
  unfold requestedState at h
  split_ifs at h <;> cases h <;> exact ⟨by simp, by simp⟩

theorem setApplicationState_settled (hs : Sound U w) (hp : Clear U principal) :
    Settled U S env P (setApplicationState env principal id state) .clean w := by
  refine .findApplication fun a ha => .require fun htomb => ?_
  split
  · exact .fail
  next target htarget =>
    have hid := hs.clear_id ha
    refine .require fun hbudget => .editState (.application id _ fun x hx => ?_) ?_
    · obtain rfl := Option.some.inj (ha.symm.trans hx)
      refine ⟨rfl, rfl, fun h => absurd h htomb, fun h => ⟨h, UInt64.le_refl _⟩, fun _ hserving => ?_,
        UInt64.or_self, .inr rfl, .inr fun h => ?_, ⟨rfl, rfl, .inl rfl⟩⟩
      · refine Application.isWithin_iff.mpr (Bool.eq_false_iff.mpr fun hx => hbudget ⟨hserving, hx⟩)
      · exact absurd h (by simp [Application.isRetired, requestedState_ne htarget])
    · exact .audit ⟨hp, hid, (clear_lit _).append (clear_requestedState htarget), hid, clear_lit _,
        clear_nil⟩ fun _ _ => .persist_last

theorem AppStep.narrowTo {limit : UInt64} (htomb : a.state ≠ .tombstoned)
    (hlimit : ¬ (a.tokenLimit ≠ 0 ∧ (limit = 0 ∨ a.tokenLimit < limit))) :
    AppStep S id a (a.narrowTo limit) := by
  have hnarrow : a.tokenLimit ≠ 0 → limit ≠ 0 ∧ limit ≤ a.tokenLimit := by
    intro h
    refine ⟨fun h0 => hlimit ⟨h, .inl h0⟩, ?_⟩
    exact UInt64.not_lt.mp fun hlt => hlimit ⟨h, .inr hlt⟩
  unfold Application.narrowTo
  dsimp only
  split_ifs with hx
  · exact ⟨rfl, rfl, fun h => absurd h htomb, hnarrow, fun _ h => (by cases h), UInt64.or_self,
      .inr rfl, .inr fun h => by simp [Application.isRetired] at h,
        ⟨rfl, rfl, .inl rfl⟩⟩
  · refine ⟨rfl, rfl, fun h => absurd h htomb, hnarrow, fun _ _ => ?_, UInt64.or_self, .inr rfl,
      .inr fun h => h, ⟨rfl, rfl, .inl rfl⟩⟩
    exact Application.isWithin_iff.mpr (Bool.eq_false_iff.mpr hx)

theorem setTokenLimit_settled {limit : UInt64} (hs : Sound U w) (hp : Clear U principal) :
    Settled U S env P (setTokenLimit env principal id limit) .clean w := by
  refine .findApplication fun a ha => .require fun htomb => .require fun hlimit => ?_
  have hid := hs.clear_id ha
  refine .editState (.application id _ fun x hx => ?_) ?_
  · obtain rfl := Option.some.inj (ha.symm.trans hx)
    exact .narrowTo htomb hlimit
  · exact .audit ⟨hp, hid, clear_lit _, hid, clear_lit _, clear_nil⟩ fun _ _ => .persist_last

theorem setTurnConcurrency_settled {n : ℤ} :
    Settled U S env P (setTurnConcurrency n) .clean w :=
  .require fun _ => .quiet (k := fun _ => Pure.pure ()) (.of_eq rfl rfl) rfl .pure

theorem addTimer_settled {timerID : GoString} {delay interval : ℤ}
    (hs : Sound U w) (hp : Clear U principal) (ht : Clear U timerID) :
    Settled U S env P (addTimer env principal id timerID delay interval payload) .clean w := by
  refine .findApplication fun a ha => .require fun _ => .require fun haccepted => .ask ?_
  obtain ⟨-, -, -, -, hvalid, hlen⟩ := haccepted
  refine .require fun _ => .now fun t _ => .editState (j := .side) ?_ ?_
  · exact .side ⟨rfl, rfl, rfl, rfl, rfl, rfl, rfl, le_rfl, le_rfl,
      fun h => h.insert (.of_valid hvalid hlen), .inr rfl, .inr rfl, .inr rfl, .inr rfl⟩ fun h =>
      { h with timers := h.timers.insert ht }
  · exact .audit ⟨hp, hs.clear_id ha, clear_lit _, ht, clear_lit _, clear_nil⟩ fun _ _ =>
      .persist_last

/-! ## Capabilities -/

theorem clear_digest (d : Digest) : Clear U d.text := .of_valid d.toHexText.valid

theorem checkToken_settled {object action : GoString} {token : Option CapabilityToken}
    (hp : Clear U principal) (hid : Clear U id) (ho : Clear U object) (ha : Clear U action) :
    Settled U S env P (checkToken env principal id object action token) .clean w := by
  refine .now fun t _ => .ask ?_
  dsimp only
  refine .audit ⟨hp, hid, ha, ho, ?_, ?_⟩ fun _ _ => .persist fun _ => ?_
  · split_ifs <;> exact clear_lit _
  · split_ifs <;> first | exact clear_lit _ | exact clear_nil
  · exact .require_last

theorem revokeCapabilityToken_settled {token : CapabilityToken} {reason : GoString}
    (hp : Clear U principal) (hc : ∀ x ∈ token.caveats, Clear U x) (hwrites : S.writes .registry) :
    Settled U S env P (revokeCapabilityToken env principal token reason) .clean w := by
  refine .now fun t _ => .require fun _ => .require fun _ => .ask ?_
  dsimp only
  split_ifs
  · exact .pure
  · exact .audit ⟨hp, clear_nil, clear_lit _, clear_digest _, clear_lit _, clear_lit _⟩ fun _ _ =>
      .persist fun _ => .fail
  · refine .now fun _ _ => .editState (j := .side) ?_ ?_
    · exact .side ⟨rfl, rfl, rfl, rfl, rfl, rfl, rfl, le_rfl, le_rfl,
        fun h => h, .inr rfl, .inr rfl, .inl hwrites, .inr rfl⟩ fun h => { h with }
    · exact .audit ⟨hp, clear_nil, clear_lit _, clear_digest _, clear_lit _,
        .intercalate (clear_lit _) hc⟩ fun _ _ => .persist_last

/-! ## The export gate -/

theorem pendingCount_erase_le (t : Table GoString ConfirmationRequest) (k : GoString) :
    pendingCount (t.erase k) ≤ pendingCount t := by
  unfold pendingCount
  cases h : t[k]? with
  | none => rw [Table.erase_eq_self t h]
  | some r =>
    rw [(Table.perm_of_get h).countP_eq, countP_cons]
    exact Nat.le_add_right _ _

theorem pendingCount_foldl_erase_le (ids : List GoString) (t : Table GoString ConfirmationRequest) :
    pendingCount (ids.foldl (fun t id => t.erase id) t) ≤ pendingCount t := by
  induction ids generalizing t with
  | nil => exact le_rfl
  | cons k ids ih => exact (ih _).trans (pendingCount_erase_le t k)

theorem Each.foldl_erase {Q : GoString → α → Prop} {t : Table GoString α}
    (h : Each Q t) (ids : List GoString) : Each Q (ids.foldl (fun t id => t.erase id) t) :=
  foldlRecOn ids _ h fun _ ht id _ => ht.erase id

def QueueOpen (env : Env K) (w : World K) : Prop :=
  pendingCount (w.sup.core.state.confirmations.map fun _ r => r.expireAt (env.now (w.tick + 1))) <
    maxPendingConfirmations

theorem sweepConfirmationsLocked_ends {time : ℤ} {Q : Unit → World K → Prop}
    {C : World K → Prop}
    (hQ : ∀ w', Path U S env (b, w) (b ⊔ .side ⊔ .side, w') →
      pendingCount w'.sup.core.state.confirmations ≤
        pendingCount (w.sup.core.state.confirmations.map fun _ r => r.expireAt time) → Q () w') :
    Ends (sweepConfirmationsLocked env time) w Q E C := by
  simp only [sweepConfirmationsLocked, mapKeys, editState, ends_bind, ends_editCore, ends_getState,
    ends_question]
  refine hQ _ ?_ (pendingCount_foldl_erase_le _ _)
  have hexpire : Change U S env w.sup.core .side (w.sup.core.withState fun s =>
      { s with confirmations := s.confirmations.map fun _ r => r.expireAt time }) := by
    refine .side (.of_eq rfl) fun h =>
      { h with confirmations := h.confirmations.map fun k r hr => ?_ }
    unfold ConfirmationRequest.expireAt
    split_ifs <;> exact hr
  refine (Path.edit hexpire).trans ((Path.tick).trans (Path.edit ?_))
  exact .side (.of_eq rfl) fun h =>
    { h with confirmations := h.confirmations.foldl_erase _ }

theorem escalateExportLocked_settled {text : GoString} (hp : Clear U principal)
    (ha : Clear U a.applicationID) (hroom : P → QueueOpen env w) :
    Settled U S env P (escalateExportLocked env principal a text) .clean w := by
  refine .call (randomBytes_ends (fun f _ => ⟨.clean, .tick, .question ?_⟩) .tick)
  refine .call (sweepConfirmationsLocked_ends (U := U) (S := S) (b := .clean) fun w' hpath hle => ?_)
  refine ⟨.side, hpath, .ask ?_⟩
  have hreq : Clear U (lit "cfm-" ++ (hexEncode ((range 8).map f)).text) :=
    (clear_lit _).append (.of_valid (HexText.valid _))
  generalize lit "cfm-" ++ (hexEncode ((range 8).map f)).text = requestID at hreq
  split_ifs with hfull
  · have hP : ¬ P := fun hP => absurd (hroom hP) (not_lt.mpr (hfull.trans hle))
    exact .audit ⟨hp, ha, clear_lit _, clear_lit _, clear_lit _, clear_lit _⟩ fun _ _ =>
      .fail_unless le_rfl hP
  · refine .editState (j := .side) ?_ ?_
    · exact .side (.of_eq rfl) fun h =>
        { h with confirmations := h.confirmations.insert ⟨ha, clear_lit _⟩ }
    · exact .audit ⟨hp, ha, clear_lit _, hreq, clear_lit _, clear_lit _⟩ fun _ _ =>
        .persist fun _ => .fail

theorem Leaves.setConfirmation {r : ConfirmationRequest}
    (hr : Clear U r.applicationID ∧ Clear U r.kind)
    (h : ∀ w', Leaves U S env D P (k ()) (b ⊔ .side) w') :
    Leaves U S env D P (Runtime.setConfirmation requestID r >>= k) b w :=
  .editState (.side (.of_eq rfl) fun h =>
    { h with confirmations := h.confirmations.insert hr }) (h _)

theorem exportViaRequestLocked_settled {text : GoString}
    (hs : Sound U w) (hp : Clear U principal) (ha : Clear U a.applicationID) (ht : Clear U text)
    (hr : Clear U requestID) :
    Settled U S env P (exportViaRequestLocked env principal a text requestID) .clean w := by
  refine .ask ?_
  split
  · exact .fail
  next r hrequest =>
    have hclear := hs.live.side.confirmations requestID r hrequest
    refine .require fun _ => .require fun _ => .require fun _ => .now fun t _ => ?_
    split_ifs
    · exact .setConfirmation hclear fun _ => .ignorePersist fun _ => .fail
    · refine .require fun _ => .setConfirmation hclear fun _ => ?_
      exact .audit ⟨hp, ha, clear_lit _, ht, clear_lit _, (clear_lit _).append hr⟩ fun _ _ =>
        .persist fun _ => .pure

structure Escalates (env : Env K) (w : World K) (id : GoString) (confirm escalate : Bool)
    (requestID : GoString) : Prop where
  asked : escalate = true ∧ confirm = false ∧ requestID = []
  blocked : ∃ a, w.sup.core.state.applications[id]? = some a ∧ blockedBits env a ≠ 0

theorem exportApplication_settled {text : GoString} {confirm escalate : Bool}
    (hs : Sound U w) (hp : Clear U principal) (ht : Clear U text) (hr : Clear U requestID)
    (hroom : P → Escalates env w id confirm escalate requestID → QueueOpen env w) :
    Settled U S env P (exportApplication env principal id text confirm escalate requestID)
      .clean w := by
  refine .findApplication fun a ha => .require fun _ => .require fun _ => ?_
  have hid := hs.clear_id ha
  have haid : Clear U a.applicationID := hs.applicationID_eq ha ▸ hid
  split_ifs with hreq hclean hesc
  · exact exportViaRequestLocked_settled hs hp haid ht hr
  · exact .audit ⟨hp, hid, clear_lit _, ht, clear_lit _, clear_lit _⟩ fun _ _ =>
      .persist fun _ => .pure
  · refine escalateExportLocked_settled hp haid fun hP => hroom hP ⟨?_, a, ha, hclean⟩
    exact ⟨hesc.1, by simpa using hesc.2, not_not.mp hreq⟩
  · exact .audit ⟨hp, hid, clear_lit _, ht, clear_lit _, clear_lit _⟩ fun _ _ =>
      .persist fun _ => .pure
  · exact .audit ⟨hp, hid, clear_lit _, ht, clear_lit _, clear_lit _⟩ fun _ _ =>
      .persist fun _ => .fail

theorem settleConfirmation_settled {approve : Bool} (hs : Sound U w)
    (hp : Clear U principal) (hr : Clear U requestID) :
    Settled U S env P (settleConfirmation env principal requestID approve) .clean w := by
  refine .ask ?_
  split
  · exact .fail
  next r hrequest =>
    have hclear := hs.live.side.confirmations requestID r hrequest
    refine .require fun _ => .now fun t _ => ?_
    split_ifs
    · exact .setConfirmation hclear fun _ => .ignorePersist fun _ => .fail
    all_goals
      refine .setConfirmation hclear fun _ => ?_
      exact .audit ⟨hp, hclear.1, clear_lit _, hr, clear_lit _, hclear.2⟩ fun _ _ =>
        .persist fun _ => .pure

/-! ## Witness checkpoints -/

theorem HexText.clear_take (h : HexText) (n : ℕ) : Clear U (h.text.take n) := by
  have hall : (h.text.take n).all isHexDigit = true := by
    rw [all_eq_true]
    exact fun x hx => all_eq_true.mp h.isHex x (mem_of_mem_take hx)
  exact .of_valid (HexText.valid ⟨_, hall⟩)

theorem Leaves.sliceTo {n : ℕ} {s : GoString} {k : GoString → Op K α}
    (h : Leaves U S env D P (k (s.take n)) b w) :
    Leaves U S env D P (Runtime.sliceTo n s >>= k) b w := by
  refine .call ?_
  unfold Runtime.sliceTo
  split_ifs
  · exact ⟨b, .refl, h⟩
  · exact ⟨b, .refl⟩

theorem recordCosignature_settled {cp : WitnessCheckpoint} (hs : Sound U w) (hp : Clear U principal)
    (hc : Clear U cp.signer) : Settled U S env P (recordCosignature env principal cp) .clean w := by
  refine .require fun _ => .require fun hsigned => .ask (.require fun hchain => .require fun hlast => ?_)
  have hadvances : ∀ last ∈ w.sup.core.state.witnessCheckpoints.getLast?, last.count < cp.count := by
    intro last hmem
    simpa [Option.mem_def.mp hmem] using hlast
  refine .editState (.cosign cp ⟨hchain, hsigned, hadvances, hc⟩) ?_
  obtain ⟨d, hd⟩ : ∃ d : Digest, cp.headHash = d.text := by
    simp only [WitnessCheckpoint.matchesChain, Bool.and_eq_true, Option.any_eq_true_iff_get] at hchain
    obtain ⟨-, hsome, hhash⟩ := hchain
    obtain ⟨d, hd⟩ := hs.live.named.hashes _ (mem_of_getElem? (Option.some_get hsome).symm)
    exact ⟨d, by rw [← hd]; exact (beq_iff_eq.mp hhash).symm⟩
  refine .sliceTo (.audit ⟨hp, clear_nil, clear_lit _, ?_, clear_lit _, hc⟩ fun _ _ => .persist_last)
  rw [hd]
  exact ((d.toHexText.clear_take 12).append (clear_lit _)).append (.of_valid (valid_dec _))

/-! ## The gateway -/

theorem createChannel_settled {kind : GoString} (hp : Clear U principal)
    (hc : Clear U channelID) (hk : Clear U kind) :
    Settled U S env P (createChannel env principal channelID kind) .clean w := by
  refine .require fun _ => .ask (.require fun _ => .now fun t _ => .editState (j := .side) ?_ ?_)
  · exact .side (.of_eq rfl) fun h => { h with }
  · exact .audit ⟨hp, clear_nil, clear_lit _, hc, clear_lit _, hk⟩ fun _ _ =>
      .persist fun _ => .pure

theorem revokeChannel_settled (hp : Clear U principal) (hc : Clear U channelID) :
    Settled U S env P (revokeChannel env principal channelID) .clean w := by
  refine .ask ?_
  split
  · exact .fail
  refine .editState (j := .side) ?_ ?_
  · exact .side (.of_eq rfl) fun h => { h with }
  · exact .audit ⟨hp, clear_nil, clear_lit _, hc, clear_lit _, clear_nil⟩ fun _ _ => .persist_last

theorem clear_conversationKey (hc : Clear U channelID)
    (he : Clear U externalID) : Clear U (conversationKey channelID externalID) :=
  (hc.append (clear_lit _)).append he

theorem bindConversation_settled (hs : Sound U w)
    (hp : Clear U principal) (hc : Clear U channelID) (he : Clear U externalID) :
    Settled U S env P (bindConversation env principal channelID externalID id) .clean w := by
  refine .ask (.require fun _ => .findApplication fun a ha => .require fun _ => ?_)
  have hkey := clear_conversationKey hc he
  dsimp only
  split
  · exact .require fun _ => .persist fun _ => .pure
  refine .now fun t _ => .editState (j := .side) ?_ ?_
  · exact .side (.of_eq rfl) fun h =>
      { h with conversations := h.conversations.insert hkey }
  · exact .audit ⟨hp, hs.clear_id ha, clear_lit _, hkey, clear_lit _, clear_nil⟩ fun _ _ =>
      .persist fun _ => .pure

theorem deliverInbound_settled {sequence : ℤ}
    (hs : Sound U w) (hc : Clear U channelID) (he : Clear U externalID) :
    Settled U S env P (deliverInbound env channelID externalID sequence payload) .clean w := by
  refine .ask (.require fun _ => ?_)
  split
  · exact .fail
  next c _ =>
    refine .require fun _ => ?_
    split_ifs
    · split
      · exact .pure
      · exact .fail
    have hkey : Clear U (gatewayKey channelID externalID sequence) :=
      (((((clear_lit _).append hc).append (clear_lit _)).append he).append (clear_lit _)).append
        (.of_valid (valid_decInt _))
    have hconv := clear_conversationKey hc he
    have hnote : ∀ b m w', Settled U S env P (do
        editCore fun core => { core with
          sourced := core.sourced.insert m.messageID (conversationKey channelID externalID)
          state := { core.state with
            conversations := core.state.conversations.insert (conversationKey channelID externalID)
              { c with lastSequence := sequence } } }
        persistLocked env
        pure m : Op K MailboxMessage) b w' := fun b m w' =>
      .edit (.side (.of_eq rfl) fun h =>
        { h with conversations := h.conversations.insert hconv, sourced := h.sourced.insert hconv })
        (.persist fun _ => .pure)
    refine .call (enqueueLocked_ends (S := S) (b := .clean) hs (clear_lit _) hkey (fun m => ?_)
      (fun m w' hpath _ _ => ?_) fun _ => .refl)
    · exact ⟨.clean, .refl, hnote .clean m w⟩
    · exact ⟨.main, hpath, hnote .main m w'⟩

theorem dropSent_sublist (n : ℕ) (l : List OutboxEntry) : (dropSent n l).Sublist l := by
  fun_induction dropSent with
  | case1 => exact .refl _
  | case2 => exact .refl _
  | case3 n e l _ ih => exact ih.cons_cons e
  | case4 n e l _ ih => exact ih.cons e

theorem mem_setFirst {p : α → Bool} {f : α → α} {l : List α} {x : α}
    (h : x ∈ setFirst p f l) : x ∈ l ∨ ∃ y ∈ l, x = f y := by
  have hf : List.Forall₂ (fun a a' => a' = a ∨ a' = f a) l (setFirst p f l) :=
    forall₂_setFirst (fun _ => .inl rfl) fun _ _ => .inr rfl
  obtain ⟨y, hy, rfl | rfl⟩ := mem_of_forall₂ hf h
  · exact .inl hy
  · exact .inr ⟨y, hy, rfl⟩

theorem map_setFirst {β : Type} {g : α → β} {p : α → Bool} {f : α → α}
    (h : ∀ x, g (f x) = g x) (l : List α) : (setFirst p f l).map g = l.map g := by
  induction l with
  | nil => rfl
  | cons x l ih =>
    unfold setFirst
    split_ifs
    · rw [map_cons, map_cons, h]
    · rw [map_cons, map_cons, ih]

/-! ## Numbered records -/

section Records
variable {f : State → List Record} {s s' : State}

theorem RecordKind.valid_id (k : RecordKind) (n : ℕ) : valid (k.id n) = true := by
  rw [RecordKind.id_eq]
  refine valid_append ?_ (valid_dec n)
  cases k <;> exact valid_lit _

theorem Reissues.of_perm (hn : s'.nextSequence = s.nextSequence) (h : (f s').Perm (f s)) :
    Reissues f s s' :=
  .drop hn.ge h.subperm

theorem Reissues.add {r : Record} (hn : s'.nextSequence = s.nextSequence + 1)
    (hr : r.id = sanitize (r.kind.id (s.nextSequence + 1))) (h : (f s').Subperm (f s ++ [r])) :
    Reissues f s s' := by
  rw [sanitize_of_valid (r.kind.valid_id _)] at hr
  exact Issue.Issues.add (hn ▸ Nat.lt_succ_self _) hr h

theorem reissues_transfer {x : ArtifactTransfer} {n : ℕ}
    (hn : s'.nextSequence = s.nextSequence + 1)
    (ht : s'.transfers = keepNewest n (s.transfers ++ [x]))
    (hx : x.transferID = transferID (s.nextSequence + 1)) :
    Reissues State.transferRecords s s' := by
  refine .add (r := x.record) hn (congrArg sanitize hx) ?_
  rw [State.transferRecords, ht, keepNewest]
  have hsub := (drop_sublist ((s.transfers ++ [x]).length - n) (s.transfers ++ [x])).map
    ArtifactTransfer.record
  rw [map_append] at hsub
  exact hsub.subperm

end Records

theorem enqueueOutboxLocked_ends {idempotency : GoString}
    {Q : OutboxEntry → World K → Prop} {C : World K → Prop}
    (hs : Sound U w) (hwrites : S.writes .outbox) (hold : ∀ e, Clear U e.entryID → Q e w)
    (hnew : ∀ e w', Clear U e.entryID → Path U S env (b, w) (b ⊔ .main, w') → Q e w')
    (hE : ∀ e, E e w) : Ends (enqueueOutboxLocked env key idempotency payload) w Q E C := by
  simp only [enqueueOutboxLocked, ends_bind, ends_getState, ends_require]
  refine ⟨fun _ => ?_, fun _ => hE _⟩
  split
  · next e he => exact hold e (hs.live.side.outbox e (mem_of_find?_eq_some he))
  · simp only [now, editState, ends_bind, ends_question, ends_editCore, ends_pure]
    have hid : Clear U (outboxEntryID (w.sup.core.state.nextSequence + 1)) :=
      (clear_lit _).append (.of_valid (valid_dec _))
    have ht : Path U S env (b, w) (b, { w with tick := w.tick + 1 }) := .tick
    generalize length _ - maxOutboxEntries = excess
    refine hnew _ _ hid (ht.trans (Path.edit (.shelf ?_ fun h => { h with outbox := ?_ })))
    · refine ⟨rfl, rfl, rfl, rfl, rfl, rfl, rfl, Nat.le_succ _, le_rfl,
        fun h => h, .inl ⟨hwrites, rfl, ?_⟩, .inr rfl, .inr rfl, .inr rfl⟩
      have hsub := (dropSent_sublist excess (w.sup.core.state.outbox ++ [⟨outboxEntryID
        (w.sup.core.state.nextSequence + 1), key, idempotency, payload, .pending, 0,
        env.now w.tick, 0, []⟩])).map OutboxEntry.record
      rw [map_append] at hsub
      refine .add rfl ?_ hsub.subperm
      rfl
    · intro x hx
      rcases mem_append.mp ((dropSent_sublist _ _).subset hx) with hx | hx
      · exact h.outbox x hx
      · rw [mem_singleton.mp hx]
        exact hid

theorem denyReply_settled {e : Err} {reason : String}
    (hp : Clear U principal) (hid : Clear U id) (hm : Clear U messageID) :
    Settled U S env P (denyReply env principal id messageID e reason) .clean w :=
  .audit ⟨hp, hid, clear_lit _, hm, clear_lit _, clear_lit _⟩ fun _ _ => .persist fun _ => .fail

theorem reply_settled (hs : Sound U w) (hp : Clear U principal)
    (hid : Clear U id) (hm : Clear U messageID) (hwrites : S.writes .outbox) :
    Settled U S env P (reply env principal id messageID) .clean w := by
  have hdeny : ∀ e reason, Settled U S env P (denyReply env principal id messageID e reason) .clean w :=
    fun _ _ => denyReply_settled hp hid hm
  refine .ask ?_
  dsimp only
  split
  · exact .fail
  refine .require fun _ => ?_
  split
  · exact hdeny _ _
  split
  · exact hdeny _ _
  split
  · exact hdeny _ _
  split
  · exact hdeny _ _
  split
  · exact hdeny _ _
  split
  · exact hdeny _ _
  split
  · exact hdeny _ _
  have hkey : Clear U ((w.sup.core.sourced[messageID]?).getD []) := by
    cases hsrc : w.sup.core.sourced[messageID]? with
    | none => exact clear_nil
    | some k => exact hs.live.side.sourced _ _ hsrc
  have hrest : ∀ (e : OutboxEntry) b w', Clear U e.entryID → Settled U S env P (do
      auditLocked env principal id (lit "gateway.reply") e.entryID (lit "allow")
        ((w.sup.core.sourced[messageID]?).getD [])
      persistLocked env
      pure e : Op K OutboxEntry) b w' := fun e b w' he =>
    .audit ⟨hp, hid, clear_lit _, he, clear_lit _, hkey⟩ fun _ _ => .persist fun _ => .pure
  refine .call (enqueueOutboxLocked_ends (b := .clean) hs hwrites (fun e he => ?_)
    (fun e w' he hpath => ?_) fun _ => .refl)
  · exact ⟨.clean, .refl, hrest e .clean w he⟩
  · exact ⟨.main, hpath, hrest e .main w' he⟩

theorem claimOutbox_settled (hwrites : S.writes .outbox) :
    Settled U S env P (claimOutbox env channelID externalID) .clean w := by
  refine .ask (.require fun _ => .require fun _ => ?_)
  dsimp only
  split_ifs
  · exact .pure
  refine .editState (.shelf ⟨rfl, rfl, rfl, rfl, rfl, rfl, rfl, le_rfl, le_rfl,
    fun h => h, .inl ⟨hwrites, rfl, ?_⟩, .inr rfl, .inr rfl, .inr rfl⟩ fun h =>
    { h with outbox := fun e he => ?_ }) (.ignorePersist fun _ => .pure)
  · refine .of_perm rfl (.of_eq ?_)
    simp only [State.entryRecords, Core.withState_state, map_map]
    refine map_congr_left fun e _ => ?_
    rw [Function.comp_apply, OutboxEntry.attempt]
    split_ifs <;> rfl
  obtain ⟨x, hx, rfl⟩ := mem_map.mp he
  unfold OutboxEntry.attempt
  split_ifs <;> exact h.outbox x hx

theorem ackOutbox_settled {entryID receipt : GoString} (hp : Clear U principal)
    (he : Clear U entryID) (hr : Clear U receipt) (hwrites : S.writes .outbox) :
    Settled U S env P (ackOutbox env principal entryID receipt) .clean w := by
  refine .ask ?_
  split
  · exact .fail
  split
  · exact .pure
  refine .now fun t _ => .editState (.shelf ⟨rfl, rfl, rfl, rfl, rfl, rfl, rfl, le_rfl,
    le_rfl, fun h => h, .inl ⟨hwrites, rfl, ?_⟩, .inr rfl, .inr rfl, .inr rfl⟩ fun h =>
    { h with outbox := fun e hmem => ?_ }) ?_
  · refine .of_perm rfl (.of_eq ?_)
    exact map_setFirst (g := OutboxEntry.record) (by intro e; rfl) _
  · rcases mem_setFirst hmem with hx | ⟨y, hy, rfl⟩
    · exact h.outbox e hx
    · exact h.outbox y hy
  · exact .audit ⟨hp, clear_nil, clear_lit _, he, clear_lit _, hr⟩ fun _ _ => .persist_last

/-! ## Mounts, transfers and bindings -/

theorem clear_hostfsMode {mode : GoString} {m : HostfsMode} (h : hostfsModeOf mode = some m) :
    Clear U mode := by
  have hm : lit m.text = mode := by simpa using find?_some h
  exact hm ▸ clear_lit _

theorem mountHostfs_settled {guestPath mode : GoString} {limits ttl : ℤ} (hs : Sound U w)
    (hp : Clear U principal) (hwrites : S.writes .mounts) :
    Settled U S env P (mountHostfs env principal id guestPath mode limits ttl) .clean w := by
  refine .findApplication fun a ha => ?_
  have hid := hs.clear_id ha
  split
  · exact .fail
  next m hm =>
    refine .require fun _ => .require fun _ => .now fun t _ => .now fun t' _ => .ask ?_
    refine .editState (.shelf ⟨rfl, rfl, rfl, rfl, rfl, rfl, rfl, Nat.le_succ _, le_rfl,
      fun h => h, .inr rfl, .inr rfl, .inr rfl, .inl ⟨hwrites, rfl, ?_⟩⟩
      fun h => { h with mounts := h.mounts.insert ⟨RecordKind.valid_id .mount _, hid⟩ }) ?_
    · refine .add rfl ?_ ((Table.contents_insert _ _ _ _).subperm.trans
        (perm_append_comm.subperm.trans
          ((Table.contents_erase_subperm _ _ _).append (.refl [_]))))
      rfl
    exact .audit ⟨hp, hid, clear_lit _, (clear_lit _).append (.of_valid (valid_dec _)), clear_lit _,
      clear_hostfsMode hm⟩ fun _ _ => .persist fun _ => .pure

theorem unmountHostfs_settled {mountID : GoString} (hs : Sound U w) (hp : Clear U principal)
    (hm : Clear U mountID) (hwrites : S.writes .mounts) :
    Settled U S env P (unmountHostfs env principal mountID) .clean w := by
  refine .ask ?_
  split
  · exact .fail
  next mount hmount =>
    obtain ⟨hvalid, hid⟩ := hs.live.side.mounts mountID mount hmount
    refine .editState (.shelf ⟨rfl, rfl, rfl, rfl, rfl, rfl, rfl, le_rfl, le_rfl,
      fun h => h, .inr rfl, .inr rfl, .inr rfl, .inl ⟨hwrites, rfl, ?_⟩⟩ fun h =>
      { h with mounts := h.mounts.insert ⟨hvalid, hid⟩ }) ?_
    · exact .of_perm rfl (Table.contents_insert_of_get _ hmount rfl)
    exact .audit ⟨hp, hid, clear_lit _, hm, clear_lit _, clear_nil⟩ fun _ _ => .persist_last

theorem stageTransfer_settled {direction : Direction} {taint : UInt64} {action : String}
    (hs : Sound U w) (hp : Clear U principal) (hk : Clear U key)
    (hwrites : S.writes .transfers) (htaint : S.writes (.taint id) ∨ taint = 0) :
    Settled U S env P (stageTransfer env direction taint action principal id key payload)
      .clean w := by
  refine .findApplication fun a ha => .require fun _ => .ask ?_
  split
  · exact .pure
  refine .now fun t _ => .accumulateTaint htaint (.editState (j := .main) ?_ ?_)
  · refine .shelf ⟨rfl, rfl, rfl, rfl, rfl, rfl, rfl, Nat.le_succ _, le_rfl,
      fun h => h, .inr rfl, .inl ⟨hwrites, rfl, ?_⟩, .inr rfl, .inr rfl⟩
      fun h => { h with }
    refine reissues_transfer (n := maxTransfers) (x := ⟨transferID _, id, direction, key, payload, t⟩)
      rfl ?_ rfl
    dsimp only [Core.withState, World.setCore]
  · exact .audit ⟨hp, hs.clear_id ha, clear_lit _, (clear_lit _).append (.of_valid (valid_dec _)),
      clear_lit _, hk⟩ fun _ _ => .persist fun _ => .pure

theorem webRecord_settled {kind url : GoString} {status : ℤ} (hp : Clear U principal)
    (hid : Clear U id) (hk : Clear U kind) (hu : Clear U url) (htaint : S.writes (.taint id)) :
    Settled U S env P (webRecord env principal id kind url status) .clean w := by
  refine .ask (.require fun _ => .accumulateTaint (.inl htaint) ?_)
  exact .audit ⟨hp, hid, (clear_lit _).append hk,
    (hu.append (clear_lit _)).append (.of_valid (valid_decInt _)), clear_lit _, clear_nil⟩
    fun _ _ => .persist_last

theorem contextRead_grows {f : ContextStore → Except Err α} {s : ContextStore} (a : α)
    (t : ContextStore) (h : (f s).map (fun a => (a, s)) = .ok (a, t)) : ContextStore.Grows s t := by
  cases hf : f s with
  | error e => simp [hf, Except.map] at h
  | ok x =>
    simp only [hf, Except.map, Except.ok.injEq, Prod.mk.injEq] at h
    exact h.2 ▸ .refl s

theorem addLSFSBinding_settled {bindingID ref : GoString} {after : ℤ} (hs : Sound U w)
    (hp : Clear U principal) (hb : Clear U bindingID) :
    Settled U S env P (addLSFSBinding env principal id bindingID ref after) .clean w := by
  refine .findApplication fun a ha => .require fun _ => .require fun _ => .ask ?_
  refine .require fun _ => .require fun _ => .contextTx contextRead_grows fun _ s n =>
    .editState (j := .side) ?_ ?_
  · exact .side (.of_eq rfl) fun h => { h with bindings := h.bindings.insert hb }
  · exact .audit ⟨hp, hs.clear_id ha, clear_lit _, hb, clear_lit _, clear_lit _⟩ fun _ _ =>
      .persist_last

theorem setLSFSBindingEnabled_settled {bindingID : GoString} {enabled : Bool} (hs : Sound U w)
    (hp : Clear U principal) (hb : Clear U bindingID) :
    Settled U S env P (setLSFSBindingEnabled env principal id bindingID enabled) .clean w := by
  refine .findApplication fun a ha => .require fun _ => .ask ?_
  split
  · exact .fail
  next x hx =>
    split_ifs
    · exact .pure
    all_goals
      refine .editState (.side (.of_eq rfl) fun h =>
        { h with bindings := h.bindings.insert (hs.live.side.bindings _ x hx) }) ?_
      exact .audit ⟨hp, hs.clear_id ha, clear_lit _, hb, clear_lit _, clear_nil⟩ fun _ _ =>
        .persist_last

theorem importArtifact_settled (hs : Sound U w) (hp : Clear U principal) :
    Settled U S env P (importArtifact env principal id key payload) .clean w := by
  refine .findApplication fun a ha => .require fun _ => .require fun _ => ?_
  refine .contextTx (fun _ _ => ContextStore.exec_grows (c := .commitArtifact _ _ _ _)) fun handle s n => ?_
  exact .audit ⟨hp, hs.clear_id ha, clear_lit _, .of_valid handle.valid, clear_lit _, clear_nil⟩
    fun _ _ => .persist fun _ => .pure

end Aok.Runtime
