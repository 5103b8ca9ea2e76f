import Aok.Runtime.Auditing

/-!
# A turn that is finished after a restart

`finishTurn` stages its result before it writes to the context, so that a turn that is cut
off in between is finished from the staged record without the provider. The record keeps
the text, the usage, the provider and the reason of a failure; what the provider reported of
its cache and its compatibility key is not read back.
-/

namespace Aok.Runtime
open Lib Lib.Utf8 Lib.JsonText Lib.JsonValue Lib.Command Lib.Journal Sample

variable {K : Type} {U : Prop} {env env' : Env K} {w : World K} {id : GoString}

def RouteRecord.undated (r : RouteRecord) : RouteRecord := { r with sequence := 0, time := 0 }

structure SameAccount (a a' : Application) : Prop where
  ownerAgent : a'.ownerAgent = a.ownerAgent
  contextID : a'.contextID = a.contextID
  state : a'.state = a.state
  tokensUsed : a'.tokensUsed = a.tokensUsed
  tokenLimit : a'.tokenLimit = a.tokenLimit
  lastProvider : a'.lastProvider = a.lastProvider
  lastCompat : a'.lastCompat = a.lastCompat
  policyVersion : a'.routePolicy.version = a.routePolicy.version

/-- What the provider reported that the staged record does not keep is what the runner assumes. -/
structure Recoverable (p : Provider) (usage : Usage) (route : RouteInfo) : Prop where
  cachedTokens : usage.cachedTokens = 0
  compatKey : route.compatKey = p.compatKey
  provider : route.provider = [] → p.name = [] ∧ route.fallbacks = 0

theorem charge_status {a a' : Application} (h : SameAccount a a') (usage : Usage) (failed : Bool) :
    (a'.charge usage failed).2 = (a.charge usage failed).2 := by
  have hx : (a'.bill usage failed).isExhausted = (a.bill usage failed).isExhausted := by
    simp only [Application.isExhausted, Application.bill, h.tokensUsed, h.tokenLimit]
    rfl
  have hs : (a'.bill usage failed).state = (a.bill usage failed).state := h.state
  simp only [Application.charge, hx, hs, apply_ite Prod.snd]

theorem charge_last (a : Application) (usage : Usage) (failed : Bool) :
    (a.charge usage failed).1.lastProvider = a.lastProvider ∧
      (a.charge usage failed).1.lastCompat = a.lastCompat ∧
      (a.charge usage failed).1.routePolicy = a.routePolicy := by
  unfold Application.charge
  dsimp only
  split
  · exact ⟨rfl, rfl, rfl⟩
  · split <;> exact ⟨rfl, rfl, rfl⟩

structure SameCommit (c c' : TurnCommit) : Prop where
  result : c'.result = c.result
  record : c'.record.undated = c.record.undated
  lastProvider : c'.application.lastProvider = c.application.lastProvider
  lastCompat : c'.application.lastCompat = c.application.lastCompat

theorem turnCommit_congr {messageID checkpoint : GoString} {a a' : Application} {staged : TurnResult}
    {route route' : RouteInfo} {hit hit' : CacheHit} {denied denied' overflowed overflowed' : Bool}
    {n n' : ℕ} {t t' : ℤ} (ha : SameAccount a a') (hhit : hit' = hit)
    (hcompat : route'.compatKey = route.compatKey)
    (hroute : staged.provider = [] → route'.provider = route.provider ∧
      route'.fallbacks = route.fallbacks)
    (hdenied : denied = true → staged.failureReason = .routeDenied) (hdenied' : denied' = false)
    (hover : overflowed = true → staged.failureReason = .textOverflow) (hover' : overflowed' = false) :
    SameCommit (turnCommit id messageID a staged checkpoint route hit denied overflowed n t)
      (turnCommit id messageID a' staged checkpoint route' hit' denied' overflowed' n' t') := by
  subst hhit hdenied' hover'
  have hprovider : (if staged.provider = [] then route'.provider else staged.provider) =
      if staged.provider = [] then route.provider else staged.provider := by
    split_ifs with hp
    exacts [(hroute hp).1, rfl]
  have hfallbacks : (if staged.provider = [] then route'.fallbacks else staged.fallbacks) =
      if staged.provider = [] then route.fallbacks else staged.fallbacks := by
    split_ifs with hp
    exacts [(hroute hp).2, rfl]
  have hflag : (overflowed || staged.failureReason == .textOverflow) =
      (staged.failureReason == .textOverflow) := by
    cases overflowed with
    | false => rfl
    | true => simp [hover rfl]
  have hreason : ∀ r, r = (if staged.status = .failed ∧ staged.failureReason = .none then
      .providerFailed else staged.failureReason) → (if denied = true then .routeDenied else r) = r := by
    rintro r rfl
    cases denied with
    | false => rfl
    | true => simp [hdenied rfl]
  have hstatus := charge_status ha staged.usage (staged.status = .failed)
  obtain ⟨hlp, hlc, hpolicy⟩ := charge_last a staged.usage (staged.status = .failed)
  obtain ⟨hlp', hlc', hpolicy'⟩ := charge_last a' staged.usage (staged.status = .failed)
  constructor
  case result => simp only [turnCommit, hprovider, hfallbacks, hstatus]
  case record =>
    simp only [turnCommit, RouteRecord.undated, hprovider, hfallbacks, hstatus, hcompat, hpolicy,
      hpolicy', ha.policyVersion, hflag, Bool.false_or, hreason _ rfl, Bool.false_eq_true, if_false]
  case lastProvider =>
    simp only [turnCommit, hprovider, hstatus, apply_ite Application.lastProvider, hlp, hlp',
      ha.lastProvider]
  case lastCompat =>
    simp only [turnCommit, hcompat, hstatus, apply_ite Application.lastCompat, hlc, hlc',
      ha.lastCompat]

/-! ## The second phase -/

def Env.Faults (env : Env K) (n : ℕ) : Prop := ∃ k ≥ n, env.fault k ≠ .ok

def turnContext (sha256 : Bytes → Digest) (m : MailboxMessage) (a : Application) (text : GoString)
    (s : ContextStore) : Except Err (HexText × ContextStore) := do
  let (_, s) ← ContextStore.append sha256 a.ownerAgent a.contextID (m.messageID ++ lit ":result")
    (resultText m.payload text) s
  ContextStore.checkpoint sha256 a.ownerAgent a.contextID (m.messageID ++ lit ":checkpoint") s

structure Shows (id messageID : GoString) (c : TurnCommit) (w : World K) : Prop where
  result : w.sup.core.state.results[messageID]? = some c.result
  record : w.sup.core.state.routeRecords.getLast? = some c.record
  application : w.sup.core.state.applications[id]? = some c.application
  saved : w.db = codec.save w.sup.core

theorem getLast?_keepNewest {α : Type} {n : ℕ} (hn : 0 < n) (l : List α) (x : α) :
    (keepNewest n (l ++ [x])).getLast? = some x := by
  have hle : (l ++ [x]).length - n ≤ l.length := by simp; omega
  rw [keepNewest, List.drop_append_of_le_length hle, List.getLast?_concat]

theorem getLast?_commitTurn (s : State) (c : TurnCommit) :
    (s.commitTurn id c).routeRecords.getLast? = some c.record := by
  have hrecords : (s.commitTurn id c).routeRecords =
      keepNewest maxRouteRecords (s.routeRecords ++ [c.record]) := by simp only [State.commitTurn]
  rw [hrecords, getLast?_keepNewest (by simp [maxRouteRecords])]

theorem settleTurn_shows {m : MailboxMessage} {a : Application} {staged : TurnResult}
    {route : RouteInfo} {hit : CacheHit} {denied overflowed : Bool} :
    Ends (settleTurn env id m a staged route hit denied overflowed) w
      (fun _ w' => ∃ checkpoint s n t,
        turnContext env.sha256 m a staged.text w.contexts = .ok (checkpoint, s) ∧
        Shows id m.messageID (turnCommit id m.messageID a staged checkpoint.text route hit denied
          overflowed n t) w')
      (fun _ _ => env.Faults w.tick ∨
        ∃ e, turnContext env.sha256 m a staged.text w.contexts = .error e)
      (fun _ => env.Faults w.tick) := by
  have hfail : ∀ n ≥ w.tick, env.fault n = .fail → env.Faults w.tick := fun n hn h => ⟨n, hn, by simp [h]⟩
  have hcrash : ∀ n ≥ w.tick, env.fault n = .crash → env.Faults w.tick :=
    fun n hn h => ⟨n, hn, by simp [h]⟩
  refine ends_bind.mpr (contextTx_exact (fun r s₁ _ happend => ?_) (fun e he => ?_) (hcrash _ le_rfl))
  swap
  · refine he.imp (hfail _ le_rfl) fun he => ⟨e, ?_⟩
    rw [turnContext, he.2]
    rfl
  refine ends_bind.mpr (contextTx_exact (fun checkpoint s₂ _ hcheckpoint => ?_) (fun e he => ?_)
    (hcrash _ (Nat.le_succ _)))
  swap
  · refine he.imp (hfail _ (Nat.le_succ _)) fun he => ⟨e, ?_⟩
    rw [turnContext, happend]
    exact he.2
  refine ends_bind.mpr (ends_bind.mpr (ends_bind.mpr (ends_bind.mpr (ends_bind.mpr ?_))))
  refine persistLocked_exact (fun _ => ⟨checkpoint, s₂, w.sup.core.state.nextSequence + 1,
    env.now (w.tick + 2), ?_, ?_⟩) (fun h => .inl (hfail (w.tick + 4) (by omega) h))
    (hcrash (w.tick + 4) (by omega))
  · rw [turnContext, happend]
    exact hcheckpoint
  · constructor
    case result => exact Table.get_insert_self ..
    case record => simp only [World.commit, World.setCore, Core.audit, getLast?_commitTurn]
    case application => exact Table.get_insert_self ..
    case saved => rfl

/-! ## The first phase -/

section Finishing
variable {m : MailboxMessage} {a : Application} {text : GoString} {usage : Usage} {route : RouteInfo}
  {err : Option Err} {staged : TurnResult}

structure IsOpen (id messageID : GoString) (a : Application) (w : World K) : Prop where
  application : w.sup.core.state.applications[id]? = some a
  result : w.sup.core.state.results[messageID]? = none

theorem ends_open {k : Application → State → Op K Unit} {Q : Unit → World K → Prop}
    {E : Err → World K → Prop} {C : World K → Prop} {messageID : GoString}
    (ho : IsOpen id messageID a w) (h : Ends (k a w.sup.core.state) w Q E C) :
    Ends (do
      let a ← findApplication id
      let s ← getState
      if s.results.contains messageID then pure () else k a s) w Q E C := by
  refine ends_bind.mpr (findApplication_ends (fun b hb => ?_) fun hno => ?_)
  · cases ho.application.symm.trans hb
    refine ends_bind.mpr (ends_getState.mpr ?_)
    rwa [if_neg (by simpa using ho.result)]
  · cases ho.application.symm.trans hno

/-- What the second phase commits for the arguments of `finishTurn`. -/
def finishCommit (id : GoString) (m : MailboxMessage) (a : Application) (text : GoString)
    (usage : Usage) (route : RouteInfo) (err : Option Err) (staged : TurnResult) (checkpoint : HexText)
    (n : ℕ) (t : ℤ) : TurnCommit :=
  turnCommit id m.messageID a staged checkpoint.text route
    (cacheHitKind usage a.lastCompat route.compatKey) (decide (err = some .routeDenied))
    (err.isNone && decide (maxTextBytes < text.length)) n t

theorem finishTurn_staged (ho : IsOpen id m.messageID a w)
    (hp : w.sup.core.state.prepared[m.messageID]? = some staged) :
    Ends (finishTurn env id m text usage route err) w
      (fun _ w' => ∃ checkpoint s n t,
        turnContext env.sha256 m a staged.text w.contexts = .ok (checkpoint, s) ∧
        Shows id m.messageID (finishCommit id m a text usage route err staged checkpoint n t) w')
      (fun _ _ => env.Faults w.tick ∨
        ∃ e, turnContext env.sha256 m a staged.text w.contexts = .error e)
      (fun _ => env.Faults w.tick) := by
  refine ends_bind.mpr (ends_modify.mpr (ends_open (w := w.release id) ⟨ho.application, ho.result⟩ ?_))
  rw [show (w.release id).sup.core.state.prepared[m.messageID]? = _ from hp]
  exact settleTurn_shows

/-- The record that `finishTurn` stages. -/
def turnStaged (id : GoString) (m : MailboxMessage) (a : Application) (text : GoString) (usage : Usage)
    (route : RouteInfo) (err : Option Err) : TurnResult :=
  stagedResult id m.messageID text usage route (cacheHitKind usage a.lastCompat route.compatKey) err

def Core.stage (messageID : GoString) (staged : TurnResult) (c : Core) : Core :=
  c.withState fun s => { s with prepared := s.prepared.insert messageID staged }

theorem finishTurn_fresh {Q : Unit → World K → Prop} {E : Err → World K → Prop} {C : World K → Prop}
    (ho : IsOpen id m.messageID a w) (hp : w.sup.core.state.prepared[m.messageID]? = none)
    (h : Ends (do
        persistLocked env
        settleTurn env id m a (turnStaged id m a text usage route err) route
          (cacheHitKind usage a.lastCompat route.compatKey) (decide (err = some .routeDenied))
          (err.isNone && decide (maxTextBytes < text.length)))
      ((w.release id).setCore (w.sup.core.stage m.messageID (turnStaged id m a text usage route err)))
      Q E C) :
    Ends (finishTurn env id m text usage route err) w Q E C := by
  refine ends_bind.mpr (ends_modify.mpr (ends_open (w := w.release id) ⟨ho.application, ho.result⟩ ?_))
  rw [show (w.release id).sup.core.state.prepared[m.messageID]? = _ from hp]
  exact h

theorem finishTurn_through (ho : IsOpen id m.messageID a w)
    (hp : w.sup.core.state.prepared[m.messageID]? = none) :
    Ends (finishTurn env id m text usage route err) w
      (fun _ w' => ∃ checkpoint s n t,
        turnContext env.sha256 m a (turnStaged id m a text usage route err).text w.contexts =
          .ok (checkpoint, s) ∧
        Shows id m.messageID (finishCommit id m a text usage route err
          (turnStaged id m a text usage route err) checkpoint n t) w')
      (fun _ _ => True) (fun _ => True) := by
  refine finishTurn_fresh ho hp (ends_bind.mpr (persistLocked_ends ?_ (fun _ => trivial) trivial))
  exact settleTurn_shows.mono (fun _ _ h => h) (fun _ _ _ => trivial) fun _ _ => trivial

theorem finishTurn_cut (ho : IsOpen id m.messageID a w)
    (hp : w.sup.core.state.prepared[m.messageID]? = none) (hok : env.fault w.tick = .ok)
    (hcrash : env.fault (w.tick + 1) = .crash) :
    (finishTurn env id m text usage route err w).2.contexts = w.contexts ∧
      (finishTurn env id m text usage route err w).2.db =
        codec.save (w.sup.core.stage m.messageID (turnStaged id m a text usage route err)) := by
  refine Ends.world (P := fun w₀ : World K => w₀.contexts = w.contexts ∧ w₀.db = codec.save
    (w.sup.core.stage m.messageID (turnStaged id m a text usage route err))) ?_
  refine finishTurn_fresh ho hp (ends_bind.mpr ?_)
  refine persistLocked_exact (fun _ => ends_bind.mpr ?_) (fun h => ?_) fun h => ?_
  · refine contextTx_exact (fun _ _ h _ => ?_) (fun _ h => ?_) fun _ => ⟨rfl, rfl⟩
    · cases hcrash.symm.trans h
    · rcases h with h | h
      · cases hcrash.symm.trans h
      · cases hcrash.symm.trans h.1
  · cases hok.symm.trans h
  · cases hok.symm.trans h

end Finishing

/-! ## The restart -/

section Restart
variable {messageID : GoString} {v v' v'' : World K}

theorem SameAccount.refl (a : Application) : SameAccount a a := ⟨rfl, rfl, rfl, rfl, rfl, rfl, rfl, rfl⟩

theorem SameAccount.trans {a a' a'' : Application} (h : SameAccount a a') (h' : SameAccount a' a'') :
    SameAccount a a'' where
  ownerAgent := h'.ownerAgent.trans h.ownerAgent
  contextID := h'.contextID.trans h.contextID
  state := h'.state.trans h.state
  tokensUsed := h'.tokensUsed.trans h.tokensUsed
  tokenLimit := h'.tokenLimit.trans h.tokenLimit
  lastProvider := h'.lastProvider.trans h.lastProvider
  lastCompat := h'.lastCompat.trans h.lastCompat
  policyVersion := h'.policyVersion.trans h.policyVersion

/-- A later world has the turn, what it reads of its application and the contexts as they were. -/
structure Untouched (id messageID : GoString) (v v' : World K) : Prop where
  contexts : v'.contexts = v.contexts
  results : v'.sup.core.state.results[messageID]? = v.sup.core.state.results[messageID]?
  prepared : v'.sup.core.state.prepared[messageID]? = v.sup.core.state.prepared[messageID]?
  application : ∀ a, v.sup.core.state.applications[id]? = some a →
    ∃ a', v'.sup.core.state.applications[id]? = some a' ∧ SameAccount a a'

theorem Untouched.refl (v : World K) : Untouched id messageID v v :=
  ⟨rfl, rfl, rfl, fun a ha => ⟨a, ha, .refl a⟩⟩

theorem Untouched.trans (h : Untouched id messageID v v') (h' : Untouched id messageID v' v'') :
    Untouched id messageID v v'' where
  contexts := h'.contexts.trans h.contexts
  results := h'.results.trans h.results
  prepared := h'.prepared.trans h.prepared
  application := fun a ha => by
    obtain ⟨a', ha', hs'⟩ := h.application a ha
    obtain ⟨a'', ha'', hs''⟩ := h'.application a' ha'
    exact ⟨a'', ha'', hs'.trans hs''⟩

theorem Untouched.update {i : GoString} {f : Application → Application}
    (happ : v'.sup.core.state.applications = updateTable f i v.sup.core.state.applications)
    (hresults : v'.sup.core.state.results = v.sup.core.state.results)
    (hprepared : v'.sup.core.state.prepared = v.sup.core.state.prepared)
    (hx : v'.contexts = v.contexts) (hf : ∀ a, SameAccount a (f a)) :
    Untouched id messageID v v' := by
  refine ⟨hx, by rw [hresults], by rw [hprepared], fun a ha => ?_⟩
  rw [happ, get_updateTable, ha]
  split_ifs
  · exact ⟨f a, rfl, hf a⟩
  · exact ⟨a, rfl, .refl a⟩

theorem Untouched.of_eq
    (happ : v'.sup.core.state.applications = v.sup.core.state.applications)
    (hresults : v'.sup.core.state.results = v.sup.core.state.results)
    (hprepared : v'.sup.core.state.prepared = v.sup.core.state.prepared)
    (hx : v'.contexts = v.contexts) : Untouched id messageID v v' :=
  ⟨hx, by rw [hresults], by rw [hprepared], fun a ha => ⟨a, by rw [happ, ha], .refl a⟩⟩

def LeavesTurn (id messageID : GoString) (c : Op K Unit) (v : World K) : Prop :=
  Ends c v (fun _ => Untouched id messageID v) (fun _ _ => True) fun _ => True

theorem fillKernelID_leavesTurn (i : GoString) (v : World K) :
    LeavesTurn id messageID (fillKernelID i) v := by
  simp only [LeavesTurn, fillKernelID, ends_bind, ends_getState]
  split
  · exact .refl v
  split
  · exact .update rfl rfl rfl rfl fun _ => ⟨rfl, rfl, rfl, rfl, rfl, rfl, rfl, rfl⟩
  · exact .refl v

theorem recoverMailbox_leavesTurn (i : GoString) (v : World K) :
    LeavesTurn id messageID (recoverMailbox i) v := by
  simp only [LeavesTurn, recoverMailbox, ends_bind, ends_getState]
  split <;> exact .of_eq rfl rfl rfl rfl

theorem recoverApplication_leavesTurn (i : GoString) (v : World K) :
    LeavesTurn id messageID (recoverApplication env i) v := by
  simp only [LeavesTurn, recoverApplication, ends_bind, ends_getState]
  split
  · exact .refl v
  split
  · exact .refl v
  refine ends_bind.mpr (ends_require.mpr ⟨fun _ => ?_, fun _ => trivial⟩)
  exact Untouched.update rfl rfl rfl rfl fun _ => ⟨rfl, rfl, rfl, rfl, rfl, rfl, rfl, rfl⟩

theorem LeavesTurn.forEach {f : GoString → Op K Unit} (hf : ∀ i v, LeavesTurn id messageID (f i) v)
    (ids : List GoString) (v : World K) : LeavesTurn id messageID (forEach f ids) v :=
  forEach_ends (fun i _ hu => (hf i _).mono (fun _ _ => hu.trans) (fun _ _ h => h) fun _ h => h) ids
    (.refl v)

theorem load_leavesTurn :
    Ends (load env) w (fun _ => Untouched id messageID w.reopened) (fun _ _ => True)
      fun _ => True := by
  have hseq : ∀ {c : Op K Unit} {Q : Unit → World K → Prop} {v : World K},
      LeavesTurn id messageID c v → (∀ v', Untouched id messageID v v' → Q () v') →
      Ends c v Q (fun _ _ => True) fun _ => True := fun hc hQ =>
    hc.mono (fun _ => hQ) (fun _ _ h => h) fun _ h => h
  unfold load fillKernelIDs recoverMailboxes recoverApplications mapKeys
  simp only [ends_bind, ends_modify, ends_getState, ends_question]
  refine hseq (.forEach fillKernelID_leavesTurn _ _) fun v₁ h₁ => ?_
  refine ends_require.mpr ⟨fun _ => ?_, fun _ => trivial⟩
  refine hseq (.forEach recoverMailbox_leavesTurn _ _) fun v₂ h₂ => ?_
  refine hseq (.forEach recoverApplication_leavesTurn _ _) fun v₃ h₃ => ?_
  have hu₁ : Untouched id messageID w.reopened v₁ :=
    ⟨h₁.contexts, h₁.results, h₁.prepared, h₁.application⟩
  have hu₂ : Untouched id messageID v₁ v₂ :=
    ⟨h₂.contexts, h₂.results, h₂.prepared, h₂.application⟩
  have hu₃ : Untouched id messageID v₂ v₃ :=
    ⟨h₃.contexts, h₃.results, h₃.prepared, h₃.application⟩
  exact persistLocked_ends ((hu₁.trans (hu₂.trans hu₃)).trans (.of_eq rfl rfl rfl rfl))
    (fun _ => trivial) trivial

end Restart

/-! ## The turn that is resumed -/

section Resumed
variable {m m' : MailboxMessage} {a : Application} {text : GoString} {usage : Usage}
  {route : RouteInfo} {err : Option Err} {p : Provider}

theorem turnStaged_image (hid : valid id = true) (hm : valid m.messageID = true)
    (htext : valid text = true) (hroute : valid route.provider = true) :
    (turnStaged id m a text usage route err).image = turnStaged id m a text usage route err := by
  have hnil : sanitize [] = [] := sanitize_of_valid rfl
  unfold turnStaged stagedResult
  cases err with
  | some e =>
    simp [TurnResult.image, sanitize_of_valid hid, sanitize_of_valid hm, sanitize_of_valid hroute, hnil]
  | none =>
    dsimp only
    split
    all_goals simp [TurnResult.image, sanitize_of_valid hid, sanitize_of_valid hm,
      sanitize_of_valid hroute, sanitize_of_valid htext, hnil]

theorem turnStaged_denied (h : decide (err = some .routeDenied) = true) :
    (turnStaged id m a text usage route err).failureReason = .routeDenied := by
  rw [of_decide_eq_true h]
  rfl

theorem turnStaged_overflow (h : (err.isNone && decide (maxTextBytes < text.length)) = true) :
    (turnStaged id m a text usage route err).failureReason = .textOverflow := by
  obtain ⟨hnone, hlen⟩ := Bool.and_eq_true_iff.mp h
  cases Option.isNone_iff_eq_none.mp hnone
  simp [turnStaged, stagedResult, of_decide_eq_true hlen]

theorem turnStaged_provider :
    (turnStaged id m a text usage route err).provider = route.provider := by
  unfold turnStaged stagedResult
  cases err with
  | some e => rfl
  | none =>
    dsimp only
    split <;> rfl

theorem finishCommit_congr {a' : Application} {checkpoint : HexText} {n n' : ℕ} {t t' : ℤ}
    (ha : SameAccount a a') (hm : m'.messageID = m.messageID) (hr : Recoverable p usage route) :
    SameCommit
      (finishCommit id m a text usage route err (turnStaged id m a text usage route err) checkpoint n t)
      (finishCommit id m' a' [] ⟨0, 0, 0⟩ p.route none (turnStaged id m a text usage route err)
        checkpoint n' t') := by
  unfold finishCommit
  rw [hm]
  refine turnCommit_congr ha ?_ hr.compatKey.symm (fun hp => ?_) turnStaged_denied rfl
    turnStaged_overflow rfl
  · simp [cacheHitKind, hr.cachedTokens, hr.compatKey, ha.lastCompat, Provider.route]
  · rw [turnStaged_provider] at hp
    obtain ⟨hname, hfallbacks⟩ := hr.provider hp
    exact ⟨hname.trans hp.symm, hfallbacks.symm⟩

def SameTurn (id messageID : GoString) (w w' : World K) : Prop :=
  ∃ c c', Shows id messageID c w ∧ Shows id messageID c' w' ∧ SameCommit c c'

/-- What a restart finds of a turn that was cut off after it was staged. -/
structure Finds (id messageID : GoString) (a : Application) (staged : TurnResult) (x : ContextStore)
    (v : World K) : Prop where
  contexts : v.contexts = x
  result : v.sup.core.state.results[messageID]? = none
  prepared : v.sup.core.state.prepared[messageID]? = some staged
  application : ∃ a', v.sup.core.state.applications[id]? = some a' ∧ SameAccount a a'

theorem Finds.untouched {messageID : GoString} {staged : TurnResult} {x : ContextStore}
    {v v' : World K} (h : Finds id messageID a staged x v) (hu : Untouched id messageID v v') :
    Finds id messageID a staged x v' := by
  obtain ⟨a', ha', hs'⟩ := h.application
  obtain ⟨a'', ha'', hs''⟩ := hu.application a' ha'
  exact ⟨hu.contexts.trans h.contexts, hu.results.trans h.result, hu.prepared.trans h.prepared, a'',
    ha'', hs'.trans hs''⟩

theorem finds_reopened {w₀ : World K} {messageID : GoString} {staged : TurnResult}
    (hw : WellFormed U w.sup.core) (ho : IsOpen id messageID a w) (hm : valid messageID = true)
    (ha : a.image = a) (hs : staged.image = staged) (hx : w₀.contexts = w.contexts)
    (hdb : w₀.db = codec.save (w.sup.core.stage messageID staged)) :
    Finds id messageID a staged w.contexts w₀.reopened := by
  have happs : Each (fun k _ => valid k = true) w.sup.core.state.applications :=
    fun k a h => (hw.named.applications k a h).1
  have hresults : Each (fun k _ => valid k = true) w.sup.core.state.results :=
    fun k r h => (hw.named.results k r h).1
  have hprepared : Each (fun k _ => valid k = true)
      (w.sup.core.state.prepared.insert messageID staged) := Each.insert hw.named.prepared hm
  refine ⟨hx, ?_, ?_, a, ?_, .refl a⟩
  · change w₀.db.results[messageID]? = none
    rw [hdb]
    exact (get_imageTable_of_valid hresults messageID).trans (by rw [ho.result]; rfl)
  · change w₀.db.prepared[messageID]? = some staged
    rw [hdb]
    refine (get_imageTable_of_valid hprepared messageID).trans ?_
    rw [Table.get_insert_self, Option.map_some, hs]
  · change w₀.db.applications[id]? = some a
    rw [hdb]
    exact (get_imageTable_of_valid happs id).trans (by rw [ho.application, Option.map_some, ha])

theorem Finds.finishTurn {v w₁ : World K}
    (hf : Finds id m.messageID a (turnStaged id m a text usage route err) w.contexts v)
    (ho : IsOpen id m.messageID a w) (hp : w.sup.core.state.prepared[m.messageID]? = none)
    (hrun : finishTurn env id m text usage route err w = (.ok (), w₁))
    (hm : m'.messageID = m.messageID) (hpayload : m'.payload = m.payload)
    (hsha : env'.sha256 = env.sha256) (hr : Recoverable p usage route) :
    Ends (finishTurn env' id m' [] ⟨0, 0, 0⟩ p.route none) v
      (fun _ v₁ => SameTurn id m.messageID w₁ v₁) (fun _ _ => env'.Faults v.tick)
      (fun _ => env'.Faults v.tick) := by
  obtain ⟨checkpoint, x, n, t, hcontext, hshows⟩ := (finishTurn_through ho hp).value
    (congrArg Prod.fst hrun)
  rw [hrun] at hshows
  obtain ⟨a', ha', hsame⟩ := hf.application
  have hcontext' : turnContext env'.sha256 m' a' (turnStaged id m a text usage route err).text
      v.contexts = .ok (checkpoint, x) := by
    rw [← hcontext, hf.contexts, hsha]
    simp only [turnContext, hm, hpayload, hsame.ownerAgent, hsame.contextID]
  have ho' : IsOpen id m'.messageID a' v := ⟨ha', hm ▸ hf.result⟩
  refine (finishTurn_staged ho' (hm ▸ hf.prepared)).mono ?_ ?_ fun _ h => h
  · rintro _ v₁ ⟨checkpoint', x', n', t', hc, hshows'⟩
    cases hcontext'.symm.trans hc
    rw [hm] at hshows'
    exact ⟨_, _, hshows, hshows', finishCommit_congr hsame hm hr⟩
  · rintro _ _ (h | ⟨e, he⟩)
    · exact h
    · cases hcontext'.symm.trans he

end Resumed

def Sample.cut (n : ℕ) : Env Unit := { Sample.calm with fault := fun k => if k = n then .crash else .ok }

def Sample.untilFinish : List (Event Unit) :=
  create ++ [send "k"] ++ claimFirst ++ (finish 0).take 4

/-- The events up to the end of a first turn for which the provider reports a cached token. -/
def Sample.cached : List (Event Unit) :=
  create ++ [send "k"] ++ claimFirst ++
    [.work 0, .work 0, .complete 0 { completion with usage := ⟨3, 4, 1⟩ }, .work 0, .work 0]

end Aok.Runtime
