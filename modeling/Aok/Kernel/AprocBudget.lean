import Aok.Kernel.AprocLife
import Aok.Runtime.Limits

/-!
# Token budgets of agent processes

The ledger of an aproc changes under two calls only, and each of them evaluates the resource state
anew. So the state is at all times the enforcement level of the limit and the usage, and for limits
that both sides take for limits the supervisor draws the same two lines.
-/

namespace Aok.Kernel.Aprocs
open Lib

inductive ResLevel where
  | within
  | throttle
  | freeze
deriving DecidableEq

def ResLevel.code : ResLevel → UInt32
  | .within => 0
  | .throttle => 1
  | .freeze => 2

/-- `aok_res_level`. -/
def resLevel (limit used div : UInt64) : ResLevel :=
  if limit = maxWord then .within
  else if limit ≤ used then .freeze
  else if limit - limit / div ≤ used then .throttle
  else .within

theorem toNat_pressure (limit : UInt64) :
    (limit - limit / 5).toNat = limit.toNat - limit.toNat / 5 := by
  have hle : limit / 5 ≤ limit := by
    rw [UInt64.le_iff_toNat_le, UInt64.toNat_div]
    exact Nat.div_le_self _ _
  rw [UInt64.toNat_sub_of_le _ _ hle, UInt64.toNat_div]
  rfl

namespace Aproc

def budgetCode (e : EventSlot) : Option UInt32 := if e.kind = .budget then some e.state else none

def level (p : Aproc) : ResLevel := resLevel p.limits.tokenHardLimit p.tokensUsed 5

structure SameLedger (p p' : Aproc) : Prop where
  limits : p'.limits = p.limits
  used : p'.tokensUsed = p.tokensUsed
  usageId : p'.lastUsageId = p.lastUsageId
  usageSeq : p'.lastUsageSeq = p.lastUsageSeq
  res : p'.resState = p.resState
  log : ∃ new, p'.log = p.log ++ new ∧ new.filterMap budgetCode = []

theorem SameLedger.of_log {p p' : Aproc} (hl : p'.limits = p.limits)
    (hu : p'.tokensUsed = p.tokensUsed) (hi : p'.lastUsageId = p.lastUsageId)
    (hs : p'.lastUsageSeq = p.lastUsageSeq) (hr : p'.resState = p.resState)
    (hlog : p'.log = p.log) : SameLedger p p' :=
  ⟨hl, hu, hi, hs, hr, [], by simp [hlog], rfl⟩

theorem emit_sameLedger {p q : Aproc} (kind : AprocEvent) (hkind : kind ≠ .budget) {koid : ℕ}
    {code : UInt32} (hl : q.limits = p.limits) (hu : q.tokensUsed = p.tokensUsed)
    (hi : q.lastUsageId = p.lastUsageId) (hs : q.lastUsageSeq = p.lastUsageSeq)
    (hr : q.resState = p.resState) (hlog : q.log = p.log) :
    SameLedger p (q.emit kind koid code) := by
  refine ⟨hl, hu, hi, hs, hr, [⟨q.aid, koid, q.eventSeq + 1, kind, code⟩], ?_, ?_⟩
  · rw [emit_log, hlog]
  · simp [budgetCode, hkind]

theorem transition_sameLedger (p : Aproc) (c : Cause) :
    p.SameLedger (p.transition c.state c.automatic c.resource).2 := by
  have hm := transition_moves p c
  generalize (p.transition c.state c.automatic c.resource).2 = q at hm ⊢
  cases hm with
  | stays => exact .of_log rfl rfl rfl rfl rfl rfl
  | marks => exact .of_log rfl rfl rfl rfl rfl rfl
  | moves => exact emit_sameLedger .state (by decide) rfl rfl rfl rfl rfl rfl

theorem reap_sameLedger (p : Aproc) : p.SameLedger p.reap.2 := by
  unfold reap
  split
  · exact emit_sameLedger .state (by decide) rfl rfl rfl rfl rfl rfl
  · exact emit_sameLedger .state (by decide) rfl rfl rfl rfl rfl rfl
  · exact .of_log rfl rfl rfl rfl rfl rfl
  · exact .of_log rfl rfl rfl rfl rfl rfl

end Aproc

theorem Change.ledger {k : Machine} {op : Op} {a : ℕ} {p p' : Aproc} (h : Change k op a p p') :
    p.SameLedger p' ∨ (∃ fd b, op = .setBudget fd b ∧ p' = (p.setBudget b).2) ∨
      ∃ fd u, op = .tokenUsage fd u ∧ p' = (p.report u).2 := by
  cases h with
  | refs | lock => exact .inl (.of_log rfl rfl rfl rfl rfl rfl)
  | enlist =>
    exact .inl (Aproc.emit_sameLedger .taskJoined (by decide) rfl rfl rfl rfl rfl rfl)
  | exit => exact .inl (Aproc.emit_sameLedger .taskExited (by decide) rfl rfl rfl rfl rfl rfl)
  | transition t f c => exact .inl (p.transition_sameLedger c)
  | reap => exact .inl p.reap_sameLedger
  | setBudget b h =>
    obtain ⟨fd, h⟩ := h
    exact .inr (.inl ⟨fd, b, h, rfl⟩)
  | report u h =>
    obtain ⟨fd, h⟩ := h
    exact .inr (.inr ⟨fd, u, h, rfl⟩)

/-! ## The evaluation -/

namespace Aproc

variable {p p' q : Aproc}

/-- The budget events of a change tell the new state if it is another one. -/
def Tells (p p' : Aproc) : Prop :=
  ∃ new, p'.log = p.log ++ new ∧
    new.filterMap budgetCode = if p'.resState = p.resState then [] else [p'.resState.code]

theorem Tells.refl (p : Aproc) : p.Tells p := ⟨[], by simp, by simp⟩

theorem SameLedger.tells (h : p.SameLedger p') : p.Tells p' := by
  obtain ⟨new, hlog, hnone⟩ := h.log
  exact ⟨new, hlog, by rw [hnone, if_pos h.res]⟩

structure Evaluates (p p' : Aproc) : Prop where
  limits : p'.limits = p.limits
  used : p'.tokensUsed = p.tokensUsed
  usageId : p'.lastUsageId = p.lastUsageId
  usageSeq : p'.lastUsageSeq = p.lastUsageSeq
  state : p'.state = p.state
  rated : p'.resState.code = p'.level.code
  tells : p.Tells p'

theorem setRes_evaluates (p : Aproc) {r : ResState} (hr : r.code = p.level.code) :
    p.Evaluates (if r = p.resState then p
      else emit { p with resState := r } .budget 0 r.code) := by
  split_ifs with hsame
  · exact ⟨rfl, rfl, rfl, rfl, rfl, hsame ▸ hr, .refl p⟩
  · refine ⟨rfl, rfl, rfl, rfl, rfl, hr, [⟨p.aid, 0, p.eventSeq + 1, .budget, r.code⟩], rfl, ?_⟩
    simp [budgetCode, emit, hsame]

theorem resEval_evaluates (p : Aproc) : p.Evaluates p.resEval := by
  refine p.setRes_evaluates ?_
  unfold level resLevel
  split_ifs <;> rfl

/-- The limits get no wider and the usage no smaller. -/
structure Narrows (p p' : Aproc) : Prop where
  cpu : p'.limits.cpuUsecLimit ≤ p.limits.cpuUsecLimit
  memory : p'.limits.memoryBytesLimit ≤ p.limits.memoryBytesLimit
  reserve : p'.limits.tokenReserve ≤ p.limits.tokenReserve
  hard : p'.limits.tokenHardLimit ≤ p.limits.tokenHardLimit
  used : p.tokensUsed ≤ p'.tokensUsed

theorem Narrows.of_eq (hl : p'.limits = p.limits) (hu : p.tokensUsed ≤ p'.tokensUsed) :
    p.Narrows p' := by
  refine ⟨?_, ?_, ?_, ?_, hu⟩ <;> rw [hl] <;> exact UInt64.le_refl _

theorem Narrows.trans (h : p.Narrows p') (h' : p'.Narrows q) : p.Narrows q :=
  ⟨UInt64.le_trans h'.cpu h.cpu, UInt64.le_trans h'.memory h.memory,
    UInt64.le_trans h'.reserve h.reserve, UInt64.le_trans h'.hard h.hard,
    UInt64.le_trans h.used h'.used⟩

end Aproc

theorem toNat_satAdd (a b : UInt64) :
    (satAdd a b).toNat = min (2 ^ 64 - 1) (a.toNat + b.toNat) := by
  have ha := a.toNat_lt
  have hb := b.toNat_lt
  have hsum := UInt64.toNat_add a b
  have hmax : maxWord.toNat = 2 ^ 64 - 1 := rfl
  unfold satAdd
  simp only [UInt64.lt_iff_toNat_lt]
  split_ifs <;> omega

theorem le_satAdd (a b : UInt64) : a ≤ satAdd a b := by
  have ha := a.toNat_lt
  rw [UInt64.le_iff_toNat_le, toNat_satAdd]
  omega

namespace Aproc

variable {p p' : Aproc}

/-- What a call does to the ledger: it narrows, tells a change of the resource state, and leaves the
state rated. -/
structure Settles (p p' : Aproc) : Prop where
  narrows : p.Narrows p'
  tells : p.Tells p'
  rated : p.resState.code = p.level.code → p'.resState.code = p'.level.code

theorem SameLedger.settles (h : p.SameLedger p') : p.Settles p' where
  narrows := .of_eq h.limits (h.used.symm ▸ UInt64.le_refl _)
  tells := h.tells
  rated hr := by
    unfold level at hr ⊢
    rw [h.res, h.limits, h.used, hr]

theorem Evaluates.settles {q : Aproc} (h : q.Evaluates p') (hn : p.Narrows q)
    (hres : q.resState = p.resState) (hlog : q.log = p.log) : p.Settles p' where
  narrows := hn.trans (.of_eq h.limits (h.used.symm ▸ UInt64.le_refl _))
  tells := by
    obtain ⟨new, hnew, htold⟩ := h.tells
    exact ⟨new, hlog ▸ hnew, hres ▸ htold⟩
  rated _ := h.rated

theorem setBudget_settles (p : Aproc) (b : Budget) : p.Settles (p.setBudget b).2 := by
  have hsame : p.SameLedger p := .of_log rfl rfl rfl rfl rfl rfl
  unfold setBudget
  split_ifs with halive hwide
  · exact hsame.settles
  · exact hsame.settles
  · simp only [not_or, UInt64.not_lt] at hwide
    obtain ⟨hcpu, hmem, hres, hhard⟩ := hwide
    exact (resEval_evaluates _).settles ⟨hcpu, hmem, hres, hhard, UInt64.le_refl _⟩ rfl rfl

theorem report_settles (p : Aproc) (u : TokenUsage) : p.Settles (p.report u).2 := by
  have hsame : p.SameLedger p := .of_log rfl rfl rfl rfl rfl rfl
  unfold report
  split_ifs with halive hid hseq
  · exact hsame.settles
  · exact hsame.settles
  · exact hsame.settles
  · exact (resEval_evaluates _).settles (.of_eq rfl (le_satAdd _ _)) rfl rfl

end Aproc

theorem Change.settles {k : Machine} {op : Op} {a : ℕ} {p p' : Aproc} (h : Change k op a p p') :
    p.Settles p' := by
  rcases h.ledger with hsame | ⟨fd, b, -, rfl⟩ | ⟨fd, u, -, rfl⟩
  · exact hsame.settles
  · exact p.setBudget_settles b
  · exact p.report_settles u

/-! ## Over a run -/

namespace Machine
open Aproc

variable {k : Machine} {a : ℕ} {p p' : Aproc}

theorem after_rated (ops : List Op) (hp : (after ops).aprocs[a]? = some p) :
    p.resState.code = p.level.code :=
  along_aprocs (P := fun _ _ => True) (Q := fun p => p.resState.code = p.level.code)
    (fun _ _ => by simp [fresh, level, resLevel, ResState.code, ResLevel.code])
    (fun _ _ _ _ _ _ _ hc hq => hc.settles.rated hq) (Trace.along_true _ _) a p hp

theorem next_settles {op : Op} (hk : k.Issued) (hp : k.aprocs[a]? = some p)
    (hp' : (k.next op).aprocs[a]? = some p') : p.Settles p' := by
  rcases next_get hp' with hsame | ⟨q, hq, hc⟩ | ⟨ceiling, he, -⟩
  · obtain rfl := Option.some.inj (hp.symm.trans hsame)
    exact SameLedger.settles (.of_log rfl rfl rfl rfl rfl rfl)
  · obtain rfl := Option.some.inj (hp.symm.trans hq)
    exact hc.settles
  · have hle := hk a p hp
    omega

theorem run_narrows (hk : k.Issued) (hp : k.aprocs[a]? = some p) (mid : List Op)
    (hp' : (Trace.run next k mid).aprocs[a]? = some p') : p.Narrows p' := by
  refine (Trace.run_keeps (I := fun k : Machine => k.Issued ∧ a ≤ k.nextAid ∧
    ∀ q, k.aprocs[a]? = some q → p.Narrows q) ?_ ⟨hk, hk a p hp, ?_⟩ mid).2.2 p' hp'
  · intro k op ⟨hissued, ha, hn⟩
    refine ⟨hissued.next op, ha.trans (next_nextAid k op), fun q hq => ?_⟩
    rcases next_get hq with hsame | ⟨q₀, hq₀, hc⟩ | ⟨ceiling, he, -⟩
    · exact hn q hsame
    · exact (hn q₀ hq₀).trans hc.settles.narrows
    · omega
  · intro q hq
    obtain rfl := Option.some.inj (hp.symm.trans hq)
    exact .of_eq rfl (UInt64.le_refl _)

end Machine

/-! ## The supervisor -/

open Aok.Runtime (Env World Supervisor GoString Reachable)
open Lib.JsonText (lit)
open Lib.Command

variable {a : Runtime.Application}

theorem resLevel_freeze_iff (h0 : a.tokenLimit ≠ 0) (hmax : a.tokenLimit ≠ maxWord) :
    resLevel a.tokenLimit a.tokensUsed 5 = .freeze ↔ a.isExhausted = true := by
  have hpos : (0 : UInt64) < a.tokenLimit := UInt64.pos_iff_ne_zero.mpr h0
  unfold resLevel Runtime.Application.isExhausted
  simp only [if_neg hmax, hpos, decide_true, Bool.true_and, decide_eq_true_eq]
  split_ifs <;> simp_all

theorem setApplicationState_refused_iff {K : Type} {env : Env K} {w : World K}
    {principal id : GoString} (ha : w.sup.core.state.applications[id]? = some a)
    (htomb : a.state ≠ .tombstoned) :
    (Runtime.setApplicationState env principal id (lit "serving") w).1 =
      .error (.new "token budget exhausted") ↔ a.isExhausted = true := by
  have hserving : Runtime.requestedState (lit "serving") = some .serving := by decide
  refine Ends.error_iff ?_
  simp only [Runtime.setApplicationState, Runtime.findApplication, Runtime.getState, hserving,
    Runtime.updateApplication, Runtime.editState, Runtime.auditLocked, Runtime.now, ends_bind,
    ends_ask, ha, ends_pure, ends_require, Runtime.ends_editCore, Runtime.ends_question]
  refine ⟨fun _ => ⟨fun hwithin => ?_, fun hx => ?_⟩, absurd htomb⟩
  · have hno : ¬ a.isExhausted = true := fun hx => hwithin ⟨trivial, hx⟩
    exact Runtime.persistLocked_exact (fun _ => hno) (fun _ => by simp [hno]) fun _ => hno
  · exact iff_of_true trivial (not_not.mp hx).2

theorem isEligible_iff {s : Supervisor} {time : ℤ} {id : GoString} (h0 : a.tokenLimit ≠ 0)
    (hmax : a.tokenLimit ≠ maxWord) (hserve : a.state = .serving) (hwake : a.wakePolicy ≠ .manual)
    (hfree : id ∉ s.inflight) :
    s.isEligible time id a = true ↔ (resLevel a.tokenLimit a.tokensUsed 5 = .throttle →
      ∀ last, s.lastClaim[id]? = some last → Runtime.throttleClaimInterval ≤ time - last) := by
  have hpos : (0 : UInt64) < a.tokenLimit := UInt64.pos_iff_ne_zero.mpr h0
  have hthrottle : resLevel a.tokenLimit a.tokensUsed 5 = .throttle ↔
      a.tokensUsed < a.tokenLimit ∧ a.tokenLimit - a.tokenLimit / 5 ≤ a.tokensUsed := by
    unfold resLevel
    rw [if_neg hmax, ← UInt64.not_le]
    split_ifs with hover hpress <;> simp_all
  have hwake' : (a.wakePolicy != .manual) = true := by simpa using hwake
  rw [hthrottle]
  simp only [Supervisor.isEligible, Supervisor.isThrottled, hserve, hwake', hfree, hpos]
  cases hlast : s.lastClaim[id]? with
  | none => simp
  | some last =>
    simp only [Bool.true_and, BEq.rfl, decide_true, Bool.not_eq_true', decide_not, Bool.not_false,
      decide_false, Bool.and_eq_false_iff, decide_eq_false_iff_not, not_lt, Option.some.injEq,
      forall_eq', and_imp]
    tauto

open Machine

/-- In every run: the resource state of an aproc is the level of its limit and usage, whose threshold
does not wrap; limits get no wider and usage no smaller; a step emits a budget event exactly if it
changes the state, with the new one. The supervisor draws the same lines: what is at the level of a
freeze does not serve and cannot be made to, and what serves is held back between two claims exactly
at the level of a throttle. -/
theorem budget_levels (ops : List Op) :
    (∀ (i : ℕ) p, (after ops).aprocs[i]? = some p → p.resState.code = p.level.code) ∧
    (∀ limit : UInt64, (limit - limit / 5).toNat = limit.toNat - limit.toNat / 5) ∧
    (∀ (i : ℕ) p mid p', (after ops).aprocs[i]? = some p →
      (Trace.run next (after ops) mid).aprocs[i]? = some p' → p.Narrows p') ∧
    (∀ op (i : ℕ) p p', (after ops).aprocs[i]? = some p →
      ((after ops).next op).aprocs[i]? = some p' → p.Tells p') ∧
    ∀ a : Runtime.Application, a.tokenLimit ≠ 0 → a.tokenLimit ≠ maxWord →
      (∀ (K : Type) (env : Env K) s (id : GoString), Reachable env (fun s e => e.IsFresh env s) s →
        s.up = true → s.world.sup.core.state.applications[id]? = some a → a.state = .serving →
          resLevel a.tokenLimit a.tokensUsed 5 ≠ .freeze) ∧
      (∀ (K : Type) (env : Env K) w principal (id : GoString),
        w.sup.core.state.applications[id]? = some a → a.state ≠ .tombstoned →
          ((Runtime.setApplicationState env principal id (lit "serving") w).1 =
            .error (.new "token budget exhausted") ↔
              resLevel a.tokenLimit a.tokensUsed 5 = .freeze)) ∧
      ∀ (s : Supervisor) time id, a.state = .serving → a.wakePolicy ≠ .manual → id ∉ s.inflight →
        (s.isEligible time id a = true ↔ (resLevel a.tokenLimit a.tokensUsed 5 = .throttle →
          ∀ last, s.lastClaim[id]? = some last →
            Runtime.throttleClaimInterval ≤ time - last)) := by
  have hissued := after_issued ops
  refine ⟨fun i p hp => after_rated ops hp, toNat_pressure,
    fun i p mid p' hp hp' => run_narrows hissued hp mid hp',
    fun op i p p' hp hp' => (next_settles hissued hp hp').tells, fun a h0 hmax => ⟨?_, ?_, ?_⟩⟩
  · intro K env s id hs hup ha hserving hfreeze
    have hwithin := hs.holds (Runtime.servesWithin_lasting (U := False) (S := .all False))
      (fun _ _ he => .ofFresh he False.elim False.elim) Runtime.servesWithin_empty
    have hno := Runtime.Application.isWithin_iff.mp ((hwithin.store hup).live id a ha hserving)
    rw [(resLevel_freeze_iff h0 hmax).mp hfreeze] at hno
    cases hno
  · intro K env w principal id ha htomb
    rw [setApplicationState_refused_iff ha htomb, resLevel_freeze_iff h0 hmax]
  · exact fun s time id => isEligible_iff h0 hmax

namespace Machine

/-- Eight of ten tokens are used. -/
def pressed : List Op :=
  newborn ++ [.setBudget 0 ⟨maxWord, maxWord, 0, 10⟩, .tokenUsage 0 ⟨1, 1, 5, 3, 0⟩]

theorem budget_levels_pressed :
    ∃ p, (after pressed).aprocs[1]? = some p ∧ p.resState = .pressure ∧
      p.resState.code = p.level.code ∧ ∃ a : Runtime.Application, a.tokensUsed = p.tokensUsed ∧
        a.tokenLimit = p.limits.tokenHardLimit ∧ ∀ (s : Supervisor) id, id ∉ s.inflight →
          s.lastClaim[id]? = some 0 → s.isEligible 1 id a = false := by
  obtain ⟨hrated, -, -, -, hagree⟩ := budget_levels pressed
  refine ⟨_, rfl, rfl, hrated 1 _ rfl, { Runtime.newApplication [] [] [] 1 .onEvent 0 0 with
    tokensUsed := 8, tokenLimit := 10 }, rfl, rfl, fun s id hfree hlast => ?_⟩
  rw [Bool.eq_false_iff, ne_eq, (hagree _ (by decide) (by decide)).2.2 s 1 id rfl (by decide) hfree]
  intro h
  exact absurd (h (by decide) 0 hlast) (by decide)

end Machine

end Aok.Kernel.Aprocs
