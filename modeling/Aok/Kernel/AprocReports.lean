import Aok.Kernel.AprocBudget

/-!
# Usage reports

What the reports of a run do to an aproc depends on three numbers of it: the id and the sequence
number of the last report that was charged, and the tokens used. A report that was delivered is not
charged again, since the sequence number has passed it by then.
-/

namespace Aok.Kernel.Aprocs
open Lib List

/-! ## The ledger -/

structure Ledger where
  lastId : UInt64
  lastSeq : UInt64
  used : UInt64

def TokenUsage.total (u : TokenUsage) : ℕ := u.inputTokens.toNat + u.outputTokens.toNat

namespace Ledger

def charges (l : Ledger) (u : TokenUsage) : Bool := u.usageId ≠ l.lastId && l.lastSeq < u.usageSeq

def settled (l : Ledger) (u : TokenUsage) : UInt64 :=
  satAdd l.used (satAdd u.inputTokens u.outputTokens)

def deliver (l : Ledger) (u : TokenUsage) : Ledger :=
  if l.charges u then ⟨u.usageId, u.usageSeq, l.settled u⟩ else l

def run (l : Ledger) (us : List TokenUsage) : Ledger := us.foldl deliver l

/-- The reports that are charged, in their order. -/
def charged : Ledger → List TokenUsage → List TokenUsage
  | _, [] => []
  | l, u :: us => if l.charges u then u :: charged (l.deliver u) us else charged (l.deliver u) us

def isOver (l : Ledger) (limit : UInt64) (u : TokenUsage) : Bool :=
  decide (limit ≠ maxWord ∧ limit < l.settled u)

def status (l : Ledger) (limit : UInt64) (u : TokenUsage) : Except Errno ℕ :=
  if u.usageId = l.lastId then .ok 0
  else if u.usageSeq ≤ l.lastSeq then .error .einval
  else if l.isOver limit u then .error .edquot
  else .ok 0

variable {l : Ledger} {u : TokenUsage} {us : List TokenUsage}

theorem charges_iff : l.charges u = true ↔ u.usageId ≠ l.lastId ∧ l.lastSeq < u.usageSeq := by
  simp [charges]

theorem deliver_of_charges (h : l.charges u = true) :
    l.deliver u = ⟨u.usageId, u.usageSeq, l.settled u⟩ := by
  simp [deliver, h]

theorem deliver_of_not_charges (h : l.charges u = false) : l.deliver u = l := by
  simp [deliver, h]

theorem lastSeq_le_deliver : l.lastSeq ≤ (l.deliver u).lastSeq := by
  unfold deliver
  split_ifs with h
  · exact UInt64.le_of_lt (charges_iff.mp h).2
  · exact UInt64.le_refl _

theorem lt_of_mem_charged {v : TokenUsage} (h : v ∈ l.charged us) : l.lastSeq < v.usageSeq := by
  induction us generalizing l with
  | nil => cases h
  | cons u us ih =>
    have hrest : v ∈ (l.deliver u).charged us → l.lastSeq < v.usageSeq :=
      fun h => UInt64.lt_of_le_of_lt lastSeq_le_deliver (ih h)
    unfold charged at h
    split_ifs at h with hc
    · rcases mem_cons.mp h with rfl | h
      · exact (charges_iff.mp hc).2
      · exact hrest h
    · exact hrest h

theorem nodup_charged (l : Ledger) (us : List TokenUsage) : (l.charged us).Nodup := by
  induction us generalizing l with
  | nil => exact .nil
  | cons u us ih =>
    unfold charged
    split_ifs with hc
    · refine nodup_cons.mpr ⟨fun h => ?_, ih _⟩
      have hlt := lt_of_mem_charged h
      simp [deliver_of_charges hc] at hlt
    · exact ih _

theorem toNat_settled : (l.settled u).toNat = min (2 ^ 64 - 1) (l.used.toNat + u.total) := by
  have hused := l.used.toNat_lt
  simp only [settled, toNat_satAdd, TokenUsage.total]
  omega

theorem used_run (l : Ledger) (us : List TokenUsage) : (l.run us).used.toNat =
    min (2 ^ 64 - 1) (l.used.toNat + ((l.charged us).map TokenUsage.total).sum) := by
  induction us generalizing l with
  | nil =>
    have hused := l.used.toNat_lt
    simp only [run, foldl_nil, charged, map_nil, sum_nil]
    omega
  | cons u us ih =>
    change ((l.deliver u).run us).used.toNat = _
    rw [ih, charged]
    split_ifs with hc
    · rw [deliver_of_charges hc, toNat_settled, map_cons, sum_cons]
      omega
    · rw [deliver_of_not_charges (by simpa using hc)]

/-- Reports that are sent one after the other, with retransmissions: each is one of those before, or
it has an id of its own and a larger sequence number than all of them. -/
abbrev IsSent (us : List TokenUsage) : Prop :=
  ∀ i : Fin us.length, us.get i ∈ us.take i ∨
    ∀ v ∈ us.take i, v.usageId ≠ (us.get i).usageId ∧ v.usageSeq < (us.get i).usageSeq

theorem IsSent.of_append {vs : List TokenUsage} (h : IsSent (us ++ vs)) : IsSent us := by
  intro i
  have hi := h ⟨i, by simp; omega⟩
  have htake : (us ++ vs).take i = us.take i := take_append_of_le_length i.isLt.le
  simpa [htake, getElem_append_left i.isLt] using hi

theorem IsSent.last (h : IsSent (us ++ [u])) :
    u ∈ us ∨ ∀ v ∈ us, v.usageId ≠ u.usageId ∧ v.usageSeq < u.usageSeq := by
  simpa using h ⟨us.length, by simp⟩

theorem not_charges_deliver (l : Ledger) (u : TokenUsage) : (l.deliver u).charges u = false := by
  cases hc : l.charges u with
  | false => rw [deliver_of_not_charges hc, hc]
  | true => simp [deliver_of_charges hc, charges]

/-- What was delivered is not charged any more. -/
theorem not_charges_run (hsent : IsSent us) : ∀ v ∈ us, (l.run us).charges v = false := by
  induction us using reverseRecOn with
  | nil => simp
  | append_singleton us u ih =>
    have hprev := ih hsent.of_append
    have hlast : l.run (us ++ [u]) = (l.run us).deliver u := by simp [run]
    intro v hv
    rw [hlast]
    rcases mem_append.mp hv with hv | hv
    · cases hc : (l.run us).charges u with
      | false => rw [deliver_of_not_charges hc, hprev v hv]
      | true =>
        rcases hsent.last with hmem | hnew
        · rw [hprev u hmem] at hc
          cases hc
        · simp [deliver_of_charges hc, charges, UInt64.le_of_lt (hnew v hv).2]
    · rw [mem_singleton.mp hv]
      exact not_charges_deliver _ u

theorem run_append (l : Ledger) (us vs : List TokenUsage) : l.run (us ++ vs) = (l.run us).run vs :=
  foldl_append

theorem run_eq_self (h : ∀ v ∈ us, l.charges v = false) : l.run us = l := by
  induction us with
  | nil => rfl
  | cons u us ih =>
    change (l.deliver u).run us = l
    rw [deliver_of_not_charges (h u mem_cons_self)]
    exact ih fun v hv => h v (mem_cons_of_mem _ hv)

theorem status_deliver {limit limit' : UInt64} (h : l.charges u = true → l.isOver limit u = false) :
    (l.deliver u).status limit' u = l.status limit u := by
  cases hc : l.charges u with
  | true =>
    obtain ⟨hid, hseq⟩ := charges_iff.mp hc
    simp [deliver_of_charges hc, status, hid, UInt64.not_le.mpr hseq, h hc]
  | false =>
    rw [deliver_of_not_charges hc]
    unfold status
    split_ifs <;> simp_all [charges]

end Ledger

/-! ## Deliveries -/

def Aproc.ledger (p : Aproc) : Ledger := ⟨p.lastUsageId, p.lastUsageSeq, p.tokensUsed⟩

theorem Aproc.Evaluates.ledger {p p' : Aproc} (h : p.Evaluates p') : p'.ledger = p.ledger := by
  simp only [Aproc.ledger, h.usageId, h.usageSeq, h.used]

theorem Aproc.report_ledger {p : Aproc} (h : p.isAlive = true) (u : TokenUsage) :
    (p.report u).2.ledger = p.ledger.deliver u := by
  unfold Aproc.report
  simp only [h, Bool.true_eq_false, if_false]
  split_ifs with hid hseq
  · exact (Ledger.deliver_of_not_charges (by simp [Ledger.charges, Aproc.ledger, hid])).symm
  · refine (Ledger.deliver_of_not_charges ?_).symm
    simp [Ledger.charges, Aproc.ledger, UInt64.not_lt.mpr hseq]
  · rw [(Aproc.resEval_evaluates _).ledger]
    have hc : p.ledger.charges u = true := Ledger.charges_iff.mpr ⟨hid, UInt64.not_le.mp hseq⟩
    exact (Ledger.deliver_of_charges hc).symm

/-- What the caller of a report gets in the end. -/
def reportAnswer : Except Errno Bool → Except Errno ℕ
  | .error e => .error e
  | .ok false => .ok 0
  | .ok true => .error .edquot

theorem Aproc.report_status {p : Aproc} (h : p.isAlive = true) (u : TokenUsage) :
    reportAnswer (p.report u).1 = p.ledger.status p.limits.tokenHardLimit u := by
  unfold Aproc.report Ledger.status
  simp only [h, Bool.true_eq_false, if_false]
  by_cases hid : u.usageId = p.lastUsageId
  · rw [if_pos hid, if_pos (show u.usageId = p.ledger.lastId from hid)]
    rfl
  rw [if_neg hid, if_neg (show u.usageId ≠ p.ledger.lastId from hid)]
  by_cases hseq : u.usageSeq ≤ p.lastUsageSeq
  · rw [if_pos hseq, if_pos (show u.usageSeq ≤ p.ledger.lastSeq from hseq)]
    rfl
  rw [if_neg hseq, if_neg (show ¬ u.usageSeq ≤ p.ledger.lastSeq from hseq)]
  change reportAnswer (.ok (p.ledger.isOver p.limits.tokenHardLimit u)) = _
  cases p.ledger.isOver p.limits.tokenHardLimit u <;> rfl

theorem Aproc.setBudget_ledger (p : Aproc) (b : Budget) : (p.setBudget b).2.ledger = p.ledger := by
  unfold Aproc.setBudget
  split_ifs
  · rfl
  · rfl
  · exact (Aproc.resEval_evaluates _).ledger

namespace Machine

/-- The well-formed report that a step delivers to the aproc. -/
def reports (k : Machine) (a : ℕ) : Op → Option TokenUsage
  | .tokenUsage fd u =>
    if u.usageId = 0 ∨ u.usageSeq = 0 then none
    else
      match k.lookup fd rightAccount with
      | .error _ => none
      | .ok (h, _) => if h.aid = a then some u else none
  | _ => none

/-- What a call of `aok_token_usage` returns. Where the step does not answer, the call goes on to
freeze the aproc, see `usage_answers`. -/
def status (k : Machine) (op : Op) : Except Errno ℕ := (k.step op).1.getD (.error .edquot)

theorem usage_answers {k : Machine} {t f : ℕ} {stage : Stage} {ok : Bool} {r : Except Errno ℕ}
    (ht : k.threads[t]? = some (.moving f .usage stage)) (h : (k.step (.run t ok)).1 = some r) :
    r = .error .edquot := by
  simp only [step, advance, ht] at h
  split at h
  · cases h
  · cases stage with
    | unlocking ret => exact (Option.some.inj h).symm
    | waiting | locked =>
      simp only [move] at h
      split_ifs at h
      all_goals first | cases h | (split at h <;> cases h)
    | entering | signalling | leaving => cases h

structure Delivery where
  usage : TokenUsage
  -- whether the settled total is within the hard limit
  fits : Bool
  status : Except Errno ℕ

def deliver (k : Machine) (a : ℕ) (op : Op) : Option Delivery :=
  match k.reports a op, k.aprocs[a]? with
  | some u, some p => some ⟨u, !p.ledger.isOver p.limits.tokenHardLimit u, k.status op⟩
  | _, _ => none

def deliveries (a : ℕ) : Machine → List Op → List Delivery
  | _, [] => []
  | k, op :: ops => (k.deliver a op).toList ++ deliveries a (k.next op) ops

def isLive (k : Machine) (a : ℕ) : Bool := (k.aprocs[a]?).any Aproc.isAlive

variable {k : Machine} {a : ℕ} {p p' : Aproc}

theorem lookup_aproc {fd : ℕ} {right : UInt64} {h : Handle} {q : Aproc}
    (hl : k.lookup fd right = .ok (h, q)) (hp : k.aprocs[h.aid]? = some p) : q = p :=
  Option.some.inj ((lookup_eq_ok hl).2.2.2.symm.trans hp)

theorem reports_eq_some {op : Op} {u : TokenUsage} (h : k.reports a op = some u)
    (hp : k.aprocs[a]? = some p) :
    (k.next op).aprocs = k.aprocs.insert a (p.report u).2 ∧
      k.status op = reportAnswer (p.report u).1 := by
  unfold reports at h
  split at h
  · next fd v =>
    split_ifs at h with hbad
    split at h
    · cases h
    · next g q hl =>
      split_ifs at h with ha
      subst ha
      obtain rfl := Option.some.inj h
      obtain rfl := lookup_aproc hl hp
      simp only [status, next, step, tokenUsage, if_neg hbad, hl]
      generalize q.report v = r
      rcases r with ⟨_ | _ | _, q'⟩ <;> exact ⟨rfl, rfl⟩
  · cases h

theorem reports_eq_none {fd : ℕ} {u : TokenUsage} (h : k.reports a (.tokenUsage fd u) = none) :
    (k.next (.tokenUsage fd u)).aprocs[a]? = k.aprocs[a]? := by
  simp only [reports] at h
  simp only [next, step, tokenUsage]
  split_ifs at h ⊢ with hbad
  · rfl
  · cases hl : k.lookup fd rightAccount with
    | error e => rfl
    | ok x =>
      obtain ⟨g, q⟩ := x
      simp only [hl] at h ⊢
      split_ifs at h with ha
      generalize q.report u = r
      rcases r with ⟨_ | _ | _, q'⟩ <;> exact Table.get_insert_ne _ _ ha

theorem next_ledger {op : Op} (hk : k.Issued) (hp : k.aprocs[a]? = some p)
    (hp' : (k.next op).aprocs[a]? = some p')
    (hlive : (k.reports a op).isSome → k.isLive a = true) :
    p'.ledger = ((k.deliver a op).elim p.ledger fun d => p.ledger.deliver d.usage) ∧
      ∀ d, k.deliver a op = some d →
        d.status = p.ledger.status p.limits.tokenHardLimit d.usage ∧
          d.fits = !p.ledger.isOver p.limits.tokenHardLimit d.usage := by
  cases hr : k.reports a op with
  | some u =>
    obtain ⟨hnext, hstatus⟩ := reports_eq_some hr hp
    have halive : p.isAlive = true := by simpa [isLive, hp] using hlive (by simp [hr])
    rw [hnext, Table.get_insert_self] at hp'
    obtain rfl := Option.some.inj hp'
    rw [p.report_status halive u] at hstatus
    simp only [deliver, hr, hp, Option.elim_some, Option.some.injEq, forall_eq']
    exact ⟨p.report_ledger halive u, hstatus, trivial⟩
  | none =>
    simp only [deliver, hr, Option.elim_none, reduceCtorEq, false_imp_iff, implies_true, and_true]
    rcases next_get hp' with hsame | ⟨q, hq, hc⟩ | ⟨ceiling, he, -⟩
    · obtain rfl := Option.some.inj (hp.symm.trans hsame)
      rfl
    · obtain rfl := Option.some.inj (hp.symm.trans hq)
      rcases hc.ledger with hsame | ⟨fd, b, -, rfl⟩ | ⟨fd, u, rfl, -⟩
      · simp [Aproc.ledger, hsame.usageId, hsame.usageSeq, hsame.used]
      · exact p.setBudget_ledger b
      · rw [reports_eq_none hr, hp] at hp'
        obtain rfl := Option.some.inj hp'
        rfl
    · have hle := hk a p hp
      omega

/-- The ledger goes through the deliveries of a run, and each of them is answered by the ledger it
finds. -/
theorem run_ledger {ops : List Op} (hk : k.Issued) (hp : k.aprocs[a]? = some p)
    (hp' : (Trace.run next k ops).aprocs[a]? = some p')
    (hlive : Trace.Along next (fun k op => (k.reports a op).isSome → k.isLive a = true) k ops) :
    p'.ledger = p.ledger.run ((deliveries a k ops).map Delivery.usage) ∧
      ∀ pre d post, deliveries a k ops = pre ++ d :: post → ∃ limit,
        d.status = (p.ledger.run (pre.map Delivery.usage)).status limit d.usage ∧
          d.fits = !(p.ledger.run (pre.map Delivery.usage)).isOver limit d.usage := by
  induction ops generalizing k p with
  | nil =>
    obtain rfl := Option.some.inj (hp.symm.trans hp')
    exact ⟨rfl, fun pre d post h => by simp [deliveries] at h⟩
  | cons op ops ih =>
    obtain ⟨q, hq⟩ := Option.isSome_iff_exists.mp (run_present hk hp hp').1.2.2
    obtain ⟨hledger, hanswer⟩ := next_ledger hk hp hq hlive.1
    obtain ⟨hend, hrest⟩ := ih (hk.next op) hq hp' hlive.2
    cases hd : k.deliver a op with
    | none =>
      rw [hd, Option.elim_none] at hledger
      rw [hledger] at hend hrest
      simpa only [deliveries, hd, Option.toList_none, nil_append] using ⟨hend, hrest⟩
    | some d₀ =>
      rw [hd, Option.elim_some] at hledger
      rw [hledger] at hend hrest
      simp only [deliveries, hd, Option.toList_some, singleton_append]
      refine ⟨hend, fun pre d post h => ?_⟩
      cases pre with
      | nil =>
        obtain ⟨rfl, -⟩ := List.cons.inj h
        exact ⟨_, hanswer _ hd⟩
      | cons x pre =>
        obtain ⟨rfl, htail⟩ := List.cons.inj h
        exact hrest pre d post htail

/-- In a run in which the aproc is live whenever a report comes in: no report is charged twice, the
tokens used are the saturating sum of the charged reports, and a report that fitted the budget when
it was first delivered is answered alike when it is repeated before the next one. -/
theorem reports_settle_once (ops mid : List Op) (a : ℕ) (p q : Aproc)
    (hp : (after ops).aprocs[a]? = some p)
    (hq : (Trace.run next (after ops) mid).aprocs[a]? = some q)
    (hlive : Trace.Along next (fun k op => (k.reports a op).isSome → k.isLive a = true)
      (after ops) mid)
    (hsent : Ledger.IsSent ((deliveries a (after ops) mid).map Delivery.usage)) :
    (p.ledger.charged ((deliveries a (after ops) mid).map Delivery.usage)).Nodup ∧
    q.tokensUsed.toNat = min (2 ^ 64 - 1) (p.tokensUsed.toNat +
      ((p.ledger.charged ((deliveries a (after ops) mid).map Delivery.usage)).map
        TokenUsage.total).sum) ∧
    ∀ pre d rest e post, deliveries a (after ops) mid = pre ++ d :: (rest ++ e :: post) →
      e.usage = d.usage → (∀ x ∈ rest, x.usage ∈ (pre ++ [d]).map Delivery.usage) →
        d.fits = true → e.status = d.status := by
  obtain ⟨hend, hanswer⟩ := run_ledger (after_issued ops) hp hq hlive
  refine ⟨Ledger.nodup_charged _ _, ?_, ?_⟩
  · have hused := Ledger.used_run p.ledger ((deliveries a (after ops) mid).map Delivery.usage)
    rwa [← hend] at hused
  · intro pre d rest e post hsplit hsame hold hfits
    obtain ⟨limit, hstatus, hover⟩ := hanswer pre d _ hsplit
    obtain ⟨limit', hagain, -⟩ := hanswer (pre ++ d :: rest) e post (by simp [hsplit])
    have hall : (deliveries a (after ops) mid).map Delivery.usage =
        (pre ++ [d]).map Delivery.usage ++ (rest ++ e :: post).map Delivery.usage := by
      simp [hsplit]
    -- the reports in between were delivered before, and so they are not charged
    have hquiet : ∀ v ∈ rest.map Delivery.usage,
        (p.ledger.run ((pre ++ [d]).map Delivery.usage)).charges v = false := by
      intro v hv
      obtain ⟨x, hx, rfl⟩ := mem_map.mp hv
      exact Ledger.not_charges_run (hall ▸ hsent).of_append _ (hold x hx)
    have hbetween : p.ledger.run ((pre ++ d :: rest).map Delivery.usage) =
        (p.ledger.run (pre.map Delivery.usage)).deliver d.usage := by
      rw [append_cons, map_append, Ledger.run_append, Ledger.run_eq_self hquiet]
      simp [Ledger.run]
    rw [hagain, hbetween, hsame, hstatus]
    refine Ledger.status_deliver fun _ => ?_
    rw [hfits] at hover
    simpa using hover.symm

/-- Two reports within the budget; both are repeated after the second. -/
def reporting : List Op :=
  [.tokenUsage 0 ⟨1, 1, 5, 0, 0⟩, .tokenUsage 0 ⟨2, 2, 3, 1, 0⟩, .tokenUsage 0 ⟨1, 1, 5, 0, 0⟩,
    .tokenUsage 0 ⟨2, 2, 3, 1, 0⟩]

example : (deliveries 1 (after newborn) reporting).length = 4 := by decide +kernel

theorem reports_settle_once_repeated :
    ∃ q, (Trace.run next (after newborn) reporting).aprocs[1]? = some q ∧
      q.tokensUsed.toNat = min (2 ^ 64 - 1) (0 + (5 + (4 + 0))) ∧
      (deliveries 1 (after newborn) reporting).map Delivery.status =
        [.ok 0, .ok 0, .error .einval, .ok 0] := by
  obtain ⟨p, q, hp, hq, hused, hcharged⟩ : ∃ p q, (after newborn).aprocs[1]? = some p ∧
      (Trace.run next (after newborn) reporting).aprocs[1]? = some q ∧ p.tokensUsed.toNat = 0 ∧
      (p.ledger.charged ((deliveries 1 (after newborn) reporting).map Delivery.usage)).map
        TokenUsage.total = [5, 4] := ⟨_, _, rfl, rfl, rfl, by decide +kernel⟩
  refine ⟨q, hq, ?_, by decide +kernel⟩
  rw [(reports_settle_once newborn reporting 1 p q hp hq (by decide +kernel)
    (by decide +kernel)).2.1, hused, hcharged]
  rfl

/-- A report over the budget is answered with `EDQUOT`, and with success when it is repeated. -/
theorem exists_repeated_over_budget :
    let spent : List Op := [.setBudget 0 ⟨maxWord, maxWord, 0, 10⟩, .tokenUsage 0 ⟨1, 1, 20, 0, 0⟩,
      .run 1 true, .run 1 true, .run 1 true, .run 1 true]
    ((after (newborn ++ spent)).step (.run 1 true)).1 = some (.error .edquot) ∧
      (after (newborn ++ spent ++ [.run 1 true])).isLive 1 = true ∧
      ((after (newborn ++ spent ++ [.run 1 true])).step (.tokenUsage 0 ⟨1, 1, 20, 0, 0⟩)).1 =
        some (.ok 0) := by
  decide +kernel

end Machine

end Aok.Kernel.Aprocs
