import Aok.Kernel.InferProvider
import Aok.Runtime.System

/-!
# Routers and wrapped providers

The runner calls one provider: a backend, a router that tries its backends in turn, or the kernel
inference provider over either. The route policy of an application reaches them by two ways, the
name check of the runner and the candidates of the router.
-/

namespace Aok.Runtime
open Lib Lib.JsonText Lib.JsonValue Lib.Command

structure Backend where
  provider : Provider
  answer : Completion
deriving DecidableEq

namespace Backend

def name (b : Backend) : GoString := b.provider.name

def compatKey (b : Backend) : GoString := b.provider.compatKey

end Backend

inductive ContextErr where
  | canceled
  | deadlineExceeded
deriving DecidableEq

def ContextErr.err : ContextErr → Err
  | .canceled => .new "context canceled"
  | .deadlineExceeded => .new "context deadline exceeded"

/-- What the routing code reads of its surroundings: the answers of `ctx.Err()` in one call, the
texts of errors, and Go's quoted form of a string. -/
structure Surroundings where
  ctxErr : ℕ → Option ContextErr
  errorText : Err → GoString
  quoted : GoString → GoString

variable (around : Surroundings)

def failedCall (e : Err) : Completion := ⟨[], ⟨0, 0, 0⟩, ⟨[], 0, []⟩, 0, some e⟩

/-! ## The router -/

/-- A `RouterProvider` has backends with names, and no name twice. -/
structure Router where
  providers : List Backend
  nonempty : providers ≠ []
  named : ∀ b ∈ providers, b.name ≠ []
  distinct : (providers.map Backend.name).Nodup

/-- The loop of `NewRouterProvider`, with the names already seen. -/
def checkProviders : List GoString → List Backend → Except Err Unit
  | _, [] => .ok ()
  | seen, b :: rest =>
    if b.name = [] then .error (.new "router provider is invalid")
    else if b.name ∈ seen then
      .error (.described (lit "router provider " ++ around.quoted b.name ++ lit " is duplicated"))
    else checkProviders (b.name :: seen) rest

theorem checkProviders_ok {seen : List GoString} {bs : List Backend}
    (h : checkProviders around seen bs = .ok ()) :
    (∀ b ∈ bs, b.name ≠ []) ∧ (bs.map Backend.name).Nodup ∧ ∀ b ∈ bs, b.name ∉ seen := by
  induction bs generalizing seen with
  | nil => simp
  | cons b rest ih =>
    rw [checkProviders] at h
    by_cases hempty : b.name = []
    · simp [hempty] at h
    by_cases hseen : b.name ∈ seen
    · simp [hempty, hseen] at h
    rw [if_neg hempty, if_neg hseen] at h
    obtain ⟨hnamed, hdistinct, hfresh⟩ := ih h
    refine ⟨?_, ?_, ?_⟩
    · simpa [hempty] using hnamed
    · rw [List.map_cons, List.nodup_cons]
      refine ⟨fun hmem => ?_, hdistinct⟩
      obtain ⟨c, hc, hname⟩ := List.mem_map.mp hmem
      exact hfresh c hc (hname ▸ List.mem_cons_self)
    · intro c hc
      rcases List.mem_cons.mp hc with rfl | hc
      · exact hseen
      · exact fun hmem => hfresh c hc (List.mem_cons_of_mem _ hmem)

def newRouterProvider (providers : List Backend) : Except Err Router :=
  if hempty : providers = [] then .error (.new "router requires at least one provider")
  else
    match hcheck : checkProviders around [] providers with
    | .error e => .error e
    | .ok () => .ok ⟨providers, hempty, (checkProviders_ok around hcheck).1,
        (checkProviders_ok around hcheck).2.1⟩

namespace Router

variable (r : Router)

/-- One name of the policy against all providers; the second component is `seen`. -/
def select (acc : List Backend × List GoString) (name : GoString) : List Backend × List GoString :=
  r.providers.foldl (fun acc b =>
    if b.name = name ∧ name ∉ acc.2 then (acc.1 ++ [b], name :: acc.2) else acc) acc

/-- The candidates of `completeRouted`. -/
def candidates (allowed : List GoString) : List Backend :=
  if allowed = [] then r.providers else (allowed.foldl r.select ([], [])).1

end Router

/-- The loop of `completeRouted` over the candidates, with the failures so far, and the backends
it calls. -/
def tryCandidates : List GoString → List Backend → Completion × List Backend
  | failures, [] =>
    (failedCall (if failures = [] then .new "route policy excludes every backend"
      else .described (lit "all routed providers failed: " ++
        List.intercalate (lit "; ") failures)), [])
  | failures, b :: rest =>
    match around.ctxErr (2 * failures.length) with
    | some e => (failedCall e.err, [])
    | none =>
      match b.answer.err with
      | none =>
        (⟨b.answer.text, b.answer.usage, ⟨b.name, UInt32.ofNat failures.length, b.compatKey⟩, 0,
          none⟩, [b])
      | some e =>
        match around.ctxErr (2 * failures.length + 1) with
        | some e' => (failedCall e'.err, [b])
        | none =>
          let next := tryCandidates (failures ++ [b.name ++ lit ": " ++ around.errorText e]) rest
          (next.1, b :: next.2)

namespace Router

variable (r : Router)

/-- `completeRouted`. -/
def complete (allowed : List GoString) : Completion × List Backend :=
  tryCandidates around [] (r.candidates allowed)

def provider : Provider := ⟨lit "router", lit "router", true, true⟩

end Router

/-! ### The candidates -/

namespace Router

variable {r : Router}

theorem foldl_select {bs : List Backend} (hd : (bs.map Backend.name).Nodup) (name : GoString)
    (acc : List Backend × List GoString) :
    bs.foldl (fun acc b =>
        if b.name = name ∧ name ∉ acc.2 then (acc.1 ++ [b], name :: acc.2) else acc) acc =
      if name ∈ acc.2 then acc
      else match bs.find? fun b => b.name = name with
        | some b => (acc.1 ++ [b], name :: acc.2)
        | none => acc := by
  induction bs generalizing acc with
  | nil => simp
  | cons b rest ih =>
    rw [List.map_cons, List.nodup_cons] at hd
    rw [List.foldl_cons, ih hd.2]
    by_cases hseen : name ∈ acc.2
    · simp [hseen]
    by_cases hname : b.name = name
    · simp [hseen, hname]
    · simp [hseen, hname]

theorem select_eq (acc : List Backend × List GoString) (name : GoString) :
    r.select acc name = if name ∈ acc.2 then acc
      else match r.providers.find? fun b => b.name = name with
        | some b => (acc.1 ++ [b], name :: acc.2)
        | none => acc :=
  foldl_select r.distinct name acc

/-- The policy restricted to the providers that are there, each at its first place. -/
def restrict (bs : List Backend) (allowed : List GoString) : List GoString :=
  (allowed.filter fun name => name ∈ bs.map Backend.name).eraseDups

theorem foldl_select_names (allowed : List GoString) (acc : List Backend × List GoString) :
    (allowed.foldl r.select acc).1.map Backend.name = acc.1.map Backend.name ++
      restrict r.providers (allowed.filter fun name => name ∉ acc.2) := by
  induction allowed generalizing acc with
  | nil => simp [restrict]
  | cons name rest ih =>
    rw [List.foldl_cons, ih, select_eq]
    by_cases hseen : name ∈ acc.2
    · simp [hseen]
    rw [if_neg hseen]
    cases hfind : r.providers.find? fun b => b.name = name with
    | none =>
      have hout : name ∉ r.providers.map Backend.name := by
        intro hmem
        obtain ⟨b, hb, hname⟩ := List.mem_map.mp hmem
        exact absurd hname (by simpa using List.find?_eq_none.mp hfind b hb)
      simp only [restrict, List.filter_cons, hseen, not_false_eq_true, decide_true, if_true, hout,
        decide_false, Bool.false_eq_true, if_false]
    | some b =>
      have hname : b.name = name := by simpa using List.find?_some hfind
      have hin : name ∈ r.providers.map Backend.name :=
        List.mem_map.mpr ⟨b, List.mem_of_find?_eq_some hfind, hname⟩
      simp only [restrict, List.filter_cons, hseen, not_false_eq_true, decide_true, if_true, hin,
        List.eraseDups_cons, List.map_append, List.map_cons, List.map_nil, hname, List.append_assoc,
        List.cons_append, List.nil_append, List.filter_filter]
      congr 4
      funext x
      by_cases hx : x = name <;> simp [hx, and_comm]

theorem mem_foldl_select (allowed : List GoString) (acc : List Backend × List GoString)
    {b : Backend} (h : b ∈ (allowed.foldl r.select acc).1) : b ∈ acc.1 ∨ b ∈ r.providers := by
  induction allowed generalizing acc with
  | nil => exact .inl h
  | cons name rest ih =>
    rcases ih _ h with hb | hb
    · rw [select_eq] at hb
      split at hb
      · exact .inl hb
      · split at hb
        · next c hfind =>
          rcases List.mem_append.mp hb with hb | hb
          · exact .inl hb
          · rw [List.mem_singleton.mp hb]
            exact .inr (List.mem_of_find?_eq_some hfind)
        · exact .inl hb
    · exact .inr hb

theorem candidates_names {allowed : List GoString} (h : allowed ≠ []) :
    (r.candidates allowed).map Backend.name = restrict r.providers allowed := by
  rw [candidates, if_neg h, foldl_select_names]
  simp

theorem mem_providers {allowed : List GoString} {b : Backend} (h : b ∈ r.candidates allowed) :
    b ∈ r.providers := by
  rw [candidates] at h
  split at h
  · exact h
  · simpa using mem_foldl_select allowed ([], []) h

end Router

theorem nodup_restrict (bs : List Backend) (allowed : List GoString) :
    (Router.restrict bs allowed).Nodup := by
  unfold Router.restrict
  generalize (allowed.filter fun name => name ∈ bs.map Backend.name) = l
  induction h : l.length using Nat.strong_induction_on generalizing l with
  | _ n ih =>
    cases l with
    | nil => simp
    | cons a l =>
      rw [List.eraseDups_cons, List.nodup_cons]
      refine ⟨by simp [List.mem_eraseDups], ih _ ?_ _ rfl⟩
      have := List.length_filter_le (fun b => !b == a) l
      simp only [List.length_cons] at h
      omega

theorem mem_restrict {bs : List Backend} {allowed : List GoString} {name : GoString} :
    name ∈ Router.restrict bs allowed ↔ name ∈ allowed ∧ name ∈ bs.map Backend.name := by
  simp [Router.restrict, List.mem_eraseDups]

theorem restrict_singleton {b : Backend} {allowed : List GoString} (h : b.name ∈ allowed) :
    Router.restrict [b] allowed = [b.name] := by
  refine List.perm_singleton.mp ?_
  rw [List.perm_ext_iff_of_nodup (nodup_restrict _ _) (List.nodup_singleton _)]
  intro name
  rw [mem_restrict]
  constructor
  · rintro ⟨-, hname⟩
    simpa using hname
  · intro hname
    rw [List.mem_singleton.mp hname]
    exact ⟨h, by simp⟩

/-! ### The loop -/

def Backend.routeAfter (b : Backend) (fallbacks : ℕ) : RouteInfo :=
  ⟨b.name, UInt32.ofNat fallbacks, b.compatKey⟩

/-- The call ended with the answer of a backend, and those tried before it had failed. -/
structure Served (bs : List Backend) (fallbacks : ℕ) (tried : List Backend) (b : Backend)
    (r : Completion × List Backend) : Prop where
  called : r.2 = tried ++ [b]
  order : tried ++ [b] <+: bs
  failed : ∀ x ∈ tried, x.answer.err ≠ none
  answered : b.answer.err = none
  completion : r.1 =
    ⟨b.answer.text, b.answer.usage, b.routeAfter (fallbacks + tried.length), 0, none⟩

/-- The call failed, and so did every backend that was tried. -/
structure Unserved (bs : List Backend) (r : Completion × List Backend) : Prop where
  order : r.2 <+: bs
  failed : ∀ x ∈ r.2, x.answer.err ≠ none
  completion : ∃ e, r.1 = failedCall e

theorem tryCandidates_spec (failures : List GoString) (bs : List Backend) :
    (∃ tried b, Served bs failures.length tried b (tryCandidates around failures bs)) ∨
      Unserved bs (tryCandidates around failures bs) := by
  induction bs generalizing failures with
  | nil => exact .inr ⟨by simp [tryCandidates], by simp [tryCandidates], _, rfl⟩
  | cons b rest ih =>
    rw [tryCandidates]
    cases around.ctxErr (2 * failures.length) with
    | some e => exact .inr ⟨by simp, by simp, _, rfl⟩
    | none =>
      cases herr : b.answer.err with
      | none => exact .inl ⟨[], b, rfl, by simp, by simp, herr, rfl⟩
      | some e =>
        cases around.ctxErr (2 * failures.length + 1) with
        | some e' => exact .inr ⟨by simp, by simp [herr], _, rfl⟩
        | none =>
          rcases ih (failures ++ [b.name ++ lit ": " ++ around.errorText e]) with
            ⟨tried, c, hs⟩ | hu
          · refine .inl ⟨b :: tried, c, ?_, ?_, ?_, hs.answered, ?_⟩
            · exact congrArg (b :: ·) hs.called
            · simpa using hs.order
            · simpa [herr] using hs.failed
            · refine hs.completion.trans ?_
              simp [Nat.add_assoc, Nat.add_comm 1]
          · exact .inr ⟨by simpa using hu.order, by simpa [herr] using hu.failed, hu.completion⟩

/-! ## The kernel inference provider -/

/-- One session of the device: the error with which it ends before the inner provider is called,
and its verdict on an answer, the taint of the result or an error. -/
structure KernelSession where
  before : Option Err
  settle : GoString → Usage → Except Err UInt64

def kernelProvider (inner : Provider) : Provider :=
  ⟨lit "kernel-infer/" ++ inner.name, lit "ainf|" ++ inner.compatKey, true, false⟩

/-- `runSession` around a call of the inner provider. -/
def KernelSession.run (k : KernelSession) (inner : Provider) (call : Completion × List Backend) :
    Completion × List Backend :=
  match k.before with
  | some e => (failedCall e, [])
  | none =>
    match call.1.err with
    | some e => (failedCall e, call.2)
    | none =>
      match k.settle call.1.text call.1.usage with
      | .error e => (failedCall e, call.2)
      | .ok taint =>
        (⟨call.1.text, { call.1.usage with cachedTokens := 0 },
          if inner.tracked then call.1.route else (kernelProvider inner).route,
          taint ||| (if inner.tracked then call.1.taint else 0), none⟩, call.2)

namespace KernelSession

variable {k : KernelSession} {inner : Provider} {call : Completion × List Backend}

theorem run_called (k : KernelSession) (inner : Provider) (call : Completion × List Backend) :
    (k.run inner call).2 = [] ∨ (k.run inner call).2 = call.2 := by
  unfold run
  split
  · exact .inl rfl
  · split
    · exact .inr rfl
    · split <;> exact .inr rfl

theorem run_ok (h : (k.run inner call).1.err = none) :
    call.1.err = none ∧ (k.run inner call).2 = call.2 ∧ (k.run inner call).1.route =
      if inner.tracked then call.1.route else (kernelProvider inner).route := by
  unfold run at h ⊢
  split at h
  · simp [failedCall] at h
  · split at h
    · simp [failedCall] at h
    · next herr =>
      split at h
      · simp [failedCall] at h
      · exact ⟨herr, rfl, rfl⟩

theorem run_err (h : (k.run inner call).1.err ≠ none) (hcalled : (k.run inner call).2 ≠ []) :
    call.1.err ≠ none ∨ ∀ taint, k.settle call.1.text call.1.usage ≠ .ok taint := by
  cases hbefore : k.before with
  | some e => simp [run, hbefore] at hcalled
  | none =>
    cases herr : call.1.err with
    | some e => exact .inl (by simp)
    | none =>
      cases hsettle : k.settle call.1.text call.1.usage with
      | error e => exact .inr (by simp)
      | ok taint => simp [run, hbefore, herr, hsettle] at h

end KernelSession

/-! ### The device -/

section Device
variable (cfg : Kernel.ProviderConfig) (t : Kernel.Turn) (p : Kernel.Mirror) (k : Kernel.Device)

def innerAnswer (inner : Provider) (c : Completion) : Option Kernel.Answer :=
  match c.err with
  | some _ => none
  | none => some ⟨c.text, ⟨c.usage.inputTokens, c.usage.outputTokens, c.usage.cachedTokens⟩,
      if inner.tracked then c.taint else 0⟩

def sessionErr : Kernel.TurnError → Err
  | .busy => .turnBusy
  | _ => .system

def KernelSession.ofDevice : KernelSession where
  before :=
    match (cfg.runSession { t with inner := fun _ => none } p k).1 with
    | .error .inner => none
    | .error e => some (sessionErr e)
    | .ok _ => none
  settle text usage :=
    match (cfg.runSession { t with inner := fun _ => some ⟨text,
        ⟨usage.inputTokens, usage.outputTokens, usage.cachedTokens⟩, 0⟩ } p k).1 with
    | .ok r => .ok r.2.2
    | .error e => .error (sessionErr e)

theorem KernelSession.ofDevice_run (inner : Provider) (call : Completion × List Backend) :
    ((ofDevice cfg t p k).run inner call).1 =
      match (cfg.runSession { t with inner := fun _ => innerAnswer inner call.1 } p k).1 with
      | .ok (text, usage, taint) =>
        ⟨text, ⟨usage.inputTokens, usage.outputTokens, usage.cachedTokens⟩,
          if inner.tracked then call.1.route else (kernelProvider inner).route, taint, none⟩
      | .error .inner => failedCall (call.1.err.getD .system)
      | .error e => failedCall (sessionErr e) := by
  simp only [KernelSession.run, ofDevice, Kernel.ProviderConfig.runSession]
  by_cases hlong : Kernel.dataMax < t.prompt.length
  · simp [hlong]
  by_cases hbusy : t.busy
  · simp [hlong, hbusy]
  simp only [hlong, hbusy, if_false, Bool.false_eq_true]
  rcases t.session.issue [cfg.fd] k (.cap cfg.fd (.sessionCreate t.sessionFault)) with ⟨o, k⟩
  rcases o with e | (_ | _ | ⟨client, backend⟩ | _)
  case ok.pair =>
    simp only [Kernel.ProviderConfig.converse]
    rcases t.submit.send [client, backend, cfg.fd] k (fun q => .session client (.submit q))
      t.submitRead ⟨1, UInt64.ofNat t.prompt.length, cfg.maxOutput, 0, 0, 0, t.prompt⟩ with ⟨o, k⟩
    rcases o with e | _
    · simp
    dsimp only
    rcases t.take.receive [client, backend, cfg.fd] k (.session backend (.take t.takeCopied))
      with ⟨o, k⟩
    rcases o with e | request
    · simp
    cases herr : call.1.err with
    | some e => simp [innerAnswer, herr]
    | none =>
      simp only [innerAnswer, herr, Kernel.ProviderConfig.finish]
      rcases t.complete.send [client, backend, cfg.fd] k (fun q => .session backend (.complete q))
        t.completeRead ⟨request.sequence, call.1.usage.inputTokens, call.1.usage.outputTokens, 0, 0,
          0, call.1.text⟩ with ⟨o, k⟩
      rcases o with e | _
      · simp
      dsimp only
      rcases t.result.receive [client, backend, cfg.fd] k (.session client (.result t.resultCopied))
        with ⟨o, k⟩
      rcases o with e | result
      · simp
      dsimp only
      split_ifs <;> simp
  all_goals simp

end Device

/-! ## Arrangements -/

/-- What `main` puts together before it wraps it. -/
inductive Engine where
  | single (b : Backend) (untracked : b.provider.tracked = false)
      (direct : b.provider.selfEnforcing = false)
  | router (r : Router)

structure Arrangement where
  engine : Engine
  session : Option KernelSession

def Engine.provider : Engine → Provider
  | .single b _ _ => b.provider
  | .router _ => Router.provider

def Engine.complete (allowed : List GoString) : Engine → Completion × List Backend
  | .single b _ _ => (b.answer, [b])
  | .router r => r.complete around allowed

/-- The call ended with the answer of the last backend tried, under the route the runner sees. -/
structure Engine.Serves (e : Engine) (call : Completion × List Backend) (tried : List Backend)
    (b : Backend) : Prop where
  called : call.2 = tried ++ [b]
  failed : ∀ x ∈ tried, x.answer.err ≠ none
  answered : b.answer.err = none
  text : call.1.text = b.answer.text
  usage : call.1.usage = b.answer.usage
  ok : call.1.err = none
  route : (if e.provider.tracked then call.1.route else e.provider.route) =
    b.routeAfter tried.length

theorem Engine.complete_spec (e : Engine) (allowed : List GoString) :
    (∃ tried b, e.Serves (e.complete around allowed) tried b) ∨
      (e.complete around allowed).1.err ≠ none ∧
        ∀ b ∈ (e.complete around allowed).2, b.answer.err ≠ none := by
  cases e with
  | single b untracked direct =>
    cases herr : b.answer.err with
    | none =>
      refine .inl ⟨[], b, rfl, by simp, herr, rfl, rfl, herr, ?_⟩
      rw [if_neg (by simp [Engine.provider, untracked])]
      rfl
    | some e => exact .inr ⟨by simp [Engine.complete, herr], by simp [Engine.complete, herr]⟩
  | router r =>
    rcases tryCandidates_spec around [] (r.candidates allowed) with ⟨tried, b, hs⟩ | hu
    · have hcompletion := hs.completion
      rw [List.length_nil, Nat.zero_add] at hcompletion
      refine .inl ⟨tried, b, hs.called, hs.failed, hs.answered, ?_, ?_, ?_, ?_⟩
      all_goals
        simp only [Engine.complete, Router.complete, hcompletion, Engine.provider, Router.provider,
          if_true]
    · refine .inr ⟨?_, hu.failed⟩
      obtain ⟨e, he⟩ := hu.completion
      exact fun hnone => by simp [Engine.complete, Router.complete, he, failedCall] at hnone

namespace Arrangement

def provider (a : Arrangement) : Provider :=
  match a.session with
  | some _ => kernelProvider a.engine.provider
  | none => a.engine.provider

def listed (a : Arrangement) (b : Backend) : Backend :=
  match a.session, a.engine with
  | some _, .single _ _ _ => ⟨kernelProvider b.provider, b.answer⟩
  | _, _ => b

def configured (a : Arrangement) : List Backend :=
  match a.engine with
  | .single b _ _ => [a.listed b]
  | .router r => r.providers

def complete (allowed : List GoString) (a : Arrangement) : Completion × List Backend :=
  let call := a.engine.complete around allowed
  let call := match a.session with
    | some k => k.run a.engine.provider call
    | none => call
  (call.1, call.2.map a.listed)

def Settles (a : Arrangement) (b : Backend) : Prop :=
  ∀ k ∈ a.session, ∃ taint, k.settle b.answer.text b.answer.usage = .ok taint

end Arrangement

def Turn.policy (t : Turn) (s : State) : RoutePolicy :=
  ((s.applications[t.id]?).map (·.routePolicy)).getD ⟨0, []⟩

/-- `executeTurn` from the reading of the policy to the end of the call, for a turn that is not
prepared, and the backends that receive the prompt. -/
def Arrangement.execute (a : Arrangement) (s : State) (t : Turn) : Phase × List Backend :=
  match routePhase a.provider s t with
  | .calling =>
    let call := a.complete around (t.policy s).backends
    (completePhase a.provider call.1, call.2)
  | phase => (phase, [])

def Phase.outcome? : Phase → Option TurnOutcome
  | .folding _ o => some o
  | .deciding o => some o
  | _ => none

@[simp] theorem completePhase_outcome? (p : Provider) (c : Completion) :
    (completePhase p c).outcome? =
      some ⟨c.text, c.usage, if p.tracked then c.route else p.route, c.err⟩ := by
  unfold completePhase
  dsimp only
  split_ifs <;> rfl

namespace Arrangement

variable {around} {allowed : List GoString}

@[simp] theorem listed_answer (a : Arrangement) (b : Backend) :
    (a.listed b).answer = b.answer := by
  unfold listed
  split <;> rfl

theorem complete_order (a : Arrangement) (hallowed : allowed ≠ [])
    (hname : a.provider.selfEnforcing = false → a.provider.name ∈ allowed) :
    (a.complete around allowed).2.map Backend.name <+: Router.restrict a.configured allowed := by
  have hengine : ((a.engine.complete around allowed).2.map a.listed).map Backend.name <+:
      Router.restrict a.configured allowed := by
    obtain ⟨engine, session⟩ := a
    cases engine with
    | single b untracked direct =>
      have hb : (listed ⟨.single b untracked direct, session⟩ b).name ∈ allowed := by
        cases session with
        | none => exact hname direct
        | some k => exact hname rfl
      change [(listed ⟨.single b untracked direct, session⟩ b).name] <+: Router.restrict [_] allowed
      rw [restrict_singleton hb]
    | router r =>
      have hlisted : listed ⟨.router r, session⟩ = id := by
        cases session <;> rfl
      rw [hlisted, List.map_id]
      change _ <+: Router.restrict r.providers allowed
      rw [← Router.candidates_names hallowed]
      rcases tryCandidates_spec around [] (r.candidates allowed) with ⟨tried, b, hs⟩ | hu
      · exact (hs.called ▸ hs.order).map _
      · exact hu.order.map _
  unfold complete
  dsimp only
  cases a.session with
  | none => exact hengine
  | some k =>
    rcases KernelSession.run_called k a.engine.provider (a.engine.complete around allowed) with
      hnil | hcall
    · simp [hnil]
    · rw [hcall]
      exact hengine

theorem listed_of_alone {a : Arrangement} (h : a.session = none) : a.listed = id := by
  funext b
  simp [listed, h]

theorem listed_of_router {a : Arrangement} {r : Router} (h : a.engine = .router r) :
    a.listed = id := by
  funext b
  cases hs : a.session <;> simp [listed, h, hs]

theorem complete_ok (a : Arrangement) (hok : (a.complete around allowed).1.err = none) :
    ∃ tried b, (a.complete around allowed).2 = tried ++ [b] ∧
      (∀ x ∈ tried, x.answer.err ≠ none) ∧ b.answer.err = none ∧
      (if a.provider.tracked then (a.complete around allowed).1.route else a.provider.route) =
        b.routeAfter tried.length := by
  have hspec := a.engine.complete_spec around allowed
  unfold complete at hok ⊢
  dsimp only at hok ⊢
  cases hsession : a.session with
  | none =>
    rw [hsession] at hok
    obtain ⟨tried, b, hs⟩ := hspec.resolve_right fun h => h.1 hok
    refine ⟨tried, b, ?_, hs.failed, hs.answered, ?_⟩
    · rw [listed_of_alone hsession, List.map_id, hs.called]
    · simpa [provider, hsession] using hs.route
  | some k =>
    rw [hsession] at hok
    obtain ⟨herr, hcalled, hroute⟩ := KernelSession.run_ok hok
    obtain ⟨tried, b, hs⟩ := hspec.resolve_right fun h => h.1 herr
    refine ⟨tried.map a.listed, a.listed b, ?_, ?_, ?_, ?_⟩
    · rw [hcalled, hs.called, List.map_append, List.map_singleton]
    · intro x hx
      obtain ⟨y, hy, rfl⟩ := List.mem_map.mp hx
      rw [listed_answer]
      exact hs.failed y hy
    · rw [listed_answer]
      exact hs.answered
    · rw [List.length_map]
      have htracked : a.provider = kernelProvider a.engine.provider := by
        simp [provider, hsession]
      rw [htracked]
      refine (if_pos rfl).trans (hroute.trans ?_)
      cases hengine : a.engine with
      | router r =>
        rw [listed_of_router hengine]
        rw [hengine] at hs
        exact hs.route
      | single c untracked direct =>
        rw [hengine] at hs
        -- the only backend is the one that is called
        have hone : [c] = tried ++ [b] := hs.called
        obtain ⟨rfl, rfl⟩ : tried = [] ∧ c = b := by
          cases tried with
          | nil => simpa using hone
          | cons x rest => simp at hone
        rw [if_neg (by simp [Engine.provider, untracked])]
        simp [listed, hsession, hengine, Backend.routeAfter, Provider.route, Backend.name,
          Backend.compatKey, Engine.provider]

theorem complete_answered (a : Arrangement) {b : Backend}
    (hb : b ∈ (a.complete around allowed).2) (hanswered : b.answer.err = none)
    (hsettles : a.Settles b) : (a.complete around allowed).1.err = none := by
  by_contra hne
  have hspec := a.engine.complete_spec around allowed
  unfold complete at hb hne
  dsimp only at hb hne
  obtain ⟨x, hx, rfl⟩ := List.mem_map.mp hb
  rw [listed_answer] at hanswered
  cases hsession : a.session with
  | none =>
    rw [hsession] at hx hne
    obtain ⟨tried, c, hs⟩ := hspec.resolve_right fun h => h.2 x hx hanswered
    exact hne hs.ok
  | some k =>
    rw [hsession] at hx hne
    have hcalled := (KernelSession.run_called k a.engine.provider _).resolve_left
      (List.ne_nil_of_mem hx)
    rw [hcalled] at hx
    obtain ⟨tried, c, hs⟩ := hspec.resolve_right fun h => h.2 x hx hanswered
    obtain rfl : x = c := by
      rw [hs.called] at hx
      rcases List.mem_append.mp hx with hx | hx
      · exact absurd hanswered (hs.failed x hx)
      · exact List.mem_singleton.mp hx
    obtain ⟨taint, htaint⟩ := hsettles k hsession
    rw [listed_answer, ← hs.text, ← hs.usage] at htaint
    rcases KernelSession.run_err hne (by rw [hcalled]; exact List.ne_nil_of_mem hx) with h | h
    · exact h hs.ok
    · exact h taint htaint

end Arrangement

theorem routePhase_cases (p : Provider) (s : State) (t : Turn) :
    routePhase p s t = .calling ∧ ((t.policy s).backends ≠ [] → p.selfEnforcing = false →
        p.name ∈ (t.policy s).backends) ∨
      ∃ e, routePhase p s t = .deciding (p.uncalled (some e)) := by
  change (if p.isDenied (t.policy s) then _ else _) = _ ∧ _ ∨
    ∃ e, (if p.isDenied (t.policy s) then _ else _) = _
  by_cases hdenied : p.isDenied (t.policy s)
  · exact .inr ⟨.routeDenied, if_pos hdenied⟩
  rw [if_neg hdenied]
  by_cases htext : (readField (lit "text") asString [] t.message.payload).2
  · refine .inl ⟨if_pos htext, fun hpolicy hdirect => ?_⟩
    simpa [Provider.isDenied, hpolicy, hdirect] using hdenied
  · exact .inr ⟨.unmarshal, if_neg htext⟩

theorem length_le_configured {bs : List Backend} {names allowed : List GoString}
    (h : names <+: Router.restrict bs allowed) : names.length ≤ bs.length := by
  have hsub : names ⊆ bs.map Backend.name := fun _ hn => (mem_restrict.mp (h.subset hn)).2
  have hle := ((nodup_restrict bs allowed).sublist h.sublist).subperm hsub
  simpa using hle.length_le

/-- The backends that receive the prompt of a turn are the first ones of its route policy, as far
as they are configured, in the order of the policy and each once. When a turn succeeds the last of
them has answered, the others have failed, and the route names it, its key and their number; when
one of them answers the turn succeeds, unless the kernel refuses the answer. -/
theorem prompt_follows_policy (a : Arrangement) (s : State) (t : Turn)
    (hpolicy : (t.policy s).backends ≠ []) :
    (a.execute around s t).2.map Backend.name <+:
        Router.restrict a.configured (t.policy s).backends ∧
      ((a.execute around s t).2.map Backend.name).Nodup ∧
      (∀ b ∈ (a.execute around s t).2, b.name ∈ (t.policy s).backends) ∧
      (∀ o ∈ (a.execute around s t).1.outcome?, o.err = none → ∃ tried b,
        (a.execute around s t).2 = tried ++ [b] ∧ (∀ x ∈ tried, x.answer.err ≠ none) ∧
        b.answer.err = none ∧ o.route = ⟨b.name, UInt32.ofNat tried.length, b.compatKey⟩ ∧
        (a.configured.length ≤ 2 ^ 32 → o.route.fallbacks.toNat = tried.length)) ∧
      ∀ b ∈ (a.execute around s t).2, b.answer.err = none → a.Settles b →
        ∃ o ∈ (a.execute around s t).1.outcome?, o.err = none := by
  rcases routePhase_cases a.provider s t with ⟨hcall, hname⟩ | ⟨e, hfail⟩
  · have hexec : a.execute around s t =
        (completePhase a.provider (a.complete around (t.policy s).backends).1,
          (a.complete around (t.policy s).backends).2) := by
      rw [Arrangement.execute, hcall]
    have horder := @Arrangement.complete_order around _ a hpolicy (hname hpolicy)
    rw [hexec]
    refine ⟨horder, (nodup_restrict _ _).sublist horder.sublist, fun b hb => ?_, ?_, ?_⟩
    · exact (mem_restrict.mp (horder.subset (List.mem_map_of_mem hb))).1
    · rintro o ho hok
      rw [completePhase_outcome?, Option.mem_some_iff] at ho
      subst ho
      obtain ⟨tried, b, hcalled, hfailed, hanswered, hroute⟩ := a.complete_ok hok
      refine ⟨tried, b, hcalled, hfailed, hanswered, hroute, fun hlen => ?_⟩
      have hle := length_le_configured horder
      rw [hcalled, List.length_map, List.length_append, List.length_singleton] at hle
      dsimp only
      rw [hroute]
      exact Nat.mod_eq_of_lt (by omega)
    · intro b hb hanswered hsettles
      refine ⟨_, completePhase_outcome? _ _, ?_⟩
      exact a.complete_answered hb hanswered hsettles
  · have hexec : a.execute around s t = (.deciding (a.provider.uncalled (some e)), []) := by
      rw [Arrangement.execute, hfail]
    rw [hexec]
    refine ⟨by simp, by simp, by simp, ?_, by simp⟩
    rintro o ho hok
    obtain rfl : a.provider.uncalled (some e) = o := by simpa [Phase.outcome?] using ho
    simp [Provider.uncalled] at hok

namespace Sample

def backend (name : String) (err : Option Err) : Backend :=
  ⟨⟨lit name, [], false, false⟩, ⟨lit "y", ⟨3, 4, 0⟩, ⟨[], 0, []⟩, 0, err⟩⟩

def wrapped : Arrangement where
  engine := .router ⟨[backend "a" none, backend "b" (some .system)], by decide, by decide,
    by decide⟩
  session := some ⟨none, fun _ _ => .ok 0⟩

example : wrapped.configured.length = 2 := by decide +kernel

def quiet : Surroundings := ⟨fun _ => none, fun _ => [], id⟩

def policed : State :=
  { State.empty with
    applications := (∅ : Table GoString Application).insert (lit "i")
      ⟨lit "i", [], [], 1, .serving, .onEvent, [], 0, 0, 0, 0, 0, 0, 0, [], 0, [], [],
        ⟨1, [lit "b", lit "kernel-infer/router", lit "c", lit "b", lit "a"]⟩, 0⟩ }

def asking : Turn :=
  ⟨lit "i", ⟨lit "m", [], lit "\x7b\"text\":\"x\"\x7d", .claimed, 1, 0, 1⟩⟩

end Sample

open Sample

theorem prompt_follows_policy_fallback :
    (asking.policy policed).backends ≠ [] ∧
      (wrapped.execute quiet policed asking).2.map Backend.name =
        [lit "b", lit "a"] ∧
      [lit "b", lit "a"] <+: Router.restrict wrapped.configured
        (asking.policy policed).backends := by
  have hpolicy : (asking.policy policed).backends ≠ [] := by decide +kernel
  have hcalled : (wrapped.execute quiet policed asking).2.map
      Backend.name = [lit "b", lit "a"] := by decide +kernel
  refine ⟨hpolicy, hcalled, ?_⟩
  rw [← hcalled]
  exact (prompt_follows_policy quiet wrapped policed asking hpolicy).1

end Aok.Runtime
