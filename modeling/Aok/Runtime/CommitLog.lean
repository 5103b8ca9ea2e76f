import Aok.Lib.Pages
import Aok.Runtime.ContextKeys

/-!
# The log of commits

Each operation that succeeds for the first time under its key leaves one record in the log of
commits, and nothing else does. A reader who follows `Commits` from the last cursor it returned
sees the records of a context one after the other while the log grows.
-/

namespace Aok.Runtime
open Lib Lib.Utf8 Lib.JsonText Lib.JsonValue Lib.Command List

structure ContextAttempt where
  call : ContextCall
  fault : Bool
deriving DecidableEq

abbrev ContextHistory := List (ContextCall × Except Err HexText)

variable (sha256 : Bytes → Digest)

namespace ContextAttempt

def perform (x : ContextAttempt) (s : ContextStore) : Except Err HexText × ContextStore :=
  if x.fault then (.error .system, s)
  else match x.call.exec sha256 s with
    | .ok (r, t) => (.ok r, t)
    | .error e => (.error e, s)

def step (p : ContextHistory × ContextStore) (x : ContextAttempt) : ContextHistory × ContextStore :=
  (p.1 ++ [(x.call, (x.perform sha256 p.2).1)], (x.perform sha256 p.2).2)

def run (xs : List ContextAttempt) : ContextHistory × ContextStore :=
  xs.foldl (step sha256) ([], .empty)

end ContextAttempt

def ContextHistory.IsNew (h : ContextHistory) (slot : GoString × GoString) : Prop :=
  ∀ x ∈ h, x.1.slot = some slot → ∃ e, x.2 = .error e

/-! ## One record for each operation -/

/-- The history tells which keys are bound, and the records are numbered one after the other. -/
structure Logged (h : ContextHistory) (s : ContextStore) : Prop where
  bound : ∀ id key, (∃ o ∈ s.operations, o.contextID = id ∧ o.key = key) ↔ ¬ h.IsNew (id, key)
  numbered : s.commits.map LSFSCommit.cursor =
    (range s.commits.length).map fun n : ℕ => (n : ℤ) + 1

/-- What an attempt does to the log: a first success is recorded, all else leaves the log and the
keys as they are. -/
inductive Effect (h : ContextHistory) (c : ContextCall) (s : ContextStore) :
    Except Err HexText × ContextStore → Prop
  | first {r : HexText} {t : ContextStore} {id key : GoString} {kind : OperationKind}
      {input : Bytes} (slot : c.slot = some (id, key)) (new : h.IsNew (id, key))
      (input : c.input = some (kind, input))
      (operations : ∃ o : OperationRow, o.contextID = id ∧ o.key = key ∧
        t.operations = s.operations ++ [o])
      (commits : t.commits = s.commits ++ [⟨s.commits.length + 1, id, kind, r, key⟩]) :
    Effect h c s (.ok r, t)
  | other {res : Except Err HexText} {t : ContextStore} (operations : t.operations = s.operations)
      (commits : t.commits = s.commits)
      (old : ∀ r slot, res = .ok r → c.slot = some slot → ¬ h.IsNew slot) :
    Effect h c s (res, t)

section Log
variable {sha256} {h : ContextHistory} {s : ContextStore}

variable (sha256) in
theorem Logged.effect (hl : Logged h s) (x : ContextAttempt) :
    Effect h x.call s (x.perform sha256 s) := by
  unfold ContextAttempt.perform
  cases x.fault with
  | true => exact .other rfl rfl (by simp)
  | false =>
    simp only [Bool.false_eq_true, if_false]
    cases hexec : x.call.exec sha256 s with
    | error e => exact .other rfl rfl (by simp)
    | ok p =>
      obtain ⟨r, t⟩ := p
      cases hslot : x.call.slot with
      | none =>
        obtain ⟨hops, -, hcommits⟩ := (ContextStore.exec_unkeyed hslot hexec).unkeyed hslot
        exact .other hops hcommits (by simp [hslot])
      | some slot =>
        obtain ⟨id, key⟩ := slot
        obtain ⟨kind, input, o, hin, ho, -, -, ⟨rfl, hold⟩ | ⟨hnew, u, hu, rfl⟩⟩ :=
          ContextStore.exec_keyed hslot hexec
        all_goals
          obtain ⟨-, -, hos, -⟩ := ContextCall.row_eq_some ho
          cases hslot.symm.trans hos
        · refine .other rfl rfl fun _ slot _ hs => ?_
          cases hslot.symm.trans hs
          exact (hl.bound _ _).mp ⟨o, hold, rfl, rfl⟩
        · have ht := hu.touches hslot hin
          refine .first hslot (not_not.mp fun hn => hnew ((hl.bound _ _).mpr hn)) hin
            ⟨o, rfl, rfl, by rw [ht.operations]⟩ ?_
          rw [← ht.commits]

theorem ContextHistory.isNew_append {c : ContextCall} {res : Except Err HexText}
    {slot : GoString × GoString} : IsNew (h ++ [(c, res)]) slot ↔
      h.IsNew slot ∧ (c.slot = some slot → ∃ e, res = .error e) := by
  unfold IsNew
  rw [forall_mem_append, forall_mem_singleton]

theorem Logged.step (hl : Logged h s) (x : ContextAttempt) :
    Logged (h ++ [(x.call, (x.perform sha256 s).1)]) (x.perform sha256 s).2 := by
  have he := hl.effect sha256 x
  generalize x.perform sha256 s = p at he ⊢
  cases he with
  | @first r t id key kind input hslot hnew _ hops hcommits =>
    obtain ⟨o, rfl, rfl, hops⟩ := hops
    constructor
    · intro i k
      rw [ContextHistory.isNew_append, hslot, hops, not_and_or, ← hl.bound]
      constructor
      · rintro ⟨o', ho', rfl, rfl⟩
        rcases mem_append.mp ho' with ho' | ho'
        · exact .inl ⟨o', ho', rfl, rfl⟩
        · rw [mem_singleton.mp ho']
          exact .inr (by simp)
      · rintro (⟨o', ho', hi, hk⟩ | hsame)
        · exact ⟨o', mem_append_left _ ho', hi, hk⟩
        · simp only [Option.some.injEq, Prod.mk.injEq, reduceCtorEq, exists_false, imp_false,
            not_not] at hsame
          exact ⟨o, by simp, hsame⟩
    · rw [hcommits, map_append, hl.numbered, length_append, length_singleton,
        range_succ, map_append]
      rfl
  | @other res t hops hcommits hold =>
    constructor
    · intro i k
      rw [hops, hl.bound, ContextHistory.isNew_append, not_and_or]
      refine ⟨.inl, fun hor => hor.elim id fun hsame => ?_⟩
      push Not at hsame
      obtain ⟨hslot, hres⟩ := hsame
      cases res with
      | error e => exact absurd rfl (hres e)
      | ok r => exact hold r _ rfl hslot
    · rw [hcommits]
      exact hl.numbered

theorem logged_empty : Logged [] .empty :=
  ⟨fun _ _ => by simp [ContextStore.empty, ContextHistory.IsNew], rfl⟩

theorem logged_foldl (xs : List ContextAttempt) {p : ContextHistory × ContextStore}
    (hp : Logged p.1 p.2) : Logged (xs.foldl (ContextAttempt.step sha256) p).1
      (xs.foldl (ContextAttempt.step sha256) p).2 := by
  induction xs generalizing p with
  | nil => exact hp
  | cons x xs ih => exact ih (hp.step x)

theorem Logged.ordered (hl : Logged h s) : Pages.Ordered LSFSCommit.cursor s.commits := by
  unfold Pages.Ordered
  rw [← pairwise_map (f := LSFSCommit.cursor), hl.numbered, pairwise_map]
  exact (pairwise_lt_range).imp fun hlt => by omega

theorem Logged.positive (hl : Logged h s) {c : LSFSCommit} (hc : c ∈ s.commits) : 0 < c.cursor := by
  have hmem : c.cursor ∈ s.commits.map LSFSCommit.cursor := mem_map_of_mem hc
  rw [hl.numbered, mem_map] at hmem
  obtain ⟨n, -, hn⟩ := hmem
  omega

theorem commits_foldl (xs : List ContextAttempt) {p : ContextHistory × ContextStore}
    (hp : Logged p.1 p.2) :
    p.2.commits <+: (xs.foldl (ContextAttempt.step sha256) p).2.commits := by
  induction xs generalizing p with
  | nil => exact prefix_rfl
  | cons x xs ih =>
    refine List.IsPrefix.trans ?_ (ih (p := ContextAttempt.step sha256 p x) (hp.step x))
    change p.2.commits <+: (x.perform sha256 p.2).2.commits
    have he := hp.effect sha256 x
    generalize x.perform sha256 p.2 = q at he ⊢
    cases he with
    | first _ _ _ _ hcommits => exact ⟨_, hcommits.symm⟩
    | other _ hcommits _ => exact hcommits ▸ prefix_rfl

end Log

/-! ## Pages -/

structure PageRequest where
  between : List ContextAttempt
  owner : GoString
  limit : ℕ
  fault : Bool
deriving DecidableEq

/-- A reader of the commits of one context: where it is and what it has read. -/
structure Reader where
  history : ContextHistory
  store : ContextStore
  cursor : ℤ
  read : List LSFSCommit

def ContextStore.commitsOf (s : ContextStore) (id : GoString) (start : ℤ) : List LSFSCommit :=
  Pages.after LSFSCommit.cursor start (s.commits.filter fun c => c.contextID = id)

namespace Reader

def wait (xs : List ContextAttempt) (r : Reader) : Reader :=
  let p := xs.foldl (ContextAttempt.step sha256) (r.history, r.store)
  { r with history := p.1, store := p.2 }

/-- `Commits` from the last cursor returned; a request that fails is answered by an error. -/
def request (id : GoString) (r : Reader) (q : PageRequest) : Reader :=
  let r := r.wait sha256 q.between
  if q.fault then r
  else match r.store.commitsAfter q.owner id r.cursor q.limit with
    | .error _ => r
    | .ok page => { r with
        cursor := (page.getLast?.map LSFSCommit.cursor).getD r.cursor
        read := r.read ++ page }

def follow (id : GoString) (r : Reader) (qs : List PageRequest) : Reader :=
  qs.foldl (request sha256 id) r

end Reader

section Follow
variable {sha256} {id : GoString} {start : ℤ} {r : Reader} {q : PageRequest}

/-- The reader has read the first commits after the start and stands behind them. -/
structure Reader.Follows (id : GoString) (start : ℤ) (r : Reader) : Prop where
  logged : Logged r.history r.store
  read : r.read <+: r.store.commitsOf id start
  cursor : r.cursor = Pages.advance LSFSCommit.cursor start r.read

theorem Logged.commitsOf_ordered {h : ContextHistory} {s : ContextStore} (hl : Logged h s)
    (id : GoString) :
    Pages.Ordered LSFSCommit.cursor (s.commits.filter fun c => c.contextID = id) :=
  hl.ordered.filter _

variable (sha256) in
theorem Reader.Follows.wait (hr : r.Follows id start) (xs : List ContextAttempt) :
    (r.wait sha256 xs).Follows id start where
  logged := logged_foldl xs hr.logged
  read := hr.read.trans (Pages.prefix_after
    ((commits_foldl (p := (r.history, r.store)) xs hr.logged).filter _) start)
  cursor := hr.cursor

theorem Reader.Follows.cursor_nonneg (hr : r.Follows id start) (hstart : 0 ≤ start) :
    0 ≤ r.cursor := by
  rw [hr.cursor, Pages.advance]
  cases hlast : r.read.getLast? with
  | none => exact hstart
  | some c =>
    have hc : c ∈ r.store.commitsOf id start := hr.read.subset (mem_of_getLast? hlast)
    unfold ContextStore.commitsOf Pages.after at hc
    exact (hr.logged.positive (mem_of_mem_filter (mem_of_mem_filter hc))).le

theorem commitsAfter_ok {s : ContextStore} {owner : GoString} {after : ℤ} {limit : ℕ}
    {page : List LSFSCommit} (h : s.commitsAfter owner id after limit = .ok page) :
    page = Pages.page LSFSCommit.cursor (s.commits.filter fun c => c.contextID = id) after
      limit := by
  unfold ContextStore.commitsAfter at h
  split_ifs at h
  obtain ⟨_, -, h⟩ := bind_eq_ok.mp h
  obtain rfl := Except.ok.inj h
  rw [Pages.page, Pages.after, filter_filter]
  congr 2
  funext c
  simp [Bool.and_comm]

theorem exists_commitsAfter {s : ContextStore} {owner : GoString} {after : ℤ} {limit : ℕ}
    (hafter : 0 ≤ after) (hlimit : 1 ≤ limit ∧ limit ≤ 1000)
    (howner : s.authorize owner id = .ok ()) :
    ∃ page, s.commitsAfter owner id after limit = .ok page := by
  unfold ContextStore.commitsAfter
  rw [if_neg (by omega), howner]
  exact ⟨_, rfl⟩

/-- The database takes the request, the caller owns the context and the limit is in range. -/
structure PageRequest.IsServed (sha256 : Bytes → Digest) (id : GoString) (r : Reader)
    (q : PageRequest) : Prop where
  taken : q.fault = false
  owned : (r.wait sha256 q.between).store.authorize q.owner id = .ok ()
  limit : 1 ≤ q.limit ∧ q.limit ≤ 1000

theorem request_cases (id : GoString) (r : Reader) (q : PageRequest) :
    r.request sha256 id q = r.wait sha256 q.between ∨
      ∃ page, (r.wait sha256 q.between).store.commitsAfter q.owner id r.cursor q.limit = .ok page ∧
        r.request sha256 id q = { r.wait sha256 q.between with
          cursor := (page.getLast?.map LSFSCommit.cursor).getD r.cursor
          read := r.read ++ page } := by
  unfold Reader.request
  cases q.fault with
  | true => exact .inl rfl
  | false =>
    simp only [Bool.false_eq_true, if_false]
    cases hpage : (r.wait sha256 q.between).store.commitsAfter q.owner id
        (r.wait sha256 q.between).cursor q.limit with
    | error e => exact .inl rfl
    | ok page => exact .inr ⟨page, hpage, rfl⟩

theorem Reader.Follows.page (hr : r.Follows id start) {page : List LSFSCommit}
    (hpage : (r.wait sha256 q.between).store.commitsAfter q.owner id r.cursor q.limit = .ok page) :
    r.read ++ page = ((r.wait sha256 q.between).store.commitsOf id start).take
      (r.read.length + q.limit) := by
  have hw := hr.wait sha256 q.between
  rw [commitsAfter_ok hpage, hr.cursor]
  exact Pages.read_page (hw.logged.commitsOf_ordered id) hw.read q.limit

theorem Reader.Follows.request (hr : r.Follows id start) (q : PageRequest) :
    (r.request sha256 id q).Follows id start := by
  have hw := hr.wait sha256 q.between
  rcases request_cases id r q with hsame | ⟨page, hpage, hnext⟩
  · rw [hsame]
    exact hw
  · rw [hnext]
    refine ⟨hw.logged, ?_, ?_⟩
    · rw [hr.page hpage]
      exact take_prefix _ _
    · rw [Pages.advance_append, ← hr.cursor]
      rfl

variable (sha256) in
theorem Reader.Follows.follow (hr : r.Follows id start) (qs : List PageRequest) :
    (r.follow sha256 id qs).Follows id start := by
  induction qs generalizing r with
  | nil => exact hr
  | cons q qs ih => exact ih (hr.request q)

theorem Reader.Follows.served (hr : r.Follows id start) (hstart : 0 ≤ start)
    (hq : q.IsServed sha256 id r) :
    (r.request sha256 id q).read =
      ((r.request sha256 id q).store.commitsOf id start).take (r.read.length + q.limit) := by
  obtain ⟨page, hpage⟩ := exists_commitsAfter (hr.cursor_nonneg hstart) hq.limit hq.owned
  have hnext : r.request sha256 id q = { r.wait sha256 q.between with
      cursor := (page.getLast?.map LSFSCommit.cursor).getD r.cursor
      read := r.read ++ page } := by
    have hcursor : (r.wait sha256 q.between).cursor = r.cursor := rfl
    simp only [Reader.request, hq.taken, Bool.false_eq_true, if_false, hcursor, hpage]
    rfl
  rw [hnext]
  exact hr.page hpage

end Follow

/-- After any calls of the store. A call that succeeds for the first time with its context and key
adds one record, to its context; any other call adds none. A reader of a context who goes on from
the last cursor has at all times read the first commits after its start, in their order, and with
each request that is served it has read as many more as there are up to the limit. -/
theorem commit_log (xs : List ContextAttempt) (x : ContextAttempt) (id : GoString) (start : ℤ)
    (hstart : 0 ≤ start) (qs : List PageRequest) (q : PageRequest) :
    ((∀ r i key, (x.perform sha256 (ContextAttempt.run sha256 xs).2).1 = .ok r →
        x.call.slot = some (i, key) → (ContextAttempt.run sha256 xs).1.IsNew (i, key) →
        ∃ kind input, x.call.input = some (kind, input) ∧
          (x.perform sha256 (ContextAttempt.run sha256 xs).2).2.commits =
            (ContextAttempt.run sha256 xs).2.commits ++
              [⟨(ContextAttempt.run sha256 xs).2.commits.length + 1, i, kind, r, key⟩]) ∧
      ((¬ ∃ r slot, (x.perform sha256 (ContextAttempt.run sha256 xs).2).1 = .ok r ∧
          x.call.slot = some slot ∧ (ContextAttempt.run sha256 xs).1.IsNew slot) →
        (x.perform sha256 (ContextAttempt.run sha256 xs).2).2.commits =
          (ContextAttempt.run sha256 xs).2.commits)) ∧
    ∃ r : Reader, r = Reader.follow sha256 id
        ⟨(ContextAttempt.run sha256 xs).1, (ContextAttempt.run sha256 xs).2, start, []⟩ qs ∧
      (r.store.commitsOf id start).Pairwise (fun c d => c.cursor < d.cursor) ∧
      r.read <+: r.store.commitsOf id start ∧
      (q.IsServed sha256 id r → (r.request sha256 id q).read =
        ((r.request sha256 id q).store.commitsOf id start).take (r.read.length + q.limit)) := by
  have hl : Logged (ContextAttempt.run sha256 xs).1 (ContextAttempt.run sha256 xs).2 :=
    logged_foldl xs logged_empty
  refine ⟨?_, _, rfl, ?_⟩
  · have he := hl.effect sha256 x
    generalize x.perform sha256 (ContextAttempt.run sha256 xs).2 = p at he ⊢
    cases he with
    | @first r t i key kind input hslot hnew hinput _ hcommits =>
      refine ⟨fun r' i' key' hr hslot' _ => ?_, fun hnone => ?_⟩
      · obtain rfl := Except.ok.inj hr
        cases hslot.symm.trans hslot'
        exact ⟨kind, input, hinput, hcommits⟩
      · exact absurd ⟨r, (i, key), rfl, hslot, hnew⟩ hnone
    | other _ hcommits hold =>
      exact ⟨fun r i key hr hslot hnew => absurd hnew (hold r _ hr hslot), fun _ => hcommits⟩
  · have hinit : Reader.Follows id start ⟨(ContextAttempt.run sha256 xs).1,
        (ContextAttempt.run sha256 xs).2, start, []⟩ := ⟨hl, nil_prefix, rfl⟩
    have hr := hinit.follow sha256 qs
    exact ⟨(hr.logged.commitsOf_ordered id).after start, hr.read, hr.served hstart⟩

namespace Sample

def calls : List ContextCall → List ContextAttempt := map fun c => ⟨c, false⟩

def nextPage : PageRequest :=
  ⟨calls [appendChild, .append (lit "o") parent.text (lit "b") [5]], lit "o", 5, false⟩

end Sample

open Sample

theorem commit_log_parent :
    ∃ r : Reader, r = Reader.follow digest parent.text
        ⟨(ContextAttempt.run digest (calls forked)).1,
          (ContextAttempt.run digest (calls forked)).2, 0, []⟩
        [⟨[], lit "o", 1, false⟩] ∧
      nextPage.IsServed digest parent.text r ∧
      r.read.map LSFSCommit.cursor = [1] ∧
      (r.request digest parent.text nextPage).read.map LSFSCommit.cursor =
        [1, 2, 4] := by
  obtain ⟨-, r, hr, -, -, hserved⟩ := commit_log digest (calls forked)
    ⟨first, false⟩ parent.text 0 le_rfl [⟨[], lit "o", 1, false⟩] nextPage
  have hq : nextPage.IsServed digest parent.text r := by
    subst hr
    exact ⟨rfl, by decide +kernel, by decide⟩
  refine ⟨r, hr, hq, ?_, ?_⟩
  · subst hr
    decide +kernel
  · rw [hserved hq]
    subst hr
    decide +kernel

end Aok.Runtime
