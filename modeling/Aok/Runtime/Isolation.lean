import Aok.Runtime.Views

/-!
# Isolation of contexts

What can be read through a context depends on the calls on the context itself, on the call
that made it, and on the calls on the context it was forked from up to the fork. The blobs are
shared, and other contexts add to them, but the names a context can use are its own.
-/

namespace Aok.Runtime
open Lib Lib.Utf8 Lib.JsonText Lib.JsonValue Lib.Command List

/-! ## Runs and trails -/

def after (sha256 : Bytes → Digest) : List ContextCall → ContextStore
  | [] => .empty
  | c :: older => c.attempt sha256 (after sha256 older)

def hashedBy (sha256 : Bytes → Digest) : List ContextCall → List Bytes
  | [] => []
  | c :: older => c.hashed sha256 (after sha256 older) ++ hashedBy sha256 older

def FreshIDs (calls : List ContextCall) : Prop := (calls.filterMap ContextCall.drawn).Nodup

/-- The calls on a context and, from the call that made it backwards, those on what it was
forked from. -/
def trail (id : GoString) : List ContextCall → List ContextCall
  | [] => []
  | c :: older =>
    if c.drawn.map HexText.text = some id then
      match c.target with
      | some parent => c :: trail parent older
      | none => [c]
    else if c.target = some id then c :: trail id older
    else trail id older

/-! ## Two runs -/

section Runs
open ContextStore
variable {sha256 : Bytes → Digest} {D : Set Bytes} {calls older : List ContextCall}
  {c : ContextCall} {id : GoString}

theorem after_backed (hD : Set.InjOn sha256 D) (h : ∀ d ∈ hashedBy sha256 calls, d ∈ D) :
    Backed sha256 D (after sha256 calls) := by
  induction calls with
  | nil => exact backed_empty
  | cons c older ih =>
    exact (ih fun d hd => h d (mem_append_right _ hd)).attempt hD fun d hd =>
      h d (mem_append_left _ hd)

theorem after_unused (h : ∀ c ∈ calls, c.drawn.map HexText.text ≠ some id) :
    (after sha256 calls).view id = View.unused := by
  induction calls with
  | nil => simp [after, view, View.unused, empty, layout]
  | cons c older ih =>
    have hold := ih fun c hc => h c (mem_cons_of_mem _ hc)
    by_cases htarget : c.target = some id
    · rw [after, attempt_absent (congrArg View.layout hold) htarget, hold]
    · rw [after, attempt_view_ne (h c mem_cons_self) htarget, hold]

theorem FreshIDs.unused (h : FreshIDs (c :: older)) {x : HexText} (hx : x ∈ c.drawn) :
    (after sha256 older).view x.text = View.unused := by
  refine after_unused fun c' hc' heq => ?_
  obtain ⟨y, hy, hxy⟩ := Option.map_eq_some_iff.mp heq
  cases HexText.ext_text hxy
  rw [FreshIDs, filterMap_cons, Option.mem_def.mp hx] at h
  exact (nodup_cons.mp h).1 (mem_filterMap.mpr ⟨c', hc', hy⟩)

theorem FreshIDs.tail (h : FreshIDs (c :: older)) : FreshIDs older :=
  h.sublist ((sublist_cons_self c older).filterMap _)

theorem contexts_of_unused {s : ContextStore} (h : s.view id = View.unused) :
    s.contexts[id]? = none := by
  have hl : s.layout id = none := congrArg View.layout h
  simpa [layout] using hl

/-- Calls whose ids are fresh and whose byte strings are in `D`. -/
structure NoClash (sha256 : Bytes → Digest) (D : Set Bytes) (calls : List ContextCall) : Prop where
  fresh : FreshIDs calls
  hashes : ∀ d ∈ hashedBy sha256 calls, d ∈ D

theorem NoClash.tail (h : NoClash sha256 D (c :: older)) : NoClash sha256 D older :=
  ⟨h.fresh.tail, fun d hd => h.hashes d (mem_append_right _ hd)⟩

theorem NoClash.head (h : NoClash sha256 D (c :: older)) :
    ∀ d ∈ c.hashed sha256 (after sha256 older), d ∈ D :=
  fun d hd => h.hashes d (mem_append_left _ hd)

def ContextCall.Beside (id : GoString) (c : ContextCall) : Prop :=
  c.drawn.map HexText.text ≠ some id ∧ c.target ≠ some id

theorem trail_beside (h : c.Beside id) (older : List ContextCall) :
    trail id (c :: older) = trail id older := by
  rw [trail, if_neg h.1, if_neg h.2]

theorem trail_cons (h : ¬ c.Beside id) (older : List ContextCall) :
    ∃ rest, trail id (c :: older) = c :: rest := by
  rw [trail]
  split_ifs with hdrawn htarget
  · split
    · exact ⟨_, rfl⟩
    · exact ⟨_, rfl⟩
  · exact ⟨_, rfl⟩
  · exact absurd ⟨hdrawn, htarget⟩ h

theorem view_last {l₁ l₂ : List ContextCall} (hD : Set.InjOn sha256 D)
    (hlen : ∀ d ∈ D, d.length < 2 ^ 63) (h₁ : NoClash sha256 D (c :: l₁))
    (h₂ : NoClash sha256 D (c :: l₂)) (hc : ¬ c.Beside id)
    (ih : ∀ i, trail i l₁ = trail i l₂ → (after sha256 l₁).view i = (after sha256 l₂).view i)
    (h : trail id (c :: l₁) = trail id (c :: l₂)) :
    (after sha256 (c :: l₁)).view id = (after sha256 (c :: l₂)).view id := by
  have hb₁ := after_backed hD h₁.tail.hashes
  have hb₂ := after_backed hD h₂.tail.hashes
  have hnew : ∀ x ∈ c.drawn, (after sha256 l₁).contexts[x.text]? = none ∧
      (after sha256 l₂).contexts[x.text]? = none := fun x hx =>
    ⟨contexts_of_unused (h₁.fresh.unused hx), contexts_of_unused (h₂.fresh.unused hx)⟩
  by_cases hdrawn : c.drawn.map HexText.text = some id
  · -- The call made the context, which is in neither run before.
    obtain ⟨x, hx, rfl⟩ := Option.map_eq_some_iff.mp hdrawn
    have hv : (after sha256 l₁).view x.text = (after sha256 l₂).view x.text :=
      (h₁.fresh.unused hx).trans (h₂.fresh.unused hx).symm
    obtain ⟨hnew₁, hnew₂⟩ := hnew x hx
    refine attempt_congr ?_ hv
    cases c with
    | create i owner sealed =>
      cases hx
      exact create_agree hD hb₁ hb₂ hnew₁ hnew₂ hv fun hne =>
        h₁.head sealed (by simp [ContextCall.hashed, hne])
    | forkTo child owner parent childOwner key =>
      cases hx
      rw [trail, trail, if_pos hdrawn, if_pos hdrawn] at h
      exact forkTo_agree hb₁ hb₂ hnew₁ hnew₂ (ih parent (List.cons.inj h).2) hv (.inr rfl)
    | _ => cases hx
  · have htarget : c.target = some id := by
      by_contra ht
      exact hc ⟨hdrawn, ht⟩
    rw [trail, trail, if_neg hdrawn, if_neg hdrawn, if_pos htarget, if_pos htarget] at h
    have hv := ih id (List.cons.inj h).2
    exact attempt_congr
      (exec_agree hD hlen hb₁ hb₂ hv htarget hnew h₁.head h₂.head) hv

/-- What belongs to a context is settled by its trail. -/
theorem view_of_trail (hD : Set.InjOn sha256 D) (hlen : ∀ d ∈ D, d.length < 2 ^ 63)
    (l₁ l₂ : List ContextCall) (id : GoString) (h₁ : NoClash sha256 D l₁) (h₂ : NoClash sha256 D l₂)
    (h : trail id l₁ = trail id l₂) :
    (after sha256 l₁).view id = (after sha256 l₂).view id := by
  -- Calls beside the context are dropped from either run until both end in the same call.
  match l₁, l₂ with
  | [], [] => rfl
  | [], c :: older =>
    by_cases hc : c.Beside id
    · rw [trail_beside hc] at h
      rw [view_of_trail hD hlen [] older id h₁ h₂.tail h, after, attempt_view_ne hc.1 hc.2]
    · obtain ⟨rest, hrest⟩ := trail_cons hc older
      rw [hrest] at h
      cases h
  | c :: older, [] =>
    by_cases hc : c.Beside id
    · rw [trail_beside hc] at h
      rw [← view_of_trail hD hlen older [] id h₁.tail h₂ h, after, attempt_view_ne hc.1 hc.2]
    · obtain ⟨rest, hrest⟩ := trail_cons hc older
      rw [hrest] at h
      cases h
  | c₁ :: o₁, c₂ :: o₂ =>
    by_cases hc₁ : c₁.Beside id
    · rw [trail_beside hc₁] at h
      rw [← view_of_trail hD hlen o₁ (c₂ :: o₂) id h₁.tail h₂ h, after,
        attempt_view_ne hc₁.1 hc₁.2]
    · by_cases hc₂ : c₂.Beside id
      · rw [trail_beside hc₂] at h
        rw [view_of_trail hD hlen (c₁ :: o₁) o₂ id h₁ h₂.tail h]
        exact (attempt_view_ne hc₂.1 hc₂.2).symm
      · obtain ⟨rest₁, hrest₁⟩ := trail_cons hc₁ o₁
        obtain ⟨rest₂, hrest₂⟩ := trail_cons hc₂ o₂
        have hcc : c₁ = c₂ := by
          rw [hrest₁, hrest₂] at h
          exact (List.cons.inj h).1
        subst hcc
        exact view_last hD hlen h₁ h₂ hc₁
          (fun i hi => view_of_trail hD hlen o₁ o₂ i h₁.tail h₂.tail hi) h
termination_by l₁.length + l₂.length

end Runs

/-! ## Reads -/

namespace ContextStore
variable {sha256 : Bytes → Digest} {D : Set Bytes} {s s₁ s₂ t : ContextStore} {c : ContextCall}
  {r : HexText} {id owner : GoString} {l : Layout}

theorem Intact.snapshotContext_eq (hs : Intact sha256 D s) (hl : s.layout id = some l) :
    s.snapshotContext sha256 id = .ok (l.snapshot s.blobs id) := by
  have hpages : (s.pagesOf id).mapM (fun hash => do
      let data ← s.blob sha256 hash
      pure (⟨hash.text, data.length⟩ : ContextPage)) =
      Except.ok (l.pages.map (snapshotPage s.blobs)) := by
    rw [pagesOf_of_layout hl]
    refine mapM_ok fun h hh => ?_
    rw [hs.blob_eq hl (mem_append_left _ hh)]
    rfl
  unfold snapshotContext
  rw [hpages, tailOf_of_layout hl]
  cases ht : l.tail with
  | none => simp [Layout.snapshot, ht, bind, Except.bind, pure, Except.pure]
  | some h =>
    have hb := hs.blob_eq hl (mem_append_right _ (show h ∈ l.tail.toList by simp [ht]))
    simp [Layout.snapshot, ht, bind, Except.bind, pure, Except.pure, hb, snapshotPage]

theorem authorized_congr {α : Type} {x₁ x₂ : Except Err α} (hv : s₁.view id = s₂.view id)
    (hx : ∀ l, s₁.layout id = some l → s₂.layout id = some l → x₁ = x₂) :
    (authorize s₁ owner id >>= fun _ => x₁) = (authorize s₂ owner id >>= fun _ => x₂) := by
  have hl : s₁.layout id = s₂.layout id := congrArg View.layout hv
  rw [authorize_congr hv, authorize_eq]
  cases hlay : s₂.layout id with
  | none => rfl
  | some l => rw [hx l (hl.trans hlay) hlay]

section Reads
variable (hD : Set.InjOn sha256 D) (h₁ : Backed sha256 D s₁) (h₂ : Backed sha256 D s₂)
  (hv : s₁.view id = s₂.view id)
include hD h₁ h₂ hv

theorem snapshot_congr (owner : GoString) :
    s₁.snapshot sha256 owner id = s₂.snapshot sha256 owner id := by
  refine authorized_congr hv fun l hl₁ hl₂ => ?_
  rw [h₁.intact.snapshotContext_eq hl₁, h₂.intact.snapshotContext_eq hl₂]
  have hpage : ∀ x ∈ l.refs, snapshotPage s₁.blobs x = snapshotPage s₂.blobs x := fun x hx => by
    rw [snapshotPage, snapshotPage, blobData_refs hD h₁ h₂ hl₁ hl₂ hx]
  have hpages := map_congr_left fun x hx => hpage x (mem_append_left l.tail.toList hx)
  have htail : l.tail.map (snapshotPage s₁.blobs) = l.tail.map (snapshotPage s₂.blobs) :=
    Option.map_congr fun x hx => hpage x (mem_append_right _ (by simpa using hx))
  rw [Layout.snapshot, Layout.snapshot, hpages, htail]

theorem readPage_congr (owner hash : GoString) :
    s₁.readPage sha256 owner id hash = s₂.readPage sha256 owner id hash := by
  refine authorized_congr hv fun l hl₁ hl₂ => ?_
  have hrefs : ∀ s : ContextStore, s.layout id = some l →
      s.pagesOf id ++ (s.tailOf id).toList = l.refs := fun s hl => by
    rw [pagesOf_of_layout hl, tailOf_of_layout hl, Layout.refs]
  rw [hrefs s₁ hl₁, hrefs s₂ hl₂]
  split
  · rfl
  next x hx =>
    have hmem := mem_of_find?_eq_some hx
    rw [h₁.intact.blob_eq hl₁ hmem, h₂.intact.blob_eq hl₂ hmem, blobData_refs hD h₁ h₂ hl₁ hl₂ hmem]

theorem readArtifact_congr (owner handle : GoString) :
    s₁.readArtifact sha256 owner id handle = s₂.readArtifact sha256 owner id handle := by
  have hfind := find_grants_congr hv handle .artifact
  refine authorized_congr hv fun l hl₁ hl₂ => ?_
  rw [hfind]
  split
  · rfl
  next g hg =>
    obtain ⟨hs₁, -⟩ := h₁.grants _ _ _ (mem_of_find?_eq_some (hfind.trans hg))
    obtain ⟨hs₂, -⟩ := h₂.grants _ _ _ (mem_of_find?_eq_some hg)
    rw [h₁.intact.blob_stored hs₁, h₂.intact.blob_stored hs₂, blobData_eq hD h₁ h₂ hs₁ hs₂]

end Reads

theorem pageHashes_congr (hv : s₁.view id = s₂.view id) (owner : GoString) :
    s₁.pageHashes owner id = s₂.pageHashes owner id := by
  refine authorized_congr hv fun l hl₁ hl₂ => ?_
  rw [pagesOf_of_layout hl₁, pagesOf_of_layout hl₂, tailOf_of_layout hl₁, tailOf_of_layout hl₂]

/-! ## Commits -/

def Numbered (s : ContextStore) : Prop :=
  ∀ (i : ℕ) (c : LSFSCommit), s.commits[i]? = some c → c.cursor = i + 1

theorem Numbered.sorted (h : s.Numbered) : s.commits.Pairwise fun x y => x.cursor < y.cursor := by
  rw [pairwise_iff_getElem]
  intro i j hi hj hij
  rw [h i _ (getElem?_eq_getElem hi), h j _ (getElem?_eq_getElem hj)]
  omega

theorem filter_after_eq_drop {commits : List LSFSCommit}
    (h : commits.Pairwise fun x y => x.cursor < y.cursor) (a : ℤ) :
    commits.filter (fun x => a < x.cursor) =
      commits.drop (commits.filter fun x => x.cursor ≤ a).length := by
  induction commits with
  | nil => rfl
  | cons x rest ih =>
    obtain ⟨hx, hrest⟩ := pairwise_cons.mp h
    by_cases hxa : x.cursor ≤ a
    · rw [filter_cons_of_neg (by simpa using hxa), filter_cons_of_pos (by simpa using hxa)]
      exact ih hrest
    · have hall : ∀ y ∈ x :: rest, a < y.cursor := by
        intro y hy
        rcases mem_cons.mp hy with rfl | hy
        · exact not_le.mp hxa
        · exact (not_le.mp hxa).trans (hx y hy)
      rw [filter_eq_self.mpr fun y hy => by simpa using hall y hy,
        filter_eq_nil_iff.mpr fun y hy => by simpa using hall y hy]
      rfl

def commitsUpTo (id : GoString) (a : ℤ) (s : ContextStore) : ℕ :=
  (s.commits.filter fun x => x.contextID = id ∧ x.cursor ≤ a).length

theorem filter_commits_eq (hs : s.Numbered) (id : GoString) (a : ℤ) :
    (s.commits.filter fun x => x.contextID = id ∧ a < x.cursor).map LSFSCommit.unnumbered =
      (s.view id).commits.drop (s.commitsUpTo id a) := by
  have hsorted := hs.sorted.filter fun x => decide (x.contextID = id)
  have hfilter : ∀ p : LSFSCommit → Bool, s.commits.filter (fun x => x.contextID = id ∧ p x) =
      (s.commits.filter fun x => x.contextID = id).filter p := fun p => by
    rw [filter_filter]
    exact filter_congr fun x _ => by simp [Bool.and_comm]
  have h₁ := hfilter fun x => a < x.cursor
  have h₂ := hfilter fun x => x.cursor ≤ a
  simp only [decide_eq_true_eq] at h₁ h₂
  rw [commitsUpTo, h₁, h₂, filter_after_eq_drop hsorted, map_drop]
  rfl

theorem commitsAfter_congr (hn₁ : s₁.Numbered) (hn₂ : s₂.Numbered) (hv : s₁.view id = s₂.view id)
    {a₁ a₂ : ℤ} (ha₁ : 0 ≤ a₁) (ha₂ : 0 ≤ a₂) (ha : s₁.commitsUpTo id a₁ = s₂.commitsUpTo id a₂)
    (owner : GoString) (limit : ℕ) :
    (s₁.commitsAfter owner id a₁ limit).map (map LSFSCommit.unnumbered) =
      (s₂.commitsAfter owner id a₂ limit).map (map LSFSCommit.unnumbered) := by
  unfold commitsAfter
  rw [authorize_congr hv]
  by_cases hlimit : limit < 1 ∨ 1000 < limit
  · rw [if_pos (.inr hlimit), if_pos (.inr hlimit)]
  · rw [if_neg (by omega), if_neg (by omega)]
    cases authorize s₂ owner id with
    | error e => rfl
    | ok =>
      refine congrArg Except.ok ?_
      rw [map_take, map_take, filter_commits_eq hn₁, filter_commits_eq hn₂, hv, ha]

theorem Numbered.concat (h : s.Numbered) {c : LSFSCommit} (hc : c.cursor = s.commits.length + 1)
    (ht : t.commits = s.commits ++ [c]) : t.Numbered := by
  intro i x hx
  rw [ht, getElem?_append] at hx
  split_ifs at hx with hi
  · exact h i x hx
  · obtain ⟨hlt, rfl⟩ := List.getElem?_eq_some_iff.mp hx
    have hi' : i = s.commits.length := by
      simp only [length_singleton] at hlt
      omega
    simpa [hi'] using hc

theorem exec_numbered (h : c.exec sha256 s = .ok (r, t)) (hs : s.Numbered) : t.Numbered := by
  cases hslot : c.slot with
  | none =>
    obtain ⟨-, -, hcommits⟩ := (exec_unkeyed hslot h).unkeyed hslot
    rwa [Numbered, hcommits]
  | some x =>
    obtain ⟨_, _, _, hinput, -, -, -, ⟨rfl, -⟩ | ⟨-, u, hu, rfl⟩⟩ := exec_keyed hslot h
    · exact hs
    · have hcommits := (hu.touches hslot hinput).commits
      exact hs.concat (by rw [← hcommits]) (congrArg (· ++ [_]) hcommits)

end ContextStore

section Runs
open ContextStore
variable {sha256 : Bytes → Digest} {D : Set Bytes} {l₁ l₂ : List ContextCall} {id : GoString}

theorem after_numbered (sha256 : Bytes → Digest) (calls : List ContextCall) :
    (after sha256 calls).Numbered := by
  induction calls with
  | nil => simp [after, Numbered, empty]
  | cons c older ih =>
    rw [after, ContextCall.attempt]
    split
    next h => exact exec_numbered h ih
    · exact ih

/-- Two runs with the same calls on a context and on what it was forked from up to the fork cannot
be told apart by reading through the context, nor by restoring it, whatever else they do. -/
theorem reads_isolated (hD : Set.InjOn sha256 D) (hlen : ∀ d ∈ D, d.length < 2 ^ 63)
    (h₁ : NoClash sha256 D l₁) (h₂ : NoClash sha256 D l₂) (h : trail id l₁ = trail id l₂)
    (owner : GoString) :
    (after sha256 l₁).snapshot sha256 owner id = (after sha256 l₂).snapshot sha256 owner id ∧
    (after sha256 l₁).pageHashes owner id = (after sha256 l₂).pageHashes owner id ∧
    (∀ hash, (after sha256 l₁).readPage sha256 owner id hash =
      (after sha256 l₂).readPage sha256 owner id hash) ∧
    (∀ handle, (after sha256 l₁).readArtifact sha256 owner id handle =
      (after sha256 l₂).readArtifact sha256 owner id handle) ∧
    (∀ a₁ a₂ limit, 0 ≤ a₁ → 0 ≤ a₂ →
      (after sha256 l₁).commitsUpTo id a₁ = (after sha256 l₂).commitsUpTo id a₂ →
      ((after sha256 l₁).commitsAfter owner id a₁ limit).map (map LSFSCommit.unnumbered) =
        ((after sha256 l₂).commitsAfter owner id a₂ limit).map (map LSFSCommit.unnumbered)) ∧
    ∀ key handle, (restore sha256 owner id key handle (after sha256 l₁)).map Prod.fst =
      (restore sha256 owner id key handle (after sha256 l₂)).map Prod.fst := by
  have hv := view_of_trail hD hlen l₁ l₂ id h₁ h₂ h
  have hb₁ := after_backed hD h₁.hashes
  have hb₂ := after_backed hD h₂.hashes
  refine ⟨snapshot_congr hD hb₁ hb₂ hv owner, pageHashes_congr hv owner,
    readPage_congr hD hb₁ hb₂ hv owner, readArtifact_congr hD hb₁ hb₂ hv owner,
    fun a₁ a₂ limit ha₁ ha₂ ha => commitsAfter_congr (after_numbered _ _) (after_numbered _ _) hv ha₁ ha₂
      ha owner limit, fun key handle => ?_⟩
  exact (restore_agree hD hb₁ hb₂ hv hlen owner key handle).map_fst

end Runs

namespace Sample

def aside : HexText := hexEncode [0xCC]

def besideChild : List ContextCall :=
  [.append (lit "p") child.text (lit "a") [3], .commitArtifact (lit "q") aside.text (lit "s") [7],
    .create aside (lit "q") [9], .forkTo child (lit "o") parent.text (lit "p") (lit "f"),
    .create parent (lit "o") [1]]

def afterFork : List ContextCall :=
  [.append (lit "p") child.text (lit "a") [3], .append (lit "o") parent.text (lit "b") [2],
    .forkTo child (lit "o") parent.text (lit "p") (lit "f"), .create parent (lit "o") [1]]

end Sample

open Sample

/-- The hash of what another context holds does not make it readable. -/
theorem reads_isolated_child :
    (after digest besideChild).readPage digest (lit "p") child.text
      (digest [9]).text =
    (after digest afterFork).readPage digest (lit "p") child.text
      (digest [9]).text := by
  have hrun : Distinct (hashedBy digest besideChild ++
        hashedBy digest afterFork) ∧
      (∀ d ∈ hashedBy digest besideChild ++ hashedBy digest afterFork,
        d.length < 2 ^ 63) ∧
      trail child.text besideChild = trail child.text afterFork ∧
      (besideChild.filterMap ContextCall.drawn).Nodup ∧
      (afterFork.filterMap ContextCall.drawn).Nodup := by
    decide +kernel
  obtain ⟨hD, hlen, htrail, hfresh₁, hfresh₂⟩ := hrun
  exact (reads_isolated hD.injOn hlen ⟨hfresh₁, fun d hd => mem_append_left _ hd⟩
    ⟨hfresh₂, fun d hd => mem_append_right _ hd⟩ htrail (lit "p")).2.2.1 _

end Aok.Runtime
