import Aok.Runtime.Isolation

/-!
# Statistics of contexts

`Stats` reads the pages of several contexts and counts how often each blob is named. What the
loops gather is determined by the multiset of the names in the contexts that occur, so that
neither the order nor the repetition of the ids matters. A blob is stored once however often it is
named: the bytes saved are those of its further names.
-/

namespace Aok.Runtime
open Lib Lib.Utf8 Lib.JsonText Lib.Command List

structure ContextStats where
  contexts : ℕ
  references : ℕ
  uniqueBlobs : ℕ
  sharedBlobs : ℕ
  logicalBytes : ℤ
  uniqueBytes : ℤ
  savedBytes : ℤ
deriving DecidableEq

namespace ContextStore

/-- The variables of `Stats` in its loops. -/
structure Tally where
  stats : ContextStats
  refs : Table GoString ℕ
  sizes : Table GoString ℤ
  seen : Table GoString Bool

def Tally.empty : Tally := ⟨⟨0, 0, 0, 0, 0, 0, 0⟩, ∅, ∅, ∅⟩

def Tally.page (t : Tally) (p : ContextPage) : Tally where
  stats := { t.stats with
    logicalBytes := t.stats.logicalBytes + p.bytes, references := t.stats.references + 1 }
  refs := t.refs.insert p.hash ((t.refs[p.hash]?).getD 0 + 1)
  sizes := t.sizes.insert p.hash p.bytes
  seen := t.seen

def Tally.finish (t : Tally) : ContextStats :=
  let uniqueBytes := (t.refs.keys.map fun hash => (t.sizes[hash]?).getD 0).sum
  { t.stats with
    uniqueBlobs := t.refs.size
    uniqueBytes
    sharedBlobs := t.refs.keys.countP fun hash => 1 < (t.refs[hash]?).getD 0
    savedBytes := t.stats.logicalBytes - uniqueBytes }

/-- One id of the loop. -/
def tally (sha256 : Bytes → Digest) (owner : GoString) (s : ContextStore) (t : Tally)
    (id : GoString) : Except Err Tally :=
  if (t.seen[id]?).getD false then .ok t
  else do
    authorize s owner id
    let snap ← s.snapshotContext sha256 id
    pure ((snap.sealed ++ snap.tail.toList).foldl Tally.page { t with
      stats := { t.stats with contexts := t.stats.contexts + 1 }
      seen := t.seen.insert id true })

def stats (sha256 : Bytes → Digest) (owner : GoString) (ids : List GoString) (s : ContextStore) :
    Except Err ContextStats := do
  let t ← ids.foldlM (tally sha256 owner s) .empty
  pure t.finish

/-! ## What the loops count -/

/-- The blobs that a context names, each as often as it is named. -/
def refsOf (s : ContextStore) (id : GoString) : Multiset GoString :=
  (((s.layout id).map fun l => l.refs.map HexText.text).getD [] : List GoString)

def references (s : ContextStore) (ids : Finset GoString) : Multiset GoString :=
  ∑ id ∈ ids, s.refsOf id

def blobSize (s : ContextStore) (hash : GoString) : ℤ := ((s.blobs[hash]?).getD []).length

variable {sha256 : Bytes → Digest} {D : Set Bytes} {s : ContextStore} {owner id : GoString}
  {size : GoString → ℤ} {P : Multiset GoString} {t t' : Tally} {done : Finset GoString}

/-- The names counted so far are those of a multiset. -/
structure Tally.Counts (size : GoString → ℤ) (P : Multiset GoString) (t : Tally) : Prop where
  logicalBytes : t.stats.logicalBytes = (P.map size).sum
  references : t.stats.references = P.card
  refs : ∀ h, t.refs[h]? = if h ∈ P then some (P.count h) else none
  sizes : ∀ h, t.sizes[h]? = if h ∈ P then some (size h) else none

theorem Tally.Counts.page {p : ContextPage} (h : t.Counts size P) (hp : p.bytes = size p.hash) :
    (t.page p).Counts size (p.hash ::ₘ P) where
  logicalBytes := by simp [Tally.page, h.logicalBytes, hp, add_comm]
  references := by simp [Tally.page, h.references]
  refs := by
    intro x
    rw [Tally.page, Table.get_insert, h.refs, h.refs]
    by_cases hx : p.hash = x
    · subst hx
      by_cases hm : p.hash ∈ P
      · simp [hm]
      · simp [hm]
    · simp [hx, Ne.symm hx]
  sizes := by
    intro x
    rw [Tally.page, Table.get_insert, h.sizes, hp]
    by_cases hx : p.hash = x
    · simp [hx]
    · simp [hx, Ne.symm hx]

theorem Tally.Counts.pages {ps : List ContextPage} (h : t.Counts size P)
    (hps : ∀ p ∈ ps, p.bytes = size p.hash) :
    (ps.foldl Tally.page t).Counts size ((ps.map ContextPage.hash : List GoString) + P) := by
  induction ps generalizing t P with
  | nil => simpa using h
  | cons p ps ih =>
    have hnext := ih (h.page (hps p mem_cons_self)) fun q hq => hps q (mem_cons_of_mem _ hq)
    rwa [map_cons, foldl_cons, ← Multiset.cons_coe, Multiset.cons_add, ← Multiset.add_cons]

theorem foldl_page (ps : List ContextPage) (t : Tally) : (ps.foldl Tally.page t).seen = t.seen ∧
    (ps.foldl Tally.page t).stats.contexts = t.stats.contexts := by
  induction ps generalizing t with
  | nil => exact ⟨rfl, rfl⟩
  | cons p ps ih => exact ih (t.page p)

/-- The contexts counted so far are those of a set. -/
structure Tallied (s : ContextStore) (done : Finset GoString) (t : Tally) : Prop where
  counts : t.Counts s.blobSize (s.references done)
  seen : ∀ id, (t.seen[id]?).getD false = true ↔ id ∈ done
  contexts : t.stats.contexts = done.card

theorem tallied_empty (s : ContextStore) : Tallied s ∅ .empty := by
  refine ⟨⟨?_, ?_, ?_, ?_⟩, ?_, ?_⟩ <;> simp [Tally.empty, references]

theorem exists_layout (h : s.authorize owner id = .ok ()) : ∃ l, s.layout id = some l := by
  rw [authorize_eq] at h
  cases hl : s.layout id with
  | none => simp [hl] at h
  | some l => exact ⟨l, rfl⟩

theorem map_hash_snapshotPage (blobs : Table GoString Bytes) (hs : List HexText) :
    (hs.map (snapshotPage blobs)).map ContextPage.hash = hs.map HexText.text := by
  simp [snapshotPage]

theorem refsOf_of_layout {l : Layout} (hl : s.layout id = some l) :
    s.refsOf id = (l.refs.map HexText.text : List GoString) := by
  simp [refsOf, hl]

theorem tally_tallied (hs : Intact sha256 D s) (ha : s.authorize owner id = .ok ())
    (ht : Tallied s done t) :
    ∃ t', tally sha256 owner s t id = .ok t' ∧ Tallied s (insert id done) t' := by
  by_cases hid : id ∈ done
  · rw [tally, if_pos ((ht.seen id).mpr hid), Finset.insert_eq_self.mpr hid]
    exact ⟨t, rfl, ht⟩
  obtain ⟨l, hl⟩ := exists_layout ha
  have hpages : (l.snapshot s.blobs id).sealed ++ (l.snapshot s.blobs id).tail.toList =
      l.refs.map (snapshotPage s.blobs) := by
    cases htail : l.tail <;> simp [Layout.snapshot, Layout.refs, htail]
  rw [tally, if_neg (by simp [ht.seen, hid]), ha, hs.snapshotContext_eq hl]
  refine ⟨_, rfl, ?_, fun x => ?_, ?_⟩
  · have hsize : ∀ p ∈ l.refs.map (snapshotPage s.blobs), p.bytes = s.blobSize p.hash := by
      simp [snapshotPage, blobData, blobSize]
    rw [hpages, references, Finset.sum_insert hid, refsOf_of_layout hl, ← map_hash_snapshotPage]
    exact Tally.Counts.pages ⟨ht.counts.1, ht.counts.2, ht.counts.3, ht.counts.4⟩ hsize
  · rw [(foldl_page _ _).1, Table.get_insert, Finset.mem_insert, ← ht.seen]
    split_ifs with hx
    · simp [hx]
    · simp [Ne.symm hx]
  · rw [(foldl_page _ _).2, Finset.card_insert_of_notMem hid, ht.contexts]

theorem foldlM_tallied (hs : Intact sha256 D s) (ids : List GoString)
    (ha : ∀ id ∈ ids, s.authorize owner id = .ok ()) (ht : Tallied s done t) :
    ∃ t', ids.foldlM (tally sha256 owner s) t = .ok t' ∧ Tallied s (done ∪ ids.toFinset) t' := by
  induction ids generalizing done t with
  | nil => exact ⟨t, rfl, by simpa using ht⟩
  | cons id ids ih =>
    obtain ⟨t₁, h₁, ht₁⟩ := tally_tallied hs (ha id mem_cons_self) ht
    obtain ⟨t₂, h₂, ht₂⟩ := ih (fun i hi => ha i (mem_cons_of_mem _ hi)) ht₁
    refine ⟨t₂, by rw [foldlM_cons, h₁]; exact h₂, ?_⟩
    rwa [toFinset_cons, Finset.union_insert, ← Finset.insert_union]

/-! ## The result -/

theorem Tally.Counts.keys_nodup_toFinset (h : t.Counts size P) :
    t.refs.keys.Nodup ∧ t.refs.keys.toFinset = P.toFinset := by
  refine ⟨Std.ExtTreeMap.nodup_keys, Finset.ext fun x => ?_⟩
  have hmem : x ∈ t.refs ↔ x ∈ P := by
    rw [Std.ExtTreeMap.mem_iff_isSome_getElem?, h.refs]
    split_ifs with hx <;> simp [hx]
  simp [hmem]

theorem Tally.Counts.uniqueBytes_eq (h : t.Counts size P) :
    t.finish.uniqueBytes = ∑ x ∈ P.toFinset, size x := by
  obtain ⟨hnodup, hkeys⟩ := h.keys_nodup_toFinset
  change (t.refs.keys.map fun hash => (t.sizes[hash]?).getD 0).sum = _
  rw [← sum_toFinset _ hnodup, hkeys]
  refine Finset.sum_congr rfl fun x hx => ?_
  rw [h.sizes, if_pos (Multiset.mem_toFinset.mp hx), Option.getD_some]

theorem Tally.Counts.savedBytes_eq (h : t.Counts size P) :
    t.finish.savedBytes = ∑ x ∈ P.toFinset, ((P.count x : ℤ) - 1) * size x := by
  have hunique := h.uniqueBytes_eq
  change t.stats.logicalBytes - t.finish.uniqueBytes = _
  rw [hunique, h.logicalBytes, Finset.sum_multiset_map_count, ← Finset.sum_sub_distrib]
  exact Finset.sum_congr rfl fun x _ => by rw [nsmul_eq_mul, sub_mul, one_mul]

/-- What the loops leave behind is determined by the set of the contexts. -/
theorem Tallied.finish_eq (h : Tallied s done t) (h' : Tallied s done t') :
    t.finish = t'.finish := by
  have hrefs : t.refs = t'.refs := Std.ExtTreeMap.ext_getElem? fun x => by
    rw [h.counts.refs, h'.counts.refs]
  have hsizes : t.sizes = t'.sizes := Std.ExtTreeMap.ext_getElem? fun x => by
    rw [h.counts.sizes, h'.counts.sizes]
  simp only [Tally.finish, hrefs, hsizes, h.contexts, h'.contexts, h.counts.references,
    h'.counts.references, h.counts.logicalBytes, h'.counts.logicalBytes]

theorem sum_blobSize (hl : (s.layout id).isSome) :
    ((s.refsOf id).map s.blobSize).sum = (((s.contents id).getD []).length : ℤ) := by
  obtain ⟨l, hl⟩ := Option.isSome_iff_exists.mp hl
  rw [refsOf_of_layout hl, contents, hl, Option.map_some, Option.getD_some, Layout.content,
    length_flatMap, Nat.cast_list_sum]
  simp [blobSize, Function.comp_def]

theorem savedBytes_nonneg (s : ContextStore) (P : Multiset GoString) :
    0 ≤ ∑ x ∈ P.toFinset, ((P.count x : ℤ) - 1) * s.blobSize x := by
  refine Finset.sum_nonneg fun x hx => mul_nonneg ?_ (Int.natCast_nonneg _)
  have hcount : 0 < P.count x := Multiset.count_pos.mpr (Multiset.mem_toFinset.mp hx)
  omega

/-- In a store that a run reaches, the statistics of the contexts of one owner: each context
counts once, its bytes are those of its content, a blob is stored once, and what is saved is the
size of each blob for every name but the first. Order and repetition of the ids do not matter. -/
theorem stats_eq {l : List (ContextCall × HexText)} {ids : List GoString}
    (hD : Set.InjOn sha256 D) (hs : ContextTrace sha256 D .empty l s)
    (ha : ∀ id ∈ ids, s.authorize owner id = .ok ()) :
    ∃ stats, s.stats sha256 owner ids = .ok stats ∧
      stats.contexts = ids.toFinset.card ∧
      stats.logicalBytes = ∑ id ∈ ids.toFinset, (((s.contents id).getD []).length : ℤ) ∧
      stats.uniqueBytes = ∑ x ∈ (s.references ids.toFinset).toFinset, s.blobSize x ∧
      stats.savedBytes = ∑ x ∈ (s.references ids.toFinset).toFinset,
        (((s.references ids.toFinset).count x : ℤ) - 1) * s.blobSize x ∧
      0 ≤ stats.savedBytes ∧
      ∀ ids' : List GoString, ids'.toFinset = ids.toFinset →
        s.stats sha256 owner ids' = .ok stats := by
  have hintact := (hs.kept intact_empty hD).intact
  have hrun : ∀ ids' : List GoString, ids'.toFinset = ids.toFinset → ∃ t,
      s.stats sha256 owner ids' = .ok t.finish ∧ Tallied s ids.toFinset t := by
    intro ids' he
    have ha' : ∀ id ∈ ids', s.authorize owner id = .ok () := fun id hid =>
      ha id (mem_toFinset.mp (he ▸ mem_toFinset.mpr hid))
    obtain ⟨t, ht, htallied⟩ := foldlM_tallied hintact ids' ha' (tallied_empty s)
    refine ⟨t, by rw [stats, ht]; rfl, ?_⟩
    rwa [Finset.empty_union, he] at htallied
  obtain ⟨t, hstats, ht⟩ := hrun ids rfl
  refine ⟨t.finish, hstats, ht.contexts, ?_, ht.counts.uniqueBytes_eq, ht.counts.savedBytes_eq,
    ht.counts.savedBytes_eq ▸ savedBytes_nonneg s _, fun ids' he => ?_⟩
  · change t.stats.logicalBytes = _
    rw [ht.counts.logicalBytes, references]
    refine (map_sum (Multiset.sumAddMonoidHom.comp (Multiset.mapAddMonoidHom s.blobSize)) _ _).trans
      (Finset.sum_congr rfl fun id hid => sum_blobSize ?_)
    obtain ⟨l, hl⟩ := exists_layout (ha id (mem_toFinset.mp hid))
    simp [hl]
  · obtain ⟨t', hstats', ht'⟩ := hrun ids' he
    rw [hstats', ht'.finish_eq ht]

open Sample

/-- A context and its fork name two blobs each; both blobs are stored once. -/
theorem stats_eq_forked : ∃ (s : ContextStore) (stats : ContextStats),
    s.stats digest (lit "o") [parent.text, child.text, parent.text] = .ok stats ∧
    stats.contexts = 2 ∧ stats.savedBytes = 2 ∧
    stats.savedBytes = ∑ x ∈ (s.references {parent.text, child.text}).toFinset,
      (((s.references {parent.text, child.text}).count x : ℤ) - 1) * s.blobSize x ∧
    s.stats digest (lit "o") [child.text, parent.text] = .ok stats := by
  have hrun : ∃ x ∈ runCalls digest .empty [.create parent (lit "o") [1],
      .append (lit "o") parent.text (lit "a") [2],
      .forkTo child (lit "o") parent.text (lit "o") (lit "f")], Distinct x.2.1 ∧
      (∀ id ∈ [parent.text, child.text, parent.text],
        () ∈ (x.2.2.authorize (lit "o") id).toOption) ∧
      ∃ y ∈ (x.2.2.stats digest (lit "o") [parent.text, child.text, parent.text]).toOption,
        y.contexts = 2 ∧ y.savedBytes = 2 := by
    decide +kernel
  obtain ⟨⟨l, ds, s⟩, hs, hD, ha, y, hy, hcontexts, hsaved⟩ := hrun
  obtain ⟨stats, hstats, -, -, -, hsum, -, horder⟩ :=
    stats_eq hD.injOn (trace_of_runCalls hs fun d hd => hd) fun id hid => ok_of_toOption (ha id hid)
  have hids : [parent.text, child.text, parent.text].toFinset = {parent.text, child.text} := by
    decide +kernel
  rw [hstats] at hy
  cases hy
  rw [hids] at hsum
  exact ⟨s, y, hstats, hcontexts, hsaved, hsum, horder _ (by decide +kernel)⟩

end ContextStore
end Aok.Runtime
