import Aok.Lib.JsonRoundTrip
import Aok.Runtime.ContextKeys

/-!
# Checkpoints

A checkpoint is a blob with the JSON text of the layout of its context. The blobs it names
and the grant of it are never taken back, and the text reads back as it was written, so a
later restore finds what the checkpoint saw. A handle is granted only by a checkpoint of the
context itself.
-/

namespace Aok.Runtime
open Lib Lib.Utf8 Lib.JsonText Lib.JsonValue Lib.Command ContextCall

variable {h : HexText} {owner key : GoString}

/-! ## The text of a snapshot -/

section Text
variable (blobs : Table GoString Bytes)

def blobData (h : HexText) : Bytes := (blobs[h.text]?).getD []

def snapshotPage (h : HexText) : ContextStore.ContextPage := ⟨h.text, (blobData blobs h).length⟩

def pageValue (h : HexText) : Value :=
  .obj [(lit "hash", .str h.text), (lit "bytes", .num (dec (blobData blobs h).length))]

def Layout.parts (id : GoString) (l : Layout) : List Part :=
  [⟨"context_id", .str id, quote id⟩,
    ⟨"prefix", .arr (l.pages.map (pageValue blobs)),
      array (l.pages.map fun h => ContextStore.pageText h (blobData blobs h))⟩] ++
  l.tail.toList.map fun h => ⟨"tail", pageValue blobs h, ContextStore.pageText h (blobData blobs h)⟩

def Layout.text (id : GoString) (l : Layout) : Bytes := object ((l.parts blobs id).map Part.member)

def Layout.snapshot (id : GoString) (l : Layout) : ContextStore.ContextSnapshot :=
  ⟨id, l.pages.map (snapshotPage blobs), l.tail.map (snapshotPage blobs)⟩

variable {blobs}

theorem reads_page (d : ℕ) (h : HexText) :
    Reads (d + 1) (pageValue blobs h) (ContextStore.pageText h (blobData blobs h)) := by
  have hparts : ∀ p ∈ [(⟨"hash", .str h.text, quote h.text⟩ : Part),
      ⟨"bytes", .num (dec (blobData blobs h).length), dec (blobData blobs h).length⟩],
      Reads d p.value p.text := by
    intro p hp
    rcases List.mem_pair.mp hp with rfl | rfl
    · exact reads_quote h.valid
    · exact reads_dec _
  exact reads_object (by simp) hparts

theorem reads_layout (d : ℕ) {id : GoString} (hid : valid id = true) (l : Layout) :
    Reads (d + 3) (.obj ((l.parts blobs id).map Part.field)) (l.text blobs id) := by
  refine reads_object (by simp [Layout.parts]) fun p hp => ?_
  rcases List.mem_append.mp hp with hp | hp
  · rcases List.mem_pair.mp hp with rfl | rfl
    · exact reads_quote hid
    · have hall : ReadsAll (d + 1) (l.pages.map fun h =>
          (pageValue blobs h, ContextStore.pageText h (blobData blobs h))) := by
        intro x hx
        obtain ⟨h, -, rfl⟩ := List.mem_map.mp hx
        exact reads_page d h
      simpa [Function.comp_def] using reads_array hall
  · obtain ⟨h, -, rfl⟩ := List.mem_map.mp hp
    exact reads_page (d + 1) h

theorem asInt64_dec {n : ℕ} (hn : n < 2 ^ 63) : asInt64 (.num (dec n)) = some (n : ℤ) := by
  obtain ⟨b, l, hb⟩ := List.exists_cons_of_ne_nil (dec_ne_nil n)
  have hne : b ≠ 0x2D := by
    rintro rfl
    exact dec_append_ne_minus n [] l (by simp [hb])
  have hall : (dec n).all isDigit = true := List.all_eq_true.mpr (isDigit_dec n)
  have hread : readDec (dec n) = n := readDec_decFrom (Nat.lt_succ_self n)
  unfold asInt64
  split
  next l' h =>
    rw [hb] at h
    cases h
    exact absurd rfl hne
  next h =>
    cases h
    rw [if_pos ⟨hall, by rw [hread]; exact hn⟩, hread]
  next _ h => exact absurd rfl (h _)

theorem asPage_pageValue (hlen : (blobData blobs h).length < 2 ^ 63) :
    ContextStore.asPage (pageValue blobs h) = some (snapshotPage blobs h) := by
  have hb : ¬ foldKey (lit "bytes") = foldKey (lit "hash") := by decide
  have hh : ¬ foldKey (lit "hash") = foldKey (lit "bytes") := by decide
  simp [ContextStore.asPage, pageValue, readMember, hb, hh, asString, asInt64_dec hlen, snapshotPage]

theorem mapM_some {α β : Type} {f : α → Option β} {g : α → β} {l : List α}
    (h : ∀ x ∈ l, f x = some (g x)) : l.mapM f = some (l.map g) := by
  induction l with
  | nil => rfl
  | cons x l ih =>
    rw [List.mapM_cons, h x List.mem_cons_self, ih fun y hy => h y (List.mem_cons_of_mem _ hy)]
    rfl

theorem asPages_pageValues {hs : List HexText} (hlen : ∀ h ∈ hs, (blobData blobs h).length < 2 ^ 63) :
    ContextStore.asPages (.arr (hs.map (pageValue blobs))) = some (hs.map (snapshotPage blobs)) := by
  have hmap := mapM_some (f := ContextStore.asPage ∘ pageValue blobs) (l := hs)
    fun h hh => asPage_pageValue (hlen h hh)
  rw [ContextStore.asPages, List.mapM_map]
  exact hmap

theorem readSnapshot_text {id : GoString} (hid : valid id = true) {l : Layout}
    (hlen : ∀ h ∈ l.refs, (blobData blobs h).length < 2 ^ 63) :
    ContextStore.readSnapshot (l.text blobs id) = some (l.snapshot blobs id) := by
  have hparse : parse (l.text blobs id) = some (.obj ((l.parts blobs id).map Part.field)) :=
    (reads_layout 9997 hid l).parse_eq
  have hpages := asPages_pageValues fun h hh => hlen h (List.mem_append_left _ hh)
  have h₁ : ¬ foldKey (lit "context_id") = foldKey (lit "prefix") := by decide
  have h₂ : ¬ foldKey (lit "context_id") = foldKey (lit "tail") := by decide
  have h₃ : ¬ foldKey (lit "prefix") = foldKey (lit "tail") := by decide
  cases htail : l.tail with
  | none =>
    simp [ContextStore.readSnapshot, readField, hparse, Layout.parts, Part.field, htail, readMember,
      h₁, h₂, h₃, Ne.symm h₁, asString, hpages, Layout.snapshot]
  | some h =>
    have htailpage := asPage_pageValue (hlen h (List.mem_append_right _ (by simp [htail])))
    simp [ContextStore.readSnapshot, readField, hparse, Layout.parts, Part.field, htail, readMember,
      h₁, h₂, h₃, Ne.symm h₁, Ne.symm h₂, Ne.symm h₃, asString, hpages, Layout.snapshot]
    simp only [pageValue] at htailpage ⊢
    simp [htailpage]

end Text

namespace ContextStore

variable {sha256 : Bytes → Digest} {D : Set Bytes} {s t u : ContextStore} {id : GoString} {l : Layout}
  {r : HexText}

theorem mapM_ok {α β ε : Type} {f : α → Except ε β} {g : α → β} {xs : List α}
    (h : ∀ x ∈ xs, f x = .ok (g x)) : xs.mapM f = .ok (xs.map g) := by
  induction xs with
  | nil => rfl
  | cons x xs ih =>
    rw [List.mapM_cons, h x List.mem_cons_self, ih fun y hy => h y (List.mem_cons_of_mem _ hy)]
    rfl

theorem Intact.get_stored (hs : Intact sha256 D s) (hh : (s.blobs[h.text]?).isSome) :
    s.blobs[h.text]? = some (blobData s.blobs h) ∧
      (sha256 (blobData s.blobs h)).toHexText = h ∧ blobData s.blobs h ∈ D := by
  obtain ⟨d, hd⟩ := Option.isSome_iff_exists.mp hh
  have hdata : blobData s.blobs h = d := by simp [blobData, hd]
  rw [hdata]
  exact ⟨hd, HexText.ext_text (hs.blobs.address_eq _ d hd), hs.blobs.mem _ d hd⟩

theorem Intact.blob_stored (hs : Intact sha256 D s) (hh : (s.blobs[h.text]?).isSome) :
    s.blob sha256 h = .ok (blobData s.blobs h) := by
  obtain ⟨hget, hhash, -⟩ := hs.get_stored hh
  simp [blob, hget, hhash]

theorem Intact.blob_eq (hs : Intact sha256 D s) (hl : s.layout id = some l)
    (hh : h ∈ l.refs) : s.blob sha256 h = .ok (blobData s.blobs h) :=
  hs.blob_stored ((hs.refs id l hl).2 h hh)

theorem Intact.snapshotText_eq (hs : Intact sha256 D s) (hl : s.layout id = some l) :
    s.snapshotText sha256 id = .ok (l.text s.blobs id) := by
  have hpages : (s.pagesOf id).mapM (fun hash => do
      let data ← s.blob sha256 hash
      pure (pageText hash data)) =
      Except.ok (l.pages.map fun h => pageText h (blobData s.blobs h)) := by
    rw [pagesOf_of_layout hl]
    refine mapM_ok fun h hh => ?_
    rw [hs.blob_eq hl (List.mem_append_left _ hh)]
    rfl
  unfold snapshotText
  rw [hpages, tailOf_of_layout hl]
  cases ht : l.tail with
  | none => simp [Layout.text, Layout.parts, ht, Part.member, bind, Except.bind, pure, Except.pure]
  | some h =>
    have hb := hs.blob_eq hl (List.mem_append_right _ (show h ∈ l.tail.toList by simp [ht]))
    simp [Layout.text, Layout.parts, ht, Part.member, bind, Except.bind, pure, Except.pure, hb]

/-! ## Restoring -/

theorem mutate_first {kind : OperationKind} {input : Bytes}
    {fn : ContextStore → Except Err (HexText × ContextStore)} {row : ContextRow}
    (hkey : key ≠ [] ∧ key.length ≤ 1024) (hrow : s.contexts[id]? = some row)
    (hown : row.owner = owner ∧ owner ≠ [])
    (hnew : ¬ ∃ o ∈ s.operations, o.contextID = id ∧ o.key = key) (hfn : fn s = .ok (r, u)) :
    ∃ t, mutate sha256 owner id key kind input fn s = .ok (r, t) ∧
      t.layout = u.layout ∧ t.blobs = u.blobs := by
  have hauth : authorize s owner id = .ok () := by simp [authorize, hrow, hown]
  have hfind : s.operations.find? (fun o => o.contextID = id ∧ o.key = key) = none := by
    rw [List.find?_eq_none]
    intro o ho
    simpa using fun hid hk => hnew ⟨o, ho, hid, hk⟩
  have hbound : ¬ (key = [] ∨ 1024 < key.length) := by
    rintro (h | h)
    · exact hkey.1 h
    · omega
  refine ⟨{ u with
    operations := u.operations ++
      [⟨id, key, (sha256 (digestText kind input)).toHexText, r⟩]
    commits := u.commits ++ [⟨u.commits.length + 1, id, kind, r, key⟩] }, ?_, rfl, rfl⟩
  unfold mutate
  rw [if_neg hbound, hauth]
  simp only [bind, Except.bind, hfind, hfn]
  rfl

structure HasCheckpoint (sha256 : Bytes → Digest) (id : GoString) (h : HexText) (data : Bytes)
    (s : ContextStore) : Prop where
  granted : (id, h, .checkpoint) ∈ s.grants
  stored : s.blobs[h.text]? = some data
  hash : (sha256 data).toHexText = h

theorem HasCheckpoint.kept {data : Bytes} (hc : HasCheckpoint sha256 id h data s)
    (hk : Kept sha256 D s t) : HasCheckpoint sha256 id h data t :=
  ⟨hk.grants hc.granted, hk.blobs _ _ hc.stored, hc.hash⟩

theorem HasCheckpoint.blob {data : Bytes} (hc : HasCheckpoint sha256 id h data s) :
    s.blob sha256 h = .ok data := by
  simp [ContextStore.blob, hc.stored, hc.hash]

theorem HasCheckpoint.find {data : Bytes} (hc : HasCheckpoint sha256 id h data s) :
    ∃ g, s.grants.find? (fun g => g.1 = id ∧ g.2.1.text = h.text ∧ g.2.2 = .checkpoint) = some g ∧
      g.2.1 = h := by
  cases hg : s.grants.find? (fun g => g.1 = id ∧ g.2.1.text = h.text ∧ g.2.2 = .checkpoint) with
  | none =>
    have := List.find?_eq_none.mp hg _ hc.granted
    simp at this
  | some g =>
    have hp := List.find?_some hg
    simp only [decide_eq_true_eq] at hp
    exact ⟨g, rfl, HexText.ext_text hp.2.1⟩

theorem checkpoint_first (hs : Intact sha256 D s) (hD : Set.InjOn sha256 D)
    (hd : ∀ d ∈ (ContextCall.checkpoint owner id key).hashed sha256 s, d ∈ D)
    (hnew : ¬ (ContextCall.checkpoint owner id key).IsReplay s)
    (h : checkpoint sha256 owner id key s = .ok (r, t)) :
    ∃ l, s.layout id = some l ∧ l.owner = owner ∧ owner ≠ [] ∧
      HasCheckpoint sha256 id r (l.text s.blobs id) t := by
  obtain ⟨-, -, o, -, hro, -, ⟨row, hrow, hown, hne⟩, ⟨rfl, ho⟩ | ⟨-, u, hu, rfl⟩⟩ :=
    exec_keyed (c := .checkpoint owner id key) rfl h
  · obtain ⟨-, -, hos, -⟩ := row_eq_some hro
    exact absurd ⟨o, ho, hos⟩ hnew
  obtain ⟨l, hl, hlown⟩ : ∃ l, s.layout id = some l ∧ l.owner = owner :=
    ⟨_, layout_of_row hrow, hown⟩
  refine ⟨l, hl, hlown, hne, ?_⟩
  have htext := hs.snapshotText_eq hl
  cases hu with
  | @checkpoint _ _ _ _ _ v hdata hv =>
    cases htext.symm.trans hdata
    have hmem : l.text s.blobs id ∈ D := hd _ (by rw [hashed, htext]; simp)
    have hget := putBlob_get hs hD hmem hv
    obtain ⟨hhash, -⟩ := putBlob_eq_ok hv
    have hblobs : (v.grant id r .checkpoint).blobs = v.blobs := by unfold grant; split_ifs <;> rfl
    have hgrant : (id, r, .checkpoint) ∈ (v.grant id r .checkpoint).grants := by
      unfold grant
      split_ifs with hc
      · simpa using hc
      · simp
    exact ⟨hgrant, hblobs ▸ hget, hhash.symm⟩

theorem mutate_congr {kind : OperationKind} {input : Bytes}
    {fn fn' : ContextStore → Except Err (HexText × ContextStore)}
    (h : ∀ l, s.layout id = some l → fn s = fn' s) :
    mutate sha256 owner id key kind input fn s = mutate sha256 owner id key kind input fn' s := by
  unfold mutate authorize
  cases hrow : s.contexts[id]? with
  | none => rfl
  | some row => rw [h ⟨row.owner, s.pagesOf id, row.tail⟩ (by rw [layout, hrow]; rfl)]

/-- The blobs that a snapshot names are stored, with the data that another table has. -/
def Backs (blobs : Table GoString Bytes) (sha256 : Bytes → Digest) (t : ContextStore) (l : Layout) :
    Prop :=
  ∀ h ∈ l.refs, t.blobs[h.text]? = some (blobData blobs h) ∧
    (sha256 (blobData blobs h)).toHexText = h ∧ (blobData blobs h).length < 2 ^ 63

theorem restore_eq {blobs : Table GoString Bytes} (hv : valid id = true)
    (hc : HasCheckpoint sha256 id h (l.text blobs id) t) (hb : Backs blobs sha256 t l)
    (owner key : GoString) :
    restore sha256 owner id key h.text t = mutate sha256 owner id key .restore h.text (fun _ =>
      .ok (h, { t with pages := t.pages.insert id l.pages }.setTail id l.tail)) t := by
  have hread : readSnapshot (l.text blobs id) = some (l.snapshot blobs id) :=
    readSnapshot_text hv fun x hx => (hb x hx).2.2
  have hcheck : ∀ x ∈ l.refs, t.checkPage sha256 (snapshotPage blobs x) = .ok x := fun x hx => by
    obtain ⟨hget, hhash, -⟩ := hb x hx
    simp [checkPage, snapshotPage, hget, hhash]
  have hpages : (l.snapshot blobs id).sealed.mapM (t.checkPage sha256) = .ok l.pages := by
    have hmap : l.pages.mapM (t.checkPage sha256 ∘ snapshotPage blobs) = .ok (l.pages.map fun x => x) :=
      mapM_ok fun x hx => hcheck x (List.mem_append_left _ hx)
    rw [List.map_id'] at hmap
    rw [Layout.snapshot, List.mapM_map]
    exact hmap
  obtain ⟨g, hg, hgh⟩ := hc.find
  refine mutate_congr fun _ _ => ?_
  simp only [hg, hgh, hc.blob, bind, Except.bind, hread]
  rw [if_neg (by simp [Layout.snapshot]), hpages]
  cases ht : l.tail with
  | none => simp [Layout.snapshot, ht, pure, Except.pure]
  | some x =>
    have hx := hcheck x (List.mem_append_right _ (by simp [ht]))
    simp [Layout.snapshot, ht, hx, pure, Except.pure, Functor.map, Except.map]

theorem Intact.backs (hs : Intact sha256 D s) (hrefs : ∀ x ∈ l.refs, (s.blobs[x.text]?).isSome)
    (hlen : ∀ d ∈ D, d.length < 2 ^ 63) (hb : s.blobs.Extends t.blobs) :
    Backs s.blobs sha256 t l := fun h hh => by
  obtain ⟨hget, hhash, hmem⟩ := hs.get_stored (hrefs h hh)
  exact ⟨hb _ _ hget, hhash, hlen _ hmem⟩

theorem restore_first (hs : Intact sha256 D s) (hl : s.layout id = some l)
    (hlen : ∀ d ∈ D, d.length < 2 ^ 63) (hk : Kept sha256 D s t)
    (hc : HasCheckpoint sha256 id h (l.text s.blobs id) t)
    (hkey : key ≠ [] ∧ key.length ≤ 1024) (hown : l.owner ≠ [])
    (hnew : ¬ (ContextCall.restore l.owner id key h.text).IsReplay t) :
    ∃ u, restore sha256 l.owner id key h.text t = .ok (h, u) ∧ u.layout id = some l ∧
      u.contents id = s.contents id := by
  obtain ⟨l', hl', ho⟩ := hk.owners hl
  obtain ⟨row, hrow, hrowl⟩ := Option.map_eq_some_iff.mp hl'
  have hrowner : row.owner = l.owner := by rw [← ho, ← hrowl]
  have hnew' : ¬ ∃ o ∈ t.operations, o.contextID = id ∧ o.key = key := fun ⟨o, ho, hid, hkey⟩ =>
    hnew ⟨o, ho, by rw [slot, hid, hkey]⟩
  obtain ⟨hv, hrefs⟩ := hs.refs id l hl
  rw [restore_eq hv hc (hs.backs hrefs hlen hk.blobs)]
  have hfirst : ∀ v : ContextStore, ∃ u, mutate sha256 l.owner id key .restore h.text
      (fun _ => .ok (h, v)) t = .ok (h, u) ∧ u.layout = v.layout ∧ u.blobs = v.blobs :=
    fun v => mutate_first hkey hrow ⟨hrowner, hown⟩ hnew' rfl
  obtain ⟨u, hu, hul, hub⟩ :=
    hfirst ({ t with pages := t.pages.insert id l.pages }.setTail id l.tail)
  have hlay : u.layout id = some l := by
    rw [hul, layout_setTail, Function.update_self, layout_setPages, Function.update_self, hl']
    simp [ho]
  refine ⟨u, hu, hlay, ?_⟩
  have hblobs : u.blobs = t.blobs := by
    rw [hub]
    unfold setTail
    split <;> rfl
  exact contents_eq hs (hblobs ▸ hk.blobs) (hlay.trans hl.symm)

/-! ## Handles -/

def TookCheckpoint (l : List (ContextCall × HexText)) (id handle : GoString) : Prop :=
  ∃ owner key h, (ContextCall.checkpoint owner id key, h) ∈ l ∧ h.text = handle

theorem TookCheckpoint.append {calls : List (ContextCall × HexText)} {handle : GoString}
    (h : TookCheckpoint calls id handle) (calls' : List (ContextCall × HexText)) :
    TookCheckpoint (calls ++ calls') id handle := by
  obtain ⟨owner, key, h, hmem, ht⟩ := h
  exact ⟨owner, key, h, List.mem_append_left _ hmem, ht⟩

/-- Grants and restores go back to checkpoints of their contexts. -/
structure Granted (calls : List (ContextCall × HexText)) (s : ContextStore) : Prop where
  grants : ∀ id h, (id, h, .checkpoint) ∈ s.grants → TookCheckpoint calls id h.text
  restores : ∀ owner id key handle r, (ContextCall.restore owner id key handle, r) ∈ calls →
    TookCheckpoint calls id handle

theorem restore_took {calls : List (ContextCall × HexText)} (hD : Set.InjOn sha256 D)
    (hb : Bound sha256 D calls s) (hg : Granted calls s) {handle : GoString}
    (hd : digestText .restore handle ∈ D)
    (h : restore sha256 owner id key handle s = .ok (r, t)) : TookCheckpoint calls id handle := by
  obtain ⟨-, -, ⟨-, o, ho, hid, hkey, -, hdigest⟩ | ⟨-, u, hu, -⟩⟩ := mutate_eq_ok h
  · obtain ⟨⟨c, r'⟩, hx, hrow⟩ := hb.calls o ho
    obtain ⟨kind, input, hslot, hinput, hrow, -⟩ := row_eq_some hrow
    have htext := hD (hb.texts _ hx kind input hinput) hd
      (Digest.ext_text (congrArg HexText.text (hrow.symm.trans hdigest)))
    obtain ⟨rfl, rfl⟩ := digestText_inj htext
    cases c with
    | restore owner' i k handle =>
      cases hslot
      cases hinput
      exact hid ▸ hg.restores _ _ _ _ _ hx
    | _ => cases hinput
  · dsimp only at hu
    split at hu
    · cases hu
    next g hfind =>
      have hp := List.find?_some hfind
      simp only [decide_eq_true_eq] at hp
      obtain ⟨i, handle', kind⟩ := g
      obtain ⟨rfl, rfl, rfl⟩ := hp
      exact hg.grants i handle' (List.mem_of_find?_eq_some hfind)

theorem Granted.step {calls : List (ContextCall × HexText)} {c : ContextCall}
    (hg : Granted calls s) (hD : Set.InjOn sha256 D) (hb : Bound sha256 D calls s)
    (hd : ∀ d ∈ c.hashed sha256 s, d ∈ D) (h : c.exec sha256 s = .ok (r, t)) :
    Granted (calls ++ [(c, r)]) t := by
  refine ⟨fun i handle hmem => ?_, fun owner i key handle r' hmem => ?_⟩
  · cases hslot : c.slot with
    | none =>
      obtain ⟨-, hgrants, -⟩ := (exec_unkeyed hslot h).unkeyed hslot
      exact (hg.grants i handle (hgrants ▸ hmem)).append _
    | some x =>
      obtain ⟨id, key⟩ := x
      obtain ⟨kind, input, o, hinput, -, -, -, ⟨rfl, -⟩ | ⟨-, u, hu, rfl⟩⟩ := exec_keyed hslot h
      · exact (hg.grants i handle hmem).append _
      rcases (hu.touches hslot hinput).mem_grants hmem with hold | ⟨hnew, -⟩
      · exact (hg.grants i handle hold).append _
      cases hnew
      cases c with
      | checkpoint owner j k =>
        cases hslot
        exact ⟨owner, key, r, by simp, rfl⟩
      | _ => cases hinput
  · rcases List.mem_append.mp hmem with hmem | hmem
    · exact (hg.restores _ _ _ _ _ hmem).append _
    · cases List.mem_singleton.mp hmem
      exact (restore_took hD hb hg (hd _ (by simp [hashed])) h).append _

theorem Granted.trace {calls calls' : List (ContextCall × HexText)} (hg : Granted calls s)
    (hb : Bound sha256 D calls s) (hs : Intact sha256 D s) (hD : Set.InjOn sha256 D)
    (h : ContextTrace sha256 D s calls' t) : Granted (calls ++ calls') t := by
  induction h generalizing calls with
  | nil s => simpa using hg
  | cons hd hexec _ ih =>
    have hk := (exec_acts hs hD hd hexec).1
    simpa using ih (hg.step hD hb hd hexec) (hb.step hk hd hexec) hk.intact

end ContextStore

section Restore
open ContextStore
variable {sha256 : Bytes → Digest} {D : Set Bytes} {s : ContextStore}
  {calls : List (ContextCall × HexText)}

/-- After any calls that follow a checkpoint, its context is restored to the pages, the tail and
the content that the checkpoint saw. A handle that no checkpoint of the context returned is
refused. -/
theorem restore_checkpoint (hD : Set.InjOn sha256 D) (hlen : ∀ d ∈ D, d.length < 2 ^ 63)
    (hs : ContextTrace sha256 D .empty calls s) :
    (∀ owner id key h t calls' u key', (∀ d ∈ (ContextCall.checkpoint owner id key).hashed sha256 s, d ∈ D) →
      ¬ (ContextCall.checkpoint owner id key).IsReplay s →
      checkpoint sha256 owner id key s = .ok (h, t) → ContextTrace sha256 D t calls' u →
      key' ≠ [] ∧ key'.length ≤ 1024 → ¬ (ContextCall.restore owner id key' h.text).IsReplay u →
      ∃ v, restore sha256 owner id key' h.text u = .ok (h, v) ∧ v.layout id = s.layout id ∧
        v.contents id = s.contents id) ∧
    ∀ owner id key handle, digestText .restore handle ∈ D →
      ¬ TookCheckpoint calls id handle → ∃ e, restore sha256 owner id key handle s = .error e := by
  have hk := hs.kept intact_empty hD
  refine ⟨fun owner id key h t calls' u key' hd hnew hc ht hkey hnew' => ?_,
    fun owner id key handle hd hno => ?_⟩
  · obtain ⟨l, hl, rfl, hne, hhas⟩ := checkpoint_first hk.intact hD hd hnew hc
    have hkt := (exec_acts hk.intact hD hd hc).1
    have hku := ht.kept hkt.intact hD
    obtain ⟨v, hv, hlay, hcont⟩ :=
      restore_first hk.intact hl hlen (hkt.trans hku) (hhas.kept hku) hkey hne hnew'
    exact ⟨v, hv, hlay.trans hl.symm, hcont⟩
  · have hb : Bound sha256 D calls s := by simpa using bound_empty.trace intact_empty hD hs
    have hg : Granted calls s := by
      have hempty : Granted [] empty := ⟨by simp [empty], by simp⟩
      simpa using hempty.trace bound_empty intact_empty hD hs
    cases hr : restore sha256 owner id key handle s with
    | error e => exact ⟨e, rfl⟩
    | ok x => exact absurd (restore_took hD hb hg hd hr) hno

end Restore

namespace Sample

def written : List ContextCall :=
  [.create parent (lit "o") [1], .append (lit "o") parent.text (lit "a") [2]]

def save : ContextCall := .checkpoint (lit "o") parent.text (lit "c")

def later : List ContextCall :=
  [.append (lit "o") parent.text (lit "b") [3],
    .forkTo child (lit "o") parent.text (lit "p") (lit "f")]

end Sample

open Sample

open ContextStore in
set_option synthInstance.maxSize 1024 in
/-- A context that was appended to and forked goes back to its checkpoint. -/
theorem restore_checkpoint_later : ∃ (s t u v : ContextStore) (h : HexText),
    checkpoint digest (lit "o") parent.text (lit "c") s = .ok (h, t) ∧
    s.contents parent.text = some [1, 2] ∧ u.contents parent.text = some [1, 2, 3] ∧
    restore digest (lit "o") parent.text (lit "r") h.text u = .ok (h, v) ∧
    v.contents parent.text = s.contents parent.text ∧
    ∃ e, restore digest (lit "o") parent.text (lit "r") (lit "x") s = .error e := by
  have hrun : ∃ x ∈ runCalls digest .empty written,
      ∃ y ∈ (save.exec digest x.2.2).toOption,
      ∃ z ∈ runCalls digest y.2 later,
        Distinct (digestText .restore (lit "x") ::
          (x.2.1 ++ (save.hashed digest x.2.2 ++ z.2.1))) ∧
        (∀ d ∈ digestText .restore (lit "x") ::
          (x.2.1 ++ (save.hashed digest x.2.2 ++ z.2.1)), d.length < 2 ^ 63) ∧
        (∀ o ∈ x.2.2.operations, o.key ≠ lit "c") ∧ (∀ o ∈ z.2.2.operations, o.key ≠ lit "r") ∧
        (∀ c ∈ x.1, c.2.text ≠ lit "x") ∧
        x.2.2.contents parent.text = some [1, 2] ∧
        z.2.2.contents parent.text = some [1, 2, 3] := by
    decide +kernel
  obtain ⟨⟨l, ds, s⟩, hs, ⟨h, t⟩, ht, ⟨l', ds', u⟩, hu, hD, hlen, hnew, hnew', hx, hcs, hcu⟩ := hrun
  have hsave := ok_of_toOption ht
  have htrace := trace_of_runCalls (D := {d | d ∈ digestText .restore (lit "x") ::
    (ds ++ (save.hashed digest s ++ ds'))}) hs fun d hd => by simp [hd]
  have hall := restore_checkpoint hD.injOn hlen htrace
  obtain ⟨v, hv, -, hc⟩ := hall.1 (lit "o") parent.text (lit "c") h t l' u (lit "r")
    (fun d hd => List.mem_cons_of_mem _ (List.mem_append_right _ (List.mem_append_left _ hd)))
    (fun ⟨o, ho, hslot⟩ => hnew o ho (congrArg Prod.snd (Option.some.inj hslot)).symm) hsave
    (trace_of_runCalls hu fun d hd => by simp [hd]) (by decide)
    (fun ⟨o, ho, hslot⟩ => hnew' o ho (congrArg Prod.snd (Option.some.inj hslot)).symm)
  exact ⟨s, t, u, v, h, hsave, hcs, hcu, hv, hc, hall.2 _ _ _ _ (by simp)
    fun ⟨owner, key, h, hmem, htext⟩ => hx _ hmem htext⟩

end Aok.Runtime
