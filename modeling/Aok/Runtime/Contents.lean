import Aok.Runtime.ContextCalls

/-!
# The contents of contexts

A context is kept as a list of sealed pages and a tail, all of them names of blobs that
contexts share. Its content is what the pages and the tail say in order. Over the runs of
the store the blobs only grow, so that a call changes the content of the one context it
names, whatever the representation does underneath.
-/

namespace Aok.Runtime
open Lib Lib.Utf8 Lib.JsonText Lib.JsonValue Lib.Command Function List Option

variable {hash : HexText} {data : Bytes} {owner key : GoString}

/-! ## Layouts -/

structure Layout where
  owner : GoString
  pages : List HexText
  tail : Option HexText

def Layout.refs (l : Layout) : List HexText := l.pages ++ l.tail.toList

def Layout.content (blobs : Table GoString Bytes) (l : Layout) : Bytes :=
  l.refs.flatMap fun h => (blobs[h.text]?).getD []

namespace ContextStore

def layout (s : ContextStore) (id : GoString) : Option Layout :=
  (s.contexts[id]?).map fun row => ⟨row.owner, s.pagesOf id, row.tail⟩

def contents (s : ContextStore) (id : GoString) : Option Bytes :=
  (s.layout id).map (Layout.content s.blobs)

end ContextStore

namespace ContextCall

def IsReplay (s : ContextStore) (c : ContextCall) : Prop :=
  ∃ o ∈ s.operations, c.slot = some (o.contextID, o.key)

/-- The byte strings a call hashes: what it stores and what is bound to its key. -/
def hashed (sha256 : Bytes → Digest) (s : ContextStore) : ContextCall → List Bytes
  | .create _ _ sealed => if sealed = [] then [] else [sealed]
  | .append _ id _ data => [digestText .append data, s.tailData id ++ data]
  | .forkTo .. => [digestText .fork []]
  | .checkpoint _ id _ =>
    digestText .checkpoint [] :: (match s.snapshotText sha256 id with
      | .ok data => [data]
      | .error _ => [])
  | .restore _ _ _ handle => [digestText .restore handle]
  | .commitArtifact _ _ _ data => [digestText .artifact data, data]

end ContextCall

/-- The calls that succeeded from one store to another, with their results. All byte strings they
hash are in `D`. A call that fails leaves the store as it is. -/
inductive ContextTrace (sha256 : Bytes → Digest) (D : Set Bytes) :
    ContextStore → List (ContextCall × HexText) → ContextStore → Prop where
  | nil (s : ContextStore) : ContextTrace sha256 D s [] s
  | cons {s t u : ContextStore} {c : ContextCall} {r : HexText} {l : List (ContextCall × HexText)} :
    (∀ d ∈ c.hashed sha256 s, d ∈ D) → c.exec sha256 s = .ok (r, t) →
    ContextTrace sha256 D t l u → ContextTrace sha256 D s ((c, r) :: l) u

namespace ContextStore

/-! ## Parts of the store -/

variable {sha256 : Bytes → Digest} {D : Set Bytes} {s t u : ContextStore} {id : GoString}

theorem layout_setTail (id : GoString) (tail : Option HexText) (s : ContextStore) :
    (s.setTail id tail).layout = update s.layout id
      ((s.layout id).map fun l => { l with tail }) := by
  funext i
  unfold setTail
  cases hrow : s.contexts[id]? with
  | none =>
    by_cases hi : i = id
    · subst hi
      simp [layout, hrow]
    · simp [layout, update_of_ne hi]
  | some row =>
    by_cases hi : i = id
    · subst hi
      simp [layout, hrow, pagesOf]
    · simp [layout, update_of_ne hi, pagesOf, Table.get_insert_ne _ _ (Ne.symm hi)]

theorem layout_setPages (id : GoString) (pages : List HexText) (s : ContextStore) :
    { s with pages := s.pages.insert id pages }.layout = update s.layout id
      ((s.layout id).map fun l => { l with pages }) := by
  funext i
  by_cases hi : i = id
  · subst hi
    simp [layout, pagesOf, comp_def]
  · simp [layout, update_of_ne hi, pagesOf, Table.get_insert_ne _ _ (Ne.symm hi)]

theorem layout_grant (id : GoString) (hash : HexText) (kind : OperationKind) (s : ContextStore) :
    (s.grant id hash kind).layout = s.layout := by
  unfold grant
  split_ifs <;> rfl

theorem Digest.ext_text {a b : Digest} (h : a.text = b.text) : a = b := by
  obtain ⟨⟨a, _⟩, _⟩ := a
  obtain ⟨⟨b, _⟩, _⟩ := b
  cases h
  rfl

theorem HexText.ext_text {a b : HexText} (h : a.text = b.text) : a = b := by
  obtain ⟨a, _⟩ := a
  obtain ⟨b, _⟩ := b
  cases h
  rfl

theorem injOn_text (hD : Set.InjOn sha256 D) : Set.InjOn (fun d => (sha256 d).text) D :=
  fun _ hx _ hy h => hD hx hy (Digest.ext_text h)

/-- The blobs lie under their hashes, and what a context names is there. -/
structure Intact (sha256 : Bytes → Digest) (D : Set Bytes) (s : ContextStore) : Prop where
  blobs : s.blobs.Addressed (fun d => (sha256 d).text) D
  refs : ∀ id l, s.layout id = some l →
    valid id = true ∧ ∀ h ∈ l.refs, (s.blobs[h.text]?).isSome
  orphans : ∀ id, s.contexts[id]? = none → s.pagesOf id = []

theorem intact_empty : Intact sha256 D empty := by
  refine ⟨⟨?_, ?_⟩, ?_, ?_⟩ <;> simp [empty, layout, pagesOf]

/-! ## What calls keep -/

theorem get_ref (hs : Intact sha256 D s) (hb : s.blobs.Extends t.blobs) {l : Layout}
    (hl : s.layout id = some l) {h : HexText} (hh : h ∈ l.refs) :
    t.blobs[h.text]? = s.blobs[h.text]? := by
  obtain ⟨d, hd⟩ := isSome_iff_exists.mp ((hs.refs id l hl).2 h hh)
  rw [hd, hb _ d hd]

theorem contents_eq (hs : Intact sha256 D s) (hb : s.blobs.Extends t.blobs)
    (h : t.layout id = s.layout id) : t.contents id = s.contents id := by
  unfold contents
  rw [h]
  cases hl : s.layout id with
  | none => rfl
  | some l =>
    exact congrArg some (flatMap_congr fun x hx => by rw [get_ref hs hb hl hx])

theorem Intact.step (hs : Intact sha256 D s) (haddr : t.blobs.Addressed (fun d => (sha256 d).text) D)
    (hb : s.blobs.Extends t.blobs)
    (hl : ∀ id l, t.layout id = some l → s.layout id = some l ∨
      valid id = true ∧ ∀ h ∈ l.refs, (t.blobs[h.text]?).isSome)
    (ho : ∀ id, t.contexts[id]? = none → s.contexts[id]? = none ∧ t.pagesOf id = s.pagesOf id) :
    Intact sha256 D t := by
  refine ⟨haddr, fun id l h => ?_, fun id h => (ho id h).2.trans (hs.orphans id (ho id h).1)⟩
  rcases hl id l h with hold | hnew
  · obtain ⟨hv, hrefs⟩ := hs.refs id l hold
    refine ⟨hv, fun x hx => ?_⟩
    obtain ⟨d, hd⟩ := isSome_iff_exists.mp (hrefs x hx)
    simp [hb _ d hd]
  · exact hnew

structure Kept (sha256 : Bytes → Digest) (D : Set Bytes) (s t : ContextStore) : Prop where
  intact : Intact sha256 D t
  blobs : s.blobs.Extends t.blobs
  grants : s.grants ⊆ t.grants
  grows : Grows s t

theorem kept_refl (hs : Intact sha256 D s) : Kept sha256 D s s :=
  ⟨hs, .refl _, List.Subset.refl _, .refl _⟩

theorem putBlob_kept (hs : Intact sha256 D s) (hd : data ∈ D)
    (h : putBlob sha256 data s = .ok (hash, t)) : Kept sha256 D s t := by
  obtain ⟨-, rfl⟩ := putBlob_eq_ok h
  have hext := Table.extends_insertNew s.blobs (sha256 data).text data
  exact ⟨hs.step (hs.blobs.insertNew hd) hext (fun _ _ hl => .inl hl) fun _ h => ⟨h, rfl⟩, hext,
    List.Subset.refl _, .of_contexts rfl⟩

theorem putBlob_get (hs : Intact sha256 D s) (hD : Set.InjOn sha256 D)
    (hd : data ∈ D) (h : putBlob sha256 data s = .ok (hash, t)) :
    t.blobs[hash.text]? = some data := by
  obtain ⟨rfl, rfl⟩ := putBlob_eq_ok h
  exact hs.blobs.get_insertNew (injOn_text hD) hd

theorem putBlob_layout (h : putBlob sha256 data s = .ok (hash, t)) :
    t.layout = s.layout := by
  obtain ⟨-, rfl⟩ := putBlob_eq_ok h
  rfl

theorem kept_relayout (hs : Intact sha256 D s) {f : Layout → Layout} (hblobs : t.blobs = s.blobs)
    (hgrants : t.grants = s.grants) (hgrows : Grows s t)
    (hl : t.layout = update s.layout id ((s.layout id).map f))
    (hf : ∀ l, s.layout id = some l → ∀ h ∈ (f l).refs, (s.blobs[h.text]?).isSome)
    (ho : ∀ i, t.contexts[i]? = none → s.contexts[i]? = none ∧ t.pagesOf i = s.pagesOf i) :
    Kept sha256 D s t := by
  refine ⟨hs.step (hblobs ▸ hs.blobs) (hblobs ▸ .refl _) (fun i l hi => ?_) ho, hblobs ▸ .refl _,
    hgrants ▸ List.Subset.refl _, hgrows⟩
  rw [hl] at hi
  by_cases hid : i = id
  · subst hid
    rw [update_self, map_eq_some_iff] at hi
    obtain ⟨l₀, hl₀, rfl⟩ := hi
    exact .inr ⟨(hs.refs i l₀ hl₀).1, hblobs ▸ hf l₀ hl₀⟩
  · exact .inl (by rwa [update_of_ne hid] at hi)

theorem setTail_kept (hs : Intact sha256 D s) (id : GoString) (tail : Option HexText)
    (ht : ∀ h ∈ tail, (s.blobs[h.text]?).isSome) : Kept sha256 D s (s.setTail id tail) := by
  have hpages : (s.setTail id tail).pages = s.pages := by unfold setTail; split <;> rfl
  refine kept_relayout hs (by unfold setTail; split <;> rfl) (by unfold setTail; split <;> rfl)
    (setTail_grows id tail s) (layout_setTail id tail s) (fun l hl x hx => ?_) fun i hi => ?_
  · rcases mem_append.mp hx with hx | hx
    · exact (hs.refs id l hl).2 x (mem_append_left _ hx)
    · exact ht x (by simpa using hx)
  · refine ⟨?_, by simp only [pagesOf, hpages]⟩
    unfold setTail at hi
    split at hi
    · by_cases hid : id = i
      · subst hid
        simp at hi
      · simpa [Table.get_insert_ne _ _ hid] using hi
    · exact hi

theorem setPages_kept (hs : Intact sha256 D s) (hc : (s.contexts[id]?).isSome)
    (pages : List HexText) (hp : ∀ h ∈ pages, (s.blobs[h.text]?).isSome) :
    Kept sha256 D s { s with pages := s.pages.insert id pages } := by
  refine kept_relayout hs rfl rfl (.of_contexts rfl) (layout_setPages id pages s)
    (fun l hl x hx => ?_) fun i hi => ⟨hi, ?_⟩
  · rcases mem_append.mp hx with hx | hx
    · exact hp x hx
    · exact (hs.refs id l hl).2 x (mem_append_right _ hx)
  · have hid : id ≠ i := by
      rintro rfl
      simp [show s.contexts[id]? = none from hi] at hc
    simp [pagesOf, Table.get_insert_ne _ _ hid]

theorem insertContext_layout (hs : Intact sha256 D s) {i : HexText}
    (h : insertContext i owner s = .ok t) :
    s.layout i.text = none ∧ t.layout = update s.layout i.text (some ⟨owner, [], none⟩) := by
  obtain ⟨hnew, rfl⟩ := insertContext_eq_ok h
  have hpages := hs.orphans _ hnew
  refine ⟨by simp [layout, hnew], ?_⟩
  funext j
  by_cases hj : j = i.text
  · subst hj
    simpa [layout, pagesOf] using hpages
  · simp [layout, update_of_ne hj, pagesOf, Table.get_insert_ne _ _ (Ne.symm hj)]

theorem insertContext_kept (hs : Intact sha256 D s) {i : HexText}
    (h : insertContext i owner s = .ok t) : Kept sha256 D s t := by
  obtain ⟨-, hl⟩ := insertContext_layout hs h
  have hgrows := insertContext_grows h
  obtain ⟨hnew, rfl⟩ := insertContext_eq_ok h
  refine ⟨hs.step hs.blobs (.refl _) (fun j l hj => ?_) fun j hj => ⟨?_, rfl⟩, .refl _,
    List.Subset.refl _, hgrows⟩
  · rw [hl] at hj
    by_cases hji : j = i.text
    · subst hji
      rw [update_self] at hj
      cases hj
      exact .inr ⟨i.valid, by simp [Layout.refs]⟩
    · exact .inl (by rwa [update_of_ne hji] at hj)
  · by_cases hji : i.text = j
    · subst hji
      simp at hj
    · simpa [Table.get_insert_ne _ _ hji] using hj

theorem grant_kept (hs : Intact sha256 D s) (id : GoString) (hash : HexText) (kind : OperationKind) :
    Kept sha256 D s (s.grant id hash kind) := by
  have h : s.grant id hash kind = { s with grants := (s.grant id hash kind).grants } := by
    unfold grant
    split_ifs <;> rfl
  have hgrants : s.grants ⊆ (s.grant id hash kind).grants := by
    unfold grant
    split_ifs <;> simp
  rw [h]
  exact ⟨hs.step hs.blobs (.refl _) (fun _ _ hl => .inl hl) fun _ hi => ⟨hi, rfl⟩, .refl _, hgrants,
    .of_contexts rfl⟩

theorem Kept.trans (h : Kept sha256 D s t) (h' : Kept sha256 D t u) : Kept sha256 D s u :=
  ⟨h'.intact, h.blobs.trans h'.blobs, List.Subset.trans h.grants h'.grants,
    h.grows.trans h'.grows⟩

theorem Kept.owners (h : Kept sha256 D s t) {l : Layout} (hl : s.layout id = some l) :
    ∃ l', t.layout id = some l' ∧ l'.owner = l.owner := by
  obtain ⟨row, hrow, rfl⟩ := map_eq_some_iff.mp hl
  have howner : t.ownerOf id = some row.owner := by
    rw [h.grows id (by simp [ownerOf, hrow])]
    simp [ownerOf, hrow]
  obtain ⟨row', hrow', ho⟩ := map_eq_some_iff.mp howner
  exact ⟨_, by rw [layout, hrow']; rfl, ho⟩

theorem Kept.logged (h : Kept sha256 D s t) (operations : List OperationRow)
    (commits : List LSFSCommit) : Kept sha256 D s { t with operations, commits } :=
  ⟨h.intact.step h.intact.blobs (.refl _) (fun _ _ hl => .inl hl) fun _ hi => ⟨hi, rfl⟩, h.blobs,
    h.grants, h.grows⟩

theorem contents_update (hs : Intact sha256 D s) (hb : s.blobs.Extends t.blobs) {x : Option Layout}
    (hl : t.layout = update s.layout id x) :
    t.contents = update s.contents id (x.map (Layout.content t.blobs)) := by
  funext i
  by_cases hi : i = id
  · subst hi
    simp [contents, hl]
  · rw [update_of_ne hi]
    exact contents_eq hs hb (by rw [hl, update_of_ne hi])

theorem contents_of_layout (hs : Intact sha256 D s) (hb : s.blobs.Extends t.blobs)
    (hl : t.layout = s.layout) : t.contents = s.contents :=
  funext fun _ => contents_eq hs hb (by rw [hl])

/-! ## Calls -/

theorem layout_of_row {row : ContextRow} (h : s.contexts[id]? = some row) :
    s.layout id = some ⟨row.owner, s.pagesOf id, row.tail⟩ := by
  rw [layout, h]
  rfl

theorem isSome_contexts {l : Layout} (h : s.layout id = some l) : (s.contexts[id]?).isSome := by
  obtain ⟨row, hrow, -⟩ := map_eq_some_iff.mp h
  exact isSome_of_eq_some hrow

theorem create_contents (hs : Intact sha256 D s) (hD : Set.InjOn sha256 D) {i : HexText}
    (hd : data ∈ D) (hu : insertContext i owner s = .ok u)
    (hv : putBlob sha256 data u = .ok (hash, t)) :
    Kept sha256 D s { t with pages := t.pages.insert i.text [hash] } ∧
      { t with pages := t.pages.insert i.text [hash] }.contents =
        update s.contents i.text (some data) := by
  obtain ⟨-, hlayout⟩ := insertContext_layout hs hu
  have hku := insertContext_kept hs hu
  have hkt := putBlob_kept hku.intact hd hv
  have hget := putBlob_get hku.intact hD hd hv
  have hlt : t.layout = update s.layout i.text (some ⟨owner, [], none⟩) :=
    (putBlob_layout hv).trans hlayout
  have hctx : (t.contexts[i.text]?).isSome := isSome_contexts (by rw [hlt, update_self])
  have hkept := hku.trans (hkt.trans
    (setPages_kept hkt.intact hctx [hash] (by simpa using isSome_of_eq_some hget)))
  refine ⟨hkept, ?_⟩
  have hl : { t with pages := t.pages.insert i.text [hash] }.layout =
      update s.layout i.text (some ⟨owner, [hash], none⟩) := by
    rw [layout_setPages, hlt]
    simp
  rw [contents_update hs hkept.blobs hl]
  simp [Layout.content, Layout.refs, hget]

theorem tailOf_of_layout {l : Layout} (h : s.layout id = some l) : s.tailOf id = l.tail := by
  obtain ⟨row, hrow, rfl⟩ := map_eq_some_iff.mp h
  simp [tailOf, hrow]

theorem pagesOf_of_layout {l : Layout} (h : s.layout id = some l) : s.pagesOf id = l.pages := by
  obtain ⟨row, hrow, rfl⟩ := map_eq_some_iff.mp h
  rfl

theorem extend_contents (hs : Intact sha256 D s) (hD : Set.InjOn sha256 D)
    (hd : s.tailData id ++ data ∈ D)
    (hv : putBlob sha256 (s.tailData id ++ data) s = .ok (hash, u)) :
    Kept sha256 D s (u.setTail id (some hash)) ∧ (u.setTail id (some hash)).contents =
      update s.contents id ((s.contents id).map (· ++ data)) := by
  have hku := putBlob_kept hs hd hv
  have hget := putBlob_get hs hD hd hv
  have hset : Kept sha256 D u (u.setTail id (some hash)) :=
    setTail_kept hku.intact id (some hash) (by simpa using isSome_of_eq_some hget)
  have hkept := hku.trans hset
  refine ⟨hkept, ?_⟩
  have hl := layout_setTail id (some hash) u
  rw [putBlob_layout hv] at hl
  have hblobs : (u.setTail id (some hash)).blobs = u.blobs := by unfold setTail; split <;> rfl
  rw [contents_update hs hkept.blobs hl]
  congr 1
  cases hlay : s.layout id with
  | none => simp [contents, hlay]
  | some l =>
    have hpages : ∀ h ∈ l.pages, (u.blobs[h.text]?).getD [] = (s.blobs[h.text]?).getD [] :=
      fun h hh => by rw [get_ref hs hku.blobs hlay (mem_append_left _ hh)]
    simp [contents, hlay, hblobs, Layout.content, Layout.refs, hget, tailData, tailOf_of_layout hlay,
      flatMap_congr hpages]

theorem fork_contents (hs : Intact sha256 D s) {child : HexText} {parent : GoString} {l : Layout}
    {pages : List HexText} (hl : s.layout parent = some l) (hu : insertContext child owner s = .ok u)
    (ht : t = { u.setTail parent none with
      pages := ((u.setTail parent none).pages.insert parent pages).insert child.text pages })
    (hp : pages = u.pagesOf parent ++ (u.tailOf parent).toList) :
    Kept sha256 D s t ∧ s.contents child.text = none ∧
      t.contents = update s.contents child.text (s.contents parent) := by
  obtain ⟨hnone, hlu⟩ := insertContext_layout hs hu
  have hne : parent ≠ child.text := by
    rintro rfl
    simp [hnone] at hl
  have hup : u.layout parent = some l := by rw [hlu, update_of_ne hne, hl]
  have huc : u.layout child.text = some ⟨owner, [], none⟩ := by rw [hlu, update_self]
  have hpages : pages = l.refs := by
    rw [hp, pagesOf_of_layout hup, tailOf_of_layout hup, Layout.refs]
  rw [hpages] at ht
  have hblobs : t.blobs = s.blobs := by
    rw [ht]
    obtain ⟨-, rfl⟩ := insertContext_eq_ok hu
    unfold setTail
    dsimp only
    split <;> rfl
  have hku := insertContext_kept hs hu
  have hkv := setTail_kept hku.intact parent none (by simp)
  have hlv := layout_setTail parent none u
  rw [hup, map_some] at hlv
  have hvp : (u.setTail parent none).layout parent = some { l with tail := none } := by
    rw [hlv, update_self]
  have hvc : (u.setTail parent none).layout child.text = some ⟨owner, [], none⟩ := by
    rw [hlv, update_of_ne hne.symm, huc]
  have hrefs : ∀ h ∈ l.refs, ((u.setTail parent none).blobs[h.text]?).isSome := fun h hh => by
    rw [get_ref hs (hku.trans hkv).blobs hl hh]
    exact (hs.refs parent l hl).2 h hh
  have hk₁ := setPages_kept hkv.intact (isSome_contexts hvp) l.refs hrefs
  have hl₁ := layout_setPages parent l.refs (u.setTail parent none)
  rw [hvp, map_some] at hl₁
  have hc₁ : { u.setTail parent none with
      pages := (u.setTail parent none).pages.insert parent l.refs }.layout child.text =
      some ⟨owner, [], none⟩ := by rw [hl₁, update_of_ne hne.symm, hvc]
  have hk₂ := setPages_kept hk₁.intact (isSome_contexts hc₁) l.refs hrefs
  have hl₂ := layout_setPages child.text l.refs { u.setTail parent none with
      pages := (u.setTail parent none).pages.insert parent l.refs }
  rw [hc₁, map_some, hl₁, hlv, hlu] at hl₂
  have hkept : Kept sha256 D s t := ht ▸ hku.trans (hkv.trans (hk₁.trans hk₂))
  rw [← ht] at hl₂
  refine ⟨hkept, by simp [contents, hnone], funext fun i => ?_⟩
  by_cases hc : i = child.text
  · subst hc
    simp [contents, hl₂, hl, hblobs, Layout.content, Layout.refs]
  rw [update_of_ne hc]
  by_cases hp : i = parent
  · subst hp
    simp [contents, hl₂, update_of_ne hc, hl, hblobs, Layout.content, Layout.refs]
  · exact contents_eq hs hkept.blobs (by
      rw [hl₂, update_of_ne hc, update_of_ne hp, update_of_ne hp,
        update_of_ne hc])

theorem reset_contents (hs : Intact sha256 D s) {pages : List HexText} {tail : Option HexText}
    (hc : (s.contexts[id]?).isSome) (hp : ∀ h ∈ pages, (s.blobs[h.text]?).isSome)
    (ht : ∀ h ∈ tail, (s.blobs[h.text]?).isSome) :
    Kept sha256 D s ({ s with pages := s.pages.insert id pages }.setTail id tail) ∧
      ∀ i ≠ id, ({ s with pages := s.pages.insert id pages }.setTail id tail).contents i =
        s.contents i := by
  have hk := setPages_kept hs hc pages hp
  have hkept := hk.trans (setTail_kept hk.intact id tail ht)
  refine ⟨hkept, fun i hi => contents_eq hs hkept.blobs ?_⟩
  rw [layout_setTail, update_of_ne hi, layout_setPages, update_of_ne hi]

end ContextStore

/-! ## Effects -/

def ContextCall.Writes (id : GoString) : ContextCall → Prop
  | .append _ i _ _ | .restore _ i _ _ => i = id
  | _ => False

def ContextCall.Effect (s : ContextStore) (r : HexText) (t : ContextStore) : ContextCall → Prop
  | .create _ _ sealed => s.contents r.text = none ∧
      t.contents = update s.contents r.text (some sealed)
  | .append _ id _ data => ∃ x, s.contents id = some x ∧
      t.contents = update s.contents id (some (x ++ data))
  | .forkTo _ _ parent _ _ => ∃ x, s.contents parent = some x ∧ s.contents r.text = none ∧
      t.contents = update s.contents r.text (some x)
  | .checkpoint .. | .commitArtifact .. => t.contents = s.contents
  | .restore _ id _ _ => ∀ i ≠ id, t.contents i = s.contents i

section Effects
open ContextStore
variable {sha256 : Bytes → Digest} {D : Set Bytes} {s t u : ContextStore} {c : ContextCall}
  {r : HexText} {l : List (ContextCall × HexText)}

def ContextCall.Acts (s : ContextStore) (r : HexText) (t : ContextStore) (c : ContextCall) : Prop :=
  (c.IsReplay s → t = s) ∧ (¬ c.IsReplay s → c.Effect s r t)

theorem grant_contents (hs : Intact sha256 D s) (hd : data ∈ D)
    (hv : putBlob sha256 data s = .ok (r, u)) (id : GoString) (kind : OperationKind) :
    Kept sha256 D s (u.grant id r kind) ∧ (u.grant id r kind).contents = s.contents := by
  have hk := putBlob_kept hs hd hv
  have hkept := hk.trans (grant_kept hk.intact id r kind)
  exact ⟨hkept, contents_of_layout hs hkept.blobs ((layout_grant ..).trans (putBlob_layout hv))⟩

theorem ContextStore.Written.effect (h : Written sha256 s c r u) (hs : Intact sha256 D s)
    (hD : Set.InjOn sha256 D) (hd : ∀ d ∈ c.hashed sha256 s, d ∈ D)
    (hslot : ∀ id key, c.slot = some (id, key) → ∃ l, s.layout id = some l) :
    Kept sha256 D s u ∧ c.Effect s r u := by
  have hnone : ∀ {i : HexText} {owner : GoString} {v : ContextStore},
      insertContext i owner s = .ok v → s.contents i.text = none := fun hv => by
    simp [contents, (insertContext_layout hs hv).1]
  cases h with
  | empty h =>
    have hk := insertContext_kept hs h
    exact ⟨hk, hnone h, contents_update hs hk.blobs (insertContext_layout hs h).2⟩
  | create hne h hv =>
    obtain ⟨hk, hc⟩ := create_contents hs hD (hd _ (by simp [ContextCall.hashed, hne])) h hv
    exact ⟨hk, hnone h, hc⟩
  | append h =>
    obtain ⟨l, hl⟩ := hslot _ _ rfl
    obtain ⟨hk, hc⟩ := extend_contents hs hD (hd _ (by simp [ContextCall.hashed])) h
    refine ⟨hk, l.content s.blobs, by simp [contents, hl], ?_⟩
    rw [hc]
    simp [contents, hl]
  | fork h hp =>
    obtain ⟨l, hl⟩ := hslot _ _ rfl
    obtain ⟨hk, hnew, hc⟩ := fork_contents hs hl h rfl hp
    refine ⟨hk, l.content s.blobs, by simp [contents, hl], hnew, ?_⟩
    rw [hc]
    simp [contents, hl]
  | checkpoint hdata h =>
    exact grant_contents hs (hd _ (by simp [ContextCall.hashed, hdata])) h _ _
  | artifact h => exact grant_contents hs (hd _ (by simp [ContextCall.hashed])) h _ _
  | restore hp ht =>
    obtain ⟨l, hl⟩ := hslot _ _ rfl
    exact reset_contents hs (isSome_contexts hl) hp ht

theorem exec_acts (hs : Intact sha256 D s) (hD : Set.InjOn sha256 D)
    (hd : ∀ d ∈ c.hashed sha256 s, d ∈ D) (h : c.exec sha256 s = .ok (r, t)) :
    Kept sha256 D s t ∧ c.Acts s r t := by
  cases hslot : c.slot with
  | none =>
    obtain ⟨hk, he⟩ := (exec_unkeyed hslot h).effect hs hD hd (by simp [hslot])
    refine ⟨hk, fun ⟨_, _, hs⟩ => ?_, fun _ => he⟩
    cases hslot.symm.trans hs
  | some x =>
    obtain ⟨id, key⟩ := x
    obtain ⟨_, _, o, -, hro, -, ⟨row, hrow, -⟩, ⟨rfl, ho⟩ | ⟨hnew, u, hu, rfl⟩⟩ :=
      exec_keyed hslot h
    · obtain ⟨_, _, hos, -⟩ := ContextCall.row_eq_some hro
      exact ⟨kept_refl hs, fun _ => rfl, fun hno => absurd ⟨o, ho, hos⟩ hno⟩
    · have hl : ∀ i k, c.slot = some (i, k) → ∃ l, s.layout i = some l := fun i k hik => by
        cases hslot.symm.trans hik
        exact ⟨_, layout_of_row hrow⟩
      obtain ⟨hk, he⟩ := hu.effect hs hD hd hl
      refine ⟨hk.logged _ _, fun ⟨o, ho, hs⟩ => ?_, fun _ => ?_⟩
      · cases hslot.symm.trans hs
        exact absurd ⟨o, ho, rfl, rfl⟩ hnew
      · cases c <;> exact he

theorem ContextTrace.kept (h : ContextTrace sha256 D s l t) (hs : Intact sha256 D s)
    (hD : Set.InjOn sha256 D) : Kept sha256 D s t := by
  induction h with
  | nil s => exact kept_refl hs
  | cons hd hexec _ ih =>
    have hk := (exec_acts hs hD hd hexec).1
    exact hk.trans (ih hk.intact)

theorem ContextCall.Acts.contents_eq (ha : c.Acts s r t) {id : GoString} (hw : ¬ c.Writes id)
    (hc : (s.contents id).isSome) : t.contents id = s.contents id := by
  by_cases hr : c.IsReplay s
  · rw [ha.1 hr]
  have he := ha.2 hr
  have hne : s.contents r.text = none → id ≠ r.text := by
    rintro hnone rfl
    simp [hnone] at hc
  cases c with
  | create => rw [he.2, update_of_ne (hne he.1)]
  | append _ i _ _ =>
    obtain ⟨x, -, he⟩ := he
    rw [he, update_of_ne fun h => hw h.symm]
  | forkTo =>
    obtain ⟨x, -, hnone, he⟩ := he
    rw [he, update_of_ne (hne hnone)]
  | checkpoint | commitArtifact => rw [show t.contents = s.contents from he]
  | restore _ i _ _ => exact he id fun h => hw h.symm

theorem ContextTrace.contents_eq (h : ContextTrace sha256 D s l t) (hs : Intact sha256 D s)
    (hD : Set.InjOn sha256 D) {id : GoString} (hw : ∀ x ∈ l, ¬ x.1.Writes id)
    (hc : (s.contents id).isSome) : t.contents id = s.contents id := by
  induction h with
  | nil s => rfl
  | cons hd hexec _ ih =>
    obtain ⟨hk, ha⟩ := exec_acts hs hD hd hexec
    have hstep := ha.contents_eq (hw _ mem_cons_self) hc
    rw [ih hk.intact (fun x hx => hw x (mem_cons_of_mem _ hx)) (hstep ▸ hc), hstep]

/-- In every store that a run reaches a call that is not a repetition does to the contents what it
should and nothing else, and the content of a context stays along a run that does not append to
it or restore it. -/
theorem contents_refine (hD : Set.InjOn sha256 D) (hs : ContextTrace sha256 D .empty l s) :
    (∀ (c : ContextCall) r t, (∀ d ∈ c.hashed sha256 s, d ∈ D) → c.exec sha256 s = .ok (r, t) → c.Acts s r t) ∧
      ∀ id l' t, (s.contents id).isSome → ContextTrace sha256 D s l' t →
        (∀ x ∈ l', ¬ x.1.Writes id) → t.contents id = s.contents id := by
  have hk := hs.kept intact_empty hD
  exact ⟨fun c r t hd h => (exec_acts hk.intact hD hd h).2,
    fun id l' t hc ht hw => ht.contents_eq hk.intact hD hw hc⟩

/-! ## Given calls -/

/-- The results of a list of calls, the byte strings they hash and the store after them. -/
def runCalls (sha256 : Bytes → Digest) (s : ContextStore) :
    List ContextCall → Option (List (ContextCall × HexText) × List Bytes × ContextStore)
  | [] => some ([], [], s)
  | c :: cs =>
    match c.exec sha256 s with
    | .error _ => none
    | .ok (r, t) => (runCalls sha256 t cs).map fun x =>
      ((c, r) :: x.1, c.hashed sha256 s ++ x.2.1, x.2.2)

theorem trace_of_runCalls {cs : List ContextCall} {ds : List Bytes}
    (h : runCalls sha256 s cs = some (l, ds, t)) (hD : ∀ d ∈ ds, d ∈ D) :
    ContextTrace sha256 D s l t := by
  induction cs generalizing s l ds with
  | nil =>
    cases h
    exact .nil _
  | cons c cs ih =>
    unfold runCalls at h
    split at h
    · cases h
    next r u hexec =>
      obtain ⟨⟨l', ds', t'⟩, hrest, h⟩ := map_eq_some_iff.mp h
      cases h
      exact .cons (fun d hd => hD d (mem_append_left _ hd)) hexec
        (ih hrest fun d hd => hD d (mem_append_right _ hd))

end Effects

namespace Sample

/-- A hash without collisions on short texts: the text as a number to the base 257. -/
def digest (data : Bytes) : Digest where
  toHexText := hexEncode ((range 32).map fun i =>
    UInt8.ofNat (data.foldl (fun n b => 257 * n + b.toNat + 1) 0 / 256 ^ i))
  length_eq := by simp [hexEncode, comp_def]

def parent : HexText := hexEncode [0xAA]
def child : HexText := hexEncode [0xBB]

def forked : List ContextCall :=
  [.create parent (lit "o") [1], .append (lit "o") parent.text (lit "a") [2],
    .forkTo child (lit "o") parent.text (lit "p") (lit "f")]

def appendChild : ContextCall := .append (lit "p") child.text (lit "a") [3]

abbrev Distinct (ds : List Bytes) : Prop :=
  ∀ x ∈ ds, ∀ y ∈ ds, (digest x).text = (digest y).text → x = y

theorem Distinct.injOn {ds : List Bytes} (h : Distinct ds) : Set.InjOn digest {d | d ∈ ds} :=
  fun x hx y hy he => h x hx y hy (congrArg (fun d : Digest => d.text) he)

end Sample

open Sample

/-- After a fork the child is appended to, and the parent stays as it was. -/
theorem contents_refine_fork : ∃ (s t : ContextStore) (r : HexText),
    s.contents parent.text = some [1, 2] ∧ s.contents child.text = some [1, 2] ∧
    appendChild.exec digest s = .ok (r, t) ∧ appendChild.Acts s r t ∧
    t.contents parent.text = s.contents parent.text := by
  have hrun : ∃ x ∈ runCalls digest .empty forked,
      ∃ y ∈ (appendChild.exec digest x.2.2).toOption,
        Distinct (x.2.1 ++ appendChild.hashed digest x.2.2) ∧
        x.2.2.contents parent.text = some [1, 2] ∧
        x.2.2.contents child.text = some [1, 2] := by
    decide +kernel
  obtain ⟨⟨l, ds, s⟩, hs, ⟨r, t⟩, ht, hD, hp, hc⟩ := hrun
  have hexec : appendChild.exec digest s = .ok (r, t) := ok_of_toOption ht
  have hd : ∀ d ∈ appendChild.hashed digest s,
      d ∈ {d | d ∈ ds ++ appendChild.hashed digest s} :=
    fun d hd => mem_append_right _ hd
  have hall := contents_refine hD.injOn (trace_of_runCalls hs fun d hd => mem_append_left _ hd)
  refine ⟨s, t, r, hp, hc, hexec, hall.1 _ r t hd hexec, ?_⟩
  refine hall.2 _ _ t (by rw [hp]; rfl) (.cons hd hexec (.nil t)) fun x hx => ?_
  cases mem_singleton.mp hx
  exact (by decide +kernel : ¬ child.text = parent.text)

end Aok.Runtime
