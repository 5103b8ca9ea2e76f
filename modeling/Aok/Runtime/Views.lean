import Aok.Runtime.Checkpoints

/-!
# Views of contexts

The rows of the store that belong to one context. A call on another context leaves them, and
a call on the context changes them in the same way in two stores that have the same rows, as
the blobs of both are what their hashes say.
-/

namespace Aok.Runtime
open Lib Lib.Utf8 Lib.JsonText Lib.JsonValue Lib.Command List Option

variable {kind : OperationKind} {data : Bytes}

namespace ContextCall

def target (c : ContextCall) : Option GoString := c.slot.map Prod.fst

def attempt (sha256 : Bytes → Digest) (s : ContextStore) (c : ContextCall) : ContextStore :=
  match c.exec sha256 s with
  | .ok (_, t) => t
  | .error _ => s

end ContextCall

/-! ## Views -/

def LSFSCommit.unnumbered (c : LSFSCommit) : LSFSCommit := { c with cursor := 0 }

structure View where
  layout : Option Layout
  grants : List (GoString × HexText × OperationKind)
  operations : List OperationRow
  commits : List LSFSCommit

namespace ContextStore
variable {sha256 : Bytes → Digest} {D : Set Bytes} {s s₁ s₂ t u : ContextStore} {c : ContextCall}
  {r : HexText} {id key owner : GoString} {l : Layout}

def view (id : GoString) (s : ContextStore) : View where
  layout := s.layout id
  grants := s.grants.filter fun g => g.1 = id
  operations := s.operations.filter fun o => o.contextID = id
  commits := (s.commits.filter fun c => c.contextID = id).map LSFSCommit.unnumbered

def View.unused : View := ⟨none, [], [], []⟩

theorem view_setTail (id : GoString) (tail : Option HexText) (s : ContextStore) :
    (s.setTail id tail).view id =
      { s.view id with layout := (s.layout id).map fun l => { l with tail } } := by
  have hl := congrFun (layout_setTail id tail s) id
  rw [Function.update_self] at hl
  unfold view
  rw [hl]
  unfold setTail
  split <;> rfl

def withPages (id : GoString) (pages : List HexText) (s : ContextStore) : ContextStore :=
  { s with pages := s.pages.insert id pages }

theorem view_withPages (id : GoString) (pages : List HexText) (s : ContextStore) :
    (s.withPages id pages).view id =
      { s.view id with layout := (s.layout id).map fun l => { l with pages } } := by
  have hl : (s.withPages id pages).layout id = _ := congrFun (layout_setPages id pages s) id
  rw [Function.update_self] at hl
  unfold view
  rw [hl]
  rfl

theorem view_grant (id : GoString) (hash : HexText) (kind : OperationKind) (s : ContextStore) :
    (s.grant id hash kind).view id = { s.view id with
      grants := if (s.view id).grants.contains (id, hash, kind) then (s.view id).grants
        else (s.view id).grants ++ [(id, hash, kind)] } := by
  have hc : (s.view id).grants.contains (id, hash, kind) = s.grants.contains (id, hash, kind) := by
    simp [view]
  rw [hc]
  unfold grant
  split_ifs
  · rfl
  · simp [view, layout, pagesOf]

theorem view_setTail_congr (hv : s₁.view id = s₂.view id) (tail : Option HexText) :
    (s₁.setTail id tail).view id = (s₂.setTail id tail).view id := by
  rw [view_setTail, view_setTail, hv, show s₁.layout id = s₂.layout id from congrArg View.layout hv]

theorem view_withPages_congr (hv : s₁.view id = s₂.view id) (pages : List HexText) :
    (s₁.withPages id pages).view id = (s₂.withPages id pages).view id := by
  rw [view_withPages, view_withPages, hv,
    show s₁.layout id = s₂.layout id from congrArg View.layout hv]

theorem view_withPages_ne {i : GoString} (hi : i ≠ id) (pages : List HexText) (s : ContextStore) :
    (s.withPages i pages).view id = s.view id := by
  simp [withPages, view, layout, pagesOf, Table.get_insert_ne _ _ hi]

theorem view_setTail_ne {i : GoString} (hi : i ≠ id) (tail : Option HexText) (s : ContextStore) :
    (s.setTail i tail).view id = s.view id := by
  unfold setTail
  split
  · simp [view, layout, pagesOf, Table.get_insert_ne _ _ hi]
  · rfl

theorem view_grant_congr (hv : s₁.view id = s₂.view id) (hash : HexText) (kind : OperationKind) :
    (s₁.grant id hash kind).view id = (s₂.grant id hash kind).view id := by
  rw [view_grant, view_grant, hv]

theorem view_eq_of_touches {drawn : Option HexText} {i : GoString}
    (h : Touches id drawn kind s r u) (hi : i ≠ id) (hd : ∀ x ∈ drawn, x.text ≠ i) :
    u.view i = s.view i := by
  have hgrants : u.grants.filter (fun g => g.1 = i) = s.grants.filter (fun g => g.1 = i) := by
    rcases h.grants with h | ⟨h, -⟩
    · rw [h]
    · simp [h, Ne.symm hi]
  simp only [view, h.layout i hi hd, h.operations, h.commits, hgrants]

theorem view_logged_ne {o : OperationRow} {x : LSFSCommit} (ho : o.contextID ≠ id)
    (hx : x.contextID ≠ id) :
    { u with operations := u.operations ++ [o], commits := u.commits ++ [x] }.view id =
      u.view id := by
  simp [view, ho, hx, layout, pagesOf]

theorem Written.view_ne (h : Written sha256 s c r t) (hslot : c.slot = none)
    (hdrawn : c.drawn.map HexText.text ≠ some id) : t.view id = s.view id := by
  cases h with
  | empty h =>
    obtain ⟨-, rfl⟩ := insertContext_eq_ok h
    have hi : r.text ≠ id := fun hi => hdrawn (congrArg some hi)
    simp [view, layout, pagesOf, Table.get_insert_ne _ _ hi]
  | create _ h hv =>
    obtain ⟨-, rfl⟩ := insertContext_eq_ok h
    obtain ⟨-, rfl⟩ := putBlob_eq_ok hv
    have hi : r.text ≠ id := fun hi => hdrawn (congrArg some hi)
    simp [view, layout, pagesOf, Table.get_insert_ne _ _ hi]
  | _ => cases hslot

theorem attempt_view_ne (hdrawn : c.drawn.map HexText.text ≠ some id) (htarget : c.target ≠ some id) :
    (c.attempt sha256 s).view id = s.view id := by
  unfold ContextCall.attempt
  split
  next r t h =>
    cases hslot : c.slot with
    | none => exact (exec_unkeyed hslot h).view_ne hslot hdrawn
    | some x =>
      obtain ⟨i, key⟩ := x
      have hi : id ≠ i := by
        rintro rfl
        simp [ContextCall.target, hslot] at htarget
      obtain ⟨_, _, o, hinput, ho, -, -, ⟨rfl, -⟩ | ⟨-, u, hu, rfl⟩⟩ := exec_keyed hslot h
      · rfl
      · have hd : ∀ x ∈ c.drawn, x.text ≠ id := by
          rintro x hx rfl
          simp [mem_def.mp hx] at hdrawn
        obtain ⟨-, -, hos, -⟩ := ContextCall.row_eq_some ho
        cases hslot.symm.trans hos
        exact (view_logged_ne hi.symm hi.symm).trans (view_eq_of_touches (hu.touches hslot hinput) hi hd)
  · rfl

/-! ## Two stores with one view -/

def Agree (id : GoString) : Except Err (HexText × ContextStore) →
    Except Err (HexText × ContextStore) → Prop
  | .ok (r, t), .ok (r', t') => r = r' ∧ t.view id = t'.view id
  | .error e, .error e' => e = e'
  | _, _ => False

theorem Agree.map_fst {x y : Except Err (HexText × ContextStore)} (h : Agree id x y) :
    x.map Prod.fst = y.map Prod.fst := by
  cases x <;> cases y
  · exact congrArg Except.error h
  · exact h.elim
  · exact h.elim
  · exact congrArg Except.ok h.1

theorem authorize_eq (s : ContextStore) (owner id : GoString) : authorize s owner id =
    match s.layout id with
    | some l => if owner ≠ [] ∧ l.owner = owner then .ok () else .error .contextAccess
    | none => .error .contextAccess := by
  unfold authorize layout
  cases s.contexts[id]? <;> rfl

theorem authorize_congr (hv : s₁.view id = s₂.view id) (owner : GoString) :
    authorize s₁ owner id = authorize s₂ owner id := by
  rw [authorize_eq, authorize_eq, show s₁.layout id = s₂.layout id from congrArg View.layout hv]

theorem find_operations_congr (hv : s₁.view id = s₂.view id) (key : GoString) :
    s₁.operations.find? (fun o => o.contextID = id ∧ o.key = key) =
      s₂.operations.find? (fun o => o.contextID = id ∧ o.key = key) := by
  have h : ∀ s : ContextStore, s.operations.find? (fun o => o.contextID = id ∧ o.key = key) =
      (s.view id).operations.find? fun o => o.key = key := fun s => by
    simp [view, find?_filter]
  rw [h, h, hv]

theorem find_grants_congr (hv : s₁.view id = s₂.view id) (handle : GoString) (kind : OperationKind) :
    s₁.grants.find? (fun g => g.1 = id ∧ g.2.1.text = handle ∧ g.2.2 = kind) =
      s₂.grants.find? (fun g => g.1 = id ∧ g.2.1.text = handle ∧ g.2.2 = kind) := by
  have h : ∀ s : ContextStore,
      s.grants.find? (fun g => g.1 = id ∧ g.2.1.text = handle ∧ g.2.2 = kind) =
      (s.view id).grants.find? fun g => g.2.1.text = handle ∧ g.2.2 = kind := fun s => by
    simp [view, find?_filter]
  rw [h, h, hv]

theorem view_logged_congr (hv : s₁.view id = s₂.view id) (o : OperationRow) {x₁ x₂ : LSFSCommit}
    (hx : x₁.unnumbered = x₂.unnumbered) :
    { s₁ with operations := s₁.operations ++ [o], commits := s₁.commits ++ [x₁] }.view id =
      { s₂ with operations := s₂.operations ++ [o], commits := s₂.commits ++ [x₂] }.view id := by
  have h : ∀ (s : ContextStore) (x : LSFSCommit),
      { s with operations := s.operations ++ [o], commits := s.commits ++ [x] }.view id =
        { s.view id with
          operations := (s.view id).operations ++ [o].filter fun o => o.contextID = id
          commits := (s.view id).commits ++
            [x.unnumbered].filter fun x => x.contextID = id } := by
    intro s x
    by_cases hid : x.contextID = id <;>
      simp [view, layout, pagesOf, LSFSCommit.unnumbered, hid]
  rw [h, h, hv, hx]

theorem mutate_agree {input : Bytes}
    {fn₁ fn₂ : ContextStore → Except Err (HexText × ContextStore)} {i : GoString}
    (hv : s₁.view id = s₂.view id) (hi : s₁.view i = s₂.view i)
    (hfn : ∀ l, s₁.layout id = some l → s₂.layout id = some l → Agree i (fn₁ s₁) (fn₂ s₂)) :
    Agree i (mutate sha256 owner id key kind input fn₁ s₁)
      (mutate sha256 owner id key kind input fn₂ s₂) := by
  have hl : s₁.layout id = s₂.layout id := congrArg View.layout hv
  unfold mutate
  rw [authorize_congr hv, find_operations_congr hv]
  split
  · exact rfl
  rw [authorize_eq]
  cases hlay : s₂.layout id with
  | none => exact rfl
  | some l =>
    dsimp only
    split
    · dsimp only [bind, Except.bind]
      split
      · split
        · exact ⟨rfl, hi⟩
        · exact rfl
      · have h := hfn l (hl.trans hlay) hlay
        cases h₁ : fn₁ s₁ with
        | error e =>
          cases h₂ : fn₂ s₂ with
          | error e' =>
            rw [h₁, h₂] at h
            exact h
          | ok x =>
            rw [h₁, h₂] at h
            exact h.elim
        | ok x =>
          cases h₂ : fn₂ s₂ with
          | error e' =>
            rw [h₁, h₂] at h
            exact h.elim
          | ok y =>
            rw [h₁, h₂] at h
            obtain ⟨r₁, t₁⟩ := x
            obtain ⟨r₂, t₂⟩ := y
            obtain ⟨rfl, ht⟩ := h
            exact ⟨rfl, view_logged_congr ht _ rfl⟩
    · exact rfl

/-! ## What the grants stand for -/

/-- What is granted is stored, and what is granted as a checkpoint is the text of a layout whose
blobs are stored. -/
structure Backed (sha256 : Bytes → Digest) (D : Set Bytes) (s : ContextStore) : Prop where
  intact : Intact sha256 D s
  grants : ∀ i h kind, (i, h, kind) ∈ s.grants → (s.blobs[h.text]?).isSome ∧
    (kind = .checkpoint → valid i = true ∧ ∃ l : Layout,
      HasCheckpoint sha256 i h (l.text s.blobs i) s ∧ ∀ x ∈ l.refs, (s.blobs[x.text]?).isSome)

theorem backed_empty : Backed sha256 D empty := ⟨intact_empty, by simp [empty]⟩

theorem text_congr {blobs blobs' : Table GoString Bytes} {l : Layout}
    (h : ∀ x ∈ l.refs, blobData blobs x = blobData blobs' x) (id : GoString) :
    l.text blobs id = l.text blobs' id := by
  have hpages : l.pages.map (fun x => pageText x (blobData blobs x)) =
      l.pages.map fun x => pageText x (blobData blobs' x) :=
    map_congr_left fun x hx => by rw [h x (mem_append_left _ hx)]
  have hparts : (l.parts blobs id).map Part.member = (l.parts blobs' id).map Part.member := by
    simp only [Layout.parts, map_append, map_cons, map_nil, List.map_map]
    congr 1
    · simp [Part.member, hpages]
    · exact map_congr_left fun x hx => by
        simp [Part.member, h x (mem_append_right _ hx)]
  rw [Layout.text, Layout.text, hparts]

theorem blobData_extends (hb : s.blobs.Extends t.blobs) {x : HexText}
    (hx : (s.blobs[x.text]?).isSome) : blobData t.blobs x = blobData s.blobs x := by
  obtain ⟨d, hd⟩ := isSome_iff_exists.mp hx
  simp [blobData, hd, hb _ d hd]

theorem isSome_extends (hb : s.blobs.Extends t.blobs) {x : HexText}
    (hx : (s.blobs[x.text]?).isSome) : (t.blobs[x.text]?).isSome := by
  obtain ⟨d, hd⟩ := isSome_iff_exists.mp hx
  exact isSome_of_eq_some (hb _ d hd)

theorem Backed.keep (hs : Backed sha256 D s) (hk : Kept sha256 D s t) {i : GoString} {h : HexText}
    (hg : (i, h, kind) ∈ s.grants) : (t.blobs[h.text]?).isSome ∧
      (kind = .checkpoint → valid i = true ∧ ∃ l : Layout,
        HasCheckpoint sha256 i h (l.text t.blobs i) t ∧ ∀ x ∈ l.refs, (t.blobs[x.text]?).isSome) := by
  obtain ⟨hstored, hcheck⟩ := hs.grants i h kind hg
  refine ⟨isSome_extends hk.blobs hstored, fun hkind => ?_⟩
  obtain ⟨hv, l, hc, hrefs⟩ := hcheck hkind
  refine ⟨hv, l, ?_, fun x hx => isSome_extends hk.blobs (hrefs x hx)⟩
  rw [text_congr fun x hx => blobData_extends hk.blobs (hrefs x hx)]
  exact hc.kept hk

theorem Backed.step (hs : Backed sha256 D s) (hD : Set.InjOn sha256 D)
    (hd : ∀ d ∈ c.hashed sha256 s, d ∈ D) (h : c.exec sha256 s = .ok (r, t)) :
    Backed sha256 D t := by
  have hk := (exec_acts hs.intact hD hd h).1
  refine ⟨hk.intact, fun i hash kind hg => ?_⟩
  cases hslot : c.slot with
  | none =>
    obtain ⟨-, hgrants, -⟩ := (exec_unkeyed hslot h).unkeyed hslot
    exact hs.keep hk (hgrants ▸ hg)
  | some x =>
    obtain ⟨id, key⟩ := x
    obtain ⟨kind', input, o, hinput, -, -, -, ⟨rfl, -⟩ | ⟨hnew, u, hu, rfl⟩⟩ := exec_keyed hslot h
    · exact hs.grants i hash kind hg
    rcases (hu.touches hslot hinput).mem_grants hg with hold | ⟨heq, hstored⟩
    · exact hs.keep hk hold
    cases heq
    refine ⟨hstored, fun hkind => ?_⟩
    subst hkind
    cases c with
    | checkpoint owner j k =>
      cases hslot
      obtain ⟨l, hl, -, -, hc⟩ := checkpoint_first hs.intact hD hd (fun ⟨o, ho, hslot⟩ => hnew
        ⟨o, ho, (congrArg Prod.fst (Option.some.inj hslot)).symm,
          (congrArg Prod.snd (Option.some.inj hslot)).symm⟩) h
      obtain ⟨hv, hrefs⟩ := hs.intact.refs i l hl
      refine ⟨hv, l, ?_, fun x hx => isSome_extends hk.blobs (hrefs x hx)⟩
      rwa [text_congr fun x hx => blobData_extends hk.blobs (hrefs x hx)]
    | _ => cases hinput

theorem Backed.attempt (hs : Backed sha256 D s) (hD : Set.InjOn sha256 D)
    (hd : ∀ d ∈ c.hashed sha256 s, d ∈ D) : Backed sha256 D (c.attempt sha256 s) := by
  unfold ContextCall.attempt
  split
  next h => exact hs.step hD hd h
  · exact hs

/-! ## Calls in two stores -/

section Two
variable (hD : Set.InjOn sha256 D) (h₁ : Backed sha256 D s₁) (h₂ : Backed sha256 D s₂)
include hD h₁ h₂

theorem blobData_eq {x : HexText} (hx₁ : (s₁.blobs[x.text]?).isSome)
    (hx₂ : (s₂.blobs[x.text]?).isSome) : blobData s₁.blobs x = blobData s₂.blobs x := by
  obtain ⟨d₁, hd₁⟩ := isSome_iff_exists.mp hx₁
  obtain ⟨d₂, hd₂⟩ := isSome_iff_exists.mp hx₂
  have heq := injOn_text hD (h₁.intact.blobs.mem _ _ hd₁) (h₂.intact.blobs.mem _ _ hd₂)
    ((h₁.intact.blobs.address_eq _ _ hd₁).trans (h₂.intact.blobs.address_eq _ _ hd₂).symm)
  simp [blobData, hd₁, hd₂, heq]

theorem blobData_refs (hl₁ : s₁.layout id = some l) (hl₂ : s₂.layout id = some l) {x : HexText}
    (hx : x ∈ l.refs) : blobData s₁.blobs x = blobData s₂.blobs x :=
  blobData_eq hD h₁ h₂ ((h₁.intact.refs id l hl₁).2 x hx) ((h₂.intact.refs id l hl₂).2 x hx)

end Two

def stored (sha256 : Bytes → Digest) (data : Bytes) (s : ContextStore) : ContextStore :=
  { s with blobs := s.blobs.insertNew (sha256 data).text data }

theorem view_stored_congr (hv : s₁.view id = s₂.view id) (data : Bytes) :
    (s₁.stored sha256 data).view id = (s₂.stored sha256 data).view id := hv

theorem putBlob_ok (hs : Intact sha256 D s) (hD : Set.InjOn sha256 D) (hd : data ∈ D) :
    putBlob sha256 data s = .ok ((sha256 data).toHexText, s.stored sha256 data) := by
  have hget := hs.blobs.get_insertNew (injOn_text hD) hd
  have hs' : (if s.blobs.contains (sha256 data).text then s
      else { s with blobs := s.blobs.insert (sha256 data).text data }) = s.stored sha256 data := by
    unfold stored Table.insertNew
    split_ifs <;> rfl
  unfold putBlob
  dsimp only
  rw [hs']
  simp [blob, stored, hget]

theorem append_eq (hs : Intact sha256 D s) (hD : Set.InjOn sha256 D)
    (hd : s.tailData id ++ data ∈ D) (owner key : GoString) :
    append sha256 owner id key data s = mutate sha256 owner id key .append data (fun _ =>
      .ok ((sha256 (s.tailData id ++ data)).toHexText,
        (s.stored sha256 (s.tailData id ++ data)).setTail id
          (some (sha256 (s.tailData id ++ data)).toHexText))) s := by
  refine mutate_congr fun l hl => ?_
  have hput := putBlob_ok hs hD hd
  dsimp only
  cases ht : s.tailOf id with
  | none =>
    have hdata : s.tailData id = [] := by simp [tailData, ht]
    rw [hdata] at hput ⊢
    simp only [hput, bind, Except.bind, pure, Except.pure]
  | some x =>
    have hx : x ∈ l.refs := mem_append_right _ (by simp [← tailOf_of_layout hl, ht])
    have hdata : s.tailData id = blobData s.blobs x := by simp [tailData, ht, blobData]
    rw [hdata] at hput ⊢
    simp only [hs.blob_eq hl hx, hput, bind, Except.bind, pure, Except.pure]

theorem checkpoint_eq (hs : Intact sha256 D s) (hD : Set.InjOn sha256 D)
    (hd : ∀ d ∈ (ContextCall.checkpoint owner id key).hashed sha256 s, d ∈ D)
    (hl : s.layout id = some l) :
    checkpoint sha256 owner id key s = mutate sha256 owner id key .checkpoint [] (fun _ =>
      .ok ((sha256 (l.text s.blobs id)).toHexText,
        (s.stored sha256 (l.text s.blobs id)).grant id (sha256 (l.text s.blobs id)).toHexText
          .checkpoint)) s := by
  have htext := hs.snapshotText_eq hl
  have hput := putBlob_ok hs hD (hd (l.text s.blobs id) (by rw [ContextCall.hashed, htext]; simp))
  refine mutate_congr fun _ _ => ?_
  simp only [htext, hput, bind, Except.bind, pure, Except.pure]

theorem commitArtifact_eq (hs : Intact sha256 D s) (hD : Set.InjOn sha256 D)
    (hd : data ∈ D) (owner key : GoString) :
    commitArtifact sha256 owner id key data s = mutate sha256 owner id key .artifact data (fun _ =>
      .ok ((sha256 data).toHexText,
        (s.stored sha256 data).grant id (sha256 data).toHexText .artifact)) s := by
  refine mutate_congr fun _ _ => ?_
  simp only [putBlob_ok hs hD hd, bind, Except.bind, pure, Except.pure]

def inserted (i : HexText) (owner : GoString) (s : ContextStore) : ContextStore :=
  { s with contexts := s.contexts.insert i.text ⟨owner, none⟩ }

theorem insertContext_ok {i : HexText} (h : s.contexts[i.text]? = none) (owner : GoString) :
    insertContext i owner s = .ok (s.inserted i owner) := by
  unfold insertContext
  rw [if_neg (by simpa using h)]
  rfl

theorem view_inserted_ne {i : HexText} (hi : i.text ≠ id) (owner : GoString) (s : ContextStore) :
    (s.inserted i owner).view id = s.view id := by
  simp [inserted, view, layout, pagesOf, Table.get_insert_ne _ _ hi]

def forked (child : HexText) (childOwner parent : GoString) (l : Layout) (s : ContextStore) :
    ContextStore :=
  (((s.inserted child childOwner).setTail parent none).withPages parent l.refs).withPages child.text
    l.refs

theorem forkTo_eq {child : HexText} {parentOwner parentID childOwner : GoString}
    (hl : s.layout parentID = some l) (hfresh : s.contexts[child.text]? = none)
    (hb : isBlank childOwner = false) :
    forkTo sha256 child parentOwner parentID childOwner key s =
      mutate sha256 parentOwner parentID key .fork [] (fun _ =>
        .ok (child, s.forked child childOwner parentID l)) s := by
  have hne : child.text ≠ parentID := by
    rintro rfl
    simp [layout, hfresh] at hl
  have hrefs : s.pagesOf parentID ++ (s.tailOf parentID).toList = l.refs := by
    rw [pagesOf_of_layout hl, tailOf_of_layout hl, Layout.refs]
  have htail : (s.inserted child childOwner).tailOf parentID = s.tailOf parentID := by
    simp [inserted, tailOf, Table.get_insert_ne _ _ hne]
  unfold forkTo
  rw [if_neg (by simp [hb])]
  refine mutate_congr fun _ _ => ?_
  simp only [insertContext_ok hfresh, bind, Except.bind, pure, Except.pure, htail, forked]
  rw [← hrefs]
  rfl

theorem layout_of_text {blobs₁ blobs₂ : Table GoString Bytes} {l₁ l₂ : Layout}
    (hvalid : valid id = true) (hb₁ : Backs blobs₁ sha256 s₁ l₁) (hb₂ : Backs blobs₂ sha256 s₂ l₂)
    (h : l₁.text blobs₁ id = l₂.text blobs₂ id) : l₁.pages = l₂.pages ∧ l₁.tail = l₂.tail := by
  have hsnap : l₁.snapshot blobs₁ id = l₂.snapshot blobs₂ id := by
    have hread₁ := readSnapshot_text hvalid fun x hx => (hb₁ x hx).2.2
    have hread₂ := readSnapshot_text hvalid fun x hx => (hb₂ x hx).2.2
    rw [h, hread₂] at hread₁
    exact (Option.some.inj hread₁).symm
  have hinj : Function.Injective HexText.text := fun _ _ => HexText.ext_text
  have hpages := congrArg (fun x => x.sealed.map ContextPage.hash) hsnap
  have htail := congrArg (fun x => x.tail.map ContextPage.hash) hsnap
  simp only [Layout.snapshot, List.map_map, Option.map_map] at hpages htail
  exact ⟨hinj.list_map hpages, map_injective hinj htail⟩

/-! ## Calls in two stores -/

section Calls
variable (hD : Set.InjOn sha256 D) (h₁ : Backed sha256 D s₁) (h₂ : Backed sha256 D s₂)
  (hv : s₁.view id = s₂.view id)
include hD h₁ h₂ hv

theorem append_agree (hd₁ : s₁.tailData id ++ data ∈ D)
    (hd₂ : s₂.tailData id ++ data ∈ D) (owner key : GoString) :
    Agree id (append sha256 owner id key data s₁) (append sha256 owner id key data s₂) := by
  rw [append_eq h₁.intact hD hd₁, append_eq h₂.intact hD hd₂]
  refine mutate_agree hv hv fun l hl₁ hl₂ => ?_
  have hdata : s₁.tailData id = s₂.tailData id := by
    rw [tailData, tailData, tailOf_of_layout hl₁, tailOf_of_layout hl₂]
    exact flatMap_congr fun x hx =>
      blobData_refs hD h₁ h₂ hl₁ hl₂ (mem_append_right _ hx)
  rw [hdata]
  exact ⟨rfl, view_setTail_congr (view_stored_congr hv _) _⟩

theorem checkpoint_agree (hd₁ : ∀ d ∈ (ContextCall.checkpoint owner id key).hashed sha256 s₁, d ∈ D)
    (hd₂ : ∀ d ∈ (ContextCall.checkpoint owner id key).hashed sha256 s₂, d ∈ D) :
    Agree id (checkpoint sha256 owner id key s₁) (checkpoint sha256 owner id key s₂) := by
  have hl : s₁.layout id = s₂.layout id := congrArg View.layout hv
  cases hl₂ : s₂.layout id with
  | none => exact mutate_agree hv hv fun l _ h => absurd (hl₂.symm.trans h) (by simp)
  | some l =>
    have hl₁ := hl.trans hl₂
    rw [checkpoint_eq h₁.intact hD hd₁ hl₁, checkpoint_eq h₂.intact hD hd₂ hl₂,
      text_congr fun x hx => blobData_refs hD h₁ h₂ hl₁ hl₂ hx]
    exact mutate_agree hv hv fun _ _ _ => ⟨rfl, view_grant_congr (view_stored_congr hv _) _ _⟩

theorem commitArtifact_agree (hd : data ∈ D) (owner key : GoString) :
    Agree id (commitArtifact sha256 owner id key data s₁)
      (commitArtifact sha256 owner id key data s₂) := by
  rw [commitArtifact_eq h₁.intact hD hd, commitArtifact_eq h₂.intact hD hd]
  exact mutate_agree hv hv fun _ _ _ => ⟨rfl, view_grant_congr (view_stored_congr hv _) _ _⟩

theorem restore_agree (hlen : ∀ d ∈ D, d.length < 2 ^ 63) (owner key handle : GoString) :
    Agree id (restore sha256 owner id key handle s₁) (restore sha256 owner id key handle s₂) := by
  have hfind := find_grants_congr hv handle .checkpoint
  cases hf : s₂.grants.find? fun g => g.1 = id ∧ g.2.1.text = handle ∧ g.2.2 = .checkpoint with
  | none =>
    refine mutate_agree hv hv fun _ _ _ => ?_
    rw [hfind, hf]
    exact rfl
  | some g =>
    have hp := find?_some hf
    simp only [decide_eq_true_eq] at hp
    have hg₁ := mem_of_find?_eq_some (hfind.trans hf)
    have hg₂ := mem_of_find?_eq_some hf
    obtain ⟨i, h, kind⟩ := g
    obtain ⟨rfl, rfl, rfl⟩ := hp
    obtain ⟨hvalid, l₁, hc₁, hrefs₁⟩ := (h₁.grants i h _ hg₁).2 rfl
    obtain ⟨-, l₂, hc₂, hrefs₂⟩ := (h₂.grants i h _ hg₂).2 rfl
    have hb₁ := h₁.intact.backs hrefs₁ hlen (.refl _)
    have hb₂ := h₂.intact.backs hrefs₂ hlen (.refl _)
    have htext : l₁.text s₁.blobs i = l₂.text s₂.blobs i := by
      have heq := blobData_eq hD h₁ h₂ (isSome_of_eq_some hc₁.stored)
        (isSome_of_eq_some hc₂.stored)
      simpa [blobData, hc₁.stored, hc₂.stored] using heq
    obtain ⟨hpages, htail⟩ := layout_of_text hvalid hb₁ hb₂ htext
    rw [restore_eq hvalid hc₁ hb₁, restore_eq hvalid hc₂ hb₂, hpages, htail]
    exact mutate_agree hv hv fun _ _ _ =>
      ⟨rfl, view_setTail_congr (view_withPages_congr hv _) _⟩

end Calls

section Makes
variable (hD : Set.InjOn sha256 D) (h₁ : Backed sha256 D s₁) (h₂ : Backed sha256 D s₂) {i : HexText}
  (hnew₁ : s₁.contexts[i.text]? = none) (hnew₂ : s₂.contexts[i.text]? = none)
include h₁ h₂ hnew₁ hnew₂

theorem view_inserted_congr (hv : s₁.view i.text = s₂.view i.text) (owner : GoString) :
    (s₁.inserted i owner).view i.text = (s₂.inserted i owner).view i.text := by
  have h : ∀ s : ContextStore, Backed sha256 D s → s.contexts[i.text]? = none →
      (s.inserted i owner).view i.text =
        { s.view i.text with layout := some ⟨owner, [], none⟩ } := by
    intro s hs hnew
    have hpages : s.pagesOf i.text = [] := hs.intact.orphans _ hnew
    have hlayout : (s.inserted i owner).layout i.text = some ⟨owner, s.pagesOf i.text, none⟩ := by
      simp [inserted, layout, pagesOf]
    unfold view
    rw [hlayout, hpages]
    rfl
  rw [h s₁ h₁ hnew₁, h s₂ h₂ hnew₂, hv]

include hD in
theorem create_agree {sealed : Bytes} (hv : s₁.view i.text = s₂.view i.text)
    (hd : sealed ≠ [] → sealed ∈ D) :
    Agree i.text (create sha256 i owner sealed s₁) (create sha256 i owner sealed s₂) := by
  have hins := view_inserted_congr h₁ h₂ hnew₁ hnew₂ hv owner
  have hput : ∀ s : ContextStore, Backed sha256 D s → s.contexts[i.text]? = none → sealed ≠ [] →
      putBlob sha256 sealed (s.inserted i owner) =
        .ok ((sha256 sealed).toHexText, (s.inserted i owner).stored sha256 sealed) :=
    fun s hs hnew hne =>
      putBlob_ok (insertContext_kept hs.intact (insertContext_ok hnew owner)).intact hD (hd hne)
  unfold create
  rw [insertContext_ok hnew₁, insertContext_ok hnew₂]
  split
  · exact rfl
  dsimp only [bind, Except.bind]
  split
  · exact ⟨rfl, hins⟩
  next hne =>
    rw [hput s₁ h₁ hnew₁ hne, hput s₂ h₂ hnew₂ hne]
    exact ⟨rfl, view_withPages_congr (view_stored_congr hins _) _⟩

theorem forkTo_agree {parentOwner parentID childOwner key id : GoString}
    (hp : s₁.view parentID = s₂.view parentID) (hid : s₁.view id = s₂.view id)
    (hcases : id = parentID ∨ id = i.text) :
    Agree id (forkTo sha256 i parentOwner parentID childOwner key s₁)
      (forkTo sha256 i parentOwner parentID childOwner key s₂) := by
  cases hb : isBlank childOwner with
  | true =>
    simp only [forkTo, hb]
    exact rfl
  | false =>
    have hl : s₁.layout parentID = s₂.layout parentID := congrArg View.layout hp
    cases hl₂ : s₂.layout parentID with
    | none =>
      unfold forkTo
      rw [if_neg (by simp [hb]), if_neg (by simp [hb])]
      exact mutate_agree hp hid fun l _ h => absurd (hl₂.symm.trans h) (by simp)
    | some l =>
      have hl₁ := hl.trans hl₂
      have hne : i.text ≠ parentID := by
        rintro rfl
        simp [layout, hnew₂] at hl₂
      rw [forkTo_eq hl₁ hnew₁ hb, forkTo_eq hl₂ hnew₂ hb]
      refine mutate_agree hp hid fun _ _ _ => ⟨rfl, ?_⟩
      rcases hcases with rfl | rfl
      · rw [forked, forked, view_withPages_ne hne, view_withPages_ne hne]
        refine view_withPages_congr (view_setTail_congr ?_ none) l.refs
        rw [view_inserted_ne hne, view_inserted_ne hne, hid]
      · refine view_withPages_congr ?_ l.refs
        rw [view_withPages_ne hne.symm, view_withPages_ne hne.symm, view_setTail_ne hne.symm,
          view_setTail_ne hne.symm]
        exact view_inserted_congr h₁ h₂ hnew₁ hnew₂ hid childOwner

end Makes

theorem exec_agree (hD : Set.InjOn sha256 D) (hlen : ∀ d ∈ D, d.length < 2 ^ 63)
    (h₁ : Backed sha256 D s₁) (h₂ : Backed sha256 D s₂) (hv : s₁.view id = s₂.view id)
    (htarget : c.target = some id)
    (hnew : ∀ x ∈ c.drawn, s₁.contexts[x.text]? = none ∧ s₂.contexts[x.text]? = none)
    (hd₁ : ∀ d ∈ c.hashed sha256 s₁, d ∈ D) (hd₂ : ∀ d ∈ c.hashed sha256 s₂, d ∈ D) :
    Agree id (c.exec sha256 s₁) (c.exec sha256 s₂) := by
  cases c with
  | create => cases htarget
  | append owner i key data =>
    cases htarget
    exact append_agree hD h₁ h₂ hv (hd₁ _ (by simp [ContextCall.hashed]))
      (hd₂ _ (by simp [ContextCall.hashed])) owner key
  | forkTo child owner i childOwner key =>
    cases htarget
    obtain ⟨hnew₁, hnew₂⟩ := hnew child rfl
    exact forkTo_agree h₁ h₂ hnew₁ hnew₂ hv hv (.inl rfl)
  | checkpoint owner i key =>
    cases htarget
    exact checkpoint_agree hD h₁ h₂ hv hd₁ hd₂
  | restore owner i key handle =>
    cases htarget
    exact restore_agree hD h₁ h₂ hv hlen owner key handle
  | commitArtifact owner i key data =>
    cases htarget
    exact commitArtifact_agree hD h₁ h₂ hv (hd₁ data (by simp [ContextCall.hashed])) owner key

theorem attempt_congr (h : Agree id (c.exec sha256 s₁) (c.exec sha256 s₂))
    (hv : s₁.view id = s₂.view id) :
    (c.attempt sha256 s₁).view id = (c.attempt sha256 s₂).view id := by
  unfold ContextCall.attempt
  cases he₁ : c.exec sha256 s₁ with
  | error e =>
    cases he₂ : c.exec sha256 s₂ with
    | error e' => exact hv
    | ok y =>
      rw [he₁, he₂] at h
      exact h.elim
  | ok x =>
    cases he₂ : c.exec sha256 s₂ with
    | error e' =>
      rw [he₁, he₂] at h
      exact h.elim
    | ok y =>
      rw [he₁, he₂] at h
      exact h.2

theorem attempt_absent (hl : s.layout id = none) (htarget : c.target = some id) :
    c.attempt sha256 s = s := by
  obtain ⟨⟨i, key⟩, hslot, hi⟩ := map_eq_some_iff.mp htarget
  cases hi
  unfold ContextCall.attempt
  split
  next r t h =>
    obtain ⟨-, -, -, -, -, -, ⟨row, hrow, -⟩, -⟩ := exec_keyed hslot h
    cases hl.symm.trans (layout_of_row hrow)
  · rfl

end ContextStore

end Aok.Runtime
