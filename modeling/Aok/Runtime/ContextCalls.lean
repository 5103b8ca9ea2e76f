import Aok.Lib.Addressed
import Aok.Lib.Command
import Aok.Runtime.ContextStore

/-!
# Calls on the context store

The calls that change the store, and what each of them writes when it succeeds. All that is
said about calls later is read off this.
-/

namespace Aok.Runtime
open Lib Lib.Utf8 Lib.JsonText Lib.Command List Option

variable {hash : HexText} {data : Bytes} {owner key : GoString}

def ContextStore.tailData (s : ContextStore) (id : GoString) : Bytes :=
  (s.tailOf id).toList.flatMap fun h => (s.blobs[h.text]?).getD []

inductive ContextCall where
  | create (id : HexText) (owner : GoString) (sealed : Bytes)
  | append (owner id key : GoString) (data : Bytes)
  | forkTo (child : HexText) (parentOwner parentID childOwner key : GoString)
  | checkpoint (owner id key : GoString)
  | restore (owner id key handle : GoString)
  | commitArtifact (owner id key : GoString) (data : Bytes)
deriving DecidableEq

namespace ContextCall

def exec (sha256 : Bytes → Digest) : ContextCall → ContextStore → Except Err (HexText × ContextStore)
  | .create id owner sealed => ContextStore.create sha256 id owner sealed
  | .append owner id key data => ContextStore.append sha256 owner id key data
  | .forkTo child parentOwner parentID childOwner key =>
    ContextStore.forkTo sha256 child parentOwner parentID childOwner key
  | .checkpoint owner id key => ContextStore.checkpoint sha256 owner id key
  | .restore owner id key handle => ContextStore.restore sha256 owner id key handle
  | .commitArtifact owner id key data => ContextStore.commitArtifact sha256 owner id key data

def slot : ContextCall → Option (GoString × GoString)
  | .create .. => none
  | .append _ id key _ | .forkTo _ _ id _ key | .checkpoint _ id key | .restore _ id key _
  | .commitArtifact _ id key _ => some (id, key)

def caller : ContextCall → GoString
  | .create _ owner _ | .append owner _ _ _ | .forkTo _ owner _ _ _ | .checkpoint owner _ _
  | .restore owner _ _ _ | .commitArtifact owner _ _ _ => owner

def childOwner : ContextCall → Option GoString
  | .forkTo _ _ _ childOwner _ => some childOwner
  | _ => none

def drawn : ContextCall → Option HexText
  | .create id _ _ => some id
  | .forkTo child _ _ _ _ => some child
  | _ => none

/-- What `mutate` binds to the key of the call. -/
def input : ContextCall → Option (OperationKind × Bytes)
  | .create .. => none
  | .append _ _ _ data => some (.append, data)
  | .forkTo .. => some (.fork, [])
  | .checkpoint .. => some (.checkpoint, [])
  | .restore _ _ _ handle => some (.restore, handle)
  | .commitArtifact _ _ _ data => some (.artifact, data)

/-- The text whose hash `mutate` binds to the key. -/
def digestText (kind : OperationKind) (input : Bytes) : Bytes := lit kind.text ++ 0x00 :: input

def row (sha256 : Bytes → Digest) (r : HexText) (c : ContextCall) : Option OperationRow :=
  c.slot.bind fun x => c.input.map fun y =>
    ⟨x.1, x.2, (sha256 (digestText y.1 y.2)).toHexText, r⟩

theorem row_eq_some {sha256 : Bytes → Digest} {r : HexText} {c : ContextCall} {o : OperationRow}
    (h : c.row sha256 r = some o) : ∃ kind input, c.slot = some (o.contextID, o.key) ∧
      c.input = some (kind, input) ∧ o.digest = (sha256 (digestText kind input)).toHexText ∧
      o.result = r := by
  obtain ⟨⟨id, key⟩, hslot, h⟩ := Option.bind_eq_some_iff.mp h
  obtain ⟨⟨kind, input⟩, hinput, rfl⟩ := Option.map_eq_some_iff.mp h
  exact ⟨kind, input, hslot, hinput, rfl, rfl⟩

end ContextCall

namespace ContextStore
variable {sha256 : Bytes → Digest} {s t u : ContextStore} {c : ContextCall} {r : HexText}
  {id : GoString}

/-! ## Parts of calls -/

theorem blob_eq_ok (h : s.blob sha256 hash = .ok data) :
    s.blobs[hash.text]? = some data := by
  unfold blob at h
  split at h
  · cases h
  next x hx =>
    split_ifs at h
    cases h
    exact hx

theorem putBlob_eq_ok (h : putBlob sha256 data s = .ok (hash, t)) :
    hash = (sha256 data).toHexText ∧
      t = { s with blobs := s.blobs.insertNew (sha256 data).text data } := by
  unfold putBlob at h
  dsimp only at h
  split at h
  · cases h
    refine ⟨rfl, ?_⟩
    unfold Table.insertNew
    split_ifs <;> rfl
  · cases h

theorem insertContext_eq_ok {i : HexText} (h : insertContext i owner s = .ok t) :
    s.contexts[i.text]? = none ∧
      t = { s with contexts := s.contexts.insert i.text ⟨owner, none⟩ } := by
  unfold insertContext at h
  split_ifs at h with hi
  cases h
  exact ⟨by simpa using hi, rfl⟩

theorem mutate_eq_ok {kind : OperationKind} {input : Bytes} {r : HexText}
    {fn : ContextStore → Except Err (HexText × ContextStore)}
    (h : mutate sha256 owner id key kind input fn s = .ok (r, t)) :
    (key ≠ [] ∧ key.length ≤ 1024) ∧
      (∃ row, s.contexts[id]? = some row ∧ row.owner = owner ∧ owner ≠ []) ∧
      ((t = s ∧ ∃ o ∈ s.operations, o.contextID = id ∧ o.key = key ∧ o.result = r ∧
          o.digest = (sha256 (ContextCall.digestText kind input)).toHexText) ∨
        (¬ ∃ o ∈ s.operations, o.contextID = id ∧ o.key = key) ∧
          ∃ u, fn s = .ok (r, u) ∧ t = { u with
            operations := u.operations ++
              [⟨id, key, (sha256 (ContextCall.digestText kind input)).toHexText, r⟩]
            commits := u.commits ++ [⟨u.commits.length + 1, id, kind, r, key⟩] }) := by
  unfold mutate at h
  split_ifs at h with hkey
  push Not at hkey
  obtain ⟨_, hauth, h⟩ := bind_eq_ok.mp h
  have hrow : ∃ row, s.contexts[id]? = some row ∧ row.owner = owner ∧ owner ≠ [] := by
    unfold authorize at hauth
    split at hauth
    next row hrow =>
      split_ifs at hauth with ho
      exact ⟨row, hrow, ho.2, ho.1⟩
    · cases hauth
  refine ⟨hkey, hrow, ?_⟩
  dsimp only at h
  split at h
  next o ho =>
    split_ifs at h with hd
    cases h
    have hkey := find?_some ho
    simp only [decide_eq_true_eq] at hkey
    exact .inl ⟨rfl, o, mem_of_find?_eq_some ho, hkey.1, hkey.2, rfl, hd⟩
  next hnone =>
    obtain ⟨⟨x, u⟩, hu, h⟩ := bind_eq_ok.mp h
    cases h
    refine .inr ⟨?_, u, hu, rfl⟩
    rintro ⟨o, ho, hid, hkey⟩
    have := find?_eq_none.mp hnone o ho
    simp [hid, hkey] at this

theorem checkPage_stored {p : ContextPage} {h : HexText} (hp : s.checkPage sha256 p = .ok h) :
    (s.blobs[h.text]?).isSome := by
  unfold checkPage at hp
  split at hp
  · cases hp
  next data hdata =>
    split_ifs at hp with hc
    cases hp
    rw [hc.1, hdata]
    rfl

theorem mem_of_mapM {α β ε : Type} {f : α → Except ε β} {l : List α} {l' : List β}
    (h : l.mapM f = .ok l') {y : β} (hy : y ∈ l') : ∃ x ∈ l, f x = .ok y := by
  induction l generalizing l' with
  | nil =>
    cases h
    cases hy
  | cons x l ih =>
    rw [mapM_cons] at h
    obtain ⟨z, hz, h⟩ := bind_eq_ok.mp h
    obtain ⟨zs, hzs, h⟩ := bind_eq_ok.mp h
    cases h
    rcases mem_cons.mp hy with rfl | hy
    · exact ⟨x, mem_cons_self, hz⟩
    · obtain ⟨x', hx', hf⟩ := ih hzs hy
      exact ⟨x', mem_cons_of_mem _ hx', hf⟩

/-! ## What calls write -/

/-- What `create` writes, and what the function writes that another call hands to `mutate`. -/
inductive Written (sha256 : Bytes → Digest) (s : ContextStore) :
    ContextCall → HexText → ContextStore → Prop
  | empty {i : HexText} {owner : GoString} {u : ContextStore}
      (h : insertContext i owner s = .ok u) : Written sha256 s (.create i owner []) i u
  | create {i hash : HexText} {owner : GoString} {sealed : Bytes} {u v : ContextStore}
      (hne : sealed ≠ []) (h : insertContext i owner s = .ok u)
      (hv : putBlob sha256 sealed u = .ok (hash, v)) :
    Written sha256 s (.create i owner sealed) i { v with pages := v.pages.insert i.text [hash] }
  | append {owner id key : GoString} {data : Bytes} {r : HexText} {u : ContextStore}
      (h : putBlob sha256 (s.tailData id ++ data) s = .ok (r, u)) :
    Written sha256 s (.append owner id key data) r (u.setTail id (some r))
  | fork {child : HexText} {owner id childOwner key : GoString} {u : ContextStore}
      {pages : List HexText} (h : insertContext child childOwner s = .ok u)
      (hp : pages = u.pagesOf id ++ (u.tailOf id).toList) :
    Written sha256 s (.forkTo child owner id childOwner key) child { u.setTail id none with
      pages := ((u.setTail id none).pages.insert id pages).insert child.text pages }
  | checkpoint {owner id key : GoString} {data : Bytes} {r : HexText} {u : ContextStore}
      (hd : s.snapshotText sha256 id = .ok data) (h : putBlob sha256 data s = .ok (r, u)) :
    Written sha256 s (.checkpoint owner id key) r (u.grant id r .checkpoint)
  | restore {owner id key handle : GoString} {r : HexText} {pages : List HexText}
      {tail : Option HexText} (hp : ∀ h ∈ pages, (s.blobs[h.text]?).isSome)
      (ht : ∀ h ∈ tail, (s.blobs[h.text]?).isSome) :
    Written sha256 s (.restore owner id key handle) r
      ({ s with pages := s.pages.insert id pages }.setTail id tail)
  | artifact {owner id key : GoString} {data : Bytes} {r : HexText} {u : ContextStore}
      (h : putBlob sha256 data s = .ok (r, u)) :
    Written sha256 s (.commitArtifact owner id key data) r (u.grant id r .artifact)

theorem exec_mutates (hslot : c.slot = some (id, key))
    (hb : ∀ o ∈ c.childOwner, isBlank o = false) :
    ∃ kind input fn, c.input = some (kind, input) ∧
      c.exec sha256 = mutate sha256 c.caller id key kind input fn ∧
      ∀ s r u, fn s = .ok (r, u) → Written sha256 s c r u := by
  cases c with
  | create => cases hslot
  | append owner i k data =>
    cases hslot
    refine ⟨.append, data, _, rfl, rfl, fun s r u hu => ?_⟩
    have hrest : ∀ previous : Bytes, previous = s.tailData id →
        (putBlob sha256 (previous ++ data) s >>= fun x =>
          pure (x.1, x.2.setTail id (some x.1))) = Except.ok (r, u) →
        Written sha256 s (.append owner id key data) r u := by
      rintro _ rfl hu
      obtain ⟨⟨hash, v⟩, hv, hu⟩ := bind_eq_ok.mp hu
      cases hu
      exact .append hv
    dsimp only at hu
    split at hu
    next tail ht =>
      obtain ⟨previous, hp, hu⟩ := bind_eq_ok.mp hu
      exact hrest previous (by simp [tailData, ht, blob_eq_ok hp]) hu
    next ht => exact hrest [] (by simp [tailData, ht]) hu
  | forkTo child owner i childOwner k =>
    cases hslot
    refine ⟨.fork, [], _, rfl, funext fun s => if_neg (by simp [hb childOwner rfl]),
      fun s r u hu => ?_⟩
    obtain ⟨v, hv, hu⟩ := bind_eq_ok.mp hu
    cases hu
    exact .fork hv rfl
  | checkpoint owner i k =>
    cases hslot
    refine ⟨.checkpoint, [], _, rfl, rfl, fun s r u hu => ?_⟩
    obtain ⟨data, hdata, hu⟩ := bind_eq_ok.mp hu
    obtain ⟨⟨hash, v⟩, hv, hu⟩ := bind_eq_ok.mp hu
    cases hu
    exact .checkpoint hdata hv
  | restore owner i k handle =>
    cases hslot
    refine ⟨.restore, handle, _, rfl, rfl, fun s r u hu => ?_⟩
    dsimp only at hu
    split at hu
    · cases hu
    obtain ⟨data, -, hu⟩ := bind_eq_ok.mp hu
    split at hu
    · cases hu
    split_ifs at hu
    obtain ⟨pages, hpages, hu⟩ := bind_eq_ok.mp hu
    have hp : ∀ h ∈ pages, (s.blobs[h.text]?).isSome := fun h hh => by
      obtain ⟨p, -, hp⟩ := mem_of_mapM hpages hh
      exact checkPage_stored hp
    split at hu
    next p _ =>
      obtain ⟨tail, ht, hu⟩ := bind_eq_ok.mp hu
      cases hu
      refine .restore hp fun h hh => ?_
      cases hc : s.checkPage sha256 p with
      | error e =>
        rw [hc] at ht
        cases ht
      | ok x =>
        rw [hc] at ht
        cases ht
        cases hh
        exact checkPage_stored hc
    · cases hu
      exact .restore hp (by simp)
  | commitArtifact owner i k data =>
    cases hslot
    refine ⟨.artifact, data, _, rfl, rfl, fun s r u hu => ?_⟩
    obtain ⟨⟨hash, v⟩, hv, hu⟩ := bind_eq_ok.mp hu
    cases hu
    exact .artifact hv

theorem childOwner_of_ok (h : c.exec sha256 s = .ok (r, t)) :
    ∀ o ∈ c.childOwner, isBlank o = false := by
  intro o ho
  cases c with
  | forkTo child owner i childOwner k =>
    cases ho
    by_contra hb
    rw [Bool.not_eq_false] at hb
    simp [ContextCall.exec, forkTo, hb] at h
  | _ => cases ho

theorem exec_keyed (hslot : c.slot = some (id, key)) (h : c.exec sha256 s = .ok (r, t)) :
    ∃ kind input o, c.input = some (kind, input) ∧ c.row sha256 r = some o ∧
      (key ≠ [] ∧ key.length ≤ 1024) ∧
      (∃ row, s.contexts[id]? = some row ∧ row.owner = c.caller ∧ c.caller ≠ []) ∧
      ((t = s ∧ o ∈ s.operations) ∨
        (¬ ∃ o ∈ s.operations, o.contextID = id ∧ o.key = key) ∧
          ∃ u, Written sha256 s c r u ∧ t = { u with
            operations := u.operations ++ [o]
            commits := u.commits ++ [⟨u.commits.length + 1, id, kind, r, key⟩] }) := by
  obtain ⟨kind, input, fn, hinput, hexec, hfn⟩ := exec_mutates hslot (childOwner_of_ok h)
  rw [hexec] at h
  obtain ⟨hkey, hrow, hcases⟩ := mutate_eq_ok h
  have ho : c.row sha256 r =
      some ⟨id, key, (sha256 (ContextCall.digestText kind input)).toHexText, r⟩ := by
    simp [ContextCall.row, hslot, hinput]
  refine ⟨kind, input, _, hinput, ho, hkey, hrow, ?_⟩
  rcases hcases with ⟨rfl, o, hmem, rfl, rfl, rfl, hd⟩ | ⟨hnew, u, hu, rfl⟩
  · exact .inl ⟨rfl, hd ▸ hmem⟩
  · exact .inr ⟨hnew, u, hfn s r u hu, rfl⟩

theorem exec_unkeyed (hslot : c.slot = none) (h : c.exec sha256 s = .ok (r, t)) :
    Written sha256 s c r t := by
  cases c with
  | create i owner sealed =>
    change create sha256 i owner sealed s = _ at h
    unfold create at h
    split at h
    · cases h
    obtain ⟨u, hu, h⟩ := bind_eq_ok.mp h
    split at h
    next hsealed =>
      cases h
      subst hsealed
      exact .empty hu
    next hsealed =>
      obtain ⟨⟨hash, v⟩, hv, h⟩ := bind_eq_ok.mp h
      cases h
      exact .create hsealed hu hv
  | _ => cases hslot

/-! ## Owners -/

def ownerOf (s : ContextStore) (id : GoString) : Option GoString :=
  (s.contexts[id]?).map ContextRow.owner

def Grows (s t : ContextStore) : Prop :=
  ∀ id, s.ownerOf id ≠ none → t.ownerOf id = s.ownerOf id

theorem Grows.refl (s : ContextStore) : Grows s s := fun _ _ => rfl

theorem Grows.of_contexts (h : t.contexts = s.contexts) : Grows s t := fun id _ => by
  rw [ownerOf, ownerOf, h]

theorem Grows.trans (h : Grows s t) (k : Grows t u) : Grows s u := by
  intro id hid
  have ht := h id hid
  exact (k id (ht ▸ hid)).trans ht

theorem setTail_grows (id : GoString) (tail : Option HexText) (s : ContextStore) :
    Grows s (s.setTail id tail) := by
  unfold setTail
  split
  next row hrow =>
    intro i _
    simp only [ownerOf, Table.get_insert]
    split_ifs with hi
    · rw [← hi, hrow]
      rfl
    · rfl
  · exact .refl s

theorem grant_contexts (id : GoString) (hash : HexText) (kind : OperationKind) (s : ContextStore) :
    (s.grant id hash kind).contexts = s.contexts := by
  unfold grant
  split_ifs <;> rfl

theorem insertContext_grows {i : HexText} (h : insertContext i owner s = .ok t) : Grows s t := by
  obtain ⟨hnew, rfl⟩ := insertContext_eq_ok h
  intro j hj
  have hne : i.text ≠ j := by
    rintro rfl
    simp [ownerOf, hnew] at hj
  simp only [ownerOf, Table.get_insert_ne _ _ hne]

theorem putBlob_contexts (h : putBlob sha256 data s = .ok (hash, t)) : t.contexts = s.contexts := by
  obtain ⟨-, rfl⟩ := putBlob_eq_ok h
  rfl

theorem Written.grows (h : Written sha256 s c r u) : Grows s u := by
  cases h with
  | empty h => exact insertContext_grows h
  | create _ h hv =>
    have hv := putBlob_contexts hv
    exact (insertContext_grows h).trans (.of_contexts hv)
  | append h => exact (Grows.of_contexts (putBlob_contexts h)).trans (setTail_grows _ _ _)
  | fork h =>
    exact (insertContext_grows h).trans ((setTail_grows _ none _).trans (.of_contexts rfl))
  | checkpoint _ h | artifact h =>
    exact .of_contexts ((grant_contexts _ _ _ _).trans (putBlob_contexts h))
  | restore =>
    refine Grows.trans ?_ (setTail_grows _ _ _)
    exact .of_contexts rfl

theorem exec_grows (h : c.exec sha256 s = .ok (r, t)) : Grows s t := by
  cases hslot : c.slot with
  | none => exact (exec_unkeyed hslot h).grows
  | some x =>
    obtain ⟨_, _, _, _, _, _, _, ⟨rfl, _⟩ | ⟨_, u, hu, rfl⟩⟩ := exec_keyed hslot h
    · exact .refl t
    · exact hu.grows

end ContextStore
end Aok.Runtime
