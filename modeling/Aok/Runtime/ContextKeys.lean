import Aok.Runtime.Contents

/-!
# Idempotency keys

The table of operations is a record of the calls that succeeded: for every key that was used
in a context there is one row, with the hash of what the first call under it asked for and
with its result. What a later call under the key gets is read off that row.
-/

namespace Aok.Runtime
open Lib Lib.Utf8 Lib.JsonText Lib.JsonValue Lib.Command List

variable {kind : OperationKind} {owner : GoString}

/-! ## What a call asks for -/

namespace ContextCall

def request : ContextCall → ContextCall
  | .create _ owner sealed => .create (hexEncode []) owner sealed
  | .forkTo _ parentOwner parentID childOwner key =>
    .forkTo (hexEncode []) parentOwner parentID childOwner key
  | c => c

theorem takeWhile_digestText (kind : OperationKind) (input : Bytes) :
    (digestText kind input).takeWhile (· != 0) = lit kind.text := by
  have hne : ∀ b ∈ lit kind.text, (b != 0) = true := by
    cases kind <;> decide +kernel
  rw [digestText, takeWhile_append_of_pos hne]
  simp

theorem digestText_inj {k k' : OperationKind} {i i' : Bytes} (h : digestText k i = digestText k' i') :
    k = k' ∧ i = i' := by
  have htext : lit k.text = lit k'.text := by
    rw [← takeWhile_digestText k i, h, takeWhile_digestText]
  have hk : k = k' := by
    revert htext
    cases k <;> cases k' <;> decide
  subst hk
  exact ⟨rfl, (List.cons.inj (append_cancel_left h)).2⟩

end ContextCall

namespace ContextStore
variable {sha256 : Bytes → Digest} {D : Set Bytes} {s t u : ContextStore} {c : ContextCall}
  {r : HexText} {id key : GoString}

/-! ## Calls with a key -/

/-- What the function of a mutation writes beside the context it is for. -/
structure Touches (id : GoString) (drawn : Option HexText) (kind : OperationKind) (s : ContextStore)
    (r : HexText) (u : ContextStore) : Prop where
  operations : u.operations = s.operations
  commits : u.commits = s.commits
  grants : u.grants = s.grants ∨
    u.grants = s.grants ++ [(id, r, kind)] ∧ (u.blobs[r.text]?).isSome
  layout : ∀ i ≠ id, (∀ x ∈ drawn, x.text ≠ i) → u.layout i = s.layout i

theorem setTail_touches (tail : Option HexText) :
    Touches id none kind s r (s.setTail id tail) := by
  have hlayout : ∀ i ≠ id, (s.setTail id tail).layout i = s.layout i := fun i hi => by
    rw [layout_setTail, Function.update_of_ne hi]
  refine ⟨?_, ?_, .inl ?_, fun i hi _ => hlayout i hi⟩ <;> unfold setTail <;> split <;> rfl

theorem Touches.putBlob {data : Bytes} {hash : HexText}
    (h : putBlob sha256 data s = .ok (hash, t)) (ht : Touches id none kind t r u) :
    Touches id none kind s r u := by
  obtain ⟨-, rfl⟩ := putBlob_eq_ok h
  exact ⟨ht.operations, ht.commits, ht.grants, ht.layout⟩

theorem putBlob_stored {data : Bytes} (h : putBlob sha256 data s = .ok (r, t)) :
    (t.blobs[r.text]?).isSome := by
  obtain ⟨rfl, rfl⟩ := putBlob_eq_ok h
  rw [Table.get_insertNew]
  split_ifs with hnew
  · rfl
  · cases hget : s.blobs[(sha256 data).text]? with
    | none => exact absurd ⟨rfl, hget⟩ hnew
    | some d => rfl

theorem grant_touches {data : Bytes} (h : putBlob sha256 data s = .ok (r, t)) (kind : OperationKind) :
    Touches id none kind s r (t.grant id r kind) := by
  have hstored := putBlob_stored h
  have ht : Touches id none kind t r (t.grant id r kind) := by
    unfold grant
    split_ifs
    · exact ⟨rfl, rfl, .inl rfl, fun _ _ _ => rfl⟩
    · exact ⟨rfl, rfl, .inr ⟨rfl, hstored⟩, fun _ _ _ => rfl⟩
  exact ht.putBlob h

theorem fork_touches {child : HexText} {pages : List HexText}
    (h : insertContext child owner s = .ok t) :
    Touches id (some child) kind s r { t.setTail id none with
      pages := ((t.setTail id none).pages.insert id pages).insert child.text pages } := by
  have hsame : (t.setTail id none).grants = t.grants := by
    unfold setTail
    split <;> rfl
  have ht : Touches id none kind t r (t.setTail id none) := setTail_touches none
  have hlayout : ∀ i ≠ id, child.text ≠ i → { t.setTail id none with
      pages := ((t.setTail id none).pages.insert id pages).insert child.text pages }.layout i =
      s.layout i := by
    intro i hi hc
    have h₁ := congrFun (layout_setPages child.text pages { t.setTail id none with
      pages := (t.setTail id none).pages.insert id pages }) i
    have h₂ := congrFun (layout_setPages id pages (t.setTail id none)) i
    rw [Function.update_of_ne hc.symm] at h₁
    rw [Function.update_of_ne hi] at h₂
    rw [h₁, h₂, ht.layout i hi (by simp)]
    obtain ⟨-, rfl⟩ := insertContext_eq_ok h
    simp [layout, pagesOf, Table.get_insert_ne _ _ hc]
  obtain ⟨-, rfl⟩ := insertContext_eq_ok h
  exact ⟨ht.operations, ht.commits, .inl hsame, fun i hi hc => hlayout i hi (hc child rfl)⟩

theorem reset_touches {pages : List HexText} {tail : Option HexText} :
    Touches id none kind s r ({ s with pages := s.pages.insert id pages }.setTail id tail) := by
  have ht : Touches id none kind { s with pages := s.pages.insert id pages } r
    ({ s with pages := s.pages.insert id pages }.setTail id tail) := setTail_touches tail
  refine ⟨ht.operations, ht.commits, ht.grants, fun i hi hx => ?_⟩
  rw [ht.layout i hi hx, layout_setPages, Function.update_of_ne hi]

theorem Written.touches {input : Bytes} (h : Written sha256 s c r u)
    (hslot : c.slot = some (id, key)) (hinput : c.input = some (kind, input)) :
    Touches id c.drawn kind s r u := by
  cases h with
  | empty | create => cases hslot
  | append h =>
    cases hslot
    exact (setTail_touches _).putBlob h
  | fork h =>
    cases hslot
    exact fork_touches h
  | checkpoint _ h | artifact h =>
    cases hslot
    cases hinput
    exact grant_touches h _
  | restore =>
    cases hslot
    exact reset_touches

theorem Touches.mem_grants {drawn : Option HexText} {g : GoString × HexText × OperationKind}
    (h : Touches id drawn kind s r u) (hg : g ∈ u.grants) :
    g ∈ s.grants ∨ g = (id, r, kind) ∧ (u.blobs[r.text]?).isSome := by
  rcases h.grants with heq | ⟨heq, hstored⟩
  · exact .inl (heq ▸ hg)
  · rw [heq, mem_append, mem_singleton] at hg
    exact hg.imp_right fun hg => ⟨hg, hstored⟩

/-- The calls of a list and the rows of the table belong together. -/
structure Bound (sha256 : Bytes → Digest) (D : Set Bytes) (l : List (ContextCall × HexText))
    (s : ContextStore) : Prop where
  unique : ∀ o ∈ s.operations, ∀ o' ∈ s.operations,
    o.contextID = o'.contextID → o.key = o'.key → o = o'
  calls : ∀ o ∈ s.operations, ∃ x ∈ l, x.1.row sha256 x.2 = some o
  rows : ∀ x ∈ l, ∀ o, x.1.row sha256 x.2 = some o → o ∈ s.operations
  texts : ∀ x ∈ l, ∀ kind input, x.1.input = some (kind, input) →
    ContextCall.digestText kind input ∈ D
  keys : ∀ x ∈ l, ∀ id key, x.1.slot = some (id, key) → (key ≠ [] ∧ key.length ≤ 1024) ∧
    ∃ l, s.layout id = some l ∧ l.owner = x.1.caller ∧ x.1.caller ≠ []

theorem bound_empty : Bound sha256 D [] empty := by
  refine ⟨?_, ?_, ?_, ?_, ?_⟩ <;> simp [empty]

theorem input_of_slot (h : c.slot ≠ none) : ∃ kind input, c.input = some (kind, input) := by
  cases c with
  | create => exact absurd rfl h
  | _ => exact ⟨_, _, rfl⟩

theorem digestText_mem (hd : ∀ d ∈ c.hashed sha256 s, d ∈ D) (kind : OperationKind) (input : Bytes)
    (h : c.input = some (kind, input)) : ContextCall.digestText kind input ∈ D := by
  cases c <;> cases h <;> exact hd _ (by simp [ContextCall.hashed])

theorem Written.unkeyed (h : Written sha256 s c r t) (hslot : c.slot = none) :
    t.operations = s.operations ∧ t.grants = s.grants ∧ t.commits = s.commits := by
  cases h with
  | empty h =>
    obtain ⟨-, rfl⟩ := insertContext_eq_ok h
    exact ⟨rfl, rfl, rfl⟩
  | create _ h hv =>
    obtain ⟨-, rfl⟩ := insertContext_eq_ok h
    obtain ⟨-, rfl⟩ := putBlob_eq_ok hv
    exact ⟨rfl, rfl, rfl⟩
  | _ => cases hslot

theorem Bound.step {l : List (ContextCall × HexText)} (hb : Bound sha256 D l s)
    (hk : Kept sha256 D s t) (hd : ∀ d ∈ c.hashed sha256 s, d ∈ D)
    (h : c.exec sha256 s = .ok (r, t)) : Bound sha256 D (l ++ [(c, r)]) t := by
  have hmem : ∀ {p : ContextCall × HexText → Prop}, (∀ x ∈ l, p x) → p (c, r) →
      ∀ x ∈ l ++ [(c, r)], p x := by
    intro p hold hnew x hx
    rcases mem_append.mp hx with hx | hx
    · exact hold x hx
    · rwa [mem_singleton.mp hx]
  have hkeys : ∀ x ∈ l, ∀ id key, x.1.slot = some (id, key) → (key ≠ [] ∧ key.length ≤ 1024) ∧
      ∃ l, t.layout id = some l ∧ l.owner = x.1.caller ∧ x.1.caller ≠ [] := by
    intro x hx id key hslot
    obtain ⟨hkey, l, hl, ho, hne⟩ := hb.keys x hx id key hslot
    obtain ⟨l', hl', ho'⟩ := hk.owners hl
    exact ⟨hkey, l', hl', ho'.trans ho, hne⟩
  cases hslot : c.slot with
  | none =>
    have hrow : c.row sha256 r = none := by simp [ContextCall.row, hslot]
    obtain ⟨hops, -⟩ := (exec_unkeyed hslot h).unkeyed hslot
    refine ⟨hops ▸ hb.unique, fun o ho => ?_, hmem (hops ▸ hb.rows) (by simp [hrow]),
      hmem hb.texts (digestText_mem hd), hmem hkeys (by simp [hslot])⟩
    obtain ⟨x, hx, ho⟩ := hb.calls o (hops ▸ ho)
    exact ⟨x, mem_append_left _ hx, ho⟩
  | some x =>
    obtain ⟨id, key⟩ := x
    obtain ⟨kind, input, o, hinput, ho, hkey, ⟨row, hrow, hown, hne⟩, hcases⟩ :=
      exec_keyed hslot h
    obtain ⟨l₁, hl₁, ho₁⟩ := hk.owners (layout_of_row hrow)
    have howns : ∀ i k, c.slot = some (i, k) → (k ≠ [] ∧ k.length ≤ 1024) ∧
        ∃ l, t.layout i = some l ∧ l.owner = c.caller ∧ c.caller ≠ [] := by
      intro i k hik
      cases hslot.symm.trans hik
      exact ⟨hkey, l₁, hl₁, ho₁.trans hown, hne⟩
    have hcalls : ∀ o ∈ s.operations, ∃ x ∈ l ++ [(c, r)], x.1.row sha256 x.2 = some o := by
      intro o ho
      obtain ⟨x, hx, ho⟩ := hb.calls o ho
      exact ⟨x, mem_append_left _ hx, ho⟩
    rcases hcases with ⟨rfl, hmemo⟩ | ⟨hnew, u, hu, ht⟩
    · refine ⟨hb.unique, hcalls, hmem hb.rows fun o' ho' => ?_, hmem hb.texts (digestText_mem hd),
        hmem hkeys howns⟩
      cases ho.symm.trans ho'
      exact hmemo
    · have hops : t.operations = s.operations ++ [o] := by
        rw [ht, (hu.touches hslot hinput).operations]
      obtain ⟨-, -, hoslot, -⟩ := ContextCall.row_eq_some ho
      have hid : id = o.contextID ∧ key = o.key := by simpa using hslot.symm.trans hoslot
      have hother : ∀ o' ∈ s.operations, o'.contextID = o.contextID → o'.key ≠ o.key :=
        fun o' ho' hi hk => hnew ⟨o', ho', hi.trans hid.1.symm, hk.trans hid.2.symm⟩
      refine ⟨?_, ?_, hmem (fun x hx o' ho' => ?_) fun o' ho' => ?_,
        hmem hb.texts (digestText_mem hd), hmem hkeys howns⟩
      · rw [hops]
        intro o₁ h₁ o₂ h₂ hi hk
        rw [mem_append, mem_singleton] at h₁ h₂
        rcases h₁ with h₁ | rfl <;> rcases h₂ with h₂ | rfl
        · exact hb.unique o₁ h₁ o₂ h₂ hi hk
        · exact absurd hk (hother o₁ h₁ hi)
        · exact absurd hk.symm (hother o₂ h₂ hi.symm)
        · rfl
      · rw [hops]
        intro o' ho'
        rcases mem_append.mp ho' with ho' | ho'
        · exact hcalls o' ho'
        · rw [mem_singleton.mp ho']
          exact ⟨(c, r), by simp, ho⟩
      · exact hops ▸ mem_append_left _ (hb.rows x hx o' ho')
      · cases Option.some.inj (ho.symm.trans ho')
        rw [hops]
        simp

theorem Bound.trace {l l' : List (ContextCall × HexText)} (hb : Bound sha256 D l s)
    (hs : Intact sha256 D s) (hD : Set.InjOn sha256 D) (h : ContextTrace sha256 D s l' t) :
    Bound sha256 D (l ++ l') t := by
  induction h generalizing l with
  | nil s => simpa using hb
  | cons hd hexec _ ih =>
    have hk := (exec_acts hs hD hd hexec).1
    simpa using ih (hb.step hk hd hexec) hk.intact

theorem mutate_bound {input : Bytes}
    {fn : ContextStore → Except Err (HexText × ContextStore)} {l : List (ContextCall × HexText)}
    (hb : Bound sha256 D l s) {o : OperationRow} (ho : o ∈ s.operations)
    (hkey : o.key ≠ [] ∧ o.key.length ≤ 1024) {lay : Layout}
    (hl : s.layout o.contextID = some lay) (hown : lay.owner = owner ∧ owner ≠ []) :
    mutate sha256 owner o.contextID o.key kind input fn s =
      if o.digest = (sha256 (ContextCall.digestText kind input)).toHexText then .ok (o.result, s)
      else .error .contextIdempotency := by
  obtain ⟨row, hrow, rfl⟩ := Option.map_eq_some_iff.mp hl
  have hauth : authorize s owner o.contextID = .ok () := by
    simp [authorize, hrow, hown.2, show row.owner = owner from hown.1]
  have hfind : s.operations.find? (fun o' => o'.contextID = o.contextID ∧ o'.key = o.key) = some o := by
    cases hf : s.operations.find? (fun o' => o'.contextID = o.contextID ∧ o'.key = o.key) with
    | none =>
      have := find?_eq_none.mp hf o ho
      simp at this
    | some o' =>
      have hp := find?_some hf
      simp only [decide_eq_true_eq] at hp
      rw [hb.unique o' (mem_of_find?_eq_some hf) o ho hp.1 hp.2]
  have hbound : ¬ (o.key = [] ∨ 1024 < o.key.length) := by
    rintro (h | h)
    · exact hkey.1 h
    · omega
  unfold mutate
  rw [if_neg hbound, hauth]
  simp only [bind, Except.bind, hfind]
  rfl

end ContextStore

/-! ## Calls under a used key -/

section Keys
open ContextStore
variable {sha256 : Bytes → Digest} {D : Set Bytes} {s : ContextStore} {c c' : ContextCall}
  {r : HexText} {l : List (ContextCall × HexText)}

/-- A fork under the key of a fork is for the same owner, and no fork is for a blank one. -/
def ContextCall.ForksAs (c' c : ContextCall) : Prop :=
  ∀ o ∈ c'.childOwner, isBlank o = false ∧ ∀ o' ∈ c.childOwner, o = o'

theorem ContextCall.input_request (h : c'.request = c.request) : c'.input = c.input := by
  cases c' <;> cases c <;> cases h <;> rfl

theorem ContextCall.input_ne (hslot : c'.slot = c.slot) (hkeyed : c.slot ≠ none)
    (hcaller : c'.caller = c.caller) (hf : c'.ForksAs c) (h : c'.request ≠ c.request) :
    c'.input ≠ c.input := by
  intro hi
  apply h
  cases c' <;> cases c <;> simp_all [slot, caller, input, request, ForksAs, childOwner]

theorem exec_bound (hD : Set.InjOn sha256 D) (hs : ContextTrace sha256 D .empty l s)
    (hc : (c, r) ∈ l) (hkeyed : c.slot ≠ none) (hslot : c'.slot = c.slot)
    (hcaller : c'.caller = c.caller) (hblank : ∀ o ∈ c'.childOwner, isBlank o = false)
    (hd : ∀ d ∈ c'.hashed sha256 s, d ∈ D) :
    (c'.input = c.input → c'.exec sha256 s = .ok (r, s)) ∧
      (c'.input ≠ c.input → c'.exec sha256 s = .error .contextIdempotency) := by
  have hb : Bound sha256 D l s := by simpa using bound_empty.trace intact_empty hD hs
  obtain ⟨⟨id, key⟩, hik⟩ := Option.ne_none_iff_exists'.mp hkeyed
  obtain ⟨hkey, lay, hl, hown⟩ := hb.keys _ hc id key hik
  obtain ⟨kind, input, fn, hinput, hexec, -⟩ := exec_mutates (hslot.trans hik) hblank
  obtain ⟨kind', input', hinput'⟩ := input_of_slot hkeyed
  have hmem := hb.rows _ hc
    ⟨id, key, (sha256 (ContextCall.digestText kind' input')).toHexText, r⟩
    (by simp [ContextCall.row, hik, hinput'])
  have hmut : c'.exec sha256 s = _ := (congrFun hexec s).trans
    (mutate_bound hb hmem hkey hl (hcaller ▸ hown))
  have hdigest : (sha256 (ContextCall.digestText kind' input')).toHexText =
      (sha256 (ContextCall.digestText kind input)).toHexText ↔ c'.input = c.input := by
    rw [hinput, hinput']
    refine ⟨fun h => ?_, fun h => by cases h; rfl⟩
    have htext := hD (hb.texts _ hc _ _ hinput') (digestText_mem hd _ _ hinput)
      (Digest.ext_text (congrArg HexText.text h))
    obtain ⟨rfl, rfl⟩ := ContextCall.digestText_inj htext
    rfl
  rw [hmut]
  exact ⟨fun h => if_pos (hdigest.mpr h), fun h => if_neg fun he => h (hdigest.mp he)⟩

/-- In every store that a run reaches, the repetition of a call with a key gives its result again,
another call of the same caller under the key is refused, as long as forks ask for the owner
they asked for before, and neither changes the store. -/
theorem key_binds (hD : Set.InjOn sha256 D) (hs : ContextTrace sha256 D .empty l s)
    (hc : (c, r) ∈ l) (hkeyed : c.slot ≠ none) (hslot : c'.slot = c.slot)
    (hcaller : c'.caller = c.caller) (hf : c'.ForksAs c) (hd : ∀ d ∈ c'.hashed sha256 s, d ∈ D) :
    (c'.request = c.request → c'.exec sha256 s = .ok (r, s)) ∧
      (c'.request ≠ c.request → c'.exec sha256 s = .error .contextIdempotency) := by
  obtain ⟨hsame, hother⟩ := exec_bound hD hs hc hkeyed hslot hcaller (fun o ho => (hf o ho).1) hd
  exact ⟨fun h => hsame (ContextCall.input_request h),
    fun h => hother (ContextCall.input_ne hslot hkeyed hcaller hf h)⟩

end Keys

namespace Sample

def first : ContextCall := .append (lit "o") parent.text (lit "a") [2]
def changed : ContextCall := .append (lit "o") parent.text (lit "a") [4]
def fork : ContextCall := .forkTo child (lit "o") parent.text (lit "p") (lit "f")
def forkElsewhere : ContextCall := .forkTo (hexEncode [0xCC]) (lit "o") parent.text (lit "q") (lit "f")

end Sample

open Sample

/-- An append under the key of another append is refused. -/
theorem key_binds_append : ∃ (l : List (ContextCall × HexText)) (s : ContextStore) (r : HexText),
    (first, r) ∈ l ∧ first.exec digest s = .ok (r, s) ∧
    changed.exec digest s = .error .contextIdempotency := by
  have hrun : ∃ x ∈ runCalls digest .empty forked,
      Distinct (x.2.1 ++ (first.hashed digest x.2.2 ++
        changed.hashed digest x.2.2)) ∧ ∃ y ∈ x.1, y.1 = first := by
    decide +kernel
  obtain ⟨⟨l, ds, s⟩, hs, hD, ⟨c, r⟩, hc, rfl⟩ := hrun
  have htrace := trace_of_runCalls (D := {d | d ∈ ds ++ (first.hashed digest s ++
    changed.hashed digest s)}) hs fun d hd => mem_append_left _ hd
  have hfirst : first.exec digest s = .ok (r, s) :=
    (key_binds hD.injOn htrace hc (by decide) rfl rfl (fun o ho => nomatch ho) fun d hd =>
      mem_append_right _ (mem_append_left _ hd)).1 rfl
  have hchanged : changed.exec digest s = .error .contextIdempotency :=
    (key_binds hD.injOn htrace hc (by decide) (show changed.slot = _ from rfl) rfl
      (fun o ho => nomatch ho) fun d hd =>
        mem_append_right _ (mem_append_right _ hd)).2 (by decide)
  exact ⟨l, s, r, hc, hfirst, hchanged⟩

/-- A fork for another owner under the key of a fork gives the context of the first owner. -/
theorem exists_fork_elsewhere : ∃ (D : Set Bytes) (l : List (ContextCall × HexText))
    (s t : ContextStore), Set.InjOn digest D ∧ ContextTrace digest D .empty l s ∧
    (fork, child) ∈ l ∧ forkElsewhere.request ≠ fork.request ∧
    forkElsewhere.exec digest s = .ok (child, t) := by
  have hrun : ∃ x ∈ runCalls digest .empty forked,
      ∃ y ∈ (forkElsewhere.exec digest x.2.2).toOption,
        Distinct x.2.1 ∧ (fork, child) ∈ x.1 ∧ y.1 = child := by
    decide +kernel
  obtain ⟨⟨l, ds, s⟩, hs, ⟨r, t⟩, ht, hD, hc, rfl⟩ := hrun
  exact ⟨{d | d ∈ ds}, l, s, t, hD.injOn, trace_of_runCalls hs fun d hd => hd, hc,
    by decide +kernel, ok_of_toOption ht⟩

end Aok.Runtime
