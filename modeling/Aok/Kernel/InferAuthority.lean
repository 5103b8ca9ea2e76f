import Aok.Kernel.InferBudget

/-!
# Authority of the inference device

A capability is narrower than its ancestors, what was revoked stays so, and the taint of a session
only grows. So the check at a leaf speaks for the whole path.
-/

namespace Aok.Kernel
open Lib Lib.Forest Lib.Mask Device

/-- The second policy has no right, export or budget that the first has not, and all its taint. -/
structure CapPolicy.Covers (p q : CapPolicy) : Prop where
  rights : Within q.rights p.rights
  taint : Within p.taint q.taint
  exportMask : Within q.exportMask p.exportMask
  tokenLimit : q.tokenLimit ≤ p.tokenLimit

theorem CapPolicy.Covers.refl (p : CapPolicy) : p.Covers p :=
  ⟨.refl _, .refl _, .refl _, UInt64.le_refl _⟩

theorem CapPolicy.Covers.trans {p q r : CapPolicy} (h : p.Covers q) (h' : q.Covers r) :
    p.Covers r :=
  ⟨h'.rights.trans h.rights, h.taint.trans h'.taint, h'.exportMask.trans h.exportMask,
    UInt64.le_trans h'.tokenLimit h.tokenLimit⟩

namespace Book

variable {b b' : Book}

/-! ## What stays -/

/-- Accounts keep their place, policy and revocation, sessions their capability and taint. -/
structure Extends (b b' : Book) : Prop where
  accounts : ∀ (c : ℕ) (x : Account), b.accounts[c]? = some x → ∃ x', b'.accounts[c]? = some x' ∧
    x'.parent = x.parent ∧ x'.policy = x.policy ∧ (x.revoked = true → x'.revoked = true)
  works : ∀ (i : ℕ) (w : Work), b.works[i]? = some w → ∃ w', b'.works[i]? = some w' ∧
    w'.cap = w.cap ∧ Within w.io.taint w'.io.taint

theorem Extends.refl (b : Book) : b.Extends b :=
  ⟨fun _ x hx => ⟨x, hx, rfl, rfl, id⟩, fun _ w hw => ⟨w, hw, rfl, .refl _⟩⟩

theorem Extends.trans {b'' : Book} (h : b.Extends b') (h' : b'.Extends b'') : b.Extends b'' := by
  constructor
  · intro c x hx
    obtain ⟨x', hx', hparent, hpolicy, hrevoked⟩ := h.accounts c x hx
    obtain ⟨x'', hx'', hparent', hpolicy', hrevoked'⟩ := h'.accounts c x' hx'
    exact ⟨x'', hx'', hparent'.trans hparent, hpolicy'.trans hpolicy,
      fun hr => hrevoked' (hrevoked hr)⟩
  · intro i w hw
    obtain ⟨w', hw', hcap, htaint⟩ := h.works i w hw
    obtain ⟨w'', hw'', hcap', htaint'⟩ := h'.works i w' hw'
    exact ⟨w'', hw'', hcap'.trans hcap, htaint.trans htaint'⟩

theorem extends_add (b : Book) (x : Account) : b.Extends (b.add x) := by
  refine ⟨fun c y hy => ⟨y, ?_, rfl, rfl, id⟩, fun _ w hw => ⟨w, hw, rfl, .refl _⟩⟩
  rw [add, List.getElem?_append_left (List.getElem?_eq_some_iff.mp hy).1, hy]

theorem extends_addWork (b : Book) (w : Work) : b.Extends (b.addWork w) := by
  refine ⟨fun c x hx => ⟨x, hx, rfl, rfl, id⟩, fun i v hv => ⟨v, ?_, rfl, .refl _⟩⟩
  rw [addWork, List.getElem?_append_left (List.getElem?_eq_some_iff.mp hv).1, hv]

theorem extends_revoke (b : Book) (c : ℕ) : b.Extends (b.revoke c) := by
  refine ⟨fun d x hx => ?_, fun _ w hw => ⟨w, hw, rfl, .refl _⟩⟩
  by_cases hd : c = d
  · exact ⟨{ x with revoked := true }, by simp [revoke, hd, hx], rfl, rfl, fun _ => rfl⟩
  · exact ⟨x, by simp [revoke, hd, hx], rfl, rfl, id⟩

theorem extends_onPath (b : Book) (c : ℕ) {f : Account → Account}
    (hf : ∀ x, (f x).parent = x.parent ∧ (f x).policy = x.policy ∧ (f x).revoked = x.revoked) :
    b.Extends (b.onPath c f) := by
  refine ⟨fun d x hx => ?_, fun _ w hw => ⟨w, hw, rfl, .refl _⟩⟩
  obtain ⟨hparent, hpolicy, hrevoked⟩ := hf x
  by_cases hd : d ∈ b.path c
  · exact ⟨f x, by simp [onPath, hx, hd], hparent, hpolicy, fun hr => hrevoked.trans hr⟩
  · exact ⟨x, by simp [onPath, hx, hd], rfl, rfl, id⟩

theorem extends_setWork {i : ℕ} {w : Work} (hi : b.works[i]? = some w) (w' : Work)
    (hcap : w'.cap = w.cap) (htaint : Within w.io.taint w'.io.taint) :
    b.Extends (b.setWork i w') := by
  refine ⟨fun c x hx => ⟨x, hx, rfl, rfl, id⟩, fun j v hv => ?_⟩
  by_cases hj : i = j
  · cases hi.symm.trans (hj ▸ hv)
    refine ⟨w', ?_, hcap, htaint⟩
    rw [setWork, ← hj, List.getElem?_set_self (List.getElem?_eq_some_iff.mp hi).1]
  · exact ⟨v, by rw [setWork, List.getElem?_set_ne hj, hv], rfl, .refl _⟩

theorem extends_reserve (b : Book) (c : ℕ) (total : UInt64) : b.Extends (b.reserve c total) :=
  extends_onPath b c (by simp)

theorem extends_settle (b : Book) (w : Work) (used : UInt64) : b.Extends (b.settle w used) := by
  have hpath := extends_onPath b w.cap (f := fun x =>
    { x with reserved := x.reserved - w.reservation, used := x.used + used })
    (fun _ => ⟨rfl, rfl, rfl⟩)
  exact ⟨hpath.accounts, hpath.works⟩

theorem Move.extends (h : b.Move b') : b.Extends b' := by
  cases h with
  | create policy => exact extends_add b _
  | derive hp rights taint mask limit => exact extends_add b _
  | revoke c => exact extends_revoke b c
  | session hc => exact extends_addWork b _
  | @submit i w r hi closed bound fits =>
    have hi' : (b.reserve w.cap (r.inputTokens + r.outputTokens)).works[i]? = some w := hi
    exact (extends_reserve b _ _).trans (extends_setWork hi' _ rfl (Within.refl _).or_right)
  | take hi pending => exact extends_setWork hi _ rfl (.refl _)
  | @complete i w r tokensUsed hi running input output =>
    have hi' : (b.settle w (r.inputTokens + r.outputTokens)).works[i]? = some w := hi
    exact (extends_settle b _ _).trans (extends_setWork hi' _ rfl (Within.refl _).or_right)
  | @abandon i w hi isOpen =>
    have hi' : (b.settle w (if w.io.state = .running then w.reservation else 0)).works[i]? =
      some w := hi
    exact (extends_settle b _ _).trans (extends_setWork hi' _ rfl (.refl _))

/-! ## What holds of every book -/

/-- An account is narrower than its parent, and a session has the taint of its account. -/
structure Narrow (b : Book) : Prop where
  derived : ∀ (c : ℕ) (x : Account) (p : ℕ), b.accounts[c]? = some x → x.parent = some p →
    ∃ y, b.accounts[p]? = some y ∧ y.policy.Covers x.policy
  tainted : ∀ (i : ℕ) (w : Work), b.works[i]? = some w →
    ∃ x, b.accounts[w.cap]? = some x ∧ Within x.policy.taint w.io.taint

theorem Narrow.extend (h : b.Narrow) (he : b.Extends b')
    (haccounts : ∀ (c : ℕ) (x' : Account) (p : ℕ), b'.accounts[c]? = some x' →
      x'.parent = some p → (∃ x, b.accounts[c]? = some x) ∨
      ∃ y, b.accounts[p]? = some y ∧ y.policy.Covers x'.policy)
    (hworks : ∀ (i : ℕ) (w' : Work), b'.works[i]? = some w' → (∃ w, b.works[i]? = some w) ∨
      ∃ x, b.accounts[w'.cap]? = some x ∧ Within x.policy.taint w'.io.taint) : b'.Narrow := by
  constructor
  · intro c x' p hx' hp
    have hkept : ∃ y, b.accounts[p]? = some y ∧ y.policy.Covers x'.policy := by
      rcases haccounts c x' p hx' hp with ⟨x, hx⟩ | hnew
      · obtain ⟨z, hz, hparent, hpolicy, _⟩ := he.accounts c x hx
        cases hx'.symm.trans hz
        rw [hpolicy]
        exact h.derived c x p hx (hparent ▸ hp)
      · exact hnew
    obtain ⟨y, hy, hcovers⟩ := hkept
    obtain ⟨y', hy', _, hpolicy, _⟩ := he.accounts p y hy
    exact ⟨y', hy', hpolicy ▸ hcovers⟩
  · intro i w' hw'
    have hkept : ∃ x, b.accounts[w'.cap]? = some x ∧ Within x.policy.taint w'.io.taint := by
      rcases hworks i w' hw' with ⟨w, hw⟩ | hnew
      · obtain ⟨v, hv, hcap, htaint⟩ := he.works i w hw
        cases hw'.symm.trans hv
        obtain ⟨x, hx, hxt⟩ := h.tainted i w hw
        exact ⟨x, hcap ▸ hx, hxt.trans htaint⟩
      · exact hnew
    obtain ⟨x, hx, hwithin⟩ := hkept
    obtain ⟨x', hx', _, hpolicy, _⟩ := he.accounts w'.cap x hx
    exact ⟨x', hx', hpolicy ▸ hwithin⟩

theorem exists_of_length {α : Type} {l l' : List α} (h : l'.length = l.length) {i : ℕ} {x : α}
    (hx : l'[i]? = some x) : ∃ y, l[i]? = some y :=
  ⟨_, List.getElem?_eq_getElem (h ▸ (List.getElem?_eq_some_iff.mp hx).1)⟩

theorem Narrow.keep (h : b.Narrow) (he : b.Extends b')
    (haccounts : b'.accounts.length = b.accounts.length)
    (hworks : b'.works.length = b.works.length) : b'.Narrow :=
  h.extend he (fun _ _ _ hx _ => .inl (exists_of_length haccounts hx))
    fun _ _ hw => .inl (exists_of_length hworks hw)

theorem Narrow.move (h : b.Narrow) (hmove : b.Move b') : b'.Narrow := by
  have he := hmove.extends
  cases hmove with
  | create policy =>
    refine h.extend he ?_ fun i w hw => .inl ⟨w, hw⟩
    intro c x p hx hp
    rcases getElem?_append_one hx with hold | ⟨_, rfl⟩
    · exact .inl ⟨x, hold⟩
    · cases hp
  | @derive p y policy hp rights taint mask limit =>
    refine h.extend he ?_ fun i w hw => .inl ⟨w, hw⟩
    intro c x q hx hq
    rcases getElem?_append_one hx with hold | ⟨_, rfl⟩
    · exact .inl ⟨x, hold⟩
    · cases hq
      exact .inr ⟨y, hp, rights, taint, mask, limit⟩
  | revoke c => exact h.keep he (by simp [revoke]) rfl
  | @session c x hc =>
    refine h.extend he (fun d y p hy _ => .inl ⟨y, hy⟩) ?_
    intro i w hw
    rcases getElem?_append_one hw with hold | ⟨_, rfl⟩
    · exact .inl ⟨w, hold⟩
    · exact .inr ⟨x, hc, .refl _⟩
  | submit hi closed bound fits =>
    exact h.keep he (by simp [setWork, reserve, onPath]) (by simp [setWork, reserve, onPath])
  | take hi pending => exact h.keep he rfl (by simp [setWork])
  | complete tokensUsed hi running input output =>
    exact h.keep he (by simp [setWork, settle, onPath]) (by simp [setWork, settle, onPath])
  | abandon hi isOpen =>
    exact h.keep he (by simp [setWork, settle, onPath]) (by simp [setWork, settle, onPath])

theorem Narrow.path (h : b.Narrow) (ho : Ordered b.parent) {c a : ℕ} {x : Account}
    (hx : b.accounts[c]? = some x) (ha : a ∈ b.path c) :
    ∃ y, b.accounts[a]? = some y ∧ y.policy.Covers x.policy := by
  have hrel := rel_of_mem_path ho (R := fun c a => ∀ x : Account, b.accounts[c]? = some x →
    ∃ y, b.accounts[a]? = some y ∧ y.policy.Covers x.policy) ?_ ?_ ?_ ha
  · exact hrel x hx
  · exact fun a x hx => ⟨x, hx, .refl _⟩
  · intro a d e had hde x hx
    obtain ⟨y, hy, hcovers⟩ := had x hx
    obtain ⟨z, hz, hcovers'⟩ := hde y hy
    exact ⟨z, hz, hcovers'.trans hcovers⟩
  · intro d p hp x hx
    obtain ⟨y, hy, hyp⟩ := Option.bind_eq_some_iff.mp hp
    cases hx.symm.trans hy
    exact h.derived d x p hx hyp

end Book

theorem run_narrow (ops : List Op) : (run .initial ops).book.Narrow := by
  refine run_induction (fun _ _ h hmove => h.move hmove) ?_ ops
  constructor <;> simp [initial, book]

theorem run_extends (k : Device) (ops : List Op) : k.book.Extends (run k ops).book :=
  run_induction (fun _ _ h hmove => h.trans hmove.extends) (.refl _) ops

/-! ## The checks of the device -/

/-- The operation submits the record to the session or completes it there, with success. -/
inductive Accepted (k : Device) (i : ℕ) (r : Request) : Op → Prop where
  | submit {fd : ℕ} (hf : k.file fd = some (.client i))
      (done : (step k (.session fd (.submit (some r)))).1 = .ok .done) :
      Accepted k i r (.session fd (.submit (some r)))
  | complete {fd : ℕ} (hf : k.file fd = some (.backend i))
      (done : (step k (.session fd (.complete (some r)))).1 = .ok .done) :
      Accepted k i r (.session fd (.complete (some r)))

/-- The operation returns the record of the session to its client. -/
inductive Returned (k : Device) (i : ℕ) (io : Io) : Op → Prop where
  | result {fd : ℕ} {copied : Bool} (hf : k.file fd = some (.client i))
      (done : (step k (.session fd (.result copied))).1 = .ok (.record io)) :
      Returned k i io (.session fd (.result copied))
  | exported {fd : ℕ} {copied : Bool} (hf : k.file fd = some (.client i))
      (done : (step k (.session fd (.exportRecord copied))).1 = .ok (.record io)) :
      Returned k i io (.session fd (.exportRecord copied))

def Op.IsExport : Op → Prop
  | .session _ (.exportRecord _) => True
  | _ => False

namespace Device

variable {k : Device} {c d i : ℕ}

theorem valid_of_revoked {x : Capability} (hc : k.caps[c]? = some x) (hr : x.revoked = true)
    (hd : c ∈ k.path d) (rights : UInt64) : k.valid d rights = false := by
  refine Bool.eq_false_of_not_eq_true fun h => ?_
  have hall := List.all_eq_true.mp ((Bool.and_eq_true _ _ ▸ h).2) c hd
  simp [hc, hr] at hall

theorem sessionIoctl_refused {s : Inference} (hi : k.sessions[i]? = some s)
    (hvalid : k.valid s.cap capInfer = false) (backend : Bool) (cmd : SessionCmd) :
    ∃ e, k.sessionIoctl i backend cmd = (.error e, k) := by
  unfold sessionIoctl
  rw [hi]
  dsimp only
  split
  · exact ⟨_, rfl⟩
  split
  · exact ⟨_, rfl⟩
  · exact ⟨_, rfl⟩

theorem sessionIoctl_ok {backend : Bool} {cmd : SessionCmd} {out : Output}
    (h : (k.sessionIoctl i backend cmd).1 = .ok out) :
    ∃ s, k.sessions[i]? = some s ∧ k.sessionIoctl i backend cmd = k.sessionLocked i s cmd := by
  rcases sessionIoctl_cases k i backend cmd with ⟨e, he⟩ | hcall
  · rw [he] at h
    cases h
  · exact hcall

theorem result_ok {s : Inference} {copied : Bool} {io : Io}
    (h : (k.result s copied).1 = .ok (.record io)) : io = s.io := by
  unfold result at h
  split at h
  · cases h
  split at h
  · cases h
  · cases h
    rfl

theorem exportRecord_ok {s : Inference} {copied : Bool} {io : Io}
    (h : (k.exportRecord s copied).1 = .ok (.record io)) :
    io = s.io ∧ k.valid s.cap capExport = true ∧
      ∀ x, k.caps[s.cap]? = some x → Within s.io.taint x.policy.exportMask := by
  unfold exportRecord at h
  split at h
  · cases h
  rename_i hcheck
  push Not at hcheck
  refine ⟨result_ok h, Bool.eq_true_of_not_eq_false hcheck.1, fun x hx => ?_⟩
  have hany := hcheck.2
  rw [hx] at hany
  simpa using hany

theorem rights_of_valid {x : Capability} {rights : UInt64} (hc : k.caps[c]? = some x)
    (h : k.valid c rights = true) : Within rights x.policy.rights := by
  have hany := (Bool.and_eq_true _ _ ▸ h).1
  rw [hc, Option.any_some, beq_iff_eq] at hany
  exact and_eq_right_iff.mp hany

theorem submit_taints {s : Inference} {r : Request} (hi : k.sessions[i]? = some s)
    (h : (k.submit i s r).1 = .ok .done) :
    ∃ t, (k.submit i s r).2.sessions[i]? = some t ∧ Within r.taint t.io.taint := by
  unfold submit at h ⊢
  split at h
  · cases h
  rename_i hbusy
  split at h
  · cases h
  rename_i hstale
  split at h
  · cases h
  rename_i hover
  split at h
  · cases h
  rename_i hquota
  rw [if_neg hbusy, if_neg hstale, if_neg hover, if_neg hquota]
  simp only [modifySession, modifyPath, List.getElem?_modify_eq, hi]
  exact ⟨_, rfl, (Within.refl _).or_left⟩

theorem complete_taints {s : Inference} {r : Request} (hi : k.sessions[i]? = some s)
    (h : (k.complete i s r).1 = .ok .done) :
    ∃ t, (k.complete i s r).2.sessions[i]? = some t ∧ Within r.taint t.io.taint := by
  unfold complete at h ⊢
  split at h
  · cases h
  rename_i hstale
  split at h
  · cases h
  rename_i hquota
  rw [if_neg hstale, if_neg hquota]
  simp only [modifySession, List.getElem?_modify_eq, sessions_unreserve hi]
  exact ⟨_, rfl, (Within.refl _).or_left⟩

end Device

theorem Accepted.taints {k : Device} {i : ℕ} {r : Request} {op : Op} (h : Accepted k i r op) :
    ∃ t, (step k op).2.sessions[i]? = some t ∧ Within r.taint t.io.taint := by
  cases h with
  | submit hf done =>
    simp only [step, hf] at done ⊢
    obtain ⟨s, hs, heq⟩ := sessionIoctl_ok done
    rw [heq] at done ⊢
    exact submit_taints hs done
  | complete hf done =>
    simp only [step, hf] at done ⊢
    obtain ⟨s, hs, heq⟩ := sessionIoctl_ok done
    rw [heq] at done ⊢
    exact complete_taints hs done

theorem Returned.record {k : Device} {i : ℕ} {io : Io} {op : Op} (h : Returned k i io op) :
    ∃ s, k.sessions[i]? = some s ∧ io = s.io ∧ (op.IsExport → k.valid s.cap capExport = true ∧
      ∀ x, k.caps[s.cap]? = some x → Within s.io.taint x.policy.exportMask) := by
  cases h with
  | result hf done =>
    simp only [step, hf] at done
    obtain ⟨s, hs, heq⟩ := sessionIoctl_ok done
    rw [heq] at done
    exact ⟨s, hs, result_ok done, fun h => h.elim⟩
  | exported hf done =>
    simp only [step, hf] at done
    obtain ⟨s, hs, heq⟩ := sessionIoctl_ok done
    rw [heq] at done
    obtain ⟨hio, hvalid, hmask⟩ := exportRecord_ok done
    exact ⟨s, hs, hio, fun _ => ⟨hvalid, hmask⟩⟩

theorem run_append (k : Device) (before after : List Op) :
    run k (before ++ after) = run (run k before) after := List.foldl_append

/-- The operation goes through a file of the capability or of a descendant, or of a session of
one of them. -/
inductive Under (k : Device) (c : ℕ) : Op → Prop where
  | cap {fd d : ℕ} {cmd : CapCmd} (hf : k.file fd = some (.cap d)) (hd : c ∈ k.path d) :
      Under k c (.cap fd cmd)
  | session {fd i : ℕ} {s : Inference} {cmd : SessionCmd}
      (hf : k.file fd = some (.client i) ∨ k.file fd = some (.backend i))
      (hi : k.sessions[i]? = some s) (hd : c ∈ k.path s.cap) : Under k c (.session fd cmd)

theorem Under.refused {k : Device} {c : ℕ} {x : Capability} {op : Op} (h : Under k c op)
    (hc : k.caps[c]? = some x) (hr : x.revoked = true) : ∃ e, step k op = (.error e, k) := by
  cases h with
  | cap hf hd =>
    simp only [step, hf, capIoctl, valid_of_revoked hc hr hd, if_true]
    exact ⟨_, rfl⟩
  | session hf hi hd =>
    have hvalid := valid_of_revoked hc hr hd capInfer
    rcases hf with hf | hf
    · simp only [step, hf]
      exact sessionIoctl_refused hi hvalid false _
    · simp only [step, hf]
      exact sessionIoctl_refused hi hvalid true _

theorem authority_narrows (ops : List Op) :
    let k := run .initial ops
    -- along every path
    (∀ (c a : ℕ) (x : Capability), k.caps[c]? = some x → a ∈ k.path c →
      ∃ y, k.caps[a]? = some y ∧ y.policy.Covers x.policy) ∧
    -- after a revocation
    (∀ (c : ℕ) (x : Capability), k.caps[c]? = some x → x.revoked = true → ∀ (later : List Op)
      (op : Op), Under (run k later) c op → ∃ e, step (run k later) op = (.error e, run k later)) ∧
    -- what is returned
    ∀ (i : ℕ) (io : Io) (op : Op), Returned k i io op → ∃ s, k.sessions[i]? = some s ∧
      (∀ a ∈ k.path s.cap, ∃ y, k.caps[a]? = some y ∧ Within y.policy.taint io.taint ∧
        (op.IsExport → Within io.taint y.policy.exportMask ∧ Within capExport y.policy.rights)) ∧
      ∀ (before after : List Op) (earlier : Op) (r : Request), ops = before ++ earlier :: after →
        Accepted (run .initial before) i r earlier → Within r.taint io.taint := by
  intro k
  have hnarrow : k.book.Narrow := run_narrow ops
  have hordered : Ordered k.book.parent := (run_sound ops).ordered_parent
  have hpath : ∀ (c a : ℕ) (x : Capability), k.caps[c]? = some x → a ∈ k.path c →
      ∃ y, k.caps[a]? = some y ∧ y.policy.Covers x.policy := by
    intro c a x hx ha
    obtain ⟨z, hz, hcovers⟩ := hnarrow.path hordered (accounts_of hx)
      (book_path k c ▸ ha)
    obtain ⟨y, hy, rfl⟩ : ∃ y, k.caps[a]? = some y ∧ y.account = z := by
      simpa [book] using hz
    exact ⟨y, hy, hcovers⟩
  refine ⟨hpath, fun c x hx hr later op hunder => ?_, fun i io op hret => ?_⟩
  · obtain ⟨z, hz, _, _, hrevoked⟩ := (run_extends k later).accounts c _ (accounts_of hx)
    obtain ⟨y, hy, rfl⟩ : ∃ y, (run k later).caps[c]? = some y ∧ y.account = z := by
      simpa [book] using hz
    exact hunder.refused hy (hrevoked hr)
  · obtain ⟨s, hs, rfl, hexport⟩ := hret.record
    obtain ⟨z, hz, htaint⟩ := hnarrow.tainted i _ (works_of hs)
    obtain ⟨x, hx, rfl⟩ : ∃ x, k.caps[s.cap]? = some x ∧ x.account = z := by
      simpa [book, Inference.work] using hz
    refine ⟨s, hs, fun a ha => ?_, fun before after earlier r hops hacc => ?_⟩
    · obtain ⟨y, hy, hcovers⟩ := hpath s.cap a x hx ha
      refine ⟨y, hy, hcovers.taint.trans htaint, fun he => ?_⟩
      obtain ⟨hvalid, hmask⟩ := hexport he
      exact ⟨(hmask x hx).trans hcovers.exportMask,
        (rights_of_valid hx hvalid).trans hcovers.rights⟩
    · obtain ⟨t, ht, hwithin⟩ := hacc.taints
      have hk : k = run (step (run .initial before) earlier).2 after := by
        rw [show k = run .initial ops from rfl, hops, run_append]
        rfl
      obtain ⟨w, hw, _, hgrows⟩ := (run_extends _ after).works i _ (works_of ht)
      rw [← hk, works_of hs] at hw
      cases hw
      exact hwithin.trans hgrows

namespace Sample

def completing : List Op :=
  [.create rightManageChild (some ⟨capAll, 1, 7, 100⟩) none,
    .cap 0 (.derive (some ⟨capAll, 1, 7, 50⟩) none),
    .cap 1 (.sessionCreate none),
    .session 2 (.submit (some (request 1 10 20 2))),
    .session 3 (.take true),
    .session 3 (.complete (some (request 1 10 5 4)))]

def exported : Op := .session 2 (.exportRecord true)

def taintOf : Reply → Option UInt64
  | .ok (.record io) => some io.taint
  | _ => none

end Sample

open Sample

theorem taintOf_eq_some {reply : Reply} {t : UInt64} (h : taintOf reply = some t) :
    ∃ io, reply = .ok (.record io) ∧ io.taint = t := by
  unfold taintOf at h
  split at h
  · cases h
    exact ⟨_, rfl, rfl⟩
  · cases h

theorem authority_narrows_exported :
    ∃ io, Returned (run .initial completing) 0 io exported ∧ io.taint = 7 ∧
      Within 2 io.taint := by
  have hfile : (run .initial completing).file 2 = some (.client 0) := by decide +kernel
  have htaint : taintOf (step (run .initial completing) exported).1 =
      some 7 := by decide +kernel
  obtain ⟨io, hio, h7⟩ := taintOf_eq_some htaint
  have hreturned : Returned (run .initial completing) 0 io exported :=
    .exported hfile hio
  have hsubmit : Accepted (run .initial (completing.take 3)) 0 (request 1 10 20 2)
      (.session 2 (.submit (some (request 1 10 20 2)))) :=
    .submit (by decide +kernel) (by decide +kernel)
  obtain ⟨s, _, _, hearlier⟩ := (authority_narrows completing).2.2 0 io _ hreturned
  exact ⟨io, hreturned, h7, hearlier _ _ _ _ rfl hsubmit⟩

end Aok.Kernel
