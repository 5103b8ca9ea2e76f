import Aok.Kernel.InferRefs

/-!
# Budgets of the inference device

The counters of a capability are sums over the sessions and charges at it or below it, and they
stay within its limit, so the words never wrap.
-/

namespace Aok.Kernel
open Lib Lib.Forest Device UInt64

def Work.load (w : Work) : ℕ := if w.io.state.isOpen then w.reservation.toNat else 0

namespace Book

variable {b : Book}

def loads (b : Book) : List (ℕ × ℕ) := b.works.map fun w => (w.cap, w.load)

structure Sound (b : Book) : Prop where
  ordered : ∀ (c : ℕ) (x : Account) (p : ℕ), b.accounts[c]? = some x → x.parent = some p → p < c
  placed : ∀ w ∈ b.works, w.cap < b.accounts.length
  charged : ∀ e ∈ b.settled, e.1 < b.accounts.length
  reserved : ∀ (c : ℕ) (x : Account), b.accounts[c]? = some x → x.reserved.toNat = weight b.parent b.loads c
  used : ∀ (c : ℕ) (x : Account), b.accounts[c]? = some x → x.used.toNat = weight b.parent b.settled c
  bounded : ∀ (c : ℕ) (x : Account), b.accounts[c]? = some x →
    x.used.toNat + x.reserved.toNat ≤ x.policy.tokenLimit.toNat
  priced : ∀ w ∈ b.works, w.io.state.isOpen = true →
    w.reservation.toNat = w.io.inputTokens.toNat + w.io.outputTokens.toNat

theorem Sound.ordered_parent (h : b.Sound) : Ordered b.parent := by
  intro c p hp
  obtain ⟨x, hx, hxp⟩ := Option.bind_eq_some_iff.mp hp
  exact h.ordered c x p hx hxp

theorem Sound.loads_lt (h : b.Sound) {e : ℕ × ℕ} (he : e ∈ b.loads) :
    e.1 < b.accounts.length := by
  obtain ⟨w, hw, rfl⟩ := List.mem_map.mp he
  exact h.placed w hw

theorem sound_initial : initial.book.Sound := by
  constructor <;> simp [initial, book]

/-! ## New accounts and sessions -/

theorem parent_add_of_lt (b : Book) (x : Account) {c : ℕ} (h : c < b.accounts.length) :
    (b.add x).parent c = b.parent c := by
  simp [parent, add, List.getElem?_append_left h]

theorem sound_add (h : b.Sound) {x : Account} (hp : ∀ p, x.parent = some p → p < b.accounts.length)
    (hu : x.used = 0) (hr : x.reserved = 0) : (b.add x).Sound := by
  have hordered : ∀ (c : ℕ) (y : Account) (p : ℕ), (b.add x).accounts[c]? = some y → y.parent = some p → p < c := by
    intro c y p hy hyp
    rcases getElem?_append_one hy with hold | ⟨rfl, rfl⟩
    · exact h.ordered c y p hold hyp
    · exact hp p hyp
  have hforest : Ordered (b.add x).parent := by
    intro c p hcp
    obtain ⟨y, hy, hyp⟩ := Option.bind_eq_some_iff.mp hcp
    exact hordered c y p hy hyp
  have hpath : ∀ c < b.accounts.length, Forest.path (b.add x).parent c = Forest.path b.parent c :=
    fun c hc => path_congr h.ordered_parent hforest
      fun d hd => parent_add_of_lt b x (hd.trans_lt hc)
  -- sums over items of the old book do not see the new account
  have hsum : ∀ items : List (ℕ × ℕ), (∀ e ∈ items, e.1 < b.accounts.length) →
      (∀ c, weight (b.add x).parent items c = weight b.parent items c) ∧
        weight b.parent items b.accounts.length = 0 := by
    intro items hitems
    refine ⟨weight_congr fun e he => hpath e.1 (hitems e he), weight_eq_zero fun e he hmem => ?_⟩
    exact absurd (le_of_mem_path h.ordered_parent hmem) (not_le.mpr (hitems e he))
  have hloads := hsum b.loads fun e he => h.loads_lt he
  have hsettled := hsum b.settled h.charged
  have hlen : b.accounts.length < (b.add x).accounts.length := by simp [add]
  constructor
  · exact hordered
  · exact fun w hw => (h.placed w hw).trans hlen
  · exact fun e he => (h.charged e he).trans hlen
  · intro c y hy
    refine Eq.trans ?_ (hloads.1 c).symm
    rcases getElem?_append_one hy with hold | ⟨rfl, rfl⟩
    · exact h.reserved c y hold
    · rw [hr, hloads.2, UInt64.toNat_zero]
  · intro c y hy
    refine Eq.trans ?_ (hsettled.1 c).symm
    rcases getElem?_append_one hy with hold | ⟨rfl, rfl⟩
    · exact h.used c y hold
    · rw [hu, hsettled.2, UInt64.toNat_zero]
  · intro c y hy
    rcases getElem?_append_one hy with hold | ⟨rfl, rfl⟩
    · exact h.bounded c y hold
    · simp [hu, hr]
  · exact h.priced

theorem accounts_revoke {c d : ℕ} {y : Account} (h : (b.revoke c).accounts[d]? = some y) :
    ∃ x, b.accounts[d]? = some x ∧ y = { x with revoked := y.revoked } := by
  rw [revoke, List.getElem?_modify] at h
  obtain ⟨x, hx, rfl⟩ := Option.map_eq_some_iff.mp h
  refine ⟨x, hx, ?_⟩
  split <;> rfl

@[simp] theorem parent_revoke (b : Book) (c : ℕ) : (b.revoke c).parent = b.parent := by
  funext d
  simp only [parent, revoke, List.getElem?_modify]
  cases b.accounts[d]? with
  | none => simp
  | some x => by_cases h : c = d <;> simp [h]

theorem sound_revoke (h : b.Sound) (c : ℕ) : (b.revoke c).Sound := by
  have hlen : (b.revoke c).accounts.length = b.accounts.length := by simp [revoke]
  constructor
  · intro d y p hy hp
    obtain ⟨x, hx, heq⟩ := accounts_revoke hy
    exact h.ordered d x p hx (by rw [heq] at hp; exact hp)
  · exact fun w hw => hlen ▸ h.placed w hw
  · exact fun e he => hlen ▸ h.charged e he
  · intro d y hy
    obtain ⟨x, hx, heq⟩ := accounts_revoke hy
    rw [parent_revoke, heq]
    exact h.reserved d x hx
  · intro d y hy
    obtain ⟨x, hx, heq⟩ := accounts_revoke hy
    rw [parent_revoke, heq]
    exact h.used d x hx
  · intro d y hy
    obtain ⟨x, hx, heq⟩ := accounts_revoke hy
    rw [heq]
    exact h.bounded d x hx
  · exact h.priced

theorem sound_addWork (h : b.Sound) {w : Work} (hw : w.cap < b.accounts.length)
    (hclosed : w.io.state.isOpen = false) : (b.addWork w).Sound := by
  have hloads : (b.addWork w).loads = b.loads ++ [(w.cap, 0)] := by
    simp [loads, addWork, Work.load, hclosed]
  constructor
  · exact h.ordered
  · intro v hv
    rcases List.mem_append.mp hv with hv | hv
    · exact h.placed v hv
    · rw [List.mem_singleton.mp hv]
      exact hw
  · exact h.charged
  · intro c x hx
    change _ = weight b.parent (b.addWork w).loads c
    rw [hloads, weight_append]
    simpa [share] using h.reserved c x hx
  · exact h.used
  · exact h.bounded
  · intro v hv hopen
    rcases List.mem_append.mp hv with hv | hv
    · exact h.priced v hv hopen
    · rw [List.mem_singleton.mp hv, hclosed] at hopen
      cases hopen

/-! ## Reservations and charges -/

variable {c i : ℕ} {w : Work} {f : Account → Account}

theorem accounts_onPath {y : Account} {d : ℕ} (h : (b.onPath c f).accounts[d]? = some y) :
    ∃ x, b.accounts[d]? = some x ∧ y = if d ∈ b.path c then f x else x := by
  simp only [onPath, List.getElem?_mapIdx, Option.map_eq_some_iff] at h
  obtain ⟨x, hx, rfl⟩ := h
  exact ⟨x, hx, rfl⟩

theorem parent_onPath (hf : ∀ x, (f x).parent = x.parent) : (b.onPath c f).parent = b.parent := by
  funext d
  simp only [parent, onPath, List.getElem?_mapIdx]
  cases b.accounts[d]? with
  | none => rfl
  | some x => by_cases h : d ∈ b.path c <;> simp [h, hf]

theorem loads_setWork (b : Book) (i : ℕ) (w : Work) :
    (b.setWork i w).loads = b.loads.set i (w.cap, w.load) := by
  simp [loads, setWork, List.map_set]

theorem getElem?_loads (hi : b.works[i]? = some w) : b.loads[i]? = some (w.cap, w.load) := by
  simp [loads, hi]

theorem sound_onPath (h : b.Sound) (hi : b.works[i]? = some w) (w' : Work)
    (f : Account → Account) (settled : List (ℕ × ℕ)) (hcap : w'.cap = w.cap)
    (hcharged : ∀ e ∈ settled, e.1 < b.accounts.length)
    (hparent : ∀ x, (f x).parent = x.parent) (hpolicy : ∀ x, (f x).policy = x.policy)
    (hpriced : w'.io.state.isOpen = true →
      w'.reservation.toNat = w'.io.inputTokens.toNat + w'.io.outputTokens.toNat)
    (hoff : ∀ a, a ∉ b.path w.cap → weight b.parent settled a = weight b.parent b.settled a)
    (hon : ∀ a ∈ b.path w.cap, ∀ x, b.accounts[a]? = some x →
      (f x).reserved.toNat + w.load = x.reserved.toNat + w'.load ∧
      (f x).used.toNat = weight b.parent settled a ∧
      (f x).used.toNat + (f x).reserved.toNat ≤ x.policy.tokenLimit.toNat) :
    ({ b.onPath w.cap f with settled := settled }.setWork i w' : Book).Sound := by
  have hpar := parent_onPath (b := b) (c := w.cap) hparent
  have hlen : (b.onPath w.cap f).accounts.length = b.accounts.length := by simp [onPath]
  have hw := h.placed w (List.mem_of_getElem? hi)
  have hset : ∀ a, weight b.parent (b.loads.set i (w'.cap, w'.load)) a +
      share b.parent a (w.cap, w.load) = weight b.parent b.loads a +
      share b.parent a (w'.cap, w'.load) := fun a => weight_set (getElem?_loads hi) _ a
  constructor
  · intro d y p hy hp
    obtain ⟨x, hx, rfl⟩ := accounts_onPath hy
    refine h.ordered d x p hx ?_
    split at hp
    · rwa [hparent] at hp
    · exact hp
  · intro v hv
    refine lt_of_lt_of_eq ?_ hlen.symm
    rcases List.mem_or_eq_of_mem_set hv with hv | rfl
    · exact h.placed v hv
    · exact hcap ▸ hw
  · exact fun e he => hlen ▸ hcharged e he
  · intro d y hy
    obtain ⟨x, hx, rfl⟩ := accounts_onPath hy
    change _ = weight (b.onPath w.cap f).parent ((b.setWork i w').loads) d
    rw [hpar, loads_setWork]
    have hd := hset d
    rw [hcap] at hd ⊢
    by_cases hmem : d ∈ b.path w.cap
    · have hres := (hon d hmem x hx).1
      have hold := h.reserved d x hx
      rw [share_of_mem hmem, share_of_mem hmem] at hd
      rw [if_pos hmem]
      omega
    · rw [share_of_not_mem hmem, share_of_not_mem hmem] at hd
      rw [if_neg hmem]
      exact (h.reserved d x hx).trans hd.symm
  · intro d y hy
    obtain ⟨x, hx, rfl⟩ := accounts_onPath hy
    change _ = weight (b.onPath w.cap f).parent settled d
    rw [hpar]
    by_cases hmem : d ∈ b.path w.cap
    · rw [if_pos hmem]
      exact (hon d hmem x hx).2.1
    · rw [if_neg hmem, hoff d hmem]
      exact h.used d x hx
  · intro d y hy
    obtain ⟨x, hx, rfl⟩ := accounts_onPath hy
    by_cases hmem : d ∈ b.path w.cap
    · rw [if_pos hmem, hpolicy]
      exact (hon d hmem x hx).2.2
    · rw [if_neg hmem]
      exact h.bounded d x hx
  · intro v hv hopen
    rcases List.mem_or_eq_of_mem_set hv with hv | rfl
    · exact h.priced v hv hopen
    · exact hpriced hopen

theorem room_toNat {limit used reserved : UInt64}
    (h : used.toNat + reserved.toNat ≤ limit.toNat) :
    (limit - used - reserved).toNat = limit.toNat - used.toNat - reserved.toNat := by
  have hu : (limit - used).toNat = limit.toNat - used.toNat :=
    UInt64.toNat_sub_of_le _ _ (le_iff_toNat_le.mpr (by omega))
  rw [UInt64.toNat_sub_of_le _ _ (le_iff_toNat_le.mpr (by omega)), hu]

theorem toNat_add_of_le {x y z : UInt64} (h : x.toNat + y.toNat ≤ z.toNat) :
    (x + y).toNat = x.toNat + y.toNat := by
  rw [UInt64.toNat_add, Nat.mod_eq_of_lt (h.trans_lt z.toNat_lt)]

theorem sound_submit (h : b.Sound) {r : Request} (hi : b.works[i]? = some w)
    (hclosed : w.io.state.isOpen = false) (hbound : r.inputTokens ≤ maxWord - r.outputTokens)
    (hfits : b.Fits w.cap (r.inputTokens + r.outputTokens)) :
    ((b.reserve w.cap (r.inputTokens + r.outputTokens)).setWork i
      ⟨w.cap, r.toIo .pending 0 w.io.taint, r.inputTokens + r.outputTokens⟩).Sound := by
  have htotal : (r.inputTokens + r.outputTokens).toNat =
      r.inputTokens.toNat + r.outputTokens.toNat := by
    refine toNat_add_of_le (z := maxWord) ?_
    have hle := le_iff_toNat_le.mp hbound
    have hmax : r.outputTokens.toNat ≤ maxWord.toNat := Nat.le_of_lt_succ r.outputTokens.toNat_lt
    rw [UInt64.toNat_sub_of_le _ _ (le_iff_toNat_le.mpr hmax)] at hle
    omega
  refine sound_onPath h hi
    ⟨w.cap, r.toIo .pending 0 w.io.taint, r.inputTokens + r.outputTokens⟩
    (fun x => { x with reserved := x.reserved + (r.inputTokens + r.outputTokens) }) b.settled
    rfl h.charged (fun _ => rfl) (fun _ => rfl) (fun _ => htotal) (fun _ _ => rfl)
    fun a ha x hx => ?_
  have hroom := le_iff_toNat_le.mp (hfits a ha x hx)
  have hlimit := h.bounded a x hx
  rw [room_toNat hlimit] at hroom
  have hsum : (x.reserved + (r.inputTokens + r.outputTokens)).toNat =
      x.reserved.toNat + (r.inputTokens + r.outputTokens).toNat :=
    toNat_add_of_le (z := x.policy.tokenLimit) (by omega)
  refine ⟨?_, h.used a x hx, ?_⟩
  · simp only [Work.load, hclosed, Request.toIo]
    exact hsum
  · simp only [hsum]
    omega

theorem Sound.reservation_le (h : b.Sound) {a : ℕ} {x : Account} (hi : b.works[i]? = some w)
    (hopen : w.io.state.isOpen = true) (ha : a ∈ b.path w.cap) (hx : b.accounts[a]? = some x) :
    w.reservation.toNat ≤ x.reserved.toNat := by
  have hload : w.load = w.reservation.toNat := if_pos hopen
  rw [h.reserved a x hx, ← hload, ← share_of_mem (n := w.load) ha]
  exact share_le_weight (List.mem_of_getElem? (getElem?_loads hi)) a

theorem sound_settle (h : b.Sound) {io : Io} {m : UInt64} (hi : b.works[i]? = some w)
    (hopen : w.io.state.isOpen = true) (hclosed : io.state.isOpen = false)
    (hm : m.toNat ≤ w.reservation.toNat) :
    ((b.settle w m).setWork i ⟨w.cap, io, 0⟩).Sound := by
  have hw := h.placed w (List.mem_of_getElem? hi)
  have hweight : ∀ a, weight b.parent (b.settled ++ [(w.cap, m.toNat)]) a =
      weight b.parent b.settled a + share b.parent a (w.cap, m.toNat) :=
    fun a => weight_append b.settled _ a
  refine sound_onPath h hi ⟨w.cap, io, 0⟩
    (fun x => { x with reserved := x.reserved - w.reservation, used := x.used + m })
    (b.settled ++ [(w.cap, m.toNat)]) rfl ?_ (fun _ => rfl) (fun _ => rfl) ?_ ?_ ?_
  · intro e he
    rcases List.mem_append.mp he with he | he
    · exact h.charged e he
    · rw [List.mem_singleton.mp he]
      exact hw
  · intro ho
    rw [hclosed] at ho
    cases ho
  · intro a ha
    rw [hweight a, share_of_not_mem ha, add_zero]
  · intro a ha x hx
    have hload : w.load = w.reservation.toNat := if_pos hopen
    have hle := h.reservation_le hi hopen ha hx
    have hlimit := h.bounded a x hx
    have hsub : (x.reserved - w.reservation).toNat =
        x.reserved.toNat - w.reservation.toNat :=
      UInt64.toNat_sub_of_le _ _ (le_iff_toNat_le.mpr hle)
    have hadd : (x.used + m).toNat = x.used.toNat + m.toNat :=
      toNat_add_of_le (z := x.policy.tokenLimit) (by omega)
    refine ⟨?_, ?_, ?_⟩
    · have hzero : Work.load ⟨w.cap, io, 0⟩ = 0 := by simp [Work.load]
      simp only [hsub, hload, hzero]
      omega
    · simp only [hadd, hweight a, share_of_mem ha, h.used a x hx]
    · simp only [hsub, hadd]
      omega

theorem sound_take (h : b.Sound) (hi : b.works[i]? = some w) (hp : w.io.state = .pending) :
    (b.setWork i { w with io := { w.io with state := .running } }).Sound := by
  have hopen : w.io.state.isOpen = true := by rw [hp]; rfl
  have hloads : (b.setWork i { w with io := { w.io with state := .running } }).loads = b.loads := by
    have hload : w.load = w.reservation.toNat := if_pos hopen
    have hsame := getElem?_loads hi
    rw [loads_setWork, show Work.load { w with io := { w.io with state := .running } } =
      w.reservation.toNat from rfl, ← hload]
    refine List.ext_getElem? fun j => ?_
    rw [List.getElem?_set]
    split
    · rename_i hij
      rw [← hij, hsame, if_pos (List.getElem?_eq_some_iff.mp hsame).1]
    · rfl
  have hmem := List.mem_of_getElem? hi
  constructor
  · exact h.ordered
  · intro v hv
    rcases List.mem_or_eq_of_mem_set hv with hv | rfl
    · exact h.placed v hv
    · exact h.placed w hmem
  · exact h.charged
  · exact hloads ▸ h.reserved
  · exact h.used
  · exact h.bounded
  · intro v hv ho
    rcases List.mem_or_eq_of_mem_set hv with hv | rfl
    · exact h.priced v hv ho
    · exact h.priced w hmem hopen

theorem Sound.move {b' : Book} (h : b.Sound) (hmove : b.Move b') : b'.Sound := by
  cases hmove with
  | create policy => exact sound_add h (by simp) rfl rfl
  | derive hp rights taint mask limit =>
    refine sound_add h ?_ rfl rfl
    rintro q ⟨⟩
    exact (List.getElem?_eq_some_iff.mp hp).1
  | revoke c => exact sound_revoke h c
  | session hc => exact sound_addWork h (List.getElem?_eq_some_iff.mp hc).1 rfl
  | submit hi closed bound fits => exact sound_submit h hi closed bound fits
  | take hi pending => exact sound_take h hi pending
  | @complete i w r tokensUsed hi running input output =>
    have hopen : w.io.state.isOpen = true := by rw [running]; rfl
    refine sound_settle h hi hopen rfl ?_
    rw [h.priced w (List.mem_of_getElem? hi) hopen, UInt64.toNat_add]
    exact (Nat.mod_le _ _).trans
      (Nat.add_le_add (le_iff_toNat_le.mp input) (le_iff_toNat_le.mp output))
  | @abandon i w hi isOpen =>
    refine sound_settle h hi isOpen rfl ?_
    split
    · exact le_rfl
    · exact Nat.zero_le _

end Book

theorem run_sound (ops : List Op) : (run .initial ops).book.Sound :=
  run_induction (fun _ _ h hmove => h.move hmove) Book.sound_initial ops

namespace Device

/-- The reservations of pending and running sessions at the capability or below it. -/
def reservedBelow (k : Device) (c : ℕ) : ℕ :=
  ((k.sessions.filter fun s => s.io.state.isOpen = true ∧ c ∈ k.path s.cap).map
    fun s => s.reservation.toNat).sum

def chargedBelow (k : Device) (c : ℕ) : ℕ :=
  ((k.settled.filter fun e => c ∈ k.path e.1).map Prod.snd).sum

theorem reservedBelow_eq (k : Device) (c : ℕ) :
    k.reservedBelow c = weight k.parent k.book.loads c := by
  unfold reservedBelow weight
  rw [sum_map_filter, Book.loads, List.map_map, book, List.map_map]
  refine congrArg List.sum (List.map_congr_left fun s _ => ?_)
  by_cases hc : c ∈ k.path s.cap
  · simp [Inference.work, Work.load, share_of_mem hc, hc]
  · simp [Inference.work, share_of_not_mem hc, hc]

theorem chargedBelow_eq (k : Device) (c : ℕ) : k.chargedBelow c = weight k.parent k.settled c :=
  sum_map_filter _ _ _

end Device

theorem budgets_balance (ops : List Op) :
    let k := run .initial ops
    (∀ (c : ℕ) (x : Capability), k.caps[c]? = some x → x.freed = false →
      x.reserved.toNat = k.reservedBelow c ∧ x.used.toNat = k.chargedBelow c ∧
      x.used.toNat + x.reserved.toNat ≤ x.policy.tokenLimit.toNat) ∧
    ∀ (i : ℕ) (s : Inference), k.sessions[i]? = some s →
      (s.io.state.isOpen = true → s.freed = false) ∧
      (s.freed = false → ∀ a ∈ k.path s.cap, ∃ x, k.caps[a]? = some x ∧ x.freed = false ∧
        x.used ≤ x.policy.tokenLimit ∧ x.reserved ≤ x.policy.tokenLimit - x.used) := by
  intro k
  have hsound : k.book.Sound := run_sound ops
  have hcounted : k.Counted [] := run_counted counted_initial ops
  have hattended : k.Attended := run_attended (by simp [Device.Attended, initial]) ops
  have hordered : Ordered k.parent := book_parent k ▸ hsound.ordered_parent
  refine ⟨fun c x hx _ => ?_, fun i s hs => ⟨fun hopen => ?_, fun hlive a ha => ?_⟩⟩
  · have haccount := accounts_of hx
    rw [reservedBelow_eq, chargedBelow_eq, ← book_parent]
    exact ⟨hsound.reserved c _ haccount, hsound.used c _ haccount, hsound.bounded c _ haccount⟩
  · obtain ⟨n, f, hf, href⟩ := hattended i s hs hopen
    obtain ⟨t, ht, hlive, _⟩ := hcounted.session_live (i := i)
      (Nat.add_pos_left (href ▸ holders_pos hf) _)
    cases hs.symm.trans ht
    exact hlive
  · obtain ⟨y, hy, hylive⟩ := hcounted.session_cap_live hs hlive
    obtain ⟨x, hx, hxlive⟩ := hcounted.path_live hordered hy hylive ha
    have hbound := hsound.bounded a _ (accounts_of hx)
    have hused : x.used ≤ x.policy.tokenLimit :=
      le_iff_toNat_le.mpr (Nat.le_of_add_right_le hbound)
    refine ⟨x, hx, hxlive, hused, le_iff_toNat_le.mpr ?_⟩
    rw [UInt64.toNat_sub_of_le _ _ hused]
    exact Nat.le_sub_of_add_le' hbound

namespace Sample

def request (sequence inputTokens outputTokens taint : UInt64) : Request :=
  ⟨sequence, inputTokens, outputTokens, 0, taint, 0, 0, Vector.replicate dataMax 0⟩

def reserving : List Op :=
  [.create rightManageChild (some ⟨capAll, 0, 0, 100⟩) none,
    .cap 0 (.derive (some ⟨capAll, 1, 0, 50⟩) none),
    .cap 1 (.sessionCreate none),
    .session 2 (.submit (some (request 1 10 20 4)))]

end Sample

open Sample

theorem budgets_balance_child :
    ∃ x, (run .initial reserving).caps[0]? = some x ∧ x.reserved.toNat = 30 ∧
      x.reserved.toNat = (run .initial reserving).reservedBelow 0 ∧
      x.used.toNat + x.reserved.toNat ≤ x.policy.tokenLimit.toNat := by
  have hlive : ((run .initial reserving).caps[0]?).map (fun x => (x.freed, x.reserved)) =
      some (false, 30) := by decide +kernel
  obtain ⟨x, hx, heq⟩ := Option.map_eq_some_iff.mp hlive
  rw [Prod.mk.injEq] at heq
  have hbalance := (budgets_balance reserving).1 0 x hx heq.1
  exact ⟨x, hx, congrArg UInt64.toNat heq.2, hbalance.1, hbalance.2.2⟩

end Aok.Kernel
