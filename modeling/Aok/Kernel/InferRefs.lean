import Aok.Kernel.InferBook

/-!
# References of the inference device

A capability or session counts the open files, live children, live sessions and due puts that
refer to it, and it is freed when there are none left. So what an open file can reach is live.
-/

namespace Aok.Kernel
open Lib List

variable {f : File} {s : Inference} {x : Capability}

def File.ref : File → Ref
  | .cap c => .cap c
  | .client i | .backend i => .session i

def fileHolds (r : Ref) (f : Option File) : ℕ := if f.map File.ref = some r then 1 else 0

def Capability.holds (r : Ref) (x : Capability) : ℕ :=
  if x.freed = false ∧ x.parent.map Ref.cap = some r then 1 else 0

def Inference.holds (r : Ref) (s : Inference) : ℕ :=
  if s.freed = false ∧ Ref.cap s.cap = r then 1 else 0

namespace Device

variable {k k' : Device}

def holders (k : Device) (r : Ref) : ℕ :=
  (k.files.map (fileHolds r)).sum + (k.caps.map (Capability.holds r)).sum +
    (k.sessions.map (Inference.holds r)).sum + k.puts.count r

def object (k : Device) : Ref → Option (ℕ × Bool)
  | .cap c => (k.caps[c]?).map fun x => (x.refs, x.freed)
  | .session i => (k.sessions[i]?).map fun s => (s.refs, s.freed)

structure Counted (k : Device) (hand : List Ref) : Prop where
  count : ∀ r n freed, k.object r = some (n, freed) →
    n = k.holders r + hand.count r ∧ (freed = true ↔ n = 0)
  known : ∀ r, k.object r = none → k.holders r + hand.count r = 0

structure SameRefs (k k' : Device) : Prop where
  caps : k'.caps.map (fun x => (x.refs, x.parent, x.freed)) =
    k.caps.map fun x => (x.refs, x.parent, x.freed)
  sessions : k'.sessions.map (fun s => (s.refs, s.cap, s.freed)) =
    k.sessions.map fun s => (s.refs, s.cap, s.freed)
  files : k'.files = k.files
  puts : k'.puts = k.puts

theorem SameRefs.refl (k : Device) : SameRefs k k := ⟨rfl, rfl, rfl, rfl⟩

theorem SameRefs.trans {k'' : Device} (h : SameRefs k k') (h' : SameRefs k' k'') :
    SameRefs k k'' :=
  ⟨h'.caps.trans h.caps, h'.sessions.trans h.sessions, h'.files.trans h.files,
    h'.puts.trans h.puts⟩

theorem SameRefs.holders (h : SameRefs k k') (r : Ref) : k'.holders r = k.holders r := by
  have hcaps := congrArg (map fun t : ℕ × Option ℕ × Bool =>
    if t.2.2 = false ∧ t.2.1.map Ref.cap = some r then 1 else 0) h.caps
  have hsessions := congrArg (map fun t : ℕ × ℕ × Bool =>
    if t.2.2 = false ∧ Ref.cap t.2.1 = r then 1 else 0) h.sessions
  rw [map_map, map_map] at hcaps hsessions
  unfold Device.holders
  rw [h.files, h.puts]
  exact congrArg₂ (fun a b : List ℕ => (k.files.map (fileHolds r)).sum + a.sum + b.sum +
    k.puts.count r) hcaps hsessions

theorem SameRefs.object (h : SameRefs k k') (r : Ref) : k'.object r = k.object r := by
  cases r with
  | cap c =>
    have hc := congrArg (fun l => (l[c]?).map fun t : ℕ × Option ℕ × Bool => (t.1, t.2.2)) h.caps
    simp only [getElem?_map, Option.map_map] at hc
    exact hc
  | session i =>
    have hi := congrArg (fun l => (l[i]?).map fun t : ℕ × ℕ × Bool => (t.1, t.2.2)) h.sessions
    simp only [getElem?_map, Option.map_map] at hi
    exact hi

theorem sameRefs_modifyCap {f : Capability → Capability}
    (h : ∀ x, ((f x).refs, (f x).parent, (f x).freed) = (x.refs, x.parent, x.freed)) (k : Device)
    (c : ℕ) : SameRefs k (k.modifyCap c f) :=
  ⟨map_modify_of_eq h _ _, rfl, rfl, rfl⟩

theorem sameRefs_modifySession {f : Inference → Inference}
    (h : ∀ s, ((f s).refs, (f s).cap, (f s).freed) = (s.refs, s.cap, s.freed)) (k : Device)
    (i : ℕ) : SameRefs k (k.modifySession i f) :=
  ⟨rfl, map_modify_of_eq h _ _, rfl, rfl⟩

theorem sameRefs_modifyPath {f : Capability → Capability}
    (h : ∀ x, ((f x).refs, (f x).parent, (f x).freed) = (x.refs, x.parent, x.freed)) (k : Device)
    (c : ℕ) : SameRefs k (k.modifyPath c f) := by
  refine ⟨?_, rfl, rfl, rfl⟩
  refine ext_getElem? fun i => ?_
  simp only [modifyPath, getElem?_map, getElem?_mapIdx]
  cases k.caps[i]? with
  | none => rfl
  | some x =>
    simp only [Option.map_some]
    split
    · exact congrArg some (h x)
    · rfl

theorem unreserve_sameRefs (k : Device) (i : ℕ) (used : UInt64) :
    SameRefs k (k.unreserve i used) := by
  unfold unreserve
  split
  · exact SameRefs.refl k
  · rename_i s hs
    have hpath := sameRefs_modifyPath (f := fun x =>
      { x with reserved := x.reserved - s.reservation, used := x.used + used })
      (by intro x; rfl) k s.cap
    have hset := sameRefs_modifySession (f := fun s => { s with reservation := 0 })
      (by intro x; rfl) (k.modifyPath s.cap fun x =>
        { x with reserved := x.reserved - s.reservation, used := x.used + used }) i
    have hboth := hpath.trans hset
    exact ⟨hboth.caps, hboth.sessions, rfl, rfl⟩

/-- What a command of session `i` can do: charge the path of its capability, settle its
reservation, or write its own record. -/
inductive Edits (k : Device) (i : ℕ) : Device → Prop
  | none : Edits k i k
  | write (g : Inference → Inference)
      (hg : ∀ s, ((g s).refs, (g s).cap, (g s).freed) = (s.refs, s.cap, s.freed)) :
      Edits k i (k.modifySession i g)
  | charge {s : Inference} (hs : k.sessions[i]? = some s) (f : Capability → Capability)
      (hf : ∀ x, ((f x).refs, (f x).parent, (f x).freed) = (x.refs, x.parent, x.freed))
      (g : Inference → Inference)
      (hg : ∀ s, ((g s).refs, (g s).cap, (g s).freed) = (s.refs, s.cap, s.freed)) :
      Edits k i ((k.modifyPath s.cap f).modifySession i g)
  | settle (used : UInt64) (g : Inference → Inference)
      (hg : ∀ s, ((g s).refs, (g s).cap, (g s).freed) = (s.refs, s.cap, s.freed)) :
      Edits k i ((k.unreserve i used).modifySession i g)

theorem abandon_edits (k : Device) (i : ℕ) : Edits k i (k.abandon i) := by
  unfold abandon
  split
  · exact .none
  split
  · exact .settle _ _ (by intro s; rfl)
  · exact .none

theorem sessionLocked_edits {k : Device} {i : ℕ} (hs : k.sessions[i]? = some s)
    (cmd : SessionCmd) : Edits k i (k.sessionLocked i s cmd).2 := by
  cases cmd with
  | submit arg =>
    cases arg with
    | none => exact .none
    | some r =>
      dsimp only [sessionLocked, submit]
      split
      · exact .none
      split
      · exact .none
      split
      · exact .none
      split
      · exact .none
      · exact .charge hs _ (by intro x; rfl) _ (by intro s; rfl)
  | take copied =>
    dsimp only [sessionLocked, take]
    split
    · exact .none
    split
    · exact .none
    · exact .write _ (by intro s; rfl)
  | complete arg =>
    cases arg with
    | none => exact .none
    | some r =>
      dsimp only [sessionLocked, complete]
      split
      · exact .none
      split
      · exact .none
      · exact .settle _ _ (by intro s; rfl)
  | result copied => exact (result_snd k s copied).symm ▸ .none
  | cancel => exact abandon_edits k i
  | exportRecord copied => exact (exportRecord_snd k s copied).symm ▸ .none
  | unknown => exact .none

theorem sessionIoctl_edits (k : Device) (i : ℕ) (backend : Bool) (cmd : SessionCmd) :
    Edits k i (k.sessionIoctl i backend cmd).2 := by
  rcases sessionIoctl_cases k i backend cmd with ⟨e, he⟩ | ⟨s, hs, hcall⟩
  · exact he ▸ .none
  · exact hcall ▸ sessionLocked_edits hs cmd

theorem Edits.sameRefs {i : ℕ} (h : Edits k i k') : SameRefs k k' := by
  cases h with
  | none => exact .refl k
  | write g hg => exact sameRefs_modifySession hg k i
  | charge hs f hf g hg =>
    exact (sameRefs_modifyPath hf k _).trans (sameRefs_modifySession hg _ i)
  | settle used g hg => exact (unreserve_sameRefs k i used).trans (sameRefs_modifySession hg _ i)

/-! ## References change hands -/

variable {hand hand' : List Ref} {c i n : ℕ} {q r : Ref}

theorem count_ref_cons (q r : Ref) (hand : List Ref) :
    (q :: hand).count r = hand.count r + if r = q then 1 else 0 := by
  rw [count_cons]
  by_cases h : r = q
  · simp [h]
  · simp [h, Ne.symm h]

/-- The object `q` is written: what it holds and what is in hand changes with its count. -/
theorem Counted.write (h : k.Counted hand) (q : Ref) (m n : ℕ) (b : Bool) (old new : Ref → ℕ)
    (hobject : ∀ r, r ≠ q → k'.object r = k.object r) (hq : k'.object q = some (n, b))
    (hm : (k.object q).elim 0 Prod.fst = m) (hb : b = true ↔ n = 0)
    (hsum : ∀ r, k'.holders r + old r = k.holders r + new r)
    (hhand : ∀ r, new r + hand'.count r + (if r = q then m else 0) =
      old r + hand.count r + if r = q then n else 0) : k'.Counted hand' := by
  have hbefore : k.holders q + hand.count q = m := by
    rw [← hm]
    cases ho : k.object q with
    | none => exact h.known q ho
    | some o => exact (h.count q o.1 o.2 ho).1.symm
  have hother : ∀ r, r ≠ q → k'.holders r + hand'.count r = k.holders r + hand.count r := by
    intro r hr
    have hnow := hhand r
    have hr' := hsum r
    rw [if_neg hr, if_neg hr] at hnow
    omega
  have hself : n = k'.holders q + hand'.count q := by
    have hnow := hhand q
    have hq' := hsum q
    rw [if_pos rfl, if_pos rfl] at hnow
    omega
  constructor
  · intro r n' f hr
    by_cases hrq : r = q
    · rw [hrq] at hr ⊢
      cases hq.symm.trans hr
      exact ⟨hself, hb⟩
    · rw [hother r hrq]
      exact h.count r n' f (hobject r hrq ▸ hr)
  · intro r hr
    by_cases hrq : r = q
    · rw [hrq, hq] at hr
      cases hr
    · rw [hother r hrq]
      exact h.known r (hobject r hrq ▸ hr)

theorem Counted.shift (h : k.Counted hand) (hobject : ∀ r, k'.object r = k.object r)
    (htotal : ∀ r, k'.holders r + hand'.count r = k.holders r + hand.count r) :
    k'.Counted hand' := by
  constructor
  · intro r m f hr
    rw [htotal]
    exact h.count r m f (hobject r ▸ hr)
  · intro r hr
    rw [htotal]
    exact h.known r (hobject r ▸ hr)

theorem Counted.same (h : k.Counted hand) (hs : SameRefs k k') : k'.Counted hand :=
  h.shift hs.object fun r => by rw [hs.holders]

theorem Counted.live (h : k.Counted hand) (hr : 0 < k.holders r + hand.count r) :
    ∃ n, k.object r = some (n, false) ∧ n = k.holders r + hand.count r := by
  cases ho : k.object r with
  | none => exact absurd (h.known r ho) hr.ne'
  | some o =>
    obtain ⟨n, freed⟩ := o
    obtain ⟨hn, hfreed⟩ := h.count r n freed ho
    cases freed with
    | false => exact ⟨n, rfl, hn⟩
    | true => exact absurd (hfreed.mp rfl) (by omega)

theorem fileHolds_some (r : Ref) (f : File) :
    fileHolds r (some f) = if r = f.ref then 1 else 0 := by
  simp [fileHolds, eq_comm]

theorem Counted.install (h : k.Counted (f.ref :: hand)) :
    (k.install f).Counted hand := by
  refine h.shift (fun r => by cases r <;> rfl) fun r => ?_
  simp only [holders, Device.install, map_append, sum_append, map_cons,
    map_nil, sum_singleton, fileHolds_some, count_ref_cons]
  omega

theorem Counted.close (h : k.Counted hand) (hf : k.files[n]? = some (some f)) :
    ({ k with files := k.files.set n none } : Device).Counted (f.ref :: hand) := by
  refine h.shift (fun r => by cases r <;> rfl) fun r => ?_
  have hsum := Forest.sum_map_set (fileHolds r) hf none
  rw [fileHolds_some, show fileHolds r none = 0 from rfl] at hsum
  simp only [holders, count_ref_cons]
  omega

theorem Counted.defer (m : List Ref) (h : k.Counted (m ++ hand)) :
    ({ k with puts := k.puts ++ m } : Device).Counted hand := by
  refine h.shift (fun r => by cases r <;> rfl) fun r => ?_
  simp only [holders, count_append]
  omega

theorem Counted.due (h : k.Counted hand) (hr : k.puts[n]? = some q) :
    ({ k with puts := k.puts.eraseIdx n } : Device).Counted (q :: hand) := by
  refine h.shift (fun r => by cases r <;> rfl) fun r => ?_
  obtain ⟨hn, hget⟩ := List.getElem?_eq_some_iff.mp hr
  have hperm := (getElem_cons_eraseIdx_perm hn).count_eq r
  rw [hget, count_ref_cons] at hperm
  simp only [holders, count_ref_cons]
  omega

/-! ## Objects come and go -/

theorem getElem?_concat_of_ne {α : Type} (l : List α) (x : α) {n : ℕ} (h : n ≠ l.length) :
    (l ++ [x])[n]? = l[n]? := by
  rw [getElem?_append]
  split
  · rfl
  · rw [getElem?_singleton, if_neg (by omega), getElem?_eq_none (by omega)]

theorem Counted.addCap (h : k.Counted hand) (hrefs : x.refs = 1) (hfreed : x.freed = false)
    (hhand : ∀ r, x.holds r + hand'.count r =
      hand.count r + if r = .cap k.caps.length then 1 else 0) :
    ({ k with caps := k.caps ++ [x] } : Device).Counted hand' := by
  refine h.write (.cap k.caps.length) 0 1 false (fun _ => 0) x.holds ?_ ?_ ?_ ?_ ?_ ?_
  · intro r hr
    cases r with
    | cap c => simp [object, getElem?_concat_of_ne _ _ fun heq => hr (congrArg Ref.cap heq)]
    | session i => rfl
  · simp [object, hrefs, hfreed]
  · simp [object]
  · simp
  · intro r
    simp only [holders, map_append, sum_append, map_cons, map_nil, sum_singleton]
    omega
  · simpa using hhand

theorem Counted.addSession (h : k.Counted hand) (hrefs : s.refs = 2) (hfreed : s.freed = false)
    (hhand : ∀ r, s.holds r + hand'.count r =
      hand.count r + if r = .session k.sessions.length then 2 else 0) :
    ({ k with sessions := k.sessions ++ [s] } : Device).Counted hand' := by
  refine h.write (.session k.sessions.length) 0 2 false (fun _ => 0) s.holds ?_ ?_ ?_ ?_ ?_ ?_
  · intro r hr
    cases r with
    | cap c => rfl
    | session i => simp [object, getElem?_concat_of_ne _ _ fun heq => hr (congrArg Ref.session heq)]
  · simp [object, hrefs, hfreed]
  · simp [object]
  · simp
  · intro r
    simp only [holders, map_append, sum_append, map_cons, map_nil, sum_singleton]
    omega
  · simpa using hhand

theorem Counted.setCap (h : k.Counted hand) (hc : k.caps[c]? = some x)
    (y : Capability) (hfreed : y.freed = true ↔ y.refs = 0)
    (hhand : ∀ r, y.holds r + hand'.count r + (if r = .cap c then x.refs else 0) =
      x.holds r + hand.count r + if r = .cap c then y.refs else 0) :
    ({ k with caps := k.caps.set c y } : Device).Counted hand' := by
  have hlt := (List.getElem?_eq_some_iff.mp hc).1
  refine h.write (.cap c) x.refs y.refs y.freed x.holds y.holds ?_ ?_ ?_ hfreed ?_ hhand
  · intro r hr
    cases r with
    | cap d =>
      have hd : c ≠ d := fun heq => hr (congrArg Ref.cap heq.symm)
      simp [object, getElem?_set_ne hd]
    | session i => rfl
  · simp [object, hlt]
  · simp [object, hc]
  · intro r
    have hset := Forest.sum_map_set (Capability.holds r) hc y
    simp only [holders]
    omega

theorem Counted.setSession (h : k.Counted hand) (hi : k.sessions[i]? = some s)
    (t : Inference) (hfreed : t.freed = true ↔ t.refs = 0)
    (hhand : ∀ r, t.holds r + hand'.count r + (if r = .session i then s.refs else 0) =
      s.holds r + hand.count r + if r = .session i then t.refs else 0) :
    ({ k with sessions := k.sessions.set i t } : Device).Counted hand' := by
  have hlt := (List.getElem?_eq_some_iff.mp hi).1
  refine h.write (.session i) s.refs t.refs t.freed s.holds t.holds ?_ ?_ ?_ hfreed ?_ hhand
  · intro r hr
    cases r with
    | cap c => rfl
    | session j =>
      have hj : i ≠ j := fun heq => hr (congrArg Ref.session heq.symm)
      simp [object, getElem?_set_ne hj]
  · simp [object, hlt]
  · simp [object, hi]
  · intro r
    have hset := Forest.sum_map_set (Inference.holds r) hi t
    simp only [holders]
    omega

theorem Counted.cap_live (h : k.Counted hand)
    (hr : 0 < k.holders (.cap c) + hand.count (.cap c)) :
    ∃ x, k.caps[c]? = some x ∧ x.freed = false ∧
      x.refs = k.holders (.cap c) + hand.count (.cap c) := by
  obtain ⟨n, hobject, hn⟩ := h.live hr
  obtain ⟨x, hx, heq⟩ := Option.map_eq_some_iff.mp hobject
  rw [Prod.mk.injEq] at heq
  exact ⟨x, hx, heq.2, heq.1.trans hn⟩

theorem Counted.session_live (h : k.Counted hand)
    (hr : 0 < k.holders (.session i) + hand.count (.session i)) :
    ∃ s, k.sessions[i]? = some s ∧ s.freed = false ∧
      s.refs = k.holders (.session i) + hand.count (.session i) := by
  obtain ⟨n, hobject, hn⟩ := h.live hr
  obtain ⟨s, hs, heq⟩ := Option.map_eq_some_iff.mp hobject
  rw [Prod.mk.injEq] at heq
  exact ⟨s, hs, heq.2, heq.1.trans hn⟩

theorem holds_of_live (h : x.freed = false) (r : Ref) :
    x.holds r = (x.parent.toList.map Ref.cap).count r := by
  cases hp : x.parent with
  | none => simp [Capability.holds, hp]
  | some p => simp [Capability.holds, h, hp, count_cons]

theorem Counted.capGet (h : k.Counted hand) (hc : k.caps[c]? = some x)
    (hlive : x.freed = false) : (k.capGet c).Counted (.cap c :: hand) := by
  unfold Device.capGet modifyCap
  rw [modify_of_getElem? hc]
  refine h.setCap hc { x with refs := x.refs + 1 } (by simp [hlive]) fun r => ?_
  rw [count_ref_cons]
  change x.holds r + _ + _ = _
  dsimp only
  split_ifs <;> omega

theorem Counted.capPut (h : k.Counted (.cap c :: hand)) : (k.capPut c).Counted hand := by
  obtain ⟨x, hx, hlive, hrefs⟩ := h.cap_live (c := c) (by simp)
  rw [count_cons_self] at hrefs
  unfold Device.capPut
  rw [hx]
  dsimp only
  split
  · rename_i hone
    unfold modifyCap
    rw [modify_of_getElem? hx]
    -- the reference of the freed capability to its parent is due next
    have hset : ({ k with caps := k.caps.set c { x with refs := 0, freed := true } } :
        Device).Counted (x.parent.toList.map Ref.cap ++ hand) := by
      have hnone : ∀ r, Capability.holds r { x with refs := 0, freed := true } = 0 := by
        simp [Capability.holds]
      refine h.setCap hx { x with refs := 0, freed := true } (by simp) fun r => ?_
      rw [hnone, holds_of_live hlive, count_append, count_ref_cons]
      dsimp only
      split_ifs <;> omega
    exact Counted.defer _ hset
  · unfold modifyCap
    rw [modify_of_getElem? hx]
    refine h.setCap hx { x with refs := x.refs - 1 } ?_ fun r => ?_
    · simp only [hlive, Bool.false_eq_true, false_iff]
      omega
    · rw [count_ref_cons]
      change x.holds r + _ + _ = _
      dsimp only
      split_ifs <;> omega

theorem Counted.sessionPut (h : k.Counted (.session i :: hand)) :
    (k.sessionPut i).Counted hand := by
  obtain ⟨s, hs, hlive, hrefs⟩ := h.session_live (i := i) (by simp)
  rw [count_cons_self] at hrefs
  have hholds : ∀ r, s.holds r = [Ref.cap s.cap].count r := by
    simp [Inference.holds, hlive, count_cons]
  unfold Device.sessionPut
  rw [hs]
  dsimp only
  split
  · rename_i hone
    unfold modifySession
    rw [modify_of_getElem? hs]
    have hset : ({ k with sessions := k.sessions.set i { s with refs := 0, freed := true } } :
        Device).Counted ([Ref.cap s.cap] ++ hand) := by
      have hnone : ∀ r, Inference.holds r { s with refs := 0, freed := true } = 0 := by
        simp [Inference.holds]
      refine h.setSession hs { s with refs := 0, freed := true } (by simp) fun r => ?_
      rw [hnone, hholds, count_append, count_ref_cons (q := .session i)]
      dsimp only
      split_ifs <;> omega
    exact Counted.defer _ hset
  · unfold modifySession
    rw [modify_of_getElem? hs]
    refine h.setSession hs { s with refs := s.refs - 1 } ?_ fun r => ?_
    · simp only [hlive, Bool.false_eq_true, false_iff]
      omega
    · rw [count_ref_cons]
      change s.holds r + _ + _ = _
      dsimp only
      split_ifs <;> omega

/-! ## Operations count -/

theorem counted_initial : initial.Counted [] := by
  constructor
  · intro r n freed hr
    cases r <;> simp [object, initial] at hr
  · intro r _
    simp [holders, initial]

theorem holders_pos (h : k.file n = some f) : 0 < k.holders f.ref := by
  have hf : k.files[n]? = some (some f) := Option.join_eq_some_iff.mp h
  have hmem : fileHolds f.ref (some f) ∈ k.files.map (fileHolds f.ref) :=
    mem_map_of_mem (mem_of_getElem? hf)
  have hle := single_le_sum (fun _ _ => Nat.zero_le _) _ hmem
  rw [fileHolds_some, if_pos rfl] at hle
  unfold holders
  omega

theorem Counted.addCap_root (h : k.Counted hand) (policy : CapPolicy) :
    (k.addCap none policy).Counted (.cap k.caps.length :: hand) := by
  refine Counted.addCap h rfl rfl fun r => ?_
  simp [Capability.holds, count_ref_cons]

theorem Counted.addCap_child {p : ℕ} (h : k.Counted hand)
    (hp : k.caps[p]? = some x) (hlive : x.freed = false) (policy : CapPolicy) :
    (k.addCap (some p) policy).Counted (.cap k.caps.length :: hand) := by
  have hlen : (k.capGet p).caps.length = k.caps.length := by
    simp [Device.capGet, modifyCap]
  refine Counted.addCap (h.capGet hp hlive) rfl rfl fun r => ?_
  simp [Capability.holds, count_ref_cons, hlen, eq_comm]
  omega

theorem Counted.placed {kn : Device} (h : kn.Counted (.cap c :: hand)) :
    (kn.install (.cap c)).Counted hand ∧
      ({ kn with puts := kn.puts ++ [.cap c] } : Device).Counted hand :=
  ⟨Counted.install (f := .cap c) h, Counted.defer [.cap c] h⟩

theorem capNew_counted (h : k.Counted []) {parent : Option ℕ}
    (hparent : ∀ p, parent = some p → ∃ x, k.caps[p]? = some x ∧ x.freed = false)
    (arg : Option CapPolicy) (fault : Option CapFault) :
    (k.capNew parent arg fault).2.Counted [] := by
  unfold capNew
  cases k.mayCreate parent arg with
  | error e => exact h
  | ok policy =>
    have hadd : (k.addCap parent policy).Counted [.cap k.caps.length] := by
      cases parent with
      | none => exact h.addCap_root policy
      | some p =>
        obtain ⟨x, hx, hlive⟩ := hparent p rfl
        exact h.addCap_child hx hlive policy
    have hputs : (k.addCap parent policy).puts = k.puts := by
      cases parent <;> rfl
    cases fault with
    | none => exact hadd.placed.1
    | some f =>
      cases f with
      | memory => exact h
      | file e => exact hputs ▸ hadd.placed.2

theorem sessionNew_counted (h : k.Counted []) (hc : k.caps[c]? = some x)
    (hlive : x.freed = false) (fault : Option Errno) : (k.sessionNew c fault).2.Counted [] := by
  unfold sessionNew
  rw [hc]
  dsimp only
  split
  · exact h
  cases fault with
  | some e => exact h
  | none =>
    have hadd : ({ k.capGet c with sessions := k.sessions ++ [newSession c x.policy.taint] } :
        Device).Counted [.session k.sessions.length, .session k.sessions.length] := by
      refine Counted.addSession (h.capGet hc hlive) rfl rfl fun r => ?_
      have hsessions : (k.capGet c).sessions = k.sessions := rfl
      simp only [count_ref_cons, hsessions, Inference.holds, newSession, true_and, count_nil,
        eq_comm (a := Ref.cap c)]
      by_cases hr : r = .session k.sessions.length <;> simp [hr]
    exact (Counted.install (f := .client k.sessions.length) hadd).install
      (f := .backend k.sessions.length)

theorem capIoctl_counted (h : k.Counted []) (hc : k.caps[c]? = some x)
    (hlive : x.freed = false) (cmd : CapCmd) : (k.capIoctl c cmd).2.Counted [] := by
  unfold capIoctl
  split
  · exact h
  cases cmd with
  | derive arg fault =>
    refine capNew_counted h ?_ arg fault
    rintro p ⟨⟩
    exact ⟨x, hc, hlive⟩
  | revoke =>
    dsimp only
    split
    · exact h.same (sameRefs_modifyCap (by intro x; rfl) k c)
    · exact h
  | check => exact h
  | sessionCreate fault => exact sessionNew_counted h hc hlive fault
  | unknown => exact h

theorem release_counted (h : k.Counted [f.ref]) : (k.release f).Counted [] := by
  cases f with
  | cap c => exact Counted.defer [.cap c] h
  | client i | backend i =>
    have habandon := (abandon_edits k i).sameRefs
    have hput := Counted.defer [.session i] (h.same habandon)
    rw [habandon.puts] at hput
    exact hput

end Device

open Device in
theorem step_counted {k : Device} (h : k.Counted []) (op : Op) : (step k op).2.Counted [] := by
  cases op with
  | create rights arg fault =>
    dsimp only [step]
    split
    · exact h
    · exact capNew_counted h (by simp) arg fault
  | cap fd cmd =>
    dsimp only [step]
    split
    · rename_i c hf
      obtain ⟨x, hx, hlive, _⟩ := h.cap_live (c := c) (Nat.add_pos_left (holders_pos hf) _)
      exact capIoctl_counted h hx hlive cmd
    · exact h
    · exact h
  | session fd cmd =>
    dsimp only [step]
    split
    · exact h.same (sessionIoctl_edits k _ false cmd).sameRefs
    · exact h.same (sessionIoctl_edits k _ true cmd).sameRefs
    · exact h
    · exact h
  | close fd =>
    dsimp only [step]
    split
    · rename_i f hf
      exact release_counted (h.close (Option.join_eq_some_iff.mp hf))
    · exact h
  | put n =>
    dsimp only [step]
    split
    · rename_i r hr
      have hdue := h.due hr
      cases r with
      | cap c => exact hdue.capPut
      | session i => exact hdue.sessionPut
    · exact h

theorem run_counted {k : Device} (h : k.Counted []) (ops : List Op) : (run k ops).Counted [] := by
  induction ops generalizing k with
  | nil => exact h
  | cons op ops ih => exact ih (step_counted h op)

namespace Device

variable {k : Device}

theorem Counted.path_live (h : k.Counted []) (ho : Forest.Ordered k.parent) {c a : ℕ}
    (hc : k.caps[c]? = some x) (hlive : x.freed = false) (ha : a ∈ k.path c) :
    ∃ y, k.caps[a]? = some y ∧ y.freed = false := by
  induction c using Forest.path_induction ho generalizing x with
  | root c hp =>
    rw [path, Forest.path_of_none hp, mem_singleton] at ha
    exact ⟨x, ha ▸ hc, hlive⟩
  | child c p hp ih =>
    rcases (Forest.mem_path_iff ho).mp ha with rfl | ⟨q, hq, hmem⟩
    · exact ⟨x, hc, hlive⟩
    · cases hp.symm.trans hq
      have hxp : x.parent = some p := by
        rw [parent, hc] at hp
        exact hp
      have hholds : x.holds (.cap p) = 1 := by simp [Capability.holds, hlive, hxp]
      have hle := single_le_sum (fun _ _ => Nat.zero_le _) _
        (mem_map_of_mem (f := Capability.holds (.cap p)) (mem_of_getElem? hc))
      have hpos : 0 < k.holders (.cap p) + [].count (Ref.cap p) := by
        unfold holders
        omega
      obtain ⟨y, hy, hylive, _⟩ := h.cap_live hpos
      exact ih hy hylive hmem

theorem Counted.session_cap_live (h : k.Counted []) {i : ℕ}
    (hi : k.sessions[i]? = some s) (hlive : s.freed = false) :
    ∃ y, k.caps[s.cap]? = some y ∧ y.freed = false := by
  have hholds : s.holds (.cap s.cap) = 1 := by simp [Inference.holds, hlive]
  have hle := single_le_sum (fun _ _ => Nat.zero_le _) _
    (mem_map_of_mem (f := Inference.holds (.cap s.cap)) (mem_of_getElem? hi))
  have hpos : 0 < k.holders (.cap s.cap) + [].count (Ref.cap s.cap) := by
    unfold holders
    omega
  obtain ⟨y, hy, hylive, _⟩ := h.cap_live hpos
  exact ⟨y, hy, hylive⟩

/-! ## Requests are attended -/

def Attended (k : Device) : Prop := ∀ (i : ℕ) (s : Inference), k.sessions[i]? = some s →
  s.io.state.isOpen = true → ∃ (n : ℕ) (f : File), k.file n = some f ∧ f.ref = .session i

theorem unreserve_frame {i j : ℕ} (h : j ≠ i) (k : Device) (used : UInt64) :
    (k.unreserve i used).sessions[j]? = k.sessions[j]? := by
  unfold unreserve
  split
  · rfl
  · exact getElem?_modify_ne h _ _

theorem Edits.frame {k' : Device} {i j : ℕ} (h : Edits k i k') (hj : j ≠ i) :
    k'.sessions[j]? = k.sessions[j]? := by
  cases h with
  | none => rfl
  | write g hg => exact getElem?_modify_ne hj _ _
  | charge hs f hf g hg => exact getElem?_modify_ne hj _ _
  | settle used g hg => exact (getElem?_modify_ne hj _ _).trans (unreserve_frame hj k used)

theorem abandon_closed (k : Device) (i : ℕ)
    (h : (k.abandon i).sessions[i]? = some s) : s.io.state.isOpen = false := by
  unfold abandon at h
  split at h
  · rename_i hnone
    rw [hnone] at h
    cases h
  · rename_i t ht
    split at h
    · simp only [modifySession, getElem?_modify_eq, sessions_unreserve ht] at h
      cases h
      rfl
    · rename_i hclosed
      cases ht.symm.trans h
      exact Bool.eq_false_of_not_eq_true hclosed

theorem Attended.of_files {k' : Device} (h : k.Attended)
    (hfiles : ∀ n f, k.file n = some f → k'.file n = some f)
    (hopen : ∀ (i : ℕ) (s : Inference), k'.sessions[i]? = some s → s.io.state.isOpen = true →
      k.sessions[i]? = some s) : k'.Attended := by
  intro i s hs ho
  obtain ⟨n, f, hf, href⟩ := h i s (hopen i s hs ho) ho
  exact ⟨n, f, hfiles n f hf, href⟩

theorem file_append {k' : Device} {more : List (Option File)} (h : k'.files = k.files ++ more)
    (n : ℕ) (f : File) (hf : k.file n = some f) : k'.file n = some f := by
  have hn : k.files[n]? = some (some f) := Option.join_eq_some_iff.mp hf
  rw [file, h, getElem?_append_left (List.getElem?_eq_some_iff.mp hn).1, hn]
  rfl

theorem capNew_attended (h : k.Attended) (parent : Option ℕ) (arg : Option CapPolicy)
    (fault : Option CapFault) : (k.capNew parent arg fault).2.Attended := by
  have hadd : ∀ policy, (k.addCap parent policy).sessions = k.sessions ∧
      (k.addCap parent policy).files = k.files := by
    intro policy
    cases parent <;> exact ⟨rfl, rfl⟩
  unfold capNew
  cases k.mayCreate parent arg with
  | error e => exact h
  | ok policy =>
    obtain ⟨hsessions, hfiles⟩ := hadd policy
    cases fault with
    | none =>
      refine h.of_files (file_append (congrArg (· ++ _) hfiles)) fun i s hs _ => ?_
      exact hsessions ▸ hs
    | some f =>
      cases f with
      | memory => exact h
      | file e =>
        refine h.of_files (file_append (hfiles.trans (append_nil _).symm)) fun i s hs _ => ?_
        exact hsessions ▸ hs

theorem sessionNew_attended (h : k.Attended) (c : ℕ) (fault : Option Errno) :
    (k.sessionNew c fault).2.Attended := by
  unfold sessionNew
  split
  · exact h
  split
  · exact h
  cases fault with
  | some e => exact h
  | none =>
    refine h.of_files (file_append (append_assoc _ _ _)) fun i s hs ho => ?_
    rcases getElem?_append_one hs with hold | ⟨_, rfl⟩
    · exact hold
    · cases ho

theorem capIoctl_attended (h : k.Attended) (c : ℕ) (cmd : CapCmd) :
    (k.capIoctl c cmd).2.Attended := by
  unfold capIoctl
  split
  · exact h
  cases cmd with
  | derive arg fault => exact capNew_attended h (some c) arg fault
  | revoke =>
    dsimp only
    split <;> exact h
  | check => exact h
  | sessionCreate fault => exact sessionNew_attended h c fault
  | unknown => exact h

theorem sessionIoctl_attended (h : k.Attended) {n i : ℕ} (hf : k.file n = some f)
    (href : f.ref = .session i) (backend : Bool) (cmd : SessionCmd) :
    (k.sessionIoctl i backend cmd).2.Attended := by
  have hedits := sessionIoctl_edits k i backend cmd
  have hfiles := hedits.sameRefs.files
  have hkeep := file_append (hfiles.trans (append_nil _).symm)
  intro j s hs ho
  by_cases hj : j = i
  · exact ⟨n, f, hkeep n f hf, hj ▸ href⟩
  · rw [hedits.frame hj] at hs
    obtain ⟨m, g, hg, hgref⟩ := h j s hs ho
    exact ⟨m, g, hkeep m g hg, hgref⟩

theorem close_attended (h : k.Attended) {n : ℕ} (hf : k.file n = some f) :
    ({ k with files := k.files.set n none }.release f).Attended := by
  have hother : ∀ m g, m ≠ n → k.file m = some g →
      ({ k with files := k.files.set n none } : Device).file m = some g := by
    intro m g hm hg
    simp only [file, getElem?_set_ne (Ne.symm hm)]
    exact hg
  have hclosed : ∀ i, f.ref = .session i →
      ({ k with files := k.files.set n none }.release f) =
        { ({ k with files := k.files.set n none } : Device).abandon i with
          puts := k.puts ++ [.session i] } := by
    intro i hi
    cases f <;> cases hi <;> rfl
  intro j s hs ho
  -- the file of another session is another file
  have hstays : f.ref ≠ .session j → k.sessions[j]? = some s → ∃ (m : ℕ) (g : File),
      ({ k with files := k.files.set n none } : Device).file m = some g ∧ g.ref = .session j := by
    intro hne hold
    obtain ⟨m, g, hg, hgref⟩ := h j s hold ho
    refine ⟨m, g, hother m g ?_ hg, hgref⟩
    rintro rfl
    cases hf.symm.trans hg
    exact hne hgref
  cases href : f.ref with
  | cap c =>
    obtain rfl : f = .cap c := by cases f <;> cases href; rfl
    exact hstays (by simp [File.ref]) hs
  | session i =>
    rw [hclosed i href] at hs ⊢
    have hedits := abandon_edits { k with files := k.files.set n none } i
    have hfiles := hedits.sameRefs.files
    by_cases hj : j = i
    · rw [hj] at hs
      rw [abandon_closed _ i hs] at ho
      cases ho
    · have hold : k.sessions[j]? = some s :=
        (hedits.frame hj).symm.trans hs
      obtain ⟨m, g, hg, hgref⟩ := hstays (by rw [href]; simpa using Ne.symm hj) hold
      exact ⟨m, g, file_append (hfiles.trans (append_nil _).symm) m g hg, hgref⟩

theorem put_attended (h : k.Attended) {k' : Device} (hbook : k'.book = k.book)
    (hfiles : k'.files = k.files) : k'.Attended := by
  intro i s hs ho
  have hworks := congrArg (fun b => b.works[i]?) hbook
  simp only [book, getElem?_map, hs, Option.map_some] at hworks
  obtain ⟨t, ht, heq⟩ := Option.map_eq_some_iff.mp hworks.symm
  have hio : t.io = s.io := congrArg Work.io heq
  obtain ⟨m, g, hg, hgref⟩ := h i t ht (hio ▸ ho)
  exact ⟨m, g, file_append (hfiles.trans (append_nil _).symm) m g hg, hgref⟩

theorem put_files (k : Device) (r : Ref) : (k.put r).files = k.files := by
  cases r with
  | cap c =>
    dsimp only [put, Device.capPut]
    split
    · rfl
    · split <;> rfl
  | session i =>
    dsimp only [put, Device.sessionPut]
    split
    · rfl
    · split <;> rfl

end Device

theorem step_attended {k : Device} (h : k.Attended) (op : Op) : (step k op).2.Attended := by
  cases op with
  | create rights arg fault =>
    dsimp only [step]
    split
    · exact h
    · exact Device.capNew_attended h none arg fault
  | cap fd cmd =>
    dsimp only [step]
    split
    · exact Device.capIoctl_attended h _ cmd
    · exact h
    · exact h
  | session fd cmd =>
    dsimp only [step]
    split
    · rename_i i hf
      exact Device.sessionIoctl_attended h hf rfl false cmd
    · rename_i i hf
      exact Device.sessionIoctl_attended h hf rfl true cmd
    · exact h
    · exact h
  | close fd =>
    dsimp only [step]
    split
    · rename_i f hf
      exact Device.close_attended h hf
    · exact h
  | put n =>
    dsimp only [step]
    split
    · exact Device.put_attended h (Device.book_put { k with puts := k.puts.eraseIdx n } _)
        (Device.put_files _ _)
    · exact h

theorem run_attended {k : Device} (h : k.Attended) (ops : List Op) : (run k ops).Attended := by
  induction ops generalizing k with
  | nil => exact h
  | cons op ops ih => exact ih (step_attended h op)

end Aok.Kernel
