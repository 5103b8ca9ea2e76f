import Aok.Kernel.AprocMoves
import Aok.Kernel.AprocLife

/-!
# The freezer counter

While a thread works on an aproc its file stays open, and an open file keeps its aproc. The freezer
counter runs behind the states by what the threads have yet to do, so it counts the frozen aprocs
whenever no transition is in progress, as long as no frozen aproc is freed.
-/

namespace Aok.Kernel.Aprocs
open Lib Table Thread

variable {x : Thread} {t f : ℕ} {g : Handle}

theorem Aproc.exit_length (p : Aproc) {koid : ℕ}
    (hm : p.tasks.any (fun x => x.koid == koid) = true) :
    (p.exit koid).tasks.length + 1 = p.tasks.length := by
  obtain ⟨x, hx, hk⟩ := List.any_eq_true.mp hm
  have hlen := List.length_eraseP_of_mem (p := fun x => x.koid == koid) hx hk
  have hpos := List.length_pos_of_mem hx
  change (p.tasks.eraseP fun x => x.koid == koid).length + 1 = _
  omega

namespace Machine

theorem put_eq (k : Machine) (a : ℕ) : ∃ t, k.put a = { k with aprocs := t } := by
  unfold put
  split
  · exact ⟨_, rfl⟩
  · split_ifs <;> exact ⟨_, rfl⟩

/-! ## Open files -/

/-- The files that threads and event sources refer to are open, and numbers are not reused. -/
structure Wired (k : Machine) : Prop where
  files : ∀ (t : ℕ) x f, k.threads[t]? = some x → x.file = some f → (k.handles[f]?).isSome
  bound : k.Bound
  file : ∀ (f : ℕ) h, k.handles[f]? = some h → f < k.nextFile
  thread : ∀ (t : ℕ) x, k.threads[t]? = some x → t < k.nextThread
  issued : k.Issued

namespace Wired

variable {k : Machine}

theorem setAproc (h : k.Wired) {a : ℕ} {p p' : Aproc} (hp : k.aprocs[a]? = some p) :
    (k.setAproc a p').Wired := by
  refine ⟨h.files, h.bound, h.file, h.thread, ?_⟩
  intro b q hq
  simp only [Machine.setAproc, get_insert] at hq
  split_ifs at hq with hb
  · subst hb
    exact h.issued a p hp
  · exact h.issued b q hq

theorem put (h : k.Wired) (a : ℕ) : (k.put a).Wired := by
  unfold Machine.put
  split
  · exact h
  · next p hp =>
    split_ifs
    · refine ⟨h.files, h.bound, h.file, h.thread, ?_⟩
      intro b q hq
      simp only [get_erase] at hq
      split_ifs at hq
      exact h.issued b q hq
    · exact h.setAproc hp

theorem start (h : k.Wired) (hx : ∀ f, x.file = some f → (k.handles[f]?).isSome) :
    (k.start x).Wired := by
  refine ⟨?_, h.bound, h.file, ?_, h.issued⟩
  · intro t y f hy hf
    simp only [Machine.start, Machine.setThread, get_insert] at hy
    split_ifs at hy
    · cases hy
      exact hx f hf
    · exact h.files t y f hy hf
  · intro t y hy
    simp only [Machine.start, Machine.setThread, get_insert] at hy ⊢
    split_ifs at hy with ht
    · omega
    · exact (h.thread t y hy).trans (Nat.lt_succ_self _)

theorem setThread (h : k.Wired) {x' : Thread} (ht : k.threads[t]? = some x)
    (hx : x.file = some f) (hx' : x'.file = some f) : (k.setThread t x').Wired := by
  refine ⟨?_, h.bound, h.file, ?_, h.issued⟩
  · intro u y g hy hg
    simp only [Machine.setThread, get_insert] at hy
    split_ifs at hy
    · cases hy
      cases hx'.symm.trans hg
      exact h.files t x f ht hx
    · exact h.files u y g hy hg
  · intro u y hy
    simp only [Machine.setThread, get_insert] at hy
    split_ifs at hy with hu
    · subst hu
      exact h.thread t x ht
    · exact h.thread u y hy

theorem endThread (h : k.Wired) (t : ℕ) : (k.endThread t).Wired := by
  refine ⟨?_, h.bound, h.file, ?_, h.issued⟩
  · intro u y g hy
    simp only [Machine.endThread, get_erase] at hy
    split_ifs at hy
    exact h.files u y g hy
  · intro u y hy
    simp only [Machine.endThread, get_erase] at hy
    split_ifs at hy
    exact h.thread u y hy

theorem isSome_insert (handles : Table ℕ Handle) (f : ℕ) (g : Handle) (e : ℕ)
    (h : (handles[e]?).isSome) : ((handles.insert f g)[e]?).isSome := by
  rw [get_insert]
  split_ifs
  · rfl
  · exact h

theorem setHandle (h : k.Wired) {g' : Handle} (hg : k.handles[f]? = some g) :
    (k.setHandle f g').Wired := by
  have hkeep := isSome_insert k.handles f g'
  refine ⟨fun t x e hx he => hkeep e (h.files t x e hx he),
    fun s b e hb he => hkeep e (h.bound s b e hb he), ?_, h.thread, h.issued⟩
  intro e x hx
  simp only [Machine.setHandle, get_insert] at hx
  split_ifs at hx with he
  · subst he
    exact h.file f g hg
  · exact h.file e x hx

theorem openHandle (h : k.Wired) (g : Handle) : (k.openHandle g).Wired := by
  have hkeep := isSome_insert k.handles k.nextFile g
  refine ⟨fun t x e hx he => hkeep e (h.files t x e hx he),
    fun s b e hb he => hkeep e (h.bound s b e hb he), ?_, h.thread, h.issued⟩
  intro e x hx
  simp only [Machine.openHandle, Machine.setHandle, get_insert] at hx ⊢
  split_ifs at hx with he
  · omega
  · exact (h.file e x hx).trans (Nat.lt_succ_self _)

theorem close (h : k.Wired) (hheld : k.isHeld f g = false) :
    ({ k with handles := k.handles.erase f } : Machine).Wired := by
  simp only [isHeld, Bool.or_eq_false_iff, List.any_eq_false, decide_eq_true_eq] at hheld
  obtain ⟨⟨-, hthreads⟩, hbindings⟩ := hheld
  have hkeep : ∀ e : ℕ, e ≠ f → (k.handles[e]?).isSome → ((k.handles.erase f)[e]?).isSome := by
    intro e hne he
    rwa [get_erase_ne _ hne.symm]
  refine ⟨?_, ?_, ?_, h.thread, h.issued⟩
  · intro t x e hx he
    refine hkeep e ?_ (h.files t x e hx he)
    rintro rfl
    exact hthreads (t, x) (Std.ExtTreeMap.mem_toList_iff_getElem?_eq_some.mpr hx) he
  · intro s b e hb he
    refine hkeep e ?_ (h.bound s b e hb he)
    rintro rfl
    exact hbindings (s, b) (Std.ExtTreeMap.mem_toList_iff_getElem?_eq_some.mpr hb) he
  · intro e x hx
    simp only [get_erase] at hx
    split_ifs at hx
    exact h.file e x hx

theorem move {k' : Machine} {free : Aproc → Prop} (h : k.Wired) (hm : Move free k k') :
    k'.Wired := by
  cases hm with
  | aproc hp => exact h.setAproc hp
  | @join a p hp koid =>
    have hw : (k.setAproc a (p.enlist koid)).Wired := h.setAproc hp
    exact ⟨hw.files, hw.bound, hw.file, hw.thread, hw.issued⟩
  | leave hp => exact (h.setAproc hp).start fun f hf => by cases hf
  | finish => exact (h.put _).endThread _
  | @release f g hg hheld =>
    have hput := h.put g.aid
    obtain ⟨t, ht⟩ := put_eq k g.aid
    rw [ht] at hput ⊢
    exact hput.close hheld
  | duplicate hp rights => exact (h.setAproc hp).openHandle _
  | create ceiling =>
    have hw : ({ k.setAproc (k.nextAid + 1) (.fresh (k.nextAid + 1) ceiling) with
        nextAid := k.nextAid + 1 } : Machine).Wired := by
      refine ⟨h.files, h.bound, h.file, h.thread, ?_⟩
      intro b q hq
      simp only [Machine.setAproc, get_insert] at hq ⊢
      split_ifs at hq with hb
      · omega
      · exact (h.issued b q hq).trans (Nat.le_succ _)
    exact hw.openHandle _
  | fds hh => exact h.setHandle hh
  | @bind target ht source policy =>
    refine ⟨h.files, ?_, h.file, h.thread, h.issued⟩
    intro s b f hb hf
    simp only [get_insert] at hb
    split_ifs at hb
    · cases hb
      exact ht f hf
    · exact h.bound s b f hb hf
  | unbind source =>
    refine ⟨h.files, ?_, h.file, h.thread, h.issued⟩
    intro s b f hb hf
    simp only [get_erase] at hb
    split_ifs at hb
    exact h.bound s b f hb hf
  | start hx hf =>
    refine h.start fun g hg => ?_
    cases hx.symm.trans hg
    exact hf
  | thread ht hx hx' => exact h.setThread ht hx hx'
  | stop => exact h.endThread _
  | commit hp _ ht hx hx' => exact (h.setAproc hp).setThread ht hx hx'
  | enter ht =>
    have hw : k.freezerEnter.Wired := ⟨h.files, h.bound, h.file, h.thread, h.issued⟩
    exact hw.setThread ht rfl rfl
  | quit ht =>
    have hw : k.freezerLeave.Wired := ⟨h.files, h.bound, h.file, h.thread, h.issued⟩
    exact hw.setThread ht rfl rfl

end Wired

/-! ## References -/

def refsOf (k : Machine) (a : ℕ) : ℕ := (k.aprocs[a]?).elim 0 Aproc.refs

def membersOf (k : Machine) (a : ℕ) : ℕ := (k.aprocs[a]?).elim 0 fun p => p.tasks.length

def handlesOf (k : Machine) (a : ℕ) : ℕ :=
  total (fun _ h => if h.aid = a then 1 else 0) k.handles

def weigh (k : Machine) (w : Thread → ℕ) : ℕ := total (fun _ x => w x) k.threads

def leaversOf (k : Machine) (a : ℕ) : ℕ := k.weigh (leaves a)

/-- The references of an aproc are its handles, its members and the tasks that are leaving. -/
structure Counted (k : Machine) : Prop where
  refs : ∀ a, k.refsOf a = k.handlesOf a + k.membersOf a + k.leaversOf a
  live : ∀ (a : ℕ) p, k.aprocs[a]? = some p → 0 < p.refs

section Totals

variable {k : Machine} {a b : ℕ} {p : Aproc}

theorem refsOf_eq (h : k.aprocs[a]? = some p) : k.refsOf a = p.refs := by simp [refsOf, h]

theorem membersOf_eq (h : k.aprocs[a]? = some p) : k.membersOf a = p.tasks.length := by
  simp [membersOf, h]

theorem weigh_start (h : k.Wired) (x : Thread) (w : Thread → ℕ) :
    (k.start x).weigh w = k.weigh w + w x := by
  have hnone : k.threads[k.nextThread]? = none := by
    cases ht : k.threads[k.nextThread]? with
    | none => rfl
    | some y => exact absurd (h.thread _ y ht) (lt_irrefl _)
  exact total_insert_of_none _ x hnone

theorem weigh_setThread (ht : k.threads[t]? = some x) (x' : Thread)
    (w : Thread → ℕ) : (k.setThread t x').weigh w + w x = k.weigh w + w x' :=
  total_insert_of_get (fun _ x => w x) x' ht

theorem weigh_endThread (ht : k.threads[t]? = some x) (w : Thread → ℕ) :
    (k.endThread t).weigh w + w x = k.weigh w :=
  total_erase_of_get (fun _ x => w x) ht

theorem leaversOf_setThread {x' : Thread} (ht : k.threads[t]? = some x) (b : ℕ)
    (hl : x'.leaves b = x.leaves b) : (k.setThread t x').leaversOf b = k.leaversOf b := by
  have htotal := weigh_setThread ht x' (leaves b)
  simp only [leaversOf]
  omega

theorem handlesOf_openHandle (h : k.Wired) (g : Handle) (b : ℕ) :
    (k.openHandle g).handlesOf b = k.handlesOf b + if g.aid = b then 1 else 0 := by
  have hnone : k.handles[k.nextFile]? = none := by
    cases hf : k.handles[k.nextFile]? with
    | none => rfl
    | some y => exact absurd (h.file _ y hf) (lt_irrefl _)
  exact total_insert_of_none _ g hnone

theorem handlesOf_setHandle (hf : k.handles[f]? = some g) (n b : ℕ) :
    (k.setHandle f { g with fds := n }).handlesOf b = k.handlesOf b := by
  have htotal := total_insert_of_get (fun _ h => if h.aid = b then 1 else 0)
    { g with fds := n } hf
  exact Nat.add_right_cancel htotal

theorem handlesOf_erase (hf : k.handles[f]? = some g) (b : ℕ) :
    total (fun _ h => if h.aid = b then 1 else 0) (k.handles.erase f) +
      (if g.aid = b then 1 else 0) = k.handlesOf b :=
  total_erase_of_get (fun _ h => if h.aid = b then 1 else 0) hf

end Totals

namespace Counted

variable {k k' : Machine}

/-- An aproc is written: its references have changed by what has come and what has gone. -/
theorem insert (h : k.Counted) {a : ℕ} (m n : ℕ) {p' : Aproc}
    (ha : k'.aprocs = k.aprocs.insert a p') (hpos : 0 < p'.refs)
    (hrefs : p'.refs + k.membersOf a + m = k.refsOf a + p'.tasks.length + n)
    (htotal : ∀ b, k'.handlesOf b + k'.leaversOf b + (if a = b then m else 0) =
      k.handlesOf b + k.leaversOf b + if a = b then n else 0) : k'.Counted := by
  constructor
  · intro b
    have hold := h.refs b
    have hnow := htotal b
    by_cases hb : a = b
    · subst hb
      simp only [if_true] at hnow
      simp only [refsOf_eq (show k'.aprocs[a]? = some p' by simp [ha]),
        membersOf_eq (show k'.aprocs[a]? = some p' by simp [ha])]
      omega
    · simp only [if_neg hb] at hnow
      have hget : k'.aprocs[b]? = k.aprocs[b]? := by rw [ha, get_insert, if_neg hb]
      simp only [refsOf, membersOf, hget] at hold ⊢
      omega
  · intro b q hq
    rw [ha, get_insert] at hq
    split_ifs at hq
    · cases hq
      exact hpos
    · exact h.live b q hq

theorem setAproc (h : k.Counted) {a : ℕ} {p p' : Aproc} (hp : k.aprocs[a]? = some p)
    (hs : p.Still p') : (k.setAproc a p').Counted := by
  refine h.insert 0 0 rfl (hs.refs ▸ h.live a p hp) ?_ fun b => rfl
  rw [refsOf_eq hp, membersOf_eq hp, hs.refs, hs.members]

theorem congr (h : k.Counted) (ha : k'.aprocs = k.aprocs)
    (hh : ∀ b, k'.handlesOf b = k.handlesOf b) (hl : ∀ b, k'.leaversOf b = k.leaversOf b) :
    k'.Counted := by
  constructor
  · intro b
    simp only [refsOf, membersOf, ha, hh, hl]
    exact h.refs b
  · rw [ha]
    exact h.live

theorem put (h : k.Counted) {a : ℕ} (hpos : 0 < k.handlesOf a + k.leaversOf a)
    (ha : k'.aprocs = (k.put a).aprocs)
    (hdrop : ∀ b, k'.handlesOf b + k'.leaversOf b + (if a = b then 1 else 0) =
      k.handlesOf b + k.leaversOf b) : k'.Counted := by
  have hold := h.refs a
  cases hp : k.aprocs[a]? with
  | none =>
    simp only [refsOf, hp, Option.elim_none] at hold
    omega
  | some p =>
    by_cases hr : p.refs = 1
    · -- the last reference was the one that goes
      rw [refsOf_eq hp, hr] at hold
      have herase : k'.aprocs = k.aprocs.erase a := by simp [ha, Machine.put, hp, hr]
      constructor
      · intro b
        have hb := h.refs b
        have hnow := hdrop b
        simp only [refsOf, membersOf, herase, get_erase]
        split_ifs at hnow ⊢ with hab
        · subst hab
          simp only [Option.elim_none]
          omega
        · simp only [refsOf, membersOf] at hb
          omega
      · intro b q hq
        rw [herase, get_erase] at hq
        split_ifs at hq
        exact h.live b q hq
    · have hlive := h.live a p hp
      have hset : k'.aprocs = k.aprocs.insert a { p with refs := p.refs - 1 } := by
        simp [ha, Machine.put, hp, hr, Machine.setAproc]
      refine h.insert 1 0 hset (by simp only; omega) ?_ fun b => ?_
      · rw [refsOf_eq hp, membersOf_eq hp]
        simp only
        omega
      · rw [hdrop b, ite_self, Nat.add_zero]

theorem move {free : Aproc → Prop} (h : k.Counted) (hw : k.Wired) (hm : Move free k k') :
    k'.Counted := by
  cases hm with
  | aproc hp hs => exact h.setAproc hp hs
  | @join a p hp koid =>
    refine h.insert 0 0 rfl (Nat.succ_pos _) ?_ fun b => rfl
    rw [refsOf_eq hp, membersOf_eq hp]
    simp only [Aproc.enlist, Aproc.emit, List.length_append, List.length_singleton]
    omega
  | @leave a koid p hp hm =>
    refine h.insert 0 1 rfl (h.live a p hp) ?_ fun b => ?_
    · have hlen := p.exit_length hm
      have hrefs : (p.exit koid).refs = p.refs := rfl
      rw [refsOf_eq hp, membersOf_eq hp]
      omega
    · rw [leaversOf, weigh_start (hw.setAproc hp), ite_self, ← Nat.add_assoc]
      rfl
  | @finish a t ht =>
    have hone : ∀ b, leaves b (.exited a) = if a = b then 1 else 0 := fun b => rfl
    have hdrop : ∀ b, (k.endThread t).leaversOf b + _ = k.leaversOf b :=
      fun b => weigh_endThread ht (leaves b)
    refine h.put (a := a) ?_ rfl ?_
    · have hd := hdrop a
      rw [hone, if_pos rfl] at hd
      omega
    · intro b
      have hd := hdrop b
      rw [hone] at hd
      obtain ⟨tab, htab⟩ := put_eq k a
      rw [htab]
      change k.handlesOf b + (k.endThread t).leaversOf b + _ = _
      omega
  | @release f g hg hheld =>
    have hdrop := handlesOf_erase hg
    refine h.put (a := g.aid) ?_ rfl ?_
    · have hd := hdrop g.aid
      rw [if_pos rfl] at hd
      omega
    · intro b
      have hd := hdrop b
      obtain ⟨tab, htab⟩ := put_eq k g.aid
      rw [htab]
      change total _ (k.handles.erase f) + k.leaversOf b + _ = _
      omega
  | @duplicate a p hp rights =>
    refine h.insert 0 1 rfl (Nat.succ_pos _) ?_ fun b => ?_
    · rw [refsOf_eq hp, membersOf_eq hp]
      simp only
      omega
    · rw [handlesOf_openHandle (hw.setAproc hp), ite_self, Nat.add_zero, Nat.add_right_comm]
      rfl
  | create ceiling =>
    -- the number is new, so nothing refers to it yet
    have hnone : k.aprocs[k.nextAid + 1]? = none := by
      cases ha : k.aprocs[k.nextAid + 1]? with
      | none => rfl
      | some q => exact absurd (hw.issued _ q ha) (Nat.not_succ_le_self _)
    refine h.insert 0 1 rfl Nat.one_pos ?_ fun b => ?_
    · simp [refsOf, membersOf, hnone, Aproc.fresh]
    · have hopen := handlesOf_openHandle hw ⟨k.nextAid + 1, ceiling, 0⟩ b
      rw [ite_self, Nat.add_zero, Nat.add_right_comm, ← hopen]
      rfl
  | fds hh n => exact h.congr rfl (handlesOf_setHandle hh n) fun b => rfl
  | bind => exact h.congr rfl (fun b => rfl) fun b => rfl
  | unbind => exact h.congr rfl (fun b => rfl) fun b => rfl
  | @start x f hx hf =>
    refine h.congr rfl (fun b => rfl) fun b => ?_
    rw [leaversOf, weigh_start hw, leaves_of_file hx, Nat.add_zero]
    rfl
  | thread ht hx hx' =>
    refine h.congr rfl (fun b => rfl) fun b => leaversOf_setThread ht b ?_
    rw [leaves_of_file hx, leaves_of_file hx']
  | stop ht hx =>
    refine h.congr rfl (fun b => rfl) fun b => ?_
    have hd := weigh_endThread ht (leaves b)
    rwa [leaves_of_file hx, Nat.add_zero] at hd
  | @commit a t f p p' x x' hp hs ht hx hx' =>
    have hset : (k.setAproc a p').threads[t]? = some x := ht
    refine (h.setAproc hp hs).congr rfl (fun b => rfl) fun b => leaversOf_setThread hset b ?_
    rw [leaves_of_file hx, leaves_of_file hx']
  | enter ht => exact h.congr rfl (fun b => rfl) fun b => leaversOf_setThread ht b rfl
  | quit ht => exact h.congr rfl (fun b => rfl) fun b => leaversOf_setThread ht b rfl

end Counted

/-! ## The counter -/

def numFrozen (k : Machine) : ℕ := k.aprocs.toList.countP fun x => x.2.state = .frozen

def marked (k : Machine) : ℕ := total (fun _ p => p.frozenCount) k.aprocs

theorem marked_eq (k : Machine) : k.marked = k.numFrozen := by
  unfold marked numFrozen total
  induction k.aprocs.toList with
  | nil => rfl
  | cons x l ih =>
    rw [List.map_cons, List.sum_cons, ih, List.countP_cons, Nat.add_comm]
    simp [Aproc.frozenCount]

/-- The counter and the threads that have yet to enter make up the frozen aprocs and the threads
that have yet to leave. -/
def Balanced (k : Machine) : Prop :=
  k.frozenAprocs + k.weigh enters = k.marked + k.weigh owes

section Marked

variable {k : Machine} {a : ℕ} {p : Aproc}

theorem marked_setAproc (hp : k.aprocs[a]? = some p) (p' : Aproc) :
    (k.setAproc a p').marked + p.frozenCount = k.marked + p'.frozenCount :=
  total_insert_of_get (fun _ p => Aproc.frozenCount p) p' hp

theorem marked_put (hfree : ∀ p, k.aprocs[a]? = some p → p.refs = 1 → p.state ≠ .frozen) :
    (k.put a).marked = k.marked := by
  unfold put
  split
  · rfl
  · next p hp =>
    split_ifs with hr
    · have htotal := total_erase_of_get (fun _ p => Aproc.frozenCount p) hp
      have hzero : p.frozenCount = 0 := if_neg (hfree p hp hr)
      change total _ (k.aprocs.erase a) = total _ k.aprocs
      omega
    · exact Nat.add_right_cancel (marked_setAproc hp { p with refs := p.refs - 1 })

theorem frozenCount_exit (p : Aproc) (koid : ℕ) : (p.exit koid).frozenCount = p.frozenCount := by
  simp only [Aproc.exit, Aproc.frozenCount, Aproc.emit]
  split_ifs with hrun hx hx <;> simp_all

end Marked

namespace Balanced

variable {k k' : Machine}

theorem congr (h : k.Balanced) (hz : k'.frozenAprocs = k.frozenAprocs)
    (hm : k'.marked = k.marked) (he : k'.weigh enters = k.weigh enters)
    (ho : k'.weigh owes = k.weigh owes) : k'.Balanced := by
  unfold Balanced at h ⊢
  rw [hz, hm, he, ho]
  exact h

theorem setAproc (h : k.Balanced) {a : ℕ} {p p' : Aproc} (hp : k.aprocs[a]? = some p)
    (hf : p'.frozenCount = p.frozenCount) : (k.setAproc a p').Balanced := by
  have hmark := marked_setAproc hp p'
  rw [hf] at hmark
  exact h.congr rfl (Nat.add_right_cancel hmark) rfl rfl

theorem start (h : k.Balanced) (hw : k.Wired) (he : x.enters = 0)
    (ho : x.owes = 0) : (k.start x).Balanced :=
  h.congr rfl rfl (by rw [weigh_start hw, he, Nat.add_zero])
    (by rw [weigh_start hw, ho, Nat.add_zero])

theorem endThread (h : k.Balanced) (ht : k.threads[t]? = some x)
    (he : x.enters = 0) (ho : x.owes = 0) : (k.endThread t).Balanced := by
  have hde := weigh_endThread ht enters
  have hdo := weigh_endThread ht owes
  rw [he] at hde
  rw [ho] at hdo
  exact h.congr rfl rfl hde hdo

theorem put (h : k.Balanced) {a : ℕ}
    (hfree : ∀ p, k.aprocs[a]? = some p → p.refs = 1 → p.state ≠ .frozen) :
    (k.put a).Balanced := by
  have hmark := marked_put hfree
  obtain ⟨t, ht⟩ := put_eq k a
  rw [ht] at hmark ⊢
  exact h.congr rfl hmark rfl rfl

/-- One thread moves on, and the counter and the aprocs with it. -/
theorem advance (h : k.Balanced) {x' : Thread} (ht : k.threads[t]? = some x)
    (hthreads : k'.threads = k.threads.insert t x')
    (hz : k'.frozenAprocs + x'.enters + k.marked + x.owes =
      k.frozenAprocs + x.enters + k'.marked + x'.owes) : k'.Balanced := by
  have hweigh : ∀ w, k'.weigh w + w x = k.weigh w + w x' := by
    intro w
    rw [weigh, hthreads]
    exact weigh_setThread ht x' w
  have hde := hweigh enters
  have hdo := hweigh owes
  unfold Balanced at h ⊢
  omega

theorem move (h : k.Balanced) (hw : k.Wired)
    (hm : Move (fun p => p.state ≠ .frozen) k k') : k'.Balanced := by
  cases hm with
  | aproc hp _ hf => exact h.setAproc hp hf
  | @join a p hp koid =>
    have hb : (k.setAproc a (p.enlist koid)).Balanced := h.setAproc hp rfl
    exact hb.congr rfl rfl rfl rfl
  | @leave a koid p hp =>
    exact (h.setAproc hp (frozenCount_exit p koid)).start (hw.setAproc hp) rfl rfl
  | @finish a t ht hfree =>
    have hb := h.put hfree
    obtain ⟨tab, htab⟩ := put_eq k a
    rw [htab] at hb ⊢
    exact hb.endThread ht rfl rfl
  | @release f g hg hheld hfree =>
    have hb := h.put hfree
    obtain ⟨tab, htab⟩ := put_eq k g.aid
    rw [htab] at hb ⊢
    exact hb.congr rfl rfl rfl rfl
  | @duplicate a p hp rights =>
    have hb : (k.setAproc a { p with refs := p.refs + 1 }).Balanced := h.setAproc hp rfl
    exact hb.congr rfl rfl rfl rfl
  | create ceiling =>
    have hnone : k.aprocs[k.nextAid + 1]? = none := by
      cases ha : k.aprocs[k.nextAid + 1]? with
      | none => rfl
      | some q => exact absurd (hw.issued _ q ha) (Nat.not_succ_le_self _)
    exact h.congr rfl (total_insert_of_none _ _ hnone) rfl rfl
  | fds | bind | unbind => exact h
  | start _ _ hi => exact h.start hw (enters_of_idle hi) (owes_of_idle hi)
  | @thread t f x x' ht _ _ he ho =>
    refine h.advance ht rfl ?_
    rw [he, ho]
    rfl
  | stop ht _ he ho => exact h.endThread ht he ho
  | @commit a t f p p' x x' hp _ ht _ _ he ho hf =>
    refine h.advance ht rfl ?_
    have hmark := marked_setAproc hp p'
    have hthread : ((k.setAproc a p').setThread t x').marked = (k.setAproc a p').marked := rfl
    have hz : ((k.setAproc a p').setThread t x').frozenAprocs = k.frozenAprocs := rfl
    omega
  | @enter t f c w ht =>
    refine h.advance ht rfl ?_
    have hmark : (k.freezerEnter.setThread t (.moving f c (.signalling w))).marked = k.marked := rfl
    have hz : (k.freezerEnter.setThread t (.moving f c (.signalling w))).frozenAprocs =
        k.frozenAprocs + 1 := rfl
    cases w <;> simp only [hmark, hz, enters, owes] <;> omega
  | @quit t f c ht =>
    refine h.advance ht rfl ?_
    have hmark : (k.freezerLeave.setThread t (.moving f c (.unlocking (.ok ())))).marked =
        k.marked := rfl
    have hz : (k.freezerLeave.setThread t (.moving f c (.unlocking (.ok ())))).frozenAprocs =
        k.frozenAprocs - 1 := rfl
    simp only [hmark, hz, enters, owes]
    omega

end Balanced

/-! ## Runs -/

def freesFrozen (k : Machine) (op : Op) : Bool :=
  match k.drops op with
  | none => false
  | some a => (k.aprocs[a]?).any fun p => p.refs = 1 && p.state = .frozen

theorem not_frozen_of_frees {k : Machine} {op : Op} (h : k.freesFrozen op = false) :
    ∀ a p, k.drops op = some a → k.aprocs[a]? = some p → p.refs = 1 → p.state ≠ .frozen := by
  intro a p hd hp hr hs
  simp [freesFrozen, hd, hp, hr, hs] at h

structure Sound (k : Machine) : Prop where
  wired : k.Wired
  counted : k.Counted
  balanced : k.Balanced

theorem boot_sound : boot.Sound := by
  refine ⟨⟨?_, ?_, ?_, ?_, ?_⟩, ⟨?_, ?_⟩, ?_⟩
  · intro t x f hx
    simp [boot] at hx
  · intro s b f hb
    simp [boot] at hb
  · intro f h hf
    simp [boot] at hf
  · intro t x hx
    simp [boot] at hx
  · intro a p hp
    simp [boot] at hp
  · intro a
    simp [boot, refsOf, handlesOf, membersOf, leaversOf, weigh]
  · intro a p hp
    simp [boot] at hp
  · simp [Balanced, boot, marked, weigh]

theorem Sound.next {k : Machine} (h : k.Sound) {op : Op} (hf : k.freesFrozen op = false) :
    (k.next op).Sound := by
  have hmoves := next_moves h.wired.bound op (not_frozen_of_frees hf)
  generalize k.next op = k' at hmoves
  induction hmoves with
  | refl => exact h
  | tail _ hm ih =>
    exact ⟨ih.wired.move hm, ih.counted.move ih.wired hm, ih.balanced.move ih.wired hm⟩

theorem Counted.exists_aproc {k : Machine} (h : k.Counted)
    (hg : k.handles[f]? = some g) : ∃ p, k.aprocs[g.aid]? = some p := by
  have hle := Table.le_total (fun _ h => if h.aid = g.aid then 1 else 0) hg
  have hrefs := h.refs g.aid
  have hpos : 0 < k.refsOf g.aid := by
    simp only [if_true] at hle
    simp only [handlesOf] at hrefs
    omega
  cases hp : k.aprocs[g.aid]? with
  | none => simp [refsOf, hp] at hpos
  | some p => exact ⟨p, rfl⟩

theorem Sound.exists_aproc {k : Machine} (h : k.Sound)
    (ht : k.threads[t]? = some x) (hx : x.file = some f) :
    ∃ (a : ℕ) (p : Aproc), k.aprocs[a]? = some p := by
  obtain ⟨g, hg⟩ := Option.isSome_iff_exists.mp (h.wired.files t x f ht hx)
  exact ⟨g.aid, h.counted.exists_aproc hg⟩

theorem weigh_eq_zero {k : Machine} {w : Thread → ℕ}
    (h : ∀ (t : ℕ) x, k.threads[t]? = some x → w x = 0) : k.weigh w = 0 := by
  unfold weigh
  rw [total_congr (g := fun _ _ => 0) h]
  simp [total]

theorem Sound.frozenAprocs_eq {k : Machine} (h : k.Sound)
    (hidle : ∀ (t : ℕ) x, k.threads[t]? = some x → x.inTransition = false) :
    k.frozenAprocs = k.numFrozen := by
  have he : k.weigh enters = 0 :=
    weigh_eq_zero fun t x hx => enters_of_idle (hidle t x hx)
  have ho : k.weigh owes = 0 :=
    weigh_eq_zero fun t x hx => owes_of_idle (hidle t x hx)
  have hbal := h.balanced
  rw [Balanced, marked_eq] at hbal
  omega

/-- In a run that frees no frozen aproc, the counter is the number of frozen aprocs whenever no
transition is in progress, and zero once all aprocs are freed. -/
theorem frozen_counted (ops : List Op)
    (h : Trace.Along next (fun k op => k.freesFrozen op = false) boot ops) :
    ((after ops).isSettled = true → (after ops).frozenAprocs = (after ops).numFrozen) ∧
      ((after ops).aprocs.isEmpty = true → (after ops).frozenAprocs = 0) := by
  have hsound : (after ops).Sound := h.keeps (fun k op hk hf => hk.next hf) boot_sound
  constructor
  · intro hsettled
    refine hsound.frozenAprocs_eq fun t x hx => ?_
    have hall := List.all_eq_true.mp hsettled (t, x)
      (Std.ExtTreeMap.mem_toList_iff_getElem?_eq_some.mpr hx)
    simpa using hall
  · intro hempty
    have hnil := Std.ExtTreeMap.isEmpty_iff.mp hempty
    have hzero : (after ops).numFrozen = 0 := by simp [numFrozen, hnil]
    rw [hsound.frozenAprocs_eq, hzero, Nat.cast_zero]
    -- a thread inside a transition would still keep its aproc
    intro t x hx
    cases x with
    | exited a => rfl
    | creating f | publishing f | spawning f | moving f =>
      obtain ⟨a, p, hp⟩ := hsound.exists_aproc hx rfl
      simp [hnil] at hp

/-- The aproc is frozen and resumed, its task exits and its handle is closed. -/
def retired : List Op :=
  newborn ++ [.freeze 0] ++ through 1 ++ [.resume 0] ++ through 2 ++
    [.exit 1 1, .run 3 true, .close 0, .release 0]

theorem frozen_counted_retired : (after retired).frozenAprocs = 0 :=
  (frozen_counted retired (by decide +kernel)).2 (by decide +kernel)

def leaked : List Op :=
  newborn ++ [.freeze 0] ++ through 1 ++ [.exit 1 1, .run 2 true, .close 0, .release 0]

theorem exists_counter_leaked : (after leaked).isSettled = true ∧
    (after leaked).aprocs.isEmpty = true ∧ (after leaked).numFrozen = 0 ∧
      (after leaked).frozenAprocs = 1 := by
  decide +kernel

end Machine

end Aok.Kernel.Aprocs
