import Aok.Kernel.Infer

/-!
# The books of the inference device

The device without files and references: the accounts, the work of the sessions and the charges.
An operation of the device makes at most one move in the books.
-/

namespace Aok.Kernel
open Lib Lib.Mask List

variable {i : ℕ} {s : Inference}

@[ext] structure Account where
  parent : Option ℕ
  policy : CapPolicy
  used : UInt64
  reserved : UInt64
  revoked : Bool

@[ext] structure Work where
  cap : ℕ
  io : Io
  reservation : UInt64

@[ext] structure Book where
  accounts : List Account
  works : List Work
  settled : List (ℕ × ℕ)

namespace Book

def parent (b : Book) (c : ℕ) : Option ℕ := (b.accounts[c]?).bind Account.parent

def path (b : Book) (c : ℕ) : List ℕ := Forest.path b.parent c

def add (b : Book) (x : Account) : Book := { b with accounts := b.accounts ++ [x] }

def revoke (b : Book) (c : ℕ) : Book :=
  { b with accounts := b.accounts.modify c fun x => { x with revoked := true } }

def addWork (b : Book) (w : Work) : Book := { b with works := b.works ++ [w] }

def setWork (b : Book) (i : ℕ) (w : Work) : Book := { b with works := b.works.set i w }

def onPath (b : Book) (c : ℕ) (f : Account → Account) : Book :=
  { b with accounts := b.accounts.mapIdx fun i x => if i ∈ b.path c then f x else x }

def reserve (b : Book) (c : ℕ) (total : UInt64) : Book :=
  b.onPath c fun x => { x with reserved := x.reserved + total }

def settle (b : Book) (w : Work) (used : UInt64) : Book :=
  { b.onPath w.cap fun x => { x with
      reserved := x.reserved - w.reservation, used := x.used + used } with
    settled := b.settled ++ [(w.cap, used.toNat)] }

def Fits (b : Book) (c : ℕ) (total : UInt64) : Prop :=
  ∀ a ∈ b.path c, ∀ x, b.accounts[a]? = some x →
    total ≤ x.policy.tokenLimit - x.used - x.reserved

@[simp] theorem setWork_setWork (b : Book) (i : ℕ) (w w' : Work) :
    (b.setWork i w).setWork i w' = b.setWork i w' := by
  simp [setWork]

inductive Move (b : Book) : Book → Prop where
  | create (policy : CapPolicy) : Move b (b.add ⟨none, policy, 0, 0, false⟩)
  | derive {p : ℕ} {x : Account} {policy : CapPolicy} (hp : b.accounts[p]? = some x)
      (rights : Within policy.rights x.policy.rights) (taint : Within x.policy.taint policy.taint)
      (mask : Within policy.exportMask x.policy.exportMask)
      (limit : policy.tokenLimit ≤ x.policy.tokenLimit) :
      Move b (b.add ⟨some p, policy, 0, 0, false⟩)
  | revoke (c : ℕ) : Move b (b.revoke c)
  | session {c : ℕ} {x : Account} (hc : b.accounts[c]? = some x) :
      Move b (b.addWork ⟨c, (Device.newSession c x.policy.taint).io, 0⟩)
  | submit {i : ℕ} {w : Work} {r : Request} (hi : b.works[i]? = some w)
      (closed : w.io.state.isOpen = false) (bound : r.inputTokens ≤ maxWord - r.outputTokens)
      (fits : b.Fits w.cap (r.inputTokens + r.outputTokens)) :
      Move b ((b.reserve w.cap (r.inputTokens + r.outputTokens)).setWork i
        ⟨w.cap, r.toIo .pending 0 w.io.taint, r.inputTokens + r.outputTokens⟩)
  | take {i : ℕ} {w : Work} (hi : b.works[i]? = some w) (pending : w.io.state = .pending) :
      Move b (b.setWork i { w with io := { w.io with state := .running } })
  | complete {i : ℕ} {w : Work} {r : Request} (tokensUsed : UInt64) (hi : b.works[i]? = some w)
      (running : w.io.state = .running) (input : r.inputTokens ≤ w.io.inputTokens)
      (output : r.outputTokens ≤ w.io.outputTokens) :
      Move b ((b.settle w (r.inputTokens + r.outputTokens)).setWork i
        ⟨w.cap, r.toIo .done tokensUsed w.io.taint, 0⟩)
  | abandon {i : ℕ} {w : Work} (hi : b.works[i]? = some w) (isOpen : w.io.state.isOpen = true) :
      Move b ((b.settle w (if w.io.state = .running then w.reservation else 0)).setWork i
        ⟨w.cap, { w.io with state := .cancelled }, 0⟩)

end Book

/-! ## The books of a device -/

def Capability.account (x : Capability) : Account :=
  ⟨x.parent, x.policy, x.used, x.reserved, x.revoked⟩

def Inference.work (s : Inference) : Work := ⟨s.cap, s.io, s.reservation⟩

theorem map_modify_of_eq {α β : Type} {f : α → β} {g : α → α} (h : ∀ x, f (g x) = f x)
    (l : List α) (i : ℕ) : (l.modify i g).map f = l.map f := by
  refine ext_getElem? fun j => ?_
  simp only [getElem?_map, getElem?_modify]
  by_cases hij : i = j
  · cases l[j]? with
    | none => simp
    | some x => simp [hij, h]
  · simp [hij]

theorem modify_of_getElem? {α : Type} {l : List α} {x : α} (h : l[i]? = some x)
    (f : α → α) : l.modify i f = l.set i (f x) := by
  simp [modify_eq_set_getElem?, h]

theorem getElem?_modify_ne {α : Type} {j : ℕ} (h : j ≠ i) (l : List α) (f : α → α) :
    (l.modify i f)[j]? = l[j]? := by
  simp [Ne.symm h]

theorem getElem?_append_one {α : Type} {l : List α} {x y : α}
    (h : (l ++ [x])[i]? = some y) : l[i]? = some y ∨ i = l.length ∧ y = x := by
  rw [getElem?_append] at h
  split at h
  · exact .inl h
  · rw [getElem?_singleton] at h
    split at h
    · cases h
      exact .inr ⟨by omega, rfl⟩
    · cases h

namespace Device

def book (k : Device) : Book := ⟨k.caps.map Capability.account, k.sessions.map Inference.work,
  k.settled⟩

variable {k : Device}

theorem accounts_of {c : ℕ} {x : Capability} (h : k.caps[c]? = some x) :
    k.book.accounts[c]? = some x.account := by simp [book, h]

theorem works_of (h : k.sessions[i]? = some s) :
    k.book.works[i]? = some s.work := by simp [book, h]

@[simp] theorem book_parent (k : Device) : k.book.parent = k.parent := by
  funext c
  simp only [Book.parent, parent, book, getElem?_map]
  cases k.caps[c]? <;> rfl

@[simp] theorem book_path (k : Device) (c : ℕ) : k.book.path c = k.path c := by
  simp [Book.path, path]

theorem book_modifyCap {f : Capability → Capability} (h : ∀ x, (f x).account = x.account)
    (k : Device) (c : ℕ) : (k.modifyCap c f).book = k.book := by
  simp [book, modifyCap, map_modify_of_eq h]

theorem book_modifySession {f : Inference → Inference} (h : ∀ s, (f s).work = s.work)
    (k : Device) (i : ℕ) : (k.modifySession i f).book = k.book := by
  simp [book, modifySession, map_modify_of_eq h]

@[simp] theorem book_capGet (k : Device) (c : ℕ) : (k.capGet c).book = k.book :=
  book_modifyCap (by intro x; rfl) k c

@[simp] theorem book_install (k : Device) (f : File) : (k.install f).book = k.book := rfl

@[simp] theorem book_capPut (k : Device) (c : ℕ) : (k.capPut c).book = k.book := by
  unfold capPut
  split
  · rfl
  · split
    · exact book_modifyCap (by intro x; rfl) k c
    · exact book_modifyCap (by intro x; rfl) k c

@[simp] theorem book_sessionPut (k : Device) (i : ℕ) : (k.sessionPut i).book = k.book := by
  unfold sessionPut
  split
  · rfl
  · split
    · exact book_modifySession (by intro s; rfl) k i
    · exact book_modifySession (by intro s; rfl) k i

theorem book_put (k : Device) (r : Ref) : (k.put r).book = k.book := by
  cases r with
  | cap c => exact book_capPut k c
  | session i => exact book_sessionPut k i

theorem book_addCap (k : Device) (parent : Option ℕ) (policy : CapPolicy) :
    (k.addCap parent policy).book = k.book.add ⟨parent, policy, 0, 0, false⟩ := by
  cases parent with
  | none => simp [addCap, book, Book.add, Capability.account]
  | some p =>
    have hget := congrArg Book.accounts (book_capGet k p)
    simp only [book] at hget
    refine Book.ext ?_ rfl rfl
    simp [addCap, book, Book.add, Capability.account, ← hget]

theorem mayCreate_some {p : ℕ} {arg : Option CapPolicy} {policy : CapPolicy}
    (h : k.mayCreate (some p) arg = .ok policy) :
    ∃ x, k.caps[p]? = some x ∧ Within policy.rights x.policy.rights ∧
      Within x.policy.taint policy.taint ∧ Within policy.exportMask x.policy.exportMask ∧
      policy.tokenLimit ≤ x.policy.tokenLimit := by
  cases arg with
  | none => cases h
  | some policy' =>
    dsimp only [mayCreate] at h
    split at h
    · cases h
    unfold mayDerive at h
    cases hx : k.caps[p]? with
    | none => simp [hx, Except.map] at h
    | some x =>
      rw [hx] at h
      dsimp only at h
      split at h
      · cases h
      rename_i hcheck
      push Not at hcheck
      split at h
      · cases h
      · cases h
        exact ⟨x, rfl, hcheck.2.1, hcheck.2.2.1, hcheck.2.2.2.1,
          UInt64.not_lt.mp hcheck.2.2.2.2⟩

theorem book_modifyPath {c : ℕ} {f : Capability → Capability} {g : Account → Account}
    (h : ∀ x, (f x).account = g x.account) :
    (k.modifyPath c f).book = k.book.onPath c g := by
  unfold Book.onPath
  rw [book_path]
  refine Book.ext ?_ rfl rfl
  refine ext_getElem? fun i => ?_
  simp only [book, modifyPath, getElem?_map, getElem?_mapIdx]
  cases k.caps[i]? with
  | none => rfl
  | some x =>
    by_cases hi : i ∈ k.path c
    · simp [hi, h]
    · simp [hi]

theorem book_setSession (hi : k.sessions[i]? = some s) (f : Inference → Inference) :
    (k.modifySession i f).book = k.book.setWork i (f s).work := by
  simp [book, Book.setWork, modifySession, modify_of_getElem? hi, map_set]

theorem book_unreserve (hi : k.sessions[i]? = some s) (used : UInt64) :
    (k.unreserve i used).book = (k.book.settle s.work used).setWork i
      { s.work with reservation := 0 } := by
  have hpath := book_modifyPath (k := k) (c := s.cap)
    (f := fun x => { x with reserved := x.reserved - s.reservation, used := x.used + used })
    (g := fun x => { x with reserved := x.reserved - s.reservation, used := x.used + used })
    (by intro x; rfl)
  have hset := book_setSession hi fun s => { s with reservation := 0 }
  have haccounts := congrArg Book.accounts hpath
  have hworks := congrArg Book.works hset
  simp only [unreserve, hi]
  exact Book.ext haccounts hworks rfl

theorem sessions_unreserve (hi : k.sessions[i]? = some s)
    (used : UInt64) : (k.unreserve i used).sessions[i]? = some { s with reservation := 0 } := by
  simp [unreserve, hi, modifySession, modifyPath]

/-! ## Operations are moves -/

def Moves (k k' : Device) : Prop := k'.book = k.book ∨ k.book.Move k'.book

theorem moves_self (k : Device) : Moves k k := .inl rfl

theorem abandon_moves (k : Device) (i : ℕ) : Moves k (k.abandon i) := by
  unfold abandon
  split
  · exact moves_self k
  · rename_i s hi
    split
    · rename_i hopen
      refine .inr ?_
      rw [book_setSession (sessions_unreserve hi _), book_unreserve hi, Book.setWork_setWork]
      exact .abandon (works_of hi) hopen
    · exact moves_self k

theorem submit_moves (hi : k.sessions[i]? = some s) (r : Request) :
    Moves k (k.submit i s r).2 := by
  unfold submit
  split
  · exact moves_self k
  rename_i hclosed
  split
  · exact moves_self k
  split
  · exact moves_self k
  rename_i hbound
  split
  · exact moves_self k
  rename_i hfits
  have hfit : k.book.Fits s.cap (r.inputTokens + r.outputTokens) := by
    intro a ha x hx
    rw [book_path] at ha
    obtain ⟨y, hy, rfl⟩ : ∃ y, k.caps[a]? = some y ∧ y.account = x := by
      simpa [book] using hx
    simp only [exceeds, any_eq_true, not_exists, not_and] at hfits
    have hle := hfits a ha
    rw [hy, Option.any_some, decide_eq_true_eq] at hle
    exact UInt64.not_lt.mp hle
  refine .inr ?_
  have hset := book_setSession (k := k.modifyPath s.cap fun x =>
    { x with reserved := x.reserved + (r.inputTokens + r.outputTokens) }) hi
    fun s => { s with
      reservation := r.inputTokens + r.outputTokens
      io := r.toIo .pending 0 s.io.taint }
  have hpath := book_modifyPath (k := k) (c := s.cap)
    (f := fun x => { x with reserved := x.reserved + (r.inputTokens + r.outputTokens) })
    (g := fun x => { x with reserved := x.reserved + (r.inputTokens + r.outputTokens) })
    (by intro x; rfl)
  rw [hpath] at hset
  rw [hset]
  exact .submit (works_of hi) (Bool.eq_false_of_not_eq_true hclosed) (UInt64.not_lt.mp hbound) hfit

theorem take_moves (hi : k.sessions[i]? = some s) (copied : Bool) :
    Moves k (k.take i s copied).2 := by
  unfold take
  split
  · exact moves_self k
  rename_i hpending
  split
  · exact moves_self k
  · refine .inr ?_
    rw [book_setSession hi]
    exact .take (works_of hi) (not_not.mp hpending)

theorem complete_moves (hi : k.sessions[i]? = some s) (r : Request) :
    Moves k (k.complete i s r).2 := by
  unfold complete
  split
  · exact moves_self k
  rename_i hrunning
  split
  · exact moves_self k
  rename_i hbound
  push Not at hrunning hbound
  refine .inr ?_
  rw [book_setSession (sessions_unreserve hi _), book_unreserve hi, Book.setWork_setWork]
  exact .complete _ (works_of hi) hrunning.2 (UInt64.not_lt.mp hbound.1)
    (UInt64.not_lt.mp hbound.2)

theorem result_snd (k : Device) (s : Inference) (copied : Bool) : (k.result s copied).2 = k := by
  unfold result
  split
  · rfl
  split <;> rfl

theorem exportRecord_snd (k : Device) (s : Inference) (copied : Bool) :
    (k.exportRecord s copied).2 = k := by
  unfold exportRecord
  split
  · rfl
  · exact result_snd k s copied

theorem capNew_moves (parent : Option ℕ) (arg : Option CapPolicy) (fault : Option CapFault) :
    Moves k (k.capNew parent arg fault).2 := by
  unfold capNew
  cases hm : k.mayCreate parent arg with
  | error e => exact moves_self k
  | ok policy =>
    have hadd : k.book.Move (k.addCap parent policy).book := by
      rw [book_addCap]
      cases parent with
      | none => exact .create policy
      | some p =>
        obtain ⟨x, hx, hr, ht, he, hl⟩ := mayCreate_some hm
        exact .derive (accounts_of hx) hr ht he hl
    cases fault with
    | none => exact .inr hadd
    | some f =>
      cases f with
      | memory => exact moves_self k
      | file e => exact .inr hadd

theorem sessionNew_moves (c : ℕ) (fault : Option Errno) : Moves k (k.sessionNew c fault).2 := by
  unfold sessionNew
  split
  · exact moves_self k
  rename_i x hx
  split
  · exact moves_self k
  cases fault with
  | some e => exact moves_self k
  | none =>
    have hget := congrArg Book.accounts (book_capGet k c)
    have hbook : (({ k.capGet c with sessions := k.sessions ++ [newSession c x.policy.taint] }
        : Device).book) = k.book.addWork (newSession c x.policy.taint).work := by
      refine Book.ext hget ?_ rfl
      simp [book, Book.addWork]
    refine .inr ?_
    simp only [book_install, hbook]
    exact .session (accounts_of hx)

theorem sessionLocked_moves (hi : k.sessions[i]? = some s)
    (cmd : SessionCmd) : Moves k (k.sessionLocked i s cmd).2 := by
  cases cmd with
  | submit arg =>
    cases arg with
    | none => exact moves_self k
    | some r => exact submit_moves hi r
  | take copied => exact take_moves hi copied
  | complete arg =>
    cases arg with
    | none => exact moves_self k
    | some r => exact complete_moves hi r
  | result copied => exact .inl (congrArg book (result_snd k s copied))
  | cancel => exact abandon_moves k i
  | exportRecord copied => exact .inl (congrArg book (exportRecord_snd k s copied))
  | unknown => exact moves_self k

theorem sessionIoctl_cases (k : Device) (i : ℕ) (backend : Bool) (cmd : SessionCmd) :
    (∃ e, k.sessionIoctl i backend cmd = (.error e, k)) ∨
    ∃ s, k.sessions[i]? = some s ∧ k.sessionIoctl i backend cmd = k.sessionLocked i s cmd := by
  unfold sessionIoctl
  split
  · exact .inl ⟨_, rfl⟩
  rename_i s hs
  split
  · exact .inl ⟨_, rfl⟩
  split
  · exact .inl ⟨_, rfl⟩
  split
  · exact .inl ⟨_, rfl⟩
  · exact .inr ⟨s, hs, rfl⟩

theorem sessionIoctl_moves (i : ℕ) (backend : Bool) (cmd : SessionCmd) :
    Moves k (k.sessionIoctl i backend cmd).2 := by
  rcases sessionIoctl_cases k i backend cmd with ⟨e, he⟩ | ⟨s, hi, hcall⟩
  · exact he ▸ moves_self k
  · exact hcall ▸ sessionLocked_moves hi cmd

theorem capIoctl_moves (c : ℕ) (cmd : CapCmd) : Moves k (k.capIoctl c cmd).2 := by
  unfold capIoctl
  split
  · exact moves_self k
  cases cmd with
  | derive arg fault => exact capNew_moves (some c) arg fault
  | revoke =>
    dsimp only
    split
    · refine .inr ?_
      have hbook : (k.modifyCap c fun x => { x with revoked := true }).book = k.book.revoke c := by
        refine Book.ext ?_ rfl rfl
        refine ext_getElem? fun j => ?_
        simp only [book, Book.revoke, modifyCap, getElem?_map, getElem?_modify]
        cases k.caps[j]? with
        | none => simp
        | some x => by_cases hcj : c = j <;> simp [hcj, Capability.account]
      rw [hbook]
      exact .revoke c
    · exact moves_self k
  | check => exact moves_self k
  | sessionCreate fault => exact sessionNew_moves c fault
  | unknown => exact moves_self k

end Device

theorem step_moves (k : Device) (op : Op) : k.Moves (step k op).2 := by
  cases op with
  | create rights arg fault =>
    dsimp only [step]
    split
    · exact Device.moves_self k
    · exact Device.capNew_moves none arg fault
  | cap fd cmd =>
    dsimp only [step]
    split
    · exact Device.capIoctl_moves _ cmd
    · exact Device.moves_self k
    · exact Device.moves_self k
  | session fd cmd =>
    dsimp only [step]
    split
    · exact Device.sessionIoctl_moves _ false cmd
    · exact Device.sessionIoctl_moves _ true cmd
    · exact Device.moves_self k
    · exact Device.moves_self k
  | close fd =>
    dsimp only [step]
    split
    · rename_i f hf
      cases f with
      | cap c => exact Device.moves_self k
      | client i => exact Device.abandon_moves { k with files := k.files.set fd none } i
      | backend i => exact Device.abandon_moves { k with files := k.files.set fd none } i
    · exact Device.moves_self k
  | put n =>
    dsimp only [step]
    split
    · exact .inl (Device.book_put { k with puts := k.puts.eraseIdx n } _)
    · exact Device.moves_self k

/-- What every move preserves holds after every run. -/
theorem run_induction {P : Book → Prop} (hmove : ∀ b b', P b → b.Move b' → P b') {k : Device}
    (hk : P k.book) (ops : List Op) : P (run k ops).book := by
  induction ops generalizing k with
  | nil => exact hk
  | cons op ops ih =>
    refine ih ?_
    rcases step_moves k op with heq | hstep
    · exact heq ▸ hk
    · exact hmove _ _ hk hstep

end Aok.Kernel
