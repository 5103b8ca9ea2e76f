import Aok.Kernel.InferAuthority

/-!
# Capabilities of one owner

A capability without children whose files are held by one process: what others do with the device
leaves its account and its sessions as they are.
-/

namespace Aok.Kernel
open Lib Lib.Forest List

def Op.fd : Op → Option ℕ
  | .cap fd _ | .session fd _ | .close fd => some fd
  | .create _ _ _ | .put _ => none

def Op.Avoids (held : List ℕ) (op : Op) : Prop := ∀ n, op.fd = some n → n ∉ held

instance (held : List ℕ) (op : Op) : Decidable (op.Avoids held) :=
  decidable_of_iff (op.fd.all fun n => n ∉ held) (by
    unfold Op.Avoids
    cases op.fd <;> simp)

namespace Device

variable {k k' : Device} {a c i : ℕ} {held : List ℕ}

/-! ## What an operation leaves alone -/

theorem modifyPath_caps (f : Capability → Capability) (ha : a ∉ k.path c) :
    (k.modifyPath c f).caps[a]? = k.caps[a]? := by
  simp only [modifyPath, getElem?_mapIdx, ha, if_false]
  cases k.caps[a]? <;> rfl

theorem unreserve_caps {s : Inference} (hi : k.sessions[i]? = some s) (ha : a ∉ k.path s.cap)
    (used : UInt64) : (k.unreserve i used).caps[a]? = k.caps[a]? := by
  simp only [unreserve, hi]
  exact modifyPath_caps _ ha

theorem Edits.caps {s : Inference} (h : Edits k i k') (hi : k.sessions[i]? = some s)
    (ha : a ∉ k.path s.cap) : k'.caps[a]? = k.caps[a]? := by
  cases h with
  | none => rfl
  | write g hg => rfl
  | charge hs f hf g hg =>
    cases hi.symm.trans hs
    exact modifyPath_caps f ha
  | settle used g hg => exact unreserve_caps hi ha used

theorem SameRefs.caps_length (h : SameRefs k k') : k'.caps.length = k.caps.length := by
  simpa using congrArg List.length h.caps

theorem SameRefs.sessions_length (h : SameRefs k k') : k'.sessions.length = k.sessions.length := by
  simpa using congrArg List.length h.sessions

theorem file_of_files (h : k'.files = k.files) (n : ℕ) : k'.file n = k.file n := by
  rw [file, h]
  rfl

/-- No file is opened, and the held ones stay. -/
structure SameFiles (held : List ℕ) (k k' : Device) : Prop where
  back : ∀ n f, k'.file n = some f → k.file n = some f
  held : ∀ n ∈ held, k'.file n = k.file n
  length : k'.files.length = k.files.length

theorem SameFiles.of_eq (h : k'.files = k.files) : SameFiles held k k' :=
  ⟨fun n _ hf => file_of_files h n ▸ hf, fun n _ => file_of_files h n, congrArg List.length h⟩

theorem capNew_book (k : Device) (parent : Option ℕ) (arg : Option CapPolicy)
    (fault : Option CapFault) :
    ((k.capNew parent arg fault).2.book = k.book ∧ (k.capNew parent arg fault).2.files = k.files) ∨
    ∃ policy, (k.capNew parent arg fault).2.book = k.book.add ⟨parent, policy, 0, 0, false⟩ ∧
      ((k.capNew parent arg fault).2.files = k.files ∨
        (k.capNew parent arg fault).2.files = k.files ++ [some (.cap k.caps.length)]) := by
  unfold capNew
  cases k.mayCreate parent arg with
  | error e => exact .inl ⟨rfl, rfl⟩
  | ok policy =>
    have hfiles : (k.addCap parent policy).files = k.files := by cases parent <;> rfl
    cases fault with
    | none =>
      exact .inr ⟨policy, book_addCap k parent policy, .inr (congrArg (· ++ _) hfiles)⟩
    | some f =>
      cases f with
      | memory => exact .inl ⟨rfl, rfl⟩
      | file e => exact .inr ⟨policy, book_addCap k parent policy, .inl hfiles⟩

theorem sessionNew_book (k : Device) (d : ℕ) (fault : Option Errno) :
    ((k.sessionNew d fault).2.book = k.book ∧ (k.sessionNew d fault).2.files = k.files) ∨
    ∃ io, (k.sessionNew d fault).2.book = k.book.addWork ⟨d, io, 0⟩ ∧
      (k.sessionNew d fault).2.files = k.files ++
        [some (.client k.sessions.length), some (.backend k.sessions.length)] := by
  unfold sessionNew
  split
  · exact .inl ⟨rfl, rfl⟩
  rename_i x hx
  split
  · exact .inl ⟨rfl, rfl⟩
  cases fault with
  | some e => exact .inl ⟨rfl, rfl⟩
  | none =>
    have hget := congrArg Book.accounts (book_capGet k d)
    refine .inr ⟨(newSession d x.policy.taint).io, Book.ext hget ?_ rfl,
      append_assoc _ _ _⟩
    simp [book, Book.addWork, Inference.work, newSession, install]

/-! ## Owners -/

/-- The capability has no children, and the files that lead to it are held. -/
structure Own (held : List ℕ) (c : ℕ) (k : Device) : Prop where
  sound : k.book.Sound
  counted : k.Counted []
  there : c < k.caps.length
  alone : ∀ (d : ℕ) (x : Account), k.book.accounts[d]? = some x → x.parent ≠ some c
  caps : ∀ n, k.file n = some (.cap c) → n ∈ held
  sessions : ∀ (n : ℕ) (f : File) (i : ℕ) (w : Work), k.file n = some f → f.ref = .session i →
    k.book.works[i]? = some w → w.cap = c → n ∈ held
  old : ∀ n ∈ held, n < k.files.length

structure Kept (held : List ℕ) (c : ℕ) (k k' : Device) : Prop where
  account : k'.book.accounts[c]? = k.book.accounts[c]?
  works : ∀ (i : ℕ) (w : Work), k.book.works[i]? = some w → w.cap = c →
    k'.book.works[i]? = some w
  files : ∀ n ∈ held, k'.file n = k.file n

theorem Kept.refl (held : List ℕ) (c : ℕ) (k : Device) : Kept held c k k :=
  ⟨rfl, fun _ _ hw _ => hw, fun _ _ => rfl⟩

theorem Kept.trans {k'' : Device} (h : Kept held c k k') (h' : Kept held c k' k'') :
    Kept held c k k'' :=
  ⟨h'.account.trans h.account, fun i w hw hc => h'.works i w (h.works i w hw hc) hc,
    fun n hn => (h'.files n hn).trans (h.files n hn)⟩

theorem Own.ordered (h : Own held c k) : Ordered k.parent :=
  book_parent k ▸ h.sound.ordered_parent

theorem Own.eq_of_mem (h : Own held c k) {d : ℕ} (hd : c ∈ k.path d) : d = c := by
  have hall : ∀ d, c ∈ Forest.path k.parent d → d = c := by
    intro d
    induction d using path_induction h.ordered with
    | root d hp =>
      intro hmem
      rw [path_of_none hp, mem_singleton] at hmem
      exact hmem.symm
    | child d p hp ih =>
      intro hmem
      rcases (mem_path_iff h.ordered).mp hmem with heq | ⟨q, hq, hmem⟩
      · exact heq.symm
      · cases hp.symm.trans hq
        rw [← book_parent] at hp
        obtain ⟨x, hx, hxp⟩ := Option.bind_eq_some_iff.mp hp
        exact absurd (ih hmem ▸ hxp) (h.alone d x hx)
  exact hall d hd

theorem Own.object (h : Own held c k) {n : ℕ} {f : File} (hf : k.file n = some f) :
    k.object f.ref ≠ none := by
  obtain ⟨m, hm, _⟩ := h.counted.live (Nat.add_pos_left (holders_pos hf) _)
  rw [hm]
  simp

theorem Own.session_there (h : Own held c k) {n : ℕ} {f : File} (hf : k.file n = some f)
    (href : f.ref = .session i) : ∃ s, k.sessions[i]? = some s := by
  have hobject := h.object hf
  rw [href] at hobject
  cases hs : k.sessions[i]? with
  | none => exact absurd (by simp [Device.object, hs]) hobject
  | some s => exact ⟨s, rfl⟩

theorem file_of_append {more : List (Option File)} (hfiles : k'.files = k.files ++ more) {n : ℕ}
    {f : File} (hf : k'.file n = some f) : k.file n = some f ∨ some f ∈ more := by
  have hn : k'.files[n]? = some (some f) := Option.join_eq_some_iff.mp hf
  rw [hfiles, getElem?_append] at hn
  split at hn
  · exact .inl (Option.join_eq_some_iff.mpr hn)
  · exact .inr (mem_of_getElem? hn)

theorem Own.grow (h : Own held c k) (hsound : k'.book.Sound) (hcounted : k'.Counted [])
    (accounts : List Account) (works : List Work) {more : List (Option File)}
    (hbook : k'.book = ⟨k.book.accounts ++ accounts, k.book.works ++ works, k.book.settled⟩)
    (hfiles : k'.files = k.files ++ more) (haccounts : ∀ x ∈ accounts, x.parent ≠ some c)
    (hworks : ∀ w ∈ works, w.cap ≠ c)
    (hmore : ∀ f, some f ∈ more → f.ref = .cap k.caps.length ∨
      f.ref = .session k.sessions.length ∧ works ≠ []) :
    Own held c k' ∧ Kept held c k k' := by
  have hlen : k.book.accounts.length = k.caps.length := by simp [book]
  have hwlen : k.book.works.length = k.sessions.length := by simp [book]
  have hcaps : k'.book.accounts.length = k'.caps.length := by simp [book]
  have hold : ∀ n ∈ held, k'.file n = k.file n := by
    intro n hn
    rw [file, hfiles, getElem?_append_left (h.old n hn)]
    rfl
  refine ⟨⟨hsound, hcounted, ?_, ?_, ?_, ?_, ?_⟩, ⟨?_, ?_, hold⟩⟩
  · rw [← hcaps, hbook, length_append, hlen]
    exact Nat.lt_add_right _ h.there
  · intro d x hx
    rw [hbook, getElem?_append] at hx
    split at hx
    · exact h.alone d x hx
    · exact haccounts x (mem_of_getElem? hx)
  · intro n hn
    rcases file_of_append hfiles hn with hf | hf
    · exact h.caps n hf
    · rcases hmore _ hf with heq | ⟨heq, _⟩
      · cases heq
        exact absurd h.there (lt_irrefl _)
      · cases heq
  · intro n f i w hf href hw hwc
    rw [hbook, getElem?_append] at hw
    rcases file_of_append hfiles hf with hf | hf
    · obtain ⟨s, hs⟩ := h.session_there hf href
      have hi : i < k.book.works.length := hwlen ▸ (List.getElem?_eq_some_iff.mp hs).1
      rw [if_pos hi] at hw
      exact h.sessions n f i w hf href hw hwc
    · rcases hmore f hf with heq | ⟨heq, _⟩
      · cases heq.symm.trans href
      · cases heq.symm.trans href
        rw [if_neg (by omega)] at hw
        exact absurd hwc (hworks w (mem_of_getElem? hw))
  · intro n hn
    rw [hfiles, length_append]
    exact Nat.lt_add_right _ (h.old n hn)
  · rw [hbook]
    exact getElem?_append_left (hlen ▸ h.there)
  · intro i w hw _
    rw [hbook]
    exact (getElem?_append_left (List.getElem?_eq_some_iff.mp hw).1).trans hw

theorem Own.step (h : Own held c k) (hsound : k'.book.Sound) (hcounted : k'.Counted [])
    (hcaps : k'.caps.length = k.caps.length)
    (hparents : ∀ (d : ℕ) (x' : Account), k'.book.accounts[d]? = some x' →
      ∃ x, k.book.accounts[d]? = some x ∧ x'.parent = x.parent)
    (haccount : k'.book.accounts[c]? = k.book.accounts[c]?)
    (hworks : ∀ (j : ℕ) (w : Work), w.cap = c →
      (k'.book.works[j]? = some w ↔ k.book.works[j]? = some w))
    (hfiles : SameFiles held k k') : Own held c k' ∧ Kept held c k k' := by
  refine ⟨⟨hsound, hcounted, hcaps ▸ h.there, ?_, ?_, ?_, ?_⟩, ⟨haccount, ?_, hfiles.held⟩⟩
  · intro d x' hx'
    obtain ⟨x, hx, hparent⟩ := hparents d x' hx'
    rw [hparent]
    exact h.alone d x hx
  · exact fun n hn => h.caps n (hfiles.back n _ hn)
  · exact fun n f j w hf href hw hwc =>
      h.sessions n f j w (hfiles.back n f hf) href ((hworks j w hwc).mp hw) hwc
  · exact fun n hn => hfiles.length ▸ h.old n hn
  · exact fun j w hw hwc => (hworks j w hwc).mpr hw

theorem parents_of_extends (he : k.book.Extends k'.book) (hcaps : k'.caps.length = k.caps.length)
    (d : ℕ) (x' : Account) (hx' : k'.book.accounts[d]? = some x') :
    ∃ x, k.book.accounts[d]? = some x ∧ x'.parent = x.parent := by
  have hlen : k'.book.accounts.length = k.book.accounts.length := by simp [book, hcaps]
  obtain ⟨x, hx⟩ := Book.exists_of_length hlen hx'
  obtain ⟨y, hy, hparent, _⟩ := he.accounts d x hx
  cases hx'.symm.trans hy
  exact ⟨x, hx, hparent⟩

theorem Own.keep (h : Own held c k) (hsound : k'.book.Sound) (hcounted : k'.Counted [])
    (hextends : k.book.Extends k'.book) (hcaps : k'.caps.length = k.caps.length)
    (hsessions : k'.sessions.length = k.sessions.length) (hfiles : SameFiles [] k k') :
    Own held c k' := by
  refine ⟨hsound, hcounted, hcaps ▸ h.there, ?_, fun n hn => h.caps n (hfiles.back n _ hn), ?_,
    fun n hn => hfiles.length ▸ h.old n hn⟩
  · intro d x' hx'
    obtain ⟨x, hx, hparent⟩ := parents_of_extends hextends hcaps d x' hx'
    rw [hparent]
    exact h.alone d x hx
  · intro n f j w' hf href hw' hwc
    have hworks : k'.book.works.length = k.book.works.length := by simp [book, hsessions]
    obtain ⟨w, hw⟩ := Book.exists_of_length hworks hw'
    obtain ⟨v, hv, hcap, _⟩ := hextends.works j w hw
    cases hw'.symm.trans hv
    exact h.sessions n f j w (hfiles.back n f hf) href hw (hcap.symm.trans hwc)

theorem Own.same (h : Own held c k) (hsound : k'.book.Sound) (hcounted : k'.Counted [])
    (hbook : k'.book = k.book) (hfiles : SameFiles held k k') :
    Own held c k' ∧ Kept held c k k' := by
  have hcaps : k'.caps.length = k.caps.length := by
    simpa [book] using congrArg (fun b : Book => b.accounts.length) hbook
  refine h.step hsound hcounted hcaps ?_ (by rw [hbook]) (by simp [hbook]) hfiles
  exact fun d x hx => ⟨x, hbook ▸ hx, rfl⟩

theorem Own.work (h : Own held c k) (hsound : k'.book.Sound) (hcounted : k'.Counted [])
    {s : Inference} (hi : k.sessions[i]? = some s) (hne : s.cap ≠ c)
    (hcaps : k'.caps.length = k.caps.length)
    (haccounts : ∀ a, a ∉ k.path s.cap → k'.caps[a]? = k.caps[a]?)
    (hworks : ∀ j, j ≠ i → k'.sessions[j]? = k.sessions[j]?)
    (hextends : k.book.Extends k'.book) (hfiles : SameFiles held k k') :
    Own held c k' ∧ Kept held c k k' := by
  have hpath : c ∉ k.path s.cap := fun hmem => hne (h.eq_of_mem hmem)
  refine h.step hsound hcounted hcaps (parents_of_extends hextends hcaps) ?_ ?_ hfiles
  · simp only [book, getElem?_map, haccounts c hpath]
  · intro j w hw
    by_cases hj : j = i
    · obtain ⟨w', hw', hcap, _⟩ := hextends.works i _ (works_of hi)
      rw [hj, hw', works_of hi]
      constructor
      · intro heq
        cases heq
        exact absurd (hcap.symm.trans hw) hne
      · intro heq
        cases heq
        exact absurd hw hne
    · simp only [book, getElem?_map, hworks j hj]

theorem Moves.extends (h : Moves k k') : k.book.Extends k'.book := by
  rcases h with heq | hmove
  · exact heq ▸ .refl _
  · exact hmove.extends

theorem Moves.sound (h : Moves k k') (hs : k.book.Sound) : k'.book.Sound := by
  rcases h with heq | hmove
  · exact heq ▸ hs
  · exact hs.move hmove

/-! ## What others do -/

theorem Own.capNew (h : Own held c k) {parent : Option ℕ} (hparent : parent ≠ some c)
    (hlive : ∀ p, parent = some p → ∃ x, k.caps[p]? = some x ∧ x.freed = false)
    (arg : Option CapPolicy) (fault : Option CapFault) :
    Own held c (k.capNew parent arg fault).2 ∧ Kept held c k (k.capNew parent arg fault).2 := by
  have hcounted := capNew_counted h.counted hlive arg fault
  have hsound := (capNew_moves (k := k) parent arg fault).sound h.sound
  rcases capNew_book k parent arg fault with ⟨hbook, hfiles⟩ | ⟨policy, hbook, hfiles⟩
  · exact h.same hsound hcounted hbook (.of_eq hfiles)
  · have hadd : (k.capNew parent arg fault).2.book = ⟨k.book.accounts ++
        [⟨parent, policy, 0, 0, false⟩], k.book.works ++ [], k.book.settled⟩ := by
      rw [hbook, append_nil]
      rfl
    have hnew : ∀ x ∈ [(⟨parent, policy, 0, 0, false⟩ : Account)], x.parent ≠ some c := by
      simpa using hparent
    rcases hfiles with hfiles | hfiles
    · exact h.grow hsound hcounted _ _ hadd (hfiles.trans (append_nil _).symm) hnew (by simp)
        (by simp)
    · refine h.grow hsound hcounted _ _ hadd hfiles hnew (by simp) fun f hf => ?_
      cases mem_singleton.mp hf
      exact .inl rfl

theorem Own.sessionNew (h : Own held c k) {d : ℕ} (hd : d ≠ c) {x : Capability}
    (hx : k.caps[d]? = some x) (hlive : x.freed = false) (fault : Option Errno) :
    Own held c (k.sessionNew d fault).2 ∧ Kept held c k (k.sessionNew d fault).2 := by
  have hcounted := sessionNew_counted h.counted hx hlive fault
  have hsound := (sessionNew_moves (k := k) d fault).sound h.sound
  rcases sessionNew_book k d fault with ⟨hbook, hfiles⟩ | ⟨io, hbook, hfiles⟩
  · exact h.same hsound hcounted hbook (.of_eq hfiles)
  · refine h.grow hsound hcounted [] [⟨d, io, 0⟩] ?_ hfiles (by simp) (by simpa using hd) ?_
    · refine hbook.trans ?_
      simp [Book.addWork]
    · intro f hf
      refine .inr ⟨?_, by simp⟩
      rcases mem_cons.mp hf with heq | hf
      · cases heq
        rfl
      · cases mem_singleton.mp hf
        rfl

theorem Own.capIoctl (h : Own held c k) {d : ℕ} (hd : d ≠ c) {x : Capability}
    (hx : k.caps[d]? = some x) (hlive : x.freed = false) (cmd : CapCmd) :
    Own held c (k.capIoctl d cmd).2 ∧ Kept held c k (k.capIoctl d cmd).2 := by
  have hself : Own held c k ∧ Kept held c k k := ⟨h, .refl held c k⟩
  have hmoves := capIoctl_moves (k := k) d cmd
  unfold Device.capIoctl at hmoves ⊢
  split
  · exact hself
  rename_i hvalid
  rw [if_neg hvalid] at hmoves
  cases cmd with
  | derive arg fault =>
    refine h.capNew (by simpa using hd) ?_ arg fault
    rintro p ⟨⟩
    exact ⟨x, hx, hlive⟩
  | revoke =>
    dsimp only at hmoves ⊢
    split
    · rename_i hright
      rw [if_pos hright] at hmoves
      refine h.step (hmoves.sound h.sound)
        (h.counted.same (sameRefs_modifyCap (by intro x; rfl) k d)) (by simp [modifyCap])
        (parents_of_extends hmoves.extends (by simp [modifyCap])) ?_ (fun _ _ _ => Iff.rfl)
        (.of_eq rfl)
      simp only [book, modifyCap, getElem?_map, getElem?_modify_ne (Ne.symm hd)]
    · exact hself
  | check => exact hself
  | sessionCreate fault => exact h.sessionNew hd hx hlive fault
  | unknown => exact hself

theorem Own.sessionIoctl (h : Own held c k) {n : ℕ} {f : File} (hf : k.file n = some f)
    (hn : n ∉ held) (href : f.ref = .session i) (backend : Bool) (cmd : SessionCmd) :
    Own held c (k.sessionIoctl i backend cmd).2 ∧
      Kept held c k (k.sessionIoctl i backend cmd).2 := by
  obtain ⟨s, hs⟩ := h.session_there hf href
  have hne : s.cap ≠ c := fun heq => hn (h.sessions n f i _ hf href (works_of hs) heq)
  have hedits := sessionIoctl_edits k i backend cmd
  have hmoves := sessionIoctl_moves (k := k) i backend cmd
  exact h.work (hmoves.sound h.sound) (h.counted.same hedits.sameRefs) hs hne
    hedits.sameRefs.caps_length (fun a ha => hedits.caps hs ha) (fun j hj => hedits.frame hj)
    hmoves.extends (.of_eq hedits.sameRefs.files)

theorem Own.close (h : Own held c k) {n : ℕ} {f : File} (hf : k.file n = some f)
    (hn : n ∉ held) : Own held c ({ k with files := k.files.set n none }.release f) ∧
      Kept held c k ({ k with files := k.files.set n none }.release f) := by
  have hcounted := release_counted (h.counted.close (Option.join_eq_some_iff.mp hf))
  have hset : SameFiles held k { k with files := k.files.set n none } := by
    refine ⟨fun m g hg => ?_, fun m hm => ?_, length_set⟩
    · simp only [file, getElem?_set] at hg
      split at hg
      · split at hg <;> cases hg
      · exact hg
    · have hne : n ≠ m := fun heq => hn (heq ▸ hm)
      simp only [file, getElem?_set_ne hne]
  cases href : f.ref with
  | cap d =>
    obtain rfl : f = .cap d := by cases f <;> cases href; rfl
    exact h.same h.sound hcounted rfl ⟨hset.back, hset.held, hset.length⟩
  | session i =>
    have hclosed : ({ k with files := k.files.set n none }.release f) =
        { ({ k with files := k.files.set n none } : Device).abandon i with
          puts := k.puts ++ [.session i] } := by
      cases f <;> cases href <;> rfl
    obtain ⟨s, hs⟩ := h.session_there hf href
    have hne : s.cap ≠ c := fun heq => hn (h.sessions n f i _ hf href (works_of hs) heq)
    have hmoves := abandon_moves { k with files := k.files.set n none } i
    have hedits := abandon_edits { k with files := k.files.set n none } i
    have hfiles := hedits.sameRefs.files
    rw [hclosed] at hcounted ⊢
    exact h.work (hmoves.sound h.sound) hcounted hs hne hedits.sameRefs.caps_length
      (fun a ha => hedits.caps hs ha) (fun j hj => hedits.frame hj) hmoves.extends
      ⟨fun m g hg => hset.back m g (file_of_files hfiles m ▸ hg),
        fun m hm => (file_of_files hfiles m).trans (hset.held m hm),
        (congrArg List.length hfiles).trans hset.length⟩

theorem Own.sessionIoctl_self (h : Own held c k) (i : ℕ) (backend : Bool) (cmd : SessionCmd) :
    Own held c (k.sessionIoctl i backend cmd).2 := by
  have hsame := (sessionIoctl_edits k i backend cmd).sameRefs
  have hmoves := sessionIoctl_moves (k := k) i backend cmd
  exact h.keep (hmoves.sound h.sound) (h.counted.same hsame) hmoves.extends hsame.caps_length
    hsame.sessions_length (.of_eq hsame.files)

theorem Own.opened (h : Own held c k) (hsound : k'.book.Sound) (hcounted : k'.Counted []) {io : Io}
    (hbook : k'.book = k.book.addWork ⟨c, io, 0⟩)
    (hfiles : k'.files = k.files ++
      [some (.client k.sessions.length), some (.backend k.sessions.length)]) :
    Own (k.files.length :: (k.files.length + 1) :: held) c k' := by
  have hcaps : k'.caps.length = k.caps.length := by
    simpa [book, Book.addWork] using congrArg (fun b : Book => b.accounts.length) hbook
  have hlen : k'.files.length = k.files.length + 2 := by rw [hfiles]; simp
  have hfile : ∀ n f, k'.file n = some f →
      k.file n = some f ∨ n = k.files.length ∨ n = k.files.length + 1 := by
    intro n f hf
    have hn : k'.files[n]? = some (some f) := Option.join_eq_some_iff.mp hf
    by_cases hlt : n < k.files.length
    · rw [hfiles, getElem?_append_left hlt] at hn
      exact .inl (Option.join_eq_some_iff.mpr hn)
    · have := (List.getElem?_eq_some_iff.mp hn).1
      omega
  refine ⟨hsound, hcounted, hcaps ▸ h.there, ?_, ?_, ?_, ?_⟩
  · exact hbook ▸ h.alone
  · intro n hn
    rcases hfile n _ hn with hold | rfl | rfl
    · exact mem_cons_of_mem _ (mem_cons_of_mem _ (h.caps n hold))
    · simp
    · simp
  · intro n f i w hf href hw hwc
    rcases hfile n f hf with hold | rfl | rfl
    · obtain ⟨s, hs⟩ := h.session_there hold href
      have hi : i < k.book.works.length := by
        simpa [book] using (List.getElem?_eq_some_iff.mp hs).1
      rw [hbook, Book.addWork, getElem?_append_left hi] at hw
      exact mem_cons_of_mem _ (mem_cons_of_mem _ (h.sessions n f i w hold href hw hwc))
    · simp
    · simp
  · intro n hn
    rw [hlen]
    rcases mem_cons.mp hn with rfl | hn
    · omega
    rcases mem_cons.mp hn with rfl | hn
    · omega
    · have := h.old n hn
      omega

theorem own_of_create (hsound : k.book.Sound) (hcounted : k.Counted []) (policy : CapPolicy) :
    Own [k.files.length] k.caps.length
      ((k.addCap none policy).install (.cap k.caps.length)) := by
  have hlen : k.book.accounts.length = k.caps.length := by simp [book]
  have hbook : ((k.addCap none policy).install (.cap k.caps.length)).book =
      k.book.add ⟨none, policy, 0, 0, false⟩ := book_addCap k none policy
  have hfile : ∀ n f, ((k.addCap none policy).install (.cap k.caps.length)).file n = some f →
      k.file n = some f ∨ n = k.files.length := by
    intro n f hf
    have hn := Option.join_eq_some_iff.mp hf
    rcases getElem?_append_one (l := k.files) hn with hold | ⟨hn, _⟩
    · exact .inl (Option.join_eq_some_iff.mpr hold)
    · exact .inr hn
  refine ⟨hbook ▸ Book.Sound.move hsound (.create policy), ?_, ?_, ?_, ?_, ?_, ?_⟩
  · exact (hcounted.addCap_root policy).placed.1
  · simp [install, addCap]
  · intro d x hx hp
    rw [hbook] at hx
    rcases getElem?_append_one hx with hold | ⟨_, rfl⟩
    · have hlt := hsound.ordered d x _ hold hp
      have := (List.getElem?_eq_some_iff.mp hold).1
      omega
    · cases hp
  · intro n hn
    rcases hfile n _ hn with hold | rfl
    · obtain ⟨m, hm, _⟩ := hcounted.live (Nat.add_pos_left (holders_pos hold) _)
      simp [File.ref, object] at hm
    · exact mem_singleton.mpr rfl
  · intro n f i w _ _ hw hwc
    rw [hbook] at hw
    have hlt := hsound.placed w (mem_of_getElem? hw)
    omega
  · intro n hn
    rw [mem_singleton] at hn
    rw [hn]
    simp [install, addCap]

end Device

/-- What others do leaves the owner's capability and sessions alone. -/
theorem step_other {k : Device} {held : List ℕ} {c : ℕ} (h : Device.Own held c k) {op : Op}
    (hop : op.Avoids held) :
    Device.Own held c (step k op).2 ∧ Device.Kept held c k (step k op).2 := by
  have hself : Device.Own held c k ∧ Device.Kept held c k k := ⟨h, .refl held c k⟩
  cases op with
  | create rights arg fault =>
    dsimp only [step]
    split
    · exact hself
    · exact h.capNew (by simp) (by simp) arg fault
  | cap fd cmd =>
    dsimp only [step]
    split
    · rename_i d hf
      obtain ⟨x, hx, hlive, _⟩ :=
        h.counted.cap_live (c := d) (Nat.add_pos_left (Device.holders_pos hf) _)
      exact h.capIoctl (fun heq => hop fd rfl (h.caps fd (heq ▸ hf))) hx hlive cmd
    · exact hself
    · exact hself
  | session fd cmd =>
    dsimp only [step]
    split
    · rename_i i hf
      exact h.sessionIoctl hf (hop fd rfl) rfl false cmd
    · rename_i i hf
      exact h.sessionIoctl hf (hop fd rfl) rfl true cmd
    · exact hself
    · exact hself
  | close fd =>
    dsimp only [step]
    split
    · rename_i f hf
      exact h.close hf (hop fd rfl)
    · exact hself
  | put n =>
    have hcounted := step_counted h.counted (.put n)
    dsimp only [step] at hcounted ⊢
    split
    · rename_i r hr
      rw [hr] at hcounted
      have hbook := Device.book_put { k with puts := k.puts.eraseIdx n } r
      exact h.same (hbook ▸ h.sound) hcounted hbook (.of_eq (Device.put_files _ r))
    · exact hself

theorem run_other (ops : List Op) {held : List ℕ} {c : ℕ} {k : Device}
    (h : Device.Own held c k) (hops : ∀ op ∈ ops, op.Avoids held) :
    Device.Own held c (run k ops) ∧ Device.Kept held c k (run k ops) := by
  induction ops generalizing k with
  | nil => exact ⟨h, .refl held c k⟩
  | cons op ops ih =>
    obtain ⟨hown, hkept⟩ := step_other h (hops op mem_cons_self)
    obtain ⟨hown', hkept'⟩ := ih hown fun o ho => hops o (mem_cons_of_mem _ ho)
    exact ⟨hown', hkept.trans hkept'⟩

end Aok.Kernel
