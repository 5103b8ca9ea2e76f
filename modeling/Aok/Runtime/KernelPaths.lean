import Aok.Runtime.ControlPaths

/-!
# Kernel queues follow their trails

A pass over many sources notes in a flag whether it changed anything; what a pass leaves
uncommitted is what its flag says.
-/

namespace Aok.Runtime
open Lib Lib.Utf8 Lib.JsonText Lib.JsonValue Lib.Command Lib.Journal Relation List

variable {K : Type} {U P : Prop} {S : Terms} {env : Env K} {b : Level} {w : World K}
variable {id key : GoString}
variable {E : Err → World K → Prop} {α : Type} {D : α → Level → Prop} {k : Unit → Op K α}
  {l : List KernelEvent}

def Noted (P : Prop) (changed : Bool) (b : Level) : Prop := changed = false → Ended P b

theorem noted_true : Noted P true b := fun h => nomatch h

theorem noted_clean {changed : Bool} : Noted P changed .clean := fun _ => ended_clean

def BootClear (U : Prop) (env : Env K) : Prop :=
  ∀ k boot, env.bridge.bootID k = .ok boot → Clear U boot

structure Aside (w w' : World K) : Prop where
  store : w'.store = w.store
  around : Around w w'

theorem Aside.refl (w : World K) : Aside w w := ⟨rfl, .refl w⟩

theorem Aside.trans {w₁ w₂ w₃ : World K} (h : Aside w₁ w₂) (k : Aside w₂ w₃) : Aside w₁ w₃ :=
  ⟨k.store.trans h.store, h.around.trans k.around⟩

theorem Aside.of_kernel {x : K} {n : ℕ} : Aside w { w with kernel := x, tick := n } :=
  ⟨rfl, .of_eq rfl rfl⟩

theorem Aside.tick (w : World K) : Aside w { w with tick := w.tick + 1 } := .of_kernel

theorem Aside.path {w w' : World K} (h : Aside w w') : Path U S env (b, w) (b, w') :=
  h.around.path h.store

theorem Aside.sound {w w' : World K} (h : Aside w w') (hs : Sound U w) : Sound U w' := by
  unfold Sound
  rw [h.store]
  exact hs

theorem ensureKernelHandleLocked_ends {Q : ℕ → World K → Prop}
    {C : World K → Prop} (hQ : ∀ h w', Aside w w' → Q h w')
    (hE : ∀ e w', Aside w w' → E e w') (hC : ∀ w', Aside w w' → C w') :
    Ends (ensureKernelHandleLocked env id) w Q E C := by
  simp only [ensureKernelHandleLocked, ends_bind, ends_ask]
  split
  · exact hQ _ w (.refl w)
  simp only [ends_bind, ends_require]
  refine ⟨fun _ => findApplication_ends (fun a _ => ?_) fun _ => hE _ _ (.refl w),
    fun _ => hE _ _ (.refl w)⟩
  refine kernelCall_ends (fun h _ => ?_) (fun e _ => hE e _ .of_kernel) (hC _ (.tick w))
  simp only [editSupervisor, ends_modify, ends_pure]
  exact hQ h _ ⟨rfl, .of_eq rfl rfl⟩

theorem ensureKernelSourceLocked_ends {Q : ℕ → World K → Prop}
    {C : World K → Prop} (hQ : ∀ h w', Aside w w' → Q h w')
    (hE : ∀ e w', Aside w w' → E e w') (hC : ∀ w', Aside w w' → C w') :
    Ends (ensureKernelSourceLocked env id) w Q E C := by
  simp only [ensureKernelSourceLocked, ends_bind, ends_ask]
  split
  · exact hQ _ w (.refl w)
  rw [ends_bind]
  refine ensureKernelHandleLocked_ends (fun app w₁ h₁ => ?_) hE hC
  rw [ends_bind]
  refine kernelCall_ends (fun src _ => ?_) (fun e _ => hE e _ (h₁.trans .of_kernel))
    (hC _ (h₁.trans (.tick w₁)))
  rw [ends_bind]
  refine findApplication_ends (fun a _ => ?_) fun _ => hE _ _ (h₁.trans .of_kernel)
  rw [ends_bind, ends_attempt]
  refine kernelCall_ends (fun _ _ => ?_) (fun e _ => ?_) (hC _ (h₁.trans .of_kernel))
  · simp only [editSupervisor, ends_bind, ends_modify, ends_pure]
    exact hQ src _ (h₁.trans ⟨rfl, .of_eq rfl rfl⟩)
  · simp only [ends_bind, ends_modify, ends_fail]
    exact hE e _ (h₁.trans .of_kernel)

theorem bootIdentity_ends {Q : GoString → World K → Prop}
    {C : World K → Prop} (hboot : BootClear U env)
    (hQ : ∀ boot w', Clear U boot → Aside w w' → Q boot w')
    (hE : ∀ e w', Aside w w' → E e w') (hC : ∀ w', Aside w w' → C w') :
    Ends (bootIdentity env) w Q E C := by
  unfold bootIdentity
  rw [ends_bind, ends_attempt]
  refine kernelCall_ends (fun boot hx => ?_) (fun e _ => hE _ _ (.tick w)) (hC _ (.tick w))
  dsimp only
  split_ifs
  · exact hE _ _ (.tick w)
  · exact hQ boot _ (hboot _ boot hx) (.tick w)

def State.markPending (id : GoString) (s : State) : State :=
  s.setPending id ((s.pending id).map fun e => { e with recoveryPending := true })

theorem markPending_change {c : Core} (hw : WellFormed U c) (hid : valid id = true) :
    Change U S env c .side (c.withState (State.markPending id)) := by
  have hmarked : ∀ e ∈ (c.state.pending id).map (fun e => { e with recoveryPending := true }),
      Clear U e.bootID := by
    intro e he
    obtain ⟨x, hx, rfl⟩ := mem_map.mp he
    unfold State.pending at hx
    cases hp : c.state.kernelPending[id]? with
    | none => simp [hp] at hx
    | some l => exact (hw.side.pending id l hp).2 x (by simpa [hp] using hx)
  exact .side (.of_eq rfl) fun h => { h with pending := h.pending.insert ⟨hid, hmarked⟩ }

theorem save_markPending {c : Core} (hw : WellFormed U c) (hid : valid id = true) :
    (codec.save (c.withState (State.markPending id))).canon = (codec.save c).canon := by
  have hkeys : Each (fun k _ => valid k = true) c.state.kernelPending :=
    fun k l hl => (hw.side.pending k l hl).1
  have hfilter : ∀ k : GoString,
      ((imageTable (map KernelEvent.image) (c.state.kernelPending.insert id
        ((c.state.pending id).map fun e => { e with recoveryPending := true }))).filter
          fun _ l => l ≠ [])[k]? =
      ((imageTable (map KernelEvent.image) c.state.kernelPending).filter
        fun _ l => l ≠ [])[k]? := by
    intro k
    rw [Std.ExtTreeMap.getElem?_filter', Std.ExtTreeMap.getElem?_filter',
      get_imageTable_of_valid (hkeys.insert hid), get_imageTable_of_valid hkeys, Table.get_insert]
    split_ifs with hk
    · subst hk
      unfold State.pending
      cases c.state.kernelPending[id]? with
      | none => simp
      | some l =>
        simp only [Option.getD_some, Option.map_some, List.map_map]
        rfl
    · rfl
  have htable := Std.ExtTreeMap.ext_getElem? hfilter
  simp only [codec, Core.withState_state, State.canon, State.image, State.markPending,
    State.setPending] at htable ⊢
  rw [htable]

theorem Leaves.mark (hs : Sound U w) (hid : valid id = true)
    (h : ∀ w', Path U S env (b, w) (b, w') → Leaves U S env D P (k ()) b w') :
    Leaves U S env D P (markKernelRecoveryPendingLocked id >>= k) b w := by
  have hp : Path U S env (b, w) (b, w.setCore (w.sup.core.withState (State.markPending id))) :=
    .silent (markPending_change hs.live hid) (save_markPending hs.live hid)
  exact .call (ends_modify.mpr ⟨b, hp, h _ hp⟩)

theorem Sound.pending (hs : Sound U w) {e : KernelEvent} (he : e ∈ w.sup.core.state.pending id) :
    Clear U e.bootID := by
  unfold State.pending at he
  cases hp : w.sup.core.state.kernelPending[id]? with
  | none => simp [hp] at he
  | some l => exact (hs.live.side.pending id l hp).2 e (by simpa [hp] using he)

theorem clear_kernelMessageKey {e : KernelEvent} (hid : Clear U id) (he : Clear U e.bootID) :
    Clear U (kernelMessageKey id e) := by
  unfold kernelMessageKey
  have hnum : Clear U (dec e.eventID.toNat) := .of_valid (valid_dec _)
  have hhead := ((clear_lit "kernel:").append hid).append (clear_lit ":")
  split_ifs
  · exact hhead.append hnum
  · exact ((hhead.append he).append (clear_lit _)).append hnum

theorem Side.setPending {c : Core} (h : Side U c) (hid : valid id = true)
    (hl : ∀ e ∈ l, Clear U e.bootID) : Side U (c.withState fun s => s.setPending id l) :=
  { h with pending := h.pending.insert ⟨hid, hl⟩ }

theorem Side.shrinkPending {c : Core} (h : Side U c) (hid : valid id = true)
    (hl : ∀ e ∈ l, Clear U e.bootID) : Side U (c.withState fun s => s.shrinkPending id l) := by
  refine { h with pending := ?_ }
  simp only [Core.withState_state, State.shrinkPending]
  split_ifs
  · exact h.pending.erase id
  · exact h.pending.insert ⟨hid, hl⟩

theorem Leaves.persistThen
    (h : ∀ w', Path U S env (b, w) (.clean, w') → Leaves U S env D P (k ()) .clean w') :
    Leaves U S env D P (persistLocked env >>= k) b w :=
  .call (persistLocked_ends ⟨.clean, .tickCommit, h _ .tickCommit⟩ (fun _ => .tickRestore)
    ⟨b, .tick⟩)

theorem deliverPersisted_settled (hid : valid id = true) (n : ℕ) (hs : Sound U w) :
    Settled U S env P (deliverPersisted env id n) .clean w := by
  induction n generalizing w with
  | zero => exact .pure
  | succ n ih =>
    refine .ask ?_
    split
    · exact .pure
    next event rest hpending =>
      have hclear : ∀ e ∈ event :: rest, Clear U e.bootID := fun e he =>
        hs.pending (hpending ▸ he)
      have hkey := clear_kernelMessageKey (.of_valid hid) (hclear event mem_cons_self)
      have hnext : ∀ b w', Path U S env (.clean, w) (b, w') → Settled U S env P (do
          editState fun s => s.shrinkPending id rest
          persistLocked env
          deliverPersisted env id n : Op K Bool) b w' := fun b w' hp =>
        have hc : Change U S env w'.sup.core .side
            (w'.sup.core.withState (·.shrinkPending id rest)) := .side (.of_eq rfl) fun hside =>
          hside.shrinkPending hid fun e he => hclear e (mem_cons_of_mem _ he)
        .editState hc (.persistThen fun _ h => ih (hs.path ((hp.trans (.edit hc)).trans h)))
      refine .call (ends_attempt.mpr (enqueueLocked_ends (S := S) (b := .clean) hs (clear_lit _) hkey
        (fun m => ⟨.clean, .refl, hnext .clean w .refl⟩)
        (fun m w' hp _ _ => ⟨.main, hp, hnext .main w' hp⟩) fun e => ⟨.clean, .refl, ?_⟩))
      split
      · exact .pure
      · exact .restore .fail
      · next h => cases h

theorem recoverPersisted_settled (hid : valid id = true) (hs : Sound U w) :
    Settled U S env P (recoverPersisted env id) .clean w := by
  refine .mark hs hid fun w₁ h₁ => ?_
  have hdeliver : Settled U S env True (deliverPersistedKernelLocked env id) .clean w₁ :=
    .ask (deliverPersisted_settled hid _ (hs.path h₁))
  refine .attempt hdeliver (fun _ b' _ hb' _ => ?_) fun e w₂ h₂ => ?_
  · cases hb'.eq_clean
    exact .pure
  · exact .mark (hs.path (h₁.trans h₂)) hid fun _ _ => .fail

theorem Leaves.attemptKernel {β : Type} {f : K → Except Err β × K}
    {k : Except Err β → Op K α}
    (h : ∀ r w', Aside w w' → Leaves U S env D P (k r) b w') :
    Leaves U S env D P (Command.attempt (Runtime.kernelCall env f) >>= k) b w :=
  .call (ends_attempt.mpr (kernelCall_ends
    (fun a _ => ⟨b, Aside.of_kernel.path, h (.ok a) _ .of_kernel⟩)
    (fun e _ => ⟨b, Aside.of_kernel.path, h (.error e) _ .of_kernel⟩) ⟨b, (Aside.tick w).path⟩))

theorem Leaves.handle {k : ℕ → Op K α}
    (h : ∀ x w', Aside w w' → Leaves U S env D P (k x) .clean w') :
    Leaves U S env D P (ensureKernelHandleLocked env id >>= k) .clean w :=
  .call (ensureKernelHandleLocked_ends (fun x w' hw => ⟨.clean, hw.path, h x w' hw⟩)
    (fun _ _ hw => hw.path) fun _ hw => ⟨.clean, hw.path⟩)

theorem Leaves.boot {α : Type} {D : α → Level → Prop} {k : GoString → Op K α}
    (hboot : BootClear U env)
    (h : ∀ boot w', Clear U boot → Aside w w' → Leaves U S env D P (k boot) .clean w') :
    Leaves U S env D P (bootIdentity env >>= k) .clean w :=
  .call (bootIdentity_ends hboot (fun boot w' hb hw => ⟨.clean, hw.path, h boot w' hb hw⟩)
    (fun _ _ hw => hw.path) fun _ hw => ⟨.clean, hw.path⟩)

theorem attachApplication_settled {boot : GoString} (hs : Sound U w) :
    Settled U S env P (attachApplication env boot id) .clean w := by
  refine .ask ?_
  split
  · exact .pure
  next a ha =>
    split
    · exact .pure
    have hid := (hs.live.named.applications id a ha).1
    refine .bind (recoverPersisted_settled hid hs) fun recovered b' w₁ hb' _ => ?_
    cases hb'.eq_clean
    split
    · exact .pure
    refine .handle fun h w₂ _ => .attemptKernel fun r w₃ _ => ?_
    split
    · exact .pure
    · exact .pure
    · exact .closeKernelApp fun _ _ => .fail

theorem forEach_settled {f : α → Op K Unit}
    (hf : ∀ x w, Sound U w → Settled U S env True (f x) .clean w) (xs : List α) (hs : Sound U w) :
    Settled U S env P (forEach f xs) .clean w := by
  induction xs generalizing w with
  | nil => exact .pure
  | cons x xs ih =>
    refine .bind (hf x w hs) fun _ b' w' hb' hp => ?_
    cases hb'.eq_clean
    exact ih (hs.path hp)

theorem attachKernel_settled (hs : Sound U w) (hboot : BootClear U env) :
    Settled U S env P (attachKernel env) .clean w := by
  refine .ask ?_
  split
  · refine .boot hboot fun boot w' _ hw => .ask (forEach_settled (fun id w hs => ?_) _ ?_)
    · exact attachApplication_settled hs
    · exact hw.sound hs
  · exact .pure

theorem clear_identify {boot : GoString} {e : KernelEvent} (hs : Sound U w) (hb : Clear U boot) :
    Clear U (w.sup.core.state.identify id e boot).bootID := by
  unfold State.identify
  dsimp only
  split
  · next saved hsaved => exact hs.pending (e := saved) (mem_of_find?_eq_some hsaved)
  · exact hb

theorem acknowledge_settled {h : ℕ} {event identified : KernelEvent} {kept : List KernelEvent}
    (hid : valid id = true) (hidentified : Clear U identified.bootID)
    (hkept : ∀ e ∈ kept, Clear U e.bootID) :
    Settled U S env P (acknowledge env id h event identified kept) b w := by
  have hall : ∀ e ∈ kept ++ [identified], Clear U e.bootID := by
    intro e he
    rcases mem_append.mp he with he | he
    · exact hkept e he
    · exact mem_singleton.mp he ▸ hidentified
  refine .editState (.side (.of_eq rfl) fun h => h.setPending hid hall) (.attempt .persist_last
    (fun _ b' w₂ hb' _ => ?_) fun e w₂ _ => .restore (.closeKernelApp fun _ _ => .fail))
  cases hb'.eq_clean
  refine .attemptKernel fun r w₃ _ => ?_
  split
  · exact .closeKernelApp fun _ _ => .fail
  · exact .editState (.side (.of_eq rfl) fun h => h.shrinkPending hid hkept) .persist_last

theorem drainQueue_settled {boot : GoString} {h : ℕ} (hid : valid id = true)
    (hb : Clear U boot) (n : ℕ) (hs : Sound U w) :
    Settled U S env P (drainQueue env boot id h n) .clean w := by
  induction n generalizing w with
  | zero => exact .halt
  | succ n ih =>
    refine .kernelCall fun next x t _ => ?_
    replace hs : Sound U { w with kernel := x, tick := t } := hs
    generalize { w with kernel := x, tick := t } = w at hs
    cases next with
    | none => exact .pure
    | some event =>
      refine .ask ?_
      have hboot : Clear U (w.sup.core.state.identify id event boot).bootID := clear_identify hs hb
      have hkey := clear_kernelMessageKey (.of_valid hid) hboot
      have hnext : ∀ b w', Path U S env (.clean, w) (b, w') → Settled U S env P (do
          acknowledge env id h event (w.sup.core.state.identify id event boot)
            ((w.sup.core.state.pending id).filter fun saved =>
              saved.bootID ≠ (w.sup.core.state.identify id event boot).bootID ∨
                saved.eventID ≠ (w.sup.core.state.identify id event boot).eventID)
          drainQueue env boot id h n : Op K Bool) b w' := by
        intro b w' hp
        refine .bind (acknowledge_settled hid hboot fun e he =>
          hs.pending (mem_of_mem_filter he)) fun _ b' w'' hb' hp' => ?_
        cases hb'.eq_clean
        exact ih (hs.path (hp.trans hp'))
      refine .call (ends_attempt.mpr (enqueueLocked_ends (S := S) (b := .clean) hs (clear_lit _) hkey
        (fun m => ⟨.clean, .refl, hnext .clean w .refl⟩)
        (fun m w' hp _ _ => ⟨.main, hp, hnext .main w' hp⟩) fun e => ⟨.clean, .refl, ?_⟩))
      split
      · exact .closeKernelApp fun _ _ => .pure
      · exact .restore (.closeKernelApp fun _ _ => .fail)
      · next h => cases h

theorem deliverKernelApplication_settled {boot : GoString} (hb : Clear U boot) (hs : Sound U w) :
    Settled U S env P (deliverKernelApplication env boot id) .clean w := by
  refine .ask ?_
  split
  · exact .pure
  next a ha =>
    split
    · exact .pure
    have hid := (hs.live.named.applications id a ha).1
    refine .bind (recoverPersisted_settled hid hs) fun recovered b' w₁ hb' h₁ => ?_
    cases hb'.eq_clean
    split
    · refine .handle fun h w₂ h₂ => drainQueue_settled hid hb _ ?_
      exact h₂.sound (hs.path h₁)
    · exact .pure

theorem deliverKernelEach_settled {boot : GoString} (hb : Clear U boot) (ids : List GoString)
    (hs : Sound U w) : Settled U S env P (deliverKernelEach env boot ids) .clean w := by
  induction ids generalizing w with
  | nil => exact .pure
  | cons id ids ih =>
    refine .bind (deliverKernelApplication_settled hb hs) fun goOn b' w' hb' hp => ?_
    cases hb'.eq_clean
    split
    · exact ih (hs.path hp)
    · exact .pure

theorem deliverKernel_settled (hs : Sound U w) (hboot : BootClear U env) :
    Settled U S env P (deliverKernel env) .clean w := by
  refine .ask ?_
  split
  · refine .boot hboot fun boot w' hb hw => .ask (deliverKernelEach_settled hb _ ?_)
    exact hw.sound hs
  · exact .pure

theorem closeKernelHandlesLocked_around : Around w { w with
    kernel := w.sup.kernelSrcs.toList.foldl (fun k p => env.bridge.closeSource p.2 k)
      (w.sup.kernelApps.toList.foldl (fun k p => env.bridge.closeApp p.2 k) w.kernel)
    sup := { w.sup with kernelApps := ∅, kernelSrcs := ∅ } } := .of_eq rfl rfl

theorem setKernelBridge_settled : Settled U S env P (setKernelBridge env) .clean w :=
  .quiet closeKernelHandlesLocked_around rfl
    (.quiet (k := fun _ => Pure.pure ()) (.of_eq rfl rfl) rfl .pure)

theorem snapshotApplication_leaves {boot : GoString} {changed : Bool} (hb : Clear U boot)
    (hs : Sound U w) (hnoted : Noted True changed b) :
    Leaves U S env (Noted True) P (snapshotApplication env boot changed id) b w := by
  refine .ask ?_
  split
  · exact .note hnoted
  next a ha =>
    split
    · exact .note hnoted
    have hid := (hs.live.named.applications id a ha).1
    refine .call (ends_attempt.mpr (ensureKernelHandleLocked_ends
      (fun h w₁ hw => ⟨b, hw.path, .attemptKernel fun r w₂ _ => ?_⟩)
      (fun e w₁ hw => ⟨b, hw.path, .note hnoted⟩) fun w₁ hw => ⟨b, hw.path⟩))
    split
    · exact .note hnoted
    · split
      · exact .editState (.side (.of_eq rfl) fun h =>
          { h with pending := h.pending.erase id }) (.note noted_true)
      · exact .note hnoted
    · refine .editState (.side (.of_eq rfl) fun h => h.setPending hid fun e he => ?_) (.note noted_true)
      obtain ⟨x, -, rfl⟩ := mem_map.mp he
      exact clear_identify hs hb

theorem snapshotEach_leaves {boot : GoString} (hb : Clear U boot)
    (ids : List GoString) {changed : Bool} (hs : Sound U w) (hnoted : Noted True changed b) :
    Leaves U S env (Noted True) P (snapshotEach env boot changed ids) b w := by
  induction ids generalizing changed b w with
  | nil => exact .note hnoted
  | cons id ids ih =>
    exact .bind (snapshotApplication_leaves hb hs hnoted) fun _ _ _ hb' hp => ih (hs.path hp) hb'

theorem snapshotKernel_settled (hs : Sound U w) (hboot : BootClear U env) :
    Settled U S env P (snapshotKernel env) .clean w := by
  refine .ask ?_
  split
  · refine .call (ends_attempt.mpr (bootIdentity_ends hboot (fun boot w' hb hw => ?_)
      (fun e w' hw => ⟨.clean, hw.path, .pure⟩) fun w' hw => ⟨.clean, hw.path⟩))
    refine ⟨.clean, hw.path, .ask (.bind (snapshotEach_leaves hb _ ?_ noted_clean) ?_)⟩
    · exact hw.sound hs
    · intro changed b' w'' hb' _
      refine .quiet closeKernelHandlesLocked_around rfl ?_
      cases changed with
      | true => exact .ignorePersist_last
      | false =>
        cases (hb' rfl).eq_clean
        exact .pure
  · exact .pure

end Aok.Runtime
