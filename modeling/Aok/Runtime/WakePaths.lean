import Aok.Runtime.KernelPaths

/-!
# Timers and wake bindings follow their trails

With a kernel bridge the pass over the wake bindings moves cursors without noting it.
-/

namespace Aok.Runtime
open Lib Lib.Utf8 Lib.JsonText Lib.JsonValue Lib.Command Lib.Journal Relation

variable {K : Type} {U P : Prop} {S : Terms} {env : Env K} {b : Level} {w : World K}
variable {id key : GoString}
variable {changed : Bool} {calm : Prop}

/-! ## Timers -/

theorem deliverTimer_leaves {start : ℤ} (hs : Sound U w) (hb : Noted True changed b) :
    Leaves U S env (Noted True) P (deliverTimer env start changed key) b w := by
  have hdrop : Leaves U S env (Noted True) P (do
      editState fun s => { s with timers := s.timers.erase key }
      pure true : Op K Bool) b w :=
    .editState (.side ⟨rfl, rfl, rfl, rfl, rfl, rfl, rfl, le_rfl, le_rfl,
      fun h => h.erase key, .inr rfl, .inr rfl, .inr rfl, .inr rfl⟩ fun h =>
      { h with timers := h.timers.erase key }) (.note noted_true)
  refine .ask ?_
  split
  · exact .note hb
  next timer htimer =>
    have hid := hs.live.side.timers key timer htimer
    have hkey : Clear U (timerMessageKey timer) :=
      (((clear_lit _).append hid).append (clear_lit _)).append (.of_valid (valid_decInt _))
    split
    · exact hdrop
    next a ha =>
      split
      · exact hdrop
      split
      · exact .note hb
      -- once the message is in, the timer moves on or goes, and both are noted
      have hdone : ∀ b w', w'.sup.core.state.timers[key]? = some timer →
          Leaves U S env (Noted True) P (do
            editState fun s => { s with
              timers := if timer.interval = 0 then s.timers.erase key
                else s.timers.insert key { timer with due := start + timer.interval } }
            auditLocked env (lit "supervisor") timer.applicationID (lit "timer.deliver")
              (timerMessageKey timer) (lit "allow") []
            pure true : Op K Bool) b w' := by
        intro b w' hkept
        refine .editState (.side ⟨rfl, rfl, rfl, rfl, rfl, rfl, rfl, le_rfl, le_rfl,
          fun h => ?_, .inr rfl, .inr rfl, .inr rfl, .inr rfl⟩ fun h => { h with timers := ?_ }) ?_
        · simp only [Core.withState_state]
          split_ifs
          · exact h.erase key
          · exact h.insert (h key timer hkept)
        · simp only [Core.withState_state]
          split_ifs
          · exact h.timers.erase key
          · exact h.timers.insert hid
        · exact .audit ⟨clear_lit _, hs.clear_id ha, clear_lit _, hkey, clear_lit _, clear_nil⟩
            fun _ _ => .note noted_true
      refine .call (ends_attempt.mpr (enqueueLocked_ends (S := S) (b := b) hs (clear_lit _) hkey
        (fun m => ⟨b, .refl, hdone b w htimer⟩)
        (fun m w' hpath hsteady _ => ⟨_, hpath, hdone _ w' (hsteady.timers ▸ htimer)⟩)
        fun e => ⟨b, .refl, ?_⟩))
      split
      · exact .note hb
      · exact .restore .fail
      · next h => cases h

theorem deliverEach_leaves {start : ℤ} (keys : List GoString) (hs : Sound U w) (hb : Noted True changed b) :
    Leaves U S env (Noted True) P (deliverEach env start changed keys) b w := by
  induction keys generalizing changed b w with
  | nil => exact .note hb
  | cons k keys ih =>
    exact .bind (deliverTimer_leaves hs hb) fun changed' b' w' hb' hpath => ih (hs.path hpath) hb'

theorem deliverTimers_settled (hs : Sound U w) :
    Settled U S env P (deliverTimers env) .clean w := by
  refine .now fun start _ => .ask (.question ?_)
  refine .bind (deliverEach_leaves _ ?_ noted_clean) fun changed b' w' hb' _ => ?_
  · exact hs
  · cases changed with
    | true => exact .persist_last
    | false =>
      cases (hb' rfl).eq_clean
      exact .pure

/-! ## Bindings -/

/-- A scan has ended with a binding and a flag that notes what is uncommitted. If it was calm,
nothing else moved and an unset flag means that nothing happened. -/
structure Scanned (calm : Prop) (x : WakeBinding) (changed : Bool) (w : World K)
    (r : WakeBinding × Bool) (b' : Level) (w' : World K) : Prop where
  bindingID : r.1.bindingID = x.bindingID
  steady : calm → Steady w w'
  noted : Noted calm r.2 b'
  unchanged : calm → r.2 = false → changed = false ∧ r.1 = x

theorem scanCommits_ends (commits : List LSFSCommit) {x : WakeBinding}
    (hs : Sound U w) (hx : Clear U x.bindingID)
    (hcalm : calm → w.sup.kernel = false ∨ ∀ c ∈ commits, c.kind ≠ .artifact)
    (hb : Noted calm changed b) :
    Ends (scanCommits env x changed commits) w
      (fun r w' => ∃ b', Path U S env (b, w) (b', w') ∧ Scanned calm x changed w r b' w')
      (fun _ w' => Path U S env (b, w) (.clean, w')) (fun w' => ∃ b', Path U S env (b, w) (b', w')) := by
  induction commits generalizing x changed b w with
  | nil => exact ⟨b, .refl, rfl, fun _ => .refl w, hb, fun _ hc => ⟨hc, rfl⟩⟩
  | cons c rest ih =>
    -- the rest of the scan after a step that moved the cursor
    have hrest : ∀ changed' b₁ w₁, Path U S env (b, w) (b₁, w₁) → (calm → Steady w w₁) →
        Noted calm changed' b₁ → (calm → changed' = true) →
        Ends (scanCommits env { x with cursor := c.cursor } changed' rest) w₁
          (fun r w' => ∃ b', Path U S env (b, w) (b', w') ∧ Scanned calm x changed w r b' w')
          (fun _ w' => Path U S env (b, w) (.clean, w'))
          (fun w' => ∃ b', Path U S env (b, w) (b', w')) := by
      intro changed' b₁ w₁ hp hsteady hnoted hset
      have hcalm' : calm → w₁.sup.kernel = false ∨ ∀ c ∈ rest, c.kind ≠ .artifact := fun h =>
        (hcalm h).imp (fun hk => (hsteady h).attached.trans hk)
          fun hc y hy => hc y (List.mem_cons_of_mem _ hy)
      have hscan := ih (x := { x with cursor := c.cursor }) (hs.path hp) hx hcalm' hnoted
      refine hscan.mono ?_ (fun _ _ h => hp.trans h) fun _ ⟨b', h⟩ => ⟨b', hp.trans h⟩
      rintro r w' ⟨b', hp', hr⟩
      refine ⟨b', hp.trans hp', hr.bindingID, fun h => (hsteady h).trans (hr.steady h), hr.noted,
        fun h hf => ?_⟩
      exact absurd ((hset h).symm.trans (hr.unchanged h hf).1) (by simp)
    have hstay : ∀ w₁, Aside w w₁ → (calm → Steady w w₁) →
        ∃ b', Path U S env (b, w) (b', w₁) ∧ Scanned calm x changed w (x, changed) b' w₁ :=
      fun w₁ hw hsteady => ⟨b, hw.path, rfl, hsteady, hb, fun _ hc => ⟨hc, rfl⟩⟩
    simp only [scanCommits, ends_bind, ends_ask]
    split
    · exact hrest true b w .refl (fun _ => .refl w) noted_true fun _ => rfl
    next hartifact =>
      split
      next hkernel =>
        have hno : ¬ calm := fun h => (hcalm h).elim (fun hk => by simp [hkernel] at hk) fun hc =>
          hartifact (hc c List.mem_cons_self)
        rw [ends_bind, ends_attempt]
        refine ensureKernelSourceLocked_ends (fun src w₁ h₁ => ?_) (fun e w₁ h₁ => ?_)
          fun w₁ h₁ => ⟨b, h₁.path⟩
        · dsimp only
          rw [ends_bind, ends_attempt]
          have h₂ : ∀ {x n}, Aside w { w₁ with kernel := x, tick := n } := h₁.trans .of_kernel
          have hpost : ∀ {x n}, Path U S env (b, w) (b, { w₁ with kernel := x, tick := n }) := h₂.path
          refine kernelCall_ends (fun _ _ => ?_) (fun e _ => ?_) ⟨b, (h₁.trans (.tick w₁)).path⟩
          · dsimp only
            rw [ends_bind, ends_attempt]
            refine persistLocked_ends ?_ (fun e => ?_) ⟨b, hpost.trans .tick⟩
            · exact hrest changed .clean _ (hpost.trans .tickCommit)
                (fun h => absurd h hno) noted_clean fun h => absurd h hno
            · exact (hpost.trans .tickRestore).trans .restore
          · split
            · exact hstay _ h₂ fun h => absurd h hno
            · exact hpost.trans .restore
            · next h => cases h
        · exact h₁.path.trans .restore
      next hkernel =>
        rw [ends_bind, ends_attempt]
        have hkey : Clear U (lsfsMessageKey x c) :=
          (((clear_lit _).append hx).append (clear_lit _)).append (.of_valid (valid_decInt _))
        refine enqueueLocked_ends (S := S) (b := b) hs (clear_lit _) hkey
          (fun m => ?_) (fun m w₁ hp hsteady _ => ?_) fun e => ?_
        · exact hrest true b w .refl (fun _ => .refl w) noted_true fun _ => rfl
        · exact hrest true _ w₁ hp (fun _ => hsteady) noted_true fun _ => rfl
        · split
          · exact hstay w (.refl w) fun _ => .refl w
          · exact .restore
          · next h => cases h

def Posts (w : World K) (key : GoString) : Prop :=
  ∃ x a commits, w.sup.core.state.bindings[key]? = some x ∧
    w.sup.core.state.applications[x.applicationID]? = some a ∧
    ContextStore.commitsAfter a.ownerAgent x.ref x.cursor wakeScanBatch w.contexts = .ok commits ∧
    ∃ c ∈ commits, c.kind = .artifact

structure Visited (key : GoString) (w w' : World K) : Prop where
  contexts : w'.contexts = w.contexts
  attached : w'.sup.kernel = w.sup.kernel
  applications : w'.sup.core.state.applications = w.sup.core.state.applications
  bindings : ∀ k, k ≠ key → w'.sup.core.state.bindings[k]? = w.sup.core.state.bindings[k]?

theorem Visited.posts {k : GoString} {w' : World K} (h : Visited key w w') (hk : k ≠ key) :
    Posts w' k ↔ Posts w k := by
  unfold Posts
  rw [h.contexts, h.applications, h.bindings k hk]

theorem insertBinding_change {c : Core} {x : WakeBinding} (hx : Clear U x.bindingID) :
    Change U S env c .side (c.withState fun s => { s with bindings := s.bindings.insert key x }) :=
  .side (.of_eq rfl) fun h => { h with bindings := h.bindings.insert hx }

theorem storeBinding_ends {x x' : WakeBinding} {changed' : Bool} {b' : Level}
    {w₁ w' : World K} (hx : w.sup.core.state.bindings[key]? = some x) (hid : Clear U x.bindingID)
    (hp : Path U S env (b, w) (b', w')) (hscan : Scanned calm x changed w₁ (x', changed') b' w')
    (hsame : w₁.sup.core = w.sup.core ∧ w₁.contexts = w.contexts ∧ w₁.sup.kernel = w.sup.kernel) :
    Ends (do
      editState fun s => { s with bindings := s.bindings.insert key x' }
      pure changed' : Op K Bool) w'
      (fun changed' w' => ∃ b', Path U S env (b, w) (b', w') ∧ Noted calm changed' b' ∧
        (calm → Visited key w w'))
      (fun _ w' => Path U S env (b, w) (.clean, w')) (fun w' => ∃ b', Path U S env (b, w) (b', w')) := by
  obtain ⟨hcore, hcontexts, hkernel⟩ := hsame
  have hvisited : calm → Visited key w (w'.setCore (w'.sup.core.withState fun s =>
      { s with bindings := s.bindings.insert key x' })) := by
    intro h
    have hst := hscan.steady h
    refine ⟨hst.contexts.trans hcontexts, hst.attached.trans hkernel,
      hst.applications.trans (by rw [hcore]), fun k hk => ?_⟩
    rw [← hcore, ← hst.bindings]
    exact Table.get_insert_ne _ _ (Ne.symm hk)
  simp only [editState, ends_bind, ends_editCore, ends_pure]
  by_cases hq : calm ∧ changed' = false
  · obtain ⟨h, rfl⟩ := hq
    obtain ⟨-, rfl⟩ := hscan.unchanged h rfl
    obtain rfl := (hscan.noted rfl).clean h
    have hget : w'.sup.core.state.bindings[key]? = some x' := by
      rw [(hscan.steady h).bindings, hcore, hx]
    refine ⟨.clean, hp.trans (.memory ?_ rfl rfl), noted_clean, hvisited⟩
    simp only [World.store, World.setCore, Table.insert_eq_self _ hget]
  · refine ⟨_, hp.trans (.edit (insertBinding_change (hscan.bindingID ▸ hid))), fun hf => ?_,
      hvisited⟩
    exact ⟨sup_le (hscan.noted hf).le_side le_rfl, fun h => absurd ⟨h, hf⟩ hq⟩

theorem deliverBinding_ends (hs : Sound U w)
    (hcalm : calm → w.sup.kernel = false ∨ ¬ Posts w key) (hb : Noted calm changed b) :
    Ends (deliverBinding env changed key) w
      (fun changed' w' => ∃ b', Path U S env (b, w) (b', w') ∧ Noted calm changed' b' ∧
        (calm → Visited key w w'))
      (fun _ w' => Path U S env (b, w) (.clean, w')) (fun w' => ∃ b', Path U S env (b, w) (b', w')) := by
  have hsame : ∃ b', Path U S env (b, w) (b', w) ∧ Noted calm changed b' ∧
      (calm → Visited key w w) :=
    ⟨b, .refl, hb, fun _ => ⟨rfl, rfl, rfl, fun _ _ => rfl⟩⟩
  unfold deliverBinding
  simp only [ends_bind, ends_getState]
  split
  · exact hsame
  next x hx =>
    have hid := hs.live.side.bindings key x hx
    split
    · exact hsame
    split
    · simp only [editState, ends_bind, ends_editCore, ends_pure]
      refine ⟨_, .edit (insertBinding_change (x := { x with enabled := false }) hid),
        noted_true, fun _ => ?_⟩
      exact ⟨rfl, rfl, rfl, fun k hk => Table.get_insert_ne _ _ (Ne.symm hk)⟩
    next a ha =>
      rw [ends_bind, ends_attempt]
      have hstart : Path U S env (b, w) (b, { w with tick := w.tick + 1 }) := .tick
      refine contextTx_ends (fun commits t hread => ?_) (fun e => ?_) ⟨b, hstart⟩
      · obtain ⟨rfl, hcommits⟩ : t = w.contexts ∧
            ContextStore.commitsAfter a.ownerAgent x.ref x.cursor wakeScanBatch w.contexts =
              .ok commits := by
          cases hr : ContextStore.commitsAfter a.ownerAgent x.ref x.cursor wakeScanBatch w.contexts with
          | error e => simp [hr, Except.map] at hread
          | ok l =>
            simp only [hr, Except.map, Except.ok.injEq, Prod.mk.injEq] at hread
            exact ⟨hread.2.symm, by rw [hread.1]⟩
        have ha : w.sup.core.state.applications[x.applicationID]? = some a :=
          (Option.filter_eq_some_iff.mp ha).1
        have hquiet : calm → w.sup.kernel = false ∨ ∀ c ∈ commits, c.kind ≠ .artifact := fun h =>
          (hcalm h).imp id fun hno c hc hk => hno ⟨x, a, commits, hx, ha, hcommits, c, hc, hk⟩
        dsimp only
        rw [ends_bind]
        refine (scanCommits_ends (b := b) commits (hs.path hstart) hid hquiet hb).mono ?_
          (fun _ _ h => hstart.trans h) fun _ h => h.imp fun _ => hstart.trans
        rintro ⟨x', changed'⟩ w₂ ⟨b', hp, hscan⟩
        exact storeBinding_ends hx hid (hstart.trans hp) hscan ⟨rfl, rfl, rfl⟩
      · exact hstart.trans .restore

theorem deliverBindings_ends (keys : List GoString) (hs : Sound U w)
    (hnodup : keys.Nodup) (hcalm : calm → w.sup.kernel = false ∨ ∀ k ∈ keys, ¬ Posts w k)
    (hb : Noted calm changed b) :
    Ends (deliverBindings env changed keys) w
      (fun changed' w' => ∃ b', Path U S env (b, w) (b', w') ∧ Noted calm changed' b')
      (fun _ w' => Path U S env (b, w) (.clean, w')) (fun w' => ∃ b', Path U S env (b, w) (b', w')) := by
  induction keys generalizing changed b w with
  | nil => exact ⟨b, .refl, hb⟩
  | cons k keys ih =>
    rw [deliverBindings, ends_bind]
    have hone : calm → w.sup.kernel = false ∨ ¬ Posts w k := fun h =>
      (hcalm h).imp (fun hk => hk) fun hno => hno k List.mem_cons_self
    refine (deliverBinding_ends hs hone hb).mono ?_ (fun _ _ h => h) fun _ h => h
    rintro changed' w₁ ⟨b₁, hp, hnoted, hvisit⟩
    obtain ⟨hnot, hnodup⟩ := List.nodup_cons.mp hnodup
    have hrest : calm → w₁.sup.kernel = false ∨ ∀ x ∈ keys, ¬ Posts w₁ x := by
      intro h
      have hv := hvisit h
      refine (hcalm h).imp (fun hk => hv.attached.trans hk) fun hno x hx => ?_
      rw [hv.posts (ne_of_mem_of_not_mem hx hnot)]
      exact hno x (List.mem_cons_of_mem _ hx)
    refine (ih (hs.path hp) hnodup hrest hnoted).mono ?_ (fun _ _ h => hp.trans h)
      fun _ ⟨b', h⟩ => ⟨b', hp.trans h⟩
    exact fun _ _ ⟨b', h, hn⟩ => ⟨b', hp.trans h, hn⟩

theorem deliverLSFS_settled (hs : Sound U w)
    (hcalm : P → w.sup.kernel = false ∨ ∀ k, ¬ Posts w k) :
    Settled U S env P (deliverLSFS env) .clean w := by
  refine .ask (Settles.of_ends ((deliverBindings_ends (b := .clean) _ hs
    Std.ExtTreeMap.nodup_keys (fun h => (hcalm h).imp id fun hno k _ => hno k) noted_clean).mono ?_
    (fun _ _ h => ⟨.clean, ended_clean, h⟩) fun _ h => h))
  rintro changed w' ⟨b', hp, hnoted⟩
  refine ⟨b', hp, ?_⟩
  cases changed with
  | true => exact Leaves.persist_last
  | false => exact Leaves.note (hnoted rfl)

end Aok.Runtime
