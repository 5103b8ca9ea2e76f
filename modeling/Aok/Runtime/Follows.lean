import Aok.Runtime.ContextCalls
import Aok.Runtime.Wellformed

/-!
# Operations as trails of changes

`Path` connects two worlds when the state of the first reaches that of the second by
changes, commits and rollbacks, with what goes on around it. Its level says how much is left
uncommitted. The rules below take one line of an operation each; with them the proof that an
operation follows its trail reads like the operation.
-/

namespace Aok.Runtime
open Lib Lib.Utf8 Lib.JsonText Lib.JsonValue Lib.Command Lib.Journal Relation

def State.canon (s : State) : State :=
  { s with
    mailbox := s.mailbox.filter fun _ ms => ms ≠ []
    kernelPending := s.kernelPending.filter fun _ l => l ≠ [] }

variable {K : Type}

/-- While an operation edits the state, contexts may be made, and they keep their owners. -/
structure Around (w w' : World K) : Prop where
  inflight : w'.sup.inflight = w.sup.inflight
  contexts : ContextStore.Grows w.contexts w'.contexts

section Around
variable {w w' w'' : World K}

theorem Around.of_eq (hi : w'.sup.inflight = w.sup.inflight) (hc : w'.contexts = w.contexts) :
    Around w w' :=
  ⟨hi, hc ▸ .refl _⟩

theorem Around.refl (w : World K) : Around w w := .of_eq rfl rfl

theorem Around.trans (h : Around w w') (k : Around w' w'') : Around w w'' :=
  ⟨k.inflight.trans h.inflight, h.contexts.trans k.contexts⟩

end Around

variable (U : Prop) (S : Terms) (env : Env K)

/-- A change at its level, or one that the saved form of the state does not show. -/
inductive Edit : Level → Core → Core → Prop where
  | change {k c c'} : Change U S env c k c' → Edit k c c'
  | silent {k c c'} : Change U S env c k c' → (codec.save c').canon = (codec.save c).canon →
    Edit .clean c c'

structure Path (p q : Level × World K) : Prop where
  trail : Trail codec (Edit U S env) (p.1, p.2.store) (q.1, q.2.store)
  around : Around p.2 q.2

instance : Std.Refl (Path U S env) := ⟨fun p => ⟨.refl, .refl p.2⟩⟩

instance : IsTrans _ (Path U S env) :=
  ⟨fun _ _ _ h k => ⟨h.trail.trans k.trail, h.around.trans k.around⟩⟩

/-- At most the side tables are left uncommitted and, if `P` holds, nothing is. -/
structure Ended (P : Prop) (b : Level) : Prop where
  le_side : b ≤ .side
  clean : P → b = .clean

/-- The operation follows a trail. Unless it is cut off, the level at its end is as `D` says for
the value it returns, and as `Ended` says when it returns an error. -/
def Leaves {α : Type} (D : α → Level → Prop) (P : Prop) (c : Op K α) (b : Level) (w : World K) :
    Prop :=
  Settles (Path U S env) D (Ended P) c b w

def Settled (P : Prop) {α : Type} (c : Op K α) (b : Level) (w : World K) : Prop :=
  Leaves U S env (fun _ => Ended P) P c b w

def Sound (w : World K) : Prop := Everywhere codec (WellFormed U) w.store

variable {U S env} {P : Prop} {α β : Type} {D : α → Level → Prop} {b : Level} {w w' : World K}

theorem ended_clean : Ended P .clean := ⟨bot_le, fun _ => rfl⟩

theorem Ended.eq_clean (h : Ended True b) : b = .clean := h.clean trivial

theorem Edit.exists_change {k : Level} {c c' : Core} (h : Edit U S env k c c') :
    ∃ k, Change U S env c k c' := by
  cases h with
  | change h => exact ⟨_, h⟩
  | silent h => exact ⟨_, h⟩

theorem Around.path (h : Around w w') (hs : w'.store = w.store) :
    Path U S env (b, w) (b, w') := by
  refine ⟨?_, h⟩
  rw [hs]
  exact .refl

theorem Path.refl : Path U S env (b, w) (b, w) := (Around.refl w).path rfl

theorem Path.of_contexts {s : ContextStore} {n : ℕ} (hs : ContextStore.Grows w.contexts s) :
    Path U S env (b, w) (b, { w with contexts := s, tick := n }) :=
  Around.path ⟨rfl, hs⟩ rfl

theorem Path.memory (hs : w'.store = w.store) (hi : w'.sup.inflight = w.sup.inflight)
    (hc : w'.contexts = w.contexts) : Path U S env (b, w) (b, w') :=
  (Around.of_eq hi hc).path hs

theorem Path.tick {n : ℕ} : Path U S env (b, w) (b, { w with tick := n }) := .memory rfl rfl rfl

theorem Path.trans {p q r : Level × World K} (h : Path U S env p q) (k : Path U S env q r) :
    Path U S env p r :=
  IsTrans.trans p q r h k

theorem Path.edit {c : Core} {k : Level} (h : Change U S env w.sup.core k c) :
    Path U S env (b, w) (b ⊔ k, w.setCore c) :=
  ⟨.single (.edit (.change h)), .of_eq rfl rfl⟩

theorem Path.silent {c : Core} {k : Level} (h : Change U S env w.sup.core k c)
    (hs : (codec.save c).canon = (codec.save w.sup.core).canon) :
    Path U S env (b, w) (b, w.setCore c) := by
  have hm : Move codec (Edit U S env) (b, w.store) (b ⊔ ⊥, (w.setCore c).store) :=
    .edit (.silent h hs)
  rw [sup_bot_eq] at hm
  exact ⟨.single hm, .of_eq rfl rfl⟩

theorem Path.commit : Path U S env (b, w) (.clean, w.commit) :=
  ⟨.single .commit, .of_eq rfl rfl⟩

theorem Path.restore : Path U S env (b, w) (.clean, w.restore) :=
  ⟨.single .rollback, .of_eq rfl rfl⟩

theorem Path.tickCommit : Path U S env (b, w) (.clean, { w with tick := w.tick + 1 }.commit) :=
  (Path.tick (b := b)).trans .commit

theorem Path.tickRestore : Path U S env (b, w) (.clean, { w with tick := w.tick + 1 }.restore) :=
  (Path.tick (b := b)).trans .restore

/-- What every change keeps and what survives being written and read back. -/
structure Lasting (U : Prop) (S : Terms) (env : Env K) (P : Core → Prop) : Prop where
  change : ∀ k c c', Change U S env c k c' → P c → P c'
  reopen : ∀ c, P c → P (codec.reopen (codec.save c))

theorem Lasting.edit {Q : Core → Prop} (hQ : Lasting U S env Q) {k : Level} {c c' : Core}
    (h : Edit U S env k c c') (hc : Q c) : Q c' := by
  obtain ⟨j, hj⟩ := h.exists_change
  exact hQ.change j c c' hj hc

theorem Lasting.trail {Q : Core → Prop} (hQ : Lasting U S env Q) {p q : Level × Store Core State}
    (ht : Trail codec (Edit U S env) p q) (h : Everywhere codec Q p.2) : Everywhere codec Q q.2 :=
  Trail.everywhere (fun _ _ _ he => hQ.edit he) hQ.reopen ht h

theorem Lasting.path {Q : Core → Prop} (hQ : Lasting U S env Q) {p q : Level × World K}
    (hp : Path U S env p q) (h : Everywhere codec Q p.2.store) : Everywhere codec Q q.2.store :=
  hQ.trail hp.trail h

theorem wellFormed_lasting : Lasting U S env (WellFormed U) :=
  ⟨fun _ _ _ hc => hc.wellFormed, fun _ => WellFormed.reopen⟩

theorem Sound.path {p q : Level × World K} (h : Sound U p.2) (hp : Path U S env p q) :
    Sound U q.2 :=
  wellFormed_lasting.path hp h

/-! ## Endings of the primitive commands -/

section Endings
variable {Q : α → World K → Prop} {E : Err → World K → Prop} {C : World K → Prop}

@[simp] theorem ends_question {f : ℕ → α} :
    Ends (question f) w Q E C ↔ Q (f w.tick) { w with tick := w.tick + 1 } := Iff.rfl

@[simp] theorem ends_getState {Q : State → World K → Prop} :
    Ends getState w Q E C ↔ Q w.sup.core.state w := Iff.rfl

@[simp] theorem ends_editCore {Q : Unit → World K → Prop} {f : Core → Core} :
    Ends (editCore f) w Q E C ↔ Q () (w.setCore (f w.sup.core)) := Iff.rfl

theorem findApplication_ends {Q : Application → World K → Prop} {id : GoString}
    (hQ : ∀ a, w.sup.core.state.applications[id]? = some a → Q a w)
    (hE : w.sup.core.state.applications[id]? = none → E .applicationNotFound w) :
    Ends (findApplication id) w Q E C := by
  simp only [findApplication, ends_bind, ends_getState]
  cases ha : w.sup.core.state.applications[id]? with
  | none => exact hE ha
  | some a => exact hQ a ha

theorem randomBytes_ends {Q : Bytes → World K → Prop} {n : ℕ}
    (hQ : ∀ f, env.random w.tick = some f →
      Q ((List.range n).map f) { w with tick := w.tick + 1 })
    (hE : E .system { w with tick := w.tick + 1 }) : Ends (randomBytes env n) w Q E C := by
  simp only [randomBytes, ends_bind, ends_question]
  cases hr : env.random w.tick with
  | none => exact hE
  | some f => exact hQ f hr

theorem persistLocked_exact {Q : Unit → World K → Prop}
    (hQ : env.fault w.tick = .ok → Q () { w with tick := w.tick + 1 }.commit)
    (hE : env.fault w.tick = .fail → E .system { w with tick := w.tick + 1 }.restore)
    (hC : env.fault w.tick = .crash → C { w with tick := w.tick + 1 }) :
    Ends (persistLocked env) w Q E C := by
  simp only [persistLocked, ends_bind, ends_question]
  cases hfault : env.fault w.tick with
  | ok => exact hQ hfault
  | fail => exact hE hfault
  | crash => exact hC hfault

theorem persistLocked_ends {Q : Unit → World K → Prop}
    (hQ : Q () { w with tick := w.tick + 1 }.commit)
    (hE : ∀ e, E e { w with tick := w.tick + 1 }.restore) (hC : C { w with tick := w.tick + 1 }) :
    Ends (persistLocked env) w Q E C :=
  persistLocked_exact (fun _ => hQ) (fun _ => hE _) fun _ => hC

theorem contextTx_exact {f : ContextStore → Except Err (α × ContextStore)}
    (hQ : ∀ a s, env.fault w.tick = .ok → f w.contexts = .ok (a, s) →
      Q a { w with contexts := s, tick := w.tick + 1 })
    (hE : ∀ e, env.fault w.tick = .fail ∨ env.fault w.tick = .ok ∧ f w.contexts = .error e →
      E e { w with tick := w.tick + 1 })
    (hC : env.fault w.tick = .crash → C { w with tick := w.tick + 1 }) :
    Ends (contextTx env f) w Q E C := by
  simp only [contextTx, ends_bind, ends_question]
  cases hfault : env.fault w.tick with
  | ok =>
    simp only [ends_bind, ends_ask]
    cases hf : f w.contexts with
    | error e => exact hE e (.inr ⟨hfault, hf⟩)
    | ok r => exact hQ _ _ hfault hf
  | fail => exact hE _ (.inl hfault)
  | crash => exact hC hfault

theorem contextTx_ends {f : ContextStore → Except Err (α × ContextStore)}
    (hQ : ∀ a s, f w.contexts = .ok (a, s) → Q a { w with contexts := s, tick := w.tick + 1 })
    (hE : ∀ e, E e { w with tick := w.tick + 1 }) (hC : C { w with tick := w.tick + 1 }) :
    Ends (contextTx env f) w Q E C :=
  contextTx_exact (fun a s _ => hQ a s) (fun e _ => hE e) fun _ => hC

theorem kernelCall_ends {f : K → Except Err α × K}
    (hQ : ∀ a, (f w.kernel).1 = .ok a → Q a { w with kernel := (f w.kernel).2, tick := w.tick + 1 })
    (hE : ∀ e, (f w.kernel).1 = .error e →
      E e { w with kernel := (f w.kernel).2, tick := w.tick + 1 })
    (hC : C { w with tick := w.tick + 1 }) : Ends (kernelCall env f) w Q E C := by
  simp only [kernelCall, ends_bind, ends_question]
  cases env.fault w.tick with
  | ok | fail =>
    simp only [ends_bind, ends_ask, ends_modify]
    cases hf : (f w.kernel).1 with
    | error e => exact hE _ hf
    | ok a => exact hQ _ hf
  | crash => exact hC

end Endings

/-! ## Rules -/

theorem Leaves.note {a : α} (h : D a b) : Leaves U S env D P (Pure.pure a : Op K α) b w :=
  Settles.pure h

theorem Leaves.pure {a : α} : Settled U S env P (Pure.pure a : Op K α) .clean w :=
  Leaves.note ended_clean

theorem Leaves.fail {e : Err} : Leaves U S env D P (Command.fail e : Op K α) .clean w :=
  Settles.fail ended_clean

theorem Leaves.fail_unless {e : Err} (hb : b ≤ .side) (h : ¬ P) :
    Leaves U S env D P (Command.fail e : Op K α) b w :=
  Settles.fail ⟨hb, fun hP => absurd hP h⟩

theorem Leaves.halt : Leaves U S env D P (Command.halt : Op K α) b w := Settles.halt

theorem Leaves.ask {f : World K → β} {k : β → Op K α} (h : Leaves U S env D P (k (f w)) b w) :
    Leaves U S env D P (Command.ask f >>= k) b w := h

theorem Leaves.call {c : Op K β} {k : β → Op K α}
    (h : Ends c w (fun a w' => ∃ b', Path U S env (b, w) (b', w') ∧ Leaves U S env D P (k a) b' w')
      (fun _ w' => Path U S env (b, w) (.clean, w'))
      (fun w' => ∃ b', Path U S env (b, w) (b', w'))) : Leaves U S env D P (c >>= k) b w :=
  Settles.of_ends (h.mono (fun _ _ h => h) (fun _ _ h => ⟨.clean, ended_clean, h⟩) fun _ h => h)

theorem Leaves.fallible {c : Op K β} {k : β → Op K α} (hc : P → ∀ e, (c w).1 ≠ .error e)
    (h : Ends c w (fun a w' => ∃ b', Path U S env (b, w) (b', w') ∧ Leaves U S env D P (k a) b' w')
      (fun _ w' => ∃ b' ≤ .side, Path U S env (b, w) (b', w'))
      (fun w' => ∃ b', Path U S env (b, w) (b', w'))) : Leaves U S env D P (c >>= k) b w := by
  refine Settles.of_ends (h.and_result.mono (fun _ _ h => h.1) ?_ fun _ h => h)
  rintro e w' ⟨⟨b', hb', hp⟩, he⟩
  exact ⟨b', ⟨hb', fun hP => absurd he (hc hP e)⟩, hp⟩

theorem Leaves.seq {c : Op K β} {k : β → Op K α} {D' : β → Level → Prop}
    (hc : Leaves U S env D' P c b w)
    (hk : ∀ a b' w', D' a b' → Path U S env (b, w) (b', w') → Leaves U S env D P (k a) b' w') :
    Leaves U S env D P (c >>= k) b w :=
  Settles.of_ends (hc.mono (fun a w' ⟨b', hd, hp⟩ => ⟨b', hp, hk a b' w' hd hp⟩) (fun _ _ h => h)
    fun _ h => h)

theorem Leaves.bind {c : Op K β} {k : β → Op K α} {D' : β → Level → Prop}
    (hc : Leaves U S env D' True c b w)
    (hk : ∀ a b' w', D' a b' → Path U S env (b, w) (b', w') → Leaves U S env D P (k a) b' w') :
    Leaves U S env D P (c >>= k) b w :=
  Leaves.seq (hc.mono (fun _ _ h => h) (fun _ _ ⟨b', hf, hp⟩ => ⟨b', ⟨hf.le_side, fun _ => hf.eq_clean⟩, hp⟩)
    fun _ h => h) hk

theorem Leaves.attempt {c : Op K β} {k : Except Err β → Op K α}
    {D' : β → Level → Prop} (hc : Leaves U S env D' True c b w)
    (hok : ∀ a b' w', D' a b' → Path U S env (b, w) (b', w') →
      Leaves U S env D P (k (.ok a)) b' w')
    (herr : ∀ e w', Path U S env (b, w) (.clean, w') → Leaves U S env D P (k (.error e)) .clean w') :
    Leaves U S env D P (attempt c >>= k) b w := by
  refine Settles.of_ends (ends_attempt.mpr (hc.mono ?_ ?_ fun _ h => h))
  · rintro a w' ⟨b', hd, hp⟩
    exact ⟨b', hp, hok a b' w' hd hp⟩
  · rintro e w' ⟨b', hf, hp⟩
    cases hf.eq_clean
    exact ⟨.clean, hp, herr e w' hp⟩

theorem Leaves.require {p : Prop} [Decidable p] {e : Err} {k : Unit → Op K α}
    (h : p → Leaves U S env D P (k ()) .clean w) :
    Leaves U S env D P (Command.require p e >>= k) .clean w := by
  exact Leaves.call (ends_require.mpr ⟨fun hp => ⟨.clean, .refl, h hp⟩, fun _ => .refl⟩)

theorem Leaves.require_last {p : Prop} [Decidable p] {e : Err} :
    Settled U S env P (Command.require p e) .clean w :=
  ends_require.mpr ⟨fun _ => ⟨.clean, ended_clean, .refl⟩, fun _ => ⟨.clean, ended_clean, .refl⟩⟩

theorem Leaves.quiet {f : World K → World K} {k : Unit → Op K α} (ha : Around w (f w))
    (hs : (f w).store = w.store) (h : Leaves U S env D P (k ()) b (f w)) :
    Leaves U S env D P (modify f >>= k) b w :=
  Leaves.call (ends_modify.mpr ⟨b, ha.path hs, h⟩)

theorem Leaves.memory {f : Supervisor → Supervisor} {k : Unit → Op K α}
    (hc : (f w.sup).core = w.sup.core) (hs : (f w.sup).committed = w.sup.committed)
    (hi : (f w.sup).inflight = w.sup.inflight)
    (h : Leaves U S env D P (k ()) b { w with sup := f w.sup }) :
    Leaves U S env D P (editSupervisor f >>= k) b w := by
  refine Leaves.call (ends_modify.mpr ⟨b, .memory ?_ hi rfl, h⟩)
  simp only [World.store, hc, hs]

theorem Leaves.question {f : ℕ → β} {k : β → Op K α}
    (h : Leaves U S env D P (k (f w.tick)) b { w with tick := w.tick + 1 }) :
    Leaves U S env D P (Runtime.question f >>= k) b w :=
  Leaves.call (c := Runtime.question f) ⟨b, .tick, h⟩

theorem Leaves.now {k : ℤ → Op K α} (h : ∀ t n, Leaves U S env D P (k t) b { w with tick := n }) :
    Leaves U S env D P (Runtime.now env >>= k) b w :=
  Leaves.question (h _ _)

theorem Leaves.edit {f : Core → Core} {k : Unit → Op K α} {j : Level}
    (hc : Change U S env w.sup.core j (f w.sup.core))
    (h : Leaves U S env D P (k ()) (b ⊔ j) (w.setCore (f w.sup.core))) :
    Leaves U S env D P (editCore f >>= k) b w :=
  Leaves.call (ends_modify.mpr ⟨b ⊔ j, .edit hc, h⟩)

theorem Leaves.editState {f : State → State} {k : Unit → Op K α} {j : Level}
    (hc : Change U S env w.sup.core j (w.sup.core.withState f))
    (h : Leaves U S env D P (k ()) (b ⊔ j) (w.setCore (w.sup.core.withState f))) :
    Leaves U S env D P (Runtime.editState f >>= k) b w :=
  Leaves.edit hc h

theorem Leaves.persist {k : Unit → Op K α}
    (h : ∀ n, Leaves U S env D P (k ()) .clean { w with tick := n }.commit) :
    Leaves U S env D P (persistLocked env >>= k) b w :=
  Leaves.call (persistLocked_ends ⟨.clean, .tickCommit, h _⟩ (fun _ => .tickRestore)
    ⟨b, .tick⟩)

theorem Leaves.persist_last : Settled U S env P (persistLocked env) b w :=
  persistLocked_ends ⟨.clean, ended_clean, .tickCommit⟩ (fun _ => ⟨.clean, ended_clean, .tickRestore⟩)
    ⟨b, .tick⟩

theorem Leaves.ignorePersist_last : Settled U S env P (ignoreError (persistLocked env)) b w := by
  refine Leaves.attempt Leaves.persist_last (fun _ b' _ hb' _ => ?_) fun _ _ _ => Leaves.pure
  cases hb'.eq_clean
  exact Leaves.pure

theorem Leaves.ignorePersist {k : Unit → Op K α} (h : ∀ w', Leaves U S env D P (k ()) .clean w') :
    Leaves U S env D P (ignoreError (persistLocked env) >>= k) b w := by
  refine Leaves.bind Leaves.ignorePersist_last fun _ b' w' hb' _ => ?_
  cases hb'.eq_clean
  exact h w'

theorem Leaves.restore {k : Unit → Op K α} (h : Leaves U S env D P (k ()) .clean w.restore) :
    Leaves U S env D P (restoreLocked >>= k) b w :=
  Leaves.call (ends_modify.mpr ⟨.clean, .restore, h⟩)

theorem Leaves.findApplication {id : GoString} {k : Application → Op K α}
    (h : ∀ a, w.sup.core.state.applications[id]? = some a → Leaves U S env D P (k a) .clean w) :
    Leaves U S env D P (Runtime.findApplication id >>= k) .clean w :=
  Leaves.call (findApplication_ends (fun a ha => ⟨.clean, .refl, h a ha⟩) fun _ => .refl)

theorem Leaves.audit {principal applicationID action object decision reason : GoString}
    {k : Unit → Op K α} (hr : ClearRecord U principal applicationID action object decision reason)
    (h : ∀ t n, Leaves U S env D P (k ()) (b ⊔ .side) ({ w with tick := n }.setCore (w.sup.core.audit
      env.sha256 t principal applicationID action object decision reason))) :
    Leaves U S env D P
      (auditLocked env principal applicationID action object decision reason >>= k) b w := by
  refine Leaves.call ?_
  unfold auditLocked Runtime.now
  rw [ends_bind]
  have ht : Path U S env (b, w) (b, { w with tick := w.tick + 1 }) := .tick
  exact ⟨b ⊔ .side, ht.trans (Path.edit (.audit _ hr)), h _ _⟩

theorem Leaves.contextTx {f : ContextStore → Except Err (β × ContextStore)} {k : β → Op K α}
    (hf : ∀ a s, f w.contexts = .ok (a, s) → ContextStore.Grows w.contexts s)
    (h : ∀ a s n, Leaves U S env D P (k a) .clean { w with contexts := s, tick := n }) :
    Leaves U S env D P (Runtime.contextTx env f >>= k) .clean w :=
  Leaves.call (contextTx_ends
    (fun a s hs => ⟨.clean, .of_contexts (hf a s hs), h _ _ _⟩)
    (fun _ => .tick) ⟨.clean, .tick⟩)

theorem Leaves.kernelCall {f : K → Except Err β × K} {k : β → Op K α}
    (h : ∀ a x n, (f w.kernel).1 = .ok a →
      Leaves U S env D P (k a) .clean { w with kernel := x, tick := n }) :
    Leaves U S env D P (Runtime.kernelCall env f >>= k) .clean w :=
  Leaves.call (kernelCall_ends (fun a ha => ⟨.clean, .memory rfl rfl rfl, h a _ _ ha⟩)
    (fun _ _ => .memory rfl rfl rfl) ⟨.clean, .tick⟩)

end Aok.Runtime
