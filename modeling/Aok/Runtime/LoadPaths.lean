import Aok.Runtime.Load
import Aok.Runtime.TurnPaths
import Aok.Runtime.WakePaths

/-!
# What start-up keeps

A condition on the state that every change keeps and that survives being written and
read back holds after `load` if it holds of the row on disk, whether `load` succeeds or
not.
-/

namespace Aok.Runtime
open Lib Lib.Utf8 Lib.JsonText Lib.JsonValue Lib.Command Lib.Journal

variable {K : Type} {U : Prop} {S : Terms} {env : Env K} {b : Level} {w : World K} {id : GoString}
variable {k : Unit → Op K Unit} {w₀ : World K}

def Follows (U : Prop) (S : Terms) (env : Env K) (c : Op K Unit) (b : Level) (w : World K) : Prop :=
  Settles (Path U S env) (fun _ _ => True) (fun _ => True) c b w

theorem Follows.pure : Follows U S env (Pure.pure ()) b w := Settles.pure trivial

theorem Follows.ask {β : Type} {f : World K → β} {k : β → Op K Unit}
    (h : Follows U S env (k (f w)) b w) : Follows U S env (Command.ask f >>= k) b w := h

theorem Follows.seq {c : Op K Unit} (hc : Follows U S env c b w)
    (hk : ∀ b' w', Path U S env (b, w) (b', w') → Follows U S env (k ()) b' w') :
    Follows U S env (c >>= k) b w :=
  Settles.of_ends (hc.mono (fun _ w' ⟨b', _, hp⟩ => ⟨b', hp, hk b' w' hp⟩) (fun _ _ h => h)
    fun _ h => h)

theorem Follows.forEach {f : GoString → Op K Unit}
    (hf : ∀ id b w, Sound U w → Follows U S env (f id) b w) (ids : List GoString) (hs : Sound U w) :
    Follows U S env (forEach f ids) b w := by
  induction ids generalizing b w with
  | nil => exact .pure
  | cons id ids ih => exact Follows.seq (hf id b w hs) fun _ _ hp => ih (hs.path hp)

theorem Follows.edit {f : Core → Core} {j : Level}
    (hc : Change U S env w.sup.core j (f w.sup.core)) : Follows U S env (editCore f) b w :=
  ⟨b ⊔ j, trivial, .edit hc⟩

theorem Follows.editState {f : State → State} {j : Level}
    (hc : Change U S env w.sup.core j (w.sup.core.withState f)) :
    Follows U S env (Runtime.editState f) b w :=
  Follows.edit hc

theorem Follows.keys {α : Type} {t : State → Table GoString α} {f : GoString → Op K Unit}
    (hf : ∀ id b w, Sound U w → Follows U S env (f id) b w) (hs : Sound U w) :
    Follows U S env (do
      let s ← getState
      let ids ← mapKeys env (t s)
      Runtime.forEach f ids) b w :=
  Settles.of_ends (c := getState) ⟨b, .refl, Settles.of_ends (c := mapKeys env (t _))
    ⟨b, .tick, Follows.forEach hf _ hs⟩⟩

theorem Follows.require {p : Prop} [Decidable p] {e : Err}
    (h : Follows U S env (k ()) b w) : Follows U S env (Command.require p e >>= k) b w :=
  Settles.of_ends (ends_require.mpr ⟨fun _ => ⟨b, .refl, h⟩, fun _ => ⟨b, trivial, .refl⟩⟩)

theorem Follows.audit {principal applicationID action object decision reason : GoString}
    (hr : ClearRecord U principal applicationID action object decision reason) :
    Follows U S env (auditLocked env principal applicationID action object decision reason) b w := by
  have ht : Path U S env (b, w) (b, { w with tick := w.tick + 1 }) := .tick
  exact ⟨b ⊔ .side, trivial, ht.trans (.edit (.audit _ hr))⟩

theorem fillKernelID_follows : Follows U S env (fillKernelID id) b w := by
  refine Follows.ask ?_
  split
  · exact .pure
  next a ha =>
  split
  next hzero =>
    have hcount : Change U S env w.sup.core .side
        (w.sup.core.withState fun s => { s with nextKernelID := s.nextKernelID + 1 }) :=
      .side ⟨rfl, rfl, rfl, rfl, rfl, rfl, rfl, le_rfl, Nat.le_succ _,
        fun h => h, .inr rfl, .inr rfl, .inr rfl, .inr rfl⟩ fun h => { h with }
    refine Settles.of_ends ⟨_, .edit hcount, Follows.editState (.application id _ fun x hx => ?_)⟩
    obtain rfl := Option.some.inj (ha.symm.trans hx)
    exact .of_eq rfl rfl rfl rfl UInt64.or_self (.inr rfl) ⟨rfl, rfl, .inr hzero⟩
  · exact .pure

structure Terms.Restarts (S : Terms) : Prop where
  reclaims : S.moves .claimed .pending
  expires : S.Expires

theorem MsgStep.reclaim (hmove : S.moves .claimed .pending) (m : MailboxMessage) :
    MsgStep S m m.reclaim := by
  unfold MailboxMessage.reclaim
  split_ifs with h
  · exact .withStatus (fun _ => by simp [h, MsgStatus.isCharged]) (.inr (h ▸ hmove))
  · exact .refl m

theorem recoverMailbox_follows (hr : S.Restarts) : Follows U S env (recoverMailbox id) b w := by
  refine Follows.ask ?_
  split
  · exact .editState (.messages id _ fun ms _ => forall₂_map (MsgStep.expire hr.expires) ms)
  · exact .editState (.messages id _ fun ms _ => forall₂_map (MsgStep.reclaim hr.reclaims) ms)

theorem recoverApplication_follows (hs : Sound U w) :
    Follows U S env (recoverApplication env id) b w := by
  refine Follows.ask ?_
  split
  · exact .pure
  next a ha =>
    split
    · exact .pure
    have hid := hs.clear_id ha
    refine .require (.seq (.editState (.application id _ fun x _ =>
      .of_eq rfl rfl rfl rfl UInt64.or_self (.inr rfl) ⟨rfl, rfl, .inl rfl⟩)) fun _ _ _ => .audit ?_)
    exact ⟨clear_lit _, hid, clear_lit _, hid, clear_lit _, clear_lit _⟩

theorem fillKernelIDs_follows (hs : Sound U w) : Follows U S env (fillKernelIDs env) b w :=
  .keys (fun _ _ _ _ => fillKernelID_follows) hs

theorem recoverMailboxes_follows (hr : S.Restarts) (hs : Sound U w) :
    Follows U S env (recoverMailboxes env) b w :=
  .keys (fun _ _ _ _ => recoverMailbox_follows hr) hs

theorem recoverApplications_follows (hs : Sound U w) :
    Follows U S env (recoverApplications env) b w :=
  .keys (fun _ _ _ hs => recoverApplication_follows hs) hs

/-- Start-up in `w₀` has come to a world in which what lasts and held of the row on disk holds. -/
structure Keeps (U : Prop) (S : Terms) (env : Env K) (w₀ w : World K) : Prop where
  lasting : ∀ Q, Lasting U S env Q → Q (codec.reopen w₀.db) → Everywhere codec Q w.store
  disk : (∃ c, codec.save c = w₀.db) → ∃ c, codec.save c = w.db
  around : Around w₀.reopened w

theorem Keeps.path {p q : Level × World K} (h : Keeps U S env w₀ p.2)
    (hp : Path U S env p q) : Keeps U S env w₀ q.2 := by
  refine ⟨fun Q hQ hd => hQ.path hp (h.lasting Q hQ hd), fun hd => ?_, h.around.trans hp.around⟩
  rcases hp.trail.disk with heq | hsaved
  · obtain ⟨c, hc⟩ := h.disk hd
    exact ⟨c, hc.trans heq.symm⟩
  · exact hsaved

theorem Keeps.resaved (h : Keeps U S env w₀ w) : Keeps U S env w₀ w.resaved :=
  ⟨fun Q hQ hd => ⟨(h.lasting Q hQ hd).live, hQ.reopen _ (h.lasting Q hQ hd).live,
    (h.lasting Q hQ hd).disk⟩, h.disk, h.around.trans (.of_eq rfl rfl)⟩

theorem keeps_reopened : Keeps U S env w w.reopened :=
  ⟨fun _ _ hd => ⟨hd, hd, hd⟩, fun h => h, .refl _⟩

theorem Keeps.sound (h : Keeps U S env w₀ w) (hd : WellFormed U (codec.reopen w₀.db)) :
    Sound U w :=
  h.lasting _ wellFormed_lasting hd

theorem Keeps.bind {c : Op K Unit} {Q : World K → Prop}
    (h : Keeps U S env w₀ w) (hc : Follows U S env c .main w)
    (hk : ∀ w', Keeps U S env w₀ w' →
      Ends (k ()) w' (fun _ w => Keeps U S env w₀ w ∧ Q w) (fun _ => Keeps U S env w₀)
        (Keeps U S env w₀)) :
    Ends (c >>= k) w (fun _ w => Keeps U S env w₀ w ∧ Q w) (fun _ => Keeps U S env w₀)
      (Keeps U S env w₀) :=
  ends_bind.mpr (hc.mono (fun _ w' ⟨_, _, hp⟩ => hk w' (h.path hp))
    (fun _ _ ⟨_, _, hp⟩ => h.path hp) fun _ ⟨_, hp⟩ => h.path hp)

theorem load_ends (hd : WellFormed U (codec.reopen w.db)) (hr : S.Restarts) :
    Ends (load env) w
      (fun _ w' => Keeps U S env w w' ∧ ∃ c, w'.store = ⟨c, codec.save c, codec.save c⟩)
      (fun _ => Keeps U S env w) (Keeps U S env w) := by
  have h₀ : Keeps U S env w w.reopened := keeps_reopened
  refine ends_bind.mpr (ends_modify.mpr ?_)
  refine h₀.bind (fillKernelIDs_follows (h₀.sound hd)) fun w₁ h₁ => ?_
  refine ends_bind.mpr (ends_getState.mpr (ends_bind.mpr (ends_require.mpr ⟨fun _ => ?_, fun _ => h₁⟩)))
  have h₂ := h₁.resaved
  refine ends_bind.mpr (ends_modify.mpr ?_)
  refine h₂.bind (recoverMailboxes_follows hr (h₂.sound hd)) fun w₃ h₃ => ?_
  refine h₃.bind (recoverApplications_follows (h₃.sound hd)) fun w₄ h₄ => ?_
  exact persistLocked_ends ⟨h₄.path (p := (.main, w₄)) .tickCommit, _, rfl⟩
    (fun e => h₄.path (p := (.main, w₄)) .tickRestore)
    (h₄.path (p := (.main, w₄)) .tick)

end Aok.Runtime
