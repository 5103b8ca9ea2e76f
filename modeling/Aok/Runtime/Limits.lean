import Aok.Runtime.Agreement

/-!
# Token limits

An application that serves is below its limit: a turn that reaches it freezes the
application in the commit that charges it, and neither a new limit nor a new state takes an
application that has reached its limit back to serving. Usage only grows and a limit only
narrows.
-/

namespace Aok.Runtime
open Lib Lib.Utf8 Lib.JsonText Lib.JsonValue Lib.Command Lib.Journal Sample

variable {K : Type} {U P : Prop} {S : Terms} {env : Env K} {c c' : Core} {k : Level}
  {id : GoString}

def ServesWithin (c : Core) : Prop :=
  Each (fun _ a => a.state = .serving → a.IsWithin) c.state.applications

theorem Change.servesWithin (h : Change U S env c k c') (hs : ServesWithin c) :
    ServesWithin c' := by
  intro id a' ha'
  rcases h.application_from ha' with ⟨a, ha, hmove⟩ | ⟨-, hnew⟩
  · cases hmove with
    | same => exact hs id _ ha
    | step hstep => exact hstep.serving (hs id a ha)
    | settle t ht => exact ht.serving
  · exact fun _ => .inl hnew.tokenLimit

theorem servesWithin_lasting : Lasting U S env ServesWithin where
  change := fun _ _ _ h => h.servesWithin
  reopen := fun _ h => Each.image h fun _ _ ha => ha

theorem servesWithin_empty : ServesWithin (codec.reopen State.empty) := each_empty

theorem claimTurn_serving {w : World K} (hs : Sound U w) {m : MailboxMessage}
    (h : (claimTurn env w).1 = .ok (some (id, m))) :
    ∃ a, w.sup.core.state.applications[id]? = some a ∧ a.state = .serving := by
  have hends : Ends (claimTurn env) w (fun r _ => ∀ i m, r = some (i, m) →
      ∃ a, w.sup.core.state.applications[i]? = some a ∧ a.state = .serving)
      (fun _ _ => True) fun _ => True := by
    refine claimTurn_ends (S := .all False) hs trivial (fun _ _ _ => trivial) (fun _ _ => by simp) ?_
      (fun _ _ _ => trivial) fun _ _ _ => trivial
    intro i m t w' _ hchosen _ j n hr
    cases hr
    exact hchosen.serving
  exact hends.value h id m rfl

/-! ## Usage grows and limits narrow -/

/-- The application has used at least `n`, and its limit, if `limit` is one, is no wider. -/
def IsHeld (id : GoString) (n limit : UInt64) (c : Core) : Prop :=
  ∃ a, c.state.applications[id]? = some a ∧ n ≤ a.tokensUsed ∧
    (limit ≠ 0 → a.tokenLimit ≠ 0 ∧ a.tokenLimit ≤ limit)

theorem le_saturatingAdd (a b : UInt64) : a ≤ saturatingAdd a b := by
  have ha := a.toNat_lt
  have hb := b.toNat_lt
  unfold saturatingAdd
  split_ifs with h
  · exact UInt64.le_iff_toNat_le.mpr (Nat.le_of_lt_succ ha)
  · have hmax : maxUint64.toNat = 2 ^ 64 - 1 := rfl
    rw [UInt64.le_iff_toNat_le, UInt64.toNat_add]
    omega

theorem Change.isHeld {n limit : UInt64} (h : Change U S env c k c') (hc : IsHeld id n limit c) :
    IsHeld id n limit c' := by
  obtain ⟨a, ha, hused, hlimit⟩ := hc
  obtain ⟨a', ha', hmove⟩ := h.application_to ha
  cases hmove with
  | same => exact ⟨a, ha', hused, hlimit⟩
  | step hs =>
    refine ⟨a', ha', hs.tokensUsed.symm ▸ hused, fun h0 => ?_⟩
    obtain ⟨hne, hle⟩ := hs.narrows (hlimit h0).1
    exact ⟨hne, UInt64.le_trans hle (hlimit h0).2⟩
  | settle t ht =>
    refine ⟨t.application, ha', ?_, ht.tokenLimit.symm ▸ hlimit⟩
    rw [ht.tokensUsed]
    exact UInt64.le_trans hused (le_saturatingAdd _ _)

theorem isHeld_reopen_iff {n limit : UInt64} (hw : WellFormed U c) :
    IsHeld id n limit (codec.reopen (codec.save c)) ↔ IsHeld id n limit c := by
  have hget : (codec.reopen (codec.save c)).state.applications[id]? =
      (c.state.applications[id]?).map Application.image := hw.get_save_application id
  simp only [IsHeld, hget]
  cases c.state.applications[id]? with
  | none => simp
  | some a => simp [Application.image]

theorem isHeld_manifest {n limit : UInt64} : Manifest U S env (IsHeld id n limit) :=
  ⟨fun _ _ _ _ hc => hc.isHeld, fun _ => isHeld_reopen_iff⟩

def System.Shows (s : System K) (id : GoString) (a : Application) : Prop :=
  s.world.db.applications[id]? = some a ∨
    s.up = true ∧ s.world.sup.core.state.applications[id]? = some a

end Aok.Runtime
