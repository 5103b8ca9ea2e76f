import Aok.Runtime.Runs

/-!
# Retired applications stay retired

A turn that was claimed before its application was retired can finish afterwards.
`finishTurn` freezes an application that reaches its token limit before it looks at the
tombstone, so such a turn brings a retired application back. Where no turn of a retired
application reaches the limit, a committed tombstone stays.
-/

namespace Aok.Runtime
open Lib Lib.Utf8 Lib.JsonText Lib.JsonValue Lib.Command Lib.Journal Sample

variable {K : Type} {U P : Prop} {S : Terms} {env : Env K} {c c' : Core} {id : GoString}

def IsTombstoned (id : GoString) (c : Core) : Prop :=
  ∃ a, c.state.applications[id]? = some a ∧ a.state = .tombstoned

theorem Change.isTombstoned {k : Level} (hS : S.spares) (h : Change U S env c k c')
    (ht : IsTombstoned id c) : IsTombstoned id c' := by
  obtain ⟨a, ha, hdead⟩ := ht
  obtain ⟨a', ha', hmove⟩ := h.application_to ha
  cases hmove with
  | same => exact ⟨a, ha', hdead⟩
  | step hs => exact ⟨a', ha', hs.tombstoned hdead⟩
  | settle t hs => exact ⟨t.application, ha', hs.tombstoned hS hdead⟩

theorem isTombstoned_reopen_iff (hw : WellFormed U c) :
    IsTombstoned id (codec.reopen (codec.save c)) ↔ IsTombstoned id c := by
  have hget : (codec.reopen (codec.save c)).state.applications[id]? =
      (c.state.applications[id]?).map Application.image := hw.get_save_application id
  simp only [IsTombstoned, hget]
  cases c.state.applications[id]? with
  | none => simp
  | some a => simp [Application.image]

theorem isTombstoned_manifest (hS : S.spares) : Manifest U S env (IsTombstoned id) :=
  ⟨fun _ _ _ _ hc => hc.isTombstoned hS, fun _ => isTombstoned_reopen_iff⟩

instance : Decidable (IsTombstoned id c) :=
  decidable_of_iff (∃ a ∈ c.state.applications[id]?, a.state = .tombstoned) Iff.rfl

end Aok.Runtime
