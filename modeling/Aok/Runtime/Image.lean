import Aok.Runtime.Changes

/-!
# Images

Lookups in the image of a table, and that taking the image twice is taking it once: a
state that was read back from disk is written back unchanged.
-/

namespace Aok.Runtime
open Lib Lib.Utf8 Lib.JsonText Lib.JsonValue Lib.Journal

section Tables
variable {α : Type} {f : α → α} {t : Table GoString α} {k : GoString} {v : α}

theorem get_updateTable (f : α → α) (k a : GoString) (t : Table GoString α) :
    (updateTable f k t)[a]? = if k = a then (t[a]?).map f else t[a]? := by
  unfold updateTable
  by_cases ha : k = a
  · subst ha
    cases h : t[k]? <;> simp [h]
  · cases h : t[k]? <;> simp [Table.get_insert, ha]

theorem get_imageTable (h : (imageTable f t)[k]? = some v) :
    ∃ a u, sanitize a = k ∧ t[a]? = some u ∧ f u = v := by
  rw [imageTable, Std.ExtTreeMap.getElem?_map, Option.map_eq_some_iff] at h
  obtain ⟨u, hu, rfl⟩ := h
  obtain ⟨a, ha, hau⟩ := Table.get_rekey hu
  exact ⟨a, u, ha, hau, rfl⟩

theorem Each.image {P Q : GoString → α → Prop} (h : Each P t)
    (hf : ∀ k v, P k v → Q (sanitize k) (f v)) : Each Q (imageTable f t) := by
  intro k v hv
  obtain ⟨a, u, rfl, hu, rfl⟩ := get_imageTable hv
  exact hf a u (h a u hu)

theorem imageTable_of_valid (h : Each (fun k _ => valid k = true) t) :
    imageTable f t = t.map fun _ v => f v := by
  rw [imageTable, Table.rekey_eq_self fun k v hv => sanitize_of_valid (h k v hv)]

theorem get_imageTable_of_valid (h : Each (fun k _ => valid k = true) t) (k : GoString) :
    (imageTable f t)[k]? = (t[k]?).map f := by
  rw [imageTable_of_valid h, Std.ExtTreeMap.getElem?_map]

theorem imageTable_imageTable (hf : ∀ v, f (f v) = f v) (t : Table GoString α) :
    imageTable f (imageTable f t) = imageTable f t := by
  have hv : Each (fun k _ => valid k = true) (imageTable f t) :=
    Each.image (fun _ _ _ => trivial : Each (fun _ _ => True) t) fun k _ _ => valid_sanitize k
  apply Std.ExtTreeMap.ext_getElem?
  intro k
  rw [get_imageTable_of_valid hv]
  cases h : (imageTable f t)[k]? with
  | none => rfl
  | some v =>
    obtain ⟨a, u, -, -, rfl⟩ := get_imageTable h
    simp [hf]

theorem map_get_of_imageTable_eq (hf : ∀ v, f (f v) = f v) (h : imageTable f t = t) (k : GoString) :
    (t[k]?).map f = t[k]? := by
  cases hk : t[k]? with
  | none => rfl
  | some v =>
    obtain ⟨a, u, -, -, rfl⟩ := get_imageTable (h ▸ hk)
    simp [hf]

end Tables

theorem map_image_image {α : Type} {f : α → α} (hf : ∀ v, f (f v) = f v) (l : List α) :
    (l.map f).map f = l.map f := by
  simp [Function.comp_def, hf]

@[simp] theorem Application.image_image (a : Application) : a.image.image = a.image := by
  simp [Application.image, RoutePolicy.image]

@[simp] theorem MailboxMessage.image_image (m : MailboxMessage) : m.image.image = m.image := by
  simp [MailboxMessage.image]

@[simp] theorem AuditRecord.image_image (r : AuditRecord) : r.image.image = r.image := by
  simp [AuditRecord.image]

@[simp] theorem TurnResult.image_image (r : TurnResult) : r.image.image = r.image := by
  simp [TurnResult.image]

@[simp] theorem ApplicationTimer.image_image (t : ApplicationTimer) : t.image.image = t.image := by
  simp [ApplicationTimer.image]

@[simp] theorem WakeBinding.image_image (b : WakeBinding) : b.image.image = b.image := by
  simp [WakeBinding.image]

@[simp] theorem KernelEvent.image_image (e : KernelEvent) : e.image.image = e.image := by
  simp [KernelEvent.image]

@[simp] theorem RouteRecord.image_image (r : RouteRecord) : r.image.image = r.image := by
  simp [RouteRecord.image]

@[simp] theorem RevokedToken.image_image (t : RevokedToken) : t.image.image = t.image := by
  simp [RevokedToken.image]

@[simp] theorem ConfirmationRequest.image_image (r : ConfirmationRequest) :
    r.image.image = r.image := by
  simp [ConfirmationRequest.image]

@[simp] theorem WitnessCheckpoint.image_image (c : WitnessCheckpoint) : c.image.image = c.image := by
  simp [WitnessCheckpoint.image]

@[simp] theorem MessageChannel.image_image (c : MessageChannel) : c.image.image = c.image := by
  simp [MessageChannel.image]

@[simp] theorem MessageConversation.image_image (c : MessageConversation) :
    c.image.image = c.image := by
  simp [MessageConversation.image]

@[simp] theorem OutboxEntry.image_image (e : OutboxEntry) : e.image.image = e.image := by
  simp [OutboxEntry.image]

@[simp] theorem HostfsMount.image_image (m : HostfsMount) : m.image.image = m.image := by
  simp [HostfsMount.image]

@[simp] theorem ArtifactTransfer.image_image (t : ArtifactTransfer) : t.image.image = t.image := by
  simp [ArtifactTransfer.image]

@[simp] theorem State.image_image (s : State) : s.image.image = s.image := by
  have hm : ∀ l : List MailboxMessage, (l.map MailboxMessage.image).map MailboxMessage.image =
      l.map MailboxMessage.image := map_image_image MailboxMessage.image_image
  have hk : ∀ l : List KernelEvent, (l.map KernelEvent.image).map KernelEvent.image =
      l.map KernelEvent.image := map_image_image KernelEvent.image_image
  apply State.ext <;> simp only [State.image]
  · exact imageTable_imageTable Application.image_image _
  · exact imageTable_imageTable hm _
  · exact map_image_image AuditRecord.image_image _
  · exact imageTable_imageTable TurnResult.image_image _
  · exact imageTable_imageTable TurnResult.image_image _
  · exact imageTable_imageTable ApplicationTimer.image_image _
  · exact imageTable_imageTable WakeBinding.image_image _
  · exact imageTable_imageTable hk _
  · exact map_image_image RouteRecord.image_image _
  · exact map_image_image RevokedToken.image_image _
  · exact imageTable_imageTable ConfirmationRequest.image_image _
  · exact map_image_image WitnessCheckpoint.image_image _
  · exact imageTable_imageTable MessageChannel.image_image _
  · exact imageTable_imageTable MessageConversation.image_image _
  · exact map_image_image OutboxEntry.image_image _
  · exact imageTable_imageTable HostfsMount.image_image _
  · exact map_image_image ArtifactTransfer.image_image _

@[simp] theorem save_reopen_save (c : Core) :
    codec.save (codec.reopen (codec.save c)) = codec.save c :=
  State.image_image c.state

end Aok.Runtime
