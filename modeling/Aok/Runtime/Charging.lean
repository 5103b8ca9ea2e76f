import Aok.Runtime.Runs

/-!
# Turns are charged once

A turn is charged to its application in the commit that stores its result. The usage of
an application is therefore the saturating sum over its results, through every crash,
rollback and replay.
-/

namespace Aok.Runtime
open Lib Lib.Utf8 Lib.JsonText Lib.JsonValue Lib.Command Lib.Journal Sample Table TurnResult

variable {K : Type} {U P : Prop} {S : Terms} {env : Env K} {c c' : Core} {k : Level}

theorem toNat_saturatingAdd (a b : UInt64) :
    (saturatingAdd a b).toNat = min maxUint64.toNat (a.toNat + b.toNat) := by
  have ha := a.toNat_lt
  have hb := b.toNat_lt
  have hmax : maxUint64.toNat = 2 ^ 64 - 1 := rfl
  unfold saturatingAdd
  split_ifs with h
  · omega
  · rw [UInt64.toNat_add]
    omega

def TurnResult.tokens (r : TurnResult) : ℕ :=
  r.usage.inputTokens.toNat + r.usage.outputTokens.toNat

def State.charges (s : State) (id : GoString) : ℕ :=
  s.results.total fun _ r => if r.applicationID = id then r.tokens else 0

/-- Every message has at most one result, no settled message is still prepared, and every
application has used what its results say. -/
structure Accounted (c : Core) : Prop where
  keyed : Each (fun messageID r => r.messageID = messageID) c.state.results
  staged : ∀ messageID : GoString, (c.state.results[messageID]?).isSome →
    c.state.prepared[messageID]? = none
  charged : Each (fun id a => a.tokensUsed.toNat = min maxUint64.toNat (c.state.charges id))
    c.state.applications

theorem charges_of_not_knows (hn : Named U c) {id : GoString} (h : ¬ c.state.Knows id) :
    c.state.charges id = 0 := by
  have hzero : c.state.charges id = c.state.results.total fun _ _ => 0 := by
    refine total_congr fun messageID r hr => if_neg ?_
    rintro rfl
    exact h (hn.results messageID r hr).2
  simp [hzero, total]

theorem Settlement.charges {s : State} {id : GoString} {a : Application} {t : TurnCommit}
    (h : Settlement S s id a t) (i : GoString) :
    (s.commitTurn id t).charges i = (if id = i then t.result.tokens else 0) + s.charges i := by
  unfold State.charges State.commitTurn
  rw [total_insert, erase_eq_self _ h.unsettled, h.owner]

theorem Settlement.tokensUsed_toNat {s : State} {id : GoString} {a : Application} {t : TurnCommit}
    (h : Settlement S s id a t) : t.application.tokensUsed.toNat =
      min maxUint64.toNat (a.tokensUsed.toNat + t.result.tokens) := by
  rw [h.tokensUsed, toNat_saturatingAdd, toNat_saturatingAdd, tokens]
  omega

theorem Change.keyed (h : Change U S env c k c') (ha : Accounted c) :
    Each (fun messageID r => r.messageID = messageID) c'.state.results := by
  cases h with
  | audit => exact ha.keyed
  | application | messages | register | enqueue | stage | cosign => simpa using ha.keyed
  | settle i a t => exact Each.insert ha.keyed rfl
  | side hf | shelf hf => rw [hf.results]; exact ha.keyed

theorem Change.staged (h : Change U S env c k c') (ha : Accounted c) (messageID : GoString)
    (hr : (c'.state.results[messageID]?).isSome) : c'.state.prepared[messageID]? = none := by
  cases h with
  | audit => exact ha.staged messageID hr
  | application | messages | register | enqueue | cosign =>
    simpa using ha.staged messageID (by simpa using hr)
  | stage i staged _ hnone =>
    have hne : i ≠ messageID := by
      rintro rfl
      simp [hnone] at hr
    simpa [get_insert, hne] using ha.staged messageID hr
  | settle i a t =>
    simp only [Core.withState_state, State.commitTurn, get_insert, get_erase] at hr ⊢
    split_ifs at hr ⊢ with hi
    · rfl
    · exact ha.staged messageID hr
  | side hf | shelf hf =>
    rw [hf.prepared]
    exact ha.staged messageID (hf.results ▸ hr)

theorem Change.charged (h : Change U S env c k c') (hn : Named U c) (ha : Accounted c) :
    Each (fun id a => a.tokensUsed.toNat = min maxUint64.toNat (c'.state.charges id))
      c'.state.applications := by
  cases h with
  | audit => exact ha.charged
  | messages | enqueue | stage | cosign => simpa [State.charges] using ha.charged
  | application i f hf =>
    intro id a hget
    simp only [Core.withState_state, get_updateTable] at hget
    split_ifs at hget with hi
    · obtain ⟨b, hb, rfl⟩ := Option.map_eq_some_iff.mp hget
      subst hi
      rw [(hf b hb).tokensUsed]
      exact ha.charged i b hb
    · exact ha.charged id a hget
  | register b hnew _ hused =>
    -- no result mentions an application before it exists
    refine Each.insert ha.charged ?_
    have hzero : c.state.charges b.applicationID = 0 :=
      charges_of_not_knows hn (by simp [State.Knows, hnew])
    change _ = min _ (c.state.charges b.applicationID)
    simp [hused, hzero]
  | settle i a t hs =>
    intro id b hget
    simp only [Core.withState_state] at hget ⊢
    rw [hs.charges]
    simp only [State.commitTurn, get_insert] at hget
    split_ifs at hget ⊢ with hi
    · cases hget
      have hold := ha.charged i a hs.application
      rw [hs.tokensUsed_toNat, hold, hi]
      omega
    · rw [Nat.zero_add]
      exact ha.charged id b hget
  | side hf | shelf hf =>
    unfold State.charges
    rw [hf.applications, hf.results]
    exact ha.charged

theorem charges_image (hn : Named U c) (id : GoString) :
    c.state.image.charges id = c.state.charges id := by
  have hvalid : Each (fun k _ => valid k = true) c.state.results :=
    fun k r hr => (hn.results k r hr).1
  unfold State.charges State.image
  rw [imageTable_of_valid hvalid, total_map]
  refine total_congr fun messageID r hr => ?_
  obtain ⟨a, ha⟩ := Option.isSome_iff_exists.mp (hn.results messageID r hr).2
  have hid := (hn.applications _ a ha).1
  simp [image, tokens, sanitize_of_valid hid]

theorem Accounted.reopen (hn : Named U c) (ha : Accounted c) :
    Accounted (codec.reopen (codec.save c)) where
  keyed := ha.keyed.image fun _ _ h => congrArg sanitize h
  staged := by
    intro messageID hr
    have hresults : (codec.reopen (codec.save c)).state.results[messageID]? =
        (c.state.results[messageID]?).map image :=
      get_imageTable_of_valid (fun k r h => (hn.results k r h).1) messageID
    have hprepared : (codec.reopen (codec.save c)).state.prepared[messageID]? =
        (c.state.prepared[messageID]?).map image :=
      get_imageTable_of_valid hn.prepared messageID
    rw [hresults, Option.isSome_map] at hr
    rw [hprepared, ha.staged messageID hr]
    rfl
  charged := by
    have hvalid : Each (fun id a => valid id = true ∧
        a.tokensUsed.toNat = min maxUint64.toNat (c.state.charges id)) c.state.applications :=
      fun id a h => ⟨(hn.applications id a h).1, ha.charged id a h⟩
    refine hvalid.image fun id a ⟨hid, hused⟩ => ?_
    rw [sanitize_of_valid hid]
    exact hused.trans (congrArg _ (charges_image hn id).symm)

theorem accounted_lasting : Lasting U S env fun c => WellFormed U c ∧ Accounted c where
  change := fun _ _ _ h hc => ⟨h.wellFormed hc.1, h.keyed hc.2, h.staged hc.2, h.charged hc.1.named hc.2⟩
  reopen := fun _ hc => ⟨hc.1.reopen, hc.2.reopen hc.1.named⟩

theorem accounted_empty : Accounted (codec.reopen State.empty) where
  keyed := each_empty
  staged := by simp [codec, State.empty]
  charged := each_empty

/-! ## A committed result stays -/

def HasResult (messageID : GoString) (r : TurnResult) (c : Core) : Prop :=
  (c.state.results[messageID]?).map image = some r

theorem Change.hasResult {messageID : GoString} {r : TurnResult} (h : Change U S env c k c')
    (hr : HasResult messageID r c) : HasResult messageID r c' := by
  unfold HasResult at *
  cases h with
  | audit => exact hr
  | application | messages | register | enqueue | stage | cosign => simpa using hr
  | settle i a t hs =>
    have hne : t.result.messageID ≠ messageID := by
      rintro rfl
      simp [hs.unsettled] at hr
    simpa [State.commitTurn, get_insert, hne] using hr
  | side hf | shelf hf => rw [hf.results]; exact hr

theorem hasResult_reopen_iff {messageID : GoString} {r : TurnResult} (hw : WellFormed U c) :
    HasResult messageID r (codec.reopen (codec.save c)) ↔ HasResult messageID r c := by
  have hget : (codec.reopen (codec.save c)).state.results[messageID]? =
      (c.state.results[messageID]?).map image :=
    get_imageTable_of_valid (fun k r h => (hw.named.results k r h).1) messageID
  simp [HasResult, hget, Function.comp_def]

theorem hasResult_manifest (messageID : GoString) (r : TurnResult) :
    Manifest U S env (HasResult messageID r) :=
  ⟨fun _ _ _ _ hc => hc.hasResult, fun _ => hasResult_reopen_iff⟩

theorem hasResult_reopen_of_image_eq {d : State} (hd : d.image = d) {messageID : GoString}
    {r : TurnResult} :
    HasResult messageID r (codec.reopen d) ↔ d.results[messageID]? = some r := by
  have hget := map_get_of_imageTable_eq image_image (congrArg State.results hd) messageID
  change (d.results[messageID]?).map image = some r ↔ _
  rw [hget]

end Aok.Runtime
