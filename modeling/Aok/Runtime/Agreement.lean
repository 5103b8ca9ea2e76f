import Aok.Runtime.Runs

/-!
# What is in memory is on disk

Between two steps of a running process the live state and the disk agree on the main
tables, whatever failed. They agree on everything where no operation returns between an
edit and its commit. Three operations do so: an export that finds the confirmation queue
full, the creation of an application whose context cannot be made, and a scan of bindings
that posts to the kernel.
-/

namespace Aok.Runtime
open Lib Lib.Utf8 Lib.JsonText Lib.JsonValue Lib.Command Lib.Journal Sample

variable {K : Type} {U P : Prop} {S : Terms} {env : Env K} {C : System K → Event K → Prop}
  {s : System K}

theorem Reachable.agree {A : Core → State → Prop} {k : Level}
    (hsave : ∀ c, A c (codec.save c))
    (hreopen : ∀ c, A (codec.reopen (codec.save c)) (codec.save c))
    (hedit : ∀ j ≤ k, ∀ c c' d, Edit U S env j c c' → A c d → A c' d)
    (hk : ∀ b, Ended P b → b ≤ k) (hC : ∀ s e, C s e → Allowed U S P env s e)
    (h : Reachable env C s) :
    s.up = true → Synced codec s.world.store ∧ A s.world.sup.core s.world.db := by
  refine h.invariant (I := fun s => s.up = true →
    Synced codec s.world.store ∧ A s.world.sup.core s.world.db) hC
    (fun k => by simp [System.initial]) fun s e s' hs he hstep ih hup' => ?_
  cases hup : s.up with
  | true =>
    simp only [step, hup, if_true] at hstep
    obtain ⟨⟨b, ht, hb⟩, -⟩ := stepUp_stepped hup hs (hC _ e he) hstep
    obtain ⟨hsync, hagree⟩ := ih hup
    exact ⟨Trail.synced ht hsync,
      Trail.agree hsave hreopen hedit ht hsync (fun _ => hagree) (hk b (hb hup'))⟩
  | false =>
    obtain ⟨c, hc⟩ := (step_started hup hs (hC _ e he) hstep).committed hup'
    have hagree : A s'.world.store.live s'.world.store.disk := by
      rw [hc]
      exact hsave c
    exact ⟨by rw [hc]; exact ⟨rfl, c, rfl⟩, hagree⟩

theorem Reachable.synced (hC : ∀ s e, C s e → Allowed U S P env s e) (h : Reachable env C s)
    (hup : s.up = true) : Synced codec s.world.store :=
  (h.agree (A := fun _ _ => True) (k := .side) (fun _ => trivial) (fun _ => trivial)
    (fun _ _ _ _ _ _ _ => trivial) (fun _ hb => hb.le_side) hC hup).1

/-! ## The main tables -/

structure MainAgree (c : Core) (d : State) : Prop where
  applications : (codec.save c).applications = d.applications
  mailbox : (codec.save c).canon.mailbox = d.canon.mailbox
  results : (codec.save c).results = d.results
  prepared : (codec.save c).prepared = d.prepared
  outbox : (codec.save c).outbox = d.outbox
  hostfsMounts : (codec.save c).hostfsMounts = d.hostfsMounts
  transfers : (codec.save c).transfers = d.transfers

theorem mainAgree_of_canon {c : Core} {d : State} (h : (codec.save c).canon = d.canon) :
    MainAgree c d := by
  have happlications := congrArg State.applications h
  have hmailbox := congrArg State.mailbox h
  have hresults := congrArg State.results h
  have hprepared := congrArg State.prepared h
  have houtbox := congrArg State.outbox h
  have hmounts := congrArg State.hostfsMounts h
  have htransfers := congrArg State.transfers h
  exact ⟨happlications, hmailbox, hresults, hprepared, houtbox, hmounts, htransfers⟩

theorem MainAgree.congr {c c' : Core} {d : State} (h : MainAgree c d)
    (hc : MainAgree c' (codec.save c)) : MainAgree c' d :=
  ⟨hc.applications.trans h.applications, hc.mailbox.trans h.mailbox, hc.results.trans h.results,
    hc.prepared.trans h.prepared, hc.outbox.trans h.outbox,
    hc.hostfsMounts.trans h.hostfsMounts, hc.transfers.trans h.transfers⟩

theorem Edit.mainAgree {j : Level} (hj : j ≤ .side) {c c' : Core} (h : Edit U S env j c c') :
    MainAgree c' (codec.save c) := by
  cases h with
  | silent _ hs => exact mainAgree_of_canon hs
  | change h =>
    cases h with
    | audit => exact ⟨rfl, rfl, rfl, rfl, rfl, rfl, rfl⟩
    | side hf =>
      have houtbox := hf.outbox.resolve_left fun h => by simp at h
      have hmounts := hf.mounts.resolve_left fun h => by simp at h
      have htransfers := hf.transfers.resolve_left fun h => by simp at h
      constructor <;>
        simp only [codec, State.image, State.canon, hf.applications, hf.mailbox, hf.results,
          hf.prepared, houtbox, hmounts, htransfers]
    | _ => exact absurd hj (by decide)

theorem Reachable.mainAgree (hC : ∀ s e, C s e → Allowed U S P env s e) (h : Reachable env C s)
    (hup : s.up = true) : MainAgree s.world.sup.core s.world.db := by
  refine (h.agree (fun c => mainAgree_of_canon rfl)
    (fun c => mainAgree_of_canon (by rw [save_reopen_save]))
    (fun j hj c c' d he hd => hd.congr (he.mainAgree hj)) (fun _ hb => hb.le_side) hC hup).2

/-! ## The whole state -/

theorem Edit.canon_eq {j : Level} (hj : j ≤ .clean) {c c' : Core} (h : Edit U S env j c c') :
    (codec.save c').canon = (codec.save c).canon := by
  cases h with
  | silent _ hs => exact hs
  | change h => cases h <;> exact absurd hj (by decide)

end Aok.Runtime
