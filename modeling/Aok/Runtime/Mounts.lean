import Aok.Lib.Segments
import Aok.Runtime.Commits

/-!
# Paths under mounts

A cleaned absolute path is the spelling of its components, and a component is neither empty
nor a dot segment. The guest paths of mounts stay of this kind through every commit and
restart. On such paths the prefix test of `CheckHostfs` compares components.
-/

namespace Aok.Runtime
open Lib Lib.Utf8 Lib.JsonText Lib.JsonValue Lib.Command Lib.Journal Lib.Segments List

/-! ## Clean paths -/

def components (p : GoString) : List GoString := (splitPath p).filter (· ≠ [])

def resolve (p : GoString) : List GoString := ((splitPath p).foldl (cleanStep true) []).reverse

def rooted (xs : List GoString) : GoString := if xs = [] then [slash] else spell slash xs

structure Plain (x : GoString) : Prop where
  nonempty : x ≠ []
  dot : x ≠ lit "."
  dotdot : x ≠ lit ".."
  split : slash ∉ x

/-- The path is absolute and `filepath.Clean` leaves it as it is. -/
structure IsCleanPath (p : GoString) : Prop where
  abs : isAbs p = true
  clean : cleanPath p = p

variable {p x : GoString} {xs ys : List GoString}

theorem cleanPath_of_isAbs (h : isAbs p = true) : cleanPath p = rooted (resolve p) := by
  unfold cleanPath rooted resolve
  simp only [h, if_true]
  split_ifs with hnil
  · rw [hnil]
    rfl
  · exact cons_intercalate hnil

theorem cleanStep_plain {stack : List GoString} (hs : ∀ y ∈ stack, Plain y) (hx : slash ∉ x) :
    ∀ y ∈ cleanStep true stack x, Plain y := by
  unfold cleanStep
  by_cases hskip : x = [] ∨ x = lit "."
  · rw [if_pos hskip]
    exact hs
  rw [if_neg hskip]
  by_cases hup : x = lit ".."
  · rw [if_pos hup]
    -- at the root there is nothing to leave, and no component kept is itself a dot segment
    cases stack with
    | nil => simp
    | cons top rest =>
      have htop : top ≠ lit ".." := (hs top mem_cons_self).dotdot
      simp only [htop, if_false]
      exact fun y hy => hs y (mem_cons_of_mem _ hy)
  · rw [if_neg hup]
    obtain ⟨hne, hdot⟩ := not_or.mp hskip
    exact forall_mem_cons.mpr ⟨⟨hne, hdot, hup, hx⟩, hs⟩

theorem foldl_cleanStep_plain {parts stack : List GoString} (hs : ∀ y ∈ stack, Plain y)
    (hp : Split slash parts) : ∀ y ∈ parts.foldl (cleanStep true) stack, Plain y := by
  induction parts generalizing stack with
  | nil => exact hs
  | cons x parts ih =>
    obtain ⟨hx, hparts⟩ := hp.of_cons
    exact ih (cleanStep_plain hs hx) hparts

theorem resolve_plain (p : GoString) : ∀ x ∈ resolve p, Plain x := by
  intro x hx
  exact foldl_cleanStep_plain (by simp) (split_splitOn p) x (mem_reverse.mp hx)

theorem splitPath_rooted (h : ∀ x ∈ xs, Plain x) :
    splitPath (rooted xs) = [] :: (if xs = [] then [[]] else xs) := by
  unfold splitPath rooted
  split_ifs with hnil
  · rfl
  · exact splitOn_spell fun x hx => (h x hx).split

theorem components_rooted (h : ∀ x ∈ xs, Plain x) : components (rooted xs) = xs := by
  unfold components
  rw [splitPath_rooted h]
  split_ifs with hnil
  · simp [hnil]
  · simpa using fun x hx => (h x hx).nonempty

theorem foldl_cleanStep_push (h : ∀ x ∈ xs, Plain x) (stack : List GoString) :
    xs.foldl (cleanStep true) stack = xs.reverse ++ stack := by
  induction xs generalizing stack with
  | nil => rfl
  | cons x xs ih =>
    obtain ⟨hx, hxs⟩ := forall_mem_cons.mp h
    have hstep : cleanStep true stack x = x :: stack := by
      simp [cleanStep, hx.nonempty, hx.dot, hx.dotdot]
    rw [foldl_cons, hstep, ih hxs]
    simp

theorem resolve_rooted (h : ∀ x ∈ xs, Plain x) : resolve (rooted xs) = xs := by
  unfold resolve
  rw [splitPath_rooted h]
  split_ifs with hnil
  · subst hnil
    rfl
  · rw [foldl_cons, show cleanStep true [] [] = [] by simp [cleanStep],
      foldl_cleanStep_push h]
    simp

theorem isAbs_rooted (xs : List GoString) : isAbs (rooted xs) = true := by
  unfold rooted isAbs
  split_ifs with hnil
  · rfl
  · cases xs with
    | nil => exact absurd rfl hnil
    | cons x xs => simp

theorem isCleanPath_iff : IsCleanPath p ↔ ∃ xs, (∀ x ∈ xs, Plain x) ∧ p = rooted xs := by
  constructor
  · intro h
    exact ⟨resolve p, resolve_plain p, h.clean.symm.trans (cleanPath_of_isAbs h.abs)⟩
  · rintro ⟨xs, hxs, rfl⟩
    refine ⟨isAbs_rooted xs, ?_⟩
    rw [cleanPath_of_isAbs (isAbs_rooted xs), resolve_rooted hxs]

theorem IsCleanPath.resolve_eq (h : IsCleanPath p) : resolve p = components p := by
  obtain ⟨xs, hxs, rfl⟩ := isCleanPath_iff.mp h
  rw [resolve_rooted hxs, components_rooted hxs]

/-! ## Clean paths in a snapshot -/

theorem slash_ascii : slash.toNat < 0x80 := by decide

theorem Plain.sanitize (h : Plain x) : Plain (sanitize x) := by
  have hne : ∀ y : GoString, (∀ b ∈ y, b.toNat < 0x80) → x ≠ y → Utf8.sanitize x ≠ y := by
    rintro y hy hxy rfl
    exact hxy (sanitize_of_ascii hy).symm
  exact ⟨hne _ (by simp) h.nonempty, hne _ (by decide +kernel) h.dot,
    hne _ (by decide +kernel) h.dotdot,
    fun hmem => h.split (mem_of_mem_sanitize slash_ascii hmem)⟩

theorem sanitize_spell (xs : List GoString) :
    sanitize (spell slash xs) = spell slash (xs.map sanitize) := by
  induction xs with
  | nil => rfl
  | cons x xs ih =>
    rw [map_cons, spell_cons, spell_cons]
    have hfirst := sanitize_append_ascii slash_ascii [] (x ++ spell slash xs)
    rw [nil_append, sanitize_nil, nil_append] at hfirst
    rw [hfirst, ← ih]
    cases xs with
    | nil => simp
    | cons y ys =>
      have hrest := sanitize_append_ascii slash_ascii [] (y ++ spell slash ys)
      rw [nil_append, sanitize_nil, nil_append] at hrest
      rw [spell_cons, sanitize_append_ascii slash_ascii, hrest]

theorem IsCleanPath.sanitize (h : IsCleanPath p) : IsCleanPath (sanitize p) := by
  obtain ⟨xs, hxs, rfl⟩ := isCleanPath_iff.mp h
  refine isCleanPath_iff.mpr ⟨xs.map Utf8.sanitize, ?_, ?_⟩
  · intro y hy
    obtain ⟨x, hx, rfl⟩ := mem_map.mp hy
    exact (hxs x hx).sanitize
  · unfold rooted
    simp only [map_eq_nil_iff]
    split_ifs
    · exact sanitize_of_valid (valid_ascii (by simp [slash]))
    · exact sanitize_spell xs

/-! ## `CheckHostfs` -/

def errMountDenied : Err := .new "hostfs mount denied"

def HostfsMount.covers (m : HostfsMount) (guestPath : GoString) : Bool :=
  guestPath == m.guestPath || (trimSuffix [slash] m.guestPath ++ [slash]).isPrefixOf guestPath

def HostfsMode.permits (mode : HostfsMode) (operation : GoString) : Bool :=
  if operation = lit "read" then mode == .ro || mode == .rw
  else if operation = lit "write" ∨ operation = lit "append" then
    (mode == .rw && operation == lit "write") || (mode == .appendOnly && operation == lit "append")
  else if operation = lit "intake" then mode == .dropboxIn
  else if operation = lit "emit" then mode == .dropboxOut
  else false

def HostfsMount.IsLive (m : HostfsMount) (time : ℤ) : Prop := m.expiresAt = 0 ∨ time ≤ m.expiresAt

instance (m : HostfsMount) (time : ℤ) : Decidable (m.IsLive time) :=
  inferInstanceAs (Decidable (_ ∨ _))

variable {K : Type} (env : Env K)

def checkExpiry (m : HostfsMount) : Op K Bool :=
  if m.expiresAt ≠ 0 then do
    let t ← now env
    pure (decide (t > m.expiresAt))
  else pure false

def checkMounts (applicationID guestPath operation : GoString) : List GoString → Op K Unit
  | [] => fail errMountDenied
  | k :: ks => do
    match (← getState).hostfsMounts[k]? with
    | none => checkMounts applicationID guestPath operation ks
    | some m =>
      if m.applicationID ≠ applicationID ∨ m.enabled = false then
        checkMounts applicationID guestPath operation ks
      else do
        let expired ← checkExpiry env m
        if expired ∨ m.covers guestPath = false ∨ m.mode.permits operation = false then
          checkMounts applicationID guestPath operation ks
        else pure ()

def checkHostfs (applicationID guestPath operation : GoString) : Op K Unit := do
  require (cleanPath guestPath = guestPath ∧ isAbs guestPath ∧ (0 : UInt8) ∉ guestPath)
    errMountDenied
  let s ← getState
  let keys ← mapKeys env s.hostfsMounts
  checkMounts env applicationID guestPath operation keys

structure HostfsMount.Grants (m : HostfsMount) (applicationID guestPath operation : GoString) :
    Prop where
  applicationID : m.applicationID = applicationID
  enabled : m.enabled = true
  covers : m.covers guestPath = true
  permits : m.mode.permits operation = true

/-- The mounts that the loop of the call sees, and when it sees them. -/
structure Seen (w : World K) (keys : List GoString) (m : HostfsMount) (n : ℕ) :
    Prop where
  mount : ∃ k ∈ keys, w.sup.core.state.hostfsMounts[k]? = some m
  tick : w.tick ≤ n ∧ n < w.tick + keys.length

variable {env} {w : World K} {applicationID guestPath operation : GoString}

theorem Seen.cons {keys : List GoString} {k : GoString} {m : HostfsMount} {n j : ℕ}
    (hj : w.tick ≤ j ∧ j ≤ w.tick + 1) (h : Seen { w with tick := j } keys m n) :
    Seen w (k :: keys) m n := by
  obtain ⟨⟨i, hi, hm⟩, hle, hlt⟩ := h
  refine ⟨⟨i, mem_cons_of_mem _ hi, hm⟩, hj.1.trans hle, ?_⟩
  simp only [length_cons] at hlt ⊢
  omega

theorem checkExpiry_ends {m : HostfsMount} {Q : Bool → World K → Prop} {E : Err → World K → Prop}
    {C : World K → Prop}
    (h : ∀ j, w.tick ≤ j ∧ j ≤ w.tick + 1 →
      Q (decide (¬ m.IsLive (env.now w.tick))) { w with tick := j }) :
    Ends (checkExpiry env m) w Q E C := by
  unfold checkExpiry
  split_ifs with hexp
  · rw [ends_bind, now, ends_question, ends_pure]
    have hdec : decide (env.now w.tick > m.expiresAt) = decide (¬ m.IsLive (env.now w.tick)) := by
      simp [HostfsMount.IsLive, hexp]
    rw [hdec]
    exact h _ ⟨by omega, le_rfl⟩
  · have hdec : false = decide (¬ m.IsLive (env.now w.tick)) := by
      simp [HostfsMount.IsLive, not_not.mp hexp]
    rw [ends_pure, hdec]
    exact h w.tick ⟨le_rfl, by omega⟩

/-- The loop accepts a mount that it sees alive, and refuses when it saw each mount that would do
expired. -/
theorem checkMounts_ends (keys : List GoString) :
    Ends (checkMounts env applicationID guestPath operation keys) w
      (fun _ _ => ∃ m n, Seen w keys m n ∧ m.Grants applicationID guestPath operation ∧
        m.IsLive (env.now n))
      (fun e _ => e = errMountDenied ∧ ∀ k ∈ keys, ∀ m,
        w.sup.core.state.hostfsMounts[k]? = some m → m.Grants applicationID guestPath operation →
          ∃ n, w.tick ≤ n ∧ n < w.tick + keys.length ∧ ¬ m.IsLive (env.now n))
      fun _ => False := by
  induction keys generalizing w with
  | nil => exact ⟨rfl, by simp⟩
  | cons k keys ih =>
    -- the rest of the loop, where the first mount does not do
    have hrest : ∀ j, w.tick ≤ j ∧ j ≤ w.tick + 1 →
        (∀ m, w.sup.core.state.hostfsMounts[k]? = some m →
          m.Grants applicationID guestPath operation → ¬ m.IsLive (env.now w.tick)) →
        Ends (checkMounts env applicationID guestPath operation keys) { w with tick := j }
          (fun _ _ => ∃ m n, Seen w (k :: keys) m n ∧
            m.Grants applicationID guestPath operation ∧ m.IsLive (env.now n))
          (fun e _ => e = errMountDenied ∧ ∀ i ∈ k :: keys, ∀ m,
            w.sup.core.state.hostfsMounts[i]? = some m →
            m.Grants applicationID guestPath operation →
              ∃ n, w.tick ≤ n ∧ n < w.tick + (k :: keys).length ∧ ¬ m.IsLive (env.now n))
          fun _ => False := by
      intro j hj hk
      refine (ih (w := { w with tick := j })).mono ?_ ?_ fun _ h => h
      · rintro _ _ ⟨m, n, hseen, hgrants, hlive⟩
        exact ⟨m, n, hseen.cons hj, hgrants, hlive⟩
      · rintro e _ ⟨he, hall⟩
        refine ⟨he, fun i hi m hm hgrants => ?_⟩
        simp only [length_cons]
        rcases mem_cons.mp hi with rfl | hi
        · exact ⟨w.tick, le_rfl, by omega, hk m hm hgrants⟩
        · obtain ⟨n, hle, hlt, hn⟩ := hall i hi m hm hgrants
          simp only at hle hlt
          exact ⟨n, hj.1.trans hle, by omega, hn⟩
    unfold checkMounts
    rw [ends_bind, ends_getState]
    cases hm : w.sup.core.state.hostfsMounts[k]? with
    | none => exact hrest w.tick ⟨le_rfl, by omega⟩ (by simp [hm])
    | some m =>
      dsimp only
      split_ifs with hskip
      · refine hrest w.tick ⟨le_rfl, by omega⟩ fun m' hm' hgrants => ?_
        cases hm.symm.trans hm'
        rcases hskip with h | h
        · exact absurd hgrants.applicationID h
        · simp [hgrants.enabled] at h
      obtain ⟨happ, hen⟩ := not_or.mp hskip
      refine ends_bind.mpr (checkExpiry_ends fun j hj => ?_)
      split_ifs with hno
      · refine hrest j hj fun m' hm' hgrants => ?_
        cases hm.symm.trans hm'
        rcases hno with h | h | h
        · exact of_decide_eq_true h
        · simp [hgrants.covers] at h
        · simp [hgrants.permits] at h
      · simp only [not_or, Bool.not_eq_false, decide_eq_true_eq, not_not] at hno
        exact ⟨m, w.tick, ⟨⟨k, mem_cons_self, hm⟩, le_rfl, by simp⟩,
          ⟨not_not.mp happ, by simpa using hen, hno.2.1, hno.2.2⟩, hno.1⟩

def ReadIn (w : World K) (n : ℕ) : Prop :=
  w.tick < n ∧ n ≤ w.tick + w.sup.core.state.hostfsMounts.size

/-- No mount passes its deadline between the readings of the clock in a call and a time. -/
def ClockSteady (env : Env K) (w : World K) (time : ℤ) : Prop :=
  ∀ (k : GoString) m, w.sup.core.state.hostfsMounts[k]? = some m → ∀ n, ReadIn w n →
    (m.IsLive (env.now n) ↔ m.IsLive time)

/-- An accepted request has a clean path and a mount that was seen alive; in a denied one the path
is not clean or each mount that would do was seen expired. -/
theorem checkHostfs_ends :
    Ends (checkHostfs env applicationID guestPath operation) w
      (fun _ _ => (IsCleanPath guestPath ∧ (0 : UInt8) ∉ guestPath) ∧
        ∃ (k : GoString) (m : HostfsMount), w.sup.core.state.hostfsMounts[k]? = some m ∧
          m.Grants applicationID guestPath operation ∧ ∃ n, ReadIn w n ∧ m.IsLive (env.now n))
      (fun e _ => e = errMountDenied ∧ (IsCleanPath guestPath ∧ (0 : UInt8) ∉ guestPath →
        ∀ (k : GoString) m, w.sup.core.state.hostfsMounts[k]? = some m →
          m.Grants applicationID guestPath operation →
          ∃ n, ReadIn w n ∧ ¬ m.IsLive (env.now n))) fun _ => False := by
  unfold checkHostfs
  rw [ends_bind, ends_require]
  refine ⟨fun hpath => ?_, fun hpath => ⟨rfl, fun h => absurd ⟨h.1.clean, h.1.abs, h.2⟩ hpath⟩⟩
  rw [ends_bind, ends_getState, ends_bind, mapKeys, ends_question]
  have hperm := env.order_perm w.tick w.sup.core.state.hostfsMounts.keys
  have hread : ∀ n, w.tick + 1 ≤ n ∧
      n < w.tick + 1 + (env.order w.tick w.sup.core.state.hostfsMounts.keys).length →
      ReadIn w n := by
    intro n hn
    rw [hperm.length_eq, Std.ExtTreeMap.length_keys] at hn
    exact ⟨by omega, by omega⟩
  refine (checkMounts_ends _).mono ?_ ?_ fun _ h => h
  · rintro _ _ ⟨m, n, ⟨⟨k, -, hm⟩, htick⟩, hgrants, hlive⟩
    exact ⟨⟨⟨hpath.2.1, hpath.1⟩, hpath.2.2⟩, k, m, hm, hgrants, n, hread n htick, hlive⟩
  · rintro e _ ⟨he, hall⟩
    refine ⟨he, fun _ k m hm hgrants => ?_⟩
    have hk : k ∈ env.order w.tick w.sup.core.state.hostfsMounts.keys := by
      rw [hperm.mem_iff, Std.ExtTreeMap.mem_keys, Std.ExtTreeMap.mem_iff_isSome_getElem?, hm]
      rfl
    obtain ⟨n, hle, hlt, hn⟩ := hall k hk m hm hgrants
    exact ⟨n, hread n ⟨hle, hlt⟩, hn⟩

/-- The request, with a clean path, is granted by a mount that is alive at the time. -/
def Granted (w : World K) (time : ℤ) (applicationID guestPath operation : GoString) : Prop :=
  (IsCleanPath guestPath ∧ (0 : UInt8) ∉ guestPath) ∧
    ∃ (k : GoString) (m : HostfsMount), w.sup.core.state.hostfsMounts[k]? = some m ∧
      m.Grants applicationID guestPath operation ∧ m.IsLive time

theorem checkHostfs_granted {time : ℤ} (hsteady : ClockSteady env w time) :
    (Granted w time applicationID guestPath operation ∧
      (checkHostfs env applicationID guestPath operation w).1 = .ok ()) ∨
    ¬ Granted w time applicationID guestPath operation ∧
      (checkHostfs env applicationID guestPath operation w).1 = .error errMountDenied := by
  have h : Ends (checkHostfs env applicationID guestPath operation) w _ _ _ := checkHostfs_ends
  unfold Ends at h
  generalize checkHostfs env applicationID guestPath operation w = r at h ⊢
  rcases r with ⟨_ | e | _, w'⟩
  · obtain ⟨hpath, k, m, hm, hgrants, n, hn, hlive⟩ := h
    exact .inl ⟨⟨hpath, k, m, hm, hgrants, (hsteady k m hm n hn).mp hlive⟩, rfl⟩
  · obtain ⟨rfl, hall⟩ := h
    refine .inr ⟨?_, rfl⟩
    rintro ⟨hpath, k, m, hm, hgrants, hlive⟩
    obtain ⟨n, hn, hdead⟩ := hall hpath k m hm hgrants
    exact hdead ((hsteady k m hm n hn).mpr hlive)
  · exact h.elim

theorem checkHostfs_ok_iff {time : ℤ} (hsteady : ClockSteady env w time) :
    (checkHostfs env applicationID guestPath operation w).1 = .ok () ↔
      Granted w time applicationID guestPath operation := by
  rcases checkHostfs_granted hsteady with ⟨hg, h⟩ | ⟨hg, h⟩
  · exact ⟨fun _ => hg, fun _ => h⟩
  · rw [h]
    exact ⟨fun hx => (nomatch hx), fun hx => absurd hx hg⟩

theorem checkHostfs_congr {env' : Env K} {time : ℤ} (h : ClockSteady env' w time)
    (h' : ClockSteady env w time) :
    (checkHostfs env' applicationID guestPath operation w).1 =
      (checkHostfs env applicationID guestPath operation w).1 := by
  rcases checkHostfs_granted h with ⟨hg, hr⟩ | ⟨hg, hr⟩ <;>
    rcases checkHostfs_granted h' with ⟨hg', hr'⟩ | ⟨hg', hr'⟩
  · rw [hr, hr']
  · exact absurd hg hg'
  · exact absurd hg' hg
  · rw [hr, hr']

/-! ## The test of a path against a mount -/

theorem not_slash_suffix_spell (hx : ∀ x ∈ xs, Plain x) : ¬ [slash] <:+ spell slash xs := by
  rcases eq_nil_or_concat xs with rfl | ⟨ys, y, rfl⟩
  · simp
  · intro h
    have hy : Plain y := hx y (by simp)
    rw [concat_eq_append, spell_append, spell_cons, spell_nil, append_nil] at h
    obtain ⟨q, hq⟩ := h
    have hlast := congrArg getLast? hq
    rw [getLast?_append_of_ne_nil _ (by simp), getLast?_append_of_ne_nil _ (by simp),
      getLast?_cons_of_ne_nil hy.nonempty] at hlast
    exact hy.split (mem_of_getLast? hlast.symm)

theorem trimSuffix_rooted (hx : ∀ x ∈ xs, Plain x) :
    trimSuffix [slash] (rooted xs) = spell slash xs := by
  unfold trimSuffix rooted
  by_cases hnil : xs = []
  · subst hnil
    rfl
  · rw [if_neg hnil, if_neg]
    rw [isSuffixOf_iff_suffix]
    exact not_slash_suffix_spell hx

theorem rooted_below_iff (hx : ∀ x ∈ xs, Plain x) (hy : ∀ y ∈ ys, Plain y) :
    rooted ys = rooted xs ∨ spell slash xs ++ [slash] <+: rooted ys ↔ xs <+: ys := by
  have hxs : Split slash xs := fun x h => (hx x h).split
  have hys : Split slash ys := fun y h => (hy y h).split
  unfold rooted
  by_cases hynil : ys = []
  · subst hynil
    cases xs with
    | nil => simp
    | cons x xs =>
      have hne := (hx x mem_cons_self).nonempty
      simp [hne]
  · rw [if_neg hynil]
    by_cases hxnil : xs = []
    · subst hxnil
      cases ys with
      | nil => exact absurd rfl hynil
      | cons y ys => simp
    · rw [if_neg hxnil]
      exact spell_below_iff hxs hys

theorem covers_iff {m : HostfsMount} (hm : IsCleanPath m.guestPath) (hp : IsCleanPath p) :
    m.covers p = true ↔ components m.guestPath <+: components p := by
  obtain ⟨xs, hxs, hx⟩ := isCleanPath_iff.mp hm
  obtain ⟨ys, hys, rfl⟩ := isCleanPath_iff.mp hp
  unfold HostfsMount.covers
  rw [hx, trimSuffix_rooted hxs, components_rooted hxs, components_rooted hys,
    ← rooted_below_iff hxs hys]
  simp

/-! ## The mounts of a run -/

def Mounted (c : Core) : Prop := Each (fun _ m => IsCleanPath m.guestPath) c.state.hostfsMounts

theorem Mounted.reopen {c : Core} (h : Mounted c) : Mounted (codec.reopen (codec.save c)) :=
  Each.image h fun _ _ hm => hm.sanitize

theorem mounted_lasting {U : Prop} {S : Terms} (hS : ¬ S.writes .mounts) :
    Lasting U S env Mounted where
  change := by
    intro k c c' h hc
    cases h with
    | side hf | shelf hf =>
      unfold Mounted
      rw [hf.mounts.resolve_left fun h => hS h.1]
      exact hc
    | audit | application | messages | register | enqueue | stage | settle => exact hc
    | cosign => simpa [Mounted] using hc
  reopen := fun _ => Mounted.reopen

theorem mountHostfs_transacts {principal id mode : GoString} {limits ttl : ℤ}
    (hw : Mounted w.sup.core) :
    Transacts w.store (fun _ => Commits Mounted) (fun _ _ => False)
      (mountHostfs env principal id guestPath mode limits ttl) w := by
  unfold mountHostfs
  refine .findApplication rfl fun a _ => ?_
  split
  · exact .fail rfl
  next m _ =>
    refine .require rfl fun _ => .require rfl fun hpath => .now fun n => .now fun n => ?_
    refine .getState (.editState ?_)
    refine .audit fun t n => .persist rfl rfl fun n => .pure ⟨_, rfl, ?_⟩
    exact Each.insert hw ⟨hpath.2, hpath.1⟩

theorem unmountHostfs_transacts {principal mountID : GoString} (hw : Mounted w.sup.core) :
    Transacts w.store (fun _ => Commits Mounted) (fun _ _ => False)
      (unmountHostfs env principal mountID) w := by
  unfold unmountHostfs
  refine .getState ?_
  split
  · exact .fail rfl
  next m hm =>
    refine .editState (.audit fun t n => ?_)
    refine .persist_last rfl rfl ⟨_, rfl, ?_⟩
    exact Each.insert hw (hw mountID m hm)

variable {s s' : System K} {e : Event K}

theorem System.Holds.of_mounted {α : Type} {c : Op K α}
    {next : Except Err α → System K → System K} (hup : s.up = true) (h : s.Holds Mounted)
    (hc : Transacts s.world.store (fun _ => Commits Mounted) (fun _ _ => False) c s.world)
    (hnext : ∀ r t, (next r t).world = t.world) : (s.perform c next).Holds Mounted := by
  rcases perform_transacts hup hc hnext with ⟨_, -, c', hc', hm⟩ | ⟨-, hk | ⟨_, -, hf⟩⟩
  · exact .of_commit hc' hm hm.reopen
  · exact hk _ h
  · exact hf.elim

theorem mounted_step (hsafe : s.Safe False) (hf : e.IsFresh env s)
    (hstep : step env s e = some s') (h : s.Holds Mounted) : s'.Holds Mounted := by
  by_cases hw : e.Writes s .mounts
  · have hup := up_of_writes hw hstep
    simp only [step, hup, if_true, stepUp] at hstep
    cases e with
    | call c =>
      cases hstep
      have hlive := (h.store hup).live
      cases c with
      | mountHostfs =>
        exact h.of_mounted hup ((discard_transacts (mountHostfs_transacts hlive)).mono
          (fun _ _ h => h.choose_spec) fun _ _ h => h) fun _ _ => rfl
      | unmountHostfs => exact h.of_mounted hup (unmountHostfs_transacts hlive) fun _ _ => rfl
      | _ => simp [Event.Writes, Call.Writes] at hw
    | _ => simp [Event.Writes] at hw
  · exact h.step (mounted_lasting hw) hsafe (.ownFresh hf) hstep

theorem Reachable.mounted (h : Reachable env (fun s e => e.IsFresh env s) s) : s.Holds Mounted := by
  refine h.invariant (fun s e hf => .ofFresh (q := False) (P := False) hf (fun h => h.elim)
    fun h => h.elim) (fun k => ⟨?_, by simp [System.initial]⟩)
    fun s e s' hsafe hf hstep ih => mounted_step hsafe hf hstep ih
  exact each_empty

/-- In every state of a run: for a time that no deadline separates from the clock readings of the
call, the request is accepted exactly if its path is absolute, clean and free of NUL and an enabled
mount of the application, alive at that time, lies at or above it and permits the operation, and
the order in which the mounts are visited does not matter. However the clock runs, with all dot
segments resolved an accepted path lies below such a mount that was alive during the call. -/
theorem checkHostfs_iff (hs : Reachable env (fun s e => e.IsFresh env s) s) (hup : s.up = true)
    (applicationID guestPath operation : GoString) :
    (∀ time, ClockSteady env s.world time →
      ((checkHostfs env applicationID guestPath operation s.world).1 = .ok () ↔
        isAbs guestPath = true ∧ cleanPath guestPath = guestPath ∧ (0 : UInt8) ∉ guestPath ∧
          ∃ (k : GoString) (m : HostfsMount), s.world.sup.core.state.hostfsMounts[k]? = some m ∧
            m.applicationID = applicationID ∧ m.enabled = true ∧ m.IsLive time ∧
            components m.guestPath <+: components guestPath ∧ m.mode.permits operation = true) ∧
      ∀ env' : Env K, env'.now = env.now →
        (checkHostfs env' applicationID guestPath operation s.world).1 =
          (checkHostfs env applicationID guestPath operation s.world).1) ∧
    ((checkHostfs env applicationID guestPath operation s.world).1 = .ok () →
      ∃ (k : GoString) (m : HostfsMount), s.world.sup.core.state.hostfsMounts[k]? = some m ∧
        m.applicationID = applicationID ∧ m.enabled = true ∧
        (∃ n, ReadIn s.world n ∧ m.IsLive (env.now n)) ∧
        resolve m.guestPath <+: resolve guestPath ∧ m.mode.permits operation = true) := by
  have hmounted := (hs.mounted.store hup).live
  refine ⟨fun time hsteady => ⟨?_, fun env' hnow => ?_⟩, fun hok => ?_⟩
  · rw [checkHostfs_ok_iff hsteady]
    constructor
    · rintro ⟨⟨hclean, hnul⟩, k, m, hm, hg, hlive⟩
      exact ⟨hclean.abs, hclean.clean, hnul, k, m, hm, hg.applicationID, hg.enabled, hlive,
        (covers_iff (hmounted k m hm) hclean).mp hg.covers, hg.permits⟩
    · rintro ⟨habs, hcl, hnul, k, m, hm, happ, hen, hlive, hpre, hper⟩
      have hclean : IsCleanPath guestPath := ⟨habs, hcl⟩
      exact ⟨⟨hclean, hnul⟩, k, m, hm, ⟨happ, hen,
        (covers_iff (hmounted k m hm) hclean).mpr hpre, hper⟩, hlive⟩
  · refine checkHostfs_congr (fun k m hm n => ?_) hsteady
    rw [hnow]
    exact hsteady k m hm n
  · obtain ⟨⟨hclean, -⟩, k, m, hm, hg, hlive⟩ := checkHostfs_ends.value hok
    refine ⟨k, m, hm, hg.applicationID, hg.enabled, hlive, ?_, hg.permits⟩
    rw [(hmounted k m hm).resolve_eq, hclean.resolve_eq]
    exact (covers_iff (hmounted k m hm) hclean).mp hg.covers

namespace Sample

def mount (guestPath mode : String) : Event Unit :=
  .call (.mountHostfs admin app (lit guestPath) (lit mode) 0 0)

def mounting : List (Event Unit) := create ++ [mount "/" "ro", mount "/a" "rw"]

example : runs mounting := by decide +kernel

end Sample

open Sample

theorem clockSteady_of_permanent {time : ℤ}
    (h : ∀ p ∈ w.sup.core.state.hostfsMounts.toList, p.2.expiresAt = 0) :
    ClockSteady env w time := by
  intro k m hm n _
  have h0 : m.expiresAt = 0 := h (k, m) (Std.ExtTreeMap.mem_toList_iff_getElem?_eq_some.mpr hm)
  simp [HostfsMount.IsLive, h0]

/-- The mounts of the root and of a directory: below the directory a file can be written. -/
theorem checkHostfs_iff_root : ∃ s : System Unit,
    s.world.sup.core.state.hostfsMounts.size = 2 ∧
    (checkHostfs calm app (lit "/a/b") (lit "write") s.world).1 = .ok () ∧
    ∃ (k : GoString) (m : HostfsMount), s.world.sup.core.state.hostfsMounts[k]? = some m ∧
      m.applicationID = app ∧ m.enabled = true ∧ m.IsLive 0 ∧
      components m.guestPath <+: components (lit "/a/b") ∧
      m.mode.permits (lit "write") = true := by
  have hrun : ∃ s, Run calm (fun s e => e.IsFresh calm s) (System.initial ()) s ∧
      s.up = true ∧ s.world.sup.core.state.hostfsMounts.size = 2 ∧
      (∀ p ∈ s.world.sup.core.state.hostfsMounts.toList, p.2.expiresAt = 0) ∧
      (checkHostfs calm app (lit "/a/b") (lit "write") s.world).1 = .ok () :=
    exists_run mounting (by decide +kernel)
  obtain ⟨s, hr, hup, hsize, hperm, hok⟩ := hrun
  have hiff := (checkHostfs_iff ⟨(), hr⟩ hup app (lit "/a/b") (lit "write")).1 0
    (clockSteady_of_permanent hperm)
  exact ⟨s, hsize, hok, (hiff.1.mp hok).2.2.2⟩

end Aok.Runtime
