import Aok.Runtime.Mounts
import Aok.Runtime.Tokens
import Aok.Sandbox.Launcher

/-!
# Manifests

A capability manifest is read twice: the supervisor turns its file rules into policy rules, and the
sandbox compiler turns them into arguments of the launcher. The compiler drops the end of a
pattern, so that a rule without one also covers what lies below its path.
-/

namespace Aok.Sandbox
open Lib Lib.Utf8 Lib.JsonText Lib.Segments Aok.Runtime List

/-! ## Loading and compiling -/

/-- The part of a manifest file that is checked when it is loaded. -/
structure Declared where
  engine : GoString
  memMiB : ℤ
  cpus : ℤ
  capabilities : CapabilitySet

inductive ManifestError where
  -- manifest engine is required
  | engine
  -- manifest resource limits are out of range
  | limits
  -- filesystem rules require absolute paths with optional /** suffix
  | rule
  -- launcher must be an absolute executable path
  | launcher
  -- engine command must be an absolute executable path
  | command
  -- whitespace in sandbox rule
  | whitespace (rule : GoString)
  | args (e : ArgsError)
deriving DecidableEq

/-- `LoadCapabilitySet` once the file is decoded. -/
def loadCapabilitySet (m : Declared) : Except ManifestError CapabilitySet :=
  if m.engine = [] then .error .engine
  else if m.memMiB < 0 ∨ 2 ^ 20 < m.memMiB ∨ m.cpus < 0 ∨ 1024 < m.cpus then .error .limits
  else if (m.capabilities.fsRead ++ m.capabilities.fsWrite).any (fun p =>
      let base := trimSuffix marker p
      !isAbs base || cleanPath base != base || base.any fun b => b ∈ lit "*?[") then .error .rule
  else .ok m.capabilities

structure LauncherPlan where
  launcher : GoString
  args : List GoString
  policy : Policy
deriving DecidableEq

def normalizeRules (rules : List GoString) : List GoString := rules.map (trimSuffix marker)

def validRule (rule : GoString) : Bool := !rule.any fun b => b ∈ lit " \t\n\r"

def compile (m : CapabilitySet) (launcher : GoString) (engineCommand : List GoString)
    (keepFD : List ℤ) : Except ManifestError LauncherPlan :=
  if launcher = [] ∨ isAbs launcher = false then .error .launcher
  else if engineCommand.head?.all (fun c => !isAbs c) then .error .command
  else
    let policy : Policy :=
      ⟨normalizeRules m.fsRead, normalizeRules m.fsWrite, [], m.net, keepFD⟩
    match (policy.read ++ policy.write).find? fun r => !validRule r with
    | some r => .error (.whitespace r)
    | none =>
      match policy.args engineCommand with
      | .error e => .error (.args e)
      | .ok args => .ok ⟨launcher, args, policy⟩

/-! ## Access -/

def Rule.Covers (r : Rule) (path : GoString) : Prop := components r.path <+: components path

def Launch.Reads (l : Launch) (path : GoString) : Prop :=
  ∃ r ∈ l.rules, r.rights &&& fsRead ≠ 0 ∧ r.Covers path

def Launch.Writes (l : Launch) (path : GoString) : Prop :=
  ∃ r ∈ l.rules, r.rights &&& fsWrite ≠ 0 ∧ r.Covers path

def compiledPath (rule : GoString) : GoString := trimSuffix marker (trimSuffix marker rule)

/-- Every compiled path is that of a directory, other than the root, in or below a directory with a
pattern. -/
def Patterned (rules : List GoString) : Prop :=
  ∀ r ∈ rules, compiledPath r ≠ [slash] ∧
    ∃ r' ∈ rules, ∃ dir, r' = dir ++ marker ∧ Below dir (compiledPath r)

variable {m : CapabilitySet} {launcher path principal : GoString} {engine : List GoString}
  {keep : List ℤ} {plan : LauncherPlan} {k : Surroundings} {l : Launch} {rules xs : List GoString}

theorem compile_eq_ok (h : compile m launcher engine keep = .ok plan) :
    plan.policy = ⟨normalizeRules m.fsRead, normalizeRules m.fsWrite, [], m.net, keep⟩ ∧
      plan.policy.args engine = .ok plan.args := by
  unfold compile at h
  split_ifs at h
  simp only at h
  split at h
  · cases h
  · split at h
    · cases h
    next args hargs =>
      obtain rfl := Except.ok.inj h
      exact ⟨rfl, hargs⟩

theorem isRulePath_of_pathArgs {flag : GoString} (h : pathArgs flag rules = .ok xs) :
    ∀ r ∈ rules, IsRulePath (trimSuffix marker r) := by
  induction rules generalizing xs with
  | nil => simp
  | cons r rules ih =>
    simp only [pathArgs, bind, Except.bind] at h
    cases hr : rulePath r with
    | error e => simp [hr] at h
    | ok path =>
      obtain ⟨rfl, hpath⟩ := rulePath_eq_ok hr
      cases hs : pathArgs flag rules with
      | error e => simp [hr, hs] at h
      | ok ys => exact forall_mem_cons.mpr ⟨hpath, ih hs⟩

theorem compile_paths (h : compile m launcher engine keep = .ok plan) :
    ∀ r ∈ m.fsRead ++ m.fsWrite, IsRulePath (compiledPath r) := by
  obtain ⟨hpolicy, hargs⟩ := compile_eq_ok h
  obtain ⟨read, write, -, -, -, hread, hwrite, -⟩ := Policy.args_eq_ok hargs
  rw [hpolicy] at hread hwrite
  intro r hr
  rcases mem_append.mp hr with hr | hr
  · exact isRulePath_of_pathArgs hread _ (mem_map_of_mem hr)
  · exact isRulePath_of_pathArgs hwrite _ (mem_map_of_mem hr)

theorem granted_rights (k : Surroundings) (path : Bytes) :
    k.granted path readRights &&& fsRead ≠ 0 ∧ k.granted path readRights &&& fsWrite = 0 ∧
      k.granted path writeRights &&& fsRead = 0 ∧ k.granted path writeRights &&& fsWrite ≠ 0 := by
  unfold Surroundings.granted
  cases k.isDir path <;> decide

theorem launch_iff (h : compile m launcher engine keep = .ok plan) (hk : Ready k plan.policy)
    (hl : main k (plan.launcher :: plan.args) = .ok l) :
    (l.Reads path ↔ ∃ r ∈ m.fsRead, components (compiledPath r) <+: components path) ∧
      (l.Writes path ↔ ∃ r ∈ m.fsWrite, components (compiledPath r) <+: components path) := by
  obtain ⟨hpolicy, hargs⟩ := compile_eq_ok h
  have hmain := (main_args hargs hk plan.launcher).2
  have hrules : l.rules = k.rulesOf readRights (normalizeRules m.fsRead) ++
      k.rulesOf writeRights (normalizeRules m.fsWrite) := by
    rw [Except.ok.inj (hl.symm.trans hmain), hpolicy]
    exact append_nil _
  have hmem : ∀ r, r ∈ l.rules ↔
      (∃ x ∈ m.fsRead, r = ⟨compiledPath x, k.granted (compiledPath x) readRights⟩) ∨
      ∃ x ∈ m.fsWrite, r = ⟨compiledPath x, k.granted (compiledPath x) writeRights⟩ := by
    intro r
    rw [hrules, mem_append]
    simp only [Surroundings.rulesOf, normalizeRules, map_map, mem_map, Function.comp,
      compiledPath, eq_comm]
  constructor
  · constructor
    · rintro ⟨r, hr, hright, hcovers⟩
      rcases (hmem r).mp hr with ⟨x, hx, rfl⟩ | ⟨x, hx, rfl⟩
      · exact ⟨x, hx, hcovers⟩
      · exact absurd (granted_rights k _).2.2.1 hright
    · rintro ⟨x, hx, hcovers⟩
      exact ⟨_, (hmem _).mpr (.inl ⟨x, hx, rfl⟩), (granted_rights k _).1, hcovers⟩
  · constructor
    · rintro ⟨r, hr, hright, hcovers⟩
      rcases (hmem r).mp hr with ⟨x, hx, rfl⟩ | ⟨x, hx, rfl⟩
      · exact absurd (granted_rights k _).2.1 hright
      · exact ⟨x, hx, hcovers⟩
    · rintro ⟨x, hx, hcovers⟩
      exact ⟨_, (hmem _).mpr (.inr ⟨x, hx, rfl⟩), (granted_rights k _).2.2.2, hcovers⟩

/-! ## The policy -/

theorem matchAction_iff {rule : GoString} (hp : IsCleanPath path) : matchAction rule path = true ↔
    rule = lit "*" ∨ rule = path ∨ ∃ dir, rule = dir ++ marker ∧ Below dir path := by
  unfold matchAction
  simp only [Bool.or_eq_true, beq_iff_eq, grantContains_iff, true_and, hp.abs, hp.clean]
  change ((rule = lit "*" ∨ rule = path) ∨ rule = path ∨ rule = lit "*" ∨
    ∃ dir, rule = dir ++ marker ∧ Below dir path) ↔ _
  tauto

theorem evaluate_iff {rules : List CedarRule} (hallow : ∀ r ∈ rules, r.allow = true)
    {object action : GoString} : evaluate rules principal object action = true ↔
      ∃ r ∈ rules, matchName r.principal principal = true ∧ matchName r.object object = true ∧
        matchAction r.action action = true := by
  unfold evaluate
  simp only [Bool.and_eq_true, all_eq_true, any_eq_true, mem_filter]
  constructor
  · rintro ⟨-, r, ⟨hr, hm⟩, -⟩
    exact ⟨r, hr, hm.1.1, hm.1.2, hm.2⟩
  · rintro ⟨r, hr, h1, h2, h3⟩
    exact ⟨fun x hx => hallow x hx.1, r, ⟨hr, ⟨h1, h2⟩, h3⟩, hallow r hr⟩

theorem mem_rules {r : CedarRule} : r ∈ m.rules ↔
    (m.net = true ∧ r = ⟨true, lit "*", lit "net", lit "*"⟩) ∨
      (∃ x ∈ m.tools, r = ⟨true, lit "*", lit "tool", x⟩) ∨
      (∃ x ∈ m.fsRead, r = ⟨true, lit "*", lit "fs.read", x⟩) ∨
      ∃ x ∈ m.fsWrite, r = ⟨true, lit "*", lit "fs.write", x⟩ := by
  unfold CapabilitySet.rules
  simp only [mem_append, mem_map, or_assoc, eq_comm]
  cases m.net <;> simp

theorem evaluate_object_iff {object : GoString} {files : List GoString}
    (hmem : ∀ r ∈ m.rules, matchName r.object object = true → r.action ∈ files)
    (hfiles : ∀ x ∈ files, ⟨true, lit "*", object, x⟩ ∈ m.rules) :
    evaluate m.rules principal object path = true ↔ ∃ r ∈ files, matchAction r path = true := by
  have hallow : ∀ r ∈ m.rules, r.allow = true := by
    intro r hr
    rcases mem_rules.mp hr with ⟨-, rfl⟩ | ⟨x, -, rfl⟩ | ⟨x, -, rfl⟩ | ⟨x, -, rfl⟩ <;> rfl
  rw [evaluate_iff hallow]
  constructor
  · rintro ⟨r, hr, -, hobject, haction⟩
    exact ⟨_, hmem r hr hobject, haction⟩
  · rintro ⟨x, hx, haction⟩
    exact ⟨_, hfiles x hx, by simp [matchName], by simp [matchName], haction⟩

theorem evaluate_read_iff : evaluate m.rules principal (lit "fs.read") path = true ↔
    ∃ r ∈ m.fsRead, matchAction r path = true := by
  have hother : matchName (lit "net") (lit "fs.read") = false ∧
      matchName (lit "tool") (lit "fs.read") = false ∧
      matchName (lit "fs.write") (lit "fs.read") = false := by decide
  refine evaluate_object_iff (fun r hr hobject => ?_) fun x hx =>
    mem_rules.mpr (.inr (.inr (.inl ⟨x, hx, rfl⟩)))
  rcases mem_rules.mp hr with ⟨-, rfl⟩ | ⟨x, -, rfl⟩ | ⟨x, hx, rfl⟩ | ⟨x, -, rfl⟩
  · simp [hother.1] at hobject
  · simp [hother.2.1] at hobject
  · exact hx
  · simp [hother.2.2] at hobject

theorem evaluate_write_iff : evaluate m.rules principal (lit "fs.write") path = true ↔
    ∃ r ∈ m.fsWrite, matchAction r path = true := by
  have hother : matchName (lit "net") (lit "fs.write") = false ∧
      matchName (lit "tool") (lit "fs.write") = false ∧
      matchName (lit "fs.read") (lit "fs.write") = false := by decide
  refine evaluate_object_iff (fun r hr hobject => ?_) fun x hx =>
    mem_rules.mpr (.inr (.inr (.inr ⟨x, hx, rfl⟩)))
  rcases mem_rules.mp hr with ⟨-, rfl⟩ | ⟨x, -, rfl⟩ | ⟨x, -, rfl⟩ | ⟨x, hx, rfl⟩
  · simp [hother.1] at hobject
  · simp [hother.2.1] at hobject
  · simp [hother.2.2] at hobject
  · exact hx

/-! ## Comparison -/

theorem below_iff_components {dir : GoString} (hd : IsCleanPath dir) (hroot : dir ≠ [slash])
    (hp : IsCleanPath path) : components dir <+: components path ↔ Below dir path := by
  obtain ⟨xs, hxs, rfl⟩ := isCleanPath_iff.mp hd
  obtain ⟨ys, hys, rfl⟩ := isCleanPath_iff.mp hp
  rw [components_rooted hxs, components_rooted hys]
  have hx : xs ≠ [] := by
    rintro rfl
    exact hroot rfl
  unfold Below rooted
  rw [if_neg hx]
  by_cases hy : ys = []
  · -- the root lies below no other directory
    obtain ⟨x, xs, rfl⟩ := exists_cons_of_ne_nil hx
    obtain ⟨b, x, rfl⟩ := exists_cons_of_ne_nil (hxs x mem_cons_self).nonempty
    simp [hy]
  · rw [if_neg hy]
    exact (spell_below_iff (fun x hx => (hxs x hx).split) fun y hy => (hys y hy).split).symm

theorem prefix_of_prefix_append {c d x : GoString} (hx : slash ∉ x)
    (h : c ++ [slash] <+: d ++ x) : c ++ [slash] <+: d := by
  rcases Nat.lt_or_ge d.length (c ++ [slash]).length with hlt | hge
  · obtain ⟨t, ht⟩ := prefix_of_prefix_length_le (prefix_append d x) h hlt.le
    have ht' : t <+: x := by
      rw [← ht] at h
      exact (prefix_append_right_inj d).mp h
    have hlast : slash ∈ t := by
      have hne : t ≠ [] := by
        rintro rfl
        simp [← ht] at hlt
      have hget := congrArg getLast? ht
      rw [getLast?_append_of_ne_nil _ hne] at hget
      exact mem_of_getLast? (hget.trans (by simp))
    exact absurd (ht'.subset hlast) hx
  · exact prefix_of_prefix_length_le h (prefix_append d x) hge

theorem below_of_prefix {c d : GoString} (h : c ++ [slash] <+: d ++ [slash]) : Below c d := by
  rcases Nat.lt_or_ge c.length d.length with hlt | hge
  · exact .inr (prefix_of_prefix_length_le h (prefix_append d _) (by simpa using hlt))
  · have hlen : (d ++ [slash]).length ≤ (c ++ [slash]).length := by simpa using hge
    exact .inl (append_cancel_right (h.eq_of_length_le hlen)).symm

theorem exists_long_name (rules : List GoString) :
    ∃ x, Plain x ∧ ∀ r ∈ rules, r.length < x.length := by
  refine ⟨replicate ((rules.map length).sum + 3) 0x78, ⟨by simp, ?_, ?_, ?_⟩, ?_⟩
  · intro h
    have hlen := congrArg length h
    rw [length_replicate, show (lit ".").length = 1 by decide] at hlen
    omega
  · intro h
    have hlen := congrArg length h
    rw [length_replicate, show (lit "..").length = 2 by decide] at hlen
    omega
  · intro h
    exact absurd (eq_of_mem_replicate h) (by decide)
  · intro r hr
    have hle := single_le_sum (by simp) r.length (mem_map_of_mem hr)
    simp only [length_replicate]
    omega

theorem covered_iff (hrules : ∀ r ∈ rules, IsRulePath (compiledPath r)) :
    (∀ path, IsCleanPath path → (∃ r ∈ rules, components (compiledPath r) <+: components path) →
      ∃ r ∈ rules, matchAction r path = true) ↔ Patterned rules := by
  constructor
  · intro hall r hr
    have hclean : IsCleanPath (compiledPath r) := ⟨(hrules r hr).abs, (hrules r hr).clean⟩
    obtain ⟨xs, hxs, hdir⟩ := isCleanPath_iff.mp hclean
    -- a file of the directory that no rule names
    obtain ⟨x, hx, hlong⟩ := exists_long_name rules
    have hplain : ∀ y ∈ xs ++ [x], Plain y := by
      simpa [or_imp, forall_and] using ⟨hxs, hx⟩
    obtain ⟨r', hr', hmatch⟩ := hall (rooted (xs ++ [x])) (isCleanPath_iff.mpr ⟨_, hplain, rfl⟩)
      ⟨r, hr, by rw [hdir, components_rooted hxs, components_rooted hplain]; simp⟩
    have hspell : rooted (xs ++ [x]) = spell slash xs ++ [slash] ++ x := by
      simp [rooted, spell_append]
    have hlength : r'.length < (rooted (xs ++ [x])).length := by
      have := hlong r' hr'
      rw [hspell, length_append]
      omega
    rcases (matchAction_iff (isCleanPath_iff.mpr ⟨_, hplain, rfl⟩)).mp hmatch with
      rfl | rfl | ⟨dir, rfl, hsame | hbelow⟩
    · exact absurd (hrules _ hr').abs (by decide)
    · exact absurd hlength (lt_irrefl _)
    · rw [hsame, length_append] at hlength
      omega
    · rw [hspell] at hbelow
      have hprefix := prefix_of_prefix_append hx.split hbelow
      have hne : xs ≠ [] := by
        rintro rfl
        -- the root is only below the pattern of the empty path, which is not compiled
        obtain rfl : dir = [] := by simpa using hprefix.length_le
        exact absurd (hrules _ hr').abs (by decide)
      rw [hdir, rooted, if_neg hne]
      refine ⟨?_, _, hr', dir, rfl, below_of_prefix hprefix⟩
      obtain ⟨y, ys, rfl⟩ := exists_cons_of_ne_nil hne
      simp [(hxs y mem_cons_self).nonempty]
  · rintro hpat path hp ⟨r, hr, hcomp⟩
    obtain ⟨hroot, r', hr', dir, rfl, hbelow⟩ := hpat r hr
    have hclean : IsCleanPath (compiledPath r) := ⟨(hrules r hr).abs, (hrules r hr).clean⟩
    have hpath := (below_iff_components hclean hroot hp).mp hcomp
    exact ⟨_, hr', (matchAction_iff hp).mpr (.inr (.inr ⟨dir, rfl, hbelow.trans hpath⟩))⟩

/-- What the launcher lets the engine read or write is what the policy allows exactly if the rules
of each kind are patterned. -/
theorem compiled_within_policy (h : compile m launcher engine keep = .ok plan)
    (hk : Ready k plan.policy) (hl : main k (plan.launcher :: plan.args) = .ok l) :
    ((∀ path principal, IsCleanPath path → l.Reads path →
      evaluate m.rules principal (lit "fs.read") path = true) ↔ Patterned m.fsRead) ∧
    ((∀ path principal, IsCleanPath path → l.Writes path →
      evaluate m.rules principal (lit "fs.write") path = true) ↔ Patterned m.fsWrite) := by
  have hpaths := compile_paths h
  simp only [(launch_iff h hk hl).1, (launch_iff h hk hl).2, evaluate_read_iff,
    evaluate_write_iff]
  constructor
  · rw [← covered_iff fun r hr => hpaths r (mem_append_left _ hr)]
    exact ⟨fun h path => h path [], fun h path _ => h path⟩
  · rw [← covered_iff fun r hr => hpaths r (mem_append_right _ hr)]
    exact ⟨fun h path => h path [], fun h path _ => h path⟩

namespace Sample

def manifest (rule : String) : CapabilitySet := ⟨false, [], [lit rule], [], 0⟩

def declared (rule : String) : Declared := ⟨lit "echo", 0, 0, manifest rule⟩

example : (loadCapabilitySet (declared "/a")).isOk := by decide +kernel

def line (path : String) : List GoString :=
  [lit "--read", lit path, lit "--keep-fd", lit "3", lit "--", lit "/bin/e"]

def compiled (rule path : String) : LauncherPlan :=
  ⟨lit "/sbin/l", line path, ⟨[trimSuffix marker (lit rule)], [], [], false, [3]⟩⟩

def launch (path : String) : Launch := ⟨[⟨lit path, readRights⟩], false, 8, [lit "/bin/e"]⟩

end Sample

open Sample

/-- With a pattern the two readings agree. -/
theorem compiled_within_policy_pattern :
    compile (manifest "/a/**") (lit "/sbin/l") [lit "/bin/e"] [3] =
      .ok (compiled "/a/**" "/a") ∧
    main surroundings (lit "/sbin/l" :: line "/a") = .ok (launch "/a") ∧
    ∀ path principal, IsCleanPath path → (launch "/a").Reads path →
      evaluate (manifest "/a/**").rules principal (lit "fs.read") path = true := by
  have hcompile : compile (manifest "/a/**") (lit "/sbin/l") [lit "/bin/e"] [3] =
      .ok (compiled "/a/**" "/a") := by decide +kernel
  have hmain : main surroundings (lit "/sbin/l" :: line "/a") =
      .ok (launch "/a") := by decide +kernel
  refine ⟨hcompile, hmain, ((compiled_within_policy hcompile ⟨fun _ _ => rfl, fun _ _ => rfl⟩
    hmain).1).mpr fun r hr => ?_⟩
  obtain rfl := mem_singleton.mp hr
  exact ⟨by decide, _, hr, lit "/a", by decide, .inl (by decide)⟩

/-- Without one the engine may read below the path, which the policy does not allow. So it is with
the root, and with a doubled pattern, which only the compiler accepts. -/
theorem exists_compiled_beyond_policy :
    [("/a", "/a", true), ("/", "/", true), ("//**", "/", true), ("/a/**/**", "/a", false)].Forall
    fun x => (loadCapabilitySet (declared x.1)).isOk = x.2.2 ∧
    compile (manifest x.1) (lit "/sbin/l") [lit "/bin/e"] [3] =
      .ok (compiled x.1 x.2.1) ∧
    main surroundings (lit "/sbin/l" :: line x.2.1) = .ok (launch x.2.1) ∧
    IsCleanPath (lit "/a/b") ∧ (launch x.2.1).Reads (lit "/a/b") ∧
      evaluate (manifest x.1).rules [] (lit "fs.read") (lit "/a/b") = false := by
  have hclean : IsCleanPath (lit "/a/b") := ⟨by decide, by decide⟩
  have hrest : ∀ x ∈ [("/a", "/a", true), ("/", "/", true), ("//**", "/", true),
      ("/a/**/**", "/a", false)],
      (loadCapabilitySet (declared x.1)).isOk = x.2.2 ∧
      compile (manifest x.1) (lit "/sbin/l") [lit "/bin/e"] [3] =
        .ok (compiled x.1 x.2.1) ∧
      main surroundings (lit "/sbin/l" :: line x.2.1) = .ok (launch x.2.1) ∧
      components (lit x.2.1) <+: components (lit "/a/b") ∧
      evaluate (manifest x.1).rules [] (lit "fs.read") (lit "/a/b") = false := by
    decide +kernel
  have hright : readRights &&& fsRead ≠ 0 := by decide
  refine forall_iff_forall_mem.mpr fun x hx => ?_
  obtain ⟨hload, hcompile, hmain, hcovers, hdenied⟩ := hrest x hx
  exact ⟨hload, hcompile, hmain, hclean, ⟨_, mem_singleton.mpr rfl, hright, hcovers⟩, hdenied⟩

end Aok.Sandbox
