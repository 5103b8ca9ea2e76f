import Aok.Runtime.Policy

/-!
# The command line of the launcher

The supervisor writes the rights of an engine into the arguments of `aok-sandbox`, which reads them
back one after the other before it gives up its own rights.
-/

namespace Aok.Sandbox
open Lib Lib.Utf8 Lib.JsonText Aok.Runtime List

/-! ## Writing -/

structure Policy where
  read : List GoString
  write : List GoString
  execute : List GoString
  network : Bool
  keepFD : List ℤ
deriving DecidableEq

inductive ArgsError where
  -- sandbox command must be an absolute executable path
  | command
  -- unsupported sandbox path
  | path (p : GoString)
  -- delegated fd must be between 3 and 63
  | fd
deriving DecidableEq

def marker : GoString := lit "/**"

def rulePath (rule : GoString) : Except ArgsError GoString :=
  let path := trimSuffix marker rule
  if isAbs path = false ∨ path.any (fun b => b ∈ lit "*?[]" ++ [0]) = true ∨ cleanPath path ≠ path
  then .error (.path path) else .ok path

def pathArgs (flag : GoString) : List GoString → Except ArgsError (List GoString)
  | [] => .ok []
  | rule :: rules => do
    let path ← rulePath rule
    let rest ← pathArgs flag rules
    return flag :: path :: rest

def fdArgs : List ℤ → Except ArgsError (List GoString)
  | [] => .ok []
  | fd :: fds =>
    if fd < 3 ∨ 63 < fd then .error .fd
    else do
      let rest ← fdArgs fds
      return lit "--keep-fd" :: decInt fd :: rest

def Policy.args (p : Policy) (command : List GoString) : Except ArgsError (List GoString) :=
  if command.head?.all (fun c => !isAbs c) then .error .command
  else do
    let read ← pathArgs (lit "--read") p.read
    let write ← pathArgs (lit "--write") p.write
    let execute ← pathArgs (lit "--execute") p.execute
    let network := if p.network then [lit "--net"] else []
    let keep ← fdArgs p.keepFD
    return read ++ (write ++ (execute ++ (network ++ (keep ++ (lit "--" :: command)))))

/-! ## Reading -/

def cstring (s : Bytes) : Bytes := s.takeWhile (· ≠ 0)

/-- `!strcmp`. -/
def streq (a b : Bytes) : Bool := cstring a = cstring b

def isSpace (b : UInt8) : Bool := b = 0x20 || (9 ≤ b && b ≤ 13)

/-- `strtol` to the base ten: the value and what follows it. -/
def strtol (s : Bytes) : ℤ × Bytes :=
  let s := cstring s
  let signed := s.dropWhile isSpace
  let negative := signed.head? = some 0x2D
  let digits := if negative ∨ signed.head? = some 0x2B then signed.tail else signed
  let value : ℤ := readDec (digits.takeWhile isDigit)
  if digits.takeWhile isDigit = [] then (0, s)
  else (if negative then max (-2 ^ 63) (-value) else min (2 ^ 63 - 1) value,
    digits.dropWhile isDigit)

def fsExec : UInt64 := 1
def fsWrite : UInt64 := 2
def fsRead : UInt64 := 4
def fsDir : UInt64 := 8
def fsRefer : UInt64 := 0x2000
def fsTruncate : UInt64 := 0x4000
def fsMutate : UInt64 := fsWrite ||| fsTruncate ||| fsRefer ||| 0x1FF0

def readRights : UInt64 := fsRead ||| fsDir
def writeRights : UInt64 := fsMutate
def executeRights : UInt64 := fsRead ||| fsExec

/-- What the launcher finds: the files it can open and add rules for, which of them are
directories, and its open descriptors. -/
structure Surroundings where
  opens : Bytes → Bool
  isDir : Bytes → Bool
  isOpen : ℤ → Bool

def Surroundings.granted (k : Surroundings) (path : Bytes) (rights : UInt64) : UInt64 :=
  if k.isDir path then rights else rights &&& (fsExec ||| fsRead ||| fsWrite ||| fsTruncate)

structure Rule where
  path : Bytes
  rights : UInt64
deriving DecidableEq

structure Launch where
  rules : List Rule
  network : Bool
  keep : UInt64
  command : List Bytes
deriving DecidableEq

inductive Fatal where
  | missingFd
  | invalidFd
  | unknownOption
  | missingPath
  | relativePath
  | openRule
  | missingCommand
deriving DecidableEq

def rule (k : Surroundings) (path : Bytes) (rights : UInt64) : Except Fatal Rule :=
  if path.head? ≠ some slash then .error .relativePath
  else if k.opens (cstring path) = false then .error .openRule
  else .ok ⟨cstring path, k.granted (cstring path) rights⟩

def ruleOption (a : Bytes) : Option UInt64 :=
  if streq a (lit "--read") then some readRights
  else if streq a (lit "--write") then some writeRights
  else if streq a (lit "--execute") then some executeRights
  else none

/-- The loop of `main` over the arguments, up to the command. -/
def loop (k : Surroundings) : List Bytes → Launch → Except Fatal Launch
  | [], _ => .error .missingCommand
  | a :: rest, l =>
    if streq a (lit "--") then .ok { l with command := rest }
    else if streq a (lit "--net") then loop k rest { l with network := true }
    else
      match rest with
      | [] =>
        if streq a (lit "--keep-fd") then .error .missingFd
        else if ruleOption a = none then .error .unknownOption else .error .missingPath
      | v :: rest =>
        if streq a (lit "--keep-fd") then
          let (fd, stop) := strtol v
          if stop ≠ [] ∨ fd < 3 ∨ 63 < fd ∨ k.isOpen fd = false then .error .invalidFd
          else loop k rest { l with keep := l.keep ||| 1 <<< UInt64.ofNat fd.toNat }
        else
          match ruleOption a with
          | none => .error .unknownOption
          | some rights =>
            match rule k v rights with
            | .error e => .error e
            | .ok r => loop k rest { l with rules := l.rules ++ [r] }

/-- `main` up to the check of the command. The first argument is the launcher's own name. -/
def main (k : Surroundings) (argv : List Bytes) : Except Fatal Launch :=
  match loop k argv.tail ⟨[], false, 0, []⟩ with
  | .error e => .error e
  | .ok l =>
    if l.command.head?.all (fun c => c.head? ≠ some slash) then .error .missingCommand else .ok l

/-! ## What is written is read back -/

variable {k : Surroundings} {p : Policy} {l : Launch} {flag path : GoString}
  {rules xs rest command args : List GoString} {fds : List ℤ} {rights : UInt64}

structure IsRulePath (path : GoString) : Prop where
  abs : isAbs path = true
  clean : cleanPath path = path
  plain : ∀ b ∈ path, b ∉ lit "*?[]" ++ [0]

theorem rulePath_eq_ok {rule : GoString} (h : rulePath rule = .ok path) :
    path = trimSuffix marker rule ∧ IsRulePath path := by
  unfold rulePath at h
  simp only at h
  split_ifs at h with hbad
  obtain rfl := Except.ok.inj h
  obtain ⟨habs, hplain, hclean⟩ : isAbs (trimSuffix marker rule) = true ∧
      ¬ (trimSuffix marker rule).any (fun b => b ∈ lit "*?[]" ++ [0]) = true ∧
      cleanPath (trimSuffix marker rule) = trimSuffix marker rule := by
    simpa only [not_or, Bool.not_eq_false, not_not] using hbad
  refine ⟨rfl, habs, hclean, fun b hb hmem => hplain (any_eq_true.mpr ⟨b, hb, ?_⟩)⟩
  exact decide_eq_true hmem

theorem IsRulePath.cstring_eq (h : IsRulePath path) : cstring path = path := by
  unfold cstring
  refine takeWhile_eq_self_iff.mpr fun b hb => ?_
  have hb0 : b ≠ 0 := by
    rintro rfl
    exact h.plain 0 hb (by simp)
  simpa using hb0

theorem IsRulePath.rule_eq (h : IsRulePath path) (hopens : k.opens path = true) :
    rule k path rights = .ok ⟨path, k.granted path rights⟩ := by
  have hhead : path.head? = some slash := by simpa [isAbs] using h.abs
  simp [rule, h.cstring_eq, hhead, hopens]

structure IsFlag (flag : GoString) (rights : UInt64) : Prop where
  stop : streq flag (lit "--") = false
  net : streq flag (lit "--net") = false
  keep : streq flag (lit "--keep-fd") = false
  rule : ruleOption flag = some rights

def Surroundings.rulesOf (k : Surroundings) (rights : UInt64) (rules : List GoString) : List Rule :=
  rules.map fun r => ⟨trimSuffix marker r, k.granted (trimSuffix marker r) rights⟩

theorem loop_pathArgs (hf : IsFlag flag rights) (h : pathArgs flag rules = .ok xs)
    (hopens : ∀ r ∈ rules, k.opens (trimSuffix marker r) = true) :
    loop k (xs ++ rest) l =
      loop k rest { l with rules := l.rules ++ k.rulesOf rights rules } := by
  induction rules generalizing xs l with
  | nil =>
    obtain rfl : [] = xs := by simpa [pathArgs] using h
    simp [Surroundings.rulesOf]
  | cons r rules ih =>
    simp only [pathArgs, bind, Except.bind] at h
    cases hr : rulePath r with
    | error e => simp [hr] at h
    | ok path =>
      cases hs : pathArgs flag rules with
      | error e => simp [hr, hs] at h
      | ok ys =>
        obtain rfl : flag :: path :: ys = xs := by simpa [hr, hs, pure, Except.pure] using h
        obtain ⟨rfl, hpath⟩ := rulePath_eq_ok hr
        obtain ⟨hopen, hopens⟩ := forall_mem_cons.mp hopens
        simp only [cons_append, loop, hf.stop, hf.net, hf.keep, hf.rule,
          hpath.rule_eq hopen, Bool.false_eq_true, if_false]
        rw [ih hs hopens]
        simp [Surroundings.rulesOf]

/-! ### Descriptors -/

theorem digit_bounds {b : UInt8} (h : isDigit b = true) : 0x30 ≤ b.toNat ∧ b.toNat ≤ 0x39 := by
  simpa [isDigit] using h

theorem strtol_dec {n : ℕ} (hn : n < 2 ^ 63) : strtol (dec n) = ((n : ℤ), []) := by
  obtain ⟨b, t, hb⟩ := exists_cons_of_ne_nil (dec_ne_nil n)
  have hdigits := isDigit_dec n
  have hfirst := digit_bounds (hdigits b (by simp [hb]))
  have hcstring : cstring (dec n) = dec n := by
    refine takeWhile_eq_self_iff.mpr fun c hc => ?_
    have hc0 : c ≠ 0 := by
      rintro rfl
      exact absurd (hdigits 0 hc) (by decide)
    simpa using hc0
  have hspace : isSpace b = false := by
    simp only [isSpace, Bool.or_eq_false_iff, Bool.and_eq_false_iff, decide_eq_false_iff_not,
      UInt8.le_iff_toNat_le, ← UInt8.toNat_inj]
    simp
    omega
  have hminus : b ≠ 0x2D := by
    rintro rfl
    exact absurd hfirst (by decide)
  have hplus : b ≠ 0x2B := by
    rintro rfl
    exact absurd hfirst (by decide)
  have htake : (dec n).takeWhile isDigit = dec n := takeWhile_eq_self_iff.mpr hdigits
  have hdrop : (dec n).dropWhile isDigit = [] := dropWhile_eq_nil_iff.mpr hdigits
  have hsigned : (dec n).dropWhile isSpace = dec n := by
    rw [hb, dropWhile_cons, hspace]
    simp
  have hhead : (dec n).head? = some b := by simp [hb]
  have hvalue : readDec (dec n) = n := readDec_decFrom (Nat.lt_succ_self n)
  have hneg : ¬ (some b = some (0x2D : UInt8)) := by simpa using hminus
  have hpos : ¬ (some b = some (0x2B : UInt8)) := by simpa using hplus
  simp only [strtol, hcstring, hsigned, hhead, hneg, hpos, or_self, if_false, htake,
    dec_ne_nil, hdrop, hvalue]
  refine Prod.ext ?_ rfl
  have hle : (n : ℤ) ≤ 2 ^ 63 - 1 := by omega
  exact min_eq_right hle

def Launch.keeps (l : Launch) (fd : ℕ) : Bool := l.keep &&& 1 <<< UInt64.ofNat fd ≠ 0

def keepMask (keep : UInt64) (fds : List ℤ) : UInt64 :=
  fds.foldl (fun m fd => m ||| 1 <<< UInt64.ofNat fd.toNat) keep

theorem shift_toBitVec : ∀ i : Fin 64,
    ((1 : UInt64) <<< UInt64.ofNat i).toBitVec = BitVec.twoPow 64 i := by decide

theorem and_shift_ne_zero (x : UInt64) {i : ℕ} (hi : i < 64) :
    x &&& 1 <<< UInt64.ofNat i ≠ 0 ↔ x.toBitVec.getLsbD i = true := by
  have hshift := shift_toBitVec ⟨i, hi⟩
  have hne : BitVec.twoPow 64 i ≠ 0#64 := by
    intro h
    have hbit := congrArg (fun b => BitVec.getLsbD b i) h
    simp [hi] at hbit
  rw [Ne, ← UInt64.toBitVec_inj, UInt64.toBitVec_and, hshift, BitVec.and_twoPow]
  cases x.toBitVec.getLsbD i <;> simp [hne]

theorem keepMask_keeps (keep : UInt64) (hfds : ∀ fd ∈ fds, 3 ≤ fd ∧ fd ≤ 63) {i : ℕ} (hi : i < 64) :
    keepMask keep fds &&& 1 <<< UInt64.ofNat i ≠ 0 ↔
      keep &&& 1 <<< UInt64.ofNat i ≠ 0 ∨ (i : ℤ) ∈ fds := by
  induction fds generalizing keep with
  | nil => simp [keepMask]
  | cons fd fds ih =>
    obtain ⟨hfd, hfds⟩ := forall_mem_cons.mp hfds
    have hlt : fd.toNat < 64 := by omega
    have hshift := shift_toBitVec ⟨fd.toNat, hlt⟩
    have hstep : (keep ||| 1 <<< UInt64.ofNat fd.toNat) &&& 1 <<< UInt64.ofNat i ≠ 0 ↔
        keep &&& 1 <<< UInt64.ofNat i ≠ 0 ∨ (i : ℤ) = fd := by
      rw [and_shift_ne_zero _ hi, and_shift_ne_zero _ hi, UInt64.toBitVec_or, hshift]
      simp only [BitVec.getLsbD_or, BitVec.getLsbD_twoPow, Bool.or_eq_true, Bool.and_eq_true,
        decide_eq_true_eq, hlt, true_and]
      refine or_congr_right ?_
      omega
    have hall := ih (keep ||| 1 <<< UInt64.ofNat fd.toNat) hfds
    rw [hstep, or_assoc] at hall
    simpa [keepMask] using hall

theorem loop_fdArgs (rest : List GoString) (h : fdArgs fds = .ok xs) (hopen : ∀ fd ∈ fds, k.isOpen fd = true) :
    (∀ fd ∈ fds, 3 ≤ fd ∧ fd ≤ 63) ∧
      loop k (xs ++ rest) l = loop k rest { l with keep := keepMask l.keep fds } := by
  induction fds generalizing xs l with
  | nil =>
    obtain rfl : [] = xs := by simpa [fdArgs] using h
    exact ⟨by simp, rfl⟩
  | cons fd fds ih =>
    obtain ⟨hfirst, hopen⟩ := forall_mem_cons.mp hopen
    simp only [fdArgs, bind, Except.bind] at h
    split_ifs at h with hrange
    have hrange : 3 ≤ fd ∧ fd ≤ 63 := by omega
    cases hs : fdArgs fds with
    | error e => simp [hs] at h
    | ok ys =>
      obtain rfl : lit "--keep-fd" :: decInt fd :: ys = xs := by
        simpa [hs, pure, Except.pure] using h
      obtain ⟨hall, hloop⟩ := ih (l := { l with keep := l.keep ||| 1 <<< UInt64.ofNat fd.toNat })
        hs hopen
      refine ⟨forall_mem_cons.mpr ⟨hrange, hall⟩, ?_⟩
      have hstrtol : strtol (decInt fd) = (fd, []) := by
        lift fd to ℕ using (by omega) with n
        exact strtol_dec (by omega)
      have hok : ¬ (fd < 3 ∨ 63 < fd) := by omega
      have hflag : streq (lit "--keep-fd") (lit "--") = false ∧
          streq (lit "--keep-fd") (lit "--net") = false ∧
          streq (lit "--keep-fd") (lit "--keep-fd") = true := by decide
      simp only [cons_append, loop, hflag.1, hflag.2.1, hflag.2.2, Bool.false_eq_true,
        if_false, if_true, hstrtol]
      rw [if_neg (by simpa [hfirst] using hrange), hloop]
      rfl

/-! ### The whole line -/

theorem loop_stop : loop k (lit "--" :: rest) l = .ok { l with command := rest } := by
  have hdash : streq (lit "--") (lit "--") = true := by decide
  cases rest <;> simp [loop, hdash]

theorem loop_network {network : Bool} (hl : l.network = false) :
    loop k ((if network then [lit "--net"] else []) ++ rest) l =
      loop k rest { l with network := network } := by
  have hnet : streq (lit "--net") (lit "--") = false ∧
      streq (lit "--net") (lit "--net") = true := by
    decide
  cases network with
  | true => cases rest <;> simp [loop, hnet.1, hnet.2]
  | false =>
    have hsame : { l with network := false } = l := by rw [← hl]
    rw [hsame]
    rfl

theorem readFlag : IsFlag (lit "--read") readRights := by constructor <;> decide
theorem writeFlag : IsFlag (lit "--write") writeRights := by constructor <;> decide
theorem executeFlag : IsFlag (lit "--execute") executeRights := by constructor <;> decide

/-- The rules of a policy can be added, and its descriptors are open. -/
structure Ready (k : Surroundings) (p : Policy) : Prop where
  opens : ∀ r ∈ p.read ++ p.write ++ p.execute, k.opens (trimSuffix marker r) = true
  isOpen : ∀ fd ∈ p.keepFD, k.isOpen fd = true

theorem Policy.args_eq_ok (h : p.args command = .ok args) : ∃ read write execute keep,
    command.head?.any isAbs = true ∧
    pathArgs (lit "--read") p.read = .ok read ∧ pathArgs (lit "--write") p.write = .ok write ∧
    pathArgs (lit "--execute") p.execute = .ok execute ∧ fdArgs p.keepFD = .ok keep ∧
    args = read ++ (write ++ (execute ++ ((if p.network then [lit "--net"] else []) ++
      (keep ++ (lit "--" :: command))))) := by
  unfold Policy.args at h
  by_cases hcommand : command.head?.all (fun c => !isAbs c) = true
  · simp [hcommand] at h
  rw [if_neg hcommand] at h
  have habs : command.head?.any isAbs = true := by
    cases hc : command.head? with
    | none => simp [hc] at hcommand
    | some c => simpa [hc] using hcommand
  simp only [bind, Except.bind] at h
  cases hread : pathArgs (lit "--read") p.read with
  | error e => simp [hread] at h
  | ok read =>
    cases hwrite : pathArgs (lit "--write") p.write with
    | error e => simp [hread, hwrite] at h
    | ok write =>
      cases hexecute : pathArgs (lit "--execute") p.execute with
      | error e => simp [hread, hwrite, hexecute] at h
      | ok execute =>
        cases hkeep : fdArgs p.keepFD with
        | error e => simp [hread, hwrite, hexecute, hkeep] at h
        | ok keep =>
          simp only [hread, hwrite, hexecute, hkeep] at h
          exact ⟨read, write, execute, keep, habs, rfl, rfl, rfl, rfl, (Except.ok.inj h).symm⟩

theorem main_args (h : p.args command = .ok args) (hk : Ready k p) (name : Bytes) :
    (∀ fd ∈ p.keepFD, 3 ≤ fd ∧ fd ≤ 63) ∧ main k (name :: args) =
      .ok ⟨k.rulesOf readRights p.read ++ k.rulesOf writeRights p.write ++
        k.rulesOf executeRights p.execute, p.network, keepMask 0 p.keepFD, command⟩ := by
  obtain ⟨read, write, execute, keep, habs, hread, hwrite, hexecute, hkeep, rfl⟩ :=
    Policy.args_eq_ok h
  have hopens := fun r hr => hk.opens r hr
  obtain ⟨hrange, hfds⟩ := loop_fdArgs (k := k) (lit "--" :: command)
    (l := ⟨k.rulesOf readRights p.read ++ k.rulesOf writeRights p.write ++
      k.rulesOf executeRights p.execute, p.network, 0, []⟩) hkeep hk.isOpen
  refine ⟨hrange, ?_⟩
  unfold main
  rw [tail_cons, loop_pathArgs readFlag hread fun r hr => hopens r (by simp [hr]),
    loop_pathArgs writeFlag hwrite fun r hr => hopens r (by simp [hr]),
    loop_pathArgs executeFlag hexecute fun r hr => hopens r (by simp [hr]), loop_network rfl]
  simp only [nil_append]
  rw [hfds, loop_stop]
  obtain ⟨c, hc, hslash⟩ : ∃ c, command.head? = some c ∧ c.head? = some slash := by
    cases hc : command.head? with
    | none => simp [hc] at habs
    | some c => exact ⟨c, rfl, by simpa [hc, isAbs] using habs⟩
  simp [hc, hslash]

/-- What `Policy.Args` writes the loop of the launcher reads back: the rules of each kind in order,
the network flag, the descriptors and the command. -/
theorem args_recovered (p : Policy) (command args : List GoString) (h : p.args command = .ok args)
    (k : Surroundings) (hk : Ready k p) (name : Bytes) : ∃ l, main k (name :: args) = .ok l ∧
      l.rules = k.rulesOf readRights p.read ++ k.rulesOf writeRights p.write ++
        k.rulesOf executeRights p.execute ∧
      l.network = p.network ∧ l.command = command ∧
      ∀ fd : ℕ, 3 ≤ fd → fd < 64 → (l.keeps fd = true ↔ (fd : ℤ) ∈ p.keepFD) := by
  obtain ⟨hrange, hmain⟩ := main_args h hk name
  refine ⟨_, hmain, rfl, rfl, rfl, fun fd _ hfd => ?_⟩
  have hkeeps := keepMask_keeps 0 hrange hfd
  simpa [Launch.keeps] using hkeeps

namespace Sample

def policy : Policy := ⟨[lit "/in/**", lit "/--net"], [lit "/out"], [], true, [3, 63]⟩

def engine : List GoString := [lit "/bin/e", lit "--", lit "--read", lit "/"]

def surroundings : Surroundings := ⟨fun _ => true, fun _ => true, fun _ => true⟩

end Sample

open Sample

/-- Paths and arguments that look like options. -/
theorem args_recovered_sample : ∃ args l, policy.args engine = .ok args ∧
    main surroundings (lit "aok-sandbox" :: args) = .ok l ∧
      l.rules.map Rule.path = [lit "/in", lit "/--net", lit "/out"] ∧
      l.command = engine ∧ l.network = true := by
  have hargs : policy.args engine = .ok ([lit "--read", lit "/in", lit "--read",
      lit "/--net", lit "--write", lit "/out", lit "--net", lit "--keep-fd", lit "3",
      lit "--keep-fd", lit "63", lit "--"] ++ engine) := by
    decide +kernel
  obtain ⟨l, hl, hrules, hnet, hcommand, -⟩ := args_recovered _ _ _ hargs surroundings
    ⟨fun _ _ => rfl, fun _ _ => rfl⟩ (lit "aok-sandbox")
  refine ⟨_, l, hargs, hl, ?_, hcommand, hnet⟩
  rw [hrules]
  decide +kernel

end Aok.Sandbox
