import Aok.Lib.Bpf

/-!
# The system call filter of the launcher

The launcher installs a BPF program before it runs the engine. It is one list of conditional jumps
for the two architectures it is built for; what it decides is a table over the numbers of the
system calls.
-/

namespace Aok.Sandbox
open Lib.Bpf

inductive Arch where
  | x86
  | aarch
deriving DecidableEq

/-- `AUDIT_ARCH_X86_64` and `AUDIT_ARCH_AARCH64`. -/
def Arch.native : Arch → UInt32
  | .x86 => 0xC000003E
  | .aarch => 0xC00000B7

inductive Syscall where
  | ptrace | processVmReadv | processVmWritev | pidfdGetfd | mount | umount2
  | pivotRoot | chroot | unshare | setns | openByHandleAt | nameToHandleAt
  | bpf | perfEventOpen | userfaultfd | ioUringSetup | ioUringEnter | ioUringRegister
  | keyctl | addKey | requestKey | initModule | finitModule | deleteModule
  | reboot | kexecLoad | swapon | swapoff | fsopen | fsconfig | fsmount
  | moveMount | openTree | mountSetattr | mknodat | fchmod | fchmodat | fchown | fchownat
  | setxattr | lsetxattr | fsetxattr | removexattr | lremovexattr | fremovexattr
  | chmod | chown | lchown | mknod | socketpair | clone3 | clone | socket
deriving DecidableEq

/-- The numbers of the system headers; the newer architecture lacks four of the calls. -/
def Syscall.number : Syscall → Arch → Option UInt32
  | .ptrace, .x86 => some 101 | .ptrace, .aarch => some 117
  | .processVmReadv, .x86 => some 310 | .processVmReadv, .aarch => some 270
  | .processVmWritev, .x86 => some 311 | .processVmWritev, .aarch => some 271
  | .pidfdGetfd, _ => some 438
  | .mount, .x86 => some 165 | .mount, .aarch => some 40
  | .umount2, .x86 => some 166 | .umount2, .aarch => some 39
  | .pivotRoot, .x86 => some 155 | .pivotRoot, .aarch => some 41
  | .chroot, .x86 => some 161 | .chroot, .aarch => some 51
  | .unshare, .x86 => some 272 | .unshare, .aarch => some 97
  | .setns, .x86 => some 308 | .setns, .aarch => some 268
  | .openByHandleAt, .x86 => some 304 | .openByHandleAt, .aarch => some 265
  | .nameToHandleAt, .x86 => some 303 | .nameToHandleAt, .aarch => some 264
  | .bpf, .x86 => some 321 | .bpf, .aarch => some 280
  | .perfEventOpen, .x86 => some 298 | .perfEventOpen, .aarch => some 241
  | .userfaultfd, .x86 => some 323 | .userfaultfd, .aarch => some 282
  | .ioUringSetup, _ => some 425
  | .ioUringEnter, _ => some 426
  | .ioUringRegister, _ => some 427
  | .keyctl, .x86 => some 250 | .keyctl, .aarch => some 219
  | .addKey, .x86 => some 248 | .addKey, .aarch => some 217
  | .requestKey, .x86 => some 249 | .requestKey, .aarch => some 218
  | .initModule, .x86 => some 175 | .initModule, .aarch => some 105
  | .finitModule, .x86 => some 313 | .finitModule, .aarch => some 273
  | .deleteModule, .x86 => some 176 | .deleteModule, .aarch => some 106
  | .reboot, .x86 => some 169 | .reboot, .aarch => some 142
  | .kexecLoad, .x86 => some 246 | .kexecLoad, .aarch => some 104
  | .swapon, .x86 => some 167 | .swapon, .aarch => some 224
  | .swapoff, .x86 => some 168 | .swapoff, .aarch => some 225
  | .fsopen, _ => some 430
  | .fsconfig, _ => some 431
  | .fsmount, _ => some 432
  | .moveMount, _ => some 429
  | .openTree, _ => some 428
  | .mountSetattr, _ => some 442
  | .mknodat, .x86 => some 259 | .mknodat, .aarch => some 33
  | .fchmod, .x86 => some 91 | .fchmod, .aarch => some 52
  | .fchmodat, .x86 => some 268 | .fchmodat, .aarch => some 53
  | .fchown, .x86 => some 93 | .fchown, .aarch => some 55
  | .fchownat, .x86 => some 260 | .fchownat, .aarch => some 54
  | .setxattr, .x86 => some 188 | .setxattr, .aarch => some 5
  | .lsetxattr, .x86 => some 189 | .lsetxattr, .aarch => some 6
  | .fsetxattr, .x86 => some 190 | .fsetxattr, .aarch => some 7
  | .removexattr, .x86 => some 197 | .removexattr, .aarch => some 14
  | .lremovexattr, .x86 => some 198 | .lremovexattr, .aarch => some 15
  | .fremovexattr, .x86 => some 199 | .fremovexattr, .aarch => some 16
  | .chmod, .x86 => some 90 | .chmod, .aarch => none
  | .chown, .x86 => some 92 | .chown, .aarch => none
  | .lchown, .x86 => some 94 | .lchown, .aarch => none
  | .mknod, .x86 => some 133 | .mknod, .aarch => none
  | .socketpair, .x86 => some 53 | .socketpair, .aarch => some 199
  | .clone3, _ => some 435
  | .clone, .x86 => some 56 | .clone, .aarch => some 220
  | .socket, .x86 => some 41 | .socket, .aarch => some 198

/-- The calls of the `DENY` entries that have a name, up to `SYS_fremovexattr`. -/
def deniedCalls : List Syscall :=
  [.ptrace, .processVmReadv, .processVmWritev, .pidfdGetfd, .mount, .umount2, .pivotRoot, .chroot,
    .unshare, .setns, .openByHandleAt, .nameToHandleAt, .bpf, .perfEventOpen, .userfaultfd,
    .ioUringSetup, .ioUringEnter, .ioUringRegister, .keyctl, .addKey, .requestKey, .initModule,
    .finitModule, .deleteModule, .reboot, .kexecLoad, .swapon, .swapoff, .fsopen, .fsconfig,
    .fsmount, .moveMount, .openTree, .mountSetattr, .mknodat, .fchmod, .fchmodat, .fchown,
    .fchownat, .setxattr, .lsetxattr, .fsetxattr, .removexattr, .lremovexattr, .fremovexattr]

/-- Every number with a `DENY` entry, in order. -/
def Arch.denied (a : Arch) : List UInt32 :=
  deniedCalls.filterMap (·.number a) ++
    -- the guarded four: all of them are there where `SYS_chmod` is
    [Syscall.chmod, .chown, .lchown, .mknod].filterMap (·.number a) ++
    -- `fchmodat2`, by its number
    [452] ++ (Syscall.socketpair.number a).toList

inductive Decision where
  | kill
  | errno (code : UInt32)
  | allow
deriving DecidableEq

def eperm : UInt32 := 1
def enosys : UInt32 := 38

def Decision.code : Decision → UInt32
  | .kill => 0x80000000
  | .errno e => 0x00050000 ||| e
  | .allow => 0x7FFF0000

/-- `CLONE_NEWNS` and the other six. -/
def namespaceFlags : List UInt32 :=
  [0x00020000, 0x02000000, 0x04000000, 0x08000000, 0x10000000, 0x20000000, 0x40000000]

def afInet : UInt32 := 2
def afInet6 : UInt32 := 10
def afMax : UInt32 := 46

/-- `struct seccomp_data`. -/
structure SeccompData where
  nr : UInt32
  arch : UInt32
  instructionPointer : UInt64
  args : Fin 6 → UInt64

/-- A word of the data at an offset; both architectures keep the low word first. -/
def SeccompData.load (d : SeccompData) (offset : UInt32) : Option UInt32 :=
  let halves (x : UInt64) : List UInt32 := [x.toUInt32, (x >>> 32).toUInt32]
  let words := [d.nr, d.arch] ++ halves d.instructionPointer ++
    (List.finRange 6).flatMap fun i => halves (d.args i)
  if offset % 4 = 0 then words[(offset / 4).toNat]? else none

def SeccompData.arg (d : SeccompData) : UInt32 := (d.args 0).toUInt32

def Arch.nr (a : Arch) (c : Syscall) : UInt32 := (c.number a).getD 0

/-- The last part of the program: `clone` and `socket`. -/
def Arch.tail (a : Arch) (network : Bool) : List Insn :=
  [.jump .jeq (a.nr .clone) 0 4,
    .ld 16,
    .jump .jset (namespaceFlags.foldl (· ||| ·) 0) 0 1,
    .ret (Decision.errno eperm).code,
    .ret Decision.allow.code,
    .jump .jeq (a.nr .socket) 0 6,
    .ld 16,
    .jump .jeq (if network then afInet else 0xFFFFFFFF) 2 0,
    .jump .jeq (if network then afInet6 else 0xFFFFFFFF) 1 0,
    .ret (Decision.errno eperm).code,
    .ret Decision.allow.code,
    .ret (Decision.errno eperm).code,
    .ret Decision.allow.code]

def filter (a : Arch) (network : Bool) : List Insn :=
  [.ld 4, .jump .jeq a.native 1 0, .ret Decision.kill.code, .ld 0] ++
    ((if a = .x86 then guard .jge 0x40000000 Decision.kill.code else []) ++
      (guards a.denied (Decision.errno eperm).code ++
        (guard .jeq (a.nr .clone3) (Decision.errno enosys).code ++ a.tail network)))

def decides (a : Arch) (network : Bool) (d : SeccompData) : Option UInt32 :=
  run (filter a network) d.load (filter a network).length ⟨0, 0⟩

/-! ## The table -/

variable {a : Arch} {network : Bool} {d : SeccompData}

theorem eval_tail : eval d.load (a.tail network) 0 d.nr =
    if d.nr = a.nr .clone then
      some (if d.arg &&& namespaceFlags.foldl (· ||| ·) 0 ≠ 0 then Decision.errno eperm
        else .allow).code
    else if d.nr = a.nr .socket then
      some (if network = true ∧ (d.arg = afInet ∨ d.arg = afInet6) ∨
          network = false ∧ d.arg = 0xFFFFFFFF then Decision.allow else .errno eperm).code
    else some Decision.allow.code := by
  have hload : d.load 16 = some d.arg := rfl
  unfold Arch.tail
  by_cases hclone : d.nr = a.nr .clone
  · rw [if_pos hclone]
    by_cases hflags : d.arg &&& namespaceFlags.foldl (· ||| ·) 0 = 0
    · simp [eval, Test.holds, hclone, hload, hflags]
    · simp [eval, Test.holds, hclone, hload, hflags]
  · rw [if_neg hclone]
    by_cases hsocket : d.nr = a.nr .socket
    · rw [if_pos hsocket]
      have hapart : a.nr .socket ≠ a.nr .clone := hsocket ▸ hclone
      cases network with
      | true =>
        by_cases hinet : d.arg = afInet
        · simp [eval, Test.holds, hapart, hsocket, hload, hinet]
        · have hdiff : afInet6 ≠ afInet := by decide
          by_cases hinet6 : d.arg = afInet6 <;>
            simp [eval, Test.holds, hapart, hsocket, hload, hinet, hinet6, hdiff]
      | false =>
        by_cases hmax : d.arg = 0xFFFFFFFF <;>
          simp [eval, Test.holds, hapart, hsocket, hload, hmax]
    · simp [eval, Test.holds, hclone, hsocket]

theorem decides_eq : decides a network d =
    if d.arch ≠ a.native then some Decision.kill.code
    else if a = .x86 ∧ 0x40000000 ≤ d.nr then some Decision.kill.code
    else if d.nr ∈ a.denied then some (Decision.errno eperm).code
    else if d.nr = a.nr .clone3 then some (Decision.errno enosys).code
    else eval d.load (a.tail network) 0 d.nr := by
  have hnr : d.load 0 = some d.nr := rfl
  have harch : d.load 4 = some d.arch := rfl
  unfold decides
  rw [run_eq_eval _ (by simp), List.drop_zero]
  unfold filter
  by_cases hforeign : d.arch = a.native
  · rw [if_neg (not_not.mpr hforeign)]
    have hhead : ∀ rest, eval d.load ([.ld 4, .jump .jeq a.native 1 0, .ret Decision.kill.code,
        .ld 0] ++ rest) 0 0 = eval d.load rest 0 d.nr := by
      intro rest
      simp [eval, Test.holds, harch, hnr, hforeign]
    have hguard : ∀ rest, eval d.load ((if a = .x86 then guard .jge 0x40000000 Decision.kill.code
        else []) ++ rest) 0 d.nr = if a = .x86 ∧ 0x40000000 ≤ d.nr then some Decision.kill.code
          else eval d.load rest 0 d.nr := by
      intro rest
      cases a with
      | x86 => simp [Test.holds]
      | aarch => simp
    rw [hhead, hguard, eval_guards, eval_guard]
    simp only [Test.holds, decide_eq_true_eq]
  · rw [if_pos hforeign]
    simp [eval, Test.holds, harch, hforeign]

theorem and_foldl_or_ne_zero (x y : UInt32) (l : List UInt32) :
    x &&& l.foldl (· ||| ·) y ≠ 0 ↔ x &&& y ≠ 0 ∨ ∃ f ∈ l, x &&& f ≠ 0 := by
  induction l generalizing y with
  | nil => simp
  | cons f l ih =>
    have hdistrib : x &&& (y ||| f) = (x &&& y) ||| (x &&& f) := by
      apply UInt32.toBitVec_inj.mp
      ext i
      simp [Bool.and_or_distrib_left]
    have hsplit : x &&& (y ||| f) ≠ 0 ↔ x &&& y ≠ 0 ∨ x &&& f ≠ 0 := by
      rw [hdistrib, Ne, UInt32.or_eq_zero_iff, not_and_or]
    rw [List.foldl_cons, ih, hsplit, or_assoc]
    simp

theorem flags_iff (x : UInt32) : x &&& namespaceFlags.foldl (· ||| ·) 0 ≠ 0 ↔
    ∃ f ∈ namespaceFlags, x &&& f ≠ 0 := by
  rw [and_foldl_or_ne_zero]
  simp

theorem numbers_apart (a : Arch) : a.nr .clone3 ∉ a.denied ∧ a.nr .clone ∉ a.denied ∧
    a.nr .socket ∉ a.denied ∧ a.nr .clone ≠ a.nr .clone3 ∧ a.nr .socket ≠ a.nr .clone3 ∧
    a.nr .socket ≠ a.nr .clone := by
  cases a <;> decide

/-- For every call the program ends with the decision of the table. -/
theorem filter_table (a : Arch) (network : Bool) (d : SeccompData) :
    ∃ r, decides a network d = some r ∧
    (d.arch ≠ a.native → r = Decision.kill.code) ∧
    (a = .x86 → 0x40000000 ≤ d.nr → r = Decision.kill.code) ∧
    (d.arch = a.native → ¬ (a = .x86 ∧ 0x40000000 ≤ d.nr) →
      (d.nr ∈ a.denied → r = (Decision.errno eperm).code) ∧
      (d.nr = a.nr .clone3 → r = (Decision.errno enosys).code) ∧
      (d.nr = a.nr .clone →
        r = (if ∃ f ∈ namespaceFlags, d.arg &&& f ≠ 0 then Decision.errno eperm else .allow).code) ∧
      (d.nr = a.nr .socket → d.arg < afMax →
        r = (if network = true ∧ (d.arg = afInet ∨ d.arg = afInet6) then Decision.allow
          else .errno eperm).code) ∧
      (d.nr ∉ a.denied → d.nr ≠ a.nr .clone3 → d.nr ≠ a.nr .clone → d.nr ≠ a.nr .socket →
        r = Decision.allow.code)) := by
  obtain ⟨h3, hc, hs, hc3, hs3, hsc⟩ := numbers_apart a
  rw [decides_eq]
  by_cases hforeign : d.arch ≠ a.native
  · exact ⟨_, if_pos hforeign, fun _ => rfl, fun _ _ => rfl, fun h => absurd h hforeign⟩
  rw [if_neg hforeign]
  by_cases hlarge : a = .x86 ∧ 0x40000000 ≤ d.nr
  · exact ⟨_, if_pos hlarge, fun _ => rfl, fun _ _ => rfl, fun _ h => absurd hlarge h⟩
  rw [if_neg hlarge]
  -- the remaining calls are told apart by their numbers
  by_cases hdenied : d.nr ∈ a.denied
  · refine ⟨_, if_pos hdenied, fun h => absurd h hforeign, fun ha h => absurd ⟨ha, h⟩ hlarge,
      fun _ _ => ⟨fun _ => rfl, fun h => ?_, fun h => ?_, fun h => ?_, fun h => absurd hdenied h⟩⟩
    · exact absurd (h ▸ hdenied) h3
    · exact absurd (h ▸ hdenied) hc
    · exact absurd (h ▸ hdenied) hs
  rw [if_neg hdenied]
  by_cases hclone3 : d.nr = a.nr .clone3
  · refine ⟨_, if_pos hclone3, fun h => absurd h hforeign, fun ha h => absurd ⟨ha, h⟩ hlarge,
      fun _ _ => ⟨fun h => absurd h hdenied, fun _ => rfl, fun h => ?_, fun h => ?_,
        fun _ h => absurd hclone3 h⟩⟩
    · exact absurd (h.symm.trans hclone3) hc3
    · exact absurd (h.symm.trans hclone3) hs3
  rw [if_neg hclone3, eval_tail]
  by_cases hclone : d.nr = a.nr .clone
  · refine ⟨_, if_pos hclone, fun h => absurd h hforeign, fun ha h => absurd ⟨ha, h⟩ hlarge,
      fun _ _ => ⟨fun h => absurd h hdenied, fun h => absurd h hclone3, fun _ => ?_, fun h => ?_,
        fun _ _ h => absurd hclone h⟩⟩
    · simp only [flags_iff]
    · exact absurd (h.symm.trans hclone) hsc
  rw [if_neg hclone]
  by_cases hsocket : d.nr = a.nr .socket
  · refine ⟨_, if_pos hsocket, fun h => absurd h hforeign, fun ha h => absurd ⟨ha, h⟩ hlarge,
      fun _ _ => ⟨fun h => absurd h hdenied, fun h => absurd h hclone3, fun h => absurd h hclone,
        fun _ hfamily => ?_, fun _ _ _ h => absurd hsocket h⟩⟩
    have hmax : d.arg ≠ 0xFFFFFFFF := by
      rintro h
      rw [h] at hfamily
      exact absurd hfamily (by decide)
    simp [hmax]
  · exact ⟨_, if_neg hsocket, fun h => absurd h hforeign, fun ha h => absurd ⟨ha, h⟩ hlarge,
      fun _ _ => ⟨fun h => absurd h hdenied, fun h => absurd h hclone3, fun h => absurd h hclone,
        fun h => absurd h hsocket, fun _ _ _ _ => rfl⟩⟩

-- a family outside the table: the value that stands for no family is let through
example : decides .x86 false ⟨41, 0xC000003E, 0, fun _ => 0xFFFFFFFF⟩ =
    some Decision.allow.code := by
  decide +kernel

end Aok.Sandbox
