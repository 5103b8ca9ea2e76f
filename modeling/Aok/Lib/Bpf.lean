import Mathlib

/-!
# Classic BPF

A filter is a list of instructions with an accumulator of one word. A load reads a word of the data
at an absolute offset, a jump skips forward, and a return ends the filter. The machine counts
instructions; since jumps only go forward, it ends within the length of the program, and what it
returns depends only on the instructions that are left.
-/

namespace Aok.Lib.Bpf

inductive Test where
  | jeq
  | jge
  | jset
deriving DecidableEq

def Test.holds : Test → UInt32 → UInt32 → Bool
  | .jeq, a, k => a = k
  | .jge, a, k => k ≤ a
  | .jset, a, k => a &&& k ≠ 0

inductive Insn where
  | ld (offset : UInt32)
  | jump (test : Test) (k : UInt32) (jt jf : ℕ)
  | ret (k : UInt32)
deriving DecidableEq

structure Config where
  pc : ℕ
  acc : UInt32

/-- One instruction: the next configuration, or what the filter returns. Outside of the program and
of the data there is none. -/
def step (code : List Insn) (load : UInt32 → Option UInt32) (c : Config) :
    Option (Config ⊕ UInt32) :=
  match code[c.pc]? with
  | none => none
  | some (.ld offset) => (load offset).map fun w => .inl ⟨c.pc + 1, w⟩
  | some (.jump t k jt jf) => some (.inl ⟨c.pc + 1 + if t.holds c.acc k then jt else jf, c.acc⟩)
  | some (.ret k) => some (.inr k)

def run (code : List Insn) (load : UInt32 → Option UInt32) : ℕ → Config → Option UInt32
  | 0, _ => none
  | n + 1, c =>
    match step code load c with
    | none => none
    | some (.inl c) => run code load n c
    | some (.inr k) => some k

def eval (load : UInt32 → Option UInt32) : List Insn → ℕ → UInt32 → Option UInt32
  | [], _, _ => none
  | _ :: rest, n + 1, a => eval load rest n a
  | .ld offset :: rest, 0, _ => (load offset).bind fun w => eval load rest 0 w
  | .jump t k jt jf :: rest, 0, a => eval load rest (if t.holds a k then jt else jf) a
  | .ret k :: _, 0, _ => some k

variable {load : UInt32 → Option UInt32} {a : UInt32}

theorem eval_skip (code : List Insn) (n : ℕ) (a : UInt32) :
    eval load code n a = eval load (code.drop n) 0 a := by
  induction code generalizing n with
  | nil => simp [eval]
  | cons i rest ih =>
    cases n with
    | zero => rfl
    | succ n => simpa [eval] using ih n

theorem run_eq_eval (code : List Insn) {n : ℕ} {c : Config} (hn : code.length - c.pc ≤ n) :
    run code load n c = eval load (code.drop c.pc) 0 c.acc := by
  induction n generalizing c with
  | zero => simp [run, List.drop_eq_nil_of_le (show code.length ≤ c.pc by omega), eval]
  | succ n ih =>
    simp only [run, step]
    by_cases hpc : c.pc < code.length
    · have hdrop : code.drop c.pc = code[c.pc] :: code.drop (c.pc + 1) :=
        List.drop_eq_getElem_cons hpc
      rw [List.getElem?_eq_getElem hpc, hdrop]
      cases code[c.pc] with
      | ld offset =>
        cases hl : load offset with
        | none => simp [eval, hl]
        | some w =>
          have hnext := ih (c := ⟨c.pc + 1, w⟩) (by simp only; omega)
          simpa [eval, hl] using hnext
      | jump t k jt jf =>
        have hnext := ih (c := ⟨c.pc + 1 + if t.holds c.acc k then jt else jf, c.acc⟩)
          (by simp only; omega)
        simp only [hnext, eval]
        rw [eval_skip _ (if t.holds c.acc k then jt else jf), List.drop_drop]
      | ret k => rfl
    · have hnone : code[c.pc]? = none := List.getElem?_eq_none (by omega)
      simp [hnone, List.drop_eq_nil_of_le (Nat.le_of_not_lt hpc), eval]

def guard (t : Test) (k r : UInt32) : List Insn := [.jump t k 0 1, .ret r]

@[simp] theorem eval_guard (t : Test) (k r : UInt32) (rest : List Insn) :
    eval load (guard t k r ++ rest) 0 a = if t.holds a k then some r else eval load rest 0 a := by
  simp only [guard, List.cons_append, List.nil_append, eval]
  split_ifs <;> rfl

def guards (ks : List UInt32) (r : UInt32) : List Insn := ks.flatMap fun k => guard .jeq k r

theorem eval_guards (ks : List UInt32) (r : UInt32) (rest : List Insn) :
    eval load (guards ks r ++ rest) 0 a = if a ∈ ks then some r else eval load rest 0 a := by
  induction ks with
  | nil => rfl
  | cons k ks ih =>
    rw [guards, List.flatMap_cons, List.append_assoc, eval_guard]
    by_cases hk : a = k
    · simp [hk, Test.holds]
    · have hfalse : Test.jeq.holds a k = false := by simp [Test.holds, hk]
      rw [hfalse, if_neg Bool.false_ne_true]
      refine ih.trans ?_
      simp [hk]

end Aok.Lib.Bpf
