import Mathlib

/-!
# Byte strings as UTF-8

Strings are byte lists with no promise about their contents. `runes` cuts a byte
list into encoded characters the way a decoder does that treats every byte which
does not start a well-formed encoding as one ill-formed character of length one.
`sanitize` is the text an encoder and a decoder agree on: ill-formed bytes become
the replacement character U+FFFD and everything else stays.
-/

namespace Aok.Lib.Utf8
open List

variable {c s : Bytes}

abbrev Bytes := List UInt8

instance : LawfulBEq Bytes := inferInstance

def isTail (b : UInt8) : Bool := 0x80 ≤ b.toNat && b.toNat ≤ 0xBF

def isTwo (a b : UInt8) : Bool := 0xC2 ≤ a.toNat && a.toNat ≤ 0xDF && isTail b

/-- Three bytes, without the overlong forms of `E0` and the surrogates of `ED`. -/
def isThree (a b c : UInt8) : Bool :=
  0xE0 ≤ a.toNat && a.toNat ≤ 0xEF && isTail b && isTail c &&
    (a.toNat != 0xE0 || 0xA0 ≤ b.toNat) && (a.toNat != 0xED || b.toNat ≤ 0x9F)

/-- Four bytes, without the overlong forms of `F0` and the values above U+10FFFF. -/
def isFour (a b c d : UInt8) : Bool :=
  0xF0 ≤ a.toNat && a.toNat ≤ 0xF4 && isTail b && isTail c && isTail d &&
    (a.toNat != 0xF0 || 0x90 ≤ b.toNat) && (a.toNat != 0xF4 || b.toNat ≤ 0x8F)

/-- The length of the encoded character a byte list starts with, zero if it starts with none. -/
def runeLen : Bytes → ℕ
  | [] => 0
  | a :: rest =>
    if a.toNat < 0x80 then 1
    else match rest with
      | [] => 0
      | b :: rest =>
        if isTwo a b then 2
        else match rest with
          | [] => 0
          | c :: rest =>
            if isThree a b c then 3
            else match rest with
              | [] => 0
              | d :: _ => if isFour a b c d then 4 else 0

inductive IsRune : Bytes → Prop where
  | one {a : UInt8} : a.toNat < 0x80 → IsRune [a]
  | two {a b : UInt8} : isTwo a b → IsRune [a, b]
  | three {a b c : UInt8} : isThree a b c → IsRune [a, b, c]
  | four {a b c d : UInt8} : isFour a b c d → IsRune [a, b, c, d]

theorem IsRune.length_pos (h : IsRune c) : 0 < c.length := by
  cases h <;> simp

theorem IsRune.runeLen_append (h : IsRune c) (s : Bytes) :
    runeLen (c ++ s) = c.length := by
  cases h with
  | one ha => simp [runeLen, ha]
  | @two a b h2 =>
    have hp := h2
    simp only [isTwo, Bool.and_eq_true, decide_eq_true_eq] at hp
    have ha : ¬ a.toNat < 0x80 := by omega
    simp [runeLen, h2, ha]
  | @three a b c h3 =>
    have hp := h3
    simp only [isThree, Bool.and_eq_true, decide_eq_true_eq] at hp
    have ha : ¬ a.toNat < 0x80 := by omega
    have h2 : isTwo a b = false := by
      simp only [isTwo, Bool.and_eq_false_iff, decide_eq_false_iff_not]
      omega
    simp [runeLen, h3, ha, h2]
  | @four a b c d h4 =>
    have hp := h4
    simp only [isFour, Bool.and_eq_true, decide_eq_true_eq] at hp
    have ha : ¬ a.toNat < 0x80 := by omega
    have h2 : isTwo a b = false := by
      simp only [isTwo, Bool.and_eq_false_iff, decide_eq_false_iff_not]
      omega
    have h3 : isThree a b c = false := by
      simp only [isThree, Bool.and_eq_false_iff, decide_eq_false_iff_not]
      omega
    simp [runeLen, h4, ha, h2, h3]

theorem isRune_take (h : 0 < runeLen s) : IsRune (s.take (runeLen s)) := by
  match s with
  | [] => simp [runeLen] at h
  | a :: rest =>
    by_cases ha : a.toNat < 0x80
    · simpa [runeLen, ha] using IsRune.one ha
    · match rest with
      | [] => simp [runeLen, ha] at h
      | b :: rest =>
        by_cases h2 : isTwo a b
        · simpa [runeLen, ha, h2] using IsRune.two h2
        · match rest with
          | [] => simp [runeLen, ha, h2] at h
          | c :: rest =>
            by_cases h3 : isThree a b c
            · simpa [runeLen, ha, h2, h3] using IsRune.three h3
            · match rest with
              | [] => simp [runeLen, ha, h2, h3] at h
              | d :: rest =>
                by_cases h4 : isFour a b c d
                · simpa [runeLen, ha, h2, h3, h4] using IsRune.four h4
                · simp [runeLen, ha, h2, h3, h4] at h

/-- The characters of a byte list, `none` for each ill-formed byte. The counter
skips the bytes of the character that was listed last. -/
def runesFrom : ℕ → Bytes → List (Option Bytes)
  | _, [] => []
  | k + 1, _ :: rest => runesFrom k rest
  | 0, b :: rest =>
    match runeLen (b :: rest) with
    | 0 => none :: runesFrom 0 rest
    | n + 1 => some ((b :: rest).take (n + 1)) :: runesFrom n rest

def runes (s : Bytes) : List (Option Bytes) := runesFrom 0 s

theorem runesFrom_eq_drop (k : ℕ) (s : Bytes) : runesFrom k s = runes (s.drop k) := by
  induction s generalizing k with
  | nil => cases k <;> simp [runes, runesFrom]
  | cons b s ih =>
    cases k with
    | zero => simp [runes]
    | succ k => simpa [runesFrom] using ih k

@[simp] theorem runes_nil : runes [] = [] := rfl

theorem runes_append_rune (h : IsRune c) (s : Bytes) :
    runes (c ++ s) = some c :: runes s := by
  have hl := h.runeLen_append s
  obtain ⟨b, c, rfl⟩ := exists_cons_of_length_pos h.length_pos
  have he : runes (b :: (c ++ s)) = some ((b :: (c ++ s)).take (c.length + 1)) ::
      runesFrom c.length (c ++ s) := by
    simp only [runes, runesFrom]
    rw [show runeLen (b :: (c ++ s)) = c.length + 1 from hl]
  rw [cons_append, he, runesFrom_eq_drop]
  simp

theorem runes_bad {b : UInt8} (h : runeLen (b :: s) = 0) :
    runes (b :: s) = none :: runes s := by
  simp [runes, runesFrom, h]

/-- Induction along the characters of a byte list. -/
theorem rune_induction {motive : Bytes → Prop} (nil : motive [])
    (rune : ∀ c s, IsRune c → motive s → motive (c ++ s))
    (bad : ∀ b s, runeLen (b :: s) = 0 → motive s → motive (b :: s)) (s : Bytes) : motive s := by
  induction hn : s.length using Nat.strong_induction_on generalizing s with
  | _ n ih =>
    match s with
    | [] => exact nil
    | b :: s =>
      rcases Nat.eq_zero_or_pos (runeLen (b :: s)) with h0 | hp
      · exact bad b s h0 (ih s.length (by simp [← hn]) s rfl)
      · have hc := isRune_take hp
        rw [← take_append_drop (runeLen (b :: s)) (b :: s)]
        refine rune _ _ hc (ih _ ?_ _ rfl)
        simp only [length_drop, ← hn, length_cons]
        omega

def valid (s : Bytes) : Bool := (runes s).all Option.isSome

def replacement : Bytes := [0xEF, 0xBF, 0xBD]

theorem isRune_replacement : IsRune replacement := .three (by decide)

def sanitize (s : Bytes) : Bytes := (runes s).flatMap fun r => r.getD replacement

@[simp] theorem sanitize_nil : sanitize [] = [] := rfl

theorem sanitize_append_rune (h : IsRune c) (s : Bytes) :
    sanitize (c ++ s) = c ++ sanitize s := by
  simp [sanitize, runes_append_rune h]

theorem sanitize_bad {b : UInt8} (h : runeLen (b :: s) = 0) :
    sanitize (b :: s) = replacement ++ sanitize s := by
  simp [sanitize, runes_bad h]

theorem valid_append_rune (h : IsRune c) (s : Bytes) : valid (c ++ s) = valid s := by
  simp [valid, runes_append_rune h]

theorem valid_bad {b : UInt8} (h : runeLen (b :: s) = 0) : valid (b :: s) = false := by
  simp [valid, runes_bad h]

theorem valid_sanitize (s : Bytes) : valid (sanitize s) = true := by
  induction s using rune_induction with
  | nil => rfl
  | rune c s hc ih => rw [sanitize_append_rune hc, valid_append_rune hc, ih]
  | bad b s hb ih => rw [sanitize_bad hb, valid_append_rune isRune_replacement, ih]

theorem sanitize_of_valid (h : valid s = true) : sanitize s = s := by
  induction s using rune_induction with
  | nil => rfl
  | rune c s hc ih =>
    rw [valid_append_rune hc] at h
    rw [sanitize_append_rune hc, ih h]
  | bad b s hb ih =>
    rw [valid_bad hb] at h
    cases h

@[simp] theorem sanitize_sanitize (s : Bytes) : sanitize (sanitize s) = sanitize s :=
  sanitize_of_valid (valid_sanitize s)

theorem valid_append {t : Bytes} (hs : valid s = true) (ht : valid t = true) :
    valid (s ++ t) = true := by
  induction s using rune_induction with
  | nil => exact ht
  | rune c s hc ih =>
    rw [valid_append_rune hc] at hs
    rw [append_assoc, valid_append_rune hc, ih hs]
  | bad b s hb ih =>
    rw [valid_bad hb] at hs
    cases hs

theorem valid_ascii (h : ∀ b ∈ s, b.toNat < 0x80) : valid s = true := by
  induction s with
  | nil => rfl
  | cons b s ih =>
    have hb := IsRune.one (h b mem_cons_self)
    have hs := valid_append_rune hb s
    rw [singleton_append] at hs
    rw [hs, ih fun c hc => h c (mem_cons_of_mem _ hc)]

theorem isRune_utf8EncodeChar (c : Char) : IsRune (String.utf8EncodeChar c) := by
  have hc : c.toNat < 0xD800 ∨ 0xDFFF < c.toNat ∧ c.toNat < 0x110000 := c.valid
  simp only [String.utf8EncodeChar, ← Char.toNat_val] at *
  generalize c.val.toNat = n at hc
  split_ifs with h1 h2 h3
  · refine .one ?_
    rw [UInt8.toNat_ofNat']
    omega
  · refine .two ?_
    simp only [isTwo, isTail, UInt8.toNat_ofNat', Bool.and_eq_true, decide_eq_true_eq]
    omega
  · refine .three ?_
    simp only [isThree, isTail, UInt8.toNat_ofNat', Bool.and_eq_true, Bool.or_eq_true,
      bne_iff_ne, decide_eq_true_eq]
    omega
  · refine .four ?_
    simp only [isFour, isTail, UInt8.toNat_ofNat', Bool.and_eq_true, Bool.or_eq_true,
      bne_iff_ne, decide_eq_true_eq]
    omega

/-! ## One byte characters -/

theorem IsRune.tail_ge (h : IsRune c) : ∀ b ∈ c.tail, 0x80 ≤ b.toNat := by
  cases h with
  | one => simp
  | two h =>
    simp only [isTwo, isTail, Bool.and_eq_true, decide_eq_true_eq] at h
    simp only [tail_cons, mem_singleton, forall_eq]
    omega
  | three h =>
    simp only [isThree, isTail, Bool.and_eq_true, decide_eq_true_eq] at h
    simp only [tail_cons, forall_mem_cons, not_mem_nil, false_implies, implies_true,
      and_true]
    omega
  | four h =>
    simp only [isFour, isTail, Bool.and_eq_true, decide_eq_true_eq] at h
    simp only [tail_cons, forall_mem_cons, not_mem_nil, false_implies, implies_true,
      and_true]
    omega

theorem runeLen_append_ascii {b a : UInt8} (ha : a.toNat < 0x80)
    (h : runeLen (b :: s) = 0) (t : Bytes) : runeLen (b :: s ++ a :: t) = 0 := by
  by_contra hne
  have hc := isRune_take (Nat.pos_of_ne_zero hne)
  generalize hlen : runeLen (b :: s ++ a :: t) = n at hc hne
  rcases Nat.lt_or_ge (s.length + 1) n with hlt | hge
  · obtain ⟨k, rfl⟩ : ∃ k, n = s.length + 1 + 1 + k := ⟨n - (s.length + 1 + 1), by omega⟩
    have hmem : a ∈ ((b :: s ++ a :: t).take (s.length + 1 + 1 + k)).tail := by
      rw [show s.length + 1 + 1 + k = (b :: s).length + (k + 1) by simp; omega,
        take_length_add_append]
      simp
    have := hc.tail_ge a hmem
    omega
  · have htake : (b :: s ++ a :: t).take n = (b :: s).take n :=
      take_append_of_le_length (by simpa using hge)
    rw [htake] at hc
    have hrune := hc.runeLen_append ((b :: s).drop n)
    rw [take_append_drop, h] at hrune
    have := hc.length_pos
    omega

theorem sanitize_append_ascii {a : UInt8} (ha : a.toNat < 0x80) (s t : Bytes) :
    sanitize (s ++ a :: t) = sanitize s ++ a :: sanitize t := by
  induction s using rune_induction with
  | nil => exact sanitize_append_rune (.one ha) t
  | rune c s hc ih =>
    rw [append_assoc, sanitize_append_rune hc, sanitize_append_rune hc, ih, append_assoc]
  | bad b s hb ih =>
    have hb' := runeLen_append_ascii ha hb t
    rw [cons_append] at hb' ⊢
    rw [sanitize_bad hb', sanitize_bad hb, ih, append_assoc]

theorem mem_of_mem_sanitize {a : UInt8} (ha : a.toNat < 0x80) (h : a ∈ sanitize s) :
    a ∈ s := by
  induction s using rune_induction with
  | nil => exact h
  | rune c s hc ih =>
    rw [sanitize_append_rune hc] at h
    rw [mem_append] at h ⊢
    exact h.imp_right ih
  | bad b s hb ih =>
    rw [sanitize_bad hb, mem_append] at h
    rcases h with h | h
    · have hbig : ∀ x ∈ replacement, 0x80 ≤ x.toNat := by simp [replacement]
      have := hbig a h
      omega
    · exact mem_cons_of_mem _ (ih h)

theorem sanitize_of_ascii (h : ∀ b ∈ sanitize s, b.toNat < 0x80) : sanitize s = s := by
  induction s using rune_induction with
  | nil => rfl
  | rune c s hc ih =>
    rw [sanitize_append_rune hc] at h ⊢
    rw [ih fun b hb => h b (mem_append_right c hb)]
  | bad b s hb ih =>
    rw [sanitize_bad hb] at h
    have := h 0xEF (by simp [replacement])
    simp at this

end Aok.Lib.Utf8
