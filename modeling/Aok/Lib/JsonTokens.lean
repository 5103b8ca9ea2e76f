import Aok.Lib.JsonRoundTrip

/-!
# Tokens under compaction

A string or a number that the parser has read is read again, as the same string or number,
from its compacted text, whatever follows it.
-/

namespace Aok.Lib.JsonValue
open Utf8 JsonText List

variable {s t rest : Bytes}
variable {b e : UInt8} {c l k n : Bytes}

/-! ## Between tokens -/

theorem compactFrom_skipSpace (s : Bytes) :
    compactFrom .outside 0 (skipSpace s) = compactFrom .outside 0 s := by
  induction s with
  | nil => rfl
  | cons b s ih =>
    by_cases hb : isSpace b
    · simpa [skipSpace, compactFrom, hb] using ih
    · rw [skipSpace_cons (by simpa using hb)]

theorem compactFrom_of_skipSpace (h : skipSpace s = b :: rest) :
    compactFrom .outside 0 s =
      b :: compactFrom (if b = 0x22 then .inside else .outside) 0 rest := by
  have hb : isSpace b = false := by
    have hne : s.dropWhile isSpace ≠ [] := by
      rw [← skipSpace, h]
      simp
    have hhead := head_dropWhile_not isSpace hne
    simpa only [show s.dropWhile isSpace = b :: rest from h, head_cons] using hhead
  rw [← compactFrom_skipSpace, h, compactFrom, if_neg (by simp [hb])]

theorem compactFrom_of_skipSpace_nil (h : skipSpace s = []) : compactFrom .outside 0 s = [] := by
  rw [← compactFrom_skipSpace, h]
  rfl

def IsToken (t : Bytes) : Prop := ∀ b ∈ t, isSpace b = false ∧ b ≠ 0x22

instance (t : Bytes) : Decidable (IsToken t) :=
  inferInstanceAs (Decidable (∀ b ∈ t, isSpace b = false ∧ b ≠ 0x22))

theorem compactFrom_token (h : IsToken t) (s : Bytes) :
    compactFrom .outside 0 (t ++ s) = t ++ compactFrom .outside 0 s := by
  induction t with
  | nil => rfl
  | cons b t ih =>
    obtain ⟨hspace, hquote⟩ := h b mem_cons_self
    rw [cons_append, compactFrom, if_neg (by simp [hspace]), if_neg hquote,
      ih fun x hx => h x (mem_cons_of_mem _ hx), cons_append]

/-! ## Strings -/

/-- The text, with its closing quote, is read as the string whatever follows. -/
def ReadsString (c t : Bytes) : Prop := ∀ x, readString (t ++ x) = some (c, x)

theorem isPlain_of_hexVal (h : hexVal b ≠ none) : isPlain b = true := by
  by_contra hb
  simp only [isPlain, Bool.not_eq_true, Bool.and_eq_false_iff, bne_eq_false_iff_eq] at hb
  rcases hb with ((((rfl | rfl) | rfl) | rfl) | rfl) | rfl <;> exact h (by decide)

theorem isPlain_of_hex4 {a c : UInt8} {r : ℕ} (h : hex4 a b c e = some r) :
    ∀ x ∈ [a, b, c, e], isPlain x = true := by
  simp only [hex4, Option.bind_eq_bind, Option.bind_eq_some_iff] at h
  obtain ⟨w, ha, x, hb, y, hc, z, he, -⟩ := h
  intro u hu
  refine isPlain_of_hexVal ?_
  simp only [mem_cons, not_mem_nil, or_false] at hu
  rcases hu with rfl | rfl | rfl | rfl
  · simp [ha]
  · simp [hb]
  · simp [hc]
  · simp [he]

theorem compactFrom_unicode {a c : UInt8} {r : ℕ} (h : hex4 a b c e = some r) (s : Bytes) :
    compactFrom .inside 0 (0x5C :: 0x75 :: a :: b :: c :: e :: s) =
      0x5C :: 0x75 :: a :: b :: c :: e :: compactFrom .inside 0 s :=
  compactFrom_escape (isPlain_of_hex4 h) s

theorem exists_of_codeUnit {r : ℕ} (h : codeUnit s = some r) :
    ∃ a b c e l, s = 0x75 :: a :: b :: c :: e :: l ∧ hex4 a b c e = some r := by
  match s, h with
  | u :: a :: b :: c :: e :: l, h =>
    dsimp only [codeUnit] at h
    split_ifs at h with hu
    exact ⟨a, b, c, e, l, by rw [hu], h⟩

theorem exists_of_lowSurrogate {q : ℕ} (h : lowSurrogate s = some q) :
    ∃ a b c e l, s = 0x5C :: 0x75 :: a :: b :: c :: e :: l ∧ hex4 a b c e = some q := by
  match s, h with
  | x :: l, h =>
    dsimp only [lowSurrogate] at h
    split_ifs at h with hx
    obtain ⟨hunit, -⟩ := Option.filter_eq_some_iff.mp h
    obtain ⟨a, b, c, e, l', rfl, hhex⟩ := exists_of_codeUnit hunit
    exact ⟨a, b, c, e, l', by rw [hx], hhex⟩

theorem lowSurrogate_eq_none (h : b = 0x5C → ∀ r, codeUnit l ≠ some r) :
    lowSurrogate (b :: l) = none := by
  dsimp only [lowSurrogate]
  split_ifs with hb
  · cases hu : codeUnit l with
    | none => rfl
    | some r => exact absurd hu (h hb r)
  · rfl

/-- A string is read from its compacted text, which shows the same surrogate in front. -/
structure ReadsAs (s c rest t : Bytes) : Prop where
  compacted : compactFrom .inside 0 s = t ++ compactFrom .outside 0 rest
  reads : ReadsString c t
  low : ∀ x, lowSurrogate (t ++ x) = lowSurrogate s

theorem ReadsString.push {c' t u : Bytes} (h : ReadsString c t)
    (hu : ∀ x, readString (u ++ (t ++ x)) = JsonText.push c' (readString (t ++ x))) :
    ReadsString (c' ++ c) (u ++ t) := by
  intro x
  rw [append_assoc, hu, h x, push_some]

theorem readsAs_simple {y : UInt8} {t : Bytes} (he : simpleEscape e = some y) (hu : e ≠ 0x75)
    (h : ReadsAs l c rest t) : ReadsAs (0x5C :: e :: l) ([y] ++ c) rest ([0x5C, e] ++ t) where
  compacted := by
    rw [compactFrom, if_pos rfl, compactFrom, h.compacted]
    rfl
  reads := h.reads.push fun x => readString_short he hu _
  low := by
    have hlow : ∀ z, lowSurrogate (0x5C :: e :: z) = none := fun z =>
      lowSurrogate_eq_none fun _ r hr => by
        obtain ⟨_, _, _, _, _, hz, -⟩ := exists_of_codeUnit hr
        exact hu (List.cons.inj hz).1
    intro x
    rw [hlow]
    exact hlow _

theorem readsAs_unicode {a c : UInt8} {r : ℕ} {y t : Bytes} (hr : hex4 a b c e = some r)
    (h : ReadsAs l k rest t)
    (hread : ∀ x, readEscape (0x75 :: a :: b :: c :: e :: (t ++ x)) = some (y, 5)) :
    ReadsAs (0x5C :: 0x75 :: a :: b :: c :: e :: l) (y ++ k) rest
      ([0x5C, 0x75, a, b, c, e] ++ t) where
  compacted := by
    rw [compactFrom_unicode hr, h.compacted]
    rfl
  reads := h.reads.push fun x => readString_escape (hread x)
  low := fun x => by simp [lowSurrogate, codeUnit]

theorem readsAs_pair {a c a' b' c' e' : UInt8} {r q : ℕ} {y t : Bytes}
    (hr : hex4 a b c e = some r) (hq : hex4 a' b' c' e' = some q) (h : ReadsAs l k rest t)
    (hread : ∀ x, readEscape (0x75 :: a :: b :: c :: e :: 0x5C :: 0x75 :: a' :: b' :: c' :: e' ::
      (t ++ x)) = some (y, 11)) :
    ReadsAs (0x5C :: 0x75 :: a :: b :: c :: e :: 0x5C :: 0x75 :: a' :: b' :: c' :: e' :: l) (y ++ k)
      rest ([0x5C, 0x75, a, b, c, e, 0x5C, 0x75, a', b', c', e'] ++ t) where
  compacted := by
    rw [compactFrom_unicode hr, compactFrom_unicode hq, h.compacted]
    rfl
  reads := h.reads.push fun x => readString_escape (hread x)
  low := fun x => by simp [lowSurrogate, codeUnit]

theorem readsAs_html {t : Bytes} (hb : b = 0x3C ∨ b = 0x3E ∨ b = 0x26)
    (h : ReadsAs l k rest t) : ReadsAs (b :: l) ([b] ++ k) rest (escapeByte b ++ t) where
  compacted := by
    rw [compactFrom, if_neg, if_neg, if_pos hb, h.compacted, append_assoc]
    all_goals rcases hb with rfl | rfl | rfl <;> decide
  reads := h.reads.push fun x => readString_escapeByte (by rcases hb with rfl | rfl | rfl <;> decide) _
  low := fun x => by
    rcases hb with rfl | rfl | rfl <;> simp [escapeByte, lowSurrogate, codeUnit] <;> decide

theorem readsAs_separator {z : UInt8} {t : Bytes} (hz : z = 0xA8 ∨ z = 0xA9)
    (h : ReadsAs l k rest t) : ReadsAs (0xE2 :: 0x80 :: z :: l) ([0xE2, 0x80, z] ++ k) rest
      ([0x5C, 0x75, 0x32, 0x30, 0x32, hexDigit (z.toNat % 16)] ++ t) where
  compacted := by
    have htail : isSeparatorTail (0x80 :: z :: l) = true := by
      rcases hz with rfl | rfl <;> rfl
    simp [compactFrom, htail, h.compacted]
  reads := h.reads.push fun x => by
    rcases hz with rfl | rfl
    · exact readString_unicode (show hex4 0x32 0x30 0x32 0x38 = some 0x2028 by decide) (by decide) _
    · exact readString_unicode (show hex4 0x32 0x30 0x32 0x39 = some 0x2029 by decide) (by decide) _
  low := fun x => by
    rcases hz with rfl | rfl <;> simp [lowSurrogate, codeUnit] <;> decide

theorem readsAs_plain {t : Bytes} (hq : b ≠ 0x22) (hs : b ≠ 0x5C)
    (hc : 0x20 ≤ b.toNat) (hb : ¬ (b = 0x3C ∨ b = 0x3E ∨ b = 0x26))
    (hsep : ¬ (b = 0xE2 ∧ isSeparatorTail l)) (h : ReadsAs l k rest t) :
    ReadsAs (b :: l) ([b] ++ k) rest ([b] ++ t) where
  compacted := by
    rw [compactFrom, if_neg hs, if_neg hq, if_neg hb, if_neg hsep, h.compacted]
    rfl
  reads := h.reads.push fun x => readString_plain hq hs hc _
  low := fun x => by
    have hlow : ∀ z, lowSurrogate (b :: z) = none := fun z =>
      lowSurrogate_eq_none fun hb => absurd hb hs
    rw [hlow]
    exact hlow _

theorem exists_of_isSeparatorTail (h : isSeparatorTail s = true) :
    ∃ z l, s = 0x80 :: z :: l ∧ (z = 0xA8 ∨ z = 0xA9) := by
  match s, h with
  | a :: z :: l, h =>
    simp only [isSeparatorTail, Bool.and_eq_true, Bool.or_eq_true, beq_iff_eq] at h
    exact ⟨z, l, by rw [h.1], h.2⟩

theorem exists_of_push {r : Option (Bytes × Bytes)} (h : push c r = some (k, rest)) :
    ∃ k', r = some (k', rest) ∧ k = c ++ k' := by
  obtain ⟨⟨k', y⟩, hr, heq⟩ := Option.map_eq_some_iff.mp h
  cases heq
  exact ⟨k', hr, rfl⟩

/-- The shapes of an escape, each with the texts behind it for which it is read the same. -/
inductive Escape (y : Bytes) : ℕ → Bytes → Prop where
  | simple {e z : UInt8} {l : Bytes} : e ≠ 0x75 → simpleEscape e = some z → y = [z] →
    Escape y 1 (e :: l)
  | unit {a b c e : UInt8} {r : ℕ} {l : Bytes} : hex4 a b c e = some r →
    (∀ x, lowSurrogate x = lowSurrogate l →
      readEscape (0x75 :: a :: b :: c :: e :: x) = some (y, 5)) →
    Escape y 5 (0x75 :: a :: b :: c :: e :: l)
  | pair {a b c e a' b' c' e' : UInt8} {r q : ℕ} {l : Bytes} : hex4 a b c e = some r →
    hex4 a' b' c' e' = some q →
    (∀ x, readEscape (0x75 :: a :: b :: c :: e :: 0x5C :: 0x75 :: a' :: b' :: c' :: e' :: x) =
      some (y, 11)) →
    Escape y 11 (0x75 :: a :: b :: c :: e :: 0x5C :: 0x75 :: a' :: b' :: c' :: e' :: l)

theorem escape_of_readEscape {y : Bytes} {n : ℕ} (h : readEscape l = some (y, n)) :
    Escape y n l := by
  match l, h with
  | e :: l, h =>
    by_cases hu : e = 0x75
    · subst hu
      cases hr : codeUnit (0x75 :: l) with
      | none => simp [readEscape, hr] at h
      | some r =>
        obtain ⟨a, b, c, e, l, hl, hhex⟩ := exists_of_codeUnit hr
        cases hl
        have hread : ∀ x, readEscape (0x75 :: a :: b :: c :: e :: x) =
            if 0xD800 ≤ r ∧ r ≤ 0xDFFF then
              (lowSurrogate x).elim (some (replacement, 5)) fun q =>
                if r < 0xDC00 then
                  some (encodePoint (0x10000 + (r - 0xD800) * 1024 + (q - 0xDC00)), 11)
                else some (replacement, 5)
            else some (encodePoint r, 5) := by
          intro x
          cases hx : lowSurrogate x <;>
            simp only [readEscape, codeUnit, hhex, hx, if_true, drop_succ_cons, drop_zero,
              Option.elim]
        have hsame : n = 5 → Escape y n (0x75 :: a :: b :: c :: e :: l) := by
          rintro rfl
          exact .unit hhex fun x hx => by rw [hread, hx, ← hread, h]
        rw [hread] at h
        split at h
        next hsur =>
          cases hq : lowSurrogate l with
          | none =>
            rw [hq] at h
            exact hsame (Prod.mk.inj (Option.some.inj h)).2.symm
          | some q =>
            simp only [hq, Option.elim] at h
            split at h
            next hlt =>
              obtain ⟨rfl, rfl⟩ := Prod.mk.inj (Option.some.inj h)
              obtain ⟨a', b', c', e', l, hl, hhex'⟩ := exists_of_lowSurrogate hq
              cases hl
              refine .pair hhex hhex' fun x => ?_
              have hq' : lowSurrogate (0x5C :: 0x75 :: a' :: b' :: c' :: e' :: x) = some q := by
                rw [← hq]
                rfl
              rw [hread, if_pos hsur, hq']
              exact if_pos hlt
            · exact hsame (Prod.mk.inj (Option.some.inj h)).2.symm
        · exact hsame (Prod.mk.inj (Option.some.inj h)).2.symm
    · simp only [readEscape, if_neg hu] at h
      obtain ⟨z, hz, heq⟩ := Option.map_eq_some_iff.mp h
      cases heq
      exact .simple hu hz rfl

/-- What is read as a string is read as the same string once it is compacted. -/
theorem exists_readsAs (h : readString s = some (c, rest)) : ∃ t, ReadsAs s c rest t := by
  induction hn : s.length using Nat.strong_induction_on generalizing s c with
  | _ n ih =>
    subst hn
    match s, h with
    | b :: l, h =>
      by_cases hq : b = 0x22
      · subst hq
        rw [readString_close] at h
        cases h
        exact ⟨[0x22], by simp [compactFrom], fun x => readString_close x, fun x => rfl⟩
      by_cases hs : b = 0x5C
      · subst hs
        cases he : readEscape l with
        | none => simp [readString, readFrom, he] at h
        | some p =>
          obtain ⟨y, n⟩ := p
          rw [readString_escape he] at h
          obtain ⟨k, hk, rfl⟩ := exists_of_push h
          obtain ⟨t, ht⟩ := ih _ (by simp) hk rfl
          cases escape_of_readEscape he with
          | simple hu hz hy => exact ⟨_, hy ▸ readsAs_simple hz hu ht⟩
          | unit hhex hread => exact ⟨_, readsAs_unicode hhex ht fun x => hread _ (ht.low x)⟩
          | pair hhex hhex' hread => exact ⟨_, readsAs_pair hhex hhex' ht fun x => hread _⟩
      by_cases hc : b.toNat < 0x20
      · simp [readString, readFrom, hq, hs, hc] at h
      have hplain : ∀ l, readString (b :: l) = push [b] (readString l) :=
        fun l => readString_plain hq hs (not_lt.mp hc) l
      by_cases hsep : b = 0xE2 ∧ isSeparatorTail l
      · obtain ⟨rfl, htail⟩ := hsep
        obtain ⟨z, l, rfl, hz⟩ := exists_of_isSeparatorTail htail
        have hread : readString (0xE2 :: 0x80 :: z :: l) = push [0xE2, 0x80, z] (readString l) := by
          refine readString_high (c := [0xE2, 0x80, z]) (fun x hx => ?_) l
          simp only [mem_cons, not_mem_nil, or_false] at hx
          rcases hx with rfl | rfl | rfl
          · decide
          · decide
          · rcases hz with rfl | rfl <;> decide
        rw [hread] at h
        obtain ⟨k, hk, rfl⟩ := exists_of_push h
        obtain ⟨t, ht⟩ := ih l.length (by simp; omega) hk rfl
        exact ⟨_, readsAs_separator hz ht⟩
      · rw [hplain] at h
        obtain ⟨k, hk, rfl⟩ := exists_of_push h
        obtain ⟨t, ht⟩ := ih l.length (by simp) hk rfl
        by_cases hb : b = 0x3C ∨ b = 0x3E ∨ b = 0x26
        · exact ⟨_, readsAs_html hb ht⟩
        · exact ⟨_, readsAs_plain hq hs (not_lt.mp hc) hb hsep ht⟩

/-! ## Numbers -/

theorem IsToken.append {t t' : Bytes} (h : IsToken t) (h' : IsToken t') : IsToken (t ++ t') := by
  intro b hb
  rcases mem_append.mp hb with hb | hb
  · exact h b hb
  · exact h' b hb

theorem isToken_digits {ds : Bytes} (h : ∀ b ∈ ds, isDigit b = true) : IsToken ds := by
  intro b hb
  have hd := h b hb
  constructor
  · by_contra hs
    simp only [isSpace, Bool.not_eq_false, Bool.or_eq_true, beq_iff_eq] at hs
    rcases hs with ((rfl | rfl) | rfl) | rfl <;> exact absurd hd (by decide)
  · rintro rfl
    exact absurd hd (by decide)

theorem isToken_singleton (h : isSpace b = false ∧ b ≠ 0x22) : IsToken [b] := by
  intro x hx
  rwa [mem_singleton.mp hx]

def Past (p : UInt8 → Prop) (x : Bytes) : Prop := ∀ b ∈ x.head?, ¬ p b

/-- A scanner has read a token and reads it again before any text past it. -/
structure Lexed (f : Bytes → Option (Bytes × Bytes)) (p : UInt8 → Prop) (s n rest : Bytes) :
    Prop where
  eq_append : s = n ++ rest
  isToken : IsToken n
  again : ∀ x, Past p x → f (n ++ x) = some (n, x)

theorem lexed_digits {ds : Bytes} (h : readDigits s = some (ds, rest)) :
    Lexed readDigits (fun b => isDigit b = true) s ds rest := by
  unfold readDigits at h
  split at h
  · cases h
  next hne =>
    obtain ⟨rfl, rfl⟩ := Prod.mk.inj (Option.some.inj h)
    have hall : ∀ b ∈ s.takeWhile isDigit, isDigit b = true := fun b hb => mem_takeWhile_imp hb
    refine ⟨(takeWhile_append_dropWhile).symm, isToken_digits hall, fun x hx => ?_⟩
    obtain ⟨htake, hdrop⟩ : x.takeWhile isDigit = [] ∧ x.dropWhile isDigit = x := by
      cases x with
      | nil => exact ⟨rfl, rfl⟩
      | cons b x =>
        have hb : isDigit b = false := by simpa using hx b rfl
        simp [hb]
    unfold readDigits
    rw [takeWhile_append_of_pos hall, dropWhile_append_of_pos hall, htake, hdrop,
      append_nil]
    split
    next hnil => exact absurd hnil hne
    · rfl

theorem Lexed.push {f g : Bytes → Option (Bytes × Bytes)} {p : UInt8 → Prop}
    (h : Lexed f p s n rest) (hc : IsToken c) (hg : ∀ x, g (c ++ x) = JsonText.push c (f x)) :
    Lexed g p (c ++ s) (c ++ n) rest where
  eq_append := by rw [h.eq_append, append_assoc]
  isToken := hc.append h.isToken
  again := fun x hx => by rw [append_assoc, hg, h.again x hx, push_some]

theorem lexed_integer (h : readInteger s = some (n, rest)) :
    Lexed readInteger (fun b => isDigit b = true) s n rest := by
  match s, h with
  | b :: l, h =>
    dsimp only [readInteger] at h
    split at h
    next hb =>
      cases h
      exact ⟨rfl, isToken_singleton (by rw [hb]; decide), fun x _ => by simp [readInteger, hb]⟩
    next hb =>
      have hd := lexed_digits h
      refine ⟨hd.eq_append, hd.isToken, fun x hx => ?_⟩
      obtain ⟨n', rfl⟩ : ∃ n', n = b :: n' := by
        cases n with
        | nil =>
          have hnil : readDigits ([] ++ []) = some ([], []) := hd.again [] (by simp [Past])
          simp [readDigits] at hnil
        | cons c n' => exact ⟨n', by rw [(List.cons.inj hd.eq_append).1]⟩
      rw [cons_append, readInteger, if_neg hb]
      exact hd.again x hx

theorem lexed_fraction (h : readFraction s = some (n, rest)) :
    Lexed readFraction (fun b => isDigit b = true ∨ b = 0x2E) s n rest ∧
      ∀ b ∈ n.head?, b = 0x2E := by
  have hempty : ∀ x, Past (fun b => isDigit b = true ∨ b = 0x2E) x →
      readFraction ([] ++ x) = some ([], x) := by
    intro x hx
    cases x with
    | nil => rfl
    | cons b x =>
      have hb : b ≠ 0x2E := fun hb => hx b rfl (.inr hb)
      simp [readFraction, hb]
  cases s with
  | nil =>
    cases h
    exact ⟨⟨rfl, by simp [IsToken], hempty⟩, by simp⟩
  | cons b l =>
    dsimp only [readFraction] at h
    split at h
    next hb =>
      subst hb
      obtain ⟨n, hn, rfl⟩ := exists_of_push h
      have hd := (lexed_digits hn).push (g := readFraction) (c := [0x2E])
        (isToken_singleton (by decide)) fun x => by simp [readFraction]
      exact ⟨⟨hd.eq_append, hd.isToken, fun x hx => hd.again x fun b hb hbd => hx b hb (.inl hbd)⟩,
        by simp⟩
    · cases h
      exact ⟨⟨rfl, by simp [IsToken], hempty⟩, by simp⟩

theorem lexed_exponent (h : readExponent s = some (n, rest)) :
    Lexed readExponent (fun b => isDigit b = true ∨ b = 0x65 ∨ b = 0x45) s n rest ∧
      ∀ b ∈ n.head?, b = 0x65 ∨ b = 0x45 := by
  have hempty : ∀ x, Past (fun b => isDigit b = true ∨ b = 0x65 ∨ b = 0x45) x →
      readExponent ([] ++ x) = some ([], x) := by
    intro x hx
    cases x with
    | nil => rfl
    | cons b x =>
      have hb : ¬ (b = 0x65 ∨ b = 0x45) := fun hb => hx b rfl (.inr hb)
      simp [readExponent, hb]
  cases s with
  | nil =>
    cases h
    exact ⟨⟨rfl, by simp [IsToken], hempty⟩, by simp⟩
  | cons b l =>
    by_cases hb : b = 0x65 ∨ b = 0x45
    · have htoken : IsToken [b] := isToken_singleton (by rcases hb with rfl | rfl <;> decide)
      cases l with
      | nil => simp [readExponent, hb] at h
      | cons sign l =>
        by_cases hsign : sign = 0x2B ∨ sign = 0x2D
        · simp only [readExponent, if_pos hb, if_pos hsign] at h
          obtain ⟨n, hn, rfl⟩ := exists_of_push h
          have htoken' : IsToken [sign] :=
            isToken_singleton (by rcases hsign with rfl | rfl <;> decide)
          have hd := (lexed_digits hn).push (g := readExponent) (c := [b, sign])
            (htoken.append htoken') fun x => by simp [readExponent, hb, hsign]
          exact ⟨⟨hd.eq_append, hd.isToken, fun x hx => hd.again x fun c hc hcd => hx c hc (.inl hcd)⟩,
            by simpa using hb⟩
        · simp only [readExponent, if_pos hb, if_neg hsign] at h
          obtain ⟨n, hn, rfl⟩ := exists_of_push h
          have hd := lexed_digits hn
          refine ⟨⟨by rw [hd.eq_append]; rfl, htoken.append hd.isToken, fun x hx => ?_⟩,
            by simpa using hb⟩
          have hagain := hd.again x fun c hc hcd => hx c hc (.inl hcd)
          cases n with
          | nil =>
            have hnil : readDigits ([] ++ []) = some ([], []) := hd.again [] (by simp [Past])
            simp [readDigits] at hnil
          | cons c n' =>
            obtain rfl : sign = c := (List.cons.inj hd.eq_append).1
            simp only [cons_append, nil_append, readExponent, if_pos hb, if_neg hsign]
            rw [← cons_append, hagain, push_some]
            rfl
    · simp only [readExponent, if_neg hb] at h
      cases h
      exact ⟨⟨rfl, by simp [IsToken], hempty⟩, by simp⟩

def IsNumeric (b : UInt8) : Prop := isDigit b = true ∨ b = 0x2E ∨ b = 0x65 ∨ b = 0x45

theorem Stops.past (h : Stops rest) : Past IsNumeric rest := by
  intro b hb hnum
  rcases h b hb with rfl | rfl | rfl <;> exact absurd hnum (by simp [IsNumeric]; decide)

theorem lexed_unsigned (h : readUnsigned s = some (n, rest)) :
    Lexed readUnsigned IsNumeric s n rest := by
  simp only [readUnsigned, Option.bind_eq_bind, Option.bind_eq_some_iff, Option.pure_def,
    Option.some.injEq, Prod.mk.injEq, Prod.exists] at h
  obtain ⟨i, s₁, hi, f, s₂, hf, e, s₃, he, rfl, rfl⟩ := h
  have hi := lexed_integer hi
  obtain ⟨hf, hfhead⟩ := lexed_fraction hf
  obtain ⟨he, hehead⟩ := lexed_exponent he
  refine ⟨?_, (hi.isToken.append hf.isToken).append he.isToken, fun x hx => ?_⟩
  · rw [hi.eq_append, hf.eq_append, he.eq_append]
    simp
  · -- what follows each part is the next part or the text past the number
    have hx₂ : Past (fun b => isDigit b = true ∨ b = 0x2E) (e ++ x) := by
      intro b hb hbad
      cases e with
      | nil => exact hx b hb (hbad.imp id .inl)
      | cons c e =>
        cases hb
        rcases hehead b rfl with rfl | rfl <;> exact absurd hbad (by decide)
    have hx₁ : Past (fun b => isDigit b = true) (f ++ (e ++ x)) := by
      intro b hb hbad
      cases f with
      | nil => exact hx₂ b hb (.inl hbad)
      | cons c f =>
        cases hb
        rw [hfhead b rfl] at hbad
        exact absurd hbad (by decide)
    have hx₃ : Past (fun b => isDigit b = true ∨ b = 0x65 ∨ b = 0x45) x :=
      fun b hb hbad => hx b hb (hbad.imp id .inr)
    have hread : readUnsigned (i ++ (f ++ (e ++ x))) = some (i ++ f ++ e, x) := by
      simp [readUnsigned, hi.again _ hx₁, hf.again _ hx₂, he.again _ hx₃]
    simpa using hread

theorem lexed_number (h : readNumber s = some (n, rest)) :
    Lexed readNumber IsNumeric s n rest := by
  match s, h with
  | b :: l, h =>
    dsimp only [readNumber] at h
    split at h
    next hb =>
      subst hb
      obtain ⟨n, hn, rfl⟩ := exists_of_push h
      exact (lexed_unsigned hn).push (c := [0x2D]) (isToken_singleton (by decide))
        fun x => by simp [readNumber]
    next hb =>
      have hu := lexed_unsigned h
      refine ⟨hu.eq_append, hu.isToken, fun x hx => ?_⟩
      have hagain := hu.again x hx
      cases n with
      | nil =>
        have hnil : readUnsigned ([] ++ []) = some ([], []) := hu.again [] (by simp [Past])
        simp [readUnsigned, readInteger] at hnil
      | cons c n' =>
        obtain rfl : b = c := (List.cons.inj hu.eq_append).1
        rw [cons_append, readNumber, if_neg hb]
        exact hagain

end Aok.Lib.JsonValue
