import Aok.Lib.Utf8

/-!
# JSON text of strings, numbers and raw messages

`quote` writes a byte string as a JSON string with HTML escaping: `<`, `>`, `&`
and the line separators become escapes, an ill-formed byte becomes the six
characters of an escaped U+FFFD, and every other character is copied. `readString`
reads a string up to its closing quote. A string that was quoted is read back as
its sanitized form with nothing of the following text consumed, so on well-formed
strings quoting is injective and self-delimiting. `compact` removes the white space
between tokens of a JSON text and escapes inside its strings as `quote` does.
-/

namespace Aok.Lib.JsonText
open Utf8 List

variable {b : UInt8} {c x s y : Bytes} {l l' : List Bytes} {name : String}

def lit (s : String) : Bytes := s.toList.flatMap String.utf8EncodeChar

theorem valid_lit (s : String) : valid (lit s) = true := by
  unfold lit
  induction s.toList with
  | nil => rfl
  | cons c l ih => rw [flatMap_cons, valid_append_rune (isRune_utf8EncodeChar c), ih]

def hexDigit (n : ℕ) : UInt8 := if n < 10 then UInt8.ofNat (48 + n) else UInt8.ofNat (87 + n)

/-- `\u00xx` for one byte. -/
def escapeByte (b : UInt8) : Bytes :=
  [0x5C, 0x75, 0x30, 0x30, hexDigit (b.toNat / 16), hexDigit (b.toNat % 16)]

def encodeByte (b : UInt8) : Bytes :=
  if b = 0x22 ∨ b = 0x5C then [0x5C, b]
  else if b = 0x08 then [0x5C, 0x62]
  else if b = 0x0C then [0x5C, 0x66]
  else if b = 0x0A then [0x5C, 0x6E]
  else if b = 0x0D then [0x5C, 0x72]
  else if b = 0x09 then [0x5C, 0x74]
  else if b.toNat < 0x20 ∨ b = 0x3C ∨ b = 0x3E ∨ b = 0x26 then escapeByte b
  else [b]

/-- The text of one well-formed character; the line separators are the only escaped ones
outside ASCII. -/
def encodeRune : Bytes → Bytes
  | [b] => encodeByte b
  | c =>
    if c = [0xE2, 0x80, 0xA8] then [0x5C, 0x75, 0x32, 0x30, 0x32, 0x38]
    else if c = [0xE2, 0x80, 0xA9] then [0x5C, 0x75, 0x32, 0x30, 0x32, 0x39]
    else c

def escapedReplacement : Bytes := [0x5C, 0x75, 0x66, 0x66, 0x66, 0x64]

def quoteBody (s : Bytes) : Bytes :=
  (runes s).flatMap fun
    | some c => encodeRune c
    | none => escapedReplacement

def quote (s : Bytes) : Bytes := 0x22 :: (quoteBody s ++ [0x22])

/-! ## Reading strings -/

def hexVal (b : UInt8) : Option ℕ :=
  if 0x30 ≤ b.toNat ∧ b.toNat ≤ 0x39 then some (b.toNat - 0x30)
  else if 0x61 ≤ b.toNat ∧ b.toNat ≤ 0x66 then some (b.toNat - 0x57)
  else if 0x41 ≤ b.toNat ∧ b.toNat ≤ 0x46 then some (b.toNat - 0x37)
  else none

def hex4 (a b c d : UInt8) : Option ℕ := do
  let a ← hexVal a
  let b ← hexVal b
  let c ← hexVal c
  let d ← hexVal d
  pure (((a * 16 + b) * 16 + c) * 16 + d)

def encodePoint (r : ℕ) : Bytes :=
  if r < 0x80 then [UInt8.ofNat r]
  else if r < 0x800 then [UInt8.ofNat (0xC0 + r / 64), UInt8.ofNat (0x80 + r % 64)]
  else if r < 0x10000 then
    [UInt8.ofNat (0xE0 + r / 4096), UInt8.ofNat (0x80 + r / 64 % 64), UInt8.ofNat (0x80 + r % 64)]
  else
    [UInt8.ofNat (0xF0 + r / 262144), UInt8.ofNat (0x80 + r / 4096 % 64),
      UInt8.ofNat (0x80 + r / 64 % 64), UInt8.ofNat (0x80 + r % 64)]

def simpleEscape (e : UInt8) : Option UInt8 :=
  if e = 0x22 ∨ e = 0x5C ∨ e = 0x2F then some e
  else if e = 0x62 then some 0x08
  else if e = 0x66 then some 0x0C
  else if e = 0x6E then some 0x0A
  else if e = 0x72 then some 0x0D
  else if e = 0x74 then some 0x09
  else none

def push (c : Bytes) (r : Option (Bytes × Bytes)) : Option (Bytes × Bytes) :=
  r.map fun p => (c ++ p.1, p.2)

/-- The code unit of the `uxxxx` a text starts with. -/
def codeUnit : Bytes → Option ℕ
  | u :: a :: b :: c :: d :: _ => if u = 0x75 then hex4 a b c d else none
  | _ => none

/-- The low surrogate of the `\uxxxx` a text starts with. -/
def lowSurrogate : Bytes → Option ℕ
  | s :: rest => if s = 0x5C then (codeUnit rest).filter (fun q => 0xDC00 ≤ q && q ≤ 0xDFFF) else none
  | [] => none

/-- What the escape after a backslash stands for and how many bytes it takes. An unpaired
surrogate stands for U+FFFD. -/
def readEscape : Bytes → Option (Bytes × ℕ)
  | [] => none
  | e :: rest =>
    if e = 0x75 then
      match codeUnit (e :: rest) with
      | none => none
      | some r =>
        if 0xD800 ≤ r ∧ r ≤ 0xDFFF then
          match lowSurrogate (rest.drop 4) with
          | some q =>
            if r < 0xDC00 then
              some (encodePoint (0x10000 + (r - 0xD800) * 1024 + (q - 0xDC00)), 11)
            else some (replacement, 5)
          | none => some (replacement, 5)
        else some (encodePoint r, 5)
    else (simpleEscape e).map fun x => ([x], 1)

/-- Reads a string up to its closing quote. The counter skips the bytes of the escape
that was read last. -/
def readFrom : ℕ → Bytes → Option (Bytes × Bytes)
  | _, [] => none
  | k + 1, _ :: rest => readFrom k rest
  | 0, b :: rest =>
    if b = 0x22 then some ([], rest)
    else if b = 0x5C then
      match readEscape rest with
      | none => none
      | some (c, n) => push c (readFrom n rest)
    else if b.toNat < 0x20 then none
    else push [b] (readFrom 0 rest)

/-- The bytes of a string after its opening quote with the escapes resolved, and the
text after its closing quote. -/
def readString (s : Bytes) : Option (Bytes × Bytes) := readFrom 0 s

example : readString (lit "a\\u0041\\ud83d\\ude00\"x") = some (lit "aA😀", lit "x") := by decide

theorem readFrom_eq_drop (k : ℕ) (s : Bytes) : readFrom k s = readString (s.drop k) := by
  induction s generalizing k with
  | nil => cases k <;> simp [readString, readFrom]
  | cons b s ih =>
    cases k with
    | zero => simp [readString]
    | succ k => simpa [readFrom] using ih k

theorem readString_close (rest : Bytes) : readString (0x22 :: rest) = some ([], rest) := by
  simp [readString, readFrom]

theorem readString_plain (hq : b ≠ 0x22) (hs : b ≠ 0x5C) (hc : 0x20 ≤ b.toNat)
    (rest : Bytes) : readString (b :: rest) = push [b] (readString rest) := by
  simp [readString, readFrom, hq, hs, hc]

theorem readString_escape {rest : Bytes} {n : ℕ} (h : readEscape rest = some (c, n)) :
    readString (0x5C :: rest) = push c (readString (rest.drop n)) := by
  simp [readString, readFrom, h, readFrom_eq_drop n]

@[simp] theorem push_push (c d : Bytes) (r : Option (Bytes × Bytes)) :
    push c (push d r) = push (c ++ d) r := by
  cases r <;> simp [push]

@[simp] theorem push_some (c d rest : Bytes) : push c (some (d, rest)) = some (c ++ d, rest) := rfl

theorem hexVal_hexDigit {n : ℕ} (h : n < 16) : hexVal (hexDigit n) = some n := by
  interval_cases n <;> decide

theorem encodePoint_ascii (h : b.toNat < 0x80) : encodePoint b.toNat = [b] := by
  simp [encodePoint, h]

theorem readString_unicode {a c d : UInt8} {r : ℕ} (h : hex4 a b c d = some r)
    (hs : ¬ (0xD800 ≤ r ∧ r ≤ 0xDFFF)) (rest : Bytes) :
    readString (0x5C :: 0x75 :: a :: b :: c :: d :: rest) =
      push (encodePoint r) (readString rest) := by
  have he : readEscape (0x75 :: a :: b :: c :: d :: rest) = some (encodePoint r, 5) := by
    simp only [readEscape, codeUnit, h, if_true, if_neg hs]
  exact readString_escape he

theorem readString_escapeByte (h : b.toNat < 0x80) (rest : Bytes) :
    readString (escapeByte b ++ rest) = push [b] (readString rest) := by
  have h0 : hexVal 0x30 = some 0 := by decide
  have hu : hex4 0x30 0x30 (hexDigit (b.toNat / 16)) (hexDigit (b.toNat % 16)) =
      some b.toNat := by
    simp only [hex4, h0, hexVal_hexDigit (show b.toNat / 16 < 16 by omega),
      hexVal_hexDigit (show b.toNat % 16 < 16 by omega)]
    simp only [Option.pure_def, Option.bind_eq_bind, Option.bind_some, Option.some.injEq]
    omega
  rw [← encodePoint_ascii h]
  exact readString_unicode hu (by omega) rest

theorem readString_short {e x : UInt8} (he : simpleEscape e = some x) (hu : e ≠ 0x75)
    (rest : Bytes) : readString (0x5C :: e :: rest) = push [x] (readString rest) := by
  have h : readEscape (e :: rest) = some ([x], 1) := by simp [readEscape, hu, he]
  exact readString_escape h

theorem readString_encodeByte (h : b.toNat < 0x80) (rest : Bytes) :
    readString (encodeByte b ++ rest) = push [b] (readString rest) := by
  unfold encodeByte
  split_ifs with h1 h2 h3 h4 h5 h6 h7
  · refine readString_short (by simp [simpleEscape]; tauto) ?_ rest
    rintro rfl
    exact absurd h1 (by decide)
  all_goals try subst_vars
  · exact readString_short (by decide) (by decide) rest
  · exact readString_short (by decide) (by decide) rest
  · exact readString_short (by decide) (by decide) rest
  · exact readString_short (by decide) (by decide) rest
  · exact readString_short (by decide) (by decide) rest
  · exact readString_escapeByte h rest
  · simp only [not_or] at h1 h7
    exact readString_plain h1.1 h1.2 (by omega) rest

theorem readString_high (h : ∀ b ∈ c, 0x80 ≤ b.toNat) (rest : Bytes) :
    readString (c ++ rest) = push c (readString rest) := by
  induction c with
  | nil => cases hr : readString rest <;> simp [hr, push]
  | cons b c ih =>
    have hb : 0x80 ≤ b.toNat := h b (by simp)
    have hq : b ≠ 0x22 := by rintro rfl; exact absurd hb (by decide)
    have hs : b ≠ 0x5C := by rintro rfl; exact absurd hb (by decide)
    rw [cons_append, readString_plain hq hs (by omega), ih fun x hx => h x (by simp [hx])]
    simp

theorem IsRune.high_of_two_le (h : IsRune c) (hl : 2 ≤ c.length) :
    ∀ b ∈ c, 0x80 ≤ b.toNat := by
  cases h with
  | one ha => simp at hl
  | two h2 => simp only [isTwo, isTail, Bool.and_eq_true, decide_eq_true_eq] at h2; simp; omega
  | three h3 => simp only [isThree, isTail, Bool.and_eq_true, decide_eq_true_eq] at h3; simp; omega
  | four h4 => simp only [isFour, isTail, Bool.and_eq_true, decide_eq_true_eq] at h4; simp; omega

theorem encodeRune_of_two_le (hl : 2 ≤ c.length) :
    encodeRune c = if c = [0xE2, 0x80, 0xA8] then [0x5C, 0x75, 0x32, 0x30, 0x32, 0x38]
      else if c = [0xE2, 0x80, 0xA9] then [0x5C, 0x75, 0x32, 0x30, 0x32, 0x39] else c := by
  match c, hl with
  | _ :: _ :: _, _ => rfl

theorem readString_encodeRune (h : IsRune c) (rest : Bytes) :
    readString (encodeRune c ++ rest) = push c (readString rest) := by
  by_cases hl : 2 ≤ c.length
  · rw [encodeRune_of_two_le hl]
    split_ifs with h8 h9
    · subst h8
      exact readString_unicode (show hex4 0x32 0x30 0x32 0x38 = some 0x2028 by decide)
        (by decide) rest
    · subst h9
      exact readString_unicode (show hex4 0x32 0x30 0x32 0x39 = some 0x2029 by decide)
        (by decide) rest
    · exact readString_high (IsRune.high_of_two_le h hl) rest
  · cases h with
    | one ha => exact readString_encodeByte ha rest
    | two | three | four => simp at hl

theorem quoteBody_append_rune (h : IsRune c) (s : Bytes) :
    quoteBody (c ++ s) = encodeRune c ++ quoteBody s := by
  simp [quoteBody, runes_append_rune h]

theorem quoteBody_bad (h : runeLen (b :: s) = 0) :
    quoteBody (b :: s) = escapedReplacement ++ quoteBody s := by
  simp [quoteBody, runes_bad h]

/-- A quoted string reads back as its sanitized form and nothing after it is consumed. -/
theorem readString_quoteBody (s rest : Bytes) :
    readString (quoteBody s ++ 0x22 :: rest) = some (sanitize s, rest) := by
  induction s using rune_induction with
  | nil => simpa [quoteBody, sanitize] using readString_close rest
  | rune c s hc ih =>
    rw [quoteBody_append_rune hc, append_assoc, readString_encodeRune hc, ih,
      sanitize_append_rune hc, push_some]
  | bad b s hb ih =>
    have he : readString (escapedReplacement ++ (quoteBody s ++ 0x22 :: rest)) =
        push replacement (readString (quoteBody s ++ 0x22 :: rest)) :=
      readString_unicode (show hex4 0x66 0x66 0x66 0x64 = some 0xFFFD by decide) (by decide) _
    rw [quoteBody_bad hb, append_assoc, he, ih, sanitize_bad hb, push_some]

theorem quote_append_inj {t : Bytes} (hs : valid s) (ht : valid t)
    (h : quote s ++ x = quote t ++ y) : s = t ∧ x = y := by
  simp only [quote, cons_append, append_assoc,
    List.cons.injEq, true_and, nil_append] at h
  have hr := congrArg readString h
  rw [readString_quoteBody, readString_quoteBody, sanitize_of_valid hs, sanitize_of_valid ht] at hr
  simpa using hr

/-! ## Decimal numbers -/

def isDigit (b : UInt8) : Bool := 0x30 ≤ b.toNat && b.toNat ≤ 0x39

def digit (n : ℕ) : UInt8 := UInt8.ofNat (0x30 + n)

def decFrom : ℕ → ℕ → Bytes
  | 0, _ => []
  | f + 1, n => if n < 10 then [digit n] else decFrom f (n / 10) ++ [digit (n % 10)]

def dec (n : ℕ) : Bytes := decFrom (n + 1) n

def decInt : ℤ → Bytes
  | .ofNat n => dec n
  | .negSucc n => 0x2D :: dec (n + 1)

def readDec (s : Bytes) : ℕ := s.foldl (fun v b => 10 * v + (b.toNat - 0x30)) 0

theorem digit_toNat {n : ℕ} (h : n < 10) : (digit n).toNat = 0x30 + n := by
  interval_cases n <;> decide

theorem isDigit_decFrom (f n : ℕ) : ∀ b ∈ decFrom f n, isDigit b := by
  induction f generalizing n with
  | zero => simp [decFrom]
  | succ f ih =>
    have hd : ∀ k < 10, isDigit (digit k) := by
      intro k hk
      rw [isDigit, digit_toNat hk]
      simp
      omega
    unfold decFrom
    split_ifs with h
    · simpa using hd n h
    · intro b hb
      rcases mem_append.mp hb with hb | hb
      · exact ih _ b hb
      · simpa [mem_singleton.mp hb] using hd _ (Nat.mod_lt n (by decide))

theorem readDec_decFrom {f n : ℕ} (h : n < f) : readDec (decFrom f n) = n := by
  induction f generalizing n with
  | zero => omega
  | succ f ih =>
    unfold decFrom
    split_ifs with hn
    · simp [readDec, digit_toNat hn]
    · have hd := digit_toNat (Nat.mod_lt n (show 0 < 10 by decide))
      have hi := ih (show n / 10 < f by omega)
      rw [readDec] at hi ⊢
      rw [foldl_append, hi]
      simp only [foldl_cons, foldl_nil, hd]
      omega

theorem isDigit_dec (n : ℕ) : ∀ b ∈ dec n, isDigit b := isDigit_decFrom _ _

theorem takeWhile_dec (n : ℕ) (hx : ∀ b ∈ x.head?, isDigit b = false) :
    (dec n ++ x).takeWhile isDigit = dec n := by
  rw [takeWhile_append_of_pos (isDigit_dec n)]
  cases x with
  | nil => simp
  | cons b x => simp [hx b (by simp)]

theorem dec_append_inj {m n : ℕ} (hx : ∀ b ∈ x.head?, isDigit b = false)
    (hy : ∀ b ∈ y.head?, isDigit b = false) (h : dec m ++ x = dec n ++ y) : m = n ∧ x = y := by
  have hd : dec m = dec n := by rw [← takeWhile_dec m hx, h, takeWhile_dec n hy]
  have hm := congrArg readDec hd
  rw [dec, dec, readDec_decFrom (Nat.lt_succ_self m), readDec_decFrom (Nat.lt_succ_self n)] at hm
  exact ⟨hm, append_cancel_left (hd ▸ h)⟩

theorem dec_injective : Function.Injective dec := by
  intro m n h
  have hnil : ∀ b ∈ ([] : Bytes).head?, isDigit b = false := by simp
  exact (dec_append_inj hnil hnil (congrArg (· ++ []) h)).1

theorem dec_ne_nil (n : ℕ) : dec n ≠ [] := by
  unfold dec decFrom
  split_ifs <;> simp

theorem dec_append_ne_minus (n : ℕ) (x y : Bytes) : dec n ++ x ≠ 0x2D :: y := by
  intro h
  obtain ⟨b, l, hb⟩ := exists_cons_of_ne_nil (dec_ne_nil n)
  have hd := isDigit_dec n b (by simp [hb])
  rw [hb, cons_append, List.cons.injEq] at h
  rw [h.1] at hd
  exact absurd hd (by decide)

theorem decInt_append_inj {m n : ℤ} (hx : ∀ b ∈ x.head?, isDigit b = false)
    (hy : ∀ b ∈ y.head?, isDigit b = false) (h : decInt m ++ x = decInt n ++ y) :
    m = n ∧ x = y := by
  match m, n with
  | .ofNat m, .ofNat n => simpa using dec_append_inj hx hy h
  | .ofNat m, .negSucc n => exact absurd h (dec_append_ne_minus m x _)
  | .negSucc m, .ofNat n => exact absurd h.symm (dec_append_ne_minus n y _)
  | .negSucc m, .negSucc n =>
    simp only [decInt, cons_append, List.cons.injEq, true_and] at h
    obtain ⟨hmn, hxy⟩ := dec_append_inj hx hy h
    exact ⟨by omega, hxy⟩

/-! ## Objects -/

def member (name : String) (value : Bytes) : Bytes := quote (lit name) ++ 0x3A :: value

def memberUnlessEmpty (name : String) (s : Bytes) : List Bytes :=
  if s = [] then [] else [member name (quote s)]

def object (members : List Bytes) : Bytes := 0x7B :: ([0x2C].intercalate members ++ [0x7D])

def array (items : List Bytes) : Bytes := 0x5B :: ([0x2C].intercalate items ++ [0x5D])

/-! ## Reading members off an object -/

theorem intercalate_cons (h : l ≠ []) :
    [0x2C].intercalate (x :: l) = x ++ 0x2C :: [0x2C].intercalate l := by
  cases l with
  | nil => exact absurd rfl h
  | cons y l => simp [intercalate]

theorem member_append_cancel {u v : Bytes}
    (h : member name u ++ x = member name v ++ y) : u ++ x = v ++ y := by
  simp only [member, append_assoc, cons_append] at h
  exact List.cons.inj (append_cancel_left h) |>.2

theorem member_name_inj {name' : String} {u v : Bytes}
    (h : member name u ++ x = member name' v ++ y) : lit name = lit name' := by
  simp only [member, append_assoc] at h
  exact (quote_append_inj (valid_lit _) (valid_lit _) h).1

theorem member_quote_inj {t : Bytes} (hs : valid s) (ht : valid t)
    (h : member name (quote s) ++ x = member name (quote t) ++ y) : s = t ∧ x = y :=
  quote_append_inj hs ht (member_append_cancel h)

theorem intercalate_cons_eq (hl : l ≠ []) (hl' : l' ≠ [])
    (h : [0x2C].intercalate (x :: l) = [0x2C].intercalate (y :: l')) :
    x ++ 0x2C :: [0x2C].intercalate l = y ++ 0x2C :: [0x2C].intercalate l' := by
  rwa [intercalate_cons hl, intercalate_cons hl'] at h

theorem intercalate_quote_inj {t : Bytes} (hs : valid s)
    (ht : valid t) (hl : l ≠ []) (hl' : l' ≠ [])
    (h : [0x2C].intercalate (member name (quote s) :: l) =
      [0x2C].intercalate (member name (quote t) :: l')) :
    s = t ∧ [0x2C].intercalate l = [0x2C].intercalate l' := by
  obtain ⟨he, hrest⟩ := member_quote_inj hs ht (intercalate_cons_eq hl hl' h)
  exact ⟨he, (List.cons.inj hrest).2⟩

theorem isDigit_comma (x : Bytes) : ∀ b ∈ (0x2C :: x).head?, isDigit b = false := by
  intro b hb
  cases hb
  rfl

theorem intercalate_dec_inj {m n : ℕ} (hl : l ≠ [])
    (hl' : l' ≠ []) (h : [0x2C].intercalate (member name (dec m) :: l) =
      [0x2C].intercalate (member name (dec n) :: l')) :
    m = n ∧ [0x2C].intercalate l = [0x2C].intercalate l' := by
  obtain ⟨he, hrest⟩ := dec_append_inj (isDigit_comma _) (isDigit_comma _)
    (member_append_cancel (intercalate_cons_eq hl hl' h))
  exact ⟨he, (List.cons.inj hrest).2⟩

theorem intercalate_decInt_inj {m n : ℤ} (hl : l ≠ [])
    (hl' : l' ≠ []) (h : [0x2C].intercalate (member name (decInt m) :: l) =
      [0x2C].intercalate (member name (decInt n) :: l')) :
    m = n ∧ [0x2C].intercalate l = [0x2C].intercalate l' := by
  obtain ⟨he, hrest⟩ := decInt_append_inj (isDigit_comma _) (isDigit_comma _)
    (member_append_cancel (intercalate_cons_eq hl hl' h))
  exact ⟨he, (List.cons.inj hrest).2⟩

theorem memberUnlessEmpty_inj {name' : String} (hne : lit name ≠ lit name') {t u v : Bytes}
    (hs : valid s) (ht : valid t)
    (h : [0x2C].intercalate (memberUnlessEmpty name s ++ member name' u :: l) =
      [0x2C].intercalate (memberUnlessEmpty name t ++ member name' v :: l')) :
    s = t ∧ [0x2C].intercalate (member name' u :: l) = [0x2C].intercalate (member name' v :: l') := by
  have hstart : ∀ w (m : List Bytes), ∃ x, [0x2C].intercalate (member name' w :: m) =
      member name' w ++ x := by
    intro w m
    cases m with
    | nil => exact ⟨[], by simp [intercalate]⟩
    | cons y m => exact ⟨_, intercalate_cons (cons_ne_nil y m)⟩
  unfold memberUnlessEmpty at h
  split_ifs at h with hs0 ht0 ht0
  · exact ⟨hs0.trans ht0.symm, h⟩
  · obtain ⟨x, hx⟩ := hstart u l
    rw [nil_append, singleton_append, hx, intercalate_cons (cons_ne_nil _ _)] at h
    exact absurd (member_name_inj h).symm hne
  · obtain ⟨x, hx⟩ := hstart v l'
    rw [nil_append, singleton_append, hx, intercalate_cons (cons_ne_nil _ _)] at h
    exact absurd (member_name_inj h) hne
  · exact intercalate_quote_inj hs ht (cons_ne_nil _ _) (cons_ne_nil _ _) h

end Aok.Lib.JsonText
