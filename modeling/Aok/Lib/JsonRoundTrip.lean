import Aok.Lib.JsonValue

/-!
# What an encoder writes is read back

`Reads d v t`: the parser takes the text `t` for the value `v` at nesting `d`, whatever
follows, as long as it can follow a value. Strings, numbers, arrays and objects that are
written from parts with this property have it, and a whole text with it parses.
-/

namespace Aok.Lib.JsonValue
open Utf8 JsonText List

def Stops (rest : Bytes) : Prop := ∀ b ∈ rest.head?, b = 0x2C ∨ b = 0x5D ∨ b = 0x7D

structure Reads (depth : ℕ) (v : Value) (t : Bytes) : Prop where
  head : ∃ b l, t = b :: l ∧ isSpace b = false ∧ b ≠ 0x5D
  parse : ∀ fuel rest, 3 * t.length ≤ fuel → Stops rest →
    parseValue fuel depth (t ++ rest) = some (v, rest)

variable {d : ℕ} {v : Value} {t rest : Bytes}

theorem stops_nil : Stops [] := by simp [Stops]

theorem stops_cons {b : UInt8} (h : b = 0x2C ∨ b = 0x5D ∨ b = 0x7D) (rest : Bytes) :
    Stops (b :: rest) := by
  simpa [Stops] using h

theorem skipSpace_cons {b : UInt8} (h : isSpace b = false) (s : Bytes) :
    skipSpace (b :: s) = b :: s := by
  simp [skipSpace, h]

theorem Stops.isDigit (h : Stops rest) : ∀ b ∈ rest.head?, isDigit b = false := by
  intro b hb
  rcases h b hb with rfl | rfl | rfl <;> decide

/-! ## Strings and numbers -/

theorem reads_quote_sanitize (s : Bytes) : Reads d (.str (sanitize s)) (quote s) := by
  refine ⟨⟨0x22, _, rfl, by decide, by decide⟩, fun fuel rest hf _ => ?_⟩
  obtain ⟨fuel, rfl⟩ : ∃ n, fuel = n + 1 := ⟨fuel - 1, by simp [quote] at hf; omega⟩
  simp only [quote, cons_append, append_assoc, nil_append, parseValue]
  rw [skipSpace_cons (by decide)]
  simp only [if_true, readString_quoteBody, Option.map_some, sanitize_sanitize]

theorem reads_quote {s : Bytes} (hs : valid s) : Reads d (.str s) (quote s) := by
  have h : Reads d (.str (sanitize s)) (quote s) := reads_quote_sanitize s
  rwa [sanitize_of_valid hs] at h

theorem decFrom_eq_zero_cons {f n : ℕ} {s : Bytes} (h : decFrom f n = 0x30 :: s) (hn : n < f) :
    n = 0 := by
  induction f generalizing n s with
  | zero => omega
  | succ f ih =>
    unfold decFrom at h
    split_ifs at h with hlt
    · have hd := digit_toNat hlt
      rw [(List.cons.inj h).1] at hd
      change 48 = 48 + n at hd
      omega
    · cases hq : decFrom f (n / 10) with
      | nil =>
        have hread := readDec_decFrom (show n / 10 < f by omega)
        rw [hq] at hread
        change 0 = n / 10 at hread
        omega
      | cons b l =>
        rw [hq, cons_append] at h
        have := ih (hq.trans (by rw [(List.cons.inj h).1])) (by omega)
        omega

theorem readInteger_dec (n : ℕ) (h : Stops rest) : readInteger (dec n ++ rest) = some (dec n, rest) := by
  obtain ⟨b, l, hb⟩ := exists_cons_of_ne_nil (dec_ne_nil n)
  rw [hb, cons_append, readInteger]
  split_ifs with h0
  · subst h0
    have hn := decFrom_eq_zero_cons hb (Nat.lt_succ_self n)
    subst hn
    have hl : [] = l := (List.cons.inj (show [0x30] = 0x30 :: l from hb)).2
    rw [← hl]
    rfl
  · have ht := takeWhile_dec n h.isDigit
    have hdrop : (dec n ++ rest).dropWhile isDigit = rest := by
      have := takeWhile_append_dropWhile (p := isDigit) (l := dec n ++ rest)
      rw [ht] at this
      exact append_cancel_left this
    rw [hb, cons_append] at ht hdrop
    simp only [readDigits, ht, hdrop]

theorem readFraction_stops (h : Stops rest) : readFraction rest = some ([], rest) := by
  cases rest with
  | nil => rfl
  | cons b rest =>
    have hb : b ≠ 0x2E := by
      rcases h b (by simp) with rfl | rfl | rfl <;> decide
    simp [readFraction, hb]

theorem readExponent_stops (h : Stops rest) : readExponent rest = some ([], rest) := by
  cases rest with
  | nil => rfl
  | cons b rest =>
    have hb : ¬ (b = 0x65 ∨ b = 0x45) := by
      rcases h b (by simp) with rfl | rfl | rfl <;> decide
    simp [readExponent, hb]

theorem reads_dec (n : ℕ) : Reads d (.num (dec n)) (dec n) := by
  obtain ⟨b, l, hb⟩ := exists_cons_of_ne_nil (dec_ne_nil n)
  have hdigit : isDigit b = true := isDigit_dec n b (by simp [hb])
  have hne : ∀ x : UInt8, isDigit x = false → b ≠ x := by
    rintro x hx rfl
    simp [hdigit] at hx
  have hspace : isSpace b = false := by
    simp [isSpace, hne 0x20 (by decide), hne 0x09 (by decide), hne 0x0A (by decide),
      hne 0x0D (by decide)]
  refine ⟨⟨b, l, hb, hspace, hne 0x5D (by decide)⟩, fun fuel rest hf hstop => ?_⟩
  obtain ⟨fuel, rfl⟩ : ∃ n, fuel = n + 1 := ⟨fuel - 1, by simp [hb] at hf; omega⟩
  have hnum : readNumber (b :: (l ++ rest)) = some (dec n, rest) := by
    have hint := readInteger_dec n hstop
    rw [hb, cons_append] at hint
    simp [readNumber, hne 0x2D (by decide), readUnsigned, hint, readFraction_stops hstop,
      readExponent_stops hstop, hb]
  rw [hb, cons_append, parseValue, skipSpace_cons hspace]
  simp only [hne 0x22 (by decide), hne 0x5B (by decide), hne 0x7B (by decide), hne 0x74 (by decide),
    hne 0x66 (by decide), hne 0x6E (by decide), if_false, hnum, Option.map_some, hb]

theorem reads_decInt (n : ℤ) : Reads d (.num (decInt n)) (decInt n) := by
  cases n with
  | ofNat n => exact reads_dec n
  | negSucc n =>
    refine ⟨⟨0x2D, _, rfl, by decide, by decide⟩, fun fuel rest hf hstop => ?_⟩
    have hlen : (decInt (Int.negSucc n)).length = (dec (n + 1)).length + 1 := rfl
    obtain ⟨fuel, rfl⟩ : ∃ n, fuel = n + 1 := ⟨fuel - 1, by omega⟩
    have hnum : readNumber (0x2D :: (dec (n + 1) ++ rest)) = some (0x2D :: dec (n + 1), rest) := by
      simp [readNumber, readUnsigned, readInteger_dec (n + 1) hstop, readFraction_stops hstop,
        readExponent_stops hstop]
    change parseValue (fuel + 1) d (0x2D :: (dec (n + 1) ++ rest)) = _
    rw [parseValue, skipSpace_cons (by decide)]
    simp only [show ¬ (0x2D : UInt8) = 0x22 by decide, show ¬ (0x2D : UInt8) = 0x5B by decide,
      show ¬ (0x2D : UInt8) = 0x7B by decide, show ¬ (0x2D : UInt8) = 0x74 by decide,
      show ¬ (0x2D : UInt8) = 0x66 by decide, show ¬ (0x2D : UInt8) = 0x6E by decide, if_false,
      hnum, Option.map_some]
    rfl

theorem reads_null : Reads d .null (lit "null") := by
  refine ⟨⟨0x6E, _, rfl, by decide, by decide⟩, fun fuel rest hf _ => ?_⟩
  obtain ⟨fuel, rfl⟩ : ∃ n, fuel = n + 1 :=
    ⟨fuel - 1, by rw [show (lit "null").length = 4 by decide] at hf; omega⟩
  have hlit : readLiteral (lit "ull") (lit "ull" ++ rest) = some rest := by simp [readLiteral]
  rw [show lit "null" = 0x6E :: lit "ull" by decide, cons_append, parseValue,
    skipSpace_cons (by decide)]
  simp [hlit]

/-! ## Arrays -/

def ReadsAll (depth : ℕ) (items : List (Value × Bytes)) : Prop :=
  ∀ x ∈ items, Reads depth x.1 x.2

theorem parseItems_intercalate {items : List (Value × Bytes)} (hne : items ≠ [])
    (h : ReadsAll d items) {fuel : ℕ}
    (hf : 3 * ([0x2C].intercalate (items.map Prod.snd)).length + 4 ≤ fuel) (rest : Bytes) :
    parseItems fuel d ([0x2C].intercalate (items.map Prod.snd) ++ 0x5D :: rest) =
      some (items.map Prod.fst, rest) := by
  induction items generalizing fuel with
  | nil => exact absurd rfl hne
  | cons x items ih =>
    obtain ⟨fuel, rfl⟩ : ∃ n, fuel = n + 1 := ⟨fuel - 1, by omega⟩
    have hx := h x mem_cons_self
    rcases eq_or_ne items [] with rfl | hitems
    · simp only [map_cons, map_nil, intercalate_singleton] at hf ⊢
      rw [parseItems, hx.parse fuel _ (by omega) (stops_cons (by decide) rest)]
      simp only [skipSpace_cons (show isSpace 0x5D = false by decide), if_true]
    · have hmap : items.map Prod.snd ≠ [] := by simpa using hitems
      rw [map_cons, intercalate_cons hmap] at hf ⊢
      simp only [length_append, length_cons] at hf
      rw [append_assoc, cons_append, parseItems,
        hx.parse fuel _ (by omega) (stops_cons (by decide) _)]
      have htail := ih hitems (fun y hy => h y (mem_cons_of_mem _ hy))
        (show _ ≤ fuel by omega)
      simp only [skipSpace_cons (show isSpace 0x2C = false by decide), htail, Option.map_some,
        map_cons]
      rfl

theorem reads_array {items : List (Value × Bytes)} (h : ReadsAll d items) :
    Reads (d + 1) (.arr (items.map Prod.fst)) (array (items.map Prod.snd)) := by
  refine ⟨⟨0x5B, _, rfl, by decide, by decide⟩, fun fuel rest hf _ => ?_⟩
  simp only [array, length_cons, length_append] at hf
  obtain ⟨fuel, rfl⟩ : ∃ n, fuel = n + 2 := ⟨fuel - 2, by omega⟩
  simp only [array, cons_append, append_assoc, nil_append, parseValue]
  rw [skipSpace_cons (by decide)]
  simp only [show ¬ (0x5B : UInt8) = 0x22 by decide, if_false, if_true, Nat.add_one_ne_zero,
    Nat.add_sub_cancel]
  cases items with
  | nil =>
    simp only [map_nil, intercalate_nil, nil_append, parseArray]
    rw [skipSpace_cons (by decide)]
    simp
  | cons x items =>
    have hitems := parseItems_intercalate (by simp) h (show _ ≤ fuel by omega) rest
    obtain ⟨b, l, hb, hspace, hne⟩ := (h x mem_cons_self).head
    obtain ⟨l', hl'⟩ : ∃ l', [0x2C].intercalate ((x :: items).map Prod.snd) = b :: l' := by
      rw [map_cons, hb]
      cases hi : items.map Prod.snd with
      | nil => exact ⟨l, by simp⟩
      | cons y ys => exact ⟨_, by rw [intercalate_cons (by simp), cons_append]⟩
    rw [hl', cons_append] at hitems
    rw [hl', cons_append, parseArray, skipSpace_cons hspace]
    simp only [hne, if_false, hitems, Option.map_some]

/-! ## Objects -/

structure Part where
  name : String
  value : Value
  text : Bytes

def Part.field (p : Part) : Bytes × Value := (lit p.name, p.value)

def Part.member (p : Part) : Bytes := JsonText.member p.name p.text

theorem parseMembers_intercalate {parts : List Part} (hne : parts ≠ [])
    (h : ∀ p ∈ parts, Reads d p.value p.text) {fuel : ℕ}
    (hf : 3 * ([0x2C].intercalate (parts.map Part.member)).length + 4 ≤ fuel) (rest : Bytes) :
    parseMembers fuel d ([0x2C].intercalate (parts.map Part.member) ++ 0x7D :: rest) =
      some (parts.map Part.field, rest) := by
  induction parts generalizing fuel with
  | nil => exact absurd rfl hne
  | cons p parts ih =>
    obtain ⟨fuel, rfl⟩ : ∃ n, fuel = n + 1 := ⟨fuel - 1, by omega⟩
    have hp := h p mem_cons_self
    have hname : ∀ x, readString (quoteBody (lit p.name) ++ 0x22 :: x) = some (lit p.name, x) :=
      fun x => by rw [readString_quoteBody, sanitize_of_valid (valid_lit _)]
    have hmember : ∀ x, p.member ++ x =
        0x22 :: (quoteBody (lit p.name) ++ 0x22 :: 0x3A :: (p.text ++ x)) := by
      simp [Part.member, member, quote]
    have hlen : p.text.length ≤ p.member.length := by
      simp [Part.member, member]
      omega
    rcases eq_or_ne parts [] with rfl | hparts
    · simp only [map_cons, map_nil, intercalate_singleton] at hf ⊢
      have hvalue := hp.parse fuel (0x7D :: rest) (by omega) (stops_cons (by decide) rest)
      rw [hmember, parseMembers, skipSpace_cons (by decide)]
      simp only [if_true, hname, skipSpace_cons (show isSpace 0x3A = false by decide), hvalue,
        skipSpace_cons (show isSpace 0x7D = false by decide), sanitize_of_valid (valid_lit _)]
      rfl
    · have hmap : parts.map Part.member ≠ [] := by simpa using hparts
      rw [map_cons, intercalate_cons hmap] at hf ⊢
      simp only [length_append, length_cons] at hf
      have htail := ih hparts (fun y hy => h y (mem_cons_of_mem _ hy))
        (show _ ≤ fuel by omega)
      have hvalue := fun x => hp.parse fuel (0x2C :: x) (by omega) (stops_cons (by decide) x)
      rw [append_assoc, cons_append, hmember, parseMembers, skipSpace_cons (by decide)]
      simp only [if_true, hname, skipSpace_cons (show isSpace 0x3A = false by decide), hvalue,
        skipSpace_cons (show isSpace 0x2C = false by decide), sanitize_of_valid (valid_lit _), htail,
        Option.map_some, map_cons]
      rfl

theorem reads_object {parts : List Part} (hne : parts ≠ [])
    (h : ∀ p ∈ parts, Reads d p.value p.text) :
    Reads (d + 1) (.obj (parts.map Part.field)) (object (parts.map Part.member)) := by
  refine ⟨⟨0x7B, _, rfl, by decide, by decide⟩, fun fuel rest hf _ => ?_⟩
  simp only [object, length_cons, length_append] at hf
  obtain ⟨fuel, rfl⟩ : ∃ n, fuel = n + 2 := ⟨fuel - 2, by omega⟩
  have hparts := parseMembers_intercalate hne h (show _ ≤ fuel by omega) rest
  obtain ⟨l, hl⟩ : ∃ l, [0x2C].intercalate (parts.map Part.member) = 0x22 :: l := by
    cases parts with
    | nil => exact absurd rfl hne
    | cons p parts =>
      rw [map_cons]
      cases hi : parts.map Part.member with
      | nil => exact ⟨_, by rw [intercalate_singleton]; rfl⟩
      | cons y ys => exact ⟨_, by rw [intercalate_cons (by simp)]; rfl⟩
  simp only [object, cons_append, append_assoc, nil_append, parseValue]
  rw [skipSpace_cons (by decide)]
  simp only [show ¬ (0x7B : UInt8) = 0x22 by decide, show ¬ (0x7B : UInt8) = 0x5B by decide, if_false,
    if_true, Nat.add_one_ne_zero, Nat.add_sub_cancel]
  rw [hl, cons_append] at hparts ⊢
  rw [parseObject, skipSpace_cons (by decide)]
  simp only [show ¬ (0x22 : UInt8) = 0x7D by decide, if_false, hparts, Option.map_some]

theorem Reads.parse_eq (h : Reads maxDepth v t) : JsonValue.parse t = some v := by
  have hp := h.parse (3 * t.length + 3) [] (by omega) stops_nil
  rw [append_nil] at hp
  rw [JsonValue.parse, hp]
  simp [skipSpace]

end Aok.Lib.JsonValue
