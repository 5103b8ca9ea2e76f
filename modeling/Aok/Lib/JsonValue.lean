import Aok.Lib.JsonText

/-!
# JSON texts as raw messages

`parse` accepts exactly one JSON value with white space around it, nested at most
10000 deep. `compact` is the normal form an encoder gives a raw message: white space
between tokens is dropped and the characters `<`, `>`, `&`, U+2028 and U+2029 inside
strings are escaped. The readers at the end take one field out of an object the way
a decoder fills a record: keys match without regard to case, the last value wins, and
a value of the wrong type is an error that leaves the field alone.
-/

namespace Aok.Lib.JsonValue
open Utf8 JsonText

inductive Value where
  | null
  | bool (b : Bool)
  | num (literal : Bytes)
  | str (s : Bytes)
  | arr (items : List Value)
  | obj (fields : List (Bytes × Value))

def isSpace (b : UInt8) : Bool := b == 0x20 || b == 0x09 || b == 0x0A || b == 0x0D

def skipSpace (s : Bytes) : Bytes := s.dropWhile isSpace

def readDigits (s : Bytes) : Option (Bytes × Bytes) :=
  match s.takeWhile isDigit with
  | [] => none
  | ds => some (ds, s.dropWhile isDigit)

def readInteger : Bytes → Option (Bytes × Bytes)
  | [] => none
  | b :: rest => if b = 0x30 then some ([b], rest) else readDigits (b :: rest)

def readFraction : Bytes → Option (Bytes × Bytes)
  | [] => some ([], [])
  | b :: rest => if b = 0x2E then push [b] (readDigits rest) else some ([], b :: rest)

def readExponent : Bytes → Option (Bytes × Bytes)
  | [] => some ([], [])
  | b :: rest =>
    if b = 0x65 ∨ b = 0x45 then
      match rest with
      | [] => none
      | sign :: rest' =>
        if sign = 0x2B ∨ sign = 0x2D then push [b, sign] (readDigits rest')
        else push [b] (readDigits rest)
    else some ([], b :: rest)

def readUnsigned (s : Bytes) : Option (Bytes × Bytes) := do
  let (i, s) ← readInteger s
  let (f, s) ← readFraction s
  let (e, s) ← readExponent s
  pure (i ++ f ++ e, s)

def readNumber : Bytes → Option (Bytes × Bytes)
  | [] => none
  | b :: rest => if b = 0x2D then push [b] (readUnsigned rest) else readUnsigned (b :: rest)

def readLiteral (l s : Bytes) : Option Bytes := if l <+: s then some (s.drop l.length) else none

def maxDepth : ℕ := 10000

mutual

/-- One value after white space. The first counter bounds the recursion, the second is the
nesting that is still allowed. -/
def parseValue : ℕ → ℕ → Bytes → Option (Value × Bytes)
  | 0, _, _ => none
  | fuel + 1, depth, s =>
    match skipSpace s with
    | [] => none
    | b :: rest =>
      if b = 0x22 then (readString rest).map fun p => (.str (sanitize p.1), p.2)
      else if b = 0x5B then
        if depth = 0 then none
        else (parseArray fuel (depth - 1) rest).map fun p => (.arr p.1, p.2)
      else if b = 0x7B then
        if depth = 0 then none
        else (parseObject fuel (depth - 1) rest).map fun p => (.obj p.1, p.2)
      else if b = 0x74 then (readLiteral (lit "rue") rest).map fun r => (.bool true, r)
      else if b = 0x66 then (readLiteral (lit "alse") rest).map fun r => (.bool false, r)
      else if b = 0x6E then (readLiteral (lit "ull") rest).map fun r => (.null, r)
      else (readNumber (b :: rest)).map fun p => (.num p.1, p.2)

def parseArray : ℕ → ℕ → Bytes → Option (List Value × Bytes)
  | 0, _, _ => none
  | fuel + 1, depth, s =>
    match skipSpace s with
    | [] => none
    | b :: rest => if b = 0x5D then some ([], rest) else parseItems fuel depth (b :: rest)

def parseItems : ℕ → ℕ → Bytes → Option (List Value × Bytes)
  | 0, _, _ => none
  | fuel + 1, depth, s =>
    match parseValue fuel depth s with
    | none => none
    | some (v, s) =>
      match skipSpace s with
      | [] => none
      | b :: rest =>
        if b = 0x5D then some ([v], rest)
        else if b = 0x2C then (parseItems fuel depth rest).map fun p => (v :: p.1, p.2)
        else none

def parseObject : ℕ → ℕ → Bytes → Option (List (Bytes × Value) × Bytes)
  | 0, _, _ => none
  | fuel + 1, depth, s =>
    match skipSpace s with
    | [] => none
    | b :: rest => if b = 0x7D then some ([], rest) else parseMembers fuel depth (b :: rest)

def parseMembers : ℕ → ℕ → Bytes → Option (List (Bytes × Value) × Bytes)
  | 0, _, _ => none
  | fuel + 1, depth, s =>
    match skipSpace s with
    | [] => none
    | q :: rest =>
      if q = 0x22 then
        match readString rest with
        | none => none
        | some (k, s) =>
          match skipSpace s with
          | [] => none
          | c :: rest =>
            if c = 0x3A then
              match parseValue fuel depth rest with
              | none => none
              | some (v, s) =>
                match skipSpace s with
                | [] => none
                | b :: rest =>
                  if b = 0x7D then some ([(sanitize k, v)], rest)
                  else if b = 0x2C then
                    (parseMembers fuel depth rest).map fun p => ((sanitize k, v) :: p.1, p.2)
                  else none
            else none
      else none

end

/-- One value with white space around it. Every call of the parser but the first two of a
value reads a byte, so three times the length bounds the recursion. -/
def parse (s : Bytes) : Option Value :=
  match parseValue (3 * s.length + 3) maxDepth s with
  | none => none
  | some (v, rest) => if skipSpace rest = [] then some v else none

def validJson (s : Bytes) : Bool := (parse s).isSome

example : validJson (lit " [1, -2.5e+7, \x7b\"a\": null, \"b\": []\x7d, \"x\", true] ") := by decide +kernel
example : validJson (lit "[1,]") = false := by decide +kernel
example : validJson (lit "01") = false := by decide +kernel

/-! ## Compaction -/

/-- Where a scan of a JSON text stands: between tokens, in a string, or behind a backslash
in a string. -/
inductive Place where
  | outside
  | inside
  | escaped
deriving DecidableEq

def isSeparatorTail : Bytes → Bool
  | a :: b :: _ => a == 0x80 && (b == 0xA8 || b == 0xA9)
  | _ => false

def compactFrom : Place → ℕ → Bytes → Bytes
  | _, _, [] => []
  | p, k + 1, _ :: rest => compactFrom p k rest
  | .outside, 0, b :: rest =>
    if isSpace b then compactFrom .outside 0 rest
    else b :: compactFrom (if b = 0x22 then .inside else .outside) 0 rest
  | .escaped, 0, b :: rest => b :: compactFrom .inside 0 rest
  | .inside, 0, b :: rest =>
    if b = 0x5C then b :: compactFrom .escaped 0 rest
    else if b = 0x22 then b :: compactFrom .outside 0 rest
    else if b = 0x3C ∨ b = 0x3E ∨ b = 0x26 then escapeByte b ++ compactFrom .inside 0 rest
    else if b = 0xE2 ∧ isSeparatorTail rest then
      -- the last byte of the separator gives the last digit, 8 or 9
      [0x5C, 0x75, 0x32, 0x30, 0x32, hexDigit ((rest.getD 1 0).toNat % 16)] ++
        compactFrom .inside 2 rest
    else b :: compactFrom .inside 0 rest

def compact (s : Bytes) : Bytes := compactFrom .outside 0 s

example : compact (lit " \x7b\"a <\" : [1, 2]\x7d ") = lit "\x7b\"a \\u003c\":[1,2]\x7d" := by decide

theorem length_compactFrom (p : Place) (k : ℕ) (s : Bytes) :
    (compactFrom p k s).length ≤ 6 * s.length := by
  -- the branches add one byte or six and leave one byte of the input behind
  fun_induction compactFrom p k s <;>
    simp only [escapeByte, List.length_append, List.length_cons, List.length_nil] <;> omega

theorem length_compact (s : Bytes) : (compact s).length ≤ 6 * s.length :=
  length_compactFrom .outside 0 s

def isPlain (b : UInt8) : Bool :=
  b != 0x5C && b != 0x22 && b != 0x3C && b != 0x3E && b != 0x26 && b != 0xE2

theorem compactFrom_plain {c : Bytes} (h : ∀ b ∈ c, isPlain b) (s : Bytes) :
    compactFrom .inside 0 (c ++ s) = c ++ compactFrom .inside 0 s := by
  induction c with
  | nil => simp
  | cons b c ih =>
    have hb : isPlain b := h b (by simp)
    simp only [isPlain, Bool.and_eq_true, bne_iff_ne, ne_eq] at hb
    simp [compactFrom, hb, ih fun x hx => h x (by simp [hx])]

theorem compactFrom_escape {e : UInt8} {c : Bytes} (h : ∀ b ∈ c, isPlain b) (s : Bytes) :
    compactFrom .inside 0 (0x5C :: e :: (c ++ s)) = 0x5C :: e :: (c ++ compactFrom .inside 0 s) := by
  simp [compactFrom, compactFrom_plain h]

theorem isPlain_hexDigit {n : ℕ} (h : n < 16) : isPlain (hexDigit n) := by
  interval_cases n <;> decide

theorem head_compactFrom (b : UInt8) (s : Bytes) :
    ∃ t, compactFrom .inside 0 (b :: s) = b :: t ∨ compactFrom .inside 0 (b :: s) = 0x5C :: t := by
  unfold compactFrom
  split_ifs <;> simp [escapeByte]

theorem isSeparatorTail_compactFrom {s : Bytes} (h : isSeparatorTail (compactFrom .inside 0 s)) :
    isSeparatorTail s := by
  match s with
  | [] => simp [compactFrom, isSeparatorTail] at h
  | a :: s =>
    have ha : a = 0x80 := by
      obtain ⟨t, ht | ht⟩ := head_compactFrom a s <;> rw [ht] at h <;> cases t <;>
        simp [isSeparatorTail] at h
      exact h.1
    subst ha
    rw [show (0x80 :: s : Bytes) = [0x80] ++ s from rfl, compactFrom_plain (by simp [isPlain])] at h
    match s with
    | [] => simp [compactFrom, isSeparatorTail] at h
    | b :: s =>
      obtain ⟨t, ht | ht⟩ := head_compactFrom b s <;> rw [ht] at h <;>
        simp [isSeparatorTail] at h ⊢
      exact h

theorem compactFrom_compactFrom (p : Place) (k : ℕ) (s : Bytes) :
    compactFrom p 0 (compactFrom p k s) = compactFrom p k s := by
  induction s generalizing p k with
  | nil => simp [compactFrom]
  | cons b s ih =>
    cases k with
    | succ k => simpa [compactFrom] using ih p k
    | zero =>
      cases p with
      | escaped => simp [compactFrom, ih]
      | outside =>
        by_cases hb : isSpace b <;> simp [compactFrom, hb, ih]
      | inside =>
        by_cases h5 : b = 0x5C
        · simp [compactFrom, h5, ih]
        by_cases h2 : b = 0x22
        · simp [compactFrom, h2, ih]
        by_cases hh : b = 0x3C ∨ b = 0x3E ∨ b = 0x26
        · have hp : ∀ x ∈ [0x30, 0x30, hexDigit (b.toNat / 16), hexDigit (b.toNat % 16)],
              isPlain x := by
            rcases hh with rfl | rfl | rfl <;> simp [isPlain, hexDigit]
          have he := compactFrom_escape (e := 0x75) hp (compactFrom .inside 0 s)
          simp only [compactFrom, h5, h2, hh, if_true, if_false]
          rw [ih] at he
          exact he
        by_cases hs : b = 0xE2 ∧ isSeparatorTail s
        · have hp : ∀ x ∈ [0x32, 0x30, 0x32, hexDigit ((s.getD 1 0).toNat % 16)],
              isPlain x := by
            have hd := isPlain_hexDigit (Nat.mod_lt (s.getD 1 0).toNat (show 0 < 16 by decide))
            simp only [List.mem_cons, List.not_mem_nil, or_false]
            rintro x (rfl | rfl | rfl | rfl)
            · decide
            · decide
            · decide
            · exact hd
          have he := compactFrom_escape (e := 0x75) hp (compactFrom .inside 2 s)
          simp only [compactFrom, h5, h2, hh, if_pos hs, if_false]
          rw [ih] at he
          exact he
        · have hn : ¬ (b = 0xE2 ∧ isSeparatorTail (compactFrom .inside 0 s)) :=
            fun h => hs ⟨h.1, isSeparatorTail_compactFrom h.2⟩
          simp [compactFrom, h5, h2, hh, hs, hn, ih]

@[simp] theorem compact_compact (s : Bytes) : compact (compact s) = compact s :=
  compactFrom_compactFrom .outside 0 s

/-! ## Fields of an object -/

/-- The representative of the characters that differ only in case, for the characters that
fold to ASCII: small letters, the long s and the Kelvin sign. -/
def foldRune : Bytes → Bytes
  | [b] => if 0x61 ≤ b.toNat ∧ b.toNat ≤ 0x7A then [UInt8.ofNat (b.toNat - 0x20)] else [b]
  | c => if c = [0xC5, 0xBF] then [0x53] else if c = [0xE2, 0x84, 0xAA] then [0x4B] else c

def foldKey (s : Bytes) : List (Option Bytes) := (runes s).map (Option.map foldRune)

def asString : Value → Option Bytes
  | .str s => some s
  | _ => none

def asUInt64 : Value → Option UInt64
  | .num l => if l.all isDigit ∧ readDec l < 2 ^ 64 then some (UInt64.ofNat (readDec l)) else none
  | _ => none

def asInt64 : Value → Option ℤ
  | .num (0x2D :: l) => if l.all isDigit ∧ readDec l ≤ 2 ^ 63 then some (-readDec l) else none
  | .num l => if l.all isDigit ∧ readDec l < 2 ^ 63 then some (readDec l) else none
  | _ => none

section Fields
variable {α : Type} (name : Bytes) (conv : Value → Option α)

/-- One member of an object seen by the field `name`, with whether all went well so far. -/
def readMember (acc : α × Bool) (member : Bytes × Value) : α × Bool :=
  if foldKey member.1 = foldKey name then
    match member.2 with
    | .null => acc
    | v => match conv v with
      | some x => (x, acc.2)
      | none => (acc.1, false)
  else acc

/-- The value of a field after decoding a text into a record with the field set to `init`,
and whether decoding reported no error on account of the text or of this field. -/
def readField (init : α) (s : Bytes) : α × Bool :=
  match parse s with
  | some (.obj fields) => fields.foldl (readMember name conv) (init, true)
  | some .null => (init, true)
  | _ => (init, false)

end Fields

example : readField (lit "text") asString [] (lit "\x7b\"a\":1,\"Text\":\"hi\"\x7d") =
    (lit "hi", true) := by decide +kernel

example : readField (lit "taint") asUInt64 0 (lit "\x7b\"taint\":3,\"taint\":\"x\"\x7d") =
    (3, false) := by decide +kernel

end Aok.Lib.JsonValue
