import Aok.Lib.JsonTokens

/-!
# Compaction keeps the value

What the parser accepts it accepts again, with the same value, once the text is compacted,
and then whatever follows the text. So a raw message that is written into a larger text can
neither end early nor reach beyond its place.
-/

namespace Aok.Lib.JsonValue
open Utf8 JsonText List Option

variable {d : ℕ} {v : Value} {s t rest : Bytes}
variable {l : Bytes} {fields : List (Bytes × Value)}

/-! ## Values -/

/-- The text, with its closing bracket, is read as the contents whatever follows. -/
def ReadsTail {α : Type} (f : ℕ → ℕ → Bytes → Option (α × Bytes)) (k d : ℕ) (a : α) (t : Bytes) :
    Prop :=
  ∀ fuel x, 3 * t.length + k ≤ fuel → f fuel d (t ++ x) = some (a, x)

/-- What a value, a list of items or members read from `s` with `rest` behind it becomes. -/
def Becomes (s rest : Bytes) (P : Bytes → Prop) : Prop :=
  ∃ t, compactFrom .outside 0 s = t ++ compactFrom .outside 0 rest ∧ P t

theorem readLiteral_eq_some : readLiteral l s = some rest ↔ s = l ++ rest := by
  unfold readLiteral
  split_ifs with h
  · obtain ⟨x, rfl⟩ := h
    simp
  · simp only [false_iff]
    rintro rfl
    exact h (prefix_append _ _)

theorem becomes_literal {b : UInt8} (hs : skipSpace s = b :: (l ++ rest))
    (hl : IsToken (b :: l)) (hb : b ≠ 0x5D)
    (hread : ∀ fuel x, parseValue (fuel + 1) d (b :: l ++ x) = some (v, x)) :
    Becomes s rest (Reads d v) := by
  have hspace : isSpace b = false := (hl b mem_cons_self).1
  refine ⟨b :: l, ?_, ⟨b, l, rfl, hspace, hb⟩, fun fuel x hf _ => ?_⟩
  · rw [← compactFrom_skipSpace s, hs]
    exact compactFrom_token hl rest
  · obtain ⟨fuel, rfl⟩ : ∃ n, fuel = n + 1 := ⟨fuel - 1, by simp at hf; omega⟩
    exact hread fuel x

theorem becomes_string {c : Bytes} (hs : skipSpace s = 0x22 :: l)
    (hr : readString l = some (c, rest)) : Becomes s rest (Reads d (.str (sanitize c))) := by
  obtain ⟨t, ht⟩ := exists_readsAs hr
  refine ⟨0x22 :: t, ?_, ⟨0x22, t, rfl, by decide, by decide⟩, fun fuel x hf _ => ?_⟩
  · rw [compactFrom_of_skipSpace hs, if_pos rfl, ht.compacted, cons_append]
  · obtain ⟨fuel, rfl⟩ : ∃ n, fuel = n + 1 := ⟨fuel - 1, by simp at hf; omega⟩
    rw [cons_append, parseValue, skipSpace_cons (by decide)]
    simp only [if_true, ht.reads x, map_some]

theorem becomes_number {b : UInt8} {n : Bytes} (hs : skipSpace s = b :: l)
    (hr : readNumber (b :: l) = some (n, rest))
    (hb : b ≠ 0x22 ∧ b ≠ 0x5B ∧ b ≠ 0x7B ∧ b ≠ 0x74 ∧ b ≠ 0x66 ∧ b ≠ 0x6E) :
    Becomes s rest (Reads d (.num n)) := by
  have hn := lexed_number hr
  obtain ⟨n', rfl⟩ : ∃ n', n = b :: n' := by
    cases n with
    | nil =>
      have hnil : readNumber ([] ++ []) = some ([], []) := hn.again [] (by simp [Past])
      simp [readNumber] at hnil
    | cons c n' => exact ⟨n', by rw [(List.cons.inj hn.eq_append).1]⟩
  have hspace : isSpace b = false := (hn.isToken b mem_cons_self).1
  have hclose : b ≠ 0x5D := by
    rintro rfl
    simp [readNumber, readUnsigned, readInteger, readDigits, isDigit] at hr
  refine ⟨b :: n', ?_, ⟨b, n', rfl, hspace, hclose⟩, fun fuel x hf hx => ?_⟩
  · rw [← compactFrom_skipSpace s, hs, hn.eq_append]
    exact compactFrom_token hn.isToken rest
  · obtain ⟨fuel, rfl⟩ : ∃ n, fuel = n + 1 := ⟨fuel - 1, by simp at hf; omega⟩
    have hagain := hn.again x hx.past
    rw [cons_append] at hagain ⊢
    rw [parseValue, skipSpace_cons hspace]
    simp only [hb, if_false, hagain, map_some]

theorem becomes_array {vs : List Value} (hs : skipSpace s = 0x5B :: l)
    (h : Becomes l rest (ReadsTail parseArray 2 d vs)) :
    Becomes s rest (Reads (d + 1) (.arr vs)) := by
  obtain ⟨t, ht, hread⟩ := h
  refine ⟨0x5B :: t, ?_, ⟨0x5B, t, rfl, by decide, by decide⟩, fun fuel x hf _ => ?_⟩
  · rw [compactFrom_of_skipSpace hs, if_neg (by decide), ht, cons_append]
  · simp only [length_cons] at hf
    obtain ⟨fuel, rfl⟩ : ∃ n, fuel = n + 1 := ⟨fuel - 1, by omega⟩
    rw [cons_append, parseValue, skipSpace_cons (by decide)]
    simp only [show ¬ (0x5B : UInt8) = 0x22 by decide, if_false, if_true, Nat.add_one_ne_zero,
      Nat.add_sub_cancel, hread fuel x (by omega), map_some]

theorem becomes_object (hs : skipSpace s = 0x7B :: l)
    (h : Becomes l rest (ReadsTail parseObject 2 d fields)) :
    Becomes s rest (Reads (d + 1) (.obj fields)) := by
  obtain ⟨t, ht, hread⟩ := h
  refine ⟨0x7B :: t, ?_, ⟨0x7B, t, rfl, by decide, by decide⟩, fun fuel x hf _ => ?_⟩
  · rw [compactFrom_of_skipSpace hs, if_neg (by decide), ht, cons_append]
  · simp only [length_cons] at hf
    obtain ⟨fuel, rfl⟩ : ∃ n, fuel = n + 1 := ⟨fuel - 1, by omega⟩
    rw [cons_append, parseValue, skipSpace_cons (by decide)]
    simp only [show ¬ (0x7B : UInt8) = 0x22 by decide, show ¬ (0x7B : UInt8) = 0x5B by decide,
      if_false, if_true, Nat.add_one_ne_zero, Nat.add_sub_cancel, hread fuel x (by omega),
      map_some]

/-- Compaction keeps what the five functions of the parser read. -/
structure CompactKeeps (fuel : ℕ) : Prop where
  value : ∀ d s v rest, parseValue fuel d s = some (v, rest) → Becomes s rest (Reads d v)
  array : ∀ d s vs rest, parseArray fuel d s = some (vs, rest) →
    Becomes s rest (ReadsTail parseArray 2 d vs)
  items : ∀ d s vs rest, parseItems fuel d s = some (vs, rest) →
    Becomes s rest fun t => (∃ b l, t = b :: l ∧ isSpace b = false ∧ b ≠ 0x5D) ∧
      ReadsTail parseItems 1 d vs t
  object : ∀ d s fields rest, parseObject fuel d s = some (fields, rest) →
    Becomes s rest (ReadsTail parseObject 2 d fields)
  members : ∀ d s fields rest, parseMembers fuel d s = some (fields, rest) →
    Becomes s rest fun t => (∃ l, t = 0x22 :: l) ∧ ReadsTail parseMembers 1 d fields t

variable {fuel : ℕ}

theorem CompactKeeps.value_succ (h : CompactKeeps fuel) (hp : parseValue (fuel + 1) d s = some (v, rest)) :
    Becomes s rest (Reads d v) := by
  unfold parseValue at hp
  split at hp
  · cases hp
  next b l hs =>
    by_cases h22 : b = 0x22
    · subst h22
      rw [if_pos rfl] at hp
      obtain ⟨⟨c, r⟩, hr, heq⟩ := map_eq_some_iff.mp hp
      cases heq
      exact becomes_string hs hr
    rw [if_neg h22] at hp
    by_cases h5B : b = 0x5B
    · subst h5B
      rw [if_pos rfl] at hp
      cases d with
      | zero => cases hp
      | succ d =>
        obtain ⟨⟨vs, r⟩, hr, heq⟩ := map_eq_some_iff.mp hp
        cases heq
        exact becomes_array hs (h.array d l vs _ hr)
    rw [if_neg h5B] at hp
    by_cases h7B : b = 0x7B
    · subst h7B
      rw [if_pos rfl] at hp
      cases d with
      | zero => cases hp
      | succ d =>
        obtain ⟨⟨fields, r⟩, hr, heq⟩ := map_eq_some_iff.mp hp
        cases heq
        exact becomes_object hs (h.object d l fields _ hr)
    rw [if_neg h7B] at hp
    have hliteral : ∀ {l' : Bytes} {v' : Value}, IsToken (b :: l') → b ≠ 0x5D →
        (readLiteral l' l).map (fun r => (v', r)) = some (v, rest) →
        (∀ fuel x, parseValue (fuel + 1) d (b :: l' ++ x) =
          (readLiteral l' (l' ++ x)).map fun r => (v', r)) → Becomes s rest (Reads d v) := by
      intro l' v' htoken hclose hp hread
      obtain ⟨r, hr, heq⟩ := map_eq_some_iff.mp hp
      cases heq
      rw [readLiteral_eq_some.mp hr] at hs
      refine becomes_literal hs htoken hclose fun fuel x => ?_
      rw [hread, readLiteral_eq_some.mpr rfl, map_some]
    have hfirst : ∀ (fuel : ℕ) (x : Bytes), isSpace b = false → parseValue (fuel + 1) d (b :: x) =
        if b = 0x74 then (readLiteral (lit "rue") x).map fun r => (.bool true, r)
        else if b = 0x66 then (readLiteral (lit "alse") x).map fun r => (.bool false, r)
        else if b = 0x6E then (readLiteral (lit "ull") x).map fun r => (.null, r)
        else (readNumber (b :: x)).map fun p => (.num p.1, p.2) := by
      intro fuel x hspace
      rw [parseValue, skipSpace_cons hspace]
      simp only [h22, h5B, h7B, if_false]
    by_cases h74 : b = 0x74
    · subst h74
      exact hliteral (by decide +kernel) (by decide) hp fun fuel x => hfirst fuel _ (by decide)
    rw [if_neg h74] at hp
    by_cases h66 : b = 0x66
    · subst h66
      exact hliteral (by decide +kernel) (by decide) hp fun fuel x => hfirst fuel _ (by decide)
    rw [if_neg h66] at hp
    by_cases h6E : b = 0x6E
    · subst h6E
      exact hliteral (by decide +kernel) (by decide) hp fun fuel x => hfirst fuel _ (by decide)
    rw [if_neg h6E] at hp
    obtain ⟨⟨n, r⟩, hr, heq⟩ := map_eq_some_iff.mp hp
    cases heq
    exact becomes_number hs hr ⟨h22, h5B, h7B, h74, h66, h6E⟩

theorem CompactKeeps.array_succ {vs : List Value} (h : CompactKeeps fuel)
    (hp : parseArray (fuel + 1) d s = some (vs, rest)) :
    Becomes s rest (ReadsTail parseArray 2 d vs) := by
  unfold parseArray at hp
  split at hp
  · cases hp
  next b l hs =>
    split at hp
    next hb =>
      subst hb
      cases hp
      refine ⟨[0x5D], by rw [compactFrom_of_skipSpace hs, if_neg (by decide)]; rfl, ?_⟩
      intro fuel x hf
      obtain ⟨fuel, rfl⟩ : ∃ n, fuel = n + 1 := ⟨fuel - 1, by omega⟩
      rw [singleton_append, parseArray, skipSpace_cons (by decide)]
      simp
    next hb =>
      obtain ⟨t, ht, ⟨c, l', rfl, hspace, hclose⟩, hread⟩ := h.items d (b :: l) vs rest hp
      refine ⟨c :: l', by rw [← ht, ← hs, compactFrom_skipSpace], fun fuel x hf => ?_⟩
      obtain ⟨fuel, rfl⟩ : ∃ n, fuel = n + 1 := ⟨fuel - 1, by omega⟩
      have hitems := hread fuel x (by omega)
      rw [cons_append] at hitems ⊢
      rw [parseArray, skipSpace_cons hspace]
      simp only [if_neg hclose, hitems]

theorem CompactKeeps.items_succ {vs : List Value} (h : CompactKeeps fuel)
    (hp : parseItems (fuel + 1) d s = some (vs, rest)) :
    Becomes s rest fun t => (∃ b l, t = b :: l ∧ isSpace b = false ∧ b ≠ 0x5D) ∧
      ReadsTail parseItems 1 d vs t := by
  unfold parseItems at hp
  split at hp
  · cases hp
  next v s₁ hv =>
    obtain ⟨t, ht, hreads⟩ := h.value d s v s₁ hv
    obtain ⟨c, l', htc, hspace, hclose⟩ := hreads.head
    split at hp
    · cases hp
    next b l hs =>
      have hcomma : b ≠ 0x22 → compactFrom .outside 0 s = t ++ b :: compactFrom .outside 0 l := by
        intro hb
        rw [ht, compactFrom_of_skipSpace hs, if_neg hb]
      split at hp
      next hb =>
        subst hb
        cases hp
        refine ⟨t ++ [0x5D], by rw [hcomma (by decide)]; simp, ⟨c, l' ++ [0x5D], by simp [htc],
          hspace, hclose⟩, fun fuel x hf => ?_⟩
        simp only [length_append, length_singleton] at hf
        obtain ⟨fuel, rfl⟩ : ∃ n, fuel = n + 1 := ⟨fuel - 1, by omega⟩
        rw [append_assoc, singleton_append, parseItems,
          hreads.parse fuel _ (by omega) (stops_cons (by decide) x)]
        simp only [skipSpace_cons (show isSpace 0x5D = false by decide), if_true]
      next hb =>
        split at hp
        next hb' =>
          subst hb'
          obtain ⟨⟨vs', r⟩, hr, heq⟩ := map_eq_some_iff.mp hp
          cases heq
          obtain ⟨t', ht', -, hread⟩ := h.items d l vs' _ hr
          refine ⟨t ++ 0x2C :: t', by rw [hcomma (by decide), ht']; simp,
            ⟨c, l' ++ 0x2C :: t', by simp [htc], hspace, hclose⟩, fun fuel x hf => ?_⟩
          simp only [length_append, length_cons] at hf
          obtain ⟨fuel, rfl⟩ : ∃ n, fuel = n + 1 := ⟨fuel - 1, by omega⟩
          rw [append_assoc, cons_append, parseItems,
            hreads.parse fuel _ (by omega) (stops_cons (by decide) _)]
          simp only [skipSpace_cons (show isSpace 0x2C = false by decide), hread fuel x (by omega),
            map_some]
          rfl
        · cases hp

theorem CompactKeeps.object_succ (h : CompactKeeps fuel)
    (hp : parseObject (fuel + 1) d s = some (fields, rest)) :
    Becomes s rest (ReadsTail parseObject 2 d fields) := by
  unfold parseObject at hp
  split at hp
  · cases hp
  next b l hs =>
    split at hp
    next hb =>
      subst hb
      cases hp
      refine ⟨[0x7D], by rw [compactFrom_of_skipSpace hs, if_neg (by decide)]; rfl, ?_⟩
      intro fuel x hf
      obtain ⟨fuel, rfl⟩ : ∃ n, fuel = n + 1 := ⟨fuel - 1, by omega⟩
      rw [singleton_append, parseObject, skipSpace_cons (by decide)]
      simp
    next hb =>
      obtain ⟨t, ht, ⟨l', rfl⟩, hread⟩ := h.members d (b :: l) fields rest hp
      refine ⟨0x22 :: l', by rw [← ht, ← hs, compactFrom_skipSpace], fun fuel x hf => ?_⟩
      obtain ⟨fuel, rfl⟩ : ∃ n, fuel = n + 1 := ⟨fuel - 1, by omega⟩
      have hmembers := hread fuel x (by omega)
      rw [cons_append] at hmembers ⊢
      rw [parseObject, skipSpace_cons (by decide)]
      simp only [show ¬ (0x22 : UInt8) = 0x7D by decide, if_false, hmembers]

theorem CompactKeeps.members_succ (h : CompactKeeps fuel)
    (hp : parseMembers (fuel + 1) d s = some (fields, rest)) :
    Becomes s rest fun t => (∃ l, t = 0x22 :: l) ∧ ReadsTail parseMembers 1 d fields t := by
  unfold parseMembers at hp
  split at hp
  · cases hp
  next q l hs =>
    split at hp
    next hq =>
      subst hq
      split at hp
      · cases hp
      next k s₁ hk =>
        obtain ⟨u, hu⟩ := exists_readsAs hk
        split at hp
        · cases hp
        next c l₁ hs₁ =>
          split at hp
          next hc =>
            subst hc
            split at hp
            · cases hp
            next v s₂ hv =>
              obtain ⟨t, ht, hreads⟩ := h.value d l₁ v s₂ hv
              split at hp
              · cases hp
              next b l₂ hs₂ =>
                have hmember : b ≠ 0x22 → compactFrom .outside 0 s =
                    0x22 :: (u ++ 0x3A :: (t ++ b :: compactFrom .outside 0 l₂)) := by
                  intro hb
                  rw [compactFrom_of_skipSpace hs, if_pos rfl, hu.compacted,
                    compactFrom_of_skipSpace hs₁, if_neg (by decide), ht,
                    compactFrom_of_skipSpace hs₂, if_neg hb]
                -- one member is read, then the byte behind it decides
                have hone : ∀ fuel x, 3 * t.length ≤ fuel → b = 0x2C ∨ b = 0x7D →
                    parseMembers (fuel + 1) d (0x22 :: (u ++ 0x3A :: (t ++ b :: x))) =
                      if b = 0x7D then some ([(sanitize k, v)], x)
                      else (parseMembers fuel d x).map fun p => ((sanitize k, v) :: p.1, p.2) := by
                  intro fuel x hf hb
                  have hstop : Stops (b :: x) := stops_cons (by tauto) x
                  have hspace : isSpace b = false := by rcases hb with rfl | rfl <;> decide
                  have hkey : ∀ y, readString (u ++ y) = some (k, y) := hu.reads
                  rw [parseMembers, skipSpace_cons (by decide)]
                  simp only [if_true, hkey, skipSpace_cons (show isSpace 0x3A = false by decide),
                    hreads.parse fuel _ hf hstop, skipSpace_cons hspace]
                  rcases hb with rfl | rfl <;> rfl
                split at hp
                next hb =>
                  subst hb
                  cases hp
                  refine ⟨0x22 :: (u ++ 0x3A :: (t ++ [0x7D])), by rw [hmember (by decide)]; simp,
                    ⟨_, rfl⟩, fun fuel x hf => ?_⟩
                  simp only [length_cons, length_append, length_nil] at hf
                  obtain ⟨fuel, rfl⟩ : ∃ n, fuel = n + 1 := ⟨fuel - 1, by omega⟩
                  simpa using hone fuel x (by omega) (.inr rfl)
                next hb =>
                  split at hp
                  next hb' =>
                    subst hb'
                    obtain ⟨⟨fields', r⟩, hr, heq⟩ := map_eq_some_iff.mp hp
                    cases heq
                    obtain ⟨t', ht', -, hread⟩ := h.members d l₂ fields' _ hr
                    refine ⟨0x22 :: (u ++ 0x3A :: (t ++ 0x2C :: t')),
                      by rw [hmember (by decide), ht']; simp, ⟨_, rfl⟩, fun fuel x hf => ?_⟩
                    simp only [length_cons, length_append] at hf
                    obtain ⟨fuel, rfl⟩ : ∃ n, fuel = n + 1 := ⟨fuel - 1, by omega⟩
                    have hcons := hone fuel (t' ++ x) (by omega) (.inl rfl)
                    rw [hread fuel x (by omega)] at hcons
                    simpa using hcons
                  · cases hp
          · cases hp
    · cases hp

theorem compactKeeps (fuel : ℕ) : CompactKeeps fuel := by
  induction fuel with
  | zero =>
    constructor <;> intro d s r rest hp <;>
      simp [parseValue, parseArray, parseItems, parseObject, parseMembers] at hp
  | succ fuel ih =>
    exact ⟨fun _ _ _ _ => ih.value_succ, fun _ _ _ _ => ih.array_succ, fun _ _ _ _ => ih.items_succ,
      fun _ _ _ _ => ih.object_succ, fun _ _ _ _ => ih.members_succ⟩

/-- A raw message, compacted, is read in its place with the value it has by itself. -/
theorem reads_compact (h : parse s = some v) : Reads maxDepth v (compact s) := by
  unfold parse at h
  split at h
  · cases h
  next v' rest hp =>
    split at h
    next hrest =>
      cases h
      obtain ⟨t, ht, hreads⟩ := (compactKeeps _).value _ _ _ _ hp
      rw [compactFrom_of_skipSpace_nil hrest, append_nil] at ht
      rwa [compact, ht]
    · cases h

theorem parse_compact (h : parse s = some v) : parse (compact s) = some v :=
  (reads_compact h).parse_eq

end Aok.Lib.JsonValue
