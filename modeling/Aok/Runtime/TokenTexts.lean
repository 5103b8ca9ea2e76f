import Aok.Lib.JsonRoundTrip
import Aok.Runtime.Tokens

/-!
# The text of a token

A token is signed and hashed as the JSON text of its fields without the signature. For tokens
of valid UTF-8 strings the text determines the token, because it can be read back.
-/

namespace Aok.Runtime
open Lib Lib.Utf8 Lib.JsonText Lib.JsonValue Lib.Command List CapabilityToken

/-! ## Base64 -/

theorem base64Digit_inj {m n : ℕ} (hm : m < 64) (hn : n < 64) (h : base64Digit m = base64Digit n) :
    m = n := by
  have hall : ∀ m < 64, ∀ n < 64, base64Digit m = base64Digit n → m = n := by decide +kernel
  exact hall m hm n hn h

theorem base64Digit_range {n : ℕ} (hn : n < 64) :
    base64Digit n ≠ 0x3D ∧ (base64Digit n).toNat < 0x80 := by
  have hall : ∀ n < 64, base64Digit n ≠ 0x3D ∧ (base64Digit n).toNat < 0x80 := by decide +kernel
  exact hall n hn

theorem base64_ascii (s : Bytes) : ∀ b ∈ base64 s, b.toNat < 0x80 := by
  fun_induction base64 s with
  | case1 => simp
  | case2 a =>
    have ha := a.toNat_lt
    simp [(base64Digit_range (show a.toNat / 4 < 64 by omega)).2,
      (base64Digit_range (show a.toNat % 4 * 16 < 64 by omega)).2]
  | case3 a b =>
    have ha := a.toNat_lt
    have hb := b.toNat_lt
    simp [(base64Digit_range (show a.toNat / 4 < 64 by omega)).2,
      (base64Digit_range (show a.toNat % 4 * 16 + b.toNat / 16 < 64 by omega)).2,
      (base64Digit_range (show b.toNat % 16 * 4 < 64 by omega)).2]
  | case4 a b c rest ih =>
    have ha := a.toNat_lt
    have hb := b.toNat_lt
    have hc := c.toNat_lt
    simp only [forall_mem_cons]
    exact ⟨(base64Digit_range (by omega)).2, (base64Digit_range (by omega)).2,
      (base64Digit_range (by omega)).2, (base64Digit_range (by omega)).2, ih⟩

theorem valid_base64 (s : Bytes) : valid (base64 s) = true := valid_ascii (base64_ascii s)

theorem base64_injective : Function.Injective base64 := by
  intro s
  fun_induction base64 s with
  | case1 =>
    intro t h
    match t, h with
    | [], _ => rfl
    | [b], h | [b, c], h | b :: c :: d :: rest, h => simp [base64] at h
  | case2 a =>
    intro t h
    have ha := a.toNat_lt
    match t, h with
    | [b], h =>
      have hb := b.toNat_lt
      simp only [base64, cons.injEq, and_true] at h
      have h₁ := base64Digit_inj (by omega) (by omega) h.1
      have h₂ := base64Digit_inj (by omega) (by omega) h.2
      rw [UInt8.toNat_inj.mp (show a.toNat = b.toNat by omega)]
    | [b, c], h =>
      simp only [base64, cons.injEq] at h
      exact absurd h.2.2.1.symm (base64Digit_range (by omega)).1
    | b :: c :: d :: rest, h =>
      have hd := d.toNat_lt
      simp only [base64, cons.injEq] at h
      exact absurd h.2.2.1.symm (base64Digit_range (by omega)).1
  | case3 a b =>
    intro t h
    have ha := a.toNat_lt
    have hb := b.toNat_lt
    match t, h with
    | [c], h =>
      simp only [base64, cons.injEq] at h
      exact absurd h.2.2.1 (base64Digit_range (by omega)).1
    | [c, d], h =>
      have hc := c.toNat_lt
      have hd := d.toNat_lt
      simp only [base64, cons.injEq, and_true] at h
      have h₁ := base64Digit_inj (by omega) (by omega) h.1
      have h₂ := base64Digit_inj (by omega) (by omega) h.2.1
      have h₃ := base64Digit_inj (by omega) (by omega) h.2.2
      rw [UInt8.toNat_inj.mp (show a.toNat = c.toNat by omega),
        UInt8.toNat_inj.mp (show b.toNat = d.toNat by omega)]
    | c :: d :: e :: rest, h =>
      have he := e.toNat_lt
      simp only [base64, cons.injEq] at h
      exact absurd h.2.2.2.1.symm (base64Digit_range (by omega)).1
  | case4 a b c rest ih =>
    intro t h
    have ha := a.toNat_lt
    have hb := b.toNat_lt
    have hc := c.toNat_lt
    match t, h with
    | [d], h =>
      simp only [base64, cons.injEq] at h
      exact absurd h.2.2.1 (base64Digit_range (by omega)).1
    | [d, e], h =>
      simp only [base64, cons.injEq] at h
      exact absurd h.2.2.2.1 (base64Digit_range (by omega)).1
    | d :: e :: f :: rest', h =>
      have hd := d.toNat_lt
      have he := e.toNat_lt
      have hf := f.toNat_lt
      simp only [base64, cons.injEq] at h
      have h₁ := base64Digit_inj (by omega) (by omega) h.1
      have h₂ := base64Digit_inj (by omega) (by omega) h.2.1
      have h₃ := base64Digit_inj (by omega) (by omega) h.2.2.1
      have h₄ := base64Digit_inj (by omega) (by omega) h.2.2.2.1
      rw [UInt8.toNat_inj.mp (show a.toNat = d.toNat by omega),
        UInt8.toNat_inj.mp (show b.toNat = e.toNat by omega),
        UInt8.toNat_inj.mp (show c.toNat = f.toNat by omega), ih h.2.2.2.2]

/-! ## Tokens -/

def CapabilityGrant.strings (g : CapabilityGrant) : List GoString := [g.object, g.action]

def CapabilityToken.strings (t : CapabilityToken) : List GoString :=
  t.issuer :: t.subject :: t.caveats ++ t.grants.flatMap CapabilityGrant.strings

def CapabilityToken.IsValid (t : CapabilityToken) : Prop := ∀ s ∈ t.strings, valid s = true

instance (t : CapabilityToken) : Decidable t.IsValid :=
  inferInstanceAs (Decidable (∀ s ∈ t.strings, valid s = true))

def CapabilityGrant.parts (g : CapabilityGrant) : List Part :=
  [⟨"object", .str g.object, quote g.object⟩, ⟨"action", .str g.action, quote g.action⟩]

def CapabilityGrant.value (g : CapabilityGrant) : Value := .obj (g.parts.map Part.field)

def grantsPart (grants : List CapabilityGrant) : Part :=
  if grants = [] then ⟨"grants", .null, lit "null"⟩
  else ⟨"grants", .arr (grants.map CapabilityGrant.value), array (grants.map grantText)⟩

def caveatsParts (caveats : List GoString) : List Part :=
  if caveats = [] then []
  else [⟨"caveats", .arr (caveats.map .str), array (caveats.map quote)⟩]

def CapabilityToken.parts (t : CapabilityToken) : List Part :=
  [⟨"issuer", .str t.issuer, quote t.issuer⟩, ⟨"subject", .str t.subject, quote t.subject⟩,
    ⟨"expires_at", .num (decInt t.expiresAt), decInt t.expiresAt⟩,
    ⟨"public_key", .str (base64 t.publicKey), quote (base64 t.publicKey)⟩, grantsPart t.grants] ++
  caveatsParts t.caveats ++ [⟨"signature", .null, lit "null"⟩]

variable {t u : CapabilityToken}

theorem tokenBytes_eq_object (t : CapabilityToken) :
    tokenBytes t = object (t.parts.map Part.member) := by
  unfold tokenBytes parts grantsPart caveatsParts
  split_ifs <;> rfl

theorem CapabilityToken.IsValid.issuer (h : t.IsValid) : valid t.issuer = true :=
  h _ (by simp [strings])

theorem CapabilityToken.IsValid.subject (h : t.IsValid) : valid t.subject = true :=
  h _ (by simp [strings])

theorem CapabilityToken.IsValid.caveats (h : t.IsValid) {x : GoString} (hx : x ∈ t.caveats) :
    valid x = true :=
  h _ (by simp [strings, hx])

theorem reads_grant {d : ℕ} {g : CapabilityGrant} (h : ∀ s ∈ g.strings, valid s = true) :
    Reads (d + 1) g.value (grantText g) := by
  have hne : g.parts ≠ [] := by simp [CapabilityGrant.parts]
  refine reads_object hne fun p hp => ?_
  simp only [CapabilityGrant.parts, mem_cons, not_mem_nil, or_false] at hp
  rcases hp with rfl | rfl
  · exact reads_quote (h _ (by simp [CapabilityGrant.strings]))
  · exact reads_quote (h _ (by simp [CapabilityGrant.strings]))

theorem reads_token {d : ℕ} (h : t.IsValid) :
    Reads (d + 3) (.obj (t.parts.map Part.field)) (tokenBytes t) := by
  rw [tokenBytes_eq_object]
  refine reads_object (by simp [parts]) fun p hp => ?_
  have hgrants : Reads (d + 2) (.arr (t.grants.map CapabilityGrant.value))
      (array (t.grants.map grantText)) := by
    have hall : ReadsAll (d + 1) (t.grants.map fun g => (g.value, grantText g)) := by
      rintro _ hx
      obtain ⟨g, hg, rfl⟩ := mem_map.mp hx
      refine reads_grant fun s hs => h s ?_
      exact mem_append_right _ (mem_flatMap.mpr ⟨g, hg, hs⟩)
    simpa [Function.comp_def] using reads_array hall
  have hcaveats : Reads (d + 2) (.arr (t.caveats.map .str)) (array (t.caveats.map quote)) := by
    have hall : ReadsAll (d + 1) (t.caveats.map fun s => (.str s, quote s)) := by
      rintro _ hx
      obtain ⟨s, hs, rfl⟩ := mem_map.mp hx
      exact reads_quote (h.caveats hs)
    simpa [Function.comp_def] using reads_array hall
  simp only [parts, mem_append, mem_cons, not_mem_nil,
    or_false] at hp
  rcases hp with ((rfl | rfl | rfl | rfl | rfl) | hp) | rfl
  · exact reads_quote h.issuer
  · exact reads_quote h.subject
  · exact reads_decInt _
  · exact reads_quote (valid_base64 _)
  · unfold grantsPart
    split_ifs
    · exact reads_null
    · exact hgrants
  · unfold caveatsParts at hp
    split_ifs at hp with hc
    · simp at hp
    · cases mem_singleton.mp hp
      exact hcaveats
  · exact reads_null

theorem decInt_injective : Function.Injective decInt := by
  intro m n h
  have hnil : ∀ b ∈ ([] : Bytes).head?, isDigit b = false := by simp
  exact (decInt_append_inj hnil hnil (congrArg (· ++ []) h)).1

theorem grantValue_injective : Function.Injective CapabilityGrant.value := by
  intro g g' h
  simp only [CapabilityGrant.value, CapabilityGrant.parts, Part.field, map_cons, map_nil,
    Value.obj.injEq, cons.injEq, Prod.mk.injEq, Value.str.injEq, true_and, and_true] at h
  cases g
  cases g'
  simpa using h

theorem grantsPart_inj {l l' : List CapabilityGrant}
    (h : (grantsPart l).field = (grantsPart l').field) : l = l' := by
  unfold grantsPart at h
  split_ifs at h with hl hl' hl'
  · rw [hl, hl']
  · simp [Part.field] at h
  · simp [Part.field] at h
  · have hv := Value.arr.inj (Prod.mk.inj h).2
    exact grantValue_injective.list_map hv

theorem caveatsParts_inj {l l' : List GoString}
    (h : (caveatsParts l).map Part.field = (caveatsParts l').map Part.field) : l = l' := by
  unfold caveatsParts at h
  split_ifs at h with hl hl' hl'
  · rw [hl, hl']
  · simp at h
  · simp at h
  · have hv := Value.arr.inj (Prod.mk.inj (cons.inj h).1).2
    have hstr : Function.Injective Value.str := fun _ _ => Value.str.inj
    exact hstr.list_map hv

theorem tokenBytes_inj (ht : t.IsValid) (hu : u.IsValid) (h : tokenBytes t = tokenBytes u) :
    t = { u with signature := t.signature } := by
  have hread : ∀ {x : CapabilityToken}, x.IsValid →
      parse (tokenBytes x) = some (.obj (x.parts.map Part.field)) := fun hx =>
    Reads.parse_eq (reads_token (d := 9997) hx)
  have hparse := hread ht
  rw [h, hread hu] at hparse
  have hfields := Value.obj.inj (Option.some.inj hparse)
  simp only [parts, map_append, map_cons, map_nil, cons_append,
    nil_append, cons.injEq] at hfields
  obtain ⟨hissuer, hsubject, hexpires, hkey, hgrants, hrest⟩ := hfields
  have hcaveats := caveatsParts_inj (append_cancel_right hrest)
  have hexpires' := decInt_injective (Value.num.inj (Prod.mk.inj hexpires).2)
  have hkey' := base64_injective (Value.str.inj (Prod.mk.inj hkey).2)
  cases t
  cases u
  simp only [mk.injEq, and_true]
  exact ⟨(Value.str.inj (Prod.mk.inj hissuer).2).symm, (Value.str.inj (Prod.mk.inj hsubject).2).symm,
    hexpires'.symm, hkey'.symm, (grantsPart_inj hgrants).symm, hcaveats.symm⟩

end Aok.Runtime
