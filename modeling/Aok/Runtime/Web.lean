import Aok.Lib.Segments
import Aok.Runtime.Runs

/-!
# The reach of a web capability

A capability lists URL prefixes. `WebExecute` tests the requested URL and every redirect
against them by the bytes of the decoded path. The purpose of the test is stated on path
segments: what the prefix names and everything below it, once the dot segments of the target
are removed. A dot segment in the target and a slash at the end of a prefix are where the two
differ.
-/

namespace Aok.Runtime
open Lib Lib.Utf8 Lib.JsonText Lib.Command Lib.Segments List

/-! ## The checks of the source -/

/-- What `url.Parse` returns: the path is percent-decoded. -/
structure Url where
  scheme : GoString
  host : GoString
  path : GoString
deriving DecidableEq

/-- `url.Parse` and `strings.ToUpper`. Behind a host a path is empty or starts with a slash. -/
structure Urls where
  parse : GoString → Option Url
  upper : GoString → GoString
  parse_path : ∀ text u, parse text = some u → u.host ≠ [] → u.path = [] ∨ u.path.head? = some slash

structure WebCapability where
  kind : GoString
  urlPrefixes : List GoString
  methods : List GoString
  expiresAt : ℤ

structure WebRequest where
  kind : GoString
  method : GoString
  url : GoString

def kindRank (kind : GoString) : ℕ :=
  if kind = lit "web.fetch" then 1
  else if kind = lit "web.document" then 2
  else if kind = lit "web.session" then 3
  else if kind = lit "web.browser" then 4
  else 0

def errWebDenied : Err := .new "web capability denied"

def Url.admits (pp parsed : Url) : Bool :=
  if pp.host = [] then false
  else if pp.host ≠ parsed.host ∨ pp.scheme ≠ parsed.scheme then false
  else if pp.path = [] ∨ pp.path = [slash] then true
  else pp.path.isPrefixOf parsed.path &&
    (parsed.path.length == pp.path.length || parsed.path[pp.path.length]? == some slash)

def webPrefixAllowed (net : Urls) (prefixes : List GoString) (target : GoString) : Bool :=
  match net.parse target with
  | none => false
  | some parsed => prefixes.any fun text =>
    match net.parse text with
    | none => false
    | some pp => pp.admits parsed

/-- `CheckRedirect`, after `made` requests. -/
def checkRedirect (net : Urls) (cap : WebCapability) (made : ℕ) (url : GoString) :
    Except Err Unit :=
  if 5 ≤ made then .error (.new "web redirect limit")
  else if webPrefixAllowed net cap.urlPrefixes url then .ok ()
  else .error errWebDenied

/-- The redirects that are followed after `made` requests, when the servers name these. -/
def followRedirects (net : Urls) (cap : WebCapability) (made : ℕ) : List GoString → List GoString
  | [] => []
  | url :: urls =>
    match checkRedirect net cap made url with
    | .ok () => url :: followRedirects net cap (made + 1) urls
    | .error _ => []

/-- The checks of `WebExecute` on the URL. -/
def checkURL (net : Urls) (cap : WebCapability) (req : WebRequest) : Except Err Unit :=
  if kindRank req.kind = 0 then .error (.new "unknown web layer")
  else if kindRank cap.kind < kindRank req.kind then
    .error (.new "requested layer exceeds the granted capability")
  else match net.parse req.url with
    | none => .error (.new "invalid web url")
    | some parsed =>
      if parsed.scheme ≠ lit "https" ∧ parsed.scheme ≠ lit "http" then
        .error (.new "invalid web url")
      else if webPrefixAllowed net cap.urlPrefixes req.url then .ok ()
      else .error errWebDenied

variable {K : Type} (env : Env K)

/-- `WebExecute` up to the request; what follows the request is `webRecord`. -/
def webOpen (net : Urls) (applicationID : GoString) (cap : WebCapability) (req : WebRequest) :
    Op K Unit := do
  match checkURL net cap req with
  | .error e => fail e
  | .ok () => do
    let method := if net.upper req.method = [] then lit "GET" else net.upper req.method
    require (cap.methods = [] ∨ method ∈ cap.methods) errWebDenied
    if cap.expiresAt ≠ 0 then do
      let t ← now env
      require (t / 1000000000 ≤ cap.expiresAt) errWebDenied
    let s ← getState
    require ((s.applications[applicationID]?).any fun a => !a.isRetired) .applicationNotFound

def webRequests (net : Urls) (cap : WebCapability) (req : WebRequest) (redirects : List GoString) :
    List GoString :=
  req.url :: followRedirects net cap 1 redirects

/-! ## What a prefix is to admit -/

def segments (path : GoString) : List GoString := (splitPath path).tail

/-- The segments that stay when dot segments are removed, with those before them in reverse: `.`
and `..` are dropped, `..` with the segment before it, and at the end they leave an empty one. -/
def removeDots : List GoString → List GoString → List GoString
  | stack, [] => stack.reverse
  | stack, [x] =>
    if x = lit "." then ([] :: stack).reverse
    else if x = lit ".." then ([] :: stack.tail).reverse
    else (x :: stack).reverse
  | stack, x :: y :: rest =>
    if x = lit "." then removeDots stack (y :: rest)
    else if x = lit ".." then removeDots stack.tail (y :: rest)
    else removeDots (x :: stack) (y :: rest)

example : removeDots [] (segments (lit "/a/b/c/./../../g")) = [lit "a", lit "g"] := by
  decide +kernel
example : removeDots [] (segments (lit "/a/..")) = [[]] := by decide

def Url.IsAbove (pp parsed : Url) : Prop :=
  pp.host ≠ [] ∧ pp.host = parsed.host ∧ pp.scheme = parsed.scheme ∧
    segments (trimSuffix [slash] pp.path) <+: removeDots [] (segments parsed.path)

def InScope (net : Urls) (prefixes : List GoString) (target : GoString) : Prop :=
  ∃ parsed ∈ net.parse target, ∃ text ∈ prefixes, ∃ pp ∈ net.parse text, pp.IsAbove parsed

/-- A prefix whose path ends in no slash, and a target without dot segments, unless the prefix is
for the whole host. -/
def Url.IsPlain (pp parsed : Url) : Prop :=
  pp.path = [] ∨ pp.path = [slash] ∨
    (¬ [slash] <:+ pp.path ∧ ∀ x ∈ segments parsed.path, x ≠ lit "." ∧ x ≠ lit "..")

def PlainFor (net : Urls) (prefixes : List GoString) (target : GoString) : Prop :=
  ∀ parsed ∈ net.parse target, ∀ text ∈ prefixes, ∀ pp ∈ net.parse text,
    pp.host = parsed.host → pp.scheme = parsed.scheme → pp.IsPlain parsed

variable {net : Urls} {cap : WebCapability} {req : WebRequest} {prefixes : List GoString}
  {target : GoString}

theorem segments_spell {xs : List GoString} (h : Split slash xs) :
    segments (spell slash xs) = xs := by
  unfold segments splitPath
  rw [splitOn_spell h]
  rfl

theorem removeDots_of_plain {xs : List GoString} (h : ∀ x ∈ xs, x ≠ lit "." ∧ x ≠ lit "..")
    (stack : List GoString) : removeDots stack xs = stack.reverse ++ xs := by
  fun_induction removeDots stack xs with
  | case1 stack => simp
  | case2 stack => exact absurd rfl (h _ mem_cons_self).1
  | case3 stack => exact absurd rfl (h _ mem_cons_self).2
  | case4 stack x => simp
  | case5 stack y rest => exact absurd rfl (h _ mem_cons_self).1
  | case6 stack y rest => exact absurd rfl (h _ mem_cons_self).2
  | case7 stack x y rest _ _ ih =>
    rw [ih fun z hz => h z (mem_cons_of_mem _ hz)]
    simp

theorem prefix_test_iff {p t : GoString} :
    (p.isPrefixOf t && (t.length == p.length || t[p.length]? == some slash)) = true ↔
      t = p ∨ p ++ [slash] <+: t := by
  rw [Bool.and_eq_true, isPrefixOf_iff_prefix, Bool.or_eq_true, beq_iff_eq, beq_iff_eq]
  constructor
  · rintro ⟨⟨r, rfl⟩, h⟩
    rcases h with h | h
    · left
      simpa using h
    · right
      cases r with
      | nil => simp at h
      | cons a r =>
        obtain rfl : a = slash := by simpa using h
        exact ⟨r, by simp⟩
  · rintro (rfl | ⟨r, rfl⟩)
    · exact ⟨prefix_rfl, .inl rfl⟩
    · refine ⟨⟨slash :: r, by simp⟩, .inr ?_⟩
      simp

theorem exists_segments {path : GoString} (h : path = [] ∨ path.head? = some slash) :
    ∃ xs, Split slash xs ∧ path = spell slash xs := by
  rcases h with rfl | h
  · exact ⟨[], split_nil, rfl⟩
  · obtain ⟨xs, -, hxs, hp⟩ := exists_spell h
    exact ⟨xs, hxs, hp⟩

theorem admits_iff {pp parsed : Url}
    (hpp : pp.host ≠ [] → pp.path = [] ∨ pp.path.head? = some slash)
    (hparsed : parsed.host ≠ [] → parsed.path = [] ∨ parsed.path.head? = some slash)
    (hplain : pp.host = parsed.host → pp.scheme = parsed.scheme → pp.IsPlain parsed) :
    pp.admits parsed = true ↔ pp.IsAbove parsed := by
  unfold Url.admits Url.IsAbove
  by_cases hhost : pp.host = []
  · simp [hhost]
  by_cases hsame : pp.host ≠ parsed.host ∨ pp.scheme ≠ parsed.scheme
  · rw [if_neg hhost, if_pos hsame]
    have : ¬ (pp.host = parsed.host ∧ pp.scheme = parsed.scheme) := by
      rintro ⟨h, h'⟩
      exact hsame.elim (fun hn => hn h) fun hn => hn h'
    simp only [Bool.false_eq_true, false_iff]
    rintro ⟨-, h, h', -⟩
    exact this ⟨h, h'⟩
  obtain ⟨heq, hscheme⟩ := not_or.mp hsame
  rw [not_not] at heq hscheme
  rw [if_neg hhost, if_neg hsame]
  by_cases hroot : pp.path = [] ∨ pp.path = [slash]
  · have hnil : segments (trimSuffix [slash] pp.path) = [] := by
      rcases hroot with h | h <;> rw [h] <;> rfl
    rw [if_pos hroot, hnil]
    exact ⟨fun _ => ⟨hhost, heq, hscheme, nil_prefix⟩, fun _ => rfl⟩
  rw [if_neg hroot, prefix_test_iff]
  obtain ⟨hne, hns⟩ := not_or.mp hroot
  obtain ⟨hslash, hdots⟩ := ((hplain heq hscheme).resolve_left hne).resolve_left hns
  obtain ⟨xs, hxs, hx⟩ := exists_segments (hpp hhost)
  obtain ⟨ys, hys, hy⟩ := exists_segments (hparsed (heq ▸ hhost))
  have htrim : trimSuffix [slash] pp.path = pp.path := by
    unfold trimSuffix
    rw [if_neg]
    rwa [isSuffixOf_iff_suffix]
  rw [htrim, removeDots_of_plain hdots, reverse_nil, nil_append, hx, hy,
    segments_spell hxs, segments_spell hys, spell_below_iff hxs hys]
  exact ⟨fun h => ⟨hhost, heq, hscheme, h⟩, fun h => h.2.2.2⟩

theorem webPrefixAllowed_iff (h : PlainFor net prefixes target) :
    webPrefixAllowed net prefixes target = true ↔ InScope net prefixes target := by
  unfold webPrefixAllowed InScope
  cases hparsed : net.parse target with
  | none => simp
  | some parsed =>
    simp only [any_eq_true, Option.mem_def, Option.some.injEq, exists_eq_left']
    refine exists_congr fun text => and_congr_right fun htext => ?_
    cases hpp : net.parse text with
    | none => simp
    | some pp =>
      simp only [Option.some.injEq, exists_eq_left']
      exact admits_iff (net.parse_path text pp hpp) (net.parse_path target parsed hparsed)
        (h parsed hparsed text htext pp hpp)

theorem followRedirects_allowed {redirects : List GoString} {made : ℕ} :
    ∀ u ∈ followRedirects net cap made redirects,
      webPrefixAllowed net cap.urlPrefixes u = true := by
  induction redirects generalizing made with
  | nil => simp [followRedirects]
  | cons url urls ih =>
    unfold followRedirects checkRedirect
    by_cases hlimit : 5 ≤ made
    · simp [hlimit]
    by_cases hallowed : webPrefixAllowed net cap.urlPrefixes url = true
    · simp only [hlimit, if_false, hallowed, if_true]
      exact forall_mem_cons.mpr ⟨hallowed, ih⟩
    · simp [hlimit, hallowed]

theorem checkURL_allowed (h : checkURL net cap req = .ok ()) :
    webPrefixAllowed net cap.urlPrefixes req.url = true := by
  by_contra hno
  unfold checkURL at h
  simp only [hno, if_false] at h
  split at h
  · cases h
  split at h
  · cases h
  split at h
  · cases h
  · split_ifs at h

theorem checkURL_not_denied (h : webPrefixAllowed net cap.urlPrefixes req.url = true) :
    checkURL net cap req ≠ .error errWebDenied := by
  unfold checkURL
  split_ifs with h0 hrank
  · simp [errWebDenied]
  · simp [errWebDenied]
  · split
    · simp [errWebDenied]
    · split_ifs <;> simp [errWebDenied]

theorem webOpen_allowed {applicationID : GoString} {w : World K}
    (h : (webOpen env net applicationID cap req w).1 = .ok ()) :
    webPrefixAllowed net cap.urlPrefixes req.url = true := by
  cases hurl : checkURL net cap req with
  | error e =>
    simp only [webOpen, hurl] at h
    cases h
  | ok => exact checkURL_allowed hurl

namespace Sample

/-- The part of `url.Parse` for a scheme, a host and a path in which nothing is encoded. -/
def parseURL (text : GoString) : Option Url :=
  let scheme := text.takeWhile (· ≠ 0x3A)
  let rest := text.drop scheme.length
  if (lit "://").isPrefixOf rest then
    some ⟨scheme, (rest.drop 3).takeWhile (· ≠ slash), (rest.drop 3).dropWhile (· ≠ slash)⟩
  else none

theorem head?_dropWhile (l : GoString) :
    l.dropWhile (· ≠ slash) = [] ∨ (l.dropWhile (· ≠ slash)).head? = some slash := by
  cases h : l.dropWhile (· ≠ slash) with
  | nil => exact .inl rfl
  | cons a t =>
    have ha := head?_dropWhile_not (· ≠ slash) l
    rw [h] at ha
    right
    simpa using ha

def urls : Urls where
  parse := parseURL
  upper := id
  parse_path := by
    intro text u h _
    unfold parseURL at h
    dsimp only at h
    split_ifs at h
    cases h
    exact head?_dropWhile _

def web (text : String) : WebCapability := ⟨lit "web.fetch", [lit text], [], 0⟩

def get (text : String) : WebRequest := ⟨lit "web.fetch", [], lit text⟩

end Sample

open Sample

instance (pp parsed : Url) : Decidable (pp.IsAbove parsed) := inferInstanceAs (Decidable (_ ∧ _))

instance decidableUrlIsPlain (pp parsed : Url) : Decidable (pp.IsPlain parsed) :=
  inferInstanceAs (Decidable (_ ∨ _))

instance : Decidable (InScope net prefixes target) :=
  inferInstanceAs (Decidable (∃ parsed ∈ net.parse target, ∃ text ∈ prefixes, _))

instance : Decidable (PlainFor net prefixes target) :=
  inferInstanceAs (Decidable (∀ parsed ∈ net.parse target, ∀ text ∈ prefixes, _))

end Aok.Runtime
