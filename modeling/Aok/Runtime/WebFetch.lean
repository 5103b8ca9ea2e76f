import Aok.Runtime.Auditing
import Aok.Runtime.Web

/-!
# The body of a web response

`webFetch` reads one byte more than the capability allows, so that a longer body shows. Its
answer is the size and the hash of the whole body, unless the limit is the largest `int64` and
one more byte is a negative number of bytes.
-/

namespace Aok.Runtime
open Lib Lib.Utf8 Lib.JsonText

/-- What an `io.Reader` gives: bytes, and then the end or an error. The error comes with the last
of the bytes or after them. -/
structure Body where
  data : Bytes
  fault : Option Err
  together : Bool

/-- `io.LimitReader`: the end comes after `n` bytes, at once if `n` is not positive. -/
def limitReader (r : Body) (n : Int64) : Body where
  data := r.data.take n.toInt.toNat
  fault :=
    if r.data.length < n.toInt.toNat ∨ (r.data.length = n.toInt.toNat ∧ r.together) then r.fault
    else none
  together := r.together

/-- `io.ReadAll`: the end is no error. -/
def readAll (r : Body) : Except Err Bytes :=
  match r.fault with
  | none => .ok r.data
  | some e => .error e

/-- A capability with its `MaxResponseBytes`. -/
structure FetchCapability extends WebCapability where
  maxResponseBytes : Int64

structure FetchRequest extends WebRequest where
  body : GoString
  maxBytes : Int64

/-- `resp`: `url` is the one of `resp.Request`, if there is one. -/
structure Response where
  status : ℤ
  url : Option GoString
  contentType : GoString
  body : Body

structure WebResult where
  kind : GoString
  url : GoString
  status : ℤ
  contentSHA256 : Digest
  bytes : Int64
  contentType : GoString
  taint : UInt64
  fetchedAt : ℤ

/-- Where `WebExecute` sets the bound of the request. -/
def FetchRequest.bounded (req : FetchRequest) (cap : FetchCapability) : FetchRequest :=
  { req with
    maxBytes := if cap.maxResponseBytes ≤ 0 then (1 : Int64) <<< 20 else cap.maxResponseBytes }

section
variable (sha256 : Bytes → Digest) (net : Urls)
  (send : GoString → GoString → GoString → Except Err Response) (time : ℤ)

/-- `http.NewRequest` and `client.Do`, which are `send` on the method, the URL and the body. -/
def exchange (req : FetchRequest) : Except Err Response :=
  send (if net.upper req.method = [] then lit "GET" else net.upper req.method) req.url req.body

def webFetch (req : FetchRequest) : Except Err (WebResult × Bytes) := do
  let resp ← exchange net send req
  let limit := req.maxBytes
  let body ← readAll (limitReader resp.body (limit + 1))
  if limit < Int64.ofNat body.length then
    .error (.new "web response exceeds the fetch limit")
  else
    pure (⟨lit "web.fetch", resp.url.getD req.url, resp.status, sha256 body,
      Int64.ofNat body.length, resp.contentType, taintExternal, time⟩, body)

end

theorem toInt_add_one {n : Int64} (h : n ≠ Int64.maxValue) : (n + 1).toInt = n.toInt + 1 := by
  have hne : n.toInt ≠ 2 ^ 63 - 1 := fun hn => h (Int64.toInt_inj.mp (hn.trans rfl))
  have hlow := n.le_toInt
  have hhigh := n.toInt_lt
  rw [Int64.toInt_add, Int64.toInt_one]
  exact Int.bmod_eq_of_le (by norm_num; omega) (by norm_num; omega)

theorem FetchRequest.maxBytes_bounded (req : FetchRequest) (cap : FetchCapability) :
    0 < (req.bounded cap).maxBytes.toInt ∧ ((req.bounded cap).maxBytes = Int64.maxValue ↔
      cap.maxResponseBytes = Int64.maxValue) := by
  unfold FetchRequest.bounded
  dsimp only
  split_ifs with h
  · refine ⟨by decide, ⟨fun h' => absurd h' (by decide), fun h' => ?_⟩⟩
    exact absurd (h' ▸ h) (by decide)
  · refine ⟨?_, Iff.rfl⟩
    rw [Int64.le_iff_toInt_le, not_le] at h
    exact h

theorem toInt_length {b : Bytes} (n : Int64) (h : b.length ≤ n.toInt.toNat) :
    (Int64.ofNat b.length).toInt = b.length := by
  have hlt := n.toInt_lt
  exact Int64.toInt_ofNat_of_lt (by omega)

theorem length_readAll {r : Body} {n : Int64} {b : Bytes}
    (h : readAll (limitReader r n) = .ok b) : b.length ≤ n.toInt.toNat := by
  unfold readAll limitReader at h
  dsimp only at h
  split at h <;> cases h
  exact List.length_take_le _ _

/-- What is read with one byte more is within the limit exactly if it is a whole body that is. -/
theorem readAll_limitReader {r : Body} {limit : Int64} {b : Bytes} (hpos : 0 < limit.toInt)
    (hmax : limit = Int64.maxValue → r.data = [] ∧ r.fault = none) :
    readAll (limitReader r (limit + 1)) = .ok b ∧ (b.length : ℤ) ≤ limit.toInt ↔
      r.fault = none ∧ b = r.data ∧ (b.length : ℤ) ≤ limit.toInt := by
  rw [← and_assoc]
  refine and_congr_left fun hlen => ?_
  unfold readAll limitReader
  by_cases hm : limit = Int64.maxValue
  · obtain ⟨hdata, hfault⟩ := hmax hm
    simp only [hdata, hfault, List.take_nil, ite_self, Except.ok.injEq, true_and]
    exact eq_comm
  have hone : (limit + 1).toInt.toNat = limit.toInt.toNat + 1 := by
    rw [toInt_add_one hm]
    omega
  rw [hone]
  constructor
  · intro hread
    dsimp only at hread
    split at hread
    · next hnone =>
      cases hread
      rw [List.length_take] at hlen
      have hle : r.data.length < limit.toInt.toNat + 1 := by omega
      rw [if_pos (.inl hle)] at hnone
      exact ⟨hnone, List.take_of_length_le (by omega)⟩
    · cases hread
  · rintro ⟨hfault, rfl⟩
    simp only [hfault, ite_self]
    rw [List.take_of_length_le (by omega)]

section
variable (sha256 : Bytes → Digest) (net : Urls)
  (send : GoString → GoString → GoString → Except Err Response) (time : ℤ)

theorem webFetch_eq_ok_iff {req : FetchRequest} (result : WebResult) (body : Bytes)
    (hpos : 0 < req.maxBytes.toInt)
    (hmax : req.maxBytes = Int64.maxValue → ∀ resp, exchange net send req = .ok resp →
      resp.body.data = [] ∧ resp.body.fault = none) :
    webFetch sha256 net send time req = .ok (result, body) ↔
      ∃ resp, exchange net send req = .ok resp ∧
        (resp.body.fault = none ∧ body = resp.body.data ∧
          (body.length : ℤ) ≤ req.maxBytes.toInt) ∧
        result = ⟨lit "web.fetch", resp.url.getD req.url, resp.status, sha256 body,
          Int64.ofNat body.length, resp.contentType, taintExternal, time⟩ := by
  unfold webFetch
  cases hex : exchange net send req with
  | error e => simp [bind, Except.bind]
  | ok resp =>
    simp only [Except.ok.injEq, exists_eq_left']
    rw [← readAll_limitReader hpos fun h => hmax h resp hex]
    cases hread : readAll (limitReader resp.body (req.maxBytes + 1)) with
    | error e => simp [bind, Except.bind, hread]
    | ok b =>
      have hlt : req.maxBytes < Int64.ofNat b.length ↔ ¬ (b.length : ℤ) ≤ req.maxBytes.toInt := by
        rw [Int64.lt_iff_toInt_lt, toInt_length _ (length_readAll hread), not_le]
      simp only [bind, Except.bind, hread, hlt, Except.ok.injEq]
      by_cases hle : (b.length : ℤ) ≤ req.maxBytes.toInt
      · rw [if_neg (not_not.mpr hle)]
        constructor
        · intro h
          cases h
          exact ⟨⟨rfl, hle⟩, rfl⟩
        · rintro ⟨⟨rfl, -⟩, rfl⟩
          rfl
      · rw [if_pos hle]
        constructor
        · intro h
          cases h
        · rintro ⟨⟨rfl, h⟩, -⟩
          exact absurd h hle

end

namespace Sample

def fetchCapability (limit : Int64) : FetchCapability := ⟨web "https://h/a", limit⟩

def fetchRequest : FetchRequest := ⟨get "https://h/a", [], 0⟩

/-- A server that answers with this body. -/
def serve (body : Bytes) (_ _ _ : GoString) : Except Err Response :=
  .ok ⟨200, none, [], ⟨body, none, false⟩⟩

end Sample

open Sample

end Aok.Runtime
