import Aok.Lib.Trace
import Aok.Runtime.Charging
import Aok.Runtime.Protocol

/-!
# Usage reports are booked once

A ledger keeps the id and the sequence number of the last report it booked and forgets all earlier
ones. A report is booked only above that number, so every report booked before lies at or below
it, and is not booked again however late it is delivered.
-/

namespace Aok.Protocol
open Lib Lib.Trace Aok.Runtime

deriving instance DecidableEq for Ledger
deriving instance DecidableEq for LedgerError

structure Report where
  id : UInt64
  seq : UInt64
  amount : UInt64

/-- A ledger with the reports that changed it, oldest first. -/
structure Account where
  ledger : Ledger
  booked : List Report

namespace Ledger

variable {l : Ledger} {r : Report}

def deliver (l : Ledger) (r : Report) : Ledger × Option LedgerError := l.apply r.id r.seq r.amount

/-- A report is booked above the last sequence number and within the limit, or changes nothing. -/
theorem deliver_cases (l : Ledger) (r : Report) : (l.deliver r).1 = l ∨
    l.lastSeq < r.seq ∧ (l.hardLimit ≠ 0 → l.used.toNat + r.amount.toNat ≤ l.hardLimit.toNat) ∧
      l.deliver r = (⟨l.hardLimit, saturatingAdd l.used r.amount, r.id, r.seq⟩, none) := by
  unfold deliver apply
  split_ifs with hid hseq hquota hsat
  · exact .inl rfl
  · exact .inl rfl
  · exact .inl rfl
  all_goals
    refine .inr ⟨UInt64.not_le.mp hseq, fun hl => ?_, ?_⟩
    · have hq : l.used ≤ l.hardLimit ∧ r.amount ≤ l.hardLimit - l.used := by
        simpa [hl] using hquota
      have hle := UInt64.le_iff_toNat_le.mp hq.2
      rw [UInt64.toNat_sub_of_le _ _ hq.1] at hle
      have := UInt64.le_iff_toNat_le.mp hq.1
      omega
    · have hroom : (maxUint64 - l.used).toNat = maxUint64.toNat - l.used.toNat :=
        UInt64.toNat_sub_of_le _ _ (UInt64.le_iff_toNat_le.mpr (by
          have := l.used.toNat_lt
          change _ ≤ 2 ^ 64 - 1
          omega))
      simp only [UInt64.lt_iff_toNat_lt, hroom] at hsat
      simp [saturatingAdd, hsat]

theorem deliver_refused (h : (l.deliver r).2 ≠ none) : (l.deliver r).1 = l :=
  (deliver_cases l r).resolve_right fun ⟨_, _, he⟩ => h (congrArg Prod.snd he)

/-- Only the last sequence number is compared, so this holds of reports of any age. -/
theorem deliver_old (h : r.seq ≤ l.lastSeq) : (l.deliver r).1 = l :=
  (deliver_cases l r).resolve_right fun ⟨hlt, _⟩ => UInt64.not_lt.mpr h hlt

end Ledger

namespace Account

variable {a : Account}

def deliver (a : Account) (r : Report) : Account where
  ledger := (a.ledger.deliver r).1
  booked := if (a.ledger.deliver r).1 = a.ledger then a.booked else a.booked ++ [r]

def total (rs : List Report) : ℕ := (rs.map (·.amount.toNat)).sum

structure Balanced (hardLimit : UInt64) (a : Account) : Prop where
  limit : a.ledger.hardLimit = hardLimit
  used : a.ledger.used.toNat = min maxUint64.toNat (total a.booked)
  within : hardLimit ≠ 0 → a.ledger.used ≤ hardLimit
  rising : (a.booked.map (·.seq)).Pairwise (· < ·)
  last : a.ledger.lastSeq = ((a.booked.map (·.seq)).getLast?).getD 0
  below : ∀ r ∈ a.booked, r.seq ≤ a.ledger.lastSeq

theorem Balanced.deliver {hardLimit : UInt64} (h : a.Balanced hardLimit) (r : Report) :
    (a.deliver r).Balanced hardLimit := by
  obtain he | ⟨hlt, hroom, he⟩ := a.ledger.deliver_cases r
  · have hsame : a.deliver r = a := by simp [Account.deliver, he]
    rwa [hsame]
  · have hne : (a.ledger.deliver r).1 ≠ a.ledger := fun hsame => by
      rw [he] at hsame
      exact UInt64.lt_irrefl _ (congrArg Ledger.lastSeq hsame ▸ hlt)
    have hused : (saturatingAdd a.ledger.used r.amount).toNat =
        min maxUint64.toNat (total (a.booked ++ [r])) := by
      rw [toNat_saturatingAdd, h.used]
      simp only [total, List.map_append, List.sum_append, List.map_cons, List.map_nil,
        List.sum_singleton]
      omega
    have hall : ∀ r' ∈ a.booked ++ [r], r'.seq ≤ r.seq := by
      intro r' hr'
      obtain hold | rfl := by simpa using hr'
      · exact UInt64.le_trans (h.below r' hold) (UInt64.le_of_lt hlt)
      · exact UInt64.le_refl _
    have hnew : a.deliver r =
        ⟨⟨a.ledger.hardLimit, saturatingAdd a.ledger.used r.amount, r.id, r.seq⟩,
          a.booked ++ [r]⟩ := by
      rw [he] at hne
      simp only [Account.deliver, he, if_neg hne]
    rw [hnew]
    refine ⟨h.limit, hused, fun hl => ?_, ?_, by simp, hall⟩
    · have hfits := hroom (h.limit.symm ▸ hl)
      rw [h.limit] at hfits
      rw [UInt64.le_iff_toNat_le, toNat_saturatingAdd]
      omega
    · rw [List.map_append, List.pairwise_append]
      refine ⟨h.rising, by simp, ?_⟩
      intro seq hseq seq' hseq'
      obtain ⟨r', hr', rfl⟩ := List.mem_map.mp hseq
      obtain rfl : seq' = r.seq := by simpa using hseq'
      exact UInt64.lt_of_le_of_lt (h.below r' hr') hlt

theorem balanced_run (hardLimit : UInt64) (rs : List Report) :
    (run deliver ⟨⟨hardLimit, 0, 0, 0⟩, []⟩ rs).Balanced hardLimit :=
  run_keeps (fun _ r h => h.deliver r)
    ⟨rfl, by simp [total], fun _ => UInt64.zero_le, .nil, rfl, by simp⟩ rs

end Account

/-- Through any calls of `Apply`, what is used is the saturating sum of the reports that changed
the ledger; none of them changes it again. -/
theorem ledger_books_once (hardLimit : UInt64) (rs : List Report) (r : Report) :
    let a := run Account.deliver ⟨⟨hardLimit, 0, 0, 0⟩, []⟩ rs
    a.ledger.used.toNat = min maxUint64.toNat (a.booked.map (·.amount.toNat)).sum ∧
    (hardLimit ≠ 0 → a.ledger.used ≤ hardLimit) ∧
    (a.booked.map (·.seq)).Pairwise (· < ·) ∧
    a.ledger.lastSeq = ((a.booked.map (·.seq)).getLast?).getD 0 ∧
    ((a.ledger.deliver r).1 ≠ a.ledger → a.ledger.lastSeq < (a.ledger.deliver r).1.lastSeq) ∧
    ((a.ledger.deliver r).2 ≠ none → (a.ledger.deliver r).1 = a.ledger) ∧
    (r ∈ a.booked → (a.ledger.deliver r).1 = a.ledger) := by
  intro a
  have h : a.Balanced hardLimit := Account.balanced_run hardLimit rs
  refine ⟨h.used, h.within, h.rising, h.last, fun hne => ?_, Ledger.deliver_refused,
    fun hr => Ledger.deliver_old (h.below r hr)⟩
  obtain hsame | ⟨hlt, -, he⟩ := a.ledger.deliver_cases r
  · exact absurd hsame hne
  · rwa [he]

end Aok.Protocol
