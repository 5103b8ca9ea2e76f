import Mathlib

/-!
# Reading a growing log page by page

The entries of a log have growing cursors. A page holds the first entries after a cursor, at most
a limit, and the reader goes on from the last cursor of the page. Between two pages the log may
grow at its end. What has been read is at all times the front of what there is to read.
-/

namespace Aok.Lib.Pages
open List

variable {α : Type} (cursor : α → ℤ)

def after (start : ℤ) (log : List α) : List α := log.filter fun x => start < cursor x

def page (log : List α) (start : ℤ) (limit : ℕ) : List α := (after cursor start log).take limit

def advance (start : ℤ) (read : List α) : ℤ := (read.getLast?.map cursor).getD start

def Ordered (log : List α) : Prop := log.Pairwise fun x y => cursor x < cursor y

variable {cursor} {log read rest : List α} {start : ℤ} {limit : ℕ}

theorem Ordered.after (h : Ordered cursor log) (start : ℤ) :
    Ordered cursor (after cursor start log) :=
  h.filter _

theorem advance_append (start : ℤ) (read more : List α) :
    advance cursor start (read ++ more) = advance cursor (advance cursor start read) more := by
  cases more using reverseRecOn with
  | nil => simp [advance]
  | append_singleton more x => simp [advance, ← append_assoc]

theorem after_advance (hlog : Ordered cursor log) (hread : after cursor start log = read ++ rest) :
    after cursor (advance cursor start read) log = rest := by
  have hordered : Ordered cursor (read ++ rest) := hread ▸ hlog.after start
  have hmem : ∀ x ∈ read ++ rest, start < cursor x := by
    intro x hx
    rw [← hread, after, mem_filter] at hx
    simpa using hx.2
  cases read using reverseRecOn with
  | nil => simpa [advance] using hread
  | append_singleton front last =>
    have hadvance : advance cursor start (front ++ [last]) = cursor last := by simp [advance]
    have hlast : start < cursor last := hmem last (by simp)
    -- the entries after the last one read are among those after the start
    have hfilter : after cursor (cursor last) log =
        after cursor (cursor last) (after cursor start log) := by
      unfold after
      rw [filter_filter]
      refine filter_congr fun x _ => ?_
      by_cases hx : cursor last < cursor x
      · simp [hx, hlast.trans hx]
      · simp [hx]
    rw [hadvance, hfilter, hread]
    obtain ⟨hfront, hrest, hbefore⟩ := pairwise_append.mp hordered
    unfold after
    rw [filter_append, filter_eq_nil_iff.mpr, filter_eq_self.mpr, nil_append]
    · intro x hx
      simpa using hbefore last (by simp) x hx
    · intro x hx
      rcases mem_append.mp hx with hx | hx
      · have := (pairwise_append.mp hfront).2.2 x hx last (by simp)
        simp [this.le]
      · simp [mem_singleton.mp hx]

theorem read_page (hlog : Ordered cursor log) (hread : read <+: after cursor start log)
    (limit : ℕ) : read ++ page cursor log (advance cursor start read) limit =
      (after cursor start log).take (read.length + limit) := by
  obtain ⟨rest, hrest⟩ := hread
  rw [page, after_advance hlog hrest.symm, ← hrest, take_length_add_append]

theorem prefix_after {log' : List α} (h : log <+: log') (start : ℤ) :
    after cursor start log <+: after cursor start log' := by
  obtain ⟨more, rfl⟩ := h
  rw [after, after, filter_append]
  exact prefix_append _ _

end Aok.Lib.Pages
