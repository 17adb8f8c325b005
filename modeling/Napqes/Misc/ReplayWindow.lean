import Mathlib.Tactic

/-!
# Replay windows

A receiver keeps, for each source, the last number it accepted, and accepts a number only if
it is beyond that one. A log of what was accepted is then strictly increasing for each source,
whatever else happens between two acceptances, as long as the window covers the log.
-/

namespace Napqes.ReplayWindow

variable {κ σ : Type} [LT σ]

/-- Later entries of one source carry larger numbers. -/
def Increasing (log : List (κ × σ)) : Prop := log.Pairwise fun a b => a.1 = b.1 → a.2 < b.2

/-- No accepted number is beyond the last one seen from its source. -/
def Covers [LE σ] (last : κ → σ) (log : List (κ × σ)) : Prop := ∀ e ∈ log, e.2 ≤ last e.1

section
variable [LE σ] [Std.LawfulOrderLT σ] [Std.IsPreorder σ]

/-- Accepting a number beyond the last one seen keeps the log increasing. -/
theorem Increasing.append {last : κ → σ} {log : List (κ × σ)} (h : Increasing log)
    (hcovers : Covers last log) {k : κ} {n : σ} (hn : last k < n) :
    Increasing (log ++ [(k, n)]) := by
  rw [Increasing, List.pairwise_append]
  refine ⟨h, List.pairwise_singleton _ _, ?_⟩
  intro e he x hx heq
  rw [List.mem_singleton.mp hx] at heq ⊢
  exact Std.lt_of_le_of_lt (hcovers e he) (by rw [heq]; exact hn)

/-- Accepting a number beyond the last one seen keeps the log covered. -/
theorem Covers.append [DecidableEq κ] {last : κ → σ} {log : List (κ × σ)}
    (h : Covers last log) {k : κ} {n : σ} (hn : last k < n) :
    Covers (Function.update last k n) (log ++ [(k, n)]) := by
  intro e he
  rcases List.mem_append.mp he with he | he
  · by_cases hk : e.1 = k
    · rw [hk, Function.update_self]
      exact Std.le_of_lt (Std.lt_of_le_of_lt (h e he) (by rw [hk]; exact hn))
    · rw [Function.update_of_ne hk]
      exact h e he
  · rw [List.mem_singleton.mp he, Function.update_self]
    exact Std.le_refl n

end

/-- The numbers accepted from one source, in order, are strictly increasing. -/
theorem Increasing.filter [DecidableEq κ] {log : List (κ × σ)} (h : Increasing log) (k : κ) :
    ((log.filter fun e => e.1 = k).map Prod.snd).Pairwise (· < ·) := by
  rw [List.pairwise_map]
  refine List.Pairwise.imp_of_mem ?_ (List.Pairwise.filter _ h)
  intro a b ha hb hab
  have hak : a.1 = k := by simpa using (List.mem_filter.mp ha).2
  have hbk : b.1 = k := by simpa using (List.mem_filter.mp hb).2
  exact hab (hak.trans hbk.symm)

/-- In a strictly increasing log, what is beyond an earlier number ends in what is beyond a later
one of the log. -/
theorem filter_beyond {α σ : Type} [LT σ] [DecidableLT σ] [LE σ] [Std.LawfulOrderLT σ]
    [Std.IsPreorder σ] {f : α → σ} {l : List α}
    (h : l.Pairwise fun a b => f a < f b) {x : α} (hx : x ∈ l) {n : σ} (hn : n < f x) :
    ∃ before, l.filter (fun a => n < f a) = before ++ x :: l.filter (fun a => f x < f a) := by
  obtain ⟨front, back, rfl⟩ := List.append_of_mem hx
  rw [List.pairwise_append, List.pairwise_cons] at h
  obtain ⟨-, ⟨hback, -⟩, hfront⟩ := h
  have hnone : front.filter (fun a => f x < f a) = [] := by
    rw [List.filter_eq_nil_iff]
    intro a ha
    simpa using fun hx => Std.lt_irrefl (Std.lt_trans (hfront a ha x List.mem_cons_self) hx)
  have hall : back.filter (fun a => n < f a) = back.filter (fun a => f x < f a) := by
    rw [List.filter_eq_self.mpr, List.filter_eq_self.mpr]
    · intro a ha
      simpa using hback a ha
    · intro a ha
      simpa using Std.lt_trans hn (hback a ha)
  refine ⟨front.filter (fun a => n < f a), ?_⟩
  rw [List.filter_append, List.filter_append, hnone, List.nil_append,
    List.filter_cons_of_pos (by simpa using hn), hall,
    List.filter_cons_of_neg (by simpa using Std.lt_irrefl)]

/-- Nothing is accepted twice. -/
theorem Increasing.nodup [Std.Irrefl (α := σ) (· < ·)] {log : List (κ × σ)}
    (h : Increasing log) : log.Nodup := by
  refine List.Pairwise.imp ?_ h
  rintro a b hab rfl
  exact Std.Irrefl.irrefl a.2 (hab rfl)

end Napqes.ReplayWindow
