import Mathlib.Data.Finset.Image
import Mathlib.Data.Fintype.Basic
import Mathlib.Tactic

/-!
# The first distinct elements of a sequence that pass a test

`firstDistinct p xs` are the elements of `xs` that pass `p`, each at its first occurrence. A loop
that reads a sequence and keeps what passes and is new has kept `firstDistinct` of what it has
read; `hits p draws t` is that for the first `t` elements of an infinite sequence.
-/

namespace Napqes

variable {α : Type} [DecidableEq α] {p : α → Bool} {xs ys : List α} {x : α}

/-- The distinct elements that pass the test, in the order of their first occurrence. -/
def firstDistinct (p : α → Bool) (xs : List α) : List α := (xs.filter p).eraseDups

theorem eraseDups_concat (xs : List α) (x : α) :
    (xs ++ [x]).eraseDups = if x ∈ xs then xs.eraseDups else xs.eraseDups ++ [x] := by
  rw [List.eraseDups_append]
  by_cases hx : x ∈ xs
  · simp [List.removeAll, hx]
  · simp [List.removeAll, hx, List.eraseDups_cons]

theorem mem_eraseDups : x ∈ xs.eraseDups ↔ x ∈ xs := by
  induction xs using List.reverseRecOn with
  | nil => simp
  | append_singleton xs y ih =>
      rw [eraseDups_concat]
      by_cases hy : y ∈ xs
      · rw [if_pos hy, ih, List.mem_append, List.mem_singleton]
        constructor
        · exact Or.inl
        · rintro (h | rfl)
          · exact h
          · exact hy
      · rw [if_neg hy, List.mem_append, List.mem_append, ih]

theorem nodup_eraseDups (xs : List α) : xs.eraseDups.Nodup := by
  induction xs using List.reverseRecOn with
  | nil => simp
  | append_singleton xs y ih =>
      rw [eraseDups_concat]
      by_cases hy : y ∈ xs
      · rwa [if_pos hy]
      · rw [if_neg hy, List.nodup_append]
        refine ⟨ih, List.nodup_singleton y, ?_⟩
        intro a ha b hb
        rw [List.mem_singleton] at hb
        rintro rfl
        exact hy (hb ▸ mem_eraseDups.mp ha)

theorem mem_firstDistinct : x ∈ firstDistinct p xs ↔ x ∈ xs ∧ p x = true := by
  rw [firstDistinct, mem_eraseDups, List.mem_filter]

theorem nodup_firstDistinct (p : α → Bool) (xs : List α) : (firstDistinct p xs).Nodup :=
  nodup_eraseDups _

/-- One more element: it is kept when it passes and is new. -/
theorem firstDistinct_concat (p : α → Bool) (xs : List α) (x : α) :
    firstDistinct p (xs ++ [x]) =
      if x ∉ firstDistinct p xs ∧ p x = true then firstDistinct p xs ++ [x]
      else firstDistinct p xs := by
  by_cases hp : p x = true
  · have hmem : x ∈ xs.filter p ↔ x ∈ firstDistinct p xs := by
      rw [mem_firstDistinct, List.mem_filter]
    rw [firstDistinct, List.filter_append, List.filter_cons_of_pos hp, List.filter_nil,
      eraseDups_concat]
    by_cases hx : x ∈ firstDistinct p xs
    · rw [if_pos (hmem.mpr hx), if_neg (fun h => h.1 hx)]
      rfl
    · rw [if_neg (fun h => hx (hmem.mp h)), if_pos ⟨hx, hp⟩]
      rfl
  · rw [if_neg (fun h => hp h.2), firstDistinct, List.filter_append, List.filter_cons_of_neg hp,
      List.filter_nil, List.append_nil]
    rfl

theorem firstDistinct_isPrefix (p : α → Bool) (xs ys : List α) :
    firstDistinct p xs <+: firstDistinct p (xs ++ ys) := by
  rw [firstDistinct, firstDistinct, List.filter_append, List.eraseDups_append]
  exact List.prefix_append _ _

/-- The number kept is the number of distinct elements that pass. -/
theorem length_firstDistinct (p : α → Bool) (xs : List α) :
    (firstDistinct p xs).length = (xs.toFinset.filter (p · = true)).card := by
  have hset : (firstDistinct p xs).toFinset = xs.toFinset.filter (p · = true) := by
    ext x
    rw [List.mem_toFinset, Finset.mem_filter, List.mem_toFinset, mem_firstDistinct]
  rw [← hset, List.toFinset_card_of_nodup (nodup_firstDistinct p xs)]

/-! ## Infinite sequences -/

variable {draws : Nat → α} {t u count : Nat}

/-- The distinct passing elements among the first `t` of a sequence. -/
def hits (p : α → Bool) (draws : Nat → α) (t : Nat) : List α :=
  firstDistinct p ((List.range t).map draws)

@[simp] theorem hits_zero (p : α → Bool) (draws : Nat → α) : hits p draws 0 = [] := rfl

theorem hits_succ (p : α → Bool) (draws : Nat → α) (t : Nat) :
    hits p draws (t + 1) =
      if draws t ∉ hits p draws t ∧ p (draws t) = true then hits p draws t ++ [draws t]
      else hits p draws t := by
  rw [hits, List.range_succ, List.map_append, List.map_singleton, firstDistinct_concat]
  rfl

/-- The test matters only on what the sequence holds. -/
theorem hits_congr {q : α → Bool} (h : ∀ i, p (draws i) = q (draws i)) (t : Nat) :
    hits p draws t = hits q draws t := by
  rw [hits, hits, firstDistinct, firstDistinct]
  apply congrArg
  apply List.filter_congr
  intro x hx
  obtain ⟨i, -, rfl⟩ := List.mem_map.mp hx
  exact h i

theorem mem_hits : x ∈ hits p draws t ↔ (∃ i < t, draws i = x) ∧ p x = true := by
  rw [hits, mem_firstDistinct, List.mem_map]
  simp only [List.mem_range]

theorem nodup_hits (p : α → Bool) (draws : Nat → α) (t : Nat) : (hits p draws t).Nodup :=
  nodup_firstDistinct _ _

theorem hits_isPrefix (p : α → Bool) (draws : Nat → α) (h : t ≤ u) :
    hits p draws t <+: hits p draws u := by
  obtain ⟨d, rfl⟩ := Nat.exists_eq_add_of_le h
  rw [hits, hits, List.range_add, List.map_append]
  exact firstDistinct_isPrefix _ _ _

theorem length_hits (p : α → Bool) (draws : Nat → α) (t : Nat) :
    (hits p draws t).length = (((Finset.range t).image draws).filter (p · = true)).card := by
  have hset : ((List.range t).map draws).toFinset = (Finset.range t).image draws := by
    ext x
    simp
  rw [hits, length_firstDistinct, hset]

/-- Once enough have been kept, reading on does not change the first ones. -/
theorem take_hits_of_le (h : t ≤ u) (hlen : count ≤ (hits p draws t).length) :
    (hits p draws u).take count = (hits p draws t).take count := by
  obtain ⟨rest, hrest⟩ := hits_isPrefix p draws h
  rw [← hrest, List.take_append_of_le_length hlen]

theorem take_hits (h : t ≤ u) (hlen : (hits p draws t).length = count) :
    (hits p draws u).take count = hits p draws t := by
  rw [take_hits_of_le h (Nat.le_of_eq hlen.symm), ← hlen, List.take_length]

/-- The rule for a loop that reads a sequence and keeps what passes and is new, until it has
`count` elements (`done`) or the sequence ends (`fail`). The three hypotheses are the loop's
equations; the value is that of the first `count` hits. -/
theorem loop_eq_of_collects {β : Type} {loop : List α → Nat → β} {done : List α → β} {fail : β}
    {budget : Nat} (hdone : ∀ out t, ¬ out.length < count → loop out t = done out)
    (hfail : ∀ out, out.length < count → loop out budget = fail)
    (hnext : ∀ out t, out.length < count → t < budget →
      loop out t =
        if draws t ∉ out ∧ p (draws t) = true then loop (out ++ [draws t]) (t + 1)
        else loop out (t + 1))
    (t : Nat) (ht : t ≤ budget) (hlen : (hits p draws t).length ≤ count) :
    loop (hits p draws t) t =
      if count ≤ (hits p draws budget).length then done ((hits p draws budget).take count)
      else fail := by
  induction hleft : budget - t generalizing t with
  | zero =>
      have hend : t = budget := Nat.le_antisymm ht (Nat.le_of_sub_eq_zero hleft)
      subst hend
      by_cases hfew : (hits p draws t).length < count
      · rw [hfail _ hfew, if_neg (Nat.not_le.mpr hfew)]
      · have hfull := Nat.le_antisymm hlen (Nat.le_of_not_lt hfew)
        rw [hdone _ _ hfew, if_pos (Nat.le_of_not_lt hfew), take_hits ht hfull]
  | succ left ih =>
      by_cases hfew : (hits p draws t).length < count
      · have hstep := hits_succ p draws t
        have hshort : (hits p draws (t + 1)).length ≤ count := by
          rw [hstep]
          split
          case isTrue =>
            rw [List.length_append, List.length_singleton]
            exact hfew
          case isFalse => exact hlen
        rw [hnext _ _ hfew (by omega), ← ih (t + 1) (by omega) hshort (by omega), hstep]
        by_cases hkeep : draws t ∉ hits p draws t ∧ p (draws t) = true
        · rw [if_pos hkeep, if_pos hkeep]
        · rw [if_neg hkeep, if_neg hkeep]
      · have hfull := Nat.le_antisymm hlen (Nat.le_of_not_lt hfew)
        have hkept := (hits_isPrefix p draws ht).length_le
        rw [hdone _ _ hfew, if_pos (by omega), take_hits ht hfull]

end Napqes
