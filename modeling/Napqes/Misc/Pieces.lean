import Mathlib.Tactic

/-!
# Cutting a list into pieces

`pieces f xs` cuts `xs` into pieces of `f` elements; only the last one may be shorter, and
none is empty. A loop that fills a buffer and flushes it when full produces these pieces.
-/

namespace Napqes

variable {α : Type}

/-- The consecutive pieces of `f` elements, the last one possibly shorter. -/
def pieces (f : Nat) (xs : List α) : List (List α) :=
  if _h : xs = [] ∨ f = 0 then [] else xs.take f :: pieces f (xs.drop f)
termination_by xs.length
decreasing_by
  have := List.length_pos_iff.mpr (fun hnil => _h (Or.inl hnil))
  simp only [List.length_drop]
  omega

@[simp] theorem pieces_nil (f : Nat) : pieces f ([] : List α) = [] := by
  rw [pieces, dif_pos (Or.inl rfl)]

theorem pieces_of_ne_nil {f : Nat} (hf : 0 < f) {xs : List α} (h : xs ≠ []) :
    pieces f xs = xs.take f :: pieces f (xs.drop f) := by
  rw [pieces, dif_neg (by simp only [h, false_or]; omega)]

/-- A nonempty list of at most `f` elements is one piece. -/
theorem pieces_of_length_le {f : Nat} (hf : 0 < f) {xs : List α} (h : xs ≠ [])
    (hle : xs.length ≤ f) : pieces f xs = [xs] := by
  rw [pieces_of_ne_nil hf h, List.take_of_length_le hle, List.drop_of_length_le hle, pieces_nil]

/-- A full buffer in front is the first piece. -/
theorem pieces_append {f : Nat} (hf : 0 < f) {xs : List α} (hlen : xs.length = f)
    (ys : List α) : pieces f (xs ++ ys) = xs :: pieces f ys := by
  have hne : xs ++ ys ≠ [] := by
    intro h
    rw [(List.append_eq_nil_iff.mp h).1] at hlen
    simp at hlen
    omega
  rw [pieces_of_ne_nil hf hne, List.take_left' hlen, List.drop_left' hlen]

/-- Induction along the cut: nothing left, or one piece and the rest. -/
theorem pieces_induction {f : Nat} (hf : 0 < f) {P : List α → Prop} (hnil : P [])
    (hcons : ∀ xs, xs ≠ [] → P (xs.drop f) → P xs) (xs : List α) : P xs := by
  induction hn : xs.length using Nat.strong_induction_on generalizing xs with
  | _ n ih =>
      by_cases h : xs = []
      · rw [h]
        exact hnil
      · have hpos := List.length_pos_iff.mpr h
        refine hcons xs h (ih _ ?_ _ rfl)
        simp only [List.length_drop]
        omega

theorem length_pieces {f : Nat} (hf : 0 < f) (xs : List α) :
    (pieces f xs).length = (xs.length + f - 1) / f := by
  induction xs using pieces_induction hf with
  | hnil =>
      rw [pieces_nil, List.length_nil, List.length_nil, Nat.zero_add]
      exact (Nat.div_eq_of_lt (by omega)).symm
  | hcons xs h ih =>
      have hpos := List.length_pos_iff.mpr h
      rw [pieces_of_ne_nil hf h, List.length_cons, ih, List.length_drop]
      by_cases hle : xs.length ≤ f
      · rw [show xs.length - f + f - 1 = f - 1 by omega, Nat.div_eq_of_lt (by omega),
          show xs.length + f - 1 = xs.length - 1 + f by omega, Nat.add_div_right _ hf,
          Nat.div_eq_of_lt (by omega)]
      · rw [show xs.length - f + f - 1 = xs.length - 1 by omega,
          show xs.length + f - 1 = xs.length - 1 + f by omega, Nat.add_div_right _ hf]

theorem mem_pieces {f : Nat} (hf : 0 < f) {xs p : List α} (h : p ∈ pieces f xs) :
    p.length ≤ f ∧ ∀ x ∈ p, x ∈ xs := by
  induction xs using pieces_induction hf with
  | hnil => simp at h
  | hcons xs hne ih =>
      rw [pieces_of_ne_nil hf hne, List.mem_cons] at h
      rcases h with rfl | h
      · exact ⟨by simp, fun x hx => List.mem_of_mem_take hx⟩
      · obtain ⟨hlen, hmem⟩ := ih h
        exact ⟨hlen, fun x hx => List.mem_of_mem_drop (hmem x hx)⟩

theorem flatten_pieces {f : Nat} (hf : 0 < f) (xs : List α) : (pieces f xs).flatten = xs := by
  induction xs using pieces_induction hf with
  | hnil => rw [pieces_nil, List.flatten_nil]
  | hcons xs h ih =>
      rw [pieces_of_ne_nil hf h, List.flatten_cons, ih, List.take_append_drop]

theorem ne_nil_of_mem_pieces {f : Nat} (hf : 0 < f) {xs p : List α} (h : p ∈ pieces f xs) :
    p ≠ [] := by
  induction xs using pieces_induction hf with
  | hnil => simp at h
  | hcons xs hne ih =>
      rw [pieces_of_ne_nil hf hne, List.mem_cons] at h
      rcases h with rfl | h
      · intro hnil
        rcases List.take_eq_nil_iff.mp hnil with hzero | hxs
        · omega
        · exact hne hxs
      · exact ih h

theorem length_le_of_mem_pieces {f : Nat} (hf : 0 < f) {xs p : List α} (h : p ∈ pieces f xs) :
    p.length ≤ xs.length := by
  have hlen := List.Sublist.length_le (List.sublist_flatten_of_mem h)
  rwa [flatten_pieces hf] at hlen

/-- The number of pieces, as bounds on the number of elements. -/
theorem length_pieces_bounds {f : Nat} (hf : 0 < f) (xs : List α) :
    ((pieces f xs).length - 1) * f ≤ xs.length - 1 ∧ xs.length ≤ (pieces f xs).length * f := by
  rw [length_pieces hf]
  constructor
  · by_cases h : xs.length = 0
    · rw [h, Nat.zero_add, Nat.div_eq_of_lt (by omega)]
      simp
    · rw [show xs.length + f - 1 = xs.length - 1 + f by omega, Nat.add_div_right _ hf]
      exact Nat.div_mul_le_self (xs.length - 1) f
  · have := Nat.lt_mul_div_succ (xs.length + f - 1) hf
    rw [Nat.mul_add, Nat.mul_comm] at this
    omega

/-! ## Cutting as a loop does -/

/-- A loop that was given `before` has cut the pieces `full` off its front and still holds
`after`. -/
structure Cut (f : Nat) (before : List α) (full : List (List α)) (after : List α) : Prop where
  split : ∀ more, pieces f (before ++ more) = full ++ pieces f (after ++ more)
  short : after.length < f
  length_eq : ∀ p ∈ full, p.length = f

theorem Cut.refl {f : Nat} {xs : List α} (h : xs.length < f) : Cut f xs [] xs :=
  ⟨fun _ => rfl, h, by simp⟩

theorem Cut.cons {f : Nat} (hf : 0 < f) {p rest after : List α} {full : List (List α)}
    (hp : p.length = f) (h : Cut f rest full after) : Cut f (p ++ rest) (p :: full) after where
  split more := by
    rw [List.append_assoc, pieces_append hf hp, h.split]
    rfl
  short := h.short
  length_eq q hq := by
    rcases List.mem_cons.mp hq with rfl | hq
    · exact hp
    · exact h.length_eq q hq

/-- Two runs of the loop, the second with `more` behind what the first one left. -/
theorem Cut.trans {f : Nat} {a b c : List α} {ps qs : List (List α)} (h : Cut f a ps b)
    {more : List α} (h' : Cut f (b ++ more) qs c) : Cut f (a ++ more) (ps ++ qs) c where
  split rest := by
    rw [List.append_assoc, h.split, ← List.append_assoc b, h'.split, List.append_assoc]
  short := h'.short
  length_eq p hp := by
    rcases List.mem_append.mp hp with hp | hp
    · exact h.length_eq p hp
    · exact h'.length_eq p hp

/-- What was cut off and what is left together are what was given. -/
theorem Cut.length_add {f : Nat} (hf : 0 < f) {xs rest : List α} {full : List (List α)}
    (h : Cut f xs full rest) : full.length * f + rest.length = xs.length := by
  have hcut := h.split []
  have hxs := congrArg List.length (congrArg List.flatten hcut)
  have hfull : (full.map List.length).sum = full.length * f := by
    rw [List.sum_eq_card_nsmul _ f, List.length_map, smul_eq_mul]
    intro n hn
    obtain ⟨p, hp, rfl⟩ := List.mem_map.mp hn
    exact h.length_eq p hp
  rw [List.append_nil, List.append_nil, flatten_pieces hf, List.flatten_append,
    flatten_pieces hf, List.length_append, List.length_flatten, hfull] at hxs
  exact hxs.symm

/-- Something is cut off where there is enough for a piece. -/
theorem Cut.full_ne_nil {f : Nat} (hf : 0 < f) {xs rest : List α} {full : List (List α)}
    (h : Cut f xs full rest) (hle : f ≤ xs.length) : full ≠ [] := by
  rintro rfl
  have hcut := h.split []
  have hxs := congrArg List.length (congrArg List.flatten hcut)
  have hshort := h.short
  rw [List.append_nil, List.nil_append, List.append_nil, flatten_pieces hf,
    flatten_pieces hf] at hxs
  omega

/-- What was cut off and what is left are all the pieces. -/
theorem Cut.pieces_eq {f : Nat} (hf : 0 < f) {xs rest : List α} {full : List (List α)}
    (h : Cut f xs full rest) : pieces f xs = if rest.isEmpty then full else full ++ [rest] := by
  have hcut := h.split []
  rw [List.append_nil, List.append_nil] at hcut
  rw [hcut]
  cases rest with
  | nil =>
      rw [pieces_nil, List.append_nil]
      rfl
  | cons b rest =>
      rw [pieces_of_length_le hf (List.cons_ne_nil b rest) (Nat.le_of_lt h.short)]
      rfl

end Napqes
