import Napqes.Misc.Pieces

/-!
# Folding over full blocks

A hash reads its input in blocks of `n` elements and keeps what does not fill a block. Over a
concatenation it does the same whether the input comes at once or in parts.
-/

namespace Napqes

variable {σ α : Type}

/-- Fold `f` over the full blocks of `n` elements; the state, and what is left. -/
def foldBlocks (f : σ → List α → σ) (n : Nat) (s : σ) (xs : List α) : σ × List α :=
  if _h : 0 < n ∧ n ≤ xs.length then foldBlocks f n (f s (xs.take n)) (xs.drop n) else (s, xs)
termination_by xs.length
decreasing_by
  rw [List.length_drop]
  omega

variable {f : σ → List α → σ} {n : Nat}

theorem foldBlocks_of_lt {xs : List α} (h : xs.length < n) (s : σ) :
    foldBlocks f n s xs = (s, xs) := by
  rw [foldBlocks, dif_neg (by omega)]

/-- A full block in front is folded in. -/
theorem foldBlocks_block (hn : 0 < n) {b : List α} (hb : b.length = n) (s : σ) (xs : List α) :
    foldBlocks f n s (b ++ xs) = foldBlocks f n (f s b) xs := by
  rw [foldBlocks, dif_pos ⟨hn, by rw [List.length_append]; omega⟩, List.take_left' hb,
    List.drop_left' hb]

/-- Induction along the blocks: less than a block, or a block and the rest. -/
theorem blocks_induction (hn : 0 < n) {P : List α → Prop} (hshort : ∀ xs, xs.length < n → P xs)
    (hblock : ∀ b xs, b.length = n → P xs → P (b ++ xs)) (xs : List α) : P xs := by
  induction hlen : xs.length using Nat.strong_induction_on generalizing xs with
  | _ len ih =>
      by_cases hlt : xs.length < n
      · exact hshort xs hlt
      · rw [← List.take_append_drop n xs]
        refine hblock _ _ (by rw [List.length_take]; omega) (ih _ ?_ _ rfl)
        rw [List.length_drop]
        omega

theorem length_foldBlocks_rest (hn : 0 < n) (s : σ) (xs : List α) :
    (foldBlocks f n s xs).2.length = xs.length % n := by
  induction xs using blocks_induction hn generalizing s with
  | hshort xs hlt => rw [foldBlocks_of_lt hlt, Nat.mod_eq_of_lt hlt]
  | hblock b xs hb ih => rw [foldBlocks_block hn hb, ih, List.length_append, hb, Nat.add_mod_left]

/-- What is left of the first part stands in front of the second one. -/
theorem foldBlocks_append (hn : 0 < n) (s : σ) (xs ys : List α) :
    foldBlocks f n s (xs ++ ys) =
      foldBlocks f n (foldBlocks f n s xs).1 ((foldBlocks f n s xs).2 ++ ys) := by
  induction xs using blocks_induction hn generalizing s with
  | hshort xs hlt => rw [foldBlocks_of_lt hlt]
  | hblock b xs hb ih =>
      rw [List.append_assoc, foldBlocks_block hn hb, ih, foldBlocks_block hn hb]

/-- On full blocks only it is the fold over the pieces. -/
theorem foldBlocks_eq_foldl (hn : 0 < n) {xs : List α} (h : xs.length % n = 0) (s : σ) :
    foldBlocks f n s xs = ((pieces n xs).foldl f s, []) := by
  induction xs using blocks_induction hn generalizing s with
  | hshort xs hlt =>
      rw [Nat.mod_eq_of_lt hlt] at h
      obtain rfl := List.length_eq_zero_iff.mp h
      rw [foldBlocks_of_lt hlt, pieces_nil]
      rfl
  | hblock b xs hb ih =>
      rw [List.length_append, hb, Nat.add_mod_left] at h
      rw [foldBlocks_block hn hb, pieces_append hn hb, List.foldl_cons, ih h]

/-- What carries one step over carries the whole fold over. -/
theorem foldBlocks_map {τ : Type} {g : τ → List α → τ} (hn : 0 < n) (φ : σ → τ)
    (hstep : ∀ s b, b.length = n → φ (f s b) = g (φ s) b) (s : σ) (xs : List α) :
    φ (foldBlocks f n s xs).1 = (foldBlocks g n (φ s) xs).1 := by
  induction xs using blocks_induction hn generalizing s with
  | hshort xs hlt => rw [foldBlocks_of_lt hlt, foldBlocks_of_lt hlt]
  | hblock b xs hb ih => rw [foldBlocks_block hn hb, foldBlocks_block hn hb, ih, hstep s b hb]

end Napqes
