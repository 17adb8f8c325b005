import Mathlib.LinearAlgebra.Matrix.Echelon.Pivot

/-!
# Row reduction

Exchanging rows and clearing a column with a pivot keep the rank of a matrix over a field. Column
by column they lead to a matrix whose pivots can be counted. Rows and columns are numbered, as in a
program that works in place.
-/

namespace Napqes.RowReduction

variable {F : Type*} [Field F] {m n : ℕ}

def swapRows (A : Matrix (Fin m) (Fin n) F) (p q : Fin m) : Matrix (Fin m) (Fin n) F :=
  A.submatrix (Equiv.swap p q) id

/-- Each row but row `k` is cleared at a column with its multiple of row `k`. -/
def clearColumn (A : Matrix (Fin m) (Fin n) F) (k : Fin m) (col : Fin n) :
    Matrix (Fin m) (Fin n) F :=
  fun i => if i = k then A k else A i - (A i col / A k col) • A k

theorem rank_swapRows (A : Matrix (Fin m) (Fin n) F) (p q : Fin m) :
    (swapRows A p q).rank = A.rank :=
  A.rank_submatrix (Equiv.swap p q) (Equiv.refl (Fin n))

theorem span_clearColumn (A : Matrix (Fin m) (Fin n) F) (k : Fin m) (col : Fin n) :
    Submodule.span F (Set.range (clearColumn A k col).row) =
      Submodule.span F (Set.range A.row) := by
  have hself : (clearColumn A k col).row k = A.row k := if_pos rfl
  have hother : ∀ i, i ≠ k →
      (clearColumn A k col).row i = A.row i - (A i col / A k col) • A.row k := fun i hi => if_neg hi
  have hold : ∀ i, A.row i ∈ Submodule.span F (Set.range A.row) := fun i =>
    Submodule.subset_span ⟨i, rfl⟩
  have hnew : ∀ i, (clearColumn A k col).row i ∈
      Submodule.span F (Set.range (clearColumn A k col).row) := fun i =>
    Submodule.subset_span ⟨i, rfl⟩
  apply le_antisymm
  · rw [Submodule.span_le]
    rintro _ ⟨i, rfl⟩
    by_cases hi : i = k
    · rw [hi, hself]
      exact hold k
    · rw [hother i hi]
      exact sub_mem (hold i) (Submodule.smul_mem _ _ (hold k))
  · rw [Submodule.span_le]
    rintro _ ⟨i, rfl⟩
    by_cases hi : i = k
    · rw [hi, ← hself]
      exact hnew k
    · rw [← sub_add_cancel (A.row i) ((A i col / A k col) • A.row k), ← hother i hi, ← hself]
      exact add_mem (hnew i) (Submodule.smul_mem _ _ (hnew k))

theorem rank_clearColumn (A : Matrix (Fin m) (Fin n) F) (k : Fin m) (col : Fin n) :
    (clearColumn A k col).rank = A.rank := by
  rw [Matrix.rank_eq_finrank_span_row, span_clearColumn, ← Matrix.rank_eq_finrank_span_row]

/-! ## Pivots -/

/-- In the columns before `col` the first `k` rows are in echelon form, with the pivots at `l`, and
the other rows are zero. -/
structure PivotedTo (A : Matrix (Fin m) (Fin n) F) (l : Fin m → WithTop (Fin n)) (k col : ℕ) :
    Prop where
  ne_top_iff : ∀ i, l i ≠ ⊤ ↔ (i : ℕ) < k
  lt_col : ∀ i (c : Fin n), l i = c → (c : ℕ) < col
  lt_of_lt : ∀ i j, i < j → l j ≠ ⊤ → l i < l j
  eq_zero : ∀ i (c : Fin n), (c : ℕ) < col → (c : WithTop (Fin n)) < l i → A i c = 0
  ne_zero : ∀ i (c : Fin n), l i = c → A i c ≠ 0

variable {A : Matrix (Fin m) (Fin n) F} {l : Fin m → WithTop (Fin n)} {k col : ℕ}

theorem pivotedTo_zero (A : Matrix (Fin m) (Fin n) F) : PivotedTo A (fun _ => ⊤) 0 0 where
  ne_top_iff _ := ⟨fun h => absurd rfl h, fun h => absurd h (Nat.not_lt_zero _)⟩
  lt_col _ _ h := absurd h.symm (WithTop.coe_ne_top)
  lt_of_lt _ _ _ h := absurd rfl h
  eq_zero _ _ h := absurd h (Nat.not_lt_zero _)
  ne_zero _ _ h := absurd h.symm (WithTop.coe_ne_top)

theorem PivotedTo.eq_top (h : PivotedTo A l k col) {i : Fin m} (hi : k ≤ i) : l i = ⊤ := by
  by_contra hne
  exact absurd ((h.ne_top_iff i).mp hne) (Nat.not_lt.mpr hi)

/-- A row that is not used yet is zero in the columns that were visited. -/
theorem PivotedTo.eq_zero_of_le (h : PivotedTo A l k col) {i : Fin m} (hi : k ≤ i) {c : Fin n}
    (hc : (c : ℕ) < col) : A i c = 0 :=
  h.eq_zero i c hc (by rw [h.eq_top hi]; exact WithTop.coe_lt_top c)

/-- A column without a pivot is passed. -/
theorem PivotedTo.skip (h : PivotedTo A l k col) (hcol : col < n)
    (hzero : ∀ i : Fin m, k ≤ i → A i ⟨col, hcol⟩ = 0) : PivotedTo A l k (col + 1) where
  ne_top_iff := h.ne_top_iff
  lt_col i c hc := Nat.lt_succ_of_lt (h.lt_col i c hc)
  lt_of_lt := h.lt_of_lt
  eq_zero i c hc hlt := by
    rcases Nat.lt_succ_iff_lt_or_eq.mp hc with hc | rfl
    · exact h.eq_zero i c hc hlt
    · rcases Nat.lt_or_ge i k with hi | hi
      · obtain ⟨d, hd⟩ := WithTop.ne_top_iff_exists.mp ((h.ne_top_iff i).mpr hi)
        rw [← hd, WithTop.coe_lt_coe] at hlt
        exact absurd (h.lt_col i d hd.symm) (Nat.not_lt.mpr (Fin.le_def.mp hlt.le))
      · exact hzero i hi
  ne_zero := h.ne_zero

/-- Rows that are not used yet can be exchanged. -/
theorem PivotedTo.swapRows (h : PivotedTo A l k col) {p q : Fin m} (hp : k ≤ p) (hq : k ≤ q) :
    PivotedTo (swapRows A p q) l k col := by
  have hused : ∀ i : Fin m, (i : ℕ) < k → Equiv.swap p q i = i := fun i hi =>
    Equiv.swap_apply_of_ne_of_ne (by rintro rfl; omega) (by rintro rfl; omega)
  have hfree : ∀ i : Fin m, k ≤ i → k ≤ Equiv.swap p q i := by
    intro i hi
    rw [Equiv.swap_apply_def]
    split_ifs
    · exact hq
    · exact hp
    · exact hi
  exact
    { ne_top_iff := h.ne_top_iff
      lt_col := h.lt_col
      lt_of_lt := h.lt_of_lt
      eq_zero := fun i c hc hlt => by
        change A (Equiv.swap p q i) c = 0
        rcases Nat.lt_or_ge i k with hi | hi
        · rw [hused i hi]
          exact h.eq_zero i c hc hlt
        · exact h.eq_zero_of_le (hfree i hi) hc
      ne_zero := fun i c hc => by
        change A (Equiv.swap p q i) c ≠ 0
        rw [hused i ((h.ne_top_iff i).mp (by rw [hc]; exact WithTop.coe_ne_top))]
        exact h.ne_zero i c hc }

/-- Clearing a column changes nothing where the pivot row is zero. -/
theorem clearColumn_of_eq_zero {p : Fin m} {c : Fin n} (hzero : A p c = 0) (i : Fin m)
    (d : Fin n) : clearColumn A p d i c = A i c := by
  unfold RowReduction.clearColumn
  by_cases hi : i = p
  · rw [if_pos hi, hi]
  · rw [if_neg hi, Pi.sub_apply, Pi.smul_apply, hzero, smul_zero, sub_zero]

theorem clearColumn_self {p i : Fin m} {c : Fin n} (hpivot : A p c ≠ 0) (hi : i ≠ p) :
    clearColumn A p c i c = 0 := by
  unfold RowReduction.clearColumn
  rw [if_neg hi, Pi.sub_apply, Pi.smul_apply, smul_eq_mul, div_mul_cancel₀ _ hpivot, sub_self]

/-- The next row takes the pivot of a column, which is cleared with it. -/
theorem PivotedTo.clearColumn (h : PivotedTo A l k col) (hk : k < m) (hcol : col < n)
    (hpivot : A ⟨k, hk⟩ ⟨col, hcol⟩ ≠ 0) :
    PivotedTo (clearColumn A ⟨k, hk⟩ ⟨col, hcol⟩)
      (Function.update l ⟨k, hk⟩ (⟨col, hcol⟩ : Fin n)) (k + 1) (col + 1) := by
  have hnext : ∀ {i : Fin m}, i ≠ ⟨k, hk⟩ → (i : ℕ) ≠ k := fun hi heq => hi (Fin.ext heq)
  have hkeep : ∀ (i : Fin m) (c : Fin n), (c : ℕ) < col →
      RowReduction.clearColumn A ⟨k, hk⟩ ⟨col, hcol⟩ i c = A i c := fun i c hc =>
    clearColumn_of_eq_zero (h.eq_zero_of_le le_rfl hc) i _
  constructor
  case ne_top_iff =>
    intro i
    by_cases hi : i = ⟨k, hk⟩
    · rw [hi, Function.update_self]
      exact ⟨fun _ => k.lt_succ_self, fun _ => WithTop.coe_ne_top⟩
    · rw [Function.update_of_ne hi, h.ne_top_iff]
      have := hnext hi
      omega
  case lt_col =>
    intro i c hc
    by_cases hi : i = ⟨k, hk⟩
    · rw [hi, Function.update_self, WithTop.coe_inj] at hc
      rw [← hc]
      exact col.lt_succ_self
    · rw [Function.update_of_ne hi] at hc
      exact Nat.lt_succ_of_lt (h.lt_col i c hc)
  case lt_of_lt =>
    intro i j hij hj
    have hlt : (i : ℕ) < j := hij
    by_cases hjk : j = ⟨k, hk⟩
    · have hik : (i : ℕ) < k := by rwa [hjk] at hlt
      obtain ⟨d, hd⟩ := WithTop.ne_top_iff_exists.mp ((h.ne_top_iff i).mpr hik)
      rw [hjk, Function.update_self, Function.update_of_ne (fun hi => hik.ne (congrArg Fin.val hi)),
        ← hd, WithTop.coe_lt_coe]
      exact h.lt_col i d hd.symm
    · rw [Function.update_of_ne hjk] at hj ⊢
      have hjk := (h.ne_top_iff j).mp hj
      have hik : (i : ℕ) < k := hlt.trans hjk
      rw [Function.update_of_ne (fun hi => hik.ne (congrArg Fin.val hi))]
      exact h.lt_of_lt i j hij hj
  case eq_zero =>
    intro i c hc hlt
    by_cases hi : i = ⟨k, hk⟩
    · rw [hi, Function.update_self, WithTop.coe_lt_coe] at hlt
      rw [hkeep i c hlt, hi]
      exact h.eq_zero_of_le le_rfl hlt
    · rw [Function.update_of_ne hi] at hlt
      rcases Nat.lt_succ_iff_lt_or_eq.mp hc with hc | rfl
      · rw [hkeep i c hc]
        exact h.eq_zero i c hc hlt
      · exact clearColumn_self hpivot hi
  case ne_zero =>
    intro i c hc
    by_cases hi : i = ⟨k, hk⟩
    · rw [hi, Function.update_self, WithTop.coe_inj] at hc
      rw [hi, ← hc]
      unfold RowReduction.clearColumn
      rwa [if_pos rfl]
    · rw [Function.update_of_ne hi] at hc
      rw [hkeep i c (h.lt_col i c hc)]
      exact h.ne_zero i c hc

/-- Once all columns are visited the rank is the number of pivots. -/
theorem PivotedTo.rank_eq (h : PivotedTo A l k n) (hk : k ≤ m) : A.rank = k := by
  have hpivots : A.IsPivotedBy l := by
    rw [Matrix.isPivotedBy_iff]
    refine ⟨?_, ?_, fun i => ⟨fun c => h.eq_zero i c c.isLt, h.ne_zero i⟩⟩
    · rw [monotone_iff_forall_lt]
      intro i j hij
      by_cases hj : l j = ⊤
      · rw [hj]
        exact le_top
      · exact (h.lt_of_lt i j hij hj).le
    · intro i _ j hj hij
      exact h.lt_of_lt i j hij hj
  rw [hpivots.rank_eq]
  simp only [h.ne_top_iff]
  rw [Fin.card_filter_val_lt, Nat.min_eq_right hk]

end Napqes.RowReduction
