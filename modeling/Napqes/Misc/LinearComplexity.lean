import Mathlib.Algebra.LinearRecurrence
import Mathlib.RingTheory.PowerSeries.Basic
import Mathlib.Tactic.LinearCombination

/-!
# Linear complexity

The linear complexity of the first terms of a sequence over a field is the order of the shortest
linear recurrence with a solution that begins with them. A recurrence is found with its connection
polynomial: the product of the polynomial and the power series of the sequence vanishes from the
order on. Massey's bound says how far the order grows when the polynomial fails at the next term,
and the Berlekamp-Massey synthesis reaches the bound at each term.
-/

namespace Napqes

open Polynomial

variable {F : Type*} [Field F] {s : ℕ → F} {n L : ℕ}

/-- The first `n` terms of `s` begin a solution of the recurrence. -/
def GeneratesPrefix (E : LinearRecurrence F) (s : ℕ → F) (n : ℕ) : Prop :=
  ∃ u, E.IsSolution u ∧ ∀ j < n, u j = s j

/-- `L` is the least order of a recurrence that generates the first `n` terms of `s`. -/
def IsLinearComplexity (s : ℕ → F) (n L : ℕ) : Prop :=
  IsLeast (LinearRecurrence.order '' {E | GeneratesPrefix E s n}) L

/-! ## Connection polynomials -/

/-- What the polynomial leaves at a term of the sequence. -/
noncomputable def discrepancy (c : F[X]) (s : ℕ → F) (j : ℕ) : F :=
  PowerSeries.coeff j ((c : PowerSeries F) * PowerSeries.mk s)

/-- `c` is the connection polynomial of a recurrence of order `L` for the first `n` terms. -/
structure Connects (s : ℕ → F) (n L : ℕ) (c : F[X]) : Prop where
  coeff_zero : c.coeff 0 = 1
  natDegree_le : c.natDegree ≤ L
  discrepancy_eq_zero : ∀ j, L ≤ j → j < n → discrepancy c s j = 0

theorem discrepancy_eq_sum {c : F[X]} {d j : ℕ} (hd : c.natDegree ≤ d) (hj : d ≤ j) :
    discrepancy c s j = ∑ i ∈ Finset.range (d + 1), c.coeff i * s (j - i) := by
  rw [discrepancy, PowerSeries.coeff_mul,
    Finset.Nat.sum_antidiagonal_eq_sum_range_succ_mk,
    ← Finset.sum_subset (Finset.range_subset_range.mpr (Nat.succ_le_succ hj))]
  · simp only [coeff_coe, PowerSeries.coeff_mk]
  · intro i _ hi
    have : c.natDegree < i := hd.trans_lt (by simpa using hi)
    simp only [coeff_coe, coeff_eq_zero_of_natDegree_lt this, zero_mul]

theorem discrepancy_sub (c c' : F[X]) (s : ℕ → F) (j : ℕ) :
    discrepancy (c - c') s j = discrepancy c s j - discrepancy c' s j := by
  rw [discrepancy, discrepancy, discrepancy, Polynomial.coe_sub, sub_mul, map_sub]

theorem discrepancy_C_mul (a : F) (c : F[X]) (s : ℕ → F) (j : ℕ) :
    discrepancy (C a * c) s j = a * discrepancy c s j := by
  rw [discrepancy, discrepancy, Polynomial.coe_mul, Polynomial.coe_C, mul_assoc,
    PowerSeries.coeff_C_mul]

theorem discrepancy_X_mul_succ (c : F[X]) (s : ℕ → F) (j : ℕ) :
    discrepancy (X * c) s (j + 1) = discrepancy c s j := by
  rw [discrepancy, discrepancy, Polynomial.coe_mul, Polynomial.coe_X, mul_assoc, mul_comm,
    PowerSeries.coeff_succ_mul_X]

theorem Connects.of_succ {c : F[X]} (h : Connects s (n + 1) L c) : Connects s n L c where
  coeff_zero := h.coeff_zero
  natDegree_le := h.natDegree_le
  discrepancy_eq_zero j hj hjn := h.discrepancy_eq_zero j hj (hjn.trans n.lt_succ_self)

/-- Massey's bound: where a connection polynomial fails at the next term, the order of any that
does not is at least what is left of the number of terms. -/
theorem Connects.lt_add {L' : ℕ} {c c' : F[X]} (h : Connects s n L c)
    (hd : discrepancy c s n ≠ 0) (h' : Connects s (n + 1) L' c') : n < L + L' := by
  by_contra hle
  rw [Nat.not_lt] at hle
  -- The term of the product of all three series, once with each polynomial multiplied first.
  have hfirst :
      PowerSeries.coeff n ((c' : PowerSeries F) * ((c : PowerSeries F) * PowerSeries.mk s)) =
        discrepancy c s n := by
    rw [PowerSeries.coeff_mul, Finset.sum_eq_single (0, n)]
    · rw [coeff_coe, h'.coeff_zero, one_mul]
      rfl
    · rintro ⟨i, k⟩ hik hne
      have hsum : i + k = n := Finset.HasAntidiagonal.mem_antidiagonal.mp hik
      rcases Nat.lt_or_ge L' i with hi | hi
      · rw [coeff_coe, coeff_eq_zero_of_natDegree_lt (h'.natDegree_le.trans_lt hi), zero_mul]
      · have hi0 : i ≠ 0 := fun h0 => hne (by rw [h0, zero_add] at hsum; rw [h0, hsum])
        rw [show PowerSeries.coeff k ((c : PowerSeries F) * PowerSeries.mk s) = 0 from
          h.discrepancy_eq_zero k (by omega) (by omega), mul_zero]
    · intro hmem
      simp at hmem
  have hsecond :
      PowerSeries.coeff n ((c : PowerSeries F) * ((c' : PowerSeries F) * PowerSeries.mk s)) =
        0 := by
    rw [PowerSeries.coeff_mul]
    refine Finset.sum_eq_zero ?_
    rintro ⟨i, k⟩ hik
    have hsum : i + k = n := Finset.HasAntidiagonal.mem_antidiagonal.mp hik
    rcases Nat.lt_or_ge L i with hi | hi
    · rw [coeff_coe, coeff_eq_zero_of_natDegree_lt (h.natDegree_le.trans_lt hi), zero_mul]
    · rw [show PowerSeries.coeff k ((c' : PowerSeries F) * PowerSeries.mk s) = 0 from
        h'.discrepancy_eq_zero k (by omega) (by omega), mul_zero]
  rw [mul_left_comm] at hfirst
  exact hd (hfirst.symm.trans hsecond)

/-! ## Connection polynomials and recurrences -/

/-- The connection polynomial of a recurrence. -/
noncomputable def connection (E : LinearRecurrence F) : F[X] :=
  1 - ∑ i : Fin E.order, C (E.coeffs i) * X ^ (E.order - i)

/-- The recurrence of order `L` with a connection polynomial. -/
def recurrence (L : ℕ) (c : ℕ → F) : LinearRecurrence F where
  order := L
  coeffs i := -c (L - i)

theorem GeneratesPrefix.recurs {E : LinearRecurrence F} (h : GeneratesPrefix E s n) {j : ℕ}
    (hj : j + E.order < n) : s (j + E.order) = ∑ i, E.coeffs i * s (j + i) := by
  obtain ⟨u, hu, hagree⟩ := h
  rw [← hagree _ hj, hu j]
  refine Finset.sum_congr rfl fun i _ => ?_
  have hi := i.isLt
  rw [hagree _ (by omega)]

theorem generatesPrefix_of_recurs {E : LinearRecurrence F}
    (h : ∀ j, j + E.order < n → s (j + E.order) = ∑ i, E.coeffs i * s (j + i)) :
    GeneratesPrefix E s n := by
  refine ⟨E.mkSol fun i => s i, E.is_sol_mkSol _, fun j => ?_⟩
  induction j using Nat.strong_induction_on with
  | _ j ih =>
    intro hj
    by_cases hlt : j < E.order
    · exact E.mkSol_eq_init _ ⟨j, hlt⟩
    · obtain ⟨k, rfl⟩ : ∃ k, j = k + E.order := ⟨j - E.order, by omega⟩
      rw [E.is_sol_mkSol, h k hj]
      refine Finset.sum_congr rfl fun i _ => ?_
      have hi := i.isLt
      rw [ih _ (by omega) (by omega)]

theorem coeff_connection (E : LinearRecurrence F) (k : ℕ) :
    (connection E).coeff k = (if k = 0 then 1 else 0) -
      ∑ i : Fin E.order, if k = E.order - i then E.coeffs i else 0 := by
  rw [connection, coeff_sub, coeff_one, finsetSum_coeff]
  simp only [coeff_C_mul_X_pow]

/-- The sum over the terms of a recurrence, from the last one to the first one. -/
theorem sum_range_succ_eq_add_sum_fin (f : ℕ → F) (L : ℕ) :
    ∑ i ∈ Finset.range (L + 1), f i = f 0 + ∑ i : Fin L, f (L - i) := by
  rw [Finset.sum_range_succ', add_comm, ← Finset.sum_range_reflect, Finset.sum_range]
  congr 1
  refine Finset.sum_congr rfl fun i _ => ?_
  have hi := i.isLt
  congr 1
  omega

theorem GeneratesPrefix.connects {E : LinearRecurrence F} (h : GeneratesPrefix E s n) :
    Connects s n E.order (connection E) := by
  have hzero : (connection E).coeff 0 = 1 := by
    rw [coeff_connection, if_pos rfl, Finset.sum_eq_zero, sub_zero]
    intro i _
    have hi := i.isLt
    rw [if_neg (by omega)]
  have hcoeff : ∀ i : Fin E.order, (connection E).coeff (E.order - i) = -E.coeffs i := by
    intro i
    have hi := i.isLt
    rw [coeff_connection, if_neg (by omega), Finset.sum_eq_single i, if_pos rfl, zero_sub]
    · intro k _ hne
      have hk := k.isLt
      rw [if_neg]
      intro heq
      exact hne (Fin.ext (by omega))
    · intro hi
      exact absurd (Finset.mem_univ i) hi
  have hdegree : (connection E).natDegree ≤ E.order := by
    refine natDegree_le_iff_coeff_eq_zero.mpr fun k hk => ?_
    rw [coeff_connection, if_neg (by omega), Finset.sum_eq_zero, sub_zero]
    intro i _
    rw [if_neg (by omega)]
  refine ⟨hzero, hdegree, fun j hj hjn => ?_⟩
  obtain ⟨k, rfl⟩ : ∃ k, j = k + E.order := ⟨j - E.order, by omega⟩
  rw [discrepancy_eq_sum hdegree hj, sum_range_succ_eq_add_sum_fin, hzero, one_mul, Nat.sub_zero,
    h.recurs hjn, ← Finset.sum_add_distrib]
  refine Finset.sum_eq_zero fun i _ => ?_
  have hi := i.isLt
  rw [hcoeff, show k + E.order - (E.order - i) = k + i by omega, neg_mul, add_neg_cancel]

theorem Connects.generatesPrefix {c : F[X]} (h : Connects s n L c) :
    GeneratesPrefix (recurrence L c.coeff) s n := by
  refine generatesPrefix_of_recurs fun j hj => ?_
  have hzero := h.discrepancy_eq_zero (j + L) (Nat.le_add_left L j) hj
  rw [discrepancy_eq_sum h.natDegree_le (Nat.le_add_left L j), sum_range_succ_eq_add_sum_fin,
    h.coeff_zero, one_mul, Nat.sub_zero] at hzero
  rw [show j + (recurrence L c.coeff).order = j + L from rfl, eq_neg_of_add_eq_zero_left hzero,
    ← Finset.sum_neg_distrib]
  refine Finset.sum_congr rfl fun i _ => ?_
  have hi := i.isLt
  rw [show j + L - (L - i) = j + i by omega]
  exact (neg_mul _ _).symm

theorem isLinearComplexity_iff :
    IsLinearComplexity s n L ↔ IsLeast {L | ∃ c, Connects s n L c} L := by
  have hset : LinearRecurrence.order '' {E : LinearRecurrence F | GeneratesPrefix E s n} =
      {L | ∃ c, Connects s n L c} := by
    ext L
    constructor
    · rintro ⟨E, hE, rfl⟩
      exact ⟨_, GeneratesPrefix.connects hE⟩
    · rintro ⟨c, hc⟩
      exact ⟨_, hc.generatesPrefix, rfl⟩
  rw [IsLinearComplexity, hset]

/-! ## The synthesis -/

/-- A shortest recurrence for the terms so far, and the polynomial from before the order last grew
with what it left then, shifted by one place for each term since. -/
structure Synthesis (F : Type*) [Field F] where
  order : ℕ
  conn : F[X]
  shift : ℕ
  prev : F[X]
  prevDisc : F

namespace Synthesis

noncomputable def init : Synthesis F := ⟨0, 1, 1, 1, 1⟩

noncomputable def shifted (st : Synthesis F) : F[X] := X ^ st.shift * st.prev

/-- The connection polynomial with what it leaves taken away. -/
noncomputable def corrected (st : Synthesis F) (d : F) : F[X] :=
  st.conn - C (d / st.prevDisc) * st.shifted

open Classical in
/-- The synthesis takes in the term at `n`. -/
noncomputable def step (s : ℕ → F) (n : ℕ) (st : Synthesis F) : Synthesis F :=
  let d := discrepancy st.conn s n
  if d = 0 then { st with shift := st.shift + 1 }
  else if 2 * st.order ≤ n then
    { order := n + 1 - st.order, conn := st.corrected d, shift := 1, prev := st.conn,
      prevDisc := d }
  else { st with conn := st.corrected d, shift := st.shift + 1 }

noncomputable def run (s : ℕ → F) : ℕ → Synthesis F
  | 0 => init
  | n + 1 => step s n (run s n)

/-- What holds after `n` terms. -/
structure Inv (s : ℕ → F) (n : ℕ) (st : Synthesis F) : Prop where
  connects : Connects s n st.order st.conn
  least : ∀ L c, Connects s n L c → st.order ≤ L
  order_le : st.order ≤ n
  shift_pos : 0 < st.shift
  prevDisc_ne_zero : st.prevDisc ≠ 0
  natDegree_prev : st.prev.natDegree + st.shift + st.order ≤ n + 1
  discrepancy_shifted : ∀ j ≤ n, n + 1 ≤ j + st.order →
    discrepancy st.shifted s j = if j = n then st.prevDisc else 0

variable {st : Synthesis F}

theorem natDegree_shifted_le (st : Synthesis F) :
    st.shifted.natDegree ≤ st.shift + st.prev.natDegree :=
  natDegree_mul_le.trans (Nat.add_le_add_right (natDegree_X_pow_le _) _)

theorem coeff_zero_corrected (hshift : 0 < st.shift) (d : F) :
    (st.corrected d).coeff 0 = st.conn.coeff 0 := by
  rw [corrected, coeff_sub, coeff_C_mul, shifted, coeff_X_pow_mul', if_neg (Nat.not_le.mpr hshift),
    mul_zero, sub_zero]

theorem natDegree_corrected_le {d : F} {k : ℕ} (hconn : st.conn.natDegree ≤ k)
    (hshifted : st.shifted.natDegree ≤ k) : (st.corrected d).natDegree ≤ k :=
  (natDegree_sub_le _ _).trans (max_le hconn ((natDegree_C_mul_le _ _).trans hshifted))

/-- A shift by one more place. -/
theorem discrepancy_shifted_succ (st : Synthesis F) (s : ℕ → F) (j : ℕ) :
    discrepancy { st with shift := st.shift + 1 }.shifted s (j + 1) =
      discrepancy st.shifted s j := by
  rw [shifted, pow_succ', mul_assoc, discrepancy_X_mul_succ, shifted]

/-- The corrected polynomial connects one term more, with any order that leaves it room. -/
theorem Inv.connects_corrected (h : Inv s n st) {L : ℕ} (hord : st.order ≤ L)
    (hroom : n + 1 ≤ L + st.order) :
    Connects s (n + 1) L (st.corrected (discrepancy st.conn s n)) where
  coeff_zero := (coeff_zero_corrected h.shift_pos _).trans h.connects.coeff_zero
  natDegree_le := by
    refine natDegree_corrected_le (h.connects.natDegree_le.trans hord)
      ((natDegree_shifted_le st).trans ?_)
    have := h.natDegree_prev
    omega
  discrepancy_eq_zero j hj hjn := by
    rw [corrected, discrepancy_sub, discrepancy_C_mul,
      h.discrepancy_shifted j (Nat.lt_succ_iff.mp hjn) (hroom.trans (Nat.add_le_add_right hj _))]
    rcases eq_or_ne j n with rfl | hne
    · rw [if_pos rfl, div_mul_cancel₀ _ h.prevDisc_ne_zero, sub_self]
    · rw [if_neg hne, mul_zero, sub_zero]
      exact h.connects.discrepancy_eq_zero j (hord.trans hj) (by omega)

theorem inv_init (s : ℕ → F) : Inv s 0 init where
  connects := ⟨coeff_one_zero, natDegree_one.le, fun j _ hj => absurd hj j.not_lt_zero⟩
  least _ _ _ := Nat.zero_le _
  order_le := le_rfl
  shift_pos := Nat.one_pos
  prevDisc_ne_zero := one_ne_zero
  natDegree_prev := by
    change (1 : F[X]).natDegree + 1 ≤ 1
    rw [natDegree_one]
  discrepancy_shifted j hj hlt := absurd (hlt.trans hj) (Nat.not_succ_le_zero 0)

theorem inv_step (h : Inv s n st) : Inv s (n + 1) (step s n st) := by
  have hdegree := h.natDegree_prev
  have horder := h.order_le
  -- Terms after which only the shift grows.
  have hshifted : ∀ j ≤ n + 1, n + 2 ≤ j + st.order →
      discrepancy { st with shift := st.shift + 1 }.shifted s j =
        if j = n + 1 then st.prevDisc else 0 := by
    intro j hj hlt
    obtain ⟨k, rfl⟩ : ∃ k, j = k + 1 := ⟨j - 1, by omega⟩
    rw [discrepancy_shifted_succ, h.discrepancy_shifted k (by omega) (by omega)]
    simp only [Nat.add_right_cancel_iff]
  unfold step
  by_cases hd : discrepancy st.conn s n = 0
  · rw [if_pos hd]
    exact
      { connects :=
          { h.connects with
            discrepancy_eq_zero := fun j hj hjn => by
              rcases eq_or_ne j n with rfl | hne
              · exact hd
              · exact h.connects.discrepancy_eq_zero j hj (by omega) }
        least := fun L c hc => h.least L c hc.of_succ
        order_le := horder.trans n.le_succ
        shift_pos := Nat.succ_pos _
        prevDisc_ne_zero := h.prevDisc_ne_zero
        natDegree_prev := by
          dsimp only
          omega
        discrepancy_shifted := hshifted }
  rw [if_neg hd]
  by_cases hgrow : 2 * st.order ≤ n
  · rw [if_pos hgrow]
    exact
      { connects := h.connects_corrected (L := n + 1 - st.order) (by omega) (by omega)
        least := fun L c hc => by
          have := h.connects.lt_add hd hc
          dsimp only
          omega
        order_le := Nat.sub_le _ _
        shift_pos := Nat.one_pos
        prevDisc_ne_zero := hd
        natDegree_prev := by
          have := h.connects.natDegree_le
          dsimp only
          omega
        discrepancy_shifted := fun j hj hlt => by
          dsimp only at hlt ⊢
          obtain ⟨k, rfl⟩ : ∃ k, j = k + 1 := ⟨j - 1, by omega⟩
          rw [shifted, pow_one, discrepancy_X_mul_succ]
          rcases eq_or_ne k n with rfl | hne
          · rw [if_pos rfl]
          · rw [if_neg (by omega)]
            exact h.connects.discrepancy_eq_zero k (by omega) (by omega) }
  · rw [if_neg hgrow]
    exact
      { connects := h.connects_corrected (L := st.order) le_rfl (by omega)
        least := fun L c hc => h.least L c hc.of_succ
        order_le := horder.trans n.le_succ
        shift_pos := Nat.succ_pos _
        prevDisc_ne_zero := h.prevDisc_ne_zero
        natDegree_prev := by
          dsimp only
          omega
        discrepancy_shifted := hshifted }

theorem inv_run (s : ℕ → F) (n : ℕ) : Inv s n (run s n) := by
  induction n with
  | zero => exact inv_init s
  | succ n ih => exact inv_step ih

/-- The synthesis finds the linear complexity of each prefix. -/
theorem isLinearComplexity_run (s : ℕ → F) (n : ℕ) :
    IsLinearComplexity s n (run s n).order := by
  rw [isLinearComplexity_iff]
  refine ⟨⟨_, (inv_run s n).connects⟩, ?_⟩
  rintro L ⟨c, hc⟩
  exact (inv_run s n).least L c hc

end Synthesis

end Napqes
