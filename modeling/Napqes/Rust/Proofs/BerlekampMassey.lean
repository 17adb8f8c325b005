import Mathlib.Algebra.CharP.Two
import Mathlib.Algebra.Field.ZMod
import Mathlib.Data.List.GetD
import Napqes.Misc.LinearComplexity
import Napqes.Rust.Sts

/-!
# Linear complexity of the bits

`berlekamp_massey` runs the synthesis of a shortest recurrence over GF(2), with the coefficients of
its two polynomials in vectors. So it does not panic and returns the linear complexity of the bits.
-/

namespace Napqes.Rust.Sts

open Polynomial

/-! ## Bits -/

/-- The element of GF(2) that the lowest bit of a byte is. -/
def gf2 (x : UInt8) : ZMod 2 := (x.toNat : ZMod 2)

def IsBit (x : UInt8) : Prop := x.toNat < 2

instance (x : UInt8) : Decidable (IsBit x) := inferInstanceAs (Decidable (x.toNat < 2))

theorem gf2_xor (x y : UInt8) : gf2 (x ^^^ y) = gf2 x + gf2 y := by
  have hxor := Nat.xor_mod_two_pow (a := x.toNat) (b := y.toNat) (n := 1)
  rw [pow_one] at hxor
  rw [gf2, gf2, gf2, UInt8.toNat_xor, ← Nat.cast_add, ZMod.natCast_eq_natCast_iff', hxor,
    Nat.add_mod]
  rcases Nat.mod_two_eq_zero_or_one x.toNat with hx | hx <;>
    rcases Nat.mod_two_eq_zero_or_one y.toNat with hy | hy <;> rw [hx, hy] <;> rfl

theorem gf2_and (x y : UInt8) : gf2 (x &&& y) = gf2 x * gf2 y := by
  have hand := Nat.and_mod_two_pow (a := x.toNat) (b := y.toNat) (n := 1)
  rw [pow_one] at hand
  rw [gf2, gf2, gf2, UInt8.toNat_and, ← Nat.cast_mul, ZMod.natCast_eq_natCast_iff', hand,
    Nat.mul_mod]
  rcases Nat.mod_two_eq_zero_or_one x.toNat with hx | hx <;>
    rcases Nat.mod_two_eq_zero_or_one y.toNat with hy | hy <;> rw [hx, hy] <;> rfl

theorem IsBit.xor {x y : UInt8} (hx : IsBit x) (hy : IsBit y) : IsBit (x ^^^ y) := by
  unfold IsBit
  rw [UInt8.toNat_xor]
  exact Nat.xor_lt_two_pow (n := 1) hx hy

theorem IsBit.and {x y : UInt8} (hy : IsBit y) : IsBit (x &&& y) := by
  unfold IsBit
  rw [UInt8.toNat_and]
  exact Nat.and_le_right.trans_lt hy

theorem IsBit.gf2_eq_zero {x : UInt8} (hx : IsBit x) : gf2 x = 0 ↔ x = 0 := by
  rw [gf2, ZMod.natCast_eq_zero_iff, Nat.dvd_iff_mod_eq_zero, Nat.mod_eq_of_lt hx]
  exact UInt8.toNat_inj (b := 0)

theorem IsBit.eq_one {x : UInt8} (hx : IsBit x) (hne : x ≠ 0) : gf2 x = 1 := by
  have hpos : x.toNat ≠ 0 := fun h => hne (UInt8.toNat_inj.mp h)
  unfold IsBit at hx
  rw [gf2, show x.toNat = 1 by omega, Nat.cast_one]

/-- The sequence that some bits begin. -/
def sequence (s : List UInt8) (j : Nat) : ZMod 2 := gf2 (s.getD j 0)

/-! ## Vectors of coefficients -/

/-- A vector holds the coefficients of a polynomial. -/
structure Holds (n : Nat) (v : List UInt8) (p : (ZMod 2)[X]) : Prop where
  length_eq : v.length = n + 1
  coeff_eq : ∀ i, p.coeff i = gf2 (v.getD i 0)

theorem holds_one {n : Nat} : Holds n ((List.replicate (n + 1) 0).set 0 1) 1 where
  length_eq := by rw [List.length_set, List.length_replicate]
  coeff_eq i := by
    rw [coeff_one, List.replicate_succ, List.set_cons_zero]
    cases i with
    | zero => rfl
    | succ i =>
        rw [if_neg (Nat.succ_ne_zero i), List.getD_cons_succ, List.getD_eq_getElem?_getD,
          List.getElem?_getD_replicate_default_eq]
        rfl

variable {n l nn m : Nat} {s c b : List UInt8} {p q : (ZMod 2)[X]}

/-- The inner loop computes what the connection polynomial leaves. -/
theorem discrepancyAt_eq {v : List UInt8} (hs : ∀ x ∈ s, IsBit x) (hv : Holds n v p)
    (hzero : p.coeff 0 = 1) (hdegree : p.natDegree ≤ l) (hl : l ≤ nn) (hnn : nn < s.length)
    (hn : s.length ≤ n) :
    ∃ d, discrepancyAt s v l nn = .ok d ∧ IsBit d ∧ gf2 d = discrepancy p (sequence s) nn := by
  have hbit : ∀ {j} (h : j < s.length), IsBit s[j] := fun h => hs _ (List.getElem_mem h)
  rw [discrepancyAt, index_of_lt hnn, ok_bind, discrepancy_eq_sum hdegree hl, Nat.add_comm l 1]
  refine forRange_invariant
    (P := fun i d => IsBit d ∧ gf2 d = ∑ k ∈ Finset.range i, p.coeff k * sequence s (nn - k))
    ⟨hbit hnn, ?_⟩ ?_
  · rw [Finset.sum_range_one, hzero, one_mul, sequence, Nat.sub_zero,
      List.getD_eq_getElem _ _ hnn]
  · rintro i d hlo hi ⟨hdbit, hsum⟩
    have hvi : i < v.length := by
      rw [hv.length_eq]
      omega
    have hsi : nn - i < s.length := by omega
    refine ⟨d ^^^ (v[i] &&& s[nn - i]), ?_, hdbit.xor (hbit hsi).and, ?_⟩
    · rw [index_of_lt hvi, ok_bind, checkedSub_of_le (by omega), ok_bind, index_of_lt hsi]
      rfl
    · rw [gf2_xor, gf2_and, hsum, Finset.sum_range_succ, hv.coeff_eq, sequence,
        List.getD_eq_getElem _ _ hvi, List.getD_eq_getElem _ _ hsi]

/-- The update loop adds the polynomial of `b`, shifted. -/
theorem xorShifted_eq (hc : Holds n c p) (hb : Holds n b q) (last : Nat)
    (hdegree : q.natDegree ≤ last) (hlast : last + m ≤ n) :
    ∃ c', xorShifted b m last c = .ok c' ∧ Holds n c' (p + X ^ m * q) := by
  obtain ⟨c', hc', hlength, hcoeff⟩ : ∃ c', xorShifted b m last c = .ok c' ∧
      c'.length = n + 1 ∧ ∀ k, gf2 (c'.getD k 0) =
        p.coeff k + if m ≤ k ∧ k < 0 + (last + 1) + m then q.coeff (k - m) else 0 := by
    refine forRange_invariant
      (P := fun i (c' : List UInt8) => c'.length = n + 1 ∧ ∀ k, gf2 (c'.getD k 0) =
        p.coeff k + if m ≤ k ∧ k < i + m then q.coeff (k - m) else 0)
      ⟨hc.length_eq, fun k => by rw [if_neg (by omega), add_zero, hc.coeff_eq]⟩ ?_
    rintro j c' - hj ⟨hlength, hcoeff⟩
    have hcj : j + m < c'.length := by omega
    have hbj : j < b.length := by
      rw [hb.length_eq]
      omega
    refine ⟨c'.set (j + m) (c'[j + m] ^^^ b[j]), ?_, by rw [List.length_set, hlength], ?_⟩
    · rw [index_of_lt hcj, ok_bind, index_of_lt hbj, ok_bind, setIndex_of_lt hcj]
    intro k
    rcases eq_or_ne k (j + m) with rfl | hne
    · have hold := hcoeff (j + m)
      rw [if_neg (by omega), add_zero, List.getD_eq_getElem _ _ hcj] at hold
      rw [if_pos (by omega), List.getD_eq_getElem _ _ (by rwa [List.length_set]),
        List.getElem_set_self, gf2_xor, hold, Nat.add_sub_cancel, hb.coeff_eq,
        List.getD_eq_getElem _ _ hbj]
    · rw [List.getD_eq_getElem?_getD, List.getElem?_set_ne hne.symm,
        ← List.getD_eq_getElem?_getD, hcoeff k]
      congr 1
      simp only [show m ≤ k ∧ k < j + 1 + m ↔ m ≤ k ∧ k < j + m by omega]
  refine ⟨c', hc', hlength, fun k => ?_⟩
  rw [hcoeff, coeff_add, coeff_X_pow_mul']
  congr 1
  by_cases hk : m ≤ k
  · by_cases hlt : k < 0 + (last + 1) + m
    · rw [if_pos hk, if_pos ⟨hk, hlt⟩]
    · rw [if_pos hk, if_neg (fun h => hlt h.2), coeff_eq_zero_of_natDegree_lt (by omega)]
  · rw [if_neg hk, if_neg (fun h => hk h.1)]

/-! ## The synthesis -/

/-- The variables of the loop hold a state of the synthesis. -/
structure Refines (n : Nat) (st : BerlekampMassey) (a : Synthesis (ZMod 2)) : Prop where
  conn : Holds n st.c a.conn
  prev : Holds n st.b a.prev
  order_eq : a.order = st.l
  shift_eq : a.shift = st.m
  prevDisc_eq : a.prevDisc = 1

/-- Over GF(2) the correction adds the shifted polynomial. -/
theorem corrected_eq {a : Synthesis (ZMod 2)} (h : a.prevDisc = 1) :
    a.corrected 1 = a.conn + X ^ a.shift * a.prev := by
  rw [Synthesis.corrected, h, div_one, map_one, one_mul, CharTwo.sub_eq_add, Synthesis.shifted]

theorem berlekampMasseyStep_refines {st : BerlekampMassey} {a : Synthesis (ZMod 2)}
    (hs : ∀ x ∈ s, IsBit x) (hnn : nn < s.length) (h : Refines s.length st a)
    (hinv : Synthesis.Inv (sequence s) nn a) :
    ∃ st', berlekampMasseyStep s nn st = .ok st' ∧
      Refines s.length st' (Synthesis.step (sequence s) nn a) := by
  have horder := h.order_eq
  have hshift := h.shift_eq
  have hle := hinv.order_le
  have hdegree := hinv.natDegree_prev
  obtain ⟨d, hd, hdbit, hdisc⟩ := discrepancyAt_eq (l := st.l) hs h.conn hinv.connects.coeff_zero
    (horder ▸ hinv.connects.natDegree_le) (horder ▸ hle) hnn le_rfl
  rw [berlekampMasseyStep, hd, ok_bind]
  unfold Synthesis.step
  by_cases hzero : d = 0
  · rw [if_pos hzero, if_pos (hdisc.symm.trans (hdbit.gf2_eq_zero.mpr hzero))]
    exact ⟨_, rfl, ⟨h.conn, h.prev, horder, congrArg (· + 1) hshift, h.prevDisc_eq⟩⟩
  have hone : discrepancy a.conn (sequence s) nn = 1 :=
    hdisc.symm.trans (hdbit.eq_one hzero)
  obtain ⟨c, hc, hcorrected⟩ := xorShifted_eq (m := st.m) h.conn h.prev (nn + 1 - st.m)
    (by omega) (by omega)
  rw [← hshift, ← corrected_eq h.prevDisc_eq] at hcorrected
  dsimp only
  rw [if_neg hzero, hone, if_neg one_ne_zero, horder, checkedSub_of_le (by omega)]
  by_cases hgrow : 2 * st.l ≤ nn
  · rw [if_pos hgrow, if_pos hgrow, ok_bind, hc, ok_bind, checkedSub_of_le (by omega), ok_bind]
    exact ⟨_, rfl, ⟨hcorrected, h.conn, rfl, rfl, rfl⟩⟩
  · rw [if_neg hgrow, if_neg hgrow, ok_bind, hc, ok_bind]
    exact ⟨_, rfl, ⟨hcorrected, h.prev, rfl, congrArg (· + 1) hshift, h.prevDisc_eq⟩⟩

/-- `berlekamp_massey` does not panic and returns the order of the shortest linear recurrence that
generates the bits. -/
theorem berlekampMassey_isLinearComplexity (s : List UInt8) (hs : ∀ x ∈ s, IsBit x) :
    ∃ l, berlekampMassey s = .ok l ∧ IsLinearComplexity (sequence s) s.length l := by
  have hpos : 0 < (List.replicate (s.length + 1) (0 : UInt8)).length := by
    rw [List.length_replicate]
    exact Nat.succ_pos _
  obtain ⟨st, hst, href⟩ : ∃ st, forRange (berlekampMasseyStep s) 0 s.length
      { c := (List.replicate (s.length + 1) 0).set 0 1,
        b := (List.replicate (s.length + 1) 0).set 0 1, l := 0, m := 1 } = .ok st ∧
      Refines s.length st (Synthesis.run (sequence s) (0 + s.length)) := by
    refine forRange_invariant
      (P := fun nn st => Refines s.length st (Synthesis.run (sequence s) nn))
      ⟨holds_one, holds_one, rfl, rfl, rfl⟩ fun nn st _ hnn href => ?_
    rw [Nat.zero_add] at hnn
    exact berlekampMasseyStep_refines hs hnn href (Synthesis.inv_run _ _)
  refine ⟨st.l, ?_, ?_⟩
  · rw [berlekampMassey, setIndex_of_lt hpos, ok_bind, ok_bind, hst, ok_bind]
    rfl
  · rw [← href.order_eq, Nat.zero_add]
    exact Synthesis.isLinearComplexity_run _ _

/-- The bits 0, 0, 1, 1 need a recurrence of order 3. -/
theorem berlekampMassey_isLinearComplexity_four_bits :
    berlekampMassey [0, 0, 1, 1] = .ok 3 ∧ IsLinearComplexity (sequence [0, 0, 1, 1]) 4 3 := by
  obtain ⟨l, hl, hleast⟩ := berlekampMassey_isLinearComplexity [0, 0, 1, 1] (by simp [IsBit])
  have hthree : berlekampMassey [0, 0, 1, 1] = .ok 3 := by decide +kernel
  rw [hthree] at hl
  cases hl
  exact ⟨hthree, hleast⟩

end Napqes.Rust.Sts
