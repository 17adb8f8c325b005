import Mathlib.Algebra.CharP.Two
import Mathlib.Algebra.Field.ZMod
import Mathlib.Data.List.GetD
import Napqes.Misc.RowReduction
import Napqes.Rust.Sts

/-!
# Ranks of the blocks of bits

`gf2_rank32` reduces the rows of a matrix over GF(2), one word for each row. So it does not panic,
and the test counts the blocks by the rank of their matrix.
-/

namespace Napqes.Rust.Sts

open RowReduction

/-! ## Words as rows -/

/-- The matrix of 32 words. -/
def toMatrix (mat : List UInt32) : Matrix (Fin 32) (Fin 32) (ZMod 2) :=
  fun r c => if (mat.getD r 0).toNat.testBit c then 1 else 0

variable {mat : List UInt32} {r p rank col : Nat}

theorem bitAt_eq (hr : r < mat.length) (hcol : col < 32) :
    bitAt mat r col = .ok ((mat.getD r 0).toNat.testBit col) := by
  have hmod : col % 2 ^ 32 % 32 = col := by omega
  rw [bitAt, index_of_lt hr, ok_bind, List.getD_eq_getElem _ _ hr]
  refine congrArg Except.ok ?_
  rw [Nat.testBit_eq_decide_div_mod_eq, Bool.eq_iff_iff, beq_iff_eq, decide_eq_true_iff,
    ← UInt32.toNat_inj, UInt32.toNat_and, UInt32.toNat_shiftRight, UInt32.toNat_ofNat', hmod,
    Nat.shiftRight_eq_div_pow]
  exact iff_of_eq (congrArg (· = 1) (Nat.and_one_is_mod _))

theorem toMatrix_ne_zero {r c : Fin 32} :
    toMatrix mat r c ≠ 0 ↔ (mat.getD r 0).toNat.testBit c = true := by
  unfold toMatrix
  split
  case isTrue h => exact ⟨fun _ => h, fun _ => one_ne_zero⟩
  case isFalse h => exact ⟨fun hne => absurd rfl hne, fun hbit => absurd hbit h⟩

/-- An exchange of two words. -/
theorem swapIndices_eq (hlength : mat.length = 32) (hr : r < 32) (hp : p < 32) :
    ∃ mat', (swapIndices mat r p : RustM Empty _) = .ok mat' ∧ mat'.length = 32 ∧
      toMatrix mat' = swapRows (toMatrix mat) ⟨r, hr⟩ ⟨p, hp⟩ := by
  have hr' : r < mat.length := by rwa [hlength]
  have hp' : p < mat.length := by rwa [hlength]
  refine ⟨(mat.set r mat[p]).set p mat[r], ?_, by rw [List.length_set, List.length_set, hlength],
    ?_⟩
  · rw [swapIndices, index_of_lt hr', ok_bind, index_of_lt hp', ok_bind, setIndex_of_lt hr',
      ok_bind, setIndex_of_lt (by rwa [List.length_set])]
  ext i c
  have hrow : ((mat.set r mat[p]).set p mat[r]).getD i 0 =
      mat.getD (Equiv.swap (⟨r, hr⟩ : Fin 32) ⟨p, hp⟩ i) 0 := by
    by_cases hip : i = ⟨p, hp⟩
    · rw [hip, Equiv.swap_apply_right, List.getD_eq_getElem?_getD,
        List.getElem?_set_self (by rwa [List.length_set]), Option.getD_some,
        List.getD_eq_getElem _ _ hr']
    have hne : p ≠ i := fun h => hip (Fin.ext h.symm)
    by_cases hir : i = ⟨r, hr⟩
    · rw [hir, Equiv.swap_apply_left, List.getD_eq_getElem?_getD,
        List.getElem?_set_ne (fun h => hip (hir.trans (Fin.ext h.symm))),
        List.getElem?_set_self hr', Option.getD_some, List.getD_eq_getElem _ _ hp']
    · rw [Equiv.swap_apply_of_ne_of_ne hir hip, List.getD_eq_getElem?_getD,
        List.getElem?_set_ne hne, List.getElem?_set_ne (fun h => hir (Fin.ext h.symm)),
        List.getD_eq_getElem?_getD]
  change (if _ then _ else _) = if _ then _ else _
  rw [hrow]
  rfl

/-- The words after the other rows are cleared: those with the bit of the column have taken in the
pivot row. -/
theorem clearRows_eq (hlength : mat.length = 32) (hrank : rank < 32) (hcol : col < 32)
    (hpivot : toMatrix mat ⟨rank, hrank⟩ ⟨col, hcol⟩ ≠ 0) :
    ∃ mat', clearRows rank col mat = .ok mat' ∧ mat'.length = 32 ∧
      toMatrix mat' = clearColumn (toMatrix mat) ⟨rank, hrank⟩ ⟨col, hcol⟩ := by
  obtain ⟨mat', hmat', hlength', hrows⟩ : ∃ mat', clearRows rank col mat = .ok mat' ∧
      mat'.length = 32 ∧ ∀ i, mat'.getD i 0 =
        if i < 0 + 32 ∧ i ≠ rank ∧ (mat.getD i 0).toNat.testBit col = true then
          mat.getD i 0 ^^^ mat.getD rank 0
        else mat.getD i 0 := by
    refine forRange_invariant
      (P := fun r (mat' : List UInt32) => mat'.length = 32 ∧ ∀ i, mat'.getD i 0 =
        if i < r ∧ i ≠ rank ∧ (mat.getD i 0).toNat.testBit col = true then
          mat.getD i 0 ^^^ mat.getD rank 0
        else mat.getD i 0)
      ⟨hlength, fun i => by rw [if_neg (fun h => Nat.not_lt_zero i h.1)]⟩ ?_
    rintro r mat' - hr ⟨hlength', hrows⟩
    rw [Nat.zero_add] at hr
    have hr' : r < mat'.length := hlength' ▸ hr
    have hsame : mat'.getD r 0 = mat.getD r 0 := by
      rw [hrows, if_neg (fun h => Nat.lt_irrefl r h.1)]
    have hpivotRow : mat'.getD rank 0 = mat.getD rank 0 := by
      rw [hrows, if_neg (fun h => h.2.1 rfl)]
    -- A row that the pass leaves alone.
    have hskip : ¬ (r ≠ rank ∧ (mat.getD r 0).toNat.testBit col = true) → ∀ i, mat'.getD i 0 =
        if i < r + 1 ∧ i ≠ rank ∧ (mat.getD i 0).toNat.testBit col = true then
          mat.getD i 0 ^^^ mat.getD rank 0
        else mat.getD i 0 := by
      intro hno i
      rw [hrows]
      refine if_congr ⟨fun h => ⟨Nat.lt_succ_of_lt h.1, h.2⟩, fun h => ⟨?_, h.2⟩⟩ rfl rfl
      rcases Nat.lt_succ_iff_lt_or_eq.mp h.1 with hlt | rfl
      · exact hlt
      · exact absurd h.2 hno
    by_cases hself : r = rank
    · rw [if_pos hself]
      exact ⟨mat', rfl, hlength', hskip fun h => h.1 hself⟩
    rw [if_neg hself, bitAt_eq hr' hcol, ok_bind, hsame]
    by_cases hbit : (mat.getD r 0).toNat.testBit col = true
    · have hrank' : rank < mat'.length := hlength' ▸ hrank
      rw [if_pos hbit, index_of_lt hr', ok_bind, index_of_lt hrank', ok_bind, setIndex_of_lt hr']
      refine ⟨_, rfl, by rw [List.length_set, hlength'], fun i => ?_⟩
      rw [← List.getD_eq_getElem _ 0 hr', ← List.getD_eq_getElem _ 0 hrank', hsame, hpivotRow]
      rcases eq_or_ne i r with rfl | hne
      · rw [if_pos ⟨i.lt_succ_self, hself, hbit⟩, List.getD_eq_getElem?_getD,
          List.getElem?_set_self hr', Option.getD_some]
      · rw [List.getD_eq_getElem?_getD, List.getElem?_set_ne hne.symm,
          ← List.getD_eq_getElem?_getD, hrows]
        refine if_congr ?_ rfl rfl
        rw [Nat.lt_succ_iff_lt_or_eq, or_iff_left hne]
    · rw [if_neg hbit]
      exact ⟨mat', rfl, hlength', hskip fun h => hbit h.2⟩
  refine ⟨mat', hmat', hlength', ?_⟩
  have hkept : ∀ i, ¬ (i ≠ rank ∧ (mat.getD i 0).toNat.testBit col = true) →
      mat'.getD i 0 = mat.getD i 0 := fun i hno => by rw [hrows, if_neg (fun h => hno h.2)]
  have hone : toMatrix mat ⟨rank, hrank⟩ ⟨col, hcol⟩ = 1 := if_pos (toMatrix_ne_zero.mp hpivot)
  ext i c
  unfold clearColumn
  by_cases hi : i = ⟨rank, hrank⟩
  · rw [if_pos hi, hi]
    unfold toMatrix
    rw [hkept _ (fun h => h.1 rfl)]
  · have hne : (i : ℕ) ≠ rank := fun h => hi (Fin.ext h)
    rw [if_neg hi, hone, div_one, Pi.sub_apply, Pi.smul_apply, smul_eq_mul]
    unfold toMatrix
    by_cases hbit : (mat.getD i 0).toNat.testBit col = true
    · have htaken : mat'.getD i 0 = mat.getD i 0 ^^^ mat.getD rank 0 := by
        rw [hrows, if_pos ⟨i.isLt, hne, hbit⟩]
      rw [htaken, if_pos hbit, one_mul, CharTwo.sub_eq_add, UInt32.toNat_xor, Nat.testBit_xor]
      cases (mat.getD i 0).toNat.testBit c <;> cases (mat.getD rank 0).toNat.testBit c <;> rfl
    · rw [hkept i (fun h => hbit h.2), if_neg hbit, zero_mul, sub_zero]

/-! ## The rank -/

/-- What holds before a column: the rows are reduced up to it and have the rank of the matrix. -/
def Reduced (mat : List UInt32) (col : Nat) (st : Nat × List UInt32) : Prop :=
  st.2.length = 32 ∧ st.1 ≤ 32 ∧ (toMatrix st.2).rank = (toMatrix mat).rank ∧
    ∃ l, PivotedTo (toMatrix st.2) l st.1 col

theorem gf2Rank32Step_reduced {st : Nat × List UInt32} (hcol : col < 32)
    (h : Reduced mat col st) :
    ∃ st', gf2Rank32Step col st = .ok st' ∧ Reduced mat (col + 1) st' := by
  obtain ⟨rank, rows⟩ := st
  obtain ⟨hlength, hle, hrank, l, hl⟩ := h
  dsimp only at hlength hle hrank hl
  have hfind : findRange (fun r => bitAt rows r col) rank (32 - rank) = .ok
      ((List.range' rank (32 - rank)).find? fun r => (rows.getD r 0).toNat.testBit col) :=
    findRange_eq fun r _ hr => bitAt_eq (by omega) hcol
  rw [gf2Rank32Step, hfind, ok_bind]
  cases hpivot : (List.range' rank (32 - rank)).find?
      fun r => (rows.getD r 0).toNat.testBit col with
  | none =>
      refine ⟨(rank, rows), rfl, hlength, hle, hrank, l, hl.skip hcol fun i hi => ?_⟩
      by_contra hne
      have hmem : (i : ℕ) ∈ List.range' rank (32 - rank) := List.mem_range'_1.mpr (by omega)
      exact List.find?_eq_none.mp hpivot i hmem (toMatrix_ne_zero.mp hne)
  | some p =>
      have hmem := List.mem_range'_1.mp (List.mem_of_find?_eq_some hpivot)
      have hp : p < 32 := by omega
      have hr : rank < 32 := by omega
      obtain ⟨swapped, hswapped, hlength', hswap⟩ := swapIndices_eq hlength hr hp
      have hne : toMatrix swapped ⟨rank, hr⟩ ⟨col, hcol⟩ ≠ 0 := by
        have hbit := List.find?_some hpivot
        rw [hswap, swapRows, Matrix.submatrix_apply, Equiv.swap_apply_left]
        exact toMatrix_ne_zero.mpr hbit
      obtain ⟨cleared, hcleared, hlength'', hclear⟩ := clearRows_eq hlength' hr hcol hne
      have hswappedTo := hl.swapRows (p := ⟨rank, hr⟩) (q := ⟨p, hp⟩) le_rfl hmem.1
      rw [← hswap] at hswappedTo
      have hclearedTo := hswappedTo.clearColumn hr hcol hne
      rw [← hclear] at hclearedTo
      refine ⟨(rank + 1, cleared), ?_, hlength'', hr, ?_, _, hclearedTo⟩
      · dsimp only
        rw [hswapped, ok_bind, hcleared]
        rfl
      · rw [hclear, rank_clearColumn, hswap, rank_swapRows, hrank]

theorem gf2Rank32_eq (hlength : mat.length = 32) :
    ∃ rows, gf2Rank32 mat = .ok ((toMatrix mat).rank, rows) := by
  obtain ⟨⟨rank, rows⟩, hst, -, hle, hrank, l, hl⟩ := forRange_invariant
    (f := gf2Rank32Step) (P := Reduced mat) (n := 32)
    (show Reduced mat 0 (0, mat) from ⟨hlength, Nat.zero_le _, rfl, _, pivotedTo_zero _⟩)
    fun col st _ hcol h => gf2Rank32Step_reduced (by omega) h
  refine ⟨rows, ?_⟩
  rw [gf2Rank32, hst, ← hrank, hl.rank_eq hle]

/-! ## The blocks -/

/-- The matrix that the bits from `base` on are, row by row. -/
def block (bits : List UInt8) (base : Nat) : Matrix (Fin 32) (Fin 32) (ZMod 2) :=
  fun r c => if bits.getD (base + r * 32 + c) 0 = 1 then 1 else 0

variable {bits : List UInt8} {base : Nat}

/-- The bits that are set in the words before place `c` of row `r`. -/
def Filled (bits : List UInt8) (base r c : Nat) (mat : List UInt32) : Prop :=
  mat.length = 32 ∧ ∀ i j, j < 32 → ((mat.getD i 0).toNat.testBit j = true ↔
    (i < r ∨ i = r ∧ j < c) ∧ bits.getD (base + i * 32 + j) 0 = 1)

theorem Filled.nextRow (h : Filled bits base r 32 mat) : Filled bits base (r + 1) 0 mat := by
  refine ⟨h.1, fun i j hj => (h.2 i j hj).trans (and_congr_left fun _ => ?_)⟩
  omega

/-- A word with one more bit set. -/
theorem testBit_or_one_shiftLeft (w : UInt32) {c : Nat} (hc : c < 32) (j : Nat) :
    (w ||| (1 <<< UInt32.ofNat c)).toNat.testBit j = true ↔ w.toNat.testBit j = true ∨ c = j := by
  have hmod : c % 2 ^ 32 % 32 = c := by omega
  have hlt : 2 ^ c < 2 ^ 32 := Nat.pow_lt_pow_right Nat.one_lt_two hc
  rw [UInt32.toNat_or, UInt32.toNat_shiftLeft, UInt32.toNat_ofNat', hmod,
    show (1 : UInt32).toNat = 1 from rfl, Nat.one_shiftLeft, Nat.mod_eq_of_lt hlt,
    Nat.testBit_or, Nat.testBit_two_pow, Bool.or_eq_true, decide_eq_true_iff]

theorem fillRow_filled (hr : r < 32) (hbase : base + 32 * 32 ≤ bits.length)
    (h : Filled bits base r 0 mat) :
    ∃ mat', fillRow bits base r mat = .ok mat' ∧ Filled bits base (r + 1) 0 mat' := by
  obtain ⟨mat', hmat', hfilled⟩ : ∃ mat', fillRow bits base r mat = .ok mat' ∧
      Filled bits base r (0 + 32) mat' := by
    refine forRange_invariant (P := Filled bits base r) h ?_
    rintro c mat - hc ⟨hlength, hbits⟩
    rw [Nat.zero_add] at hc
    have hindex : base + r * 32 + c < bits.length := by omega
    have hr' : r < mat.length := by rwa [hlength]
    have hget : bits[base + r * 32 + c] = bits.getD (base + r * 32 + c) 0 :=
      (List.getD_eq_getElem _ _ hindex).symm
    rw [index_of_lt hindex, ok_bind, hget]
    by_cases hone : bits.getD (base + r * 32 + c) 0 = 1
    · rw [if_pos hone, index_of_lt hr', ok_bind, setIndex_of_lt hr']
      refine ⟨_, rfl, by rw [List.length_set, hlength], fun i j hj => ?_⟩
      rcases eq_or_ne i r with rfl | hne
      · rw [List.getD_eq_getElem?_getD, List.getElem?_set_self hr', Option.getD_some,
          testBit_or_one_shiftLeft _ hc, ← List.getD_eq_getElem _ 0 hr', hbits i j hj]
        constructor
        · rintro (⟨hplace, hbit⟩ | rfl)
          · exact ⟨by omega, hbit⟩
          · exact ⟨Or.inr ⟨rfl, c.lt_succ_self⟩, hone⟩
        · rintro ⟨hplace, hbit⟩
          rcases Nat.lt_or_ge j c with hjc | hjc
          · exact Or.inl ⟨Or.inr ⟨rfl, hjc⟩, hbit⟩
          · exact Or.inr (by omega)
      · rw [List.getD_eq_getElem?_getD, List.getElem?_set_ne hne.symm,
          ← List.getD_eq_getElem?_getD, hbits i j hj]
        refine and_congr_left fun _ => ?_
        omega
    · rw [if_neg hone]
      refine ⟨mat, rfl, hlength, fun i j hj => (hbits i j hj).trans (and_congr_left fun hbit => ?_)⟩
      constructor
      · omega
      · rintro (hi | ⟨rfl, hjc⟩)
        · exact Or.inl hi
        · rcases Nat.lt_succ_iff_lt_or_eq.mp hjc with hjc | rfl
          · exact Or.inr ⟨rfl, hjc⟩
          · exact absurd hbit hone
  exact ⟨mat', hmat', hfilled.nextRow⟩

theorem fillMatrix_eq (hbase : base + 32 * 32 ≤ bits.length) :
    ∃ mat, fillMatrix bits base = .ok mat ∧ mat.length = 32 ∧ toMatrix mat = block bits base := by
  have hzero : Filled bits base 0 0 (List.replicate 32 0) := by
    refine ⟨List.length_replicate, fun i j _ => ⟨fun h => ?_, fun h => ?_⟩⟩
    · rw [List.getD_eq_getElem?_getD, List.getElem?_getD_replicate_default_eq] at h
      exact absurd h (by rw [show (0 : UInt32).toNat = 0 from rfl, Nat.zero_testBit]; decide)
    · omega
  obtain ⟨mat, hmat, hfilled⟩ : ∃ mat, fillMatrix bits base = .ok mat ∧
      Filled bits base (0 + 32) 0 mat :=
    forRange_invariant (P := fun r mat => Filled bits base r 0 mat) hzero
      fun r mat _ hr h => fillRow_filled (by omega) hbase h
  refine ⟨mat, hmat, hfilled.1, ?_⟩
  ext r c
  refine if_congr ((hfilled.2 r c c.isLt).trans ⟨fun h => h.2, fun h => ⟨Or.inl ?_, h⟩⟩) rfl rfl
  rw [Nat.zero_add]
  exact r.isLt

/-- How many of the first `n` blocks have a matrix of such a rank. -/
noncomputable def blocksWith (bits : List UInt8) (p : Nat → Prop) [DecidablePred p] (n : Nat) :
    Nat :=
  (List.range n).countP fun j => p (block bits (j * 32 * 32)).rank

theorem blocksWith_succ (bits : List UInt8) (p : Nat → Prop) [DecidablePred p] (n : Nat) :
    blocksWith bits p (n + 1) =
      blocksWith bits p n + if p (block bits (n * 32 * 32)).rank then 1 else 0 := by
  rw [blocksWith, List.range_succ, List.countP_append, List.countP_singleton, blocksWith]
  simp only [decide_eq_true_eq]

/-- The three counts over the first `n` blocks. -/
noncomputable def countsOf (bits : List UInt8) (n : Nat) : RankCounts where
  full := blocksWith bits (· = 32) n
  oneLess := blocksWith bits (· = 31) n
  rest := blocksWith bits (fun rank => rank ≠ 32 ∧ rank ≠ 31) n

theorem RankCounts.add_rest {rank : Nat} (hfull : rank ≠ 32) (honeLess : rank ≠ 31)
    (counts : RankCounts) : counts.add rank = { counts with rest := counts.rest + 1 } := by
  unfold RankCounts.add
  split
  case h_1 => exact absurd rfl hfull
  case h_2 => exact absurd rfl honeLess
  case h_3 => rfl

theorem countsOf_succ (bits : List UInt8) (n : Nat) :
    countsOf bits (n + 1) = (countsOf bits n).add (block bits (n * 32 * 32)).rank := by
  rw [countsOf, blocksWith_succ, blocksWith_succ, blocksWith_succ]
  generalize (block bits (n * 32 * 32)).rank = rank
  by_cases hfull : rank = 32
  · rw [hfull]
    rfl
  by_cases honeLess : rank = 31
  · rw [honeLess]
    rfl
  · rw [if_neg hfull, if_neg honeLess, if_pos ⟨hfull, honeLess⟩, RankCounts.add_rest hfull honeLess]
    rfl

/-- The test does not panic and counts the blocks with a matrix of full rank, of one less and of
any other rank. -/
theorem binaryMatrixRankCounts_eq (bits : List UInt8) :
    binaryMatrixRankCounts bits = .ok (countsOf bits (bits.length / (32 * 32))) := by
  obtain ⟨counts, hcounts, rfl⟩ : ∃ counts, binaryMatrixRankCounts bits = .ok counts ∧
      counts = countsOf bits (0 + bits.length / (32 * 32)) := by
    refine forRange_invariant (P := fun j counts => counts = countsOf bits j) rfl ?_
    rintro j _ - hj rfl
    have hbase : j * 32 * 32 + 32 * 32 ≤ bits.length := by
      have := Nat.div_mul_le_self bits.length (32 * 32)
      omega
    obtain ⟨mat, hmat, hlength, hblock⟩ := fillMatrix_eq hbase
    obtain ⟨rows, hrank⟩ := gf2Rank32_eq hlength
    refine ⟨_, ?_, rfl⟩
    rw [hmat, ok_bind, hrank, ok_bind, hblock, countsOf_succ]
    rfl
  rw [hcounts, Nat.zero_add]

end Napqes.Rust.Sts
