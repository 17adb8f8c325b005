import Napqes.Rust.Basic

/-!
# The statistical test suite

The integer algorithms of `rust/src/bin/sts.rs`: what the tests count before they turn it into a
p-value. A bit is a byte with value 0 or 1, as `generate_bits` makes it. Sums of indices of a slice
stay below `usize::MAX`, so only differences are checked.
-/

namespace Napqes.Rust.Sts

/-! ## Linear complexity -/

/-- `let mut d = s[nn]; for i in 1..=l { d ^= c[i] & s[nn - i]; }` -/
def discrepancyAt (s c : List UInt8) (l nn : Nat) : RustM Empty UInt8 := do
  let d ← index s nn
  forRange (fun i d => do
    let ci ← index c i
    let si ← index s (← checkedSub nn i)
    return d ^^^ (ci &&& si)) 1 l d

/-- `for j in 0..=end { c[j + m] ^= b[j]; }` -/
def xorShifted (b : List UInt8) (m last : Nat) (c : List UInt8) : RustM Empty (List UInt8) :=
  forRange (fun j c => do
    let cj ← index c (j + m)
    let bj ← index b j
    setIndex c (j + m) (cj ^^^ bj)) 0 (last + 1) c

/-- The variables of the loop of `berlekamp_massey`. -/
structure BerlekampMassey where
  c : List UInt8
  b : List UInt8
  l : Nat
  m : Nat
  deriving DecidableEq, Repr

/-- One pass of the loop. -/
def berlekampMasseyStep (s : List UInt8) (nn : Nat) (st : BerlekampMassey) :
    RustM Empty BerlekampMassey := do
  let d ← discrepancyAt s st.c st.l nn
  if d = 0 then
    return { st with m := st.m + 1 }
  else if 2 * st.l ≤ nn then
    let t := st.c
    let last ← checkedSub (nn + 1) st.m
    let c ← xorShifted st.b st.m last st.c
    let l ← checkedSub (nn + 1) st.l
    return { c, b := t, l, m := 1 }
  else
    let last ← checkedSub (nn + 1) st.m
    let c ← xorShifted st.b st.m last st.c
    return { st with c, m := st.m + 1 }

/-- `berlekamp_massey` (`bin/sts.rs:172-198`). -/
def berlekampMassey (s : List UInt8) : RustM Empty Nat := do
  let n := s.length
  let c ← setIndex (List.replicate (n + 1) 0) 0 1
  let b ← setIndex (List.replicate (n + 1) 0) 0 1
  let st ← forRange (berlekampMasseyStep s) 0 n { c, b, l := 0, m := 1 }
  return st.l

/-! ## Binary matrix rank -/

/-- `(mat[r] >> col) & 1 == 1`, for a column below 32. -/
def bitAt (mat : List UInt32) (r col : Nat) : RustM Empty Bool := do
  let row ← index mat r
  return (row >>> UInt32.ofNat col) &&& 1 == 1

/-- `for r in 0..32 { if r != rank && (mat[r] >> col) & 1 == 1 { mat[r] ^= mat[rank]; } }` -/
def clearRows (rank col : Nat) (mat : List UInt32) : RustM Empty (List UInt32) :=
  forRange (fun r mat => do
    if r = rank then
      return mat
    else if ← bitAt mat r col then
      let row ← index mat r
      let pivotRow ← index mat rank
      setIndex mat r (row ^^^ pivotRow)
    else
      return mat) 0 32 mat

/-- One pass of the loop of `gf2_rank32`. -/
def gf2Rank32Step (col : Nat) (st : Nat × List UInt32) : RustM Empty (Nat × List UInt32) := do
  let (rank, mat) := st
  match ← findRange (fun r => bitAt mat r col) rank (32 - rank) with
  | some p =>
      let mat ← swapIndices mat rank p
      let mat ← clearRows rank col mat
      return (rank + 1, mat)
  | none => return (rank, mat)

/-- `gf2_rank32` (`bin/sts.rs:380-395`): the rank, and what is left of the 32 rows of the
matrix. -/
def gf2Rank32 (mat : List UInt32) : RustM Empty (Nat × List UInt32) :=
  forRange gf2Rank32Step 0 32 (0, mat)

/-- `for c in 0..M { if bits[base + r * M + c] == 1 { mat[r] |= 1 << c; } }` -/
def fillRow (bits : List UInt8) (base r : Nat) (mat : List UInt32) : RustM Empty (List UInt32) :=
  forRange (fun c mat => do
    let bit ← index bits (base + r * 32 + c)
    if bit = 1 then
      let row ← index mat r
      setIndex mat r (row ||| (1 <<< UInt32.ofNat c))
    else
      return mat) 0 32 mat

/-- The matrix of the block that begins at `base`. -/
def fillMatrix (bits : List UInt8) (base : Nat) : RustM Empty (List UInt32) :=
  forRange (fillRow bits base) 0 32 (List.replicate 32 0)

/-- `f32`, `f31` and `frest`. -/
structure RankCounts where
  full : Nat
  oneLess : Nat
  rest : Nat
  deriving DecidableEq, Repr

/-- The match on the rank. -/
def RankCounts.add (counts : RankCounts) (rank : Nat) : RankCounts :=
  match rank with
  | 32 => { counts with full := counts.full + 1 }
  | 31 => { counts with oneLess := counts.oneLess + 1 }
  | _ => { counts with rest := counts.rest + 1 }

/-- The counts of `test_binary_matrix_rank` (`bin/sts.rs:397-418`). -/
def binaryMatrixRankCounts (bits : List UInt8) : RustM Empty RankCounts :=
  forRange (fun j counts => do
    let mat ← fillMatrix bits (j * 32 * 32)
    let (rank, _) ← gf2Rank32 mat
    return counts.add rank) 0 (bits.length / (32 * 32)) ⟨0, 0, 0⟩

end Napqes.Rust.Sts
