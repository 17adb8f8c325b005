import Mathlib.Analysis.SpecialFunctions.Pow.NthRootLemmas
import Mathlib.Analysis.SpecialFunctions.Pow.Real
import Mathlib.Data.Nat.Nth
import Mathlib.Data.Nat.Prime.Basic
import Napqes.Misc.Bytes
import Napqes.Misc.Pieces

/-!
# SHA-256 and HMAC as the standards define them

FIPS 180-4 on byte strings, with its section numbers, and the HMAC of FIPS 198-1 on top of it. The
constants are not tabulated: they are the first bits of the fractional parts of roots of primes, and
`rootBits_eq` and `nth_prime_eq` say how to compute them.
-/

namespace Napqes.Fips

abbrev Word := BitVec 32

/-! ## Functions and constants -/

/-- The functions of 4.1.2. -/
def ch (x y z : Word) : Word := (x &&& y) ^^^ (~~~x &&& z)

def maj (x y z : Word) : Word := (x &&& y) ^^^ (x &&& z) ^^^ (y &&& z)

def bigSigma0 (x : Word) : Word := x.rotateRight 2 ^^^ x.rotateRight 13 ^^^ x.rotateRight 22

def bigSigma1 (x : Word) : Word := x.rotateRight 6 ^^^ x.rotateRight 11 ^^^ x.rotateRight 25

def sigma0 (x : Word) : Word := x.rotateRight 7 ^^^ x.rotateRight 18 ^^^ (x >>> 3)

def sigma1 (x : Word) : Word := x.rotateRight 17 ^^^ x.rotateRight 19 ^^^ (x >>> 10)

/-- The first 32 bits of the fractional part of the `r`th root of `n`. -/
noncomputable def rootBits (r n : Nat) : Word :=
  BitVec.ofNat 32 ⌊Int.fract ((n : ℝ) ^ (1 / (r : ℝ))) * 2 ^ 32⌋₊

/-- The constants of 4.2.2, from the cube roots of the first 64 primes. -/
noncomputable def k (t : Nat) : Word := rootBits 3 (Nat.nth Nat.Prime t)

/-- The hash value, and the working variables. -/
structure Vars where
  a : Word
  b : Word
  c : Word
  d : Word
  e : Word
  f : Word
  g : Word
  h : Word
  deriving DecidableEq

/-- The initial hash value (5.3.3), from the square roots of the first eight primes. -/
noncomputable def initial : Vars where
  a := rootBits 2 (Nat.nth Nat.Prime 0)
  b := rootBits 2 (Nat.nth Nat.Prime 1)
  c := rootBits 2 (Nat.nth Nat.Prime 2)
  d := rootBits 2 (Nat.nth Nat.Prime 3)
  e := rootBits 2 (Nat.nth Nat.Prime 4)
  f := rootBits 2 (Nat.nth Nat.Prime 5)
  g := rootBits 2 (Nat.nth Nat.Prime 6)
  h := rootBits 2 (Nat.nth Nat.Prime 7)

/-! ## The hash -/

/-- Word `t` of the message schedule of a block (6.2.2, step 1). -/
def scheduleWord (blk : List UInt8) (t : Nat) : Word :=
  if t < 16 then BitVec.ofNat 32 (beNat ((blk.drop (4 * t)).take 4))
  else sigma1 (scheduleWord blk (t - 2)) + scheduleWord blk (t - 7) +
    sigma0 (scheduleWord blk (t - 15)) + scheduleWord blk (t - 16)

/-- The working variables after `t` rounds (6.2.2, steps 2 and 3). -/
noncomputable def working (blk : List UInt8) (s : Vars) : Nat → Vars
  | 0 => s
  | t + 1 =>
      let v := working blk s t
      let t1 := v.h + bigSigma1 v.e + ch v.e v.f v.g + k t + scheduleWord blk t
      let t2 := bigSigma0 v.a + maj v.a v.b v.c
      { a := t1 + t2, b := v.a, c := v.b, d := v.c, e := v.d + t1, f := v.e, g := v.f, h := v.g }

/-- The next hash value (6.2.2, step 4). -/
noncomputable def compress (s : Vars) (blk : List UInt8) : Vars :=
  let v := working blk s 64
  { a := v.a + s.a, b := v.b + s.b, c := v.c + s.c, d := v.d + s.d
    e := v.e + s.e, f := v.f + s.f, g := v.g + s.g, h := v.h + s.h }

/-- The number of zero bytes of the padding (5.1.1). -/
def padZeros (len : Nat) : Nat := (119 - len % 64) % 64

/-- The padded message (5.1.1): a one bit, zeros, and the number of bits in eight bytes. The
standard ends at `2^61` bytes, where that number leaves its field. -/
def pad (m : List UInt8) : List UInt8 :=
  m ++ (0x80 :: (List.replicate (padZeros m.length) 0 ++ beBytes 8 (8 * m.length)))

/-- The words of a hash value, one after the other. -/
def Vars.bytes (s : Vars) : FixedBytes 32 where
  toList := [s.a, s.b, s.c, s.d, s.e, s.f, s.g, s.h].flatMap fun w => beBytes 4 w.toNat
  length_toList := by simp

/-- The digest (6.2.2): the compression function folded over the blocks of the padded message. -/
noncomputable def digest (m : List UInt8) : FixedBytes 32 :=
  ((pieces 64 (pad m)).foldl compress initial).bytes

/-! ## HMAC -/

/-- The key as a block (FIPS 198-1, section 4, steps 1 to 3). -/
noncomputable def keyBlock (key : List UInt8) : List UInt8 :=
  let k0 := if key.length ≤ 64 then key else (digest key).toList
  k0 ++ List.replicate (64 - k0.length) 0

/-- The keyed hash (FIPS 198-1, section 4, steps 4 to 9). -/
noncomputable def hmac (key m : List UInt8) : FixedBytes 32 :=
  let inner := digest (xorBytes (keyBlock key) (List.replicate 64 0x36) ++ m)
  digest (xorBytes (keyBlock key) (List.replicate 64 0x5c) ++ inner.toList)

/-! ## Padding -/

/-- The zeros are as few as make the length field end a block. -/
theorem padZeros_spec (len : Nat) :
    (len + 1 + padZeros len) % 64 = 56 ∧
      ∀ z, (len + 1 + z) % 64 = 56 → padZeros len ≤ z := by
  rw [padZeros]
  exact ⟨by omega, fun z hz => by omega⟩

theorem length_pad_mod (m : List UInt8) : (pad m).length % 64 = 0 := by
  have hzeros := (padZeros_spec m.length).1
  rw [pad, List.length_append, List.length_cons, List.length_append, List.length_replicate,
    length_beBytes]
  omega

theorem length_keyBlock (key : List UInt8) : (keyBlock key).length = 64 := by
  rw [keyBlock, List.length_append, List.length_replicate]
  split
  case isTrue h => omega
  case isFalse => rw [FixedBytes.length_toList]

/-! ## Computing the constants -/

/-- The bits of a root are those of an integer root. -/
theorem rootBits_eq {r : Nat} (hr : r ≠ 0) (n : Nat) :
    rootBits r n = BitVec.ofNat 32 (Nat.nthRoot r (n * 2 ^ (32 * r))) := by
  set x : ℝ := (n : ℝ) ^ (1 / (r : ℝ)) with hx
  have hx0 : 0 ≤ x := Real.rpow_nonneg (Nat.cast_nonneg n) _
  have hy0 : 0 ≤ x * 2 ^ 32 := by positivity
  have hpow : (x * 2 ^ 32) ^ r = ((n * 2 ^ (32 * r) : ℕ) : ℝ) := by
    rw [mul_pow, hx, one_div, Real.rpow_inv_natCast_pow (Nat.cast_nonneg n) hr, ← pow_mul]
    push_cast
    rfl
  have hroot : Nat.nthRoot r (n * 2 ^ (32 * r)) = ⌊x * 2 ^ 32⌋₊ := by
    refine Nat.nthRoot_eq_of_le_of_lt ?_ ?_
    · have hle := pow_le_pow_left₀ (Nat.cast_nonneg _) (Nat.floor_le hy0) r
      rw [hpow] at hle
      exact_mod_cast hle
    · have hlt := pow_lt_pow_left₀ (Nat.lt_floor_add_one (x * 2 ^ 32)) hy0 hr
      rw [hpow] at hlt
      exact_mod_cast hlt
  -- The whole part of the root only adds a multiple of `2^32`.
  have hfract : Int.fract x * 2 ^ 32 = x * 2 ^ 32 - ((⌊x⌋₊ * 2 ^ 32 : ℕ) : ℝ) := by
    rw [Int.fract, ← natCast_floor_eq_intCast_floor hx0]
    push_cast
    ring
  have hwhole : ⌊x⌋₊ * 2 ^ 32 ≤ ⌊x * 2 ^ 32⌋₊ := by
    apply Nat.le_floor
    have hle := mul_le_mul_of_nonneg_right (Nat.floor_le hx0) (show (0 : ℝ) ≤ 2 ^ 32 by positivity)
    exact_mod_cast hle
  rw [rootBits, ← hx, hfract, Nat.floor_sub_natCast, hroot]
  apply BitVec.eq_of_toNat_eq
  rw [BitVec.toNat_ofNat, BitVec.toNat_ofNat]
  omega

/-- The elements of a decidable set of numbers, in order, are found by trying the numbers. -/
theorem nth_eq_getD_filter_range {p : Nat → Prop} [DecidablePred p] {n t : Nat}
    (h : t < ((List.range n).filter p).length) :
    Nat.nth p t = ((List.range n).filter p).getD t 0 := by
  have hlength : ∀ m, ((List.range m).filter p).length = Nat.count p m := by
    intro m
    induction m with
    | zero => simp
    | succ m ih =>
        rw [List.range_succ, List.filter_append, List.length_append, ih, Nat.count_succ]
        by_cases hm : p m <;> simp [hm]
  induction n with
  | zero => simp at h
  | succ n ih =>
      rw [List.range_succ, List.filter_append] at h ⊢
      by_cases hlt : t < ((List.range n).filter p).length
      · rw [ih hlt, List.getD_append _ _ _ _ hlt]
      · by_cases hn : p n
        · have heq : t = Nat.count p n := by
            rw [List.length_append, hlength] at h
            rw [hlength] at hlt
            simp [hn] at h
            omega
          rw [List.getD_append_right _ _ _ _ (Nat.le_of_not_lt hlt), heq, hlength, Nat.nth_count hn]
          simp [hn]
        · simp [hn] at h
          exact absurd h hlt

/-- No number from 2 up to `k` divides `n`, but for `n` itself. -/
def noDivisorUpTo (k n : Nat) : Bool :=
  2 ≤ n && (List.range (k - 1)).all fun i => n ≤ i + 2 || n % (i + 2) != 0

theorem noDivisorUpTo_iff {k n : Nat} (hn : n < (k + 1) * (k + 1)) :
    noDivisorUpTo k n = true ↔ n.Prime := by
  simp only [noDivisorUpTo, Bool.and_eq_true, decide_eq_true_eq, List.all_eq_true, List.mem_range,
    Bool.or_eq_true, bne_iff_ne]
  constructor
  · rintro ⟨htwo, hall⟩
    by_contra hcomp
    have hsq := Nat.minFac_sq_le_self (by omega) hcomp
    rw [pow_two] at hsq
    have hfac : n.minFac < k + 1 := Nat.mul_self_lt_mul_self_iff.mp (Nat.lt_of_le_of_lt hsq hn)
    have hge : 2 ≤ n.minFac := (Nat.minFac_prime (by omega)).two_le
    have hlt : n.minFac < n := (Nat.not_prime_iff_minFac_lt htwo).mp hcomp
    rcases hall (n.minFac - 2) (by omega) with hle | hmod
    · omega
    · rw [Nat.sub_add_cancel hge] at hmod
      exact hmod (Nat.mod_eq_zero_of_dvd n.minFac_dvd)
  · intro hprime
    refine ⟨hprime.two_le, fun i _ => ?_⟩
    by_contra! hdiv
    have hdvd := Nat.dvd_of_mod_eq_zero hdiv.2
    rcases (Nat.dvd_prime hprime).mp hdvd with h | h <;> omega

/-- The first 64 primes. -/
theorem nth_prime_eq {t : Nat} (ht : t < 64) :
    Nat.nth Nat.Prime t = ((List.range 312).filter fun n => noDivisorUpTo 17 n).getD t 0 := by
  have hfilter : (List.range 312).filter (fun n => decide n.Prime) =
      (List.range 312).filter fun n => noDivisorUpTo 17 n := by
    refine List.filter_congr fun n hn => ?_
    rw [List.mem_range] at hn
    rw [Bool.eq_iff_iff, decide_eq_true_iff, noDivisorUpTo_iff (by omega)]
  have hlength : ((List.range 312).filter fun n => noDivisorUpTo 17 n).length = 64 := by
    decide +kernel
  rw [← hfilter] at hlength ⊢
  exact nth_eq_getD_filter_range (hlength ▸ ht)

end Napqes.Fips
