import Napqes.Rust.Key

/-!
# Trial division in checked `u64` arithmetic (`rust/src/lib.rs:189-230`)

`Napqes.Rust.Key` has the loops of `isqrt_u64` and `is_prime` on natural numbers. Here every
subtraction, addition and remainder of the source panics where it leaves `u64` or divides by
zero, and the loops are shown to reach none of these panics, from any estimate of the root.
-/

namespace Napqes.Rust

variable {n est r limit i : Nat}

/-! ## Integer square root -/

/-- First loop of `isqrt_u64` (`lib.rs:196-198`); `r -= 1` panics at 0. -/
def isqrtDownChecked (n r : Nat) : RustM Empty Nat :=
  if 2 ^ 64 ≤ r * r ∨ n < r * r then
    if r = 0 then panics "attempt to subtract with overflow" else isqrtDownChecked n (r - 1)
  else .ok r
termination_by r

/-- Second loop of `isqrt_u64` (`lib.rs:199-201`); `r + 1` panics at the top of `u64`. -/
def isqrtUpChecked (n r : Nat) : RustM Empty Nat :=
  if 2 ^ 64 ≤ r + 1 then panics "attempt to add with overflow"
  else if (r + 1) * (r + 1) < 2 ^ 64 ∧ (r + 1) * (r + 1) ≤ n then isqrtUpChecked n (r + 1)
  else .ok r
termination_by 2 ^ 64 - r

/-- `isqrt_u64` (`lib.rs:194-203`), where `est` is the value of `(n as f64).sqrt() as u64`. -/
def isqrtU64Checked (est n : Nat) : RustM Empty Nat := do
  let r ← isqrtDownChecked n est
  isqrtUpChecked n r

/-- The estimate is lowered only while it is positive: the square of 0 is not above `n`. -/
theorem isqrtDownChecked_eq (n r : Nat) : isqrtDownChecked n r = .ok (isqrtDown n r) := by
  fun_induction isqrtDown n r with
  | case1 r hcond ih =>
      have hpos : r ≠ 0 := by
        rintro rfl
        simp at hcond
      rw [isqrtDownChecked, if_pos hcond, if_neg hpos, ih]
  | case2 r hcond => rw [isqrtDownChecked, if_neg hcond]

/-- A root whose square is at most a `u64` is below `2^32`, so one more is a `u64`. -/
theorem lt_of_sq_le (hn : n < 2 ^ 64) (h : r * r ≤ n) : r < 2 ^ 32 := by
  by_contra hge
  have hsq : 2 ^ 32 * 2 ^ 32 ≤ r * r := Nat.mul_le_mul (by omega) (by omega)
  omega

theorem isqrtUpChecked_eq (hn : n < 2 ^ 64) (h : r * r ≤ n) :
    isqrtUpChecked n r = .ok (isqrtUp n r) := by
  fun_induction isqrtUp n r with
  | case1 r hcond ih =>
      have hlt := lt_of_sq_le hn h
      rw [isqrtUpChecked, if_neg (by omega), if_pos hcond, ih hcond.2]
  | case2 r hcond =>
      have hlt := lt_of_sq_le hn h
      rw [isqrtUpChecked, if_neg (by omega), if_neg hcond]

/-- The root is exact from every estimate. -/
theorem isqrtU64Checked_eq (est : Nat) (hn : n < 2 ^ 64) :
    isqrtU64Checked est n = .ok n.sqrt := by
  have hup := isqrtUpChecked_eq hn (isqrtDown_sq_le n est)
  rw [isqrtU64Checked, isqrtDownChecked_eq]
  show isqrtUpChecked n (isqrtDown n est) = _
  rw [hup]
  exact congrArg Except.ok (isqrtU64_eq_sqrt est hn)

/-! ## Primality -/

/-- The trial loop of `is_prime` (`lib.rs:223-228`); `n % i` panics at 0 and `i += 2` at the top
of `u64`. -/
def oddScanChecked (n limit i : Nat) : RustM Empty Bool :=
  if i ≤ limit then
    if i = 0 then panics "attempt to calculate the remainder with a divisor of zero"
    else if n % i == 0 then .ok false
    else if 2 ^ 64 ≤ i + 2 then panics "attempt to add with overflow"
    else oddScanChecked n limit (i + 2)
  else .ok true
termination_by limit + 1 - i

/-- `is_prime` (`lib.rs:209-230`) for a given floating-point square-root estimate. -/
def isPrimeChecked (est n : Nat) : RustM Empty Bool :=
  if n < 2 then .ok false
  else if n % 2 == 0 then .ok (n == 2)
  else
    match smallOddPrimes.find? (fun p => n % p == 0) with
    | some p => .ok (n == p)
    | none => do
        let limit ← isqrtU64Checked est n
        oddScanChecked n limit 59

theorem oddScanChecked_eq (hlimit : limit < 2 ^ 32) (hi : 0 < i) :
    oddScanChecked n limit i = .ok (oddScan n limit i) := by
  fun_induction oddScan n limit i with
  | case1 i hle hdiv =>
      rw [oddScanChecked, if_pos hle, if_neg (Nat.pos_iff_ne_zero.mp hi), if_pos hdiv]
  | case2 i hle hdiv ih =>
      rw [oddScanChecked, if_pos hle, if_neg (Nat.pos_iff_ne_zero.mp hi), if_neg hdiv,
        if_neg (by omega), ih (by omega)]
  | case3 i hle => rw [oddScanChecked, if_neg hle]

theorem isPrimeChecked_eq (est : Nat) (hn : n < 2 ^ 64) :
    isPrimeChecked est n = .ok (isPrimeWith est n) := by
  have hroot : n.sqrt < 2 ^ 32 := lt_of_sq_le hn (Nat.sqrt_le n)
  unfold isPrimeChecked isPrimeWith
  by_cases htwo : n < 2
  · rw [if_pos htwo, if_pos htwo]
  · rw [if_neg htwo, if_neg htwo]
    by_cases heven : (n % 2 == 0) = true
    · rw [if_pos heven, if_pos heven]
    · rw [if_neg heven, if_neg heven]
      cases smallOddPrimes.find? (fun p => n % p == 0) with
      | some p => rfl
      | none =>
          simp only [isqrtU64Checked_eq est hn, isqrtU64_eq_sqrt est hn]
          exact oddScanChecked_eq hroot (by decide)

/-- For every `u64` and every estimate, `isqrt_u64` and `is_prime` return, the one with the
integer square root and the other with primality. -/
theorem isqrtU64_isPrime_exact (n est : UInt64) :
    isqrtU64Checked est.toNat n.toNat = .ok n.toNat.sqrt ∧
      ∃ b, isPrimeChecked est.toNat n.toNat = .ok b ∧ (b = true ↔ n.toNat.Prime) := by
  refine ⟨isqrtU64Checked_eq _ n.toNat_lt, _, isPrimeChecked_eq _ n.toNat_lt, ?_⟩
  exact isPrimeWith_iff _ n.toNat_lt

end Napqes.Rust
