import Napqes.Python.Basic
import Napqes.Misc.Distinct

/-!
# Prime tuples from a seed in the Python port (`napqes_kem.py:220-242`)

The counter is an unbounded integer, and `counter.to_bytes(4, "big")` raises when it leaves four
bytes. `math.sqrt` is a parameter: what is used of it is that truncating the root is exact on
integers below `2^52`, where a correctly rounded double does not reach the next integer.
-/

namespace Napqes.Python

def minPrime : Nat := 1000000
def maxPrime : Nat := 15000000
def primeRange : Nat := maxPrime - minPrime

/-- `int(math.sqrt(n))` is the integer square root of every `n` below `2^52`. -/
def SqrtExact (mathSqrt : Nat → Nat) : Prop := ∀ n, n < 2 ^ 52 → mathSqrt n = n.sqrt

theorem isPrime_iff {mathSqrt : Nat → Nat} (hsqrt : SqrtExact mathSqrt) {n : Nat}
    (hn : n < 2 ^ 52) : isPrime mathSqrt n = true ↔ n.Prime := by
  unfold isPrime
  split
  case isTrue hlt =>
    simp only [Bool.false_eq_true, false_iff]
    exact fun hp => absurd hp.two_le (by omega)
  case isFalse hge =>
    split
    case isTrue htwo =>
      rw [beq_iff_eq] at htwo
      simp [htwo, Nat.prime_two]
    case isFalse htwo =>
      rw [beq_iff_eq] at htwo
      split
      case isTrue heven =>
        rw [beq_iff_eq] at heven
        simp only [Bool.false_eq_true, false_iff]
        intro hp
        rcases (Nat.dvd_prime hp).mp (Nat.dvd_of_mod_eq_zero heven) with h | h <;> omega
      case isFalse hodd =>
        rw [beq_iff_eq] at hodd
        rw [hsqrt n hn]
        apply oddScan_sqrt_eq_true (by omega) (by omega) (by decide)
        · intro d hd hlt
          omega
        · intro _
          decide

section
variable (H : Hmac) (mathSqrt : Nat → Nat)

/-- The loop of `_expand_seed_to_primes` (`napqes_kem.py:234-241`); `seen` holds the elements of
`primes`. -/
def expandSeedLoop (seed : List UInt8) (count : Nat) (primes : List Nat) (counter : Nat) :
    PyM (List Nat) :=
  if primes.length < count then
    match _h : toBytes 4 counter with
    | .error e => .error e
    | .ok bytes =>
        let digest := (H seed bytes).toList
        let candidate := beNat (digest.take 8) % primeRange + minPrime
        if candidate ∉ primes ∧ isPrime mathSqrt candidate = true then
          expandSeedLoop seed count (primes ++ [candidate]) (counter + 1)
        else expandSeedLoop seed count primes (counter + 1)
  else .ok primes
termination_by 256 ^ 4 - counter
decreasing_by
  all_goals
    have hfits : counter < 256 ^ 4 := by
      unfold toBytes at _h
      split at _h
      case isTrue hlt => exact hlt
      case isFalse => cases _h
    omega

/-- `_expand_seed_to_primes` (`napqes_kem.py:220-242`). -/
def expandSeedToPrimes (seed : List UInt8) (count : Nat) : PyM (List Nat) :=
  expandSeedLoop H mathSqrt seed count [] 0

end

end Napqes.Python
