import Mathlib.Data.Nat.Prime.Basic
import Mathlib.Data.Nat.Sqrt
import Mathlib.Tactic

/-!
# Primality by trial division

An odd number above 1 is prime when no odd number from 3 up to its square root divides it.
`oddScan n limit i` is the loop that tries `i, i + 2, ...` up to `limit`.
-/

namespace Napqes

/-- Primality of a number, as a test. -/
def primeTest (n : Nat) : Bool := decide n.Prime

theorem primeTest_iff {n : Nat} : primeTest n = true ↔ n.Prime := decide_eq_true_iff

theorem odd_of_dvd_odd {n d : Nat} (hodd : n % 2 = 1) (hdvd : d ∣ n) : d % 2 = 1 := by
  by_contra heven
  have htwo : 2 ∣ n := Dvd.dvd.trans (Nat.dvd_of_mod_eq_zero (by omega)) hdvd
  omega

/-- A composite odd number has an odd divisor that is not above its square root. -/
theorem prime_of_no_odd_divisor {n : Nat} (hn : 1 < n) (hodd : n % 2 = 1)
    (h : ∀ d, 3 ≤ d → d % 2 = 1 → d * d ≤ n → ¬ d ∣ n) : n.Prime := by
  by_contra hcomp
  have hdvd : n.minFac ∣ n := n.minFac_dvd
  have hsq : n.minFac * n.minFac ≤ n := by
    have := Nat.minFac_sq_le_self (by omega) hcomp
    rwa [pow_two] at this
  have htwo : 2 ≤ n.minFac := (Nat.minFac_prime (by omega)).two_le
  have hfac : n.minFac % 2 = 1 := odd_of_dvd_odd hodd hdvd
  exact h n.minFac (by omega) hfac hsq hdvd

/-- The trial loop: try `i, i + 2, ...` while not above `limit`; `false` on a divisor. -/
def oddScan (n limit i : Nat) : Bool :=
  if i ≤ limit then
    if n % i == 0 then false else oddScan n limit (i + 2)
  else true
termination_by limit + 1 - i

theorem oddScan_eq_true (n limit i : Nat) : oddScan n limit i = true ↔
    ∀ d, i ≤ d → d % 2 = i % 2 → d ≤ limit → ¬ d ∣ n := by
  fun_induction oddScan n limit i with
  | case1 i hi hdiv =>
      simp only [beq_iff_eq] at hdiv
      simp only [Bool.false_eq_true, false_iff]
      intro h
      exact h i (Nat.le_refl i) rfl hi (Nat.dvd_of_mod_eq_zero hdiv)
  | case2 i hi hdiv ih =>
      rw [ih]
      simp only [beq_iff_eq] at hdiv
      constructor
      · intro h d hid hpar hd
        by_cases heq : d = i
        · subst heq
          exact fun hdvd => hdiv (Nat.mod_eq_zero_of_dvd hdvd)
        · exact h d (by omega) (by omega) hd
      · intro h d hid hpar hd
        exact h d (by omega) (by omega) hd
  | case3 i hi =>
      simp only [true_iff]
      intro d hid _ hd
      omega

/-- The scan up to the square root decides primality, provided the odd numbers from 3 to
the start of the scan have been excluded. -/
theorem oddScan_sqrt_eq_true {n start : Nat} (hn : 1 < n) (hodd : n % 2 = 1)
    (hstart : start % 2 = 1) (hsmall : ∀ d, 3 ≤ d → d < start → d % 2 = 1 → ¬ d ∣ n)
    (hself : start ≤ n.sqrt → 1 < start) :
    oddScan n n.sqrt start = true ↔ n.Prime := by
  rw [oddScan_eq_true]
  constructor
  · intro h
    apply prime_of_no_odd_divisor hn hodd
    intro d hd hdodd hsq
    by_cases hlt : d < start
    · exact hsmall d hd hlt hdodd
    · exact h d (by omega) (by omega) (Nat.le_sqrt.mpr hsq)
  · intro hprime d hd hpar hle hdvd
    have hlt : n.sqrt < n := Nat.sqrt_lt_self hn
    have hone := hself (Nat.le_trans hd hle)
    rcases (Nat.dvd_prime hprime).mp hdvd with rfl | rfl <;> omega

end Napqes
