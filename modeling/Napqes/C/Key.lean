import Napqes.C.Basic
import Napqes.Misc.TrialDivision

/-!
# Key validation of the C port (`C/napqes.c:55-63, 277-299`)

A key is an array of `uint64_t`. The bound `i * i` of the trial loop is computed modulo `2^64`. A
composite is caught before the square wraps; for a prime above `(2^32 - 1)^2` the loop runs past
the square root until a wrapped square is above `n`.
-/

namespace Napqes.C

def minKeyPrime : UInt64 := 1000000
def maxKeyPrime : UInt64 := 14999999
def maxKeyElements : Nat := 128

/-! ## Primality -/

/-- The candidate after one that did not divide: still odd, and not above `n`. -/
theorem isPrimeLoop_next {n i : UInt64} (hn : n.toNat % 2 = 1)
    (hi : i.toNat % 2 = 1 ∧ i ≤ n) (hdiv : ¬ n % i = 0) :
    (i + 2).toNat = i.toNat + 2 ∧ i.toNat + 2 ≤ n.toNat := by
  have hne : i.toNat ≠ n.toNat := by
    intro heq
    apply hdiv
    apply UInt64.toNat_inj.mp
    simp [heq]
  have hle : i.toNat ≤ n.toNat := UInt64.le_iff_toNat_le.mp hi.2
  have hlt := n.toNat_lt
  have hnext : (i + 2).toNat = (i.toNat + 2) % 2 ^ 64 := UInt64.toNat_add i 2
  rw [hnext, Nat.mod_eq_of_lt (by omega)]
  omega

/-- The loop of `napqes_is_prime` (`napqes.c:59-61`) in 64-bit arithmetic. The hypotheses hold
on entry and make it end: `i` stays odd and does not pass the odd number `n`. -/
def isPrimeLoop (n i : UInt64) (hn : n.toNat % 2 = 1) (hi : i.toNat % 2 = 1 ∧ i ≤ n) : Bool :=
  if i * i ≤ n then
    if hdiv : n % i = 0 then false
    else
      isPrimeLoop n (i + 2) hn (by
        obtain ⟨hnext, hle⟩ := isPrimeLoop_next hn hi hdiv
        rw [UInt64.le_iff_toNat_le, hnext]
        omega)
  else true
termination_by n.toNat - i.toNat
decreasing_by
  obtain ⟨hnext, hle⟩ := isPrimeLoop_next hn hi hdiv
  omega

/-- `napqes_is_prime` (`napqes.c:55-63`). -/
def napqesIsPrime (n : UInt64) : Bool :=
  if hlt : n < 2 then false
  else if htwo : n = 2 then true
  else if hodd : n &&& 1 = 0 then false
  else
    isPrimeLoop n 3
      (by
        have : n.toNat &&& 1 ≠ 0 := fun h => hodd (UInt64.toNat_inj.mp h)
        rw [Nat.and_one_is_mod] at this
        omega)
      (by
        have hge : ¬ n.toNat < 2 := fun h => hlt (UInt64.lt_iff_toNat_lt.mpr h)
        have hne : n.toNat ≠ 2 := fun h => htwo (UInt64.toNat_inj.mp h)
        refine ⟨rfl, UInt64.le_iff_toNat_le.mpr ?_⟩
        show 3 ≤ n.toNat
        omega)

/-- A composite is caught at its least factor: up to there the square does not wrap. -/
theorem isPrimeLoop_of_composite {n i : UInt64} (hn : n.toNat % 2 = 1)
    (hi : i.toNat % 2 = 1 ∧ i ≤ n) (hone : 1 < n.toNat) (hcomp : ¬ n.toNat.Prime)
    (hfac : i.toNat ≤ n.toNat.minFac) : isPrimeLoop n i hn hi = false := by
  induction hrest : n.toNat - i.toNat using Nat.strong_induction_on generalizing i with
  | _ rest ih =>
      have hdvd : n.toNat.minFac ∣ n.toNat := n.toNat.minFac_dvd
      have hfacOdd : n.toNat.minFac % 2 = 1 := odd_of_dvd_odd hn hdvd
      have hsq : i.toNat * i.toNat ≤ n.toNat := by
        have hmin := Nat.minFac_sq_le_self (by omega) hcomp
        rw [pow_two] at hmin
        exact (Nat.mul_le_mul hfac hfac).trans hmin
      have hcond : i * i ≤ n := by
        rw [UInt64.le_iff_toNat_le, UInt64.toNat_mul]
        exact (Nat.mod_le _ _).trans hsq
      rw [isPrimeLoop, if_pos hcond]
      by_cases hdiv : n % i = 0
      · rw [dif_pos hdiv]
      · obtain ⟨hnext, hle⟩ := isPrimeLoop_next hn hi hdiv
        have hne : i.toNat ≠ n.toNat.minFac := by
          intro heq
          apply hdiv
          apply UInt64.toNat_inj.mp
          rw [UInt64.toNat_mod, heq]
          exact Nat.mod_eq_zero_of_dvd hdvd
        rw [dif_neg hdiv]
        exact ih _ (by omega) _ (by omega) rfl

/-- A prime passes, provided some candidate up to it has a square that is, after wrapping, above
it: the loop ends there or earlier, and no candidate before divides. -/
theorem isPrimeLoop_of_prime {n i last : UInt64} (hn : n.toNat % 2 = 1)
    (hi : i.toNat % 2 = 1 ∧ i ≤ n) (hone : 1 < i.toNat) (hprime : n.toNat.Prime)
    (hodd : last.toNat % 2 = 1) (hile : i.toNat ≤ last.toNat) (hlast : last ≤ n)
    (hexit : n < last * last) : isPrimeLoop n i hn hi = true := by
  induction hrest : last.toNat - i.toNat using Nat.strong_induction_on generalizing i with
  | _ rest ih =>
      have hlastNat : last.toNat ≤ n.toNat := UInt64.le_iff_toNat_le.mp hlast
      rw [isPrimeLoop]
      by_cases hcond : i * i ≤ n
      · have hne : i.toNat ≠ last.toNat := by
          intro heq
          rw [UInt64.toNat_inj.mp heq] at hcond
          exact absurd hexit (UInt64.not_lt.mpr hcond)
        have hdiv : ¬ n % i = 0 := by
          intro h
          have hmod : n.toNat % i.toNat = 0 := by
            rw [← UInt64.toNat_mod, h]
            rfl
          rcases (Nat.dvd_prime hprime).mp (Nat.dvd_of_mod_eq_zero hmod) with h | h <;> omega
        obtain ⟨hnext, hle⟩ := isPrimeLoop_next hn hi hdiv
        rw [if_pos hcond, dif_neg hdiv]
        exact ih _ (by omega) _ (by omega) (by omega) rfl
      · rw [if_neg hcond]

/-- The residue `2^64 - 7` is the largest odd square modulo `2^64`; this is one of its roots. -/
def wrappedRoot : UInt64 := 1852311383259529397

theorem wrappedRoot_sq : (wrappedRoot * wrappedRoot).toNat = 2 ^ 64 - 7 := by decide

/-- No prime of 64 bits is above `2^64 - 7`. -/
theorem prime_lt_wrapped {n : Nat} (hn : n < 2 ^ 64) (hprime : n.Prime) : n < 2 ^ 64 - 7 := by
  by_contra hge
  have hcases : n = 2 ^ 64 - 7 ∨ n = 2 ^ 64 - 6 ∨ n = 2 ^ 64 - 5 ∨ n = 2 ^ 64 - 4 ∨
      n = 2 ^ 64 - 3 ∨ n = 2 ^ 64 - 2 ∨ n = 2 ^ 64 - 1 := by omega
  have hfactor : ∀ p, 1 < p → p < n → ¬ p ∣ n := by
    intro p hone hlt hdvd
    rcases (Nat.dvd_prime hprime).mp hdvd with h | h <;> omega
  rcases hcases with rfl | rfl | rfl | rfl | rfl | rfl | rfl
  · exact hfactor 3 (by norm_num) (by norm_num) (by norm_num)
  · exact hfactor 2 (by norm_num) (by norm_num) (by norm_num)
  · exact hfactor 11 (by norm_num) (by norm_num) (by norm_num)
  · exact hfactor 2 (by norm_num) (by norm_num) (by norm_num)
  · exact hfactor 13 (by norm_num) (by norm_num) (by norm_num)
  · exact hfactor 2 (by norm_num) (by norm_num) (by norm_num)
  · exact hfactor 3 (by norm_num) (by norm_num) (by norm_num)

/-- Every odd prime has a candidate at which the loop ends. Below `(2^32 - 1)^2` the exact square
ends it; above, no exact square is left and a wrapped one does. -/
theorem exists_exit {n : UInt64} (hn : n.toNat % 2 = 1) (hprime : n.toNat.Prime) :
    ∃ last : UInt64, last.toNat % 2 = 1 ∧ 3 ≤ last.toNat ∧ last ≤ n ∧ n < last * last := by
  have hlt := n.toNat_lt
  have htwo := hprime.two_le
  by_cases hsmall : n.toNat < 2 ^ 32
  · refine ⟨n, hn, by omega, UInt64.le_refl n, ?_⟩
    have hsq : n.toNat * n.toNat < 2 ^ 32 * 2 ^ 32 := Nat.mul_lt_mul'' hsmall hsmall
    have hgrow : n.toNat * 2 ≤ n.toNat * n.toNat := Nat.mul_le_mul_left _ htwo
    rw [UInt64.lt_iff_toNat_lt, UInt64.toNat_mul, Nat.mod_eq_of_lt (by omega)]
    omega
  · by_cases hexact : n.toNat < 4294967295 * 4294967295
    · refine ⟨4294967295, by decide, by decide, ?_, ?_⟩
      · rw [UInt64.le_iff_toNat_le]
        show 4294967295 ≤ n.toNat
        omega
      · rw [UInt64.lt_iff_toNat_lt]
        exact hexact
    · refine ⟨wrappedRoot, by decide, by decide, ?_, ?_⟩
      · rw [UInt64.le_iff_toNat_le]
        show 1852311383259529397 ≤ n.toNat
        omega
      · rw [UInt64.lt_iff_toNat_lt, wrappedRoot_sq]
        exact prime_lt_wrapped hlt hprime

theorem isPrimeLoop_iff {n : UInt64} (hn : n.toNat % 2 = 1)
    (hi : (3 : UInt64).toNat % 2 = 1 ∧ 3 ≤ n) :
    isPrimeLoop n 3 hn hi = true ↔ n.toNat.Prime := by
  have hthree : 3 ≤ n.toNat := UInt64.le_iff_toNat_le.mp hi.2
  constructor
  · intro h
    by_contra hcomp
    have hfac : 3 ≤ n.toNat.minFac := by
      have hodd := odd_of_dvd_odd hn n.toNat.minFac_dvd
      have htwo := (Nat.minFac_prime (show n.toNat ≠ 1 by omega)).two_le
      omega
    rw [isPrimeLoop_of_composite hn hi (by omega) hcomp hfac] at h
    cases h
  · intro hprime
    obtain ⟨last, hodd, hthree, hle, hexit⟩ := exists_exit hn hprime
    exact isPrimeLoop_of_prime hn hi (by decide) hprime hodd hthree hle hexit

theorem napqesIsPrime_iff (n : UInt64) : napqesIsPrime n = true ↔ n.toNat.Prime := by
  unfold napqesIsPrime
  split
  case isTrue hlt =>
    have : n.toNat < 2 := UInt64.lt_iff_toNat_lt.mp hlt
    simp only [Bool.false_eq_true, false_iff]
    exact fun hp => absurd hp.two_le (by omega)
  case isFalse hlt =>
    split
    case isTrue htwo =>
      subst htwo
      simpa using Nat.prime_two
    case isFalse htwo =>
      have hne : n.toNat ≠ 2 := fun h => htwo (UInt64.toNat_inj.mp h)
      split
      case isTrue heven =>
        have hmod : n.toNat % 2 = 0 := by
          rw [← Nat.and_one_is_mod]
          exact UInt64.toNat_inj.mpr heven
        simp only [Bool.false_eq_true, false_iff]
        intro hp
        rcases (Nat.dvd_prime hp).mp (Nat.dvd_of_mod_eq_zero hmod) with h | h <;> omega
      case isFalse hodd => exact isPrimeLoop_iff _ _

/-! ### The loop turn by turn -/

/-- At most `turns` turns of the loop, without the facts that make it end; `none` when it is still
running. -/
def isPrimeTurns (n : UInt64) : Nat → UInt64 → Option Bool
  | 0, _ => none
  | turns + 1, i =>
      if i * i ≤ n then
        if n % i = 0 then some false else isPrimeTurns n turns (i + 2)
      else some true

/-- `napqes_is_prime` with a bound on the turns of its loop. -/
def napqesIsPrimeTurns (turns : Nat) (n : UInt64) : Option Bool :=
  if n < 2 then some false
  else if n = 2 then some true
  else if n &&& 1 = 0 then some false
  else isPrimeTurns n turns 3

/-- The loop has ended after at most as many turns as there are numbers up to `n`. -/
theorem isPrimeTurns_eq {n i : UInt64} {turns : Nat} (hn : n.toNat % 2 = 1)
    (hi : i.toNat % 2 = 1 ∧ i ≤ n) (hturns : n.toNat < turns + i.toNat) :
    isPrimeTurns n turns i = some (isPrimeLoop n i hn hi) := by
  induction turns generalizing i with
  | zero =>
      have hle : i.toNat ≤ n.toNat := UInt64.le_iff_toNat_le.mp hi.2
      omega
  | succ turns ih =>
      rw [isPrimeTurns, isPrimeLoop]
      by_cases hcond : i * i ≤ n
      · rw [if_pos hcond, if_pos hcond]
        by_cases hdiv : n % i = 0
        · rw [if_pos hdiv, dif_pos hdiv]
        · obtain ⟨hnext, hle⟩ := isPrimeLoop_next hn hi hdiv
          rw [if_neg hdiv, dif_neg hdiv]
          apply ih
          omega
      · rw [if_neg hcond, if_neg hcond]

theorem napqesIsPrimeTurns_eq {n : UInt64} {turns : Nat} (hturns : n.toNat < turns) :
    napqesIsPrimeTurns turns n = some (napqesIsPrime n) := by
  unfold napqesIsPrimeTurns napqesIsPrime
  by_cases hlt : n < 2
  · rw [if_pos hlt, dif_pos hlt]
  · rw [if_neg hlt, dif_neg hlt]
    by_cases htwo : n = 2
    · rw [if_pos htwo, dif_pos htwo]
    · rw [if_neg htwo, dif_neg htwo]
      by_cases hodd : n &&& 1 = 0
      · rw [if_pos hodd, dif_pos hodd]
      · rw [if_neg hodd, dif_neg hodd]
        apply isPrimeTurns_eq
        omega

/-- For every `uint64_t` the loop ends and the verdict is primality. -/
theorem napqesIsPrime_decides (n : UInt64) :
    (∃ turns, ∀ more, turns ≤ more →
      napqesIsPrimeTurns more n = some (napqesIsPrime n)) ∧
    (napqesIsPrime n = true ↔ n.toNat.Prime) := by
  refine ⟨⟨n.toNat + 1, ?_⟩, napqesIsPrime_iff n⟩
  intro more hmore
  apply napqesIsPrimeTurns_eq
  omega

/-! ## `validate_key` -/

/-- The second loop of `validate_key` (`napqes.c:292-297`); `seen` are the elements before. -/
def checkPrimesDistinct (seen : List UInt64) : List UInt64 → Bool
  | [] => true
  | k :: rest =>
      if !napqesIsPrime k then false
      else if seen.any (· == k) then false
      else checkPrimesDistinct (seen ++ [k]) rest

/-- `validate_key` (`napqes.c:285-299`). -/
def validateKey (primes : List UInt64) : Bool :=
  if primes.length = 0 ∨ primes.length > maxKeyElements then false
  else if primes.any fun k => k < minKeyPrime ∨ k > maxKeyPrime then false
  else checkPrimesDistinct [] primes

/-- The array as the other ports see it. -/
def primesNat (primes : List UInt64) : List Nat := primes.map UInt64.toNat

theorem checkPrimesDistinct_iff {primes : List UInt64} (seen : List UInt64)
    (hseen : (primesNat seen).Nodup) :
    checkPrimesDistinct seen primes = true ↔
      (∀ k ∈ primes, k.toNat.Prime) ∧ (primesNat (seen ++ primes)).Nodup := by
  induction primes generalizing seen with
  | nil => simpa [checkPrimesDistinct] using hseen
  | cons k rest ih =>
      have hprime := napqesIsPrime_iff k
      have hmem : seen.any (· == k) = true ↔ k.toNat ∈ primesNat seen := by
        simp only [List.any_eq_true, beq_iff_eq, primesNat, List.mem_map, UInt64.toNat_inj]
      have hassoc : seen ++ k :: rest = seen ++ [k] ++ rest := by simp
      rw [checkPrimesDistinct, List.forall_mem_cons]
      by_cases hk : k.toNat.Prime
      · rw [if_neg (by simp [hprime.mpr hk])]
        by_cases hdup : k.toNat ∈ primesNat seen
        · rw [if_pos (hmem.mpr hdup)]
          simp only [Bool.false_eq_true, false_iff, not_and]
          intro _ hnodup
          rw [primesNat, List.map_append, List.nodup_append] at hnodup
          exact hnodup.2.2 _ hdup _ (by simp) rfl
        · have hnext : (primesNat (seen ++ [k])).Nodup := by
            rw [primesNat, List.map_append, List.nodup_append]
            refine ⟨hseen, by simp, ?_⟩
            intro x hx y hy
            simp only [List.map_cons, List.map_nil, List.mem_singleton] at hy
            rintro rfl
            exact hdup (hy ▸ hx)
          rw [if_neg (fun h => hdup (hmem.mp h)), ih _ hnext, ← hassoc, and_iff_right hk]
      · have : napqesIsPrime k = false := by
          rw [Bool.eq_false_iff]
          exact fun h => hk (hprime.mp h)
        simp [this, hk]

/-- `validate_key` accepts exactly the tuples of the key policy. -/
theorem validateKey_iff (primes : List UInt64) :
    validateKey primes = true ↔ KeyValid (primesNat primes) := by
  have hmem : ∀ {P : Nat → Prop}, (∀ k ∈ primesNat primes, P k) ↔ ∀ k ∈ primes, P k.toNat := by
    simp [primesNat]
  unfold validateKey
  split
  case isTrue hlen =>
    simp only [Bool.false_eq_true, false_iff]
    intro h
    have hle := h.length_le
    have hpos := List.length_pos_iff.mpr h.nonempty
    simp only [primesNat, List.length_map, maxKeyElements] at hle hpos hlen
    omega
  case isFalse hlen =>
    simp only [not_or, maxKeyElements] at hlen
    have hany : (primes.any fun k => k < minKeyPrime ∨ k > maxKeyPrime) = true ↔
        ¬ ∀ k ∈ primesNat primes, 1000000 ≤ k ∧ k ≤ 14999999 := by
      rw [hmem]
      simp only [List.any_eq_true, decide_eq_true_eq, UInt64.lt_iff_toNat_lt, gt_iff_lt, not_forall]
      constructor
      · rintro ⟨k, hk, hout⟩
        refine ⟨k, hk, fun hin => ?_⟩
        change k.toNat < 1000000 ∨ 14999999 < k.toNat at hout
        omega
      · rintro ⟨k, hk, hout⟩
        refine ⟨k, hk, ?_⟩
        change k.toNat < 1000000 ∨ 14999999 < k.toNat
        omega
    split
    case isTrue hbad =>
      simp only [Bool.false_eq_true, false_iff]
      exact fun h => hany.mp hbad h.range
    case isFalse hrange =>
      have hrange' : ∀ k ∈ primesNat primes, 1000000 ≤ k ∧ k ≤ 14999999 := by
        by_contra h
        exact hrange (hany.mpr h)
      rw [checkPrimesDistinct_iff [] List.nodup_nil]
      constructor
      · rintro ⟨hprime, hnodup⟩
        exact
          { nonempty := by
              intro hnil
              exact hlen.1 (by simpa [primesNat] using hnil)
            length_le := by
              simp only [primesNat, List.length_map]
              omega
            range := hrange'
            prime := hmem.mpr hprime
            nodup := by simpa using hnodup }
      · intro h
        exact ⟨hmem.mp h.prime, by simpa using h.nodup⟩

/-- A valid tuple, stored in a `uint64_t` array, is the same tuple. -/
theorem primesNat_ofNat {primes : List Nat} (h : KeyValid primes) :
    primesNat (primes.map UInt64.ofNat) = primes := by
  rw [primesNat, List.map_map]
  refine (List.map_congr_left fun k hk => ?_).trans (List.map_id primes)
  have := h.range k hk
  show (UInt64.ofNat k).toNat = k
  rw [UInt64.toNat_ofNat']
  exact Nat.mod_eq_of_lt (by omega)

end Napqes.C
