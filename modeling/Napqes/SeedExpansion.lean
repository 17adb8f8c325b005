import Napqes.Rust.Proofs.Kem
import Napqes.Python.Kem

/-!
# Both gateways derive the same prime tuple from a seed

The Rust and the Python expansion read the same candidates and make the same decision on each:
their primality tests agree on the numbers of the interval. Where the candidates of the counters
that both can use hold thirteen distinct primes, both return the first thirteen, and the tuple is
a key.
-/

namespace Napqes

variable {H : Hmac} {mathSqrt : Nat → Nat} {seed : List UInt8}

/-- The Python loop collects the distinct primes among the candidates of all four-byte counters. -/
theorem Python.expandSeedToPrimes_eq (count : Nat) :
    Python.expandSeedToPrimes H mathSqrt seed count =
      if count ≤ (hits (Python.isPrime mathSqrt) (Rust.candidate H seed) (256 ^ 4)).length then
        .ok ((hits (Python.isPrime mathSqrt) (Rust.candidate H seed) (256 ^ 4)).take count)
      else Python.raise (.overflowError "int too big to convert") := by
  refine @loop_eq_of_collects Nat _ (Python.isPrime mathSqrt) (Rust.candidate H seed) count _
    (Python.expandSeedLoop H mathSqrt seed count) Except.ok _ (256 ^ 4) ?_ ?_ ?_ 0
    (Nat.zero_le _) (Nat.zero_le _)
  · intro out t hfull
    rw [Python.expandSeedLoop, if_neg hfull]
  · intro out hfew
    rw [Python.expandSeedLoop, if_pos hfew]
    rfl
  · intro out t hfew hlt
    rw [Python.expandSeedLoop, if_pos hfew]
    split
    case h_1 e he =>
      rw [Python.toBytes_of_lt hlt] at he
      cases he
    case h_2 bytes hbytes =>
      rw [Python.toBytes_of_lt hlt] at hbytes
      cases hbytes
      rfl

/-- The two primality tests agree on the candidates. -/
theorem hits_python_isPrime (hsqrt : Python.SqrtExact mathSqrt) (t : Nat) :
    hits (Python.isPrime mathSqrt) (Rust.candidate H seed) t =
      hits primeTest (Rust.candidate H seed) t := by
  apply hits_congr
  intro i
  have hrange := Rust.candidate_range H seed i
  simp only [Rust.minKeyPrime, Rust.maxKeyPrime] at hrange
  rw [Bool.eq_iff_iff, Python.isPrime_iff hsqrt (by omega), primeTest_iff]

/-- The first thirteen distinct primes among the candidates of the counters `0` to `2^32 - 2`. -/
def firstPrimes (H : Hmac) (seed : List UInt8) : List Nat :=
  (hits primeTest (Rust.candidate H seed) Rust.expandBudget).take 13

/-- Expansion of a seed with enough primes, in both ports, and the keys derived from it. -/
theorem expandSeedToPrimes_agree (hsqrt : Python.SqrtExact mathSqrt)
    (henough : 13 ≤ (((Finset.range (2 ^ 32 - 1)).image (Rust.candidate H seed)).filter
      Nat.Prime).card) :
    (Rust.expandSeedToPrimes H seed : Rust.RustM String (List Nat)) = .ok (firstPrimes H seed) ∧
    Python.expandSeedToPrimes H mathSqrt seed 13 = .ok (firstPrimes H seed) ∧
    Rust.validateKey (firstPrimes H seed) = .ok ⟨⟩ ∧
    (∀ (hkdf : Rust.Hkdf) sharedSecret primes,
      (Rust.deriveNapqesKey H hkdf sharedSecret : Rust.RustM String (List Nat)) = .ok primes →
        ∃ key, Rust.deriveV8Key H hkdf sharedSecret = .ok key ∧ key.primes = primes) := by
  have hlen : 13 ≤ (hits primeTest (Rust.candidate H seed) Rust.expandBudget).length := by
    rw [Rust.length_hits_primeTest]
    exact henough
  refine ⟨?_, ?_, ?_, ?_⟩
  · rw [Rust.expandSeedToPrimes_eq]
    exact if_pos hlen
  · have hmore : Rust.expandBudget ≤ 256 ^ 4 := by decide
    have hkept := (hits_isPrefix primeTest (Rust.candidate H seed) hmore).length_le
    rw [Python.expandSeedToPrimes_eq, hits_python_isPrime hsqrt, if_pos (hlen.trans hkept),
      take_hits_of_le hmore hlen, firstPrimes]
  · exact (Rust.validateKey_iff _).mpr (Rust.keyValid_take_hits seed hlen)
  · intro hkdf sharedSecret primes hprimes
    have hvalid := Rust.validateKey_of_expandSeedToPrimes hprimes
    refine ⟨⟨primes, Rust.deriveV8Sk hkdf sharedSecret, hvalid⟩, ?_, rfl⟩
    rw [Rust.deriveV8Key, hprimes, ok_bind]
    exact Rust.NapqesKey.new_eq_ok hvalid _

/-- The instance whose candidates are the first thirteen primes of the interval. -/
theorem expandSeedToPrimes_agree_small :
    (Rust.expandSeedToPrimes Rust.smallHmac [] : Rust.RustM String (List Nat)) =
        .ok (firstPrimes Rust.smallHmac []) ∧
      Python.expandSeedToPrimes Rust.smallHmac Nat.sqrt [] 13 =
        .ok (firstPrimes Rust.smallHmac []) := by
  have hmem : Rust.smallPrimes.toFinset ⊆
      ((Finset.range (2 ^ 32 - 1)).image (Rust.candidate Rust.smallHmac [])).filter Nat.Prime := by
    intro p hp
    have hprime := Rust.keyValid_smallPrimes.prime p (List.mem_toFinset.mp hp)
    obtain ⟨i, hi, rfl⟩ := List.mem_iff_getElem.mp (List.mem_toFinset.mp hp)
    have hthirteen : i < 13 := hi
    rw [Finset.mem_filter, Finset.mem_image]
    refine ⟨⟨i, ?_, Rust.candidate_smallHmac [] i hi⟩, hprime⟩
    rw [Finset.mem_range]
    omega
  have henough := Finset.card_le_card hmem
  rw [List.toFinset_card_of_nodup Rust.keyValid_smallPrimes.nodup] at henough
  have hagree := expandSeedToPrimes_agree (fun n _ => rfl : Python.SqrtExact Nat.sqrt) henough
  exact ⟨hagree.1, hagree.2.1⟩

end Napqes
