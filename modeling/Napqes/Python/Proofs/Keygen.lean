import Napqes.Python.Keygen
import Napqes.Python.Kem
import Napqes.Misc.Distinct

/-!
# Which primes `generate_prime_numbers` returns in Python

The loop collects the distinct primes among its draws, as the Rust loop does, with a budget that
depends on the range. No range makes `randbelow` raise: an empty one has no attempts.
-/

namespace Napqes.Python

variable {mathSqrt : Nat → Nat} {draws : Nat → Nat} {count minVal maxVal : Int}

/-! ## The loop -/

/-- The number of the `i`-th turn. -/
def number (draws : Nat → Nat) (minVal : Int) (i : Nat) : Int := draws i + minVal

theorem randbelow_eq_ok {i : Nat} {bound : Int} (h : 0 < bound) :
    randbelow draws i bound = .ok (draws i : Int) := if_neg (by omega)

theorem generateLoop_stop {maxAttempts : Int} {primes : List Int} {attempts : Nat}
    (h : ¬ ((primes.length : Int) < count ∧ (attempts : Int) < maxAttempts)) :
    generateLoop mathSqrt draws count minVal maxVal maxAttempts primes attempts = .ok primes := by
  rw [generateLoop, if_neg h]

/-- One turn: with an attempt left the range is not empty. -/
theorem generateLoop_turn {primes : List Int} {attempts : Nat}
    (hfew : (primes.length : Int) < count) (hleft : (attempts : Int) < (maxVal - minVal) * 4) :
    generateLoop mathSqrt draws count minVal maxVal ((maxVal - minVal) * 4) primes attempts =
      if number draws minVal attempts ∉ primes ∧
          isPrimeInt mathSqrt (number draws minVal attempts) = true then
        generateLoop mathSqrt draws count minVal maxVal ((maxVal - minVal) * 4)
          (primes ++ [number draws minVal attempts]) (attempts + 1)
      else
        generateLoop mathSqrt draws count minVal maxVal ((maxVal - minVal) * 4) primes
          (attempts + 1) := by
  rw [generateLoop, if_pos ⟨hfew, hleft⟩, randbelow_eq_ok (by omega)]
  dsimp only
  rw [← number]
  refine if_congr ?_ rfl rfl
  rw [Bool.and_eq_true, decide_eq_true_eq]
  exact and_comm

/-- The exception for a range with too few primes among the draws. -/
def tooFew (count minVal maxVal : Int) : KeygenErr :=
  .runtimeError (s!"Could not find {count} distinct primes in [{minVal}, {maxVal}] " ++
    s!"after {(maxVal - minVal) * 4} attempts — widen the range.")

/-- What follows the loop. -/
def returnPrimes (count minVal maxVal : Int) (primes : List Int) : Except KeygenErr (List Int) :=
  if (primes.length : Int) < count then .error (tooFew count minVal maxVal) else .ok primes

/-- The distinct primes among the draws of a call, in draw order. -/
def drawnPrimes (mathSqrt draws : Nat → Nat) (minVal maxVal : Int) : List Int :=
  hits (isPrimeInt mathSqrt) (number draws minVal) ((maxVal - minVal) * 4).toNat

/-- The call returns the first `count` of them, or raises the one exception. -/
theorem generatePrimeNumbers_eq (mathSqrt draws : Nat → Nat) (count minVal maxVal : Int) :
    generatePrimeNumbers mathSqrt draws count minVal maxVal =
      if count.toNat ≤ (drawnPrimes mathSqrt draws minVal maxVal).length then
        .ok ((drawnPrimes mathSqrt draws minVal maxVal).take count.toNat)
      else .error (tooFew count minVal maxVal) := by
  refine @loop_eq_of_collects Int _ (isPrimeInt mathSqrt) (number draws minVal) count.toNat _
    (fun primes attempts =>
      generateLoop mathSqrt draws count minVal maxVal ((maxVal - minVal) * 4) primes attempts >>=
        returnPrimes count minVal maxVal)
    Except.ok _ ((maxVal - minVal) * 4).toNat ?_ ?_ ?_ 0 (Nat.zero_le _) (Nat.zero_le _)
  · intro out t hfull
    rw [generateLoop_stop (by omega)]
    exact if_neg (by omega)
  · intro out hfew
    rw [generateLoop_stop (by omega)]
    exact if_pos (by omega)
  · intro out t hfew hlt
    rw [generateLoop_turn (by omega) (by omega)]
    split <;> rfl

/-! ## Keys -/

theorem isPrimeInt_iff (hsqrt : SqrtExact mathSqrt) {n : Int} (hn : n < 2 ^ 52) :
    isPrimeInt mathSqrt n = true ↔ n.toNat.Prime := by
  cases n with
  | ofNat n => exact isPrime_iff hsqrt (Int.ofNat_lt.mp hn)
  | negSucc n => exact iff_of_false (fun h => by cases h) Nat.not_prime_zero

/-- What a call returns for a part of the normative interval: `count` distinct primes of it. -/
theorem of_generatePrimeNumbers {primes : List Int} (hsqrt : SqrtExact mathSqrt)
    (hlow : (minKeyPrime : Int) ≤ minVal) (hhigh : maxVal ≤ (maxKeyPrime : Int))
    (hdraws : ∀ i, (draws i : Int) ≤ maxVal - minVal)
    (h : generatePrimeNumbers mathSqrt draws count minVal maxVal = .ok primes) :
    primes.length = count.toNat ∧ (primes.map Int.toNat).Nodup ∧
      ∀ k ∈ primes.map Int.toNat, k.Prime ∧ 1000000 ≤ k ∧ k ≤ 14999999 := by
  rw [generatePrimeNumbers_eq] at h
  split at h
  case isFalse => cases h
  case isTrue henough =>
    obtain rfl := Except.ok.inj h
    have hmem : ∀ k ∈ (drawnPrimes mathSqrt draws minVal maxVal).take count.toNat,
        k.toNat.Prime ∧ 1000000 ≤ k ∧ k ≤ 14999999 := by
      intro k hk
      obtain ⟨⟨i, -, rfl⟩, hprime⟩ := mem_hits.mp (List.mem_of_mem_take hk)
      have hle := hdraws i
      simp only [minKeyPrime, maxKeyPrime, number] at hlow hhigh hprime ⊢
      exact ⟨(isPrimeInt_iff hsqrt (by omega)).mp hprime, by omega, by omega⟩
    refine ⟨by rw [List.length_take, Nat.min_eq_left henough], ?_, ?_⟩
    · refine List.Nodup.map_on (fun a ha b hb heq => ?_) (nodup_hits _ _ _).take
      have hapos := (hmem a ha).2.1
      have hbpos := (hmem b hb).2.1
      omega
    · intro k hk
      obtain ⟨a, ha, rfl⟩ := List.mem_map.mp hk
      obtain ⟨hprime, hmin, hmax⟩ := hmem a ha
      exact ⟨hprime, by omega, by omega⟩

theorem checkKeyElements_eq_ok {seen : List Nat} {entries : List (Nat × Nat)}
    (hprime : ∀ entry ∈ entries, isPrime mathSqrt entry.1 = true)
    (hnodup : (entries.map Prod.fst).Nodup) (hnew : ∀ entry ∈ entries, entry.1 ∉ seen) :
    checkKeyElements mathSqrt seen entries = .ok ⟨⟩ := by
  induction entries generalizing seen with
  | nil => rfl
  | cons entry entries ih =>
      obtain ⟨k, i⟩ := entry
      rw [List.map_cons, List.nodup_cons] at hnodup
      rw [checkKeyElements, if_neg (by simp [hprime (k, i) List.mem_cons_self]),
        if_neg (hnew _ List.mem_cons_self)]
      refine ih (fun entry hentry => hprime entry (List.mem_cons_of_mem _ hentry)) hnodup.2 ?_
      intro entry hentry hold
      rcases List.mem_cons.mp hold with heq | hold
      · have hagain := List.mem_map_of_mem (f := Prod.fst) hentry
        rw [heq] at hagain
        exact hnodup.1 hagain
      · exact hnew entry (List.mem_cons_of_mem _ hentry) hold

/-- `_validate_key` accepts every tuple of the key policy. -/
theorem validateKey_of_keyValid {key : List Nat} (hsqrt : SqrtExact mathSqrt) (h : KeyValid key) :
    validateKey mathSqrt key = .ok ⟨⟩ := by
  have hmem : ∀ entry ∈ key.zipIdx, entry.1 ∈ key := fun entry => List.fst_mem_of_mem_zipIdx
  have hlen : key.length ≤ maxKeyElements := h.length_le
  rw [validateKey, if_neg (by simpa using h.nonempty), if_neg (not_lt.mpr hlen)]
  refine bind_eq_ok.mpr ⟨⟨⟩, forM_eq_ok.mpr ?_, checkKeyElements_eq_ok ?_ ?_ ?_⟩
  · intro entry hentry
    obtain ⟨hmin, hmax⟩ := h.range _ (hmem entry hentry)
    have hlow : ¬ entry.1 < minKeyPrime := Nat.not_lt.mpr hmin
    have hhigh : ¬ entry.1 > maxKeyPrime := Nat.not_lt.mpr hmax
    rw [checkKeyRange, if_neg hlow, if_neg hhigh]
    rfl
  · intro entry hentry
    have hrange := h.range _ (hmem entry hentry)
    exact (isPrime_iff hsqrt (by omega)).mpr (h.prime _ (hmem entry hentry))
  · rw [List.zipIdx_map_fst]
    exact h.nodup
  · exact fun _ _ => List.not_mem_nil

end Napqes.Python
