import Napqes.Rust.Kem
import Napqes.Rust.Proofs.Keygen

/-!
# Session keys

When the expansion of a seed yields a key, what both sides of an exchange derive, and a small
instance: a function in the place of HMAC under which every secret yields the same thirteen
primes and its own `sk`, and a KEM whose secret is the two sides' randomness.
-/

namespace Napqes.Rust

variable {ε : Type} {H : Hmac}

/-- The number that the expansion of a seed considers at a counter. -/
def candidate (H : Hmac) (seed : List UInt8) (counter : Nat) : Nat :=
  u64FromBe8 (H seed (beBytes 4 counter)).toList % (maxPrime - minPrime) + minPrime

theorem candidate_lt (H : Hmac) (seed : List UInt8) (counter : Nat) :
    candidate H seed counter < 2 ^ 64 := by
  have := Nat.mod_lt (u64FromBe8 (H seed (beBytes 4 counter)).toList)
    (show maxPrime - minPrime > 0 by decide)
  simp only [candidate, maxPrime, minPrime] at this ⊢
  omega

theorem candidate_range (H : Hmac) (seed : List UInt8) (counter : Nat) :
    minKeyPrime ≤ candidate H seed counter ∧ candidate H seed counter ≤ maxKeyPrime := by
  have := Nat.mod_lt (u64FromBe8 (H seed (beBytes 4 counter)).toList)
    (show maxPrime - minPrime > 0 by decide)
  simp only [candidate, maxPrime, minPrime, minKeyPrime, maxKeyPrime] at this ⊢
  omega

/-- The number of counters at which the loop considers a candidate and goes on: the increment of
the last `u32` panics. -/
def expandBudget : Nat := 2 ^ 32 - 1

/-- The loop collects the distinct primes among the candidates until it has thirteen, and panics
when the counters end before. -/
theorem expandSeedLoop_hits (seed : List UInt8) :
    (expandSeedLoop H seed [] 0 : RustM ε (List Nat)) =
      if napqesKeyCount ≤ (hits isPrime (candidate H seed) expandBudget).length then
        .ok ((hits isPrime (candidate H seed) expandBudget).take napqesKeyCount)
      else panics "attempt to add with overflow" := by
  refine @loop_eq_of_collects Nat _ isPrime (candidate H seed) napqesKeyCount _
    (expandSeedLoop H seed) Except.ok _ expandBudget ?_ ?_ ?_ 0 (Nat.zero_le _) (Nat.zero_le _)
  · intro out t hfull
    rw [expandSeedLoop, if_neg hfull]
  · intro out hfew
    rw [expandSeedLoop, if_pos hfew, dif_neg (by decide)]
  · intro out t hfew hlt
    rw [expandSeedLoop, if_pos hfew, dif_pos (by simp only [expandBudget] at hlt; omega)]
    rfl

/-- `expand_seed_to_primes` gives the first thirteen distinct primes among the candidates. -/
theorem expandSeedToPrimes_eq (seed : List UInt8) :
    (expandSeedToPrimes H seed : RustM ε (List Nat)) =
      if napqesKeyCount ≤ (hits primeTest (candidate H seed) expandBudget).length then
        .ok ((hits primeTest (candidate H seed) expandBudget).take napqesKeyCount)
      else panics "attempt to add with overflow" := by
  have hloop := @expandSeedLoop_hits ε H seed
  rw [hits_isPrime (candidate_lt H seed)] at hloop
  rw [expandSeedToPrimes, hloop]

/-- Thirteen distinct primes among the candidates are a key. -/
theorem keyValid_take_hits (seed : List UInt8)
    (h : napqesKeyCount ≤ (hits primeTest (candidate H seed) expandBudget).length) :
    KeyValid ((hits primeTest (candidate H seed) expandBudget).take napqesKeyCount) where
  nonempty := by
    rw [← List.length_pos_iff, List.length_take, Nat.min_eq_left h]
    decide
  length_le := by
    rw [List.length_take, Nat.min_eq_left h]
    decide
  range := by
    intro k hk
    obtain ⟨⟨i, -, rfl⟩, -⟩ := mem_hits.mp (List.mem_of_mem_take hk)
    exact candidate_range H seed i
  prime := by
    intro k hk
    exact primeTest_iff.mp (mem_hits.mp (List.mem_of_mem_take hk)).2
  nodup := (nodup_hits _ _ _).take

/-- The tuple that an expansion returns is a key. -/
theorem validateKey_of_expandSeedToPrimes {seed : List UInt8} {primes : List Nat}
    (h : (expandSeedToPrimes H seed : RustM ε (List Nat)) = .ok primes) :
    validateKey primes = .ok ⟨⟩ := by
  rw [expandSeedToPrimes_eq] at h
  split at h
  case isTrue henough =>
    rw [← Except.ok.inj h]
    exact (validateKey_iff _).mpr (keyValid_take_hits seed henough)
  case isFalse => cases h

/-- If the first thirteen candidates are distinct primes, they are the key. -/
theorem expandSeedLoop_eq_ok {seed : List UInt8} {primes : List Nat}
    (hlen : primes.length = napqesKeyCount)
    (hcandidate : ∀ i (hi : i < primes.length), candidate H seed i = primes[i])
    (hprime : ∀ p ∈ primes, p.Prime) (hnodup : primes.Nodup) (i : Nat) (hi : i ≤ primes.length) :
    (expandSeedLoop H seed (primes.take i) i : RustM ε (List Nat)) = .ok primes := by
  induction hleft : primes.length - i generalizing i with
  | zero =>
      have hall : i = primes.length := Nat.le_antisymm hi (Nat.le_of_sub_eq_zero hleft)
      rw [expandSeedLoop, hall, List.take_length, if_neg (by rw [hlen]; exact Nat.lt_irrefl _)]
  | succ left ih =>
      have hlt : i < primes.length := by omega
      have hraw := hcandidate i hlt
      rw [candidate] at hraw
      have hnew : primes[i] ∉ primes.take i := by
        rw [List.mem_take_iff_getElem]
        intro h
        obtain ⟨j, hj, heq⟩ := h
        have hji : j = i := (List.Nodup.getElem_inj_iff hnodup).mp heq
        omega
      have hisPrime : isPrime primes[i] = true := by
        rw [isPrime_iff (hcandidate i hlt ▸ candidate_lt H seed i)]
        exact hprime _ (List.getElem_mem hlt)
      rw [expandSeedLoop, if_pos (by rw [List.length_take, ← hlen]; omega)]
      simp only [hraw]
      rw [dif_pos (by rw [hlen, napqesKeyCount] at hlt; omega), if_pos ⟨hnew, hisPrime⟩,
        ← List.take_succ_eq_append_getElem hlt]
      exact ih (i + 1) hlt (by omega)

/-- What is encapsulated to a generated key is what its holder decapsulates, if anything. -/
theorem decapsulateV8_encapsulateV8 {H : Hmac} {hkdf : Hkdf} {frodo : Frodo}
    (hfrodo : frodo.Correct) {seed coins : Nat} {ct : List UInt8} {key key' : NapqesKey}
    (henc : encapsulateV8 H hkdf frodo (keygen frodo seed).1 coins = .ok (ct, key))
    (hdec : decapsulateV8 H hkdf frodo ct (keygen frodo seed).2 = .ok key') : key' = key := by
  unfold encapsulateV8 at henc
  split at henc
  case isFalse => cases henc
  case isTrue =>
    obtain ⟨derived, hderived, hout⟩ := bind_eq_ok.mp henc
    cases hout
    unfold decapsulateV8 at hdec
    split at hdec
    case isTrue => cases hdec
    case isFalse =>
      split at hdec
      case isTrue => cases hdec
      case isFalse =>
        rw [keygen, hfrodo.decapsulate_encapsulate seed coins, ← keygen] at hdec
        rw [hderived] at hdec
        exact (Except.ok.inj hdec).symm

/-! ## A small instance -/

/-- The first thirteen primes of the interval. -/
def smallPrimes : List Nat :=
  [1000003, 1000033, 1000037, 1000039, 1000081, 1000099, 1000117, 1000121, 1000133, 1000151,
    1000159, 1000171, 1000183]

theorem keyValid_smallPrimes : KeyValid smallPrimes where
  nonempty := by decide
  length_le := by decide
  range := by decide
  prime := by
    intro p hp
    simp only [smallPrimes, List.mem_cons, List.not_mem_nil, or_false] at hp
    rcases hp with rfl | rfl | rfl | rfl | rfl | rfl | rfl | rfl | rfl | rfl | rfl | rfl | rfl <;>
      norm_num
  nodup := by decide

theorem validateKey_smallPrimes : validateKey smallPrimes = .ok ⟨⟩ :=
  (validateKey_iff _).mpr keyValid_smallPrimes

/-- A counter gives a prime; anything else gives a digest that shows the end of the message and
the start of the key. -/
def smallHmac : Hmac := fun key msg =>
  if msg.length = 4 then .ofList 32 (beBytes 8 (smallPrimes.getD (beNat msg) 0 - minPrime))
  else .ofList 32 (msg.reverse.take 8 ++ key)

/-- The digest shows the start of the key. -/
theorem drop_smallHmac {key msg : List UInt8} (hkey : key.length = 32) (hmsg : 8 ≤ msg.length) :
    (smallHmac key msg).toList.drop 8 = key.take 24 := by
  have hshort : (msg.reverse.take 8).length = 8 := by
    rw [List.length_take, List.length_reverse]
    omega
  rw [smallHmac, if_neg (by omega)]
  show (List.takeD 32 (msg.reverse.take 8 ++ key) 0).drop 8 = _
  rw [List.takeD_eq_take 0 (by rw [List.length_append]; omega), List.take_append, hshort,
    List.take_of_length_le (by omega), List.drop_left' hshort]

theorem candidate_smallHmac (seed : List UInt8) (i : Nat) (hi : i < smallPrimes.length) :
    candidate smallHmac seed i = smallPrimes[i] := by
  have hp := keyValid_smallPrimes.range _ (List.getElem_mem hi)
  have hcounter : beNat (beBytes 4 i) = i :=
    beNat_beBytes_of_lt (Nat.lt_trans hi (by decide))
  have hget : smallPrimes.getD i 0 = smallPrimes[i] := by
    rw [List.getD_eq_getElem?_getD, List.getElem?_eq_getElem hi, Option.getD_some]
  rw [candidate, smallHmac, if_pos (length_beBytes 4 i), hcounter, hget]
  generalize smallPrimes[i] = p at hp
  have hfield : u64FromBe8 (FixedBytes.ofList 32 (beBytes 8 (p - minPrime))).toList =
      p - minPrime := by
    show beNat ((List.takeD 32 (beBytes 8 (p - minPrime)) 0).take 8) = _
    rw [show List.takeD 32 (beBytes 8 (p - minPrime)) 0 =
      beBytes 8 (p - minPrime) ++ List.replicate 24 0 from rfl,
      List.take_left' (length_beBytes ..)]
    exact beNat_beBytes_of_lt (Nat.lt_of_le_of_lt (Nat.sub_le _ _) (by omega))
  rw [hfield, minPrime, maxPrime, Nat.mod_eq_of_lt (by omega)]
  omega

/-- HKDF at this HMAC: extract with the salt, expand with `info` by one block. -/
def smallHkdf : Hkdf := fun salt ikm info => smallHmac (smallHmac salt ikm) (info ++ [1])

/-- The key that the instance derives from a secret. -/
def smallKey (sharedSecret : List UInt8) : NapqesKey :=
  ⟨smallPrimes, deriveV8Sk smallHkdf sharedSecret, validateKey_smallPrimes⟩

theorem deriveV8Key_smallHmac (sharedSecret : List UInt8) :
    deriveV8Key smallHmac smallHkdf sharedSecret = .ok (smallKey sharedSecret) := by
  have hprimes : (deriveNapqesKey smallHmac smallHkdf sharedSecret : RustM String (List Nat)) =
      .ok smallPrimes :=
    expandSeedLoop_eq_ok rfl (candidate_smallHmac _) keyValid_smallPrimes.prime
      keyValid_smallPrimes.nodup 0 (Nat.zero_le _)
  rw [deriveV8Key, hprimes, ok_bind]
  exact NapqesKey.new_eq_ok validateKey_smallPrimes _

/-- The keys are one byte, and the secret is the public key and the coins. -/
def smallFrodo : Frodo where
  keypair seed := ([UInt8.ofNat seed], [UInt8.ofNat seed])
  encapsulate pk coins := (pk ++ [UInt8.ofNat coins], [UInt8.ofNat coins])
  decapsulate ct sk := sk ++ ct
  publicKeyFromBytes _ := true
  ciphertextFromBytes _ := true
  secretKeyFromBytes _ := true

theorem smallFrodo_correct : smallFrodo.Correct := ⟨fun _ _ => rfl⟩

theorem keygen_small (seed : Nat) :
    keygen smallFrodo seed = ([UInt8.ofNat seed], [UInt8.ofNat seed]) := rfl

theorem encapsulateV8_small (pk : List UInt8) (coins : Nat) :
    encapsulateV8 smallHmac smallHkdf smallFrodo pk coins =
      .ok ([UInt8.ofNat coins], smallKey (pk ++ [UInt8.ofNat coins])) := by
  rw [encapsulateV8, if_pos (by simp [smallFrodo])]
  simp only [smallFrodo, deriveV8Key_smallHmac, ok_bind]
  rfl

theorem decapsulateV8_small (ct sk : List UInt8) :
    decapsulateV8 smallHmac smallHkdf smallFrodo ct sk = .ok (smallKey (sk ++ ct)) := by
  rw [decapsulateV8, if_neg (by simp [smallFrodo]), if_neg (by simp [smallFrodo])]
  exact deriveV8Key_smallHmac _

theorem smallKey_ne : smallKey [1, 2] ≠ smallKey [3, 4] := by
  intro h
  have hsk : (smallKey [1, 2]).sk.toList = (smallKey [3, 4]).sk.toList := by rw [h]
  revert hsk
  decide

end Napqes.Rust
