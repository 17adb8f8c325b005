import Napqes.Rust.Derive
import Napqes.Rust.Key

/-!
# Session keys from FrodoKEM (`rust/src/kem.rs:33-177`)

The KEM is the crate `pqcrypto_frodo` and stands as a parameter: key generation and encapsulation
take the randomness they draw as an argument, the three byte encodings are checked by predicates.
HKDF is the crate `hkdf` and a parameter too. The derivation from the seed is the source's own.
-/

namespace Napqes.Rust

variable {ε : Type}

def napqesKeyCount : Nat := 13
def minPrime : Nat := 1000000
def maxPrime : Nat := 15000000

/-- `HKDF_SALT` (`kem.rs:37`). -/
def hkdfSalt : List UInt8 := Str.asBytes "NAPQES-v6-FrodoKEM-640-prime-key".toList

/-- `HKDF_INFO` (`kem.rs:38`). -/
def hkdfInfo : List UInt8 := Str.asBytes "v1".toList

/-- `HKDF_INFO_V8_SK` (`kem.rs:43`). -/
def hkdfInfoV8Sk : List UInt8 := Str.asBytes "v1-sk-v8".toList

/-- FrodoKEM-640-AES. -/
structure Frodo where
  /-- `keypair`: the public and the secret key. -/
  keypair : Nat → List UInt8 × List UInt8
  /-- `encapsulate`: the shared secret and the ciphertext. -/
  encapsulate : List UInt8 → Nat → List UInt8 × List UInt8
  decapsulate : List UInt8 → List UInt8 → List UInt8
  publicKeyFromBytes : List UInt8 → Bool
  ciphertextFromBytes : List UInt8 → Bool
  secretKeyFromBytes : List UInt8 → Bool

/-- The correctness of the KEM: the holder of the secret key finds the encapsulated secret. -/
structure Frodo.Correct (frodo : Frodo) : Prop where
  decapsulate_encapsulate : ∀ seed coins,
    frodo.decapsulate (frodo.encapsulate (frodo.keypair seed).1 coins).2 (frodo.keypair seed).2 =
      (frodo.encapsulate (frodo.keypair seed).1 coins).1

/-- HKDF-SHA256 with an output of 32 bytes: the salt, the input key material and `info`. -/
abbrev Hkdf := List UInt8 → List UInt8 → List UInt8 → FixedBytes 32

section
variable (H : Hmac)

/-- The loop of `expand_seed_to_primes` (`kem.rs:161-175`); `counter` is a `u32` and its
increment panics on overflow. -/
def expandSeedLoop (seed : List UInt8) (primes : List Nat) (counter : Nat) : RustM ε (List Nat) :=
  if primes.length < napqesKeyCount then
    let digest := H seed (beBytes 4 counter)
    let raw := u64FromBe8 digest.toList % (maxPrime - minPrime) + minPrime
    if _h : counter + 1 < 2 ^ 32 then
      if raw ∉ primes ∧ isPrime raw = true then expandSeedLoop seed (primes ++ [raw]) (counter + 1)
      else expandSeedLoop seed primes (counter + 1)
    else panics "attempt to add with overflow"
  else .ok primes
termination_by 2 ^ 32 - counter

/-- `expand_seed_to_primes` (`kem.rs:155-177`); `seen` holds the elements of `primes`. -/
def expandSeedToPrimes (seed : List UInt8) : RustM ε (List Nat) := expandSeedLoop H seed [] 0

variable (hkdf : Hkdf)

/-- `derive_napqes_key` (`kem.rs:137-143`). -/
def deriveNapqesKey (sharedSecret : List UInt8) : RustM ε (List Nat) :=
  expandSeedToPrimes H (hkdf hkdfSalt sharedSecret hkdfInfo)

/-- `derive_v8_sk` (`kem.rs:92-97`). -/
def deriveV8Sk (sharedSecret : List UInt8) : FixedBytes skSize :=
  hkdf hkdfSalt sharedSecret hkdfInfoV8Sk

/-- `derive_v8_key` (`kem.rs:101-103`). -/
def deriveV8Key (sharedSecret : List UInt8) : RustM String NapqesKey := do
  NapqesKey.new (← deriveNapqesKey H hkdf sharedSecret) (deriveV8Sk hkdf sharedSecret)

variable (frodo : Frodo)

/-- `keygen` (`kem.rs:49-52`). -/
def keygen (seed : Nat) : List UInt8 × List UInt8 := frodo.keypair seed

/-- `encapsulate_v8` (`kem.rs:106-113`). -/
def encapsulateV8 (publicKey : List UInt8) (coins : Nat) :
    RustM String (List UInt8 × NapqesKey) :=
  if frodo.publicKeyFromBytes publicKey then do
    let (ss, ct) := frodo.encapsulate publicKey coins
    return (ct, ← deriveV8Key H hkdf ss)
  else err "invalid FrodoKEM-640-AES public key"

/-- `decapsulate_v8` (`kem.rs:116-125`). -/
def decapsulateV8 (ciphertext secretKey : List UInt8) : RustM String NapqesKey :=
  if ¬ frodo.ciphertextFromBytes ciphertext then err "invalid FrodoKEM-640-AES ciphertext"
  else if ¬ frodo.secretKeyFromBytes secretKey then err "invalid FrodoKEM-640-AES secret key"
  else deriveV8Key H hkdf (frodo.decapsulate ciphertext secretKey)

end

end Napqes.Rust
