import Napqes.Python.Kem
import Napqes.Rust.Hybrid

/-!
# Key establishment of the Python port (`napqes_kem.py:111-218, 259-404`)

FrodoKEM comes from liboqs, HKDF and X25519 from the package cryptography; they stand as the
parameters that stand for the crates of the Rust port, with the randomness they draw as an argument.
The methods of the package that may raise are parameters of their own.
-/

namespace Napqes.Python

open Rust (Frodo Hkdf X25519 x25519KeySize)

def napqesKeyCount : Nat := 13
def frodoPublicKeySize : Nat := 9616
def frodoSecretKeySize : Nat := 19888
def frodoCiphertextSize : Nat := 9720
def hybridPublicKeySize : Nat := frodoPublicKeySize + x25519KeySize
def hybridSecretKeySize : Nat := frodoSecretKeySize + x25519KeySize + frodoPublicKeySize
def hybridCiphertextSize : Nat := frodoCiphertextSize + x25519KeySize

/-- `_HKDF_SALT` (`napqes_kem.py:81`). -/
def hkdfSalt : List UInt8 := Str.asBytes "NAPQES-v6-FrodoKEM-640-prime-key".toList

/-- `_HKDF_INFO` (`napqes_kem.py:82`). -/
def hkdfInfo : List UInt8 := Str.asBytes "v1".toList

/-- `_HKDF_INFO_V8_SK` (`napqes_kem.py:197`). -/
def hkdfInfoV8Sk : List UInt8 := Str.asBytes "v1-sk-v8".toList

/-- `_HYBRID_HKDF_SALT` (`napqes_kem.py:107`). -/
def hybridHkdfSalt : List UInt8 :=
  Str.asBytes "NAPQES-hybrid-FrodoKEM640AES-X25519-prime-key".toList

/-- `_HYBRID_HKDF_INFO_PREFIX` (`napqes_kem.py:108`). -/
def hybridHkdfInfoPrefix : List UInt8 := Str.asBytes "v2".toList

/-- The methods of `X25519PublicKey` and `X25519PrivateKey` that may raise. -/
structure X25519Package (x25519 : X25519) where
  fromPublicBytes : List UInt8 → PyM (FixedBytes x25519KeySize)
  fromPrivateBytes : List UInt8 → PyM x25519.Secret
  exchange : x25519.Secret → FixedBytes x25519KeySize → PyM (List UInt8)

section
variable (H : Hmac) (hkdf : Hkdf) (mathSqrt : Nat → Nat)

/-- `_derive_napqes_key` (`napqes_kem.py:163-192`) with its default count. -/
def deriveNapqesKey (sharedSecret : List UInt8) : PyM (List Nat) :=
  let seed := hkdf hkdfSalt sharedSecret hkdfInfo
  expandSeedToPrimes H mathSqrt seed napqesKeyCount

/-- `derive_v8_sk` (`napqes_kem.py:200-212`). -/
def deriveV8Sk (sharedSecret : List UInt8) : List UInt8 :=
  (hkdf hkdfSalt sharedSecret hkdfInfoV8Sk).toList

/-- `derive_v8_key` (`napqes_kem.py:215-217`). -/
def deriveV8Key (sharedSecret : List UInt8) : PyM (List Nat × List UInt8) := do
  return (← deriveNapqesKey H hkdf mathSqrt sharedSecret, deriveV8Sk hkdf sharedSecret)

/-- `_hybrid_transcript` (`napqes_kem.py:259-271`). -/
def hybridTranscript (pkPq ctPq pkEcStatic pkEcEphemeral : List UInt8) : PyM (List UInt8) := do
  let parts ← [pkPq, ctPq, pkEcStatic, pkEcEphemeral].mapM fun p => do
    return (← toBytes 4 p.length) ++ p
  return hybridHkdfInfoPrefix ++ parts.flatten

/-- `_derive_napqes_key_hybrid` (`napqes_kem.py:274-299`) with its default count. -/
def deriveNapqesKeyHybrid (ssPq ssEc transcript : List UInt8) : PyM (List Nat) :=
  let got := ssEc.length
  if ssEc.length ≠ x25519KeySize then
    valueError s!"X25519 shared secret must be {x25519KeySize} bytes, got {got}."
  else if ¬ ssEc.any (· != 0) then
    valueError ("X25519 shared secret is all-zero: the peer supplied a small-order point, so " ++
      "the classical half of the hybrid would contribute no entropy.")
  else
    let seed := hkdf hybridHkdfSalt (ssPq ++ ssEc) transcript
    expandSeedToPrimes H mathSqrt seed napqesKeyCount

variable (frodo : Frodo) (x25519 : X25519)

/-- `keygen_hybrid` (`napqes_kem.py:302-324`). -/
def keygenHybrid (seed rng : Nat) : List UInt8 × List UInt8 :=
  let (pkPq, skPq) := frodo.keypair seed
  let skEcObj := x25519.randomFromRng rng
  let skEc := (x25519.toBytes skEcObj).toList
  let pkEc := (x25519.publicKey skEcObj).toList
  (pkPq ++ pkEc, skPq ++ skEc ++ pkPq)

variable (package : X25519Package x25519)

/-- `encapsulate_hybrid` (`napqes_kem.py:327-357`). -/
def encapsulateHybrid (publicKey : List UInt8) (coins rng : Nat) :
    PyM (List UInt8 × List Nat) :=
  let got := publicKey.length
  if publicKey.length ≠ hybridPublicKeySize then
    valueError s!"Hybrid public key must be {hybridPublicKeySize} bytes, got {got}."
  else do
    let pkPq := publicKey.take frodoPublicKeySize
    let pkEcStatic := publicKey.drop frodoPublicKeySize
    let (ssPq, ctPq) := frodo.encapsulate pkPq coins
    let eph := x25519.randomFromRng rng
    let pkEcEphemeral := (x25519.publicKey eph).toList
    let ssEc ← package.exchange eph (← package.fromPublicBytes pkEcStatic)
    let transcript ← hybridTranscript pkPq ctPq pkEcStatic pkEcEphemeral
    let napqesKey ← deriveNapqesKeyHybrid H hkdf mathSqrt ssPq ssEc transcript
    return (ctPq ++ pkEcEphemeral, napqesKey)

/-- `decapsulate_hybrid` (`napqes_kem.py:360-404`). -/
def decapsulateHybrid (ciphertext secretKey : List UInt8) : PyM (List Nat) :=
  let gotCt := ciphertext.length
  let gotSk := secretKey.length
  if ciphertext.length ≠ hybridCiphertextSize then
    valueError s!"Hybrid ciphertext must be {hybridCiphertextSize} bytes, got {gotCt}."
  else if secretKey.length ≠ hybridSecretKeySize then
    valueError s!"Hybrid secret key must be {hybridSecretKeySize} bytes, got {gotSk}."
  else do
    let ctPq := ciphertext.take frodoCiphertextSize
    let pkEcEphemeral := ciphertext.drop frodoCiphertextSize
    let skPq := secretKey.take frodoSecretKeySize
    let skEc := (secretKey.drop frodoSecretKeySize).take x25519KeySize
    let pkPq := secretKey.drop (frodoSecretKeySize + x25519KeySize)
    let ssPq := frodo.decapsulate ctPq skPq
    let skEcObj ← package.fromPrivateBytes skEc
    let pkEcStatic := (x25519.publicKey skEcObj).toList
    let ssEc ← package.exchange skEcObj (← package.fromPublicBytes pkEcEphemeral)
    let transcript ← hybridTranscript pkPq ctPq pkEcStatic pkEcEphemeral
    deriveNapqesKeyHybrid H hkdf mathSqrt ssPq ssEc transcript

end

end Napqes.Python
