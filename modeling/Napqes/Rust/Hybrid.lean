import Napqes.Rust.Kem

/-!
# Hybrid key establishment (`rust/src/kem.rs:179-381`)

FrodoKEM-640-AES beside an ephemeral-static X25519 exchange; both secrets go into one HKDF whose
`info` lists the public values of the exchange. X25519 is the crate `x25519_dalek` and stands as a
parameter like the KEM; what `OsRng` hands to it is an argument. The four blobs are cut and joined
by the offsets of the source, and every cut of a wrong length panics.
-/

namespace Napqes.Rust

variable {ε : Type}

def frodoPublicKeySize : Nat := 9616
def frodoSecretKeySize : Nat := 19888
def frodoCiphertextSize : Nat := 9720
def x25519KeySize : Nat := 32
def hybridPublicKeySize : Nat := frodoPublicKeySize + x25519KeySize
def hybridSecretKeySize : Nat := frodoSecretKeySize + x25519KeySize + frodoPublicKeySize
def hybridCiphertextSize : Nat := frodoCiphertextSize + x25519KeySize

/-- `HYBRID_HKDF_SALT` (`kem.rs:210`). -/
def hybridHkdfSalt : List UInt8 :=
  Str.asBytes "NAPQES-hybrid-FrodoKEM640AES-X25519-prime-key".toList

/-- `HYBRID_HKDF_INFO_PREFIX` (`kem.rs:211`). -/
def hybridHkdfInfoPrefix : List UInt8 := Str.asBytes "v2".toList

/-- X25519 with static secrets. -/
structure X25519 where
  /-- `StaticSecret`. -/
  Secret : Type
  /-- `StaticSecret::random_from_rng`. -/
  randomFromRng : Nat → Secret
  /-- `StaticSecret::to_bytes`. -/
  toBytes : Secret → FixedBytes x25519KeySize
  /-- `StaticSecret::from`. -/
  ofBytes : FixedBytes x25519KeySize → Secret
  /-- `PublicKey::from`, as bytes. -/
  publicKey : Secret → FixedBytes x25519KeySize
  diffieHellman : Secret → FixedBytes x25519KeySize → FixedBytes x25519KeySize

/-- `copy_from_slice` into an array of `n` bytes. -/
def copyFromSlice (n : Nat) (bytes : List UInt8) : RustM ε (FixedBytes n) :=
  if h : bytes.length = n then .ok ⟨bytes, h⟩
  else panics "source slice length does not match destination slice length"

/-- `hybrid_transcript` (`kem.rs:215-227`): `(part.len() as u32).to_be_bytes()` before each part. -/
def hybridTranscript (pkPq ctPq pkEcStatic pkEcEphemeral : List UInt8) : List UInt8 :=
  hybridHkdfInfoPrefix ++
    [pkPq, ctPq, pkEcStatic, pkEcEphemeral].flatMap fun part => beBytes 4 part.length ++ part

section
variable (H : Hmac) (hkdf : Hkdf)

/-- `derive_napqes_key_hybrid` (`kem.rs:236-263`). -/
def deriveNapqesKeyHybrid (ssPq ssEc transcript : List UInt8) : RustM String (List Nat) :=
  let got := ssEc.length
  if ssEc.length ≠ x25519KeySize then
    err s!"X25519 shared secret must be {x25519KeySize} bytes, got {got}"
  else if ssEc.all (· == 0) then
    err ("X25519 shared secret is all-zero: the peer supplied a small-order point, so the " ++
      "classical half of the hybrid would contribute no entropy")
  else expandSeedToPrimes H (hkdf hybridHkdfSalt (ssPq ++ ssEc) transcript)

variable (frodo : Frodo) (x25519 : X25519)

/-- `keygen_hybrid` (`kem.rs:270-285`). -/
def keygenHybrid (seed rng : Nat) : List UInt8 × List UInt8 :=
  let (pkPq, skPq) := frodo.keypair seed
  let skEc := x25519.randomFromRng rng
  let pkEc := x25519.publicKey skEc
  (pkPq ++ pkEc.toList, skPq ++ (x25519.toBytes skEc).toList ++ pkPq)

/-- `encapsulate_hybrid` (`kem.rs:295-330`). -/
def encapsulateHybrid (publicKey : List UInt8) (coins rng : Nat) :
    RustM String (List UInt8 × List Nat) :=
  let got := publicKey.length
  if publicKey.length ≠ hybridPublicKeySize then
    err s!"Hybrid public key must be {hybridPublicKeySize} bytes, got {got}"
  else do
    let pkPqBytes ← slice publicKey 0 frodoPublicKeySize
    let pkEcStaticBytes ← slice publicKey frodoPublicKeySize publicKey.length
    if ¬ frodo.publicKeyFromBytes pkPqBytes then err "invalid FrodoKEM-640-AES public key"
    else
      let (ssPq, ctPq) := frodo.encapsulate pkPqBytes coins
      let pkEcStatic ← copyFromSlice x25519KeySize pkEcStaticBytes
      let eph := x25519.randomFromRng rng
      let pkEcEphemeral := x25519.publicKey eph
      let ssEc := x25519.diffieHellman eph pkEcStatic
      let transcript := hybridTranscript pkPqBytes ctPq pkEcStaticBytes pkEcEphemeral
      let key ← deriveNapqesKeyHybrid H hkdf ssPq ssEc transcript
      return (ctPq ++ pkEcEphemeral.toList, key)

/-- `decapsulate_hybrid` (`kem.rs:337-381`). -/
def decapsulateHybrid (ciphertext secretKey : List UInt8) : RustM String (List Nat) :=
  let gotCt := ciphertext.length
  let gotSk := secretKey.length
  if ciphertext.length ≠ hybridCiphertextSize then
    err s!"Hybrid ciphertext must be {hybridCiphertextSize} bytes, got {gotCt}"
  else if secretKey.length ≠ hybridSecretKeySize then
    err s!"Hybrid secret key must be {hybridSecretKeySize} bytes, got {gotSk}"
  else do
    let ctPqBytes ← slice ciphertext 0 frodoCiphertextSize
    let pkEcEphemeralBytes ← slice ciphertext frodoCiphertextSize ciphertext.length
    let skPqBytes ← slice secretKey 0 frodoSecretKeySize
    let skEcBytes ← slice secretKey frodoSecretKeySize (frodoSecretKeySize + x25519KeySize)
    let pkPqBytes ← slice secretKey (frodoSecretKeySize + x25519KeySize) secretKey.length
    if ¬ frodo.ciphertextFromBytes ctPqBytes then err "invalid FrodoKEM-640-AES ciphertext"
    else if ¬ frodo.secretKeyFromBytes skPqBytes then err "invalid FrodoKEM-640-AES secret key"
    else
      let ssPq := frodo.decapsulate ctPqBytes skPqBytes
      let skEc := x25519.ofBytes (← copyFromSlice x25519KeySize skEcBytes)
      let pkEcStatic := x25519.publicKey skEc
      let pkEcEphemeral ← copyFromSlice x25519KeySize pkEcEphemeralBytes
      let ssEc := x25519.diffieHellman skEc pkEcEphemeral
      let transcript := hybridTranscript pkPqBytes ctPqBytes pkEcStatic pkEcEphemeralBytes
      deriveNapqesKeyHybrid H hkdf ssPq ssEc transcript

end

end Napqes.Rust
