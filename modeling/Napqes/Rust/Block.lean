import Napqes.Rust.Tokens

/-!
# v8 block encryption and decryption (`rust/src/lib.rs:1694-1862`, `rust/src/key.rs:177-211`)

Key zeroization and the `fips_gate` power-on check have no effect on the returned values and
are not modelled.
-/

namespace Napqes.Rust

/-- `ct_eq_bytes` (`lib.rs:1062-1065`): operands of different lengths are unequal. -/
def ctEqBytes (a b : List UInt8) : Bool := a == b

/-- How a decoder checks a received tag: key, tag input, received tag. The code recomputes
the tag (`hmacVerify`); statements about an ideal MAC put another check in its place. -/
abbrev TagCheck := List UInt8 → List UInt8 → List UInt8 → Bool

/-- The check the code makes: recompute the tag and compare. -/
def hmacVerify (H : Hmac) : TagCheck := fun key input recvTag =>
  ctEqBytes recvTag (H key input)

section
variable (H : Hmac)

/-- `encrypt_bytes_v8_core_inner` (`lib.rs:1752-1779`). -/
def encryptBytesV8CoreInner (skFmt : FixedBytes 32) (message : Str) (primes : List Nat)
    (aad : List UInt8) (padProfile : PadProfile) : RustM String (List UInt8) := do
  let nonce := syntheticNonce H skFmt aad message.asBytes
  let codepoints := message.codepoints
  let len := codepoints.length
  if len > maxPlaintextCodepoints then
    err (s!"Message too long: {len} codepoints exceeds " ++
      s!"MAX_PLAINTEXT_CODEPOINTS ({maxPlaintextCodepoints})")
  else
    let blockSize ← padProfile.blockSize codepoints.length
    let padded ← padToBlock H codepoints skFmt nonce blockSize
    let cypher ← emitTokensV8 H padded primes skFmt nonce
    let blob := fixedEncodeTokens cypher
    let ks ← varintKeystream H skFmt nonce blob.length
    let masked := xorBytes blob ks
    let payload := nonce.toList ++ masked
    let tag := computeAuthTag H skFmt aad payload
    return payload ++ tag.toList

/-- `encrypt_bytes_v8_core` (`lib.rs:1740-1750`). -/
def encryptBytesV8Core (message : Str) (primes : List Nat) (sk : FixedBytes skSize)
    (aad : List UInt8) (padProfile : PadProfile) : RustM String (List UInt8) :=
  let skFmt := deriveFormatSubkey H sk formatBlockV8
  encryptBytesV8CoreInner H skFmt message primes aad padProfile

/-- `encrypt_bytes_v8_with_profile` (`lib.rs:1722-1734`). -/
def encryptBytesV8WithProfile (message : Str) (primes : List Nat) (sk : FixedBytes skSize)
    (aad : List UInt8) (padProfile : PadProfile) : RustM String (List UInt8) := do
  validateKey primes
  encryptBytesV8Core H message primes sk aad padProfile

/-- `encrypt_bytes_v8` (`lib.rs:1694-1702`). -/
def encryptBytesV8 (message : Str) (primes : List Nat) (sk : FixedBytes skSize)
    (aad : List UInt8) : RustM String (List UInt8) :=
  encryptBytesV8WithProfile H message primes sk aad .bucket

/-- `encrypt_bytes_v8_key` (`key.rs:177-186`). -/
def encryptBytesV8Key (message : Str) (key : NapqesKey) (aad : List UInt8) :
    RustM String (List UInt8) :=
  encryptBytesV8Core H message key.primes key.sk aad .bucket

/-- `encrypt_bytes_v8_with_profile_key` (`key.rs:201-211`). -/
def encryptBytesV8WithProfileKey (message : Str) (key : NapqesKey) (aad : List UInt8)
    (padProfile : PadProfile) : RustM String (List UInt8) :=
  encryptBytesV8Core H message key.primes key.sk aad padProfile

/-- `into_iter().map(char::from_u32 ...).collect::<Result<String, String>>()`; the first value
that is not a scalar is reported with `message`. -/
def collectChars (message : Nat → String) : List Nat → RustM String Str
  | [] => .ok []
  | c :: cs => do
      let ch ← match charFromU32 c with
        | some ch => pure ch
        | none => err (message c)
      let rest ← collectChars message cs
      return ch :: rest

/-- The final `collect` of `decrypt_bytes_v8_core_inner` (`lib.rs:1854-1860`). -/
def collectString : List Nat → RustM String Str :=
  collectChars fun c => s!"Malformed v8 plaintext: {c} is not a Unicode scalar value."

variable (verify : TagCheck)

/-- `decrypt_bytes_v8_core_inner` (`lib.rs:1833-1862`). A ciphertext too short to be split
panics; the only caller has checked the length. -/
def decryptBytesV8CoreInner (skFmt : FixedBytes 32) (ciphertext : List UInt8)
    (primes : List Nat) (aad : List UInt8) : RustM String Str := do
  let split := ciphertext.length - tagSize
  let payload := ciphertext.take split
  let recvTag := ciphertext.drop split
  if ciphertext.length < nonceSize + tagSize then panics "mid > len"
  else
    let nonce := payload.take nonceSize
    let masked := payload.drop nonceSize
    if verify skFmt (authTagInput aad nonce masked) recvTag then
      let ks ← varintKeystream H skFmt nonce masked.length
      let blob := xorBytes masked ks
      let tokens ← mapErr (fun e => s!"varint decode error: {e}") (fixedDecodeTokens blob)
      let codepoints ← decryptCoreV8 H nonce tokens primes skFmt
      collectString codepoints
    else err "Authentication failed: invalid HMAC tag."

/-- `decrypt_bytes_v8_core` (`lib.rs:1808-1831`). -/
def decryptBytesV8Core (ciphertext : List UInt8) (primes : List Nat) (sk : FixedBytes skSize)
    (aad : List UInt8) : RustM String Str :=
  let len := ciphertext.length
  let header := nonceSize + tagSize
  if ciphertext.length < nonceSize + tagSize then
    err s!"Ciphertext too short: {len} bytes; header+tag require at least {header}."
  else
    let blobLen := ciphertext.length - nonceSize - tagSize
    if blobLen % (tokenWidth * (maxNoiseRun + 1)) ≠ 0 then
      err ("Malformed v8 ciphertext: token count is not a multiple of the padding ceiling; " ++
        "expected exactly real_token_count * (MAX_NOISE_RUN + 1) tokens.")
    else
      let skFmt := deriveFormatSubkey H sk formatBlockV8
      decryptBytesV8CoreInner H verify skFmt ciphertext primes aad

end

/-- `decrypt_bytes_v8` (`lib.rs:1793-1804`). -/
def decryptBytesV8 (H : Hmac) (ciphertext : List UInt8) (primes : List Nat)
    (sk : FixedBytes skSize) (aad : List UInt8) : RustM String Str := do
  validateKey primes
  decryptBytesV8Core H (hmacVerify H) ciphertext primes sk aad

/-- `decrypt_bytes_v8_key` (`key.rs:189-198`). -/
def decryptBytesV8Key (H : Hmac) (verify : TagCheck) (ciphertext : List UInt8)
    (key : NapqesKey) (aad : List UInt8) : RustM String Str :=
  decryptBytesV8Core H verify ciphertext key.primes key.sk aad

end Napqes.Rust
