import Napqes.Rust.Block

/-!
# v7 block encryption and decryption (`rust/src/lib.rs:88-100, 309-316, 706-937, 1115-1480`)

The legacy format is keyed by the serialised prime tuple. Its emission loop has no cap on noise
runs, only a guard that gives up, and its decoder classifies every position by itself. The noise
probability is a floating-point number: `noise kb nonce ct_pos` stands for `is_noise_pos` with
the probability that `derive_noise_p(kb, nonce)` returns. What `generate_nonce_with_crng_check`
returns is an argument of the encryptors.
-/

namespace Napqes.Rust

variable {ε : Type}

/-- The noise positions of an HMAC key and a nonce. -/
abbrev Noise := List UInt8 → List UInt8 → Nat → Bool

/-- `AAD_LEN_WIDTH_V7` (`lib.rs:88`). -/
def aadLenWidthV7 : Nat := 4

/-- `V7_NOISE_RUN_GUARD` (`lib.rs:1156`). -/
def v7NoiseRunGuard : Nat := 4096

/-- `check_v7_aad_len` (`lib.rs:92-100`). -/
def checkV7AadLen (aadLen : Nat) : RustM String PUnit :=
  if aadLen > 2 ^ 32 - 1 then err s!"AAD of {aadLen} bytes exceeds the v7 4-byte length prefix."
  else pure ⟨⟩

/-- `key_bytes` (`lib.rs:309-316`): the low five bytes of each element. -/
def keyBytes (key : List Nat) : List UInt8 := key.flatMap fun k => (beBytes 8 k).drop 3

/-- `be_len_prefix` (`lib.rs:357-368`) at the v7 width, where a longer length panics. -/
def beLenPrefixV7 (n : Nat) : RustM ε (List UInt8) :=
  let cap := 2 ^ (8 * aadLenWidthV7)
  if n < cap then .ok (beBytes aadLenWidthV7 n)
  else panics (s!"be_len_prefix: length {n} exceeds {aadLenWidthV7}-byte prefix capacity " ++
    s!"{cap} (CVF-28)")

/-! ## Key policy of the decryptors -/

/-- The loop of `validate_key_v7_decrypt` (`lib.rs:903-916`); `seen` are the elements before
index `i`. -/
def checkKeyV7 (seen : List Nat) (i : Nat) : List Nat → RustM String PUnit
  | [] => pure ⟨⟩
  | k :: key =>
      if ¬ (2 ≤ k ∧ k ≤ maxSerialisableKeyPrime) then
        err s!"Key element at index {i} ({k}) is outside [2, {maxSerialisableKeyPrime}]."
      else if seen.contains k then
        err (s!"Key element at index {i} duplicates an earlier element; " ++
          "all elements must be distinct.")
      else checkKeyV7 (seen ++ [k]) (i + 1) key

/-- `validate_key_v7_decrypt` (`lib.rs:892-918`). -/
def validateKeyV7Decrypt (key : List Nat) : RustM String PUnit :=
  if key.isEmpty then err "Key must be a non-empty list of primes."
  else if key.length > maxKeyElements then
    let count := key.length
    err s!"Key has {count} elements, exceeding MAX_KEY_ELEMENTS ({maxKeyElements})."
  else checkKeyV7 [] 0 key

section
variable (H : Hmac) (noise : Noise)

/-- `pad_message` (`lib.rs:706-712`). -/
def padMessage (msg : List Nat) (kb nonce : List UInt8) : RustM ε (List Nat) :=
  if msg.length ≤ maxPlaintextCodepoints then
    padToBlock H msg kb nonce (bucketBlockSize msg.length)
  else panics "Message too long for 2-codepoint length prefix"

/-- `compute_auth_tag` (`lib.rs:565-575`) at the v7 width. -/
def computeAuthTagV7 (kb aad payload : List UInt8) : RustM ε (FixedBytes tagSize) := do
  let aadLen ← beLenPrefixV7 aad.length
  return H kb (0x03 :: (payload.take nonceSize ++ (aadLen ++ (aad ++ payload.drop nonceSize))))

/-! ## Tokens -/

/-- The `loop` of `emit_tokens_v7` (`lib.rs:1127-1151`): tokens for one codepoint. -/
def emitCodepointV7 (key : List Nat) (kb nonce : List UInt8) (c realIdx : Nat)
    (run ctPos : Nat) (cypher : List Nat) : RustM String (List Nat × Nat) := do
  let k ← keyAt key realIdx
  if noise kb nonce ctPos then
    let token ← noiseToken H kb nonce ctPos k
    if _h : run + 1 > v7NoiseRunGuard then
      err (s!"v7 emission aborted: more than {v7NoiseRunGuard} consecutive noise positions " ++
        "(CVF-V5-4)")
    else
      emitCodepointV7 key kb nonce c realIdx (run + 1) (ctPos + 1) (cypher ++ [token])
  else
    let addend ← deriveAddend H kb nonce realIdx k
    let token ← u64 (c * k + addend)
    return (cypher ++ [token], ctPos + 1)
termination_by v7NoiseRunGuard - run

/-- The `for &c in padded` loop of `emit_tokens_v7` (`lib.rs:1125-1152`). -/
def emitCodepointsV7 (key : List Nat) (kb nonce : List UInt8) :
    List Nat → Nat → Nat → List Nat → RustM String (List Nat)
  | [], _, _, cypher => return cypher
  | c :: padded, realIdx, ctPos, cypher => do
      let (cypher, ctPos) ← emitCodepointV7 H noise key kb nonce c realIdx 0 ctPos cypher
      emitCodepointsV7 key kb nonce padded (realIdx + 1) ctPos cypher

/-- `emit_tokens_v7` (`lib.rs:1115-1154`). -/
def emitTokensV7 (padded : List Nat) (kb nonce : List UInt8) (key : List Nat) :
    RustM String (List Nat) :=
  emitCodepointsV7 H noise key kb nonce padded 0 0 []

/-- The loop of `decrypt_core` (`lib.rs:858-886`). -/
def decryptTokensV7 (nonce : List UInt8) (key : List Nat) (kb : List UInt8) :
    List Nat → Nat → Nat → List Nat → RustM String (List Nat)
  | [], _, _, padded => return padded
  | token :: cypher, ctPos, realIdx, padded =>
      if ¬ noise kb nonce ctPos then do
        let k ← keyAt key realIdx
        let addend ← deriveAddend H kb nonce realIdx k
        if token < addend ∨ (token - addend) % k ≠ 0 then
          err (s!"Malformed v7 ciphertext: token at position {ctPos} is not of the form " ++
            s!"codepoint * k + addend for key element {k}.")
        else
          let cp := (token - addend) / k
          if IsScalar cp then
            decryptTokensV7 nonce key kb cypher (ctPos + 1) (realIdx + 1) (padded ++ [cp])
          else
            err (s!"Malformed v7 ciphertext: recovered value {cp} at position {ctPos} is not " ++
              "a Unicode scalar value.")
      else decryptTokensV7 nonce key kb cypher (ctPos + 1) realIdx padded

/-- `decrypt_core` (`lib.rs:847-888`). -/
def decryptCore (nonce : List UInt8) (cypher key : List Nat) (kb : List UInt8) :
    RustM String (List Nat) := do
  unpadMessage (← decryptTokensV7 H noise nonce key kb cypher 0 0 [])

/-! ## Token-level functions -/

/-- `encrypt` (`lib.rs:815-840`). -/
def encrypt (message key : List Nat) (generateNonce : RustM String (FixedBytes nonceSize)) :
    RustM String (FixedBytes nonceSize × List Nat) :=
  let len := message.length
  if message.length > maxPlaintextCodepoints then
    err s!"message length {len} exceeds MAX_PLAINTEXT_CODEPOINTS ({maxPlaintextCodepoints})"
  else
    match message.zipIdx.find? fun entry => (charFromU32 entry.1).isNone with
    | some (c, i) =>
        let hex := String.ofList (Nat.toDigits 16 c)
        err s!"message value 0x{hex} at position {i} is not a Unicode scalar value."
    | none => do
        validateKey key
        let nonce ← generateNonce
        let kb := keyBytes key
        let padded ← padMessage H message kb nonce
        let cypher ← emitTokensV7 H noise padded kb nonce key
        return (nonce, cypher)

/-- `decrypt` (`lib.rs:928-937`). -/
def decrypt (nonce : List UInt8) (cypher key : List Nat) : RustM String (List Nat) := do
  validateKeyV7Decrypt key
  decryptCore H noise nonce cypher key (keyBytes key)

/-! ## Authenticated ciphertexts -/

/-- `seal_v7` (`lib.rs:1254-1273`). -/
def sealV7 (codepoints key : List Nat) (nonce : FixedBytes nonceSize) (aad : List UInt8) :
    RustM String (List UInt8) := do
  let kb := keyBytes key
  let padded ← padMessage H codepoints kb nonce
  let cypher ← emitTokensV7 H noise padded kb nonce key
  let blob := fixedEncodeTokens cypher
  let ks ← varintKeystream H kb nonce blob.length
  let payload := nonce.toList ++ xorBytes blob ks
  let tag ← computeAuthTagV7 H kb aad payload
  return payload ++ tag.toList

/-- `open_v7` (`lib.rs:1282-1306`). -/
def openV7 (ciphertext : List UInt8) (key : List Nat) (aad : List UInt8) :
    RustM String (List Nat) := do
  checkV7AadLen aad.length
  let len := ciphertext.length
  let header := nonceSize + tagSize
  if ciphertext.length < nonceSize + tagSize then
    err s!"Ciphertext too short: {len} bytes; header+tag require at least {header}."
  else
    let kb := keyBytes key
    let split := ciphertext.length - tagSize
    let payload := ciphertext.take split
    let recvTag := ciphertext.drop split
    let calcTag ← computeAuthTagV7 H kb aad payload
    if ¬ ctEqBytes recvTag calcTag then err "Authentication failed: invalid HMAC tag."
    else
      validateKeyV7Decrypt key
      let nonce := payload.take nonceSize
      let masked := payload.drop nonceSize
      let ks ← varintKeystream H kb nonce masked.length
      let blob := xorBytes masked ks
      let tokens ← mapErr (fun e => s!"varint decode error: {e}") (fixedDecodeTokens blob)
      decryptCore H noise nonce tokens key kb

/-- `into_iter().enumerate().map(f).collect::<Result<_, String>>()`. -/
def collectEnumerated {β : Type} (f : Nat → Nat → RustM String β) (i : Nat) :
    List Nat → RustM String (List β)
  | [] => return []
  | c :: cs => do
      let b ← f i c
      return b :: (← collectEnumerated f (i + 1) cs)

/-- `encrypt_bytes` (`lib.rs:1194-1213`). -/
def encryptBytes (message : Str) (key : List Nat) (aad : List UInt8)
    (generateNonce : RustM String (FixedBytes nonceSize)) : RustM String (List UInt8) := do
  validateKey key
  checkV7AadLen aad.length
  if message.length > maxPlaintextCodepoints then
    err s!"message exceeds MAX_PLAINTEXT_CODEPOINTS ({maxPlaintextCodepoints})"
  else
    let nonce ← generateNonce
    sealV7 H noise message.codepoints key nonce aad

/-- The closure of `decrypt_bytes` (`lib.rs:1359-1368`). -/
def charOrErr (i c : Nat) : RustM String Char :=
  match charFromU32 c with
  | some ch => .ok ch
  | none => err (s!"Malformed v7 plaintext: recovered value {c} at position {i} is not a " ++
      "Unicode scalar value.")

/-- `decrypt_bytes` (`lib.rs:1342-1370`). -/
def decryptBytes (ciphertext : List UInt8) (key : List Nat) (aad : List UInt8) :
    RustM String Str := do
  collectEnumerated charOrErr 0 (← openV7 H noise ciphertext key aad)

/-- `encrypt_raw` (`lib.rs:1427-1445`). -/
def encryptRaw (data : List UInt8) (key : List Nat) (aad : List UInt8)
    (generateNonce : RustM String (FixedBytes nonceSize)) : RustM String (List UInt8) := do
  validateKey key
  checkV7AadLen aad.length
  if data.length > maxPlaintextCodepoints then
    err s!"data exceeds MAX_PLAINTEXT_CODEPOINTS ({maxPlaintextCodepoints}) bytes"
  else
    let nonce ← generateNonce
    sealV7 H noise (data.map UInt8.toNat) key nonce aad

/-- The closure of `decrypt_raw` (`lib.rs:1478-1492`). -/
def byteOrErr (i c : Nat) : RustM String UInt8 :=
  if c > 0xFF then
    err (s!"Malformed v7 raw ciphertext: recovered codepoint {c} at position {i} is out of " ++
      "byte range [0, 255]. This usually means the ciphertext was produced by `encrypt_bytes` " ++
      "(codepoint-oriented) rather than `encrypt_raw` (byte-oriented); the two use " ++
      "incompatible message encodings (CVF-14).")
  else .ok (UInt8.ofNat c)

/-- `decrypt_raw` (`lib.rs:1462-1495`). -/
def decryptRaw (ciphertext : List UInt8) (key : List Nat) (aad : List UInt8) :
    RustM String (List UInt8) := do
  collectEnumerated byteOrErr 0 (← openV7 H noise ciphertext key aad)

end

end Napqes.Rust
