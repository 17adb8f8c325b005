import Napqes.C.Block
import Napqes.Rust.BlockV7

/-!
# v7 block encryption and decryption of the C port
(`C/napqes.c:118-126, 177-184, 559-676, 877-1020`)

The legacy entry points have no key check of their own beyond `klen == 0`. The noise probability is
a floating-point number: `noise kb nonce ct_pos` stands for the comparison in `is_noise_pos` with
what `derive_noise_p(kb, nonce)` returns. The nonce that `encrypt_core` draws is an argument.
-/

namespace Napqes.C

open Rust (Noise)

def aadLenWidthV7 : Nat := 4

/-- `key_bytes_alloc` (`napqes.c:118-126`). -/
def keyBytes (key : List UInt64) : List UInt8 := key.flatMap fun k => be5Write k.toNat

/-- `is_noise_pos` (`napqes.c:177-184`); the position goes into the HMAC input as five bytes. -/
def isNoisePos (noise : Noise) (kb nonce : List UInt8) (ctPos : Nat) : Bool :=
  noise kb nonce (ctPos % 2 ^ 40)

section
variable (H : Hmac) (noise : Noise)

/-! ## Encryption -/

/-- The inner loop of `encrypt_core_det` (`napqes.c:587-611`): the tokens of one codepoint. A run of
`2^40` noise positions takes in all of them, so it has no end. -/
def emitCodepointV7 (key : List UInt64) (kb nonce : List UInt8) (c realIdx noiseRun ctPos : Nat)
    (buf : List UInt8) : CM (List UInt8 × Nat) := do
  let k ← keyAt key realIdx
  if isNoisePos noise kb nonce ctPos then
    let token ← noiseTokenBytes H kb nonce ctPos k
    if _h : noiseRun + 1 < 2 ^ 40 then
      emitCodepointV7 key kb nonce c realIdx (noiseRun + 1) (ctPos + 1) (buf ++ token)
    else .error .diverges
  else
    let addend ← deriveAddend H kb nonce realIdx k
    return (buf ++ fixedEncode (c * k + addend), ctPos + 1)
termination_by 2 ^ 40 - noiseRun

/-- The loop over the padded codepoints (`napqes.c:586-612`). -/
def emitCodepointsV7 (key : List UInt64) (kb nonce : List UInt8) :
    List Nat → Nat → Nat → List UInt8 → CM (List UInt8)
  | [], _, _, buf => return buf
  | c :: padded, realIdx, ctPos, buf => do
      let (buf, ctPos) ← emitCodepointV7 H noise key kb nonce c realIdx 0 ctPos buf
      emitCodepointsV7 key kb nonce padded (realIdx + 1) ctPos buf

/-- `encrypt_core_det` (`napqes.c:559-617`). -/
def encryptCoreDet (msg : List Nat) (key : List UInt64) (nonce : List UInt8) : CM (List UInt8) :=
  if key.length = 0 then null
  else do
    let kb := keyBytes key
    let padded ← padMessage H msg kb nonce (paddingBlockSize msg.length none)
    emitCodepointsV7 H noise key kb nonce padded 0 0 []

/-- `napqes_encrypt_bytes` (`napqes.c:877-923`); `message` is the memory from the pointer on, up to
a `NUL` or beyond. -/
def napqesEncryptBytes (message : List UInt8) (key : List UInt64) (aad : List UInt8)
    (nonce : FixedBytes nonceSize) : CM (List UInt8) := do
  let n ← strlen message
  if n = 0 then return []
  else if n > 0xFFFF then null
  else
    let cp := (message.take n).map UInt8.toNat
    let blob ← encryptCoreDet H noise cp key nonce
    let kb := keyBytes key
    let ks ← varintKeystreamAlloc H kb nonce blob.length
    let payload := nonce.toList ++ xorBytes blob ks
    let tag := computeAuthTag H kb aad payload aadLenWidthV7
    return payload ++ tag.toList

/-! ## Decryption -/

/-- `(tokens[ct_pos] - addend) / k`, narrowed to 32 bits (`napqes.c:657-658`); the difference wraps
and the quotient is undefined at 0. -/
def recoverV7 (token addend k : Nat) : CM Nat :=
  if k = 0 then .error (.undefined "division by zero")
  else .ok ((token + 2 ^ 64 - addend) % 2 ^ 64 / k % 2 ^ 32)

/-- The loop over the tokens of `decrypt_core` (`napqes.c:653-661`). -/
def decryptTokensV7 (key : List UInt64) (kb nonce : List UInt8) :
    List Nat → Nat → Nat → List Nat → CM (List Nat)
  | [], _, _, padded => return padded
  | token :: tokens, ctPos, realIdx, padded =>
      if !isNoisePos noise kb nonce ctPos then do
        let k ← keyAt key realIdx
        let addend ← deriveAddend H kb nonce realIdx k
        let cp ← recoverV7 token addend k
        decryptTokensV7 key kb nonce tokens (ctPos + 1) (realIdx + 1) (padded ++ [cp])
      else decryptTokensV7 key kb nonce tokens (ctPos + 1) realIdx padded

/-- The unpadding of `decrypt_core` (`napqes.c:666-675`); the prefix is not checked to be bytes. -/
def unpadV7 : List Nat → CM (List Nat)
  | hi :: lo :: rest =>
      let origN := hi <<< 8 ||| lo
      if 2 + origN > rest.length + 2 then null else .ok (rest.take origN)
  | _ => null

/-- `decrypt_core` (`napqes.c:631-676`). -/
def decryptCore (blob nonce : List UInt8) (key : List UInt64) : CM (List Nat) :=
  if key.length = 0 then null
  else if blob.length % tokenWidth ≠ 0 then null
  else do
    let kb := keyBytes key
    let nTokens := blob.length / tokenWidth
    let tokens := (List.range nTokens).map fun i => fixedDecode (blob.drop (i * tokenWidth))
    unpadV7 (← decryptTokensV7 H noise key kb nonce tokens 0 0 [])

/-- `napqes_decrypt_bytes` (`napqes.c:979-1020`); the result is the returned buffer, with its final
`NUL`. -/
def napqesDecryptBytes (ciphertext : List UInt8) (key : List UInt64) (aad : List UInt8) :
    CM (List UInt8) :=
  if ciphertext.length = 0 then .ok [0]
  else if ciphertext.length < nonceSize + tagSize then null
  else
    let payloadLen := ciphertext.length - tagSize
    let recvTag := ciphertext.drop payloadLen
    let kb := keyBytes key
    let calcTag := computeAuthTag H kb aad (ciphertext.take payloadLen) aadLenWidthV7
    if !constantTimeEq recvTag calcTag.toList tagSize then null
    else do
      let nonce := ciphertext.take nonceSize
      let masked := (ciphertext.take payloadLen).drop nonceSize
      let ks ← varintKeystreamAlloc H kb nonce masked.length
      let blob := xorBytes masked ks
      let cp ← decryptCore H noise blob nonce key
      return cp.map lowByte ++ [0]

end

end Napqes.C
