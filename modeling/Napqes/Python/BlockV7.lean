import Mathlib.Data.Int.Bitwise
import Napqes.Python.Stream

/-!
# v7 block encryption and decryption in Python (`napqes.py:213-220, 607-726, 852-931`)

The v7 decoder takes every token at a position that is not noise for a real one and divides without
a check, so it can recover a negative value, and `_unpad_message` slices with it. `decrypt_bytes` is
modelled with its default flags. `_validate_cypher` has nothing to refuse in a list of natural
numbers. The nonce that `encrypt` draws is an argument.
-/

namespace Napqes.Python

def aadLenWidthV7 : Nat := 4

/-- `xs[start:stop]`; a negative `stop` counts from the end. -/
def slice {α : Type} (xs : List α) (start : Nat) (stop : Int) : List α :=
  let stop := if stop < 0 then stop + xs.length else stop
  (xs.take stop.toNat).drop start

/-- `a // b`. -/
def floorDiv (a b : Int) : PyM Int :=
  if b = 0 then raise (.zeroDivisionError "integer division or modulo by zero") else .ok (a.fdiv b)

/-- `_unpad_message` (`napqes.py:607-628`) on the integers of the v7 decoder. -/
def unpadMessageV7 : List Int → PyM (List Int)
  | hi :: lo :: rest =>
      if hi > 0xFF ∨ lo > 0xFF then
        valueError (s!"Malformed length prefix: codepoints ({hi}, {lo}) are not byte-valued " ++
          "(CVF-43).")
      else
        let n := Int.lor (hi <<< 8) lo
        let available := rest.length
        if 2 + n > rest.length + 2 then
          valueError s!"Length prefix ({n}) exceeds available data ({available} bytes)."
        else .ok (slice (hi :: lo :: rest) 2 (2 + n))
  | _ => valueError "Padded message too short to contain length prefix."

/-- `_validate_nonce` (`napqes.py:213-219`). -/
def validateNonce (nonce : List UInt8) : PyM PUnit :=
  let got := nonce.length
  if nonce.length ≠ nonceSize then
    valueError s!"Nonce must be exactly {nonceSize} bytes, got {got}."
  else pure ⟨⟩

section
variable (H : Hmac) (noise : Noise) (mathSqrt : Nat → Nat)

/-- The `while True` loop of `encrypt` (`napqes.py:659-678`): the tokens of one codepoint. A
position that does not fit five bytes ends it. -/
def emitCodepointV7 (key : List Nat) (kb nonce : List UInt8) (c realIdx : Nat) (ctPos : Nat)
    (cypher : List Nat) : PyM (List Nat × Nat) :=
  match _h : isNoisePos noise kb nonce ctPos with
  | .error e => .error e
  | .ok true => do
      let token ← noiseToken H key kb nonce realIdx ctPos
      emitCodepointV7 key kb nonce c realIdx (ctPos + 1) (cypher ++ [token])
  | .ok false => do
      let k ← keyAt key realIdx
      let addend ← deriveAddend H kb nonce realIdx k
      return (cypher ++ [c * k + addend], ctPos + 1)
termination_by 256 ^ 5 - ctPos
decreasing_by
  have := (isNoisePos_eq_ok_iff.mp _h).1
  omega

/-- The `for c in padded` loop of `encrypt` (`napqes.py:658-678`). -/
def emitCodepointsV7 (key : List Nat) (kb nonce : List UInt8) :
    List Nat → Nat → Nat → List Nat → PyM (List Nat)
  | [], _, _, cypher => return cypher
  | c :: padded, realIdx, ctPos, cypher => do
      let (cypher, ctPos) ← emitCodepointV7 H noise key kb nonce c realIdx ctPos cypher
      emitCodepointsV7 key kb nonce padded (realIdx + 1) ctPos cypher

/-- `encrypt` (`napqes.py:631-680`). -/
def encrypt (message key : List Nat) (nonce : List UInt8) : PyM (List Nat) := do
  validateKey mathSqrt key
  let kb ← keyBytes key
  let padded ← padMessage H message kb nonce .bucket
  emitCodepointsV7 H noise key kb nonce padded 0 0 []

/-- `encrypt_bytes` (`napqes.py:852-884`). -/
def encryptBytes (message key : List Nat) (aad nonce : List UInt8) : PyM (List UInt8) := do
  let tokens ← encrypt H noise mathSqrt message key nonce
  let kb ← keyBytes key
  let tokenBlob ← fixedEncodeTokens tokens
  let ks ← varintKeystream H kb nonce tokenBlob.length
  let maskedBlob := xorBytes tokenBlob ks
  let payload := nonce ++ maskedBlob
  let tag ← computeAuthTag H kb aad payload aadLenWidthV7
  return payload ++ tag

/-- The loop of `_decrypt_with_noise_p` (`napqes.py:697-702`). -/
def decryptTokensV7 (key : List Nat) (kb nonce : List UInt8) :
    List Nat → Nat → Nat → List Int → PyM (List Int)
  | [], _, _, padded => .ok padded
  | token :: cypher, ctPos, realIdx, padded => do
      let isNoise ← isNoisePos noise kb nonce ctPos
      if !isNoise then
        let k ← keyAt key realIdx
        let addend ← deriveAddend H kb nonce realIdx k
        let cp ← floorDiv (token - addend) k
        decryptTokensV7 key kb nonce cypher (ctPos + 1) (realIdx + 1) (padded ++ [cp])
      else decryptTokensV7 key kb nonce cypher (ctPos + 1) realIdx padded

/-- `_decrypt_with_noise_p` (`napqes.py:683-704`). -/
def decryptWithNoiseP (nonce : List UInt8) (cypher key : List Nat) : PyM (List Int) := do
  validateKey mathSqrt key
  let kb ← keyBytes key
  unpadMessageV7 (← decryptTokensV7 H noise key kb nonce cypher 0 0 [])

/-- `_decrypt` (`napqes.py:707-725`). -/
def decrypt (nonce : List UInt8) (cypher key : List Nat) : PyM (List Int) := do
  validateNonce nonce
  validateKey mathSqrt key
  let _ ← keyBytes key
  decryptWithNoiseP H noise mathSqrt nonce cypher key

/-- `decrypt_bytes` (`napqes.py:887-931`). -/
def decryptBytes (ciphertext : List UInt8) (key : List Nat) (aad : List UInt8) :
    PyM (List Nat) := do
  validateKey mathSqrt key
  if ciphertext.length ≥ nonceSize + tagSize then
    let kb ← keyBytes key
    let payload := ciphertext.take (ciphertext.length - tagSize)
    let recvTag := ciphertext.drop (ciphertext.length - tagSize)
    let calcTag ← computeAuthTag H kb aad payload aadLenWidthV7
    if recvTag = calcTag then
      let nonce := payload.take nonceSize
      let maskedBlob := payload.drop nonceSize
      let ks ← varintKeystream H kb nonce maskedBlob.length
      let tokenBlob := xorBytes maskedBlob ks
      let tokens ← fixedDecodeTokens tokenBlob
      (← decrypt H noise mathSqrt nonce tokens key).mapM chrInt
    else valueError "Authentication failed: invalid HMAC tag."
  else
    valueError
      ("Ciphertext is not a valid authenticated v7 payload. To decode legacy v6 payloads " ++
      "(pre-CVF1 fix), set legacy_v6_varint=True. To decode legacy v5 unauthenticated payloads, " ++
      "set allow_legacy_unauthenticated=True.")

end

end Napqes.Python
