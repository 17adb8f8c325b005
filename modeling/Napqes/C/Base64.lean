import Napqes.C.BlockV7

/-!
# Base64 and the string entry points of the C port (`C/base64.c`, `C/napqes.c:1159-1234`)

A `char` is its byte. The decoder fills its buffer group by group; here the buffer is what it has
written so far.
-/

namespace Napqes.C

/-- `ALPHA` (`base64.c:4-5`). -/
def alpha : List UInt8 :=
  "ABCDEFGHIJKLMNOPQRSTUVWXYZabcdefghijklmnopqrstuvwxyz0123456789+/".toList.map fun c =>
    UInt8.ofNat c.toNat

/-- `ALPHA[v & 0x3F]`. -/
def alphaAt (v : Nat) : UInt8 := alpha.getD (v &&& 0x3F) 0

/-- `base64_encoded_len` (`base64.c:7`); no buffer is so long that the sum could wrap. -/
def base64EncodedLen (inLen : Nat) : Nat := (inLen + 2) / 3 * 4

/-- `base64_decoded_max_len` (`base64.c:8`). -/
def base64DecodedMaxLen (inLen : Nat) : Nat := inLen / 4 * 3

/-- The loop of `base64_encode` and what follows it (`base64.c:12-34`); `out` is what has been
written so far. -/
def base64EncodeLoop : List UInt8 → List UInt8 → List UInt8
  | a :: b :: c :: rest, out =>
      let v := a.toNat <<< 16 ||| b.toNat <<< 8 ||| c.toNat
      base64EncodeLoop rest
        (out ++ [alphaAt (v >>> 18), alphaAt (v >>> 12), alphaAt (v >>> 6), alphaAt v])
  | [a], out =>
      let v := a.toNat <<< 16
      out ++ [alphaAt (v >>> 18), alphaAt (v >>> 12), 0x3D, 0x3D]
  | [a, b], out =>
      let v := a.toNat <<< 16 ||| b.toNat <<< 8
      out ++ [alphaAt (v >>> 18), alphaAt (v >>> 12), alphaAt (v >>> 6), 0x3D]
  | [], out => out

/-- `base64_encode` (`base64.c:10-36`): the characters in front of the closing NUL. -/
def base64Encode (input : List UInt8) : List UInt8 := base64EncodeLoop input []

/-- `b64_val` (`base64.c:38-45`); `-1` is `none`. -/
def b64Val (c : UInt8) : Option Nat :=
  if 0x41 ≤ c ∧ c ≤ 0x5A then some (c.toNat - 0x41)
  else if 0x61 ≤ c ∧ c ≤ 0x7A then some (c.toNat - 0x61 + 26)
  else if 0x30 ≤ c ∧ c ≤ 0x39 then some (c.toNat - 0x30 + 52)
  else if c = 0x2B then some 62
  else if c = 0x2F then some 63
  else none

/-- The loop of `base64_decode` (`base64.c:50-65`), one group of four characters in each round. -/
def base64DecodeLoop : List UInt8 → List UInt8 → Option (List UInt8)
  | c0 :: c1 :: c2 :: c3 :: rest, out => do
      let v0 ← b64Val c0
      let v1 ← b64Val c1
      let pad2 := c2 == 0x3D
      let pad3 := c3 == 0x3D
      let v2 ← (if pad2 then some 0 else b64Val c2)
      let v3 ← (if pad3 then some 0 else b64Val c3)
      let triple := v0 <<< 18 ||| v1 <<< 12 ||| v2 <<< 6 ||| v3
      let out := out ++ [lowByte (triple >>> 16)]
      let out := if !pad2 then out ++ [lowByte (triple >>> 8)] else out
      let out := if !pad3 then out ++ [lowByte triple] else out
      if pad2 && !pad3 then none else base64DecodeLoop rest out
  | _, out => some out

/-- The same loop with what is in its buffer when it returns, also when it returns `-1`; the result
is whether it came to the end. -/
def base64DecodeFill : List UInt8 → List UInt8 → List UInt8 × Bool
  | c0 :: c1 :: c2 :: c3 :: rest, out =>
      let pad2 := c2 == 0x3D
      let pad3 := c3 == 0x3D
      match b64Val c0, b64Val c1, (if pad2 then some 0 else b64Val c2),
          (if pad3 then some 0 else b64Val c3) with
      | some v0, some v1, some v2, some v3 =>
          let triple := v0 <<< 18 ||| v1 <<< 12 ||| v2 <<< 6 ||| v3
          let out := out ++ [lowByte (triple >>> 16)]
          let out := if !pad2 then out ++ [lowByte (triple >>> 8)] else out
          let out := if !pad3 then out ++ [lowByte triple] else out
          if pad2 && !pad3 then (out, false) else base64DecodeFill rest out
      | _, _, _, _ => (out, false)
  | _, out => (out, true)

/-- What `base64_decode` has written when it returns. -/
def base64DecodeWritten (input : List UInt8) : List UInt8 :=
  if input.length % 4 ≠ 0 then [] else (base64DecodeFill input []).1

/-- `base64_decode` (`base64.c:47-67`). -/
def base64Decode (input : List UInt8) : Option (List UInt8) :=
  if input.length % 4 ≠ 0 then none else base64DecodeLoop input []

section
variable (H : Hmac)

/-- `napqes_encrypt_str_v8_profiled` (`napqes.c:1167-1184`). -/
def napqesEncryptStrV8Profiled (message : List UInt8) (primes : List UInt64)
    (sk : FixedBytes skSize) (aad : List UInt8) (padProfile : Option PadProfile) :
    CM (List UInt8) := do
  let bin ← napqesEncryptBytesV8Profiled H message primes sk aad padProfile
  return base64Encode bin ++ [0]

/-- `napqes_encrypt_str_v8` (`napqes.c:1159-1165`). -/
def napqesEncryptStrV8 (message : List UInt8) (primes : List UInt64) (sk : FixedBytes skSize)
    (aad : List UInt8) : CM (List UInt8) :=
  napqesEncryptStrV8Profiled H message primes sk aad none

/-- `napqes_decrypt_str_v8` (`napqes.c:1186-1200`). -/
def napqesDecryptStrV8 (cypher : List UInt8) (primes : List UInt64) (sk : FixedBytes skSize)
    (aad : List UInt8) : CM (List UInt8) := do
  let clen ← strlen cypher
  match base64Decode (cypher.take clen) with
  | none => null
  | some bin => napqesDecryptBytesV8 H bin primes sk aad

/-- `napqes_encrypt_str` (`napqes.c:1204-1218`). -/
def napqesEncryptStr (noise : Rust.Noise) (message : List UInt8) (key : List UInt64)
    (aad : List UInt8) (nonce : FixedBytes nonceSize) : CM (List UInt8) :=
  if message.head? = some 0 then .ok [0]
  else do
    let bin ← napqesEncryptBytes H noise message key aad nonce
    return base64Encode bin ++ [0]

/-- `napqes_decrypt_str` (`napqes.c:1220-1234`). -/
def napqesDecryptStr (noise : Rust.Noise) (cypher : List UInt8) (key : List UInt64)
    (aad : List UInt8) : CM (List UInt8) :=
  if cypher.head? = some 0 then .ok [0]
  else do
    let clen ← strlen cypher
    match base64Decode (cypher.take clen) with
    | none => null
    | some bin => napqesDecryptBytes H noise bin key aad

end

end Napqes.C
