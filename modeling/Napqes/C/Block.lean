import Napqes.C.Key
import Napqes.C.Tokens

/-!
# v8 block encryption and decryption of the C port (`C/napqes.c:443-499, 686-873, 1032-1157`)
-/

namespace Napqes.C

def padMinExp : Nat := 4
def padMaxExp : Nat := 16

/-- `napqes_pad_kind_t` (`napqes.h:137-147`). -/
inductive PadKind where
  | bucket
  | coarse
  | frame
  deriving DecidableEq, Repr

/-- `napqes_pad_profile_t` (`napqes.h:149-152`). -/
structure PadProfile where
  kind : PadKind
  param : UInt32
  deriving DecidableEq, Repr

/-! ## Padding -/

/-- `for (size_t v = n; v; v >>= 1) ++e;` -/
def bitLengthLoop (v e : Nat) : Nat := if v = 0 then e else bitLengthLoop (v >>> 1) (e + 1)
termination_by v
decreasing_by
  rw [Nat.shiftRight_eq_div_pow]
  omega

/-- `for (uint32_t v = f; v > 1; v >>= 1) ++fe;` -/
def frameExpLoop (v fe : Nat) : Nat := if v > 1 then frameExpLoop (v >>> 1) (fe + 1) else fe
termination_by v
decreasing_by
  rw [Nat.shiftRight_eq_div_pow]
  omega

/-- `padding_block_size` (`napqes.c:448-473`); 0 reports failure, a null profile is the bucket
profile. -/
def paddingBlockSize (n : Nat) (profile : Option PadProfile) : Nat :=
  let e := bitLengthLoop n 0
  let e := if e < padMinExp then padMinExp else e
  match profile with
  | none => 1 <<< e
  | some ⟨.bucket, _⟩ => 1 <<< e
  | some ⟨.coarse, param⟩ =>
      let span := padMaxExp - padMinExp
      let g := param.toNat
      if g = 0 ∨ span % g ≠ 0 then 0
      else
        let steps := (e - padMinExp + g - 1) / g
        1 <<< (padMinExp + g * steps)
  | some ⟨.frame, f⟩ =>
      if f = 0 ∨ f &&& (f - 1) ≠ 0 then 0
      else
        let fe := frameExpLoop f.toNat 0
        if fe < padMinExp ∨ fe > padMaxExp then 0
        else if n ≥ f.toNat then 0
        else f.toNat

section
variable (H : Hmac)

/-- `pad_message` (`napqes.c:480-499`). -/
def padMessage (msg : List Nat) (kb nonce : List UInt8) (block : Nat) : CM (List Nat) :=
  let n := msg.length
  if n > 0xFFFF then null
  else if block ≤ n then null
  else
    let padLen := block - n
    .ok ([(n >>> 8) &&& 0xFF, n &&& 0xFF] ++ msg ++
      (List.range padLen).map (derivePadChar H kb nonce))

/-! ## Encryption -/

/-- `encrypt_core_det_v8` (`napqes.c:686-773`). -/
def encryptCoreDetV8 (msg : List Nat) (primes : List UInt64) (skFmt nonce : List UInt8)
    (padProfile : Option PadProfile) : CM (List UInt8) :=
  if primes.length = 0 then null
  else do
    let noiseTheta := deriveNoiseThresholdV8 H skFmt nonce
    let block := paddingBlockSize msg.length padProfile
    if block = 0 then null
    else
      let padded ← padMessage H msg skFmt nonce block
      emitTokensV8 H padded primes skFmt nonce noiseTheta

/-- `strlen`; a buffer without a terminator has no length. -/
def strlen (s : List UInt8) : CM Nat :=
  match s.findIdx? (· == 0) with
  | some n => .ok n
  | none => .error (.undefined "string is not terminated")

/-- The UTF-8 loop of the encryptor (`napqes.c:1064-1071`) for one codepoint. -/
def utf8Bytes (cp : Nat) : List UInt8 :=
  if cp < 0x80 then [UInt8.ofNat cp]
  else [UInt8.ofNat (0xC0 ||| (cp >>> 6)), UInt8.ofNat (0x80 ||| (cp &&& 0x3F))]

/-- `napqes_encrypt_bytes_v8_profiled` (`napqes.c:1041-1105`); `message` is the memory from the
pointer on, up to a `NUL` or beyond. -/
def napqesEncryptBytesV8Profiled (message : List UInt8) (primes : List UInt64)
    (sk : FixedBytes skSize) (aad : List UInt8) (padProfile : Option PadProfile) :
    CM (List UInt8) :=
  if !validateKey primes then null
  else do
    let n ← strlen message
    if n > 0xFFFF then null
    else
      let cp := (message.take n).map UInt8.toNat
      let skFmt := deriveFormatSubkey H sk formatBlockV8
      let utf8 := cp.flatMap utf8Bytes
      let nonce := syntheticNonce H skFmt aad utf8
      let blob ← encryptCoreDetV8 H cp primes skFmt nonce padProfile
      let ks ← varintKeystreamAlloc H skFmt nonce blob.length
      let blob := xorBytes blob ks
      let payload := nonce.toList ++ blob
      let tag := computeAuthTag H skFmt aad payload aadLenWidthV8
      return payload ++ tag.toList

/-- `napqes_encrypt_bytes_v8` (`napqes.c:1032-1039`). -/
def napqesEncryptBytesV8 (message : List UInt8) (primes : List UInt64) (sk : FixedBytes skSize)
    (aad : List UInt8) : CM (List UInt8) :=
  napqesEncryptBytesV8Profiled H message primes sk aad none

/-! ## Decryption -/

/-- The test on the recovered count (`napqes.c:808-816`). -/
def legalRealCount (realCount : Nat) : Bool :=
  2 ≤ realCount ∧ (List.range' padMinExp (padMaxExp + 1 - padMinExp)).any fun e =>
    realCount - 2 == 1 <<< e

/-- `decrypt_core_v8` (`napqes.c:786-873`). -/
def decryptCoreV8 (blob nonce : List UInt8) (primes : List UInt64) (skFmt : List UInt8) :
    CM (List Nat) :=
  if primes.length = 0 then null
  else if blob.length % tokenWidth ≠ 0 then null
  else
    let noiseTheta := deriveNoiseThresholdV8 H skFmt nonce
    let nTokens := blob.length / tokenWidth
    let ceilingUnit := maxNoiseRun + 1
    if nTokens % ceilingUnit ≠ 0 then null
    else
      let realCount := nTokens / ceilingUnit
      if !legalRealCount realCount then null
      else do
        let padded ← readTokensV8 H primes skFmt nonce noiseTheta blob nTokens realCount 0 0 []
        match padded with
        | hi :: lo :: rest =>
            if hi > 0xFF ∨ lo > 0xFF then null
            else
              let origN := hi <<< 8 ||| lo
              if 2 + origN > rest.length + 2 then null
              else .ok (rest.take origN)
        | _ => null

/-- The output loop of the decryptors (`napqes.c:1148-1153, 1755-1760`): one byte for each
codepoint and a final `NUL`. -/
def writeChars (cps : List Nat) : CM (List UInt8) :=
  if cps.any fun c => c > 0xFF then null
  else .ok (cps.map UInt8.ofNat ++ [0])

/-- `napqes_decrypt_bytes_v8` (`napqes.c:1107-1157`). -/
def napqesDecryptBytesV8 (ciphertext : List UInt8) (primes : List UInt64)
    (sk : FixedBytes skSize) (aad : List UInt8) : CM (List UInt8) :=
  if !validateKey primes then null
  else if ciphertext.length < nonceSize + tagSize then null
  else if (ciphertext.length - nonceSize - tagSize) % (tokenWidth * (maxNoiseRun + 1)) ≠ 0 then
    null
  else
    let payloadLen := ciphertext.length - tagSize
    let recvTag := ciphertext.drop payloadLen
    let skFmt := deriveFormatSubkey H sk formatBlockV8
    let calcTag := computeAuthTag H skFmt aad (ciphertext.take payloadLen) aadLenWidthV8
    if !constantTimeEq recvTag calcTag.toList tagSize then null
    else do
      let nonce := ciphertext.take nonceSize
      let masked := (ciphertext.take payloadLen).drop nonceSize
      let ks ← varintKeystreamAlloc H skFmt nonce masked.length
      let blob := xorBytes masked ks
      let cp ← decryptCoreV8 H blob nonce primes skFmt
      writeChars cp

end

end Napqes.C
