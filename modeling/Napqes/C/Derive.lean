import Napqes.C.Basic

/-!
# HMAC derivations of the C port (`C/napqes.c:139-439, 1250-1401`)

`hmac_with_sep`, `compute_auth_tag`, `derive_format_subkey`, `synthetic_nonce` and the two stream
tags each run the inner and the outer hash of HMAC-SHA256 by hand and feed the message part by
part; here that is `H` on the concatenated parts.
-/

namespace Napqes.C

abbrev nonceSize : Nat := 16
abbrev tagSize : Nat := 32
abbrev skSize : Nat := 32
def aadLenWidthV8 : Nat := 8
def thetaMin : Nat := 13835058055282163712
def thetaMax : Nat := 18262276632972456099
def formatBlockV8 : UInt8 := 0x01
def formatStreamAeV8 : UInt8 := 0x02

section
variable (H : Hmac)

/-- `hmac_with_sep` (`napqes.c:144-175`). -/
def hmacWithSep (kb nonce : List UInt8) (sep : UInt8) (tail : List UInt8) : FixedBytes 32 :=
  H kb (sep :: (nonce ++ tail))

/-- `((uint64_t)u32_from_be4(d) % (k_elem - 1)) + 1`; the difference wraps at 0 and the
remainder is undefined at 1. -/
def addendOf (d : List UInt8) (kElem : Nat) : CM Nat :=
  if kElem = 1 then .error (.undefined "remainder by zero")
  else .ok (u32FromBe4 d % ((kElem + 2 ^ 64 - 1) % 2 ^ 64) + 1)

/-- `derive_addend` (`napqes.c:186-193`). -/
def deriveAddend (kb nonce : List UInt8) (realIdx kElem : Nat) : CM Nat :=
  addendOf (hmacWithSep H kb nonce 0x01 (be5Write realIdx)).toList kElem

/-- `derive_noise_char` (`napqes.c:195-201`). -/
def deriveNoiseChar (kb nonce : List UInt8) (ctPos : Nat) : Nat :=
  u32FromBe4 (hmacWithSep H kb nonce 0x04 (be5Write ctPos)).toList % 96 + 32

/-- `derive_noise_token_addend` (`napqes.c:203-210`). -/
def deriveNoiseTokenAddend (kb nonce : List UInt8) (ctPos kElem : Nat) : CM Nat :=
  addendOf (hmacWithSep H kb nonce 0x05 (be5Write ctPos)).toList kElem

/-- `derive_pad_char` (`napqes.c:212-223`). -/
def derivePadChar (kb nonce : List UInt8) (padIdx : Nat) : Nat :=
  u32FromBe4 (hmacWithSep H kb nonce 0x06 (be4Write padIdx)).toList % 95 + 32

/-- `derive_noise_threshold_v8` (`napqes.c:262-267`). -/
def deriveNoiseThresholdV8 (kb nonce : List UInt8) : Nat :=
  thetaMin + mulhi64 (u64FromBe8 (hmacWithSep H kb nonce 0x02 []).toList) (thetaMax - thetaMin)

/-- `derive_noise_threshold_v8` where `mulhi64` is the limb fallback. -/
def deriveNoiseThresholdV8Limbs (kb nonce : List UInt8) : UInt64 :=
  let tau := UInt64.ofNat (u64FromBe8 (hmacWithSep H kb nonce 0x02 []).toList)
  UInt64.ofNat thetaMin + mulhi64Limbs tau (UInt64.ofNat thetaMax - UInt64.ofNat thetaMin)

/-- `is_noise_pos_v8` (`napqes.c:269-276`). -/
def isNoisePosV8 (kb nonce : List UInt8) (ctPos theta : Nat) : Bool :=
  u64FromBe8 (hmacWithSep H kb nonce 0x00 (be5Write ctPos)).toList < theta

/-- `compute_auth_tag` (`napqes.c:315-357`); the payload starts with the nonce. -/
def computeAuthTag (kb aad payload : List UInt8) (aadLenWidth : Nat) : FixedBytes tagSize :=
  let nonce := payload.take nonceSize
  let maskedBlob := payload.drop nonceSize
  H kb (0x03 :: (nonce ++ (beLenPrefix aad.length aadLenWidth ++ (aad ++ maskedBlob))))

/-- `derive_format_subkey` (`napqes.c:380-401`). -/
def deriveFormatSubkey (sk : FixedBytes skSize) (formatId : UInt8) : FixedBytes 32 :=
  H sk [0x0b, formatId]

/-- `synthetic_nonce` (`napqes.c:409-439`). -/
def syntheticNonce (skFmt aad message : List UInt8) : FixedBytes nonceSize :=
  (H skFmt (0x0a :: (beLenPrefix aad.length aadLenWidthV8 ++ (aad ++ message)))).take
    nonceSize (by decide)

/-- `stream_v8_header` (`napqes.c:1250-1258`). -/
def streamV8Header (f : Nat) (nonce : List UInt8) : List UInt8 :=
  formatStreamAeV8 :: (be4Write f ++ nonce)

/-- `stream_v8_count_mask` (`napqes.c:1262-1277`). -/
def streamV8CountMask (skFmt : List UInt8) (f : Nat) (nonce : List UInt8) (chunkCount : Nat) :
    Nat :=
  readBe8Loop (H skFmt (0x0F :: (streamV8Header f nonce ++ be4Write chunkCount))).toList

/-- `derive_stream_v8_sub_nonce` (`napqes.c:1283-1297`). -/
def deriveStreamV8SubNonce (skFmt nonce : List UInt8) (chunkIdx : Nat) : FixedBytes nonceSize :=
  (hmacWithSep H skFmt nonce 0x0E (be4Write chunkIdx)).take nonceSize (by decide)

/-- `compute_stream_v8_chunk_tag` (`napqes.c:1311-1352`). -/
def computeStreamV8ChunkTag (skFmt : List UInt8) (f : Nat) (nonce : List UInt8) (chunkIdx : Nat)
    (aad maskedChunk : List UInt8) : FixedBytes tagSize :=
  H skFmt (0x0C :: (streamV8Header f nonce ++ (be4Write chunkIdx ++
    (beLenPrefix aad.length aadLenWidthV8 ++ (aad ++ maskedChunk)))))

/-- `compute_stream_v8_sentinel_tag` (`napqes.c:1357-1401`). -/
def computeStreamV8SentinelTag (skFmt : List UInt8) (f : Nat) (nonce : List UInt8)
    (chunkCount : Nat) (aad : List UInt8) (totalRealCps : Nat) : FixedBytes tagSize :=
  H skFmt (0x0D :: (streamV8Header f nonce ++ (be4Write chunkCount ++
    (beLenPrefix aad.length aadLenWidthV8 ++ (aad ++ beWriteLoop 8 totalRealCps)))))

end

/-- `constant_time_eq` (`napqes.c:359-363`): the differences of the first `n` bytes, ORed. -/
def constantTimeEq (a b : List UInt8) (n : Nat) : Bool :=
  (xorBytes (a.take n) (b.take n)).foldl (· ||| ·) 0 == 0

end Napqes.C
