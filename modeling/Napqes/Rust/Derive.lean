import Napqes.Rust.Basic

/-!
# HMAC derivations of the v8 formats (`rust/src/lib.rs:305-575, 1619-1674, 2023-2247`)

Each derivation hashes one byte string that starts with its domain byte. The strings are
definitions of their own (`...Input`), as the source builds them in a buffer, so that what
is fed to HMAC can be reasoned about apart from what is done with the digest.
-/

namespace Napqes.Rust

variable {ε : Type}

abbrev nonceSize : Nat := 16
abbrev tagSize : Nat := 32
def aadLenWidthV8 : Nat := 8
def noiseAlphabet : Nat := 96
def padAlphabet : Nat := 95
def asciiPrintableBase : Nat := 32
def thetaMin : Nat := 75 * 2 ^ 64 / 100
def thetaMax : Nat := 99 * 2 ^ 64 / 100
def formatBlockV8 : UInt8 := 0x01
def formatStreamAeV8 : UInt8 := 0x02

/-! ## Byte helpers -/

/-- `be5` (`lib.rs:327-342`): the low five bytes of a `u64`. -/
def be5 (n : Nat) : List UInt8 := (beBytes 8 n).drop 3

@[simp] theorem be5_eq (n : Nat) : be5 n = beBytes 5 n := by
  simp [be5, beBytes]

/-- `u64_from_be8` (`lib.rs:344-348`). -/
def u64FromBe8 (b : List UInt8) : Nat := beNat (b.take 8)

/-- `u32_from_be4` (`lib.rs:370-374`). -/
def u32FromBe4 (b : List UInt8) : Nat := beNat (b.take 4)

/-- `be_len_prefix` (`lib.rs:357-368`) at the v8 width, where no length is refused. -/
def beLenPrefix (n : Nat) : List UInt8 := beBytes aadLenWidthV8 n

theorem u64FromBe8_lt (b : List UInt8) : u64FromBe8 b < 2 ^ 64 := by
  have h := beNat_lt (b.take 8)
  have hlen : (b.take 8).length ≤ 8 := by simp
  have hpow := Nat.pow_le_pow_right (n := 256) (by decide) hlen
  unfold u64FromBe8
  omega

theorem u32FromBe4_lt (b : List UInt8) : u32FromBe4 b < 2 ^ 32 := by
  have h := beNat_lt (b.take 4)
  have hlen : (b.take 4).length ≤ 4 := by simp
  have hpow := Nat.pow_le_pow_right (n := 256) (by decide) hlen
  unfold u32FromBe4
  omega

/-! ## HMAC inputs -/

/-- What `is_noise_pos_v8` hashes (`lib.rs:550-553`), and `is_noise_pos` (`lib.rs:379-382`). -/
def noisePosInput (nonce : List UInt8) (ctPos : Nat) : List UInt8 :=
  0x00 :: (nonce ++ be5 ctPos)

/-- What `derive_addend` hashes (`lib.rs:389-392`). -/
def addendInput (nonce : List UInt8) (realIdx : Nat) : List UInt8 :=
  0x01 :: (nonce ++ be5 realIdx)

/-- What `derive_noise_threshold_v8` hashes (`lib.rs:540-542`). -/
def thresholdInput (nonce : List UInt8) : List UInt8 := 0x02 :: nonce

/-- What `compute_auth_tag` hashes at the v8 width (`lib.rs:566-573`): the layout
`d || N || be8(|aad|) || aad || masked_blob`. -/
def authTagInput (aad nonce maskedBlob : List UInt8) : List UInt8 :=
  0x03 :: (nonce ++ (beLenPrefix aad.length ++ (aad ++ maskedBlob)))

/-- What `derive_noise_char` hashes (`lib.rs:405-408`). -/
def noiseCharInput (nonce : List UInt8) (ctPos : Nat) : List UInt8 :=
  0x04 :: (nonce ++ be5 ctPos)

/-- What `derive_noise_token_addend` hashes (`lib.rs:415-418`). -/
def noiseAddendInput (nonce : List UInt8) (ctPos : Nat) : List UInt8 :=
  0x05 :: (nonce ++ be5 ctPos)

/-- What `pad_to_block` hashes for a padding codepoint (`lib.rs:726-729`). The filler of a stream
chunk shares this domain (`lib.rs:2093-2096`). -/
def padInput (nonce : List UInt8) (i : Nat) : List UInt8 :=
  0x06 :: (nonce ++ beBytes 4 i)

/-- What `varint_keystream` hashes for a block (`lib.rs:750-753`). -/
def keystreamInput (nonce : List UInt8) (block : Nat) : List UInt8 :=
  0x07 :: (nonce ++ beBytes 4 block)

/-- What `synthetic_nonce` hashes (`lib.rs:1665-1669`). -/
def syntheticNonceInput (aad message : List UInt8) : List UInt8 :=
  0x0A :: (beLenPrefix aad.length ++ (aad ++ message))

/-- What `derive_format_subkey` hashes (`lib.rs:1619`). -/
def formatSubkeyInput (formatId : UInt8) : List UInt8 := [0x0B, formatId]

/-- `stream_v8_header` (`lib.rs:2043-2049`). -/
def streamV8Header (f : Nat) (nonce : List UInt8) : List UInt8 :=
  formatStreamAeV8 :: (beBytes 4 f ++ nonce)

/-- What `compute_stream_v8_chunk_tag` hashes (`lib.rs:2220-2226`). -/
def chunkTagInput (f : Nat) (nonce : List UInt8) (chunkIdx : Nat) (aad maskedChunk : List UInt8) :
    List UInt8 :=
  0x0C :: (streamV8Header f nonce ++ (beBytes 4 chunkIdx ++
    (beLenPrefix aad.length ++ (aad ++ maskedChunk))))

/-- What `compute_stream_v8_sentinel_tag` hashes (`lib.rs:2239-2245`). -/
def sentinelTagInput (f : Nat) (nonce : List UInt8) (chunkCount : Nat) (aad : List UInt8)
    (totalRealCps : Nat) : List UInt8 :=
  0x0D :: (streamV8Header f nonce ++ (beBytes 4 chunkCount ++
    (beLenPrefix aad.length ++ (aad ++ beBytes 8 totalRealCps))))

/-- What `derive_stream_v8_sub_nonce` hashes (`lib.rs:2074-2077`). -/
def subNonceInput (nonce : List UInt8) (chunkIdx : Nat) : List UInt8 :=
  0x0E :: (nonce ++ beBytes 4 chunkIdx)

/-- What `stream_v8_count_mask` hashes (`lib.rs:2061-2064`). -/
def countMaskInput (f : Nat) (nonce : List UInt8) (chunkCount : Nat) : List UInt8 :=
  0x0F :: (streamV8Header f nonce ++ beBytes 4 chunkCount)

/-! ## Derived values -/

section
variable (H : Hmac)

/-- `derive_format_subkey` (`lib.rs:1619-1621`). -/
def deriveFormatSubkey (sk : FixedBytes 32) (formatId : UInt8) : FixedBytes 32 :=
  H sk (formatSubkeyInput formatId)

/-- `synthetic_nonce` (`lib.rs:1664-1674`). -/
def syntheticNonce (skFmt aad message : List UInt8) : FixedBytes nonceSize :=
  (H skFmt (syntheticNonceInput aad message)).take nonceSize (by decide)

/-- `derive_noise_threshold_v8` (`lib.rs:539-546`). -/
def deriveNoiseThresholdV8 (kb nonce : List UInt8) : Nat :=
  let tau := u64FromBe8 (H kb (thresholdInput nonce)).toList
  thetaMin + (tau * (thetaMax - thetaMin)) >>> 64

/-- `is_noise_pos_v8` (`lib.rs:549-556`). -/
def isNoisePosV8 (kb nonce : List UInt8) (ctPos theta : Nat) : Bool :=
  u64FromBe8 (H kb (noisePosInput nonce ctPos)).toList < theta

/-- The modulus `key_element - 1` underflows at 0 and is zero at 1; both panic. -/
def addendOf (digest : List UInt8) (keyElement : Nat) : RustM ε Nat :=
  if keyElement = 0 then panics "attempt to subtract with overflow"
  else if keyElement = 1 then
    panics "attempt to calculate the remainder with a divisor of zero"
  else .ok (u32FromBe4 digest % (keyElement - 1) + 1)

/-- `derive_addend` (`lib.rs:389-403`). -/
def deriveAddend (kb nonce : List UInt8) (realIdx keyElement : Nat) : RustM ε Nat :=
  addendOf (H kb (addendInput nonce realIdx)).toList keyElement

/-- `derive_noise_char` (`lib.rs:405-413`). -/
def deriveNoiseChar (kb nonce : List UInt8) (ctPos : Nat) : Nat :=
  u32FromBe4 (H kb (noiseCharInput nonce ctPos)).toList % noiseAlphabet + asciiPrintableBase

/-- `derive_noise_token_addend` (`lib.rs:415-428`). -/
def deriveNoiseTokenAddend (kb nonce : List UInt8) (ctPos keyElement : Nat) : RustM ε Nat :=
  addendOf (H kb (noiseAddendInput nonce ctPos)).toList keyElement

/-- The padding codepoint of `pad_to_block` (`lib.rs:725-733`), in `[32, 126]`. -/
def derivePadChar (kb nonce : List UInt8) (i : Nat) : Nat :=
  u32FromBe4 (H kb (padInput nonce i)).toList % padAlphabet + asciiPrintableBase

/-- `compute_auth_tag` (`lib.rs:565-575`) at the v8 width; the payload is split after the
nonce. -/
def computeAuthTag (kb aad payload : List UInt8) : FixedBytes tagSize :=
  H kb (authTagInput aad (payload.take nonceSize) (payload.drop nonceSize))

/-- `stream_v8_count_mask` (`lib.rs:2055-2066`). -/
def streamV8CountMask (skFmt : List UInt8) (f : Nat) (nonce : List UInt8) (chunkCount : Nat) :
    Nat :=
  u64FromBe8 (H skFmt (countMaskInput f nonce chunkCount)).toList

/-- `derive_stream_v8_sub_nonce` (`lib.rs:2069-2082`). -/
def deriveStreamV8SubNonce (skFmt nonce : List UInt8) (chunkIdx : Nat) : FixedBytes nonceSize :=
  (H skFmt (subNonceInput nonce chunkIdx)).take nonceSize (by decide)

/-- `derive_stream_v8_filler_cp` (`lib.rs:2088-2102`). -/
def deriveStreamV8FillerCp (skFmt subNonce : List UInt8) (fillIdx : Nat) : Nat :=
  u32FromBe4 (H skFmt (padInput subNonce fillIdx)).toList % padAlphabet + asciiPrintableBase

/-- `compute_stream_v8_chunk_tag` (`lib.rs:2212-2228`). -/
def computeStreamV8ChunkTag (skFmt : List UInt8) (f : Nat) (nonce : List UInt8) (chunkIdx : Nat)
    (aad maskedChunk : List UInt8) : FixedBytes tagSize :=
  H skFmt (chunkTagInput f nonce chunkIdx aad maskedChunk)

/-- `compute_stream_v8_sentinel_tag` (`lib.rs:2231-2247`). -/
def computeStreamV8SentinelTag (skFmt : List UInt8) (f : Nat) (nonce : List UInt8)
    (chunkCount : Nat) (aad : List UInt8) (totalRealCps : Nat) : FixedBytes tagSize :=
  H skFmt (sentinelTagInput f nonce chunkCount aad totalRealCps)

end

/-! ## Ranges -/

/-- The addend of a usable key element, as a plain number. -/
def addendVal (digest : List UInt8) (keyElement : Nat) : Nat :=
  u32FromBe4 digest % (keyElement - 1) + 1

theorem addendOf_eq_ok (digest : List UInt8) {k : Nat} (hk : 2 ≤ k) :
    (addendOf digest k : RustM ε Nat) = .ok (addendVal digest k) := by
  unfold addendOf addendVal
  rw [if_neg (by omega), if_neg (by omega)]

theorem addendVal_lt (digest : List UInt8) {k : Nat} (hk : 2 ≤ k) : addendVal digest k < k := by
  have := Nat.mod_lt (u32FromBe4 digest) (show k - 1 > 0 by omega)
  unfold addendVal
  omega

theorem deriveNoiseChar_lt (H : Hmac) (kb nonce : List UInt8) (ctPos : Nat) :
    deriveNoiseChar H kb nonce ctPos < 128 := by
  have := Nat.mod_lt (u32FromBe4 (H kb (noiseCharInput nonce ctPos)).toList)
    (show noiseAlphabet > 0 by decide)
  simp only [deriveNoiseChar, noiseAlphabet, asciiPrintableBase] at this ⊢
  omega

theorem derivePadChar_lt (H : Hmac) (kb nonce : List UInt8) (i : Nat) :
    derivePadChar H kb nonce i < 127 := by
  have := Nat.mod_lt (u32FromBe4 (H kb (padInput nonce i)).toList)
    (show padAlphabet > 0 by decide)
  simp only [derivePadChar, padAlphabet, asciiPrintableBase] at this ⊢
  omega

@[simp] theorem length_streamV8Header (f : Nat) {nonce : List UInt8}
    (h : nonce.length = nonceSize) : (streamV8Header f nonce).length = 21 := by
  simp [streamV8Header, h, nonceSize]

end Napqes.Rust
