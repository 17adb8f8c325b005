import Napqes.Rust.Counters

/-!
# The v8 decoders with every operation checked (`rust/src/lib.rs:539-575, 748-795, 948-1035,
1158-1173, 1808-1862, 2162-2247, 2459-2591`)

The decoders once more, as a build with overflow checks and debug assertions runs them on bytes
that nobody vouches for: every index, slice, division, sum and difference of the source is an
operation that may panic, and the stream decoder keeps its position as a number. Slices of arrays
of a fixed size (digests, nonces) are in range by their type.
-/

namespace Napqes.Rust

variable {ε : Type}

section
variable (H : Hmac)

/-! ## Derivations -/

/-- `derive_noise_threshold_v8` (`lib.rs:539-546`); the product is a `u128`. -/
def deriveNoiseThresholdV8Checked (kb nonce : List UInt8) : RustM ε Nat := do
  let tau := u64FromBe8 (H kb (thresholdInput nonce)).toList
  let span ← checkedSub thetaMax thetaMin
  if tau * span < 2 ^ 128 then u64 (thetaMin + (tau * span) >>> 64)
  else panics "attempt to multiply with overflow"

/-- `primes[(real_idx % kk) as usize]`. -/
def keyAtChecked (primes : List Nat) (realIdx : Nat) : RustM ε Nat := do
  let i ← checkedRem realIdx primes.length
  index primes i

/-- `Vec::with_capacity(a + b + ...)`: the sum of the parts of an HMAC input. -/
def capacity : List Nat → RustM ε Nat
  | [] => .ok 0
  | part :: parts => do
      let rest ← capacity parts
      u64 (part + rest)

/-- `compute_auth_tag` (`lib.rs:565-575`) at the v8 width, compared with the received tag;
`split_at` panics on a payload shorter than a nonce. -/
def verifyAuthTagChecked (kb : List UInt8) (aad : ByteSlice) (payload recvTag : List UInt8) :
    RustM ε Bool := do
  let nonce ← slice payload 0 nonceSize
  let maskedBlob ← slice payload nonceSize payload.length
  let _ ← capacity [1, nonce.length, aadLenWidthV8, aad.bytes.length, maskedBlob.length]
  return hmacVerify H kb (authTagInput aad.bytes nonce maskedBlob) recvTag

/-- `compute_stream_v8_chunk_tag` (`lib.rs:2212-2228`), compared with the received tag. -/
def verifyChunkTagChecked (skFmt : List UInt8) (f : Nat) (nonce : FixedBytes nonceSize)
    (chunkIdx : Nat) (aad : ByteSlice) (maskedChunk recvTag : List UInt8) : RustM ε Bool := do
  let _ ← capacity [1, 21, 4, aadLenWidthV8, aad.bytes.length, maskedChunk.length]
  return hmacVerify H skFmt (chunkTagInput f nonce chunkIdx aad.bytes maskedChunk) recvTag

/-- `compute_stream_v8_sentinel_tag` (`lib.rs:2231-2247`), compared with the received tag. -/
def verifySentinelTagChecked (skFmt : List UInt8) (f : Nat) (nonce : FixedBytes nonceSize)
    (chunkCount : Nat) (aad : ByteSlice) (totalRealCps : Nat) (recvTag : List UInt8) :
    RustM ε Bool := do
  let _ ← capacity [1, 21, 4, aadLenWidthV8, aad.bytes.length, 8]
  return hmacVerify H skFmt (sentinelTagInput f nonce chunkCount aad.bytes totalRealCps) recvTag

/-- `varint_keystream` (`lib.rs:748-759`) with the sum of its capacity. -/
def varintKeystreamChecked (kb nonce : List UInt8) (length : Nat) : RustM ε (List UInt8) := do
  let _ ← u64 (length + 32)
  varintKeystream H kb nonce length

/-! ## Tokens -/

/-- `copy_from_slice` of a chunk into a token buffer. -/
def tokenOfChunk (chunk : List UInt8) : RustM ε Nat :=
  if chunk.length = tokenWidth then .ok (beNat chunk)
  else panics "source slice length does not match destination slice length"

/-- `fixed_decode_tokens` (`lib.rs:1158-1173`). -/
def fixedDecodeTokensChecked (data : List UInt8) : RustM String (List Nat) := do
  let len := data.length
  let rest ← checkedRem data.length tokenWidth
  if rest ≠ 0 then
    err s!"fixed-width token blob length ({len}) is not a multiple of {tokenWidth}"
  else
    let count ← checkedDiv data.length tokenWidth
    (chunksExact tokenWidth count data).mapM tokenOfChunk

/-- The noise-skipping loop of the decoders (`lib.rs:984-991`, `lib.rs:2178-2184`). -/
def skipNoiseV8Checked (kb nonce : List UInt8) (noiseTheta nTokens : Nat) (noiseRun ctPos : Nat) :
    RustM ε (Nat × Nat) := do
  if _h : noiseRun < maxNoiseRun ∧ ctPos < nTokens then
    let isNoise ← isNoisePosV8Checked H kb nonce ctPos noiseTheta
    if isNoise then
      let ctPos ← u64 (ctPos + 1)
      let _ ← u64 (noiseRun + 1)
      skipNoiseV8Checked kb nonce noiseTheta nTokens (noiseRun + 1) ctPos
    else return (noiseRun, ctPos)
  else return (noiseRun, ctPos)
termination_by maxNoiseRun - noiseRun

/-- `token < addend || (token - addend) % k != 0`: the difference only when it exists. -/
def misfitsChecked (token addend k : Nat) : RustM ε Bool :=
  if token < addend then return true
  else do
    let diff ← checkedSub token addend
    let rest ← checkedRem diff k
    return rest ≠ 0

/-- The main loop of `decrypt_core_v8` and `decrypt_v8_stream_chunk_core`. -/
def readTokensV8Checked (errors : TokenErrors) (primes : List Nat) (kb nonce : List UInt8)
    (noiseTheta : Nat) (tokens : List Nat) (realCount : Nat) (realIdx ctPos : Nat)
    (codepoints : List Nat) : RustM String (List Nat) :=
  if realIdx < realCount then do
    let scan ← skipNoiseV8Checked H kb nonce noiseTheta tokens.length 0 ctPos
    if scan.2 ≥ tokens.length then
      err (errors.truncated scan.2 tokens.length realIdx realCount scan.1)
    else
      let k ← keyAtChecked primes realIdx
      let addend ← deriveAddendChecked H kb nonce realIdx k
      let token ← index tokens scan.2
      let misfits ← misfitsChecked token addend k
      if misfits then err (errors.malformed scan.2 k)
      else
        let diff ← checkedSub token addend
        let cp ← checkedDiv diff k
        if ¬ IsScalar cp then err (errors.notScalar cp scan.2)
        else
          let ctPos ← u64 (scan.2 + 1)
          let _ ← u64 (realIdx + 1)
          readTokensV8Checked errors primes kb nonce noiseTheta tokens realCount (realIdx + 1) ctPos
            (codepoints ++ [cp])
  else .ok codepoints
termination_by realCount - realIdx

/-- `unpad_message` (`lib.rs:769-795`). -/
def unpadMessageChecked (padded : List Nat) : RustM String (List Nat) :=
  if padded.length < 2 then err "Padded message too short to contain length prefix."
  else do
    let hi ← index padded 0
    let lo ← index padded 1
    if hi > 0xFF ∨ lo > 0xFF then
      err (s!"Malformed length prefix: codepoints ({hi}, {lo}) are not byte-valued " ++
        "(CVF-43).")
    else
      let n := (hi <<< 8) ||| lo
      let stop ← u64 (2 + n)
      if stop > padded.length then
        let available ← checkedSub padded.length 2
        err s!"Length prefix ({n}) exceeds available data ({available} codepoints)."
      else slice padded 2 stop

/-- `decrypt_core_v8` (`lib.rs:948-1035`); `checked_sub` is no difference that panics. -/
def decryptCoreV8Checked (nonce : List UInt8) (cypher primes : List Nat) (kb : List UInt8) :
    RustM String (List Nat) := do
  let ceilingUnit ← u64 (maxNoiseRun + 1)
  let nTokens := cypher.length
  let rest ← checkedRem nTokens ceilingUnit
  if rest ≠ 0 then
    err ("Malformed v8 ciphertext: token count is not a multiple of the padding ceiling; " ++
      "expected exactly real_token_count * (MAX_NOISE_RUN + 1) tokens.")
  else
    let realCount ← checkedDiv nTokens ceilingUnit
    let b := realCount - 2
    if 2 ≤ realCount ∧ b.isPowerOfTwo ∧ padMinExp ≤ trailingZeros 64 b ∧
        trailingZeros 64 b ≤ padMaxExp then
      let noiseTheta ← deriveNoiseThresholdV8Checked H kb nonce
      let padded ← readTokensV8Checked H blockTokenErrors primes kb nonce noiseTheta cypher
        realCount 0 0 []
      unpadMessageChecked padded
    else
      let lo ← checkedShl padMinExp
      let hi ← checkedShl padMaxExp
      err (s!"Malformed v8 ciphertext: real-token count {realCount} is not B + 2 for any " ++
        s!"reachable padded block size B in [{lo}, {hi}].")

/-- `decrypt_v8_stream_chunk_core` (`lib.rs:2162-2209`). -/
def decryptV8StreamChunkCoreChecked (chunkTokens primes : List Nat) (skFmt subNonce : List UInt8)
    (f : Nat) : RustM String (List Nat) := do
  let noiseTheta ← deriveNoiseThresholdV8Checked H skFmt subNonce
  readTokensV8Checked H chunkTokenErrors primes skFmt subNonce noiseTheta chunkTokens f 0 0 []

/-! ## Blocks -/

/-- `decrypt_bytes_v8_core_inner` (`lib.rs:1833-1862`). -/
def decryptBytesV8CoreInnerChecked (skFmt : FixedBytes 32) (ciphertext : List UInt8)
    (primes : List Nat) (aad : ByteSlice) : RustM String Str := do
  let split ← checkedSub ciphertext.length tagSize
  let payload ← slice ciphertext 0 split
  let recvTag ← slice ciphertext split ciphertext.length
  let matched ← verifyAuthTagChecked H skFmt aad payload recvTag
  if ¬ matched then err "Authentication failed: invalid HMAC tag."
  else
    let nonce ← slice payload 0 nonceSize
    let masked ← slice payload nonceSize payload.length
    let ks ← varintKeystreamChecked H skFmt nonce masked.length
    let blob := xorBytes masked ks
    let tokens ← mapErr (fun e => s!"varint decode error: {e}") (fixedDecodeTokensChecked blob)
    let codepoints ← decryptCoreV8Checked H nonce tokens primes skFmt
    collectString codepoints

/-- `decrypt_bytes_v8_core` (`lib.rs:1808-1831`). -/
def decryptBytesV8CoreChecked (ciphertext : List UInt8) (primes : List Nat)
    (sk : FixedBytes skSize) (aad : ByteSlice) : RustM String Str := do
  let len := ciphertext.length
  let header ← u64 (nonceSize + tagSize)
  if ciphertext.length < header then
    err s!"Ciphertext too short: {len} bytes; header+tag require at least {header}."
  else
    let blobLen ← checkedSub ciphertext.length nonceSize
    let blobLen ← checkedSub blobLen tagSize
    let unit ← u64 (tokenWidth * (maxNoiseRun + 1))
    let rest ← checkedRem blobLen unit
    if rest ≠ 0 then
      err ("Malformed v8 ciphertext: token count is not a multiple of the padding ceiling; " ++
        "expected exactly real_token_count * (MAX_NOISE_RUN + 1) tokens.")
    else
      let skFmt := deriveFormatSubkey H sk formatBlockV8
      decryptBytesV8CoreInnerChecked H skFmt ciphertext primes aad

/-- `decrypt_bytes_v8` (`lib.rs:1793-1804`). -/
def decryptBytesV8Checked (ciphertext : List UInt8) (primes : List Nat) (sk : FixedBytes skSize)
    (aad : ByteSlice) : RustM String Str := do
  validateKey primes
  decryptBytesV8CoreChecked H ciphertext primes sk aad

/-! ## Streams -/

section
variable (primes : List Nat) (skFmt : FixedBytes 32) (aad : ByteSlice) (f : Nat)
  (nonce : FixedBytes nonceSize) (stream : List UInt8)

/-- The sentinel branch of the frame loop (`lib.rs:2505-2554`); `pos` is behind the length. -/
def readStreamSentinelChecked (pos chunkIdx : Nat) (delivered : List Nat)
    (pending : Option (List Nat)) : RustM String Str := do
  let stop ← u64 (pos + 8 + tagSize)
  if stream.length < stop then err "Stream truncated: need sentinel body."
  else
    let count ← slice stream pos (pos + 8)
    let totalRealCps := u64FromBe8 count ^^^ streamV8CountMask H skFmt f nonce chunkIdx
    let recvTag ← slice stream (pos + 8) (pos + 8 + tagSize)
    let matched ← verifySentinelTagChecked H skFmt f nonce chunkIdx aad totalRealCps recvTag
    if ¬ matched then err "Authentication failed: invalid v8 stream sentinel tag."
    else
      let pendingLen := (pending.map List.length).getD 0
      let deliveredLen := delivered.length
      let available ← u64 (deliveredLen + pendingLen)
      if ¬ streamCountConsistent pending totalRealCps deliveredLen available then
        err (s!"Malformed v8 stream sentinel: total_real_codepoints {totalRealCps} " ++
          s!"inconsistent with decoded stream ({deliveredLen} delivered + {pendingLen} pending).")
      else
        let delivered ← (match pending with
          | some p => do
              let keep ← checkedSub totalRealCps deliveredLen
              pure (delivered ++ p.take keep)
          | none => pure delivered)
        if stop ≠ stream.length then
          let extra ← checkedSub stream.length stop
          err s!"Trailing bytes after sentinel: {extra} extra bytes."
        else collectStreamString delivered

/-- The frame loop of `decrypt_stream_ae_v8_inner` (`lib.rs:2495-2590`). -/
def decryptStreamLoopChecked (pos chunkIdx : Nat) (delivered : List Nat)
    (pending : Option (List Nat)) : RustM String Str := do
  let unit ← u64 (maxNoiseRun + 1)
  let expectedChunkBodyLen ← u64 (f * tokenWidth * unit)
  let _ ← u64 (pos + 4)
  if _h : stream.length < pos + 4 then
    err "Stream truncated: need 4-byte chunk length prefix."
  else
    let chunkLen := beNat (← slice stream pos (pos + 4))
    if chunkLen = 0 then
      readStreamSentinelChecked H skFmt aad f nonce stream (pos + 4) chunkIdx delivered pending
    else if chunkLen ≠ expectedChunkBodyLen then
      err (s!"Malformed v8 stream frame: chunk length {chunkLen} does not match the fixed " ++
        s!"frame size {expectedChunkBodyLen} (= F*{tokenWidth}*{unit} for F={f}).")
    else
      let _ ← u64 (pos + 4 + chunkLen + tagSize)
      if stream.length < pos + 4 + chunkLen + tagSize then err "Stream truncated mid-frame."
      else
        let masked ← slice stream (pos + 4) (pos + 4 + chunkLen)
        let recvTag ← slice stream (pos + 4 + chunkLen) (pos + 4 + chunkLen + tagSize)
        let matched ← verifyChunkTagChecked H skFmt f nonce chunkIdx aad masked recvTag
        if ¬ matched then
          err s!"Authentication failed: invalid tag on v8 stream chunk {chunkIdx}."
        else
          let next ← nextStreamChunkIdx chunkIdx
          let subNonce := deriveStreamV8SubNonce H skFmt nonce chunkIdx
          let ks ← varintKeystreamChecked H skFmt subNonce chunkLen
          let blob := xorBytes masked ks
          let tokens ← fixedDecodeTokensChecked blob
          let cps ← decryptV8StreamChunkCoreChecked H tokens primes skFmt subNonce f
          let delivered := delivered ++ pending.getD []
          decryptStreamLoopChecked (pos + 4 + chunkLen + tagSize) next delivered (some cps)
termination_by stream.length - pos
decreasing_by omega

end

/-- `decrypt_stream_ae_v8_inner` (`lib.rs:2459-2591`). -/
def decryptStreamAeV8InnerChecked (stream : List UInt8) (primes : List Nat)
    (skFmt : FixedBytes 32) (aad : ByteSlice) : RustM String Str := do
  let len := stream.length
  let header ← u64 (1 + 4 + nonceSize)
  if stream.length < header then
    err s!"Stream truncated: need at least 21 header bytes, got {len}"
  else
    let formatId ← index stream 0
    let got := hex02 formatId
    let expected := hex02 formatStreamAeV8
    if formatId ≠ formatStreamAeV8 then
      err s!"Unexpected format id 0x{got}; expected 0x{expected} (FORMAT_STREAM_AE_V8)"
    else
      let f := beNat (← slice stream 1 5)
      if f < 1 ∨ f > streamAeV8MaxFrame then
        err (s!"Malformed v8 stream header: frame_codepoints F={f} out of " ++
          s!"[1, {streamAeV8MaxFrame}].")
      else
        let nonce ← slice stream 5 (5 + nonceSize)
        decryptStreamLoopChecked H primes skFmt aad f (FixedBytes.ofList nonceSize nonce) stream
          header 0 [] none

end

end Napqes.Rust
