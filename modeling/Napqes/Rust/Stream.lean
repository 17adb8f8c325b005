import Napqes.Rust.Block

/-!
# v8 streaming encryption and decryption (`rust/src/lib.rs:2249-2591`)

The stream is `header || frame_0 || ... || frame_{C-1} || sentinel`. The encryptor fills a
buffer of `F` codepoints and emits a frame whenever it is full; the decryptor reads frames
from left to right and holds the last decoded chunk back until the sentinel says how much of
it is real. The decryptor's `pos` is represented by the unread rest of the stream.
-/

namespace Napqes.Rust

/-- `STREAM_AE_V8_MAX_FRAME` (`lib.rs:2027`). -/
def streamAeV8MaxFrame : Nat := 16384

/-- `validate_stream_v8_frame` (`lib.rs:2250-2258`). -/
def validateStreamV8Frame (f : Nat) : RustM String PUnit :=
  if f < 1 ∨ f > streamAeV8MaxFrame then
    err s!"frame_codepoints must be in [1, {streamAeV8MaxFrame}], got {f}"
  else .ok ⟨⟩

/-- `next_stream_chunk_idx` (`lib.rs:2363-2367`): `checked_add` on a `u32`. -/
def nextStreamChunkIdx (chunkIdx : Nat) : RustM String Nat :=
  if chunkIdx + 1 < 2 ^ 32 then .ok (chunkIdx + 1)
  else err "v8 stream exceeds the 2^32 - 1 chunk limit."

section
variable (H : Hmac)

/-- `encrypt_v8_stream_chunk_core` (`lib.rs:2106-2113`). -/
def encryptV8StreamChunkCore (chunkCps primes : List Nat) (skFmt : FixedBytes 32)
    (subNonce : FixedBytes nonceSize) : RustM Empty (List Nat) :=
  emitTokensV8 H chunkCps primes skFmt subNonce

/-- `emit_stream_v8_chunk` (`lib.rs:2261-2280`). -/
def emitStreamV8Chunk (codepointsF : List Nat) (idx : Nat) (primes : List Nat)
    (skFmt : FixedBytes 32) (nonce : FixedBytes nonceSize) (aad : List UInt8) :
    RustM Empty (List UInt8) := do
  let subNonce := deriveStreamV8SubNonce H skFmt nonce idx
  let tokens ← encryptV8StreamChunkCore H codepointsF primes skFmt subNonce
  let blob := fixedEncodeTokens tokens
  let ks ← varintKeystream H skFmt subNonce blob.length
  let masked := xorBytes blob ks
  let tag := computeStreamV8ChunkTag H skFmt codepointsF.length nonce idx aad masked
  return beBytes 4 masked.length ++ (masked ++ tag.toList)

/-! ## Encryption -/

/-- The variables of the loop of `encrypt_stream_ae_v8_inner`. -/
structure StreamState where
  stream : List UInt8
  cpBuf : List Nat
  totalRealCps : Nat
  chunkIdx : Nat

/-- The filler of the last chunk (`lib.rs:2340-2343`). -/
def streamFiller (skFmt : FixedBytes 32) (nonce : FixedBytes nonceSize) (chunkIdx : Nat)
    (fillNeeded : Nat) : List Nat :=
  let subNonceLast := deriveStreamV8SubNonce H skFmt nonce chunkIdx
  (List.range fillNeeded).map (deriveStreamV8FillerCp H skFmt subNonceLast)

section
variable (primes : List Nat) (skFmt : FixedBytes 32) (nonce : FixedBytes nonceSize)
  (aad : List UInt8) (frameCodepoints : Nat)

/-- The `for ch in plaintext.chars()` loop (`lib.rs:2327-2337`). -/
def encryptStreamLoop : Str → StreamState → RustM String StreamState
  | [], st => .ok st
  | ch :: rest, st => do
      let cpBuf := st.cpBuf ++ [ch.toNat]
      let totalRealCps ← u64 (st.totalRealCps + 1)
      if cpBuf.length ≥ frameCodepoints then
        let next ← nextStreamChunkIdx st.chunkIdx
        let frame ← infallible (emitStreamV8Chunk H (cpBuf.take frameCodepoints) st.chunkIdx
          primes skFmt nonce aad)
        encryptStreamLoop rest
          { stream := st.stream ++ frame
            cpBuf := cpBuf.drop frameCodepoints
            totalRealCps
            chunkIdx := next }
      else encryptStreamLoop rest { st with cpBuf, totalRealCps }

/-- The flush of a partial last chunk (`lib.rs:2339-2349`); `f - cp_buf.len()` panics when the
buffer holds more than a frame. -/
def flushStreamChunk (st : StreamState) : RustM String StreamState :=
  if st.cpBuf.isEmpty then .ok st
  else do
    let next ← nextStreamChunkIdx st.chunkIdx
    if st.cpBuf.length > frameCodepoints then panics "attempt to subtract with overflow"
    else
      let cpBuf := st.cpBuf ++ streamFiller H skFmt nonce st.chunkIdx
        (frameCodepoints - st.cpBuf.length)
      let frame ← infallible (emitStreamV8Chunk H cpBuf st.chunkIdx primes skFmt nonce aad)
      return { st with stream := st.stream ++ frame, cpBuf, chunkIdx := next }

/-- The sentinel bytes (`lib.rs:2351-2356`): `be4(0) || be8(total ^ mask) || tag`. -/
def streamSentinel (chunkIdx totalRealCps : Nat) : List UInt8 :=
  let sentinelTag := computeStreamV8SentinelTag H skFmt frameCodepoints nonce chunkIdx aad
    totalRealCps
  let mask := streamV8CountMask H skFmt frameCodepoints nonce chunkIdx
  beBytes 4 0 ++ (beBytes 8 (totalRealCps ^^^ mask) ++ sentinelTag.toList)

end

/-- `encrypt_stream_ae_v8_inner` (`lib.rs:2307-2359`). -/
def encryptStreamAeV8Inner (plaintext : Str) (primes : List Nat) (skFmt : FixedBytes 32)
    (nonce : FixedBytes nonceSize) (aad : List UInt8) (frameCodepoints : Nat) :
    RustM String (List UInt8) := do
  let st ← encryptStreamLoop H primes skFmt nonce aad frameCodepoints plaintext
    { stream := streamV8Header frameCodepoints nonce
      cpBuf := []
      totalRealCps := 0
      chunkIdx := 0 }
  let st ← flushStreamChunk H primes skFmt nonce aad frameCodepoints st
  return st.stream ++ streamSentinel H skFmt nonce aad frameCodepoints st.chunkIdx
    st.totalRealCps

/-- `encrypt_stream_ae_v8_with_nonce` (`lib.rs:2291-2304`); the public entry point calls it
with a nonce from the CSPRNG. -/
def encryptStreamAeV8WithNonce (plaintext : Str) (primes : List Nat) (sk : FixedBytes skSize)
    (nonce : FixedBytes nonceSize) (aad : List UInt8) (frameCodepoints : Nat) :
    RustM String (List UInt8) := do
  validateKey primes
  validateStreamV8Frame frameCodepoints
  let skFmt := deriveFormatSubkey H sk formatStreamAeV8
  encryptStreamAeV8Inner H plaintext primes skFmt nonce aad frameCodepoints

/-- `encrypt_stream_ae_v8_key` (`lib.rs:2404-2416`); `generateNonce` is what
`generate_nonce_with_crng_check` returns. -/
def encryptStreamAeV8Key (plaintext : Str) (key : NapqesKey) (aad : List UInt8)
    (frameCodepoints : Nat) (generateNonce : RustM String (FixedBytes nonceSize)) :
    RustM String (List UInt8) := do
  validateStreamV8Frame frameCodepoints
  let nonce ← generateNonce
  let skFmt := deriveFormatSubkey H key.sk formatStreamAeV8
  encryptStreamAeV8Inner H plaintext key.primes skFmt nonce aad frameCodepoints

/-! ## Decryption -/

/-- The final `collect` of `decrypt_stream_ae_v8_inner` (`lib.rs:2545-2552`). -/
def collectStreamString : List Nat → RustM String Str :=
  collectChars fun c => s!"Malformed v8 stream plaintext: {c} is not a Unicode scalar value."

/-- The test `consistent` on the announced count (`lib.rs:2523-2526`): the final chunk carries
at least one real codepoint. -/
def streamCountConsistent (pending : Option (List Nat))
    (totalRealCps deliveredLen available : Nat) : Bool :=
  match pending with
  | some _ => totalRealCps > deliveredLen && totalRealCps ≤ available
  | none => totalRealCps == deliveredLen

section
variable (verify : TagCheck) (primes : List Nat) (skFmt : FixedBytes 32) (aad : List UInt8)
  (f : Nat) (nonce : FixedBytes nonceSize)

/-- The sentinel branch of the frame loop (`lib.rs:2505-2554`); `rest` follows the zero
length prefix. -/
def readStreamSentinel (rest : List UInt8) (chunkIdx : Nat) (delivered : List Nat)
    (pending : Option (List Nat)) : RustM String Str :=
  if rest.length < 8 + tagSize then err "Stream truncated: need sentinel body."
  else
    let totalRealCps := u64FromBe8 (rest.take 8) ^^^ streamV8CountMask H skFmt f nonce chunkIdx
    let recvTag := (rest.drop 8).take tagSize
    if ¬ verify skFmt (sentinelTagInput f nonce chunkIdx aad totalRealCps) recvTag then
      err "Authentication failed: invalid v8 stream sentinel tag."
    else
      let rest := rest.drop (8 + tagSize)
      let pendingLen := (pending.map List.length).getD 0
      let deliveredLen := delivered.length
      let available := deliveredLen + pendingLen
      if ¬ streamCountConsistent pending totalRealCps deliveredLen available then
        err (s!"Malformed v8 stream sentinel: total_real_codepoints {totalRealCps} " ++
          s!"inconsistent with decoded stream ({deliveredLen} delivered + {pendingLen} pending).")
      else
        let delivered := match pending with
          | some p => delivered ++ p.take (totalRealCps - deliveredLen)
          | none => delivered
        let extra := rest.length
        if extra ≠ 0 then err s!"Trailing bytes after sentinel: {extra} extra bytes."
        else collectStreamString delivered

/-- The frame loop of `decrypt_stream_ae_v8_inner` (`lib.rs:2495-2590`). -/
def decryptStreamLoop (rest : List UInt8) (chunkIdx : Nat) (delivered : List Nat)
    (pending : Option (List Nat)) : RustM String Str :=
  let expectedChunkBodyLen := f * tokenWidth * (maxNoiseRun + 1)
  let unit := maxNoiseRun + 1
  if _h : rest.length < 4 then err "Stream truncated: need 4-byte chunk length prefix."
  else
    let chunkLen := beNat (rest.take 4)
    let rest' := rest.drop 4
    if chunkLen = 0 then
      readStreamSentinel H verify skFmt aad f nonce rest' chunkIdx delivered pending
    else if chunkLen ≠ expectedChunkBodyLen then
      err (s!"Malformed v8 stream frame: chunk length {chunkLen} does not match the fixed " ++
        s!"frame size {expectedChunkBodyLen} (= F*{tokenWidth}*{unit} for F={f}).")
    else if rest'.length < chunkLen + tagSize then err "Stream truncated mid-frame."
    else
      let masked := rest'.take chunkLen
      let recvTag := (rest'.drop chunkLen).take tagSize
      if ¬ verify skFmt (chunkTagInput f nonce chunkIdx aad masked) recvTag then
        err s!"Authentication failed: invalid tag on v8 stream chunk {chunkIdx}."
      else do
        let next ← nextStreamChunkIdx chunkIdx
        let subNonce := deriveStreamV8SubNonce H skFmt nonce chunkIdx
        let ks ← varintKeystream H skFmt subNonce chunkLen
        let blob := xorBytes masked ks
        let tokens ← fixedDecodeTokens blob
        let cps ← decryptV8StreamChunkCore H tokens primes skFmt subNonce f
        let delivered := delivered ++ pending.getD []
        decryptStreamLoop (rest'.drop (chunkLen + tagSize)) next delivered (some cps)
termination_by rest.length
decreasing_by
  simp only [List.length_drop]
  omega

end

/-- `decrypt_stream_ae_v8_inner` (`lib.rs:2459-2591`). -/
def decryptStreamAeV8Inner (verify : TagCheck) (stream : List UInt8) (primes : List Nat)
    (skFmt : FixedBytes 32) (aad : List UInt8) : RustM String Str :=
  let len := stream.length
  if stream.length < 21 then
    err s!"Stream truncated: need at least 21 header bytes, got {len}"
  else
    let formatId := stream.headD 0
    let got := hex02 formatId
    let expected := hex02 formatStreamAeV8
    if formatId ≠ formatStreamAeV8 then
      err s!"Unexpected format id 0x{got}; expected 0x{expected} (FORMAT_STREAM_AE_V8)"
    else
      let f := beNat ((stream.drop 1).take 4)
      if f < 1 ∨ f > streamAeV8MaxFrame then
        err (s!"Malformed v8 stream header: frame_codepoints F={f} out of " ++
          s!"[1, {streamAeV8MaxFrame}].")
      else
        let nonce := FixedBytes.ofList nonceSize ((stream.drop 5).take nonceSize)
        decryptStreamLoop H verify primes skFmt aad f nonce (stream.drop 21) 0 [] none

end

/-- `decrypt_stream_ae_v8` (`lib.rs:2444-2456`). -/
def decryptStreamAeV8 (H : Hmac) (stream : List UInt8) (primes : List Nat)
    (sk : FixedBytes skSize) (aad : List UInt8) : RustM String Str := do
  validateKey primes
  let skFmt := deriveFormatSubkey H sk formatStreamAeV8
  decryptStreamAeV8Inner H (hmacVerify H) stream primes skFmt aad

/-- `decrypt_stream_ae_v8_key` (`lib.rs:2421-2426`). -/
def decryptStreamAeV8Key (H : Hmac) (verify : TagCheck) (stream : List UInt8) (key : NapqesKey)
    (aad : List UInt8) : RustM String Str :=
  let skFmt := deriveFormatSubkey H key.sk formatStreamAeV8
  decryptStreamAeV8Inner H verify stream key.primes skFmt aad

end Napqes.Rust
