import Napqes.C.Stream
import Napqes.Format.SubNonces

/-!
# v8 stream encryption of the C port (`C/napqes.c:1299-1306, 1408-1460, 1504-1636`)

`size_t` has 64 bits and every allocation succeeds. A write past the end of the allocated stream is
undefined. The encryptor is a generator: `derive_stream_v8_sub_nonce` hands out what it is given,
wherever it is called. `chunk` counts the chunks and is no variable of the source.
-/

namespace Napqes.C

section
variable (H : Hmac)

/-- `deriveStreamV8SubNonce`, handed out. -/
def deriveStreamV8SubNonceUse (skFmt nonce : List UInt8) (chunk idx : Nat) :
    Gen Fault SubNonceUse (FixedBytes nonceSize) := do
  Gen.yield ⟨chunk, idx⟩
  return deriveStreamV8SubNonce H skFmt nonce idx

/-- `derive_stream_v8_filler_cp` (`napqes.c:1302-1306`). -/
def deriveStreamV8FillerCp (skFmt subNonce : List UInt8) (fillIdx : Nat) : Nat :=
  derivePadChar H skFmt subNonce fillIdx

/-- `encrypt_v8_stream_chunk_core` (`napqes.c:1408-1460`). -/
def encryptV8StreamChunkCore (chunkCps : List Nat) (primes : List UInt64)
    (skFmt subNonce : List UInt8) : CM (List UInt8) :=
  if primes.length = 0 then null
  else
    let noiseTheta := deriveNoiseThresholdV8 H skFmt subNonce
    emitTokensV8 H chunkCps primes skFmt subNonce noiseTheta

/-- `emit_stream_v8_chunk` (`napqes.c:1504-1537`). -/
def emitStreamV8Chunk (chunkCps : List Nat) (f chunk idx : Nat) (primes : List UInt64)
    (skFmt nonce aad : List UInt8) : Gen Fault SubNonceUse (List UInt8) := do
  let subNonce ← deriveStreamV8SubNonceUse H skFmt nonce chunk idx
  let blob ← encryptV8StreamChunkCore H chunkCps primes skFmt subNonce
  let ks ← varintKeystreamAlloc H skFmt subNonce blob.length
  let blob := xorBytes blob ks
  let tag := computeStreamV8ChunkTag H skFmt f nonce idx aad blob
  return be4Write blob.length ++ (blob ++ tag.toList)

/-- Write at `pos`, the end of what has been written, into a stream of `total` bytes. -/
def writeStream (total : Nat) (stream bytes : List UInt8) : CM (List UInt8) :=
  if stream.length + bytes.length > total then .error (.undefined "access outside an array")
  else .ok (stream ++ bytes)

/-- The variables of the loop of `encrypt_stream_v8_impl`; `pos` is the length of `stream` and
`buf_n` that of `cpBuf`. -/
structure StreamState where
  stream : List UInt8
  cpBuf : List Nat
  totalRealCps : Nat
  chunkIdx : Nat
  chunk : Nat

section
variable (primes : List UInt64) (skFmt nonce aad : List UInt8) (f total : Nat)

/-- Emit a chunk and count it (`napqes.c:1586-1594, 1607-1614`); `chunk_idx` has 32 bits. -/
def emitChunk (st : StreamState) (chunkCps : List Nat) (totalRealCps : Nat) :
    Gen Fault SubNonceUse StreamState := do
  let frame ← emitStreamV8Chunk H chunkCps f st.chunk st.chunkIdx primes skFmt nonce aad
  let stream ← writeStream total st.stream frame
  return { stream, cpBuf := [], totalRealCps, chunkIdx := (st.chunkIdx + 1) % 2 ^ 32,
           chunk := st.chunk + 1 }

/-- The loop over the bytes of the message (`napqes.c:1581-1596`). -/
def encryptStreamLoop : List UInt8 → StreamState → Gen Fault SubNonceUse StreamState
  | [], st => return st
  | b :: message, st => do
      let cpBuf := st.cpBuf ++ [b.toNat]
      let totalRealCps := (st.totalRealCps + 1) % 2 ^ 64
      if cpBuf.length ≥ f then
        let st ← emitChunk H primes skFmt nonce aad f total st cpBuf totalRealCps
        encryptStreamLoop message st
      else encryptStreamLoop message { st with cpBuf, totalRealCps }

/-- The partial last chunk (`napqes.c:1598-1615`). -/
def flushStreamChunk (st : StreamState) : Gen Fault SubNonceUse StreamState :=
  if st.cpBuf.length > 0 then do
    let subNonceLast ← deriveStreamV8SubNonceUse H skFmt nonce st.chunk st.chunkIdx
    let fillNeeded := f - st.cpBuf.length
    let filler := (List.range fillNeeded).map (deriveStreamV8FillerCp H skFmt subNonceLast)
    emitChunk H primes skFmt nonce aad f total st (st.cpBuf ++ filler) st.totalRealCps
  else return st

end

/-- The sentinel (`napqes.c:1619-1630`). -/
def streamSentinel (skFmt nonce aad : List UInt8) (f chunkIdx totalRealCps : Nat) : List UInt8 :=
  let maskedTotal := totalRealCps ^^^ streamV8CountMask H skFmt f nonce chunkIdx
  let sentinelTag := computeStreamV8SentinelTag H skFmt f nonce chunkIdx aad totalRealCps
  [0, 0, 0, 0] ++ (beWriteLoop 8 maskedTotal ++ sentinelTag.toList)

/-- The length that `encrypt_stream_v8_impl` allocates (`napqes.c:1553-1555`). -/
def streamTotal (msgLen f : Nat) : Nat :=
  let nChunks := (msgLen + f - 1) % 2 ^ 64 / f
  let chunkFrameLen := 4 + f * 160 + tagSize
  (21 + nChunks * chunkFrameLen + 44) % 2 ^ 64

/-- `encrypt_stream_v8_impl` (`napqes.c:1541-1636`), with the sub-nonce derivations it makes. -/
def encryptStreamV8Impl (message : List UInt8) (primes : List UInt64) (sk : FixedBytes skSize)
    (nonce : FixedBytes nonceSize) (aad : List UInt8) (f : Nat) :
    Gen Fault SubNonceUse (List UInt8) :=
  if !validateKey primes then Gen.lift null
  else if f < 1 ∨ f > streamAeV8MaxFrame then Gen.lift null
  else do
    let msgLen ← strlen message
    let total := streamTotal msgLen f
    let stream ← writeStream total [] (streamV8Header f nonce)
    let skFmt := deriveFormatSubkey H sk formatStreamAeV8
    let st ← encryptStreamLoop H primes skFmt nonce aad f total (message.take msgLen)
      { stream, cpBuf := [], totalRealCps := 0, chunkIdx := 0, chunk := 0 }
    let st ← flushStreamChunk H primes skFmt nonce aad f total st
    let stream ← writeStream total st.stream
      (streamSentinel H skFmt nonce aad f st.chunkIdx st.totalRealCps)
    if stream.length ≠ total then Gen.lift null else return stream

end

end Napqes.C
