import Napqes.C.Block

/-!
# v8 stream decryption of the C port (`C/napqes.c:1464-1500, 1664-1763`)

The decoder computes the number of chunks from the length of the stream, checks the sentinel
first and then the frames.
-/

namespace Napqes.C

/-- `NAPQES_STREAM_AE_V8_MAX_FRAME` (`napqes.h:263`). -/
def streamAeV8MaxFrame : Nat := 16384

section
variable (H : Hmac)

/-- `decrypt_v8_stream_chunk_core` (`napqes.c:1464-1500`). -/
def decryptV8StreamChunkCore (blob : List UInt8) (primes : List UInt64)
    (skFmt subNonce : List UInt8) (f : Nat) : CM (List Nat) :=
  if primes.length = 0 then null
  else if blob.length ≠ f * tokenWidth * (maxNoiseRun + 1) then null
  else
    let noiseTheta := deriveNoiseThresholdV8 H skFmt subNonce
    let nTokens := blob.length / tokenWidth
    readTokensV8 H primes skFmt subNonce noiseTheta blob nTokens f 0 0 []

/-- The loop over the frames (`napqes.c:1719-1750`). Copying more codepoints than a chunk holds
or than `plain` was allocated for is undefined. -/
def decryptStreamChunks (primes : List UInt64) (skFmt nonce aad : List UInt8) (f : Nat)
    (stream : List UInt8) (nChunks totalRealCps i : Nat) (plain : List Nat) : CM (List Nat) :=
  if i < nChunks then
    let expectedBodyLen := f * tokenWidth * (maxNoiseRun + 1)
    let frameLen := 4 + expectedBodyLen + tagSize
    let frame := stream.drop (21 + i * frameLen)
    let bodyLen := u32FromBe4 frame
    if bodyLen ≠ expectedBodyLen then null
    else
      let masked := (frame.drop 4).take bodyLen
      let recvTag := (frame.drop (4 + bodyLen)).take tagSize
      let calcTag := computeStreamV8ChunkTag H skFmt f nonce i aad masked
      if !constantTimeEq recvTag calcTag.toList tagSize then null
      else do
        let subNonce := deriveStreamV8SubNonce H skFmt nonce i
        let ks ← varintKeystreamAlloc H skFmt subNonce bodyLen
        let blob := xorBytes masked ks
        let cps ← decryptV8StreamChunkCore H blob primes skFmt subNonce f
        let keep := if i + 1 = nChunks then totalRealCps - plain.length else f
        if keep > cps.length ∨ plain.length + keep > totalRealCps then
          .error (.undefined "access outside an array")
        else
          decryptStreamChunks primes skFmt nonce aad f stream nChunks totalRealCps (i + 1)
            (plain ++ cps.take keep)
  else .ok plain
termination_by nChunks - i

/-- `napqes_decrypt_stream_ae_v8_bytes` (`napqes.c:1664-1763`); the result is the returned
buffer, with its final `NUL`. -/
def napqesDecryptStreamAeV8Bytes (stream : List UInt8) (primes : List UInt64)
    (sk : FixedBytes skSize) (aad : List UInt8) : CM (List UInt8) :=
  if !validateKey primes then null
  else if stream.length < 21 then null
  else if stream.head? ≠ some formatStreamAeV8 then null
  else
    let f := u32FromBe4 (stream.drop 1)
    if f < 1 ∨ f > streamAeV8MaxFrame then null
    else
      let nonce := (stream.drop 5).take nonceSize
      let skFmt := deriveFormatSubkey H sk formatStreamAeV8
      let expectedBodyLen := f * tokenWidth * (maxNoiseRun + 1)
      let frameLen := 4 + expectedBodyLen + tagSize
      let afterHeader := stream.length - 21
      if afterHeader < 44 then null
      else
        let chunksBytes := afterHeader - 44
        if chunksBytes % frameLen ≠ 0 then null
        else
          let nChunks := chunksBytes / frameLen
          if nChunks > 0xFFFFFFFF then null
          else
            let sentinel := stream.drop (21 + chunksBytes)
            if (sentinel.take 4).any (· != 0) then null
            else
              let totalRealCps := readBe8Loop (sentinel.drop 4) ^^^
                streamV8CountMask H skFmt f nonce nChunks
              let recvSentinelTag := sentinel.drop 12
              let calcSentinelTag :=
                computeStreamV8SentinelTag H skFmt f nonce nChunks aad totalRealCps
              if !constantTimeEq recvSentinelTag calcSentinelTag.toList tagSize then null
              else
                let maxReal := nChunks * f
                let minReal := if nChunks = 0 then 0 else maxReal - f + 1
                if nChunks = 0 then
                  if totalRealCps ≠ 0 then null else .ok [0]
                else if totalRealCps < minReal ∨ totalRealCps > maxReal then null
                else do
                  let plain ← decryptStreamChunks H primes skFmt nonce aad f stream nChunks
                    totalRealCps 0 []
                  writeChars plain

end

end Napqes.C
