import Napqes.Python.Block
import Napqes.Python.Reader
import Napqes.Rust.Block

/-!
# v8 streams in Python (`napqes.py:1812-2325`)

Encryptor and decryptor are generators. The encryptor yields the header, the frames and the
sentinel; the decryptor reads its input through a buffer that is refilled from an iterator of
byte chunks, and yields the characters of a chunk once the next frame or the sentinel shows that
it may. `hmac.compare_digest(recv, H(sk_fmt, msg))` is `verify sk_fmt msg recv`.
-/

namespace Napqes.Python

open Rust (TagCheck)

/-! ## Derivations -/

def formatStreamAeV8 : UInt8 := 0x02
def streamAeV8MaxFrame : Nat := 16384

section
variable (H : Hmac)

/-- `_stream_v8_header` (`napqes.py:1877-1880`). -/
def streamV8Header (f : Nat) (nonce : List UInt8) : PyM (List UInt8) := do
  return formatStreamAeV8 :: ((← toBytes 4 f) ++ nonce)

/-- `_stream_v8_count_mask` (`napqes.py:1883-1889`). -/
def streamV8CountMask (skFmt : List UInt8) (f : Nat) (nonce : List UInt8) (chunkCount : Nat) :
    PyM Nat := do
  let msg := 0x0F :: ((← streamV8Header f nonce) ++ (← toBytes 4 chunkCount))
  return beNat ((H skFmt msg).toList.take 8)

/-- `_derive_stream_v8_sub_nonce` (`napqes.py:1892-1906`). -/
def deriveStreamV8SubNonce (skFmt nonce : List UInt8) (chunkIdx : Nat) : PyM (List UInt8) := do
  let digest := H skFmt (0x0E :: (nonce ++ (← toBytes 4 chunkIdx)))
  return digest.toList.take nonceSize

/-- `_derive_stream_v8_filler_cp` (`napqes.py:1909-1925`). -/
def deriveStreamV8FillerCp (skFmt subNonce : List UInt8) (fillIdx : Nat) : PyM Nat := do
  let digest := H skFmt (0x06 :: (subNonce ++ (← toBytes 4 fillIdx)))
  return beNat (digest.toList.take 4) % 95 + 32

/-- The input of `_compute_stream_v8_chunk_tag` (`napqes.py:2037-2039`). -/
def streamV8ChunkTagInput (f : Nat) (nonce : List UInt8) (chunkIdx : Nat)
    (aad maskedChunk : List UInt8) : PyM (List UInt8) := do
  let aadLen8 ← toBytes aadLenWidthV8 aad.length
  return 0x0C :: ((← streamV8Header f nonce) ++ ((← toBytes 4 chunkIdx) ++
    (aadLen8 ++ (aad ++ maskedChunk))))

/-- `_compute_stream_v8_chunk_tag` (`napqes.py:2026-2040`). -/
def computeStreamV8ChunkTag (skFmt : List UInt8) (f : Nat) (nonce : List UInt8) (chunkIdx : Nat)
    (aad maskedChunk : List UInt8) : PyM (List UInt8) := do
  return (H skFmt (← streamV8ChunkTagInput f nonce chunkIdx aad maskedChunk)).toList

/-- The input of `_compute_stream_v8_sentinel_tag` (`napqes.py:2053-2056`). -/
def streamV8SentinelTagInput (f : Nat) (nonce : List UInt8) (chunkCount : Nat)
    (aad : List UInt8) (totalRealCps : Nat) : PyM (List UInt8) := do
  let aadLen8 ← toBytes aadLenWidthV8 aad.length
  return 0x0D :: ((← streamV8Header f nonce) ++ ((← toBytes 4 chunkCount) ++
    (aadLen8 ++ (aad ++ (← toBytes 8 totalRealCps)))))

/-- `_compute_stream_v8_sentinel_tag` (`napqes.py:2043-2057`). -/
def computeStreamV8SentinelTag (skFmt : List UInt8) (f : Nat) (nonce : List UInt8)
    (chunkCount : Nat) (aad : List UInt8) (totalRealCps : Nat) : PyM (List UInt8) := do
  return (H skFmt (← streamV8SentinelTagInput f nonce chunkCount aad totalRealCps)).toList

/-! ## Chunks -/

/-- `_encrypt_v8_stream_chunk_core` (`napqes.py:1928-1971`); its loops are those of
`_encrypt_v8_core`. -/
def encryptV8StreamChunkCore (chunkCodepoints primes : List Nat) (skFmt subNonce : List UInt8) :
    PyM (List Nat) := do
  let noiseTheta := deriveNoiseThresholdV8 H skFmt subNonce
  let f := chunkCodepoints.length
  let (cypher, realIdx, ctPos) ← emitPadded H primes skFmt subNonce noiseTheta chunkCodepoints
    0 0 []
  let ceiling := f * (maxNoiseRun + 1)
  fillCeiling H primes skFmt subNonce ceiling realIdx ctPos cypher

/-- The `while real_idx < F` loop of `_decrypt_v8_stream_chunk_core` (`napqes.py:1992-2021`). -/
def readStreamTokens (primes : List Nat) (skFmt subNonce : List UInt8) (noiseTheta : Nat)
    (chunkTokens : List Nat) (f : Nat) (realIdx ctPos : Nat) (codepoints : List Nat) :
    PyM (List Nat) :=
  if _h : realIdx < f then do
    let ctPos ← skipNoise H skFmt subNonce noiseTheta chunkTokens.length 0 ctPos
    match chunkTokens[ctPos]? with
    | none =>
        valueError ("Truncated v8 stream chunk: token stream ended mid noise-run before the " ++
          "expected real token.")
    | some token =>
        let k ← keyAt primes realIdx
        let addend ← deriveAddend H skFmt subNonce realIdx k
        if token < addend ∨ (token - addend) % k ≠ 0 then
          valueError (s!"Malformed v8 stream chunk: token at position {ctPos} is not of the " ++
            s!"form codepoint * k + addend for key element {k}.")
        else
          let cp := (token - addend) / k
          if cp > 0x10FFFF ∨ (0xD800 ≤ cp ∧ cp ≤ 0xDFFF) then
            valueError (s!"Malformed v8 stream chunk: recovered value {cp} at position {ctPos} " ++
              "is not a Unicode scalar value.")
          else
            readStreamTokens primes skFmt subNonce noiseTheta chunkTokens f (realIdx + 1)
              (ctPos + 1) (codepoints ++ [cp])
  else .ok codepoints
termination_by f - realIdx

/-- `_decrypt_v8_stream_chunk_core` (`napqes.py:1974-2023`). -/
def decryptV8StreamChunkCore (chunkTokens primes : List Nat) (skFmt subNonce : List UInt8)
    (f : Nat) : PyM (List Nat) :=
  let noiseTheta := deriveNoiseThresholdV8 H skFmt subNonce
  readStreamTokens H primes skFmt subNonce noiseTheta chunkTokens f 0 0 []

end

/-! ## Generators -/

/-- `_validate_stream_v8_frame` (`napqes.py:2060-2068`). -/
def validateStreamV8Frame (frameCodepoints : Int) : PyM PUnit :=
  if frameCodepoints < 1 ∨ frameCodepoints > streamAeV8MaxFrame then
    valueError (s!"frame_codepoints must be an int in [1, {streamAeV8MaxFrame}], got " ++
      s!"{frameCodepoints}.")
  else .ok ⟨⟩

section
variable (H : Hmac)

/-- `_emit_chunk` (`napqes.py:2110-2119`). -/
def emitChunk (primes : List Nat) (skFmt nonce aad : List UInt8) (f : Nat)
    (codepointsF : List Nat) (idx : Nat) : PyM (List UInt8) := do
  let subNonce ← deriveStreamV8SubNonce H skFmt nonce idx
  let tokens ← encryptV8StreamChunkCore H codepointsF primes skFmt subNonce
  let blob ← fixedEncodeTokens tokens
  let ks ← varintKeystream H skFmt subNonce blob.length
  let masked := xorBytes blob ks
  let tag ← computeStreamV8ChunkTag H skFmt f nonce idx aad masked
  return (← toBytes 4 masked.length) ++ (masked ++ tag)

/-- The `for char in plaintext` loop (`napqes.py:2121-2133`): what it leaves in `cp_buf`,
`total_real_cps` and `chunk_idx`. -/
def encryptStreamLoop (primes : List Nat) (skFmt nonce aad : List UInt8) (f : Nat) :
    List Nat → List Nat → Nat → Nat → Gen PyErr (List UInt8) (List Nat × Nat × Nat)
  | [], cpBuf, totalRealCps, chunkIdx => return (cpBuf, totalRealCps, chunkIdx)
  | cp :: plaintext, cpBuf, totalRealCps, chunkIdx =>
      let shown := hex04 cp
      if 0xD800 ≤ cp ∧ cp ≤ 0xDFFF then
        Gen.lift (valueError (s!"Streaming plaintext contains a surrogate codepoint U+{shown}; " ++
          "the message space excludes U+D800..U+DFFF."))
      else
        let cpBuf := cpBuf ++ [cp]
        let totalRealCps := totalRealCps + 1
        if cpBuf.length ≥ f then do
          Gen.yield (← emitChunk H primes skFmt nonce aad f (cpBuf.take f) chunkIdx)
          encryptStreamLoop primes skFmt nonce aad f plaintext (cpBuf.drop f) totalRealCps
            (chunkIdx + 1)
        else encryptStreamLoop primes skFmt nonce aad f plaintext cpBuf totalRealCps chunkIdx

/-- The filler of a partial last chunk (`napqes.py:2138-2142`). -/
def streamFiller (skFmt nonce : List UInt8) (chunkIdx fillNeeded : Nat) : PyM (List Nat) := do
  let subNonceLast ← deriveStreamV8SubNonce H skFmt nonce chunkIdx
  (List.range fillNeeded).mapM (deriveStreamV8FillerCp H skFmt subNonceLast)

/-- `_encrypt_stream_ae_v8_with_nonce` (`napqes.py:2071-2152`). -/
def encryptStreamAeV8WithNonce (mathSqrt : Nat → Nat) (plaintext primes : List Nat)
    (sk nonce aad : List UInt8) (frameCodepoints : Int) : Gen PyErr (List UInt8) PUnit := do
  validateKey mathSqrt primes
  let got := sk.length
  let nonceLen := nonce.length
  if sk.length ≠ skSize then
    Gen.lift (valueError s!"sk must be exactly {skSize} bytes, got {got}.")
  else if nonce.length ≠ nonceSize then
    Gen.lift (valueError s!"nonce must be exactly {nonceSize} bytes, got {nonceLen}.")
  else
    validateStreamV8Frame frameCodepoints
    let f := frameCodepoints.toNat
    let skFmt := deriveFormatSubkey H sk formatStreamAeV8
    Gen.yield (formatStreamAeV8 :: ((← toBytes 4 f) ++ nonce))
    let (cpBuf, totalRealCps, chunkIdx) ←
      encryptStreamLoop H primes skFmt nonce aad f plaintext [] 0 0
    let mut chunkIdx := chunkIdx
    if ¬ cpBuf.isEmpty then
      let filler ← streamFiller H skFmt nonce chunkIdx (f - cpBuf.length)
      Gen.yield (← emitChunk H primes skFmt nonce aad f (cpBuf ++ filler) chunkIdx)
      chunkIdx := chunkIdx + 1
    let sentinelTag ← computeStreamV8SentinelTag H skFmt f nonce chunkIdx aad totalRealCps
    let mask ← streamV8CountMask H skFmt f nonce chunkIdx
    Gen.yield ((← toBytes 4 0) ++ ((← toBytes 8 (totalRealCps ^^^ mask)) ++ sentinelTag))

end

section
variable (H : Hmac) (verify : TagCheck) (primes : List Nat) (skFmt aad : List UInt8) (f : Nat)
  (nonce : List UInt8)

/-- The sentinel branch of the frame loop (`napqes.py:2251-2289`); what follows the sentinel is
not read. -/
def readStreamSentinel (r : Reader) (chunkIdx : Nat) (pending : Option (List Nat))
    (deliveredReal : Nat) : Gen PyErr Nat PUnit := do
  let ⟨(totalRealBytes, r), _⟩ ← r.read 8
  let ⟨(recvTag, _), _⟩ ← r.read tagSize
  let totalRealCps := beNat totalRealBytes ^^^ (← streamV8CountMask H skFmt f nonce chunkIdx)
  let input ← streamV8SentinelTagInput f nonce chunkIdx aad totalRealCps
  if ¬ verify skFmt input recvTag then
    Gen.lift (valueError "Authentication failed: invalid v8 stream sentinel tag.")
  else
    let pendingLen := match pending with
      | none => 0
      | some cps => cps.length
    let availableReal := deliveredReal + pendingLen
    let consistent : Bool := match pending with
      | none => totalRealCps == deliveredReal
      | some _ => deliveredReal < totalRealCps && totalRealCps ≤ availableReal
    if ¬ consistent then
      Gen.lift (valueError (s!"Malformed v8 stream sentinel: total_real_codepoints " ++
        s!"{totalRealCps} inconsistent with decoded stream ({deliveredReal} delivered + " ++
        s!"{pendingLen} pending)."))
    else
      match pending with
      | none => return ⟨⟩
      | some cps => yieldChars (cps.take (totalRealCps - deliveredReal))

/-- The `while True` loop of `decrypt_stream_ae_v8` (`napqes.py:2248-2325`). -/
def decryptStreamLoop (r : Reader) (chunkIdx : Nat) (pending : Option (List Nat))
    (deliveredReal : Nat) : Gen PyErr Nat PUnit := do
  let expectedChunkBodyLen := f * tokenWidth * (maxNoiseRun + 1)
  let unit := maxNoiseRun + 1
  let ⟨(field, r₁), _h₁⟩ ← r.read 4
  let chunkLen := beNat field
  if chunkLen = 0 then
    readStreamSentinel H verify skFmt aad f nonce r₁ chunkIdx pending deliveredReal
  else if chunkLen ≠ expectedChunkBodyLen then
    Gen.lift (valueError (s!"Malformed v8 stream frame: chunk length {chunkLen} does not match " ++
      s!"the fixed frame size {expectedChunkBodyLen} (= F*{tokenWidth}*{unit} for F={f})."))
  else
    let ⟨(maskedChunk, r₂), _h₂⟩ ← r₁.read chunkLen
    let ⟨(recvChunkTag, r₃), _h₃⟩ ← r₂.read tagSize
    let input ← streamV8ChunkTagInput f nonce chunkIdx aad maskedChunk
    if ¬ verify skFmt input recvChunkTag then
      Gen.lift (valueError s!"Authentication failed: invalid tag on v8 stream chunk {chunkIdx}.")
    else
      let subNonce ← deriveStreamV8SubNonce H skFmt nonce chunkIdx
      let ks ← varintKeystream H skFmt subNonce chunkLen
      let blob := xorBytes maskedChunk ks
      let tokens ← fixedDecodeTokens blob
      let cps ← decryptV8StreamChunkCore H tokens primes skFmt subNonce f
      match pending with
      | none => decryptStreamLoop r₃ (chunkIdx + 1) (some cps) deliveredReal
      | some held =>
          yieldChars held
          decryptStreamLoop r₃ (chunkIdx + 1) (some cps) (deliveredReal + held.length)
termination_by r.bytes.length
decreasing_by
  all_goals
    simp only at _h₁ _h₂ _h₃
    omega

end

/-- `decrypt_stream_ae_v8` (`napqes.py:2188-2325`), exhausted over the chunks of its input. -/
def decryptStreamAeV8 (H : Hmac) (verify : TagCheck) (mathSqrt : Nat → Nat)
    (byteChunks : List (List UInt8)) (primes : List Nat) (sk aad : List UInt8) :
    Gen PyErr Nat PUnit := do
  validateKey mathSqrt primes
  let got := sk.length
  if sk.length ≠ skSize then
    Gen.lift (valueError s!"sk must be exactly {skSize} bytes, got {got}.")
  else
    let skFmt := deriveFormatSubkey H sk formatStreamAeV8
    let ⟨(header, r), _⟩ ← (Reader.mk [] byteChunks).read (1 + 4 + nonceSize)
    let fmtId := header.headD 0
    let shown := Rust.hex02 fmtId
    let expected := Rust.hex02 formatStreamAeV8
    if fmtId ≠ formatStreamAeV8 then
      Gen.lift (valueError (s!"Unexpected format id 0x{shown}; expected 0x{expected} " ++
        "(FORMAT_STREAM_AE_V8)."))
    else
      let f := beNat ((header.drop 1).take 4)
      if f < 1 ∨ f > streamAeV8MaxFrame then
        Gen.lift (valueError (s!"Malformed v8 stream header: frame_codepoints F={f} out of " ++
          s!"[1, {streamAeV8MaxFrame}]."))
      else
        let nonce := (header.drop 5).take nonceSize
        decryptStreamLoop H verify primes skFmt aad f nonce r 0 none 0

end Napqes.Python
