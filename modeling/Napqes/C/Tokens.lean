import Napqes.C.Derive

/-!
# Token layer of the C port (`C/napqes.c:529-551, 686-873, 1464-1500`)

The emission loop writes each token, as eight bytes, into a buffer that is grown when it is
full; here the buffer is the list of bytes written so far. `encrypt_core_det_v8` and
`encrypt_v8_stream_chunk_core` contain the same loops, and so do the two decoders.
-/

namespace Napqes.C

/-- `NAPQES_MAX_NOISE_RUN` (`napqes.h:115`). -/
def maxNoiseRun : Nat := 19

/-- `TOKEN_WIDTH` (`napqes.c:512`). -/
def tokenWidth : Nat := 8

section
variable (H : Hmac)

/-- `primes[real_idx % klen]`. -/
def keyAt (primes : List UInt64) (realIdx : Nat) : CM Nat :=
  match primes[realIdx % primes.length]? with
  | some k => .ok k.toNat
  | none => .error (.undefined "remainder by zero")

/-- The bytes of a noise token (`napqes.c:725-727, 762-764`). -/
def noiseTokenBytes (skFmt nonce : List UInt8) (ctPos k : Nat) : CM (List UInt8) := do
  let nc := deriveNoiseChar H skFmt nonce ctPos
  let nad ← deriveNoiseTokenAddend H skFmt nonce ctPos k
  return fixedEncode (nc * k + nad)

/-! ## Emission -/

/-- The inner loop of the emission (`napqes.c:713-740`): the tokens of one codepoint. -/
def emitCodepointV8 (primes : List UInt64) (skFmt nonce : List UInt8)
    (noiseTheta c realIdx noiseRun ctPos : Nat) (buf : List UInt8) : CM (List UInt8 × Nat) := do
  let k ← keyAt primes realIdx
  if _h : noiseRun < maxNoiseRun ∧ isNoisePosV8 H skFmt nonce ctPos noiseTheta = true then
    let token ← noiseTokenBytes H skFmt nonce ctPos k
    emitCodepointV8 primes skFmt nonce noiseTheta c realIdx (noiseRun + 1) (ctPos + 1)
      (buf ++ token)
  else
    let addend ← deriveAddend H skFmt nonce realIdx k
    return (buf ++ fixedEncode (c * k + addend), ctPos + 1)
termination_by maxNoiseRun - noiseRun

/-- The loop over the codepoints (`napqes.c:711-741`). -/
def emitCodepointsV8 (primes : List UInt64) (skFmt nonce : List UInt8) (noiseTheta : Nat) :
    List Nat → Nat → Nat → List UInt8 → CM (List UInt8 × Nat × Nat)
  | [], realIdx, ctPos, buf => return (buf, realIdx, ctPos)
  | c :: cps, realIdx, ctPos, buf => do
      let (buf, ctPos) ← emitCodepointV8 H primes skFmt nonce noiseTheta c realIdx 0 ctPos buf
      emitCodepointsV8 primes skFmt nonce noiseTheta cps (realIdx + 1) ctPos buf

/-- The loop that fills up to the ceiling (`napqes.c:752-768`). -/
def topUpV8 (primes : List UInt64) (skFmt nonce : List UInt8)
    (ceilingTokens realIdx curTokens ctPos : Nat) (buf : List UInt8) : CM (List UInt8) :=
  if curTokens < ceilingTokens then do
    let k ← keyAt primes realIdx
    let token ← noiseTokenBytes H skFmt nonce ctPos k
    topUpV8 primes skFmt nonce ceilingTokens realIdx (curTokens + 1) (ctPos + 1) (buf ++ token)
  else .ok buf
termination_by ceilingTokens - curTokens

/-- The token blob of a codepoint array: the loops of `encrypt_core_det_v8`
(`napqes.c:708-768`). -/
def emitTokensV8 (cps : List Nat) (primes : List UInt64) (skFmt nonce : List UInt8)
    (noiseTheta : Nat) : CM (List UInt8) := do
  let (buf, realIdx, ctPos) ← emitCodepointsV8 H primes skFmt nonce noiseTheta cps 0 0 []
  let ceilingTokens := cps.length * (maxNoiseRun + 1)
  let curTokens := buf.length / tokenWidth
  topUpV8 H primes skFmt nonce ceilingTokens realIdx curTokens ctPos buf

/-! ## Decoding -/

/-- The noise-skipping loop of the decoders (`napqes.c:832-837, 1481-1486`). -/
def skipNoiseV8 (skFmt nonce : List UInt8) (noiseTheta nTokens noiseRun ctPos : Nat) : Nat :=
  if noiseRun < maxNoiseRun ∧ ctPos < nTokens ∧
      isNoisePosV8 H skFmt nonce ctPos noiseTheta = true
  then skipNoiseV8 skFmt nonce noiseTheta nTokens (noiseRun + 1) (ctPos + 1)
  else ctPos
termination_by maxNoiseRun - noiseRun

/-- The main loop of the decoders (`napqes.c:830-859, 1479-1498`); token number `i` stands at
byte `8 * i` of the blob. -/
def readTokensV8 (primes : List UInt64) (skFmt nonce : List UInt8) (noiseTheta : Nat)
    (blob : List UInt8) (nTokens realCount realIdx ctPos : Nat) (out : List Nat) :
    CM (List Nat) :=
  if realIdx < realCount then
    let ctPos := skipNoiseV8 H skFmt nonce noiseTheta nTokens 0 ctPos
    if ctPos ≥ nTokens then null
    else do
      let k ← keyAt primes realIdx
      let addend ← deriveAddend H skFmt nonce realIdx k
      let token := fixedDecode (blob.drop (ctPos * tokenWidth))
      if token < addend ∨ (token - addend) % k ≠ 0 then null
      else
        let cp := (token - addend) / k
        if cp > 0x10FFFF ∨ (cp ≥ 0xD800 ∧ cp ≤ 0xDFFF) then null
        else
          readTokensV8 primes skFmt nonce noiseTheta blob nTokens realCount (realIdx + 1)
            (ctPos + 1) (out ++ [cp])
  else .ok out
termination_by realCount - realIdx

/-! ## Keystream -/

/-- The loop of `varint_keystream_alloc` (`napqes.c:540-549`). The counter is a `uint32_t`: when
it wraps before the last block the loop starts over and never ends. -/
def varintKeystreamLoop (kb nonce : List UInt8) (nBlocks b : Nat) (ks : List UInt8) :
    CM (List UInt8) :=
  if b < nBlocks then
    if b + 1 < 2 ^ 32 then
      varintKeystreamLoop kb nonce nBlocks (b + 1)
        (ks ++ (hmacWithSep H kb nonce 0x07 (be4Write b)).toList)
    else .error .diverges
  else .ok ks
termination_by nBlocks - b

/-- `varint_keystream_alloc` (`napqes.c:534-551`): whole blocks, at least `length` bytes. -/
def varintKeystreamAlloc (kb nonce : List UInt8) (length : Nat) : CM (List UInt8) :=
  if length = 0 then .ok []
  else
    let nBlocks := (length + 32 - 1) / 32
    varintKeystreamLoop H kb nonce nBlocks 0 []

end

end Napqes.C
