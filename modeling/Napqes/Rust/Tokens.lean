import Napqes.Misc.Schedule
import Napqes.Rust.Key
import Napqes.Rust.Padding

/-!
# Token emission, decoding and masking (`rust/src/lib.rs:738-759, 948-1035, 2106-2209`)

The emission loop `emit_tokens_v8`, the two decoding loops that replay it, the fixed-width
token encoding and the keystream. For a valid key each loop is the instance of
`Napqes.Schedule` given by the derived noise oracle; the loops themselves are translated
statement by statement, with their counters.
-/

namespace Napqes.Rust

variable {ε : Type}

/-- `MAX_NOISE_RUN` (`lib.rs:1605`). -/
def maxNoiseRun : Nat := 19

/-- `TOKEN_WIDTH` (`lib.rs:1090`). -/
def tokenWidth : Nat := 8

section
variable (H : Hmac)

/-- `primes[(real_idx % kk) as usize]`; an empty tuple makes the remainder panic. -/
def keyAt (primes : List Nat) (realIdx : Nat) : RustM ε Nat :=
  match primes[realIdx % primes.length]? with
  | some k => .ok k
  | none => panics "attempt to calculate the remainder with a divisor of zero"

/-- `noise_token` (`lib.rs:2156-2158`). -/
def noiseToken (kb nonce : List UInt8) (ctPos k : Nat) : RustM ε Nat := do
  let addend ← deriveNoiseTokenAddend H kb nonce ctPos k
  u64 (deriveNoiseChar H kb nonce ctPos * k + addend)

/-! ## Emission -/

/-- The inner `loop` of `emit_tokens_v8` (`lib.rs:2130-2146`): tokens for one codepoint. -/
def emitCodepointV8 (primes : List Nat) (skFmt nonce : List UInt8) (noiseTheta c realIdx : Nat)
    (noiseRun ctPos : Nat) (cypher : List Nat) : RustM ε (List Nat × Nat) := do
  let k ← keyAt primes realIdx
  if _h : noiseRun < maxNoiseRun ∧ isNoisePosV8 H skFmt nonce ctPos noiseTheta = true then
    let token ← noiseToken H skFmt nonce ctPos k
    emitCodepointV8 primes skFmt nonce noiseTheta c realIdx (noiseRun + 1) (ctPos + 1)
      (cypher ++ [token])
  else
    let addend ← deriveAddend H skFmt nonce realIdx k
    let token ← u64 (c * k + addend)
    return (cypher ++ [token], ctPos + 1)
termination_by maxNoiseRun - noiseRun

/-- The `for &c in padded` loop of `emit_tokens_v8` (`lib.rs:2128-2147`). -/
def emitCodepointsV8 (primes : List Nat) (skFmt nonce : List UInt8) (noiseTheta : Nat) :
    List Nat → Nat → Nat → List Nat → RustM ε (List Nat × Nat × Nat)
  | [], realIdx, ctPos, cypher => return (cypher, realIdx, ctPos)
  | c :: padded, realIdx, ctPos, cypher => do
      let (cypher, ctPos) ←
        emitCodepointV8 H primes skFmt nonce noiseTheta c realIdx 0 ctPos cypher
      emitCodepointsV8 primes skFmt nonce noiseTheta padded (realIdx + 1) ctPos cypher

/-- The top-up loop of `emit_tokens_v8` (`lib.rs:2148-2152`). -/
def topUpV8 (primes : List Nat) (skFmt nonce : List UInt8) (ceiling realIdx : Nat) (ctPos : Nat)
    (cypher : List Nat) : RustM ε (List Nat) :=
  if cypher.length < ceiling then do
    let k ← keyAt primes realIdx
    let token ← noiseToken H skFmt nonce ctPos k
    topUpV8 primes skFmt nonce ceiling realIdx (ctPos + 1) (cypher ++ [token])
  else .ok cypher
termination_by ceiling - cypher.length

/-- `emit_tokens_v8` (`lib.rs:2121-2154`). -/
def emitTokensV8 (padded primes : List Nat) (skFmt nonce : List UInt8) : RustM ε (List Nat) := do
  let noiseTheta := deriveNoiseThresholdV8 H skFmt nonce
  let ceiling := padded.length * (maxNoiseRun + 1)
  let (cypher, realIdx, ctPos) ← emitCodepointsV8 H primes skFmt nonce noiseTheta padded 0 0 []
  topUpV8 H primes skFmt nonce ceiling realIdx ctPos cypher

/-! ## Decoding -/

/-- The noise-skipping loop of the decoders (`lib.rs:984-991`, `lib.rs:2178-2184`); returns
the run length and the position reached. -/
def skipNoiseV8 (kb nonce : List UInt8) (noiseTheta nTokens : Nat) (noiseRun ctPos : Nat) :
    Nat × Nat :=
  if noiseRun < maxNoiseRun ∧ ctPos < nTokens ∧ isNoisePosV8 H kb nonce ctPos noiseTheta = true
  then skipNoiseV8 kb nonce noiseTheta nTokens (noiseRun + 1) (ctPos + 1)
  else (noiseRun, ctPos)
termination_by maxNoiseRun - noiseRun

/-- The three error texts in which the two decoding loops differ. -/
structure TokenErrors where
  /-- `ct_pos`, `n_tokens`, `real_idx`, `real_count`, `noise_run`. -/
  truncated : Nat → Nat → Nat → Nat → Nat → String
  /-- `ct_pos` and the key element. -/
  malformed : Nat → Nat → String
  /-- The recovered value and `ct_pos`. -/
  notScalar : Nat → Nat → String

/-- The main loop of `decrypt_core_v8` and `decrypt_v8_stream_chunk_core`: recover real
tokens until there are `realCount` of them. -/
def readTokensV8 (errors : TokenErrors) (primes : List Nat) (kb nonce : List UInt8)
    (noiseTheta : Nat) (tokens : List Nat) (realCount : Nat) (realIdx ctPos : Nat)
    (codepoints : List Nat) : RustM String (List Nat) :=
  if realIdx < realCount then
    let scan := skipNoiseV8 H kb nonce noiseTheta tokens.length 0 ctPos
    if h : scan.2 < tokens.length then do
      let k ← keyAt primes realIdx
      let addend ← deriveAddend H kb nonce realIdx k
      let token := tokens[scan.2]
      if token < addend ∨ (token - addend) % k ≠ 0 then err (errors.malformed scan.2 k)
      else
        let cp := (token - addend) / k
        if IsScalar cp then
          readTokensV8 errors primes kb nonce noiseTheta tokens realCount (realIdx + 1)
            (scan.2 + 1) (codepoints ++ [cp])
        else err (errors.notScalar cp scan.2)
    else err (errors.truncated scan.2 tokens.length realIdx realCount scan.1)
  else .ok codepoints
termination_by realCount - realIdx

/-- Error texts of `decrypt_core_v8` (`lib.rs:997-1002, 1012-1016, 1020-1024`). -/
def blockTokenErrors : TokenErrors where
  truncated ctPos nTokens realIdx realCount noiseRun :=
    s!"Truncated v8 ciphertext: token stream ended at position {ctPos} of {nTokens} after " ++
    s!"recovering {realIdx} of {realCount} real tokens; expected another real token " ++
    s!"(noise run length reached {noiseRun} of max {maxNoiseRun})."
  malformed ctPos k :=
    s!"Malformed v8 ciphertext: token at position {ctPos} is not of the form " ++
    s!"codepoint * k + addend for key element {k}."
  notScalar cp ctPos :=
    s!"Malformed v8 ciphertext: recovered value {cp} at position {ctPos} is not a " ++
    "Unicode scalar value."

/-- Error texts of `decrypt_v8_stream_chunk_core` (`lib.rs:2186, 2192-2195, 2199-2202`). -/
def chunkTokenErrors : TokenErrors where
  truncated _ _ _ _ _ := "Truncated v8 stream chunk: token stream ended mid noise-run."
  malformed ctPos _ :=
    s!"Malformed v8 stream chunk: token at position {ctPos} is not c * k + addend."
  notScalar cp _ :=
    s!"Malformed v8 stream chunk: recovered value {cp} is not a Unicode scalar."

/-- `decrypt_core_v8` (`lib.rs:948-1035`). -/
def decryptCoreV8 (nonce : List UInt8) (cypher primes : List Nat) (kb : List UInt8) :
    RustM String (List Nat) :=
  let ceilingUnit := maxNoiseRun + 1
  let nTokens := cypher.length
  if nTokens % ceilingUnit ≠ 0 then
    err ("Malformed v8 ciphertext: token count is not a multiple of the padding ceiling; " ++
      "expected exactly real_token_count * (MAX_NOISE_RUN + 1) tokens.")
  else
    let realCount := nTokens / ceilingUnit
    let b := realCount - 2
    let lo := 1 <<< padMinExp
    let hi := 1 <<< padMaxExp
    if 2 ≤ realCount ∧ b.isPowerOfTwo ∧ padMinExp ≤ trailingZeros 64 b ∧
        trailingZeros 64 b ≤ padMaxExp then do
      let noiseTheta := deriveNoiseThresholdV8 H kb nonce
      let padded ← readTokensV8 H blockTokenErrors primes kb nonce noiseTheta cypher realCount
        0 0 []
      unpadMessage padded
    else
      err (s!"Malformed v8 ciphertext: real-token count {realCount} is not B + 2 for any " ++
        s!"reachable padded block size B in [{lo}, {hi}].")

/-- `decrypt_v8_stream_chunk_core` (`lib.rs:2162-2209`). -/
def decryptV8StreamChunkCore (chunkTokens primes : List Nat) (skFmt subNonce : List UInt8)
    (f : Nat) : RustM String (List Nat) :=
  let noiseTheta := deriveNoiseThresholdV8 H skFmt subNonce
  readTokensV8 H chunkTokenErrors primes skFmt subNonce noiseTheta chunkTokens f 0 0 []

/-! ## Fixed-width tokens and keystream -/

/-- `fixed_encode_tokens` (`lib.rs:1092-1098`). -/
def fixedEncodeTokens (tokens : List Nat) : List UInt8 := tokens.flatMap (beBytes tokenWidth)

/-- `fixed_decode_tokens` (`lib.rs:1158-1173`). -/
def fixedDecodeTokens (data : List UInt8) : RustM String (List Nat) :=
  let len := data.length
  if data.length % tokenWidth ≠ 0 then
    err s!"fixed-width token blob length ({len}) is not a multiple of {tokenWidth}"
  else .ok ((chunksExact tokenWidth (data.length / tokenWidth) data).map beNat)

/-- The loop of `varint_keystream` (`lib.rs:748-757`); `block` is a `u32` and its increment
panics on overflow. -/
def varintKeystreamLoop (kb nonce : List UInt8) (length : Nat) (out : List UInt8) (block : Nat) :
    RustM ε (List UInt8) :=
  if _h : out.length < length then
    if block + 1 < 2 ^ 32 then
      varintKeystreamLoop kb nonce length (out ++ (H kb (keystreamInput nonce block)).toList)
        (block + 1)
    else panics "attempt to add with overflow"
  else .ok (out.take length)
termination_by length - out.length
decreasing_by
  simp
  omega

/-- `varint_keystream` (`lib.rs:748-759`). -/
def varintKeystream (kb nonce : List UInt8) (length : Nat) : RustM ε (List UInt8) :=
  varintKeystreamLoop H kb nonce length [] 0

end

end Napqes.Rust
