import Napqes.Rust.Stream
import Napqes.Rust.BlockV7

/-!
# Emission with every assertion and cast checked (`rust/src/lib.rs:327-428, 549-556, 716-736,
1115-1154, 2121-2158`)

The emission loops once more, as a build with debug assertions runs them: `be5` asserts that its
argument has at most 40 bits, the addends assert a key element of at least 2, and every counter of
the loops panics where it leaves its word. A cast to `u32` that loses bits, which no build reports,
panics here too.
-/

namespace Napqes.Rust

variable {ε : Type}

/-- `be5` (`lib.rs:327-342`) with its `debug_assert!`. -/
def be5Checked (n : Nat) : RustM ε (List UInt8) :=
  if n < 2 ^ 40 then .ok (be5 n)
  else panics (s!"be5 called with n = {n} >= 2^40; low-5-byte encoding would truncate " ++
    "(CVF-38)")

/-- `i as u32` of a counter that must not lose bits. -/
def castU32 (i : Nat) : RustM ε Nat := if i < 2 ^ 32 then .ok i else panics "counter wraps"

section
variable (H : Hmac)

/-! ## Derivations -/

/-- `is_noise_pos_v8` (`lib.rs:549-556`). -/
def isNoisePosV8Checked (kb nonce : List UInt8) (ctPos theta : Nat) : RustM ε Bool := do
  let pos ← be5Checked ctPos
  return u64FromBe8 (H kb (0x00 :: (nonce ++ pos))).toList < theta

/-- The modulus of an addend, behind its `debug_assert!`. -/
def addendOfChecked (caller : String) (digest : List UInt8) (keyElement : Nat) : RustM ε Nat :=
  if keyElement ≥ 2 then addendOf digest keyElement
  else panics s!"{caller} called with key_element < 2; validate_key was skipped (CVF-16)"

/-- `derive_addend` (`lib.rs:389-403`). -/
def deriveAddendChecked (kb nonce : List UInt8) (realIdx keyElement : Nat) : RustM ε Nat := do
  let idx ← be5Checked realIdx
  addendOfChecked "derive_addend" (H kb (0x01 :: (nonce ++ idx))).toList keyElement

/-- `derive_noise_char` (`lib.rs:405-413`). -/
def deriveNoiseCharChecked (kb nonce : List UInt8) (ctPos : Nat) : RustM ε Nat := do
  let pos ← be5Checked ctPos
  return u32FromBe4 (H kb (0x04 :: (nonce ++ pos))).toList % noiseAlphabet + asciiPrintableBase

/-- `derive_noise_token_addend` (`lib.rs:415-428`). -/
def deriveNoiseTokenAddendChecked (kb nonce : List UInt8) (ctPos keyElement : Nat) :
    RustM ε Nat := do
  let pos ← be5Checked ctPos
  addendOfChecked "derive_noise_token_addend" (H kb (0x05 :: (nonce ++ pos))).toList keyElement

/-- `noise_token` (`lib.rs:2156-2158`). -/
def noiseTokenChecked (kb nonce : List UInt8) (ctPos k : Nat) : RustM ε Nat := do
  let char ← deriveNoiseCharChecked H kb nonce ctPos
  let addend ← deriveNoiseTokenAddendChecked H kb nonce ctPos k
  u64 (char * k + addend)

/-- `c as u64 * k + derive_addend(..)`, the real token of both emission loops. -/
def realTokenChecked (kb nonce : List UInt8) (c realIdx k : Nat) : RustM ε Nat := do
  let addend ← deriveAddendChecked H kb nonce realIdx k
  u64 (c * k + addend)

/-! ## v8 emission -/

/-- The inner `loop` of `emit_tokens_v8` (`lib.rs:2130-2146`); returns the tokens, the position
and the real index. -/
def emitCodepointV8Checked (primes : List Nat) (skFmt nonce : List UInt8)
    (noiseTheta c realIdx : Nat) (noiseRun ctPos : Nat) (cypher : List Nat) :
    RustM ε (List Nat × Nat × Nat) := do
  let k ← keyAt primes realIdx
  -- `noise_run < MAX_NOISE_RUN && is_noise_pos_v8(..)`: the second test only below the cap
  let isNoise ← (if noiseRun < maxNoiseRun then
    isNoisePosV8Checked H skFmt nonce ctPos noiseTheta else pure false)
  if _h : noiseRun < maxNoiseRun ∧ isNoise = true then
    let token ← noiseTokenChecked H skFmt nonce ctPos k
    let ctPos ← u64 (ctPos + 1)
    emitCodepointV8Checked primes skFmt nonce noiseTheta c realIdx (noiseRun + 1) ctPos
      (cypher ++ [token])
  else
    let token ← realTokenChecked H skFmt nonce c realIdx k
    let ctPos ← u64 (ctPos + 1)
    let realIdx ← u64 (realIdx + 1)
    return (cypher ++ [token], realIdx, ctPos)
termination_by maxNoiseRun - noiseRun

/-- The `for &c in padded` loop of `emit_tokens_v8` (`lib.rs:2128-2147`). -/
def emitCodepointsV8Checked (primes : List Nat) (skFmt nonce : List UInt8) (noiseTheta : Nat) :
    List Nat → Nat → Nat → List Nat → RustM ε (List Nat × Nat × Nat)
  | [], realIdx, ctPos, cypher => return (cypher, realIdx, ctPos)
  | c :: padded, realIdx, ctPos, cypher => do
      let (cypher, realIdx, ctPos) ←
        emitCodepointV8Checked H primes skFmt nonce noiseTheta c realIdx 0 ctPos cypher
      emitCodepointsV8Checked primes skFmt nonce noiseTheta padded realIdx ctPos cypher

/-- The top-up loop of `emit_tokens_v8` (`lib.rs:2148-2152`). -/
def topUpV8Checked (primes : List Nat) (skFmt nonce : List UInt8) (ceiling realIdx : Nat)
    (ctPos : Nat) (cypher : List Nat) : RustM ε (List Nat) :=
  if cypher.length < ceiling then do
    let k ← keyAt primes realIdx
    let token ← noiseTokenChecked H skFmt nonce ctPos k
    let ctPos ← u64 (ctPos + 1)
    topUpV8Checked primes skFmt nonce ceiling realIdx ctPos (cypher ++ [token])
  else .ok cypher
termination_by ceiling - cypher.length

/-- `emit_tokens_v8` (`lib.rs:2121-2154`). -/
def emitTokensV8Checked (padded primes : List Nat) (skFmt nonce : List UInt8) :
    RustM ε (List Nat) := do
  let noiseTheta := deriveNoiseThresholdV8 H skFmt nonce
  let ceiling ← u64 (padded.length * (maxNoiseRun + 1))
  let (cypher, realIdx, ctPos) ←
    emitCodepointsV8Checked H primes skFmt nonce noiseTheta padded 0 0 []
  topUpV8Checked H primes skFmt nonce ceiling realIdx ctPos cypher

/-! ## Padding -/

/-- The loop of `pad_to_block` (`lib.rs:725-734`), and that of the filler of a stream chunk
(`lib.rs:2342-2344`), which derives its codepoints alike. -/
def padCharsChecked (kb nonce : List UInt8) : List Nat → RustM ε (List Nat)
  | [] => .ok []
  | i :: is => do
      let i ← castU32 i
      let rest ← padCharsChecked kb nonce is
      return derivePadChar H kb nonce i :: rest

/-- `pad_to_block` (`lib.rs:716-736`). -/
def padToBlockChecked (msg : List Nat) (kb nonce : List UInt8) (blockSize : Nat) :
    RustM ε (List Nat) :=
  let n := msg.length
  if blockSize > n then do
    let padding ← padCharsChecked H kb nonce (List.range (blockSize - n))
    return [(n >>> 8) &&& 0xFF, n &&& 0xFF] ++ msg ++ padding
  else panics "padding block must exceed the message"

/-! ## v7 emission -/

variable (noise : Noise)

/-- `is_noise_pos` (`lib.rs:377-387`) with the probability of the key and nonce. -/
def isNoisePosChecked (kb nonce : List UInt8) (ctPos : Nat) : RustM ε Bool := do
  let _ ← (be5Checked ctPos : RustM ε (List UInt8))
  return noise kb nonce ctPos

/-- The `loop` of `emit_tokens_v7` (`lib.rs:1127-1151`). -/
def emitCodepointV7Checked (key : List Nat) (kb nonce : List UInt8) (c realIdx : Nat)
    (run ctPos : Nat) (cypher : List Nat) : RustM String (List Nat × Nat × Nat) := do
  let k ← keyAt key realIdx
  let isNoise ← isNoisePosChecked noise kb nonce ctPos
  if isNoise then
    let token ← noiseTokenChecked H kb nonce ctPos k
    let ctPos ← u64 (ctPos + 1)
    if _h : run + 1 > v7NoiseRunGuard then
      err (s!"v7 emission aborted: more than {v7NoiseRunGuard} consecutive noise positions " ++
        "(CVF-V5-4)")
    else
      emitCodepointV7Checked key kb nonce c realIdx (run + 1) ctPos (cypher ++ [token])
  else
    let token ← realTokenChecked H kb nonce c realIdx k
    let ctPos ← u64 (ctPos + 1)
    let realIdx ← u64 (realIdx + 1)
    return (cypher ++ [token], realIdx, ctPos)
termination_by v7NoiseRunGuard - run

/-- The `for &c in padded` loop of `emit_tokens_v7` (`lib.rs:1125-1152`). -/
def emitCodepointsV7Checked (key : List Nat) (kb nonce : List UInt8) :
    List Nat → Nat → Nat → List Nat → RustM String (List Nat)
  | [], _, _, cypher => return cypher
  | c :: padded, realIdx, ctPos, cypher => do
      let (cypher, realIdx, ctPos) ←
        emitCodepointV7Checked H noise key kb nonce c realIdx 0 ctPos cypher
      emitCodepointsV7Checked key kb nonce padded realIdx ctPos cypher

/-- `emit_tokens_v7` (`lib.rs:1115-1154`). -/
def emitTokensV7Checked (padded : List Nat) (kb nonce : List UInt8) (key : List Nat) :
    RustM String (List Nat) :=
  emitCodepointsV7Checked H noise key kb nonce padded 0 0 []

end

end Napqes.Rust
