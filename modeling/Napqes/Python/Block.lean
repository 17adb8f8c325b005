import Napqes.Python.Basic
import Napqes.Rust.Padding

/-!
# The v8 block format in Python (`napqes.py:303-430, 451-470, 522-628, 790-835, 1045-1323`)

The functions are translated statement by statement from the Python source. Its
`hmac.new(kb, msg, hashlib.sha256).digest()` is `H kb msg`; indexing modulo a zero length and
reduction modulo zero raise.
-/

namespace Napqes.Python

open Rust (bitLength)

def nonceSize : Nat := 16
def tagSize : Nat := 32
def skSize : Nat := 32
def aadLenWidthV8 : Nat := 8
def thetaMin : Nat := 75 * (1 <<< 64) / 100
def thetaMax : Nat := 99 * (1 <<< 64) / 100
def maxPlaintextCodepoints : Nat := 0xFFFF
def maxNoiseRun : Nat := 19
def tokenWidth : Nat := 8
def tokenMax : Nat := (1 <<< (8 * tokenWidth)) - 1
def padMinExp : Nat := 4
def padMaxExp : Nat := 16
def formatBlockV8 : UInt8 := 0x01

section
variable (H : Hmac)

/-! ## Derivations -/

/-- `(x % (key_element - 1)) + 1` on Python integers. -/
def addendOf (x keyElement : Nat) : PyM Nat :=
  let modulus : Int := keyElement - 1
  if modulus = 0 then raise (.zeroDivisionError "integer modulo by zero")
  else .ok (((x : Int).fmod modulus).toNat + 1)

/-- `_derive_addend` (`napqes.py:303-317`). -/
def deriveAddend (kb nonce : List UInt8) (realIdx keyElement : Nat) : PyM Nat := do
  let digest := H kb (0x01 :: (nonce ++ (← toBytes 5 realIdx)))
  addendOf (beNat (digest.toList.take 4)) keyElement

/-- `_derive_noise_char` (`napqes.py:320-333`). -/
def deriveNoiseChar (kb nonce : List UInt8) (ctPos : Nat) : PyM Nat := do
  let digest := H kb (0x04 :: (nonce ++ (← toBytes 5 ctPos)))
  return beNat (digest.toList.take 4) % 96 + 32

/-- `_derive_noise_token_addend` (`napqes.py:336-348`). -/
def deriveNoiseTokenAddend (kb nonce : List UInt8) (ctPos keyElement : Nat) : PyM Nat := do
  let digest := H kb (0x05 :: (nonce ++ (← toBytes 5 ctPos)))
  addendOf (beNat (digest.toList.take 4)) keyElement

/-- `_derive_noise_threshold_v8` (`napqes.py:365-381`). -/
def deriveNoiseThresholdV8 (kb nonce : List UInt8) : Nat :=
  let digest := H kb (0x02 :: nonce)
  let tau := beNat (digest.toList.take 8)
  thetaMin + (tau * (thetaMax - thetaMin)) >>> 64

/-- `_is_noise_pos_v8` (`napqes.py:384-395`). -/
def isNoisePosV8 (kb nonce : List UInt8) (ctPos theta : Nat) : PyM Bool := do
  let digest := H kb (0x00 :: (nonce ++ (← toBytes 5 ctPos)))
  return beNat (digest.toList.take 8) < theta

/-- The loop of `_varint_keystream` (`napqes.py:422-431`). -/
def varintKeystreamLoop (kb nonce : List UInt8) (length : Nat) (out : List UInt8) (block : Nat) :
    PyM (List UInt8) :=
  if _h : out.length < length then do
    let digest := H kb (0x07 :: (nonce ++ (← toBytes 4 block)))
    varintKeystreamLoop kb nonce length (out ++ digest.toList) (block + 1)
  else .ok (out.take length)
termination_by length - out.length
decreasing_by
  simp
  omega

/-- `_varint_keystream` (`napqes.py:398-432`). -/
def varintKeystream (kb nonce : List UInt8) (length : Nat) : PyM (List UInt8) :=
  varintKeystreamLoop H kb nonce length [] 0

/-- `_compute_auth_tag` (`napqes.py:451-470`). -/
def computeAuthTag (kb aad payload : List UInt8) (aadLenWidth : Nat) : PyM (List UInt8) := do
  let nonce := payload.take nonceSize
  let maskedBlob := payload.drop nonceSize
  let aadLen ← toBytes aadLenWidth aad.length
  return (H kb (0x03 :: (nonce ++ (aadLen ++ (aad ++ maskedBlob))))).toList

/-- `_derive_format_subkey` (`napqes.py:1045-1052`). -/
def deriveFormatSubkey (sk : List UInt8) (formatId : UInt8) : List UInt8 :=
  (H sk [0x0b, formatId]).toList

/-- `_synthetic_nonce` (`napqes.py:1055-1069`). -/
def syntheticNonce (skFmt aad message : List UInt8) : PyM (List UInt8) := do
  let aadLen ← toBytes aadLenWidthV8 aad.length
  return (H skFmt (0x0a :: (aadLen ++ (aad ++ message)))).toList.take nonceSize

end

/-! ## Padding -/

/-- `PadProfile` (`napqes.py:501-503`). A parameter below 1 fails the first check of its
branch, so parameters are natural numbers here. -/
inductive PadProfile where
  | bucket
  | coarse (g : Nat)
  | frame (f : Nat)
  deriving DecidableEq, Repr

/-- `_padding_bucket` (`napqes.py:522-573`). -/
def paddingBucket (n : Nat) (profile : PadProfile) : PyM Nat :=
  let e := max padMinExp (bitLength n)
  match profile with
  | .bucket => .ok (1 <<< e)
  | .coarse g =>
      let span := padMaxExp - padMinExp
      let strides := (List.range' 1 span).filter fun g => span % g == 0
      if g < 1 ∨ span % g ≠ 0 then
        valueError s!"coarse stride g={g} must divide {span} (one of {strides})."
      else
        let steps := (-((-((e : Int) - padMinExp)).fdiv g)).toNat
        .ok (1 <<< (padMinExp + g * steps))
  | .frame f =>
      let lo := 1 <<< padMinExp
      let hi := 1 <<< padMaxExp
      let most := f - 1
      let exp := bitLength f - 1
      if f < 1 then valueError s!"frame size F={f} must be a power of two in [{lo}, {hi}]."
      else if 1 <<< exp ≠ f ∨ ¬ (padMinExp ≤ exp ∧ exp ≤ padMaxExp) then
        valueError s!"frame size F={f} must be a power of two in [{lo}, {hi}]."
      else if n ≥ f then
        valueError (s!"frame({f}) profile admits messages of at most {most} codepoints; " ++
          s!"got {n}. Use a larger frame.")
      else .ok f

/-- The padding loop of `_pad_message` (`napqes.py:600-603`). -/
def padLoop (H : Hmac) (kb nonce : List UInt8) : List Nat → PyM (List Nat)
  | [] => .ok []
  | i :: is => do
      let d := H kb (0x06 :: (nonce ++ (← toBytes 4 i)))
      let rest ← padLoop H kb nonce is
      return (beNat (d.toList.take 4) % 95 + 32) :: rest

/-- `_pad_message` (`napqes.py:576-604`). -/
def padMessage (H : Hmac) (msg : List Nat) (kb nonce : List UInt8) (padProfile : PadProfile) :
    PyM (List Nat) :=
  let n := msg.length
  if n > maxPlaintextCodepoints then
    valueError (s!"Message too long for 2-byte length prefix (got {n} codepoints, max " ++
      s!"{maxPlaintextCodepoints}). See napqes.MAX_PLAINTEXT_CODEPOINTS and docs/CAVEATS.md.")
  else do
    let blockSize ← paddingBucket n padProfile
    let padding ← padLoop H kb nonce (List.range (blockSize - n))
    return [n >>> 8, n &&& 0xFF] ++ msg ++ padding

/-- `_unpad_message` (`napqes.py:607-628`). -/
def unpadMessage : List Nat → PyM (List Nat)
  | hi :: lo :: rest =>
      if hi > 0xFF ∨ lo > 0xFF then
        valueError (s!"Malformed length prefix: codepoints ({hi}, {lo}) are not byte-valued " ++
          "(CVF-43).")
      else
        let n := (hi <<< 8) ||| lo
        let available := rest.length
        if 2 + n > rest.length + 2 then
          valueError s!"Length prefix ({n}) exceeds available data ({available} bytes)."
        else .ok (rest.take n)
  | _ => valueError "Padded message too short to contain length prefix."

/-! ## Tokens -/

/-- `_fixed_encode_tokens` (`napqes.py:798-814`). -/
def fixedEncodeTokens : List Nat → PyM (List UInt8)
  | [] => .ok []
  | n :: tokens =>
      if n > tokenMax then
        valueError (s!"Token value {n} exceeds the {tokenWidth}-byte fixed-width field (max " ++
          s!"{tokenMax}); cannot serialise without truncation.")
      else do
        let field ← toBytes tokenWidth n
        let rest ← fixedEncodeTokens tokens
        return field ++ rest

/-- `_fixed_decode_tokens` (`napqes.py:817-829`). -/
def fixedDecodeTokens (data : List UInt8) : PyM (List Nat) :=
  let len := data.length
  if data.length % tokenWidth ≠ 0 then
    valueError (s!"Fixed-width token blob length ({len}) is not a multiple of {tokenWidth} " ++
      "bytes; ciphertext is malformed, or was produced by the legacy v6 LEB128 encoding " ++
      "(pass legacy_v6_varint=True to decode it).")
  else .ok ((chunksExact tokenWidth (data.length / tokenWidth) data).map beNat)

/-- `key[real_idx % K]`. -/
def keyAt (key : List Nat) (realIdx : Nat) : PyM Nat :=
  match key[realIdx % key.length]? with
  | some k => .ok k
  | none => raise (.zeroDivisionError "integer modulo by zero")

section
variable (H : Hmac)

/-- One noise token at `ct_pos` while `real_idx` is awaited. -/
def noiseToken (key : List Nat) (keyMaterial nonce : List UInt8) (realIdx ctPos : Nat) :
    PyM Nat := do
  let k ← keyAt key realIdx
  let noiseC ← deriveNoiseChar H keyMaterial nonce ctPos
  let noiseAdd ← deriveNoiseTokenAddend H keyMaterial nonce ctPos k
  return noiseC * k + noiseAdd

/-- The inner `while` of `_encrypt_v8_core` (`napqes.py:1109-1117`). -/
def emitNoise (key : List Nat) (keyMaterial nonce : List UInt8) (noiseTheta realIdx : Nat)
    (noiseRun ctPos : Nat) (cypher : List Nat) : PyM (List Nat × Nat) :=
  if _h : noiseRun < maxNoiseRun then do
    let noise ← isNoisePosV8 H keyMaterial nonce ctPos noiseTheta
    if noise then
      let token ← noiseToken H key keyMaterial nonce realIdx ctPos
      emitNoise key keyMaterial nonce noiseTheta realIdx (noiseRun + 1) (ctPos + 1)
        (cypher ++ [token])
    else return (cypher, ctPos)
  else return (cypher, ctPos)
termination_by maxNoiseRun - noiseRun

/-- The `for c in padded` loop of `_encrypt_v8_core` (`napqes.py:1107-1122`). -/
def emitPadded (key : List Nat) (keyMaterial nonce : List UInt8) (noiseTheta : Nat) :
    List Nat → Nat → Nat → List Nat → PyM (List Nat × Nat × Nat)
  | [], realIdx, ctPos, cypher => return (cypher, realIdx, ctPos)
  | c :: padded, realIdx, ctPos, cypher => do
      let (cypher, ctPos) ← emitNoise H key keyMaterial nonce noiseTheta realIdx 0 ctPos cypher
      let k ← keyAt key realIdx
      let addend ← deriveAddend H keyMaterial nonce realIdx k
      emitPadded key keyMaterial nonce noiseTheta padded (realIdx + 1) (ctPos + 1)
        (cypher ++ [c * k + addend])

/-- The filler loop of `_encrypt_v8_core` (`napqes.py:1127-1132`). -/
def fillCeiling (key : List Nat) (keyMaterial nonce : List UInt8) (ceiling realIdx : Nat)
    (ctPos : Nat) (cypher : List Nat) : PyM (List Nat) :=
  if _h : cypher.length < ceiling then do
    let token ← noiseToken H key keyMaterial nonce realIdx ctPos
    fillCeiling key keyMaterial nonce ceiling realIdx (ctPos + 1) (cypher ++ [token])
  else .ok cypher
termination_by ceiling - cypher.length

/-- `_encrypt_v8_core` (`napqes.py:1072-1132`). -/
def encryptV8Core (message key : List Nat) (keyMaterial nonce : List UInt8)
    (padProfile : PadProfile) : PyM (List Nat) := do
  let noiseTheta := deriveNoiseThresholdV8 H keyMaterial nonce
  let padded ← padMessage H message keyMaterial nonce padProfile
  let (cypher, realIdx, ctPos) ← emitPadded H key keyMaterial nonce noiseTheta padded 0 0 []
  let ceiling := padded.length * (maxNoiseRun + 1)
  fillCeiling H key keyMaterial nonce ceiling realIdx ctPos cypher

/-- The inner `while` of `_decrypt_v8_core` (`napqes.py:1182-1187`). -/
def skipNoise (keyMaterial nonce : List UInt8) (noiseTheta n : Nat) (noiseRun ctPos : Nat) :
    PyM Nat :=
  if _h : noiseRun < maxNoiseRun ∧ ctPos < n then do
    let noise ← isNoisePosV8 H keyMaterial nonce ctPos noiseTheta
    if noise then skipNoise keyMaterial nonce noiseTheta n (noiseRun + 1) (ctPos + 1)
    else return ctPos
  else return ctPos
termination_by maxNoiseRun - noiseRun

/-- The outer `while` of `_decrypt_v8_core` (`napqes.py:1180-1212`). -/
def readTokens (key : List Nat) (keyMaterial nonce : List UInt8) (noiseTheta : Nat)
    (cypher : List Nat) (realCount : Nat) (realIdx ctPos : Nat) (padded : List Nat) :
    PyM (List Nat) :=
  if _h : realIdx < realCount then do
    let ctPos ← skipNoise H keyMaterial nonce noiseTheta cypher.length 0 ctPos
    match cypher[ctPos]? with
    | none =>
        valueError ("Truncated v8 ciphertext: token stream ended mid noise-run before the " ++
          "expected real token.")
    | some token =>
        let k ← keyAt key realIdx
        let addend ← deriveAddend H keyMaterial nonce realIdx k
        if token < addend ∨ (token - addend) % k ≠ 0 then
          valueError (s!"Malformed v8 ciphertext: token at position {ctPos} is not of the " ++
            s!"form codepoint * k + addend for key element {k}.")
        else
          let cp := (token - addend) / k
          if cp > 0x10FFFF ∨ (0xD800 ≤ cp ∧ cp ≤ 0xDFFF) then
            valueError (s!"Malformed v8 ciphertext: recovered value {cp} at position {ctPos} " ++
              "is not a Unicode scalar value.")
          else
            readTokens key keyMaterial nonce noiseTheta cypher realCount (realIdx + 1)
              (ctPos + 1) (padded ++ [cp])
  else .ok padded
termination_by realCount - realIdx

/-- `_LEGAL_REAL_TOKEN_COUNTS` (`napqes.py:517-519`). -/
def legalRealTokenCounts : List Nat :=
  (List.range' padMinExp (padMaxExp + 1 - padMinExp)).map fun e => (1 <<< e) + 2

/-- `_decrypt_v8_core` (`napqes.py:1135-1214`). -/
def decryptV8Core (nonce : List UInt8) (cypher key : List Nat) (keyMaterial : List UInt8) :
    PyM (List Nat) :=
  let noiseTheta := deriveNoiseThresholdV8 H keyMaterial nonce
  let n := cypher.length
  let ceilingUnit := maxNoiseRun + 1
  let lo := 1 <<< padMinExp
  let hi := 1 <<< padMaxExp
  if n % ceilingUnit ≠ 0 then
    valueError ("Malformed v8 ciphertext: token count is not a multiple of the padding ceiling " ++
      s!"({ceilingUnit}); expected exactly real_token_count * (MAX_NOISE_RUN + 1) tokens.")
  else
    let realCount := n / ceilingUnit
    if realCount ∉ legalRealTokenCounts then
      valueError (s!"Malformed v8 ciphertext: real-token count {realCount} is not B + 2 for any " ++
        s!"reachable padded block size B in [{lo}, {hi}]; legal counts are " ++
        s!"{legalRealTokenCounts}.")
    else do
      let padded ← readTokens H key keyMaterial nonce noiseTheta cypher realCount 0 0 []
      unpadMessage padded

end

/-! ## Public functions -/

/-- `f"{n:04X}"`. -/
def hex04 (n : Nat) : String :=
  let digits := (Nat.toDigits 16 n).map Char.toUpper
  String.ofList (List.replicate (4 - digits.length) '0' ++ digits)

/-- `_validate_message_domain` (`napqes.py:1217-1235`). -/
def validateMessageDomain (message : List Nat) : PyM PUnit :=
  message.zipIdx.forM fun (cp, i) =>
    let shown := hex04 cp
    if 0xD800 ≤ cp ∧ cp ≤ 0xDFFF then
      valueError (s!"message contains a surrogate codepoint U+{shown} at position {i}; the " ++
        "message space excludes U+D800..U+DFFF (docs/napseq-eprint-v4.tex, message space M).")
    else pure ⟨⟩

section
variable (H : Hmac) (mathSqrt : Nat → Nat)

/-- `encrypt_bytes_v8` (`napqes.py:1238-1285`). -/
def encryptBytesV8 (message primes : List Nat) (sk aad : List UInt8) (padProfile : PadProfile) :
    PyM (List UInt8) := do
  validateKey mathSqrt primes
  let got := sk.length
  if sk.length ≠ skSize then valueError s!"sk must be exactly {skSize} bytes, got {got}."
  else
    validateMessageDomain message
    let skFmt := deriveFormatSubkey H sk formatBlockV8
    let messageBytes ← encodeUtf8 message
    let nonce ← syntheticNonce H skFmt aad messageBytes
    let tokens ← encryptV8Core H message primes skFmt nonce padProfile
    let tokenBlob ← fixedEncodeTokens tokens
    let ks ← varintKeystream H skFmt nonce tokenBlob.length
    let maskedBlob := xorBytes tokenBlob ks
    let payload := nonce ++ maskedBlob
    let tag ← computeAuthTag H skFmt aad payload aadLenWidthV8
    return payload ++ tag

/-- `decrypt_bytes_v8` (`napqes.py:1288-1323`). -/
def decryptBytesV8 (ciphertext : List UInt8) (primes : List Nat) (sk aad : List UInt8) :
    PyM (List Nat) := do
  validateKey mathSqrt primes
  let got := sk.length
  let len := ciphertext.length
  let header := nonceSize + tagSize
  let unit := maxNoiseRun + 1
  let ceilingBytes := tokenWidth * (maxNoiseRun + 1)
  if sk.length ≠ skSize then valueError s!"sk must be exactly {skSize} bytes, got {got}."
  else if ciphertext.length < nonceSize + tagSize then
    valueError s!"Ciphertext too short: {len} bytes; header+tag require at least {header} bytes."
  else if (ciphertext.length - nonceSize - tagSize) % ceilingBytes ≠ 0 then
    valueError ("Malformed v8 ciphertext: token count is not a multiple of the padding ceiling " ++
      s!"({unit}); expected exactly real_token_count * (MAX_NOISE_RUN + 1) tokens.")
  else
    let skFmt := deriveFormatSubkey H sk formatBlockV8
    let payload := ciphertext.take (ciphertext.length - tagSize)
    let recvTag := ciphertext.drop (ciphertext.length - tagSize)
    let calcTag ← computeAuthTag H skFmt aad payload aadLenWidthV8
    if recvTag ≠ calcTag then valueError "Authentication failed: invalid HMAC tag (v8)."
    else
      let nonce := payload.take nonceSize
      let maskedBlob := payload.drop nonceSize
      let ks ← varintKeystream H skFmt nonce maskedBlob.length
      let tokenBlob := xorBytes maskedBlob ks
      let tokens ← fixedDecodeTokens tokenBlob
      let codepoints ← decryptV8Core H nonce tokens primes skFmt
      codepoints.mapM chr

end

end Napqes.Python
