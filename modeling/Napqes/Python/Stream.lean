import Napqes.Python.Block
import Napqes.Python.Reader
import Napqes.Rust.Block

/-!
# v7 streams in Python (`napqes.py:435-449, 732-771, 1406-1811`)

`encrypt_stream` puts one tag at the end of the stream, `encrypt_stream_ae` one behind each chunk
and a last one over the number of chunks. Both mask LEB128 tokens with a keystream that runs on
from one chunk to the next, and both ways of decrypting decode byte by byte, so tokens may
straddle chunks. The noise probability is a floating-point number: `noise kb nonce ct_pos` stands
for the comparison in `_is_noise_pos` with the probability that `_derive_noise_p(kb, nonce)`
returns. Nonces that the source draws with `secrets.token_bytes` are arguments.
-/

namespace Napqes.Python

open Rust (TagCheck)

/-- The noise positions of a key and a nonce. -/
abbrev Noise := List UInt8 → List UInt8 → Nat → Bool

/-- `_key_bytes` (`napqes.py:283-285`). -/
def keyBytes : List Nat → PyM (List UInt8)
  | [] => .ok []
  | k :: key => do return (← toBytes 5 k) ++ (← keyBytes key)

/-- `_is_noise_pos` (`napqes.py:288-300`); the position goes into the HMAC input as five bytes. -/
def isNoisePos (noise : Noise) (kb nonce : List UInt8) (ctPos : Nat) : PyM Bool := do
  let _ ← toBytes 5 ctPos
  return noise kb nonce ctPos

theorem isNoisePos_eq_ok_iff {noise : Noise} {kb nonce : List UInt8} {ctPos : Nat} {b : Bool} :
    isNoisePos noise kb nonce ctPos = .ok b ↔ ctPos < 256 ^ 5 ∧ noise kb nonce ctPos = b := by
  by_cases h : ctPos < 256 ^ 5
  · rw [isNoisePos, toBytes_of_lt h, ok_bind, and_iff_right h]
    exact ⟨Except.ok.inj, congrArg Except.ok⟩
  · rw [isNoisePos, toBytes, if_neg h]
    constructor
    · intro hok
      cases hok
    · intro hlt
      exact absurd hlt.1 h

/-! ## LEB128 -/

/-- `_b128_encode_token` (`napqes.py:743-750`). -/
def b128EncodeToken (n : Nat) : List UInt8 :=
  if n > 0x7F then UInt8.ofNat ((n &&& 0x7F) ||| 0x80) :: b128EncodeToken (n >>> 7)
  else [UInt8.ofNat (n &&& 0x7F)]
termination_by n
decreasing_by
  rw [Nat.shiftRight_eq_div_pow]
  omega

/-- The loop of `_b128_encode_tokens` over one token (`napqes.py:735-739`). -/
def b128EncodeOnto (out : List UInt8) (n : Nat) : List UInt8 :=
  if n > 0x7F then b128EncodeOnto (out ++ [UInt8.ofNat ((n &&& 0x7F) ||| 0x80)]) (n >>> 7)
  else out ++ [UInt8.ofNat (n &&& 0x7F)]
termination_by n
decreasing_by
  rw [Nat.shiftRight_eq_div_pow]
  omega

/-- `_b128_encode_tokens` (`napqes.py:732-740`). -/
def b128EncodeTokens (tokens : List Nat) : List UInt8 := tokens.foldl b128EncodeOnto []

/-- The inner `while True` of `_b128_decode_tokens` (`napqes.py:764-769`): the value and the bytes
behind it. -/
def b128DecodeValue : Nat → Nat → List UInt8 → PyM (Nat × List UInt8)
  | _, _, [] => raise (.indexError "index out of range")
  | value, shift, b :: data =>
      let value := value ||| ((b.toNat &&& 0x7F) <<< shift)
      if b &&& 0x80 = 0 then .ok (value, data) else b128DecodeValue value (shift + 7) data

theorem length_of_b128DecodeValue {value shift v : Nat} {data rest : List UInt8}
    (h : b128DecodeValue value shift data = .ok (v, rest)) : rest.length < data.length := by
  induction data generalizing value shift with
  | nil => cases h
  | cons b data ih =>
      rw [b128DecodeValue] at h
      split at h
      case isTrue =>
        obtain ⟨-, rfl⟩ := Prod.mk.inj (Except.ok.inj h)
        exact Nat.lt_succ_self _
      case isFalse => exact Nat.lt_succ_of_lt (ih h)

/-- The outer loop of `_b128_decode_tokens` (`napqes.py:761-770`). -/
def b128DecodeLoop (data : List UInt8) (tokens : List Nat) : PyM (List Nat) :=
  if data.isEmpty then .ok tokens
  else
    match _h : b128DecodeValue 0 0 data with
    | .error e => .error e
    | .ok (value, rest) => b128DecodeLoop rest (tokens ++ [value])
termination_by data.length
decreasing_by exact length_of_b128DecodeValue _h

/-- `_b128_decode_tokens` (`napqes.py:753-771`). -/
def b128DecodeTokens (data : List UInt8) : PyM (List Nat) := b128DecodeLoop data []

/-- The value of the bytes in `varint_buf` (`napqes.py:1529-1533`, `napqes.py:1798-1802`). -/
def varintValue (buf : List UInt8) : Nat :=
  (buf.foldl (fun (value, shift) vb => (value ||| ((vb.toNat &&& 0x7F) <<< shift), shift + 7))
    (0, 0)).1

/-! ## Keystream -/

/-- The generator `ks_gen`, by its next block, and the buffer `ks_buf`. -/
structure Keystream where
  block : Nat
  buf : List UInt8

section
variable (H : Hmac)

/-- `while len(ks_buf) < n: ks_buf.extend(next(ks_gen))`, with `_varint_keystream_blocks`
(`napqes.py:435-449`) as the generator. -/
def Keystream.pull (kb nonce : List UInt8) (n : Nat) (ks : Keystream) : PyM Keystream :=
  if _h : ks.buf.length < n then do
    let digest := H kb (0x07 :: (nonce ++ (← toBytes 4 ks.block)))
    Keystream.pull kb nonce n ⟨ks.block + 1, ks.buf ++ digest.toList⟩
  else .ok ks
termination_by n - ks.buf.length
decreasing_by
  simp only [List.length_append, FixedBytes.length_toList]
  omega

/-- `data` XORed with the next bytes of the keystream. -/
def Keystream.mask (kb nonce data : List UInt8) (ks : Keystream) :
    PyM (List UInt8 × Keystream) := do
  let ks ← ks.pull H kb nonce data.length
  return (xorBytes data (ks.buf.take data.length), { ks with buf := ks.buf.drop data.length })

end

/-! ## Encryption -/

section
variable (H : Hmac) (noise : Noise)

/-- The `while True` loop that encodes one character (`napqes.py:1436-1449`,
`napqes.py:1672-1685`): noise tokens up to the first free position and the token of the
character there. A position that does not fit five bytes ends it. -/
def emitChar (key : List Nat) (kb nonce : List UInt8) (c realIdx : Nat) (ctPos : Nat)
    (buf : List UInt8) : PyM (List UInt8 × Nat) :=
  match _h : isNoisePos noise kb nonce ctPos with
  | .error e => .error e
  | .ok true => do
      let token ← noiseToken H key kb nonce realIdx ctPos
      emitChar key kb nonce c realIdx (ctPos + 1) (buf ++ b128EncodeToken token)
  | .ok false => do
      let k ← keyAt key realIdx
      let addend ← deriveAddend H kb nonce realIdx k
      return (buf ++ b128EncodeToken (c * k + addend), ctPos + 1)
termination_by 256 ^ 5 - ctPos
decreasing_by
  have := (isNoisePos_eq_ok_iff.mp _h).1
  omega

/-- What `encrypt_stream` and `decrypt_stream` feed to the tag before the body
(`napqes.py:1424`, `napqes.py:1510`). -/
def streamTagStart (aad nonce : List UInt8) : PyM (List UInt8) := do
  return 0x03 :: ((← toBytes 4 aad.length) ++ (aad ++ nonce))

/-- The `for char in plaintext` loop of `encrypt_stream` (`napqes.py:1433-1456`); `h` is what
the tag has been fed. -/
def encryptStreamChars (key : List Nat) (kb nonce : List UInt8) :
    List Nat → Nat → Nat → Keystream → List UInt8 → Gen PyErr (List UInt8) (List UInt8)
  | [], _, _, _, h => return h
  | c :: plaintext, realIdx, ctPos, ks, h => do
      let (chunk, ctPos) ← emitChar H noise key kb nonce c realIdx ctPos []
      let (masked, ks) ← ks.mask H kb nonce chunk
      Gen.yield masked
      encryptStreamChars key kb nonce plaintext (realIdx + 1) ctPos ks (h ++ masked)

/-- `encrypt_stream` (`napqes.py:1406-1458`). -/
def encryptStream (mathSqrt : Nat → Nat) (plaintext key : List Nat) (aad nonce : List UInt8) :
    Gen PyErr (List UInt8) PUnit := do
  validateKey mathSqrt key
  let kb ← keyBytes key
  let h ← streamTagStart aad nonce
  Gen.yield nonce
  let h ← encryptStreamChars H noise key kb nonce plaintext 0 0 ⟨0, []⟩ h
  Gen.yield (H kb h).toList

/-- The input of a chunk tag (`napqes.py:1662-1666`, `napqes.py:1778-1783`). -/
def chunkTagInput (nonce aadLen4 aad : List UInt8) (chunkIdx : Nat) (data : List UInt8) :
    PyM (List UInt8) := do
  return 0x08 :: (nonce ++ (aadLen4 ++ (aad ++ ((← toBytes 4 chunkIdx) ++ data))))

/-- The input of the final tag (`napqes.py:1704-1708`, `napqes.py:1766-1770`). -/
def finalTagInput (nonce aadLen4 aad : List UInt8) (chunkIdx : Nat) : PyM (List UInt8) := do
  return 0x09 :: (nonce ++ (aadLen4 ++ (aad ++ (← toBytes 4 chunkIdx))))

/-- `_flush_chunk` (`napqes.py:1661-1667`). -/
def flushChunk (kb nonce aadLen4 aad : List UInt8) (chunkIdx : Nat) (data : List UInt8) :
    PyM (List UInt8) := do
  let tag := H kb (← chunkTagInput nonce aadLen4 aad chunkIdx data)
  return (← toBytes 4 data.length) ++ (data ++ tag.toList)

theorem lt_of_flushChunk {kb nonce aadLen4 aad data frame : List UInt8} {chunkIdx : Nat}
    (h : flushChunk H kb nonce aadLen4 aad chunkIdx data = .ok frame) : chunkIdx < 256 ^ 4 := by
  simp only [flushChunk, chunkTagInput, bind_eq_ok, toBytes] at h
  obtain ⟨-, ⟨four, hfour, -⟩, -⟩ := h
  split at hfour
  case isTrue hlt => exact hlt
  case isFalse => cases hfour

/-- `l[:n]` on a Python integer `n`: a negative one counts from the end. -/
def sliceTo (n : Int) (l : List UInt8) : List UInt8 :=
  if 0 ≤ n then l.take n.toNat else l.take (l.length - n.natAbs)

/-- What `del l[:n]` leaves. -/
def deleteTo (n : Int) (l : List UInt8) : List UInt8 :=
  if 0 ≤ n then l.drop n.toNat else l.drop (l.length - n.natAbs)

/-- The `while len(pending_masked) >= chunk_size` loop (`napqes.py:1693-1697`). With a chunk
size of zero or below only the chunk index ends it. -/
def flushFull (kb nonce aadLen4 aad : List UInt8) (chunkSize : Int) (pending : List UInt8)
    (chunkIdx : Nat) : Gen PyErr (List UInt8) (List UInt8 × Nat) :=
  if (pending.length : Int) ≥ chunkSize then
    match _h : flushChunk H kb nonce aadLen4 aad chunkIdx (sliceTo chunkSize pending) with
    | .error e => Gen.lift (.error e)
    | .ok frame => do
        Gen.yield frame
        flushFull kb nonce aadLen4 aad chunkSize (deleteTo chunkSize pending) (chunkIdx + 1)
  else return (pending, chunkIdx)
termination_by 256 ^ 4 - chunkIdx
decreasing_by
  have := lt_of_flushChunk _ _h
  omega

/-- The `for char in plaintext` loop of `encrypt_stream_ae` (`napqes.py:1669-1697`). -/
def encryptStreamAeChars (key : List Nat) (kb nonce aadLen4 aad : List UInt8) (chunkSize : Int) :
    List Nat → Nat → Nat → Keystream → List UInt8 → Nat →
      Gen PyErr (List UInt8) (List UInt8 × Nat)
  | [], _, _, _, pending, chunkIdx => return (pending, chunkIdx)
  | c :: plaintext, realIdx, ctPos, ks, pending, chunkIdx => do
      let (raw, ctPos) ← emitChar H noise key kb nonce c realIdx ctPos []
      let (masked, ks) ← ks.mask H kb nonce raw
      let (pending, chunkIdx) ←
        flushFull H kb nonce aadLen4 aad chunkSize (pending ++ masked) chunkIdx
      encryptStreamAeChars key kb nonce aadLen4 aad chunkSize plaintext (realIdx + 1) ctPos ks
        pending chunkIdx

/-- `encrypt_stream_ae` (`napqes.py:1620-1709`). -/
def encryptStreamAe (mathSqrt : Nat → Nat) (plaintext key : List Nat) (aad nonce : List UInt8)
    (chunkSize : Int) : Gen PyErr (List UInt8) PUnit := do
  validateKey mathSqrt key
  let kb ← keyBytes key
  let aadLen4 ← toBytes 4 aad.length
  Gen.yield nonce
  let (pending, chunkIdx) ←
    encryptStreamAeChars H noise key kb nonce aadLen4 aad chunkSize plaintext 0 0 ⟨0, []⟩ [] 0
  let mut chunkIdx := chunkIdx
  if ¬ pending.isEmpty then
    Gen.yield (← flushChunk H kb nonce aadLen4 aad chunkIdx pending)
    chunkIdx := chunkIdx + 1
  let finalTag := H kb (← finalTagInput nonce aadLen4 aad chunkIdx)
  Gen.yield ((← toBytes 4 0) ++ finalTag.toList)

/-! ## Decryption -/

/-- `chr(c)` on a Python integer; CPython converts it to a C `int` before it looks at its range. -/
def chrInt (c : Int) : PyM Nat :=
  if c < -2 ^ 31 ∨ 2 ^ 31 ≤ c then
    raise (.overflowError "Python int too large to convert to C int")
  else if 0 ≤ c then chr c.toNat
  else valueError "chr() arg not in range(0x110000)"

/-- The variables of the decoding loop. -/
structure Decoder where
  varintBuf : List UInt8
  ctPos : Nat
  realIdx : Nat

/-- One byte of the decoding loop (`napqes.py:1526-1540`, `napqes.py:1795-1809`). -/
def decodeByte (key : List Nat) (kb nonce : List UInt8) (st : Decoder) (b : UInt8) :
    Gen PyErr Nat Decoder :=
  let varintBuf := st.varintBuf ++ [b]
  if b &&& 0x80 = 0 then do
    let value := varintValue varintBuf
    if ¬ (← isNoisePos noise kb nonce st.ctPos) then
      let k ← keyAt key st.realIdx
      let addend ← deriveAddend H kb nonce st.realIdx k
      Gen.yield (← chrInt (((value : Int) - addend).fdiv k))
      return { varintBuf := [], ctPos := st.ctPos + 1, realIdx := st.realIdx + 1 }
    else return { st with varintBuf := [], ctPos := st.ctPos + 1 }
  else return { st with varintBuf }

/-- The decoding loop over the unmasked bytes of a chunk. -/
def decodeBytes (key : List Nat) (kb nonce : List UInt8) :
    List UInt8 → Decoder → Gen PyErr Nat Decoder
  | [], st => return st
  | b :: bs, st => do
      let st ← decodeByte H noise key kb nonce st b
      decodeBytes key kb nonce bs st

/-- Phase 1 of `decrypt_stream` (`napqes.py:1493-1506`): the nonce, what was read behind it, and
the chunks still to come. -/
def readStreamNonce : List UInt8 → List (List UInt8) →
    PyM (List UInt8 × List UInt8 × List (List UInt8))
  | nonceBuf, [] =>
      let have_ := nonceBuf.length
      valueError s!"Stream truncated: nonce incomplete ({have_}/{nonceSize} bytes)."
  | nonceBuf, chunk :: chunks =>
      let nonceBuf := nonceBuf ++ chunk
      if nonceBuf.length ≥ nonceSize then
        .ok (nonceBuf.take nonceSize, nonceBuf.drop nonceSize, chunks)
      else readStreamNonce nonceBuf chunks

/-- What `_drain` changes: the input of the tag so far, the keystream and the decoder. -/
structure StreamDecoder where
  h : List UInt8
  ks : Keystream
  decoder : Decoder

/-- `_drain` (`napqes.py:1519-1540`). -/
def drain (key : List Nat) (kb nonce data : List UInt8) (st : StreamDecoder) :
    Gen PyErr Nat StreamDecoder := do
  let (unmasked, ks) ← st.ks.mask H kb nonce data
  let decoder ← decodeBytes H noise key kb nonce unmasked st.decoder
  return { h := st.h ++ data, ks, decoder }

/-- Phase 2 of `decrypt_stream` (`napqes.py:1542-1548`): the last 32 bytes stay in `tail`. -/
def slideStream (key : List Nat) (kb nonce : List UInt8) :
    List (List UInt8) → List UInt8 → StreamDecoder → Gen PyErr Nat (List UInt8 × StreamDecoder)
  | [], tail, st => return (tail, st)
  | chunk :: chunks, tail, st => do
      let tail := tail ++ chunk
      let safeLen := tail.length - tagSize
      if safeLen > 0 then
        let st ← drain H noise key kb nonce (tail.take safeLen) st
        slideStream key kb nonce chunks (tail.drop safeLen) st
      else slideStream key kb nonce chunks tail st

variable (verify : TagCheck)

/-- `decrypt_stream` (`napqes.py:1461-1567`), exhausted over the chunks of its input. -/
def decryptStream (mathSqrt : Nat → Nat) (byteChunks : List (List UInt8)) (key : List Nat)
    (aad : List UInt8) (enableUnauthenticatedStreaming : Bool) : Gen PyErr Nat PUnit := do
  if ¬ enableUnauthenticatedStreaming then
    Gen.lift (valueError ("decrypt_stream releases plaintext before the auth tag is verified " ++
      "(RUP). Pass enable_unauthenticated_streaming=True to acknowledge this, or use " ++
      "decrypt_stream_strict to buffer + verify before any plaintext is returned."))
  else
    validateKey mathSqrt key
    let kb ← keyBytes key
    let (nonce, leftover, chunks) ← readStreamNonce [] byteChunks
    let h ← streamTagStart aad nonce
    let (tail, st) ← slideStream H noise key kb nonce chunks leftover
      { h, ks := ⟨0, []⟩, decoder := ⟨[], 0, 0⟩ }
    let left := tail.length
    if tail.length < tagSize then
      Gen.lift (valueError (s!"Stream truncated: need {tagSize}-byte auth tag, only {left} " ++
        "bytes remain."))
    else
      let bodyRemainder := tail.take (tail.length - tagSize)
      let recvTag := tail.drop (tail.length - tagSize)
      let st ←
        if bodyRemainder.isEmpty then pure st else drain H noise key kb nonce bodyRemainder st
      if ¬ verify kb st.h recvTag then
        Gen.lift (valueError "Authentication failed: invalid HMAC tag.")
      else return ⟨⟩

/-- `decrypt_stream_strict` (`napqes.py:1568-1589`): the characters are joined when the generator
has ended. -/
def decryptStreamStrict (mathSqrt : Nat → Nat) (byteChunks : List (List UInt8)) (key : List Nat)
    (aad : List UInt8) : PyM (List Nat) := do
  let gen := decryptStream H noise verify mathSqrt byteChunks key aad true
  gen.outcome
  return gen.yielded

/-- The `while True` loop of `decrypt_stream_ae` (`napqes.py:1760-1811`). -/
def decryptStreamAeLoop (key : List Nat) (kb nonce aadLen4 aad : List UInt8) (r : Reader)
    (chunkIdx : Nat) (ks : Keystream) (st : Decoder) : Gen PyErr Nat PUnit := do
  let ⟨(field, r₁), _h₁⟩ ← r.read 4
  let chunkLen := beNat field
  if chunkLen = 0 then
    let ⟨(recvFinal, _), _⟩ ← r₁.read tagSize
    let input ← finalTagInput nonce aadLen4 aad chunkIdx
    if ¬ verify kb input recvFinal then
      Gen.lift (valueError "Authentication failed: invalid final tag.")
    else return ⟨⟩
  else
    let ⟨(maskedChunk, r₂), _h₂⟩ ← r₁.read chunkLen
    let ⟨(recvChunkTag, r₃), _h₃⟩ ← r₂.read tagSize
    let input ← chunkTagInput nonce aadLen4 aad chunkIdx maskedChunk
    if ¬ verify kb input recvChunkTag then
      Gen.lift (valueError s!"Authentication failed: invalid tag on chunk {chunkIdx}.")
    else
      let (unmasked, ks) ← ks.mask H kb nonce maskedChunk
      let st ← decodeBytes H noise key kb nonce unmasked st
      decryptStreamAeLoop key kb nonce aadLen4 aad r₃ (chunkIdx + 1) ks st
termination_by r.bytes.length
decreasing_by
  simp only at _h₁ _h₂ _h₃
  omega

/-- `decrypt_stream_ae` (`napqes.py:1712-1811`), exhausted over the chunks of its input. -/
def decryptStreamAe (mathSqrt : Nat → Nat) (byteChunks : List (List UInt8)) (key : List Nat)
    (aad : List UInt8) : Gen PyErr Nat PUnit := do
  validateKey mathSqrt key
  let kb ← keyBytes key
  let aadLen4 ← toBytes 4 aad.length
  let ⟨(nonce, r), _⟩ ← (Reader.mk [] byteChunks).read nonceSize
  decryptStreamAeLoop H noise verify key kb nonce aadLen4 aad r 0 ⟨0, []⟩ ⟨[], 0, 0⟩

end

end Napqes.Python
