import Napqes.Misc.BlockFold
import Napqes.C.Derive

/-!
# SHA-256 and HMAC of the C port (`C/sha256.c`, `C/napqes.c:144-175, 315-357, 409-439`)

The rest of the model takes HMAC as an argument. This is the one the C port uses, and the places
where it is fed in several pieces. `buffer` holds the first `buflen` bytes of the buffer of the
context; what stands behind them is never read.
-/

namespace Napqes.C

abbrev sha256BlockSize : Nat := 64
abbrev sha256DigestSize : Nat := 32

/-! ## Compression -/

/-- `K256` (`sha256.c:7-16`). -/
def k256 : List UInt32 := [
  0x428a2f98, 0x71374491, 0xb5c0fbcf, 0xe9b5dba5, 0x3956c25b, 0x59f111f1, 0x923f82a4, 0xab1c5ed5,
  0xd807aa98, 0x12835b01, 0x243185be, 0x550c7dc3, 0x72be5d74, 0x80deb1fe, 0x9bdc06a7, 0xc19bf174,
  0xe49b69c1, 0xefbe4786, 0x0fc19dc6, 0x240ca1cc, 0x2de92c6f, 0x4a7484aa, 0x5cb0a9dc, 0x76f988da,
  0x983e5152, 0xa831c66d, 0xb00327c8, 0xbf597fc7, 0xc6e00bf3, 0xd5a79147, 0x06ca6351, 0x14292967,
  0x27b70a85, 0x2e1b2138, 0x4d2c6dfc, 0x53380d13, 0x650a7354, 0x766a0abb, 0x81c2c92e, 0x92722c85,
  0xa2bfe8a1, 0xa81a664b, 0xc24b8b70, 0xc76c51a3, 0xd192e819, 0xd6990624, 0xf40e3585, 0x106aa070,
  0x19a4c116, 0x1e376c08, 0x2748774c, 0x34b0bcb5, 0x391c0cb3, 0x4ed8aa4a, 0x5b9cca4f, 0x682e6ff3,
  0x748f82ee, 0x78a5636f, 0x84c87814, 0x8cc70208, 0x90befffa, 0xa4506ceb, 0xbef9a3f7, 0xc67178f2]

/-- `ROTR`. -/
def rotr (x n : UInt32) : UInt32 := (x >>> n) ||| (x <<< (32 - n))

/-- `CH`. -/
def ch (x y z : UInt32) : UInt32 := (x &&& y) ^^^ (~~~x &&& z)

/-- `MAJ`. -/
def maj (x y z : UInt32) : UInt32 := (x &&& y) ^^^ (x &&& z) ^^^ (y &&& z)

/-- `BSIG0`. -/
def bsig0 (x : UInt32) : UInt32 := rotr x 2 ^^^ rotr x 13 ^^^ rotr x 22

/-- `BSIG1`. -/
def bsig1 (x : UInt32) : UInt32 := rotr x 6 ^^^ rotr x 11 ^^^ rotr x 25

/-- `SSIG0`. -/
def ssig0 (x : UInt32) : UInt32 := rotr x 7 ^^^ rotr x 18 ^^^ (x >>> 3)

/-- `SSIG1`. -/
def ssig1 (x : UInt32) : UInt32 := rotr x 17 ^^^ rotr x 19 ^^^ (x >>> 10)

/-- The words `a` to `h`, also those of `ctx->state`. -/
structure Sha256State where
  a : UInt32
  b : UInt32
  c : UInt32
  d : UInt32
  e : UInt32
  f : UInt32
  g : UInt32
  h : UInt32
  deriving DecidableEq, Repr

/-- `W[i]` of a message word (`sha256.c:28-31`). -/
def messageWord (blk : List UInt8) (i : Nat) : UInt32 :=
  ((blk.getD (i * 4) 0).toUInt32 <<< 24) ||| ((blk.getD (i * 4 + 1) 0).toUInt32 <<< 16) |||
    ((blk.getD (i * 4 + 2) 0).toUInt32 <<< 8) ||| (blk.getD (i * 4 + 3) 0).toUInt32

/-- The next word of the schedule (`sha256.c:32-34`); `w` holds those before it. -/
def extendSchedule (w : List UInt32) : List UInt32 :=
  let i := w.length
  w ++ [ssig1 (w.getD (i - 2) 0) + w.getD (i - 7) 0 + ssig0 (w.getD (i - 15) 0) + w.getD (i - 16) 0]

/-- `W` (`sha256.c:27-34`). -/
def schedule (blk : List UInt8) : List UInt32 :=
  extendSchedule^[48] ((List.range 16).map (messageWord blk))

/-- One round (`sha256.c:37-42`). -/
def round (k w : UInt32) (s : Sha256State) : Sha256State :=
  let t1 := s.h + bsig1 s.e + ch s.e s.f s.g + k + w
  let t2 := bsig0 s.a + maj s.a s.b s.c
  { a := t1 + t2, b := s.a, c := s.b, d := s.c, e := s.d + t1, f := s.e, g := s.f, h := s.g }

/-- `sha256_compress` (`sha256.c:26-45`). -/
def sha256Compress (state : Sha256State) (blk : List UInt8) : Sha256State :=
  let w := schedule blk
  let v := (List.range 64).foldl (fun v i => round (k256.getD i 0) (w.getD i 0) v) state
  { a := state.a + v.a, b := state.b + v.b, c := state.c + v.c, d := state.d + v.d
    e := state.e + v.e, f := state.f + v.f, g := state.g + v.g, h := state.h + v.h }

/-! ## Streaming -/

/-- `sha256_ctx` (`sha256.h:10-15`). -/
structure Sha256Ctx where
  state : Sha256State
  bitlen : UInt64
  buffer : List UInt8

/-- `sha256_init` (`sha256.c:47-54`). -/
def sha256Init : Sha256Ctx where
  state :=
    { a := 0x6a09e667, b := 0xbb67ae85, c := 0x3c6ef372, d := 0xa54ff53a
      e := 0x510e527f, f := 0x9b05688c, g := 0x1f83d9ab, h := 0x5be0cd19 }
  bitlen := 0
  buffer := []

/-- `sha256_update` (`sha256.c:56-78`); the loop over whole blocks and the copy of the rest are
`foldBlocks`. -/
def sha256Update (ctx : Sha256Ctx) (data : List UInt8) : Sha256Ctx :=
  let bitlen := ctx.bitlen + UInt64.ofNat data.length * 8
  if ctx.buffer.length ≠ 0 then
    let need := sha256BlockSize - ctx.buffer.length
    if data.length < need then { ctx with bitlen, buffer := ctx.buffer ++ data }
    else
      let state := sha256Compress ctx.state (ctx.buffer ++ data.take need)
      let (state, buffer) := foldBlocks sha256Compress sha256BlockSize state (data.drop need)
      { state, bitlen, buffer }
  else
    let (state, buffer) := foldBlocks sha256Compress sha256BlockSize ctx.state data
    { state, bitlen, buffer }

/-- `while (ctx->buflen < n) ctx->buffer[ctx->buflen++] = 0;`. -/
def zeroFill (n : Nat) (buffer : List UInt8) : List UInt8 :=
  buffer ++ List.replicate (n - buffer.length) 0

/-- The bytes of a word of the state, in the order in which they are written. -/
def wordBytes (w : UInt32) : List UInt8 :=
  [(w >>> 24).toUInt8, (w >>> 16).toUInt8, (w >>> 8).toUInt8, w.toUInt8]

/-- The last loop of `sha256_final` (`sha256.c:90-95`). -/
def Sha256State.digest (s : Sha256State) : FixedBytes sha256DigestSize where
  toList := wordBytes s.a ++ wordBytes s.b ++ wordBytes s.c ++ wordBytes s.d ++ wordBytes s.e ++
    wordBytes s.f ++ wordBytes s.g ++ wordBytes s.h
  length_toList := rfl

/-- The loop over the bytes of `bits` (`sha256.c:88`). -/
def bitlenBytes (bits : UInt64) : List UInt8 :=
  [7, 6, 5, 4, 3, 2, 1, 0].map fun i : UInt64 => (bits >>> (i * 8)).toUInt8

/-- `sha256_final` (`sha256.c:80-97`). -/
def sha256Final (ctx : Sha256Ctx) : FixedBytes sha256DigestSize :=
  let bits := ctx.bitlen
  let buffer := ctx.buffer ++ [0x80]
  let (state, buffer) :=
    if buffer.length > 56 then
      (sha256Compress ctx.state (zeroFill sha256BlockSize buffer), ([] : List UInt8))
    else (ctx.state, buffer)
  (sha256Compress state (zeroFill 56 buffer ++ bitlenBytes bits)).digest

/-- `sha256` (`sha256.c:99-101`). -/
def sha256 (data : List UInt8) : FixedBytes sha256DigestSize :=
  sha256Final (sha256Update sha256Init data)

/-! ## HMAC -/

/-- `k0` of the functions that take a key of any length. -/
def keyBlock (key : List UInt8) : List UInt8 :=
  if key.length > sha256BlockSize then
    (sha256 key).toList ++ List.replicate (sha256BlockSize - sha256DigestSize) 0
  else key ++ List.replicate (sha256BlockSize - key.length) 0

/-- What every HMAC of the port does with `k0` and the pieces of its message. -/
def hmacPieces (k0 : List UInt8) (pieces : List (List UInt8)) : FixedBytes sha256DigestSize :=
  let ipad := k0.map (· ^^^ 0x36)
  let opad := k0.map (· ^^^ 0x5c)
  let inner := sha256Final (pieces.foldl sha256Update (sha256Update sha256Init ipad))
  sha256Final (sha256Update (sha256Update sha256Init opad) inner.toList)

/-- `hmac_sha256` (`sha256.c:103-129`). -/
def hmacSha256 (key msg : List UInt8) : FixedBytes sha256DigestSize :=
  hmacPieces (keyBlock key) [msg]

/-- `if (len) sha256_update(&c, piece, len);`. -/
def unlessEmpty (piece : List UInt8) : List (List UInt8) := if piece.length ≠ 0 then [piece] else []

/-- `hmac_with_sep` (`napqes.c:144-175`). -/
def hmacWithSepPieces (kb nonce : List UInt8) (sep : UInt8) (tail : List UInt8) :
    FixedBytes sha256DigestSize :=
  hmacPieces (keyBlock kb) ([[sep], nonce] ++ unlessEmpty tail)

/-- `compute_auth_tag` (`napqes.c:315-357`). -/
def computeAuthTagPieces (kb aad payload : List UInt8) (aadLenWidth : Nat) :
    FixedBytes sha256DigestSize :=
  let nonce := payload.take nonceSize
  let maskedBlob := payload.drop nonceSize
  hmacPieces (keyBlock kb)
    ([[0x03], nonce, beLenPrefix aad.length aadLenWidth] ++ unlessEmpty aad ++ [maskedBlob])

/-- `synthetic_nonce` (`napqes.c:409-439`), where the key is never longer than a block. -/
def syntheticNoncePieces (skFmt : FixedBytes sha256DigestSize) (aad message : List UInt8) :
    FixedBytes nonceSize :=
  let k0 := skFmt.toList ++ List.replicate (sha256BlockSize - sha256DigestSize) 0
  let full := hmacPieces k0 ([[0x0a], beLenPrefix aad.length aadLenWidthV8] ++ unlessEmpty aad ++
    unlessEmpty message)
  full.take nonceSize (by decide)

end Napqes.C
