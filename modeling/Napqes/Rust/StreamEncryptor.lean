import Napqes.Rust.Stream

/-!
# The incremental stream encryptor (`rust/src/lib.rs:2593-2739`)

`StreamV8Encryptor` emits the header from its constructor, a frame from every `push` that
completes a chunk, and the rest from `finish`. A call on `&mut self` returns the new state
next to its result; wiping a consumed buffer leaves an empty one.
-/

namespace Napqes.Rust

/-- `StreamV8Encryptor` (`lib.rs:2599-2610`). -/
structure StreamV8Encryptor where
  primes : List Nat
  skFmt : FixedBytes 32
  aad : List UInt8
  nonce : FixedBytes nonceSize
  f : Nat
  chunkIdx : Nat
  totalRealCps : Nat
  cpBuf : List Nat
  finished : Bool

namespace StreamV8Encryptor

variable (H : Hmac)

/-- `StreamV8Encryptor::new_validated` (`lib.rs:2641-2670`); `nonce` is the CSPRNG draw. -/
def newValidated (nonce : FixedBytes nonceSize) (primes : List Nat) (sk : FixedBytes skSize)
    (aad : List UInt8) (frameCodepoints : Nat) :
    RustM String (StreamV8Encryptor × List UInt8) := do
  validateStreamV8Frame frameCodepoints
  let skFmt := deriveFormatSubkey H sk formatStreamAeV8
  return ({ primes, skFmt, aad, nonce, f := frameCodepoints, chunkIdx := 0, totalRealCps := 0,
            cpBuf := [], finished := false },
    streamV8Header frameCodepoints nonce)

/-- `StreamV8Encryptor::push` (`lib.rs:2674-2704`). -/
def push (self : StreamV8Encryptor) (ch : Char) :
    RustM String (Option (List UInt8) × StreamV8Encryptor) :=
  if self.finished then err "StreamV8Encryptor: push after finish"
  else if self.chunkIdx = 2 ^ 32 - 1 then err "v8 stream exceeds the 2^32 - 1 chunk limit."
  else do
    let cpBuf := self.cpBuf ++ [ch.toNat]
    let totalRealCps ← u64 (self.totalRealCps + 1)
    if cpBuf.length ≥ self.f then
      let frame ← infallible (emitStreamV8Chunk H (cpBuf.take self.f) self.chunkIdx self.primes
        self.skFmt self.nonce self.aad)
      let chunkIdx ← u32 (self.chunkIdx + 1)
      return (some frame, { self with cpBuf := [], totalRealCps, chunkIdx })
    else return (none, { self with cpBuf, totalRealCps })

/-- `StreamV8Encryptor::finish` (`lib.rs:2708-2739`). -/
def finish (self : StreamV8Encryptor) : RustM String (List UInt8) :=
  if self.finished then err "StreamV8Encryptor: finish called twice"
  else if self.cpBuf.isEmpty then
    .ok (streamSentinel H self.skFmt self.nonce self.aad self.f self.chunkIdx self.totalRealCps)
  else if self.cpBuf.length > self.f then panics "attempt to subtract with overflow"
  else do
    let cpBuf := self.cpBuf ++ streamFiller H self.skFmt self.nonce self.chunkIdx
      (self.f - self.cpBuf.length)
    let frame ← infallible (emitStreamV8Chunk H cpBuf self.chunkIdx self.primes self.skFmt
      self.nonce self.aad)
    let chunkIdx ← u32 (self.chunkIdx + 1)
    return frame ++
      streamSentinel H self.skFmt self.nonce self.aad self.f chunkIdx self.totalRealCps

/-- A caller that pushes every character in turn and concatenates the `Some` outputs. -/
def pushAll (self : StreamV8Encryptor) : Str → RustM String (List UInt8 × StreamV8Encryptor)
  | [] => .ok ([], self)
  | ch :: rest => do
      let (frame, self) ← self.push H ch
      let (out, self) ← self.pushAll rest
      return (frame.getD [] ++ out, self)

/-- A whole incremental run: the header, the frames of every push, the output of `finish`. -/
def run (nonce : FixedBytes nonceSize) (primes : List Nat) (sk : FixedBytes skSize)
    (aad : List UInt8) (frameCodepoints : Nat) (plaintext : Str) : RustM String (List UInt8) := do
  let (self, header) ← newValidated H nonce primes sk aad frameCodepoints
  let (frames, self) ← self.pushAll H plaintext
  let last ← self.finish H
  return header ++ (frames ++ last)

end StreamV8Encryptor

end Napqes.Rust
