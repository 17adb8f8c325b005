import Napqes.Format.Stream
import Napqes.Rust.Proofs.Block

/-!
# The Rust stream encryptor computes the stream format

The buffering loop and the final flush together emit one frame for each piece of the
plaintext, or stop at the chunk limit.
-/

namespace Napqes.Rust

variable {H : Hmac} {primes : List Nat} {skFmt : FixedBytes 32} {nonce : FixedBytes nonceSize}
  {aad : List UInt8} {f : Nat}

theorem validateStreamV8Frame_iff (f : Nat) :
    validateStreamV8Frame f = .ok ⟨⟩ ↔ 1 ≤ f ∧ f ≤ 16384 := by
  unfold validateStreamV8Frame streamAeV8MaxFrame
  split
  case isTrue h =>
    simp only [err, reduceCtorEq, false_iff]
    omega
  case isFalse h =>
    simp only [true_iff]
    omega

/-- The error at the chunk limit. -/
def chunkLimit {α : Type} : RustM String α := err "v8 stream exceeds the 2^32 - 1 chunk limit."

theorem nextStreamChunkIdx_of_lt {idx : Nat} (h : idx + 1 < 2 ^ 32) :
    nextStreamChunkIdx idx = .ok (idx + 1) := if_pos h

theorem nextStreamChunkIdx_of_not_lt {idx : Nat} (h : ¬ idx + 1 < 2 ^ 32) :
    nextStreamChunkIdx idx = chunkLimit := if_neg h

/-- A chunk of `f` codepoints is emitted as its frame. -/
theorem emitStreamV8Chunk_eq_ok (hkey : KeyValid primes) (hf : f ≤ 16384) {cps : List Nat}
    (hlen : cps.length = f) (hcps : ∀ c ∈ cps, IsScalar c) (idx : Nat) :
    emitStreamV8Chunk H cps idx primes skFmt nonce aad =
      .ok (sealFrame H primes skFmt aad f nonce idx cps).bytes := by
  have hblob : (fixedEncodeTokens (tokensOf H primes skFmt.toList
      (deriveStreamV8SubNonce H skFmt.toList nonce.toList idx).toList cps)).length ≤
        32 * (2 ^ 32 - 1) := by
    rw [fixedEncodeTokens, length_flatMap_beBytes, length_tokensOf, hlen, tokenWidth]
    omega
  rw [emitStreamV8Chunk, encryptV8StreamChunkCore,
    emitTokensV8_eq_ok H _ _ hkey (fun c hc => (hcps c hc).lt), ok_bind]
  simp only [varintKeystream_eq_ok H _ _ hblob, ok_bind, hlen]
  rfl

/-- What the encryptor returns from a loop state on: the rest of the loop, the flush and the
sentinel. -/
def finishStream (H : Hmac) (primes : List Nat) (skFmt : FixedBytes 32)
    (nonce : FixedBytes nonceSize) (aad : List UInt8) (f : Nat) (rest : Str) (st : StreamState) :
    RustM String (List UInt8) := do
  let st ← encryptStreamLoop H primes skFmt nonce aad f rest st
  let st ← flushStreamChunk H primes skFmt nonce aad f st
  return st.stream ++ streamSentinel H skFmt nonce aad f st.chunkIdx st.totalRealCps

/-- The loop state is consistent: the buffer is not full and the count is the number of
codepoints in the emitted chunks and the buffer. -/
structure StreamInv (f : Nat) (st : StreamState) : Prop where
  buf_lt : st.cpBuf.length < f
  idx_lt : st.chunkIdx < 2 ^ 32
  total_eq : st.totalRealCps = st.chunkIdx * f + st.cpBuf.length
  scalar : ∀ c ∈ st.cpBuf, IsScalar c

theorem StreamInv.total_lt {st : StreamState} (h : StreamInv f st) (hf : f ≤ 16384) :
    st.totalRealCps + 1 < 2 ^ 64 := by
  have hmul : st.chunkIdx * f ≤ 2 ^ 32 * 16384 := Nat.mul_le_mul (Nat.le_of_lt h.idx_lt) hf
  have := h.buf_lt
  have := h.total_eq
  omega

theorem isScalar_of_mem_concat {buf : List Nat} (h : ∀ c ∈ buf, IsScalar c) (ch : Char) :
    ∀ c ∈ buf ++ [ch.toNat], IsScalar c := by
  intro c hc
  rcases List.mem_append.mp hc with hc | hc
  · exact h c hc
  · rw [List.mem_singleton.mp hc]
    exact isScalar_toNat ch

/-- One more codepoint, while the buffer is not full, keeps the state consistent. -/
theorem StreamInv.push {st : StreamState} (h : StreamInv f st) (ch : Char)
    (hlt : (st.cpBuf ++ [ch.toNat]).length < f) :
    StreamInv f { st with cpBuf := st.cpBuf ++ [ch.toNat]
                          totalRealCps := st.totalRealCps + 1 } where
  buf_lt := hlt
  idx_lt := h.idx_lt
  total_eq := by
    have := h.total_eq
    simp only [List.length_append, List.length_singleton]
    omega
  scalar := isScalar_of_mem_concat h.scalar ch

/-- Flushing a full buffer keeps the state consistent. -/
theorem StreamInv.flush {st : StreamState} (h : StreamInv f st) (ch : Char)
    (hlen : (st.cpBuf ++ [ch.toNat]).length = f) (hidx : st.chunkIdx + 1 < 2 ^ 32)
    (hf : 1 ≤ f) (stream : List UInt8) :
    StreamInv f { stream, cpBuf := [], totalRealCps := st.totalRealCps + 1,
                  chunkIdx := st.chunkIdx + 1 } where
  buf_lt := hf
  idx_lt := hidx
  total_eq := by
    have := h.total_eq
    simp only [List.length_append, List.length_singleton] at hlen
    simp only [Nat.add_mul, List.length_nil]
    omega
  scalar := by simp

/-- From a consistent state the encryptor emits a frame for each piece of what is buffered
and unread, unless there are too many pieces. -/
theorem finishStream_eq (hkey : KeyValid primes) (hf : 1 ≤ f ∧ f ≤ 16384) (rest : Str)
    (st : StreamState) (hinv : StreamInv f st) :
    finishStream H primes skFmt nonce aad f rest st =
      let ps := pieces f (st.cpBuf ++ rest.codepoints)
      if st.chunkIdx + ps.length < 2 ^ 32 then
        .ok (st.stream ++ framesBytes (sealFrames H primes skFmt aad f nonce st.chunkIdx ps) ++
          streamSentinel H skFmt nonce aad f (st.chunkIdx + ps.length)
            (st.totalRealCps + rest.length))
      else chunkLimit := by
  induction rest generalizing st with
  | nil =>
      simp only [finishStream, encryptStreamLoop, ok_bind, flushStreamChunk, Str.codepoints,
        List.map_nil, List.append_nil, List.length_nil, Nat.add_zero]
      by_cases hnil : st.cpBuf = []
      · simp only [hnil, pieces_nil, List.length_nil, Nat.add_zero, if_pos hinv.idx_lt]
        simp [framesBytes, sealFrames, pure, Except.pure]
      · have hempty : ¬ st.cpBuf.isEmpty = true := by simpa using hnil
        rw [if_neg hempty, pieces_of_length_le hf.1 hnil (Nat.le_of_lt hinv.buf_lt)]
        simp only [List.length_cons, List.length_nil, Nat.zero_add]
        by_cases hidx : st.chunkIdx + 1 < 2 ^ 32
        · have hfill : emitStreamV8Chunk H (filled H skFmt f nonce st.chunkIdx st.cpBuf)
              st.chunkIdx primes skFmt nonce aad = _ :=
            emitStreamV8Chunk_eq_ok hkey hf.2
              (length_filled (Nat.le_of_lt hinv.buf_lt) st.chunkIdx)
              (isScalar_of_mem_filled hinv.scalar st.chunkIdx) st.chunkIdx
          simp only [filled] at hfill
          rw [if_pos hidx, nextStreamChunkIdx_of_lt hidx]
          simp only [ok_bind, if_neg (Nat.not_lt.mpr (Nat.le_of_lt hinv.buf_lt)), hfill,
            infallible_ok]
          simp [sealFrames, framesBytes, filled, pure, Except.pure]
        · rw [if_neg hidx, nextStreamChunkIdx_of_not_lt hidx]
          rfl
  | cons ch rest ih =>
      have hbuf := hinv.buf_lt
      have hscalar := isScalar_of_mem_concat hinv.scalar ch
      have hassoc : st.cpBuf ++ Str.codepoints (ch :: rest) =
          (st.cpBuf ++ [ch.toNat]) ++ Str.codepoints rest := by
        simp [Str.codepoints]
      rw [hassoc, finishStream, encryptStreamLoop, u64_of_lt (hinv.total_lt hf.2), ok_bind]
      simp only [List.length_cons]
      by_cases hfull : (st.cpBuf ++ [ch.toNat]).length ≥ f
      · have hlen : (st.cpBuf ++ [ch.toNat]).length = f := by
          simp only [List.length_append, List.length_singleton] at hfull ⊢
          omega
        rw [if_pos hfull, pieces_append hf.1 hlen, List.take_of_length_le (Nat.le_of_eq hlen),
          List.drop_of_length_le (Nat.le_of_eq hlen)]
        simp only [List.length_cons]
        by_cases hidx : st.chunkIdx + 1 < 2 ^ 32
        · -- The buffer is full: its frame is the first one, the rest follows from an empty buffer.
          have hnext := ih _ (hinv.flush ch hlen hidx hf.1 (st.stream ++
            (sealFrame H primes skFmt aad f nonce st.chunkIdx (st.cpBuf ++ [ch.toNat])).bytes))
          have hfilled : filled H skFmt f nonce st.chunkIdx (st.cpBuf ++ [ch.toNat]) =
              st.cpBuf ++ [ch.toNat] := by
            simp [filled, streamFiller, hlen]
          rw [nextStreamChunkIdx_of_lt hidx, ok_bind,
            emitStreamV8Chunk_eq_ok hkey hf.2 hlen hscalar, infallible_ok, ok_bind]
          refine hnext.trans ?_
          simp only [List.nil_append]
          rw [show st.chunkIdx + 1 + (pieces f (Str.codepoints rest)).length =
              st.chunkIdx + ((pieces f (Str.codepoints rest)).length + 1) by omega,
            show st.totalRealCps + 1 + rest.length = st.totalRealCps + (rest.length + 1) by omega]
          simp [sealFrames, framesBytes, hfilled]
        · rw [nextStreamChunkIdx_of_not_lt hidx, if_neg (by omega)]
          rfl
      · -- The buffer is not full yet: the loop goes on with the longer buffer.
        rw [if_neg hfull]
        refine (ih _ (hinv.push ch (Nat.lt_of_not_le hfull))).trans ?_
        rw [show st.totalRealCps + 1 + rest.length = st.totalRealCps + (rest.length + 1) by omega]

/-- `encrypt_stream_ae_v8_inner` returns the stream of the format, or fails at the chunk
limit. -/
theorem encryptStreamAeV8Inner_eq (hkey : KeyValid primes) (hf : 1 ≤ f ∧ f ≤ 16384)
    (plaintext : Str) :
    encryptStreamAeV8Inner H plaintext primes skFmt nonce aad f =
      if (pieces f plaintext.codepoints).length < 2 ^ 32 then
        .ok (sealStream H primes skFmt aad f nonce plaintext.codepoints)
      else chunkLimit := by
  have h := @finishStream_eq H primes skFmt nonce aad f hkey hf
    plaintext { stream := streamV8Header f nonce, cpBuf := [], totalRealCps := 0, chunkIdx := 0 }
    { buf_lt := hf.1, idx_lt := by simp, total_eq := by simp, scalar := by simp }
  refine Eq.trans ?_ (h.trans ?_)
  · rfl
  · simp only [List.nil_append, Nat.zero_add, sealStream, length_sealFrames, List.append_assoc,
      Str.codepoints, List.length_map]
    rfl

end Napqes.Rust
