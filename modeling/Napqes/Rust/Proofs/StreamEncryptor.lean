import Napqes.Rust.Proofs.StreamEncrypt
import Napqes.Rust.StreamEncryptor

/-!
# The incremental encryptor agrees with the all-at-once encryptor

The two loops keep the same buffer, count and chunk index. They part only at the chunk limit:
`push` refuses the first codepoint of a chunk that would be one too many, the all-at-once loop
buffers on and refuses the chunk. `Simulates` relates their states while neither has failed.
-/

namespace Napqes.Rust

variable {H : Hmac} {nonce : FixedBytes nonceSize} {primes : List Nat} {skFmt : FixedBytes 32}
  {aad : List UInt8} {f : Nat}

/-- The incremental state `enc` and the loop state `st` are the same; a buffer is only ever
started when one more chunk is allowed. -/
structure Simulates (primes : List Nat) (skFmt : FixedBytes 32) (nonce : FixedBytes nonceSize)
    (aad : List UInt8) (f : Nat) (enc : StreamV8Encryptor) (st : StreamState) : Prop where
  enc_eq : enc = { primes, skFmt, aad, nonce, f, chunkIdx := st.chunkIdx,
                   totalRealCps := st.totalRealCps, cpBuf := st.cpBuf, finished := false }
  inv : StreamInv f st
  room : st.cpBuf ≠ [] → st.chunkIdx + 1 < 2 ^ 32

/-- With all chunks used up, anything left to encrypt makes the all-at-once encryptor fail. -/
theorem finishStream_at_limit (hf : 1 ≤ f ∧ f ≤ 16384) (rest : Str) (st : StreamState)
    (hinv : StreamInv f st) (hidx : ¬ st.chunkIdx + 1 < 2 ^ 32)
    (hne : st.cpBuf ≠ [] ∨ rest ≠ []) :
    finishStream H primes skFmt nonce aad f rest st = chunkLimit := by
  induction rest generalizing st with
  | nil =>
      have hbuf : ¬ st.cpBuf.isEmpty = true := by simpa using hne
      simp only [finishStream, encryptStreamLoop, ok_bind, flushStreamChunk, if_neg hbuf,
        nextStreamChunkIdx_of_not_lt hidx]
      rfl
  | cons ch rest ih =>
      rw [finishStream, encryptStreamLoop, u64_of_lt (hinv.total_lt hf.2), ok_bind]
      by_cases hfull : (st.cpBuf ++ [ch.toNat]).length ≥ f
      · rw [if_pos hfull, nextStreamChunkIdx_of_not_lt hidx]
        rfl
      · rw [if_neg hfull]
        refine ih _ ?_ hidx (Or.inl (by simp))
        exact hinv.push ch (Nat.lt_of_not_le hfull)

/-- The loops stay related: the rest of an incremental run, behind what is already written,
is the rest of the all-at-once run. -/
theorem pushAll_finish_eq (hf : 1 ≤ f ∧ f ≤ 16384) (rest : Str) (enc : StreamV8Encryptor)
    (st : StreamState) (hsim : Simulates primes skFmt nonce aad f enc st) :
    (do
      let (frames, enc) ← enc.pushAll H rest
      let last ← enc.finish H
      return st.stream ++ (frames ++ last) : RustM String (List UInt8)) =
      finishStream H primes skFmt nonce aad f rest st := by
  induction rest generalizing enc st with
  | nil =>
      obtain ⟨rfl, hinv, hroom⟩ := hsim
      simp only [StreamV8Encryptor.pushAll, ok_bind, StreamV8Encryptor.finish, finishStream,
        encryptStreamLoop, flushStreamChunk]
      by_cases hnil : st.cpBuf = []
      · simp [hnil]
      · have hidx := hroom hnil
        have hempty : ¬ st.cpBuf.isEmpty = true := by simpa using hnil
        have hlen : ¬ st.cpBuf.length > f := Nat.not_lt.mpr (Nat.le_of_lt hinv.buf_lt)
        simp only [Bool.false_eq_true, if_false, if_neg hempty, if_neg hlen, u32_of_lt hidx,
          nextStreamChunkIdx_of_lt hidx, ok_bind, bind_assoc, pure_bind, List.append_assoc,
          List.nil_append]
  | cons ch rest ih =>
      obtain ⟨rfl, hinv, hroom⟩ := hsim
      by_cases hidx : st.chunkIdx + 1 < 2 ^ 32
      · rw [finishStream, encryptStreamLoop, u64_of_lt (hinv.total_lt hf.2), ok_bind]
        have hmax : ¬ st.chunkIdx = 2 ^ 32 - 1 := by omega
        simp only [StreamV8Encryptor.pushAll, StreamV8Encryptor.push, Bool.false_eq_true,
          if_false, if_neg hmax, u64_of_lt (hinv.total_lt hf.2), ok_bind]
        by_cases hfull : (st.cpBuf ++ [ch.toNat]).length ≥ f
        · have hlen : (st.cpBuf ++ [ch.toNat]).length = f := by
            have := hinv.buf_lt
            simp only [List.length_append, List.length_singleton] at hfull ⊢
            omega
          rw [if_pos hfull, if_pos hfull, nextStreamChunkIdx_of_lt hidx, u32_of_lt hidx]
          simp only [ok_bind, bind_assoc, pure_bind, List.drop_of_length_le (Nat.le_of_eq hlen)]
          -- Both sides emit the same frame, or both panic while emitting it.
          cases infallible (emitStreamV8Chunk H ((st.cpBuf ++ [ch.toNat]).take f) st.chunkIdx
            primes skFmt nonce aad) with
          | error e => rfl
          | ok frame =>
              have hnext := ih _ { stream := st.stream ++ frame, cpBuf := [],
                                   totalRealCps := st.totalRealCps + 1,
                                   chunkIdx := st.chunkIdx + 1 }
                ⟨rfl, hinv.flush ch hlen hidx hf.1 _, fun h => absurd rfl h⟩
              simp only [ok_bind, Option.getD_some]
              simpa only [List.append_assoc, finishStream] using hnext
        · rw [if_neg hfull, if_neg hfull]
          have hnext := ih _ { st with cpBuf := st.cpBuf ++ [ch.toNat],
                                       totalRealCps := st.totalRealCps + 1 }
            ⟨rfl, hinv.push ch (Nat.lt_of_not_le hfull), fun _ => hidx⟩
          simp only [pure_bind, bind_assoc, Option.getD_none, List.nil_append]
          exact hnext
      · have hmax : st.chunkIdx = 2 ^ 32 - 1 := by
          have := hinv.idx_lt
          omega
        rw [finishStream_at_limit hf (ch :: rest) st hinv hidx (Or.inr (by simp))]
        simp [StreamV8Encryptor.pushAll, StreamV8Encryptor.push, hmax, err, chunkLimit]

/-! ## Failures -/

theorem finished_of_push_eq_ok {enc enc' : StreamV8Encryptor} {ch : Char}
    {frame : Option (List UInt8)} (h : enc.push H ch = .ok (frame, enc')) :
    enc'.finished = false := by
  unfold StreamV8Encryptor.push at h
  split at h
  case isTrue => simp [err] at h
  case isFalse hfinished =>
    split at h
    case isTrue => simp [err] at h
    case isFalse =>
      simp only [bind_eq_ok] at h
      obtain ⟨total, -, h⟩ := h
      split at h
      case isTrue =>
        simp only [bind_eq_ok, pure, Except.pure, Except.ok.injEq, Prod.mk.injEq] at h
        obtain ⟨-, -, -, -, -, rfl⟩ := h
        simpa using hfinished
      case isFalse =>
        simp only [pure, Except.pure, Except.ok.injEq, Prod.mk.injEq] at h
        obtain ⟨-, rfl⟩ := h
        simpa using hfinished

theorem finished_of_pushAll_eq_ok {rest : Str} {enc enc' : StreamV8Encryptor}
    {out : List UInt8} (hfinished : enc.finished = false)
    (h : enc.pushAll H rest = .ok (out, enc')) : enc'.finished = false := by
  induction rest generalizing enc out with
  | nil =>
      simp only [StreamV8Encryptor.pushAll, Except.ok.injEq, Prod.mk.injEq] at h
      rw [← h.2]
      exact hfinished
  | cons ch rest ih =>
      simp only [StreamV8Encryptor.pushAll, bind_eq_ok, pure, Except.pure, Except.ok.injEq,
        Prod.mk.injEq] at h
      obtain ⟨⟨frame, enc₁⟩, hpush, ⟨out₁, enc₂⟩, hrest, -, rfl⟩ := h
      exact ih (finished_of_push_eq_ok hpush) hrest

/-- `finish` on an open encryptor returns no `Err`. -/
theorem finish_ne_err {enc : StreamV8Encryptor} (hfinished : enc.finished = false) (e : String) :
    enc.finish H ≠ .error (.err e) := by
  intro h
  unfold StreamV8Encryptor.finish at h
  simp only [hfinished, Bool.false_eq_true, if_false] at h
  split at h
  case isTrue => cases h
  case isFalse =>
    split at h
    case isTrue => simp [panics] at h
    case isFalse =>
      rcases bind_eq_error h with herr | ⟨frame, -, h⟩
      · exact infallible_ne_err _ e herr
      · rcases bind_eq_error h with herr | ⟨idx, -, h⟩
        · unfold u32 at herr
          split at herr <;> simp [panics] at herr
        · cases h

/-! ## Main result -/

/-- The incremental run returns, byte for byte and failure for failure, what the all-at-once
encryptor returns, and a push returns `Err` exactly when that call does. -/
theorem run_eq_encryptStreamAeV8Inner (H : Hmac) (primes : List Nat) (sk : FixedBytes skSize)
    (aad : List UInt8) (f : Nat) (hf : 1 ≤ f ∧ f ≤ 16384) (nonce : FixedBytes nonceSize)
    (plaintext : Str) :
    let skFmt := deriveFormatSubkey H sk formatStreamAeV8
    StreamV8Encryptor.run H nonce primes sk aad f plaintext =
        encryptStreamAeV8Inner H plaintext primes skFmt nonce aad f ∧
      ∃ enc header,
        StreamV8Encryptor.newValidated H nonce primes sk aad f = .ok (enc, header) ∧
        ∀ e, enc.pushAll H plaintext = .error (.err e) ↔
          encryptStreamAeV8Inner H plaintext primes skFmt nonce aad f = .error (.err e) := by
  intro skFmt
  let enc : StreamV8Encryptor :=
    { primes, skFmt, aad, nonce, f, chunkIdx := 0, totalRealCps := 0, cpBuf := [],
      finished := false }
  let st : StreamState :=
    { stream := streamV8Header f nonce, cpBuf := [], totalRealCps := 0, chunkIdx := 0 }
  have hnew : StreamV8Encryptor.newValidated H nonce primes sk aad f =
      .ok (enc, streamV8Header f nonce) := by
    rw [StreamV8Encryptor.newValidated, (validateStreamV8Frame_iff f).mpr hf]
    rfl
  have hsim : Simulates primes skFmt nonce aad f enc st :=
    { enc_eq := rfl
      inv := { buf_lt := hf.1, idx_lt := Nat.two_pow_pos 32, total_eq := by simp [st]
               scalar := by simp [st] }
      room := fun h => absurd rfl h }
  have hrun := pushAll_finish_eq (H := H) hf plaintext enc st hsim
  have hinner : finishStream H primes skFmt nonce aad f plaintext st =
      encryptStreamAeV8Inner H plaintext primes skFmt nonce aad f := rfl
  refine ⟨?_, enc, _, hnew, fun e => ?_⟩
  · rw [StreamV8Encryptor.run, hnew, ← hinner, ← hrun]
    rfl
  · rw [← hinner, ← hrun]
    constructor
    · intro h
      rw [h]
      rfl
    · intro h
      rcases bind_eq_error h with herr | ⟨⟨out, enc'⟩, hpush, h⟩
      · exact herr
      · -- After successful pushes only `finish` could fail, and it returns no `Err`.
        rcases bind_eq_error h with herr | ⟨last, -, h⟩
        · exact absurd herr (finish_ne_err (finished_of_pushAll_eq_ok rfl hpush) e)
        · cases h

/-- Three codepoints in frames of two. -/
theorem run_eq_encryptStreamAeV8Inner_three :
    StreamV8Encryptor.run zeroHmac (.ofList 16 [1]) [1000003] (.ofList 32 []) [7] 2
        ['a', 'b', 'c'] =
      encryptStreamAeV8Inner zeroHmac ['a', 'b', 'c'] [1000003]
        (deriveFormatSubkey zeroHmac (.ofList 32 []) formatStreamAeV8) (.ofList 16 [1]) [7] 2 :=
  (run_eq_encryptStreamAeV8Inner zeroHmac [1000003] (.ofList 32 []) [7] 2 (by decide)
    (.ofList 16 [1]) ['a', 'b', 'c']).1

end Napqes.Rust
