import Napqes.C.Proofs.Stream
import Napqes.C.StreamEncrypt

/-!
# Chunk indices of the C stream encryptor

The index of a chunk is its number modulo `2^32`. Nothing stops the encryptor when the index wraps:
it completes the stream, or, where `size_t` cannot hold the length of the stream, writes past its
end.
-/

namespace Napqes.C

variable {H : Hmac} {primes : List UInt64} {skFmt nonce aad : List UInt8} {f total : Nat}

/-! ## The derivation -/

theorem handsOutIndex_deriveStreamV8SubNonceUse (H : Hmac) (skFmt nonce : List UInt8) :
    HandsOutIndex H skFmt nonce FixedBytes.toList
      (deriveStreamV8SubNonceUse H skFmt nonce) where
  derives _ idx _ := by
    refine ⟨deriveStreamV8SubNonce H skFmt nonce idx, rfl, ?_⟩
    rw [deriveStreamV8SubNonce_eq]
    rfl
  injective _ hi _ hj := subNonceMessage_inj hi hj

/-- What follows a derivation goes on with its sub-nonce. -/
theorem deriveStreamV8SubNonceUse_bind {α : Type} (skFmt nonce : List UInt8) (chunk idx : Nat)
    (next : FixedBytes nonceSize → Gen Fault SubNonceUse α) :
    (deriveStreamV8SubNonceUse H skFmt nonce chunk idx >>= next) =
      ⟨⟨chunk, idx⟩ :: (next (deriveStreamV8SubNonce H skFmt nonce idx)).yielded,
        (next (deriveStreamV8SubNonce H skFmt nonce idx)).outcome⟩ := rfl

theorem emitStreamV8Chunk_yielded (chunkCps : List Nat) (chunk idx : Nat) :
    (emitStreamV8Chunk H chunkCps f chunk idx primes skFmt nonce aad).yielded =
      [⟨chunk, idx⟩] := by
  rw [emitStreamV8Chunk, deriveStreamV8SubNonceUse_bind, List.cons_inj_right]
  refine Gen.bind_yielded_eq_nil rfl fun blob => ?_
  exact Gen.bind_yielded_eq_nil rfl fun ks => rfl

/-- Under a valid key a chunk of `f` codepoints has a frame. -/
theorem exists_emitStreamV8Chunk (hkey : KeyValid (primesNat primes)) (hf : f ≤ 16384)
    {cps : List Nat} (hlen : cps.length = f) (chunk idx : Nat) :
    ∃ frame, emitStreamV8Chunk H cps f chunk idx primes skFmt nonce aad =
        ⟨[⟨chunk, idx⟩], .ok frame⟩ ∧
      frame.length = 36 + f * 160 := by
  have hne := length_primes_ne_zero hkey
  let subNonce := (deriveStreamV8SubNonce H skFmt nonce idx).toList
  let blob := (tokensOf H (primesNat primes) skFmt subNonce cps).flatMap (beBytes 8)
  have hblob : blob.length = f * 160 := by
    rw [length_flatMap_beBytes, length_tokensOf, hlen]
    omega
  obtain ⟨ks, hks, hmask⟩ := exists_varintKeystreamAlloc H skFmt subNonce blob (by omega)
  have hmasked : (xorBytes blob ks).length = f * 160 := by rw [hmask, length_maskWith, hblob]
  let tag := computeStreamV8ChunkTag H skFmt f nonce idx aad (xorBytes blob ks)
  refine ⟨be4Write (xorBytes blob ks).length ++ (xorBytes blob ks ++ tag.toList), ?_, ?_⟩
  · rw [emitStreamV8Chunk, deriveStreamV8SubNonceUse_bind, encryptV8StreamChunkCore, if_neg hne]
    dsimp only
    rw [emitTokensV8_eq_ok _ _ _ hkey, Gen.liftM_ok_bind, hks, Gen.liftM_ok_bind]
    rfl
  · simp only [List.length_append, be4Write_eq, length_beBytes, hmasked, FixedBytes.length_toList,
      tagSize]
    omega

/-! ## The loop -/

/-- The state after `n` bytes of the message. -/
structure StreamInv (f n : Nat) (st : StreamState) : Prop where
  buf_lt : st.cpBuf.length < f
  count : n = st.chunk * f + st.cpBuf.length
  idx : st.chunkIdx = st.chunk % 2 ^ 32
  length : st.stream.length = 21 + st.chunk * (36 + f * 160)

/-- What a part of a run may derive before byte `n`. -/
def UsesBefore (f n : Nat) (uses : List SubNonceUse) : Prop :=
  ∀ u ∈ uses, u.idx = u.chunk % 2 ^ 32 ∧ u.chunk * f < n

/-- How a part of a run ends at byte `n`: in a state, with all the chunks since `chunk` derived, or
past the end of the allocated stream. -/
def EndsAt (f total n chunk : Nat) (r : Gen Fault SubNonceUse StreamState) : Prop :=
  (∃ st, r.outcome = .ok st ∧ StreamInv f n st ∧
    ∀ c, chunk ≤ c → c < st.chunk → ⟨c, c % 2 ^ 32⟩ ∈ r.yielded) ∨
  (∃ why, r.outcome = .error (.undefined why)) ∧
    total < 65 + chunkCount n f * (36 + f * 160)

theorem emitChunk_yielded (st : StreamState) (cps : List Nat) (totalRealCps : Nat) :
    (emitChunk H primes skFmt nonce aad f total st cps totalRealCps).yielded =
      [⟨st.chunk, st.chunkIdx⟩] := by
  rw [emitChunk, Gen.bind_yielded, emitStreamV8Chunk_yielded]
  cases (emitStreamV8Chunk H cps f st.chunk st.chunkIdx primes skFmt nonce aad).outcome with
  | error e => rfl
  | ok frame =>
      dsimp only
      rw [Gen.bind_yielded_eq_nil rfl fun stream => rfl]
      rfl

/-- A full chunk is written, or does not fit. -/
theorem emitChunk_outcome (hkey : KeyValid (primesNat primes)) (hf : f ≤ 16384) (st : StreamState)
    {cps : List Nat} (hlen : cps.length = f) (totalRealCps : Nat) :
    (∃ stream, stream.length = st.stream.length + (36 + f * 160) ∧
      (emitChunk H primes skFmt nonce aad f total st cps totalRealCps).outcome =
        .ok { stream, cpBuf := [], totalRealCps, chunkIdx := (st.chunkIdx + 1) % 2 ^ 32,
              chunk := st.chunk + 1 }) ∨
    total < st.stream.length + (36 + f * 160) ∧
      ∃ why, (emitChunk H primes skFmt nonce aad f total st cps totalRealCps).outcome =
        .error (.undefined why) := by
  obtain ⟨frame, hframe, hflen⟩ := @exists_emitStreamV8Chunk H primes skFmt nonce aad f hkey hf cps
    hlen st.chunk st.chunkIdx
  rw [emitChunk, hframe, Gen.ok_bind, writeStream, hflen]
  by_cases hfits : st.stream.length + (36 + f * 160) > total
  · rw [if_pos hfits]
    exact Or.inr ⟨hfits, _, rfl⟩
  · rw [if_neg hfits]
    refine Or.inl ⟨st.stream ++ frame, ?_, rfl⟩
    rw [List.length_append, hflen]

/-- The state after a full chunk. -/
theorem StreamInv.emit {n : Nat} {st : StreamState} (hst : StreamInv f n st) (hf : 1 ≤ f)
    {stream : List UInt8} (hlen : stream.length = st.stream.length + (36 + f * 160))
    (totalRealCps : Nat) :
    StreamInv f ((st.chunk + 1) * f)
      { stream, cpBuf := [], totalRealCps, chunkIdx := (st.chunkIdx + 1) % 2 ^ 32,
        chunk := st.chunk + 1 } where
  buf_lt := hf
  count := rfl
  idx := by rw [hst.idx, Nat.mod_add_mod]
  length := by
    rw [hlen, hst.length, Nat.add_mul]
    omega

/-- One more chunk in front. -/
theorem EndsAt.of_emit {n chunk : Nat} {r : Gen Fault SubNonceUse StreamState} (idx : Nat)
    (hidx : idx = chunk % 2 ^ 32) (h : EndsAt f total n (chunk + 1) r) :
    EndsAt f total n chunk ⟨⟨chunk, idx⟩ :: r.yielded, r.outcome⟩ := by
  rcases h with ⟨st, hok, hst, hall⟩ | hundef
  · refine Or.inl ⟨st, hok, hst, ?_⟩
    intro c hc hlt
    rcases Nat.eq_or_lt_of_le hc with rfl | hgt
    · rw [hidx]
      exact List.mem_cons_self
    · exact List.mem_cons_of_mem _ (hall c hgt hlt)
  · exact Or.inr hundef

/-- The loop over the message. -/
theorem encryptStreamLoop_spec (hkey : KeyValid (primesNat primes)) (hf : 1 ≤ f ∧ f ≤ 16384)
    (message : List UInt8) {n : Nat} {st : StreamState} (hst : StreamInv f n st) :
    UsesBefore f (n + message.length)
      (encryptStreamLoop H primes skFmt nonce aad f total message st).yielded ∧
    EndsAt f total (n + message.length) st.chunk
      (encryptStreamLoop H primes skFmt nonce aad f total message st) := by
  induction message generalizing n st with
  | nil =>
      refine ⟨?_, Or.inl ⟨st, rfl, hst, ?_⟩⟩
      · intro u hu
        cases hu
      · intro c hc hlt
        omega
  | cons b message ih =>
      have hbuf := hst.buf_lt
      have hcount := hst.count
      rw [encryptStreamLoop]
      by_cases hfull : (st.cpBuf ++ [b.toNat]).length ≥ f
      · -- The byte completes a chunk.
        have hlen : (st.cpBuf ++ [b.toNat]).length = f := by
          rw [List.length_append, List.length_singleton] at hfull ⊢
          omega
        have hend : n + 1 = (st.chunk + 1) * f := by
          rw [List.length_append, List.length_singleton] at hlen
          rw [Nat.add_mul]
          omega
        have huse : st.chunk * f < n + 1 + message.length := by
          rw [hcount]
          omega
        rw [if_pos hfull, List.length_cons,
          show n + (message.length + 1) = n + 1 + message.length by omega]
        rcases @emitChunk_outcome H primes skFmt nonce aad f total hkey hf.2 st _ hlen
          ((st.totalRealCps + 1) % 2 ^ 64) with ⟨stream, hslen, hok⟩ | ⟨hbig, why, hundef⟩
        · obtain ⟨huses, hends⟩ := ih (hst.emit hf.1 hslen ((st.totalRealCps + 1) % 2 ^ 64))
          rw [← hend] at huses hends
          rw [Gen.bind_of_ok hok, emitChunk_yielded]
          refine ⟨?_, hends.of_emit st.chunkIdx hst.idx⟩
          intro u hu
          rcases List.mem_cons.mp hu with rfl | hu
          · exact ⟨hst.idx, huse⟩
          · exact huses u hu
        · rw [Gen.bind_of_error hundef, emitChunk_yielded]
          refine ⟨?_, Or.inr ⟨⟨why, rfl⟩, ?_⟩⟩
          · intro u hu
            obtain rfl := List.mem_singleton.mp hu
            exact ⟨hst.idx, huse⟩
          have hchunk := lt_chunkCount hf.1 huse
          have hmul := Nat.mul_le_mul_right (36 + f * 160) (Nat.succ_le_of_lt hchunk)
          rw [Nat.succ_mul] at hmul
          rw [hst.length] at hbig
          omega
      · have hnext : StreamInv f (n + 1) { st with
            cpBuf := st.cpBuf ++ [b.toNat]
            totalRealCps := (st.totalRealCps + 1) % 2 ^ 64 } :=
          { buf_lt := by simpa using hfull
            count := by
              rw [List.length_append, List.length_singleton, ← Nat.add_assoc, ← hcount]
            idx := hst.idx
            length := hst.length }
        rw [if_neg hfull, List.length_cons,
          show n + (message.length + 1) = n + 1 + message.length by omega]
        exact ih hnext

/-- The partial last chunk. -/
theorem flushStreamChunk_spec (hkey : KeyValid (primesNat primes)) (hf : 1 ≤ f ∧ f ≤ 16384)
    {n : Nat} {st : StreamState} (hst : StreamInv f n st) :
    UsesBefore f n (flushStreamChunk H primes skFmt nonce aad f total st).yielded ∧
    ((∃ st', (flushStreamChunk H primes skFmt nonce aad f total st).outcome = .ok st' ∧
        st'.stream.length = 21 + chunkCount n f * (36 + f * 160)) ∨
      (∃ why, (flushStreamChunk H primes skFmt nonce aad f total st).outcome =
        .error (.undefined why)) ∧ total < 65 + chunkCount n f * (36 + f * 160)) ∧
    (st.cpBuf ≠ [] → ⟨st.chunk, st.chunk % 2 ^ 32⟩ ∈
      (flushStreamChunk H primes skFmt nonce aad f total st).yielded) := by
  have hchunks : chunkCount n f = st.chunk + if st.cpBuf.length = 0 then 0 else 1 := by
    rw [hst.count]
    exact chunkCount_eq hst.buf_lt
  rw [flushStreamChunk]
  by_cases hpos : st.cpBuf.length > 0
  · rw [if_neg (by omega)] at hchunks
    rw [if_pos hpos, hchunks, Nat.add_mul, Nat.one_mul, deriveStreamV8SubNonceUse_bind]
    dsimp only
    rw [emitChunk_yielded]
    have huse : st.chunk * f < n := by
      rw [hst.count]
      omega
    refine ⟨?_, ?_, ?_⟩
    · intro u hu
      obtain rfl : u = ⟨st.chunk, st.chunkIdx⟩ := by simpa using hu
      exact ⟨hst.idx, huse⟩
    · have hbuf := hst.buf_lt
      rcases @emitChunk_outcome H primes skFmt nonce aad f total hkey hf.2 st
        (st.cpBuf ++ (List.range (f - st.cpBuf.length)).map (deriveStreamV8FillerCp H skFmt
          (deriveStreamV8SubNonce H skFmt nonce st.chunkIdx)))
        (by simp; omega) st.totalRealCps with ⟨stream, hslen, hok⟩ | ⟨hbig, hundef⟩
      · refine Or.inl ⟨_, hok, ?_⟩
        rw [hslen, hst.length]
        omega
      · refine Or.inr ⟨hundef, ?_⟩
        rw [hst.length] at hbig
        omega
    · intro _
      rw [← hst.idx]
      exact List.mem_cons_self
  · rw [if_pos (by omega), Nat.add_zero] at hchunks
    rw [if_neg hpos, hchunks]
    refine ⟨?_, Or.inl ⟨st, rfl, hst.length⟩, ?_⟩
    · intro u hu
      cases hu
    · intro hne
      exact absurd (List.length_pos_iff.mpr hne) hpos

/-! ## Whole runs -/

/-- The allocated length is never too long. -/
theorem streamTotal_le (n f : Nat) : streamTotal n f ≤ 65 + chunkCount n f * (36 + f * 160) := by
  have hdiv : (n + f - 1) % 2 ^ 64 / f ≤ chunkCount n f := Nat.div_le_div_right (Nat.mod_le ..)
  have hmul := Nat.mul_le_mul_right (36 + f * 160) hdiv
  have hmod := Nat.mod_le (21 + (n + f - 1) % 2 ^ 64 / f * (36 + f * 160) + 44) (2 ^ 64)
  rw [streamTotal, show 4 + f * 160 + tagSize = 36 + f * 160 by rw [tagSize]; omega]
  omega

/-- Where `size_t` holds the length of the stream, the allocated length is that length. -/
theorem streamTotal_eq {n f : Nat} (hn : n + f ≤ 2 ^ 64)
    (h : 65 + chunkCount n f * (36 + f * 160) < 2 ^ 64) :
    streamTotal n f = 65 + chunkCount n f * (36 + f * 160) := by
  rw [streamTotal, Nat.mod_eq_of_lt (show n + f - 1 < 2 ^ 64 by omega), ← chunkCount,
    show 4 + f * 160 + tagSize = 36 + f * 160 by rw [tagSize]; omega, Nat.mod_eq_of_lt (by omega)]
  omega

theorem length_streamSentinel (skFmt nonce aad : List UInt8) (f idx totalRealCps : Nat) :
    (streamSentinel H skFmt nonce aad f idx totalRealCps).length = 44 := by
  simp [streamSentinel, beWriteLoop_eq, tagSize]

/-- The run after the header. -/
def afterHeader (H : Hmac) (primes : List UInt64) (skFmt nonce aad : List UInt8) (f total : Nat)
    (message : List UInt8) (st : StreamState) : Gen Fault SubNonceUse (List UInt8) := do
  let st ← encryptStreamLoop H primes skFmt nonce aad f total message st
  let st ← flushStreamChunk H primes skFmt nonce aad f total st
  let stream ← writeStream total st.stream
    (streamSentinel H skFmt nonce aad f st.chunkIdx st.totalRealCps)
  if stream.length ≠ total then Gen.lift null else return stream

/-- The sentinel fills the allocation, or does not fit. -/
theorem writeSentinel_outcome {n : Nat} {st : StreamState}
    (hlen : st.stream.length = 21 + chunkCount n f * (36 + f * 160))
    (htotal : total ≤ 65 + chunkCount n f * (36 + f * 160)) :
    ∃ outcome, ((do
      let stream ← writeStream total st.stream
        (streamSentinel H skFmt nonce aad f st.chunkIdx st.totalRealCps)
      if stream.length ≠ total then Gen.lift null else return stream) :
        Gen Fault SubNonceUse (List UInt8)) = ⟨[], outcome⟩ ∧
      ((∃ stream, outcome = .ok stream) ∨ (∃ why, outcome = .error (.undefined why)) ∧
        total < 65 + chunkCount n f * (36 + f * 160)) := by
  rw [writeStream, length_streamSentinel, hlen]
  by_cases hbig : 21 + chunkCount n f * (36 + f * 160) + 44 > total
  · rw [if_pos hbig]
    exact ⟨_, rfl, Or.inr ⟨⟨_, rfl⟩, by omega⟩⟩
  · have hfull : ¬ (st.stream ++ streamSentinel H skFmt nonce aad f st.chunkIdx
        st.totalRealCps).length ≠ total := by
      rw [List.length_append, length_streamSentinel, hlen]
      omega
    rw [if_neg hbig, Gen.liftM_ok_bind, if_neg hfull]
    exact ⟨_, rfl, Or.inl ⟨_, rfl⟩⟩

theorem afterHeader_spec (hkey : KeyValid (primesNat primes)) (hf : 1 ≤ f ∧ f ≤ 16384)
    (message : List UInt8) {st : StreamState} (hst : StreamInv f 0 st) (hchunk : st.chunk = 0)
    (htotal : total ≤ 65 + chunkCount message.length f * (36 + f * 160)) :
    let run := afterHeader H primes skFmt nonce aad f total message st
    UsesBefore f message.length run.yielded ∧
      ((∃ stream, run.outcome = .ok stream ∧
          ∀ c < chunkCount message.length f, ⟨c, c % 2 ^ 32⟩ ∈ run.yielded) ∨
        (∃ why, run.outcome = .error (.undefined why)) ∧
          total < 65 + chunkCount message.length f * (36 + f * 160)) := by
  intro run
  obtain ⟨huses, hloop⟩ := @encryptStreamLoop_spec H primes skFmt nonce aad f total hkey hf message
    0 st hst
  rw [Nat.zero_add] at huses hloop
  rcases hloop with ⟨st', hok, hst', hall⟩ | ⟨⟨why, hundef⟩, hbig⟩
  case inr =>
    rw [show run = _ from Gen.bind_of_error hundef _]
    exact ⟨huses, Or.inr ⟨⟨why, rfl⟩, hbig⟩⟩
  case inl =>
    obtain ⟨hflush, hend, hlast⟩ := @flushStreamChunk_spec H primes skFmt nonce aad f total hkey hf
      _ st' hst'
    have hboth : UsesBefore f message.length
        ((encryptStreamLoop H primes skFmt nonce aad f total message st).yielded ++
          (flushStreamChunk H primes skFmt nonce aad f total st').yielded) := by
      intro u hu
      rcases List.mem_append.mp hu with hu | hu
      · exact huses u hu
      · exact hflush u hu
    rcases hend with ⟨st'', hok', hlen⟩ | ⟨⟨why, hundef⟩, hbig⟩
    · obtain ⟨outcome, hsentinel, hout⟩ := @writeSentinel_outcome H skFmt nonce aad f total _ st''
        hlen htotal
      have hrun : run = ⟨(encryptStreamLoop H primes skFmt nonce aad f total message st).yielded ++
          (flushStreamChunk H primes skFmt nonce aad f total st').yielded, outcome⟩ := by
        refine (Gen.bind_of_ok hok _).trans ?_
        rw [Gen.bind_of_ok hok', hsentinel, List.append_nil]
      rw [hrun]
      refine ⟨hboth, ?_⟩
      rcases hout with ⟨stream, rfl⟩ | hbig
      · refine Or.inl ⟨stream, rfl, ?_⟩
        intro c hc
        rw [hst'.count, chunkCount_eq hst'.buf_lt] at hc
        by_cases hlt : c < st'.chunk
        · exact List.mem_append_left _ (hall c (by omega) hlt)
        · by_cases hnil : st'.cpBuf = []
          · rw [hnil, List.length_nil, if_pos rfl] at hc
            exact absurd hc hlt
          · rw [if_neg (fun h => hnil (List.length_eq_zero_iff.mp h))] at hc
            obtain rfl : c = st'.chunk := by omega
            exact List.mem_append_right _ (hlast hnil)
      · exact Or.inr hbig
    · have hrun : run = ⟨(encryptStreamLoop H primes skFmt nonce aad f total message st).yielded ++
          (flushStreamChunk H primes skFmt nonce aad f total st').yielded,
            .error (.undefined why)⟩ := by
        refine (Gen.bind_of_ok hok _).trans ?_
        rw [Gen.bind_of_error hundef]
      rw [hrun]
      exact ⟨hboth, Or.inr ⟨⟨why, rfl⟩, hbig⟩⟩

variable {sk : FixedBytes skSize} {streamNonce : FixedBytes nonceSize}

/-- A run under a valid key and frame size: it makes a derivation for every chunk, with the number
of the chunk modulo `2^32`, and completes, unless the stream does not fit its allocation. -/
theorem encryptStreamV8Impl_spec (hkey : KeyValid (primesNat primes)) (hf : 1 ≤ f ∧ f ≤ 16384)
    {bytes : List UInt8} (hbytes : ∀ b ∈ bytes, b ≠ 0) (rest : List UInt8) :
    let run := encryptStreamV8Impl H (bytes ++ 0 :: rest) primes sk streamNonce aad f
    UsesBefore f bytes.length run.yielded ∧
      ((∃ stream, run.outcome = .ok stream ∧
          ∀ c < chunkCount bytes.length f, ⟨c, c % 2 ^ 32⟩ ∈ run.yielded) ∨
        (∃ why, run.outcome = .error (.undefined why)) ∧
          streamTotal bytes.length f < 65 + chunkCount bytes.length f * (36 + f * 160)) := by
  have hvalid : ¬ (!validateKey primes) = true := by simp [(validateKey_iff primes).mpr hkey]
  have hframe : ¬ (f < 1 ∨ f > streamAeV8MaxFrame) := by
    rw [streamAeV8MaxFrame]
    omega
  have hheader : (streamV8Header f streamNonce.toList).length = 21 := by
    rw [streamV8Header_eq, Rust.length_streamV8Header f streamNonce.length_toList]
  rw [encryptStreamV8Impl, if_neg hvalid, if_neg hframe, strlen_append hbytes, Gen.liftM_ok_bind,
    List.take_left' rfl]
  dsimp only
  rw [writeStream, List.length_nil, Nat.zero_add, hheader]
  by_cases hsmall : 21 > streamTotal bytes.length f
  · rw [if_pos hsmall]
    refine ⟨?_, Or.inr ⟨⟨_, rfl⟩, by omega⟩⟩
    intro u hu
    cases hu
  · rw [if_neg hsmall, Gen.liftM_ok_bind]
    refine afterHeader_spec hkey hf bytes ⟨hf.1, ?_, rfl, ?_⟩ rfl (streamTotal_le ..)
    · simp
    · simp [hheader]

end Napqes.C
