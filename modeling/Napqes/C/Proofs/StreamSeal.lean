import Napqes.C.Proofs.StreamEncrypt

/-!
# The C stream encryptor writes the format

With fewer than `2^32` chunks no counter of `encrypt_stream_v8_impl` wraps: the pieces that its
buffer goes through are those of the format, and the bytes it writes are the stream of the message,
read as Latin-1.
-/

namespace Napqes.C

variable {H : Hmac} {primes : List UInt64} {skFmt : FixedBytes 32} {nonce : FixedBytes 16}
  {aad : List UInt8} {f total : Nat}

/-- A chunk is the frame of the format. -/
theorem emitStreamV8Chunk_eq (hkey : KeyValid (primesNat primes)) (hf : f ≤ 16384)
    {cps : List Nat} (hlen : cps.length = f) (chunk idx : Nat) :
    emitStreamV8Chunk H cps f chunk idx primes skFmt.toList nonce.toList aad =
      ⟨[⟨chunk, idx⟩], .ok (sealFrame H (primesNat primes) skFmt aad f nonce idx cps).bytes⟩ := by
  have hne := length_primes_ne_zero hkey
  let subNonce := (Rust.deriveStreamV8SubNonce H skFmt.toList nonce.toList idx).toList
  let blob := (tokensOf H (primesNat primes) skFmt.toList subNonce cps).flatMap (beBytes 8)
  have hblob : blob.length = f * 160 := by
    rw [length_flatMap_beBytes, length_tokensOf, hlen]
    omega
  obtain ⟨ks, hks, hmask⟩ := exists_varintKeystreamAlloc H skFmt.toList subNonce blob (by omega)
  have htokens := emitTokensV8_eq_ok H skFmt.toList subNonce hkey cps
  rw [emitStreamV8Chunk, deriveStreamV8SubNonceUse_bind, deriveStreamV8SubNonce_eq,
    encryptV8StreamChunkCore, if_neg hne]
  dsimp only
  rw [htokens, Gen.liftM_ok_bind, hks, Gen.liftM_ok_bind, hmask, be4Write_eq,
    computeStreamV8ChunkTag_eq]
  rfl

/-! ## The loop -/

/-- Where the loop stands after the bytes of `before`: `full` are the pieces it has written. -/
structure SealInv (H : Hmac) (primes : List UInt64) (skFmt : FixedBytes 32)
    (nonce : FixedBytes 16) (aad : List UInt8) (f : Nat) (before : List Nat)
    (full : List (List Nat)) (st : StreamState) : Prop where
  cut : Cut f before full st.cpBuf
  stream : st.stream = Rust.streamV8Header f nonce.toList ++
    framesBytes (sealFrames H (primesNat primes) skFmt aad f nonce 0 full)
  chunkIdx : st.chunkIdx = full.length
  totalRealCps : st.totalRealCps = before.length

/-- A chunk that was emitted is the next piece. -/
theorem of_emitChunk (hkey : KeyValid (primesNat primes)) (hf : f ≤ 16384) {st st' : StreamState}
    {cps : List Nat} (hlen : cps.length = f) {totalRealCps : Nat}
    (h : (emitChunk H primes skFmt.toList nonce.toList aad f total st cps totalRealCps).outcome =
      .ok st') :
    st'.stream = st.stream ++
        (sealFrame H (primesNat primes) skFmt aad f nonce st.chunkIdx cps).bytes ∧
      st'.cpBuf = [] ∧ st'.totalRealCps = totalRealCps ∧
      st'.chunkIdx = (st.chunkIdx + 1) % 2 ^ 32 := by
  rw [emitChunk, emitStreamV8Chunk_eq hkey hf hlen, Gen.ok_bind, writeStream] at h
  dsimp only at h
  split at h
  case isTrue => cases h
  case isFalse =>
    rw [← Except.ok.inj h]
    exact ⟨rfl, rfl, rfl, rfl⟩

/-- One more piece at the end is one more frame at the end. -/
theorem framesBytes_sealFrames_concat (ps : List (List Nat)) (p : List Nat) :
    framesBytes (sealFrames H (primesNat primes) skFmt aad f nonce 0 (ps ++ [p])) =
      framesBytes (sealFrames H (primesNat primes) skFmt aad f nonce 0 ps) ++
        (sealFrame H (primesNat primes) skFmt aad f nonce ps.length
          (filled H skFmt f nonce ps.length p)).bytes := by
  rw [sealFrames_append, Nat.zero_add, framesBytes, List.flatMap_append, sealFrames, sealFrames,
    List.flatMap_singleton]
  rfl

/-- A full buffer goes out as the next piece. -/
theorem SealInv.emit (hkey : KeyValid (primesNat primes)) (hf : 1 ≤ f ∧ f ≤ 16384)
    {before : List Nat} {full : List (List Nat)} {st st' : StreamState}
    (hst : SealInv H primes skFmt nonce aad f before full st) {c : Nat}
    (hlen : (st.cpBuf ++ [c]).length = f) (hidx : full.length + 1 < 2 ^ 32)
    (htotal : before.length + 1 < 2 ^ 64)
    (h : (emitChunk H primes skFmt.toList nonce.toList aad f total st (st.cpBuf ++ [c])
      ((st.totalRealCps + 1) % 2 ^ 64)).outcome = .ok st') :
    SealInv H primes skFmt nonce aad f (before ++ [c]) (full ++ [st.cpBuf ++ [c]]) st' := by
  obtain ⟨hstream, hbuf, hcount, hnext⟩ := of_emitChunk hkey hf.2 hlen h
  have hpiece : Cut f (st.cpBuf ++ [c]) [st.cpBuf ++ [c]] [] := by
    have hnil : Cut f ([] : List Nat) [] [] := Cut.refl hf.1
    have := hnil.cons hf.1 hlen
    rwa [List.append_nil] at this
  exact
    { cut := by
        rw [hbuf]
        exact hst.cut.trans hpiece
      stream := by
        rw [hstream, hst.stream, framesBytes_sealFrames_concat, filled_of_length hlen,
          hst.chunkIdx, List.append_assoc]
      chunkIdx := by
        rw [hnext, hst.chunkIdx, List.length_append, List.length_singleton]
        exact Nat.mod_eq_of_lt hidx
      totalRealCps := by
        rw [hcount, hst.totalRealCps, List.length_append, List.length_singleton]
        exact Nat.mod_eq_of_lt htotal }

/-- The loop over the bytes of the message. -/
theorem sealInv_of_encryptStreamLoop (hkey : KeyValid (primesNat primes))
    (hf : 1 ≤ f ∧ f ≤ 16384) {message : List UInt8} {before : List Nat} {full : List (List Nat)}
    {st st' : StreamState} (hst : SealInv H primes skFmt nonce aad f before full st)
    (hroom : before.length + message.length ≤ (2 ^ 32 - 1) * f)
    (h : (encryptStreamLoop H primes skFmt.toList nonce.toList aad f total message st).outcome =
      .ok st') :
    ∃ full', SealInv H primes skFmt nonce aad f (before ++ message.map UInt8.toNat) full' st' := by
  induction message generalizing before full st with
  | nil =>
      obtain rfl := Except.ok.inj h
      exact ⟨full, by rwa [List.map_nil, List.append_nil]⟩
  | cons b message ih =>
      rw [List.length_cons] at hroom
      have hbefore := hst.cut.length_add hf.1
      have hshort := hst.cut.short
      have hlen : (st.cpBuf ++ [b.toNat]).length = st.cpBuf.length + 1 := by simp
      have hsmall : (2 ^ 32 - 1) * f ≤ (2 ^ 32 - 1) * 16384 := Nat.mul_le_mul_left _ hf.2
      have hroom' : (before ++ [b.toNat]).length + message.length ≤ (2 ^ 32 - 1) * f := by
        rw [List.length_append, List.length_singleton]
        omega
      rw [List.map_cons, ← List.singleton_append, ← List.append_assoc]
      rw [encryptStreamLoop] at h
      by_cases hfull : (st.cpBuf ++ [b.toNat]).length ≥ f
      · have hmul : (full.length + 1) * f ≤ (2 ^ 32 - 1) * f := by
          rw [Nat.add_mul]
          omega
        have hidx := Nat.le_of_mul_le_mul_right hmul (by omega)
        rw [if_pos hfull] at h
        obtain ⟨mid, hmid, hrest⟩ := Gen.bind_outcome_eq_ok.mp h
        exact ih (hst.emit hkey hf (by omega) (by omega) (by omega) hmid) hroom' hrest
      · rw [if_neg hfull] at h
        have hnext : SealInv H primes skFmt nonce aad f (before ++ [b.toNat]) full
            { st with
              cpBuf := st.cpBuf ++ [b.toNat]
              totalRealCps := (st.totalRealCps + 1) % 2 ^ 64 } :=
          { cut := by
              have hcut := hst.cut.trans (Cut.refl (Nat.lt_of_not_le hfull))
              rwa [List.append_nil] at hcut
            stream := hst.stream
            chunkIdx := hst.chunkIdx
            totalRealCps := by
              rw [hst.totalRealCps, List.length_append, List.length_singleton]
              exact Nat.mod_eq_of_lt (by omega) }
        exact ih hnext hroom' h

/-- The chunk of what is left over completes the frames of the format. -/
theorem of_flushStreamChunk (hkey : KeyValid (primesNat primes)) (hf : 1 ≤ f ∧ f ≤ 16384)
    {before : List Nat} {full : List (List Nat)} {st st' : StreamState}
    (hst : SealInv H primes skFmt nonce aad f before full st)
    (hcount : (pieces f before).length < 2 ^ 32)
    (h : (flushStreamChunk H primes skFmt.toList nonce.toList aad f total st).outcome =
      .ok st') :
    st'.stream = Rust.streamV8Header f nonce.toList ++
        framesBytes (sealFrames H (primesNat primes) skFmt aad f nonce 0 (pieces f before)) ∧
      st'.chunkIdx = (pieces f before).length ∧ st'.totalRealCps = before.length := by
  have hpieces := hst.cut.pieces_eq hf.1
  have hshort := hst.cut.short
  rw [flushStreamChunk] at h
  by_cases hpos : st.cpBuf.length > 0
  · have hne : ¬ st.cpBuf.isEmpty = true := by
      rw [List.isEmpty_iff]
      exact List.length_pos_iff.mp hpos
    rw [if_neg hne] at hpieces
    rw [hpieces, List.length_append, List.length_singleton] at hcount
    rw [if_pos hpos, deriveStreamV8SubNonceUse_bind] at h
    have hfilled := @length_filled H skFmt f nonce st.cpBuf (by omega) full.length
    have hfiller : st.cpBuf ++ (List.range (f - st.cpBuf.length)).map
        (deriveStreamV8FillerCp H skFmt.toList
          (deriveStreamV8SubNonce H skFmt.toList nonce.toList st.chunkIdx).toList) =
        filled H skFmt f nonce full.length st.cpBuf := by
      rw [deriveStreamV8SubNonce_eq, hst.chunkIdx, filled, Rust.streamFiller]
      refine congrArg (st.cpBuf ++ ·) (List.map_congr_left fun i _ => ?_)
      exact derivePadChar_eq H skFmt.toList _ i
    dsimp only at h
    rw [hfiller] at h
    obtain ⟨hstream, -, hreal, hnext⟩ := of_emitChunk hkey hf.2 hfilled h
    refine ⟨?_, ?_, hreal.trans hst.totalRealCps⟩
    · rw [hpieces, hstream, hst.stream, framesBytes_sealFrames_concat, hst.chunkIdx,
        List.append_assoc]
    · rw [hpieces, hnext, hst.chunkIdx, List.length_append, List.length_singleton]
      exact Nat.mod_eq_of_lt hcount
  · have hnil : st.cpBuf = [] := List.length_eq_zero_iff.mp (by omega)
    rw [hnil] at hpieces
    rw [if_neg hpos] at h
    obtain rfl := Except.ok.inj h
    rw [hpieces]
    exact ⟨hst.stream, hst.chunkIdx, hst.totalRealCps⟩

/-! ## Whole runs -/

theorem of_writeStream {stream bytes out : List UInt8}
    (h : writeStream total stream bytes = .ok out) : out = stream ++ bytes := by
  rw [writeStream] at h
  split at h
  case isTrue => cases h
  case isFalse => exact (Except.ok.inj h).symm

/-- The sentinel of the format. -/
theorem streamSentinel_eq (count realCps : Nat) :
    streamSentinel H skFmt.toList nonce.toList aad f count realCps =
      sentinelBytes H skFmt f nonce count realCps
        (H skFmt.toList (Rust.sentinelTagInput f nonce.toList count aad realCps)).toList := by
  rw [streamSentinel, streamV8CountMask_eq, computeStreamV8SentinelTag_eq, beWriteLoop_eq]
  rfl

/-- A message in fewer than `2^32` chunks becomes the stream of the format. -/
theorem encryptStreamV8Impl_outcome (hkey : KeyValid (primesNat primes))
    (hf : 1 ≤ f ∧ f ≤ 16384) (sk : FixedBytes skSize) {bytes : List UInt8}
    (hbytes : ∀ b ∈ bytes, b ≠ 0) (rest : List UInt8)
    (hcount : (pieces f (bytes.map UInt8.toNat)).length < 2 ^ 32) :
    (encryptStreamV8Impl H (bytes ++ 0 :: rest) primes sk nonce aad f).outcome =
      .ok (sealStream H (primesNat primes)
        (Rust.deriveFormatSubkey H sk Rust.formatStreamAeV8) aad f nonce
        (bytes.map UInt8.toNat)) := by
  have hchunks : chunkCount bytes.length f = (pieces f (bytes.map UInt8.toNat)).length := by
    rw [length_pieces hf.1, List.length_map]
    rfl
  have hbound := (length_pieces_bounds hf.1 (bytes.map UInt8.toNat)).2
  have hmul := Nat.mul_le_mul_right f (Nat.le_sub_one_of_lt hcount)
  have hsmall : (2 ^ 32 - 1) * f ≤ (2 ^ 32 - 1) * 16384 := Nat.mul_le_mul_left _ hf.2
  have hwide : chunkCount bytes.length f * (36 + f * 160) ≤ 2 ^ 32 * (36 + 16384 * 160) := by
    rw [hchunks]
    exact Nat.mul_le_mul (by omega) (by omega)
  rw [List.length_map] at hbound
  have htotal := streamTotal_eq (show bytes.length + f ≤ 2 ^ 64 by omega) (by omega)
  -- Nothing is out of bounds, so the run completes.
  obtain ⟨-, ⟨stream, hok, -⟩ | ⟨-, hbig⟩⟩ := @encryptStreamV8Impl_spec H primes aad f sk nonce hkey
    hf bytes hbytes rest
  case inr => omega
  rw [hok]
  have hvalid : ¬ (!validateKey primes) = true := by simp [(validateKey_iff primes).mpr hkey]
  have hframe : ¬ (f < 1 ∨ f > streamAeV8MaxFrame) := by
    rw [streamAeV8MaxFrame]
    omega
  rw [encryptStreamV8Impl, if_neg hvalid, if_neg hframe, strlen_append hbytes, Gen.liftM_ok_bind,
    List.take_left' rfl] at hok
  dsimp only at hok
  obtain ⟨start, hstart, hok⟩ := Gen.bind_outcome_eq_ok.mp hok
  obtain ⟨st, hloop, hok⟩ := Gen.bind_outcome_eq_ok.mp hok
  obtain ⟨st', hflush, hok⟩ := Gen.bind_outcome_eq_ok.mp hok
  obtain ⟨out, hout, hok⟩ := Gen.bind_outcome_eq_ok.mp hok
  have hheader : start = Rust.streamV8Header f nonce.toList := by
    have hwrite := of_writeStream hstart
    rwa [List.nil_append, streamV8Header_eq] at hwrite
  have hstream : stream = out := by
    split at hok
    case isTrue => cases hok
    case isFalse => exact (Except.ok.inj hok).symm
  have hinit : SealInv H primes (Rust.deriveFormatSubkey H sk Rust.formatStreamAeV8) nonce aad f
      [] [] { stream := start, cpBuf := [], totalRealCps := 0, chunkIdx := 0, chunk := 0 } :=
    { cut := .refl (by rw [List.length_nil]; omega)
      stream := by rw [hheader]; exact (List.append_nil _).symm
      chunkIdx := rfl
      totalRealCps := rfl }
  obtain ⟨full, hinv⟩ := sealInv_of_encryptStreamLoop hkey hf hinit
    (by rw [List.length_nil]; omega) hloop
  obtain ⟨hframes, hidx, hreal⟩ := of_flushStreamChunk hkey hf hinv hcount hflush
  rw [List.nil_append] at hframes hidx hreal
  have hwrite := of_writeStream hout
  rw [hframes, hidx, hreal] at hwrite
  rw [hstream, hwrite, sealStream, length_sealFrames, List.append_assoc]
  exact congrArg (fun bs => Except.ok (_ ++ (_ ++ bs))) (streamSentinel_eq _ _)

end Napqes.C
