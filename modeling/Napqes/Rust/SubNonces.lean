import Napqes.Format.SubNonces
import Napqes.Rust.Proofs.StreamEncrypt

/-!
# Sub-nonces of the Rust stream encryptor

`encrypt_stream_ae_v8_with_nonce` once more, with a `derive_stream_v8_sub_nonce` that hands out what
it is given, wherever it is called. `chunk` counts the chunks and is no variable of the source.
-/

namespace Napqes.Rust

/-- `deriveStreamV8SubNonce`, handed out. -/
def deriveStreamV8SubNonceUse {ε : Type} (H : Hmac) (skFmt nonce : List UInt8) (chunk idx : Nat) :
    Gen ε SubNonceUse (FixedBytes nonceSize) := do
  Gen.yield ⟨chunk, idx⟩
  return deriveStreamV8SubNonce H skFmt nonce idx

section
variable (H : Hmac) (primes : List Nat) (skFmt : FixedBytes 32) (nonce : FixedBytes nonceSize)
  (aad : List UInt8) (f : Nat)

/-- `emitStreamV8Chunk` with its derivation. -/
def emitStreamV8ChunkUses (codepointsF : List Nat) (chunk idx : Nat) :
    Gen (Fault String) SubNonceUse (List UInt8) := do
  let subNonce ← deriveStreamV8SubNonceUse H skFmt nonce chunk idx
  let tokens ← (infallible (encryptV8StreamChunkCore H codepointsF primes skFmt subNonce) :
    RustM String (List Nat))
  let blob := fixedEncodeTokens tokens
  let ks ← (infallible (varintKeystream H skFmt subNonce blob.length) : RustM String (List UInt8))
  let masked := xorBytes blob ks
  let tag := computeStreamV8ChunkTag H skFmt codepointsF.length nonce idx aad masked
  return beBytes 4 masked.length ++ (masked ++ tag.toList)

/-- `streamFiller` with its derivation. -/
def streamFillerUses (chunk chunkIdx fillNeeded : Nat) :
    Gen (Fault String) SubNonceUse (List Nat) := do
  let subNonceLast ← deriveStreamV8SubNonceUse H skFmt nonce chunk chunkIdx
  return (List.range fillNeeded).map (deriveStreamV8FillerCp H skFmt subNonceLast)

/-- `encryptStreamLoop` with its derivations. -/
def encryptStreamLoopUses : Str → StreamState → Nat →
    Gen (Fault String) SubNonceUse (StreamState × Nat)
  | [], st, chunk => return (st, chunk)
  | ch :: rest, st, chunk => do
      let cpBuf := st.cpBuf ++ [ch.toNat]
      let totalRealCps ← (u64 (st.totalRealCps + 1) : RustM String Nat)
      if cpBuf.length ≥ f then
        let next ← nextStreamChunkIdx st.chunkIdx
        let frame ← emitStreamV8ChunkUses H primes skFmt nonce aad (cpBuf.take f) chunk st.chunkIdx
        encryptStreamLoopUses rest
          { stream := st.stream ++ frame, cpBuf := cpBuf.drop f, totalRealCps, chunkIdx := next }
          (chunk + 1)
      else encryptStreamLoopUses rest { st with cpBuf, totalRealCps } chunk

/-- `flushStreamChunk` with its derivations. -/
def flushStreamChunkUses (st : StreamState) (chunk : Nat) :
    Gen (Fault String) SubNonceUse StreamState :=
  if st.cpBuf.isEmpty then return st
  else do
    let next ← nextStreamChunkIdx st.chunkIdx
    if st.cpBuf.length > f then Gen.lift (panics "attempt to subtract with overflow")
    else
      let filler ← streamFillerUses H skFmt nonce chunk st.chunkIdx (f - st.cpBuf.length)
      let cpBuf := st.cpBuf ++ filler
      let frame ← emitStreamV8ChunkUses H primes skFmt nonce aad cpBuf chunk st.chunkIdx
      return { st with stream := st.stream ++ frame, cpBuf, chunkIdx := next }

end

/-- `encryptStreamAeV8WithNonce` with its derivations. -/
def encryptStreamUses (H : Hmac) (plaintext : Str) (primes : List Nat) (sk : FixedBytes skSize)
    (nonce : FixedBytes nonceSize) (aad : List UInt8) (f : Nat) :
    Gen (Fault String) SubNonceUse (List UInt8) := do
  validateKey primes
  validateStreamV8Frame f
  let skFmt := deriveFormatSubkey H sk formatStreamAeV8
  let (st, chunk) ← encryptStreamLoopUses H primes skFmt nonce aad f plaintext
    { stream := streamV8Header f nonce, cpBuf := [], totalRealCps := 0, chunkIdx := 0 } 0
  let st ← flushStreamChunkUses H primes skFmt nonce aad f st chunk
  return st.stream ++ streamSentinel H skFmt nonce aad f st.chunkIdx st.totalRealCps

variable {H : Hmac} {primes : List Nat} {skFmt : FixedBytes 32} {nonce : FixedBytes nonceSize}
  {aad : List UInt8} {f : Nat}

/-! ## The derivation -/

theorem handsOutIndex_deriveStreamV8SubNonceUse {ε : Type} (H : Hmac) (skFmt nonce : List UInt8) :
    HandsOutIndex H skFmt nonce FixedBytes.toList
      (deriveStreamV8SubNonceUse (ε := ε) H skFmt nonce) where
  derives _ idx _ := ⟨deriveStreamV8SubNonce H skFmt nonce idx, rfl, rfl⟩
  injective _ hi _ hj := subNonceMessage_inj hi hj

/-! ## Forgetting the derivations -/

theorem outcome_emitStreamV8ChunkUses (codepointsF : List Nat) (chunk idx : Nat) :
    (emitStreamV8ChunkUses H primes skFmt nonce aad codepointsF chunk idx).outcome =
      infallible (emitStreamV8Chunk H codepointsF idx primes skFmt nonce aad) := by
  rw [emitStreamV8ChunkUses, emitStreamV8Chunk, deriveStreamV8SubNonceUse, Gen.bind_assoc,
    Gen.yield_bind, Gen.pure_eq, Gen.ok_bind]
  dsimp only
  rcases encryptV8StreamChunkCore H codepointsF primes skFmt
    (deriveStreamV8SubNonce H skFmt nonce idx) with (e | msg) | tokens
  · exact e.elim
  · rfl
  · rw [infallible_ok, Gen.liftM_ok_bind, ok_bind]
    rcases varintKeystream H skFmt (deriveStreamV8SubNonce H skFmt nonce idx).toList
      (fixedEncodeTokens tokens).length with (e | msg) | ks
    · exact e.elim
    · rfl
    · rfl

theorem outcome_streamFillerUses (chunk chunkIdx fillNeeded : Nat) :
    (streamFillerUses H skFmt nonce chunk chunkIdx fillNeeded).outcome =
      .ok (streamFiller H skFmt nonce chunkIdx fillNeeded) := rfl

theorem outcome_encryptStreamLoopUses (s : Str) (st : StreamState) (chunk : Nat) :
    (encryptStreamLoopUses H primes skFmt nonce aad f s st chunk).outcome.map Prod.fst =
      encryptStreamLoop H primes skFmt nonce aad f s st := by
  induction s generalizing st chunk with
  | nil => rfl
  | cons ch rest ih =>
      rw [encryptStreamLoopUses, encryptStreamLoop]
      cases (u64 (st.totalRealCps + 1) : RustM String Nat) with
      | error e => rfl
      | ok total =>
          rw [Gen.liftM_ok_bind, ok_bind]
          by_cases hfull : (st.cpBuf ++ [ch.toNat]).length ≥ f
          · rw [if_pos hfull, if_pos hfull]
            cases nextStreamChunkIdx st.chunkIdx with
            | error e => rfl
            | ok next =>
                rw [Gen.liftM_ok_bind, ok_bind, Gen.bind_outcome, outcome_emitStreamV8ChunkUses]
                cases (infallible (emitStreamV8Chunk H ((st.cpBuf ++ [ch.toNat]).take f)
                  st.chunkIdx primes skFmt nonce aad) : RustM String (List UInt8)) with
                | error e => rfl
                | ok frame => exact ih _ _
          · rw [if_neg hfull, if_neg hfull]
            exact ih _ _

theorem outcome_flushStreamChunkUses (st : StreamState) (chunk : Nat) :
    (flushStreamChunkUses H primes skFmt nonce aad f st chunk).outcome =
      flushStreamChunk H primes skFmt nonce aad f st := by
  rw [flushStreamChunkUses, flushStreamChunk]
  by_cases hnil : st.cpBuf.isEmpty = true
  · rw [if_pos hnil, if_pos hnil]
    rfl
  · rw [if_neg hnil, if_neg hnil]
    cases nextStreamChunkIdx st.chunkIdx with
    | error e => rfl
    | ok next =>
        rw [Gen.liftM_ok_bind, ok_bind]
        by_cases hlong : st.cpBuf.length > f
        · rw [if_pos hlong, if_pos hlong]
          rfl
        · rw [if_neg hlong, if_neg hlong, Gen.bind_outcome, outcome_streamFillerUses, ok_bind,
            Gen.bind_outcome, outcome_emitStreamV8ChunkUses]
          rfl

/-- The run ends as the encryptor does. -/
theorem outcome_encryptStreamUses (plaintext : Str) (sk : FixedBytes skSize) :
    (encryptStreamUses H plaintext primes sk nonce aad f).outcome =
      encryptStreamAeV8WithNonce H plaintext primes sk nonce aad f := by
  rw [encryptStreamUses, encryptStreamAeV8WithNonce]
  cases validateKey primes with
  | error e => rfl
  | ok _ =>
      rw [Gen.liftM_ok_bind, ok_bind]
      cases validateStreamV8Frame f with
      | error e => rfl
      | ok _ =>
          rw [Gen.liftM_ok_bind, ok_bind, encryptStreamAeV8Inner,
            ← outcome_encryptStreamLoopUses plaintext _ 0, Gen.bind_outcome]
          cases (encryptStreamLoopUses H primes (deriveFormatSubkey H sk formatStreamAeV8) nonce aad
            f plaintext { stream := streamV8Header f nonce, cpBuf := [], totalRealCps := 0,
                          chunkIdx := 0 } 0).outcome with
          | error e => rfl
          | ok p =>
              obtain ⟨st, chunk⟩ := p
              rw [ok_bind, Gen.bind_outcome, outcome_flushStreamChunkUses]
              rfl

/-! ## Indices -/

theorem eq_of_nextStreamChunkIdx {idx next : Nat} (h : nextStreamChunkIdx idx = .ok next) :
    next = idx + 1 := by
  rw [nextStreamChunkIdx] at h
  split at h
  · exact (Except.ok.inj h).symm
  · cases h

/-- A derivation for a chunk whose number is the index. -/
theorem deriveStreamV8SubNonceUse_idx {ε : Type} (key : List UInt8) {chunk idx : Nat}
    (hidx : idx = chunk) :
    (deriveStreamV8SubNonceUse (ε := ε) H key nonce.toList chunk idx).Satisfies
      (fun u => u.idx = u.chunk) (fun _ => True) :=
  .yield_bind hidx (.pure trivial)

theorem emitStreamV8ChunkUses_idx (codepointsF : List Nat) {chunk idx : Nat} (hidx : idx = chunk) :
    (emitStreamV8ChunkUses H primes skFmt nonce aad codepointsF chunk idx).Satisfies
      (fun u => u.idx = u.chunk) (fun _ => True) := by
  rw [emitStreamV8ChunkUses]
  refine .bind (deriveStreamV8SubNonceUse_idx _ hidx) fun _ _ => ?_
  refine .bind (.lift fun _ _ => trivial) fun _ _ => ?_
  exact .bind (.lift fun _ _ => trivial) fun _ _ => .pure trivial

/-- While the index is the number of the chunk, every derivation is made with that number. -/
theorem encryptStreamLoopUses_idx (s : Str) {st : StreamState} {chunk : Nat}
    (hidx : st.chunkIdx = chunk) :
    (encryptStreamLoopUses H primes skFmt nonce aad f s st chunk).Satisfies
      (fun u => u.idx = u.chunk) (fun p => p.1.chunkIdx = p.2) := by
  induction s generalizing st chunk with
  | nil => exact .pure hidx
  | cons ch rest ih =>
      rw [encryptStreamLoopUses]
      refine .bind (.lift fun _ _ => trivial) fun total _ => ?_
      split
      case isTrue =>
        refine .bind (.lift fun _ hnext => eq_of_nextStreamChunkIdx hnext) fun next hnext => ?_
        refine .bind (emitStreamV8ChunkUses_idx _ hidx) fun frame _ => ?_
        apply ih
        rw [hnext, hidx]
      case isFalse => exact ih hidx

theorem streamFillerUses_idx {chunk chunkIdx : Nat} (hidx : chunkIdx = chunk) (fillNeeded : Nat) :
    (streamFillerUses H skFmt nonce chunk chunkIdx fillNeeded).Satisfies
      (fun u => u.idx = u.chunk) (fun _ => True) :=
  .bind (deriveStreamV8SubNonceUse_idx _ hidx) fun _ _ => .pure trivial

theorem flushStreamChunkUses_idx {st : StreamState} {chunk : Nat} (hidx : st.chunkIdx = chunk) :
    (flushStreamChunkUses H primes skFmt nonce aad f st chunk).Satisfies
      (fun u => u.idx = u.chunk) (fun _ => True) := by
  rw [flushStreamChunkUses]
  split
  case isTrue => exact .pure trivial
  case isFalse =>
    refine .bind (.lift fun _ _ => trivial) fun next _ => ?_
    split
    case isTrue => exact .lift fun _ _ => trivial
    case isFalse =>
      refine .bind (streamFillerUses_idx hidx _) fun filler _ => ?_
      exact .bind (emitStreamV8ChunkUses_idx _ hidx) fun _ _ => .pure trivial

/-! ## Every chunk -/

theorem emitStreamV8ChunkUses_covers (codepointsF : List Nat) (chunk idx : Nat) :
    UsesCover (emitStreamV8ChunkUses H primes skFmt nonce aad codepointsF chunk idx) chunk
      (fun _ => chunk + 1) (fun _ => True) :=
  .of_mem (Gen.mem_bind_yielded (x := deriveStreamV8SubNonceUse H skFmt nonce chunk idx)
    List.mem_cons_self _)

theorem streamFillerUses_covers (chunk chunkIdx fillNeeded : Nat) :
    UsesCover (streamFillerUses H skFmt nonce chunk chunkIdx fillNeeded) chunk (fun _ => chunk + 1)
      (fun _ => True) :=
  .of_mem (Gen.mem_bind_yielded (x := deriveStreamV8SubNonceUse H skFmt nonce chunk chunkIdx)
    List.mem_cons_self _)

/-- The loop ends at the number of full chunks that it has seen. -/
theorem encryptStreamLoopUses_covers (s : Str) {st : StreamState} {chunk n : Nat}
    (hst : ChunksAfter f n chunk st.cpBuf.length) :
    UsesCover (encryptStreamLoopUses H primes skFmt nonce aad f s st chunk) chunk Prod.snd
      (fun p => ChunksAfter f (n + s.length) p.2 p.1.cpBuf.length) := by
  induction s generalizing st chunk n with
  | nil => exact .pure (Nat.le_refl chunk) hst
  | cons ch rest ih =>
      have hlen : (st.cpBuf ++ [ch.toNat]).length = st.cpBuf.length + 1 := by simp
      rw [encryptStreamLoopUses, List.length_cons,
        show n + (rest.length + 1) = n + 1 + rest.length by omega]
      refine .bind (.lift fun _ _ => trivial) fun total _ => ?_
      split
      case isTrue hfull =>
        refine .bind (.lift fun _ _ => trivial) fun next _ => ?_
        refine .bind (emitStreamV8ChunkUses_covers _ chunk _) fun frame _ => ih ?_
        rw [List.length_drop, hlen]
        exact hst.full (hlen ▸ hfull)
      case isFalse hroom =>
        refine ih ?_
        rw [hlen]
        exact hst.push (hlen ▸ Nat.lt_of_not_le hroom)

theorem flushStreamChunkUses_covers (st : StreamState) (chunk : Nat) :
    UsesCover (flushStreamChunkUses H primes skFmt nonce aad f st chunk) chunk
      (fun _ => chunk + if st.cpBuf.length = 0 then 0 else 1) (fun _ => True) := by
  rw [flushStreamChunkUses]
  by_cases hnil : st.cpBuf.length = 0
  · rw [if_pos hnil, if_pos (by simpa using hnil)]
    exact .pure (Nat.le_refl chunk) trivial
  · rw [if_neg hnil, if_neg (by simpa using hnil)]
    refine .bind (.lift fun _ _ => trivial) fun next _ => ?_
    split
    case isTrue => exact fun _ h => by cases h
    case isFalse =>
      exact .bind (streamFillerUses_covers chunk st.chunkIdx _) fun _ _ =>
        .of_le fun _ => Nat.le_refl _

/-- A stream that is completed has made a derivation for each of its chunks. -/
theorem encryptStreamUses_covers (plaintext : Str) (sk : FixedBytes skSize) (hf : 1 ≤ f) :
    UsesCover (encryptStreamUses H plaintext primes sk nonce aad f) 0
      (fun _ => chunkCount plaintext.length f) (fun _ => True) := by
  rw [encryptStreamUses]
  refine .bind (.lift fun _ _ => trivial) fun _ _ => ?_
  refine .bind (.lift fun _ _ => trivial) fun _ _ => ?_
  refine .bind (encryptStreamLoopUses_covers plaintext (.zero hf)) ?_
  rintro ⟨st, chunk⟩ hcount
  rw [← Nat.zero_add plaintext.length, hcount.chunkCount]
  exact .bind (flushStreamChunkUses_covers st chunk) fun _ _ => .pure (Nat.le_refl _) trivial

/-- No two chunks of a stream get one index. -/
theorem distinctIndices_encryptStreamUses (plaintext : Str) (sk : FixedBytes skSize) :
    DistinctIndices (encryptStreamUses H plaintext primes sk nonce aad f).yielded := by
  have hrun : (encryptStreamUses H plaintext primes sk nonce aad f).Satisfies
      (fun u => u.idx = u.chunk) (fun _ => True) := by
    rw [encryptStreamUses]
    refine .bind (.lift fun _ _ => trivial) fun _ _ => ?_
    refine .bind (.lift fun _ _ => trivial) fun _ _ => ?_
    refine .bind (encryptStreamLoopUses_idx plaintext rfl) fun p hp => ?_
    exact .bind (flushStreamChunkUses_idx hp) fun _ _ => .pure trivial
  exact distinctIndices_of_eq hrun.yielded

/-- A stream that would need more chunks than there are indices is refused. -/
theorem encryptStreamAeV8WithNonce_eq_err {plaintext : Str} (sk : FixedBytes skSize)
    (hcount : 2 ^ 32 - 1 < chunkCount plaintext.length f) :
    ∃ e, encryptStreamAeV8WithNonce H plaintext primes sk nonce aad f = .error (.err e) := by
  rw [encryptStreamAeV8WithNonce]
  rcases (returns_validateKey primes).ok_or_err with ⟨_, hkey⟩ | ⟨e, hkey⟩
  · rw [hkey, ok_bind]
    by_cases hf : 1 ≤ f ∧ f ≤ 16384
    · have hlimit : ¬ (pieces f plaintext.codepoints).length < 2 ^ 32 := by
        rw [length_pieces hf.1, Str.codepoints, List.length_map, ← chunkCount]
        omega
      rw [(validateStreamV8Frame_iff f).mpr hf, ok_bind,
        encryptStreamAeV8Inner_eq ((validateKey_iff primes).mp hkey) hf, if_neg hlimit]
      exact ⟨_, rfl⟩
    · have hrange : f < 1 ∨ f > streamAeV8MaxFrame := by
        rw [streamAeV8MaxFrame]
        omega
      rw [validateStreamV8Frame, if_pos hrange]
      exact ⟨_, rfl⟩
  · rw [hkey]
    exact ⟨e, rfl⟩

end Napqes.Rust
