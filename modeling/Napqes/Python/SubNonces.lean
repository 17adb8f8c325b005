import Napqes.Format.SubNonces
import Napqes.Python.Proofs.StreamV8

/-!
# Sub-nonces of the Python stream encryptor

`_encrypt_stream_ae_v8_with_nonce` once more, with a `_derive_stream_v8_sub_nonce` that hands out
what it is given, wherever it is called; the bytes are not handed out. `chunk` counts the chunks and
is no variable of the source.
-/

namespace Napqes.Python

section
variable (H : Hmac)

/-- `deriveStreamV8SubNonce`, handed out. -/
def deriveStreamV8SubNonceUse (skFmt nonce : List UInt8) (chunk chunkIdx : Nat) :
    Gen PyErr SubNonceUse (List UInt8) := do
  Gen.yield ⟨chunk, chunkIdx⟩
  deriveStreamV8SubNonce H skFmt nonce chunkIdx

/-- `emitChunk` with its derivation. -/
def emitChunkUses (primes : List Nat) (skFmt nonce aad : List UInt8) (f : Nat)
    (codepointsF : List Nat) (chunk idx : Nat) : Gen PyErr SubNonceUse (List UInt8) := do
  let subNonce ← deriveStreamV8SubNonceUse H skFmt nonce chunk idx
  let tokens ← encryptV8StreamChunkCore H codepointsF primes skFmt subNonce
  let blob ← fixedEncodeTokens tokens
  let ks ← varintKeystream H skFmt subNonce blob.length
  let masked := xorBytes blob ks
  let tag ← computeStreamV8ChunkTag H skFmt f nonce idx aad masked
  return (← toBytes 4 masked.length) ++ (masked ++ tag)

/-- `streamFiller` with its derivation. -/
def streamFillerUses (skFmt nonce : List UInt8) (chunk chunkIdx fillNeeded : Nat) :
    Gen PyErr SubNonceUse (List Nat) := do
  let subNonceLast ← deriveStreamV8SubNonceUse H skFmt nonce chunk chunkIdx
  ((List.range fillNeeded).mapM (deriveStreamV8FillerCp H skFmt subNonceLast) : PyM (List Nat))

/-- `encryptStreamLoop` with its derivations. -/
def encryptStreamLoopUses (primes : List Nat) (skFmt nonce aad : List UInt8) (f : Nat) :
    List Nat → List Nat → Nat → Nat → Nat → Gen PyErr SubNonceUse (List Nat × Nat × Nat × Nat)
  | [], cpBuf, totalRealCps, chunkIdx, chunk => return (cpBuf, totalRealCps, chunkIdx, chunk)
  | cp :: plaintext, cpBuf, totalRealCps, chunkIdx, chunk =>
      let shown := hex04 cp
      if 0xD800 ≤ cp ∧ cp ≤ 0xDFFF then
        Gen.lift (valueError (s!"Streaming plaintext contains a surrogate codepoint U+{shown}; " ++
          "the message space excludes U+D800..U+DFFF."))
      else
        let cpBuf := cpBuf ++ [cp]
        let totalRealCps := totalRealCps + 1
        if cpBuf.length ≥ f then do
          let _ ← emitChunkUses H primes skFmt nonce aad f (cpBuf.take f) chunk chunkIdx
          encryptStreamLoopUses primes skFmt nonce aad f plaintext (cpBuf.drop f) totalRealCps
            (chunkIdx + 1) (chunk + 1)
        else
          encryptStreamLoopUses primes skFmt nonce aad f plaintext cpBuf totalRealCps chunkIdx chunk

/-- `encryptStreamAeV8WithNonce` with its derivations. -/
def encryptStreamUses (mathSqrt : Nat → Nat) (plaintext primes : List Nat)
    (sk nonce aad : List UInt8) (frameCodepoints : Int) : Gen PyErr SubNonceUse PUnit := do
  validateKey mathSqrt primes
  let got := sk.length
  let nonceLen := nonce.length
  if sk.length ≠ skSize then
    Gen.lift (valueError s!"sk must be exactly {skSize} bytes, got {got}.")
  else if nonce.length ≠ nonceSize then
    Gen.lift (valueError s!"nonce must be exactly {nonceSize} bytes, got {nonceLen}.")
  else
    validateStreamV8Frame frameCodepoints
    let f := frameCodepoints.toNat
    let skFmt := deriveFormatSubkey H sk formatStreamAeV8
    let _ ← toBytes 4 f
    let (cpBuf, totalRealCps, chunkIdx, chunk) ←
      encryptStreamLoopUses H primes skFmt nonce aad f plaintext [] 0 0 0
    let mut chunkIdx := chunkIdx
    if ¬ cpBuf.isEmpty then
      let filler ← streamFillerUses H skFmt nonce chunk chunkIdx (f - cpBuf.length)
      let _ ← emitChunkUses H primes skFmt nonce aad f (cpBuf ++ filler) chunk chunkIdx
      chunkIdx := chunkIdx + 1
    let _ ← computeStreamV8SentinelTag H skFmt f nonce chunkIdx aad totalRealCps
    let mask ← streamV8CountMask H skFmt f nonce chunkIdx
    let _ ← toBytes 4 0
    let _ ← toBytes 8 (totalRealCps ^^^ mask)

end

variable {H : Hmac} {primes : List Nat} {skFmt nonce aad : List UInt8} {f : Nat}

/-! ## The derivation -/

theorem handsOutIndex_deriveStreamV8SubNonceUse (H : Hmac) (skFmt nonce : List UInt8) :
    HandsOutIndex H skFmt nonce id (deriveStreamV8SubNonceUse H skFmt nonce) where
  derives chunk idx hidx := by
    refine ⟨(H skFmt (subNonceMessage nonce idx)).toList.take nonceSize, ?_, rfl⟩
    rw [deriveStreamV8SubNonceUse, deriveStreamV8SubNonce, toBytes_of_lt (w := 4) hidx]
    rfl
  injective _ hi _ hj := subNonceMessage_inj hi hj

/-! ## Forgetting the derivations -/

theorem outcome_emitChunkUses (codepointsF : List Nat) (chunk idx : Nat) :
    (emitChunkUses H primes skFmt nonce aad f codepointsF chunk idx).outcome =
      emitChunk H primes skFmt nonce aad f codepointsF idx := by
  rw [emitChunkUses, emitChunk, deriveStreamV8SubNonceUse]
  simp only [Gen.bind_outcome, Gen.liftM_outcome, Gen.yield_outcome, ok_bind]
  rfl

theorem outcome_streamFillerUses (chunk chunkIdx fillNeeded : Nat) :
    (streamFillerUses H skFmt nonce chunk chunkIdx fillNeeded).outcome =
      streamFiller H skFmt nonce chunkIdx fillNeeded := by
  rw [streamFillerUses, streamFiller, deriveStreamV8SubNonceUse]
  simp only [Gen.bind_outcome, Gen.liftM_outcome, Gen.yield_outcome, ok_bind]

theorem outcome_encryptStreamLoopUses (plaintext cpBuf : List Nat)
    (totalRealCps chunkIdx chunk : Nat) :
    (encryptStreamLoopUses H primes skFmt nonce aad f plaintext cpBuf totalRealCps chunkIdx
      chunk).outcome.map (fun p => (p.1, p.2.1, p.2.2.1)) =
      (encryptStreamLoop H primes skFmt nonce aad f plaintext cpBuf totalRealCps
        chunkIdx).outcome := by
  induction plaintext generalizing cpBuf totalRealCps chunkIdx chunk with
  | nil => rfl
  | cons cp plaintext ih =>
      rw [encryptStreamLoopUses, encryptStreamLoop]
      dsimp only
      by_cases hsurrogate : 0xD800 ≤ cp ∧ cp ≤ 0xDFFF
      · rw [if_pos hsurrogate, if_pos hsurrogate]
        rfl
      · rw [if_neg hsurrogate, if_neg hsurrogate]
        by_cases hfull : (cpBuf ++ [cp]).length ≥ f
        · rw [if_pos hfull, if_pos hfull, Gen.bind_outcome, outcome_emitChunkUses]
          cases emitChunk H primes skFmt nonce aad f ((cpBuf ++ [cp]).take f) chunkIdx with
          | error e => rfl
          | ok frame => exact ih _ _ _ _
        · rw [if_neg hfull, if_neg hfull]
          exact ih _ _ _ _

theorem outcome_encryptStreamUses (mathSqrt : Nat → Nat) (plaintext : List Nat) (sk : List UInt8)
    (frameCodepoints : Int) :
    (encryptStreamUses H mathSqrt plaintext primes sk nonce aad frameCodepoints).outcome =
      (encryptStreamAeV8WithNonce H mathSqrt plaintext primes sk nonce aad
        frameCodepoints).outcome := by
  rw [encryptStreamUses, encryptStreamAeV8WithNonce]
  simp only [Gen.bind_outcome, apply_ite Gen.outcome, Gen.liftM_outcome, Gen.yield_outcome, ok_bind,
    outcome_emitChunkUses, outcome_streamFillerUses]
  rw [← outcome_encryptStreamLoopUses plaintext [] 0 0 0]
  simp only [map_bind]
  rfl

/-! ## Indices -/

/-- The state after `n` characters of the plaintext. -/
structure CountInv (f n : Nat) (p : List Nat × Nat × Nat × Nat) : Prop where
  chunks : ChunksAfter f n p.2.2.2 p.1.length
  idx : p.2.2.1 = p.2.2.2

/-- A derivation for a chunk whose number is the index. -/
theorem deriveStreamV8SubNonceUse_idx {chunk idx : Nat} (hidx : idx = chunk) :
    (deriveStreamV8SubNonceUse H skFmt nonce chunk idx).Satisfies
      (fun u => u.idx = u.chunk) (fun _ => True) :=
  .yield_bind hidx (.lift fun _ _ => trivial)

theorem emitChunkUses_idx (codepointsF : List Nat) {chunk idx : Nat} (hidx : idx = chunk) :
    (emitChunkUses H primes skFmt nonce aad f codepointsF chunk idx).Satisfies
      (fun u => u.idx = u.chunk) (fun _ => True) := by
  rw [emitChunkUses]
  refine .bind (deriveStreamV8SubNonceUse_idx hidx) fun _ _ => ?_
  refine .bind (.lift fun _ _ => trivial) fun _ _ => ?_
  refine .bind (.lift fun _ _ => trivial) fun _ _ => ?_
  refine .bind (.lift fun _ _ => trivial) fun _ _ => ?_
  refine .bind (.lift fun _ _ => trivial) fun _ _ => ?_
  exact .bind (.lift fun _ _ => trivial) fun _ _ => .pure trivial

theorem streamFillerUses_idx {chunk chunkIdx : Nat} (hidx : chunkIdx = chunk) (fillNeeded : Nat) :
    (streamFillerUses H skFmt nonce chunk chunkIdx fillNeeded).Satisfies
      (fun u => u.idx = u.chunk) (fun _ => True) :=
  .bind (deriveStreamV8SubNonceUse_idx hidx) fun _ _ => .lift fun _ _ => trivial

theorem encryptStreamLoopUses_spec (plaintext cpBuf : List Nat)
    (totalRealCps chunkIdx chunk : Nat) {n : Nat}
    (hinv : CountInv f n (cpBuf, totalRealCps, chunkIdx, chunk)) :
    (encryptStreamLoopUses H primes skFmt nonce aad f plaintext cpBuf totalRealCps chunkIdx
      chunk).Satisfies (fun u => u.idx = u.chunk) (CountInv f (n + plaintext.length)) := by
  induction plaintext generalizing n cpBuf totalRealCps chunkIdx chunk with
  | nil => exact .pure hinv
  | cons cp plaintext ih =>
      have hchunks : ChunksAfter f n chunk cpBuf.length := hinv.chunks
      have hidx : chunkIdx = chunk := hinv.idx
      have hlen : (cpBuf ++ [cp]).length = cpBuf.length + 1 := by simp
      rw [encryptStreamLoopUses, List.length_cons,
        show n + (plaintext.length + 1) = n + 1 + plaintext.length by omega]
      dsimp only
      split
      case isTrue => exact .lift fun _ h => by cases h
      case isFalse =>
        split
        case isTrue hfull =>
          refine .bind (emitChunkUses_idx _ hidx) fun frame _ => ?_
          apply ih
          refine ⟨?_, congrArg (· + 1) hidx⟩
          rw [List.length_drop, hlen]
          exact hchunks.full (hlen ▸ hfull)
        case isFalse hfull =>
          apply ih
          refine ⟨?_, hidx⟩
          rw [hlen]
          exact hchunks.push (hlen ▸ Nat.lt_of_not_le hfull)

theorem frame_pos {frameCodepoints : Int} {x : PUnit}
    (h : validateStreamV8Frame frameCodepoints = .ok x) : 1 ≤ frameCodepoints.toNat := by
  rw [validateStreamV8Frame] at h
  split at h
  case isTrue => cases h
  case isFalse => omega

theorem lt_of_streamV8CountMask {count mask : Nat}
    (h : streamV8CountMask H skFmt f nonce count = .ok mask) : count < 2 ^ 32 := by
  rw [streamV8CountMask] at h
  obtain ⟨_, -, h⟩ := bind_eq_ok.mp h
  obtain ⟨_, hbytes, -⟩ := bind_eq_ok.mp h
  exact (toBytes_eq_ok_iff.mp hbytes).1

/-- The sentinel needs the number of the chunks in 32 bits. -/
theorem sentinel_satisfies (chunks totalRealCps : Nat) :
    Gen.Satisfies (do
      let _ ← computeStreamV8SentinelTag H skFmt f nonce chunks aad totalRealCps
      let mask ← streamV8CountMask H skFmt f nonce chunks
      let _ ← toBytes 4 0
      let _ ← toBytes 8 (totalRealCps ^^^ mask) : Gen PyErr SubNonceUse PUnit)
      (fun u => u.idx = u.chunk) (fun _ => chunks < 2 ^ 32) := by
  refine .bind (.lift fun _ _ => trivial) fun _ _ => ?_
  refine .bind (.lift fun _ hmask => lt_of_streamV8CountMask hmask) fun _ hlt => ?_
  refine .bind (.lift fun _ _ => trivial) fun _ _ => ?_
  exact .bind (.lift fun _ _ => trivial) fun _ _ => .pure hlt

/-- Every derivation is made with the number of its chunk, and a stream is completed only if that
number fits into 32 bits. -/
theorem encryptStreamUses_spec (mathSqrt : Nat → Nat) (plaintext : List Nat) (sk : List UInt8)
    (frameCodepoints : Int) :
    (encryptStreamUses H mathSqrt plaintext primes sk nonce aad frameCodepoints).Satisfies
      (fun u => u.idx = u.chunk)
      (fun _ => chunkCount plaintext.length frameCodepoints.toNat < 2 ^ 32) := by
  rw [encryptStreamUses]
  refine .bind (.lift fun _ _ => trivial) fun _ _ => ?_
  dsimp only
  split
  case isTrue => exact .lift fun _ h => by cases h
  case isFalse =>
    split
    case isTrue => exact .lift fun _ h => by cases h
    case isFalse =>
      refine .bind (.lift fun _ hframe => frame_pos hframe) fun _ hf => ?_
      refine .bind (.lift fun _ _ => trivial) fun _ _ => ?_
      refine .bind (encryptStreamLoopUses_spec plaintext [] 0 0 0 ⟨.zero hf, rfl⟩) ?_
      rintro ⟨cpBuf, totalRealCps, chunkIdx, chunk⟩ hinv
      have hidx : chunkIdx = chunk := hinv.idx
      have hchunks : chunkCount plaintext.length frameCodepoints.toNat =
          chunkIdx + if cpBuf.length = 0 then 0 else 1 := by
        rw [hidx, ← Nat.zero_add plaintext.length]
        exact hinv.chunks.chunkCount
      rw [hchunks]
      dsimp only
      split
      case isTrue hne =>
        refine .bind (streamFillerUses_idx hidx _) fun _ _ => ?_
        refine .bind (emitChunkUses_idx _ hidx) fun _ _ => ?_
        rw [if_neg (by simpa using hne)]
        exact sentinel_satisfies _ _
      case isFalse hnil =>
        rw [if_pos (by simpa using hnil)]
        exact sentinel_satisfies _ _

/-! ## Every chunk -/

theorem emitChunkUses_covers (codepointsF : List Nat) (chunk idx : Nat) :
    UsesCover (emitChunkUses H primes skFmt nonce aad f codepointsF chunk idx) chunk
      (fun _ => chunk + 1) (fun _ => True) :=
  .of_mem (Gen.mem_bind_yielded (x := deriveStreamV8SubNonceUse H skFmt nonce chunk idx)
    List.mem_cons_self _)

theorem streamFillerUses_covers (chunk chunkIdx fillNeeded : Nat) :
    UsesCover (streamFillerUses H skFmt nonce chunk chunkIdx fillNeeded) chunk (fun _ => chunk + 1)
      (fun _ => True) :=
  .of_mem (Gen.mem_bind_yielded (x := deriveStreamV8SubNonceUse H skFmt nonce chunk chunkIdx)
    List.mem_cons_self _)

/-- The loop ends at the number of full chunks that it has seen. -/
theorem encryptStreamLoopUses_covers (plaintext cpBuf : List Nat)
    (totalRealCps chunkIdx chunk : Nat) {n : Nat} (hchunks : ChunksAfter f n chunk cpBuf.length) :
    UsesCover (encryptStreamLoopUses H primes skFmt nonce aad f plaintext cpBuf totalRealCps
        chunkIdx chunk) chunk (fun p => p.2.2.2)
      (fun p => ChunksAfter f (n + plaintext.length) p.2.2.2 p.1.length) := by
  induction plaintext generalizing n cpBuf totalRealCps chunkIdx chunk with
  | nil => exact .pure (Nat.le_refl chunk) hchunks
  | cons cp plaintext ih =>
      have hlen : (cpBuf ++ [cp]).length = cpBuf.length + 1 := by simp
      rw [encryptStreamLoopUses, List.length_cons,
        show n + (plaintext.length + 1) = n + 1 + plaintext.length by omega]
      dsimp only
      split
      case isTrue => exact fun _ h => by cases h
      case isFalse =>
        split
        case isTrue hfull =>
          refine .bind (emitChunkUses_covers _ chunk _) fun frame _ => ih _ _ _ _ ?_
          rw [List.length_drop, hlen]
          exact hchunks.full (hlen ▸ hfull)
        case isFalse hfull =>
          refine ih _ _ _ _ ?_
          rw [hlen]
          exact hchunks.push (hlen ▸ Nat.lt_of_not_le hfull)

/-- A stream that is completed has made a derivation for each of its chunks. -/
theorem encryptStreamUses_covers (mathSqrt : Nat → Nat) (plaintext : List Nat) (sk : List UInt8)
    (frameCodepoints : Int) :
    UsesCover (encryptStreamUses H mathSqrt plaintext primes sk nonce aad frameCodepoints) 0
      (fun _ => chunkCount plaintext.length frameCodepoints.toNat) (fun _ => True) := by
  rw [encryptStreamUses]
  refine .bind (.lift fun _ _ => trivial) fun _ _ => ?_
  dsimp only
  split
  case isTrue => exact fun _ h => by cases h
  case isFalse =>
    split
    case isTrue => exact fun _ h => by cases h
    case isFalse =>
      refine .bind (.lift fun _ hframe => frame_pos hframe) fun _ hf => ?_
      refine .bind (.lift fun _ _ => trivial) fun _ _ => ?_
      refine .bind (encryptStreamLoopUses_covers plaintext [] 0 0 0 (.zero hf)) ?_
      rintro ⟨cpBuf, totalRealCps, chunkIdx, chunk⟩ hcount
      rw [← Nat.zero_add plaintext.length, hcount.chunkCount]
      dsimp only
      split
      case isTrue hne =>
        rw [if_neg (by simpa using hne)]
        exact .bind (streamFillerUses_covers chunk chunkIdx _) fun _ _ =>
          .of_le fun _ => Nat.le_refl _
      case isFalse hnil =>
        rw [if_pos (by simpa using hnil)]
        exact .of_le fun _ => Nat.le_refl _

/-- A stream that would need more chunks than there are indices is refused. -/
theorem encryptStreamAeV8WithNonce_eq_error (mathSqrt : Nat → Nat) {plaintext : List Nat}
    (sk : List UInt8) {frameCodepoints : Int}
    (hcount : 2 ^ 32 - 1 < chunkCount plaintext.length frameCodepoints.toNat) :
    ∃ e, (encryptStreamAeV8WithNonce H mathSqrt plaintext primes sk nonce aad
      frameCodepoints).outcome = .error e := by
  have hspec := @encryptStreamUses_spec H primes nonce aad mathSqrt plaintext sk frameCodepoints
  rw [← outcome_encryptStreamUses]
  cases hout : (encryptStreamUses H mathSqrt plaintext primes sk nonce aad
      frameCodepoints).outcome with
  | ok _ =>
      have := hspec.outcome _ hout
      omega
  | error e => exact ⟨e, rfl⟩

end Napqes.Python
