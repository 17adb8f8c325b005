import Napqes.Misc.Pieces
import Napqes.Python.Proofs.StreamV8

/-!
# The Python v8 stream encryptor writes the format

A run of `_encrypt_stream_ae_v8_with_nonce` that ends well has cut its plaintext into pieces of
`frame_codepoints` characters, filled up the last one, and written the stream of the format.
-/

namespace Napqes.Python

variable {H : Hmac} {primes : List Nat} {skFmt : FixedBytes 32} {aad : List UInt8} {f : Nat}
  {nonce : FixedBytes 16}

/-! ## Chunks -/

/-- A chunk whose number and associated data fit their fields is the frame of the format. -/
theorem emitChunk_eq_ok (hkey : KeyValid primes) (hf : f ≤ 16384) {cps : List Nat}
    (hlen : cps.length = f) (hcps : ∀ c ∈ cps, IsScalar c) {idx : Nat} (hidx : idx < 2 ^ 32)
    (haad : aad.length < 2 ^ 64) :
    emitChunk H primes skFmt.toList nonce.toList aad f cps idx =
      .ok (sealFrame H primes skFmt aad f nonce idx cps).bytes := by
  let sub := (Rust.deriveStreamV8SubNonce H skFmt.toList nonce.toList idx).toList
  let body := sealTokens H skFmt.toList sub primes cps
  have hbody : body.length = f * 160 := by rw [length_sealTokens, hlen]
  have htokens : ∀ t ∈ tokensOf H primes skFmt.toList sub cps, t < 2 ^ 64 := fun t ht =>
    Nat.lt_trans (tokensOf_lt H skFmt.toList sub hkey (fun c hc => (hcps c hc).lt) t ht) (by decide)
  have hblob : ((tokensOf H primes skFmt.toList sub cps).flatMap (beBytes 8)).length ≤
      32 * 2 ^ 32 := by
    rw [length_flatMap_beBytes, length_tokensOf]
    omega
  have hmask : xorBytes ((tokensOf H primes skFmt.toList sub cps).flatMap (beBytes 8))
      (keystream H skFmt.toList sub
        ((tokensOf H primes skFmt.toList sub cps).flatMap (beBytes 8)).length) = body := rfl
  rw [emitChunk, deriveStreamV8SubNonce_eq_ok skFmt.toList nonce.toList hidx, ok_bind,
    encryptV8StreamChunkCore, emit_fill_eq_ok H skFmt.toList sub hkey cps (by omega), ok_bind,
    fixedEncodeTokens_eq_ok htokens, ok_bind, varintKeystream_eq_ok H skFmt.toList sub hblob,
    ok_bind]
  simp only [hmask]
  rw [computeStreamV8ChunkTag, streamV8ChunkTagInput_eq_ok nonce.toList (by omega) hidx haad,
    ok_bind]
  simp only [pure, Except.pure, ok_bind]
  rw [toBytes_of_lt (by rw [hbody]; omega)]
  rfl

/-- A chunk that is written is the frame of the format, and its number and the associated data fit
their fields. -/
theorem of_emitChunk (hkey : KeyValid primes) (hf : f ≤ 16384) {cps : List Nat}
    (hlen : cps.length = f) (hcps : ∀ c ∈ cps, IsScalar c) {idx : Nat} {frame : List UInt8}
    (h : emitChunk H primes skFmt.toList nonce.toList aad f cps idx = .ok frame) :
    idx < 2 ^ 32 ∧ aad.length < 2 ^ 64 ∧
      frame = (sealFrame H primes skFmt aad f nonce idx cps).bytes := by
  have hemit := h
  rw [emitChunk] at h
  obtain ⟨subNonce, hsub, h⟩ := bind_eq_ok.mp h
  obtain ⟨tokens, -, h⟩ := bind_eq_ok.mp h
  obtain ⟨blob, -, h⟩ := bind_eq_ok.mp h
  obtain ⟨ks, -, h⟩ := bind_eq_ok.mp h
  obtain ⟨tag, htag, -⟩ := bind_eq_ok.mp h
  obtain ⟨field, hfield, -⟩ := bind_eq_ok.mp hsub
  obtain ⟨input, hinput, -⟩ := bind_eq_ok.mp htag
  obtain ⟨aadLen8, haadLen, -⟩ := bind_eq_ok.mp hinput
  have hidx : idx < 2 ^ 32 := (toBytes_eq_ok_iff.mp hfield).1
  have haad : aad.length < 2 ^ 64 := (toBytes_eq_ok_iff.mp haadLen).1
  rw [emitChunk_eq_ok hkey hf hlen hcps hidx haad] at hemit
  exact ⟨hidx, haad, (Except.ok.inj hemit).symm⟩

theorem mapM_deriveStreamV8FillerCp (sk subNonce : List UInt8) {is : List Nat}
    (h : ∀ i ∈ is, i < 2 ^ 32) :
    is.mapM (deriveStreamV8FillerCp H sk subNonce) =
      .ok (is.map (Rust.deriveStreamV8FillerCp H sk subNonce)) := by
  induction is with
  | nil => rfl
  | cons i is ih =>
      rw [List.forall_mem_cons] at h
      rw [List.mapM_cons, ih h.2, deriveStreamV8FillerCp, toBytes_of_lt h.1]
      rfl

/-- The filler of a partial chunk. -/
theorem streamFiller_eq_ok {idx n : Nat} (hidx : idx < 2 ^ 32) (hn : n ≤ 2 ^ 32) :
    streamFiller H skFmt.toList nonce.toList idx n =
      .ok (Rust.streamFiller H skFmt nonce idx n) := by
  rw [streamFiller, deriveStreamV8SubNonce_eq_ok skFmt.toList nonce.toList hidx, ok_bind,
    mapM_deriveStreamV8FillerCp]
  · rfl
  · intro i hi
    exact Nat.lt_of_lt_of_le (List.mem_range.mp hi) hn

/-! ## The loop over the plaintext -/

/-- What the loop over the characters has done: the full pieces of what it held and read are
written, and none of the characters is a surrogate. -/
theorem cut_of_encryptStreamLoop (hkey : KeyValid primes) (hf : 1 ≤ f ∧ f ≤ 16384)
    {plaintext cpBuf rest : List Nat} {total total' idx idx' : Nat} (hbuf : cpBuf.length < f)
    (hcps : ∀ c ∈ cpBuf, IsScalar c) (hplain : ∀ c ∈ plaintext, c ≤ 0x10FFFF)
    (h : (encryptStreamLoop H primes skFmt.toList nonce.toList aad f plaintext cpBuf total
      idx).outcome = .ok (rest, total', idx')) :
    ∃ full, Cut f (cpBuf ++ plaintext) full rest ∧ (∀ c ∈ plaintext, IsScalar c) ∧
      total' = total + plaintext.length ∧ idx' = idx + full.length ∧
      (encryptStreamLoop H primes skFmt.toList nonce.toList aad f plaintext cpBuf total
        idx).yielded =
        (sealFrames H primes skFmt aad f nonce idx full).map Frame.bytes := by
  induction plaintext generalizing cpBuf total idx with
  | nil =>
      obtain ⟨rfl, hout⟩ := Prod.mk.inj (Except.ok.inj h)
      obtain ⟨rfl, rfl⟩ := Prod.mk.inj hout
      refine ⟨[], ?_, by simp, rfl, rfl, rfl⟩
      rw [List.append_nil]
      exact .refl hbuf
  | cons cp plaintext ih =>
      rw [List.forall_mem_cons] at hplain
      rw [encryptStreamLoop] at h ⊢
      dsimp only at h ⊢
      by_cases hsurrogate : 0xD800 ≤ cp ∧ cp ≤ 0xDFFF
      · rw [if_pos hsurrogate] at h
        cases h
      · rw [if_neg hsurrogate] at h ⊢
        have hlen : (cpBuf ++ [cp]).length = cpBuf.length + 1 := by simp
        have hbufScalar : ∀ c ∈ cpBuf ++ [cp], IsScalar c := by
          intro c hc
          rcases List.mem_append.mp hc with hc | hc
          · exact hcps c hc
          · rw [List.mem_singleton.mp hc]
            exact ⟨hplain.1, hsurrogate⟩
        have hsplit : cpBuf ++ cp :: plaintext = cpBuf ++ [cp] ++ plaintext := by simp
        rw [hsplit]
        by_cases hfull : (cpBuf ++ [cp]).length ≥ f
        · have hpiece : (cpBuf ++ [cp]).length = f := by omega
          rw [if_pos hfull] at h ⊢
          rw [List.take_of_length_le (by omega), List.drop_of_length_le (by omega)] at h ⊢
          obtain ⟨frame, hframe, hrest⟩ := Gen.bind_outcome_eq_ok.mp h
          change emitChunk H primes skFmt.toList nonce.toList aad f (cpBuf ++ [cp]) idx = _
            at hframe
          obtain ⟨-, -, rfl⟩ := of_emitChunk hkey hf.2 hpiece hbufScalar hframe
          obtain ⟨full, hcut, hscalar, rfl, rfl, hyielded⟩ :=
            ih (by rw [List.length_nil]; omega) (by simp) hplain.2 hrest
          refine ⟨(cpBuf ++ [cp]) :: full, ?_, ?_, ?_, ?_, ?_⟩
          · exact hcut.cons hf.1 hpiece
          · exact List.forall_mem_cons.mpr ⟨⟨hplain.1, hsurrogate⟩, hscalar⟩
          · rw [List.length_cons]
            omega
          · rw [List.length_cons]
            omega
          · rw [hframe, Gen.liftM_ok_bind, Gen.yield_bind, hyielded, sealFrames,
              filled_of_length hpiece, List.map_cons]
        · rw [if_neg hfull] at h ⊢
          obtain ⟨full, hcut, hscalar, rfl, rfl, hyielded⟩ :=
            ih (Nat.lt_of_not_le hfull) hbufScalar hplain.2 h
          refine ⟨full, hcut, ?_, ?_, rfl, hyielded⟩
          · exact List.forall_mem_cons.mpr ⟨⟨hplain.1, hsurrogate⟩, hscalar⟩
          · rw [List.length_cons]
            omega

/-! ## The whole stream -/

/-- The last statements of `_encrypt_stream_ae_v8_with_nonce`, behind the last chunk. -/
def closeStreamV8 (H : Hmac) (skFmt : List UInt8) (f : Nat) (nonce aad : List UInt8)
    (count total : Nat) : Gen PyErr (List UInt8) PUnit := do
  let sentinelTag ← computeStreamV8SentinelTag H skFmt f nonce count aad total
  let mask ← streamV8CountMask H skFmt f nonce count
  Gen.yield ((← toBytes 4 0) ++ ((← toBytes 8 (total ^^^ mask)) ++ sentinelTag))

/-- The sentinel with its own tag. -/
def sealSentinel (H : Hmac) (skFmt : FixedBytes 32) (aad : List UInt8) (f : Nat)
    (nonce : FixedBytes 16) (count total : Nat) : List UInt8 :=
  sentinelBytes H skFmt f nonce count total
    (H skFmt.toList (Rust.sentinelTagInput f nonce.toList count aad total)).toList

theorem closeStreamV8_eq (hf : f < 2 ^ 32) {count total : Nat} (hcount : count < 2 ^ 32)
    (haad : aad.length < 2 ^ 64) (htotal : total < 2 ^ 64) :
    closeStreamV8 H skFmt.toList f nonce.toList aad count total =
      ⟨[sealSentinel H skFmt aad f nonce count total], .ok ⟨⟩⟩ := by
  have hmask : total ^^^ Rust.streamV8CountMask H skFmt.toList f nonce.toList count < 256 ^ 8 :=
    Nat.xor_lt_two_pow (n := 64) htotal (Rust.u64FromBe8_lt _)
  rw [closeStreamV8, computeStreamV8SentinelTag,
    streamV8SentinelTagInput_eq_ok nonce.toList hf hcount haad htotal, ok_bind]
  simp only [pure, Except.pure, Gen.liftM_ok_bind]
  rw [streamV8CountMask_eq_ok skFmt.toList nonce.toList hf hcount, Gen.liftM_ok_bind,
    toBytes_of_lt (by decide), Gen.liftM_ok_bind, toBytes_of_lt hmask, Gen.liftM_ok_bind]
  rfl

theorem of_closeStreamV8 (hf : f < 2 ^ 32) {count total : Nat}
    (h : (closeStreamV8 H skFmt.toList f nonce.toList aad count total).outcome = .ok ⟨⟩) :
    count < 2 ^ 32 ∧ aad.length < 2 ^ 64 ∧
      (closeStreamV8 H skFmt.toList f nonce.toList aad count total).yielded =
        [sealSentinel H skFmt aad f nonce count total] := by
  rw [closeStreamV8] at h
  obtain ⟨tag, htag, -⟩ := Gen.bind_outcome_eq_ok.mp h
  change computeStreamV8SentinelTag H skFmt.toList f nonce.toList count aad total = _ at htag
  obtain ⟨input, hinput, -⟩ := bind_eq_ok.mp htag
  obtain ⟨aadLen8, haadLen, hinput⟩ := bind_eq_ok.mp hinput
  obtain ⟨header, -, hinput⟩ := bind_eq_ok.mp hinput
  obtain ⟨index, hindex, hinput⟩ := bind_eq_ok.mp hinput
  obtain ⟨number, hnumber, -⟩ := bind_eq_ok.mp hinput
  have haad : aad.length < 2 ^ 64 := (toBytes_eq_ok_iff.mp haadLen).1
  have hcount : count < 2 ^ 32 := (toBytes_eq_ok_iff.mp hindex).1
  have htotal : total < 2 ^ 64 := (toBytes_eq_ok_iff.mp hnumber).1
  rw [closeStreamV8_eq hf hcount haad htotal]
  exact ⟨hcount, haad, rfl⟩

/-- What a run that ends well has checked: frame size, characters and counters. -/
structure V8Sealed (aad : List UInt8) (f : Nat) (plaintext : List Nat) : Prop where
  frame_range : 1 ≤ f ∧ f ≤ 16384
  scalar : ∀ c ∈ plaintext, IsScalar c
  count_lt : (pieces f plaintext).length < 2 ^ 32
  aad_lt : aad.length < 2 ^ 64

/-- The stream: header, frames and sentinel. -/
def v8Stream (H : Hmac) (primes : List Nat) (skFmt : FixedBytes 32) (aad : List UInt8) (f : Nat)
    (nonce : FixedBytes 16) (plaintext : List Nat) : List (List UInt8) :=
  let frames := sealFrames H primes skFmt aad f nonce 0 (pieces f plaintext)
  Rust.streamV8Header f nonce.toList :: (frames.map Frame.bytes ++
    [sealSentinel H skFmt aad f nonce frames.length plaintext.length])

/-- Put together it is the stream of the format. -/
theorem flatten_v8Stream (plaintext : List Nat) :
    (v8Stream H primes skFmt aad f nonce plaintext).flatten =
      sealStream H primes skFmt aad f nonce plaintext := by
  rw [v8Stream, List.flatten_cons, List.flatten_append, List.flatten_singleton, sealStream,
    framesBytes, List.flatMap_def]
  rfl

theorem of_validateStreamV8Frame {frameCodepoints : Int}
    (h : validateStreamV8Frame frameCodepoints = .ok ⟨⟩) :
    1 ≤ frameCodepoints.toNat ∧ frameCodepoints.toNat ≤ 16384 := by
  rw [validateStreamV8Frame] at h
  split at h
  case isTrue => cases h
  case isFalse hrange =>
    rw [streamAeV8MaxFrame] at hrange
    omega

theorem encryptStreamAeV8WithNonce_eq {mathSqrt : Nat → Nat}
    (hpy : validateKey mathSqrt primes = .ok ⟨⟩) (sk : FixedBytes 32) {frameCodepoints : Int}
    (hframe : validateStreamV8Frame frameCodepoints = .ok ⟨⟩) (plaintext : List Nat) :
    encryptStreamAeV8WithNonce H mathSqrt plaintext primes sk.toList nonce.toList aad
        frameCodepoints =
      let f := frameCodepoints.toNat
      let skFmt := (Rust.deriveFormatSubkey H sk Rust.formatStreamAeV8).toList
      Gen.yield (Rust.streamV8Header f nonce.toList) >>= fun _ =>
      encryptStreamLoop H primes skFmt nonce.toList aad f plaintext [] 0 0 >>= fun out =>
      if ¬ out.1.isEmpty then
        liftM (streamFiller H skFmt nonce.toList out.2.2 (f - out.1.length)) >>= fun filler =>
        liftM (emitChunk H primes skFmt nonce.toList aad f (out.1 ++ filler) out.2.2) >>=
          fun frame => Gen.yield frame >>= fun _ =>
        closeStreamV8 H skFmt f nonce.toList aad (out.2.2 + 1) out.2.1
      else closeStreamV8 H skFmt f nonce.toList aad out.2.2 out.2.1 := by
  have hsk : ¬ sk.toList.length ≠ skSize := fun h => h sk.length_toList
  have hnonce : ¬ nonce.toList.length ≠ nonceSize := fun h => h nonce.length_toList
  have hf := of_validateStreamV8Frame hframe
  rw [encryptStreamAeV8WithNonce, hpy, Gen.liftM_ok_bind]
  dsimp only
  rw [if_neg hsk, if_neg hnonce, hframe, Gen.liftM_ok_bind,
    toBytes_of_lt (show frameCodepoints.toNat < 256 ^ 4 by omega), Gen.liftM_ok_bind]
  rfl

theorem of_encryptStreamAeV8WithNonce_ok {mathSqrt : Nat → Nat} (sk : FixedBytes 32)
    {plaintext : List Nat} {frameCodepoints : Int}
    (h : (encryptStreamAeV8WithNonce H mathSqrt plaintext primes sk.toList nonce.toList aad
      frameCodepoints).outcome = .ok ⟨⟩) :
    validateKey mathSqrt primes = .ok ⟨⟩ ∧ validateStreamV8Frame frameCodepoints = .ok ⟨⟩ := by
  have hsk : ¬ sk.toList.length ≠ skSize := fun h => h sk.length_toList
  have hnonce : ¬ nonce.toList.length ≠ nonceSize := fun h => h nonce.length_toList
  rw [encryptStreamAeV8WithNonce] at h
  obtain ⟨⟨⟩, hpy, h⟩ := Gen.bind_outcome_eq_ok.mp h
  dsimp only at h
  rw [if_neg hsk, if_neg hnonce] at h
  obtain ⟨⟨⟩, hframe, -⟩ := Gen.bind_outcome_eq_ok.mp h
  exact ⟨hpy, hframe⟩

/-- A run of the encryptor that ends well has written its stream. -/
theorem sealed_of_encryptStreamAeV8 {mathSqrt : Nat → Nat} (hkey : KeyValid primes)
    (sk : FixedBytes 32) {plaintext : List Nat} (hplain : ∀ c ∈ plaintext, c ≤ 0x10FFFF)
    {frameCodepoints : Int}
    (h : (encryptStreamAeV8WithNonce H mathSqrt plaintext primes sk.toList nonce.toList aad
      frameCodepoints).outcome = .ok ⟨⟩) :
    V8Sealed aad frameCodepoints.toNat plaintext ∧
      (encryptStreamAeV8WithNonce H mathSqrt plaintext primes sk.toList nonce.toList aad
        frameCodepoints).yielded =
        v8Stream H primes (Rust.deriveFormatSubkey H sk Rust.formatStreamAeV8) aad
          frameCodepoints.toNat nonce plaintext := by
  obtain ⟨hpy, hframe⟩ := of_encryptStreamAeV8WithNonce_ok sk h
  have hf := of_validateStreamV8Frame hframe
  have hf32 : frameCodepoints.toNat < 2 ^ 32 := by omega
  rw [encryptStreamAeV8WithNonce_eq hpy sk hframe] at h ⊢
  generalize Rust.deriveFormatSubkey H sk Rust.formatStreamAeV8 = skFmt at h ⊢
  generalize frameCodepoints.toNat = f at hf hf32 h ⊢
  dsimp only at h ⊢
  rw [Gen.yield_bind] at h ⊢
  obtain ⟨⟨rest, total, idx⟩, hloop, h⟩ := Gen.bind_outcome_eq_ok.mp h
  obtain ⟨full, hcut, hscalar, htotal, hidx, hyielded⟩ :=
    cut_of_encryptStreamLoop hkey hf (by rw [List.length_nil]; omega) (by simp) hplain hloop
  rw [Nat.zero_add] at htotal hidx
  subst htotal hidx
  rw [List.nil_append] at hcut
  have hpieces := hcut.pieces_eq hf.1
  rw [Gen.bind_of_ok hloop, hyielded]
  simp only at h ⊢
  by_cases hrest : rest.isEmpty = true
  · rw [if_pos hrest] at hpieces
    rw [if_neg (by simp [hrest])] at h ⊢
    obtain ⟨hcount, haad, hclose⟩ := of_closeStreamV8 hf32 h
    refine ⟨⟨hf, hscalar, by rw [hpieces]; exact hcount, haad⟩, ?_⟩
    rw [hclose, v8Stream, hpieces, length_sealFrames]
  · rw [if_neg hrest] at hpieces
    rw [if_pos hrest] at h ⊢
    obtain ⟨filler, hfiller, h⟩ := Gen.bind_outcome_eq_ok.mp h
    obtain ⟨frame, hemit, h⟩ := Gen.bind_outcome_eq_ok.mp h
    change streamFiller H skFmt.toList nonce.toList full.length (f - rest.length) = _ at hfiller
    change emitChunk H primes skFmt.toList nonce.toList aad f (rest ++ filler) full.length = _
      at hemit
    obtain ⟨hcount, haad, hclose⟩ := of_closeStreamV8 hf32 h
    have hlast : rest ∈ pieces f plaintext := by
      rw [hpieces]
      exact List.mem_append_right _ (List.mem_singleton_self rest)
    obtain ⟨hle, hmem⟩ := mem_pieces hf.1 hlast
    have hfill := @streamFiller_eq_ok H skFmt nonce full.length (f - rest.length) (by omega)
      (by omega)
    obtain rfl := Except.ok.inj (hfill.symm.trans hfiller)
    obtain ⟨-, -, rfl⟩ := of_emitChunk hkey hf.2 (length_filled hle full.length)
      (isScalar_of_mem_filled (fun c hc => hscalar c (hmem c hc)) full.length) hemit
    refine ⟨⟨hf, hscalar, ?_, haad⟩, ?_⟩
    · rw [hpieces, List.length_append]
      exact hcount
    · rw [hfill, Gen.liftM_ok_bind, hemit, Gen.liftM_ok_bind, Gen.yield_bind, hclose, v8Stream,
        hpieces, length_sealFrames, sealFrames_append, List.map_append, List.append_assoc,
        List.length_append, Nat.zero_add]
      rfl

/-! ## Streams that fit -/

/-- With room for its chunks the loop over the characters reaches their end. -/
theorem exists_encryptStreamLoop (hkey : KeyValid primes) (hf : 1 ≤ f ∧ f ≤ 16384)
    (haad : aad.length < 2 ^ 64) {plaintext cpBuf : List Nat} {total idx : Nat}
    (hbuf : cpBuf.length < f) (hcps : ∀ c ∈ cpBuf, IsScalar c)
    (hplain : ∀ c ∈ plaintext, IsScalar c)
    (hroom : idx * f + cpBuf.length + plaintext.length ≤ (2 ^ 32 - 1) * f) :
    ∃ out, (encryptStreamLoop H primes skFmt.toList nonce.toList aad f plaintext cpBuf total
      idx).outcome = .ok out := by
  induction plaintext generalizing cpBuf total idx with
  | nil => exact ⟨_, rfl⟩
  | cons cp plaintext ih =>
      rw [List.forall_mem_cons] at hplain
      rw [List.length_cons] at hroom
      have hlen : (cpBuf ++ [cp]).length = cpBuf.length + 1 := by simp
      have hbufScalar : ∀ c ∈ cpBuf ++ [cp], IsScalar c := by
        intro c hc
        rcases List.mem_append.mp hc with hc | hc
        · exact hcps c hc
        · rw [List.mem_singleton.mp hc]
          exact hplain.1
      rw [encryptStreamLoop]
      dsimp only
      rw [if_neg hplain.1.2]
      by_cases hfull : (cpBuf ++ [cp]).length ≥ f
      · have hpiece : (cpBuf ++ [cp]).length = f := by omega
        have hmul : (idx + 1) * f ≤ (2 ^ 32 - 1) * f := by
          rw [Nat.add_mul]
          omega
        have hidx : idx + 1 ≤ 2 ^ 32 - 1 := Nat.le_of_mul_le_mul_right hmul (by omega)
        have hroom' : (idx + 1) * f + ([] : List Nat).length + plaintext.length ≤
            (2 ^ 32 - 1) * f := by
          rw [Nat.add_mul, List.length_nil]
          omega
        obtain ⟨out, hout⟩ := @ih [] (total + 1) (idx + 1) (by rw [List.length_nil]; omega)
          (by simp) hplain.2 hroom'
        rw [if_pos hfull, List.take_of_length_le (by omega), List.drop_of_length_le (by omega),
          emitChunk_eq_ok hkey hf.2 hpiece hbufScalar (by omega) haad, Gen.liftM_ok_bind,
          Gen.yield_bind]
        exact ⟨out, hout⟩
      · rw [if_neg hfull]
        exact ih (by omega) hbufScalar hplain.2 (by omega)

/-- The encryptor ends well exactly on what fits: a frame size in range, scalar values, fewer than
`2^32` chunks and associated data of less than `2^64` bytes. -/
theorem encryptStreamAeV8WithNonce_eq_ok_iff {mathSqrt : Nat → Nat} (hkey : KeyValid primes)
    (hpy : validateKey mathSqrt primes = .ok ⟨⟩) (sk : FixedBytes 32) {plaintext : List Nat}
    (hplain : ∀ c ∈ plaintext, c ≤ 0x10FFFF) (frameCodepoints : Int) :
    (encryptStreamAeV8WithNonce H mathSqrt plaintext primes sk.toList nonce.toList aad
      frameCodepoints).outcome = .ok ⟨⟩ ↔ V8Sealed aad frameCodepoints.toNat plaintext := by
  constructor
  · exact fun h => (sealed_of_encryptStreamAeV8 hkey sk hplain h).1
  · intro h
    have hf := h.frame_range
    have hcount := h.count_lt
    have hframe : validateStreamV8Frame frameCodepoints = .ok ⟨⟩ := by
      rw [validateStreamV8Frame, if_neg]
      simp only [streamAeV8MaxFrame]
      omega
    rw [encryptStreamAeV8WithNonce_eq hpy sk hframe]
    generalize Rust.deriveFormatSubkey H sk Rust.formatStreamAeV8 = skFmt
    generalize frameCodepoints.toNat = f at h hf hcount
    dsimp only
    have hbound := (length_pieces_bounds hf.1 plaintext).2
    have hmul := Nat.mul_le_mul_right f (Nat.le_sub_one_of_lt hcount)
    obtain ⟨⟨rest, total, idx⟩, hloop⟩ := @exists_encryptStreamLoop H primes skFmt aad f nonce hkey
      hf h.aad_lt plaintext [] 0 0 (by rw [List.length_nil]; omega) (by simp) h.scalar
      (by rw [List.length_nil]; omega)
    obtain ⟨full, hcut, -, htotal, hidx, -⟩ :=
      cut_of_encryptStreamLoop hkey hf (by rw [List.length_nil]; omega) (by simp) hplain hloop
    rw [Nat.zero_add] at htotal hidx
    subst htotal hidx
    rw [List.nil_append] at hcut
    have hpieces := hcut.pieces_eq hf.1
    have htotal : plaintext.length < 2 ^ 64 := by omega
    rw [Gen.yield_bind, Gen.bind_of_ok hloop]
    by_cases hrest : rest.isEmpty = true
    · rw [if_pos hrest] at hpieces
      rw [hpieces] at hcount
      rw [if_neg (by simp [hrest]), closeStreamV8_eq (by omega) hcount h.aad_lt htotal]
    · rw [if_neg hrest] at hpieces
      have hlast : rest ∈ pieces f plaintext := by
        rw [hpieces]
        exact List.mem_append_right _ (List.mem_singleton_self rest)
      obtain ⟨hle, hmem⟩ := mem_pieces hf.1 hlast
      rw [hpieces, List.length_append, List.length_singleton] at hcount
      have hlen := @length_filled H skFmt f nonce rest hle full.length
      have hscalar := @isScalar_of_mem_filled H skFmt f nonce rest
        (fun c hc => h.scalar c (hmem c hc)) full.length
      rw [if_pos hrest]
      dsimp only
      rw [streamFiller_eq_ok (by omega) (by omega), Gen.liftM_ok_bind]
      rw [show rest ++ Rust.streamFiller H skFmt nonce full.length (f - rest.length) =
        filled H skFmt f nonce full.length rest from rfl,
        emitChunk_eq_ok hkey hf.2 hlen hscalar (by omega) h.aad_lt, Gen.liftM_ok_bind,
        Gen.yield_bind, closeStreamV8_eq (by omega) hcount h.aad_lt htotal]

/-- The stream that the pieces of a run make, `b"".join` of what the generator yields. -/
def joined (run : Gen PyErr (List UInt8) PUnit) : PyM (List UInt8) :=
  match run.outcome with
  | .ok _ => .ok run.yielded.flatten
  | .error e => .error e

/-- What the encryptor returns, put together, is the stream of the format. -/
theorem joined_encryptStreamAeV8_eq_ok_iff {mathSqrt : Nat → Nat} (hkey : KeyValid primes)
    (hpy : validateKey mathSqrt primes = .ok ⟨⟩) (sk : FixedBytes 32) {plaintext : List Nat}
    (hplain : ∀ c ∈ plaintext, c ≤ 0x10FFFF) (frameCodepoints : Int) (stream : List UInt8) :
    joined (encryptStreamAeV8WithNonce H mathSqrt plaintext primes sk.toList nonce.toList aad
        frameCodepoints) = .ok stream ↔
      V8Sealed aad frameCodepoints.toNat plaintext ∧
        stream = sealStream H primes (Rust.deriveFormatSubkey H sk Rust.formatStreamAeV8) aad
          frameCodepoints.toNat nonce plaintext := by
  have hiff := @encryptStreamAeV8WithNonce_eq_ok_iff H primes aad nonce mathSqrt hkey hpy sk
    plaintext hplain frameCodepoints
  rw [joined]
  cases hout : (encryptStreamAeV8WithNonce H mathSqrt plaintext primes sk.toList nonce.toList aad
      frameCodepoints).outcome with
  | ok u =>
      obtain ⟨hsealed, hyielded⟩ := sealed_of_encryptStreamAeV8 hkey sk hplain hout
      rw [hyielded, flatten_v8Stream]
      simp [hsealed, eq_comm]
  | error e =>
      have hno : ¬ V8Sealed aad frameCodepoints.toNat plaintext := by
        intro h
        rw [hiff.mpr h] at hout
        cases hout
      simp [hno]

end Napqes.Python
