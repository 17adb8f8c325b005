import Napqes.Rust.Proofs.StreamEncrypt

/-!
# The Rust stream decryptor accepts the stream format

`decrypt_stream_ae_v8_inner` returns a string exactly when the bytes open to its codepoints.
The loop is compared with `StreamTail`, the description of what may follow the frames already
read: those frames carried the chunks `chunks`, of which the loop holds the last one back.
-/

namespace Napqes.Rust

variable {H : Hmac} {primes : List Nat} {skFmt : FixedBytes 32} {nonce : FixedBytes nonceSize}
  {aad : List UInt8} {f : Nat} {verify : TagCheck}

/-! ## Sentinel -/

theorem collectStreamString_eq_ok_iff (cps : List Nat) (s : Str) :
    collectStreamString cps = .ok s ↔ s.codepoints = cps :=
  (collectChars_eq_ok_iff _ cps s).trans eq_comm

/-- The sentinel branch, on a sentinel body of the right length. -/
theorem readStreamSentinel_append {count tag : List UInt8} (hcount : count.length = 8)
    (htag : tag.length = 32) (idx : Nat) {chunks : List (List Nat)}
    (hidx : idx = chunks.length) (hchunks : ∀ p ∈ chunks, p.length = f) (s : Str) :
    readStreamSentinel H verify skFmt aad f nonce (count ++ tag) idx chunks.dropLast.flatten
      chunks.getLast? = .ok s ↔
      let total := beNat count ^^^ streamV8CountMask H skFmt f nonce idx
      verify skFmt (sentinelTagInput f nonce idx aad total) tag = true ∧ CountOk f idx total ∧
        s.codepoints = chunks.flatten.take total := by
  have hlen : ¬ (count ++ tag).length < 8 + tagSize := by
    simp [hcount, htag, tagSize]
  have htake : (count ++ tag).take 8 = count := List.take_left' hcount
  have hfield : u64FromBe8 ((count ++ tag).take 8) = beNat count := by
    rw [htake, u64FromBe8, List.take_of_length_le (Nat.le_of_eq hcount)]
  have hdrop : ((count ++ tag).drop 8).take tagSize = tag := by
    rw [List.drop_left' hcount, List.take_of_length_le (Nat.le_of_eq htag)]
  have hrest : ((count ++ tag).drop (8 + tagSize)).length = 0 := by
    simp [hcount, htag, tagSize]
  simp only [readStreamSentinel, streamCountConsistent, if_neg hlen, hfield, hdrop, hrest]
  generalize beNat count ^^^ streamV8CountMask H skFmt f nonce idx = total
  by_cases hverify : verify skFmt (sentinelTagInput f nonce idx aad total) tag = true
  · simp only [hverify, not_true_eq_false, if_false, true_and]
    rcases List.eq_nil_or_concat chunks with rfl | ⟨init, last, rfl⟩
    · -- No chunk was read: only the count 0 is consistent.
      subst hidx
      by_cases htotal : total = 0
      · simp [htotal, CountOk, collectStreamString_eq_ok_iff]
      · simp [htotal, CountOk, err]
    · have hinit : init.flatten.length = init.length * f :=
        length_flatten_of_forall fun p hp => hchunks p (by simp [hp])
      have hlast : last.length = f := hchunks last (by simp)
      have hcountOk : CountOk f idx total ↔
          init.length * f < total ∧ total ≤ init.length * f + f := by
        rw [hidx]
        simp [CountOk, Nat.add_mul]
      have htakeTotal : (init.concat last).flatten.take total =
          init.flatten.take total ++ last.take (total - init.length * f) := by
        simp [List.take_append, hinit]
      rw [htakeTotal, hcountOk]
      simp only [List.concat_eq_append, List.dropLast_concat, List.getLast?_append,
        List.getLast?_singleton, Option.some_or, hinit, hlast, Option.map_some,
        Option.getD_some]
      by_cases hrange : init.length * f < total ∧ total ≤ init.length * f + f
      · have htakeInit : init.flatten.take total = init.flatten :=
          List.take_of_length_le (by omega)
        simp [hrange, collectStreamString_eq_ok_iff, htakeInit]
      · have hdec : (decide (total > init.length * f) &&
            decide (total ≤ init.length * f + f)) = false := by
          simpa using fun h1 h2 => hrange ⟨h1, h2⟩
        simp [hdec, hrange, err]
  · simp [hverify, err]

theorem streamV8CountMask_lt (f idx : Nat) :
    streamV8CountMask H skFmt f nonce idx < 2 ^ 64 := u64FromBe8_lt _

/-- A sentinel with anything behind its tag, or cut short, is refused. -/
theorem length_of_readStreamSentinel_eq_ok {rest : List UInt8} {idx : Nat}
    {delivered : List Nat} {pending : Option (List Nat)} {s : Str}
    (h : readStreamSentinel H verify skFmt aad f nonce rest idx delivered pending = .ok s) :
    rest.length = 40 := by
  unfold readStreamSentinel at h
  split at h
  case isTrue => simp [err] at h
  case isFalse hlen =>
    simp only at h
    split at h
    case isTrue => simp [err] at h
    case isFalse =>
      split at h
      case isTrue => simp [err] at h
      case isFalse =>
        split at h
        case isTrue => simp [err] at h
        case isFalse hextra =>
          simp only [List.length_drop, tagSize, not_not] at hextra hlen
          omega

/-- The sentinel branch accepts exactly the tails without a further frame. -/
theorem readStreamSentinel_eq_ok_iff (rest : List UInt8) {idx : Nat} {chunks : List (List Nat)}
    (hidx : idx = chunks.length) (hchunks : ∀ p ∈ chunks, p.length = f) (s : Str) :
    readStreamSentinel H verify skFmt aad f nonce rest idx chunks.dropLast.flatten
      chunks.getLast? = .ok s ↔
      ∃ total tag, StreamTail H primes skFmt aad f nonce verify (beBytes 4 0 ++ rest) idx chunks []
        total tag s.codepoints := by
  constructor
  · intro h
    have hlen := length_of_readStreamSentinel_eq_ok h
    have hcount : (rest.take 8).length = 8 := by simp [hlen]
    have htag : (rest.drop 8).length = 32 := by simp [hlen]
    rw [← List.take_append_drop 8 rest, readStreamSentinel_append hcount htag idx hidx hchunks]
      at h
    obtain ⟨hverify, hok, hout⟩ := h
    have hfield := Nat.lt_of_lt_of_eq (beNat_lt (rest.take 8)) (by rw [hcount])
    refine ⟨beNat (rest.take 8) ^^^ streamV8CountMask H skFmt f nonce idx, rest.drop 8, ?_⟩
    exact
      { split := by
          rw [framesBytes, List.flatMap_nil, List.nil_append, List.length_nil, Nat.add_zero,
            sentinelBytes, Nat.xor_assoc, Nat.xor_self, Nat.xor_zero,
            beBytes_beNat_of_length hcount, List.take_append_drop]
        frames_open := .nil
        total_lt := Nat.xor_lt_two_pow hfield (streamV8CountMask_lt f idx)
        length_tag := htag
        tag_ok := hverify
        count_ok := hok
        out_eq := by rw [List.map_nil, List.append_nil]; exact hout }
  · rintro ⟨total, tag, h⟩
    have hsplit := h.split
    rw [framesBytes, List.flatMap_nil, List.nil_append, List.length_nil, Nat.add_zero,
      sentinelBytes] at hsplit
    obtain rfl := List.append_cancel_left hsplit
    have hmasked : total ^^^ streamV8CountMask H skFmt f nonce idx < 256 ^ 8 :=
      Nat.xor_lt_two_pow (n := 64) h.total_lt (streamV8CountMask_lt f idx)
    rw [readStreamSentinel_append (length_beBytes 8 _) h.length_tag idx hidx hchunks]
    simp only [beNat_beBytes_of_lt hmasked, Nat.xor_assoc, Nat.xor_self, Nat.xor_zero]
    refine ⟨h.tag_ok, h.count_ok, ?_⟩
    rw [h.out_eq, List.map_nil, List.append_nil]

/-! ## Frames -/

/-- The loop goes on only past a zero length, or past a frame of the fixed size. -/
theorem decryptStreamLoop_split {rest : List UInt8} {idx : Nat} {delivered : List Nat}
    {pending : Option (List Nat)} {s : Str}
    (h : decryptStreamLoop H verify primes skFmt aad f nonce rest idx delivered pending = .ok s) :
    (∃ body, rest = beBytes 4 0 ++ body) ∨
      ∃ masked tag rest', rest = beBytes 4 (f * 160) ++ (masked ++ tag) ++ rest' ∧
        masked.length = f * 160 ∧ tag.length = 32 := by
  rw [decryptStreamLoop] at h
  simp only at h
  split at h
  case isTrue => simp [err] at h
  case isFalse hlen =>
    have hfield : beBytes 4 (beNat (rest.take 4)) = rest.take 4 :=
      beBytes_beNat_of_length (by simp; omega)
    split at h
    case isTrue hzero =>
      left
      refine ⟨rest.drop 4, ?_⟩
      rw [← hzero, hfield, List.take_append_drop]
    case isFalse =>
      split at h
      case isTrue => simp [err] at h
      case isFalse hsize =>
        split at h
        case isTrue => simp [err] at h
        case isFalse hshort =>
          right
          have hchunk : beNat (rest.take 4) = f * 160 := by
            rw [not_not] at hsize
            rw [hsize, tokenWidth, maxNoiseRun]
            omega
          rw [hchunk] at hshort hfield
          simp only [List.length_drop, tagSize] at hshort
          refine ⟨(rest.drop 4).take (f * 160), ((rest.drop 4).drop (f * 160)).take 32,
            ((rest.drop 4).drop (f * 160)).drop 32, ?_, ?_, ?_⟩
          · rw [hfield, List.append_assoc, List.append_assoc, List.take_append_drop,
              List.take_append_drop, List.take_append_drop]
          · simp only [List.length_take, List.length_drop]
            omega
          · simp only [List.length_take, List.length_drop]
            omega

/-- A zero length prefix leads to the sentinel branch. -/
theorem decryptStreamLoop_sentinel (body : List UInt8) (idx : Nat) (delivered : List Nat)
    (pending : Option (List Nat)) :
    decryptStreamLoop H verify primes skFmt aad f nonce (beBytes 4 0 ++ body) idx delivered
      pending = readStreamSentinel H verify skFmt aad f nonce body idx delivered pending := by
  have hlen : ¬ (beBytes 4 0 ++ body).length < 4 := by simp
  have htake : (beBytes 4 0 ++ body).take 4 = beBytes 4 0 := List.take_left' (length_beBytes 4 0)
  have hdrop : (beBytes 4 0 ++ body).drop 4 = body := List.drop_left' (length_beBytes 4 0)
  have hzero : beNat (beBytes 4 0) = 0 := rfl
  rw [decryptStreamLoop]
  simp only [dif_neg hlen, htake, hdrop, hzero, if_true]

/-- Decoding a chunk body whose tag has verified. -/
theorem decryptChunk_eq_ok_iff (hkey : KeyValid primes) (hf : f ≤ 16384)
    {masked : List UInt8} (hmasked : masked.length = f * 160) (subNonce : List UInt8)
    (cps : List Nat) :
    (do
      let ks ← varintKeystream H skFmt.toList subNonce (f * 160)
      let tokens ← fixedDecodeTokens (xorBytes masked ks)
      decryptV8StreamChunkCore H tokens primes skFmt.toList subNonce f : RustM String _) =
        .ok cps ↔
      openTokens H skFmt.toList subNonce primes masked f = some cps := by
  have hks : (varintKeystream H skFmt.toList subNonce (f * 160) : RustM String (List UInt8)) =
      .ok (keystream H skFmt.toList subNonce (f * 160)) :=
    varintKeystream_eq_ok H _ _ (by omega)
  have hmask : xorBytes masked (keystream H skFmt.toList subNonce (f * 160)) =
      maskWith H skFmt.toList subNonce masked := by
    rw [maskWith, hmasked]
  have hdecode := (fixedDecodeTokens_eq_ok_iff (maskWith H skFmt.toList subNonce masked) _).mpr
    ⟨by rw [length_maskWith, hmasked]; omega, rfl⟩
  rw [hks, ok_bind, hmask, hdecode, ok_bind, decryptV8StreamChunkCore_eq_ok_iff H _ _ hkey,
    length_maskWith]
  rfl

/-- What the loop does on a frame of the fixed size. -/
theorem decryptStreamLoop_frame (hkey : KeyValid primes) (hf : 1 ≤ f ∧ f ≤ 16384)
    {fr : Frame} (hbody : fr.body.length = f * 160) (htag : fr.tag.length = 32)
    (rest' : List UInt8) (idx : Nat) (delivered : List Nat) (pending : Option (List Nat))
    (s : Str) :
    decryptStreamLoop H verify primes skFmt aad f nonce (fr.bytes ++ rest') idx delivered
      pending = .ok s ↔
      ∃ cps, FrameOpen H primes skFmt aad f nonce verify idx { fr with cps } ∧
        decryptStreamLoop H verify primes skFmt aad f nonce rest' (idx + 1)
          (delivered ++ pending.getD []) (some cps) = .ok s := by
  have hrest : fr.bytes ++ rest' = beBytes 4 (f * 160) ++ (fr.body ++ (fr.tag ++ rest')) := by
    simp [Frame.bytes, hbody]
  have hlen : ¬ (beBytes 4 (f * 160) ++ (fr.body ++ (fr.tag ++ rest'))).length < 4 := by simp
  have hfield : beNat (beBytes 4 (f * 160)) = f * 160 := beNat_beBytes_of_lt (by omega)
  have hzero : ¬ f * 160 = 0 := by omega
  have hsize : ¬ f * 160 ≠ f * tokenWidth * (maxNoiseRun + 1) := by
    rw [tokenWidth, maxNoiseRun]
    omega
  have hlong : ¬ (fr.body ++ (fr.tag ++ rest')).length < f * 160 + tagSize := by
    simp only [List.length_append, hbody, htag, tagSize]
    omega
  have hafter : (fr.body ++ (fr.tag ++ rest')).drop (f * 160 + tagSize) = rest' := by
    rw [← List.append_assoc]
    exact List.drop_left' (by rw [List.length_append, hbody, htag])
  rw [hrest, decryptStreamLoop]
  simp only [dif_neg hlen, List.take_left' (length_beBytes 4 (f * 160)),
    List.drop_left' (length_beBytes 4 (f * 160)), hfield, if_neg hzero, if_neg hsize,
    if_neg hlong, List.take_left' hbody, List.drop_left' hbody, List.take_left' htag, hafter]
  by_cases hverify : verify skFmt (chunkTagInput f nonce idx aad fr.body) fr.tag = true
  · rw [if_neg (by simpa using hverify)]
    by_cases hidx : idx + 1 < 2 ^ 32
    · rw [nextStreamChunkIdx_of_lt hidx, ok_bind]
      have hchunk := @decryptChunk_eq_ok_iff H primes skFmt f hkey hf.2 _ hbody
        (deriveStreamV8SubNonce H skFmt nonce idx).toList
      simp only [bind_eq_ok] at hchunk ⊢
      constructor
      · rintro ⟨ks, hks, tokens, htokens, cps, hcps, hloop⟩
        have hopen := (hchunk cps).mp ⟨ks, hks, tokens, htokens, hcps⟩
        exact ⟨cps, ⟨hbody, htag, hverify, hidx, hopen⟩, hloop⟩
      · rintro ⟨cps, hopen, hloop⟩
        obtain ⟨ks, hks, tokens, htokens, hcps⟩ := (hchunk cps).mpr hopen.opened
        exact ⟨ks, hks, tokens, htokens, cps, hcps, hloop⟩
    · rw [nextStreamChunkIdx_of_not_lt hidx]
      simp only [chunkLimit, err, error_bind, reduceCtorEq, false_iff]
      rintro ⟨cps, hopen, -⟩
      exact hidx hopen.idx_lt
  · rw [if_pos (by simpa using hverify)]
    simp only [err, reduceCtorEq, false_iff]
    rintro ⟨cps, hopen, -⟩
    exact hverify hopen.tag_ok

/-! ## The loop -/

/-- From a state that has read `chunks`, the loop accepts exactly the tails of the format. -/
theorem decryptStreamLoop_eq_ok_iff (hkey : KeyValid primes) (hf : 1 ≤ f ∧ f ≤ 16384)
    (rest : List UInt8) (idx : Nat) (chunks : List (List Nat)) (hidx : idx = chunks.length)
    (hchunks : ∀ p ∈ chunks, p.length = f) (s : Str) :
    decryptStreamLoop H verify primes skFmt aad f nonce rest idx chunks.dropLast.flatten
      chunks.getLast? = .ok s ↔
      ∃ frames total tag, StreamTail H primes skFmt aad f nonce verify rest idx chunks frames
        total tag s.codepoints := by
  -- One more chunk keeps the state in the form the statement describes.
  have hstep : ∀ {idx : Nat} {chunks : List (List Nat)} {fr : Frame}, idx = chunks.length →
      (∀ p ∈ chunks, p.length = f) →
      FrameOpen H primes skFmt aad f nonce verify idx fr →
      idx + 1 = (chunks ++ [fr.cps]).length ∧ ∀ p ∈ chunks ++ [fr.cps], p.length = f := by
    intro idx chunks fr hidx hchunks hfr
    refine ⟨by simp [hidx], ?_⟩
    intro p hp
    rcases List.mem_append.mp hp with hp | hp
    · exact hchunks p hp
    · rw [List.mem_singleton.mp hp]
      exact hfr.length_cps
  constructor
  · intro h
    induction hn : rest.length using Nat.strong_induction_on generalizing rest idx chunks with
    | _ n ih =>
        rcases decryptStreamLoop_split h with ⟨body, rfl⟩ | ⟨masked, tag, rest', rfl, hm, ht⟩
        · rw [decryptStreamLoop_sentinel, readStreamSentinel_eq_ok_iff body hidx hchunks] at h
          obtain ⟨total, tag, htail⟩ := h
          exact ⟨[], total, tag, htail⟩
        · have hbytes : beBytes 4 (f * 160) ++ (masked ++ tag) =
              (Frame.mk masked tag []).bytes := by
            simp [Frame.bytes, hm]
          rw [hbytes, decryptStreamLoop_frame hkey hf hm ht] at h
          obtain ⟨cps, hfr, hloop⟩ := h
          obtain ⟨hidx', hchunks'⟩ := hstep hidx hchunks hfr
          rw [(chunks_concat chunks cps).1, (chunks_concat chunks cps).2] at hloop
          obtain ⟨frames, total, tagS, htail⟩ := ih rest'.length
            (by rw [← hn]; simp only [List.length_append, length_beBytes]; omega)
            rest' (idx + 1) (chunks ++ [cps]) hidx' hchunks' hloop rfl
          refine ⟨⟨masked, tag, cps⟩ :: frames, total, tagS, ?_⟩
          exact streamTail_cons_iff.mpr ⟨rest', by rw [hbytes]; rfl, hfr, htail⟩
  · rintro ⟨frames, total, tag, h⟩
    induction frames generalizing rest idx chunks with
    | nil =>
        have hsplit := h.split
        rw [framesBytes, List.flatMap_nil, List.nil_append, sentinelBytes] at hsplit
        rw [hsplit] at h ⊢
        rw [decryptStreamLoop_sentinel, readStreamSentinel_eq_ok_iff _ hidx hchunks]
        exact ⟨total, tag, h⟩
    | cons fr frames ih =>
        obtain ⟨rest', rfl, hfr, htail⟩ := streamTail_cons_iff.mp h
        obtain ⟨hidx', hchunks'⟩ := hstep hidx hchunks hfr
        rw [decryptStreamLoop_frame hkey hf hfr.length_body hfr.length_tag]
        refine ⟨fr.cps, hfr, ?_⟩
        rw [(chunks_concat chunks fr.cps).1, (chunks_concat chunks fr.cps).2]
        exact ih rest' (idx + 1) (chunks ++ [fr.cps]) hidx' hchunks' htail

/-! ## The header -/

/-- `decrypt_stream_ae_v8_inner` accepts exactly the byte strings that open in the stream
format, with what they open to. -/
theorem decryptStreamAeV8Inner_eq_ok_iff (hkey : KeyValid primes) (stream : List UInt8)
    (s : Str) :
    decryptStreamAeV8Inner H verify stream primes skFmt aad = .ok s ↔
      StreamOpensTo H primes skFmt verify aad stream s.codepoints := by
  constructor
  · intro h
    unfold decryptStreamAeV8Inner at h
    simp only at h
    split at h
    case isTrue => simp [err] at h
    case isFalse hlen =>
      split at h
      case isTrue => simp [err] at h
      case isFalse hformat =>
        split at h
        case isTrue => simp [err] at h
        case isFalse hrange =>
          have hf : 1 ≤ beNat ((stream.drop 1).take 4) ∧
              beNat ((stream.drop 1).take 4) ≤ 16384 := by
            rw [streamAeV8MaxFrame] at hrange
            omega
          obtain ⟨frames, total, tag, htail⟩ :=
            (decryptStreamLoop_eq_ok_iff hkey hf _ 0 [] rfl (by simp) s).mp h
          exact ⟨_, _, frames, total, tag, hf, _,
            header_split (Nat.le_of_not_lt hlen) (not_not.mp hformat), htail⟩
  · rintro ⟨f, nonce, frames, total, tag, hf, rest, rfl, htail⟩
    have hloop := (decryptStreamLoop_eq_ok_iff hkey hf rest 0 [] rfl (by simp) s).mpr
      ⟨frames, total, tag, htail⟩
    have hheader : (streamV8Header f nonce.toList).length = 21 :=
      length_streamV8Header f nonce.length_toList
    have hlen : ¬ (streamV8Header f nonce.toList ++ rest).length < 21 := by
      rw [List.length_append, hheader]
      omega
    have hformat : ¬ (streamV8Header f nonce.toList ++ rest).headD 0 ≠ formatStreamAeV8 := by
      simp [streamV8Header]
    have hfield : beNat (((streamV8Header f nonce.toList ++ rest).drop 1).take 4) = f := by
      rw [take_drop_header_field, beNat_beBytes_of_lt (by omega)]
    have hnonce : FixedBytes.ofList nonceSize
        (((streamV8Header f nonce.toList ++ rest).drop 5).take nonceSize) = nonce := by
      rw [take_drop_header_nonce, FixedBytes.ofList_toList]
    have hrange : ¬ (f < 1 ∨ f > streamAeV8MaxFrame) := by
      rw [streamAeV8MaxFrame]
      omega
    rw [decryptStreamAeV8Inner]
    simp only [if_neg hlen, if_neg hformat, hfield, hnonce, if_neg hrange,
      List.drop_left' hheader]
    exact hloop

/-! ## Main result -/

/-- Round trip: below the chunk limit encryption succeeds with a length that depends only on
the frame size and the number of chunks, and decryption returns the plaintext. -/
theorem decryptStreamAeV8Inner_of_encryptStreamAeV8Inner (H : Hmac) (primes : List Nat)
    (hkey : validateKey primes = .ok ⟨⟩) (skFmt : FixedBytes 32) (nonce : FixedBytes nonceSize)
    (aad : List UInt8) (f : Nat) (hf : 1 ≤ f ∧ f ≤ 16384) (plaintext : Str)
    (hlimit : (plaintext.length + f - 1) / f ≤ 2 ^ 32 - 1) :
    ∃ s, encryptStreamAeV8Inner H plaintext primes skFmt nonce aad f = .ok s ∧
      s.length = 21 + (plaintext.length + f - 1) / f * (36 + 160 * f) + 44 ∧
      decryptStreamAeV8Inner H (hmacVerify H) s primes skFmt aad = .ok plaintext := by
  have hvalid := (validateKey_iff primes).mp hkey
  have hlen : plaintext.codepoints.length = plaintext.length := List.length_map _
  have hcount : (pieces f plaintext.codepoints).length < 2 ^ 32 := by
    rw [length_pieces hf.1, hlen]
    omega
  refine ⟨sealStream H primes skFmt aad f nonce plaintext.codepoints, ?_, ?_, ?_⟩
  · rw [encryptStreamAeV8Inner_eq hvalid hf, if_pos hcount]
  · rw [length_sealStream hf.1, hlen]
  · rw [decryptStreamAeV8Inner_eq_ok_iff hvalid]
    exact streamOpensTo_sealStream hvalid hf (fun input _ => hmacVerify_self H _ input)
      plaintext.isScalar_of_mem_codepoints hcount

/-- Five codepoints in frames of two: two full chunks and one with filler. -/
theorem decryptStreamAeV8Inner_of_encrypt_five :
    ∃ s, encryptStreamAeV8Inner zeroHmac ['a', 'b', 'c', 'd', 'é'] [1000003] (.ofList 32 [])
        (.ofList 16 [1]) [7] 2 = .ok s ∧
      s.length = 21 + (5 + 2 - 1) / 2 * (36 + 160 * 2) + 44 ∧
      decryptStreamAeV8Inner zeroHmac (hmacVerify zeroHmac) s [1000003] (.ofList 32 []) [7] =
        .ok ['a', 'b', 'c', 'd', 'é'] :=
  decryptStreamAeV8Inner_of_encryptStreamAeV8Inner zeroHmac [1000003] validateKey_1000003 _ _ _ 2
    (by decide) ['a', 'b', 'c', 'd', 'é'] (by decide)

end Napqes.Rust
