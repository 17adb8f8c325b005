import Napqes.C.Proofs.Block
import Napqes.C.Stream
import Napqes.Rust.Proofs.StreamDecrypt

/-!
# The C stream decoder accepts the stream format

`napqes_decrypt_stream_ae_v8_bytes` cuts a stream at the places its length gives. On such a
layout it computes what `streamOpensTo_layout_iff` describes, and a byte string without a layout
opens to nothing. The array accesses of the copy loop stay inside their arrays.
-/

namespace Napqes.C

open Rust (chunkTagInput sentinelTagInput hmacVerify)

variable {H : Hmac} {primes : List UInt64} {skFmt : FixedBytes 32} {nonce : FixedBytes 16}
  {aad : List UInt8} {f : Nat}

/-! ## Tags -/

theorem foldl_or_eq_zero_iff (bs : List UInt8) (acc : UInt8) :
    bs.foldl (· ||| ·) acc = 0 ↔ acc = 0 ∧ ∀ b ∈ bs, b = 0 := by
  induction bs generalizing acc with
  | nil => simp
  | cons b bs ih =>
      rw [List.foldl_cons, ih, UInt8.or_eq_zero_iff, List.forall_mem_cons, and_assoc]

theorem xorBytes_eq_zero_iff {a b : List UInt8} (h : a.length = b.length) :
    (∀ x ∈ xorBytes a b, x = 0) ↔ a = b := by
  induction a generalizing b with
  | nil => simp [xorBytes, List.length_eq_zero_iff.mp h.symm]
  | cons x a ih =>
      cases b with
      | nil => simp at h
      | cons y b =>
          have hrest := ih (b := b) (by simpa using h)
          simp only [xorBytes] at hrest
          simp only [xorBytes, List.zipWith_cons_cons, List.forall_mem_cons, hrest,
            UInt8.xor_eq_zero_iff, List.cons.injEq]

/-- `constant_time_eq` on a tag is the comparison of the other ports. -/
theorem constantTimeEq_tag {tag : List UInt8} (htag : tag.length = 32) (key input : List UInt8) :
    constantTimeEq tag (H key input).toList tagSize = hmacVerify H key input tag := by
  have hcalc := (H key input).length_toList
  rw [constantTimeEq, List.take_of_length_le (by rw [htag]),
    List.take_of_length_le (by rw [hcalc]), hmacVerify, Rust.ctEqBytes, Bool.eq_iff_iff,
    beq_iff_eq, beq_iff_eq, foldl_or_eq_zero_iff, xorBytes_eq_zero_iff (htag.trans hcalc.symm)]
  simp

theorem streamV8Header_eq (f : Nat) (nonce : List UInt8) :
    streamV8Header f nonce = Rust.streamV8Header f nonce := by
  rw [streamV8Header, be4Write_eq]
  rfl

theorem computeStreamV8ChunkTag_eq (skFmt : List UInt8) (f : Nat) (nonce : List UInt8) (idx : Nat)
    (aad masked : List UInt8) :
    computeStreamV8ChunkTag H skFmt f nonce idx aad masked =
      H skFmt (chunkTagInput f nonce idx aad masked) := by
  rw [computeStreamV8ChunkTag, streamV8Header_eq, be4Write_eq, beLenPrefix_eq]
  rfl

theorem computeStreamV8SentinelTag_eq (skFmt : List UInt8) (f : Nat) (nonce : List UInt8)
    (count : Nat) (aad : List UInt8) (total : Nat) :
    computeStreamV8SentinelTag H skFmt f nonce count aad total =
      H skFmt (sentinelTagInput f nonce count aad total) := by
  rw [computeStreamV8SentinelTag, streamV8Header_eq, be4Write_eq, beLenPrefix_eq, beWriteLoop_eq]
  rfl

theorem streamV8CountMask_eq (skFmt : List UInt8) (f : Nat) (nonce : List UInt8) (count : Nat) :
    streamV8CountMask H skFmt f nonce count = Rust.streamV8CountMask H skFmt f nonce count := by
  rw [streamV8CountMask, streamV8Header_eq, be4Write_eq, readBe8Loop_eq]
  rfl

theorem deriveStreamV8SubNonce_eq (skFmt nonce : List UInt8) (idx : Nat) :
    deriveStreamV8SubNonce H skFmt nonce idx = Rust.deriveStreamV8SubNonce H skFmt nonce idx := by
  rw [deriveStreamV8SubNonce, Rust.deriveStreamV8SubNonce]
  simp only [hmacWithSep, be4Write_eq]
  rfl

/-! ## Frames -/

/-- The chunk decoder reads the codepoints of the format off an unmasked body. -/
theorem decryptV8StreamChunkCore_eq (hkey : KeyValid (primesNat primes)) {body : List UInt8}
    (hbody : body.length = f * 160) (skFmt subNonce : List UInt8) :
    decryptV8StreamChunkCore H (maskWith H skFmt subNonce body) primes skFmt subNonce f =
      ofOption (openTokens H skFmt subNonce (primesNat primes) body f) := by
  have hne := length_primes_ne_zero hkey
  have hlen : ¬ (maskWith H skFmt subNonce body).length ≠
      f * tokenWidth * (maxNoiseRun + 1) := by
    rw [length_maskWith, hbody, tokenWidth, maxNoiseRun]
    omega
  have hread := readTokensV8_eq H skFmt subNonce hkey (maskWith H skFmt subNonce body) f 0 0 []
    (Nat.zero_le _)
  rw [Nat.zero_add] at hread
  rw [decryptV8StreamChunkCore, if_neg hne, if_neg hlen]
  refine hread.trans ?_
  rw [openTokens, readTokens, blobTokens, length_maskWith]
  simp

/-- One round of the loop over the frames: the frame at its place opens, and its codepoints are
copied. -/
theorem decryptStreamChunks_step (hkey : KeyValid (primesNat primes)) (hf : f ≤ 16384)
    {stream : List UInt8} {nChunks total i : Nat} (plain : List Nat) (hi : i < nChunks)
    (hlen : 36 + f * 160 ≤ (stream.drop (21 + i * (36 + f * 160))).length) :
    decryptStreamChunks H primes skFmt nonce aad f stream nChunks total i plain = (do
      let cps ← ofOption (openFrame H (primesNat primes) skFmt aad f nonce (hmacVerify H) i
        (stream.drop (21 + i * (36 + f * 160))))
      let keep := if i + 1 = nChunks then total - plain.length else f
      if keep > cps.length ∨ plain.length + keep > total then
        .error (.undefined "access outside an array")
      else
        decryptStreamChunks H primes skFmt nonce aad f stream nChunks total (i + 1)
          (plain ++ cps.take keep)) := by
  have hunit : f * tokenWidth * (maxNoiseRun + 1) = f * 160 := by
    rw [tokenWidth, maxNoiseRun]
    omega
  have hframe : 4 + f * 160 + tagSize = 36 + f * 160 := by
    rw [tagSize]
    omega
  rw [decryptStreamChunks, if_pos hi]
  dsimp only
  rw [hunit, hframe]
  generalize stream.drop (21 + i * (36 + f * 160)) = bs at hlen ⊢
  have hbody : ((bs.drop 4).take (f * 160)).length = f * 160 := by
    simp only [List.length_take, List.length_drop]
    omega
  have htag : ((bs.drop (4 + f * 160)).take tagSize).length = 32 := by
    simp only [List.length_take, List.length_drop]
    omega
  rw [u32FromBe4_eq (by omega)]
  by_cases hfield : beNat (bs.take 4) = f * 160
  · rw [if_neg (not_not.mpr hfield), hfield, computeStreamV8ChunkTag_eq, constantTimeEq_tag htag]
    by_cases hverify : hmacVerify H skFmt.toList (chunkTagInput f nonce.toList i aad
        ((bs.drop 4).take (f * 160))) ((bs.drop (4 + f * 160)).take 32) = true
    · obtain ⟨ks, hks, hmask⟩ := exists_varintKeystreamAlloc H skFmt.toList
        (Rust.deriveStreamV8SubNonce H skFmt.toList nonce.toList i).toList
        ((bs.drop 4).take (f * 160)) (by rw [hbody]; omega)
      have hopen : openFrame H (primesNat primes) skFmt aad f nonce (hmacVerify H) i bs =
          openTokens H skFmt.toList
            (Rust.deriveStreamV8SubNonce H skFmt.toList nonce.toList i).toList
            (primesNat primes) ((bs.drop 4).take (f * 160)) f := if_pos ⟨hfield, hverify⟩
      rw [hbody] at hks
      rw [if_neg (by rw [hverify]; decide), deriveStreamV8SubNonce_eq, hks, ok_bind, hmask,
        decryptV8StreamChunkCore_eq hkey hbody, hopen]
    · have hopen : openFrame H (primesNat primes) skFmt aad f nonce (hmacVerify H) i bs = none :=
        if_neg fun h => hverify h.2
      rw [if_pos (by simpa using hverify), hopen]
      rfl
  · have hopen : openFrame H (primesNat primes) skFmt aad f nonce (hmacVerify H) i bs = none :=
      if_neg fun h => hfield h.1
    rw [if_pos hfield, hopen]
    rfl

/-- The loop over the frames returns the announced codepoints of the chunks. -/
theorem decryptStreamChunks_eq (hkey : KeyValid (primesNat primes)) (hf : 1 ≤ f ∧ f ≤ 16384)
    {stream : List UInt8} {nChunks total : Nat}
    (hlen : 21 + nChunks * (36 + f * 160) ≤ stream.length)
    (hcount : (nChunks - 1) * f < total ∧ total ≤ nChunks * f) (i : Nat) (plain : List Nat)
    (hi : i ≤ nChunks) (hplain : i < nChunks → plain.length = i * f) :
    decryptStreamChunks H primes skFmt nonce aad f stream nChunks total i plain =
      ofOption ((openFrames H (primesNat primes) skFmt aad f nonce (hmacVerify H) (nChunks - i) i
        (stream.drop (21 + i * (36 + f * 160)))).map fun chunks =>
          plain ++ chunks.flatten.take (total - plain.length)) := by
  induction hrest : nChunks - i generalizing i plain with
  | zero =>
      rw [decryptStreamChunks, if_neg (by omega)]
      simp [openFrames]
  | succ rest ih =>
      have hlt : i < nChunks := by omega
      have hend : (i + 1) * (36 + f * 160) ≤ nChunks * (36 + f * 160) :=
        Nat.mul_le_mul_right _ hlt
      rw [Nat.succ_mul] at hend
      rw [decryptStreamChunks_step hkey hf.2 plain hlt (by rw [List.length_drop]; omega),
        openFrames]
      cases hopen : openFrame H (primesNat primes) skFmt aad f nonce (hmacVerify H) i
          (stream.drop (21 + i * (36 + f * 160))) with
      | none => rfl
      | some cps =>
          have hcps : cps.length = f := length_of_openFrame hopen
          have hpos := hplain hlt
          have hnext : stream.drop (21 + (i + 1) * (36 + f * 160)) =
              (stream.drop (21 + i * (36 + f * 160))).drop (36 + f * 160) := by
            rw [List.drop_drop, Nat.succ_mul, Nat.add_assoc]
          rw [ofOption_some, ok_bind]
          dsimp only
          by_cases hlast : i + 1 = nChunks
          · -- The last chunk: only the announced codepoints are copied.
            subst hlast
            rw [Nat.add_sub_cancel, Nat.succ_mul] at hcount
            rw [if_pos rfl, if_neg (by omega), ih _ _ (Nat.le_refl _) (fun h => by omega)
              (by omega), show rest = 0 by omega]
            simp [openFrames]
          · have hmul : (i + 1) * f ≤ (nChunks - 1) * f := Nat.mul_le_mul_right _ (by omega)
            rw [Nat.succ_mul] at hmul
            have hlenPlain : (plain ++ cps.take f).length = (i + 1) * f := by
              rw [List.length_append, List.length_take, hpos, hcps, Nat.succ_mul, Nat.min_self]
            rw [if_neg hlast, if_neg (by omega), ih _ _ hlt (fun _ => hlenPlain) (by omega), hnext]
            cases openFrames H (primesNat primes) skFmt aad f nonce (hmacVerify H) rest (i + 1)
                ((stream.drop (21 + i * (36 + f * 160))).drop (36 + f * 160)) with
            | none => rfl
            | some chunks =>
                have htake : cps.take f = cps := List.take_of_length_le (by omega)
                have htakeAll : (cps ++ chunks.flatten).take (total - plain.length) =
                    cps ++ chunks.flatten.take (total - (plain ++ cps).length) := by
                  rw [List.take_append, List.take_of_length_le (by omega), List.length_append,
                    Nat.sub_sub]
                simp [htake, htakeAll]

/-! ## The stream -/

/-- The places at which the decoder cuts a stream. -/
structure Layout (stream : List UInt8) (f n : Nat) (nonce : FixedBytes 16)
    (body zero count tag : List UInt8) : Prop where
  split : stream = Rust.streamV8Header f nonce.toList ++ (body ++ (zero ++ (count ++ tag)))
  frame_range : 1 ≤ f ∧ f ≤ 16384
  count_lt : n < 2 ^ 32
  length_body : body.length = n * (36 + f * 160)
  length_zero : zero.length = 4
  length_count : count.length = 8
  length_tag : tag.length = 32

/-- A stream that opens has a layout. -/
theorem layout_of_streamOpensTo {primes : List Nat} {verify : Rust.TagCheck}
    {stream : List UInt8} {out : List Nat}
    (h : StreamOpensTo H primes skFmt verify aad stream out) :
    ∃ f n nonce body zero count tag, Layout stream f n nonce body zero count tag := by
  obtain ⟨f, nonce, frames, total, tag, hf, rest, hstream, htail⟩ := h
  refine ⟨f, frames.length, nonce, framesBytes frames, _, _, tag,
    by rw [hstream, htail.split]; rfl, hf, ?_, length_framesBytes htail.frames_open,
    length_beBytes 4 _, length_beBytes 8 _, htail.length_tag⟩
  simpa using htail.frames_open.lt (by decide)

/-- The tests on length and header find the layout. -/
theorem exists_layout {stream : List UInt8} (hlen : ¬ stream.length < 21)
    (hformat : ¬ stream.head? ≠ some formatStreamAeV8)
    (hrange : ¬ (u32FromBe4 (stream.drop 1) < 1 ∨
      u32FromBe4 (stream.drop 1) > streamAeV8MaxFrame))
    (hsentinel : ¬ stream.length - 21 < 44)
    (hmod : ¬ (stream.length - 21 - 44) % (4 + u32FromBe4 (stream.drop 1) * tokenWidth *
      (maxNoiseRun + 1) + tagSize) ≠ 0)
    (hcap : ¬ (stream.length - 21 - 44) / (4 + u32FromBe4 (stream.drop 1) * tokenWidth *
      (maxNoiseRun + 1) + tagSize) > 0xFFFFFFFF) :
    ∃ f n nonce body zero count tag, Layout stream f n nonce body zero count tag := by
  have hhead : stream.headD 0 = Rust.formatStreamAeV8 := by
    rw [not_not] at hformat
    rw [List.headD_eq_head?_getD, hformat]
    rfl
  have hsplit := header_split (Nat.le_of_not_lt hlen) hhead
  rw [u32FromBe4_eq (by rw [List.length_drop]; omega)] at hrange hmod hcap
  generalize beNat ((stream.drop 1).take 4) = f at *
  generalize FixedBytes.ofList 16 ((stream.drop 5).take 16) = nonce at *
  have hunit : 4 + f * tokenWidth * (maxNoiseRun + 1) + tagSize = 36 + f * 160 := by
    rw [tokenWidth, maxNoiseRun, tagSize]
    omega
  rw [hunit] at hmod hcap
  rw [streamAeV8MaxFrame] at hrange
  have hrest : (stream.drop 21).length = stream.length - 21 := List.length_drop
  generalize stream.drop 21 = rest at hsplit hrest
  have hcount := Nat.div_add_mod (stream.length - 21 - 44) (36 + f * 160)
  rw [not_not.mp hmod, Nat.add_zero, Nat.mul_comm] at hcount
  generalize (stream.length - 21 - 44) / (36 + f * 160) = n at hcap hcount
  have hsent : (rest.drop (n * (36 + f * 160))).length = 44 := by
    rw [List.length_drop]
    omega
  generalize hs : rest.drop (n * (36 + f * 160)) = sentinel at hsent
  refine ⟨f, n, nonce, rest.take (n * (36 + f * 160)), sentinel.take 4,
    (sentinel.drop 4).take 8, (sentinel.drop 4).drop 8, ?_, by omega, by omega, ?_, ?_, ?_, ?_⟩
  · rw [List.take_append_drop, List.take_append_drop, ← hs, List.take_append_drop]
    exact hsplit
  · rw [List.length_take]
    omega
  · rw [List.length_take]
    omega
  · rw [List.length_take, List.length_drop]
    omega
  · rw [List.length_drop, List.length_drop]
    omega

/-- The test on the first four bytes of the sentinel. -/
theorem any_ne_zero_iff {zero : List UInt8} (h : zero.length = 4) :
    zero.any (· != 0) = true ↔ zero ≠ beBytes 4 0 := by
  match zero, h with
  | [a, b, c, d], _ =>
      simp only [List.any_cons, List.any_nil, Bool.or_false, Bool.or_eq_true, bne_iff_ne,
        beBytes, ne_eq, List.cons.injEq, and_true, Nat.zero_div]
      tauto

/-- `writeChars` succeeds exactly on codepoints that fit a byte. -/
theorem writeChars_eq (cps : List Nat) :
    writeChars cps = if ∀ c ∈ cps, c ≤ 0xFF then .ok (cps.map UInt8.ofNat ++ [0]) else null := by
  rw [writeChars]
  by_cases h : ∀ c ∈ cps, c ≤ 0xFF
  · rw [if_neg (by simpa using h), if_pos h]
  · rw [if_pos (by simpa using h), if_neg h]

/-- What the decoder does behind a sentinel whose tag is right. -/
def decryptCounted (H : Hmac) (primes : List UInt64) (skFmt nonce aad : List UInt8) (f : Nat)
    (stream : List UInt8) (nChunks totalRealCps : Nat) : CM (List UInt8) :=
  let maxReal := nChunks * f
  let minReal := if nChunks = 0 then 0 else maxReal - f + 1
  if nChunks = 0 then
    if totalRealCps ≠ 0 then null else .ok [0]
  else if totalRealCps < minReal ∨ totalRealCps > maxReal then null
  else do
    let plain ← decryptStreamChunks H primes skFmt nonce aad f stream nChunks totalRealCps 0 []
    writeChars plain

/-- The announced number of codepoints is checked against the number of chunks before a chunk is
opened. -/
theorem decryptCounted_eq (hkey : KeyValid (primesNat primes)) (hf : 1 ≤ f ∧ f ≤ 16384)
    {stream : List UInt8} {n : Nat} (hlen : 21 + n * (36 + f * 160) ≤ stream.length)
    (total : Nat) :
    decryptCounted H primes skFmt.toList nonce.toList aad f stream n total =
      if CountOk f n total then
        ofOption (openFrames H (primesNat primes) skFmt aad f nonce (hmacVerify H) n 0
          (stream.drop 21)) >>= fun chunks => writeChars (chunks.flatten.take total)
      else null := by
  rw [decryptCounted]
  by_cases hzero : n = 0
  · subst hzero
    rw [if_pos rfl]
    by_cases htotal : total = 0
    · have hcountOk : CountOk f 0 total := Or.inl ⟨rfl, htotal⟩
      rw [if_neg (not_not.mpr htotal), if_pos hcountOk, htotal]
      rfl
    · have hcountOk : ¬ CountOk f 0 total := by
        rw [CountOk]
        omega
      rw [if_pos htotal, if_neg hcountOk]
  · have hcountIff : CountOk f n total ↔ (n - 1) * f < total ∧ total ≤ n * f := by
      rw [CountOk]
      omega
    have hmul : (n - 1) * f + f = n * f := by
      rw [← Nat.succ_mul, Nat.succ_eq_add_one, Nat.sub_add_cancel (by omega)]
    simp only [if_neg hzero]
    by_cases hcount : (n - 1) * f < total ∧ total ≤ n * f
    · rw [if_neg (by omega), if_pos (hcountIff.mpr hcount), decryptStreamChunks_eq hkey hf hlen
        hcount 0 [] (Nat.zero_le n) (fun _ => by simp), Nat.sub_zero, Nat.zero_mul, Nat.add_zero]
      cases openFrames H (primesNat primes) skFmt aad f nonce (hmacVerify H) n 0
          (stream.drop 21) with
      | none => rfl
      | some chunks => rfl
    · rw [if_pos (by omega), if_neg fun h => hcount (hcountIff.mp h)]

section
variable {stream : List UInt8} {n : Nat} {body zero count tag : List UInt8}
  (h : Layout stream f n nonce body zero count tag)
include h

theorem Layout.length_stream : stream.length = 21 + (n * (36 + f * 160) + 44) := by
  rw [h.split, List.length_append, Rust.length_streamV8Header f nonce.length_toList]
  simp only [List.length_append, h.length_body, h.length_zero, h.length_count, h.length_tag]

theorem Layout.drop_header : stream.drop 21 = body ++ (zero ++ (count ++ tag)) := by
  rw [h.split, List.drop_left' (Rust.length_streamV8Header f nonce.length_toList)]

theorem Layout.drop_frames :
    stream.drop (21 + n * (36 + f * 160)) = zero ++ (count ++ tag) := by
  rw [← List.drop_drop, h.drop_header, List.drop_left' h.length_body]

/-- The header gives the size of a frame and the nonce. -/
theorem Layout.header_fields :
    u32FromBe4 (stream.drop 1) = f ∧ (stream.drop 5).take nonceSize = nonce.toList := by
  have hlen := h.length_stream
  have hf := h.frame_range
  constructor
  · rw [u32FromBe4_eq (by rw [List.length_drop]; omega), h.split, take_drop_header_field,
      beNat_beBytes_of_lt (by omega)]
  · rw [h.split]
    exact take_drop_header_nonce f nonce _

/-- On a layout the tests on length and header pass; the sentinel is next. -/
theorem Layout.napqesDecryptStreamAeV8Bytes_eq (hkey : KeyValid (primesNat primes))
    (sk : FixedBytes skSize) :
    let skFmt := Rust.deriveFormatSubkey H sk Rust.formatStreamAeV8
    let total := beNat count ^^^ Rust.streamV8CountMask H skFmt.toList f nonce.toList n
    napqesDecryptStreamAeV8Bytes H stream primes sk aad =
      if zero = beBytes 4 0 ∧
          hmacVerify H skFmt.toList (sentinelTagInput f nonce.toList n aad total) tag = true then
        decryptCounted H primes skFmt.toList nonce.toList aad f stream n total
      else null := by
  have hvalid : ¬ (!validateKey primes) = true := by simp [(validateKey_iff primes).mpr hkey]
  have hf := h.frame_range
  have hlen := h.length_stream
  obtain ⟨hfield, hnonce⟩ := h.header_fields
  have hunit : f * tokenWidth * (maxNoiseRun + 1) = f * 160 := by
    rw [tokenWidth, maxNoiseRun]
    omega
  have hframe : 4 + f * 160 + tagSize = 36 + f * 160 := by
    rw [tagSize]
    omega
  have hformat : ¬ stream.head? ≠ some formatStreamAeV8 := by
    rw [h.split]
    exact not_not.mpr rfl
  have hrange : ¬ (f < 1 ∨ f > streamAeV8MaxFrame) := by
    rw [streamAeV8MaxFrame]
    omega
  have hafter : stream.length - 21 = n * (36 + f * 160) + 44 := by omega
  have hcap : ¬ n > 0xFFFFFFFF := by
    have := h.count_lt
    omega
  have htagDrop : (zero ++ (count ++ tag)).drop 12 = tag := by
    rw [← List.append_assoc, List.drop_left' (by
      rw [List.length_append, h.length_zero, h.length_count])]
  have hsk : deriveFormatSubkey H sk formatStreamAeV8 =
      Rust.deriveFormatSubkey H sk Rust.formatStreamAeV8 := rfl
  intro skFmt total
  rw [napqesDecryptStreamAeV8Bytes, if_neg hvalid, if_neg (by omega), if_neg hformat]
  dsimp only
  rw [hfield, if_neg hrange, hnonce, hsk, hunit, hframe, hafter, if_neg (by omega),
    Nat.add_sub_cancel, if_neg (not_not.mpr (Nat.mul_mod_left _ _)),
    Nat.mul_div_cancel _ (by omega), if_neg hcap, h.drop_frames, List.take_left' h.length_zero,
    List.drop_left' h.length_zero, readBe8Loop_eq, List.take_left' h.length_count,
    streamV8CountMask_eq, computeStreamV8SentinelTag_eq, htagDrop, constantTimeEq_tag h.length_tag]
  by_cases hz : zero = beBytes 4 0
  · rw [if_neg (fun h' => (any_ne_zero_iff h.length_zero).mp h' hz)]
    by_cases hverify : hmacVerify H skFmt.toList
        (sentinelTagInput f nonce.toList n aad total) tag = true
    · rw [if_neg (by rw [hverify]; decide)]
      exact (if_pos ⟨hz, hverify⟩).symm
    · rw [if_pos (by simpa using hverify)]
      exact (if_neg fun hboth => hverify hboth.2).symm
  · rw [if_pos ((any_ne_zero_iff h.length_zero).mpr hz)]
    exact (if_neg fun hboth => hz hboth.1).symm

/-- On a layout the decoder writes out what the stream opens to, and returns `NULL` when it opens
to nothing. -/
theorem napqesDecryptStreamAeV8Bytes_layout (hkey : KeyValid (primesNat primes))
    (sk : FixedBytes skSize) :
    (∃ cps, StreamOpensTo H (primesNat primes)
        (Rust.deriveFormatSubkey H sk Rust.formatStreamAeV8) (hmacVerify H) aad stream cps ∧
        napqesDecryptStreamAeV8Bytes H stream primes sk aad = writeChars cps) ∨
      ((∀ cps, ¬ StreamOpensTo H (primesNat primes)
        (Rust.deriveFormatSubkey H sk Rust.formatStreamAeV8) (hmacVerify H) aad stream cps) ∧
        napqesDecryptStreamAeV8Bytes H stream primes sk aad = null) := by
  have hlen := h.length_stream
  have hopens := @streamOpensTo_layout_iff H (primesNat primes)
    (Rust.deriveFormatSubkey H sk Rust.formatStreamAeV8) aad f nonce (hmacVerify H) h.frame_range
    _ h.count_lt _ _ _ _ h.length_body h.length_zero h.length_count h.length_tag
  rw [← h.split] at hopens
  rw [h.napqesDecryptStreamAeV8Bytes_eq hkey sk]
  dsimp only at hopens ⊢
  generalize beNat count ^^^ _ = total at hopens ⊢
  split
  case isFalse hsentinel =>
    refine Or.inr ⟨fun cps hcps => ?_, rfl⟩
    obtain ⟨hz, hverify, -⟩ := (hopens cps).mp hcps
    exact hsentinel ⟨hz, hverify⟩
  case isTrue hsentinel =>
    obtain ⟨hz, hverify⟩ := hsentinel
    rw [decryptCounted_eq hkey h.frame_range (by omega), h.drop_header]
    split
    case isFalse hcount =>
      exact Or.inr ⟨fun cps hcps => hcount ((hopens cps).mp hcps).2.2.1, rfl⟩
    case isTrue hcount =>
      cases hopen : openFrames H (primesNat primes)
          (Rust.deriveFormatSubkey H sk Rust.formatStreamAeV8) aad f nonce (hmacVerify H) n 0
          (body ++ (zero ++ (count ++ tag))) with
      | none =>
          refine Or.inr ⟨fun cps hcps => ?_, rfl⟩
          obtain ⟨-, -, -, chunks, hchunks, -⟩ := (hopens cps).mp hcps
          rw [hopen] at hchunks
          cases hchunks
      | some chunks =>
          exact Or.inl ⟨chunks.flatten.take total,
            (hopens _).mpr ⟨hz, hverify, hcount, chunks, hopen, rfl⟩, rfl⟩

end

/-- A stream without a layout is refused by one of the tests on its length and header. -/
theorem napqesDecryptStreamAeV8Bytes_no_layout (sk : FixedBytes skSize) {stream : List UInt8}
    (h : ¬ ∃ f n nonce body zero count tag, Layout stream f n nonce body zero count tag) :
    napqesDecryptStreamAeV8Bytes H stream primes sk aad = null := by
  rw [napqesDecryptStreamAeV8Bytes]
  by_cases hvalid : (!validateKey primes) = true
  · rw [if_pos hvalid]
  rw [if_neg hvalid]
  by_cases hlen : stream.length < 21
  · rw [if_pos hlen]
  rw [if_neg hlen]
  by_cases hformat : stream.head? ≠ some formatStreamAeV8
  · rw [if_pos hformat]
  rw [if_neg hformat]
  dsimp only
  by_cases hrange : u32FromBe4 (stream.drop 1) < 1 ∨
      u32FromBe4 (stream.drop 1) > streamAeV8MaxFrame
  · rw [if_pos hrange]
  rw [if_neg hrange]
  by_cases hsentinel : stream.length - 21 < 44
  · rw [if_pos hsentinel]
  rw [if_neg hsentinel]
  by_cases hmod : (stream.length - 21 - 44) % (4 + u32FromBe4 (stream.drop 1) * tokenWidth *
      (maxNoiseRun + 1) + tagSize) ≠ 0
  · rw [if_pos hmod]
  rw [if_neg hmod]
  by_cases hcap : (stream.length - 21 - 44) / (4 + u32FromBe4 (stream.drop 1) * tokenWidth *
      (maxNoiseRun + 1) + tagSize) > 0xFFFFFFFF
  · rw [if_pos hcap]
  exact absurd (exists_layout hlen hformat hrange hsentinel hmod hcap) h

/-- The decoder writes out what the stream opens to, and returns `NULL` when it opens to
nothing. -/
theorem napqesDecryptStreamAeV8Bytes_spec (hkey : KeyValid (primesNat primes))
    (sk : FixedBytes skSize) (stream : List UInt8) :
    (∃ cps, StreamOpensTo H (primesNat primes)
        (Rust.deriveFormatSubkey H sk Rust.formatStreamAeV8) (hmacVerify H) aad stream cps ∧
        napqesDecryptStreamAeV8Bytes H stream primes sk aad = writeChars cps) ∨
      ((∀ cps, ¬ StreamOpensTo H (primesNat primes)
        (Rust.deriveFormatSubkey H sk Rust.formatStreamAeV8) (hmacVerify H) aad stream cps) ∧
        napqesDecryptStreamAeV8Bytes H stream primes sk aad = null) := by
  by_cases h : ∃ f n nonce body zero count tag, Layout stream f n nonce body zero count tag
  · obtain ⟨f, n, nonce, body, zero, count, tag, h⟩ := h
    exact napqesDecryptStreamAeV8Bytes_layout h hkey sk
  · exact Or.inr ⟨fun cps hcps => h (layout_of_streamOpensTo hcps),
      napqesDecryptStreamAeV8Bytes_no_layout sk h⟩

/-! ## Main result -/

/-- Codepoints that fit a byte are the codepoints of exactly one byte string. -/
theorem map_toNat_map_ofNat {cps : List Nat} (h : ∀ c ∈ cps, c ≤ 0xFF) :
    (cps.map UInt8.ofNat).map UInt8.toNat = cps := by
  rw [List.map_map]
  refine (List.map_congr_left fun c hc => ?_).trans (List.map_id cps)
  have hle := h c hc
  show (UInt8.ofNat c).toNat = c
  rw [UInt8.toNat_ofNat']
  exact Nat.mod_eq_of_lt (by omega)

/-- `napqes_decrypt_stream_ae_v8_bytes` returns the bytes of a string, with their terminator,
exactly when `decrypt_stream_ae_v8_inner` returns that string, and `NULL` exactly when the Rust
decoder returns no string of codepoints up to 0xFF. -/
theorem napqesDecryptStreamAeV8Bytes_agree (H : Hmac) (primes : List UInt64)
    (hkey : Rust.validateKey (primesNat primes) = .ok ⟨⟩) (sk : FixedBytes skSize)
    (aad stream : Slice) :
    (∀ plain : List UInt8,
      napqesDecryptStreamAeV8Bytes H stream.bytes primes sk aad.bytes = .ok (plain ++ [0]) ↔
        ∃ s, Rust.decryptStreamAeV8Inner H (hmacVerify H) stream.bytes (primesNat primes)
            (Rust.deriveFormatSubkey H sk Rust.formatStreamAeV8) aad.bytes = .ok s ∧
          s.codepoints = plain.map UInt8.toNat) ∧
    (napqesDecryptStreamAeV8Bytes H stream.bytes primes sk aad.bytes = .error .null ↔
      ¬ ∃ s, Rust.decryptStreamAeV8Inner H (hmacVerify H) stream.bytes (primesNat primes)
          (Rust.deriveFormatSubkey H sk Rust.formatStreamAeV8) aad.bytes = .ok s ∧
        ∀ c ∈ s.codepoints, c ≤ 0xFF) := by
  have hvalid := (Rust.validateKey_iff _).mp hkey
  simp only [Rust.decryptStreamAeV8Inner_eq_ok_iff hvalid]
  rcases @napqesDecryptStreamAeV8Bytes_spec H primes aad.bytes hvalid sk stream.bytes with
    ⟨cps, hopen, hrun⟩ | ⟨hnone, hrun⟩
  · -- The stream opens to `cps`, and to nothing else.
    have honly : ∀ s : Str, StreamOpensTo H (primesNat primes)
        (Rust.deriveFormatSubkey H sk Rust.formatStreamAeV8) (hmacVerify H) aad.bytes stream.bytes
        s.codepoints ↔ s.codepoints = cps :=
      fun s => ⟨fun h => h.unique hopen, fun h => h ▸ hopen⟩
    obtain ⟨t, ht⟩ := exists_codepoints hopen.isScalar
    simp only [honly, hrun, writeChars_eq]
    by_cases hsmall : ∀ c ∈ cps, c ≤ 0xFF
    · have hback := map_toNat_map_ofNat hsmall
      rw [if_pos hsmall]
      constructor
      · intro plain
        rw [Except.ok.injEq, List.append_left_inj]
        constructor
        · rintro rfl
          exact ⟨t, ht, ht.trans hback.symm⟩
        · rintro ⟨s, rfl, hs⟩
          rw [hs, List.map_map]
          exact (List.map_congr_left fun b _ => UInt8.ofNat_toNat).trans (List.map_id plain)
      · simp only [reduceCtorEq, false_iff, not_not]
        exact ⟨t, ht, ht ▸ hsmall⟩
    · rw [if_neg hsmall]
      constructor
      · intro plain
        simp only [null, reduceCtorEq, false_iff]
        rintro ⟨s, rfl, hs⟩
        apply hsmall
        rw [hs]
        intro c hc
        obtain ⟨b, -, rfl⟩ := List.mem_map.mp hc
        exact Nat.le_of_lt_succ b.toNat_lt
      · simp only [null, true_iff]
        rintro ⟨s, rfl, hs⟩
        exact hsmall hs
  · simp only [hrun, null, reduceCtorEq, hnone, false_and, exists_false,
      not_false_eq_true, implies_true, and_self]

/-- A sealed stream of one character in frames of two. -/
theorem napqesDecryptStreamAeV8Bytes_agree_one :
    napqesDecryptStreamAeV8Bytes zeroHmac
      (sealStream zeroHmac [1000003]
        (Rust.deriveFormatSubkey zeroHmac (.ofList 32 []) Rust.formatStreamAeV8) [7] 2
        (.ofList 16 [1]) [0x61]) [1000003] (.ofList 32 []) [7] = .ok ([0x61] ++ [0]) := by
  have hlen := @length_sealStream zeroHmac [1000003]
    (Rust.deriveFormatSubkey zeroHmac (.ofList 32 []) Rust.formatStreamAeV8) [7] 2
    (.ofList 16 [1]) (by decide) [0x61]
  have hopen := @streamOpensTo_sealStream zeroHmac [1000003]
    (Rust.deriveFormatSubkey zeroHmac (.ofList 32 []) Rust.formatStreamAeV8) [7] 2
    (.ofList 16 [1]) (hmacVerify zeroHmac) keyValid_1000003 (by decide) [0x61]
    (fun input _ => Rust.hmacVerify_self zeroHmac _ input) (by decide)
    (by rw [length_pieces (by decide)]; decide)
  exact ((napqesDecryptStreamAeV8Bytes_agree zeroHmac [1000003] Rust.validateKey_1000003
    (.ofList 32 []) ⟨[7], by decide⟩ ⟨_, hlen.trans_lt (by decide)⟩).1 [0x61]).mpr
      ⟨['a'], (Rust.decryptStreamAeV8Inner_eq_ok_iff keyValid_1000003 _ _).mpr hopen, rfl⟩

end Napqes.C
