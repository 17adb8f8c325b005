import Napqes.Format.Stream
import Napqes.Python.Proofs.Block
import Napqes.Python.StreamV8

/-!
# The Python stream decryptor, one frame at a time

What one round of `decrypt_stream_ae_v8` can do: read a frame and go on, read the sentinel and
return, or raise without having yielded anything in this round. Everything about whole runs
follows from that.
-/

namespace Napqes.Python

open Rust (TagCheck)

variable {H : Hmac} {verify : TagCheck} {primes : List Nat} {skFmt : FixedBytes 32}
  {aad : List UInt8} {f : Nat} {nonce : FixedBytes 16}

/-! ## Derivations -/

theorem streamV8Header_eq_ok (hf : f < 2 ^ 32) (nonce : List UInt8) :
    streamV8Header f nonce = .ok (Rust.streamV8Header f nonce) := by
  rw [streamV8Header, toBytes_of_lt hf]
  rfl

theorem streamV8CountMask_eq_ok (skFmt nonce : List UInt8) (hf : f < 2 ^ 32) {idx : Nat}
    (hidx : idx < 2 ^ 32) :
    streamV8CountMask H skFmt f nonce idx = .ok (Rust.streamV8CountMask H skFmt f nonce idx) := by
  rw [streamV8CountMask, streamV8Header_eq_ok hf, ok_bind, toBytes_of_lt hidx]
  rfl

theorem deriveStreamV8SubNonce_eq_ok (skFmt nonce : List UInt8) {idx : Nat}
    (hidx : idx < 2 ^ 32) :
    deriveStreamV8SubNonce H skFmt nonce idx =
      .ok (Rust.deriveStreamV8SubNonce H skFmt nonce idx).toList := by
  rw [deriveStreamV8SubNonce, toBytes_of_lt hidx]
  rfl

theorem streamV8ChunkTagInput_eq_ok (nonce : List UInt8) (hf : f < 2 ^ 32) {idx : Nat}
    (hidx : idx < 2 ^ 32) (haad : aad.length < 2 ^ 64) (body : List UInt8) :
    streamV8ChunkTagInput f nonce idx aad body = .ok (Rust.chunkTagInput f nonce idx aad body) := by
  have hlen : aad.length < 256 ^ aadLenWidthV8 := haad
  rw [streamV8ChunkTagInput, toBytes_of_lt hlen, ok_bind, streamV8Header_eq_ok hf, ok_bind,
    toBytes_of_lt hidx]
  rfl

theorem streamV8SentinelTagInput_eq_ok (nonce : List UInt8) (hf : f < 2 ^ 32) {idx : Nat}
    (hidx : idx < 2 ^ 32) (haad : aad.length < 2 ^ 64) {total : Nat} (htotal : total < 2 ^ 64) :
    streamV8SentinelTagInput f nonce idx aad total =
      .ok (Rust.sentinelTagInput f nonce idx aad total) := by
  have hlen : aad.length < 256 ^ aadLenWidthV8 := haad
  have height : total < 256 ^ 8 := htotal
  rw [streamV8SentinelTagInput, toBytes_of_lt hlen, ok_bind, streamV8Header_eq_ok hf, ok_bind,
    toBytes_of_lt hidx, ok_bind, toBytes_of_lt height]
  rfl

/-- A chunk index or associated data that does not fit its field ends the run. -/
theorem streamV8ChunkTagInput_eq_error (nonce : List UInt8) (hf : f < 2 ^ 32) {idx : Nat}
    (h : ¬ (idx < 2 ^ 32 ∧ aad.length < 2 ^ 64)) (body : List UInt8) :
    ∃ e, streamV8ChunkTagInput f nonce idx aad body = .error e := by
  rw [streamV8ChunkTagInput]
  by_cases haad : aad.length < 256 ^ aadLenWidthV8
  · have hidx : ¬ idx < 256 ^ 4 := fun hlt => h ⟨hlt, haad⟩
    rw [toBytes_of_lt haad, ok_bind, streamV8Header_eq_ok hf, ok_bind, toBytes_of_not_lt hidx]
    exact ⟨_, rfl⟩
  · rw [toBytes_of_not_lt haad]
    exact ⟨_, rfl⟩

theorem streamV8CountMask_eq_error (skFmt nonce : List UInt8) (hf : f < 2 ^ 32) {idx : Nat}
    (hidx : ¬ idx < 2 ^ 32) : ∃ e, streamV8CountMask H skFmt f nonce idx = .error e := by
  rw [streamV8CountMask, streamV8Header_eq_ok hf, ok_bind, @toBytes_of_not_lt 4 _ hidx]
  exact ⟨_, rfl⟩

theorem streamV8SentinelTagInput_eq_error (nonce : List UInt8) (idx : Nat)
    (haad : ¬ aad.length < 2 ^ 64) (total : Nat) :
    ∃ e, streamV8SentinelTagInput f nonce idx aad total = .error e := by
  rw [streamV8SentinelTagInput, @toBytes_of_not_lt aadLenWidthV8 _ haad]
  exact ⟨_, rfl⟩

/-! ## Chunks -/

theorem toOption_valueError {α : Type} (msg : String) :
    (valueError msg : PyM α).toOption = none := rfl

/-- The loop differs from that of the block decoder in its error texts only. -/
theorem toOption_readStreamTokens (sk sn : List UInt8) (theta : Nat) (tokens : List Nat)
    (n idx pos : Nat) (acc : List Nat) :
    (readStreamTokens H primes sk sn theta tokens (idx + n) idx pos acc).toOption =
      (readTokens H primes sk sn theta tokens (idx + n) idx pos acc).toOption := by
  induction n generalizing idx pos acc with
  | zero =>
      rw [readStreamTokens, readTokens, dif_neg (by omega), dif_neg (by omega)]
  | succ n ih =>
      rw [readStreamTokens, readTokens, dif_pos (by omega), dif_pos (by omega), toOption_bind,
        toOption_bind]
      congr 1
      funext pos
      cases tokens[pos]? with
      | none => rw [toOption_valueError, toOption_valueError]
      | some token =>
          simp only [toOption_bind]
          congr 1
          funext k
          congr 1
          funext addend
          split
          case isTrue => rw [toOption_valueError, toOption_valueError]
          case isFalse =>
            split
            case isTrue => rw [toOption_valueError, toOption_valueError]
            case isFalse =>
              rw [show idx + (n + 1) = idx + 1 + n by omega]
              exact ih _ _ _

/-- Decoding a chunk body whose tag has verified: unmasking succeeds, and the tokens give what
the body opens to. -/
theorem decryptChunk_steps (hkey : KeyValid primes) (hf : f ≤ 16384) {masked : List UInt8}
    (hmasked : masked.length = f * 160) (sk subNonce : List UInt8) :
    ∃ ks tokens, varintKeystream H sk subNonce (f * 160) = .ok ks ∧
      fixedDecodeTokens (xorBytes masked ks) = .ok tokens ∧
      (decryptV8StreamChunkCore H tokens primes sk subNonce f).toOption =
        openTokens H sk subNonce primes masked f := by
  have hks := @varintKeystream_eq_ok H sk subNonce (f * 160) (by omega)
  have hmask : xorBytes masked (keystream H sk subNonce (f * 160)) =
      maskWith H sk subNonce masked := by
    rw [maskWith, hmasked]
  have hdecode := (fixedDecodeTokens_eq_ok_iff (maskWith H sk subNonce masked) _).mpr
    ⟨by rw [length_maskWith, hmasked]; omega, rfl⟩
  refine ⟨_, (chunksExact 8 ((maskWith H sk subNonce masked).length / 8)
    (maskWith H sk subNonce masked)).map beNat, hks, by rw [hmask]; exact hdecode, ?_⟩
  have hcount : ((chunksExact 8 ((maskWith H sk subNonce masked).length / 8)
      (maskWith H sk subNonce masked)).map beNat).length ≤ 2 ^ 40 := by
    rw [List.length_map, length_chunksExact, length_maskWith, hmasked]
    omega
  rw [openTokens, Napqes.readTokens, ← length_maskWith H sk subNonce masked]
  generalize (chunksExact 8 ((maskWith H sk subNonce masked).length / 8)
      (maskWith H sk subNonce masked)).map beNat = tokens at hcount
  have hread := @toOption_readTokens H primes sk subNonce hkey tokens hcount f 0 0 [] (by omega)
    (Nat.zero_le _)
  rw [← toOption_readStreamTokens, Nat.zero_add] at hread
  rw [decryptV8StreamChunkCore, hread]
  simp only [List.nil_append, Option.map_id_fun', id_eq]

/-! ## One round -/

section
variable (H : Hmac) (verify : TagCheck) (primes : List Nat) (skFmt : FixedBytes 32)
  (aad : List UInt8) (f : Nat) (nonce : FixedBytes 16)

/-- The bytes start with a frame that the decryptor takes for chunk `idx`. -/
structure FrameReads (idx : Nat) (bs : List UInt8) (cps : List Nat) : Prop where
  le_length : 36 + f * 160 ≤ bs.length
  idx_lt : idx < 2 ^ 32
  aad_lt : aad.length < 2 ^ 64
  opened : openFrame H primes skFmt aad f nonce verify idx bs = some cps

/-- The bytes start with a sentinel that the decryptor accepts after `idx` chunks, of which
`held` is the last and the others had `delivered` codepoints. -/
structure SentinelReads (idx : Nat) (held : Option (List Nat)) (delivered : Nat)
    (bs : List UInt8) (total : Nat) : Prop where
  le_length : 44 ≤ bs.length
  idx_lt : idx < 2 ^ 32
  aad_lt : aad.length < 2 ^ 64
  zero : beNat (bs.take 4) = 0
  total_eq : total = beNat ((bs.drop 4).take 8) ^^^
    Rust.streamV8CountMask H skFmt.toList f nonce.toList idx
  tag_ok : verify skFmt.toList (Rust.sentinelTagInput f nonce.toList idx aad total)
    ((bs.drop 12).take 32) = true
  consistent : match held with
    | none => total = delivered
    | some cps => delivered < total ∧ total ≤ delivered + cps.length

/-- What one round does with the bytes it finds: go on behind a frame, return at the sentinel,
or raise. -/
inductive RoundResult (r : Reader) (idx : Nat) (held : Option (List Nat)) (delivered : Nat)
    (run : Gen PyErr Nat PUnit) : Prop where
  | frame (cps : List Nat) (r' : Reader) :
      FrameReads H verify primes skFmt aad f nonce idx r.bytes cps →
      r'.bytes = r.bytes.drop (36 + f * 160) →
      run = ⟨held.getD [] ++ (decryptStreamLoop H verify primes skFmt.toList aad f nonce.toList r'
          (idx + 1) (some cps) (delivered + (held.getD []).length)).yielded,
        (decryptStreamLoop H verify primes skFmt.toList aad f nonce.toList r' (idx + 1) (some cps)
          (delivered + (held.getD []).length)).outcome⟩ →
      RoundResult r idx held delivered run
  | sentinel (total : Nat) :
      SentinelReads H verify skFmt aad f nonce idx held delivered r.bytes total →
      run = ⟨(held.getD []).take (total - delivered), .ok ⟨⟩⟩ →
      RoundResult r idx held delivered run
  | raised (e : PyErr) :
      (∀ cps, ¬ FrameReads H verify primes skFmt aad f nonce idx r.bytes cps) →
      (∀ total, ¬ SentinelReads H verify skFmt aad f nonce idx held delivered r.bytes total) →
      run = ⟨[], .error e⟩ → RoundResult r idx held delivered run

end

/-- The sentinel branch, on a reader that has taken the zero length field off `bs`. -/
theorem readStreamSentinel_result (hf : f < 2 ^ 32) {bs : List UInt8} (hlen : 4 ≤ bs.length)
    (hzero : beNat (bs.take 4) = 0) {r : Reader} (hr : r.bytes = bs.drop 4) (idx : Nat)
    {held : Option (List Nat)} (hheld : ∀ c ∈ held.getD [], IsScalar c) (delivered : Nat) :
    (∃ total, SentinelReads H verify skFmt aad f nonce idx held delivered bs total ∧
      readStreamSentinel H verify skFmt.toList aad f nonce.toList r idx held delivered =
        ⟨(held.getD []).take (total - delivered), .ok ⟨⟩⟩) ∨
    (∀ total, ¬ SentinelReads H verify skFmt aad f nonce idx held delivered bs total) ∧
      ∃ e, readStreamSentinel H verify skFmt.toList aad f nonce.toList r idx held delivered =
        ⟨[], .error e⟩ := by
  have hsize : r.bytes.length = bs.length - 4 := by rw [hr, List.length_drop]
  unfold readStreamSentinel
  by_cases hshort : bs.length < 44
  · refine Or.inr ⟨fun total h => Nat.not_le.mpr hshort h.le_length, ?_⟩
    rcases @Reader.read_read_of_lt r 8 tagSize (by rw [tagSize]; omega) with
      ⟨e, he⟩ | ⟨r₂, hlen₂, hread₂, e, he⟩
    · simp only [he, Gen.liftM_error_bind]
      exact ⟨e, rfl⟩
    · simp only [hread₂, Gen.liftM_ok_bind, he, Gen.liftM_error_bind]
      exact ⟨e, rfl⟩
  obtain ⟨r₂, r₃, hlen₂, hlen₃, hread₂, hread₃, -⟩ :=
    @Reader.read_read r 8 tagSize (by rw [tagSize]; omega)
  have htag : (r.bytes.drop 8).take tagSize = (bs.drop 12).take 32 := by
    rw [hr, List.drop_drop, tagSize]
  have hcount : r.bytes.take 8 = (bs.drop 4).take 8 := by rw [hr]
  simp only [hread₂, hread₃, Gen.liftM_ok_bind, htag, hcount]
  by_cases hidx : idx < 2 ^ 32
  · simp only [streamV8CountMask_eq_ok skFmt.toList nonce.toList hf hidx, Gen.liftM_ok_bind]
    have htotal : beNat ((bs.drop 4).take 8) ^^^
        Rust.streamV8CountMask H skFmt.toList f nonce.toList idx < 2 ^ 64 := by
      have hlt := beNat_lt ((bs.drop 4).take 8)
      have height : ((bs.drop 4).take 8).length = 8 := by
        rw [List.length_take, List.length_drop]
        omega
      rw [height] at hlt
      exact Nat.xor_lt_two_pow (n := 64) hlt (Rust.u64FromBe8_lt _)
    generalize htotalEq : beNat ((bs.drop 4).take 8) ^^^
        Rust.streamV8CountMask H skFmt.toList f nonce.toList idx = total at htotal
    by_cases haad : aad.length < 2 ^ 64
    · simp only [streamV8SentinelTagInput_eq_ok nonce.toList hf hidx haad htotal,
        Gen.liftM_ok_bind]
      by_cases hverify : verify skFmt.toList
          (Rust.sentinelTagInput f nonce.toList idx aad total) ((bs.drop 12).take 32) = true
      · rw [if_neg (not_not.mpr hverify)]
        cases held with
        | none =>
            by_cases hcons : total = delivered
            · rw [if_neg (by simpa using hcons)]
              refine Or.inl ⟨total,
                ⟨by omega, hidx, haad, hzero, htotalEq.symm, hverify, hcons⟩, ?_⟩
              rw [Option.getD_none, List.take_nil]
              rfl
            · rw [if_pos (by simpa using hcons)]
              refine Or.inr ⟨?_, _, rfl⟩
              intro total' h
              have htotal' := h.total_eq
              rw [htotalEq] at htotal'
              exact hcons (htotal' ▸ h.consistent)
        | some cps =>
            by_cases hcons : delivered < total ∧ total ≤ delivered + cps.length
            · rw [if_neg (by simpa using hcons)]
              refine Or.inl ⟨total,
                ⟨by omega, hidx, haad, hzero, htotalEq.symm, hverify, hcons⟩, ?_⟩
              exact yieldChars_eq fun c hc => hheld c (List.mem_of_mem_take hc)
            · rw [if_pos (by simpa using hcons)]
              refine Or.inr ⟨?_, _, rfl⟩
              intro total' h
              have htotal' := h.total_eq
              rw [htotalEq] at htotal'
              exact hcons (htotal' ▸ h.consistent)
      · rw [if_pos hverify]
        refine Or.inr ⟨?_, _, rfl⟩
        intro total' h
        have htotal' := h.total_eq
        rw [htotalEq] at htotal'
        exact hverify (htotal' ▸ h.tag_ok)
    · obtain ⟨e, he⟩ := @streamV8SentinelTagInput_eq_error aad f nonce.toList idx haad total
      simp only [he, Gen.liftM_error_bind]
      exact Or.inr ⟨fun total h => haad h.aad_lt, e, rfl⟩
  · obtain ⟨e, he⟩ := @streamV8CountMask_eq_error H f skFmt.toList nonce.toList hf idx hidx
    simp only [he, Gen.liftM_error_bind]
    exact Or.inr ⟨fun total h => hidx h.idx_lt, e, rfl⟩

/-- A frame does not start with a zero length. -/
theorem FrameReads.ne_zero (hf : 1 ≤ f) {idx : Nat} {bs : List UInt8} {cps : List Nat}
    (h : FrameReads H verify primes skFmt aad f nonce idx bs cps) : beNat (bs.take 4) ≠ 0 := by
  have hopen := h.opened
  simp only [openFrame] at hopen
  split at hopen
  case isTrue hif =>
    rw [hif.1]
    omega
  case isFalse => cases hopen

/-- The size of the body of a frame. -/
theorem chunkBodyLen_eq : f * tokenWidth * (maxNoiseRun + 1) = f * 160 := by
  rw [tokenWidth, maxNoiseRun]
  omega

section
variable (hkey : KeyValid primes) (hf : 1 ≤ f ∧ f ≤ 16384) {r : Reader}
  (hsize : beNat (r.bytes.take 4) = f * 160)
include hf hsize

/-- The round of a frame that is cut off. -/
theorem decryptStreamLoop_short_frame (hfour : 4 ≤ r.bytes.length)
    (hshort : r.bytes.length < 36 + f * 160) (idx : Nat) (held : Option (List Nat))
    (delivered : Nat) :
    RoundResult H verify primes skFmt aad f nonce r idx held delivered
      (decryptStreamLoop H verify primes skFmt.toList aad f nonce.toList r idx held
        delivered) := by
  have hnoframe : ∀ cps, ¬ FrameReads H verify primes skFmt aad f nonce idx r.bytes cps :=
    fun cps h => Nat.not_le.mpr hshort h.le_length
  have hnosentinel : ∀ total,
      ¬ SentinelReads H verify skFmt aad f nonce idx held delivered r.bytes total := by
    intro total h
    have hzero := h.zero
    omega
  obtain ⟨r₁, hlen₁, hread₁, -⟩ := Reader.read_of_le hfour
  rw [decryptStreamLoop]
  simp only [chunkBodyLen_eq, hread₁, Gen.liftM_ok_bind]
  rw [if_neg (by omega), if_neg (not_not.mpr hsize), hsize]
  rcases @Reader.read_read_of_lt r₁ (f * 160) tagSize (by rw [tagSize]; omega) with
    ⟨e, he⟩ | ⟨r₂, hlen₂, hread₂, e, he⟩
  · simp only [he, Gen.liftM_error_bind]
    exact .raised e hnoframe hnosentinel rfl
  · simp only [hread₂, Gen.liftM_ok_bind, he, Gen.liftM_error_bind]
    exact .raised e hnoframe hnosentinel rfl

include hkey

/-- The round of a whole frame. -/
theorem decryptStreamLoop_whole_frame (hle : 36 + f * 160 ≤ r.bytes.length) (idx : Nat)
    {held : Option (List Nat)} (hheld : ∀ c ∈ held.getD [], IsScalar c) (delivered : Nat) :
    RoundResult H verify primes skFmt aad f nonce r idx held delivered
      (decryptStreamLoop H verify primes skFmt.toList aad f nonce.toList r idx held
        delivered) := by
  have hframe32 : f < 2 ^ 32 := by omega
  have hnosentinel : ∀ total,
      ¬ SentinelReads H verify skFmt aad f nonce idx held delivered r.bytes total := by
    intro total h
    have hzero := h.zero
    omega
  obtain ⟨r₁, hlen₁, hread₁, hr₁⟩ := @Reader.read_of_le r 4 (by omega)
  obtain ⟨r₂, r₃, hlen₂, hlen₃, hread₂, hread₃, hr₃⟩ :=
    @Reader.read_read r₁ (f * 160) tagSize (by rw [tagSize]; omega)
  have hbody : r₁.bytes.take (f * 160) = (r.bytes.drop 4).take (f * 160) := by rw [hr₁]
  have htag : (r₁.bytes.drop (f * 160)).take tagSize =
      (r.bytes.drop (4 + f * 160)).take 32 := by
    rw [hr₁, List.drop_drop, tagSize]
  have hrest : r₃.bytes = r.bytes.drop (36 + f * 160) := by
    rw [hr₃, hr₁, List.drop_drop, tagSize]
    congr 1
    omega
  have hmasked : ((r.bytes.drop 4).take (f * 160)).length = f * 160 := by
    rw [List.length_take, List.length_drop]
    omega
  rw [decryptStreamLoop]
  simp only [chunkBodyLen_eq, hread₁, Gen.liftM_ok_bind]
  rw [if_neg (by omega), if_neg (not_not.mpr hsize), hsize]
  simp only [hread₂, hread₃, Gen.liftM_ok_bind, hbody, htag]
  by_cases hfits : idx < 2 ^ 32 ∧ aad.length < 2 ^ 64
  case neg =>
    obtain ⟨e, he⟩ := @streamV8ChunkTagInput_eq_error aad f nonce.toList hframe32 idx hfits
      ((r.bytes.drop 4).take (f * 160))
    simp only [he, Gen.liftM_error_bind]
    exact .raised e (fun cps h => hfits ⟨h.idx_lt, h.aad_lt⟩) hnosentinel rfl
  obtain ⟨hidx, haad⟩ := hfits
  simp only [streamV8ChunkTagInput_eq_ok nonce.toList hframe32 hidx haad, Gen.liftM_ok_bind]
  by_cases hverify : verify skFmt.toList
      (Rust.chunkTagInput f nonce.toList idx aad ((r.bytes.drop 4).take (f * 160)))
      ((r.bytes.drop (4 + f * 160)).take 32) = true
  case neg =>
    rw [if_pos hverify]
    refine .raised _ ?_ hnosentinel rfl
    intro cps h
    have hopen := h.opened
    rw [openFrame, if_neg fun hif => hverify hif.2] at hopen
    cases hopen
  rw [if_neg (not_not.mpr hverify)]
  -- The tag verifies, so the frame opens to what the chunk decodes to.
  have hopen : openFrame H primes skFmt aad f nonce verify idx r.bytes =
      openTokens H skFmt.toList
        (Rust.deriveStreamV8SubNonce H skFmt.toList nonce.toList idx).toList primes
        ((r.bytes.drop 4).take (f * 160)) f := by
    rw [openFrame, if_pos ⟨hsize, hverify⟩]
  obtain ⟨ks, tokens, hks, htokens, hcore⟩ := @decryptChunk_steps H primes f hkey hf.2 _
    hmasked skFmt.toList (Rust.deriveStreamV8SubNonce H skFmt.toList nonce.toList idx).toList
  rw [← hopen] at hcore
  simp only [deriveStreamV8SubNonce_eq_ok skFmt.toList nonce.toList hidx, hks, htokens,
    Gen.liftM_ok_bind]
  cases hresult : decryptV8StreamChunkCore H tokens primes skFmt.toList
      (Rust.deriveStreamV8SubNonce H skFmt.toList nonce.toList idx).toList f with
  | error e =>
      rw [hresult] at hcore
      refine .raised e ?_ hnosentinel rfl
      intro cps h
      rw [h.opened] at hcore
      cases hcore
  | ok cps =>
      rw [hresult] at hcore
      refine .frame cps r₃ ⟨by omega, hidx, haad, hcore.symm⟩ hrest ?_
      rw [Gen.liftM_ok_bind]
      cases held with
      | none => rfl
      | some held =>
          have hchars := @yieldChars_eq held hheld
          simp only [hchars, Gen.ok_bind, Option.getD_some]

end

/-- One round of the loop: everything it can do. -/
theorem decryptStreamLoop_round (hkey : KeyValid primes) (hf : 1 ≤ f ∧ f ≤ 16384) (r : Reader)
    (idx : Nat) {held : Option (List Nat)} (hheld : ∀ c ∈ held.getD [], IsScalar c)
    (delivered : Nat) :
    RoundResult H verify primes skFmt aad f nonce r idx held delivered
      (decryptStreamLoop H verify primes skFmt.toList aad f nonce.toList r idx held
        delivered) := by
  by_cases hfour : r.bytes.length < 4
  · obtain ⟨e, he⟩ := Reader.read_of_lt hfour
    rw [decryptStreamLoop]
    simp only [he, Gen.liftM_error_bind]
    refine .raised e ?_ ?_ rfl
    · intro cps h
      have := h.le_length
      omega
    · intro total h
      have := h.le_length
      omega
  by_cases hsize : beNat (r.bytes.take 4) = f * 160
  · by_cases hshort : r.bytes.length < 36 + f * 160
    · exact decryptStreamLoop_short_frame hf hsize (Nat.not_lt.mp hfour) hshort idx held delivered
    · exact decryptStreamLoop_whole_frame hkey hf hsize (Nat.not_lt.mp hshort) idx hheld delivered
  -- No frame: the sentinel or a wrong length.
  have hnoframe : ∀ cps, ¬ FrameReads H verify primes skFmt aad f nonce idx r.bytes cps := by
    intro cps h
    have hopen := h.opened
    rw [openFrame, if_neg fun hif => hsize hif.1] at hopen
    cases hopen
  obtain ⟨r₁, hlen₁, hread₁, hr₁⟩ := @Reader.read_of_le r 4 (by omega)
  rw [decryptStreamLoop]
  simp only [chunkBodyLen_eq, hread₁, Gen.liftM_ok_bind]
  by_cases hzero : beNat (r.bytes.take 4) = 0
  · rw [if_pos hzero]
    rcases @readStreamSentinel_result H verify skFmt aad f nonce (by omega) r.bytes (by omega)
      hzero r₁ hr₁ idx held hheld delivered with ⟨total, hsent, hrun⟩ | ⟨hno, e, hrun⟩
    · exact .sentinel total hsent hrun
    · exact .raised e hnoframe hno hrun
  · rw [if_neg hzero, if_pos hsize]
    exact .raised _ hnoframe (fun total h => hzero h.zero) rfl

/-! ## The state of the loop -/

/-- A state of the loop: chunks of `f` scalar values each. -/
structure ChunksRead (f : Nat) (chunks : List (List Nat)) : Prop where
  length : ∀ p ∈ chunks, p.length = f
  scalar : ∀ p ∈ chunks, ∀ c ∈ p, IsScalar c

theorem ChunksRead.nil : ChunksRead f [] := ⟨by simp, by simp⟩

theorem ChunksRead.held {chunks : List (List Nat)} (h : ChunksRead f chunks) :
    ∀ c ∈ chunks.getLast?.getD [], IsScalar c := by
  cases hlast : chunks.getLast? with
  | none => simp
  | some cps => exact h.scalar cps (List.mem_of_getLast? hlast)

/-- One more chunk. -/
theorem ChunksRead.concat {chunks : List (List Nat)} (h : ChunksRead f chunks) {idx : Nat}
    {bs : List UInt8} {cps : List Nat}
    (hframe : openFrame H primes skFmt aad f nonce verify idx bs = some cps) :
    ChunksRead f (chunks ++ [cps]) := by
  have hscalar : ∀ c ∈ cps, IsScalar c := by
    simp only [openFrame] at hframe
    split at hframe
    case isTrue => exact isScalar_of_readTokens H skFmt.toList _ hframe
    case isFalse => cases hframe
  constructor
  · intro p hp
    rcases List.mem_append.mp hp with hp | hp
    · exact h.length p hp
    · rw [List.mem_singleton.mp hp]
      exact length_of_openFrame hframe
  · intro p hp
    rcases List.mem_append.mp hp with hp | hp
    · exact h.scalar p hp
    · rw [List.mem_singleton.mp hp]
      exact hscalar

theorem length_delivered (chunks : List (List Nat)) (cps : List Nat) :
    chunks.dropLast.flatten.length + (chunks.getLast?.getD []).length =
      (chunks ++ [cps]).dropLast.flatten.length := by
  rw [← (chunks_concat chunks cps).1, List.length_append]

section
variable (H : Hmac) (verify : TagCheck) (primes : List Nat) (skFmt : FixedBytes 32)
  (aad : List UInt8) (f : Nat) (nonce : FixedBytes 16)

/-- The loop from the state in which `chunks` have been read. -/
def loopAfter (chunks : List (List Nat)) (r : Reader) : Gen PyErr Nat PUnit :=
  decryptStreamLoop H verify primes skFmt.toList aad f nonce.toList r chunks.length
    chunks.getLast? chunks.dropLast.flatten.length

end

/-- One round, on the state in which `chunks` have been read. -/
theorem loopAfter_round (hkey : KeyValid primes) (hf : 1 ≤ f ∧ f ≤ 16384)
    {chunks : List (List Nat)} (hchunks : ChunksRead f chunks) (r : Reader) :
    (∃ cps r', FrameReads H verify primes skFmt aad f nonce chunks.length r.bytes cps ∧
      r'.bytes = r.bytes.drop (36 + f * 160) ∧ ChunksRead f (chunks ++ [cps]) ∧
      loopAfter H verify primes skFmt aad f nonce chunks r =
        ⟨chunks.getLast?.getD [] ++
          (loopAfter H verify primes skFmt aad f nonce (chunks ++ [cps]) r').yielded,
          (loopAfter H verify primes skFmt aad f nonce (chunks ++ [cps]) r').outcome⟩) ∨
    (∃ total, SentinelReads H verify skFmt aad f nonce chunks.length chunks.getLast?
        chunks.dropLast.flatten.length r.bytes total ∧
      loopAfter H verify primes skFmt aad f nonce chunks r =
        ⟨(chunks.getLast?.getD []).take (total - chunks.dropLast.flatten.length), .ok ⟨⟩⟩) ∨
    ((∀ cps, ¬ FrameReads H verify primes skFmt aad f nonce chunks.length r.bytes cps) ∧
      (∀ total, ¬ SentinelReads H verify skFmt aad f nonce chunks.length chunks.getLast?
        chunks.dropLast.flatten.length r.bytes total) ∧
      ∃ e, loopAfter H verify primes skFmt aad f nonce chunks r = ⟨[], .error e⟩) := by
  rcases @decryptStreamLoop_round H verify primes skFmt aad f nonce hkey hf r chunks.length
    chunks.getLast? hchunks.held chunks.dropLast.flatten.length with
    ⟨cps, r', hframe, hr', hrun⟩ | ⟨total, hsent, hrun⟩ | ⟨e, hno, hno', hrun⟩
  · refine Or.inl ⟨cps, r', hframe, hr', hchunks.concat hframe.opened, ?_⟩
    rw [loopAfter, hrun, length_delivered chunks cps, (chunks_concat chunks cps).2]
    simp only [loopAfter, List.length_append, List.length_singleton]
  · exact Or.inr (Or.inl ⟨total, hsent, hrun⟩)
  · exact Or.inr (Or.inr ⟨hno, hno', e, hrun⟩)

/-! ## The header -/

/-- The decryptor reads a header and enters the loop behind it, or raises at once. -/
theorem decryptStreamAeV8_header {mathSqrt : Nat → Nat}
    (hpy : validateKey mathSqrt primes = .ok ⟨⟩) (sk : FixedBytes 32)
    (byteChunks : List (List UInt8)) :
    (∃ (f : Nat) (nonce : FixedBytes 16) (r : Reader), (1 ≤ f ∧ f ≤ 16384) ∧
      byteChunks.flatten = Rust.streamV8Header f nonce.toList ++ r.bytes ∧
      decryptStreamAeV8 H verify mathSqrt byteChunks primes sk.toList aad =
        loopAfter H verify primes (Rust.deriveFormatSubkey H sk Rust.formatStreamAeV8) aad f nonce
          [] r) ∨
    ((∀ (f : Nat) (nonce : FixedBytes 16) (rest : List UInt8), 1 ≤ f ∧ f ≤ 16384 →
        byteChunks.flatten ≠ Rust.streamV8Header f nonce.toList ++ rest) ∧
      ∃ e, decryptStreamAeV8 H verify mathSqrt byteChunks primes sk.toList aad =
        ⟨[], .error e⟩) := by
  have hsk : ¬ sk.toList.length ≠ skSize := fun h => h sk.length_toList
  have hbytes : (Reader.mk [] byteChunks).bytes = byteChunks.flatten := List.nil_append _
  have hheader : ∀ (f : Nat) (nonce : FixedBytes 16),
      (Rust.streamV8Header f nonce.toList).length = 21 := fun f nonce =>
    Rust.length_streamV8Header f nonce.length_toList
  unfold decryptStreamAeV8
  simp only [hpy, Gen.liftM_ok_bind, if_neg hsk]
  by_cases hlen : byteChunks.flatten.length < 21
  · obtain ⟨e, he⟩ := @Reader.read_of_lt ⟨[], byteChunks⟩ (1 + 4 + nonceSize)
      (by rw [hbytes, nonceSize]; exact hlen)
    simp only [he, Gen.liftM_error_bind]
    refine Or.inr ⟨?_, e, rfl⟩
    intro f nonce rest _ heq
    rw [heq, List.length_append, hheader] at hlen
    omega
  obtain ⟨r, hrlen, hread, hr⟩ := @Reader.read_of_le ⟨[], byteChunks⟩ (1 + 4 + nonceSize)
    (by rw [hbytes, nonceSize]; omega)
  have hsize : 1 + 4 + nonceSize = 21 := rfl
  rw [hbytes, hsize] at hr
  have hhead : (byteChunks.flatten.take 21).headD 0 = byteChunks.flatten.headD 0 := by
    cases byteChunks.flatten <;> rfl
  have hfield : ((byteChunks.flatten.take 21).drop 1).take 4 =
      (byteChunks.flatten.drop 1).take 4 := by
    rw [List.drop_take, List.take_take]
    rfl
  have hnonce : ((byteChunks.flatten.take 21).drop 5).take nonceSize =
      (byteChunks.flatten.drop 5).take 16 := by
    rw [List.drop_take, List.take_take]
    rfl
  simp only [hread, Gen.liftM_ok_bind, hbytes, hsize, hhead, hfield, hnonce]
  by_cases hformat : byteChunks.flatten.headD 0 = Rust.formatStreamAeV8
  · have hsame : ¬ byteChunks.flatten.headD 0 ≠ formatStreamAeV8 := not_not.mpr hformat
    rw [if_neg hsame]
    have hsplit := header_split (Nat.not_lt.mp hlen) hformat
    by_cases hrange : 1 ≤ beNat ((byteChunks.flatten.drop 1).take 4) ∧
        beNat ((byteChunks.flatten.drop 1).take 4) ≤ 16384
    · rw [if_neg (by rw [streamAeV8MaxFrame]; omega)]
      refine Or.inl ⟨_, .ofList 16 ((byteChunks.flatten.drop 5).take 16), r, hrange, ?_, ?_⟩
      · rw [hr]
        exact hsplit
      · rw [loopAfter, FixedBytes.toList_ofList]
        · rfl
        · rw [List.length_take, List.length_drop]
          omega
    · rw [if_pos (by rw [streamAeV8MaxFrame]; omega)]
      refine Or.inr ⟨?_, _, rfl⟩
      intro f nonce rest hf heq
      rw [heq, take_drop_header_field, beNat_beBytes_of_lt (by omega)] at hrange
      exact hrange hf
  · have hother : byteChunks.flatten.headD 0 ≠ formatStreamAeV8 := hformat
    rw [if_pos hother]
    refine Or.inr ⟨?_, _, rfl⟩
    intro f nonce rest _ heq
    rw [heq] at hformat
    exact hformat rfl

end Napqes.Python
