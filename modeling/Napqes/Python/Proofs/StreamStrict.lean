import Napqes.Python.Proofs.ReadingAe

/-!
# Streams with one tag at the end

`encrypt_stream` masks the tokens of each character as they come. `decrypt_stream` holds back the
last 32 bytes it has seen, since they may be the tag, and decodes what is in front of them; nothing
depends on how the bytes are cut into chunks, and the bytes it has decoded and fed to the tag are
always those of the body in front of what it holds.
-/

namespace Napqes.Python

open Rust (TagCheck)

variable {H : Hmac} {noise : Noise} {verify : TagCheck} {key : List Nat}
  {kb nonce aad : List UInt8}

/-! ## Encryption -/

/-- The input of the tag over a masked body. -/
def strictTagInput (aad nonce masked : List UInt8) : List UInt8 :=
  0x03 :: (beBytes 4 aad.length ++ (aad ++ nonce)) ++ masked

theorem streamTagStart_eq_ok (haad : aad.length < 2 ^ 32) :
    streamTagStart aad nonce = .ok (strictTagInput aad nonce []) := by
  rw [streamTagStart, toBytes_of_lt haad, strictTagInput, List.append_nil]
  rfl

/-- What the loop over the characters has written and fed to the tag. -/
theorem masked_of_encryptStreamChars (hkey : Rust.KeyUsable key) {plaintext : List Nat}
    {idx pos offset : Nat} {ks : Keystream} {h h' : List UInt8} (hidx : idx ≤ pos)
    (hks : ks.At H kb nonce offset) (hoffset : offset ≤ 32 * 2 ^ 32) (hpos : pos ≤ 2 ^ 40)
    (hrun : (encryptStreamChars H noise key kb nonce plaintext idx pos ks h).outcome = .ok h') :
    ∃ slots,
      Schedule.Placed (noise kb nonce) (realToken H key kb nonce) idx pos plaintext slots ∧
      pos + slots.length ≤ 2 ^ 40 ∧
      offset + (slots.flatMap b128EncodeToken).length ≤ 32 * 2 ^ 32 ∧
      h' = h ++ maskAt H kb nonce offset (slots.flatMap b128EncodeToken) ∧
      (encryptStreamChars H noise key kb nonce plaintext idx pos ks h).yielded.flatten =
        maskAt H kb nonce offset (slots.flatMap b128EncodeToken) := by
  induction plaintext generalizing idx pos offset ks h with
  | nil =>
      obtain rfl := Except.ok.inj hrun
      refine ⟨[], .nil _ _, hpos, hoffset, ?_, rfl⟩
      simp [maskAt, xorBytes]
  | cons c plaintext ih =>
      rw [encryptStreamChars] at hrun ⊢
      obtain ⟨⟨raw, pos'⟩, hemit, hrun⟩ := Gen.bind_outcome_eq_ok.mp hrun
      obtain ⟨⟨masked, ks'⟩, hmask, hrun⟩ := Gen.bind_outcome_eq_ok.mp hrun
      change emitChar H noise key kb nonce c idx pos [] = _ at hemit
      change ks.mask H kb nonce raw = _ at hmask
      obtain ⟨slots, rfl, rfl, hnext, hend, hplaced⟩ := placed_of_emitChar hkey hidx hemit
      rw [List.nil_append] at hmask hemit
      obtain ⟨rfl, hks', hover⟩ := hks.of_mask hmask
      obtain ⟨slots', hplaced', hpos', hover', rfl, hyielded⟩ :=
        ih (by omega) hks' hover hend hrun
      refine ⟨slots ++ slots', hplaced.append hplaced', ?_, ?_, ?_, ?_⟩
      · rw [List.length_append]
        omega
      · rw [List.flatMap_append, List.length_append]
        omega
      · rw [List.flatMap_append, maskAt_append, List.append_assoc]
      · rw [hemit, Gen.liftM_ok_bind]
        simp only
        rw [hmask, Gen.liftM_ok_bind]
        simp only
        rw [Gen.yield_bind, List.flatten_cons, hyielded, List.flatMap_append, maskAt_append]

/-- The stream: nonce, masked tokens and tag. -/
def strictStream (H : Hmac) (kb nonce aad raw : List UInt8) : List UInt8 :=
  nonce ++ (maskAt H kb nonce 0 raw ++
    (H kb (strictTagInput aad nonce (maskAt H kb nonce 0 raw))).toList)

theorem encryptStream_eq {mathSqrt : Nat → Nat} (hpy : validateKey mathSqrt key = .ok ⟨⟩)
    (hkb : keyBytes key = .ok kb) (haad : aad.length < 2 ^ 32) (plaintext : List Nat) :
    encryptStream H noise mathSqrt plaintext key aad nonce =
      Gen.yield nonce >>= fun _ =>
      encryptStreamChars H noise key kb nonce plaintext 0 0 ⟨0, []⟩
          (strictTagInput aad nonce []) >>=
        fun h => Gen.yield (H kb h).toList := by
  rw [encryptStream, hpy, Gen.liftM_ok_bind, hkb, Gen.liftM_ok_bind, streamTagStart_eq_ok haad]
  rfl

/-- A run of `encrypt_stream` that ends well has written its stream. -/
theorem sealed_of_encryptStream {mathSqrt : Nat → Nat} (hpy : validateKey mathSqrt key = .ok ⟨⟩)
    (hkb : keyBytes key = .ok kb) {plaintext : List Nat}
    (h : (encryptStream H noise mathSqrt plaintext key aad nonce).outcome = .ok ⟨⟩) :
    ∃ raw, Emitted H noise key kb nonce plaintext raw ∧ aad.length < 2 ^ 32 ∧
      (encryptStream H noise mathSqrt plaintext key aad nonce).yielded.flatten =
        strictStream H kb nonce aad raw := by
  have hkey := keyUsable_of_validateKey hpy
  have haad : aad.length < 2 ^ 32 := by
    rw [encryptStream, hpy, Gen.liftM_ok_bind, hkb, Gen.liftM_ok_bind] at h
    obtain ⟨start, hstart, -⟩ := Gen.bind_outcome_eq_ok.mp h
    change streamTagStart aad nonce = _ at hstart
    obtain ⟨field, hfield, -⟩ := bind_eq_ok.mp hstart
    exact (toBytes_eq_ok_iff.mp hfield).1
  rw [encryptStream_eq hpy hkb haad, Gen.yield_bind] at h ⊢
  obtain ⟨fed, hchars, -⟩ := Gen.bind_outcome_eq_ok.mp h
  obtain ⟨slots, hplaced, hpos, hover, rfl, hyielded⟩ :=
    masked_of_encryptStreamChars hkey (Nat.le_refl 0) Keystream.At.init (Nat.zero_le _)
      (Nat.zero_le _) hchars
  rw [Nat.zero_add] at hpos hover
  refine ⟨slots.flatMap b128EncodeToken, ⟨⟨slots, hplaced, hpos, rfl⟩, hover⟩, haad, ?_⟩
  rw [Gen.bind_of_ok hchars, List.flatten_cons, List.flatten_append, hyielded, strictStream,
    strictTagInput, List.append_nil]
  simp [Gen.yield, strictTagInput]

/-! ## Decryption -/

/-- The nonce is read across as many chunks as it takes. -/
theorem readStreamNonce_of_le {buf : List UInt8} {chunks : List (List UInt8)}
    (hbuf : buf.length < 16) (h : 16 ≤ (buf ++ chunks.flatten).length) :
    ∃ leftover rest, readStreamNonce buf chunks =
        .ok ((buf ++ chunks.flatten).take 16, leftover, rest) ∧
      leftover ++ rest.flatten = (buf ++ chunks.flatten).drop 16 := by
  induction chunks generalizing buf with
  | nil =>
      rw [List.flatten_nil, List.append_nil] at h
      omega
  | cons chunk chunks ih =>
      rw [readStreamNonce]
      rw [List.flatten_cons, ← List.append_assoc] at h ⊢
      by_cases hlong : (buf ++ chunk).length ≥ nonceSize
      · have hlong' : 16 ≤ (buf ++ chunk).length := hlong
        rw [if_pos hlong]
        refine ⟨(buf ++ chunk).drop 16, chunks, ?_, ?_⟩
        · rw [List.take_append_of_le_length hlong']
          rfl
        · rw [List.drop_append_of_le_length hlong']
      · rw [if_neg hlong]
        exact ih (Nat.not_le.mp hlong) h

/-- Where the keystream reaches, bytes of the body are decoded and fed to the tag. -/
theorem drain_eq {offset : Nat} {st : StreamDecoder} (hks : st.ks.At H kb nonce offset)
    {data : List UInt8} (hlen : offset + data.length ≤ 32 * 2 ^ 32) :
    ∃ ks', ks'.At H kb nonce (offset + data.length) ∧
      drain H noise key kb nonce data st =
        decodeBytes H noise key kb nonce (maskAt H kb nonce offset data) st.decoder >>=
          fun decoder => ⟨[], .ok ⟨st.h ++ data, ks', decoder⟩⟩ := by
  obtain ⟨ks', hmask, hks'⟩ := hks.exists_mask hlen
  refine ⟨ks', hks', ?_⟩
  rw [drain, hmask]
  rfl

/-- The last statements of `decrypt_stream`, on what the loop has left. -/
def finishStream (H : Hmac) (noise : Noise) (verify : TagCheck) (key : List Nat)
    (kb nonce : List UInt8) (left : List UInt8 × StreamDecoder) : Gen PyErr Nat PUnit := do
  let (tail, st) := left
  let left := tail.length
  if tail.length < tagSize then
    Gen.lift (valueError (s!"Stream truncated: need {tagSize}-byte auth tag, only {left} " ++
      "bytes remain."))
  else
    let bodyRemainder := tail.take (tail.length - tagSize)
    let recvTag := tail.drop (tail.length - tagSize)
    let st ←
      if bodyRemainder.isEmpty then pure st else drain H noise key kb nonce bodyRemainder st
    if ¬ verify kb st.h recvTag then
      Gen.lift (valueError "Authentication failed: invalid HMAC tag.")
    else return ⟨⟩

theorem finishStream_eq {offset : Nat} {st : StreamDecoder} (hks : st.ks.At H kb nonce offset)
    {body tag : List UInt8} (htag : tag.length = 32)
    (hover : offset + body.length ≤ 32 * 2 ^ 32) (hverify : verify kb (st.h ++ body) tag = true)
    {out : List Nat} {last : Decoder}
    (hdecode : decodeBytes H noise key kb nonce (maskAt H kb nonce offset body) st.decoder =
      ⟨out, .ok last⟩) :
    finishStream H noise verify key kb nonce (body ++ tag, st) = ⟨out, .ok ⟨⟩⟩ := by
  have hlen : (body ++ tag).length - tagSize = body.length := by
    rw [List.length_append, htag, tagSize, Nat.add_sub_cancel]
  have hlong : ¬ (body ++ tag).length < tagSize := by
    rw [List.length_append, htag, tagSize]
    omega
  unfold finishStream
  simp only [if_neg hlong, hlen, List.take_left, List.drop_left]
  by_cases hempty : body.isEmpty = true
  · rw [if_pos hempty]
    obtain rfl := List.isEmpty_iff.mp hempty
    obtain ⟨rfl, -⟩ := Gen.mk.inj hdecode
    rw [List.append_nil] at hverify
    rw [Gen.pure_eq, Gen.ok_bind, if_neg (not_not.mpr hverify)]
    rfl
  · rw [if_neg hempty]
    obtain ⟨ks', -, hdrain⟩ := @drain_eq H noise key kb nonce offset st hks body hover
    rw [hdrain, hdecode, Gen.ok_bind, Gen.ok_bind]
    simp only [if_neg (not_not.mpr hverify), Gen.pure_eq, List.append_nil]

/-- The sliding loop and what follows it, on a body and its tag in any cut: `st.h` and the decoder
have seen what is in front of the body. -/
theorem slideStream_eq {chunks : List (List UInt8)} {held : List UInt8} {offset : Nat}
    {st : StreamDecoder} (hks : st.ks.At H kb nonce offset) {body tag : List UInt8}
    (htag : tag.length = 32) (hbytes : held ++ chunks.flatten = body ++ tag)
    (hover : offset + body.length ≤ 32 * 2 ^ 32) (hverify : verify kb (st.h ++ body) tag = true)
    {out : List Nat} {last : Decoder}
    (hdecode : decodeBytes H noise key kb nonce (maskAt H kb nonce offset body) st.decoder =
      ⟨out, .ok last⟩) :
    (slideStream H noise key kb nonce chunks held st >>=
      finishStream H noise verify key kb nonce) = ⟨out, .ok ⟨⟩⟩ := by
  induction chunks generalizing held offset st body out with
  | nil =>
      rw [List.flatten_nil, List.append_nil] at hbytes
      rw [slideStream, hbytes, Gen.pure_eq, Gen.ok_bind,
        finishStream_eq hks htag hover hverify hdecode]
      rfl
  | cons chunk chunks ih =>
      rw [List.flatten_cons, ← List.append_assoc] at hbytes
      rw [slideStream]
      by_cases hsafe : (held ++ chunk).length - tagSize > 0
      · rw [if_pos hsafe, Gen.bind_assoc]
        -- What is decoded now is the front of the body; the 32 bytes behind it stay held.
        obtain ⟨safe, hn⟩ : ∃ safe, (held ++ chunk).length - tagSize = safe := ⟨_, rfl⟩
        rw [hn] at hsafe ⊢
        rw [tagSize] at hn
        have hlen := congrArg List.length hbytes
        rw [List.length_append, @List.length_append _ body, htag] at hlen
        have hsafe_le : safe ≤ body.length := by omega
        have hfront : (held ++ chunk).take safe = body.take safe := by
          rw [← List.take_append_of_le_length hsafe_le, ← hbytes]
          exact (List.take_append_of_le_length (by omega)).symm
        have hback : (held ++ chunk).drop safe ++ chunks.flatten = body.drop safe ++ tag := by
          rw [← List.drop_append_of_le_length hsafe_le, ← hbytes]
          exact (List.drop_append_of_le_length (by omega)).symm
        have hfront_len : (body.take safe).length = safe := by
          rw [List.length_take]
          omega
        rw [← List.take_append_drop safe body, ← List.append_assoc] at hverify
        rw [← List.take_append_drop safe body, maskAt_append, decodeBytes_append] at hdecode
        obtain ⟨ks', hks', hdrain⟩ := @drain_eq H noise key kb nonce offset st hks (body.take safe)
          (by omega)
        rw [hfront, hdrain, Gen.bind_assoc]
        cases hout : (decodeBytes H noise key kb nonce
            (maskAt H kb nonce offset (body.take safe)) st.decoder).outcome with
        | error e =>
            rw [Gen.bind_of_error hout] at hdecode
            cases (Gen.mk.inj hdecode).2
        | ok mid =>
            rw [Gen.bind_of_ok hout] at hdecode ⊢
            obtain ⟨hyielded, houtcome⟩ := Gen.mk.inj hdecode
            have hrest := @ih _ _ ⟨st.h ++ body.take safe, ks', mid⟩ hks' _ hback
              (by rw [hfront_len, List.length_drop]; omega) hverify _ (Gen.ext rfl houtcome)
            rw [Gen.ok_bind, hrest, List.nil_append, hyielded]
      · rw [if_neg hsafe]
        exact ih hks hbytes hover hverify hdecode

theorem decryptStream_eq {mathSqrt : Nat → Nat} (hpy : validateKey mathSqrt key = .ok ⟨⟩)
    (hkb : keyBytes key = .ok kb) (haad : aad.length < 2 ^ 32) {byteChunks : List (List UInt8)}
    {leftover : List UInt8} {chunks : List (List UInt8)}
    (hread : readStreamNonce [] byteChunks = .ok (nonce, leftover, chunks)) :
    decryptStream H noise verify mathSqrt byteChunks key aad true =
      slideStream H noise key kb nonce chunks leftover
          ⟨strictTagInput aad nonce [], ⟨0, []⟩, ⟨[], 0, 0⟩⟩ >>=
        finishStream H noise verify key kb nonce := by
  rw [decryptStream, if_neg (by simp), hpy, Gen.liftM_ok_bind, hkb, Gen.liftM_ok_bind, hread,
    Gen.liftM_ok_bind]
  simp only [streamTagStart_eq_ok haad]
  rfl

/-- However a sealed stream is cut, the decryptor finds its plaintext and accepts the tag. -/
theorem decryptStream_strictStream {mathSqrt : Nat → Nat}
    (hpy : validateKey mathSqrt key = .ok ⟨⟩) (hkb : keyBytes key = .ok kb)
    (hnonce : nonce.length = 16) (haad : aad.length < 2 ^ 32) {plaintext : List Nat}
    (hplain : ∀ c ∈ plaintext, c ≤ 0x10FFFF) {raw : List UInt8}
    (hemitted : Emitted H noise key kb nonce plaintext raw) {byteChunks : List (List UInt8)}
    (hchunks : byteChunks.flatten = strictStream H kb nonce aad raw) :
    decryptStream H noise (Rust.hmacVerify H) mathSqrt byteChunks key aad true =
      ⟨plaintext, .ok ⟨⟩⟩ := by
  have hkey := keyUsable_of_validateKey hpy
  obtain ⟨st, hdecode⟩ := hemitted.decodeBytes_eq hkey hplain
  rw [strictStream] at hchunks
  obtain ⟨leftover, chunks, hread, hrest⟩ := @readStreamNonce_of_le [] byteChunks (by decide) (by
    rw [List.nil_append, hchunks, List.length_append]
    omega)
  rw [List.nil_append, hchunks, List.take_left' hnonce] at hread
  rw [List.nil_append, hchunks, List.drop_left' hnonce] at hrest
  rw [decryptStream_eq hpy hkb haad hread]
  refine @slideStream_eq _ _ _ _ _ _ _ _ _ _ .init _ _ (by simp) hrest ?_ ?_ _ st ?_
  · rw [length_maskAt, Nat.zero_add]
    exact hemitted.length_le
  · simp [Rust.hmacVerify, Rust.ctEqBytes, strictTagInput]
  · rw [maskAt_maskAt]
    exact hdecode

end Napqes.Python
