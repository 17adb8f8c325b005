import Napqes.Format.Block
import Napqes.Rust.Block
import Napqes.Rust.Proofs.Tokens

/-!
# The Rust block functions compute the block format

`encrypt_bytes_v8_with_profile` returns `sealBlock` of the block size its profile chooses,
and `decrypt_bytes_v8` accepts exactly what `BlockOpensTo` describes. The round trip and the
ciphertext length follow.
-/

namespace Napqes.Rust

variable {H : Hmac} {primes : List Nat}

/-! ## Encryption -/

theorem computeAuthTag_append (kb aad : List UInt8) (nonce : FixedBytes nonceSize)
    (masked : List UInt8) :
    computeAuthTag H kb aad (nonce.toList ++ masked) =
      H kb (authTagInput aad nonce.toList masked) := by
  rw [computeAuthTag, List.take_left' nonce.length_toList, List.drop_left' nonce.length_toList]

/-- A block body is far below the length at which the keystream counter wraps. -/
theorem length_body_le {b : Nat} (h : ReachableBlock b) : (b + 2) * 160 ≤ 32 * (2 ^ 32 - 1) := by
  have := h.le
  omega

theorem encryptBytesV8CoreInner_eq (hkey : KeyValid primes) (skFmt : FixedBytes 32)
    (message : Str) (aad : List UInt8) (padProfile : PadProfile) {b : Nat}
    (hb : padProfile.blockSize message.codepoints.length = .ok b) :
    encryptBytesV8CoreInner H skFmt message primes aad padProfile =
      .ok (sealBlock H primes skFmt aad message b) := by
  obtain ⟨hreach, hlt, hmax⟩ := blockSize_spec hb
  let nonce := syntheticNonce H skFmt aad message.asBytes
  let cps := padded H message.codepoints skFmt nonce.toList b
  have hcps : ∀ c ∈ cps, IsScalar c :=
    isScalar_of_mem_padded H skFmt nonce.toList b message.isScalar_of_mem_codepoints
  have hlencps : cps.length = b + 2 := length_padded H skFmt nonce.toList hlt
  have hblob : (fixedEncodeTokens (tokensOf H primes skFmt nonce.toList cps)).length =
      (b + 2) * 160 := by
    rw [fixedEncodeTokens, length_flatMap_beBytes, length_tokensOf, hlencps, tokenWidth]
    omega
  have hks : (varintKeystream H skFmt nonce.toList (fixedEncodeTokens
      (tokensOf H primes skFmt nonce.toList cps)).length : RustM String (List UInt8)) = _ :=
    varintKeystream_eq_ok H skFmt nonce.toList (by
      rw [hblob]
      exact length_body_le hreach)
  have hlong : ¬ message.codepoints.length > maxPlaintextCodepoints := by
    simp only [padMaxExp, maxPlaintextCodepoints] at hmax ⊢
    omega
  rw [encryptBytesV8CoreInner]
  simp only [if_neg hlong, hb, ok_bind]
  rw [padToBlock_eq_ok H _ _ hlt, ok_bind,
    emitTokensV8_eq_ok H _ _ hkey (fun c hc => (hcps c hc).lt), ok_bind, hks, ok_bind,
    computeAuthTag_append]
  rfl

/-- Under a valid key encryption succeeds exactly when the profile takes the message, and
returns the ciphertext of the format. -/
theorem encryptBytesV8Core_eq_ok_iff (hkey : KeyValid primes) (message : Str)
    (sk : FixedBytes skSize) (aad : List UInt8) (padProfile : PadProfile) (c : List UInt8) :
    encryptBytesV8Core H message primes sk aad padProfile = .ok c ↔
      ∃ b, padProfile.blockSize message.codepoints.length = .ok b ∧
        c = sealBlock H primes (deriveFormatSubkey H sk formatBlockV8).toList aad message b := by
  rw [encryptBytesV8Core]
  cases hb : padProfile.blockSize message.codepoints.length with
  | ok b =>
      rw [encryptBytesV8CoreInner_eq hkey _ _ _ _ hb]
      simp [eq_comm]
  | error e =>
      rw [encryptBytesV8CoreInner]
      simp only [hb, error_bind, reduceCtorEq, false_and, exists_false, iff_false]
      split <;> simp [err]

/-- Encryption succeeds exactly when the key is valid and the profile takes the message. -/
theorem encryptBytesV8WithProfile_eq_ok_iff (message : Str) (sk : FixedBytes skSize)
    (aad : List UInt8) (padProfile : PadProfile) (c : List UInt8) :
    encryptBytesV8WithProfile H message primes sk aad padProfile = .ok c ↔
      KeyValid primes ∧ ∃ b, padProfile.blockSize message.codepoints.length = .ok b ∧
        c = sealBlock H primes (deriveFormatSubkey H sk formatBlockV8).toList aad message b := by
  rw [encryptBytesV8WithProfile, bind_eq_ok]
  constructor
  · rintro ⟨⟨⟩, hvalid, henc⟩
    have hkey := (validateKey_iff primes).mp hvalid
    exact ⟨hkey, (encryptBytesV8Core_eq_ok_iff hkey _ _ _ _ _).mp henc⟩
  · rintro ⟨hkey, hb⟩
    exact ⟨⟨⟩, (validateKey_iff primes).mpr hkey,
      (encryptBytesV8Core_eq_ok_iff hkey _ _ _ _ _).mpr hb⟩

/-! ## Decryption -/

/-- Collecting succeeds exactly on the codepoints of a string. -/
theorem collectChars_eq_ok_iff (message : Nat → String) (cps : List Nat) (s : Str) :
    collectChars message cps = .ok s ↔ cps = s.codepoints := by
  induction cps generalizing s with
  | nil =>
      cases s with
      | nil => simp [collectChars, Str.codepoints]
      | cons ch s => simp [collectChars, Str.codepoints]
  | cons c cps ih =>
      rw [collectChars]
      constructor
      · intro h
        cases hc : charFromU32 c with
        | none => simp [hc, err] at h
        | some ch =>
            simp only [hc, bind_eq_ok, pure, Except.pure, Except.ok.injEq] at h
            obtain ⟨_, rfl, rest, hrest, rfl⟩ := h
            simp [Str.codepoints, charFromU32_eq_some hc, (ih rest).mp hrest]
      · intro h
        cases s with
        | nil => simp [Str.codepoints] at h
        | cons ch s =>
            simp only [Str.codepoints, List.map_cons, List.cons.injEq] at h
            obtain ⟨rfl, hrest⟩ := h
            have hcollect := (ih s).mpr hrest
            simp [charFromU32_toNat, hcollect, pure, Except.pure]

theorem collectString_eq_ok_iff (cps : List Nat) (s : Str) :
    collectString cps = .ok s ↔ cps = s.codepoints :=
  collectChars_eq_ok_iff _ cps s

variable {verify : TagCheck}

/-- The decoder on a ciphertext written as nonce, masked blob and tag. -/
theorem decryptBytesV8CoreInner_append (skFmt : FixedBytes 32) {nonce masked tag : List UInt8}
    (hnonce : nonce.length = nonceSize) (htag : tag.length = tagSize) (aad : List UInt8) :
    decryptBytesV8CoreInner H verify skFmt (nonce ++ masked ++ tag) primes aad =
      if verify skFmt (authTagInput aad nonce masked) tag then do
        let ks ← varintKeystream H skFmt nonce masked.length
        let tokens ← mapErr (fun e => s!"varint decode error: {e}")
          (fixedDecodeTokens (xorBytes masked ks))
        let codepoints ← decryptCoreV8 H nonce tokens primes skFmt
        collectString codepoints
      else err "Authentication failed: invalid HMAC tag." := by
  have hlen : (nonce ++ masked ++ tag).length - tagSize = (nonce ++ masked).length := by
    simp only [List.length_append, htag]
    omega
  have hlong : ¬ (nonce ++ masked ++ tag).length < nonceSize + tagSize := by
    simp only [List.length_append, hnonce, htag]
    omega
  rw [decryptBytesV8CoreInner]
  simp only [if_neg hlong, hlen, List.take_left', List.drop_left', List.take_left' hnonce,
    List.drop_left' hnonce]

/-- What the decoder does once the tag has verified. A blob so long that the keystream counter
overflows is in no case a block. -/
theorem decrypt_masked_eq_ok_iff (hkey : KeyValid primes) (skFmt : FixedBytes 32)
    (nonce masked : List UInt8) (s : Str) :
    (do
      let ks ← varintKeystream H skFmt nonce masked.length
      let tokens ← mapErr (fun e => s!"varint decode error: {e}")
        (fixedDecodeTokens (xorBytes masked ks))
      let codepoints ← decryptCoreV8 H nonce tokens primes skFmt
      collectString codepoints : RustM String Str) = .ok s ↔
      ∃ b cps, ReachableBlock b ∧ masked.length = (b + 2) * 160 ∧
        openTokens H skFmt nonce primes masked (b + 2) = some cps ∧
        unpadMessage cps = .ok s.codepoints := by
  simp only [bind_eq_ok, collectString_eq_ok_iff, decryptCoreV8_eq_ok_iff H skFmt nonce hkey]
  constructor
  · rintro ⟨ks, hks, tokens, htokens, out, ⟨b, hb, hcount, cps, hcps, hout⟩, rfl⟩
    have hlen := le_of_varintKeystream_eq_ok H skFmt nonce hks
    rw [varintKeystream_eq_ok H skFmt nonce hlen, Except.ok.injEq] at hks
    subst hks
    change mapErr _ (fixedDecodeTokens (maskWith H skFmt nonce masked)) = _ at htokens
    obtain ⟨hmod, rfl⟩ := (fixedDecodeTokens_eq_ok_iff _ _).mp (mapErr_eq_ok htokens)
    simp only [length_maskWith, List.length_map, length_chunksExact] at hmod hcount hcps
    exact ⟨b, cps, hb, by omega, hcps, hout⟩
  · rintro ⟨b, cps, hb, hcount, hcps, hout⟩
    let tokens := (chunksExact 8 (masked.length / 8) (maskWith H skFmt nonce masked)).map beNat
    have hlen : masked.length ≤ 32 * (2 ^ 32 - 1) := by
      rw [hcount]
      exact length_body_le hb
    have hdecode : fixedDecodeTokens (maskWith H skFmt nonce masked) = .ok tokens := by
      rw [fixedDecodeTokens_eq_ok_iff, length_maskWith]
      exact ⟨by omega, rfl⟩
    have htokens : tokens.length = (b + 2) * 20 := by
      simp only [tokens, List.length_map, length_chunksExact]
      omega
    refine ⟨_, varintKeystream_eq_ok H skFmt nonce hlen, tokens, ?_, s.codepoints,
      ⟨b, hb, htokens, cps, hcps, hout⟩, rfl⟩
    show mapErr _ (fixedDecodeTokens (maskWith H skFmt nonce masked)) = _
    rw [hdecode, mapErr_ok]

/-- `decrypt_bytes_v8_core` accepts exactly the byte strings that open in the block format. -/
theorem decryptBytesV8Core_eq_ok_iff (hkey : KeyValid primes) (ciphertext : List UInt8)
    (sk : FixedBytes skSize) (aad : List UInt8) (s : Str) :
    decryptBytesV8Core H verify ciphertext primes sk aad = .ok s ↔
      BlockOpensTo H primes (deriveFormatSubkey H sk formatBlockV8).toList verify aad ciphertext
        s.codepoints := by
  by_cases hlen : nonceSize + tagSize ≤ ciphertext.length
  · obtain ⟨nonce, masked, tag, hsplit, hnonce, htag⟩ := split_ciphertext ciphertext hlen
    change nonce.length = nonceSize at hnonce
    change tag.length = tagSize at htag
    subst hsplit
    have hblob : (nonce ++ masked ++ tag).length - nonceSize - tagSize = masked.length := by
      simp only [List.length_append, hnonce, htag]
      omega
    have hunit : tokenWidth * (maxNoiseRun + 1) = 160 := rfl
    rw [decryptBytesV8Core]
    simp only [if_neg (Nat.not_lt.mpr hlen), hblob]
    rw [blockOpensTo_append_iff hnonce htag]
    by_cases hmod : masked.length % 160 = 0
    · rw [if_neg (by rw [hunit]; exact fun h => h hmod),
        decryptBytesV8CoreInner_append _ hnonce htag]
      split
      case isTrue hverify => rw [decrypt_masked_eq_ok_iff hkey, and_iff_right hverify]
      case isFalse hverify =>
        simp only [err, reduceCtorEq, false_iff]
        exact fun h => hverify h.1
    · rw [if_pos (by rw [hunit]; exact hmod)]
      simp only [err, reduceCtorEq, false_iff]
      rintro ⟨-, b, cps, -, hlen, -⟩
      omega
  · rw [decryptBytesV8Core]
    simp only [if_pos (Nat.lt_of_not_le hlen), err, reduceCtorEq, false_iff]
    exact fun h => hlen h.le_length

theorem hmacVerify_self (H : Hmac) (key input : List UInt8) :
    hmacVerify H key input (H key input).toList = true := by
  simp [hmacVerify, ctEqBytes]

/-! ## Main results -/

/-- Round trip: whenever the profile takes the message, encryption succeeds and decryption,
which is not told the profile, returns the message. -/
theorem decryptBytesV8_of_encryptBytesV8WithProfile (H : Hmac) (primes : List Nat)
    (hkey : validateKey primes = .ok ⟨⟩) (sk : FixedBytes skSize) (aad : List UInt8)
    (message : Str) (padProfile : PadProfile) (b : Nat)
    (hb : padProfile.blockSize message.codepoints.length = .ok b) :
    ∃ c, encryptBytesV8WithProfile H message primes sk aad padProfile = .ok c ∧
      decryptBytesV8 H c primes sk aad = .ok message := by
  have hvalid := (validateKey_iff primes).mp hkey
  obtain ⟨hreach, hlt, hmax⟩ := blockSize_spec hb
  have hlen : message.codepoints.length ≤ maxPlaintextCodepoints := by
    simp only [padMaxExp, maxPlaintextCodepoints] at hmax ⊢
    omega
  refine ⟨_, (encryptBytesV8WithProfile_eq_ok_iff _ _ _ _ _).mpr ⟨hvalid, b, hb, rfl⟩, ?_⟩
  rw [decryptBytesV8, hkey, ok_bind, decryptBytesV8Core_eq_ok_iff hvalid]
  exact blockOpensTo_sealBlock (hmacVerify_self H _ _) hvalid hreach hlt hlen

theorem decryptBytesV8_of_encrypt_two_chars :
    ∃ c, encryptBytesV8WithProfile zeroHmac ['h', 'é'] [1000003] (.ofList 32 []) [7] .bucket =
        .ok c ∧
      decryptBytesV8 zeroHmac c [1000003] (.ofList 32 []) [7] = .ok ['h', 'é'] :=
  decryptBytesV8_of_encryptBytesV8WithProfile _ _ validateKey_1000003 _ _ _ _ 16 (by rfl)

theorem length_of_encryptBytesV8WithProfile {H : Hmac} {primes : List Nat}
    {sk : FixedBytes skSize} {aad : List UInt8} {message : Str} {padProfile : PadProfile}
    {b : Nat} {c : List UInt8}
    (hc : encryptBytesV8WithProfile H message primes sk aad padProfile = .ok c)
    (hb : padProfile.blockSize message.codepoints.length = .ok b) :
    c.length = 48 + 160 * (b + 2) := by
  obtain ⟨-, b', hb', rfl⟩ := (encryptBytesV8WithProfile_eq_ok_iff _ _ _ _ _).mp hc
  obtain rfl : b' = b := by simpa [hb] using hb'.symm
  exact length_sealBlock aad (blockSize_spec hb).2.1

/-- The ciphertext length is a function of the block size alone: no key, HMAC, associated data
or noise schedule changes it. -/
theorem ciphertext_length_of_blockSize :
    (∀ (H H' : Hmac) (primes primes' : List Nat) (sk sk' : FixedBytes skSize)
      (aad aad' : List UInt8) (message message' : Str) (padProfile padProfile' : PadProfile)
      (b : Nat) (c c' : List UInt8),
      encryptBytesV8WithProfile H message primes sk aad padProfile = .ok c →
      encryptBytesV8WithProfile H' message' primes' sk' aad' padProfile' = .ok c' →
      padProfile.blockSize message.codepoints.length = .ok b →
      padProfile'.blockSize message'.codepoints.length = .ok b →
      c.length = 48 + 160 * (b + 2) ∧ c'.length = 48 + 160 * (b + 2)) ∧
    (∀ (H : Hmac) (primes padded : List Nat) (skFmt nonce : List UInt8),
      validateKey primes = .ok ⟨⟩ → (∀ c ∈ padded, c < 2 ^ 32) →
      ∃ tokens, (emitTokensV8 H padded primes skFmt nonce : RustM String (List Nat)) = .ok tokens ∧
        tokens.length = 20 * padded.length) ∧
    (∀ (H H' : Hmac) (primes primes' : List Nat) (sk sk' : FixedBytes skSize)
      (aad aad' : List UInt8) (message message' : Str) (f : UInt32) (c c' : List UInt8),
      encryptBytesV8WithProfile H message primes sk aad (.frame f) = .ok c →
      encryptBytesV8WithProfile H' message' primes' sk' aad' (.frame f) = .ok c' →
      c.length = c'.length) := by
  refine ⟨?_, ?_, ?_⟩
  · intro H H' primes primes' sk sk' aad aad' message message' padProfile padProfile' b c c'
      hc hc' hb hb'
    exact ⟨length_of_encryptBytesV8WithProfile hc hb,
      length_of_encryptBytesV8WithProfile hc' hb'⟩
  · intro H primes padded skFmt nonce hkey hpadded
    refine ⟨_, emitTokensV8_eq_ok H skFmt nonce ((validateKey_iff primes).mp hkey) hpadded, ?_⟩
    rw [length_tokensOf, Nat.mul_comm]
  · intro H H' primes primes' sk sk' aad aad' message message' f c c' hc hc'
    obtain ⟨-, b, hb, -⟩ := (encryptBytesV8WithProfile_eq_ok_iff _ _ _ _ _).mp hc
    obtain ⟨-, b', hb', -⟩ := (encryptBytesV8WithProfile_eq_ok_iff _ _ _ _ _).mp hc'
    rw [length_of_encryptBytesV8WithProfile hc hb, length_of_encryptBytesV8WithProfile hc' hb',
      ((blockSize_frame_eq_ok_iff _ _ _).mp hb).2.2.2,
      ((blockSize_frame_eq_ok_iff _ _ _).mp hb').2.2.2]

theorem ciphertext_length_of_frame_sixteen :
    ∃ c c', encryptBytesV8WithProfile zeroHmac [] [1000003] (.ofList 32 []) [] (.frame 16) =
        .ok c ∧
      encryptBytesV8WithProfile zeroHmac ['h', 'é'] [1000003] (.ofList 32 []) [7] .bucket =
        .ok c' ∧
      c.length = 48 + 160 * (16 + 2) ∧ c'.length = 48 + 160 * (16 + 2) :=
  have hc := (encryptBytesV8WithProfile_eq_ok_iff [] (.ofList 32 []) [] (.frame 16) _).mpr
    ⟨keyValid_1000003, 16, by rfl, rfl⟩
  have hc' := (encryptBytesV8WithProfile_eq_ok_iff ['h', 'é'] (.ofList 32 []) [7] .bucket _).mpr
    ⟨keyValid_1000003, 16, by rfl, rfl⟩
  ⟨_, _, hc, hc', ciphertext_length_of_blockSize.1 zeroHmac zeroHmac _ _ _ _ _ _ _ _ _ _ 16 _ _
    hc hc' (by rfl) (by rfl)⟩

end Napqes.Rust
