import Napqes.Rust.Proofs.ReadingV7

/-!
# What the v7 block sealer emits

`seal_v7` emits the one token list that the noise positions leave: noise tokens up to the first free
position and the token of the codepoint there. All that can go wrong for a message of a valid length
is a noise run beyond the guard.
-/

namespace Napqes

/-- The tokens of `cps`, from index `idx` and position `pos` on. -/
abbrev EmitsV7 (H : Hmac) (noise : Rust.Noise) (key : List Nat) (kb nonce : List UInt8) :
    Nat → Nat → List Nat → List Nat → Prop :=
  Schedule.Emits (noise kb nonce) (realToken H key kb nonce) (fillerToken H key kb nonce)

/-- The tokens of a message under its padding. -/
def MessageTokensV7 (H : Hmac) (noise : Rust.Noise) (key cps : List Nat) (nonce : List UInt8)
    (slots : List Nat) : Prop :=
  EmitsV7 H noise key (Rust.keyBytes key) nonce 0 0
    (Rust.padded H cps (Rust.keyBytes key) nonce (Rust.bucketBlockSize cps.length)) slots

namespace Rust

variable {H : Hmac} {noise : Noise} {key : List Nat} {kb nonce : List UInt8}

/-! ## Emission -/

/-- The error of the noise guard. -/
def noiseRunMessage : String :=
  s!"v7 emission aborted: more than {v7NoiseRunGuard} consecutive noise " ++ "positions (CVF-V5-4)"

section
variable (H) (noise) (kb) (nonce)

/-- The loop for one codepoint emits it, or a noise run is too long. -/
theorem emitCodepointV7_cases (hkey : KeyUsable key) {c : Nat} (hc : IsScalar c) (idx : Nat)
    {run : Nat} (hrun : run ≤ v7NoiseRunGuard) (pos : Nat) (cypher : List Nat) :
    (∃ slots, emitCodepointV7 H noise key kb nonce c idx run pos cypher =
        .ok (cypher ++ slots, pos + slots.length) ∧
      EmitsV7 H noise key kb nonce idx pos [c] slots) ∨
      emitCodepointV7 H noise key kb nonce c idx run pos cypher = err noiseRunMessage := by
  induction hleft : v7NoiseRunGuard - run generalizing run pos cypher with
  | zero =>
      rw [emitCodepointV7_eq hkey hc]
      by_cases hnoise : noise kb nonce pos = true
      · rw [if_pos hnoise, if_pos (by omega)]
        exact Or.inr rfl
      · rw [if_neg hnoise]
        exact Or.inl ⟨[_], rfl, .item (Bool.eq_false_of_not_eq_true hnoise) (.nil _ _)⟩
  | succ left ih =>
      rw [emitCodepointV7_eq hkey hc]
      by_cases hnoise : noise kb nonce pos = true
      · rw [if_pos hnoise, if_neg (by omega)]
        have hrun : run + 1 ≤ v7NoiseRunGuard := by omega
        rcases ih hrun (pos + 1) (cypher ++ [_]) (by omega) with ⟨slots, hslots, hemits⟩ | herr
        · refine Or.inl ⟨_ :: slots, ?_, .noise hnoise hemits⟩
          rw [hslots, List.append_assoc, List.length_cons, Nat.add_assoc, Nat.add_comm 1]
          rfl
        · exact Or.inr herr
      · rw [if_neg hnoise]
        exact Or.inl ⟨[_], rfl, .item (Bool.eq_false_of_not_eq_true hnoise) (.nil _ _)⟩

theorem emitCodepointsV7_cases (hkey : KeyUsable key) {cps : List Nat}
    (hcps : ∀ c ∈ cps, IsScalar c) (idx pos : Nat) (cypher : List Nat) :
    (∃ slots, emitCodepointsV7 H noise key kb nonce cps idx pos cypher = .ok (cypher ++ slots) ∧
      EmitsV7 H noise key kb nonce idx pos cps slots) ∨
      emitCodepointsV7 H noise key kb nonce cps idx pos cypher = err noiseRunMessage := by
  induction cps generalizing idx pos cypher with
  | nil => exact Or.inl ⟨[], by rw [List.append_nil]; rfl, .nil _ _⟩
  | cons c cps ih =>
      rw [emitCodepointsV7]
      rcases emitCodepointV7_cases H noise kb nonce hkey (hcps c (by simp)) idx (Nat.zero_le _)
        pos cypher with ⟨slots, hslots, hemits⟩ | herr
      · rw [hslots, ok_bind]
        dsimp only
        rcases ih (fun d hd => hcps d (by simp [hd])) (idx + 1) (pos + slots.length)
          (cypher ++ slots) with ⟨rest, hrest, hemits'⟩ | herr
        · exact Or.inl ⟨slots ++ rest, by rw [hrest, List.append_assoc], hemits.append hemits'⟩
        · exact Or.inr herr
      · rw [herr]
        exact Or.inr rfl

end

/-! ## Sealing -/

theorem word_of_messageTokensV7 (hkey : KeyUsable key) {cps slots : List Nat}
    (hcps : ∀ c ∈ cps, IsScalar c) (h : MessageTokensV7 H noise key cps nonce slots) :
    ∀ t ∈ slots, t < 2 ^ 64 :=
  Schedule.Emits.forall_mem h (fun idx pos => hkey.fillerToken_lt idx pos) fun idx _ hc =>
    hkey.realToken_lt idx (isScalar_of_mem_padded H _ nonce _ hcps _ hc)

section
variable {message : Str} {aad : List UInt8} {nonce : FixedBytes nonceSize}

/-- `encrypt_bytes` refuses a message that is too long. Otherwise it returns the ciphertext of the
tokens, which are in reach of the keystream, or a noise run is beyond the guard. -/
theorem encryptBytes_cases (H : Hmac) (noise : Noise) (message : Str)
    (nonce : FixedBytes nonceSize) (hkey : KeyValid key) (haad : aad.length < 2 ^ 32) :
    (message.length > maxPlaintextCodepoints ∧
      ∃ msg, encryptBytes H noise message key aad (.ok nonce) = err msg) ∨
    message.length ≤ maxPlaintextCodepoints ∧
      ((∃ slots, encryptBytes H noise message key aad (.ok nonce) =
          .ok (ciphertextV7 H (keyBytes key) nonce aad slots) ∧
        MessageTokensV7 H noise key message.codepoints nonce slots ∧
        8 * slots.length ≤ 32 * (2 ^ 32 - 1)) ∨
      encryptBytes H noise message key aad (.ok nonce) = err noiseRunMessage) := by
  have husable := KeyUsable.of_keyValid hkey
  rw [encryptBytes, (validateKey_iff key).mpr hkey, ok_bind,
    (checkV7AadLen_eq_ok_iff _).mpr haad, ok_bind]
  by_cases hlen : message.length > maxPlaintextCodepoints
  · rw [if_pos hlen]
    exact Or.inl ⟨hlen, _, rfl⟩
  refine Or.inr ⟨Nat.le_of_not_lt hlen, ?_⟩
  have hcount : message.codepoints.length ≤ maxPlaintextCodepoints := by
    rw [Str.codepoints, List.length_map]
    exact Nat.le_of_not_lt hlen
  have hscalar := isScalar_of_mem_padded H (keyBytes key) nonce
    (bucketBlockSize message.codepoints.length) message.isScalar_of_mem_codepoints
  rw [if_neg hlen, ok_bind, sealV7]
  simp only [padMessage_eq hcount, ok_bind]
  rcases emitCodepointsV7_cases H noise (keyBytes key) nonce husable
    hscalar 0 0 [] with ⟨slots, hslots, hemits⟩ | herr
  · rw [List.nil_append] at hslots
    have hemitted : emitTokensV7 H noise (padded H message.codepoints (keyBytes key) nonce
        (bucketBlockSize message.codepoints.length)) (keyBytes key) nonce key = .ok slots := hslots
    have hreach := length_fixedEncodeTokens_le hcount (carries_of_emitTokensV7 husable hscalar
      hemitted)
    refine Or.inl ⟨slots, ?_, hemits, ?_⟩
    · rw [hemitted, ok_bind, varintKeystream_eq_ok H _ _ hreach, ok_bind,
        computeAuthTagV7_append nonce.length_toList haad, ok_bind]
      rfl
    · rw [fixedEncodeTokens, length_flatMap_beBytes, tokenWidth] at hreach
      omega
  · rw [emitTokensV7, herr]
    exact Or.inr rfl

/-- What opens the ciphertext of the tokens is the message, as long as they are in reach. -/
theorem decryptBytes_ciphertextV7 (hkey : KeyValid key) (haad : aad.length < 2 ^ 32)
    (hlen : message.length ≤ maxPlaintextCodepoints) {slots : List Nat}
    (h : MessageTokensV7 H noise key message.codepoints nonce slots)
    (hreach : 8 * slots.length ≤ 32 * (2 ^ 32 - 1)) :
    decryptBytes H noise (ciphertextV7 H (keyBytes key) nonce aad slots) key aad =
      .ok message := by
  have husable := KeyUsable.of_keyValid hkey
  have hcount : message.codepoints.length ≤ maxPlaintextCodepoints := by
    rwa [Str.codepoints, List.length_map]
  have hbytes : (fixedEncodeTokens slots).length = slots.length * 8 :=
    length_flatMap_beBytes 8 slots
  have hmasked : (maskWith H (keyBytes key) nonce (fixedEncodeTokens slots)).length ≤
      32 * (2 ^ 32 - 1) := by
    rw [length_maskWith, hbytes]
    omega
  have hblob : xorBytes (maskWith H (keyBytes key) nonce (fixedEncodeTokens slots))
      (keystream H (keyBytes key) nonce
        (maskWith H (keyBytes key) nonce (fixedEncodeTokens slots)).length) =
      fixedEncodeTokens slots := maskWith_maskWith H (keyBytes key) nonce _
  have hfields : fixedDecodeTokens (fixedEncodeTokens slots) = .ok slots := by
    rw [fixedDecodeTokens_eq_ok_iff, hbytes, Nat.mul_mod_left,
      Nat.mul_div_cancel _ (Nat.succ_pos 7)]
    exact ⟨rfl, (map_beNat_chunksExact 8 slots
      (word_of_messageTokensV7 husable message.isScalar_of_mem_codepoints h)).symm⟩
  have hread := decryptTokensV7_of_placed husable (Schedule.Emits.placed h)
    (isScalar_of_mem_padded H (keyBytes key) nonce _ message.isScalar_of_mem_codepoints) []
  have hchar : ∀ i (ch : Char), charOrErr i ch.toNat = .ok (id ch) := by
    intro i ch
    rw [charOrErr, charFromU32_toNat]
    rfl
  have hopen : openV7 H noise (ciphertextV7 H (keyBytes key) nonce aad slots) key aad =
      .ok message.codepoints := by
    rw [ciphertextV7, openV7_append nonce.length_toList (FixedBytes.length_toList _) haad,
      if_neg (by simp [ctEqBytes]), (validateKeyV7Decrypt_iff key).mpr husable, ok_bind,
      varintKeystream_eq_ok H _ _ hmasked, ok_bind, hblob, hfields, mapErr_ok, ok_bind,
      decryptCore, hread, ok_bind, List.nil_append]
    exact unpadMessage_padded H _ nonce _ hcount
  rw [decryptBytes, hopen, ok_bind, Str.codepoints, collectEnumerated_map hchar, List.map_id]

end

end Rust

end Napqes
