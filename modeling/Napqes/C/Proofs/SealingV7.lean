import Napqes.C.Proofs.ReadingV7
import Napqes.Rust.Proofs.SealingV7

/-!
# When the v7 block sealer in C returns

C writes the same token list, classifies a position modulo `2^40`, and goes on for ever when a run
has no end or the keystream counter wraps. So on a message without a `NUL` it returns the ciphertext
of the tokens exactly when these are in reach of the keystream.
-/

namespace Napqes.C

variable {H : Hmac} {noise : Rust.Noise} {key : List UInt64} {kb nonce : List UInt8}

/-- An emission under the noise positions of the C port. -/
abbrev WordEmits (H : Hmac) (noise : Rust.Noise) (key : List UInt64) (kb nonce : List UInt8) :
    Nat → Nat → List Nat → List Nat → Prop :=
  Schedule.Emits (isNoisePos noise kb nonce) (realToken H (primesNat key) kb nonce)
    (fillerToken H (primesNat key) kb nonce)

/-! ## Emission -/

section
variable (hkey : KeyValid (primesNat key))
include hkey

/-- What the loop for one codepoint writes is its emission. -/
theorem emits_of_emitCodepointV7 {c idx run pos : Nat} {buf : List UInt8}
    {out : List UInt8 × Nat}
    (h : emitCodepointV7 H noise key kb nonce c idx run pos buf = .ok out) :
    ∃ slots, out = (buf ++ slots.flatMap (beBytes 8), pos + slots.length) ∧
      WordEmits H noise key kb nonce idx pos [c] slots := by
  have hk := keyElem_ne_one hkey idx
  rw [emitCodepointV7, keyAt_eq_ok hkey, ok_bind] at h
  by_cases hpos : isNoisePos noise kb nonce pos = true
  · rw [if_pos hpos, noiseTokenBytes_of_ne_one H kb nonce hk, ok_bind] at h
    by_cases hrun : run + 1 < 2 ^ 40
    · rw [dif_pos hrun] at h
      obtain ⟨slots, rfl, hemits⟩ := emits_of_emitCodepointV7 h
      refine ⟨_ :: slots, ?_, .noise hpos hemits⟩
      rw [List.append_assoc, List.flatMap_cons, List.length_cons, Nat.add_assoc, Nat.add_comm 1]
    · rw [dif_neg hrun] at h
      cases h
  · rw [if_neg hpos, deriveAddend_of_ne_one H kb nonce hk, ok_bind] at h
    obtain rfl := Except.ok.inj h
    refine ⟨[_], ?_, .item (Bool.eq_false_of_not_eq_true hpos) (.nil _ _)⟩
    rw [fixedEncode_eq, List.flatMap_singleton]
    rfl
termination_by 2 ^ 40 - run

theorem emits_of_emitCodepointsV7 {cps : List Nat} {idx pos : Nat} {buf out : List UInt8}
    (h : emitCodepointsV7 H noise key kb nonce cps idx pos buf = .ok out) :
    ∃ slots, out = buf ++ slots.flatMap (beBytes 8) ∧
      WordEmits H noise key kb nonce idx pos cps slots := by
  induction cps generalizing idx pos buf with
  | nil =>
      cases h
      exact ⟨[], (List.append_nil _).symm, .nil _ _⟩
  | cons c cps ih =>
      rw [emitCodepointsV7] at h
      obtain ⟨first, hfirst, h⟩ := bind_eq_ok.mp h
      obtain ⟨slots, rfl, hemits⟩ := emits_of_emitCodepointV7 hkey hfirst
      obtain ⟨rest, rfl, hemits'⟩ := ih h
      refine ⟨slots ++ rest, ?_, hemits.append hemits'⟩
      rw [List.flatMap_append, List.append_assoc]

/-- An emission shorter than the period of the positions is what the loop writes. -/
theorem emitCodepointV7_of_emits {c idx run pos : Nat} {slots : List Nat}
    (h : WordEmits H noise key kb nonce idx pos [c] slots) (hrun : run + slots.length ≤ 2 ^ 40)
    (buf : List UInt8) :
    emitCodepointV7 H noise key kb nonce c idx run pos buf =
      .ok (buf ++ slots.flatMap (beBytes 8), pos + slots.length) := by
  generalize hitems : [c] = items at h
  induction h generalizing run buf with
  | nil idx pos => cases hitems
  | @noise idx pos x xs slots hpos rest ih =>
      have hlen := rest.placed.length_le
      rw [List.length_cons] at hlen hrun
      rw [emitCodepointV7, keyAt_eq_ok hkey, ok_bind, if_pos hpos,
        noiseTokenBytes_of_ne_one H kb nonce (keyElem_ne_one hkey idx), ok_bind,
        dif_pos (by omega), ih (show run + 1 + slots.length ≤ 2 ^ 40 by omega) _ hitems,
        List.append_assoc, List.flatMap_cons, List.length_cons, Nat.add_assoc, Nat.add_comm 1]
  | @item idx pos x xs slots hpos rest _ =>
      obtain ⟨rfl, rfl⟩ := List.cons.inj hitems
      cases rest
      rw [emitCodepointV7, keyAt_eq_ok hkey, ok_bind, if_neg (by simp [hpos]),
        deriveAddend_of_ne_one H kb nonce (keyElem_ne_one hkey idx), ok_bind, fixedEncode_eq,
        List.flatMap_singleton]
      rfl

theorem emitCodepointsV7_of_emits {cps : List Nat} {idx pos : Nat} {slots : List Nat}
    (h : WordEmits H noise key kb nonce idx pos cps slots) (hend : slots.length ≤ 2 ^ 40)
    (buf : List UInt8) :
    emitCodepointsV7 H noise key kb nonce cps idx pos buf =
      .ok (buf ++ slots.flatMap (beBytes 8)) := by
  induction cps generalizing idx pos buf slots with
  | nil =>
      cases h
      rw [List.flatMap_nil, List.append_nil]
      rfl
  | cons c cps ih =>
      obtain ⟨first, rest, rfl, hfirst, hrest⟩ := Schedule.emits_cons_iff.mp h
      rw [List.length_append] at hend
      rw [emitCodepointsV7, emitCodepointV7_of_emits hkey hfirst (by omega), ok_bind]
      dsimp only
      rw [ih hrest (by omega), List.flatMap_append, List.append_assoc]

end

/-- Below the period the positions are classified as in the other ports. -/
theorem wordEmits_iff {idx : Nat} {cps slots : List Nat} (hlen : slots.length ≤ 2 ^ 40) :
    WordEmits H noise key kb nonce idx 0 cps slots ↔
      EmitsV7 H noise (primesNat key) kb nonce idx 0 cps slots := by
  have hnoise : ∀ i < slots.length, isNoisePos noise kb nonce (0 + i) = noise kb nonce (0 + i) := by
    intro i hi
    rw [isNoisePos, Nat.mod_eq_of_lt (by omega)]
  exact ⟨fun h => h.congr (fun i hi => (hnoise i hi).symm) (fun _ _ _ => rfl) fun _ _ => rfl,
    fun h => h.congr hnoise (fun _ _ _ => rfl) fun _ _ => rfl⟩

/-! ## Sealing -/

section
variable {message aad : List UInt8} {nonce : FixedBytes nonceSize}

theorem sealBlobV7_eq (H : Hmac) (key : List UInt64) (aad : List UInt8)
    (nonce : FixedBytes nonceSize) (slots : List Nat) :
    sealBlobV7 H key aad nonce (slots.flatMap (beBytes 8)) =
      Rust.ciphertextV7 H (Rust.keyBytes (primesNat key)) nonce aad slots := by
  rw [sealBlobV7, keyBytes_eq, computeAuthTagV7_append nonce.length_toList]
  rfl

/-- The padding in both of its forms. -/
theorem exists_padded_eq (H : Hmac) (hlen : message.length ≤ 0xFFFF) (kb nonce : List UInt8) :
    ∃ pads, message.length + pads.length + 2 = paddedCount message ∧
      Rust.padded H (message.map UInt8.toNat) kb nonce (Rust.bucketBlockSize message.length) =
        prefixed message ++ pads := by
  obtain ⟨hblock, hlt⟩ := paddingBlockSize_none hlen
  obtain ⟨pads, hpads, hpad⟩ := padMessage_prefixed (H := H) hlen kb nonce
  rw [hblock, padMessage_eq_ok kb nonce (by rwa [List.length_map]) (by rwa [List.length_map])]
    at hpad
  exact ⟨pads, hpads, Except.ok.inj hpad⟩

/-- The encryptor on a message between 1 and 65535 bytes, after the padding. -/
theorem napqesEncryptBytes_eq_padded (hkey : KeyValid (primesNat key)) (hpos : 0 < message.length)
    (hlen : message.length ≤ 0xFFFF) (hnul : ∀ b ∈ message, b ≠ 0) :
    napqesEncryptBytes H noise (message ++ [0]) key aad nonce = (do
      let blob ← emitCodepointsV7 H noise key (keyBytes key) nonce
        (Rust.padded H (message.map UInt8.toNat) (keyBytes key) nonce
          (Rust.bucketBlockSize message.length)) 0 0 []
      if blob.length ≤ 32 * (2 ^ 32 - 1) then .ok (sealBlobV7 H key aad nonce blob)
      else .error .diverges) := by
  have hne : key.length ≠ 0 := fun h => hkey.nonempty (by
    rw [List.length_eq_zero_iff.mp h]
    rfl)
  obtain ⟨hblock, hlt⟩ := paddingBlockSize_none hlen
  rw [napqesEncryptBytes, strlen_append hnul, ok_bind, if_neg (by omega), if_neg (by omega),
    List.take_left' rfl]
  dsimp only
  rw [encryptCoreDet, if_neg hne, List.length_map]
  dsimp only
  rw [hblock, padMessage_eq_ok _ _ (by rwa [List.length_map]) (by rwa [List.length_map]), ok_bind]
  congr 1
  funext blob
  by_cases hblob : blob.length ≤ 32 * (2 ^ 32 - 1)
  · obtain ⟨ks, hks, hmask⟩ := exists_varintKeystreamAlloc H (keyBytes key) nonce blob hblob
    rw [if_pos hblob, hks, ok_bind, hmask]
    rfl
  · rw [if_neg hblob, varintKeystreamAlloc_diverges (Nat.lt_of_not_le hblob), error_bind]

/-- `napqes_encrypt_bytes` returns the ciphertext of the tokens when they are in reach of the
keystream. -/
theorem napqesEncryptBytes_eq_ok_iff (hkey : KeyValid (primesNat key)) (hpos : 0 < message.length)
    (hlen : message.length ≤ 0xFFFF) (hnul : ∀ b ∈ message, b ≠ 0) {c : List UInt8} :
    napqesEncryptBytes H noise (message ++ [0]) key aad nonce = .ok c ↔
      ∃ slots, MessageTokensV7 H noise (primesNat key) (message.map UInt8.toNat) nonce slots ∧
        8 * slots.length ≤ 32 * (2 ^ 32 - 1) ∧
        c = Rust.ciphertextV7 H (Rust.keyBytes (primesNat key)) nonce aad slots := by
  rw [napqesEncryptBytes_eq_padded hkey hpos hlen hnul, keyBytes_eq]
  unfold MessageTokensV7
  rw [List.length_map]
  constructor
  · intro h
    obtain ⟨blob, hblob, h⟩ := bind_eq_ok.mp h
    obtain ⟨slots, rfl, hemits⟩ := emits_of_emitCodepointsV7 hkey hblob
    rw [List.nil_append] at h
    split at h
    case isTrue hreach =>
      rw [length_flatMap_beBytes] at hreach
      refine ⟨slots, (wordEmits_iff (by omega)).mp hemits, by omega, ?_⟩
      rw [← sealBlobV7_eq]
      exact (Except.ok.inj h).symm
    case isFalse => cases h
  · rintro ⟨slots, hemits, hreach, rfl⟩
    rw [emitCodepointsV7_of_emits hkey ((wordEmits_iff (by omega)).mpr hemits) (by omega), ok_bind,
      List.nil_append, if_pos (by rw [length_flatMap_beBytes]; omega), sealBlobV7_eq]

/-- `napqes_decrypt_bytes` reads the message out of the ciphertext of its tokens. -/
theorem napqesDecryptBytes_ciphertextV7 (hkey : KeyValid (primesNat key))
    (hlen : message.length ≤ 0xFFFF) {slots : List Nat}
    (h : MessageTokensV7 H noise (primesNat key) (message.map UInt8.toNat) nonce slots)
    (hreach : 8 * slots.length ≤ 32 * (2 ^ 32 - 1)) :
    napqesDecryptBytes H noise
      (Rust.ciphertextV7 H (Rust.keyBytes (primesNat key)) nonce aad slots) key aad =
        .ok (message ++ [0]) := by
  have husable := Rust.KeyUsable.of_keyValid hkey
  have hscalar : ∀ c ∈ message.map UInt8.toNat, IsScalar c := by
    intro c hc
    obtain ⟨b, -, rfl⟩ := List.mem_map.mp hc
    have := b.toNat_lt
    exact ⟨by omega, by omega⟩
  have hword := Rust.word_of_messageTokensV7 husable hscalar h
  obtain ⟨pads, hpads, hpadded⟩ := exists_padded_eq H hlen (keyBytes key) nonce
  have hscalar' : ∀ c ∈ prefixed message ++ pads, IsScalar c := by
    rw [← hpadded]
    exact Rust.isScalar_of_mem_padded H _ nonce _ hscalar
  have hemits : WordEmits H noise key (keyBytes key) nonce 0 0 (prefixed message ++ pads)
      slots := by
    rw [← hpadded, wordEmits_iff (by omega), keyBytes_eq]
    unfold MessageTokensV7 at h
    rwa [List.length_map] at h
  -- The tokens are words already.
  have hplaced : Schedule.Emits (isNoisePos noise (keyBytes key) nonce)
      (wordToken H key (keyBytes key) nonce) (fillerToken H (primesNat key) (keyBytes key) nonce)
      0 0 (prefixed message ++ pads) slots :=
    hemits.congr (fun _ _ => rfl)
      (fun idx c hc => Nat.mod_eq_of_lt (husable.realToken_lt idx (hscalar' c hc))) fun _ _ => rfl
  rw [← sealBlobV7_eq, napqesDecryptBytes_sealBlobV7 H noise aad nonce
      (by rw [length_flatMap_beBytes]; omega),
    decryptCore_of_emitted (fun hnil => hkey.nonempty (by rw [hnil]; rfl)) hlen hpads
      ⟨hplaced.placed, hword, fun m hm => hemits.last hm⟩ fun i _ => (husable.keyElem_range i).1]
  intro i c hc
  have hc' := (hscalar' c (List.mem_append_left _ (List.mem_of_getElem? hc))).1
  have hk := (husable.keyElem_range i).2
  have := Nat.mul_le_mul hc' (Nat.le_of_lt hk)
  omega

end

end Napqes.C
