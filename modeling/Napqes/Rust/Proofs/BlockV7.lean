import Napqes.Rust.BlockV7
import Napqes.Rust.Proofs.Block

/-!
# Round trip of the v7 format

The tokens that `emit_tokens_v7` returns are a placement of the padded codepoints in the uncapped
schedule of `Napqes.Schedule`, and `decrypt_core` reads any such placement back. Neither side
looks at runs, so the guard only decides whether there is a ciphertext at all.
-/

namespace Napqes.Rust

variable {ε : Type} {H : Hmac} {noise : Noise} {key : List Nat} {kb nonce : List UInt8}

/-! ## Key policy -/

/-- What the v7 arithmetic needs of a key. -/
structure KeyUsable (key : List Nat) : Prop where
  nonempty : key ≠ []
  length_le : key.length ≤ 128
  range : ∀ k ∈ key, 2 ≤ k ∧ k < 2 ^ 40
  nodup : key.Nodup

theorem checkKeyV7_eq_ok_iff (seen : List Nat) (i : Nat) (key : List Nat) :
    checkKeyV7 seen i key = .ok ⟨⟩ ↔
      (∀ k ∈ key, 2 ≤ k ∧ k < 2 ^ 40) ∧ key.Nodup ∧ ∀ k ∈ key, k ∉ seen := by
  induction key generalizing seen i with
  | nil => simp [checkKeyV7, pure, Except.pure]
  | cons k key ih =>
      rw [checkKeyV7]
      by_cases hrange : 2 ≤ k ∧ k ≤ maxSerialisableKeyPrime
      · rw [if_neg (not_not.mpr hrange)]
        have hlt : 2 ≤ k ∧ k < 2 ^ 40 := ⟨hrange.1, Nat.lt_of_le_pred (by decide) hrange.2⟩
        by_cases hseen : k ∈ seen
        · simp [hseen, err]
        · rw [if_neg (by simpa using hseen), ih]
          simp only [List.mem_cons, forall_eq_or_imp, List.nodup_cons, List.mem_append,
            List.not_mem_nil, or_false, not_or]
          constructor
          · intro h
            obtain ⟨hall, hnodup, hnew⟩ := h
            exact ⟨⟨hlt, hall⟩, ⟨fun hk => (hnew k hk).2 rfl, hnodup⟩, hseen,
              fun k' hk' => (hnew k' hk').1⟩
          · intro h
            obtain ⟨⟨-, hall⟩, ⟨hk, hnodup⟩, -, hnew⟩ := h
            exact ⟨hall, hnodup, fun k' hk' => ⟨hnew k' hk', fun heq => hk (heq ▸ hk')⟩⟩
      · rw [if_pos hrange]
        simp only [err, reduceCtorEq, false_iff, List.mem_cons, forall_eq_or_imp]
        intro h
        exact hrange ⟨h.1.1.1, Nat.le_pred_of_lt h.1.1.2⟩

theorem validateKeyV7Decrypt_iff (key : List Nat) :
    validateKeyV7Decrypt key = .ok ⟨⟩ ↔ KeyUsable key := by
  unfold validateKeyV7Decrypt
  by_cases hempty : key.isEmpty = true
  · rw [if_pos hempty]
    simp only [err, reduceCtorEq, false_iff]
    exact fun h => h.nonempty (List.isEmpty_iff.mp hempty)
  · rw [if_neg hempty]
    by_cases hlong : key.length > maxKeyElements
    · rw [if_pos hlong]
      simp only [err, reduceCtorEq, false_iff]
      exact fun h => absurd h.length_le (Nat.not_le.mpr hlong)
    · rw [if_neg hlong, checkKeyV7_eq_ok_iff]
      constructor
      · intro h
        exact ⟨by simpa using hempty, Nat.le_of_not_lt hlong, h.1, h.2.1⟩
      · intro h
        exact ⟨h.range, h.nodup, by simp⟩

/-- The decryptors take every key the encryptors take. -/
theorem KeyUsable.of_keyValid (h : KeyValid key) : KeyUsable key where
  nonempty := h.nonempty
  length_le := h.length_le
  range k hk := by
    have := h.range k hk
    omega
  nodup := h.nodup

theorem KeyUsable.keyElem_range (h : KeyUsable key) (i : Nat) :
    2 ≤ keyElem key i ∧ keyElem key i < 2 ^ 40 :=
  h.range _ (List.mem_of_getElem? (getElem?_keyElem h.nonempty i))

theorem keyAt_of_ne_nil (h : key ≠ []) (i : Nat) :
    (keyAt key i : RustM ε Nat) = .ok (keyElem key i) := by
  simp only [keyAt, getElem?_keyElem h i]

theorem KeyUsable.deriveAddend_eq (h : KeyUsable key) (idx : Nat) :
    (deriveAddend H kb nonce idx (keyElem key idx) : RustM ε Nat) =
      .ok (realAddend H key kb nonce idx) :=
  addendOf_eq_ok _ (h.keyElem_range idx).1

/-- Tokens of a usable key fit a `u64`. -/
theorem affine_lt_v7 {c k a : Nat} (hc : c < 2 ^ 21) (hk : k < 2 ^ 40) (ha : a < k) :
    c * k + a < 2 ^ 64 := by
  have := Nat.mul_le_mul (Nat.le_of_lt hc) (Nat.le_of_lt hk)
  omega

theorem KeyUsable.fillerToken_lt (h : KeyUsable key) (idx pos : Nat) :
    fillerToken H key kb nonce idx pos < 2 ^ 64 := by
  have hrange := h.keyElem_range idx
  have hchar := deriveNoiseChar_lt H kb nonce pos
  exact affine_lt_v7 (Nat.lt_trans hchar (by decide)) hrange.2 (addendVal_lt _ hrange.1)

theorem KeyUsable.realToken_lt (h : KeyUsable key) (idx : Nat) {c : Nat} (hc : IsScalar c) :
    realToken H key kb nonce idx c < 2 ^ 64 := by
  have hrange := h.keyElem_range idx
  exact affine_lt_v7 (Nat.lt_of_le_of_lt hc.1 (by decide)) hrange.2 (addendVal_lt _ hrange.1)

theorem KeyUsable.noiseToken_eq (h : KeyUsable key) (idx pos : Nat) :
    (noiseToken H kb nonce pos (keyElem key idx) : RustM ε Nat) =
      .ok (fillerToken H key kb nonce idx pos) := by
  rw [noiseToken, deriveNoiseTokenAddend, addendOf_eq_ok _ (h.keyElem_range idx).1, ok_bind]
  exact u64_of_lt (h.fillerToken_lt idx pos)

theorem KeyUsable.u64_realToken (h : KeyUsable key) (idx : Nat) {c : Nat} (hc : IsScalar c) :
    (u64 (c * keyElem key idx + realAddend H key kb nonce idx) : RustM ε Nat) =
      .ok (realToken H key kb nonce idx c) :=
  u64_of_lt (h.realToken_lt idx hc)

/-! ## Emission -/

/-- One turn of the loop for a codepoint. -/
theorem emitCodepointV7_eq (hkey : KeyUsable key) {c : Nat} (hc : IsScalar c)
    (idx run pos : Nat) (cypher : List Nat) :
    emitCodepointV7 H noise key kb nonce c idx run pos cypher =
      if noise kb nonce pos then
        if run + 1 > v7NoiseRunGuard then
          err (s!"v7 emission aborted: more than {v7NoiseRunGuard} consecutive noise " ++
            "positions (CVF-V5-4)")
        else emitCodepointV7 H noise key kb nonce c idx (run + 1) (pos + 1)
          (cypher ++ [fillerToken H key kb nonce idx pos])
      else .ok (cypher ++ [realToken H key kb nonce idx c], pos + 1) := by
  rw [emitCodepointV7, keyAt_of_ne_nil hkey.nonempty, ok_bind]
  split
  case isTrue hnoise =>
    rw [hkey.noiseToken_eq, ok_bind]
    split <;> rfl
  case isFalse hnoise => rw [hkey.deriveAddend_eq, ok_bind, hkey.u64_realToken idx hc, ok_bind]; rfl

/-- Tokens that carry `cps` from index `idx` and position `pos` on, each a `u64`. -/
structure Carries (H : Hmac) (noise : Noise) (key : List Nat) (kb nonce : List UInt8)
    (idx pos : Nat) (cps slots : List Nat) : Prop where
  placed : Schedule.Placed (noise kb nonce) (realToken H key kb nonce) idx pos cps slots
  word : ∀ t ∈ slots, t < 2 ^ 64
  length_le : slots.length ≤ cps.length * (v7NoiseRunGuard + 1)

/-- The loop for one codepoint appends a placement of it. -/
theorem placed_of_emitCodepointV7 (hkey : KeyUsable key) {c : Nat} (hc : IsScalar c) {idx : Nat}
    {run pos : Nat} {cypher : List Nat} {out : List Nat × Nat}
    (h : emitCodepointV7 H noise key kb nonce c idx run pos cypher = .ok out)
    (hrun : run ≤ v7NoiseRunGuard) :
    ∃ slots, out = (cypher ++ slots, pos + slots.length) ∧
      slots.length ≤ v7NoiseRunGuard + 1 - run ∧ (∀ t ∈ slots, t < 2 ^ 64) ∧
      Schedule.Placed (noise kb nonce) (realToken H key kb nonce) idx pos [c] slots := by
  induction hleft : v7NoiseRunGuard - run generalizing run pos cypher with
  | zero =>
      rw [emitCodepointV7_eq hkey hc] at h
      split at h
      case isTrue hnoise =>
        rw [if_pos (by omega)] at h
        cases h
      case isFalse hnoise =>
        cases h
        refine ⟨[realToken H key kb nonce idx c], rfl, by simp; omega, ?_, ?_⟩
        · simpa using hkey.realToken_lt idx hc
        · exact .item c (by simpa using hnoise) (.nil _ _)
  | succ left ih =>
      rw [emitCodepointV7_eq hkey hc] at h
      split at h
      case isTrue hnoise =>
        rw [if_neg (by omega)] at h
        obtain ⟨slots, rfl, hlen, hword, hplaced⟩ := ih h (by omega) (by omega)
        refine ⟨fillerToken H key kb nonce idx pos :: slots, ?_, by simp; omega, ?_, ?_⟩
        · rw [List.append_assoc, List.length_cons, Nat.add_right_comm, Nat.add_assoc]
          rfl
        · intro t ht
          rcases List.mem_cons.mp ht with rfl | ht
          · exact hkey.fillerToken_lt idx pos
          · exact hword t ht
        · exact .noise _ hnoise hplaced
      case isFalse hnoise =>
        cases h
        refine ⟨[realToken H key kb nonce idx c], rfl, by simp; omega, ?_, ?_⟩
        · simpa using hkey.realToken_lt idx hc
        · exact .item c (by simpa using hnoise) (.nil _ _)

theorem carries_of_emitCodepointsV7 (hkey : KeyUsable key) {cps : List Nat}
    (hcps : ∀ c ∈ cps, IsScalar c) {idx pos : Nat} {cypher out : List Nat}
    (h : emitCodepointsV7 H noise key kb nonce cps idx pos cypher = .ok out) :
    ∃ slots, out = cypher ++ slots ∧ Carries H noise key kb nonce idx pos cps slots := by
  induction cps generalizing idx pos cypher with
  | nil =>
      cases h
      exact ⟨[], (List.append_nil _).symm, ⟨.nil _ _, by simp, by simp⟩⟩
  | cons c cps ih =>
      rw [emitCodepointsV7, bind_eq_ok] at h
      obtain ⟨first, hfirst, hrest⟩ := h
      obtain ⟨slots, rfl, hlen, hword, hplaced⟩ :=
        placed_of_emitCodepointV7 hkey (hcps c (by simp)) hfirst (Nat.zero_le _)
      obtain ⟨slots', rfl, hcarries⟩ := ih (fun d hd => hcps d (by simp [hd])) hrest
      refine ⟨slots ++ slots', List.append_assoc .., ?_, ?_, ?_⟩
      · exact hplaced.append hcarries.placed
      · intro t ht
        rcases List.mem_append.mp ht with ht | ht
        · exact hword t ht
        · exact hcarries.word t ht
      · have := hcarries.length_le
        rw [List.length_append, List.length_cons, Nat.add_mul]
        omega

/-- A free position within the guard ends the loop for a codepoint. -/
theorem exists_emitCodepointV7 (hkey : KeyUsable key) {c : Nat} (hc : IsScalar c) (idx : Nat)
    {run pos i : Nat} (hrun : run + i ≤ v7NoiseRunGuard)
    (hfree : noise kb nonce (pos + i) = false) (cypher : List Nat) :
    ∃ out, emitCodepointV7 H noise key kb nonce c idx run pos cypher = .ok out := by
  induction i generalizing run pos cypher with
  | zero =>
      rw [emitCodepointV7_eq hkey hc, if_neg (by simpa using hfree)]
      exact ⟨_, rfl⟩
  | succ i ih =>
      rw [emitCodepointV7_eq hkey hc]
      split
      case isTrue hnoise =>
        rw [if_neg (by omega)]
        apply ih (by omega)
        rw [Nat.add_assoc, Nat.add_comm 1 i]
        exact hfree
      case isFalse => exact ⟨_, rfl⟩

theorem exists_emitCodepointsV7 (hkey : KeyUsable key)
    (hfree : ∀ pos, ∃ i ≤ v7NoiseRunGuard, noise kb nonce (pos + i) = false) {cps : List Nat}
    (hcps : ∀ c ∈ cps, IsScalar c) (idx pos : Nat) (cypher : List Nat) :
    ∃ out, emitCodepointsV7 H noise key kb nonce cps idx pos cypher = .ok out := by
  induction cps generalizing idx pos cypher with
  | nil => exact ⟨cypher, rfl⟩
  | cons c cps ih =>
      obtain ⟨i, hi, hpos⟩ := hfree pos
      obtain ⟨⟨cypher', pos'⟩, hfirst⟩ := exists_emitCodepointV7 hkey (hcps c (by simp)) idx
        ((Nat.zero_add i).trans_le hi) hpos cypher
      rw [emitCodepointsV7, hfirst, ok_bind]
      exact ih (fun d hd => hcps d (by simp [hd])) (idx + 1) pos' cypher'

/-- What `emit_tokens_v7` returns carries the codepoints. -/
theorem carries_of_emitTokensV7 (hkey : KeyUsable key) {cps : List Nat}
    (hcps : ∀ c ∈ cps, IsScalar c) {slots : List Nat}
    (h : emitTokensV7 H noise cps kb nonce key = .ok slots) :
    Carries H noise key kb nonce 0 0 cps slots := by
  obtain ⟨slots', rfl, hcarries⟩ := carries_of_emitCodepointsV7 hkey hcps h
  exact hcarries

/-! ## Recovery -/

theorem decryptTokensV7_real (hkey : KeyUsable key) {idx pos c : Nat} (hc : IsScalar c)
    (hpos : noise kb nonce pos = false) (slots acc : List Nat) :
    decryptTokensV7 H noise nonce key kb (realToken H key kb nonce idx c :: slots) pos idx acc =
      decryptTokensV7 H noise nonce key kb slots (pos + 1) (idx + 1) (acc ++ [c]) := by
  have hk := (hkey.keyElem_range idx).1
  have hsub : realToken H key kb nonce idx c - realAddend H key kb nonce idx =
      c * keyElem key idx := Nat.add_sub_cancel ..
  have hge : ¬ realToken H key kb nonce idx c < realAddend H key kb nonce idx :=
    Nat.not_lt.mpr (Nat.le_add_left _ _)
  have hdiv : c * keyElem key idx / keyElem key idx = c :=
    Nat.mul_div_cancel c (Nat.lt_of_lt_of_le (by decide) hk)
  rw [decryptTokensV7, if_pos (by simp [hpos]), keyAt_of_ne_nil hkey.nonempty, ok_bind,
    hkey.deriveAddend_eq, ok_bind, hsub, if_neg (by simp [hge]), hdiv, if_pos hc]

/-- The decoder reads a placement back, wherever it starts. -/
theorem decryptTokensV7_of_placed (hkey : KeyUsable key) {idx pos : Nat} {cps slots : List Nat}
    (h : Schedule.Placed (noise kb nonce) (realToken H key kb nonce) idx pos cps slots)
    (hcps : ∀ c ∈ cps, IsScalar c) (acc : List Nat) :
    decryptTokensV7 H noise nonce key kb slots pos idx acc = .ok (acc ++ cps) := by
  induction h generalizing acc with
  | nil idx pos =>
      rw [List.append_nil]
      rfl
  | noise t hpos _ ih =>
      rw [decryptTokensV7, if_neg (by simp [hpos])]
      exact ih hcps acc
  | item c hpos _ ih =>
      rw [decryptTokensV7_real hkey (hcps c (by simp)) hpos,
        ih (fun d hd => hcps d (by simp [hd])), List.append_assoc]
      rfl

/-- `decrypt_core` gives the message back from a placement of its padding. -/
theorem decryptCore_of_carries (hkey : KeyUsable key) {msg slots : List Nat} {b : Nat}
    (hmsg : ∀ c ∈ msg, IsScalar c) (hlen : msg.length ≤ maxPlaintextCodepoints)
    (h : Carries H noise key kb nonce 0 0 (padded H msg kb nonce b) slots) :
    decryptCore H noise nonce slots key kb = .ok msg := by
  have hread := decryptTokensV7_of_placed hkey h.placed (isScalar_of_mem_padded H kb nonce b hmsg)
  rw [decryptCore, hread, ok_bind, List.nil_append]
  exact unpadMessage_padded H kb nonce b hlen

/-! ## Authenticated ciphertexts -/

/-- The input of the v7 tag. -/
def authTagInputV7 (aad nonce masked : List UInt8) : List UInt8 :=
  0x03 :: (nonce ++ (beBytes 4 aad.length ++ (aad ++ masked)))

theorem computeAuthTagV7_append {nonce : List UInt8} (hnonce : nonce.length = nonceSize)
    {aad : List UInt8} (haad : aad.length < 2 ^ 32) (masked : List UInt8) :
    (computeAuthTagV7 H kb aad (nonce ++ masked) : RustM ε (FixedBytes tagSize)) =
      .ok (H kb (authTagInputV7 aad nonce masked)) := by
  have hprefix : (beLenPrefixV7 aad.length : RustM ε (List UInt8)) = .ok (beBytes 4 aad.length) :=
    if_pos haad
  rw [computeAuthTagV7, hprefix, ok_bind, List.take_left' hnonce, List.drop_left' hnonce]
  rfl

/-- The ciphertext with the given tokens in it. -/
def ciphertextV7 (H : Hmac) (kb : List UInt8) (nonce : FixedBytes nonceSize) (aad : List UInt8)
    (slots : List Nat) : List UInt8 :=
  let masked := maskWith H kb nonce (fixedEncodeTokens slots)
  nonce.toList ++ masked ++ (H kb (authTagInputV7 aad nonce masked)).toList

/-- Block sizes of the bucket profile. -/
theorem bucketBlockSize_spec {n : Nat} (h : n ≤ maxPlaintextCodepoints) :
    ReachableBlock (bucketBlockSize n) ∧ n < bucketBlockSize n := by
  have hsize : PadProfile.bucket.blockSize n = .ok (bucketBlockSize n) := by
    unfold PadProfile.blockSize
    rw [if_neg (Nat.not_le.mpr (Nat.lt_of_le_of_lt h (by decide)))]
  obtain ⟨hreach, hlt, -⟩ := blockSize_spec hsize
  exact ⟨hreach, hlt⟩

theorem padMessage_eq {msg : List Nat} (h : msg.length ≤ maxPlaintextCodepoints) :
    (padMessage H msg kb nonce : RustM ε (List Nat)) =
      .ok (padded H msg kb nonce (bucketBlockSize msg.length)) := by
  rw [padMessage, if_pos h, padToBlock_eq_ok H kb nonce (bucketBlockSize_spec h).2]

/-- The tokens of the longest message do not exhaust the keystream counter. -/
theorem length_fixedEncodeTokens_le {msg slots : List Nat} {idx pos : Nat}
    (hlen : msg.length ≤ maxPlaintextCodepoints)
    (h : Carries H noise key kb nonce idx pos
      (padded H msg kb nonce (bucketBlockSize msg.length)) slots) :
    (fixedEncodeTokens slots).length ≤ 32 * (2 ^ 32 - 1) := by
  obtain ⟨hreach, hlt⟩ := bucketBlockSize_spec hlen
  have hle := h.length_le
  have hblock := hreach.le
  rw [length_padded H kb nonce hlt, v7NoiseRunGuard] at hle
  rw [fixedEncodeTokens, length_flatMap_beBytes, tokenWidth]
  omega

/-- `seal_v7` returns the ciphertext of tokens that carry the padded message. -/
theorem carries_of_sealV7 (hkey : KeyUsable key) {cps : List Nat} (hcps : ∀ c ∈ cps, IsScalar c)
    (hlen : cps.length ≤ maxPlaintextCodepoints) {nonce : FixedBytes nonceSize}
    {aad c : List UInt8} (haad : aad.length < 2 ^ 32)
    (h : sealV7 H noise cps key nonce aad = .ok c) :
    ∃ slots, c = ciphertextV7 H (keyBytes key) nonce aad slots ∧
      Carries H noise key (keyBytes key) nonce 0 0
        (padded H cps (keyBytes key) nonce (bucketBlockSize cps.length)) slots := by
  rw [sealV7] at h
  simp only [padMessage_eq hlen, ok_bind] at h
  obtain ⟨slots, hslots, h⟩ := bind_eq_ok.mp h
  have hcarries := carries_of_emitTokensV7 hkey
    (isScalar_of_mem_padded H _ nonce (bucketBlockSize cps.length) hcps) hslots
  rw [varintKeystream_eq_ok H _ _ (length_fixedEncodeTokens_le hlen hcarries), ok_bind,
    computeAuthTagV7_append nonce.length_toList haad, ok_bind] at h
  cases h
  exact ⟨slots, rfl, hcarries⟩

/-- While no noise run is longer than the guard, `seal_v7` returns a ciphertext. -/
theorem exists_sealV7 (hkey : KeyUsable key) {cps : List Nat} (hcps : ∀ c ∈ cps, IsScalar c)
    (hlen : cps.length ≤ maxPlaintextCodepoints) {nonce : FixedBytes nonceSize}
    {aad : List UInt8} (haad : aad.length < 2 ^ 32)
    (hfree : ∀ pos, ∃ i ≤ v7NoiseRunGuard, noise (keyBytes key) nonce (pos + i) = false) :
    ∃ c, sealV7 H noise cps key nonce aad = .ok c := by
  have hscalar := isScalar_of_mem_padded H (keyBytes key) nonce (bucketBlockSize cps.length) hcps
  obtain ⟨slots, hslots⟩ := exists_emitCodepointsV7 (H := H) hkey hfree hscalar 0 0 []
  have hcarries := carries_of_emitTokensV7 hkey hscalar hslots
  rw [sealV7]
  simp only [padMessage_eq hlen, ok_bind, emitTokensV7, hslots]
  rw [varintKeystream_eq_ok H _ _ (length_fixedEncodeTokens_le hlen hcarries), ok_bind,
    computeAuthTagV7_append nonce.length_toList haad, ok_bind]
  exact ⟨_, rfl⟩

theorem checkV7AadLen_eq_ok_iff (n : Nat) : checkV7AadLen n = .ok ⟨⟩ ↔ n < 2 ^ 32 := by
  unfold checkV7AadLen
  split
  case isTrue h =>
    simp only [err, reduceCtorEq, false_iff]
    omega
  case isFalse h =>
    refine iff_of_true rfl ?_
    omega

/-- `open_v7` on a ciphertext written as nonce, masked blob and tag. -/
theorem openV7_append {nonce masked tag aad : List UInt8} (hnonce : nonce.length = nonceSize)
    (htag : tag.length = tagSize) (haad : aad.length < 2 ^ 32) :
    openV7 H noise (nonce ++ masked ++ tag) key aad =
      if ¬ ctEqBytes tag (H (keyBytes key) (authTagInputV7 aad nonce masked)) then
        err "Authentication failed: invalid HMAC tag."
      else (do
        validateKeyV7Decrypt key
        let ks ← varintKeystream H (keyBytes key) nonce masked.length
        let tokens ← mapErr (fun e => s!"varint decode error: {e}")
          (fixedDecodeTokens (xorBytes masked ks))
        decryptCore H noise nonce tokens key (keyBytes key)) := by
  have hsplit : (nonce ++ masked ++ tag).length - tagSize = (nonce ++ masked).length := by
    simp only [List.length_append, htag]
    omega
  have hlong : ¬ (nonce ++ masked ++ tag).length < nonceSize + tagSize := by
    simp only [List.length_append, hnonce, htag]
    omega
  rw [openV7, (checkV7AadLen_eq_ok_iff _).mpr haad, ok_bind]
  simp only [if_neg hlong, hsplit, List.take_left', List.drop_left',
    computeAuthTagV7_append hnonce haad, ok_bind, List.take_left' hnonce, List.drop_left' hnonce]

/-- Opening the ciphertext of tokens that carry a padded message gives the message. -/
theorem openV7_ciphertextV7 (hkey : KeyUsable key) {cps slots : List Nat}
    (hcps : ∀ c ∈ cps, IsScalar c) (hlen : cps.length ≤ maxPlaintextCodepoints)
    {nonce : FixedBytes nonceSize} {aad : List UInt8} (haad : aad.length < 2 ^ 32)
    (h : Carries H noise key (keyBytes key) nonce 0 0
      (padded H cps (keyBytes key) nonce (bucketBlockSize cps.length)) slots) :
    openV7 H noise (ciphertextV7 H (keyBytes key) nonce aad slots) key aad = .ok cps := by
  have hmasked : (maskWith H (keyBytes key) nonce (fixedEncodeTokens slots)).length ≤
      32 * (2 ^ 32 - 1) := by
    rw [length_maskWith]
    exact length_fixedEncodeTokens_le hlen h
  have hblob : xorBytes (maskWith H (keyBytes key) nonce (fixedEncodeTokens slots))
      (keystream H (keyBytes key) nonce
        (maskWith H (keyBytes key) nonce (fixedEncodeTokens slots)).length) =
      fixedEncodeTokens slots := maskWith_maskWith H (keyBytes key) nonce _
  have hfields : fixedDecodeTokens (fixedEncodeTokens slots) = .ok slots := by
    have hbytes : (fixedEncodeTokens slots).length = slots.length * 8 :=
      length_flatMap_beBytes 8 slots
    rw [fixedDecodeTokens_eq_ok_iff, hbytes, Nat.mul_mod_left,
      Nat.mul_div_cancel _ (by decide : 0 < 8)]
    exact ⟨rfl, (map_beNat_chunksExact 8 slots h.word).symm⟩
  rw [ciphertextV7, openV7_append nonce.length_toList (FixedBytes.length_toList _) haad,
    if_neg (by simp [ctEqBytes]), (validateKeyV7Decrypt_iff key).mpr hkey, ok_bind,
    varintKeystream_eq_ok H _ _ hmasked, ok_bind, hblob, hfields, mapErr_ok, ok_bind]
  exact decryptCore_of_carries hkey hcps hlen h

/-- `open_v7` inverts `seal_v7` for every key the decryptors accept. -/
theorem openV7_of_sealV7 (hkey : KeyUsable key) {cps : List Nat} (hcps : ∀ c ∈ cps, IsScalar c)
    (hlen : cps.length ≤ maxPlaintextCodepoints) {nonce : FixedBytes nonceSize}
    {aad c : List UInt8} (haad : aad.length < 2 ^ 32)
    (h : sealV7 H noise cps key nonce aad = .ok c) : openV7 H noise c key aad = .ok cps := by
  obtain ⟨slots, rfl, hcarries⟩ := carries_of_sealV7 hkey hcps hlen haad h
  exact openV7_ciphertextV7 hkey hcps hlen haad hcarries

/-! ## The public functions -/

/-- Collecting inverts a mapping that each step inverts. -/
theorem collectEnumerated_map {α β : Type} {f : Nat → Nat → RustM String β} {g : α → Nat}
    {h : α → β} (hstep : ∀ i a, f i (g a) = .ok (h a)) (i : Nat) (as : List α) :
    collectEnumerated f i (as.map g) = .ok (as.map h) := by
  induction as generalizing i with
  | nil => rfl
  | cons a as ih =>
      rw [List.map_cons, collectEnumerated, hstep, ok_bind, ih, ok_bind]
      rfl

/-- `decrypt_bytes` inverts `encrypt_bytes` whenever that returns a ciphertext. -/
theorem decryptBytes_of_encryptBytes {message : Str} {aad c : List UInt8}
    {generateNonce : RustM String (FixedBytes nonceSize)}
    (h : encryptBytes H noise message key aad generateNonce = .ok c) :
    decryptBytes H noise c key aad = .ok message := by
  simp only [encryptBytes, bind_eq_ok] at h
  obtain ⟨⟨⟩, hvalid, ⟨⟩, haad, h⟩ := h
  split at h
  case isTrue => cases h
  case isFalse hlen =>
    obtain ⟨nonce, -, hseal⟩ := bind_eq_ok.mp h
    have hkey := KeyUsable.of_keyValid ((validateKey_iff key).mp hvalid)
    have hcount : message.codepoints.length ≤ maxPlaintextCodepoints := by
      rw [Str.codepoints, List.length_map]
      exact Nat.le_of_not_lt hlen
    have hopen := openV7_of_sealV7 hkey message.isScalar_of_mem_codepoints hcount
      ((checkV7AadLen_eq_ok_iff _).mp haad) hseal
    have hchar : ∀ i (ch : Char), charOrErr i ch.toNat = .ok (id ch) := by
      intro i ch
      rw [charOrErr, charFromU32_toNat]
      rfl
    rw [decryptBytes, hopen, ok_bind, Str.codepoints, collectEnumerated_map hchar, List.map_id]

/-- `decrypt_raw` inverts `encrypt_raw` whenever that returns a ciphertext. -/
theorem decryptRaw_of_encryptRaw {data aad c : List UInt8}
    {generateNonce : RustM String (FixedBytes nonceSize)}
    (h : encryptRaw H noise data key aad generateNonce = .ok c) :
    decryptRaw H noise c key aad = .ok data := by
  simp only [encryptRaw, bind_eq_ok] at h
  obtain ⟨⟨⟩, hvalid, ⟨⟩, haad, h⟩ := h
  split at h
  case isTrue => cases h
  case isFalse hlen =>
    obtain ⟨nonce, -, hseal⟩ := bind_eq_ok.mp h
    have hkey := KeyUsable.of_keyValid ((validateKey_iff key).mp hvalid)
    have hscalar : ∀ c ∈ data.map UInt8.toNat, IsScalar c := by
      intro c hc
      obtain ⟨b, -, rfl⟩ := List.mem_map.mp hc
      have := b.toNat_lt
      exact ⟨by omega, by omega⟩
    have hcount : (data.map UInt8.toNat).length ≤ maxPlaintextCodepoints := by
      rw [List.length_map]
      exact Nat.le_of_not_lt hlen
    have hopen := openV7_of_sealV7 hkey hscalar hcount ((checkV7AadLen_eq_ok_iff _).mp haad) hseal
    have hbyte : ∀ i (b : UInt8), byteOrErr i b.toNat = .ok (id b) := by
      intro i b
      have := b.toNat_lt
      rw [byteOrErr, if_neg (by omega), UInt8.ofNat_toNat]
      rfl
    rw [decryptRaw, hopen, ok_bind, collectEnumerated_map hbyte, List.map_id]

/-- `decrypt` inverts the token-level `encrypt` whenever that returns tokens. -/
theorem decrypt_of_encrypt {message cypher : List Nat} {nonce : FixedBytes nonceSize}
    {generateNonce : RustM String (FixedBytes nonceSize)}
    (h : encrypt H noise message key generateNonce = .ok (nonce, cypher)) :
    decrypt H noise nonce cypher key = .ok message := by
  unfold encrypt at h
  split at h
  case isTrue => cases h
  case isFalse hlen =>
    split at h
    case h_1 => cases h
    case h_2 hfind =>
      simp only [bind_eq_ok] at h
      obtain ⟨⟨⟩, hvalid, nonce', -, h⟩ := h
      have hcount : message.length ≤ maxPlaintextCodepoints := Nat.le_of_not_lt hlen
      have hkey := KeyUsable.of_keyValid ((validateKey_iff key).mp hvalid)
      have hscalar : ∀ c ∈ message, IsScalar c := by
        intro c hc
        obtain ⟨i, hi, rfl⟩ := List.mem_iff_getElem.mp hc
        have hnone := List.find?_eq_none.mp hfind (message[i], i)
          (List.mem_zipIdx_iff_getElem?.mpr (by simp [hi]))
        rw [isScalar_iff_isValidChar]
        by_contra hbad
        exact hnone (by simp [charFromU32, hbad])
      obtain ⟨padding, hpad, slots, hslots, hout⟩ := h
      rw [padMessage_eq hcount] at hpad
      cases hpad
      cases hout
      have hcarries := carries_of_emitTokensV7 hkey
        (isScalar_of_mem_padded H _ nonce (bucketBlockSize message.length) hscalar) hslots
      rw [decrypt, (validateKeyV7Decrypt_iff key).mpr hkey, ok_bind]
      exact decryptCore_of_carries hkey hscalar hcount hcarries

/-! ## Main result -/

/-- Round trip of the v7 format, for every HMAC function, noise predicate and key the decryptors
accept: `open_v7` inverts `seal_v7`, which returns a ciphertext unless a noise run exceeds the
guard, and so the three pairs of public functions invert each other. -/
theorem openV7_inverts_sealV7 (H : Hmac) (noise : Noise) :
    (∀ key, validateKey key = .ok ⟨⟩ → validateKeyV7Decrypt key = .ok ⟨⟩) ∧
    (∀ (key cps : List Nat) (nonce : FixedBytes nonceSize) (aad : List UInt8),
      validateKeyV7Decrypt key = .ok ⟨⟩ → aad.length < 2 ^ 32 → cps.length ≤ 65535 →
      (∀ c ∈ cps, IsScalar c) →
      (∀ c, sealV7 H noise cps key nonce aad = .ok c → openV7 H noise c key aad = .ok cps) ∧
      ((∀ pos, ∃ i ≤ 4096, noise (keyBytes key) nonce (pos + i) = false) →
        ∃ c, sealV7 H noise cps key nonce aad = .ok c)) ∧
    (∀ (message : Str) (key : List Nat) (aad c : List UInt8) generateNonce,
      encryptBytes H noise message key aad generateNonce = .ok c →
        decryptBytes H noise c key aad = .ok message) ∧
    (∀ (data : List UInt8) (key : List Nat) (aad c : List UInt8) generateNonce,
      encryptRaw H noise data key aad generateNonce = .ok c →
        decryptRaw H noise c key aad = .ok data) ∧
    (∀ (message key cypher : List Nat) (nonce : FixedBytes nonceSize) generateNonce,
      encrypt H noise message key generateNonce = .ok (nonce, cypher) →
        decrypt H noise nonce cypher key = .ok message) := by
  refine ⟨?_, ?_, ?_, ?_, ?_⟩
  · intro key hvalid
    exact (validateKeyV7Decrypt_iff key).mpr (.of_keyValid ((validateKey_iff key).mp hvalid))
  · intro key cps nonce aad hvalid haad hlen hcps
    have hkey := (validateKeyV7Decrypt_iff key).mp hvalid
    exact ⟨fun c hc => openV7_of_sealV7 hkey hcps hlen haad hc,
      fun hfree => exists_sealV7 hkey hcps hlen haad hfree⟩
  · intro message key aad c generateNonce h
    exact decryptBytes_of_encryptBytes h
  · intro data key aad c generateNonce h
    exact decryptRaw_of_encryptRaw h
  · intro message key cypher nonce generateNonce h
    exact decrypt_of_encrypt h

/-- Two characters under a key of two small elements, one of them composite, with noise at every
odd position. -/
theorem openV7_sealV7_two_chars :
    ∃ c, sealV7 zeroHmac (fun _ _ pos => pos % 2 == 1) [104, 233] [7, 4] (.ofList 16 []) [1] =
        .ok c ∧
      openV7 zeroHmac (fun _ _ pos => pos % 2 == 1) c [7, 4] [1] = .ok [104, 233] := by
  have hround := (openV7_inverts_sealV7 zeroHmac fun _ _ pos => pos % 2 == 1).2.1 [7, 4]
    [104, 233] (.ofList 16 []) [1] rfl (by decide) (by decide) (by decide)
  obtain ⟨c, hc⟩ := hround.2 (by
    intro pos
    rcases Nat.mod_two_eq_zero_or_one pos with hpos | hpos
    · exact ⟨0, by decide, by simp [hpos]⟩
    · exact ⟨1, by decide, by simp [Nat.add_mod, hpos]⟩)
  exact ⟨c, hc, hround.1 c hc⟩

end Napqes.Rust
