import Napqes.Format.BlockV7
import Napqes.Python.BlockV7
import Napqes.Python.Proofs.Block

/-!
# What `decrypt_bytes` reads out of a v7 block

The Python decoder returns the values of `floorValues` as far as `floorLength` goes, and raises
where that is undefined.
-/

namespace Napqes.Python

variable {H : Hmac} {noise : Noise} {key : List Nat} {kb nonce : List UInt8}

/-! ## Tokens -/

/-- The loop divides the tokens at the free positions. -/
theorem decryptTokensV7_eq_ok (hkey : KeyValid key) {tokens : List Nat} {pos idx : Nat}
    (hpos : pos + tokens.length ≤ 2 ^ 40) (hidx : idx ≤ pos) (acc : List Int) :
    decryptTokensV7 H noise key kb nonce tokens pos idx acc =
      .ok (acc ++ (Schedule.free (noise kb nonce) pos tokens).mapIdx fun i t =>
        floorValue H key kb nonce (idx + i) t) := by
  induction tokens generalizing pos idx acc with
  | nil => rw [decryptTokensV7, Schedule.free, List.mapIdx_nil, List.append_nil]
  | cons token tokens ih =>
      rw [List.length_cons] at hpos
      rw [decryptTokensV7, isNoisePos, toBytes_of_lt (show pos < 256 ^ 5 by omega), ok_bind,
        Schedule.free]
      by_cases hnoise : noise kb nonce pos = true
      · rw [if_pos hnoise, ← ih (by omega) (show idx ≤ pos + 1 by omega) acc]
        simp only [hnoise, pure, Except.pure, ok_bind, Bool.not_true, Bool.false_eq_true,
          ↓reduceIte]
      · have hrange := keyElem_range hkey idx
        rw [if_neg hnoise, List.mapIdx_cons]
        simp only [hnoise, pure, Except.pure, ok_bind, Bool.not_false, ↓reduceIte]
        rw [keyAt_eq_ok hkey, ok_bind, deriveAddend_eq_ok H kb nonce hkey (by omega), ok_bind,
          floorDiv, if_neg (by omega), ok_bind, ih (by omega) (by omega), List.append_assoc,
          Int.fdiv_eq_ediv_of_nonneg _ (by omega)]
        simp only [List.cons_append, List.nil_append, Nat.add_zero, Nat.add_assoc, Nat.add_comm 1,
          floorValue]

/-! ## Unpadding -/

theorem slice_two (hi lo : Int) (rest : List Int) (n : Int) :
    slice (hi :: lo :: rest) 2 (2 + n) = rest.take (sliceCount rest.length n) := by
  rw [slice, List.drop_take, sliceCount, List.drop_succ_cons, List.drop_succ_cons, List.drop_zero]
  congr 1
  by_cases hneg : 2 + n < 0
  · rw [if_pos hneg, if_neg (by omega), if_neg (by omega), List.length_cons, List.length_cons]
    omega
  · rw [if_neg hneg]
    split
    case isTrue => omega
    case isFalse => rw [if_pos (by omega)]; omega

theorem chrInt_eq_ok_iff {v : Int} {c : Nat} :
    chrInt v = .ok c ↔ (0 ≤ v ∧ v ≤ 0x10FFFF) ∧ c = v.toNat := by
  rw [chrInt]
  split
  case isTrue h => exact iff_of_false (fun hc => by cases hc) (fun hc => by omega)
  case isFalse =>
    split
    case isTrue h =>
      rw [chr]
      split
      case isTrue hle =>
        rw [Except.ok.injEq, eq_comm]
        exact ⟨fun hc => ⟨⟨h, by omega⟩, hc⟩, fun hc => hc.2⟩
      case isFalse hgt =>
        refine iff_of_false (fun hc => by cases hc) (fun hc => hgt ?_)
        omega
    case isFalse h => exact iff_of_false (fun hc => by cases hc) (fun hc => h hc.1.1)

theorem mapM_chrInt_eq_ok_iff {values : List Int} {out : List Nat} :
    values.mapM chrInt = .ok out ↔
      (∀ v ∈ values, 0 ≤ v ∧ v ≤ 0x10FFFF) ∧ out = values.map Int.toNat := by
  induction values generalizing out with
  | nil => simp [pure, Except.pure, eq_comm]
  | cons v values ih =>
      rw [List.mapM_cons, bind_eq_ok, List.forall_mem_cons, List.map_cons]
      constructor
      · rintro ⟨c, hc, h⟩
        obtain ⟨cs, hcs, h⟩ := bind_eq_ok.mp h
        obtain ⟨hv, rfl⟩ := chrInt_eq_ok_iff.mp hc
        obtain ⟨hvs, rfl⟩ := ih.mp hcs
        cases h
        exact ⟨⟨hv, hvs⟩, rfl⟩
      · rintro ⟨⟨hv, hvs⟩, rfl⟩
        exact ⟨_, chrInt_eq_ok_iff.mpr ⟨hv, rfl⟩, bind_eq_ok.mpr ⟨_, ih.mpr ⟨hvs, rfl⟩, rfl⟩⟩

/-- Unpadding and conversion succeed where the reading has a length. -/
theorem unpadMessageV7_mapM_eq_ok_iff {values : List Int} {out : List Nat} :
    (do (← unpadMessageV7 values).mapM chrInt) = .ok out ↔
      ∃ n, floorLength values = some n ∧ out = ((values.drop 2).take n).map Int.toNat := by
  match values with
  | [] | [_] =>
      refine iff_of_false (fun h => by cases h) ?_
      rintro ⟨n, h, -⟩
      cases h
  | hi :: lo :: rest =>
      rw [unpadMessageV7]
      dsimp only
      by_cases hbytes : hi > 0xFF ∨ lo > 0xFF
      · rw [if_pos hbytes]
        refine iff_of_false (fun h => by cases h) ?_
        rintro ⟨n, h, -⟩
        obtain ⟨hi', lo', rest', heq, hhi, hlo, -⟩ := floorLength_eq_some_iff.mp h
        cases heq
        omega
      · rw [if_neg hbytes]
        by_cases hfits : (2 : Int) + Int.lor (hi <<< 8) lo > rest.length + 2
        · rw [if_pos hfits]
          refine iff_of_false (fun h => by cases h) ?_
          rintro ⟨n, h, -⟩
          obtain ⟨hi', lo', rest', heq, -, -, hle, -⟩ := floorLength_eq_some_iff.mp h
          cases heq
          omega
        · rw [if_neg hfits, ok_bind, slice_two, mapM_chrInt_eq_ok_iff]
          constructor
          · rintro ⟨hcps, rfl⟩
            exact ⟨_, floorLength_eq_some_iff.mpr ⟨hi, lo, rest, rfl, by omega, by omega, by omega,
              rfl, hcps⟩, rfl⟩
          · rintro ⟨n, h, rfl⟩
            obtain ⟨hi', lo', rest', heq, -, -, -, rfl, hcps⟩ := floorLength_eq_some_iff.mp h
            cases heq
            exact ⟨hcps, rfl⟩

/-! ## Whole ciphertexts -/

/-- `_key_bytes` of a valid key is the serialisation of the other ports. -/
theorem keyBytes_eq_ok (h : ∀ k ∈ key, k < 2 ^ 40) : keyBytes key = .ok (Rust.keyBytes key) := by
  induction key with
  | nil => rfl
  | cons k key ih =>
      have hcons : Rust.keyBytes (k :: key) = beBytes 5 k ++ Rust.keyBytes key := by
        rw [← Rust.be5_eq]
        rfl
      rw [keyBytes, toBytes_of_lt (h k (by simp)), ok_bind, ih fun j hj => h j (by simp [hj]),
        ok_bind, hcons]
      rfl

theorem keyBytes_of_keyValid (h : KeyValid key) : keyBytes key = .ok (Rust.keyBytes key) :=
  keyBytes_eq_ok fun k hk => by
    have := h.range k hk
    omega

theorem computeAuthTagV7_append {aad : List UInt8} (haad : aad.length < 2 ^ 32)
    (hnonce : nonce.length = nonceSize) (masked : List UInt8) :
    computeAuthTag H kb aad (nonce ++ masked) aadLenWidthV7 =
      .ok (H kb (Rust.authTagInputV7 aad nonce masked)).toList := by
  rw [computeAuthTag, List.take_left' hnonce, List.drop_left' hnonce,
    toBytes_of_lt (w := aadLenWidthV7) haad]
  rfl

variable {mathSqrt : Nat → Nat}

/-- `_decrypt` and the conversion to a string, on tokens in reach of the keystream. -/
theorem decrypt_mapM_eq_ok_iff (hpy : validateKey mathSqrt key = .ok ⟨⟩) (hkey : KeyValid key)
    (hnonce : nonce.length = nonceSize) {tokens : List Nat} (hlen : tokens.length ≤ 2 ^ 40)
    {out : List Nat} :
    (do (← decrypt H noise mathSqrt nonce tokens key).mapM chrInt) = .ok out ↔
      ∃ n, floorLength ((Schedule.free (noise (Rust.keyBytes key) nonce) 0 tokens).mapIdx
          (floorValue H key (Rust.keyBytes key) nonce)) = some n ∧
        out = ((((Schedule.free (noise (Rust.keyBytes key) nonce) 0 tokens).mapIdx
          (floorValue H key (Rust.keyBytes key) nonce)).drop 2).take n).map Int.toNat := by
  have hvalid : validateNonce nonce = .ok ⟨⟩ := if_neg (not_not_intro hnonce)
  rw [decrypt, hvalid, ok_bind, hpy, ok_bind, keyBytes_of_keyValid hkey, ok_bind,
    decryptWithNoiseP, hpy, ok_bind, keyBytes_of_keyValid hkey, ok_bind,
    decryptTokensV7_eq_ok hkey (by omega) (Nat.le_refl 0), ok_bind, List.nil_append]
  simp only [Nat.zero_add]
  exact unpadMessageV7_mapM_eq_ok_iff

/-- `decrypt_bytes` on a byte string of at least a nonce and a tag. -/
theorem decryptBytes_append (hpy : validateKey mathSqrt key = .ok ⟨⟩) (hkey : KeyValid key)
    {nonce masked tag aad : List UInt8} (hnonce : nonce.length = nonceSize)
    (htag : tag.length = tagSize) (haad : aad.length < 2 ^ 32) :
    decryptBytes H noise mathSqrt (nonce ++ masked ++ tag) key aad =
      if tag = (H (Rust.keyBytes key) (Rust.authTagInputV7 aad nonce masked)).toList then (do
        let ks ← varintKeystream H (Rust.keyBytes key) nonce masked.length
        let tokens ← fixedDecodeTokens (xorBytes masked ks)
        (← decrypt H noise mathSqrt nonce tokens key).mapM chrInt)
      else valueError "Authentication failed: invalid HMAC tag." := by
  have hlong : (nonce ++ masked ++ tag).length ≥ nonceSize + tagSize := by
    rw [List.length_append, List.length_append, hnonce, htag]
    omega
  have hsplit : (nonce ++ masked ++ tag).length - tagSize = (nonce ++ masked).length := by
    rw [List.length_append, htag]
    omega
  rw [decryptBytes, hpy, ok_bind, if_pos hlong, keyBytes_of_keyValid hkey, ok_bind]
  dsimp only
  rw [hsplit, List.take_left' rfl, List.drop_left' rfl, computeAuthTagV7_append haad hnonce,
    ok_bind, List.take_left' hnonce, List.drop_left' hnonce]

/-- On an authentic ciphertext `decrypt_bytes` returns its reading. -/
theorem decryptBytes_eq_ok_iff (hpy : validateKey mathSqrt key = .ok ⟨⟩) (hkey : KeyValid key)
    {ciphertext nonce masked aad : List UInt8}
    (h : AuthenticV7 H (Rust.keyBytes key) aad ciphertext nonce masked) {out : List Nat} :
    decryptBytes H noise mathSqrt ciphertext key aad = .ok out ↔
      ∃ n, floorLength (floorValues H key (Rust.keyBytes key) nonce noise masked) = some n ∧
        out = (((floorValues H key (Rust.keyBytes key) nonce noise masked).drop 2).take n).map
          Int.toNat := by
  have hreach := h.reach
  have htag :
      (H (Rust.keyBytes key) (Rust.authTagInputV7 aad nonce masked)).toList.length = tagSize :=
    FixedBytes.length_toList _
  have hblob : (maskWith H (Rust.keyBytes key) nonce masked).length = masked.length :=
    length_maskWith H _ _ _
  have hfields : fixedDecodeTokens (maskWith H (Rust.keyBytes key) nonce masked) =
      .ok ((chunksExact 8 (masked.length / 8) (maskWith H (Rust.keyBytes key) nonce masked)).map
        beNat) := by
    rw [fixedDecodeTokens_eq_ok_iff, hblob]
    exact ⟨h.whole, rfl⟩
  rw [h.split, decryptBytes_append hpy hkey h.length_nonce htag h.aad_lt,
    if_pos rfl, varintKeystream_eq_ok H _ _ (by omega), ok_bind, ← maskWith, hfields, ok_bind]
  exact decrypt_mapM_eq_ok_iff hpy hkey h.length_nonce (by
    rw [List.length_map, length_chunksExact]
    omega)

theorem length_of_varintKeystreamLoop {len block : Nat} {out ks : List UInt8}
    (h : varintKeystreamLoop H kb nonce len out block = .ok ks) : ks.length = len := by
  induction hrest : len - out.length using Nat.strong_induction_on generalizing out block with
  | _ rest ih =>
      rw [varintKeystreamLoop] at h
      split at h
      case isTrue hlt =>
        obtain ⟨four, -, h⟩ := bind_eq_ok.mp h
        exact ih _ (by rw [List.length_append, FixedBytes.length_toList]; omega) h rfl
      case isFalse hge =>
        cases h
        rw [List.length_take]
        omega

/-- What `decrypt_bytes` accepts is a tagged sequence of whole tokens. -/
theorem exists_append_of_decryptBytes (hpy : validateKey mathSqrt key = .ok ⟨⟩)
    (hkey : KeyValid key) {ciphertext aad : List UInt8} {out : List Nat}
    (h : decryptBytes H noise mathSqrt ciphertext key aad = .ok out) :
    ∃ nonce masked, nonce.length = nonceSize ∧ aad.length < 2 ^ 32 ∧ masked.length % 8 = 0 ∧
      ciphertext =
        nonce ++ masked ++
          (H (Rust.keyBytes key) (Rust.authTagInputV7 aad nonce masked)).toList := by
  by_cases hlong : ciphertext.length ≥ nonceSize + tagSize
  · obtain ⟨nonce, masked, tag, hnonce, htag, rfl⟩ := exists_nonce_masked_tag hlong
    by_cases haad : aad.length < 2 ^ 32
    · rw [decryptBytes_append hpy hkey hnonce htag haad] at h
      split at h
      case isTrue hok =>
        obtain ⟨ks, hks, h⟩ := bind_eq_ok.mp h
        obtain ⟨tokens, htokens, -⟩ := bind_eq_ok.mp h
        refine ⟨nonce, masked, hnonce, haad, ?_, by rw [hok]⟩
        have hwhole := ((fixedDecodeTokens_eq_ok_iff _ _).mp htokens).1
        rwa [length_xorBytes, length_of_varintKeystreamLoop hks, Nat.min_self] at hwhole
      case isFalse => cases h
    · rw [decryptBytes, hpy, ok_bind, if_pos hlong, keyBytes_of_keyValid hkey, ok_bind] at h
      dsimp only at h
      rw [computeAuthTag, toBytes, if_neg (show ¬ aad.length < 256 ^ aadLenWidthV7 from haad)] at h
      cases h
  · rw [decryptBytes, hpy, ok_bind, if_neg hlong] at h
    cases h

end Napqes.Python
