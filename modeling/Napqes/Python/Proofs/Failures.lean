import Napqes.Python.Legacy
import Napqes.Python.Proofs.Varint

/-!
# Which exceptions the block decoders raise

A decoder is meant to return or to raise a `ValueError`. Step by step the other exceptions are
those of `to_bytes`, of `_b128_decode_tokens` on bytes that end inside a token, of `chr` on
integers that fit no C `int`, and of the conversion of a stored probability to a `float`.
-/

namespace Napqes.Python

/-! ## Characters -/

/-- Neither a code point nor a C `int`: the first of the values that `chr` refuses is one it
cannot convert. -/
def BreaksChr (values : List Int) : Prop :=
  ∃ front v rest, values = front ++ v :: rest ∧ (∀ w ∈ front, 0 ≤ w ∧ w ≤ 0x10FFFF) ∧
    (v < -2 ^ 31 ∨ 2 ^ 31 ≤ v)

theorem not_breaksChr_nil : ¬ BreaksChr [] := by
  rintro ⟨front, v, rest, heq, -⟩
  simp at heq

theorem breaksChr_cons_iff {v : Int} {values : List Int} :
    BreaksChr (v :: values) ↔
      (v < -2 ^ 31 ∨ 2 ^ 31 ≤ v) ∨ (0 ≤ v ∧ v ≤ 0x10FFFF) ∧ BreaksChr values := by
  constructor
  · rintro ⟨front, w, rest, heq, hfront, hw⟩
    cases front with
    | nil =>
        obtain ⟨rfl, -⟩ := List.cons.inj heq
        exact .inl hw
    | cons u front =>
        obtain ⟨rfl, rfl⟩ := List.cons.inj heq
        rw [List.forall_mem_cons] at hfront
        exact .inr ⟨hfront.1, front, w, rest, rfl, hfront.2, hw⟩
  · rintro (hv | ⟨hv, front, w, rest, rfl, hfront, hw⟩)
    · exact ⟨[], v, values, rfl, by simp, hv⟩
    · exact ⟨v :: front, w, rest, rfl, List.forall_mem_cons.mpr ⟨hv, hfront⟩, hw⟩

theorem raisesValueError_chrInt_iff {v : Int} :
    RaisesValueError (chrInt v) ↔ ¬ (v < -2 ^ 31 ∨ 2 ^ 31 ≤ v) := by
  rw [chrInt]
  split
  case isTrue h => exact iff_of_false (not_raisesValueError_overflowError _) (not_not_intro h)
  case isFalse h =>
    refine iff_of_true ?_ h
    split
    case isTrue =>
      rw [chr]
      split
      case isTrue => exact failsOnly_ok _
      case isFalse => exact raisesValueError_valueError _
    case isFalse => exact raisesValueError_valueError _

theorem raisesValueError_mapM_chrInt_iff {values : List Int} :
    RaisesValueError (values.mapM chrInt) ↔ ¬ BreaksChr values := by
  induction values with
  | nil => exact iff_of_true (failsOnly_ok _) not_breaksChr_nil
  | cons v values ih =>
      rw [List.mapM_cons, breaksChr_cons_iff, not_or, ← raisesValueError_chrInt_iff]
      apply failsOnly_bind_iff.trans
      apply and_congr_right
      intro hv
      constructor
      · rintro h ⟨hcp, hbreaks⟩
        exact ih.mp (failsOnly_bind_iff.mp (h _ (chrInt_eq_ok_iff.mpr ⟨hcp, rfl⟩))).1 hbreaks
      · intro h c hc
        apply FailsOnly.bind
        · exact ih.mpr fun hbreaks => h ⟨(chrInt_eq_ok_iff.mp hc).1, hbreaks⟩
        · intro cs hcs
          exact failsOnly_ok _

/-- What `_unpad_message` cuts out of the decoded values, where it accepts their length prefix. -/
def textValues : List Int → List Int
  | hi :: lo :: rest =>
      let n := Int.lor (hi <<< 8) lo
      if hi ≤ 0xFF ∧ lo ≤ 0xFF ∧ n ≤ rest.length then rest.take (sliceCount rest.length n) else []
  | _ => []

theorem unpadMessageV7_cases (values : List Int) :
    unpadMessageV7 values = .ok (textValues values) ∨
      ((∃ msg, unpadMessageV7 values = valueError msg) ∧ textValues values = []) := by
  match values with
  | [] | [_] => exact .inr ⟨⟨_, rfl⟩, rfl⟩
  | hi :: lo :: rest =>
      rw [unpadMessageV7, textValues]
      dsimp only
      by_cases hbytes : hi > 0xFF ∨ lo > 0xFF
      · rw [if_pos hbytes, if_neg (by omega)]
        exact .inr ⟨⟨_, rfl⟩, rfl⟩
      · rw [if_neg hbytes]
        by_cases hfits : (2 : Int) + Int.lor (hi <<< 8) lo > rest.length + 2
        · rw [if_pos hfits, if_neg (by omega)]
          exact .inr ⟨⟨_, rfl⟩, rfl⟩
        · rw [if_neg hfits, if_pos (by omega), slice_two]
          exact .inl rfl

theorem raisesValueError_unpad_iff {values : List Int} :
    RaisesValueError (do (← unpadMessageV7 values).mapM chrInt) ↔
      ¬ BreaksChr (textValues values) := by
  rcases unpadMessageV7_cases values with hok | ⟨⟨msg, herror⟩, hnil⟩
  · rw [hok]
    exact raisesValueError_mapM_chrInt_iff
  · rw [herror, hnil]
    exact iff_of_true (raisesValueError_valueError msg) not_breaksChr_nil

/-! ## Tokens -/

/-- What is recovered from the real token number `idx`, which may be negative. -/
def tokenValue (H : Hmac) (key : List Nat) (kb nonce : List UInt8) (idx : Nat)
    (token : Int) : Int :=
  (token - realAddend H key kb nonce idx) / keyElem key idx

section
variable (H : Hmac) (noise : Noise) (key : List Nat) (nonce : List UInt8)

/-- The values that the tokens at the free positions are decoded to. -/
def tokenValues (tokens : List Int) : List Int :=
  (Schedule.free (noise (Rust.keyBytes key) nonce) 0 tokens).mapIdx
    (tokenValue H key (Rust.keyBytes key) nonce)

/-- Tokens that the decoder does not come to the end of: there are more than five bytes can number,
or `chr` cannot convert what they decode to. -/
def TokensFail (tokens : List Int) : Prop :=
  2 ^ 40 < tokens.length ∨ BreaksChr (textValues (tokenValues H noise key nonce tokens))

end

variable {H : Hmac} {noise : Noise} {mathSqrt : Nat → Nat} {key : List Nat} {nonce : List UInt8}

/-- The loop divides the tokens at the free positions, as far as it can number them. -/
theorem decryptTokensInt_cases (hkey : Rust.KeyUsable key) {kb : List UInt8} {tokens : List Int}
    {pos idx : Nat} (hpos : pos ≤ 2 ^ 40) (hidx : idx ≤ pos) (acc : List Int) :
    (pos + tokens.length ≤ 2 ^ 40 ∧
      decryptTokensInt H noise key kb nonce tokens pos idx acc =
        .ok (acc ++ (Schedule.free (noise kb nonce) pos tokens).mapIdx fun i token =>
          tokenValue H key kb nonce (idx + i) token)) ∨
    (2 ^ 40 < pos + tokens.length ∧
      ∃ msg, decryptTokensInt H noise key kb nonce tokens pos idx acc =
        .error (.overflowError msg)) := by
  induction tokens generalizing pos idx acc with
  | nil =>
      left
      refine ⟨hpos, ?_⟩
      rw [decryptTokensInt, Schedule.free, List.mapIdx_nil, List.append_nil]
  | cons token tokens ih =>
      rw [List.length_cons, decryptTokensInt, isNoisePos, Schedule.free]
      by_cases hlt : pos < 2 ^ 40
      · rw [toBytes_of_lt (show pos < 256 ^ 5 from hlt), ok_bind]
        rw [show pos + (tokens.length + 1) = pos + 1 + tokens.length by omega]
        by_cases hnoise : noise kb nonce pos = true
        · rw [if_pos hnoise]
          simp only [hnoise, pure, Except.pure, ok_bind, Bool.not_true, Bool.false_eq_true,
            ↓reduceIte]
          exact ih hlt (by omega) acc
        · have hrange := hkey.keyElem_range idx
          rw [if_neg hnoise, List.mapIdx_cons]
          simp only [hnoise, pure, Except.pure, ok_bind, Bool.not_false, ↓reduceIte]
          rw [keyAt_of_ne_nil hkey.nonempty, ok_bind,
            deriveAddend_of_two_le H kb nonce hrange.1 (by omega), ok_bind, floorDiv,
            if_neg (by omega), ok_bind, Int.fdiv_eq_ediv_of_nonneg _ (by omega)]
          have hrest := ih hlt (show idx + 1 ≤ pos + 1 by omega)
            (acc ++ [tokenValue H key kb nonce idx token])
          have hshift : ∀ i, idx + 1 + i = idx + (i + 1) := fun i => by omega
          simp only [List.append_assoc, List.singleton_append, hshift] at hrest
          exact hrest
      · right
        rw [toBytes, if_neg (show ¬ pos < 256 ^ 5 from hlt)]
        exact ⟨by omega, _, rfl⟩

theorem raisesValueError_decryptWithNoiseP_iff (hpy : validateKey mathSqrt key = .ok ⟨⟩)
    {tokens : List Int} :
    RaisesValueError (do
        (← decryptWithNoisePInt H noise mathSqrt nonce tokens key).mapM chrInt) ↔
      ¬ TokensFail H noise key nonce tokens := by
  have hkey := keyUsable_of_validateKey hpy
  rw [decryptWithNoisePInt, hpy, ok_bind, keyBytes_of_validateKey hpy, ok_bind,
    TokensFail, not_or]
  rcases @decryptTokensInt_cases H noise key nonce hkey (Rust.keyBytes key) tokens 0 0
    (Nat.zero_le _) (Nat.le_refl 0) [] with ⟨hlen, hrun⟩ | ⟨hlen, msg, hrun⟩
  · rw [hrun, ok_bind, List.nil_append, raisesValueError_unpad_iff,
      and_iff_right (by omega), tokenValues]
    simp only [Nat.zero_add]
  · rw [hrun]
    exact iff_of_false (not_raisesValueError_overflowError msg) (fun h => h.1 (by omega))

/-- `_decrypt` behind a nonce of the right length is `_decrypt_with_noise_p`. -/
theorem decrypt_eq (hpy : validateKey mathSqrt key = .ok ⟨⟩) (hnonce : nonce.length = nonceSize)
    (tokens : List Nat) :
    decrypt H noise mathSqrt nonce tokens key =
      decryptWithNoisePInt H noise mathSqrt nonce (tokens.map (↑)) key := by
  have hvalid : validateNonce nonce = .ok ⟨⟩ := if_neg (not_not_intro hnonce)
  rw [decrypt, hvalid, ok_bind, hpy, ok_bind, keyBytes_of_validateKey hpy,
    ok_bind, decryptWithNoiseP, decryptWithNoisePInt]
  simp only [decryptTokensInt_map_natCast]

/-! ## LEB128 and keystream -/

/-- The bytes end inside a token: the last of them has its continuation bit set. -/
def Truncated (bs : List UInt8) : Prop := ∃ front last, bs = front ++ [last] ∧ last &&& 0x80 ≠ 0

theorem truncated_iff {bs : List UInt8} : Truncated bs ↔ (varintBytes [] bs).2 ≠ [] := by
  by_cases hnil : bs = []
  · rw [hnil]
    apply iff_of_false
    · rintro ⟨front, last, heq, -⟩
      simp at heq
    · exact not_not_intro rfl
  · rw [ne_eq, varintBytes_rest_eq_nil_iff hnil]
    constructor
    · rintro ⟨front, last, rfl, hlast⟩ ⟨front', last', heq, hlast'⟩
      obtain ⟨-, heq⟩ := List.append_inj' heq rfl
      rw [List.singleton_injective heq] at hlast
      exact hlast hlast'
    · intro h
      obtain ⟨front, last, rfl⟩ := List.eq_nil_or_concat bs |>.resolve_left hnil
      rw [List.concat_eq_append] at h ⊢
      exact ⟨front, last, rfl, fun hlast => h ⟨front, last, rfl, hlast⟩⟩

/-- The tokens that some bytes hold, as integers. -/
def varintTokens (bs : List UInt8) : List Int := (varintBytes [] bs).1.map (↑)

theorem b128DecodeTokens_cases (bs : List UInt8) :
    (¬ Truncated bs ∧ b128DecodeTokens bs = .ok (varintBytes [] bs).1) ∨
      (Truncated bs ∧ ∃ msg, b128DecodeTokens bs = .error (.indexError msg)) := by
  rw [truncated_iff, b128DecodeTokens_eq]
  by_cases h : (varintBytes [] bs).2 = []
  · exact .inl ⟨not_not_intro h, if_pos h⟩
  · exact .inr ⟨h, _, if_neg h⟩

theorem varintKeystreamLoop_eq_error {kb out : List UInt8} {len block : Nat}
    (hlen : 32 * 2 ^ 32 < len) (hout : out.length = 32 * block) (hblock : block ≤ 2 ^ 32) :
    ∃ msg, varintKeystreamLoop H kb nonce len out block = .error (.overflowError msg) := by
  induction hleft : 2 ^ 32 - block generalizing out block with
  | zero =>
      rw [varintKeystreamLoop, dif_pos (by omega), toBytes,
        if_neg (show ¬ block < 256 ^ 4 by omega)]
      exact ⟨_, rfl⟩
  | succ left ih =>
      rw [varintKeystreamLoop, dif_pos (by omega), toBytes_of_lt (show block < 256 ^ 4 by omega),
        ok_bind]
      apply ih
      · rw [List.length_append, FixedBytes.length_toList]
        omega
      · omega
      · omega

/-! ## `decrypt_bytes` -/

section
variable (H : Hmac) (noise : Noise) (key : List Nat)

/-- A v5 ciphertext of whole tokens whose decoding fails. -/
def V5Fails (ciphertext : List UInt8) : Prop :=
  16 ≤ ciphertext.length ∧ ¬ Truncated (ciphertext.drop 16) ∧
    TokensFail H noise key (ciphertext.take 16) (varintTokens (ciphertext.drop 16))

/-- What is masked in a ciphertext, between its nonce and its tag. -/
def maskedOf (ciphertext : List UInt8) : List UInt8 :=
  (ciphertext.take (ciphertext.length - 32)).drop 16

/-- The ciphertext ends with its tag. -/
def HasTag (aad ciphertext : List UInt8) : Prop :=
  48 ≤ ciphertext.length ∧
    ciphertext.drop (ciphertext.length - 32) =
      (H (Rust.keyBytes key) (Rust.authTagInputV7 aad (ciphertext.take 16)
        (maskedOf ciphertext))).toList

/-- Authentic bytes that fail nevertheless: there are more than the keystream masks, LEB128 tokens
are truncated, or their decoding fails. -/
def MaskedFails (legacyV6Varint : Bool) (nonce masked : List UInt8) : Prop :=
  let blob := maskWith H (Rust.keyBytes key) nonce masked
  32 * 2 ^ 32 < masked.length ∨
    (legacyV6Varint = true ∧
      (Truncated blob ∨ TokensFail H noise key nonce (varintTokens blob))) ∨
    (legacyV6Varint = false ∧ masked.length % 8 = 0 ∧
      TokensFail H noise key nonce
        (((chunksExact 8 (masked.length / 8) blob).map beNat).map (↑)))

/-- The ciphertexts on which `decrypt_bytes` raises something else than a `ValueError`. -/
def BytesFail (aad : List UInt8) (allowLegacyUnauthenticated legacyV6Varint : Bool)
    (ciphertext : List UInt8) : Prop :=
  (48 ≤ ciphertext.length ∧ 2 ^ 32 ≤ aad.length) ∨
    (HasTag H key aad ciphertext ∧
      MaskedFails H noise key legacyV6Varint (ciphertext.take 16) (maskedOf ciphertext)) ∨
    (¬ HasTag H key aad ciphertext ∧ allowLegacyUnauthenticated = true ∧
      V5Fails H noise key ciphertext)

end

theorem raisesValueError_decodeV5Unauth_iff (hpy : validateKey mathSqrt key = .ok ⟨⟩)
    {ciphertext : List UInt8} :
    RaisesValueError (decodeV5Unauth H noise mathSqrt ciphertext key) ↔
      ¬ V5Fails H noise key ciphertext := by
  rw [decodeV5Unauth, V5Fails]
  simp only
  by_cases hshort : ciphertext.length < nonceSize
  · have hshort' : ciphertext.length < 16 := hshort
    rw [if_pos hshort]
    exact iff_of_true (raisesValueError_valueError _) (fun h => by omega)
  · have hlong : 16 ≤ ciphertext.length := Nat.le_of_not_lt hshort
    rw [if_neg hshort, and_iff_right hlong]
    rcases b128DecodeTokens_cases (ciphertext.drop 16) with
      ⟨hwhole, htokens⟩ | ⟨htrunc, msg, htokens⟩
    · rw [show ciphertext.drop nonceSize = ciphertext.drop 16 from rfl, htokens,
        and_iff_right hwhole]
      simp only
      rw [decrypt_eq hpy (show (ciphertext.take nonceSize).length = nonceSize by
        rw [List.length_take, nonceSize]; omega)]
      exact raisesValueError_decryptWithNoiseP_iff hpy
    · rw [show ciphertext.drop nonceSize = ciphertext.drop 16 from rfl, htokens]
      exact iff_of_true (raisesValueError_valueError _) (fun h => h.1 htrunc)

/-- What `decrypt_bytes` does with an authentic ciphertext. -/
theorem raisesValueError_masked_iff (hpy : validateKey mathSqrt key = .ok ⟨⟩)
    (hnonce : nonce.length = nonceSize) {masked : List UInt8} {legacyV6Varint : Bool} :
    RaisesValueError (do
        let ks ← varintKeystream H (Rust.keyBytes key) nonce masked.length
        let tokens ← (if legacyV6Varint then b128DecodeTokens (xorBytes masked ks)
          else fixedDecodeTokens (xorBytes masked ks))
        (← decrypt H noise mathSqrt nonce tokens key).mapM chrInt) ↔
      ¬ MaskedFails H noise key legacyV6Varint nonce masked := by
  rw [MaskedFails]
  by_cases hlen : 32 * 2 ^ 32 < masked.length
  · obtain ⟨msg, herror⟩ := @varintKeystreamLoop_eq_error H nonce (Rust.keyBytes key) [] _ 0 hlen
      rfl (Nat.zero_le _)
    rw [varintKeystream, herror]
    exact iff_of_false (not_raisesValueError_overflowError msg) (not_not_intro (.inl hlen))
  · rw [varintKeystream_eq_ok H _ _ (Nat.le_of_not_lt hlen), ok_bind, ← maskWith,
      or_iff_right hlen]
    cases legacyV6Varint with
    | true =>
        rw [if_pos rfl, or_iff_left (by simp), and_iff_right rfl]
        rcases b128DecodeTokens_cases (maskWith H (Rust.keyBytes key) nonce masked) with
          ⟨hwhole, htokens⟩ | ⟨htrunc, msg, htokens⟩
        · rw [htokens, ok_bind, decrypt_eq hpy hnonce, or_iff_right hwhole]
          exact raisesValueError_decryptWithNoiseP_iff hpy
        · rw [htokens]
          exact iff_of_false failsOnly_error_iff.mp (not_not_intro (.inl htrunc))
    | false =>
        rw [if_neg (by simp), or_iff_right (by simp), and_iff_right rfl]
        by_cases hwhole : masked.length % 8 = 0
        · have htokens := (fixedDecodeTokens_eq_ok_iff
            (maskWith H (Rust.keyBytes key) nonce masked) _).mpr ⟨by rwa [length_maskWith], rfl⟩
          rw [htokens, ok_bind, decrypt_eq hpy hnonce, and_iff_right hwhole, length_maskWith]
          exact raisesValueError_decryptWithNoiseP_iff hpy
        · have hfields : fixedDecodeTokens (maskWith H (Rust.keyBytes key) nonce masked) =
              valueError _ := if_pos (by rwa [length_maskWith])
          rw [hfields]
          exact iff_of_true (raisesValueError_valueError _) (fun h => hwhole h.1)

/-- `decrypt_bytes` raises a `ValueError` or returns exactly on the ciphertexts that do not fail. -/
theorem raisesValueError_decryptBytesWith_iff (hpy : validateKey mathSqrt key = .ok ⟨⟩)
    {ciphertext aad : List UInt8} {allowLegacyUnauthenticated legacyV6Varint : Bool} :
    RaisesValueError (decryptBytesWith H noise mathSqrt ciphertext key aad
        allowLegacyUnauthenticated legacyV6Varint) ↔
      ¬ BytesFail H noise key aad allowLegacyUnauthenticated legacyV6Varint ciphertext := by
  have hv5 := @raisesValueError_decodeV5Unauth_iff H noise mathSqrt key hpy ciphertext
  rw [decryptBytesWith, hpy, ok_bind]
  by_cases hlong : ciphertext.length ≥ nonceSize + tagSize
  · have hlen : 48 ≤ ciphertext.length := hlong
    rw [if_pos hlong, keyBytes_of_validateKey hpy, ok_bind]
    dsimp only
    by_cases haad : aad.length < 2 ^ 32
    · have hnonce : (ciphertext.take 16).length = nonceSize := by
        rw [List.length_take, nonceSize]
        omega
      have hfront : (ciphertext.take (ciphertext.length - tagSize)).take nonceSize =
          ciphertext.take 16 := by
        rw [List.take_take, nonceSize, tagSize, Nat.min_eq_left (by omega)]
      have hpayload : ciphertext.take (ciphertext.length - tagSize) =
          ciphertext.take 16 ++ maskedOf ciphertext := by
        rw [← hfront]
        exact (List.take_append_drop 16 _).symm
      rw [hpayload, computeAuthTagV7_append haad hnonce, ok_bind, List.take_left' hnonce,
        List.drop_left' hnonce, BytesFail, or_iff_right (by omega)]
      by_cases htag : ciphertext.drop (ciphertext.length - tagSize) =
          (H (Rust.keyBytes key) (Rust.authTagInputV7 aad (ciphertext.take 16)
            (maskedOf ciphertext))).toList
      · have hauth : HasTag H key aad ciphertext := ⟨hlen, htag⟩
        rw [if_pos htag, or_iff_left (fun h => h.1 hauth), and_iff_right hauth]
        exact raisesValueError_masked_iff hpy hnonce
      · have hauth : ¬ HasTag H key aad ciphertext := fun h => htag h.2
        rw [if_neg htag, or_iff_right (fun h => hauth h.1), and_iff_right hauth]
        cases allowLegacyUnauthenticated with
        | true =>
            rw [if_neg (by simp), and_iff_right rfl]
            exact hv5
        | false =>
            rw [if_pos (by simp)]
            exact iff_of_true (raisesValueError_valueError _) (by simp)
    · rw [computeAuthTag, toBytes_of_not_lt haad]
      apply iff_of_false (not_raisesValueError_overflowError _)
      exact not_not_intro (.inl ⟨hlen, Nat.le_of_not_lt haad⟩)
  · have hshort : ¬ 48 ≤ ciphertext.length := hlong
    have hauth : ¬ HasTag H key aad ciphertext := fun h => hshort h.1
    rw [if_neg hlong, BytesFail, or_iff_right (fun h => hshort h.1),
      or_iff_right (fun h => hauth h.1), and_iff_right hauth]
    cases allowLegacyUnauthenticated with
    | true =>
        rw [if_pos rfl, and_iff_right rfl]
        exact hv5
    | false =>
        rw [if_neg (by simp)]
        exact iff_of_true (raisesValueError_valueError _) (by simp)

/-! ## `decrypt_str` -/

theorem raisesValueError_bytesFromHex (s : List Nat) : RaisesValueError (bytesFromHex s) := by
  induction s using bytesFromHex.induct with
  | case1 => exact failsOnly_ok _
  | case2 c hspace =>
      rw [bytesFromHex, if_pos hspace]
      exact failsOnly_ok _
  | case3 c hspace =>
      rw [bytesFromHex, if_neg hspace]
      exact raisesValueError_valueError _
  | case4 c c' s hspace ih =>
      rw [bytesFromHex, if_pos hspace]
      exact ih
  | case5 c c' s hspace hi lo hhi hlo ih =>
      rw [bytesFromHex, if_neg hspace, hhi, hlo]
      apply ih.bind
      intro bs hbs
      exact failsOnly_ok _
  | case6 c c' s hspace hnone =>
      rw [bytesFromHex, if_neg hspace]
      split
      case h_1 hi lo hhi hlo => exact absurd hlo (hnone hi lo hhi)
      case h_2 => exact raisesValueError_valueError _

theorem raisesValueError_a2bBase64Loop (s : List Nat) (quadPos leftchar pads : Nat)
    (out : List UInt8) : RaisesValueError (a2bBase64Loop s quadPos leftchar pads out) := by
  induction s generalizing quadPos leftchar pads out with
  | nil =>
      rw [a2bBase64Loop]
      split
      · exact failsOnly_ok _
      · split
        · exact raisesValueError_valueError _
        · exact raisesValueError_valueError _
  | cons c s ih =>
      rw [a2bBase64Loop]
      split
      · split
        · split
          · exact failsOnly_ok _
          · exact ih _ _ _ _
        · exact ih _ _ _ _
      · split
        · exact ih _ _ _ _
        · split
          · exact ih _ _ _ _
          · split
            · exact ih _ _ _ _
            · split
              · exact ih _ _ _ _
              · exact ih _ _ _ _

theorem raisesValueError_b64decode (s : List Nat) : RaisesValueError (b64decode s) := by
  rw [b64decode]
  split
  · exact raisesValueError_a2bBase64Loop s 0 0 0 []
  · exact raisesValueError_valueError _

theorem raisesValueError_intOfStr (U : UnicodeTables) (base : Nat) (s : List Nat) :
    RaisesValueError (intOfStr U base s) := by
  simp only [intOfStr]
  generalize scanDigits base 0 0 false _ = digits
  cases digits with
  | none => exact raisesValueError_valueError _
  | some p =>
      simp only
      split
      · exact raisesValueError_valueError _
      · exact failsOnly_ok _

section
variable (H : Hmac) (key : List Nat) (U : UnicodeTables)

/-- The token field of a v2 or v3 text whose decoding fails: the tokens are spelled well, and as
LEB128 they may be truncated. -/
def FieldFails (noise : Noise) (nonce : List UInt8) (tokenField : List Nat) : Prop :=
  (0x20 ∈ tokenField ∧ ∃ tokens, (splitSpace U tokenField).mapM (intOfStr U 10) = .ok tokens ∧
    TokensFail H noise key nonce tokens) ∨
  (0x20 ∉ tokenField ∧ ∃ bs, bytesFromHex tokenField = .ok bs ∧
    (Truncated bs ∨ TokensFail H noise key nonce (varintTokens bs)))

/-- A v2 or v3 text that fails: its three fields are there and spelled well, and the probability
has no `float`, or the token field fails. -/
def LegacyFails (legacyNoise : Int → Noise) (cypher : List Nat) : Prop :=
  ∃ nonceHex noisePHex tokenField nonce n,
    splitSep 0x3A 2 cypher = [nonceHex, noisePHex, tokenField] ∧
    bytesFromHex nonceHex = .ok nonce ∧ intOfStr U 16 noisePHex = .ok n ∧
    (2 ^ 1024 - 2 ^ 970 ≤ n.natAbs ∨ FieldFails H key U (legacyNoise n) nonce tokenField)

/-- The texts on which `decrypt_str` raises something else than a `ValueError`. -/
def StrFails (noise : Noise) (legacyNoise : Int → Noise) (aad : List UInt8)
    (allowLegacyUnauthenticated legacyV6Varint : Bool) (cypher : List Nat) : Prop :=
  (0x3A ∉ cypher ∧ ∃ ciphertext, b64decode cypher = .ok ciphertext ∧
    BytesFail H noise key aad allowLegacyUnauthenticated legacyV6Varint ciphertext) ∨
  (0x3A ∈ cypher ∧ allowLegacyUnauthenticated = true ∧ LegacyFails H key U legacyNoise cypher)

end

variable {U : UnicodeTables}

/-- The fields of a text are spelled in one way only. -/
theorem legacyFails_iff {legacyNoise : Int → Noise}
    {cypher nonceHex noisePHex tokenField : List Nat} {n : Int}
    (hfields : splitSep 0x3A 2 cypher = [nonceHex, noisePHex, tokenField])
    (hnonce : bytesFromHex nonceHex = .ok nonce) (hn : intOfStr U 16 noisePHex = .ok n) :
    LegacyFails H key U legacyNoise cypher ↔
      2 ^ 1024 - 2 ^ 970 ≤ n.natAbs ∨ FieldFails H key U (legacyNoise n) nonce tokenField := by
  constructor
  · rintro ⟨_, _, _, nonce', n', heq, hnonce', hn', h⟩
    rw [hfields] at heq
    cases heq
    obtain rfl := Except.ok.inj (hnonce.symm.trans hnonce')
    obtain rfl := Except.ok.inj (hn.symm.trans hn')
    exact h
  · intro h
    exact ⟨nonceHex, noisePHex, tokenField, nonce, n, hfields, hnonce, hn, h⟩

theorem floatOfInt_cases (n : Int) :
    (¬ 2 ^ 1024 - 2 ^ 970 ≤ n.natAbs ∧ floatOfInt n = .ok n) ∨
      (2 ^ 1024 - 2 ^ 970 ≤ n.natAbs ∧ ∃ msg, floatOfInt n = .error (.overflowError msg)) := by
  rw [floatOfInt]
  split
  case isTrue h => exact .inl ⟨Nat.not_le_of_lt h, rfl⟩
  case isFalse h => exact .inr ⟨Nat.le_of_not_lt h, _, rfl⟩

/-- The end of `decrypt_str` on the token field of a v2 or v3 text. -/
theorem raisesValueError_field_iff (hpy : validateKey mathSqrt key = .ok ⟨⟩)
    {tokenField : List Nat} :
    RaisesValueError (do
        let tokens ← (if 0x20 ∈ tokenField then (splitSpace U tokenField).mapM (intOfStr U 10)
          else do return (← b128DecodeTokens (← bytesFromHex tokenField)).map (↑))
        (← decryptWithNoisePInt H noise mathSqrt nonce tokens key).mapM chrInt) ↔
      ¬ FieldFails H key U noise nonce tokenField := by
  rw [FieldFails]
  by_cases hspace : 0x20 ∈ tokenField
  · rw [if_pos hspace, and_iff_right hspace, or_iff_left (fun h => h.1 hspace)]
    have hints := FailsOnly.mapM fun s (_ : s ∈ splitSpace U tokenField) =>
      raisesValueError_intOfStr U 10 s
    cases htokens : (splitSpace U tokenField).mapM (intOfStr U 10) with
    | error e =>
        refine iff_of_true (failsOnly_error_iff.mpr (hints e htokens)) ?_
        rintro ⟨tokens, hok, -⟩
        cases hok
    | ok tokens =>
        rw [ok_bind, raisesValueError_decryptWithNoiseP_iff hpy]
        simp
  · rw [if_neg hspace, and_iff_right hspace, or_iff_right (fun h => hspace h.1)]
    have hhex := raisesValueError_bytesFromHex tokenField
    cases hbs : bytesFromHex tokenField with
    | error e =>
        refine iff_of_true (failsOnly_error_iff.mpr (hhex e hbs)) ?_
        rintro ⟨bs, hok, -⟩
        cases hok
    | ok bs =>
        rw [ok_bind]
        rcases b128DecodeTokens_cases bs with ⟨hwhole, htokens⟩ | ⟨htrunc, msg, htokens⟩
        · rw [htokens]
          simp only [ok_bind, pure, Except.pure]
          rw [raisesValueError_decryptWithNoiseP_iff hpy]
          simp [hwhole, varintTokens]
        · rw [htokens]
          refine iff_of_false failsOnly_error_iff.mp ?_
          simp [htrunc]

/-- `decrypt_str` raises a `ValueError` or returns exactly on the texts that do not fail. -/
theorem raisesValueError_decryptStr_iff (hpy : validateKey mathSqrt key = .ok ⟨⟩)
    {legacyNoise : Int → Noise} {aad : List UInt8} {cypher : List Nat}
    {allowLegacyUnauthenticated legacyV6Varint : Bool} :
    RaisesValueError (decryptStr H noise mathSqrt U legacyNoise cypher key aad
        allowLegacyUnauthenticated legacyV6Varint) ↔
      ¬ StrFails H key U noise legacyNoise aad allowLegacyUnauthenticated legacyV6Varint
        cypher := by
  rw [decryptStr, StrFails]
  by_cases hcolon : 0x3A ∈ cypher
  · rw [if_neg (not_not_intro hcolon), and_iff_right hcolon, or_iff_right (fun h => h.1 hcolon)]
    cases allowLegacyUnauthenticated with
    | false =>
        rw [if_pos (by simp)]
        exact iff_of_true (raisesValueError_valueError _) (by simp)
    | true =>
        rw [if_neg (by simp), and_iff_right rfl]
        split
        case h_1 nonceHex noisePHex tokenField hfields =>
          have hhex := raisesValueError_bytesFromHex nonceHex
          have hint := raisesValueError_intOfStr U 16 noisePHex
          cases hnonce : bytesFromHex nonceHex with
          | error e =>
              refine iff_of_true (failsOnly_error_iff.mpr (hhex e hnonce)) ?_
              rintro ⟨_, _, _, nonce, n, heq, hok, -⟩
              rw [hfields] at heq
              cases heq
              rw [hnonce] at hok
              cases hok
          | ok nonce =>
              rw [ok_bind]
              cases hn : intOfStr U 16 noisePHex with
              | error e =>
                  refine iff_of_true (failsOnly_error_iff.mpr (hint e hn)) ?_
                  rintro ⟨_, _, _, nonce, n, heq, -, hok, -⟩
                  rw [hfields] at heq
                  cases heq
                  rw [hn] at hok
                  cases hok
              | ok n =>
                  rw [ok_bind]
                  rw [legacyFails_iff hfields hnonce hn]
                  rcases floatOfInt_cases n with ⟨hsmall, hfloat⟩ | ⟨hlarge, msg, hfloat⟩
                  · rw [hfloat, ok_bind, or_iff_right hsmall]
                    exact raisesValueError_field_iff hpy
                  · rw [hfloat]
                    exact iff_of_false (not_raisesValueError_overflowError msg)
                      (not_not_intro (.inl hlarge))
        case h_2 hfields =>
          refine iff_of_true (raisesValueError_valueError _) ?_
          rintro ⟨nonceHex, noisePHex, tokenField, nonce, n, heq, -⟩
          exact hfields nonceHex noisePHex tokenField heq
  · rw [if_pos hcolon, and_iff_right hcolon, or_iff_left (fun h => hcolon h.1)]
    have hdecode := raisesValueError_b64decode cypher
    cases hct : b64decode cypher with
    | error e =>
        refine iff_of_true (failsOnly_error_iff.mpr (hdecode e hct)) ?_
        rintro ⟨ciphertext, hok, -⟩
        cases hok
    | ok ciphertext =>
        rw [ok_bind, raisesValueError_decryptBytesWith_iff hpy]
        simp

end Napqes.Python
