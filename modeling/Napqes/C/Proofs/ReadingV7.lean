import Napqes.C.Proofs.BlockV7
import Napqes.Format.BlockV7

/-!
# What `napqes_decrypt_bytes` reads out of a v7 block

The C decoder writes the low bytes of `wordValues` as far as `wordLength` goes. Its caller receives
them up to the first zero byte.
-/

namespace Napqes.C

variable {H : Hmac} {noise : Rust.Noise} {key : List UInt64} {kb nonce aad : List UInt8}

theorem keyBytes_eq (key : List UInt64) : keyBytes key = Rust.keyBytes (primesNat key) := by
  rw [keyBytes, Rust.keyBytes, primesNat, List.flatMap_map]
  simp only [be5Write_eq, ← Rust.be5_eq]
  rfl

theorem computeAuthTagV7_append {nonce : List UInt8} (hnonce : nonce.length = nonceSize)
    (masked : List UInt8) :
    computeAuthTag H kb aad (nonce ++ masked) aadLenWidthV7 =
      H kb (Rust.authTagInputV7 aad nonce masked) := by
  rw [computeAuthTag, List.take_left' hnonce, List.drop_left' hnonce, beLenPrefix_eq]
  rfl

/-- The loop divides the tokens at the free positions. -/
theorem decryptTokensV7_eq_ok (hkey : KeyValid (primesNat key)) {tokens : List Nat} {pos : Nat}
    (hpos : pos + tokens.length ≤ 2 ^ 40) (idx : Nat) (acc : List Nat) :
    decryptTokensV7 H noise key kb nonce tokens pos idx acc =
      .ok (acc ++ (Schedule.free (noise kb nonce) pos tokens).mapIdx fun i t =>
        wordValue H (primesNat key) kb nonce (idx + i) t) := by
  induction tokens generalizing pos idx acc with
  | nil => rw [decryptTokensV7, Schedule.free, List.mapIdx_nil, List.append_nil]; rfl
  | cons token tokens ih =>
      rw [List.length_cons] at hpos
      rw [decryptTokensV7, isNoisePos, Nat.mod_eq_of_lt (by omega), Schedule.free]
      by_cases hnoise : noise kb nonce pos = true
      · rw [if_neg (by simp [hnoise]), if_pos hnoise]
        exact ih (by omega) idx acc
      · have hrange := keyElem_range hkey idx
        rw [if_pos (by simp [hnoise]), if_neg hnoise, List.mapIdx_cons, keyAt_eq_ok hkey, ok_bind,
          deriveAddend_eq_ok H kb nonce hkey, ok_bind, recoverV7, if_neg (by omega), ok_bind,
          ih (by omega), List.append_assoc]
        simp only [List.cons_append, List.nil_append, Nat.add_zero, Nat.add_assoc, Nat.add_comm 1,
          wordValue]

theorem unpadV7_eq_ok_iff {words out : List Nat} :
    unpadV7 words = .ok out ↔ ∃ m, wordLength words = some m ∧ out = (words.drop 2).take m := by
  match words with
  | [] | [_] =>
      refine iff_of_false (fun h => by cases h) ?_
      rintro ⟨m, h, -⟩
      cases h
  | hi :: lo :: rest =>
      rw [unpadV7]
      by_cases hfits : 2 + (hi <<< 8 ||| lo) > rest.length + 2
      · rw [if_pos hfits]
        refine iff_of_false (fun h => by cases h) ?_
        rintro ⟨m, h, -⟩
        obtain ⟨hi', lo', rest', heq, rfl, hle⟩ := wordLength_eq_some_iff.mp h
        cases heq
        omega
      · rw [if_neg hfits, Except.ok.injEq, eq_comm]
        constructor
        · rintro rfl
          exact ⟨_, wordLength_eq_some_iff.mpr ⟨hi, lo, rest, rfl, rfl, by omega⟩, rfl⟩
        · rintro ⟨m, h, rfl⟩
          obtain ⟨hi', lo', rest', heq, rfl, -⟩ := wordLength_eq_some_iff.mp h
          cases heq
          rfl

/-- On an authentic ciphertext the decryptor writes out its reading. -/
theorem napqesDecryptBytes_eq_ok_iff (hkey : KeyValid (primesNat key))
    {ciphertext nonce masked : List UInt8}
    (h : AuthenticV7 H (Rust.keyBytes (primesNat key)) aad ciphertext nonce masked)
    {buf : List UInt8} :
    napqesDecryptBytes H noise ciphertext key aad = .ok buf ↔
      ∃ m, wordLength (wordValues H (primesNat key) (Rust.keyBytes (primesNat key)) nonce noise
          masked) = some m ∧
        buf = (((wordValues H (primesNat key) (Rust.keyBytes (primesNat key)) nonce noise
          masked).drop 2).take m).map lowByte ++ [0] := by
  have hreach := h.reach
  have hblob : (maskWith H (Rust.keyBytes (primesNat key)) nonce masked).length = masked.length :=
    length_maskWith H _ _ _
  have hcore : decryptCore H noise (maskWith H (Rust.keyBytes (primesNat key)) nonce masked) nonce
      key = unpadV7 (wordValues H (primesNat key) (Rust.keyBytes (primesNat key)) nonce noise
        masked) := by
    rw [decryptCore, if_neg (length_primes_ne_zero hkey),
      if_neg (by rw [hblob, tokenWidth]; exact not_not_intro h.whole)]
    dsimp only
    rw [map_fixedDecode_range, keyBytes_eq,
      decryptTokensV7_eq_ok hkey (by rw [length_blobTokens, hblob]; omega), ok_bind,
      List.nil_append]
    simp only [Nat.zero_add]
    rw [wordValues, realTokens, blobTokens, hblob]
  rw [h.split, napqesDecryptBytes_append h.length_nonce (FixedBytes.length_toList _), keyBytes_eq,
    computeAuthTagV7_append h.length_nonce, if_pos rfl, if_pos hreach, hcore, bind_eq_ok]
  constructor
  · rintro ⟨cps, hcps, hbuf⟩
    obtain ⟨m, hm, rfl⟩ := unpadV7_eq_ok_iff.mp hcps
    cases hbuf
    exact ⟨m, hm, rfl⟩
  · rintro ⟨m, hm, rfl⟩
    exact ⟨_, unpadV7_eq_ok_iff.mpr ⟨m, hm, rfl⟩, rfl⟩

/-- The decryptor comes to an end only within the reach of its keystream. -/
theorem reach_of_napqesDecryptBytes {nonce masked tag buf : List UInt8}
    (hnonce : nonce.length = nonceSize) (htag : tag.length = tagSize)
    (h : napqesDecryptBytes H noise (nonce ++ masked ++ tag) key aad = .ok buf) :
    masked.length ≤ 32 * (2 ^ 32 - 1) := by
  rw [napqesDecryptBytes_append hnonce htag] at h
  split at h
  case isTrue =>
    split at h
    case isTrue hreach => exact hreach
    case isFalse => cases h
  case isFalse => cases h

/-! ## What the caller receives -/

theorem toNat_lowByte (v : Nat) : (lowByte v).toNat = v % 256 := by
  rw [lowByte_eq, UInt8.toNat_ofNat']

theorem lowByte_eq_zero_iff (v : Nat) : lowByte v = 0 ↔ v % 256 = 0 := by
  rw [← UInt8.toNat_inj, toNat_lowByte]
  rfl

theorem cString_cons (b : UInt8) (bs : List UInt8) :
    cString (b :: bs) = if b = 0 then [] else b :: cString bs := by
  rw [cString, List.takeWhile_cons]
  by_cases hb : b = 0 <;> simp [hb, cString]

/-- The caller receives the first `n` of the values that were written as `m` low bytes exactly when
these are non-zero bytes and a zero byte, or the end, comes behind them. -/
theorem cString_map_lowByte_iff {words : List Nat} {n m : Nat} (hn : n ≤ words.length)
    (hm : m ≤ words.length) :
    (cString ((words.take m).map lowByte ++ [0])).map UInt8.toNat = words.take n ↔
      (∀ w ∈ words.take n, 1 ≤ w ∧ w ≤ 0xFF) ∧ n ≤ m ∧
        (n < m → ∀ w, words[n]? = some w → w % 256 = 0) := by
  induction words generalizing n m with
  | nil =>
      rw [List.length_nil, Nat.le_zero] at hn hm
      simp [hn, hm, cString]
  | cons w words ih =>
      cases m with
      | zero =>
          cases n with
          | zero => simp [cString]
          | succ n => simp [cString]
      | succ m =>
          rw [List.take_succ_cons, List.map_cons, List.cons_append, cString_cons]
          cases n with
          | zero =>
              by_cases hw : lowByte w = 0
              · rw [if_pos hw]
                simp [(lowByte_eq_zero_iff w).mp hw]
              · rw [if_neg hw]
                simp [mt (lowByte_eq_zero_iff w).mpr hw]
          | succ n =>
              have ih := ih (Nat.le_of_succ_le_succ hn) (Nat.le_of_succ_le_succ hm)
              rw [List.take_succ_cons, List.forall_mem_cons, List.getElem?_cons_succ,
                Nat.succ_le_succ_iff, Nat.succ_lt_succ_iff]
              by_cases hw : lowByte w = 0
              · have hzero := (lowByte_eq_zero_iff w).mp hw
                rw [if_pos hw]
                refine iff_of_false (fun h => by cases h) (fun h => ?_)
                omega
              · have hne := mt (lowByte_eq_zero_iff w).mpr hw
                rw [if_neg hw, List.map_cons, List.cons.injEq, toNat_lowByte, ih]
                constructor
                · rintro ⟨hbyte, hrest, hle⟩
                  exact ⟨⟨by omega, hrest⟩, hle⟩
                · rintro ⟨⟨hbyte, hrest⟩, hle⟩
                  exact ⟨by omega, hrest, hle⟩

end Napqes.C
