import Mathlib.Data.List.TakeWhile
import Napqes.C.Proofs.Stream

/-!
# The C block decryptor and what its caller receives

`napqes_decrypt_bytes_v8` returns a pointer without a length: its caller receives the bytes up to
the first `NUL`. The decryptor refuses codepoints that are no bytes, but not the codepoint 0.
-/

namespace Napqes.C

open Rust (hmacVerify authTagInput ReachableBlock)

variable {H : Hmac} {primes : List UInt64} {skFmt aad : List UInt8}

/-- What the caller of a decryptor receives: the bytes before the first `NUL`. -/
def cString (buffer : List UInt8) : List UInt8 := buffer.takeWhile (· != 0)

/-- The test on the recovered count admits the reachable block sizes. -/
theorem legalRealCount_of_reachable {b : Nat} (hb : ReachableBlock b) :
    legalRealCount (b + 2) = true := by
  obtain ⟨e, hlo, hhi, rfl⟩ := hb
  rw [legalRealCount, decide_eq_true_eq]
  refine ⟨Nat.le_add_left 2 _, List.any_eq_true.mpr ⟨e, ?_, ?_⟩⟩
  · rw [List.mem_range'_1]
    simp only [padMinExp, padMaxExp, Rust.padMinExp, Rust.padMaxExp] at *
    omega
  · rw [Nat.add_sub_cancel, Nat.one_shiftLeft, beq_self_eq_true]

/-- The core returns what a body of a reachable block size opens to, unpadded. -/
theorem decryptCoreV8_of_opens (hkey : KeyValid (primesNat primes)) {nonce body : List UInt8}
    {b : Nat} {cps out : List Nat} (hb : ReachableBlock b) (hlen : body.length = (b + 2) * 160)
    (hopen : openTokens H skFmt nonce (primesNat primes) body (b + 2) = some cps)
    (hout : Rust.unpadMessage cps = .ok out) :
    decryptCoreV8 H (maskWith H skFmt nonce body) nonce primes skFmt = .ok out := by
  have hne := length_primes_ne_zero hkey
  have htokens : (maskWith H skFmt nonce body).length / tokenWidth = (b + 2) * 20 := by
    rw [length_maskWith, hlen, tokenWidth]
    omega
  have hread : readTokensV8 H primes skFmt nonce (deriveNoiseThresholdV8 H skFmt nonce)
      (maskWith H skFmt nonce body) ((b + 2) * 20) (b + 2) 0 0 [] = .ok cps := by
    have h := readTokensV8_eq H skFmt nonce hkey (maskWith H skFmt nonce body) (b + 2) 0 0 []
      (Nat.zero_le _)
    have hdecode : Schedule.decode (noiseAt H skFmt nonce) noiseCap
        (recoverToken H (primesNat primes) skFmt nonce) (blobTokens (maskWith H skFmt nonce body))
        (b + 2) 0 0 = some cps := by
      rw [openTokens, readTokens] at hopen
      rw [blobTokens, length_maskWith]
      exact hopen
    rw [hdecode, Nat.zero_add, show (maskWith H skFmt nonce body).length / 8 = (b + 2) * 20 from
      htokens] at h
    exact h
  rw [decryptCoreV8, if_neg hne, if_neg (by rw [length_maskWith, hlen, tokenWidth]; omega)]
  dsimp only
  rw [htokens, if_neg (by rw [maxNoiseRun]; omega),
    show (b + 2) * 20 / (maxNoiseRun + 1) = b + 2 by rw [maxNoiseRun]; omega,
    legalRealCount_of_reachable hb, hread]
  simp only [Bool.not_true, Bool.false_eq_true, ↓reduceIte, ok_bind]
  -- The core reads the length prefix as `unpad_message` does.
  cases cps with
  | nil => cases hout
  | cons hi rest =>
      cases rest with
      | nil => cases hout
      | cons lo rest =>
          rw [Rust.unpadMessage] at hout
          dsimp only at hout ⊢
          split at hout
          case isTrue => cases hout
          case isFalse hbytes =>
            split at hout
            case isTrue => cases hout
            case isFalse hfits =>
              rw [if_neg hbytes, if_neg hfits]
              cases hout
              rfl

/-- On a ciphertext that opens, the decryptor writes out what it opens to. -/
theorem napqesDecryptBytesV8_of_opens (hkey : KeyValid (primesNat primes))
    {sk : FixedBytes skSize} {ciphertext : List UInt8} {out : List Nat}
    (h : BlockOpensTo H (primesNat primes) (Rust.deriveFormatSubkey H sk Rust.formatBlockV8).toList
      (hmacVerify H) aad ciphertext out) :
    napqesDecryptBytesV8 H ciphertext primes sk aad = writeChars out := by
  obtain ⟨nonce, body, tag, b, cps, hopen⟩ := h
  have hvalid : ¬ (!validateKey primes) = true := by simp [(validateKey_iff primes).mpr hkey]
  have hnonce := hopen.length_nonce
  have htag := hopen.length_tag
  have hlen : ciphertext.length = 16 + (b + 2) * 160 + 32 := by
    rw [hopen.split, List.length_append, List.length_append, hnonce, htag, hopen.length_body]
  obtain ⟨e, -, hhi, hbe⟩ := hopen.reachable
  have hble : b ≤ 2 ^ 16 := by
    rw [hbe]
    exact Nat.pow_le_pow_right (by decide) hhi
  obtain ⟨ks, hks, hmask⟩ := exists_varintKeystreamAlloc H
    (Rust.deriveFormatSubkey H sk Rust.formatBlockV8).toList nonce body
    (by rw [hopen.length_body]; omega)
  have hpayload : ciphertext.length - tagSize = (nonce ++ body).length := by
    rw [hlen, List.length_append, hnonce, hopen.length_body, tagSize]
    omega
  have hauth : computeAuthTag H (Rust.deriveFormatSubkey H sk Rust.formatBlockV8).toList aad
      (nonce ++ body) aadLenWidthV8 =
        H (Rust.deriveFormatSubkey H sk Rust.formatBlockV8).toList
          (authTagInput aad nonce body) := by
    rw [computeAuthTag, List.take_left' hnonce, List.drop_left' hnonce, beLenPrefix_eq]
    rfl
  rw [napqesDecryptBytesV8, if_neg hvalid, if_neg (by rw [hlen, nonceSize, tagSize]; omega),
    if_neg (by rw [hlen, nonceSize, tagSize, tokenWidth, maxNoiseRun]; omega)]
  dsimp only
  rw [hpayload, hopen.split, List.take_left' rfl, List.drop_left' rfl, deriveFormatSubkey_block,
    hauth, constantTimeEq_tag htag, hopen.tag_ok]
  simp only [Bool.not_true, Bool.false_eq_true, ↓reduceIte]
  rw [List.append_assoc, List.take_left' hnonce, List.drop_left' hnonce, hks, ok_bind, hmask,
    decryptCoreV8_of_opens hkey hopen.reachable hopen.length_body hopen.opened hopen.unpadded,
    ok_bind]

/-- The caller receives the codepoints that were written, unless one of them is 0. -/
theorem cString_map_ofNat_iff {cps : List Nat} (hbytes : ∀ c ∈ cps, c ≤ 0xFF) :
    (cString (cps.map UInt8.ofNat ++ [0])).map UInt8.toNat = cps ↔ ∀ c ∈ cps, c ≠ 0 := by
  constructor
  · intro h c hc hzero
    rw [← h] at hc
    obtain ⟨x, hx, rfl⟩ := List.mem_map.mp hc
    have hne := List.mem_takeWhile_imp hx
    rw [show x = 0 from UInt8.toNat_inj.mp hzero] at hne
    cases hne
  · intro h
    have hall : ∀ x ∈ cps.map UInt8.ofNat, (x != 0) = true := by
      intro x hx
      obtain ⟨c, hc, rfl⟩ := List.mem_map.mp hx
      rw [bne_iff_ne]
      intro hzero
      have hmod := congrArg UInt8.toNat hzero
      rw [UInt8.toNat_ofNat', Nat.mod_eq_of_lt (by have := hbytes c hc; omega)] at hmod
      exact h c hc hmod
    rw [cString, List.takeWhile_append_of_pos hall]
    simp only [bne_self_eq_false, Bool.false_eq_true, not_false_eq_true, List.takeWhile_cons_of_neg,
      List.append_nil]
    exact map_toNat_map_ofNat hbytes

end Napqes.C
