import Napqes.C.Key
import Napqes.C.Tokens
import Napqes.Format.Tokens

/-!
# The C token layer computes the format

The derivations of the C port are those of the format, and for a key that passed `validate_key`
each loop is the schedule of `Napqes.Format.Tokens`. No step has an undefined result, and the
keystream loop ends below its 32-bit counter.
-/

namespace Napqes.C

open Rust (addendVal addendInput noiseAddendInput keystreamInput)

variable (H : Hmac) {primes : List UInt64} (skFmt nonce : List UInt8)

/-! ## Derivations -/

theorem u32FromBe4_digest (d : FixedBytes 32) : u32FromBe4 d.toList = Rust.u32FromBe4 d.toList :=
  u32FromBe4_eq (by rw [d.length_toList]; decide)

theorem deriveNoiseChar_eq (pos : Nat) :
    deriveNoiseChar H skFmt nonce pos = Rust.deriveNoiseChar H skFmt nonce pos := by
  rw [deriveNoiseChar, u32FromBe4_digest, hmacWithSep, be5Write_eq, Rust.deriveNoiseChar,
    Rust.noiseCharInput, Rust.be5_eq]
  rfl

theorem derivePadChar_eq (i : Nat) :
    derivePadChar H skFmt nonce i = Rust.derivePadChar H skFmt nonce i := by
  rw [derivePadChar, u32FromBe4_digest, hmacWithSep, be4Write_eq]
  rfl

/-- The two constants are the rounded fractions of `2^64` the other ports compute. -/
theorem deriveNoiseThresholdV8_eq :
    deriveNoiseThresholdV8 H skFmt nonce = Rust.deriveNoiseThresholdV8 H skFmt nonce := by
  have hmin : thetaMin = Rust.thetaMin := by decide
  have hmax : thetaMax = Rust.thetaMax := by decide
  rw [deriveNoiseThresholdV8, hmin, hmax, mulhi64, u64FromBe8_eq, hmacWithSep, List.append_nil]
  rfl

/-- The noise decision is the one of the format. -/
theorem isNoisePosV8_eq (pos : Nat) :
    isNoisePosV8 H skFmt nonce pos (deriveNoiseThresholdV8 H skFmt nonce) =
      noiseAt H skFmt nonce pos := by
  rw [deriveNoiseThresholdV8_eq, isNoisePosV8, u64FromBe8_eq, hmacWithSep, be5Write_eq, noiseAt,
    Rust.isNoisePosV8, Rust.noisePosInput, Rust.be5_eq]
  rfl

/-- Only the element 1 leaves the addend undefined: for 0 the divisor wraps to `2^64 - 1`. -/
theorem addendOf_eq_ok (d : FixedBytes 32) {k : Nat} (hk : k ≠ 1) (hlt : k < 2 ^ 64) :
    addendOf d.toList k = .ok (addendVal d.toList k) := by
  rw [addendOf, if_neg hk, u32FromBe4_digest, addendVal]
  by_cases hzero : k = 0
  · have hword := Rust.u32FromBe4_lt d.toList
    rw [hzero, show (0 + 2 ^ 64 - 1) % 2 ^ 64 = 2 ^ 64 - 1 by decide, Nat.zero_sub, Nat.mod_zero,
      Nat.mod_eq_of_lt (Nat.lt_trans hword (by decide))]
  · rw [show (k + 2 ^ 64 - 1) % 2 ^ 64 = k - 1 by omega]

theorem keyElem_lt (primes : List UInt64) (i : Nat) : keyElem (primesNat primes) i < 2 ^ 64 := by
  rw [keyElem, primesNat, List.getElem?_map]
  cases primes[i % (primes.map UInt64.toNat).length]? with
  | none => decide
  | some k => exact k.toNat_lt

theorem keyAt_of_ne_nil (h : primes ≠ []) (i : Nat) :
    keyAt primes i = .ok (keyElem (primesNat primes) i) := by
  have hget := @getElem?_keyElem (primesNat primes) (by simpa [primesNat] using h) i
  simp only [primesNat, List.length_map, List.getElem?_map, Option.map_eq_some_iff] at hget
  obtain ⟨k, hk, helem⟩ := hget
  rw [keyAt, hk]
  exact congrArg Except.ok helem

theorem deriveAddend_of_ne_one {idx : Nat} (h : keyElem (primesNat primes) idx ≠ 1) :
    deriveAddend H skFmt nonce idx (keyElem (primesNat primes) idx) =
      .ok (realAddend H (primesNat primes) skFmt nonce idx) := by
  rw [deriveAddend, addendOf_eq_ok _ h (keyElem_lt primes idx), hmacWithSep, be5Write_eq,
    realAddend, addendInput, Rust.be5_eq]

theorem noiseTokenBytes_of_ne_one {idx : Nat} (h : keyElem (primesNat primes) idx ≠ 1)
    (pos : Nat) :
    noiseTokenBytes H skFmt nonce pos (keyElem (primesNat primes) idx) =
      .ok (beBytes 8 (fillerToken H (primesNat primes) skFmt nonce idx pos)) := by
  have haddend : deriveNoiseTokenAddend H skFmt nonce pos (keyElem (primesNat primes) idx) =
      .ok (addendVal (H skFmt (noiseAddendInput nonce pos)).toList
        (keyElem (primesNat primes) idx)) := by
    rw [deriveNoiseTokenAddend, addendOf_eq_ok _ h (keyElem_lt primes idx), hmacWithSep,
      be5Write_eq, noiseAddendInput, Rust.be5_eq]
  rw [noiseTokenBytes, haddend, ok_bind, fixedEncode_eq, deriveNoiseChar_eq]
  rfl

/-! ### Valid keys -/

theorem primes_ne_nil (hkey : KeyValid (primesNat primes)) : primes ≠ [] :=
  fun h => hkey.nonempty (by rw [h]; rfl)

theorem length_primes_ne_zero (hkey : KeyValid (primesNat primes)) : ¬ primes.length = 0 :=
  fun h => primes_ne_nil hkey (List.length_eq_zero_iff.mp h)

theorem keyElem_ne_one (hkey : KeyValid (primesNat primes)) (idx : Nat) :
    keyElem (primesNat primes) idx ≠ 1 := by
  have := keyElem_range hkey idx
  omega

theorem keyAt_eq_ok (hkey : KeyValid (primesNat primes)) (i : Nat) :
    keyAt primes i = .ok (keyElem (primesNat primes) i) :=
  keyAt_of_ne_nil (primes_ne_nil hkey) i

theorem deriveAddend_eq_ok (hkey : KeyValid (primesNat primes)) (idx : Nat) :
    deriveAddend H skFmt nonce idx (keyElem (primesNat primes) idx) =
      .ok (realAddend H (primesNat primes) skFmt nonce idx) :=
  deriveAddend_of_ne_one H skFmt nonce (keyElem_ne_one hkey idx)

theorem noiseTokenBytes_eq_ok (hkey : KeyValid (primesNat primes)) (idx pos : Nat) :
    noiseTokenBytes H skFmt nonce pos (keyElem (primesNat primes) idx) =
      .ok (beBytes 8 (fillerToken H (primesNat primes) skFmt nonce idx pos)) :=
  noiseTokenBytes_of_ne_one H skFmt nonce (keyElem_ne_one hkey idx) pos

/-! ## Emission -/

/-- The loop for one codepoint writes the noise run and then the real token. -/
theorem emitCodepointV8_eq_ok (hkey : KeyValid (primesNat primes)) (c idx noiseRun pos : Nat)
    (buf : List UInt8) :
    emitCodepointV8 H primes skFmt nonce (deriveNoiseThresholdV8 H skFmt nonce) c idx noiseRun pos
      buf =
      let len := Schedule.run (noiseAt H skFmt nonce) (maxNoiseRun - noiseRun) pos
      let slots := (List.range' pos len).map (fillerToken H (primesNat primes) skFmt nonce idx) ++
        [realToken H (primesNat primes) skFmt nonce idx c]
      .ok (buf ++ slots.flatMap (beBytes 8), pos + len + 1) := by
  induction hcap : maxNoiseRun - noiseRun generalizing noiseRun pos buf with
  | zero =>
      rw [emitCodepointV8, keyAt_eq_ok hkey, ok_bind, dif_neg (by omega),
        deriveAddend_eq_ok H skFmt nonce hkey, ok_bind, fixedEncode_eq]
      simp [Schedule.run, pure, Except.pure, realToken]
  | succ cap ih =>
      rw [emitCodepointV8, keyAt_eq_ok hkey, ok_bind, isNoisePosV8_eq]
      by_cases hnoise : noiseAt H skFmt nonce pos = true
      · rw [dif_pos ⟨by omega, hnoise⟩, noiseTokenBytes_eq_ok H skFmt nonce hkey, ok_bind,
          ih (noiseRun + 1) (pos + 1) _ (by omega)]
        simp only [Schedule.run, if_pos hnoise, List.range'_succ, List.map_cons,
          List.cons_append, List.flatMap_cons, List.append_assoc, Except.ok.injEq, Prod.mk.injEq,
          true_and]
        omega
      · rw [dif_neg (fun h => hnoise h.2), deriveAddend_eq_ok H skFmt nonce hkey, ok_bind,
          fixedEncode_eq]
        simp [Schedule.run, hnoise, pure, Except.pure, realToken]

/-- The loop over the codepoints is the schedule's emission. -/
theorem emitCodepointsV8_eq_ok (hkey : KeyValid (primesNat primes)) (cps : List Nat)
    (idx pos : Nat) (buf : List UInt8) :
    emitCodepointsV8 H primes skFmt nonce (deriveNoiseThresholdV8 H skFmt nonce) cps idx pos buf =
      let slots := Schedule.emit (noiseAt H skFmt nonce) noiseCap
        (realToken H (primesNat primes) skFmt nonce)
        (fillerToken H (primesNat primes) skFmt nonce) idx pos cps
      .ok (buf ++ slots.flatMap (beBytes 8), idx + cps.length, pos + slots.length) := by
  induction cps generalizing idx pos buf with
  | nil => simp [emitCodepointsV8, Schedule.emit, pure, Except.pure]
  | cons c cps ih =>
      rw [emitCodepointsV8, emitCodepointV8_eq_ok H skFmt nonce hkey]
      simp only [ok_bind]
      rw [ih]
      simp only [Schedule.emit, maxNoiseRun, noiseCap, Nat.sub_zero, List.flatMap_append,
        List.flatMap_cons, List.flatMap_nil, List.append_nil, List.append_assoc,
        List.length_append, List.length_map, List.length_range', List.length_cons,
        Except.ok.injEq, Prod.mk.injEq, true_and]
      omega

/-- The top-up loop appends noise up to the ceiling. -/
theorem topUpV8_eq_ok (hkey : KeyValid (primesNat primes)) (ceiling idx cur pos : Nat)
    (buf : List UInt8) :
    topUpV8 H primes skFmt nonce ceiling idx cur pos buf =
      .ok (buf ++ ((List.range' pos (ceiling - cur)).map
        (fillerToken H (primesNat primes) skFmt nonce idx)).flatMap (beBytes 8)) := by
  induction hrest : ceiling - cur generalizing cur pos buf with
  | zero =>
      rw [topUpV8, if_neg (by omega)]
      simp
  | succ rest ih =>
      rw [topUpV8, if_pos (by omega), keyAt_eq_ok hkey, ok_bind,
        noiseTokenBytes_eq_ok H skFmt nonce hkey, ok_bind, ih _ _ _ (by omega)]
      simp [List.range'_succ]

/-- The emission writes the tokens of the format. -/
theorem emitTokensV8_eq_ok (hkey : KeyValid (primesNat primes)) (cps : List Nat) :
    emitTokensV8 H cps primes skFmt nonce (deriveNoiseThresholdV8 H skFmt nonce) =
      .ok ((tokensOf H (primesNat primes) skFmt nonce cps).flatMap (beBytes 8)) := by
  rw [emitTokensV8, emitCodepointsV8_eq_ok H skFmt nonce hkey]
  simp only [ok_bind, List.nil_append, Nat.zero_add]
  rw [topUpV8_eq_ok H skFmt nonce hkey, length_flatMap_beBytes, tokenWidth,
    Nat.mul_div_cancel _ (by decide), ← List.flatMap_append]
  rfl

/-! ## Decoding -/

/-- The skipping loop stops at the end of the noise run or of the tokens. -/
theorem skipNoiseV8_eq (nTokens noiseRun pos : Nat) (hpos : pos ≤ nTokens) :
    skipNoiseV8 H skFmt nonce (deriveNoiseThresholdV8 H skFmt nonce) nTokens noiseRun pos =
      min (pos + Schedule.run (noiseAt H skFmt nonce) (maxNoiseRun - noiseRun) pos) nTokens := by
  induction hcap : maxNoiseRun - noiseRun generalizing noiseRun pos with
  | zero =>
      rw [skipNoiseV8, if_neg (by omega)]
      simp [Schedule.run, hpos]
  | succ cap ih =>
      rw [skipNoiseV8, isNoisePosV8_eq]
      by_cases hend : pos < nTokens
      · rw [Schedule.min_run_eq _ hend]
        by_cases hnoise : noiseAt H skFmt nonce pos = true
        · rw [if_pos ⟨by omega, hend, hnoise⟩, if_pos hnoise, ih _ _ hend (by omega)]
        · rw [if_neg (fun h => hnoise h.2.2), if_neg hnoise]
      · rw [if_neg (by omega)]
        omega

/-- The tokens of a blob, as the decoders read them. -/
def blobTokens (blob : List UInt8) : List Nat :=
  (chunksExact 8 (blob.length / 8) blob).map beNat

theorem length_blobTokens (blob : List UInt8) : (blobTokens blob).length = blob.length / 8 := by
  simp [blobTokens]

/-- `fixed_decode` at a token's offset reads the token. -/
theorem getElem?_blobTokens {blob : List UInt8} {i : Nat} (h : i < blob.length / 8) :
    (blobTokens blob)[i]? = some (fixedDecode (blob.drop (i * tokenWidth))) := by
  rw [blobTokens, List.getElem?_map, getElem?_chunksExact h, fixedDecode_eq]
  rfl

/-- The decoding loop returns what the schedule's replay reads, and `NULL` where that fails. -/
theorem readTokensV8_eq (hkey : KeyValid (primesNat primes)) (blob : List UInt8)
    (n idx pos : Nat) (out : List Nat) (hpos : pos ≤ blob.length / 8) :
    readTokensV8 H primes skFmt nonce (deriveNoiseThresholdV8 H skFmt nonce) blob
      (blob.length / 8) (idx + n) idx pos out =
      ofOption ((Schedule.decode (noiseAt H skFmt nonce) noiseCap
        (recoverToken H (primesNat primes) skFmt nonce) (blobTokens blob) n idx pos).map
          (out ++ ·)) := by
  induction n generalizing idx pos out with
  | zero =>
      rw [readTokensV8, if_neg (by omega)]
      simp [Schedule.decode]
  | succ n ih =>
      have hskip : skipNoiseV8 H skFmt nonce (deriveNoiseThresholdV8 H skFmt nonce)
          (blob.length / 8) 0 pos =
            min (pos + Schedule.run (noiseAt H skFmt nonce) noiseCap pos) (blob.length / 8) :=
        skipNoiseV8_eq H skFmt nonce _ _ _ hpos
      rw [readTokensV8, if_pos (by omega), hskip, Schedule.decode]
      by_cases hlt : pos + Schedule.run (noiseAt H skFmt nonce) noiseCap pos < blob.length / 8
      · rw [getElem?_blobTokens hlt, Nat.min_eq_left (Nat.le_of_lt hlt), if_neg (by omega)]
        generalize fixedDecode (blob.drop _) = token
        rw [keyAt_eq_ok hkey, ok_bind, deriveAddend_eq_ok H skFmt nonce hkey, ok_bind,
          Option.bind_eq_bind, Option.bind_some, recoverToken_eq]
        dsimp only
        by_cases hform : token < realAddend H (primesNat primes) skFmt nonce idx ∨
            (token - realAddend H (primesNat primes) skFmt nonce idx) %
              keyElem (primesNat primes) idx ≠ 0
        · rw [if_pos hform, if_pos hform]
          rfl
        · rw [if_neg hform, if_neg hform]
          by_cases hscalar : IsScalar ((token - realAddend H (primesNat primes) skFmt nonce idx) /
              keyElem (primesNat primes) idx)
          · rw [if_neg (fun h => (not_isScalar_iff _).mpr h hscalar), if_pos hscalar,
              show idx + (n + 1) = idx + 1 + n by omega, ih _ _ _ hlt, Option.bind_some]
            cases Schedule.decode (noiseAt H skFmt nonce) noiseCap
              (recoverToken H (primesNat primes) skFmt nonce) (blobTokens blob) n (idx + 1)
              (pos + Schedule.run (noiseAt H skFmt nonce) noiseCap pos + 1) <;> simp
          · rw [if_pos ((not_isScalar_iff _).mp hscalar), if_neg hscalar]
            rfl
      · rw [Nat.min_eq_right (Nat.le_of_not_lt hlt), if_pos (Nat.le_refl _),
          List.getElem?_eq_none (by rw [length_blobTokens]; omega)]
        rfl

/-! ## Keystream -/

/-- With the blocks so far in the buffer, the loop appends the remaining ones. -/
theorem varintKeystreamLoop_eq_ok {nBlocks : Nat} (hn : nBlocks < 2 ^ 32) (b : Nat)
    (hb : b ≤ nBlocks) :
    varintKeystreamLoop H skFmt nonce nBlocks b
      ((List.range b).flatMap fun i => (H skFmt (keystreamInput nonce i)).toList) =
      .ok ((List.range nBlocks).flatMap fun i => (H skFmt (keystreamInput nonce i)).toList) := by
  induction hrest : nBlocks - b generalizing b with
  | zero =>
      rw [varintKeystreamLoop, if_neg (by omega), show b = nBlocks by omega]
  | succ rest ih =>
      rw [varintKeystreamLoop, if_pos (by omega), if_pos (by omega), ← ih (b + 1) (by omega)
        (by omega), List.range_succ, List.flatMap_append, hmacWithSep, be4Write_eq]
      simp [keystreamInput]

/-- Below the reach of the 32-bit counter the keystream loop ends, and masking with what it
returns is the masking of the format. -/
theorem exists_varintKeystreamAlloc (bs : List UInt8) (h : bs.length ≤ 32 * (2 ^ 32 - 1)) :
    ∃ ks, varintKeystreamAlloc H skFmt nonce bs.length = .ok ks ∧
      xorBytes bs ks = maskWith H skFmt nonce bs := by
  by_cases hnil : bs.length = 0
  · refine ⟨[], by rw [varintKeystreamAlloc, if_pos hnil], ?_⟩
    rw [List.length_eq_zero_iff.mp hnil]
    rfl
  · have hloop := varintKeystreamLoop_eq_ok H skFmt nonce
      (show (bs.length + 32 - 1) / 32 < 2 ^ 32 by omega) 0 (Nat.zero_le _)
    refine ⟨_, ?_, (xorBytes_take bs _).symm⟩
    rw [varintKeystreamAlloc, if_neg hnil]
    exact hloop

end Napqes.C
