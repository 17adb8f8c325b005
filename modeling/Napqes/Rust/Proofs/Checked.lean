import Napqes.Rust.Checked
import Napqes.Rust.Proofs.Counters
import Napqes.Rust.Proofs.Total
import Napqes.Rust.Proofs.StreamDecrypt

/-!
# The v8 decoders are total

On every byte string below `2^36` bytes the checked decoders compute what the plain ones compute,
and these return. Every bound comes from a length: a position is at most the number of tokens or of
bytes, and an addend is below its key element.
-/

namespace Napqes.Rust

variable {ε : Type} {H : Hmac} {primes : List Nat} {kb nonce : List UInt8}

/-! ## Derivations -/

theorem deriveNoiseThresholdV8Checked_eq :
    (deriveNoiseThresholdV8Checked H kb nonce : RustM ε Nat) =
      .ok (deriveNoiseThresholdV8 H kb nonce) := by
  have htau := u64FromBe8_lt (H kb (thresholdInput nonce)).toList
  have hspan : thetaMax - thetaMin < 2 ^ 64 := by decide
  have hle : thetaMin ≤ thetaMax := by decide
  have hmax : thetaMax < 2 ^ 64 := by decide
  have hproduct : u64FromBe8 (H kb (thresholdInput nonce)).toList * (thetaMax - thetaMin) <
      2 ^ 128 := by
    rw [show (2 : Nat) ^ 128 = 2 ^ 64 * 2 ^ 64 by decide]
    exact Nat.mul_lt_mul_of_lt_of_le htau (Nat.le_of_lt hspan) (by decide)
  rw [deriveNoiseThresholdV8Checked, checkedSub_of_le hle, ok_bind, if_pos hproduct]
  exact u64_of_lt (Nat.lt_trans (deriveNoiseThresholdV8_range H kb nonce).2 hmax)

theorem keyAtChecked_eq (hkey : KeyValid primes) (i : Nat) :
    (keyAtChecked primes i : RustM ε Nat) = .ok (keyElem primes i) := by
  rw [keyAtChecked, checkedRem_of_pos (List.length_pos_iff.mpr hkey.nonempty), ok_bind]
  simp only [index, getElem?_keyElem hkey.nonempty i]

theorem capacity_eq_ok {parts : List Nat} (h : parts.sum < 2 ^ 64) :
    (capacity parts : RustM ε Nat) = .ok parts.sum := by
  induction parts with
  | nil => rfl
  | cons part parts ih =>
      rw [List.sum_cons] at h
      rw [capacity, ih (by omega), ok_bind, List.sum_cons]
      exact u64_of_lt h

theorem verifyChunkTagChecked_eq (skFmt : List UInt8) (f : Nat) (nonce : FixedBytes nonceSize)
    (idx : Nat) (aad : ByteSlice) {masked : List UInt8} (hlen : masked.length < 2 ^ 36)
    (recvTag : List UInt8) :
    (verifyChunkTagChecked H skFmt f nonce idx aad masked recvTag : RustM ε Bool) =
      .ok (hmacVerify H skFmt (chunkTagInput f nonce idx aad.bytes masked) recvTag) := by
  have haad := aad.length_lt
  rw [verifyChunkTagChecked, capacity_eq_ok (by simp [aadLenWidthV8]; omega)]
  rfl

theorem verifySentinelTagChecked_eq (skFmt : List UInt8) (f : Nat) (nonce : FixedBytes nonceSize)
    (idx : Nat) (aad : ByteSlice) (total : Nat) (recvTag : List UInt8) :
    (verifySentinelTagChecked H skFmt f nonce idx aad total recvTag : RustM ε Bool) =
      .ok (hmacVerify H skFmt (sentinelTagInput f nonce idx aad.bytes total) recvTag) := by
  have haad := aad.length_lt
  rw [verifySentinelTagChecked, capacity_eq_ok (by simp [aadLenWidthV8]; omega)]
  rfl

theorem varintKeystreamChecked_eq {len : Nat} (hlen : len < 2 ^ 36) :
    (varintKeystreamChecked H kb nonce len : RustM ε (List UInt8)) =
      varintKeystream H kb nonce len := by
  rw [varintKeystreamChecked, u64_of_lt (by omega), ok_bind]

/-! ## Tokens -/

theorem tokenOfChunk_eq {chunk : List UInt8} (h : chunk.length = tokenWidth) :
    (tokenOfChunk chunk : RustM ε Nat) = .ok (beNat chunk) := if_pos h

/-- The pieces of a blob of whole tokens are all of the full width. -/
theorem mapM_tokenOfChunk (count : Nat) {data : List UInt8}
    (h : data.length = count * tokenWidth) :
    ((chunksExact tokenWidth count data).mapM tokenOfChunk : RustM ε (List Nat)) =
      .ok ((chunksExact tokenWidth count data).map beNat) := by
  induction count generalizing data with
  | zero => rfl
  | succ count ih =>
      rw [Nat.add_mul, Nat.one_mul] at h
      have hhead : (data.take tokenWidth).length = tokenWidth := by simp; omega
      have htail : (data.drop tokenWidth).length = count * tokenWidth := by simp; omega
      rw [chunksExact, List.mapM_cons, tokenOfChunk_eq hhead, ok_bind, ih htail]
      rfl

theorem fixedDecodeTokensChecked_eq (data : List UInt8) :
    fixedDecodeTokensChecked data = fixedDecodeTokens data := by
  have hwidth : 0 < tokenWidth := by decide
  rw [fixedDecodeTokensChecked, fixedDecodeTokens, checkedRem_of_pos hwidth, ok_bind]
  by_cases hrest : data.length % tokenWidth = 0
  · rw [if_neg (not_not.mpr hrest), if_neg (not_not.mpr hrest), checkedDiv_of_pos hwidth, ok_bind]
    apply mapM_tokenOfChunk
    exact (Nat.div_mul_cancel (Nat.dvd_of_mod_eq_zero hrest)).symm
  · rw [if_pos hrest, if_pos hrest]

theorem skipNoiseV8Checked_eq {nTokens : Nat} (hlen : nTokens ≤ 2 ^ 40) (theta run pos : Nat) :
    (skipNoiseV8Checked H kb nonce theta nTokens run pos : RustM ε (Nat × Nat)) =
      .ok (skipNoiseV8 H kb nonce theta nTokens run pos) := by
  induction hcap : maxNoiseRun - run generalizing run pos with
  | zero =>
      rw [skipNoiseV8Checked, skipNoiseV8, dif_neg (by omega), if_neg (by omega)]
      rfl
  | succ cap ih =>
      have hrun : run < maxNoiseRun := by omega
      rw [skipNoiseV8Checked, skipNoiseV8]
      by_cases hend : pos < nTokens
      · rw [dif_pos ⟨hrun, hend⟩, isNoisePosV8Checked_eq (by omega), ok_bind]
        by_cases hnoise : isNoisePosV8 H kb nonce pos theta = true
        · have hword : run + 1 < 2 ^ 64 := by
            simp only [maxNoiseRun] at hrun
            omega
          rw [if_pos hnoise, if_pos ⟨hrun, hend, hnoise⟩, u64_of_lt (by omega), ok_bind,
            u64_of_lt hword, ok_bind]
          exact ih (run + 1) (pos + 1) (by omega)
        · rw [if_neg hnoise, if_neg fun h => hnoise h.2.2]
          rfl
      · rw [dif_neg fun h => hend h.2, if_neg fun h => hend h.2.1]
        rfl

theorem misfitsChecked_eq {token addend k : Nat} (hk : 0 < k) :
    (misfitsChecked token addend k : RustM ε Bool) =
      .ok (decide (token < addend ∨ (token - addend) % k ≠ 0)) := by
  rw [misfitsChecked]
  by_cases hlt : token < addend
  · rw [if_pos hlt]
    simp [hlt, pure, Except.pure]
  · rw [if_neg hlt, checkedSub_of_le (Nat.le_of_not_lt hlt), ok_bind, checkedRem_of_pos hk, ok_bind]
    simp [hlt, pure, Except.pure]

theorem deriveAddendChecked_eq {idx k : Nat} (h : idx < 2 ^ 40) (hk : 2 ≤ k) :
    (deriveAddendChecked H kb nonce idx k : RustM ε Nat) = deriveAddend H kb nonce idx k := by
  rw [deriveAddendChecked, be5Checked_of_lt h, ok_bind, addendOfChecked_eq _ _ hk]
  rfl

/-- Under the bounds of `be5` the checked loop is the plain one. -/
theorem readTokensV8Checked_eq (errors : TokenErrors) (hkey : KeyValid primes) (theta : Nat)
    {tokens : List Nat} (hlen : tokens.length ≤ 2 ^ 40) {realCount : Nat}
    (hcount : realCount ≤ 2 ^ 40) (idx pos : Nat) (acc : List Nat) :
    readTokensV8Checked H errors primes kb nonce theta tokens realCount idx pos acc =
      readTokensV8 H errors primes kb nonce theta tokens realCount idx pos acc := by
  induction hleft : realCount - idx generalizing idx pos acc with
  | zero => rw [readTokensV8Checked, readTokensV8, if_neg (by omega), if_neg (by omega)]
  | succ left ih =>
      have hrange := keyElem_range hkey idx
      rw [readTokensV8Checked, readTokensV8, if_pos (by omega), if_pos (by omega),
        skipNoiseV8Checked_eq hlen, ok_bind]
      simp only
      by_cases hend :
          (skipNoiseV8 H kb nonce theta tokens.length 0 pos).2 < tokens.length
      · rw [if_neg (Nat.not_le.mpr hend), dif_pos hend, keyAtChecked_eq hkey, ok_bind,
          keyAt_eq_ok hkey, ok_bind, deriveAddendChecked_eq (by omega) (by omega),
          deriveAddend_eq_ok H kb nonce hkey, ok_bind, ok_bind, index_of_lt hend, ok_bind,
          misfitsChecked_eq (by omega), ok_bind]
        simp only [decide_eq_true_eq]
        split
        case isTrue => rfl
        case isFalse hfits =>
          rw [checkedSub_of_le (by omega), ok_bind, checkedDiv_of_pos (by omega), ok_bind]
          split
          case isTrue hscalar => rfl
          case isFalse hscalar =>
            rw [if_pos (not_not.mp hscalar), u64_of_lt (by omega), ok_bind, u64_of_lt (by omega),
              ok_bind]
            exact ih (idx + 1) _ _ (by omega)
      · rw [if_pos (Nat.le_of_not_lt hend), dif_neg hend]

theorem unpadMessageChecked_eq (padded : List Nat) :
    unpadMessageChecked padded = unpadMessage padded := by
  rcases padded with _ | ⟨hi, _ | ⟨lo, rest⟩⟩
  · rfl
  · rfl
  · rw [unpadMessageChecked, unpadMessage, if_neg (by simp)]
    simp only [index, List.getElem?_cons_zero, List.getElem?_cons_succ, ok_bind]
    by_cases hbytes : hi > 0xFF ∨ lo > 0xFF
    · rw [if_pos hbytes, if_pos hbytes]
    · have hword := lengthPrefix_lt hbytes
      rw [if_neg hbytes, if_neg hbytes, u64_of_lt (by omega), ok_bind]
      by_cases hlong : 2 + ((hi <<< 8) ||| lo) > rest.length + 2
      · rw [if_pos (by simpa using hlong), if_pos hlong]
        simp [checkedSub]
      · rw [if_neg (by simpa using hlong), if_neg hlong, slice_of_le (by omega) (by simp; omega)]
        simp

theorem decryptCoreV8Checked_eq (hkey : KeyValid primes) {tokens : List Nat}
    (hlen : tokens.length ≤ 2 ^ 40) :
    decryptCoreV8Checked H nonce tokens primes kb = decryptCoreV8 H nonce tokens primes kb := by
  have hunit : 0 < maxNoiseRun + 1 := by decide
  rw [decryptCoreV8Checked, decryptCoreV8, u64_of_lt (by decide), ok_bind]
  simp only
  rw [checkedRem_of_pos hunit, ok_bind]
  by_cases hrest : tokens.length % (maxNoiseRun + 1) = 0
  · rw [if_neg (not_not.mpr hrest), if_neg (not_not.mpr hrest), checkedDiv_of_pos hunit, ok_bind]
    have hcount : tokens.length / (maxNoiseRun + 1) ≤ 2 ^ 40 :=
      (Nat.div_le_self _ _).trans hlen
    split
    case isTrue =>
      rw [deriveNoiseThresholdV8Checked_eq, ok_bind, readTokensV8Checked_eq _ hkey _ hlen hcount]
      simp only [unpadMessageChecked_eq]
    case isFalse =>
      rw [checkedShl_of_lt (by decide), ok_bind, checkedShl_of_lt (by decide), ok_bind]
  · rw [if_pos hrest, if_pos hrest]

theorem decryptV8StreamChunkCoreChecked_eq (hkey : KeyValid primes) {tokens : List Nat}
    (hlen : tokens.length ≤ 2 ^ 40) {f : Nat} (hf : f ≤ 2 ^ 40) :
    decryptV8StreamChunkCoreChecked H tokens primes kb nonce f =
      decryptV8StreamChunkCore H tokens primes kb nonce f := by
  rw [decryptV8StreamChunkCoreChecked, deriveNoiseThresholdV8Checked_eq, ok_bind,
    readTokensV8Checked_eq _ hkey _ hlen hf]
  rfl

/-! ## Blocks -/

theorem verifyAuthTagChecked_eq (aad : ByteSlice) {payload : List UInt8}
    (hnonce : nonceSize ≤ payload.length) (hlen : payload.length < 2 ^ 36)
    (recvTag : List UInt8) :
    (verifyAuthTagChecked H kb aad payload recvTag : RustM ε Bool) =
      .ok (hmacVerify H kb (authTagInput aad.bytes (payload.take nonceSize)
        (payload.drop nonceSize)) recvTag) := by
  have haad := aad.length_lt
  rw [verifyAuthTagChecked, slice_of_le (Nat.zero_le _) hnonce, ok_bind,
    slice_of_le hnonce (Nat.le_refl _), ok_bind, List.drop_zero, Nat.sub_zero,
    List.take_of_length_le (l := payload.drop nonceSize) (by simp),
    capacity_eq_ok (by simp [aadLenWidthV8]; omega)]
  rfl

theorem decryptBytesV8CoreInnerChecked_eq (hkey : KeyValid primes) (skFmt : FixedBytes 32)
    {ciphertext : List UInt8} (hheader : nonceSize + tagSize ≤ ciphertext.length)
    (hlen : ciphertext.length < 2 ^ 36) (aad : ByteSlice) :
    decryptBytesV8CoreInnerChecked H skFmt ciphertext primes aad =
      decryptBytesV8CoreInner H (hmacVerify H) skFmt ciphertext primes aad.bytes := by
  have hpayload : (ciphertext.take (ciphertext.length - tagSize)).length =
      ciphertext.length - tagSize := by simp
  have hnonce : nonceSize ≤ (ciphertext.take (ciphertext.length - tagSize)).length := by
    rw [hpayload]
    omega
  have htag : (ciphertext.drop (ciphertext.length - tagSize)).length ≤
      ciphertext.length - (ciphertext.length - tagSize) := by simp
  have hmasked : ((ciphertext.take (ciphertext.length - tagSize)).drop nonceSize).length ≤
      (ciphertext.take (ciphertext.length - tagSize)).length - nonceSize := by simp
  rw [decryptBytesV8CoreInnerChecked, decryptBytesV8CoreInner,
    if_neg (Nat.not_lt.mpr hheader), checkedSub_of_le (by omega), ok_bind,
    slice_of_le (Nat.zero_le _) (Nat.sub_le _ _), ok_bind,
    slice_of_le (Nat.sub_le _ _) (Nat.le_refl _), ok_bind, List.drop_zero, Nat.sub_zero,
    List.take_of_length_le htag, verifyAuthTagChecked_eq aad hnonce (by omega), ok_bind]
  split
  case isTrue hfail => rw [if_neg hfail]
  case isFalse hmatch =>
    rw [if_pos (not_not.mp hmatch), slice_of_le (Nat.zero_le _) hnonce, ok_bind,
      slice_of_le hnonce (Nat.le_refl _), ok_bind, List.drop_zero, Nat.sub_zero,
      List.take_of_length_le hmasked, varintKeystreamChecked_eq (by omega)]
    apply bind_congr
    intro ks
    simp only [fixedDecodeTokensChecked_eq]
    apply bind_congr_of_ok
    intro tokens htokens
    obtain ⟨-, rfl⟩ := (fixedDecodeTokens_eq_ok_iff _ _).mp (mapErr_eq_ok htokens)
    rw [decryptCoreV8Checked_eq hkey]
    rw [List.length_map, length_chunksExact, length_xorBytes]
    omega

theorem decryptBytesV8Checked_eq (hkey : KeyValid primes) {ciphertext : List UInt8}
    (hlen : ciphertext.length < 2 ^ 36) (sk : FixedBytes skSize) (aad : ByteSlice) :
    decryptBytesV8Checked H ciphertext primes sk aad =
      decryptBytesV8 H ciphertext primes sk aad.bytes := by
  rw [decryptBytesV8Checked, decryptBytesV8]
  apply bind_congr
  intro _
  rw [decryptBytesV8CoreChecked, decryptBytesV8Core, u64_of_lt (by decide), ok_bind]
  by_cases hheader : ciphertext.length < nonceSize + tagSize
  · rw [if_pos hheader, if_pos hheader]
  · rw [if_neg hheader, if_neg hheader, checkedSub_of_le (by omega), ok_bind,
      checkedSub_of_le (by omega), ok_bind, u64_of_lt (by decide), ok_bind,
      checkedRem_of_pos (by decide), ok_bind]
    simp only [decryptBytesV8CoreInnerChecked_eq hkey _ (Nat.le_of_not_lt hheader) hlen aad]

/-! ## Streams -/

section
variable {skFmt : FixedBytes 32} {f : Nat} {nonce : FixedBytes nonceSize} {stream : List UInt8}

theorem readStreamSentinelChecked_eq (aad : ByteSlice) (hlen : stream.length < 2 ^ 36) {pos : Nat}
    (hpos : pos ≤ stream.length) (idx : Nat) {delivered : List Nat} {pending : Option (List Nat)}
    (hread : delivered.length + (pending.map List.length).getD 0 ≤ stream.length) :
    readStreamSentinelChecked H skFmt aad f nonce stream pos idx delivered pending =
      readStreamSentinel H (hmacVerify H) skFmt aad.bytes f nonce (stream.drop pos) idx delivered
        pending := by
  have htag : tagSize = 32 := rfl
  rw [readStreamSentinelChecked, readStreamSentinel, u64_of_lt (by omega), ok_bind,
    List.length_drop]
  by_cases hbody : stream.length < pos + 8 + tagSize
  · rw [if_pos hbody, if_pos (by omega)]
  · rw [if_neg hbody, if_neg (by omega), slice_of_le (by omega) (by omega), ok_bind,
      Nat.add_sub_cancel_left, slice_of_le (by omega) (by omega)]
    simp only [ok_bind, verifySentinelTagChecked_eq, List.drop_drop, Nat.add_sub_cancel_left]
    split
    case isTrue => rfl
    case isFalse =>
      rw [u64_of_lt (by omega), ok_bind]
      split
      case isTrue => rfl
      case isFalse hconsistent =>
        have hrest : (stream.drop (pos + (8 + tagSize))).length =
            stream.length - (pos + 8 + tagSize) := by
          rw [List.length_drop]
          omega
        have hend : ∀ cps : List Nat,
            (if pos + 8 + tagSize ≠ stream.length then do
              let extra ← checkedSub stream.length (pos + 8 + tagSize)
              err s!"Trailing bytes after sentinel: {extra} extra bytes."
            else collectStreamString cps) =
            let extra := stream.length - (pos + 8 + tagSize)
            if extra ≠ 0 then err s!"Trailing bytes after sentinel: {extra} extra bytes."
            else collectStreamString cps := by
          intro cps
          rw [checkedSub_of_le (Nat.le_of_not_lt hbody)]
          exact if_congr (by omega) rfl rfl
        rw [hrest]
        cases pending with
        | none => exact hend delivered
        | some p =>
            have hge : delivered.length ≤ u64FromBe8 ((stream.drop pos).take 8) ^^^
                streamV8CountMask H skFmt f nonce idx := by
              simp [streamCountConsistent] at hconsistent
              omega
            rw [checkedSub_of_le hge]
            exact hend _

/-- From every position within the stream, with no more codepoints read than bytes, the checked
loop is the plain one on the rest of the stream. -/
theorem decryptStreamLoopChecked_eq (hkey : KeyValid primes) (aad : ByteSlice)
    (hf : f ≤ streamAeV8MaxFrame) (hlen : stream.length < 2 ^ 36) {pos : Nat}
    (hpos : pos ≤ stream.length) (idx : Nat) {delivered : List Nat} {pending : Option (List Nat)}
    (hread : delivered.length + (pending.map List.length).getD 0 ≤ pos) :
    decryptStreamLoopChecked H primes skFmt aad f nonce stream pos idx delivered pending =
      decryptStreamLoop H (hmacVerify H) primes skFmt aad.bytes f nonce (stream.drop pos) idx
        delivered pending := by
  have htag : tagSize = 32 := rfl
  have hunit : f * tokenWidth * (maxNoiseRun + 1) = f * 160 := by
    rw [Nat.mul_assoc]
    rfl
  rw [streamAeV8MaxFrame] at hf
  induction hrest : stream.length - pos using Nat.strong_induction_on
    generalizing pos idx delivered pending with
  | _ rest ih =>
      rw [decryptStreamLoopChecked, decryptStreamLoop, u64_of_lt (by decide), ok_bind,
        u64_of_lt (by omega), ok_bind, u64_of_lt (by omega), ok_bind, List.length_drop]
      by_cases hheader : stream.length < pos + 4
      · rw [dif_pos hheader, dif_pos (by omega)]
      · rw [dif_neg hheader, dif_neg (by omega), slice_of_le (by omega) (by omega), ok_bind]
        simp only [Nat.add_sub_cancel_left, List.drop_drop]
        by_cases hsentinel : beNat ((stream.drop pos).take 4) = 0
        · rw [if_pos hsentinel, if_pos hsentinel]
          exact readStreamSentinelChecked_eq aad hlen (by omega) idx (by omega)
        · rw [if_neg hsentinel, if_neg hsentinel]
          split
          case isTrue => rfl
          case isFalse hbody =>
            have hchunk := not_not.mp hbody
            rw [hunit] at hchunk
            rw [u64_of_lt (by omega), ok_bind, List.length_drop]
            by_cases hframe :
                stream.length < pos + 4 + beNat ((stream.drop pos).take 4) + tagSize
            · rw [if_pos hframe, if_pos (by omega)]
            · rw [if_neg hframe, if_neg (by omega), slice_of_le (by omega) (by omega), ok_bind,
                slice_of_le (by omega) (by omega), ok_bind]
              simp only [Nat.add_sub_cancel_left]
              rw [verifyChunkTagChecked_eq _ _ _ _ _ (by simp; omega), ok_bind]
              split
              case isTrue => rfl
              case isFalse =>
                apply bind_congr
                intro next
                rw [varintKeystreamChecked_eq (by omega)]
                apply bind_congr
                intro ks
                rw [fixedDecodeTokensChecked_eq]
                apply bind_congr_of_ok
                intro tokens htokens
                obtain ⟨-, rfl⟩ := (fixedDecodeTokens_eq_ok_iff _ _).mp htokens
                rw [decryptV8StreamChunkCoreChecked_eq hkey ?_ (by omega)]
                · apply bind_congr_of_ok
                  intro cps hcps
                  have hlencps := Schedule.length_of_decode _ _ _
                    ((decryptV8StreamChunkCore_eq_ok_iff H _ _ hkey _ _ _).mp hcps)
                  rw [ih _ ?_ (by omega) next ?_ rfl]
                  · rw [Nat.add_assoc]
                  · omega
                  · have hpending : (pending.getD []).length =
                        (pending.map List.length).getD 0 := by cases pending <;> rfl
                    rw [List.length_append, hpending, Option.map_some, Option.getD_some, hlencps]
                    omega
                · rw [List.length_map, length_chunksExact, length_xorBytes]
                  simp
                  omega

end

theorem decryptStreamAeV8InnerChecked_eq (hkey : KeyValid primes) {stream : List UInt8}
    (hlen : stream.length < 2 ^ 36) (skFmt : FixedBytes 32) (aad : ByteSlice) :
    decryptStreamAeV8InnerChecked H stream primes skFmt aad =
      decryptStreamAeV8Inner H (hmacVerify H) stream primes skFmt aad.bytes := by
  rw [decryptStreamAeV8InnerChecked, decryptStreamAeV8Inner, u64_of_lt (by decide), ok_bind,
    show 1 + 4 + nonceSize = 21 from rfl]
  by_cases hheader : stream.length < 21
  · rw [if_pos hheader, if_pos hheader]
  · have hformat : (index stream 0 : RustM String UInt8) = .ok (stream.headD 0) := by
      cases stream with
      | nil => simp at hheader
      | cons b stream => rfl
    rw [if_neg hheader, if_neg hheader, hformat, ok_bind, slice_of_le (by decide) (by omega),
      ok_bind, slice_of_le (by decide) (by omega)]
    simp only [ok_bind]
    split
    case isTrue => rfl
    case isFalse =>
      split
      case isTrue => rfl
      case isFalse hframe =>
        exact decryptStreamLoopChecked_eq hkey aad (by omega) hlen (by omega) 0 (by simp)

/-! ## Totality -/

theorem returns_fixedDecodeTokens (data : List UInt8) : Returns (fixedDecodeTokens data) := by
  rw [fixedDecodeTokens]
  by_cases h : data.length % tokenWidth ≠ 0
  · rw [if_pos h]
    exact .err _
  · rw [if_neg h]
    exact .ok _

section
variable {verify : TagCheck} {skFmt : FixedBytes 32} {aad : List UInt8} {f : Nat}
  {nonce : FixedBytes nonceSize}

theorem returns_readStreamSentinel (rest : List UInt8) (idx : Nat) (delivered : List Nat)
    (pending : Option (List Nat)) :
    Returns (readStreamSentinel H verify skFmt aad f nonce rest idx delivered pending) := by
  unfold readStreamSentinel
  split
  case isTrue => exact .err _
  case isFalse =>
    simp only
    split
    case isTrue => exact .err _
    case isFalse =>
      split
      case isTrue => exact .err _
      case isFalse =>
        split
        case isTrue => exact .err _
        case isFalse => exact returns_collectChars _ _

theorem returns_decryptStreamLoop (hkey : KeyValid primes) (hf : f ≤ streamAeV8MaxFrame)
    (rest : List UInt8) (idx : Nat) (delivered : List Nat) (pending : Option (List Nat)) :
    Returns (decryptStreamLoop H verify primes skFmt aad f nonce rest idx delivered pending) := by
  induction hn : rest.length using Nat.strong_induction_on
    generalizing rest idx delivered pending with
  | _ n ih =>
      rw [decryptStreamLoop]
      simp only
      split
      case isTrue => exact .err _
      case isFalse hheader =>
        split
        case isTrue => exact returns_readStreamSentinel _ _ _ _
        case isFalse =>
          split
          case isTrue => exact .err _
          case isFalse hbody =>
            split
            case isTrue => exact .err _
            case isFalse =>
              split
              case isTrue => exact .err _
              case isFalse =>
                have hchunk : beNat (rest.take 4) ≤ 32 * (2 ^ 32 - 1) := by
                  rw [not_not.mp hbody]
                  simp only [streamAeV8MaxFrame, tokenWidth, maxNoiseRun] at hf ⊢
                  omega
                refine Returns.bind ?_ fun next _ => Returns.bind ?_ fun ks _ =>
                  Returns.bind (returns_fixedDecodeTokens _) fun tokens _ =>
                  Returns.bind (returns_readTokensV8 _ hkey _ _ _ _ _ _ _ _) fun cps _ => ?_
                · rw [nextStreamChunkIdx]
                  split
                  · exact .ok _
                  · exact .err _
                · rw [varintKeystream_eq_ok H _ _ hchunk]
                  exact .ok _
                · apply ih _ ?_ _ _ _ _ rfl
                  simp only [List.length_drop]
                  omega

end

theorem returns_decryptStreamAeV8Inner {verify : TagCheck} (hkey : KeyValid primes)
    (stream : List UInt8) (skFmt : FixedBytes 32) (aad : List UInt8) :
    Returns (decryptStreamAeV8Inner H verify stream primes skFmt aad) := by
  rw [decryptStreamAeV8Inner]
  simp only
  split
  case isTrue => exact .err _
  case isFalse =>
    split
    case isTrue => exact .err _
    case isFalse =>
      split
      case isTrue => exact .err _
      case isFalse hframe => exact returns_decryptStreamLoop hkey (by omega) _ _ _ _

/-! ## Accepted blocks -/

/-- The shape of what `decrypt_bytes_v8` accepts. -/
theorem decryptBytesV8_accepts {ciphertext : List UInt8} {sk : FixedBytes skSize}
    {aad : List UInt8} {s : Str} (hkey : validateKey primes = .ok ⟨⟩)
    (h : decryptBytesV8 H ciphertext primes sk aad = .ok s) :
    ∃ b, ReachableBlock b ∧ ciphertext.length = 48 + 160 * (b + 2) ∧
      ciphertext.drop (ciphertext.length - tagSize) =
        (computeAuthTag H (deriveFormatSubkey H sk formatBlockV8) aad
          (ciphertext.take (ciphertext.length - tagSize))).toList ∧
      s.codepoints.length ≤ min b maxPlaintextCodepoints := by
  have hvalid := (validateKey_iff primes).mp hkey
  rw [decryptBytesV8, hkey, ok_bind, decryptBytesV8Core_eq_ok_iff hvalid] at h
  obtain ⟨nonce, body, tag, b, cps, hopens⟩ := h
  have hnonce := hopens.length_nonce
  have htag := hopens.length_tag
  have hbody := hopens.length_body
  have hcps : cps.length = b + 2 := Schedule.length_of_decode _ _ _ hopens.opened
  obtain ⟨hword, hfits⟩ := length_of_unpadMessage hopens.unpadded
  have hsplit : (nonce ++ body ++ tag).length - tagSize = (nonce ++ body).length := by
    simp only [List.length_append, htag, tagSize]
    omega
  refine ⟨b, hopens.reachable, ?_, ?_, ?_⟩
  · rw [hopens.split, List.length_append, List.length_append]
    omega
  · rw [hopens.split, hsplit, List.drop_left', List.take_left', computeAuthTag,
      List.take_left' hnonce, List.drop_left' hnonce]
    · simpa [hmacVerify, ctEqBytes] using hopens.tag_ok
    · rfl
    · rfl
  · rw [Nat.le_min]
    exact ⟨by omega, hword⟩

/-! ## Main result -/

/-- On every byte string the v8 decoders return `Ok` or `Err`, and what the block decoder accepts
is a block: of a legal length, under its own tag, with a message that fits it. -/
theorem decoders_total (H : Hmac) (primes : List Nat) (hkey : validateKey primes = .ok ⟨⟩)
    (sk : FixedBytes skSize) (skFmt : FixedBytes 32) (aad : ByteSlice) (input : List UInt8)
    (hlen : input.length < 2 ^ 36) :
    Returns (decryptBytesV8Checked H input primes sk aad) ∧
      decryptBytesV8Checked H input primes sk aad = decryptBytesV8 H input primes sk aad.bytes ∧
      Returns (decryptStreamAeV8InnerChecked H input primes skFmt aad) ∧
      decryptStreamAeV8InnerChecked H input primes skFmt aad =
        decryptStreamAeV8Inner H (hmacVerify H) input primes skFmt aad.bytes ∧
      ∀ s, decryptBytesV8Checked H input primes sk aad = .ok s →
        ∃ b, ReachableBlock b ∧ input.length = 48 + 160 * (b + 2) ∧
          input.drop (input.length - tagSize) =
            (computeAuthTag H (deriveFormatSubkey H sk formatBlockV8) aad.bytes
              (input.take (input.length - tagSize))).toList ∧
          s.codepoints.length ≤ min b maxPlaintextCodepoints := by
  have hvalid := (validateKey_iff primes).mp hkey
  have hblock := decryptBytesV8Checked_eq (H := H) hvalid hlen sk aad
  have hstream := decryptStreamAeV8InnerChecked_eq (H := H) hvalid hlen skFmt aad
  refine ⟨?_, hblock, ?_, hstream, ?_⟩
  · rw [hblock, decryptBytesV8, hkey, ok_bind]
    exact returns_decryptBytesV8Core hvalid input (by omega) sk aad.bytes
  · rw [hstream]
    exact returns_decryptStreamAeV8Inner hvalid input skFmt aad.bytes
  · intro s hs
    rw [hblock] at hs
    exact decryptBytesV8_accepts hkey hs

/-- A sealed block and a sealed stream of two frames: each decoder opens its own and returns on the
other one. -/
theorem decoders_total_sealed :
    ∃ (aad : ByteSlice) (block stream : List UInt8),
      decryptBytesV8Checked zeroHmac block [1000003] (.ofList 32 []) aad = .ok ['h', 'é'] ∧
      (∃ b, ReachableBlock b ∧ block.length = 48 + 160 * (b + 2) ∧
        2 ≤ min b maxPlaintextCodepoints) ∧
      Returns (decryptStreamAeV8InnerChecked zeroHmac block [1000003] (.ofList 32 []) aad) ∧
      decryptStreamAeV8InnerChecked zeroHmac stream [1000003] (.ofList 32 []) aad =
        .ok ['a', 'b', 'c'] ∧
      Returns (decryptBytesV8Checked zeroHmac stream [1000003] (.ofList 32 []) aad) := by
  have hcount : (pieces 2 (Str.codepoints ['a', 'b', 'c'])).length < 2 ^ 32 := by
    rw [length_pieces (by decide)]
    decide
  obtain ⟨block, hblock⟩ : ∃ c, c = sealBlock zeroHmac [1000003]
    (deriveFormatSubkey zeroHmac (.ofList 32 []) formatBlockV8) [7] ['h', 'é'] 16 := ⟨_, rfl⟩
  obtain ⟨stream, hstream⟩ : ∃ s, s = sealStream zeroHmac [1000003] (.ofList 32 []) [7] 2
    (.ofList 16 [1]) (Str.codepoints ['a', 'b', 'c']) := ⟨_, rfl⟩
  have hblockLen : block.length = 48 + 160 * (16 + 2) := by
    rw [hblock]
    exact length_sealBlock [7] (by decide)
  have hstreamLen : stream.length = 21 + 2 * (36 + 160 * 2) + 44 := by
    rw [hstream]
    exact length_sealStream (by decide) _
  have hopenBlock : decryptBytesV8 zeroHmac block [1000003] (.ofList 32 []) [7] =
      .ok ['h', 'é'] := by
    rw [decryptBytesV8, validateKey_1000003, ok_bind,
      decryptBytesV8Core_eq_ok_iff keyValid_1000003, hblock]
    exact blockOpensTo_sealBlock (hmacVerify_self _ _ _) keyValid_1000003
      ⟨4, by decide, by decide, rfl⟩ (by decide) (by decide)
  have hopenStream : decryptStreamAeV8Inner zeroHmac (hmacVerify zeroHmac) stream [1000003]
      (.ofList 32 []) [7] = .ok ['a', 'b', 'c'] := by
    rw [decryptStreamAeV8Inner_eq_ok_iff keyValid_1000003, hstream]
    exact streamOpensTo_sealStream keyValid_1000003 (by decide)
      (fun input _ => hmacVerify_self _ _ input) (Str.isScalar_of_mem_codepoints _) hcount
  obtain ⟨-, hcheckedBlock, hreturnsStream, -, hshape⟩ := decoders_total zeroHmac [1000003]
    validateKey_1000003 (.ofList 32 []) (.ofList 32 []) ⟨[7], by decide⟩ block (by omega)
  obtain ⟨hreturnsBlock, -, -, hcheckedStream, -⟩ := decoders_total zeroHmac [1000003]
    validateKey_1000003 (.ofList 32 []) (.ofList 32 []) ⟨[7], by decide⟩ stream (by omega)
  have hopenChecked := hcheckedBlock.trans hopenBlock
  obtain ⟨b, hreach, hlen, -, hfits⟩ := hshape _ hopenChecked
  exact ⟨_, block, stream, hopenChecked, ⟨b, hreach, hlen, hfits⟩, hreturnsStream,
    hcheckedStream.trans hopenStream, hreturnsBlock⟩

end Napqes.Rust
